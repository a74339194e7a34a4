import FlowGraph.Proofs.Iterations

/-!
What one engine does is no business of another. A property that concerns one engine, and outlasts whatever is done in the
name of nodes while no fiber of that engine is at work, outlasts the turns of all others.
-/
namespace FlowGraph

open World Play

theorem Iteration.queue_ne_nil {i : Nat} {w v : World} (h : Iteration i w v) : (w.engine i).queue ≠ [] := by
  cases h with
  | pop hq _ => rw [hq]; exact List.cons_ne_nil _ _
  | turn hq _ _ => rw [hq]; exact List.cons_ne_nil _ _

/-- A property of worlds that concerns one engine. It outlasts calls while a fiber of another engine is at work. -/
structure Aloof (i : Nat) (u : World) (Q : World → Prop) : Prop where
  of_engine : ∀ {w z : World}, Q w → z.engines.size = w.engines.size → z.engine i = w.engine i → Q z
  conduct : ∀ {j : Nat}, j ≠ i → ∀ f, Conduct (Upholds fun w => InOrder u (onlyAt j f) w ∧ Q w)
    fun c => ∀ k g input, c.role = .flow k g input → onlyAt j f k = some g
  drainInbox : ∀ {w : World}, Q w → ∀ j, Q (w.drainInbox j)

namespace Aloof

variable {i j f : Nat} {u w z : World} {Q : World → Prop} (hQ : Aloof i u Q)

include hQ

theorem of_local (h : Q w) (hl : Local j w z) (hj : j ≠ i) : Q z := hQ.of_engine h hl.size (hl.others i hj.symm)

theorem modifyEngine (h : Q w) (hj : j ≠ i) (g : Engine → Engine) : Q (w.modifyEngine j g) :=
  hQ.of_engine h (by simp) (engine_modifyEngine_of_ne hj w g)

theorem duty (hj : j ≠ i) (f : Nat) : Duty j f (fun c => ∀ k g input, c.role = .flow k g input → onlyAt j f k = some g)
    fun w => InOrder u (onlyAt j f) w ∧ Q w where
  conduct := hQ.conduct hj f
  engages := ⟨default, f, "", InOrder.admitted default j f ""⟩
  reaches _ _ x _ _ input := InOrder.admitted x j f input
  heeds w h := (InOrder.duty u j f).heeds w h.1
  alter w h g hg hl hb := ⟨(InOrder.duty u j f).alter w h.1 g hg hl hb, hQ.modifyEngine h.2 hj _⟩

theorem step (hu : InOrder u (onlyAt j f) w) (h : Q w) (hj : j ≠ i) : Q ((Play.step j f).runOn w).2 := by
  have happly : InOrder u (onlyAt j f) (w.applyEntry j f).2 ∧ Q (w.applyEntry j f).2 :=
    ⟨hu.applyEntry, hQ.of_local h (Local.applyEntry w j f) hj⟩
  rw [runOn_step]
  split
  · rename_i s heq
    rw [heq] at happly
    exact ((hQ.duty hj f).proceed happly).2
  · rename_i e s heq
    rw [heq] at happly
    exact happly.2

theorem rest (h : Q w) (hj : j ≠ i) (f : Nat) : Q (Play.rest w j f) := by
  unfold Play.rest
  dsimp only
  split
  · exact hQ.modifyEngine h hj _
  · refine hQ.drainInbox ?_ j
    split
    · exact hQ.modifyEngine (hQ.modifyEngine h hj _) hj _
    · exact hQ.modifyEngine h hj _

/-- An iteration of another engine leaves the property alone. -/
theorem iteration (hu : InOrder u atRest w) (h : Q w) (hi : Iteration j w z) (hj : j ≠ i) : Q z := by
  cases hi with
  | pop hq _ =>
    refine hQ.drainInbox ?_ j
    unfold Play.pop
    split
    · exact hQ.modifyEngine (hQ.modifyEngine h hj _) hj _
    · exact hQ.modifyEngine h hj _
  | @turn _ f others hq _ ht =>
    have hstep : Q ((Play.step j f).runOn (atWork j f others w)).2 :=
      hQ.step (hu.take hq) (hQ.modifyEngine (hQ.modifyEngine h hj _) hj _) hj
    rcases turn_eq_ok ht with ⟨s, hp, rfl⟩ | ⟨e, s, -, hp, rfl⟩
    · rw [hp] at hstep
      exact hQ.rest (hQ.modifyEngine hstep hj _) hj f
    · rw [hp] at hstep
      exact hQ.rest (hQ.modifyEngine (hQ.of_local hstep (Local.report s j e) hj) hj _) hj f

end Aloof

end FlowGraph
