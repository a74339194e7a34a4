import FlowGraph.Proofs.Iterations

/-!
What stands in an inbox. Other threads put something into the inbox of an engine, and a drain takes it out. Whatever else is
done leaves the inbox as it is, but for who disposes of the engine and empties it.
-/
namespace FlowGraph

open World Play

/-- What is applied leaves alone what has come into the inbox meanwhile. -/
theorem World.inbox_applyPost (w : World) (j : Nat) (p : Post) (i : Nat) :
    ((w.applyPost j p).engine i).inbox = (w.engine i).inbox ∧
      ((w.applyPost j p).engine i).isDisposed = (w.engine i).isDisposed := by
  have hlocal {v z : World} (h : Local j v z) :
      (z.engine i).inbox = (v.engine i).inbox ∧ (z.engine i).isDisposed = (v.engine i).isDisposed :=
    ⟨(congrArg Engine.inbox (h.face i) :), h.isDisposed i⟩
  have htrans {v z : World} (hv : (v.engine i).inbox = (w.engine i).inbox ∧ (v.engine i).isDisposed = (w.engine i).isDisposed)
      (hz : (z.engine i).inbox = (v.engine i).inbox ∧ (z.engine i).isDisposed = (v.engine i).isDisposed) :
      (z.engine i).inbox = (w.engine i).inbox ∧ (z.engine i).isDisposed = (w.engine i).isDisposed :=
    ⟨hz.1.trans hv.1, hz.2.trans hv.2⟩
  cases p with
  | begin x output l values => exact hlocal (Local.begin w j x output l values)
  | complete o output =>
    refine complete_upholds (P := fun v => (v.engine i).inbox = (w.engine i).inbox ∧
      (v.engine i).isDisposed = (w.engine i).isDisposed) ?_ ?_ ?_ ?_ ?_ ⟨rfl, rfl⟩
    · intro v hv
      rw [engine_modifyEngine]
      split
      · exact hv
      · exact hv
    · exact fun v x hv => htrans hv (hlocal (Local.of_engines j (engines_chooseOutput v x output) (disposers_chooseOutput v x output)))
    · exact fun v e hv => htrans hv (hlocal (Local.report v j e))
    · exact fun v x name hv => htrans hv (hlocal (Local.begin v j x name none []))
    · exact fun v e hv => htrans hv (hlocal (Local.of_engines j (engines_tell v j e) (disposers_tell v j e)))

/-- A call to finish from another thread that counts is remembered and left in the inbox. -/
theorem World.engine_finishOperation {w : World} {i o : Nat} (ho : o < (w.engine i).operations.size)
    (hs : ((w.engine i).operation o).isSettled = false) (output : Option String) :
    (w.finishOperation i o output true).engine i =
      ({ (w.engine i).modifyOperation o fun op => { op with isFinished := true } with
        inbox := (w.engine i).inbox ++ [.complete o output] } : Engine).notify := by
  have hi : i < w.engines.size := by
    apply Decidable.byContradiction
    intro hi
    simp [World.engine, hi, show (default : Engine).operations = #[] from rfl] at ho
  simp only [Operation.isSettled, Bool.or_eq_false_iff] at hs
  rw [World.finishOperation]
  simp only [hs, Nat.not_le.2 ho, decide_false, Bool.or_self, Bool.false_eq_true, if_false, if_true]
  rw [World.post, modifyEngine_modifyEngine, engine_modifyEngine_self hi]
  rfl

theorem World.inbox_clear (w : World) (i : Nat) : ((w.modifyEngine i fun e => { e with inbox := [] }).engine i).inbox = [] := by
  rw [engine_modifyEngine]
  split
  · rfl
  · rename_i hi
    have hnone : w.engines[i]? = none := by simpa using hi
    rw [engine, hnone]
    rfl

/-- From `w` to `v` the inbox is left alone, or emptied by who disposes of the engine. -/
structure Untapped (i : Nat) (w v : World) : Prop where
  isDisposed : (w.engine i).isDisposed = true → (v.engine i).isDisposed = true
  inbox : (v.engine i).inbox = (w.engine i).inbox ∨
    (v.engine i).inbox = [] ∧ (v.engine i).isDisposed = true ∧ (w.engine i).isDisposed = false

namespace Untapped

variable {i j f : Nat} {u v w : World}

theorem refl (i : Nat) (w : World) : Untapped i w w := ⟨id, .inl rfl⟩

theorem trans (h : Untapped i u v) (h' : Untapped i v w) : Untapped i u w := by
  refine ⟨fun hd => h'.isDisposed (h.isDisposed hd), ?_⟩
  rcases h'.inbox with hsame | ⟨hempty, hd, hopen⟩
  · rw [hsame]
    exact h.inbox.imp_right fun ⟨hempty, hd, hopen⟩ => ⟨hempty, h'.isDisposed hd, hopen⟩
  · refine .inr ⟨hempty, hd, Bool.eq_false_iff.2 fun hu => ?_⟩
    rw [h.isDisposed hu] at hopen
    cases hopen

theorem of_engine (he : v.engine i = w.engine i) : Untapped i w v := by
  refine ⟨?_, .inl ?_⟩
  · rw [he]
    exact id
  · rw [he]

theorem of_engines (he : v.engines = w.engines) : Untapped i w v := of_engine (engine_congr he i)

theorem frame (h : Untapped i u w) (he : v.engines = w.engines) : Untapped i u v := h.trans (of_engines he)

/-- Neither the inbox nor whether the engine is disposed of has changed. -/
theorem of_same (hinbox : (v.engine i).inbox = (w.engine i).inbox)
    (hd : (v.engine i).isDisposed = (w.engine i).isDisposed) : Untapped i w v := ⟨fun h => hd.trans h, .inl hinbox⟩

theorem of_local (h : Local j w v) : Untapped i w v :=
  of_same (congrArg Engine.inbox (h.face i) :) (h.isDisposed i)

theorem modifyEngine (w : World) (j : Nat) {g : Engine → Engine} (hinbox : ∀ e, (g e).inbox = e.inbox)
    (hd : ∀ e : Engine, e.isDisposed = true → (g e).isDisposed = true) : Untapped i w (w.modifyEngine j g) := by
  refine ⟨?_, .inl ?_⟩
  all_goals rw [engine_modifyEngine]
  · split
    · exact hd _
    · exact id
  · split
    · exact hinbox _
    · rfl

/-- A change of the engine that concerns neither the inbox nor that it is disposed of. -/
theorem arrange (h : Untapped i u w) (j : Nat) {g : Engine → Engine} (hinbox : ∀ e, (g e).inbox = e.inbox)
    (hd : ∀ e : Engine, (g e).isDisposed = e.isDisposed) : Untapped i u (w.modifyEngine j g) :=
  h.trans (modifyEngine w j hinbox fun e he => (hd e).trans he)

theorem modifyOperation (h : Untapped i u w) (j o : Nat) (g : Operation → Operation) :
    Untapped i u (w.modifyEngine j (·.modifyOperation o g)) := h.arrange j (fun _ => rfl) fun _ => rfl

theorem begin (h : Untapped i u w) (j : Nat) (x : NodeRef) (output : String) (l : Option Listener)
    (values : List (String × Value)) : Untapped i u (w.begin j x output l values) :=
  h.trans (of_local (Local.begin w j x output l values))

theorem applyPost (h : Untapped i u w) (j : Nat) (p : Post) : Untapped i u (w.applyPost j p) :=
  h.trans (of_same (w.inbox_applyPost j p i).1 (w.inbox_applyPost j p i).2)

/-- Who finishes an operation on the thread of the engine posts nothing, and who does it elsewhere posts to that engine. -/
theorem finishOperation (h : Untapped i u w) (j o : Nat) (output : Option String) {fromOutside : Bool}
    (hj : fromOutside = true → j ≠ i) : Untapped i u (w.finishOperation j o output fromOutside) := by
  refine finishOperation_upholds (P := Untapped i u) ?_ ?_ ?_ h
  · exact fun w h _ _ => h.modifyOperation j o _
  · exact fun w h _ => h.applyPost j (.complete o output)
  · exact fun w h hout => h.trans (of_engine (engine_modifyEngine_of_ne (hj hout) w _))

theorem relinquish (h : Untapped i u w) (j o : Nat) : Untapped i u (w.relinquish j o) :=
  relinquish_upholds (P := Untapped i u) (h.modifyOperation j o _) h

/-- Nothing that is done in the name of nodes touches the inbox, but for disposing of the engine. -/
theorem closed (u : World) (i : Nat) : Closed (fun w _ => Untapped i u w) fun _ => True where
  stamp g v w _ h := h.frame (engines_stamp w g v)
  write h _ _ _ _ _ _ := h.frame rfl
  setState _ _ _ _ h := h.frame rfl
  setInput _ _ _ _ _ h := h.frame rfl
  assign h _ _ _ _ _ _ := h.frame rfl
  record _ _ _ _ h := h.frame rfl
  tell j e _ w _ h := h.frame (engines_tell w j e)
  hold _ _ _ h := h.frame rfl
  schedule _ _ _ h := h.frame rfl
  store _ _ _ h := h.frame rfl
  subscribe _ _ _ _ h := h.frame rfl
  unsubscribe _ _ _ h := h.frame rfl
  enlist _ _ _ _ _ h := h.frame rfl
  unlist _ _ _ h := h.frame rfl
  report {j} _ _ _ _ _ w _ h := h.trans (of_local (Local.report w j _))
  begin j x output l _ values _ _ _ h := h.begin j x output l values
  commit {_ j f _} _ output l _ w _ h := h.trans (of_local (Local.commitFiber w j f _ output l))
  stop {x j f _} _ w _ h := by
    dsimp only [World.endFiber]
    split
    · exact h
    · exact h.arrange j (fun _ => rfl) fun _ => rfl
  register h j _ _ _ _ := h.arrange j (fun _ => rfl) fun _ => rfl
  enrol {j o _} _ _ _ h := h.modifyOperation j o _
  finish j o output _ _ h := h.finishOperation j o output (by simp)
  dismiss h j o _ _ :=
    (h.arrange j (g := fun e => { e with pending := e.pending.erase o }) (fun _ => rfl) fun _ => rfl).relinquish j o
  close h j _ := h.trans (modifyEngine _ j (fun _ => rfl) fun _ _ => rfl)
  relinquish h j _ _ o := h.relinquish j o
  release h j _ _ := h.arrange j (fun _ => rfl) fun _ => rfl
  clear {w r} h j ho hd := by
    by_cases hj : j = i ∧ j < w.engines.size
    · obtain ⟨rfl, hlt⟩ := hj
      obtain ⟨v, _, hv, hopen⟩ := ho
      refine ⟨fun hu => ?_, .inr ?_⟩
      · rw [engine_modifyEngine_self hlt]
        exact h.isDisposed hu
      · rw [engine_modifyEngine_self hlt]
        refine ⟨rfl, hd hlt, Bool.eq_false_iff.2 fun hu => ?_⟩
        rw [hv.isDisposed hu] at hopen
        cases hopen
    · refine h.trans (of_engine ?_)
      rw [engine_modifyEngine, if_neg hj]

theorem duty (u : World) (i j f : Nat) : Duty j f (fun _ => True) (Untapped i u) where
  conduct := (closed u i).conduct_of_all
  engages := engages_all _
  reaches _ _ _ _ _ _ := trivial
  heeds _ _ _ _ _ _ := trivial
  alter _ h _ _ _ _ := h.arrange j (fun _ => rfl) fun _ => rfl

theorem dispose (w : World) (i j : Nat) : Untapped i w ((Play.dispose j).runOn w).2 :=
  (obeys_dispose (closed w i).conduct_of_all j).upholds (.refl i w)

/-- A step leaves the inbox alone, whether it fails or not. -/
theorem step (h : Untapped i u w) (j f : Nat) : Untapped i u ((Play.step j f).runOn w).2 := by
  have hentry := h.trans (of_local (Local.applyEntry w j f))
  rw [runOn_step]
  split
  · rename_i heq
    rw [heq] at hentry
    exact (duty u i j f).proceed hentry
  · rename_i heq
    rw [heq] at hentry
    exact hentry

end Untapped

/-- Whatever is done between iterations posts something, drains the inbox or leaves it alone. -/
theorem Deed.untapped {w v : World} (h : Deed w v) (i : Nat) : (∃ p : Post, p.Free ∧ v = w.post i p) ∨
    (∃ o output, v = w.finishOperation i o output true) ∨ v = w.drainInbox i ∨ Untapped i w v := by
  have hC := (Untapped.closed w i).conduct_of_all
  have hw : Untapped i w w := .refl i w
  cases h with
  | aside he _ => exact .inr (.inr (.inr (.of_engines he)))
  | makeEngine name nodes settings =>
    refine .inr (.inr (.inr (upholds_makeEngine hC ?_ ?_ fun _ _ _ _ _ _ => trivial)))
    · refine ⟨fun hd => ?_, .inl ?_⟩
      all_goals simp only [World.engine, Array.getElem?_push] at *
      · split
        · rename_i hi
          simp [hi] at hd
          cases hd
        · exact hd
      · split
        · rename_i hi
          simp [hi]
          rfl
        · rfl
    · exact fun _ h j => h.arrange j (fun _ => rfl) fun _ => rfl
  | begin j x output values _ => exact .inr (.inr (.inr (hw.begin j x output _ values)))
  | post j x output values hl =>
    by_cases hj : j = i
    · subst hj
      exact .inl ⟨.begin x output _ values, hl, rfl⟩
    · exact .inr (.inr (.inr (.of_engine (engine_modifyEngine_of_ne hj w _))))
  | @finish j o output fromOutside _ =>
    by_cases hj : fromOutside = true ∧ j = i
    · obtain ⟨rfl, rfl⟩ := hj
      exact .inr (.inl ⟨o, output, rfl⟩)
    · exact .inr (.inr (.inr (hw.finishOperation j o output fun hout hi => hj ⟨hout, hi⟩)))
  | emit t n => exact .inr (.inr (.inr ((World.obeys_emit hC.toBearing t n ⟨rfl, hw⟩).2)))
  | assign g x v => exact .inr (.inr (.inr ((World.obeys_assign hC.toBearing g x v).upholds hw)))
  | putState path v => exact .inr (.inr (.inr ((World.obeys_putState hC.toBearing path v).upholds hw)))
  | act a _ => exact .inr (.inr (.inr ((Action.obeys_perform hC.toBearing (obeys_dispose hC) trivial a).upholds hw)))
  | dispose j => exact .inr (.inr (.inr (.dispose w i j)))
  | drainInbox j =>
    by_cases hj : j = i
    · subst hj
      exact .inr (.inr (.inl rfl))
    · refine .inr (.inr (.inr (drainInbox_upholds (P := Untapped i w) ?_ fun p _ s hs => hs.applyPost j p)))
      exact .of_engine (engine_modifyEngine_of_ne hj w _)
  | wake j b => exact .inr (.inr (.inr (hw.arrange j (fun _ => rfl) fun _ => rfl)))

end FlowGraph
