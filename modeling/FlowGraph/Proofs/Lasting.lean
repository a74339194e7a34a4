import FlowGraph.Proofs.Iterations

/-!
What lasts. A property of worlds that outlasts each of the few changes that calls, posts, hosts and the handling of fibers
come down to outlasts turns and whatever hosts do; only what goes wrong in a step has to be looked at on its own.
-/
namespace FlowGraph

open World Play

/-- A property of worlds that outlasts whatever can happen, as long as only such failures are reported of steps. -/
structure Lasting (C : Failure → Prop) (P : World → Prop) : Prop where
  calls : Closed (fun w _ => P w) fun _ => True
  alter : ∀ w, P w → ∀ i f (g : Fiber → Fiber), (∀ x : Fiber, x.Goes (g x)) → P (w.modifyEngine i (·.modifyFiber f g))
  entry : ∀ w, P w → ∀ i f, P (w.applyEntry i f).2
  report : ∀ w, P w → ∀ i e, C e → P (w.report i e)
  /-- How fibers stand, what was counted and who listens make no difference. -/
  arrange : ∀ w, P w → ∀ i {g : Engine → Engine}, (∀ e, ∃ queue current steps isObserved wake,
    g e = { e with queue := queue, current := current, steps := steps, isObserved := isObserved, wake := wake }) →
    P (w.modifyEngine i g)
  conclude : ∀ w, P w → ∀ i f, P (w.modifyEngine i (·.finish f))
  abort : ∀ w, P w → ∀ i f, P (w.modifyEngine i (·.abort f))
  push : ∀ w, P w → ∀ name nodes eventNodes settings, P { w with
    engines := w.engines.push { name := name, nodes := nodes, eventNodes := eventNodes, settings := settings } }
  post : ∀ w, P w → ∀ j x output l values, P (w.post j (.begin x output l values))
  finish : ∀ w, P w → ∀ j o output fromOutside, P (w.finishOperation j o output fromOutside)
  drainInbox : ∀ w, P w → ∀ j, P (w.drainInbox j)

namespace Lasting

variable {C : Failure → Prop} {P : World → Prop} {w v : World} {i f : Nat} (h : Lasting C P)

include h

theorem duty (i f : Nat) : Duty i f (fun _ => True) P where
  conduct := h.calls.conduct_of_all
  engages := engages_all _
  reaches _ _ _ _ _ _ := trivial
  heeds _ _ _ _ _ _ := trivial
  alter w hw g hg _ _ := h.alter w hw i f g hg

/-- A step keeps to the property, whether it fails or not. -/
theorem step (hw : P w) (i f : Nat) : P ((Play.step i f).runOn w).2 := by
  have hentry := h.entry w hw i f
  rw [runOn_step]
  split
  · rename_i heq
    rw [heq] at hentry
    exact (h.duty i f).proceed hentry
  · rename_i heq
    rw [heq] at hentry
    exact hentry

theorem rest (hw : P w) (i f : Nat) : P (Play.rest w i f) := by
  unfold Play.rest
  dsimp only
  split
  · exact h.arrange w hw i fun e => ⟨_, _, e.steps, e.isObserved, e.wake, rfl⟩
  · refine h.drainInbox _ (h.arrange _ ?_ i fun e => ⟨e.queue, _, e.steps, e.isObserved, e.wake, rfl⟩) i
    split
    · exact h.conclude w hw i f
    · exact hw

theorem pop (hw : P w) (i f : Nat) (others : List Nat) : P (Play.pop i f others w) := by
  have hpopped : P (w.modifyEngine i fun e => { e with queue := others }) :=
    h.arrange w hw i fun e => ⟨_, e.current, e.steps, e.isObserved, e.wake, rfl⟩
  unfold Play.pop
  split
  · exact h.conclude _ hpopped i f
  · exact hpopped

/-- An iteration keeps to the property if what may go wrong in its step may be reported. -/
theorem iteration (hw : P w) (hfails : ∀ {f others e}, (w.engine i).queue = f :: others →
    ((Play.step i f).runOn (atWork i f others w)).1 = .error e → C e) (hi : Iteration i w v) : P v := by
  cases hi with
  | pop hq _ => exact h.drainInbox _ (h.pop hw i _ _) i
  | @turn _ f others hq _ ht =>
    have htaken : P (w.modifyEngine i fun e => { e with queue := others }) :=
      h.arrange w hw i fun e => ⟨_, e.current, e.steps, e.isObserved, e.wake, rfl⟩
    have hstep : P ((Play.step i f).runOn (atWork i f others w)).2 :=
      h.step (h.arrange _ htaken i fun e => ⟨e.queue, _, e.steps, e.isObserved, e.wake, rfl⟩) i f
    have hcause {e : Failure} := hfails (e := e) hq
    have hcount {s : World} (hs : P s) : P (s.modifyEngine i fun e => { e with steps := e.steps + 1 }) :=
      h.arrange s hs i fun e => ⟨e.queue, e.current, _, e.isObserved, e.wake, rfl⟩
    rcases turn_eq_ok ht with ⟨s, hp, rfl⟩ | ⟨e, s, -, hp, rfl⟩
    · rw [hp] at hstep
      exact h.rest (hcount hstep) i f
    · rw [hp] at hstep hcause
      have hsplit : (s.report i e).modifyEngine i (fun e => { e with steps := e.steps + 1 }.abort f) =
          ((s.report i e).modifyEngine i fun e => { e with steps := e.steps + 1 }).modifyEngine i (·.abort f) := by
        rw [modifyEngine_modifyEngine]
      rw [hsplit]
      exact h.rest (h.abort _ (hcount (h.report s hstep i e (hcause rfl))) i f) i f

theorem hosted : Hosted (fun _ => True) P where
  conduct := h.calls.conduct_of_all
  push := h.push
  observe w hw j _ := h.arrange w hw j fun e => ⟨e.queue, e.current, e.steps, _, e.wake, rfl⟩
  post w hw j x output _ values _ := h.post w hw j x output _ values
  finish w hw j o output fromOutside _ := h.finish w hw j o output fromOutside
  drainInbox := h.drainInbox

/-- What a host does keeps to the property, but for what concerns no engine. -/
theorem deed (haside : P w → v.engines = w.engines → v.disposers = w.disposers → P v) (hw : P w) (hd : Deed w v) : P v :=
  h.hosted.deed (fun _ _ => trivial) haside
    (fun j _ hv => hv ▸ h.arrange w hw j fun e => ⟨e.queue, e.current, e.steps, e.isObserved, _, rfl⟩) hw hd

end Lasting

end FlowGraph
