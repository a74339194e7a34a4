import FlowGraph.Proofs.Turns

/-!
Runs keep to a `Conduct` as calls do, where it also outlasts how the engine handles its fibers and what it does
for other threads.
-/
namespace FlowGraph

open World Play

namespace Engine

theorem face_finish (e : Engine) (f : Nat) : (e.finish f).face = e.face := by
  rw [finish_frame]
  rfl

theorem face_abort (e : Engine) (f : Nat) : (e.abort f).face = e.face := face_finish _ f

end Engine

/-- The conduct of an engine in a run: related worlds agree about the engine, and the relation outlasts how it
handles its fibers, the outputs that triggers carry, and what other threads asked for. -/
structure Drained (R : World → World → Prop) (i : Nat) : Prop extends Conduct R fun _ => True where
  engine : ∀ {w r}, R w r → w.engine i = r.engine i
  arrange : ∀ {g : Engine → Engine}, (∀ e, (g e).face = e.face) → Stable R (·.modifyEngine i g)
  entry : ∀ {w r}, R w r → ∀ f,
    (w.applyEntry i f).1 = (r.applyEntry i f).1 ∧ R (w.applyEntry i f).2 (r.applyEntry i f).2
  inbox : Stable R (·.drainInbox i)
  /-- What went wrong in a step is reported. -/
  reported : ∀ e, Stable R (·.report i e)

/-- The conduct of an engine in a run, for a property of worlds. -/
theorem Conduct.drained {P : World → Prop} {i : Nat} (h : Conduct (Upholds P) fun _ => True)
    (harrange : ∀ w, P w → ∀ g : Engine → Engine, (∀ e, (g e).face = e.face) → P (w.modifyEngine i g))
    (hentry : ∀ w, P w → ∀ f, P (w.applyEntry i f).2) (hinbox : ∀ w, P w → P (w.drainInbox i))
    (hreported : ∀ w, P w → ∀ e, P (w.report i e)) : Drained (Upholds P) i where
  toConduct := h
  engine h := by rw [h.1]
  arrange {g} hg w _ h := ⟨stable_eq (·.modifyEngine i g) h.1, harrange w h.2 g hg⟩
  entry h f := ⟨by rw [h.1], by rw [h.1], hentry _ h.2 f⟩
  inbox w _ h := ⟨stable_eq (·.drainInbox i) h.1, hinbox w h.2⟩
  reported e w _ h := ⟨stable_eq (·.report i e) h.1, hreported w h.2 e⟩

namespace Onward

variable {u w : World} {i : Nat}

theorem applyPost (w : World) (i : Nat) (p : Post) : Onward w (w.applyPost i p) := by
  cases p with
  | complete o output => exact complete w i o output
  | begin x output l outputs => exact of_local (Local.begin ..)

theorem applyPosts (w : World) (i : Nat) (posts : List Post) :
    Onward w (posts.foldl (fun w p => w.applyPost i p) w) := by
  induction posts generalizing w with
  | nil => exact refl w
  | cons p posts ih => exact (applyPost w i p).trans (ih _)

theorem drainInbox (w : World) (i : Nat) : Onward w (w.drainInbox i) := by
  refine .trans ?_ (applyPosts _ i _)
  exact modifyEngine w i (fun _ => rfl) (fun _ => id) (fun _ => rfl) fun _ _ => rfl

theorem inbox_drainInbox (w : World) (i : Nat) : ((w.drainInbox i).engine i).inbox = [] := by
  refine (applyPosts _ i _).inbox i ?_
  rw [engine_modifyEngine]
  split
  · rfl
  · rename_i hi
    have hnone : w.engines[i]? = none := by simpa using hi
    rw [engine, hnone]
    rfl

theorem drained (u : World) (i : Nat) : Drained (Upholds (Onward u)) i := by
  refine Conduct.drained (closed u _).conduct_of_all ?_ ?_ ?_ ?_
  · exact fun w h g hg => h.trans (of_local (Local.modifyEngine w i hg))
  · exact fun w h f => h.trans (of_local (Local.applyEntry w i f))
  · exact fun w h => h.trans (drainInbox w i)
  · exact fun w h e => h.trans (of_local (Local.report w i e))

end Onward

variable {R : World → World → Prop} {i : Nat} (hD : Drained R i)

include hD

namespace Play

theorem obeys_arrange {g : Engine → Engine} (hg : ∀ e, (g e).face = e.face) :
    Obeys R (modify (·.modifyEngine i g)) :=
  .of_modify fun _ _ h => hD.arrange hg h

theorem obeys_trigger (f : Nat) (route : Route) : Obeys R (trigger i f route) := by
  refine .look fun w r h => ?_
  rw [(hD.seen h).graph]
  split
  · exact .of_throw _
  · refine (obeys_arrange hD ?_).bind fun _ => obeys_reach hD.toConduct trivial
    exact fun _ => rfl

theorem obeys_unwind (f : Nat) (node : Option NodeRef) (l : Listener) (rest : List (Option NodeRef × Listener)) :
    Obeys R (unwind i f node l rest) := by
  refine (obeys_arrange hD ?_).bind fun _ => obeys_answer hD.toConduct node fun _ _ => trivial
  exact fun _ => rfl

theorem obeys_step (f : Nat) : Obeys R (step i f) := by
  refine (Agrees.of_change fun w r h => hD.entry h f).bind fun _ => .look fun w r h => ?_
  rw [hD.engine h]
  generalize (r.engine i).fiber f = fiber
  simp only
  split
  · refine (obeys_arrange hD ?_).bind fun _ => obeys_trigger hD f _
    exact fun _ => rfl
  · split
    · refine (obeys_arrange hD ?_).bind fun _ => obeys_unwind hD f _ _ _
      exact fun _ => rfl
    · exact .of_pure _
  · exact .of_pure _

theorem stable_rest (f : Nat) : Stable R (rest · i f) := by
  intro w r h
  simp only [rest, hD.engine h]
  split
  · refine hD.arrange ?_ h
    exact fun _ => rfl
  · refine hD.inbox (hD.arrange ?_ ?_)
    · exact fun _ => rfl
    · split
      · exact hD.arrange (fun e => e.face_finish f) h
      · exact h

/-- A turn keeps to the relation: its step does, and what comes of a failure does. -/
theorem obeys_turn (f : Nat) : Obeys R (turn i f) := by
  have hrest : Obeys R (modify (rest · i f)) := .of_modify fun _ _ h => stable_rest hD f h
  refine (obeys_arrange hD ?_).bind fun _ => (obeys_step hD f).of_outcome.bind fun out => ?_
  · exact fun _ => rfl
  · cases out with
    | ok _ =>
      refine (obeys_arrange hD ?_).bind fun _ => hrest
      exact fun _ => rfl
    | error e =>
      simp only
      split
      · refine (Agrees.of_modify fun _ _ h => hD.reported e h).bind fun _ => (obeys_arrange hD ?_).bind fun _ => hrest
        exact fun e => Engine.face_abort _ f
      · refine (obeys_arrange hD ?_).bind fun _ => (Agrees.of_throw e).bind fun _ => hrest
        exact fun _ => rfl

/-- The engine settles in the same way in related worlds, post by post. -/
theorem stable_settleWithin (fuel : Nat) : Stable R (settleWithin i fuel) := by
  induction fuel with
  | zero => exact fun _ _ h => h
  | succ fuel ih =>
    intro w r h
    rw [settleWithin, settleWithin, hD.engine h]
    split
    · exact h
    · rename_i f others _
      simp only
      split
      · exact h
      · have hpopped := hD.arrange (g := fun e => { e with queue := others }) (fun _ => rfl) h
        refine ih (hD.inbox ?_)
        split
        · exact hD.arrange (fun e => e.face_finish f) hpopped
        · exact hpopped

theorem stable_settle : Stable R (settle · i) := by
  intro w r h
  simp only [settle, hD.engine h]
  exact stable_settleWithin hD _ h

/-- A drain keeps to the relation, by induction on the turns that are left. -/
theorem obeys_drain (n taken : Nat) : Obeys R (drain i n taken) := by
  induction n generalizing taken with
  | zero =>
    refine .look fun w r h => ?_
    rw [hD.engine h]
    generalize (r.engine i).queue.length = queued
    simp only
    split
    · exact (Agrees.of_modify fun _ _ h => hD.record _ rfl h).bind fun _ => .of_pure _
    · exact .of_pure _
  | succ n ih =>
    refine (Agrees.of_modify fun _ _ h => stable_settle hD h).bind fun _ => .look fun w r h => ?_
    rw [hD.engine h]
    split
    · exact .of_pure _
    · refine (obeys_arrange hD ?_).bind fun _ => (obeys_turn hD _).bind fun _ => ih (taken + 1)
      exact fun _ => rfl

theorem obeys_run (maxSteps : Option Int) (maxSeconds : Option Double) : Obeys R (run i maxSteps maxSeconds) := by
  refine (Agrees.of_modify fun _ _ h => hD.inbox h).bind fun _ => .look fun w r h => ?_
  rw [hD.engine h]
  exact obeys_drain hD _ 0

end Play

end FlowGraph
