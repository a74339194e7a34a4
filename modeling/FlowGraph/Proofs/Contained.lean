import FlowGraph.Proofs.Blaming
import FlowGraph.Proofs.Iterations

/-!
Where the types of all data inputs are known, no failure escapes a drain: a node that fails stops its own path, and
the loop goes on.
-/
namespace FlowGraph

open World Play

theorem World.Typed.outlined {u w : World} (hT : u.Typed) (h : Outlined u w) : w.Typed := by
  intro x s hs hflow
  obtain ⟨k, hk⟩ := List.getElem?_of_mem hs
  obtain ⟨t, ht, houtline⟩ := socket_of_outline (h.inputs x) hk
  have htype : t.valueType = s.valueType := (congrArg Socket.valueType houtline :)
  rw [h.registryOf, ← htype]
  refine hT x t (List.mem_of_getElem? ht) ?_
  rw [← hflow]
  exact (congrArg Socket.isFlow houtline :)

namespace InOrder

variable {u w : World} {i f : Nat}

/-- Where the data outputs of the trigger are written, a step goes wrong in what the fiber comes to, or in a listener. -/
theorem stepFails_proceed (hT : w.Typed) {v : World} (hv : Outlined w v)
    (hnext : ((v.engine i).fiber f).next = ((w.engine i).fiber f).next)
    (hlisteners : ((v.engine i).fiber f).listeners = ((w.engine i).fiber f).listeners)
    (hsome : ∀ l ∈ ((w.engine i).fiber f).listeners, l.1.isSome = true) {e : Failure}
    (he : ((proceed i f).runOn v).1 = .error e) : w.StepFails i f e := by
  cases hroute : ((w.engine i).fiber f).next with
  | some route =>
    rw [hroute] at hnext
    cases hends : (w.graph route.graph).endsOf route.wire with
    | none =>
      rw [runOn_proceed_lost hnext ((hv.endsOf ..).trans hends)] at he
      cases he
      exact .lost hroute hends
    | some ends =>
      rw [runOn_proceed_next hnext ((hv.endsOf ..).trans hends)] at he
      have happroach : Yields (Outlined w) (w.StepFails i f) (approach i f ⟨route.graph, ends.target.node⟩) fun _ => True :=
        Yields.bind (.of_modify fun _ h => h.frame rfl) fun _ _ => (yields_tellStarted i _).bind fun _ _ =>
          (blames_resolve hT _).mono (fun _ hpull => .pull hroute hends hpull) fun _ h => h
      have hvisit : Yields (Outlined w) (w.StepFails i f) (visit i f ⟨route.graph, ends.target.node⟩ route.wire.link.input)
          fun _ => True := by
        refine (blames_visit _ _).mono ?_ fun _ h => h
        rintro _ ⟨reason, hreason, rfl⟩
        exact .visit hroute hends rfl hreason
      exact ((happroach.bind fun _ _ => hvisit) v hv).2.2 e he
  | none =>
    rw [hroute] at hnext
    cases hl : ((w.engine i).fiber f).listeners with
    | nil =>
      rw [proceed, runOn_get] at he
      simp only [hnext, hlisteners, hl] at he
      cases he
    | cons l rest =>
      obtain ⟨node, l⟩ := l
      rw [hl] at hlisteners
      cases hrun : ((v.engine i).fiber f).pending = 0 && !((v.engine i).fiber f).isAborted with
      | true =>
        rw [runOn_proceed_listener hnext hlisteners hrun] at he
        obtain ⟨x, rfl⟩ := Option.isSome_iff_exists.1 (hsome (node, l) (by rw [hl]; exact List.mem_cons_self))
        rcases ((blames_answer x l) (heed i f rest v) (hv.frame rfl)).2.2 e he with ⟨c, hc, reason, hown, rfl⟩ | ⟨cause, hcause, rfl⟩
        · exact .own hroute hl hc hown
        · exact .listener hroute hl hcause
      | false =>
        rw [proceed, runOn_get] at he
        simp only [hnext, hlisteners, hrun] at he
        cases he

/-- A step goes wrong, if it does, with the failure of a node that it concerns. -/
theorem stepFails_step (h : InOrder u (onlyAt i f) w) (hT : w.Typed) {e : Failure}
    (he : ((Play.step i f).runOn w).1 = .error e) : w.StepFails i f e := by
  have houtlined := (show Outlined w w from rfl).applyEntry i f
  have hfiber : (((w.applyEntry i f).2.engine i).fiber f).next = ((w.engine i).fiber f).next ∧
      (((w.applyEntry i f).2.engine i).fiber f).listeners = ((w.engine i).fiber f).listeners := by
    rw [engine_applyEntry h.there, Engine.fiber_modifyFiber]
    split
    · exact ⟨rfl, rfl⟩
    · exact ⟨rfl, rfl⟩
  rw [runOn_step] at he
  split at he
  · rename_i v hv
    rw [hv] at houtlined hfiber
    exact stepFails_proceed hT houtlined hfiber.1 hfiber.2 (fun l hl => (h.atWork.listeners f l hl).1) he
  · rename_i e' v hv
    cases he
    obtain ⟨x, values, cause, hdue, rfl⟩ := payload_of_applyEntry hv
    exact .payload hdue

theorem isNode_step (h : InOrder u (onlyAt i f) w) (hT : w.Typed) {e : Failure}
    (he : ((Play.step i f).runOn w).1 = .error e) : e.isNode = true := (h.stepFails_step hT he).isNode

/-- As long as there is something in the queue, the drain goes on. -/
theorem progress (h : InOrder u atRest w) (hT : w.Typed) (hq : (w.engine i).queue ≠ []) : ∃ v, Iteration i w v := by
  cases hqueue : (w.engine i).queue with
  | nil => exact absurd hqueue hq
  | cons f others =>
    cases hready : ((w.engine i).fiber f).isReady with
    | false => exact ⟨_, .pop hqueue hready⟩
    | true =>
      have htaken := h.take hqueue
      cases hp : (Play.step i f).runOn ((w.modifyEngine i fun e => { e with queue := others }).modifyEngine i
        fun e => { e with current := some f }) with
      | mk out s =>
        cases out with
        | ok _ => exact ⟨_, .turn hqueue hready (turn_ok hp)⟩
        | error e =>
          have hnode := htaken.isNode_step (hT.outlined ((show Outlined w w from rfl).frame rfl)) (e := e) (by rw [hp])
          exact ⟨_, .turn hqueue hready (turn_failed hnode hp)⟩

end InOrder

end FlowGraph
