import FlowGraph.Proofs.Outline
import FlowGraph.Proofs.Uttering
import Mathlib.Logic.Relation

/-!
Whom a failure names. A step that fails blames one node: the one that started the path, if the data outputs it left cannot be
written, the one the fiber has come to, a function node that is computed for it, one of those whose input can neither be
computed nor converted, or the one that a listener speaks for.
-/
namespace FlowGraph

open World Play Relation

/-- What a call into the behaviour of a node may blame it for. -/
def NodeReason.ofCall (stage : Stage) (isMissing : Bool) : NodeReason → Bool
  | .noBehaviour s => s = stage && isMissing
  | .failed s cause => s = stage && !cause.isNode
  | reason => reason.isOwn

/-- What a fiber that comes to a node with the behaviour may blame it for, once its inputs are resolved. -/
def NodeReason.ofVisit : Behaviour → NodeReason → Bool
  | .flow _, .notCommitted => true
  | .flow b, reason => reason.ofCall .triggered b.isNone
  | .async b, reason => reason.ofCall .startAsync b.isNone
  | b, .notTriggerable kind => kind = b.kind
  | _, _ => false

namespace World

/-- The types of all data inputs are known to their registries. -/
def Typed (w : World) : Prop :=
  ∀ x, ∀ s ∈ (w.node x).inputs, s.isFlow = false → ∃ t, (w.registryOf x).valueType s.valueType = .ok t

/-- The function node is computed for a data input of the other. -/
def Draws (w : World) (x y : NodeRef) : Prop :=
  ∃ p ∈ dataPlaces (w.node x), ∃ e, (w.graph x.graph).pulls x.serial p = some e ∧ y = ⟨x.graph, e.source.node⟩ ∧
    (w.node y).kind = .function

/-- How resolving the inputs of a node may go wrong: a function node above it is to blame, or one whose input closes a
cycle, or one whose input does not take what its source has. -/
inductive PullFails (w : World) (x : NodeRef) : Failure → Prop where
  | exec {y : NodeRef} {reason : NodeReason} : TransGen w.Draws x y →
      reason.ofCall .exec (w.node y).definition.behaviour.isMissing = true → PullFails w x (w.nodeFailure y reason)
  | cycle {y z : NodeRef} : ReflTransGen w.Draws x y → w.Draws y z →
      (∃ m, ReflTransGen w.Draws x m ∧ ReflTransGen w.Draws m y ∧ (w.node m).id = (w.node z).id) →
      PullFails w x (w.nodeFailure y (.cycle (w.node z).label))
  | unconvertible {y : NodeRef} {p : Nat} {s o : Socket} {e : Ends} {v : Value} {cause : Failure} :
      ReflTransGen w.Draws x y → (w.node y).inputs[p]? = some s → s.isFlow = false →
      (w.graph y.graph).pulls y.serial p = some e → o = ((w.graph y.graph).outputAt? e.source).getD default →
      (w.registryOf y).convert v o.valueType s.valueType = .error cause →
      PullFails w x (w.nodeFailure y (.unconvertible o.valueType s.valueType s.name cause))

/-- How a step of the fiber may go wrong. -/
inductive StepFails (w : World) (i f : Nat) : Failure → Prop where
  | payload {x : NodeRef} {values : List (String × Value)} {cause : Fault} :
      ((w.engine i).fiber f).due = some (x, values) → StepFails w i f (w.nodeFailure x (.payload (.fault cause)))
  | lost {route : Route} : ((w.engine i).fiber f).next = some route → (w.graph route.graph).endsOf route.wire = none →
      StepFails w i f (.node route.wire.link.target "?" (.unresolved route.wire.link.label))
  | pull {route : Route} {ends : Ends} {e : Failure} : ((w.engine i).fiber f).next = some route →
      (w.graph route.graph).endsOf route.wire = some ends → w.PullFails ⟨route.graph, ends.target.node⟩ e → StepFails w i f e
  | visit {route : Route} {ends : Ends} {x : NodeRef} {reason : NodeReason} : ((w.engine i).fiber f).next = some route →
      (w.graph route.graph).endsOf route.wire = some ends → x = ⟨route.graph, ends.target.node⟩ →
      reason.ofVisit (w.node x).definition.behaviour = true → StepFails w i f (w.nodeFailure x reason)
  | own {x : Option NodeRef} {l : Listener} {rest : List (Option NodeRef × Listener)} {c : Context} {reason : NodeReason} :
      ((w.engine i).fiber f).next = none → ((w.engine i).fiber f).listeners = (x, l) :: rest → l.context? = some c →
      reason.isOwn = true → StepFails w i f (w.nodeFailure c.node reason)
  | listener {x : NodeRef} {l : Listener} {rest : List (Option NodeRef × Listener)} {cause : Failure} :
      ((w.engine i).fiber f).next = none → ((w.engine i).fiber f).listeners = (some x, l) :: rest → cause.isNode = false →
      StepFails w i f (w.nodeFailure x (.listener cause))

theorem PullFails.isNode {w : World} {x : NodeRef} {e : Failure} (h : w.PullFails x e) : e.isNode = true := by
  cases h <;> rfl

theorem StepFails.isNode {w : World} {i f : Nat} {e : Failure} (h : w.StepFails i f e) : e.isNode = true := by
  cases h with
  | pull _ _ hpull => exact hpull.isNode
  | _ => rfl

namespace Outlined

variable {u w : World}

theorem nodeFailure (h : Outlined u w) (x : NodeRef) (reason : NodeReason) : w.nodeFailure x reason = u.nodeFailure x reason := by
  have hid : (w.node x).id = (u.node x).id := (congrArg Node.id (h.node x) :)
  have htype : (w.node x).typeName = (u.node x).typeName := congrArg Definition.typeName (h.definition x)
  rw [World.nodeFailure, World.nodeFailure, hid, htype]

theorem pulls (h : Outlined u w) (x : NodeRef) (p : Nat) :
    (w.graph x.graph).pulls x.serial p = (u.graph x.graph).pulls x.serial p :=
  Graph.pulls_of_outline (h.graph x.graph) x.serial p

theorem dataPlaces (h : Outlined u w) (x : NodeRef) : Play.dataPlaces (w.node x) = Play.dataPlaces (u.node x) := by
  rw [← dataPlaces_outline, h.node, dataPlaces_outline]

theorem kind (h : Outlined u w) (x : NodeRef) : (w.node x).kind = (u.node x).kind := congrArg Definition.kind (h.definition x)

/-- Calls do not change the type of an output. -/
theorem outputType (h : Outlined u w) (g : Nat) (e : End) :
    (((w.graph g).outputAt? e).getD default).valueType = (((u.graph g).outputAt? e).getD default).valueType := by
  have hsame := congrArg (Graph.outputAt? · e) (h.graph g)
  simp only [Graph.outputAt?_outline] at hsame
  have htype := congrArg (Option.map Socket.valueType) hsame
  rw [Option.map_map, Option.map_map] at htype
  cases hw : (w.graph g).outputAt? e with
  | none =>
    cases hu : (u.graph g).outputAt? e with
    | none => rfl
    | some t => rw [hw, hu] at htype; cases htype
  | some s =>
    cases hu : (u.graph g).outputAt? e with
    | none => rw [hw, hu] at htype; cases htype
    | some t =>
      rw [hw, hu] at htype
      exact Option.some.inj htype

end Outlined

/-- Writing the data outputs of a trigger goes wrong with the failure of the node that they are for. -/
theorem payload_of_applyEntry {v w : World} {i f : Nat} {e : Failure} (h : w.applyEntry i f = (.error e, v)) :
    ∃ x values cause, ((w.engine i).fiber f).due = some (x, values) ∧ e = w.nodeFailure x (.payload (.fault cause)) := by
  unfold World.applyEntry at h
  dsimp only at h
  split at h
  · cases h
  · rename_i x values hdue
    have hwritten := ((show Outlined w w from rfl).frame (v := w.modifyEngine i
      (·.modifyFiber f fun f => { f with isWritten := true })) rfl).writeOutputs x values
    split at h
    · cases h
    · rename_i cause z hz
      cases h
      rw [hz] at hwritten
      exact ⟨x, values, cause, hdue, hwritten.nodeFailure x _⟩

end World

theorem NodeReason.ofCall_of_isOwn {reason : NodeReason} (h : reason.isOwn = true) (stage : Stage) (isMissing : Bool) :
    reason.ofCall stage isMissing = true := by
  cases reason with
  | committedTwice | notFlowOutput | endedAfterCommit | custom => rfl
  | _ => cases h

namespace Play

section Calls

variable {u : World} {i f : Nat} {E : Failure → Prop}

theorem yields_tellStarted (i : Nat) (x : NodeRef) : Yields (Outlined u) E (modify (·.tellStarted i x)) fun _ => True :=
  .of_modify fun _ h => h.tell i _

theorem yields_tellEnded (i : Nat) (x : NodeRef) : Yields (Outlined u) E (modify (·.tellEnded i x)) fun _ => True :=
  .of_modify fun _ h => h.tell i _

theorem yields_stamp (g : Nat) (v : Value) : Yields (Outlined u) E (Play.stamp g v) fun _ => True :=
  fun _ h => ⟨h.stamp g v, fun _ _ => trivial, fun _ he => by cases he⟩

/-- A behaviour goes wrong with a failure of no node, or with something that it blames its own node for. -/
def Spoken (u : World) (x : NodeRef) (e : Failure) : Prop :=
  e.isNode = false ∨ ∃ reason : NodeReason, reason.isOwn = true ∧ e = u.nodeFailure x reason

theorem utters_spoken (u : World) (c : Context) : c.Utters (Outlined u) (Spoken u c.node) :=
  ⟨fun _ => .inl, fun _ h reason hown => .inr ⟨reason, hown, h.nodeFailure c.node reason⟩⟩

theorem conduct_outlined (u : World) : Conduct (Upholds (Outlined u)) fun _ => True := (Outlined.drained u 0).toConduct

/-- A call that fails is blamed on its node, with the stage that failed. -/
theorem blames_invoke {x : NodeRef} (stage : Stage) (call : Option (Play Unit))
    (hcall : ∀ y, call = some y → Yields (Outlined u) (Spoken u x) y fun _ => True) : Yields (Outlined u)
    (fun e => ∃ reason : NodeReason, reason.ofCall stage call.isNone = true ∧ e = u.nodeFailure x reason)
    (invoke x stage call) fun _ => True := by
  unfold invoke
  split
  · exact .look fun w h => .of_throw ⟨_, by simp [NodeReason.ofCall], h.nodeFailure x _⟩
  · rename_i y
    refine (hcall y rfl).outcome_bind (fun _ _ => .of_pure trivial) fun e he => ?_
    dsimp only
    split
    · rename_i hnode
      obtain ⟨reason, hown, rfl⟩ := he.resolve_left (by rw [hnode]; exact Bool.noConfusion)
      exact .of_throw ⟨reason, reason.ofCall_of_isOwn hown _ _, rfl⟩
    · rename_i hraw
      exact .look fun w h => .of_throw ⟨_, by simp [NodeReason.ofCall, hraw], h.nodeFailure x _⟩

/-- The behaviour of a node may be missing, and goes wrong at the node only. -/
theorem blames_invoke_map {β : Type} {x : NodeRef} (stage : Stage) (b : Option β) {run : β → Play Unit}
    (hrun : ∀ b, Yields (Outlined u) (Spoken u x) (run b) fun _ => True) : Yields (Outlined u)
    (fun e => ∃ reason : NodeReason, reason.ofCall stage b.isNone = true ∧ e = u.nodeFailure x reason)
    (invoke x stage (b.map run)) fun _ => True := by
  have hinvoke := blames_invoke (u := u) (x := x) stage (b.map run) fun y hy => by
    obtain ⟨b, -, rfl⟩ := Option.map_eq_some_iff.1 hy
    exact hrun b
  rwa [Option.isNone_map] at hinvoke

/-- Who computes a function node blames it for what goes wrong. -/
theorem blames_compute {x : NodeRef} (hx : (u.node x).kind = .function) : Yields (Outlined u)
    (fun e => ∃ reason : NodeReason, reason.ofCall .exec (u.node x).definition.behaviour.isMissing = true ∧
      e = u.nodeFailure x reason) (compute x) fun _ => True := by
  refine .look fun w h => ?_
  rw [← h.definition]
  have hkind : (w.node x).definition.behaviour.kind = .function := (h.kind x).trans hx
  split
  · rename_i b hb
    have hinvoke := blames_invoke_map .exec b fun b =>
      b.yields_run (utters_spoken u ⟨x, .function⟩) (conduct_outlined u) trivial
    rw [hb]
    exact hinvoke
  · rename_i hb
    cases hbehaviour : (w.node x).definition.behaviour with
    | function b => exact absurd hbehaviour (hb b)
    | _ =>
      rw [hbehaviour] at hkind
      cases hkind

theorem yields_fillInput {x : NodeRef} {place : Nat} {s : Socket} (hs : ∃ t, (u.registryOf x).valueType s.valueType = .ok t) :
    Yields (Outlined u) E (fillInput i x place s) fun _ => True := by
  unfold fillInput
  split
  · refine .look fun w h => ?_
    obtain ⟨t, ht⟩ := hs
    rw [h.registryOf, ht]
    refine Yields.bind (.of_pure trivial : Yields (Outlined u) E (pure t) fun _ => True) fun t _ =>
      (yields_stamp x.graph t.create).bind fun v _ => ?_
    refine Yields.bind (.of_modify fun w h => h.modifyNode x (Node.outline_setInput _ place v)) fun _ _ => .look fun w h => ?_
    exact .of_modify fun w h => h.tell i _
  · exact .of_pure trivial

/-- What a source has may not be converted. -/
theorem blames_pullAcross (x : NodeRef) (place : Nat) (s : Socket) (source : End) : Yields (Outlined u)
    (fun e => ∃ v o cause, o = ((u.graph x.graph).outputAt? source).getD default ∧
      (u.registryOf x).convert v o.valueType s.valueType = .error cause ∧
      e = u.nodeFailure x (.unconvertible o.valueType s.valueType s.name cause)) (pullAcross x place s source) fun _ => True := by
  refine .look fun w h => Yields.bind (Q := fun _ => True) (.of_except (fun _ _ => trivial) fun e he => ?_) fun v _ =>
    (yields_stamp x.graph v).bind fun v _ => .of_modify fun w h => h.modifyNode x (Node.outline_setInput _ place v)
  unfold carried at he
  simp only [h.outputType, h.registryOf, h.nodeFailure] at he
  split at he
  · cases he
  · rename_i cause hcause
    cases he
    exact ⟨_, _, cause, rfl, hcause, rfl⟩

/-- The way to a node, and the identifiers of nodes on it. -/
structure Path (u : World) (x₀ : NodeRef) (visiting : List String) (x : NodeRef) : Prop where
  way : ReflTransGen u.Draws x₀ x
  met : ∀ id ∈ visiting, ∃ m, ReflTransGen u.Draws x₀ m ∧ ReflTransGen u.Draws m x ∧ (u.node m).id = id

theorem Path.step {x₀ x y : NodeRef} {visiting : List String} (h : Path u x₀ visiting x) (hy : u.Draws x y) :
    Path u x₀ ((u.node y).id :: visiting) y := by
  refine ⟨h.way.tail hy, fun id hid => ?_⟩
  rcases List.mem_cons.1 hid with rfl | hid
  · exact ⟨y, h.way.tail hy, .refl, rfl⟩
  · obtain ⟨m, hm, hmx, hid⟩ := h.met id hid
    exact ⟨m, hm, hmx.tail hy, hid⟩

/-- A pull blames the node that it came to, or tells of a cycle that it ran into. -/
theorem blames_supply {x₀ x supplier : NodeRef} {resolve : List String → NodeRef → Play Unit} {visiting : List String}
    (hr : ∀ {visiting y}, Path u x₀ visiting y → Yields (Outlined u) (u.PullFails x₀) (resolve visiting y) fun _ => True)
    (hx : Path u x₀ visiting x) (hdraws : (u.node supplier).kind = .function → u.Draws x supplier) :
    Yields (Outlined u) (u.PullFails x₀) (supply i resolve visiting x supplier) fun _ => True := by
  refine .look fun w h => ?_
  have hid : (w.node supplier).id = (u.node supplier).id := (congrArg Node.id (h.node supplier) :)
  have hlabel : (w.node supplier).label = (u.node supplier).label := (congrArg Node.label (h.node supplier) :)
  simp only [hid, hlabel, h.kind]
  split
  · rename_i hkind
    have hstep := hdraws hkind
    have hrest : Yields (Outlined u) (u.PullFails x₀) (do
        resolve ((u.node supplier).id :: visiting) supplier
        modify (·.tellStarted i supplier)
        compute supplier
        modify (·.tellEnded i supplier) : Play Unit) fun _ => True := by
      refine (hr (hx.step hstep)).bind fun _ _ => (yields_tellStarted i supplier).bind fun _ _ =>
        Yields.bind ((blames_compute hkind).mono (fun e he => ?_) fun _ _ => trivial) fun _ _ => yields_tellEnded i supplier
      obtain ⟨reason, hreason, rfl⟩ := he
      exact .exec (.tail' hx.way hstep) hreason
    split
    · rename_i hmet
      refine .look fun v hv => Yields.bind (Q := fun _ => True) (.of_throw ?_) fun _ _ => hrest
      rw [hv.nodeFailure]
      exact .cycle hx.way hstep (hx.met _ hmet)
    · exact hrest
  · exact .of_pure trivial

/-- The inputs of a node above the first one are resolved. -/
theorem blames_resolveWithin (hT : u.Typed) {x₀ : NodeRef} (fuel : Nat) {visiting : List String} {x : NodeRef}
    (hx : Path u x₀ visiting x) : Yields (Outlined u) (u.PullFails x₀) (resolveWithin i fuel visiting x) fun _ => True := by
  induction fuel generalizing visiting x with
  | zero => exact .of_pure trivial
  | succ fuel ih =>
    refine .look fun v hv => (Yields.of_forM (S := fun _ => True) fun place hplace => .look fun w hw => ?_).mono
      (fun _ he => he) fun _ _ => trivial
    rw [hv.dataPlaces] at hplace
    obtain ⟨t, ht, hflow⟩ := socket_of_dataPlaces hplace
    obtain ⟨s, hs, houtline⟩ := socket_of_outline (hw.inputs x).symm ht
    have htype : s.valueType = t.valueType := (congrArg Socket.valueType houtline :)
    have hname : s.name = t.name := (congrArg Socket.name houtline :)
    have hpulls : s.wires.head?.bind (w.graph x.graph).endsOf = (u.graph x.graph).pulls x.serial place := by
      rw [← hw.pulls]
      show _ = ((((w.node x).inputs[place]?).getD default).wires.head?.bind (w.graph x.graph).endsOf)
      rw [hs, Option.getD_some]
    simp only [hs, Option.getD_some, hpulls]
    split
    · refine yields_fillInput ?_
      rw [htype]
      exact hT x t (List.mem_of_getElem? ht) hflow
    · rename_i ends hends
      refine (blames_supply ih hx fun hkind => ⟨place, hplace, ends, hends, rfl, hkind⟩).bind fun _ _ => ?_
      refine (blames_pullAcross x place s ends.source).mono ?_ fun _ _ => trivial
      rintro _ ⟨v, o, cause, ho, hcause, rfl⟩
      rw [htype, hname]
      exact .unconvertible hx.way ht hflow hends ho (htype ▸ hcause)

theorem blames_resolve (hT : u.Typed) (x : NodeRef) : Yields (Outlined u) (u.PullFails x) (resolve i x) fun _ => True := by
  refine .look fun w h => blames_resolveWithin hT _ ⟨.refl, fun id hid => ?_⟩
  rw [List.mem_singleton] at hid
  exact ⟨x, .refl, .refl, by rw [hid]; exact (congrArg Node.id (h.node x) :).symm⟩

theorem yields_abandon_outlined (j o : Nat) : Yields (Outlined u) E (abandon dispose j o) fun _ => True := by
  have hC := conduct_outlined u
  intro w h
  have hkept := keeps_abandon hC.toBearing (obeys_dispose hC) (w := w) (r := w) (j := j) (o := o) rfl
    (fun d _ => by cases d <;> trivial) ⟨rfl, relinquish_upholds (h.frame rfl) h⟩
  refine ⟨hkept.2.2, fun _ _ => trivial, fun e he => ?_⟩
  exact ((yields_abandon (yields_dispose (closed_true _).conduct_of_all) j o w trivial).2.2 e he).elim

theorem blames_startOperation (j : Nat) (x : NodeRef) (input : String) (b : Option AsyncBehaviour) : Yields (Outlined u)
    (fun e => ∃ reason : NodeReason, reason.ofVisit (.async b) = true ∧ e = u.nodeFailure x reason)
    (startOperation j x input b) fun _ => True := by
  refine .look fun w _ => Yields.bind (.of_modify fun _ h => h.frame rfl) fun _ _ => ?_
  have hinvoke := blames_invoke_map .startAsync b fun b =>
    b.yields_run (utters_spoken u ⟨x, .async j (w.engine j).operations.size⟩) (conduct_outlined u) trivial
  refine hinvoke.outcome_bind (fun _ _ => .of_pure trivial) fun e he => ?_
  exact Yields.bind (.of_modify fun _ h => h.frame rfl) fun _ _ => (yields_abandon_outlined j _).bind fun _ _ => .of_throw he

/-- A flow node is blamed for its call, and for not committing. -/
theorem blames_runFlow (x : NodeRef) (input : String) (b : Option FlowBehaviour) : Yields (Outlined u)
    (fun e => ∃ reason : NodeReason, reason.ofVisit (.flow b) = true ∧ e = u.nodeFailure x reason)
    (runFlow i f x input b) fun _ => True := by
  have hinvoke := blames_invoke_map .triggered b fun b =>
    b.yields_run (utters_spoken u ⟨x, .flow i f input⟩) (conduct_outlined u) trivial
  refine (hinvoke.mono (fun e he => ?_) fun _ h => h).bind fun _ _ => .look fun w h => ?_
  · obtain ⟨reason, hreason, rfl⟩ := he
    refine ⟨reason, ?_, rfl⟩
    cases reason with
    | notCommitted => rfl
    | _ => exact hreason
  · split
    · exact Yields.bind (Q := fun _ => True) (.of_throw ⟨.notCommitted, rfl, h.nodeFailure x _⟩) fun _ _ => yields_tellEnded i x
    · exact yields_tellEnded i x

/-- A visit is blamed on the node that was visited. -/
theorem blames_visit (x : NodeRef) (input : String) : Yields (Outlined u)
    (fun e => ∃ reason : NodeReason, reason.ofVisit (u.node x).definition.behaviour = true ∧ e = u.nodeFailure x reason)
    (visit i f x input) fun _ => True := by
  refine .look fun w h => ?_
  rw [h.definition]
  split
  · rename_i b hb
    rw [hb]
    exact blames_runFlow x input b
  · rename_i b hb
    rw [hb]
    exact blames_startOperation i x input b
  · rename_i hflow hasync
    refine .look fun v hv => .of_throw ⟨_, ?_, hv.nodeFailure x _⟩
    cases hbehaviour : (u.node x).definition.behaviour with
    | flow b => exact absurd hbehaviour (hflow b)
    | async b => exact absurd hbehaviour (hasync b)
    | _ => simp [NodeReason.ofVisit]

/-- A listener goes wrong as its context does, or as the node that it was left for. -/
theorem blames_answer (x : NodeRef) (l : Listener) : Yields (Outlined u)
    (fun e => (∃ c, l.context? = some c ∧ ∃ reason : NodeReason, reason.isOwn = true ∧ e = u.nodeFailure c.node reason) ∨
      ∃ cause : Failure, cause.isNode = false ∧ e = u.nodeFailure x (.listener cause)) (answer (some x) l) fun _ => True := by
  have hrun : Yields (Outlined u) (fun e => e.isNode = false ∨ ∃ c, l.context? = some c ∧ ∃ reason : NodeReason,
      reason.isOwn = true ∧ e = u.nodeFailure c.node reason) l.run fun _ => True := by
    refine Listener.yields_run (conduct_outlined u) (fun _ => .inl) (fun c hc => ?_) fun _ _ => trivial
    exact ⟨fun _ => .inl, fun w h reason hown => .inr ⟨c, hc, reason, hown, h.nodeFailure c.node reason⟩⟩
  refine hrun.outcome_bind (fun _ _ => .of_pure trivial) fun e he => ?_
  dsimp only
  split
  · rename_i hnode
    exact .of_throw (.inl (he.resolve_left (by rw [hnode]; exact Bool.noConfusion)))
  · rename_i hraw
    exact .look fun w h => .of_throw (.inr ⟨e, by simpa using hraw, h.nodeFailure x _⟩)

end Calls

end Play

end FlowGraph
