import FlowGraph.Engine.Host
import FlowGraph.Proofs.Faults
import FlowGraph.Proofs.Outline
import FlowGraph.Proofs.Yields

/-!
Contracts. A contract says what is true of the graphs in a world, what may go with the parts of its engines, and
how calls may fail. One that every behaviour keeps to is kept by whatever a host does.
-/
namespace FlowGraph

open World

/-- Nothing that is undone runs a script. -/
def Disposer.isBare : Disposer → Bool
  | .script _ _ => false
  | _ => true

/-- A node commits in a way that it should not. -/
inductive NodeReason.IsMisuse : NodeReason → Prop
  | notCommitted : IsMisuse .notCommitted
  | committedTwice (output : String) : IsMisuse (.committedTwice output)
  | notFlowOutput (output : String) : IsMisuse (.notFlowOutput output)
  | endedAfterCommit : IsMisuse .endedAfterCommit

structure Contract where
  /-- What is true of the graphs. -/
  holds : World → Prop
  /-- The nodes that are at hand. -/
  uses : NodeRef → Prop
  /-- What those nodes do. -/
  behaviour : NodeRef → Behaviour
  /-- The node may read the value at the input. -/
  takes : NodeRef → String → Value → Prop
  /-- The node may have the value for the setting. -/
  sets : NodeRef → String → Value → Prop
  /-- The node may remember the value. -/
  keeps : NodeRef → String → Value → Prop
  /-- The node may find the variable by its setting. -/
  knows : NodeRef → Variable → Prop
  /-- The node may find the custom event by its setting. -/
  calls : NodeRef → CustomEvent → Prop
  /-- The trigger of a path may carry the value for the output of the node. -/
  gives : NodeRef → String → Value → Prop
  /-- The listener may run when a path is over. -/
  heeds : Listener → Prop
  /-- A path may go along the wire. -/
  leads : Route → Prop
  /-- An operation of the node may be under way. -/
  waits : NodeRef → Prop
  /-- The node may be told of the topic. -/
  hears : Topic → NodeRef → Prop
  /-- Something may go wrong in that way. -/
  admits : Failure → Prop

/-- From `b` to `w` no engine and no operation has gone. -/
structure World.Later (b w : World) : Prop where
  engines : b.engines.size ≤ w.engines.size
  operations : ∀ j, (b.engine j).operations.size ≤ (w.engine j).operations.size

namespace World.Later

variable {b v w : World}

theorem refl (w : World) : Later w w := ⟨Nat.le_refl _, fun _ => Nat.le_refl _⟩

theorem trans (h : Later b v) (h' : Later v w) : Later b w :=
  ⟨Nat.le_trans h.engines h'.engines, fun j => Nat.le_trans (h.operations j) (h'.operations j)⟩

theorem modifyEngine (h : Later b w) (i : Nat) {g : Engine → Engine}
    (hg : (w.engine i).operations.size ≤ (g (w.engine i)).operations.size) : Later b (w.modifyEngine i g) where
  engines := by simpa using h.engines
  operations j := by
    rw [engine_modifyEngine]
    split
    · rename_i hj
      rw [← hj.1]
      exact Nat.le_trans (h.operations i) hg
    · exact h.operations j

end World.Later

namespace Contract

variable (C : Contract)

/-- What goes with a path is within the contract. -/
structure Fits (f : Fiber) : Prop where
  next : ∀ r, f.next = some r → C.leads r
  listeners : ∀ p ∈ f.listeners, C.heeds p.2
  entry : ∀ x values, f.entry = some (x, values) → ∀ p ∈ values, C.gives x p.1 p.2

/-- An operation is within the contract. -/
structure Carries (op : Operation) : Prop where
  waits : C.waits op.node
  bare : ∀ d ∈ op.disposers, d.isBare = true

/-- What another thread asks for is within the contract, where so many operations were started. -/
def Asks (operations : Nat) : Post → Prop
  | .complete o _ => o < operations
  | .begin x _ l values => C.uses x ∧ (∀ y, l = some y → C.heeds y) ∧ ∀ p ∈ values, C.gives x p.1 p.2

/-- All parts of an engine are within the contract. -/
structure Tends (e : Engine) : Prop where
  fibers : ∀ f ∈ e.fibers, C.Fits f
  operations : ∀ op ∈ e.operations, C.Carries op
  inbox : ∀ p ∈ e.inbox, C.Asks e.operations.size p
  failures : ∀ f ∈ e.failures, C.admits f
  nodes : ∀ x ∈ e.eventNodes, C.uses x

/-- The contract is kept in the world, which is later than `b`. -/
structure Kept (b w : World) : Prop where
  later : b.Later w
  holds : C.holds w
  engines : ∀ i, C.Tends (w.engine i)
  journal : ∀ name isHeard f, .failed name isHeard f ∈ w.journal → C.admits f
  disposers : ∀ p ∈ w.disposers, p.2.isBare = true
  subscriptions : ∀ s ∈ w.subscriptions, ∀ i x, s.handler = .node i x → C.hears s.topic x
  timers : ∀ t ∈ w.scheduler.timers, t.callback.2 < (w.engine t.callback.1).operations.size

/-- What the handlers of a topic are told may be put at the outputs of their nodes. -/
def Tells (t : Topic) (n : Notice) : Prop :=
  ∀ x, C.hears t x → ∀ values, n.outputs = .ok values → ∀ p ∈ values, C.gives x p.1 p.2

/-- The node is at hand, and a path may come to it if it can be triggered. -/
def Reaches (x : NodeRef) : Prop :=
  C.uses x ∧ ((C.behaviour x).kind = .event ∨ (C.behaviour x).kind = .function →
    ∀ (w : World) kind, C.admits (w.nodeFailure x (.notTriggerable kind)))

/-- What the engines themselves rely on in a contract. -/
structure Lawful : Prop where
  frame : ∀ {v w : World}, v.graphs = w.graphs → C.holds w → C.holds v
  /-- Marks on a node say nothing. -/
  mark : ∀ {w : World}, C.holds w → ∀ x (error lastOutput : Node → Option String),
    C.holds (w.modifyNode x fun n => { n with error := error n, lastOutput := lastOutput n })
  stamp : ∀ {w : World}, C.holds w → ∀ k v, C.holds (w.stamp k v).2
  stamped : ∀ {x name v}, C.gives x name v → ∀ (w : World) k, C.gives x name (w.stamp k v).1
  write : ∀ {w : World}, C.holds w → ∀ {x name v n}, C.gives x name v → (w.node x).write name v = .ok n →
    C.holds (w.modifyNode x fun _ => n)
  refused : ∀ {w : World}, C.holds w → ∀ {x name v f}, C.gives x name v → (w.node x).write name v = .error f →
    C.admits (.fault f)
  /-- A variable that is or was there may be assigned, and the change be told. -/
  assign : ∀ {u w : World}, C.holds u → C.holds w → ∀ {k name x v changed told}, (u.graph k).vars.get? name = some x →
    (w.graph k).assign x v = .ok (changed, told) → C.holds (w.modifyGraph k fun _ => changed) ∧
      ∀ new, told = some new → C.Tells (.variableChange k x.serial) (.changed new)
  wires : ∀ {w : World}, C.holds w → ∀ {x}, C.uses x → ∀ {output s}, (w.node x).output? output = some s →
    s.isFlow = true → ∀ wire ∈ s.wires, C.leads ⟨x.graph, wire⟩
  goesOn : ∀ {w : World}, C.holds w → ∀ {x}, C.waits x → ∀ {f}, w.outputOf x = .error f → C.admits f
  misuse : ∀ (w : World) x {reason : NodeReason}, reason.IsMisuse → C.admits (w.nodeFailure x reason)
  plain : ∀ {f : Fault}, f.isMissing = false → C.admits (.fault f)
  unfit : ∀ name t shown, C.admits (.integrity (.variableValue name t shown))
  wrapped : ∀ {e}, C.admits e → ∀ (w : World) x {reason : NodeReason}, reason.cause? = some e → C.admits (w.nodeFailure x reason)
  behaviour : ∀ {w : World}, C.holds w → ∀ {x}, C.uses x → (w.node x).definition.behaviour = C.behaviour x
  missing : ∀ {x}, C.uses x → (C.behaviour x).isMissing = true → ∀ (w : World) stage,
    C.admits (w.nodeFailure x (.noBehaviour stage))
  unresolved : ∀ {w : World}, C.holds w → ∀ {r}, C.leads r → (w.graph r.graph).endsOf r.wire = none →
    C.admits (.node r.wire.link.target "?" (.unresolved r.wire.link.label))
  target : ∀ {w : World}, C.holds w → ∀ {r}, C.leads r → ∀ {ends}, (w.graph r.graph).endsOf r.wire = some ends →
    C.Reaches ⟨r.graph, ends.target.node⟩
  waiting : ∀ {x}, C.waits x → C.uses x
  hearing : ∀ {t x}, C.hears t x → C.uses x
  /-- Equal paths are one. -/
  paths : ∀ {p x}, C.hears (.stateChange p) x → ∀ q, C.hears (.stateChange q) x

variable {C}

section Parts

variable {e : Engine}

theorem fits_default : C.Fits default :=
  ⟨(fun _ h => by cases h), fun _ h => (List.not_mem_nil h).elim, fun _ _ h => by cases h⟩

theorem tends_default : C.Tends default :=
  ⟨fun _ h => (Array.not_mem_empty _ h).elim, fun _ h => (Array.not_mem_empty _ h).elim,
    fun _ h => (List.not_mem_nil h).elim, fun _ h => (List.not_mem_nil h).elim, fun _ h => (List.not_mem_nil h).elim⟩

namespace Tends

theorem fiber (h : C.Tends e) (k : Nat) : C.Fits (e.fiber k) := by
  unfold Engine.fiber
  cases hk : e.fibers[k]? with
  | none => exact fits_default
  | some f => exact h.fibers f (Array.mem_of_getElem? hk)

/-- What holds of every fiber holds still when one of them changes, if it does not mind the change. -/
theorem forall_modifyFiber {P : Fiber → Prop} (h : ∀ f ∈ e.fibers, P f) (k : Nat) {g : Fiber → Fiber}
    (hg : ∀ f, P f → P (g f)) : ∀ f ∈ (e.modifyFiber k g).fibers, P f := by
  intro f hf
  obtain ⟨j, hj⟩ := Array.mem_iff_getElem?.1 hf
  simp only [Engine.modifyFiber, Array.getElem?_modify] at hj
  split at hj
  · obtain ⟨f', hf', rfl⟩ := Option.map_eq_some_iff.1 hj
    exact hg f' (h f' (Array.mem_of_getElem? hf'))
  · exact h f (Array.mem_of_getElem? hj)

theorem modifyFiber (h : C.Tends e) (k : Nat) {g : Fiber → Fiber} (hg : ∀ f, C.Fits f → C.Fits (g f)) :
    C.Tends (e.modifyFiber k g) :=
  { h with fibers := forall_modifyFiber h.fibers k hg }

theorem modifyOperation (h : C.Tends e) (o : Nat) {g : Operation → Operation}
    (hg : ∀ op, C.Carries op → C.Carries (g op)) : C.Tends (e.modifyOperation o g) where
  fibers := h.fibers
  operations := Engine.forall_modifyOperation h.operations hg
  inbox := by simpa [Engine.modifyOperation] using h.inbox
  failures := h.failures
  nodes := h.nodes

theorem push (h : C.Tends e) {fs : Array Fiber} (hfs : ∀ f ∈ fs, C.Fits f) : C.Tends { e with fibers := e.fibers ++ fs } :=
  { h with fibers := fun f hf => (Array.mem_append.1 hf).elim (h.fibers f) (hfs f) }

/-- A fiber that is over stands by the contract. -/
theorem finish (h : C.Tends e) (k : Nat) : C.Tends (e.finish k) := by
  have hmark (e : Engine) (h : C.Tends e) : C.Tends (e.modifyFiber k fun f => { f with finished := true }) :=
    h.modifyFiber k fun _ hf => ⟨hf.next, hf.listeners, hf.entry⟩
  unfold Engine.finish
  dsimp only
  split
  · exact h
  · split
    · rename_i p _
      have hless := (hmark e h).modifyFiber p (g := fun f => { f with pending := f.pending - 1 })
        fun _ hf => ⟨hf.next, hf.listeners, hf.entry⟩
      unfold Engine.childFinished
      dsimp only
      split
      · exact { hless with }
      · exact hless
    · exact hmark e h

theorem abort (h : C.Tends e) (k : Nat) : C.Tends (e.abort k) := by
  refine Tends.finish (h.modifyFiber k fun f hf => ?_) k
  exact ⟨(fun _ he => by cases he), fun _ hp => (List.not_mem_nil hp).elim, hf.entry⟩

theorem split (h : C.Tends e) (k : Nat) {routes : List Route} (hroutes : ∀ r ∈ routes, C.leads r) :
    C.Tends (e.split k routes) := by
  have hkids : ∀ f ∈ (e.children k routes).toArray, C.Fits f := by
    intro f hf
    obtain ⟨r, hr, rfl⟩ := List.mem_map.1 (List.mem_toArray.1 hf)
    refine ⟨fun _ he => ?_, fun _ hp => (List.not_mem_nil hp).elim, (h.fiber k).entry⟩
    cases he
    exact hroutes r hr
  have hmarked := (h.push hkids).modifyFiber k
    (g := fun f => { f with isWritten := true, pending := f.pending + routes.length })
    fun _ hf => ⟨hf.next, hf.listeners, hf.entry⟩
  exact { hmarked with }

/-- A commitment stands by the contract if its listener and its wires do. -/
theorem commit (h : C.Tends e) (k : Nat) (x : NodeRef) {l : Option Listener} (hl : ∀ y, l = some y → C.heeds y)
    {wires : List Wire} (hwires : ∀ wire ∈ wires, C.leads ⟨x.graph, wire⟩) : C.Tends (e.commit k x l wires) := by
  have hmarked : C.Tends (e.modifyFiber k (·.commit x l)) := by
    refine h.modifyFiber k fun f hf => ⟨hf.next, fun p hp => ?_, hf.entry⟩
    cases l with
    | none => exact hf.listeners p hp
    | some y =>
      rcases List.mem_cons.1 hp with rfl | hp
      · exact hl y rfl
      · exact hf.listeners p hp
  have hroutes : ∀ r ∈ wires.map fun wire => (⟨x.graph, wire⟩ : Route), C.leads r := by
    intro r hr
    obtain ⟨wire, hwire, rfl⟩ := List.mem_map.1 hr
    exact hwires wire hwire
  unfold Engine.commit Engine.follow
  dsimp only
  generalize (wires.map fun wire => (⟨x.graph, wire⟩ : Route)) = routes at hroutes ⊢
  split
  · exact hmarked
  · refine hmarked.modifyFiber k fun f hf => ⟨fun r he => ?_, hf.listeners, hf.entry⟩
    cases he
    exact hroutes _ List.mem_cons_self
  · exact hmarked.split k hroutes

end Tends

end Parts

/-- Nobody minds what is told without any values. -/
theorem tells_plain (t : Topic) : C.Tells t .plain := by
  rintro x - values ⟨⟩ p hp
  exact (List.not_mem_nil hp).elim

section Assigning

variable (hC : C.Lawful)

include hC

theorem admits_lifted {α : Type} {x : Except Fault α} (hx : Plain x) {e : Failure} (he : Except.lifted x = .error e) :
    C.admits e := by
  cases x with
  | ok a => cases he
  | error f =>
    cases he
    exact hC.plain (hx f rfl)

/-- A value that does not fit a variable is a failure that the contract admits. -/
theorem admits_coerce {name : String} {t : ValueType} {v : Value} {e : Failure} (he : Variable.coerce name t v = .error e) :
    C.admits e := by
  unfold Variable.coerce at he
  split at he
  · cases he
  · rename_i f hf
    have hplain : Plain (do t.decode (← t.encode v)) :=
      (ValueType.plain_encode _ v).bind fun w => ValueType.plain_decode _ w
    split at he
    · split at he
      · cases he
        exact hC.unfit _ _ _
      · rename_i f' hf'
        cases he
        exact hC.plain (Value.plain_literal v f' hf')
    · cases he
      exact hC.plain (hplain f hf)

theorem admits_put {x : Variable} {v : Value} {e : Failure} (he : x.put v = .error e) : C.admits e := by
  rcases bind_eq_error.1 he with hsame | ⟨same, -, he⟩
  · exact admits_lifted hC (ValueType.plain_equals _ _ _) hsame
  · cases same with
    | true => cases he
    | false =>
      rcases bind_eq_error.1 he with htold | ⟨told, -, he⟩
      · exact admits_lifted hC (ValueType.plain_clone _ _) (map_eq_error.1 htold)
      · cases he

theorem admits_assign {g : Graph} {x : Variable} {v : Value} {e : Failure} (he : g.assign x v = .error e) : C.admits e := by
  rcases bind_eq_error.1 he with hcoerce | ⟨w, -, he⟩
  · exact admits_coerce hC hcoerce
  · rcases bind_eq_error.1 he with hput | ⟨_, -, he⟩
    · exact admits_put hC hput
    · cases he

/-- A variable that is there may refuse a value to start from only for what the value is. -/
theorem admits_setVariable {g : Graph} {name : String} (hname : g.vars.has name = true) {v : Value} {e : Failure}
    (he : g.setVariable name v = .error e) : C.admits e := by
  unfold Graph.setVariable at he
  split at he
  · rename_i hnone
    exact absurd ((Table.has_iff _ _).1 hname) ((Table.get?_eq_none_iff _ _).1 hnone)
  · dsimp only [Option.getD_none] at he
    rw [if_neg (by simp)] at he
    rcases bind_eq_error.1 he with hcoerce | ⟨w, -, he⟩
    · exact admits_coerce hC hcoerce
    · rcases bind_eq_error.1 he with hclone | ⟨initial, -, he⟩
      · exact admits_lifted hC (ValueType.plain_clone _ _) hclone
      · rcases bind_eq_error.1 he with hput | ⟨_, -, he⟩
        · exact admits_put hC hput
        · cases he

end Assigning

namespace Kept

variable {b v w : World}

/-- A change of one engine. -/
theorem modifyEngine (h : C.Kept b w) (hC : C.Lawful) (i : Nat) {g : Engine → Engine}
    (hg : C.Tends (w.engine i) → C.Tends (g (w.engine i)))
    (hsize : (w.engine i).operations.size ≤ (g (w.engine i)).operations.size) : C.Kept b (w.modifyEngine i g) where
  later := h.later.modifyEngine i hsize
  holds := hC.frame (w := w) rfl h.holds
  engines k := by
    rw [engine_modifyEngine]
    split
    · rename_i hk
      obtain ⟨rfl, -⟩ := hk
      exact hg (h.engines i)
    · exact h.engines k
  journal := h.journal
  disposers := h.disposers
  subscriptions := h.subscriptions
  timers t ht := by
    have hold := h.timers t ht
    rw [engine_modifyEngine]
    split
    · rename_i hk
      rw [← hk.1] at hold
      rw [← hk.1]
      exact Nat.lt_of_lt_of_le hold hsize
    · exact hold

/-- A change of the graphs. -/
theorem graphs (h : C.Kept b w) (hgraphs : C.holds v) (hrest : v = { w with graphs := v.graphs }) : C.Kept b v := by
  rw [hrest] at hgraphs ⊢
  exact ⟨⟨h.later.engines, h.later.operations⟩, hgraphs, h.engines, h.journal, h.disposers, h.subscriptions, h.timers⟩

theorem record (h : C.Kept b w) (hC : C.Lawful) {e : Event} (he : ∀ name isHeard f, e = .failed name isHeard f → C.admits f) :
    C.Kept b (w.record e) where
  later := ⟨h.later.engines, h.later.operations⟩
  holds := hC.frame (w := w) rfl h.holds
  engines := h.engines
  journal name isHeard f hf := by
    rcases List.mem_cons.1 hf with hf | hf
    · exact he name isHeard f hf.symm
    · exact h.journal name isHeard f hf
  disposers := h.disposers
  subscriptions := h.subscriptions
  timers := h.timers

theorem tell (h : C.Kept b w) (hC : C.Lawful) (i : Nat) {e : String → Event}
    (he : ∀ id name isHeard f, e id ≠ .failed name isHeard f) : C.Kept b (w.tell i e) := by
  unfold World.tell
  split
  · exact h.record hC fun name isHeard f hf => (he _ name isHeard f hf).elim
  · exact h

theorem tellStarted (h : C.Kept b w) (hC : C.Lawful) (i : Nat) (x : NodeRef) : C.Kept b (w.tellStarted i x) :=
  h.tell hC i fun _ _ _ _ he => by cases he

theorem tellEnded (h : C.Kept b w) (hC : C.Lawful) (i : Nat) (x : NodeRef) : C.Kept b (w.tellEnded i x) :=
  h.tell hC i fun _ _ _ _ he => by cases he

theorem stamp (h : C.Kept b w) (hC : C.Lawful) (k : Nat) (v : Value) : C.Kept b (w.stamp k v).2 := by
  refine h.graphs (hC.stamp h.holds k v) ?_
  unfold World.stamp
  split <;> rfl

/-- A failure may be noted if the contract admits it. -/
theorem report (h : C.Kept b w) (hC : C.Lawful) (i : Nat) {e : Failure} (he : C.admits e) : C.Kept b (w.report i e) := by
  have hnoted {u : World} (hu : C.Kept b u) :
      C.Kept b (u.modifyEngine i fun x => { x with failures := e :: x.failures }) := by
    refine hu.modifyEngine hC i (fun hi => { hi with failures := fun f hf => ?_ }) (Nat.le_refl _)
    rcases List.mem_cons.1 hf with rfl | hf
    · exact he
    · exact hi.failures f hf
  rw [World.report.eq_def]
  refine (hnoted ?_).record hC ?_
  · split
    · split
      · exact h.graphs (hC.mark h.holds _ (fun _ => some _) (·.lastOutput)) rfl
      · exact h
    · exact h
  · rintro _ _ _ ⟨⟩
    exact he

/-- Outputs may be written if the contract gives them to the node. -/
theorem writeOutputs (h : C.Kept b w) (hC : C.Lawful) {x : NodeRef} {values : List (String × Value)}
    (hvalues : ∀ p ∈ values, C.gives x p.1 p.2) : C.Kept b (w.writeOutputs x values).2 ∧
      ∀ f, (w.writeOutputs x values).1 = .error f → C.admits (.fault f) := by
  induction values generalizing w with
  | nil => exact ⟨h, fun _ hf => by cases hf⟩
  | cons p rest ih =>
    obtain ⟨name, v⟩ := p
    have hv := hvalues _ List.mem_cons_self
    unfold World.writeOutputs
    split
    · rename_i n hn
      exact ih (h.graphs (hC.write h.holds hv hn) rfl) fun q hq => hvalues q (List.mem_cons_of_mem _ hq)
    · rename_i f hf
      refine ⟨h, fun _ hf' => ?_⟩
      cases hf'
      exact hC.refused h.holds hv hf

/-- What a trigger carries was given to the node, so that only admitted failures come of it. -/
theorem applyEntry (h : C.Kept b w) (hC : C.Lawful) (i f : Nat) :
    C.Kept b (w.applyEntry i f).2 ∧ ∀ e, (w.applyEntry i f).1 = .error e → C.admits e := by
  unfold World.applyEntry
  have hmarked : C.Kept b (w.modifyEngine i (·.modifyFiber f fun f => { f with isWritten := true })) :=
    h.modifyEngine hC i (fun hi => hi.modifyFiber f fun _ hf => ⟨hf.next, hf.listeners, hf.entry⟩) (Nat.le_refl _)
  dsimp only
  split
  · exact ⟨hmarked, fun _ he => by cases he⟩
  · rename_i x values hdue
    have hvalues := ((h.engines i).fiber f).entry x values (Fiber.entry_of_due hdue)
    obtain ⟨hwritten, hfault⟩ := hmarked.writeOutputs hC hvalues
    split
    · rename_i heq
      rw [heq] at hwritten
      exact ⟨hwritten, fun _ he => by cases he⟩
    · rename_i heq
      rw [heq] at hwritten hfault
      refine ⟨hwritten, fun _ he => ?_⟩
      cases he
      exact hC.wrapped (hfault _ rfl) _ _ rfl

theorem notify (h : C.Kept b w) (hC : C.Lawful) (i : Nat) {g : Engine → Engine}
    (hg : ∀ e, (g e).fibers = e.fibers ∧ (g e).operations = e.operations ∧ (g e).inbox = e.inbox ∧
      (g e).failures = e.failures ∧ (g e).eventNodes = e.eventNodes) : C.Kept b (w.modifyEngine i g) := by
  obtain ⟨hfibers, hoperations, hinbox, hfailures, hnodes⟩ := hg (w.engine i)
  refine h.modifyEngine hC i (fun hi => ?_) (Nat.le_of_eq (by rw [hoperations]))
  exact ⟨hfibers ▸ hi.fibers, hoperations ▸ hi.operations, by rw [hinbox, hoperations]; exact hi.inbox,
    hfailures ▸ hi.failures, hnodes ▸ hi.nodes⟩

/-- A fiber may be put in the queue. -/
theorem enqueue (h : C.Kept b w) (hC : C.Lawful) (i f : Nat) : C.Kept b (w.enqueue i f) := by
  unfold World.enqueue
  dsimp only
  split
  · obtain ⟨happlied, hadmits⟩ := h.applyEntry hC i f
    split
    · rename_i heq
      rw [heq] at happlied hadmits
      exact happlied.report hC i (hadmits _ rfl)
    · rename_i heq
      rw [heq] at happlied
      exact happlied.notify hC i fun _ => ⟨rfl, rfl, rfl, rfl, rfl⟩
  · split
    · exact h.notify hC i fun _ => ⟨rfl, rfl, rfl, rfl, rfl⟩
    · exact h.notify hC i fun _ => ⟨rfl, rfl, rfl, rfl, rfl⟩

/-- A fiber may commit in the name of a node that the contract lets be used. -/
theorem commitFiber (h : C.Kept b w) (hC : C.Lawful) (i f : Nat) {x : NodeRef} (hx : C.uses x) (output : String)
    {l : Option Listener} (hl : ∀ y, l = some y → C.heeds y) :
    C.Kept b (w.commitFiber i f x output l).2 ∧ ∀ e, (w.commitFiber i f x output l).1 = .error e → C.admits e := by
  unfold World.commitFiber
  split
  · rename_i e he
    refine ⟨h, ?_⟩
    rintro _ ⟨⟩
    unfold World.commitRefusal? at he
    split at he
    · cases he
      exact hC.misuse w x (.committedTwice output)
    · split at he
      · cases he
      · cases he
        exact hC.misuse w x (.notFlowOutput output)
  · rename_i hallowed
    refine ⟨h.modifyEngine hC i (fun hi => hi.commit f x hl fun wire hwire => ?_) ?_, fun _ he => by cases he⟩
    · unfold World.wiresAt at hwire
      split at hwire
      · rename_i s hs
        refine hC.wires h.holds hx hs ?_ wire hwire
        simp only [World.commitRefusal?] at hallowed
        split at hallowed
        · cases hallowed
        · split at hallowed
          · rename_i hflow
            simpa [Node.isFlowOutput, hs] using hflow
          · cases hallowed
      · cases hwire
    · have hface := congrArg Engine.operations (Local.face_commit (w.engine i) f x l (w.wiresAt x output))
      simp only [Engine.face] at hface
      simp only [hface, Nat.le_refl]

theorem endFiber (h : C.Kept b w) (hC : C.Lawful) (i f : Nat) (x : NodeRef) :
    C.Kept b (w.endFiber i f x).2 ∧ ∀ e, (w.endFiber i f x).1 = .error e → C.admits e := by
  unfold World.endFiber
  split
  · refine ⟨h, ?_⟩
    rintro _ ⟨⟩
    exact hC.misuse w x .endedAfterCommit
  · refine ⟨h.modifyEngine hC i (fun hi => hi.modifyFiber f fun _ hf => ⟨hf.next, hf.listeners, hf.entry⟩)
      (Nat.le_refl _), fun _ he => by cases he⟩

theorem stampOutputs (h : C.Kept b w) (hC : C.Lawful) (k : Nat) {x : NodeRef} {values : List (String × Value)}
    (hvalues : ∀ p ∈ values, C.gives x p.1 p.2) :
    C.Kept b (w.stampOutputs k values).2 ∧ ∀ p ∈ (w.stampOutputs k values).1, C.gives x p.1 p.2 := by
  induction values generalizing w with
  | nil => exact ⟨h, fun _ hp => (List.not_mem_nil hp).elim⟩
  | cons p rest ih =>
    obtain ⟨hkept, hrest⟩ := ih (h.stamp hC k p.2) fun q hq => hvalues q (List.mem_cons_of_mem _ hq)
    refine ⟨hkept, fun q hq => ?_⟩
    rcases List.mem_cons.1 hq with rfl | hq
    · exact hC.stamped (hvalues p List.mem_cons_self) w k
    · exact hrest q hq

/-- A new path that starts within the contract stays within it. -/
theorem begin (h : C.Kept b w) (hC : C.Lawful) (i : Nat) {x : NodeRef} (hx : C.uses x) (output : String)
    {l : Option Listener} (hl : ∀ y, l = some y → C.heeds y) {values : List (String × Value)}
    (hvalues : ∀ p ∈ values, C.gives x p.1 p.2) : C.Kept b (w.begin i x output l values) := by
  unfold World.begin
  split
  · exact h
  · obtain ⟨hstamped, hgives⟩ := h.stampOutputs hC x.graph hvalues
    dsimp only
    generalize w.stampOutputs x.graph values = p at hstamped hgives ⊢
    obtain ⟨outputs, u⟩ := p
    dsimp only at hstamped hgives ⊢
    have hentry : C.Fits { entry := if outputs.isEmpty then none else some (x, (Table.ofList outputs).entries) } := by
      refine ⟨(fun _ he => by cases he), fun _ hp => (List.not_mem_nil hp).elim, fun y entries he q hq => ?_⟩
      dsimp only at he
      split at he
      · cases he
      · cases he
        exact hgives q (Table.mem_entries_ofList hq)
    generalize ({ entry := if outputs.isEmpty then none else some (x, (Table.ofList outputs).entries) } : Fiber) = root
      at hentry ⊢
    have hpushed : C.Kept b (u.modifyEngine i fun e => { e with fibers := e.fibers.push root }) := by
      refine hstamped.modifyEngine hC i (fun hi => ?_) (Nat.le_refl _)
      exact { hi with fibers := fun f hf => (Array.mem_push.1 hf).elim (hi.fibers f) fun hf => hf ▸ hentry }
    obtain ⟨hcommitted, hadmits⟩ := hpushed.commitFiber hC i (u.engine i).fibers.size hx output hl
    split
    · rename_i heq
      rw [heq] at hcommitted hadmits
      exact hcommitted.report hC i (hadmits _ rfl)
    · rename_i heq
      rw [heq] at hcommitted
      exact hcommitted.enqueue hC i _

/-- Where an operation goes on is settled within the contract. -/
theorem chooseOutput (h : C.Kept b w) (hC : C.Lawful) {x : NodeRef} (hx : C.waits x) (output : Option String) :
    C.Kept b (w.chooseOutput x output).1 ∧ ∀ e, (w.chooseOutput x output).2 = .error e → C.admits e := by
  have hforgotten : C.Kept b (if output.isNone then w.modifyNode x fun n => { n with lastOutput := none } else w) := by
    split
    · exact h.graphs (hC.mark h.holds x (·.error) fun _ => none) rfl
    · exact h
  unfold World.chooseOutput
  dsimp only
  generalize (if output.isNone then w.modifyNode x fun n => { n with lastOutput := none } else w) = u at hforgotten ⊢
  split
  · rename_i e he
    refine ⟨hforgotten, ?_⟩
    rintro _ ⟨⟩
    cases output with
    | none => exact hC.goesOn hforgotten.holds hx he
    | some o => cases he
  · rename_i o _
    split
    · exact ⟨hforgotten.graphs (hC.mark hforgotten.holds x (·.error) fun _ => some o) rfl, fun _ he => by cases he⟩
    · refine ⟨hforgotten, ?_⟩
      rintro _ ⟨⟩
      exact hC.misuse u x (.notFlowOutput o)

/-- An operation that exists may be completed. -/
theorem complete (h : C.Kept b w) (hC : C.Lawful) (i : Nat) {o : Nat} (ho : o < (w.engine i).operations.size)
    (output : Option String) : C.Kept b (w.complete i o output) := by
  have hstruck : C.Kept b (w.modifyEngine i fun e => { e with pending := e.pending.erase o }) :=
    h.notify hC i fun _ => ⟨rfl, rfl, rfl, rfl, rfl⟩
  have hop : C.Carries (((w.modifyEngine i fun e => { e with pending := e.pending.erase o }).engine i).operation o) := by
    have hsame : ((w.modifyEngine i fun e => { e with pending := e.pending.erase o }).engine i).operations =
        (w.engine i).operations := by
      rw [engine_modifyEngine]
      split <;> rfl
    rw [Engine.operation, hsame, Array.getElem?_eq_getElem ho]
    exact (h.engines i).operations _ (Array.getElem_mem ho)
  unfold World.complete
  dsimp only
  generalize w.modifyEngine i (fun e => { e with pending := e.pending.erase o }) = u at hstruck hop ⊢
  split
  · exact hstruck
  · obtain ⟨hchosen, hadmits⟩ := hstruck.chooseOutput hC hop.waits output
    split
    · rename_i heq
      rw [heq] at hchosen hadmits
      exact hchosen.report hC i (hadmits _ rfl)
    · rename_i heq
      rw [heq] at hchosen
      refine Kept.tellEnded (hchosen.begin hC i (hC.waiting hop.waits) _ (by simp) ?_) hC i _
      exact fun _ hp => (List.not_mem_nil hp).elim

theorem post (h : C.Kept b w) (hC : C.Lawful) (i : Nat) {p : Post} (hp : C.Asks (w.engine i).operations.size p) :
    C.Kept b (w.post i p) := by
  refine h.modifyEngine hC i (fun hi => ?_) (Nat.le_refl _)
  refine { hi with inbox := fun q hq => ?_ }
  rcases List.mem_append.1 hq with hq | hq
  · exact hi.inbox q hq
  · rw [List.mem_singleton.1 hq]
    exact hp

/-- An operation that exists may be finished, from inside or outside. -/
theorem finishOperation (h : C.Kept b w) (hC : C.Lawful) (i : Nat) {o : Nat} (ho : o < (w.engine i).operations.size)
    (output : Option String) (fromOutside : Bool) : C.Kept b (w.finishOperation i o output fromOutside) := by
  unfold World.finishOperation
  dsimp only
  split
  · exact h
  · have hmarked : C.Kept b (w.modifyEngine i (·.modifyOperation o fun op => { op with isFinished := true })) :=
      h.modifyEngine hC i (fun hi => hi.modifyOperation o fun _ hop => ⟨hop.waits, hop.bare⟩)
        (by simp [Engine.modifyOperation])
    have hsize : ((w.modifyEngine i (·.modifyOperation o fun op => { op with isFinished := true })).engine i).operations.size =
        (w.engine i).operations.size := by
      rw [engine_modifyEngine]
      split <;> simp [Engine.modifyOperation]
    split
    · exact hmarked.post hC i (p := .complete o output) (by rw [hsize]; exact ho)
    · exact hmarked.complete hC i (by rw [hsize]; exact ho) output

/-- Posts may be applied if each asks for what exists. -/
theorem applyPosts (h : C.Kept b w) (hC : C.Lawful) (i : Nat) {posts : List Post}
    (hposts : ∀ p ∈ posts, C.Asks (w.engine i).operations.size p) :
    C.Kept b (posts.foldl (fun w p => w.applyPost i p) w) := by
  induction posts generalizing w with
  | nil => exact h
  | cons p posts ih =>
    have hp := hposts p List.mem_cons_self
    cases p with
    | complete o output =>
      refine ih (h.complete hC i hp output) fun q hq => ?_
      show C.Asks ((w.complete i o output).engine i).operations.size q
      rw [operations_complete]
      exact hposts q (List.mem_cons_of_mem _ hq)
    | begin x output l values =>
      refine ih (h.begin hC i hp.1 output hp.2.1 hp.2.2) fun q hq => ?_
      show C.Asks ((w.begin i x output l values).engine i).operations.size q
      rw [(Local.begin w i x output l values).operations]
      exact hposts q (List.mem_cons_of_mem _ hq)

theorem drainInbox (h : C.Kept b w) (hC : C.Lawful) (i : Nat) : C.Kept b (w.drainInbox i) := by
  have hemptied : C.Kept b (w.modifyEngine i fun e => { e with inbox := [] }) :=
    h.modifyEngine hC i (fun hi => { hi with inbox := fun _ hp => (List.not_mem_nil hp).elim }) (Nat.le_refl _)
  refine hemptied.applyPosts hC i fun p hp => ?_
  have hsame : ((w.modifyEngine i fun e => { e with inbox := [] }).engine i).operations = (w.engine i).operations := by
    rw [engine_modifyEngine]
    split <;> rfl
  rw [hsame]
  exact (h.engines i).inbox p hp

theorem hears_of_mem_handlers (h : C.Kept b w) (hC : C.Lawful) {t : Topic} {i : Nat} {x : NodeRef}
    (hx : .node i x ∈ w.handlers t) : C.hears t x := by
  obtain ⟨s, hs, hhandler⟩ := List.mem_map.1 hx
  obtain ⟨hs, hmatch⟩ := List.mem_filter.1 hs
  have hhears := h.subscriptions s hs i x hhandler
  split at hmatch
  · rename_i p q hp
    rw [hp] at hhears
    exact hC.paths hhears q
  · rwa [of_decide_eq_true hmatch] at hhears

/-- Who is told may act if the contract gives it what it is told. -/
theorem handle (h : C.Kept b w) (hC : C.Lawful) {n : Notice} {handler : Handler}
    (hgives : ∀ i x, handler = .node i x → C.uses x ∧ ∀ values, n.outputs = .ok values → ∀ p ∈ values,
      C.gives x p.1 p.2) : C.Kept b (w.handle n handler) := by
  unfold World.handle
  split
  · obtain ⟨huses, hgives⟩ := hgives _ _ rfl
    split
    · rename_i values hvalues
      exact h.begin hC _ huses "exec" (by simp) (hgives values hvalues)
    · exact h
  · split
    · exact h.record hC fun _ _ _ he => by cases he
    · exact h
  · split
    · exact h.record hC fun _ _ _ he => by cases he
    · exact h

/-- Telling what the handlers may be told keeps the contract. -/
theorem emit (h : C.Kept b w) (hC : C.Lawful) {t : Topic} {n : Notice} (hn : C.Tells t n) : C.Kept b (w.emit t n) := by
  have hall : ∀ handler ∈ w.handlers t, ∀ i x, handler = .node i x → C.uses x ∧ ∀ values, n.outputs = .ok values →
      ∀ p ∈ values, C.gives x p.1 p.2 := by
    rintro _ hx i x rfl
    have hhears := h.hears_of_mem_handlers hC hx
    exact ⟨hC.hearing hhears, hn x hhears⟩
  unfold World.emit
  generalize w.handlers t = handlers at hall
  induction handlers generalizing w with
  | nil => exact h
  | cons handler handlers ih =>
    exact ih (h.handle hC (hall handler List.mem_cons_self)) fun k hk => hall k (List.mem_cons_of_mem _ hk)

/-- A node may subscribe to what it may hear. -/
theorem subscribe (h : C.Kept b w) (hC : C.Lawful) {t : Topic} {i : Nat} {x : NodeRef} (hx : C.hears t x) :
    C.Kept b (w.subscribe t (.node i x)).2 where
  later := ⟨h.later.engines, h.later.operations⟩
  holds := hC.frame (w := w) rfl h.holds
  engines := h.engines
  journal := h.journal
  disposers := h.disposers
  subscriptions s hs j y hy := by
    rcases List.mem_append.1 hs with hs | hs
    · exact h.subscriptions s hs j y hy
    · rw [List.mem_singleton.1 hs] at hy ⊢
      cases hy
      exact hx
  timers := h.timers

theorem unsubscribe (h : C.Kept b w) (hC : C.Lawful) (s : Nat) : C.Kept b (w.unsubscribe s) where
  later := ⟨h.later.engines, h.later.operations⟩
  holds := hC.frame (w := w) rfl h.holds
  engines := h.engines
  journal := h.journal
  disposers := h.disposers
  subscriptions t ht := h.subscriptions t (List.mem_of_mem_filter ht)
  timers := h.timers

theorem withDisposers (h : C.Kept b w) (hC : C.Lawful) {ds : List (NodeRef × Disposer)} (hds : ∀ p ∈ ds, p.2.isBare = true) :
    C.Kept b { w with disposers := ds } :=
  ⟨⟨h.later.engines, h.later.operations⟩, hC.frame (w := w) rfl h.holds, h.engines, h.journal, hds, h.subscriptions, h.timers⟩

theorem withScheduler (h : C.Kept b w) (hC : C.Lawful) {s : Scheduler (Nat × Nat)}
    (hs : ∀ t ∈ s.timers, t.callback.2 < (w.engine t.callback.1).operations.size) : C.Kept b { w with scheduler := s } :=
  ⟨⟨h.later.engines, h.later.operations⟩, hC.frame (w := w) rfl h.holds, h.engines, h.journal, h.disposers, h.subscriptions, hs⟩

/-- An assignment keeps the contract, and what it tells. -/
theorem assign (h : C.Kept b w) (hC : C.Lawful) {u : World} (hu : C.holds u) {k : Nat} {name : String} {x : Variable}
    (hx : (u.graph k).vars.get? name = some x) (v : Value) :
    C.Kept b (w.assign k x v).2 ∧ ∀ e, (w.assign k x v).1 = .error e → C.admits e := by
  unfold World.assign
  split
  · rename_i e he
    refine ⟨h, ?_⟩
    rintro _ ⟨⟩
    exact admits_assign hC he
  · rename_i changed told hchanged
    obtain ⟨hholds, htells⟩ := hC.assign hu h.holds hx hchanged
    have hkept : C.Kept b (w.modifyGraph k fun _ => changed) := h.graphs hholds rfl
    dsimp only
    refine ⟨?_, fun _ he => by cases he⟩
    split
    · exact hkept.emit hC (htells _ rfl)
    · exact hkept

/-- The state may be set, and what fails is admitted. -/
theorem putState (h : C.Kept b w) (hC : C.Lawful) (path v : Value) :
    C.Kept b (w.putState path v).2 ∧ ∀ e, (w.putState path v).1 = .error e → C.admits e := by
  have hstored : C.Kept b { w with store := w.store.put path v } :=
    ⟨⟨h.later.engines, h.later.operations⟩, hC.frame (w := w) rfl h.holds, h.engines, h.journal, h.disposers,
      h.subscriptions, h.timers⟩
  unfold World.putState
  split
  · rename_i f hf
    refine ⟨h, ?_⟩
    rintro _ ⟨⟩
    exact hC.plain (Value.plain_hashed path f hf)
  · dsimp only
    split
    · exact ⟨hstored, fun _ he => by cases he⟩
    · split
      · rename_i f hf
        refine ⟨hstored, ?_⟩
        rintro _ ⟨⟩
        have hplain : Plain (Store.announce path v) :=
          (Value.plain_display path).bind fun _ => (Value.plain_literal v).bind fun _ => .ok _
        exact hC.plain (hplain f hf)
      · exact ⟨hstored.emit hC (tells_plain _), fun _ he => by cases he⟩

/-- A new engine without anything to do yet. -/
theorem withEngine (h : C.Kept b w) (hC : C.Lawful) {e : Engine} (he : C.Tends e) :
    C.Kept b { w with engines := w.engines.push e } := by
  have hengine (j : Nat) (hj : j < w.engines.size) :
      ({ w with engines := w.engines.push e } : World).engine j = w.engine j := by
    simp [World.engine, Array.getElem?_push, Nat.ne_of_lt hj]
  have hold {j o : Nat} (ho : o < (w.engine j).operations.size) : j < w.engines.size := by
    by_contra hj
    rw [World.engine, Array.getElem?_eq_none (Nat.not_lt.1 hj)] at ho
    exact absurd ho (Nat.not_lt_zero o)
  refine ⟨⟨?_, fun j => ?_⟩, hC.frame (w := w) rfl h.holds, fun j => ?_, h.journal, h.disposers, h.subscriptions,
    fun t ht => ?_⟩
  · simpa using Nat.le_succ_of_le h.later.engines
  · have hle := h.later.operations j
    by_cases hj : j < w.engines.size
    · rwa [hengine j hj]
    · have hzero : (w.engine j).operations.size = 0 := by
        rw [World.engine, Array.getElem?_eq_none (Nat.not_lt.1 hj)]
        rfl
      omega
  · by_cases hj : j < w.engines.size
    · rw [hengine j hj]
      exact h.engines j
    · simp only [World.engine, Array.getElem?_push]
      split
      · exact he
      · simp [Nat.not_lt.1 hj, tends_default]
  · have ht := h.timers t ht
    rwa [hengine _ (hold ht)]

end Kept

end Contract

end FlowGraph
