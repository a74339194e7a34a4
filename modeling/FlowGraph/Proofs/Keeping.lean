import FlowGraph.Engine.Lifetime
import FlowGraph.Proofs.Contract

/-!
Keeping a contract. If the behaviours of the nodes, the listeners and the resolution of inputs keep to a contract,
then so does everything that a host does with engines: no step of theirs breaks it, and nothing goes wrong but in
a way that the contract admits.
-/
namespace FlowGraph

open World Play

namespace Contract

variable {C : Contract} {α β : Type} {Q : α → Prop} {R : β → Prop} {b w : World}

theorem Kept.self (h : C.Kept b w) : C.Kept w w := { h with later := .refl w }

theorem Kept.since {v : World} (h : C.Kept v w) (hv : b.Later v) : C.Kept b w := { h with later := hv.trans h.later }

/-- The computation keeps the contract from any world later than `b` on, and fails only as the contract admits. -/
abbrev Does (C : Contract) (b : World) (x : Play α) (Q : α → Prop) : Prop := Yields (C.Kept b) C.admits x Q

/-- Likewise for a computation that does not fail. -/
abbrev Safely (C : Contract) (b : World) (x : Play α) : Prop := Yields (C.Kept b) (fun _ => False) x fun _ => True

namespace Does

theorem of_safely {x : Play α} (hx : C.Safely b x) : C.Does b x fun _ => True := hx.mono (fun _ he => he.elim) fun _ h => h

theorem drop {x : Play α} (hx : C.Does b x Q) : C.Does b x fun _ => True := hx.mono (fun _ he => he) fun _ _ => trivial

/-- What is seen of a world goes for all later ones. -/
theorem look {E : Failure → Prop} {k : World → Play β}
    (hk : ∀ w, C.Kept b w → Yields (C.Kept w) E (k w) R) : Yields (C.Kept b) E (get >>= k) R := by
  intro w h
  obtain ⟨hkept, hok, herror⟩ := hk w h w h.self
  exact ⟨hkept.since h.later, hok, herror⟩

theorem of_plain (hC : C.Lawful) {x : Except Fault α} (hx : Plain x) : C.Does b (ofFault x) fun _ => True :=
  .of_fault (fun _ _ => trivial) fun f hf => hC.plain (hx f hf)

theorem throw_plain (hC : C.Lawful) {f : Fault} (hf : f.isMissing = false) : C.Does b (throw (.fault f) : Play α) Q :=
  .of_throw (hC.plain hf)

theorem of_kept {f : World → World} (hf : ∀ w, C.Kept b w → C.Kept b (f w)) {E : Failure → Prop} :
    Yields (C.Kept b) E (modify f) fun _ => True := .of_modify hf

end Does

section Calls

variable (hC : C.Lawful)

include hC

theorem does_lacks (c : Context) (feature : String) : C.Does b (c.lacks feature : Play α) Q := .throw_plain hC rfl

theorem does_commit {c : Context} (hc : C.uses c.node) (output : String) {l : Option Listener}
    (hl : ∀ y, l = some y → C.heeds y) : C.Does b (c.commit output l) fun _ => True := by
  unfold Context.commit
  split
  · exact .of_kept fun w h => h.begin hC _ hc output hl fun _ hp => (List.not_mem_nil hp).elim
  · exact .of_change (fun w h => (h.commitFiber hC _ _ hc output hl).1) fun w h => (h.commitFiber hC _ _ hc output hl).2
  · exact does_lacks hC c _

theorem does_stop (c : Context) : C.Does b c.stop fun _ => True := by
  unfold Context.stop
  split
  · exact .of_change (fun w h => (h.endFiber hC _ _ _).1) fun w h => (h.endFiber hC _ _ _).2
  · exact does_lacks hC c _

/-- A context may leave something to be undone that asks for nothing. -/
theorem does_onDispose {c : Context} {d : Disposer} (hd : d.isBare = true) : C.Does b (c.onDispose d) fun _ => True := by
  unfold Context.onDispose
  split
  · refine .of_kept fun w h => h.withDisposers hC fun p hp => ?_
    rcases List.mem_append.1 hp with hp | hp
    · exact h.disposers p hp
    · rw [List.mem_singleton.1 hp]
      exact hd
  · refine .of_kept fun w h => h.modifyEngine hC _ (fun hi => ?_) (by simp [Engine.modifyOperation])
    refine hi.modifyOperation _ fun op hop => ⟨hop.waits, fun x hx => ?_⟩
    rcases List.mem_append.1 hx with hx | hx
    · exact hop.bare x hx
    · rw [List.mem_singleton.1 hx]
      exact hd
  · exact does_lacks hC c _

theorem does_subscribe {c : Context} {t : Topic} (ht : C.hears t c.node) : C.Does b (c.subscribe t) fun _ => True := by
  unfold Context.subscribe
  split
  · rename_i i _
    have hsubscribed : Yields (C.Kept b) C.admits (modifyGet (·.subscribe t (.node i c.node)) : Play Disposer)
        fun d => d.isBare = true :=
      fun w h => ⟨h.subscribe hC ht, (fun d hd => by cases hd; rfl), fun _ he => by cases he⟩
    exact hsubscribed.bind fun d hd => does_onDispose hC hd
  · exact does_lacks hC c _

theorem does_stamp (k : Nat) (v : Value) : C.Does b (Play.stamp k v) fun _ => True :=
  fun _ h => ⟨h.stamp hC k v, fun _ _ => trivial, fun _ he => by cases he⟩

/-- What may be put at an output is written there, as the graph keeps it. -/
theorem does_write {c : Context} {output : String} {v : Value} (hv : C.gives c.node output v) :
    C.Does b (c.write output v) fun _ => True := by
  intro w h
  have hstamped := h.stamp hC c.node.graph v
  have hgives := hC.stamped hv w c.node.graph
  rw [Context.runOn_write]
  generalize w.stamp c.node.graph v = p at hstamped hgives ⊢
  cases hn : (p.2.node c.node).write output p.1 with
  | ok n => exact ⟨hstamped.graphs (hC.write hstamped.holds hgives hn) rfl, fun _ _ => trivial, fun _ he => by cases he⟩
  | error f =>
    refine ⟨hstamped, (fun _ he => by cases he), ?_⟩
    rintro _ ⟨⟩
    exact hC.refused hstamped.holds hgives hn

/-- What goes wrong in a call becomes the failure of the node. -/
theorem does_invoke {x : NodeRef} {stage : Stage} {call : Option (Play Unit)}
    (hcall : ∀ y, call = some y → C.Does b y fun _ => True)
    (hnone : call = none → ∀ w : World, C.admits (w.nodeFailure x (.noBehaviour stage))) :
    C.Does b (invoke x stage call) fun _ => True := by
  unfold invoke
  split
  · exact .look fun w _ => .of_throw (hnone rfl w)
  · rename_i y
    refine (hcall y rfl).outcome_bind (fun _ _ => .of_pure trivial) fun e he => ?_
    dsimp only
    split
    · exact .of_throw he
    · exact .look fun w _ => .of_throw (hC.wrapped he w x rfl)

end Calls

section Disposal

variable (hC : C.Lawful) {d : Nat → Play Unit}

include hC

theorem safely_undo {x : Disposer} (hx : x.isBare = true) : C.Safely b (undo d x) := by
  cases x with
  | unsubscribe s => exact Does.of_kept fun w h => h.unsubscribe hC s
  | cancelTimer t =>
    refine Does.of_kept fun w h => h.withScheduler hC fun u hu => ?_
    unfold Scheduler.cancel at hu
    split at hu
    · exact h.timers u hu
    · exact h.timers u hu
  | script c actions => cases hx

theorem safely_undoAll {ds : List Disposer} (hds : ∀ x ∈ ds, x.isBare = true) :
    Yields (C.Kept b) (fun _ => False) (undoAll d ds) fun es => es = [] := by
  induction ds with
  | nil => exact .of_pure rfl
  | cons x ds ih =>
    refine (safely_undo hC (hds x List.mem_cons_self)).outcome_bind (fun _ _ => ?_) fun _ he => he.elim
    exact ih fun y hy => hds y (List.mem_cons_of_mem x hy)

theorem safely_disposeNode (x : NodeRef) : C.Safely b (disposeNode d x) := by
  intro w h
  have hmine : ∀ y ∈ ((w.disposers.filter (·.1 = x)).map (·.2)).reverse, y.isBare = true := by
    intro y hy
    obtain ⟨p, hp, rfl⟩ := List.mem_map.1 (List.mem_reverse.1 hy)
    exact h.disposers p (List.mem_of_mem_filter hp)
  rw [runOn_disposeNode]
  refine (safely_undoAll hC hmine).bind (fun es hes => ?_) _
    (h.withDisposers hC fun p hp => h.disposers p (List.mem_of_mem_filter hp))
  subst hes
  exact .of_pure trivial

/-- An operation may be given up: what it registered is undone. -/
theorem safely_abandon (j o : Nat) : C.Safely b (abandon d j o) := by
  refine Does.look fun w h => ?_
  have hbare : ∀ y ∈ ((w.engine j).operation o).disposers.reverse, y.isBare = true := by
    intro y hy
    rw [List.mem_reverse, Engine.operation] at hy
    cases hop : (w.engine j).operations[o]? with
    | none =>
      rw [hop] at hy
      cases hy
    | some op =>
      rw [hop] at hy
      exact ((h.engines j).operations op (Array.mem_of_getElem? hop)).bare y hy
  have hrest : C.Safely w (do
      modify (·.modifyEngine j (·.modifyOperation o fun op => { op with isAbandoned := true, disposers := [] }))
      let _ ← undoAll d ((w.engine j).operation o).disposers.reverse : Play Unit) := by
    refine Yields.bind (Does.of_kept fun v hv => hv.modifyEngine hC j (fun hj => hj.modifyOperation o fun op hop => ?_)
      (by simp [Engine.modifyOperation])) fun _ _ => (safely_undoAll hC hbare).bind fun _ _ => .of_pure trivial
    exact ⟨hop.waits, fun _ hy => (List.not_mem_nil hy).elim⟩
  dsimp only
  split
  · exact .of_pure trivial
  · exact hrest

theorem safely_disposeNodes (i : Nat) (xs : List NodeRef) : C.Safely b (disposeNodes d i xs) := by
  refine (Yields.of_forM (S := fun _ => True) fun x _ => ?_).mono (fun _ he => he) fun _ _ => trivial
  exact (safely_disposeNode hC x).outcome_bind (fun _ _ => .of_pure trivial) fun _ he => he.elim

/-- An engine may be disposed of. -/
theorem safely_disposeWithin (fuel i : Nat) : C.Safely b (disposeWithin fuel i) := by
  induction fuel generalizing b i with
  | zero => exact .of_pure trivial
  | succ fuel ih =>
    refine Does.look fun w h => ?_
    have hrest : C.Safely w (do
        modify (·.modifyEngine i fun e => { e with isDisposed := true })
        disposeNodes (disposeWithin fuel) i (w.engine i).eventNodes
        let pending := ((← get).engine i).pending
        modify (·.modifyEngine i fun e => { e with pending := [] })
        pending.forM (abandon (disposeWithin fuel) i)
        modify (·.modifyEngine i fun e => { e with queue := [], inbox := [] }) : Play Unit) := by
      refine Yields.bind (Does.of_kept fun v hv => ?_) fun _ _ => ?_
      · exact hv.notify hC i fun _ => ⟨rfl, rfl, rfl, rfl, rfl⟩
      refine (safely_disposeNodes hC i _).bind fun _ _ => Does.look fun v _ => ?_
      refine Yields.bind (Does.of_kept fun v hv => ?_) fun _ _ => ?_
      · exact hv.notify hC i fun _ => ⟨rfl, rfl, rfl, rfl, rfl⟩
      refine Yields.bind (Yields.of_forM (S := fun _ => True) fun o _ => safely_abandon hC i o) fun _ _ => ?_
      refine Does.of_kept fun u hu => hu.modifyEngine hC i (fun hi => ?_) (Nat.le_refl _)
      exact { hi with inbox := fun _ hp => (List.not_mem_nil hp).elim }
    dsimp only
    split
    · exact .of_pure trivial
    · exact hrest

theorem safely_dispose (i : Nat) : C.Safely b (dispose i) := Does.look fun _ _ => safely_disposeWithin hC _ i

end Disposal

/-- The calls of a run keep to the contract. -/
structure Observed (C : Contract) : Prop extends Lawful C where
  resolves : ∀ {x}, C.uses x → ∀ b i, C.Does b (resolve i x) fun _ => True
  event : ∀ {x y}, C.uses x → C.behaviour x = .event (some y) → ∀ b i, C.Does b (y.run ⟨x, .event i⟩) fun _ => True
  flow : ∀ {x y}, C.uses x → C.behaviour x = .flow (some y) → ∀ b i f input,
    C.Does b (y.run ⟨x, .flow i f input⟩) fun _ => True
  async : ∀ {x y}, C.uses x → C.behaviour x = .async (some y) → ∀ {b : World} {i o},
    o < (b.engine i).operations.size → C.Does b (y.run ⟨x, .async i o⟩) fun _ => True
  listens : ∀ {l}, C.heeds l → ∀ b, C.Does b l.run fun _ => True
  suspends : ∀ {x y}, C.uses x → C.behaviour x = .async y → C.waits x

end Contract

namespace Engine

theorem operations_finish (e : Engine) (k : Nat) : (e.finish k).operations = e.operations :=
  (congrArg Engine.operations (face_finish e k) :)

theorem operations_abort (e : Engine) (k : Nat) : (e.abort k).operations = e.operations := operations_finish _ k

end Engine

namespace Contract

variable {C : Contract} {α β : Type} {Q : α → Prop} {R : β → Prop} {b w : World}

section Steps

variable (hC : C.Observed) {i f : Nat} {x : NodeRef}

include hC

/-- An operation may be started at a node that may be used. -/
theorem does_startOperation (hi : i < b.engines.size) (hx : C.uses x) {y : Option AsyncBehaviour}
    (hy : C.behaviour x = .async y) (input : String) : C.Does b (startOperation i x input y) fun _ => True := by
  intro w h
  rw [runOn_startOperation]
  have hpushed : C.Kept w (w.modifyEngine i fun e => { e with
      operations := e.operations.push { node := x, input := input }
      pending := e.pending ++ [(w.engine i).operations.size] }) := by
    refine h.self.modifyEngine hC.toLawful i (fun hi => ?_) (by simp)
    refine ⟨hi.fibers, fun op hop => ?_, fun p hp => ?_, hi.failures, hi.nodes⟩
    · rcases Array.mem_push.1 hop with hop | rfl
      · exact hi.operations op hop
      · exact ⟨hC.suspends hx hy, fun _ hd => (List.not_mem_nil hd).elim⟩
    · have hasks := hi.inbox p hp
      cases p with
      | complete o output =>
        have ho : o < (w.engine i).operations.size := hasks
        show o < ((w.engine i).operations.push _).size
        simp only [Array.size_push]
        omega
      | begin z output l values => exact hasks
  have hnew : (w.engine i).operations.size < ((w.modifyEngine i fun e => { e with
      operations := e.operations.push { node := x, input := input }
      pending := e.pending ++ [(w.engine i).operations.size] }).engine i).operations.size := by
    rw [engine_modifyEngine_self (Nat.lt_of_lt_of_le hi h.later.engines)]
    simp
  generalize w.modifyEngine i (fun e => { e with
    operations := e.operations.push { node := x, input := input }
    pending := e.pending ++ [(w.engine i).operations.size] }) = u at hpushed hnew ⊢
  generalize (w.engine i).operations.size = o at hnew ⊢
  have hsince {v : World} (hv : C.Kept u v) : C.Kept b v := hv.since (h.later.trans hpushed.later)
  refine And.imp_left hsince (?_ : C.Kept u _ ∧ _)
  refine Yields.outcome_bind (does_invoke hC.toLawful ?_ ?_) (fun _ _ => ?_) (fun e he => ?_) u hpushed.self
  · intro z hz
    obtain ⟨a, rfl, rfl⟩ := Option.map_eq_some_iff.1 hz
    exact hC.async hx hy hnew
  · intro hnone
    refine fun w => hC.missing hx ?_ w _
    rw [hy, Option.map_eq_none_iff.1 hnone]
    rfl
  · exact .of_pure trivial
  · refine Yields.bind (Does.of_kept fun v hv => ?_) fun _ _ => ?_
    · exact hv.notify hC.toLawful i fun _ => ⟨rfl, rfl, rfl, rfl, rfl⟩
    · exact (Does.of_safely (safely_abandon hC.toLawful i o)).bind fun _ _ => .of_throw he

/-- A flow node that may be used may run. -/
theorem does_runFlow (hx : C.uses x) {y : Option FlowBehaviour} (hy : C.behaviour x = .flow y) (input : String) :
    C.Does b (runFlow i f x input y) fun _ => True := by
  refine (does_invoke hC.toLawful ?_ ?_).bind fun _ _ => Does.look fun w h => ?_
  · intro z hz
    obtain ⟨a, rfl, rfl⟩ := Option.map_eq_some_iff.1 hz
    exact hC.flow hx hy b i f input
  · intro hnone
    refine fun w => hC.missing hx ?_ w _
    rw [hy, Option.map_eq_none_iff.1 hnone]
    rfl
  · have hended : C.Does w (modify (·.tellEnded i x)) fun _ => True := .of_kept fun v hv => hv.tellEnded hC.toLawful i x
    dsimp only
    split
    · exact (Yields.of_throw (Q := fun _ => True) (hC.misuse w x .notCommitted)).bind fun _ _ => hended
    · exact hended

/-- A node that paths lead to may be reached by one. -/
theorem does_reach (hi : i < b.engines.size) (hx : C.Reaches x) (input : String) :
    C.Does b (reach i f x input) fun _ => True := by
  refine Yields.bind (Does.of_kept fun v hv => ?_) fun _ _ => ?_
  · exact hv.tellStarted hC.toLawful i x
  refine (hC.resolves hx.1 b i).bind fun _ _ => Does.look fun w h => ?_
  rw [hC.behaviour h.holds hx.1]
  split
  · rename_i y hy
    exact does_runFlow hC hx.1 hy input
  · rename_i y hy
    exact does_startOperation hC (Nat.lt_of_lt_of_le hi h.later.engines) hx.1 hy input
  · rename_i hflow hasync
    refine Does.look fun v _ => .of_throw (hx.2 ?_ v _)
    cases hb : C.behaviour x with
    | event y => exact .inl rfl
    | flow y => exact absurd hb (hflow y)
    | function y => exact .inr rfl
    | async y => exact absurd hb (hasync y)

theorem does_trigger (hi : i < b.engines.size) {route : Route} (hroute : C.leads route) :
    C.Does b (Play.trigger i f route) fun _ => True := by
  refine Does.look fun w h => ?_
  split
  · rename_i hends
    exact .of_throw (hC.unresolved h.holds hroute hends)
  · rename_i ends hends
    refine Yields.bind (Does.of_kept fun v hv => ?_) fun _ _ => ?_
    · exact hv.modifyEngine hC.toLawful i (fun hi => hi.modifyFiber f fun _ hf => ⟨hf.next, hf.listeners, hf.entry⟩)
        (Nat.le_refl _)
    · exact does_reach hC (Nat.lt_of_lt_of_le hi h.later.engines) (hC.target h.holds hroute hends) _

theorem does_answer (node : Option NodeRef) {l : Listener} (hl : C.heeds l) : C.Does b (answer node l) fun _ => True := by
  refine (hC.listens hl b).outcome_bind (fun _ _ => .of_pure trivial) fun e he => ?_
  cases node with
  | none => exact .of_throw he
  | some x =>
    dsimp only
    split
    · exact .of_throw he
    · exact .look fun w _ => .of_throw (hC.wrapped he w x rfl)

/-- One step of a fiber keeps the contract. -/
theorem does_step (hi : i < b.engines.size) : C.Does b (step i f) fun _ => True := by
  refine (Yields.of_change (fun w h => (h.applyEntry hC.toLawful i f).1) fun w h =>
    (h.applyEntry hC.toLawful i f).2).bind fun _ _ => Does.look fun w h => ?_
  have hfiber := (h.engines i).fiber f
  dsimp only
  split
  · rename_i route _ hnext
    refine Yields.bind (Does.of_kept fun v hv => ?_) fun _ _ => ?_
    · exact hv.modifyEngine hC.toLawful i (fun hi => hi.modifyFiber f fun _ hf =>
        ⟨(fun _ he => by cases he), hf.listeners, hf.entry⟩) (Nat.le_refl _)
    · exact does_trigger hC (Nat.lt_of_lt_of_le hi h.later.engines) (hfiber.next _ hnext)
  · rename_i node l rest _ hlisteners
    have hall : ∀ p ∈ (node, l) :: rest, C.heeds p.2 := hlisteners ▸ hfiber.listeners
    split
    · refine Yields.bind (Does.of_kept fun v hv => ?_) fun _ _ => Yields.bind (Does.of_kept fun v hv => ?_) fun _ _ => ?_
      · exact hv.modifyEngine hC.toLawful i (fun hi => hi.modifyFiber f fun _ hf => ⟨hf.next, hf.listeners, hf.entry⟩)
          (Nat.le_refl _)
      · exact hv.modifyEngine hC.toLawful i (fun hi => hi.modifyFiber f fun _ hf =>
          ⟨hf.next, fun p hp => hall p (List.mem_cons_of_mem _ hp), hf.entry⟩) (Nat.le_refl _)
      · exact does_answer hC node (hall _ List.mem_cons_self)
    · exact .of_pure trivial
  · exact .of_pure trivial

omit hC in
theorem Kept.finish (h : C.Kept b w) (hC : C.Lawful) (i f : Nat) : C.Kept b (w.modifyEngine i (·.finish f)) :=
  h.modifyEngine hC i (fun hi => hi.finish f) (Nat.le_of_eq (congrArg Array.size (Engine.operations_finish _ f).symm))

/-- An engine may settle. -/
theorem kept_settleWithin (fuel : Nat) (h : C.Kept b w) : C.Kept b (settleWithin i fuel w) := by
  induction fuel generalizing w with
  | zero => exact h
  | succ fuel ih =>
    unfold settleWithin
    split
    · exact h
    · rename_i k rest _
      have hpopped : C.Kept b (w.modifyEngine i fun e => { e with queue := rest }) :=
        h.notify hC.toLawful i fun _ => ⟨rfl, rfl, rfl, rfl, rfl⟩
      dsimp only
      split
      · exact h
      · split
        · exact ih ((hpopped.finish hC.toLawful i k).drainInbox hC.toLawful i)
        · exact ih (hpopped.drainInbox hC.toLawful i)

theorem kept_rest (h : C.Kept b w) : C.Kept b (rest w i f) := by
  have hgone {v : World} (hv : C.Kept b v) :
      C.Kept b ((v.modifyEngine i fun e => { e with current := none }).drainInbox i) := by
    refine Kept.drainInbox ?_ hC.toLawful i
    exact hv.notify hC.toLawful i fun _ => ⟨rfl, rfl, rfl, rfl, rfl⟩
  unfold rest
  dsimp only
  split
  · exact h.notify hC.toLawful i fun _ => ⟨rfl, rfl, rfl, rfl, rfl⟩
  · split
    · exact hgone (h.finish hC.toLawful i f)
    · exact hgone h

/-- One turn of a fiber keeps the contract. -/
theorem does_turn (hi : i < b.engines.size) : C.Does b (turn i f) fun _ => True := by
  refine Yields.bind (Does.of_kept fun v hv => ?_) fun _ _ => ?_
  · exact hv.notify hC.toLawful i fun _ => ⟨rfl, rfl, rfl, rfl, rfl⟩
  refine Yields.outcome_bind (does_step hC hi) (fun _ _ => ?_) fun e he => ?_
  · refine Yields.bind (Does.of_kept fun v hv => ?_) fun _ _ => Does.of_kept fun v hv => kept_rest hC hv
    exact hv.notify hC.toLawful i fun _ => ⟨rfl, rfl, rfl, rfl, rfl⟩
  · dsimp only
    split
    · refine Yields.bind (Does.of_kept fun v hv => ?_) fun _ _ => Yields.bind (Does.of_kept fun v hv => ?_) fun _ _ =>
        Does.of_kept fun v hv => ?_
      · exact hv.report hC.toLawful i he
      · refine hv.modifyEngine hC.toLawful i (fun hi => ?_) (Nat.le_of_eq ?_)
        · exact Tends.abort (e := { v.engine i with steps := (v.engine i).steps + 1 }) { hi with } f
        · exact congrArg Array.size
            (Engine.operations_abort { v.engine i with steps := (v.engine i).steps + 1 } f).symm
      · exact kept_rest hC hv
    · refine Yields.bind (Does.of_kept fun v hv => ?_) fun _ _ => ?_
      · exact hv.notify hC.toLawful i fun _ => ⟨rfl, rfl, rfl, rfl, rfl⟩
      · exact (Yields.of_throw (Q := fun _ => True) he).bind fun _ _ => Does.of_kept fun v hv => kept_rest hC hv

/-- A queue may be drained, by induction on the turns that are left. -/
theorem does_drain (limit taken : Nat) : C.Does b (drain i limit taken) fun _ => True := by
  induction limit generalizing b taken with
  | zero =>
    refine Does.look fun w h => ?_
    have hnoted (queued : Nat) : C.Does w (modify (·.record (.limited taken queued))) fun _ => True := by
      refine .of_kept fun v hv => hv.record hC.toLawful ?_
      rintro _ _ _ ⟨⟩
    dsimp only
    split
    · exact (hnoted _).bind fun _ _ => .of_pure trivial
    · exact .of_pure trivial
  | succ limit ih =>
    refine Yields.bind (Does.of_kept fun v hv => ?_) fun _ _ => Does.look fun w h => ?_
    · exact kept_settleWithin hC _ hv
    · split
      · exact .of_pure trivial
      · rename_i k others hqueue
        have hi : i < w.engines.size := by
          by_contra hi
          rw [World.engine, Array.getElem?_eq_none (Nat.not_lt.1 hi)] at hqueue
          cases hqueue
        refine Yields.bind (Does.of_kept fun v hv => ?_) fun _ _ => ?_
        · exact hv.notify hC.toLawful i fun _ => ⟨rfl, rfl, rfl, rfl, rfl⟩
        · exact (does_turn hC hi).bind fun _ _ => ih _

/-- A run keeps the contract, whatever its limits. -/
theorem does_run (maxSteps : Option Int) (maxSeconds : Option Double) :
    C.Does b (run i maxSteps maxSeconds) fun _ => True := by
  refine Yields.bind (Does.of_kept fun v hv => ?_) fun _ _ => Does.look fun w _ => does_drain hC _ _
  exact hv.drainInbox hC.toLawful i

end Steps

end Contract

end FlowGraph
