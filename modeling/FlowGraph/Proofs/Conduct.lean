import FlowGraph.Engine.Step
import FlowGraph.Proofs.Steady

/-!
What calls do to the world. Everything that a behaviour does goes through a few changes of the world. A
relation between worlds that outlasts each of them, and that keeps what a behaviour can tell of a world, is a
`Conduct`; what `Onward` says goes for every call.
-/
namespace FlowGraph

namespace Play

variable {α β : Type}

theorem runOn_bind (x : Play α) (k : α → Play β) (w : World) :
    (x >>= k).runOn w = match x.runOn w with
      | (.ok a, v) => (k a).runOn v
      | (.error e, v) => (.error e, v) := by
  show (match x w with
    | (o, v) => (ExceptT.bindCont k o) v) = match x w with
      | (.ok a, v) => (k a).runOn v
      | (.error e, v) => (.error e, v)
  obtain ⟨o, v⟩ := x w
  cases o <;> rfl

theorem runOn_modify (g : World → World) (w : World) : (modify g : Play PUnit).runOn w = (.ok ⟨⟩, g w) := rfl

theorem runOn_get (k : World → Play β) (w : World) : (get >>= k).runOn w = (k w).runOn w := rfl

theorem runOn_outcome (x : Play α) (w : World) :
    (outcome x).runOn w = (.ok (x.runOn w).1, (x.runOn w).2) := rfl

/-- The computations have the same outcome in related worlds, and lead to related worlds. -/
def Agrees (R : World → World → Prop) (x y : Play α) : Prop :=
  ∀ w r, R w r → (x.runOn w).1 = (y.runOn r).1 ∧ R (x.runOn w).2 (y.runOn r).2

/-- The computation has the same outcome in related worlds, and leads to related worlds. -/
abbrev Obeys (R : World → World → Prop) (x : Play α) : Prop := Agrees R x x

namespace Agrees

variable {R : World → World → Prop}

theorem of_pure (a : α) : Obeys R (pure a) := fun _ _ h => ⟨rfl, h⟩

theorem of_throw (e : Failure) : Obeys (α := α) R (throw e) := fun _ _ h => ⟨rfl, h⟩

theorem of_except (x : Except Failure α) : Obeys R (ofExcept x) := fun _ _ h => ⟨rfl, h⟩

theorem of_fault (x : Except Fault α) : Obeys R (ofFault x) := fun _ _ h => ⟨rfl, h⟩

theorem of_integrity (x : Except IntegrityError α) : Obeys R (ofIntegrity x) := fun _ _ h => ⟨rfl, h⟩

/-- Computations that agree at a pair of worlds, followed by ones that agree everywhere. -/
theorem bind_at {x y : Play α} {k l : α → Play β} {w r : World}
    (hx : (x.runOn w).1 = (y.runOn r).1 ∧ R (x.runOn w).2 (y.runOn r).2) (hk : ∀ a, Agrees R (k a) (l a)) :
    ((x >>= k).runOn w).1 = ((y >>= l).runOn r).1 ∧ R ((x >>= k).runOn w).2 ((y >>= l).runOn r).2 := by
  obtain ⟨heq, h⟩ := hx
  rw [runOn_bind, runOn_bind]
  generalize x.runOn w = p at heq h ⊢
  generalize y.runOn r = q at heq h ⊢
  obtain ⟨a, v⟩ := p
  obtain ⟨b, s⟩ := q
  simp only at heq
  subst heq
  cases a with
  | ok a => exact hk a v s h
  | error e => exact ⟨rfl, h⟩

theorem congr {S : World → World → Prop} {x y : Play α} (h : Agrees R x y) (hRS : ∀ w r, S w r ↔ R w r) : Agrees S x y := by
  intro w r hS
  obtain ⟨heq, hR⟩ := h w r ((hRS w r).1 hS)
  exact ⟨heq, (hRS _ _).2 hR⟩

theorem bind {x y : Play α} {k l : α → Play β} (hx : Agrees R x y) (hk : ∀ a, Agrees R (k a) (l a)) :
    Agrees R (x >>= k) (y >>= l) :=
  fun w r h => bind_at (hx w r h) hk

/-- A look at the world: what is done then may only depend on what related worlds have in common. -/
theorem look {k l : World → Play β} (hk : ∀ w r, R w r → Agrees R (k w) (l r)) :
    Agrees R (get >>= k) (get >>= l) :=
  fun w r h => hk w r h w r h

theorem of_modify {g g' : World → World} (hg : ∀ w r, R w r → R (g w) (g' r)) :
    Agrees R (modify g) (modify g') :=
  fun w r h => ⟨rfl, hg w r h⟩

theorem of_change {g : World → Except Failure Unit × World}
    (hg : ∀ w r, R w r → (g w).1 = (g r).1 ∧ R (g w).2 (g r).2) : Obeys R (change g) :=
  fun w r h => hg w r h

theorem of_outcome {x y : Play α} (h : Agrees R x y) : Agrees R (outcome x) (outcome y) := by
  intro w r hR
  obtain ⟨heq, hR⟩ := h w r hR
  exact ⟨congrArg Except.ok heq, hR⟩

/-- A failure is looked at. -/
theorem outcome_bind {E : Failure → Prop} {x : Play α} {k : Except Failure α → Play β} (hx : Obeys R x)
    (hE : ∀ w e, (x.runOn w).1 = .error e → E e) (hok : ∀ a, Obeys R (k (.ok a))) (herror : ∀ e, E e → Obeys R (k (.error e))) :
    Obeys R (outcome x >>= k) := by
  intro w r h
  have hfail := hE w
  obtain ⟨heq, h⟩ := hx w r h
  rw [runOn_bind, runOn_bind, runOn_outcome, runOn_outcome]
  generalize x.runOn w = p at heq h hfail ⊢
  generalize x.runOn r = q at heq h ⊢
  obtain ⟨a, v⟩ := p
  obtain ⟨b, s⟩ := q
  simp only at heq
  subst heq
  cases a with
  | ok a => exact hok a v s h
  | error e => exact herror e (hfail e rfl) v s h

theorem of_forM {xs : List α} {k l : α → Play PUnit} (hk : ∀ a ∈ xs, Agrees R (k a) (l a)) :
    Agrees R (xs.forM k) (xs.forM l) := by
  induction xs with
  | nil => exact of_pure _
  | cons a xs ih =>
    exact (hk a List.mem_cons_self).bind fun _ => ih fun b hb => hk b (List.mem_cons_of_mem a hb)

theorem of_mapM {xs : List α} {k : α → Play β} (hk : ∀ a ∈ xs, Obeys R (k a)) : Obeys R (xs.mapM k) := by
  induction xs with
  | nil => exact of_pure _
  | cons a xs ih =>
    rw [List.mapM_cons]
    refine (hk a List.mem_cons_self).bind fun b => ?_
    exact (ih fun b hb => hk b (List.mem_cons_of_mem a hb)).bind fun bs => of_pure _

end Agrees

end Play

/-- What behaviours can tell of a world. -/
structure Seen (w r : World) : Prop where
  graphs : w.graphs = r.graphs
  subscriptions : w.subscriptions = r.subscriptions
  issued : w.issued = r.issued
  disposers : w.disposers = r.disposers
  clock : w.clock = r.clock
  isLooping : w.isLooping = r.isLooping
  scheduler : w.scheduler = r.scheduler
  store : w.store = r.store
  size : w.engines.size = r.engines.size
  eventNodes : ∀ j, (w.engine j).eventNodes = (r.engine j).eventNodes
  operations : ∀ j, (w.engine j).operations = (r.engine j).operations
  pending : ∀ j, (w.engine j).pending = (r.engine j).pending
  isDisposed : ∀ j, (w.engine j).isDisposed = (r.engine j).isDisposed

namespace Seen

variable {w r : World}

theorem refl (w : World) : Seen w w :=
  ⟨rfl, rfl, rfl, rfl, rfl, rfl, rfl, rfl, rfl, fun _ => rfl, fun _ => rfl, fun _ => rfl, fun _ => rfl⟩

theorem graph (h : Seen w r) (g : Nat) : w.graph g = r.graph g := by
  rw [World.graph, World.graph, h.graphs]

theorem node (h : Seen w r) (x : NodeRef) : w.node x = r.node x := by
  rw [World.node, World.node, h.graph]

theorem registryOf (h : Seen w r) (x : NodeRef) : w.registryOf x = r.registryOf x := by
  rw [World.registryOf, World.registryOf, h.graph]

theorem nodeFailure (h : Seen w r) (x : NodeRef) (reason : NodeReason) :
    w.nodeFailure x reason = r.nodeFailure x reason := by
  rw [World.nodeFailure, World.nodeFailure, h.node]

theorem readClock (h : Seen w r) : w.readClock = r.readClock := by
  rw [World.readClock, World.readClock, h.clock, h.scheduler]

theorem operation (h : Seen w r) (j o : Nat) : (w.engine j).operation o = (r.engine j).operation o := by
  rw [Engine.operation, Engine.operation, h.operations]

theorem handlers (h : Seen w r) (t : Topic) : w.handlers t = r.handlers t := by
  rw [World.handlers, World.handlers, h.subscriptions]

theorem stamp (h : Seen w r) (g : Nat) (v : Value) : (w.stamp g v).1 = (r.stamp g v).1 := by
  unfold World.stamp
  rw [h.graph]
  split <;> rfl

theorem carried (h : Seen w r) (x : NodeRef) (s : Socket) (source : End) :
    Play.carried w x s source = Play.carried r x s source := by
  simp only [Play.carried, h.graph, h.registryOf, h.nodeFailure]

theorem commitFiber (h : Seen w r) {j f : Nat}
    (hc : ((w.engine j).fiber f).committed = ((r.engine j).fiber f).committed) (x : NodeRef) (output : String)
    (l : Option Listener) : (w.commitFiber j f x output l).1 = (r.commitFiber j f x output l).1 := by
  have hrefusal : w.commitRefusal? j f x output = r.commitRefusal? j f x output := by
    unfold World.commitRefusal?
    rw [hc, h.node, h.nodeFailure, h.nodeFailure]
  unfold World.commitFiber
  rw [hrefusal]
  split <;> rfl

theorem endFiber (h : Seen w r) {j f : Nat}
    (hc : ((w.engine j).fiber f).committed = ((r.engine j).fiber f).committed) (x : NodeRef) :
    (w.endFiber j f x).1 = (r.endFiber j f x).1 := by
  unfold World.endFiber
  rw [hc, h.nodeFailure]
  split <;> rfl

end Seen

def Disposer.Within (A : Context → Prop) : Disposer → Prop
  | .script c _ => A c
  | _ => True

theorem Disposer.Free.within {A : Context → Prop} {d : Disposer} (h : d.Free) (hA : ∀ c : Context, c.Free → A c) :
    d.Within A := by
  cases d with
  | script c actions => exact hA c h
  | _ => trivial

theorem Disposer.Within.mono {A B : Context → Prop} {d : Disposer} (h : d.Within A) (hB : ∀ c, A c → B c) : d.Within B := by
  cases d with
  | script c actions => exact hB c h
  | _ => trivial

theorem Disposer.Within.free {A : Context → Prop} {d : Disposer} (h : d.Within fun c => A c ∧ c.Free) : d.Free := by
  cases d with
  | script c actions => exact h.2
  | _ => trivial

def Listener.Within (A : Context → Prop) (l : Listener) : Prop := ∀ c, l.context? = some c → A c

/-- The relation outlasts the change. -/
def Stable (R : World → World → Prop) (F : World → World) : Prop := ∀ ⦃w r⦄, R w r → R (F w) (F r)

def Operation.isSettled (op : Operation) : Bool := op.isFinished || op.isAbandoned

/-- An operation is given up, unless it is settled. -/
def World.relinquish (w : World) (j o : Nat) : World :=
  if ((w.engine j).operation o).isSettled then w
  else w.modifyEngine j (·.modifyOperation o fun op => { op with isAbandoned := true, disposers := [] })

theorem World.relinquish_upholds {P : World → Prop} {w : World} {j o : Nat}
    (hgive : P (w.modifyEngine j (·.modifyOperation o fun op => { op with isAbandoned := true, disposers := [] })))
    (h : P w) : P (w.relinquish j o) := by
  unfold World.relinquish
  split
  · exact h
  · exact hgive

/-- An operation is taken off the list of those that are under way. -/
def World.strike (w : World) (j o : Nat) : World :=
  w.modifyEngine j fun e => { e with pending := e.pending.erase o }

/-- An operation that failed to start is taken off the list and given up. -/
def World.dismiss (w : World) (j o : Nat) : World := (w.strike j o).relinquish j o

/-- The engine was in use in some world that the relation covers. -/
def Opened (R : World → World → Prop) (j : Nat) : Prop := ∃ v s, R v s ∧ (v.engine j).isDisposed = false

theorem Opened.mono {R S : World → World → Prop} (hS : ∀ v s, R v s → S v s) {j : Nat} (h : Opened R j) : Opened S j :=
  have ⟨v, s, hR, hopen⟩ := h
  ⟨v, s, hS v s hR, hopen⟩

/-- Contexts of the kind are bound to fibers of the engine. -/
def Engages (A : Context → Prop) (j : Nat) : Prop := ∃ x f input, A ⟨x, .flow j f input⟩

/-- The relation covers work of the engine: the engine was in use in some world, or contexts of the kind are bound to fibers
of it. -/
def Engaged (R : World → World → Prop) (A : Context → Prop) (j : Nat) : Prop := Opened R j ∨ Engages A j

theorem engages_all (j : Nat) : Engages (fun _ => True) j := ⟨default, 0, "", trivial⟩

theorem Engaged.mono {R S : World → World → Prop} {A : Context → Prop} (hS : ∀ v s, R v s → S v s) {j : Nat}
    (h : Engaged R A j) : Engaged S A j :=
  h.imp_left (·.mono hS)

/-- A path may start at the output at which events fire, where nobody listens, or at any where a context of the kind is the
one to start it. -/
def Starts (A : Context → Prop) (x : NodeRef) (output : String) (l : Option Listener) : Prop :=
  (output = "exec" ∧ l = none) ∨ ∃ c, A c ∧ c.node = x

def Event.isFailed : Event → Bool
  | .failed _ _ _ => true
  | _ => false

/-- What an action blames its own node for. -/
def NodeReason.isOwn : NodeReason → Bool
  | .committedTwice _ | .notFlowOutput _ | .endedAfterCommit | .custom _ => true
  | _ => false

/-- A failure of an action: one of no node, or what it blames its own node for. -/
def Failure.isUttered : Failure → Bool
  | .node _ _ reason => reason.isOwn
  | _ => true

theorem Failure.isUttered_of_not_isNode {e : Failure} (h : e.isNode = false) : e.isUttered = true := by
  cases e with
  | node => cases h
  | _ => rfl

/-- The relation outlasts whatever contexts of the kind do to the world, short of disposing of an engine. Those that
leave something to be undone, or start a path of their own, are bound to no fiber. Only engines whose work is covered
start operations and report that undoing something went wrong, and only where a fiber is at work an operation fails to
start. -/
structure Manner (R : World → World → Prop) (A : Context → Prop) : Prop where
  stamp : ∀ g v, Stable R fun w => (w.stamp g v).2
  write : ∀ {w r}, R w r → ∀ {c}, A c → ∀ {output v n}, (w.node c.node).write output v = .ok n →
    R (w.modifyNode c.node fun _ => n) (r.modifyNode c.node fun _ => n)
  setState : ∀ {c : Context}, A c → ∀ v, Stable R (·.modifyNode c.node fun n => { n with state := v })
  setInput : ∀ x place v, Stable R (·.modifyNode x (·.setInput place v))
  assign : ∀ {w r}, R w r → ∀ {g x v changed told}, (w.graph g).assign x v = .ok (changed, told) →
    R (w.modifyGraph g fun _ => changed) (r.modifyGraph g fun _ => changed)
  record : ∀ e : Event, e.isFailed = false → Stable R (·.record e)
  tell : ∀ j (e : String → Event), (∀ name, (e name).isFailed = false) → Stable R (·.tell j e)
  hold : ∀ {c}, A c → Stable R fun w => { w with holds := w.holds ++ [c] }
  schedule : ∀ s, Stable R fun w => { w with scheduler := s }
  store : ∀ s, Stable R fun w => { w with store := s }
  subscribe : ∀ t h, Stable R fun w => (w.subscribe t h).2
  unsubscribe : ∀ s, Stable R (·.unsubscribe s)
  enlist : ∀ x {d}, d.Within (fun c => A c ∧ c.Free) → Stable R fun w => { w with disposers := w.disposers ++ [(x, d)] }
  unlist : ∀ x : NodeRef, Stable R fun w => { w with disposers := w.disposers.filter (·.1 ≠ x) }
  report : ∀ {j}, Engaged R A j → ∀ id typeName cause, cause.isUttered = true →
    Stable R (·.report j (.node id typeName (.disposal cause)))
  begin : ∀ j x output {l}, (∀ y, l = some y → y.Within fun c => A c ∧ c.Free) → ∀ values, Starts A x output l →
    Stable R (·.begin j x output l values)
  commit : ∀ {x j f input}, A ⟨x, .flow j f input⟩ → ∀ output {l},
    (∀ y, l = some y → y.context? = some ⟨x, .flow j f input⟩) → Stable R fun w => (w.commitFiber j f x output l).2
  stop : ∀ {x j f input}, A ⟨x, .flow j f input⟩ → Stable R fun w => (w.endFiber j f x).2
  register : ∀ {w r}, R w r → ∀ {j}, Engaged R A j → ∀ x, (∃ b, (w.node x).definition.behaviour = .async b) → ∀ input, R
    (w.modifyEngine j fun e => { e with
      operations := e.operations.push { node := x, input := input }
      pending := e.pending ++ [(w.engine j).operations.size] })
    (r.modifyEngine j fun e => { e with
      operations := e.operations.push { node := x, input := input }
      pending := e.pending ++ [(w.engine j).operations.size] })
  enrol : ∀ {j o d}, d.Within (fun c => A c ∧ c.Free) →
    Stable R (·.modifyEngine j (·.modifyOperation o fun op => { op with disposers := op.disposers ++ [d] }))
  finish : ∀ j o output, Stable R (·.finishOperation j o output)
  dismiss : ∀ {w r}, R w r → ∀ {j o}, Engages A j → (j < w.engines.size → o < (w.engine j).operations.size) →
    R (w.dismiss j o) (r.dismiss j o)

/-- The relation outlasts every step of the disposal of the engine. -/
structure Endures (R : World → World → Prop) (j : Nat) : Prop where
  close : ∀ {w r}, R w r → (w.engine j).isDisposed = false →
    R (w.modifyEngine j fun e => { e with isDisposed := true })
      (r.modifyEngine j fun e => { e with isDisposed := true })
  relinquish : ∀ {w r}, R w r → Opened R j → (j < w.engines.size → (w.engine j).isDisposed = true) →
    ∀ o, R (w.relinquish j o) (r.relinquish j o)
  release : ∀ {w r}, R w r → Opened R j → (j < w.engines.size → (w.engine j).isDisposed = true) →
    R (w.modifyEngine j fun e => { e with pending := [] }) (r.modifyEngine j fun e => { e with pending := [] })
  clear : ∀ {w r}, R w r → Opened R j → (j < w.engines.size → (w.engine j).isDisposed = true) →
    R (w.modifyEngine j fun e => { e with queue := [], inbox := [] })
      (r.modifyEngine j fun e => { e with queue := [], inbox := [] })

/-- The relation outlasts whatever contexts of the kind do, the disposal of engines and each step of it included. -/
structure Closed (R : World → World → Prop) (A : Context → Prop) : Prop extends Manner R A where
  close : ∀ {w r}, R w r → ∀ {j}, (w.engine j).isDisposed = false →
    R (w.modifyEngine j fun e => { e with isDisposed := true })
      (r.modifyEngine j fun e => { e with isDisposed := true })
  relinquish : ∀ {w r}, R w r → ∀ {j}, Opened R j → (j < w.engines.size → (w.engine j).isDisposed = true) →
    ∀ o, R (w.relinquish j o) (r.relinquish j o)
  release : ∀ {w r}, R w r → ∀ {j}, Opened R j → (j < w.engines.size → (w.engine j).isDisposed = true) →
    R (w.modifyEngine j fun e => { e with pending := [] }) (r.modifyEngine j fun e => { e with pending := [] })
  clear : ∀ {w r}, R w r → ∀ {j}, Opened R j → (j < w.engines.size → (w.engine j).isDisposed = true) →
    R (w.modifyEngine j fun e => { e with queue := [], inbox := [] })
      (r.modifyEngine j fun e => { e with queue := [], inbox := [] })

/-- Related worlds look the same to behaviours, the relation outlasts what contexts of the kind do short of disposing of
an engine, and the contexts in use are of the kind. -/
structure Bearing (R : World → World → Prop) (A : Context → Prop) : Prop extends Manner R A where
  seen : ∀ {w r}, R w r → Seen w r
  committed : ∀ {w r}, R w r → ∀ {x j f input}, A ⟨x, .flow j f input⟩ →
    ((w.engine j).fiber f).committed = ((r.engine j).fiber f).committed
  nodes : ∀ {w r}, R w r → ∀ p ∈ w.disposers, p.2.Within A
  enrolled : ∀ {w r}, R w r → ∀ j, ∀ op ∈ (w.engine j).operations, ∀ d ∈ op.disposers, d.Within A
  function : ∀ {w r}, R w r → ∀ {x b}, (w.node x).definition.behaviour = .function b → A ⟨x, .function⟩
  async : ∀ {w r}, R w r → ∀ {x b}, (w.node x).definition.behaviour = .async b → ∀ j o, A ⟨x, .async j o⟩

/-- The relation outlasts the disposal of engines as well, together with whatever outlasts each step of it. -/
structure Conduct (R : World → World → Prop) (A : Context → Prop) : Prop extends Bearing R A where
  disposal : ∀ {S : World → World → Prop}, Closed S A → ∀ fuel j,
    Play.Obeys (fun w r => R w r ∧ S w r) (Play.disposeWithin fuel j)

variable {R S : World → World → Prop} {A B : Context → Prop}

theorem Closed.endures (hR : Closed R A) (j : Nat) : Endures R j where
  close h := hR.close h
  relinquish h ho hd o := hR.relinquish h ho hd o
  release h ho hd := hR.release h ho hd
  clear h ho hd := hR.clear h ho hd

/-- Two relations that calls keep to are kept to together. -/
theorem Manner.and (hR : Manner R A) (hS : Manner S A) : Manner (fun w r => R w r ∧ S w r) A where
  stamp g v _ _ h := ⟨hR.stamp g v h.1, hS.stamp g v h.2⟩
  write h _ hc _ _ _ hn := ⟨hR.write h.1 hc hn, hS.write h.2 hc hn⟩
  setState hc v _ _ h := ⟨hR.setState hc v h.1, hS.setState hc v h.2⟩
  setInput x place v _ _ h := ⟨hR.setInput x place v h.1, hS.setInput x place v h.2⟩
  assign h _ _ _ _ _ hg := ⟨hR.assign h.1 hg, hS.assign h.2 hg⟩
  record e he _ _ h := ⟨hR.record e he h.1, hS.record e he h.2⟩
  tell j e he _ _ h := ⟨hR.tell j e he h.1, hS.tell j e he h.2⟩
  hold hc _ _ h := ⟨hR.hold hc h.1, hS.hold hc h.2⟩
  schedule s _ _ h := ⟨hR.schedule s h.1, hS.schedule s h.2⟩
  store s _ _ h := ⟨hR.store s h.1, hS.store s h.2⟩
  subscribe t x _ _ h := ⟨hR.subscribe t x h.1, hS.subscribe t x h.2⟩
  unsubscribe s _ _ h := ⟨hR.unsubscribe s h.1, hS.unsubscribe s h.2⟩
  enlist x _ hd _ _ h := ⟨hR.enlist x hd h.1, hS.enlist x hd h.2⟩
  unlist x _ _ h := ⟨hR.unlist x h.1, hS.unlist x h.2⟩
  report hj id t x hx _ _ h :=
    ⟨hR.report (hj.mono fun _ _ h => h.1) id t x hx h.1, hS.report (hj.mono fun _ _ h => h.2) id t x hx h.2⟩
  begin j x output _ hl values hx _ _ h := ⟨hR.begin j x output hl values hx h.1, hS.begin j x output hl values hx h.2⟩
  commit hc output _ hl _ _ h := ⟨hR.commit hc output hl h.1, hS.commit hc output hl h.2⟩
  stop hc _ _ h := ⟨hR.stop hc h.1, hS.stop hc h.2⟩
  register h _ hj x hx input := ⟨hR.register h.1 (hj.mono fun _ _ h => h.1) x hx input,
    hS.register h.2 (hj.mono fun _ _ h => h.2) x hx input⟩
  enrol hd _ _ h := ⟨hR.enrol hd h.1, hS.enrol hd h.2⟩
  finish j o output _ _ h := ⟨hR.finish j o output h.1, hS.finish j o output h.2⟩
  dismiss h _ _ hj ho := ⟨hR.dismiss h.1 hj ho, hS.dismiss h.2 hj ho⟩

theorem Closed.and (hR : Closed R A) (hS : Closed S A) : Closed (fun w r => R w r ∧ S w r) A where
  toManner := hR.toManner.and hS.toManner
  close h _ hd := ⟨hR.close h.1 hd, hS.close h.2 hd⟩
  relinquish h _ ho hd o :=
    ⟨hR.relinquish h.1 (ho.mono fun _ _ h => h.1) hd o, hS.relinquish h.2 (ho.mono fun _ _ h => h.2) hd o⟩
  release h _ ho hd := ⟨hR.release h.1 (ho.mono fun _ _ h => h.1) hd, hS.release h.2 (ho.mono fun _ _ h => h.2) hd⟩
  clear h _ ho hd := ⟨hR.clear h.1 (ho.mono fun _ _ h => h.1) hd, hS.clear h.2 (ho.mono fun _ _ h => h.2) hd⟩

theorem Closed.congr (h : Closed R A) (hRS : ∀ w r, R w r ↔ S w r) : Closed S A := by
  have heq : R = S := funext fun w => funext fun r => propext (hRS w r)
  exact heq ▸ h

/-- Fewer contexts do less. -/
theorem Closed.anti (h : Closed R A) (hAB : ∀ c, B c → A c) : Closed R B := by
  have hboth {c : Context} (hc : B c ∧ c.Free) : A c ∧ c.Free := ⟨hAB c hc.1, hc.2⟩
  have hengages {j : Nat} (hj : Engages B j) : Engages A j := hj.imp fun _ => .imp fun _ => .imp fun _ hc => hAB _ hc
  have hengaged {j : Nat} (hj : Engaged R B j) : Engaged R A j := hj.imp_right hengages
  exact { h with
    write := fun hr _ hc => h.write hr (hAB _ hc)
    setState := fun hc => h.setState (hAB _ hc)
    hold := fun hc => h.hold (hAB _ hc)
    enlist := fun x _ hd => h.enlist x (hd.mono fun _ => hboth)
    report := fun hj => h.report (hengaged hj)
    begin := fun j x output _ hl values hs => h.begin j x output (fun y hy c hc => hboth (hl y hy c hc)) values
      (hs.imp_right fun ⟨c, hc, hx⟩ => ⟨c, hAB c hc, hx⟩)
    commit := fun hc => h.commit (hAB _ hc)
    stop := fun hc => h.stop (hAB _ hc)
    register := fun hr _ hj => h.register hr (hengaged hj)
    enrol := fun hd => h.enrol (hd.mono fun _ => hboth)
    dismiss := fun hr _ _ hj => h.dismiss hr (hengages hj) }

theorem Endures.and {j : Nat} (hR : Endures R j) (hS : Endures S j) : Endures (fun w r => R w r ∧ S w r) j where
  close h hd := ⟨hR.close h.1 hd, hS.close h.2 hd⟩
  relinquish h ho hd o :=
    ⟨hR.relinquish h.1 (ho.mono fun _ _ h => h.1) hd o, hS.relinquish h.2 (ho.mono fun _ _ h => h.2) hd o⟩
  release h ho hd := ⟨hR.release h.1 (ho.mono fun _ _ h => h.1) hd, hS.release h.2 (ho.mono fun _ _ h => h.2) hd⟩
  clear h ho hd := ⟨hR.clear h.1 (ho.mono fun _ _ h => h.1) hd, hS.clear h.2 (ho.mono fun _ _ h => h.2) hd⟩

theorem Bearing.and (hR : Bearing R A) (hS : Manner S A) : Bearing (fun w r => R w r ∧ S w r) A where
  toManner := hR.toManner.and hS
  seen h := hR.seen h.1
  committed h := hR.committed h.1
  nodes h := hR.nodes h.1
  enrolled h := hR.enrolled h.1
  function h := hR.function h.1
  async h := hR.async h.1

/-- What outlasts everything anyway may be assumed besides. -/
theorem Conduct.and (hR : Conduct R A) (hS : Closed S A) : Conduct (fun w r => R w r ∧ S w r) A where
  toBearing := hR.toBearing.and hS.toManner
  disposal hT fuel j := (hR.disposal (hS.and hT) fuel j).congr fun _ _ => and_assoc

section All

variable {ι : Sort _} {T : ι → World → World → Prop}

/-- Where each of some relations outlasts what is done, all of them do. -/
theorem Manner.all (hT : ∀ a, Manner (T a) A) : Manner (fun w r => ∀ a, T a w r) A where
  stamp g v _ _ h a := (hT a).stamp g v (h a)
  write h _ hc _ _ _ hn a := (hT a).write (h a) hc hn
  setState hc v _ _ h a := (hT a).setState hc v (h a)
  setInput x place v _ _ h a := (hT a).setInput x place v (h a)
  assign h _ _ _ _ _ hg a := (hT a).assign (h a) hg
  record e he _ _ h a := (hT a).record e he (h a)
  tell j e he _ _ h a := (hT a).tell j e he (h a)
  hold hc _ _ h a := (hT a).hold hc (h a)
  schedule s _ _ h a := (hT a).schedule s (h a)
  store s _ _ h a := (hT a).store s (h a)
  subscribe t x _ _ h a := (hT a).subscribe t x (h a)
  unsubscribe s _ _ h a := (hT a).unsubscribe s (h a)
  enlist x _ hd _ _ h a := (hT a).enlist x hd (h a)
  unlist x _ _ h a := (hT a).unlist x (h a)
  report hj id t x hx _ _ h a := (hT a).report (hj.mono fun _ _ h => h a) id t x hx (h a)
  begin j x output _ hl values hx _ _ h a := (hT a).begin j x output hl values hx (h a)
  commit hc output _ hl _ _ h a := (hT a).commit hc output hl (h a)
  stop hc _ _ h a := (hT a).stop hc (h a)
  register h _ hj x hx input a := (hT a).register (h a) (hj.mono fun _ _ h => h a) x hx input
  enrol hd _ _ h a := (hT a).enrol hd (h a)
  finish j o output _ _ h a := (hT a).finish j o output (h a)
  dismiss h _ _ hj ho a := (hT a).dismiss (h a) hj ho

theorem Closed.all (hT : ∀ a, Closed (T a) A) : Closed (fun w r => ∀ a, T a w r) A where
  toManner := Manner.all fun a => (hT a).toManner
  close h _ hd a := (hT a).close (h a) hd
  relinquish h _ ho hd o a := (hT a).relinquish (h a) (ho.mono fun _ _ h => h a) hd o
  release h _ ho hd a := (hT a).release (h a) (ho.mono fun _ _ h => h a) hd
  clear h _ ho hd a := (hT a).clear (h a) (ho.mono fun _ _ h => h a) hd

end All

theorem stable_eq (F : World → World) : Stable (· = ·) F := fun _ _ h => congrArg F h

/-- Calls do the same in the same world. -/
theorem closed_eq (A : Context → Prop) : Closed (· = ·) A where
  stamp _ _ := stable_eq _
  write h _ _ _ _ _ _ := by rw [h]
  setState _ _ := stable_eq _
  setInput _ _ _ := stable_eq _
  assign h _ _ _ _ _ _ := by rw [h]
  record _ _ := stable_eq _
  tell _ _ _ := stable_eq _
  hold _ := stable_eq _
  schedule _ := stable_eq _
  store _ := stable_eq _
  subscribe _ _ := stable_eq _
  unsubscribe _ := stable_eq _
  enlist _ _ _ := stable_eq _
  unlist _ := stable_eq _
  report _ _ _ _ _ := stable_eq _
  begin _ _ _ _ _ _ _ := stable_eq _
  commit _ _ _ _ := stable_eq _
  stop _ := stable_eq _
  register h _ _ _ _ _ := by rw [h]
  enrol _ := stable_eq _
  finish _ _ _ := stable_eq _
  dismiss h _ _ _ _ := by rw [h]
  close h _ _ := by rw [h]
  relinquish h _ _ _ _ := by rw [h]
  release h _ _ _ := by rw [h]
  clear h _ _ _ := by rw [h]

/-- There is nothing to keep to. -/
theorem closed_true (A : Context → Prop) : Closed (fun _ _ => True) A where
  stamp _ _ _ _ _ := trivial
  write _ _ _ _ _ _ _ := trivial
  setState _ _ _ _ _ := trivial
  setInput _ _ _ _ _ _ := trivial
  assign _ _ _ _ _ _ _ := trivial
  record _ _ _ _ _ := trivial
  tell _ _ _ _ _ _ := trivial
  hold _ _ _ _ := trivial
  schedule _ _ _ _ := trivial
  store _ _ _ _ := trivial
  subscribe _ _ _ _ _ := trivial
  unsubscribe _ _ _ _ := trivial
  enlist _ _ _ _ _ _ := trivial
  unlist _ _ _ _ := trivial
  report _ _ _ _ _ _ _ _ := trivial
  begin _ _ _ _ _ _ _ _ _ _ := trivial
  commit _ _ _ _ _ _ _ := trivial
  stop _ _ _ _ := trivial
  register _ _ _ _ _ _ := trivial
  enrol _ _ _ _ := trivial
  finish _ _ _ _ _ _ := trivial
  dismiss _ _ _ _ _ := trivial
  close _ _ _ := trivial
  relinquish _ _ _ _ _ := trivial
  release _ _ _ _ := trivial
  clear _ _ _ _ := trivial

/-- A property of worlds as a relation. -/
def Upholds (P : World → Prop) (w r : World) : Prop := w = r ∧ P w

/-- A property of worlds that outlasts what contexts of the kind do is a bearing. -/
theorem Manner.bearing {P : World → Prop} (h : Manner (fun w _ => P w) A)
    (hnodes : ∀ w, P w → ∀ p ∈ w.disposers, p.2.Within A)
    (henrolled : ∀ w, P w → ∀ j, ∀ op ∈ (w.engine j).operations, ∀ d ∈ op.disposers, d.Within A)
    (hfunction : ∀ w, P w → ∀ x b, (w.node x).definition.behaviour = .function b → A ⟨x, .function⟩)
    (hasync : ∀ w, P w → ∀ x b, (w.node x).definition.behaviour = .async b → ∀ j o, A ⟨x, .async j o⟩) :
    Bearing (Upholds P) A where
  toManner := (closed_eq A).toManner.and h
  seen h := h.1 ▸ Seen.refl _
  committed h _ _ _ _ _ := by rw [h.1]
  nodes h := hnodes _ h.2
  enrolled h := henrolled _ h.2
  function h := hfunction _ h.2 _ _
  async h := hasync _ h.2 _ _

/-- Likewise where it outlasts whatever any context does. -/
theorem Manner.bearing_of_all {P : World → Prop} (h : Manner (fun w _ => P w) fun _ => True) :
    Bearing (Upholds P) fun _ => True := by
  refine h.bearing ?_ ?_ ?_ ?_
  · intro _ _ p _
    cases p.2 <;> trivial
  · intro _ _ _ _ _ d _
    cases d <;> trivial
  · exact fun _ _ _ _ _ => trivial
  · exact fun _ _ _ _ _ _ _ => trivial

/-- A computation that keeps to a property of worlds preserves it. -/
theorem Play.Agrees.upholds {α : Type} {P : World → Prop} {x : Play α} (h : Obeys (Upholds P) x) {w : World}
    (hw : P w) : P (x.runOn w).2 :=
  (h w w ⟨rfl, hw⟩).2.2

namespace Engine

theorem operation_modifyOperation (e : Engine) (o k : Nat) (g : Operation → Operation) :
    (e.modifyOperation o g).operation k =
      if k = o ∧ k < e.operations.size then g (e.operation k) else e.operation k := by
  simp only [operation, modifyOperation, Array.getElem?_modify]
  by_cases hk : k < e.operations.size
  · by_cases ho : k = o
    · simp [ho, ho ▸ hk]
    · simp [ho, Ne.symm ho]
  · simp [hk]

theorem operation_of_size_le {e : Engine} {k : Nat} (h : e.operations.size ≤ k) : e.operation k = default := by
  simp [operation, h]

theorem operation_push (e e' : Engine) (op : Operation) (h : e'.operations = e.operations.push op) (k : Nat) :
    e'.operation k = if k = e.operations.size then op else e.operation k := by
  simp only [operation, h, Array.getElem?_push]
  split <;> rfl

end Engine

theorem World.operation_modifyEngine (w : World) (j : Nat) {g : Engine → Engine} (k : Nat)
    (hg : ∀ e, (g e).operations = e.operations) (o : Nat) :
    ((w.modifyEngine j g).engine k).operation o = (w.engine k).operation o := by
  rw [World.engine_modifyEngine]
  split
  · rw [Engine.operation, hg]
    rfl
  · rfl

theorem World.operation_strike (w : World) (j k o o' : Nat) :
    ((w.strike j o).engine k).operation o' = (w.engine k).operation o' :=
  w.operation_modifyEngine j (g := fun e => { e with pending := e.pending.erase o }) k (fun _ => rfl) o'

/-- From `w` on to `v` no engine comes or goes, a disposed one stays disposed, no operation vanishes or is taken up again,
and no inbox fills. -/
structure Onward (w v : World) : Prop where
  size : v.engines.size = w.engines.size
  settings : ∀ j, (v.engine j).settings = (w.engine j).settings
  isDisposed : ∀ j, (w.engine j).isDisposed = true → (v.engine j).isDisposed = true
  operations : ∀ j, (w.engine j).operations.size ≤ (v.engine j).operations.size
  settled : ∀ j o, ((w.engine j).operation o).isSettled = true → ((v.engine j).operation o).isSettled = true
  inbox : ∀ j, (w.engine j).inbox = [] → (v.engine j).inbox = []

namespace Onward

open World

variable {u v w : World} {i : Nat}

theorem refl (w : World) : Onward w w :=
  ⟨rfl, fun _ => rfl, fun _ => id, fun _ => Nat.le_refl _, fun _ _ => id, fun _ => id⟩

theorem trans (h : Onward u v) (h' : Onward v w) : Onward u w :=
  ⟨h'.size.trans h.size, fun j => (h'.settings j).trans (h.settings j),
    fun j hd => h'.isDisposed j (h.isDisposed j hd), fun j => Nat.le_trans (h.operations j) (h'.operations j),
    fun j o hs => h'.settled j o (h.settled j o hs), fun j hb => h'.inbox j (h.inbox j hb)⟩

theorem of_local (h : Local i w v) : Onward w v := by
  have hinbox (j : Nat) : (v.engine j).inbox = (w.engine j).inbox := (congrArg Engine.inbox (h.face j) :)
  refine ⟨h.size, fun j => (congrArg Engine.settings (h.face j) :), ?_, ?_, ?_, ?_⟩
  · intro j hd
    rw [h.isDisposed, hd]
  · exact fun j => Nat.le_of_eq (congrArg Array.size (h.operations j).symm)
  · intro j o hs
    rwa [Engine.operation, h.operations]
  · intro j hb
    rw [hinbox, hb]

theorem of_engines (h : v.engines = w.engines) : Onward w v := by
  have he := engine_congr h
  exact ⟨by rw [h], fun j => by rw [he], fun j hd => by rw [he, hd], fun j => Nat.le_of_eq (by rw [he]),
    fun j o hs => by rwa [he], fun j hb => by rw [he, hb]⟩

/-- One engine changes, and that onward. -/
theorem of_engine (w : World) (j : Nat) {g : Engine → Engine} (hs : ∀ e, (g e).settings = e.settings)
    (hd : ∀ e : Engine, e.isDisposed = true → (g e).isDisposed = true)
    (ho : ∀ e, e.operations.size ≤ (g e).operations.size)
    (hp : ∀ e o, (e.operation o).isSettled = true → ((g e).operation o).isSettled = true)
    (hb : ∀ e : Engine, e.inbox = [] → (g e).inbox = []) :
    Onward w (w.modifyEngine j g) := by
  refine ⟨by simp, ?_, ?_, ?_, ?_, ?_⟩
  all_goals
    intro k
    rw [engine_modifyEngine]
    split
  · exact hs _
  · rfl
  · exact hd _
  · exact id
  · exact ho _
  · exact Nat.le_refl _
  · exact hp _
  · exact fun _ => id
  · exact hb _
  · exact id

/-- One engine changes, but for its operations. -/
theorem modifyEngine (w : World) (j : Nat) {g : Engine → Engine} (hs : ∀ e, (g e).settings = e.settings)
    (hd : ∀ e : Engine, e.isDisposed = true → (g e).isDisposed = true) (ho : ∀ e, (g e).operations = e.operations)
    (hb : ∀ e : Engine, e.inbox = [] → (g e).inbox = []) :
    Onward w (w.modifyEngine j g) :=
  of_engine w j hs hd (fun e => Nat.le_of_eq (by rw [ho]))
    (fun e o hs => by rwa [Engine.operation, ho]) hb

theorem modifyOperation (w : World) (j o : Nat) {g : Operation → Operation}
    (hg : ∀ op, op.isSettled = true → (g op).isSettled = true) :
    Onward w (w.modifyEngine j (·.modifyOperation o g)) := by
  refine of_engine w j (fun _ => rfl) (fun _ => id) (fun _ => by simp [Engine.modifyOperation]) ?_ fun _ => id
  intro e k hs
  rw [Engine.operation_modifyOperation]
  split
  · exact hg _ hs
  · exact hs

theorem register (w : World) (j : Nat) (op : Operation) (pending : List Nat) :
    Onward w (w.modifyEngine j fun e => { e with operations := e.operations.push op, pending := e.pending ++ pending }) := by
  refine of_engine w j (fun _ => rfl) (fun _ => id) (fun _ => by simp) ?_ fun _ => id
  intro e o hs
  rw [Engine.operation_push e _ op rfl]
  split
  · rename_i ho
    rw [ho, Engine.operation_of_size_le (Nat.le_refl _)] at hs
    cases hs
  · exact hs

theorem relinquish (w : World) (j o : Nat) : Onward w (w.relinquish j o) :=
  relinquish_upholds (modifyOperation w j o fun _ _ => by simp [Operation.isSettled]) (refl w)

theorem strike (w : World) (j o : Nat) : Onward w (w.strike j o) :=
  modifyEngine w j (fun _ => rfl) (fun _ => id) (fun _ => rfl) fun _ => id

theorem dismiss (w : World) (j o : Nat) : Onward w (w.dismiss j o) := (strike w j o).trans (relinquish _ j o)

theorem release (w : World) (j : Nat) : Onward w (w.modifyEngine j fun e => { e with pending := [] }) :=
  modifyEngine w j (fun _ => rfl) (fun _ => id) (fun _ => rfl) fun _ => id

theorem clear (w : World) (j : Nat) : Onward w (w.modifyEngine j fun e => { e with queue := [], inbox := [] }) :=
  modifyEngine w j (fun _ => rfl) (fun _ => id) (fun _ => rfl) fun _ _ => rfl

theorem complete (w : World) (j o : Nat) (output : Option String) : Onward w (w.complete j o output) := by
  refine complete_upholds ?_ ?_ ?_ ?_ ?_ (refl w)
  · intro v h
    exact h.trans (strike v j o)
  · exact fun v x h => h.trans (of_engines (engines_chooseOutput v x output))
  · exact fun v e h => h.trans (of_local (Local.report v j e))
  · exact fun v x name h => h.trans (of_local (Local.begin v j x name none []))
  · exact fun v e h => h.trans (of_engines (engines_tell v j e))

theorem finishOperation (w : World) (j o : Nat) (output : Option String) :
    Onward w (w.finishOperation j o output) := by
  refine finishOperation_upholds ?_ ?_ ?_ (refl w)
  · exact fun v h _ _ => h.trans (modifyOperation v j o fun _ _ => rfl)
  · exact fun v h _ => h.trans (complete v j o output)
  · intro _ _ hout
    cases hout

/-- Every call leads onward. -/
theorem closed (u : World) (A : Context → Prop) : Closed (fun w _ => Onward u w) A where
  stamp g v w _ h := h.trans (of_engines (engines_stamp w g v))
  write h _ _ _ _ _ _ := h.trans (of_engines rfl)
  setState _ v _ _ h := h.trans (of_engines rfl)
  setInput x place v _ _ h := h.trans (of_engines rfl)
  assign h _ _ _ _ _ _ := h.trans (of_engines rfl)
  record _ _ _ _ h := h.trans (of_engines rfl)
  tell j e _ w _ h := h.trans (of_engines (engines_tell w j e))
  hold _ _ _ h := h.trans (of_engines rfl)
  schedule s _ _ h := h.trans (of_engines rfl)
  store s _ _ h := h.trans (of_engines rfl)
  subscribe t x _ _ h := h.trans (of_engines rfl)
  unsubscribe s _ _ h := h.trans (of_engines rfl)
  enlist x _ _ _ _ h := h.trans (of_engines rfl)
  unlist x _ _ h := h.trans (of_engines rfl)
  report _ _ _ _ _ w _ h := h.trans (of_local (Local.report w _ _))
  begin j x output l _ values _ w _ h := h.trans (of_local (Local.begin w j x output l values))
  commit _ output l _ w _ h := h.trans (of_local (Local.commitFiber w _ _ _ output l))
  stop {x j f _} _ w _ h := by
    refine h.trans ?_
    simp only [World.endFiber]
    split
    · exact refl w
    · exact of_local (Local.modifyEngine w j fun _ => rfl)
  register {w _} h _ _ _ _ _ := h.trans (register w _ _ _)
  enrol {j o d} _ w _ h := h.trans (modifyOperation w j o fun _ => id)
  finish j o output w _ h := h.trans (finishOperation w j o output)
  dismiss {w _} h j o _ _ := h.trans (dismiss w j o)
  close {w _} h j _ := h.trans (modifyEngine w j (fun _ => rfl) (fun _ _ => rfl) (fun _ => rfl) fun _ => id)
  relinquish {w _} h j _ _ o := h.trans (relinquish w j o)
  release {w _} h j _ _ := h.trans (release w j)
  clear {w _} h j _ _ := h.trans (clear w j)

end Onward

end FlowGraph
