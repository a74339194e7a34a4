import FlowGraph.Engine.Audience
import FlowGraph.Engine.Basic
import FlowGraph.Engine.EventLoop
import FlowGraph.Graph.Basic
import FlowGraph.Scheduler
import FlowGraph.Store

/-!
The world in which engines run: graphs, engines, the host's services and everything that is connected
to them, and a journal of what the host can observe.
-/
namespace FlowGraph

/-- What can be subscribed to. -/
inductive Topic where
  | start | tick | ending
  | variableChange (graph serial : Nat)
  | eventTrigger (graph serial : Nat)
  | stateChange (path : Value)
  deriving DecidableEq, Repr

/-- Who is told. -/
inductive Handler where
  | node (engine : Nat) (node : NodeRef)
  | watchVariable (name : String)
  | watchEvent (name : String)
  deriving DecidableEq, Repr

structure Subscription where
  serial : Nat
  topic : Topic
  handler : Handler
  deriving Repr

/-- How time passes: by hand, on an event loop, or on timers of other threads. -/
inductive Clock where
  | manual | eventLoop | threads
  deriving DecidableEq, Repr

structure World where
  graphs : Array Graph := #[]
  engines : Array Engine := #[]
  subscriptions : List Subscription := []
  /-- How many subscriptions were made so far. -/
  issued : Nat := 0
  /-- What event nodes undo when they are disposed of, in the order of registration. -/
  disposers : List (NodeRef × Disposer) := []
  clock : Clock := .manual
  /-- Whether the event loop runs. -/
  isLooping : Bool := false
  /-- Timers that finish an operation of an engine. -/
  scheduler : Scheduler (Nat × Nat) := {}
  store : Store := {}
  ticks : Nat := 0
  /-- Contexts that behaviours handed to the host. -/
  holds : List Context := []
  /-- What happened, latest first. -/
  journal : List Event := []
  /-- Those whom the host lets hear of it. -/
  audience : Audience := {}
  deriving Inhabited

namespace World

def graph (w : World) (i : Nat) : Graph := w.graphs[i]?.getD default

def engine (w : World) (i : Nat) : Engine := w.engines[i]?.getD default

def node (w : World) (r : NodeRef) : Node := ((w.graph r.graph).nodeAt? r.serial).getD default

def registryOf (w : World) (r : NodeRef) : Registry := (w.graph r.graph).registry

def modifyGraph (w : World) (i : Nat) (f : Graph → Graph) : World := { w with graphs := w.graphs.modify i f }

def modifyEngine (w : World) (i : Nat) (f : Engine → Engine) : World := { w with engines := w.engines.modify i f }

def modifyNode (w : World) (r : NodeRef) (f : Node → Node) : World :=
  w.modifyGraph r.graph (·.modifyNode r.serial f)

/-- The timers at the moment they are asked for: the clock of an event loop has gone on. -/
def readClock (w : World) : Scheduler (Nat × Nat) :=
  if w.clock = .eventLoop then { w.scheduler with now := EventLoop.reading w.scheduler.now } else w.scheduler

/-- Puts an event down, and the handlers of the host hear of it. -/
def record (w : World) (e : Event) : World := { w with journal := e :: w.journal, audience := w.audience.hear e }

/-- A value as a graph keeps it. -/
def stamp (w : World) (i : Nat) (v : Value) : Value × World :=
  if v.hasFresh then
    let (g, v) := (w.graph i).stamp v
    (v, w.modifyGraph i fun _ => g)
  else (v, w)

/-- Records what the host hears of an engine, if it listens. -/
def tell (w : World) (i : Nat) (e : String → Event) : World :=
  if (w.engine i).isObserved then w.record (e (w.engine i).name) else w

def tellStarted (w : World) (i : Nat) (r : NodeRef) : World := w.tell i (.started · (w.node r).id)

def tellEnded (w : World) (i : Nat) (r : NodeRef) : World := w.tell i (.ended · (w.node r).id)

/-- The node of an engine that a failure names; of several with one name the last. -/
def blamed (w : World) (i : Nat) (id : String) : Option NodeRef :=
  (w.engine i).nodes.reverse.find? fun r => (w.node r).id = id

/-- Notes a failure at the node it names and in the engine. -/
def report (w : World) (i : Nat) (f : Failure) : World :=
  let w := match f with
    | .node id _ _ => match w.blamed i id with
      | some r => w.modifyNode r fun n => { n with error := some f.message }
      | none => w
    | _ => w
  let e := w.engine i
  (w.modifyEngine i fun e => { e with failures := f :: e.failures }).record (.failed e.name e.isObserved f)

def operationLabel (w : World) (o : Operation) : String :=
  "<AsyncOperation " ++ (w.node o.node).label ++ " " ++ o.stateText ++ ">"

def nodeFailure (w : World) (r : NodeRef) (reason : NodeReason) : Failure :=
  .node (w.node r).id (w.node r).typeName reason

def subscribe (w : World) (t : Topic) (h : Handler) : Disposer × World :=
  (.unsubscribe w.issued,
    { w with subscriptions := w.subscriptions ++ [⟨w.issued, t, h⟩], issued := w.issued + 1 })

def unsubscribe (w : World) (serial : Nat) : World :=
  { w with subscriptions := w.subscriptions.filter (·.serial ≠ serial) }

def handlers (w : World) (t : Topic) : List Handler :=
  (w.subscriptions.filter fun s => match s.topic, t with
    | .stateChange p, .stateChange q => Value.same p q
    | a, b => a = b).map (·.handler)

end World

/-- A computation on the world that may fail; what it did before it failed stays done. -/
abbrev Play := ExceptT Failure (StateM World)

namespace Play

def ofFault {α : Type} (x : Except Fault α) : Play α := ExceptT.mk (pure (Except.lifted x))

def ofExcept {α : Type} (x : Except Failure α) : Play α := ExceptT.mk (pure x)

def ofIntegrity {α : Type} (x : Except IntegrityError α) : Play α :=
  ExceptT.mk (pure (x.mapError Failure.integrity))

/-- A change of the world that may be refused, as a computation. -/
def change (f : World → Except Failure Unit × World) : Play Unit := ExceptT.mk f

def stamp (i : Nat) (v : Value) : Play Value := modifyGet (·.stamp i v)

/-- The outcome of a computation on a world, and the world after it. -/
def runOn {α : Type} (x : Play α) (w : World) : Except Failure α × World := ExceptT.run x w

/-- The outcome of a computation as a value. -/
def outcome {α : Type} (x : Play α) : Play (Except Failure α) :=
  ExceptT.mk do return .ok (← x.run)

end Play

end FlowGraph
