import FlowGraph.Graph.Node
import FlowGraph.Settings.Basic

/-!
The parts of a running engine: fibers, each one path of execution, operations that asynchronous nodes
have under way, and what other threads have posted.
-/
namespace FlowGraph

/-- A node of one of the graphs at hand. -/
structure NodeRef where
  graph : Nat
  serial : Nat
  deriving DecidableEq, Repr, Inhabited

/-- What a behaviour is called as, which decides what it may ask for. -/
inductive Role where
  | event (engine : Nat)
  | flow (engine fiber : Nat) (input : String)
  | function
  | async (engine operation : Nat)
  deriving DecidableEq, Repr

/-- The name of a role in messages. -/
def Role.title : Role → String
  | event _ => "EventContext"
  | flow _ _ _ => "FlowContext"
  | function => "FunctionContext"
  | async _ _ => "AsyncContext"

/-- The view that one call of a behaviour has of its node. -/
structure Context where
  node : NodeRef
  role : Role
  deriving DecidableEq, Repr

/-- What runs when the path behind a commit is over. -/
inductive Listener where
  /-- The next outputs of a sequence, in order. -/
  | nextOutput (context : Context) (names : List String)
  /-- The next round of a loop after the one of the given index. -/
  | nextRound (context : Context) (index last : Value)
  | script (context : Context) (actions : List Action)
  /-- Tells the host, which may refuse. -/
  | host (label : String) (refusal : Option String)
  deriving Repr

/-- A wire of one of the graphs at hand. -/
structure Route where
  graph : Nat
  wire : Wire
  deriving DecidableEq, Repr, Inhabited

/-- One path of execution. -/
structure Fiber where
  next : Option Route := none
  parent : Option Nat := none
  /-- Listeners with the node that committed, innermost first. -/
  listeners : List (Option NodeRef × Listener) := []
  /-- How many of the fibers it spawned are not finished. -/
  pending : Nat := 0
  steps : Nat := 0
  isAborted : Bool := false
  committed : Bool := false
  finished : Bool := false
  /-- Data outputs that the trigger of the path carries, written before its first step. -/
  entry : Option (NodeRef × List (String × Value)) := none
  /-- Whether they are written, or left to the fibers into which this one split. -/
  isWritten : Bool := false
  deriving Repr, Inhabited

def Fiber.isWaiting (f : Fiber) : Bool := 0 < f.pending

/-- Data outputs that the fiber has yet to write. -/
def Fiber.due (f : Fiber) : Option (NodeRef × List (String × Value)) := if f.isWritten then none else f.entry

/-- The fiber has committed, with a listener for the path behind. -/
def Fiber.commit (f : Fiber) (node : NodeRef) (l : Option Listener) : Fiber :=
  { f with
    committed := true
    listeners := match l with
      | some l => (some node, l) :: f.listeners
      | none => f.listeners }

def Fiber.isComplete (f : Fiber) : Bool :=
  f.isAborted || (f.next.isNone && f.pending == 0 && f.listeners.isEmpty)

def Fiber.isReady (f : Fiber) : Bool := !f.isComplete && !f.isWaiting

/-- What is undone when a node or an operation is disposed of. -/
inductive Disposer where
  | unsubscribe (subscription : Nat)
  | cancelTimer (timer : Nat)
  | script (context : Context) (actions : List Action)
  deriving Repr

/-- An asynchronous operation. -/
structure Operation where
  node : NodeRef
  input : String
  isAbandoned : Bool := false
  isFinished : Bool := false
  disposers : List Disposer := []
  deriving Repr, Inhabited

def Operation.stateText (o : Operation) : String :=
  if o.isAbandoned then "abandoned" else if o.isFinished then "finished" else "pending"

/-- What another thread asked the engine to do. -/
inductive Post where
  | complete (operation : Nat) (output : Option String)
  | begin (node : NodeRef) (output : String) (listener : Option Listener) (outputs : List (String × Value))
  deriving Repr

structure Engine where
  name : String := "main"
  nodes : List NodeRef := []
  eventNodes : List NodeRef := []
  settings : RuntimeSettings := {}
  fibers : Array Fiber := #[]
  queue : List Nat := []
  /-- The fiber whose step is being taken. -/
  current : Option Nat := none
  operations : Array Operation := #[]
  pending : List Nat := []
  inbox : List Post := []
  /-- What went wrong so far, latest first. -/
  failures : List Failure := []
  steps : Nat := 0
  isDisposed : Bool := false
  /-- Whether the host hears of what happens. -/
  isObserved : Bool := false
  /-- The wake-up flag of an asynchronous run, while there is one. -/
  wake : Option Bool := none
  deriving Inhabited

namespace Engine

def fiber (e : Engine) (i : Nat) : Fiber := e.fibers[i]?.getD default

def operation (e : Engine) (i : Nat) : Operation := e.operations[i]?.getD default

def modifyFiber (e : Engine) (i : Nat) (f : Fiber → Fiber) : Engine :=
  { e with fibers := e.fibers.modify i f }

def modifyOperation (e : Engine) (i : Nat) (f : Operation → Operation) : Engine :=
  { e with operations := e.operations.modify i f }

def errors (e : Engine) : List Failure := e.failures.reverse

def isIdle (e : Engine) : Bool := e.inbox.isEmpty && e.queue.isEmpty && e.pending.isEmpty

def label (e : Engine) : String :=
  "<Engine nodes=" ++ toString e.nodes.length ++ " fibers=" ++ toString e.queue.length ++
    " pending=" ++ toString e.pending.length ++ ">"

/-- Wakes an asynchronous run, if there is one. -/
def notify (e : Engine) : Engine := { e with wake := e.wake.map fun _ => true }

/-- Puts new fibers into the queue: in front if the running fiber spawned them, else at the end. -/
def spawn (e : Engine) (parent : Nat) (children : List Nat) : Engine :=
  { e with queue := if e.current = some parent then children ++ e.queue else e.queue ++ children }

def resume (e : Engine) (i : Nat) : Engine := { e with queue := i :: e.queue }

/-- One child of the fiber is over; the last one resumes it. -/
def childFinished (e : Engine) (i : Nat) : Engine :=
  let e := e.modifyFiber i fun f => { f with pending := f.pending - 1 }
  let f := e.fiber i
  if f.pending = 0 && !f.isAborted then e.resume i else e

/-- Marks a fiber as over and tells its parent, once. -/
def finish (e : Engine) (i : Nat) : Engine :=
  let f := e.fiber i
  if f.finished then e
  else
    let e := e.modifyFiber i fun f => { f with finished := true }
    match f.parent with
    | some p => e.childFinished p
    | none => e

def abort (e : Engine) (i : Nat) : Engine :=
  (e.modifyFiber i fun f => { f with isAborted := true, next := none, listeners := [] }).finish i

def latest (e : Engine) (n : Nat) : List Nat := (List.range n).map (e.fibers.size - n + ·)

/-- The fibers into which a fiber splits, one for each route. What its trigger carries goes to each of
them. -/
def children (e : Engine) (i : Nat) (routes : List Route) : List Fiber :=
  let f := e.fiber i
  routes.map fun r => { next := some r, parent := some i, entry := f.entry, isWritten := f.isWritten }

/-- Splits a fiber into one for each route, for which it waits. -/
def split (e : Engine) (i : Nat) (routes : List Route) : Engine :=
  let e := { e with fibers := e.fibers ++ (e.children i routes).toArray }
  let e := e.modifyFiber i fun f => { f with isWritten := true, pending := f.pending + routes.length }
  e.spawn i (e.latest routes.length)

/-- Continues a fiber along the routes behind an output: the only one, or several as fibers of their
own. -/
def follow (e : Engine) (i : Nat) (routes : List Route) : Engine :=
  match routes with
  | [] => e
  | [r] => e.modifyFiber i fun f => { f with next := some r }
  | _ => e.split i routes

/-- Commits the fiber to the wires behind an output of a node, with a listener for the path. -/
def commit (e : Engine) (i : Nat) (node : NodeRef) (l : Option Listener) (wires : List Wire) : Engine :=
  let e := e.modifyFiber i (·.commit node l)
  e.follow i (wires.map fun w => ⟨node.graph, w⟩)

end Engine

end FlowGraph
