import FlowGraph.Engine.World
import FlowGraph.Graph.Declare

/-!
Committing to outputs: on a running fiber, or as a new path that a trigger starts. Starting a path
never fails for the caller; what goes wrong is reported by the engine. Operations complete here too,
since completing one starts the path behind it.
-/
namespace FlowGraph.World

/-- Why a fiber may not commit to an output of a node, if it may not. -/
def commitRefusal? (w : World) (i f : Nat) (r : NodeRef) (output : String) : Option Failure :=
  if ((w.engine i).fiber f).committed then some (w.nodeFailure r (.committedTwice output))
  else if (w.node r).isFlowOutput output then none
  else some (w.nodeFailure r (.notFlowOutput output))

def wiresAt (w : World) (r : NodeRef) (output : String) : List Wire :=
  match (w.node r).output? output with
  | some s => s.wires
  | none => []

/-- Commits a fiber to an output of a node. Nothing changes if that is refused. -/
def commitFiber (w : World) (i f : Nat) (r : NodeRef) (output : String) (l : Option Listener) :
    Except Failure Unit × World :=
  match w.commitRefusal? i f r output with
  | some e => (.error e, w)
  | none =>
    let wires := w.wiresAt r output
    (.ok (), w.modifyEngine i (·.commit f r l wires))

/-- Ends the path of a fiber at the node, which commits to nothing. -/
def endFiber (w : World) (i f : Nat) (r : NodeRef) : Except Failure Unit × World :=
  if ((w.engine i).fiber f).committed then (.error (w.nodeFailure r .endedAfterCommit), w)
  else (.ok (), w.modifyEngine i (·.modifyFiber f fun f => { f with committed := true }))

/-- Writes data outputs one after the other, up to the first that is refused. -/
def writeOutputs (w : World) (r : NodeRef) : List (String × Value) → Except Fault Unit × World
  | [] => (.ok (), w)
  | (name, v) :: rest => match (w.node r).write name v with
    | .ok n => writeOutputs (w.modifyNode r fun _ => n) r rest
    | .error e => (.error e, w)

/-- Writes the data outputs that the trigger of a fiber carries. -/
def applyEntry (w : World) (i f : Nat) : Except Failure Unit × World :=
  let due := ((w.engine i).fiber f).due
  let w := w.modifyEngine i (·.modifyFiber f fun f => { f with isWritten := true })
  match due with
  | none => (.ok (), w)
  | some (r, values) =>
    match w.writeOutputs r values with
    | (.ok _, w) => (.ok (), w)
    | (.error e, w) => (.error (w.nodeFailure r (.payload (.fault e))), w)

/-- Puts a new fiber into the queue, if it has something to do. A path that has nothing to run still
leaves its outputs. -/
def enqueue (w : World) (i f : Nat) : World :=
  let fiber := (w.engine i).fiber f
  if fiber.isComplete then
    match w.applyEntry i f with
    | (.error e, w) => w.report i e
    | (.ok _, w) => w.modifyEngine i Engine.notify
  else if fiber.isWaiting then w.modifyEngine i Engine.notify
  else w.modifyEngine i fun e => { e with queue := e.queue ++ [f] }.notify

/-- Data outputs as a graph keeps them. -/
def stampOutputs (w : World) (i : Nat) : List (String × Value) → List (String × Value) × World
  | [] => ([], w)
  | (name, v) :: rest =>
    let (v, w) := w.stamp i v
    let (rest, w) := w.stampOutputs i rest
    ((name, v) :: rest, w)

/-- Starts a path at an output of a node, with data outputs for it. -/
def begin (w : World) (i : Nat) (r : NodeRef) (output : String) (l : Option Listener)
    (outputs : List (String × Value)) : World :=
  if (w.engine i).isDisposed then w
  else
    let (outputs, w) := w.stampOutputs r.graph outputs
    let entry := if outputs.isEmpty then none else some (r, (Table.ofList outputs).entries)
    let f := (w.engine i).fibers.size
    let w := w.modifyEngine i fun e => { e with fibers := e.fibers.push { entry := entry } }
    match w.commitFiber i f r output l with
    | (.error e, w) => w.report i e
    | (.ok _, w) => w.enqueue i f

/-- The output at which an operation of the node goes on. -/
def outputOf (w : World) (r : NodeRef) : Except Failure String :=
  let n := w.node r
  match n.lastOutput with
  | some o => .ok o
  | none => match n.flowOutputs with
    | s :: _ => .ok s.name
    | [] => .error (w.nodeFailure r .noFlowOutput)

/-- Settles the output at which the node goes on, the first one if none is named. -/
def chooseOutput (w : World) (r : NodeRef) (output : Option String) : World × Except Failure String :=
  let w := if output.isNone then w.modifyNode r fun n => { n with lastOutput := none } else w
  let chosen : Except Failure String := match output with
    | some o => .ok o
    | none => w.outputOf r
  match chosen with
  | .error e => (w, .error e)
  | .ok o =>
    if (w.node r).isFlowOutput o then (w.modifyNode r fun n => { n with lastOutput := some o }, .ok o)
    else (w, .error (w.nodeFailure r (.notFlowOutput o)))

/-- Completes an operation: its node goes on as a new path. -/
def complete (w : World) (i o : Nat) (output : Option String) : World :=
  let w := w.modifyEngine i fun e => { e with pending := e.pending.erase o }
  let op := (w.engine i).operation o
  if (w.engine i).isDisposed || op.isAbandoned then w
  else match w.chooseOutput op.node output with
    | (w, .error e) => w.report i e
    | (w, .ok name) => (w.begin i op.node name none []).tellEnded i op.node

/-- Leaves something in the inbox of an engine, as another thread does. -/
def post (w : World) (i : Nat) (p : Post) : World :=
  w.modifyEngine i fun e => { e with inbox := e.inbox ++ [p] }.notify

/-- Finishes an operation that was started; only the first time counts, and none after it was abandoned. -/
def finishOperation (w : World) (i o : Nat) (output : Option String) (fromOutside : Bool := false) : World :=
  let op := (w.engine i).operation o
  if (w.engine i).operations.size ≤ o || op.isAbandoned || op.isFinished then w
  else
    let w := w.modifyEngine i (·.modifyOperation o fun op => { op with isFinished := true })
    if fromOutside then w.post i (.complete o output) else w.complete i o output

def applyPost (w : World) (i : Nat) : Post → World
  | .complete o output => w.complete i o output
  | .begin r output l outputs => w.begin i r output l outputs

/-- Does what other threads asked for, in order. -/
def drainInbox (w : World) (i : Nat) : World :=
  let posts := (w.engine i).inbox
  let w := w.modifyEngine i fun e => { e with inbox := [] }
  posts.foldl (fun w p => w.applyPost i p) w

/-- What the handlers of a topic are told. -/
inductive Notice where
  | plain
  | tick (seconds : Value)
  | changed (value : Value)
  | triggered (values : Table String Value)
  deriving Repr

/-- The data outputs that a notice gives to the path it starts. -/
def Notice.outputs : Notice → Except Fault (List (String × Value))
  | plain => .ok []
  | tick s => s.toFloat.map fun x => [("delta_seconds", x)]
  | changed v => .ok [("value", v)]
  | triggered t => .ok t.entries

/-- One handler is told. A handler that fails is passed over. -/
def handle (w : World) (n : Notice) : Handler → World
  | .node i r => match n.outputs with
    | .ok outputs => w.begin i r "exec" none outputs
    | .error _ => w
  | .watchVariable name => match n with
    | .changed v => w.record (.changed name v)
    | _ => w
  | .watchEvent name => match n with
    | .triggered t => w.record (.triggered name t.entries)
    | _ => w

/-- Tells the handlers that are subscribed when the emission begins, in order. -/
def emit (w : World) (t : Topic) (n : Notice) : World :=
  (w.handlers t).foldl (fun w h => w.handle n h) w

/-- Assigns a variable and tells of the change, if there is one. -/
def assign (w : World) (g : Nat) (x : Variable) (v : Value) : Except Failure Unit × World :=
  match (w.graph g).assign x v with
  | .error e => (.error e, w)
  | .ok (changed, told) =>
    let w := w.modifyGraph g fun _ => changed
    (.ok (), match told with
      | some new => w.emit (.variableChange g x.serial) (.changed new)
      | none => w)

def trigger (w : World) (g : Nat) (e : CustomEvent) (given : List (String × Value)) : World :=
  w.emit (.eventTrigger g e.serial) (.triggered (e.payload given))

/-- Sets a value of the host's state and tells of the change, if there is one. -/
def putState (w : World) (path v : Value) : Except Failure Unit × World :=
  match path.hashed with
  | .error e => (.error (.fault e), w)
  | .ok _ =>
    let changed := w.store.changes path v
    let w := { w with store := w.store.put path v }
    if !changed then (.ok (), w)
    else match Store.announce path v with
      | .error e => (.error (.fault e), w)
      | .ok _ => (.ok (), w.emit (.stateChange path) .plain)

end FlowGraph.World
