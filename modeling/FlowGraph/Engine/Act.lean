import FlowGraph.Engine.Commit

/-!
What behaviours may do through their context, and disposal, which undoes what they registered. A role
lacks some of the means; asking for one of those is a fault.
-/
namespace FlowGraph

namespace Context

/-- The fault of asking for a means that the role lacks. -/
def lacks {α : Type} (c : Context) (feature : String) : Play α := throw (.fault (.noFeature c.role.title feature))

def self (c : Context) : Play Node := return (← get).node c.node

def read (c : Context) (input : String) : Play Value := do
  Play.ofFault ((← c.self).read input)

def write (c : Context) (output : String) (v : Value) : Play Unit := do
  let v ← Play.stamp c.node.graph v
  let n ← Play.ofFault ((← c.self).write output v)
  modify (·.modifyNode c.node fun _ => n)

def setting (c : Context) (key : String) : Play Value := do
  match (← c.self).configuration.get? key with
  | some v => return v
  | none => throw (.fault (.missing key))

def setState (c : Context) (v : Value) : Play Unit :=
  modify (·.modifyNode c.node fun n => { n with state := v })

def service (c : Context) (name : String) : Play Service := do
  Play.ofFault (((← get).registryOf c.node).service name)

def variableNamed (c : Context) (name : Value) : Play Variable := do
  match ← Play.ofFault (((← get).graph c.node.graph).variableOf name) with
  | some x => return x
  | none => throw (.fault (.missing ("Variable not declared: " ++ (← Play.ofFault name.display))))

def eventNamed (c : Context) (name : Value) : Play CustomEvent := do
  match ← Play.ofFault (((← get).graph c.node.graph).eventOf name) with
  | some e => return e
  | none => throw (.fault (.missing ("Custom event not declared: " ++ (← Play.ofFault name.display))))

/-- The input by which the node was reached. -/
def inputName (c : Context) : Play String := do
  match c.role with
  | .flow _ _ input => return input
  | .async i o => return (((← get).engine i).operation o).input
  | _ => c.lacks "input_socket_name"

/-- Goes on at an output. -/
def commit (c : Context) (output : String) (l : Option Listener := none) : Play Unit := do
  match c.role with
  | .event i => modify (·.begin i c.node output l [])
  | .flow i f _ => Play.change (·.commitFiber i f c.node output l)
  | _ => c.lacks "commit"

/-- Goes on at an output with data outputs for the path. -/
def start (c : Context) (output : String) (values : List (String × Value)) : Play Unit := do
  match c.role with
  | .event i => modify (·.begin i c.node output none values)
  | .flow _ _ _ => throw (.fault .triggerOutputs)
  | _ => c.lacks "commit"

def stop (c : Context) : Play Unit := do
  match c.role with
  | .flow i f _ => Play.change (·.endFiber i f c.node)
  | _ => c.lacks "end"

def finish (c : Context) (output : Option String) (fromOutside : Bool := false) : Play Unit := do
  match c.role with
  | .async i o => modify (·.finishOperation i o output fromOutside)
  | _ => c.lacks "finish"

/-- Registers what is to be undone on disposal. -/
def onDispose (c : Context) (d : Disposer) : Play Unit := do
  match c.role with
  | .event _ => modify fun w => { w with disposers := w.disposers ++ [(c.node, d)] }
  | .async i o => modify (·.modifyEngine i (·.modifyOperation o fun op =>
      { op with disposers := op.disposers ++ [d] }))
  | _ => c.lacks "on_dispose"

/-- Subscribes the node to a topic until it is disposed of. -/
def subscribe (c : Context) (t : Topic) : Play Unit := do
  match c.role with
  | .event i =>
    let d ← modifyGet (·.subscribe t (.node i c.node))
    c.onDispose d
  | _ => c.lacks "commit"

/-- What there is to see. -/
def sight (c : Context) : Play Sight := do
  let w ← get
  let n := w.node c.node
  return {
    inputs := n.inputs.map fun s => (s.name, s.value)
    outputs := n.outputs.map fun s => (s.name, s.value)
    configuration := n.configuration
    state := n.state
    vars := (w.graph c.node.graph).vars.entries.map fun e => (e.1, e.2.value) }

def engine (c : Context) : Play Nat :=
  match c.role with
  | .event i | .flow i _ _ | .async i _ => return i
  | .function => c.lacks "engine"

end Context

namespace Action

def observe (c : Context) (e : String → Event) : Play Unit := do
  let id := (← c.self).id
  modify (·.record (e id))

mutual
/-- Carries out one action; `dispose` disposes of an engine. -/
def perform (dispose : Nat → Play Unit) (c : Context) : Action → Play Unit
  | trace text => observe c (.trace · text)
  | read name => do
    let v ← c.read name
    observe c (.read · name v)
  | copy source target => do c.write target (← c.read source)
  | write output v => c.write output v.renewed
  | input => do
    let name ← c.inputName
    observe c (.input · name)
  | state v => do
    let old := (← c.self).state
    observe c (.state · old)
    c.setState v
  | config key => do
    let v ← c.setting key
    observe c (.config · v)
  | readVariable name => do
    let v ← Play.ofExcept (← c.variableNamed (.str name)).get
    observe c (.readVariable · v)
  | service name => do
    let _ ← c.service name
    observe c (.service · name)
  | commit output => c.commit output
  | commitThen output after => c.commit output (some (.script c after))
  | start output values => c.start output (values.map fun p => (p.1, p.2.renewed))
  | stop => c.stop
  | finish output => c.finish output
  | hold => modify fun w => { w with holds := w.holds ++ [c] }
  | onDispose actions => c.onDispose (.script c actions)
  | Action.dispose => do dispose (← c.engine)
  | raise family text => throw (.fault (.scripted family text))
  | nodeError text => do throw ((← get).nodeFailure c.node (.custom text))
  | look next => do performAll dispose c (next (← c.sight))
  | attempt actions next => do performAll dispose c (next (← Play.outcome (performAll dispose c actions)))

/-- Carries out actions up to the first that fails. -/
def performAll (dispose : Nat → Play Unit) (c : Context) : List Action → Play Unit
  | [] => return ()
  | a :: rest => do
    perform dispose c a
    performAll dispose c rest
end

theorem performAll_eq_forM (dispose : Nat → Play Unit) (c : Context) (actions : List Action) :
    performAll dispose c actions = actions.forM (perform dispose c) := by
  induction actions with
  | nil => rfl
  | cons a rest ih =>
    rw [performAll, ih]
    rfl

end Action

namespace Play

def undo (dispose : Nat → Play Unit) : Disposer → Play Unit
  | .unsubscribe s => modify (·.unsubscribe s)
  | .cancelTimer t => modify fun w => { w with scheduler := w.scheduler.cancel t }
  | .script c actions => Action.performAll dispose c actions

/-- Undoes all, and gives the failures. -/
def undoAll (dispose : Nat → Play Unit) : List Disposer → Play (List Failure)
  | [] => return []
  | d :: rest => do
    match ← outcome (undo dispose d) with
    | .ok _ => undoAll dispose rest
    | .error e => return e :: (← undoAll dispose rest)

/-- Undoes what an event node registered, latest first. The first failure becomes the node's. -/
def disposeNode (dispose : Nat → Play Unit) (r : NodeRef) : Play Unit := do
  let w ← get
  let mine := (w.disposers.filter (·.1 = r)).map (·.2)
  set { w with disposers := w.disposers.filter (·.1 ≠ r) }
  match ← undoAll dispose mine.reverse with
  | [] => return ()
  | e :: _ => throw ((← get).nodeFailure r (.disposal e))

/-- Gives an operation up and undoes what it registered, latest first, whatever fails. -/
def abandon (dispose : Nat → Play Unit) (i o : Nat) : Play Unit := do
  let op := ((← get).engine i).operation o
  if op.isFinished || op.isAbandoned then return ()
  modify (·.modifyEngine i (·.modifyOperation o fun op => { op with isAbandoned := true, disposers := [] }))
  let _ ← undoAll dispose op.disposers.reverse

/-- Disposes of an engine's event nodes; their failures are reported. -/
def disposeNodes (dispose : Nat → Play Unit) (i : Nat) (rs : List NodeRef) : Play Unit :=
  rs.forM fun r => do
    match ← outcome (disposeNode dispose r) with
    | .ok _ => return ()
    | .error e => modify (·.report i e)

/-- Stops an engine: its nodes unsubscribe, its operations are given up, its queues are emptied. What
is undone on the way may dispose of further engines, `fuel` deep. -/
def disposeWithin : Nat → Nat → Play Unit
  | 0, _ => return ()
  | fuel + 1, i => do
    let e := (← get).engine i
    if e.isDisposed then return ()
    modify (·.modifyEngine i fun e => { e with isDisposed := true })
    disposeNodes (disposeWithin fuel) i e.eventNodes
    let pending := ((← get).engine i).pending
    modify (·.modifyEngine i fun e => { e with pending := [] })
    pending.forM (abandon (disposeWithin fuel) i)
    modify (·.modifyEngine i fun e => { e with queue := [], inbox := [] })

/-- Disposes of an engine. Each nested disposal marks one more engine, so the depth is enough. -/
def dispose (i : Nat) : Play Unit := do
  disposeWithin ((← get).engines.size + 1) i

def script (c : Context) (actions : List Action) : Play Unit := Action.performAll dispose c actions

end Play

end FlowGraph
