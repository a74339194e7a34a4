import FlowGraph.Catalogue.Core
import FlowGraph.Engine.Resolve

/-!
The behaviours of nodes that take part in flow: what an event node subscribes to, what a flow node
does before it goes on, what an asynchronous node starts, and what runs when a path is over.
-/
namespace FlowGraph

/-- What an event node does when an engine begins to use it. -/
def EventBehaviour.run (c : Context) : EventBehaviour → Play Unit
  | .start => do
    let _ ← c.service "lifecycle"
    c.subscribe .start
  | .update => do
    let _ ← c.service "lifecycle"
    c.subscribe .tick
  | .ending => do
    let _ ← c.service "lifecycle"
    c.subscribe .ending
  | .customEvent => do
    let e ← c.eventNamed (← c.setting eventKey)
    c.subscribe (.eventTrigger c.node.graph e.serial)
  | .variableChanged => do
    let x ← c.variableNamed (← c.setting variableKey)
    c.subscribe (.variableChange c.node.graph x.serial)
  | .stateChanged => do
    let _ ← c.service "state"
    let path ← c.setting "path"
    Play.ofFault path.hashed
    c.subscribe (.stateChange path)
  | .script actions => Play.script c actions

namespace Context

/-- A field of the node's state. -/
def memory (c : Context) (key : String) : Play Value := do
  match (← c.self).state with
  | .dict fields => match fields.lookup key with
    | some v => return v
    | none => throw (.fault (.missing key))
  | v => throw (.fault (.notSubscriptable v.typeName))

def remember (c : Context) (key : String) (v : Value) : Play Unit := do
  match (← c.self).state with
  | .dict fields => c.setState (.dict (Table.set ⟨fields⟩ key v).entries)
  | v => throw (.fault (.notSubscriptable v.typeName))

/-- Commits to the first of the outputs, and to the others one by one when the path before is over. -/
def fireInOrder (c : Context) : List String → Play Unit
  | [] => throw (.fault .indexRange)
  | [name] => c.commit name
  | name :: rest => c.commit name (some (.nextOutput c rest))

/-- One round of a loop, or its end. -/
def round (c : Context) (index last : Value) : Play Unit := do
  if ← Play.ofFault (Value.order .gt index last) then c.commit "completed"
  else
    c.write "index" index
    c.commit "loop_body" (some (.nextRound c index last))

end Context

/-- Whether a gate with the given state is open after a trigger at the input. -/
def gateAfter (isOpen : Bool) : String → Bool
  | "open" => true
  | "close" => false
  | "toggle" => !isOpen
  | _ => isOpen

/-- What a flow node does when a fiber reaches it. -/
def FlowBehaviour.run (c : Context) : FlowBehaviour → Play Unit
  | .branch => do
    let condition ← c.read "condition"
    c.commit (if condition.truth then "true" else "false")
  | .sequence => do
    c.fireInOrder ((← c.self).flowOutputs.map (·.name))
  | .forLoop => do
    let first ← c.read "first_index"
    let last ← c.read "last_index"
    c.round first last
  | .doOnce => do
    if (← c.inputName) = "reset" then
      c.remember "closed" (.bool false)
      c.stop
    else
      let closed ← match ← c.memory "closed" with
        | .none => do pure (← c.setting "start_closed").truth
        | v => pure v.truth
      c.remember "closed" (.bool true)
      if closed then c.stop else c.commit "completed"
  | .flipFlop => do
    let isA := !(← c.memory "is_a").truth
    c.remember "is_a" (.bool isA)
    c.write "is_A" (.bool isA)
    c.commit (if isA then "A" else "B")
  | .gate => do
    let isOpen ← match ← c.memory "open" with
      | .none => do pure !(← c.setting "start_closed").truth
      | v => pure v.truth
    let input ← c.inputName
    let isOpen := gateAfter isOpen input
    c.remember "open" (.bool isOpen)
    if input = "enter" && isOpen then c.commit "exit" else c.stop
  | .counter => do
    if (← c.inputName) = "reset" then
      c.remember "count" (.int 0)
      c.write "count" (.int 0)
      c.stop
    else
      let n ← Play.ofFault ((← c.memory "count").add (.int 1))
      c.remember "count" n
      c.write "count" n
      c.commit "exec_out"
  | .setVariable => do
    let name ← c.setting variableKey
    let x ← c.variableNamed name
    let v ← c.read "value"
    Play.change (·.assign c.node.graph x v)
    c.write "value" (← Play.ofExcept (← c.variableNamed name).get)
    c.commit "exec_out"
  | .callEvent => do
    let e ← c.eventNamed (← c.setting eventKey)
    let values ← e.parameters.mapM fun p => do return (p.name, ← c.read p.name)
    modify (·.trigger c.node.graph e values)
    c.commit "then"
  | .log => do
    let severity ← c.read "severity"
    if !Catalogue.severities.any fun s => severity.same (.str s) then
      throw (.fault (.severity (← Play.ofFault severity.display)))
    let _ ← c.service "logger"
    let text ← c.read "text"
    modify (·.record (.logged severity text))
    c.commit "exec_out"
  | .setState => do
    let _ ← c.service "state"
    let path ← c.setting "path"
    let v ← c.read "value"
    Play.change (·.putState path v)
    c.commit "exec_out"
  | .script actions => Play.script c actions

/-- What an asynchronous node starts. -/
def AsyncBehaviour.run (c : Context) : AsyncBehaviour → Play Unit
  | .delay => do
    let duration ← Play.ofFault (Scheduler.atLeastZero (← c.read "duration"))
    let _ ← c.service "scheduler"
    match c.role with
    | .async i o => do
      let w ← get
      if w.clock = .eventLoop && !w.isLooping then throw (.fault .noEventLoop)
      let (s, timer) ← Play.ofFault (w.readClock.callLater duration (i, o))
      modify fun w => { w with scheduler := s }
      c.onDispose (.cancelTimer timer)
    | _ => c.lacks "finish"
  | .script actions => Play.script c actions

/-- What runs when the path behind a commit is over. -/
def Listener.run : Listener → Play Unit
  | .nextOutput c names => c.fireInOrder names
  | .nextRound c index last => do
    c.round (← Play.ofFault (index.add (.int 1))) last
  | .script c actions => Play.script c actions
  | .host label refusal => do
    modify (·.record (.completed label))
    match refusal with
    | some text => throw (.fault (.scripted .value text))
    | none => return ()

end FlowGraph
