import FlowGraph.Failure
import FlowGraph.Signal

/-!
What the host observes, and the handlers that hear of it. They may remember what they hear, connect and
disconnect one another, emit again and fail; graphs and engines are out of their reach.
-/
namespace FlowGraph

/-- What the host observes. -/
inductive Event where
  | started (engine node : String)
  | ended (engine node : String)
  | logged (severity text : Value)
  /-- A node failed; the host hears of it if it was listening. -/
  | failed (engine : String) (isHeard : Bool) (failure : Failure)
  | unresolved (engine node socket : String)
  | limited (steps queued : Nat)
  | changed (variableName : String) (value : Value)
  | triggered (eventName : String) (values : List (String × Value))
  | completed (label : String)
  | trace (node : String) (text : Value)
  | read (node input : String) (value : Value)
  | input (node : String) (name : String)
  | state (node : String) (value : Value)
  | config (node : String) (value : Value)
  | readVariable (node : String) (value : Value)
  | service (node name : String)

/-- The text of a diagnostic for an input without value and link. -/
def unresolvedText (node socket : String) : String :=
  "Input '" ++ socket ++ "' on node " ++ node ++ " has no value and no link"

/-- The signals of engines, variables and custom events that reach the host. -/
inductive Channel where
  | started (engine : String)
  | ended (engine : String)
  | failed (engine : String)
  | unresolved (engine : String)
  | changed (variableName : String)
  | triggered (eventName : String)
  deriving DecidableEq, Repr

/-- The signal that is emitted with an event, and what its handlers are given. -/
def Event.call? : Event → Option (Channel × List Value)
  | .started engine node => some (.started engine, [.str node])
  | .ended engine node => some (.ended engine, [.str node])
  | .failed engine true failure => some (.failed engine, [.str failure.message])
  | .unresolved engine node socket => some (.unresolved engine, [.str (unresolvedText node socket)])
  | .changed name v => some (.changed name, [v])
  | .triggered name values => some (.triggered name, [.dict values])
  | _ => none

/-- The handlers that are connected to signals, by their names, what each of them does, and what they share. -/
structure Audience where
  signals : Table Channel (Signal String) := {}
  handlers : String → List Value → Signal.Routine String Value := fun _ _ => .done
  memory : Value := .none
  deriving Inhabited

/-- The handlers of the signal are called one after the other, and one that fails is passed over. -/
def Audience.hear (a : Audience) (e : Event) : Audience :=
  match e.call? with
  | none => a
  | some (c, arguments) =>
    match a.signals.get? c with
    | none => a
    | some s =>
      let (scene, _) := Signal.emission a.handlers Signal.depthLimit arguments ⟨s, a.memory⟩
      { a with signals := a.signals.set c scene.signal, memory := scene.shared }

end FlowGraph
