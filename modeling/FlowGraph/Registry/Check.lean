import FlowGraph.Registry.Basic

/-!
Checks of a registry: every clash, then the problems of every definition with its default
configuration, in order. All problems are listed, not only the first.
-/
namespace FlowGraph

namespace Registry

/-- A default that is none of the choices, where there are choices and a default. -/
def strays (default : Value) (choices : Option (List Value)) : Bool :=
  match choices with
  | some cs => !default.isNone && !cs.any (Value.same · default)
  | none => false

/-- The complaint about a value type and about a default, for a socket or a setting. -/
def specProblems (r : Registry) (place valueType : String) (default : Value)
    (choices : Option (List Value)) : Except Fault (List String) := do
  let unknown := if r.hasValueType valueType then []
    else [place ++ " has unknown value type '" ++ valueType ++ "'"]
  let stray ← if strays default choices then do
      pure [place ++ " default " ++ (← default.literal) ++ " not in choices"]
    else pure []
  return unknown ++ stray

/-- Problems of the sockets of one side; `seen` are the names before them. -/
def socketProblems (r : Registry) (name : String) (side : Side) (seen : List String) :
    List SocketSpec → Except Fault (List String)
  | [] => .ok []
  | s :: rest => do
    let double := if s.name ∈ seen
      then [name ++ ": duplicate " ++ side.text ++ " socket '" ++ s.name ++ "'"] else []
    let own ← r.specProblems (name ++ ": " ++ side.text ++ " '" ++ s.name ++ "'") s.valueType s.default s.choices
    return double ++ own ++ (← r.socketProblems name side (s.name :: seen) rest)

/-- A complaint that stands if the condition holds. -/
def complaint (condition : Bool) (text : String) : List String := if condition then [text] else []

/-- Whether the flow sockets and the behaviour are those of the kind. -/
def shapeProblems (d : Definition) (inputs outputs : List SocketSpec) : List String :=
  let flowIn := (inputs.filter (·.isFlow)).length
  let flowOut := (outputs.filter (·.isFlow)).length
  let missing := d.behaviour.isMissing
  let say (condition : Bool) (text : String) := complaint condition (d.typeName ++ ": " ++ text)
  match d.kind with
  | .event =>
    say (flowIn ≠ 0) "event nodes cannot have input flow sockets" ++
    say (flowOut = 0) "event nodes need at least one output flow socket" ++
    say missing "event definition has no init behaviour"
  | .flow =>
    say (flowIn = 0) "flow nodes need at least one input flow socket" ++
    say missing "flow definition has no triggered behaviour"
  | .function =>
    say (flowIn ≠ 0 || flowOut ≠ 0) "function nodes cannot have flow sockets" ++
    say missing "function definition has no exec behaviour"
  | .async =>
    say (flowIn ≠ 1) "async nodes need exactly one input flow socket" ++
    say (flowOut = 0) "async nodes need at least one output flow socket" ++
    say missing "async definition has no triggered behaviour"

def configProblems (r : Registry) (name : String) (specs : List ConfigSpec) : Except Fault (List String) := do
  let all ← specs.mapM fun s =>
    r.specProblems (name ++ ": configuration '" ++ s.name ++ "'") s.valueType s.default s.choices
  return all.flatten

/-- The sockets of a definition under its default configuration. -/
def defaultSockets (d : Definition) (scope : Scope) : Except Fault (List SocketSpec × List SocketSpec) := do
  let inputs ← d.inputs.expand d.defaultConfiguration scope
  let outputs ← d.outputs.expand d.defaultConfiguration scope
  return (inputs, outputs)

def definitionProblems (r : Registry) (d : Definition) : Except Fault (List String) :=
  match defaultSockets d Scope.none with
  | .error e => .ok [d.typeName ++ ": socket factory failed with default configuration: " ++ e.message]
  | .ok (inputs, outputs) => do
    let settings ← r.configProblems d.typeName d.configuration
    let ins ← r.socketProblems d.typeName .input [] inputs
    let outs ← r.socketProblems d.typeName .output [] outputs
    return settings ++ ins ++ outs ++ shapeProblems d inputs outputs

/-- All problems of a registry: the clashes, then those of the definitions in order. -/
def problems (r : Registry) : Except Fault (List String) := do
  let own ← r.nodes.values.mapM r.definitionProblems
  return r.clashes.map Clash.text ++ own.flatten

def checked (r : Registry) : Except Failure Registry := do
  match ← Except.lifted r.problems with
  | [] => return r
  | ps => throw (.definition ps)

/-- The registry that the profiles make one after the other, with what the host offers; checked on
request. -/
def assemble (profiles : List Profile) (services : List Offer) (check : Bool) : Except Failure Registry := do
  let folded ← profiles.foldlM (fun r p => p r) ({} : Registry)
  let r := folded.extend { services := services }
  if check then r.checked else return r

/-- The same for a host that offers services under their own names. -/
def create (profiles : List Profile) (services : List Service) (check : Bool) : Except Failure Registry :=
  assemble profiles (services.map Service.offer) check

end Registry

end FlowGraph
