import FlowGraph.Catalogue.Shapes

/-!
The state catalogue: nodes that read, write and watch values of the host by path.
-/
namespace FlowGraph.Catalogue

def stateMeta (category : String) : String → String → Metadata := describe category "#20B2AA"

def pathSetting : ConfigSpec := { name := "path", default := .str "" }

/-- The types of host state, with the title that they have in names. -/
def stateTypes : List (String × String) :=
  [("boolean", "Boolean"), ("integer", "Integer"), ("float", "Float"), ("string", "String")]

def stateNodes (t title : String) : List Definition := [
  { typeName := "GetState" ++ title, behaviour := .function (some (.getState t))
    outputs := .fixed [dataSpec "value" t], configuration := [pathSetting]
    metadata := stateMeta "State" ("Get State (" ++ title ++ ")") ("Read a " ++ t ++ " from host state") },
  { typeName := "SetState" ++ title, behaviour := .flow (some .setState)
    inputs := .fixed [flowSpec "exec", dataSpec "value" t], outputs := .fixed [flowSpec "exec_out"]
    configuration := [pathSetting]
    metadata := stateMeta "State" ("Set State (" ++ title ++ ")") ("Write a " ++ t ++ " to host state") }]

def stateChangedNode : Definition :=
  { typeName := "StateChanged", behaviour := .event (some .stateChanged)
    outputs := .fixed [flowSpec "exec"], configuration := [pathSetting]
    metadata := stateMeta "Events" "On State Changed" "Runs whenever the value at path changes" }

/-- The state profile builds on the four base types. -/
def state : Profile := fun r => do
  r.requireValues "state" (stateTypes.map (·.1))
  return r.extend
    { nodes := (stateTypes.flatMap fun t => stateNodes t.1 t.2) ++ [stateChangedNode]
      usualServices := [.state] }

end FlowGraph.Catalogue
