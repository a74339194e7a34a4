import FlowGraph.Document.Basic
import FlowGraph.Graph.Basic

/-!
Writing a graph as a document. Linked inputs and flow sockets have no literal, and links come in the
order of their creation.
-/
namespace FlowGraph

namespace Graph

/-- The document form of a value of the type of that name. -/
def encodeAs (g : Graph) (typeName : String) (v : Value) : Except Failure Value :=
  match g.registry.valueType typeName with
  | .error e => .error e
  | .ok t => Except.lifted (t.encode v)

def storeInput (g : Graph) (s : Socket) : Except Failure (String × Value) := do
  return (s.name, ← g.encodeAs s.valueType s.value)

def storeNode (g : Graph) (n : Node) : Except Failure Document.Node := do
  let inputs ← (n.dataInputs.filter (!·.isConnected)).mapM g.storeInput
  return { id := n.id, typeName := n.typeName, position := n.position
           configuration := n.configuration.entries, inputs := (Table.ofList inputs).entries }

def storeVariable (x : Variable) : Except Failure Document.Variable := do
  return { name := x.name, valueType := x.valueType.name
           initial := ← Except.lifted (x.valueType.encode x.initial) }

def storeParameter (g : Graph) (s : SocketSpec) : Except Failure Document.Parameter := do
  return { name := s.name, valueType := s.valueType, default := ← g.encodeAs s.valueType s.default }

def storeEvent (g : Graph) (e : CustomEvent) : Except Failure Document.Event := do
  return { name := e.name, parameters := ← e.parameters.mapM g.storeParameter }

/-- The document of a graph. -/
def toDocument (g : Graph) : Except Failure Document := do
  let nodes ← g.nodes.mapM g.storeNode
  let vars ← g.vars.values.mapM storeVariable
  let events ← g.events.values.mapM g.storeEvent
  return { name := g.name, vars := vars, events := events, nodes := nodes, links := g.links }

end Graph

namespace Document

def Parameter.toValue (p : Parameter) : Value :=
  .dict [("name", .str p.name), ("value_type", .str p.valueType), ("default_value", p.default)]

def Event.toValue (e : Event) : Value :=
  .dict [("name", .str e.name), ("parameters", .list (e.parameters.map Parameter.toValue))]

def Variable.toValue (v : Variable) : Value :=
  .dict [("name", .str v.name), ("value_type", .str v.valueType), ("initial_value", v.initial)]

def Node.toValue (n : Node) : Value :=
  .dict [("id", .str n.id), ("type", .str n.typeName),
    ("position", .list [.float n.position.1, .float n.position.2]),
    ("configuration", .dict n.configuration),
    ("inputs", .dict (n.inputs.map fun i => (i.1, .dict [("value", i.2)])))]

def linkValue (l : Link) : Value :=
  .dict [("source_node_id", .str l.source), ("source_socket_name", .str l.output),
    ("target_node_id", .str l.target), ("target_socket_name", .str l.input)]

/-- The document as a value. -/
def toValue (d : Document) : Value :=
  .dict [("name", .str d.name),
    ("variables", .list (d.vars.map Variable.toValue)),
    ("custom_events", .list (d.events.map Event.toValue)),
    ("nodes", .list (d.nodes.map Node.toValue)),
    ("links", .list (d.links.map linkValue))]

end Document

end FlowGraph
