import FlowGraph.Document.Check
import FlowGraph.Graph.Declare
import FlowGraph.Graph.Edit

/-!
Building a graph from a document: declarations first, because sockets may depend on them, then nodes
with their literals, then links in order.
-/
namespace FlowGraph

namespace Document

/-- The value that a document's form stands for; nothing stands for the type's own value. -/
def literal (t : ValueType) (raw : Value) (place : String) : Except Failure Value :=
  if raw.isNone then .ok t.create
  else match t.decode raw with
    | .ok v => .ok v
    | .error f =>
      if f.family = .type ∨ f.family = .value then
        match raw.literal with
        | .ok shown => .error (.integrity (.unreadableValue t.name place shown))
        | .error e => .error (.fault e)
      else .error (.fault f)

def literalOf (r : Registry) (typeName : String) (raw : Value) (place : String) : Except Failure Value :=
  match r.valueType typeName with
  | .error e => .error e
  | .ok t => literal t raw place

def loadVariable (g : Graph) (v : Variable) : Except Failure Graph := do
  let initial ← literalOf g.registry v.valueType v.initial ("variable '" ++ v.name ++ "'")
  g.declareVariable v.name v.valueType initial

def loadParameter (r : Registry) (event : String) (p : Parameter) : Except Failure SocketSpec := do
  let default ← literalOf r p.valueType p.default ("parameter '" ++ event ++ "." ++ p.name ++ "'")
  return { name := p.name, valueType := p.valueType, default := default }

def loadEvent (g : Graph) (e : Event) : Except Failure Graph := do
  let specs ← e.parameters.mapM (loadParameter g.registry e.name)
  match g.declareEvent e.name specs with
  | .ok g => return g
  | .error err => throw (.integrity err)

/-- Sets the literal of one input of the node at a place. -/
def loadInput (serial : Nat) (g : Graph) (input : String × Value) : Except Failure Graph := do
  match g.nodeAt? serial with
  | none => return g
  | some n =>
    match Node.place? input.1 n.inputs, n.input? input.1 with
    | some i, some s =>
      if s.isFlow then throw (.integrity (.unknownInput input.1 n.label))
      let v ← literalOf g.registry s.valueType input.2 ("input " ++ s.labelOn n.id)
      let (g, v) := g.stamp v
      return g.modifyNode serial (·.setInput i v)
    | _, _ => throw (.integrity (.unknownInput input.1 n.label))

def loadNode (g : Graph) (n : Node) : Except Failure Graph := do
  let position : Value := .list [.float n.position.1, .float n.position.2]
  let (g, serial) ← g.addNode n.typeName (some n.id) n.configuration position
  n.inputs.foldlM (loadInput serial) g

def loadLink (g : Graph) (l : Link) : Except Failure Graph :=
  match g.connect l (some false) with
  | .ok (g, _) => .ok g
  | .error e => .error e

/-- The graph of a document, begun with an empty one that has a registry and a policy. -/
def toGraph (d : Document) (start : Graph) : Except Failure Graph := do
  let g := { start with name := d.name }
  let g ← d.vars.foldlM loadVariable g
  let g ← d.events.foldlM loadEvent g
  let g ← d.nodes.foldlM loadNode g
  d.links.foldlM loadLink g

end Document

/-- The document that a value describes, or the list of its problems. -/
def Document.ofValue (v : Value) : Except Failure Document :=
  match Document.check v with
  | .ok d => .ok d
  | .error ps => .error (.integrity (.malformed ps))

/-- Reads a graph from a value in document form, begun with an empty one. -/
def Graph.ofValue (v : Value) (start : Graph) : Except Failure Graph := do
  (← Document.ofValue v).toGraph start

end FlowGraph
