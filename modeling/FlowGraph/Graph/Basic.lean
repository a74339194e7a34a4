import FlowGraph.Graph.Node
import FlowGraph.Registry.Basic

/-!
Graphs: nodes, the wires between them, variables and custom events. Nodes live in an arena that never
shrinks; a table of identifiers says which of them belong to the graph. So a node that was taken out
of the graph can still be reached by what refers to it.
-/
namespace FlowGraph

structure Variable where
  name : String
  /-- Tells apart the variables that had one name at different times. -/
  serial : Nat := 0
  valueType : ValueType
  initial : Value
  value : Value
  deriving Repr

def Variable.label (v : Variable) : Except Fault String := do
  return "<Variable " ++ v.name ++ ":" ++ v.valueType.name ++ "=" ++ (← v.value.literal) ++ ">"

structure CustomEvent where
  name : String
  serial : Nat := 0
  parameters : List SocketSpec := []
  deriving Repr

def CustomEvent.label (e : CustomEvent) : String :=
  let shown := e.parameters.map fun p => p.name ++ ":" ++ p.valueType
  "<CustomEvent " ++ e.name ++ "(" ++ String.intercalate ", " shown ++ ")>"

/-- What a trigger carries: the given values of the parameters, defaults for the rest. -/
def CustomEvent.payload (e : CustomEvent) (given : List (String × Value)) : Table String Value :=
  let values := Table.ofList given
  Table.ofList (e.parameters.map fun p => (p.name, (values.get? p.name).getD p.default))

/-- How many NaNs a graph can label before it comes to the labels of the next one. -/
def labelRange : Nat := twoPow 40

structure Graph where
  name : String := "Untitled Graph"
  registry : Registry := {}
  /-- Whether connecting to a linked data input replaces the link or is refused. -/
  replaceLinks : Bool := true
  arena : Array Node := #[]
  ids : Table String Nat := {}
  wires : List Wire := []
  /-- Where the wires lead, by serial number; some lead nowhere. Looking a wire up again is seen by all that
  hold it. -/
  ends : Array (Option Ends) := #[]
  vars : Table String Variable := {}
  events : Table String CustomEvent := {}
  /-- How many variables and events were declared so far. -/
  issued : Nat := 0
  /-- The label of the next NaN that is kept. -/
  labels : Nat := labelRange
  deriving Repr, Inhabited

namespace Graph

/-- A value as the graph keeps it. -/
def stamp (g : Graph) (v : Value) : Graph × Value :=
  if v.hasFresh then
    let (v, n) := v.stamp.run g.labels
    ({ g with labels := n }, v)
  else (g, v)

def nodeAt? (g : Graph) (serial : Nat) : Option Node := g.arena[serial]?

def serial? (g : Graph) (id : String) : Option Nat := g.ids.get? id

def node? (g : Graph) (id : String) : Option Node := (g.serial? id).bind g.nodeAt?

def nodes (g : Graph) : List Node := g.ids.values.filterMap g.nodeAt?

def links (g : Graph) : List Link := g.wires.map (·.link)

def modifyNode (g : Graph) (serial : Nat) (f : Node → Node) : Graph :=
  { g with arena := g.arena.modify serial f }

def eventNodes (g : Graph) : List Node := g.nodes.filter (·.kind = .event)

/-- The label of the graph where it has the given number of nodes. -/
def labelWith (g : Graph) (size : Nat) : String :=
  "<NodeGraph '" ++ g.name ++ "' nodes=" ++ toString size ++ " links=" ++ toString g.wires.length ++ ">"

def label (g : Graph) : String := g.labelWith g.ids.size

/-- The declarations that sockets may depend on. -/
def scope (g : Graph) : Scope where
  variableType? name := (g.vars.get? name).map (·.valueType.name)
  eventParameters? name := (g.events.get? name).map (·.parameters)

def variableOf (g : Graph) (name : Value) : Except Fault (Option Variable) := do
  return (← name.key?).bind g.vars.get?

def eventOf (g : Graph) (name : Value) : Except Fault (Option CustomEvent) := do
  return (← name.key?).bind g.events.get?

def endsOf (g : Graph) (w : Wire) : Option Ends := g.ends[w.serial]?.join

/-- A new wire of the link. -/
def lay (g : Graph) (l : Link) (ends : Option Ends) : Graph × Wire :=
  ({ g with ends := g.ends.push ends }, ⟨l, g.ends.size⟩)

/-- Looks the ends of a link up among the nodes of the graph. -/
def resolve (g : Graph) (l : Link) : Except IntegrityError Ends := do
  let some s := g.serial? l.source | throw (.linkSourceMissing l.source)
  let some source := g.nodeAt? s | throw (.linkSourceMissing l.source)
  let some t := g.serial? l.target | throw (.linkTargetMissing l.target)
  let some target := g.nodeAt? t | throw (.linkTargetMissing l.target)
  let some o := Node.place? l.output source.outputs | throw (.linkOutputMissing l.output source.label)
  let some i := Node.place? l.input target.inputs | throw (.linkInputMissing l.input target.label)
  return ⟨⟨s, o⟩, ⟨t, i⟩⟩

def outputAt? (g : Graph) (e : End) : Option Socket := (g.nodeAt? e.node).bind (·.outputs[e.socket]?)
def inputAt? (g : Graph) (e : End) : Option Socket := (g.nodeAt? e.node).bind (·.inputs[e.socket]?)

def modifyOutputWires (g : Graph) (e : End) (f : List Wire → List Wire) : Graph :=
  g.modifyNode e.node fun n =>
    { n with outputs := n.outputs.modify e.socket fun s => { s with wires := f s.wires } }

def modifyInputWires (g : Graph) (e : End) (f : List Wire → List Wire) : Graph :=
  g.modifyNode e.node fun n =>
    { n with inputs := n.inputs.modify e.socket fun s => { s with wires := f s.wires } }

end Graph

end FlowGraph
