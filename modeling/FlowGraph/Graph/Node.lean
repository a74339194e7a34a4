import FlowGraph.Graph.Link

/-!
Nodes of a graph and their sockets. A socket holds its value and the wires at it: those that leave an
output, those that arrive at an input.
-/
namespace FlowGraph

structure Socket where
  name : String
  valueType : String
  value : Value := .none
  label : Option String := none
  choices : Option (List Value) := none
  wires : List Wire := []
  deriving Repr, Inhabited

namespace Socket

def isFlow (s : Socket) : Bool := s.valueType == ValueType.flowName

def isConnected (s : Socket) : Bool := !s.wires.isEmpty

/-- The label of a socket on the node of the given identifier. -/
def labelOn (s : Socket) (id : String) : String :=
  "<Socket " ++ short id ++ "." ++ s.name ++ ":" ++ s.valueType ++ ">"

end Socket

structure Node where
  id : String
  definition : Definition
  position : Double × Double := (Double.zero, Double.zero)
  configuration : Configuration := {}
  state : Value := .none
  inputs : List Socket := []
  outputs : List Socket := []
  error : Option String := none
  /-- The output at which the latest asynchronous operation of the node went on. -/
  lastOutput : Option String := none
  deriving Repr, Inhabited

namespace Node

def typeName (n : Node) : String := n.definition.typeName
def kind (n : Node) : Kind := n.definition.kind

def label (n : Node) : String := "<" ++ n.typeName ++ "(" ++ short n.id ++ ")>"

def place? (name : String) (sockets : List Socket) : Option Nat := sockets.findIdx? (·.name = name)

def input? (n : Node) (name : String) : Option Socket := n.inputs.find? (·.name = name)
def output? (n : Node) (name : String) : Option Socket := n.outputs.find? (·.name = name)

def dataInputs (n : Node) : List Socket := n.inputs.filter (!·.isFlow)
def flowInputs (n : Node) : List Socket := n.inputs.filter (·.isFlow)
def dataOutputs (n : Node) : List Socket := n.outputs.filter (!·.isFlow)
def flowOutputs (n : Node) : List Socket := n.outputs.filter (·.isFlow)

def setInput (n : Node) (i : Nat) (v : Value) : Node :=
  { n with inputs := n.inputs.modify i fun s => { s with value := v } }

def setOutput (n : Node) (i : Nat) (v : Value) : Node :=
  { n with outputs := n.outputs.modify i fun s => { s with value := v } }

def read (n : Node) (name : String) : Except Fault Value :=
  match n.input? name with
  | none => .error (.missing ("Input socket not found on " ++ n.label ++ ": " ++ name))
  | some s => if s.isFlow then .error (.readFlow name n.label) else .ok s.value

def write (n : Node) (name : String) (v : Value) : Except Fault Node :=
  match place? name n.outputs, n.output? name with
  | some i, some s => if s.isFlow then .error (.writeFlow name n.label) else .ok (n.setOutput i v)
  | _, _ => .error (.missing ("Output socket not found on " ++ n.label ++ ": " ++ name))

def isFlowOutput (n : Node) (name : String) : Bool := (n.output? name).any (·.isFlow)

end Node

end FlowGraph
