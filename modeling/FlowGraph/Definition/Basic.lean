import FlowGraph.Checked
import FlowGraph.Definition.Operator
import FlowGraph.Table
import FlowGraph.ValueType

/-!
Node definitions: the templates that nodes are made from. A definition names its sockets and its
configuration and carries the one behaviour that its kind of node has.
-/
namespace FlowGraph

structure Metadata where
  category : String := "General"
  displayName : String := ""
  description : String := ""
  color : String := "#4A90D9"
  icon : Option String := none
  deriving DecidableEq, Repr, Inhabited

/-- The metadata that some values give, or the problems with them. -/
def Metadata.check (m : List (String × Value)) : Checked Metadata :=
  let usual : Metadata := {}
  let text (name usualText : String) := Checked.optional m name usualText Checked.string
  Checked.seq (Checked.seq (Checked.seq (Checked.seq ((text "category" usual.category).map Metadata.mk)
    (text "display_name" usual.displayName)) (text "description" usual.description))
    (text "color" usual.color)) (Checked.optional m "icon" none (Checked.nullable Checked.string))

def Metadata.ofFields (m : List (String × Value)) : Except Fault Metadata :=
  match Metadata.check m with
  | .ok d => .ok d
  | .error ps => .error (.invalid ps)

/-- The two sides of a node. -/
inductive Side where
  | input | output
  deriving DecidableEq, Repr

def Side.text : Side → String
  | input => "input"
  | output => "output"

/-- One socket of a definition. A default of `none` stands for the type's own. -/
structure SocketSpec where
  name : String
  valueType : String := ValueType.flowName
  default : Value := .none
  label : Option String := none
  choices : Option (List Value) := none
  deriving DecidableEq, Repr, Inhabited

def SocketSpec.isFlow (s : SocketSpec) : Bool := s.valueType == ValueType.flowName

/-- One setting that is fixed when a node is made. -/
structure ConfigSpec where
  name : String
  valueType : String := "string"
  default : Value := .none
  choices : Option (List Value) := none
  deriving DecidableEq, Repr, Inhabited

abbrev Configuration := Table String Value

/-- What sockets may depend on besides the configuration: the declared variables and events. -/
structure Scope where
  variableType? : String → Option String
  eventParameters? : String → Option (List SocketSpec)

def Scope.none : Scope := ⟨fun _ => .none, fun _ => .none⟩

/-- Where the sockets of a definition come from. -/
inductive SocketSource where
  | fixed (specs : List SocketSpec)
  /-- The lead sockets, then the parameters of the event that `event_name` names. -/
  | eventParameters (lead : List SocketSpec)
  /-- The lead sockets, then a socket of the type of the variable that `variable_name` names. -/
  | variableValue (lead : List SocketSpec)
  /-- Flow sockets `then_0`, `then_1`, …, at least one, as many as `num_outputs` says. -/
  | numbered
  /-- Flow sockets `stem0`, `stem1`, …, as many as a setting says. -/
  | counted (stem key : String)
  /-- No sockets at all: making them fails. -/
  | refused (text : String)
  deriving DecidableEq, Repr

def flowSpec (name : String) : SocketSpec := { name := name }

def variableKey : String := "variable_name"
def eventKey : String := "event_name"

namespace SocketSource

/-- The setting under a name; a setting that is not there counts as `none`. -/
def setting (c : Configuration) (key : String) : Value := (c.get? key).getD .none

/-- The number that `num_outputs` asks for; nothing, zero and negative numbers ask for one. -/
def outputCount (c : Configuration) : Except Fault Nat := do
  let v := setting c "num_outputs"
  let n ← (if v.truth then v else .int 1).toInteger
  return max 1 (n.integer?.getD 1).toNat

/-- The number of sockets that a setting asks for. -/
def countOf (c : Configuration) (key : String) : Except Fault Nat :=
  match c.get? key with
  | none => .error (.missing key)
  | some v => match v.integer? with
    | some n => .ok n.toNat
    | none => .error (.indexFrom v.typeName)

/-- The sockets for a concrete configuration. -/
def expand (s : SocketSource) (c : Configuration) (scope : Scope) : Except Fault (List SocketSpec) :=
  match s with
  | fixed specs => .ok specs
  | eventParameters lead => do
    let name ← (setting c eventKey).key?
    return lead ++ (name.bind scope.eventParameters?).getD []
  | variableValue lead => do
    let name ← (setting c variableKey).key?
    match name.bind scope.variableType? with
    | some t => return lead ++ [{ name := "value", valueType := t }]
    | none => return lead
  | numbered => do
    let n ← outputCount c
    return (List.range n).map fun i => flowSpec ("then_" ++ toString i)
  | counted stem key => do
    let n ← countOf c key
    return (List.range n).map fun i => flowSpec (stem ++ toString i)
  | refused text => .error (.scripted .value text)

end SocketSource

/-- What a behaviour may look at: what its sockets hold, its settings, its state, and the variables of its graph. -/
structure Sight where
  inputs : List (String × Value)
  outputs : List (String × Value)
  configuration : Configuration
  state : Value
  vars : List (String × Value)

/-- One action of a scripted behaviour. What is done next may depend on what there is to see and on how other actions ended,
so that a script may be any behaviour that keeps to its context. -/
inductive Action where
  | trace (text : Value)
  | read (input : String)
  | copy (input output : String)
  | write (output : String) (value : Value)
  | input
  | state (value : Value)
  | config (key : String)
  | readVariable (name : String)
  | service (name : String)
  | commit (output : String)
  | commitThen (output : String) (after : List Action)
  /-- A trigger that carries data outputs. -/
  | start (output : String) (values : List (String × Value))
  /-- Ends the path without continuing it. -/
  | stop
  | finish (output : Option String)
  | hold
  | onDispose (actions : List Action)
  /-- Disposes of the engine that runs the node. -/
  | dispose
  | raise (family : Family) (text : String)
  | nodeError (text : String)
  /-- Goes on in view of what is there. -/
  | look (next : Sight → List Action)
  /-- Carries actions out, and goes on in view of how that ended. -/
  | attempt (actions : List Action) (next : Except Failure Unit → List Action)
  deriving Inhabited

instance : Repr Action := ⟨fun _ _ => "action"⟩

/-- The action neither looks nor attempts anything. -/
def Action.isPlain : Action → Bool
  | look _ | attempt _ _ => false
  | _ => true

inductive EventBehaviour where
  | start | update | ending | customEvent | variableChanged | stateChanged
  | script (actions : List Action)
  deriving Repr

inductive FlowBehaviour where
  | branch | sequence | forLoop | doOnce | flipFlop | gate | counter
  | setVariable | callEvent | log | setState
  | script (actions : List Action)
  deriving Repr

inductive FunctionBehaviour where
  | unary (input output : String) (op : Unary)
  | binary (first second output : String) (op : Binary)
  | ternary (first second third output : String) (op : Ternary)
  | constant (output : String) (value : Value)
  | makeVector (d : Dimension)
  | breakVector (d : Dimension)
  | getVariable
  | now
  | getState (valueType : String)
  | script (actions : List Action)
  deriving Repr

inductive AsyncBehaviour where
  | delay
  | script (actions : List Action)
  deriving Repr

/-- The behaviour of a node; a definition may lack it. -/
inductive Behaviour where
  | event (b : Option EventBehaviour)
  | flow (b : Option FlowBehaviour)
  | function (b : Option FunctionBehaviour)
  | async (b : Option AsyncBehaviour)
  deriving Repr, Inhabited

def Behaviour.kind : Behaviour → Kind
  | event _ => .event
  | flow _ => .flow
  | function _ => .function
  | async _ => .async

def Behaviour.isMissing : Behaviour → Bool
  | event b => b.isNone
  | flow b => b.isNone
  | function b => b.isNone
  | async b => b.isNone

/-- A behaviour of the given kind that runs actions, or none at all. -/
def Behaviour.scripted (k : Kind) (actions : Option (List Action)) : Behaviour :=
  match k with
  | .event => .event (actions.map .script)
  | .flow => .flow (actions.map .script)
  | .function => .function (actions.map .script)
  | .async => .async (actions.map .script)

structure Definition where
  typeName : String
  behaviour : Behaviour
  metadata : Metadata := {}
  inputs : SocketSource := .fixed []
  outputs : SocketSource := .fixed []
  configuration : List ConfigSpec := []
  initialState : Value := .none
  deriving Repr, Inhabited

namespace Definition

def kind (d : Definition) : Kind := d.behaviour.kind
def category (d : Definition) : String := d.metadata.category

/-- The name to show: the display name, or the type name where there is none. -/
def title (d : Definition) : String :=
  if d.metadata.displayName.isEmpty then d.typeName else d.metadata.displayName

def label (d : Definition) : String := "<NodeDefinition " ++ d.typeName ++ " (" ++ d.kind.text ++ ")>"

def defaultConfiguration (d : Definition) : Configuration :=
  Table.ofList (d.configuration.map fun s => (s.name, s.default))

/-- The sockets that a kind of definition has unless it says otherwise. -/
def usualInputs : Kind → SocketSource
  | .event | .function => .fixed []
  | .flow | .async => .fixed [flowSpec "exec"]

def usualOutputs : Kind → SocketSource
  | .event => .fixed [flowSpec "exec"]
  | .flow => .fixed [flowSpec "exec_out"]
  | .function => .fixed []
  | .async => .fixed [flowSpec "completed"]

def usualCategory : Kind → String
  | .event => "Events"
  | .flow => "Actions"
  | .function => "Math"
  | .async => "Time"

/-- Metadata of a definition that gives a category, a label and a description, or leaves them out. A
label that says nothing stands for the name of the type. -/
def usualMetadata (k : Kind) (typeName : String) (category label description : Option Value) :
    Except Fault Metadata :=
  let shown : Value := match label with
    | some l => if l.truth then l else .str typeName
    | none => .str typeName
  Metadata.ofFields [("category", category.getD (.str (usualCategory k))), ("display_name", shown),
    ("description", description.getD (.str ""))]

end Definition

end FlowGraph
