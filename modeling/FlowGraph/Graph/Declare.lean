import FlowGraph.Graph.Basic

/-!
Declaring, setting and removing variables and custom events. A variable only ever holds values that
went through its type's document form and back, and an assignment tells whether it changed the value.
-/
namespace FlowGraph

namespace Variable

/-- The families of faults that mean "the value does not fit". -/
def unfit : Family → Bool
  | .feature | .type | .value => true
  | _ => false

/-- A value as the type of the variable holds it. -/
def coerce (name : String) (t : ValueType) (v : Value) : Except Failure Value :=
  match (do t.decode (← t.encode v)) with
  | .ok w => .ok w
  | .error f =>
    if unfit f.family then
      match v.literal with
      | .ok shown => .error (.integrity (.variableValue name t.name shown))
      | .error e => .error (.fault e)
    else .error (.fault f)

/-- The value that a new variable starts with: without a given one that of its type. -/
def start (name : String) (t : ValueType) (initial : Value) : Except Failure Value := do
  let v ← if initial.isNone then pure t.create else coerce name t initial
  Except.lifted (t.clone v)

/-- The variable with a value of its type; the second part is the new value if it differs from the old
one. -/
def put (x : Variable) (v : Value) : Except Failure (Variable × Option Value) := do
  let same ← Except.lifted (x.valueType.equals x.value v)
  let told ← if same then pure none else some <$> Except.lifted (x.valueType.clone v)
  return ({ x with value := v }, told)

def get (x : Variable) : Except Failure Value := Except.lifted (x.valueType.clone x.value)

end Variable

namespace Graph

def declareVariable (g : Graph) (name typeName : String) (initial : Value := .none) : Except Failure Graph :=
  if g.vars.has name then .error (.integrity (.variableDeclared name))
  else match g.registry.valueType typeName with
    | .error e => .error e
    | .ok t => do
      let (g, v) := g.stamp (← Variable.start name t initial)
      let x : Variable := { name := name, serial := g.issued, valueType := t, initial := v, value := v }
      return { g with vars := g.vars.set name x, issued := g.issued + 1 }

/-- Sets the value that a variable has and starts from. A variable that is not there is declared if a
type is given. -/
def setVariable (g : Graph) (name : String) (v : Value) (typeName : Option String := none) :
    Except Failure (Graph × Option Value) :=
  match g.vars.get? name with
  | none => match typeName with
    | none => .error (.integrity (.variableUndeclared name))
    | some t => do return (← g.declareVariable name t v, none)
  | some x =>
    let given := typeName.getD x.valueType.name
    if given ≠ x.valueType.name then .error (.integrity (.variableType name x.valueType.name given))
    else do
      let (g, w) := g.stamp (← Variable.coerce name x.valueType v)
      let initial ← Except.lifted (x.valueType.clone w)
      let (y, told) ← { x with initial := initial }.put w
      return ({ g with vars := g.vars.set name y }, told)

/-- Assigns a variable; the second part is the new value if it differs from the old one. -/
def assign (g : Graph) (x : Variable) (v : Value) : Except Failure (Graph × Option Value) := do
  let (g, w) := g.stamp (← Variable.coerce x.name x.valueType v)
  let (y, told) ← x.put w
  return ({ g with vars := g.vars.set x.name y }, told)

def removeVariable (g : Graph) (name : String) : Graph := { g with vars := g.vars.erase name }

/-- A parameter as an event keeps it: with a default of its type where none is given. -/
def checkParameter (g : Graph) (event : String) (s : SocketSpec) : Except IntegrityError SocketSpec :=
  if s.isFlow || s.name == "exec" then .error (.badParameter s.name event)
  else do
    let t ← g.registry.valueType s.valueType
    return if s.default.isNone then { s with default := t.create } else s

/-- Parameters as the graph keeps them. -/
def stampParameters (g : Graph) : List SocketSpec → Graph × List SocketSpec
  | [] => (g, [])
  | s :: rest =>
    let (g, v) := g.stamp s.default
    let (g, rest) := g.stampParameters rest
    (g, { s with default := v } :: rest)

def declareEvent (g : Graph) (name : String) (parameters : List SocketSpec) : Except IntegrityError Graph :=
  if g.events.has name then .error (.eventDeclared name)
  else do
    let (g, specs) := g.stampParameters (← parameters.mapM (g.checkParameter name))
    return { g with
      events := g.events.set name { name := name, serial := g.issued, parameters := specs }
      issued := g.issued + 1 }

def removeEvent (g : Graph) (name : String) : Graph := { g with events := g.events.erase name }

end Graph

end FlowGraph
