import FlowGraph.Graph.Declare
import FlowGraph.Graph.Edit

/-!
Edits as they are carried out, one change after the other. What was changed before a failure stays changed.
-/
namespace FlowGraph

/-- A node that came in under an identifier that is no text. The tables of a graph go by names, so it is kept beside them. -/
structure Stray where
  id : Value
  /-- How many nodes had come in before. -/
  place : Nat
  node : Node
  deriving Repr

/-- Whether an identifier is used as it is and is no text. What is empty stands for none. -/
def Stray.isOdd : Value → Bool
  | .none | .str _ => false
  | v => v.truth

/-- A graph under an edit, and what was told so far: the new values of variables, by their serial numbers. -/
structure Draft where
  graph : Graph
  strays : List Stray := []
  told : List (Nat × Value) := []
  deriving Repr

abbrev Editing := ExceptT Failure (StateM Draft)

namespace Editing

variable {α : Type}

def runOn (x : Editing α) (d : Draft) : Except Failure α × Draft := x.run.run d

def graph : Editing Graph := return (← get).graph

def ofExcept (x : Except Failure α) : Editing α := ExceptT.mk (pure x)

def ofIntegrity (x : Except IntegrityError α) : Editing α := ofExcept (x.mapError .integrity)

def change (f : Graph → Graph) : Editing Unit := modify fun d => { d with graph := f d.graph }

def tell (serial : Nat) (v : Value) : Editing Unit := modify fun d => { d with told := d.told ++ [(serial, v)] }

/-- Makes the text that announces something, which may fail. -/
def announce (label : Except Fault String) : Editing Unit := do
  let _ ← ofExcept (Except.lifted label)

/-- A value as the graph keeps it. -/
def keep (v : Value) : Editing Value := do
  let (g, w) := (← graph).stamp v
  change fun _ => g
  return w

/-- Adds a node under a text, or under the next free one. Its label can be made, so that nothing fails any more once it is in. -/
def addNodeOf (d : Definition) (id : Option String := none) (overrides : List (String × Value) := [])
    (position : Value := Graph.noPosition) : Editing Nat := do
  let g ← graph
  match id with
  | some i => if g.ids.has i then throw (.integrity (.duplicateNode i))
  | none => pure ()
  let n ← ofExcept (g.makeNode d (g.chooseId id) overrides position)
  change (·.insertNode n)
  announce (.ok n.label)
  return g.arena.size

def addNode (typeName : String) (id : Option String := none) (overrides : List (String × Value) := [])
    (position : Value := Graph.noPosition) : Editing Nat := do
  addNodeOf (← ofIntegrity ((← graph).registry.definition typeName)) id overrides position

/-- Adds a node under whatever a host takes for an identifier. The label of a node is cut from its identifier, and fails for one
that is no text, when the node is already in. -/
def addNodeOfUnder (d : Definition) (id : Value) (overrides : List (String × Value) := [])
    (position : Value := Graph.noPosition) : Editing Nat := do
  match id with
  | .none => addNodeOf d none overrides position
  | .str name => addNodeOf d (some name) overrides position
  | v =>
    ofExcept (Except.lifted v.hashed)
    if (← get).strays.any (·.id.same v) then
      throw (.integrity (.duplicateNode (← ofExcept (Except.lifted v.display))))
    if !v.truth then addNodeOf d none overrides position
    else
      let g ← graph
      let n ← ofExcept (g.makeNode d "" overrides position)
      modify fun d => { d with strays := d.strays ++ [⟨v, g.arena.size, n⟩] }
      announce (.error (.notSubscriptable v.typeName))
      return g.arena.size

def addNodeUnder (typeName : String) (id : Value) (overrides : List (String × Value) := [])
    (position : Value := Graph.noPosition) : Editing Nat := do
  addNodeOfUnder (← ofIntegrity ((← graph).registry.definition typeName)) id overrides position

def clear : Editing Unit := modify fun d => { d with graph := d.graph.clear, strays := [] }

/-- Takes out the links that are in the way, one after the other. -/
def disconnectAll (ls : List Link) : Editing Unit := ls.forM fun l => change fun g => (g.disconnect l).1

/-- Connects an output to an input. The ends are looked up once more when what was in the way is gone. -/
def connect (l : Link) (replace : Option Bool := none) : Editing Wire := do
  let g ← graph
  let (_, output, input, shown) ← ofIntegrity (g.checkLink l)
  if l ∈ output.wires.map (·.link) then throw (.integrity (.linkExists l.label))
  if !(Graph.displaced input).isEmpty && !replace.getD g.replaceLinks then throw (.integrity (.inputLinked shown))
  disconnectAll (Graph.displaced input)
  let ends ← ofIntegrity ((← graph).resolve l)
  let (g, w) := (← graph).lay l (some ends)
  change fun _ => g
  change (·.modifyOutputWires ends.source (· ++ [w]))
  change (·.modifyInputWires ends.target (· ++ [w]))
  change fun g => { g with wires := g.wires ++ [w] }
  announce (.ok l.label)
  return w

def declareVariable (name typeName : String) (initial : Value := .none) : Editing Unit := do
  let g ← graph
  if g.vars.has name then throw (.integrity (.variableDeclared name))
  let t ← ofIntegrity (g.registry.valueType typeName)
  let v ← keep (← ofExcept (Variable.start name t initial))
  let x : Variable := { name := name, serial := g.issued, valueType := t, initial := v, value := v }
  change fun g => { g with vars := g.vars.set name x, issued := g.issued + 1 }
  announce x.label

def setEntry (name : String) (x : Variable) : Editing Unit := change fun g => { g with vars := g.vars.set name x }

/-- Assigns a variable, and tells the new value if it differs from the old one. -/
def assign (x : Variable) (v : Value) : Editing Unit := do
  let w ← ofExcept (Variable.coerce x.name x.valueType v)
  let same ← ofExcept (Except.lifted (x.valueType.equals x.value w))
  setEntry x.name { x with value := w }
  unless same do tell x.serial (← ofExcept (Except.lifted (x.valueType.clone w)))

/-- Sets the value that a variable has and starts from. The value goes through the document form twice, the second time
when the variable already starts from it. -/
def setVariable (name : String) (v : Value) (typeName : Option String := none) : Editing Unit := do
  match (← graph).vars.get? name with
  | none => match typeName with
    | none => throw (.integrity (.variableUndeclared name))
    | some t => declareVariable name t v
  | some x =>
    let given := typeName.getD x.valueType.name
    if given ≠ x.valueType.name then throw (.integrity (.variableType name x.valueType.name given))
    let w ← keep (← ofExcept (Variable.coerce name x.valueType v))
    let x := { x with initial := ← ofExcept (Except.lifted (x.valueType.clone w)) }
    setEntry name x
    assign x w

def declareEvent (name : String) (parameters : List SocketSpec) : Editing Unit := do
  let g ← graph
  if g.events.has name then throw (.integrity (.eventDeclared name))
  let (g, specs) := g.stampParameters (← ofIntegrity (parameters.mapM (g.checkParameter name)))
  let e : CustomEvent := { name := name, serial := g.issued, parameters := specs }
  change fun _ => { g with events := g.events.set name e, issued := g.issued + 1 }
  announce (.ok e.label)

end Editing

end FlowGraph
