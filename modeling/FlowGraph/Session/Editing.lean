import FlowGraph.Document.Load
import FlowGraph.Document.Store
import FlowGraph.Graph.Check
import FlowGraph.Graph.Stepwise
import FlowGraph.Graph.Tamper
import FlowGraph.Json.Reader
import FlowGraph.Json.Writer
import FlowGraph.Session.Basic

/-!
Editing the graph at hand: its nodes and links, its variables and events, and its documents.
-/
namespace FlowGraph.Session

/-- Carries out an edit of the graph at hand. Whatever it told goes to those who listen, also where it fails. -/
def carryOut {α : Type} (x : Editing α) : Run α := do
  let (r, d) := x.runOn { graph := ← current, strays := (← get).strays }
  setCurrent d.graph
  modify fun s => { s with strays := d.strays }
  let place := (← get).graph
  for (serial, new) in d.told do
    modifyWorld (·.emit (.variableChange place serial) (.changed new))
  ofExcept r

/-- Adds a node and puts raw values at its inputs. The node stays even if one of them is refused. -/
def addNode (typeName : String) (id : Value) (configuration : List (String × Value)) (position : Value)
    (inputs : List (String × Value)) : Run Node := do
  let serial ← carryOut (Editing.addNodeUnder typeName id configuration position)
  let (g, done) := (← current).presetInputs serial inputs
  setCurrent g
  ofFault done
  nodeAt ⟨(← get).graph, serial⟩

def removeNode (id : String) : Run Graph := do
  setCurrent ((← current).removeNode id)
  current

def connect (l : Link) (replace : Option Bool := none) : Run Wire := carryOut (Editing.connect l replace)

def disconnect (l : Link) : Run Bool := do
  let (g, found) := (← current).disconnect l
  setCurrent g
  return found

def disconnectInput (id socket : String) : Run Nat := do
  let (g, n) := (← current).disconnectInput id socket
  setCurrent g
  return n

def clear : Run Graph := do
  carryOut Editing.clear
  current

/-- The nodes of the graph at hand with their identifiers, in the order in which they came in. -/
def roster : Run (List (Value × Node)) := do
  let g ← current
  let named := g.ids.entries.filterMap fun e => (g.nodeAt? e.2).map fun n => (2 * e.2 + 1, Value.str e.1, n)
  let others := (← get).strays.map fun s => (2 * s.place, s.id, s.node)
  return ((others ++ named).mergeSort fun a b => a.1 ≤ b.1).map (·.2)

/-- The labels of the sockets that a link joins. -/
def socketsOf (l : Link) : Run (List String) := do
  let g ← current
  let e ← ofIntegrity (g.resolve l)
  return [((g.outputAt? e.source).getD default).labelOn l.source,
    ((g.inputAt? e.target).getD default).labelOn l.target]

def presetInput (id socket : String) (v : Value) : Run Unit := do
  let r ← nodeRef id
  let (g, done) := (← current).presetInputs r.serial [(socket, v)]
  setCurrent g
  ofFault done

def write (id socket : String) (v : Value) : Run Unit := do
  let r ← nodeRef id
  let n ← ofFault ((← nodeAt r).write socket v)
  setCurrent ((← current).modifyNode r.serial fun _ => n)

def setError (id : String) (message : Option String) : Run Unit := do
  let r ← nodeRef id
  setCurrent ((← current).modifyNode r.serial fun n => { n with error := message })

/-- The output at which an asynchronous node goes on. -/
def outputFlow (id : String) : Run String := do
  let r ← nodeRef id
  let n ← nodeAt r
  if n.kind ≠ .async then throw (.fault (.noFeature n.kind.nodeTitle "get_output_flow_socket_name"))
  ofExcept ((← get).world.outputOf r)

def declareVariable (name typeName : String) (initial : Value) : Run Unit :=
  carryOut (Editing.declareVariable name typeName initial)

/-- Sets the value that a variable has and starts from, and tells of a change. -/
def setVariable (name : String) (v : Value) (typeName : Option String) : Run Unit :=
  carryOut (Editing.setVariable name v typeName)

/-- Assigns a variable and gives its value then. -/
def assign (x : Variable) (v : Value) : Run Value := do
  let place := (← get).graph
  play (Play.change (·.assign place x v))
  match (← current).vars.get? x.name with
  | some y => ofExcept y.get
  | none => return .none

def watchVariable (name : String) : Run Unit := do
  let x ← declared name "on_changed"
  let place := (← get).graph
  modifyWorld fun w => (w.subscribe (.variableChange place x.serial) (.watchVariable name)).2

def removeVariable (name : String) : Run Unit := do
  setCurrent ((← current).removeVariable name)

def declareEvent (name : String) (parameters : List SocketSpec) : Run Unit :=
  carryOut (Editing.declareEvent name parameters)

def removeEvent (name : String) : Run Unit := do
  setCurrent ((← current).removeEvent name)

def watchEvent (name : String) : Run Unit := do
  let e ← customEvent name "on_triggered"
  let place := (← get).graph
  modifyWorld fun w => (w.subscribe (.eventTrigger place e.serial) (.watchEvent name)).2

def trigger (name : String) (values : List (String × Value)) : Run Unit := do
  let e ← customEvent name "trigger"
  let place := (← get).graph
  modifyWorld (·.trigger place e values)

def document : Run Value := do return (← ofExcept (← current).toDocument).toValue

/-- Goes on with the graph of a document; a document that is refused changes nothing. -/
def load (v : Value) : Run Graph := do
  let s ← get
  let start : Graph := { registry := s.registry, replaceLinks := s.replaceLinks
                         labels := (s.world.graphs.size + 1) * labelRange }
  switchTo (← ofExcept (Graph.ofValue v start))
  current

/-- Goes on with the graph of a file's text. -/
def loadText (file : String) (text : Option String) : Run Graph := do
  let found ← match text with
    | some t => ofFault (Json.read t)
    | none => pure none
  match found with
  | some v => load v
  | none => throw (.integrity (.unreadable file))

/-- Writes the graph, reads it back, and tells whether it is written the same way again. -/
def roundTrip : Run Bool := do
  let before ← document
  let _ ← load before
  return Value.equalKept before (← document)

/-- The graph at hand as text, in the style that a value asks for. -/
def save (style : Value) : Run String := do
  let d ← document
  ofFault (do Json.render (← Json.Style.ofValue style) d)

def validate : Run (List String) := do
  let (g, ps) := (← current).problems
  setCurrent g
  ofFault ps

/-- The place of a node with an input of a name, of which a feature is wanted. -/
def inputFor (id socket feature : String) : Run Nat := do
  let r ← nodeRef id
  let _ ← requireFor feature ((← nodeAt r).input? socket)
  return r.serial

def renameInput (id socket name : String) : Run Unit := do
  let n ← inputFor id socket "name"
  setCurrent ((← current).alterInput n socket fun s => { s with name := name })

def renameOutput (id socket name : String) : Run Unit := do
  let r ← nodeRef id
  let _ ← requireFor "name" ((← nodeAt r).output? socket)
  setCurrent ((← current).alterOutput r.serial socket fun s => { s with name := name })

def retypeInput (id socket typeName : String) : Run Unit := do
  let n ← inputFor id socket "value_type_name"
  setCurrent ((← current).alterInput n socket fun s => { s with valueType := typeName })

def dropNode (id : String) : Run Unit := do
  let _ ← nodeRef id
  setCurrent ((← current).dropNode id)

/-- Lets a link arrive at an input of which neither its source nor the graph knows. -/
def plugInput (id socket : String) (l : Link) : Run Unit := do
  let _ ← nodeRef id
  let _ ← ofIntegrity ((← current).resolve l)
  let n ← inputFor id socket "incoming"
  setCurrent (← ofIntegrity ((← current).plugInput n socket l))

end FlowGraph.Session
