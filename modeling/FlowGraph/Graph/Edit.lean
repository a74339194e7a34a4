import FlowGraph.Graph.Basic

/-!
Editing nodes and links. Every check of an edit comes before its first change, so an edit that is
refused leaves the graph as it was.
-/
namespace FlowGraph.Graph

/-- An item of a list or text by position. -/
def itemOf (v : Value) (i : Nat) : Except Fault Value :=
  match v with
  | .list xs => match xs[i]? with
    | some x => .ok x
    | none => .error .indexRange
  | .str s => match s.toList[i]? with
    | some c => .ok (.str (String.singleton c))
    | none => .error .textIndexRange
  | .dict _ => .error (.missingPosition i)
  | _ => .error (.notSubscriptable v.typeName)

/-- The coordinates of a position given as a value. -/
def coordinates (position : Value) : Except Fault (Double × Double) := do
  let x ← (← itemOf position 0).toFloat
  let y ← (← itemOf position 1).toFloat
  match x, y with
  | .float a, .float b => return (a, b)
  | _, _ => throw .indexRange

def noPosition : Value := .list [.float Double.zero, .float Double.zero]

/-- The default configuration with the given settings in place of its own. -/
def mergeConfiguration (d : Definition) (overrides : List (String × Value)) :
    Except IntegrityError Configuration :=
  overrides.foldlM (fun c o =>
    if c.has o.1 then .ok (c.set o.1 o.2) else .error (.unknownConfiguration o.1 d.typeName))
    d.defaultConfiguration

/-- A socket with its starting value: the default of its specification, or else of its type. -/
def buildSocket (r : Registry) (s : SocketSpec) : Except Failure Socket := do
  let socket : Socket := { name := s.name, valueType := s.valueType, label := s.label, choices := s.choices }
  if s.isFlow then return socket
  match r.valueType s.valueType with
  | .error e => throw (.integrity e)
  | .ok t =>
    if s.default.isNone then return { socket with value := t.create }
    else return { socket with value := ← Except.lifted (t.clone s.default) }

def buildSide (g : Graph) (source : SocketSource) (c : Configuration) : Except Failure (List Socket) := do
  (← Except.lifted (source.expand c g.scope)).mapM (buildSocket g.registry)

/-- A node of the definition, not yet part of the graph. -/
def makeNode (g : Graph) (d : Definition) (id : String) (overrides : List (String × Value))
    (position : Value) : Except Failure Node := do
  let place ← Except.lifted (coordinates position)
  match mergeConfiguration d overrides with
  | .error e => throw (.integrity e)
  | .ok c =>
    let inputs ← g.buildSide d.inputs c
    let outputs ← g.buildSide d.outputs c
    return { id := id, definition := d, position := place, configuration := c
             state := d.initialState, inputs := inputs, outputs := outputs }

def numberedId (n : Nat) : String :=
  let digits := toString n
  "c94e6b1d-52f7-4a83-9d06-" ++ String.ofList (List.replicate (12 - digits.length) '0') ++ digits

/-- An identifier that no node has, among those of one number more than there are nodes. -/
def freshId (g : Graph) : String :=
  let ids := (List.range (g.ids.size + 1)).map fun k => numberedId (g.arena.size + k)
  (ids.find? fun id => !g.ids.has id).getD (numberedId g.arena.size)

/-- The identifier asked for, or a fresh one where none or an empty one is. -/
def chooseId (g : Graph) : Option String → String
  | some id => if id.isEmpty then g.freshId else id
  | none => g.freshId

def stampSocket (g : Graph) (s : Socket) : Graph × Socket :=
  let (g, v) := g.stamp s.value
  (g, { s with value := v })

/-- The sockets of a side as the graph keeps them. -/
def stampSide (g : Graph) : List Socket → Graph × List Socket
  | [] => (g, [])
  | s :: rest =>
    let (g, s) := g.stampSocket s
    let (g, rest) := g.stampSide rest
    (g, s :: rest)

def stampNode (g : Graph) (n : Node) : Graph × Node :=
  let (g, inputs) := g.stampSide n.inputs
  let (g, outputs) := g.stampSide n.outputs
  (g, { n with inputs := inputs, outputs := outputs })

def insertNode (g : Graph) (n : Node) : Graph :=
  let (g, n) := g.stampNode n
  { g with arena := g.arena.push n, ids := g.ids.set n.id g.arena.size }

/-- Adds a node of a definition and gives its place. -/
def addNodeOf (g : Graph) (d : Definition) (id : Option String := none)
    (overrides : List (String × Value) := []) (position : Value := noPosition) :
    Except Failure (Graph × Nat) :=
  match id with
  | some i =>
    if g.ids.has i then .error (.integrity (.duplicateNode i))
    else do return (g.insertNode (← g.makeNode d (g.chooseId id) overrides position), g.arena.size)
  | none => do return (g.insertNode (← g.makeNode d (g.chooseId id) overrides position), g.arena.size)

/-- Adds a node of a registered type and gives its place. -/
def addNode (g : Graph) (typeName : String) (id : Option String := none)
    (overrides : List (String × Value) := []) (position : Value := noPosition) :
    Except Failure (Graph × Nat) :=
  match g.registry.definition typeName with
  | .error e => .error e
  | .ok d => g.addNodeOf d id overrides position

/-- Takes the first wire of the link out of the sockets at its two ends, as far as they are there. -/
def unplug (g : Graph) (l : Link) : Graph :=
  let g := match g.serial? l.source with
    | some s => match (g.nodeAt? s).bind fun n => Node.place? l.output n.outputs with
      | some o => g.modifyOutputWires ⟨s, o⟩ (Wire.remove l)
      | none => g
    | none => g
  match g.serial? l.target with
  | some t => match (g.nodeAt? t).bind fun n => Node.place? l.input n.inputs with
    | some i => g.modifyInputWires ⟨t, i⟩ (Wire.remove l)
    | none => g
  | none => g

def disconnect (g : Graph) (l : Link) : Graph × Bool :=
  if l ∈ g.links then ({ g.unplug l with wires := Wire.remove l g.wires }, true) else (g, false)

def disconnectAll (g : Graph) (ls : List Link) : Graph := ls.foldl (fun g l => (g.disconnect l).1) g

/-- Removes every link that arrives at an input and counts them. -/
def disconnectInput (g : Graph) (id name : String) : Graph × Nat :=
  match (g.node? id).bind (·.input? name) with
  | none => (g, 0)
  | some s => (g.disconnectAll (s.wires.map (·.link)), s.wires.length)

/-- Removes a node with its links. -/
def removeNode (g : Graph) (id : String) : Graph :=
  if g.ids.has id then
    let g := g.disconnectAll (g.links.filter (·.touches id))
    { g with ids := g.ids.erase id }
  else g

def clear (g : Graph) : Graph :=
  { g.disconnectAll g.links with ids := {}, vars := {}, events := {} }

def noOutput (n : Node) (name : String) : IntegrityError :=
  if (n.input? name).isSome then .sourceIsInput name n.label else .sourceSocketMissing n.label name

def noInput (n : Node) (name : String) : IntegrityError :=
  if (n.output? name).isSome then .targetIsOutput name n.label else .targetSocketMissing n.label name

/-- The ends that a new link would have, after all checks but that of a link already there. -/
def checkLink (g : Graph) (l : Link) : Except IntegrityError (Ends × Socket × Socket × String) := do
  let some s := g.serial? l.source | throw (.sourceNodeMissing l.source)
  let some source := g.nodeAt? s | throw (.sourceNodeMissing l.source)
  let some t := g.serial? l.target | throw (.targetNodeMissing l.target)
  let some target := g.nodeAt? t | throw (.targetNodeMissing l.target)
  let some o := Node.place? l.output source.outputs | throw (noOutput source l.output)
  let some output := source.outputs[o]? | throw (noOutput source l.output)
  let some i := Node.place? l.input target.inputs | throw (noInput target l.input)
  let some input := target.inputs[i]? | throw (noInput target l.input)
  if !g.registry.canConnect output.valueType input.valueType then
    throw (.incompatible output.valueType input.valueType (output.labelOn source.id) (input.labelOn target.id))
  return (⟨⟨s, o⟩, ⟨t, i⟩⟩, output, input, input.labelOn target.id)

/-- Puts a wire in at the end of all three lists that it belongs to. -/
def plug (g : Graph) (w : Wire) (e : Ends) : Graph :=
  let g := g.modifyOutputWires e.source (· ++ [w])
  let g := g.modifyInputWires e.target (· ++ [w])
  { g with wires := g.wires ++ [w] }

/-- The links that a new one at an input would take the place of: a data input has one link, an input for
execution any number. -/
def displaced (input : Socket) : List Link := if input.isFlow then [] else input.wires.map (·.link)

/-- Connects an output to an input. A link in its place gives way or stands, as the policy says. -/
def connect (g : Graph) (l : Link) (replace : Option Bool := none) : Except IntegrityError (Graph × Wire) := do
  let (ends, output, input, shown) ← g.checkLink l
  if l ∈ output.wires.map (·.link) then throw (.linkExists l.label)
  if !(displaced input).isEmpty && !replace.getD g.replaceLinks then throw (.inputLinked shown)
  let (g, w) := (g.disconnectAll (displaced input)).lay l (some ends)
  return (g.plug w ends, w)

end FlowGraph.Graph
