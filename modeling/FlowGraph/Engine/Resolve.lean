import FlowGraph.Engine.Act

/-!
Running function nodes, and resolving the data inputs of a node: a linked input takes the converted
value of its source, and a source that is a function node is computed first, with its own inputs
resolved before it.
-/
namespace FlowGraph

/-- What a function node computes. -/
def FunctionBehaviour.run (c : Context) : FunctionBehaviour → Play Unit
  | .unary input output op => do
    c.write output (← Play.ofFault (op.apply (← c.read input)))
  | .binary first second output op => do
    let a ← c.read first
    let b ← c.read second
    c.write output (← Play.ofFault (op.apply a b))
  | .ternary first second third output op => do
    let x ← c.read first
    let y ← c.read second
    let z ← c.read third
    c.write output (← Play.ofFault (op.apply x y z))
  | .constant output v => c.write output v
  | .makeVector d => do
    let cs ← d.axes.mapM c.read
    c.write "result" (← Play.ofFault (d.vector cs))
  | .breakVector d => do
    let v ← c.read "vector"
    d.axes.forM fun axis => do c.write axis (← Play.ofFault (v.coordinate axis))
  | .getVariable => do
    let x ← c.variableNamed (← c.setting variableKey)
    c.write "value" (← Play.ofExcept x.get)
  | .now => do
    let _ ← c.service "scheduler"
    c.write "seconds" (← Play.ofFault (← get).scheduler.now.toFloat)
  | .getState typeName => do
    let t ← Play.ofIntegrity (((← get).registryOf c.node).valueType typeName)
    let _ ← c.service "state"
    let path ← c.setting "path"
    let v ← Play.ofFault ((← get).store.get path)
    c.write "value" (← Play.ofFault (t.clone v))
  | .script actions => Play.script c actions

namespace Play

/-- Calls into a node's behaviour. A failure becomes the node's own, unless it already is some
node's. -/
def invoke (r : NodeRef) (stage : Stage) (call : Option (Play Unit)) : Play Unit := do
  match call with
  | none => throw ((← get).nodeFailure r (.noBehaviour stage))
  | some x => match ← outcome x with
    | .ok _ => return ()
    | .error e =>
      if e.isNode then throw e else throw ((← get).nodeFailure r (.failed stage e))

def compute (r : NodeRef) : Play Unit := do
  match (← get).node r |>.definition.behaviour with
  | .function b => invoke r .exec (b.map fun b => b.run ⟨r, .function⟩)
  | _ => throw (.fault (.noFeature ((← get).node r).kind.nodeTitle "exec"))

/-- Gives an input without link and value the value its type starts with, and says so. -/
def fillInput (i : Nat) (r : NodeRef) (place : Nat) (s : Socket) : Play Unit := do
  if s.value.isNone then
    let t ← ofIntegrity (((← get).registryOf r).valueType s.valueType)
    let v ← stamp r.graph t.create
    modify (·.modifyNode r (·.setInput place v))
    let id := ((← get).node r).id
    modify (·.tell i (.unresolved · id s.name))

/-- The value at the source of a wire as the input takes it. -/
def carried (w : World) (r : NodeRef) (s : Socket) (source : End) : Except Failure Value :=
  let from_ := ((w.graph r.graph).outputAt? source).getD default
  match (w.registryOf r).convert from_.value from_.valueType s.valueType with
  | .ok v => .ok v
  | .error e => .error (w.nodeFailure r (.unconvertible from_.valueType s.valueType s.name e))

/-- Carries the value at the source of a wire to an input. -/
def pullAcross (r : NodeRef) (place : Nat) (s : Socket) (source : End) : Play Unit := do
  let v ← stamp r.graph (← ofExcept (carried (← get) r s source))
  modify (·.modifyNode r (·.setInput place v))

def dataPlaces (n : Node) : List Nat := (n.inputs.zipIdx.filter (!·.1.isFlow)).map (·.2)

/-- Computes a function node that feeds another, with its own inputs resolved before by `resolve`.
`visiting` are the nodes on the way here: meeting one of them again is a cycle. -/
def supply (i : Nat) (resolve : List String → NodeRef → Play Unit) (visiting : List String)
    (r supplier : NodeRef) : Play Unit := do
  let u := (← get).node supplier
  if u.kind = .function then
    if u.id ∈ visiting then throw ((← get).nodeFailure r (.cycle u.label))
    resolve (u.id :: visiting) supplier
    modify (·.tellStarted i supplier)
    compute supplier
    modify (·.tellEnded i supplier)

/-- Resolves one data input. -/
def resolveInput (i : Nat) (resolve : List String → NodeRef → Play Unit) (visiting : List String)
    (r : NodeRef) (place : Nat) : Play Unit := do
  let w ← get
  let s := ((w.node r).inputs[place]?).getD default
  match s.wires.head?.bind (w.graph r.graph).endsOf with
  | none => fillInput i r place s
  | some ends => do
    supply i resolve visiting r ⟨r.graph, ends.source.node⟩
    pullAcross r place s ends.source

/-- Resolves the inputs of a node for an engine. A way that meets no node twice is no longer than there
are nodes, so `fuel` for every node and one more is enough. -/
def resolveWithin (i : Nat) : Nat → List String → NodeRef → Play Unit
  | 0, _, _ => return ()
  | fuel + 1, visiting, r => do
    (dataPlaces ((← get).node r)).forM (resolveInput i (resolveWithin i fuel) visiting r)

def resolve (i : Nat) (r : NodeRef) : Play Unit := do
  let w ← get
  resolveWithin i ((w.graph r.graph).arena.size + 1) [(w.node r).id] r

end Play

end FlowGraph
