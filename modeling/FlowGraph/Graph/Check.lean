import FlowGraph.Graph.Basic

/-!
Checks of a graph: links that lead nowhere or join types that do not fit, inputs with several links,
settings that name something undeclared, and cycles among function nodes.
-/
namespace FlowGraph.Graph

/-- For every function node the function nodes that feed its data inputs. -/
def dependencies (g : Graph) : Table String (List String) :=
  let isFunction (w : Wire) : Bool := match g.endsOf w with
    | some e => (g.nodeAt? e.source.node).any (·.kind = .function)
    | none => false
  Table.ofList ((g.nodes.filter (·.kind = .function)).map fun n =>
    (n.id, (n.dataInputs.flatMap (·.wires)).filter isFunction |>.map (·.link.source)))

/-- What a search for cycles has found, and the nodes it need not visit again. -/
structure Search where
  cycles : List (List String) := []
  done : List String := []

/-- Visits a node by way of `path`, innermost node first. A node that is on the path closes a cycle. -/
def visit (feeds : Table String (List String)) : Nat → List String → String → Search → Search
  | 0, _, _, found => found
  | fuel + 1, path, id, found =>
    if id ∈ path then
      let cycle := (path.takeWhile (· ≠ id)).reverse
      { found with cycles := found.cycles ++ [(id :: cycle) ++ [id]] }
    else if id ∈ found.done then found
    else
      let found := ((feeds.get? id).getD []).foldl
        (fun f source => visit feeds fuel (id :: path) source f) found
      { found with done := id :: found.done }

/-- The cycles among the data dependencies of function nodes, each with its first node repeated at the
end. A path has at most one node more than there are function nodes. -/
def cycles (g : Graph) : List (List String) :=
  let feeds := g.dependencies
  (feeds.keys.foldl (fun f id => visit feeds (feeds.size + 2) [] id f) {}).cycles

/-- Looks a wire up again and tells what is wrong with it. A wire that leads nowhere now keeps its old
ends. -/
def checkWire (g : Graph) (w : Wire) : Graph × List String :=
  match g.resolve w.link with
  | .error e => (g, ["Dangling link " ++ w.link.label ++ ": " ++ e.message])
  | .ok e =>
    let g := { g with ends := g.ends.setIfInBounds w.serial (some e) }
    match g.outputAt? e.source, g.inputAt? e.target with
    | some s, some t =>
      if g.registry.canConnect s.valueType t.valueType then (g, [])
      else (g, ["Incompatible link " ++ w.link.label ++ ": " ++ s.valueType ++ " -> " ++ t.valueType])
    | _, _ => (g, [])

def checkWires (g : Graph) : Graph × List String :=
  g.wires.foldl (fun acc w =>
    let (g, ps) := acc.1.checkWire w
    (g, acc.2 ++ ps)) (g, [])

/-- The complaint about a setting that names nothing declared. -/
def checkReference (n : Node) (key what : String) (declared : Value → Except Fault Bool) :
    Except Fault (List String) :=
  match n.configuration.get? key with
  | none => .ok []
  | some name => do
    if ← declared name then return []
    return [n.label ++ ": references undeclared " ++ what ++ " '" ++ (← name.display) ++ "'"]

def checkNode (g : Graph) (n : Node) : Except Fault (List String) := do
  let crowded := (n.dataInputs.filter (1 < ·.wires.length)).map fun s =>
    "Input " ++ s.labelOn n.id ++ " has " ++ toString s.wires.length ++ " incoming links"
  let ofVariables ← checkReference n variableKey "variable" fun v => (·.isSome) <$> g.variableOf v
  let ofEvents ← checkReference n eventKey "custom event" fun v => (·.isSome) <$> g.eventOf v
  return crowded ++ ofVariables ++ ofEvents

/-- All problems of a graph. Links whose ends moved are looked up anew on the way. -/
def problems (g : Graph) : Graph × Except Fault (List String) :=
  let (g, wires) := g.checkWires
  (g, do
    let nodes ← g.nodes.mapM g.checkNode
    let loops := g.cycles.map fun c => "Data dependency cycle: " ++ String.intercalate " -> " c
    return wires ++ nodes.flatten ++ loops)

end FlowGraph.Graph
