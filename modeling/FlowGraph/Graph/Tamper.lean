import FlowGraph.Graph.Basic

/-!
Edits that bypass the rules of a graph: raw values at inputs, and damage that the checks of a graph
are there to find.
-/
namespace FlowGraph.Graph

/-- Puts values at inputs as they are, up to the first input that is not there. -/
def presetInputs (g : Graph) (serial : Nat) : List (String × Value) → Graph × Except Fault Unit
  | [] => (g, .ok ())
  | (name, v) :: rest => match (g.nodeAt? serial).bind fun n => Node.place? name n.inputs with
    | some i => (g.modifyNode serial (·.setInput i v)).presetInputs serial rest
    | none => (g, .error (.noFeature "NoneType" "value"))

/-- Takes a node out of the graph and leaves its links. -/
def dropNode (g : Graph) (id : String) : Graph := { g with ids := g.ids.erase id }

def alterSocket (name : String) (f : Socket → Socket) (ss : List Socket) : List Socket :=
  match Node.place? name ss with
  | some i => ss.modify i f
  | none => ss

def alterInput (g : Graph) (serial : Nat) (name : String) (f : Socket → Socket) : Graph :=
  g.modifyNode serial fun n => { n with inputs := alterSocket name f n.inputs }

def alterOutput (g : Graph) (serial : Nat) (name : String) (f : Socket → Socket) : Graph :=
  g.modifyNode serial fun n => { n with outputs := alterSocket name f n.outputs }

/-- Lets a link arrive at an input of which neither its source nor the graph knows. -/
def plugInput (g : Graph) (serial : Nat) (name : String) (l : Link) : Except IntegrityError Graph := do
  let (g, w) := g.lay l (some (← g.resolve l))
  return g.alterInput serial name fun s => { s with wires := s.wires ++ [w] }

end FlowGraph.Graph
