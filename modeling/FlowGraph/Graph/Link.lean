import FlowGraph.Definition.Basic

/-!
Links: an output of one node feeding an input of another, by names, and wires, which are links that were
laid once and may be looked up again.
-/
namespace FlowGraph

/-- The beginning of an identifier, as it is shown in labels. -/
def short (id : String) : String := (id.take 8).toString

structure Link where
  source : String
  output : String
  target : String
  input : String
  deriving DecidableEq, Repr, Inhabited

def Link.label (l : Link) : String :=
  "<Link " ++ short l.source ++ "." ++ l.output ++ " -> " ++ short l.target ++ "." ++ l.input ++ ">"

def Link.touches (l : Link) (id : String) : Bool := l.source == id || l.target == id

/-- A socket by the place of its node in the graph's arena and its own place on its side. -/
structure End where
  node : Nat
  socket : Nat
  deriving DecidableEq, Repr, Inhabited

/-- Where a link leads from and to. -/
structure Ends where
  source : End
  target : End
  deriving DecidableEq, Repr, Inhabited

/-- A link that was laid. The serial number tells apart the wires of equal links; where a wire leads is
kept by the graph. -/
structure Wire where
  link : Link
  serial : Nat
  deriving DecidableEq, Repr, Inhabited

def Wire.remove (l : Link) (ws : List Wire) : List Wire := ws.eraseP (·.link = l)

end FlowGraph
