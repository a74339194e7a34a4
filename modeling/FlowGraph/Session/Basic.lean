import FlowGraph.Engine.Host
import FlowGraph.Graph.Stepwise

/-!
A host's session with a world: one graph is at hand, and engines and fibers go by names. An operation
that fails may have done part of its work, and that part stays done.
-/
namespace FlowGraph

structure Session where
  world : World := {}
  /-- The place of the graph at hand. -/
  graph : Nat := 0
  engines : Table String Nat := {}
  /-- Fibers of the host's own, each with its engine. -/
  fibers : Table String (Nat × Nat) := {}
  registry : Registry := {}
  replaceLinks : Bool := true
  /-- Nodes of the graph at hand that are under no name. -/
  strays : List Stray := []
  deriving Inhabited

namespace Session

abbrev Run := ExceptT Failure (StateM Session)

def ofGraph (r : Registry) (replaceLinks : Bool) (clock : Clock) (state : Store) (g : Graph) : Session :=
  { world := { graphs := #[g], clock := clock, store := state }, registry := r, replaceLinks := replaceLinks }

def ofFault {α : Type} (x : Except Fault α) : Run α := ExceptT.mk (pure (Except.lifted x))

def ofExcept {α : Type} (x : Except Failure α) : Run α := ExceptT.mk (pure x)

def ofIntegrity {α : Type} (x : Except IntegrityError α) : Run α := ofExcept (x.mapError Failure.integrity)

/-- Runs a computation on the session's world. -/
def play {α : Type} (x : Play α) : Run α := ExceptT.mk fun s =>
  let w := s.world
  let s := { s with world := {} }
  let (r, w) := x.runOn w
  (r, { s with world := w })

def modifyWorld (f : World → World) : Run Unit := modify fun s =>
  let w := s.world
  let s := { s with world := {} }
  { s with world := f w }

def current : Run Graph := do
  let s ← get
  return s.world.graph s.graph

def setCurrent (g : Graph) : Run Unit :=
  modify fun s => { s with world := s.world.modifyGraph s.graph fun _ => g }

/-- Goes on with another graph; engines stay with theirs. -/
def switchTo (g : Graph) : Run Unit :=
  modify fun s => { s with
    graph := s.world.graphs.size
    strays := []
    world := { s.world with graphs := s.world.graphs.push g } }

def require {α : Type} (name : String) : Option α → Run α
  | some a => return a
  | none => throw (.fault (.missing name))

/-- Something of which a feature is wanted, and which therefore cannot be nothing. -/
def requireFor {α : Type} (feature : String) : Option α → Run α
  | some a => return a
  | none => throw (.fault (.noFeature "NoneType" feature))

def nodeRef (id : String) : Run NodeRef := do
  return ⟨(← get).graph, ← require id ((← current).serial? id)⟩

def nodeAt (r : NodeRef) : Run Node := return (← get).world.node r

def node (id : String) : Run Node := do nodeAt (← nodeRef id)

def engine (name : String) : Run Nat := do require name ((← get).engines.get? name)

def fiber (name : String) : Run (Nat × Nat) := do require name ((← get).fibers.get? name)

/-- A variable of the graph at hand, of which a feature is wanted. -/
def declared (name feature : String) : Run Variable := do
  requireFor feature ((← current).vars.get? name)

def customEvent (name feature : String) : Run CustomEvent := do
  requireFor feature ((← current).events.get? name)

/-- A context that a behaviour handed to the host; from the last one back where the place is negative. -/
def held (i : Int) : Run Context := do
  let holds := (← get).world.holds
  let place := if i < 0 then holds.length + i else i
  match if place < 0 then none else holds[place.toNat]? with
  | some c => return c
  | none => throw (.fault .indexRange)

end Session

end FlowGraph
