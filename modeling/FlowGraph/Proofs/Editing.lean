import FlowGraph.Graph.Declare
import FlowGraph.Graph.Edit
import FlowGraph.Graph.Tamper

/-!
Edit histories: the operations by which a graph is built, as data, and the graph that a list of them
leads to. An operation that is refused leaves the graph as it was.
-/
namespace FlowGraph

inductive Edit where
  /-- Adds a node of a registered type. -/
  | add (typeName : String) (id : Option String) (overrides : List (String × Value)) (position : Value)
  /-- Adds a node of a definition that need not be registered. -/
  | addOf (definition : Definition) (id : Option String) (overrides : List (String × Value)) (position : Value)
  | remove (id : String)
  | connect (link : Link) (replace : Option Bool)
  | disconnect (link : Link)
  | disconnectInput (id name : String)
  | clear
  | declareVariable (name typeName : String) (initial : Value)
  | setVariable (name : String) (value : Value) (typeName : Option String)
  | removeVariable (name : String)
  | declareEvent (name : String) (parameters : List SocketSpec)
  | removeEvent (name : String)
  /-- Puts a value at an input as its literal, whatever it is. -/
  | setLiteral (id name : String) (value : Value)

namespace Graph

/-- The graph after an operation, or why it is refused. -/
def attempt (g : Graph) : Edit → Except Failure Graph
  | .add typeName id overrides position => (g.addNode typeName id overrides position).map (·.1)
  | .addOf d id overrides position => (g.addNodeOf d id overrides position).map (·.1)
  | .remove id => .ok (g.removeNode id)
  | .connect l replace => ((g.connect l replace).map (·.1)).mapError .integrity
  | .disconnect l => .ok (g.disconnect l).1
  | .disconnectInput id name => .ok (g.disconnectInput id name).1
  | .clear => .ok g.clear
  | .declareVariable name typeName initial => g.declareVariable name typeName initial
  | .setVariable name v typeName => (g.setVariable name v typeName).map (·.1)
  | .removeVariable name => .ok (g.removeVariable name)
  | .declareEvent name parameters => (g.declareEvent name parameters).mapError .integrity
  | .removeEvent name => .ok (g.removeEvent name)
  | .setLiteral id name v => match g.serial? id with
    | some k => .ok (g.presetInputs k [(name, v)]).1
    | none => .error (.fault (.missing id))

def edit (g : Graph) (e : Edit) : Graph := (g.attempt e).toOption.getD g

def edits (g : Graph) (es : List Edit) : Graph := es.foldl edit g

/-- What holds at the start and is kept by every operation that is carried out holds after every
history. -/
theorem edits_invariant {P : Graph → Prop} {es : List Edit}
    (hstep : ∀ g, ∀ e ∈ es, ∀ g', P g → g.attempt e = .ok g' → P g') {g : Graph} (h : P g) : P (g.edits es) := by
  induction es generalizing g with
  | nil => exact h
  | cons e es ih =>
    apply ih fun g e he => hstep g e (List.mem_cons_of_mem _ he)
    cases hg : g.attempt e with
    | ok g' => simpa [edit, hg, Except.toOption] using hstep g e List.mem_cons_self g' h hg
    | error f => simpa [edit, hg, Except.toOption] using h

end Graph

end FlowGraph
