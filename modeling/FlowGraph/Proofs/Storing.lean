import FlowGraph.Document.Store
import FlowGraph.Proofs.DocumentForm
import FlowGraph.Proofs.Expansion
import FlowGraph.Proofs.Provenance

/-!
Graphs that can be stored. A graph whose literals are of their types has a document, and the document
depends on the literals only up to which NaN is which.
-/
namespace FlowGraph

def Socket.outline (s : Socket) : String × String := (s.name, s.valueType)

theorem Side.outlines_of_frame {n m : Node} (h : n.frame = m.frame) (side : Side) :
    (side.sockets n).map Socket.outline = (side.sockets m).map Socket.outline := by
  have hf := congrArg (List.map fun f => (f.1, f.2.1)) (side.frames_of_frame h)
  rw [List.map_map, List.map_map] at hf
  exact hf

def Side.source : Side → Definition → SocketSource
  | output, d => d.outputs
  | input, d => d.inputs

instance (p : Side → Prop) [DecidablePred p] : Decidable (∀ side, p side) :=
  decidable_of_iff (p .input ∧ p .output)
    ⟨fun h side => by cases side <;> [exact h.1; exact h.2], fun h => ⟨h .input, h .output⟩⟩

namespace Graph

def literals (n : Node) : List Socket := n.dataInputs.filter (!·.isConnected)

/-- Every literal, initial value and default is a value of its declared type. -/
structure Typed (g : Graph) : Prop where
  literals : ∀ n ∈ g.nodes, ∀ s ∈ literals n, g.registry.Types s.valueType s.value
  vars : ∀ x ∈ g.vars.values, x.valueType.Holds x.initial
  defaults : ∀ e ∈ g.events.values, ∀ p ∈ e.parameters, g.registry.Types p.valueType p.default

/-- The sockets of every node are those that its definition has for its settings under the declarations of the
graph, and no two of one side share a name. -/
structure Settled (g : Graph) : Prop where
  expanded : ∀ n ∈ g.nodes, ∀ side : Side, ((side.source n.definition).expand n.configuration g.scope).map
    (·.map SocketSpec.outline) = .ok ((side.sockets n).map Socket.outline)
  distinct : ∀ n ∈ g.nodes, ∀ side : Side, ((side.sockets n).map (·.name)).Nodup

instance (g : Graph) : Decidable (Typed g) :=
  decidable_of_iff ((∀ n ∈ g.nodes, ∀ s ∈ literals n, g.registry.Types s.valueType s.value) ∧
      (∀ x ∈ g.vars.values, x.valueType.Holds x.initial) ∧
      ∀ e ∈ g.events.values, ∀ p ∈ e.parameters, g.registry.Types p.valueType p.default)
    ⟨fun h => ⟨h.1, h.2.1, h.2.2⟩, fun h => ⟨h.literals, h.vars, h.defaults⟩⟩

instance (g : Graph) : Decidable (Settled g) :=
  decidable_of_iff ((∀ n ∈ g.nodes, ∀ side : Side, ((side.source n.definition).expand n.configuration g.scope).map
      (·.map SocketSpec.outline) = .ok ((side.sockets n).map Socket.outline)) ∧
      ∀ n ∈ g.nodes, ∀ side : Side, ((side.sockets n).map (·.name)).Nodup)
    ⟨fun h => ⟨h.1, h.2⟩, fun h => ⟨h.expanded, h.distinct⟩⟩

variable {g : Graph}

theorem exists_encodeAs {typeName : String} {v : Value} (h : g.registry.Types typeName v) :
    ∃ w, g.encodeAs typeName v = .ok w := by
  obtain ⟨t, ht, hv⟩ := h
  obtain ⟨w, hw, -⟩ := hv.encode
  refine ⟨w, ?_⟩
  simp only [encodeAs, ht]
  exact lifted_eq_ok.2 hw

theorem exists_storeNode {n : Node} (h : ∀ s ∈ literals n, g.registry.Types s.valueType s.value) :
    ∃ dn, g.storeNode n = .ok dn := by
  have hone : ∀ s ∈ literals n, ∃ i, g.storeInput s = .ok i := by
    intro s hs
    obtain ⟨w, hw⟩ := exists_encodeAs (h s hs)
    exact ⟨(s.name, w), bind_eq_ok.2 ⟨w, hw, rfl⟩⟩
  obtain ⟨inputs, hinputs⟩ := exists_mapM hone
  exact ⟨_, bind_eq_ok.2 ⟨inputs, hinputs, rfl⟩⟩

theorem exists_storeVariable {x : Variable} (h : x.valueType.Holds x.initial) :
    ∃ dx, storeVariable x = .ok dx := by
  obtain ⟨w, hw, -⟩ := h.encode
  exact ⟨_, bind_eq_ok.2 ⟨w, lifted_eq_ok.2 hw, rfl⟩⟩

theorem exists_storeEvent {e : CustomEvent} (h : ∀ p ∈ e.parameters, g.registry.Types p.valueType p.default) :
    ∃ de, g.storeEvent e = .ok de := by
  have hone : ∀ p ∈ e.parameters, ∃ dp, g.storeParameter p = .ok dp := by
    intro p hp
    obtain ⟨w, hw⟩ := exists_encodeAs (h p hp)
    exact ⟨_, bind_eq_ok.2 ⟨w, hw, rfl⟩⟩
  obtain ⟨ps, hps⟩ := exists_mapM hone
  exact ⟨_, bind_eq_ok.2 ⟨ps, hps, rfl⟩⟩

/-- The document is made from the parts of the graph, one by one. -/
structure Stores (g : Graph) (d : Document) : Prop where
  name : d.name = g.name
  nodes : List.Forall₂ (fun n dn => g.storeNode n = .ok dn) g.nodes d.nodes
  vars : List.Forall₂ (fun x dx => storeVariable x = .ok dx) g.vars.values d.vars
  events : List.Forall₂ (fun e de => g.storeEvent e = .ok de) g.events.values d.events
  links : d.links = g.links

theorem toDocument_eq_ok {d : Document} (h : g.toDocument = .ok d) : Stores g d := by
  obtain ⟨nodes, hnodes, h⟩ := bind_eq_ok.1 h
  obtain ⟨vars, hvars, h⟩ := bind_eq_ok.1 h
  obtain ⟨events, hevents, h⟩ := bind_eq_ok.1 h
  cases h
  exact ⟨rfl, forall₂_of_mapM hnodes, forall₂_of_mapM hvars, forall₂_of_mapM hevents, rfl⟩

/-- A graph whose literals are of their types has a document. -/
theorem Typed.exists_toDocument (hg : Typed g) : ∃ d, g.toDocument = .ok d := by
  obtain ⟨nodes, hnodes⟩ := exists_mapM fun n hn => exists_storeNode (hg.literals n hn)
  obtain ⟨vars, hvars⟩ := exists_mapM fun x hx => exists_storeVariable (hg.vars x hx)
  obtain ⟨events, hevents⟩ := exists_mapM fun e he => exists_storeEvent (hg.defaults e he)
  exact ⟨_, bind_eq_ok.2 ⟨nodes, hnodes, bind_eq_ok.2 ⟨vars, hvars, bind_eq_ok.2 ⟨events, hevents, rfl⟩⟩⟩⟩

/-- What is written for a node whose inputs have distinct names. -/
theorem storeNode_eq_ok {n : Node} {dn : Document.Node} (hnames : (n.inputs.map (·.name)).Nodup)
    (h : g.storeNode n = .ok dn) : ∃ inputs, List.Forall₂ (fun s i => g.storeInput s = .ok i) (literals n) inputs ∧
      dn = { id := n.id, typeName := n.typeName, position := n.position
             configuration := n.configuration.entries, inputs := inputs } := by
  obtain ⟨inputs, hinputs, h⟩ := bind_eq_ok.1 h
  cases h
  have hall := forall₂_of_mapM hinputs
  refine ⟨inputs, hall, ?_⟩
  have hkeys : inputs.map (·.1) = (literals n).map (·.name) := by
    apply map_eq_of_forall₂
    refine hall.imp ?_
    intro s i hs
    obtain ⟨w, -, hw⟩ := bind_eq_ok.1 hs
    cases hw
    rfl
  have hsub : (literals n).Sublist n.inputs := List.filter_sublist.trans List.filter_sublist
  have hnodup : (inputs.map (·.1)).Nodup := hkeys ▸ (hsub.map _).nodup hnames
  rw [Table.entries_ofList hnodup]

section Names

variable {r : Registry} {ds : List Definition}

theorem mem_nodes_nodeAt? {n : Node} (h : n ∈ g.nodes) : ∃ k, g.nodeAt? k = some n := by
  obtain ⟨k, -, hk⟩ := List.mem_filterMap.1 h
  exact ⟨k, hk⟩

theorem eventParameters?_scope {name : String} {ps : List SocketSpec} (h : g.scope.eventParameters? name = some ps) :
    ∃ e ∈ g.events.values, e.parameters = ps := by
  obtain ⟨e, he, rfl⟩ := Option.map_eq_some_iff.1 h
  exact ⟨e, List.mem_map_of_mem (Table.mem_entries_of_get? he), rfl⟩

end Names

end Graph

end FlowGraph
