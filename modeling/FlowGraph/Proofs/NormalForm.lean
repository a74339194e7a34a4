import FlowGraph.Proofs.Faithful
import FlowGraph.Proofs.Reloading

/-!
The normal form of documents. Main statement: whatever document is accepted, however its values are spelt, the graph
that it makes is written as a document that is accepted again and comes back from its graph as it was, if no event has two
parameters of one name.
-/
namespace FlowGraph

namespace Graph

variable {r : Registry} {ds : List Definition} {d : Document} {g : Graph}

/-- Declarations of a loaded graph are plain. -/
theorem Filled.plain (hs : Sourced r g) (hg : Filled g) : g.scope.Plain True False := by
  refine ⟨False.elim, fun {name ps} hps p hp => ?_, fun _ {name ps} hps => ?_⟩
  · obtain ⟨e, he, rfl⟩ := Option.map_eq_some_iff.1 hps
    obtain ⟨hflow, hexec, -⟩ := (hs.events _ (Table.mem_entries_of_get? he)).2 p hp
    exact ⟨hflow, hexec⟩
  · obtain ⟨e, he, rfl⟩ := Option.map_eq_some_iff.1 hps
    exact (hg.events _ (Table.mem_entries_of_get? he)).1

/-- The sockets of a loaded graph are those that its definitions have, under names of their own. -/
theorem Loaded.settled (hr : r.Standard ds) (hds : ∀ d ∈ ds, d.Shapely) (hg : Loaded r g) (hf : Filled g) : Settled g := by
  constructor
  · intro n hn
    obtain ⟨k, hk⟩ := mem_nodes_nodeAt? hn
    exact hg.expanded hk
  · intro n hn
    obtain ⟨k, hk⟩ := mem_nodes_nodeAt? hn
    have hd := hds _ (hr.definition_spec (hg.sourced.nodes hk).known).2
    exact ((hg.expanded hk).shapely (hf.plain hg.sourced) hd).distinct trivial

/-- One loading and one saving bring every accepted document to its normal form: the graph can be written, what is written
is accepted and gives a graph that matches, and that graph is written as the same document again. -/
theorem normalized_of_accepted {services : List Service} {check : Bool}
    (hr : Registry.create Catalogue.defaultProfiles services check = .ok r) {v : Value} {policy : Bool} {labels : Nat}
    (hd : Document.ofValue v = .ok d) (hdistinct : d.Distinct)
    (hg : ofValue v { registry := r, replaceLinks := policy, labels := labels } = .ok g) (policy' : Bool) (labels' : Nat) :
    ∃ d' h, g.toDocument = .ok d' ∧
      ofValue d'.toValue { registry := r, replaceLinks := policy', labels := labels' } = .ok h ∧ g.Matches h ∧
      ∃ d'', h.toDocument = .ok d'' ∧ d''.toValue.renewed = d'.toValue.renewed := by
  have hstandard := Registry.standard_of_create hr
  have hgraph : d.toGraph { registry := r, replaceLinks := policy, labels := labels } = .ok g := by
    obtain ⟨d₀, hd₀, hg⟩ := bind_eq_ok.1 hg
    cases hd.symm.trans hd₀
    exact hg
  have hloaded := Loaded.toGraph hstandard hgraph
  have hfilled := Filled.toGraph hstandard Catalogue.isSound_definitions hdistinct hgraph
  exact restored hstandard Catalogue.isSound_definitions hloaded.sourced hloaded.indexed hfilled.typed
    (hloaded.settled hstandard Catalogue.shapely_definitions hfilled) policy' labels'

/-- Numbers as texts and truths, a vector as a table, nothing where a value could be, a literal on a linked input, an
empty identifier, and a member that no rule mentions. -/
def lenient : Value := .dict [
  ("variables", .list [.dict [("name", .str "speed"), ("value_type", .str "float"), ("initial_value", .str " 1.5 ")]]),
  ("custom_events", .list [.dict [("name", .str "Hit"), ("parameters", .list [
    .dict [("name", .str "place"), ("value_type", .str "vec2"), ("default_value", .dict [("y", .int 2)])],
    .dict [("name", .str "hard"), ("value_type", .str "boolean"), ("default_value", .str "Yes")]])]]),
  ("nodes", .list [
    .dict [("id", .str ""), ("type", .str "CustomEvent"), ("configuration", .dict [("event_name", .str "Hit")])],
    .dict [("id", .str "speed"), ("type", .str "GetVariable"), ("position", .list [.bool true, .str "2"]),
      ("configuration", .dict [("variable_name", .str "speed")])],
    .dict [("id", .str "add"), ("type", .str "Add"), ("inputs", .dict [
      ("a", .dict [("value", .bool true)]), ("b", .dict [("value", .str "nan")])])]]),
  ("links", .list [.dict [("source_node_id", .str "speed"), ("source_socket_name", .str "value"),
    ("target_node_id", .str "add"), ("target_socket_name", .str "a")]]),
  ("remark", .none)]

theorem normalized_of_accepted_lenient : ∃ g d' h, ofValue lenient { registry := Catalogue.defaults } = .ok g ∧
    g.nodes.length = 3 ∧ g.toDocument = .ok d' ∧ ofValue d'.toValue { registry := Catalogue.defaults } = .ok h ∧ g.Matches h ∧
      ∃ d'', h.toDocument = .ok d'' ∧ d''.toValue.renewed = d'.toValue.renewed := by
  have hdocument : (Document.ofValue lenient).toBool = true := by decide +kernel
  have hdistinct : ((Document.ofValue lenient).toOption.getD {}).Distinct := by decide +kernel
  have hloaded : (ofValue lenient { registry := Catalogue.defaults }).toBool = true ∧
      ((ofValue lenient { registry := Catalogue.defaults }).toOption.getD {}).nodes.length = 3 := by
    rw [Catalogue.defaults_eq_written]
    decide +kernel
  obtain ⟨hgraph, hnodes⟩ := hloaded
  obtain ⟨d', h, hwritten⟩ := normalized_of_accepted Catalogue.create_defaults (ok_of_toBool hdocument {}) hdistinct
    (ok_of_toBool hgraph {}) true labelRange
  exact ⟨_, d', h, ok_of_toBool hgraph {}, hnodes, hwritten⟩

end Graph

end FlowGraph
