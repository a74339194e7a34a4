import FlowGraph.Proofs.LinkHistory
import FlowGraph.Proofs.Searching

/-!
The search for cycles among function nodes. A node draws on the function nodes from which data links lead to
it. Main statement: in a graph that was built by editing the search comes back empty-handed exactly if no node
draws on itself by way of others, and every cycle that it reports is one.
-/
namespace FlowGraph

open Relation

namespace Graph

section Drawing

/-- A data link leads from the node `b` to the node `a`. -/
def Carries (g : Graph) (a b : String) : Prop :=
  ∃ l ∈ g.links, l.source = b ∧ l.target = a ∧ ∃ s ∈ (g.node? a).bind (·.input? l.input), s.isFlow = false

def IsFunction (g : Graph) (id : String) : Prop := ∃ n ∈ g.node? id, n.kind = .function

/-- A data link leads from the function node `b` to the node `a`. -/
def Draws (g : Graph) (a b : String) : Prop := g.Carries a b ∧ g.IsFunction b

variable {g : Graph}

instance (a b : String) : Decidable (g.Carries a b) := inferInstanceAs (Decidable (∃ l ∈ g.links, _))

instance (id : String) : Decidable (g.IsFunction id) := inferInstanceAs (Decidable (∃ n ∈ g.node? id, _))

instance (a b : String) : Decidable (g.Draws a b) := inferInstanceAs (Decidable (_ ∧ _))

/-- The links that a node draws on are those at its data inputs. -/
theorem Indexed.carries_iff (hg : Indexed g) {a b : String} {n : Node} (hn : g.node? a = some n) :
    g.Carries a b ↔ ∃ s ∈ n.dataInputs, ∃ w ∈ s.wires, w.link.source = b := by
  obtain ⟨k, hk, hnode⟩ := Option.bind_eq_some_iff.1 hn
  constructor
  · rintro ⟨l, hl, rfl, rfl, s, hs, hflow⟩
    have hs : n.input? l.input = some s := by simpa [hn] using hs
    obtain ⟨w, hw, rfl⟩ := List.mem_map.1 hl
    obtain ⟨e, hj, -⟩ := hg.joined w hw
    obtain ⟨m, hserial, hm, hplace⟩ := hj.leads .input
    have hat : n.inputs.find? (·.name = w.link.input) = some s := hs
    rw [show (Side.input).nodeOf w.link = w.link.target from rfl, hk] at hserial
    cases hserial
    rw [hnode] at hm
    cases hm
    rw [Node.find?_eq_place?, show Node.place? w.link.input n.inputs = _ from hplace] at hat
    refine ⟨s, List.mem_filter.2 ⟨List.mem_of_getElem? hat, by simpa using hflow⟩, w, ?_, rfl⟩
    exact hg.mem_wires_socket hw (hj.leads .input) hnode hat
  · rintro ⟨s, hs, w, hw, rfl⟩
    obtain ⟨hs, hflow⟩ := List.mem_filter.1 hs
    obtain ⟨p, hp⟩ := List.mem_iff_getElem?.1 hs
    rw [hg.listed .input hk hnode hp, List.mem_filter] at hw
    obtain ⟨hw, hmeets⟩ := hw
    simp only [Side.meets, decide_eq_true_eq] at hmeets
    refine ⟨w.link, List.mem_map_of_mem hw, rfl, hmeets.1, s, ?_, by simpa using hflow⟩
    show (g.node? a).bind (·.input? w.link.input) = some s
    rw [hn]
    show n.inputs.find? (·.name = w.link.input) = some s
    rw [Node.find?_eq_place?, show Node.place? w.link.input n.inputs = some p from hmeets.2]
    exact hp

/-- The source of a wire of the graph. -/
theorem Indexed.source_of_wire (hg : Indexed g) {w : Wire} (hw : w ∈ g.wires) :
    ∃ e m, g.endsOf w = some e ∧ g.serial? w.link.source = some e.source.node ∧ g.nodeAt? e.source.node = some m := by
  obtain ⟨e, hj, hends⟩ := hg.joined w hw
  obtain ⟨m, hserial, hm, -⟩ := hj.leads .output
  exact ⟨e, m, hends, hserial, hm⟩

/-- A wire at a socket of a node of the graph is one of the graph's. -/
theorem Indexed.mem_wires_of_socket (hg : Indexed g) {n : Node} (hn : n ∈ g.nodes) {s : Socket} (hs : s ∈ n.dataInputs)
    {w : Wire} (hw : w ∈ s.wires) : w ∈ g.wires := by
  obtain ⟨k, hk, hnode⟩ := hg.mem_nodes hn
  obtain ⟨p, hp⟩ := List.mem_iff_getElem?.1 (List.mem_filter.1 hs).1
  rw [hg.listed .input hk hnode hp] at hw
  exact (List.mem_filter.1 hw).1

def comesFromFunction (g : Graph) (w : Wire) : Bool := match g.endsOf w with
  | some e => (g.nodeAt? e.source.node).any (·.kind = .function)
  | none => false

theorem Indexed.comesFromFunction_iff (hg : Indexed g) {w : Wire} (hw : w ∈ g.wires) :
    g.comesFromFunction w = true ↔ g.IsFunction w.link.source := by
  obtain ⟨e, m, hends, hserial, hm⟩ := hg.source_of_wire hw
  have hnode : g.node? w.link.source = some m := Option.bind_eq_some_iff.2 ⟨_, hserial, hm⟩
  simp [comesFromFunction, IsFunction, hends, hm, hnode]

def sources (g : Graph) (n : Node) : List String :=
  ((n.dataInputs.flatMap (·.wires)).filter g.comesFromFunction).map (·.link.source)

theorem Indexed.mem_sources (hg : Indexed g) {n : Node} (hn : n ∈ g.nodes) (b : String) :
    b ∈ g.sources n ↔ g.Draws n.id b := by
  have hnode : g.node? n.id = some n := by
    obtain ⟨k, hk, hat⟩ := hg.mem_nodes hn
    exact Option.bind_eq_some_iff.2 ⟨k, hk, hat⟩
  simp only [sources, List.mem_map, List.mem_filter, List.mem_flatMap, Draws, hg.carries_iff hnode]
  constructor
  · rintro ⟨w, ⟨⟨s, hs, hw⟩, hfrom⟩, rfl⟩
    have hmem := hg.mem_wires_of_socket hn hs hw
    exact ⟨⟨s, hs, w, hw, rfl⟩, (hg.comesFromFunction_iff hmem).1 hfrom⟩
  · rintro ⟨⟨s, hs, w, hw, rfl⟩, hfunction⟩
    have hmem := hg.mem_wires_of_socket hn hs hw
    exact ⟨w, ⟨⟨s, hs, hw⟩, (hg.comesFromFunction_iff hmem).2 hfunction⟩, rfl⟩

theorem dependencies_eq (g : Graph) :
    g.dependencies = Table.ofList ((g.nodes.filter (·.kind = .function)).map fun n => (n.id, g.sources n)) := rfl

/-- The table of dependencies lists what function nodes draw on. -/
theorem Indexed.lists_dependencies (hg : Indexed g) {a b : String} :
    Lists g.dependencies a b ↔ g.IsFunction a ∧ g.Draws a b := by
  have hids : (g.nodes.map (·.id)).Nodup := hg.map_id_nodes ▸ hg.keys
  have hkeys : (((g.nodes.filter (·.kind = .function)).map fun n => (n.id, g.sources n)).map (·.1)).Nodup := by
    rw [List.map_map]
    exact hids.sublist (List.filter_sublist.map _)
  have hget {n : Node} (hn : n ∈ g.nodes) (hkind : n.kind = .function) :
      g.dependencies.get? n.id = some (g.sources n) :=
    Table.get?_ofList hkeys (List.mem_map_of_mem (List.mem_filter.2 ⟨hn, by simpa using hkind⟩))
  constructor
  · intro h
    have hkey : a ∈ g.dependencies.keys := h.mem_keys
    rw [Table.keys, dependencies_eq, Table.entries_ofList hkeys, List.map_map] at hkey
    obtain ⟨n, hn, rfl⟩ := List.mem_map.1 hkey
    obtain ⟨hn, hkind⟩ := List.mem_filter.1 hn
    have hkind : n.kind = .function := by simpa using hkind
    obtain ⟨k, hk, hat⟩ := hg.mem_nodes hn
    have hb : b ∈ g.sources n := by simpa [Lists, hget hn hkind] using h
    exact ⟨⟨n, Option.bind_eq_some_iff.2 ⟨k, hk, hat⟩, hkind⟩, (hg.mem_sources hn b).1 hb⟩
  · rintro ⟨⟨n, hn, hkind⟩, hdraws⟩
    obtain ⟨hmem, rfl⟩ := hg.of_node? hn
    have hb : b ∈ g.sources n := (hg.mem_sources hmem b).2 hdraws
    simpa [Lists, hget hmem hkind] using hb

/-- What is drawn on is a function node. -/
theorem isFunction_of_draws {a b : String} (h : TransGen g.Draws a b) : g.IsFunction b := by
  cases h with
  | single h => exact h.2
  | tail _ h => exact h.2

/-- A node draws on itself by way of others exactly if the table leads back to it. -/
theorem Indexed.transGen_lists_iff (hg : Indexed g) (a : String) :
    TransGen (Lists g.dependencies) a a ↔ TransGen g.Draws a a := by
  constructor
  · intro h
    exact TransGen.mono (fun _ _ hl => (hg.lists_dependencies.1 hl).2) _ _ h
  · intro h
    have hfunction := isFunction_of_draws h
    have hall {b : String} (hb : TransGen g.Draws a b) : TransGen (Lists g.dependencies) a b := by
      induction hb with
      | single hd => exact .single (hg.lists_dependencies.2 ⟨hfunction, hd⟩)
      | tail hto hd ih => exact .tail ih (hg.lists_dependencies.2 ⟨isFunction_of_draws hto, hd⟩)
    exact hall h

theorem rounds_of_mem_cycles {c : List String} (hc : c ∈ g.cycles) :
    IsRound (Lists g.dependencies) c ∧ c.dropLast.Nodup := by
  obtain ⟨f, hf, hcycles⟩ := explores_cycles g
  exact hf.rounds (fun id _ => List.isChain_singleton id) List.nodup_nil (fun _ hc => by cases hc) c (hcycles ▸ hc)

/-- Every cycle that is reported is one: each node of it draws on the next. -/
theorem Indexed.isRound_of_mem_cycles (hg : Indexed g) {c : List String} (hc : c ∈ g.cycles) : IsRound g.Draws c := by
  obtain ⟨a, mid, hshape, hchain⟩ := (rounds_of_mem_cycles hc).1
  exact ⟨a, mid, hshape, hchain.imp fun _ _ hl => (hg.lists_dependencies.1 hl).2⟩

/-- A round of draws runs through function nodes only. -/
theorem isFunction_of_mem_round {g : Graph} {c : List String} (h : IsRound g.Draws c) {id : String} (hid : id ∈ c) :
    g.IsFunction id := by
  obtain ⟨a, mid, rfl, hchain⟩ := h
  have hdrawn : ∀ id ∈ mid ++ [a], g.IsFunction id := by
    have hall (x : String) (l : List String) (hl : (x :: l).IsChain g.Draws) : ∀ id ∈ l, g.IsFunction id := by
      induction l generalizing x with
      | nil => exact fun _ hid => by cases hid
      | cons y l ih =>
        obtain ⟨hxy, hl⟩ := List.isChain_cons_cons.1 hl
        intro id hid
        rcases List.mem_cons.1 hid with rfl | hid
        · exact hxy.2
        · exact ih y hl id hid
    exact hall a (mid ++ [a]) hchain
  rcases List.mem_cons.1 hid with rfl | hid
  · exact hdrawn _ (by simp)
  · exact hdrawn id hid

/-- Among links of function nodes that lead round in a circle there is one by which a reported cycle closes. -/
theorem Indexed.exists_closesBy (hg : Indexed g) {R : String → String → Prop}
    (hR : ∀ a b, R a b → g.IsFunction a ∧ g.Draws a b) {a : String} (hloop : TransGen R a a) :
    ∃ c ∈ g.cycles, ClosesBy R c := by
  obtain ⟨f, hf, hcycles⟩ := explores_cycles g
  rw [← hcycles]
  exact hf.exists_closesBy (fun a b hab => hg.lists_dependencies.2 (hR a b hab)) hloop

/-- The search comes back empty-handed exactly if no node draws on itself by way of others. -/
theorem Indexed.cycles_eq_nil_iff (hg : Indexed g) : g.cycles = [] ↔ ∀ a, ¬ TransGen g.Draws a a := by
  constructor
  · intro hnone a hloop
    rw [← hg.transGen_lists_iff] at hloop
    obtain ⟨c, hc, -⟩ := hg.exists_closesBy (fun _ _ => hg.lists_dependencies.1) hloop
    rw [hnone] at hc
    cases hc
  · intro hno
    by_contra hsome
    obtain ⟨c, hc⟩ := List.exists_mem_of_ne_nil _ hsome
    obtain ⟨a, hloop⟩ := (hg.isRound_of_mem_cycles hc).transGen
    exact hno a hloop

end Drawing

end Graph

end FlowGraph
