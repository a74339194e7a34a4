import FlowGraph.Graph.Check
import FlowGraph.Proofs.Editing
import FlowGraph.Proofs.Insertion

/-!
Links along edit histories. Every operation keeps the index of links, so in every graph that was built
by editing the sockets list exactly the links that the graph has for them, and the checks of a graph
have nothing to say about links.
-/
namespace FlowGraph

namespace Graph

section Declarations

theorem sameLinks_stamp (g : Graph) (v : Value) : SameLinks g (g.stamp v).1 := by
  obtain ⟨n, hn⟩ := g.stamp_eq v
  rw [hn]
  exact (SameLinks.refl g).withNames g.vars g.events g.issued n

theorem sameLinks_stampParameters (g : Graph) (ps : List SocketSpec) : SameLinks g (g.stampParameters ps).1 := by
  obtain ⟨n, hn⟩ := g.stampParameters_eq ps
  rw [hn]
  exact (SameLinks.refl g).withNames g.vars g.events g.issued n

variable {g h : Graph}

theorem sameLinks_declareVariable {name typeName : String} {initial : Value}
    (hd : g.declareVariable name typeName initial = .ok h) : SameLinks g h := by
  unfold declareVariable at hd
  split at hd
  · cases hd
  · split at hd
    · cases hd
    · obtain ⟨v, -, hd⟩ := bind_eq_ok.1 hd
      cases hd
      exact (g.sameLinks_stamp v).withNames ..

/-- A variable that is set leaves the links as they are. -/
theorem sameLinks_setVariable {name : String} {v : Value} {typeName : Option String} {told : Option Value}
    (hs : g.setVariable name v typeName = .ok (h, told)) : SameLinks g h := by
  unfold setVariable at hs
  split at hs
  · split at hs
    · cases hs
    · obtain ⟨g', hd, hs⟩ := bind_eq_ok.1 hs
      cases hs
      exact sameLinks_declareVariable hd
  · simp only at hs
    split at hs
    · cases hs
    · obtain ⟨w, -, hs⟩ := bind_eq_ok.1 hs
      obtain ⟨initial, -, hs⟩ := bind_eq_ok.1 hs
      obtain ⟨y, -, hs⟩ := bind_eq_ok.1 hs
      cases hs
      exact (g.sameLinks_stamp w).withNames ..

theorem sameLinks_declareEvent {name : String} {ps : List SocketSpec} (hd : g.declareEvent name ps = .ok h) :
    SameLinks g h := by
  unfold declareEvent at hd
  split at hd
  · cases hd
  · obtain ⟨specs, -, hd⟩ := bind_eq_ok.1 hd
    cases hd
    exact (g.sameLinks_stampParameters specs).withNames ..

theorem sameLinks_presetInputs (g : Graph) (k : Nat) (values : List (String × Value)) :
    SameLinks g (g.presetInputs k values).1 := by
  induction values generalizing g with
  | nil => exact SameLinks.refl g
  | cons value rest ih =>
    obtain ⟨name, v⟩ := value
    unfold presetInputs
    split
    · exact (SameLinks.modifyNode (fun n => n.frame_setInput _ v) g k).trans (ih _)
    · exact SameLinks.refl g

end Declarations

namespace Indexed

variable {g h : Graph}

/-- A graph without nodes and links. -/
theorem of_empty (hids : g.ids = {}) (hwires : g.wires = []) : Indexed g := by
  have hserial (id : String) : g.serial? id = none := by rw [serial?, hids]; rfl
  refine ⟨?_, ?_, ?_, ?_, ?_, ?_⟩
  · rw [hids]
    exact List.nodup_nil
  · intro id k hk
    rw [hserial] at hk
    cases hk
  · rw [links, hwires]
    exact List.nodup_nil
  · rw [hwires]
    simp
  · intro side id k n p s hk
    rw [hserial] at hk
    cases hk
  · intro id k n p s hk
    rw [hserial] at hk
    cases hk

/-- A node that no link touches can go. -/
theorem erase (hg : Indexed g) {id : String} (hfree : ∀ w ∈ g.wires, w.link.touches id = false) :
    Indexed { g with ids := g.ids.erase id } := by
  have hserial {i : String} {k : Nat} (hk : { g with ids := g.ids.erase id }.serial? i = some k) :
      g.serial? i = some k := by
    simp only [serial?, Table.get?_erase] at hk
    split at hk
    · cases hk
    · exact hk
  refine ⟨Table.nodup_keys_erase hg.keys id, fun hk => hg.placed (hserial hk), hg.nodup, ?_, ?_, ?_⟩
  · intro w hw
    obtain ⟨e, hj, he⟩ := hg.joined w hw
    refine ⟨e, ⟨?_, hj.fits⟩, he⟩
    intro side
    obtain ⟨n, hs, hn, hp⟩ := hj.leads side
    refine ⟨n, ?_, hn, hp⟩
    have htouch := hfree w hw
    simp only [Link.touches, Bool.or_eq_false_iff, beq_eq_false_iff_ne] at htouch
    have hne : id ≠ side.nodeOf w.link := by
      cases side with
      | output => exact htouch.1.symm
      | input => exact htouch.2.symm
    simpa [serial?, hne] using hs
  · intro side i k n p s hk hn hs
    exact hg.listed side (hserial hk) hn hs
  · intro i k n p s hk hn hs hflow
    exact hg.single (hserial hk) hn hs hflow

theorem removeNode (hg : Indexed g) (id : String) : Indexed (g.removeNode id) := by
  unfold Graph.removeNode
  split
  · have hcut := hg.cut_disconnectAll (g.links.filter (·.touches id))
    refine hcut.indexed.erase ?_
    intro w hw
    rw [hcut.wires, List.mem_filter] at hw
    obtain ⟨hmem, hout⟩ := hw
    have hlink : w.link ∈ g.links := List.mem_map_of_mem hmem
    simpa [hlink] using hout
  · exact hg

theorem clear (hg : Indexed g) : Indexed g.clear := by
  refine of_empty rfl ?_
  have hcut := hg.cut_disconnectAll g.links
  refine hcut.wires.trans ?_
  rw [List.filter_eq_nil_iff]
  intro w hw
  have hlink : w.link ∈ g.links := List.mem_map_of_mem hw
  simpa using hlink

theorem disconnectInput (hg : Indexed g) (id name : String) : Indexed (g.disconnectInput id name).1 := by
  unfold Graph.disconnectInput
  split
  · exact hg
  · exact (hg.cut_disconnectAll _).indexed

/-- Every operation that is carried out keeps the index. -/
theorem attempt (hg : Indexed g) {e : Edit} (ha : g.attempt e = .ok h) : Indexed h := by
  cases e with
  | add typeName id overrides position =>
    obtain ⟨⟨h', k⟩, hadd, rfl⟩ := map_eq_ok.1 ha
    unfold addNode at hadd
    split at hadd
    · cases hadd
    · exact hg.addNodeOf hadd
  | addOf d id overrides position =>
    obtain ⟨⟨h', k⟩, hadd, rfl⟩ := map_eq_ok.1 ha
    exact hg.addNodeOf hadd
  | remove id =>
    cases ha
    exact hg.removeNode id
  | connect l replace =>
    obtain ⟨⟨h', w⟩, hc, rfl⟩ := map_eq_ok.1 (mapError_eq_ok.1 ha)
    exact hg.connect hc
  | disconnect l =>
    cases ha
    exact hg.disconnect l
  | disconnectInput id name =>
    cases ha
    exact hg.disconnectInput id name
  | clear =>
    cases ha
    exact hg.clear
  | declareVariable name typeName initial => exact hg.congr (sameLinks_declareVariable ha)
  | setVariable name v typeName =>
    obtain ⟨⟨h', told⟩, hs, rfl⟩ := map_eq_ok.1 ha
    exact hg.congr (sameLinks_setVariable hs)
  | removeVariable name =>
    cases ha
    exact hg.congr ((SameLinks.refl g).withNames ..)
  | declareEvent name ps => exact hg.congr (sameLinks_declareEvent (mapError_eq_ok.1 ha))
  | removeEvent name =>
    cases ha
    exact hg.congr ((SameLinks.refl g).withNames ..)
  | setLiteral id name v =>
    simp only [Graph.attempt] at ha
    split at ha
    · cases ha
      exact hg.congr (g.sameLinks_presetInputs ..)
    · cases ha

theorem edits (hg : Indexed g) (es : List Edit) : Indexed (g.edits es) :=
  edits_invariant (fun _ _ _ _ hg ha => hg.attempt ha) hg

end Indexed

section Checks

variable {g : Graph}

/-- A wire of the graph is found where it already leads, and its types fit. -/
theorem checkWire_eq (hg : Indexed g) {w : Wire} (hw : w ∈ g.wires) : g.checkWire w = (g, []) := by
  obtain ⟨e, hj, he⟩ := hg.joined w hw
  obtain ⟨s, t, hs, ht, hc⟩ := hj.fits
  have hresolve := (resolve_eq_ok_iff g w.link e).2 hj.leads
  have hends : g.ends.setIfInBounds w.serial (some e) = g.ends := by
    apply Array.ext_getElem?
    intro i
    rw [Array.getElem?_setIfInBounds]
    split
    · rename_i hi
      have ho : g.ends[w.serial]? = some (some e) := Option.join_eq_some_iff.1 he
      split
      · rw [← hi, ho]
      · rename_i hlt
        simp [Array.getElem?_eq_none (Nat.le_of_not_lt hlt)] at ho
    · rfl
  obtain ⟨a, ha, rfl⟩ := Option.map_eq_some_iff.1 hs
  obtain ⟨b, hb, rfl⟩ := Option.map_eq_some_iff.1 ht
  have ha : g.outputAt? e.source = some a := ha
  have hb : g.inputAt? e.target = some b := hb
  simp only [checkWire, hresolve, hends, ha, hb, hc, if_true]

theorem checkWires_eq (hg : Indexed g) : g.checkWires = (g, []) := by
  have hfold (ws : List Wire) (hws : ∀ w ∈ ws, w ∈ g.wires) :
      ws.foldl (fun (acc : Graph × List String) w => ((acc.1.checkWire w).1, acc.2 ++ (acc.1.checkWire w).2))
        (g, []) = (g, []) := by
    induction ws with
    | nil => rfl
    | cons w ws ih =>
      rw [List.foldl_cons, checkWire_eq hg (hws w List.mem_cons_self)]
      exact ih fun v hv => hws v (List.mem_cons_of_mem _ hv)
  exact hfold g.wires fun _ hw => hw

def linkComplaints : List String := ["Dangling link ", "Incompatible link ", "Input "]

def OfLinks (text : String) : Prop := ∃ start ∈ linkComplaints, start.toList <+: text.toList

theorem not_ofLinks_node (n : Node) (rest : String) : ¬ OfLinks (n.label ++ rest) := by
  rintro ⟨start, hs, hp⟩
  simp only [linkComplaints, List.mem_cons, List.not_mem_nil, or_false] at hs
  rcases hs with rfl | rfl | rfl <;> simp [Node.label] at hp

theorem not_ofLinks_cycle (rest : String) : ¬ OfLinks ("Data dependency cycle: " ++ rest) := by
  rintro ⟨start, hs, hp⟩
  simp only [linkComplaints, List.mem_cons, List.not_mem_nil, or_false] at hs
  rcases hs with rfl | rfl | rfl <;> simp at hp

/-- What a reference is reported for names the node that holds it. -/
theorem checkReference_eq_ok {n : Node} {key what : String} {declared : Value → Except Fault Bool}
    {ps : List String} (h : checkReference n key what declared = .ok ps) {p : String} (hp : p ∈ ps) :
    ∃ rest, p = n.label ++ rest := by
  unfold checkReference at h
  split at h
  · cases h
    cases hp
  · obtain ⟨known, -, h⟩ := bind_eq_ok.1 h
    split at h
    · cases h
      cases hp
    · obtain ⟨shown, -, h⟩ := bind_eq_ok.1 h
      cases h
      rw [List.mem_singleton] at hp
      refine ⟨": references undeclared " ++ what ++ " '" ++ shown ++ "'", ?_⟩
      simpa only [String.append_assoc] using hp

/-- The nodes of a graph are those under its identifiers. -/
theorem Indexed.mem_nodes (hg : Indexed g) {n : Node} (hn : n ∈ g.nodes) :
    ∃ k, g.serial? n.id = some k ∧ g.nodeAt? k = some n := by
  obtain ⟨k, hk, hn⟩ := List.mem_filterMap.1 hn
  obtain ⟨⟨id, k'⟩, he, rfl⟩ := List.mem_map.1 hk
  have hserial : g.serial? id = some k' := Table.get?_of_mem_entries hg.keys he
  obtain ⟨m, hm, hid⟩ := hg.placed hserial
  rw [hn] at hm
  cases hm
  rw [hid]
  exact ⟨k', hserial, hn⟩

theorem Indexed.of_node? (hg : Indexed g) {id : String} {n : Node} (hn : g.node? id = some n) :
    n ∈ g.nodes ∧ n.id = id := by
  obtain ⟨k, hk, hn⟩ := Option.bind_eq_some_iff.1 hn
  obtain ⟨m, hm, hid⟩ := hg.placed hk
  rw [hn] at hm
  cases hm
  have hvalue : k ∈ g.ids.values := List.mem_map_of_mem (Table.mem_entries_of_get? hk)
  exact ⟨List.mem_filterMap.2 ⟨k, hvalue, hn⟩, hid⟩

/-- The nodes stand in the order of their identifiers. -/
theorem Indexed.map_id_nodes (hg : Indexed g) : g.nodes.map (·.id) = g.ids.keys := by
  have hall (es : List (String × Nat)) (hes : ∀ e ∈ es, ∃ n, g.nodeAt? e.2 = some n ∧ n.id = e.1) :
      ((es.map (·.2)).filterMap g.nodeAt?).map (·.id) = es.map (·.1) := by
    induction es with
    | nil => rfl
    | cons e es ih =>
      obtain ⟨n, hn, hid⟩ := hes e List.mem_cons_self
      rw [List.map_cons, List.filterMap_cons_some hn, List.map_cons, List.map_cons, hid,
        ih fun e he => hes e (List.mem_cons_of_mem _ he)]
  apply hall
  intro e he
  exact hg.placed (Table.get?_of_mem_entries hg.keys he)

/-- A data input has at most one link. -/
theorem Indexed.length_dataInput (hg : Indexed g) {n : Node} (hn : n ∈ g.nodes) {s : Socket}
    (hs : s ∈ n.dataInputs) : s.wires.length ≤ 1 := by
  obtain ⟨k, hk, hn⟩ := hg.mem_nodes hn
  obtain ⟨hs, hflow⟩ := List.mem_filter.1 hs
  obtain ⟨p, hp⟩ := List.mem_iff_getElem?.1 hs
  exact hg.single hk hn hp (by simpa using hflow)

/-- What a check of the graph reports is not about links. -/
theorem not_ofLinks_problem (hg : Indexed g) {ps : List String} (hps : g.problems.2 = .ok ps) {p : String}
    (hp : p ∈ ps) : ¬ OfLinks p := by
  simp only [problems, checkWires_eq hg] at hps
  obtain ⟨ofNodes, hnodes, hps⟩ := bind_eq_ok.1 hps
  cases hps
  rw [List.nil_append, List.mem_append] at hp
  rcases hp with hp | hp
  · obtain ⟨qs, hqs, hp⟩ := List.mem_flatten.1 hp
    obtain ⟨n, hn, hq⟩ := mem_of_mapM hnodes hqs
    obtain ⟨ofVariables, hv, hq⟩ := bind_eq_ok.1 hq
    obtain ⟨ofEvents, he, hq⟩ := bind_eq_ok.1 hq
    cases hq
    have hcrowded : n.dataInputs.filter (1 < ·.wires.length) = [] := by
      rw [List.filter_eq_nil_iff]
      intro s hs
      have := hg.length_dataInput hn hs
      simp only [decide_eq_true_eq]
      omega
    rw [hcrowded, List.map_nil, List.nil_append, List.mem_append] at hp
    rcases hp with hp | hp
    · obtain ⟨rest, rfl⟩ := checkReference_eq_ok hv hp
      exact not_ofLinks_node n rest
    · obtain ⟨rest, rfl⟩ := checkReference_eq_ok he hp
      exact not_ofLinks_node n rest
  · obtain ⟨c, -, rfl⟩ := List.mem_map.1 hp
    exact not_ofLinks_cycle _

end Checks

/-- The socket that a name finds lists the wires of the graph that name it, in the order of the graph. -/
theorem Indexed.wires_find? {g : Graph} (hg : Indexed g) (side : Side) {id name : String} {n : Node} {s : Socket}
    (hn : g.node? id = some n) (hs : (side.sockets n).find? (·.name = name) = some s) :
    s.wires = g.wires.filter fun w => side.nodeOf w.link = id ∧ side.nameOf w.link = name := by
  obtain ⟨k, hk, hn⟩ := Option.bind_eq_some_iff.1 hn
  rw [Node.find?_eq_place?] at hs
  obtain ⟨p, hp, hs⟩ := Option.bind_eq_some_iff.1 hs
  rw [hg.listed side hk hn hs]
  apply List.filter_congr
  intro w _
  simp only [Side.meets, decide_eq_decide]
  constructor
  · rintro ⟨hid, hplace⟩
    obtain ⟨a, ha, hname⟩ := Node.getElem?_of_place? hplace
    obtain ⟨b, hb, hname'⟩ := Node.getElem?_of_place? hp
    rw [ha] at hb
    cases hb
    exact ⟨hid, hname.symm.trans hname'⟩
  · rintro ⟨hid, rfl⟩
    exact ⟨hid, hp⟩

/-- The links of a graph, the lists at its sockets and its checks agree. -/
structure WellLinked (g : Graph) : Prop where
  distinct : g.links.Nodup
  joined : ∀ l ∈ g.links, ∃ source target output input, g.node? l.source = some source ∧
    g.node? l.target = some target ∧ source.output? l.output = some output ∧
    target.input? l.input = some input ∧ g.registry.canConnect output.valueType input.valueType = true
  outgoing : ∀ id n name s, g.node? id = some n → n.output? name = some s →
    s.wires = g.wires.filter fun w => w.link.source = id ∧ w.link.output = name
  incoming : ∀ id n name s, g.node? id = some n → n.input? name = some s →
    s.wires = g.wires.filter fun w => w.link.target = id ∧ w.link.input = name
  single : ∀ n ∈ g.nodes, ∀ s ∈ n.dataInputs, s.wires.length ≤ 1
  unmoved : g.checkWires = (g, [])
  silent : ∀ ps, g.problems.2 = .ok ps → ∀ p ∈ ps, ¬ OfLinks p

/-- In an indexed graph every list of links tells the same. -/
theorem Indexed.wellLinked {g : Graph} (hg : Indexed g) : WellLinked g := by
  refine ⟨hg.nodup, ?_, ?_, ?_, fun n hn s hs => hg.length_dataInput hn hs, checkWires_eq hg,
    fun ps hps p hp => not_ofLinks_problem hg hps hp⟩
  · intro l hl
    obtain ⟨w, hw, rfl⟩ := List.mem_map.1 hl
    obtain ⟨e, hj, -⟩ := hg.joined w hw
    obtain ⟨n, hs, hn, ho⟩ := hj.leads .output
    obtain ⟨m, ht, hm, hi⟩ := hj.leads .input
    obtain ⟨s, t, hsource, htarget, hc⟩ := hj.fits
    obtain ⟨a, ha, rfl⟩ := Option.map_eq_some_iff.1 hsource
    obtain ⟨b, hb, rfl⟩ := Option.map_eq_some_iff.1 htarget
    simp only [Side.endOf, Side.nodeOf, Side.nameOf, Side.sockets] at hs hn ho ht hm hi
    simp only [hn, hm, Option.bind_some] at ha hb
    refine ⟨n, m, a, b, ?_, ?_, ?_, ?_, hc⟩
    · simp only [node?, hs, Option.bind_some, hn]
    · simp only [node?, ht, Option.bind_some, hm]
    · rw [Node.output?, Node.find?_eq_place?, ho]
      exact ha
    · rw [Node.input?, Node.find?_eq_place?, hi]
      exact hb
  · intro id n name s hn hs
    exact hg.wires_find? .output hn hs
  · intro id n name s hn hs
    exact hg.wires_find? .input hn hs

/-- Whatever was done to a graph that was empty at first, carried out or refused, the three places where a
link is listed agree. -/
theorem wellLinked_of_edits (name : String) (r : Registry) (replace : Bool) (labels : Nat) (es : List Edit) :
    WellLinked (edits { name := name, registry := r, replaceLinks := replace, labels := labels } es) :=
  (Indexed.edits (Indexed.of_empty rfl rfl) es).wellLinked

end Graph

end FlowGraph
