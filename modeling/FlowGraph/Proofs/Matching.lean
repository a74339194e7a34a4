import FlowGraph.Proofs.Storing

/-!
Graphs that match: the same graph as far as a document can tell, up to which NaN is which. Matching graphs
are written alike.
-/
namespace FlowGraph

namespace Value

theorem renewedItems_eq (xs : List Value) : renewedItems xs = xs.map renewed := by
  induction xs with
  | nil => rfl
  | cons x xs ih => simp [renewedItems, ih]

theorem renewedFields_eq (fields : List (String × Value)) :
    renewedFields fields = fields.map fun f => (f.1, f.2.renewed) := by
  induction fields with
  | nil => rfl
  | cons f fields ih => simp [renewedFields, ih]

end Value

/-- The second socket is the first one with the same literal, where the first one has one. -/
structure Socket.Matches (s t : Socket) : Prop where
  outline : t.outline = s.outline
  value : s.isFlow = false → s.isConnected = false → t.value.renewed = s.value.renewed

structure Node.Matches (n m : Node) : Prop where
  id : m.id = n.id
  typeName : m.typeName = n.typeName
  position : m.position = n.position
  configuration : m.configuration = n.configuration
  inputs : List.Forall₂ Socket.Matches n.inputs m.inputs
  outputs : m.outputs.map Socket.outline = n.outputs.map Socket.outline

theorem Node.Matches.outlines {n m : Node} (hnm : n.Matches m) (side : Side) :
    (side.sockets m).map Socket.outline = (side.sockets n).map Socket.outline := by
  cases side with
  | output => exact hnm.outputs
  | input => exact map_eq_of_forall₂ (hnm.inputs.imp fun _ _ h => h.outline)

structure Variable.Matches (x y : Variable) : Prop where
  name : y.name = x.name
  valueType : y.valueType = x.valueType
  initial : y.initial.renewed = x.initial.renewed

structure SocketSpec.Matches (p q : SocketSpec) : Prop where
  outline : q.outline = p.outline
  default : q.default.renewed = p.default.renewed

structure CustomEvent.Matches (e f : CustomEvent) : Prop where
  name : f.name = e.name
  parameters : List.Forall₂ SocketSpec.Matches e.parameters f.parameters

namespace Graph

/-- The same name, declarations, nodes and links, all in order. -/
structure Matches (g h : Graph) : Prop where
  name : h.name = g.name
  varNames : h.vars.keys = g.vars.keys
  vars : List.Forall₂ Variable.Matches g.vars.values h.vars.values
  eventNames : h.events.keys = g.events.keys
  events : List.Forall₂ CustomEvent.Matches g.events.values h.events.values
  nodes : List.Forall₂ Node.Matches g.nodes h.nodes
  links : h.links = g.links

variable {g h : Graph}

theorem encodeAs_congr {typeName : String} {v w a b : Value} (hr : h.registry = g.registry)
    (hv : g.registry.Types typeName v) (hw : h.registry.Types typeName w) (hvw : w.renewed = v.renewed)
    (ha : g.encodeAs typeName v = .ok a) (hb : h.encodeAs typeName w = .ok b) : b.renewed = a.renewed := by
  obtain ⟨t, ht, hv⟩ := hv
  obtain ⟨t', ht', hw⟩ := hw
  have htt : t' = t := by
    rw [hr, ht] at ht'
    cases ht'
    rfl
  subst htt
  simp only [encodeAs, ht, ht'] at ha hb
  exact hv.encode_congr hw hvw (lifted_eq_ok.1 ha) (lifted_eq_ok.1 hb)

/-- What leads to an input, by links. -/
theorem Indexed.links_input (hg : Indexed g) {n : Node} (hn : n ∈ g.nodes) {i : Nat} {s : Socket}
    (hs : n.inputs[i]? = some s) : s.wires.map (·.link) =
      g.links.filter fun l => l.target = n.id ∧ Node.place? l.input n.inputs = some i := by
  obtain ⟨k, hk, hn⟩ := hg.mem_nodes hn
  have hside : (Side.sockets .input n)[i]? = some s := hs
  rw [hg.listed .input hk hn hside, links, List.filter_map]
  rfl

/-- Matching inputs of graphs with the same links are linked or not, both of them. -/
theorem isConnected_congr (hg : Indexed g) (hh : Indexed h) (hlinks : h.links = g.links) {n m : Node}
    (hn : n ∈ g.nodes) (hm : m ∈ h.nodes) (hnm : n.Matches m) {i : Nat} {s t : Socket}
    (hs : n.inputs[i]? = some s) (ht : m.inputs[i]? = some t) : t.isConnected = s.isConnected := by
  have hnames : m.inputs.map (·.name) = n.inputs.map (·.name) :=
    map_eq_of_forall₂ (hnm.inputs.imp fun _ _ h => congrArg (·.1) h.outline)
  have hwires : t.wires.map (·.link) = s.wires.map (·.link) := by
    rw [hg.links_input hn hs, hh.links_input hm ht, hlinks, hnm.id]
    simp only [Node.place?_congr hnames]
  have hempty : t.wires.isEmpty = s.wires.isEmpty := by
    simpa using congrArg List.isEmpty hwires
  rw [Socket.isConnected, Socket.isConnected, hempty]

/-- The inputs whose literals are kept match. -/
theorem literals_congr (hg : Indexed g) (hh : Indexed h) (hlinks : h.links = g.links) {n m : Node}
    (hn : n ∈ g.nodes) (hm : m ∈ h.nodes) (hnm : n.Matches m) :
    List.Forall₂ Socket.Matches (literals n) (literals m) := by
  have hall : List.Forall₂ (fun s t => s.Matches t ∧ t.isConnected = s.isConnected) n.inputs m.inputs := by
    rw [List.forall₂_iff_get]
    refine ⟨hnm.inputs.length_eq, ?_⟩
    intro i hi hj
    refine ⟨hnm.inputs.get hi hj, ?_⟩
    exact isConnected_congr hg hh hlinks hn hm hnm (List.getElem?_eq_getElem hi) (List.getElem?_eq_getElem hj)
  have hdata := List.rel_filter (p := fun s : Socket => !s.isFlow) (q := fun s : Socket => !s.isFlow) (by
    rintro s t ⟨hst, -⟩
    have htype : t.valueType = s.valueType := congrArg (·.2) hst.outline
    simp [Socket.isFlow, htype]) hall
  have hfree := List.rel_filter (p := fun s : Socket => !s.isConnected) (q := fun s : Socket => !s.isConnected) (by
    rintro s t ⟨-, hst⟩
    simp [hst]) hdata
  exact hfree.imp fun s t hst => hst.1

section Documents

variable {d e : Document}

theorem storeInput_congr (hr : h.registry = g.registry) {s t : Socket} (hst : s.Matches t)
    (hs : g.registry.Types s.valueType s.value) (ht : h.registry.Types t.valueType t.value)
    (hfree : s.isFlow = false ∧ s.isConnected = false) {a b : String × Value} (ha : g.storeInput s = .ok a)
    (hb : h.storeInput t = .ok b) : b.1 = a.1 ∧ b.2.renewed = a.2.renewed := by
  have hname : t.name = s.name := congrArg (·.1) hst.outline
  have htype : t.valueType = s.valueType := congrArg (·.2) hst.outline
  obtain ⟨v, hv, ha⟩ := bind_eq_ok.1 ha
  obtain ⟨w, hw, hb⟩ := bind_eq_ok.1 hb
  cases ha
  cases hb
  rw [htype] at ht hw
  exact ⟨hname, encodeAs_congr hr hs ht (hst.value hfree.1 hfree.2) hv hw⟩

/-- Matching nodes are written alike. -/
theorem storeNode_congr (hr : h.registry = g.registry) (hg : Indexed g) (hh : Indexed h)
    (hlinks : h.links = g.links) (hgt : Typed g) (hht : Typed h) {n m : Node} (hn : n ∈ g.nodes) (hm : m ∈ h.nodes)
    (hnm : n.Matches m) (hnames : (n.inputs.map (·.name)).Nodup) {a b : Document.Node}
    (ha : g.storeNode n = .ok a) (hb : h.storeNode m = .ok b) : b.toValue.renewed = a.toValue.renewed := by
  have hsame : m.inputs.map (·.name) = n.inputs.map (·.name) :=
    map_eq_of_forall₂ (hnm.inputs.imp fun _ _ h => congrArg (·.1) h.outline)
  obtain ⟨as, has, rfl⟩ := storeNode_eq_ok hnames ha
  obtain ⟨bs, hbs, rfl⟩ := storeNode_eq_ok (hsame ▸ hnames) hb
  have hall := forall₂_square has (literals_congr hg hh hlinks hn hm hnm) hbs (Q := fun a b => b.1 = a.1 ∧
      b.2.renewed = a.2.renewed) (by
    intro s hs t ht a b ha hst hb
    refine storeInput_congr hr hst (hgt.literals n hn s hs) (hht.literals m hm t ht) ?_ ha hb
    simp only [literals, Node.dataInputs, List.mem_filter, Bool.not_eq_true', and_assoc] at hs
    exact hs.2)
  have hinputs : bs.map (fun i => (i.1, i.2.renewed)) = as.map fun i => (i.1, i.2.renewed) := by
    apply map_eq_of_forall₂
    refine hall.imp ?_
    rintro i j ⟨hname, hvalue⟩
    rw [hname, hvalue]
  have hwrapped := congrArg (List.map fun i : String × Value => (i.1, Value.dict [("value", i.2)])) hinputs
  simp only [List.map_map, Function.comp_def] at hwrapped
  simp only [Document.Node.toValue, hnm.id, hnm.typeName, hnm.position, hnm.configuration, Value.renewed,
    Value.renewedFields_eq, List.map_cons, List.map_nil, List.map_map, Function.comp_def, hwrapped]

theorem storeVariable_congr {x y : Variable} (hxy : x.Matches y) (hx : x.valueType.Holds x.initial)
    (hy : y.valueType.Holds y.initial) {a b : Document.Variable} (ha : storeVariable x = .ok a)
    (hb : storeVariable y = .ok b) : b.toValue.renewed = a.toValue.renewed := by
  obtain ⟨v, hv, ha⟩ := bind_eq_ok.1 ha
  obtain ⟨w, hw, hb⟩ := bind_eq_ok.1 hb
  cases ha
  cases hb
  rw [hxy.valueType] at hy hw
  have hvw := hx.encode_congr hy hxy.initial (lifted_eq_ok.1 hv) (lifted_eq_ok.1 hw)
  simp [Document.Variable.toValue, Value.renewed, Value.renewedFields_eq, hxy.name, hxy.valueType, hvw]

theorem storeParameter_congr (hr : h.registry = g.registry) {p q : SocketSpec} (hpq : p.Matches q)
    (hp : g.registry.Types p.valueType p.default) (hq : h.registry.Types q.valueType q.default)
    {a b : Document.Parameter} (ha : g.storeParameter p = .ok a) (hb : h.storeParameter q = .ok b) :
    b.toValue.renewed = a.toValue.renewed := by
  have hname : q.name = p.name := congrArg (·.1) hpq.outline
  have htype : q.valueType = p.valueType := congrArg (·.2) hpq.outline
  obtain ⟨v, hv, ha⟩ := bind_eq_ok.1 ha
  obtain ⟨w, hw, hb⟩ := bind_eq_ok.1 hb
  cases ha
  cases hb
  rw [htype] at hq hw
  have hvw := encodeAs_congr hr hp hq hpq.default hv hw
  simp [Document.Parameter.toValue, Value.renewed, Value.renewedFields_eq, hname, htype, hvw]

/-- Events that match are written as the same but for NaNs. -/
theorem storeEvent_congr (hr : h.registry = g.registry) {x y : CustomEvent} (hxy : x.Matches y)
    (hx : ∀ p ∈ x.parameters, g.registry.Types p.valueType p.default)
    (hy : ∀ p ∈ y.parameters, h.registry.Types p.valueType p.default) {a b : Document.Event}
    (ha : g.storeEvent x = .ok a) (hb : h.storeEvent y = .ok b) : b.toValue.renewed = a.toValue.renewed := by
  obtain ⟨as, has, ha⟩ := bind_eq_ok.1 ha
  obtain ⟨bs, hbs, hb⟩ := bind_eq_ok.1 hb
  cases ha
  cases hb
  have hall := forall₂_square (forall₂_of_mapM has) hxy.parameters (forall₂_of_mapM hbs)
    (Q := fun a b => b.toValue.renewed = a.toValue.renewed)
    fun p hp q hq a b ha hpq hb => storeParameter_congr hr hpq (hx p hp) (hy q hq) ha hb
  have hparameters : bs.map (fun p => p.toValue.renewed) = as.map fun p => p.toValue.renewed :=
    map_eq_of_forall₂ hall
  simp [Document.Event.toValue, Value.renewed, Value.renewedFields_eq, Value.renewedItems_eq, Function.comp_def,
    hxy.name, hparameters]

/-- Matching graphs are written as the same document, up to which NaN is which. -/
theorem Matches.document (hm : g.Matches h) (hr : h.registry = g.registry) (hg : Indexed g) (hh : Indexed h)
    (hgt : Typed g) (hht : Typed h) (hnames : ∀ n ∈ g.nodes, (n.inputs.map (·.name)).Nodup) (hd : Stores g d)
    (he : Stores h e) : e.toValue.renewed = d.toValue.renewed := by
  have hnodes : e.nodes.map (fun n => n.toValue.renewed) = d.nodes.map fun n => n.toValue.renewed := by
    refine map_eq_of_forall₂ (forall₂_square hd.nodes hm.nodes he.nodes ?_)
    intro n hn m hm' a b ha hnm hb
    exact storeNode_congr hr hg hh hm.links hgt hht hn hm' hnm (hnames n hn) ha hb
  have hvars : e.vars.map (fun x => x.toValue.renewed) = d.vars.map fun x => x.toValue.renewed := by
    refine map_eq_of_forall₂ (forall₂_square hd.vars hm.vars he.vars ?_)
    intro x hx y hy a b ha hxy hb
    exact storeVariable_congr hxy (hgt.vars x hx) (hht.vars y hy) ha hb
  have hevents : e.events.map (fun x => x.toValue.renewed) = d.events.map fun x => x.toValue.renewed := by
    refine map_eq_of_forall₂ (forall₂_square hd.events hm.events he.events ?_)
    intro x hx y hy a b ha hxy hb
    exact storeEvent_congr hr hxy (hgt.defaults x hx) (hht.defaults y hy) ha hb
  simp only [Document.toValue, Value.renewed, Value.renewedFields_eq, Value.renewedItems_eq, List.map_cons,
    List.map_nil, List.map_map, Function.comp_def, hnodes, hvars, hevents, hd.name, he.name, hd.links, he.links,
    hm.name, hm.links]

end Documents

end Graph

end FlowGraph
