import FlowGraph.Proofs.RoundTrip

/-!
What loading keeps of a document. Main statement: over every registry a loaded graph has the variables, events, nodes,
listed literals and links of its document, in order and nothing else, and a document that has something twice that a
graph has once is refused.
-/
namespace FlowGraph

/-- Values that are put under their own names are found under them. -/
theorem Table.named_foldl {α : Type} {name : α → String} {as : List α} {t : Table String α}
    (ht : ∀ e ∈ t.entries, name e.2 = e.1) : ∀ e ∈ (as.foldl (fun t a => t.set (name a) a) t).entries, name e.2 = e.1 := by
  induction as generalizing t with
  | nil => exact ht
  | cons a as ih =>
    apply ih
    intro e he
    rcases Table.mem_entries_set he with rfl | he
    · rfl
    · exact ht e he

/-- A new key is none of those before it. -/
theorem Table.nodup_keys_append {α : Type} {t : Table String α} (ht : t.keys.Nodup) {k : String} (hk : k ∉ t.keys)
    (v : α) : (Table.mk (t.entries ++ [(k, v)])).keys.Nodup := by
  rw [← Table.entries_set_of_not_mem v hk]
  exact Table.nodup_keys_set ht k v

/-- Types and definitions are found under their own names only. -/
structure Registry.Named (r : Registry) : Prop where
  valueType : ∀ {name : String} {t : ValueType}, r.valueType name = .ok t → t.name = name
  definition : ∀ {name : String} {d : Definition}, r.definition name = .ok d → d.typeName = name

namespace Registry.Named

/-- A registry whose entries stand under their own names is well named. -/
theorem of_entries {r : Registry} (hvalues : ∀ e ∈ r.values.entries, e.2.name = e.1)
    (hnodes : ∀ e ∈ r.nodes.entries, e.2.typeName = e.1) : r.Named := by
  constructor
  · intro name t h
    unfold Registry.valueType at h
    split at h
    · rename_i t' ht
      cases h
      unfold valueType? at ht
      split at ht
      · rename_i hflow
        cases ht
        exact hflow.symm
      · exact hvalues _ (Table.mem_entries_of_get? ht)
    · cases h
  · intro name d h
    unfold Registry.definition at h
    split at h
    · rename_i d' hd
      cases h
      exact hnodes _ (Table.mem_entries_of_get? hd)
    · cases h

/-- However a registry was put together. -/
theorem of_extensions (es : List Extension) : (es.foldl Registry.extend {}).Named := by
  have hall (r : Registry) (hvalues : ∀ e ∈ r.values.entries, e.2.name = e.1)
      (hnodes : ∀ e ∈ r.nodes.entries, e.2.typeName = e.1) : (es.foldl Registry.extend r).Named := by
    induction es generalizing r with
    | nil => exact of_entries hvalues hnodes
    | cons e es ih =>
      apply ih
      · rw [values_extend]
        exact Table.named_foldl hvalues
      · rw [nodes_extend]
        exact Table.named_foldl hnodes
  exact hall {} (fun _ he => nomatch he) (fun _ he => nomatch he)

theorem of_standard {ds : List Definition} {r : Registry} (hr : r.Standard ds) : r.Named :=
  ⟨fun h => (hr.valueType_spec h).1, fun h => (hr.definition_spec h).1⟩

end Registry.Named

namespace Value

mutual
/-- Labels do not change what a value is made of. -/
theorem renewed_stamp (v : Value) (n : Nat) : (v.stamp.run n).1.renewed = v.renewed := by
  cases v with
  | float x =>
    obtain ⟨y, hy, hr⟩ := stampFloat_spec x n
    rw [stamp, hy, hr]
  | list xs => exact congrArg list (renewed_stampItems xs n)
  | dict fields => exact congrArg dict (renewed_stampFields fields n)
  | vec2 x y => exact congrArg₂ vec2 (renewed_stamp x n) (renewed_stamp y _)
  | vec3 x y z =>
    have hx := renewed_stamp x n
    have hy := renewed_stamp y (x.stamp.run n).2
    have hz := renewed_stamp z (y.stamp.run (x.stamp.run n).2).2
    exact (congrArg₂ (fun a b => vec3 a b _) hx hy).trans (congrArg (vec3 _ _) hz)
  | none | bool b | int i | str s => rfl
theorem renewed_stampItems (xs : List Value) (n : Nat) : renewedItems ((stampItems xs).run n).1 = renewedItems xs := by
  cases xs with
  | nil => rfl
  | cons x xs => exact congrArg₂ List.cons (renewed_stamp x n) (renewed_stampItems xs _)
theorem renewed_stampFields (fields : List (String × Value)) (n : Nat) :
    renewedFields ((stampFields fields).run n).1 = renewedFields fields := by
  cases fields with
  | nil => rfl
  | cons f fields =>
    obtain ⟨k, v⟩ := f
    exact congrArg₂ (fun a as => (k, a) :: as) (renewed_stamp v n) (renewed_stampFields fields _)
end

end Value

/-- An identifier that is made is a numbered one. -/
theorem Graph.freshId_numbered (g : Graph) : ∃ k, g.freshId = numberedId k := by
  unfold freshId
  cases hf : ((List.range (g.ids.size + 1)).map fun k => numberedId (g.arena.size + k)).find? fun id => !g.ids.has id with
  | none => exact ⟨g.arena.size, by simp only [hf, Option.getD_none]⟩
  | some id =>
    obtain ⟨k, -, rfl⟩ := List.mem_map.1 (List.mem_of_find?_eq_some hf)
    exact ⟨g.arena.size + k, by simp only [hf, Option.getD_some]⟩

/-- Whatever a graph keeps is what it was given, up to its NaNs. -/
theorem Graph.renewed_stamp (g : Graph) (v : Value) : (g.stamp v).2.renewed = v.renewed := by
  unfold Graph.stamp
  split
  · exact v.renewed_stamp g.labels
  · rfl

namespace Document

/-- The inputs of the node that are listed hold the values that the document has for them. -/
def Lists (r : Registry) (listed : Table String Value) (n : FlowGraph.Node) : Prop :=
  ∀ name raw, listed.get? name = some raw → ∃ s v, n.input? name = some s ∧ s.isFlow = false ∧
    literalOf r s.valueType raw ("input " ++ s.labelOn n.id) = .ok v ∧ s.value.renewed = v.renewed

/-- The node is the one of the document. An identifier is given to it only where the document has none. -/
structure Node.Tells (r : Registry) (dn : Document.Node) (n : FlowGraph.Node) : Prop where
  id : dn.id ≠ "" → n.id = dn.id
  given : dn.id = "" → ∃ k, n.id = Graph.numberedId k
  typeName : n.typeName = dn.typeName
  position : n.position = dn.position
  literals : Lists r (Table.ofList dn.inputs) n

/-- The graph has what the document tells of, in order, and nothing else. -/
structure Tells (d : Document) (g : Graph) : Prop where
  name : g.name = d.name
  vars : g.vars.entries.map (fun e => (e.1, e.2.name, e.2.valueType.name)) =
    d.vars.map fun v => (v.name, v.name, v.valueType)
  events : g.events.entries.map (fun e => (e.1, e.2.name, e.2.parameters.map SocketSpec.outline)) =
    d.events.map fun e => (e.name, e.name, e.parameters.map fun p => (p.name, p.valueType))
  nodes : List.Forall₂ (Node.Tells g.registry) d.nodes g.nodes
  links : g.links = d.links
  joined : ∀ l ∈ d.links, ∃ source target output input, g.node? l.source = some source ∧
    g.node? l.target = some target ∧ source.output? l.output = some output ∧
    target.input? l.input = some input ∧ g.registry.canConnect output.valueType input.valueType = true
  single : ∀ n ∈ g.nodes, ∀ s, n.input? s.name = some s → s.isFlow = false →
    (d.links.filter fun l => l.target = n.id ∧ l.input = s.name).length ≤ 1

def unlinked (d : Document) : Document := { d with links := [] }

/-- The document has something twice that a graph has once. -/
inductive Repeats (d : Document) (start : Graph) : Prop
  | vars (h : ¬ (d.vars.map (·.name)).Nodup)
  | events (h : ¬ (d.events.map (·.name)).Nodup)
  | ids (h : ¬ ((d.nodes.map (·.id)).filter (· ≠ "")).Nodup)
  | links (h : ¬ d.links.Nodup)
  /-- Two links lead to one data input of the nodes. -/
  | input {g : Graph} {n : FlowGraph.Node} {s : Socket} (hg : d.unlinked.toGraph start = .ok g)
    (hn : n ∈ g.nodes) (hs : n.input? s.name = some s) (hdata : s.isFlow = false)
    (h : 2 ≤ (d.links.filter fun l => l.target = n.id ∧ l.input = s.name).length)

section Declarations

variable {r : Registry} {g h : Graph}

/-- What loading a variable comes to. -/
theorem loadVariable_eq_ok (hr : g.registry.Named) {v : Variable} (hl : loadVariable g v = .ok h) :
    ∃ x labels, v.name ∉ g.vars.keys ∧ x.name = v.name ∧ x.valueType.name = v.valueType ∧
      h = { g with vars := ⟨g.vars.entries ++ [(v.name, x)]⟩, issued := g.issued + 1, labels := labels } := by
  obtain ⟨initial, -, hd⟩ := bind_eq_ok.1 hl
  unfold Graph.declareVariable at hd
  split at hd
  · cases hd
  · rename_i hnew
    split at hd
    · cases hd
    · rename_i t ht
      obtain ⟨w, -, hd⟩ := bind_eq_ok.1 hd
      have hfresh : v.name ∉ g.vars.keys := by
        rw [← Table.has_iff]
        exact hnew
      obtain ⟨labels, hlabels⟩ := g.stamp_eq w
      generalize g.stamp w = p at hd hlabels
      obtain ⟨g', w'⟩ := p
      simp only at hlabels
      subst hlabels
      cases hd
      refine ⟨{ name := v.name, serial := g.issued, valueType := t, initial := w', value := w' }, labels, hfresh, rfl,
        hr.valueType ht, ?_⟩
      rw [← Table.entries_set_of_not_mem _ hfresh]

/-- What loading all variables comes to. -/
theorem loadVariables_eq_ok (hr : g.registry.Named) {vs : List Variable} (hl : vs.foldlM loadVariable g = .ok h) :
    ∃ es issued labels, h = { g with vars := ⟨g.vars.entries ++ es⟩, issued := issued, labels := labels } ∧
      es.map (fun e => (e.1, e.2.name, e.2.valueType.name)) = vs.map (fun v => (v.name, v.name, v.valueType)) ∧
      (g.vars.keys.Nodup → h.vars.keys.Nodup) := by
  induction vs generalizing g with
  | nil =>
    cases hl
    exact ⟨[], h.issued, h.labels, by simp, rfl, id⟩
  | cons v vs ih =>
    obtain ⟨g₁, hfirst, hl⟩ := bind_eq_ok.1 hl
    obtain ⟨x, labels, hnew, hname, htype, rfl⟩ := loadVariable_eq_ok hr hfirst
    obtain ⟨es, issued, labels, hes, hout, hnodup⟩ := ih (by exact hr) hl
    refine ⟨(v.name, x) :: es, issued, labels, by simp [hes], by simp [hname, htype, hout], fun hkeys => ?_⟩
    exact hnodup (Table.nodup_keys_append hkeys hnew x)

theorem loadParameters_outline {event : String} {ps : List Parameter} {specs : List SocketSpec}
    (h : ps.mapM (loadParameter r event) = .ok specs) :
    specs.map SocketSpec.outline = ps.map fun p => (p.name, p.valueType) := by
  refine map_eq_of_forall₂ ((forall₂_of_mapM h).imp fun p s hp => ?_)
  obtain ⟨v, -, hp⟩ := bind_eq_ok.1 hp
  cases hp
  rfl

/-- An event is declared with parameters of the given names and types, and goes last. -/
theorem declareEvent_eq_ok {name : String} {ps : List SocketSpec} (hd : g.declareEvent name ps = .ok h) :
    ∃ e labels, name ∉ g.events.keys ∧ e.name = name ∧
      e.parameters.map SocketSpec.outline = ps.map SocketSpec.outline ∧
      h = { g with events := ⟨g.events.entries ++ [(name, e)]⟩, issued := g.issued + 1, labels := labels } := by
  unfold Graph.declareEvent at hd
  split at hd
  · cases hd
  · rename_i hnew
    obtain ⟨checked, hchecked, hd⟩ := bind_eq_ok.1 hd
    have hfresh : name ∉ g.events.keys := by
      rw [← Table.has_iff]
      exact hnew
    have hout : checked.map SocketSpec.outline = ps.map SocketSpec.outline := by
      refine map_eq_of_forall₂ ((forall₂_of_mapM hchecked).imp fun p q hq => ?_)
      obtain ⟨-, -, t, -, rfl⟩ := Graph.Sourced.checkParameter_eq_ok hq
      rfl
    have hkept := Graph.Sourced.stampParameters_outline g checked
    obtain ⟨labels, hlabels⟩ := g.stampParameters_eq checked
    generalize g.stampParameters checked = p at hd hkept hlabels
    obtain ⟨g', specs⟩ := p
    simp only at hlabels
    subst hlabels
    cases hd
    refine ⟨{ name := name, serial := g.issued, parameters := specs }, labels, hfresh, rfl, hkept.trans hout, ?_⟩
    rw [← Table.entries_set_of_not_mem _ hfresh]

/-- What loading all events comes to. -/
theorem loadEvents_eq_ok {es : List Event} (hl : es.foldlM loadEvent g = .ok h) :
    ∃ fs issued labels, h = { g with events := ⟨g.events.entries ++ fs⟩, issued := issued, labels := labels } ∧
      fs.map (fun e => (e.1, e.2.name, e.2.parameters.map SocketSpec.outline)) =
        es.map (fun e => (e.name, e.name, e.parameters.map fun p => (p.name, p.valueType))) ∧
      (g.events.keys.Nodup → h.events.keys.Nodup) := by
  induction es generalizing g with
  | nil =>
    cases hl
    exact ⟨[], h.issued, h.labels, by simp, rfl, id⟩
  | cons e es ih =>
    obtain ⟨g₁, hfirst, hl⟩ := bind_eq_ok.1 hl
    obtain ⟨specs, hspecs, hfirst⟩ := bind_eq_ok.1 hfirst
    split at hfirst
    · rename_i g₁' hd
      cases hfirst
      obtain ⟨f, labels, hnew, hname, hout, rfl⟩ := declareEvent_eq_ok hd
      obtain ⟨fs, issued, labels, hfs, hmap, hnodup⟩ := ih hl
      refine ⟨(e.name, f) :: fs, issued, labels, by simp [hfs],
        by simp [hname, hmap, hout.trans (loadParameters_outline hspecs)], fun hkeys => ?_⟩
      exact hnodup (Table.nodup_keys_append hkeys hnew f)
    · cases hfirst

end Declarations

section Nodes

variable {r : Registry} {b g h : Graph}

/-- What setting one input of the node that came last comes to. -/
theorem loadInput_withLast {A : Array FlowGraph.Node} {m : FlowGraph.Node} {labels : Nat} {i : String × Value}
    (hl : loadInput A.size (b.withLast A m labels) i = .ok h) : ∃ p s v w labels', Node.place? i.1 m.inputs = some p ∧
      m.input? i.1 = some s ∧ s.isFlow = false ∧
      literalOf b.registry s.valueType i.2 ("input " ++ s.labelOn m.id) = .ok v ∧ w.renewed = v.renewed ∧
      h = b.withLast A (m.setInput p w) labels' := by
  unfold loadInput at hl
  rw [Graph.nodeAt?_withLast] at hl
  simp only at hl
  split at hl
  · rename_i p s hp hs
    split at hl
    · cases hl
    · rename_i hflow
      obtain ⟨v, hv, hl⟩ := bind_eq_ok.1 hl
      obtain ⟨labels', hlabels⟩ := b.stamp_withLast A m labels v
      cases hl
      refine ⟨p, s, v, _, labels', hp, hs, by simpa using hflow, hv, (b.withLast A m labels).renewed_stamp v, ?_⟩
      rw [hlabels, Graph.modifyNode_withLast]
  · cases hl

/-- What setting inputs of the node that came last comes to: those that are listed hold what they are listed with. -/
theorem loadInputs_withLast {A : Array FlowGraph.Node} {m : FlowGraph.Node} {labels : Nat} {is : List (String × Value)}
    {listed : Table String Value} (hlisted : Lists b.registry listed m)
    (hl : is.foldlM (loadInput A.size) (b.withLast A m labels) = .ok h) : ∃ m' labels', h = b.withLast A m' labels' ∧
      m' = { m with inputs := m'.inputs } ∧ Lists b.registry (is.foldl (fun t i => t.set i.1 i.2) listed) m' := by
  induction is generalizing m labels listed with
  | nil =>
    cases hl
    exact ⟨m, labels, rfl, rfl, hlisted⟩
  | cons i is ih =>
    obtain ⟨h₁, hfirst, hl⟩ := bind_eq_ok.1 hl
    obtain ⟨p, s, v, w, labels₁, hp, hs, hflow, hv, hw, rfl⟩ := loadInput_withLast hfirst
    have hset : Lists b.registry (listed.set i.1 i.2) (m.setInput p w) := by
      intro name raw hraw
      rw [Table.get?_set] at hraw
      rw [Graph.input?_setInput m hp]
      split at hraw
      · rename_i hname
        cases hraw
        exact ⟨{ s with value := w }, v, by rw [if_pos hname.symm, hs]; rfl, hflow, hv, hw⟩
      · rename_i hname
        rw [if_neg fun h => hname h.symm]
        exact hlisted name raw hraw
    obtain ⟨m', labels', rfl, hrest, hm'⟩ := ih hset hl
    exact ⟨m', labels', rfl, hrest, hm'⟩

/-- What adding a node to a graph comes to. -/
theorem addNode_withLast (hr : g.registry.Named) {typeName : String} {id : Option String}
    {overrides : List (String × Value)} {position : Value} {k : Nat}
    (ha : g.addNode typeName id overrides position = .ok (h, k)) : ∃ m labels, k = g.arena.size ∧
      m.id = g.chooseId id ∧ m.id ∉ g.ids.keys ∧ m.typeName = typeName ∧ Graph.coordinates position = .ok m.position ∧
      h = Graph.withLast { g with ids := ⟨g.ids.entries ++ [(m.id, g.arena.size)]⟩ } g.arena m labels := by
  unfold Graph.addNode at ha
  split at ha
  · cases ha
  · rename_i d hd
    obtain ⟨n, hfree, hmake, rfl, rfl⟩ := Graph.addNodeOf_eq_ok ha
    obtain ⟨place, c, inputs, outputs, hplace, -, -, -, rfl⟩ := Graph.makeNode_eq_ok hmake
    have hnew := g.chooseId_not_mem hfree
    generalize hn : ({ id := g.chooseId id, definition := d, position := place, configuration := c
                       state := d.initialState, inputs := inputs, outputs := outputs } : FlowGraph.Node) = n
    have hid : n.id = g.chooseId id := by rw [← hn]
    obtain ⟨labels, hlabels⟩ := (g.stampNode_eq n).1
    refine ⟨(g.stampNode n).2, labels, rfl, hid, hid ▸ hnew, ?_, ?_, ?_⟩
    · rw [← hr.definition hd, ← hn]
      rfl
    · rw [hplace, ← hn]
      rfl
    · have hset := Table.entries_set_of_not_mem g.arena.size (hid ▸ hnew : n.id ∉ g.ids.keys)
      simp only [Graph.insertNode, hlabels, Graph.withLast]
      exact congrArg (fun es => Graph.withLast { g with ids := ⟨es⟩ } g.arena (g.stampNode n).2 labels) hset

/-- What loading a node comes to. -/
theorem loadNode_eq_ok (hr : g.registry.Named) {dn : Document.Node} (hl : loadNode g dn = .ok h) :
    ∃ m labels, m.id ∉ g.ids.keys ∧ Node.Tells g.registry dn m ∧
      h = { g with arena := g.arena.push m, ids := ⟨g.ids.entries ++ [(m.id, g.arena.size)]⟩, labels := labels } := by
  obtain ⟨⟨g₁, k⟩, hadd, hl⟩ := bind_eq_ok.1 hl
  obtain ⟨m, labels, rfl, hid, hnew, htype, hplace, rfl⟩ := addNode_withLast hr hadd
  have hempty {r : Registry} : Lists r Table.empty m := fun _ _ h => nomatch h
  obtain ⟨m', labels', rfl, hrest, hlisted⟩ := loadInputs_withLast hempty hl
  have hid' : m'.id = m.id := by rw [hrest]
  refine ⟨m', labels', hid'.symm ▸ hnew, ⟨fun hne => ?_, fun hempty => ?_, ?_, ?_, hlisted⟩, ?_⟩
  · rw [hid', hid, Graph.chooseId, if_neg (by simpa using hne)]
  · rw [hid', hid, hempty]
    exact g.freshId_numbered
  · rw [← htype, hrest]
    rfl
  · have hposition : Graph.coordinates (.list [.float dn.position.1, .float dn.position.2]) = .ok dn.position := rfl
    rw [hrest]
    exact (Except.ok.inj (hposition.symm.trans hplace)).symm
  · rw [hid']
    rfl

/-- What loading all nodes comes to. -/
theorem loadNodes_eq_ok (hr : g.registry.Named) {dns : List Document.Node} (hl : dns.foldlM loadNode g = .ok h) :
    ∃ ms labels, h = { g with
        arena := g.arena ++ ms.toArray
        ids := ⟨g.ids.entries ++ (ms.zipIdx g.arena.size).map fun m => (m.1.id, m.2)⟩
        labels := labels } ∧ List.Forall₂ (Node.Tells g.registry) dns ms := by
  induction dns generalizing g with
  | nil =>
    cases hl
    exact ⟨[], h.labels, by simp, .nil⟩
  | cons dn dns ih =>
    obtain ⟨g₁, hfirst, hl⟩ := bind_eq_ok.1 hl
    obtain ⟨m, labels, -, hm, rfl⟩ := loadNode_eq_ok hr hfirst
    obtain ⟨ms, labels, hms, hall⟩ := ih (by exact hr) hl
    exact ⟨m :: ms, labels, by simp [hms], .cons hm hall⟩

end Nodes

section Links

variable {g h : Graph}

/-- A link that is loaded takes no other's place. -/
theorem loadLink_eq_ok {l : Link} (hl : loadLink g l = .ok h) : h.bare = g.bare ∧ h.links = g.links ++ [l] := by
  unfold loadLink at hl
  split at hl
  · rename_i h' w hc
    cases hl
    obtain ⟨e, output, input, shown, -, -, hpolicy, rfl, rfl⟩ := Graph.connect_eq_ok hc
    have hnone : Graph.displaced input = [] := hpolicy.resolve_right (by simp)
    rw [hnone]
    exact ⟨(Graph.rewired_plug (g.lay l (some e)).1 (g.lay l (some e)).2 e).bare,
      by simp [Graph.links, Graph.plug, Graph.disconnectAll, Graph.lay, Graph.modifyOutputWires, Graph.modifyInputWires,
        Graph.modifyNode]⟩
  · cases hl

/-- What loading all links comes to. -/
theorem loadLinks_eq_ok {ls : List Link} (hl : ls.foldlM loadLink g = .ok h) :
    h.bare = g.bare ∧ h.links = g.links ++ ls := by
  induction ls generalizing g with
  | nil =>
    cases hl
    exact ⟨rfl, by simp⟩
  | cons l ls ih =>
    obtain ⟨g₁, hfirst, hl⟩ := bind_eq_ok.1 hl
    obtain ⟨hbare, hlinks⟩ := loadLink_eq_ok hfirst
    obtain ⟨hbare', hlinks'⟩ := ih hl
    exact ⟨hbare'.trans hbare, by simp [hlinks', hlinks]⟩

/-- The inputs of a node do not depend on its wires. -/
theorem input?_of_bare {m m' : FlowGraph.Node} (hb : m'.bare = m.bare) {name : String} {s : Socket}
    (hs : m.input? name = some s) : ∃ t, m'.input? name = some t ∧ t.bare = s.bare := by
  have hinputs : m'.inputs.map Socket.bare = m.inputs.map Socket.bare := congrArg FlowGraph.Node.inputs hb
  have hfind := congrArg (List.find? (·.name = name)) hinputs
  rw [List.find?_map, List.find?_map] at hfind
  have hbare : (m'.input? name).map Socket.bare = (m.input? name).map Socket.bare := hfind
  rw [hs] at hbare
  exact Option.map_eq_some_iff.1 hbare

/-- Wires are no part of what a node holds. -/
theorem Node.Tells.of_bare {r : Registry} {dn : Document.Node} {m m' : FlowGraph.Node} (hm : Node.Tells r dn m)
    (hb : m'.bare = m.bare) : Node.Tells r dn m' := by
  have hid : m'.id = m.id := (congrArg FlowGraph.Node.id hb :)
  refine ⟨fun h => hid.trans (hm.id h), fun h => hid ▸ hm.given h, (congrArg FlowGraph.Node.typeName hb).trans hm.typeName,
    (congrArg FlowGraph.Node.position hb).trans hm.position, fun name raw hraw => ?_⟩
  obtain ⟨s, v, hs, hflow, hv, hvalue⟩ := hm.literals name raw hraw
  obtain ⟨t, ht, hts⟩ := input?_of_bare hb hs
  have hname : t.name = s.name := (congrArg Socket.name hts :)
  have htype : t.valueType = s.valueType := (congrArg Socket.valueType hts :)
  refine ⟨t, v, ht, ?_, ?_, (congrArg (fun s => s.value.renewed) hts).trans hvalue⟩
  · rw [Socket.isFlow, htype]
    exact hflow
  · have hlabel : t.labelOn m.id = s.labelOn m.id := by
      unfold Socket.labelOn
      rw [hname, htype]
    rw [htype, hid, hlabel]
    exact hv

/-- An input to which two links of a graph lead is none for data. -/
theorem length_links_input {g : Graph} (hg : Graph.Indexed g) {n : FlowGraph.Node} (hn : n ∈ g.nodes) {s : Socket}
    (hs : n.input? s.name = some s) (hdata : s.isFlow = false) :
    (g.links.filter fun l => l.target = n.id ∧ l.input = s.name).length ≤ 1 := by
  obtain ⟨k, hk, hn'⟩ := hg.mem_nodes hn
  have hnode : g.node? n.id = some n := Option.bind_eq_some_iff.2 ⟨k, hk, hn'⟩
  have hwires := hg.wellLinked.incoming n.id n s.name s hnode hs
  have hone : s.wires.length ≤ 1 := hg.length_dataInput hn
    (List.mem_filter.2 ⟨List.mem_of_find?_eq_some hs, by simp [hdata]⟩)
  rw [Graph.links, List.filter_map, List.length_map]
  rw [hwires] at hone
  exact hone

end Links

section Whole

variable {r : Registry} {d : Document} {g g₀ : Graph} {policy : Bool} {labels : Nat}

/-- Links are loaded last. -/
theorem toGraph_eq_ok {start : Graph} (hd : d.toGraph start = .ok g) :
    ∃ g₀, d.unlinked.toGraph start = .ok g₀ ∧ d.links.foldlM loadLink g₀ = .ok g := by
  obtain ⟨g₁, hvars, hd⟩ := bind_eq_ok.1 hd
  obtain ⟨g₂, hevents, hd⟩ := bind_eq_ok.1 hd
  obtain ⟨g₀, hnodes, hlinks⟩ := bind_eq_ok.1 hd
  exact ⟨g₀, bind_eq_ok.2 ⟨g₁, hvars, bind_eq_ok.2 ⟨g₂, hevents, bind_eq_ok.2 ⟨g₀, hnodes, rfl⟩⟩⟩, hlinks⟩

/-- The graph of a document without its links. -/
structure Starts (r : Registry) (d : Document) (g : Graph) : Prop where
  indexed : Graph.Indexed g
  registry : g.registry = r
  name : g.name = d.name
  links : g.links = []
  vars : g.vars.entries.map (fun e => (e.1, e.2.name, e.2.valueType.name)) =
    d.vars.map fun v => (v.name, v.name, v.valueType)
  varNames : g.vars.keys.Nodup
  events : g.events.entries.map (fun e => (e.1, e.2.name, e.2.parameters.map SocketSpec.outline)) =
    d.events.map fun e => (e.name, e.name, e.parameters.map fun p => (p.name, p.valueType))
  eventNames : g.events.keys.Nodup
  nodes : List.Forall₂ (Node.Tells r) d.nodes g.nodes

/-- What a document without links makes is where the links are laid. -/
theorem starts_of_toGraph (hr : r.Named)
    (hd : d.unlinked.toGraph { registry := r, replaceLinks := policy, labels := labels } = .ok g) : Starts r d g := by
  obtain ⟨g₁, hvars, hd⟩ := bind_eq_ok.1 hd
  obtain ⟨g₂, hevents, hd⟩ := bind_eq_ok.1 hd
  obtain ⟨g₃, hnodes, hd⟩ := bind_eq_ok.1 hd
  cases hd
  have hempty : Graph.Indexed { name := d.name, registry := r, replaceLinks := policy, labels := labels } :=
    .of_empty rfl rfl
  have hi₁ := foldlM_invariant (fun _ _ _ _ hb hl => Graph.Indexed.loadVariable hb hl) hempty hvars
  have hi₂ := foldlM_invariant (fun _ _ _ _ hb hl => Graph.Indexed.loadEvent hb hl) hi₁ hevents
  have hi := foldlM_invariant (fun _ _ _ _ hb hl => Graph.Indexed.loadNode hb hl) hi₂ hnodes
  obtain ⟨vars, issued, labels₁, hg₁, hvars, hvarNames⟩ := loadVariables_eq_ok (by exact hr) hvars
  obtain ⟨events, issued, labels₂, hg₂, hevents, heventNames⟩ := loadEvents_eq_ok hevents
  have hreg₂ : g₂.registry = r := by rw [hg₂, hg₁]
  obtain ⟨ms, labels₃, hg, hms⟩ := loadNodes_eq_ok (hreg₂ ▸ hr) hnodes
  have hgraph : g.arena = ms.toArray ∧ g.ids.entries = (ms.zipIdx 0).map fun m => (m.1.id, m.2) := by
    rw [hg, hg₂, hg₁]
    simp
  refine ⟨hi, ?_, ?_, ?_, ?_, ?_, ?_, ?_, ?_⟩
  · rw [hg, hreg₂]
  · rw [hg, hg₂, hg₁]
    rfl
  · rw [hg, hg₂, hg₁]
    rfl
  · rw [hg, hg₂, hg₁]
    exact hvars
  · rw [hg, hg₂]
    exact hvarNames List.nodup_nil
  · rw [hg, hg₂, hg₁]
    exact hevents
  · rw [hg]
    refine heventNames ?_
    rw [hg₁]
    exact List.nodup_nil
  · rw [Graph.nodes_of_arena hgraph.1 hgraph.2, ← hreg₂]
    exact hms

/-- Links change nothing else. -/
theorem Starts.tells (hg₀ : Starts r d g₀) (hlinks : d.links.foldlM loadLink g₀ = .ok g) : Tells d g := by
  have hi := foldlM_invariant (fun _ _ _ _ hb hl => Graph.Indexed.loadLink hb hl) hg₀.indexed hlinks
  obtain ⟨hbare, hlinks⟩ := loadLinks_eq_ok hlinks
  rw [hg₀.links, List.nil_append] at hlinks
  have hregistry : g.registry = r := (congrArg Graph.registry hbare :).trans hg₀.registry
  have hvars : g.vars = g₀.vars := (congrArg Graph.vars hbare :)
  have hevents : g.events = g₀.events := (congrArg Graph.events hbare :)
  refine ⟨(congrArg Graph.name hbare :).trans hg₀.name, hvars ▸ hg₀.vars, hevents ▸ hg₀.events, ?_, hlinks, ?_, ?_⟩
  · have hnodes : List.Forall₂ (Node.Tells r) d.nodes (g₀.nodes.map FlowGraph.Node.bare) := by
      rw [List.forall₂_map_right_iff]
      exact hg₀.nodes.imp fun dn m hm => hm.of_bare (by simp [FlowGraph.Node.bare, Socket.bare])
    rw [← Graph.nodes_bare, ← hbare, Graph.nodes_bare, List.forall₂_map_right_iff] at hnodes
    rw [hregistry]
    exact hnodes.imp fun dn m hm => hm.of_bare (by simp [FlowGraph.Node.bare, Socket.bare])
  · rw [← hlinks]
    exact hi.wellLinked.joined
  · intro n hn s hs hdata
    rw [← hlinks]
    exact length_links_input hi hn hs hdata

theorem Starts.nodup_vars (hg : Starts r d g) : (d.vars.map (·.name)).Nodup := by
  have hkeys := congrArg (List.map Prod.fst) hg.vars
  rw [List.map_map, List.map_map] at hkeys
  exact hkeys ▸ hg.varNames

theorem Starts.nodup_events (hg : Starts r d g) : (d.events.map (·.name)).Nodup := by
  have hkeys := congrArg (List.map Prod.fst) hg.events
  rw [List.map_map, List.map_map] at hkeys
  exact hkeys ▸ hg.eventNames

/-- The identifiers that a document gives stand among those of the nodes. -/
theorem sublist_ids {dns : List Document.Node} {ms : List FlowGraph.Node} (h : List.Forall₂ (Node.Tells r) dns ms) :
    ((dns.map (·.id)).filter (· ≠ "")).Sublist (ms.map (·.id)) := by
  induction h with
  | nil => exact .slnil
  | @cons dn m dns ms hm _ ih =>
    by_cases hid : dn.id = ""
    · simpa [hid] using ih.cons m.id
    · simpa [hid, hm.id hid] using ih.cons_cons m.id

theorem Starts.nodup_ids (hg : Starts r d g) : ((d.nodes.map (·.id)).filter (· ≠ "")).Nodup := by
  refine (sublist_ids hg.nodes).nodup ?_
  rw [hg.indexed.map_id_nodes]
  exact hg.indexed.keys

/-- A document that is accepted has nothing twice. -/
theorem Starts.not_repeats (hg₀ : Starts r d g₀) (hlinks : d.links.foldlM loadLink g₀ = .ok g)
    (hunlinked : d.unlinked.toGraph { registry := r, replaceLinks := policy, labels := labels } = .ok g₀) :
    ¬ d.Repeats { registry := r, replaceLinks := policy, labels := labels } := by
  have hi := foldlM_invariant (fun _ _ _ _ hb hl => Graph.Indexed.loadLink hb hl) hg₀.indexed hlinks
  obtain ⟨hbare, hall⟩ := loadLinks_eq_ok hlinks
  rw [hg₀.links, List.nil_append] at hall
  rintro (h | h | h | h | @⟨g', n, s, hg, hn, hs, hdata, h⟩)
  · exact h hg₀.nodup_vars
  · exact h hg₀.nodup_events
  · exact h hg₀.nodup_ids
  · exact h (hall ▸ hi.nodup)
  · cases hunlinked.symm.trans hg
    -- The node is in the linked graph too, but for its wires.
    have hbares : n.bare ∈ g.nodes.map FlowGraph.Node.bare := by
      rw [← Graph.nodes_bare, hbare, Graph.nodes_bare]
      exact List.mem_map_of_mem hn
    obtain ⟨m, hm, hmn⟩ := List.mem_map.1 hbares
    have hid : m.id = n.id := (congrArg FlowGraph.Node.id hmn :)
    obtain ⟨t, ht, hts⟩ := input?_of_bare hmn hs
    have hname : t.name = s.name := (congrArg Socket.name hts :)
    have hflow : t.isFlow = s.isFlow := (congrArg (fun s => s.valueType == ValueType.flowName) hts :)
    have hone := length_links_input hi hm (hname.symm ▸ ht) (hflow.trans hdata)
    rw [hall, hid, hname] at hone
    omega

end Whole

/-- Over every registry, whatever links may do to each other there: a graph that is loaded has the variables, events, nodes,
listed literals and links of its document, in order and nothing else, and a document that has something twice that a
graph has once is refused. -/
theorem told_of_toGraph (es : List Extension) (policy : Bool) (labels : Nat) (d : Document) :
    (∀ g, d.toGraph { registry := es.foldl Registry.extend {}, replaceLinks := policy, labels := labels } = .ok g → d.Tells g) ∧
      (d.Repeats { registry := es.foldl Registry.extend {}, replaceLinks := policy, labels := labels } →
        ∃ e, d.toGraph { registry := es.foldl Registry.extend {}, replaceLinks := policy, labels := labels } = .error e) := by
  have hr := Registry.Named.of_extensions es
  refine ⟨fun g hg => ?_, fun hrepeats => ?_⟩
  · obtain ⟨g₀, hunlinked, hlinks⟩ := toGraph_eq_ok hg
    exact (starts_of_toGraph hr hunlinked).tells hlinks
  · cases hd : d.toGraph { registry := es.foldl Registry.extend {}, replaceLinks := policy, labels := labels } with
    | error e => exact ⟨e, rfl⟩
    | ok g =>
      obtain ⟨g₀, hunlinked, hlinks⟩ := toGraph_eq_ok hd
      exact absurd hrepeats ((starts_of_toGraph hr hunlinked).not_repeats hlinks hunlinked)

/-- A type that takes everything, and two definitions. -/
def markExtension : Extension where
  values := [.custom "mark" (.list [])]
  nodes := [
    { typeName := "Give", behaviour := .function none, outputs := .fixed [{ name := "mark", valueType := "mark" }] },
    { typeName := "Take", behaviour := .function none
      inputs := .fixed [{ name := "mark", valueType := "mark" }, { name := "again", valueType := "mark" }] }]

/-- A node without identifier, a literal with a NaN in it, and a link. -/
def markDocument : Document where
  vars := [{ name := "seen", valueType := "mark", initial := .bool true }]
  nodes := [{ id := "give", typeName := "Give" }, { id := "", typeName := "Give" },
    { id := "take", typeName := "Take", inputs := [("again", .list [.float .nan])] }]
  links := [⟨"give", "mark", "take", "mark"⟩]

/-- With a second link to the input. -/
def crowdedDocument : Document :=
  { markDocument with links := markDocument.links ++ [⟨Graph.numberedId 1, "mark", "take", "mark"⟩] }

/-- A document with values of a type of its own is told of, and refused once two links lead to one input. -/
theorem told_of_toGraph_mark :
    (∃ g, markDocument.toGraph { registry := [markExtension].foldl Registry.extend {} } = .ok g ∧ markDocument.Tells g) ∧
      ∃ e, crowdedDocument.toGraph { registry := [markExtension].foldl Registry.extend {} } = .error e := by
  obtain ⟨htold, -⟩ := told_of_toGraph [markExtension] true labelRange markDocument
  obtain ⟨-, hrefused⟩ := told_of_toGraph [markExtension] true labelRange crowdedDocument
  have haccepted : (markDocument.toGraph { registry := [markExtension].foldl Registry.extend {} }).toBool = true := by
    decide +kernel
  have hunlinked : (crowdedDocument.unlinked.toGraph { registry := [markExtension].foldl Registry.extend {} }).toBool = true := by
    decide +kernel
  have hg := ok_of_toBool haccepted {}
  have hg₀ := ok_of_toBool hunlinked {}
  have hinput : ((((crowdedDocument.unlinked.toGraph { registry := [markExtension].foldl Registry.extend {} }).toOption.getD {}).nodes.find?
      (·.id = "take")).any fun n => (n.input? "mark").any fun s => s.name = "mark" && !s.isFlow) = true := by
    decide +kernel
  obtain ⟨n, hn, hinput⟩ := (Option.any_eq_true _ _).1 hinput
  obtain ⟨s, hs, hinput⟩ := (Option.any_eq_true _ _).1 hinput
  obtain ⟨hname, hdata⟩ := Bool.and_eq_true_iff.1 hinput
  have hname : s.name = "mark" := of_decide_eq_true hname
  have hid : n.id = "take" := by simpa using List.find?_some hn
  refine ⟨⟨_, hg, htold _ hg⟩, hrefused (.input hg₀ (List.mem_of_find?_eq_some hn) (hname ▸ hs) (by simpa using hdata) ?_)⟩
  rw [hname, hid]
  decide +kernel

end Document

end FlowGraph
