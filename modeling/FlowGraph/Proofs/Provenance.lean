import FlowGraph.Proofs.LinkHistory
import FlowGraph.Proofs.Standard

/-!
Where the parts of a graph come from. In a graph that was built from registered types every node has the
definition that is registered under its type's name and the settings that it asks for, and every
declaration has registered types, whatever was changed in between.
-/
namespace FlowGraph

/-- The operation takes no definition that could be missing in the registry. -/
def Edit.isRegistered : Edit → Bool
  | addOf _ _ _ _ => false
  | _ => true

/-- A variable that was assigned has another value and is the same otherwise. -/
theorem Variable.put_eq_ok {x y : Variable} {v : Value} {told : Option Value} (h : x.put v = .ok (y, told)) :
    y = { x with value := v } := by
  obtain ⟨same, -, h⟩ := bind_eq_ok.1 h
  cases same with
  | true =>
    cases h
    rfl
  | false =>
    obtain ⟨w, -, h⟩ := bind_eq_ok.1 h
    cases h
    rfl

/-- What a node keeps from when it was made. -/
def Node.origin (n : Node) : String × Definition × Configuration := (n.id, n.definition, n.configuration)

/-- A node as it is made from a registered type. -/
structure Registry.Makes (r : Registry) (n : Node) : Prop where
  named : n.id ≠ ""
  known : r.definition n.typeName = .ok n.definition
  settings : n.configuration.keys = n.definition.defaultConfiguration.keys

theorem Registry.Makes.congr {r : Registry} {n m : Node} (h : r.Makes n) (ho : m.origin = n.origin) : r.Makes m := by
  simp only [Node.origin, Prod.mk.injEq] at ho
  obtain ⟨hid, hd, hc⟩ := ho
  constructor
  · rw [hid]
    exact h.named
  · rw [Node.typeName, hd]
    exact h.known
  · rw [hc, hd]
    exact h.settings

/-- A variable under its name, of a registered type. -/
def Registry.Declares (r : Registry) (e : String × Variable) : Prop :=
  e.2.name = e.1 ∧ r.valueType e.2.valueType.name = .ok e.2.valueType

/-- An event under its name, with parameters that carry data. -/
def Registry.Announces (r : Registry) (e : String × CustomEvent) : Prop :=
  e.2.name = e.1 ∧ ∀ p ∈ e.2.parameters, p.isFlow = false ∧ p.name ≠ "exec" ∧ ∃ t, r.valueType p.valueType = .ok t

namespace Graph

/-- The parts of the graph come from the registry. -/
structure Sourced (r : Registry) (g : Graph) : Prop where
  registry : g.registry = r
  nodes : ∀ {k : Nat} {n : Node}, g.nodeAt? k = some n → r.Makes n
  varNames : g.vars.keys.Nodup
  vars : ∀ e ∈ g.vars.entries, r.Declares e
  eventNames : g.events.keys.Nodup
  events : ∀ e ∈ g.events.entries, r.Announces e

/-- Overrides change settings and add none. -/
theorem mergeConfiguration_keys {d : Definition} {overrides : List (String × Value)} {c : Configuration}
    (h : mergeConfiguration d overrides = .ok c) : c.keys = d.defaultConfiguration.keys := by
  unfold mergeConfiguration at h
  generalize d.defaultConfiguration = start at h ⊢
  induction overrides generalizing start with
  | nil =>
    cases h
    rfl
  | cons o rest ih =>
    obtain ⟨c', hc', h⟩ := bind_eq_ok.1 h
    simp only at hc'
    split at hc'
    · rename_i hhas
      cases hc'
      rw [ih _ h, Table.keys_set, if_pos ((Table.has_iff _ _).1 hhas)]
    · cases hc'

theorem numberedId_ne (n : Nat) : numberedId n ≠ "" := by
  have hstem {stem a b : String} (hs : stem ≠ "") : stem ++ a ++ b ≠ "" := by
    simp [hs]
  exact hstem (by decide)

theorem freshId_ne (g : Graph) : g.freshId ≠ "" := by
  unfold freshId
  cases hf : ((List.range (g.ids.size + 1)).map fun k => numberedId (g.arena.size + k)).find?
      fun id => !g.ids.has id with
  | none =>
    simp only [hf, Option.getD_none]
    exact numberedId_ne _
  | some id =>
    obtain ⟨k, -, rfl⟩ := List.mem_map.1 (List.mem_of_find?_eq_some hf)
    simp only [hf, Option.getD_some]
    exact numberedId_ne _

theorem chooseId_ne (g : Graph) (id : Option String) : g.chooseId id ≠ "" := by
  cases id with
  | none => exact g.freshId_ne
  | some i =>
    simp only [chooseId]
    split
    · exact g.freshId_ne
    · rename_i h
      simpa using h

theorem origin_stampNode (g : Graph) (n : Node) : (g.stampNode n).2.origin = n.origin := rfl

namespace Sourced

variable {r : Registry} {g h : Graph} {ds : List Definition}

theorem of_empty (name : String) (r : Registry) (replace : Bool) (labels : Nat) :
    Sourced r { name := name, registry := r, replaceLinks := replace, labels := labels } := by
  refine ⟨rfl, ?_, List.nodup_nil, by simp, List.nodup_nil, by simp⟩
  intro k n hn
  simp [nodeAt?] at hn

/-- Wires are no part of it. -/
theorem of_bare (hg : Sourced r g) (hb : h.bare = g.bare) : Sourced r h := by
  have hnodes {k : Nat} {m : Node} (hm : h.nodeAt? k = some m) :
      ∃ n, g.nodeAt? k = some n ∧ m.origin = n.origin := by
    have hk : h.bare.nodeAt? k = g.bare.nodeAt? k := by rw [hb]
    rw [nodeAt?_bare, nodeAt?_bare, hm] at hk
    obtain ⟨n, hn, hmn⟩ := Option.map_eq_some_iff.1 hk.symm
    exact ⟨n, hn, (congrArg Node.origin hmn).symm⟩
  have hregistry : h.bare.registry = g.bare.registry := by rw [hb]
  have hvars : h.bare.vars = g.bare.vars := by rw [hb]
  have hevents : h.bare.events = g.bare.events := by rw [hb]
  simp only [bare] at hregistry hvars hevents
  refine ⟨hregistry.trans hg.registry, ?_, hvars ▸ hg.varNames, hvars ▸ hg.vars, hevents ▸ hg.eventNames,
    hevents ▸ hg.events⟩
  intro k m hm
  obtain ⟨n, hn, ho⟩ := hnodes hm
  exact (hg.nodes hn).congr ho

theorem modifyNode (hg : Sourced r g) {k : Nat} {f : Node → Node} (hf : ∀ n, (f n).origin = n.origin) :
    Sourced r (g.modifyNode k f) := by
  refine ⟨hg.registry, ?_, hg.varNames, hg.vars, hg.eventNames, hg.events⟩
  intro j m hm
  rw [nodeAt?_modifyNode] at hm
  split at hm
  · obtain ⟨n, hn, rfl⟩ := Option.map_eq_some_iff.1 hm
    exact (hg.nodes hn).congr (hf n)
  · exact hg.nodes hm

theorem stamp (hg : Sourced r g) (v : Value) : Sourced r (g.stamp v).1 := by
  obtain ⟨n, hn⟩ := g.stamp_eq v
  rw [hn]
  exact ⟨hg.registry, hg.nodes, hg.varNames, hg.vars, hg.eventNames, hg.events⟩

theorem stampSide (hg : Sourced r g) (ss : List Socket) : Sourced r (g.stampSide ss).1 := by
  obtain ⟨⟨n, hn⟩, -⟩ := g.stampSide_eq ss
  rw [hn]
  exact ⟨hg.registry, hg.nodes, hg.varNames, hg.vars, hg.eventNames, hg.events⟩

theorem stampParameters (hg : Sourced r g) (ps : List SocketSpec) : Sourced r (g.stampParameters ps).1 := by
  obtain ⟨n, hn⟩ := g.stampParameters_eq ps
  rw [hn]
  exact ⟨hg.registry, hg.nodes, hg.varNames, hg.vars, hg.eventNames, hg.events⟩

theorem insertNode (hg : Sourced r g) {n : Node} (hn : r.Makes n) : Sourced r (g.insertNode n) := by
  have hg' : Sourced r (g.stampNode n).1 := (hg.stampSide n.inputs).stampSide n.outputs
  refine ⟨hg'.registry, ?_, hg'.varNames, hg'.vars, hg'.eventNames, hg'.events⟩
  intro k m hm
  simp only [Graph.insertNode, nodeAt?, Array.getElem?_push] at hm
  split at hm
  · cases hm
    exact hn.congr (g.origin_stampNode n)
  · exact hg'.nodes hm

/-- A node that is added was made from its definition. -/
theorem addNode (hr : r.Standard ds) (hg : Sourced r g) {typeName : String} {id : Option String}
    {overrides : List (String × Value)} {position : Value} {k : Nat}
    (ha : g.addNode typeName id overrides position = .ok (h, k)) : Sourced r h := by
  unfold Graph.addNode at ha
  rw [hg.registry] at ha
  cases hd : r.definition typeName with
  | error e =>
    rw [hd] at ha
    cases ha
  | ok d =>
    rw [hd] at ha
    obtain ⟨n, -, hmake, rfl, -⟩ := addNodeOf_eq_ok ha
    obtain ⟨place, c, inputs, outputs, -, hc, -, -, rfl⟩ := makeNode_eq_ok hmake
    apply hg.insertNode
    constructor
    · exact g.chooseId_ne id
    · rw [← (hr.definition_spec hd).1] at hd
      exact hd
    · exact mergeConfiguration_keys hc

theorem withVariable (hg : Sourced r g) {name : String} {x : Variable} (hx : r.Declares (name, x)) (issued : Nat) :
    Sourced r { g with vars := g.vars.set name x, issued := issued } := by
  refine ⟨hg.registry, hg.nodes, Table.nodup_keys_set hg.varNames name x, ?_, hg.eventNames, hg.events⟩
  intro e he
  rcases Table.mem_entries_set he with rfl | he
  · exact hx
  · exact hg.vars e he

/-- A declared variable is of a type of the registry. -/
theorem declareVariable (hr : r.Standard ds) (hg : Sourced r g) {name typeName : String} {initial : Value}
    (hd : g.declareVariable name typeName initial = .ok h) : Sourced r h := by
  unfold Graph.declareVariable at hd
  split at hd
  · cases hd
  · split at hd
    · cases hd
    · rename_i t ht
      obtain ⟨v, -, hd⟩ := bind_eq_ok.1 hd
      cases hd
      rw [hg.registry] at ht
      refine (hg.stamp v).withVariable ⟨rfl, ?_⟩ _
      rw [(hr.valueType_spec ht).1]
      exact ht

/-- Setting a variable keeps the graph sourced, whether it is there or is made by it. -/
theorem setVariable (hr : r.Standard ds) (hg : Sourced r g) {name : String} {v : Value} {typeName : Option String}
    {told : Option Value} (hs : g.setVariable name v typeName = .ok (h, told)) : Sourced r h := by
  unfold Graph.setVariable at hs
  cases hx : g.vars.get? name with
  | none =>
    rw [hx] at hs
    cases typeName with
    | none => cases hs
    | some t =>
      obtain ⟨g', hd, hs⟩ := bind_eq_ok.1 hs
      cases hs
      exact hg.declareVariable hr hd
  | some x =>
    rw [hx] at hs
    simp only at hs
    split at hs
    · cases hs
    · obtain ⟨w, -, hs⟩ := bind_eq_ok.1 hs
      obtain ⟨initial, -, hs⟩ := bind_eq_ok.1 hs
      obtain ⟨⟨y, news⟩, hy, hs⟩ := bind_eq_ok.1 hs
      cases hs
      obtain ⟨hname, htype⟩ := hg.vars _ (Table.mem_entries_of_get? hx)
      rw [Variable.put_eq_ok hy]
      apply (hg.stamp w).withVariable
      exact ⟨hname, htype⟩

/-- Names may go. -/
theorem withoutNames (hg : Sourced r g) (name : String) :
    Sourced r (g.removeVariable name) ∧ Sourced r (g.removeEvent name) := by
  constructor
  · refine ⟨hg.registry, hg.nodes, Table.nodup_keys_erase hg.varNames name, ?_, hg.eventNames, hg.events⟩
    intro e he
    exact hg.vars e (List.mem_filter.1 he).1
  · refine ⟨hg.registry, hg.nodes, hg.varNames, hg.vars, Table.nodup_keys_erase hg.eventNames name, ?_⟩
    intro e he
    exact hg.events e (List.mem_filter.1 he).1

theorem stampParameters_outline (g : Graph) (ps : List SocketSpec) :
    (g.stampParameters ps).2.map (fun p => (p.name, p.valueType)) = ps.map fun p => (p.name, p.valueType) := by
  induction ps generalizing g with
  | nil => rfl
  | cons p ps ih => exact congrArg (_ :: ·) (ih (g.stamp p.default).1)

/-- A parameter that passes the check carries data under a name of its own, with a default of its type if it had none. -/
theorem checkParameter_eq_ok {event : String} {p q : SocketSpec} (hc : g.checkParameter event p = .ok q) :
    p.isFlow = false ∧ p.name ≠ "exec" ∧ ∃ t, g.registry.valueType p.valueType = .ok t ∧
      q = { p with default := if p.default.isNone then t.create else p.default } := by
  unfold checkParameter at hc
  split at hc
  · cases hc
  · rename_i hplain
    simp only [Bool.or_eq_true, not_or, Bool.not_eq_true, beq_eq_false_iff_ne] at hplain
    obtain ⟨t, ht, hc⟩ := bind_eq_ok.1 hc
    refine ⟨hplain.1, hplain.2, t, ht, ?_⟩
    cases hc
    split
    · rfl
    · rfl

/-- A declared event has checked parameters. -/
theorem declareEvent (hg : Sourced r g) {name : String} {ps : List SocketSpec}
    (hd : g.declareEvent name ps = .ok h) : Sourced r h := by
  unfold Graph.declareEvent at hd
  split at hd
  · cases hd
  · obtain ⟨specs, hspecs, hd⟩ := bind_eq_ok.1 hd
    cases hd
    have hg' := hg.stampParameters specs
    refine ⟨hg'.registry, hg'.nodes, hg'.varNames, hg'.vars, Table.nodup_keys_set hg'.eventNames .., ?_⟩
    intro e he
    rcases Table.mem_entries_set he with rfl | he
    · refine ⟨rfl, ?_⟩
      intro p hp
      have hout : (p.name, p.valueType) ∈ specs.map fun p => (p.name, p.valueType) := by
        rw [← stampParameters_outline g specs]
        exact List.mem_map_of_mem hp
      obtain ⟨q, hq, hpq⟩ := List.mem_map.1 hout
      obtain ⟨o, -, ho⟩ := mem_of_mapM hspecs hq
      obtain ⟨hflow, hexec, t, ht, rfl⟩ := checkParameter_eq_ok ho
      simp only [Prod.mk.injEq] at hpq
      rw [hg.registry] at ht
      rw [SocketSpec.isFlow, ← hpq.1, ← hpq.2]
      exact ⟨hflow, hexec, t, ht⟩
    · exact hg'.events e he

theorem presetInputs (hg : Sourced r g) (k : Nat) (values : List (String × Value)) :
    Sourced r (g.presetInputs k values).1 := by
  induction values generalizing g with
  | nil => exact hg
  | cons value rest ih =>
    obtain ⟨name, v⟩ := value
    unfold Graph.presetInputs
    split
    · exact ih (hg.modifyNode fun _ => rfl)
    · exact hg

theorem disconnectAll (hg : Sourced r g) (hi : Indexed g) (ls : List Link) : Sourced r (g.disconnectAll ls) :=
  hg.of_bare (hi.cut_disconnectAll ls).bare

theorem connect (hg : Sourced r g) (hi : Indexed g) {l : Link} {replace : Option Bool} {w : Wire}
    (hc : g.connect l replace = .ok (h, w)) : Sourced r h := by
  obtain ⟨e, output, input, shown, -, -, -, rfl, -⟩ := connect_eq_ok hc
  have hcut := hg.disconnectAll hi (displaced input)
  have hlay : Sourced r ((g.disconnectAll (displaced input)).lay l (some e)).1 := hcut.of_bare rfl
  exact hlay.of_bare (rewired_plug _ w e).bare

/-- Every operation on registered types that is carried out keeps the parts of the graph where they come
from. -/
theorem attempt (hr : r.Standard ds) (hg : Sourced r g) (hi : Indexed g) {e : Edit} (he : e.isRegistered = true)
    (ha : g.attempt e = .ok h) : Sourced r h := by
  cases e with
  | add typeName id overrides position =>
    obtain ⟨⟨h', k⟩, hadd, rfl⟩ := map_eq_ok.1 ha
    exact hg.addNode hr hadd
  | addOf d id overrides position => cases he
  | remove id =>
    cases ha
    unfold Graph.removeNode
    split
    · have hcut := hg.disconnectAll hi (g.links.filter (·.touches id))
      exact ⟨hcut.registry, hcut.nodes, hcut.varNames, hcut.vars, hcut.eventNames, hcut.events⟩
    · exact hg
  | connect l replace =>
    obtain ⟨⟨h', w⟩, hc, rfl⟩ := map_eq_ok.1 (mapError_eq_ok.1 ha)
    exact hg.connect hi hc
  | disconnect l =>
    cases ha
    exact hg.of_bare (hi.cut_disconnect l).bare
  | disconnectInput id name =>
    cases ha
    unfold Graph.disconnectInput
    split
    · exact hg
    · exact hg.disconnectAll hi _
  | clear =>
    cases ha
    have hcut := hg.disconnectAll hi g.links
    exact ⟨hcut.registry, hcut.nodes, List.nodup_nil, by simp [Graph.clear], List.nodup_nil, by simp [Graph.clear]⟩
  | declareVariable name typeName initial => exact hg.declareVariable hr ha
  | setVariable name v typeName =>
    obtain ⟨⟨h', told⟩, hs, rfl⟩ := map_eq_ok.1 ha
    exact hg.setVariable hr hs
  | removeVariable name =>
    cases ha
    exact (hg.withoutNames name).1
  | declareEvent name ps => exact hg.declareEvent (mapError_eq_ok.1 ha)
  | removeEvent name =>
    cases ha
    exact (hg.withoutNames name).2
  | setLiteral id name v =>
    simp only [Graph.attempt] at ha
    split at ha
    · cases ha
      exact hg.presetInputs ..
    · cases ha

/-- The parts of a graph come from its registry after every history of operations on registered types. -/
theorem edits (hr : r.Standard ds) (hg : Sourced r g) (hi : Indexed g) {es : List Edit}
    (hes : ∀ e ∈ es, e.isRegistered = true) : Sourced r (g.edits es) ∧ Indexed (g.edits es) := by
  have hstep : ∀ g : Graph, ∀ e ∈ es, ∀ g', Sourced r g ∧ Indexed g → g.attempt e = .ok g' →
      Sourced r g' ∧ Indexed g' := by
    rintro g e he g' ⟨hg, hi⟩ ha
    exact ⟨hg.attempt hr hi (hes e he) ha, hi.attempt ha⟩
  exact edits_invariant hstep ⟨hg, hi⟩

end Sourced

end Graph

end FlowGraph
