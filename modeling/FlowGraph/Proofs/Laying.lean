import FlowGraph.Proofs.Connecting
import FlowGraph.Proofs.Shapes

/-!
Where wires were laid. Nodes that were taken out of a graph and wires that were unplugged may still be in use, so what is
said of the wires of a graph is said here of all of them: whatever was done to a graph, every wire that was ever laid leads
from an output to an input that it fits, and stands at no other sockets than those.
-/
namespace FlowGraph

/-- What the operation takes a new node from. -/
def Edit.Brings (r : Registry) (d : Definition) : Edit → Prop
  | add typeName _ _ _ => r.definition typeName = .ok d
  | addOf d' _ _ _ => d' = d
  | _ => False

/-- The types of all data sockets of the node are registered. -/
def Node.HasTypes (r : Registry) (n : Node) : Prop :=
  ∀ side : Side, ∀ o ∈ (side.sockets n).map Socket.outline, o.2 ≠ ValueType.flowName → ∃ t, r.valueType o.2 = .ok t

namespace Graph

/-- Every wire that was laid leads from an output to an input that it fits, and the wires at a socket were laid there. -/
structure Laid (g : Graph) : Prop where
  fits : ∀ {w : Wire} {e : Ends}, g.endsOf w = some e → ∃ s t, g.typeAt? .output e.source = some s ∧
    g.typeAt? .input e.target = some t ∧ g.registry.canConnect s t = true
  listed : ∀ {side : Side} {e : End} {ws : List Wire}, g.wiresAt? side e = some ws →
    ∀ w ∈ ws, ∃ ends, g.endsOf w = some ends ∧ side.endOf ends = e

/-- No node comes in and no wire is laid; sockets may lose wires. -/
structure Thins (g h : Graph) : Prop where
  ends : h.ends = g.ends
  nodes : ∀ k, g.nodeAt? k = none → h.nodeAt? k = none
  wires : ∀ {side : Side} {e : End} {ws : List Wire}, h.wiresAt? side e = some ws → ∃ vs, g.wiresAt? side e = some vs ∧ ws ⊆ vs

variable {g h : Graph}

section Thinning

theorem Thins.refl (g : Graph) : Thins g g := ⟨rfl, fun _ => id, fun hws => ⟨_, hws, List.Subset.refl _⟩⟩

theorem Thins.of_sameLinks (hs : SameLinks g h) : Thins g h := by
  refine ⟨hs.ends, fun k hk => ?_, fun {side e ws} hws => ?_⟩
  · have hframe := hs.nodes k
    rw [hk, Option.map_none, Option.map_eq_none_iff] at hframe
    exact hframe
  · obtain ⟨s, hat, rfl⟩ := Option.map_eq_some_iff.1 hws
    obtain ⟨m, hm, hp⟩ := Option.bind_eq_some_iff.1 hat
    obtain ⟨n, hn, hf⟩ := hs.nodeAt? hm
    obtain ⟨t, ht, hst⟩ := Side.getElem?_of_frame hf.symm hp
    have hwires : t.wires = s.wires := congrArg (·.2.2) hst
    exact ⟨t.wires, by simp [wiresAt?, socketAt?, hn, ht], by rw [hwires]; exact List.Subset.refl _⟩

theorem nodeAt?_eq_none_of_bare (hb : h.bare = g.bare) {k : Nat} (hk : g.nodeAt? k = none) : h.nodeAt? k = none := by
  have hsame : h.bare.nodeAt? k = g.bare.nodeAt? k := by rw [hb]
  rwa [nodeAt?_bare, nodeAt?_bare, hk, Option.map_none, Option.map_eq_none_iff] at hsame

theorem thins_disconnectAll (hi : Indexed g) (ls : List Link) : Thins g (g.disconnectAll ls) := by
  obtain ⟨F, hF, hless, -⟩ := hi.rewired_disconnectAll ls
  refine ⟨(hi.cut_disconnectAll ls).ends, fun k hk => nodeAt?_eq_none_of_bare hF.bare hk, fun {side e ws} hws => ?_⟩
  rw [hF.wiresAt?] at hws
  obtain ⟨vs, hvs, rfl⟩ := Option.map_eq_some_iff.1 hws
  exact ⟨vs, hvs, hless side e vs⟩

/-- The tables of names are no part of it. -/
theorem Thins.withNames (ht : Thins g h) (ids : Table String Nat) (vars : Table String Variable)
    (events : Table String CustomEvent) : Thins g { h with ids := ids, vars := vars, events := events } :=
  ⟨ht.ends, ht.nodes, ht.wires⟩

/-- An operation that neither brings in a node nor makes a link only takes wires away. -/
theorem thins_attempt (hi : Indexed g) {e : Edit} (ha : g.attempt e = .ok h) :
    (∃ d id overrides position k, e.Brings g.registry d ∧ g.addNodeOf d id overrides position = .ok (h, k)) ∨
      (∃ l replace w, g.connect l replace = .ok (h, w)) ∨ Thins g h := by
  cases e with
  | add typeName id overrides position =>
    obtain ⟨⟨h', k⟩, hadd, rfl⟩ := map_eq_ok.1 ha
    unfold addNode at hadd
    split at hadd
    · cases hadd
    · rename_i d hd
      exact .inl ⟨d, id, overrides, position, k, hd, hadd⟩
  | addOf d id overrides position =>
    obtain ⟨⟨h', k⟩, hadd, rfl⟩ := map_eq_ok.1 ha
    exact .inl ⟨d, id, overrides, position, k, rfl, hadd⟩
  | connect l replace =>
    obtain ⟨⟨h', w⟩, hc, rfl⟩ := map_eq_ok.1 (mapError_eq_ok.1 ha)
    exact .inr (.inl ⟨l, replace, w, hc⟩)
  | remove id =>
    cases ha
    refine .inr (.inr ?_)
    unfold removeNode
    split
    · exact (thins_disconnectAll hi _).withNames ..
    · exact .refl g
  | disconnect l =>
    cases ha
    exact .inr (.inr (thins_disconnectAll hi [l]))
  | disconnectInput id name =>
    cases ha
    refine .inr (.inr ?_)
    unfold disconnectInput
    split
    · exact .refl g
    · exact thins_disconnectAll hi _
  | clear =>
    cases ha
    exact .inr (.inr ((thins_disconnectAll hi g.links).withNames ..))
  | declareVariable name typeName initial => exact .inr (.inr (.of_sameLinks (sameLinks_declareVariable ha)))
  | setVariable name v typeName =>
    obtain ⟨⟨h', told⟩, hs, rfl⟩ := map_eq_ok.1 ha
    exact .inr (.inr (.of_sameLinks (sameLinks_setVariable hs)))
  | removeVariable name =>
    cases ha
    exact .inr (.inr (.of_sameLinks ((SameLinks.refl g).withNames ..)))
  | declareEvent name ps => exact .inr (.inr (.of_sameLinks (sameLinks_declareEvent (mapError_eq_ok.1 ha))))
  | removeEvent name =>
    cases ha
    exact .inr (.inr (.of_sameLinks ((SameLinks.refl g).withNames ..)))
  | setLiteral id name v =>
    simp only [Graph.attempt] at ha
    split at ha
    · cases ha
      exact .inr (.inr (.of_sameLinks (g.sameLinks_presetInputs ..)))
    · cases ha

end Thinning

section Ends

theorem Thins.endsOf (ht : Thins g h) (w : Wire) : h.endsOf w = g.endsOf w := by rw [Graph.endsOf, Graph.endsOf, ht.ends]

theorem endsOf_insertNode (g : Graph) (n : Node) (w : Wire) : (g.insertNode n).endsOf w = g.endsOf w := by
  obtain ⟨⟨labels, hlabels⟩, -⟩ := g.stampNode_eq n
  simp only [Graph.insertNode, hlabels]
  rfl

theorem endsOf_laid {w : Wire} {ends : Ends} (hw : g.endsOf w = some ends) (l : Link) (e : Ends) :
    (g.laid l e).endsOf w = some ends := by
  rw [endsOf, Option.join_eq_some_iff] at hw
  have hlt : w.serial < g.ends.size := (Array.getElem?_eq_some_iff.1 hw).1
  rw [endsOf, ends_laid, Array.getElem?_push_lt hlt, ← Array.getElem?_eq_getElem hlt, hw]
  rfl

/-- Where a wire was laid does not change, also when it is unplugged. -/
theorem endsOf_attempt (hi : Indexed g) {e : Edit} (ha : g.attempt e = .ok h) {w : Wire} {ends : Ends}
    (hw : g.endsOf w = some ends) : h.endsOf w = some ends := by
  rcases thins_attempt hi ha with ⟨d, id, overrides, position, k, -, hadd⟩ | ⟨l, replace, v, hc⟩ | ht
  · obtain ⟨n, -, -, rfl, -⟩ := addNodeOf_eq_ok hadd
    exact (endsOf_insertNode g n w).trans hw
  · obtain ⟨ends', output, input, shown, -, -, -, rfl, rfl⟩ := connect_eq_ok hc
    exact endsOf_laid (((thins_disconnectAll hi _).endsOf w).trans hw) ..
  · exact (ht.endsOf w).trans hw

end Ends

/-- The types of sockets do not change. -/
theorem Step.typeAt? {e : Edit} (hs : Step g e h) {side : Side} {x : End} {t : String} (ht : g.typeAt? side x = some t) :
    h.typeAt? side x = some t := by
  obtain ⟨s, hat, rfl⟩ := Option.map_eq_some_iff.1 ht
  obtain ⟨n, hn, hp⟩ := Option.bind_eq_some_iff.1 hat
  obtain ⟨m, hm, hfollows⟩ := hs.kept hn
  have hout := congrArg (·[x.socket]?) (hfollows.outlines side)
  simp only [List.getElem?_map, hp, Option.map_some] at hout
  obtain ⟨s', hs', hsame⟩ := Option.map_eq_some_iff.1 hout
  have htype : s'.valueType = s.valueType := congrArg Prod.snd hsame
  simp [Graph.typeAt?, hm, hs', htype]

namespace Laid

theorem of_empty (name : String) (r : Registry) (replace : Bool) (labels : Nat) :
    Laid { name := name, registry := r, replaceLinks := replace, labels := labels } := by
  constructor
  · intro w e he
    simp [endsOf] at he
  · intro side e ws hws
    simp [wiresAt?, socketAt?, nodeAt?] at hws

theorem fits_step {e : Edit} (hg : Laid g) (hs : Step g e h) {ends : Ends}
    (hends : ∃ w, g.endsOf w = some ends) : ∃ s t, h.typeAt? .output ends.source = some s ∧
      h.typeAt? .input ends.target = some t ∧ h.registry.canConnect s t = true := by
  obtain ⟨w, hw⟩ := hends
  obtain ⟨s, t, hsource, htarget, hfit⟩ := hg.fits hw
  exact ⟨s, t, hs.typeAt? hsource, hs.typeAt? htarget, hs.registry ▸ hfit⟩

theorem thin {e : Edit} (hg : Laid g) (hs : Step g e h) (ht : Thins g h) : Laid h := by
  refine ⟨fun {w ends} hw => hg.fits_step hs ⟨w, ht.endsOf w ▸ hw⟩, fun hws w hw => ?_⟩
  obtain ⟨vs, hvs, hless⟩ := ht.wires hws
  rw [ht.endsOf]
  exact hg.listed hvs w (hless hw)

/-- A new node has no wires. -/
theorem addNodeOf {e : Edit} (hg : Laid g) (hs : Step g e h) {d : Definition} {id : Option String}
    {overrides : List (String × Value)} {position : Value} {k : Nat} (ha : g.addNodeOf d id overrides position = .ok (h, k)) :
    Laid h := by
  obtain ⟨n, -, hmake, rfl, -⟩ := addNodeOf_eq_ok ha
  obtain ⟨⟨labels, hlabels⟩, hframe⟩ := g.stampNode_eq n
  have hinsert : g.insertNode n =
      { g with labels := labels, arena := g.arena.push (g.stampNode n).2, ids := g.ids.set n.id g.arena.size } := by
    simp only [Graph.insertNode, hlabels]
    rfl
  refine ⟨fun {w ends} hw => hg.fits_step hs ⟨w, endsOf_insertNode g n w ▸ hw⟩, fun {side e ws} hws w hw => ?_⟩
  rw [endsOf_insertNode]
  simp only [hinsert, wiresAt?, socketAt?, nodeAt?, Array.getElem?_push] at hws
  split at hws
  · obtain ⟨s, hat, rfl⟩ := Option.map_eq_some_iff.1 hws
    obtain ⟨t, ht, hst⟩ := Side.getElem?_of_frame hframe hat
    have hwires : t.wires = s.wires := congrArg (·.2.2) hst
    obtain ⟨place, c, inputs, outputs, -, -, hin, hout, rfl⟩ := makeNode_eq_ok hmake
    have hnone : t.wires = [] := by
      cases side with
      | input => exact wires_of_buildSide hin t (List.mem_of_getElem? ht)
      | output => exact wires_of_buildSide hout t (List.mem_of_getElem? ht)
    rw [← hwires, hnone] at hw
    cases hw
  · exact hg.listed hws w hw

/-- A wire that is laid between sockets that it fits is put in there. -/
theorem laid (hg : Laid g) {l : Link} {e : Ends} (hj : g.Joins l e) : Laid (g.laid l e) := by
  have hbare := (rewired_laid g l e).bare
  have htype {side : Side} {x : End} {t : String} (ht : g.typeAt? side x = some t) :
      (g.laid l e).typeAt? side x = some t := by
    rw [← typeAt?_bare, hbare, typeAt?_bare, ht]
  have hregistry : (g.laid l e).registry = g.registry := (congrArg Graph.registry hbare :)
  constructor
  · intro w ends hw
    rw [hregistry]
    rw [endsOf, ends_laid, Array.getElem?_push] at hw
    split at hw
    · cases hw
      obtain ⟨s, t, hs, ht, hfit⟩ := hj.fits
      exact ⟨s, t, htype hs, htype ht, hfit⟩
    · obtain ⟨s, t, hs, ht, hfit⟩ := hg.fits hw
      exact ⟨s, t, htype hs, htype ht, hfit⟩
  · intro side x ws hws w hw
    rw [(rewired_laid g l e).wiresAt?] at hws
    obtain ⟨vs, hvs, rfl⟩ := Option.map_eq_some_iff.1 hws
    unfold atEnds at hw
    split at hw
    · rename_i hx
      rcases List.mem_append.1 hw with hw | hw
      · obtain ⟨ends, hends, hend⟩ := hg.listed hvs w hw
        exact ⟨ends, endsOf_laid hends l e, hend⟩
      · rw [List.mem_singleton.1 hw]
        exact ⟨e, by simp [endsOf, ends_laid], hx.symm⟩
    · obtain ⟨ends, hends, hend⟩ := hg.listed hvs w hw
      exact ⟨ends, endsOf_laid hends l e, hend⟩

theorem attempt (hg : Laid g) (hi : Indexed g) {e : Edit} (ha : g.attempt e = .ok h) : Laid h := by
  have hs : Step g e h := .attempt hi ha
  rcases thins_attempt hi ha with ⟨d, id, overrides, position, k, -, hadd⟩ | ⟨l, replace, w, hc⟩ | ht
  · exact hg.addNodeOf hs hadd
  · obtain ⟨ends, output, input, shown, hcheck, -, -, rfl, rfl⟩ := connect_eq_ok hc
    have hcut := hi.cut_disconnectAll (displaced input)
    refine Laid.laid (hg.thin (.of_disconnectAll (e := e) hi _) (thins_disconnectAll hi _)) ?_
    exact (Indexed.of_checkLink hcheck).1.of_bare hcut.bare
  · exact hg.thin hs ht

theorem edits (hg : Laid g) (hi : Indexed g) (es : List Edit) : Laid (g.edits es) := by
  have hstep : ∀ g : Graph, ∀ e ∈ es, ∀ h, Indexed g ∧ Laid g → g.attempt e = .ok h → Indexed h ∧ Laid h :=
    fun g e _ h ⟨hi, hg⟩ ha => ⟨hi.attempt ha, hg.attempt hi ha⟩
  exact (edits_invariant hstep ⟨hi, hg⟩).2

end Laid

/-- A node that an operation brings in was made from a definition that it brings. -/
theorem made_of_attempt (hi : Indexed g) {e : Edit} (ha : g.attempt e = .ok h) {k : Nat} {m : Node} (hn : g.nodeAt? k = none)
    (hm : h.nodeAt? k = some m) : ∃ d id overrides position n, e.Brings g.registry d ∧
      g.makeNode d id overrides position = .ok n ∧ m = (g.stampNode n).2 := by
  rcases thins_attempt hi ha with ⟨d, id, overrides, position, j, hd, hadd⟩ | ⟨l, replace, w, hc⟩ | ht
  · obtain ⟨n, -, hmake, rfl, -⟩ := addNodeOf_eq_ok hadd
    obtain ⟨⟨labels, hlabels⟩, -⟩ := g.stampNode_eq n
    simp only [Graph.insertNode, hlabels, nodeAt?, Array.getElem?_push] at hm
    split at hm
    · cases hm
      exact ⟨d, _, overrides, position, n, hd, hmake, rfl⟩
    · cases hn.symm.trans hm
  · obtain ⟨ends, output, input, shown, -, -, -, rfl, rfl⟩ := connect_eq_ok hc
    have hbare := (rewired_laid (g.disconnectAll (displaced input)) l ends).bare
    have hnone := nodeAt?_eq_none_of_bare (hbare.trans (hi.cut_disconnectAll (displaced input)).bare) hn
    exact absurd (hm.symm.trans hnone) (Option.some_ne_none m)
  · exact absurd (hm.symm.trans (ht.nodes k hn)) (Option.some_ne_none m)

/-- Where no node comes in but those of definitions with the property, every node is of such a definition. -/
theorem definition_attempt {P : Definition → Prop} (hg : ∀ {k : Nat} {n : Node}, g.nodeAt? k = some n → P n.definition)
    (hi : Indexed g) {e : Edit} (he : ∀ d, e.Brings g.registry d → P d) (ha : g.attempt e = .ok h) {k : Nat} {m : Node}
    (hm : h.nodeAt? k = some m) : P m.definition := by
  have hs : Step g e h := .attempt hi ha
  cases hn : g.nodeAt? k with
  | some n =>
    obtain ⟨m', hm', hfollows⟩ := hs.kept hn
    cases hm.symm.trans hm'
    have hdefinition : m.definition = n.definition := congrArg (·.2.1) hfollows.origin
    rw [hdefinition]
    exact hg hn
  | none =>
    obtain ⟨d, id, overrides, position, n, hd, hmake, rfl⟩ := made_of_attempt hi ha hn hm
    obtain ⟨place, c, inputs, outputs, -, -, -, -, rfl⟩ := makeNode_eq_ok hmake
    exact he d hd

/-- The sockets of a side are of types that the registry has. -/
theorem hasTypes_buildSide {source : SocketSource} {c : Configuration} {ss : List Socket} (hb : g.buildSide source c = .ok ss) :
    ∀ o ∈ ss.map Socket.outline, o.2 ≠ ValueType.flowName → ∃ t, g.registry.valueType o.2 = .ok t := by
  obtain ⟨specs, -, hbuild⟩ := bind_eq_ok.1 hb
  intro o ho hdata
  obtain ⟨s, hs, rfl⟩ := List.mem_map.1 ho
  obtain ⟨spec, -, hspec⟩ := mem_of_mapM hbuild hs
  have htype : s.valueType = spec.valueType := by rw [buildSocket_eq_ok hspec]
  have hflow : spec.isFlow = false := by
    rw [SocketSpec.isFlow, ← htype]
    exact beq_eq_false_iff_ne.2 hdata
  unfold buildSocket at hspec
  simp only [hflow, Bool.false_eq_true, if_false] at hspec
  split at hspec
  · cases hspec
  · rename_i t ht
    exact ⟨t, by rw [Socket.outline, htype, ht]⟩

/-- A graph stays with its registry, and the types of all data sockets of its nodes are registered there, whatever is done to
it. -/
theorem hasTypes_of_edits (name : String) (r : Registry) (replace : Bool) (labels : Nat) (es : List Edit) :
    (edits { name := name, registry := r, replaceLinks := replace, labels := labels } es).registry = r ∧ ∀ k n,
      (edits { name := name, registry := r, replaceLinks := replace, labels := labels } es).nodeAt? k = some n → n.HasTypes r := by
  have hstep : ∀ g : Graph, ∀ e ∈ es, ∀ h, (g.registry = r ∧ Indexed g ∧ ∀ k n, g.nodeAt? k = some n → n.HasTypes r) →
      g.attempt e = .ok h → h.registry = r ∧ Indexed h ∧ ∀ k n, h.nodeAt? k = some n → n.HasTypes r := by
    rintro g e - h ⟨rfl, hi, hg⟩ ha
    have hs : Step g e h := .attempt hi ha
    refine ⟨hs.registry, hi.attempt ha, fun k m hm => ?_⟩
    cases hn : g.nodeAt? k with
    | some n =>
      obtain ⟨m', hm', hfollows⟩ := hs.kept hn
      cases hm.symm.trans hm'
      intro side
      rw [hfollows.outlines]
      exact hg k n hn side
    | none =>
      obtain ⟨d, id, overrides, position, n, -, hmake, rfl⟩ := made_of_attempt hi ha hn hm
      obtain ⟨place, c, inputs, outputs, -, -, hin, hout, rfl⟩ := makeNode_eq_ok hmake
      intro side
      rw [Side.outlines_of_frame (g.stampNode_eq _).2]
      cases side with
      | input => exact hasTypes_buildSide hin
      | output => exact hasTypes_buildSide hout
  have hend := edits_invariant (g := { name := name, registry := r, replaceLinks := replace, labels := labels }) hstep
    ⟨rfl, .of_empty rfl rfl, fun k n hn => by simp [nodeAt?] at hn⟩
  exact ⟨hend.1, hend.2.2⟩

end Graph

/-- Where graphs are built by operations alone, the types of all data inputs are known. -/
theorem World.typed_of_edits {w : World} (h : ∀ k, ∃ name r replace labels es,
    w.graph k = Graph.edits { name := name, registry := r, replaceLinks := replace, labels := labels } es) : w.Typed := by
  intro x s hs hflow
  obtain ⟨name, r, replace, labels, es, hgraph⟩ := h x.graph
  obtain ⟨hregistry, htypes⟩ := Graph.hasTypes_of_edits name r replace labels es
  rw [← hgraph] at hregistry htypes
  cases hn : (w.graph x.graph).nodeAt? x.serial with
  | none =>
    rw [World.node, hn] at hs
    cases hs
  | some n =>
    rw [World.node, hn] at hs
    rw [World.registryOf, hregistry]
    exact htypes x.serial n hn .input s.outline (List.mem_map_of_mem hs) (beq_eq_false_iff_ne.1 hflow)

end FlowGraph
