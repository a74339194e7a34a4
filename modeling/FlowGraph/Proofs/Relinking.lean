import FlowGraph.Proofs.Loading

/-!
Laying the links of a graph again. Between nodes that match those of the graph every link is accepted a
second time, although no link may take the place of another, and they come to stand in the same order.
-/
namespace FlowGraph

namespace Graph

variable {g h : Graph}

/-- A link leads to the matching socket, which has the same type. -/
theorem leads_of_matches (hg : Indexed g) (hh : Indexed h) (hnodes : List.Forall₂ Node.Matches g.nodes h.nodes)
    {side : Side} {l : Link} {e : End} (hl : g.Leads side l e) :
    ∃ e', h.Leads side l e' ∧ h.typeAt? side e' = g.typeAt? side e := by
  obtain ⟨n, hk, hn, hp⟩ := hl
  obtain ⟨hmem, hid⟩ := hg.of_node? (show g.node? (side.nodeOf l) = some n by simp [node?, hk, hn])
  obtain ⟨m, hm, hnm⟩ := mem_left_of_forall₂ hnodes hmem
  obtain ⟨k, hk', hm⟩ := hh.mem_nodes hm
  have hout := hnm.outlines side
  refine ⟨⟨k, e.socket⟩, ⟨m, ?_, hm, ?_⟩, ?_⟩
  · rw [← hid, ← hnm.id]
    exact hk'
  · rw [Node.place?_congr (names_of_outline hout)]
    exact hp
  · obtain ⟨s, hs, -⟩ := Node.getElem?_of_place? hp
    obtain ⟨t, ht, hts⟩ := getElem?_of_outline hout hs
    have htype : t.valueType = s.valueType := congrArg (·.2) hts
    simp [typeAt?, hn, hm, hs, ht, htype]

theorem joins_of_matches (hg : Indexed g) (hh : Indexed h) (hreg : h.registry = g.registry)
    (hnodes : List.Forall₂ Node.Matches g.nodes h.nodes) {l : Link} {e : Ends} (hj : g.Joins l e) :
    ∃ e', h.Joins l e' ∧ h.typeAt? .input e'.target = g.typeAt? .input e.target := by
  obtain ⟨source, hsource, houtput⟩ := leads_of_matches hg hh hnodes (hj.leads .output)
  obtain ⟨target, htarget, hinput⟩ := leads_of_matches hg hh hnodes (hj.leads .input)
  obtain ⟨s, t, hs, ht, hc⟩ := hj.fits
  refine ⟨⟨source, target⟩, ⟨?_, s, t, houtput.trans hs, hinput.trans ht, hreg ▸ hc⟩, hinput⟩
  intro side
  cases side with
  | output => exact hsource
  | input => exact htarget

/-- A link between sockets that fit passes all checks but that of a link already there. -/
theorem checkLink_ok {l : Link} {e : Ends} (hj : h.Joins l e) : ∃ output input shown,
    h.checkLink l = .ok (e, output, input, shown) ∧ h.outputAt? e.source = some output ∧
      h.inputAt? e.target = some input := by
  obtain ⟨n, hk, hn, ho⟩ := hj.leads .output
  obtain ⟨m, hk', hm, hi⟩ := hj.leads .input
  obtain ⟨output, houtput, -⟩ := Node.getElem?_of_place? ho
  obtain ⟨input, hinput, -⟩ := Node.getElem?_of_place? hi
  obtain ⟨s, t, hs, ht, hc⟩ := hj.fits
  simp only [Side.nodeOf, Side.nameOf, Side.endOf, Side.sockets] at hk hn ho hk' hm hi houtput hinput
  have hs : output.valueType = s := by simpa [typeAt?, hn, Side.sockets, houtput] using hs
  have ht : input.valueType = t := by simpa [typeAt?, hm, Side.sockets, hinput] using ht
  refine ⟨output, input, input.labelOn m.id, ?_, ?_, ?_⟩
  · simp only [checkLink, hk, hn, hk', hm, ho, houtput, hi, hinput, hs, ht, hc, Bool.not_true,
      Bool.false_eq_true, if_false, pure, Except.pure]
  · simp [outputAt?, hn, houtput]
  · simp [inputAt?, hm, hinput]

/-- An input to which no link of the graph leads is free. -/
theorem Indexed.wires_eq_nil (hh : Indexed h) {l : Link} {e : Ends} (hj : h.Joins l e)
    (hfree : ∀ l' ∈ h.links, l'.target = l.target → l'.input ≠ l.input) {t : Socket}
    (ht : h.inputAt? e.target = some t) : t.wires = [] := by
  obtain ⟨m, hk, hm, hp⟩ := hj.leads .input
  obtain ⟨m', hm', hs⟩ := Option.bind_eq_some_iff.1 ht
  simp only [Side.endOf] at hm
  rw [hm] at hm'
  cases hm'
  rw [hh.listed .input hk hm hs, List.filter_eq_nil_iff]
  intro w hw hmeets
  simp only [Side.meets, decide_eq_true_eq] at hmeets
  obtain ⟨a, ha, hname⟩ := Node.getElem?_of_place? hmeets.2
  obtain ⟨b, hb, hname'⟩ := Node.getElem?_of_place? hp
  simp only [Side.endOf] at hb
  rw [ha] at hb
  cases hb
  exact hfree w.link (List.mem_map_of_mem hw) hmeets.1 (hname.symm.trans hname')

/-- Two links of a graph that lead to one data input are the same. -/
theorem Indexed.eq_of_target (hg : Indexed g) {l l' : Link} (hl : l ∈ g.links) (hl' : l' ∈ g.links)
    (htarget : l'.target = l.target) (hinput : l'.input = l.input) {e : Ends} (hj : g.Joins l e)
    (hdata : g.typeAt? .input e.target ≠ some ValueType.flowName) : l' = l := by
  obtain ⟨w, hw, rfl⟩ := List.mem_map.1 hl
  obtain ⟨w', hw', rfl⟩ := List.mem_map.1 hl'
  obtain ⟨n, hk, hn, hp⟩ := hj.leads .input
  obtain ⟨s, hs, -⟩ := Node.getElem?_of_place? hp
  have hleads' : g.Leads .input w'.link (Side.endOf .input e) := by
    refine ⟨n, ?_, hn, ?_⟩
    · simpa [Side.nodeOf, htarget] using hk
    · simpa [Side.nameOf, hinput] using hp
  have hflow : s.isFlow = false := by
    apply Bool.eq_false_iff.2
    intro hf
    have htype : s.valueType = ValueType.flowName := by simpa [Socket.isFlow] using hf
    simp only [Side.endOf, Side.sockets] at hn hs
    exact hdata (by simp [typeAt?, hn, hs, Side.sockets, htype])
  have h1 := hg.mem_wires_socket hw (hj.leads .input) hn hs
  have h2 := hg.mem_wires_socket hw' hleads' hn hs
  have hlen := hg.single hk hn hs hflow
  cases hws : s.wires with
  | nil =>
    rw [hws] at h1
    cases h1
  | cons x rest =>
    have hrest : rest = [] := by simpa [hws] using hlen
    rw [hws, hrest, List.mem_singleton] at h1 h2
    rw [h1, h2]

/-- A new link to a free input is accepted and goes last, and all else stays. -/
theorem connect_ok (hh : Indexed h) {l : Link} {e : Ends} (hj : h.Joins l e) (hnew : l ∉ h.links)
    (hfree : h.typeAt? .input e.target ≠ some ValueType.flowName →
      ∀ l' ∈ h.links, l'.target = l.target → l'.input ≠ l.input) :
    ∃ h', Document.loadLink h l = .ok h' ∧ h'.bare = h.bare ∧ h'.links = h.links ++ [l] := by
  obtain ⟨output, input, shown, hcheck, houtput, hinput⟩ := checkLink_ok hj
  have hnone : displaced input = [] := by
    by_cases hflow : input.isFlow = true
    · simp [displaced, hflow]
    · have htype : h.typeAt? .input e.target ≠ some ValueType.flowName := by
        obtain ⟨m, hm, hs⟩ := Option.bind_eq_some_iff.1 hinput
        simpa [typeAt?, hm, Side.sockets, hs, Socket.isFlow] using hflow
      simp [displaced, hflow, hh.wires_eq_nil hj (hfree htype) hinput]
  have hout : l ∉ output.wires.map (·.link) := by
    intro hin
    obtain ⟨w, hw, rfl⟩ := List.mem_map.1 hin
    obtain ⟨n, hk, hn, -⟩ := hj.leads .output
    obtain ⟨n', hn', hs⟩ := Option.bind_eq_some_iff.1 houtput
    simp only [Side.endOf] at hn
    rw [hn] at hn'
    cases hn'
    rw [hh.listed .output hk hn hs] at hw
    exact hnew (List.mem_map_of_mem (List.mem_filter.1 hw).1)
  have hconnect : h.connect l (some false) =
      .ok ((h.lay l (some e)).1.plug (h.lay l (some e)).2 e, (h.lay l (some e)).2) := by
    simp only [connect, hcheck, bind, Except.bind, if_neg hout, hnone, List.isEmpty_nil, Bool.not_true,
      Bool.false_and, Bool.false_eq_true, if_false, pure, Except.pure]
    rfl
  refine ⟨(h.lay l (some e)).1.plug (h.lay l (some e)).2 e, ?_, ?_, ?_⟩
  · simp only [Document.loadLink, hconnect]
  · exact (rewired_plug (h.lay l (some e)).1 (h.lay l (some e)).2 e).bare
  · simp [links, plug, lay, modifyOutputWires, modifyInputWires, modifyNode]

theorem nodes_bare (g : Graph) : g.bare.nodes = g.nodes.map Node.bare := by
  simp only [nodes, List.map_filterMap]
  apply List.filterMap_congr
  intro k _
  exact nodeAt?_bare g k

/-- Wires are no part of what makes nodes match. -/
theorem matches_of_bare {n m m' : Node} (hb : m'.bare = m.bare) (hnm : n.Matches m) : n.Matches m' := by
  have hinputs : m'.inputs.map Socket.bare = m.inputs.map Socket.bare := congrArg Node.inputs hb
  have houtputs : m'.outputs.map Socket.bare = m.outputs.map Socket.bare := congrArg Node.outputs hb
  refine ⟨(congrArg Node.id hb).trans hnm.id, (congrArg Node.typeName hb).trans hnm.typeName,
    (congrArg Node.position hb).trans hnm.position, (congrArg Node.configuration hb).trans hnm.configuration, ?_, ?_⟩
  · have hall : List.Forall₂ Socket.Matches n.inputs (m.inputs.map Socket.bare) := by
      rw [List.forall₂_map_right_iff]
      exact hnm.inputs.imp fun s t h => ⟨h.outline, h.value⟩
    rw [← hinputs, List.forall₂_map_right_iff] at hall
    exact hall.imp fun s t h => ⟨h.outline, h.value⟩
  · have hout := congrArg (List.map Socket.outline) houtputs
    rw [List.map_map, List.map_map] at hout
    exact Eq.trans hout hnm.outputs

theorem nodes_of_bare {h' : Graph} (hb : h'.bare = h.bare) (hnodes : List.Forall₂ Node.Matches g.nodes h.nodes) :
    List.Forall₂ Node.Matches g.nodes h'.nodes := by
  have hall : List.Forall₂ Node.Matches g.nodes (h.nodes.map Node.bare) := by
    rw [List.forall₂_map_right_iff]
    refine hnodes.imp ?_
    intro n m hnm
    refine matches_of_bare ?_ hnm
    simp [Node.bare, Socket.bare]
  rw [← nodes_bare, ← hb, nodes_bare, List.forall₂_map_right_iff] at hall
  refine hall.imp ?_
  intro n m hnm
  refine matches_of_bare ?_ hnm
  simp [Node.bare, Socket.bare]

/-- All links are accepted again, one after the other. -/
theorem loadLinks_ok (hg : Indexed g) {ls : List Link} (hh : Indexed h) (hreg : h.registry = g.registry)
    (hnodes : List.Forall₂ Node.Matches g.nodes h.nodes) (hlinks : h.links ++ ls = g.links) :
    ∃ h', ls.foldlM Document.loadLink h = .ok h' ∧ h'.bare = h.bare ∧ h'.links = g.links := by
  induction ls generalizing h with
  | nil => exact ⟨h, rfl, rfl, by simpa using hlinks⟩
  | cons l ls ih =>
    have hl : l ∈ g.links := by simp [← hlinks]
    have hnew : l ∉ h.links := by
      intro hin
      have hnodup := hg.nodup
      rw [← hlinks, List.nodup_append] at hnodup
      exact hnodup.2.2 l hin l List.mem_cons_self rfl
    obtain ⟨w, hw, rfl⟩ := List.mem_map.1 hl
    obtain ⟨e, hj, -⟩ := hg.joined w hw
    obtain ⟨e', hj', htype⟩ := joins_of_matches hg hh hreg hnodes hj
    obtain ⟨h₁, hload, hbare, hlinks₁⟩ := connect_ok hh hj' hnew (by
      intro hdata l' hl' htarget hinput
      have hin : l' ∈ g.links := by simp [← hlinks, hl']
      rw [htype] at hdata
      exact hnew (hg.eq_of_target hl hin htarget hinput hj hdata ▸ hl'))
    have hreg₁ : h₁.registry = g.registry := by
      have hr : h₁.bare.registry = h.bare.registry := by rw [hbare]
      exact Eq.trans hr hreg
    obtain ⟨h', hloads, hbare', hlinks'⟩ := ih (hh.loadLink hload) hreg₁ (nodes_of_bare hbare hnodes)
      (by simp [hlinks₁, hlinks])
    refine ⟨h', ?_, hbare'.trans hbare, hlinks'⟩
    rw [List.foldlM_cons, hload]
    exact hloads

end Graph

end FlowGraph
