import FlowGraph.Graph.Check
import FlowGraph.Proofs.Editing
import FlowGraph.Proofs.Wiring
import Mathlib.Data.List.Basic

/-!
The index of links. A wire stands in three lists: that of the graph, that of the output it leaves and that
of the input it arrives at. Main statement: after every edit history the lists at the sockets are the parts
of the graph's list that belong there, in its order, and the checks of a graph find nothing wrong with
its links.
-/
namespace FlowGraph

namespace Graph

/-- The three lists of wires agree. -/
structure Indexed (g : Graph) : Prop where
  keys : g.ids.keys.Nodup
  placed : ∀ {id : String} {k : Nat}, g.serial? id = some k → ∃ n, g.nodeAt? k = some n ∧ n.id = id
  nodup : g.links.Nodup
  joined : ∀ w ∈ g.wires, ∃ e, g.Joins w.link e ∧ g.endsOf w = some e
  listed : ∀ (side : Side) {id : String} {k : Nat} {n : Node} {p : Nat} {s : Socket},
    g.serial? id = some k → g.nodeAt? k = some n → (side.sockets n)[p]? = some s →
      s.wires = g.wires.filter (side.meets id (side.sockets n) p)
  single : ∀ {id : String} {k : Nat} {n : Node} {p : Nat} {s : Socket},
    g.serial? id = some k → g.nodeAt? k = some n → n.inputs[p]? = some s → s.isFlow = false →
      s.wires.length ≤ 1

namespace Indexed

variable {g h : Graph}

/-- Two identifiers do not share a node. -/
theorem serial?_inj (hg : Indexed g) {a b : String} {k : Nat} (ha : g.serial? a = some k)
    (hb : g.serial? b = some k) : a = b := by
  obtain ⟨n, hn, rfl⟩ := hg.placed ha
  obtain ⟨m, hm, rfl⟩ := hg.placed hb
  rw [hn] at hm
  cases hm
  rfl

/-- A wire belongs at a socket exactly if the end of its link is there. -/
theorem meets_iff (hg : Indexed g) {side : Side} {id : String} {k p : Nat} {n : Node} {w : Wire} {e : End}
    (hk : g.serial? id = some k) (hn : g.nodeAt? k = some n) (he : g.Leads side w.link e) :
    side.meets id (side.sockets n) p w = true ↔ (⟨k, p⟩ : End) = e := by
  obtain ⟨m, hs, hm, hp⟩ := he
  simp only [Side.meets, decide_eq_true_eq]
  constructor
  · rintro ⟨hid, hplace⟩
    rw [hid, hk] at hs
    have hek : k = e.node := by simpa using hs
    rw [← hek, hn] at hm
    cases hm
    rw [hplace] at hp
    have hep : p = e.socket := by simpa using hp
    rw [hek, hep]
  · intro hke
    rw [← hke] at hs hm hp
    rw [hn] at hm
    cases hm
    exact ⟨hg.serial?_inj hs hk, hp⟩

/-- The wires at a socket have distinct links. -/
theorem nodup_filter (hg : Indexed g) (q : Wire → Bool) : ((g.wires.filter q).map (·.link)).Nodup :=
  (List.filter_sublist.map _).nodup hg.nodup

/-- The invariant does not depend on what sockets hold. -/
theorem congr (hg : Indexed g) (hs : SameLinks g h) : Indexed h := by
  have hlinks : h.links = g.links := by rw [links, links, hs.wires]
  refine ⟨by rw [hs.ids]; exact hg.keys, ?_, by rw [hlinks]; exact hg.nodup, ?_, ?_, ?_⟩
  · intro id k hk
    rw [hs.serial?] at hk
    obtain ⟨n, hn, hid⟩ := hg.placed hk
    obtain ⟨m, hm, hf⟩ := hs.symm.nodeAt? hn
    exact ⟨m, hm, (congrArg (·.1) hf).trans hid⟩
  · intro w hw
    rw [hs.wires] at hw
    obtain ⟨e, hj, he⟩ := hg.joined w hw
    refine ⟨e, hs.symm.joins hj, ?_⟩
    rw [endsOf, hs.ends]
    exact he
  · intro side id k m p s hk hm hp
    rw [hs.serial?] at hk
    obtain ⟨n, hn, hf⟩ := hs.nodeAt? hm
    obtain ⟨t, ht, hst⟩ := Side.getElem?_of_frame hf.symm hp
    have hwires : t.wires = s.wires := congrArg (·.2.2) hst
    have hmeets : side.meets id (side.sockets m) p = side.meets id (side.sockets n) p := by
      funext w
      exact Side.meets_congr (Side.names_of_frame hf.symm side) side id p w
    rw [← hwires, hg.listed side hk hn ht, hs.wires, hmeets]
  · intro id k m p s hk hm hp hflow
    rw [hs.serial?] at hk
    obtain ⟨n, hn, hf⟩ := hs.nodeAt? hm
    have hside : (Side.sockets .input m)[p]? = some s := hp
    obtain ⟨t, ht, hst⟩ := Side.getElem?_of_frame hf.symm hside
    have hwires : t.wires = s.wires := congrArg (·.2.2) hst
    have htype : t.valueType = s.valueType := congrArg (·.2.1) hst
    rw [← hwires]
    refine hg.single hk hn ht ?_
    rw [Socket.isFlow, htype]
    exact hflow

/-- What remains to be shown after a change of wires at sockets. -/
theorem of_rewired (hg : Indexed g) {F : Side → End → List Wire → List Wire} (hF : Rewired g h F)
    (hnodup : h.links.Nodup) (hjoined : ∀ w ∈ h.wires, ∃ e, g.Joins w.link e ∧ h.endsOf w = some e)
    (hlisted : ∀ (side : Side) {id : String} {k : Nat} {n : Node} (p : Nat), g.serial? id = some k →
      g.nodeAt? k = some n → F side ⟨k, p⟩ (g.wires.filter (side.meets id (side.sockets n) p)) =
        h.wires.filter (side.meets id (side.sockets n) p))
    (hsingle : ∀ {id : String} {k : Nat} {n : Node} {p : Nat} {s : Socket}, g.serial? id = some k →
      g.nodeAt? k = some n → n.inputs[p]? = some s → s.isFlow = false →
        (F .input ⟨k, p⟩ s.wires).length ≤ 1) : Indexed h := by
  have hids : h.bare.ids = g.bare.ids := by rw [hF.bare]
  have hserial (id : String) : h.serial? id = g.serial? id := congrArg (Table.get? · id) hids
  have hbare {k : Nat} {m n : Node} (hm : h.nodeAt? k = some m) (hn : g.nodeAt? k = some n) :
      m.bare = n.bare := by
    have hk : h.bare.nodeAt? k = g.bare.nodeAt? k := by rw [hF.bare]
    rw [nodeAt?_bare, nodeAt?_bare, hm, hn] at hk
    simpa using hk
  refine ⟨?_, ?_, hnodup, ?_, ?_, ?_⟩
  · have hkeys : h.ids.keys = g.ids.keys := congrArg Table.keys hids
    rw [hkeys]
    exact hg.keys
  · intro id k hk
    rw [hserial] at hk
    obtain ⟨n, hn, hid⟩ := hg.placed hk
    have hm : h.bare.nodeAt? k = some n.bare := by rw [hF.bare, nodeAt?_bare, hn]; rfl
    rw [nodeAt?_bare] at hm
    obtain ⟨m, hm, hmn⟩ := Option.map_eq_some_iff.1 hm
    exact ⟨m, hm, (congrArg Node.id hmn).trans hid⟩
  · intro w hw
    obtain ⟨e, hj, he⟩ := hjoined w hw
    exact ⟨e, hj.of_bare hF.bare, he⟩
  · intro side id k m p s hk hm hs
    rw [hserial] at hk
    obtain ⟨n, hn, hsockets⟩ := hF.sockets hm
    rw [hsockets] at hs
    obtain ⟨t, ht, rfl⟩ := Option.map_eq_some_iff.1 hs
    have hmeets : side.meets id (side.sockets m) p = side.meets id (side.sockets n) p := by
      funext w
      exact Side.meets_congr (Side.names_of_bare (hbare hm hn) side) side id p w
    rw [hmeets, ← hlisted side p hk hn, ← hg.listed side hk hn ht]
  · intro id k m p s hk hm hs hflow
    rw [hserial] at hk
    obtain ⟨n, hn, hsockets⟩ := hF.sockets hm
    have hs' := hsockets .input p
    simp only [Side.sockets, hs] at hs'
    obtain ⟨t, ht, hts⟩ := Option.map_eq_some_iff.1 hs'.symm
    have hft : t.isFlow = false := by
      rw [← hflow, ← hts]
      rfl
    rw [← hts]
    exact hsingle hk hn ht hft

/-- Every wire of the graph stands at both of its sockets. -/
theorem mem_wires_socket (hg : Indexed g) {w : Wire} (hw : w ∈ g.wires) {side : Side} {e : End} {n : Node}
    {s : Socket} (he : g.Leads side w.link e) (hn : g.nodeAt? e.node = some n)
    (hs : (side.sockets n)[e.socket]? = some s) : w ∈ s.wires := by
  obtain ⟨m, hk, hm, hp⟩ := he
  rw [hn] at hm
  cases hm
  rw [hg.listed side hk hn hs]
  refine List.mem_filter.2 ⟨hw, ?_⟩
  simp [Side.meets, hp]

/-- Removing a link removes it from all three lists. -/
theorem disconnect (hg : Indexed g) (l : Link) : Indexed (g.disconnect l).1 := by
  unfold Graph.disconnect
  split
  · rename_i hl
    obtain ⟨w, hw, rfl⟩ := List.mem_map.1 hl
    obtain ⟨e, hj, -⟩ := hg.joined w hw
    have hremove : Wire.remove w.link g.wires = g.wires.filter (·.link ≠ w.link) :=
      Wire.remove_eq_filter hg.nodup
    refine hg.of_rewired ((rewired_unplug hj).withWires _ (g.unplug w.link).ends) ?_ ?_ ?_ ?_
    · simp only [links, hremove]
      exact hg.nodup_filter _
    · intro v hv
      have hv : v ∈ g.wires := by
        rw [hremove] at hv
        exact (List.mem_filter.1 hv).1
      obtain ⟨e', hj', he'⟩ := hg.joined v hv
      refine ⟨e', hj', ?_⟩
      rw [← he']
      simp only [endsOf, ends_unplug]
    · intro side id k n p hk hn
      simp only [hremove, atEnds]
      have hmeets := hg.meets_iff (p := p) hk hn (hj.leads side)
      split
      · rw [Wire.remove_eq_filter (hg.nodup_filter _), List.filter_comm]
      · rename_i hne
        rw [List.filter_comm]
        symm
        rw [List.filter_eq_self]
        intro v hv
        have hvm := (List.mem_filter.1 hv).2
        have hvw : v.link ≠ w.link := by
          intro hvl
          have : side.meets id (side.sockets n) p w = true := by simpa [Side.meets, hvl] using hvm
          exact hne (hmeets.1 this)
        simpa using hvw
    · intro id k n p s hk hn hs hflow
      simp only [atEnds]
      have h1 := hg.single hk hn hs hflow
      split
      · exact Nat.le_trans (List.length_eraseP_le ..) h1
      · exact h1
  · exact hg

end Indexed

/-- `h` is `g` without the wires of some links. -/
structure Cut (g h : Graph) (ls : List Link) : Prop where
  indexed : Indexed h
  bare : h.bare = g.bare
  ends : h.ends = g.ends
  wires : h.wires = g.wires.filter (·.link ∉ ls)

/-- Disconnecting a link cuts it and no other. -/
theorem Indexed.cut_disconnect {g : Graph} (hg : Indexed g) (l : Link) : Cut g (g.disconnect l).1 [l] := by
  refine ⟨hg.disconnect l, ?_, ?_, ?_⟩
  · unfold Graph.disconnect
    split
    · rename_i hl
      obtain ⟨w, hw, rfl⟩ := List.mem_map.1 hl
      obtain ⟨e, hj, -⟩ := hg.joined w hw
      exact (rewired_unplug hj).bare
    · rfl
  · unfold Graph.disconnect
    split
    · exact ends_unplug g l
    · rfl
  · unfold Graph.disconnect
    split
    · simp only [Wire.remove_eq_filter hg.nodup, List.mem_singleton]
    · rename_i hl
      symm
      rw [List.filter_eq_self]
      intro w hw
      have hne : w.link ≠ l := fun h => hl (h ▸ List.mem_map_of_mem hw)
      simpa using hne

/-- Disconnecting links cuts these and no others. -/
theorem Indexed.cut_disconnectAll {g : Graph} (hg : Indexed g) (ls : List Link) :
    Cut g (g.disconnectAll ls) ls := by
  induction ls generalizing g with
  | nil => exact ⟨hg, rfl, rfl, by simp [disconnectAll]⟩
  | cons l ls ih =>
    have h1 := hg.cut_disconnect l
    have h2 := ih h1.indexed
    refine ⟨h2.indexed, h2.bare.trans h1.bare, h2.ends.trans h1.ends, ?_⟩
    rw [show g.disconnectAll (l :: ls) = (g.disconnect l).1.disconnectAll ls from rfl, h2.wires, h1.wires,
      List.filter_filter]
    congr 1
    funext w
    by_cases hl : w.link = l
    · simp [hl]
    · simp [hl]

namespace Indexed

variable {g h : Graph}

/-- What a new link passes before it is laid. -/
theorem of_checkLink {l : Link} {e : Ends} {output input : Socket} {shown : String}
    (hc : g.checkLink l = .ok (e, output, input, shown)) :
    g.Joins l e ∧ g.outputAt? e.source = some output ∧ g.inputAt? e.target = some input := by
  simp only [checkLink] at hc
  split at hc <;> [rename_i s hs; cases hc]
  split at hc <;> [rename_i n hn; cases hc]
  split at hc <;> [rename_i t ht; cases hc]
  split at hc <;> [rename_i m hm; cases hc]
  split at hc <;> [rename_i o ho; cases hc]
  split at hc <;> [rename_i x hx; cases hc]
  split at hc <;> [rename_i i hi; cases hc]
  split at hc <;> [rename_i y hy; cases hc]
  split at hc
  · cases hc
  · rename_i hfit
    cases hc
    have hsource : g.outputAt? ⟨s, o⟩ = some output := by simp [outputAt?, hn, hx]
    have htarget : g.inputAt? ⟨t, i⟩ = some input := by simp [inputAt?, hm, hy]
    refine ⟨⟨?_, ?_⟩, hsource, htarget⟩
    · intro side
      cases side with
      | output => exact ⟨n, hs, hn, ho⟩
      | input => exact ⟨m, ht, hm, hi⟩
    · refine ⟨output.valueType, input.valueType, ?_, ?_, by simpa using hfit⟩
      · simp [typeAt?, Side.sockets, hn, hx]
      · simp [typeAt?, Side.sockets, hm, hy]

/-- A new link that leads to a free input goes last in all three lists. -/
theorem plug (hg : Indexed g) {l : Link} {e : Ends} (hj : g.Joins l e) (hnew : l ∉ g.links)
    (hfree : ∀ {t : Socket}, g.inputAt? e.target = some t → t.isFlow = false → t.wires = []) :
    Indexed ((g.lay l (some e)).1.plug (g.lay l (some e)).2 e) := by
  have hF : Rewired g ((g.lay l (some e)).1.plug (g.lay l (some e)).2 e)
      (atEnds e (· ++ [(g.lay l (some e)).2])) :=
    let hp := rewired_plug (g.lay l (some e)).1 (g.lay l (some e)).2 e
    ⟨hp.bare, hp.sockets⟩
  have hwires : ((g.lay l (some e)).1.plug (g.lay l (some e)).2 e).wires = g.wires ++ [⟨l, g.ends.size⟩] := rfl
  have hends : ((g.lay l (some e)).1.plug (g.lay l (some e)).2 e).ends = g.ends.push (some e) := rfl
  refine hg.of_rewired hF ?_ ?_ ?_ ?_
  · simp only [links, hwires, List.map_append, List.map_cons, List.map_nil]
    rw [List.nodup_append]
    refine ⟨hg.nodup, by simp, ?_⟩
    rintro a ha b hb rfl
    exact hnew ((List.mem_singleton.1 hb) ▸ ha)
  · intro w hw
    rw [hwires, List.mem_append, List.mem_singleton] at hw
    rcases hw with hw | rfl
    · obtain ⟨e', hj', he'⟩ := hg.joined w hw
      refine ⟨e', hj', ?_⟩
      have hlt : w.serial < g.ends.size := by
        apply Decidable.byContradiction
        intro hge
        simp [endsOf, Array.getElem?_eq_none (Nat.le_of_not_lt hge)] at he'
      rw [← he', endsOf, endsOf, hends, Array.getElem?_push_lt hlt, Array.getElem?_eq_getElem hlt]
    · refine ⟨e, hj, ?_⟩
      simp [endsOf, hends]
  · intro side id k n p hk hn
    have hmeets := hg.meets_iff (p := p) (w := ⟨l, g.ends.size⟩) hk hn (hj.leads side)
    rw [hwires, List.filter_append]
    simp only [atEnds, lay]
    by_cases hm : side.meets id (side.sockets n) p ⟨l, g.ends.size⟩ = true
    · rw [if_pos (hmeets.1 hm), List.filter_cons_of_pos hm, List.filter_nil]
    · rw [if_neg (fun h => hm (hmeets.2 h)), List.filter_cons_of_neg hm, List.filter_nil, List.append_nil]
  · intro id k n p s hk hn hs hflow
    by_cases hend : (⟨k, p⟩ : End) = e.target
    · have hi : g.inputAt? e.target = some s := by
        rw [← hend]
        simp [inputAt?, hn, hs]
      simp [atEnds, Side.endOf, hend, hfree hi hflow]
    · simpa [atEnds, Side.endOf, hend] using hg.single hk hn hs hflow

end Indexed

/-- What a connection that was made went through, and what it made. -/
theorem connect_eq_ok {g h : Graph} {l : Link} {replace : Option Bool} {w : Wire}
    (hc : g.connect l replace = .ok (h, w)) : ∃ e output input shown,
      g.checkLink l = .ok (e, output, input, shown) ∧ l ∉ output.wires.map (·.link) ∧
      (displaced input = [] ∨ replace.getD g.replaceLinks = true) ∧
      h = ((g.disconnectAll (displaced input)).lay l (some e)).1.plug w e ∧
      w = ((g.disconnectAll (displaced input)).lay l (some e)).2 := by
  simp only [connect] at hc
  cases hcheck : g.checkLink l with
  | error f => rw [hcheck] at hc; cases hc
  | ok r =>
    obtain ⟨e, output, input, shown⟩ := r
    rw [hcheck] at hc
    simp only [bind, Except.bind] at hc
    split at hc
    · cases hc
    · rename_i hnew
      split at hc
      · cases hc
      · rename_i hpolicy
        cases hc
        refine ⟨e, output, input, shown, rfl, hnew, ?_, rfl, rfl⟩
        cases hp : replace.getD g.replaceLinks with
        | true => exact .inr rfl
        | false => exact .inl (by simpa [hp] using hpolicy)

namespace Indexed

variable {g h : Graph}

/-- A connection keeps the graph indexed, with the links that were in its way taken out first. -/
theorem connect (hg : Indexed g) {l : Link} {replace : Option Bool} {w : Wire}
    (hc : g.connect l replace = .ok (h, w)) : Indexed h := by
  obtain ⟨e, output, input, shown, hcheck, hnew, -, rfl, rfl⟩ := connect_eq_ok hc
  obtain ⟨hj, ho, hi⟩ := of_checkLink hcheck
  have hcut := hg.cut_disconnectAll (displaced input)
  have hj' := hj.of_bare hcut.bare
  refine hcut.indexed.plug hj' ?_ ?_
  · intro hl
    obtain ⟨v, hv, hvl⟩ := List.mem_map.1 hl
    rw [hcut.wires] at hv
    obtain ⟨n, hn, hs⟩ := Option.bind_eq_some_iff.1 ho
    have hleads : g.Leads .output v.link e.source := hvl ▸ hj.leads .output
    have hmem := hg.mem_wires_socket (List.mem_filter.1 hv).1 hleads hn hs
    exact hnew (hvl ▸ List.mem_map_of_mem hmem)
  · -- A wire still there would be one of those that gave way.
    intro t ht hflow
    obtain ⟨m, hm, hs⟩ := Option.bind_eq_some_iff.1 ht
    obtain ⟨n, hn, hin⟩ := Option.bind_eq_some_iff.1 hi
    have htype : (g.disconnectAll (displaced input)).typeAt? .input e.target = g.typeAt? .input e.target := by
      rw [← typeAt?_bare, hcut.bare, typeAt?_bare]
    have hflow' : input.isFlow = false := by
      simp only [typeAt?, Side.sockets, hm, hn, Option.bind_some, hs, hin, Option.map_some,
        Option.some.injEq] at htype
      rw [← hflow, Socket.isFlow, Socket.isFlow, htype]
    obtain ⟨m', hk, hm', hp⟩ := hj'.leads .input
    rw [Side.endOf, hm] at hm'
    cases hm'
    have hlist := hcut.indexed.listed .input hk hm hs
    apply List.eq_nil_iff_forall_not_mem.2
    intro v hv
    rw [hlist, List.mem_filter, hcut.wires, List.mem_filter] at hv
    obtain ⟨⟨hvg, hvold⟩, hvm⟩ := hv
    obtain ⟨e', hjv, -⟩ := hg.joined v hvg
    have hend := (hcut.indexed.meets_iff hk hm ((hjv.of_bare hcut.bare).leads .input)).1 hvm
    have hleads : g.Leads .input v.link e.target := by
      have := hjv.leads .input
      rwa [← hend] at this
    have hmem := hg.mem_wires_socket hvg hleads hn hin
    simp only [displaced, hflow', decide_eq_true_eq] at hvold
    exact hvold (List.mem_map_of_mem hmem)

end Indexed

end Graph

end FlowGraph
