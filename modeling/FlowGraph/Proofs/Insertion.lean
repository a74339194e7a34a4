import FlowGraph.Proofs.LinkIndex
import FlowGraph.Proofs.Outcome
import Mathlib.Data.List.Perm.Subperm

/-!
Adding nodes. A node comes in under an identifier that no node has, made up or asked for, and without
wires, so the index of links stays as it was.
-/
namespace FlowGraph

namespace Graph

/-- Leading zeros do not change a number. -/
theorem ofDigitChars_padded (k n : Nat) :
    Nat.ofDigitChars 10 (List.replicate k '0' ++ (toString n).toList) 0 = n := by
  simp [Nat.ofDigitChars_append]

/-- The number can be read back from the identifier. -/
theorem numberedId_inj {m n : Nat} (h : numberedId m = numberedId n) : m = n := by
  have hcancel {stem a b c d : String} (h : stem ++ a ++ b = stem ++ c ++ d) :
      a.toList ++ b.toList = c.toList ++ d.toList := by
    have hl := congrArg String.toList h
    simpa only [String.toList_append, List.append_assoc, List.append_cancel_left_eq] using hl
  have hl := hcancel h
  rw [String.toList_ofList, String.toList_ofList] at hl
  rw [← ofDigitChars_padded (12 - (toString m).length) m, hl, ofDigitChars_padded]

/-- One more identifier than there are nodes: one of them is free. -/
theorem freshId_not_mem (g : Graph) : g.freshId ∉ g.ids.keys := by
  have hnodup : ((List.range (g.ids.size + 1)).map fun k => numberedId (g.arena.size + k)).Nodup := by
    refine List.pairwise_map.2 (List.nodup_range.imp ?_)
    intro a b hne hab
    have := numberedId_inj hab
    omega
  cases hf : ((List.range (g.ids.size + 1)).map fun k => numberedId (g.arena.size + k)).find?
      fun id => !g.ids.has id with
  | some id =>
    have hid := List.find?_some hf
    simp only [freshId, hf, Option.getD_some]
    rw [← Table.has_iff]
    simpa using hid
  | none =>
    exfalso
    have hsub : ((List.range (g.ids.size + 1)).map fun k => numberedId (g.arena.size + k)) ⊆ g.ids.keys := by
      intro id hid
      have := List.find?_eq_none.1 hf id hid
      rw [← Table.has_iff]
      simpa using this
    have hlen := (List.subperm_of_subset hnodup hsub).length_le
    simp only [List.length_map, List.length_range, Table.keys, Table.size] at hlen
    omega

theorem chooseId_not_mem (g : Graph) {id : Option String} (h : ∀ i, id = some i → i ∉ g.ids.keys) :
    g.chooseId id ∉ g.ids.keys := by
  cases id with
  | none => exact g.freshId_not_mem
  | some i =>
    simp only [chooseId]
    split
    · exact g.freshId_not_mem
    · exact h i rfl

/-- Labels are all that a graph changes for a value that it keeps. -/
theorem stamp_eq (g : Graph) (v : Value) : ∃ n, (g.stamp v).1 = { g with labels := n } := by
  unfold stamp
  split
  · exact ⟨_, rfl⟩
  · exact ⟨g.labels, rfl⟩

theorem stampParameters_eq (g : Graph) (ps : List SocketSpec) : ∃ n, (g.stampParameters ps).1 = { g with labels := n } := by
  induction ps generalizing g with
  | nil => exact ⟨g.labels, rfl⟩
  | cons p ps ih =>
    obtain ⟨n, hn⟩ := g.stamp_eq p.default
    obtain ⟨m, hm⟩ := ih (g.stamp p.default).1
    refine ⟨m, ?_⟩
    rw [hn] at hm
    simp only [stampParameters, hn, hm]

theorem stampSide_eq (g : Graph) (ss : List Socket) : (∃ n, (g.stampSide ss).1 = { g with labels := n }) ∧
    (g.stampSide ss).2.map Socket.frame = ss.map Socket.frame := by
  induction ss generalizing g with
  | nil => exact ⟨⟨g.labels, rfl⟩, rfl⟩
  | cons s ss ih =>
    obtain ⟨n, hn⟩ := g.stamp_eq s.value
    obtain ⟨⟨m, hm⟩, hf⟩ := ih (g.stamp s.value).1
    refine ⟨⟨m, ?_⟩, ?_⟩
    · rw [hn] at hm
      simp only [stampSide, stampSocket, hn, hm]
    · simp only [stampSide, stampSocket, List.map_cons, hf]
      rfl

theorem stampNode_eq (g : Graph) (n : Node) : (∃ k, (g.stampNode n).1 = { g with labels := k }) ∧
    (g.stampNode n).2.frame = n.frame := by
  obtain ⟨⟨i, hi⟩, hin⟩ := g.stampSide_eq n.inputs
  obtain ⟨⟨o, ho⟩, hout⟩ := (g.stampSide n.inputs).1.stampSide_eq n.outputs
  refine ⟨⟨o, ?_⟩, ?_⟩
  · rw [hi] at ho
    simp only [stampNode, hi, ho]
  · simp only [stampNode, Node.frame, hin, hout]

/-- A node without wires that goes last in the arena. -/
theorem Indexed.insert {g : Graph} (hg : Indexed g) {n : Node} (hid : n.id ∉ g.ids.keys)
    (hbare : ∀ side, ∀ s ∈ Side.sockets side n, s.wires = []) :
    Indexed { g with arena := g.arena.push n, ids := g.ids.set n.id g.arena.size } := by
  have hfresh : g.serial? n.id = none := (g.ids.get?_eq_none_iff n.id).2 hid
  have hlt {k : Nat} {m : Node} (hm : g.nodeAt? k = some m) : k < g.arena.size := by
    obtain ⟨hk, -⟩ := Array.getElem?_eq_some_iff.1 hm
    exact hk
  have hold {k : Nat} {m : Node} (hm : g.nodeAt? k = some m) :
      { g with arena := g.arena.push n, ids := g.ids.set n.id g.arena.size }.nodeAt? k = some m := by
    rw [← hm]
    simp [nodeAt?, Array.getElem?_push, Nat.ne_of_lt (hlt hm)]
  have hserial (id : String) :
      { g with arena := g.arena.push n, ids := g.ids.set n.id g.arena.size }.serial? id =
        if n.id = id then some g.arena.size else g.serial? id :=
    Table.get?_set ..
  have hleads {side : Side} {l : Link} {e : End} (hl : g.Leads side l e) :
      { g with arena := g.arena.push n, ids := g.ids.set n.id g.arena.size }.Leads side l e := by
    obtain ⟨m, hs, hm, hp⟩ := hl
    refine ⟨m, ?_, hold hm, hp⟩
    rw [hserial, if_neg, hs]
    intro h
    rw [← h, hfresh] at hs
    cases hs
  have hjoins {l : Link} {e : Ends} (hj : g.Joins l e) :
      { g with arena := g.arena.push n, ids := g.ids.set n.id g.arena.size }.Joins l e := by
    obtain ⟨s, t, hs, ht, hc⟩ := hj.fits
    obtain ⟨a, -, ha, -⟩ := hj.leads .output
    obtain ⟨b, -, hb, -⟩ := hj.leads .input
    refine ⟨fun side => hleads (hj.leads side), s, t, ?_, ?_, hc⟩
    · simp only [typeAt?, Side.endOf] at ha hs ⊢
      rw [hold ha, ← ha]
      exact hs
    · simp only [typeAt?, Side.endOf] at hb ht ⊢
      rw [hold hb, ← hb]
      exact ht
  refine ⟨Table.nodup_keys_set hg.keys .., ?_, hg.nodup, ?_, ?_, ?_⟩
  · intro id k hk
    rw [hserial] at hk
    split at hk
    · rename_i h
      cases hk
      exact ⟨n, by simp [nodeAt?], h⟩
    · obtain ⟨m, hm, rfl⟩ := hg.placed hk
      exact ⟨m, hold hm, rfl⟩
  · intro w hw
    obtain ⟨e, hj, he⟩ := hg.joined w hw
    exact ⟨e, hjoins hj, he⟩
  · intro side id k m p s hk hm hs
    rw [hserial] at hk
    split at hk
    · -- No wire of the graph belongs at the new node.
      rename_i h
      cases hk
      have hmn : n = m := by simpa [nodeAt?] using hm
      rw [hbare side s (hmn ▸ List.mem_of_getElem? hs)]
      symm
      rw [List.filter_eq_nil_iff]
      intro w hw hmeets
      simp only [Side.meets, decide_eq_true_eq] at hmeets
      obtain ⟨e, hj, -⟩ := hg.joined w hw
      obtain ⟨_, hs, -⟩ := hj.leads side
      rw [hmeets.1, ← h, hfresh] at hs
      cases hs
    · obtain ⟨m', hm', -⟩ := hg.placed hk
      rw [hold hm'] at hm
      cases hm
      exact hg.listed side hk hm' hs
  · intro id k m p s hk hm hs hflow
    rw [hserial] at hk
    split at hk
    · cases hk
      have hmn : n = m := by simpa [nodeAt?] using hm
      have hs' : s ∈ Side.sockets .input n := hmn ▸ List.mem_of_getElem? hs
      rw [hbare .input s hs']
      exact Nat.zero_le 1
    · obtain ⟨m', hm', -⟩ := hg.placed hk
      rw [hold hm'] at hm
      cases hm
      exact hg.single hk hm' hs hflow

/-- A new socket is made from its specification but for the value. -/
theorem buildSocket_eq_ok {r : Registry} {s : SocketSpec} {t : Socket} (h : buildSocket r s = .ok t) :
    t = { name := s.name, valueType := s.valueType, value := t.value, label := s.label, choices := s.choices } := by
  unfold buildSocket at h
  simp only at h
  split at h
  · cases h
    rfl
  · split at h
    · cases h
    · split at h
      · cases h
        rfl
      · obtain ⟨v, -, h⟩ := bind_eq_ok.1 h
        cases h
        rfl

theorem wires_of_buildSide {g : Graph} {source : SocketSource} {c : Configuration} {ss : List Socket}
    (h : g.buildSide source c = .ok ss) : ∀ s ∈ ss, s.wires = [] := by
  obtain ⟨specs, -, hbuild⟩ := bind_eq_ok.1 h
  intro s hs
  obtain ⟨spec, -, hspec⟩ := mem_of_mapM hbuild hs
  rw [buildSocket_eq_ok hspec]

/-- What a node that could be made consists of. -/
theorem makeNode_eq_ok {g : Graph} {d : Definition} {id : String} {overrides : List (String × Value)}
    {position : Value} {n : Node} (h : g.makeNode d id overrides position = .ok n) :
    ∃ place c inputs outputs, coordinates position = .ok place ∧ mergeConfiguration d overrides = .ok c ∧
      g.buildSide d.inputs c = .ok inputs ∧ g.buildSide d.outputs c = .ok outputs ∧
      n = { id := id, definition := d, position := place, configuration := c
            state := d.initialState, inputs := inputs, outputs := outputs } := by
  obtain ⟨place, hplace, h⟩ := bind_eq_ok.1 h
  split at h
  · cases h
  · rename_i c hc
    obtain ⟨inputs, hin, h⟩ := bind_eq_ok.1 h
    obtain ⟨outputs, hout, h⟩ := bind_eq_ok.1 h
    cases h
    exact ⟨place, c, inputs, outputs, lifted_eq_ok.1 hplace, hc, hin, hout, rfl⟩

/-- What adding a node went through. -/
theorem addNodeOf_eq_ok {g h : Graph} {d : Definition} {id : Option String} {overrides : List (String × Value)}
    {position : Value} {k : Nat} (ha : g.addNodeOf d id overrides position = .ok (h, k)) :
    ∃ n, (∀ i, id = some i → i ∉ g.ids.keys) ∧ g.makeNode d (g.chooseId id) overrides position = .ok n ∧
      h = g.insertNode n ∧ k = g.arena.size := by
  unfold addNodeOf at ha
  split at ha
  · rename_i i
    split at ha
    · cases ha
    · rename_i hhas
      obtain ⟨n, hn, ha⟩ := bind_eq_ok.1 ha
      cases ha
      refine ⟨n, ?_, hn, rfl, rfl⟩
      rintro j ⟨⟩
      rw [← Table.has_iff]
      exact hhas
  · obtain ⟨n, hn, ha⟩ := bind_eq_ok.1 ha
    cases ha
    exact ⟨n, by simp, hn, rfl, rfl⟩

namespace Indexed

/-- A node that comes in without wires leaves the index of links right. -/
theorem insertNode {g : Graph} (hg : Indexed g) {n : Node} (hid : n.id ∉ g.ids.keys)
    (hbare : ∀ side, ∀ s ∈ Side.sockets side n, s.wires = []) : Indexed (g.insertNode n) := by
  obtain ⟨⟨k, hk⟩, hf⟩ := g.stampNode_eq n
  have hg' : Indexed (g.stampNode n).1 := by
    rw [hk]
    exact hg.congr ((SameLinks.refl g).withNames g.vars g.events g.issued k)
  refine hg'.insert ?_ ?_
  · rw [hk]
    exact hid
  · intro side s hs
    obtain ⟨p, hp⟩ := List.mem_iff_getElem?.1 hs
    obtain ⟨t, ht, hst⟩ := Side.getElem?_of_frame hf hp
    have hwires : t.wires = s.wires := congrArg (·.2.2) hst
    rw [← hwires]
    exact hbare side t (List.mem_of_getElem? ht)

theorem addNodeOf {g h : Graph} (hg : Indexed g) {d : Definition} {id : Option String}
    {overrides : List (String × Value)} {position : Value} {k : Nat}
    (ha : g.addNodeOf d id overrides position = .ok (h, k)) : Indexed h := by
  obtain ⟨n, hfree, hmake, rfl, -⟩ := addNodeOf_eq_ok ha
  obtain ⟨place, c, inputs, outputs, -, -, hin, hout, rfl⟩ := makeNode_eq_ok hmake
  refine hg.insertNode (g.chooseId_not_mem hfree) ?_
  intro side
  cases side with
  | input => exact wires_of_buildSide hin
  | output => exact wires_of_buildSide hout

end Indexed

end Graph

end FlowGraph
