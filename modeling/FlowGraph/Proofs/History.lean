import FlowGraph.Proofs.CheckedGraphs

/-!
Where the parts of a graph are from, one operation at a time. A node is from before, or it was made from the declarations
that there were when it came in; a declaration is from before, or it is the one that the operation asks for.
-/
namespace FlowGraph

def Edit.declaredType? : Edit → Option String
  | declareVariable _ typeName _ => some typeName
  | setVariable _ _ typeName => typeName
  | _ => none

def Edit.parameters? : Edit → Option (List SocketSpec)
  | declareEvent _ parameters => some parameters
  | _ => none

/-- The node has the definition, the settings and, by name and type, the sockets of another one. -/
structure Node.Follows (m n : Node) : Prop where
  origin : m.origin = n.origin
  outlines : ∀ side : Side, (side.sockets m).map Socket.outline = (side.sockets n).map Socket.outline

theorem Node.Follows.refl (n : Node) : n.Follows n := ⟨rfl, fun _ => rfl⟩

namespace Graph

theorem Expands.follow {scope : Scope} {n m : Node} (h : Expands scope n) (hm : m.Follows n) : Expands scope m :=
  h.congr hm.origin hm.outlines

/-- Where the nodes and declarations of a graph are from. -/
structure Step (g : Graph) (e : Edit) (h : Graph) : Prop where
  registry : h.registry = g.registry
  kept : ∀ {k : Nat} {n : Node}, g.nodeAt? k = some n → ∃ m, h.nodeAt? k = some m ∧ m.Follows n
  made : ∀ {k : Nat} {m : Node}, g.nodeAt? k = none → h.nodeAt? k = some m → Expands g.scope m
  vars : ∀ x ∈ h.vars.entries, (∃ y ∈ g.vars.entries, y.1 = x.1 ∧ y.2.valueType = x.2.valueType) ∨
    ∃ typeName, e.declaredType? = some typeName ∧ g.registry.valueType typeName = .ok x.2.valueType
  events : ∀ x ∈ h.events.entries, x ∈ g.events.entries ∨
    ∃ ps, e.parameters? = some ps ∧ x.2.parameters.map SocketSpec.outline = ps.map SocketSpec.outline

theorem expands_of_makeNode {g : Graph} {d : Definition} {id : String} {overrides : List (String × Value)}
    {position : Value} {n : Node} (h : g.makeNode d id overrides position = .ok n) : Expands g.scope n := by
  obtain ⟨place, c, inputs, outputs, -, -, hin, hout, rfl⟩ := makeNode_eq_ok h
  intro side
  cases side with
  | input => exact buildSide_outline hin
  | output => exact buildSide_outline hout

namespace Step

variable {g h : Graph} {e : Edit}

theorem nodes (hs : Step g e h) {k : Nat} {m : Node} (hm : h.nodeAt? k = some m) :
    (∃ n, g.nodeAt? k = some n ∧ m.Follows n) ∨ Expands g.scope m := by
  cases hn : g.nodeAt? k with
  | none => exact .inr (hs.made hn hm)
  | some n =>
    obtain ⟨m', hm', hfollows⟩ := hs.kept hn
    cases hm.symm.trans hm'
    exact .inl ⟨n, rfl, hfollows⟩

/-- Nothing comes in: nodes stay but for what their sockets hold and are wired to, and declarations stay or go. -/
theorem of_follows (hregistry : h.registry = g.registry)
    (hnodes : ∀ k, Option.Rel Node.Follows (h.nodeAt? k) (g.nodeAt? k))
    (hvars : h.vars.entries ⊆ g.vars.entries) (hevents : h.events.entries ⊆ g.events.entries) : Step g e h where
  registry := hregistry
  kept := by
    intro k n hn
    have hk := hnodes k
    rw [hn] at hk
    generalize h.nodeAt? k = o at hk
    cases hk with
    | some hfollows => exact ⟨_, rfl, hfollows⟩
  made := by
    intro k m hn hm
    have hk := hnodes k
    rw [hn, hm] at hk
    cases hk
  vars := fun x hx => .inl ⟨x, hvars hx, rfl, rfl⟩
  events := fun _ hx => .inl (hevents hx)

theorem follows_refl (g : Graph) (k : Nat) : Option.Rel Node.Follows (g.nodeAt? k) (g.nodeAt? k) := by
  cases g.nodeAt? k with
  | none => exact .none
  | some n => exact .some (.refl n)

theorem follows_of_bare (hb : h.bare = g.bare) (k : Nat) : Option.Rel Node.Follows (h.nodeAt? k) (g.nodeAt? k) := by
  have hk := congrArg (Graph.nodeAt? · k) hb
  simp only [nodeAt?_bare] at hk
  cases hm : h.nodeAt? k with
  | none =>
    rw [hm, Option.map_none, eq_comm, Option.map_eq_none_iff] at hk
    rw [hk]
    exact .none
  | some m =>
    rw [hm, Option.map_some, eq_comm, Option.map_eq_some_iff] at hk
    obtain ⟨n, hn, hmn⟩ := hk
    rw [hn]
    exact .some ⟨(congrArg Node.origin hmn).symm, outlines_of_bare hmn.symm⟩

theorem of_bare (hb : h.bare = g.bare) : Step g e h := by
  have hvars : h.vars = g.vars := (congrArg Graph.vars hb :)
  have hevents : h.events = g.events := (congrArg Graph.events hb :)
  exact of_follows (congrArg Graph.registry hb :) (follows_of_bare hb) (hvars ▸ List.Subset.refl _)
    (hevents ▸ List.Subset.refl _)

/-- Declarations may go. -/
theorem drop {h' : Graph} (hs : Step g e h) (hregistry : h'.registry = h.registry)
    (hnodes : ∀ k, h'.nodeAt? k = h.nodeAt? k) (hvars : h'.vars.entries ⊆ h.vars.entries)
    (hevents : h'.events.entries ⊆ h.events.entries) : Step g e h' where
  registry := hregistry.trans hs.registry
  kept := fun {k _} hn => hnodes k ▸ hs.kept hn
  made := fun {k _} hn hm => hs.made hn (hnodes k ▸ hm)
  vars := fun x hx => hs.vars x (hvars hx)
  events := fun x hx => hs.events x (hevents hx)

theorem of_disconnectAll (hi : Indexed g) (ls : List Link) : Step g e (g.disconnectAll ls) :=
  of_bare (hi.cut_disconnectAll ls).bare

theorem connect (hi : Indexed g) {l : Link} {replace : Option Bool} {w : Wire} (hc : g.connect l replace = .ok (h, w)) :
    Step g e h := by
  obtain ⟨ends, output, input, shown, -, -, -, rfl, -⟩ := connect_eq_ok hc
  have hplug := (rewired_plug ((g.disconnectAll (displaced input)).lay l (some ends)).1 w ends).bare
  exact of_bare (hplug.trans (hi.cut_disconnectAll (displaced input)).bare)

/-- Presetting inputs is a step of a history. -/
theorem presetInputs (g : Graph) (k : Nat) (values : List (String × Value)) : Step g e (g.presetInputs k values).1 := by
  suffices hkept : (g.presetInputs k values).1.registry = g.registry ∧
      (∀ j, Option.Rel Node.Follows ((g.presetInputs k values).1.nodeAt? j) (g.nodeAt? j)) ∧
      (g.presetInputs k values).1.vars = g.vars ∧ (g.presetInputs k values).1.events = g.events by
    obtain ⟨hregistry, hnodes, hvars, hevents⟩ := hkept
    exact of_follows hregistry hnodes (hvars ▸ List.Subset.refl _) (hevents ▸ List.Subset.refl _)
  induction values generalizing g with
  | nil => exact ⟨rfl, follows_refl g, rfl, rfl⟩
  | cons value rest ih =>
    obtain ⟨name, v⟩ := value
    unfold Graph.presetInputs
    split
    · rename_i p hp
      obtain ⟨hregistry, hnodes, hvars, hevents⟩ := ih (g.modifyNode k (·.setInput p v))
      refine ⟨hregistry, fun j => ?_, hvars, hevents⟩
      have hj := hnodes j
      rw [nodeAt?_modifyNode] at hj
      split at hj
      · cases hn : g.nodeAt? j with
        | none => rwa [hn] at hj
        | some n =>
          rw [hn] at hj
          generalize (Graph.presetInputs _ k rest).1.nodeAt? j = o at hj ⊢
          cases hj with
          | some hm =>
            exact .some ⟨hm.origin, fun side => (hm.outlines side).trans (Side.outlines_of_frame (n.frame_setInput p v) side)⟩
      · exact hj
    · exact ⟨rfl, follows_refl g, rfl, rfl⟩

/-- So is adding a node. -/
theorem addNodeOf {d : Definition} {id : Option String} {overrides : List (String × Value)} {position : Value} {k : Nat}
    (ha : g.addNodeOf d id overrides position = .ok (h, k)) : Step g e h := by
  obtain ⟨n, -, hmake, rfl, -⟩ := addNodeOf_eq_ok ha
  have hnew : Expands g.scope n := expands_of_makeNode hmake
  obtain ⟨⟨labels, hlabels⟩, hframe⟩ := g.stampNode_eq n
  have hinsert : g.insertNode n =
      { g with labels := labels, arena := g.arena.push (g.stampNode n).2, ids := g.ids.set n.id g.arena.size } := by
    simp only [Graph.insertNode, hlabels]
    rfl
  rw [hinsert]
  refine ⟨rfl, fun {j m} hm => ?_, fun {j m} hnone hm => ?_, fun x hx => .inl ⟨x, hx, rfl, rfl⟩, fun x hx => .inl hx⟩
  · obtain ⟨hj, -⟩ := Array.getElem?_eq_some_iff.1 hm
    refine ⟨m, ?_, .refl m⟩
    simp only [nodeAt?, Array.getElem?_push, hj.ne, if_false]
    exact hm
  · simp only [nodeAt?, Array.getElem?_push] at hm
    split at hm
    · cases hm
      exact hnew.congr (origin_stampNode g n) (Side.outlines_of_frame hframe)
    · cases hnone.symm.trans hm

/-- A variable comes in, of the type of an old one of its name or of the one that is asked for. -/
theorem withVariable (g : Graph) (labels issued : Nat) {name : String} {x : Variable}
    (hx : (∃ y, g.vars.get? name = some y ∧ y.valueType = x.valueType) ∨
      ∃ typeName, e.declaredType? = some typeName ∧ g.registry.valueType typeName = .ok x.valueType) :
    Step g e { g with vars := g.vars.set name x, labels := labels, issued := issued } := by
  refine ⟨rfl, fun hn => ⟨_, hn, .refl _⟩, fun hn hm => (nomatch hn.symm.trans hm), fun z hz => ?_, fun z hz => .inl hz⟩
  rcases Table.mem_entries_set hz with rfl | hz
  · refine hx.imp_left ?_
    rintro ⟨y, hy, htype⟩
    exact ⟨(name, y), Table.mem_entries_of_get? hy, rfl, htype⟩
  · exact .inl ⟨z, hz, rfl, rfl⟩

/-- So is a declaration of the type that the edit names. -/
theorem declareVariable {name typeName : String} {initial : Value} (he : e.declaredType? = some typeName)
    (hd : g.declareVariable name typeName initial = .ok h) : Step g e h := by
  unfold Graph.declareVariable at hd
  split at hd
  · cases hd
  · split at hd
    · cases hd
    · rename_i t ht
      obtain ⟨v, -, hd⟩ := bind_eq_ok.1 hd
      obtain ⟨labels, hlabels⟩ := g.stamp_eq v
      generalize g.stamp v = kept at hd hlabels
      obtain ⟨g', w⟩ := kept
      cases hlabels
      cases hd
      exact withVariable g labels _ (.inr ⟨typeName, he, ht⟩)

/-- So is setting a variable, which may declare it. -/
theorem setVariable {name : String} {v : Value} {typeName : Option String} {told : Option Value}
    (he : e.declaredType? = typeName) (hs : g.setVariable name v typeName = .ok (h, told)) : Step g e h := by
  unfold Graph.setVariable at hs
  cases hx : g.vars.get? name with
  | none =>
    rw [hx] at hs
    cases typeName with
    | none => cases hs
    | some t =>
      obtain ⟨g', hd, hs⟩ := bind_eq_ok.1 hs
      cases hs
      exact declareVariable he hd
  | some x =>
    rw [hx] at hs
    simp only at hs
    split at hs
    · cases hs
    · obtain ⟨w, -, hs⟩ := bind_eq_ok.1 hs
      obtain ⟨initial, -, hs⟩ := bind_eq_ok.1 hs
      obtain ⟨⟨y, news⟩, hy, hs⟩ := bind_eq_ok.1 hs
      cases hs
      obtain ⟨labels, hlabels⟩ := g.stamp_eq w
      simp only [hlabels, Variable.put_eq_ok hy]
      exact withVariable g labels g.issued (.inl ⟨x, hx, rfl⟩)

/-- So is the declaration of an event with the parameters that the edit names. -/
theorem declareEvent {name : String} {ps : List SocketSpec} (he : e.parameters? = some ps)
    (hd : g.declareEvent name ps = .ok h) : Step g e h := by
  unfold Graph.declareEvent at hd
  split at hd
  · cases hd
  · obtain ⟨specs, hspecs, hd⟩ := bind_eq_ok.1 hd
    cases hd
    have hout : (g.stampParameters specs).2.map SocketSpec.outline = ps.map SocketSpec.outline := by
      refine (Sourced.stampParameters_outline g specs).trans (map_eq_of_forall₂ ((forall₂_of_mapM hspecs).imp ?_))
      intro p q hpq
      obtain ⟨-, -, t, -, rfl⟩ := Sourced.checkParameter_eq_ok hpq
      rfl
    obtain ⟨labels, hlabels⟩ := g.stampParameters_eq specs
    simp only [hlabels]
    refine ⟨rfl, fun hn => ⟨_, hn, .refl _⟩, fun hn hm => (by cases hn.symm.trans hm), fun x hx => .inl ⟨x, hx, rfl, rfl⟩,
      fun x hx => ?_⟩
    rcases Table.mem_entries_set hx with rfl | hx
    · exact .inr ⟨ps, he, hout⟩
    · exact .inl hx

/-- Every operation that is carried out is such a step. -/
theorem attempt (hi : Indexed g) {e : Edit} (ha : g.attempt e = .ok h) : Step g e h := by
  cases e with
  | add typeName id overrides position =>
    obtain ⟨⟨h', k⟩, hadd, rfl⟩ := map_eq_ok.1 ha
    unfold Graph.addNode at hadd
    split at hadd
    · cases hadd
    · exact addNodeOf hadd
  | addOf d id overrides position =>
    obtain ⟨⟨h', k⟩, hadd, rfl⟩ := map_eq_ok.1 ha
    exact addNodeOf hadd
  | remove id =>
    cases ha
    unfold Graph.removeNode
    split
    · exact (of_disconnectAll hi _).drop rfl (fun _ => rfl) (List.Subset.refl _) (List.Subset.refl _)
    · exact of_bare rfl
  | connect l replace =>
    obtain ⟨⟨h', w⟩, hc, rfl⟩ := map_eq_ok.1 (mapError_eq_ok.1 ha)
    exact connect hi hc
  | disconnect l =>
    cases ha
    exact of_bare (hi.cut_disconnect l).bare
  | disconnectInput id name =>
    cases ha
    unfold Graph.disconnectInput
    split
    · exact of_bare rfl
    · exact of_disconnectAll hi _
  | clear =>
    cases ha
    exact (of_disconnectAll hi g.links).drop rfl (fun _ => rfl) (List.nil_subset _) (List.nil_subset _)
  | declareVariable name typeName initial => exact declareVariable rfl ha
  | setVariable name v typeName =>
    obtain ⟨⟨h', told⟩, hs, rfl⟩ := map_eq_ok.1 ha
    exact setVariable rfl hs
  | removeVariable name =>
    cases ha
    exact (of_bare (h := g) rfl).drop rfl (fun _ => rfl) List.filter_sublist.subset (List.Subset.refl _)
  | declareEvent name ps => exact declareEvent rfl (mapError_eq_ok.1 ha)
  | removeEvent name =>
    cases ha
    exact (of_bare (h := g) rfl).drop rfl (fun _ => rfl) (List.Subset.refl _) List.filter_sublist.subset
  | setLiteral id name v =>
    simp only [Graph.attempt] at ha
    split at ha
    · cases ha
      exact presetInputs ..
    · cases ha

end Step

end Graph

end FlowGraph
