import FlowGraph.Proofs.CheckedGraphs
import FlowGraph.Proofs.Hosting

/-!
Failures of structure. Some failures blame a graph itself: a cycle, a link that leads nowhere, a name that is not
declared, a socket or a behaviour that is not there. Main statement: in a graph that was loaded from a document and
in which the checks find no problem none of them ever occurs, whatever a host does with it.
-/
namespace FlowGraph

open World Play

/-- How the texts begin that tell of a declaration or a socket that is not there. -/
def Fault.structuralTexts : List String :=
  ["Variable not declared: ", "Custom event not declared: ", "Input socket not found on ", "Output socket not found on "]

def Fault.isStructural : Fault → Bool
  | .missing text => structuralTexts.any fun start => start.toList.isPrefixOf text.toList
  | _ => false

def IntegrityError.isStructural : IntegrityError → Bool
  | .noConversion _ _ | .variableUndeclared _ | .sourceSocketMissing _ _ | .targetSocketMissing _ _
  | .linkSourceMissing _ | .linkTargetMissing _ | .linkOutputMissing _ _ | .linkInputMissing _ _ => true
  | _ => false

mutual
/-- The failure, or one behind it, blames the graph itself. -/
def Failure.isStructural : Failure → Bool
  | .fault f => f.isStructural
  | .integrity e => e.isStructural
  | .definition _ => false
  | .node _ _ reason => reason.isStructural
def NodeReason.isStructural : NodeReason → Bool
  | .noBehaviour _ | .cycle _ | .unresolved _ | .notTriggerable _ | .noFlowOutput => true
  | .failed _ cause | .unconvertible _ _ _ cause | .listener cause | .payload cause | .disposal cause => cause.isStructural
  | .notCommitted | .committedTwice _ | .notFlowOutput _ | .endedAfterCommit | .custom _ => false
end

theorem Fault.isStructural_of_not_isMissing {f : Fault} (h : f.isMissing = false) : f.isStructural = false := by
  cases f with
  | missing text => cases h
  | _ => rfl

theorem NodeReason.isStructural_of_cause {reason : NodeReason} {e : Failure} (h : reason.cause? = some e) :
    reason.isStructural = e.isStructural := by
  cases reason with
  | failed | unconvertible | listener | payload | disposal =>
    cases h
    rfl
  | _ => cases h

/-- Whatever is asked of the host by its name, its absence is not the fault of the graph. -/
theorem Registry.not_isStructural_service {r : Registry} {name : String} {f : Fault} (h : r.service name = .error f) :
    f.isStructural = false := by
  unfold service at h
  split at h
  · cases h
  · cases h
    simp [Fault.isStructural, Fault.structuralTexts, List.isPrefixOf]

theorem Registry.not_isStructural_valueType {r : Registry} {name : String} {e : IntegrityError}
    (h : r.valueType name = .error e) : e.isStructural = false := by
  unfold valueType at h
  split at h
  · cases h
  · cases h
    rfl

/-- Between types that fit something may go wrong with the value, but a conversion is there. -/
theorem Registry.not_isStructural_convert {r : Registry} {v : Value} {source target : String} {e : Failure}
    (hfit : r.canConnect source target = true) (h : r.convert v source target = .error e) : e.isStructural = false := by
  have hlifted {x : Except Fault Value} (hx : Plain x) (he : Except.lifted x = .error e) : e.isStructural = false := by
    cases x with
    | ok a => cases he
    | error f =>
      cases he
      exact Fault.isStructural_of_not_isMissing (hx f rfl)
  unfold convert at h
  split at h
  · split at h
    · exact hlifted (ValueType.plain_clone _ _) h
    · cases h
      rename_i he
      exact not_isStructural_valueType he
  · rename_i hdiffer
    split at h
    · exact hlifted (Conversion.plain_apply _ _) h
    · rename_i hnone
      have hhas : r.conversions.has (source, target) = true := by
        unfold canConnect at hfit
        split at hfit
        · exact absurd (eq_of_beq hfit) hdiffer
        · simpa [hdiffer] using hfit
      exact absurd ((Table.has_iff _ _).1 hhas) ((Table.get?_eq_none_iff _ _).1 hnone)

theorem Store.not_isStructural_get {s : Store} {path : Value} {f : Fault} (h : s.get path = .error f) :
    f.isStructural = false := by
  rcases bind_eq_error.1 h with hhashed | ⟨_, -, h⟩
  · exact Fault.isStructural_of_not_isMissing (Value.plain_hashed path f hhashed)
  · split at h
    · cases h
    · rcases bind_eq_error.1 h with hshown | ⟨shown, -, h⟩
      · exact Fault.isStructural_of_not_isMissing (Value.plain_display path f hshown)
      · cases h
        simp [Fault.isStructural, Fault.structuralTexts, List.isPrefixOf]

namespace Graph.Indexed

variable {g : Graph} {id : String} {k : Nat}

/-- A wire at a socket is one of the graph, leads to or from there, and joins types that fit. -/
theorem of_mem_wires (hg : Indexed g) (side : Side) {n : Node} {p : Nat} {s : Socket} {wire : Wire}
    (hk : g.serial? id = some k) (hn : g.nodeAt? k = some n) (hs : (side.sockets n)[p]? = some s) (hw : wire ∈ s.wires) :
    wire ∈ g.wires ∧ ∃ e, g.Joins wire.link e ∧ g.endsOf wire = some e ∧ Side.endOf side e = ⟨k, p⟩ := by
  rw [hg.listed side hk hn hs] at hw
  obtain ⟨hwire, hmeets⟩ := List.mem_filter.1 hw
  obtain ⟨e, hjoins, hends⟩ := hg.joined wire hwire
  exact ⟨hwire, e, hjoins, hends, ((hg.meets_iff hk hn (hjoins.leads side)).1 hmeets).symm⟩

end Graph.Indexed

/-- The event that a setting names is one of the graph. -/
theorem Graph.mem_events_of_eventOf {g : Graph} {name : Value} {e : CustomEvent} (h : g.eventOf name = .ok (some e)) :
    ∃ key, (key, e) ∈ g.events.entries := by
  obtain ⟨key, -, h⟩ := bind_eq_ok.1 h
  simp only [pure, Except.pure, Except.ok.injEq, Option.bind_eq_some_iff] at h
  obtain ⟨key, -, h⟩ := h
  exact ⟨key, Table.mem_entries_of_get? h⟩

/-- The node belongs to the graph at that place. -/
def World.Member (u : World) (j : Nat) (x : NodeRef) : Prop :=
  x.graph = j ∧ ∃ id, (u.graph j).serial? id = some x.serial

/-- The side of the node has a socket of that name. -/
def World.Has (u : World) (side : Side) (x : NodeRef) (name : String) : Prop :=
  ∃ s ∈ side.sockets (u.node x), s.name = name

namespace World

variable {u w : World} {j : Nat} {x : NodeRef} {name : String}

theorem Member.nodeAt? (hg : (u.graph j).Indexed) (hx : u.Member j x) :
    (u.graph j).nodeAt? x.serial = some (u.node x) ∧ u.node x ∈ (u.graph j).nodes := by
  obtain ⟨rfl, id, hid⟩ := hx
  obtain ⟨n, hn, rfl⟩ := hg.placed hid
  have hnode : u.node x = n := by simp only [World.node, hn, Option.getD_some]
  rw [hnode]
  exact ⟨hn, (hg.of_node? (Option.bind_eq_some_iff.2 ⟨_, hid, hn⟩)).1⟩

theorem has_modifyGraph {k : Nat} {f : Graph → Graph}
    (hf : (w.graph k).vars.has name = true → (f (w.graph k)).vars.has name = true)
    (h : (w.graph j).vars.has name = true) : ((w.modifyGraph k f).graph j).vars.has name = true := by
  simp only [World.graph, World.modifyGraph, Array.getElem?_modify] at h hf ⊢
  split
  · rename_i hk
    subst hk
    cases hx : w.graphs[k]? with
    | none => rwa [hx] at h
    | some g =>
      rw [hx] at h hf
      exact hf h
  · exact h

theorem has_stamp (k : Nat) (v : Value) (h : (w.graph j).vars.has name = true) :
    ((w.stamp k v).2.graph j).vars.has name = true := by
  unfold World.stamp
  split
  · refine has_modifyGraph (fun hk => ?_) h
    obtain ⟨n, hn⟩ := (w.graph k).stamp_eq v
    rw [hn]
    exact hk
  · exact h

/-- What a world looks like apart from what its nodes hold settles which sockets they have. -/
theorem Outlined.sockets (h : Outlined u w) (side : Side) (x : NodeRef) :
    (side.sockets (w.node x)).map Socket.hollow = (side.sockets (u.node x)).map Socket.hollow := by
  cases side with
  | input => exact h.inputs x
  | output => exact (congrArg Node.outputs (h.node x) :)

theorem Outlined.getElem? (h : Outlined u w) (side : Side) {p : Nat} {s : Socket}
    (hs : (side.sockets (w.node x))[p]? = some s) :
    ∃ t, (side.sockets (u.node x))[p]? = some t ∧ t.hollow = s.hollow :=
  socket_of_outline (h.sockets side x) hs

/-- Where a socket is found by its name, one of its type was there before. -/
theorem Outlined.find?_of (h : Outlined u w) (side : Side) {s : Socket}
    (hs : (side.sockets (w.node x)).find? (·.name = name) = some s) :
    ∃ t, (side.sockets (u.node x)).find? (·.name = name) = some t ∧ t.valueType = s.valueType := by
  have hhollow (ss : List Socket) :
      (ss.find? (·.name = name)).map Socket.hollow = (ss.map Socket.hollow).find? (·.name = name) := by
    rw [List.find?_map]
    rfl
  have hsame := hhollow (side.sockets (u.node x))
  rw [← h.sockets side x, ← hhollow, hs] at hsame
  obtain ⟨t, ht, hts⟩ := Option.map_eq_some_iff.1 hsame
  exact ⟨t, ht, (congrArg Socket.valueType hts :)⟩

theorem Outlined.find? (h : Outlined u w) {side : Side} (hx : u.Has side x name) :
    ∃ s, (side.sockets (w.node x)).find? (·.name = name) = some s := by
  obtain ⟨s, hs, rfl⟩ := hx
  have hmem : s.hollow ∈ (side.sockets (w.node x)).map Socket.hollow := h.sockets side x ▸ List.mem_map_of_mem hs
  obtain ⟨t, ht, hts⟩ := List.mem_map.1 hmem
  have hname : t.name = s.name := (congrArg Socket.name hts :)
  exact Option.isSome_iff_exists.1 (List.find?_isSome.2 ⟨t, ht, by simpa using hname⟩)

/-- The type of an output does not change. -/
theorem Outlined.outputAt? (h : Outlined u w) (k : Nat) {e : End} {a : Socket} (ha : (u.graph k).outputAt? e = some a) :
    ∃ s, (w.graph k).outputAt? e = some s ∧ s.valueType = a.valueType := by
  have hsame := congrArg (Graph.outputAt? · e) (h.graph k)
  simp only [Graph.outputAt?_outline, ha, Option.map_some] at hsame
  obtain ⟨s, hs, hollow⟩ := Option.map_eq_some_iff.1 hsame
  exact ⟨s, hs, (congrArg Socket.valueType hollow :)⟩

/-- Where the first wire at an input leads, the node belongs to the graph, and what it gives can be carried over. -/
theorem Outlined.fed (hg : (u.graph j).Indexed) (h : Outlined u w) (hx : u.Member j x) {p : Nat} {ends : Ends}
    (hends : (((w.node x).inputs[p]?).getD default).wires.head?.bind (w.graph x.graph).endsOf = some ends) :
    u.Member j ⟨x.graph, ends.source.node⟩ ∧ ∃ a s, (u.graph x.graph).outputAt? ends.source = some a ∧
      (w.node x).inputs[p]? = some s ∧ (u.registryOf x).canConnect a.valueType s.valueType = true := by
  obtain ⟨wire, hwire, hends⟩ := Option.bind_eq_some_iff.1 hends
  cases hs : (w.node x).inputs[p]? with
  | none =>
    rw [hs] at hwire
    cases hwire
  | some s =>
    rw [hs, Option.getD_some] at hwire
    obtain ⟨t, ht, hts⟩ := h.getElem? .input hs
    have hwires : t.wires = s.wires := (congrArg Socket.wires hts :)
    obtain ⟨rfl, id, hid⟩ := hx
    obtain ⟨hnode, -⟩ := Member.nodeAt? hg (⟨rfl, id, hid⟩ : u.Member x.graph x)
    obtain ⟨-, e, hjoins, he, hend⟩ := hg.of_mem_wires .input hid hnode ht (hwires ▸ List.mem_of_mem_head? hwire)
    rw [h.endsOf, he] at hends
    obtain rfl : e = ends := Option.some.inj hends
    obtain ⟨n, hsource, hn, -⟩ := hjoins.leads .output
    obtain ⟨a, b, ha, hb, hfit⟩ := hjoins.fits
    obtain ⟨o, ho, rfl⟩ := Option.map_eq_some_iff.1 ha
    rw [show e.target = ⟨x.serial, p⟩ from hend] at hb
    simp only [Graph.typeAt?, Side.sockets, hnode, Option.bind_some] at hb
    have ht : (u.node x).inputs[p]? = some t := ht
    rw [ht, Option.map_some, Option.some.injEq] at hb
    have htype : t.valueType = s.valueType := (congrArg Socket.valueType hts :)
    exact ⟨⟨rfl, _, hsource⟩, o, s, ho, rfl, (hb.symm.trans htype) ▸ hfit⟩

end World

namespace World.Outlined

variable {u w : World} {j : Nat} {x : NodeRef}

theorem member_of_mem_ids (hg : (u.graph j).Indexed) (h : Outlined u w) {n : Nat} (hn : n ∈ (w.graph j).ids.values) :
    u.Member j ⟨j, n⟩ := by
  have hids : (w.graph j).ids = (u.graph j).ids := (congrArg Graph.ids (h.graph j) :)
  obtain ⟨⟨id, n'⟩, hentry, rfl⟩ := List.mem_map.1 (hids ▸ hn)
  exact ⟨rfl, id, Table.get?_of_mem_entries hg.keys hentry⟩

/-- The wires at an output are wires of the graph. -/
theorem mem_wires (hg : (u.graph j).Indexed) (h : Outlined u w) (hx : u.Member j x) {output : String} {s : Socket}
    (hs : (w.node x).output? output = some s) {wire : Wire} (hwire : wire ∈ s.wires) : wire ∈ (u.graph j).wires := by
  obtain ⟨p, hp⟩ := List.mem_iff_getElem?.1 (List.mem_of_find?_eq_some hs)
  obtain ⟨t, ht, hts⟩ := h.getElem? .output hp
  have hwires : t.wires = s.wires := (congrArg Socket.wires hts :)
  obtain ⟨id, hid⟩ := hx.2
  exact (hg.of_mem_wires .output hid (hx.nodeAt? hg).1 ht (hwires ▸ hwire)).1

/-- A wire of the graph leads to one of its nodes. -/
theorem target (hg : (u.graph j).Indexed) (h : Outlined u w) {r : Route} (hgraph : r.graph = j)
    (hwire : r.wire ∈ (u.graph j).wires) {ends : Ends} (hends : (w.graph r.graph).endsOf r.wire = some ends) :
    u.Member j ⟨r.graph, ends.target.node⟩ := by
  subst hgraph
  obtain ⟨e, hjoins, he⟩ := hg.joined _ hwire
  rw [h.endsOf, he] at hends
  obtain rfl : e = ends := Option.some.inj hends
  obtain ⟨n, hid, -⟩ := hjoins.leads .input
  exact ⟨rfl, _, hid⟩

end World.Outlined

namespace Contract

/-- What keeps failures of structure away from the graph at a place: its outline stays as it is in `u`, no variable goes,
and whoever writes an output, goes along a wire or is told of something finds what it looks for. -/
def structural (u : World) (j : Nat) : Contract where
  holds w := Outlined u w ∧ ∀ name, (u.graph j).vars.has name = true → (w.graph j).vars.has name = true
  uses := u.Member j
  behaviour x := (u.node x).definition.behaviour
  takes _ _ _ := True
  sets x key v := (u.node x).configuration.get? key = some v
  keeps _ _ _ := True
  knows x y := (∃ v, (u.node x).configuration.get? variableKey = some v) ∧ ∃ w name,
    (Outlined u w ∧ ∀ name, (u.graph j).vars.has name = true → (w.graph j).vars.has name = true) ∧
      (w.graph x.graph).vars.get? name = some y
  calls x e := ∃ v, (u.node x).configuration.get? eventKey = some v ∧ (u.graph j).eventOf v = .ok (some e)
  gives x name _ := u.Has .output x name
  heeds
    | .nextOutput c _ => u.Member j c.node
    | .nextRound c _ _ => u.Member j c.node ∧ u.Has .output c.node "index"
    | .script _ _ => False
    | .host _ _ => True
  leads r := r.graph = j ∧ r.wire ∈ (u.graph j).wires ∧ ∃ e t, (u.graph j).endsOf r.wire = some e ∧
    (u.graph j).inputAt? e.target = some t ∧ t.isFlow = true
  waits x := u.Member j x ∧ (u.node x).flowOutputs ≠ []
  hears t x := u.Member j x ∧ match t with
    | .tick => u.Has .output x "delta_seconds"
    | .variableChange _ _ => u.Has .output x "value"
    | .eventTrigger k serial => k = j ∧ ∃ e ∈ (u.graph j).events.entries, e.2.serial = serial ∧
        ∀ p ∈ e.2.parameters, u.Has .output x p.name
    | _ => True
  admits e := e.isStructural = false

end Contract

theorem Graph.has_set_stamp {g : Graph} (w : Value) (key : String) (y : Variable) {name : String}
    (hname : g.vars.has name = true) : (((g.stamp w).1.vars.set key y).has name) = true := by
  have hstamp : (g.stamp w).1.vars = g.vars := by
    obtain ⟨n, hn⟩ := g.stamp_eq w
    rw [hn]
  rw [hstamp, Table.has_iff, Table.keys_set]
  rw [Table.has_iff] at hname
  split
  · exact hname
  · exact List.mem_append_left _ hname

theorem Graph.has_assign {g changed : Graph} {x : Variable} {v : Value} {told : Option Value}
    (h : g.assign x v = .ok (changed, told)) {name : String} (hname : g.vars.has name = true) :
    changed.vars.has name = true := by
  obtain ⟨w, y, -, -, rfl⟩ := assign_eq_ok h
  exact has_set_stamp w x.name y hname

theorem Graph.has_setVariable {g changed : Graph} {name : String} {v : Value} {told : Option Value}
    (h : g.setVariable name v = .ok (changed, told)) {other : String} (hother : g.vars.has other = true) :
    changed.vars.has other = true := by
  obtain ⟨x, w, initial, y, -, -, -, -, rfl⟩ := setVariable_eq_ok h
  exact has_set_stamp w name y hother

section Laws

variable {u : World} {j : Nat}

theorem Contract.structural_holds {v w : World} (h : (structural u j).holds w) (hout : Outlined u v)
    (hvars : ∀ name, (w.graph j).vars.has name = true → (v.graph j).vars.has name = true) : (structural u j).holds v :=
  ⟨hout, fun name hname => hvars name (h.2 name hname)⟩

theorem Contract.structural_modifyNode {w : World} (h : (structural u j).holds w) (x : NodeRef) {f : Node → Node}
    (hf : (f (w.node x)).outline = (w.node x).outline) : (structural u j).holds (w.modifyNode x f) := by
  refine structural_holds h (h.1.modifyNode x hf) fun name hname => ?_
  exact World.has_modifyGraph (fun h => h) hname

theorem Contract.structural_refused {w : World} (h : (structural u j).holds w) {x : NodeRef} {name : String} {v : Value}
    {f : Fault} (hx : u.Has .output x name) (he : (w.node x).write name v = .error f) : f.isStructural = false := by
  obtain ⟨s, hs⟩ := h.1.find? hx
  have hs : (w.node x).output? name = some s := hs
  have hplace := Node.find?_eq_place? name (w.node x).outputs
  rw [show (w.node x).outputs.find? (·.name = name) = some s from hs] at hplace
  obtain ⟨p, hp, -⟩ := Option.bind_eq_some_iff.1 hplace.symm
  simp only [Node.write, hp, hs] at he
  split at he
  · cases he
    rfl
  · cases he

theorem Contract.structural_goesOn {w : World} (h : (structural u j).holds w) {x : NodeRef}
    (hx : (u.node x).flowOutputs ≠ []) {f : Failure} (he : w.outputOf x = .error f) : f.isStructural = false := by
  unfold World.outputOf at he
  dsimp only at he
  split at he
  · cases he
  · split at he
    · cases he
    · rename_i hnone
      exact absurd ((h.1.flowOutputs_eq_nil x).1 hnone) hx

variable (hu : (u.graph j).Sturdy)

include hu

theorem World.Member.fit {x : NodeRef} (hx : u.Member j x) : (u.node x).definition.Fit :=
  hu.fit _ (hx.nodeAt? hu.indexed).2

/-- A node of the graph has the sockets that its definition names itself. -/
theorem World.Member.has_own {x : NodeRef} (hx : u.Member j x) (side : Side) {name : String}
    (hname : ∃ s ∈ (side.source (u.node x).definition).own, s.name = name) : u.Has side x name := by
  obtain ⟨s, hs, rfl⟩ := hname
  obtain ⟨t, ht, hout⟩ := (hu.expanded _ (hx.nodeAt? hu.indexed).2).exists_own side hs
  exact ⟨t, ht, congrArg Prod.fst hout⟩

/-- The wires at a flow output of a member lead on to members. -/
theorem Contract.structural_leads {w : World} (h : (structural u j).holds w) {x : NodeRef} (hx : u.Member j x)
    {output : String} {s : Socket} (hs : (w.node x).output? output = some s) (hflow : s.isFlow = true) :
    ∀ wire ∈ s.wires, (structural u j).leads ⟨x.graph, wire⟩ := by
  intro wire hwire
  obtain ⟨p, hp⟩ := List.mem_iff_getElem?.1 (List.mem_of_find?_eq_some hs)
  obtain ⟨t, ht, hts⟩ := h.1.getElem? .output hp
  have hwires : t.wires = s.wires := (congrArg Socket.wires hts :)
  have htype : t.valueType = s.valueType := (congrArg Socket.valueType hts :)
  obtain ⟨id, hid⟩ := hx.2
  obtain ⟨hmem, e, hjoins, hends, hend⟩ := hu.indexed.of_mem_wires .output hid (hx.nodeAt? hu.indexed).1 ht
    (hwires ▸ hwire)
  obtain ⟨a, b, ha, hb, hfit⟩ := hjoins.fits
  rw [show e.source = ⟨x.serial, p⟩ from hend] at ha
  simp only [Graph.typeAt?, (hx.nodeAt? hu.indexed).1, Option.bind_some, ht, Option.map_some, Option.some.injEq] at ha
  obtain ⟨i, hi, hib⟩ := Option.map_eq_some_iff.1 hb
  refine ⟨hx.1, hmem, e, i, hends, hi, ?_⟩
  have hout : a = ValueType.flowName := ha.symm.trans (htype.trans (eq_of_beq hflow))
  rw [Registry.canConnect, if_pos (.inl hout), hout, ← hib] at hfit
  exact beq_iff_eq.2 (eq_of_beq hfit).symm

/-- The end of a path's wire is a node of the graph that takes part in flow. -/
theorem Contract.structural_reaches {w : World} (h : (structural u j).holds w) {r : Route} (hr : (structural u j).leads r)
    {ends : Ends} (hends : (w.graph r.graph).endsOf r.wire = some ends) :
    (structural u j).Reaches ⟨r.graph, ends.target.node⟩ := by
  obtain ⟨rfl, hwire, e, t, he, ht, hflow⟩ := hr
  have hmember := h.1.target hu.indexed rfl hwire hends
  rw [h.1.endsOf, he] at hends
  obtain rfl : e = ends := Option.some.inj hends
  refine ⟨hmember, fun hkind => ?_⟩
  obtain ⟨hnode, hmem⟩ := hmember.nodeAt? hu.indexed
  have hdata : (u.node ⟨r.graph, e.target.node⟩).definition.inputs.isData = true := by
    have hfit := (hmember.fit hu).kind
    rw [Definition.isFitKind] at hfit
    have hkind' : (u.node ⟨r.graph, e.target.node⟩).definition.kind = .event ∨
        (u.node ⟨r.graph, e.target.node⟩).definition.kind = .function := hkind
    rcases hkind' with hkind | hkind <;> simpa only [hkind] using hfit
  have hin : t ∈ (u.node ⟨r.graph, e.target.node⟩).inputs := by
    rw [Graph.inputAt?, hnode] at ht
    exact List.mem_of_getElem? ht
  rw [(hu.expanded _ hmem).isFlow_of_isData .input hdata hin] at hflow
  cases hflow

/-- The contract of a graph that holds together is lawful. -/
theorem Contract.structural_lawful : (structural u j).Lawful where
  frame := fun hgraphs h => ⟨h.1.frame hgraphs, by simpa only [World.graph, hgraphs] using h.2⟩
  mark := fun h x error lastOutput => structural_modifyNode h x rfl
  stamp := fun h k v => structural_holds h (h.1.stamp k v) fun _ => World.has_stamp k v
  stamped := fun h _ _ => h
  write := fun h => fun _ hn => structural_modifyNode h _ (Node.outline_write hn)
  refused := fun h => fun hx he => structural_refused h hx he
  assign := by
    intro v w _ h k name x new changed told _ hchanged
    refine ⟨structural_holds h (h.1.modifyGraph k (Outlined.outline_assign hchanged)) fun name hname =>
      World.has_modifyGraph (fun hk => Graph.has_assign hchanged hk) hname, ?_⟩
    rintro new - y hy values ⟨⟩ p hp
    rw [List.mem_singleton.1 hp]
    exact hy.2
  wires := fun h => fun hx => fun hs hflow => structural_leads hu h hx hs hflow
  goesOn := fun h => fun hx => fun he => structural_goesOn h hx.2 he
  misuse := by
    intro w x reason hreason
    cases hreason <;> rfl
  plain := Fault.isStructural_of_not_isMissing
  unfit := fun _ _ _ => rfl
  wrapped := fun he w x => fun hreason => (NodeReason.isStructural_of_cause hreason).trans he
  behaviour := fun h => fun hx => congrArg Definition.behaviour (h.1.definition _)
  missing := by
    intro x hx hmissing
    cases hmissing.symm.trans (World.Member.fit hu hx).present
  unresolved := by
    rintro w h r ⟨hr, -, e, t, he, -⟩ hnone
    rw [h.1.endsOf, hr, he] at hnone
    cases hnone
  target := fun h => fun hr => fun hends => structural_reaches hu h hr hends
  waiting := And.left
  hearing := And.left
  paths := fun h q => h

end Laws

end FlowGraph
