import FlowGraph.Proofs.Signatures

/-!
What a loaded graph holds. Main statement: a graph that was loaded from a document whose events have no two parameters
of one name holds values of their types in all data sockets, variables and parameters.
-/
namespace FlowGraph

/-- The socket holds a value of its type if it carries data. -/
def Registry.Fills (r : Registry) (s : Socket) : Prop := s.isFlow = false → r.Types s.valueType s.value

instance (r : Registry) (s : Socket) : Decidable (r.Fills s) := inferInstanceAs (Decidable (_ → _))

/-- No event has two parameters of one name. -/
def Document.Distinct (d : Document) : Prop := ∀ e ∈ d.events, (e.parameters.map (·.name)).Nodup

instance (d : Document) : Decidable d.Distinct := inferInstanceAs (Decidable (∀ _ ∈ _, _))

/-- Giving one socket a value of its type keeps the sockets filled. -/
theorem Registry.fills_modify {r : Registry} {ss : List Socket} {i : Nat} {v : Value} (hss : ∀ s ∈ ss, r.Fills s)
    (hv : ∀ t, ss[i]? = some t → t.isFlow = false → r.Types t.valueType v) :
    ∀ s ∈ ss.modify i fun s => { s with value := v }, r.Fills s := by
  intro s hs hflow
  obtain ⟨j, hj⟩ := List.mem_iff_getElem?.1 hs
  rw [List.getElem?_modify] at hj
  split at hj
  · rename_i hij
    subst hij
    cases ht : ss[i]? with
    | none =>
      rw [ht] at hj
      cases hj
    | some t =>
      rw [ht] at hj
      cases hj
      exact hv t ht hflow
  · exact hss s (List.mem_of_getElem? (by simpa using hj)) hflow

/-- A variable that takes a value is the same but for that, and tells of values of its type. -/
theorem Variable.holds_put {x y : Variable} {v : Value} {told : Option Value} (hv : x.valueType.Holds v)
    (h : x.put v = .ok (y, told)) : y = { x with value := v } ∧ ∀ new, told = some new → x.valueType.Holds new := by
  refine ⟨put_eq_ok h, ?_⟩
  rintro new rfl
  obtain ⟨same, -, h⟩ := bind_eq_ok.1 h
  cases same with
  | true => cases h
  | false =>
    obtain ⟨told, htold, h⟩ := bind_eq_ok.1 h
    cases h
    obtain ⟨_, hcloned, hnew⟩ := map_eq_ok.1 htold
    cases hnew
    cases hv.clone.symm.trans (lifted_eq_ok.1 hcloned)
    exact hv

namespace Graph

/-- All data of the graph is of its types, and every node is in the state that it starts in. -/
structure Filled (g : Graph) : Prop where
  sockets : ∀ {k : Nat} {n : Node}, g.nodeAt? k = some n → ∀ side : Side, ∀ s ∈ side.sockets n, g.registry.Fills s
  states : ∀ {k : Nat} {n : Node}, g.nodeAt? k = some n → n.state = n.definition.initialState
  vars : ∀ e ∈ g.vars.entries, e.2.valueType.Holds e.2.value ∧ e.2.valueType.Holds e.2.initial
  events : ∀ e ∈ g.events.entries, (e.2.parameters.map (·.name)).Nodup ∧
    ∀ p ∈ e.2.parameters, g.registry.Types p.valueType p.default

namespace Filled

variable {r : Registry} {ds : List Definition} {g h : Graph}

theorem of_empty (name : String) (r : Registry) (replace : Bool) (labels : Nat) :
    Filled { name := name, registry := r, replaceLinks := replace, labels := labels } := by
  refine ⟨?_, ?_, by simp, by simp⟩ <;>
  · intro k n hn
    simp [nodeAt?] at hn

/-- Labels are no part of it. -/
theorem relabel (hg : Filled g) (labels : Nat) : Filled { g with labels := labels } :=
  ⟨hg.sockets, hg.states, hg.vars, hg.events⟩

theorem stamp (hg : Filled g) (v : Value) : Filled (g.stamp v).1 := by
  obtain ⟨n, hn⟩ := g.stamp_eq v
  rw [hn]
  exact hg.relabel n

theorem scope (hsourced : Sourced r g) (hg : Filled g) : g.scope.Typed r := by
  constructor
  · intro name t ht
    obtain ⟨x, hx, rfl⟩ := Option.map_eq_some_iff.1 ht
    exact ⟨_, (hsourced.vars _ (Table.mem_entries_of_get? hx)).2⟩
  · intro name ps hps
    obtain ⟨e, he, rfl⟩ := Option.map_eq_some_iff.1 hps
    exact hsourced.registry ▸ (hg.events _ (Table.mem_entries_of_get? he)).2

/-- A declared variable holds a value of its type. -/
theorem declareVariable (hr : r.Standard ds) (hreg : g.registry = r) (hg : Filled g) {name typeName : String} {initial : Value}
    (hd : g.declareVariable name typeName initial = .ok h) : Filled h := by
  unfold Graph.declareVariable at hd
  split at hd
  · cases hd
  · split at hd
    · cases hd
    · rename_i t ht
      obtain ⟨w, hw, hd⟩ := bind_eq_ok.1 hd
      have hbasic := (hr.valueType_spec (hreg ▸ ht)).2
      have hheld : t.Holds w := by
        unfold Variable.start at hw
        split at hw
        · have hx := ValueType.holds_create hbasic
          have hw : Except.lifted (t.clone t.create) = .ok w := hw
          rw [lifted_eq_ok] at hw
          cases hx.clone.symm.trans hw
          exact hx
        · obtain ⟨x, hx, hw⟩ := bind_eq_ok.1 hw
          have hx := ValueType.holds_coerce hbasic hx
          rw [lifted_eq_ok] at hw
          cases hx.clone.symm.trans hw
          exact hx
      have hkept := (g.stamp_spec hheld).1
      have hsame := hg.stamp w
      generalize g.stamp w = p at hd hkept hsame
      cases hd
      refine ⟨hsame.sockets, hsame.states, fun e he => ?_, hsame.events⟩
      rcases Table.mem_entries_set he with rfl | he
      · exact ⟨hkept, hkept⟩
      · exact hsame.vars e he

theorem loadVariable (hr : r.Standard ds) (hreg : g.registry = r) (hg : Filled g) {v : Document.Variable}
    (hl : Document.loadVariable g v = .ok h) : Filled h := by
  obtain ⟨initial, -, hd⟩ := bind_eq_ok.1 hl
  exact hg.declareVariable hr hreg hd

/-- What a literal of a document is read as is of the type that it is read for. -/
theorem types_literalOf (hr : r.Standard ds) {typeName : String} {raw v : Value} {place : String}
    (h : Document.literalOf r typeName raw place = .ok v) : r.Types typeName v := by
  unfold Document.literalOf at h
  split at h
  · cases h
  · rename_i t ht
    have hbasic := (hr.valueType_spec ht).2
    refine ⟨t, ht, ?_⟩
    unfold Document.literal at h
    split at h
    · cases h
      exact ValueType.holds_create hbasic
    · split at h
      · rename_i hv
        cases h
        exact ValueType.holds_decode hbasic hv
      · split at h
        · split at h <;> cases h
        · cases h

theorem types_checkParameter (hr : r.Standard ds) (hreg : g.registry = r) {event : String} {s p : SocketSpec}
    (hs : s.default.isNone = true ∨ r.Types s.valueType s.default) (h : g.checkParameter event s = .ok p) :
    p.name = s.name ∧ r.Types p.valueType p.default := by
  unfold checkParameter at h
  split at h
  · cases h
  · obtain ⟨t, ht, h⟩ := bind_eq_ok.1 h
    rw [hreg] at ht
    cases h
    split
    · exact ⟨rfl, t, ht, ValueType.holds_create (hr.valueType_spec ht).2⟩
    · rename_i hgiven
      exact ⟨rfl, hs.resolve_left hgiven⟩

theorem types_stampParameters (g : Graph) {ps : List SocketSpec} (hps : ∀ p ∈ ps, r.Types p.valueType p.default) :
    (g.stampParameters ps).2.map (·.name) = ps.map (·.name) ∧
      ∀ p ∈ (g.stampParameters ps).2, r.Types p.valueType p.default := by
  induction ps generalizing g with
  | nil => exact ⟨rfl, fun _ hp => (List.not_mem_nil hp).elim⟩
  | cons p ps ih =>
    obtain ⟨hnames, hrest⟩ := ih (g.stamp p.default).1 fun q hq => hps q (List.mem_cons_of_mem p hq)
    refine ⟨congrArg (p.name :: ·) hnames, fun q hq => ?_⟩
    rcases List.mem_cons.1 hq with rfl | hq
    · obtain ⟨t, ht, hv⟩ := hps p List.mem_cons_self
      exact ⟨t, ht, (g.stamp_spec hv).1⟩
    · exact hrest q hq

theorem relabelParameters (hg : Filled g) (ps : List SocketSpec) : Filled (g.stampParameters ps).1 := by
  obtain ⟨n, hn⟩ := g.stampParameters_eq ps
  rw [hn]
  exact hg.relabel n

theorem registry_stampParameters (g : Graph) (ps : List SocketSpec) : (g.stampParameters ps).1.registry = g.registry := by
  obtain ⟨n, hn⟩ := g.stampParameters_eq ps
  rw [hn]

/-- A declared event has parameters whose defaults are of their types. -/
theorem declareEvent (hr : r.Standard ds) (hreg : g.registry = r) (hg : Filled g) {name : String} {ps : List SocketSpec}
    (hdistinct : (ps.map (·.name)).Nodup) (hps : ∀ p ∈ ps, p.default.isNone = true ∨ r.Types p.valueType p.default)
    (hd : g.declareEvent name ps = .ok h) : Filled h := by
  unfold Graph.declareEvent at hd
  split at hd
  · cases hd
  · obtain ⟨checked, hchecked, hd⟩ := bind_eq_ok.1 hd
    have hall := forall₂_of_mapM hchecked
    have hnames : checked.map (·.name) = ps.map (·.name) := by
      refine (map_eq_of_forall₂ ?_)
      have hzip : List.Forall₂ (fun s p => s ∈ ps ∧ g.checkParameter name s = .ok p) ps checked :=
        List.forall₂_iff_zip.2 ⟨hall.length_eq, fun hp => ⟨(List.of_mem_zip hp).1, (List.forall₂_iff_zip.1 hall).2 hp⟩⟩
      exact hzip.imp fun s p h => (types_checkParameter hr hreg (hps s h.1) h.2).1
    have htypes : ∀ p ∈ checked, r.Types p.valueType p.default := by
      intro p hp
      obtain ⟨s, hs, h⟩ := mem_right_of_forall₂ hall hp
      exact (types_checkParameter hr hreg (hps s hs) h).2
    obtain ⟨hkept, hdefaults⟩ := types_stampParameters g htypes
    have hsame := hg.relabelParameters checked
    have hregistry := registry_stampParameters g checked
    generalize g.stampParameters checked = p at hd hkept hdefaults hsame hregistry
    cases hd
    refine ⟨hsame.sockets, hsame.states, hsame.vars, fun x hx => ?_⟩
    rcases Table.mem_entries_set hx with rfl | hx
    · refine ⟨?_, (hregistry.trans hreg).symm ▸ hdefaults⟩
      rw [hkept, hnames]
      exact hdistinct
    · exact hsame.events x hx

/-- A custom event that is read has parameters whose defaults are of their types. -/
theorem loadEvent (hr : r.Standard ds) (hreg : g.registry = r) (hg : Filled g) {e : Document.Event}
    (hdistinct : (e.parameters.map (·.name)).Nodup) (hl : Document.loadEvent g e = .ok h) : Filled h := by
  obtain ⟨specs, hspecs, hl⟩ := bind_eq_ok.1 hl
  have hall := forall₂_of_mapM hspecs
  have hone {p : Document.Parameter} {s : SocketSpec} (h : Document.loadParameter g.registry e.name p = .ok s) :
      s.name = p.name ∧ r.Types s.valueType s.default := by
    obtain ⟨v, hv, h⟩ := bind_eq_ok.1 h
    cases h
    exact ⟨rfl, types_literalOf hr (hreg ▸ hv)⟩
  split at hl
  · rename_i g' hd
    cases hl
    refine hg.declareEvent hr hreg ?_ (fun s hs => ?_) hd
    · rwa [map_eq_of_forall₂ (hall.imp fun _ _ h => (hone h).1)]
    · obtain ⟨p, -, hp⟩ := mem_right_of_forall₂ hall hs
      exact .inr (hone hp).2
  · cases hl

/-- An input that is read holds a value of its type. -/
theorem loadInput (hr : r.Standard ds) (hreg : g.registry = r) (hg : Filled g) {k : Nat} {i : String × Value}
    (hl : Document.loadInput k g i = .ok h) : Filled h ∧ h.registry = r := by
  unfold Document.loadInput at hl
  split at hl
  · cases hl
    exact ⟨hg, hreg⟩
  · rename_i n hn
    split at hl
    · rename_i p s hp hs
      split at hl
      · cases hl
      · obtain ⟨v, hv, hl⟩ := bind_eq_ok.1 hl
        obtain ⟨t, ht, hheld⟩ := types_literalOf hr (hreg ▸ hv)
        have hkept := (g.stamp_spec hheld).1
        have hs' : n.inputs[p]? = some s := by
          have hplace := Node.find?_eq_place? i.1 n.inputs
          rw [hp, Option.bind_some] at hplace
          exact hplace.symm.trans hs
        have hsame := hg.stamp v
        have hnode : (g.stamp v).1.nodeAt? k = some n ∧ (g.stamp v).1.registry = r := by
          obtain ⟨labels, hlabels⟩ := g.stamp_eq v
          rw [hlabels]
          exact ⟨hn, hreg⟩
        generalize g.stamp v = q at hl hkept hsame hnode
        obtain ⟨hn, hreg⟩ := hnode
        cases hl
        refine ⟨⟨fun {k' m} hm side => ?_, fun {k' m} hm => ?_, hsame.vars, hsame.events⟩, hreg⟩
        · rw [nodeAt?_modifyNode] at hm
          split at hm
          · rename_i hk
            subst hk
            obtain ⟨m', hm', rfl⟩ := Option.map_eq_some_iff.1 hm
            cases hm'.symm.trans hn
            cases side with
            | output => exact hsame.sockets hn .output
            | input =>
              refine Registry.fills_modify (hsame.sockets hn .input) fun t' ht' _ => ?_
              cases ht'.symm.trans hs'
              exact ⟨t, hreg.symm ▸ ht, hkept⟩
          · exact hsame.sockets hm side
        · rw [nodeAt?_modifyNode] at hm
          split at hm
          · obtain ⟨m', hm', rfl⟩ := Option.map_eq_some_iff.1 hm
            exact (hsame.states hm' :)
          · exact hsame.states hm
    · cases hl

/-- A node that is added holds values of its types, drawn from defaults that are of them. -/
theorem addNode (hr : r.Standard ds) (hsound : ∀ d ∈ ds, d.isSound = true) (hsourced : Sourced r g) (hg : Filled g)
    {typeName : String} {id : Option String} {overrides : List (String × Value)} {position : Value} {k : Nat}
    (ha : g.addNode typeName id overrides position = .ok (h, k)) : Filled h ∧ h.registry = r := by
  unfold Graph.addNode at ha
  split at ha
  · cases ha
  · rename_i d hknown
    obtain ⟨n, -, hmake, rfl, -⟩ := addNodeOf_eq_ok ha
    obtain ⟨place, c, inputs, outputs, -, -, hin, hout, rfl⟩ := makeNode_eq_ok hmake
    have hd := hsound d (hr.definition_spec (hsourced.registry ▸ hknown)).2
    simp only [Definition.isSound, Bool.and_eq_true] at hd
    have hside {source : SocketSource} (hsource : source.isSound = true) {ss : List Socket}
        (hss : g.buildSide source c = .ok ss) : Fresh r ss := by
      obtain ⟨specs, hspecs, -⟩ := bind_eq_ok.1 hss
      have hspecs := lifted_eq_ok.1 hspecs
      obtain ⟨ss', hss', -, hfresh⟩ := buildSide_ok hr hsourced.registry hspecs
        (SocketSource.builds_expand hr hsource (hg.scope hsourced) hspecs)
      cases hss.symm.trans hss'
      exact hfresh
    have hfreshIn := (hside hd.1 hin).stampSide g
    have hfreshOut := (hside hd.2 hout).stampSide (g.stampSide inputs).1
    generalize hn : ({ id := g.chooseId id, definition := d, position := place, configuration := c
                       state := d.initialState, inputs := inputs, outputs := outputs } : Node) = n
    have hnode : (g.stampNode n).2.state = (g.stampNode n).2.definition.initialState ∧
        ∀ side : Side, ∀ s ∈ side.sockets (g.stampNode n).2, r.Fills s := by
      rw [← hn]
      refine ⟨rfl, fun side => ?_⟩
      cases side with
      | input => exact hfreshIn.typed
      | output => exact hfreshOut.typed
    obtain ⟨labels, hlabels⟩ := (g.stampNode_eq n).1
    simp only [insertNode, hlabels]
    refine ⟨⟨fun {j m} hm => ?_, fun {j m} hm => ?_, hg.vars, hg.events⟩, hsourced.registry⟩
    · simp only [nodeAt?, Array.getElem?_push] at hm
      split at hm
      · cases hm
        exact hsourced.registry.symm ▸ hnode.2
      · exact hg.sockets hm
    · simp only [nodeAt?, Array.getElem?_push] at hm
      split at hm
      · cases hm
        exact hnode.1
      · exact hg.states hm

theorem loadNode (hr : r.Standard ds) (hsound : ∀ d ∈ ds, d.isSound = true) (hsourced : Sourced r g) (hg : Filled g)
    {n : Document.Node} (hl : Document.loadNode g n = .ok h) : Filled h := by
  obtain ⟨⟨g', k⟩, hadd, hl⟩ := bind_eq_ok.1 hl
  exact (foldlM_invariant (P := fun g => Filled g ∧ g.registry = r) (fun _ _ _ _ hb hl => hb.1.loadInput hr hb.2 hl)
    (hg.addNode hr hsound hsourced hadd) hl).1

/-- Wires are no part of it. -/
theorem of_bare (hg : Filled g) (hb : h.bare = g.bare) : Filled h := by
  have hregistry := congrArg Graph.registry hb
  have hvars := congrArg Graph.vars hb
  have hevents := congrArg Graph.events hb
  simp only [bare] at hregistry hvars hevents
  have hnode {k : Nat} {m : Node} (hm : h.nodeAt? k = some m) : ∃ n, g.nodeAt? k = some n ∧ n.bare = m.bare := by
    have hk := congrArg (Graph.nodeAt? · k) hb
    simp only [nodeAt?_bare, hm, Option.map_some] at hk
    exact Option.map_eq_some_iff.1 hk.symm
  refine ⟨fun {k m} hm side s hs => ?_, fun {k m} hm => ?_, hvars ▸ hg.vars, hregistry ▸ hevents ▸ hg.events⟩
  · obtain ⟨n, hn, hnm⟩ := hnode hm
    have hss : (side.sockets n).map Socket.bare = (side.sockets m).map Socket.bare := by
      rw [← Side.sockets_bare, ← Side.sockets_bare, hnm]
    obtain ⟨t, ht, hts⟩ := List.mem_map.1 (hss ▸ List.mem_map_of_mem hs : s.bare ∈ (side.sockets n).map Socket.bare)
    have htype : t.valueType = s.valueType := (congrArg Socket.valueType hts :)
    have hvalue : t.value = s.value := (congrArg Socket.value hts :)
    have hfills := hg.sockets hn side t ht
    rw [Registry.Fills, Socket.isFlow, htype, hvalue] at hfills
    rw [hregistry]
    exact hfills
  · obtain ⟨n, hn, hnm⟩ := hnode hm
    have hstate : n.state = m.state := (congrArg Node.state hnm :)
    have hdefinition : n.definition = m.definition := (congrArg Node.definition hnm :)
    rw [← hstate, ← hdefinition]
    exact hg.states hn

theorem connect (hg : Filled g) (hi : Indexed g) {l : Link} {replace : Option Bool} {w : Wire}
    (hc : g.connect l replace = .ok (h, w)) : Filled h := by
  obtain ⟨e, output, input, shown, -, -, -, rfl, -⟩ := connect_eq_ok hc
  refine hg.of_bare ?_
  exact (rewired_plug ((g.disconnectAll (displaced input)).lay l (some e)).1 w e).bare.trans
    (hi.cut_disconnectAll (displaced input)).bare

theorem loadLink (hg : Filled g) {l : Link} (hindexed : Indexed g) (hl : Document.loadLink g l = .ok h) : Filled h := by
  unfold Document.loadLink at hl
  split at hl
  · rename_i h' w hc
    cases hl
    exact hg.connect hindexed hc
  · cases hl

/-- Loading a document without repeated names of parameters makes a graph whose data is of its types. -/
theorem toGraph (hr : r.Standard ds) (hsound : ∀ d ∈ ds, d.isSound = true) {d : Document} (hdistinct : d.Distinct)
    {replace : Bool} {labels : Nat}
    (hd : d.toGraph { registry := r, replaceLinks := replace, labels := labels } = .ok g) : Filled g := by
  obtain ⟨g₁, hvars, hd⟩ := bind_eq_ok.1 hd
  obtain ⟨g₂, hevents, hd⟩ := bind_eq_ok.1 hd
  obtain ⟨g₃, hnodes, hlinks⟩ := bind_eq_ok.1 hd
  have hvars := foldlM_invariant
    (P := fun g => Filled g ∧ Loaded r g ∧ ∀ k, g.nodeAt? k = none)
    (fun _ _ _ _ hb hl => ⟨hb.1.loadVariable hr hb.2.1.sourced.registry hl, hb.2.1.loadVariable hr hb.2.2 hl⟩)
    ⟨of_empty .., Loaded.of_empty .., fun k => by simp [nodeAt?]⟩ hvars
  have hevents := foldlM_invariant
    (P := fun g => Filled g ∧ Loaded r g ∧ ∀ k, g.nodeAt? k = none)
    (fun _ e he _ hb hl => ⟨hb.1.loadEvent hr hb.2.1.sourced.registry (hdistinct e he) hl, hb.2.1.loadEvent hb.2.2 hl⟩)
    hvars hevents
  have hnodes := foldlM_invariant (P := fun g => Filled g ∧ Loaded r g)
    (fun _ _ _ _ hb hl => ⟨hb.1.loadNode hr hsound hb.2.sourced hl, hb.2.loadNode hr hl⟩) ⟨hevents.1, hevents.2.1⟩ hnodes
  exact (foldlM_invariant (P := fun g => Filled g ∧ Loaded r g)
    (fun _ _ _ _ hb hl => ⟨hb.1.loadLink hb.2.indexed hl, hb.2.loadLink hl⟩) hnodes hlinks).1

end Filled

end Graph

end FlowGraph
