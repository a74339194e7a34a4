import FlowGraph.Proofs.Matching

/-!
Loading what was stored. Declarations, nodes and literals come back one by one as they were, up to which
NaN is which, and so does whatever a definition yields under the declarations.
-/
namespace FlowGraph

namespace Graph.Indexed

variable {g h : Graph}

theorem loadVariable (hg : Indexed g) {v : Document.Variable} (hl : Document.loadVariable g v = .ok h) : Indexed h := by
  obtain ⟨initial, -, hl⟩ := bind_eq_ok.1 hl
  exact hg.congr (sameLinks_declareVariable hl)

theorem loadEvent (hg : Indexed g) {e : Document.Event} (hl : Document.loadEvent g e = .ok h) : Indexed h := by
  obtain ⟨specs, -, hl⟩ := bind_eq_ok.1 hl
  split at hl
  · rename_i h' hd
    cases hl
    exact hg.congr (sameLinks_declareEvent hd)
  · cases hl

/-- What setting one input comes to. -/
theorem loadInput_eq_ok {k : Nat} {i : String × Value} (hl : Document.loadInput k g i = .ok h) :
    h = g ∨ ∃ p v, h = (g.stamp v).1.modifyNode k (·.setInput p (g.stamp v).2) := by
  unfold Document.loadInput at hl
  split at hl
  · cases hl
    exact .inl rfl
  · split at hl
    · split at hl
      · cases hl
      · obtain ⟨v, -, hl⟩ := bind_eq_ok.1 hl
        cases hl
        exact .inr ⟨_, v, rfl⟩
    · cases hl

theorem loadInput (hg : Indexed g) {k : Nat} {i : String × Value} (hl : Document.loadInput k g i = .ok h) :
    Indexed h := by
  rcases loadInput_eq_ok hl with rfl | ⟨p, v, rfl⟩
  · exact hg
  · have hstamp := hg.congr (g.sameLinks_stamp v)
    exact hstamp.congr (SameLinks.modifyNode (fun n => n.frame_setInput p _) _ k)

theorem loadNode (hg : Indexed g) {n : Document.Node} (hl : Document.loadNode g n = .ok h) : Indexed h := by
  obtain ⟨⟨g', k⟩, hadd, hl⟩ := bind_eq_ok.1 hl
  have hg' : Indexed g' := by
    unfold addNode at hadd
    split at hadd
    · cases hadd
    · exact hg.addNodeOf hadd
  exact foldlM_invariant (fun _ _ _ _ hb hl => hb.loadInput hl) hg' hl

theorem loadLink (hg : Indexed g) {l : Link} (hl : Document.loadLink g l = .ok h) : Indexed h := by
  unfold Document.loadLink at hl
  cases hc : g.connect l (some false) with
  | error e =>
    rw [hc] at hl
    cases hl
  | ok p =>
    rw [hc] at hl
    cases hl
    exact hg.connect hc

end Graph.Indexed

namespace Graph

variable {g h : Graph}

section Declarations

theorem literalOf_encodeAs {typeName : String} {v w : Value} (hr : h.registry = g.registry)
    (hv : g.registry.Types typeName v) (hw : g.encodeAs typeName v = .ok w) (place : String) :
    Document.literalOf h.registry typeName w place = .ok v := by
  obtain ⟨t, ht, hv⟩ := hv
  obtain ⟨w', hw', -, hback⟩ := hv.encode
  simp only [encodeAs, ht] at hw
  rw [lifted_eq_ok, hw'] at hw
  cases hw
  simp only [Document.literalOf, hr, ht, hback]

/-- A variable that was stored comes back last. -/
theorem loadVariable_ok {x : Variable} {dx : Document.Variable}
    (ht : h.registry.valueType x.valueType.name = .ok x.valueType) (hx : x.valueType.Holds x.initial)
    (hnew : x.name ∉ h.vars.keys) (hdx : storeVariable x = .ok dx) :
    ∃ y issued labels, Document.loadVariable h dx =
        .ok { h with vars := ⟨h.vars.entries ++ [(x.name, y)]⟩, issued := issued, labels := labels } ∧
      x.Matches y ∧ y.valueType.Holds y.initial := by
  obtain ⟨w, hw, hdx⟩ := bind_eq_ok.1 hdx
  cases hdx
  obtain ⟨w', hw', -, hback⟩ := hx.encode
  rw [lifted_eq_ok, hw'] at hw
  cases hw
  obtain ⟨hheld, hsame⟩ := h.stamp_spec hx
  obtain ⟨labels, hlabels⟩ := h.stamp_eq x.initial
  have hfree : h.vars.has x.name = false := by
    rw [← Bool.not_eq_true, Table.has_iff]
    exact hnew
  have hset (y : Variable) : h.vars.set x.name y = ⟨h.vars.entries ++ [(x.name, y)]⟩ := by
    rw [← Table.entries_set_of_not_mem y hnew]
  refine ⟨{ name := x.name, serial := h.issued, valueType := x.valueType, initial := (h.stamp x.initial).2
            value := (h.stamp x.initial).2 }, h.issued + 1, labels, ?_, ⟨rfl, rfl, hsame⟩, hheld⟩
  simp only [Document.loadVariable, Document.literalOf, ht, hback, bind, Except.bind, declareVariable, hfree, hx.start,
    Bool.false_eq_true, if_false, pure, Except.pure, hlabels, hset]

/-- All variables come back in order. -/
theorem loadVariables_ok {xs : List Variable} {dxs : List Document.Variable}
    (hdxs : List.Forall₂ (fun x dx => storeVariable x = .ok dx) xs dxs)
    (ht : ∀ x ∈ xs, h.registry.valueType x.valueType.name = .ok x.valueType)
    (hx : ∀ x ∈ xs, x.valueType.Holds x.initial) (hnew : (h.vars.keys ++ xs.map (·.name)).Nodup) :
    ∃ ys issued labels, dxs.foldlM Document.loadVariable h = .ok { h with
        vars := ⟨h.vars.entries ++ (xs.map (·.name)).zip ys⟩, issued := issued, labels := labels } ∧
      List.Forall₂ Variable.Matches xs ys ∧ ∀ y ∈ ys, y.valueType.Holds y.initial := by
  induction hdxs generalizing h with
  | nil => exact ⟨[], h.issued, h.labels, by simp [pure, Except.pure], .nil, by simp⟩
  | @cons x dx xs dxs hdx _ ih =>
    have hfresh : x.name ∉ h.vars.keys := by
      intro hin
      rw [List.map_cons, List.nodup_append] at hnew
      exact hnew.2.2 _ hin _ List.mem_cons_self rfl
    obtain ⟨y, issued, labels, hload, hxy, hy⟩ :=
      loadVariable_ok (ht x List.mem_cons_self) (hx x List.mem_cons_self) hfresh hdx
    obtain ⟨ys, issued', labels', hloads, hxys, hys⟩ := @ih { h with
        vars := ⟨h.vars.entries ++ [(x.name, y)]⟩, issued := issued, labels := labels }
      (fun x hx => ht x (List.mem_cons_of_mem _ hx)) (fun z hz => hx z (List.mem_cons_of_mem _ hz)) (by
        simpa [Table.keys] using hnew)
    refine ⟨y :: ys, issued', labels', ?_, .cons hxy hxys, ?_⟩
    · rw [List.foldlM_cons, hload]
      refine hloads.trans ?_
      simp
    · intro z hz
      rcases List.mem_cons.1 hz with rfl | hz
      · exact hy
      · exact hys z hz

def plain (p : SocketSpec) : SocketSpec := { name := p.name, valueType := p.valueType, default := p.default }

/-- Parameters that were written are read again, and come out plain. -/
theorem loadParameters_ok (event : String) {ps : List SocketSpec} {dps : List Document.Parameter}
    (hr : h.registry = g.registry) (hp : ∀ p ∈ ps, g.registry.Types p.valueType p.default)
    (hdps : ps.mapM g.storeParameter = .ok dps) :
    dps.mapM (Document.loadParameter h.registry event) = .ok (ps.map plain) := by
  apply mapM_of_forall₂
  rw [List.forall₂_map_right_iff]
  have hback : List.Forall₂ (fun p dp => p ∈ ps ∧ g.storeParameter p = .ok dp) ps dps := by
    have hall := forall₂_of_mapM hdps
    rw [List.forall₂_iff_get] at hall ⊢
    exact ⟨hall.1, fun i hi hj => ⟨List.getElem_mem hi, hall.2 i hi hj⟩⟩
  refine hback.flip.imp ?_
  rintro dp p ⟨hmem, hdp⟩
  obtain ⟨w, hw, hdp⟩ := bind_eq_ok.1 hdp
  cases hdp
  exact bind_eq_ok.2 ⟨_, literalOf_encodeAs hr (hp p hmem) hw _, rfl⟩

theorem checkParameter_ok {event : String} {p : SocketSpec} (hflow : p.isFlow = false) (hname : p.name ≠ "exec")
    (hp : h.registry.Types p.valueType p.default) : h.checkParameter event p = .ok p := by
  obtain ⟨t, ht, hv⟩ := hp
  have hkept : (if p.default.isNone then { p with default := t.create } else p) = p := by
    split
    · rename_i hnone
      cases hv.eq_flow hnone
      generalize hdefault : p.default = v at hv
      cases hv
      rw [ValueType.create, ← hdefault]
    · rfl
  simp only [checkParameter, hflow, beq_eq_false_iff_ne.2 hname, Bool.or_false, Bool.false_eq_true, if_false, ht,
    bind, Except.bind, pure, Except.pure, hkept]

/-- Stamping parameters takes labels and changes nothing else. -/
theorem stampParameters_spec {ps : List SocketSpec} (hp : ∀ p ∈ ps, h.registry.Types p.valueType p.default) :
    ∃ labels, (h.stampParameters ps).1 = { h with labels := labels } ∧
      List.Forall₂ SocketSpec.Matches ps (h.stampParameters ps).2 ∧
      ∀ q ∈ (h.stampParameters ps).2, h.registry.Types q.valueType q.default := by
  induction ps generalizing h with
  | nil => exact ⟨h.labels, rfl, .nil, by simp [stampParameters]⟩
  | cons p ps ih =>
    obtain ⟨t, ht, hv⟩ := hp p List.mem_cons_self
    obtain ⟨hheld, hsame⟩ := h.stamp_spec hv
    obtain ⟨labels, hlabels⟩ := h.stamp_eq p.default
    obtain ⟨labels', hrest, hmatch, htyped⟩ := @ih (h.stamp p.default).1 (by
      rw [hlabels]
      exact fun q hq => hp q (List.mem_cons_of_mem _ hq))
    refine ⟨labels', ?_, .cons ⟨rfl, hsame⟩ hmatch, ?_⟩
    · simp only [stampParameters, hrest]
      rw [hlabels]
    · intro q hq
      rcases List.mem_cons.1 hq with rfl | hq
      · exact ⟨t, ht, hheld⟩
      · have h' := htyped q hq
        rw [hlabels] at h'
        exact h'

/-- An event that was stored comes back last. -/
theorem loadEvent_ok {e : CustomEvent} {de : Document.Event} (hr : h.registry = g.registry)
    (hplain : ∀ p ∈ e.parameters, p.isFlow = false ∧ p.name ≠ "exec")
    (hp : ∀ p ∈ e.parameters, g.registry.Types p.valueType p.default) (hnew : e.name ∉ h.events.keys)
    (hde : g.storeEvent e = .ok de) :
    ∃ f issued labels, Document.loadEvent h de =
        .ok { h with events := ⟨h.events.entries ++ [(e.name, f)]⟩, issued := issued, labels := labels } ∧
      e.Matches f ∧ ∀ p ∈ f.parameters, h.registry.Types p.valueType p.default := by
  obtain ⟨dps, hdps, hde⟩ := bind_eq_ok.1 hde
  cases hde
  have hspecs := loadParameters_ok e.name hr hp hdps
  have hcheck : (e.parameters.map plain).mapM (h.checkParameter e.name) = .ok (e.parameters.map plain) := by
    apply mapM_of_forall₂
    rw [List.forall₂_same]
    intro q hq
    obtain ⟨p, hmem, rfl⟩ := List.mem_map.1 hq
    refine checkParameter_ok (hplain p hmem).1 (hplain p hmem).2 ?_
    rw [hr]
    exact hp p hmem
  obtain ⟨labels, hlabels, hmatch, htyped⟩ := @stampParameters_spec h (e.parameters.map plain) (by
    rw [hr]
    intro q hq
    obtain ⟨p, hmem, rfl⟩ := List.mem_map.1 hq
    exact hp p hmem)
  have hfree : h.events.has e.name = false := by
    rw [← Bool.not_eq_true, Table.has_iff]
    exact hnew
  have hset (f : CustomEvent) : h.events.set e.name f = ⟨h.events.entries ++ [(e.name, f)]⟩ := by
    rw [← Table.entries_set_of_not_mem f hnew]
  refine ⟨{ name := e.name, serial := h.issued, parameters := (h.stampParameters (e.parameters.map plain)).2 },
    h.issued + 1, labels, ?_, ⟨rfl, ?_⟩, htyped⟩
  · simp only [Document.loadEvent, hspecs, bind, Except.bind, declareEvent, hfree, hcheck, Bool.false_eq_true,
      if_false, pure, Except.pure, hlabels, hset]
  · rw [List.forall₂_map_left_iff] at hmatch
    exact hmatch.imp fun p q hpq => ⟨hpq.outline, hpq.default⟩

/-- All events come back in order. -/
theorem loadEvents_ok {es : List CustomEvent} {des : List Document.Event} (hr : h.registry = g.registry)
    (hdes : List.Forall₂ (fun e de => g.storeEvent e = .ok de) es des)
    (hplain : ∀ e ∈ es, ∀ p ∈ e.parameters, p.isFlow = false ∧ p.name ≠ "exec")
    (hp : ∀ e ∈ es, ∀ p ∈ e.parameters, g.registry.Types p.valueType p.default)
    (hnew : (h.events.keys ++ es.map (·.name)).Nodup) :
    ∃ fs issued labels, des.foldlM Document.loadEvent h = .ok { h with
        events := ⟨h.events.entries ++ (es.map (·.name)).zip fs⟩, issued := issued, labels := labels } ∧
      List.Forall₂ CustomEvent.Matches es fs ∧
      ∀ f ∈ fs, ∀ p ∈ f.parameters, h.registry.Types p.valueType p.default := by
  induction hdes generalizing h with
  | nil => exact ⟨[], h.issued, h.labels, by simp [pure, Except.pure], .nil, by simp⟩
  | @cons e de es des hde _ ih =>
    have hfresh : e.name ∉ h.events.keys := by
      intro hin
      rw [List.map_cons, List.nodup_append] at hnew
      exact hnew.2.2 _ hin _ List.mem_cons_self rfl
    obtain ⟨f, issued, labels, hload, hef, hf⟩ :=
      loadEvent_ok hr (hplain e List.mem_cons_self) (hp e List.mem_cons_self) hfresh hde
    obtain ⟨fs, issued', labels', hloads, hefs, hfs⟩ := @ih { h with
        events := ⟨h.events.entries ++ [(e.name, f)]⟩, issued := issued, labels := labels } hr
      (fun e he => hplain e (List.mem_cons_of_mem _ he)) (fun e he => hp e (List.mem_cons_of_mem _ he)) (by
        simpa [Table.keys] using hnew)
    refine ⟨f :: fs, issued', labels', ?_, .cons hef hefs, ?_⟩
    · rw [List.foldlM_cons, hload]
      refine hloads.trans ?_
      simp
    · intro z hz
      rcases List.mem_cons.1 hz with rfl | hz
      · exact hf
      · exact hfs z hz

end Declarations

section Nodes

variable {r : Registry} {ds : List Definition}

/-- Settings that have the keys of the defaults replace them all. -/
theorem mergeConfiguration_entries {d : Definition} {c : Configuration} (hkeys : c.keys = d.defaultConfiguration.keys) :
    mergeConfiguration d c.entries = .ok c := by
  have hnodup : d.defaultConfiguration.keys.Nodup := Table.nodup_keys_ofList _
  -- Settings that were replaced stand before those that were not.
  have hfold (done rest news : List (String × Value)) (hsame : news.map (·.1) = rest.map (·.1))
      (hdistinct : ((done ++ rest).map (·.1)).Nodup) : news.foldlM (fun (c : Configuration) o =>
        if c.has o.1 then .ok (c.set o.1 o.2) else .error (.unknownConfiguration o.1 d.typeName))
        (⟨done ++ rest⟩ : Configuration) = (.ok ⟨done ++ news⟩ : Except IntegrityError Configuration) := by
    induction news generalizing done rest with
    | nil =>
      cases rest with
      | nil => rfl
      | cons e rest => cases hsame
    | cons o news ih =>
      cases rest with
      | nil => cases hsame
      | cons e rest =>
        simp only [List.map_cons, List.cons.injEq] at hsame
        obtain ⟨hkey, hsame⟩ := hsame
        have hfree : o.1 ∉ done.map (·.1) := by
          intro hin
          rw [List.map_append, List.nodup_append] at hdistinct
          exact hdistinct.2.2 _ hin _ List.mem_cons_self hkey
        have hhas : Table.has (⟨done ++ e :: rest⟩ : Configuration) o.1 = true := by
          simp [Table.has, hkey]
        have hset : Table.set (⟨done ++ e :: rest⟩ : Configuration) o.1 o.2 = ⟨(done ++ [o]) ++ rest⟩ := by
          rw [Table.set, Table.setEntries_append o.2 hfree]
          simp [Table.setEntries, ← hkey]
        rw [List.foldlM_cons]
        simp only [hhas, if_true, hset]
        refine (ih (done ++ [o]) rest hsame ?_).trans (by simp)
        simpa [hkey] using hdistinct
  unfold mergeConfiguration
  exact hfold [] d.defaultConfiguration.entries c.entries hkeys hnodup

/-- A socket that can be built is built as its specification says. -/
theorem buildSocket_ok (hr : r.Standard ds) {s : SocketSpec} (hs : r.Builds s) :
    ∃ t, buildSocket r s = .ok t ∧ t.outline = s.outline ∧ t.wires = [] ∧
      (t.isFlow = false → r.Types t.valueType t.value) := by
  by_cases hflow : s.isFlow = true
  · refine ⟨{ name := s.name, valueType := s.valueType, label := s.label, choices := s.choices }, ?_, rfl, rfl, ?_⟩
    · simp [buildSocket, hflow, pure, Except.pure]
    · intro h
      exact absurd (h.symm.trans hflow) (by decide)
  · obtain hs | ⟨t, ht, hdefault⟩ := hs
    · exact absurd hs hflow
    · simp only [buildSocket, hflow, ht, Bool.false_eq_true, if_false]
      by_cases hnone : s.default.isNone = true
      · refine ⟨_, if_pos hnone, rfl, rfl, ?_⟩
        exact fun _ => ⟨t, ht, ValueType.holds_create (hr.valueType_spec ht).2⟩
      · have hv := hdefault.resolve_left hnone
        refine ⟨_, (if_neg hnone).trans (bind_eq_ok.2 ⟨_, lifted_eq_ok.2 hv.clone, rfl⟩), rfl, rfl, ?_⟩
        exact fun _ => ⟨t, ht, hv⟩

/-- The sockets of a side, fresh and with values of their types. -/
structure Fresh (r : Registry) (ss : List Socket) : Prop where
  wires : ∀ s ∈ ss, s.wires = []
  typed : ∀ s ∈ ss, s.isFlow = false → r.Types s.valueType s.value

/-- A side whose sockets can be built is built, without wires. -/
theorem buildSide_ok (hr : r.Standard ds) (hreg : h.registry = r) {source : SocketSource} {c : Configuration}
    {specs : List SocketSpec} (hspecs : source.expand c h.scope = .ok specs) (hbuild : ∀ s ∈ specs, r.Builds s) :
    ∃ ss, h.buildSide source c = .ok ss ∧ ss.map Socket.outline = specs.map SocketSpec.outline ∧ Fresh r ss := by
  obtain ⟨ss, hss⟩ := exists_mapM fun s hs => (buildSocket_ok hr (hbuild s hs)).imp fun t ht => ht.1
  have hone {s : SocketSpec} {t : Socket} (hs : s ∈ specs) (ht : buildSocket r s = .ok t) :
      t.outline = s.outline ∧ t.wires = [] ∧ (t.isFlow = false → r.Types t.valueType t.value) := by
    obtain ⟨t', ht', hspec⟩ := buildSocket_ok hr (hbuild s hs)
    rw [ht] at ht'
    cases ht'
    exact hspec
  refine ⟨ss, ?_, ?_, ?_, ?_⟩
  · rw [buildSide, hreg]
    exact bind_eq_ok.2 ⟨specs, lifted_eq_ok.2 hspecs, hss⟩
  · have hall := forall₂_of_mapM hss
    refine map_eq_of_forall₂ (hall.imp ?_)
    intro s t ht
    rw [buildSocket_eq_ok ht]
    rfl
  · intro t ht
    obtain ⟨s, hs, hst⟩ := mem_of_mapM hss ht
    exact (hone hs hst).2.1
  · intro t ht
    obtain ⟨s, hs, hst⟩ := mem_of_mapM hss ht
    exact (hone hs hst).2.2

/-- Sockets that take labels for their values stay fresh. -/
theorem Fresh.stampSide {ss : List Socket} (hss : Fresh r ss) (g : Graph) : Fresh r (g.stampSide ss).2 := by
  induction ss generalizing g with
  | nil => exact hss
  | cons s ss ih =>
    have hrest := ih ⟨fun t ht => hss.wires t (List.mem_cons_of_mem _ ht),
      fun t ht => hss.typed t (List.mem_cons_of_mem _ ht)⟩ (g.stamp s.value).1
    constructor
    · intro t ht
      rcases List.mem_cons.1 ht with rfl | ht
      · exact hss.wires s List.mem_cons_self
      · exact hrest.wires t ht
    · intro t ht hflow
      rcases List.mem_cons.1 ht with rfl | ht
      · obtain ⟨type, htype, hv⟩ := hss.typed s List.mem_cons_self hflow
        exact ⟨type, htype, (g.stamp_spec hv).1⟩
      · exact hrest.typed t ht hflow

theorem outline_stampSide (g : Graph) (ss : List Socket) :
    (g.stampSide ss).2.map Socket.outline = ss.map Socket.outline := by
  induction ss generalizing g with
  | nil => rfl
  | cons s ss ih => exact congrArg (_ :: ·) (ih (g.stamp s.value).1)

/-- A node made anew: what a document tells of its shape is there, and its sockets are fresh. -/
structure Remade (r : Registry) (n m : Node) : Prop where
  id : m.id = n.id
  typeName : m.typeName = n.typeName
  position : m.position = n.position
  configuration : m.configuration = n.configuration
  outline : ∀ side : Side, (side.sockets m).map Socket.outline = (side.sockets n).map Socket.outline
  fresh : ∀ side : Side, Fresh r (side.sockets m)

/-- A node of the same definition with other sockets, at rest. -/
def remake (n : Node) (inputs outputs : List Socket) : Node :=
  { id := n.id, definition := n.definition, position := n.position, configuration := n.configuration
    state := n.definition.initialState, inputs := inputs, outputs := outputs }

/-- A node is made anew from its type, its settings and its place. -/
theorem addNode_ok (hr : r.Standard ds) (hsound : ∀ d ∈ ds, d.isSound = true) (hreg : h.registry = r)
    (hscope : h.scope.Typed r) {n : Node} (hn : r.Makes n)
    (hside : ∀ side : Side, ((side.source n.definition).expand n.configuration h.scope).map
      (·.map SocketSpec.outline) = .ok ((side.sockets n).map Socket.outline)) (hnew : n.id ∉ h.ids.keys) :
    ∃ m labels, h.addNode n.typeName (some n.id) n.configuration.entries
        (.list [.float n.position.1, .float n.position.2]) =
          .ok ({ h with arena := h.arena.push m, ids := ⟨h.ids.entries ++ [(n.id, h.arena.size)]⟩
                        labels := labels }, h.arena.size) ∧ Remade r n m := by
  have hd := hsound _ (hr.definition_spec hn.known).2
  simp only [Definition.isSound, Bool.and_eq_true] at hd
  obtain ⟨inSpecs, hin, hinOut⟩ := map_eq_ok.1 (hside .input)
  obtain ⟨outSpecs, hout, houtOut⟩ := map_eq_ok.1 (hside .output)
  obtain ⟨inputs, hinputs, hinputsOut, hinputsFresh⟩ :=
    buildSide_ok hr hreg hin (SocketSource.builds_expand hr hd.1 hscope hin)
  obtain ⟨outputs, houtputs, houtputsOut, houtputsFresh⟩ :=
    buildSide_ok hr hreg hout (SocketSource.builds_expand hr hd.2 hscope hout)
  have hid : h.chooseId (some n.id) = n.id := by simp [chooseId, hn.named]
  have hfree : h.ids.has n.id = false := by
    rw [← Bool.not_eq_true, Table.has_iff]
    exact hnew
  have hmade : h.makeNode n.definition n.id n.configuration.entries
      (.list [.float n.position.1, .float n.position.2]) = .ok (remake n inputs outputs) := by
    have hplace : coordinates (.list [.float n.position.1, .float n.position.2]) = .ok n.position := rfl
    have hmerge := mergeConfiguration_entries hn.settings
    simp only [Side.source] at hinputs houtputs
    simp only [makeNode, hplace, Except.lifted, bind, Except.bind, hmerge, hinputs, houtputs, pure, Except.pure]
    rfl
  obtain ⟨⟨labels, hlabels⟩, -⟩ := h.stampNode_eq (remake n inputs outputs)
  refine ⟨(h.stampNode (remake n inputs outputs)).2, labels, ?_, rfl, rfl, rfl, rfl, ?_, ?_⟩
  · have hset (k : Nat) : h.ids.set n.id k = ⟨h.ids.entries ++ [(n.id, k)]⟩ := by
      rw [← Table.entries_set_of_not_mem k hnew]
    have hinsert : h.insertNode (remake n inputs outputs) = { h with
        arena := h.arena.push (h.stampNode (remake n inputs outputs)).2
        ids := ⟨h.ids.entries ++ [(n.id, h.arena.size)]⟩
        labels := labels } := by
      rw [← hset]
      simp only [insertNode, hlabels]
      rfl
    have hknown : h.registry.definition n.typeName = .ok n.definition := hreg ▸ hn.known
    rw [addNode, hknown]
    simp only [addNodeOf, hfree, Bool.false_eq_true, if_false, hid, hmade, bind, Except.bind, pure, Except.pure,
      hinsert]
  · intro side
    cases side with
    | output => exact (outline_stampSide _ outputs).trans (houtputsOut.trans houtOut)
    | input => exact (outline_stampSide _ inputs).trans (hinputsOut.trans hinOut)
  · intro side
    cases side with
    | output => exact houtputsFresh.stampSide _
    | input => exact hinputsFresh.stampSide _

/-- The inputs that have literals in a document are found by name and hold them; the others are as before. -/
structure Refilled (r : Registry) (ss : List Socket) (m m' : Node) : Prop where
  rest : m' = { m with inputs := m'.inputs }
  outline : m'.inputs.map Socket.outline = m.inputs.map Socket.outline
  fresh : Fresh r m'.inputs
  value : ∀ s ∈ ss, ∃ t, m'.input? s.name = some t ∧ t.value.renewed = s.value.renewed
  other : ∀ name, (∀ s ∈ ss, s.name ≠ name) → m'.input? name = m.input? name

/-- A fresh socket that is given a value of its type stays fresh. -/
theorem Fresh.modify {ss : List Socket} (hss : Fresh r ss) {i : Nat} {t : Socket} (ht : ss[i]? = some t) {v : Value}
    (hv : r.Types t.valueType v) : Fresh r (ss.modify i fun s => { s with value := v }) := by
  have hmem {s : Socket} (hs : s ∈ ss.modify i fun s => { s with value := v }) :
      s ∈ ss ∨ s = { t with value := v } := by
    obtain ⟨j, hj⟩ := List.mem_iff_getElem?.1 hs
    rw [List.getElem?_modify] at hj
    split at hj
    · rename_i hij
      subst hij
      rw [ht] at hj
      cases hj
      exact .inr rfl
    · exact .inl (List.mem_of_getElem? (by simpa using hj))
  constructor
  · intro s hs
    rcases hmem hs with hs | rfl
    · exact hss.wires s hs
    · exact hss.wires t (List.mem_of_getElem? ht)
  · intro s hs hflow
    rcases hmem hs with hs | rfl
    · exact hss.typed s hs hflow
    · exact hv

theorem input?_setInput (m : Node) {name : String} {i : Nat} (hi : Node.place? name m.inputs = some i) (v : Value)
    (other : String) : (m.setInput i v).input? other =
      if other = name then (m.input? name).map fun t => { t with value := v } else m.input? other :=
  Node.find?_put hi v other

def withLast (b : Graph) (A : Array Node) (m : Node) (labels : Nat) : Graph :=
  { b with arena := A.push m, labels := labels }

section Last

variable (b : Graph) (A : Array Node) (m : Node) (labels : Nat)

theorem registry_withLast : (b.withLast A m labels).registry = b.registry := rfl

theorem nodeAt?_withLast : (b.withLast A m labels).nodeAt? A.size = some m := by
  simp [withLast, nodeAt?]

theorem modifyNode_withLast (f : Node → Node) :
    (b.withLast A m labels).modifyNode A.size f = b.withLast A (f m) labels := by
  have hmodify : (A.push m).modify A.size f = A.push (f m) := by
    apply Array.ext_getElem?
    intro i
    rw [Array.getElem?_modify, Array.getElem?_push, Array.getElem?_push]
    by_cases hi : i = A.size
    · simp [hi]
    · simp [hi, Ne.symm hi]
  simp only [modifyNode, withLast, hmodify]

theorem stamp_withLast (v : Value) :
    ∃ labels', ((b.withLast A m labels).stamp v).1 = b.withLast A m labels' :=
  (b.withLast A m labels).stamp_eq v

end Last

/-- One literal that was stored comes back at its input. -/
theorem loadInput_ok {b : Graph} (A : Array Node) {m : Node} (labels : Nat) (hr : b.registry = g.registry)
    {s t : Socket} {i : String × Value} (hs : g.registry.Types s.valueType s.value) (hflow : s.isFlow = false)
    (hi : g.storeInput s = .ok i) (ht : m.input? s.name = some t) (htype : t.valueType = s.valueType)
    (hm : Fresh g.registry m.inputs) : ∃ m' labels', Document.loadInput A.size (b.withLast A m labels) i =
        .ok (b.withLast A m' labels') ∧ Refilled g.registry [s] m m' := by
  obtain ⟨w, hw, hi⟩ := bind_eq_ok.1 hi
  cases hi
  have hfind := ht
  rw [Node.input?, Node.find?_eq_place?] at hfind
  obtain ⟨p, hp, hpt⟩ := Option.bind_eq_some_iff.1 hfind
  have hback := literalOf_encodeAs hr hs hw ("input " ++ t.labelOn m.id)
  obtain ⟨type, htypes, hv⟩ := hs
  obtain ⟨hheld, hsame⟩ := (b.withLast A m labels).stamp_spec hv
  obtain ⟨labels', hlabels⟩ := b.stamp_withLast A m labels s.value
  refine ⟨m.setInput p ((b.withLast A m labels).stamp s.value).2, labels', ?_, rfl, ?_, ?_, ?_, ?_⟩
  · have hplain : t.isFlow = false := by
      rw [Socket.isFlow, htype]
      exact hflow
    rw [← htype] at hback
    simp only [Document.loadInput, nodeAt?_withLast, registry_withLast, hp, ht, hplain, Bool.false_eq_true,
      if_false, hback, bind, Except.bind, pure, Except.pure, hlabels, modifyNode_withLast]
  · exact Side.outlines_of_frame (m.frame_setInput p _) .input
  · exact hm.modify hpt ⟨type, htype ▸ htypes, hheld⟩
  · intro s' hs'
    rw [List.mem_singleton.1 hs', input?_setInput m hp, if_pos rfl, ht]
    exact ⟨_, rfl, hsame⟩
  · intro name hname
    rw [input?_setInput m hp, if_neg (Ne.symm (hname s (List.mem_singleton.2 rfl)))]

/-- All literals that were stored come back. -/
theorem loadInputs_ok {b : Graph} (A : Array Node) {m : Node} (labels : Nat) (hr : b.registry = g.registry)
    {ss : List Socket} {is : List (String × Value)} (hstore : List.Forall₂ (fun s i => g.storeInput s = .ok i) ss is)
    (hs : ∀ s ∈ ss, g.registry.Types s.valueType s.value) (hflow : ∀ s ∈ ss, s.isFlow = false)
    (hnames : (ss.map (·.name)).Nodup)
    (hfound : ∀ s ∈ ss, ∃ t, m.input? s.name = some t ∧ t.valueType = s.valueType)
    (hm : Fresh g.registry m.inputs) : ∃ m' labels', is.foldlM (Document.loadInput A.size) (b.withLast A m labels) =
        .ok (b.withLast A m' labels') ∧ Refilled g.registry ss m m' := by
  induction hstore generalizing m labels with
  | nil => exact ⟨m, labels, rfl, rfl, rfl, hm, by simp, fun _ _ => rfl⟩
  | @cons s i ss is hi _ ih =>
    obtain ⟨hout, hrest⟩ := List.nodup_cons.1 hnames
    obtain ⟨t, ht, htype⟩ := hfound s List.mem_cons_self
    obtain ⟨m₁, labels₁, hload, h₁⟩ := loadInput_ok A labels hr (hs s List.mem_cons_self)
      (hflow s List.mem_cons_self) hi ht htype hm
    have hne {s' : Socket} (hs' : s' ∈ ss) : s.name ≠ s'.name := by
      intro heq
      exact hout (List.mem_map.2 ⟨s', hs', heq.symm⟩)
    obtain ⟨m₂, labels₂, hloads, h₂⟩ := ih labels₁ (fun s hs' => hs s (List.mem_cons_of_mem _ hs'))
      (fun s hs' => hflow s (List.mem_cons_of_mem _ hs')) hrest (by
        intro s' hs'
        rw [h₁.other s'.name (by simpa using hne hs')]
        exact hfound s' (List.mem_cons_of_mem _ hs')) h₁.fresh
    refine ⟨m₂, labels₂, ?_, ?_, h₂.outline.trans h₁.outline, h₂.fresh, ?_, ?_⟩
    · rw [List.foldlM_cons, hload]
      exact hloads
    · rw [h₂.rest, h₁.rest]
    · intro s' hs'
      rcases List.mem_cons.1 hs' with rfl | hs'
      · rw [h₂.other s'.name fun s'' hs'' => (hne hs'').symm]
        exact h₁.value s' (List.mem_singleton.2 rfl)
      · exact h₂.value s' hs'
    · intro name hname
      rw [h₂.other name fun s hs' => hname s (List.mem_cons_of_mem _ hs'),
        h₁.other name fun s' hs' => List.mem_singleton.1 hs' ▸ hname s List.mem_cons_self]

/-- With distinct names each item is found by its name. -/
theorem find?_of_nodup {α : Type} {name : α → String} {xs : List α} (hnames : (xs.map name).Nodup) {a : α} (ha : a ∈ xs) :
    xs.find? (name · = name a) = some a := by
  induction xs with
  | nil => cases ha
  | cons b xs ih =>
    obtain ⟨hout, hrest⟩ := List.nodup_cons.1 hnames
    rcases List.mem_cons.1 ha with rfl | ha
    · simp
    · have hne : name b ≠ name a := fun h => hout (List.mem_map.2 ⟨a, ha, h.symm⟩)
      rw [List.find?_cons_of_neg (by simpa using hne)]
      exact ih hrest ha

/-- Sockets of one outline stand at the same places. -/
theorem getElem?_of_outline {ss ts : List Socket} (hout : ts.map Socket.outline = ss.map Socket.outline) {i : Nat}
    {s : Socket} (hs : ss[i]? = some s) : ∃ t, ts[i]? = some t ∧ t.outline = s.outline := by
  have hi := congrArg (·[i]?) hout
  simp only [List.getElem?_map, hs] at hi
  exact Option.map_eq_some_iff.1 hi

theorem names_of_outline {ss ts : List Socket} (hout : ts.map Socket.outline = ss.map Socket.outline) :
    ts.map (·.name) = ss.map (·.name) := by
  have hnames := congrArg (List.map Prod.fst) hout
  rw [List.map_map, List.map_map] at hnames
  exact hnames

theorem mem_literals {n : Node} {s : Socket} :
    s ∈ literals n ↔ s ∈ n.inputs ∧ s.isFlow = false ∧ s.isConnected = false := by
  simp only [literals, Node.dataInputs, List.mem_filter, Bool.not_eq_true', and_assoc]

/-- Inputs of one outline match if they hold the literals. -/
theorem matches_of_values {n m : Node} (hnames : (n.inputs.map (·.name)).Nodup)
    (hout : m.inputs.map Socket.outline = n.inputs.map Socket.outline)
    (hvalue : ∀ s ∈ literals n, ∃ t, m.input? s.name = some t ∧ t.value.renewed = s.value.renewed) :
    List.Forall₂ Socket.Matches n.inputs m.inputs := by
  have hone {i : Nat} {s t : Socket} (hs : n.inputs[i]? = some s) (ht : m.inputs[i]? = some t) : s.Matches t := by
    obtain ⟨t', ht', hts⟩ := getElem?_of_outline hout hs
    rw [ht] at ht'
    cases ht'
    refine ⟨hts, ?_⟩
    intro hflow hfree
    obtain ⟨t', hfound, hvalue⟩ := hvalue s (mem_literals.2 ⟨List.mem_of_getElem? hs, hflow, hfree⟩)
    have hname : t.name = s.name := congrArg (·.1) hts
    have hfind : m.input? t.name = some t := find?_of_nodup (names_of_outline hout ▸ hnames) (List.mem_of_getElem? ht)
    rw [← hname, hfind] at hfound
    cases hfound
    exact hvalue
  rw [List.forall₂_iff_get]
  refine ⟨by simpa using (congrArg List.length hout).symm, ?_⟩
  intro i hi hj
  exact hone (List.getElem?_eq_getElem hi) (List.getElem?_eq_getElem hj)

/-- A node that was stored comes back last, with its literals. -/
theorem loadNode_ok (hr : r.Standard ds) (hsound : ∀ d ∈ ds, d.isSound = true) (hg : g.registry = r)
    (hreg : h.registry = r) (hscope : h.scope.Typed r) {n : Node} (hn : r.Makes n)
    (hside : ∀ side : Side, ((side.source n.definition).expand n.configuration h.scope).map
      (·.map SocketSpec.outline) = .ok ((side.sockets n).map Socket.outline)) (hnew : n.id ∉ h.ids.keys)
    (hnames : (n.inputs.map (·.name)).Nodup) (hlit : ∀ s ∈ literals n, r.Types s.valueType s.value)
    {dn : Document.Node} (hdn : g.storeNode n = .ok dn) :
    ∃ m labels, Document.loadNode h dn = .ok { h with
        arena := h.arena.push m, ids := ⟨h.ids.entries ++ [(m.id, h.arena.size)]⟩, labels := labels } ∧
      n.Matches m ∧ ∀ side : Side, Fresh r (side.sockets m) := by
  obtain ⟨is, his, rfl⟩ := storeNode_eq_ok hnames hdn
  obtain ⟨m₀, labels₀, hadd, hm₀⟩ := addNode_ok hr hsound hreg hscope hn hside hnew
  have hout₀ : m₀.inputs.map Socket.outline = n.inputs.map Socket.outline := hm₀.outline .input
  have hfound : ∀ s ∈ literals n, ∃ t, m₀.input? s.name = some t ∧ t.valueType = s.valueType := by
    intro s hs
    obtain ⟨i, hi⟩ := List.mem_iff_getElem?.1 (mem_literals.1 hs).1
    obtain ⟨t, ht, hts⟩ := getElem?_of_outline hout₀ hi
    have hname : t.name = s.name := congrArg (·.1) hts
    have hfind := find?_of_nodup (names_of_outline hout₀ ▸ hnames) (List.mem_of_getElem? ht)
    exact ⟨t, hname ▸ hfind, congrArg (·.2) hts⟩
  have hsub : (literals n).Sublist n.inputs := List.filter_sublist.trans List.filter_sublist
  obtain ⟨m, labels, hload, hm⟩ := @loadInputs_ok g
    { h with ids := ⟨h.ids.entries ++ [(n.id, h.arena.size)]⟩ } h.arena m₀ labels₀ (hreg.trans hg.symm) _ is his
    (hg ▸ hlit) (fun s hs => (mem_literals.1 hs).2.1) ((hsub.map _).nodup hnames) hfound (hg ▸ hm₀.fresh .input)
  have hid : m.id = n.id := (congrArg Node.id hm.rest).trans hm₀.id
  have hout : m.inputs.map Socket.outline = n.inputs.map Socket.outline := hm.outline.trans hout₀
  refine ⟨m, labels, ?_, ⟨hid, ?_, ?_, ?_, ?_, ?_⟩, ?_⟩
  · rw [hid]
    simp only [Document.loadNode, hadd, bind, Except.bind]
    exact hload
  · exact (congrArg Node.typeName hm.rest).trans hm₀.typeName
  · exact (congrArg Node.position hm.rest).trans hm₀.position
  · exact (congrArg Node.configuration hm.rest).trans hm₀.configuration
  · exact matches_of_values hnames hout hm.value
  · exact (congrArg (fun m => m.outputs.map Socket.outline) hm.rest).trans (hm₀.outline .output)
  · intro side
    cases side with
    | output =>
      rw [hm.rest]
      exact hm₀.fresh .output
    | input => exact hg ▸ hm.fresh

/-- All nodes come back in order. -/
theorem loadNodes_ok (hr : r.Standard ds) (hsound : ∀ d ∈ ds, d.isSound = true) (hg : g.registry = r)
    (hreg : h.registry = r) (hscope : h.scope.Typed r) {ns : List Node} {dns : List Document.Node}
    (hdns : List.Forall₂ (fun n dn => g.storeNode n = .ok dn) ns dns) (hn : ∀ n ∈ ns, r.Makes n)
    (hside : ∀ n ∈ ns, ∀ side : Side, ((side.source n.definition).expand n.configuration h.scope).map
      (·.map SocketSpec.outline) = .ok ((side.sockets n).map Socket.outline))
    (hnew : (h.ids.keys ++ ns.map (·.id)).Nodup) (hnames : ∀ n ∈ ns, (n.inputs.map (·.name)).Nodup)
    (hlit : ∀ n ∈ ns, ∀ s ∈ literals n, r.Types s.valueType s.value) :
    ∃ ms labels, dns.foldlM Document.loadNode h = .ok { h with
        arena := h.arena ++ ms.toArray
        ids := ⟨h.ids.entries ++ (ms.zipIdx h.arena.size).map fun m => (m.1.id, m.2)⟩
        labels := labels } ∧
      List.Forall₂ Node.Matches ns ms ∧ ∀ m ∈ ms, ∀ side : Side, Fresh r (side.sockets m) := by
  induction hdns generalizing h with
  | nil => exact ⟨[], h.labels, by simp [pure, Except.pure], .nil, by simp⟩
  | @cons n dn ns dns hdn _ ih =>
    have hfresh : n.id ∉ h.ids.keys := by
      intro hin
      rw [List.map_cons, List.nodup_append] at hnew
      exact hnew.2.2 _ hin _ List.mem_cons_self rfl
    obtain ⟨m, labels, hload, hnm, hm⟩ := loadNode_ok hr hsound hg hreg hscope (hn n List.mem_cons_self)
      (hside n List.mem_cons_self) hfresh (hnames n List.mem_cons_self) (hlit n List.mem_cons_self) hdn
    obtain ⟨ms, labels', hloads, hnms, hms⟩ := @ih { h with
        arena := h.arena.push m, ids := ⟨h.ids.entries ++ [(m.id, h.arena.size)]⟩, labels := labels } hreg hscope
      (fun n h' => hn n (List.mem_cons_of_mem _ h')) (fun n h' => hside n (List.mem_cons_of_mem _ h'))
      (by simpa [Table.keys, hnm.id] using hnew) (fun n h' => hnames n (List.mem_cons_of_mem _ h'))
      (fun n h' => hlit n (List.mem_cons_of_mem _ h'))
    refine ⟨m :: ms, labels', ?_, .cons hnm hnms, ?_⟩
    · rw [List.foldlM_cons, hload]
      refine hloads.trans ?_
      simp
    · intro z hz
      rcases List.mem_cons.1 hz with rfl | hz
      · exact hm
      · exact hms z hz

end Nodes

end Graph

end FlowGraph
