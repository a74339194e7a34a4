import FlowGraph.Graph.Stepwise
import FlowGraph.Proofs.Faithful
import FlowGraph.Proofs.LinkHistory
import FlowGraph.Proofs.Signatures

/-!
Edits that fail. An edit that is carried out step by step comes to the same graph as one that is looked at as a whole, and
one that fails leaves everything as it was, but for what was added and cannot be shown, as its label is made when it is already
in the graph: a variable with too many digits, and a node under an identifier that is no text.
-/
namespace FlowGraph

theorem Table.set_set {κ α : Type} [DecidableEq κ] (t : Table κ α) (k : κ) (a b : α) : (t.set k a).set k b = t.set k b := by
  have hentries (es : List (κ × α)) : setEntries k b (setEntries k a es) = setEntries k b es := by
    induction es with
    | nil => simp [setEntries]
    | cons e es ih =>
      by_cases he : e.1 = k
      · simp [setEntries, he]
      · simp [setEntries, he, ih]
  exact congrArg Table.mk (hentries t.entries)

namespace Editing

variable {α β : Type} {d : Draft}

theorem runOn_bind (x : Editing α) (f : α → Editing β) : (x >>= f).runOn d = match x.runOn d with
    | (.ok a, d) => (f a).runOn d
    | (.error e, d) => (.error e, d) := by
  unfold runOn ExceptT.run StateT.run
  simp only [bind, ExceptT.bind, ExceptT.mk, StateT.bind, ExceptT.bindCont]
  cases x d with
  | mk r d => cases r <;> rfl

theorem runOn_discard (x : Editing α) : (discard x).runOn d = match x.runOn d with
    | (.ok _, d) => (.ok (), d)
    | (.error e, d) => (.error e, d) := by
  unfold runOn ExceptT.run StateT.run
  simp only [discard, Functor.mapConst, Function.comp, ExceptT.map, ExceptT.mk, StateT.bind, bind]
  cases x d with
  | mk r d => cases r <;> rfl

@[simp] theorem runOn_pure (a : α) : (pure a : Editing α).runOn d = (.ok a, d) := rfl

@[simp] theorem runOn_throw (e : Failure) : (throw e : Editing α).runOn d = (.error e, d) := rfl

@[simp] theorem runOn_ofExcept (x : Except Failure α) : (ofExcept x).runOn d = (x, d) := rfl

@[simp] theorem runOn_ofIntegrity (x : Except IntegrityError α) :
    (ofIntegrity x).runOn d = (x.mapError .integrity, d) := rfl

@[simp] theorem runOn_graph : graph.runOn d = (.ok d.graph, d) := rfl

@[simp] theorem runOn_change (f : Graph → Graph) : (change f).runOn d = (.ok (), { d with graph := f d.graph }) := rfl

@[simp] theorem runOn_tell (serial : Nat) (v : Value) :
    (tell serial v).runOn d = (.ok (), { d with told := d.told ++ [(serial, v)] }) := rfl

@[simp] theorem runOn_keep (v : Value) :
    (keep v).runOn d = (.ok (d.graph.stamp v).2, { d with graph := (d.graph.stamp v).1 }) := rfl

@[simp] theorem runOn_announce (text : String) : (announce (.ok text)).runOn d = (.ok (), d) := rfl

@[simp] theorem runOn_get : (get : Editing Draft).runOn d = (.ok d, d) := rfl

@[simp] theorem runOn_modify (f : Draft → Draft) : (modify f : Editing Unit).runOn d = (.ok (), f d) := rfl

/-- A node is put in when nothing can go wrong any more. -/
theorem runOn_addNodeOf (template : Definition) (id : Option String) (overrides : List (String × Value)) (position : Value) :
    (addNodeOf template id overrides position).runOn d = match d.graph.addNodeOf template id overrides position with
      | .ok (h, k) => (.ok k, { d with graph := h })
      | .error e => (.error e, d) := by
  have hmake (i : Option String) : (do
      let n ← ofExcept (d.graph.makeNode template (d.graph.chooseId i) overrides position)
      change (·.insertNode n)
      announce (.ok n.label)
      return d.graph.arena.size : Editing Nat).runOn d = match (do
        return (d.graph.insertNode (← d.graph.makeNode template (d.graph.chooseId i) overrides position), d.graph.arena.size) :
          Except Failure (Graph × Nat)) with
      | .ok (h, k) => (.ok k, { d with graph := h })
      | .error e => (.error e, d) := by
    rw [runOn_bind, runOn_ofExcept]
    cases d.graph.makeNode template (d.graph.chooseId i) overrides position <;> rfl
  cases id with
  | none => exact hmake none
  | some i =>
    simp only [addNodeOf, Graph.addNodeOf, runOn_bind, runOn_graph]
    split
    · rfl
    · exact hmake (some i)

theorem runOn_addNode (typeName : String) (id : Option String) (overrides : List (String × Value)) (position : Value) :
    (addNode typeName id overrides position).runOn d = match d.graph.addNode typeName id overrides position with
      | .ok (h, k) => (.ok k, { d with graph := h })
      | .error e => (.error e, d) := by
  simp only [addNode, Graph.addNode, runOn_bind, runOn_graph, runOn_ofIntegrity]
  cases d.graph.registry.definition typeName with
  | error e => rfl
  | ok template => exact runOn_addNodeOf template id overrides position

theorem runOn_disconnectAll (ls : List Link) :
    (disconnectAll ls).runOn d = (.ok (), { d with graph := d.graph.disconnectAll ls }) := by
  induction ls generalizing d with
  | nil => rfl
  | cons l ls ih =>
    simp only [disconnectAll, List.forM_eq_forM, List.forM_cons] at ih ⊢
    simp only [runOn_bind, runOn_change, ih]
    rfl

/-- The ends of a new link are found again, for nothing but wires is changed before. -/
theorem runOn_connect (hi : Graph.Indexed d.graph) (l : Link) (replace : Option Bool) :
    (connect l replace).runOn d = match d.graph.connect l replace with
      | .ok (h, w) => (.ok w, { d with graph := h })
      | .error e => (.error (.integrity e), d) := by
  cases hcheck : d.graph.checkLink l with
  | error e =>
    have hwhole : d.graph.connect l replace = .error e := by
      simp only [Graph.connect, hcheck]
      rfl
    simp only [connect, runOn_bind, runOn_graph, runOn_ofIntegrity, hcheck, hwhole, Except.mapError]
  | ok found =>
    obtain ⟨ends, output, input, shown⟩ := found
    have hjoins : (d.graph.disconnectAll (Graph.displaced input)).Joins l ends :=
      (Graph.Indexed.of_checkLink hcheck).1.of_bare (hi.cut_disconnectAll (Graph.displaced input)).bare
    have hresolve := (Graph.resolve_eq_ok_iff _ l ends).2 hjoins.leads
    have hwhole : d.graph.connect l replace = if l ∈ output.wires.map (·.link) then .error (.linkExists l.label)
        else if (!(Graph.displaced input).isEmpty && !replace.getD d.graph.replaceLinks) = true then .error (.inputLinked shown)
        else .ok (((d.graph.disconnectAll (Graph.displaced input)).lay l (some ends)).1.plug
            ((d.graph.disconnectAll (Graph.displaced input)).lay l (some ends)).2 ends,
          ((d.graph.disconnectAll (Graph.displaced input)).lay l (some ends)).2) := by
      simp only [Graph.connect, hcheck, bind, Except.bind]
      split
      · rfl
      · split <;> rfl
    rw [hwhole]
    simp only [connect, runOn_bind, runOn_graph, runOn_ofIntegrity, hcheck, Except.mapError]
    by_cases hold : l ∈ output.wires.map (·.link)
    · rw [if_pos hold, if_pos hold]
      rfl
    rw [if_neg hold, if_neg hold]
    by_cases hfull : (!(Graph.displaced input).isEmpty && !replace.getD d.graph.replaceLinks) = true
    · rw [if_pos hfull, if_pos hfull]
      rfl
    rw [if_neg hfull, if_neg hfull]
    simp only [runOn_bind, runOn_disconnectAll, runOn_graph, runOn_ofIntegrity, hresolve, Except.mapError]
    rfl

theorem runOn_declareEvent (name : String) (parameters : List SocketSpec) :
    (declareEvent name parameters).runOn d = match d.graph.declareEvent name parameters with
      | .ok h => (.ok (), { d with graph := h })
      | .error e => (.error (.integrity e), d) := by
  simp only [declareEvent, Graph.declareEvent, runOn_bind, runOn_graph]
  split
  · rfl
  · simp only [runOn_bind, runOn_ofIntegrity]
    cases parameters.mapM (d.graph.checkParameter name) <;> rfl

end Editing

namespace ValueType

variable {t : ValueType} {v w : Value}

theorem Holds.isBasic (h : t.Holds v) : t.IsBasic := by
  cases h <;> exact trivial

theorem Holds.equals (hv : t.Holds v) (hw : t.Holds w) : ∃ same, t.equals v w = .ok same := by
  cases hv <;> cases hw <;> exact ⟨_, rfl⟩

/-- What a variable starts with is a value of its type. -/
theorem IsBasic.holds_start (ht : t.IsBasic) {name : String} (h : Variable.start name t v = .ok w) : t.Holds w := by
  unfold Variable.start at h
  split at h
  · have hcloned : Except.lifted (t.clone t.create) = .ok w := h
    cases (holds_create ht).clone.symm.trans (lifted_eq_ok.1 hcloned)
    exact holds_create ht
  · obtain ⟨x, hx, h⟩ := bind_eq_ok.1 h
    have hx := holds_coerce ht hx
    cases hx.clone.symm.trans (lifted_eq_ok.1 h)
    exact hx

/-- Of the values of the basic types only integers may have too many digits to be shown. -/
theorem Holds.literal_eq_error (h : t.Holds v) {f : Fault} (hf : v.literal = .error f) :
    f = .digitsWritten ∧ ∃ i : Int, v = .int i ∧ Decimal.integerBound ≤ i.natAbs := by
  cases h with
  | integer i =>
    rw [Value.literal.eq_def] at hf
    dsimp only at hf
    split at hf
    · cases hf
    · rename_i hnone
      cases hf
      refine ⟨rfl, i, rfl, ?_⟩
      unfold Decimal.writeInteger? at hnone
      split at hnone
      · assumption
      · cases hnone
  | flow | boolean b | float x | string s | vec2 x y | vec3 x y z =>
    rw [Value.literal.eq_def] at hf
    cases hf

end ValueType

namespace Graph

/-- The registry, and every variable is kept under its name and holds a value of its type. -/
structure Holding (r : Registry) (g : Graph) : Prop where
  registry : g.registry = r
  vars : ∀ e ∈ g.vars.entries, e.2.name = e.1 ∧ e.2.valueType.Holds e.2.value

/-- A variable came in whose value has too many digits to be shown. -/
def Overlong (g h : Graph) : Prop := ∃ x i labels, x.name ∉ g.vars.keys ∧ x.value = .int i ∧
  Decimal.integerBound ≤ i.natAbs ∧
  h = { g with vars := ⟨g.vars.entries ++ [(x.name, x)]⟩, issued := g.issued + 1, labels := labels }

namespace Holding

variable {ds : List Definition} {r : Registry} {g h : Graph}

theorem of_empty (name : String) (r : Registry) (replace : Bool) (labels : Nat) :
    Holding r { name := name, registry := r, replaceLinks := replace, labels := labels } :=
  ⟨rfl, by simp⟩

theorem congr (hg : Holding r g) (hregistry : h.registry = g.registry) (hvars : h.vars.entries ⊆ g.vars.entries) :
    Holding r h :=
  ⟨hregistry.trans hg.registry, fun e he => hg.vars e (hvars he)⟩

theorem of_bare (hg : Holding r g) (hb : h.bare = g.bare) : Holding r h := by
  have hvars : h.vars = g.vars := (congrArg Graph.vars hb :)
  exact hg.congr (congrArg Graph.registry hb :) (hvars ▸ List.Subset.refl _)

theorem withVariable (hg : Holding r g) {name : String} {x : Variable} (hname : x.name = name)
    (hx : x.valueType.Holds x.value) (issued labels : Nat) :
    Holding r { g with vars := g.vars.set name x, issued := issued, labels := labels } := by
  refine ⟨hg.registry, fun e he => ?_⟩
  rcases Table.mem_entries_set he with rfl | he
  · exact ⟨hname, hx⟩
  · exact hg.vars e he

theorem addNodeOf (hg : Holding r g) {d : Definition} {id : Option String} {overrides : List (String × Value)}
    {position : Value} {k : Nat} (ha : g.addNodeOf d id overrides position = .ok (h, k)) : Holding r h := by
  obtain ⟨n, -, -, rfl, -⟩ := addNodeOf_eq_ok ha
  obtain ⟨⟨labels, hlabels⟩, -⟩ := g.stampNode_eq n
  simp only [insertNode, hlabels]
  exact hg.congr rfl (List.Subset.refl _)

/-- A new variable holds what it starts with. -/
theorem declareVariable_eq_ok (hr : r.Standard ds) (hg : Holding r g) {name typeName : String} {initial : Value}
    (hd : g.declareVariable name typeName initial = .ok h) : ∃ x labels, name ∉ g.vars.keys ∧ x.name = name ∧
      x.valueType.Holds x.value ∧ h = { g with vars := g.vars.set name x, issued := g.issued + 1, labels := labels } := by
  unfold declareVariable at hd
  split at hd
  · cases hd
  rename_i hnew
  rw [Table.has_iff] at hnew
  split at hd
  · cases hd
  rename_i t ht
  obtain ⟨v, hv, hd⟩ := bind_eq_ok.1 hd
  have hbasic := (hr.valueType_spec (hg.registry ▸ ht)).2
  have hstamped := (g.stamp_spec (hbasic.holds_start hv)).1
  obtain ⟨labels, hlabels⟩ := g.stamp_eq v
  rw [show g.stamp v = ((g.stamp v).1, (g.stamp v).2) from rfl, hlabels] at hd
  cases hd
  exact ⟨_, labels, hnew, rfl, hstamped, rfl⟩

/-- Setting a variable, declared or not, keeps the graph in order. -/
theorem setVariable (hr : r.Standard ds) (hg : Holding r g) {name : String} {v : Value} {typeName : Option String}
    {told : Option Value} (hs : g.setVariable name v typeName = .ok (h, told)) : Holding r h := by
  unfold Graph.setVariable at hs
  cases hx : g.vars.get? name with
  | none =>
    rw [hx] at hs
    cases typeName with
    | none => cases hs
    | some t =>
      obtain ⟨g', hd, hs⟩ := bind_eq_ok.1 hs
      cases hs
      obtain ⟨x, labels, -, hname, hx, rfl⟩ := hg.declareVariable_eq_ok hr hd
      exact hg.withVariable hname hx ..
  | some x =>
    rw [hx] at hs
    simp only at hs
    split at hs
    · cases hs
    · obtain ⟨w, hw, hs⟩ := bind_eq_ok.1 hs
      obtain ⟨initial, -, hs⟩ := bind_eq_ok.1 hs
      obtain ⟨⟨y, news⟩, hy, hs⟩ := bind_eq_ok.1 hs
      cases hs
      obtain ⟨hname, hx⟩ := hg.vars _ (Table.mem_entries_of_get? hx)
      have hstamped := (g.stamp_spec (ValueType.holds_coerce hx.isBasic hw)).1
      obtain ⟨labels, hlabels⟩ := g.stamp_eq w
      simp only [hlabels, Variable.put_eq_ok hy]
      apply hg.withVariable
      · exact hname
      · exact hstamped

theorem presetInputs (hg : Holding r g) (k : Nat) (values : List (String × Value)) :
    Holding r (g.presetInputs k values).1 := by
  induction values generalizing g with
  | nil => exact hg
  | cons value rest ih =>
    obtain ⟨name, v⟩ := value
    unfold Graph.presetInputs
    split
    · exact ih (hg.congr rfl (List.Subset.refl _))
    · exact hg

/-- Every operation that is carried out keeps it. -/
theorem attempt (hr : r.Standard ds) (hg : Holding r g) (hi : Indexed g) {e : Edit} (ha : g.attempt e = .ok h) :
    Holding r h := by
  cases e with
  | add typeName id overrides position =>
    obtain ⟨⟨h', k⟩, hadd, rfl⟩ := map_eq_ok.1 ha
    unfold Graph.addNode at hadd
    split at hadd
    · cases hadd
    · exact hg.addNodeOf hadd
  | addOf d id overrides position =>
    obtain ⟨⟨h', k⟩, hadd, rfl⟩ := map_eq_ok.1 ha
    exact hg.addNodeOf hadd
  | remove id =>
    cases ha
    unfold Graph.removeNode
    split
    · exact (hg.of_bare (hi.cut_disconnectAll (g.links.filter (·.touches id))).bare).congr rfl (List.Subset.refl _)
    · exact hg
  | connect l replace =>
    obtain ⟨⟨h', w⟩, hc, rfl⟩ := map_eq_ok.1 (mapError_eq_ok.1 ha)
    obtain ⟨ends, output, input, shown, -, -, -, rfl, -⟩ := connect_eq_ok hc
    have hplug := (rewired_plug ((g.disconnectAll (displaced input)).lay l (some ends)).1 w ends).bare
    exact hg.of_bare (hplug.trans (hi.cut_disconnectAll (displaced input)).bare)
  | disconnect l =>
    cases ha
    exact hg.of_bare (hi.cut_disconnect l).bare
  | disconnectInput id name =>
    cases ha
    unfold Graph.disconnectInput
    split
    · exact hg
    · exact hg.of_bare (hi.cut_disconnectAll _).bare
  | clear =>
    cases ha
    exact (hg.of_bare (hi.cut_disconnectAll g.links).bare).congr rfl (List.nil_subset _)
  | declareVariable name typeName initial =>
    obtain ⟨x, labels, -, hname, hx, rfl⟩ := hg.declareVariable_eq_ok hr ha
    exact hg.withVariable hname hx ..
  | setVariable name v typeName =>
    obtain ⟨⟨h', told⟩, hs, rfl⟩ := map_eq_ok.1 ha
    exact hg.setVariable hr hs
  | removeVariable name =>
    cases ha
    exact hg.congr rfl List.filter_sublist.subset
  | declareEvent name ps =>
    obtain ⟨e, labels, -, -, -, rfl⟩ := Document.declareEvent_eq_ok (mapError_eq_ok.1 ha)
    exact hg.congr rfl (List.Subset.refl _)
  | removeEvent name =>
    cases ha
    exact hg.congr rfl (List.Subset.refl _)
  | setLiteral id name v =>
    simp only [Graph.attempt] at ha
    split at ha
    · cases ha
      exact hg.presetInputs ..
    · cases ha

theorem edits (hr : r.Standard ds) (hg : Holding r g) (hi : Indexed g) (es : List Edit) :
    Holding r (g.edits es) ∧ Indexed (g.edits es) :=
  edits_invariant (P := fun g => Holding r g ∧ Indexed g)
    (fun _ _ _ _ hg ha => ⟨hg.1.attempt hr hg.2 ha, hg.2.attempt ha⟩) ⟨hg, hi⟩

end Holding

end Graph

namespace Editing

variable {ds : List Definition} {r : Registry} {d : Draft}

/-- The label of a new variable is made when it is in the graph. -/
theorem runOn_declareVariable (hr : r.Standard ds) (hg : d.graph.Holding r) (name typeName : String) (initial : Value) :
    (∃ e, d.graph.declareVariable name typeName initial = .error e ∧
        (declareVariable name typeName initial).runOn d = (.error e, d)) ∨
      ∃ h, d.graph.declareVariable name typeName initial = .ok h ∧
        ((declareVariable name typeName initial).runOn d = (.ok (), { d with graph := h }) ∨ d.graph.Overlong h ∧
          (declareVariable name typeName initial).runOn d = (.error (.fault .digitsWritten), { d with graph := h })) := by
  simp only [declareVariable, Graph.declareVariable, runOn_bind, runOn_graph]
  by_cases hhas : d.graph.vars.has name = true
  · rw [if_pos hhas, if_pos hhas]
    exact .inl ⟨_, rfl, rfl⟩
  rw [if_neg hhas, if_neg hhas]
  simp only [runOn_bind, runOn_ofIntegrity]
  cases ht : d.graph.registry.valueType typeName with
  | error e => exact .inl ⟨_, rfl, rfl⟩
  | ok t =>
    simp only [Except.mapError, runOn_ofExcept]
    cases hv : Variable.start name t initial with
    | error e => exact .inl ⟨_, rfl, rfl⟩
    | ok v =>
      refine .inr ⟨_, rfl, ?_⟩
      have hbasic := (hr.valueType_spec (hg.registry ▸ ht)).2
      have hstamped := (d.graph.stamp_spec (hbasic.holds_start hv)).1
      obtain ⟨labels, hlabels⟩ := d.graph.stamp_eq v
      simp only [runOn_keep, runOn_change, hlabels]
      generalize (d.graph.stamp v).2 = w at hstamped
      cases hshown : w.literal with
      | ok text =>
        left
        simp only [announce, Variable.label, hshown]
        rfl
      | error f =>
        obtain ⟨rfl, i, rfl, hi⟩ := hstamped.literal_eq_error hshown
        rw [Table.has_iff] at hhas
        right
        constructor
        · exact ⟨{ name := name, serial := d.graph.issued, valueType := t, initial := .int i, value := .int i }, i, labels,
            hhas, rfl, hi, by rw [← Table.entries_set_of_not_mem _ hhas]⟩
        · simp only [announce, Variable.label, hshown]
          rfl

/-- A value of the type is assigned, and the old one is compared with it; neither can fail. -/
theorem runOn_assign {x : Variable} {w : Value} (hx : x.valueType.Holds x.value) (hw : x.valueType.Holds w) :
    ∃ told, x.put w = .ok ({ x with value := w }, told) ∧ ∀ d, (assign x w).runOn d = (.ok (), { d with
      graph := { d.graph with vars := d.graph.vars.set x.name { x with value := w } }
      told := d.told ++ told.toList.map (x.serial, ·) }) := by
  obtain ⟨same, hsame⟩ := hx.equals hw
  cases same with
  | true =>
    refine ⟨none, by simp only [Variable.put, hsame]; rfl, fun d => ?_⟩
    simp only [assign, setEntry, runOn_bind, runOn_ofExcept, hw.coerce, hsame, Except.lifted, runOn_change, Option.toList_none,
      List.map_nil, List.append_nil]
    rfl
  | false =>
    refine ⟨some w, by simp only [Variable.put, hsame, hw.clone]; rfl, fun d => ?_⟩
    simp only [assign, setEntry, runOn_bind, runOn_ofExcept, hw.coerce, hsame, Except.lifted, runOn_change, Option.toList_some,
      List.map_cons, List.map_nil]
    simp only [Bool.false_eq_true, if_false, runOn_bind, runOn_ofExcept, hw.clone]
    rfl

/-- Setting a variable that is there fails before its first change or not at all. -/
theorem runOn_setVariable_of_holds {x : Variable} (hx : d.graph.vars.get? x.name = some x) (hheld : x.valueType.Holds x.value)
    (v : Value) (typeName : Option String) :
    (setVariable x.name v typeName).runOn d = match d.graph.setVariable x.name v typeName with
      | .ok (h, told) => (.ok (), { d with graph := h, told := d.told ++ told.toList.map (x.serial, ·) })
      | .error e => (.error e, d) := by
  simp only [setVariable, Graph.setVariable, runOn_bind, runOn_graph, hx]
  by_cases hgiven : typeName.getD x.valueType.name ≠ x.valueType.name
  · rw [if_pos hgiven, if_pos hgiven]
    rfl
  rw [if_neg hgiven, if_neg hgiven]
  simp only [runOn_bind, runOn_ofExcept]
  cases hw : Variable.coerce x.name x.valueType v with
  | error e => rfl
  | ok w =>
    have hstamped := (d.graph.stamp_spec (ValueType.holds_coerce hheld.isBasic hw)).1
    obtain ⟨told, hput, hassign⟩ := runOn_assign (x := { x with initial := (d.graph.stamp w).2 }) hheld hstamped
    simp only [runOn_keep, hstamped.clone, Except.lifted, setEntry, runOn_change, hassign, Table.set_set]
    simp only [bind, Except.bind, hstamped.clone, hput]
    rfl

theorem runOn_setVariable (hg : d.graph.Holding r) {name : String} {x : Variable} (hx : d.graph.vars.get? name = some x)
    (v : Value) (typeName : Option String) :
    (setVariable name v typeName).runOn d = match d.graph.setVariable name v typeName with
      | .ok (h, told) => (.ok (), { d with graph := h, told := d.told ++ told.toList.map (x.serial, ·) })
      | .error e => (.error e, d) := by
  obtain ⟨rfl, hheld⟩ : x.name = name ∧ x.valueType.Holds x.value := hg.vars _ (Table.mem_entries_of_get? hx)
  exact runOn_setVariable_of_holds hx hheld v typeName

end Editing

/-- Carries an operation out. -/
def Edit.run : Edit → Editing Unit
  | .add typeName id overrides position => discard (Editing.addNode typeName id overrides position)
  | .addOf template id overrides position => discard (Editing.addNodeOf template id overrides position)
  | .connect l replace => discard (Editing.connect l replace)
  | .declareVariable name typeName initial => Editing.declareVariable name typeName initial
  | .setVariable name v typeName => Editing.setVariable name v typeName
  | .declareEvent name parameters => Editing.declareEvent name parameters
  | .remove id => Editing.change (·.removeNode id)
  | .disconnect l => Editing.change fun g => (g.disconnect l).1
  | .disconnectInput id name => Editing.change fun g => (g.disconnectInput id name).1
  | .clear => Editing.clear
  | .removeVariable name => Editing.change (·.removeVariable name)
  | .removeEvent name => Editing.change (·.removeEvent name)
  | .setLiteral id name v => do
    match (← Editing.graph).serial? id with
    | some k => Editing.change fun g => (g.presetInputs k [(name, v)]).1
    | none => throw (.fault (.missing id))

namespace Edit

/-- How an operation ends on a graph, and what it leaves. -/
inductive Outcome (g : Graph) (strays : List Stray) (e : Edit) : Except Failure Unit × Draft → Prop
  | done {h : Graph} (left : List Stray) (told : List (Nat × Value)) (hok : g.attempt e = .ok h) :
    Outcome g strays e (.ok (), { graph := h, strays := left, told := told })
  | refused {f : Failure} (herror : g.attempt e = .error f) : Outcome g strays e (.error f, { graph := g, strays := strays })
  /-- The operation went through, but what it declared cannot be shown. -/
  | unshown {h : Graph} (hok : g.attempt e = .ok h) (hover : g.Overlong h) :
    Outcome g strays e (.error (.fault .digitsWritten), { graph := h, strays := strays })

variable {ds : List Definition} {r : Registry} {g : Graph} {strays : List Stray}

theorem outcome_declareVariable (hr : r.Standard ds) (hg : g.Holding r) {e : Edit} {name typeName : String} {initial : Value}
    (he : g.attempt e = g.declareVariable name typeName initial) :
    Outcome g strays e ((Editing.declareVariable name typeName initial).runOn { graph := g, strays := strays }) := by
  rcases Editing.runOn_declareVariable hr (d := { graph := g, strays := strays }) hg name typeName initial with
    ⟨f, herror, hrun⟩ | ⟨h, hok, hrun | ⟨hover, hrun⟩⟩
  · rw [hrun]
    exact .refused (he.trans herror)
  · rw [hrun]
    exact .done strays [] (he.trans hok)
  · rw [hrun]
    exact .unshown (he.trans hok) hover

/-- An operation that is carried out as it is looked at as a whole either goes through or changes nothing. -/
theorem outcome_discard {α : Type} {e : Edit} {x : Editing α} {y : Except Failure (Graph × α)}
    (hx : x.runOn { graph := g, strays := strays } = match y with
      | .ok (h, a) => (.ok a, { graph := h, strays := strays })
      | .error f => (.error f, { graph := g, strays := strays }))
    (he : g.attempt e = y.map (·.1)) : Outcome g strays e ((discard x).runOn { graph := g, strays := strays }) := by
  rw [Editing.runOn_discard, hx]
  cases y with
  | ok p => exact .done strays [] he
  | error f => exact .refused he

/-- There is no other way to end. -/
theorem outcome_run (hr : r.Standard ds) (hg : g.Holding r) (hi : g.Indexed) (e : Edit) :
    Outcome g strays e (e.run.runOn { graph := g, strays := strays }) := by
  cases e with
  | add typeName id overrides position =>
    refine outcome_discard (y := g.addNode typeName id overrides position) ?_ rfl
    rw [Editing.runOn_addNode]
    cases g.addNode typeName id overrides position <;> rfl
  | addOf template id overrides position =>
    refine outcome_discard (y := g.addNodeOf template id overrides position) ?_ rfl
    rw [Editing.runOn_addNodeOf]
    cases g.addNodeOf template id overrides position <;> rfl
  | connect l replace =>
    refine outcome_discard (y := (g.connect l replace).mapError .integrity) ?_ ?_
    · rw [Editing.runOn_connect hi]
      cases g.connect l replace <;> rfl
    · cases hc : g.connect l replace <;> simp only [Graph.attempt, hc] <;> rfl
  | declareVariable name typeName initial => exact outcome_declareVariable hr hg rfl
  | setVariable name v typeName =>
    cases hx : g.vars.get? name with
    | some x =>
      have hrun := Editing.runOn_setVariable (d := { graph := g, strays := strays }) hg hx v typeName
      rw [run, hrun]
      cases hs : g.setVariable name v typeName with
      | error f => exact .refused (map_eq_error.2 hs)
      | ok p => exact .done strays _ (map_eq_ok.2 ⟨p, hs, rfl⟩)
    | none =>
      cases typeName with
      | none =>
        rw [run, Editing.setVariable, Editing.runOn_bind, Editing.runOn_graph]
        simp only [hx]
        exact .refused (by simp only [Graph.attempt, Graph.setVariable, hx]; rfl)
      | some t =>
        have hrun : (Editing.setVariable name v (some t)).runOn { graph := g, strays := strays } =
            (Editing.declareVariable name t v).runOn { graph := g, strays := strays } := by
          rw [Editing.setVariable, Editing.runOn_bind, Editing.runOn_graph]
          simp only [hx]
        rw [run, hrun]
        refine outcome_declareVariable hr hg ?_
        simp only [Graph.attempt, Graph.setVariable, hx]
        cases g.declareVariable name t v <;> rfl
  | declareEvent name parameters =>
    have hrun := Editing.runOn_declareEvent (d := { graph := g, strays := strays }) name parameters
    rw [run, hrun]
    cases hd : g.declareEvent name parameters with
    | error f => exact .refused (by simp only [Graph.attempt, hd]; rfl)
    | ok h => exact .done strays [] (by simp only [Graph.attempt, hd]; rfl)
  | remove id | disconnect l | disconnectInput id name | removeVariable name | removeEvent name => exact .done strays [] rfl
  | clear => exact .done [] [] rfl
  | setLiteral id name v =>
    rw [run, Editing.runOn_bind, Editing.runOn_graph]
    cases hid : g.serial? id with
    | none =>
      simp only [hid]
      exact .refused (by simp only [Graph.attempt, hid])
    | some k =>
      simp only [hid]
      exact .done strays [] (by simp only [Graph.attempt, hid])

end Edit

/-- A call that builds a graph. For the identifier of a node a host may hand over anything. -/
inductive Call where
  | edit (e : Edit)
  /-- Adds a node of a registered type. -/
  | add (typeName : String) (id : Value) (overrides : List (String × Value)) (position : Value)
  /-- Adds a node of a definition that need not be registered. -/
  | addOf (definition : Definition) (id : Value) (overrides : List (String × Value)) (position : Value)

namespace Call

def run : Call → Editing Unit
  | edit e => e.run
  | add typeName id overrides position => discard (Editing.addNodeUnder typeName id overrides position)
  | addOf template id overrides position => discard (Editing.addNodeOfUnder template id overrides position)

/-- The identifier that a call asks for, if it is one that no table of a graph knows. -/
def odd? : Call → Option Value
  | add _ id _ _ | addOf _ id _ _ => if Stray.isOdd id then some id else none
  | edit _ => none

/-- How a call that fails leaves the draft. -/
inductive Leaves (d : Draft) (c : Call) : Failure → Draft → Prop
  | same (f : Failure) : Leaves d c f d
  /-- A variable is in the graph, and cannot be shown. -/
  | unshown {h : Graph} (hover : d.graph.Overlong h) : Leaves d c (.fault .digitsWritten) { d with graph := h }
  /-- A node is in the graph, under an identifier that no label can be cut from. -/
  | stray {v : Value} (n : Node) (hodd : c.odd? = some v) : Leaves d c (.fault (.notSubscriptable v.typeName))
    { d with strays := d.strays ++ [⟨v, d.graph.arena.size, n⟩] }

variable {ds : List Definition} {r : Registry} {d d' : Draft} {c : Call} {f : Failure}

theorem leaves_addNodeOf {template : Definition} {id : Option String} {overrides : List (String × Value)} {position : Value}
    (h : (Editing.addNodeOf template id overrides position).runOn d = (.error f, d')) : Leaves d c f d' := by
  rw [Editing.runOn_addNodeOf] at h
  split at h
  · cases h
  · cases h
    exact .same f

/-- Under an identifier that is no text a node is put in before its label fails. -/
theorem leaves_addNodeOfUnder {template : Definition} {id : Value} {overrides : List (String × Value)} {position : Value}
    (hodd : Stray.isOdd id = true → c.odd? = some id)
    (h : (Editing.addNodeOfUnder template id overrides position).runOn d = (.error f, d')) : Leaves d c f d' := by
  unfold Editing.addNodeOfUnder at h
  split at h
  · exact leaves_addNodeOf h
  · exact leaves_addNodeOf h
  · rename_i hnone htext
    simp only [Editing.runOn_bind, Editing.runOn_ofExcept, Editing.runOn_get] at h
    cases hhashed : id.hashed with
    | error e =>
      rw [hhashed] at h
      cases h
      exact .same _
    | ok u =>
      simp only [hhashed, Except.lifted] at h
      by_cases htaken : d.strays.any (·.id.same id) = true
      · simp only [htaken, if_true, Editing.runOn_bind, Editing.runOn_ofExcept] at h
        cases hshown : id.display with
        | error e =>
          simp only [hshown] at h
          cases h
          exact .same _
        | ok text =>
          simp only [hshown] at h
          cases h
          exact .same _
      · simp only [htaken, Bool.false_eq_true, if_false] at h
        cases htruth : id.truth with
        | false =>
          simp only [htruth, Bool.not_false, if_true] at h
          exact leaves_addNodeOf h
        | true =>
          simp only [htruth, Bool.not_true, Bool.false_eq_true, if_false, Editing.runOn_bind, Editing.runOn_graph,
            Editing.runOn_ofExcept] at h
          cases hmade : d.graph.makeNode template "" overrides position with
          | error e =>
            rw [hmade] at h
            cases h
            exact .same _
          | ok n =>
            rw [hmade] at h
            cases h
            refine .stray n (hodd ?_)
            unfold Stray.isOdd
            split
            · exact absurd rfl hnone
            · exact absurd rfl (htext _)
            · exact htruth

theorem leaves_edit (hr : r.Standard ds) (hg : d.graph.Holding r) (hi : d.graph.Indexed) (htold : d.told = []) {e : Edit}
    (h : e.run.runOn d = (.error f, d')) : Leaves d (.edit e) f d' := by
  obtain ⟨g, strays, told⟩ := d
  obtain rfl : told = [] := htold
  have hend : Edit.Outcome g strays e (e.run.runOn { graph := g, strays := strays }) := Edit.outcome_run hr hg hi e
  rw [h] at hend
  cases hend with
  | refused herror => exact .same f
  | unshown hok hover => exact .unshown hover

/-- Before a node is added, its definition is looked up. -/
theorem leaves_addNodeUnder {typeName : String} {id : Value} {overrides : List (String × Value)} {position : Value}
    (hodd : Stray.isOdd id = true → c.odd? = some id)
    (h : (Editing.addNodeUnder typeName id overrides position).runOn d = (.error f, d')) : Leaves d c f d' := by
  simp only [Editing.addNodeUnder, Editing.runOn_bind, Editing.runOn_graph, Editing.runOn_ofIntegrity] at h
  cases hdefinition : d.graph.registry.definition typeName with
  | error e =>
    rw [hdefinition] at h
    cases h
    exact .same _
  | ok template =>
    rw [hdefinition] at h
    exact leaves_addNodeOfUnder hodd h

theorem error_of_discard {α : Type} {x : Editing α} (h : (discard x).runOn d = (.error f, d')) : x.runOn d = (.error f, d') := by
  rw [Editing.runOn_discard] at h
  split at h
  · cases h
  · rename_i hx
    cases h
    exact hx

/-- A float variable. -/
def speedGraph : Graph := Graph.edits { registry := Catalogue.defaults } [.declareVariable "speed" "float" .none]

def unfitCall : Call := .edit (.setVariable "speed" (.str "fast") none)

def strayCall : Call := .add "Start" (.int 5) [] Graph.noPosition

end Call

end FlowGraph
