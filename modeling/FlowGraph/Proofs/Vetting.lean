import FlowGraph.Proofs.Laying

/-!
What the checks of a registry are good for. A definition that lists its sockets outright is looked at as a whole by the checks:
where they find nothing, every graph that is edited over the registry has nodes of the shape that was checked, with sockets of
registered types under names of their own.
-/
namespace FlowGraph

/-- The failures that the checks of a registry rule out, if definitions list their sockets: a behaviour or an output is missing
that the kind of the node calls for, a path comes to a node of a kind that takes part in no path, or a type is not registered
or not carried over although the link was made. -/
def IntegrityError.isForestalled : IntegrityError → Bool
  | unknownValueType _ | noConversion _ _ => true
  | _ => false

@[inherit_doc IntegrityError.isForestalled]
def Failure.isForestalled : Failure → Bool
  | .node _ _ (.noBehaviour _) | .node _ _ (.notTriggerable _) | .node _ _ .noFlowOutput => true
  | .node _ _ (.unconvertible _ _ _ (.integrity e)) | .integrity e => e.isForestalled
  | _ => false

/-- The sockets do not depend on anything. -/
def SocketSource.isFixed : SocketSource → Bool
  | fixed _ => true
  | _ => false

def Definition.isStatic (d : Definition) : Bool := d.inputs.isFixed && d.outputs.isFixed

theorem Definition.source_of_isStatic {d : Definition} (h : d.isStatic = true) (side : Side) :
    side.source d = .fixed (side.source d).own := by
  have hfixed (source : SocketSource) (hsource : source.isFixed = true) : source = .fixed source.own := by
    cases source with
    | fixed specs => rfl
    | _ => cases hsource
  obtain ⟨hin, hout⟩ := Bool.and_eq_true_iff.1 h
  cases side with
  | input => exact hfixed _ hin
  | output => exact hfixed _ hout

namespace Registry

variable {r : Registry}

theorem valueType_of_hasValueType {name : String} (h : r.hasValueType name = true) : ∃ t, r.valueType name = .ok t := by
  unfold valueType valueType?
  split
  · rename_i t ht
    exact ⟨t, rfl⟩
  · rename_i hnone
    split at hnone
    · cases hnone
    · rename_i hflow
      have hhas : r.values.has name = true := by simpa [hasValueType, hflow] using h
      exact absurd ((Table.has_iff _ _).1 hhas) ((Table.get?_eq_none_iff _ _).1 hnone)

theorem mem_values_of_definition {typeName : String} {d : Definition} (h : r.definition typeName = .ok d) :
    d ∈ r.nodes.values := by
  unfold definition at h
  split at h
  · rename_i hget
    cases h
    exact List.mem_map_of_mem (Table.mem_entries_of_get? hget)
  · cases h

/-- A value that is carried over a link is refused, if at all, for what it is. -/
theorem not_isForestalled_convert {v : Value} {source target : String} (hfit : r.canConnect source target = true)
    (hknown : r.hasValueType target = true) {e : Failure} (h : r.convert v source target = .error e) : ∃ f, e = .fault f := by
  have hlifted {x : Except Fault Value} (he : Except.lifted x = .error e) : ∃ f, e = .fault f := by
    cases x with
    | ok a => cases he
    | error f =>
      cases he
      exact ⟨f, rfl⟩
  unfold convert at h
  split at h
  · obtain ⟨t, ht⟩ := valueType_of_hasValueType hknown
    rw [ht] at h
    exact hlifted h
  · rename_i hdiffer
    split at h
    · exact hlifted h
    · rename_i hnone
      have hhas : r.conversions.has (source, target) = true := by
        unfold canConnect at hfit
        split at hfit
        · exact absurd (eq_of_beq hfit) hdiffer
        · simpa [hdiffer] using hfit
      exact absurd ((Table.has_iff _ _).1 hhas) ((Table.get?_eq_none_iff _ _).1 hnone)

theorem hasValueType_of_specProblems {place valueType : String} {default : Value} {choices : Option (List Value)}
    (h : r.specProblems place valueType default choices = .ok []) : r.hasValueType valueType = true := by
  by_contra hunknown
  unfold specProblems at h
  rw [if_neg hunknown] at h
  dsimp only at h
  split at h
  · obtain ⟨shown, -, h⟩ := bind_eq_ok.1 h
    cases h
  · cases h

/-- Nothing is found about the sockets of a side only if their types are registered and their names are new. -/
theorem socketProblems_eq_nil {name : String} {side : Side} {specs : List SocketSpec} {seen : List String}
    (h : r.socketProblems name side seen specs = .ok []) :
    (∀ s ∈ specs, r.hasValueType s.valueType = true ∧ s.name ∉ seen) ∧ (specs.map (·.name)).Nodup := by
  induction specs generalizing seen with
  | nil => exact ⟨fun _ hs => absurd hs List.not_mem_nil, List.nodup_nil⟩
  | cons s rest ih =>
    simp only [socketProblems] at h
    obtain ⟨own, hown, h⟩ := bind_eq_ok.1 h
    obtain ⟨others, hothers, h⟩ := bind_eq_ok.1 h
    simp only [pure, Except.pure, Except.ok.injEq, List.append_eq_nil_iff] at h
    obtain ⟨⟨hdouble, rfl⟩, rfl⟩ := h
    obtain ⟨hrest, hnodup⟩ := ih hothers
    have hnew : s.name ∉ seen := by
      intro hs
      rw [if_pos hs] at hdouble
      cases hdouble
    have htype : r.hasValueType s.valueType = true := hasValueType_of_specProblems hown
    refine ⟨fun t ht => ?_, List.nodup_cons.2 ⟨fun hs => ?_, hnodup⟩⟩
    · rcases List.mem_cons.1 ht with rfl | ht
      · exact ⟨htype, hnew⟩
      · exact ⟨(hrest t ht).1, fun hs => (hrest t ht).2 (List.mem_cons_of_mem _ hs)⟩
    · obtain ⟨t, ht, hname⟩ := List.mem_map.1 hs
      exact (hrest t ht).2 (hname ▸ List.mem_cons_self)

/-- All definitions list their sockets, and the checks find nothing. -/
structure Vetted (r : Registry) : Prop where
  static : ∀ d ∈ r.nodes.values, d.isStatic = true
  silent : r.problems = .ok []

end Registry

/-- The definition lists its sockets, which have registered types and names of their own, and has the shape and the behaviour
of its kind. -/
structure Definition.Vetted (r : Registry) (d : Definition) : Prop where
  static : ∀ side : Side, side.source d = .fixed (side.source d).own
  typed : ∀ side : Side, ∀ s ∈ (side.source d).own, r.hasValueType s.valueType = true
  distinct : ∀ side : Side, ((side.source d).own.map (·.name)).Nodup
  present : d.behaviour.isMissing = false
  admitted : d.kind.Admits (d.inputs.own.countP (·.isFlow)) (d.outputs.own.countP (·.isFlow))

/-- Where the checks find nothing there is nothing wrong with a definition that lists its sockets. -/
theorem Registry.Vetted.definition {r : Registry} (hr : r.Vetted) {d : Definition} (hd : d ∈ r.nodes.values) : d.Vetted r := by
  obtain ⟨all, hall, hsilent⟩ := bind_eq_ok.1 hr.silent
  simp only [pure, Except.pure, Except.ok.injEq, List.append_eq_nil_iff] at hsilent
  obtain ⟨own, hown, hproblems⟩ := mem_left_of_forall₂ (forall₂_of_mapM hall) hd
  obtain rfl : own = [] := List.flatten_eq_nil_iff.1 hsilent.2 own hown
  have hsource := d.source_of_isStatic (hr.static d hd)
  have hsockets : Registry.defaultSockets d Scope.none = .ok (d.inputs.own, d.outputs.own) := by
    unfold Registry.defaultSockets
    rw [show d.inputs = .fixed d.inputs.own from hsource .input, show d.outputs = .fixed d.outputs.own from hsource .output]
    rfl
  unfold Registry.definitionProblems at hproblems
  rw [hsockets] at hproblems
  obtain ⟨settings, -, hproblems⟩ := bind_eq_ok.1 hproblems
  obtain ⟨ins, hins, hproblems⟩ := bind_eq_ok.1 hproblems
  obtain ⟨outs, houts, hproblems⟩ := bind_eq_ok.1 hproblems
  simp only [pure, Except.pure, Except.ok.injEq, List.append_eq_nil_iff] at hproblems
  obtain ⟨⟨⟨-, rfl⟩, rfl⟩, hshape⟩ := hproblems
  obtain ⟨hintyped, hindistinct⟩ := Registry.socketProblems_eq_nil hins
  obtain ⟨houttyped, houtdistinct⟩ := Registry.socketProblems_eq_nil houts
  obtain ⟨hpresent, hadmitted⟩ := Registry.shapeProblems_eq_nil.1 hshape
  refine ⟨hsource, fun side => ?_, fun side => ?_, hpresent, hadmitted⟩
  · cases side with
    | input => exact fun s hs => (hintyped s hs).1
    | output => exact fun s hs => (houttyped s hs).1
  · cases side with
    | input => exact hindistinct
    | output => exact houtdistinct

/-- The sockets of the node have registered types and names of their own, and the node has the shape and the behaviour of its
kind. -/
structure Node.Vetted (r : Registry) (n : Node) : Prop where
  typed : ∀ side : Side, ∀ s ∈ side.sockets n, r.hasValueType s.valueType = true
  distinct : ∀ side : Side, ((side.sockets n).map (·.name)).Nodup
  present : n.definition.behaviour.isMissing = false
  admitted : n.kind.Admits (n.inputs.countP (·.isFlow)) (n.outputs.countP (·.isFlow))

/-- A node that follows another has the same sockets. -/
theorem Node.Vetted.follow {r : Registry} {n m : Node} (hn : n.Vetted r) (h : m.Follows n) : m.Vetted r := by
  have hdefinition : m.definition = n.definition := congrArg (·.2.1) h.origin
  have hnames (side : Side) : (side.sockets m).map (·.name) = (side.sockets n).map (·.name) := by
    simpa [Function.comp_def, Socket.outline] using congrArg (List.map Prod.fst) (h.outlines side)
  have hcounts (side : Side) : (side.sockets m).countP (·.isFlow) = (side.sockets n).countP (·.isFlow) := by
    have := congrArg (List.countP fun o : String × String => o.2 == ValueType.flowName) (h.outlines side)
    rw [List.countP_map, List.countP_map] at this
    exact this
  refine ⟨fun side s hs => ?_, fun side => hnames side ▸ hn.distinct side, hdefinition ▸ hn.present, ?_⟩
  · have hmem : s.outline ∈ (side.sockets n).map Socket.outline := h.outlines side ▸ List.mem_map_of_mem hs
    obtain ⟨t, ht, hsame⟩ := List.mem_map.1 hmem
    have htype : t.valueType = s.valueType := congrArg Prod.snd hsame
    exact htype ▸ hn.typed side t ht
  · rw [Node.kind, hdefinition, show m.inputs.countP (·.isFlow) = _ from hcounts .input,
      show m.outputs.countP (·.isFlow) = _ from hcounts .output]
    exact hn.admitted

namespace Graph

variable {r : Registry} {g h : Graph}

/-- A node is like its definition, whatever it is set to and whatever is declared. -/
theorem Expands.vetted {scope : Scope} {n : Node} (h : Expands scope n) (hd : n.definition.Vetted r) : n.Vetted r := by
  have hout (side : Side) : (side.source n.definition).own.map SocketSpec.outline = (side.sockets n).map Socket.outline := by
    obtain ⟨specs, hspecs, hout⟩ := h.specs side
    rw [hd.static side] at hspecs
    cases hspecs
    exact hout
  refine ⟨fun side s hs => ?_, fun side => ?_, hd.present, ?_⟩
  · have hmem : s.outline ∈ (side.source n.definition).own.map SocketSpec.outline := hout side ▸ List.mem_map_of_mem hs
    obtain ⟨spec, hspec, hsame⟩ := List.mem_map.1 hmem
    have htype : spec.valueType = s.valueType := congrArg Prod.snd hsame
    exact htype ▸ hd.typed side spec hspec
  · rw [map_name_of_outline (hout side)]
    exact hd.distinct side
  · have hins : n.inputs.countP (·.isFlow) = n.definition.inputs.own.countP (·.isFlow) := countP_isFlow_of_outline (hout .input)
    have houts : n.outputs.countP (·.isFlow) = n.definition.outputs.own.countP (·.isFlow) :=
      countP_isFlow_of_outline (hout .output)
    rw [hins, houts]
    exact hd.admitted

/-- A graph over the registry, all of whose nodes are vetted, those that were taken out included. -/
structure Vetted (r : Registry) (g : Graph) : Prop where
  registry : g.registry = r
  nodes : ∀ {k : Nat} {n : Node}, g.nodeAt? k = some n → n.definition.Vetted r ∧ n.Vetted r
  indexed : Indexed g
  laid : Laid g

theorem Vetted.of_empty (name : String) (r : Registry) (replace : Bool) (labels : Nat) :
    Vetted r { name := name, registry := r, replaceLinks := replace, labels := labels } := by
  refine ⟨rfl, fun {k n} hn => ?_, .of_empty rfl rfl, .of_empty name r replace labels⟩
  simp [nodeAt?] at hn

/-- What a registered operation brings in is registered. -/
theorem brings_registered {e : Edit} (he : e.isRegistered = true) {d : Definition} (hd : e.Brings r d) : d ∈ r.nodes.values := by
  cases e with
  | add typeName id overrides position => exact Registry.mem_values_of_definition hd
  | addOf d' id overrides position => cases he
  | _ => cases hd

theorem Vetted.attempt (hr : r.Vetted) (hg : Vetted r g) {e : Edit} (he : e.isRegistered = true) (ha : g.attempt e = .ok h) :
    Vetted r h := by
  have hs : Step g e h := .attempt hg.indexed ha
  have hdefinition {k : Nat} {m : Node} (hm : h.nodeAt? k = some m) : m.definition.Vetted r := by
    refine definition_attempt (P := (·.Vetted r)) (fun hn => (hg.nodes hn).1) hg.indexed (fun d hd => ?_) ha hm
    rw [hg.registry] at hd
    exact hr.definition (brings_registered he hd)
  refine ⟨hs.registry.trans hg.registry, fun {k m} hm => ⟨hdefinition hm, ?_⟩, hg.indexed.attempt ha,
    hg.laid.attempt hg.indexed ha⟩
  rcases hs.nodes hm with ⟨n, hn, hfollows⟩ | hnew
  · exact (hg.nodes hn).2.follow hfollows
  · exact hnew.vetted (hdefinition hm)

/-- Over a vetted registry every history of operations on registered types ends in a vetted graph. -/
theorem Vetted.edits (hr : r.Vetted) (hg : Vetted r g) {es : List Edit} (hes : ∀ e ∈ es, e.isRegistered = true) :
    Vetted r (g.edits es) :=
  edits_invariant (fun _ e he _ hg ha => hg.attempt hr (hes e he) ha) hg

section Adding

theorem not_isForestalled_lifted {α : Type} {x : Except Fault α} {e : Failure} (h : Except.lifted x = .error e) :
    e.isForestalled = false := by
  cases x with
  | ok a => cases h
  | error f =>
    cases h
    rfl

theorem not_isForestalled_buildSocket {s : SocketSpec} (hs : r.hasValueType s.valueType = true) {e : Failure}
    (h : buildSocket r s = .error e) : e.isForestalled = false := by
  obtain ⟨t, ht⟩ := Registry.valueType_of_hasValueType hs
  unfold buildSocket at h
  simp only [ht] at h
  split at h
  · cases h
  · split at h
    · cases h
    · rcases bind_eq_error.1 h with h | ⟨v, -, h⟩
      · exact not_isForestalled_lifted h
      · cases h

/-- The sockets of a fixed side with registered types are built without failures of registries. -/
theorem not_isForestalled_buildSide (hg : g.registry = r) {source : SocketSource} (hsource : source = .fixed source.own)
    (htyped : ∀ s ∈ source.own, r.hasValueType s.valueType = true) {c : Configuration} {e : Failure}
    (h : g.buildSide source c = .error e) : e.isForestalled = false := by
  have hall : ∀ specs : List SocketSpec, (∀ s ∈ specs, r.hasValueType s.valueType = true) →
      specs.mapM (buildSocket r) = .error e → e.isForestalled = false := by
    intro specs
    induction specs with
    | nil => exact fun _ h => by cases h
    | cons s specs ih =>
      intro hs h
      rw [List.mapM_cons] at h
      rcases bind_eq_error.1 h with h | ⟨t, -, h⟩
      · exact not_isForestalled_buildSocket (hs s List.mem_cons_self) h
      · rcases bind_eq_error.1 h with h | ⟨ts, -, h⟩
        · exact ih (fun s hmem => hs s (List.mem_cons_of_mem _ hmem)) h
        · cases h
  rcases bind_eq_error.1 h with h | ⟨specs, hspecs, h⟩
  · exact not_isForestalled_lifted h
  · rw [hsource] at hspecs
    cases lifted_eq_ok.1 hspecs
    rw [hg] at h
    exact hall _ htyped h

theorem not_isForestalled_mergeConfiguration {d : Definition} {overrides : List (String × Value)} {e : IntegrityError}
    (h : mergeConfiguration d overrides = .error e) : e.isForestalled = false := by
  unfold mergeConfiguration at h
  generalize d.defaultConfiguration = c at h
  induction overrides generalizing c with
  | nil => cases h
  | cons o rest ih =>
    rw [List.foldlM_cons] at h
    split at h
    · exact ih _ h
    · cases h
      rfl

/-- A node of a vetted definition is refused for its settings, its position or its identifier only. -/
theorem not_isForestalled_makeNode (hg : g.registry = r) {d : Definition} (hd : d.Vetted r) {id : String}
    {overrides : List (String × Value)} {position : Value} {e : Failure} (h : g.makeNode d id overrides position = .error e) :
    e.isForestalled = false := by
  rcases bind_eq_error.1 h with h | ⟨place, -, h⟩
  · exact not_isForestalled_lifted h
  · split at h
    · rename_i e' he'
      cases h
      exact not_isForestalled_mergeConfiguration he'
    · rcases bind_eq_error.1 h with h | ⟨inputs, -, h⟩
      · exact not_isForestalled_buildSide hg (hd.static .input) (hd.typed .input) h
      · rcases bind_eq_error.1 h with h | ⟨outputs, -, h⟩
        · exact not_isForestalled_buildSide hg (hd.static .output) (hd.typed .output) h
        · cases h

/-- Adding a node to a vetted graph fails without failures of registries. -/
theorem Vetted.not_isForestalled_addNode (hr : r.Vetted) (hg : Vetted r g) {typeName : String} {id : Option String}
    {overrides : List (String × Value)} {position : Value} {e : Failure}
    (h : g.addNode typeName id overrides position = .error e) : e.isForestalled = false := by
  unfold addNode at h
  split at h
  · rename_i e' he'
    cases h
    unfold Registry.definition at he'
    split at he'
    · cases he'
    · cases he'
      rfl
  · rename_i d hd
    rw [hg.registry] at hd
    have hvetted : d.Vetted r := hr.definition (Registry.mem_values_of_definition hd)
    have hmake {x : Except Failure Node} (hx : ∀ e, x = .error e → e.isForestalled = false)
        (he : (do return (g.insertNode (← x), g.arena.size) : Except Failure (Graph × Nat)) = .error e) :
        e.isForestalled = false := by
      rcases bind_eq_error.1 he with he | ⟨n, -, he⟩
      · exact hx e he
      · cases he
    unfold addNodeOf at h
    split at h
    · split at h
      · cases h
        rfl
      · exact hmake (fun e he => not_isForestalled_makeNode hg.registry hvetted he) h
    · exact hmake (fun e he => not_isForestalled_makeNode hg.registry hvetted he) h

end Adding

end Graph

end FlowGraph
