import FlowGraph.Proofs.History

/-!
The shape of nodes: which sockets for execution their kind has, and that no two sockets of a side share a name. The checks
of a registry look at every definition once, without declarations; here it is shown for the nodes of a graph, whatever
they are set to and whatever is declared. Main statement: the kinds have their shapes in every graph that was built by
editing, but for function nodes where a variable of execution control was declared, and names are distinct where the
parameters of every event are.
-/
namespace FlowGraph

/-- The numbers of sockets for execution that a kind of node may have on its two sides. -/
def Kind.Admits (inputs outputs : Nat) : Kind → Prop
  | event => inputs = 0 ∧ outputs ≠ 0
  | flow => inputs ≠ 0
  | function => inputs = 0 ∧ outputs = 0
  | async => inputs = 1 ∧ outputs ≠ 0

instance (i o : Nat) (k : Kind) : Decidable (k.Admits i o) := by
  cases k <;> unfold Kind.Admits <;> infer_instance

/-- A registry complains about the flow sockets of a definition exactly if its kind does not admit their numbers, or
if the behaviour is missing. -/
theorem Registry.shapeProblems_eq_nil {d : Definition} {inputs outputs : List SocketSpec} :
    shapeProblems d inputs outputs = [] ↔ d.behaviour.isMissing = false ∧
      d.kind.Admits (inputs.countP (·.isFlow)) (outputs.countP (·.isFlow)) := by
  unfold shapeProblems complaint
  simp only [← List.countP_eq_length_filter]
  cases d.kind <;> simp [Kind.Admits] <;> tauto

/-- Sockets for execution may be added where the kind does not count them. -/
theorem Kind.Admits.mono {k : Kind} {i o i' o' : Nat} (h : k.Admits i o) (hi : i ≤ i') (ho : o ≤ o')
    (hflow : k ≠ .flow → i' = i) (hfunction : k = .function → o' = o) : k.Admits i' o' := by
  cases k with
  | event =>
    have hi' := hflow (by decide)
    simp only [Admits] at h ⊢
    omega
  | flow =>
    simp only [Admits] at h ⊢
    omega
  | function =>
    have hi' := hflow (by decide)
    have ho' := hfunction rfl
    simp only [Admits] at h ⊢
    omega
  | async =>
    have hi' := hflow (by decide)
    simp only [Admits] at h ⊢
    omega

/-- What may be declared: parameters of events carry data, under names of their own where `apart`, and so do variables
where `data`. -/
structure Scope.Plain (apart data : Prop) (scope : Scope) : Prop where
  vars : data → ∀ name, scope.variableType? name ≠ some ValueType.flowName
  parameters : ∀ {name : String} {ps : List SocketSpec}, scope.eventParameters? name = some ps →
    ∀ p ∈ ps, p.isFlow = false ∧ p.name ≠ "exec"
  distinct : apart → ∀ {name : String} {ps : List SocketSpec}, scope.eventParameters? name = some ps →
    (ps.map (·.name)).Nodup

namespace SocketSource

/-- The names that the source gives itself are distinct, and none of them is one that a declaration may bring. -/
def isDistinct : SocketSource → Bool
  | fixed specs => decide (specs.map (·.name)).Nodup
  | eventParameters lead => decide (lead.map (·.name)).Nodup && lead.all (·.name = "exec")
  | variableValue lead => decide (lead.map (·.name)).Nodup && lead.all (·.name ≠ "value")
  | numbered => true
  | counted _ _ | refused _ => false

/-- Every socket is one that the source names itself or stands for a declaration. -/
def isNamed : SocketSource → Bool
  | fixed _ | eventParameters _ | variableValue _ => true
  | _ => false

variable {apart data : Prop} {source : SocketSource} {c : Configuration} {scope : Scope} {specs : List SocketSpec}

theorem numbered_inj {m n : Nat} (h : "then_" ++ toString m = "then_" ++ toString n) : m = n := by
  have hl := congrArg String.toList h
  rw [String.toList_append, String.toList_append, List.append_cancel_left_eq] at hl
  rw [← Graph.ofDigitChars_padded 0 m, ← Graph.ofDigitChars_padded 0 n, hl]

/-- The sockets of a side have names of their own, if those that its source adds cannot clash with its own. -/
theorem nodup_expand (hsource : source.isDistinct = true) (hscope : scope.Plain apart data) (hapart : apart)
    (h : source.expand c scope = .ok specs) : (specs.map (·.name)).Nodup := by
  cases source with
  | fixed own =>
    cases h
    exact of_decide_eq_true hsource
  | eventParameters lead =>
    obtain ⟨name, -, h⟩ := bind_eq_ok.1 h
    cases h
    obtain ⟨hlead, hexec⟩ := Bool.and_eq_true_iff.1 hsource
    rw [List.map_append]
    cases hps : name.bind scope.eventParameters? with
    | none => simpa using hlead
    | some ps =>
      obtain ⟨name, rfl, hps⟩ := Option.bind_eq_some_iff.1 hps
      refine List.nodup_append'.2 ⟨of_decide_eq_true hlead, hscope.distinct hapart hps, ?_⟩
      intro text hown hparameter
      obtain ⟨s, hs, rfl⟩ := List.mem_map.1 hown
      obtain ⟨p, hp, hname⟩ := List.mem_map.1 hparameter
      have hs := List.all_eq_true.1 hexec s hs
      exact (hscope.parameters hps p hp).2 (hname.trans (of_decide_eq_true hs))
  | variableValue lead =>
    obtain ⟨name, -, h⟩ := bind_eq_ok.1 h
    obtain ⟨hlead, hvalue⟩ := Bool.and_eq_true_iff.1 hsource
    split at h
    · cases h
      rw [List.map_append]
      refine List.nodup_append'.2 ⟨of_decide_eq_true hlead, List.nodup_singleton _, ?_⟩
      intro text hown hadded
      obtain ⟨s, hs, rfl⟩ := List.mem_map.1 hown
      exact of_decide_eq_true (List.all_eq_true.1 hvalue s hs) (List.mem_singleton.1 hadded)
    · cases h
      exact of_decide_eq_true hlead
  | numbered =>
    obtain ⟨n, -, h⟩ := bind_eq_ok.1 h
    cases h
    rw [List.map_map]
    exact List.nodup_range.map fun m n h => numbered_inj h
  | counted stem key => cases hsource
  | refused text => cases hsource

/-- Declarations bring no sockets for execution, but for a variable of that type. -/
theorem countP_expand (hsource : source.isNamed = true) (hscope : scope.Plain apart data)
    (hdata : data ∨ source.isOfVariable = false) (h : source.expand c scope = .ok specs) :
    specs.countP (·.isFlow) = source.own.countP (·.isFlow) := by
  cases source with
  | fixed own =>
    cases h
    rfl
  | eventParameters lead =>
    obtain ⟨name, -, h⟩ := bind_eq_ok.1 h
    cases h
    rw [List.countP_append, own, Nat.add_eq_left, List.countP_eq_zero]
    intro p hp
    cases hps : name.bind scope.eventParameters? with
    | none => simp [hps] at hp
    | some ps =>
      obtain ⟨name, rfl, hps'⟩ := Option.bind_eq_some_iff.1 hps
      rw [hps, Option.getD_some] at hp
      simp [(hscope.parameters hps' p hp).1]
  | variableValue lead =>
    obtain ⟨name, -, h⟩ := bind_eq_ok.1 h
    split at h
    · rename_i t ht
      cases h
      obtain ⟨name, rfl, ht⟩ := Option.bind_eq_some_iff.1 ht
      have hne : t ≠ ValueType.flowName := by
        rintro rfl
        exact hscope.vars (hdata.resolve_right (by simp [isOfVariable])) name ht
      simp [own, SocketSpec.isFlow, hne]
    · cases h
      rfl
  | numbered | counted stem key | refused text => cases hsource

end SocketSource

namespace Definition

/-- The sockets that the definition names itself have the shape of its kind, and declarations cannot change what the
kind counts. -/
structure Shapely (d : Definition) : Prop where
  distinct : d.inputs.isDistinct = true ∧ d.outputs.isDistinct = true
  admitted : d.kind.Admits (d.inputs.own.countP (·.isFlow)) (d.outputs.own.countP (·.isFlow))
  inputs : d.kind ≠ .flow → d.inputs.isNamed = true ∧ d.inputs.isOfVariable = false
  outputs : d.kind = .function → d.outputs.isNamed = true

instance (d : Definition) : Decidable d.Shapely :=
  decidable_of_iff ((d.inputs.isDistinct = true ∧ d.outputs.isDistinct = true) ∧
      d.kind.Admits (d.inputs.own.countP (·.isFlow)) (d.outputs.own.countP (·.isFlow)) ∧
      (d.kind ≠ .flow → d.inputs.isNamed = true ∧ d.inputs.isOfVariable = false) ∧
      (d.kind = .function → d.outputs.isNamed = true))
    ⟨fun ⟨h₁, h₂, h₃, h₄⟩ => ⟨h₁, h₂, h₃, h₄⟩, fun h => ⟨h.distinct, h.admitted, h.inputs, h.outputs⟩⟩

end Definition

/-- The names of the sockets of each side are distinct where `apart`, and the kind admits the sockets for execution; a
function node has none where `data`. -/
structure Node.Shapely (apart data : Prop) (n : Node) : Prop where
  distinct : apart → ∀ side : Side, ((side.sockets n).map (·.name)).Nodup
  admitted : (n.kind = .function → data) → n.kind.Admits (n.inputs.countP (·.isFlow)) (n.outputs.countP (·.isFlow))

theorem Catalogue.shapely_definitions : ∀ d ∈ coreNodes ++ vectorDefinitions ++ stateDefinitions, d.Shapely := by
  decide +kernel

namespace Graph

variable {apart data : Prop}

theorem map_name_of_outline {specs : List SocketSpec} {ss : List Socket}
    (h : specs.map SocketSpec.outline = ss.map Socket.outline) : ss.map (·.name) = specs.map (·.name) := by
  have hnames := congrArg (List.map Prod.fst) h
  rw [List.map_map, List.map_map] at hnames
  exact hnames.symm

theorem countP_isFlow_of_outline {specs : List SocketSpec} {ss : List Socket}
    (h : specs.map SocketSpec.outline = ss.map Socket.outline) :
    ss.countP (·.isFlow) = specs.countP (·.isFlow) := by
  have hcounts := congrArg (List.countP fun o : String × String => o.2 == ValueType.flowName) h
  rw [List.countP_map, List.countP_map] at hcounts
  exact hcounts.symm

/-- A node has its shape if its sockets were made from a definition of that shape, under plain declarations. -/
theorem Expands.shapely {scope : Scope} {n : Node} (h : Expands scope n) (hscope : scope.Plain apart data)
    (hd : n.definition.Shapely) : n.Shapely apart data := by
  obtain ⟨inputs, hin, hinputs⟩ := h.specs .input
  obtain ⟨outputs, hout, houtputs⟩ := h.specs .output
  constructor
  · intro hapart side
    cases side with
    | input =>
      rw [map_name_of_outline hinputs]
      exact SocketSource.nodup_expand hd.distinct.1 hscope hapart hin
    | output =>
      rw [map_name_of_outline houtputs]
      exact SocketSource.nodup_expand hd.distinct.2 hscope hapart hout
  · intro hdata
    have hins : n.inputs.countP (·.isFlow) = inputs.countP (·.isFlow) := countP_isFlow_of_outline hinputs
    have houts : n.outputs.countP (·.isFlow) = outputs.countP (·.isFlow) := countP_isFlow_of_outline houtputs
    rw [hins, houts]
    refine hd.admitted.mono ((SocketSource.own_prefix hin).sublist.countP_le) ((SocketSource.own_prefix hout).sublist.countP_le)
      ?_ ?_
    · intro hkind
      obtain ⟨hnamed, hvariable⟩ := hd.inputs hkind
      exact SocketSource.countP_expand hnamed hscope (.inr hvariable) hin
    · intro hkind
      exact SocketSource.countP_expand (hd.outputs hkind) hscope (.inl (hdata hkind)) hout

/-- Declarations are plain, and so were those that the nodes were made under. -/
structure Plainly (apart data : Prop) (g : Graph) : Prop where
  vars : data → ∀ x ∈ g.vars.entries, x.2.valueType.name ≠ ValueType.flowName
  events : apart → ∀ x ∈ g.events.entries, (x.2.parameters.map (·.name)).Nodup
  nodes : ∀ {k : Nat} {n : Node}, g.nodeAt? k = some n → ∃ scope : Scope, scope.Plain apart data ∧ Expands scope n

end Graph

/-- The operation declares an event with parameters that share a name. -/
def Edit.repeatsParameters (e : Edit) : Bool := e.parameters?.any fun ps => !decide (ps.map (·.name)).Nodup

/-- The operation declares a variable of the type of execution control, if there is none of its name. -/
def Edit.declaresFlow (e : Edit) : Bool := e.declaredType? == some ValueType.flowName

namespace Graph

variable {apart data : Prop} {g h : Graph} {r : Registry} {ds : List Definition}

theorem Plainly.of_empty (name : String) (r : Registry) (replace : Bool) (labels : Nat) :
    Plainly apart data { name := name, registry := r, replaceLinks := replace, labels := labels } := by
  refine ⟨by simp, by simp, ?_⟩
  intro k n hn
  simp [nodeAt?] at hn

theorem Plainly.scope (hg : Plainly apart data g) (hs : Sourced r g) : g.scope.Plain apart data := by
  constructor
  · intro hdata name hname
    obtain ⟨x, hx, htype⟩ := Option.map_eq_some_iff.1 hname
    exact hg.vars hdata _ (Table.mem_entries_of_get? hx) htype
  · intro name ps hps p hp
    obtain ⟨e, he, rfl⟩ := Option.map_eq_some_iff.1 hps
    obtain ⟨hflow, hexec, -⟩ := (hs.events _ (Table.mem_entries_of_get? he)).2 p hp
    exact ⟨hflow, hexec⟩
  · intro hapart name ps hps
    obtain ⟨e, he, rfl⟩ := Option.map_eq_some_iff.1 hps
    exact hg.events hapart _ (Table.mem_entries_of_get? he)

/-- Declarations stay plain, so new nodes are made under plain ones. -/
theorem Plainly.step {e : Edit} (hg : Plainly apart data g) (hr : r.Standard ds) (hs : Sourced r g) (h' : Step g e h)
    (hapart : apart → e.repeatsParameters = false) (hdata : data → e.declaresFlow = false) : Plainly apart data h := by
  refine ⟨fun hd x hx => ?_, fun ha x hx => ?_, fun hm => ?_⟩
  · rcases h'.vars x hx with ⟨y, hy, -, htype⟩ | ⟨typeName, he, ht⟩
    · rw [← htype]
      exact hg.vars hd y hy
    · rw [hs.registry] at ht
      rw [(hr.valueType_spec ht).1]
      rintro rfl
      simpa [Edit.declaresFlow, he] using hdata hd
  · rcases h'.events x hx with hx | ⟨ps, he, hout⟩
    · exact hg.events ha x hx
    · have hnames := congrArg (List.map Prod.fst) hout
      rw [List.map_map, List.map_map] at hnames
      have hps := hapart ha
      simp only [Edit.repeatsParameters, he, Option.any_some, Bool.not_eq_false', decide_eq_true_eq] at hps
      exact hnames ▸ hps
  · rcases h'.nodes hm with ⟨n, hn, hmn⟩ | hnew
    · obtain ⟨scope, hscope, hexpands⟩ := hg.nodes hn
      exact ⟨scope, hscope, hexpands.follow hmn⟩
    · exact ⟨g.scope, hg.scope hs, hnew⟩

/-- Every history of operations on registered types that are plain as far as that is asked for ends in a plain graph. -/
theorem Plainly.edits {es : List Edit} (hr : r.Standard ds) (hs : Sourced r g) (hi : Indexed g)
    (hes : ∀ e ∈ es, e.isRegistered = true) (hg : Plainly apart data g)
    (hapart : apart → ∀ e ∈ es, e.repeatsParameters = false) (hdata : data → ∀ e ∈ es, e.declaresFlow = false) :
    Sourced r (g.edits es) ∧ Plainly apart data (g.edits es) := by
  have hstep : ∀ g : Graph, ∀ e ∈ es, ∀ h, (Sourced r g ∧ Indexed g) ∧ Plainly apart data g → g.attempt e = .ok h →
      (Sourced r h ∧ Indexed h) ∧ Plainly apart data h := by
    rintro g e he h ⟨⟨hs, hi⟩, hg⟩ ha
    exact ⟨⟨hs.attempt hr hi (hes e he) ha, hi.attempt ha⟩, hg.step hr hs (.attempt hi ha) (fun h => hapart h e he)
      (fun h => hdata h e he)⟩
  obtain ⟨⟨hs', -⟩, hg'⟩ := edits_invariant hstep ⟨⟨hs, hi⟩, hg⟩
  exact ⟨hs', hg'⟩

/-- Every node of every graph that was built by editing has the shape that the checks of a registry ask of its definition:
the kinds of nodes have their sockets for execution, function nodes if no variable was declared to be of that type, and
the sockets of each side have names of their own if no event was declared with parameters that share one. -/
theorem shapely_of_edits {services : List Service} {check : Bool}
    (hr : Registry.create Catalogue.defaultProfiles services check = .ok r) (name : String) (policy : Bool) (labels : Nat)
    (es : List Edit) (hes : ∀ e ∈ es, e.isRegistered = true)
    (hg : g = Graph.edits { name := name, registry := r, replaceLinks := policy, labels := labels } es) :
    ∀ n ∈ g.nodes, n.Shapely (∀ e ∈ es, e.repeatsParameters = false) (∀ e ∈ es, e.declaresFlow = false) := by
  have hstandard := Registry.standard_of_create hr
  obtain ⟨hs, hplain⟩ := (Plainly.of_empty name r policy labels).edits hstandard (.of_empty name r policy labels)
    (.of_empty rfl rfl) hes id id
  rw [← hg] at hs hplain
  intro n hn
  obtain ⟨k, hk⟩ := mem_nodes_nodeAt? hn
  obtain ⟨scope, hscope, hexpands⟩ := hplain.nodes hk
  exact hexpands.shapely hscope (Catalogue.shapely_definitions _ (hstandard.definition_spec (hs.nodes hk).known).2)

/-- A function node under a variable of a data type, and an event node with two parameters. -/
def plainEdits : List Edit := [
  .declareVariable "speed" "float" (.int 3),
  .declareEvent "Hit" [{ name := "place", valueType := "vec2" }, { name := "text", valueType := "string" }],
  .add "CustomEvent" (some "hit") [("event_name", .str "Hit")] noPosition,
  .add "GetVariable" (some "speed") [("variable_name", .str "speed")] noPosition,
  .add "Sequence" (some "steps") [("num_outputs", .int 12)] noPosition,
  .removeEvent "Hit"]

/-- Ordinary nodes have the sockets of their definitions. -/
theorem shapely_of_edits_plain : (edits { registry := Catalogue.defaults } plainEdits).nodes.map (·.outputs.length) = [3, 1, 12] ∧
    ∀ n ∈ (edits { registry := Catalogue.defaults } plainEdits).nodes,
      (∀ side : Side, ((side.sockets n).map (·.name)).Nodup) ∧
        n.kind.Admits (n.inputs.countP (·.isFlow)) (n.outputs.countP (·.isFlow)) := by
  have hplain : (∀ e ∈ plainEdits, e.isRegistered = true) ∧ (∀ e ∈ plainEdits, e.repeatsParameters = false) ∧
      ∀ e ∈ plainEdits, e.declaresFlow = false := by
    decide
  have houtputs : (edits { registry := Catalogue.defaults } plainEdits).nodes.map (·.outputs.length) = [3, 1, 12] := by
    rw [Catalogue.defaults_eq_written]
    decide +kernel
  refine ⟨houtputs, fun n hn => ?_⟩
  obtain ⟨hdistinct, hadmitted⟩ := shapely_of_edits Catalogue.create_defaults "Untitled Graph" true labelRange plainEdits
    hplain.1 rfl n hn
  exact ⟨hdistinct hplain.2.1, hadmitted fun _ => hplain.2.2⟩

/-- A variable of execution control, and an event that has two parameters of one name. -/
def crookedEdits : List Edit := [
  .declareVariable "way" "flow" .none,
  .add "GetVariable" (some "way") [("variable_name", .str "way")] noPosition,
  .declareEvent "Hit" [{ name := "place", valueType := "float" }, { name := "place", valueType := "float" }],
  .add "CustomEvent" (some "hit") [("event_name", .str "Hit")] noPosition]

/-- The checks of the registry find nothing, and yet a function node has an output for execution, and an event node has
two outputs of one name. -/
theorem not_shapely_crooked : Catalogue.defaults.problems = .ok [] ∧ (∀ e ∈ crookedEdits, e.isRegistered = true) ∧
    (∃ n ∈ (edits { registry := Catalogue.defaults } crookedEdits).nodes,
      ¬ n.kind.Admits (n.inputs.countP (·.isFlow)) (n.outputs.countP (·.isFlow))) ∧
    ∃ n ∈ (edits { registry := Catalogue.defaults } crookedEdits).nodes, ¬ (n.outputs.map (·.name)).Nodup := by
  rw [Catalogue.defaults_eq_written]
  decide +kernel

end Graph

end FlowGraph
