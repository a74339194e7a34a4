import FlowGraph.Proofs.Relinking

/-!
The round trip of graphs. Main statement: a graph of the catalogue's types, built by editing, with literals of
their types and sockets as its definitions have them, is read back from its document as it was, and is
written as the same document again. Names have to be texts of whole characters for it.
-/
namespace FlowGraph

/-- Tables with the same keys whose values go together have values that go together under every key. -/
theorem Table.get?_of_forall₂ {α β : Type} {R : α → β → Prop} {t : Table String α} {t' : Table String β}
    (hkeys : t'.keys = t.keys) (hvalues : List.Forall₂ R t.values t'.values) (k : String) :
    (t.get? k = none ∧ t'.get? k = none) ∨ ∃ x y, t.get? k = some x ∧ t'.get? k = some y ∧ R x y := by
  obtain ⟨es⟩ := t
  obtain ⟨fs⟩ := t'
  simp only [keys, values] at hkeys hvalues
  induction es generalizing fs with
  | nil =>
    cases fs with
    | nil => exact .inl ⟨rfl, rfl⟩
    | cons f fs => cases hkeys
  | cons e es ih =>
    cases fs with
    | nil => cases hkeys
    | cons f fs =>
      simp only [List.map_cons, List.cons.injEq, List.forall₂_cons] at hkeys hvalues
      by_cases hk : e.1 = k
      · refine .inr ⟨e.2, f.2, ?_, ?_, hvalues.1⟩
        · simp [get?, hk]
        · simp [get?, hkeys.1, hk]
      · rw [get?, get?, List.find?_cons_of_neg (by simpa using hk), List.find?_cons_of_neg (by simpa [hkeys.1] using hk)]
        exact ih fs hkeys.2 hvalues.2

/-- Values under names that go with other values. -/
theorem Table.zip_names {α β : Type} {R : α → β → Prop} {xs : List α} {ys : List β} (name : α → String)
    (h : List.Forall₂ R xs ys) : Table.keys ⟨(xs.map name).zip ys⟩ = xs.map name ∧
      Table.values ⟨(xs.map name).zip ys⟩ = ys := by
  have hlen := h.length_eq
  constructor
  · apply List.map_fst_zip
    simp [hlen]
  · apply List.map_snd_zip
    simp [hlen]

namespace Graph

variable {g h : Graph} {r : Registry} {ds : List Definition}

/-- The nodes of a graph that were put in one after the other. -/
theorem nodes_of_arena {ms : List Node} (harena : h.arena = ms.toArray)
    (hids : h.ids.entries = (ms.zipIdx 0).map fun m => (m.1.id, m.2)) : h.nodes = ms := by
  have hall (done rest : List Node) :
      (List.range' done.length rest.length).filterMap (fun k => (done ++ rest)[k]?) = rest := by
    induction rest generalizing done with
    | nil => rfl
    | cons m rest ih =>
      have hrest := ih (done ++ [m])
      simp only [List.length_append, List.length_singleton, List.append_assoc, List.singleton_append] at hrest
      have hm : (done ++ m :: rest)[done.length]? = some m := by simp
      rw [List.length_cons, List.range'_succ, List.filterMap_cons_some hm, hrest]
  have hvalues : h.ids.values = List.range' 0 ms.length := by
    simp [Table.values, hids, Function.comp_def]
  have hnodes : h.nodeAt? = fun k => ms[k]? := by
    funext k
    simp [nodeAt?, harena]
  rw [nodes, hvalues, hnodes]
  exact hall [] ms

/-- Declarations that match have the same names and types. -/
theorem agrees_of_matches (hvarNames : h.vars.keys = g.vars.keys)
    (hvars : List.Forall₂ Variable.Matches g.vars.values h.vars.values) (heventNames : h.events.keys = g.events.keys)
    (hevents : List.Forall₂ CustomEvent.Matches g.events.values h.events.values) : g.scope.Agrees h.scope := by
  constructor
  · intro name
    simp only [scope]
    rcases Table.get?_of_forall₂ hvarNames hvars name with ⟨hx, hy⟩ | ⟨x, y, hx, hy, hxy⟩
    · rw [hx, hy]
    · rw [hx, hy, Option.map_some, Option.map_some, hxy.valueType]
  · intro name
    simp only [scope]
    rcases Table.get?_of_forall₂ heventNames hevents name with ⟨hx, hy⟩ | ⟨x, y, hx, hy, hxy⟩
    · rw [hx, hy]
    · rw [hx, hy, Option.map_some, Option.map_some, Option.map_some, Option.map_some,
        map_eq_of_forall₂ (hxy.parameters.imp fun _ _ h => h.outline)]

/-- The declarations of a graph that match those of one from the registry are typed. -/
theorem scopeTyped_of_matches (hg : Sourced r g) (hvarNames : h.vars.keys = g.vars.keys)
    (hvars : List.Forall₂ Variable.Matches g.vars.values h.vars.values)
    (hdefaults : ∀ e ∈ h.events.values, ∀ p ∈ e.parameters, r.Types p.valueType p.default) : h.scope.Typed r := by
  constructor
  · intro name t ht
    obtain ⟨y, hy, rfl⟩ := Option.map_eq_some_iff.1 ht
    rcases Table.get?_of_forall₂ hvarNames hvars name with ⟨-, hnone⟩ | ⟨x, y', hx, hy', hxy⟩
    · rw [hnone] at hy
      cases hy
    · rw [hy] at hy'
      cases hy'
      rw [hxy.valueType]
      exact ⟨_, (hg.vars _ (Table.mem_entries_of_get? hx)).2⟩
  · intro name ps hps
    obtain ⟨e, he, rfl⟩ := eventParameters?_scope hps
    exact hdefaults e he

/-- What is typed stays typed when wires are laid. -/
theorem Typed.of_bare (hh : Typed h) {h' : Graph} (hb : h'.bare = h.bare)
    (hfresh : ∀ m ∈ h.nodes, ∀ s ∈ m.inputs, s.isFlow = false → h.registry.Types s.valueType s.value) : Typed h' := by
  have hregistry : h'.bare.registry = h.bare.registry := by rw [hb]
  have hvars : h'.bare.vars = h.bare.vars := by rw [hb]
  have hevents : h'.bare.events = h.bare.events := by rw [hb]
  simp only [bare] at hregistry hvars hevents
  refine ⟨?_, hvars ▸ hh.vars, hregistry ▸ hevents ▸ hh.defaults⟩
  intro m' hm' s hs
  have hmem : m'.bare ∈ h.nodes.map Node.bare := by
    rw [← nodes_bare, ← hb, nodes_bare]
    exact List.mem_map_of_mem hm'
  obtain ⟨m, hm, hmm⟩ := List.mem_map.1 hmem
  obtain ⟨hin, hflow, -⟩ := mem_literals.1 hs
  have hinputs : m.inputs.map Socket.bare = m'.inputs.map Socket.bare := congrArg Node.inputs hmm
  have hsocket : s.bare ∈ m.inputs.map Socket.bare := by
    rw [hinputs]
    exact List.mem_map_of_mem hin
  obtain ⟨t, ht, hts⟩ := List.mem_map.1 hsocket
  have htype : t.bare.valueType = s.bare.valueType := by rw [hts]
  have hvalue : t.bare.value = s.bare.value := by rw [hts]
  simp only [Socket.bare] at htype hvalue
  rw [hregistry, ← htype, ← hvalue]
  refine hfresh m hm t ht ?_
  rw [Socket.isFlow, htype]
  exact hflow

theorem Sourced.map_name_vars (hg : Sourced r g) : g.vars.values.map (·.name) = g.vars.keys := by
  rw [Table.values, List.map_map]
  exact List.map_congr_left fun e he => (hg.vars e he).1

theorem Sourced.map_name_events (hg : Sourced r g) : g.events.values.map (·.name) = g.events.keys := by
  rw [Table.values, List.map_map]
  exact List.map_congr_left fun e he => (hg.events e he).1

/-- The declarations of a graph come back from its document. -/
theorem loadDeclarations_ok {d : Document} (hd : Stores g d) (hg : Sourced r g) (ht : Typed g) (start : Graph)
    (hreg : start.registry = r) (hvars : start.vars = {}) (hevents : start.events = {}) :
    ∃ h₁ h₂ vars events issued labels, d.vars.foldlM Document.loadVariable start = .ok h₁ ∧
      d.events.foldlM Document.loadEvent h₁ = .ok h₂ ∧
      h₂ = { start with vars := vars, events := events, issued := issued, labels := labels } ∧
      vars.keys = g.vars.keys ∧ List.Forall₂ Variable.Matches g.vars.values vars.values ∧
      (∀ y ∈ vars.values, y.valueType.Holds y.initial) ∧ events.keys = g.events.keys ∧
      List.Forall₂ CustomEvent.Matches g.events.values events.values ∧
      ∀ f ∈ events.values, ∀ p ∈ f.parameters, r.Types p.valueType p.default := by
  obtain ⟨ys, issued₁, labels₁, hload₁, hys, hysTyped⟩ := @loadVariables_ok start _ _ hd.vars (by
      intro x hx
      obtain ⟨e, he, rfl⟩ := List.mem_map.1 hx
      exact hreg ▸ (hg.vars e he).2) ht.vars (by
      rw [hvars, hg.map_name_vars]
      exact hg.varNames)
  obtain ⟨fs, issued₂, labels₂, hload₂, hfs, hfsTyped⟩ := @loadEvents_ok g { start with
        vars := ⟨start.vars.entries ++ (g.vars.values.map (·.name)).zip ys⟩, issued := issued₁, labels := labels₁ }
      _ _ (hreg.trans hg.registry.symm) hd.events (by
      intro e he p hp
      obtain ⟨entry, hentry, rfl⟩ := List.mem_map.1 he
      obtain ⟨hflow, hname, -⟩ := (hg.events entry hentry).2 p hp
      exact ⟨hflow, hname⟩) ht.defaults (by
      rw [hevents, hg.map_name_events]
      exact hg.eventNames)
  obtain ⟨hvarKeys, hvarValues⟩ := Table.zip_names (·.name) hys
  obtain ⟨heventKeys, heventValues⟩ := Table.zip_names (·.name) hfs
  refine ⟨_, _, ⟨(g.vars.values.map (·.name)).zip ys⟩, ⟨(g.events.values.map (·.name)).zip fs⟩, issued₂, labels₂,
    hload₁, hload₂, ?_, ?_, ?_, ?_, ?_, ?_, ?_⟩
  · simp [hvars, hevents]
  · exact hvarKeys.trans hg.map_name_vars
  · rw [hvarValues]
    exact hys
  · rw [hvarValues]
    exact hysTyped
  · exact heventKeys.trans hg.map_name_events
  · rw [heventValues]
    exact hfs
  · rw [heventValues, ← hreg]
    exact hfsTyped

/-- The nodes of a graph come back between declarations that match. -/
theorem loadStored_ok (hr : r.Standard ds) (hsound : ∀ d ∈ ds, d.isSound = true) {d : Document} (hd : Stores g d)
    (hg : Sourced r g) (hi : Indexed g) (ht : Typed g) (hs : Settled g) {h : Graph} (hreg : h.registry = r)
    (harena : h.arena = #[]) (hids : h.ids = {}) (hvarNames : h.vars.keys = g.vars.keys)
    (hvars : List.Forall₂ Variable.Matches g.vars.values h.vars.values) (heventNames : h.events.keys = g.events.keys)
    (hevents : List.Forall₂ CustomEvent.Matches g.events.values h.events.values)
    (hdefaults : ∀ f ∈ h.events.values, ∀ p ∈ f.parameters, r.Types p.valueType p.default) :
    ∃ h' arena ids labels, d.nodes.foldlM Document.loadNode h = .ok h' ∧
      h' = { h with arena := arena, ids := ids, labels := labels } ∧
      List.Forall₂ Node.Matches g.nodes h'.nodes ∧
      ∀ m ∈ h'.nodes, ∀ s ∈ m.inputs, s.isFlow = false → r.Types s.valueType s.value := by
  have hagrees := agrees_of_matches hvarNames hvars heventNames hevents
  obtain ⟨ms, labels, hload, hms, hfresh⟩ := loadNodes_ok hr hsound hg.registry hreg
    (scopeTyped_of_matches hg hvarNames hvars hdefaults) hd.nodes
    (fun n hn => (mem_nodes_nodeAt? hn).elim fun k hk => hg.nodes hk)
    (fun n hn side => (SocketSource.expand_congr hagrees _ _).trans (hs.expanded n hn side))
    (by
      rw [hids, hi.map_id_nodes]
      exact hi.keys)
    (fun n hn => hs.distinct n hn .input) (hg.registry ▸ ht.literals)
  have hnodes : Graph.nodes { h with
      arena := h.arena ++ ms.toArray
      ids := ⟨h.ids.entries ++ (ms.zipIdx h.arena.size).map fun m => (m.1.id, m.2)⟩
      labels := labels } = ms := by
    apply nodes_of_arena
    · simp [harena]
    · simp [hids, harena]
  refine ⟨_, _, _, labels, hload, rfl, ?_, ?_⟩
  · rw [hnodes]
    exact hms
  · rw [hnodes]
    exact fun m hm s hs hflow => (hfresh m hm .input).typed s hs hflow

/-- A graph that can be stored is read back from its document, and written as the same document again. -/
theorem restored (hr : r.Standard ds) (hsound : ∀ d ∈ ds, d.isSound = true) (hg : Sourced r g) (hi : Indexed g)
    (ht : Typed g) (hs : Settled g) (replace : Bool) (labels : Nat) :
    ∃ d h, g.toDocument = .ok d ∧
      ofValue d.toValue { registry := r, replaceLinks := replace, labels := labels } = .ok h ∧ g.Matches h ∧
      ∃ d', h.toDocument = .ok d' ∧ d'.toValue.renewed = d.toValue.renewed := by
  obtain ⟨d, hdoc⟩ := ht.exists_toDocument
  have hd := toDocument_eq_ok hdoc
  have hempty : Indexed { name := d.name, registry := r, replaceLinks := replace, labels := labels } :=
    Indexed.of_empty rfl rfl
  obtain ⟨h₁, h₂, vars, events, issued, labels₂, hload₁, hload₂, hh₂, hvarNames, hvars, hinitials, heventNames, hevents,
    hdefaults⟩ := loadDeclarations_ok hd hg ht
      { name := d.name, registry := r, replaceLinks := replace, labels := labels } rfl rfl rfl
  have hi₁ : Indexed h₁ := foldlM_invariant (fun _ _ _ _ hb hl => hb.loadVariable hl) hempty hload₁
  have hi₂ : Indexed h₂ := foldlM_invariant (fun _ _ _ _ hb hl => hb.loadEvent hl) hi₁ hload₂
  have hvars₂ : h₂.vars = vars := by rw [hh₂]
  have hevents₂ : h₂.events = events := by rw [hh₂]
  obtain ⟨h₃, arena, ids, labels₃, hload₃, hh₃, hnodes, htyped⟩ :=
    loadStored_ok hr hsound hd hg hi ht hs (h := h₂) (by rw [hh₂]) (by rw [hh₂]) (by rw [hh₂]) (hvars₂ ▸ hvarNames)
      (hvars₂ ▸ hvars) (hevents₂ ▸ heventNames) (hevents₂ ▸ hevents) (hevents₂ ▸ hdefaults)
  have hi₃ : Indexed h₃ := foldlM_invariant (fun _ _ _ _ hb hl => hb.loadNode hl) hi₂ hload₃
  subst hh₂ hh₃
  obtain ⟨h, hload, hbare, hlinks⟩ := @loadLinks_ok g _ hi g.links hi₃ hg.registry.symm hnodes rfl
  have hih : Indexed h := foldlM_invariant (fun _ _ _ _ hb hl => hb.loadLink hl) hi₃ hload
  have hregistry : h.bare.registry = r := by rw [hbare]; rfl
  have hname : h.bare.name = d.name := by rw [hbare]; rfl
  have hvarsEq : h.bare.vars = vars := by rw [hbare]; rfl
  have heventsEq : h.bare.events = events := by rw [hbare]; rfl
  simp only [bare] at hregistry hname hvarsEq heventsEq
  have hmatches : g.Matches h :=
    ⟨hname.trans hd.name, hvarsEq ▸ hvarNames, hvarsEq ▸ hvars, heventsEq ▸ heventNames, heventsEq ▸ hevents,
      nodes_of_bare hbare hnodes, hlinks⟩
  have hth : Typed h := by
    refine Typed.of_bare ⟨?_, hinitials, hdefaults⟩ hbare htyped
    intro m hm s hs
    exact htyped m hm s (mem_literals.1 hs).1 (mem_literals.1 hs).2.1
  obtain ⟨d', hdoc'⟩ := hth.exists_toDocument
  refine ⟨d, h, hdoc, ?_, hmatches, d', hdoc', ?_⟩
  · have hread : Document.ofValue d.toValue = .ok d := by
      rw [Document.ofValue, Document.check_toValue]
    rw [← hd.links] at hload
    exact bind_eq_ok.2 ⟨d, hread, bind_eq_ok.2 ⟨h₁, hload₁, bind_eq_ok.2 ⟨_, hload₂, bind_eq_ok.2 ⟨_, hload₃, hload⟩⟩⟩⟩
  · exact hmatches.document (hregistry.trans hg.registry.symm) hi hih ht hth
      (fun n hn => hs.distinct n hn .input) hd (toDocument_eq_ok hdoc')

/-- Whatever graph was built by editing from registered types of the default profiles: if its literals are of
their types and its sockets are those of its definitions, it comes back from its document as it was. -/
theorem restored_of_edits {services : List Service} {check : Bool}
    (hr : Registry.create Catalogue.defaultProfiles services check = .ok r) (name : String) (policy : Bool)
    (labels : Nat) (es : List Edit) (hes : ∀ e ∈ es, e.isRegistered = true)
    (hg : g = edits { name := name, registry := r, replaceLinks := policy, labels := labels } es) (ht : Typed g)
    (hs : Settled g) (policy' : Bool) (labels' : Nat) :
    ∃ d h, g.toDocument = .ok d ∧
      ofValue d.toValue { registry := r, replaceLinks := policy', labels := labels' } = .ok h ∧ g.Matches h ∧
      ∃ d', h.toDocument = .ok d' ∧ d'.toValue.renewed = d.toValue.renewed := by
  have hstandard := Registry.standard_of_create hr
  obtain ⟨hsourced, hindexed⟩ := (Sourced.of_empty name r policy labels).edits hstandard (Indexed.of_empty rfl rfl) hes
  rw [← hg] at hsourced hindexed
  exact restored hstandard Catalogue.isSound_definitions hsourced hindexed ht hs policy' labels'

/-- Declarations of both kinds, sockets that depend on them, a literal, a conversion and a NaN. -/
def sampleEdits : List Edit := [
  .declareVariable "speed" "float" (.float .nan),
  .declareEvent "Hit" [{ name := "place", valueType := "vec2" },
    { name := "text", valueType := "string", default := .str "ouch" }],
  .add "CustomEvent" (some "hit") [("event_name", .str "Hit")] noPosition,
  .add "GetVariable" (some "speed") [("variable_name", .str "speed")] (.list [.int 1, .int 2]),
  .add "Log" (some "log") [] noPosition,
  .connect ⟨"hit", "exec", "log", "exec"⟩ none,
  .connect ⟨"speed", "value", "log", "text"⟩ none,
  .setLiteral "log" "severity" (.str "error")]

def sample : Graph := edits { name := "sample", registry := Catalogue.defaults } sampleEdits

theorem restored_of_edits_sample : (sample.nodes.length = 3 ∧ sample.links.length = 2) ∧ ∃ d h,
    sample.toDocument = .ok d ∧ ofValue d.toValue { registry := Catalogue.defaults } = .ok h ∧ sample.Matches h ∧
      ∃ d', h.toDocument = .ok d' ∧ d'.toValue.renewed = d.toValue.renewed := by
  have hsample : (sample.nodes.length = 3 ∧ sample.links.length = 2) ∧ Typed sample ∧ Settled sample := by
    rw [sample, Catalogue.defaults_eq_written]
    decide +kernel
  exact ⟨hsample.1, restored_of_edits Catalogue.create_defaults "sample" true labelRange sampleEdits (by decide) rfl
    hsample.2.1 hsample.2.2 true labelRange⟩

end Graph

end FlowGraph
