import FlowGraph.Proofs.Filling
import FlowGraph.Proofs.RoundTrip
import FlowGraph.Proofs.Shapes

/-!
Reloading of graphs that the checks pass. The sockets of a node are settled when it comes in, the reader makes them from
the declarations at the end, and the checks ask of a setting only that what it names is declared. Main statement: a graph
in which the checks find no problem is written and read back if its nodes came in under the declarations that they name
as these are now; the defaults of events have to be of their types, and names of their own for the parameters of each
event and texts of whole characters for it.
-/
namespace FlowGraph

def Edit.setsLiteral : Edit → Bool
  | setLiteral _ _ _ => true
  | _ => false

/-- The defaults that the operation gives to the parameters of an event are of their types. -/
def Edit.Fits (r : Registry) (e : Edit) : Prop :=
  ∀ ps ∈ e.parameters?, ∀ p ∈ ps, p.default.isNone = true ∨ r.Types p.valueType p.default

instance (r : Registry) (e : Edit) : Decidable (e.Fits r) := inferInstanceAs (Decidable (∀ _ ∈ _, _))

def SocketSource.named? (c : Configuration) (key : String) : Option String := (setting c key).key?.toOption.join

/-- What the settings name is declared in the first scope as it is in the second, as far as it is declared there. -/
structure Scope.Keeps (before now : Scope) (c : Configuration) : Prop where
  vars : ∀ name ∈ SocketSource.named? c variableKey, ∀ t ∈ now.variableType? name, before.variableType? name = some t
  events : ∀ name ∈ SocketSource.named? c eventKey, ∀ ps ∈ now.eventParameters? name,
    (before.eventParameters? name).map (·.map SocketSpec.outline) = some (ps.map SocketSpec.outline)

instance (before now : Scope) (c : Configuration) : Decidable (before.Keeps now c) :=
  decidable_of_iff ((∀ name ∈ SocketSource.named? c variableKey, ∀ t ∈ now.variableType? name, before.variableType? name = some t) ∧
      ∀ name ∈ SocketSource.named? c eventKey, ∀ ps ∈ now.eventParameters? name,
        (before.eventParameters? name).map (·.map SocketSpec.outline) = some (ps.map SocketSpec.outline))
    ⟨fun h => ⟨h.1, h.2⟩, fun h => ⟨h.vars, h.events⟩⟩

theorem Node.Follows.trans {n m l : Node} (h : l.Follows m) (h' : m.Follows n) : l.Follows n :=
  ⟨h.origin.trans h'.origin, fun side => (h.outlines side).trans (h'.outlines side)⟩

namespace Graph

variable {r : Registry} {ds : List Definition} {g h : Graph}

/-- The declarations under which a list of operations makes the node at a place. -/
def madeUnder? (g : Graph) : List Edit → Nat → Option Scope
  | [], _ => none
  | e :: es, k =>
    if (g.nodeAt? k).isNone && ((g.edit e).nodeAt? k).isSome then some g.scope else (g.edit e).madeUnder? es k

section Sockets

theorem Step.edit (hi : Indexed g) (e : Edit) : Step g e (g.edit e) ∧ Indexed (g.edit e) := by
  unfold Graph.edit
  cases ha : g.attempt e with
  | ok h => exact ⟨.attempt hi ha, hi.attempt ha⟩
  | error f => exact ⟨.of_bare rfl, hi⟩

/-- A node at the end was there at the start, or it has the sockets that it got from the declarations it was made under. -/
theorem expands_of_edits (hi : Indexed g) {es : List Edit} {k : Nat} {n : Node} (hn : (g.edits es).nodeAt? k = some n) :
    (∃ m, g.nodeAt? k = some m ∧ n.Follows m) ∨
      g.nodeAt? k = none ∧ ∃ scope, g.madeUnder? es k = some scope ∧ Expands scope n := by
  induction es generalizing g with
  | nil => exact .inl ⟨n, hn, .refl n⟩
  | cons e es ih =>
    obtain ⟨hstep, hi'⟩ := Step.edit hi e
    rcases ih hi' hn with ⟨m, hm, hnm⟩ | ⟨hnone, scope, hscope, hexpands⟩
    · cases hg : g.nodeAt? k with
      | some m₀ =>
        obtain ⟨m', hm', hfollows⟩ := hstep.kept hg
        cases hm.symm.trans hm'
        exact .inl ⟨m₀, rfl, hnm.trans hfollows⟩
      | none =>
        refine .inr ⟨rfl, g.scope, ?_, (hstep.made hg hm).follow hnm⟩
        simp [madeUnder?, hg, hm]
    · have hg : g.nodeAt? k = none := by
        refine Option.eq_none_iff_forall_ne_some.2 fun m₀ hg => ?_
        obtain ⟨m', hm', -⟩ := hstep.kept hg
        cases hnone.symm.trans hm'
      refine .inr ⟨hg, scope, ?_, hexpands⟩
      simp [madeUnder?, hnone, hscope]

/-- Where what the settings name is declared, and as it was before, the sockets are as before. -/
theorem expand_of_keeps {before : Scope} {n : Node} (hkeeps : before.Keeps g.scope n.configuration) (hn : g.Refers n)
    (source : SocketSource) : (source.expand n.configuration g.scope).map (·.map SocketSpec.outline) =
      (source.expand n.configuration before).map (·.map SocketSpec.outline) := by
  cases source with
  | eventParameters lead =>
    simp only [SocketSource.expand]
    cases hv : n.configuration.get? eventKey with
    | none => simp [SocketSource.setting, hv, Value.key?, Value.hashed, bind, Except.bind, pure, Except.pure]
    | some v =>
      obtain ⟨e, he⟩ := hn.events v hv
      obtain ⟨name, hname, he⟩ := bind_eq_ok.1 he
      simp only [pure, Except.pure, Except.ok.injEq, Option.bind_eq_some_iff] at he
      obtain ⟨name, rfl, he⟩ := he
      have hnow : g.scope.eventParameters? name = some e.parameters := by simp [scope, he]
      have hbefore := hkeeps.events name (by simp [SocketSource.named?, SocketSource.setting, hv, hname, Except.toOption]) _ hnow
      obtain ⟨ps, hps, hout⟩ := Option.map_eq_some_iff.1 hbefore
      simp [SocketSource.setting, hv, hname, hnow, hps, bind, Except.bind, pure, Except.pure, Except.map, hout]
  | variableValue lead =>
    simp only [SocketSource.expand]
    cases hv : n.configuration.get? variableKey with
    | none => simp [SocketSource.setting, hv, Value.key?, Value.hashed, bind, Except.bind, pure, Except.pure]
    | some v =>
      obtain ⟨x, hx⟩ := hn.vars v hv
      obtain ⟨name, hname, hx⟩ := bind_eq_ok.1 hx
      simp only [pure, Except.pure, Except.ok.injEq, Option.bind_eq_some_iff] at hx
      obtain ⟨name, rfl, hx⟩ := hx
      have hnow : g.scope.variableType? name = some x.valueType.name := by simp [scope, hx]
      have hbefore := hkeeps.vars name (by simp [SocketSource.named?, SocketSource.setting, hv, hname, Except.toOption]) _ hnow
      simp only [SocketSource.setting, hv, Option.getD_some, hname, bind, Except.bind, Option.bind_some, hnow, hbefore]
  | _ => rfl

end Sockets

namespace Filled

/-- Declarations may go. -/
theorem drop (hg : Filled g) (hregistry : h.registry = g.registry) (hnodes : ∀ k, h.nodeAt? k = g.nodeAt? k)
    (hvars : h.vars.entries ⊆ g.vars.entries) (hevents : h.events.entries ⊆ g.events.entries) : Filled h where
  sockets := fun {k _} hn => hregistry.symm ▸ hg.sockets (hnodes k ▸ hn)
  states := fun {k _} hn => hg.states (hnodes k ▸ hn)
  vars := fun x hx => hg.vars x (hvars hx)
  events := fun x hx => hregistry.symm ▸ hg.events x (hevents hx)

theorem disconnectAll (hg : Filled g) (hi : Indexed g) (ls : List Link) : Filled (g.disconnectAll ls) :=
  hg.of_bare (hi.cut_disconnectAll ls).bare

/-- Setting a variable keeps its value of its type. -/
theorem setVariable (hr : r.Standard ds) (hs : Sourced r g) (hg : Filled g) {name : String} {v : Value}
    {typeName : Option String} {told : Option Value} (hset : g.setVariable name v typeName = .ok (h, told)) : Filled h := by
  unfold Graph.setVariable at hset
  cases hx : g.vars.get? name with
  | none =>
    rw [hx] at hset
    cases typeName with
    | none => cases hset
    | some t =>
      obtain ⟨g', hd, hset⟩ := bind_eq_ok.1 hset
      cases hset
      exact hg.declareVariable hr hs.registry hd
  | some x =>
    rw [hx] at hset
    simp only at hset
    split at hset
    · cases hset
    · obtain ⟨w, hw, hset⟩ := bind_eq_ok.1 hset
      obtain ⟨initial, hinitial, hset⟩ := bind_eq_ok.1 hset
      obtain ⟨⟨y, news⟩, hy, hset⟩ := bind_eq_ok.1 hset
      cases hset
      have hbasic := (hr.valueType_spec (hs.vars _ (Table.mem_entries_of_get? hx)).2).2
      have hheld := (g.stamp_spec (ValueType.holds_coerce hbasic hw)).1
      have hkept := hg.stamp w
      generalize g.stamp w = p at hheld hkept hinitial hy
      rw [lifted_eq_ok] at hinitial
      cases hheld.clone.symm.trans hinitial
      obtain ⟨rfl, -⟩ := Variable.holds_put (x := { x with initial := p.2 }) hheld hy
      refine ⟨hkept.sockets, hkept.states, fun e he => ?_, hkept.events⟩
      rcases Table.mem_entries_set he with rfl | he
      · exact ⟨hheld, hheld⟩
      · exact hkept.vars e he

/-- Data stays of its types if no literal is put and the defaults of events fit. -/
theorem attempt (hr : r.Standard ds) (hsound : ∀ d ∈ ds, d.isSound = true) (hs : Sourced r g) (hi : Indexed g) (hg : Filled g)
    {e : Edit} (he : e.isRegistered = true) (hliteral : e.setsLiteral = false) (hps : e.repeatsParameters = false)
    (hfits : e.Fits r) (ha : g.attempt e = .ok h) : Filled h := by
  cases e with
  | add typeName id overrides position =>
    obtain ⟨⟨h', k⟩, hadd, rfl⟩ := map_eq_ok.1 ha
    exact (hg.addNode hr hsound hs hadd).1
  | addOf d id overrides position => cases he
  | remove id =>
    cases ha
    unfold Graph.removeNode
    split
    · exact (hg.disconnectAll hi _).drop rfl (fun _ => rfl) (List.Subset.refl _) (List.Subset.refl _)
    · exact hg
  | connect l replace =>
    obtain ⟨⟨h', w⟩, hc, rfl⟩ := map_eq_ok.1 (mapError_eq_ok.1 ha)
    exact hg.connect hi hc
  | disconnect l =>
    cases ha
    exact hg.of_bare (hi.cut_disconnect l).bare
  | disconnectInput id name =>
    cases ha
    unfold Graph.disconnectInput
    split
    · exact hg
    · exact hg.disconnectAll hi _
  | clear =>
    cases ha
    exact (hg.disconnectAll hi g.links).drop rfl (fun _ => rfl) (List.nil_subset _) (List.nil_subset _)
  | declareVariable name typeName initial => exact hg.declareVariable hr hs.registry ha
  | setVariable name v typeName =>
    obtain ⟨⟨h', told⟩, hset, rfl⟩ := map_eq_ok.1 ha
    exact hg.setVariable hr hs hset
  | removeVariable name =>
    cases ha
    exact hg.drop rfl (fun _ => rfl) List.filter_sublist.subset (List.Subset.refl _)
  | declareEvent name ps =>
    refine hg.declareEvent hr hs.registry ?_ (hfits ps rfl) (mapError_eq_ok.1 ha)
    simpa [Edit.repeatsParameters, Edit.parameters?] using hps
  | removeEvent name =>
    cases ha
    exact hg.drop rfl (fun _ => rfl) (List.Subset.refl _) List.filter_sublist.subset
  | setLiteral id name v => cases hliteral

theorem typed (hg : Filled g) : Typed g := by
  refine ⟨fun n hn s hs => ?_, fun x hx => ?_, fun e he => ?_⟩
  · obtain ⟨k, hk⟩ := mem_nodes_nodeAt? hn
    obtain ⟨hin, hflow, -⟩ := mem_literals.1 hs
    exact hg.sockets hk .input s hin hflow
  · obtain ⟨e, he, rfl⟩ := List.mem_map.1 hx
    exact (hg.vars e he).2
  · obtain ⟨x, hx, rfl⟩ := List.mem_map.1 he
    exact (hg.events x hx).2

end Filled

/-- A graph in which the checks find no problem has the sockets that its definitions yield now, if its nodes came in under
the declarations that they name as these are now. -/
theorem settled_of_edits {es : List Edit} (hr : r.Standard ds) (hshapely : ∀ d ∈ ds, d.Shapely) (name : String) (policy : Bool)
    (labels : Nat) (hes : ∀ e ∈ es, e.isRegistered = true) (hps : ∀ e ∈ es, e.repeatsParameters = false)
    (hg : g = edits { name := name, registry := r, replaceLinks := policy, labels := labels } es)
    (hvalid : g.problems.2 = .ok [])
    (hkeeps : ∀ k ∈ g.ids.values, ∀ n ∈ g.nodeAt? k,
      ∀ before ∈ madeUnder? { name := name, registry := r, replaceLinks := policy, labels := labels } es k,
        before.Keeps g.scope n.configuration) : Settled g := by
  have hempty : Indexed { name := name, registry := r, replaceLinks := policy, labels := labels } := .of_empty rfl rfl
  have hnone : Plainly True False { name := name, registry := r, replaceLinks := policy, labels := labels } :=
    .of_empty name r policy labels
  obtain ⟨hs, hplain⟩ := hnone.edits hr (.of_empty name r policy labels) hempty hes (fun _ => hps) nofun
  obtain ⟨-, hi⟩ := (Sourced.of_empty name r policy labels).edits hr hempty hes
  rw [← hg] at hs hplain hi
  obtain ⟨-, hrefers⟩ := hi.of_problems hvalid
  constructor
  · intro n hn side
    obtain ⟨k, hk, hnode⟩ := List.mem_filterMap.1 hn
    have hmade := expands_of_edits hempty (hg ▸ hnode)
    obtain ⟨m, hm, -⟩ | ⟨-, before, hbefore, hexpands⟩ := hmade
    · simp [nodeAt?] at hm
    · exact (expand_of_keeps (hkeeps k hk n hnode before hbefore) (hrefers n hn) _).trans (hexpands side)
  · intro n hn
    obtain ⟨k, hk⟩ := mem_nodes_nodeAt? hn
    obtain ⟨scope, hscope, hexpands⟩ := hplain.nodes hk
    exact (hexpands.shapely hscope (hshapely _ (hr.definition_spec (hs.nodes hk).known).2)).distinct trivial

/-- A graph that was built by editing, without literals, is written and read back as it was if the checks find no problem
in it and its nodes came in under the declarations that they name as these are now. Defaults of events have to be of their
types, and no event may have two parameters of one name. -/
theorem reloaded_of_edits {services : List Service} {check : Bool}
    (hr : Registry.create Catalogue.defaultProfiles services check = .ok r) (name : String) (policy : Bool) (labels : Nat)
    (es : List Edit) (hes : ∀ e ∈ es, e.isRegistered = true) (hliteral : ∀ e ∈ es, e.setsLiteral = false)
    (hg : g = edits { name := name, registry := r, replaceLinks := policy, labels := labels } es)
    (hvalid : g.problems.2 = .ok [])
    (hkeeps : ∀ k ∈ g.ids.values, ∀ n ∈ g.nodeAt? k,
      ∀ before ∈ madeUnder? { name := name, registry := r, replaceLinks := policy, labels := labels } es k,
        before.Keeps g.scope n.configuration)
    (hps : ∀ e ∈ es, e.repeatsParameters = false) (hfits : ∀ e ∈ es, e.Fits r)
    (policy' : Bool) (labels' : Nat) :
    ∃ d h, g.toDocument = .ok d ∧
      ofValue d.toValue { registry := r, replaceLinks := policy', labels := labels' } = .ok h ∧ g.Matches h := by
  have hstandard := Registry.standard_of_create hr
  have hsettled := settled_of_edits hstandard Catalogue.shapely_definitions name policy labels hes hps hg hvalid hkeeps
  have hstep : ∀ g : Graph, ∀ e ∈ es, ∀ h, (Sourced r g ∧ Indexed g) ∧ Filled g → g.attempt e = .ok h →
      (Sourced r h ∧ Indexed h) ∧ Filled h := by
    rintro g e he h ⟨⟨hs, hi⟩, hg⟩ ha
    exact ⟨⟨hs.attempt hstandard hi (hes e he) ha, hi.attempt ha⟩,
      hg.attempt hstandard Catalogue.isSound_definitions hs hi (hes e he) (hliteral e he) (hps e he) (hfits e he) ha⟩
  obtain ⟨⟨hs, hi⟩, hfilled⟩ := edits_invariant hstep
    ⟨⟨.of_empty name r policy labels, .of_empty rfl rfl⟩, .of_empty name r policy labels⟩
  rw [← hg] at hs hi hfilled
  obtain ⟨d, h, hd, hh, hmatches, -⟩ :=
    restored hstandard Catalogue.isSound_definitions hs hi hfilled.typed hsettled policy' labels'
  exact ⟨d, h, hd, hh, hmatches⟩

/-- Declarations of both kinds that are taken back and made again, before and after nodes that name them. -/
def redeclaringEdits : List Edit := [
  .declareVariable "speed" "string" .none,
  .removeVariable "speed",
  .declareVariable "speed" "float" (.int 3),
  .add "GetVariable" (some "speed") [("variable_name", .str "speed")] noPosition,
  .removeVariable "speed",
  .declareEvent "Hit" [{ name := "place", valueType := "vec2" }],
  .add "CustomEvent" (some "hit") [("event_name", .str "Hit")] noPosition,
  .add "Log" (some "log") [] noPosition,
  .connect ⟨"hit", "exec", "log", "exec"⟩ none,
  .connect ⟨"speed", "value", "log", "text"⟩ none,
  .removeEvent "Hit",
  .declareEvent "Hit" [{ name := "place", valueType := "vec2" }],
  .setVariable "speed" (.int 4) (some "float")]

def redeclared : Graph := edits { name := "sample", registry := Catalogue.defaults } redeclaringEdits

/-- A graph with nodes from before and after a declaration was taken back is written and read again. -/
theorem reloaded_of_edits_redeclared : (redeclared.nodes.map fun n => (n.inputs ++ n.outputs).map (·.name)) =
      [["value"], ["exec", "place"], ["exec", "text", "severity", "exec_out"]] ∧ ∃ d h, redeclared.toDocument = .ok d ∧
    ofValue d.toValue { registry := Catalogue.defaults } = .ok h ∧ redeclared.Matches h := by
  have hedits : ∀ e ∈ redeclaringEdits, e.isRegistered = true ∧ e.setsLiteral = false ∧ e.repeatsParameters = false ∧
      e.Fits Catalogue.defaults := by
    rw [Catalogue.defaults_eq_written]
    decide +kernel
  have hmade : (redeclared.nodes.map fun n => (n.inputs ++ n.outputs).map (·.name)) =
        [["value"], ["exec", "place"], ["exec", "text", "severity", "exec_out"]] ∧
      redeclared.problems.2 = .ok [] ∧
      ∀ k ∈ redeclared.ids.values, ∀ n ∈ redeclared.nodeAt? k,
        ∀ before ∈ madeUnder? { name := "sample", registry := Catalogue.defaults } redeclaringEdits k,
          before.Keeps redeclared.scope n.configuration := by
    rw [redeclared, Catalogue.defaults_eq_written]
    decide +kernel
  obtain ⟨hsockets, hvalid, hkeeps⟩ := hmade
  exact ⟨hsockets, reloaded_of_edits Catalogue.create_defaults "sample" true labelRange redeclaringEdits
    (fun e he => (hedits e he).1) (fun e he => (hedits e he).2.1) rfl hvalid hkeeps (fun e he => (hedits e he).2.2.1)
    (fun e he => (hedits e he).2.2.2) true labelRange⟩

/-- A node that was made for a variable of one type, when there is one of another type of its name. -/
def staleEdits : List Edit := [
  .declareVariable "speed" "float" .none,
  .add "GetVariable" (some "speed") [("variable_name", .str "speed")] noPosition,
  .add "Add" (some "add") [] noPosition,
  .connect ⟨"speed", "value", "add", "a"⟩ none,
  .removeVariable "speed",
  .declareVariable "speed" "vec2" .none]

def stale : Graph := edits { name := "stale", registry := Catalogue.defaults } staleEdits

/-- The checks find nothing, and yet the document is refused: the link is one of a float, and comes from a vector now. -/
theorem not_reloaded_stale : (∀ e ∈ staleEdits, e.isRegistered = true ∧ e.setsLiteral = false) ∧
    stale.problems.2 = .ok [] ∧ ∃ d, stale.toDocument = .ok d ∧
      ofValue d.toValue { registry := Catalogue.defaults } =
        .error (.integrity (.incompatible "vec2" "float" "<Socket speed.value:vec2>" "<Socket add.a:float>")) := by
  have hmade : stale.problems.2 = .ok [] ∧ stale.toDocument.toBool = true := by
    rw [stale, Catalogue.defaults_eq_written]
    decide +kernel
  refine ⟨by decide, hmade.1, _, ok_of_toBool hmade.2 { name := "" }, ?_⟩
  rw [stale, Catalogue.defaults_eq_written]
  exact eq_integrity (by decide +kernel)

end Graph

end FlowGraph
