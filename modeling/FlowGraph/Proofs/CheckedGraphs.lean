import FlowGraph.Proofs.Functional
import FlowGraph.Proofs.Loading

/-!
Sturdy graphs. The sockets of their nodes are those that the definitions have for the declarations of the graph,
what a setting names is declared, and no function nodes draw on each other in a round. Main statement: a graph that was
loaded from a document, with definitions that fit their behaviours, is sturdy if its checks find no problem.
-/
namespace FlowGraph

/-- The sockets that a source names itself. -/
def SocketSource.own : SocketSource → List SocketSpec
  | fixed specs | eventParameters specs | variableValue specs => specs
  | _ => []

/-- All sockets of the source are known, and all of them carry data. -/
def SocketSource.isData : SocketSource → Bool
  | fixed specs => specs.all (!·.isFlow)
  | _ => false

def SocketSource.isOfVariable : SocketSource → Bool
  | variableValue _ => true
  | _ => false

def SocketSource.isOfEvent : SocketSource → Bool
  | eventParameters _ => true
  | _ => false

/-- What a source names itself comes first. -/
theorem SocketSource.own_prefix {source : SocketSource} {c : Configuration} {scope : Scope} {specs : List SocketSpec}
    (h : source.expand c scope = .ok specs) : source.own <+: specs := by
  cases source with
  | fixed lead =>
    cases h
    exact List.prefix_rfl
  | eventParameters lead =>
    obtain ⟨name, -, h⟩ := bind_eq_ok.1 h
    cases h
    exact List.prefix_append ..
  | variableValue lead =>
    obtain ⟨name, -, h⟩ := bind_eq_ok.1 h
    split at h
    · cases h
      exact List.prefix_append ..
    · cases h
      exact List.prefix_rfl
  | numbered | counted stem key | refused text => exact List.nil_prefix

namespace Behaviour

/-- The inputs that a behaviour reads by names of its own. -/
def reads : Behaviour → List String
  | .flow (some .branch) => ["condition"]
  | .flow (some .forLoop) => ["first_index", "last_index"]
  | .flow (some .log) => ["severity", "text"]
  | .flow (some .setState) => ["value"]
  | .async (some .delay) => ["duration"]
  | .function (some (.unary a _ _)) => [a]
  | .function (some (.binary a b _ _)) => [a, b]
  | .function (some (.ternary a b c _ _)) => [a, b, c]
  | .function (some (.makeVector d)) => d.axes
  | .function (some (.breakVector _)) => ["vector"]
  | _ => []

/-- The outputs that a behaviour, or what it subscribes to, writes by names of its own. -/
def writes : Behaviour → List String
  | .event (some .update) => ["delta_seconds"]
  | .flow (some .forLoop) => ["index"]
  | .flow (some .flipFlop) => ["is_A"]
  | .flow (some .counter) => ["count"]
  | .function (some .getVariable) => []
  | .function (some b) => b.outputs
  | _ => []

def isScript : Behaviour → Bool
  | .event (some (.script _)) | .flow (some (.script _)) | .function (some (.script _)) | .async (some (.script _)) => true
  | _ => false

end Behaviour

namespace Definition

/-- The sockets that the kind of the behaviour calls for are there: only what takes part in flow is reached by it, and
what happens later has somewhere to go on. -/
def isFitKind (d : Definition) : Bool :=
  match d.kind with
  | .event | .function => d.inputs.isData
  | .async => d.outputs.own.any (·.isFlow)
  | .flow => true

/-- The sockets that stand for declarations are there. -/
def isFitNames (d : Definition) : Bool :=
  match d.behaviour with
  | .event (some .customEvent) => d.outputs.isOfEvent
  | .event (some .variableChanged) | .function (some .getVariable) => d.outputs.isOfVariable
  | .flow (some .setVariable) => d.inputs.isOfVariable && d.outputs.isOfVariable
  | .flow (some .callEvent) => d.inputs.isOfEvent
  | _ => true

/-- There is a behaviour, it is no script, and the definition has all sockets that the behaviour relies on. -/
structure Fit (d : Definition) : Prop where
  present : d.behaviour.isMissing = false
  plain : d.behaviour.isScript = false
  kind : d.isFitKind = true
  names : d.isFitNames = true
  reads : ∀ name ∈ d.behaviour.reads, ∃ s ∈ d.inputs.own, s.name = name
  writes : ∀ name ∈ d.behaviour.writes, ∃ s ∈ d.outputs.own, s.name = name

instance (d : Definition) : Decidable d.Fit :=
  decidable_of_iff (d.behaviour.isMissing = false ∧ d.behaviour.isScript = false ∧ d.isFitKind = true ∧ d.isFitNames = true ∧
      (∀ name ∈ d.behaviour.reads, ∃ s ∈ d.inputs.own, s.name = name) ∧
      ∀ name ∈ d.behaviour.writes, ∃ s ∈ d.outputs.own, s.name = name)
    ⟨fun ⟨h₁, h₂, h₃, h₄, h₅, h₆⟩ => ⟨h₁, h₂, h₃, h₄, h₅, h₆⟩,
      fun h => ⟨h.present, h.plain, h.kind, h.names, h.reads, h.writes⟩⟩

end Definition

theorem Catalogue.fit_definitions : ∀ d ∈ coreNodes ++ vectorDefinitions ++ stateDefinitions, d.Fit := by
  decide +kernel

namespace Graph

/-- The sockets of the node are those that its definition has for its settings under the declarations. -/
def Expands (scope : Scope) (n : Node) : Prop :=
  ∀ side : Side, ((side.source n.definition).expand n.configuration scope).map (·.map SocketSpec.outline) =
    .ok ((side.sockets n).map Socket.outline)

/-- What a setting names is declared. -/
structure Refers (g : Graph) (n : Node) : Prop where
  vars : ∀ v, n.configuration.get? variableKey = some v → ∃ x, g.variableOf v = .ok (some x)
  events : ∀ v, n.configuration.get? eventKey = some v → ∃ e, g.eventOf v = .ok (some e)

structure Sturdy (g : Graph) : Prop where
  indexed : Indexed g
  acyclic : g.cycles = []
  fit : ∀ n ∈ g.nodes, n.definition.Fit
  expanded : ∀ n ∈ g.nodes, Expands g.scope n
  refers : ∀ n ∈ g.nodes, g.Refers n
  /-- No two events share a serial number. -/
  serials : ∀ e ∈ g.events.entries, ∀ f ∈ g.events.entries, e.2.serial = f.2.serial → e.2 = f.2

section Checks

variable {g : Graph} {n : Node}

theorem checkReference_eq_nil {key what : String} {declared : Value → Except Fault Bool}
    (h : checkReference n key what declared = .ok []) {v : Value} (hv : n.configuration.get? key = some v) :
    declared v = .ok true := by
  simp only [checkReference, hv] at h
  obtain ⟨isDeclared, hdeclared, h⟩ := bind_eq_ok.1 h
  cases isDeclared with
  | true => exact hdeclared
  | false =>
    obtain ⟨shown, -, h⟩ := bind_eq_ok.1 h
    cases h

/-- A node in which the checks find no problem names what is declared. -/
theorem refers_of_checkNode (h : g.checkNode n = .ok []) : g.Refers n := by
  obtain ⟨ofVariables, hvariables, h⟩ := bind_eq_ok.1 h
  obtain ⟨ofEvents, hevents, h⟩ := bind_eq_ok.1 h
  simp only [pure, Except.pure, Except.ok.injEq, List.append_eq_nil_iff] at h
  obtain ⟨⟨-, rfl⟩, rfl⟩ := h
  have hsome {α : Type} {x : Except Fault (Option α)} (hx : (·.isSome) <$> x = .ok true) : ∃ a, x = .ok (some a) := by
    cases x with
    | error e => cases hx
    | ok o =>
      cases o with
      | none => cases hx
      | some a => exact ⟨a, rfl⟩
  constructor
  · intro v hv
    exact hsome (checkReference_eq_nil hvariables hv)
  · intro v hv
    exact hsome (checkReference_eq_nil hevents hv)

/-- A graph in which the checks find no problem has no cycle, and its nodes name what is declared. -/
theorem Indexed.of_problems (hg : Indexed g) (h : g.problems.2 = .ok []) :
    g.cycles = [] ∧ ∀ n ∈ g.nodes, g.Refers n := by
  simp only [problems, checkWires_eq hg] at h
  obtain ⟨nodes, hnodes, h⟩ := bind_eq_ok.1 h
  simp only [pure, Except.pure, Except.ok.injEq, List.nil_append, List.append_eq_nil_iff, List.map_eq_nil_iff,
    List.flatten_eq_nil_iff] at h
  refine ⟨h.2, fun n hn => refers_of_checkNode ?_⟩
  obtain ⟨ps, hps, hn⟩ := mem_left_of_forall₂ (forall₂_of_mapM hnodes) hn
  rw [hn, h.1 ps hps]

end Checks

/-- What is there of a graph that is being loaded fits together. -/
structure Loaded (r : Registry) (g : Graph) : Prop where
  indexed : Indexed g
  sourced : Sourced r g
  expanded : ∀ {k : Nat} {n : Node}, g.nodeAt? k = some n → Expands g.scope n
  issued : ∀ e ∈ g.events.entries, e.2.serial < g.issued
  serials : ∀ e ∈ g.events.entries, ∀ f ∈ g.events.entries, e.2.serial = f.2.serial → e = f
  issuedVars : ∀ x ∈ g.vars.entries, x.2.serial < g.issued
  serialsVars : ∀ x ∈ g.vars.entries, ∀ y ∈ g.vars.entries, x.2.serial = y.2.serial → x = y

/-- What was declared last has a number of its own. -/
theorem eq_of_serial {α : Type} {serial : α → Nat} {issued : Nat} {t : Table String α} {name : String} {a : α}
    (ha : serial a = issued) (hissued : ∀ e ∈ t.entries, serial e.2 < issued)
    (hserials : ∀ e ∈ t.entries, ∀ f ∈ t.entries, serial e.2 = serial f.2 → e = f) :
    ∀ e ∈ (t.set name a).entries, ∀ f ∈ (t.set name a).entries, serial e.2 = serial f.2 → e = f := by
  intro e he f hf h
  rcases Table.mem_entries_set he with rfl | he
  · rcases Table.mem_entries_set hf with rfl | hf
    · rfl
    · exact absurd (hissued f hf) (by simp only at h; omega)
  · rcases Table.mem_entries_set hf with rfl | hf
    · exact absurd (hissued e he) (by simp only at h; omega)
    · exact hserials e he f hf h

theorem buildSide_outline {g : Graph} {source : SocketSource} {c : Configuration} {ss : List Socket}
    (h : g.buildSide source c = .ok ss) :
    (source.expand c g.scope).map (·.map SocketSpec.outline) = .ok (ss.map Socket.outline) := by
  obtain ⟨specs, hspecs, h⟩ := bind_eq_ok.1 h
  rw [lifted_eq_ok.1 hspecs]
  refine congrArg Except.ok (map_eq_of_forall₂ ((forall₂_of_mapM h).imp ?_)).symm
  intro s t ht
  rw [buildSocket_eq_ok ht]
  rfl

theorem declarations_stamp (g : Graph) (v : Value) :
    (g.stamp v).1.events = g.events ∧ (g.stamp v).1.issued = g.issued ∧ (g.stamp v).1.vars = g.vars := by
  obtain ⟨n, hn⟩ := g.stamp_eq v
  rw [hn]
  exact ⟨rfl, rfl, rfl⟩

theorem declarations_stampParameters (g : Graph) (ps : List SocketSpec) : (g.stampParameters ps).1.events = g.events ∧
    (g.stampParameters ps).1.issued = g.issued ∧ (g.stampParameters ps).1.vars = g.vars := by
  obtain ⟨n, hn⟩ := g.stampParameters_eq ps
  rw [hn]
  exact ⟨rfl, rfl, rfl⟩

theorem outlines_of_bare {n m : Node} (h : m.bare = n.bare) (side : Side) :
    (side.sockets m).map Socket.outline = (side.sockets n).map Socket.outline := by
  have hss := congrArg (fun n => (side.sockets n).map Socket.outline) h
  simp only [Side.sockets_bare, List.map_map] at hss
  exact hss

theorem Expands.congr {scope : Scope} {n m : Node} (h : Expands scope n) (horigin : m.origin = n.origin)
    (hout : ∀ side : Side, (side.sockets m).map Socket.outline = (side.sockets n).map Socket.outline) : Expands scope m := by
  simp only [Node.origin, Prod.mk.injEq] at horigin
  obtain ⟨-, hdefinition, hconfiguration⟩ := horigin
  intro side
  rw [hdefinition, hconfiguration, hout side]
  exact h side

namespace Expands

variable {scope : Scope} {n : Node}

/-- The sockets of a side, by what the definition yields. -/
theorem specs (h : Expands scope n) (side : Side) : ∃ specs, (side.source n.definition).expand n.configuration scope = .ok specs ∧
    specs.map SocketSpec.outline = (side.sockets n).map Socket.outline := by
  obtain ⟨specs, hspecs, hout⟩ := map_eq_ok.1 (h side)
  exact ⟨specs, hspecs, hout⟩

theorem exists_socket (h : Expands scope n) (side : Side) {specs : List SocketSpec}
    (hspecs : (side.source n.definition).expand n.configuration scope = .ok specs) {s : SocketSpec} (hs : s ∈ specs) :
    ∃ t ∈ side.sockets n, t.outline = s.outline := by
  obtain ⟨specs', hspecs', hout⟩ := h.specs side
  cases hspecs.symm.trans hspecs'
  exact List.mem_map.1 (hout ▸ List.mem_map_of_mem hs)

/-- The sockets that the definition names itself are there. -/
theorem exists_own (h : Expands scope n) (side : Side) {s : SocketSpec} (hs : s ∈ (side.source n.definition).own) :
    ∃ t ∈ side.sockets n, t.outline = s.outline := by
  obtain ⟨specs, hspecs, -⟩ := h.specs side
  exact h.exists_socket side hspecs ((SocketSource.own_prefix hspecs).subset hs)

/-- All sockets of a side carry data if those of the definition do. -/
theorem isFlow_of_isData (h : Expands scope n) (side : Side) (hdata : (side.source n.definition).isData = true) {t : Socket}
    (ht : t ∈ side.sockets n) : t.isFlow = false := by
  obtain ⟨specs, hspecs, hout⟩ := h.specs side
  cases hsource : side.source n.definition with
  | fixed own =>
    rw [hsource] at hdata hspecs
    cases hspecs
    obtain ⟨s, hs, hst⟩ := List.mem_map.1 (hout ▸ List.mem_map_of_mem ht)
    have hflow := List.all_eq_true.1 hdata s hs
    have htype : s.valueType = t.valueType := congrArg Prod.snd hst
    rw [Socket.isFlow, ← htype]
    simpa [SocketSpec.isFlow] using hflow
  | _ =>
    rw [hsource] at hdata
    cases hdata

/-- Where a setting names a variable, there is a socket for its value. -/
theorem exists_value {g : Graph} (h : Expands g.scope n) (side : Side) (hsource : (side.source n.definition).isOfVariable = true)
    {v : Value} (hv : n.configuration.get? variableKey = some v) {x : Variable} (hx : g.variableOf v = .ok (some x)) :
    ∃ t ∈ side.sockets n, t.name = "value" := by
  cases hs : side.source n.definition with
  | variableValue lead =>
    obtain ⟨name, hname, hx⟩ := bind_eq_ok.1 hx
    simp only [pure, Except.pure, Except.ok.injEq, Option.bind_eq_some_iff] at hx
    obtain ⟨name, rfl, hx⟩ := hx
    have hspecs : (side.source n.definition).expand n.configuration g.scope =
        .ok (lead ++ [{ name := "value", valueType := x.valueType.name }]) := by
      simp only [hs, SocketSource.expand, SocketSource.setting, hv, Option.getD_some, hname, bind, Except.bind,
        Option.bind_some, scope, hx, Option.map_some, pure, Except.pure]
    obtain ⟨t, ht, hout⟩ := h.exists_socket side hspecs (List.mem_append_right _ List.mem_cons_self)
    exact ⟨t, ht, congrArg Prod.fst hout⟩
  | _ =>
    rw [hs] at hsource
    cases hsource

/-- Where a setting names an event, there is a socket for each of its parameters. -/
theorem exists_parameter {g : Graph} (h : Expands g.scope n) (side : Side) (hsource : (side.source n.definition).isOfEvent = true)
    {v : Value} (hv : n.configuration.get? eventKey = some v) {e : CustomEvent} (he : g.eventOf v = .ok (some e))
    {q : SocketSpec} (hq : q ∈ e.parameters) : ∃ t ∈ side.sockets n, t.name = q.name := by
  cases hs : side.source n.definition with
  | eventParameters lead =>
    obtain ⟨name, hname, he⟩ := bind_eq_ok.1 he
    simp only [pure, Except.pure, Except.ok.injEq, Option.bind_eq_some_iff] at he
    obtain ⟨name, rfl, he⟩ := he
    have hspecs : (side.source n.definition).expand n.configuration g.scope = .ok (lead ++ e.parameters) := by
      simp only [hs, SocketSource.expand, SocketSource.setting, hv, Option.getD_some, hname, bind, Except.bind,
        Option.bind_some, scope, he, Option.map_some, pure, Except.pure]
    obtain ⟨t, ht, hout⟩ := h.exists_socket side hspecs (List.mem_append_right _ hq)
    exact ⟨t, ht, congrArg Prod.fst hout⟩
  | _ =>
    rw [hs] at hsource
    cases hsource

end Expands

namespace Loaded

variable {r : Registry} {ds : List Definition} {g h : Graph}

theorem of_empty (name : String) (r : Registry) (replace : Bool) (labels : Nat) :
    Loaded r { name := name, registry := r, replaceLinks := replace, labels := labels } := by
  refine ⟨.of_empty rfl rfl, .of_empty name r replace labels, ?_, by simp, by simp, by simp, by simp⟩
  intro k n hn
  simp [nodeAt?] at hn

/-- Neither variables nor events come in with nodes and links. -/
theorem congr (hg : Loaded r g) (hindexed : Indexed h) (hsourced : Sourced r h) (hvars : h.vars = g.vars)
    (hevents : h.events = g.events) (hissued : h.issued = g.issued)
    (hnodes : ∀ {k n}, h.nodeAt? k = some n → Expands g.scope n) : Loaded r h := by
  have hscope : h.scope = g.scope := by simp only [scope, hvars, hevents]
  refine ⟨hindexed, hsourced, ?_, ?_, ?_, ?_, ?_⟩
  · intro k n hn
    rw [hscope]
    exact hnodes hn
  · rw [hevents, hissued]
    exact hg.issued
  · rw [hevents]
    exact hg.serials
  · rw [hvars, hissued]
    exact hg.issuedVars
  · rw [hvars]
    exact hg.serialsVars

/-- Variables are read before there are nodes. -/
theorem loadVariable (hr : r.Standard ds) (hg : Loaded r g) (hempty : ∀ k, g.nodeAt? k = none) {v : Document.Variable}
    (hl : Document.loadVariable g v = .ok h) : Loaded r h ∧ ∀ k, h.nodeAt? k = none := by
  obtain ⟨initial, -, hd⟩ := bind_eq_ok.1 hl
  have hnodes (k : Nat) : h.nodeAt? k = none := by
    have hk := (sameLinks_declareVariable hd).nodes k
    rwa [hempty k, Option.map_none, Option.map_eq_none_iff] at hk
  have hparts : h.events = g.events ∧ h.issued = g.issued + 1 ∧
      ∃ x : Variable, x.serial = g.issued ∧ h.vars = g.vars.set v.name x := by
    unfold declareVariable at hd
    split at hd
    · cases hd
    · split at hd
      · cases hd
      · obtain ⟨w, -, hd⟩ := bind_eq_ok.1 hd
        cases hd
        obtain ⟨hevents, hissued, hvars⟩ := declarations_stamp g w
        exact ⟨hevents, congrArg (· + 1) hissued, _, hissued, congrArg (Table.set · _ _) hvars⟩
  obtain ⟨hevents, hissued, x, hx, hvars⟩ := hparts
  refine ⟨⟨hg.indexed.loadVariable hl, hg.sourced.declareVariable hr hd, ?_, ?_, ?_, ?_, ?_⟩, hnodes⟩
  · intro k n hn
    rw [hnodes k] at hn
    cases hn
  · intro e he
    rw [hevents] at he
    rw [hissued]
    exact Nat.lt_succ_of_lt (hg.issued e he)
  · rw [hevents]
    exact hg.serials
  · intro y hy
    rw [hvars] at hy
    rw [hissued]
    rcases Table.mem_entries_set hy with rfl | hy
    · exact hx ▸ Nat.lt_succ_self _
    · exact Nat.lt_succ_of_lt (hg.issuedVars y hy)
  · rw [hvars]
    exact eq_of_serial hx hg.issuedVars hg.serialsVars

/-- Custom events are read before there are nodes. -/
theorem loadEvent (hg : Loaded r g) (hempty : ∀ k, g.nodeAt? k = none) {e : Document.Event}
    (hl : Document.loadEvent g e = .ok h) : Loaded r h ∧ ∀ k, h.nodeAt? k = none := by
  obtain ⟨hd, hindexed⟩ : (∃ name ps, g.declareEvent name ps = .ok h) ∧ Indexed h := by
    refine ⟨?_, hg.indexed.loadEvent hl⟩
    obtain ⟨specs, -, hl⟩ := bind_eq_ok.1 hl
    split at hl
    · rename_i hd
      cases hl
      exact ⟨_, _, hd⟩
    · cases hl
  obtain ⟨name, ps, hd⟩ := hd
  have hnodes (k : Nat) : h.nodeAt? k = none := by
    have hk := (sameLinks_declareEvent hd).nodes k
    rwa [hempty k, Option.map_none, Option.map_eq_none_iff] at hk
  have hparts : h.vars = g.vars ∧ h.issued = g.issued + 1 ∧
      ∃ f : CustomEvent, f.serial = g.issued ∧ h.events = g.events.set name f := by
    unfold declareEvent at hd
    split at hd
    · cases hd
    · obtain ⟨specs, -, hd⟩ := bind_eq_ok.1 hd
      cases hd
      obtain ⟨hevents, hissued, hvars⟩ := declarations_stampParameters g specs
      exact ⟨hvars, congrArg (· + 1) hissued, _, hissued, congrArg (Table.set · _ _) hevents⟩
  obtain ⟨hvars, hissued, f, hf, hset⟩ := hparts
  refine ⟨⟨hindexed, hg.sourced.declareEvent hd, ?_, ?_, ?_, ?_, ?_⟩, hnodes⟩
  · intro k n hn
    rw [hnodes k] at hn
    cases hn
  · intro x hx
    rw [hset] at hx
    rw [hissued]
    rcases Table.mem_entries_set hx with rfl | hx
    · exact hf ▸ Nat.lt_succ_self _
    · exact Nat.lt_succ_of_lt (hg.issued x hx)
  · rw [hset]
    exact eq_of_serial hf hg.issued hg.serials
  · rw [hvars, hissued]
    exact fun x hx => Nat.lt_succ_of_lt (hg.issuedVars x hx)
  · rw [hvars]
    exact hg.serialsVars

/-- What a node holds is no part of it. -/
theorem withNode (hg : Loaded r g) (k : Nat) {f : Node → Node} (hframe : ∀ n, (f n).frame = n.frame)
    (horigin : ∀ n, (f n).origin = n.origin) : Loaded r (g.modifyNode k f) := by
  refine hg.congr (hg.indexed.congr (SameLinks.modifyNode hframe g k)) (hg.sourced.modifyNode horigin) rfl rfl rfl ?_
  intro j n hn
  rw [nodeAt?_modifyNode] at hn
  split at hn
  · obtain ⟨m, hm, rfl⟩ := Option.map_eq_some_iff.1 hn
    exact (hg.expanded hm).congr (horigin m) (Side.outlines_of_frame (hframe m))
  · exact hg.expanded hn

theorem stamp (hg : Loaded r g) (v : Value) : Loaded r (g.stamp v).1 := by
  have hindexed := hg.indexed.congr (g.sameLinks_stamp v)
  have hsourced := hg.sourced.stamp v
  obtain ⟨n, hn⟩ := g.stamp_eq v
  rw [hn] at hindexed hsourced ⊢
  exact hg.congr hindexed hsourced rfl rfl rfl hg.expanded

theorem loadInput (hg : Loaded r g) {k : Nat} {i : String × Value} (hl : Document.loadInput k g i = .ok h) : Loaded r h := by
  rcases Indexed.loadInput_eq_ok hl with rfl | ⟨p, v, rfl⟩
  · exact hg
  · exact (hg.stamp v).withNode k (fun n => n.frame_setInput p _) fun _ => rfl

/-- A node that is added has the sockets of its definition, for what is declared. -/
theorem addNode (hr : r.Standard ds) (hg : Loaded r g) {typeName : String} {id : Option String}
    {overrides : List (String × Value)} {position : Value} {k : Nat}
    (ha : g.addNode typeName id overrides position = .ok (h, k)) : Loaded r h := by
  have hsourced := hg.sourced.addNode hr ha
  unfold Graph.addNode at ha
  split at ha
  · cases ha
  · rename_i d _
    have hindexed := hg.indexed.addNodeOf ha
    obtain ⟨n, -, hmake, rfl, -⟩ := addNodeOf_eq_ok ha
    obtain ⟨place, c, inputs, outputs, -, -, hin, hout, rfl⟩ := makeNode_eq_ok hmake
    generalize hn : ({ id := g.chooseId id, definition := d, position := place, configuration := c
                       state := d.initialState, inputs := inputs, outputs := outputs } : Node) = n at hindexed hsourced ⊢
    have hnew : Expands g.scope n := by
      intro side
      rw [← hn]
      cases side with
      | input => exact buildSide_outline hin
      | output => exact buildSide_outline hout
    obtain ⟨⟨labels, hlabels⟩, hframe⟩ := g.stampNode_eq n
    have horigin := origin_stampNode g n
    simp only [Graph.insertNode, hlabels] at hindexed hsourced ⊢
    refine hg.congr hindexed hsourced rfl rfl rfl ?_
    intro j m hm
    simp only [nodeAt?, Array.getElem?_push] at hm
    split at hm
    · cases hm
      exact hnew.congr horigin (Side.outlines_of_frame hframe)
    · exact hg.expanded hm

theorem loadNode (hr : r.Standard ds) (hg : Loaded r g) {n : Document.Node} (hl : Document.loadNode g n = .ok h) :
    Loaded r h := by
  obtain ⟨⟨g', k⟩, hadd, hl⟩ := bind_eq_ok.1 hl
  exact foldlM_invariant (fun _ _ _ _ hb hl => hb.loadInput hl) (hg.addNode hr hadd) hl

/-- A link of the document joins sockets that are there. -/
theorem loadLink (hg : Loaded r g) {l : Link} (hl : Document.loadLink g l = .ok h) : Loaded r h := by
  have hindexed := hg.indexed.loadLink hl
  unfold Document.loadLink at hl
  split at hl
  · rename_i h' w hc
    cases hl
    have hsourced := hg.sourced.connect hg.indexed hc
    obtain ⟨e, output, input, shown, -, -, -, rfl, -⟩ := connect_eq_ok hc
    have hbare := (rewired_plug ((g.disconnectAll (displaced input)).lay l (some e)).1 w e).bare.trans
      (hg.indexed.cut_disconnectAll (displaced input)).bare
    have hvars := congrArg Graph.vars hbare
    have hevents := congrArg Graph.events hbare
    have hissued := congrArg Graph.issued hbare
    refine hg.congr hindexed hsourced hvars hevents hissued ?_
    intro k m hm
    have hk := congrArg (Graph.nodeAt? · k) hbare
    simp only [nodeAt?_bare, hm, Option.map_some] at hk
    obtain ⟨n, hn, hmn⟩ := Option.map_eq_some_iff.1 hk.symm
    exact (hg.expanded hn).congr (congrArg Node.origin hmn).symm (outlines_of_bare hmn.symm)
  · cases hl

/-- Loading a document makes a graph that fits together. -/
theorem toGraph (hr : r.Standard ds) {d : Document} {replace : Bool} {labels : Nat}
    (hd : d.toGraph { registry := r, replaceLinks := replace, labels := labels } = .ok g) : Loaded r g := by
  obtain ⟨g₁, hvars, hd⟩ := bind_eq_ok.1 hd
  obtain ⟨g₂, hevents, hd⟩ := bind_eq_ok.1 hd
  obtain ⟨g₃, hnodes, hlinks⟩ := bind_eq_ok.1 hd
  have hstart : Loaded r { name := d.name, registry := r, replaceLinks := replace, labels := labels } ∧
      ∀ k, Graph.nodeAt? { name := d.name, registry := r, replaceLinks := replace, labels := labels } k = none :=
    ⟨of_empty .., fun k => by simp [nodeAt?]⟩
  have hvars := foldlM_invariant (P := fun g => Loaded r g ∧ ∀ k, g.nodeAt? k = none)
    (fun _ _ _ _ hb hl => hb.1.loadVariable hr hb.2 hl) hstart hvars
  have hevents := foldlM_invariant (P := fun g => Loaded r g ∧ ∀ k, g.nodeAt? k = none)
    (fun _ _ _ _ hb hl => hb.1.loadEvent hb.2 hl) hvars hevents
  have hnodes := foldlM_invariant (fun _ _ _ _ hb hl => hb.loadNode hr hl) hevents.1 hnodes
  exact foldlM_invariant (fun _ _ _ _ hb hl => hb.loadLink hl) hnodes hlinks

/-- A loaded graph in which the checks find no problem is sturdy. -/
theorem sturdy (hr : r.Standard ds) (hds : ∀ d ∈ ds, d.Fit) (hg : Loaded r g) (hp : g.problems.2 = .ok []) :
    Sturdy g := by
  obtain ⟨hcycles, hrefers⟩ := hg.indexed.of_problems hp
  have hnode {n : Node} (hn : n ∈ g.nodes) : ∃ k, g.nodeAt? k = some n := by
    obtain ⟨k, -, hk⟩ := hg.indexed.mem_nodes hn
    exact ⟨k, hk⟩
  refine ⟨hg.indexed, hcycles, fun n hn => ?_, fun n hn => ?_, hrefers, fun e he f hf h =>
    congrArg Prod.snd (hg.serials e he f hf h)⟩
  · obtain ⟨k, hk⟩ := hnode hn
    exact hds _ (hr.definition_spec (hg.sourced.nodes hk).known).2
  · obtain ⟨k, hk⟩ := hnode hn
    exact hg.expanded hk

end Loaded

end Graph

end FlowGraph
