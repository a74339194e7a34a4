import FlowGraph.Proofs.Filling
import FlowGraph.Proofs.Structural

/-!
Sanity of a world in which a graph runs: what its sockets and variables hold is of their types. Which types the sockets
have is settled by the definitions and the declarations, so it can be said of the world before anything happened.
-/
namespace FlowGraph

open World

theorem map_find?_outline (ss : List Socket) (name : String) :
    (ss.find? (·.name = name)).map Socket.outline = (ss.map Socket.outline).find? (·.1 = name) := by
  rw [List.find?_map]
  rfl

theorem map_find?_outline_spec (specs : List SocketSpec) (name : String) :
    (specs.find? (·.name = name)).map SocketSpec.outline = (specs.map SocketSpec.outline).find? (·.1 = name) := by
  rw [List.find?_map]
  rfl

/-- A socket is found by its name where its specification is. -/
theorem Graph.Expands.find? {scope : Scope} {n : Node} (h : Expands scope n) (side : Side) {specs : List SocketSpec}
    (hspecs : (side.source n.definition).expand n.configuration scope = .ok specs) {name : String} {p : SocketSpec}
    (hp : specs.find? (·.name = name) = some p) :
    ∃ s, (side.sockets n).find? (·.name = name) = some s ∧ s.valueType = p.valueType := by
  obtain ⟨specs', hspecs', hout⟩ := h.specs side
  cases hspecs.symm.trans hspecs'
  have hfound := map_find?_outline (side.sockets n) name
  rw [← hout, ← map_find?_outline_spec, hp] at hfound
  obtain ⟨s, hs, hsp⟩ := Option.map_eq_some_iff.1 hfound
  exact ⟨s, hs, (congrArg Prod.snd hsp :)⟩

/-- The graph was loaded over types and conversions that are what they are registered for, and so is all of its data. -/
structure Graph.Solid (ds : List Definition) (g : Graph) : Prop where
  standard : g.registry.Standard ds
  converts : g.registry.Converts
  definitions : ∀ d ∈ ds, d.Typed
  loaded : Loaded g.registry g
  filled : Filled g

/-- The value has the type of the first socket of that name, if that socket carries data. -/
def World.Allows (u : World) (side : Side) (x : NodeRef) (name : String) (v : Value) : Prop :=
  ∀ s, (side.sockets (u.node x)).find? (·.name = name) = some s → s.isFlow = false → (u.registryOf x).Types s.valueType v

theorem Registry.types_stamp {r : Registry} {typeName : String} {v : Value} (h : r.Types typeName v) (w : World) (k : Nat) :
    r.Types typeName (w.stamp k v).1 := by
  obtain ⟨t, ht, hv⟩ := h
  refine ⟨t, ht, ?_⟩
  unfold World.stamp
  split
  · exact ((w.graph k).stamp_spec hv).1
  · exact hv

theorem World.Allows.stamp {u : World} {side : Side} {x : NodeRef} {name : String} {v : Value} (h : u.Allows side x name v)
    (w : World) (k : Nat) : u.Allows side x name (w.stamp k v).1 :=
  fun s hs hflow => Registry.types_stamp (h s hs hflow) w k

namespace Graph.Solid

variable {ds : List Definition} {u : World} {j : Nat} (hu : (u.graph j).Solid ds) {x : NodeRef} (hx : u.Member j x)

include hu hx

theorem typed : (u.node x).definition.Typed :=
  hu.definitions _ (hu.standard.definition_spec (hu.loaded.sourced.nodes (hx.nodeAt? hu.loaded.indexed).1).known).2

theorem expanded : Expands (u.graph j).scope (u.node x) := hu.loaded.expanded (hx.nodeAt? hu.loaded.indexed).1

/-- Sockets that a definition names itself allow the values of their types, and those only. -/
theorem allows_own (side : Side) {name : String} {t : ValueType}
    (ht : (side.source (u.node x).definition).typeOf? name = some t) (v : Value) :
    u.Allows side x name v ↔ t.Holds v := by
  obtain ⟨p, hp, ht⟩ := Option.bind_eq_some_iff.1 ht
  split at ht
  · cases ht
  · rename_i hflow
    obtain ⟨specs, hspecs, -⟩ := (hu.expanded hx).specs side
    obtain ⟨rest, hrest⟩ := SocketSource.own_prefix hspecs
    have hfound : specs.find? (·.name = name) = some p := by rw [← hrest, List.find?_append, hp, Option.some_or]
    obtain ⟨s, hs, htype⟩ := (hu.expanded hx).find? side hspecs hfound
    have hvalueType : (u.registryOf x).valueType s.valueType = .ok t := by
      rw [htype, World.registryOf, hx.1]
      exact hu.standard.valueType_eq_ok.2 ht
    have hsocket : s.isFlow = false := by
      rw [Socket.isFlow, htype]
      simpa [SocketSpec.isFlow] using hflow
    constructor
    · intro h
      obtain ⟨t', ht', hv⟩ := h s hs hsocket
      cases hvalueType.symm.trans ht'
      exact hv
    · intro hv s' hs' _
      cases hs.symm.trans hs'
      exact ⟨t, hvalueType, hv⟩

/-- A socket that stands for a variable allows the values of the variable's type. -/
theorem allows_value (side : Side) (hsource : (side.source (u.node x).definition).isOfVariable = true) {name : Value}
    (hname : (u.node x).configuration.get? variableKey = some name) {y : Variable}
    (hy : (u.graph j).variableOf name = .ok (some y)) {v : Value} (hv : y.valueType.Holds v) : u.Allows side x "value" v := by
  have hlead : (side.source (u.node x).definition).own.all (·.name ≠ "value") = true := by
    have hnames := (hu.typed hx).names
    simp only [Definition.isTypedNames, List.all_cons, List.all_nil, Bool.and_true, Bool.and_eq_true] at hnames
    cases side with
    | input => simpa [Side.source, show (u.node x).definition.inputs.isOfVariable = true from hsource] using hnames.1.1
    | output => simpa [Side.source, show (u.node x).definition.outputs.isOfVariable = true from hsource] using hnames.2.1
  cases hs : side.source (u.node x).definition with
  | variableValue lead =>
    obtain ⟨key, hkey, hy⟩ := bind_eq_ok.1 hy
    simp only [pure, Except.pure, Except.ok.injEq, Option.bind_eq_some_iff] at hy
    obtain ⟨key, rfl, hy⟩ := hy
    have hspecs : (side.source (u.node x).definition).expand (u.node x).configuration (u.graph j).scope =
        .ok (lead ++ [{ name := "value", valueType := y.valueType.name }]) := by
      simp only [hs, SocketSource.expand, SocketSource.setting, hname, Option.getD_some, hkey, bind, Except.bind,
        Option.bind_some, scope, hy, Option.map_some, pure, Except.pure]
    have hfound : (lead ++ [({ name := "value", valueType := y.valueType.name } : SocketSpec)]).find? (·.name = "value") =
        some { name := "value", valueType := y.valueType.name } := by
      rw [hs] at hlead
      rw [List.find?_append, List.find?_eq_none.2 fun s hs => by simpa using List.all_eq_true.1 hlead s hs]
      rfl
    obtain ⟨s, hs, htype⟩ := (hu.expanded hx).find? side hspecs hfound
    intro s' hs' _
    cases hs.symm.trans hs'
    refine ⟨y.valueType, ?_, hv⟩
    rw [htype, World.registryOf, hx.1]
    exact (hu.loaded.sourced.vars _ (Table.mem_entries_of_get? hy)).2
  | _ =>
    rw [hs] at hsource
    cases hsource

/-- A socket that stands for a parameter of an event allows the values of the parameter's type, and those only. -/
theorem allows_parameter (side : Side) (hsource : (side.source (u.node x).definition).isOfEvent = true) {name : Value}
    (hname : (u.node x).configuration.get? eventKey = some name) {e : CustomEvent}
    (he : (u.graph j).eventOf name = .ok (some e)) {p : SocketSpec} (hp : p ∈ e.parameters) (v : Value) :
    u.Allows side x p.name v ↔ (u.graph j).registry.Types p.valueType v := by
  have hlead : (side.source (u.node x).definition).own.all (·.name = "exec") = true := by
    have hnames := (hu.typed hx).names
    simp only [Definition.isTypedNames, List.all_cons, List.all_nil, Bool.and_true, Bool.and_eq_true] at hnames
    cases side with
    | input => simpa [Side.source, show (u.node x).definition.inputs.isOfEvent = true from hsource] using hnames.1.2
    | output => simpa [Side.source, show (u.node x).definition.outputs.isOfEvent = true from hsource] using hnames.2.2
  cases hs : side.source (u.node x).definition with
  | eventParameters lead =>
    obtain ⟨key, hkey, he⟩ := bind_eq_ok.1 he
    simp only [pure, Except.pure, Except.ok.injEq, Option.bind_eq_some_iff] at he
    obtain ⟨key, rfl, he⟩ := he
    have hspecs : (side.source (u.node x).definition).expand (u.node x).configuration (u.graph j).scope =
        .ok (lead ++ e.parameters) := by
      simp only [hs, SocketSource.expand, SocketSource.setting, hname, Option.getD_some, hkey, bind, Except.bind,
        Option.bind_some, scope, he, Option.map_some, pure, Except.pure]
    obtain ⟨hflow, hexec, -⟩ := (hu.loaded.sourced.events _ (Table.mem_entries_of_get? he)).2 p hp
    have hfound : (lead ++ e.parameters).find? (·.name = p.name) = some p := by
      have hnone : lead.find? (·.name = p.name) = none := by
        rw [hs] at hlead
        refine List.find?_eq_none.2 fun s hs => ?_
        have hs : s.name = "exec" := by simpa using List.all_eq_true.1 hlead s hs
        simpa [hs] using hexec.symm
      rw [List.find?_append, hnone, Option.none_or]
      exact Graph.find?_of_nodup (hu.filled.events _ (Table.mem_entries_of_get? he)).1 hp
    obtain ⟨s, hs, htype⟩ := (hu.expanded hx).find? side hspecs hfound
    have hsocket : s.isFlow = false := by
      rw [Socket.isFlow, htype]
      exact hflow
    have hregistry : u.registryOf x = (u.graph j).registry := by rw [World.registryOf, hx.1]
    constructor
    · intro h
      rw [← htype, ← hregistry]
      exact h s hs hsocket
    · intro hv s' hs' _
      cases hs.symm.trans hs'
      rwa [htype, hregistry]
  | _ =>
    rw [hs] at hsource
    cases hsource

end Graph.Solid

/-- The variable was declared in the graph under that name, whatever was assigned to it since. -/
def Graph.Knew (g : Graph) (name : String) (y : Variable) : Prop :=
  ∃ z, g.vars.get? name = some z ∧ z.name = y.name ∧ z.serial = y.serial ∧ z.valueType = y.valueType

/-- A value of the type, both now and at the start. -/
def Variable.IsFilled (y : Variable) : Prop := y.valueType.Holds y.value ∧ y.valueType.Holds y.initial

/-- The world is `u` but for what changes when it runs, and in the graph at that place all data is of its types. -/
structure World.Sane (u : World) (j : Nat) (w : World) : Prop where
  outlined : Outlined u w
  sockets : ∀ x, u.Member j x → ∀ side : Side, ∀ s ∈ side.sockets (w.node x), (u.graph j).registry.Fills s
  counts : ∀ x, u.Member j x → (u.node x).definition.behaviour = .flow (some .counter) → ∀ fields n,
    (w.node x).state = .dict fields → fields.lookup "count" = some n → ValueType.integer.Holds n
  vars : ∀ e ∈ (w.graph j).vars.entries, (u.graph j).Knew e.1 e.2 ∧ e.2.IsFilled

namespace World

namespace Sane

variable {ds : List Definition} {u w : World} {j : Nat}

theorem start (hu : (u.graph j).Solid ds) : Sane u j u where
  outlined := rfl
  sockets x hx side := hu.filled.sockets (hx.nodeAt? hu.loaded.indexed).1 side
  counts := by
    intro x hx hcounter fields n hstate hn
    have hinitial := hu.filled.states (hx.nodeAt? hu.loaded.indexed).1
    have hd := (hu.typed hx).state
    rw [hstate] at hinitial
    simp only [Definition.isTypedState, hcounter, ← hinitial, hn, Option.all_some] at hd
    exact (ValueType.holds_iff _ _).1 hd
  vars e he := ⟨⟨e.2, Table.get?_of_mem_entries hu.loaded.sourced.varNames he, rfl, rfl, rfl⟩, hu.filled.vars e he⟩

theorem frame {v : World} (h : Sane u j w) (hgraphs : v.graphs = w.graphs) : Sane u j v where
  outlined := h.outlined.frame hgraphs
  sockets := by simpa only [World.node, World.graph, hgraphs] using h.sockets
  counts := by simpa only [World.node, World.graph, hgraphs] using h.counts
  vars := by simpa only [World.graph, hgraphs] using h.vars

/-- A node may change as long as its data is of its types. -/
theorem modifyNode (h : Sane u j w) (x : NodeRef) {f : Node → Node} (hf : (f (w.node x)).outline = (w.node x).outline)
    (hinputs : u.Member j x → ∀ s ∈ (f (w.node x)).inputs, (u.graph j).registry.Fills s)
    (houtputs : u.Member j x → ∀ s ∈ (f (w.node x)).outputs, (u.graph j).registry.Fills s)
    (hcounts : u.Member j x → (u.node x).definition.behaviour = .flow (some .counter) → ∀ fields n,
      (f (w.node x)).state = .dict fields → fields.lookup "count" = some n → ValueType.integer.Holds n) :
    Sane u j (w.modifyNode x f) where
  outlined := h.outlined.modifyNode x hf
  sockets := by
    intro y hy side
    rw [node_modifyNode]
    split
    · rename_i hxy
      rw [← hxy.1] at hy ⊢
      cases side with
      | input => exact hinputs hy
      | output => exact houtputs hy
    · exact h.sockets y hy side
  counts := by
    intro y hy hcounter fields n
    rw [node_modifyNode]
    split
    · rename_i hxy
      rw [← hxy.1] at hy hcounter ⊢
      exact hcounts hy hcounter fields n
    · exact h.counts y hy hcounter fields n
  vars := by
    have hvars : ((w.modifyNode x f).graph j).vars = (w.graph j).vars := by
      rw [World.modifyNode, graph_modifyGraph]
      split <;> rfl
    exact hvars ▸ h.vars

/-- What the nodes are made of may stay while labels are given and variables change. -/
theorem modifyGraph (h : Sane u j w) (k : Nat) {g : Graph} (hout : g.outline = (w.graph k).outline)
    (harena : g.arena = (w.graph k).arena)
    (hvars : k = j → ∀ e ∈ g.vars.entries, (u.graph j).Knew e.1 e.2 ∧ e.2.IsFilled) :
    Sane u j (w.modifyGraph k fun _ => g) where
  outlined := h.outlined.modifyGraph k hout
  sockets := by simpa only [w.node_modifyGraph (f := fun _ => g) harena] using h.sockets
  counts := by simpa only [w.node_modifyGraph (f := fun _ => g) harena] using h.counts
  vars := by
    rw [graph_modifyGraph]
    split
    · rename_i hk
      exact hvars hk.1
    · exact h.vars

theorem stamp (h : Sane u j w) (k : Nat) (v : Value) : Sane u j (w.stamp k v).2 := by
  unfold World.stamp
  split
  · obtain ⟨n, hn⟩ := (w.graph k).stamp_eq v
    refine h.modifyGraph k ?_ ?_ fun hk => ?_
    · rw [hn]
      rfl
    · rw [hn]
    · subst hk
      rw [hn]
      exact h.vars
  · exact h

/-- Putting a value of its type at an input leaves the data of the node of its types. -/
theorem setInput (h : Sane u j w) (x : NodeRef) {place : Nat} {v : Value}
    (hv : ∀ s, (w.node x).inputs[place]? = some s → s.isFlow = false → (u.graph j).registry.Types s.valueType v) :
    Sane u j (w.modifyNode x (·.setInput place v)) := by
  exact h.modifyNode x (Node.outline_setInput ..) (fun hx => Registry.fills_modify (h.sockets x hx .input) hv)
    (fun hx => h.sockets x hx .output) fun hx => h.counts x hx

/-- What the output allows may be written there. -/
theorem write (h : Sane u j w) {x : NodeRef} {name : String} {v : Value} {n : Node} (hv : u.Allows .output x name v)
    (hn : (w.node x).write name v = .ok n) : Sane u j (w.modifyNode x fun _ => n) := by
  have hout := Node.outline_write hn
  unfold Node.write at hn
  split at hn
  · rename_i place s hplace hs
    split at hn
    · cases hn
    · cases hn
      refine h.modifyNode x hout (fun hx => h.sockets x hx .input)
        (fun hx => Registry.fills_modify (h.sockets x hx .output) fun t ht hflow => ?_) fun hx => h.counts x hx
      obtain ⟨a, ha, htype⟩ := h.outlined.find?_of .output hs
      have hs : (w.node x).outputs.find? (·.name = name) = some s := hs
      rw [Node.find?_eq_place?, hplace, Option.bind_some] at hs
      cases ht.symm.trans hs
      have htypes := hv a ha (by rw [Socket.isFlow, htype]; exact hflow)
      rwa [htype, registryOf, hx.1] at htypes
  · cases hn

/-- What is read at an input is what the input allows. -/
theorem read (h : Sane u j w) {x : NodeRef} (hx : u.Member j x) {name : String} {v : Value}
    (hv : (w.node x).read name = .ok v) : u.Allows .input x name v := by
  unfold Node.read at hv
  split at hv
  · cases hv
  · rename_i s hs
    split at hv
    · cases hv
    · rename_i hflow
      cases hv
      obtain ⟨a, ha, htype⟩ := h.outlined.find?_of .input hs
      intro a' ha' _
      cases ha.symm.trans ha'
      rw [htype, registryOf, hx.1]
      exact h.sockets x hx .input s (List.mem_of_find?_eq_some hs) (by simpa using hflow)

/-- A variable may be put in the place of one that was declared, if it holds values of its type. -/
theorem set (h : Sane u j w) (k : Nat) (value : Value) {name : String} {y : Variable}
    (hy : k = j → (u.graph j).Knew name y ∧ y.IsFilled) :
    Sane u j (w.modifyGraph k fun _ =>
      { ((w.graph k).stamp value).1 with vars := ((w.graph k).stamp value).1.vars.set name y }) := by
  obtain ⟨n, hn⟩ := (w.graph k).stamp_eq value
  rw [hn]
  refine h.modifyGraph k rfl rfl fun hk e he => ?_
  rcases Table.mem_entries_set he with rfl | he
  · exact hy hk
  · subst hk
    exact h.vars e he

theorem basic (hu : (u.graph j).Solid ds) {name : String} {y : Variable} (hy : (u.graph j).Knew name y) :
    y.valueType.IsBasic ∧ y.name = name := by
  obtain ⟨z, hz, hname, -, htype⟩ := hy
  obtain ⟨hzname, hregistered⟩ := hu.loaded.sourced.vars _ (Table.mem_entries_of_get? hz)
  exact ⟨htype ▸ (hu.standard.valueType_spec hregistered).2, hname.symm.trans hzname⟩

/-- Whatever a variable is assigned, its value is one of its type, and so is what is told. -/
theorem assign (hu : (u.graph j).Solid ds) (h : Sane u j w) {v : World} (hv : Sane u j v) {k : Nat} {name : String}
    {x : Variable} (hx : (v.graph k).vars.get? name = some x) {value : Value} {changed : Graph} {told : Option Value}
    (hchanged : (w.graph k).assign x value = .ok (changed, told)) :
    Sane u j (w.modifyGraph k fun _ => changed) ∧ (k = j → ∀ new, told = some new → x.valueType.Holds new) := by
  obtain ⟨coerced, y, hcoerced, hput, rfl⟩ := Graph.assign_eq_ok hchanged
  have hheld (hk : k = j) : x.valueType.Holds ((w.graph k).stamp coerced).2 := by
    subst hk
    have hknew := (hv.vars _ (Table.mem_entries_of_get? hx)).1
    exact ((w.graph k).stamp_spec (ValueType.holds_coerce (basic hu hknew).1 hcoerced)).1
  refine ⟨h.set k coerced fun hk => ?_, fun hk => (Variable.holds_put (hheld hk) hput).2⟩
  obtain ⟨rfl, -⟩ := Variable.holds_put (hheld hk) hput
  have hnow := hheld hk
  subst hk
  obtain ⟨hknew, hfilled⟩ := hv.vars _ (Table.mem_entries_of_get? hx)
  have hname := (basic hu hknew).2
  obtain ⟨z, hz, hsame⟩ := hknew
  exact ⟨⟨z, hname.symm ▸ hz, hsame⟩, hnow, hfilled.2⟩

/-- Whatever a variable is set to, it starts from a value of its type. -/
theorem setVariable (hu : (u.graph j).Solid ds) (h : Sane u j w) {k : Nat} {name : String} {value : Value} {changed : Graph}
    {told : Option Value} (hchanged : (w.graph k).setVariable name value = .ok (changed, told)) :
    Sane u j (w.modifyGraph k fun _ => changed) ∧
      (k = j → ∀ x, changed.vars.get? name = some x → (u.graph j).Knew name x ∧ ∀ new, told = some new → x.valueType.Holds new) := by
  obtain ⟨x, coerced, initial, y, hx, hcoerced, hinitial, hput, rfl⟩ := Graph.setVariable_eq_ok hchanged
  have hall (hk : k = j) : (u.graph j).Knew name y ∧ y.IsFilled ∧ ∀ new, told = some new → y.valueType.Holds new := by
    subst hk
    obtain ⟨hknew, hfilled⟩ := h.vars _ (Table.mem_entries_of_get? hx)
    have hheld := ((w.graph k).stamp_spec (ValueType.holds_coerce (basic hu hknew).1 hcoerced)).1
    cases hheld.clone.symm.trans hinitial
    obtain ⟨rfl, htold⟩ := Variable.holds_put (x := { x with initial := ((w.graph k).stamp coerced).2 }) hheld hput
    exact ⟨hknew, ⟨hheld, hheld⟩, htold⟩
  refine ⟨h.set k coerced fun hk => ⟨(hall hk).1, (hall hk).2.1⟩, fun hk z hz => ?_⟩
  obtain rfl : y = z := by simpa using hz
  exact ⟨(hall hk).1, (hall hk).2.2⟩

end Sane

end World

end FlowGraph
