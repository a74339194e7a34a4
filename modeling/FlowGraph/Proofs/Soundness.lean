import FlowGraph.Proofs.Blameless
import FlowGraph.Proofs.Sanity

/-!
Soundness of types. Main statement: in a graph that was loaded from a document over the profiles without state, whose
events have no two parameters of one name, all sockets and variables hold values of their types, whatever a host does.
-/
namespace FlowGraph

open World Play

theorem Table.lookup_entries {α : Type} (t : Table String α) (key : String) : t.entries.lookup key = t.get? key := by
  obtain ⟨entries⟩ := t
  rw [get?]
  induction entries with
  | nil => rfl
  | cons e es ih =>
    obtain ⟨name, a⟩ := e
    by_cases he : name = key
    · simp [he]
    · have hne : (key == name) = false := by simpa using fun h => he h.symm
      rw [List.lookup_cons, hne, List.find?_cons_of_neg (by simpa using he)]
      exact ih

/-- What the host does goes with the types of the graph at the place: engines are made for it, and an event of it is
triggered with values of the types of its parameters. -/
def HostAct.IsTyped (j : Nat) (g : Graph) : HostAct → Prop
  | makeEngine _ k _ => k = j
  | trigger k event values => k = j → ∀ e, g.events.get? event = some e → ∀ p ∈ e.parameters, ∀ v, (p.name, v) ∈ values →
      g.registry.Types p.valueType v
  | _ => True

namespace Contract

/-- What keeps the data of the graph at a place of its types, whatever may go wrong: nobody reads, remembers or is told
a value that is not of the type that the socket for it has. -/
def typed (u : World) (j : Nat) : Contract where
  holds := u.Sane j
  uses := u.Member j
  behaviour x := (u.node x).definition.behaviour
  takes := u.Allows .input
  sets x key v := (u.node x).configuration.get? key = some v
  keeps x key v := key = "count" → (u.node x).definition.behaviour = .flow (some .counter) → ValueType.integer.Holds v
  knows x y := ∃ v name, (u.node x).configuration.get? variableKey = some v ∧ v.key? = .ok (some name) ∧
    ∃ w, u.Sane j w ∧ (w.graph x.graph).vars.get? name = some y
  calls x e := ∃ v, (u.node x).configuration.get? eventKey = some v ∧ (u.graph j).eventOf v = .ok (some e)
  gives := u.Allows .output
  heeds
    | .nextOutput c _ => u.Member j c.node
    | .nextRound c i _ => u.Member j c.node ∧ ValueType.integer.Holds i ∧
        ∀ k, ValueType.integer.Holds k → u.Allows .output c.node "index" k
    | .script _ _ => False
    | .host _ _ => True
  leads r := r.graph = j ∧ r.wire ∈ (u.graph j).wires
  waits := u.Member j
  hears t x := u.Member j x ∧ match t with
    | .tick => ∀ v, ValueType.float.Holds v → u.Allows .output x "delta_seconds" v
    | .variableChange k serial => k = j ∧ ∀ e ∈ (u.graph j).vars.entries, e.2.serial = serial →
        ∀ v, e.2.valueType.Holds v → u.Allows .output x "value" v
    | .eventTrigger k serial => k = j ∧ ∀ e ∈ (u.graph j).events.entries, e.2.serial = serial →
        ∀ p ∈ e.2.parameters, ∀ v, (u.graph j).registry.Types p.valueType v → u.Allows .output x p.name v
    | _ => True
  admits _ := True

variable {ds : List Definition} {u : World} {j : Nat} (hu : (u.graph j).Solid ds) {b : World} {c : Context} {x : NodeRef}

/-- What is told of a variable may be written where the variable is watched. -/
theorem tells_changed {k : Nat} (name : String) {y : Variable} {new : Value}
    (hnew : k = j → (u.graph j).Knew name y ∧ y.valueType.Holds new) :
    (typed u j).Tells (.variableChange k y.serial) (.changed new) := by
  rintro x ⟨-, hk, hx⟩ values ⟨⟩ p hp
  obtain ⟨⟨z, hz, -, hserial, htype⟩, hheld⟩ := hnew hk
  rw [List.mem_singleton.1 hp]
  exact hx (name, z) (Table.mem_entries_of_get? hz) hserial new (htype ▸ hheld)

theorem typed_reads (hc : u.Member j c.node) (name : String) :
    (typed u j).Does b (c.read name) (u.Allows .input c.node name) := by
  refine Yields.bind yields_self ?_
  rintro n ⟨w, hw, rfl⟩
  exact .of_fault (fun v hv => World.Sane.read hw hc hv) fun _ _ => trivial

theorem typed_setting (key : String) :
    (typed u j).Does b (c.setting key) fun v => (u.node c.node).configuration.get? key = some v :=
  yields_setting (C := typed u j) (fun _ hw => (congrArg Node.configuration (hw.outlined.node c.node) :)) trivial

theorem typed_memory (hc : u.Member j c.node) (key : String) :
    (typed u j).Does b (c.memory key) ((typed u j).keeps c.node key) := by
  refine Yields.bind yields_self ?_
  rintro n ⟨w, hw, rfl⟩
  split
  · rename_i fields hstate
    split
    · rename_i v hv
      refine .of_pure ?_
      rintro rfl hcounter
      exact World.Sane.counts hw c.node hc hcounter fields v hstate hv
    · exact .of_throw trivial
  · exact .of_throw trivial

/-- A node may remember what its state may hold. -/
theorem typed_remember {key : String} {v : Value} (hv : (typed u j).keeps c.node key v) :
    (typed u j).Does b (c.remember key v) fun _ => True := by
  refine Yields.bind yields_self ?_
  rintro n ⟨w, hw, rfl⟩
  split
  · rename_i fields hstate
    refine Does.of_kept fun w' h => h.graphs (World.Sane.modifyNode h.holds c.node rfl
      (fun hc => World.Sane.sockets h.holds c.node hc .input) (fun hc => World.Sane.sockets h.holds c.node hc .output) ?_) rfl
    rintro hc hcounter _ m ⟨⟩ hm
    rw [Table.lookup_entries, Table.get?_set] at hm
    split at hm
    · rename_i hkey
      cases hm
      exact hv hkey hcounter
    · exact World.Sane.counts hw c.node hc hcounter fields m hstate (by rwa [← Table.lookup_entries] at hm)
  · exact .of_throw trivial

theorem typed_variableNamed {v : Value}
    (hv : (u.node c.node).configuration.get? variableKey = some v) :
    (typed u j).Does b (c.variableNamed v) ((typed u j).knows c.node) := by
  refine Does.look fun w h => Yields.bind
    (Q := fun o => ∀ y, o = some y → (typed u j).knows c.node y) (.of_fault (fun o ho => ?_) fun _ _ => trivial) fun o ho => ?_
  · rintro y rfl
    obtain ⟨name, hname, hy⟩ := bind_eq_ok.1 ho
    simp only [pure, Except.pure, Except.ok.injEq, Option.bind_eq_some_iff] at hy
    obtain ⟨name, rfl, hy⟩ := hy
    exact ⟨v, name, hv, hname, w, h.holds, hy⟩
  · cases o with
    | some y => exact .of_pure (ho y rfl)
    | none => exact Yields.bind (Q := fun _ => True) (.of_fault (fun _ _ => trivial) fun _ _ => trivial) fun _ _ => .of_throw trivial

theorem typed_eventNamed (hc : u.Member j c.node) {v : Value}
    (hv : (u.node c.node).configuration.get? eventKey = some v) :
    (typed u j).Does b (c.eventNamed v) ((typed u j).calls c.node) := by
  refine Does.look fun w h => Yields.bind
    (Q := fun o => ∀ e, o = some e → (typed u j).calls c.node e) (.of_fault (fun o ho => ?_) fun _ _ => trivial) fun o ho => ?_
  · rintro e rfl
    have hevents : (w.graph j).events = (u.graph j).events := (congrArg Graph.events (World.Sane.outlined h.holds |>.graph j) :)
    rw [hc.1, Graph.eventOf, hevents] at ho
    exact ⟨v, hv, ho⟩
  · cases o with
    | some e => exact .of_pure (ho e rfl)
    | none => exact Yields.bind (Q := fun _ => True) (.of_fault (fun _ _ => trivial) fun _ _ => trivial) fun _ _ => .of_throw trivial

/-- What a node may find by its setting is the variable that was declared when the node was made. -/
theorem variableOf_of_knows (hx : u.Member j x) {y : Variable} (hy : (typed u j).knows x y) :
    ∃ v z, (u.node x).configuration.get? variableKey = some v ∧ (u.graph j).variableOf v = .ok (some z) ∧
      (∃ name, (name, z) ∈ (u.graph j).vars.entries) ∧ z.serial = y.serial ∧ z.valueType = y.valueType ∧ y.IsFilled := by
  obtain ⟨v, name, hv, hname, w, hw, hy⟩ := hy
  rw [hx.1] at hy
  obtain ⟨⟨z, hz, -, hserial, htype⟩, hfilled⟩ := hw.vars _ (Table.mem_entries_of_get? hy)
  refine ⟨v, z, hv, ?_, ⟨name, Table.mem_entries_of_get? hz⟩, hserial, htype, hfilled⟩
  rw [Graph.variableOf, hname]
  simp only [bind, Except.bind, Option.bind_some, hz, pure, Except.pure]

theorem typed_setInput {place : Nat} {v : Value}
    (hv : ∀ a, (u.node x).inputs[place]? = some a → a.isFlow = false → (u.graph j).registry.Types a.valueType v) :
    (typed u j).Does b (modify (·.modifyNode x (·.setInput place v))) fun _ => True := by
  refine Does.of_kept fun w h => h.graphs (World.Sane.setInput h.holds x fun s hs hflow => ?_) rfl
  obtain ⟨a, ha, has⟩ := (World.Sane.outlined h.holds).getElem? .input hs
  have htype : a.valueType = s.valueType := (congrArg Socket.valueType has :)
  rw [← htype]
  exact hv a ha (by rwa [Socket.isFlow, htype])

theorem integer_of_next {i k : Value} (hi : ValueType.integer.Holds i) (hk : i.add (.int 1) = .ok k) :
    ValueType.integer.Holds k :=
  have hadd : Binary.add.result? .integer .integer = some .integer := rfl
  Binary.holds_apply hadd hi (.integer 1) hk

section Laws

include hu

/-- The contract of types is lawful: it asks for nothing that a step could break. -/
theorem typed_lawful : (typed u j).Lawful where
  frame := fun hgraphs h => h.frame hgraphs
  mark := fun h x error lastOutput =>
    h.modifyNode x rfl (fun hx => h.sockets x hx .input) (fun hx => h.sockets x hx .output) fun hx => h.counts x hx
  stamp := fun h => h.stamp
  stamped := fun h => h.stamp
  write := fun h => fun hx hn => h.write hx hn
  refused := fun _ => fun _ _ => trivial
  assign := by
    intro v w hv h k name x value changed told hx hchanged
    obtain ⟨hsane, htold⟩ := h.assign hu hv hx hchanged
    have hknew : k = j → (u.graph j).Knew name x := by
      rintro rfl
      exact (hv.vars _ (Table.mem_entries_of_get? hx)).1
    exact ⟨hsane, fun new hnew => tells_changed name fun hk => ⟨hknew hk, htold hk new hnew⟩⟩
  wires := fun h => fun hx => fun hs _ wire hwire => ⟨hx.1, h.outlined.mem_wires hu.loaded.indexed hx hs hwire⟩
  goesOn := fun _ => fun _ => fun _ => trivial
  misuse := fun _ _ => fun _ => trivial
  plain := fun _ => trivial
  unfit := fun _ _ _ => trivial
  wrapped := fun _ _ _ => fun _ => trivial
  behaviour := fun h => fun _ => congrArg Definition.behaviour (h.outlined.definition _)
  missing := fun _ _ _ _ => trivial
  unresolved := fun _ => fun _ _ => trivial
  target := fun h => fun hr => fun hends =>
    ⟨h.outlined.target hu.loaded.indexed hr.1 hr.2 hends, fun _ _ _ => trivial⟩
  waiting := id
  hearing := And.left
  paths := fun h _ => h

/-- A value is kept as one of its types. -/
theorem typed_stamp (k : Nat) (v : Value) : (typed u j).Does b (Play.stamp k v) fun v' =>
    ∀ typeName, (u.graph j).registry.Types typeName v → (u.graph j).registry.Types typeName v' := by
  refine fun w h => ⟨h.stamp (typed_lawful hu) k v, fun v' hv' typeName htypes => ?_, fun _ he => by cases he⟩
  cases hv'
  exact Registry.types_stamp htypes w k

/-- An input may be filled in: what is created for its type is of the type. -/
theorem typed_fillInput (i : Nat) {w : World} (hw : u.Sane j w) (hx : u.Member j x) (place : Nat) :
    (typed u j).Does b (fillInput i x place (((w.node x).inputs[place]?).getD default)) fun _ => True := by
  unfold fillInput
  split
  · refine Does.look fun v hv => Yields.bind
      (Q := fun t => (v.registryOf x).valueType (((w.node x).inputs[place]?).getD default).valueType = .ok t)
      (.of_integrity (fun _ ht => ht) fun _ _ => trivial) fun t ht => ?_
    rw [(World.Sane.outlined hv.holds).registryOf, registryOf, hx.1] at ht
    refine (typed_stamp hu x.graph t.create).bind fun value hvalue => (typed_setInput fun a ha _ => ?_).bind fun _ _ =>
      Does.look fun w h => Does.of_kept fun w h => h.tell (typed_lawful hu) i fun _ _ _ _ he => by cases he
    obtain ⟨s, hs, hsa⟩ := Outlined.getElem? hw.outlined.symm .input ha
    have htype : s.valueType = a.valueType := (congrArg Socket.valueType hsa :)
    rw [show (w.node x).inputs[place]? = some s from hs, Option.getD_some, htype] at ht
    exact hvalue _ ⟨t, ht, ValueType.holds_create (hu.standard.valueType_spec ht).2⟩
  · exact .of_pure trivial

/-- What is carried across a link is of the type of the input. -/
theorem typed_pullAcross {w : World} (hw : u.Sane j w) (hx : u.Member j x) {place : Nat} {ends : Ends}
    (hends : (((w.node x).inputs[place]?).getD default).wires.head?.bind (w.graph x.graph).endsOf = some ends) :
    (typed u j).Does b (pullAcross x place (((w.node x).inputs[place]?).getD default) ends.source) fun _ => True := by
  obtain ⟨hsource, o, s, ho, hs, hfit⟩ := hw.outlined.fed hu.loaded.indexed hx hends
  rw [hs, Option.getD_some]
  have hregistry : u.registryOf x = (u.graph j).registry := by rw [registryOf, hx.1]
  have hcarried {v : World} (hv : u.Sane j v) {value : Value} (h : carried v x s ends.source = .ok value)
      (hflow : s.isFlow = false) : (u.graph j).registry.Types s.valueType value := by
    obtain ⟨o', ho', htype⟩ := hv.outlined.outputAt? x.graph ho
    have hmem : o' ∈ (v.node ⟨x.graph, ends.source.node⟩).outputs := by
      obtain ⟨n, hn, ho'⟩ := Option.bind_eq_some_iff.1 ho'
      rw [node, hn, Option.getD_some]
      exact List.mem_of_getElem? ho'
    have hdata : o'.isFlow = false := by
      rw [Registry.canConnect] at hfit
      split at hfit
      · rename_i hor
        rw [Socket.isFlow] at hflow ⊢
        rw [eq_of_beq hfit] at htype
        rw [htype, hflow]
      · rename_i hnone
        rw [Socket.isFlow, htype]
        simpa using fun h => hnone (.inl h)
    unfold carried at h
    simp only [ho', Option.getD_some] at h
    split at h
    · rename_i hconvert
      cases h
      rw [hv.outlined.registryOf, hregistry] at hconvert
      exact Registry.types_convert hu.standard hu.converts (hv.sockets _ hsource .output o' hmem hdata) hconvert
    · cases h
  refine Does.look fun v hv => Yields.bind (Q := fun value => s.isFlow = false → (u.graph j).registry.Types s.valueType value)
    (.of_except (fun value h => hcarried hv.holds h) fun _ _ => trivial) fun value hvalue => ?_
  refine (typed_stamp hu x.graph value).bind fun value' hvalue' => typed_setInput fun a ha hflow => ?_
  obtain ⟨s', hs', hsa⟩ := Outlined.getElem? hw.outlined.symm .input ha
  cases hs.symm.trans hs'
  have htype : s.valueType = a.valueType := (congrArg Socket.valueType hsa :)
  rw [← htype]
  exact hvalue' _ (hvalue (by rwa [Socket.isFlow, htype]))

/-- What a function node computes is of the types of its outputs. -/
theorem typed_suits (hx : u.Member j x) {y : FunctionBehaviour} (hy : (typed u j).behaviour x = .function (some y)) :
    y.Suits ((typed u j).takes x) ((typed u j).gives x) := by
  have hdata := (hu.typed hx).data
  rw [Definition.isTypedData, show (u.node x).definition.behaviour = _ from hy] at hdata
  exact FunctionBehaviour.suits_of_isTyped hdata (fun hv ht => (hu.allows_own hx .input ht _).1 hv)
    fun ht hv => (hu.allows_own hx .output ht _).2 hv

/-- A variable of the graph is told to nodes that have an output for it, of its type. -/
theorem typed_valued (hx : u.Member j x) (side : Side) (hsource : (side.source (u.node x).definition).isOfVariable = true)
    {y : Variable} (hy : (typed u j).knows x y) {v : Value} (hv : y.valueType.Holds v) : u.Allows side x "value" v := by
  obtain ⟨name, z, hname, hz, -, -, htype, -⟩ := variableOf_of_knows hx hy
  exact hu.allows_value hx side hsource hname hz (htype ▸ hv)

/-- What an event node subscribes to is told to outputs of the types. -/
theorem typed_hears (hx : u.Member j x) :
    match (typed u j).behaviour x with
    | .event (some .start) => (typed u j).hears .start x
    | .event (some .update) => (typed u j).hears .tick x
    | .event (some .ending) => (typed u j).hears .ending x
    | .event (some .customEvent) => ∀ e, (typed u j).calls x e → (typed u j).hears (.eventTrigger x.graph e.serial) x
    | .event (some .variableChanged) => ∀ y, (typed u j).knows x y → (typed u j).hears (.variableChange x.graph y.serial) x
    | .event (some .stateChanged) => ∀ path, (typed u j).hears (.stateChange path) x
    | _ => True := by
  have hnames := (hu.typed hx).fit.names
  have hdata := (hu.typed hx).data
  rw [Definition.isFitNames] at hnames
  rw [Definition.isTypedData] at hdata
  split
  · exact ⟨hx, trivial⟩
  · rename_i hy
    rw [show (u.node x).definition.behaviour = _ from hy] at hdata
    exact ⟨hx, fun v hv => (hu.allows_own hx .output (of_decide_eq_true hdata) v).2 hv⟩
  · exact ⟨hx, trivial⟩
  · rename_i hy
    rintro e ⟨name, hname, he⟩
    rw [show (u.node x).definition.behaviour = _ from hy] at hnames
    obtain ⟨key, hkey⟩ := Graph.mem_events_of_eventOf he
    refine ⟨hx, hx.1, fun e' he' hserial p hp v hv => ?_⟩
    cases hu.loaded.serials e' he' (key, e) hkey hserial
    exact (hu.allows_parameter hx .output hnames hname he hp v).2 hv
  · rename_i hy
    intro y hknows
    rw [show (u.node x).definition.behaviour = _ from hy] at hnames
    obtain ⟨v, z, -, -, ⟨key, hkey⟩, hserial, htype, -⟩ := variableOf_of_knows hx hknows
    refine ⟨hx, hx.1, fun e he hsame value hvalue => typed_valued hu hx .output hnames hknows ?_⟩
    cases hu.loaded.serialsVars e he (key, z) hkey (hsame.trans hserial.symm)
    exact htype ▸ hvalue
  · exact fun _ => ⟨hx, trivial⟩
  · trivial

/-- The values that an event is called with may be written where its parameters are. -/
theorem tells_called {k : Nat} {name : String} {e : CustomEvent} (he : (name, e) ∈ (u.graph j).events.entries)
    {given : List (String × Value)}
    (hgiven : k = j → ∀ p ∈ e.parameters, ∀ v, (p.name, v) ∈ given → (u.graph j).registry.Types p.valueType v) :
    (typed u j).Tells (.eventTrigger k e.serial) (.triggered (e.payload given)) := by
  rintro x ⟨-, hk, hx⟩ values ⟨⟩ p hp
  obtain ⟨q, hq, rfl⟩ := List.mem_map.1 (Table.mem_entries_ofList hp)
  refine hx (name, e) he rfl q hq _ ?_
  cases hv : (Table.ofList given).get? q.name with
  | none => exact (hu.filled.events _ he).2 q hq
  | some v => exact hgiven hk q hq v (Table.mem_entries_ofList (Table.mem_entries_of_get? hv))

/-- The contract of types is served by all behaviours. -/
theorem typed_served : (typed u j).Served where
  toLawful := typed_lawful hu
  fills := fun h hx _ i place => typed_fillInput hu i h hx place
  sources := fun h hx hends => ⟨(h.outlined.fed hu.loaded.indexed hx hends).1, fun _ => typed_pullAcross hu h hx hends⟩
  spares := fun _ _ _ _ _ _ => trivial
  unscripted := fun hx => (hu.typed hx).fit.plain
  reads := fun hx _ _ _ => typed_reads hx _
  assigned := fun hx _ _ _ => typed_reads hx _
  parameter := fun hx _ _ _ _ => typed_reads hx _
  setting := fun _ _ _ _ => typed_setting _
  memory := fun hx _ _ _ => typed_memory hx _
  remember := fun _ hv _ => typed_remember hv
  service := fun c name b => Does.look fun _ _ => .of_fault (fun _ _ => trivial) fun _ _ => trivial
  storeless := fun _ => trivial
  typeless := fun _ => trivial
  variableNamed := fun _ hv _ => typed_variableNamed hv
  eventNamed := fun hx hv _ => typed_eventNamed hx hv
  known := fun ⟨_, name, _, _, w, hw, hy⟩ => ⟨w, name, hw, hy⟩
  valued := by
    intro x y v hx hy hknows hv
    have hnames := (hu.typed hx).fit.names
    rw [Definition.isFitNames] at hnames
    have hheld : y.valueType.Holds v := by
      obtain ⟨-, -, -, -, -, -, -, hvalue, -⟩ := variableOf_of_knows hx hknows
      cases hvalue.clone.symm.trans (lifted_eq_ok.1 hv)
      exact hvalue
    rcases hy with hy | hy
    · rw [show (u.node x).definition.behaviour = _ from hy, Bool.and_eq_true] at hnames
      exact typed_valued hu hx .output hnames.2 hknows hheld
    · rw [show (u.node x).definition.behaviour = _ from hy] at hnames
      exact typed_valued hu hx .output hnames hknows hheld
  called := by
    rintro x e values hx hy ⟨name, hname, he⟩ hvalues
    have hnames := (hu.typed hx).fit.names
    rw [Definition.isFitNames, show (u.node x).definition.behaviour = _ from hy] at hnames
    obtain ⟨key, hkey⟩ := Graph.mem_events_of_eventOf he
    refine tells_called hu hkey fun _ p hp v hv => ?_
    obtain ⟨q, hq, hqp, htakes⟩ := mem_right_of_forall₂ hvalues hv
    have hsame : p.name = q.name := hqp
    obtain rfl := List.inj_on_of_nodup_map (hu.filled.events _ hkey).1 hp hq hsame
    exact (hu.allows_parameter hx .input hnames hname he hp v).1 htakes
  computes := fun hx hy => typed_suits hu hx hy
  flips := by
    intro x hx hy isA
    have hdata := (hu.typed hx).data
    rw [Definition.isTypedData, show (u.node x).definition.behaviour = _ from hy] at hdata
    exact (hu.allows_own hx .output (of_decide_eq_true hdata) _).2 (.boolean isA)
  marks := by
    rintro x key hkey isSet rfl
    simp at hkey
  counts := by
    intro x hx hy
    have hdata := (hu.typed hx).data
    rw [Definition.isTypedData, show (u.node x).definition.behaviour = _ from hy] at hdata
    refine ⟨fun _ _ => .integer 0, fun n hn => ?_⟩
    have hheld := hn rfl hy
    refine ⟨(hu.allows_own hx .output (of_decide_eq_true hdata) n).2 hheld, fun m hm _ _ => ?_⟩
    exact integer_of_next hheld hm
  loops := by
    intro c i l hx hy hi hl
    have hdata := (hu.typed hx).data
    rw [Definition.isTypedData, show (u.node c.node).definition.behaviour = _ from hy, Bool.and_eq_true] at hdata
    exact ⟨hx, (hu.allows_own hx .input (of_decide_eq_true hdata.1) i).1 hi,
      fun k hk => (hu.allows_own hx .output (of_decide_eq_true hdata.2) k).2 hk⟩
  rounds := by
    rintro c i l ⟨hx, hi, hindex⟩
    exact ⟨hx, hindex i hi, fun k hk => ⟨hx, integer_of_next hi hk, hindex⟩⟩
  sequences := Iff.rfl
  unheeded := id
  hears := fun hx => typed_hears hu hx
  suspends := fun hx _ => hx

/-- Typed acts of a host are permitted. -/
theorem typed_permits {a : HostAct} (ha : a.IsTyped j (u.graph j)) : (typed u j).Permits a := by
  cases a with
  | makeEngine name k settings =>
    obtain rfl : k = j := ha
    exact fun w h n hn => h.outlined.member_of_mem_ids hu.loaded.indexed hn
  | tick seconds =>
    rintro x ⟨-, hx⟩ values hvalues p hp
    obtain ⟨v, hv, rfl⟩ := map_eq_ok.1 hvalues
    rw [List.mem_singleton.1 hp]
    exact hx v (ValueType.float_of_toFloat hv)
  | trigger k event values =>
    intro w h e he
    by_cases hk : k = j
    · subst hk
      have hevents : (w.graph k).events = (u.graph k).events := (congrArg Graph.events (h.outlined.graph k) :)
      rw [hevents] at he
      exact tells_called hu (Table.mem_entries_of_get? he) fun _ => ha rfl e he
    · rintro x ⟨-, hj, -⟩
      exact absurd hj hk
  | reset k name v =>
    intro w h
    refine ⟨fun _ _ => trivial, fun g told hset => ?_⟩
    obtain ⟨hsane, htold⟩ := h.setVariable hu hset
    refine ⟨hsane, fun new x hnew hx => tells_changed name fun hk => ?_⟩
    obtain ⟨hknew, hheld⟩ := htold hk x hx
    exact ⟨hknew, hheld new hnew⟩
  | _ => trivial

end Laws

end Contract

namespace Graph

/-- A document over the profiles without state whose events have no two parameters of one name makes a solid graph. -/
theorem Solid.of_document {services : List Service} {check : Bool} {r : Registry}
    (hr : Registry.create Catalogue.statelessProfiles services check = .ok r) {d : Document} (hdistinct : d.Distinct)
    {policy : Bool} {labels : Nat} {g : Graph}
    (hg : d.toGraph { registry := r, replaceLinks := policy, labels := labels } = .ok g) :
    g.Solid (Catalogue.coreNodes ++ Catalogue.vectorDefinitions) := by
  obtain ⟨hstandard, hconverts⟩ := Registry.standard_of_stateless hr
  have hloaded := Loaded.toGraph hstandard hg
  have hregistry := hloaded.sourced.registry
  have hsound : ∀ d ∈ Catalogue.coreNodes ++ Catalogue.vectorDefinitions, d.isSound = true :=
    fun d hd => Catalogue.isSound_definitions d (List.mem_append_left _ hd)
  exact ⟨hregistry.symm ▸ hstandard, hregistry.symm ▸ hconverts, Catalogue.typed_definitions, hregistry.symm ▸ hloaded,
    Filled.toGraph hstandard hsound hdistinct hg⟩

/-- Types are sound in a run. Let a graph be loaded from a document over the profiles without state, whose events have no
two parameters of one name. Whatever a host does with it, as long as it triggers events with values of the types of their
parameters, every data socket of every node holds a value of its type, and so does every variable, now and at the
start, whatever failed on the way. -/
theorem fills_of_played {services : List Service} {check : Bool} {r : Registry}
    (hr : Registry.create Catalogue.statelessProfiles services check = .ok r) {document : Value} {d : Document}
    (hd : Document.ofValue document = .ok d) (hdistinct : d.Distinct) {policy : Bool} {labels : Nat} {g : Graph}
    (hg : ofValue document { registry := r, replaceLinks := policy, labels := labels } = .ok g) {w : World} (hw : w.Untouched)
    {j : Nat} (hj : w.graph j = g) {acts : List HostAct} (hacts : ∀ a ∈ acts, a.IsTyped j g) :
    (∀ n ∈ ((HostAct.playAll acts w).2.graph j).nodes, ∀ side : Side, ∀ s ∈ side.sockets n, r.Fills s) ∧
      ∀ e ∈ ((HostAct.playAll acts w).2.graph j).vars.entries, e.2.IsFilled := by
  obtain ⟨d', hd', hg⟩ := bind_eq_ok.1 hg
  cases hd.symm.trans hd'
  have hregistry := (Loaded.toGraph (Registry.standard_of_stateless hr).1 hg).sourced.registry
  have hsolid := hj.symm ▸ Solid.of_document hr hdistinct hg
  subst hj
  obtain ⟨hkept, -⟩ := Contract.kept_playAll (Contract.typed_served hsolid).observed
    (fun a ha => Contract.typed_permits hsolid (hacts a ha)) (Contract.Kept.start hw (World.Sane.start hsolid))
  generalize (HostAct.playAll acts w).2 = v at hkept ⊢
  have hsane : w.Sane j v := hkept.holds
  refine ⟨fun n hn side => ?_, fun e he => (hsane.vars e he).2⟩
  obtain ⟨k, hk, hat⟩ := List.mem_filterMap.1 hn
  have hnode : v.node ⟨j, k⟩ = n := by rw [World.node, hat, Option.getD_some]
  rw [← hregistry, ← hnode]
  exact hsane.sockets _ (hsane.outlined.member_of_mem_ids hsolid.loaded.indexed hk) side

/-- A damage that is kept in a variable. -/
def damageDocument : Document := {
  vars := [{ name := "damage", valueType := "integer", initial := .int 0 }]
  events := [{ name := "hit", parameters := [{ name := "amount", valueType := "integer" }] }]
  nodes := [{ id := "hit", typeName := "CustomEvent", configuration := [("event_name", .str "hit")] },
    { id := "set", typeName := "SetVariable", configuration := [("variable_name", .str "damage")] }]
  links := [⟨"hit", "exec", "set", "exec"⟩, ⟨"hit", "amount", "set", "value"⟩] }

def damage : Graph := (ofValue damageDocument.toValue { registry := Catalogue.stateless }).toOption.getD {}

/-- The event is triggered once, and the engine runs. -/
def damageActs : List HostAct := [.makeEngine "engine" 0 {}, .trigger 0 "hit" [("amount", .int 5)], .run 0 none none]

def damaged : World := (HostAct.playAll damageActs { graphs := #[damage] }).2

/-- The damage gets from the event to the variable. -/
theorem fills_of_played_damage : ((damaged.graph 0).vars.get? "damage").map (·.value) = some (.int 5) ∧
    (∀ n ∈ (damaged.graph 0).nodes, ∀ side : Side, ∀ s ∈ side.sockets n, Catalogue.stateless.Fills s) ∧
      ∀ e ∈ (damaged.graph 0).vars.entries, e.2.IsFilled := by
  have hmade : ((damaged.graph 0).vars.get? "damage").map (·.value) = some (.int 5) ∧
      (ofValue damageDocument.toValue { registry := Catalogue.stateless }).toBool = true ∧
      ∀ e ∈ damage.events.values, ∀ p ∈ e.parameters, damage.registry.Types p.valueType (.int 5) := by
    decide +kernel
  obtain ⟨hvalue, hloads, hinteger⟩ := hmade
  have hread : Document.ofValue damageDocument.toValue = .ok damageDocument := by rfl
  have hloaded : ofValue damageDocument.toValue { registry := Catalogue.stateless } = .ok damage := ok_of_toBool hloads {}
  have hacts : ∀ a ∈ damageActs, a.IsTyped 0 damage := by
    simp only [damageActs, List.forall_mem_cons, List.not_mem_nil]
    refine ⟨rfl, fun _ e he p hp v hv => ?_, trivial, fun _ h => h.elim⟩
    obtain rfl : v = .int 5 := congrArg Prod.snd (List.mem_singleton.1 hv)
    exact hinteger e (List.mem_map_of_mem (Table.mem_entries_of_get? he)) p hp
  obtain ⟨huntouched, hgraph⟩ := World.untouched_single damage
  rw [damaged]
  exact ⟨hvalue, fills_of_played Catalogue.create_stateless hread (by decide) hloaded huntouched hgraph hacts⟩

/-- An event with two parameters of one name. -/
def twinDocument : Document := {
  events := [{ name := "e", parameters := [{ name := "x", valueType := "integer" }, { name := "x", valueType := "string" }] }]
  nodes := [{ id := "n", typeName := "CustomEvent", configuration := [("event_name", .str "e")] }] }

def twin : Graph := (ofValue twinDocument.toValue { registry := Catalogue.stateless }).toOption.getD {}

def twinActs : List HostAct := [.makeEngine "engine" 0 {}, .trigger 0 "e" [], .run 0 none none]

/-- The document of the twins is read, and nothing is given that is not of its type, but the value for the second of the
twins gets to the output for the first. -/
theorem not_fills_of_played_twin : Registry.create Catalogue.statelessProfiles [] false = .ok Catalogue.stateless ∧
    ofValue twinDocument.toValue { registry := Catalogue.stateless } = .ok twin ∧ (∀ a ∈ twinActs, a.IsTyped 0 twin) ∧
      ∃ n ∈ ((HostAct.playAll twinActs { graphs := #[twin] }).2.graph 0).nodes, ∃ s ∈ n.outputs,
        s.valueType = "integer" ∧ s.value = .str "" ∧ ¬ Catalogue.stateless.Fills s := by
  have hmade : (ofValue twinDocument.toValue { registry := Catalogue.stateless }).toBool = true ∧
      ∃ n ∈ ((HostAct.playAll twinActs { graphs := #[twin] }).2.graph 0).nodes, ∃ s ∈ n.outputs,
        s.valueType = "integer" ∧ s.value = .str "" ∧ ¬ Catalogue.stateless.Fills s := by
    decide +kernel
  refine ⟨Catalogue.create_stateless, ok_of_toBool hmade.1 {}, ?_, hmade.2⟩
  simp only [twinActs, List.forall_mem_cons, List.not_mem_nil]
  exact ⟨rfl, fun _ _ _ _ _ _ hv => (List.not_mem_nil hv).elim, trivial, fun _ h => h.elim⟩

end Graph

end FlowGraph
