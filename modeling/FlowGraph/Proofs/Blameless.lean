import FlowGraph.Proofs.Serving
import FlowGraph.Proofs.Structural

/-!
Runs without failures of structure. Main statement: in a graph that was loaded from a document and in which the checks
find no problem no failure of structure ever occurs, whatever a host does with it.
-/
namespace FlowGraph

open World Play Contract

/-- From any world that is later than `b` and like `u`, the computation fails, if it fails, with no failure of structure. -/
abbrev Play.Blameless {α : Type} (u : World) (j : Nat) (b : World) (x : Play α) (Q : α → Prop) : Prop :=
  (structural u j).Does b x Q

namespace Play

variable {u : World} {j : Nat} {α : Type}

section Looking

variable {b : World} {c : Context}

theorem blameless_read {input : String} (hinput : u.Has .input c.node input) :
    Blameless u j b (c.read input) fun _ => True := by
  refine Yields.bind yields_self ?_
  rintro n ⟨w, hw, rfl⟩
  refine .of_fault (fun _ _ => trivial) fun f hf => ?_
  obtain ⟨s, hs⟩ := hw.1.find? hinput
  have hs : (w.node c.node).input? input = some s := hs
  simp only [Node.read, hs] at hf
  split at hf
  · cases hf
    rfl
  · cases hf

theorem blameless_setting {key : String} (hkey : (Fault.missing key).isStructural = false) :
    Blameless u j b (c.setting key) fun v => (u.node c.node).configuration.get? key = some v :=
  yields_setting (C := structural u j) (fun _ hw => (congrArg Node.configuration (hw.1.node c.node) :)) hkey

theorem blameless_service (name : String) : Blameless u j b (c.service name) fun _ => True :=
  .look fun _ _ => .of_fault (fun _ _ => trivial) fun _ hf => Registry.not_isStructural_service hf

theorem blameless_memory {key : String} (hkey : (Fault.missing key).isStructural = false) :
    Blameless u j b (c.memory key) fun _ => True := by
  refine Yields.bind yields_self fun n _ => ?_
  split
  · split
    · exact .of_pure trivial
    · exact .of_throw hkey
  · exact .of_throw rfl

theorem blameless_keep {f : World → World} (hf : ∀ w, (structural u j).Kept b w → (structural u j).Kept b (f w)) :
    Blameless u j b (modify f) fun _ => True := Does.of_kept hf

theorem blameless_setState (v : Value) : Blameless u j b (c.setState v) fun _ => True :=
  blameless_keep fun _ h => h.graphs (structural_modifyNode h.holds _ rfl) rfl

theorem blameless_remember (key : String) (v : Value) : Blameless u j b (c.remember key v) fun _ => True := by
  refine Yields.bind yields_self fun n _ => ?_
  split
  · exact blameless_setState _
  · exact .of_throw rfl

end Looking

section Calls

variable (hu : (u.graph j).Sturdy) {b : World} {c : Context}

include hu

theorem refers {x : NodeRef} (hx : u.Member j x) : (u.graph j).Refers (u.node x) := hu.refers _ (hx.nodeAt? hu.indexed).2

/-- The variable that the setting names is there. -/
theorem blameless_variableNamed (hc : u.Member j c.node) {v : Value}
    (hv : (u.node c.node).configuration.get? variableKey = some v) :
    Blameless u j b (c.variableNamed v) ((structural u j).knows c.node) := by
  obtain ⟨x, hx⟩ := (refers hu hc).vars v hv
  obtain ⟨name, hname, hx⟩ := bind_eq_ok.1 hx
  simp only [pure, Except.pure, Except.ok.injEq, Option.bind_eq_some_iff] at hx
  obtain ⟨name, rfl, hx⟩ := hx
  refine Does.look fun w h => ?_
  have hhas : (w.graph j).vars.has name = true :=
    h.holds.2 name ((Table.has_iff _ _).2 (Table.mem_keys_of_get? hx))
  obtain ⟨y, hy⟩ : ∃ y, (w.graph c.node.graph).vars.get? name = some y := by
    rw [hc.1]
    cases hy : (w.graph j).vars.get? name with
    | some y => exact ⟨y, rfl⟩
    | none => exact absurd ((Table.has_iff _ _).1 hhas) ((Table.get?_eq_none_iff _ _).1 hy)
  have hof : (w.graph c.node.graph).variableOf v = .ok (some y) := by
    rw [Graph.variableOf, hname]
    simp only [bind, Except.bind, Option.bind_some, hy, pure, Except.pure]
  rw [hof]
  exact Yields.bind (Q := fun o => o = some y) (.of_fault (fun o ho => by cases ho; rfl) fun _ hf => by cases hf) fun o ho => by
    subst ho
    exact .of_pure ⟨⟨v, hv⟩, w, name, h.holds, hy⟩

/-- The custom event that the setting names is there. -/
theorem blameless_eventNamed (hc : u.Member j c.node) {v : Value}
    (hv : (u.node c.node).configuration.get? eventKey = some v) :
    Blameless u j b (c.eventNamed v) ((structural u j).calls c.node) := by
  obtain ⟨e, he⟩ := (refers hu hc).events v hv
  refine Does.look fun w h => ?_
  have hof : (w.graph c.node.graph).eventOf v = .ok (some e) := by
    have hevents : (w.graph j).events = (u.graph j).events := (congrArg Graph.events (h.holds.1.graph j) :)
    rw [hc.1, ← he, Graph.eventOf, Graph.eventOf, hevents]
  rw [hof]
  exact Yields.bind (Q := fun o => o = some e) (.of_fault (fun o ho => by cases ho; rfl) fun _ hf => by cases hf) fun o ho => by
    subst ho
    exact .of_pure ⟨v, hv, he⟩

/-- A node has an input or output for the variable that its setting names. -/
theorem has_value {x : NodeRef} (hx : u.Member j x) (side : Side)
    (hsource : (side.source (u.node x).definition).isOfVariable = true)
    (hset : ∃ v, (u.node x).configuration.get? variableKey = some v) : u.Has side x "value" := by
  obtain ⟨v, hv⟩ := hset
  obtain ⟨y, hy⟩ := (refers hu hx).vars v hv
  exact (hu.expanded _ (hx.nodeAt? hu.indexed).2).exists_value side hsource hv hy

/-- A node has an input or output for every parameter of the event that its setting names. -/
theorem has_parameter {x : NodeRef} (hx : u.Member j x) (side : Side)
    (hsource : (side.source (u.node x).definition).isOfEvent = true) {e : CustomEvent} (he : (structural u j).calls x e)
    {p : SocketSpec} (hp : p ∈ e.parameters) : u.Has side x p.name := by
  obtain ⟨v, hv, he⟩ := he
  exact (hu.expanded _ (hx.nodeAt? hu.indexed).2).exists_parameter side hsource hv he hp

theorem has_read {x : NodeRef} (hx : u.Member j x) {name : String}
    (hname : name ∈ ((structural u j).behaviour x).reads) : u.Has .input x name :=
  hx.has_own hu .input ((hx.fit hu).reads name hname)

theorem has_write {x : NodeRef} (hx : u.Member j x) {name : String}
    (hname : name ∈ ((structural u j).behaviour x).writes) : u.Has .output x name :=
  hx.has_own hu .output ((hx.fit hu).writes name hname)

/-- An event of the graph is told to outputs that stand for its parameters. -/
theorem tells_trigger {key : String} {e : CustomEvent} (he : (key, e) ∈ (u.graph j).events.entries) (k : Nat)
    (given : List (String × Value)) : (structural u j).Tells (.eventTrigger k e.serial) (.triggered (e.payload given)) := by
  rintro x ⟨-, rfl, e', he', hserial, houtputs⟩ values ⟨⟩ p hp
  have hsame : e'.2 = e := hu.serials e' he' (key, e) he hserial
  obtain ⟨q, hq, rfl⟩ := List.mem_map.1 (Table.mem_entries_ofList hp)
  exact houtputs q (hsame ▸ hq)

theorem blameless_fillInput (i : Nat) (x : NodeRef) (place : Nat) (s : Socket) :
    Blameless u j b (fillInput i x place s) fun _ => True := by
  unfold fillInput
  split
  · refine Does.look fun w h => Yields.bind (Q := fun _ => True) (.of_integrity (fun _ _ => trivial) fun e he => ?_) fun t _ => ?_
    · exact Registry.not_isStructural_valueType he
    · refine (does_stamp (structural_lawful hu) x.graph t.create).bind fun v _ => (blameless_keep fun w h => ?_).bind fun _ _ =>
        Does.look fun w h => blameless_keep fun w h => ?_
      · exact h.graphs (structural_modifyNode h.holds x (Node.outline_setInput _ place v)) rfl
      · exact h.tell (structural_lawful hu) i fun _ _ _ _ he => by cases he
  · exact .of_pure trivial

/-- Where a link carries something over, it can. -/
theorem blameless_pullAcross {w : World} (hw : Outlined u w) {x : NodeRef} (hx : u.Member j x) {place : Nat} {ends : Ends}
    (hends : (((w.node x).inputs[place]?).getD default).wires.head?.bind (w.graph x.graph).endsOf = some ends) :
    Blameless u j b (pullAcross x place (((w.node x).inputs[place]?).getD default) ends.source) fun _ => True := by
  obtain ⟨-, a, s, ha, hs, hfit⟩ := hw.fed hu.indexed hx hends
  rw [hs, Option.getD_some]
  refine Does.look fun v hv => Yields.bind (Q := fun _ => True) (.of_except (fun _ _ => trivial) fun e he => ?_) fun value _ => ?_
  · obtain ⟨o, ho, htype⟩ := hv.holds.1.outputAt? x.graph ha
    unfold carried at he
    simp only [ho, Option.getD_some] at he
    split at he
    · cases he
    · rename_i e' hconvert
      cases he
      rw [htype, hv.holds.1.registryOf] at hconvert
      have hblameless : e'.isStructural = false := Registry.not_isStructural_convert hfit hconvert
      exact hblameless
  · refine (does_stamp (structural_lawful hu) x.graph value).bind fun v _ => blameless_keep fun w h => ?_
    exact h.graphs (structural_modifyNode h.holds x (Node.outline_setInput _ place v)) rfl

/-- What a function node computes goes to outputs that are there. -/
theorem structural_suits {x : NodeRef} (hx : u.Member j x) {y : FunctionBehaviour}
    (hy : (structural u j).behaviour x = .function (some y)) :
    y.Suits ((structural u j).takes x) ((structural u j).gives x) := by
  have hwrites : ∀ {output}, output ∈ ((structural u j).behaviour x).writes → u.Has .output x output := has_write hu hx
  rw [hy] at hwrites
  cases y with
  | unary a output op => exact fun _ _ _ _ => hwrites (by simp [Behaviour.writes, FunctionBehaviour.outputs])
  | binary a b output op => exact fun _ _ _ _ _ _ => hwrites (by simp [Behaviour.writes, FunctionBehaviour.outputs])
  | ternary a b c output op => exact fun _ _ _ _ _ _ _ _ => hwrites (by simp [Behaviour.writes, FunctionBehaviour.outputs])
  | constant output v => exact hwrites (by simp [Behaviour.writes, FunctionBehaviour.outputs])
  | makeVector d => exact fun _ _ _ _ => hwrites (by simp [Behaviour.writes, FunctionBehaviour.outputs])
  | breakVector d =>
    exact fun _ _ axis haxis _ _ => hwrites (by simpa [Behaviour.writes, FunctionBehaviour.outputs] using haxis)
  | getVariable => trivial
  | now => exact fun _ _ _ => hwrites (by simp [Behaviour.writes, FunctionBehaviour.outputs])
  | getState typeName => exact fun _ => hwrites (by simp [Behaviour.writes, FunctionBehaviour.outputs])
  | script actions => cases (congrArg Behaviour.isScript hy).symm.trans (hx.fit hu).plain

/-- What an event node subscribes to is told to outputs that are there. -/
theorem structural_hears {x : NodeRef} (hx : u.Member j x) :
    match (structural u j).behaviour x with
    | .event (some .start) => (structural u j).hears .start x
    | .event (some .update) => (structural u j).hears .tick x
    | .event (some .ending) => (structural u j).hears .ending x
    | .event (some .customEvent) => ∀ e, (structural u j).calls x e → (structural u j).hears (.eventTrigger x.graph e.serial) x
    | .event (some .variableChanged) =>
      ∀ y, (structural u j).knows x y → (structural u j).hears (.variableChange x.graph y.serial) x
    | .event (some .stateChanged) => ∀ path, (structural u j).hears (.stateChange path) x
    | _ => True := by
  have hnames := (hx.fit hu).names
  rw [Definition.isFitNames] at hnames
  split
  · exact ⟨hx, trivial⟩
  · rename_i hy
    exact ⟨hx, has_write hu hx (by rw [hy]; simp [Behaviour.writes])⟩
  · exact ⟨hx, trivial⟩
  · rename_i hy
    intro e he
    rw [show (u.node x).definition.behaviour = _ from hy] at hnames
    obtain ⟨key, hkey⟩ := Graph.mem_events_of_eventOf he.choose_spec.2
    exact ⟨hx, hx.1, (key, e), hkey, rfl, fun p hp => has_parameter hu hx .output hnames he hp⟩
  · rename_i hy
    intro y hknows
    rw [show (u.node x).definition.behaviour = _ from hy] at hnames
    exact ⟨hx, has_value hu hx .output hnames hknows.1⟩
  · exact fun _ => ⟨hx, trivial⟩
  · trivial

/-- The contract of a graph that holds together is served by everything that runs on it. -/
theorem structural_served : (structural u j).Served where
  toLawful := structural_lawful hu
  fills := fun _ _ _ _ _ => blameless_fillInput hu _ _ _ _
  sources := fun h hx hends => ⟨(h.1.fed hu.indexed hx hends).1, fun _ => blameless_pullAcross hu h.1 hx hends⟩
  spares := by
    rintro w ⟨g, k⟩ h ⟨hj, id, hid⟩ i e he hcycle
    subst hj
    exact absurd hcycle (hu.indexed.cyclesAgree.spared hu.acyclic i g id k w e (h.1.graph g) hid he)
  unscripted := fun hx => (hx.fit hu).plain
  reads := fun hx _ hname _ => blameless_read (has_read hu hx hname)
  assigned := by
    intro c y hx hy hknows b
    have hnames := (hx.fit hu).names
    rw [Definition.isFitNames, show (u.node c.node).definition.behaviour = _ from hy, Bool.and_eq_true] at hnames
    exact blameless_read (has_value hu hx .input hnames.1 hknows.1)
  parameter := by
    intro c e p hx hy he hp b
    have hnames := (hx.fit hu).names
    rw [Definition.isFitNames, show (u.node c.node).definition.behaviour = _ from hy] at hnames
    exact blameless_read (has_parameter hu hx .input hnames he hp)
  setting := by
    intro c hx key hkey b
    refine blameless_setting ?_
    simp only [settingKeys, List.mem_cons, List.not_mem_nil, or_false] at hkey
    rcases hkey with rfl | rfl | rfl | rfl <;> decide
  memory := by
    intro c hx key hkey b
    refine blameless_memory ?_
    simp only [memoryKeys, List.mem_cons, List.not_mem_nil, or_false] at hkey
    rcases hkey with rfl | rfl | rfl | rfl <;> decide
  remember := fun _ _ _ => blameless_remember _ _
  service := fun _ name _ => blameless_service name
  storeless := Store.not_isStructural_get
  typeless := fun _ => rfl
  variableNamed := fun hx hv _ => blameless_variableNamed hu hx hv
  eventNamed := fun hx hv _ => blameless_eventNamed hu hx hv
  known := fun h => h.2
  valued := by
    intro x y v hx hy hknows _
    have hnames := (hx.fit hu).names
    rw [Definition.isFitNames] at hnames
    rcases hy with hy | hy
    · rw [show (u.node x).definition.behaviour = _ from hy, Bool.and_eq_true] at hnames
      exact has_value hu hx .output hnames.2 hknows.1
    · rw [show (u.node x).definition.behaviour = _ from hy] at hnames
      exact has_value hu hx .output hnames hknows.1
  called := by
    rintro x e values - - ⟨v, -, he⟩ -
    obtain ⟨key, hkey⟩ := Graph.mem_events_of_eventOf he
    exact tells_trigger hu hkey _ _
  computes := fun hx hy => structural_suits hu hx hy
  flips := fun hx hy _ => has_write hu hx (by simp [hy, Behaviour.writes])
  marks := fun _ _ => trivial
  counts := fun hx hy => ⟨trivial, fun _ _ => ⟨has_write hu hx (by simp [hy, Behaviour.writes]), fun _ _ => trivial⟩⟩
  loops := fun hx hy _ _ => ⟨hx, has_write hu hx (by simp [hy, Behaviour.writes])⟩
  rounds := fun h => ⟨h.1, h.2, fun _ _ => h⟩
  sequences := Iff.rfl
  unheeded := id
  hears := fun hx => structural_hears hu hx
  suspends := by
    intro x y hx hy
    refine ⟨hx, ?_⟩
    have hkind := (hx.fit hu).kind
    have hasync : (u.node x).definition.kind = .async := congrArg Behaviour.kind hy
    rw [Definition.isFitKind, hasync] at hkind
    obtain ⟨s, hs, hflow⟩ := List.any_eq_true.1 hkind
    obtain ⟨t, ht, hout⟩ := (hu.expanded _ (hx.nodeAt? hu.indexed).2).exists_own .output hs
    have htype : t.valueType = s.valueType := congrArg Prod.snd hout
    refine List.ne_nil_of_mem (List.mem_filter.2 ⟨ht, ?_⟩)
    rwa [Socket.isFlow, htype]

end Calls

end Play

/-- Engines are made for the graph at one place, and what is set is declared there. -/
def HostAct.Concerns (j : Nat) (g : Graph) : HostAct → Prop
  | makeEngine _ k _ => k = j
  | reset k name _ => k = j ∧ g.vars.has name = true
  | _ => True

/-- There are graphs, and maybe a host that watches, but nothing has happened yet. -/
structure World.Untouched (w : World) : Prop where
  engines : w.engines = #[]
  disposers : w.disposers = []
  subscriptions : ∀ s ∈ w.subscriptions, ∀ i x, s.handler ≠ .node i x
  timers : w.scheduler.timers = []
  journal : w.journal = []

/-- What a world with one graph looks like before anything happened. -/
theorem World.untouched_single (g : Graph) :
    ({ graphs := #[g] } : World).Untouched ∧ ({ graphs := #[g] } : World).graph 0 = g :=
  ⟨⟨rfl, rfl, (fun _ hs => by cases hs), rfl, rfl⟩, rfl⟩

/-- What was raised to the host or is reported by an engine. -/
def HostAct.Meets (acts : List HostAct) (w : World) (e : Failure) : Prop :=
  e ∈ (playAll acts w).1 ∨ (∃ i, e ∈ ((playAll acts w).2.engine i).failures) ∨
    ∃ name isHeard, .failed name isHeard e ∈ (playAll acts w).2.journal

namespace Contract

/-- At the start of a history nothing has happened yet. -/
theorem Kept.start {C : Contract} {w : World} (hw : w.Untouched) (hholds : C.holds w) : C.Kept w w where
  later := .refl w
  holds := hholds
  engines i := by
    rw [World.engine, hw.engines]
    exact tends_default
  journal _ _ _ hf := by
    rw [hw.journal] at hf
    cases hf
  disposers _ hp := by
    rw [hw.disposers] at hp
    cases hp
  subscriptions s hs i x hx := (hw.subscriptions s hs i x hx).elim
  timers _ ht := by
    rw [hw.timers] at ht
    cases ht

/-- Whatever a host does under a contract that the calls of a run keep to, only what the contract admits is told. -/
theorem admits_of_meets {C : Contract} (hC : C.Observed) {w : World} (hw : w.Untouched) (hholds : C.holds w)
    {acts : List HostAct} (hacts : ∀ a ∈ acts, C.Permits a) {e : Failure} (he : HostAct.Meets acts w e) : C.admits e := by
  obtain ⟨hkept, hraised⟩ := kept_playAll hC hacts (.start hw hholds)
  rcases he with he | ⟨i, he⟩ | ⟨name, isHeard, he⟩
  · exact hraised e he
  · exact (hkept.engines i).failures e he
  · exact hkept.journal name isHeard e he

theorem structural_start {u : World} {j : Nat} : (structural u j).holds u := ⟨rfl, fun _ h => h⟩

/-- What a host does on a graph that holds together is permitted. -/
theorem structural_permits {u : World} {j : Nat} (hu : (u.graph j).Sturdy) {a : HostAct} (ha : a.Concerns j (u.graph j)) :
    (structural u j).Permits a := by
  cases a with
  | makeEngine name k settings =>
    obtain rfl : k = j := ha
    exact fun w h n hn => h.1.member_of_mem_ids hu.indexed hn
  | tick seconds =>
    rintro x ⟨-, hx⟩ values hvalues p hp
    obtain ⟨v, -, rfl⟩ := map_eq_ok.1 hvalues
    rw [List.mem_singleton.1 hp]
    exact hx
  | trigger k event values =>
    intro w h e he
    by_cases hk : k = j
    · subst hk
      have hevents : (w.graph k).events = (u.graph k).events := (congrArg Graph.events (h.1.graph k) :)
      exact tells_trigger hu (Table.mem_entries_of_get? (hevents ▸ he)) k values
    · rintro x ⟨-, hj, -⟩
      exact absurd hj hk
  | reset k name v =>
    obtain ⟨rfl, hname⟩ := ha
    intro w h
    have hthere := h.2 name hname
    refine ⟨fun e he => admits_setVariable (structural_lawful hu) hthere he, fun g told hset => ⟨?_, ?_⟩⟩
    · refine structural_holds h (h.1.modifyGraph k (Outlined.outline_setVariable hset)) fun other hother =>
        World.has_modifyGraph (fun hk => Graph.has_setVariable hset hk) hother
    · rintro new x - - y ⟨-, hy⟩ values ⟨⟩ p hp
      rw [List.mem_singleton.1 hp]
      exact hy
  | _ => trivial

end Contract

namespace Graph

/-- A graph that was loaded from a document over the default profiles and in which the checks find no problem is safe to
run: whatever a host does, nothing that is raised or reported blames the structure of the graph. -/
theorem not_isStructural_of_no_problems {services : List Service} {check : Bool} {r : Registry}
    (hr : Registry.create Catalogue.defaultProfiles services check = .ok r) {document : Value} {policy : Bool} {labels : Nat}
    {g : Graph} (hg : ofValue document { registry := r, replaceLinks := policy, labels := labels } = .ok g)
    (hp : g.problems.2 = .ok []) {w : World} (hw : w.Untouched) {j : Nat} (hj : w.graph j = g) {acts : List HostAct}
    (hacts : ∀ a ∈ acts, a.Concerns j g) {e : Failure} (he : HostAct.Meets acts w e) : e.isStructural = false := by
  obtain ⟨d, -, hd⟩ := bind_eq_ok.1 hg
  have hstandard := Registry.standard_of_create hr
  have hsturdy : (w.graph j).Sturdy := hj ▸ (Loaded.toGraph hstandard hd).sturdy hstandard Catalogue.fit_definitions hp
  refine Contract.admits_of_meets (structural_served hsturdy).observed hw Contract.structural_start (fun a ha => ?_) he
  exact Contract.structural_permits hsturdy (hj ▸ hacts a ha)

/-- A start that is logged with a severity that is none. -/
def loudDocument : Document := {
  nodes := [{ id := "start", typeName := "Start" }, { id := "log", typeName := "Log", inputs := [("severity", .str "loud")] }]
  links := [⟨"start", "exec", "log", "exec"⟩] }

def loud : Graph := (ofValue loudDocument.toValue { registry := Catalogue.defaults }).toOption.getD {}

/-- Something goes wrong in the run, but not for the structure of the graph. -/
theorem not_isStructural_loud :
    let acts : List HostAct := [.makeEngine "engine" 0 {}, .start, .run 0 none none]
    (∃ e, HostAct.Meets acts { graphs := #[loud] } e) ∧
      ∀ e, HostAct.Meets acts { graphs := #[loud] } e → e.isStructural = false := by
  intro acts
  have hmade : (ofValue loudDocument.toValue { registry := Catalogue.defaults }).toBool = true ∧ loud.problems.2 = .ok [] ∧
      ((HostAct.playAll acts { graphs := #[loud] }).2.engine 0).failures ≠ [] := by
    rw [loud, Catalogue.defaults_eq_written]
    decide +kernel
  obtain ⟨hread, hnone, hfailed⟩ := hmade
  have hloaded : ofValue loudDocument.toValue { registry := Catalogue.defaults } = .ok loud := ok_of_toBool hread {}
  refine ⟨?_, fun e he => ?_⟩
  · obtain ⟨e, he⟩ := List.exists_mem_of_ne_nil _ hfailed
    exact ⟨e, .inr (.inl ⟨0, he⟩)⟩
  · obtain ⟨huntouched, hgraph⟩ := World.untouched_single loud
    refine not_isStructural_of_no_problems Catalogue.create_defaults hloaded hnone huntouched hgraph (fun a ha => ?_) he
    simp only [acts, List.mem_cons, List.not_mem_nil, or_false] at ha
    rcases ha with rfl | rfl | rfl
    · rfl
    · trivial
    · trivial

end Graph

end FlowGraph
