import FlowGraph.Proofs.Completion
import FlowGraph.Proofs.Outline
import FlowGraph.Proofs.Yields

/-!
Engines that cannot be made. When an event node fails to begin, those before it are disposed of again, latest first. Main
statement: what the nodes before it registered is run then, each callback once, and nothing of it is left to be run, if
the failing node registered nothing itself and no callback fails.
-/
namespace FlowGraph

open World Play

/-- The action neither registers a callback nor disposes of an engine, nor leads to other actions. -/
def Action.isMild : Action → Bool
  | onDispose _ | dispose | look _ | attempt _ _ => false
  | _ => true

def Disposer.isMild : Disposer → Bool
  | .script _ actions => actions.all Action.isMild
  | _ => true

/-- The action disposes of no engine, leads to no other actions, and the callback that it registers, if any, is mild. -/
def Action.isOrderly : Action → Bool
  | onDispose actions => actions.all isMild
  | dispose | look _ | attempt _ _ => false
  | _ => true

namespace Play

/-- The computation leaves it at the property, whatever comes of it. -/
abbrev Leaves {α : Type} (P : World → Prop) (x : Play α) : Prop := Yields P (fun _ => True) x fun _ => True

section Leaving

variable {α : Type} {P : World → Prop}

theorem leaves_except (x : Except Failure α) : Leaves P (ofExcept x) := .of_except (fun _ _ => trivial) fun _ _ => trivial

theorem leaves_fault (x : Except Fault α) : Leaves P (ofFault x) := .of_fault (fun _ _ => trivial) fun _ _ => trivial

theorem leaves_change {f : World → Except Failure Unit × World} (hf : ∀ w, P w → P (f w).2) : Leaves P (change f) :=
  .of_change hf fun _ _ _ _ => trivial

theorem leaves_throw (e : Failure) : Leaves (α := α) P (throw e) := .of_throw trivial

theorem leaves_self (c : Context) : Leaves P c.self := .look fun _ _ => .of_pure trivial

theorem leaves_read (c : Context) (input : String) : Leaves P (c.read input) :=
  (leaves_self c).bind fun _ _ => leaves_fault _

theorem leaves_setting (c : Context) (key : String) : Leaves P (c.setting key) := by
  refine (leaves_self c).bind fun n _ => ?_
  split
  · exact .of_pure trivial
  · exact leaves_throw _

theorem leaves_service (c : Context) (name : String) : Leaves P (c.service name) := .look fun _ _ => leaves_fault _

theorem leaves_variableNamed (c : Context) (name : Value) : Leaves P (c.variableNamed name) := by
  refine .look fun w _ => (leaves_fault _).bind fun x _ => ?_
  split
  · exact .of_pure trivial
  · exact (leaves_fault _).bind fun _ _ => leaves_throw _

theorem leaves_eventNamed (c : Context) (name : Value) : Leaves P (c.eventNamed name) := by
  refine .look fun w _ => (leaves_fault _).bind fun x _ => ?_
  split
  · exact .of_pure trivial
  · exact (leaves_fault _).bind fun _ _ => leaves_throw _

theorem leaves_inputName (c : Context) : Leaves P c.inputName := by
  unfold Context.inputName
  split
  · exact .of_pure trivial
  · exact .look fun _ _ => .of_pure trivial
  · exact leaves_throw _

end Leaving

/-- A property of worlds that outlasts what mild actions do. -/
structure Lenient (P : World → Prop) : Prop where
  stamp : ∀ {w : World}, P w → ∀ g v, P (w.stamp g v).2
  node : ∀ {w : World}, P w → ∀ y f, P (w.modifyNode y f)
  record : ∀ {w : World}, P w → ∀ e, P (w.record e)
  hold : ∀ {w : World}, P w → ∀ cs, P { w with holds := cs }
  begin : ∀ {w : World}, P w → ∀ j y output l values, P (w.begin j y output l values)
  commit : ∀ {w : World}, P w → ∀ j f y output l, P (w.commitFiber j f y output l).2
  stop : ∀ {w : World}, P w → ∀ j f y, P (w.endFiber j f y).2
  finish : ∀ {w : World}, P w → ∀ j o output, P (w.finishOperation j o output)

namespace Lenient

variable {P : World → Prop} (h : Lenient P)

include h

theorem leaves_write (c : Context) (output : String) (v : Value) : Leaves P (c.write output v) := by
  have hstamp : Leaves P (Play.stamp c.node.graph v) :=
    fun _ hw => ⟨h.stamp hw _ v, fun _ _ => trivial, fun _ _ => trivial⟩
  exact hstamp.bind fun _ _ => (leaves_self c).bind fun _ _ => (leaves_fault _).bind fun n _ =>
    .of_modify fun w hw => h.node hw c.node fun _ => n

theorem leaves_commit (c : Context) (output : String) (l : Option Listener) : Leaves P (c.commit output l) := by
  unfold Context.commit
  split
  · exact .of_modify fun w hw => h.begin hw _ _ output l []
  · exact leaves_change fun w hw => h.commit hw _ _ _ output l
  · exact leaves_throw _

theorem leaves_start (c : Context) (output : String) (values : List (String × Value)) : Leaves P (c.start output values) := by
  unfold Context.start
  split
  · exact .of_modify fun w hw => h.begin hw _ _ output none values
  · exact leaves_throw _
  · exact leaves_throw _

theorem leaves_stop (c : Context) : Leaves P c.stop := by
  unfold Context.stop
  split
  · exact leaves_change fun w hw => h.stop hw _ _ _
  · exact leaves_throw _

theorem leaves_finish (c : Context) (output : Option String) : Leaves P (c.finish output) := by
  unfold Context.finish
  split
  · exact .of_modify fun w hw => h.finish hw _ _ output
  · exact leaves_throw _

theorem leaves_observe (c : Context) (e : String → Event) : Leaves P (Action.observe c e) :=
  (leaves_self c).bind fun n _ => .of_modify fun _ hw => h.record hw (e n.id)

/-- Mild actions leave it at the property. -/
theorem leaves_perform (dispose : Nat → Play Unit) (c : Context) {a : Action} (ha : a.isMild = true) :
    Leaves P (a.perform dispose c) := by
  cases a with
  | trace text =>
    rw [Action.perform]
    exact h.leaves_observe c _
  | read name => exact (leaves_read c name).bind fun _ _ => h.leaves_observe c _
  | copy source target => exact (leaves_read c source).bind fun _ _ => h.leaves_write c target _
  | write output v => exact h.leaves_write c output _
  | input => exact (leaves_inputName c).bind fun _ _ => h.leaves_observe c _
  | state v =>
    exact (leaves_self c).bind fun _ _ => (h.leaves_observe c _).bind fun _ _ =>
      .of_modify fun w hw => h.node hw c.node fun n => { n with state := v }
  | config key => exact (leaves_setting c key).bind fun _ _ => h.leaves_observe c _
  | readVariable name =>
    exact (leaves_variableNamed c _).bind fun _ _ => (leaves_except _).bind fun _ _ => h.leaves_observe c _
  | service name => exact (leaves_service c name).bind fun _ _ => h.leaves_observe c _
  | commit output => exact h.leaves_commit c output none
  | commitThen output after => exact h.leaves_commit c output _
  | start output values => exact h.leaves_start c output _
  | stop => exact h.leaves_stop c
  | finish output => exact h.leaves_finish c output
  | hold => exact .of_modify fun w hw => h.hold hw _
  | onDispose actions | look next | attempt actions next => cases ha
  | dispose => cases ha
  | raise family text => exact leaves_throw _
  | nodeError text => exact .look fun _ _ => leaves_throw _

end Lenient

abbrev Spares {α : Type} (D : List (NodeRef × Disposer)) (x : Play α) : Prop := Leaves (·.disposers = D) x

section Mild

variable {D : List (NodeRef × Disposer)}

theorem spares_modify {f : World → World} (hf : ∀ w, (f w).disposers = w.disposers) : Spares D (modify f) :=
  .of_modify fun w h => (hf w).trans h

/-- What a mild behaviour may do leaves the list of what is to be undone. -/
theorem lenient_disposers (D : List (NodeRef × Disposer)) : Lenient (·.disposers = D) where
  stamp hw g v := (disposers_stamp _ g v).trans hw
  node hw _ _ := hw
  record hw _ := hw
  hold hw _ := hw
  begin hw j y output l values := (Local.begin _ j y output l values).disposers.trans hw
  commit hw j f y output l := (Local.commitFiber _ j f y output l).disposers.trans hw
  stop hw j f y := by
    unfold endFiber
    split <;> exact hw
  finish {w} hw j o output := by
    refine finishOperation_upholds (P := (·.disposers = D)) (fun v hv _ _ => hv) (fun v hv _ => ?_) (fun v hv _ => hv) hw
    exact complete_upholds (P := (·.disposers = D)) (fun _ h => h) (fun v x h => (disposers_chooseOutput v x _).trans h)
      (fun v e h => (disposers_report v _ e).trans h) (fun v x name h => (Local.begin v _ x name none []).disposers.trans h)
      (fun v e h => (disposers_tell v _ e).trans h) hv

/-- A mild action leaves the callbacks alone. -/
theorem spares_perform (dispose : Nat → Play Unit) (c : Context) {a : Action} (ha : a.isMild = true) :
    Spares D (a.perform dispose c) :=
  (lenient_disposers D).leaves_perform dispose c ha

theorem spares_undo (dispose : Nat → Play Unit) {d : Disposer} (hd : d.isMild = true) : Spares D (undo dispose d) := by
  cases d with
  | unsubscribe s => exact spares_modify fun _ => rfl
  | cancelTimer t => exact spares_modify fun _ => rfl
  | script c actions =>
    exact Action.yields_each fun a ha => spares_perform dispose c (List.all_eq_true.1 hd a ha)

end Mild

/-- The callbacks are the old ones, followed by mild ones of a node. -/
def Adds (D : List (NodeRef × Disposer)) (x : NodeRef) (w : World) : Prop :=
  ∃ L, w.disposers = D ++ L ∧ ∀ p ∈ L, p.1 = x ∧ p.2.isMild = true

section Beginning

variable {D : List (NodeRef × Disposer)} {x : NodeRef} {i : Nat}

/-- A computation from worlds in which only the node has added callbacks, to such worlds. -/
abbrev Enlists {α : Type} (D : List (NodeRef × Disposer)) (x : NodeRef) (y : Play α) : Prop := Leaves (Adds D x) y

theorem Spares.enlists {α : Type} {y : Play α} (hy : ∀ D, Spares D y) : Enlists D x y := by
  rintro w ⟨L, hw, hL⟩
  exact ⟨⟨L, (hy _ w hw).1, hL⟩, fun _ _ => trivial, fun _ _ => trivial⟩

theorem enlists_onDispose {d : Disposer} (hd : d.isMild = true) : Enlists D x (Context.onDispose ⟨x, .event i⟩ d) := by
  refine .of_modify ?_
  rintro w ⟨L, hw, hL⟩
  refine ⟨L ++ [(x, d)], by simp only [hw, List.append_assoc], fun p hp => ?_⟩
  rcases List.mem_append.1 hp with hp | hp
  · exact hL p hp
  · cases List.mem_singleton.1 hp
    exact ⟨rfl, hd⟩

theorem enlists_subscribe (t : Topic) : Enlists D x (Context.subscribe ⟨x, .event i⟩ t) := by
  rintro w ⟨L, hw, hL⟩
  exact enlists_onDispose (d := .unsubscribe w.issued) rfl (w.subscribe t (.node i x)).2 ⟨L, hw, hL⟩

theorem enlists_perform {a : Action} (ha : a.isOrderly = true) : Enlists D x (a.perform dispose ⟨x, .event i⟩) := by
  by_cases hmild : a.isMild = true
  · exact Spares.enlists fun D => spares_perform dispose _ hmild
  · cases a with
    | onDispose actions => exact enlists_onDispose (d := .script _ actions) ha
    | dispose | look next | attempt actions next => cases ha
    | _ => exact absurd rfl hmild

/-- An event node subscribes when it begins, or does what its script says. -/
theorem leaves_begin {P : World → Prop} {b : EventBehaviour} (hsubscribe : ∀ t, Leaves P (Context.subscribe ⟨x, .event i⟩ t))
    (hscript : ∀ actions, b = .script actions → ∀ a ∈ actions, Leaves P (a.perform dispose ⟨x, .event i⟩)) :
    Leaves P (b.run ⟨x, .event i⟩) := by
  cases b with
  | start => exact (leaves_service _ _).bind fun _ _ => hsubscribe _
  | update => exact (leaves_service _ _).bind fun _ _ => hsubscribe _
  | ending => exact (leaves_service _ _).bind fun _ _ => hsubscribe _
  | customEvent => exact (leaves_setting _ _).bind fun _ _ => (leaves_eventNamed _ _).bind fun _ _ => hsubscribe _
  | variableChanged => exact (leaves_setting _ _).bind fun _ _ => (leaves_variableNamed _ _).bind fun _ _ => hsubscribe _
  | stateChanged =>
    exact (leaves_service _ _).bind fun _ _ => (leaves_setting _ _).bind fun _ _ => (leaves_fault _).bind fun _ _ => hsubscribe _
  | script actions => exact Action.yields_each (hscript actions rfl)

/-- What an event node does when an engine begins to use it. -/
def initOf (i : Nat) (x : NodeRef) : Play Unit := do
  let call := match ((← get).node x).definition.behaviour with
    | .event b => b.map fun b => b.run ⟨x, .event i⟩
    | _ => none
  invoke x .init call

theorem runOn_subscribeAll (i : Nat) (ready : List NodeRef) (x : NodeRef) (rest : List NodeRef) (w : World) :
    (subscribeAll i ready (x :: rest)).runOn w = (outcome (initOf i x) >>= fun o => match o with
      | .ok _ => subscribeAll i (x :: ready) rest
      | .error e => ready.forM (disposeNode dispose) >>= fun _ => throw e : Play Unit).runOn w := rfl

theorem subscribeAll_cons (i : Nat) (ready : List NodeRef) (x : NodeRef) (rest : List NodeRef) (w : World) :
    (subscribeAll i ready (x :: rest)).runOn w = match (initOf i x).runOn w with
      | (.ok _, v) => (subscribeAll i (x :: ready) rest).runOn v
      | (.error e, v) => (ready.forM (disposeNode dispose) >>= fun _ => throw e : Play Unit).runOn v := by
  rw [runOn_subscribeAll, runOn_bind, runOn_outcome]
  generalize (initOf i x).runOn w = p
  obtain ⟨out, v⟩ := p
  cases out <;> rfl

/-- An initializer preserves what its behaviour preserves. -/
theorem leaves_initOf {P : World → Prop} {w : World}
    (hbegin : ∀ b, (w.node x).definition.behaviour = .event (some b) → Leaves P (b.run ⟨x, .event i⟩)) (hw : P w) :
    P ((initOf i x).runOn w).2 := by
  rw [initOf, runOn_get]
  dsimp only
  have hinvoke (call : Option (Play Unit)) (hcall : ∀ y, call = some y → Leaves P y) : Leaves P (invoke x .init call) := by
    cases call with
    | none => exact .look fun _ _ => .of_throw trivial
    | some y =>
      refine (hcall y rfl).outcome_bind (fun _ _ => .of_pure trivial) fun e _ => ?_
      simp only
      split
      · exact .of_throw trivial
      · exact .look fun _ _ => .of_throw trivial
  refine (hinvoke _ ?_ w hw).1
  intro y hy
  split at hy
  · rename_i b hb
    obtain ⟨b, rfl, rfl⟩ := Option.map_eq_some_iff.1 hy
    exact hbegin b hb
  · cases hy

/-- An event node adds callbacks of its own, and no others, when it begins. -/
theorem enlists_initOf {w : World}
    (hx : ∀ actions, (w.node x).definition.behaviour = .event (some (.script actions)) → ∀ a ∈ actions, a.isOrderly = true)
    (hw : Adds D x w) : Adds D x ((initOf i x).runOn w).2 := by
  refine leaves_initOf (fun b hb => leaves_begin enlists_subscribe fun actions hactions a ha => ?_) hw
  exact enlists_perform (hx actions (hactions ▸ hb) a ha)

end Beginning

/-- The event nodes begin one after the other, up to one that fails: `ready` have begun, latest first. -/
inductive Halts (i : Nat) : List NodeRef → World → List NodeRef → NodeRef → Failure → World → Prop
  | fails {x rest w e v} : (initOf i x).runOn w = (.error e, v) → Halts i (x :: rest) w [] x e v
  | begins {x rest w u ready y e v} : (initOf i x).runOn w = (.ok (), u) → Halts i rest u ready y e v →
      Halts i (x :: rest) w (ready ++ [x]) y e v

/-- Callbacks are run one after the other, and nothing else happens but that some are struck off the list. -/
inductive Undone : List (NodeRef × Disposer) → World → World → Prop
  | refl (w : World) : Undone [] w w
  | strike {ps w v} (x : NodeRef) : Undone ps { w with disposers := w.disposers.filter (·.1 ≠ x) } v → Undone ps w v
  | run {ps w v} (p : NodeRef × Disposer) : Undone ps ((undo dispose p.2).runOn w).2 v → Undone (p :: ps) w v

theorem Undone.trans {ps qs : List (NodeRef × Disposer)} {u v w : World} (h : Undone ps u v) (h' : Undone qs v w) :
    Undone (ps ++ qs) u w := by
  induction h with
  | refl => exact h'
  | strike x _ ih => exact .strike x (ih h')
  | run p _ ih => exact .run p (ih h')

theorem undone_undoEach (x : NodeRef) (ds : List Disposer) (w : World) :
    Undone (ds.map (x, ·)) w (undoEach dispose ds w) := by
  induction ds generalizing w with
  | nil => exact .refl w
  | cons d ds ih => exact .run (x, d) (ih _)

theorem disposers_undoEach {ds : List Disposer} (hds : ∀ d ∈ ds, d.isMild = true) (w : World) :
    (undoEach dispose ds w).disposers = w.disposers := by
  induction ds generalizing w with
  | nil => rfl
  | cons d ds ih =>
    have hfirst := (spares_undo dispose (hds d List.mem_cons_self) w rfl).1
    exact (ih (fun d hd => hds d (List.mem_cons_of_mem _ hd)) _).trans hfirst

/-- A node that is disposed of runs what it registered, once each. If a callback fails, so does the disposal. -/
theorem disposeNode_eq (dispose : Nat → Play Unit) (x : NodeRef) (w : World) :
    ((disposeNode dispose x).runOn w).2 = undoEach dispose ((w.disposers.filter (·.1 = x)).map (·.2)).reverse
        { w with disposers := w.disposers.filter (·.1 ≠ x) } ∧
      (((disposeNode dispose x).runOn w).1 = .ok () ∨
        ∃ id t cause, ((disposeNode dispose x).runOn w).1 = .error (.node id t (.disposal cause))) := by
  obtain ⟨es, hes⟩ := runOn_undoAll dispose ((w.disposers.filter (·.1 = x)).map (·.2)).reverse
    { w with disposers := w.disposers.filter (·.1 ≠ x) }
  rw [runOn_disposeNode, runOn_bind, hes]
  cases es with
  | nil => exact ⟨rfl, .inl rfl⟩
  | cons e es => exact ⟨rfl, .inr ⟨_, _, e, rfl⟩⟩

theorem perm_filter_cons (x : NodeRef) (ready : List NodeRef) (L : List (NodeRef × Disposer)) :
    (L.filter (·.1 = x) ++ (L.filter (·.1 ≠ x)).filter (·.1 ∈ ready)).Perm (L.filter (·.1 ∈ x :: ready)) := by
  have hsplit := List.filter_append_perm (fun p : NodeRef × Disposer => decide (p.1 = x)) (L.filter (·.1 ∈ x :: ready))
  rw [List.filter_filter, List.filter_filter] at hsplit
  rw [List.filter_filter]
  convert hsplit using 3 <;> funext p <;> by_cases hp : p.1 = x <;> simp [hp]

/-- Nodes that are disposed of one after the other run what they registered, once each. -/
theorem undone_disposeAll {ready : List NodeRef} {w v : World} (hmild : ∀ p ∈ w.disposers, p.2.isMild = true)
    (h : (ready.forM (disposeNode dispose)).runOn w = (.ok ⟨⟩, v)) :
    v.disposers = w.disposers.filter (·.1 ∉ ready) ∧
      ∃ ps, Undone ps w v ∧ ps.Perm (w.disposers.filter (·.1 ∈ ready)) := by
  induction ready generalizing w with
  | nil =>
    cases h
    exact ⟨by simp, [], .refl _, by simp⟩
  | cons x ready ih =>
    have hmine : ∀ d ∈ ((w.disposers.filter (·.1 = x)).map (·.2)).reverse, d.isMild = true := by
      intro d hd
      obtain ⟨p, hp, rfl⟩ := List.mem_map.1 (List.mem_reverse.1 hd)
      exact hmild p (List.mem_of_mem_filter hp)
    have hcons : ((x :: ready).forM (disposeNode dispose)).runOn w =
        (disposeNode dispose x >>= fun _ => ready.forM (disposeNode dispose)).runOn w := rfl
    obtain ⟨hworld, hout⟩ := disposeNode_eq dispose x w
    rw [hcons, runOn_bind] at h
    generalize (disposeNode dispose x).runOn w = p at h hworld hout
    obtain ⟨out, u⟩ := p
    simp only at hworld hout
    rcases hout with rfl | ⟨id, t, cause, rfl⟩
    · have hu : u.disposers = w.disposers.filter (·.1 ≠ x) := by rw [hworld, disposers_undoEach hmine]
      obtain ⟨hv, ps, hps, hperm⟩ := ih (fun p hp => hmild p (List.mem_of_mem_filter (hu ▸ hp))) h
      rw [hu] at hv hperm
      refine ⟨?_, _, .strike x ((hworld ▸ undone_undoEach x _ _).trans hps), ?_⟩
      · rw [hv, List.filter_filter]
        congr 1
        funext p
        by_cases hp : p.1 = x <;> simp [hp]
      · refine List.Perm.trans (List.Perm.append ?_ hperm) (perm_filter_cons x ready w.disposers)
        rw [List.map_reverse, List.map_map]
        refine (List.reverse_perm _).trans (.of_eq ?_)
        refine (List.map_congr_left fun p hp => ?_).trans (List.map_id _)
        have hp : p.1 = x := of_decide_eq_true (List.mem_filter.1 hp).2
        rw [← hp]
        rfl
    · cases h

/-- The failure of a disposal is what comes out if nodes cannot be disposed of. -/
theorem disposal_of_disposeAll {ready : List NodeRef} {w v : World} {e : Failure}
    (h : (ready.forM (disposeNode dispose)).runOn w = (.error e, v)) : ∃ id t cause, e = .node id t (.disposal cause) := by
  induction ready generalizing w with
  | nil => cases h
  | cons x ready ih =>
    have hcons : ((x :: ready).forM (disposeNode dispose)).runOn w =
        (disposeNode dispose x >>= fun _ => ready.forM (disposeNode dispose)).runOn w := rfl
    obtain ⟨-, hout⟩ := disposeNode_eq dispose x w
    rw [hcons, runOn_bind] at h
    generalize (disposeNode dispose x).runOn w = p at h hout
    obtain ⟨out, u⟩ := p
    simp only at hout
    rcases hout with rfl | ⟨id, t, cause, rfl⟩
    · exact ih h
    · cases h
      exact ⟨id, t, cause, rfl⟩

/-- Event nodes that cannot all begin: one of them fails, and those before it are disposed of. -/
theorem halts_of_subscribeAll {i : Nat} {before xs : List NodeRef} {w v : World} {e : Failure}
    (h : (subscribeAll i before xs).runOn w = (.error e, v)) :
    ∃ ready x e' u, Halts i xs w ready x e' u ∧
      ((ready ++ before).forM (disposeNode dispose) >>= fun _ => throw e' : Play Unit).runOn u = (.error e, v) := by
  induction xs generalizing before w with
  | nil => cases h
  | cons x xs ih =>
    rw [subscribeAll_cons] at h
    generalize hrun : (initOf i x).runOn w = p at h
    obtain ⟨out, u⟩ := p
    cases out with
    | ok a =>
      obtain ⟨ready, y, e', u', hhalts, hrest⟩ := ih h
      refine ⟨ready ++ [x], y, e', u', .begins hrun hhalts, ?_⟩
      rw [List.append_assoc]
      exact hrest
    | error e' => exact ⟨[], x, e', u, .fails hrun, h⟩

theorem outlined_initOf (i : Nat) (x : NodeRef) (w : World) : Outlined w ((initOf i x).runOn w).2 := by
  have hC := (Outlined.drained w i).toConduct
  rw [initOf, runOn_get]
  dsimp only
  refine (obeys_invoke hC x .init ?_).upholds rfl
  intro y hy
  split at hy
  · obtain ⟨b, rfl, rfl⟩ := Option.map_eq_some_iff.1 hy
    exact EventBehaviour.obeys_run hC fun _ _ => trivial
  · cases hy

def Orderly (xs : List NodeRef) (w : World) : Prop := ∀ x ∈ xs, ∀ actions,
  (w.node x).definition.behaviour = .event (some (.script actions)) → ∀ a ∈ actions, a.isOrderly = true

/-- What nodes have registered by the time that one of them fails. -/
theorem adds_of_halts {i : Nat} {xs ready : List NodeRef} {w u : World} {x : NodeRef} {e : Failure}
    (h : Halts i xs w ready x e u) (hxs : Orderly xs w) :
    ∃ L, u.disposers = w.disposers ++ L ∧ ∀ p ∈ L, (p.1 = x ∨ p.1 ∈ ready) ∧ p.2.isMild = true := by
  induction h with
  | @fails x rest w e v hrun =>
    obtain ⟨L, hL, hmine⟩ := enlists_initOf (i := i) (hxs x List.mem_cons_self) ⟨[], (List.append_nil _).symm, by simp⟩
    rw [hrun] at hL
    exact ⟨L, hL, fun p hp => ⟨.inl (hmine p hp).1, (hmine p hp).2⟩⟩
  | @begins x rest w v ready y e u hrun hrest ih =>
    obtain ⟨L, hL, hmine⟩ := enlists_initOf (i := i) (hxs x List.mem_cons_self) ⟨[], (List.append_nil _).symm, by simp⟩
    have hout := outlined_initOf i x w
    rw [hrun] at hL hout
    obtain ⟨L', hL', hrestL⟩ := ih fun z hz actions hactions =>
      hxs z (List.mem_cons_of_mem _ hz) actions (hout.definition z ▸ hactions)
    refine ⟨L ++ L', by rw [hL', hL, List.append_assoc], fun p hp => ?_⟩
    rcases List.mem_append.1 hp with hp | hp
    · exact ⟨.inr (List.mem_append_right _ (List.mem_singleton.2 (hmine p hp).1)), (hmine p hp).2⟩
    · exact ⟨(hrestL p hp).1.imp_right (List.mem_append_left _), (hrestL p hp).2⟩

def eventsOf (w : World) (xs : List NodeRef) : List NodeRef := xs.filter fun x => (w.node x).kind = .event

/-- The world in which an engine of the nodes is being made, before its event nodes begin. -/
def opening (name : String) (xs : List NodeRef) (settings : RuntimeSettings) (w : World) : World :=
  { w with engines := w.engines.push { name := name, nodes := xs, eventNodes := eventsOf w xs, settings := settings } }

/-- An engine that cannot be made. Some of its event nodes had begun when one failed; what had been registered by then is
`L`. If the failing node registered nothing of it, and no disposal fails, then every callback of the nodes that had begun
is run once, the new ones and older ones of theirs, and none of them is left. -/
theorem undone_of_makeEngine {name : String} {xs : List NodeRef} {settings : RuntimeSettings} {w v : World} {e : Failure}
    (hxs : Orderly xs w) (hmild : ∀ p ∈ w.disposers, p.2.isMild = true)
    (h : (makeEngine name xs settings).runOn w = (.error e, v)) (he : ∀ id t cause, e ≠ .node id t (.disposal cause)) :
    ∃ ready x u L, Halts w.engines.size (eventsOf w xs) (opening name xs settings w) ready x e u ∧
      u.disposers = w.disposers ++ L ∧ (∀ p ∈ L, p.1 = x ∨ p.1 ∈ ready) ∧
      ((∀ p ∈ L, p.1 ∈ ready) → v.disposers = w.disposers.filter (·.1 ∉ ready) ∧
        ∃ ps, Undone ps u v ∧ ps.Perm (w.disposers.filter (·.1 ∈ ready) ++ L)) := by
  have hmake : (makeEngine name xs settings).runOn w = (do
      subscribeAll w.engines.size [] (eventsOf w xs)
      modify (·.modifyEngine w.engines.size fun e => { e with isObserved := true })
      return w.engines.size : Play Nat).runOn (opening name xs settings w) := rfl
  have hfail : (subscribeAll w.engines.size [] (eventsOf w xs)).runOn (opening name xs settings w) = (.error e, v) := by
    rw [hmake, runOn_bind] at h
    generalize (subscribeAll w.engines.size [] (eventsOf w xs)).runOn (opening name xs settings w) = p at h ⊢
    obtain ⟨out, u⟩ := p
    cases out with
    | ok _ => cases h
    | error e' =>
      cases h
      rfl
  obtain ⟨ready, x, e', u, hhalts, hback⟩ := halts_of_subscribeAll hfail
  have horderly : Orderly (eventsOf w xs) (opening name xs settings w) :=
    fun x hx => hxs x (List.mem_of_mem_filter hx)
  obtain ⟨L, hL, hnodes⟩ := adds_of_halts hhalts horderly
  rw [List.append_nil, runOn_bind] at hback
  generalize hrun : (ready.forM (disposeNode dispose)).runOn u = p at hback
  obtain ⟨out, u'⟩ := p
  cases out with
  | error f =>
    cases hback
    obtain ⟨id, t, cause, rfl⟩ := disposal_of_disposeAll hrun
    exact absurd rfl (he id t cause)
  | ok _ =>
    cases hback
    refine ⟨ready, x, u, L, hhalts, hL, fun p hp => (hnodes p hp).1, fun hready => ?_⟩
    have hmildu : ∀ p ∈ u.disposers, p.2.isMild = true := by
      intro p hp
      rw [hL] at hp
      rcases List.mem_append.1 hp with hp | hp
      · exact hmild p hp
      · exact (hnodes p hp).2
    obtain ⟨hv, ps, hps, hperm⟩ := undone_disposeAll hmildu hrun
    have hnone : L.filter (·.1 ∉ ready) = [] := by simpa using hready
    have hall : L.filter (·.1 ∈ ready) = L := by simpa using hready
    rw [hL, List.filter_append] at hv hperm
    refine ⟨?_, ps, hps, ?_⟩
    · rw [hv, hnone, List.append_nil]
      rfl
    · rw [hall] at hperm
      exact hperm

/-- Which node failed, and how, is settled by the world in which the nodes begin. -/
theorem Halts.unique {i : Nat} {xs ready ready' : List NodeRef} {w u u' : World} {x x' : NodeRef} {e e' : Failure}
    (h : Halts i xs w ready x e u) (h' : Halts i xs w ready' x' e' u') : ready' = ready ∧ x' = x ∧ e' = e ∧ u' = u := by
  induction h generalizing ready' with
  | fails hrun =>
    cases h' with
    | fails hrun' =>
      cases hrun.symm.trans hrun'
      exact ⟨rfl, rfl, rfl, rfl⟩
    | begins hrun' _ => cases hrun.symm.trans hrun'
  | begins hrun _ ih =>
    cases h' with
    | fails hrun' => cases hrun.symm.trans hrun'
    | begins hrun' hrest' =>
      cases hrun.symm.trans hrun'
      obtain ⟨rfl, rfl, rfl, rfl⟩ := ih hrest'
      exact ⟨rfl, rfl, rfl, rfl⟩

namespace Rollback

def node (id : String) (actions : List Action) : Node where
  id := id
  definition := { typeName := "Script", behaviour := .event (some (.script actions)) }

def world (nodes : List Node) : World := { graphs := #[{ arena := nodes.toArray }] }

/-- The first two nodes register callbacks, the third one fails. -/
def scripts : World := world [node "a" [.onDispose [.trace (.str "a")], .onDispose [.trace (.str "b")]],
  node "c" [.onDispose [.trace (.str "c")]], node "x" [.raise .value "no"]]

def nodes : List NodeRef := [⟨0, 0⟩, ⟨0, 1⟩, ⟨0, 2⟩]

def refusal : Failure := .node "x" "Script" (.failed .init (.fault (.scripted .value "no")))

def afterwards : World := ((makeEngine "main" nodes {}).runOn scripts).2

def first : World := ((initOf 0 ⟨0, 0⟩).runOn (opening "main" nodes {} scripts)).2
def second : World := ((initOf 0 ⟨0, 1⟩).runOn first).2
def third : World := ((initOf 0 ⟨0, 2⟩).runOn second).2

end Rollback

open Rollback in
/-- The three callbacks are run and none is left. -/
theorem undone_of_makeEngine_scripts : (makeEngine "main" nodes {}).runOn scripts = (.error refusal, afterwards) ∧
    third.disposers.length = 3 ∧ afterwards.disposers = [] ∧ ∃ ps, Undone ps third afterwards ∧ ps.Perm third.disposers := by
  have horderly : Orderly nodes scripts := by
    intro x hx actions h a ha
    simp only [nodes, List.mem_cons, List.not_mem_nil, or_false] at hx
    rcases hx with rfl | rfl | rfl <;> cases h <;> revert a <;> decide
  have hrefused : ((makeEngine "main" nodes {}).runOn scripts).1 = .error refusal := by rfl
  have hfail : (makeEngine "main" nodes {}).runOn scripts = (.error refusal, afterwards) := by
    rw [← hrefused, afterwards]
  have hthird : Halts 0 (eventsOf scripts nodes) (opening "main" nodes {} scripts) [⟨0, 1⟩, ⟨0, 0⟩] ⟨0, 2⟩ refusal third := by
    have hx : Halts 0 [⟨0, 2⟩] second [] ⟨0, 2⟩ refusal third := .fails (by rfl)
    have hc : Halts 0 [⟨0, 1⟩, ⟨0, 2⟩] first [⟨0, 1⟩] ⟨0, 2⟩ refusal third := .begins (by rfl) hx
    exact .begins (by rfl) hc
  obtain ⟨ready, x, u, L, hhalts, hL, -, hundone⟩ := undone_of_makeEngine horderly (by simp [scripts, world]) hfail
    (by rintro id t cause ⟨⟩)
  obtain ⟨rfl, rfl, -, rfl⟩ := hthird.unique hhalts
  have hL : third.disposers = L := hL
  have hready : ∀ p ∈ third.disposers, p.1 ∈ [(⟨0, 1⟩ : NodeRef), ⟨0, 0⟩] := by decide +kernel
  rw [← hL] at hundone
  obtain ⟨hnone, ps, hps, hperm⟩ := hundone hready
  exact ⟨hfail, by decide +kernel, hnone, ps, hps, hperm⟩

namespace Rollback

/-- The node registers a callback and then fails. -/
def half : World := world [node "x" [.onDispose [.trace (.str "x")], .raise .value "no"]]

/-- A callback of the second node fails when the third node could not begin. -/
def stuck : World := world [node "a" [.onDispose [.trace (.str "a")]], node "b" [.onDispose [.raise .key "b"]],
  node "x" [.raise .value "no"]]

def afterHalf : World := ((makeEngine "main" [⟨0, 0⟩] {}).runOn half).2
def afterStuck : World := ((makeEngine "main" nodes {}).runOn stuck).2

end Rollback

open Rollback in
/-- What the failing node registered is left, and so is what was registered by the nodes before one that cannot be disposed
of; in both cases the callback that is left was not run. -/
theorem not_undone_half_stuck :
    ((makeEngine "main" [⟨0, 0⟩] {}).runOn half).1.toBool = false ∧ afterHalf.disposers.map (·.1) = [⟨0, 0⟩] ∧
      afterHalf.journal = [] ∧
    ((makeEngine "main" nodes {}).runOn stuck).1.toBool = false ∧ afterStuck.disposers.map (·.1) = [⟨0, 0⟩] ∧
      afterStuck.journal = [] := by
  decide +kernel

end Play

end FlowGraph
