import FlowGraph.Engine.Host
import FlowGraph.Proofs.Yields

/-!
What a context may do keeps to a `Bearing`: in related worlds it has the same outcome and leads to related worlds. What
goes wrong in it is no failure of a node, or something that it blames its own node for.
-/
namespace FlowGraph

open Play

theorem Context.runOn_write (c : Context) (output : String) (v : Value) (w : World) : (c.write output v).runOn w =
    match ((w.stamp c.node.graph v).2.node c.node).write output (w.stamp c.node.graph v).1 with
    | .ok n => (.ok (), (w.stamp c.node.graph v).2.modifyNode c.node fun _ => n)
    | .error e => (.error (.fault e), (w.stamp c.node.graph v).2) := by
  have hstamp : (Play.stamp c.node.graph v).runOn w = (.ok (w.stamp c.node.graph v).1, (w.stamp c.node.graph v).2) := rfl
  have hself (w : World) : c.self.runOn w = (.ok (w.node c.node), w) := rfl
  rw [write, runOn_bind, hstamp]
  simp only [runOn_bind, hself]
  cases ((w.stamp c.node.graph v).2.node c.node).write output (w.stamp c.node.graph v).1 <;> rfl

namespace Action

mutual
/-- Induction on what an action may lead to. -/
theorem induct {P : Action → Prop} (plain : ∀ a : Action, a.isPlain = true → P a)
    (look : ∀ next : Sight → List Action, (∀ s, ∀ a ∈ next s, P a) → P (.look next))
    (attempt : ∀ (actions : List Action) (next : Except Failure Unit → List Action),
      (∀ a ∈ actions, P a) → (∀ out, ∀ a ∈ next out, P a) → P (.attempt actions next)) (a : Action) : P a := by
  cases a with
  | look next => exact look next fun s => inductAll plain look attempt (next s)
  | attempt actions next =>
    exact attempt actions next (inductAll plain look attempt actions) fun out => inductAll plain look attempt (next out)
  | _ => exact plain _ rfl

theorem inductAll {P : Action → Prop} (plain : ∀ a : Action, a.isPlain = true → P a)
    (look : ∀ next : Sight → List Action, (∀ s, ∀ a ∈ next s, P a) → P (.look next))
    (attempt : ∀ (actions : List Action) (next : Except Failure Unit → List Action),
      (∀ a ∈ actions, P a) → (∀ out, ∀ a ∈ next out, P a) → P (.attempt actions next)) (actions : List Action) :
    ∀ a ∈ actions, P a := by
  cases actions with
  | nil => exact fun _ h => absurd h List.not_mem_nil
  | cons b rest =>
    have hb := induct plain look attempt b
    have hrest := inductAll plain look attempt rest
    intro a ha
    exact (List.mem_cons.1 ha).elim (fun h => h ▸ hb) (hrest a)
end

theorem obeys_each {R : World → World → Prop} {dispose : Nat → Play Unit} {c : Context} {actions : List Action}
    (h : ∀ a ∈ actions, Obeys R (a.perform dispose c)) : Obeys R (performAll dispose c actions) := by
  rw [performAll_eq_forM]
  exact .of_forM h

theorem yields_each {P : World → Prop} {E : Failure → Prop} {dispose : Nat → Play Unit} {c : Context} {actions : List Action}
    (h : ∀ a ∈ actions, Yields P E (a.perform dispose c) fun _ => True) :
    Yields P E (performAll dispose c actions) fun _ => True := by
  rw [performAll_eq_forM]
  exact (Yields.of_forM h).mono (fun _ he => he) fun _ _ => trivial

end Action

variable {R : World → World → Prop} {A : Context → Prop}

section Bearings

variable (hC : Bearing R A)

include hC

namespace World

/-- Who is told does the same in related worlds. -/
theorem obeys_handle (n : Notice) (x : Handler) : Stable R (·.handle n x) := by
  intro w r h
  cases x with
  | node j x =>
    simp only [handle]
    split
    · exact hC.begin j x "exec" (by simp) _ (.inl ⟨rfl, rfl⟩) h
    · exact h
  | watchVariable name =>
    cases n with
    | changed v => exact hC.record _ rfl h
    | _ => exact h
  | watchEvent name =>
    cases n with
    | triggered t => exact hC.record _ rfl h
    | _ => exact h

theorem obeys_emit (t : Topic) (n : Notice) : Stable R (·.emit t n) := by
  intro w r h
  simp only [emit, (hC.seen h).handlers]
  generalize r.handlers t = hs
  induction hs generalizing w r with
  | nil => exact h
  | cons x hs ih => exact ih (obeys_handle hC n x h)

theorem obeys_assign (g : Nat) (x : Variable) (v : Value) : Obeys R (change (·.assign g x v)) := by
  refine .of_change fun w r h => ?_
  unfold assign
  rw [← (hC.seen h).graph]
  split
  · exact ⟨rfl, h⟩
  · rename_i changed told heq
    have hg := hC.assign h heq
    refine ⟨rfl, ?_⟩
    simp only
    split
    · exact obeys_emit hC _ _ hg
    · exact hg

theorem obeys_putState (path v : Value) : Obeys R (change (·.putState path v)) := by
  refine .of_change fun w r h => ?_
  unfold putState
  split
  · exact ⟨rfl, h⟩
  · have hstore := hC.store (w.store.put path v) h
    simp only [← (hC.seen h).store]
    split
    · exact ⟨rfl, hstore⟩
    · split
      · exact ⟨rfl, hstore⟩
      · exact ⟨rfl, obeys_emit hC _ _ hstore⟩

end World

namespace Context

theorem obeys_self (c : Context) : Obeys R c.self :=
  .look fun w r h => by rw [(hC.seen h).node]; exact .of_pure _

theorem obeys_read (c : Context) (input : String) : Obeys R (c.read input) :=
  (obeys_self hC c).bind fun _ => .of_fault _

theorem obeys_sight (c : Context) : Obeys R c.sight :=
  .look fun w r h => by rw [(hC.seen h).node, (hC.seen h).graph]; exact .of_pure _

theorem obeys_stamp (g : Nat) (v : Value) : Obeys R (Play.stamp g v) :=
  fun _ _ h => ⟨congrArg Except.ok ((hC.seen h).stamp g v), hC.stamp g v h⟩

theorem obeys_write {c : Context} (hc : A c) (output : String) (v : Value) : Obeys R (c.write output v) := by
  intro w r h
  have hstamped : R (w.stamp c.node.graph v).2 (r.stamp c.node.graph v).2 := hC.stamp c.node.graph v h
  rw [runOn_write, runOn_write, ← (hC.seen h).stamp, ← (hC.seen hstamped).node]
  split
  · rename_i n heq
    exact ⟨rfl, hC.write hstamped hc heq⟩
  · exact ⟨rfl, hstamped⟩

theorem obeys_setting (c : Context) (key : String) : Obeys R (c.setting key) := by
  refine (obeys_self hC c).bind fun n => ?_
  split
  · exact .of_pure _
  · exact .of_throw _

theorem obeys_setState {c : Context} (hc : A c) (v : Value) : Obeys R (c.setState v) :=
  .of_modify fun _ _ h => hC.setState hc v h

theorem obeys_service (c : Context) (name : String) : Obeys R (c.service name) :=
  .look fun w r h => by rw [(hC.seen h).registryOf]; exact .of_fault _

theorem obeys_variableNamed (c : Context) (name : Value) : Obeys R (c.variableNamed name) := by
  refine .look fun w r h => ?_
  rw [(hC.seen h).graph]
  refine (Agrees.of_fault _).bind fun x => ?_
  split
  · exact .of_pure _
  · exact (Agrees.of_fault _).bind fun _ => .of_throw _

theorem obeys_eventNamed (c : Context) (name : Value) : Obeys R (c.eventNamed name) := by
  refine .look fun w r h => ?_
  rw [(hC.seen h).graph]
  refine (Agrees.of_fault _).bind fun x => ?_
  split
  · exact .of_pure _
  · exact (Agrees.of_fault _).bind fun _ => .of_throw _

theorem obeys_inputName (c : Context) : Obeys R c.inputName := by
  unfold inputName
  split
  · exact .of_pure _
  · exact .look fun w r h => by rw [(hC.seen h).operation]; exact .of_pure _
  · exact .of_throw _

/-- The listener speaks for the context that commits. -/
theorem obeys_commit {c : Context} (hc : A c) (output : String) {l : Option Listener}
    (hl : ∀ x, l = some x → x.context? = some c) : Obeys R (c.commit output l) := by
  unfold commit
  split
  · rename_i j hrole
    refine .of_modify fun w r h => hC.begin j c.node output ?_ [] (.inr ⟨c, hc, rfl⟩) h
    intro x hx d hd
    rw [hl x hx] at hd
    cases hd
    exact ⟨hc, fun _ _ _ hflow => by rw [hrole] at hflow; cases hflow⟩
  · rename_i j k input hrole
    have hself : c = ⟨c.node, .flow j k input⟩ := by rw [← hrole]
    rw [hself] at hc hl
    exact .of_change fun w r h => ⟨(hC.seen h).commitFiber (hC.committed h hc) .., hC.commit hc output hl h⟩
  · exact .of_throw _

theorem obeys_start {c : Context} (hc : A c) (output : String) (values : List (String × Value)) :
    Obeys R (c.start output values) := by
  unfold start
  split
  · exact .of_modify fun w r h => hC.begin _ c.node output (by simp) values (.inr ⟨c, hc, rfl⟩) h
  · exact .of_throw _
  · exact .of_throw _

theorem obeys_stop {c : Context} (hc : A c) : Obeys R c.stop := by
  unfold stop
  split
  · rename_i j k input hrole
    have hself : c = ⟨c.node, .flow j k input⟩ := by rw [← hrole]
    rw [hself] at hc
    exact .of_change fun w r h => ⟨(hC.seen h).endFiber (hC.committed h hc) _, hC.stop hc h⟩
  · exact .of_throw _

theorem obeys_finish (c : Context) (output : Option String) : Obeys R (c.finish output) := by
  unfold finish
  split
  · exact .of_modify fun w r h => hC.finish _ _ output h
  · exact .of_throw _

/-- A context that can register what is to be undone is bound to no fiber. -/
theorem obeys_onDispose (c : Context) {d : Disposer} (hd : c.Free → d.Within fun c => A c ∧ c.Free) :
    Obeys R (c.onDispose d) := by
  unfold onDispose
  split
  · rename_i j hrole
    exact .of_modify fun w r h => hC.enlist c.node (hd fun _ _ _ hf => by rw [hrole] at hf; cases hf) h
  · rename_i j o hrole
    exact .of_modify fun w r h => hC.enrol (hd fun _ _ _ hf => by rw [hrole] at hf; cases hf) h
  · exact .of_throw _

/-- A context subscribes alike. -/
theorem obeys_subscribe (c : Context) (t : Topic) : Obeys R (c.subscribe t) := by
  unfold subscribe
  split
  · rename_i j _
    intro w r h
    have heq : (w.subscribe t (.node j c.node)).1 = (r.subscribe t (.node j c.node)).1 := by
      simp only [World.subscribe, (hC.seen h).issued]
    have hrun (w : World) : (do
        let d ← modifyGet (·.subscribe t (.node j c.node))
        c.onDispose d : Play Unit).runOn w =
          (c.onDispose (w.subscribe t (.node j c.node)).1).runOn (w.subscribe t (.node j c.node)).2 := rfl
    rw [hrun, hrun, heq]
    exact obeys_onDispose hC c (d := .unsubscribe r.issued) (fun _ => trivial) _ _ (hC.subscribe t _ h)
  · exact .of_throw _

omit hC in
theorem obeys_engine (c : Context) : Obeys R c.engine := by
  unfold engine
  split
  · exact .of_pure _
  · exact .of_pure _
  · exact .of_pure _
  · exact .of_throw _

end Context

section Disposal

variable {dispose : Nat → Play Unit}

theorem Action.obeys_observe (c : Context) {e : String → Event} (he : ∀ id, (e id).isFailed = false) :
    Obeys R (Action.observe c e) :=
  (c.obeys_self hC).bind fun _ => .of_modify fun _ _ h => hC.record _ (he _) h

/-- Actions keep to the relation, by induction on what they may lead to. -/
theorem Action.obeys_perform (hd : ∀ j, Obeys R (dispose j)) {c : Context} (hc : A c) (a : Action) :
    Obeys R (a.perform dispose c) := by
  induction a using Action.induct with
  | look next ih =>
    rw [perform]
    exact (c.obeys_sight hC).bind fun s => obeys_each (ih s)
  | attempt actions next hfirst hnext =>
    rw [perform]
    exact (obeys_each hfirst).of_outcome.bind fun out => obeys_each (hnext out)
  | plain a ha =>
    cases a with
    | look next => cases ha
    | attempt actions next => cases ha
    | trace text =>
      rw [perform]
      exact obeys_observe hC c fun _ => rfl
    | read name => exact (c.obeys_read hC name).bind fun _ => obeys_observe hC c fun _ => rfl
    | copy source target => exact (c.obeys_read hC source).bind fun _ => Context.obeys_write hC hc target _
    | write output v => exact Context.obeys_write hC hc output _
    | input => exact (c.obeys_inputName hC).bind fun _ => obeys_observe hC c fun _ => rfl
    | state v =>
      exact (c.obeys_self hC).bind fun _ => (obeys_observe hC c fun _ => rfl).bind fun _ => Context.obeys_setState hC hc v
    | config key => exact (c.obeys_setting hC key).bind fun _ => obeys_observe hC c fun _ => rfl
    | readVariable name =>
      exact (c.obeys_variableNamed hC _).bind fun _ => (Agrees.of_except _).bind fun _ => obeys_observe hC c fun _ => rfl
    | service name => exact (c.obeys_service hC name).bind fun _ => obeys_observe hC c fun _ => rfl
    | commit output => exact Context.obeys_commit hC hc output (by simp)
    | commitThen output after =>
      refine Context.obeys_commit hC hc output ?_
      rintro x ⟨⟩
      rfl
    | start output values => exact Context.obeys_start hC hc output _
    | stop => exact Context.obeys_stop hC hc
    | finish output => exact c.obeys_finish hC output
    | hold => exact .of_modify fun _ _ h => hC.hold hc h
    | onDispose actions => exact c.obeys_onDispose hC fun hfree => ⟨hc, hfree⟩
    | dispose => exact c.obeys_engine.bind fun j => hd j
    | raise family text => exact .of_throw _
    | nodeError text => exact .look fun w r h => by rw [(hC.seen h).nodeFailure]; exact .of_throw _

theorem Action.obeys_performAll (hd : ∀ j, Obeys R (dispose j)) {c : Context} (hc : A c) (actions : List Action) :
    Obeys R (Action.performAll dispose c actions) :=
  obeys_each fun a _ => obeys_perform hC hd hc a

end Disposal

end Bearings

/-- What may go wrong in the context: any failure of no node, and what its own node is blamed for in a world with the
property. -/
structure Context.Utters (P : World → Prop) (E : Failure → Prop) (c : Context) : Prop where
  raw : ∀ e, e.isNode = false → E e
  own : ∀ w, P w → ∀ reason : NodeReason, reason.isOwn = true → E (w.nodeFailure c.node reason)

theorem Context.utters_isUttered (c : Context) : c.Utters (fun _ => True) fun e => e.isUttered = true :=
  ⟨fun _ => Failure.isUttered_of_not_isNode, fun _ _ _ h => h⟩

section Utterances

variable {α : Type} {P : World → Prop} {E : Failure → Prop} {Q : α → Prop} {c : Context}

theorem Action.yields_observe {A : Context → Prop} (hC : Bearing (Upholds P) A) (c : Context) {e : String → Event}
    (he : ∀ id, (e id).isFailed = false) : Yields P E (Action.observe c e) fun _ => True :=
  .of_obeys (obeys_observe hC c he) fun _ _ _ hfail => by cases hfail

theorem Context.yields_setState {A : Context → Prop} (hC : Bearing (Upholds P) A) (hc : A c) (v : Value) :
    Yields P E (c.setState v) fun _ => True :=
  .of_obeys (obeys_setState hC hc v) fun _ _ _ hfail => by cases hfail

namespace Context.Utters

variable (h : c.Utters P E)

include h

theorem fault (f : Fault) : E (.fault f) := h.raw _ rfl

theorem ofFault {x : Except Fault α} : Yields P E (ofFault x) fun _ => True :=
  .of_fault (fun _ _ => trivial) fun e _ => h.fault e

theorem lacks (feature : String) : Yields P E (c.lacks feature) Q := .of_throw (h.fault _)

theorem read (input : String) : Yields P E (c.read input) fun _ => True := .look fun _ _ => h.ofFault

theorem setting (key : String) : Yields P E (c.setting key) fun _ => True := by
  refine .look fun w _ => ?_
  split
  · exact .of_pure trivial
  · exact .of_throw (h.fault _)

theorem service (name : String) : Yields P E (c.service name) fun _ => True := .look fun _ _ => h.ofFault

theorem variableNamed (name : Value) : Yields P E (c.variableNamed name) fun _ => True := by
  refine .look fun w _ => h.ofFault.bind fun x _ => ?_
  split
  · exact .of_pure trivial
  · exact h.ofFault.bind fun _ _ => .of_throw (h.fault _)

theorem eventNamed (name : Value) : Yields P E (c.eventNamed name) fun _ => True := by
  refine .look fun w _ => h.ofFault.bind fun x _ => ?_
  split
  · exact .of_pure trivial
  · exact h.ofFault.bind fun _ _ => .of_throw (h.fault _)

theorem get (x : Variable) : Yields P E (Play.ofExcept x.get) fun _ => True := by
  refine .of_except (fun _ _ => trivial) fun e he => ?_
  unfold Variable.get Except.lifted at he
  split at he
  · cases he
  · cases he
    exact h.fault _

theorem inputName : Yields P E c.inputName fun _ => True := by
  unfold Context.inputName
  split
  · exact .of_pure trivial
  · exact .look fun _ _ => .of_pure trivial
  · exact h.lacks _

theorem engine : Yields P E c.engine fun _ => True := by
  unfold Context.engine
  split
  · exact .of_pure trivial
  · exact .of_pure trivial
  · exact .of_pure trivial
  · exact h.lacks _

theorem refusal {w : World} (hw : P w) {i f : Nat} {output : String} {e : Failure}
    (he : w.commitRefusal? i f c.node output = some e) : E e := by
  unfold World.commitRefusal? at he
  split at he
  · cases he
    exact h.own w hw _ rfl
  · split at he
    · cases he
    · cases he
      exact h.own w hw _ rfl

variable {A : Context → Prop} (hC : Bearing (Upholds P) A) (hc : A c)

include hC hc

theorem write (output : String) (v : Value) : Yields P E (c.write output v) fun _ => True := by
  refine .of_obeys (Context.obeys_write hC hc output v) fun w _ e he => ?_
  rw [Context.runOn_write] at he
  split at he
  · cases he
  · cases he
    exact h.fault _

/-- A commitment fails only on the node's own account. -/
theorem commit (output : String) {l : Option Listener} (hl : ∀ x, l = some x → x.context? = some c) :
    Yields P E (c.commit output l) fun _ => True := by
  refine .of_obeys (Context.obeys_commit hC hc output hl) fun w hw e he => ?_
  unfold Context.commit at he
  split at he
  · cases he
  · change (w.commitFiber _ _ c.node output l).1 = .error e at he
    unfold World.commitFiber at he
    split at he
    · rename_i hrefused
      cases he
      exact h.refusal hw hrefused
    · cases he
  · cases he
    exact h.fault _

theorem start (output : String) (values : List (String × Value)) : Yields P E (c.start output values) fun _ => True := by
  refine .of_obeys (Context.obeys_start hC hc output values) fun w _ e he => ?_
  unfold Context.start at he
  split at he
  · cases he
  · cases he
    exact h.fault _
  · cases he
    exact h.fault _

theorem stop : Yields P E c.stop fun _ => True := by
  refine .of_obeys (Context.obeys_stop hC hc) fun w hw e he => ?_
  unfold Context.stop at he
  split at he
  · change (w.endFiber _ _ c.node).1 = .error e at he
    unfold World.endFiber at he
    split at he
    · cases he
      exact h.own w hw _ rfl
    · cases he
  · cases he
    exact h.fault _

omit hc in
theorem finish (output : Option String) : Yields P E (c.finish output) fun _ => True := by
  refine .of_obeys (c.obeys_finish hC output) fun w _ e he => ?_
  unfold Context.finish at he
  split at he
  · cases he
  · cases he
    exact h.fault _

omit hc in
theorem onDispose {d : Disposer} (hd : c.Free → d.Within fun c => A c ∧ c.Free) :
    Yields P E (c.onDispose d) fun _ => True := by
  refine .of_obeys (c.obeys_onDispose hC hd) fun w _ e he => ?_
  unfold Context.onDispose at he
  split at he
  · cases he
  · cases he
  · cases he
    exact h.fault _

omit hc in
theorem subscribe (t : Topic) : Yields P E (c.subscribe t) fun _ => True := by
  refine .of_obeys (c.obeys_subscribe hC t) fun w _ e he => ?_
  unfold Context.subscribe at he
  split at he
  · rename_i i hrole
    have hrun : (do
        let d ← modifyGet (·.subscribe t (.node i c.node))
        c.onDispose d : Play Unit).runOn w =
          (c.onDispose (w.subscribe t (.node i c.node)).1).runOn (w.subscribe t (.node i c.node)).2 := rfl
    rw [hrun, Context.onDispose, hrole] at he
    cases he
  · cases he
    exact h.fault _

variable {dispose : Nat → Play Unit} (hd : ∀ j, Yields P E (dispose j) fun _ => True)

include hd

/-- An action fails with a failure of no node, or with what it blames its own node for. -/
theorem perform (a : Action) : Yields P E (a.perform dispose c) fun _ => True := by
  induction a using Action.induct with
  | look next ih =>
    rw [Action.perform]
    exact (Yields.of_obeys (c.obeys_sight hC) fun _ _ _ hfail => by cases hfail).bind fun s _ => Action.yields_each (ih s)
  | attempt actions next hfirst hnext =>
    rw [Action.perform]
    exact (Action.yields_each hfirst).outcome_bind (fun _ _ => Action.yields_each (hnext _))
      fun _ _ => Action.yields_each (hnext _)
  | plain a ha =>
    cases a with
    | look next => cases ha
    | attempt actions next => cases ha
    | trace text =>
      rw [Action.perform]
      exact Action.yields_observe hC c fun _ => rfl
    | read name => exact (h.read name).bind fun _ _ => Action.yields_observe hC c fun _ => rfl
    | copy source target => exact (h.read source).bind fun _ _ => h.write hC hc target _
    | write output v => exact h.write hC hc output _
    | input => exact h.inputName.bind fun _ _ => Action.yields_observe hC c fun _ => rfl
    | state v => exact .look fun _ _ => (Action.yields_observe hC c fun _ => rfl).bind fun _ _ => Context.yields_setState hC hc v
    | config key => exact (h.setting key).bind fun _ _ => Action.yields_observe hC c fun _ => rfl
    | readVariable name =>
      exact (h.variableNamed _).bind fun x _ => (h.get x).bind fun _ _ => Action.yields_observe hC c fun _ => rfl
    | service name => exact (h.service name).bind fun _ _ => Action.yields_observe hC c fun _ => rfl
    | commit output => exact h.commit hC hc output (by simp)
    | commitThen output after =>
      refine h.commit hC hc output ?_
      rintro x ⟨⟩
      rfl
    | start output values => exact h.start hC hc output _
    | stop => exact h.stop hC hc
    | finish output => exact h.finish hC output
    | hold => exact .of_modify fun w hw => (hC.hold hc (⟨rfl, hw⟩ : Upholds P w w)).2
    | onDispose actions => exact h.onDispose hC fun hfree => ⟨hc, hfree⟩
    | dispose => exact h.engine.bind fun j _ => hd j
    | raise family text => exact .of_throw (h.fault _)
    | nodeError text => exact .look fun w hw => .of_throw (h.own w hw _ rfl)

theorem performAll (actions : List Action) : Yields P E (Action.performAll dispose c actions) fun _ => True :=
  Action.yields_each fun a _ => h.perform hC hc hd a

end Context.Utters

end Utterances

end FlowGraph
