import FlowGraph.Proofs.Keeping

/-!
What hosts do. A host makes engines, fires the lifecycle, triggers events, sets variables and state, lets time pass
and runs engines, in any order. Whatever it does keeps a contract that the calls of a run keep to.
-/
namespace FlowGraph

open World Play

/-- Sets the value that a variable has and starts from, and tells of a change. -/
def World.resetVariable (w : World) (k : Nat) (name : String) (v : Value) : Except Failure Unit × World :=
  match (w.graph k).setVariable name v with
  | .error e => (.error e, w)
  | .ok (g, told) =>
    let w := w.modifyGraph k fun _ => g
    match told, g.vars.get? name with
    | some new, some x => (.ok (), w.emit (.variableChange k x.serial) (.changed new))
    | _, _ => (.ok (), w)

/-- One thing that a host does. -/
inductive HostAct where
  /-- Makes an engine for all nodes of a graph. -/
  | makeEngine (name : String) (graph : Nat) (settings : RuntimeSettings)
  | start
  | tick (seconds : Value)
  | ending
  | trigger (graph : Nat) (event : String) (values : List (String × Value))
  | assign (graph : Nat) (name : String) (value : Value)
  /-- Sets the value from which a variable starts, too. -/
  | reset (graph : Nat) (name : String) (value : Value)
  | putState (path value : Value)
  | advance (seconds : Value)
  | run (engine : Nat) (maxSteps : Option Int) (maxSeconds : Option Double)
  | runAsync (engine : Nat) (maxSteps : Option Int) (maxSeconds : Option Double) (waiting : Waiting)
  | dispose (engine : Nat)

namespace HostAct

/-- Does it. What is not declared is neither triggered nor assigned. -/
def play : HostAct → Play Unit
  | makeEngine name k settings => do
    let nodes := ((← get).graph k).ids.values.map fun n => ⟨k, n⟩
    let _ ← Play.makeEngine name nodes settings
  | start => lifecycleStart
  | tick seconds => do let _ ← lifecycleTick seconds
  | ending => lifecycleEnd
  | trigger k event values => modify fun w => match (w.graph k).events.get? event with
    | some e => w.trigger k e values
    | none => w
  | assign k name v => change fun w => match (w.graph k).vars.get? name with
    | some x => w.assign k x v
    | none => (.ok (), w)
  | reset k name v => change (·.resetVariable k name v)
  | putState path v => change (·.putState path v)
  | advance seconds => do let _ ← Play.advance seconds
  | run i maxSteps maxSeconds => do let _ ← Play.run i maxSteps maxSeconds
  | runAsync i maxSteps maxSeconds waiting => do let _ ← onLoop (Play.runAsync i maxSteps maxSeconds waiting)
  | dispose i => Play.dispose i

/-- What is raised when a host does one thing after the other, whatever fails, and the world after it. -/
def playAll : List HostAct → World → List Failure × World
  | [], w => ([], w)
  | a :: rest, w =>
    let (out, w) := a.play.runOn w
    let (raised, w) := playAll rest w
    (match out with
      | .error e => (e :: raised, w)
      | .ok _ => (raised, w))

end HostAct

namespace Contract

variable {C : Contract} {b w : World} {i : Nat}

/-- The host may do it under the contract. -/
def Permits (C : Contract) : HostAct → Prop
  | .makeEngine _ k _ => ∀ w, C.holds w → ∀ n ∈ (w.graph k).ids.values, C.uses ⟨k, n⟩
  | .tick seconds => C.Tells .tick (.tick seconds)
  | .trigger k event values => ∀ w, C.holds w → ∀ e, (w.graph k).events.get? event = some e →
    C.Tells (.eventTrigger k e.serial) (.triggered (e.payload values))
  | .reset k name v => ∀ w, C.holds w → (∀ e, (w.graph k).setVariable name v = .error e → C.admits e) ∧
    ∀ g told, (w.graph k).setVariable name v = .ok (g, told) → C.holds (w.modifyGraph k fun _ => g) ∧
      ∀ new x, told = some new → g.vars.get? name = some x → C.Tells (.variableChange k x.serial) (.changed new)
  | _ => True

theorem tends_new {e : Engine} (hnodes : ∀ x ∈ e.eventNodes, C.uses x)
    (hnew : e = { name := e.name, nodes := e.nodes, eventNodes := e.eventNodes, settings := e.settings }) : C.Tends e := by
  rw [hnew]
  exact ⟨fun _ h => (Array.not_mem_empty _ h).elim, fun _ h => (Array.not_mem_empty _ h).elim,
    fun _ h => (List.not_mem_nil h).elim, fun _ h => (List.not_mem_nil h).elim, hnodes⟩

section Beginning

variable (hC : C.Observed)

include hC

/-- What an event node does when an engine begins to use it. -/
theorem does_init {x : NodeRef} (hx : C.uses x) (hkind : (C.behaviour x).kind = .event) :
    C.Does w (invoke x .init (match C.behaviour x with
      | .event y => y.map fun b => b.run ⟨x, .event i⟩
      | _ => none)) fun _ => True := by
  cases hb : C.behaviour x with
  | event y =>
    refine does_invoke hC.toLawful ?_ ?_
    · intro z hz
      obtain ⟨a, rfl, rfl⟩ := Option.map_eq_some_iff.1 hz
      exact hC.event hx hb w i
    · intro hnone
      refine fun v => hC.missing hx ?_ v _
      rw [hb, Option.map_eq_none_iff.1 hnone]
      rfl
  | _ =>
    rw [hb] at hkind
    cases hkind

theorem does_subscribeAll {ready xs : List NodeRef} (hxs : ∀ x ∈ xs, C.uses x ∧ (C.behaviour x).kind = .event) :
    C.Does b (subscribeAll i ready xs) fun _ => True := by
  induction xs generalizing b ready with
  | nil => exact .of_pure trivial
  | cons x xs ih =>
    obtain ⟨hx, hkind⟩ := hxs x List.mem_cons_self
    refine Does.look fun w h => ?_
    rw [hC.behaviour h.holds hx]
    refine (does_init hC hx hkind).outcome_bind (fun _ _ => ?_) fun e he => ?_
    · exact ih fun y hy => hxs y (List.mem_cons_of_mem x hy)
    · refine Yields.bind (Yields.of_forM (S := fun _ => True) fun y _ => ?_) fun _ _ => .of_throw he
      exact Does.of_safely (safely_disposeNode hC.toLawful y)

/-- An engine may be made of nodes that may be used. -/
theorem does_makeEngine (name : String) {xs : List NodeRef} (hxs : ∀ x ∈ xs, C.uses x) (settings : RuntimeSettings) :
    C.Does b (Play.makeEngine name xs settings) fun _ => True := by
  refine Does.look fun w h v hv => ?_
  have hevents : ∀ x ∈ xs.filter fun x => (w.node x).kind = .event, C.uses x ∧ (C.behaviour x).kind = .event := by
    intro x hx
    obtain ⟨hx, hkind⟩ := List.mem_filter.1 hx
    refine ⟨hxs x hx, ?_⟩
    rw [← hC.behaviour h.holds (hxs x hx)]
    exact of_decide_eq_true hkind
  have hnew : C.Tends { name := name, nodes := xs, eventNodes := xs.filter fun x => (w.node x).kind = .event
                        settings := settings } :=
    tends_new (fun x hx => hxs x (List.mem_of_mem_filter hx)) rfl
  have hrest : C.Does w (do
      subscribeAll w.engines.size [] (xs.filter fun x => (w.node x).kind = .event)
      modify (·.modifyEngine w.engines.size fun e => { e with isObserved := true })
      return w.engines.size : Play Nat) fun _ => True := by
    refine (does_subscribeAll hC hevents).bind fun _ _ => Yields.bind (Does.of_kept fun u hu => ?_) fun _ _ =>
      .of_pure trivial
    exact hu.notify hC.toLawful _ fun _ => ⟨rfl, rfl, rfl, rfl, rfl⟩
  exact hrest _ (h.self.withEngine hC.toLawful hnew)

theorem does_lifecycleTick {seconds : Value} (hs : C.Tells .tick (.tick seconds)) :
    C.Does b (lifecycleTick seconds) fun _ => True := by
  refine Yields.bind (Does.of_kept fun w h => ?_) fun _ _ => Yields.bind (Does.of_kept fun w h => ?_) fun _ _ =>
    Does.look fun w h => .of_pure trivial
  · exact ⟨⟨h.later.engines, h.later.operations⟩, hC.frame (w := w) rfl h.holds, h.engines, h.journal, h.disposers,
      h.subscriptions, h.timers⟩
  · exact h.emit hC.toLawful hs

end Beginning

/-- The next timer was one of the timers, and the others stay. -/
theorem timers_next? {s s' : Scheduler (Nat × Nat)} {target : Value} {t : Timer (Nat × Nat)}
    (h : s.next? target = .ok (some (t, s'))) : s.timers = t :: s'.timers := by
  unfold Scheduler.next? at h
  split at h
  · cases h
  · rename_i heq
    obtain ⟨isDue, -, h⟩ := bind_eq_ok.1 h
    cases isDue with
    | false => cases h
    | true =>
      cases h
      exact heq

section Time

variable (hC : C.Observed)

include hC

theorem does_fire {t : Timer (Nat × Nat)} (ht : t.callback.2 < (b.engine t.callback.1).operations.size) :
    C.Does b (fire t) fun _ => True := by
  refine Does.of_kept fun w h => ?_
  have hcancelled : C.Kept b { w with scheduler := w.scheduler.cancel t.handle } := by
    refine h.withScheduler hC.toLawful fun u hu => h.timers u ?_
    unfold Scheduler.cancel at hu
    split at hu
    · exact hu
    · exact hu
  exact hcancelled.finishOperation hC.toLawful _ (Nat.lt_of_lt_of_le ht (h.later.operations _)) none _

/-- Timers that are due may fire. -/
theorem does_fireDue (fuel : Nat) (target : Value) : C.Does b (fireDue fuel target) fun _ => True := by
  induction fuel generalizing b with
  | zero => exact .of_pure trivial
  | succ fuel ih =>
    refine Does.look fun w h => ?_
    have hnext : C.Does w (ofFault (w.scheduler.next? target)) fun out =>
        ∀ t s, out = some (t, s) → w.scheduler.timers = t :: s.timers :=
      .of_fault (fun out hout t s hs => timers_next? (hout.trans (congrArg Except.ok hs)))
        fun f hf => hC.plain (Scheduler.plain_next? _ _ f hf)
    refine hnext.bind fun out hout => ?_
    split
    · exact .of_pure trivial
    · rename_i t s
      have htimers := hout t s rfl
      have hvalid : ∀ u ∈ t :: s.timers, u.callback.2 < (w.engine u.callback.1).operations.size :=
        htimers ▸ h.timers
      refine Yields.bind (Does.of_kept fun v hv => ?_) fun _ _ => ?_
      · refine hv.withScheduler hC.toLawful fun u hu => ?_
        exact Nat.lt_of_lt_of_le (hvalid u (List.mem_cons_of_mem t hu)) (hv.later.operations _)
      · split
        · exact ih
        · refine (does_fire hC (hvalid t List.mem_cons_self)).bind fun _ _ => ?_
          exact ih.bind fun _ _ => .of_pure trivial

theorem does_advanceTo (target : Value) : C.Does b (advanceTo target) fun _ => True := by
  refine Does.look fun w h => (does_fireDue hC _ target).bind fun n _ =>
    Yields.bind (Does.of_kept fun v hv => ?_) fun _ _ => .of_pure trivial
  exact hv.withScheduler hC.toLawful hv.timers

theorem does_advance (seconds : Value) : C.Does b (Play.advance seconds) fun _ => True := by
  refine Does.look fun w h => ?_
  split
  · exact (Does.of_plain hC.toLawful (Value.plain_add _ _)).bind fun _ _ => does_advanceTo hC _
  · exact Does.throw_plain hC.toLawful rfl
  · exact Does.throw_plain hC.toLawful rfl

/-- Time may pass. -/
theorem does_passTime (waiting : Waiting) : C.Does b (passTime waiting) fun _ => True := by
  unfold passTime
  split
  · exact .of_pure trivial
  · exact (does_advance hC _).bind fun _ _ => .of_pure trivial
  · rename_i deadline
    refine Does.look fun w h => ?_
    split
    · exact .of_pure trivial
    · rename_i due _
      have hrest : C.Does w (do
          let w ← get
          let _ ← advanceTo (if w.clock = .eventLoop then EventLoop.wakeUp w.scheduler.now due else due)
          return some (.byTimers deadline) : Play (Option Waiting)) fun _ => True :=
        Does.look fun v _ => (does_advanceTo hC _).bind fun _ _ => .of_pure trivial
      cases deadline with
      | none => exact hrest
      | some d =>
        dsimp only
        split
        · exact .of_pure trivial
        · exact hrest

theorem does_awaitWake (fuel : Nat) (waiting : Waiting) : C.Does b (awaitWake i fuel waiting) fun _ => True := by
  induction fuel generalizing b waiting with
  | zero => exact .of_pure trivial
  | succ fuel ih =>
    refine Does.look fun w h => ?_
    split
    · exact .of_pure trivial
    · refine (does_passTime hC waiting).bind fun out _ => ?_
      split
      · exact .of_pure trivial
      · exact ih _

/-- The loop may run, turn after turn. -/
theorem does_loopWithin (maxSteps : Int) (maxSeconds : Option Double) (fuel total : Nat) (waiting : Waiting) :
    C.Does b (loopWithin i maxSteps maxSeconds fuel total waiting) fun _ => True := by
  induction fuel generalizing b total waiting with
  | zero => exact .of_pure trivial
  | succ fuel ih =>
    refine Yields.bind (Does.of_kept fun v hv => ?_) fun _ _ => (does_run hC _ _).bind fun n _ => Does.look fun w h => ?_
    · exact hv.notify hC.toLawful i fun _ => ⟨rfl, rfl, rfl, rfl, rfl⟩
    · dsimp only
      split
      · exact .of_pure trivial
      · split
        · exact ih _ _
        · split
          · exact .of_pure trivial
          · refine Does.look fun v _ => (does_awaitWake hC _ waiting).bind fun out _ => ?_
            split
            · exact ih _ _
            · exact .of_pure trivial

/-- An asynchronous run may be started. -/
theorem does_runAsync (maxSteps : Option Int) (maxSeconds : Option Double) (waiting : Waiting) :
    C.Does b (Play.runAsync i maxSteps maxSeconds waiting) fun _ => True := by
  refine Does.look fun w h => ?_
  have hwithin (seconds : Option Double) : Plain (waiting.within w.scheduler.now seconds) := by
    unfold Waiting.within
    split
    · split
      · exact (Value.plain_add _ _).bind fun _ => .ok _
      · exact .ok _
    · exact .ok _
  have hawake (k : Nat × Bool → Play Outcome) (result : Except Failure (Nat × Bool))
      (hresult : ∀ e, result = .error e → C.admits e) (hk : ∀ p, C.Does w (k p) fun _ => True) :
      C.Does w (modify (·.modifyEngine i fun e => { e with wake := none }) >>= fun _ => Play.ofExcept result >>= k)
        fun _ => True := by
    refine Yields.bind (Does.of_kept fun v hv => ?_) fun _ _ =>
      (Yields.of_except (Q := fun _ => True) (fun _ _ => trivial) hresult).bind fun p _ => hk p
    exact hv.notify hC.toLawful i fun _ => ⟨rfl, rfl, rfl, rfl, rfl⟩
  cases maxSeconds
  all_goals
    dsimp only
    split
    · exact .of_pure trivial
    · refine (Does.of_plain hC.toLawful (hwithin _)).bind fun waiting _ => ?_
      refine (does_loopWithin hC _ _ _ _ waiting).outcome_bind (fun p _ => ?_) fun e he => ?_
      · exact hawake _ _ (fun _ he => by cases he) fun _ => .of_pure trivial
      · refine hawake _ _ (fun _ he' => ?_) fun _ => .of_pure trivial
        cases he'
        exact he

/-- What runs on the event loop may do what it does anywhere. -/
theorem does_onLoop {α : Type} {x : Play α} (hx : ∀ b, C.Does b x fun _ => True) : C.Does b (onLoop x) fun _ => True := by
  refine Does.look fun w h => ?_
  have hstill {v u : World} (hu : C.Kept v u) (isLooping : Bool) {s : Scheduler (Nat × Nat)}
      (hs : s.timers ⊆ u.scheduler.timers) : C.Kept v { u with isLooping := isLooping, scheduler := s } :=
    ⟨⟨hu.later.engines, hu.later.operations⟩, hC.frame (w := u) rfl hu.holds, hu.engines, hu.journal, hu.disposers,
      hu.subscriptions, fun t ht => hu.timers t (hs ht)⟩
  have hover (result : Except Failure α) (hresult : ∀ e, result = .error e → C.admits e) :
      C.Does w (modify (fun u => { u with isLooping := false, scheduler := { u.scheduler with timers := [] } }) >>=
        fun _ => Play.ofExcept result) fun _ => True := by
    refine Yields.bind (Does.of_kept fun v hv => ?_) fun _ _ => Yields.of_except (fun _ _ => trivial) hresult
    exact hstill hv false (List.nil_subset _)
  split
  · exact hx w
  · refine Yields.bind (Does.of_kept fun v hv => ?_) fun _ _ => ?_
    · exact hstill hv true (List.Subset.refl _)
    · refine (hx w).outcome_bind (fun a _ => ?_) fun e he => ?_
      · exact hover _ fun _ he => by cases he
      · refine hover _ fun _ he' => ?_
        cases he'
        exact he

end Time

section Acts

variable (hC : C.Observed)

include hC

/-- What a host may do keeps the contract. -/
theorem does_play {a : HostAct} (ha : C.Permits a) : C.Does b a.play fun _ => True := by
  cases a with
  | makeEngine name k settings =>
    refine Does.look fun w h => (does_makeEngine hC name (fun x hx => ?_) settings).bind fun _ _ => .of_pure trivial
    obtain ⟨n, hn, rfl⟩ := List.mem_map.1 hx
    exact ha w h.holds n hn
  | start => exact Does.of_kept fun w h => h.emit hC.toLawful (tells_plain _)
  | tick seconds => exact (does_lifecycleTick hC ha).bind fun _ _ => .of_pure trivial
  | ending => exact Does.of_kept fun w h => h.emit hC.toLawful (tells_plain _)
  | trigger k event values =>
    refine Does.of_kept fun w h => ?_
    split
    · rename_i e he
      exact h.emit hC.toLawful (ha w h.holds e he)
    · exact h
  | assign k name v =>
    have hassign (w : World) (h : C.Kept b w) : C.Kept b (match (w.graph k).vars.get? name with
          | some x => w.assign k x v
          | none => (.ok (), w)).2 ∧ ∀ e, (match (w.graph k).vars.get? name with
          | some x => w.assign k x v
          | none => (.ok (), w)).1 = .error e → C.admits e := by
      split
      · rename_i x hx
        exact h.assign hC.toLawful h.holds hx v
      · exact ⟨h, fun _ he => by cases he⟩
    exact Yields.of_change (fun w h => (hassign w h).1) fun w h => (hassign w h).2
  | reset k name v =>
    have hreset (w : World) (h : C.Kept b w) : C.Kept b (w.resetVariable k name v).2 ∧
        ∀ e, (w.resetVariable k name v).1 = .error e → C.admits e := by
      obtain ⟨herror, hok⟩ := ha w h.holds
      unfold World.resetVariable
      split
      · rename_i e he
        refine ⟨h, ?_⟩
        rintro _ ⟨⟩
        exact herror e he
      · rename_i g told hset
        obtain ⟨hholds, htells⟩ := hok g told hset
        have hkept : C.Kept b (w.modifyGraph k fun _ => g) := h.graphs hholds rfl
        dsimp only
        split
        · rename_i new x hx
          exact ⟨hkept.emit hC.toLawful (htells _ _ rfl hx), fun _ he => by cases he⟩
        · exact ⟨hkept, fun _ he => by cases he⟩
    exact Yields.of_change (fun w h => (hreset w h).1) fun w h => (hreset w h).2
  | putState path v =>
    exact Yields.of_change (fun w h => (h.putState hC.toLawful path v).1) fun w h => (h.putState hC.toLawful path v).2
  | advance seconds => exact (does_advance hC seconds).bind fun _ _ => .of_pure trivial
  | run i maxSteps maxSeconds => exact (does_run hC maxSteps maxSeconds).bind fun _ _ => .of_pure trivial
  | runAsync i maxSteps maxSeconds waiting =>
    exact (does_onLoop hC fun b => does_runAsync hC maxSteps maxSeconds waiting).bind fun _ _ => .of_pure trivial
  | dispose i => exact Does.of_safely (safely_dispose hC.toLawful i)

/-- A host that keeps to a contract finds it kept after whatever it did, and nothing was raised but what the contract
admits. -/
theorem kept_playAll {acts : List HostAct} (hacts : ∀ a ∈ acts, C.Permits a) (h : C.Kept b w) :
    C.Kept b (HostAct.playAll acts w).2 ∧ ∀ e ∈ (HostAct.playAll acts w).1, C.admits e := by
  induction acts generalizing w with
  | nil => exact ⟨h, fun _ he => (List.not_mem_nil he).elim⟩
  | cons a acts ih =>
    obtain ⟨hkept, -, herror⟩ := does_play hC (b := b) (hacts a List.mem_cons_self) w h
    unfold HostAct.playAll
    generalize a.play.runOn w = p at hkept herror ⊢
    obtain ⟨out, v⟩ := p
    obtain ⟨hafter, hraised⟩ := ih (fun a ha => hacts a (List.mem_cons_of_mem _ ha)) hkept
    cases out with
    | ok _ => exact ⟨hafter, hraised⟩
    | error e =>
      refine ⟨hafter, fun e' he' => ?_⟩
      rcases List.mem_cons.1 he' with rfl | he'
      · exact herror _ rfl
      · exact hraised e' he'

end Acts

end Contract

end FlowGraph
