import FlowGraph.Proofs.Orderly

/-!
What lies between two points of a drain.
-/
namespace FlowGraph

open World Play

namespace Play

variable {i f : Nat}

/-- What a step does once the data outputs of the trigger are written. -/
def proceed (i f : Nat) : Play Unit := do
  let fiber := ((← get).engine i).fiber f
  match fiber.next, fiber.listeners with
  | some route, _ =>
    modify (·.modifyEngine i (·.modifyFiber f fun f => { f with next := none, steps := f.steps + 1 }))
    trigger i f route
  | none, (node, l) :: rest =>
    if fiber.pending = 0 && !fiber.isAborted then
      modify (·.modifyEngine i (·.modifyFiber f fun f => { f with steps := f.steps + 1 }))
      unwind i f node l rest
  | none, [] => return ()

/-- A step from there to where the node behind the next wire is about to be run. -/
def approach (i f : Nat) (x : NodeRef) : Play Unit := do
  modify (·.modifyEngine i (·.modifyFiber f fun f => { f with next := none, steps := f.steps + 1, committed := false }))
  modify (·.tellStarted i x)
  resolve i x

/-- A step from there to where the innermost listener is about to be run. -/
def heed (i f : Nat) (rest : List (Option NodeRef × Listener)) (w : World) : World :=
  w.modifyEngine i (·.modifyFiber f fun f => { f with steps := f.steps + 1, committed := false, listeners := rest })

section Proceed

variable {w : World}

theorem runOn_proceed_lost {route : Route} (hnext : ((w.engine i).fiber f).next = some route)
    (hends : (w.graph route.graph).endsOf route.wire = none) : (proceed i f).runOn w =
      (.error (.node route.wire.link.target "?" (.unresolved route.wire.link.label)),
        w.modifyEngine i (·.modifyFiber f fun f => { f with next := none, steps := f.steps + 1 })) := by
  rw [proceed, runOn_get]
  simp only [hnext]
  rw [runOn_bind, runOn_modify]
  dsimp only
  rw [trigger, runOn_get]
  split
  · rfl
  · rename_i hsome
    cases hends.symm.trans hsome

/-- A fiber with a route ahead approaches the node at its end and visits it. -/
theorem runOn_proceed_next {route : Route} {ends : Ends} (hnext : ((w.engine i).fiber f).next = some route)
    (hends : (w.graph route.graph).endsOf route.wire = some ends) : (proceed i f).runOn w =
      (approach i f ⟨route.graph, ends.target.node⟩ >>= fun _ =>
        visit i f ⟨route.graph, ends.target.node⟩ route.wire.link.input).runOn w := by
  rw [proceed, runOn_get]
  simp only [hnext]
  rw [runOn_bind, runOn_modify]
  dsimp only
  rw [trigger, runOn_get]
  split
  · rename_i hnone
    cases hends.symm.trans hnone
  · rename_i ends' hends'
    cases hends.symm.trans hends'
    rw [runOn_bind, runOn_modify]
    dsimp only
    rw [modifyEngine_modifyEngine, reach_eq, runOn_bind, runOn_modify]
    dsimp only
    rw [runOn_bind, runOn_bind (approach i f _), approach, runOn_bind, runOn_modify]
    dsimp only
    rw [runOn_bind, runOn_modify]
    simp only [Engine.modifyFiber, Engine.modify_modify]

theorem runOn_proceed_listener {node : Option NodeRef} {l : Listener} {rest : List (Option NodeRef × Listener)}
    (hnext : ((w.engine i).fiber f).next = none) (hl : ((w.engine i).fiber f).listeners = (node, l) :: rest)
    (hrun : (((w.engine i).fiber f).pending = 0 && !((w.engine i).fiber f).isAborted) = true) :
    (proceed i f).runOn w = (answer node l).runOn (heed i f rest w) := by
  rw [proceed, runOn_get]
  simp only [hnext, hl]
  rw [if_pos hrun, runOn_bind, runOn_modify]
  dsimp only
  rw [unwind, runOn_bind, runOn_modify]
  dsimp only
  rw [modifyEngine_modifyEngine]
  simp only [Engine.modifyFiber, Engine.modify_modify, heed]

end Proceed

theorem runOn_step (i f : Nat) (w : World) : (step i f).runOn w = match w.applyEntry i f with
    | (.ok _, v) => (proceed i f).runOn v
    | (.error e, v) => (.error e, v) := by
  have hchange : (change (·.applyEntry i f)).runOn w = w.applyEntry i f := rfl
  have hstep : step i f = change (·.applyEntry i f) >>= fun _ => proceed i f := rfl
  rw [hstep, runOn_bind, hchange]
  split
  · rename_i heq
    rw [heq]
  · rename_i heq
    rw [heq]

section Upholds

variable {P : World → Prop} {A : Context → Prop} {w : World}

/-- The node behind the next wire is about to be run. -/
theorem upholds_approach (hC : Conduct (Upholds P) A) (x : NodeRef) (hw : P (w.modifyEngine i (·.modifyFiber f fun f =>
    { f with next := none, steps := f.steps + 1, committed := false }))) : P ((approach i f x).runOn w).2 := by
  rw [approach, runOn_bind, runOn_modify]
  exact ((obeys_tellStarted hC i x).bind fun _ => obeys_resolve hC i x).upholds hw

/-- A step, from where the data outputs of the trigger are written, keeps to what outlasts calls, if the node that the fiber
comes to or the listener that it runs may call. -/
theorem upholds_proceed (hC : Conduct (Upholds P) A) (hE : Engages A i) (hw : P w)
    (hlost : ((w.engine i).fiber f).next.isSome = true →
      P (w.modifyEngine i (·.modifyFiber f fun f => { f with next := none, steps := f.steps + 1 })))
    (hnext : ((w.engine i).fiber f).next.isSome = true → P (w.modifyEngine i (·.modifyFiber f fun f =>
      { f with next := none, steps := f.steps + 1, committed := false })))
    (hreach : ∀ route ends, ((w.engine i).fiber f).next = some route → (w.graph route.graph).endsOf route.wire = some ends →
      ∀ v b, P v → (v.node ⟨route.graph, ends.target.node⟩).definition.behaviour = .flow b →
      ∀ input, A ⟨⟨route.graph, ends.target.node⟩, .flow i f input⟩)
    (hheed : ∀ node l rest, ((w.engine i).fiber f).next = none → ((w.engine i).fiber f).listeners = (node, l) :: rest →
      P (heed i f rest w) ∧ l.Within A) : P ((proceed i f).runOn w).2 := by
  cases hroute : ((w.engine i).fiber f).next with
  | some route =>
    rw [hroute] at hlost hnext
    cases hends : (w.graph route.graph).endsOf route.wire with
    | none =>
      rw [runOn_proceed_lost hroute hends]
      exact hlost rfl
    | some ends =>
      rw [runOn_proceed_next hroute hends, runOn_bind]
      have happroached := upholds_approach hC ⟨route.graph, ends.target.node⟩ (hnext rfl)
      split
      · rename_i heq
        rw [heq] at happroached
        refine (obeys_visit_of_flow hC hE fun v _ hv b hb => ?_).upholds happroached
        exact hreach route ends hroute hends v b hv.2 hb route.wire.link.input
      · rename_i heq
        rw [heq] at happroached
        exact happroached
  | none =>
    cases hl : ((w.engine i).fiber f).listeners with
    | nil =>
      rw [proceed, runOn_get]
      simp only [hroute, hl]
      exact hw
    | cons l rest =>
      obtain ⟨node, l⟩ := l
      cases hrun : ((w.engine i).fiber f).pending = 0 && !((w.engine i).fiber f).isAborted with
      | true =>
        rw [runOn_proceed_listener hroute hl hrun]
        obtain ⟨hheeded, hwithin⟩ := hheed node l rest hroute hl
        exact (obeys_answer hC node hwithin).upholds hheeded
      | false =>
        rw [proceed, runOn_get]
        simp only [hroute, hl, hrun]
        exact hw

end Upholds

end Play

/-- What a fiber at work does to itself between calls leaves its place among the others alone, and leads it nowhere else. -/
structure Fiber.Goes (x y : Fiber) : Prop where
  next : y.next = none ∨ y.next = x.next
  parent : y.parent = x.parent
  pending : y.pending = x.pending
  finished : y.finished = x.finished
  isAborted : y.isAborted = x.isAborted
  entry : y.entry = x.entry
  isWritten : y.isWritten = x.isWritten

/-- A property of worlds that outlasts what the fiber at work does: the calls in contexts of the kind, and the changes of
the fiber itself in between. -/
structure Duty (i f : Nat) (A : Context → Prop) (P : World → Prop) : Prop where
  conduct : Conduct (Upholds P) A
  engages : Engages A i
  reaches : ∀ w, P w → ∀ x b, (w.node x).definition.behaviour = .flow b → ∀ input, A ⟨x, .flow i f input⟩
  heeds : ∀ w, P w → ∀ l ∈ ((w.engine i).fiber f).listeners, l.2.Within A
  alter : ∀ w, P w → ∀ g : Fiber → Fiber, (∀ x : Fiber, x.Goes (g x)) →
    (∀ l ∈ (g ((w.engine i).fiber f)).listeners, l ∈ ((w.engine i).fiber f).listeners) →
    ((g ((w.engine i).fiber f)).Blank → ((w.engine i).fiber f).Blank) → P (w.modifyEngine i (·.modifyFiber f g))

namespace Duty

variable {w : World} {i f : Nat} {A : Context → Prop} {P : World → Prop}

/-- The fiber is about to go on. -/
theorem depart (h : Duty i f A P) (hw : P w) : P (w.modifyEngine i (·.modifyFiber f fun f =>
    { f with next := none, steps := f.steps + 1, committed := false })) := by
  refine h.alter w hw _ ?_ ?_ ?_
  · exact fun _ => ⟨.inl rfl, rfl, rfl, rfl, rfl, rfl, rfl⟩
  · exact fun _ => id
  · exact fun hb => absurd hb.steps (Nat.succ_ne_zero _)

/-- The node behind the next wire is about to be run. -/
theorem approach (h : Duty i f A P) (hw : P w) (x : NodeRef) : P ((Play.approach i f x).runOn w).2 :=
  upholds_approach h.conduct x (h.depart hw)

/-- The innermost listener is about to be run. -/
theorem heed (h : Duty i f A P) (hw : P w) {l : Option NodeRef × Listener} {rest : List (Option NodeRef × Listener)}
    (hl : ((w.engine i).fiber f).listeners = l :: rest) : P (Play.heed i f rest w) := by
  refine h.alter w hw _ ?_ ?_ ?_
  · exact fun _ => ⟨.inr rfl, rfl, rfl, rfl, rfl, rfl, rfl⟩
  · intro y hy
    rw [hl]
    exact List.mem_cons_of_mem _ hy
  · exact fun hb => absurd hb.steps (Nat.succ_ne_zero _)

/-- A step keeps to the property from where the data outputs of the trigger are written. -/
theorem proceed (h : Duty i f A P) (hw : P w) : P ((Play.proceed i f).runOn w).2 := by
  refine upholds_proceed h.conduct h.engages hw (fun _ => ?_) (fun _ => h.depart hw) ?_ ?_
  · refine h.alter w hw _ ?_ ?_ ?_
    · exact fun _ => ⟨.inl rfl, rfl, rfl, rfl, rfl, rfl, rfl⟩
    · exact fun _ => id
    · exact fun hb => absurd hb.steps (Nat.succ_ne_zero _)
  · exact fun route ends _ _ v b hv hb => h.reaches v hv _ b hb
  · exact fun node l rest _ hl => ⟨h.heed hw hl, h.heeds w hw (node, l) (by rw [hl]; exact List.mem_cons_self)⟩

end Duty

namespace InOrder

variable {u v w : World} {cur : Nat → Option Nat} {i f : Nat}

theorem conduct (u : World) (cur : Nat → Option Nat) :
    Conduct (Upholds (InOrder u cur)) fun c => ∀ j k input, c.role = .flow j k input → cur j = some k := by
  have hfree (c : Context) (hc : c.Free) (j k : Nat) (input : String) (hrole : c.role = .flow j k input) :
      cur j = some k := absurd hrole (hc j k input)
  refine (closed u cur).conduct ?_ ?_ ?_ ?_
  · exact fun w h p hp => (h.disposers p hp).within hfree
  · exact fun w h j op hop d hd => ((h.engine j).disposers op hop d hd).within hfree
  · rintro w h x b hb j k input ⟨⟩
  · rintro w h x b hb j o j' k input ⟨⟩

theorem of_local (h : InOrder u cur w) (hl : Local i w v)
    (hi : Engine.InOrder (u.engine i) i (cur i) (v.engine i)) : InOrder u cur v := by
  refine ⟨by rw [hl.size]; exact h.size, fun k => ?_, by rw [hl.disposers]; exact h.disposers⟩
  by_cases hk : k = i
  · rw [hk]
    exact hi
  · rw [hl.others k hk]
    exact h.engine k

section AtWork

theorem onlyAt_self (i f : Nat) : onlyAt i f i = some f := if_pos rfl

theorem onlyAt_of_ne {k : Nat} (hk : k ≠ i) : onlyAt i f k = none := if_neg hk

theorem atWork (h : InOrder u (onlyAt i f) w) : Engine.InOrder (u.engine i) i (some f) (w.engine i) := by
  rw [← onlyAt_self i f]
  exact h.engine i

theorem there (h : InOrder u (onlyAt i f) w) : i < w.engines.size := h.inside (onlyAt_self i f)

/-- The fiber at work changes in what is its own business. -/
theorem alter (h : InOrder u (onlyAt i f) w) {g : Fiber → Fiber} (hparent : ∀ x, (g x).parent = x.parent)
    (hpending : ∀ x, (g x).pending = x.pending) (hfinished : ∀ x, (g x).finished = x.finished)
    (haborted : ∀ x, (g x).isAborted = x.isAborted)
    (hlisteners : ∀ l ∈ (g ((w.engine i).fiber f)).listeners, l.1.isSome = true ∧ l.2.Fits i f)
    (hblank : (g ((w.engine i).fiber f)).Blank → ((w.engine i).fiber f).Blank) :
    InOrder u (onlyAt i f) (w.modifyEngine i (·.modifyFiber f g)) := by
  refine h.modifyEngine (fun _ _ => rfl) h.there ?_
  rw [onlyAt_self]
  exact h.atWork.alter hparent hpending hfinished haborted hlisteners hblank

theorem applyEntry (h : InOrder u (onlyAt i f) w) : InOrder u (onlyAt i f) (w.applyEntry i f).2 := by
  refine h.of_local (Local.applyEntry w i f) ?_
  rw [engine_applyEntry h.there, onlyAt_self]
  refine h.atWork.alter (fun _ => rfl) (fun _ => rfl) (fun _ => rfl) (fun _ => rfl) (h.atWork.listeners f) ?_
  exact fun hb => ⟨hb.parent, hb.next, hb.listeners, hb.steps, hb.finished⟩

theorem admitted (x : NodeRef) (i f : Nat) (input : String) (j k : Nat) (name : String)
    (h : (⟨x, .flow i f input⟩ : Context).role = .flow j k name) : onlyAt i f j = some k := by
  cases h
  exact onlyAt_self i f

theorem duty (u : World) (i f : Nat) :
    Duty i f (fun c => ∀ j k input, c.role = .flow j k input → onlyAt i f j = some k) (InOrder u (onlyAt i f)) where
  conduct := conduct u _
  engages := ⟨default, f, "", admitted default i f ""⟩
  reaches _ _ x _ _ input := admitted x i f input
  heeds w h l hl c hc j k input hrole := by
    obtain ⟨rfl, rfl⟩ := (h.atWork.listeners f l hl).2 c hc j k input hrole
    exact onlyAt_self _ _
  alter _ h _ hg hl hblank := h.alter (fun x => (hg x).parent) (fun x => (hg x).pending) (fun x => (hg x).finished)
    (fun x => (hg x).isAborted) (fun l hx => h.atWork.listeners f l (hl l hx)) hblank

/-- A step keeps the engine in order, whether or not it fails. -/
theorem step (h : InOrder u (onlyAt i f) w) : InOrder u (onlyAt i f) ((Play.step i f).runOn w).2 := by
  have happly := h.applyEntry
  rw [runOn_step]
  split
  · rename_i v heq
    rw [heq] at happly
    exact (duty u i f).proceed happly
  · rename_i e v heq
    rw [heq] at happly
    exact happly

end AtWork

section AtRest

theorem atRest_engine (h : InOrder u atRest w) (j : Nat) : Engine.InOrder (u.engine j) j none (w.engine j) := h.engine j

theorem clearInbox (h : InOrder u cur w) (j : Nat) : InOrder u cur (w.modifyEngine j fun e => { e with inbox := [] }) := by
  by_cases hj : j < w.engines.size
  · refine h.modifyEngine (fun _ _ => rfl) hj ((h.engine j).congr rfl rfl rfl id ?_ (h.engine j).disposers)
    exact fun p hp => absurd hp List.not_mem_nil
  · rw [modifyEngine_out hj]
    exact h

theorem drainInbox (h : InOrder u cur w) (j : Nat) : InOrder u cur (w.drainInbox j) := by
  refine drainInbox_upholds (h.clearInbox j) fun p hp v hv => ?_
  have hfree := (h.engine j).posts p hp
  cases p with
  | complete o output => exact hv.complete j o output
  | begin x output l outputs => exact hv.begin j x output hfree outputs

/-- The head of the queue gets to work. -/
theorem take (h : InOrder u atRest w) {others : List Nat} (hq : (w.engine i).queue = f :: others) :
    InOrder u (onlyAt i f)
      ((w.modifyEngine i fun e => { e with queue := others }).modifyEngine i fun e => { e with current := some f }) := by
  have hi : i < w.engines.size := by
    apply Decidable.byContradiction
    intro hi
    simp [World.engine, hi] at hq
    cases hq
  rw [modifyEngine_modifyEngine]
  refine h.modifyEngine (fun k hk => onlyAt_of_ne hk) hi ?_
  rw [onlyAt_self]
  exact (h.atRest_engine i).take hq

/-- The fiber at work makes room. -/
theorem cede (h : InOrder u (onlyAt i f) w) (hidle : ((w.engine i).fiber f).isReady = false) :
    InOrder u atRest ((if ((w.engine i).fiber f).isComplete then w.modifyEngine i (·.finish f) else w).modifyEngine i
      fun e => { e with current := none }) := by
  have hothers (k : Nat) (hk : k ≠ i) : atRest k = onlyAt i f k := (onlyAt_of_ne hk).symm
  split
  · rename_i hcomplete
    rw [modifyEngine_modifyEngine]
    refine h.modifyEngine hothers h.there (h.atWork.finish ?_)
    simp only [Fiber.isComplete, Bool.or_eq_true, Bool.and_eq_true, beq_iff_eq] at hcomplete
    exact hcomplete.imp id fun hc => hc.1.2
  · rename_i hincomplete
    refine h.modifyEngine hothers h.there (h.atWork.leave (.inr ?_))
    simp only [Fiber.isReady, Fiber.isWaiting, hincomplete, Bool.not_false, Bool.true_and, Bool.not_eq_false',
      decide_eq_true_eq] at hidle
    refine ⟨Bool.eq_false_iff.2 fun ha => hincomplete ?_, by omega⟩
    rw [Fiber.isComplete, ha]
    rfl

/-- The fiber at work makes room or goes on. -/
theorem rest (h : InOrder u (onlyAt i f) w) : InOrder u atRest (Play.rest w i f) := by
  unfold Play.rest
  simp only
  split
  · rename_i hready
    exact h.modifyEngine (fun k hk => (onlyAt_of_ne hk).symm) h.there (h.atWork.requeue hready)
  · rename_i hidle
    exact (h.cede (Bool.eq_false_iff.2 hidle)).drainInbox i

theorem count (h : InOrder u (onlyAt i f) w) :
    InOrder u (onlyAt i f) (w.modifyEngine i fun e => { e with steps := e.steps + 1 }) :=
  h.face i (fun _ => ⟨rfl, rfl, rfl, rfl⟩) (fun _ => id) (h.engine i).disposers

/-- The fiber at work fails. -/
theorem fail (h : InOrder u (onlyAt i f) w) (e : Failure) :
    InOrder u (onlyAt i f) ((w.report i e).modifyEngine i fun e => { e with steps := e.steps + 1 }.abort f) := by
  have hfailed := (h.report i e).count
  have hsplit : (w.report i e).modifyEngine i (fun e => { e with steps := e.steps + 1 }.abort f) =
      ((w.report i e).modifyEngine i fun e => { e with steps := e.steps + 1 }).modifyEngine i (·.abort f) := by
    rw [modifyEngine_modifyEngine]
  rw [hsplit]
  refine hfailed.modifyEngine (fun _ _ => rfl) hfailed.there ?_
  rw [onlyAt_self]
  exact hfailed.atWork.abort

/-- A turn that does not escape the loop keeps the engines in order. -/
theorem turn (h : InOrder u atRest w) {others : List Nat} (hq : (w.engine i).queue = f :: others)
    (ht : (Play.turn i f).runOn (w.modifyEngine i fun e => { e with queue := others }) = (.ok (), v)) :
    InOrder u atRest v := by
  have hstep : InOrder u (onlyAt i f) ((Play.step i f).runOn (FlowGraph.atWork i f others w)).2 := (h.take hq).step
  rcases turn_eq_ok ht with ⟨s, hp, rfl⟩ | ⟨e, s, -, hp, rfl⟩
  · rw [hp] at hstep
    exact (count hstep).rest
  · rw [hp] at hstep
    exact (fail hstep e).rest

end AtRest

end InOrder

namespace Engine

variable {e e' : Engine} {f : Nat}

theorem modifyFiber_congr (h : e'.fibers = e.fibers) (k : Nat) (g : Fiber → Fiber) :
    (e'.modifyFiber k g).fibers = (e.modifyFiber k g).fibers := by
  rw [modifyFiber, modifyFiber, h]

theorem childFinished_congr (hf : e'.fibers = e.fibers) (hq : e'.queue = e.queue) (p : Nat) :
    (e'.childFinished p).fibers = (e.childFinished p).fibers ∧ (e'.childFinished p).queue = (e.childFinished p).queue := by
  have hf := modifyFiber_congr hf p fun x => { x with pending := x.pending - 1 }
  unfold childFinished
  simp only [fiber_congr hf]
  split
  · exact ⟨hf, congrArg (p :: ·) hq⟩
  · exact ⟨hf, hq⟩

/-- The end of a fiber does not depend on who is at work. -/
theorem finish_congr (hf : e'.fibers = e.fibers) (hq : e'.queue = e.queue) (f : Nat) :
    (e'.finish f).fibers = (e.finish f).fibers ∧ (e'.finish f).queue = (e.finish f).queue := by
  have hmarked := modifyFiber_congr hf f fun x => { x with finished := true }
  unfold finish
  simp only [fiber_congr hf]
  split
  · exact ⟨hf, hq⟩
  · split
    · exact childFinished_congr hmarked hq _
    · exact ⟨hmarked, hq⟩

/-- A fiber that stands in the queue and cannot go on is over, and leaves the accounts in order. -/
theorem InOrder.pop {a : Engine} {j : Nat} (h : InOrder a j none e) {others : List Nat} (hq : e.queue = f :: others) :
    InOrder a j none (({ e with queue := others } : Engine).finish f) := by
  have hidle := ((h.accounted.tallied f).queued (by rw [hq]; exact List.mem_cons_self)).2.2
  have hover := (h.take hq).finish (.inr hidle)
  obtain ⟨hfibers, hqueue⟩ :=
    @finish_congr { e with queue := others } { e with queue := others, current := some f } rfl rfl f
  have hframe := finish_frame ({ e with queue := others } : Engine) f
  generalize ({ e with queue := others } : Engine).finish f = v at hfibers hqueue hframe ⊢
  refine hover.congr hfibers.symm hqueue.symm ?_ ?_ ?_ ?_
  · rw [hframe]
    exact h.current
  · rw [hframe, finish_frame]
    exact id
  · rw [hframe]
    exact h.posts
  · rw [hframe]
    exact h.disposers

end Engine

/-- A fiber that waits in the queue for its turn but cannot go on is over. -/
theorem InOrder.pop {u w : World} {i f : Nat} (h : InOrder u atRest w) {others : List Nat}
    (hq : (w.engine i).queue = f :: others) (hidle : ((w.engine i).fiber f).isReady = false) :
    InOrder u atRest (Play.pop i f others w) := by
  have he := h.atRest_engine i
  have hqueued := ((he.accounted.tallied f).queued (by rw [hq]; exact List.mem_cons_self)).2
  have hcomplete : ((w.engine i).fiber f).isComplete = true := by
    simpa [Fiber.isReady, Fiber.isWaiting, hqueued.2] using hidle
  rw [Play.pop, if_pos hcomplete, modifyEngine_modifyEngine]
  exact h.modifyEngine (fun _ _ => rfl) (by simpa using (h.take hq).there) (he.pop hq)

/-- What a host does between iterations: it makes engines, starts paths, hears of changes, finishes operations, acts in
contexts that were handed over to it, disposes of engines, and does whatever else concerns no engine. -/
inductive Deed : World → World → Prop where
  | aside {w v : World} : v.engines = w.engines → v.disposers = w.disposers → Deed w v
  | makeEngine (w : World) (name : String) (nodes : List NodeRef) (settings : RuntimeSettings) :
      Deed w ((Play.makeEngine name nodes settings).runOn w).2
  | begin (w : World) (j : Nat) (x : NodeRef) (output : String) {l : Option Listener} (values : List (String × Value)) :
      (∀ y, l = some y → y.Free) → Deed w (w.begin j x output l values)
  | post (w : World) (j : Nat) (x : NodeRef) (output : String) {l : Option Listener} (values : List (String × Value)) :
      (∀ y, l = some y → y.Free) → Deed w (w.post j (.begin x output l values))
  | finish (w : World) {j o : Nat} (output : Option String) (fromOutside : Bool) : o < (w.engine j).operations.size →
      Deed w (w.finishOperation j o output fromOutside)
  | emit (w : World) (t : Topic) (n : Notice) : Deed w (w.emit t n)
  | assign (w : World) (g : Nat) (x : Variable) (v : Value) : Deed w (w.assign g x v).2
  | putState (w : World) (path v : Value) : Deed w (w.putState path v).2
  | act (w : World) {c : Context} (a : Action) : c.Free → Deed w ((Action.perform Play.dispose c a).runOn w).2
  | dispose (w : World) (j : Nat) : Deed w ((Play.dispose j).runOn w).2
  | drainInbox (w : World) (j : Nat) : Deed w (w.drainInbox j)
  | wake (w : World) (j : Nat) (b : Option Bool) : Deed w (w.modifyEngine j fun e => { e with wake := b })

/-- A property of worlds that outlasts what a host does, but for setting the flags of asynchronous runs. -/
structure Hosted (A : Context → Prop) (P : World → Prop) : Prop where
  conduct : Conduct (Upholds P) A
  push : ∀ w, P w → ∀ name nodes eventNodes settings, P { w with
    engines := w.engines.push { name := name, nodes := nodes, eventNodes := eventNodes, settings := settings } }
  observe : ∀ w, P w → ∀ j b, P (w.modifyEngine j fun e => { e with isObserved := b })
  post : ∀ w, P w → ∀ j x output {l : Option Listener} values, (∀ y, l = some y → y.Within fun c => A c ∧ c.Free) →
    P (w.post j (.begin x output l values))
  finish : ∀ w, P w → ∀ j o output fromOutside, o < (w.engine j).operations.size →
    P (w.finishOperation j o output fromOutside)
  drainInbox : ∀ w, P w → ∀ j, P (w.drainInbox j)

/-- An engine is made where the property outlasts that there is one more, and whether the host listens. -/
theorem Play.upholds_makeEngine {w : World} {A : Context → Prop} {P : World → Prop} (hC : Conduct (Upholds P) A)
    {name : String} {nodes : List NodeRef} {settings : RuntimeSettings}
    (hpush : P { w with
      engines := w.engines.push {
        name := name
        nodes := nodes
        eventNodes := nodes.filter fun r => (w.node r).kind = .event
        settings := settings } })
    (hobserve : ∀ w, P w → ∀ j, P (w.modifyEngine j fun e => { e with isObserved := true }))
    (hA : ∀ w, P w → ∀ j x actions, (w.node x).definition.behaviour = .event (some (.script actions)) → A ⟨x, .event j⟩) :
    P ((Play.makeEngine name nodes settings).runOn w).2 := by
  rw [Play.makeEngine, runOn_get]
  dsimp only
  have hset (s : World) : (set s : Play PUnit).runOn w = (.ok ⟨⟩, s) := rfl
  rw [runOn_bind, hset]
  refine Agrees.upholds (P := P) ?_ hpush
  refine (obeys_subscribeAll hC ?_ _ _).bind fun _ => Agrees.bind (.of_modify fun v r hv => ?_) fun _ => .of_pure _
  · exact fun v _ hv x actions => hA v hv.2 _ x actions
  · obtain ⟨rfl, hv⟩ := hv
    exact ⟨rfl, hobserve v hv _⟩

namespace Hosted

variable {w v : World} {A : Context → Prop} {P : World → Prop}

theorem makeEngine (h : Hosted A P) (hw : P w)
    (hA : ∀ w, P w → ∀ j x actions, (w.node x).definition.behaviour = .event (some (.script actions)) → A ⟨x, .event j⟩)
    (name : String) (nodes : List NodeRef) (settings : RuntimeSettings) :
    P ((Play.makeEngine name nodes settings).runOn w).2 :=
  upholds_makeEngine h.conduct (h.push w hw _ _ _ _) (fun w hw j => h.observe w hw j true) hA

/-- What every turn preserves, and what is done outside of turns, is preserved by any deed. -/
theorem deed (h : Hosted A P) (hfree : ∀ c : Context, c.Free → A c)
    (haside : P w → v.engines = w.engines → v.disposers = w.disposers → P v)
    (hwake : ∀ j b, v = w.modifyEngine j (fun e => { e with wake := b }) → P v) (hw : P w) (hd : Deed w v) : P v := by
  have hC := h.conduct
  have hlistener {l : Option Listener} (hl : ∀ y, l = some y → y.Free) :
      ∀ y, l = some y → y.Within fun c => A c ∧ c.Free := fun y hy c hc => ⟨hfree c (hl y hy c hc), hl y hy c hc⟩
  cases hd with
  | aside he hd => exact haside hw he hd
  | makeEngine name nodes settings =>
    exact h.makeEngine hw (fun _ _ j x _ _ => hfree _ (by rintro _ _ _ ⟨⟩)) name nodes settings
  | begin j x output values hl =>
    exact (hC.begin j x output (hlistener hl) values (.inr ⟨⟨x, .event j⟩, hfree _ (by rintro _ _ _ ⟨⟩), rfl⟩) ⟨rfl, hw⟩).2
  | post j x output values hl => exact h.post w hw j x output values (hlistener hl)
  | finish output fromOutside ho => exact h.finish w hw _ _ output fromOutside ho
  | emit t n => exact (World.obeys_emit hC.toBearing t n ⟨rfl, hw⟩).2
  | assign g x v => exact (World.obeys_assign hC.toBearing g x v).upholds hw
  | putState path v => exact (World.obeys_putState hC.toBearing path v).upholds hw
  | act a hc => exact (Action.obeys_perform hC.toBearing (obeys_dispose hC) (hfree _ hc) a).upholds hw
  | dispose j => exact (obeys_dispose hC j).upholds hw
  | drainInbox j => exact h.drainInbox w hw j
  | wake j b => exact hwake j b rfl

end Hosted

/-- One iteration of a drain: the head of the queue makes room if it cannot go on, else it has its turn. -/
inductive Iteration (i : Nat) : World → World → Prop where
  | pop {w : World} {f : Nat} {others : List Nat} : (w.engine i).queue = f :: others →
      ((w.engine i).fiber f).isReady = false → Iteration i w ((Play.pop i f others w).drainInbox i)
  | turn {w v : World} {f : Nat} {others : List Nat} : (w.engine i).queue = f :: others →
      ((w.engine i).fiber f).isReady = true →
      (Play.turn i f).runOn (w.modifyEngine i fun e => { e with queue := others }) = (.ok (), v) → Iteration i w v

/-- From one point between iterations to a later one. -/
inductive Passage : World → World → Prop where
  | refl (w : World) : Passage w w
  | deed {u w v : World} : Passage u w → Deed w v → Passage u v
  | iteration {u w v : World} {i : Nat} : Passage u w → Iteration i w v → Passage u v

namespace InOrder

variable {u v w : World} {cur : Nat → Option Nat} {i : Nat}

theorem iteration (h : InOrder u atRest w) (hi : Iteration i w v) : InOrder u atRest v := by
  cases hi with
  | pop hq hidle => exact (h.pop hq hidle).drainInbox i
  | turn hq _ ht => exact h.turn hq ht

/-- A new engine has nothing to account for. -/
theorem push (h : InOrder u atRest w) {e : Engine} (hf : e.fibers = #[]) (hq : e.queue = []) (hc : e.current = none)
    (hi : e.inbox = []) (ho : e.operations = #[]) : InOrder u atRest { w with engines := w.engines.push e } := by
  refine ⟨?_, fun j => ?_, h.disposers⟩
  · show u.engines.size ≤ (w.engines.push e).size
    rw [Array.size_push]
    exact Nat.le_succ_of_le h.size
  · have hengine : ({ w with engines := w.engines.push e } : World).engine j =
        if j = w.engines.size then e else w.engine j := by
      simp only [World.engine, Array.getElem?_push]
      split
      · rfl
      · rfl
    rw [hengine]
    split
    · rename_i hj
      have hnone : u.engine j = {} := by simp [World.engine, hj, h.size]; rfl
      rw [hnone]
      refine Engine.InOrder.empty.congr hf hq hc (fun _ => rfl) ?_ ?_
      · rw [hi]
        exact fun p hp => absurd hp List.not_mem_nil
      · rw [ho]
        exact fun op hop => absurd hop (Array.not_mem_empty op)
    · exact h.engine j

theorem hosted (u : World) : Hosted (fun c => ∀ j k input, c.role = .flow j k input → atRest j = some k) (InOrder u atRest) where
  conduct := conduct u atRest
  push _ h _ _ _ _ := h.push rfl rfl rfl rfl rfl
  observe _ h j _ := h.face j (fun _ => ⟨rfl, rfl, rfl, rfl⟩) (fun _ => id) (h.engine j).disposers
  post _ h j _ _ _ _ hl := h.post j fun y hy c hc => (hl y hy c hc).2
  finish _ h j o output fromOutside _ := h.finishOperation j o output fromOutside
  drainInbox _ h j := h.drainInbox j

theorem setWake (h : InOrder u cur w) (j : Nat) (b : Option Bool) :
    InOrder u cur (w.modifyEngine j fun e => { e with wake := b }) :=
  h.face j (fun _ => ⟨rfl, rfl, rfl, rfl⟩) (fun _ => id) (h.engine j).disposers

theorem deed (h : InOrder u atRest w) (hd : Deed w v) : InOrder u atRest v :=
  (hosted u).deed (fun _ hc j k input hrole => absurd hrole (hc j k input)) (fun h => h.frame)
    (fun j b hv => hv ▸ h.setWake j b) h hd

theorem passage (h : InOrder u atRest w) (hp : Passage w v) : InOrder u atRest v := by
  induction hp with
  | refl => exact h
  | deed _ hd ih => exact ih.deed hd
  | iteration _ hi ih => exact ih.iteration hi

/-- Before there are engines everything is in order. -/
theorem start (he : u.engines = #[]) (hd : u.disposers = []) : InOrder u atRest u := by
  refine ⟨Nat.le_refl _, fun j => ?_, ?_⟩
  · have hnone : u.engine j = {} := by simp [World.engine, he]; rfl
    rw [hnone]
    exact .empty
  · rw [hd]
    exact fun p hp => absurd hp List.not_mem_nil

/-- The order counts from any point on. -/
theorem rebase (h : InOrder u cur w) : InOrder w cur w :=
  ⟨Nat.le_refl _, fun j => { h.engine j with outlived := .refl _ }, h.disposers⟩

end InOrder

end FlowGraph
