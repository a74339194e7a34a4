import FlowGraph.Proofs.Audience
import FlowGraph.Proofs.Chronicle

/-!
Failures of nodes are contained. A step that goes wrong stops its own path: the loop goes on, one failure is put down for it,
and the fibers that stand in the queue keep their order and have their turns.
-/
namespace FlowGraph

open World Play

theorem Engine.card_abort (e : Engine) (f : Nat) : (e.abort f).card = e.card ∧ (e.abort f).failures = e.failures :=
  card_finish (e.modifyFiber f _) f

namespace World

theorem Lines.congr {w v : World} {i : Nat} {others : List Nat} (h : w.Lines i others)
    (hd : (v.engine i).isDisposed = (w.engine i).isDisposed) (hq : (v.engine i).queue = (w.engine i).queue) :
    v.Lines i others := by
  rw [Lines, hd, hq]
  exact h

/-- A step of the fiber is under way: the engines are in order, what was put down since `z` has its causes, and the others
stand in line. -/
structure Underway (u z : World) (i f : Nat) (others : List Nat) (w : World) : Prop extends InOrder u (onlyAt i f) w where
  chronicled : Chronicled z w
  lines : w.Lines i others

namespace Underway

variable {u z w : World} {i f : Nat} {others : List Nat}

theorem closed (u z : World) (i f : Nat) (others : List Nat) : Closed (fun w _ => Underway u z i f others w)
    fun c => ∀ j k input, c.role = .flow j k input → onlyAt i f j = some k := by
  refine (((InOrder.closed u (onlyAt i f)).and (Chronicled.closed z _)).and (InOrder.closed_lines i f others)).congr fun w r => ?_
  refine ⟨fun h => ⟨h.1.1, h.1.2, h.2.engine.imp_right (·.line)⟩, fun h => ⟨⟨h.toInOrder, h.chronicled⟩, ?_⟩⟩
  have hsteady := h.toInOrder.steady h.toInOrder.there h.lines
  rwa [InOrder.onlyAt_self] at hsteady

/-- A change of the fiber at work. -/
theorem modifyFiber (h : Underway u z i f others w) {g : Fiber → Fiber}
    (hg : InOrder u (onlyAt i f) (w.modifyEngine i (·.modifyFiber f g))) :
    Underway u z i f others (w.modifyEngine i (·.modifyFiber f g)) := by
  refine ⟨hg, h.chronicled.modifyEngine i (fun _ => rfl) fun _ => rfl, h.lines.congr ?_ ?_⟩
  · rw [engine_modifyEngine_self h.toInOrder.there]
    rfl
  · rw [engine_modifyEngine_self h.toInOrder.there]
    rfl

/-- A turn stands by what is under way: calls go on from what they found. -/
theorem duty (u z : World) (i f : Nat) (others : List Nat) :
    Duty i f (fun c => ∀ j k input, c.role = .flow j k input → onlyAt i f j = some k) (Underway u z i f others) where
  conduct := by
    have hfree (c : Context) (hc : c.Free) (j k : Nat) (input : String) (hrole : c.role = .flow j k input) :
        onlyAt i f j = some k := absurd hrole (hc j k input)
    refine (closed u z i f others).conduct (fun w h d hd => ?_) (fun w h j op hop d hd => ?_) ?_ ?_
    · exact (h.disposers d hd).within hfree
    · exact ((h.engine j).disposers op hop d hd).within hfree
    · rintro w h x b hb j k input ⟨⟩
    · rintro w h x b hb j o j' k input ⟨⟩
  engages := (InOrder.duty u i f).engages
  reaches _ _ x _ _ input := InOrder.admitted x i f input
  heeds w h := (InOrder.duty u i f).heeds w h.toInOrder
  alter w h g hg hl hblank := h.modifyFiber ((InOrder.duty u i f).alter w h.toInOrder g hg hl hblank)

theorem applyEntry (h : Underway u z i f others w) : Underway u z i f others (w.applyEntry i f).2 := by
  refine ⟨h.toInOrder.applyEntry, h.chronicled.next (.applyEntry w i f), h.lines.congr ?_ ?_⟩
  · rw [engine_applyEntry h.toInOrder.there]
    rfl
  · rw [engine_applyEntry h.toInOrder.there]
    rfl

theorem step (h : Underway u z i f others w) : Underway u z i f others ((Play.step i f).runOn w).2 := by
  have hentry := h.applyEntry
  rw [runOn_step]
  split
  · rename_i heq
    rw [heq] at hentry
    exact (duty u z i f others).proceed hentry
  · rename_i heq
    rw [heq] at hentry
    exact hentry

/-- The head of the queue gets to work. -/
theorem take (h : InOrder u atRest w) (hq : (w.engine i).queue = f :: others) :
    Underway u (atWork i f others w) i f others (atWork i f others w) := by
  have hunqueued : InOrder u (onlyAt i f) (atWork i f others w) := h.take hq
  refine ⟨hunqueued, .refl _, .inr ?_⟩
  have hengine := engine_atWork (by simpa [atWork, unqueued] using hunqueued.there) f others
  exact hengine ▸ List.infix_rfl

/-- The end of a step that went well. -/
theorem count (h : Underway u z i f others w) :
    Underway u z i f others (w.modifyEngine i fun e => { e with steps := e.steps + 1 }) := by
  refine ⟨h.toInOrder.count, h.chronicled.modifyEngine i (fun _ => rfl) fun _ => rfl, h.lines.congr ?_ ?_⟩
  · rw [engine_modifyEngine_self h.toInOrder.there]
  · rw [engine_modifyEngine_self h.toInOrder.there]

/-- The end of a step that went wrong: its failure is put down, and the fiber is over. -/
theorem fail {e : Failure} (h : InOrder u (onlyAt i f) w) (hl : w.Lines i others) (he : Chronicled z (w.report i e)) :
    Underway u z i f others ((w.report i e).modifyEngine i fun e => { e with steps := e.steps + 1 }.abort f) := by
  have hthere : i < (w.report i e).engines.size := by
    rw [engines_report]
    simpa using h.there
  refine ⟨h.fail e, ?_, ?_⟩
  · exact he.modifyEngine i (fun x => (Engine.card_abort { x with steps := x.steps + 1 } f).1)
      fun x => (Engine.card_abort { x with steps := x.steps + 1 } f).2
  · rw [Lines, engine_modifyEngine_self hthere, engine_congr (engines_report w i e), engine_modifyEngine_self h.there]
    generalize hx : ({ w.engine i with failures := e :: (w.engine i).failures, steps := (w.engine i).steps + 1 } : Engine) = x
    have hqueue : x.queue = (w.engine i).queue := by rw [← hx]
    have hdisposed : x.isDisposed = (w.engine i).isDisposed := by rw [← hx]
    rw [Lines, ← hqueue, ← hdisposed] at hl
    refine hl.imp (fun hd => ?_) fun hq => hq.trans (Engine.suffix_abort x f).isInfix
    rw [Engine.abort_frame]
    exact hd

/-- As the fiber makes room or goes on, what other threads asked for goes by the chronicle too. -/
theorem rest (h : Underway u z i f others w) : Chronicled z (Play.rest w i f) ∧ (Play.rest w i f).Lines i others := by
  refine ⟨?_, InOrder.lines_rest h.toInOrder h.lines⟩
  unfold Play.rest
  dsimp only
  split
  · exact h.chronicled.modifyEngine i (fun _ => rfl) fun _ => rfl
  · refine Chronicled.drainInbox (Chronicled.modifyEngine (g := fun e => { e with current := none }) ?_ i (fun _ => rfl)
      fun _ => rfl) i
    split
    · exact h.chronicled.modifyEngine i (fun x => (x.card_finish f).1) fun x => (x.card_finish f).2
    · exact h.chronicled

end Underway

end World

section Turns

variable {u w : World} {i f : Nat} {others : List Nat}

/-- A step that goes wrong blames a node that it concerns, one failure is put down for it, and the loop goes on: whatever else
is put down meanwhile has a cause of its own, and the others stay in line. -/
theorem Play.turn_contained (h : InOrder u atRest w) (hT : w.Typed) (hq : (w.engine i).queue = f :: others) {e : Failure}
    {r : World} (hstep : (Play.step i f).runOn (atWork i f others w) = (.error e, r)) :
    (atWork i f others w).StepFails i f e ∧ Chronicled (atWork i f others w) r ∧ Reported [(i, e)] r (r.report i e) ∧
      ∃ v, (Play.turn i f).runOn (unqueued i others w) = (.ok (), v) ∧ Chronicled (r.report i e) v ∧ v.Lines i others := by
  have hunqueued := Underway.take h hq
  have hfails := hunqueued.toInOrder.stepFails_step (hT.outlined ((show Outlined w w from rfl).frame rfl)) (e := e) (by rw [hstep])
  have hafter := hunqueued.step
  rw [hstep] at hafter
  have hended := (Underway.fail hafter.toInOrder hafter.lines (.refl (r.report i e))).rest
  exact ⟨hfails, hafter.chronicled, .report r i e, _, turn_failed hfails.isNode hstep, hended⟩

/-- What an iteration puts down has its causes, and those behind the head of the queue stay in line. -/
theorem Play.iteration_contained (h : InOrder u atRest w) (hT : w.Typed) {v : World} (hi : Iteration i w v)
    (hq : (w.engine i).queue = f :: others) : Chronicled w v ∧ v.Lines i others := by
  cases hi with
  | pop hq' hidle =>
    cases hq.symm.trans hq'
    refine ⟨Chronicled.drainInbox ?_ i, h.lines_pop hq hidle⟩
    have hoff : Chronicled w (w.modifyEngine i fun e => { e with queue := others }) :=
      (Chronicled.refl w).modifyEngine i (fun _ => rfl) fun _ => rfl
    unfold Play.pop
    split
    · exact hoff.modifyEngine i (fun x => (x.card_finish f).1) fun x => (x.card_finish f).2
    · exact hoff
  | turn hq' _ hturn =>
    cases hq.symm.trans hq'
    have hstart : Chronicled w (atWork i f others w) :=
      ((Chronicled.refl w).modifyEngine (g := fun e => { e with queue := others }) i (fun _ => rfl) fun _ => rfl).modifyEngine
        (g := fun e => { e with current := some f }) i (fun _ => rfl) fun _ => rfl
    generalize hp : (Play.step i f).runOn (atWork i f others w) = p
    obtain ⟨out, r⟩ := p
    cases out with
    | ok _ =>
      cases (turn_ok hp).symm.trans hturn
      have hafter := (Underway.take h hq).step
      rw [hp] at hafter
      exact ⟨hstart.trans hafter.count.rest.1, hafter.count.rest.2⟩
    | error e =>
      obtain ⟨hfails, ⟨es, hes⟩, -, z, hz, hrest, hline⟩ := turn_contained h hT hq hp
      cases hz.symm.trans hturn
      exact ⟨(hstart.trans ⟨_, .step hp hfails hes⟩).trans hrest, hline⟩

end Turns

namespace Play

/-- From `w` on to `v` a drain takes these fibers off the head of the queue, one after the other. One that goes on after its
step comes up again. -/
inductive Heads (i : Nat) : World → List Nat → World → Prop where
  | refl (w : World) : Heads i w [] w
  | cons {w z v : World} {f : Nat} {others hs : List Nat} : (w.engine i).queue = f :: others → Iteration i w z →
      Heads i z hs v → Heads i w (f :: hs) v

/-- Those in line that are gone came to the head of the queue one after the other, and the rest stands there still, unless
the engine was disposed of. -/
def Served (i : Nat) (line hs : List Nat) (v : World) : Prop :=
  (v.engine i).isDisposed = true ∨ ∃ gone left, line = gone ++ left ∧ gone.Sublist hs ∧ left <:+: (v.engine i).queue

variable {u w v : World} {i s t : Nat} {m : Int} {acts : List Act} {out : Except Failure Nat} {line hs : List Nat}

theorem trend_disposed : Engine.Trend fun e e' => e.isDisposed = true → e'.isDisposed = true where
  refl _ := id
  trans h h' := h' ∘ h
  fibers _ _ _ _ := id
  notify _ := id
  report _ _ := id
  work _ _ _ _ := id
  close _ _ := rfl

theorem Heads.isDisposed (h : Heads i w hs v) (hd : (w.engine i).isDisposed = true) : (v.engine i).isDisposed = true := by
  induction h with
  | refl w => exact hd
  | cons _ hi _ ih => exact ih (trend_disposed.iteration (fun _ => id) hi hd)

/-- What the iterations of a drain put down has its causes, and who stands in line is served in order. -/
theorem Heads.contained (hu : InOrder u atRest w) (hT : w.Typed) (h : Heads i w hs v) (hl : w.Lines i line) :
    Chronicled w v ∧ Served i line hs v := by
  induction h generalizing line with
  | refl w => exact ⟨.refl w, hl.imp_right fun hq => ⟨[], line, rfl, List.nil_sublist _, hq⟩⟩
  | @cons w z v f others hs hq hi hrest ih =>
    obtain ⟨hput, hothers⟩ := iteration_contained hu hT hi hq
    have hnext {part : List Nat} (hpart : part <:+: others) : Chronicled w v ∧ Served i part hs v :=
      have ⟨hlater, hserved⟩ := ih (hu.iteration hi) (hT.outlined hi.outlined) (hothers.imp_right hpart.trans)
      ⟨hput.trans hlater, hserved⟩
    refine ⟨(hnext List.infix_rfl).1, ?_⟩
    rcases hl with hd | hline
    · exact .inl (hrest.isDisposed (trend_disposed.iteration (fun _ => id) hi hd))
    · rw [hq, List.infix_cons_iff, List.prefix_cons_iff] at hline
      -- Either the head is the first of those in line, or all of them stand behind it.
      rcases hline with (rfl | ⟨part, rfl, hpart⟩) | hbehind
      · exact .inr ⟨[], [], rfl, List.nil_sublist _, List.nil_infix⟩
      · refine (hnext hpart.isInfix).2.imp_right ?_
        rintro ⟨gone, left, rfl, hgone, hleft⟩
        exact ⟨f :: gone, left, rfl, hgone.cons_cons f, hleft⟩
      · refine (hnext hbehind).2.imp_right ?_
        rintro ⟨gone, left, rfl, hgone, hleft⟩
        exact ⟨gone, left, rfl, hgone.cons f, hleft⟩

/-- The iterations of a run. -/
theorem Drains.heads (h : Drains i m s w acts out v) (ho : out = .ok t) : ∃ hs z, Heads i w hs z ∧
    (v = z ∨ ∃ taken queued, v = z.record (.limited taken queued)) := by
  induction h with
  | @idle s w hq => exact ⟨[], w, .refl w, .inl rfl⟩
  | @limit s w hq hm => exact ⟨[], w, .refl w, .inr ⟨_, _, rfl⟩⟩
  | pop _ hq hidle _ ih =>
    obtain ⟨hs, z, hz, hv⟩ := ih ho
    exact ⟨_, z, .cons hq (.pop hq hidle) hz, hv⟩
  | turn _ hq hready _ hturn _ ih =>
    obtain ⟨hs, z, hz, hv⟩ := ih ho
    exact ⟨_, z, .cons hq (.turn hq hready hturn) hz, hv⟩
  | escape => cases ho

/-- A run with any limits goes through its iterations, and only the limits leave something in the queue. -/
theorem heads_run (hu : InOrder u atRest w) (hT : w.Typed) (maxSteps : Option Int) (maxSeconds : Option Double) :
    ∃ n v hs z, (run i maxSteps maxSeconds).runOn w = (.ok n, v) ∧ Heads i (w.drainInbox i) hs z ∧
      (v = z ∨ ∃ taken queued, v = z.record (.limited taken queued)) ∧
      ((v.engine i).queue ≠ [] → budget (w.engine i).settings maxSteps maxSeconds ≤ n) := by
  have hbudget : budget ((w.drainInbox i).engine i).settings maxSteps maxSeconds =
      budget (w.engine i).settings maxSteps maxSeconds := by
    rw [(Onward.drainInbox w i).settings i]
  generalize hb : budget (w.engine i).settings maxSteps maxSeconds = b at hbudget ⊢
  have hrun : (run i maxSteps maxSeconds).runOn w = (drain i b 0).runOn (w.drainInbox i) := by
    rw [run, runOn_bind, runOn_modify]
    dsimp only
    rw [runOn_get, hbudget]
  obtain ⟨acts, hloop⟩ := drains_drain (n := b) (m := b) (t := 0) (Onward.inbox_drainInbox w i) (by simp)
  obtain ⟨n, hn⟩ := hloop.returns (hu.drainInbox i) (hT.outlined ((show Outlined w w from rfl).drainInbox i))
  obtain ⟨hs, z, hheads, hlast⟩ := hloop.heads hn
  have hleft := (hloop.counts hn).2.2.2
  refine ⟨n, _, hs, z, hrun.trans (Prod.ext hn rfl), hheads, hlast, fun hne => ?_⟩
  exact_mod_cast hleft hne

/-- Handlers that fail are passed over, and put nothing down. -/
theorem reported_emit {n : Notice} {cause : Fault} (hn : n.outputs = .error cause) (w : World) (t : Topic) :
    Reported [] w (w.emit t n) := by
  unfold emit
  generalize w.handlers t = handlers
  induction handlers generalizing w with
  | nil => exact .refl w
  | cons h handlers ih =>
    refine Reported.next ?_ (ih (w.handle n h))
    cases h with
    | node j x =>
      rw [handle, hn]
      exact .refl w
    | watchVariable name =>
      cases n with
      | changed v => exact .record w rfl
      | _ => exact .refl w
    | watchEvent name =>
      cases n with
      | triggered t => exact .record w rfl
      | _ => exact .refl w

end Play

/-- Failures of nodes are contained and put down once. At every point between two iterations, where the types of data inputs
are known, a run with any limits returns; what it puts down has its causes, and those in the queue are served in order. A
step that goes wrong blames a node that it concerns and has one failure put down for it, and the others stay in line. A path
that cannot start and an operation that cannot go on have one failure put down for them, those that can have none, and so
have handlers that fail. The handlers of the host may do and raise what they will at each event: all goes on as it would with
any others, or with none. -/
theorem Passage.failures_contained {u w : World} (he : u.engines = #[]) (hd : u.disposers = []) (hw : Passage u w)
    (hT : w.Typed) (i : Nat) :
    (∀ maxSteps maxSeconds, ∃ n v es hs, (run i maxSteps maxSeconds).runOn w = (.ok n, v) ∧ Chronicle w es v ∧
      Reported es w v ∧ Served i (w.engine i).queue hs v ∧ (∃ z, Heads i (w.drainInbox i) hs z ∧ v.engines = z.engines) ∧
      ((v.engine i).queue ≠ [] → budget (w.engine i).settings maxSteps maxSeconds ≤ n)) ∧
    (∀ f others e r, (w.engine i).queue = f :: others → (step i f).runOn (atWork i f others w) = (.error e, r) →
      (atWork i f others w).StepFails i f e ∧ Chronicled (atWork i f others w) r ∧ Reported [(i, e)] r (r.report i e) ∧
      ∃ v, (turn i f).runOn (unqueued i others w) = (.ok (), v) ∧ Chronicled (r.report i e) v ∧ v.Lines i others) ∧
    (∀ x output l values, (∃ e, w.BeginFails i x output l values e ∧ Reported [(i, e)] w (w.begin i x output l values)) ∨
      (∀ e, ¬ w.BeginFails i x output l values e) ∧ Reported [] w (w.begin i x output l values)) ∧
    (∀ o output, (∃ e, w.CompleteFails i o output e ∧ Reported [(i, e)] w (w.complete i o output)) ∨
      (∀ e, ¬ w.CompleteFails i o output e) ∧ Reported [] w (w.complete i o output)) ∧
    (∀ t n cause, Notice.outputs n = .error cause → Reported [] w (w.emit t n)) ∧
    (∀ maxSteps maxSeconds, Unswayed (run i maxSteps maxSeconds).runOn w) ∧
    (∀ x output l values, Unswayed (fun v => ((), v.begin i x output l values)) w) ∧
    (∀ o output, Unswayed (fun v => ((), v.complete i o output)) w) ∧ ∀ t n, Unswayed (fun v => ((), v.emit t n)) w := by
  have hu := (InOrder.start he hd).passage hw
  refine ⟨fun maxSteps maxSeconds => ?_, fun f others e r hq hstep => turn_contained hu hT hq hstep,
    reported_begin w i, reported_complete w i, fun t n cause hn => reported_emit hn w t, .run w i, .begin w i, .complete w i,
    .emit w⟩
  obtain ⟨n, v, hs, z, hrun, hheads, hlast, hleft⟩ := heads_run (i := i) hu hT maxSteps maxSeconds
  have hdrained : w.Chronicled (w.drainInbox i) := (Chronicled.refl w).drainInbox i
  have hline : (w.drainInbox i).Lines i (w.engine i).queue := by
    by_cases hi : i < w.engines.size
    · exact hu.lines_drainInbox hi (.inr List.infix_rfl) i
    · rw [show w.engine i = default by simp [World.engine, hi]]
      exact .inr List.nil_infix
  obtain ⟨hput, hserved⟩ := hheads.contained (hu.drainInbox i) (hT.outlined ((show Outlined w w from rfl).drainInbox i)) hline
  have hsame : v.engines = z.engines := by
    rcases hlast with rfl | ⟨taken, queued, rfl⟩
    · rfl
    · rfl
  have hnoted : z.Chronicled v := by
    rcases hlast with rfl | ⟨taken, queued, rfl⟩
    · exact .refl v
    · exact (Chronicled.refl z).next (.record z rfl)
  obtain ⟨es, hes⟩ := (hdrained.trans hput).trans hnoted
  refine ⟨n, v, es, hs, hrun, hes, hes.reported, ?_, ⟨z, hheads, hsame⟩, hleft⟩
  rw [Served, engine_congr hsame]
  exact hserved

namespace Mishap

def first : Wire := ⟨⟨"go", "exec", "boom", "exec"⟩, 0⟩

def second : Wire := ⟨⟨"also", "exec", "fine", "exec"⟩, 1⟩

def source (id : String) (w : Wire) : Node where
  id := id
  definition := { typeName := "Go", behaviour := .event (some (.script [])) }
  outputs := [{ name := "exec", valueType := ValueType.flowName, wires := [w] }]

def target (id : String) (w : Wire) (actions : List Action) : Node where
  id := id
  definition := { typeName := "Step", behaviour := .flow (some (.script actions)) }
  inputs := [{ name := "exec", valueType := ValueType.flowName, wires := [w] }]

/-- Two paths, one to a node that goes wrong after it has done what it does before. -/
def graph (before : List Action) : Graph where
  arena := #[source "go" first, source "also" second, target "boom" first (before ++ [.raise .value "no"]),
    target "fine" second [.state (.int 1)]]
  ids := ⟨[("go", 0), ("also", 1), ("boom", 2), ("fine", 3)]⟩
  wires := [first, second]
  ends := #[some ⟨⟨0, 0⟩, ⟨2, 0⟩⟩, some ⟨⟨1, 0⟩, ⟨3, 0⟩⟩]

def bare (before : List Action) : World := { graphs := #[graph before] }

/-- An engine for the nodes; both paths have begun. -/
def begun (before : List Action) (nodes : List NodeRef) : World :=
  (((makeEngine "main" nodes {}).runOn (bare before)).2.begin 0 ⟨0, 0⟩ "exec" none []).begin 0 ⟨0, 1⟩ "exec" none []

def final (before : List Action) (nodes : List NodeRef) : World := ((run 0).runOn (begun before nodes)).2

def all : List NodeRef := [⟨0, 0⟩, ⟨0, 1⟩, ⟨0, 2⟩, ⟨0, 3⟩]

def failure : Failure := .node "boom" "Step" (.failed .triggered (.fault (.scripted .value "no")))

/-- Of two handlers that hear of failures the first one fails, after it has connected the second once more and forgotten what
that one kept. -/
def unruly : Audience where
  signals := Table.ofList [(.failed "main", { handlers := ["spoil", "keep"] })]
  handlers name arguments :=
    if name = "spoil" then .connect "keep" (.alter (fun _ => .none) (.raise (.scripted .value "spoilt")))
    else .alter (fun _ => .list arguments) .done

theorem passage_begun (before : List Action) (nodes : List NodeRef) : Passage (bare before) (begun before nodes) :=
  ((Passage.deed (.refl _) (.makeEngine _ "main" nodes {})).deed (.begin _ 0 ⟨0, 0⟩ "exec" [] (by simp))).deed
    (.begin _ 0 ⟨0, 1⟩ "exec" [] (by simp))

theorem typed_bare (before : List Action) : (bare before).Typed := by
  rintro ⟨_ | k, _ | _ | _ | _ | n⟩ s hs hflow
  iterate 2 cases hs
  iterate 2
    rw [List.mem_singleton.1 hs] at hflow
    cases hflow
  all_goals cases hs

end Mishap

open Mishap in
/-- The path that was second in the queue runs to its end after the first one went wrong, for which one failure was put
down. Handlers of which one fails hear of it, and nothing else comes of them. -/
theorem Passage.failures_contained_second : ∃ n v es hs, (run 0).runOn (begun [] all) = (.ok n, v) ∧ Chronicle (begun [] all) es v ∧
    es = [(0, failure)] ∧ v.heard = [("main", true, failure)] ∧ (v.node ⟨0, 2⟩).error = some failure.message ∧
    [0, 1].Sublist hs ∧ (v.node ⟨0, 3⟩).state = .int 1 ∧
    (run 0).runOn { begun [] all with audience := unruly } = (.ok n, { v with audience := unruly.hearAll v.journal }) ∧
    (unruly.hearAll v.journal).memory = .list [.str failure.message] := by
  have htyped : (begun [] all).Typed := (typed_bare []).outlined (by rfl)
  obtain ⟨hruns, -, -, -, -, hunswayed, -⟩ := Passage.failures_contained rfl rfl (passage_begun [] all) htyped 0
  obtain ⟨n, v, es, hs, hrun, hput, hreported, hserved, -, -⟩ := hruns none none
  have hv : v = final [] all := by rw [Mishap.final, hrun]
  have hheard : v.heard = [("main", true, failure)] := by
    rw [hv]
    rfl
  have hfailures : (v.engine 0).failures = [failure] := by
    rw [hv]
    rfl
  have hes : es = [(0, failure)] := by
    have hfew := hreported.heard.symm.trans hheard
    have hfirst := (hreported.failures 0 (by decide)).symm.trans hfailures
    rw [show (begun [] all).heard = [] by rfl, List.append_nil] at hfew
    rw [show ((begun [] all).engine 0).failures = [] by rfl, List.append_nil] at hfirst
    obtain ⟨⟨j, e⟩, rest, rfl, -, hrest⟩ := List.map_eq_cons_iff.1 hfew
    rw [List.map_eq_nil_iff.1 hrest] at hfirst ⊢
    by_cases hj : j = 0
    · simpa [hj] using hfirst
    · simp [hj] at hfirst
  obtain ⟨news, hnews, hsame⟩ := hunswayed none none
  rw [hrun, show (begun [] all).journal = [] by rfl, List.append_nil] at hnews
  refine ⟨n, v, es, hs, hrun, hput, hes, hheard, ?_, ?_, ?_, ?_, ?_⟩
  · rw [hv]
    rfl
  · have hqueue : (v.engine 0).queue = [] := by
      rw [hv]
      rfl
    have hopen : (v.engine 0).isDisposed = false := by
      rw [hv]
      rfl
    rw [Served, hqueue, hopen] at hserved
    obtain ⟨gone, left, hline, hgone, hleft⟩ := hserved.resolve_left Bool.false_ne_true
    rw [List.infix_nil.1 hleft, List.append_nil] at hline
    rw [← hline] at hgone
    exact hgone
  · rw [hv]
    rfl
  · rw [hsame unruly, hrun, ← hnews]
  · rw [hv]
    rfl

open Mishap in
/-- A node that an engine was not made with does not get the text of its failure, though the engine puts the failure down and
the host hears of it. Who disposes of the engine and goes wrong then leaves the second path without its turn. -/
theorem Passage.not_noted_stranger :
    ((begun [] (all.take 2)).Typed ∧ (final [] (all.take 2)).heard = [("main", true, failure)] ∧
      ((final [] (all.take 2)).engine 0).failures = [failure] ∧ ((final [] (all.take 2)).node ⟨0, 2⟩).id = "boom" ∧
      ((final [] (all.take 2)).node ⟨0, 2⟩).error = none) ∧
    (begun [.dispose] all).Typed ∧ ((begun [.dispose] all).engine 0).queue = [0, 1] ∧
      (final [.dispose] all).heard = [("main", true, failure)] ∧ ((final [.dispose] all).engine 0).queue = [] ∧
      ((final [.dispose] all).engine 0).steps = 1 ∧ ((final [.dispose] all).node ⟨0, 3⟩).state = .none := by
  refine ⟨⟨(typed_bare []).outlined (by rfl), rfl, rfl, rfl, rfl⟩, (typed_bare [.dispose]).outlined (by rfl), rfl, rfl, rfl, rfl, rfl⟩

end FlowGraph
