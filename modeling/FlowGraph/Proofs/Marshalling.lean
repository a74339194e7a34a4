import FlowGraph.Proofs.Counting
import FlowGraph.Proofs.Posting
import FlowGraph.Proofs.Stopping
import Mathlib.Logic.Relation

/-!
Posts from other threads. Any thread may leave something in the inbox of an engine at any moment; only the thread of the engine
takes out what is there, all at once, and then applies one post after the other. Every step of every thread is a move, in
whatever order they come. A ledger keeps what was posted and what has become of it.
-/
namespace FlowGraph

open World Play

namespace Play

/-- What a step has come to is counted, and reported if it failed. -/
def noted (i f : Nat) (out : Except Failure Unit) (w : World) : World :=
  match out with
  | .ok _ => w.modifyEngine i fun e => { e with steps := e.steps + 1 }
  | .error e => (w.report i e).modifyEngine i fun e => { e with steps := e.steps + 1 }.abort f

/-- The fiber that had its turn makes room. -/
def cede (i f : Nat) (w : World) : World :=
  (if ((w.engine i).fiber f).isComplete then w.modifyEngine i (·.finish f) else w).modifyEngine i
    fun e => { e with current := none }

/-- The fiber that had its turn stays in front. -/
def stay (i f : Nat) (w : World) : World := w.modifyEngine i fun e => { e with queue := f :: e.queue, current := none }

variable {i f : Nat} {w s : World} {others : List Nat} {out : Except Failure Unit}

/-- A turn comes to an end where the fiber stays in front, or makes room and the inbox is drained. -/
theorem rest_eq (i f : Nat) (w : World) :
    rest w i f = if ((w.engine i).fiber f).isReady then stay i f w else (cede i f w).drainInbox i := rfl

theorem turn_noted (hs : (Play.step i f).runOn (atWork i f others w) = (out, s)) (hout : ∀ e, out = .error e → e.isNode = true) :
    (turn i f).runOn (w.modifyEngine i fun e => { e with queue := others }) = (.ok (), rest (noted i f out s) i f) := by
  cases out with
  | ok _ => exact turn_ok hs
  | error e => exact turn_failed (hout e rfl) hs

end Play

/-- What has become of a post: it was applied, which began the fibers from the first place up to the last, or it was cleared. -/
inductive Fate where
  | applied (first last : Nat)
  | cleared

/-- Where the thread of an engine is: between runs, on the way to the inbox, applying the rest of a batch, at the head of the
loop, or just back from a run that left nothing in the queue. -/
inductive Traffic.Stage where
  | apart
  | drain
  | batch (due : List Post)
  | loop
  | returned

/-- The world with the ledger of the posts to an engine. -/
structure Traffic where
  world : World
  stage : Traffic.Stage := .apart
  /-- What was posted, in that order. -/
  posted : List Post := []
  /-- What has become of the first of them. -/
  past : List (Post × Fate) := []
  /-- How many had been posted when the inbox was last drained. -/
  drained : Nat := 0
  /-- Whether no failure has escaped a run. -/
  isWhole : Bool := true

namespace Traffic

def Stage.due : Stage → List Post
  | batch due => due
  | _ => []

def due (c : Traffic) : List Post := c.stage.due

/-- Whether the thread of the engine is between runs. -/
def Free (c : Traffic) : Prop := c.stage = .apart ∨ c.stage = .returned

def receive (c : Traffic) (p : Post) (v : World) : Traffic := { c with world := v, posted := c.posted ++ [p] }

/-- What is gone from the inbox when the world has got on to `v`. -/
def gone (i : Nat) (c : Traffic) (v : World) : List Post :=
  (c.world.engine i).inbox.take ((c.world.engine i).inbox.length - (v.engine i).inbox.length)

/-- The thread of the engine has got on to `v`. It applied nothing, so what is gone was cleared. -/
def advance (i : Nat) (c : Traffic) (v : World) (stage : Stage) : Traffic :=
  { c with world := v, stage := stage, past := c.past ++ (c.gone i v).map fun p => (p, .cleared) }

/-- The thread of the engine takes out what is in the inbox. -/
def collect (i : Nat) (c : Traffic) : Traffic :=
  { c with
    world := c.world.modifyEngine i fun e => { e with inbox := [] }
    stage := .batch (c.world.engine i).inbox
    drained := c.posted.length }

/-- The thread of the engine applies the next post of the batch. -/
def apply (i : Nat) (c : Traffic) (p : Post) (due : List Post) : Traffic :=
  { c with
    world := c.world.applyPost i p
    stage := .batch due
    past := c.past ++
      [(p, .applied (c.world.engine i).fibers.size ((c.world.applyPost i p).engine i).fibers.size)] }

/-- One step of some thread. Other threads may take one at any time. The thread of the engine goes through its runs, and
between them does what hosts do. -/
inductive Move (i : Nat) : Traffic → Traffic → Prop where
  /-- Another thread starts a path. -/
  | post (c : Traffic) {p : Post} : i < c.world.engines.size → p.Free → Move i c (c.receive p (c.world.post i p))
  /-- Another thread finishes an operation, and is the first to do so. -/
  | finish (c : Traffic) {o : Nat} (output : Option String) : o < (c.world.engine i).operations.size →
      ((c.world.engine i).operation o).isSettled = false →
      Move i c (c.receive (.complete o output) (c.world.finishOperation i o output true))
  | deed {c : Traffic} {v : World} : c.Free → Deed c.world v → Untapped i c.world v → Move i c (c.advance i v .apart)
  /-- A run begins. -/
  | enter {c : Traffic} : c.Free → Move i c { c with stage := .drain }
  | collect {c : Traffic} : c.stage = .drain → Move i c (c.collect i)
  | apply {c : Traffic} {p : Post} {due : List Post} : c.stage = .batch (p :: due) → Move i c (c.apply i p due)
  | applied {c : Traffic} : c.stage = .batch [] → Move i c { c with stage := .loop }
  | pop {c : Traffic} {f : Nat} {others : List Nat} : c.stage = .loop → (c.world.engine i).queue = f :: others →
      ((c.world.engine i).fiber f).isReady = false → Move i c (c.advance i (Play.pop i f others c.world) .drain)
  /-- The fiber at the head of the queue has a turn, and can go on after it. -/
  | stay {c : Traffic} {f : Nat} {others : List Nat} {out : Except Failure Unit} {s : World} : c.stage = .loop →
      (c.world.engine i).queue = f :: others → ((c.world.engine i).fiber f).isReady = true →
      (Play.step i f).runOn (atWork i f others c.world) = (out, s) → (∀ e, out = .error e → e.isNode = true) →
      (((noted i f out s).engine i).fiber f).isReady = true → Move i c (c.advance i (Play.stay i f (noted i f out s)) .loop)
  /-- The fiber at the head of the queue has a turn, and makes room after it. -/
  | cede {c : Traffic} {f : Nat} {others : List Nat} {out : Except Failure Unit} {s : World} : c.stage = .loop →
      (c.world.engine i).queue = f :: others → ((c.world.engine i).fiber f).isReady = true →
      (Play.step i f).runOn (atWork i f others c.world) = (out, s) → (∀ e, out = .error e → e.isNode = true) →
      (((noted i f out s).engine i).fiber f).isReady = false → Move i c (c.advance i (Play.cede i f (noted i f out s)) .drain)
  /-- The run ends by a failure that is no node's. -/
  | escape {c : Traffic} {f : Nat} {others : List Nat} {e : Failure} {s : World} : c.stage = .loop →
      (c.world.engine i).queue = f :: others → ((c.world.engine i).fiber f).isReady = true →
      (Play.step i f).runOn (atWork i f others c.world) = (.error e, s) → e.isNode = false →
      Move i c { c.advance i (s.modifyEngine i fun e => { e with current := none }) .apart with isWhole := false }
  /-- A limit is reached within the turns of a fiber, after which the inbox is drained once more. -/
  | pause {c : Traffic} : c.stage = .loop → (c.world.engine i).queue ≠ [] → Move i c { c with stage := .drain }
  /-- The run ends by a limit. -/
  | limit {c : Traffic} (steps : Nat) : c.stage = .loop → (c.world.engine i).queue ≠ [] →
      Move i c { c with stage := .apart, world := c.world.record (.limited steps (c.world.engine i).queue.length) }
  /-- The run returns without hitting a limit. -/
  | idle {c : Traffic} : c.stage = .loop → (c.world.engine i).queue = [] → Move i c { c with stage := .returned }

def Reaches (i : Nat) : Traffic → Traffic → Prop := Relation.ReflTransGen (Move i)

section Moves

variable {i : Nat} {u v w : World} {c c' : Traffic}

theorem Move.isWhole (h : Move i c c') (hc : c'.isWhole = true) : c.isWhole = true := by
  cases h with
  | escape => cases hc
  | _ => exact hc

/-- The ledger fits what is in the inbox. -/
structure Booked (i : Nat) (c : Traffic) : Prop where
  order : c.posted = c.past.map (·.1) ++ (c.due ++ (c.world.engine i).inbox)
  cleared : ∀ x ∈ c.past, x.2 = .cleared → (c.world.engine i).isDisposed = true
  covered : c.drained ≤ c.past.length + c.due.length
  exact : (c.world.engine i).isDisposed = false → c.past.length + c.due.length = c.drained

theorem due_of_free (h : c.Free) : c.due = [] := by
  rcases h with h | h <;> rw [due, h] <;> rfl

theorem due_of_stage {stage : Stage} (h : c.stage = stage) : c.due = stage.due := congrArg Stage.due h

/-- What other steps of the thread of the engine do to the inbox. -/
theorem gone_of_untapped (h : Untapped i c.world v) : c.gone i v ++ (v.engine i).inbox = (c.world.engine i).inbox ∧
    (c.gone i v ≠ [] → (v.engine i).isDisposed = true) := by
  rcases h.inbox with hsame | ⟨hempty, hd, -⟩
  · simp [gone, hsame]
  · simp [gone, hempty, hd]

theorem untapped_pop (w : World) (f : Nat) (others : List Nat) : Untapped i w (Play.pop i f others w) := by
  have hpopped := (Untapped.refl i w).arrange i (g := fun e => { e with queue := others }) (fun _ => rfl) fun _ => rfl
  unfold Play.pop
  split
  · exact hpopped.arrange i (fun e => by rw [Engine.finish_frame]) fun e => by rw [Engine.finish_frame]
  · exact hpopped

theorem untapped_step (w : World) (f : Nat) (others : List Nat) :
    Untapped i w ((Play.step i f).runOn (atWork i f others w)).2 := by
  have htaken := (Untapped.refl i w).arrange i (g := fun e => { e with queue := others }) (fun _ => rfl) fun _ => rfl
  exact (htaken.arrange i (g := fun e => { e with current := some f }) (fun _ => rfl) fun _ => rfl).step i f

theorem untapped_noted (h : Untapped i w v) (f : Nat) (out : Except Failure Unit) : Untapped i w (noted i f out v) := by
  cases out with
  | ok _ => exact h.arrange i (fun _ => rfl) fun _ => rfl
  | error e =>
    refine (h.trans (.of_local (Local.report v i e))).arrange i ?_ ?_
    · exact fun x => by rw [Engine.abort_frame]
    · exact fun x => by rw [Engine.abort_frame]

theorem untapped_stay (h : Untapped i w v) (f : Nat) : Untapped i w (Play.stay i f v) :=
  h.arrange i (fun _ => rfl) fun _ => rfl

theorem untapped_cede (h : Untapped i w v) (f : Nat) : Untapped i w (Play.cede i f v) := by
  refine Untapped.arrange ?_ i (fun _ => rfl) fun _ => rfl
  split
  · exact h.arrange i (fun e => by rw [Engine.finish_frame]) fun e => by rw [Engine.finish_frame]
  · exact h

namespace Booked

/-- A ledger is begun where the inbox is empty. -/
theorem start (h : (w.engine i).inbox = []) : Booked i { world := w } :=
  ⟨h.symm, fun _ hx => absurd hx List.not_mem_nil, Nat.le_refl 0, fun _ => rfl⟩

theorem congr (h : Booked i c) (he : c'.world.engine i = c.world.engine i) (hdue : c'.due = c.due)
    (hposted : c'.posted = c.posted) (hpast : c'.past = c.past) (hdrained : c'.drained = c.drained) : Booked i c' := by
  refine ⟨?_, ?_, ?_, ?_⟩
  · rw [hposted, hpast, hdue, he]
    exact h.order
  · rw [hpast, he]
    exact h.cleared
  · rw [hdrained, hpast, hdue]
    exact h.covered
  · rw [hdrained, hpast, hdue, he]
    exact h.exact

theorem receive (h : Booked i c) {p : Post} (hinbox : (v.engine i).inbox = (c.world.engine i).inbox ++ [p])
    (hd : (v.engine i).isDisposed = (c.world.engine i).isDisposed) : Booked i (c.receive p v) := by
  refine ⟨?_, ?_, h.covered, ?_⟩
  · show c.posted ++ [p] = c.past.map (·.1) ++ (c.due ++ (v.engine i).inbox)
    rw [h.order, hinbox]
    simp only [List.append_assoc]
  · intro x hx hcleared
    exact hd.trans (h.cleared x hx hcleared)
  · intro hopen
    exact h.exact (hd.symm.trans hopen)

/-- The thread of the engine gets on without applying anything. -/
theorem advance (h : Booked i c) (hdue : c.due = []) (hv : Untapped i c.world v) {stage : Stage}
    (hstage : stage.due = []) : Booked i (c.advance i v stage) := by
  obtain ⟨hinbox, hgone⟩ := gone_of_untapped hv
  have horder := h.order
  have hcovered := h.covered
  rw [hdue, List.nil_append] at horder
  rw [hdue, List.length_nil, Nat.add_zero] at hcovered
  refine ⟨?_, ?_, ?_, ?_⟩
  · have hpast : (c.advance i v stage).past.map (·.1) = c.past.map (·.1) ++ c.gone i v := by
      simp [Traffic.advance, Function.comp_def]
    rw [show (c.advance i v stage).due = [] from hstage, hpast, List.nil_append, List.append_assoc]
    exact horder.trans (congrArg _ hinbox.symm)
  · intro x hx hcleared
    rcases List.mem_append.1 hx with hx | hx
    · exact hv.isDisposed (h.cleared x hx hcleared)
    · exact hgone fun hnone => by simp [hnone] at hx
  · simp only [Traffic.advance, List.length_append]
    omega
  · intro (hopen : (v.engine i).isDisposed = false)
    have hnone : c.gone i v = [] := by
      apply Decidable.byContradiction
      intro hne
      rw [hgone hne] at hopen
      cases hopen
    have hexact := h.exact (Bool.eq_false_iff.2 fun hd => by rw [hv.isDisposed hd] at hopen; cases hopen)
    rw [show (c.advance i v stage).due = [] from hstage]
    rw [hdue] at hexact
    simpa [Traffic.advance, hnone] using hexact

theorem collect (h : Booked i c) (hdue : c.due = []) : Booked i (c.collect i) := by
  have hempty : ((c.collect i).world.engine i).inbox = [] := c.world.inbox_clear i
  have horder := h.order
  rw [hdue, List.nil_append] at horder
  have hlength := congrArg List.length horder
  simp only [List.length_append, List.length_map] at hlength
  refine ⟨?_, ?_, ?_, ?_⟩
  · rw [hempty, List.append_nil]
    exact horder
  · intro x hx hcleared
    exact (isDisposed_modifyEngine c.world i (g := fun e => { e with inbox := [] }) fun _ => rfl).trans (h.cleared x hx hcleared)
  · exact Nat.le_of_eq hlength
  · exact fun _ => hlength.symm

/-- The first post of the batch is applied, and the books stay right. -/
theorem apply (h : Booked i c) {p : Post} {due : List Post} (hstage : c.stage = .batch (p :: due)) : Booked i (c.apply i p due) := by
  obtain ⟨hinbox, hd⟩ := c.world.inbox_applyPost i p i
  have hdue : c.due = p :: due := due_of_stage hstage
  have horder := h.order
  have hcovered := h.covered
  rw [hdue] at horder hcovered
  refine ⟨?_, ?_, ?_, ?_⟩
  · show c.posted = (c.past ++ [(p, _)]).map Prod.fst ++ (due ++ ((c.world.applyPost i p).engine i).inbox)
    rw [hinbox, horder]
    simp
  · intro x hx hcleared
    rcases List.mem_append.1 hx with hx | hx
    · exact hd.trans (h.cleared x hx hcleared)
    · rw [List.mem_singleton.1 hx] at hcleared
      cases hcleared
  · show c.drained ≤ (c.past ++ [_]).length + due.length
    simp only [List.length_append, List.length_cons, List.length_nil] at hcovered ⊢
    omega
  · intro hopen
    have hexact := h.exact (hd.symm.trans hopen)
    rw [hdue] at hexact
    show (c.past ++ [_]).length + due.length = c.drained
    simp only [List.length_append, List.length_cons, List.length_nil] at hexact ⊢
    omega

/-- The ledger is kept up in every move. -/
theorem move (h : Booked i c) (hm : Move i c c') : Booked i c' := by
  cases hm with
  | post hi _ =>
    refine h.receive ?_ ?_
    all_goals rw [World.post, engine_modifyEngine_self hi]
    · rfl
    · rfl
  | finish output ho hs =>
    refine h.receive ?_ ?_
    all_goals rw [engine_finishOperation ho hs]
    · rfl
    · rfl
  | deed hfree _ hv => exact h.advance (due_of_free hfree) hv rfl
  | enter hfree => exact h.congr rfl (due_of_free hfree).symm rfl rfl rfl
  | collect hstage => exact h.collect (due_of_stage hstage)
  | apply hstage => exact h.apply hstage
  | applied hstage => exact h.congr rfl (due_of_stage hstage).symm rfl rfl rfl
  | pop hstage _ _ => exact h.advance (due_of_stage hstage) (untapped_pop _ _ _) rfl
  | @stay f others out s hstage _ _ hs _ _ =>
    have hstep := untapped_step (i := i) c.world f others
    rw [hs] at hstep
    exact h.advance (due_of_stage hstage) (untapped_stay (untapped_noted hstep f out) f) rfl
  | @cede f others out s hstage _ _ hs _ _ =>
    have hstep := untapped_step (i := i) c.world f others
    rw [hs] at hstep
    exact h.advance (due_of_stage hstage) (untapped_cede (untapped_noted hstep f out) f) rfl
  | @escape f others e s hstage _ _ hs _ =>
    have hstep := untapped_step (i := i) c.world f others
    rw [hs] at hstep
    have hescaped := hstep.arrange i (g := fun e => { e with current := none }) (fun _ => rfl) fun _ => rfl
    exact (h.advance (due_of_stage hstage) hescaped (show Stage.apart.due = [] from rfl)).congr rfl rfl rfl rfl rfl
  | pause hstage _ => exact h.congr rfl (due_of_stage hstage).symm rfl rfl rfl
  | limit steps hstage _ => exact h.congr rfl (due_of_stage hstage).symm rfl rfl rfl
  | idle hstage _ => exact h.congr rfl (due_of_stage hstage).symm rfl rfl rfl

end Booked

/-- As long as no failure has escaped, the engines are in order, and so is what is left of the batch. -/
structure Ordered (u : World) (c : Traffic) : Prop where
  inOrder : InOrder u atRest c.world
  free : ∀ p ∈ c.due, p.Free

theorem inOrder_noted {f : Nat} {others : List Nat} {out : Except Failure Unit} {s : World} (h : InOrder u atRest w)
    (hq : (w.engine i).queue = f :: others) (hs : (Play.step i f).runOn (atWork i f others w) = (out, s)) :
    InOrder u (onlyAt i f) (noted i f out s) := by
  have hstep := (h.take hq).step
  rw [show (w.modifyEngine i fun e => { e with queue := others }).modifyEngine i (fun e => { e with current := some f }) =
    atWork i f others w from rfl, hs] at hstep
  cases out with
  | ok _ => exact hstep.count
  | error e => exact hstep.fail e

namespace Ordered

theorem of_idle (h : InOrder u atRest c.world) (hdue : c.due = []) : Ordered u c :=
  ⟨h, by rw [hdue]; exact fun p hp => absurd hp List.not_mem_nil⟩

/-- The order is kept up in every move, as long as no failure escapes. -/
theorem move (h : Ordered u c) (hm : Move i c c') (hw : c'.isWhole = true) : Ordered u c' := by
  have hu := h.inOrder
  cases hm with
  | post _ hp => exact ⟨hu.post i hp, h.free⟩
  | finish output _ _ => exact ⟨hu.finishOperation i _ output true, h.free⟩
  | deed _ hd _ => exact of_idle (hu.deed hd) rfl
  | enter _ => exact of_idle hu rfl
  | collect _ => exact ⟨hu.clearInbox i, (hu.engine i).posts⟩
  | @apply p due hstage =>
    have hfree := h.free
    rw [due_of_stage hstage] at hfree
    refine ⟨?_, fun q hq => hfree q (List.mem_cons_of_mem p hq)⟩
    have hp := hfree p List.mem_cons_self
    cases p with
    | complete o output => exact hu.complete i o output
    | begin x output l values => exact hu.begin i x output hp values
  | applied _ => exact of_idle hu rfl
  | pop _ hq hidle => exact of_idle (hu.pop hq hidle) rfl
  | stay _ hq _ hs _ hready =>
    have hnoted := inOrder_noted hu hq hs
    have hrest := hnoted.rest
    rw [rest_eq, if_pos hready] at hrest
    exact of_idle hrest rfl
  | cede _ hq _ hs _ hidle => exact of_idle ((inOrder_noted hu hq hs).cede hidle) rfl
  | escape => cases hw
  | pause _ _ => exact of_idle hu rfl
  | limit _ _ _ => exact of_idle (hu.frame rfl rfl) rfl
  | idle _ _ => exact of_idle hu rfl

end Ordered

/-- The fibers that were begun by what was applied are there. -/
def Begun (i : Nat) (c : Traffic) : Prop :=
  ∀ x ∈ c.past, ∀ first last, x.2 = .applied first last → last ≤ (c.world.engine i).fibers.size

/-- What was begun stays, as fibers do not vanish. -/
theorem Begun.move (h : Begun i c) (ho : Ordered u c) (hm : Move i c c') (hw : c'.isWhole = true) : Begun i c' := by
  have hsize : (c.world.engine i).fibers.size ≤ (c'.world.engine i).fibers.size :=
    ((Ordered.move ⟨ho.inOrder.rebase, ho.free⟩ hm hw).inOrder.engine i).outlived.size
  have hold : ∀ x ∈ c.past, ∀ first last, x.2 = .applied first last → last ≤ (c'.world.engine i).fibers.size :=
    fun x hx first last hfate => Nat.le_trans (h x hx first last hfate) hsize
  have hadvance {v : World} {stage : Stage} : ∀ x ∈ (c.advance i v stage).past, ∀ first last, x.2 = .applied first last →
      last ≤ (c'.world.engine i).fibers.size := by
    intro x hx first last hfate
    rcases List.mem_append.1 hx with hx | hx
    · exact hold x hx first last hfate
    · obtain ⟨p, -, rfl⟩ := List.mem_map.1 hx
      cases hfate
  cases hm with
  | deed | pop | stay | cede => exact hadvance
  | apply _ =>
    intro x hx first last hfate
    rcases List.mem_append.1 hx with hx | hx
    · exact hold x hx first last hfate
    · rw [List.mem_singleton.1 hx] at hfate
      cases hfate
      exact Nat.le_refl _
  | escape => cases hw
  | post | finish | enter | collect | applied | pause | limit | idle => exact hold

/-- After a run that returned without hitting a limit the queue stays empty until the thread of the engine moves on. -/
def Rested (i : Nat) (c : Traffic) : Prop := c.stage = .returned → (c.world.engine i).queue = []

theorem Rested.move (h : Rested i c) (hm : Move i c c') : Rested i c' := by
  intro hstage
  cases hm with
  | post hi _ =>
    show ((c.world.post i _).engine i).queue = []
    rw [World.post, engine_modifyEngine_self hi]
    exact h hstage
  | finish output ho hs =>
    show ((c.world.finishOperation i _ output true).engine i).queue = []
    rw [engine_finishOperation ho hs]
    exact h hstage
  | idle _ hq => exact hq
  | _ => cases hstage

theorem Booked.reaches (h : Booked i c) (hc : Reaches i c c') : Booked i c' := by
  induction hc with
  | refl => exact h
  | tail _ hm ih => exact ih.move hm

theorem Rested.reaches (h : Rested i c) (hc : Reaches i c c') : Rested i c' := by
  induction hc with
  | refl => exact h
  | tail _ hm ih => exact ih.move hm

theorem Ordered.reaches (h : Ordered u c) (hb : Begun i c) (hc : Reaches i c c') (hw : c'.isWhole = true) :
    Ordered u c' ∧ Begun i c' := by
  induction hc with
  | refl => exact ⟨h, hb⟩
  | tail _ hm ih =>
    obtain ⟨ho, hb⟩ := ih (hm.isWhole hw)
    exact ⟨ho.move hm hw, hb.move ho hm hw⟩

/-- The batch is applied in one go where nobody posts. -/
theorem reaches_batch {due : List Post} (hstage : c.stage = .batch due) :
    ∃ c', Reaches i c c' ∧ c'.stage = .loop ∧ c'.posted = c.posted ∧
      c'.world = due.foldl (fun w p => w.applyPost i p) c.world := by
  induction due generalizing c with
  | nil => exact ⟨_, .single (.applied hstage), rfl, rfl, rfl⟩
  | cons p due ih =>
    obtain ⟨c', hreaches, hloop, hposted, hworld⟩ := ih (c := c.apply i p due) rfl
    exact ⟨c', .head (.apply hstage) hreaches, hloop, hposted, hworld⟩

/-- The inbox is drained in one go where nobody posts. -/
theorem reaches_drain (hstage : c.stage = .drain) :
    ∃ c', Reaches i c c' ∧ c'.stage = .loop ∧ c'.posted = c.posted ∧ c'.world = c.world.drainInbox i := by
  obtain ⟨c', hreaches, hloop, hposted, hworld⟩ := reaches_batch (i := i) (c := c.collect i) rfl
  exact ⟨c', .head (.collect hstage) hreaches, hloop, hposted, hworld⟩

/-- A turn is among the moves. -/
theorem reaches_turn {f : Nat} {others : List Nat} (hstage : c.stage = .loop) (hq : (c.world.engine i).queue = f :: others)
    (hready : ((c.world.engine i).fiber f).isReady = true)
    (ht : (turn i f).runOn (c.world.modifyEngine i fun e => { e with queue := others }) = (.ok (), v)) :
    ∃ c', Reaches i c c' ∧ c'.stage = .loop ∧ c'.posted = c.posted ∧ c'.world = v := by
  generalize hs : (Play.step i f).runOn (atWork i f others c.world) = p
  obtain ⟨out, s⟩ := p
  have hout : ∀ e, out = .error e → e.isNode = true := by
    rintro e rfl
    apply Decidable.byContradiction
    intro he
    cases (turn_escaped (Bool.not_eq_true _ ▸ he) hs).symm.trans ht
  cases (turn_noted hs hout).symm.trans ht
  cases hrest : ((noted i f out s).engine i).fiber f |>.isReady with
  | true =>
    refine ⟨_, .single (.stay hstage hq hready hs hout hrest), rfl, rfl, ?_⟩
    rw [rest_eq, if_pos hrest]
    rfl
  | false =>
    obtain ⟨c', hreaches, hloop, hposted, hworld⟩ :=
      reaches_drain (i := i) (c := c.advance i (Play.cede i f (noted i f out s)) .drain) rfl
    refine ⟨c', .head (.cede hstage hq hready hs hout hrest) hreaches, hloop, hposted, hworld.trans ?_⟩
    rw [rest_eq, if_neg (by simp [hrest])]
    rfl

/-- The loop of a run is among the moves. -/
theorem reaches_drains {m : Int} {s : Nat} {acts : List Act} {out : Except Failure Nat} (h : Drains i m s w acts out v)
    (hstage : c.stage = .loop) (hworld : c.world = w) :
    ∃ c', Reaches i c c' ∧ c'.Free ∧ c'.posted = c.posted ∧ c'.world = v := by
  induction h generalizing c with
  | idle hq =>
    subst hworld
    exact ⟨_, .single (.idle hstage hq), .inr rfl, rfl, rfl⟩
  | @limit s _ hq _ =>
    subst hworld
    exact ⟨_, .single (.limit s hstage hq), .inl rfl, rfl, rfl⟩
  | @pop s f w v others acts out _ hq hidle _ ih =>
    subst hworld
    obtain ⟨c', hreaches, hloop, hposted, hdrained⟩ :=
      reaches_drain (i := i) (c := c.advance i (Play.pop i f others c.world) .drain) rfl
    obtain ⟨c'', hreaches', hfree, hposted', hend⟩ := ih hloop hdrained
    exact ⟨c'', (Relation.ReflTransGen.head (.pop hstage hq hidle) hreaches).trans hreaches', hfree, hposted'.trans hposted, hend⟩
  | turn _ hq hready _ ht _ ih =>
    subst hworld
    obtain ⟨c', hreaches, hloop, hposted, hturned⟩ := reaches_turn hstage hq hready ht
    obtain ⟨c'', hreaches', hfree, hposted', hend⟩ := ih hloop hturned
    exact ⟨c'', hreaches.trans hreaches', hfree, hposted'.trans hposted, hend⟩
  | @escape s f w v others a e _ hq hready _ ht =>
    subst hworld
    obtain ⟨he, s, hs, rfl⟩ := turn_eq_error ht
    exact ⟨_, .single (.escape hstage hq hready hs he), .inl rfl, rfl, rfl⟩

/-- A run with any limits is among the moves. -/
theorem reaches_run (hfree : c.Free) (maxSteps : Option Int) (maxSeconds : Option Double) :
    ∃ c', Reaches i c c' ∧ c'.Free ∧ c'.posted = c.posted ∧ c'.world = ((run i maxSteps maxSeconds).runOn c.world).2 := by
  obtain ⟨c', hreaches, hloop, hposted, hdrained⟩ := reaches_drain (i := i) (c := { c with stage := .drain }) rfl
  rw [run, runOn_bind, runOn_modify]
  dsimp only
  rw [runOn_get]
  generalize budget _ maxSteps maxSeconds = n
  obtain ⟨acts, h⟩ := drains_drain (i := i) (m := n) (t := 0) (n := n) (Onward.inbox_drainInbox c.world i) (by simp)
  obtain ⟨c'', hreaches', hfree', hposted', hend⟩ := reaches_drains h hloop hdrained
  exact ⟨c'', (Relation.ReflTransGen.head (.enter hfree) hreaches).trans hreaches', hfree', hposted'.trans hposted, hend⟩

/-- Whatever a host does is among the moves. -/
theorem reaches_deed (hfree : c.Free) (hd : Deed c.world v) :
    v = c.world.drainInbox i ∨ ∃ c', Reaches i c c' ∧ c'.Free ∧ c'.world = v := by
  rcases hd.untapped i with ⟨p, hp, rfl⟩ | ⟨o, output, rfl⟩ | hdrained | huntapped
  · refine .inr ?_
    by_cases hi : i < c.world.engines.size
    · exact ⟨_, .single (.post c hi hp), hfree, rfl⟩
    · exact ⟨c, .refl, hfree, by rw [World.post, modifyEngine_out hi]⟩
  · refine .inr ?_
    by_cases ho : o < (c.world.engine i).operations.size ∧ ((c.world.engine i).operation o).isSettled = false
    · exact ⟨_, .single (.finish c output ho.1 ho.2), hfree, rfl⟩
    · refine ⟨c, .refl, hfree, ?_⟩
      rw [World.finishOperation]
      simp only
      split
      · rfl
      · rename_i hopen
        simp only [Bool.or_eq_true, decide_eq_true_eq, not_or, Bool.not_eq_true, Nat.not_le] at hopen
        exact absurd ⟨hopen.1.1, by simp [Operation.isSettled, hopen.1.2, hopen.2]⟩ ho
  · exact .inl hdrained
  · exact .inr ⟨_, .single (.deed hfree hd huntapped), .inl rfl, rfl⟩

/-- Where the types of data inputs are known no failure escapes. -/
theorem Ordered.isWhole (h : Ordered u c) (hT : c.world.Typed) (hw : c.isWhole = true) (hm : Move i c c') : c'.isWhole = true := by
  cases hm with
  | @escape f others e s _ hq _ hs he =>
    have hnode := (h.inOrder.take hq).isNode_step (hT.outlined ((show Outlined c.world c.world from rfl).frame rfl)) (e := e)
      (congrArg Prod.fst hs)
    rw [hnode] at he
    cases he
  | _ => exact hw

end Moves

/-- All that was posted before the inbox was last drained has been applied, in that order, and the fibers that were begun by
it have run. -/
def Settled (i : Nat) (c : Traffic) : Prop :=
  ∀ n, n < c.drained → ∃ p first last, c.posted[n]? = some p ∧ c.past[n]? = some (p, .applied first last) ∧
    ∀ k, first ≤ k → k < last →
      k < (c.world.engine i).fibers.size ∧ (((c.world.engine i).fiber k).finished = true ∨ (c.world.engine i).Discarded k)

/-- When a run returns with an empty queue, everything that was applied before has come to its end. -/
theorem settled_of_returned {i : Nat} {u : World} {c : Traffic} (h : Booked i c) (ho : Ordered u c) (hb : Begun i c)
    (hq : (c.world.engine i).queue = []) (hstage : c.stage = .returned) (hopen : (c.world.engine i).isDisposed = false) :
    c.Settled i := by
  intro n hn
  have hexact := h.exact hopen
  rw [due_of_stage hstage, show Stage.returned.due = [] from rfl, List.length_nil, Nat.add_zero] at hexact
  have hlt : n < c.past.length := by omega
  have hmem : c.past[n] ∈ c.past := List.getElem_mem hlt
  have hposted : c.posted[n]? = some c.past[n].1 := by
    rw [h.order, List.getElem?_append_left (by simpa using hlt)]
    simp [hlt]
  cases hfate : c.past[n].2 with
  | cleared =>
    rw [h.cleared _ hmem hfate] at hopen
    cases hopen
  | applied first last =>
    refine ⟨c.past[n].1, first, last, hposted, ?_, fun k _ hk => ?_⟩
    · rw [List.getElem?_eq_getElem hlt, ← hfate]
    · have hlast := Nat.lt_of_lt_of_le hk (hb _ hmem first last hfate)
      exact ⟨hlast, ((ho.inOrder.atRest_engine i).sound hopen).ended hq k hlast⟩

/-- What the ledger says at any moment. -/
structure Marshalled (i : Nat) (c : Traffic) : Prop where
  /-- What was posted is what is past, each applied or cleared once and in that order, then what is left of the batch, then
  what is in the inbox. -/
  order : c.posted = c.past.map (·.1) ++ (c.due ++ (c.world.engine i).inbox)
  /-- Only who disposes of the engine clears anything. -/
  cleared : (∃ p, (p, .cleared) ∈ c.past) → (c.world.engine i).isDisposed = true
  /-- What has come since the inbox was last drained is still there. -/
  later : (c.world.engine i).isDisposed = false → (c.world.engine i).inbox = c.posted.drop c.drained
  /-- After a run that left nothing in the queue. -/
  settled : c.stage = .returned → c.isWhole = true → (c.world.engine i).isDisposed = false → c.Settled i
  whole : c.isWhole = true → c.world.Typed → ∀ c', Move i c c' → c'.isWhole = true
  run : c.Free → ∀ maxSteps maxSeconds, ∃ c', Reaches i c c' ∧ c'.Free ∧ c'.posted = c.posted ∧
    c'.world = ((Play.run i maxSteps maxSeconds).runOn c.world).2
  deed : c.Free → ∀ v, Deed c.world v → v = c.world.drainInbox i ∨ ∃ c', Reaches i c c' ∧ c'.Free ∧ c'.world = v

/-- Nothing is lost or duplicated on the way from other threads, in whatever order the threads take their steps. -/
theorem marshalled {u w : World} {i : Nat} {c : Traffic} (he : u.engines = #[]) (hd : u.disposers = []) (hw : Passage u w)
    (hi : (w.engine i).inbox = []) (hc : Reaches i { world := w } c) : c.Marshalled i := by
  have hbooked := (Booked.start hi).reaches hc
  have hrested : Rested i c := Rested.reaches (fun hstage => by cases hstage) hc
  have hordered (hwhole : c.isWhole = true) : Ordered u c ∧ Begun i c :=
    Ordered.reaches (.of_idle ((InOrder.start he hd).passage hw) rfl) (fun _ hx => absurd hx List.not_mem_nil) hc hwhole
  refine ⟨hbooked.order, ?_, ?_, ?_, ?_, ?_, ?_⟩
  · rintro ⟨p, hp⟩
    exact hbooked.cleared _ hp rfl
  · intro hopen
    have hexact := hbooked.exact hopen
    rw [hbooked.order, ← List.append_assoc, List.drop_left']
    rw [List.length_append, List.length_map, hexact]
  · intro hstage hwhole hopen
    obtain ⟨ho, hb⟩ := hordered hwhole
    exact settled_of_returned hbooked ho hb (hrested hstage) hstage hopen
  · exact fun hwhole hT c' hm => (hordered hwhole).1.isWhole hT hwhole hm
  · exact fun hfree maxSteps maxSeconds => reaches_run hfree maxSteps maxSeconds
  · exact fun hfree v hd => reaches_deed hfree hd

end Traffic

namespace Errand

def wire : Wire := ⟨⟨"go", "exec", "done", "exec"⟩, 0⟩

/-- A path of one node, which has the given data inputs besides. -/
def graph (data : List Socket) : Graph where
  arena := #[
    { id := "go", definition := { typeName := "Go", behaviour := .event none }
      outputs := [{ name := "exec", valueType := ValueType.flowName, wires := [wire] }] },
    { id := "done", definition := { typeName := "Done", behaviour := .flow (some (.script [])) }
      inputs := { name := "exec", valueType := ValueType.flowName, wires := [wire] } :: data }]
  ids := ⟨[("go", 0), ("done", 1)]⟩
  wires := [wire]
  ends := #[some ⟨⟨0, 0⟩, ⟨1, 0⟩⟩]

def bare (data : List Socket) : World := { graphs := #[graph data] }

def made (data : List Socket) : World := ((makeEngine "main" [⟨0, 0⟩, ⟨0, 1⟩] {}).runOn (bare data)).2

/-- Another thread starts the path. -/
def call : Post := .begin ⟨0, 0⟩ "exec" none []

theorem free_call : call.Free := fun _ hl => by cases hl

open Traffic

/-- The call has been posted, and a run has applied it. -/
def applied (data : List Socket) : Traffic :=
  (({ world := made data : Traffic }.receive call ((made data).post 0 call)).collect 0).apply 0 call []

def looping (data : List Socket) : Traffic := { applied data with stage := .loop }

theorem passage_made (data : List Socket) : Passage (bare data) (made data) := (Passage.refl _).deed (.makeEngine ..)

theorem reaches_looping (data : List Socket) : Reaches 0 { world := made data } (looping data) := by
  have hposted : Reaches 0 { world := made data } ({ world := made data : Traffic }.receive call ((made data).post 0 call)) :=
    .single (.post _ (Nat.one_pos : 0 < (made data).engines.size) free_call)
  have hcollected := (hposted.tail (.enter (.inl rfl))).tail (.collect rfl)
  have happlied : Reaches 0 { world := made data } (applied data) := hcollected.tail (.apply rfl)
  exact happlied.tail (.applied rfl)

/-- The turn of the fiber is over, and the thread of the engine is on the way to the inbox. -/
def ceded : Traffic :=
  (looping []).advance 0 (Play.cede 0 0 (noted 0 0 (.ok ()) ((Play.step 0 0).runOn (atWork 0 0 [] (looping []).world)).2)) .drain

/-- The inbox has been drained, another call comes, and the run returns. -/
def returned : Traffic :=
  let c : Traffic := { ceded.collect 0 with stage := .loop }
  { c.receive call (c.world.post 0 call) with stage := .returned }

theorem reaches_returned : Reaches 0 { world := made [] } returned := by
  have hturned : Move 0 (looping []) ceded := by
    refine @Move.cede 0 (looping []) 0 [] (.ok ()) _ rfl ?_ ?_ rfl ?_ ?_
    · rfl
    · rfl
    · exact fun e he => by cases he
    · rfl
  have hdrained : Reaches 0 { world := made [] } { ceded.collect 0 with stage := .loop } :=
    (((reaches_looping []).tail hturned).tail (.collect rfl)).tail (.applied rfl)
  exact (hdrained.tail (.post _ (Nat.one_pos : 0 < (ceded.collect 0).world.engines.size) free_call)).tail (.idle rfl rfl)

/-- The run breaks off before the first step, the engine is disposed of, and another run returns. -/
def abandoned : Traffic :=
  let c : Traffic := { looping [] with stage := .apart, world := (looping []).world.record (.limited 0 1) }
  { (({ c.advance 0 ((Play.dispose 0).runOn c.world).2 .apart with stage := .drain } : Traffic).collect 0) with
    stage := .returned }

theorem reaches_abandoned : Reaches 0 { world := made [] } abandoned := by
  have hlimit : Move 0 (looping []) { looping [] with stage := .apart, world := (looping []).world.record (.limited 0 1) } :=
    .limit 0 rfl (by decide)
  have hdisposed := ((reaches_looping []).tail hlimit).tail (.deed (.inl rfl) (.dispose _ 0) (.dispose _ 0 0))
  have hcollected := (hdisposed.tail (.enter (.inl rfl))).tail (.collect rfl)
  exact (hcollected.tail (.applied rfl)).tail (.idle rfl rfl)

/-- The node has a data input of a type that nobody has registered, so that the run is ended by a failure that is no node's. -/
def odd : List Socket := [{ name := "datum", valueType := "nope" }]

def lost : World := ((Play.step 0 0).runOn (atWork 0 0 [] (looping odd).world)).2

/-- After the failure another run returns. -/
def escaped : Traffic :=
  let c : Traffic :=
    { (looping odd).advance 0 (lost.modifyEngine 0 fun e => { e with current := none }) .apart with isWhole := false }
  { (({ c with stage := .drain } : Traffic).collect 0) with stage := .returned }

theorem reaches_escaped : Reaches 0 { world := made odd } escaped := by
  have hescaped : Move 0 (looping odd)
      { (looping odd).advance 0 (lost.modifyEngine 0 fun e => { e with current := none }) .apart with isWhole := false } := by
    refine @Move.escape 0 (looping odd) 0 [] (.integrity (.unknownValueType "nope")) lost rfl ?_ ?_ rfl ?_
    · rfl
    · rfl
    · rfl
  have hcollected := (((reaches_looping odd).tail hescaped).tail (.enter (.inl rfl))).tail (.collect rfl)
  exact (hcollected.tail (.applied rfl)).tail (.idle rfl rfl)

end Errand

open Errand in
/-- A call that comes after the last drain is kept for the next one, and the call before it has run. -/
theorem Traffic.marshalled_errand : returned.Settled 0 ∧ (returned.world.engine 0).inbox = [call] := by
  have h := Traffic.marshalled rfl rfl (passage_made []) rfl reaches_returned
  exact ⟨h.settled rfl rfl (by decide), h.later (by decide)⟩

theorem Traffic.not_settled_of_unfinished {i n k first last : Nat} {c : Traffic} {p : Post} (hn : n < c.drained)
    (hp : c.past[n]? = some (p, .applied first last)) (hfirst : first ≤ k) (hlast : k < last)
    (hopen : ((c.world.engine i).fiber k).finished = false) (hblank : ¬ ((c.world.engine i).fiber k).Blank) : ¬ c.Settled i := by
  intro h
  obtain ⟨p', first', last', -, hp', hended⟩ := h n hn
  cases Option.some.inj (hp'.symm.trans hp)
  rcases (hended k hfirst hlast).2 with hfinished | hdiscarded
  · rw [hopen] at hfinished
    cases hfinished
  · exact hblank hdiscarded.blank

open Errand in
/-- A run may return without hitting a limit while a fiber that was begun has not run: if the engine was disposed of meanwhile,
or if a failure that was no node's has taken the fiber away before. -/
theorem Traffic.not_settled_abandoned :
    (Reaches 0 { world := made [] } abandoned ∧ abandoned.stage = .returned ∧ abandoned.isWhole = true ∧ ¬ abandoned.Settled 0) ∧
      Reaches 0 { world := made odd } escaped ∧ escaped.stage = .returned ∧
        (escaped.world.engine 0).isDisposed = false ∧ ¬ escaped.Settled 0 := by
  refine ⟨⟨reaches_abandoned, rfl, rfl, ?_⟩, reaches_escaped, rfl, by decide, ?_⟩
  · refine @not_settled_of_unfinished 0 0 0 0 1 _ call (by decide) rfl (Nat.le_refl 0)
      Nat.one_pos (by decide) fun hb => ?_
    exact absurd hb.next (by decide)
  · refine @not_settled_of_unfinished 0 0 0 0 1 _ call (by decide) rfl (Nat.le_refl 0)
      Nat.one_pos (by decide) fun hb => ?_
    exact absurd hb.steps (by decide)

end FlowGraph
