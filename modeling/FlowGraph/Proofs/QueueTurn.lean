import FlowGraph.Proofs.FiberCall

/-!
One turn of the queue. The fiber at its head makes its call; then it waits for its children, stays in front
or is over. Main result: the turn realises the call of the structured semantics.
-/
namespace FlowGraph

open World Play Engine

/-- The engine is in use, no other thread has posted anything, and what is to be undone is bound to no fiber. -/
structure Sound (i : Nat) (w : World) : Prop where
  inside : i < w.engines.size
  alive : (w.engine i).isDisposed = false
  inbox : (w.engine i).inbox = []
  nodes : ∀ p ∈ w.disposers, p.2.Free
  operations : ∀ j, ∀ op ∈ (w.engine j).operations, ∀ d ∈ op.disposers, d.Free

/-- A change of the engine that leaves alone what has to hold. -/
theorem Sound.modifyEngine {i : Nat} {w : World} (h : Sound i w) {g : Engine → Engine}
    (hdisposed : ∀ e, (g e).isDisposed = e.isDisposed) (hinbox : ∀ e, (g e).inbox = e.inbox)
    (hop : ∀ e, (g e).operations = e.operations) : Sound i (w.modifyEngine i g) := by
  have he : (w.modifyEngine i g).engine i = g (w.engine i) := engine_modifyEngine_self h.inside g
  refine ⟨by simpa using h.inside, ?_, ?_, h.nodes, ?_⟩
  · rw [he, hdisposed, h.alive]
  · rw [he, hinbox, h.inbox]
  · intro j
    rw [engine_modifyEngine]
    split
    · rw [hop]
      exact h.operations j
    · exact h.operations j

/-- Between two turns of the engine. -/
structure Between (i : Nat) (w : World) : Prop extends Sound i w where
  current : (w.engine i).current = none

theorem Sound.between {i : Nat} {w : World} (h : Sound i w) {g : Engine → Engine}
    (hdisposed : ∀ e, (g e).isDisposed = e.isDisposed) (hinbox : ∀ e, (g e).inbox = e.inbox)
    (hop : ∀ e, (g e).operations = e.operations) (hcurrent : (g (w.engine i)).current = none) :
    Between i (w.modifyEngine i g) := by
  refine ⟨h.modifyEngine hdisposed hinbox hop, ?_⟩
  rw [engine_modifyEngine_self h.inside]
  exact hcurrent

/-- The fiber is at the head of the queue and has nobody to wait for. -/
structure Ready (i f : Nat) (others : List Nat) (w : World) : Prop where
  between : Between i w
  queue : (w.engine i).queue = f :: others
  fiber : f < (w.engine i).fibers.size
  pending : ((w.engine i).fiber f).pending = 0
  finished : ((w.engine i).fiber f).finished = false
  isAborted : ((w.engine i).fiber f).isAborted = false
  fits : ∀ l ∈ ((w.engine i).fiber f).listeners, l.2.Fits i f
  held : (w.engine i).Held f

namespace Fiber

variable {f : Fiber}

/-- A fiber that waits for nobody is over when it has no call to make. -/
theorem isComplete_of_idle (hp : f.pending = 0) (ha : f.isAborted = false) : f.isComplete = f.act?.isNone := by
  cases hn : f.next with
  | some route => simp [isComplete, act?, hn, ha]
  | none => cases hl : f.listeners <;> simp [isComplete, act?, hn, hl, ha, hp]

theorem isReady_of_idle (hp : f.pending = 0) (ha : f.isAborted = false) : f.isReady = f.act?.isSome := by
  rw [isReady, isComplete_of_idle hp ha, isWaiting, hp]
  cases f.act? <;> rfl

theorem not_isComplete (hp : f.pending ≠ 0) (ha : f.isAborted = false) : f.isComplete = false := by
  simp [isComplete, ha, hp]

theorem not_isReady (hp : f.pending ≠ 0) : f.isReady = false := by
  have hpos : 0 < f.pending := by omega
  simp [isReady, isWaiting, hpos]

end Fiber

/-- The fiber waits for the children that are in front of the queue and have not had their turn. -/
structure Parted (i f : Nat) (ks others : List Nat) (w : World) : Prop where
  between : Between i w
  queue : (w.engine i).queue = ks ++ others
  fiber : f < (w.engine i).fibers.size
  inside : ∀ k ∈ ks, k < (w.engine i).fibers.size
  fresh : ∀ k ∈ ks, Fresh f ((w.engine i).fiber k)
  nodup : ks.Nodup
  apart : f ∉ ks
  pending : ((w.engine i).fiber f).pending = ks.length
  finished : ((w.engine i).fiber f).finished = false
  isAborted : ((w.engine i).fiber f).isAborted = false
  fits : ∀ l ∈ ((w.engine i).fiber f).listeners, l.2.Fits i f
  held : (w.engine i).Held f
  above : ∀ p, ((w.engine i).fiber f).parent = some p → p ∉ ks

/-- Where a turn of the fiber has left the engine that was `a` before it. -/
inductive Turned (i f : Nat) (others : List Nat) (a : Engine) (v : World) : Prop
  | parted (stretch : Stretch (· = f) a (v.engine i)) (split : (v.engine i).kids f a.fibers.size ≠ [])
      (state : Parted i f ((v.engine i).kids f a.fibers.size) (others ++ (v.engine i).groups a.fibers.size) v)
  | ready (stretch : Stretch (· = f) a (v.engine i)) (whole : (v.engine i).kids f a.fibers.size = [])
      (state : Ready i f (others ++ (v.engine i).groups a.fibers.size) v)
  | ended (whole : (v.engine i).kids f a.fibers.size = []) (idle : ((v.engine i).fiber f).act? = none)
      (between : Between i v) (state : Over f others a (v.engine i))

namespace Play

variable {i f : Nat} {w : World}

theorem rest_ready (h : ((w.engine i).fiber f).isReady = true) :
    rest w i f = w.modifyEngine i fun e => { e with queue := f :: e.queue, current := none } := by
  simp [rest, h]

theorem rest_waiting (hready : ((w.engine i).fiber f).isReady = false)
    (hopen : ((w.engine i).fiber f).isComplete = false) (hb : Sound i w) :
    rest w i f = w.modifyEngine i fun e => { e with current := none } := by
  simp only [rest, hready, hopen, Bool.false_eq_true, if_false]
  apply drainInbox_eq
  rw [engine_modifyEngine_self hb.inside]
  exact hb.inbox

theorem rest_over (hover : ((w.engine i).fiber f).isComplete = true) (hb : Sound i w) :
    rest w i f = w.modifyEngine i fun e => { e.finish f with current := none } := by
  have hready : ((w.engine i).fiber f).isReady = false := by simp [Fiber.isReady, hover]
  have heq : (w.modifyEngine i (·.finish f)).modifyEngine i (fun e => { e with current := none }) =
      w.modifyEngine i fun e => { e.finish f with current := none } := by
    rw [modifyEngine, modifyEngine, modify_modify]
    rfl
  simp only [rest, hready, hover, Bool.false_eq_true, if_false, if_true, heq]
  apply drainInbox_eq
  rw [engine_modifyEngine_self hb.inside, Engine.finish_frame]
  exact hb.inbox

end Play

theorem alike_rest {i f : Nat} {w : World} (hb : Sound i w) : Alike i (rest w i f) w := by
  by_cases hover : ((w.engine i).fiber f).isComplete = true
  · rw [rest_over hover hb]
    exact (Alike.refl i w).arrange fun e => core_finish e f
  · by_cases hready : ((w.engine i).fiber f).isReady = true
    · rw [rest_ready hready]
      exact (Alike.refl i w).arrange fun _ => rfl
    · rw [rest_waiting (by simpa using hready) (by simpa using hover) hb]
      exact (Alike.refl i w).arrange fun _ => rfl

theorem Sound.between_finish {i : Nat} {v : World} (h : Sound i v) (f : Nat) :
    Between i (v.modifyEngine i fun e => { e.finish f with current := none }) :=
  h.between (fun e => by rw [finish_frame]) (fun e => by rw [finish_frame]) (fun e => by rw [finish_frame]) rfl

/-- The fiber has made its call, and its turn is not over yet. The engine was `a` before the call. -/
structure Afoot (i f : Nat) (others : List Nat) (a : Engine) (v : World) : Prop where
  sound : Sound i v
  called : Called i f a (v.engine i)
  queue : a.queue = others
  fiber : f < a.fibers.size
  pending : (a.fiber f).pending = 0
  finished : (a.fiber f).finished = false
  isAborted : (a.fiber f).isAborted = false
  held : a.Held f

namespace Afoot

variable {i f : Nat} {others : List Nat} {a : Engine} {v : World}

theorem inside (h : Afoot i f others a v) : f < (v.engine i).fibers.size :=
  Nat.lt_of_lt_of_le h.fiber h.called.stretch.kept.size

theorem unfinished (h : Afoot i f others a v) : ((v.engine i).fiber f).finished = false :=
  h.called.finished.trans h.finished

theorem running (h : Afoot i f others a v) : ((v.engine i).fiber f).isAborted = false :=
  h.called.isAborted.trans h.isAborted

theorem stillHeld (h : Afoot i f others a v) : (v.engine i).Held f :=
  h.held.of_kept h.called.stretch.kept h.fiber fun p hp => (h.held p hp).2.1

theorem awaited (h : Afoot i f others a v) :
    ((v.engine i).fiber f).pending = ((v.engine i).kids f a.fibers.size).length := by
  rw [h.called.pending, h.pending, Nat.zero_add]

theorem queued (h : Afoot i f others a v) : (v.engine i).queue =
    (v.engine i).kids f a.fibers.size ++ (others ++ (v.engine i).groups a.fibers.size) := by
  rw [h.called.queue, h.queue, List.append_assoc]

theorem counted (h : Afoot i f others a v) :
    Afoot i f others a (v.modifyEngine i fun e => { e with steps := e.steps + 1 }) := by
  refine ⟨h.sound.modifyEngine (fun _ => rfl) (fun _ => rfl) fun _ => rfl, ?_, h.queue, h.fiber, h.pending,
    h.finished, h.isAborted, h.held⟩
  rw [engine_modifyEngine_self h.sound.inside]
  exact h.called.congr rfl rfl rfl

theorem report (h : Afoot i f others a v) (e : Failure) : Afoot i f others a (v.report i e) := by
  have hsame := same_report v i i e
  have hlocal := Local.report v i e
  refine ⟨?_, h.called.congr hsame.fibers hsame.queue hsame.inbox, h.queue, h.fiber, h.pending,
    h.finished, h.isAborted, h.held⟩
  refine ⟨by rw [hlocal.size]; exact h.sound.inside, ?_, by rw [hsame.inbox]; exact h.sound.inbox,
    by rw [hlocal.disposers]; exact h.sound.nodes, ?_⟩
  · rw [engine_congr (engines_report v i e), engine_modifyEngine_self h.sound.inside]
    exact h.sound.alive
  · intro j
    rw [hlocal.operations]
    exact h.sound.operations j

/-- It has split: it waits for its children. -/
theorem parted (h : Afoot i f others a v) (hkids : (v.engine i).kids f a.fibers.size ≠ []) :
    Turned i f others a (rest v i f) := by
  have hpos : ((v.engine i).fiber f).pending ≠ 0 := by
    rw [h.awaited]
    exact fun hlen => hkids (List.length_eq_zero_iff.1 hlen)
  have heq := rest_waiting (Fiber.not_isReady hpos) (Fiber.not_isComplete hpos h.running) h.sound
  have he : (rest v i f).engine i = { v.engine i with current := none } := by
    rw [heq, engine_modifyEngine_self h.sound.inside]
  refine .parted (h.called.stretch.congr rfl (by rw [he])) (by rw [he]; exact hkids) ?_
  refine ⟨?_, ?_, ?_, ?_, ?_, ?_, ?_, ?_, ?_, ?_, ?_, ?_, ?_⟩
  · rw [heq]
    exact h.sound.between (fun _ => rfl) (fun _ => rfl) (fun _ => rfl) rfl
  all_goals rw [he]
  · exact h.queued
  · exact h.inside
  · intro k hk
    exact (mem_kids.1 hk).2.1
  · exact h.called.fresh
  · exact nodup_kids _ _ _
  · intro hk
    have := (mem_kids.1 hk).1
    have := h.fiber
    omega
  · exact h.awaited
  · exact h.unfinished
  · exact h.running
  · exact h.called.fits
  · exact h.stillHeld.congr rfl
  · intro p hp hk
    have hp' : (a.fiber f).parent = some p := by
      rw [← h.called.stretch.kept.parent f h.fiber]
      exact hp
    have := (mem_kids.1 hk).1
    have := (h.held p hp').1
    omega

/-- It has more calls to make: it stays in front. -/
theorem ready (h : Afoot i f others a v) (hkids : (v.engine i).kids f a.fibers.size = [])
    (hact : ((v.engine i).fiber f).act? ≠ none) : Turned i f others a (rest v i f) := by
  have hpending : ((v.engine i).fiber f).pending = 0 := by rw [h.awaited, hkids, List.length_nil]
  have hready : ((v.engine i).fiber f).isReady = true := by
    rw [Fiber.isReady_of_idle hpending h.running]
    exact Option.isSome_iff_ne_none.2 hact
  have he : (rest v i f).engine i = { v.engine i with queue := f :: (v.engine i).queue, current := none } := by
    rw [rest_ready hready, engine_modifyEngine_self h.sound.inside]
  refine .ready (h.called.stretch.congr rfl (by rw [he])) (by rw [he]; exact hkids) ?_
  refine ⟨?_, ?_, ?_, ?_, ?_, ?_, ?_, ?_⟩
  · rw [rest_ready hready]
    exact h.sound.between (fun _ => rfl) (fun _ => rfl) (fun _ => rfl) rfl
  · rw [he, h.queued, hkids]
    rfl
  all_goals rw [he]
  · exact h.inside
  · exact hpending
  · exact h.unfinished
  · exact h.running
  · exact h.called.fits
  · exact h.stillHeld.congr rfl

/-- It has no more calls to make: it is over. -/
theorem ended (h : Afoot i f others a v) (hkids : (v.engine i).kids f a.fibers.size = [])
    (hact : ((v.engine i).fiber f).act? = none) : Turned i f others a (rest v i f) := by
  have hpending : ((v.engine i).fiber f).pending = 0 := by rw [h.awaited, hkids, List.length_nil]
  have hover : ((v.engine i).fiber f).isComplete = true := by
    rw [Fiber.isComplete_of_idle hpending h.running, hact]
    rfl
  have heq := rest_over hover h.sound
  have he : (rest v i f).engine i = { (v.engine i).finish f with current := none } := by
    rw [heq, engine_modifyEngine_self h.sound.inside]
  have hal := alike_rest (f := f) h.sound
  have hqueue := h.queued
  rw [hkids, List.nil_append] at hqueue
  refine .ended ?_ ?_ ?_ ?_
  · rw [hal.kids]
    exact hkids
  · rw [hal.next_act?]
    exact hact
  · rw [heq]
    exact h.sound.between_finish f
  · rw [he]
    exact (Over.of_finish h.called.stretch h.fiber hqueue h.unfinished h.held).congr rfl rfl rfl

theorem turned (h : Afoot i f others a v) : Turned i f others a (rest v i f) := by
  by_cases hkids : (v.engine i).kids f a.fibers.size = []
  · by_cases hact : ((v.engine i).fiber f).act? = none
    · exact h.ended hkids hact
    · exact h.ready hkids hact
  · exact h.parted hkids

/-- A failure of its own ends the fiber; the children into which it has split stay in the queue. -/
theorem aborted (h : Afoot i f others a v) {u : World}
    (hu : u = v.modifyEngine i fun e => { e with steps := e.steps + 1 }.abort f) :
    Sound i u ∧ rest u i f = (u.modifyEngine i fun e => { e.finish f with current := none }) ∧
      (rest u i f).engine i = { u.engine i with current := none } ∧
      Over f ((v.engine i).kids f a.fibers.size ++ others) a (u.engine i) ∧
      (u.engine i).kids f a.fibers.size = (v.engine i).kids f a.fibers.size ∧
      (u.engine i).fiber f = { (v.engine i).fiber f with isAborted := true, next := none, listeners := [] }.closed := by
  have hue : u.engine i = { v.engine i with steps := (v.engine i).steps + 1 }.abort f := by
    rw [hu, engine_modifyEngine_self h.sound.inside]
  have hqueue := h.queued
  rw [← List.append_assoc] at hqueue
  obtain ⟨hover, hself⟩ := Over.of_abort (e := { v.engine i with steps := (v.engine i).steps + 1 })
    (h.called.stretch.congr rfl rfl) h.fiber hqueue h.unfinished h.held
  rw [← hue] at hover hself
  have hsound : Sound i u := by
    rw [hu]
    refine h.sound.modifyEngine ?_ ?_ ?_ <;>
    · intro x
      rw [abort, finish_frame]
      rfl
  have hrest : rest u i f = u.modifyEngine i fun e => { e.finish f with current := none } := by
    refine rest_over ?_ hsound
    rw [hself]
    rfl
  refine ⟨hsound, hrest, ?_, hover, ?_, hself⟩
  · have hagain : (u.engine i).finish f = u.engine i := by simp [finish, hself, Fiber.closed]
    rw [hrest, engine_modifyEngine_self hsound.inside, hagain]
  · have hkept := kept_modifyFiber (f := f) (a := v.engine i)
      (g := fun x => { x with next := none, listeners := [] }) fun _ => rfl
    rw [hue, kids_of_core (core_abort _ f), ← hkept.kids_of_size (by simp) f h.called.stretch.kept.size]
    exact kids_congr rfl _ _

/-- A failure of a call that has not split the fiber leaves it without calls to make. -/
theorem failed (h : Afoot i f others a v) (hkids : (v.engine i).kids f a.fibers.size = []) {u : World}
    (hu : u = v.modifyEngine i fun e => { e with steps := e.steps + 1 }.abort f) :
    Turned i f others a (rest u i f) ∧ Alike i (rest u i f) (Structured.drop v i f) := by
  obtain ⟨hsound, hrest, hend, hover, hsplit, hself⟩ := h.aborted hu
  rw [hkids, List.nil_append] at hover
  have hal : Alike i (rest u i f) (Structured.drop v i f) := by
    refine (alike_rest hsound).trans ?_
    rw [hu]
    exact Alike.of_core v fun e => core_abort { e with steps := e.steps + 1 } f
  refine ⟨.ended ?_ ?_ ?_ ?_, hal⟩
  · rw [hend, ← hkids, ← hsplit]
    exact kids_congr rfl _ _
  · rw [hend]
    exact congrArg Fiber.act? hself
  · rw [hrest]
    exact hsound.between_finish f
  · rw [hend]
    exact hover.congr rfl rfl rfl

end Afoot

/-- A drain makes the calls of the course and comes to a like world, in which `P` holds; or it ends with the
failure that escapes. -/
def Realises (i : Nat) (w : World) (c : Course) (P : World → Prop) : Prop :=
  match c.escaped with
  | none => ∃ v, Leads i w c.acts v ∧ Alike i v c.world ∧ P v
  | some e => ∃ v, Escapes i w c.acts e v ∧ Alike i v c.world

namespace Realises

variable {i : Nat} {w v : World} {c : Course} {P R : World → Prop}

theorem imp (h : Realises i w c P) (hPR : ∀ v, P v → R v) : Realises i w c R := by
  unfold Realises at h ⊢
  split at h
  · obtain ⟨v, hl, hal, hp⟩ := h
    exact ⟨v, hl, hal, hPR v hp⟩
  · exact h

theorem after {acts : List Act} (hl : Leads i w acts v) (h : Realises i v c P) : Realises i w (c.after acts) P := by
  unfold Realises at h ⊢
  simp only [Course.after]
  split at h
  · obtain ⟨u, hl', hal, hp⟩ := h
    exact ⟨u, hl.trans hl', hal, hp⟩
  · obtain ⟨u, he, hal⟩ := h
    exact ⟨u, hl.ends he, hal⟩

theorem done {r : World} (hal : Alike i w r) (hp : P w) : Realises i w ⟨[], r, none⟩ P :=
  ⟨w, Leads.refl i w, hal, hp⟩

/-- Courses that are realised one after the other are realised as a whole. -/
theorem andThen {x : Option Course} {k : World → Option Course} (hc : Course.andThen x k = some c)
    (hx : ∀ c', x = some c' → Realises i w c' P)
    (hk : ∀ v r c', P v → Alike i v r → k r = some c' → Realises i v c' R) : Realises i w c R := by
  cases x with
  | none => cases hc
  | some c' =>
    have hfirst := hx c' rfl
    obtain ⟨acts, r, escaped⟩ := c'
    cases escaped with
    | some e =>
      simp only [Course.andThen, Option.some.injEq] at hc
      rw [← hc]
      exact hfirst
    | none =>
      obtain ⟨v, hl, hal, hp⟩ := hfirst
      obtain ⟨c₂, hc₂, rfl⟩ := Option.map_eq_some_iff.1 hc
      exact after hl (hk v r c₂ hp hal hc₂)

end Realises

theorem Turned.congr {i f : Nat} {others : List Nat} {a a' : Engine} {v : World} (h : Turned i f others a v)
    (ha : a'.fibers = a.fibers) : Turned i f others a' v := by
  cases h with
  | parted stretch split state =>
    rw [← ha] at split state
    exact .parted (stretch.congr ha rfl) split state
  | ready stretch whole state =>
    rw [← ha] at whole state
    exact .ready (stretch.congr ha rfl) whole state
  | ended whole idle between state =>
    rw [← ha] at whole
    exact .ended whole idle between (state.congr ha rfl rfl)

section Turn

variable {i f : Nat} {others : List Nat} {w r : World} {c : Course}

theorem Alike.unqueued (h : Alike i w r) (others : List Nat) : Alike i (unqueued i others w) r :=
  h.arrange fun _ => rfl

theorem Ready.poised (h : Ready i f others w) : Poised i f (atWork i f others w) := by
  have hunqueued : Sound i (unqueued i others w) := h.between.toSound.modifyEngine (fun _ => rfl) (fun _ => rfl) fun _ => rfl
  have hb : Sound i (atWork i f others w) := hunqueued.modifyEngine (fun _ => rfl) (fun _ => rfl) fun _ => rfl
  have he := engine_atWork h.between.inside f others
  refine ⟨hb.inside, ?_, ?_, hb.inbox, ?_, hb.nodes, hb.operations⟩
  all_goals rw [he]
  · exact h.fiber
  · exact h.fits

/-- Its call goes as it does in a like world, and its turn is not over yet. -/
theorem Ready.step (h : Ready i f others w) (hal : Alike i w r) (hact : ((w.engine i).fiber f).act? ≠ none)
    {out : Except Failure Unit} {s : World} (hr : (Structured.call i f).runOn r = (out, s))
    (hs : (s.engine i).isDisposed = false) : ∃ v, (Play.step i f).runOn (atWork i f others w) = (out, v) ∧
      Alike i v s ∧ Afoot i f others ((atWork i f others w).engine i) v := by
  have he := engine_atWork h.between.inside f others
  have hunqueued := hal.unqueued others
  have hal' : Alike i (atWork i f others w) r := hunqueued.arrange fun _ => rfl
  have hp := h.poised
  obtain ⟨heq, hal'', hst⟩ := call_spec hp hal' (by rw [he]; exact hact)
  rw [← step_eq_call hp.inside hp.fiber (by rw [he]; exact h.pending) (by rw [he]; exact h.isAborted)] at heq hal'' hst
  rw [hr] at heq hal''
  have hout : ((Play.step i f).runOn (atWork i f others w)).1 = out := heq
  refine ⟨((Play.step i f).runOn (atWork i f others w)).2, by rw [← hout], hal'', ?_⟩
  have halive : (((Play.step i f).runOn (atWork i f others w)).2.engine i).isDisposed = false := by
    rw [hal''.isDisposed]
    exact hs
  have hcalled := hst.engine.resolve_left (by rw [halive]; exact Bool.false_ne_true)
  refine ⟨⟨hst.inside, halive, hcalled.inbox, hst.nodes, hst.operations⟩, hcalled, ?_, ?_, ?_, ?_, ?_, ?_⟩
  all_goals rw [he]
  · exact h.fiber
  · exact h.pending
  · exact h.finished
  · exact h.isAborted
  · exact h.held.congr rfl

theorem Ready.isReady (h : Ready i f others w) (hact : ((w.engine i).fiber f).act? ≠ none) :
    ((w.engine i).fiber f).isReady = true := by
  rw [Fiber.isReady_of_idle h.pending h.isAborted]
  exact Option.isSome_iff_ne_none.2 hact

/-- A turn of the fiber does what its call in the structured semantics does. -/
theorem realises_make (h : Ready i f others w) (hal : Alike i w r) (hact : ((w.engine i).fiber f).act? ≠ none)
    (hc : Structured.make i f r = some c) : Realises i w c (Turned i f others (w.engine i)) := by
  have he := engine_atWork h.between.inside f others
  have hacts : (r.act? i f).toList = ((unqueued i others w).act? i f).toList := by
    rw [(hal.unqueued others).act?]
  rw [Structured.make, hacts] at hc
  generalize hr : (Structured.call i f).runOn r = x at hc
  obtain ⟨out, s⟩ := x
  simp only at hc
  split at hc
  · cases hc
  · rename_i hs
    obtain ⟨v, hrun, hal', hafoot⟩ := h.step hal hact hr (by simpa using hs)
    cases out with
    | ok _ =>
      cases hc
      have hcounted := hafoot.counted
      refine ⟨_, Leads.of_turn h.queue (h.isReady hact) (turn_ok hrun), ?_, hcounted.turned.congr (by rw [he])⟩
      refine (alike_rest hcounted.sound).trans ?_
      exact hal'.arrange fun _ => rfl
    | error e =>
      cases hnode : e.isNode with
      | false =>
        simp only [hnode, Bool.not_false, if_true, Option.some.injEq] at hc
        rw [← hc]
        exact ⟨_, .of_turn h.queue (h.isReady hact) (turn_escaped hnode hrun), hal'.arrange fun _ => rfl⟩
      | true =>
        simp only [hnode, Bool.not_true, Bool.false_eq_true, if_false] at hc
        split at hc
        · rename_i hkids
          cases hc
          have hreport := hafoot.report e
          have hkids' : ((v.report i e).engine i).kids f ((atWork i f others w).engine i).fibers.size = [] := by
            rw [kids_congr (same_report v i i e).fibers, hal'.kids, he]
            simp only
            rw [hal.size_fibers]
            exact hkids
          obtain ⟨hturned, hdrop⟩ := hreport.failed hkids' rfl
          refine ⟨_, Leads.of_turn h.queue (h.isReady hact) (turn_failed hnode hrun), hdrop.trans ?_,
            hturned.congr (by rw [he])⟩
          exact (hal'.report i e).modifyFiber i f Fiber.own_drop
        · cases hc

end Turn

end FlowGraph
