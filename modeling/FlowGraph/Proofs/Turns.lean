import FlowGraph.Proofs.Calls
import FlowGraph.Proofs.Structured

/-!
Turns of the queue. Fibers that are idle leave its head in silence; the first that is ready makes a call.
`Leads` says which calls are made on the way from one world to another, however large the budget is.
-/
namespace FlowGraph

open World

/-- The world in which the fiber at the head of the queue has been taken off it. -/
def unqueued (i : Nat) (others : List Nat) (w : World) : World := w.modifyEngine i fun e => { e with queue := others }

/-- The world in which the fiber is at work. -/
def atWork (i f : Nat) (others : List Nat) (w : World) : World :=
  (unqueued i others w).modifyEngine i fun e => { e with current := some f }

theorem engine_atWork {w : World} {i : Nat} (hi : i < w.engines.size) (f : Nat) (others : List Nat) :
    (atWork i f others w).engine i = { w.engine i with queue := others, current := some f } := by
  rw [atWork, engine_modifyEngine_self (by simpa [unqueued] using hi), unqueued, engine_modifyEngine_self hi]

namespace Play

/-- The history of a drain ends as the drain does. -/
theorem history_snd (i n taken : Nat) (w : World) : (history i n taken w).2 = (drain i n taken).runOn w := by
  induction n generalizing taken w with
  | zero => rfl
  | succ n ih =>
    rw [history, drain, runOn_bind, runOn_modify]
    generalize settle w i = w
    simp only [headTurn, runOn_get]
    cases (w.engine i).queue with
    | nil => rfl
    | cons f others =>
      simp only [runOn_bind, runOn_modify]
      generalize (turn i f).runOn _ = p
      obtain ⟨out, v⟩ := p
      cases out with
      | ok _ => exact ih (taken + 1) v
      | error e => rfl

section Turns

variable {i f : Nat} {w v : World}

theorem turn_ok (h : (step i f).runOn (w.modifyEngine i fun e => { e with current := some f }) = (.ok (), v)) :
    (turn i f).runOn w = (.ok (), rest (v.modifyEngine i fun e => { e with steps := e.steps + 1 }) i f) := by
  simp only [turn, runOn_bind, runOn_modify, runOn_outcome, h]

theorem turn_failed {e : Failure} (he : e.isNode = true)
    (h : (step i f).runOn (w.modifyEngine i fun e => { e with current := some f }) = (.error e, v)) :
    (turn i f).runOn w =
      (.ok (), rest ((v.report i e).modifyEngine i fun e => { e with steps := e.steps + 1 }.abort f) i f) := by
  simp only [turn, runOn_bind, runOn_modify, runOn_outcome, h, he, if_true]

theorem turn_escaped {e : Failure} (he : e.isNode = false)
    (h : (step i f).runOn (w.modifyEngine i fun e => { e with current := some f }) = (.error e, v)) :
    (turn i f).runOn w = (.error e, v.modifyEngine i fun e => { e with current := none }) := by
  simp only [turn, runOn_bind, runOn_modify, runOn_outcome, h, he]
  rfl

variable {others : List Nat} {out : Except Failure Unit}

/-- What the turn of the head of the queue can do: its step goes through, or it fails at a node and the path ends there, or what
it fails with escapes. -/
theorem turn_cases (h : (turn i f).runOn (w.modifyEngine i fun e => { e with queue := others }) = (out, v)) :
    (∃ r, (step i f).runOn (atWork i f others w) = (.ok (), r) ∧ out = .ok () ∧
      v = rest (r.modifyEngine i fun e => { e with steps := e.steps + 1 }) i f) ∨
    (∃ e r, e.isNode = true ∧ (step i f).runOn (atWork i f others w) = (.error e, r) ∧ out = .ok () ∧
      v = rest ((r.report i e).modifyEngine i fun e => { e with steps := e.steps + 1 }.abort f) i f) ∨
    ∃ e r, e.isNode = false ∧ (step i f).runOn (atWork i f others w) = (.error e, r) ∧ out = .error e ∧
      v = r.modifyEngine i fun e => { e with current := none } := by
  generalize hp : (step i f).runOn (atWork i f others w) = p
  obtain ⟨ended, r⟩ := p
  cases ended with
  | ok _ =>
    obtain ⟨hout, hv⟩ := Prod.mk.inj ((turn_ok hp).symm.trans h)
    exact .inl ⟨r, rfl, hout.symm, hv.symm⟩
  | error e =>
    cases he : e.isNode with
    | true =>
      obtain ⟨hout, hv⟩ := Prod.mk.inj ((turn_failed he hp).symm.trans h)
      exact .inr (.inl ⟨e, r, he, rfl, hout.symm, hv.symm⟩)
    | false =>
      obtain ⟨hout, hv⟩ := Prod.mk.inj ((turn_escaped he hp).symm.trans h)
      exact .inr (.inr ⟨e, r, he, rfl, hout.symm, hv.symm⟩)

theorem turn_eq_ok (h : (turn i f).runOn (w.modifyEngine i fun e => { e with queue := others }) = (.ok (), v)) :
    (∃ r, (step i f).runOn (atWork i f others w) = (.ok (), r) ∧
      v = rest (r.modifyEngine i fun e => { e with steps := e.steps + 1 }) i f) ∨
    ∃ e r, e.isNode = true ∧ (step i f).runOn (atWork i f others w) = (.error e, r) ∧
      v = rest ((r.report i e).modifyEngine i fun e => { e with steps := e.steps + 1 }.abort f) i f := by
  rcases turn_cases h with ⟨r, hp, -, hv⟩ | ⟨e, r, he, hp, -, hv⟩ | ⟨e, r, -, -, hout, -⟩
  · exact .inl ⟨r, hp, hv⟩
  · exact .inr ⟨e, r, he, hp, hv⟩
  · cases hout

theorem turn_eq_error {e : Failure} (h : (turn i f).runOn (w.modifyEngine i fun e => { e with queue := others }) = (.error e, v)) :
    e.isNode = false ∧ ∃ r, (step i f).runOn (atWork i f others w) = (.error e, r) ∧
      v = r.modifyEngine i fun e => { e with current := none } := by
  rcases turn_cases h with ⟨_, -, hout, -⟩ | ⟨_, _, -, -, hout, -⟩ | ⟨_, r, he, hp, hout, hv⟩
  · cases hout
  · cases hout
  · cases hout
    exact ⟨he, r, hp, hv⟩

end Turns

end Play

namespace Engine

def unfinished (e : Engine) : Nat := e.fibers.toList.countP (!·.finished)

theorem countP_modify {p : Fiber → Bool} {g : Fiber → Fiber} (hg : ∀ x, p (g x) = p x) (fs : List Fiber) (k : Nat) :
    (fs.modify k g).countP p = fs.countP p := by
  induction fs generalizing k with
  | nil => simp
  | cons x fs ih =>
    cases k with
    | zero => simp [List.countP_cons, hg]
    | succ k => simp [List.countP_cons, ih]

theorem countP_modify_lt {p : Fiber → Bool} {g : Fiber → Fiber} (hg : ∀ x, p (g x) = false) {fs : List Fiber}
    {k : Nat} {x : Fiber} (hx : fs[k]? = some x) (hp : p x = true) : (fs.modify k g).countP p < fs.countP p := by
  induction fs generalizing k with
  | nil => simp at hx
  | cons y fs ih =>
    cases k with
    | zero =>
      have hy : y = x := by simpa using hx
      simp [hg, hy, hp]
    | succ k =>
      have := ih (by simpa using hx)
      simp only [List.modify_succ_cons, List.countP_cons]
      omega

theorem unfinished_modifyFiber (e : Engine) (k : Nat) {g : Fiber → Fiber} (hg : ∀ x, (g x).finished = x.finished) :
    (e.modifyFiber k g).unfinished = e.unfinished := by
  rw [unfinished, unfinished, modifyFiber, Array.toList_modify]
  exact countP_modify (fun x => by rw [hg]) _ k

/-- When a child is over the queue grows by one at most. -/
theorem childFinished_le (e : Engine) (p : Nat) :
    (e.childFinished p).queue.length + (e.childFinished p).unfinished ≤ e.queue.length + 1 + e.unfinished := by
  have hu : (e.modifyFiber p fun f => { f with pending := f.pending - 1 }).unfinished = e.unfinished :=
    e.unfinished_modifyFiber p fun _ => rfl
  unfold childFinished
  simp only
  split
  · have hq : ((e.modifyFiber p fun f => { f with pending := f.pending - 1 }).resume p).queue.length =
        e.queue.length + 1 := rfl
    have hu' : ((e.modifyFiber p fun f => { f with pending := f.pending - 1 }).resume p).unfinished =
        (e.modifyFiber p fun f => { f with pending := f.pending - 1 }).unfinished := rfl
    omega
  · have hq : (e.modifyFiber p fun f => { f with pending := f.pending - 1 }).queue.length = e.queue.length := rfl
    omega

/-- A fiber that finishes puts back no more than itself. -/
theorem finish_le (e : Engine) (f : Nat) :
    (e.finish f).queue.length + (e.finish f).unfinished ≤ e.queue.length + e.unfinished := by
  unfold finish
  simp only
  split
  · exact Nat.le_refl _
  · rename_i hopen
    have hq : (e.modifyFiber f fun f => { f with finished := true }).queue.length = e.queue.length := rfl
    by_cases hf : f < e.fibers.size
    · have hx : e.fibers.toList[f]? = some (e.fiber f) := by simp [fiber, hf]
      have hlt : (e.modifyFiber f fun f => { f with finished := true }).unfinished < e.unfinished := by
        rw [unfinished, unfinished, modifyFiber, Array.toList_modify]
        exact countP_modify_lt (fun _ => rfl) hx (by simpa using hopen)
      split
      · rename_i p _
        have hc := childFinished_le (e.modifyFiber f fun f => { f with finished := true }) p
        omega
      · omega
    · have hsame : e.fibers.modify f (fun x => { x with finished := true }) = e.fibers := by
        apply Array.ext_getElem?
        intro k
        rw [Array.getElem?_modify]
        split
        · rename_i hk
          simp [← hk, hf]
        · rfl
      have hdefault : e.fiber f = default := by simp [fiber, hf]
      rw [hdefault]
      show _ + (e.modifyFiber f _).unfinished ≤ _
      rw [modifyFiber, hsame]
      exact Nat.le_refl _

/-- A fiber that finishes changes nothing but fibers and the queue. -/
theorem finish_frame (e : Engine) (f : Nat) :
    e.finish f = { e with fibers := (e.finish f).fibers, queue := (e.finish f).queue } := by
  unfold finish
  simp only
  split
  · rfl
  · split
    · unfold childFinished
      simp only
      split <;> rfl
    · rfl

theorem unfinished_le (e : Engine) : e.unfinished ≤ e.fibers.size := by
  have := List.countP_le_length (p := fun f : Fiber => !f.finished) (l := e.fibers.toList)
  simpa [unfinished] using this

end Engine

namespace Play

variable {i : Nat} {w v u : World}

/-- Without posts there is nothing to take in. -/
theorem drainInbox_eq (h : (w.engine i).inbox = []) : w.drainInbox i = w := by
  have hsame : w.engines.modify i (fun e => { e with inbox := [] }) = w.engines := by
    apply Array.ext_getElem?
    intro k
    rw [Array.getElem?_modify]
    split
    · rename_i hk
      subst hk
      simp only [engine] at h
      cases hx : w.engines[i]? with
      | none => rfl
      | some e =>
        rw [hx] at h
        have he : e.inbox = [] := h
        simp only [Option.map_some, Option.some.injEq]
        rw [← he]
    · rfl
  simp only [drainInbox, h, List.foldl_nil, modifyEngine, hsame]

/-- Takes an idle fiber off the head of the queue. -/
def pop (i f : Nat) (others : List Nat) (w : World) : World :=
  if ((w.engine i).fiber f).isComplete then
    (w.modifyEngine i fun e => { e with queue := others }).modifyEngine i (·.finish f)
  else w.modifyEngine i fun e => { e with queue := others }

theorem inbox_pop (h : (w.engine i).inbox = []) (f : Nat) (others : List Nat) :
    ((pop i f others w).engine i).inbox = [] := by
  unfold pop
  split
  · rw [engine_modifyEngine]
    split
    · rw [Engine.finish_frame, engine_modifyEngine]
      split <;> exact h
    · rw [engine_modifyEngine]
      split <;> exact h
  · rw [engine_modifyEngine]
    split <;> exact h

/-- What is left of the queue and of the fibers; it shrinks with every fiber that is taken off. -/
def burden (i : Nat) (w : World) : Nat := (w.engine i).queue.length + (w.engine i).unfinished

/-- Dropping the head of the queue makes the burden less. -/
theorem burden_pop {f : Nat} {others : List Nat} (hq : (w.engine i).queue = f :: others) :
    burden i (pop i f others w) < burden i w := by
  have hi : i < w.engines.size := by
    apply Decidable.byContradiction
    intro hi
    simp [engine, hi] at hq
    cases hq
  have hlen : (w.engine i).queue.length = others.length + 1 := by rw [hq]; rfl
  have hrest : ((w.modifyEngine i fun e => { e with queue := others }).engine i).queue.length +
      ((w.modifyEngine i fun e => { e with queue := others }).engine i).unfinished =
        others.length + (w.engine i).unfinished := by
    rw [engine_modifyEngine_self hi]
    rfl
  unfold pop burden
  split
  · have hf := Engine.finish_le ((w.modifyEngine i fun e => { e with queue := others }).engine i) f
    rw [engine_modifyEngine_self (by simpa using hi)]
    omega
  · omega

theorem settleWithin_idle {f : Nat} (fuel : Nat) {others : List Nat} (hinbox : (w.engine i).inbox = [])
    (hq : (w.engine i).queue = f :: others) (hidle : ((w.engine i).fiber f).isReady = false) :
    settleWithin i (fuel + 1) w = settleWithin i fuel (pop i f others w) := by
  have hpop := drainInbox_eq (inbox_pop hinbox f others)
  rw [settleWithin, hq]
  simp only [hidle, Bool.false_eq_true, if_false]
  rw [← hpop]
  rfl

/-- Fuel beyond the burden makes no difference. -/
theorem settleWithin_enough {n m : Nat} (hn : burden i w < n) (hm : burden i w < m)
    (hinbox : (w.engine i).inbox = []) : settleWithin i n w = settleWithin i m w := by
  induction n generalizing w m with
  | zero => omega
  | succ n ih =>
    obtain ⟨m, rfl⟩ : ∃ k, m = k + 1 := ⟨m - 1, by omega⟩
    cases hq : (w.engine i).queue with
    | nil => rw [settleWithin, settleWithin, hq]
    | cons f others =>
      cases hr : ((w.engine i).fiber f).isReady with
      | true => simp [settleWithin, hq, hr]
      | false =>
        have hb := burden_pop hq
        rw [settleWithin_idle n hinbox hq hr, settleWithin_idle m hinbox hq hr]
        exact ih (by omega) (by omega) (inbox_pop hinbox f others)

theorem burden_lt_fuel (hinbox : (w.engine i).inbox = []) :
    burden i w < (w.engine i).queue.length + 2 * ((w.engine i).fibers.size + (w.engine i).inbox.length) + 1 := by
  have := (w.engine i).unfinished_le
  rw [hinbox, burden, List.length_nil]
  omega

theorem settle_idle {f : Nat} {others : List Nat} (hinbox : (w.engine i).inbox = [])
    (hq : (w.engine i).queue = f :: others) (hidle : ((w.engine i).fiber f).isReady = false) :
    settle w i = settle (pop i f others w) i := by
  have hb := burden_pop hq
  have hw := burden_lt_fuel hinbox
  have hstep := settleWithin_idle ((w.engine i).queue.length +
    2 * ((w.engine i).fibers.size + (w.engine i).inbox.length)) hinbox hq hidle
  rw [settle, settle, hstep]
  exact settleWithin_enough (by omega) (burden_lt_fuel (inbox_pop hinbox f others)) (inbox_pop hinbox f others)

theorem settle_ready {f : Nat} {others : List Nat} (hq : (w.engine i).queue = f :: others)
    (hready : ((w.engine i).fiber f).isReady = true) : settle w i = w := by
  simp [settle, settleWithin, hq, hready]

/-- Nothing is called when the queue is empty. -/
theorem history_idle (hq : (w.engine i).queue = []) (n t : Nat) : history i n t w = ([], (.ok t, w)) := by
  cases n with
  | zero =>
    have hrun : (breakOff i t).runOn w = (.ok t, w) := by
      rw [breakOff, runOn_get, hq]
      rfl
    rw [history, hrun]
  | succ n =>
    have hsettle : settle w i = w := by simp [settle, settleWithin, hq]
    rw [history, headTurn, hsettle, hq]

/-- On the way from `w` to `v` a drain makes these calls. -/
def Leads (i : Nat) (w : World) (acts : List Act) (v : World) : Prop :=
  ∃ k, ∀ n taken, history i (k + n + 1) taken w =
    (acts ++ (history i (n + 1) (taken + k) v).1, (history i (n + 1) (taken + k) v).2)

/-- From `w` on a drain makes these calls and ends with the failure. -/
def Escapes (i : Nat) (w : World) (acts : List Act) (e : Failure) (v : World) : Prop :=
  ∃ k, ∀ n taken, history i (k + n + 1) taken w = (acts, (.error e, v))

theorem Leads.refl (i : Nat) (w : World) : Leads i w [] w :=
  ⟨0, fun n taken => by simp⟩

theorem Leads.trans {acts acts' : List Act} (h : Leads i w acts v) (h' : Leads i v acts' u) :
    Leads i w (acts ++ acts') u := by
  obtain ⟨k, hk⟩ := h
  obtain ⟨k', hk'⟩ := h'
  refine ⟨k + k', fun n taken => ?_⟩
  have h1 := hk (k' + n) taken
  have h2 := hk' n (taken + k)
  have e1 : k + k' + n + 1 = k + (k' + n) + 1 := by omega
  have e2 : taken + (k + k') = taken + k + k' := by omega
  rw [e1, e2, h1, h2, List.append_assoc]

theorem Leads.ends {acts acts' : List Act} {e : Failure} (h : Leads i w acts v) (h' : Escapes i v acts' e u) :
    Escapes i w (acts ++ acts') e u := by
  obtain ⟨k, hk⟩ := h
  obtain ⟨k', hk'⟩ := h'
  refine ⟨k + k', fun n taken => ?_⟩
  have h1 := hk (k' + n) taken
  have h2 := hk' n (taken + k)
  have e1 : k + k' + n + 1 = k + (k' + n) + 1 := by omega
  rw [e1, h1, h2]

theorem Leads.of_settle (h : settle w i = settle v i) : Leads i w [] v :=
  ⟨0, fun n taken => by simp [history, h]⟩

theorem Leads.of_turn {f : Nat} {others : List Nat} (hq : (w.engine i).queue = f :: others)
    (hready : ((w.engine i).fiber f).isReady = true)
    (hturn : (turn i f).runOn (w.modifyEngine i fun e => { e with queue := others }) = (.ok (), v)) :
    Leads i w ((w.modifyEngine i fun e => { e with queue := others }).act? i f).toList v := by
  refine ⟨1, fun n taken => ?_⟩
  have e1 : 1 + n + 1 = (n + 1) + 1 := by omega
  rw [e1, history, settle_ready hq hready, headTurn, hq]
  simp only [hturn]

theorem Escapes.of_turn {f : Nat} {others : List Nat} {e : Failure} (hq : (w.engine i).queue = f :: others)
    (hready : ((w.engine i).fiber f).isReady = true)
    (hturn : (turn i f).runOn (w.modifyEngine i fun e => { e with queue := others }) = (.error e, v)) :
    Escapes i w ((w.modifyEngine i fun e => { e with queue := others }).act? i f).toList e v := by
  refine ⟨0, fun n taken => ?_⟩
  rw [history, settle_ready hq hready, headTurn, hq]
  simp only [hturn]

end Play

end FlowGraph
