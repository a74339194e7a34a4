import FlowGraph.Proofs.Accounts
import FlowGraph.Proofs.Draining

/-!
Every engine keeps its accounts in order, whatever behaviours and hosts do.
-/
namespace FlowGraph

open World Play

/-- What is posted starts no path with a listener that is bound to a fiber. -/
def Post.Free : Post → Prop
  | .begin _ _ l _ => ∀ y, l = some y → y.Free
  | .complete _ _ => True

namespace Engine

/-- The accounts of an engine are in order, with the given fiber at work, and what it keeps to be run later speaks
for no other fiber than the one that keeps it. It has come from `a`. -/
structure InOrder (a : Engine) (j : Nat) (c : Option Nat) (e : Engine) : Prop where
  accounted : e.Accounted
  current : e.current = c
  running : ∀ f, c = some f → (e.fiber f).finished = true → (e.fiber f).isAborted = true
  listeners : ∀ k, ∀ l ∈ (e.fiber k).listeners, l.1.isSome = true ∧ l.2.Fits j k
  posts : ∀ p ∈ e.inbox, p.Free
  disposers : ∀ op ∈ e.operations, ∀ d ∈ op.disposers, d.Free
  outlived : Outlived a e

namespace InOrder

variable {a e e' : Engine} {j f : Nat} {c : Option Nat}

theorem empty : InOrder {} j none {} where
  accounted := .empty
  current := rfl
  running _ hf := by cases hf
  listeners _ l hl := absurd hl List.not_mem_nil
  posts p hp := absurd hp List.not_mem_nil
  disposers op hop := absurd hop (Array.not_mem_empty op)
  outlived := .refl _

/-- A change that leaves the fibers and the queue alone. -/
theorem congr (h : InOrder a j c e) (hf : e'.fibers = e.fibers) (hq : e'.queue = e.queue) (hc : e'.current = e.current)
    (hd : e'.isDisposed = false → e.isDisposed = false) (hposts : ∀ p ∈ e'.inbox, p.Free)
    (hdisposers : ∀ op ∈ e'.operations, ∀ d ∈ op.disposers, d.Free) : InOrder a j c e' := by
  have hfiber := fiber_congr hf
  refine ⟨h.accounted.congr hf hq hc hd, hc.trans h.current, ?_, ?_, hposts, hdisposers, h.outlived.trans (.of_fibers hf)⟩
  · intro f hcf
    rw [hfiber]
    exact h.running f hcf
  · intro k
    rw [hfiber]
    exact h.listeners k

/-- A root comes in. -/
theorem enter (h : InOrder a j c e) {root : Fiber} {kids : List Fiber} (he : Entered e e' root kids)
    (hd : e'.isDisposed = e.isDisposed) (ho : e'.operations = e.operations) : InOrder a j c e' where
  accounted := h.accounted.enter he hd
  current := he.current.trans h.current
  running f hf := by
    have hlt := h.accounted.current_lt (h.current.trans hf)
    rw [he.fiber_old hlt]
    exact h.running f hf
  listeners k l hl := by
    obtain hk | rfl | ⟨hk, hk'⟩ | hk : k < e.fibers.size ∨ k = e.fibers.size ∨
        (e.fibers.size < k ∧ k < e'.fibers.size) ∨ e'.fibers.size ≤ k := by omega
    · rw [he.fiber_old hk] at hl
      exact h.listeners k l hl
    · rw [he.fiber_root] at hl
      exact ⟨he.owned l hl, (he.free l hl).fits j _⟩
    · rw [(he.fresh _ (he.mem_kids_of_lt hk hk')).listeners] at hl
      cases hl
    · rw [fiber_out hk] at hl
      cases hl
  posts := by
    rw [he.inbox]
    exact h.posts
  disposers := by
    rw [ho]
    exact h.disposers
  outlived := h.outlived.trans (.enter he)

/-- The fiber at work changes in what is its own business. -/
theorem alter (h : InOrder a j (some f) e) {g : Fiber → Fiber} (hparent : ∀ x, (g x).parent = x.parent)
    (hpending : ∀ x, (g x).pending = x.pending) (hfinished : ∀ x, (g x).finished = x.finished)
    (haborted : ∀ x, (g x).isAborted = x.isAborted) (hlisteners : ∀ l ∈ (g (e.fiber f)).listeners, l.1.isSome = true ∧ l.2.Fits j f)
    (hblank : (g (e.fiber f)).Blank → (e.fiber f).Blank) : InOrder a j (some f) (e.modifyFiber f g) := by
  refine ⟨?_, h.current, ?_, ?_, h.posts, h.disposers, ?_⟩
  · exact h.accounted.alter h.current hparent hpending hfinished fun x hx => by rw [← haborted, hx]
  · rintro k ⟨⟩
    rw [fiber_modifyFiber]
    split
    · rw [hfinished, haborted]
      exact h.running f rfl
    · exact h.running f rfl
  · intro k
    rw [fiber_modifyFiber]
    split
    · rename_i hk
      rw [← hk.1]
      exact hlisteners
    · exact h.listeners k
  · exact h.outlived.trans (.modifyFiber e f hparent (fun x hx => by rw [hfinished, hx]) hblank)

/-- A commitment keeps the order if its listener speaks for the fiber. -/
theorem commit (h : InOrder a j (some f) e) (node : NodeRef) {l : Option Listener}
    (hl : ∀ y, l = some y → y.Fits j f) (wires : List Wire) : InOrder a j (some f) (e.commit f node l wires) := by
  have hf := h.accounted.current_lt h.current
  have heq := commit_eq hf node l wires
  have hfibers : (e.commit f node l wires).fibers = (e.modifyFiber f (onto node l wires)).fibers ++
      (offshoots f (e.fiber f) node wires).toArray := by
    rw [heq]
    rfl
  have hfiber (k : Nat) := fiber_of_append hfibers k
  simp only [size_modifyFiber] at hfiber
  refine ⟨h.accounted.commit h.current (h.running f rfl) node l wires, by rw [heq]; exact h.current, ?_, ?_,
    by rw [heq]; exact h.posts, by rw [heq]; exact h.disposers, h.outlived.trans (.commit hf node l wires)⟩
  · rintro k ⟨⟩
    rw [hfiber, if_pos hf, fiber_modifyFiber, if_pos ⟨rfl, hf⟩, onto_finished, onto_isAborted]
    exact h.running f rfl
  · intro k x hx
    rw [hfiber] at hx
    split at hx
    · rw [fiber_modifyFiber] at hx
      split at hx
      · rename_i hk
        rw [onto_listeners] at hx
        rw [← hk.1] at hx ⊢
        cases l with
        | none => exact h.listeners f x hx
        | some y =>
          rcases List.mem_cons.1 hx with rfl | hx
          · exact ⟨rfl, hl y rfl⟩
          · exact h.listeners f x hx
      · exact h.listeners k x hx
    · cases hkid : (offshoots f (e.fiber f) node wires)[k - e.fibers.size]? with
      | none =>
        rw [hkid] at hx
        cases hx
      | some y =>
        rw [hkid] at hx
        have hnone := (fresh_of_mem_offshoots (List.mem_of_getElem? hkid)).listeners
        rw [Option.getD_some, hnone] at hx
        cases hx

/-- The queue and the inbox of an engine that is disposed of are emptied. -/
theorem clear (h : InOrder a j c e) (hd : e.isDisposed = true) :
    InOrder a j c { e with queue := [], inbox := [] } where
  accounted := h.accounted.clear hd rfl rfl rfl rfl
  current := h.current
  running := h.running
  listeners := h.listeners
  posts _ hp := absurd hp List.not_mem_nil
  disposers := h.disposers
  outlived := h.outlived.trans (.of_fibers rfl)

theorem take (h : InOrder a j none e) {others : List Nat} (hq : e.queue = f :: others) :
    InOrder a j (some f) { e with queue := others, current := some f } where
  accounted := h.accounted.take hq h.current
  current := rfl
  running k hk hfin := by
    cases hk
    have hopen := ((h.accounted.tallied f).queued (by rw [hq]; exact List.mem_cons_self)).2.1
    rw [show (e.fiber f).finished = true from hfin] at hopen
    cases hopen
  listeners := h.listeners
  posts := h.posts
  disposers := h.disposers
  outlived := h.outlived.trans (.of_fibers rfl)

/-- A fiber that is not done goes back to the head of the queue. -/
theorem requeue (h : InOrder a j (some f) e) (hready : (e.fiber f).isReady = true) :
    InOrder a j none { e with queue := f :: e.queue, current := none } where
  accounted := by
    simp only [Fiber.isReady, Fiber.isComplete, Fiber.isWaiting, Bool.and_eq_true, Bool.not_eq_true', Bool.or_eq_false_iff,
      decide_eq_false_iff_not, Nat.not_lt, Nat.le_zero] at hready
    refine h.accounted.requeue h.current (Bool.eq_false_iff.2 fun hfin => ?_) hready.2 hready.1.1
    rw [h.running f rfl hfin] at hready
    cases hready.1.1
  current := rfl
  running _ hf := by cases hf
  listeners := h.listeners
  posts := h.posts
  disposers := h.disposers
  outlived := h.outlived.trans (.of_fibers rfl)

theorem leave (h : InOrder a j (some f) e)
    (hgone : (e.fiber f).finished = true ∨ (e.fiber f).isAborted = false ∧ (e.fiber f).pending ≠ 0) :
    InOrder a j none { e with current := none } where
  accounted := h.accounted.leave h.current hgone
  current := rfl
  running _ hf := by cases hf
  listeners := h.listeners
  posts := h.posts
  disposers := h.disposers
  outlived := h.outlived.trans (.of_fibers rfl)

/-- The end of a fiber is no other fiber's business but the count of its parent. -/
theorem fiber_finish (h : e.Accounted) (hc : e.current = some f) (k : Nat) :
    ((e.finish f).fiber k).listeners = (e.fiber k).listeners ∧
      ((e.finish f).fiber k).isAborted = (e.fiber k).isAborted := by
  cases hopen : (e.fiber f).finished with
  | true => rw [finish_eq_self hopen]; exact ⟨rfl, rfl⟩
  | false =>
    have hov := finishing_finish (h.current_lt hc) hopen (h.tallied f).parent
    by_cases hkf : k = f
    · rw [hkf, hov.self]
      exact ⟨rfl, rfl⟩
    · by_cases hp : (e.fiber f).parent = some k
      · rw [hov.parent k hp]
        exact ⟨rfl, rfl⟩
      · rw [hov.other k hkf hp]
        exact ⟨rfl, rfl⟩

/-- The fiber at work is over. -/
theorem finish (h : InOrder a j (some f) e) (hover : (e.fiber f).isAborted = true ∨ (e.fiber f).pending = 0) :
    InOrder a j none { e.finish f with current := none } := by
  have hf := h.accounted.current_lt h.current
  have hlt := (h.accounted.tallied f).parent
  have hframe := finish_frame e f
  have hcurrent : (e.finish f).current = some f := by rw [hframe]; exact h.current
  refine ⟨(h.accounted.finish h.current hover).leave hcurrent (.inl (Outlived.finished_finish hf hlt)), rfl, ?_, ?_, ?_, ?_,
    (h.outlived.trans (.finish hf hlt)).trans (.of_fibers rfl)⟩
  · intro _ hf
    cases hf
  · intro k l hl
    exact h.listeners k l (by rw [← (fiber_finish h.accounted h.current k).1]; exact hl)
  · show ∀ p ∈ (e.finish f).inbox, _
    rw [hframe]
    exact h.posts
  · show ∀ op ∈ (e.finish f).operations, _
    rw [hframe]
    exact h.disposers

/-- The fiber at work fails. -/
theorem abort (h : InOrder a j (some f) e) : InOrder a j (some f) (e.abort f) := by
  have hf := h.accounted.current_lt h.current
  have hfiber (k : Nat) := e.fiber_modifyFiber f k fun x => { x with isAborted := true, next := none, listeners := [] }
  have haccounted := h.accounted.alter h.current
    (g := fun x => { x with isAborted := true, next := none, listeners := [] }) (fun _ => rfl) (fun _ => rfl)
    (fun _ => rfl) fun _ ha => by cases ha
  have hframe : (e.abort f).current = e.current ∧ (e.abort f).inbox = e.inbox ∧
      (e.abort f).operations = e.operations := by
    rw [Engine.abort, finish_frame]
    exact ⟨rfl, rfl, rfl⟩
  have hfinish := fiber_finish haccounted h.current
  refine ⟨h.accounted.abort h.current, by rw [hframe.1, h.current], ?_, ?_, ?_, ?_, h.outlived.trans (.abort h.accounted h.current)⟩
  · rintro k ⟨⟩ _
    rw [Engine.abort, (hfinish f).2, hfiber, if_pos ⟨rfl, hf⟩]
  · intro k l hl
    rw [Engine.abort, (hfinish k).1, hfiber] at hl
    split at hl
    · cases hl
    · exact h.listeners k l hl
  · rw [hframe.2.1]
    exact h.posts
  · rw [hframe.2.2]
    exact h.disposers

end InOrder

end Engine

/-- Every engine is in order, with the fibers at work that `cur` gives, and nothing to be undone is bound to a fiber.
The world has come from `u`. -/
structure InOrder (u : World) (cur : Nat → Option Nat) (w : World) : Prop where
  size : u.engines.size ≤ w.engines.size
  engine : ∀ j, Engine.InOrder (u.engine j) j (cur j) (w.engine j)
  disposers : ∀ p ∈ w.disposers, p.2.Free

/-- Only the fiber of one engine is at work. -/
def onlyAt (i f : Nat) : Nat → Option Nat := fun j => if j = i then some f else none

def atRest : Nat → Option Nat := fun _ => none

namespace InOrder

variable {u v w : World} {cur : Nat → Option Nat} {i j f : Nat}

theorem frame (h : InOrder u cur w) (he : v.engines = w.engines) (hd : v.disposers = w.disposers) :
    InOrder u cur v := by
  refine ⟨by rw [he]; exact h.size, fun j => ?_, by rw [hd]; exact h.disposers⟩
  rw [engine_congr he]
  exact h.engine j

/-- Only one engine changes, and it stays in order. -/
theorem modifyEngine {cur' : Nat → Option Nat} (h : InOrder u cur w) {g : Engine → Engine}
    (hothers : ∀ k, k ≠ j → cur' k = cur k) (hj : j < w.engines.size)
    (hg : Engine.InOrder (u.engine j) j (cur' j) (g (w.engine j))) : InOrder u cur' (w.modifyEngine j g) := by
  refine ⟨by simpa using h.size, fun k => ?_, h.disposers⟩
  by_cases hk : k = j
  · rw [hk, engine_modifyEngine_self hj]
    exact hg
  · rw [engine_modifyEngine_of_ne (Ne.symm hk), hothers k hk]
    exact h.engine k

/-- Whoever is at work works for an engine that is there. -/
theorem inside (h : InOrder u cur w) (hc : cur j = some f) : j < w.engines.size := by
  apply Decidable.byContradiction
  intro hj
  have hf := (h.engine j).accounted.current_lt ((h.engine j).current.trans hc)
  simp [World.engine, hj] at hf
  cases hf

/-- A change of what concerns neither fibers nor queue. -/
theorem face (h : InOrder u cur w) (j : Nat) {g : Engine → Engine} (hs : ∀ e : Engine, e.Same (g e))
    (hd : ∀ e : Engine, e.isDisposed = true → (g e).isDisposed = true)
    (ho : ∀ op ∈ (g (w.engine j)).operations, ∀ d ∈ op.disposers, d.Free) : InOrder u cur (w.modifyEngine j g) := by
  refine ⟨by simpa using h.size, fun k => ?_, h.disposers⟩
  rw [engine_modifyEngine]
  split
  · rename_i hk
    obtain ⟨rfl, -⟩ := hk
    have hs := hs (w.engine j)
    refine (h.engine j).congr hs.fibers hs.queue hs.current ?_ ?_ ho
    · intro hopen
      apply Bool.eq_false_iff.2
      intro hdis
      rw [hd _ hdis] at hopen
      cases hopen
    · rw [hs.inbox]
      exact (h.engine j).posts
  · exact h.engine k

theorem tell (h : InOrder u cur w) (j : Nat) (e : String → Event) : InOrder u cur (w.tell j e) :=
  h.frame (engines_tell w j e) (disposers_tell w j e)

theorem report (h : InOrder u cur w) (j : Nat) (e : Failure) : InOrder u cur (w.report j e) := by
  have hf := h.face j (g := fun x => { x with failures := e :: x.failures }) (fun _ => ⟨rfl, rfl, rfl, rfl⟩)
    (fun _ => id) (h.engine j).disposers
  exact hf.frame (engines_report w j e) (disposers_report w j e)

/-- A path that begins keeps the order if its listener speaks for no fiber. -/
theorem begin (h : InOrder u cur w) (j : Nat) (x : NodeRef) (output : String) {l : Option Listener}
    (hl : ∀ y, l = some y → y.Free) (outputs : List (String × Value)) :
    InOrder u cur (w.begin j x output l outputs) := by
  by_cases hd : (w.engine j).isDisposed = true
  · rw [World.begin, if_pos hd]
    exact h
  · have hlocal := Local.begin w j x output l outputs
    refine ⟨by rw [hlocal.size]; exact h.size, fun k => ?_, by rw [hlocal.disposers]; exact h.disposers⟩
    by_cases hk : k = j
    · subst hk
      by_cases hj : k < w.engines.size
      · have hcurrent := ((h.engine k).accounted.out (Nat.le_refl _)).2
        obtain ⟨root, kids, he, -⟩ := entered_begin hj (by simpa using hd) hcurrent x output hl outputs
        exact (h.engine k).enter he (hlocal.isDisposed k) (hlocal.operations k)
      · have hsame : (w.begin k x output l outputs).engine k = w.engine k := by
          have hj' : ¬ k < (w.begin k x output l outputs).engines.size := by rw [hlocal.size]; exact hj
          simp [World.engine, hj, hj']
        rw [hsame]
        exact h.engine k
    · rw [hlocal.others k hk]
      exact h.engine k

/-- An operation changes; what it has to undo stays bound to no fiber. -/
theorem modifyOperation (h : InOrder u cur w) (j o : Nat) {g : Operation → Operation}
    (hg : ∀ op, (∀ d ∈ op.disposers, d.Free) → ∀ d ∈ (g op).disposers, d.Free) :
    InOrder u cur (w.modifyEngine j (·.modifyOperation o g)) := by
  exact h.face j (fun _ => ⟨rfl, rfl, rfl, rfl⟩) (fun _ => id)
    (Engine.forall_modifyOperation (h.engine j).disposers hg)

theorem complete (h : InOrder u cur w) (j o : Nat) (output : Option String) : InOrder u cur (w.complete j o output) := by
  refine complete_upholds ?_ ?_ ?_ ?_ ?_ h
  · exact fun w h => h.face j (fun _ => ⟨rfl, rfl, rfl, rfl⟩) (fun _ => id) (h.engine j).disposers
  · exact fun w x h => h.frame (engines_chooseOutput w x output) (disposers_chooseOutput w x output)
  · exact fun w e h => h.report j e
  · exact fun w x name h => h.begin j x name (by simp) []
  · exact fun w e h => h.tell j e

theorem post (h : InOrder u cur w) (j : Nat) {p : Post} (hp : p.Free) : InOrder u cur (w.post j p) := by
  by_cases hj : j < w.engines.size
  · refine h.modifyEngine (fun _ _ => rfl) hj ((h.engine j).congr rfl rfl rfl id ?_ (h.engine j).disposers)
    intro q hq
    rcases List.mem_append.1 hq with hq | hq
    · exact (h.engine j).posts q hq
    · rw [List.mem_singleton.1 hq]
      exact hp
  · rw [World.post, modifyEngine_out hj]
    exact h

theorem finishOperation (h : InOrder u cur w) (j o : Nat) (output : Option String) (fromOutside : Bool) :
    InOrder u cur (w.finishOperation j o output fromOutside) := by
  refine finishOperation_upholds ?_ ?_ ?_ h
  · exact fun w h _ _ => h.modifyOperation j o fun _ => id
  · exact fun w h _ => h.complete j o output
  · exact fun w h _ => h.post j trivial

theorem relinquish (h : InOrder u cur w) (j o : Nat) : InOrder u cur (w.relinquish j o) :=
  relinquish_upholds (h.modifyOperation j o (by simp)) h

/-- The engines stay in order whatever is done in contexts that are bound to no fiber, or to the one at work. -/
theorem closed (u : World) (cur : Nat → Option Nat) :
    Closed (fun w _ => InOrder u cur w) fun c => ∀ j k input, c.role = .flow j k input → cur j = some k where
  stamp g v w _ h := h.frame (engines_stamp w g v) (disposers_stamp w g v)
  write h _ _ _ _ _ _ := h.frame rfl rfl
  setState _ _ _ _ h := h.frame rfl rfl
  setInput _ _ _ _ _ h := h.frame rfl rfl
  assign h _ _ _ _ _ _ := h.frame rfl rfl
  record _ _ _ _ h := h.frame rfl rfl
  tell j e _ _ _ h := h.tell j e
  hold _ _ _ h := h.frame rfl rfl
  schedule _ _ _ h := h.frame rfl rfl
  store _ _ _ h := h.frame rfl rfl
  subscribe _ _ _ _ h := h.frame rfl rfl
  unsubscribe _ _ _ h := h.frame rfl rfl
  enlist x d hd w _ h := by
    refine ⟨h.size, h.engine, fun p hp => ?_⟩
    rcases List.mem_append.1 hp with hp | hp
    · exact h.disposers p hp
    · rw [List.mem_singleton.1 hp]
      exact Disposer.Within.free hd
  unlist x _ _ h := ⟨h.size, h.engine, fun p hp => h.disposers p (List.mem_filter.1 hp).1⟩
  report {j} _ _ _ _ _ _ _ h := h.report j _
  begin j x output _ hl values _ _ _ h := h.begin j x output (fun y hy c hc => (hl y hy c hc).2) values
  commit {x j f input} hc output l hl w _ h := by
    have hcur := hc j f input rfl
    simp only [World.commitFiber]
    split
    · exact h
    · refine h.modifyEngine (fun _ _ => rfl) (h.inside hcur) ?_
      have he := h.engine j
      rw [hcur] at he ⊢
      refine he.commit x (fun y hy c hctx => ?_) _
      rw [hl y hy] at hctx
      cases hctx
      rintro j' k' input' ⟨⟩
      exact ⟨rfl, rfl⟩
  stop {x j f input} hc w _ h := by
    have hcur := hc j f input rfl
    simp only [World.endFiber]
    split
    · exact h
    · refine h.modifyEngine (fun _ _ => rfl) (h.inside hcur) ?_
      have he := h.engine j
      rw [hcur] at he ⊢
      refine he.alter (fun _ => rfl) (fun _ => rfl) (fun _ => rfl) (fun _ => rfl) (he.listeners f) ?_
      exact fun hb => ⟨hb.parent, hb.next, hb.listeners, hb.steps, hb.finished⟩
  register {w _} h j _ x _ input := by
    refine h.face j (fun _ => ⟨rfl, rfl, rfl, rfl⟩) (fun _ => id) ?_
    intro op hop
    rcases Array.mem_push.1 hop with hop | rfl
    · exact (h.engine j).disposers op hop
    · intro d hd
      cases hd
  enrol {j o d} hd w _ h := by
    refine h.modifyOperation j o ?_
    intro op hop d' hd'
    rcases List.mem_append.1 hd' with hd' | hd'
    · exact hop d' hd'
    · rw [List.mem_singleton.1 hd']
      exact Disposer.Within.free hd
  finish j o output _ _ h := h.finishOperation j o output false
  dismiss {w _} h j o _ _ := by
    have hdrop : InOrder u cur (w.strike j o) :=
      h.face j (fun _ => ⟨rfl, rfl, rfl, rfl⟩) (fun _ => id) (h.engine j).disposers
    exact hdrop.relinquish j o
  close {w _} h j _ := h.face j (fun _ => ⟨rfl, rfl, rfl, rfl⟩) (fun _ _ => rfl) (h.engine j).disposers
  relinquish h j _ _ o := h.relinquish j o
  release {w _} h j _ _ := h.face j (fun _ => ⟨rfl, rfl, rfl, rfl⟩) (fun _ => id) (h.engine j).disposers
  clear {w _} h j _ hd := by
    by_cases hj : j < w.engines.size
    · exact h.modifyEngine (fun _ _ => rfl) hj ((h.engine j).clear (hd hj))
    · rw [modifyEngine_out hj]
      exact h

end InOrder

end FlowGraph
