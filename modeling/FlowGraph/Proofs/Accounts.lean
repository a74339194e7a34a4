import FlowGraph.Proofs.Turns

/-!
The accounts of an engine: what it knows of its fibers tallies with what became of them. A fiber waits for as
many others as it spawned and as are not finished, the queue holds each fiber that can go on exactly once, and
nothing else.
-/
namespace FlowGraph

/-- A fiber that neither has had anything to run nor is over. -/
structure Fiber.Blank (x : Fiber) : Prop where
  parent : x.parent = none
  next : x.next = none
  listeners : x.listeners = []
  steps : x.steps = 0
  finished : x.finished = false

namespace Engine

theorem fiber_out {e : Engine} {k : Nat} (hk : e.fibers.size ≤ k) : e.fiber k = default := by
  simp [fiber, Nat.not_lt.2 hk]

/-- How many of the fibers that a fiber spawned are not finished. -/
def openKids (e : Engine) (p : Nat) : Nat := e.fibers.toList.countP fun x => x.parent = some p && !x.finished

/-- A root that has nothing to run and never had: there was no wire behind its trigger, or its first commit
failed. -/
structure Discarded (e : Engine) (k : Nat) : Prop where
  blank : (e.fiber k).Blank
  childless : ∀ j, (e.fiber j).parent ≠ some k

/-- The accounts of one fiber. The fiber at work, if there is one, is not in the queue. -/
structure Tallied (e : Engine) (k : Nat) : Prop where
  parent : ∀ p, (e.fiber k).parent = some p → p < k
  pending : (e.fiber k).pending = e.openKids k
  queued : k ∈ e.queue → k < e.fibers.size ∧ (e.fiber k).finished = false ∧ (e.fiber k).pending = 0
  atWork : e.current = some k → k < e.fibers.size ∧ k ∉ e.queue
  present : e.isDisposed = false → k < e.fibers.size → (e.fiber k).finished = false →
    (e.fiber k).pending = 0 → k ∈ e.queue ∨ e.current = some k ∨ e.Discarded k
  aborted : (e.fiber k).isAborted = true → (e.fiber k).finished = true ∨ e.current = some k
  settled : (e.fiber k).finished = true → (e.fiber k).isAborted = false → (e.fiber k).pending = 0

/-- No fiber is lost, duplicated or resumed early. -/
structure Accounted (e : Engine) : Prop where
  tallied : ∀ k, e.Tallied k
  nodup : e.queue.Nodup

/-- From `a` on to `e` no fiber vanishes or changes its parent, one that is finished stays so, and one that
was not discarded never will be. -/
structure Outlived (a e : Engine) : Prop where
  size : a.fibers.size ≤ e.fibers.size
  parent : ∀ k, k < a.fibers.size → (e.fiber k).parent = (a.fiber k).parent
  finished : ∀ k, (a.fiber k).finished = true → (e.fiber k).finished = true
  blank : ∀ k, k < a.fibers.size → e.Discarded k → (a.fiber k).Blank

namespace Outlived

variable {a b c : Engine}

/-- Who has no child has had none. -/
theorem childless (h : Outlived a b) {k : Nat} (hk : ∀ j, (b.fiber j).parent ≠ some k) (j : Nat) :
    (a.fiber j).parent ≠ some k := by
  by_cases hj : j < a.fibers.size
  · rw [← h.parent j hj]
    exact hk j
  · rw [fiber_out (Nat.not_lt.1 hj)]
    intro hp
    cases hp

theorem discarded (h : Outlived a b) {k : Nat} (hk : k < a.fibers.size) (hd : b.Discarded k) : a.Discarded k :=
  ⟨h.blank k hk hd, h.childless hd.childless⟩

theorem refl (a : Engine) : Outlived a a := ⟨Nat.le_refl _, fun _ _ => rfl, fun _ => id, fun _ _ h => h.blank⟩

theorem trans (h : Outlived a b) (h' : Outlived b c) : Outlived a c :=
  ⟨Nat.le_trans h.size h'.size, fun k hk => (h'.parent k (Nat.lt_of_lt_of_le hk h.size)).trans (h.parent k hk),
    fun k hk => h'.finished k (h.finished k hk),
    fun k hk hd => h.blank k hk (h'.discarded (Nat.lt_of_lt_of_le hk h.size) hd)⟩

theorem of_fibers (h : b.fibers = a.fibers) : Outlived a b :=
  ⟨Nat.le_of_eq (by rw [h]), fun k _ => by rw [fiber_congr h], fun k hk => by rw [fiber_congr h]; exact hk,
    fun k _ hd => by rw [← fiber_congr h]; exact hd.blank⟩

end Outlived

section Counting

/-- How a count changes when one fiber does. -/
theorem countP_modify_eq {p : Fiber → Bool} {g : Fiber → Fiber} {fs : List Fiber} {k : Nat} {x : Fiber}
    (hx : fs[k]? = some x) : (fs.modify k g).countP p + (if p x then 1 else 0) =
      fs.countP p + if p (g x) then 1 else 0 := by
  induction fs generalizing k with
  | nil => simp at hx
  | cons y fs ih =>
    cases k with
    | zero =>
      have hy : y = x := by simpa using hx
      simp only [List.modify_zero_cons, List.countP_cons, hy]
      omega
    | succ k =>
      have := ih (by simpa using hx)
      simp only [List.modify_succ_cons, List.countP_cons]
      omega

theorem openKids_congr {e e' : Engine} (h : e'.fibers = e.fibers) (p : Nat) : e'.openKids p = e.openKids p := by
  rw [openKids, openKids, h]

theorem openKids_modifyFiber (e : Engine) (k : Nat) {g : Fiber → Fiber} (hp : ∀ x, (g x).parent = x.parent)
    (hf : ∀ x, (g x).finished = x.finished) (p : Nat) : (e.modifyFiber k g).openKids p = e.openKids p := by
  rw [openKids, openKids, modifyFiber, Array.toList_modify]
  exact countP_modify (fun x => by rw [hp, hf]) _ k

theorem openKids_append {e e' : Engine} {fs : List Fiber} (h : e'.fibers = e.fibers ++ fs.toArray) (p : Nat) :
    e'.openKids p = e.openKids p + fs.countP fun x => x.parent = some p && !x.finished := by
  simp [openKids, h, List.countP_append]

/-- New children of one fiber are open children of that fiber. -/
theorem countP_fresh {q : Nat} {fs : List Fiber} (h : ∀ x ∈ fs, Fresh q x) (p : Nat) :
    fs.countP (fun x => x.parent = some p && !x.finished) = if p = q then fs.length else 0 := by
  split
  · rename_i hpq
    rw [List.countP_eq_length]
    intro x hx
    simp [(h x hx).parent, (h x hx).finished, hpq]
  · rename_i hpq
    rw [List.countP_eq_zero]
    intro x hx
    simp [(h x hx).parent, Ne.symm hpq]

theorem toList_fiber {e : Engine} {k : Nat} (hk : k < e.fibers.size) : e.fibers.toList[k]? = some (e.fiber k) := by
  simp [fiber, hk]

/-- The end of a fiber closes one child of its parent. -/
theorem openKids_finished {e : Engine} {f : Nat} (hf : f < e.fibers.size) (hopen : (e.fiber f).finished = false)
    (p : Nat) : (e.modifyFiber f fun x => { x with finished := true }).openKids p +
      (if (e.fiber f).parent = some p then 1 else 0) = e.openKids p := by
  have h := countP_modify_eq (p := fun x => x.parent = some p && !x.finished)
    (g := fun x => { x with finished := true }) (toList_fiber hf)
  simp only [hopen, Bool.not_false, Bool.and_true, decide_eq_true_eq, Bool.not_true, Bool.and_false,
    Bool.false_eq_true, if_false, Nat.add_zero] at h
  rw [openKids, openKids, modifyFiber, Array.toList_modify]
  exact h

end Counting

theorem finish_eq_self {e : Engine} {f : Nat} (h : (e.fiber f).finished = true) : e.finish f = e := by
  simp [finish, h]

/-- What the end of a fiber changes: it is marked, its parent waits for one less, and goes to the head of the
queue if that was all it waited for. -/
structure Finishing (f : Nat) (e e' : Engine) : Prop where
  size : e'.fibers.size = e.fibers.size
  self : e'.fiber f = { e.fiber f with finished := true }
  parent : ∀ p, (e.fiber f).parent = some p → e'.fiber p = { e.fiber p with pending := (e.fiber p).pending - 1 }
  other : ∀ k, k ≠ f → (e.fiber f).parent ≠ some k → e'.fiber k = e.fiber k
  kids : ∀ p, e'.openKids p + (if (e.fiber f).parent = some p then 1 else 0) = e.openKids p
  queue : e'.queue = e.queue ∨ ∃ p, (e.fiber f).parent = some p ∧ e'.queue = p :: e.queue
  resumed : ∀ p, (e.fiber f).parent = some p →
    ((e.fiber p).pending - 1 = 0 ∧ (e.fiber p).isAborted = false ↔ e'.queue = p :: e.queue)

theorem finish_eq {e : Engine} {f : Nat} (hopen : (e.fiber f).finished = false) : e.finish f = match (e.fiber f).parent with
    | some p => (e.modifyFiber f fun x => { x with finished := true }).childFinished p
    | none => e.modifyFiber f fun x => { x with finished := true } :=
  if_neg (by simp [hopen])

/-- An open fiber is over then, its parent waits for one child less, and nobody else changes. -/
theorem finishing_finish {e : Engine} {f : Nat} (hf : f < e.fibers.size) (hopen : (e.fiber f).finished = false)
    (hlt : ∀ p, (e.fiber f).parent = some p → p < f) : Finishing f e (e.finish f) := by
  have heq := finish_eq hopen
  have hkids := openKids_finished hf hopen
  have hsize : (e.modifyFiber f fun x => { x with finished := true }).fibers.size = e.fibers.size := by simp
  have hfiber (k : Nat) := e.fiber_modifyFiber f k fun x => { x with finished := true }
  have hqueue : (e.modifyFiber f fun x => { x with finished := true }).queue = e.queue := rfl
  generalize e.modifyFiber f (fun x => { x with finished := true }) = m at heq hkids hsize hfiber hqueue
  have hself : m.fiber f = { e.fiber f with finished := true } := by rw [hfiber, if_pos ⟨rfl, hf⟩]
  have hother (k : Nat) (hk : k ≠ f) : m.fiber k = e.fiber k := by rw [hfiber, if_neg fun h => hk h.1.symm]
  cases hparent : (e.fiber f).parent with
  | none =>
    have hnone (p : Nat) : (e.fiber f).parent ≠ some p := by simp [hparent]
    rw [hparent] at heq
    rw [heq]
    exact ⟨hsize, hself, fun p hp => absurd hp (hnone p), fun k hk _ => hother k hk, hkids, .inl hqueue,
      fun p hp => absurd hp (hnone p)⟩
  | some p =>
    have hpf := hlt p hparent
    rw [hparent] at heq hkids
    have hcfiber (k : Nat) := m.fiber_modifyFiber p k fun x => { x with pending := x.pending - 1 }
    have hckids := m.openKids_modifyFiber p (g := fun x => { x with pending := x.pending - 1 }) (fun _ => rfl)
      fun _ => rfl
    have hcsize : (m.modifyFiber p fun x => { x with pending := x.pending - 1 }).fibers.size = e.fibers.size := by
      simp [hsize]
    have hcqueue : (m.modifyFiber p fun x => { x with pending := x.pending - 1 }).queue = e.queue := hqueue
    simp only [childFinished] at heq
    generalize m.modifyFiber p (fun x => { x with pending := x.pending - 1 }) = c at heq hcfiber hckids hcsize hcqueue
    have hcparent : c.fiber p = { e.fiber p with pending := (e.fiber p).pending - 1 } := by
      rw [hcfiber, if_pos ⟨rfl, by omega⟩, hother p (by omega)]
    -- The rest is the same whether the parent is resumed or not.
    have hover (e' : Engine) (hf' : e'.fibers = c.fibers)
        (hq : e'.queue = c.queue ∨ ∃ p, (e.fiber f).parent = some p ∧ e'.queue = p :: c.queue)
        (hr : (e.fiber p).pending - 1 = 0 ∧ (e.fiber p).isAborted = false ↔ e'.queue = p :: c.queue) : Finishing f e e' := by
      have hfiber' := fiber_congr hf'
      refine ⟨by rw [hf', hcsize], ?_, ?_, ?_, ?_, by rw [← hcqueue]; exact hq, ?_⟩
      · rw [hfiber', hcfiber, if_neg fun h => absurd h.1 (by omega), hself]
      · intro q hq
        rw [hparent] at hq
        cases hq
        rw [hfiber', hcparent]
      · intro k hk hkp
        rw [hparent] at hkp
        rw [hfiber', hcfiber, if_neg fun h => hkp (congrArg some h.1), hother k hk]
      · intro q
        rw [openKids_congr hf', hckids, hparent]
        exact hkids q
      · intro q hq
        rw [hparent] at hq
        cases hq
        rw [← hcqueue]
        exact hr
    have hne (xs : List Nat) : xs ≠ p :: xs := fun h => by
      have := congrArg List.length h
      simp at this
    have hcond : ((c.fiber p).pending = 0 && !(c.fiber p).isAborted) = true ↔
        (e.fiber p).pending - 1 = 0 ∧ (e.fiber p).isAborted = false := by
      rw [hcparent]
      simp
    split at heq
    · rename_i hr
      rw [heq]
      exact hover (c.resume p) rfl (.inr ⟨p, hparent, rfl⟩) ⟨fun _ => rfl, fun _ => hcond.1 hr⟩
    · rename_i hr
      rw [heq]
      exact hover c rfl (.inl rfl) ⟨fun h => absurd (hcond.2 h) hr, fun h => absurd h (hne _)⟩

namespace Tallied

variable {e e' : Engine} {k : Nat}

/-- What a fiber that did not change has to see of a change. -/
theorem keep (h : e.Tallied k) (hk : k < e.fibers.size) (hfiber : e'.fiber k = e.fiber k)
    (hsize : e.fibers.size ≤ e'.fibers.size) (hkids : e'.openKids k = e.openKids k)
    (hqueue : k ∈ e'.queue ↔ k ∈ e.queue) (hcurrent : e'.current = some k ↔ e.current = some k)
    (hdisposed : e'.isDisposed = false → e.isDisposed = false)
    (hparents : ∀ j, (e'.fiber j).parent = some k → (e.fiber j).parent = some k) : e'.Tallied k := by
  refine ⟨?_, ?_, ?_, ?_, ?_, ?_, ?_⟩
  · rw [hfiber]
    exact h.parent
  · rw [hfiber, hkids]
    exact h.pending
  · rw [hqueue, hfiber]
    exact fun hq => ⟨Nat.lt_of_lt_of_le hk hsize, (h.queued hq).2⟩
  · rw [hqueue, hcurrent]
    exact fun hc => ⟨Nat.lt_of_lt_of_le hk hsize, (h.atWork hc).2⟩
  · rw [hqueue, hcurrent, hfiber]
    intro hd _ hopen hidle
    refine (h.present (hdisposed hd) hk hopen hidle).imp id (Or.imp id fun hdis => ?_)
    exact ⟨by rw [hfiber]; exact hdis.blank, fun j hj => hdis.childless j (hparents j hj)⟩
  · rw [hfiber, hcurrent]
    exact h.aborted
  · rw [hfiber]
    exact h.settled

/-- Nothing is asked of a fiber that is not there, if nobody knows of it. -/
theorem out (hk : e.fibers.size ≤ k) (hkids : e.openKids k = 0) (hqueue : k ∉ e.queue)
    (hcurrent : e.current ≠ some k) : e.Tallied k := by
  have hnone := fiber_out hk
  refine ⟨?_, ?_, fun hq => absurd hq hqueue, fun hc => absurd hc hcurrent, fun _ hlt => absurd hlt (Nat.not_lt.2 hk),
    ?_, ?_⟩
  · rw [hnone]
    intro p hp
    cases hp
  · rw [hnone, hkids]
    rfl
  · rw [hnone]
    intro ha
    cases ha
  · rw [hnone]
    intro hf
    cases hf

/-- A new child of a fiber, which stands in the queue. -/
theorem fresh {p : Nat} (hf : Fresh p (e.fiber k)) (hp : p < k) (hk : k < e.fibers.size) (hkids : e.openKids k = 0)
    (hqueue : k ∈ e.queue) (hcurrent : e.current ≠ some k) : e.Tallied k := by
  refine ⟨?_, by rw [hf.pending, hkids], fun _ => ⟨hk, hf.finished, hf.pending⟩, fun hc => absurd hc hcurrent,
    fun _ _ _ _ => .inl hqueue, ?_, fun _ _ => hf.pending⟩
  · rw [hf.parent]
    rintro q ⟨⟩
    exact hp
  · rw [hf.isAborted]
    intro ha
    cases ha

end Tallied

namespace Accounted

variable {e e' : Engine} {f : Nat}

theorem lt_size (h : e.Accounted) {k : Nat} (hk : k ∈ e.queue) : k < e.fibers.size := ((h.tallied k).queued hk).1

/-- Nobody is the child of a fiber that is not there. -/
theorem openKids_out (h : e.Accounted) {p : Nat} (hp : e.fibers.size ≤ p) : e.openKids p = 0 := by
  have hpending := (h.tallied p).pending
  rw [fiber_out hp] at hpending
  exact hpending.symm

theorem current_lt (h : e.Accounted) (hc : e.current = some f) : f < e.fibers.size := ((h.tallied f).atWork hc).1

theorem current_not_mem (h : e.Accounted) (hc : e.current = some f) : f ∉ e.queue := ((h.tallied f).atWork hc).2

/-- What is not there is neither in the queue nor at work. -/
theorem out (h : e.Accounted) {k : Nat} (hk : e.fibers.size ≤ k) : k ∉ e.queue ∧ e.current ≠ some k :=
  ⟨fun hq => absurd (h.lt_size hq) (Nat.not_lt.2 hk), fun hc => absurd (h.current_lt hc) (Nat.not_lt.2 hk)⟩

theorem empty : Accounted {} := by
  refine ⟨fun k => .out ?_ ?_ ?_ ?_, List.nodup_nil⟩
  · exact Nat.zero_le k
  · rfl
  · exact List.not_mem_nil
  · intro hc
    cases hc

/-- Only the fibers, the queue and the fiber at work matter, and whether the engine is in use. -/
theorem congr (h : e.Accounted) (hf : e'.fibers = e.fibers) (hq : e'.queue = e.queue) (hc : e'.current = e.current)
    (hd : e'.isDisposed = false → e.isDisposed = false) : e'.Accounted := by
  have hfiber := fiber_congr hf
  refine ⟨fun k => ?_, by rw [hq]; exact h.nodup⟩
  by_cases hk : k < e.fibers.size
  · refine (h.tallied k).keep hk (hfiber k) ?_ (openKids_congr hf k) ?_ ?_ hd ?_
    · exact Nat.le_of_eq (by rw [hf])
    · rw [hq]
    · rw [hc]
    · intro j hj
      rw [← hfiber, hj]
  · have hk := Nat.not_lt.1 hk
    refine .out (by rw [hf]; exact hk) ?_ ?_ ?_
    · rw [openKids_congr hf, h.openKids_out hk]
    · rw [hq]
      exact (h.out hk).1
    · rw [hc]
      exact (h.out hk).2

/-- The fiber at work changes in what is its own business. -/
theorem alter (h : e.Accounted) (hc : e.current = some f) {g : Fiber → Fiber} (hparent : ∀ x, (g x).parent = x.parent)
    (hpending : ∀ x, (g x).pending = x.pending) (hfinished : ∀ x, (g x).finished = x.finished)
    (hover : ∀ x : Fiber, (g x).isAborted = false → x.isAborted = false) : (e.modifyFiber f g).Accounted := by
  have hkids := openKids_modifyFiber e f hparent hfinished
  have hpar (k : Nat) : ((e.modifyFiber f g).fiber k).parent = (e.fiber k).parent := by
    rw [fiber_modifyFiber]
    split
    · exact hparent _
    · rfl
  refine ⟨fun k => ?_, h.nodup⟩
  by_cases hk : k = f
  · subst hk
    have hk := h.current_lt hc
    have hself : (e.modifyFiber k g).fiber k = g (e.fiber k) := by rw [fiber_modifyFiber, if_pos ⟨rfl, hk⟩]
    refine ⟨?_, ?_, fun hq => absurd hq (h.current_not_mem hc), fun _ => ⟨by simpa using hk, h.current_not_mem hc⟩,
      fun _ _ _ _ => .inr (.inl hc), fun _ => .inr hc, ?_⟩
    · rw [hpar]
      exact (h.tallied k).parent
    · rw [hself, hpending, hkids]
      exact (h.tallied k).pending
    · rw [hself, hfinished, hpending]
      exact fun hf ha => (h.tallied k).settled hf (hover _ ha)
  · by_cases hlt : k < e.fibers.size
    · have hother : (e.modifyFiber f g).fiber k = e.fiber k := by rw [fiber_modifyFiber, if_neg fun h => hk h.1.symm]
      exact (h.tallied k).keep hlt hother (by simp) (hkids k) .rfl .rfl id fun j hj => by rw [← hpar, hj]
    · have hlt := Nat.not_lt.1 hlt
      exact .out (by simpa using hlt) (by rw [hkids, h.openKids_out hlt]) (h.out hlt).1 (h.out hlt).2

/-- A root comes in at the end of the arena, with children for which it waits. -/
theorem enter (h : e.Accounted) {root : Fiber} {kids : List Fiber} (he : Entered e e' root kids)
    (hd : e'.isDisposed = e.isDisposed) : e'.Accounted := by
  have hsize := he.size
  have hroot := he.fiber_root
  have hkid {k : Nat} (hk : e.fibers.size < k) (hk' : k < e'.fibers.size) : Fresh e.fibers.size (e'.fiber k) :=
    he.fresh _ (he.mem_kids_of_lt hk hk')
  have hkids (p : Nat) : e'.openKids p = e.openKids p + if p = e.fibers.size then kids.length else 0 := by
    rw [openKids_append he.fibers, List.countP_cons, countP_fresh he.fresh, he.parent]
    simp
  have hparents (p : Nat) (hp : p ≠ e.fibers.size) (j : Nat) (hj : (e'.fiber j).parent = some p) :
      (e.fiber j).parent = some p := by
    obtain hlt | rfl | ⟨hgt, hlt⟩ | hge : j < e.fibers.size ∨ j = e.fibers.size ∨
        (e.fibers.size < j ∧ j < e'.fibers.size) ∨ e'.fibers.size ≤ j := by omega
    · rw [← he.fiber_old hlt, hj]
    · rw [hroot, he.parent] at hj
      cases hj
    · rw [(hkid hgt hlt).parent] at hj
      cases hj
      exact absurd rfl hp
    · rw [fiber_out hge] at hj
      cases hj
  have hnew {k : Nat} : k ∈ e'.queue ↔ k ∈ e.queue ∨
      (kids = [] ∧ root.isComplete = false ∧ k = e.fibers.size) ∨ (e.fibers.size < k ∧ k < e'.fibers.size) := by
    rw [he.queue, List.mem_append]
    by_cases hnone : kids = []
    · have hlen : e'.fibers.size = e.fibers.size + 1 := by rw [hsize, hnone]; rfl
      have hempty : ¬ (e.fibers.size < k ∧ k < e'.fibers.size) := by omega
      cases hcomplete : root.isComplete <;> simp [hnone, hempty]
    · have hrange : k ∈ List.range' (e.fibers.size + 1) kids.length ↔ e.fibers.size < k ∧ k < e'.fibers.size := by
        rw [List.mem_range'_1, hsize]
        omega
      simp [hnone, hrange]
  refine ⟨fun k => ?_, ?_⟩
  · obtain hk | rfl | ⟨hk, hk'⟩ | hk : k < e.fibers.size ∨ k = e.fibers.size ∨
        (e.fibers.size < k ∧ k < e'.fibers.size) ∨ e'.fibers.size ≤ k := by omega
    · refine (h.tallied k).keep hk (he.fiber_old hk) (by omega) ?_ ?_ (by rw [he.current]) (by rw [hd]; exact id)
        (hparents k (by omega))
      · rw [hkids, if_neg (by omega), Nat.add_zero]
      · rw [hnew]
        exact ⟨fun hq => hq.resolve_right (by omega), .inl⟩
    · obtain ⟨hqueue, hcurrent⟩ := h.out (Nat.le_refl _)
      have hidle : (e'.fiber e.fibers.size).pending = 0 ↔ kids = [] := by
        rw [hroot, he.pending, List.length_eq_zero_iff]
      refine ⟨?_, ?_, ?_, ?_, ?_, ?_, ?_⟩
      · rw [hroot, he.parent]
        rintro p ⟨⟩
      · rw [hroot, he.pending, hkids, h.openKids_out (Nat.le_refl _), if_pos rfl, Nat.zero_add]
      · rw [hnew, hidle, hroot, he.finished]
        rintro (hq | ⟨hnone, -, -⟩ | hq)
        · exact absurd hq hqueue
        · exact ⟨by omega, rfl, hnone⟩
        · omega
      · rw [he.current]
        exact fun hc => absurd hc hcurrent
      · rw [hnew, hidle]
        intro _ _ _ hnone
        cases hcomplete : root.isComplete with
        | false => exact .inl (.inr (.inl ⟨hnone, rfl, rfl⟩))
        | true =>
          -- With neither wires nor listeners the root is discarded.
          simp only [Fiber.isComplete, he.isAborted, Bool.false_or, Bool.and_eq_true, Option.isNone_iff_eq_none,
            List.isEmpty_iff] at hcomplete
          refine .inr (.inr ⟨?_, fun j hj => ?_⟩)
          · rw [hroot]
            exact ⟨he.parent, hcomplete.1.1, hcomplete.2, he.steps, he.finished⟩
          have hlen : e'.fibers.size = e.fibers.size + 1 := by rw [hsize, hnone]; rfl
          obtain hlt | rfl | hge : j < e.fibers.size ∨ j = e.fibers.size ∨ e'.fibers.size ≤ j := by omega
          · rw [he.fiber_old hlt] at hj
            have := (h.tallied j).parent _ hj
            omega
          · rw [hroot, he.parent] at hj
            cases hj
          · rw [fiber_out hge] at hj
            cases hj
      · rw [hroot, he.isAborted]
        intro ha
        cases ha
      · rw [hroot, he.finished]
        intro hf
        cases hf
    · refine .fresh (hkid hk hk') hk hk' ?_ ?_ ?_
      · rw [hkids, h.openKids_out (Nat.le_of_lt hk), if_neg (by omega)]
      · exact hnew.2 (.inr (.inr ⟨hk, hk'⟩))
      · rw [he.current]
        exact (h.out (Nat.le_of_lt hk)).2
    · have hout : e.fibers.size ≤ k := by omega
      refine .out hk ?_ ?_ ?_
      · rw [hkids, h.openKids_out hout, if_neg (by omega)]
      · rw [hnew]
        rintro (hq | ⟨-, -, hq⟩ | hq)
        · exact (h.out hout).1 hq
        · omega
        · omega
      · rw [he.current]
        exact (h.out hout).2
  · rw [he.queue, List.nodup_append]
    refine ⟨h.nodup, ?_, ?_⟩
    · split
      · split <;> simp
      · exact List.nodup_range' 1
    · intro k hk j hj
      have hlt := h.lt_size hk
      split at hj
      · split at hj
        · cases hj
        · rw [List.mem_singleton.1 hj]
          omega
      · have := List.mem_range'_1.1 hj
        omega

/-- A commit of the fiber at work, which may split it. -/
theorem commit (h : e.Accounted) (hc : e.current = some f)
    (hrunning : (e.fiber f).finished = true → (e.fiber f).isAborted = true) (node : NodeRef)
    (l : Option Listener) (wires : List Wire) : (e.commit f node l wires).Accounted := by
  have hf := h.current_lt hc
  have heq := commit_eq hf node l wires
  rw [if_pos hc] at heq
  have hdisposed : (e.commit f node l wires).isDisposed = e.isDisposed := by rw [heq]
  have hcurrent : (e.commit f node l wires).current = e.current := by rw [heq]
  have hqueue : (e.commit f node l wires).queue =
      List.range' e.fibers.size (branches wires).length ++ e.queue := by rw [heq]
  have hfibers : (e.commit f node l wires).fibers = (e.modifyFiber f (onto node l wires)).fibers ++
      (offshoots f (e.fiber f) node wires).toArray := by
    rw [heq]
    rfl
  generalize e.commit f node l wires = e' at hdisposed hcurrent hqueue hfibers ⊢
  have hfresh : ∀ x ∈ offshoots f (e.fiber f) node wires, Fresh f x := fun x hx => fresh_of_mem_offshoots hx
  have hfiber (k : Nat) := fiber_of_append hfibers k
  simp only [size_modifyFiber, fiber_modifyFiber] at hfiber
  have hself : e'.fiber f = onto node l wires (e.fiber f) := by rw [hfiber, if_pos hf, if_pos ⟨rfl, hf⟩]
  have hother {k : Nat} (hk : k < e.fibers.size) (hkf : k ≠ f) : e'.fiber k = e.fiber k := by
    rw [hfiber, if_pos hk, if_neg fun h => hkf h.1.symm]
  have hsize : e'.fibers.size = e.fibers.size + (branches wires).length := by
    rw [hfibers]
    simp
  have hkid {k : Nat} (hk : e.fibers.size ≤ k) (hk' : k < e'.fibers.size) : Fresh f (e'.fiber k) := by
    have hlt : k - e.fibers.size < (offshoots f (e.fiber f) node wires).length := by
      rw [length_offshoots]
      omega
    rw [hfiber, if_neg (by omega), List.getElem?_eq_getElem hlt]
    exact hfresh _ (List.getElem_mem hlt)
  have hkids (p : Nat) : e'.openKids p = e.openKids p + if p = f then (branches wires).length else 0 := by
    rw [openKids_append hfibers, countP_fresh hfresh, length_offshoots,
      openKids_modifyFiber e f (fun x => onto_parent node l wires x) fun x => onto_finished node l wires x]
  have hnew {k : Nat} : k ∈ e'.queue ↔ k ∈ e.queue ∨ (e.fibers.size ≤ k ∧ k < e'.fibers.size) := by
    rw [hqueue, List.mem_append, List.mem_range'_1, hsize, or_comm]
  refine ⟨fun k => ?_, ?_⟩
  · obtain ⟨hk, hkf⟩ | rfl | ⟨hk, hk'⟩ | hk : (k < e.fibers.size ∧ k ≠ f) ∨ k = f ∨
        (e.fibers.size ≤ k ∧ k < e'.fibers.size) ∨ e'.fibers.size ≤ k := by omega
    · refine (h.tallied k).keep hk (hother hk hkf) (by omega) ?_ ?_ (by rw [hcurrent]) (by rw [hdisposed]; exact id) ?_
      · rw [hkids, if_neg hkf, Nat.add_zero]
      · rw [hnew]
        exact ⟨fun hq => hq.resolve_right (by omega), .inl⟩
      · intro j hj
        obtain ⟨hlt, hjf⟩ | rfl | ⟨hge, hlt⟩ | hge : (j < e.fibers.size ∧ j ≠ f) ∨ j = f ∨
            (e.fibers.size ≤ j ∧ j < e'.fibers.size) ∨ e'.fibers.size ≤ j := by omega
        · rw [← hother hlt hjf, hj]
        · rw [hself, onto_parent] at hj
          exact hj
        · rw [(hkid hge hlt).parent] at hj
          cases hj
          exact absurd rfl hkf
        · rw [fiber_out hge] at hj
          cases hj
    · have hnot : k ∉ e'.queue := by
        rw [hnew]
        rintro (hq | hq)
        · exact h.current_not_mem hc hq
        · omega
      refine ⟨?_, ?_, fun hq => absurd hq hnot, fun _ => ⟨by omega, hnot⟩, ?_, ?_, ?_⟩
      · rw [hself, onto_parent]
        exact (h.tallied k).parent
      · rw [hself, onto_pending, hkids, if_pos rfl, (h.tallied k).pending]
      · exact fun _ _ _ _ => .inr (.inl (by rw [hcurrent, hc]))
      · exact fun _ => .inr (by rw [hcurrent, hc])
      · rw [hself, onto_finished, onto_isAborted]
        intro hfin ha
        rw [hrunning hfin] at ha
        cases ha
    · refine .fresh (hkid hk hk') (by omega) hk' ?_ (hnew.2 (.inr ⟨hk, hk'⟩)) ?_
      · rw [hkids, h.openKids_out hk, if_neg (by omega)]
      · rw [hcurrent]
        exact (h.out hk).2
    · have hout : e.fibers.size ≤ k := by omega
      refine .out hk ?_ ?_ ?_
      · rw [hkids, h.openKids_out hout, if_neg (by omega)]
      · rw [hnew]
        rintro (hq | hq)
        · exact (h.out hout).1 hq
        · omega
      · rw [hcurrent]
        exact (h.out hout).2
  · rw [hqueue, List.nodup_append]
    refine ⟨List.nodup_range' 1, h.nodup, ?_⟩
    intro k hk j hj
    have := List.mem_range'_1.1 hk
    have := h.lt_size hj
    omega

/-- One fiber changes its place between the queue and work. -/
theorem rearrange (h : e.Accounted) (hf : e'.fibers = e.fibers) (hd : e'.isDisposed = e.isDisposed)
    (hnodup : e'.queue.Nodup)
    (hothers : ∀ k, k ≠ f → (k ∈ e'.queue ↔ k ∈ e.queue) ∧ e'.current ≠ some k ∧ e.current ≠ some k)
    (hqueued : f ∈ e'.queue → f < e.fibers.size ∧ (e.fiber f).finished = false ∧ (e.fiber f).pending = 0)
    (hwork : e'.current = some f → f < e.fibers.size ∧ f ∉ e'.queue)
    (hpresent : (e.fiber f).finished = false → (e.fiber f).pending = 0 → f ∈ e'.queue ∨ e'.current = some f)
    (haborted : (e.fiber f).isAborted = true → (e.fiber f).finished = true ∨ e'.current = some f) :
    e'.Accounted := by
  have hfiber := fiber_congr hf
  refine ⟨fun k => ?_, hnodup⟩
  have hk := h.tallied k
  by_cases hkf : k = f
  · subst hkf
    refine ⟨?_, ?_, ?_, ?_, ?_, ?_, ?_⟩
    · rw [hfiber]
      exact hk.parent
    · rw [hfiber, openKids_congr hf]
      exact hk.pending
    · rw [hf, hfiber]
      exact hqueued
    · rw [hf]
      exact hwork
    · rw [hfiber]
      exact fun _ _ hopen hidle => (hpresent hopen hidle).imp id .inl
    · rw [hfiber]
      exact haborted
    · rw [hfiber]
      exact hk.settled
  · obtain ⟨hmem, hc', hc⟩ := hothers k hkf
    by_cases hlt : k < e.fibers.size
    · refine hk.keep hlt (hfiber k) (Nat.le_of_eq (by rw [hf])) (openKids_congr hf k) hmem ?_
        (by rw [hd]; exact id) fun j hj => by rw [← hfiber, hj]
      exact ⟨fun h => absurd h hc', fun h => absurd h hc⟩
    · have hlt := Nat.not_lt.1 hlt
      exact .out (by rw [hf]; exact hlt) (by rw [openKids_congr hf, h.openKids_out hlt])
        (fun hm => (h.out hlt).1 (hmem.1 hm)) hc'

/-- The head of the queue gets to work. -/
theorem take (h : e.Accounted) {others : List Nat} (hq : e.queue = f :: others) (hc : e.current = none) :
    { e with queue := others, current := some f }.Accounted := by
  have hnodup := h.nodup
  rw [hq, List.nodup_cons] at hnodup
  have hlt : f < e.fibers.size := h.lt_size (by rw [hq]; exact List.mem_cons_self)
  refine h.rearrange (f := f) rfl rfl hnodup.2 ?_ (fun hm => absurd hm hnodup.1) (fun _ => ⟨hlt, hnodup.1⟩)
    (fun _ _ => .inr rfl) fun _ => .inr rfl
  intro k hk
  refine ⟨by simp [hq, hk], ?_, by simp [hc]⟩
  intro hs
  exact hk (Option.some.inj hs).symm

/-- The fiber at work goes back to the head of the queue. -/
theorem requeue (h : e.Accounted) (hc : e.current = some f) (hopen : (e.fiber f).finished = false)
    (hidle : (e.fiber f).pending = 0) (hrunning : (e.fiber f).isAborted = false) :
    { e with queue := f :: e.queue, current := none }.Accounted := by
  refine h.rearrange (f := f) rfl rfl (List.nodup_cons.2 ⟨h.current_not_mem hc, h.nodup⟩) ?_
    (fun _ => ⟨h.current_lt hc, hopen, hidle⟩) (fun hs => by cases hs) (fun _ _ => .inl List.mem_cons_self) ?_
  · intro k hk
    refine ⟨by simp [hk], by simp, ?_⟩
    rw [hc]
    intro hs
    exact hk (Option.some.inj hs).symm
  · rw [hrunning]
    intro ha
    cases ha

/-- The fiber at work makes room: it is finished, or waits for its children. -/
theorem leave (h : e.Accounted) (hc : e.current = some f)
    (hgone : (e.fiber f).finished = true ∨ (e.fiber f).isAborted = false ∧ (e.fiber f).pending ≠ 0) :
    { e with current := none }.Accounted := by
  refine h.rearrange (f := f) rfl rfl h.nodup ?_ (fun hm => absurd hm (h.current_not_mem hc))
    (fun hs => by cases hs) ?_ ?_
  · intro k hk
    refine ⟨.rfl, by simp, ?_⟩
    rw [hc]
    intro hs
    exact hk (Option.some.inj hs).symm
  · intro hopen hidle
    rcases hgone with hfin | ⟨-, hwaits⟩
    · rw [hfin] at hopen
      cases hopen
    · exact absurd hidle hwaits
  · intro ha
    rcases hgone with hfin | ⟨hrunning, -⟩
    · exact .inl hfin
    · rw [hrunning] at ha
      cases ha

/-- The queue of an engine that is disposed of is emptied. -/
theorem clear (h : e.Accounted) (hd : e.isDisposed = true) (hf : e'.fibers = e.fibers) (hq : e'.queue = [])
    (hc : e'.current = e.current) (hd' : e'.isDisposed = e.isDisposed) : e'.Accounted := by
  have hfiber := fiber_congr hf
  refine ⟨fun k => ?_, by rw [hq]; exact List.nodup_nil⟩
  have hk := h.tallied k
  refine ⟨?_, ?_, ?_, ?_, ?_, ?_, ?_⟩
  · rw [hfiber]
    exact hk.parent
  · rw [hfiber, openKids_congr hf]
    exact hk.pending
  · rw [hq]
    intro hmem
    cases hmem
  · rw [hc, hf, hq]
    exact fun hc => ⟨(hk.atWork hc).1, List.not_mem_nil⟩
  · intro hopen
    rw [hd', hd] at hopen
    cases hopen
  · rw [hfiber, hc]
    exact hk.aborted
  · rw [hfiber]
    exact hk.settled

/-- The fiber at work is over and tells its parent, which goes on if it waited for nobody else. -/
theorem finish (h : e.Accounted) (hc : e.current = some f)
    (hover : (e.fiber f).isAborted = true ∨ (e.fiber f).pending = 0) : (e.finish f).Accounted := by
  by_cases hopen : (e.fiber f).finished = true
  · rw [finish_eq_self hopen]
    exact h
  have hopen := Bool.eq_false_iff.2 hopen
  have hf := h.current_lt hc
  have hov := finishing_finish hf hopen (h.tallied f).parent
  have hframe := finish_frame e f
  have hcurrent : (e.finish f).current = some f := by rw [hframe, hc]
  have hdisposed : (e.finish f).isDisposed = e.isDisposed := by rw [hframe]
  generalize e.finish f = e' at hov hcurrent hdisposed ⊢
  -- The parent has waited for the fiber, so that it is neither in the queue nor finished unless it failed.
  have hwaited {p : Nat} (hp : (e.fiber f).parent = some p) : 0 < (e.fiber p).pending := by
    have := hov.kids p
    rw [if_pos hp] at this
    rw [(h.tallied p).pending]
    omega
  have hout {p : Nat} (hp : (e.fiber f).parent = some p) : p ∉ e.queue := by
    intro hq
    have := ((h.tallied p).queued hq).2.2
    have := hwaited hp
    omega
  have hparents (j k : Nat) (hj : (e'.fiber j).parent = some k) : (e.fiber j).parent = some k := by
    by_cases hjf : j = f
    · rw [hjf, hov.self] at hj
      rw [hjf]
      exact hj
    · by_cases hjp : (e.fiber f).parent = some j
      · rw [hov.parent j hjp] at hj
        exact hj
      · rw [hov.other j hjf hjp] at hj
        exact hj
  have hqueue (k : Nat) : k ∈ e'.queue ↔ k ∈ e.queue ∨
      ((e.fiber f).parent = some k ∧ (e.fiber k).pending - 1 = 0 ∧ (e.fiber k).isAborted = false) := by
    rcases hov.queue with hq | ⟨p, hp, hq⟩
    · rw [hq]
      refine ⟨.inl, fun hk => hk.resolve_right ?_⟩
      rintro ⟨hp, hr⟩
      have := congrArg List.length (hq.symm.trans ((hov.resumed k hp).1 hr))
      simp at this
    · rw [hq, List.mem_cons, or_comm, hp]
      refine or_congr .rfl ⟨?_, fun hk => (Option.some.inj hk.1).symm⟩
      rintro rfl
      exact ⟨rfl, (hov.resumed k hp).2 hq⟩
  have hnodup : e'.queue.Nodup := by
    rcases hov.queue with hq | ⟨p, hp, hq⟩
    · rw [hq]
      exact h.nodup
    · rw [hq]
      exact List.nodup_cons.2 ⟨hout hp, h.nodup⟩
  refine ⟨fun k => ?_, hnodup⟩
  have hk := h.tallied k
  by_cases hkf : k = f
  · subst hkf
    have hnot : k ∉ e'.queue := by
      rw [hqueue]
      rintro (hq | ⟨hq, -⟩)
      · exact h.current_not_mem hc hq
      · exact Nat.lt_irrefl k (hk.parent k hq)
    have hne : ¬ (e.fiber k).parent = some k := fun hq => Nat.lt_irrefl k (hk.parent k hq)
    refine ⟨?_, ?_, fun hq => absurd hq hnot, fun _ => ⟨by rw [hov.size]; exact hf, hnot⟩, ?_, ?_, ?_⟩
    · rw [hov.self]
      exact hk.parent
    · have := hov.kids k
      rw [if_neg hne] at this
      rw [hov.self]
      exact hk.pending.trans this.symm
    · rw [hov.self]
      intro _ _ hfin
      cases hfin
    · rw [hov.self]
      exact fun _ => .inl rfl
    · rw [hov.self]
      exact fun _ ha => hover.resolve_left (by rw [ha]; exact Bool.false_ne_true)
  · by_cases hp : (e.fiber f).parent = some k
    · have hpos := hwaited hp
      have hlt : k < e.fibers.size := Nat.lt_trans ((h.tallied f).parent k hp) hf
      have hidle : e.current ≠ some k := by
        rw [hc]
        exact fun hs => hkf (Option.some.inj hs).symm
      have hrunning (ha : (e.fiber k).isAborted = false) : (e.fiber k).finished = false := by
        apply Bool.eq_false_iff.2
        intro hfin
        have := hk.settled hfin ha
        omega
      refine ⟨?_, ?_, ?_, ?_, ?_, ?_, ?_⟩
      · rw [hov.parent k hp]
        exact hk.parent
      · have := hov.kids k
        rw [if_pos hp] at this
        rw [hov.parent k hp]
        show (e.fiber k).pending - 1 = _
        rw [hk.pending]
        omega
      · rw [hqueue, hov.size, hov.parent k hp]
        rintro (hq | ⟨-, hone, ha⟩)
        · exact absurd hq (hout hp)
        · exact ⟨hlt, hrunning ha, hone⟩
      · rw [hcurrent, ← hc]
        exact fun hs => absurd hs hidle
      · rw [hqueue, hov.parent k hp]
        intro _ _ hfin hzero
        have ha : (e.fiber k).isAborted = false := by
          apply Bool.eq_false_iff.2
          intro ha
          have hfin : (e.fiber k).finished = false := hfin
          rcases hk.aborted ha with hfin' | hs
          · rw [hfin] at hfin'
            cases hfin'
          · exact hidle hs
        exact .inl (.inr ⟨hp, hzero, ha⟩)
      · rw [hov.parent k hp]
        exact fun ha => .inl ((hk.aborted ha).resolve_right hidle)
      · rw [hov.parent k hp]
        intro hfin ha
        rw [hrunning ha] at hfin
        cases hfin
    · by_cases hlt : k < e.fibers.size
      · refine hk.keep hlt (hov.other k hkf hp) (Nat.le_of_eq (by rw [hov.size])) ?_ ?_ (by rw [hcurrent, hc])
          (by rw [hdisposed]; exact id) fun j => hparents j k
        · have := hov.kids k
          rw [if_neg hp] at this
          omega
        · rw [hqueue]
          exact ⟨fun hq => hq.resolve_right fun hq => hp hq.1, .inl⟩
      · have hlt := Nat.not_lt.1 hlt
        refine .out (by rw [hov.size]; exact hlt) ?_ ?_ ?_
        · have := hov.kids k
          rw [if_neg hp, h.openKids_out hlt] at this
          omega
        · rw [hqueue]
          rintro (hq | ⟨hq, -⟩)
          · exact (h.out hlt).1 hq
          · exact hp hq
        · rw [hcurrent, ← hc]
          exact (h.out hlt).2

/-- The fiber at work fails and is over at once, whether or not it has children. -/
theorem abort (h : e.Accounted) (hc : e.current = some f) : (e.abort f).Accounted := by
  have hf := h.current_lt hc
  have haltered := h.alter hc (g := fun x => { x with isAborted := true, next := none, listeners := [] })
    (fun _ => rfl) (fun _ => rfl) (fun _ => rfl) fun _ ha => by cases ha
  have hself : (e.modifyFiber f fun x => { x with isAborted := true, next := none, listeners := [] }).fiber f =
      { e.fiber f with isAborted := true, next := none, listeners := [] } := by
    rw [fiber_modifyFiber, if_pos ⟨rfl, hf⟩]
  exact haltered.finish hc (.inl (by rw [hself]))

end Accounted

namespace Outlived

variable {a e e' : Engine} {f : Nat}

/-- A change of a fiber that leaves its parent and its end alone loses nobody. -/
theorem modifyFiber (e : Engine) (k : Nat) {g : Fiber → Fiber} (hp : ∀ x, (g x).parent = x.parent)
    (hf : ∀ x : Fiber, x.finished = true → (g x).finished = true) (hb : (g (e.fiber k)).Blank → (e.fiber k).Blank) :
    Outlived e (e.modifyFiber k g) := by
  refine ⟨by simp, ?_, ?_, ?_⟩
  · intro j _
    rw [fiber_modifyFiber]
    split
    · exact hp _
    · rfl
  · intro j
    rw [fiber_modifyFiber]
    split
    · exact hf _
    · exact id
  · intro j _ hd
    have hblank := hd.blank
    rw [fiber_modifyFiber] at hblank
    split at hblank
    · rename_i hj
      obtain ⟨rfl, -⟩ := hj
      exact hb hblank
    · exact hblank

theorem enter {root : Fiber} {kids : List Fiber} (h : Entered e e' root kids) : Outlived e e' := by
  refine ⟨h.kept.size, h.kept.parent, fun k hk => ?_, fun k hk hd => by rw [← h.fiber_old hk]; exact hd.blank⟩
  by_cases hlt : k < e.fibers.size
  · rw [h.fiber_old hlt]
    exact hk
  · rw [fiber_out (Nat.not_lt.1 hlt)] at hk
    cases hk

/-- A fiber that has committed and has still nothing to run had nothing before. -/
theorem blank_of_onto {node : NodeRef} {l : Option Listener} {wires : List Wire} {x : Fiber}
    (h : (onto node l wires x).Blank) : x.Blank := by
  have hlisteners := h.listeners
  rw [onto_listeners] at hlisteners
  refine ⟨(onto_parent ..).symm.trans h.parent, ?_, ?_, (onto_steps ..).symm.trans h.steps,
    (onto_finished ..).symm.trans h.finished⟩
  · match wires with
    | [] => exact h.next
    | [w] => cases h.next
    | w :: w' :: ws => exact h.next
  · cases l with
    | none => exact hlisteners
    | some l => cases hlisteners

/-- The children of a split are new, and nobody that was there is lost. -/
theorem commit (hf : f < e.fibers.size) (node : NodeRef) (l : Option Listener) (wires : List Wire) :
    Outlived e (e.commit f node l wires) := by
  have hfibers : (e.commit f node l wires).fibers = (e.modifyFiber f (onto node l wires)).fibers ++
      (offshoots f (e.fiber f) node wires).toArray := by
    rw [commit_eq hf]
    rfl
  generalize e.commit f node l wires = e' at hfibers
  have hold {k : Nat} (hk : k < e.fibers.size) : e'.fiber k = (e.modifyFiber f (onto node l wires)).fiber k := by
    rw [fiber_of_append hfibers, if_pos (by simpa using hk)]
  have hself : e'.fiber f = onto node l wires (e.fiber f) := by rw [hold hf, fiber_modifyFiber, if_pos ⟨rfl, hf⟩]
  have hother {k : Nat} (hk : k < e.fibers.size) (hkf : k ≠ f) : e'.fiber k = e.fiber k := by
    rw [hold hk, fiber_modifyFiber, if_neg fun h => hkf h.1.symm]
  refine ⟨by rw [hfibers]; simp, ?_, ?_, ?_⟩
  · intro k hk
    by_cases hkf : k = f
    · rw [hkf, hself, onto_parent]
    · rw [hother hk hkf]
  · intro k hk
    by_cases hlt : k < e.fibers.size
    · by_cases hkf : k = f
      · rw [hkf, hself, onto_finished, ← hkf, hk]
      · rw [hother hlt hkf, hk]
    · rw [fiber_out (Nat.not_lt.1 hlt)] at hk
      cases hk
  · intro k hk hd
    have hblank := hd.blank
    by_cases hkf : k = f
    · rw [hkf, hself] at hblank
      rw [hkf]
      exact blank_of_onto hblank
    · rw [hother hk hkf] at hblank
      exact hblank

/-- Only the fiber that ends is lost, and it is over. -/
theorem finish (hf : f < e.fibers.size) (hlt : ∀ p, (e.fiber f).parent = some p → p < f) :
    Outlived e (e.finish f) := by
  cases hopen : (e.fiber f).finished with
  | true =>
    rw [finish_eq_self hopen]
    exact refl e
  | false =>
    have hov := finishing_finish hf hopen hlt
    have hkeep (k : Nat) : ((e.finish f).fiber k).parent = (e.fiber k).parent ∧
        ((e.fiber k).finished = true → ((e.finish f).fiber k).finished = true) ∧
        (((e.finish f).fiber k).Blank → (e.fiber k).Blank) := by
      by_cases hkf : k = f
      · rw [hkf, hov.self]
        exact ⟨rfl, fun _ => rfl, fun hb => by cases hb.finished⟩
      · by_cases hp : (e.fiber f).parent = some k
        · rw [hov.parent k hp]
          exact ⟨rfl, id, fun hb => ⟨hb.parent, hb.next, hb.listeners, hb.steps, hb.finished⟩⟩
        · rw [hov.other k hkf hp]
          exact ⟨rfl, id, id⟩
    exact ⟨Nat.le_of_eq (by rw [hov.size]), fun k _ => (hkeep k).1, fun k => (hkeep k).2.1,
      fun k _ hd => (hkeep k).2.2 hd.blank⟩

theorem finished_finish (hf : f < e.fibers.size) (hlt : ∀ p, (e.fiber f).parent = some p → p < f) :
    ((e.finish f).fiber f).finished = true := by
  cases hopen : (e.fiber f).finished with
  | true => rw [finish_eq_self hopen, hopen]
  | false => rw [(finishing_finish hf hopen hlt).self]

/-- A fiber that fails is over, and nobody else is lost. -/
theorem abort (h : e.Accounted) (hc : e.current = some f) : Outlived e (e.abort f) := by
  have hf := h.current_lt hc
  have hfiber (k : Nat) := e.fiber_modifyFiber f k fun x => { x with isAborted := true, next := none, listeners := [] }
  have hsize := e.size_modifyFiber f fun x => { x with isAborted := true, next := none, listeners := [] }
  have hkeep (k : Nat) : ((e.modifyFiber f fun x => { x with isAborted := true, next := none, listeners := [] }).fiber
      k).parent = (e.fiber k).parent ∧ ((e.modifyFiber f fun x =>
        { x with isAborted := true, next := none, listeners := [] }).fiber k).finished = (e.fiber k).finished := by
    rw [hfiber]
    split
    · exact ⟨rfl, rfl⟩
    · exact ⟨rfl, rfl⟩
  unfold Engine.abort
  generalize e.modifyFiber f (fun x => { x with isAborted := true, next := none, listeners := [] }) = m
    at hfiber hsize hkeep ⊢
  have hlt : ∀ p, (m.fiber f).parent = some p → p < f := by
    rw [(hkeep f).1]
    exact (h.tallied f).parent
  have hover := finish (by omega) hlt
  refine ⟨by rw [← hsize]; exact hover.size, ?_, ?_, ?_⟩
  · intro k hk
    rw [hover.parent k (by omega), (hkeep k).1]
  · intro k hk
    exact hover.finished k (by rw [(hkeep k).2, hk])
  · intro k hk hd
    by_cases hkf : k = f
    · have hopen := hd.blank.finished
      rw [hkf, finished_finish (by omega) hlt] at hopen
      cases hopen
    · have hblank := hover.blank k (by omega) hd
      rw [hfiber, if_neg fun h => hkf h.1.symm] at hblank
      exact hblank

end Outlived

end Engine

end FlowGraph
