import FlowGraph.Proofs.Turns

/-!
Stretches of a run as the fibers see them. `Stretch` says whose turn it was and that the roots that came in
wait; `Over` that a fiber has run to its end and told its parent; `Called` what one call may have done.
-/
namespace FlowGraph

open World Play

def Fiber.closed (f : Fiber) : Fiber := { f with finished := true }

def Fiber.relieved (f : Fiber) : Fiber := { f with pending := f.pending - 1 }

namespace Engine

/-- A stretch of a run in which only fibers in `S` had turns. The roots that came in are waiting. -/
structure Stretch (S : Nat → Prop) (a b : Engine) : Prop where
  kept : Kept S a b
  waiting : ∀ q ∈ b.roots a.fibers.size, b.Waiting q

namespace Stretch

variable {S T : Nat → Prop} {a b c : Engine}

/-- The fibers that have turns in the second stretch are old ones of the first or children of such. -/
def Below (S T : Nat → Prop) (a b : Engine) : Prop :=
  ∀ k, T k → (k < a.fibers.size → S k) ∧
    (a.fibers.size ≤ k → ∃ p, p < a.fibers.size ∧ (b.fiber k).parent = some p)

theorem not_root (hT : Below S T a b) {q : Nat} (hq : q ∈ b.roots a.fibers.size) : ¬ T q := by
  intro hq'
  obtain ⟨hle, -, hroot⟩ := mem_roots.1 hq
  obtain ⟨p, -, hp⟩ := (hT q hq').2 hle
  rw [hroot] at hp
  cases hp

/-- Stretches follow one another, if the fibers of the second are below those of the first. -/
theorem trans (h : Stretch S a b) (h' : Stretch T b c) (hT : Below S T a b) : Stretch S a c := by
  refine ⟨h.kept.trans h'.kept fun k hk ht => (hT k ht).1 hk, ?_⟩
  intro q hq
  rw [h'.kept.roots_append h.kept.size, List.mem_append] at hq
  rcases hq with hq | hq
  · obtain ⟨hle, hlt, -⟩ := mem_roots.1 hq
    refine h'.kept.waiting hlt (not_root hT hq) ?_ (h.waiting q hq)
    intro k hk ht
    obtain ⟨hqk, -, hparent⟩ := mem_kids.1 hk
    obtain ⟨p, hp, hparent'⟩ := (hT k ht).2 (by omega)
    rw [hparent] at hparent'
    cases hparent'
    omega
  · exact h'.waiting q hq

theorem groups (h : Stretch S a b) (h' : Stretch T b c) (hT : Below S T a b) :
    c.groups a.fibers.size = b.groups a.fibers.size ++ c.groups b.fibers.size :=
  h'.kept.groups_append h.kept.size fun _ hq => not_root hT hq

/-- No fiber comes in where the arena stays as large as it is. -/
theorem of_size (h : Kept S a b) (hsize : b.fibers.size = a.fibers.size) : Stretch S a b :=
  ⟨h, fun q hq => by simp [roots, hsize] at hq⟩

theorem groups_of_size (hsize : b.fibers.size = a.fibers.size) : b.groups a.fibers.size = [] := by
  simp [Engine.groups, roots, hsize]

/-- Only the fibers matter. -/
theorem congr {a' b' : Engine} (h : Stretch S a b) (ha : a'.fibers = a.fibers) (hb : b'.fibers = b.fibers) : Stretch S a' b' := by
  have hfa := fiber_congr ha
  have hfb := fiber_congr hb
  obtain ⟨⟨hsize, hold, hparent, hborn⟩, hwaiting⟩ := h
  refine ⟨⟨?_, ?_, ?_, ?_⟩, ?_⟩
  · rw [ha, hb]
    exact hsize
  · intro k hk hS
    rw [ha] at hk
    rw [hfa, hfb, hold k hk hS]
  · intro k hk
    rw [ha] at hk
    rw [hfa, hfb, hparent k hk]
  · intro k p hk hk' hp
    rw [ha] at hk ⊢
    rw [hb] at hk'
    rw [hfb] at hp
    exact hborn k p hk hk' hp
  · intro q hq
    rw [roots_congr hb, ha] at hq
    exact (hwaiting q hq).congr hb

end Stretch

/-- What goes in front of the queue when a fiber finishes: its parent, if that waited for no other. -/
def release (e : Engine) (f : Nat) : List Nat :=
  match (e.fiber f).parent with
  | some p => if (e.fiber p).pending = 1 then [p] else []
  | none => []

/-- The parent of the fiber, if it has one, waits for it. -/
def Held (e : Engine) (f : Nat) : Prop :=
  ∀ p, (e.fiber f).parent = some p →
    p < e.fibers.size ∧ p ≠ f ∧ (e.fiber p).isAborted = false ∧ 1 ≤ (e.fiber p).pending

/-- From `a` to `b` the fiber has run to its end and told its parent; `others` were behind it in the queue. -/
structure Over (f : Nat) (others : List Nat) (a b : Engine) : Prop where
  stretch : Stretch (fun k => k = f ∨ (a.fiber f).parent = some k) a b
  parent : ∀ p, (a.fiber f).parent = some p → b.fiber p = (a.fiber p).relieved
  queue : b.queue = a.release f ++ (others ++ b.groups a.fibers.size)

section Congr

variable {a a' b b' : Engine} {f : Nat}

theorem Over.congr {others : List Nat} (h : Over f others a b) (ha : a'.fibers = a.fibers) (hb : b'.fibers = b.fibers)
    (hq : b'.queue = b.queue) : Over f others a' b' := by
  have hfa := fiber_congr ha
  have hfb := fiber_congr hb
  refine ⟨?_, ?_, ?_⟩
  · rw [hfa]
    exact h.stretch.congr ha hb
  · intro p hp
    rw [hfa] at hp
    rw [hfb, hfa, h.parent p hp]
  · rw [hq, h.queue, groups_congr hb, ha]
    simp only [release, hfa]

theorem Held.congr (h : a.Held f) (ha : a'.fibers = a.fibers) : a'.Held f := by
  have hfa := fiber_congr ha
  intro p hp
  rw [hfa] at hp
  rw [hfa, ha]
  exact h p hp

end Congr

theorem Held.of_kept {S : Nat → Prop} {a b : Engine} {f : Nat} (h : a.Held f) (hk : Kept S a b)
    (hf : f < a.fibers.size) (hS : ∀ p, (a.fiber f).parent = some p → ¬ S p) : b.Held f := by
  intro p hp
  rw [hk.parent f hf] at hp
  obtain ⟨hlt, hne, hab, hpos⟩ := h p hp
  rw [hk.old p hlt (hS p hp)]
  exact ⟨Nat.lt_of_lt_of_le hlt hk.size, hne, hab, hpos⟩

section Finish

variable {e : Engine} {f : Nat}

/-- A fiber that finishes changes itself and its parent, and puts the parent in front if that is free. -/
theorem finish_spec (hf : f < e.fibers.size) (hopen : (e.fiber f).finished = false) (hheld : e.Held f) :
    (e.finish f).fibers.size = e.fibers.size ∧ (e.finish f).queue = e.release f ++ e.queue ∧
      ∀ k, (e.finish f).fiber k =
        if k = f then (e.fiber f).closed
        else if (e.fiber f).parent = some k then (e.fiber k).relieved
        else e.fiber k := by
  unfold finish
  simp only [hopen, Bool.false_eq_true, if_false]
  cases hp : (e.fiber f).parent with
  | none =>
    refine ⟨by simp, by simp [release, hp, modifyFiber], fun k => ?_⟩
    rw [fiber_modifyFiber]
    by_cases hk : k = f
    · simp [hk, hf, Fiber.closed]
    · simp [hk, Ne.symm hk]
  | some p =>
    obtain ⟨hlt, hne, hab, hpos⟩ := hheld p hp
    have hfiber (k : Nat) : ((e.modifyFiber f fun f => { f with finished := true }).modifyFiber p fun f =>
        { f with pending := f.pending - 1 }).fiber k =
          if k = f then (e.fiber f).closed else if p = k then (e.fiber k).relieved else e.fiber k := by
      rw [fiber_modifyFiber, fiber_modifyFiber]
      by_cases hk : k = f
      · have hpk : p ≠ k := fun h => hne (h.trans hk)
        simp [hk, hf, hne, Fiber.closed]
      · by_cases hpk : p = k
        · have hlt' : k < e.fibers.size := hpk ▸ hlt
          simp [hpk, hlt', hk, Ne.symm hk, Fiber.relieved]
        · simp [hk, hpk, Ne.symm hk]
    have hself := hfiber p
    simp only [hne, if_false, if_true, Fiber.relieved] at hself
    simp only [childFinished, hself, hab]
    by_cases hone : (e.fiber p).pending = 1
    · refine ⟨by simp [resume, hone], ?_, fun k => ?_⟩
      · simp [release, hp, hone, resume, modifyFiber]
      · simp only [hone, Nat.sub_self, decide_true, Bool.not_false, Bool.and_self, if_true, Option.some.injEq]
        exact hfiber k
    · have hmore : ¬ (e.fiber p).pending - 1 = 0 := by omega
      refine ⟨by simp [hmore], ?_, fun k => ?_⟩
      · simp [release, hp, hone, hmore, modifyFiber]
      · simp only [hmore, decide_false, Bool.false_and, Bool.false_eq_true, if_false, Option.some.injEq]
        exact hfiber k

end Finish

/-- A fiber that has had turns and has nothing left finishes. -/
theorem Over.of_finish {a b : Engine} {f : Nat} {others : List Nat} (hs : Stretch (· = f) a b)
    (hf : f < a.fibers.size) (hq : b.queue = others ++ b.groups a.fibers.size)
    (hopen : (b.fiber f).finished = false) (hheld : a.Held f) : Over f others a (b.finish f) := by
  have hparent : (b.fiber f).parent = (a.fiber f).parent := hs.kept.parent f hf
  have hold (p : Nat) (hp : (a.fiber f).parent = some p) : b.fiber p = a.fiber p :=
    hs.kept.old p (hheld p hp).1 (hheld p hp).2.1
  have hheld' : b.Held f := hheld.of_kept hs.kept hf fun p hp => (hheld p hp).2.1
  obtain ⟨hsize, hqueue, hfiber⟩ := finish_spec (Nat.lt_of_lt_of_le hf hs.kept.size) hopen hheld'
  rw [hparent] at hfiber
  have hkept : Kept (fun k => k = f ∨ (a.fiber f).parent = some k) b (b.finish f) := by
    refine ⟨Nat.le_of_eq hsize.symm, ?_, ?_, ?_⟩
    · intro k _ hk
      rw [not_or] at hk
      rw [hfiber, if_neg hk.1, if_neg hk.2]
    · intro k _
      rw [hfiber]
      split
      · rename_i hk
        rw [hk]
        rfl
      · split <;> rfl
    · intro k p hk hk'
      omega
  have hbelow : Stretch.Below (fun k => k = f ∨ (a.fiber f).parent = some k)
      (fun k => k = f ∨ (a.fiber f).parent = some k) a b := by
    intro k hk
    refine ⟨fun _ => hk, fun hle => ?_⟩
    rcases hk with rfl | hk
    · omega
    · have := (hheld k hk).1
      omega
  have hs' : Stretch (fun k => k = f ∨ (a.fiber f).parent = some k) a b :=
    ⟨hs.kept.mono fun k _ hk => .inl hk, hs.waiting⟩
  have hfinish := Stretch.of_size hkept hsize
  refine ⟨hs'.trans hfinish hbelow, ?_, ?_⟩
  · intro p hp
    rw [hfiber, if_neg (hheld p hp).2.1, if_pos hp, hold p hp]
  · have hrelease : b.release f = a.release f := by
      simp only [release, hparent]
      cases hp : (a.fiber f).parent with
      | none => rfl
      | some p => simp only [hold p hp]
    rw [hqueue, hq, hrelease, hs'.groups hfinish hbelow, Stretch.groups_of_size hsize, List.append_nil]

/-- Turns before the rest of the run do not change what has become of it in the end. -/
theorem Over.of_stretch {S : Nat → Prop} {a b c : Engine} {f : Nat} {others : List Nat} (hs : Stretch S a b)
    (hS : ∀ k, k < a.fibers.size → S k → k = f) (hf : f < a.fibers.size) (hheld : a.Held f)
    (ho : Over f (others ++ b.groups a.fibers.size) b c) : Over f others a c := by
  have hparent : (b.fiber f).parent = (a.fiber f).parent := hs.kept.parent f hf
  have hold (p : Nat) (hp : (a.fiber f).parent = some p) : b.fiber p = a.fiber p :=
    hs.kept.old p (hheld p hp).1 fun hsp => (hheld p hp).2.1 (hS p (hheld p hp).1 hsp)
  have hs' : Stretch (fun k => k = f ∨ (a.fiber f).parent = some k) a b :=
    ⟨hs.kept.mono fun k hk hsk => .inl (hS k hk hsk), hs.waiting⟩
  have hbelow : Stretch.Below (fun k => k = f ∨ (a.fiber f).parent = some k)
      (fun k => k = f ∨ (b.fiber f).parent = some k) a b := by
    intro k hk
    rw [hparent] at hk
    refine ⟨fun _ => hk, fun hle => ?_⟩
    rcases hk with rfl | hk
    · omega
    · have := (hheld k hk).1
      omega
  refine ⟨hs'.trans ho.stretch hbelow, ?_, ?_⟩
  · intro p hp
    rw [ho.parent p (hparent.trans hp), hold p hp]
  · have hrelease : b.release f = a.release f := by
      simp only [release, hparent]
      cases hp : (a.fiber f).parent with
      | none => rfl
      | some p => simp only [hold p hp]
    rw [ho.queue, hrelease, hs'.groups ho.stretch hbelow, List.append_assoc]

/-- What a call of the fiber has done, from `a` to `b`, however it ended. -/
structure Called (i f : Nat) (a b : Engine) : Prop where
  stretch : Stretch (· = f) a b
  queue : b.queue = b.kids f a.fibers.size ++ a.queue ++ b.groups a.fibers.size
  inbox : b.inbox = []
  finished : (b.fiber f).finished = (a.fiber f).finished
  isAborted : (b.fiber f).isAborted = (a.fiber f).isAborted
  pending : (b.fiber f).pending = (a.fiber f).pending + (b.kids f a.fibers.size).length
  fresh : ∀ k ∈ b.kids f a.fibers.size, Fresh f (b.fiber k)
  fits : ∀ l ∈ (b.fiber f).listeners, l.2.Fits i f
  parted : b.kids f a.fibers.size ≠ [] → (b.fiber f).next = none

/-- Only fibers, queue and inbox matter. -/
theorem Called.congr {i f : Nat} {a b b' : Engine} (h : Called i f a b) (hfibers : b'.fibers = b.fibers)
    (hqueue : b'.queue = b.queue) (hinbox : b'.inbox = b.inbox) : Called i f a b' := by
  have hkids := kids_congr hfibers
  have hfiber := fiber_congr hfibers
  obtain ⟨hstretch, hq, hempty, hfinished, haborted, hpending, hfresh, hfits, hparted⟩ := h
  refine ⟨hstretch.congr rfl hfibers, ?_, by rw [hinbox, hempty], ?_, ?_, ?_, ?_, ?_, ?_⟩
  · rw [hqueue, hq, hkids, groups_congr hfibers]
  · rw [hfiber, hfinished]
  · rw [hfiber, haborted]
  · rw [hfiber, hkids, hpending]
  · intro k hk
    rw [hkids] at hk
    rw [hfiber]
    exact hfresh k hk
  · rw [hfiber]
    exact hfits
  · rw [hkids, hfiber]
    exact hparted

theorem Moved.called {i f : Nat} {a b : Engine} (h : Moved i f a b) : Called i f a b :=
  ⟨⟨h.kept, h.waiting⟩, h.queue, h.inbox, h.finished, h.isAborted, h.pending, h.fresh, h.fits, h.parted⟩

section Alter

variable {i f : Nat} {a : Engine} {g : Fiber → Fiber}

theorem kept_modifyFiber (hg : ∀ x, (g x).parent = x.parent) : Kept (· = f) a (a.modifyFiber f g) := by
  refine ⟨by simp, ?_, ?_, ?_⟩
  · intro k _ hk
    rw [fiber_modifyFiber, if_neg fun h => hk h.1.symm]
  · intro k _
    rw [fiber_modifyFiber]
    split
    · exact hg _
    · rfl
  · intro k p hk hk'
    rw [size_modifyFiber] at hk'
    omega

/-- No fiber has come in. -/
theorem Called.of_size {b : Engine} (hkept : Kept (· = f) a b) (hsize : b.fibers.size = a.fibers.size)
    (hqueue : b.queue = a.queue) (hinbox : b.inbox = []) (hfinished : (b.fiber f).finished = (a.fiber f).finished)
    (haborted : (b.fiber f).isAborted = (a.fiber f).isAborted) (hpending : (b.fiber f).pending = (a.fiber f).pending)
    (hfits : ∀ l ∈ (b.fiber f).listeners, l.2.Fits i f) : Called i f a b := by
  have hkids : b.kids f a.fibers.size = [] := by simp [kids, hsize]
  refine ⟨Stretch.of_size hkept hsize, ?_, hinbox, hfinished, haborted, ?_, ?_, hfits, ?_⟩
  · rw [hkids, Stretch.groups_of_size hsize, List.nil_append, List.append_nil, hqueue]
  · rw [hpending, hkids, List.length_nil, Nat.add_zero]
  · intro k hk
    rw [hkids] at hk
    cases hk
  · intro hk
    exact absurd hkids hk

/-- The fiber has changed in nothing but its own business. -/
theorem Called.of_alter (hf : f < a.fibers.size) (hinbox : a.inbox = []) (hg : Fiber.Own g)
    (hfits : ∀ l ∈ (g (a.fiber f)).listeners, l.2.Fits i f) :
    Called i f a (a.modifyFiber f g) := by
  have hself : (a.modifyFiber f g).fiber f = g (a.fiber f) := by rw [fiber_modifyFiber, if_pos ⟨rfl, hf⟩]
  apply Called.of_size (kept_modifyFiber hg.parent) (by simp) rfl hinbox
  · rw [hself, hg.finished]
  · rw [hself, hg.isAborted]
  · rw [hself, hg.pending]
  · rw [hself]
    exact hfits

/-- A change of the fiber before the call belongs to it. -/
theorem Called.of_base {b : Engine} (hf : f < a.fibers.size) (hg : Fiber.Own g) (h : Called i f (a.modifyFiber f g) b) :
    Called i f a b := by
  have hkept : Kept (· = f) a (a.modifyFiber f g) := kept_modifyFiber hg.parent
  have hself : (a.modifyFiber f g).fiber f = g (a.fiber f) := by rw [fiber_modifyFiber, if_pos ⟨rfl, hf⟩]
  have hsize : (a.modifyFiber f g).fibers.size = a.fibers.size := by simp
  obtain ⟨hstretch, hqueue, hinbox, hfin, hab, hpend, hfresh, hfits, hparted⟩ := h
  rw [hsize] at hqueue hpend hfresh hparted
  rw [hself] at hfin hab hpend
  refine ⟨⟨hkept.trans hstretch.kept fun _ _ => id, ?_⟩, hqueue, hinbox, hfin.trans (hg.finished _),
    hab.trans (hg.isAborted _), by rw [hpend, hg.pending], hfresh, hfits, hparted⟩
  have hwaiting := hstretch.waiting
  rw [hsize] at hwaiting
  exact hwaiting

/-- The fiber has begun a call. -/
theorem Moved.of_alter (hf : f < a.fibers.size) (hcurrent : a.current = some f) (hinbox : a.inbox = [])
    (hg : Fiber.Own g) (hfits : ∀ l ∈ (g (a.fiber f)).listeners, l.2.Fits i f) (hnext : (g (a.fiber f)).next = none) :
    Moved i f a (a.modifyFiber f g) := by
  have hc := Called.of_alter hf hinbox hg hfits
  have hself : (a.modifyFiber f g).fiber f = g (a.fiber f) := by rw [fiber_modifyFiber, if_pos ⟨rfl, hf⟩]
  have hkids : (a.modifyFiber f g).kids f a.fibers.size = [] := by simp [kids]
  refine ⟨hf, hc.stretch.kept, hc.queue, hcurrent, hinbox, hc.finished, hc.isAborted, hc.pending, hc.fresh,
    hc.stretch.waiting, hc.fits, fun _ => ⟨hkids, ?_⟩, hc.parted⟩
  rw [hself]
  exact hnext

end Alter

/-- A fiber that is at work fails and is over. -/
theorem Over.of_abort {a e : Engine} {f : Nat} {others : List Nat} (hs : Stretch (· = f) a e)
    (hf : f < a.fibers.size) (hq : e.queue = others ++ e.groups a.fibers.size)
    (hopen : (e.fiber f).finished = false) (hheld : a.Held f) : Over f others a (e.abort f) ∧
      (e.abort f).fiber f = { e.fiber f with isAborted := true, next := none, listeners := [] }.closed := by
  generalize hg : (fun x : Fiber => { x with isAborted := true, next := none, listeners := [] }) = g
  have hinside : f < e.fibers.size := Nat.lt_of_lt_of_le hf hs.kept.size
  have hself : (e.modifyFiber f g).fiber f = g (e.fiber f) := by rw [fiber_modifyFiber, if_pos ⟨rfl, hinside⟩]
  have hkept : Kept (· = f) e (e.modifyFiber f g) := kept_modifyFiber fun x => by rw [← hg]
  have hsize : (e.modifyFiber f g).fibers.size = e.fibers.size := by simp
  have hbelow : Stretch.Below (· = f) (· = f) a e := fun k hk => ⟨fun _ => hk, fun hle => by omega⟩
  have hstretch := hs.trans (.of_size hkept hsize) hbelow
  have hopen' : ((e.modifyFiber f g).fiber f).finished = false := by
    rw [hself, ← hg]
    exact hopen
  have hqueue : (e.modifyFiber f g).queue = others ++ (e.modifyFiber f g).groups a.fibers.size := by
    rw [hs.groups (.of_size hkept hsize) hbelow, Stretch.groups_of_size hsize, List.append_nil, ← hq]
    rfl
  have hheld' : (e.modifyFiber f g).Held f :=
    hheld.of_kept hstretch.kept hf fun p hp => (hheld p hp).2.1
  have habort : e.abort f = (e.modifyFiber f g).finish f := by rw [← hg]; rfl
  rw [habort]
  refine ⟨Over.of_finish hstretch hf hqueue hopen' hheld, ?_⟩
  rw [(finish_spec (by rw [hsize]; exact hinside) hopen' hheld').2.2 f, if_pos rfl, hself, ← hg]

end Engine

end FlowGraph
