import FlowGraph.Engine.Commit

/-!
The fibers of an engine as a forest. New fibers come in at the end of the arena: the children into which
a fiber splits, or a root with its children. What a call does to the fiber at work, to its children and
to the queue is one relation, `Moved`.
-/
namespace FlowGraph

def Listener.context? : Listener → Option Context
  | .nextOutput c _ | .nextRound c _ _ | .script c _ => some c
  | .host _ _ => none

/-- The context is bound to no fiber. -/
def Context.Free (c : Context) : Prop := ∀ i f input, c.role ≠ .flow i f input

/-- The context is bound to no other fiber than this. -/
def Context.Fits (c : Context) (i f : Nat) : Prop :=
  ∀ j k input, c.role = .flow j k input → j = i ∧ k = f

def Listener.Free (l : Listener) : Prop := ∀ c, l.context? = some c → c.Free

def Listener.Fits (l : Listener) (i f : Nat) : Prop := ∀ c, l.context? = some c → c.Fits i f

theorem Context.Free.fits {c : Context} (h : c.Free) (i f : Nat) : c.Fits i f :=
  fun j k input hc => absurd hc (h j k input)

theorem Listener.Free.fits {l : Listener} (h : l.Free) (i f : Nat) : l.Fits i f :=
  fun c hc => (h c hc).fits i f

/-- A fiber without what it keeps for its release. -/
def Fiber.core (f : Fiber) : Fiber := { f with pending := 0, finished := false, isAborted := false }

theorem Fiber.entry_of_due {f : Fiber} {p : NodeRef × List (String × Value)} (h : f.due = some p) : f.entry = some p := by
  unfold due at h
  split at h
  · cases h
  · exact h

/-- A change of a fiber that concerns nothing but its own business. -/
structure Fiber.Own (g : Fiber → Fiber) : Prop where
  parent : ∀ x, (g x).parent = x.parent
  pending : ∀ x, (g x).pending = x.pending
  finished : ∀ x, (g x).finished = x.finished
  isAborted : ∀ x, (g x).isAborted = x.isAborted
  core : ∀ x y : Fiber, x.core = y.core → (g x).core = (g y).core

namespace Engine

theorem fiber_modifyFiber (e : Engine) (k j : Nat) (g : Fiber → Fiber) :
    (e.modifyFiber k g).fiber j = if k = j ∧ k < e.fibers.size then g (e.fiber j) else e.fiber j := by
  simp only [fiber, modifyFiber, Array.getElem?_modify]
  by_cases hk : k = j
  · by_cases hj : k < e.fibers.size
    · have hj' : j < e.fibers.size := hk ▸ hj
      simp [hk, hj']
    · have hj' : ¬ j < e.fibers.size := hk ▸ hj
      simp [hk, hj']
  · simp [hk]

@[simp] theorem size_modifyFiber (e : Engine) (k : Nat) (g : Fiber → Fiber) :
    (e.modifyFiber k g).fibers.size = e.fibers.size := by
  simp [modifyFiber]

/-- The children of a fiber from a place of the arena on. -/
def kids (e : Engine) (p start : Nat) : List Nat :=
  (List.range' start (e.fibers.size - start)).filter fun k => (e.fiber k).parent = some p

/-- The fibers without parent from a place of the arena on. -/
def roots (e : Engine) (start : Nat) : List Nat :=
  (List.range' start (e.fibers.size - start)).filter fun k => (e.fiber k).parent = none

/-- What stands in the queue for a root that waits for its turn. -/
def group (e : Engine) (q : Nat) : List Nat :=
  match e.kids q (q + 1) with
  | [] => if (e.fiber q).isComplete then [] else [q]
  | k :: ks => k :: ks

def groups (e : Engine) (start : Nat) : List Nat := (e.roots start).flatMap e.group

theorem mem_kids {e : Engine} {p start k : Nat} :
    k ∈ e.kids p start ↔ start ≤ k ∧ k < e.fibers.size ∧ (e.fiber k).parent = some p := by
  simp only [kids, List.mem_filter, List.mem_range'_1, decide_eq_true_eq]
  constructor
  · rintro ⟨⟨hs, hk⟩, hp⟩
    exact ⟨hs, by omega, hp⟩
  · rintro ⟨hs, hk, hp⟩
    exact ⟨⟨hs, by omega⟩, hp⟩

theorem mem_roots {e : Engine} {start k : Nat} :
    k ∈ e.roots start ↔ start ≤ k ∧ k < e.fibers.size ∧ (e.fiber k).parent = none := by
  simp only [roots, List.mem_filter, List.mem_range'_1, decide_eq_true_eq]
  constructor
  · rintro ⟨⟨hs, hk⟩, hp⟩
    exact ⟨hs, by omega, hp⟩
  · rintro ⟨hs, hk, hp⟩
    exact ⟨⟨hs, by omega⟩, hp⟩

/-- A child that has not had its turn. -/
structure Fresh (p : Nat) (f : Fiber) : Prop where
  parent : f.parent = some p
  pending : f.pending = 0
  finished : f.finished = false
  isAborted : f.isAborted = false
  listeners : f.listeners = []

/-- A root that has not had its turn. -/
structure Waiting (e : Engine) (q : Nat) : Prop where
  pending : (e.fiber q).pending = (e.kids q (q + 1)).length
  finished : (e.fiber q).finished = false
  isAborted : (e.fiber q).isAborted = false
  fresh : ∀ k ∈ e.kids q (q + 1), Fresh q (e.fiber k)
  free : ∀ l ∈ (e.fiber q).listeners, l.2.Free

theorem nodup_kids (e : Engine) (p start : Nat) : (e.kids p start).Nodup :=
  List.Pairwise.filter _ (List.nodup_range' 1)

section Congr

variable {a a' : Engine} {f : Nat}

theorem fiber_congr (h : a'.fibers = a.fibers) (k : Nat) : a'.fiber k = a.fiber k := by
  simp only [fiber, h]

theorem eq_withFibers (h : a'.fibers = a.fibers) : a' = { a' with fibers := a.fibers } := by
  rw [← h]

theorem kids_congr (h : a'.fibers = a.fibers) (p start : Nat) : a'.kids p start = a.kids p start := by
  rw [eq_withFibers h]
  rfl

theorem roots_congr (h : a'.fibers = a.fibers) (start : Nat) : a'.roots start = a.roots start := by
  rw [eq_withFibers h]
  rfl

theorem groups_congr (h : a'.fibers = a.fibers) (start : Nat) : a'.groups start = a.groups start := by
  rw [eq_withFibers h]
  rfl

/-- Whether a fiber waits depends on the fibers only. -/
theorem Waiting.congr (h : a.Waiting f) (ha : a'.fibers = a.fibers) : a'.Waiting f := by
  have hkids := kids_congr ha f (f + 1)
  have hfiber := fiber_congr ha
  obtain ⟨hpending, hfinished, haborted, hfresh, hfree⟩ := h
  refine ⟨?_, ?_, ?_, ?_, ?_⟩
  · rw [hkids, hfiber, hpending]
  · rw [hfiber, hfinished]
  · rw [hfiber, haborted]
  · intro k hk
    rw [hkids] at hk
    rw [hfiber]
    exact hfresh k hk
  · rw [hfiber]
    exact hfree

end Congr

/-- From `e` to `e'` the arena has grown, and of the old fibers only those in `S` have changed. New fibers
are roots or descend from those in `S` or from new ones. -/
structure Kept (S : Nat → Prop) (e e' : Engine) : Prop where
  size : e.fibers.size ≤ e'.fibers.size
  old : ∀ k, k < e.fibers.size → ¬ S k → e'.fiber k = e.fiber k
  parent : ∀ k, k < e.fibers.size → (e'.fiber k).parent = (e.fiber k).parent
  born : ∀ k p, e.fibers.size ≤ k → k < e'.fibers.size → (e'.fiber k).parent = some p →
    S p ∨ e.fibers.size ≤ p

namespace Kept

variable {S T : Nat → Prop} {e e' e'' : Engine}

theorem refl (S : Nat → Prop) (e : Engine) : Kept S e e :=
  ⟨Nat.le_refl _, fun _ _ _ => rfl, fun _ _ => rfl, fun _ _ h h' => absurd h' (Nat.not_lt.2 h)⟩

theorem mono (h : Kept S e e') (hS : ∀ k, k < e.fibers.size → S k → T k) : Kept T e e' := by
  refine ⟨h.size, fun k hk hT => h.old k hk fun hs => hT (hS k hk hs), h.parent, ?_⟩
  intro k p hk hk' hp
  rcases h.born k p hk hk' hp with hs | hp'
  · by_cases hlt : p < e.fibers.size
    · exact .inl (hS p hlt hs)
    · exact .inr (Nat.le_of_not_lt hlt)
  · exact .inr hp'

/-- Engines that only grow, one after the other; what the second step changes the first may have changed. -/
theorem trans (h : Kept S e e') (h' : Kept T e' e'') (hT : ∀ k, k < e.fibers.size → T k → S k) :
    Kept S e e'' := by
  refine ⟨Nat.le_trans h.size h'.size, ?_, ?_, ?_⟩
  · intro k hk hs
    rw [h'.old k (Nat.lt_of_lt_of_le hk h.size) fun ht => hs (hT k hk ht), h.old k hk hs]
  · intro k hk
    rw [h'.parent k (Nat.lt_of_lt_of_le hk h.size), h.parent k hk]
  · intro k p hk hk'' hp
    by_cases hlt : k < e'.fibers.size
    · rw [h'.parent k hlt] at hp
      exact h.born k p hk hlt hp
    · rcases h'.born k p (Nat.le_of_not_lt hlt) hk'' hp with ht | hp'
      · by_cases hpe : p < e.fibers.size
        · exact .inl (hT p hpe ht)
        · exact .inr (Nat.le_of_not_lt hpe)
      · exact .inr (Nat.le_trans h.size hp')

theorem range'_split (h : Kept S e e') {start : Nat} (hs : start ≤ e.fibers.size) :
    List.range' start (e'.fibers.size - start) =
      List.range' start (e.fibers.size - start) ++
        List.range' e.fibers.size (e'.fibers.size - e.fibers.size) := by
  have hsize := h.size
  have hstart : e.fibers.size = start + 1 * (e.fibers.size - start) := by omega
  have hlen : e'.fibers.size - start = (e.fibers.size - start) + (e'.fibers.size - e.fibers.size) := by omega
  rw [hlen, ← List.range'_append, ← hstart]

theorem filter_parent (h : Kept S e e') (q : Option Nat → Bool) {start : Nat} :
    (List.range' start (e.fibers.size - start)).filter (fun k => q (e'.fiber k).parent) =
      (List.range' start (e.fibers.size - start)).filter fun k => q (e.fiber k).parent := by
  apply List.filter_congr
  intro k hk
  have hk : k < e.fibers.size := by
    have := List.mem_range'_1.1 hk
    omega
  rw [h.parent k hk]

theorem kids_append (h : Kept S e e') (p : Nat) {start : Nat} (hs : start ≤ e.fibers.size) :
    e'.kids p start = e.kids p start ++ e'.kids p e.fibers.size := by
  rw [kids, h.range'_split hs, List.filter_append, h.filter_parent (fun o => o = some p)]
  rfl

theorem roots_append (h : Kept S e e') {start : Nat} (hs : start ≤ e.fibers.size) :
    e'.roots start = e.roots start ++ e'.roots e.fibers.size := by
  rw [roots, h.range'_split hs, List.filter_append, h.filter_parent (fun o => o = none)]
  rfl

/-- A fiber that did not change has no new children. -/
theorem kids_eq (h : Kept S e e') {p : Nat} (hp : p < e.fibers.size) (hS : ¬ S p) {start : Nat}
    (hs : start ≤ e.fibers.size) : e'.kids p start = e.kids p start := by
  rw [h.kids_append p hs]
  have hnone : e'.kids p e.fibers.size = [] := by
    apply List.eq_nil_iff_forall_not_mem.2
    intro k hk
    obtain ⟨hk, hk', hpar⟩ := mem_kids.1 hk
    rcases h.born k p hk hk' hpar with hs | hp'
    · exact hS hs
    · omega
  rw [hnone, List.append_nil]

theorem group_eq (h : Kept S e e') {q : Nat} (hq : q < e.fibers.size) (hS : ¬ S q) : e'.group q = e.group q := by
  rw [group, group, h.kids_eq hq hS hq, h.old q hq hS]

theorem groups_append (h : Kept S e e') {start : Nat} (hs : start ≤ e.fibers.size)
    (hroots : ∀ q ∈ e.roots start, ¬ S q) :
    e'.groups start = e.groups start ++ e'.groups e.fibers.size := by
  rw [groups, h.roots_append hs, List.flatMap_append]
  congr 1
  rw [groups, List.flatMap_def, List.flatMap_def]
  congr 1
  apply List.map_congr_left
  intro q hq
  exact h.group_eq (mem_roots.1 hq).2.1 (hroots q hq)

theorem kids_of_size (h : Kept S e e') (hsize : e'.fibers.size = e.fibers.size) (p : Nat) {start : Nat}
    (hs : start ≤ e.fibers.size) : e'.kids p start = e.kids p start := by
  have hnone : e'.kids p e.fibers.size = [] := by simp [kids, hsize]
  rw [h.kids_append p hs, hnone, List.append_nil]

theorem roots_of_size (h : Kept S e e') (hsize : e'.fibers.size = e.fibers.size) {start : Nat}
    (hs : start ≤ e.fibers.size) : e'.roots start = e.roots start := by
  have hnone : e'.roots e.fibers.size = [] := by simp [roots, hsize]
  rw [h.roots_append hs, hnone, List.append_nil]

theorem waiting (h : Kept S e e') {q : Nat} (hq : q < e.fibers.size) (hS : ¬ S q)
    (hkids : ∀ k ∈ e.kids q (q + 1), ¬ S k) (hw : e.Waiting q) : e'.Waiting q := by
  have hk := h.kids_eq hq hS hq
  have hf := h.old q hq hS
  refine ⟨?_, ?_, ?_, ?_, by rw [hf]; exact hw.free⟩
  · rw [hf, hk, hw.pending]
  · rw [hf, hw.finished]
  · rw [hf, hw.isAborted]
  · intro k hmem
    rw [hk] at hmem
    rw [h.old k (mem_kids.1 hmem).2.1 (hkids k hmem)]
    exact hw.fresh k hmem

end Kept

/-- The wires that get a fiber of their own: several, never a single one. -/
def branches : List Wire → List Wire
  | [] | [_] => []
  | ws => ws

/-- A fiber that committed to the wires behind an output. -/
def onto (node : NodeRef) (l : Option Listener) (wires : List Wire) (f : Fiber) : Fiber :=
  match wires with
  | [] => f.commit node l
  | [w] => { f.commit node l with next := some ⟨node.graph, w⟩ }
  | ws => { f.commit node l with isWritten := true, pending := f.pending + ws.length }

section Onto

variable (node : NodeRef) (l : Option Listener) (wires : List Wire) (f : Fiber)

@[simp] theorem onto_parent : (onto node l wires f).parent = f.parent := by
  unfold onto; split <;> rfl
@[simp] theorem onto_finished : (onto node l wires f).finished = f.finished := by
  unfold onto; split <;> rfl
@[simp] theorem onto_isAborted : (onto node l wires f).isAborted = f.isAborted := by
  unfold onto; split <;> rfl
@[simp] theorem onto_steps : (onto node l wires f).steps = f.steps := by
  unfold onto; split <;> rfl
@[simp] theorem onto_committed : (onto node l wires f).committed = true := by
  unfold onto; split <;> rfl
@[simp] theorem onto_listeners : (onto node l wires f).listeners = (f.commit node l).listeners := by
  unfold onto; split <;> rfl
@[simp] theorem onto_entry : (onto node l wires f).entry = f.entry := by
  unfold onto; split <;> rfl
@[simp] theorem onto_pending : (onto node l wires f).pending = f.pending + (branches wires).length := by
  unfold onto branches; split <;> rfl

theorem onto_isWritten : (onto node l wires f).isWritten = (f.isWritten || !(branches wires).isEmpty) := by
  match wires with
  | [] => exact (Bool.or_false _).symm
  | [w] => exact (Bool.or_false _).symm
  | w :: w' :: ws => exact (Bool.or_true _).symm

theorem onto_next_of_branches (h : branches wires ≠ []) : (onto node l wires f).next = f.next := by
  match wires with
  | [] => rfl
  | [w] => exact absurd rfl h
  | w :: w' :: ws => rfl

/-- A fiber that committed to wires has somewhere to go. -/
theorem isComplete_onto (ha : f.isAborted = false) (h : wires ≠ []) : (onto node l wires f).isComplete = false := by
  rw [Fiber.isComplete, onto_isAborted, ha]
  match wires with
  | [] => exact absurd rfl h
  | [w] => rfl
  | w :: w' :: ws => simp [onto]

end Onto

/-- The fibers into which a fiber splits. -/
def offshoots (p : Nat) (x : Fiber) (node : NodeRef) (wires : List Wire) : List Fiber :=
  (branches wires).map fun w =>
    { next := some ⟨node.graph, w⟩, parent := some p, entry := x.entry, isWritten := x.isWritten }

theorem fresh_of_mem_offshoots {p : Nat} {x : Fiber} {node : NodeRef} {wires : List Wire} {f : Fiber}
    (h : f ∈ offshoots p x node wires) : Fresh p f := by
  obtain ⟨w, -, rfl⟩ := List.mem_map.1 h
  exact ⟨rfl, rfl, rfl, rfl, rfl⟩

theorem heir_of_mem_offshoots {p : Nat} {x : Fiber} {node : NodeRef} {wires : List Wire} {f : Fiber}
    (h : f ∈ offshoots p x node wires) : f.next.isSome = true ∧ f.entry = x.entry ∧ f.isWritten = x.isWritten := by
  obtain ⟨w, -, rfl⟩ := List.mem_map.1 h
  exact ⟨rfl, rfl, rfl⟩

@[simp] theorem length_offshoots (p : Nat) (x : Fiber) (node : NodeRef) (wires : List Wire) :
    (offshoots p x node wires).length = (branches wires).length := by
  simp [offshoots]

theorem modify_append {xs ys : Array Fiber} {k : Nat} (hk : k < xs.size) (g : Fiber → Fiber) :
    (xs ++ ys).modify k g = xs.modify k g ++ ys := by
  apply Array.ext_getElem?
  intro i
  simp only [Array.getElem?_modify, Array.getElem?_append, Array.size_modify]
  by_cases hi : i < xs.size
  · simp [hi]
  · have hne : k ≠ i := by omega
    simp [hi, hne]

theorem modify_modify {α : Type} (xs : Array α) (k : Nat) (g h : α → α) :
    (xs.modify k g).modify k h = xs.modify k fun f => h (g f) := by
  apply Array.ext_getElem?
  intro i
  simp only [Array.getElem?_modify]
  split
  · cases xs[i]? <;> rfl
  · rfl

theorem latest_append (e : Engine) (fs : List Fiber) :
    { e with fibers := e.fibers ++ fs.toArray }.latest fs.length = List.range' e.fibers.size fs.length := by
  have hsize : e.fibers.size + fs.length - fs.length = e.fibers.size := by omega
  simp [latest, hsize, List.range'_eq_map_range]

theorem split_eq {e : Engine} {f : Nat} (hf : f < e.fibers.size) (routes : List Route) :
    e.split f routes = { e with
      fibers := e.fibers.modify f (fun x => { x with isWritten := true, pending := x.pending + routes.length }) ++
        (e.children f routes).toArray
      queue := if e.current = some f then List.range' e.fibers.size routes.length ++ e.queue
        else e.queue ++ List.range' e.fibers.size routes.length } := by
  have hlen : (e.children f routes).length = routes.length := by simp [children]
  have hlatest := latest_append (e.modifyFiber f fun x =>
    { x with isWritten := true, pending := x.pending + routes.length }) (e.children f routes)
  simp only [hlen, size_modifyFiber] at hlatest
  simp only [split, spawn, modifyFiber, modify_append hf] at hlatest ⊢
  rw [hlatest]

/-- A commit changes nothing but fibers and the queue. -/
theorem commit_frame (e : Engine) (f : Nat) (x : NodeRef) (l : Option Listener) (wires : List Wire) :
    e.commit f x l wires =
      { e with fibers := (e.commit f x l wires).fibers, queue := (e.commit f x l wires).queue } := by
  match wires with
  | [] => rfl
  | [w] => rfl
  | w :: w' :: ws => simp only [commit, follow, List.map_cons, split, spawn, modifyFiber]

/-- A commit in one piece. -/
theorem commit_eq {e : Engine} {f : Nat} (hf : f < e.fibers.size) (node : NodeRef) (l : Option Listener)
    (wires : List Wire) : e.commit f node l wires = { e with
      fibers := e.fibers.modify f (onto node l wires) ++ (offshoots f (e.fiber f) node wires).toArray
      queue := if e.current = some f then List.range' e.fibers.size (branches wires).length ++ e.queue
        else e.queue ++ List.range' e.fibers.size (branches wires).length } := by
  match wires with
  | [] =>
    simp only [commit, follow, modifyFiber, offshoots, branches, List.map_nil, List.length_nil, List.range'_zero,
      List.append_nil, List.nil_append, ite_self, Array.append_empty]
    rfl
  | [w] =>
    simp only [commit, follow, modifyFiber, offshoots, branches, List.map_nil, List.map_cons, List.length_nil,
      List.range'_zero, List.append_nil, List.nil_append, ite_self, Array.append_empty, modify_modify]
    rfl
  | w :: w' :: ws =>
    have hself : (e.modifyFiber f (·.commit node l)).fiber f = (e.fiber f).commit node l := by
      rw [fiber_modifyFiber, if_pos ⟨rfl, hf⟩]
    have hf' : f < (e.modifyFiber f (·.commit node l)).fibers.size := by simpa using hf
    have hsplit := split_eq hf' ((w :: w' :: ws).map fun w => ⟨node.graph, w⟩)
    simp only [children, hself, size_modifyFiber, List.length_map, List.map_map] at hsplit
    simp only [modifyFiber, modify_modify] at hsplit
    exact hsplit

theorem fiber_of_append {e e' : Engine} {fs : List Fiber} (h : e'.fibers = e.fibers ++ fs.toArray) (k : Nat) :
    e'.fiber k = if k < e.fibers.size then e.fiber k else (fs[k - e.fibers.size]?).getD default := by
  simp only [fiber, h, Array.getElem?_append, List.getElem?_toArray]
  split <;> rfl

/-- Who commits may split; nobody else changes. -/
theorem fiber_commit {e : Engine} {f : Nat} (hf : f < e.fibers.size) (node : NodeRef) (l : Option Listener) (wires : List Wire)
    (k : Nat) : (e.commit f node l wires).fiber k =
      if k < e.fibers.size then (if f = k then onto node l wires (e.fiber k) else e.fiber k)
      else ((offshoots f (e.fiber f) node wires)[k - e.fibers.size]?).getD default := by
  have hfibers : (e.commit f node l wires).fibers = (e.modifyFiber f (onto node l wires)).fibers ++
      (offshoots f (e.fiber f) node wires).toArray := by
    rw [commit_eq hf]
    rfl
  rw [fiber_of_append hfibers, size_modifyFiber, fiber_modifyFiber]
  by_cases hk : k < e.fibers.size
  · rw [if_pos hk, if_pos hk]
    by_cases hfk : f = k
    · rw [if_pos ⟨hfk, hf⟩, if_pos hfk]
    · rw [if_neg fun h => hfk h.1, if_neg hfk]
  · rw [if_neg hk, if_neg hk]

/-- The fibers that are new after a commit are children of who committed. -/
theorem fresh_commit {e : Engine} {f : Nat} (hf : f < e.fibers.size) (node : NodeRef) (l : Option Listener)
    (wires : List Wire) {k : Nat} (hk : k ∈ List.range' e.fibers.size (branches wires).length) :
    Fresh f ((e.commit f node l wires).fiber k) := by
  obtain ⟨hle, hlt⟩ := List.mem_range'_1.1 hk
  have hoff : k - e.fibers.size < (offshoots f (e.fiber f) node wires).length := by
    rw [length_offshoots]
    omega
  rw [fiber_commit hf, if_neg (by omega), List.getElem?_eq_getElem hoff]
  exact fresh_of_mem_offshoots (List.getElem_mem hoff)

/-- A new root has come in with its children, and stands in the queue for its turn. -/
structure Entered (e e' : Engine) (root : Fiber) (kids : List Fiber) : Prop where
  fibers : e'.fibers = e.fibers ++ (root :: kids).toArray
  parent : root.parent = none
  finished : root.finished = false
  isAborted : root.isAborted = false
  steps : root.steps = 0
  pending : root.pending = kids.length
  fresh : ∀ k ∈ kids, Fresh e.fibers.size k
  heirs : ∀ k ∈ kids, k.next.isSome = true ∧ k.entry = root.entry ∧ k.isWritten = false
  left : kids ≠ [] → root.next = none ∧ root.isWritten = true
  ready : kids = [] → root.isComplete = false → root.isWritten = false
  owned : ∀ l ∈ root.listeners, l.1.isSome = true
  free : ∀ l ∈ root.listeners, l.2.Free
  queue : e'.queue = e.queue ++
    (if kids = [] then (if root.isComplete then [] else [e.fibers.size])
      else List.range' (e.fibers.size + 1) kids.length)
  current : e'.current = e.current
  inbox : e'.inbox = e.inbox

namespace Entered

variable {e e' : Engine} {root : Fiber} {kids : List Fiber}

theorem size (h : Entered e e' root kids) : e'.fibers.size = e.fibers.size + 1 + kids.length := by
  rw [h.fibers]
  simp
  omega

theorem fiber_old (h : Entered e e' root kids) {k : Nat} (hk : k < e.fibers.size) : e'.fiber k = e.fiber k := by
  rw [fiber_of_append h.fibers, if_pos hk]

theorem fiber_root (h : Entered e e' root kids) : e'.fiber e.fibers.size = root := by
  simp [fiber_of_append h.fibers]

theorem mem_kids_of_lt (h : Entered e e' root kids) {k : Nat} (hk : e.fibers.size < k)
    (hk' : k < e'.fibers.size) : e'.fiber k ∈ kids := by
  rw [h.size] at hk'
  have hpos : k - e.fibers.size = (k - e.fibers.size - 1) + 1 := by omega
  have hlt : k - e.fibers.size - 1 < kids.length := by omega
  rw [fiber_of_append h.fibers, if_neg (by omega), hpos, List.getElem?_cons_succ,
    List.getElem?_eq_getElem hlt]
  exact List.getElem_mem hlt

theorem kept (h : Entered e e' root kids) : Kept (fun _ => False) e e' := by
  refine ⟨by rw [h.size]; omega, fun k hk _ => h.fiber_old hk, fun k hk => by rw [h.fiber_old hk], ?_⟩
  intro k p hk hk' hp
  rcases Nat.eq_or_lt_of_le hk with rfl | hlt
  · rw [h.fiber_root, h.parent] at hp
    cases hp
  · rw [(h.fresh _ (h.mem_kids_of_lt hlt hk')).parent] at hp
    cases hp
    exact .inr (Nat.le_refl _)

/-- The children of the new root are the fibers behind it. -/
theorem kids_root (h : Entered e e' root kids) :
    e'.kids e.fibers.size (e.fibers.size + 1) = List.range' (e.fibers.size + 1) kids.length := by
  have hlen : e'.fibers.size - (e.fibers.size + 1) = kids.length := by rw [h.size]; omega
  rw [Engine.kids, hlen, List.filter_eq_self]
  intro k hk
  have hk := List.mem_range'_1.1 hk
  have hlt : k < e'.fibers.size := by rw [h.size]; omega
  simp [(h.fresh _ (h.mem_kids_of_lt (by omega) hlt)).parent]

theorem roots (h : Entered e e' root kids) : e'.roots e.fibers.size = [e.fibers.size] := by
  have hlen : e'.fibers.size - e.fibers.size = kids.length + 1 := by rw [h.size]; omega
  rw [Engine.roots, hlen, List.range'_succ, List.filter_cons_of_pos (by simp [h.fiber_root, h.parent])]
  congr 1
  rw [List.filter_eq_nil_iff]
  intro k hk
  have hk := List.mem_range'_1.1 hk
  have hlt : k < e'.fibers.size := by rw [h.size]; omega
  simp [(h.fresh _ (h.mem_kids_of_lt (by omega) hlt)).parent]

/-- What went into the queue is what stands there for the new root. -/
theorem queue_eq (h : Entered e e' root kids) : e'.queue = e.queue ++ e'.groups e.fibers.size := by
  rw [h.queue, groups, h.roots, List.flatMap_cons, List.flatMap_nil, List.append_nil, group, h.kids_root,
    h.fiber_root]
  cases kids with
  | nil => simp
  | cons k ks => simp [List.range'_succ]

theorem waiting (h : Entered e e' root kids) : e'.Waiting e.fibers.size := by
  refine ⟨?_, ?_, ?_, ?_, by rw [h.fiber_root]; exact h.free⟩
  · rw [h.fiber_root, h.kids_root, h.pending, List.length_range']
  · rw [h.fiber_root, h.finished]
  · rw [h.fiber_root, h.isAborted]
  · intro k hk
    obtain ⟨hk, hk', -⟩ := mem_kids.1 hk
    exact h.fresh _ (h.mem_kids_of_lt hk hk')

end Entered

/-- What a call of the fiber has done so far, from `a` to `b`: it may have committed the fiber, whose
children are then in front of the queue, and have brought in roots, which are at its end. -/
structure Moved (i f : Nat) (a b : Engine) : Prop where
  inside : f < a.fibers.size
  kept : Kept (· = f) a b
  queue : b.queue = b.kids f a.fibers.size ++ a.queue ++ b.groups a.fibers.size
  current : b.current = some f
  inbox : b.inbox = []
  finished : (b.fiber f).finished = (a.fiber f).finished
  isAborted : (b.fiber f).isAborted = (a.fiber f).isAborted
  pending : (b.fiber f).pending = (a.fiber f).pending + (b.kids f a.fibers.size).length
  fresh : ∀ k ∈ b.kids f a.fibers.size, Fresh f (b.fiber k)
  waiting : ∀ q ∈ b.roots a.fibers.size, b.Waiting q
  fits : ∀ l ∈ (b.fiber f).listeners, l.2.Fits i f
  idle : (b.fiber f).committed = false → b.kids f a.fibers.size = [] ∧ (b.fiber f).next = none
  parted : b.kids f a.fibers.size ≠ [] → (b.fiber f).next = none

namespace Moved

variable {i f : Nat} {a b b' : Engine}

/-- Only the fibers, the queue, the fiber at work and the inbox matter. -/
theorem congr (h : Moved i f a b) (hfibers : b'.fibers = b.fibers) (hqueue : b'.queue = b.queue)
    (hcurrent : b'.current = b.current) (hinbox : b'.inbox = b.inbox) : Moved i f a b' := by
  obtain ⟨name, nodes, eventNodes, settings, fibers, queue, current, operations, pending, inbox, failures, steps,
    isDisposed, isObserved, wake⟩ := b'
  simp only at hfibers hqueue hcurrent hinbox
  subst hfibers hqueue hcurrent hinbox
  exact ⟨h.inside, ⟨h.kept.size, h.kept.old, h.kept.parent, h.kept.born⟩, h.queue, h.current, h.inbox, h.finished,
    h.isAborted, h.pending, h.fresh, fun q hq => ⟨(h.waiting q hq).pending, (h.waiting q hq).finished,
      (h.waiting q hq).isAborted, (h.waiting q hq).fresh, (h.waiting q hq).free⟩, h.fits, h.idle, h.parted⟩

/-- A new root goes to the end of the queue. -/
theorem enter (h : Moved i f a b) {root : Fiber} {kids : List Fiber} (he : Entered b b' root kids) :
    Moved i f a b' := by
  have hkept := he.kept
  have hsize := h.kept.size
  have hf : f < b.fibers.size := Nat.lt_of_lt_of_le h.inside hsize
  have hself : b'.fiber f = b.fiber f := he.fiber_old hf
  have hkids : b'.kids f a.fibers.size = b.kids f a.fibers.size := hkept.kids_eq hf id hsize
  have hgroups : b'.groups a.fibers.size = b.groups a.fibers.size ++ b'.groups b.fibers.size :=
    hkept.groups_append hsize fun _ _ => id
  refine ⟨h.inside, h.kept.trans hkept fun _ _ => False.elim, ?_, ?_, ?_, ?_, ?_, ?_, ?_, ?_, ?_, ?_, ?_⟩
  · rw [he.queue_eq, h.queue, hkids, hgroups, List.append_assoc]
  · rw [he.current, h.current]
  · rw [he.inbox, h.inbox]
  · rw [hself, h.finished]
  · rw [hself, h.isAborted]
  · rw [hself, hkids, h.pending]
  · intro k hk
    rw [hkids] at hk
    rw [he.fiber_old (mem_kids.1 hk).2.1]
    exact h.fresh k hk
  · intro q hq
    rw [hkept.roots_append hsize, he.roots, List.mem_append, List.mem_singleton] at hq
    rcases hq with hq | rfl
    · exact hkept.waiting (mem_roots.1 hq).2.1 id (fun _ _ => id) (h.waiting q hq)
    · exact he.waiting
  · rw [hself]
    exact h.fits
  · rw [hself, hkids]
    exact h.idle
  · rw [hself, hkids]
    exact h.parted

/-- A change of the fiber at work that concerns nothing but itself. -/
theorem alter (h : Moved i f a b) {g : Fiber → Fiber} (hg : Fiber.Own g)
    (hfits : ∀ l ∈ (g (b.fiber f)).listeners, l.2.Fits i f)
    (hidle : (g (b.fiber f)).committed = false → b.kids f a.fibers.size = [] ∧ (g (b.fiber f)).next = none)
    (hparted : b.kids f a.fibers.size ≠ [] → (g (b.fiber f)).next = none) :
    Moved i f a (b.modifyFiber f g) := by
  have hsize := h.kept.size
  have hf : f < b.fibers.size := Nat.lt_of_lt_of_le h.inside hsize
  have hself : (b.modifyFiber f g).fiber f = g (b.fiber f) := by
    rw [fiber_modifyFiber, if_pos ⟨rfl, hf⟩]
  have hother {k : Nat} (hk : k ≠ f) : (b.modifyFiber f g).fiber k = b.fiber k := by
    rw [fiber_modifyFiber, if_neg fun h => hk h.1.symm]
  have hkept : Kept (· = f) b (b.modifyFiber f g) := by
    refine ⟨by simp, fun k _ hk => hother hk, ?_, ?_⟩
    · intro k _
      by_cases hk : k = f
      · rw [hk, hself, hg.parent]
      · rw [hother hk]
    · intro k p hk hk'
      rw [size_modifyFiber] at hk'
      omega
  have hkids (p : Nat) {start : Nat} (hs : start ≤ b.fibers.size) :
      (b.modifyFiber f g).kids p start = b.kids p start := hkept.kids_of_size (by simp) p hs
  have hroots : (b.modifyFiber f g).roots a.fibers.size = b.roots a.fibers.size :=
    hkept.roots_of_size (by simp) hsize
  have hne {q : Nat} (hq : a.fibers.size ≤ q) : q ≠ f := by
    have := h.inside
    omega
  have hgroups : (b.modifyFiber f g).groups a.fibers.size = b.groups a.fibers.size := by
    have hnone : (b.modifyFiber f g).groups b.fibers.size = [] := by simp [groups, roots]
    rw [hkept.groups_append hsize fun q hq => hne (mem_roots.1 hq).1, hnone, List.append_nil]
  refine ⟨h.inside, h.kept.trans hkept fun _ _ => id, ?_, h.current, h.inbox, ?_, ?_, ?_, ?_, ?_, ?_, ?_, ?_⟩
  · rw [hkids f hsize, hgroups]
    exact h.queue
  · rw [hself, hg.finished, h.finished]
  · rw [hself, hg.isAborted, h.isAborted]
  · rw [hself, hg.pending, hkids f hsize, h.pending]
  · intro k hk
    rw [hkids f hsize] at hk
    rw [hother (hne (mem_kids.1 hk).1)]
    exact h.fresh k hk
  · intro q hq
    rw [hroots] at hq
    obtain ⟨hq', hlt, -⟩ := mem_roots.1 hq
    refine hkept.waiting hlt (hne hq') ?_ (h.waiting q hq)
    intro k hk
    have := (mem_kids.1 hk).1
    exact hne (by omega)
  · rw [hself]
    exact hfits
  · rw [hself, hkids f hsize]
    exact hidle
  · rw [hself, hkids f hsize]
    exact hparted

/-- A commit of the fiber at work, the first in this call. -/
theorem commit (h : Moved i f a b) (hopen : (b.fiber f).committed = false) (node : NodeRef)
    {l : Option Listener} (hl : ∀ x, l = some x → x.Fits i f) (wires : List Wire) :
    Moved i f a (b.commit f node l wires) := by
  have hsize := h.kept.size
  have hf : f < b.fibers.size := Nat.lt_of_lt_of_le h.inside hsize
  obtain ⟨hnone, hnext⟩ := h.idle hopen
  have heq := commit_eq hf node l wires
  generalize b.commit f node l wires = b' at heq ⊢
  have hfibers : b'.fibers = (b.modifyFiber f (onto node l wires)).fibers ++
      (offshoots f (b.fiber f) node wires).toArray := by
    rw [heq]
    rfl
  have hfiber (k : Nat) := fiber_of_append hfibers k
  simp only [size_modifyFiber, fiber_modifyFiber] at hfiber
  have hself : b'.fiber f = onto node l wires (b.fiber f) := by
    rw [hfiber, if_pos hf, if_pos ⟨rfl, hf⟩]
  have hother {k : Nat} (hk : k < b.fibers.size) (hkf : k ≠ f) : b'.fiber k = b.fiber k := by
    rw [hfiber, if_pos hk, if_neg fun h => hkf h.1.symm]
  have hsize' : b'.fibers.size = b.fibers.size + (branches wires).length := by
    rw [hfibers]
    simp
  have hnew {k : Nat} (hk : b.fibers.size ≤ k) (hk' : k < b'.fibers.size) : Fresh f (b'.fiber k) := by
    have hlt : k - b.fibers.size < (offshoots f (b.fiber f) node wires).length := by
      rw [length_offshoots]
      omega
    rw [hfiber, if_neg (by omega), List.getElem?_eq_getElem hlt]
    exact fresh_of_mem_offshoots (List.getElem_mem hlt)
  have hkept : Kept (· = f) b b' := by
    refine ⟨by omega, fun k hk hkf => hother hk hkf, ?_, ?_⟩
    · intro k hk
      by_cases hkf : k = f
      · rw [hkf, hself, onto_parent]
      · rw [hother hk hkf]
    · intro k p hk hk' hp
      rw [(hnew hk hk').parent] at hp
      cases hp
      exact .inl rfl
  have hne {q : Nat} (hq : a.fibers.size ≤ q) : q ≠ f := by
    have := h.inside
    omega
  have hborn : b'.kids f b.fibers.size = List.range' b.fibers.size (branches wires).length := by
    have hlen : b'.fibers.size - b.fibers.size = (branches wires).length := by omega
    rw [kids, hlen, List.filter_eq_self]
    intro k hk
    have hk := List.mem_range'_1.1 hk
    simp [(hnew hk.1 (by omega)).parent]
  have hkids : b'.kids f a.fibers.size = List.range' b.fibers.size (branches wires).length := by
    rw [hkept.kids_append f hsize, hnone, List.nil_append, hborn]
  have hnoroots : b'.roots b.fibers.size = [] := by
    apply List.eq_nil_iff_forall_not_mem.2
    intro q hq
    obtain ⟨hq, hq', hp⟩ := mem_roots.1 hq
    rw [(hnew hq hq').parent] at hp
    cases hp
  have hgroups : b'.groups a.fibers.size = b.groups a.fibers.size := by
    have hgnone : b'.groups b.fibers.size = [] := by simp [groups, hnoroots]
    rw [hkept.groups_append hsize fun q hq => hne (mem_roots.1 hq).1, hgnone, List.append_nil]
  refine ⟨h.inside, h.kept.trans hkept fun _ _ => id, ?_, ?_, ?_, ?_, ?_, ?_, ?_, ?_, ?_, ?_, ?_⟩
  · rw [hkids, hgroups, heq]
    simp only [h.current, if_true, h.queue, hnone, List.nil_append, List.append_assoc]
  · rw [heq]
    exact h.current
  · rw [heq]
    exact h.inbox
  · rw [hself, onto_finished, h.finished]
  · rw [hself, onto_isAborted, h.isAborted]
  · rw [hself, onto_pending, h.pending, hnone, hkids, List.length_range', List.length_nil, Nat.add_zero]
  · intro k hk
    rw [hkids] at hk
    have hk := List.mem_range'_1.1 hk
    exact hnew hk.1 (by omega)
  · intro q hq
    rw [hkept.roots_append hsize, hnoroots, List.append_nil] at hq
    obtain ⟨hq', hlt, -⟩ := mem_roots.1 hq
    refine hkept.waiting hlt (hne hq') ?_ (h.waiting q hq)
    intro k hk
    have := (mem_kids.1 hk).1
    exact hne (by omega)
  · intro x hx
    rw [hself, onto_listeners] at hx
    cases l with
    | none => exact h.fits x hx
    | some y =>
      rcases List.mem_cons.1 hx with rfl | hx
      · exact hl y rfl
      · exact h.fits x hx
  · rw [hself, onto_committed]
    intro hc
    cases hc
  · intro hk
    have hbr : branches wires ≠ [] := by
      intro hbr
      rw [hkids, hbr] at hk
      exact hk rfl
    rw [hself, onto_next_of_branches node l wires _ hbr, hnext]

end Moved

end Engine

end FlowGraph
