import FlowGraph.Proofs.Contained

/-!
No fiber is lost, duplicated or resumed early. At every point between two iterations of a drain the accounts of an
engine add up, as long as it is not disposed of nothing that can go on is missing from its queue, and from one point to
a later one every fiber that ends is told to its parent once.
-/
namespace FlowGraph

open World Play

namespace Engine

/-- The counts are right, and the queue holds fibers that can go on, each once. -/
structure Counted (e : Engine) : Prop where
  pending : ∀ k, (e.fiber k).pending = e.openKids k
  nodup : e.queue.Nodup
  queued : ∀ k ∈ e.queue, k < e.fibers.size ∧ (e.fiber k).finished = false ∧ (e.fiber k).isWaiting = false

/-- Besides, no fiber that can go on is missing from the queue, so that all are over when it is empty. -/
structure Sound (e : Engine) : Prop extends Counted e where
  present : ∀ k, k < e.fibers.size → (e.fiber k).finished = false → (e.fiber k).isWaiting = false →
    k ∈ e.queue ∨ e.Discarded k
  ended : e.queue = [] → ∀ k, k < e.fibers.size → (e.fiber k).finished = true ∨ e.Discarded k

/-- How many children a fiber has got since. -/
def born (a e : Engine) (p : Nat) : Nat :=
  (List.range e.fibers.size).countP fun k => (e.fiber k).parent = some p && a.fibers.size ≤ k

/-- How many children of a fiber have ended since. -/
def endings (a e : Engine) (p : Nat) : Nat :=
  (List.range e.fibers.size).countP fun k =>
    (e.fiber k).parent = some p && !(a.fiber k).finished && (e.fiber k).finished

/-- Every child has told its parent of its end, once. -/
def Told (a e : Engine) : Prop := ∀ p, (a.fiber p).pending + born a e p = (e.fiber p).pending + endings a e p

section Counting

variable {a e : Engine}

theorem openKids_eq (e : Engine) (p : Nat) : e.openKids p =
    (List.range e.fibers.size).countP fun k => (e.fiber k).parent = some p && !(e.fiber k).finished := by
  have hmap : e.fibers.toList = (List.range e.fibers.size).map e.fiber := by
    apply List.ext_getElem?
    intro k
    by_cases hk : k < e.fibers.size
    · rw [toList_fiber hk, List.getElem?_map, List.getElem?_range hk]
      rfl
    · simp [hk]
  rw [openKids, hmap, List.countP_map]
  rfl

theorem countP_and_add (p q : Nat → Bool) (ks : List Nat) :
    ks.countP (fun k => p k && q k) + ks.countP (fun k => p k && !q k) = ks.countP p := by
  induction ks with
  | nil => rfl
  | cons k ks ih =>
    simp only [List.countP_cons]
    cases p k <;> cases q k <;> simp <;> omega

/-- The children that were open before are those that are old and were open. -/
theorem openKids_before (h : Outlived a e) (p : Nat) : a.openKids p =
    (List.range e.fibers.size).countP fun k =>
      ((e.fiber k).parent = some p && !(a.fiber k).finished) && !decide (a.fibers.size ≤ k) := by
  have hsize : e.fibers.size = a.fibers.size + (e.fibers.size - a.fibers.size) := by
    have := h.size
    omega
  rw [openKids_eq, hsize, List.range_add, List.countP_append]
  have hnone : ((List.range (e.fibers.size - a.fibers.size)).map (a.fibers.size + ·)).countP (fun k =>
      ((e.fiber k).parent = some p && !(a.fiber k).finished) && !decide (a.fibers.size ≤ k)) = 0 := by
    rw [List.countP_eq_zero]
    intro k hk
    obtain ⟨j, -, rfl⟩ := List.mem_map.1 hk
    simp
  rw [hnone, Nat.add_zero]
  apply List.countP_congr
  intro k hk
  have hlt := List.mem_range.1 hk
  rw [h.parent k hlt]
  simp [hlt]

/-- Counts that are right before and after have been told of each birth and each end. -/
theorem told_of_outlived (h : Outlived a e) (ha : ∀ k, (a.fiber k).pending = a.openKids k)
    (he : ∀ k, (e.fiber k).pending = e.openKids k) : Told a e := by
  intro p
  rw [ha, he, openKids_before h, openKids_eq]
  have hold := countP_and_add (fun k => (e.fiber k).parent = some p && !(a.fiber k).finished)
    (fun k => a.fibers.size ≤ k) (List.range e.fibers.size)
  have hnow := countP_and_add (fun k => (e.fiber k).parent = some p && !(a.fiber k).finished)
    (fun k => (e.fiber k).finished) (List.range e.fibers.size)
  have hborn : born a e p = (List.range e.fibers.size).countP fun k =>
      ((e.fiber k).parent = some p && !(a.fiber k).finished) && decide (a.fibers.size ≤ k) := by
    apply List.countP_congr
    intro k _
    by_cases hk : a.fibers.size ≤ k
    · simp [hk, fiber_out hk, show (default : Fiber).finished = false from rfl]
    · simp [hk]
  have hopen : (List.range e.fibers.size).countP (fun k => (e.fiber k).parent = some p && !(e.fiber k).finished) =
      (List.range e.fibers.size).countP fun k =>
        ((e.fiber k).parent = some p && !(a.fiber k).finished) && !(e.fiber k).finished := by
    apply List.countP_congr
    intro k _
    cases hfin : (a.fiber k).finished with
    | false => simp
    | true => simp [h.finished k hfin]
  have hended : endings a e p = (List.range e.fibers.size).countP fun k =>
      ((e.fiber k).parent = some p && !(a.fiber k).finished) && (e.fiber k).finished := rfl
  omega

end Counting

namespace InOrder

variable {a e : Engine} {j : Nat}

theorem counted (h : InOrder a j none e) : e.Counted where
  pending k := (h.accounted.tallied k).pending
  nodup := h.accounted.nodup
  queued k hk := by
    obtain ⟨hlt, hopen, hidle⟩ := (h.accounted.tallied k).queued hk
    exact ⟨hlt, hopen, by simp [Fiber.isWaiting, hidle]⟩

theorem present (h : InOrder a j none e) (hd : e.isDisposed = false) {k : Nat} (hk : k < e.fibers.size)
    (hopen : (e.fiber k).finished = false) (hidle : (e.fiber k).isWaiting = false) : k ∈ e.queue ∨ e.Discarded k := by
  have hpending : (e.fiber k).pending = 0 := by simpa [Fiber.isWaiting] using hidle
  rcases (h.accounted.tallied k).present hd hk hopen hpending with hq | hc | hdis
  · exact .inl hq
  · rw [h.current] at hc
    cases hc
  · exact .inr hdis

/-- Who waits, waits for a child that is not over. -/
theorem openKid (h : InOrder a j none e) {k : Nat} (hwaits : (e.fiber k).isWaiting = true) :
    ∃ c, k < c ∧ c < e.fibers.size ∧ (e.fiber c).parent = some k ∧ (e.fiber c).finished = false := by
  have hpos : 0 < e.openKids k := by
    rw [← (h.accounted.tallied k).pending]
    simpa [Fiber.isWaiting] using hwaits
  rw [openKids_eq, List.countP_pos_iff] at hpos
  obtain ⟨c, hc, hp⟩ := hpos
  simp only [Bool.and_eq_true, decide_eq_true_eq, Bool.not_eq_true'] at hp
  exact ⟨c, (h.accounted.tallied c).parent k hp.1, List.mem_range.1 hc, hp.1, hp.2⟩

/-- If nothing is left in the queue, nothing is left at all: who is not over would wait for a child, and so on down to a
fiber without children. -/
theorem ended (h : InOrder a j none e) (hd : e.isDisposed = false) (hq : e.queue = []) {k : Nat}
    (hk : k < e.fibers.size) : (e.fiber k).finished = true ∨ e.Discarded k := by
  induction hn : e.fibers.size - k using Nat.strongRecOn generalizing k with
  | ind n ih =>
    cases hopen : (e.fiber k).finished with
    | true => exact .inl rfl
    | false =>
      cases hwaits : (e.fiber k).isWaiting with
      | false =>
        refine .inr ((h.present hd hk hopen hwaits).resolve_left ?_)
        rw [hq]
        exact List.not_mem_nil
      | true =>
        obtain ⟨c, hkc, hc, hparent, hcopen⟩ := h.openKid hwaits
        rcases ih (e.fibers.size - c) (by omega) hc rfl with hfin | hdis
        · rw [hfin] at hcopen
          cases hcopen
        · rw [hdis.blank.parent] at hparent
          cases hparent

theorem sound (h : InOrder a j none e) (hd : e.isDisposed = false) : e.Sound :=
  { h.counted with
    present := fun _ => h.present hd
    ended := fun hq _ => h.ended hd hq }

end InOrder

end Engine

theorem Passage.trans {u v w : World} (h : Passage u v) (h' : Passage v w) : Passage u w := by
  induction h' with
  | refl => exact h
  | deed _ hd ih => exact ih.deed hd
  | iteration _ hi ih => exact ih.iteration hi

namespace Play

variable {i n m t : Nat} {u v w : World}

/-- What settling leaves at the head of the queue can go on. -/
theorem head_settleWithin (hn : burden i w < n) (hinbox : (w.engine i).inbox = []) {f : Nat} {others : List Nat}
    (hq : ((settleWithin i n w).engine i).queue = f :: others) :
    (((settleWithin i n w).engine i).fiber f).isReady = true := by
  induction n generalizing w with
  | zero => omega
  | succ n ih =>
    cases hqueue : (w.engine i).queue with
    | nil =>
      have hsame : settleWithin i (n + 1) w = w := by rw [settleWithin, hqueue]
      rw [hsame, hqueue] at hq
      cases hq
    | cons g rest =>
      cases hready : ((w.engine i).fiber g).isReady with
      | true =>
        have hsame : settleWithin i (n + 1) w = w := by simp [settleWithin, hqueue, hready]
        rw [hsame] at hq ⊢
        rw [hqueue] at hq
        cases hq
        exact hready
      | false =>
        have hb := burden_pop hqueue
        rw [settleWithin_idle n hinbox hqueue hready] at hq ⊢
        exact ih (by omega) (inbox_pop hinbox g rest) hq

section Runs

variable {P : World → Prop} (hi : ∀ w v, P w → Iteration i w v → P v)

include hi

theorem upholds_settleWithin (n : Nat) (h : P w) : P (settleWithin i n w) := by
  induction n generalizing w with
  | zero => exact h
  | succ n ih =>
    rw [settleWithin]
    split
    · exact h
    · rename_i f others hq
      simp only
      split
      · exact h
      · rename_i hidle
        exact ih (hi w _ h (.pop hq (Bool.eq_false_iff.2 hidle)))

/-- What outlasts each iteration, and that a queue that is left over is noted, outlasts a drain. -/
theorem upholds_drain (hnote : ∀ w e, P w → P (w.record e)) (h : P w) (hinbox : (w.engine i).inbox = [])
    (hrun : (drain i n t).runOn w = (.ok m, v)) : P v := by
  induction n generalizing t w with
  | zero =>
    rw [drain, breakOff, runOn_get] at hrun
    dsimp only at hrun
    split at hrun
    · cases hrun
      exact hnote w _ h
    · cases hrun
      exact h
  | succ n ih =>
    have hsettled := upholds_settleWithin hi ((w.engine i).queue.length +
      2 * ((w.engine i).fibers.size + (w.engine i).inbox.length) + 1) h
    have honward : Onward w (settle w i) := (stable_settle (Onward.drained w i) ⟨rfl, .refl w⟩).2
    have hhead {f : Nat} {others : List Nat} (hq : ((settle w i).engine i).queue = f :: others) :
        (((settle w i).engine i).fiber f).isReady = true := head_settleWithin (burden_lt_fuel hinbox) hinbox hq
    have hsettled : P (settle w i) := hsettled
    rw [drain, runOn_bind, runOn_modify] at hrun
    generalize settle w i = s at hrun hsettled honward hhead
    dsimp only at hrun
    rw [runOn_get] at hrun
    split at hrun
    · cases hrun
      exact hsettled
    · rename_i f others hq
      rw [runOn_bind, runOn_modify] at hrun
      dsimp only at hrun
      rw [runOn_bind] at hrun
      have hpopped := (obeys_turn (Onward.drained s i) f).upholds (w := s.modifyEngine i fun e => { e with queue := others })
        (.modifyEngine s i (fun _ => rfl) (fun _ => id) (fun _ => rfl) fun _ => id)
      split at hrun
      · rename_i hturn
        rw [hturn] at hpopped
        refine ih (hi s _ hsettled (.turn hq (hhead hq) hturn)) ?_ hrun
        exact hpopped.inbox i (honward.inbox i hinbox)
      · cases hrun

/-- Likewise for a run with any limits. -/
theorem upholds_run (hnote : ∀ w e, P w → P (w.record e)) (hinbox : ∀ w, P w → P (w.drainInbox i)) (h : P w)
    {maxSteps : Option Int} {maxSeconds : Option Double} (hrun : (run i maxSteps maxSeconds).runOn w = (.ok m, v)) : P v := by
  rw [run, runOn_bind, runOn_modify] at hrun
  dsimp only at hrun
  rw [runOn_get] at hrun
  exact upholds_drain hi hnote (hinbox w h) (Onward.inbox_drainInbox w i) hrun

end Runs

/-- A run with any limits goes from point to point. -/
theorem passage_run (h : Passage u w) {maxSteps : Option Int} {maxSeconds : Option Double}
    (hrun : (run i maxSteps maxSeconds).runOn w = (.ok m, v)) : Passage u v :=
  upholds_run (fun _ _ h hi => h.iteration hi) (fun _ _ h => h.deed (.aside rfl rfl)) (fun w h => h.deed (.drainInbox w i)) h hrun

end Play

/-- No fiber is lost, duplicated or resumed early: at every point `v` between two iterations of a drain every engine has
its counts right, and, until it is disposed of, is sound. Since any earlier point `w` every fiber that ended was told to
its parent once, none came back to life or changed its parent, and none was discarded that had something to run. As long
as something is in the queue there is a next iteration, where the types of inputs are known. -/
theorem Passage.fibers_accounted {u w v : World} (he : u.engines = #[]) (hd : u.disposers = []) (hw : Passage u w)
    (hv : Passage w v) (i : Nat) :
    (v.engine i).Counted ∧ ((v.engine i).isDisposed = false → (v.engine i).Sound) ∧
      Engine.Told (w.engine i) (v.engine i) ∧ Engine.Outlived (w.engine i) (v.engine i) ∧
      (v.Typed → (v.engine i).queue ≠ [] → ∃ v', Iteration i v v') := by
  have hbefore := (InOrder.start he hd).passage hw
  have hafter := hbefore.rebase.passage hv
  have hold := hbefore.atRest_engine i
  have hnow := hafter.atRest_engine i
  exact ⟨hnow.counted, hnow.sound, Engine.told_of_outlived hnow.outlived hold.counted.pending hnow.counted.pending,
    hnow.outlived, hafter.progress⟩

namespace Parting

def left : Wire := ⟨⟨"go", "exec", "left", "exec"⟩, 0⟩

def right : Wire := ⟨⟨"go", "exec", "right", "exec"⟩, 1⟩

def step (id : String) (w : Wire) : Node where
  id := id
  definition := { typeName := "Step", behaviour := .flow (some (.script [])) }
  inputs := [{ name := "exec", valueType := ValueType.flowName, wires := [w] }]

/-- A path that splits in two. -/
def graph : Graph where
  arena := #[
    { id := "go", definition := { typeName := "Go", behaviour := .event (some (.script [])) }
      outputs := [{ name := "exec", valueType := ValueType.flowName, wires := [left, right] }] },
    step "left" left, step "right" right]
  ids := ⟨[("go", 0), ("left", 1), ("right", 2)]⟩
  wires := [left, right]
  ends := #[some ⟨⟨0, 0⟩, ⟨1, 0⟩⟩, some ⟨⟨0, 0⟩, ⟨2, 0⟩⟩]

def bare : World := { graphs := #[graph] }

/-- There is an engine, and the path has begun. -/
def begun : World := ((makeEngine "main" [⟨0, 0⟩, ⟨0, 1⟩, ⟨0, 2⟩] {}).runOn bare).2.begin 0 ⟨0, 0⟩ "exec" none []

/-- The first of the two branches has had its turn. -/
def halfway : World := ((turn 0 1).runOn (begun.modifyEngine 0 fun e => { e with queue := [2] })).2

/-- The engine is disposed of meanwhile. -/
def disposed : World := ((dispose 0).runOn halfway).2

theorem passage_begun : Passage bare begun :=
  ((Passage.refl bare).deed (.makeEngine bare "main" _ {})).deed (.begin _ 0 ⟨0, 0⟩ "exec" [] fun _ hl => by cases hl)

theorem passage_halfway : Passage begun halfway := by
  have hqueue : (begun.engine 0).queue = 1 :: [2] := by decide
  refine (Passage.refl begun).iteration (.turn hqueue ?_ ?_)
  · decide
  · rfl

end Parting

open Parting in
/-- Halfway the root waits for one of its two children, and one has told it of its end. -/
theorem Passage.fibers_accounted_halfway : ((halfway.engine 0).fiber 0).pending = (halfway.engine 0).openKids 0 ∧
    ((begun.engine 0).fiber 0).pending + Engine.born (begun.engine 0) (halfway.engine 0) 0 =
      ((halfway.engine 0).fiber 0).pending + Engine.endings (begun.engine 0) (halfway.engine 0) 0 := by
  obtain ⟨hcounted, -, htold, -, -⟩ := Passage.fibers_accounted rfl rfl passage_begun passage_halfway 0
  exact ⟨hcounted.pending 0, htold 0⟩

open Parting in
/-- Who disposes of an engine leaves fibers behind: the second branch is not over, can go on, and is not in the queue. -/
theorem Passage.not_sound_disposed : bare.engines = #[] ∧ bare.disposers = [] ∧ Passage bare disposed ∧
    ¬ (disposed.engine 0).Sound := by
  refine ⟨rfl, rfl, ((passage_begun.trans passage_halfway).deed (.dispose halfway 0)), fun h => ?_⟩
  have hqueue : (disposed.engine 0).queue = [] := by decide
  rcases h.ended hqueue 2 (by decide) with hfin | hdis
  · exact absurd hfin (by decide)
  · exact absurd hdis.blank.parent (by decide)

end FlowGraph
