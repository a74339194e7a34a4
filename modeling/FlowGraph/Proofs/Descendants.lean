import FlowGraph.Proofs.Iterations
import FlowGraph.Proofs.Stretches

/-!
The kin of a fiber: what it has split into since some point, and what became of that. While one of them is at work, the kin
stand in front of the queue, before everybody else; so until the fiber is over no other has a turn, and once it waits for
nobody all of its kin are over.
-/
namespace FlowGraph

open World Play

/-- If the fiber has failed it had not split before that. -/
def Fiber.Unburdened (x : Fiber) : Prop := x.isAborted = true → x.pending = 0

theorem Fiber.unburdened_of_unaborted {x : Fiber} (h : x.isAborted = false) : x.Unburdened := fun ha => by simp [h] at ha

/-- What may become of a fiber. -/
structure Fiber.Thrives (x y : Fiber) : Prop where
  parent : y.parent = x.parent
  isWritten : x.isWritten = true → y.isWritten = true
  finished : x.finished = true → y.finished = true
  unburdened : x.Unburdened → y.Unburdened
  blank : y.Blank → x.Blank

theorem Fiber.Thrives.refl (x : Fiber) : x.Thrives x := ⟨rfl, id, id, id, id⟩

namespace Engine

/-- The fiber `f`, and those that have come of it by splits since there were `n` fibers. -/
inductive Kin (e : Engine) (n f : Nat) : Nat → Prop where
  | self : Kin e n f f
  | child {k p : Nat} : n ≤ k → (e.fiber k).parent = some p → Kin e n f p → Kin e n f k

theorem Kin.congr {e e' : Engine} {n f k : Nat} (h : e.Kin n f k) (hf : e'.fibers = e.fibers) : e'.Kin n f k := by
  induction h with
  | self => exact .self
  | child hle hp _ ih =>
    rw [← fiber_congr hf] at hp
    exact .child hle hp ih

/-- The kin of the fiber, since there were `n` fibers, stand in front of the queue. None has outputs of a trigger to write or
has failed once it had split, and what the fiber had split into before that is over. -/
structure Household (n f : Nat) (e : Engine) : Prop where
  old : f < n
  size : n ≤ e.fibers.size
  parent : ∀ k p, (e.fiber k).parent = some p → p < k
  queue : ∃ front rest, e.queue = front ++ rest ∧ (∀ k ∈ front, e.Kin n f k) ∧
    ∀ k ∈ rest, k < e.fibers.size ∧ ¬ e.Kin n f k
  written : ∀ k, e.Kin n f k → (e.fiber k).isWritten = true
  unburdened : ∀ k, e.Kin n f k → (e.fiber k).Unburdened
  settled : ∀ k, k < n → (e.fiber k).parent = some f → (e.fiber k).finished = true
  begun : ¬ (e.fiber f).Blank

namespace Household

variable {n f k g : Nat} {e e' : Engine}

theorem inside (h : Household n f e) : f < e.fibers.size := Nat.lt_of_lt_of_le h.old h.size

theorem lt_size (h : Household n f e) (hk : e.Kin n f k) : k < e.fibers.size := by
  cases hk with
  | self => exact h.inside
  | child _ hp _ =>
    apply Decidable.byContradiction
    intro hout
    rw [fiber_out (Nat.not_lt.1 hout)] at hp
    cases hp

/-- An old fiber is kin afterwards if it was before. -/
theorem kin_iff (h : Household n f e)
    (hparent : ∀ k, k < e.fibers.size → (e'.fiber k).parent = (e.fiber k).parent) (hk : k < e.fibers.size) :
    e'.Kin n f k ↔ e.Kin n f k := by
  constructor
  · intro hkin
    induction hkin with
    | self => exact .self
    | child hle hp _ ih =>
      rw [hparent _ hk] at hp
      exact .child hle hp (ih (Nat.lt_trans (h.parent _ _ hp) hk))
  · intro hkin
    induction hkin with
    | self => exact .self
    | child hle hp _ ih =>
      refine .child hle ?_ (ih (Nat.lt_trans (h.parent _ _ hp) hk))
      rw [hparent _ hk]
      exact hp

/-- The fibers thrive; kin come in front of the queue, others behind. -/
theorem grow (h : Household n f e) (hsize : e.fibers.size ≤ e'.fibers.size)
    (hold : ∀ k, k < e.fibers.size → (e.fiber k).Thrives (e'.fiber k))
    (hparent : ∀ k p, e.fibers.size ≤ k → (e'.fiber k).parent = some p → p < k)
    (hborn : ∀ k, e.fibers.size ≤ k → e'.Kin n f k → (e'.fiber k).isWritten = true ∧ (e'.fiber k).Unburdened)
    (hqueue : ∃ kin others, e'.queue = kin ++ e.queue ++ others ∧ (∀ k ∈ kin, e'.Kin n f k) ∧
      ∀ k ∈ others, k < e'.fibers.size ∧ ¬ e'.Kin n f k) : Household n f e' := by
  have hkin {k : Nat} (hk : k < e.fibers.size) : e'.Kin n f k ↔ e.Kin n f k :=
    h.kin_iff (fun k hk => (hold k hk).parent) hk
  refine ⟨h.old, Nat.le_trans h.size hsize, fun k p hp => ?_, ?_, fun k hk => ?_, fun k hk => ?_, fun k hk hp => ?_, ?_⟩
  · by_cases hk : k < e.fibers.size
    · rw [(hold k hk).parent] at hp
      exact h.parent k p hp
    · exact hparent k p (Nat.not_lt.1 hk) hp
  · obtain ⟨front, rest, heq, hfront, hrest⟩ := h.queue
    obtain ⟨kin, others, heq', hin, hout⟩ := hqueue
    refine ⟨kin ++ front, rest ++ others, by rw [heq', heq]; simp, fun k hk => ?_, fun k hk => ?_⟩
    · rcases List.mem_append.1 hk with hk | hk
      · exact hin k hk
      · exact (hkin (h.lt_size (hfront k hk))).2 (hfront k hk)
    · rcases List.mem_append.1 hk with hk | hk
      · exact ⟨Nat.lt_of_lt_of_le (hrest k hk).1 hsize, fun hk' => (hrest k hk).2 ((hkin (hrest k hk).1).1 hk')⟩
      · exact hout k hk
  · by_cases hlt : k < e.fibers.size
    · exact (hold k hlt).isWritten (h.written k ((hkin hlt).1 hk))
    · exact (hborn k (Nat.not_lt.1 hlt) hk).1
  · by_cases hlt : k < e.fibers.size
    · exact (hold k hlt).unburdened (h.unburdened k ((hkin hlt).1 hk))
    · exact (hborn k (Nat.not_lt.1 hlt) hk).2
  · have hlt := Nat.lt_of_lt_of_le hk h.size
    rw [(hold k hlt).parent] at hp
    exact (hold k hlt).finished (h.settled k hk hp)
  · exact fun hb => h.begun ((hold f h.inside).blank hb)

/-- No fiber comes in. -/
theorem change (h : Household n f e) (hsize : e'.fibers.size = e.fibers.size)
    (hold : ∀ k, (e.fiber k).Thrives (e'.fiber k))
    (hqueue : ∃ kin, e'.queue = kin ++ e.queue ∧ ∀ k ∈ kin, e.Kin n f k) : Household n f e' := by
  have hnone {k : Nat} (hk : e.fibers.size ≤ k) {p : Nat} (hp : (e'.fiber k).parent = some p) : False := by
    rw [fiber_out (hsize ▸ hk)] at hp
    cases hp
  obtain ⟨kin, heq, hkin⟩ := hqueue
  refine h.grow (Nat.le_of_eq hsize.symm) (fun k _ => hold k) (fun k p hk hp => (hnone hk hp).elim) (fun k hk hk' => ?_)
    ⟨kin, [], by rw [heq, List.append_nil], fun k hk => ?_, fun k hk => absurd hk List.not_mem_nil⟩
  · cases hk' with
    | self => exact absurd h.inside (Nat.not_lt.2 hk)
    | child _ hp _ => exact (hnone hk hp).elim
  · exact (h.kin_iff (fun k _ => (hold k).parent) (h.lt_size (hkin k hk))).2 (hkin k hk)

theorem congr (h : Household n f e) (hf : e'.fibers = e.fibers) (hq : e'.queue = e.queue) : Household n f e' := by
  refine h.change (by rw [hf]) (fun k => ?_) ⟨[], by rw [hq]; rfl, fun k hk => absurd hk List.not_mem_nil⟩
  rw [fiber_congr hf]
  exact .refl _

theorem alter (h : Household n f e) {u : Fiber → Fiber} (hu : (e.fiber g).Thrives (u (e.fiber g))) :
    Household n f (e.modifyFiber g u) := by
  refine h.change (size_modifyFiber ..) (fun k => ?_) ⟨[], rfl, fun k hk => absurd hk List.not_mem_nil⟩
  rw [fiber_modifyFiber]
  split
  · rename_i hk
    rw [← hk.1]
    exact hu
  · exact .refl _

/-- A root that comes in is no kin, nor are its children. -/
theorem enter (h : Household n f e) {root : Fiber} {kids : List Fiber} (he : Entered e e' root kids) : Household n f e' := by
  have hkids {k : Nat} (hk : e.fibers.size < k) (hlt : k < e'.fibers.size) : (e'.fiber k).parent = some e.fibers.size :=
    (he.fresh _ (he.mem_kids_of_lt hk hlt)).parent
  have hroot : ¬ e'.Kin n f e.fibers.size := by
    intro hkin
    generalize hs : e.fibers.size = s at hkin
    cases hkin with
    | self => exact absurd h.inside (by omega)
    | child _ hp _ =>
      rw [← hs, he.fiber_root, he.parent] at hp
      cases hp
  have hnew {k : Nat} (hk : e.fibers.size ≤ k) : ¬ e'.Kin n f k := by
    intro hkin
    rcases Nat.eq_or_lt_of_le hk with rfl | hlt
    · exact hroot hkin
    · cases hkin with
      | self => exact absurd h.inside (by omega)
      | child _ hp hkin =>
        have hin : k < e'.fibers.size := by
          apply Decidable.byContradiction
          intro hout
          rw [fiber_out (Nat.not_lt.1 hout)] at hp
          cases hp
        rw [hkids hlt hin] at hp
        cases hp
        exact hroot hkin
  have hgrown := he.size
  refine h.grow (by omega) (fun k hk => by rw [he.fiber_old hk]; exact .refl _) (fun k p hk hp => ?_)
    (fun k hk hkin => absurd hkin (hnew hk)) ⟨[], _, by rw [he.queue]; rfl, fun k hk => absurd hk List.not_mem_nil, fun k hk => ?_⟩
  · rcases Nat.eq_or_lt_of_le hk with rfl | hlt
    · rw [he.fiber_root, he.parent] at hp
      cases hp
    · have hin : k < e'.fibers.size := by
        apply Decidable.byContradiction
        intro hout
        rw [fiber_out (Nat.not_lt.1 hout)] at hp
        cases hp
      rw [hkids hlt hin] at hp
      cases hp
      exact hlt
  · have hbounds : e.fibers.size ≤ k ∧ k < e'.fibers.size := by
      split at hk
      · split at hk
        · cases hk
        · rw [List.mem_singleton.1 hk]
          omega
      · have := List.mem_range'_1.1 hk
        omega
    exact ⟨hbounds.2, hnew hbounds.1⟩

/-- What a fiber at work splits into is its kin. -/
theorem commit (h : Household n f e) (hc : e.current = some g) (hg : e.Kin n f g) (hopen : (e.fiber g).isAborted = false)
    (node : NodeRef) (l : Option Listener) (wires : List Wire) : Household n f (e.commit g node l wires) := by
  have hlt := h.lt_size hg
  have heq := commit_eq hlt node l wires
  have hsize : (e.commit g node l wires).fibers.size = e.fibers.size + (branches wires).length := by
    rw [heq]
    simp
  have hold (k : Nat) (hk : k < e.fibers.size) : (e.fiber k).Thrives ((e.commit g node l wires).fiber k) := by
    rw [fiber_commit hlt, if_pos hk]
    split
    · rename_i hgk
      subst hgk
      refine ⟨onto_parent .., fun hw => ?_, fun hf => ?_, fun _ => ?_, Outlived.blank_of_onto⟩
      · rw [onto_isWritten, hw, Bool.true_or]
      · rw [onto_finished, hf]
      · exact Fiber.unburdened_of_unaborted (by rw [onto_isAborted, hopen])
    · exact .refl _
  have hself : (e.commit g node l wires).Kin n f g :=
    (h.kin_iff (fun k hk => (hold k hk).parent) hlt).2 hg
  have hnew {k : Nat} (hk : e.fibers.size ≤ k) (hk' : k < (e.commit g node l wires).fibers.size) :
      (e.commit g node l wires).fiber k ∈ offshoots g (e.fiber g) node wires := by
    rw [fiber_commit hlt, if_neg (by omega)]
    have hoff : k - e.fibers.size < (offshoots g (e.fiber g) node wires).length := by
      rw [length_offshoots]
      omega
    rw [List.getElem?_eq_getElem hoff]
    exact List.getElem_mem hoff
  have hin {k p : Nat} (hp : ((e.commit g node l wires).fiber k).parent = some p) :
      k < (e.commit g node l wires).fibers.size := by
    apply Decidable.byContradiction
    intro hout
    rw [fiber_out (Nat.not_lt.1 hout)] at hp
    cases hp
  refine h.grow (by omega) hold (fun k p hk hp => ?_) (fun k hk hkin => ?_)
    ⟨List.range' e.fibers.size (branches wires).length, [], ?_, fun k hk => ?_, fun k hk => absurd hk List.not_mem_nil⟩
  · rw [(fresh_of_mem_offshoots (hnew hk (hin hp))).parent] at hp
    cases hp
    omega
  · cases hkin with
    | self => exact absurd h.inside (by omega)
    | child _ hp _ =>
      have hmem := hnew hk (hin hp)
      exact ⟨(heir_of_mem_offshoots hmem).2.2.trans (h.written g hg),
        Fiber.unburdened_of_unaborted (fresh_of_mem_offshoots hmem).isAborted⟩
  · rw [heq, if_pos hc, List.append_nil]
  · obtain ⟨hle, hk⟩ := List.mem_range'_1.1 hk
    exact .child (Nat.le_trans h.size hle) (fresh_of_mem_offshoots (hnew hle (by omega))).parent hself

/-- The head of the queue is taken off it. -/
theorem take (h : Household n f e) {others : List Nat} (hq : e.queue = g :: others) :
    Household n f { e with queue := others, current := some g } := by
  have hkin {k : Nat} : ({ e with queue := others, current := some g } : Engine).Kin n f k ↔ e.Kin n f k :=
    ⟨fun hk => hk.congr rfl, fun hk => hk.congr rfl⟩
  refine ⟨h.old, h.size, h.parent, ?_, fun k hk => h.written k (hkin.1 hk), fun k hk => h.unburdened k (hkin.1 hk),
    h.settled, h.begun⟩
  obtain ⟨front, rest, heq, hfront, hrest⟩ := h.queue
  rw [hq] at heq
  cases front with
  | nil =>
    cases heq
    exact ⟨[], others, rfl, fun k hk => absurd hk List.not_mem_nil,
      fun k hk => ⟨(hrest k (List.mem_cons_of_mem _ hk)).1, fun hk' => (hrest k (List.mem_cons_of_mem _ hk)).2 (hkin.1 hk')⟩⟩
  | cons _ front =>
    cases heq
    exact ⟨front, rest, rfl, fun k hk => hkin.2 (hfront k (List.mem_cons_of_mem _ hk)),
      fun k hk => ⟨(hrest k hk).1, fun hk' => (hrest k hk).2 (hkin.1 hk')⟩⟩

/-- Kin other than the fiber itself tells a parent that is kin. -/
theorem finish (h : Household n f e) (hg : e.Kin n f g) (hne : g ≠ f) : Household n f (e.finish g) := by
  cases hopen : (e.fiber g).finished with
  | true =>
    rw [finish_eq_self hopen]
    exact h
  | false =>
    have hov := finishing_finish (h.lt_size hg) hopen (h.parent g)
    refine h.change hov.size (fun k => ?_) ?_
    · by_cases hk : k = g
      · rw [hk, hov.self]
        exact ⟨rfl, id, fun _ => rfl, fun hu ha => hu ha, fun hb => by cases hb.finished⟩
      · by_cases hp : (e.fiber g).parent = some k
        · rw [hov.parent k hp]
          refine ⟨rfl, id, id, fun hu ha => ?_, fun hb => ⟨hb.parent, hb.next, hb.listeners, hb.steps, hb.finished⟩⟩
          show _ - 1 = 0
          rw [hu ha]
        · rw [hov.other k hk hp]
          exact .refl _
    · rcases hov.queue with hq | ⟨p, hp, hq⟩
      · exact ⟨[], hq, fun k hk => absurd hk List.not_mem_nil⟩
      · refine ⟨[p], hq, fun k hk => ?_⟩
        rw [List.mem_singleton.1 hk]
        cases hg with
        | self => exact absurd rfl hne
        | child _ hp' hkin =>
          rw [hp] at hp'
          cases hp'
          exact hkin

/-- Kin other than the fiber itself that fails before it has split is over. -/
theorem abort (h : Household n f e) (hg : e.Kin n f g) (hne : g ≠ f) (hpending : (e.fiber g).pending = 0) :
    Household n f (e.abort g) := by
  obtain ⟨p, hp⟩ : ∃ p, (e.fiber g).parent = some p := by
    cases hg with
    | self => exact absurd rfl hne
    | child _ hp _ => exact ⟨_, hp⟩
  have haltered : Household n f (e.modifyFiber g fun f => { f with isAborted := true, next := none, listeners := [] }) :=
    h.alter ⟨rfl, id, id, fun _ _ => hpending, fun hb => by cases hp.symm.trans hb.parent⟩
  refine haltered.finish ((h.kin_iff (fun k _ => ?_) (h.lt_size hg)).2 hg) hne
  rw [fiber_modifyFiber]
  split <;> rfl

end Household

/-- The kin of the fiber are in front, and the fiber at work, if there is one, is one of them and has not failed. -/
structure AtHome (n f : Nat) (p : Option Nat) (e : Engine) : Prop where
  household : Household n f e
  current : e.current = p
  atWork : ∀ g, p = some g → e.Kin n f g
  unaborted : ∀ g, p = some g → (e.fiber g).isAborted = false

namespace AtHome

variable {n f : Nat} {p : Option Nat} {e e' : Engine}

/-- The fiber at work stays one of the kin as long as no fiber changes its parent. -/
theorem of_household (h : AtHome n f p e) (hh : Household n f e') (hc : e'.current = e.current)
    (hold : ∀ k, k < e.fibers.size → (e'.fiber k).parent = (e.fiber k).parent ∧
      (e'.fiber k).isAborted = (e.fiber k).isAborted) : AtHome n f p e' := by
  have hinside (g : Nat) (hg : p = some g) := h.household.lt_size (h.atWork g hg)
  exact ⟨hh, hc.trans h.current, fun g hg => (h.household.kin_iff (fun k hk => (hold k hk).1) (hinside g hg)).2 (h.atWork g hg),
    fun g hg => (hold g (hinside g hg)).2.trans (h.unaborted g hg)⟩

theorem growing (n f : Nat) (p : Option Nat) : Growing (AtHome n f p) where
  congr h hf hq hc _ := h.of_household (h.household.congr hf hq) hc fun k _ => by rw [fiber_congr hf]; exact ⟨rfl, rfl⟩
  enter h he := h.of_household (h.household.enter he) he.current fun k hk => by rw [he.fiber_old hk]; exact ⟨rfl, rfl⟩
  current h hc := Nat.lt_irrefl _ (h.household.lt_size (h.atWork _ (h.current.symm.trans hc)))

/-- Kin stay in front of the queue whatever is done while one of them is at work. -/
theorem working (i n f g : Nat) : Working i g (AtHome n f (some g)) where
  growing := growing n f (some g)
  commit {e} h _ node l _ wires := by
    have hg := h.household.lt_size (h.atWork g rfl)
    refine h.of_household (h.household.commit h.current (h.atWork g rfl) (h.unaborted g rfl) node l wires)
      (by rw [commit_eq hg]) fun k hk => ?_
    rw [fiber_commit hg, if_pos hk]
    split
    · exact ⟨onto_parent .., onto_isAborted ..⟩
    · exact ⟨rfl, rfl⟩
  stop {e} h := by
    refine h.of_household (h.household.alter ?_) rfl fun k _ => ?_
    · exact ⟨rfl, id, id, id, fun hb => ⟨hb.parent, hb.next, hb.listeners, hb.steps, hb.finished⟩⟩
    · rw [fiber_modifyFiber]
      split <;> exact ⟨rfl, rfl⟩

end AtHome

namespace Accounted

variable {n f k : Nat} {e : Engine}

/-- Where the count of open children is zero, every child is over. -/
theorem finished_of_openKids (h : e.openKids f = 0) (hp : (e.fiber k).parent = some f) : (e.fiber k).finished = true := by
  by_cases hk : k < e.fibers.size
  · have hnone := List.countP_eq_zero.1 h _ (List.mem_of_getElem? (toList_fiber hk))
    simpa [hp] using hnone
  · rw [fiber_out (Nat.not_lt.1 hk)] at hp
    cases hp

/-- A fiber that waits for nobody has no kin that is not over. -/
theorem finished_of_kin (h : e.Accounted) (hh : Household n f e) (hpending : (e.fiber f).pending = 0) (hk : e.Kin n f k)
    (hne : k ≠ f) : (e.fiber k).finished = true := by
  induction hk with
  | self => exact absurd rfl hne
  | @child k p _ hp hkin ih =>
    refine finished_of_openKids (f := p) ?_ hp
    rw [← (h.tallied p).pending]
    by_cases hpf : p = f
    · rw [hpf, hpending]
    · cases ha : (e.fiber p).isAborted with
      | true => exact hh.unburdened p hkin ha
      | false => exact (h.tallied p).settled (ih hpf) ha

/-- As long as one of the kin is not over, one of them stands in the queue. -/
theorem exists_kin_queued (h : e.Accounted) (hh : Household n f e) (hrest : e.current = none) (hopen : e.isDisposed = false)
    (hk : e.Kin n f k) (hunfinished : (e.fiber k).finished = false) : ∃ j ∈ e.queue, e.Kin n f j := by
  -- Who waits waits for a child, which came in later.
  induction hs : e.fibers.size - k using Nat.strongRecOn generalizing k with
  | _ s ih =>
    have hlt := hh.lt_size hk
    by_cases hpending : (e.fiber k).pending = 0
    · rcases (h.tallied k).present hopen hlt hunfinished hpending with hq | hc | hd
      · exact ⟨k, hq, hk⟩
      · rw [hrest] at hc
        cases hc
      · cases hk with
        | self => exact absurd hd.blank hh.begun
        | child _ hp _ =>
          rw [hd.blank.parent] at hp
          cases hp
    · obtain ⟨x, hx, hopenKid⟩ : ∃ x ∈ e.fibers.toList, (x.parent = some k && !x.finished) = true := by
        rw [(h.tallied k).pending] at hpending
        exact List.countP_pos_iff.1 (Nat.pos_of_ne_zero hpending)
      obtain ⟨j, hj, rfl⟩ := List.mem_iff_getElem.1 hx
      have hj' : j < e.fibers.size := by simpa using hj
      have hfiber : e.fibers.toList[j] = e.fiber j := by simp [fiber, hj']
      simp only [hfiber, Bool.and_eq_true, decide_eq_true_eq, Bool.not_eq_true'] at hopenKid
      obtain ⟨hp, hunfinished'⟩ := hopenKid
      have hkj := hh.parent j k hp
      have hnew : n ≤ j := by
        cases hk with
        | self =>
          apply Decidable.byContradiction
          intro hold
          rw [hh.settled j (Nat.not_le.1 hold) hp] at hunfinished'
          cases hunfinished'
        | child hle _ _ => omega
      exact ih (e.fibers.size - j) (by omega) (.child hnew hp hk) hunfinished' rfl

/-- Until the fiber is over, the next turn is that of one of its kin. -/
theorem kin_head (h : e.Accounted) (hh : Household n f e) (hrest : e.current = none) (hopen : e.isDisposed = false)
    (hunfinished : (e.fiber f).finished = false) {g : Nat} {others : List Nat} (hq : e.queue = g :: others) : e.Kin n f g := by
  obtain ⟨front, rest, heq, hfront, hout⟩ := hh.queue
  cases front with
  | nil =>
    obtain ⟨j, hj, hkin⟩ := h.exists_kin_queued hh hrest hopen .self hunfinished
    rw [heq] at hj
    exact absurd hkin (hout j hj).2
  | cons _ front =>
    rw [hq] at heq
    cases heq
    exact hfront g List.mem_cons_self

end Accounted

end Engine

end FlowGraph
