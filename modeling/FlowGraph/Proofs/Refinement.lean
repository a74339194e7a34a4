import FlowGraph.Proofs.QueueTurn
import FlowGraph.Proofs.Resting

/-!
The queue keeps to the structured order. Main statement: if the structured run of some triggers comes to
an end, then draining the queue makes the same calls in the same order and ends in a world that differs
only in the engine's order of business.
-/
namespace FlowGraph

open World Play Engine

/-- The runs of the paths with this much fuel keep to the queue. -/
def PathsKept (i fuel : Nat) : Prop :=
  ∀ f others w r c, Ready i f others w → Alike i w r → Structured.path i fuel f r = some c →
    Realises i w c fun v => Between i v ∧ Over f others (w.engine i) (v.engine i)

section Paths

variable {i f fuel : Nat} {ks others : List Nat} {w r : World} {c : Course}

/-- The first of the children that a fiber waits for is ready. -/
theorem Parted.ready {k : Nat} (h : Parted i f (k :: ks) others w) : Ready i k (ks ++ others) w := by
  have hfresh := h.fresh k List.mem_cons_self
  refine ⟨h.between, h.queue, h.inside k List.mem_cons_self, hfresh.pending, hfresh.finished, hfresh.isAborted, ?_, ?_⟩
  · rw [hfresh.listeners]
    exact fun l hl => absurd hl List.not_mem_nil
  · intro p hp
    rw [hfresh.parent] at hp
    cases hp
    refine ⟨h.fiber, ?_, h.isAborted, ?_⟩
    · rintro rfl
      exact h.apart List.mem_cons_self
    · rw [h.pending, List.length_cons]
      omega

/-- The first of the children is over: the fiber is resumed, or waits for the others. -/
theorem Parted.advance {k : Nat} {v : World} (h : Parted i f (k :: ks) others w) (hb : Between i v)
    (ho : Over k (ks ++ others) (w.engine i) (v.engine i)) :
    (ks = [] → Ready i f (others ++ (v.engine i).groups (w.engine i).fibers.size) v) ∧
      (ks ≠ [] → Parted i f ks (others ++ (v.engine i).groups (w.engine i).fibers.size) v) := by
  have hparent : ((w.engine i).fiber k).parent = some f := (h.fresh k List.mem_cons_self).parent
  have hself := ho.parent f hparent
  have hkept := ho.stretch.kept
  have hpending : ((v.engine i).fiber f).pending = ks.length := by
    rw [hself, Fiber.relieved, h.pending]
    rfl
  have hfinished : ((v.engine i).fiber f).finished = false := by rw [hself]; exact h.finished
  have hopen : ((v.engine i).fiber f).isAborted = false := by rw [hself]; exact h.isAborted
  have hfits : ∀ l ∈ ((v.engine i).fiber f).listeners, l.2.Fits i f := by rw [hself]; exact h.fits
  have hheld : (v.engine i).Held f := by
    refine h.held.of_kept hkept h.fiber fun p hp => ?_
    rintro (rfl | hp')
    · exact h.above p hp List.mem_cons_self
    · rw [hparent] at hp'
      cases hp'
      exact (h.held f hp).2.1 rfl
  have hinside : f < (v.engine i).fibers.size := Nat.lt_of_lt_of_le h.fiber hkept.size
  have hqueue := ho.queue
  simp only [release, hparent, h.pending, List.length_cons] at hqueue
  constructor
  · rintro rfl
    exact ⟨hb, by simpa using hqueue, hinside, hpending, hfinished, hopen, hfits, hheld⟩
  · intro hks
    have hlen : ks.length ≠ 0 := fun hlen => hks (List.length_eq_zero_iff.1 hlen)
    have hnodup := List.nodup_cons.1 h.nodup
    have hmem {j : Nat} (hj : j ∈ ks) : j ∈ k :: ks := List.mem_cons_of_mem k hj
    refine ⟨hb, by simpa [hlen] using hqueue, hinside, ?_, ?_, hnodup.2, fun hf => h.apart (hmem hf), hpending,
      hfinished, hopen, hfits, hheld, ?_⟩
    · intro j hj
      exact Nat.lt_of_lt_of_le (h.inside j (hmem hj)) hkept.size
    · intro j hj
      rw [hkept.old j (h.inside j (hmem hj))]
      · exact h.fresh j (hmem hj)
      · rintro (rfl | hj')
        · exact hnodup.1 hj
        · rw [hparent] at hj'
          cases hj'
          exact h.apart (hmem hj)
    · intro p hp hpk
      rw [hkept.parent f h.fiber] at hp
      exact h.above p hp (hmem hpk)

/-- The children run one after the other, then the fiber is resumed. -/
theorem realises_sequence (hpaths : PathsKept i fuel) (h : Parted i f ks others w) (hks : ks ≠ []) (hal : Alike i w r)
    (hc : Structured.sequence (Structured.path i fuel) ks r = some c) :
    Realises i w c fun v => Ready i f (others ++ (v.engine i).groups (w.engine i).fibers.size) v ∧
      Stretch (fun k => k = f ∨ k ∈ ks) (w.engine i) (v.engine i) := by
  induction ks generalizing others w r c with
  | nil => exact absurd rfl hks
  | cons k ks ih =>
    refine Realises.andThen hc (fun c' hc' => hpaths k _ w r c' h.ready hal hc') ?_
    rintro v s c' ⟨hb, hover⟩ hal' hc'
    obtain ⟨hlast, hmore⟩ := h.advance hb hover
    have hparent : ((w.engine i).fiber k).parent = some f := (h.fresh k List.mem_cons_self).parent
    have hstretch : Stretch (fun k' => k' = f ∨ k' ∈ k :: ks) (w.engine i) (v.engine i) := by
      refine ⟨hover.stretch.kept.mono fun j _ hj => ?_, hover.stretch.waiting⟩
      rcases hj with rfl | hj
      · exact .inr List.mem_cons_self
      · rw [hparent] at hj
        cases hj
        exact .inl rfl
    by_cases hnil : ks = []
    · subst hnil
      cases hc'
      exact Realises.done hal' ⟨hlast rfl, hstretch⟩
    · refine (ih (hmore hnil) hnil hal' hc').imp ?_
      rintro u ⟨hready, hstretch'⟩
      have hbelow : Stretch.Below (fun k' => k' = f ∨ k' ∈ k :: ks) (fun k' => k' = f ∨ k' ∈ ks) (w.engine i)
          (v.engine i) := by
        intro j hj
        have hj' : j = f ∨ j ∈ k :: ks := hj.imp id (List.mem_cons_of_mem k)
        have hlt : j < (w.engine i).fibers.size := by
          rcases hj' with rfl | hj'
          · exact h.fiber
          · exact h.inside j hj'
        exact ⟨fun _ => hj', fun hle => by omega⟩
      rw [List.append_assoc, ← hstretch.groups hstretch' hbelow] at hready
      exact ⟨hready, hstretch.trans hstretch' hbelow⟩

/-- A fiber without calls to make leaves the queue in silence. -/
theorem realises_idle (h : Ready i f others w) (hal : Alike i w r) (hact : ((w.engine i).fiber f).act? = none) :
    Realises i w ⟨[], r, none⟩ fun v => Between i v ∧ Over f others (w.engine i) (v.engine i) := by
  have hready : ((w.engine i).fiber f).isReady = false := by
    rw [Fiber.isReady_of_idle h.pending h.isAborted, hact]
    rfl
  have hover : ((w.engine i).fiber f).isComplete = true := by
    rw [Fiber.isComplete_of_idle h.pending h.isAborted, hact]
    rfl
  have hpop : pop i f others w = (unqueued i others w).modifyEngine i (·.finish f) := by
    rw [pop, if_pos hover]
    rfl
  have hunqueued : Between i (unqueued i others w) :=
    h.between.toSound.between (fun _ => rfl) (fun _ => rfl) (fun _ => rfl) h.between.current
  have he : (pop i f others w).engine i = { w.engine i with queue := others }.finish f := by
    rw [hpop, engine_modifyEngine_self hunqueued.inside, unqueued, engine_modifyEngine_self h.between.inside]
  refine ⟨pop i f others w, .of_settle (settle_idle h.between.inbox h.queue hready), ?_, ?_, ?_⟩
  · rw [hpop]
    exact (hal.unqueued others).arrange fun e => core_finish e f
  · rw [hpop]
    exact hunqueued.toSound.between (fun e => by rw [finish_frame]) (fun e => by rw [finish_frame])
      (fun e => by rw [finish_frame]) (by rw [finish_frame]; exact hunqueued.current)
  · rw [he]
    have hstretch : Stretch (· = f) (w.engine i) { w.engine i with queue := others } :=
      (Stretch.of_size (Kept.refl _ (w.engine i)) rfl).congr rfl rfl
    refine Over.of_finish hstretch h.fiber ?_ h.finished h.held
    rw [Stretch.groups_of_size rfl, List.append_nil]

theorem path_idle (hact : ((w.engine i).fiber f).act? = none) (hc : Structured.path i fuel f w = some c) :
    c = ⟨[], w, none⟩ := by
  cases fuel with
  | zero => cases hc
  | succ fuel =>
    rw [Structured.path, hact] at hc
    exact (Option.some.inj hc).symm

/-- A fiber whose call is done goes on, after its children. -/
theorem realises_rest (hpaths : PathsKept i fuel) {a : Engine} {v s : World} (hf : f < a.fibers.size) (hheld : a.Held f)
    (ht : Turned i f others a v) (hal : Alike i v s)
    (hc : Course.andThen (Structured.sequence (Structured.path i fuel) ((v.engine i).kids f a.fibers.size) s)
      (Structured.path i fuel f) = some c) :
    Realises i v c fun u => Between i u ∧ Over f others a (u.engine i) := by
  cases ht with
  | parted stretch split state =>
    refine Realises.andThen hc (fun c' hc' => realises_sequence hpaths state split hal hc') ?_
    rintro u t c' ⟨hready, hstretch⟩ hal' hc'
    have hbelow : Stretch.Below (· = f) (fun k => k = f ∨ k ∈ (v.engine i).kids f a.fibers.size) a (v.engine i) := by
      rintro k (rfl | hk)
      · exact ⟨fun _ => rfl, fun hle => by omega⟩
      · obtain ⟨hle, -, hparent⟩ := mem_kids.1 hk
        exact ⟨fun hlt => by omega, fun _ => ⟨f, hf, hparent⟩⟩
    rw [List.append_assoc, ← stretch.groups hstretch hbelow] at hready
    refine (hpaths f _ u t c' hready hal' hc').imp ?_
    rintro x ⟨hb, hover⟩
    exact ⟨hb, .of_stretch (stretch.trans hstretch hbelow) (fun _ _ h => h) hf hheld hover⟩
  | ready stretch whole state =>
    rw [whole] at hc
    refine Realises.andThen (P := (· = v)) hc (fun c' hc' => by cases hc'; exact .done hal rfl) ?_
    rintro _ t c' rfl hal' hc'
    refine (hpaths f _ _ t c' state hal' hc').imp ?_
    rintro x ⟨hb, hover⟩
    exact ⟨hb, .of_stretch stretch (fun _ _ h => h) hf hheld hover⟩
  | ended whole idle between state =>
    rw [whole] at hc
    refine Realises.andThen (P := (· = v)) hc (fun c' hc' => by cases hc'; exact .done hal rfl) ?_
    rintro _ t c' rfl hal' hc'
    rw [hal'.next_act?] at idle
    rw [path_idle idle hc']
    exact .done hal' ⟨between, state⟩

/-- Paths are kept to, by induction on the fuel. -/
theorem pathsKept (i fuel : Nat) : PathsKept i fuel := by
  induction fuel with
  | zero =>
    intro f others w r c h hal hc
    cases hc
  | succ fuel ih =>
    intro f others w r c h hal hc
    have hact := hal.next_act? i f
    rw [Structured.path] at hc
    split at hc
    · rename_i hnone
      cases hc
      rw [← hact, Option.isNone_iff_eq_none] at hnone
      exact realises_idle h hal hnone
    · rename_i hsome
      rw [← hact, Option.isNone_iff_eq_none] at hsome
      refine Realises.andThen hc (fun c' hc' => realises_make h hal hsome hc') ?_
      intro v s c' hturned hal' hc'
      rw [← hal'.kids, ← hal.size_fibers] at hc'
      exact realises_rest ih h.fiber h.held hturned hal' hc'

end Paths

section Roots

variable {i q fuel : Nat} {others : List Nat} {w r : World} {c : Course}

/-- Whose turn it is while a root runs: the root itself, and the parts into which its trigger split it. -/
def ofRoot (e : Engine) (q k : Nat) : Prop := k = q ∨ (e.fiber k).parent = some q

/-- The root has run to its end; `others` were behind it in the queue. -/
structure Passed (q : Nat) (others : List Nat) (a b : Engine) : Prop where
  stretch : Stretch (ofRoot a q) a b
  queue : b.queue = others ++ b.groups a.fibers.size

/-- A root whose turn it is. -/
structure AtRoot (i q : Nat) (others : List Nat) (w : World) : Prop where
  between : Between i w
  inside : q < (w.engine i).fibers.size
  parent : ((w.engine i).fiber q).parent = none
  waiting : (w.engine i).Waiting q
  queue : (w.engine i).queue = (w.engine i).group q ++ others

theorem AtRoot.held (h : AtRoot i q others w) : (w.engine i).Held q := by
  intro p hp
  rw [h.parent] at hp
  cases hp

theorem AtRoot.fits (h : AtRoot i q others w) : ∀ l ∈ ((w.engine i).fiber q).listeners, l.2.Fits i q :=
  fun l hl => (h.waiting.free l hl).fits i q

theorem passed_of_over {a b c : Engine} (hs : Stretch (ofRoot a q) a b) (hq : q < a.fibers.size)
    (hroot : (a.fiber q).parent = none) (ho : Over q (others ++ b.groups a.fibers.size) b c) :
    Passed q others a c := by
  have hparent : (b.fiber q).parent = none := (hs.kept.parent q hq).trans hroot
  have hbelow : Stretch.Below (ofRoot a q) (fun k => k = q ∨ (b.fiber q).parent = some k) a b := by
    rintro k (rfl | hk)
    · exact ⟨fun _ => .inl rfl, fun hle => by omega⟩
    · rw [hparent] at hk
      cases hk
  refine ⟨hs.trans ho.stretch hbelow, ?_⟩
  rw [ho.queue, hs.groups ho.stretch hbelow, List.append_assoc]
  simp [release, hparent]

/-- A root that its trigger split waits for its parts. -/
theorem AtRoot.parted (h : AtRoot i q others w) {ks : List Nat} (hkids : (w.engine i).kids q (q + 1) = ks)
    (hks : ks ≠ []) : Parted i q ks others w := by
  have hqueue : (w.engine i).queue = ks ++ others := by
    rw [h.queue, group, hkids]
    cases ks with
    | nil => exact absurd rfl hks
    | cons k ks => rfl
  have hnodup := nodup_kids (w.engine i) q (q + 1)
  have hpending := h.waiting.pending
  have hfresh := h.waiting.fresh
  rw [hkids] at hnodup hpending hfresh
  have hmem {k : Nat} (hk : k ∈ ks) := mem_kids.1 (hkids ▸ hk)
  refine ⟨h.between, hqueue, h.inside, fun k hk => (hmem hk).2.1, hfresh, hnodup, ?_, hpending, h.waiting.finished,
    h.waiting.isAborted, h.fits, h.held, ?_⟩
  · intro hq
    have := (hmem hq).1
    omega
  · intro p hp
    rw [h.parent] at hp
    cases hp

/-- A root that its trigger did not split is ready, or has no call to make. -/
theorem AtRoot.ready (h : AtRoot i q others w) (hkids : (w.engine i).kids q (q + 1) = []) :
    (((w.engine i).fiber q).act? = none ∧ (w.engine i).queue = others) ∨ Ready i q others w := by
  have hpending := h.waiting.pending
  have hqueue := h.queue
  rw [hkids, List.length_nil] at hpending
  simp only [group, hkids, Fiber.isComplete_of_idle hpending h.waiting.isAborted] at hqueue
  cases hact : ((w.engine i).fiber q).act? with
  | none =>
    left
    simpa [hact] using hqueue
  | some act =>
    right
    rw [hact] at hqueue
    exact ⟨h.between, hqueue, h.inside, hpending, h.waiting.finished, h.waiting.isAborted, h.fits, h.held⟩

/-- A root runs to its end before anything behind it. -/
theorem realises_root (h : AtRoot i q others w) (hal : Alike i w r) (hc : Structured.root i fuel q r = some c) :
    Realises i w c fun v => Between i v ∧ Passed q others (w.engine i) (v.engine i) := by
  have hrefl : Stretch (ofRoot (w.engine i) q) (w.engine i) (w.engine i) := .of_size (Kept.refl _ _) rfl
  have hnone : (w.engine i).groups (w.engine i).fibers.size = [] := Stretch.groups_of_size rfl
  rw [Structured.root, ← hal.kids] at hc
  by_cases hkids : (w.engine i).kids q (q + 1) = []
  · rw [hkids] at hc
    refine Realises.andThen (P := (· = w)) hc (fun c' hc' => by cases hc'; exact .done hal rfl) ?_
    rintro _ s c' rfl hal' hc'
    rcases h.ready hkids with ⟨hact, hqueue⟩ | hready
    · rw [hal'.next_act?] at hact
      rw [path_idle hact hc']
      exact .done hal' ⟨h.between, hrefl, by rw [hqueue, hnone, List.append_nil]⟩
    · refine (pathsKept i fuel q others _ s c' hready hal' hc').imp ?_
      rintro v ⟨hb, hover⟩
      refine ⟨hb, passed_of_over hrefl h.inside h.parent ?_⟩
      rw [hnone, List.append_nil]
      exact hover
  · have hparted := h.parted rfl hkids
    refine Realises.andThen hc (fun c' hc' => realises_sequence (pathsKept i fuel) hparted hkids hal hc') ?_
    rintro v s c' ⟨hready, hstretch⟩ hal' hc'
    have hstretch' : Stretch (ofRoot (w.engine i) q) (w.engine i) (v.engine i) :=
      ⟨hstretch.kept.mono fun k _ hk => hk.imp id fun hk => (mem_kids.1 hk).2.2, hstretch.waiting⟩
    refine (pathsKept i fuel q _ v s c' hready hal' hc').imp ?_
    rintro u ⟨hb, hover⟩
    exact ⟨hb, passed_of_over hstretch' h.inside h.parent hover⟩

/-- The roots from a place of the arena on stand in the queue, in order, and nothing else does. -/
structure Lined (i q : Nat) (w : World) : Prop where
  between : Between i w
  queue : (w.engine i).queue = (w.engine i).groups q
  waiting : ∀ k ∈ (w.engine i).roots q, (w.engine i).Waiting k

theorem Engine.roots_succ {e : Engine} (hq : q < e.fibers.size) :
    e.roots q = if (e.fiber q).parent = none then q :: e.roots (q + 1) else e.roots (q + 1) := by
  have hlen : e.fibers.size - q = (e.fibers.size - (q + 1)) + 1 := by omega
  rw [Engine.roots, hlen, List.range'_succ, List.filter_cons]
  simp only [decide_eq_true_eq]
  rfl

/-- A fiber with a parent does not count as a root. -/
theorem Lined.skip (h : Lined i q w) (hq : q < (w.engine i).fibers.size)
    (hparent : ((w.engine i).fiber q).parent ≠ none) : Lined i (q + 1) w := by
  have hroots : (w.engine i).roots q = (w.engine i).roots (q + 1) := by rw [roots_succ hq, if_neg hparent]
  refine ⟨h.between, ?_, ?_⟩
  · rw [h.queue, groups, groups, hroots]
  · rw [← hroots]
    exact h.waiting

theorem Lined.atRoot (h : Lined i q w) (hq : q < (w.engine i).fibers.size)
    (hparent : ((w.engine i).fiber q).parent = none) : AtRoot i q ((w.engine i).groups (q + 1)) w := by
  have hroots : (w.engine i).roots q = q :: (w.engine i).roots (q + 1) := by rw [roots_succ hq, if_pos hparent]
  refine ⟨h.between, hq, hparent, h.waiting q (by rw [hroots]; exact List.mem_cons_self), ?_⟩
  rw [h.queue, groups, hroots, List.flatMap_cons]
  rfl

/-- After a root has run, the next ones stand in the queue, those that came in meanwhile behind. -/
theorem Lined.next (h : Lined i q w) (hq : q < (w.engine i).fibers.size)
    (hparent : ((w.engine i).fiber q).parent = none) {v : World} (hb : Between i v)
    (hp : Passed q ((w.engine i).groups (q + 1)) (w.engine i) (v.engine i)) : Lined i (q + 1) v := by
  have hkept := hp.stretch.kept
  have hroots : (w.engine i).roots q = q :: (w.engine i).roots (q + 1) := by rw [roots_succ hq, if_pos hparent]
  have hnot {k : Nat} (hk : k ∈ (w.engine i).roots (q + 1)) : ¬ ofRoot (w.engine i) q k := by
    obtain ⟨hle, -, hnone⟩ := mem_roots.1 hk
    rintro (rfl | hk')
    · omega
    · rw [hnone] at hk'
      cases hk'
  refine ⟨hb, ?_, ?_⟩
  · rw [hp.queue, hkept.groups_append hq fun k hk => hnot hk]
  · intro k hk
    rw [hkept.roots_append hq, List.mem_append] at hk
    rcases hk with hk | hk
    · obtain ⟨hle, hlt, -⟩ := mem_roots.1 hk
      refine hkept.waiting hlt (hnot hk) ?_ (h.waiting k (by rw [hroots]; exact List.mem_cons_of_mem q hk))
      intro j hj
      obtain ⟨hle', -, hj'⟩ := mem_kids.1 hj
      rintro (rfl | hj'')
      · omega
      · rw [hj'] at hj''
        cases hj''
        omega
    · exact hp.stretch.waiting k hk

/-- Roots run one after the other in the order of the arena. -/
theorem realises_roots (h : Lined i q w) (hal : Alike i w r) (hc : Structured.roots i fuel q r = some c) :
    Realises i w c fun v => Between i v ∧ (v.engine i).queue = [] := by
  induction fuel generalizing q w r c with
  | zero => cases hc
  | succ fuel ih =>
    have hparent : ((w.engine i).fiber q).parent = ((r.engine i).fiber q).parent :=
      (congrArg Fiber.parent (hal.core_fiber i q) :)
    rw [Structured.roots, ← hal.size_fibers, ← hparent] at hc
    split at hc
    · rename_i hle
      cases hc
      refine .done hal ⟨h.between, ?_⟩
      have hlen : (w.engine i).fibers.size - q = 0 := by omega
      simp [h.queue, groups, roots, hlen]
    · rename_i hlt
      have hq : q < (w.engine i).fibers.size := by omega
      split at hc
      · rename_i hsome
        exact ih (h.skip hq (Option.isSome_iff_ne_none.1 hsome)) hal hc
      · rename_i hnone
        have hnone : ((w.engine i).fiber q).parent = none := by simpa using hnone
        refine Realises.andThen hc (fun c' hc' => realises_root (h.atRoot hq hnone) hal hc') ?_
        rintro v s c' ⟨hb, hpassed⟩ hal' hc'
        exact ih (h.next hq hnone hb hpassed) hal' hc'

end Roots

section Main

variable {i q fuel : Nat} {w : World} {c : Course}

theorem Rested.lined (h : Rested i q w) : Lined i q w := by
  have he := h.engine
  exact ⟨⟨⟨h.steady.inside, h.alive, he.inbox, h.steady.nodes, h.steady.operations⟩, he.current⟩, he.queue, he.waiting⟩

theorem Between.rested (h : Between i w) (hq : (w.engine i).queue = []) :
    Rested i (w.engine i).fibers.size w := by
  have hroots : (w.engine i).roots (w.engine i).fibers.size = [] := by simp [Engine.roots]
  refine ⟨⟨h.inside, .inr ⟨h.current, h.inbox, Nat.le_refl _, ?_, ?_⟩, h.nodes, h.operations⟩, h.alive⟩
  · rw [hq, Engine.groups, hroots]
    rfl
  · intro k hk
    rw [hroots] at hk
    cases hk

/-- A run is a drain, where no other thread has posted anything. -/
theorem runOn_run (h : Rested i q w) (maxSteps : Option Int) (maxSeconds : Option Double) :
    (run i maxSteps maxSeconds).runOn w =
      (history i (budget (w.engine i).settings maxSteps maxSeconds) 0 w).2 := by
  rw [history_snd, run, runOn_bind, runOn_modify, drainInbox_eq h.engine.inbox]
  rfl

/-- The queue keeps to the structured order: if the structured run of the roots that wait, with those that the
host has triggered last, comes to an end, then every run with enough steps makes the same calls in the same
order. It ends as the structured run does, in a like world, where the engine rests. -/
theorem run_keeps_order {ts : List Trigger} (h : Rested i q w) (hts : ∀ t ∈ ts, t.Free)
    (hc : Structured.roots i fuel q (w.fire i ts) = some c) :
    ∃ n, ∀ maxSteps maxSeconds, n ≤ budget ((w.fire i ts).engine i).settings maxSteps maxSeconds →
      (history i (budget ((w.fire i ts).engine i).settings maxSteps maxSeconds) 0 (w.fire i ts)).1 = c.acts ∧
        ∃ v, Alike i v c.world ∧ match c.escaped with
          | none => (∃ steps, (run i maxSteps maxSeconds).runOn (w.fire i ts) = (.ok steps, v)) ∧
              Rested i (v.engine i).fibers.size v
          | some e => (run i maxSteps maxSeconds).runOn (w.fire i ts) = (.error e, v) := by
  have hfired := h.fire hts
  have hreal := realises_roots hfired.lined (.refl i _) hc
  rw [Realises] at hreal
  cases hescaped : c.escaped with
  | none =>
    rw [hescaped] at hreal
    obtain ⟨v, ⟨k, hk⟩, hal, hb, hqueue⟩ := hreal
    refine ⟨k + 1, fun maxSteps maxSeconds hn => ?_⟩
    obtain ⟨m, hm⟩ := Nat.exists_eq_add_of_le hn
    have hbudget : budget ((w.fire i ts).engine i).settings maxSteps maxSeconds = k + m + 1 := by omega
    rw [runOn_run hfired, hbudget, hk m 0, history_idle hqueue]
    exact ⟨by simp, v, hal, ⟨0 + k, rfl⟩, hb.rested hqueue⟩
  | some e =>
    rw [hescaped] at hreal
    obtain ⟨v, ⟨k, hk⟩, hal⟩ := hreal
    refine ⟨k + 1, fun maxSteps maxSeconds hn => ?_⟩
    obtain ⟨m, hm⟩ := Nat.exists_eq_add_of_le hn
    have hbudget : budget ((w.fire i ts).engine i).settings maxSteps maxSeconds = k + m + 1 := by omega
    rw [runOn_run hfired, hbudget, hk m 0]
    exact ⟨rfl, v, hal, rfl⟩

end Main

namespace FanOut

def left : Wire := ⟨⟨"start", "exec", "left", "exec"⟩, 0⟩

def right : Wire := ⟨⟨"start", "exec", "right", "exec"⟩, 1⟩

/-- Two nodes behind one output: the first goes on, the second fails. -/
def graph : Graph where
  arena := #[
    { id := "start", definition := { typeName := "Start", behaviour := .event none }
      outputs := [{ name := "exec", valueType := ValueType.flowName, wires := [left, right] }] },
    { id := "left", definition := { typeName := "Left", behaviour := .flow (some (.script [.commit "exec_out"])) }
      inputs := [{ name := "exec", valueType := ValueType.flowName, wires := [left] }]
      outputs := [{ name := "exec_out", valueType := ValueType.flowName }] },
    { id := "right", definition := { typeName := "Right", behaviour := .flow (some (.script [.raise .value "no"])) }
      inputs := [{ name := "exec", valueType := ValueType.flowName, wires := [right] }] }]
  ids := ⟨[("start", 0), ("left", 1), ("right", 2)]⟩
  wires := [left, right]
  ends := #[some ⟨⟨0, 0⟩, ⟨1, 0⟩⟩, some ⟨⟨0, 0⟩, ⟨2, 0⟩⟩]

def world : World where
  graphs := #[graph]
  engines := #[{ nodes := [⟨0, 0⟩, ⟨0, 1⟩, ⟨0, 2⟩] }]

def triggers : List Trigger := [{ node := ⟨0, 0⟩, output := "exec", listener := some (.host "done" none) }]

theorem rested_world : Rested 0 0 world := by
  refine ⟨⟨by decide, .inr ⟨rfl, rfl, Nat.zero_le _, rfl, ?_⟩, ?_, ?_⟩, rfl⟩
  · intro k hk
    exact absurd hk List.not_mem_nil
  · intro p hp
    exact absurd hp List.not_mem_nil
  · intro j op hop
    have hnone : (world.engine j).operations = #[] := by
      cases j with
      | zero => rfl
      | succ j => rfl
    rw [hnone] at hop
    exact absurd hop (Array.not_mem_empty op)

theorem free_triggers : ∀ t ∈ triggers, t.Free := by
  intro t ht l hl c hc
  rw [List.mem_singleton.1 ht] at hl
  cases hl
  cases hc

end FanOut

open FanOut in
/-- Both parts run before the listener, although the second fails. -/
theorem run_keeps_order_fanOut : ∃ n, ∀ maxSteps maxSeconds,
    n ≤ budget ((world.fire 0 triggers).engine 0).settings maxSteps maxSeconds →
      (history 0 (budget ((world.fire 0 triggers).engine 0).settings maxSteps maxSeconds) 0
        (world.fire 0 triggers)).1 =
          [.trigger ⟨0, left⟩, .trigger ⟨0, right⟩, .listener (some ⟨0, 0⟩) (.host "done" none)] := by
  have hsome : (Structured.roots 0 9 0 (world.fire 0 triggers)).isSome = true := by decide
  obtain ⟨n, hn⟩ := run_keeps_order rested_world free_triggers (Option.some_get hsome).symm
  exact ⟨n, fun maxSteps maxSeconds h => (hn maxSteps maxSeconds h).1⟩

end FlowGraph
