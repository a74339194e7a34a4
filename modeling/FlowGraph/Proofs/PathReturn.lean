import FlowGraph.Proofs.Counting
import FlowGraph.Proofs.FiberCall
import FlowGraph.Proofs.UndisturbedPath

/-!
How a path goes out and comes back. The fiber that runs it has committed with certain listeners left; `Outing` follows the
queue from there, one iteration after the other, to where the fiber is back at those listeners or is over, and `Wreck` to
where the fiber itself fails.
-/
namespace FlowGraph

open World Play

/-- Who has nothing left to write has written it. -/
theorem World.applyEntry_of_written {w : World} {i g : Nat} (h : ((w.engine i).fiber g).isWritten = true) :
    w.applyEntry i g = (.ok (), w.modifyEngine i (·.modifyFiber g fun f => { f with isWritten := true })) := by
  simp only [World.applyEntry, Fiber.due, h, if_true]

namespace Engine

/-- The fiber is at work, and has not split unless it has committed. -/
structure Undivided (f : Nat) (e : Engine) : Prop where
  current : e.current = some f
  inside : f < e.fibers.size
  pending : (e.fiber f).committed = false → (e.fiber f).pending = 0

/-- Whatever a fiber at work does leaves it undivided. -/
theorem working_undivided (i f : Nat) : Working i f (Undivided f) where
  growing := by
    refine ⟨fun h hf _ hc _ => ⟨hc.trans h.current, hf ▸ h.inside, ?_⟩, fun h he => ⟨he.current.trans h.current, ?_, ?_⟩, ?_⟩
    · rw [fiber_congr hf]
      exact h.pending
    · have := h.inside
      have := he.size
      omega
    · rw [he.fiber_old h.inside]
      exact h.pending
    · intro e h hc
      cases h.current.symm.trans hc
      exact Nat.lt_irrefl _ h.inside
  commit {e} h _ node l _ wires := by
    refine ⟨?_, ?_, fun hc => ?_⟩
    · rw [commit_eq h.inside]
      exact h.current
    · rw [commit_eq h.inside]
      simpa using Nat.lt_of_lt_of_le h.inside (Nat.le_add_right _ _)
    · rw [fiber_commit h.inside, if_pos h.inside, if_pos rfl, onto_committed] at hc
      cases hc
  stop {e} h := by
    refine ⟨h.current, by simpa using h.inside, fun hc => ?_⟩
    rw [fiber_modifyFiber, if_pos ⟨rfl, h.inside⟩] at hc
    cases hc

end Engine

/-- What fails before it has committed has not split. -/
theorem Poised.pending_proceed {i f : Nat} {w : World} (h : Poised i f w) (hidle : ((w.engine i).fiber f).pending = 0)
    (hopen : ((((proceed i f).runOn w).2).engine i).isDisposed = false)
    (hc : ((((proceed i f).runOn w).2.engine i).fiber f).committed = false) :
    ((((proceed i f).runOn w).2.engine i).fiber f).pending = 0 := by
  have hworking := Engine.working_undivided i f
  have hC : Conduct (Upholds (Steady i (Engine.Undivided f))) (·.Admits i (Engine.Undivided f)) := by
    refine (closed_steady hworking.growing fun _ hc => hc).conduct (fun v hv p hp => ?_) (fun v hv j op hop d hd => ?_)
      (fun _ _ x _ _ => ?_) fun _ _ x _ _ _ _ => ?_
    · exact (hv.nodes p hp).within fun _ hc => hc.admits i _
    · exact (hv.operations j op hop d hd).within fun _ hc => hc.admits i _
    · rintro _ _ _ ⟨⟩
    · rintro _ _ _ ⟨⟩
  have hflow (x : NodeRef) (input : String) : (⟨x, .flow i f input⟩ : Context).Admits i (Engine.Undivided f) := by
    rintro _ _ _ ⟨⟩
    exact ⟨rfl, hworking⟩
  have hchanged {g : Fiber → Fiber} (hg : ∀ x : Fiber, (g x).pending = x.pending) :
      Steady i (Engine.Undivided f) (w.modifyEngine i (·.modifyFiber f g)) := by
    refine .of_modifyFiber h ⟨h.current, by simpa using h.fiber, fun _ => ?_⟩
    rw [Engine.fiber_modifyFiber, if_pos ⟨rfl, h.fiber⟩, hg]
    exact hidle
  have hsteady : Steady i (Engine.Undivided f) w := ⟨h.inside, .inr ⟨h.current, h.fiber, fun _ => hidle⟩, h.nodes, h.operations⟩
  have hdone := upholds_proceed (f := f) hC ⟨default, f, "", hflow _ _⟩ hsteady (fun _ => hchanged fun _ => rfl)
    (fun _ => hchanged fun _ => rfl) (fun _ _ _ _ _ _ _ _ input => hflow _ input) fun node l rest _ hl =>
      ⟨hchanged fun _ => rfl, fun c hctx => (h.fits (node, l) (by rw [hl]; exact List.mem_cons_self) c hctx).admits hworking⟩
  rcases hdone.engine with hd | hM
  · rw [hopen] at hd
    cases hd
  · exact hM.pending hc

/-- What is done to an engine is what is done to it as it is. -/
theorem World.modifyEngine_congr {w : World} {i : Nat} {g g' : Engine → Engine} (h : g (w.engine i) = g' (w.engine i)) :
    w.modifyEngine i g = w.modifyEngine i g' := by
  have hsame : w.engines.modify i g = w.engines.modify i g' := by
    apply Array.ext_getElem?
    intro k
    rw [Array.getElem?_modify, Array.getElem?_modify]
    split
    · rename_i hk
      subst hk
      rw [World.engine] at h
      cases hx : w.engines[i]? with
      | none => rfl
      | some e =>
        rw [hx] at h
        exact congrArg some h
    · rfl
  simp only [World.modifyEngine, hsame]

/-- A fiber that has failed is over. -/
theorem Engine.over_abort {e : Engine} {g : Nat} (hg : g < e.fibers.size)
    (hlt : ∀ p, (e.fiber g).parent = some p → p < g) :
    ((e.abort g).fiber g).finished = true ∧ ((e.abort g).fiber g).isAborted = true := by
  have hself := e.fiber_modifyFiber g g fun f => { f with isAborted := true, next := none, listeners := [] }
  rw [if_pos ⟨rfl, hg⟩] at hself
  unfold Engine.abort
  generalize hm : e.modifyFiber g (fun f => { f with isAborted := true, next := none, listeners := [] }) = m at hself ⊢
  cases hopen : (m.fiber g).finished with
  | true =>
    rw [finish_eq_self hopen, hself]
    exact ⟨by rw [← hself, hopen], rfl⟩
  | false =>
    have hsize : g < m.fibers.size := by
      rw [← hm]
      simpa using hg
    rw [(finishing_finish hsize hopen (by rw [hself]; exact hlt)).self, hself]
    exact ⟨rfl, rfl⟩

/-- The end of a fiber is not that of others. -/
theorem Engine.finished_finish_of_ne {e : Engine} {g k : Nat} (hg : g < e.fibers.size)
    (hlt : ∀ p, (e.fiber g).parent = some p → p < g) (hk : k ≠ g) : ((e.finish g).fiber k).finished = (e.fiber k).finished := by
  cases hopen : (e.fiber g).finished with
  | true => rw [finish_eq_self hopen]
  | false =>
    have hov := finishing_finish hg hopen hlt
    by_cases hp : (e.fiber g).parent = some k
    · rw [hov.parent k hp]
    · rw [hov.other k hk hp]

/-- Nor is its failure. -/
theorem Fiber.Stacked.abort {e : Engine} {x : NodeRef} {ls : List (Option NodeRef × Listener)} {g k : Nat}
    (h : (e.fiber k).Stacked x ls) (hg : g < e.fibers.size) (hlt : ∀ p, (e.fiber g).parent = some p → p < g) (hk : k ≠ g) :
    ((e.abort g).fiber k).Stacked x ls := by
  have hfiber (j : Nat) := e.fiber_modifyFiber g j fun f => { f with isAborted := true, next := none, listeners := [] }
  unfold Engine.abort
  generalize hm : e.modifyFiber g (fun f => { f with isAborted := true, next := none, listeners := [] }) = m at hfiber ⊢
  have hsize : g < m.fibers.size := by
    rw [← hm]
    simpa using hg
  have hsame : m.fiber k = e.fiber k := by rw [hfiber, if_neg fun hgk => hk hgk.1.symm]
  rw [← hsame] at h
  refine h.congr (Engine.finished_finish_of_ne hsize ?_ hk) (m.alike_finish g k).listeners
  rw [hfiber, if_pos ⟨rfl, hg⟩]
  exact hlt

namespace Along

variable {s : Seat} {u v w : World} {ls : List (Option NodeRef × Listener)} {outs : List Socket} {p : Option Nat}
  {g : Nat} {others : List Nat}

theorem home (h : Along s u ls outs p w) (hopen : (w.engine s.engine).isDisposed = false) :
    (w.engine s.engine).AtHome s.size s.fiber p := by
  rcases h.steady.engine with hd | hM
  · rw [hopen] at hd
    cases hd
  · exact hM

/-- The engine is in order in another way. -/
theorem of_engine (h : Along s u ls outs p w) {q : Option Nat} {ls' : List (Option NodeRef × Listener)} {e : Engine → Engine}
    (hR : Retained u (working s.engine q) s.Elder (w.modifyEngine s.engine e))
    (hd : (e (w.engine s.engine)).isDisposed = (w.engine s.engine).isDisposed)
    (hM : (w.engine s.engine).AtHome s.size s.fiber p → (e (w.engine s.engine)).AtHome s.size s.fiber q)
    (hl : ((e (w.engine s.engine)).fiber s.fiber).Stacked s.node ls') : Along s u ls' outs q (w.modifyEngine s.engine e) := by
  have hself := engine_modifyEngine_self h.steady.inside e
  refine ⟨hR, h.outlined.frame rfl, ⟨?_, ?_, h.steady.nodes, fun j => (hR.engine j).disposers⟩, ?_, h.outputs⟩
  · simpa using h.steady.inside
  · rw [hself, hd]
    exact h.steady.engine.imp_right hM
  · rw [hself]
    exact hl

/-- The turn is that of one of the kin. -/
theorem kin_head (h : Along s u ls outs none w) (hopen : (w.engine s.engine).isDisposed = false)
    (hq : (w.engine s.engine).queue = g :: others) :
    (w.engine s.engine).Kin s.size s.fiber g :=
  (h.engine s.engine).accounted.kin_head (h.home hopen).household (h.engine s.engine).current hopen h.stacked.unfinished hq

/-- Who stands in the queue has not failed. -/
theorem unaborted_of_queued (h : Along s u ls outs none w) (hq : g ∈ (w.engine s.engine).queue) :
    ((w.engine s.engine).fiber g).isAborted = false := by
  have htallied := (h.engine s.engine).accounted.tallied g
  refine Bool.eq_false_iff.2 fun ha => ?_
  rcases htallied.aborted ha with hf | hc
  · rw [(htallied.queued hq).2.1] at hf
    cases hf
  · cases (h.engine s.engine).current.symm.trans hc

/-- The fiber itself has not failed. -/
theorem unaborted (h : Along s u ls outs p w) (hopen : (w.engine s.engine).isDisposed = false) :
    ((w.engine s.engine).fiber s.fiber).isAborted = false := by
  refine Bool.eq_false_iff.2 fun ha => ?_
  rcases ((h.engine s.engine).accounted.tallied s.fiber).aborted ha with hf | hc
  · rw [h.stacked.unfinished] at hf
    cases hf
  · rw [(h.home hopen).unaborted s.fiber ((h.home hopen).current.symm.trans hc)] at ha
    cases ha

theorem take (h : Along s u ls outs none w) (hopen : (w.engine s.engine).isDisposed = false)
    (hq : (w.engine s.engine).queue = g :: others) :
    Along s u ls outs (some g) (atWork s.engine g others w) := by
  have hR : Retained u (onlyAt s.engine g) s.Elder (atWork s.engine g others w) := h.toRetained.take hq
  have hkin := h.kin_head hopen hq
  rw [atWork, unqueued, modifyEngine_modifyEngine] at hR ⊢
  refine h.of_engine hR rfl (fun hM => ⟨hM.household.take hq, rfl, ?_, ?_⟩) h.stacked
  · rintro k ⟨⟩
    exact hkin.congr rfl
  · rintro k ⟨⟩
    exact h.unaborted_of_queued (by rw [hq]; exact List.mem_cons_self)

/-- The fiber at work changes in what is its own business. -/
theorem alter (h : Along s u ls outs (some g) w) {ls' : List (Option NodeRef × Listener)} {x : Fiber → Fiber}
    (hx : ∀ y : Fiber, y.Goes (x y))
    (hl : ∀ l ∈ (x ((w.engine s.engine).fiber g)).listeners, l ∈ ((w.engine s.engine).fiber g).listeners)
    (hblank : (x ((w.engine s.engine).fiber g)).Blank → ((w.engine s.engine).fiber g).Blank)
    (hstacked : (((w.engine s.engine).modifyFiber g x).fiber s.fiber).Stacked s.node ls') :
    Along s u ls' outs (some g) (w.modifyEngine s.engine (·.modifyFiber g x)) := by
  have hR : Retained u (onlyAt s.engine g) s.Elder w := h.toRetained
  refine h.of_engine (hR.alter hx hl hblank) rfl (fun hM => ?_) hstacked
  have hgoes := hx ((w.engine s.engine).fiber g)
  refine hM.of_household (hM.household.alter ⟨hgoes.parent, ?_, ?_, ?_, hblank⟩) rfl fun k _ => ?_
  · exact fun hw => hgoes.isWritten.trans hw
  · exact fun hf => hgoes.finished.trans hf
  · exact fun hu ha => hgoes.pending.trans (hu (hgoes.isAborted.symm.trans ha))
  · rw [Engine.fiber_modifyFiber]
    split
    · exact ⟨(hx _).parent, (hx _).isAborted⟩
    · exact ⟨rfl, rfl⟩

theorem stacked_modifyFiber (h : Along s u ls outs p w) {x : Fiber → Fiber}
    (hx : g = s.fiber → (x ((w.engine s.engine).fiber s.fiber)).Stacked s.node ls) :
    (((w.engine s.engine).modifyFiber g x).fiber s.fiber).Stacked s.node ls := by
  rw [Engine.fiber_modifyFiber]
  split
  · rename_i hg
    exact hx hg.1
  · exact h.stacked

/-- Nobody among the kin has outputs of a trigger to write. -/
theorem applyEntry (h : Along s u ls outs (some g) w) (hopen : (w.engine s.engine).isDisposed = false) :
    (w.applyEntry s.engine g).1 = .ok () ∧ Along s u ls outs (some g) (w.applyEntry s.engine g).2 ∧
      ((w.applyEntry s.engine g).2.engine s.engine).fiber g = (w.engine s.engine).fiber g := by
  have hhome := h.home hopen
  have hwritten := hhome.household.written g (hhome.atWork g rfl)
  have hsame : { (w.engine s.engine).fiber g with isWritten := true } = (w.engine s.engine).fiber g := by
    rw [← hwritten]
  have hR : Retained u (onlyAt s.engine g) s.Elder (w.applyEntry s.engine g).2 :=
    Retained.applyEntry (show Retained u (onlyAt s.engine g) s.Elder w from h.toRetained)
  rw [applyEntry_of_written hwritten] at hR ⊢
  refine ⟨rfl, h.of_engine hR rfl (fun hM => ?_) ?_, ?_⟩
  · refine hM.of_household (hM.household.alter ?_) rfl fun k _ => ?_
    · exact hsame ▸ .refl _
    · rw [Engine.fiber_modifyFiber]
      split <;> exact ⟨rfl, rfl⟩
  · rw [Engine.fiber_modifyFiber]
    split
    · exact h.stacked.congr rfl rfl
    · exact h.stacked
  · rw [engine_modifyEngine_self h.steady.inside, Engine.fiber_modifyFiber]
    split
    · exact hsame
    · rfl

theorem count (h : Along s u ls outs (some g) w) :
    Along s u ls outs (some g) (w.modifyEngine s.engine fun e => { e with steps := e.steps + 1 }) :=
  h.face s.engine (fun _ => ⟨rfl, rfl, rfl, rfl⟩) (fun _ => id) fun _ => rfl

/-- The fiber at work goes back to the head of the queue. -/
theorem requeue (h : Along s u ls outs (some g) w) (hready : ((w.engine s.engine).fiber g).isReady = true) :
    Along s u ls outs none (w.modifyEngine s.engine fun e => { e with queue := g :: e.queue, current := none }) := by
  refine h.of_engine (Retained.requeue h.toRetained hready) rfl (fun hM => ⟨?_, rfl, nofun, nofun⟩) h.stacked
  refine hM.household.change rfl (fun _ => .refl _) ⟨[g], rfl, fun k hk => ?_⟩
  rw [List.mem_singleton.1 hk]
  exact hM.atWork g rfl

/-- The fiber at work makes room. The first of the kin is not over yet. -/
theorem cede (h : Along s u ls outs (some g) w) (hidle : ((w.engine s.engine).fiber g).isReady = false)
    (hf : g = s.fiber → ((w.engine s.engine).fiber g).isComplete = false) :
    Along s u ls outs none (w.cede s.engine g) := by
  have hR : Retained u atRest s.Elder (w.cede s.engine g) := Retained.cede h.toRetained hidle
  unfold World.cede at hR ⊢
  split at hR
  · rename_i hcomplete
    rw [if_pos hcomplete]
    rw [modifyEngine_modifyEngine] at hR ⊢
    have hne : g ≠ s.fiber := fun heq => by simp [hf heq] at hcomplete
    refine h.of_engine hR ?_ (fun hM => ⟨?_, rfl, nofun, nofun⟩) ?_
    · rw [Engine.finish_frame]
    · exact (hM.household.finish (hM.atWork g rfl) hne).congr rfl rfl
    · refine h.stacked.congr (Engine.finished_finish_of_ne ?_ ((h.engine s.engine).accounted.tallied g).parent hne.symm)
        ((w.engine s.engine).alike_finish g s.fiber).listeners
      have hcurrent : (w.engine s.engine).current = some g := (h.engine s.engine).current.trans (InOrder.onlyAt_self _ g)
      exact (h.engine s.engine).accounted.current_lt hcurrent
  · rename_i hcomplete
    rw [if_neg hcomplete]
    exact h.of_engine hR rfl
      (fun hM => ⟨hM.household.congr rfl rfl, rfl, nofun, nofun⟩) h.stacked

/-- The head of the queue is taken off it and is over. It is not the first of the kin. -/
theorem pop (h : Along s u ls outs none w) (hopen : (w.engine s.engine).isDisposed = false)
    (hq : (w.engine s.engine).queue = g :: others)
    (hidle : ((w.engine s.engine).fiber g).isReady = false) (hne : g ≠ s.fiber) :
    Along s u ls outs none (Play.pop s.engine g others w) := by
  have hR : Retained u atRest s.Elder (Play.pop s.engine g others w) := Retained.pop h.toRetained hq hidle
  have hkin := h.kin_head hopen hq
  have htaken (hM : (w.engine s.engine).AtHome s.size s.fiber none) :
      Engine.Household s.size s.fiber { w.engine s.engine with queue := others } :=
    (hM.household.take hq).congr rfl rfl
  unfold Play.pop at hR ⊢
  split at hR
  · rename_i hcomplete
    rw [if_pos hcomplete]
    rw [modifyEngine_modifyEngine] at hR ⊢
    refine h.of_engine hR ?_
      (fun hM => ⟨(htaken hM).finish (hkin.congr rfl) hne, ?_, nofun, nofun⟩) ?_
    · rw [Engine.finish_frame]
    · rw [Engine.finish_frame]
      exact hM.current
    · refine h.stacked.congr (Engine.finished_finish_of_ne (e := { w.engine s.engine with queue := others }) ?_ ?_ hne.symm)
        (({ w.engine s.engine with queue := others } : Engine).alike_finish g s.fiber).listeners
      · exact (((h.engine s.engine).accounted.tallied g).queued (by rw [hq]; exact List.mem_cons_self)).1
      · exact ((h.engine s.engine).accounted.tallied g).parent
  · rename_i hcomplete
    rw [if_neg hcomplete]
    exact h.of_engine hR rfl (fun hM => ⟨htaken hM, hM.current, nofun, nofun⟩) h.stacked

/-- Above the listeners that were there a fiber has none that speaks for the node; nor has any other of the kin. -/
theorem within_foreign (h : Along s u ls outs (some g) w) (hopen : (w.engine s.engine).isDisposed = false)
    {l : Option NodeRef × Listener} (hl : l ∈ ((w.engine s.engine).fiber g).listeners)
    (hself : g = s.fiber → l.2.Within (·.node ≠ s.node)) : l.2.Within (s.Foreign (some g)) := by
  intro c hc
  have hfits := ((h.engine s.engine).listeners g l hl).2 c hc
  have helder := (h.within s.engine).listeners g l hl c hc
  refine ⟨⟨helder, fun j k input hrole => ?_⟩, fun hnode => ?_⟩
  · obtain ⟨rfl, rfl⟩ := hfits j k input hrole
    exact InOrder.onlyAt_self _ _
  · by_cases hg : g = s.fiber
    · exact hself hg c hc hnode
    · obtain ⟨j, k, input, hrole, hold⟩ := helder hnode
      obtain ⟨rfl, rfl⟩ := hfits j k input hrole
      cases (h.home hopen).atWork k rfl with
      | self => exact hg rfl
      | child hnew _ _ => exact absurd (hold rfl) (Nat.not_lt.2 hnew)

theorem engages (s : Seat) (g : Nat) : Engages (s.Foreign (some g)) s.engine := by
  refine ⟨⟨s.node.graph + 1, s.node.serial⟩, g, "", ⟨?_, InOrder.admitted _ s.engine g ""⟩, ?_⟩
  · exact fun h => absurd (congrArg NodeRef.graph h) (Nat.succ_ne_self _)
  · exact fun h => absurd (congrArg NodeRef.graph h) (Nat.succ_ne_self _)

/-- The fiber at work is about to go on along its wire. -/
theorem depart (h : Along s u ls outs (some g) w) : Along s u ls outs (some g) (w.modifyEngine s.engine (·.modifyFiber g fun f =>
    { f with next := none, steps := f.steps + 1, committed := false })) := by
  refine h.alter ?_ ?_ ?_ (h.stacked_modifyFiber fun _ => h.stacked.congr rfl rfl)
  · exact fun _ => ⟨.inl rfl, rfl, rfl, rfl, rfl, rfl, rfl⟩
  · exact fun _ => id
  · exact fun hb => absurd hb.steps (Nat.succ_ne_zero _)

theorem approach (hs : s.Taken u) (h : Along s u ls outs (some g) w) (y : NodeRef) :
    Along s u ls outs (some g) ((Play.approach s.engine g y).runOn w).2 :=
  upholds_approach (conduct hs ls outs (some g)) y h.depart

/-- The fiber at work is about to run its innermost listener, which is none of those that were there. -/
theorem heed (h : Along s u ls outs (some g) w) {l : Option NodeRef × Listener} {rest : List (Option NodeRef × Listener)}
    (hl : ((w.engine s.engine).fiber g).listeners = l :: rest)
    (hself : g = s.fiber → ((w.engine s.engine).fiber g).listeners ≠ ls) :
    Along s u ls outs (some g) (Play.heed s.engine g rest w) ∧ (g = s.fiber → l.2.Within (·.node ≠ s.node)) := by
  have habove (hg : g = s.fiber) : (∃ above, rest = above ++ ls ∧ ∀ y ∈ above, y.2.Within (·.node ≠ s.node)) ∧
      l.2.Within (·.node ≠ s.node) := by
    have hne := hself hg
    subst hg
    obtain ⟨above, heq, habove⟩ := h.stacked.above
    cases above with
    | nil => exact absurd heq hne
    | cons y above =>
      rw [hl] at heq
      cases heq
      exact ⟨⟨above, rfl, fun y hy => habove y (List.mem_cons_of_mem _ hy)⟩, habove l List.mem_cons_self⟩
  refine ⟨?_, fun hg => (habove hg).2⟩
  refine h.alter ?_ ?_ ?_ (h.stacked_modifyFiber ?_)
  · exact fun _ => ⟨.inr rfl, rfl, rfl, rfl, rfl, rfl, rfl⟩
  · intro y hy
    rw [hl]
    exact List.mem_cons_of_mem _ hy
  · exact fun hb => absurd hb.steps (Nat.succ_ne_zero _)
  · rintro rfl
    exact ⟨h.stacked.unfinished, (habove rfl).1⟩

/-- The fiber at work takes a step that does not run the node, nor a listener that was there. -/
theorem proceed (hs : s.Taken u) (h : Along s u ls outs (some g) w) (hopen : (w.engine s.engine).isDisposed = false)
    (hnode : ∀ route ends, ((w.engine s.engine).fiber g).next = some route →
      (w.graph route.graph).endsOf route.wire = some ends → ⟨route.graph, ends.target.node⟩ ≠ s.node)
    (hself : g = s.fiber → ((w.engine s.engine).fiber g).next = none → ((w.engine s.engine).fiber g).listeners ≠ ls) :
    Along s u ls outs (some g) ((Play.proceed s.engine g).runOn w).2 := by
  refine upholds_proceed (conduct hs ls outs (some g)) (engages s g) h (fun _ => ?_) (fun _ => h.depart) ?_ ?_
  · refine h.alter ?_ ?_ ?_ (h.stacked_modifyFiber fun _ => h.stacked.congr rfl rfl)
    · exact fun _ => ⟨.inl rfl, rfl, rfl, rfl, rfl, rfl, rfl⟩
    · exact fun _ => id
    · exact fun hb => absurd hb.steps (Nat.succ_ne_zero _)
  · intro route ends hnext hends v b _ _ input
    have hne := hnode route ends hnext hends
    exact ⟨⟨fun heq => absurd heq hne, InOrder.admitted _ s.engine g input⟩, hne⟩
  · intro node l rest hnext hl
    obtain ⟨hheeded, hwithin⟩ := h.heed hl fun hg => hself hg hnext
    refine ⟨hheeded, ?_⟩
    exact h.within_foreign hopen (l := (node, l)) (by rw [hl]; exact List.mem_cons_self) hwithin

end Along

/-- The fiber is over, or has the next turn and is back at the listeners. -/
def World.Back (i f : Nat) (ls : List (Option NodeRef × Listener)) (w : World) : Prop :=
  ((w.engine i).fiber f).finished = true ∨
    (w.engine i).queue.head? = some f ∧ ((w.engine i).fiber f).next = none ∧ ((w.engine i).fiber f).listeners = ls

namespace Act

def Triggers (w : World) (x : NodeRef) : Act → Prop
  | .trigger route => ∃ ends, (w.graph route.graph).endsOf route.wire = some ends ∧ ⟨route.graph, ends.target.node⟩ = x
  | .listener _ _ => False

/-- The call is one of the node: it triggers the node, or runs a listener that speaks for it. -/
def IsOf (w : World) (x : NodeRef) : Act → Prop
  | .trigger route => Triggers w x (.trigger route)
  | .listener _ l => ∃ c, l.context? = some c ∧ c.node = x

theorem Triggers.outlined {u w : World} (h : Outlined u w) {x : NodeRef} {a : Act} (ha : a.Triggers u x) : a.Triggers w x := by
  cases a with
  | trigger route =>
    obtain ⟨ends, hends, hx⟩ := ha
    exact ⟨ends, (h.endsOf ..).trans hends, hx⟩
  | listener _ _ => exact ha

theorem IsOf.outlined {u w : World} (h : Outlined u w) {x : NodeRef} {a : Act} (ha : a.IsOf u x) : a.IsOf w x := by
  cases a with
  | trigger route =>
    have htriggers : Triggers u x (.trigger route) := ha
    exact htriggers.outlined h
  | listener _ _ => exact ha

end Act

namespace Play

/-- The world after a turn whose step has come through. -/
def closeTurn (i g : Nat) (r : World) : World := rest (r.modifyEngine i fun e => { e with steps := e.steps + 1 }) i g

/-- The world after a turn whose step has failed. -/
def failed (i g : Nat) (e : Failure) (r : World) : World :=
  rest ((r.report i e).modifyEngine i fun e => { e with steps := e.steps + 1 }.abort g) i g

/-- One iteration of the queue: whoever is at its head makes room if it cannot go on, or has a turn, which does not trigger the
node. Others than the fiber itself may fail as long as they have not committed. -/
inductive Leg (i f : Nat) (x : NodeRef) : World → List Act → World → Prop where
  | pop {w : World} {g : Nat} {others : List Nat} : (w.engine i).queue = g :: others →
      ((w.engine i).fiber g).isReady = false → Leg i f x w [] ((Play.pop i g others w).drainInbox i)
  | turn {w r : World} {g : Nat} {others : List Nat} {a : Act} : (w.engine i).queue = g :: others →
      ((w.engine i).fiber g).isReady = true → ((w.engine i).fiber g).act? = some a → ¬ a.Triggers w x →
      (step i g).runOn (atWork i g others w) = (.ok (), r) → Leg i f x w [a] (closeTurn i g r)
  | fail {w r : World} {g : Nat} {others : List Nat} {a : Act} {e : Failure} : (w.engine i).queue = g :: others →
      ((w.engine i).fiber g).isReady = true → ((w.engine i).fiber g).act? = some a → ¬ a.Triggers w x → g ≠ f →
      (step i g).runOn (atWork i g others w) = (.error e, r) → e.isNode = true →
      ((r.engine i).fiber g).committed = false → Leg i f x w [a] (failed i g e r)

/-- The queue is worked off until the fiber is back at the listeners, or over. Nobody triggers the node on the way, and nobody
disposes of the engine. -/
inductive Outing (i f : Nat) (ls : List (Option NodeRef × Listener)) (x : NodeRef) : World → List Act → World → Prop where
  | back {w : World} : w.Back i f ls → (w.engine i).isDisposed = false → Outing i f ls x w [] w
  | leg {w z v : World} {acts more : List Act} : ¬ w.Back i f ls → (w.engine i).isDisposed = false → Leg i f x w acts z →
      Outing i f ls x z more v → Outing i f ls x w (acts ++ more) v

/-- The queue is worked off until a step of the fiber fails, before it is back at the listeners. -/
inductive Wreck (i f : Nat) (ls : List (Option NodeRef × Listener)) (x : NodeRef) : World → List Act → World → Prop where
  | fail {w r : World} {others : List Nat} {a : Act} {e : Failure} : ¬ w.Back i f ls → (w.engine i).isDisposed = false →
      (w.engine i).queue = f :: others → ((w.engine i).fiber f).isReady = true → ((w.engine i).fiber f).act? = some a →
      ¬ a.Triggers w x → (step i f).runOn (atWork i f others w) = (.error e, r) → e.isNode = true →
      Wreck i f ls x w [a] (failed i f e r)
  | leg {w z v : World} {acts more : List Act} : ¬ w.Back i f ls → (w.engine i).isDisposed = false → Leg i f x w acts z →
      Wreck i f ls x z more v → Wreck i f ls x w (acts ++ more) v

/-- The outing passes a point: between two iterations, where a node or a listener is about to be run, or where that is
done. -/
inductive Passes (i f : Nat) (ls : List (Option NodeRef × Listener)) (x : NodeRef) : World → World → Prop where
  | here (w : World) : Passes i f ls x w w
  | reached {w : World} {g : Nat} {others : List Nat} {route : Route} {ends : Ends} : ¬ w.Back i f ls →
      (w.engine i).queue = g :: others → ((w.engine i).fiber g).isReady = true → ((w.engine i).fiber g).next = some route →
      (w.graph route.graph).endsOf route.wire = some ends →
      Passes i f ls x w ((approach i g ⟨route.graph, ends.target.node⟩).runOn ((atWork i g others w).applyEntry i g).2).2
  | heeded {w : World} {g : Nat} {others : List Nat} {l : Option NodeRef × Listener}
      {rest : List (Option NodeRef × Listener)} : ¬ w.Back i f ls → (w.engine i).queue = g :: others →
      ((w.engine i).fiber g).isReady = true → ((w.engine i).fiber g).next = none →
      ((w.engine i).fiber g).listeners = l :: rest → Passes i f ls x w (heed i g rest ((atWork i g others w).applyEntry i g).2)
  | stepped {w r : World} {g : Nat} {others : List Nat} {a : Act} {out : Except Failure Unit} : ¬ w.Back i f ls →
      (w.engine i).queue = g :: others → ((w.engine i).fiber g).isReady = true → ((w.engine i).fiber g).act? = some a →
      ¬ a.Triggers w x → (step i g).runOn (atWork i g others w) = (out, r) → Passes i f ls x w r
  | leg {w z v : World} {acts : List Act} : ¬ w.Back i f ls → Leg i f x w acts z → Passes i f ls x z v → Passes i f ls x w v

section Turned

variable {i f g : Nat} {r w z z' : World} {x : NodeRef} {acts acts' : List Act}

theorem onward_closeTurn (i g : Nat) (r : World) : Onward r (closeTurn i g r) := by
  have hcounted : Onward r (r.modifyEngine i fun e => { e with steps := e.steps + 1 }) :=
    .modifyEngine r i (fun _ => rfl) (fun _ => id) (fun _ => rfl) fun _ => id
  exact hcounted.trans (stable_rest (Onward.drained (r.modifyEngine i fun e => { e with steps := e.steps + 1 }) i) g
    ⟨rfl, .refl _⟩).2

theorem onward_failed (i g : Nat) (e : Failure) (r : World) : Onward r (failed i g e r) := by
  have haborted : Onward (r.report i e) ((r.report i e).modifyEngine i fun e => { e with steps := e.steps + 1 }.abort g) :=
    .of_local (Local.modifyEngine _ i fun _ => Engine.face_abort _ g)
  exact (Onward.of_local (Local.report r i e)).trans <|
    haborted.trans (stable_rest (Onward.drained _ i) g ⟨rfl, .refl _⟩).2

theorem onward_step (i g : Nat) (others : List Nat) (w : World) : Onward w ((step i g).runOn (atWork i g others w)).2 := by
  refine (obeys_step (Onward.drained w i) g).upholds ?_
  rw [atWork, unqueued, modifyEngine_modifyEngine]
  exact .modifyEngine w i (fun _ => rfl) (fun _ => id) (fun _ => rfl) fun _ => id

theorem onward_pop (i g : Nat) (others : List Nat) (w : World) : Onward w (Play.pop i g others w) := by
  have htaken : Onward w (w.modifyEngine i fun e => { e with queue := others }) :=
    .modifyEngine w i (fun _ => rfl) (fun _ => id) (fun _ => rfl) fun _ => id
  unfold Play.pop
  split
  · exact htaken.trans (.of_local (Local.modifyEngine _ i fun e => e.face_finish g))
  · exact htaken

theorem onward_cede (i g : Nat) (w : World) : Onward w (w.cede i g) := by
  have hleft (v : World) : Onward v (v.modifyEngine i fun e => { e with current := none }) :=
    .modifyEngine v i (fun _ => rfl) (fun _ => id) (fun _ => rfl) fun _ => id
  unfold World.cede
  split
  · exact (Onward.of_local (Local.modifyEngine w i fun e => e.face_finish g)).trans (hleft _)
  · exact hleft w

theorem Leg.onward (h : Leg i f x w acts z) : Onward w z := by
  cases h with
  | @pop g others _ _ => exact (onward_pop i g others w).trans (.drainInbox _ i)
  | @turn r g others a _ _ _ _ hstep =>
    have hr := onward_step i g others w
    rw [hstep] at hr
    exact hr.trans (onward_closeTurn i g r)
  | @fail r g others a e _ _ _ _ _ hstep _ _ =>
    have hr := onward_step i g others w
    rw [hstep] at hr
    exact hr.trans (onward_failed i g e r)

theorem Outing.isOpen {ls : List (Option NodeRef × Listener)} (h : Outing i f ls x w acts z) :
    (w.engine i).isDisposed = false := by
  cases h with
  | back _ hopen => exact hopen
  | leg _ hopen _ _ => exact hopen

theorem Wreck.isOpen {ls : List (Option NodeRef × Listener)} (h : Wreck i f ls x w acts z) :
    (w.engine i).isDisposed = false := by
  cases h with
  | fail _ hopen _ _ _ _ _ _ => exact hopen
  | leg _ hopen _ _ => exact hopen

theorem Leg.iteration (h : Leg i f x w acts z) : Iteration i w z := by
  cases h with
  | pop hq hidle => exact .pop hq hidle
  | turn hq hready _ _ hstep => exact .turn hq hready (turn_ok hstep)
  | fail hq hready _ _ _ hstep he _ => exact .turn hq hready (turn_failed he hstep)

theorem Outing.iterations {ls : List (Option NodeRef × Listener)} (h : Outing i f ls x w acts z) :
    Relation.ReflTransGen (Iteration i) w z := by
  induction h with
  | back => exact .refl
  | leg _ _ hleg _ ih => exact .head hleg.iteration ih

theorem Wreck.iterations {ls : List (Option NodeRef × Listener)} (h : Wreck i f ls x w acts z) :
    Relation.ReflTransGen (Iteration i) w z := by
  induction h with
  | fail _ _ hq hready _ _ hstep he => exact .single (.turn hq hready (turn_failed he hstep))
  | leg _ _ hleg _ ih => exact .head hleg.iteration ih

/-- There is one way for an iteration to go. -/
theorem Leg.unique (h : Leg i f x w acts z) (h' : Leg i f x w acts' z') : acts = acts' ∧ z = z' := by
  cases h with
  | pop hq hidle =>
    cases h' with
    | pop hq' _ =>
      cases hq.symm.trans hq'
      exact ⟨rfl, rfl⟩
    | turn hq' hready | fail hq' hready =>
      cases hq.symm.trans hq'
      rw [hidle] at hready
      cases hready
  | turn hq hready hact _ hstep | fail hq hready hact _ _ hstep =>
    cases h' with
    | pop hq' hidle =>
      cases hq.symm.trans hq'
      rw [hready] at hidle
      cases hidle
    | turn hq' _ hact' _ hstep' | fail hq' _ hact' _ _ hstep' =>
      cases hq.symm.trans hq'
      cases hact.symm.trans hact'
      cases hstep.symm.trans hstep' <;> exact ⟨rfl, rfl⟩

/-- There is one way for an outing to go. -/
theorem Outing.unique {ls : List (Option NodeRef × Listener)} (h : Outing i f ls x w acts z)
    (h' : Outing i f ls x w acts' z') : acts = acts' ∧ z = z' := by
  induction h generalizing acts' with
  | back hback _ =>
    cases h' with
    | back => exact ⟨rfl, rfl⟩
    | leg hout _ _ _ => exact absurd hback hout
  | leg hout _ hleg _ ih =>
    cases h' with
    | back hback _ => exact absurd hback hout
    | leg _ _ hleg' hmore' =>
      obtain ⟨rfl, rfl⟩ := hleg.unique hleg'
      obtain ⟨rfl, rfl⟩ := ih hmore'
      exact ⟨rfl, rfl⟩

/-- Whether a wire leads elsewhere than to the node can be looked up. -/
theorem not_triggers {route : Route} (h : ((w.graph route.graph).endsOf route.wire).all
    (fun ends => decide (⟨route.graph, ends.target.node⟩ ≠ x)) = true) : ¬ Act.Triggers w x (.trigger route) := by
  rintro ⟨ends, hends, hnode⟩
  rw [hends] at h
  simp [hnode] at h

/-- The world after a turn whose step has ended so. -/
def turnEnd (i g : Nat) : Except Failure Unit × World → World
  | (.ok _, r) => closeTurn i g r
  | (.error e, r) => failed i g e r

/-- How a step ends can be tried. -/
theorem Leg.of_step {others : List Nat} {route : Route} (hq : (w.engine i).queue = g :: others)
    (hready : ((w.engine i).fiber g).isReady = true) (hnext : ((w.engine i).fiber g).next = some route)
    (haway : ((w.graph route.graph).endsOf route.wire).all (fun ends => decide (⟨route.graph, ends.target.node⟩ ≠ x)) = true)
    (hstep : (match (step i g).runOn (atWork i g others w) with
      | (.ok _, _) => true
      | (.error e, r) => decide (g ≠ f) && e.isNode && !((r.engine i).fiber g).committed) = true) :
    Leg i f x w [.trigger route] (turnEnd i g ((step i g).runOn (atWork i g others w))) := by
  have hact : ((w.engine i).fiber g).act? = some (.trigger route) := by rw [Fiber.act?, hnext]
  split at hstep
  · rename_i heq
    rw [heq]
    exact .turn hq hready hact (not_triggers haway) heq
  · rename_i heq
    rw [heq]
    simp only [Bool.and_eq_true, decide_eq_true_eq, Bool.not_eq_true'] at hstep
    exact .fail hq hready hact (not_triggers haway) hstep.1.1 heq hstep.1.2 hstep.2

/-- An outing comes back, so that the fiber does not fail on the way. -/
theorem Outing.not_wreck {ls : List (Option NodeRef × Listener)} (h : Outing i f ls x w acts z) :
    ¬ Wreck i f ls x w acts' z' := by
  intro h'
  induction h generalizing acts' with
  | back hback _ =>
    cases h' with
    | fail hout | leg hout => exact hout hback
  | leg _ _ hleg _ ih =>
    cases h' with
    | fail _ _ hq hready _ _ hstep _ =>
      cases hleg with
      | pop hq' hidle =>
        cases hq.symm.trans hq'
        rw [hready] at hidle
        cases hidle
      | turn hq' _ _ _ hstep' =>
        cases hq.symm.trans hq'
        cases hstep.symm.trans hstep'
      | fail hq' _ _ _ hne _ _ _ =>
        cases hq.symm.trans hq'
        exact hne rfl
    | leg _ _ hleg' hmore' =>
      obtain ⟨-, rfl⟩ := hleg.unique hleg'
      exact ih hmore'

end Turned

end Play

namespace Along

variable {s : Seat} {u v w z r : World} {ls : List (Option NodeRef × Listener)} {outs : List Socket} {p : Option Nat} {g : Nat}
  {others : List Nat} {a : Act} {acts : List Act}

/-- The head of the queue is at work and has nothing to write. It is not about to run the node, nor back at the listeners. -/
theorem start (h : Along s u ls outs none w) (hopen : (w.engine s.engine).isDisposed = false)
    (hback : ¬ w.Back s.engine s.fiber ls) (hq : (w.engine s.engine).queue = g :: others) :
    (∃ v, (atWork s.engine g others w).applyEntry s.engine g = (.ok (), v) ∧ Along s u ls outs (some g) v ∧
      (v.engine s.engine).isDisposed = false ∧ (v.engine s.engine).fiber g = (w.engine s.engine).fiber g) ∧
      (g = s.fiber → ((w.engine s.engine).fiber g).next = none → ((w.engine s.engine).fiber g).listeners ≠ ls) := by
  have htaken := h.take hopen hq
  have hengine := engine_atWork h.steady.inside g others
  obtain ⟨hok, happlied, hfiber⟩ := htaken.applyEntry (by rw [hengine]; exact hopen)
  have hpair : (atWork s.engine g others w).applyEntry s.engine g =
      (.ok (), ((atWork s.engine g others w).applyEntry s.engine g).2) := by
    rw [← hok]
  refine ⟨⟨_, hpair, happlied, ?_, hfiber.trans ?_⟩, ?_⟩
  · rw [engine_applyEntry htaken.steady.inside, hengine]
    exact hopen
  · rw [hengine]
    rfl
  · rintro rfl hnext hl
    exact hback (.inr ⟨by rw [hq]; rfl, hnext, hl⟩)

/-- A step on the way, whether or not it fails. -/
theorem step (hs : s.Taken u) (h : Along s u ls outs none w) (hopen : (w.engine s.engine).isDisposed = false)
    (hback : ¬ w.Back s.engine s.fiber ls) (hq : (w.engine s.engine).queue = g :: others)
    (hact : ((w.engine s.engine).fiber g).act? = some a) (hnode : ¬ a.Triggers w s.node) {out : Except Failure Unit}
    (hstep : (Play.step s.engine g).runOn (atWork s.engine g others w) = (out, r)) : Along s u ls outs (some g) r := by
  obtain ⟨⟨v, happly, hv, hvopen, hfiber⟩, hself⟩ := h.start hopen hback hq
  rw [runOn_step, happly] at hstep
  dsimp only at hstep
  have hdone := hv.proceed hs hvopen (fun route ends hnext hends heq => ?_) (by rw [hfiber]; exact hself)
  · rw [hstep] at hdone
    exact hdone
  · rw [hfiber] at hnext
    have hroute : a = .trigger route := by
      rw [Fiber.act?, hnext] at hact
      exact (Option.some.inj hact).symm
    refine hnode ?_
    rw [hroute]
    refine ⟨ends, ?_, heq⟩
    have hsame := (hv.outlined.endsOf route.graph route.wire).trans (h.outlined.endsOf route.graph route.wire).symm
    exact hsame.symm.trans hends

/-- A fiber that has nothing left to do had no listeners before. -/
theorem nil_of_isComplete (h : Along s u ls outs p w) (hopen : (w.engine s.engine).isDisposed = false)
    (hcomplete : ((w.engine s.engine).fiber s.fiber).isComplete = true) : ls = [] := by
  have haborted := h.unaborted hopen
  simp only [Fiber.isComplete, haborted, Bool.false_or, Bool.and_eq_true, List.isEmpty_iff] at hcomplete
  obtain ⟨above, heq, -⟩ := h.stacked.above
  rw [hcomplete.2] at heq
  exact (List.append_eq_nil_iff.1 heq.symm).2

/-- A turn on the way leads on, or to the end of the fiber if no listener was there. -/
theorem closeTurn (hs : s.Taken u) (h : Along s u ls outs (some g) r) (hopen : (r.engine s.engine).isDisposed = false)
    (hinbox : (r.engine s.engine).inbox = []) : Along s u ls outs none (Play.closeTurn s.engine g r) ∨
      (((Play.closeTurn s.engine g r).engine s.engine).fiber s.fiber).finished = true ∧ ls = [] ∧
        ((Play.closeTurn s.engine g r).node s.node).outputs = outs := by
  have hcounted := h.count
  have hengine := engine_modifyEngine_self h.steady.inside fun e => { e with steps := e.steps + 1 }
  unfold Play.closeTurn
  generalize r.modifyEngine s.engine (fun e => { e with steps := e.steps + 1 }) = c at hcounted hengine ⊢
  have hcopen : (c.engine s.engine).isDisposed = false := by rw [hengine]; exact hopen
  have hcinbox : (c.engine s.engine).inbox = [] := by rw [hengine]; exact hinbox
  cases hready : ((c.engine s.engine).fiber g).isReady with
  | true =>
    have hrest : Play.rest c s.engine g = c.modifyEngine s.engine fun e => { e with queue := g :: e.queue, current := none } := by
      simp only [Play.rest, hready, if_true]
    rw [hrest]
    exact .inl (hcounted.requeue hready)
  | false =>
    have hceded : ((c.cede s.engine g).engine s.engine).inbox = [] := (onward_cede s.engine g c).inbox s.engine hcinbox
    have hrest : Play.rest c s.engine g = c.cede s.engine g := by
      refine Eq.trans ?_ (drainInbox_eq hceded)
      simp only [Play.rest, hready, Bool.false_eq_true, if_false]
      rfl
    rw [hrest]
    by_cases hover : g = s.fiber ∧ ((c.engine s.engine).fiber g).isComplete = true
    · obtain ⟨rfl, hcomplete⟩ := hover
      refine .inr ⟨?_, hcounted.nil_of_isComplete hcopen hcomplete, ?_⟩
      · rw [World.cede, if_pos hcomplete, modifyEngine_modifyEngine, engine_modifyEngine_self hcounted.steady.inside]
        have haccounts := (hcounted.engine s.engine).accounted.tallied s.fiber
        exact Engine.Outlived.finished_finish (hcounted.inside hs) haccounts.parent
      · rw [World.cede, if_pos hcomplete]
        exact hcounted.outputs
    · exact .inl (hcounted.cede hready fun hg => Bool.eq_false_iff.2 fun hcomplete => hover ⟨hg, hcomplete⟩)

/-- Who fails before it has committed has not split. -/
theorem pending_step (h : Along s u ls outs none w) (hopen : (w.engine s.engine).isDisposed = false)
    (hinbox : (w.engine s.engine).inbox = []) (hback : ¬ w.Back s.engine s.fiber ls)
    (hq : (w.engine s.engine).queue = g :: others) {out : Except Failure Unit}
    (hstep : (Play.step s.engine g).runOn (atWork s.engine g others w) = (out, r))
    (hropen : (r.engine s.engine).isDisposed = false) (hc : ((r.engine s.engine).fiber g).committed = false) :
    ((r.engine s.engine).fiber g).pending = 0 := by
  obtain ⟨⟨v, happly, hv, -, hfiber⟩, -⟩ := h.start hopen hback hq
  have hpending := (((h.engine s.engine).accounted.tallied g).queued (by rw [hq]; exact List.mem_cons_self)).2.2
  have hvinbox : (v.engine s.engine).inbox = [] := by
    have hengine := engine_applyEntry (h.take hopen hq).steady.inside g
    rw [happly, engine_atWork h.steady.inside] at hengine
    rw [hengine]
    exact hinbox
  have hcurrent : (v.engine s.engine).current = some g := (hv.engine s.engine).current.trans (InOrder.onlyAt_self _ g)
  have hpoised : Poised s.engine g v :=
    { inside := hv.steady.inside
      fiber := (hv.engine s.engine).accounted.current_lt hcurrent
      current := hcurrent
      inbox := hvinbox
      fits := fun l hl => ((hv.engine s.engine).listeners g l hl).2
      nodes := hv.disposers
      operations := fun j => (hv.engine j).disposers }
  rw [runOn_step, happly] at hstep
  dsimp only at hstep
  have hdone := hpoised.pending_proceed (by rw [hfiber, hpending])
  rw [hstep] at hdone
  exact hdone hropen hc

/-- A turn that fails leaves the queue to the others. -/
theorem failed_eq {i : Nat} (hi : i < r.engines.size) (hg : g < (r.engine i).fibers.size)
    (hlt : ∀ p, ((r.engine i).fiber g).parent = some p → p < g) (hinbox : (r.engine i).inbox = []) (e : Failure) :
    Play.failed i g e r =
      (r.report i e).modifyEngine i fun x => { { x with steps := x.steps + 1 }.abort g with current := none } := by
  have hengines := engines_report r i e
  have hreported : (r.report i e).engine i = { r.engine i with failures := e :: (r.engine i).failures } := by
    rw [engine_congr hengines, engine_modifyEngine_self hi]
  have hi' : i < (r.report i e).engines.size := by
    rw [hengines]
    simpa using hi
  unfold Play.failed
  generalize r.report i e = v at hreported hi'
  have hengine := engine_modifyEngine_self hi' fun e => { e with steps := e.steps + 1 }.abort g
  obtain ⟨hfinished, haborted⟩ := Engine.over_abort (e := { v.engine i with steps := (v.engine i).steps + 1 }) (g := g)
    (by rw [hreported]; exact hg) (by rw [hreported]; exact hlt)
  rw [← hengine] at hfinished haborted
  have hcomplete : (((v.modifyEngine i fun e => { e with steps := e.steps + 1 }.abort g).engine i).fiber g).isComplete = true := by
    rw [Fiber.isComplete, haborted, Bool.true_or]
  have hceded : (v.modifyEngine i fun e => { e with steps := e.steps + 1 }.abort g).cede i g =
      v.modifyEngine i fun x => { { x with steps := x.steps + 1 }.abort g with current := none } := by
    rw [World.cede, if_pos hcomplete, modifyEngine_modifyEngine, modifyEngine_modifyEngine]
    refine modifyEngine_congr ?_
    dsimp only
    rw [← hengine, Engine.finish_eq_self hfinished]
  have hempty : (((v.modifyEngine i fun e => { e with steps := e.steps + 1 }.abort g).cede i g).engine i).inbox = [] := by
    rw [hceded, engine_modifyEngine_self hi']
    dsimp only
    rw [Engine.abort_frame, hreported]
    exact hinbox
  rw [← hceded, ← drainInbox_eq hempty]
  simp only [Play.rest, Fiber.isReady, hcomplete, Bool.not_true, Bool.false_and, Bool.false_eq_true, if_false, if_true]
  rw [World.cede, if_pos hcomplete]

/-- A turn of another on the way that fails leads on. -/
theorem failed (h : Along s u ls outs (some g) r) (hinbox : (r.engine s.engine).inbox = []) (hne : g ≠ s.fiber)
    (hpending : ((r.engine s.engine).fiber g).pending = 0) (e : Failure) :
    Along s u ls outs none (Play.failed s.engine g e r) := by
  have hcurrent : (r.engine s.engine).current = some g := (h.engine s.engine).current.trans (InOrder.onlyAt_self _ g)
  have hg : g < (r.engine s.engine).fibers.size := (h.engine s.engine).accounted.current_lt hcurrent
  have hlt := ((h.engine s.engine).accounted.tallied g).parent
  have hR : Retained u atRest s.Elder (Play.failed s.engine g e r) :=
    (Retained.fail (show Retained u (onlyAt s.engine g) s.Elder r from h.toRetained) e).rest
  rw [failed_eq h.steady.inside hg hlt hinbox] at hR ⊢
  have hreported := h.report s.engine e
  have hengine : (r.report s.engine e).engine s.engine =
      { r.engine s.engine with failures := e :: (r.engine s.engine).failures } := by
    rw [engine_congr (engines_report r s.engine e), engine_modifyEngine_self h.steady.inside]
  refine hreported.of_engine hR ?_ (fun hM => ⟨?_, rfl, nofun, nofun⟩) ?_
  · dsimp only
    rw [Engine.abort_frame]
  · have hhousehold := hM.household
    have hwork := hM.atWork g rfl
    have hwaits : (((r.report s.engine e).engine s.engine).fiber g).pending = 0 := by
      rw [hengine]
      exact hpending
    generalize (r.report s.engine e).engine s.engine = x at hhousehold hwork hwaits ⊢
    have hcounted : Engine.Household s.size s.fiber { x with steps := x.steps + 1 } := hhousehold.congr rfl rfl
    exact (hcounted.abort (hwork.congr rfl) hne hwaits).congr rfl rfl
  · have hstacked := hreported.stacked
    have hinside : g < ((r.report s.engine e).engine s.engine).fibers.size := by
      rw [hengine]
      exact hg
    have hearlier (p : Nat) : (((r.report s.engine e).engine s.engine).fiber g).parent = some p → p < g := by
      rw [hengine]
      exact hlt p
    generalize (r.report s.engine e).engine s.engine = x at hstacked hinside hearlier ⊢
    exact Fiber.Stacked.abort (e := { x with steps := x.steps + 1 }) hstacked hinside hearlier hne.symm

/-- Who has failed is over. -/
theorem over_failed (h : Along s u ls outs (some g) r) (hinbox : (r.engine s.engine).inbox = []) (e : Failure) :
    (((Play.failed s.engine g e r).engine s.engine).fiber g).finished = true := by
  have hcurrent : (r.engine s.engine).current = some g := (h.engine s.engine).current.trans (InOrder.onlyAt_self _ g)
  have hg : g < (r.engine s.engine).fibers.size := (h.engine s.engine).accounted.current_lt hcurrent
  have hlt := ((h.engine s.engine).accounted.tallied g).parent
  have hengine : (r.report s.engine e).engine s.engine =
      { r.engine s.engine with failures := e :: (r.engine s.engine).failures } := by
    rw [engine_congr (engines_report r s.engine e), engine_modifyEngine_self h.steady.inside]
  have hinside : g < ((r.report s.engine e).engine s.engine).fibers.size := by
    rw [hengine]
    exact hg
  have hearlier (p : Nat) : (((r.report s.engine e).engine s.engine).fiber g).parent = some p → p < g := by
    rw [hengine]
    exact hlt p
  rw [failed_eq h.steady.inside hg hlt hinbox, engine_modifyEngine_self (h.report s.engine e).steady.inside]
  generalize (r.report s.engine e).engine s.engine = x at hinside hearlier
  exact (Engine.over_abort (e := { x with steps := x.steps + 1 }) hinside hearlier).1

/-- An iteration on the way leads on, or to the end of the fiber if no listener was there. -/
theorem leg (hs : s.Taken u) (h : Along s u ls outs none w) (hinbox : (w.engine s.engine).inbox = [])
    (hback : ¬ w.Back s.engine s.fiber ls) (hleg : Leg s.engine s.fiber s.node w acts z)
    (hopen : (z.engine s.engine).isDisposed = false) :
    Along s u ls outs none z ∨
      ((z.engine s.engine).fiber s.fiber).finished = true ∧ ls = [] ∧ (z.node s.node).outputs = outs := by
  have hearlier {v : World} (hv : Onward v z) : (v.engine s.engine).isDisposed = false :=
    Bool.eq_false_iff.2 fun hd => by simp [hv.isDisposed s.engine hd] at hopen
  have hwopen := hearlier hleg.onward
  cases hleg with
  | @pop g others hq hidle =>
    have hpopped := (onward_pop s.engine g others w).inbox s.engine hinbox
    rw [drainInbox_eq hpopped]
    refine .inl (h.pop hwopen hq hidle ?_)
    -- The first of the kin is idle at the head of the queue only if it is back.
    rintro rfl
    have hpending := (((h.engine s.engine).accounted.tallied s.fiber).queued (by rw [hq]; exact List.mem_cons_self)).2.2
    have hcomplete : ((w.engine s.engine).fiber s.fiber).isComplete = true := by
      simpa [Fiber.isReady, Fiber.isWaiting, hpending] using hidle
    have hnone := h.nil_of_isComplete hwopen hcomplete
    have haborted := h.unaborted hwopen
    simp only [Fiber.isComplete, haborted, Bool.false_or, Bool.and_eq_true, Option.isNone_iff_eq_none, List.isEmpty_iff]
      at hcomplete
    exact hback (.inr ⟨by rw [hq]; rfl, hcomplete.1.1, hcomplete.2.trans hnone.symm⟩)
  | @turn r g others a hq hready hact hnode hstep =>
    have hr := onward_step s.engine g others w
    rw [hstep] at hr
    have hropen := hearlier (onward_closeTurn s.engine g r)
    exact (h.step hs hwopen hback hq hact hnode hstep).closeTurn hs hropen (hr.inbox s.engine hinbox)
  | @fail r g others a e hq hready hact hnode hne hstep _ hc =>
    have hr := onward_step s.engine g others w
    rw [hstep] at hr
    have hropen := hearlier (onward_failed s.engine g e r)
    exact .inl <| (h.step hs hwopen hback hq hact hnode hstep).failed (hr.inbox s.engine hinbox) hne
      (h.pending_step hwopen hinbox hback hq hstep hropen hc) e

/-- An outing that starts so ends so, with the fiber back at its listeners, or over if there was none. -/
theorem outing (hs : s.Taken u) (h : Along s u ls outs none w) (hinbox : (w.engine s.engine).inbox = [])
    (hout : Outing s.engine s.fiber ls s.node w acts v) : (v.engine s.engine).inbox = [] ∧ v.Back s.engine s.fiber ls ∧
      (v.engine s.engine).isDisposed = false ∧
      (Along s u ls outs none v ∨ ((v.engine s.engine).fiber s.fiber).finished = true ∧ ls = []) := by
  induction hout with
  | back hback hopen => exact ⟨hinbox, hback, hopen, .inl h⟩
  | @leg w z v acts more hback hopen hleg hmore ih =>
    have hzinbox := hleg.onward.inbox s.engine hinbox
    rcases h.leg hs hinbox hback hleg hmore.isOpen with hz | ⟨hfinished, hnone, -⟩
    · exact ih hz hzinbox
    · cases hmore with
      | back hback hopen => exact ⟨hzinbox, hback, hopen, .inr ⟨hfinished, hnone⟩⟩
      | leg hback _ _ _ => exact absurd (.inl hfinished) hback

/-- Wherever an outing passes, the node has the outputs that it had at first. -/
theorem passes (hs : s.Taken u) (h : Along s u ls outs none w) (hinbox : (w.engine s.engine).inbox = [])
    (hout : Outing s.engine s.fiber ls s.node w acts v) (hpass : Passes s.engine s.fiber ls s.node w z) :
    (z.node s.node).outputs = outs := by
  induction hpass generalizing acts with
  | here => exact h.outputs
  | reached hback hq _ _ _ =>
    obtain ⟨⟨r, happly, hr, -, -⟩, -⟩ := h.start hout.isOpen hback hq
    rw [happly]
    exact (hr.approach hs _).outputs
  | heeded hback hq _ hnext hl =>
    obtain ⟨⟨r, happly, hr, -, hfiber⟩, hself⟩ := h.start hout.isOpen hback hq
    rw [happly]
    refine (hr.heed (by rw [hfiber]; exact hl) fun hg => ?_).1.outputs
    rw [hfiber]
    exact hself hg hnext
  | stepped hback hq _ hact hnode hstep => exact (h.step hs hout.isOpen hback hq hact hnode hstep).outputs
  | leg hback hleg hpass ih =>
    cases hout with
    | back hb _ => exact absurd hb hback
    | leg _ _ hleg' hmore =>
      obtain ⟨-, rfl⟩ := hleg.unique hleg'
      rcases h.leg hs hinbox hback hleg hmore.isOpen with hz | ⟨hfinished, -, houtputs⟩
      · exact ih hz (hleg.onward.inbox s.engine hinbox) hmore
      · cases hpass with
        | here => exact houtputs
        | reached hb _ _ _ _ | heeded hb _ _ _ _ | stepped hb _ _ _ _ _ | leg hb _ _ => exact absurd (.inl hfinished) hb

/-- The next call on the way is none of the node. -/
theorem act_not_isOf (h : Along s u ls outs none w) (hopen : (w.engine s.engine).isDisposed = false)
    (hback : ¬ w.Back s.engine s.fiber ls) (hq : (w.engine s.engine).queue = g :: others)
    (hact : ((w.engine s.engine).fiber g).act? = some a) (hnode : ¬ a.Triggers w s.node) : ¬ a.IsOf u s.node := by
  cases a with
  | trigger route => exact fun hof => hnode (Act.Triggers.outlined h.outlined hof)
  | listener node l =>
    rintro ⟨c, hc, hcnode⟩
    obtain ⟨⟨r, -, hr, hropen, hfiber⟩, hself⟩ := h.start hopen hback hq
    obtain ⟨hnext, rest, hl⟩ : ((w.engine s.engine).fiber g).next = none ∧
        ∃ rest, ((w.engine s.engine).fiber g).listeners = (node, l) :: rest := by
      unfold Fiber.act? at hact
      split at hact
      · cases hact
      · cases hact
        exact ⟨‹_›, _, ‹_›⟩
      · cases hact
    rw [← hfiber] at hl
    have hwithin := (hr.heed hl fun hg => by rw [hfiber]; exact hself hg hnext).2
    exact (hr.within_foreign hropen (l := (node, l)) (by rw [hl]; exact List.mem_cons_self) hwithin c hc).2 hcnode

theorem leg_not_isOf (h : Along s u ls outs none w) (hopen : (w.engine s.engine).isDisposed = false)
    (hback : ¬ w.Back s.engine s.fiber ls) (hleg : Leg s.engine s.fiber s.node w acts z) : ∀ a ∈ acts, ¬ a.IsOf u s.node := by
  intro a ha
  cases hleg with
  | pop => exact absurd ha List.not_mem_nil
  | turn hq _ hact hnode _ | fail hq _ hact hnode _ _ _ _ =>
    rw [List.mem_singleton.1 ha]
    exact h.act_not_isOf hopen hback hq hact hnode

/-- No call on the way is one of the node. -/
theorem not_isOf (hs : s.Taken u) (h : Along s u ls outs none w) (hinbox : (w.engine s.engine).inbox = [])
    (hout : Outing s.engine s.fiber ls s.node w acts v) : ∀ a ∈ acts, ¬ a.IsOf u s.node := by
  induction hout with
  | back => exact fun _ ha => absurd ha List.not_mem_nil
  | @leg w z v acts more hback hopen hleg hmore ih =>
    refine List.forall_mem_append.2 ⟨h.leg_not_isOf hopen hback hleg, ?_⟩
    rcases h.leg hs hinbox hback hleg hmore.isOpen with hz | ⟨hfinished, -, -⟩
    · exact ih hz (hleg.onward.inbox s.engine hinbox)
    · cases hmore with
      | back => exact fun _ ha => absurd ha List.not_mem_nil
      | leg hback _ _ _ => exact absurd (.inl hfinished) hback

/-- On the way to where the fiber fails no call is one of the node either, and the fiber is over then. -/
theorem wreck (hs : s.Taken u) (h : Along s u ls outs none w) (hinbox : (w.engine s.engine).inbox = [])
    (hwreck : Wreck s.engine s.fiber ls s.node w acts v) :
    (∀ a ∈ acts, ¬ a.IsOf u s.node) ∧ ((v.engine s.engine).fiber s.fiber).finished = true := by
  induction hwreck with
  | @fail w r others a e hback hopen hq hready hact hnode hstep he =>
    refine ⟨fun b hb => ?_, ?_⟩
    · rw [List.mem_singleton.1 hb]
      exact h.act_not_isOf hopen hback hq hact hnode
    · have honward := onward_step s.engine s.fiber others w
      rw [hstep] at honward
      exact (h.step hs hopen hback hq hact hnode hstep).over_failed (honward.inbox s.engine hinbox) e
  | @leg w z v acts more hback hopen hleg hmore ih =>
    rcases h.leg hs hinbox hback hleg hmore.isOpen with hz | ⟨hfinished, -, -⟩
    · obtain ⟨hmore, hfinished⟩ := ih hz (hleg.onward.inbox s.engine hinbox)
      exact ⟨List.forall_mem_append.2 ⟨h.leg_not_isOf hopen hback hleg, hmore⟩, hfinished⟩
    · cases hmore with
      | fail hback _ _ _ _ _ _ _ | leg hback _ _ _ => exact absurd (.inl hfinished) hback

/-- Where the fiber is back at the listeners, all others that the path has split into are over. -/
theorem over_of_back (h : Along s u ls outs none w) (hopen : (w.engine s.engine).isDisposed = false)
    (hback : w.Back s.engine s.fiber ls) : ∃ others, (w.engine s.engine).queue = s.fiber :: others ∧
      ((w.engine s.engine).fiber s.fiber).next = none ∧ ((w.engine s.engine).fiber s.fiber).listeners = ls ∧
      ((w.engine s.engine).fiber s.fiber).pending = 0 ∧
      ∀ k, (w.engine s.engine).Kin s.size s.fiber k → k ≠ s.fiber → ((w.engine s.engine).fiber k).finished = true := by
  rcases hback with hf | ⟨hq, hnext, hl⟩
  · rw [h.stacked.unfinished] at hf
    cases hf
  · obtain ⟨others, hq⟩ := List.head?_eq_some_iff.1 hq
    have hpending := (((h.engine s.engine).accounted.tallied s.fiber).queued (by rw [hq]; exact List.mem_cons_self)).2.2
    exact ⟨others, hq, hnext, hl, hpending, fun k hk hne =>
      (h.engine s.engine).accounted.finished_of_kin (h.home hopen).household hpending hk hne⟩

end Along

namespace Play

variable {i f : Nat} {x : NodeRef} {ls : List (Option NodeRef × Listener)} {w z v v' : World} {acts all : List Act} {m : Int}
  {n : Nat} {out : Except Failure Nat}

/-- Where a fiber has a turn that does not escape, the loop of a run takes it. -/
theorem Drains.of_turn (hd : Drains i m n w all out v') (hm : n < m) {g : Nat} {others : List Nat} {a : Act}
    (hq : (w.engine i).queue = g :: others) (hready : ((w.engine i).fiber g).isReady = true)
    (hact : ((w.engine i).fiber g).act? = some a) (hturn : (Play.turn i g).runOn (unqueued i others w) = (.ok (), z)) :
    ∃ more, all = a :: more ∧ Drains i m (n + 1) z more out v' := by
  cases hd with
  | idle hq' =>
    rw [hq] at hq'
    cases hq'
  | limit _ hle => omega
  | pop _ hq' hidle _ =>
    cases hq.symm.trans hq'
    rw [hready] at hidle
    cases hidle
  | turn _ hq' _ hact' hturn' hmore =>
    cases hq.symm.trans hq'
    cases hact.symm.trans hact'
    cases hturn.symm.trans hturn'
    exact ⟨_, rfl, hmore⟩
  | escape _ hq' _ _ hturn' =>
    cases hq.symm.trans hq'
    cases hturn.symm.trans hturn'

/-- The loop of a run that has steps enough makes the calls on the way from one world to the other. -/
def Takes (i : Nat) (w : World) (acts : List Act) (z : World) : Prop :=
  ∀ (m : Int) (n : Nat) (all : List Act) (out : Except Failure Nat) (v : World), Drains i m n w all out v →
    n + acts.length < m → ∃ more, all = acts ++ more ∧ Drains i m (n + acts.length) z more out v

theorem Takes.refl (i : Nat) (w : World) : Takes i w [] w := fun _ _ all _ _ hd _ => ⟨all, rfl, hd⟩

theorem Takes.trans {more : List Act} (h : Takes i w acts z) (h' : Takes i z more v) : Takes i w (acts ++ more) v := by
  intro m n all out v' hd hm
  rw [List.length_append] at hm
  obtain ⟨rest, rfl, hrest⟩ := h m n all out v' hd (by omega)
  obtain ⟨last, rfl, hlast⟩ := h' m (n + acts.length) rest out v' hrest (by omega)
  exact ⟨last, (List.append_assoc ..).symm, by rwa [List.length_append, ← Nat.add_assoc]⟩

theorem Takes.of_turn {g : Nat} {others : List Nat} {a : Act} (hq : (w.engine i).queue = g :: others)
    (hready : ((w.engine i).fiber g).isReady = true) (hact : ((w.engine i).fiber g).act? = some a)
    (hturn : (Play.turn i g).runOn (unqueued i others w) = (.ok (), z)) : Takes i w [a] z :=
  fun m _ _ _ _ hd hm => hd.of_turn (by rw [List.length_singleton] at hm; omega) hq hready hact hturn

/-- The loop of a run goes the way of the iteration. -/
theorem Leg.takes (h : Leg i f x w acts z) : Takes i w acts z := by
  cases h with
  | pop hq hidle =>
    intro m n all out v' hd hm
    cases hd with
    | idle hq' =>
      rw [hq] at hq'
      cases hq'
    | limit _ hle =>
      rw [List.length_nil] at hm
      omega
    | pop _ hq' _ hmore =>
      cases hq.symm.trans hq'
      exact ⟨all, rfl, hmore⟩
    | turn _ hq' hready | escape _ hq' hready =>
      cases hq.symm.trans hq'
      rw [hidle] at hready
      cases hready
  | turn hq hready hact _ hstep => exact .of_turn hq hready hact (turn_ok hstep)
  | fail hq hready hact _ _ hstep he _ => exact .of_turn hq hready hact (turn_failed he hstep)

/-- It goes all the way of an outing. -/
theorem Outing.takes (h : Outing i f ls x w acts v) : Takes i w acts v := by
  induction h with
  | back => exact .refl _ _
  | leg _ _ hleg _ ih => exact hleg.takes.trans ih

/-- It goes to where the fiber fails. -/
theorem Wreck.takes (h : Wreck i f ls x w acts v) : Takes i w acts v := by
  induction h with
  | fail _ _ hq hready hact _ hstep he => exact .of_turn hq hready hact (turn_failed he hstep)
  | leg _ _ hleg _ ih => exact hleg.takes.trans ih

end Play

end FlowGraph
