import FlowGraph.Proofs.Contained
import FlowGraph.Proofs.Reckoning
import FlowGraph.Proofs.Trends

/-!
Runs with a limit of steps. The loop of a run is described as it goes, without fuel: it ends when the queue is empty or the
limit is reached, takes idle fibers off the queue without counting them, and counts every attempt once, failed or not. A run
always gets through this loop, whatever the graph and the engine; what it returns, how far the engine counts on, and what is
left in the queue are read off it.
-/
namespace FlowGraph

open World Play

namespace Play

/-- From `w` on, with `s` steps taken and a limit of `m`, the loop makes the attempts `acts` and ends in `v`. -/
inductive Drains (i : Nat) (m : Int) : Nat → World → List Act → Except Failure Nat → World → Prop where
  | idle {s : Nat} {w : World} : (w.engine i).queue = [] → Drains i m s w [] (.ok s) w
  | limit {s : Nat} {w : World} : (w.engine i).queue ≠ [] → m ≤ s →
      Drains i m s w [] (.ok s) (w.record (.limited s (w.engine i).queue.length))
  | pop {s f : Nat} {w v : World} {others : List Nat} {acts : List Act} {out : Except Failure Nat} : s < m →
      (w.engine i).queue = f :: others → ((w.engine i).fiber f).isReady = false →
      Drains i m s ((Play.pop i f others w).drainInbox i) acts out v → Drains i m s w acts out v
  | turn {s f : Nat} {w z v : World} {others : List Nat} {a : Act} {acts : List Act} {out : Except Failure Nat} : s < m →
      (w.engine i).queue = f :: others → ((w.engine i).fiber f).isReady = true → ((w.engine i).fiber f).act? = some a →
      (Play.turn i f).runOn (w.modifyEngine i fun e => { e with queue := others }) = (.ok (), z) →
      Drains i m (s + 1) z acts out v → Drains i m s w (a :: acts) out v
  | escape {s f : Nat} {w v : World} {others : List Nat} {a : Act} {e : Failure} : s < m →
      (w.engine i).queue = f :: others → ((w.engine i).fiber f).isReady = true → ((w.engine i).fiber f).act? = some a →
      (Play.turn i f).runOn (w.modifyEngine i fun e => { e with queue := others }) = (.error e, v) →
      Drains i m s w [a] (.error e) v

end Play

/-- An iteration leaves the outline of the graphs as it is. -/
theorem Iteration.outlined {i : Nat} {w v : World} (h : Iteration i w v) : Outlined w v := by
  have hself : Outlined w w := rfl
  cases h with
  | pop =>
    refine Outlined.drainInbox (hself.frame ?_) i
    unfold Play.pop
    split <;> rfl
  | turn hq hready ht =>
    rename_i f others
    have hturned := (obeys_turn (Outlined.drained w i) f).upholds (w := w.modifyEngine i fun e => { e with queue := others })
      (hself.frame rfl)
    rwa [ht] at hturned

/-- Nothing but the loop counts steps. -/
theorem Engine.trend_steps : Engine.Trend fun e e' => e'.steps = e.steps where
  refl _ := rfl
  trans h h' := h'.trans h
  fibers _ _ _ _ := rfl
  notify _ := rfl
  report _ _ := rfl
  work _ _ _ _ := rfl
  close _ := rfl

namespace Play

variable {i f s t n : Nat} {m : Int} {u v w z : World} {others : List Nat} {acts : List Act} {out : Except Failure Nat}

/-- A turn is counted once, whether the step fails or not. -/
theorem steps_turn (hq : (w.engine i).queue = f :: others)
    (ht : (turn i f).runOn (w.modifyEngine i fun e => { e with queue := others }) = (.ok (), v)) :
    (v.engine i).steps = (w.engine i).steps + 1 := by
  have hi : i < w.engines.size := by
    apply Decidable.byContradiction
    intro hi
    simp [engine, hi] at hq
    cases hq
  have hstart : ((atWork i f others w).engine i).steps = (w.engine i).steps := by rw [engine_atWork hi]
  have hstep := Engine.trend_steps.step (atWork i f others w) i i f
  have honward := (obeys_step (Onward.drained (atWork i f others w) i) f).upholds (Onward.refl _)
  have hsize : (atWork i f others w).engines.size = w.engines.size := by simp [atWork, unqueued]
  -- After the count the fiber makes room or goes on, which counts nothing.
  have hrest {g : Engine → Engine} {x : World} (hx : x.engines.size = w.engines.size)
      (hg : (g (x.engine i)).steps = (w.engine i).steps + 1) :
      ((rest (x.modifyEngine i g) i f).engine i).steps = (w.engine i).steps + 1 := by
    have hcounted : ((x.modifyEngine i g).engine i).steps = (w.engine i).steps + 1 := by
      rw [engine_modifyEngine_self (hx ▸ hi)]
      exact hg
    exact (Engine.trend_steps.rest (Engine.trend_steps.refl ((x.modifyEngine i g).engine i)) i f).trans hcounted
  rcases turn_eq_ok ht with ⟨r, hp, rfl⟩ | ⟨e, r, -, hp, rfl⟩
  · rw [hp] at hstep honward
    refine hrest (honward.size.trans hsize) ?_
    show (r.engine i).steps + 1 = _
    rw [hstep, hstart]
  · rw [hp] at hstep honward
    refine hrest ((Local.report r i e).size.trans (honward.size.trans hsize)) ?_
    rw [Engine.abort_frame]
    show ((r.report i e).engine i).steps + 1 = _
    have hreported := Engine.trend_steps.reported (Engine.trend_steps.refl (r.engine i)) i e
    exact congrArg (· + 1) (hreported.trans (hstep.trans hstart))

/-- What a run returns, counts and leaves. -/
theorem Drains.counts (h : Drains i m s w acts out v) (ht : out = .ok t) : t = s + acts.length ∧ (t : Int) ≤ max m s ∧
    (v.engine i).steps = (w.engine i).steps + acts.length ∧ ((v.engine i).queue ≠ [] → m ≤ t) := by
  induction h with
  | idle hq =>
    cases ht
    exact ⟨rfl, by omega, rfl, fun hne => absurd hq hne⟩
  | limit _ hm =>
    cases ht
    exact ⟨rfl, by omega, rfl, fun _ => hm⟩
  | @pop s f w v others acts out _ _ _ _ ih =>
    obtain ⟨hcount, hle, hsteps, hleft⟩ := ih ht
    refine ⟨hcount, hle, hsteps.trans ?_, hleft⟩
    have hpopped := Engine.trend_steps.drainInbox (Engine.trend_steps.pop (Engine.trend_steps.refl (w.engine i)) i f others) i
    rw [hpopped]
  | turn hs hq _ _ hturn _ ih =>
    obtain ⟨hcount, hle, hsteps, hleft⟩ := ih ht
    rw [steps_turn hq hturn] at hsteps
    refine ⟨?_, ?_, ?_, hleft⟩
    · rw [List.length_cons]
      omega
    · omega
    · rw [List.length_cons]
      omega
  | escape => cases ht

/-- The idle fibers at the head of the queue are taken off first. -/
theorem Drains.of_settleWithin (hs : s < m) (h : Drains i m s (settleWithin i n w) acts out v) : Drains i m s w acts out v := by
  induction n generalizing w with
  | zero => exact h
  | succ n ih =>
    rw [settleWithin] at h
    split at h
    · exact h
    · rename_i f others hq
      dsimp only at h
      split at h
      · exact h
      · rename_i hidle
        exact .pop hs hq (Bool.eq_false_iff.2 hidle) (ih h)

/-- A drain with a budget is the loop with what is left up to the limit. -/
theorem drains_drain (hinbox : (w.engine i).inbox = []) (hn : n = (m - t).toNat) :
    ∃ acts, Drains i m t w acts ((drain i n t).runOn w).1 ((drain i n t).runOn w).2 := by
  induction n generalizing t w with
  | zero =>
    refine ⟨[], ?_⟩
    rw [drain, breakOff, runOn_get]
    by_cases hq : (w.engine i).queue = []
    · rw [if_neg (by simp [hq])]
      exact .idle hq
    · rw [if_pos (by simp [hq])]
      exact .limit hq (by omega)
  | succ n ih =>
    have hlt : (t : Int) < m := by omega
    have honward : Onward w (settle w i) := (stable_settle (Onward.drained w i) ⟨rfl, .refl w⟩).2
    have hhead {f : Nat} {others : List Nat} (hq : ((settle w i).engine i).queue = f :: others) :
        (((settle w i).engine i).fiber f).isReady = true := head_settleWithin (burden_lt_fuel hinbox) hinbox hq
    obtain ⟨acts, h⟩ : ∃ acts, Drains i m t (settle w i) acts ((drain i (n + 1) t).runOn w).1 ((drain i (n + 1) t).runOn w).2 := by
      rw [drain, runOn_bind, runOn_modify]
      generalize settle w i = r at honward hhead ⊢
      dsimp only
      rw [runOn_get]
      split
      · rename_i hq
        exact ⟨[], .idle hq⟩
      · rename_i f others hq
        obtain ⟨a, ha⟩ := Fiber.exists_act (hhead hq)
        rw [runOn_bind, runOn_modify]
        dsimp only
        rw [runOn_bind]
        have hturned := (obeys_turn (Onward.drained r i) f).upholds (w := r.modifyEngine i fun e => { e with queue := others })
          (.modifyEngine r i (fun _ => rfl) (fun _ => id) (fun _ => rfl) fun _ => id)
        generalize hturn : (turn i f).runOn (r.modifyEngine i fun e => { e with queue := others }) = p at hturned ⊢
        obtain ⟨_ | _, z⟩ := p
        · exact ⟨[a], .escape hlt hq (hhead hq) ha hturn⟩
        · obtain ⟨acts, h⟩ := ih (hturned.inbox i (honward.inbox i hinbox)) (t := t + 1) (by omega)
          exact ⟨a :: acts, .turn hlt hq (hhead hq) ha hturn h⟩
    exact ⟨acts, h.of_settleWithin hlt⟩

/-- A turn of a fiber that is in order returns where the types of data inputs are known. -/
theorem turn_returns (hu : InOrder u atRest w) (hT : w.Typed) (hq : (w.engine i).queue = f :: others) (e : Failure) :
    (turn i f).runOn (w.modifyEngine i fun e => { e with queue := others }) ≠ (.error e, v) := by
  intro hturn
  obtain ⟨hescapes, r, hp, -⟩ := turn_eq_error hturn
  have hnode := (hu.take hq).isNode_step (hT.outlined ((show Outlined w w from rfl).frame rfl)) (congrArg Prod.fst hp)
  cases hescapes.symm.trans hnode

/-- Where the types of data inputs are known no failure escapes the loop. -/
theorem Drains.returns (hu : InOrder u atRest w) (hT : w.Typed) (h : Drains i m s w acts out v) : ∃ t, out = .ok t := by
  induction h with
  | idle | limit => exact ⟨_, rfl⟩
  | @pop s f w v others acts out _ hq hidle _ ih =>
    have hnext : Iteration i w ((Play.pop i f others w).drainInbox i) := .pop hq hidle
    exact ih (hu.iteration hnext) (hT.outlined hnext.outlined)
  | @turn s f w z v others a acts out _ hq hready _ hturn _ ih =>
    have hnext : Iteration i w z := .turn hq hready hturn
    exact ih (hu.iteration hnext) (hT.outlined hnext.outlined)
  | escape _ hq _ _ hturn => exact absurd hturn (turn_returns hu hT hq _)

/-- A run with a limit of steps gets through its loop, whatever the graph, the engine and the behaviours. What it returns is
the number of its attempts, at most the limit; the engine counts on by as much; and only the limit leaves something in the
queue. It does return at every point that an engine comes to, where the types of data inputs are known. -/
theorem run_counts (w : World) (i : Nat) {maxSteps : Option Int} {m : Int}
    (hm : maxSteps.getD (w.engine i).settings.maxSteps = m) (hseconds : (w.engine i).settings.maxSeconds = none) :
    ∃ acts, Drains i m 0 (w.drainInbox i) acts ((run i maxSteps).runOn w).1 ((run i maxSteps).runOn w).2 ∧
      (∀ s, ((run i maxSteps).runOn w).1 = .ok s → s = acts.length ∧ 0 ≤ s ∧ (s : Int) ≤ max m 0 ∧
        (((run i maxSteps).runOn w).2.engine i).steps = (w.engine i).steps + s ∧
        ((((run i maxSteps).runOn w).2.engine i).queue ≠ [] → m ≤ s)) ∧
      ∀ u : World, u.engines = #[] → u.disposers = [] → Passage u w → w.Typed → ∃ s, ((run i maxSteps).runOn w).1 = .ok s := by
  have hbudget : budget ((w.drainInbox i).engine i).settings maxSteps none = (m - (0 : Nat)).toNat := by
    simp [budget, (Onward.drainInbox w i).settings i, hseconds, isOver, hm]
  have hrun : (run i maxSteps).runOn w = (drain i (m - (0 : Nat)).toNat 0).runOn (w.drainInbox i) := by
    rw [run, runOn_bind, runOn_modify]
    dsimp only
    rw [runOn_get, hbudget]
  obtain ⟨acts, h⟩ := drains_drain (t := 0) (Onward.inbox_drainInbox w i) rfl
  rw [← hrun] at h
  refine ⟨acts, h, fun s hs => ?_, fun u he hd hw hT => ?_⟩
  · obtain ⟨hcount, hle, hsteps, hleft⟩ := h.counts hs
    have hbefore := Engine.trend_steps.drainInbox (Engine.trend_steps.refl (w.engine i)) i
    rw [Nat.zero_add] at hcount
    refine ⟨hcount, Nat.zero_le s, hle, ?_, hleft⟩
    rw [hsteps, hbefore, hcount]
  · have hu := ((InOrder.start he hd).passage hw).drainInbox i
    exact h.returns hu (hT.outlined ((show Outlined w w from rfl).drainInbox i))

namespace Forever

def first : Wire := ⟨⟨"go", "exec", "again", "exec"⟩, 0⟩

def back : Wire := ⟨⟨"again", "exec_out", "again", "exec"⟩, 1⟩

/-- A node that leads back to itself. -/
def graph : Graph where
  arena := #[
    { id := "go", definition := { typeName := "Go", behaviour := .event none }
      outputs := [{ name := "exec", valueType := ValueType.flowName, wires := [first] }] },
    { id := "again", definition := { typeName := "Again", behaviour := .flow (some (.script [.commit "exec_out"])) }
      inputs := [{ name := "exec", valueType := ValueType.flowName, wires := [first, back] }]
      outputs := [{ name := "exec_out", valueType := ValueType.flowName, wires := [back] }] }]
  ids := ⟨[("go", 0), ("again", 1)]⟩
  wires := [first, back]
  ends := #[some ⟨⟨0, 0⟩, ⟨1, 0⟩⟩, some ⟨⟨1, 0⟩, ⟨1, 0⟩⟩]

def bare : World := { graphs := #[graph] }

def begun : World := ((makeEngine "main" [⟨0, 0⟩, ⟨0, 1⟩] {}).runOn bare).2.begin 0 ⟨0, 0⟩ "exec" none []

theorem typed_bare : bare.Typed := by
  rintro ⟨_ | k, _ | _ | n⟩ s hs hflow
  · cases hs
  · rw [List.mem_singleton.1 hs] at hflow
    cases hflow
  all_goals cases hs

end Forever

open Forever in
/-- A path that never ends is stopped by the limit, and is left in the queue. -/
theorem run_counts_forever : ∃ acts, Drains 0 5 0 (begun.drainInbox 0) acts (.ok 5) ((run 0 (some 5)).runOn begun).2 ∧
    acts.length = 5 ∧ (((run 0 (some 5)).runOn begun).2.engine 0).steps = 5 ∧
    (((run 0 (some 5)).runOn begun).2.engine 0).queue = [0] := by
  obtain ⟨acts, hloop, hcounts, hreturns⟩ := @run_counts begun 0 (some 5) 5 rfl rfl
  have hpassage : Passage bare begun := (Passage.deed (.refl _) (.makeEngine ..)).deed (.begin _ 0 ⟨0, 0⟩ "exec" [] (by simp))
  have htyped : begun.Typed := typed_bare.outlined (by rfl)
  obtain ⟨s, hs⟩ := hreturns bare rfl rfl hpassage htyped
  obtain ⟨hlength, -, hle, hsteps, hleft⟩ := hcounts s hs
  have hqueue : (((run 0 (some 5)).runOn begun).2.engine 0).queue = [0] := by decide +kernel
  have hfive : s = 5 := by
    have := hleft (by rw [hqueue]; simp)
    omega
  subst hfive
  rw [hs] at hloop
  refine ⟨acts, hloop, hlength.symm, ?_, hqueue⟩
  rw [hsteps]
  decide +kernel

end Play

end FlowGraph
