import FlowGraph.Proofs.Acts
import FlowGraph.Proofs.Unwinding

/-!
What becomes of an engine that is disposed of between drains. Its callbacks are run, each once, and nothing happens on it
any more: no path begins, no operation starts, nothing goes wrong and no step is taken, whatever hosts, other threads,
timers and other engines do.
-/
namespace FlowGraph

open World Play

/-- The engine is disposed of and has no operation under way. Since `v` nothing went wrong and no step was taken. -/
structure Dormant (i : Nat) (v w : World) : Prop where
  isDisposed : (w.engine i).isDisposed = true
  pending : (w.engine i).pending = []
  failures : (w.engine i).failures = (v.engine i).failures
  steps : (w.engine i).steps = (v.engine i).steps

namespace Dormant

variable {i j : Nat} {u v w z : World}

theorem of_engine (h : Dormant i v w) (he : z.engine i = w.engine i) : Dormant i v z := by
  refine ⟨?_, ?_, ?_, ?_⟩
  all_goals rw [he]
  · exact h.isDisposed
  · exact h.pending
  · exact h.failures
  · exact h.steps

theorem of_engines (h : Dormant i v w) (he : z.engines = w.engines) : Dormant i v z := h.of_engine (engine_congr he i)

theorem of_local (h : Dormant i v w) (hl : Local j w z) (hj : j ≠ i) : Dormant i v z := h.of_engine (hl.others i (Ne.symm hj))

theorem modifyEngine_of_ne (h : Dormant i v w) (hj : j ≠ i) (g : Engine → Engine) : Dormant i v (w.modifyEngine j g) :=
  h.of_engine (engine_modifyEngine_of_ne hj w g)

/-- A change that neither takes the engine up again nor enters operations, failures or steps. -/
theorem face (h : Dormant i v w) (j : Nat) {g : Engine → Engine}
    (hg : ∀ e : Engine, (g e).isDisposed = e.isDisposed ∧ (e.pending = [] → (g e).pending = []) ∧
      (g e).failures = e.failures ∧ (g e).steps = e.steps) : Dormant i v (w.modifyEngine j g) := by
  by_cases hj : i = j ∧ j < w.engines.size
  · obtain ⟨rfl, hlt⟩ := hj
    have he := engine_modifyEngine_self (w := w) hlt g
    obtain ⟨hd, hp, hf, hs⟩ := hg (w.engine i)
    exact ⟨by rw [he, hd, h.isDisposed], by rw [he, hp h.pending], by rw [he, hf, h.failures], by rw [he, hs, h.steps]⟩
  · refine h.of_engine ?_
    rw [engine_modifyEngine, if_neg fun hk => hj ⟨hk.1.symm, hk.2⟩]

theorem modifyOperation (h : Dormant i v w) (j o : Nat) (g : Operation → Operation) :
    Dormant i v (w.modifyEngine j (·.modifyOperation o g)) :=
  h.face j fun _ => ⟨rfl, id, rfl, rfl⟩

theorem relinquish (h : Dormant i v w) (j o : Nat) : Dormant i v (w.relinquish j o) :=
  relinquish_upholds (h.modifyOperation j o _) h

theorem strike (h : Dormant i v w) (j o : Nat) : Dormant i v (w.strike j o) :=
  h.face j fun e => ⟨rfl, fun hp => by simp [hp], rfl, rfl⟩

theorem begin (h : Dormant i v w) (j : Nat) (x : NodeRef) (output : String) (l : Option Listener)
    (values : List (String × Value)) : Dormant i v (w.begin j x output l values) := by
  by_cases hj : j = i
  · rw [hj, World.begin, if_pos h.isDisposed]
    exact h
  · exact h.of_local (Local.begin w j x output l values) hj

/-- An operation of an engine that is disposed of is taken off the list when it is completed, and that is all. -/
theorem complete (h : Dormant i v w) (j o : Nat) (output : Option String) : Dormant i v (w.complete j o output) := by
  by_cases hj : j = i
  · subst hj
    have hstruck := h.strike j o
    rw [complete_eq, if_pos (by rw [hstruck.isDisposed, Bool.true_or])]
    exact hstruck
  · refine complete_upholds (P := Dormant i v) ?_ ?_ ?_ ?_ ?_ h
    · exact fun w h => h.strike j o
    · exact fun w x h => h.of_engines (engines_chooseOutput w x output)
    · exact fun w e h => h.of_local (Local.report w j e) hj
    · exact fun w x name h => h.begin j x name none []
    · exact fun w e h => h.of_engines (engines_tell w j e)

theorem post (h : Dormant i v w) (j : Nat) (p : Post) : Dormant i v (w.post j p) :=
  h.face j fun _ => ⟨rfl, id, rfl, rfl⟩

theorem finishOperation (h : Dormant i v w) (j o : Nat) (output : Option String) (fromOutside : Bool) :
    Dormant i v (w.finishOperation j o output fromOutside) := by
  refine finishOperation_upholds (P := Dormant i v) ?_ ?_ ?_ h
  · exact fun w h _ _ => h.modifyOperation j o _
  · exact fun w h _ => h.complete j o output
  · exact fun w h _ => h.post j _

theorem drainInbox (h : Dormant i v w) (j : Nat) : Dormant i v (w.drainInbox j) := by
  have hempty : Dormant i v (w.modifyEngine j fun e => { e with inbox := [] }) := h.face j fun _ => ⟨rfl, id, rfl, rfl⟩
  refine drainInbox_upholds hempty fun p _ s hs => ?_
  cases p with
  | complete o output => exact hs.complete j o output
  | begin x output l values => exact hs.begin j x output l values

section Calls

variable {cur : Nat → Option Nat}

/-- Work on another engine is all that the property covers. -/
theorem ne_of_engaged (hi : cur i = none) (hj : Engaged (fun w _ => InOrder u cur w ∧ Dormant i v w)
    (fun c => ∀ j k input, c.role = .flow j k input → cur j = some k) j) : j ≠ i := by
  rintro rfl
  rcases hj with ⟨w, _, ⟨-, h⟩, hopen⟩ | ⟨x, f, input, hx⟩
  · rw [h.isDisposed] at hopen
    cases hopen
  · rw [hx j f input rfl] at hi
    cases hi

/-- Short of disposing of engines, nothing happens on one that is disposed of and has no fiber at work. -/
theorem manner (u v : World) (hi : cur i = none) : Manner (fun w _ => InOrder u cur w ∧ Dormant i v w)
    fun c => ∀ j k input, c.role = .flow j k input → cur j = some k where
  stamp g x w r h := ⟨(InOrder.closed u cur).stamp g x (r := r) h.1, h.2.of_engines (engines_stamp w g x)⟩
  write {_ r} h _ hc _ _ _ hn := ⟨(InOrder.closed u cur).write (r := r) h.1 hc hn, h.2.of_engines rfl⟩
  setState hc x _ r h := ⟨(InOrder.closed u cur).setState hc x (r := r) h.1, h.2.of_engines rfl⟩
  setInput x place y _ r h := ⟨(InOrder.closed u cur).setInput x place y (r := r) h.1, h.2.of_engines rfl⟩
  assign {_ r} h _ _ _ _ _ hg := ⟨(InOrder.closed u cur).assign (r := r) h.1 hg, h.2.of_engines rfl⟩
  record e he _ r h := ⟨(InOrder.closed u cur).record e he (r := r) h.1, h.2.of_engines rfl⟩
  tell j e he w r h := ⟨(InOrder.closed u cur).tell j e he (r := r) h.1, h.2.of_engines (engines_tell w j e)⟩
  hold hc _ r h := ⟨(InOrder.closed u cur).hold hc (r := r) h.1, h.2.of_engines rfl⟩
  schedule s _ r h := ⟨(InOrder.closed u cur).schedule s (r := r) h.1, h.2.of_engines rfl⟩
  store s _ r h := ⟨(InOrder.closed u cur).store s (r := r) h.1, h.2.of_engines rfl⟩
  subscribe t x _ r h := ⟨(InOrder.closed u cur).subscribe t x (r := r) h.1, h.2.of_engines rfl⟩
  unsubscribe s _ r h := ⟨(InOrder.closed u cur).unsubscribe s (r := r) h.1, h.2.of_engines rfl⟩
  enlist x _ hd _ r h := ⟨(InOrder.closed u cur).enlist x hd (r := r) h.1, h.2.of_engines rfl⟩
  unlist x _ r h := ⟨(InOrder.closed u cur).unlist x (r := r) h.1, h.2.of_engines rfl⟩
  report {j} hj id t x hx w r h := ⟨(InOrder.closed u cur).report (hj.mono fun _ _ h => h.1) id t x hx (r := r) h.1,
    h.2.of_local (Local.report w j _) (ne_of_engaged hi hj)⟩
  begin j x output l hl values hx _ r h :=
    ⟨(InOrder.closed u cur).begin j x output hl values hx (r := r) h.1, h.2.begin j x output l values⟩
  commit {x j f input} hc output l hl w r h := by
    have hj : j ≠ i := by
      rintro rfl
      rw [hc j f input rfl] at hi
      cases hi
    exact ⟨(InOrder.closed u cur).commit hc output hl (r := r) h.1, h.2.of_local (Local.commitFiber w j f x output l) hj⟩
  stop {x j f _} hc w r h := by
    refine ⟨(InOrder.closed u cur).stop hc (r := r) h.1, ?_⟩
    simp only [World.endFiber]
    split
    · exact h.2
    · exact h.2.face j fun _ => ⟨rfl, id, rfl, rfl⟩
  register {_ r} h j hj x hx input := ⟨(InOrder.closed u cur).register (r := r) h.1 (hj.mono fun _ _ h => h.1) x hx input,
    h.2.modifyEngine_of_ne (ne_of_engaged hi hj) _⟩
  enrol {j o _} hd _ r h := ⟨(InOrder.closed u cur).enrol hd (r := r) h.1, h.2.modifyOperation j o _⟩
  finish j o output _ r h :=
    ⟨(InOrder.closed u cur).finish j o output (r := r) h.1, h.2.finishOperation j o output false⟩
  dismiss {_ r} h j o hj ho := ⟨(InOrder.closed u cur).dismiss (r := r) h.1 hj ho, (h.2.strike j o).relinquish j o⟩

/-- What a disposed engine still undoes leaves it dormant. -/
theorem endures (u v : World) (cur : Nat → Option Nat) (hj : j ≠ i) :
    Endures (Upholds fun w => InOrder u cur w ∧ Dormant i v w) j where
  close {w r} h hd := by
    obtain ⟨rfl, h⟩ := h
    exact ⟨rfl, (InOrder.closed u cur).close (r := w) h.1 hd, h.2.modifyEngine_of_ne hj _⟩
  relinquish {w r} h ho hd o := by
    obtain ⟨rfl, h⟩ := h
    exact ⟨rfl, h.1.relinquish j o, h.2.relinquish j o⟩
  release {w r} h ho hd := by
    obtain ⟨rfl, h⟩ := h
    refine ⟨rfl, (InOrder.closed u cur).release (r := w) h.1 ?_ hd, h.2.modifyEngine_of_ne hj _⟩
    exact ho.elim fun v ⟨s, hv, hopen⟩ => ⟨v, s, hv.2.1, hopen⟩
  clear {w r} h ho hd := by
    obtain ⟨rfl, h⟩ := h
    refine ⟨rfl, (InOrder.closed u cur).clear (r := w) h.1 ?_ hd, h.2.modifyEngine_of_ne hj _⟩
    exact ho.elim fun v ⟨s, hv, hopen⟩ => ⟨v, s, hv.2.1, hopen⟩

/-- Nothing happens on an engine that is disposed of, whatever contexts do that are bound to no fiber of it. -/
theorem conduct (u v : World) (hi : cur i = none) : Conduct (Upholds fun w => InOrder u cur w ∧ Dormant i v w)
    fun c => ∀ j k input, c.role = .flow j k input → cur j = some k := by
  have hO := InOrder.conduct u cur
  have hB := (manner u v hi).bearing (fun w h => hO.nodes ⟨rfl, h.1⟩) (fun w h => hO.enrolled ⟨rfl, h.1⟩)
    (fun w h x b => hO.function ⟨rfl, h.1⟩) fun w h x b => hO.async ⟨rfl, h.1⟩
  refine hB.conduct_of_ne (fun hj => endures u v cur hj) fun hS fuel => ?_
  rintro w r ⟨⟨rfl, h⟩, hSw⟩
  rw [disposeWithin_disposed h.2.isDisposed]
  exact ⟨rfl, ⟨rfl, h⟩, hSw⟩

end Calls

theorem aloof (u v : World) (i : Nat) : Aloof i u (Dormant i v) where
  of_engine h _ he := h.of_engine he
  conduct hj _ := conduct u v (InOrder.onlyAt_of_ne hj.symm)
  drainInbox h j := h.drainInbox j

/-- Whatever hosts and other engines do leaves it dormant. -/
theorem hosted (u v : World) (i : Nat) : Hosted (fun c => ∀ j k input, c.role = .flow j k input → atRest j = some k)
    fun w => InOrder u atRest w ∧ Dormant i v w where
  conduct := conduct u v rfl
  push w h name nodes eventNodes settings := by
    refine ⟨(InOrder.hosted u).push w h.1 name nodes eventNodes settings, h.2.of_engine ?_⟩
    have hi : i ≠ w.engines.size := by
      rintro rfl
      have hnone : w.engine w.engines.size = {} := by simp [World.engine]; rfl
      have hd := h.2.isDisposed
      rw [hnone] at hd
      cases hd
    simp only [World.engine, Array.getElem?_push, if_neg hi]
  observe w h j b := ⟨(InOrder.hosted u).observe w h.1 j b, h.2.face j fun _ => ⟨rfl, id, rfl, rfl⟩⟩
  post w h j x output _ values hl := ⟨(InOrder.hosted u).post w h.1 j x output values hl, h.2.post j _⟩
  finish w h j o output fromOutside ho :=
    ⟨(InOrder.hosted u).finish w h.1 j o output fromOutside ho, h.2.finishOperation j o output fromOutside⟩
  drainInbox w h j := ⟨h.1.drainInbox j, h.2.drainInbox j⟩

theorem deed (hu : InOrder u atRest w) (h : Dormant i v w) (hd : Deed w z) : Dormant i v z :=
  ((hosted u v i).deed (fun _ hc j k input hrole => absurd hrole (hc j k input))
    (fun h he hd => ⟨h.1.frame he hd, h.2.of_engines he⟩)
    (fun j b hv => hv ▸ ⟨hu.setWake j b, h.face j fun _ => ⟨rfl, id, rfl, rfl⟩⟩) ⟨hu, h⟩ hd).2

end Dormant

/-- What may come later: whatever a host does, time that passes, and iterations of any engine. -/
inductive Later : World → World → Prop where
  | refl (w : World) : Later w w
  | deed {u w v : World} : Later u w → Deed w v → Later u v
  | advance {u w : World} (seconds : Value) : Later u w → Later u ((Play.advance seconds).runOn w).2
  | iteration {u w v : World} {i : Nat} : Later u w → Iteration i w v → Later u v

namespace InOrder

variable {u v w : World}

theorem timely (u : World) : Timely (InOrder u atRest) where
  aside h _ he hd := h.frame he hd
  finish _ h j o output fromOutside := h.finishOperation j o output fromOutside

theorem later (h : InOrder u atRest w) (hl : Later w v) : InOrder u atRest v := by
  induction hl with
  | refl => exact h
  | deed _ hd ih => exact ih.deed hd
  | advance seconds _ ih => exact ((timely u).obeys_advance seconds).upholds ih
  | iteration _ hi ih => exact ih.iteration hi

end InOrder

/-- Nothing happens on the engine any more: no path waits for its turn and no operation is under way, nothing went wrong
and no step was taken since `v`, and a run has nothing to do. -/
structure Inert (i : Nat) (v w : World) : Prop extends Dormant i v w where
  queue : (w.engine i).queue = []

namespace Inert

variable {i j : Nat} {u v w z : World}

theorem subdued (h : Inert i v w) : Subdued i none True w :=
  ⟨fun _ => h.isDisposed, fun _ k hk => by rw [h.queue] at hk; cases hk⟩

theorem of_subdued (h : Dormant i v w) (hs : Subdued i none True w) : Inert i v w where
  toDormant := h
  queue := by
    apply List.eq_nil_iff_forall_not_mem.2
    intro k hk
    obtain ⟨_, hf, -⟩ := hs.queue h.isDisposed k hk
    cases hf

theorem timely (i : Nat) (v : World) : Timely (Inert i v) where
  aside h _ he _ := of_subdued (h.of_engines he) (h.subdued.of_engines he)
  finish _ h j o output fromOutside :=
    of_subdued (h.finishOperation j o output fromOutside) (h.subdued.finishOperation j o output fromOutside)

theorem deed (hu : InOrder u atRest w) (h : Inert i v w) (hd : Deed w z) : Inert i v z :=
  of_subdued (h.toDormant.deed hu hd) (h.subdued.passage hu (.deed (.refl w) hd)).2

theorem ne_of_iteration (h : Inert i v w) (hi : Iteration j w z) : j ≠ i := by
  rintro rfl
  exact hi.queue_ne_nil h.queue

theorem iteration (hu : InOrder u atRest w) (h : Inert i v w) (hi : Iteration j w z) : Inert i v z :=
  of_subdued ((Dormant.aloof u v i).iteration hu h.toDormant hi (h.ne_of_iteration hi)) (h.subdued.iteration hu hi)

section Disposal

/-- Once the event nodes of an engine are disposed of the engine counts as disposed of. -/
theorem released (fuel : Nat) (hu : InOrder u atRest w) (hi : i < w.engines.size) (hd : (w.engine i).isDisposed = false) :
    InOrder u atRest (Play.released (disposeWithin fuel) i w) ∧ i < (Play.released (disposeWithin fuel) i w).engines.size ∧
      ((Play.released (disposeWithin fuel) i w).engine i).isDisposed = true := by
  have hO := InOrder.conduct u atRest
  have hopened : Opened (Upholds (InOrder u atRest)) i := ⟨w, w, ⟨rfl, hu⟩, hd⟩
  have hshut := (InOrder.closed u atRest).close (r := w) hu hd
  have honward : Onward (w.modifyEngine i fun e => { e with isDisposed := true }) (Play.released (disposeWithin fuel) i w) := by
    have hN := (Onward.drained (w.modifyEngine i fun e => { e with isDisposed := true }) i).toConduct
    exact (obeys_disposeEvents hN (.inr (engages_all i)) fuel _).upholds (.refl _)
  have hi : i < (w.modifyEngine i fun e => { e with isDisposed := true }).engines.size := by simpa using hi
  refine ⟨?_, by rw [honward.size]; exact hi, honward.isDisposed i ?_⟩
  · exact (obeys_disposeEvents hO (.inl hopened) fuel _).upholds hshut
  · rw [engine_modifyEngine_self (by simpa using hi)]

/-- Operations that are given up leave the engine alone. -/
theorem dormant_abandonAll (fuel : Nat) (hu : InOrder u atRest w) (h : Dormant i v w) (os : List Nat) :
    Dormant i v ((os.forM (abandon (disposeWithin fuel) i)).runOn w).2 := by
  have hC : Conduct (Upholds fun w => InOrder u atRest w ∧ Dormant i v w) _ := Dormant.conduct u v rfl
  have hgiven : Obeys (Upholds fun w => InOrder u atRest w ∧ Dormant i v w) (os.forM (abandon (disposeWithin fuel) i)) := by
    refine .of_forM fun o _ s r hs => ?_
    refine keeps_abandon hC.toBearing (obeys_disposeWithin hC fuel) (by rw [hs.1]) (enrolled_operation hC.toBearing hs i o) ?_
    exact ⟨by rw [hs.1], hs.2.1.relinquish i o, hs.2.2.relinquish i o⟩
  exact (hgiven.upholds ⟨hu, h⟩).2

/-- Who disposes of an engine leaves it inert. -/
theorem of_dispose (hu : InOrder u atRest w) (hi : i < w.engines.size) (hd : (w.engine i).isDisposed = false) :
    Inert i ((Play.dispose i).runOn w).2 ((Play.dispose i).runOn w).2 := by
  obtain ⟨hs, hi', hshut⟩ := released w.engines.size hu hi hd
  have hqueue := queue_disposeWithin w.engines.size hd
  rw [runOn_dispose]
  rw [runOn_disposeWithin hd] at hqueue ⊢
  generalize Play.released (disposeWithin w.engines.size) i w = s at hs hi' hshut hqueue ⊢
  have hidle : InOrder u atRest (s.modifyEngine i fun e => { e with pending := [] }) :=
    hs.face i (fun _ => ⟨rfl, rfl, rfl, rfl⟩) (fun _ => id) (hs.engine i).disposers
  have he := engine_modifyEngine_self hi' fun e => { e with pending := [] }
  have hdormant : Dormant i (s.modifyEngine i fun e => { e with pending := [] })
      (s.modifyEngine i fun e => { e with pending := [] }) :=
    ⟨by rw [he, hshut], by rw [he], rfl, rfl⟩
  have hgiven := dormant_abandonAll w.engines.size hidle hdormant (s.engine i).pending
  have hlast := hgiven.face i (g := fun e => { e with queue := [], inbox := [] }) fun _ => ⟨rfl, id, rfl, rfl⟩
  exact ⟨⟨hlast.isDisposed, hlast.pending, rfl, rfl⟩, hqueue⟩

end Disposal

/-- An engine that is inert stays so. -/
theorem later (hu : InOrder u atRest w) (h : Inert i v w) (hl : Later w z) : Inert i v z := by
  induction hl with
  | refl => exact h
  | deed hl hd ih => exact ih.deed (hu.later hl) hd
  | advance seconds _ ih => exact ((timely i v).obeys_advance seconds).upholds ih
  | iteration hl hi ih => exact ih.iteration (hu.later hl) hi

end Inert

/-- An engine that is disposed of between drains is inert. Each callback that its event nodes had registered is run once,
whatever fails. From then on, whatever happens, no path waits and no operation is under way, nothing goes wrong, no node is
triggered and no listener runs, and a run takes no step. -/
theorem Play.inert_of_dispose {u w : World} (he : u.engines = #[]) (hd : u.disposers = []) (hw : Later u w) {i : Nat}
    (hi : i < w.engines.size) (hopen : (w.engine i).isDisposed = false) :
    ((dispose i).runOn w).1 = .ok () ∧
      (∀ x ∈ (w.engine i).eventNodes, RunOnce x (eventsOfDispose i w) w ((dispose i).runOn w).2) ∧
      ∀ z, Later ((dispose i).runOn w).2 z → Inert i ((dispose i).runOn w).2 z ∧ (∀ z', ¬ Iteration i z z') ∧
        ∀ maxSteps maxSeconds, (run i maxSteps maxSeconds).runOn z = (.ok 0, z.drainInbox i) := by
  have hu := (InOrder.start he hd).later hw
  refine ⟨by rw [runOn_dispose, runOn_disposeWithin hopen], fun x hx => runOnce_dispose hopen hx, fun z hz => ?_⟩
  have hinert := (Inert.of_dispose hu hi hopen).later (hu.deed (.dispose w i)) hz
  exact ⟨hinert, fun z' hi => hi.queue_ne_nil hinert.queue, run_nil hinert.isDisposed hinert.queue⟩

namespace Farewell

/-- An event node with two callbacks, of which the second one fails. -/
def bare : World := Rollback.world [Rollback.node "a" [.onDispose [.trace (.str "a")], .onDispose [.raise .value "no"]]]

def made : World := ((makeEngine "main" [⟨0, 0⟩] {}).runOn bare).2

def disposed : World := ((dispose 0).runOn made).2

end Farewell

open Farewell in
/-- Both callbacks are run although the one that is run first fails, and an event that happens later begins no path. -/
theorem Play.inert_of_dispose_farewell : made.disposers.length = 2 ∧ (eventsOfDispose 0 made).length = 2 ∧
    RunOnce ⟨0, 0⟩ (eventsOfDispose 0 made) made disposed ∧ (disposed.engine 0).failures.length = 1 ∧
    Inert 0 disposed (disposed.begin 0 ⟨0, 0⟩ "exec" none []) := by
  have hmade : Later bare made := .deed (.refl _) (.makeEngine _ "main" _ {})
  obtain ⟨-, hran, hlater⟩ := Play.inert_of_dispose (u := bare) rfl rfl hmade (i := 0) (by decide +kernel) (by decide +kernel)
  refine ⟨by decide +kernel, by decide +kernel, hran ⟨0, 0⟩ (by decide +kernel), by decide +kernel, ?_⟩
  exact (hlater _ (.deed (.refl _) (.begin _ 0 ⟨0, 0⟩ "exec" [] fun _ hl => by cases hl))).1

end FlowGraph
