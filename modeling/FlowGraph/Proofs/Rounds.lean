import FlowGraph.Proofs.Relays
import Mathlib.Algebra.Ring.Nat

/-!
The rounds of a relay. Where a fiber comes to a node that relays, it is sent along one path after the other, until all have
come back or the fiber fails on one of them; then none of the later ones ever begins.
-/
namespace FlowGraph

open World Play

namespace Engine

/-- The fiber is at work, and is the given one. -/
structure Employs (f : Nat) (y : Fiber) (e : Engine) : Prop where
  current : e.current = some f
  inside : f < e.fibers.size
  fiber : e.fiber f = y

theorem Employs.growing (f : Nat) (y : Fiber) : Growing (Employs f y) where
  congr h hf _ hc _ := ⟨hc.trans h.current, hf ▸ h.inside, (fiber_congr hf f).trans h.fiber⟩
  enter h he := by
    have hsize := he.size
    have hinside := h.inside
    exact ⟨he.current.trans h.current, by omega, (he.fiber_old hinside).trans h.fiber⟩
  current h hc := by
    cases h.current.symm.trans hc
    exact Nat.lt_irrefl _ h.inside

end Engine

/-- While what feeds a node is worked out, the fiber at work stays as it is. -/
theorem InOrder.fiber_approach {u w : World} {i f : Nat} (h : InOrder u (onlyAt i f) w) (x : NodeRef)
    (hopen : (((approach i f x).runOn w).2.engine i).isDisposed = false) :
    (((approach i f x).runOn w).2.engine i).fiber f =
      { (w.engine i).fiber f with next := none, steps := ((w.engine i).fiber f).steps + 1, committed := false } := by
  generalize hy : { (w.engine i).fiber f with
    next := none, steps := ((w.engine i).fiber f).steps + 1, committed := false } = y
  have hC : Conduct (Upholds (Steady i (Engine.Employs f y))) Context.Free := by
    refine (closed_steady (Engine.Employs.growing f y) fun c hc => hc.admits i _).conduct (fun v hv p hp => ?_)
      (fun v hv j op hop d hd => ?_) (fun _ _ _ _ _ => ?_) fun _ _ _ _ _ _ _ => ?_
    · exact (hv.nodes p hp).within fun _ => id
    · exact (hv.operations j op hop d hd).within fun _ => id
    · rintro _ _ _ ⟨⟩
    · rintro _ _ _ ⟨⟩
  have hcurrent : (w.engine i).current = some f := (h.engine i).current.trans (onlyAt_self i f)
  have hinside : f < (w.engine i).fibers.size := (h.engine i).accounted.current_lt hcurrent
  have hsteady : Steady i (Engine.Employs f y) (w.modifyEngine i (·.modifyFiber f fun f => { f with
      next := none, steps := f.steps + 1, committed := false })) := by
    have hdeparted := (InOrder.duty u i f).depart h
    refine ⟨hdeparted.there, .inr ?_, hdeparted.disposers, fun j => (hdeparted.engine j).disposers⟩
    rw [engine_modifyEngine_self h.there]
    refine ⟨hcurrent, by simpa using hinside, ?_⟩
    rw [Engine.fiber_modifyFiber, if_pos ⟨rfl, hinside⟩]
    exact hy
  rcases (upholds_approach hC x hsteady).engine with hd | hshows
  · rw [hopen] at hd
    cases hd
  · exact hshows.fiber

namespace Bound

variable {s : Seat} {u w : World} {cur : Nat → Option Nat}

/-- What is bound to fibers is bound to those that are there. -/
theorem elder (h : Bound u cur s.node w) (hold : s.fiber < s.size) (hsize : (w.engine s.engine).fibers.size ≤ s.size) :
    Retained w cur s.Elder w := by
  have hfree {c : Context} (hc : Context.Bound s.node c ∧ c.Free) : s.Elder c ∧ c.Free := by
    refine ⟨fun hnode => ?_, hc.2⟩
    obtain ⟨j, k, input, hrole⟩ := hc.1 hnode
    exact absurd hrole (hc.2 j k input)
  refine ⟨h.toInOrder.rebase, fun j => ⟨fun k l hl c hc => ?_, fun p hp => ?_, fun op hop d hd => ?_⟩, fun p hp => ?_⟩
  · intro hnode
    obtain ⟨j', k', input, hrole⟩ := (h.within j).listeners k l hl c hc hnode
    obtain ⟨rfl, rfl⟩ := ((h.engine j).listeners k l hl).2 c hc j' k' input hrole
    refine ⟨_, _, _, hrole, ?_⟩
    rintro rfl
    apply Nat.lt_of_lt_of_le _ hsize
    apply Decidable.byContradiction
    intro hout
    rw [Engine.fiber_out (Nat.not_lt.1 hout)] at hl
    cases hl
  · have hpost := (h.within j).posts p hp
    have hpostFree := (h.engine j).posts p hp
    cases p with
    | complete => trivial
    | begin y output l values =>
      refine ⟨hpost.1.imp_right fun _ => ⟨⟨y, .flow s.engine s.fiber ""⟩, fun _ => ⟨_, _, _, rfl, fun _ => hold⟩, rfl⟩, ?_⟩
      exact fun z hz c hc => (hfree ⟨hpost.2 z hz c hc, hpostFree z hz c hc⟩).1
  · have hbound := (h.within j).disposers op hop d hd
    have hfreeOp := (h.engine j).disposers op hop d hd
    cases d with
    | script c actions => exact (hfree ⟨hbound, hfreeOp⟩).1
    | _ => trivial
  · have hbound := h.undone p hp
    have hfreeNode := h.disposers p hp
    obtain ⟨y, d⟩ := p
    cases d with
    | script c actions => exact (hfree ⟨hbound, hfreeNode⟩).1
    | _ => trivial

end Bound

/-- A node that commits the fiber or ends its path has done its part. -/
theorem Play.runOn_visit_flow {v r : World} {i f : Nat} {x : NodeRef} {input : String} {b : FlowBehaviour}
    (hb : (v.node x).definition.behaviour = .flow (some b))
    (hrun : (b.run ⟨x, .flow i f input⟩).runOn v = (.ok (), r)) (hcommitted : ((r.engine i).fiber f).committed = true) :
    (visit i f x input).runOn v = (.ok (), r.tellEnded i x) := by
  have hinvoke : (invoke x .triggered ((some b).map fun b => b.run ⟨x, .flow i f input⟩)).runOn v = (.ok (), r) := by
    simp only [invoke, Option.map_some, runOn_bind, runOn_outcome, hrun]
    rfl
  rw [visit, runOn_get]
  simp only [hb]
  rw [runFlow, runOn_bind, hinvoke]
  dsimp only
  rw [runOn_get]
  simp only [hcommitted, Bool.not_true, Bool.false_and, Bool.false_eq_true, if_false]
  rfl

namespace Relay

/-- The node is run, and the first path begins. -/
theorem runOn_visit {R : Relay} {b : FlowBehaviour} {w : World} (hinside : R.engine < w.engines.size)
    (hold : R.fiber < (w.engine R.engine).fibers.size)
    (hb : (w.node R.node).definition.behaviour = .flow (some b))
    (hrun : (b.run R.context).runOn w = (.ok (), R.go 0 w)) :
    (visit R.engine R.fiber R.node R.input).runOn w = (.ok (), (R.go 0 w).tellEnded R.engine R.node) :=
  runOn_visit_flow hb hrun (R.committed_go hinside hold 0)

/-- A listener begins the next path. -/
theorem runOn_answer {R : Relay} {k : Nat} {w : World} (hR : R.Hands) (hx : R.Works w) (hk : k < R.last)
    (hopen : ((w.engine R.engine).fiber R.fiber).committed = false) :
    (answer (some R.node) (R.listener k)).runOn w = (.ok (), R.go (k + 1) w) := by
  rw [answer, runOn_bind, runOn_outcome, hR.answers k hk w hx hopen]
  rfl

theorem taken_seat {R : Relay} {w : World} (hx : R.Works w) (hold : R.fiber < (w.engine R.engine).fibers.size) :
    (R.seat (w.engine R.engine).fibers.size).Taken w where
  flow := hx.flow
  silent := hx.silent
  old := hold
  inside := Nat.le_refl _

/-- A fiber at work that waits for nobody has the seat of the node, and its path is above the listeners that it has. -/
theorem along_seat {R : Relay} {u w : World} (h : Bound u (onlyAt R.engine R.fiber) R.node w)
    (hpending : ((w.engine R.engine).fiber R.fiber).pending = 0)
    (hwritten : ((w.engine R.engine).fiber R.fiber).isWritten = true)
    (haborted : ((w.engine R.engine).fiber R.fiber).isAborted = false)
    (hunfinished : ((w.engine R.engine).fiber R.fiber).finished = false)
    (hsteps : ((w.engine R.engine).fiber R.fiber).steps ≠ 0)
    (hl : ((w.engine R.engine).fiber R.fiber).listeners = R.below) :
    Along (R.seat (w.engine R.engine).fibers.size) w R.below (w.node R.node).outputs (some R.fiber) w := by
  have hcurrent := (h.engine R.engine).current.trans (InOrder.onlyAt_self R.engine R.fiber)
  have hold := (h.engine R.engine).accounted.current_lt hcurrent
  have hhousehold : (w.engine R.engine).Household (w.engine R.engine).fibers.size R.fiber :=
    .found (h.engine R.engine).accounted hcurrent hpending hwritten fun hb => hsteps hb.steps
  refine ⟨h.elder (s := R.seat (w.engine R.engine).fibers.size) hold (Nat.le_refl _), rfl, ⟨h.there,
    .inr ⟨hhousehold, hcurrent, ?_, ?_⟩, h.disposers, fun j => (h.engine j).disposers⟩, ⟨hunfinished, [], hl, ?_⟩, rfl⟩
  · rintro g ⟨⟩
    exact .self
  · rintro g ⟨⟩
    exact haborted
  · exact fun _ hx => absurd hx List.not_mem_nil

/-- The fiber has the next turn, and comes to the node. -/
structure Comes (R : Relay) (route : Route) (others : List Nat) (w : World) : Prop where
  queue : (w.engine R.engine).queue = R.fiber :: others
  isReady : ((w.engine R.engine).fiber R.fiber).isReady = true
  next : ((w.engine R.engine).fiber R.fiber).next = some route
  ends : ∃ ends, (w.graph route.graph).endsOf route.wire = some ends ∧ ⟨route.graph, ends.target.node⟩ = R.node
  input : route.wire.link.input = R.input
  listeners : ((w.engine R.engine).fiber R.fiber).listeners = R.below
  written : ((atWork R.engine R.fiber others w).applyEntry R.engine R.fiber).1 = .ok ()
  resolved : ((approach R.engine R.fiber R.node).runOn
    ((atWork R.engine R.fiber others w).applyEntry R.engine R.fiber).2).1 = .ok ()

/-- Wherever the node is run for the fiber, it begins the first path. -/
def Begins (R : Relay) (w : World) : Prop :=
  R.Works w → ((w.engine R.engine).fiber R.fiber).committed = false →
    ∃ b, (w.node R.node).definition.behaviour = .flow (some b) ∧ (b.run R.context).runOn w = (.ok (), R.go 0 w)

namespace Comes

variable {R : Relay} {route : Route} {others : List Nat} {u w : World} {b : Option FlowBehaviour}

theorem inside (h : R.Comes route others w) : R.engine < w.engines.size := by
  apply Decidable.byContradiction
  intro hout
  have hq := h.queue
  simp [World.engine, hout] at hq
  cases hq

/-- Where the fiber comes to the node, the node may be run. -/
theorem bound (h : R.Comes route others w) (hx : R.Works w) (hw : Bound w atRest R.node w) :
    Bound w (onlyAt R.engine R.fiber) R.node (R.reached others w) := by
  have htaken : Bound w (onlyAt R.engine R.fiber) R.node (atWork R.engine R.fiber others w) :=
    ⟨hw.toRetained.take h.queue, hw.outlined.frame rfl⟩
  have hwritten : Bound w (onlyAt R.engine R.fiber) R.node ((atWork R.engine R.fiber others w).applyEntry R.engine R.fiber).2 :=
    ⟨htaken.toRetained.applyEntry, htaken.outlined.applyEntry R.engine R.fiber⟩
  obtain ⟨b, hb⟩ := hx.flow
  exact (Bound.duty hb R.engine R.fiber).approach hwritten R.node

theorem old (h : R.Comes route others w) (hx : R.Works w) (hw : Bound w atRest R.node w) :
    R.fiber < ((R.reached others w).engine R.engine).fibers.size := by
  have hbound := h.bound hx hw
  have hcurrent := (hbound.engine R.engine).current.trans (InOrder.onlyAt_self R.engine R.fiber)
  exact (hbound.engine R.engine).accounted.current_lt hcurrent

theorem works (h : R.Comes route others w) (hx : R.Works w) (hw : Bound w atRest R.node w) : R.Works (R.reached others w) :=
  hx.outlined (h.bound hx hw).outlined

/-- The fiber as it comes to the node. -/
theorem fiber (h : R.Comes route others w) (hw : Bound w atRest R.node w)
    (hopen : ((R.reached others w).engine R.engine).isDisposed = false) :
    ((R.reached others w).engine R.engine).fiber R.fiber = { (w.engine R.engine).fiber R.fiber with
      isWritten := true, next := none, steps := ((w.engine R.engine).fiber R.fiber).steps + 1, committed := false } := by
  have htaken : InOrder w (onlyAt R.engine R.fiber) (atWork R.engine R.fiber others w) := hw.toInOrder.take h.queue
  have hwritten := htaken.applyEntry
  have hinside := ((hw.engine R.engine).accounted.tallied R.fiber).queued (by rw [h.queue]; exact List.mem_cons_self)
  rw [reached, hwritten.fiber_approach R.node hopen, engine_applyEntry htaken.there, Engine.fiber_modifyFiber,
    engine_atWork h.inside, if_pos ⟨rfl, hinside.1⟩]
  rfl

/-- Where the fiber comes to the node, its path is above the listeners that it has. -/
theorem along (h : R.Comes route others w) (hx : R.Works w) (hw : Bound w atRest R.node w)
    (hopen : ((R.reached others w).engine R.engine).isDisposed = false) :
    Along (R.seat ((R.reached others w).engine R.engine).fibers.size) (R.reached others w) R.below
      ((R.reached others w).node R.node).outputs (some R.fiber) (R.reached others w) := by
  have hfiber := h.fiber hw hopen
  have hqueued := ((hw.engine R.engine).accounted.tallied R.fiber).queued (by rw [h.queue]; exact List.mem_cons_self)
  have hready := h.isReady
  simp only [Fiber.isReady, Fiber.isComplete, Bool.and_eq_true, Bool.not_eq_true', Bool.or_eq_false_iff] at hready
  have hbound := h.bound hx hw
  refine along_seat hbound ?_ ?_ ?_ ?_ ?_ ?_
  all_goals rw [hfiber]
  · exact hqueued.2.2
  · exact hready.1.1
  · exact hqueued.2.1
  · exact Nat.succ_ne_zero _
  · exact h.listeners

/-- The turn in which the node is triggered. -/
theorem runOn_step (h : R.Comes route others w) (hx : R.Works w) (hw : Bound w atRest R.node w)
    (hbegins : R.Begins (R.reached others w)) (hopen : ((R.reached others w).engine R.engine).isDisposed = false) :
    (step R.engine R.fiber).runOn (atWork R.engine R.fiber others w) =
      (.ok (), (R.go 0 (R.reached others w)).tellEnded R.engine R.node) := by
  have hbound := h.bound hx hw
  have huncommitted : (((R.reached others w).engine R.engine).fiber R.fiber).committed = false := by rw [h.fiber hw hopen]
  obtain ⟨b, hb, hrun⟩ := hbegins (h.works hx hw) huncommitted
  have hvisit := runOn_visit hbound.there (h.old hx hw) hb hrun
  obtain ⟨ends, hends, hnode⟩ := h.ends
  have htaken : Bound w (onlyAt R.engine R.fiber) R.node (atWork R.engine R.fiber others w) :=
    ⟨hw.toRetained.take h.queue, hw.outlined.frame rfl⟩
  have hinside := ((hw.engine R.engine).accounted.tallied R.fiber).queued (by rw [h.queue]; exact List.mem_cons_self)
  have hengine := engine_applyEntry htaken.there R.fiber
  rw [engine_atWork h.inside] at hengine
  have houtlined := (htaken.outlined.applyEntry R.engine R.fiber).endsOf route.graph route.wire
  have happly : (atWork R.engine R.fiber others w).applyEntry R.engine R.fiber =
      (.ok (), ((atWork R.engine R.fiber others w).applyEntry R.engine R.fiber).2) := Prod.ext h.written rfl
  have hresolved : (approach R.engine R.fiber R.node).runOn ((atWork R.engine R.fiber others w).applyEntry R.engine R.fiber).2 =
      (.ok (), R.reached others w) := Prod.ext h.resolved (by rw [reached])
  rw [FlowGraph.Play.runOn_step, happly]
  dsimp only
  have hnext : ((((atWork R.engine R.fiber others w).applyEntry R.engine R.fiber).2.engine R.engine).fiber R.fiber).next =
      some route := by
    rw [hengine, Engine.fiber_modifyFiber, if_pos ⟨rfl, hinside.1⟩]
    exact h.next
  rw [runOn_proceed_next hnext (houtlined.trans hends), hnode, h.input, runOn_bind, hresolved]
  exact hvisit

end Comes

section Resumed

variable {R : Relay} {k n : Nat} {u z : World} {outs : List Socket} {others : List Nat}

/-- The turn in which a listener begins the next path. -/
theorem runOn_step (hR : R.Hands) (hs : (R.seat n).Taken u) (h : Along (R.seat n) u (R.stack k) outs none z) (hx : R.Works u)
    (hopen : (z.engine R.engine).isDisposed = false) (hk : k < R.last) (hq : (z.engine R.engine).queue = R.fiber :: others)
    (hnext : ((z.engine R.engine).fiber R.fiber).next = none)
    (hl : ((z.engine R.engine).fiber R.fiber).listeners = R.stack k)
    (hpending : ((z.engine R.engine).fiber R.fiber).pending = 0) :
    ∃ v, (step R.engine R.fiber).runOn (atWork R.engine R.fiber others z) = (.ok (), v) ∧
      v = R.go (k + 1) (heed R.engine R.fiber R.below ((atWork R.engine R.fiber others z).applyEntry R.engine R.fiber).2) ∧
      ∃ outs', Along (R.seat n) u (R.stack (k + 1)) outs' (some R.fiber) v ∧
        ∀ m : Node, m.outputs = outs' → m.Shows (R.writes (k + 1)).toList := by
  have htaken : Along (R.seat n) u (R.stack k) outs (some R.fiber) (atWork R.engine R.fiber others z) := h.take hopen hq
  have hengine : (atWork R.engine R.fiber others z).engine R.engine =
      { z.engine R.engine with queue := others, current := some R.fiber } := engine_atWork h.steady.inside R.fiber others
  have hfresh : ((atWork R.engine R.fiber others z).engine R.engine).isDisposed = false := by
    rw [hengine]
    exact hopen
  obtain ⟨hok, happlied, hfiber⟩ := htaken.applyEntry hfresh
  have hsame : ((atWork R.engine R.fiber others z).engine R.engine).fiber R.fiber = (z.engine R.engine).fiber R.fiber := by
    rw [hengine]
    rfl
  have happly : (atWork R.engine R.fiber others z).applyEntry R.engine R.fiber =
      (.ok (), ((atWork R.engine R.fiber others z).applyEntry R.engine R.fiber).2) := Prod.ext hok rfl
  have hfiber : (((atWork R.engine R.fiber others z).applyEntry R.engine R.fiber).2.engine R.engine).fiber R.fiber =
      (z.engine R.engine).fiber R.fiber := hfiber.trans hsame
  rw [FlowGraph.Play.runOn_step, happly]
  dsimp only
  generalize ((atWork R.engine R.fiber others z).applyEntry R.engine R.fiber).2 = v at happlied hfiber
  have hlisteners : ((v.engine R.engine).fiber R.fiber).listeners = (some R.node, R.listener k) :: R.below := by
    rw [hfiber, hl, stack_of_lt hk]
  have haborted : ((v.engine R.engine).fiber R.fiber).isAborted = false := by
    rw [hfiber]
    exact h.unaborted hopen
  have hinside : R.fiber < (v.engine R.engine).fibers.size := happlied.inside hs
  have hheeded : Along (R.seat n) u R.below outs (some R.fiber) (heed R.engine R.fiber R.below v) := by
    refine happlied.alter ?_ ?_ ?_ ?_
    · exact fun _ => ⟨.inr rfl, rfl, rfl, rfl, rfl, rfl, rfl⟩
    · intro y hy
      rw [show ((v.engine (R.seat n).engine).fiber R.fiber).listeners = _ from hlisteners]
      exact List.mem_cons_of_mem _ hy
    · exact fun hb => absurd hb.steps (Nat.succ_ne_zero _)
    · rw [Engine.fiber_modifyFiber, if_pos ⟨rfl, hinside⟩]
      exact ⟨happlied.stacked.unfinished, [], rfl, fun _ hx => absurd hx List.not_mem_nil⟩
  have hself : ((heed R.engine R.fiber R.below v).engine R.engine).fiber R.fiber = { (v.engine R.engine).fiber R.fiber with
      steps := ((v.engine R.engine).fiber R.fiber).steps + 1, committed := false, listeners := R.below } := by
    rw [heed, engine_modifyEngine_self happlied.steady.inside, Engine.fiber_modifyFiber, if_pos ⟨rfl, hinside⟩]
  have hrun : ((((v.engine R.engine).fiber R.fiber).pending = 0 && !((v.engine R.engine).fiber R.fiber).isAborted) = true) := by
    rw [haborted, hfiber, hpending]
    rfl
  have hworks := hx.outlined hheeded.outlined
  refine ⟨_, ?_, rfl, along_go hR hs hheeded hworks hk (by rw [hself]) (by rw [hself])⟩
  rw [runOn_proceed_listener (by rw [hfiber, hnext]) hlisteners hrun]
  exact runOn_answer hR hworks hk (by rw [hself])

end Resumed

/-- The points from which the fiber sets out along a path: after the turn in which the node is triggered, and each time it is
back from a path that is not the last. -/
inductive SetsOut (R : Relay) (w : World) : Nat → World → Prop where
  | first : SetsOut R w 0 w
  | next {k : Nat} {v z : World} {body : List Act} {others : List Nat} : SetsOut R w k v → k < R.last →
      Outing R.engine R.fiber (R.stack k) R.node v body z → (z.engine R.engine).queue = R.fiber :: others →
      SetsOut R w (k + 1) (R.resumed (k + 1) others z)

/-- From where the fiber sets out along one path to where it sets out along a later one, with the calls of each path in
between. Along a path the node shows what was written for it, and is not called; the path is over when all fibers are over
that the fiber has split into, and its turn then begins the next one. Of the fibers the first `n` were there before. -/
inductive Rounds (R : Relay) (n : Nat) (u : World) : Nat → World → List (List Act) → World → Prop where
  | refl (k : Nat) (w : World) : Rounds R n u k w [] w
  | round {k : Nat} {w z v : World} {body : List Act} {bodies : List (List Act)} {others : List Nat} : k < R.last →
      Outing R.engine R.fiber (R.stack k) R.node w body z →
      (∀ p, Passes R.engine R.fiber (R.stack k) R.node w p → (p.node R.node).Shows (R.writes k).toList) →
      (∀ a ∈ body, ¬ a.IsOf u R.node) →
      (∀ j, (z.engine R.engine).Kin n R.fiber j → j ≠ R.fiber → ((z.engine R.engine).fiber j).finished = true) →
      (z.engine R.engine).queue = R.fiber :: others →
      Leg R.engine R.fiber R.node z [.listener (some R.node) (R.listener k)] (R.resumed (k + 1) others z) →
      Rounds R n u (k + 1) (R.resumed (k + 1) others z) bodies v → Rounds R n u k w (body :: bodies) v

/-- The fiber comes back from the last path. -/
structure Through (R : Relay) (u w : World) (tail : List Act) (v : World) : Prop where
  path : Outing R.engine R.fiber R.below R.node w tail v
  shows : ∀ p, Passes R.engine R.fiber R.below R.node w p → (p.node R.node).Shows (R.writes R.last).toList
  aside : ∀ a ∈ tail, ¬ a.IsOf u R.node

/-- The fiber is over, and nobody ever acts for it again, however it goes on. -/
structure Lost (R : Relay) (w : World) : Prop where
  finished : ∀ p, Passage w p → ((p.engine R.engine).fiber R.fiber).finished = true
  silent : ∀ p, Passage w p → ∀ j g others, (p.engine j).queue = g :: others → ∀ node l,
    ((p.engine j).fiber g).act? = some (.listener node l) → l.context? ≠ some R.context

/-- The fiber fails on the path. -/
structure Broken (R : Relay) (u : World) (k : Nat) (w : World) (tail : List Act) (v : World) : Prop where
  path : Wreck R.engine R.fiber (R.stack k) R.node w tail v
  aside : ∀ a ∈ tail, ¬ a.IsOf u R.node
  lost : R.Lost v

/-- The calls from a path on: those of the path, the listener that begins the next one, and so on. -/
def acts (R : Relay) : Nat → List (List Act) → List Act
  | _, [] => []
  | k, body :: bodies => body ++ .listener (some R.node) (R.listener k) :: R.acts (k + 1) bodies

/-- One step to begin each path, and those of the paths themselves. -/
theorem length_acts (R : Relay) (k : Nat) (bodies : List (List Act)) :
    (R.acts k bodies).length = bodies.length + (bodies.map List.length).sum := by
  induction bodies generalizing k with
  | nil => rfl
  | cons body bodies ih =>
    simp only [acts, List.length_append, List.length_cons, ih, List.map_cons, List.sum_cons]
    omega

section Rounds

variable {R : Relay} {k n : Nat} {o u v w z : World} {outs : List Socket} {bodies : List (List Act)} {tail : List Act}

/-- The loop of a run that has steps enough goes from path to path. -/
theorem Rounds.takes (h : R.Rounds n u k w bodies v) : Takes R.engine w (R.acts k bodies) v := by
  induction h with
  | refl => exact .refl _ _
  | round _ hpath _ _ _ _ hleg _ ih => exact hpath.takes.trans (hleg.takes.trans ih)

/-- Where the fiber is over nothing more comes of it. -/
theorem lost_of_finished (hw : InOrder u atRest w) (hf : ((w.engine R.engine).fiber R.fiber).finished = true) : R.Lost w := by
  have hfinished (p : World) (hp : Passage w p) : ((p.engine R.engine).fiber R.fiber).finished = true :=
    ((hw.rebase.passage hp).engine R.engine).outlived.finished R.fiber hf
  refine ⟨hfinished, fun p hp j g others hq node l hact hc => ?_⟩
  have hj := (hw.rebase.passage hp).engine j
  have hl : (node, l) ∈ ((p.engine j).fiber g).listeners := by
    unfold Fiber.act? at hact
    split at hact
    · cases hact
    · rename_i hl
      cases hact
      rw [hl]
      exact List.mem_cons_self
    · cases hact
  -- The listener speaks for the fiber that runs it, which is over.
  obtain ⟨rfl, rfl⟩ := (hj.listeners g _ hl).2 _ hc _ _ _ rfl
  have hqueued := (hj.accounted.tallied R.fiber).queued (by rw [hq]; exact List.mem_cons_self)
  rw [hfinished p hp] at hqueued
  cases hqueued.2.1

/-- Where the fiber is back from a path that is not the last, a turn of it begins the next one. -/
theorem exists_leg (hR : R.Hands) (hs : (R.seat n).Taken u) (hx : R.Works u) (hk : k < R.last)
    (h : Along (R.seat n) u (R.stack k) outs none v) (hinbox : (v.engine R.engine).inbox = []) {body : List Act}
    (hpath : Outing R.engine R.fiber (R.stack k) R.node v body z) :
    ∃ others, (z.engine R.engine).queue = R.fiber :: others ∧
      (∀ j, (z.engine R.engine).Kin n R.fiber j → j ≠ R.fiber → ((z.engine R.engine).fiber j).finished = true) ∧
      Leg R.engine R.fiber R.node z [.listener (some R.node) (R.listener k)] (R.resumed (k + 1) others z) ∧
      (((R.resumed (k + 1) others z).engine R.engine).isDisposed = false →
        ((R.resumed (k + 1) others z).engine R.engine).inbox = [] ∧
        ∃ outs', (Along (R.seat n) u (R.stack (k + 1)) outs' none (R.resumed (k + 1) others z) ∨
            (((R.resumed (k + 1) others z).engine R.engine).fiber R.fiber).finished = true ∧ R.stack (k + 1) = [] ∧
              ((R.resumed (k + 1) others z).node R.node).outputs = outs') ∧
          ∀ m : Node, m.outputs = outs' → m.Shows (R.writes (k + 1)).toList) := by
  have hstack := stack_of_lt hk
  obtain ⟨hzinbox, hback, hzopen, hz⟩ := h.outing hs hinbox hpath
  have hz := hz.resolve_right fun hnone => by simp [hstack] at hnone
  obtain ⟨others, hq, hnext, hl, hpending, hkin⟩ := hz.over_of_back hzopen hback
  obtain ⟨r, hstep, hr, outs', halong, hshows⟩ := runOn_step hR hs hz hx hzopen hk hq hnext hl hpending
  have hresumed : closeTurn R.engine R.fiber r = R.resumed (k + 1) others z := by rw [hr, resumed]
  have hready : ((z.engine R.engine).fiber R.fiber).isReady = true := by
    simp [Fiber.isReady, Fiber.isComplete, Fiber.isWaiting, hz.unaborted hzopen, hpending, hl, hstack]
  have hact : ((z.engine R.engine).fiber R.fiber).act? = some (.listener (some R.node) (R.listener k)) := by
    rw [Fiber.act?, hnext, hl, hstack]
  have hleg := Leg.turn (f := R.fiber) (x := R.node) hq hready hact id hstep
  have hronward := onward_step R.engine R.fiber others z
  rw [hstep] at hronward
  have hrinbox := hronward.inbox R.engine hzinbox
  refine ⟨others, hq, hkin, by rwa [hresumed] at hleg, ?_⟩
  rw [← hresumed]
  intro hopen
  have hropen : (r.engine R.engine).isDisposed = false :=
    Bool.eq_false_iff.2 fun hd => by simp [(onward_closeTurn R.engine R.fiber r).isDisposed R.engine hd] at hopen
  exact ⟨(onward_closeTurn R.engine R.fiber r).inbox R.engine hrinbox, outs', halong.closeTurn hs hropen hrinbox, hshows⟩

/-- Where the fiber sets out along a path, and each path comes back or the fiber fails on it, it goes from path to path until
it is back from the last one or fails. -/
theorem exists_rounds (hR : R.Hands) (hs : (R.seat n).Taken u) (hx : R.Works u)
    (hof : ∀ a : Act, a.IsOf o R.node → a.IsOf u R.node) (hpaths : ∀ k v, R.SetsOut w k v →
      (∃ body z, Outing R.engine R.fiber (R.stack k) R.node v body z) ∨ ∃ body z, Wreck R.engine R.fiber (R.stack k) R.node v body z)
    (horder : ∀ z, Relation.ReflTransGen (Iteration R.engine) v z → InOrder o atRest z)
    (hout : R.SetsOut w k v) (hk : k ≤ R.last) (hinbox : (v.engine R.engine).inbox = [])
    (h : Along (R.seat n) u (R.stack k) outs none v ∨ ((v.engine R.engine).fiber R.fiber).finished = true ∧ R.stack k = [] ∧
      (v.node R.node).outputs = outs)
    (hshows : ∀ m : Node, m.outputs = outs → m.Shows (R.writes k).toList) :
    ∃ bodies z, R.Rounds n o k v bodies z ∧ k + bodies.length ≤ R.last ∧ R.SetsOut w (k + bodies.length) z ∧ ∃ tail y,
      k + bodies.length = R.last ∧ R.Through o z tail y ∨ R.Broken o (k + bodies.length) z tail y := by
  have hothers {acts : List Act} (hacts : ∀ a ∈ acts, ¬ a.IsOf u R.node) : ∀ a ∈ acts, ¬ a.IsOf o R.node :=
    fun a ha h => hacts a ha (hof a h)
  induction hd : R.last - k using Nat.strongRecOn generalizing k v outs with
  | _ d ih =>
  rcases hpaths k v hout with ⟨body, z, hpath⟩ | ⟨body, z, hpath⟩
  · rcases Nat.lt_or_eq_of_le hk with hlt | rfl
    · -- The fiber comes back from the path, and sets out along the next one.
      have halong := h.resolve_right fun hnone => by simp [stack_of_lt hlt] at hnone
      obtain ⟨others, hq, hkin, hleg, hthen⟩ := exists_leg hR hs hx hlt halong hinbox hpath
      have hout' := hout.next hlt hpath hq
      obtain ⟨hinbox', outs', halong', hshows'⟩ := hthen <| by
        rcases hpaths _ _ hout' with ⟨_, _, hpath'⟩ | ⟨_, _, hpath'⟩
        · exact hpath'.isOpen
        · exact hpath'.isOpen
      have hgone := hpath.iterations.tail hleg.iteration
      obtain ⟨bodies, y, hrounds, hle, houts, htail⟩ := ih (R.last - (k + 1)) (by omega)
        (fun z hz => horder z (hgone.trans hz)) hout' hlt hinbox' halong' hshows' rfl
      have hlength : k + (body :: bodies).length = k + 1 + bodies.length := by
        rw [List.length_cons]
        omega
      rw [← hlength] at hle houts htail
      refine ⟨body :: bodies, y, .round hlt hpath ?_ ?_ hkin hq hleg hrounds, hle, houts, htail⟩
      · exact fun p hp => hshows _ (halong.passes hs hinbox hpath hp)
      · exact hothers (halong.not_isOf hs hinbox hpath)
    · rw [stack_last] at hpath h
      refine ⟨[], v, .refl _ v, Nat.le_refl _, hout, body, z, .inl ⟨rfl, hpath, fun p hp => hshows _ ?_, ?_⟩⟩
      · rcases h with h | ⟨hfinished, -, houtputs⟩
        · exact h.passes hs hinbox hpath hp
        · cases hp with
          | here => exact houtputs
          | reached hb _ _ _ _ | heeded hb _ _ _ _ | stepped hb _ _ _ _ _ | leg hb _ _ => exact absurd (.inl hfinished) hb
      · rcases h with h | ⟨hfinished, -, -⟩
        · exact hothers (h.not_isOf hs hinbox hpath)
        · cases hpath with
          | back => exact fun _ ha => absurd ha List.not_mem_nil
          | leg hback _ _ _ => exact absurd (.inl hfinished) hback
  · rcases h with h | ⟨hfinished, -, -⟩
    · obtain ⟨haside, hfinished⟩ := h.wreck hs hinbox hpath
      exact ⟨[], v, .refl k v, hk, hout, body, z, .inr ⟨hpath, hothers haside,
        lost_of_finished (horder z hpath.iterations) hfinished⟩⟩
    · cases hpath with
      | fail hback _ _ _ _ _ _ _ | leg hback _ _ _ => exact absurd (.inl hfinished) hback

/-- After the turn in which the node is triggered the fiber is on the first path. -/
theorem Comes.along_triggered {route : Route} {others : List Nat} (hR : R.Hands) (h : R.Comes route others w) (hx : R.Works w)
    (hw : Bound w atRest R.node w) (hbegins : R.Begins (R.reached others w)) (hinbox : (w.engine R.engine).inbox = [])
    (hopen : ((R.triggered others w).engine R.engine).isDisposed = false) :
    (turn R.engine R.fiber).runOn (unqueued R.engine others w) = (.ok (), R.triggered others w) ∧
    ((R.triggered others w).engine R.engine).inbox = [] ∧
    ∃ outs, (Along (R.seat ((R.reached others w).engine R.engine).fibers.size) (R.reached others w) (R.stack 0) outs none
          (R.triggered others w) ∨
        (((R.triggered others w).engine R.engine).fiber R.fiber).finished = true ∧ R.stack 0 = [] ∧
          ((R.triggered others w).node R.node).outputs = outs) ∧
      ∀ m : Node, m.outputs = outs → m.Shows (R.writes 0).toList := by
  have hgone : Onward (R.reached others w) ((R.go 0 (R.reached others w)).tellEnded R.engine R.node) :=
    (R.onward_go 0 (R.reached others w)).trans (.of_engines (engines_tell ..))
  have hlater : Onward ((R.go 0 (R.reached others w)).tellEnded R.engine R.node) (R.triggered others w) :=
    onward_closeTurn R.engine R.fiber _
  have hearlier {v : World} (hv : Onward v (R.triggered others w)) : (v.engine R.engine).isDisposed = false :=
    Bool.eq_false_iff.2 fun hd => by simp [hv.isDisposed R.engine hd] at hopen
  have hreached := hearlier (hgone.trans hlater)
  have hstep := h.runOn_step hx hw hbegins hreached
  have hfiber := h.fiber hw hreached
  have hworks := h.works hx hw
  have hbefore := onward_step R.engine R.fiber others w
  rw [hstep] at hbefore
  have hs := taken_seat hworks (h.old hx hw)
  obtain ⟨outs, hgo, hshows⟩ := along_go hR hs (h.along hx hw hreached) hworks (Nat.zero_le _)
    (by rw [hfiber]; exact h.listeners) (by rw [hfiber])
  have htold : Along (R.seat ((R.reached others w).engine R.engine).fibers.size) (R.reached others w) (R.stack 0) outs
      (some R.fiber) ((R.go 0 (R.reached others w)).tellEnded R.engine R.node) := hgo.tell ..
  have hgoneInbox := hbefore.inbox R.engine hinbox
  have hturn := turn_ok hstep
  have hempty := hlater.inbox R.engine hgoneInbox
  refine ⟨hturn, hempty, outs, ?_, hshows⟩
  exact htold.closeTurn hs (hearlier hlater) hgoneInbox

/-- Wherever a fiber comes to a node that relays, and it comes back from each path behind the node or fails on it, without a
trigger of the node: it is sent along one path after the other, until it is back from the last one or fails. -/
theorem runs {route : Route} {others : List Nat} (hR : R.Hands) (hu : u.Arises w) (hx : R.Works u)
    (hinbox : (w.engine R.engine).inbox = []) (hcomes : R.Comes route others w) (hbegins : R.Begins (R.reached others w))
    (hpaths : ∀ k v, R.SetsOut (R.triggered others w) k v →
      (∃ body z, Outing R.engine R.fiber (R.stack k) R.node v body z) ∨ ∃ body z, Wreck R.engine R.fiber (R.stack k) R.node v body z) :
    (turn R.engine R.fiber).runOn (unqueued R.engine others w) = (.ok (), R.triggered others w) ∧
    ∃ bodies v, R.Rounds ((R.reached others w).engine R.engine).fibers.size u 0 (R.triggered others w) bodies v ∧
      R.SetsOut (R.triggered others w) bodies.length v ∧ ∃ tail z,
        (bodies.length = R.last ∧ R.Through u v tail z ∨ bodies.length ≤ R.last ∧ R.Broken u bodies.length v tail z) ∧
        Takes R.engine w (.trigger route :: (R.acts 0 bodies ++ tail)) z := by
  obtain ⟨b, hb⟩ := hx.flow
  have hbound := hu.bound hb
  have hw := hbound.rebase
  have hworks := hx.outlined hbound.outlined
  have hopen : ((R.triggered others w).engine R.engine).isDisposed = false := by
    rcases hpaths _ _ .first with ⟨_, _, hpath⟩ | ⟨_, _, hpath⟩
    · exact hpath.isOpen
    · exact hpath.isOpen
  obtain ⟨hturn, htriggered, outs, hout, hshows⟩ := hcomes.along_triggered hR hworks hw hbegins hinbox hopen
  have hreached : Outlined u (R.reached others w) := (hcomes.bound hworks hw).outlined.trans hbound.outlined
  have harises {z : World} (hz : Relation.ReflTransGen (Iteration R.engine) (R.triggered others w) z) : u.Arises z := by
    induction hz with
    | refl => exact hu.iteration (.turn hcomes.queue hcomes.isReady hturn)
    | tail _ hi ih => exact ih.iteration hi
  obtain ⟨bodies, v, hrounds, hle, houts, tail, z, hend⟩ := exists_rounds hR
    (taken_seat (hcomes.works hworks hw) (hcomes.old hworks hw)) (hcomes.works hworks hw)
    (fun a ha => Act.IsOf.outlined hreached ha) hpaths (fun z hz => ((harises hz).bound hb).toInOrder) .first (Nat.zero_le _)
    htriggered hout hshows
  rw [Nat.zero_add] at hle houts hend
  refine ⟨hturn, bodies, v, hrounds, houts, tail, z, hend.imp_right fun hbroken => ⟨hle, hbroken⟩, ?_⟩
  have hact : ((w.engine R.engine).fiber R.fiber).act? = some (.trigger route) := by rw [Fiber.act?, hcomes.next]
  have hlast : Takes R.engine v tail z := by
    rcases hend with ⟨-, hthrough⟩ | hbroken
    · exact hthrough.path.takes
    · exact hbroken.path.takes
  exact (Takes.of_turn hcomes.queue hcomes.isReady hact hturn).trans (hrounds.takes.trans hlast)

/-- If the fiber comes back from all paths, it is sent along all of them. -/
theorem runs_through {route : Route} {others : List Nat} (hR : R.Hands) (hu : u.Arises w) (hx : R.Works u)
    (hinbox : (w.engine R.engine).inbox = []) (hcomes : R.Comes route others w) (hbegins : R.Begins (R.reached others w))
    (hpaths : ∀ k v, R.SetsOut (R.triggered others w) k v → ∃ body z, Outing R.engine R.fiber (R.stack k) R.node v body z) :
    (turn R.engine R.fiber).runOn (unqueued R.engine others w) = (.ok (), R.triggered others w) ∧
    ∃ bodies v tail z, bodies.length = R.last ∧
      R.Rounds ((R.reached others w).engine R.engine).fibers.size u 0 (R.triggered others w) bodies v ∧
      R.Through u v tail z ∧ Takes R.engine w (.trigger route :: (R.acts 0 bodies ++ tail)) z := by
  obtain ⟨hturn, bodies, v, hrounds, houts, tail, z, hend, htakes⟩ :=
    runs hR hu hx hinbox hcomes hbegins fun k v hout => .inl (hpaths k v hout)
  obtain ⟨_, _, hpath⟩ := hpaths _ _ houts
  obtain ⟨hlast, hthrough⟩ := hend.resolve_right fun hbroken => hpath.not_wreck hbroken.2.path
  exact ⟨hturn, bodies, v, tail, z, hlast, hrounds, hthrough, htakes⟩

end Rounds

end Relay

end FlowGraph
