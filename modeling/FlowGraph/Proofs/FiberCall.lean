import FlowGraph.Proofs.Stretches
import FlowGraph.Proofs.Tracking

/-!
The call of a fiber that is at work. It has the same outcome in like worlds, and does to the fibers what
a call may do; and the step of a fiber that waits for nobody is that call.
-/
namespace FlowGraph

open World Play Engine

/-- The fiber can make its call: it is at work, and its listeners speak for it. -/
structure Poised (i f : Nat) (w : World) : Prop where
  inside : i < w.engines.size
  fiber : f < (w.engine i).fibers.size
  current : (w.engine i).current = some f
  inbox : (w.engine i).inbox = []
  fits : ∀ l ∈ ((w.engine i).fiber f).listeners, l.2.Fits i f
  nodes : ∀ p ∈ w.disposers, p.2.Free
  operations : ∀ j, ∀ op ∈ (w.engine j).operations, ∀ d ∈ op.disposers, d.Free

theorem Steady.mono {i : Nat} {M N : Engine → Prop} {w : World} (h : Steady i M w) (hMN : ∀ e, M e → N e) :
    Steady i N w :=
  ⟨h.inside, h.engine.imp id (hMN _), h.nodes, h.operations⟩

/-- The fiber itself changes, and nothing else. -/
theorem Steady.of_modifyFiber {i f : Nat} {M : Engine → Prop} {w : World} {g : Fiber → Fiber} (h : Poised i f w)
    (hM : M ((w.engine i).modifyFiber f g)) : Steady i M (w.modifyEngine i (·.modifyFiber f g)) := by
  refine ⟨by simpa using h.inside, ?_, h.nodes, ?_⟩
  · rw [engine_modifyEngine_self h.inside]
    exact .inr hM
  · intro k
    rw [engine_modifyEngine]
    split
    · exact h.operations k
    · exact h.operations k

section Call

variable {i f : Nat} {w r : World}

/-- A change of the fiber that leaves it its own listeners. -/
theorem Poised.modifyFiber (h : Poised i f w) {g : Fiber → Fiber} (_ : Fiber.Own g)
    (hg : ∀ l ∈ (g ((w.engine i).fiber f)).listeners, l.2.Fits i f) :
    Poised i f (w.modifyEngine i (·.modifyFiber f g)) := by
  have he : (w.modifyEngine i (·.modifyFiber f g)).engine i = (w.engine i).modifyFiber f g :=
    engine_modifyEngine_self h.inside _
  refine ⟨by simpa using h.inside, ?_, ?_, ?_, ?_, h.nodes, ?_⟩
  · rw [he]
    simpa using h.fiber
  · rw [he]
    exact h.current
  · rw [he]
    exact h.inbox
  · rw [he, fiber_modifyFiber, if_pos ⟨rfl, h.fiber⟩]
    exact hg
  · intro k
    rw [engine_modifyEngine]
    split
    · exact h.operations k
    · exact h.operations k

/-- What a trigger carries may be written first. -/
theorem Poised.applyEntry (h : Poised i f w) : Poised i f (w.applyEntry i f).2 := by
  have he := engine_applyEntry h.inside f
  have hl := Local.applyEntry w i f
  refine ⟨by rw [hl.size]; exact h.inside, ?_, ?_, ?_, ?_, by rw [hl.disposers]; exact h.nodes, ?_⟩
  · rw [he]
    simpa using h.fiber
  · rw [he]
    exact h.current
  · rw [he]
    exact h.inbox
  · rw [he, fiber_modifyFiber, if_pos ⟨rfl, h.fiber⟩]
    exact h.fits
  · intro k
    rw [hl.operations]
    exact h.operations k

/-- A computation that begins with a change of the fiber. -/
theorem tracks_begun {g : Fiber → Fiber} {x : Play Unit} (hp : Poised i f w) (hal : Alike i w r) (hg : Fiber.Own g)
    (hfits : ∀ l ∈ (g ((w.engine i).fiber f)).listeners, l.2.Fits i f)
    (hnext : (g ((w.engine i).fiber f)).next = none)
    (hx : ∀ {M : Engine → Prop}, Working i f M → Obeys (Tracked i M) x) :
    (x.runOn (w.modifyEngine i (·.modifyFiber f g))).1 = (x.runOn (r.modifyEngine i (·.modifyFiber f g))).1 ∧
      Alike i (x.runOn (w.modifyEngine i (·.modifyFiber f g))).2
        (x.runOn (r.modifyEngine i (·.modifyFiber f g))).2 ∧
      Steady i (Called i f (w.engine i)) (x.runOn (w.modifyEngine i (·.modifyFiber f g))).2 := by
  have hmoved := Moved.of_alter (i := i) hp.fiber hp.current hp.inbox hg hfits hnext
  have hst := Steady.of_modifyFiber hp (M := Moved i f (w.engine i)) hmoved
  obtain ⟨heq, hal', hst'⟩ := hx (working_moved i f (w.engine i)) _ _ ⟨hal.modifyFiber i f hg, hst⟩
  exact ⟨heq, hal', hst'.mono fun _ h => h.called⟩

theorem Steady.of_base {g : Fiber → Fiber} {v u : World} (hf : f < (w.engine i).fibers.size)
    (hv : v.engine i = (w.engine i).modifyFiber f g) (hg : Fiber.Own g) (h : Steady i (Called i f (v.engine i)) u) :
    Steady i (Called i f (w.engine i)) u := by
  rw [hv] at h
  exact h.mono fun e he => he.of_base hf hg

theorem Poised.idle (hp : Poised i f w) : Steady i (Called i f (w.engine i)) w := by
  refine ⟨hp.inside, .inr ?_, hp.nodes, hp.operations⟩
  exact Called.of_size (Kept.refl _ _) rfl rfl hp.inbox rfl rfl rfl hp.fits

theorem trigger_spec (hp : Poised i f w) (hal : Alike i w r) (hnext : ((w.engine i).fiber f).next = none)
    (route : Route) : ((Play.trigger i f route).runOn w).1 = ((Play.trigger i f route).runOn r).1 ∧
      Alike i ((Play.trigger i f route).runOn w).2 ((Play.trigger i f route).runOn r).2 ∧
      Steady i (Called i f (w.engine i)) ((Play.trigger i f route).runOn w).2 := by
  simp only [Play.trigger, runOn_get]
  rw [hal.graph]
  split
  · exact ⟨rfl, hal, hp.idle⟩
  · rw [runOn_bind, runOn_bind, runOn_modify, runOn_modify]
    exact tracks_begun hp hal Fiber.own_start hp.fits hnext fun hM => tracks_reach hM _ _

theorem unwind_spec (hp : Poised i f w) (hal : Alike i w r) (hnext : ((w.engine i).fiber f).next = none)
    (node : Option NodeRef) {l : Listener} (hl : l.Fits i f) {rest : List (Option NodeRef × Listener)}
    (hrest : ∀ l ∈ rest, l.2.Fits i f) :
    ((unwind i f node l rest).runOn w).1 = ((unwind i f node l rest).runOn r).1 ∧
      Alike i ((unwind i f node l rest).runOn w).2 ((unwind i f node l rest).runOn r).2 ∧
      Steady i (Called i f (w.engine i)) ((unwind i f node l rest).runOn w).2 := by
  simp only [unwind]
  rw [runOn_bind, runOn_bind, runOn_modify, runOn_modify]
  exact tracks_begun hp hal (Fiber.own_unwind rest) hrest hnext fun hM => tracks_answer hM node hl

theorem callAt_congr {x y : Fiber} (hnext : x.next = y.next) (hl : x.listeners = y.listeners) :
    Structured.callAt i f x = Structured.callAt i f y := by
  simp only [Structured.callAt, hnext, hl]

theorem runOn_call_ok {v : World} (h : w.applyEntry i f = (.ok (), v)) :
    (Structured.call i f).runOn w = (Structured.callAt i f ((v.engine i).fiber f)).runOn v := by
  rw [Structured.call, runOn_bind]
  have hc : (change (·.applyEntry i f)).runOn w = (.ok (), v) := h
  rw [hc]
  rfl

theorem runOn_call_error {v : World} {e : Failure} (h : w.applyEntry i f = (.error e, v)) :
    (Structured.call i f).runOn w = (.error e, v) := by
  rw [Structured.call, runOn_bind]
  have hc : (change (·.applyEntry i f)).runOn w = (.error e, v) := h
  rw [hc]

/-- The call of a fiber has the same outcome in like worlds, and does to the engine what a call may do. -/
theorem callAt_spec (hp : Poised i f w) (hal : Alike i w r) {x : Fiber}
    (hx : x.listeners = ((w.engine i).fiber f).listeners) (hnext : x.next = ((w.engine i).fiber f).next)
    (hact : x.act? ≠ none) :
    ((Structured.callAt i f x).runOn w).1 = ((Structured.callAt i f x).runOn r).1 ∧
      Alike i ((Structured.callAt i f x).runOn w).2 ((Structured.callAt i f x).runOn r).2 ∧
      Steady i (Called i f (w.engine i)) ((Structured.callAt i f x).runOn w).2 := by
  unfold Structured.callAt
  split
  · rename_i route _
    have he : (w.modifyEngine i (·.modifyFiber f fun f => { f with next := none, steps := f.steps + 1 })).engine i =
        (w.engine i).modifyFiber f fun f => { f with next := none, steps := f.steps + 1 } :=
      engine_modifyEngine_self hp.inside _
    rw [runOn_bind, runOn_bind, runOn_modify, runOn_modify]
    obtain ⟨heq, hal', hst⟩ := trigger_spec (hp.modifyFiber Fiber.own_depart hp.fits)
      (hal.modifyFiber i f Fiber.own_depart) (by rw [he, fiber_modifyFiber, if_pos ⟨rfl, hp.fiber⟩]) route
    exact ⟨heq, hal', hst.of_base hp.fiber he Fiber.own_depart⟩
  · rename_i node l rest hnone hcons
    have he : (w.modifyEngine i (·.modifyFiber f fun f => { f with steps := f.steps + 1 })).engine i =
        (w.engine i).modifyFiber f fun f => { f with steps := f.steps + 1 } :=
      engine_modifyEngine_self hp.inside _
    rw [hx] at hcons
    rw [hnext] at hnone
    have hfits := hp.fits
    rw [hcons] at hfits
    rw [runOn_bind, runOn_bind, runOn_modify, runOn_modify]
    obtain ⟨heq, hal', hst⟩ := unwind_spec (hp.modifyFiber Fiber.own_count hp.fits)
      (hal.modifyFiber i f Fiber.own_count) (by rw [he, fiber_modifyFiber, if_pos ⟨rfl, hp.fiber⟩]; exact hnone) node
      (hfits _ List.mem_cons_self) fun x hmem => hfits x (List.mem_cons_of_mem _ hmem)
    exact ⟨heq, hal', hst.of_base hp.fiber he Fiber.own_count⟩
  · rename_i hnone hnil
    exact absurd (by simp [Fiber.act?, hnone, hnil]) hact

/-- A call has the same outcome in like worlds, and does to the fibers what a call may do. -/
theorem call_spec (hp : Poised i f w) (hal : Alike i w r) (hact : ((w.engine i).fiber f).act? ≠ none) :
    ((Structured.call i f).runOn w).1 = ((Structured.call i f).runOn r).1 ∧
      Alike i ((Structured.call i f).runOn w).2 ((Structured.call i f).runOn r).2 ∧
      Steady i (Called i f (w.engine i)) ((Structured.call i f).runOn w).2 := by
  have hp' := hp.applyEntry
  have he := engine_applyEntry hp.inside f
  obtain ⟨_, v, s, hv, hs, hal'⟩ | ⟨e, v, s, hv, hs, hal'⟩ := World.outcomes (hal.applyEntry i f)
  · rw [hv] at hp' he
    have hfiber : (v.engine i).fiber f = { (w.engine i).fiber f with isWritten := true } := by
      rw [he, fiber_modifyFiber, if_pos ⟨rfl, hp.fiber⟩]
    have hcore := hal'.core_fiber i f
    rw [runOn_call_ok hv, runOn_call_ok hs,
      callAt_congr (x := (s.engine i).fiber f) (y := (v.engine i).fiber f)
        (congrArg Fiber.next hcore.symm :) (congrArg Fiber.listeners hcore.symm :)]
    obtain ⟨heq, hal'', hst⟩ := callAt_spec hp' hal' rfl rfl (by rw [hfiber]; exact hact)
    exact ⟨heq, hal'', hst.of_base hp.fiber he Fiber.own_written⟩
  · rw [runOn_call_error hv, runOn_call_error hs]
    rw [hv] at hp' he
    refine ⟨rfl, hal', hp'.inside, .inr ?_, hp'.nodes, hp'.operations⟩
    rw [he]
    exact Called.of_alter hp.fiber hp.inbox Fiber.own_written hp.fits

end Call

section Alike

variable {i : Nat} {w r : World}

theorem Alike.next_act? (h : Alike i w r) (j f : Nat) :
    ((w.engine j).fiber f).act? = ((r.engine j).fiber f).act? := by
  have hnext : ((w.engine j).fiber f).next = ((r.engine j).fiber f).next :=
    (congrArg Fiber.next (h.core_fiber j f) :)
  have hlisteners : ((w.engine j).fiber f).listeners = ((r.engine j).fiber f).listeners :=
    (congrArg Fiber.listeners (h.core_fiber j f) :)
  simp only [Fiber.act?, hnext, hlisteners]

theorem Alike.act? (h : Alike i w r) (j f : Nat) : w.act? j f = r.act? j f := by
  have hnext := h.next_act? j f
  obtain ⟨_, v, s, hv, hs, -⟩ | ⟨e, v, s, hv, hs, -⟩ := World.outcomes (h.applyEntry j f)
  · simp only [World.act?, hv, hs, hnext]
  · simp only [World.act?, hv, hs]

end Alike

section Step

variable {i f : Nat} {w v : World}

/-- The step of a fiber that is on its own is the call that it is at. -/
theorem step_eq_call (hi : i < w.engines.size) (hf : f < (w.engine i).fibers.size)
    (hpending : ((w.engine i).fiber f).pending = 0) (hopen : ((w.engine i).fiber f).isAborted = false) :
    (step i f).runOn w = (Structured.call i f).runOn w := by
  have he := engine_applyEntry hi f
  have hrun : (change (·.applyEntry i f)).runOn w = w.applyEntry i f := rfl
  rw [step, Structured.call, runOn_bind, runOn_bind, hrun]
  generalize hx : w.applyEntry i f = x at he
  obtain ⟨out, v⟩ := x
  cases out with
  | error e => rfl
  | ok _ =>
    simp only [runOn_get]
    have hfiber : (v.engine i).fiber f = { (w.engine i).fiber f with isWritten := true } := by
      rw [he, fiber_modifyFiber, if_pos ⟨rfl, hf⟩]
    rw [hfiber]
    simp only [Structured.callAt, hpending, hopen]
    cases ((w.engine i).fiber f).next with
    | some route => rfl
    | none => cases ((w.engine i).fiber f).listeners <;> rfl

end Step

end FlowGraph
