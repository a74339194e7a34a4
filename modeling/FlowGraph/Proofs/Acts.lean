import FlowGraph.Proofs.Hosting
import FlowGraph.Proofs.Reckoning

/-!
What outlasts whatever a host does between drains. Where a property of worlds outlasts the calls of behaviours and what
little hosts do besides, it holds after any act of a host that makes no engine and runs none.
-/
namespace FlowGraph

open World Play

/-- A property of worlds that outlasts that time passes: timers fire, and what concerns neither graphs nor engines changes. -/
structure Timely (P : World → Prop) : Prop where
  aside : ∀ {w v : World}, P w → v.graphs = w.graphs → v.engines = w.engines → v.disposers = w.disposers → P v
  finish : ∀ w, P w → ∀ j o output fromOutside, P (w.finishOperation j o output fromOutside)

/-- The host neither makes an engine nor runs one. -/
def HostAct.isCalm : HostAct → Bool
  | makeEngine .. | run .. | runAsync .. => false
  | _ => true

/-- A property of worlds that outlasts whatever a host does short of making and running engines. -/
structure Enduring (A : Context → Prop) (P : World → Prop) : Prop extends Timely P where
  conduct : Conduct (Upholds P) A
  reset : ∀ w, P w → ∀ k name v g told, (w.graph k).setVariable name v = .ok (g, told) → P (w.modifyGraph k fun _ => g)

namespace Play.Agrees

variable {P : World → Prop}

theorem of_preserves {α : Type} {x : Play α} (h : ∀ w, P w → P (x.runOn w).2) : Obeys (Upholds P) x := by
  rintro w _ ⟨rfl, hw⟩
  exact ⟨rfl, rfl, h w hw⟩

theorem of_modify_preserves {g : World → World} (h : ∀ w, P w → P (g w)) : Obeys (Upholds P) (modify g) := of_preserves h

end Play.Agrees

namespace Timely

variable {P : World → Prop} (hT : Timely P)

include hT

theorem obeys_aside {g : World → World}
    (hg : ∀ w, (g w).graphs = w.graphs ∧ (g w).engines = w.engines ∧ (g w).disposers = w.disposers) :
    Obeys (Upholds P) (modify g) :=
  Agrees.of_modify_preserves fun w hw => hT.aside hw (hg w).1 (hg w).2.1 (hg w).2.2

theorem obeys_fire (t : Timer (Nat × Nat)) : Obeys (Upholds P) (fire t) := by
  refine Agrees.of_modify_preserves fun w hw => hT.finish _ ?_ _ _ _ _
  exact hT.aside hw rfl rfl rfl

theorem obeys_fireDue (fuel : Nat) (target : Value) : Obeys (Upholds P) (fireDue fuel target) := by
  induction fuel with
  | zero => exact .of_pure _
  | succ fuel ih =>
    refine .look fun w r h => ?_
    obtain ⟨rfl, -⟩ := h
    refine (Agrees.of_fault _).bind fun out => ?_
    split
    · exact .of_pure _
    · refine Agrees.bind (hT.obeys_aside ?_) fun _ => ?_
      · exact fun _ => ⟨rfl, rfl, rfl⟩
      · split
        · exact ih
        · exact (hT.obeys_fire _).bind fun _ => ih.bind fun _ => .of_pure _

theorem obeys_advanceTo (target : Value) : Obeys (Upholds P) (advanceTo target) := by
  refine .look fun w r h => ?_
  obtain ⟨rfl, -⟩ := h
  refine (hT.obeys_fireDue _ target).bind fun n => Agrees.bind (hT.obeys_aside ?_) fun _ => .of_pure _
  exact fun _ => ⟨rfl, rfl, rfl⟩

theorem obeys_advance (seconds : Value) : Obeys (Upholds P) (advance seconds) := by
  refine .look fun w r h => ?_
  obtain ⟨rfl, -⟩ := h
  split
  · exact (Agrees.of_fault _).bind fun _ => hT.obeys_advanceTo _
  · exact .of_throw _
  · exact .of_throw _

theorem obeys_passTime (waiting : Waiting) : Obeys (Upholds P) (passTime waiting) := by
  unfold passTime
  split
  · exact .of_pure _
  · exact (hT.obeys_advance _).bind fun _ => .of_pure _
  · rename_i deadline
    refine .look fun w r h => ?_
    obtain ⟨rfl, -⟩ := h
    split
    · exact .of_pure _
    · rename_i due _
      have hrest : Obeys (Upholds P) (do
          let w ← get
          let _ ← advanceTo (if w.clock = .eventLoop then EventLoop.wakeUp w.scheduler.now due else due)
          return some (.byTimers deadline) : Play (Option Waiting)) := by
        refine .look fun w r h => ?_
        obtain ⟨rfl, -⟩ := h
        exact (hT.obeys_advanceTo _).bind fun _ => .of_pure _
      cases deadline with
      | none => exact hrest
      | some d =>
        dsimp only
        split
        · exact .of_pure _
        · exact hrest

theorem obeys_awaitWake (i fuel : Nat) (waiting : Waiting) : Obeys (Upholds P) (awaitWake i fuel waiting) := by
  induction fuel generalizing waiting with
  | zero => exact .of_pure _
  | succ fuel ih =>
    refine .look fun w r h => ?_
    obtain ⟨rfl, -⟩ := h
    split
    · exact .of_pure _
    · refine (hT.obeys_passTime waiting).bind fun out => ?_
      split
      · exact .of_pure _
      · exact ih _

end Timely

namespace Enduring

variable {A : Context → Prop} {P : World → Prop} (hE : Enduring A P)

include hE

theorem emit {w : World} (hw : P w) (t : Topic) (n : Notice) : P (w.emit t n) :=
  (World.obeys_emit hE.conduct.toBearing t n ⟨rfl, hw⟩).2

/-- What every turn, every timer and every post preserves is preserved by a host that does not tamper. -/
theorem play {a : HostAct} (ha : a.isCalm = true) {w : World} (hw : P w) : P (a.play.runOn w).2 := by
  refine Agrees.upholds ?_ hw
  cases a with
  | start => exact Agrees.of_modify_preserves fun w hw => hE.emit hw _ _
  | tick seconds =>
    refine Agrees.bind (Agrees.bind (hE.obeys_aside ?_) fun _ =>
      Agrees.bind (Agrees.of_modify_preserves ?_) fun _ => .look fun w r h => ?_) fun _ => .of_pure _
    · exact fun _ => ⟨rfl, rfl, rfl⟩
    · exact fun w hw => hE.emit hw _ _
    · obtain ⟨rfl, -⟩ := h
      exact .of_pure _
  | ending => exact Agrees.of_modify_preserves fun w hw => hE.emit hw _ _
  | trigger k event values =>
    refine Agrees.of_modify_preserves fun w hw => ?_
    split
    · exact hE.emit hw _ _
    · exact hw
  | assign k name v =>
    refine .of_change fun w r h => ?_
    obtain ⟨rfl, hw⟩ := h
    refine ⟨rfl, rfl, ?_⟩
    split
    · exact (World.obeys_assign hE.conduct.toBearing k _ v).upholds hw
    · exact hw
  | reset k name v =>
    refine Agrees.of_preserves fun w hw => ?_
    show P (w.resetVariable k name v).2
    unfold World.resetVariable
    split
    · exact hw
    · rename_i g told hset
      have hreset := hE.reset w hw k name v g told hset
      dsimp only
      split
      · exact hE.emit hreset _ _
      · exact hreset
  | putState path v => exact Agrees.of_preserves fun w hw => (World.obeys_putState hE.conduct.toBearing path v).upholds hw
  | advance seconds => exact (hE.obeys_advance seconds).bind fun _ => .of_pure _
  | dispose i => exact obeys_dispose hE.conduct i
  | makeEngine | run | runAsync => cases ha

end Enduring

end FlowGraph
