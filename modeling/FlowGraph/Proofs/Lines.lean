import FlowGraph.Proofs.Iterations
import FlowGraph.Proofs.Tracking

/-!
The line behind the fiber at work. Whatever the fiber does, those that stand in the queue stay there one behind the other:
what it spawns goes in front of them, and new paths go behind. Only the disposal of the engine sends them away.
-/
namespace FlowGraph

open World Play

namespace Engine

/-- The fiber is at work, if there is one, and the others stand in the queue one behind the other. -/
structure Lined (others : List Nat) (c : Option Nat) (e : Engine) : Prop where
  current : e.current = c
  inside : ∀ f, c = some f → f < e.fibers.size
  line : others <:+: e.queue

theorem growing_lined (others : List Nat) (c : Option Nat) : Growing (Lined others c) where
  congr h hf hq hc _ := ⟨hc.trans h.current, fun f hf' => hf ▸ h.inside f hf', hq ▸ h.line⟩
  enter h he := by
    refine ⟨he.current.trans h.current, fun f hf => ?_, ?_⟩
    · have := h.inside f hf
      have := he.size
      omega
    · rw [he.queue]
      exact h.line.trans (List.prefix_append ..).isInfix
  current h hc := by
    rw [h.current] at hc
    exact Nat.lt_irrefl _ (h.inside _ hc)

/-- What the fiber at work spawns goes in front. -/
theorem working_lined (i f : Nat) (others : List Nat) : Working i f (Lined others (some f)) where
  growing := growing_lined others (some f)
  commit {e} h _ node _ _ wires := by
    rw [commit_eq (h.inside f rfl), if_pos h.current]
    refine ⟨h.current, fun g hg => ?_, h.line.trans (List.suffix_append ..).isInfix⟩
    have := h.inside g hg
    simp only [Array.size_append, Array.size_modify]
    omega
  stop h := ⟨h.current, fun g hg => by simpa using h.inside g hg, h.line⟩

/-- A fiber that is over puts at most its parent in front of the queue. -/
theorem suffix_finish (e : Engine) (f : Nat) : e.queue <:+ (e.finish f).queue := by
  unfold finish
  dsimp only
  split
  · exact List.suffix_rfl
  · split
    · unfold childFinished
      dsimp only
      split
      · exact List.suffix_cons _ _
      · exact List.suffix_rfl
    · exact List.suffix_rfl

theorem suffix_abort (e : Engine) (f : Nat) : e.queue <:+ (e.abort f).queue := suffix_finish (e.modifyFiber f _) f

end Engine

/-- The others stand in the queue of the engine one behind the other, unless it was disposed of. -/
def World.Lines (w : World) (i : Nat) (others : List Nat) : Prop :=
  (w.engine i).isDisposed = true ∨ others <:+: (w.engine i).queue

namespace InOrder

variable {u v w : World} {cur : Nat → Option Nat} {i f : Nat} {others : List Nat}

/-- The line is steady where engines are in order. -/
theorem steady (h : InOrder u cur w) (hi : i < w.engines.size) (hl : w.Lines i others) :
    Steady i (Engine.Lined others (cur i)) w := by
  refine ⟨hi, hl.imp_right fun hq => ⟨(h.engine i).current, fun f hf => ?_, hq⟩, h.disposers, fun j => (h.engine j).disposers⟩
  exact (h.engine i).accounted.current_lt ((h.engine i).current.trans hf)

/-- While a fiber is at work, the line behind it stays as whatever is done in the name of nodes. -/
theorem closed_lines (i f : Nat) (others : List Nat) : Closed (fun w _ => Steady i (Engine.Lined others (some f)) w)
    fun c => ∀ j k input, c.role = .flow j k input → onlyAt i f j = some k := by
  refine closed_steady (Engine.growing_lined others (some f)) fun c hc j k input hrole => ?_
  have hat := hc j k input hrole
  unfold onlyAt at hat
  split at hat
  · rename_i hj
    cases hat
    exact ⟨hj, Engine.working_lined i f others⟩
  · cases hat

/-- What other threads have posted is taken in without touching the line. -/
theorem lines_drainInbox (h : InOrder u atRest w) (hi : i < w.engines.size) (hl : w.Lines i others) (j : Nat) :
    (w.drainInbox j).Lines i others := by
  have hM := Engine.growing_lined others none
  have hcleared : Steady i (Engine.Lined others none) (w.modifyEngine j fun e => { e with inbox := [] }) := by
    refine (h.clearInbox j).steady (by simpa using hi) ?_
    unfold World.Lines
    rw [engine_modifyEngine]
    split
    · exact hl
    · exact hl
  have hdrained : Steady i (Engine.Lined others none) (w.drainInbox j) := by
    refine drainInbox_upholds hcleared fun p hp v hv => ?_
    have hfree := (h.engine j).posts p hp
    cases p with
    | complete o output => exact hv.complete hM j o output
    | begin x output l values => exact hv.begin hM j x output hfree values
  exact hdrained.engine.imp_right fun hlined => hlined.line

/-- As the fiber makes room or goes on, the line stays. -/
theorem lines_rest (h : InOrder u (onlyAt i f) w) (hl : w.Lines i others) : (Play.rest w i f).Lines i others := by
  have hi := h.there
  unfold Play.rest
  dsimp only
  split
  · rw [World.Lines, engine_modifyEngine_self hi]
    exact hl.imp_right fun hq => hq.trans (List.suffix_cons _ _).isInfix
  · rename_i hidle
    refine (h.cede (Bool.eq_false_iff.2 hidle)).lines_drainInbox (by split <;> simpa using hi) ?_ i
    split
    · rw [World.Lines, modifyEngine_modifyEngine, engine_modifyEngine_self hi]
      refine hl.imp (fun hd => ?_) fun hq => hq.trans (Engine.suffix_finish ..).isInfix
      show ((w.engine i).finish f).isDisposed = true
      rw [Engine.finish_frame, ← hd]
    · rw [World.Lines, engine_modifyEngine_self hi]
      exact hl

/-- As an idle fiber makes room, those behind it stay in line. -/
theorem lines_pop (h : InOrder u atRest w) (hq : (w.engine i).queue = f :: others)
    (hidle : ((w.engine i).fiber f).isReady = false) : ((Play.pop i f others w).drainInbox i).Lines i others := by
  have hi : i < w.engines.size := by simpa using (h.take hq).there
  refine (h.pop hq hidle).lines_drainInbox (by unfold Play.pop; split <;> simpa using hi) (.inr ?_) i
  unfold Play.pop
  split
  · rw [modifyEngine_modifyEngine, engine_modifyEngine_self hi]
    exact (Engine.suffix_finish { w.engine i with queue := others } f).isInfix
  · simpa only [engine_modifyEngine_self hi] using List.infix_rfl

end InOrder

end FlowGraph
