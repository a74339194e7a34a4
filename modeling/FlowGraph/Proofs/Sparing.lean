import FlowGraph.Proofs.Lasting
import FlowGraph.Proofs.Reporting

/-!
Failures of a kind. Where all that may go wrong outside of steps is of a kind, and so is what goes wrong in steps, no engine
ever has a failure that is not, whatever behaviours and hosts do.
-/
namespace FlowGraph

open World Play

/-- What is tolerated does not depend on what changes when graphs run. -/
theorem Failure.Tolerated.outlined {K : NodeRef → Prop} {C : Failure → Prop} {u w : World} (hC : Failure.Tolerated K C u)
    (h : Outlined u w) : Failure.Tolerated K C w where
  started x b hb := hC.started x b (h.definition x ▸ hb)
  disposal := hC.disposal
  refused x output := h.nodeFailure x _ ▸ hC.refused x output
  payload x cause := h.nodeFailure x _ ▸ hC.payload x cause
  endless x hx hnone := h.nodeFailure x _ ▸ hC.endless x hx ((Outlined.flowOutputs_eq_nil h x).1 hnone)

/-- The world is one like `u`, all failures of its engines are of the kind, and all operations are of nodes with the
property. -/
structure World.Spared (K : NodeRef → Prop) (C : Failure → Prop) (u w : World) : Prop where
  outlined : Outlined u w
  failures : ∀ j, ∀ e ∈ (w.engine j).failures, C e
  manned : ∀ j, (w.engine j).Manned K

namespace World.Spared

variable {K : NodeRef → Prop} {C : Failure → Prop} {u v w : World}

theorem self (h : Spared K C u w) : Recorded K C w w := .refl h.manned

/-- What goes wrong next is of the kind, if all that is recorded is. -/
theorem next (h : Spared K C u w) (hw : Recorded K C w v) : Spared K C u v := by
  obtain ⟨es, hes, hC⟩ := hw.reported
  refine ⟨hes.outlined.trans h.outlined, fun j e he => ?_, hw.manned⟩
  by_cases hj : j < w.engines.size
  · rw [hes.failures j hj] at he
    rcases List.mem_append.1 he with he | he
    · obtain ⟨p, hp, rfl⟩ := List.mem_map.1 he
      exact hC p (List.mem_filter.1 hp).1
    · exact h.failures j e he
  · have hnone : v.engine j = {} := by
      rw [World.engine, Array.getElem?_eq_none (by rw [hes.size]; omega)]
      rfl
    rw [hnone] at he
    exact absurd he List.not_mem_nil

/-- A change of engines that leaves their records, their operations and their inboxes alone. -/
theorem arrange (h : Spared K C u w) (j : Nat) {g : Engine → Engine} (hf : ∀ e, (g e).failures = e.failures)
    (ho : ∀ e, (g e).operations = e.operations) (hi : ∀ e, (g e).inbox = e.inbox) : Spared K C u (w.modifyEngine j g) := by
  refine ⟨h.outlined.frame rfl, fun k => ?_, manned_modifyEngine h.manned fun hm => hm.congr (ho _) (hi _)⟩
  rw [engine_modifyEngine]
  split
  · rw [hf]
    exact h.failures k
  · exact h.failures k

variable (hC : Failure.Tolerated K C u)

include hC

/-- Calls let nothing else go wrong. -/
theorem closed (A : Context → Prop) : Closed (fun w _ => Spared K C u w) A where
  stamp g x w _ h := h.next (h.self.frame (.stamp w g x) (engines_stamp w g x))
  write {w _} h _ _ _ _ _ hn := h.next (h.self.frame (.modifyNode w _ (Node.outline_write hn) (Node.error_write hn)) rfl)
  setState _ _ w _ h := h.next (h.self.frame (.modifyNode w _ rfl rfl) rfl)
  setInput x place v w _ h := h.next (h.self.frame (.modifyNode w x (Node.outline_setInput _ place v) rfl) rfl)
  assign {w _} h _ _ _ _ _ hg :=
    h.next (h.self.frame (.modifyGraph w _ (Outlined.outline_assign hg) (Graph.arena_assign hg)) rfl)
  record _ he w _ h := h.next (h.self.frame (.record w he) rfl)
  tell j _ he _ _ h := h.next (h.self.tell j he)
  hold _ _ _ h := h.next (h.self.frame (.frame rfl rfl rfl) rfl)
  schedule _ _ _ h := h.next (h.self.frame (.frame rfl rfl rfl) rfl)
  store _ _ _ h := h.next (h.self.frame (.frame rfl rfl rfl) rfl)
  subscribe _ _ _ _ h := h.next (h.self.frame (.frame rfl rfl rfl) rfl)
  unsubscribe _ _ _ h := h.next (h.self.frame (.frame rfl rfl rfl) rfl)
  enlist _ _ _ _ _ h := h.next (h.self.frame (.frame rfl rfl rfl) rfl)
  unlist _ _ _ h := h.next (h.self.frame (.frame rfl rfl rfl) rfl)
  report _ id typeName cause hcause _ _ h := h.next (h.self.report _ (hC.disposal id typeName cause hcause))
  begin j x output l _ values _ _ _ h := h.next (h.self.begin (hC.outlined h.outlined) j x output l values)
  commit {x j f input} _ output l _ w _ h := h.next (h.self.of_local (.commitFiber w j f x output l)
    (fun _ hp => absurd hp List.not_mem_nil) (Local.commitFiber w j f x output l))
  stop _ _ _ h := h.next (h.self.endFiber _ _ _)
  register h j _ x hx input := by
    obtain ⟨b, hb⟩ := hx
    rw [h.outlined.definition] at hb
    exact h.next (h.self.modifyEngine j (fun _ => rfl) (fun _ => rfl) fun hm => hm.register (hC.started x b hb) input _)
  enrol _ _ _ h := h.next (h.self.modifyEngine _ (fun _ => rfl) (fun _ => rfl) fun hm => hm.modifyOperation _ fun _ => rfl)
  finish j o output _ _ h := h.next (h.self.finishOperation (hC.outlined h.outlined) j o output false)
  dismiss {w _} h _ _ hj ho := h.next ((Recorded.closed (hC.outlined h.outlined) A).dismiss (r := w) h.self hj ho)
  close h _ _ := h.arrange _ (fun _ => rfl) (fun _ => rfl) fun _ => rfl
  relinquish h j _ _ o := h.next (relinquish_upholds
    (h.self.modifyEngine j (fun _ => rfl) (fun _ => rfl) fun hm => hm.modifyOperation o fun _ => rfl) h.self)
  release h _ _ _ := h.arrange _ (fun _ => rfl) (fun _ => rfl) fun _ => rfl
  clear h j _ _ := h.next (h.self.modifyEngine j (fun _ => rfl) (fun _ => rfl)
    fun hm => ⟨hm.operations, fun _ _ hp => absurd hp List.not_mem_nil⟩)

/-- Nor does anything that runs. -/
theorem lasting : Lasting C (Spared K C u) where
  calls := closed hC _
  alter w h i f g _ := h.arrange i (fun _ => rfl) (fun _ => rfl) fun _ => rfl
  entry w h i f := h.next (h.self.of_local (.applyEntry w i f) (fun _ hp => absurd hp List.not_mem_nil) (Local.applyEntry w i f))
  report w h i e he := h.next (h.self.report i he)
  arrange w h i g hg := by
    refine h.arrange i (fun e => ?_) (fun e => ?_) fun e => ?_
    all_goals obtain ⟨_, _, _, _, _, heq⟩ := hg e; rw [heq]
  conclude w h i f := by
    refine h.arrange i (fun e => ?_) (fun e => ?_) fun e => ?_
    all_goals rw [Engine.finish_frame]
  abort w h i f := by
    refine h.arrange i (fun e => ?_) (fun e => ?_) fun e => ?_
    all_goals rw [Engine.abort_frame]
  push w h name nodes eventNodes settings := by
    refine ⟨h.outlined.frame rfl, fun j => ?_, fun j => ?_⟩
    all_goals
      simp only [World.engine, Array.getElem?_push]
      split
    · exact fun _ he => absurd he List.not_mem_nil
    · exact h.failures j
    · exact ⟨fun _ hop => absurd hop (Array.not_mem_empty _), fun _ _ hp => absurd hp List.not_mem_nil⟩
    · exact h.manned j
  post w h j x output l values := by
    refine h.next (h.self.modifyEngine j (fun _ => rfl) (fun _ => rfl) fun hm => ⟨hm.operations, fun o out ho => ?_⟩)
    rcases List.mem_append.1 ho with ho | ho
    · exact hm.posts o out ho
    · cases List.mem_singleton.1 ho
  finish w h j o output fromOutside := h.next (h.self.finishOperation (hC.outlined h.outlined) j o output fromOutside)
  drainInbox w h j := h.next (h.self.drainInbox (hC.outlined h.outlined) j)

end World.Spared

end FlowGraph
