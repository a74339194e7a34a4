import FlowGraph.Proofs.Counting
import FlowGraph.Proofs.Lines
import FlowGraph.Proofs.Reporting

/-!
The chronicle of failures. Whatever an engine does, each failure that it puts down has one cause: a path that could not start, an
operation that could not go on, something that could not be undone, or a step that went wrong. Each cause puts down one
failure, and nothing else puts down any.
-/
namespace FlowGraph

open World Play

/-- From one world on to another these failures, latest first, were put down, each for a cause of its own. -/
inductive Chronicle : World → List (Nat × Failure) → World → Prop where
  /-- Nothing is put down. -/
  | quiet {v w : World} : Reported [] v w → Chronicle v [] w
  | trans {u v w : World} {es es' : List (Nat × Failure)} : Chronicle u es v → Chronicle v es' w → Chronicle u (es' ++ es) w
  | begin {w : World} {j : Nat} {x : NodeRef} {output : String} {l : Option Listener} {values : List (String × Value)}
      {e : Failure} : w.BeginFails j x output l values e →
      Reported [(j, e)] w (w.begin j x output l values) → Chronicle w [(j, e)] (w.begin j x output l values)
  | complete {w : World} {j o : Nat} {output : Option String} {e : Failure} : w.CompleteFails j o output e →
      Reported [(j, e)] w (w.complete j o output) → Chronicle w [(j, e)] (w.complete j o output)
  | disposal {w : World} (j : Nat) (id typeName : String) {cause : Failure} : cause.isUttered = true →
      Chronicle w [(j, .node id typeName (.disposal cause))] (w.report j (.node id typeName (.disposal cause)))
  | step {w v : World} {i f : Nat} {es : List (Nat × Failure)} {e : Failure} : (Play.step i f).runOn w = (.error e, v) →
      w.StepFails i f e → Chronicle w es v → Chronicle w ((i, e) :: es) (v.report i e)

namespace World

/-- There is a chronicle from the one world on to the other. -/
def Chronicled (v w : World) : Prop := ∃ es, Chronicle v es w

end World

/-- Every failure of a chronicle is among those of its engine, and the host heard of it, once. -/
theorem Chronicle.reported {v w : World} {es : List (Nat × Failure)} (h : Chronicle v es w) : Reported es v w := by
  induction h with
  | quiet h => exact h
  | trans _ _ ih ih' => exact ih.trans ih'
  | begin _ h => exact h
  | complete _ h => exact h
  | disposal j id typeName _ => exact .report _ j _
  | step _ _ _ ih => exact ih.trans (.report _ _ _)

namespace World.Chronicled

variable {u v w : World} {j o f : Nat}

theorem refl (w : World) : Chronicled w w := ⟨[], .quiet (.refl w)⟩

theorem trans (h : Chronicled u v) (h' : Chronicled v w) : Chronicled u w :=
  have ⟨es, hes⟩ := h
  have ⟨es', hes'⟩ := h'
  ⟨es' ++ es, hes.trans hes'⟩

theorem next (h : Chronicled u v) (h' : Reported [] v w) : Chronicled u w := h.trans ⟨[], .quiet h'⟩

/-- A change of an engine that leaves its record alone. -/
theorem modifyEngine (h : Chronicled v w) (j : Nat) {g : Engine → Engine} (hc : ∀ e, (g e).card = e.card)
    (hf : ∀ e, (g e).failures = e.failures) : Chronicled v (w.modifyEngine j g) :=
  h.next (.modifyEngine w j hc hf)

theorem endFiber (h : Chronicled v w) (j f : Nat) (x : NodeRef) : Chronicled v (w.endFiber j f x).2 := by
  unfold World.endFiber
  split
  · exact h
  · exact h.modifyEngine j (fun _ => rfl) fun _ => rfl

theorem begin (h : Chronicled v w) (j : Nat) (x : NodeRef) (output : String) (l : Option Listener)
    (values : List (String × Value)) : Chronicled v (w.begin j x output l values) := by
  rcases reported_begin w j x output l values with ⟨e, he, hreported⟩ | ⟨-, hquiet⟩
  · exact h.trans ⟨[(j, e)], .begin he hreported⟩
  · exact h.next hquiet

theorem complete (h : Chronicled v w) (j o : Nat) (output : Option String) : Chronicled v (w.complete j o output) := by
  rcases reported_complete w j o output with ⟨e, he, hreported⟩ | ⟨-, hquiet⟩
  · exact h.trans ⟨[(j, e)], .complete he hreported⟩
  · exact h.next hquiet

theorem finishOperation (h : Chronicled v w) (j o : Nat) (output : Option String) (fromOutside : Bool) :
    Chronicled v (w.finishOperation j o output fromOutside) := by
  refine finishOperation_upholds (P := Chronicled v) (fun w h _ _ => ?_) (fun w h _ => h.complete j o output) (fun w h _ => ?_) h
  · exact h.modifyEngine j (fun _ => rfl) fun _ => rfl
  · exact h.modifyEngine j (fun _ => rfl) fun _ => rfl

theorem drainInbox (h : Chronicled v w) (j : Nat) : Chronicled v (w.drainInbox j) := by
  refine drainInbox_upholds (h.modifyEngine j (fun _ => rfl) fun _ => rfl) fun p _ z hz => ?_
  cases p with
  | complete o output => exact hz.complete j o output
  | begin x output l values => exact hz.begin j x output l values

/-- Whatever is done in the name of nodes goes by the chronicle. -/
theorem closed (v : World) (A : Context → Prop) : Closed (fun w _ => Chronicled v w) A where
  stamp g x w _ h := h.next (.stamp w g x)
  write {w _} h _ _ _ _ _ hn := h.next (.modifyNode w _ (Node.outline_write hn) (Node.error_write hn))
  setState _ _ w _ h := h.next (.modifyNode w _ rfl rfl)
  setInput x place v w _ h := h.next (.modifyNode w x (Node.outline_setInput _ place v) rfl)
  assign {w _} h _ _ _ _ _ hg := h.next (.modifyGraph w _ (Outlined.outline_assign hg) (Graph.arena_assign hg))
  record e he w _ h := h.next (.record w he)
  tell j _ he w _ h := h.next (.tell w j he)
  hold _ _ _ h := h.next (.frame rfl rfl rfl)
  schedule _ _ _ h := h.next (.frame rfl rfl rfl)
  store _ _ _ h := h.next (.frame rfl rfl rfl)
  subscribe _ _ _ _ h := h.next (.frame rfl rfl rfl)
  unsubscribe _ _ _ h := h.next (.frame rfl rfl rfl)
  enlist _ _ _ _ _ h := h.next (.frame rfl rfl rfl)
  unlist _ _ _ h := h.next (.frame rfl rfl rfl)
  report {j} _ id typeName _ hcause _ _ h := h.trans ⟨_, .disposal j id typeName hcause⟩
  begin j x output l _ values _ _ _ h := h.begin j x output l values
  commit _ output l _ w _ h := h.next (.commitFiber w _ _ _ output l)
  stop {x j f _} _ w _ h := h.endFiber j f x
  register h j _ _ _ _ := h.modifyEngine j (fun _ => rfl) fun _ => rfl
  enrol _ _ _ h := h.modifyEngine _ (fun _ => rfl) fun _ => rfl
  finish j o output _ _ h := h.finishOperation j o output false
  dismiss h j o _ _ := by
    have hstruck := h.modifyEngine (g := fun e => { e with pending := e.pending.erase o }) j (fun _ => rfl) fun _ => rfl
    exact relinquish_upholds (hstruck.modifyEngine j (fun _ => rfl) fun _ => rfl) hstruck
  close h j _ := h.modifyEngine j (fun _ => rfl) fun _ => rfl
  relinquish h j _ _ _ := relinquish_upholds (h.modifyEngine j (fun _ => rfl) fun _ => rfl) h
  release h j _ _ := h.modifyEngine j (fun _ => rfl) fun _ => rfl
  clear h j _ _ := h.modifyEngine j (fun _ => rfl) fun _ => rfl

end World.Chronicled

end FlowGraph
