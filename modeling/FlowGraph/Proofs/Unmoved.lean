import FlowGraph.Proofs.Retained

/-!
What paths and operations do besides what they do to engines. When a path starts or an operation completes, values are written
at nodes, labels are given and failures are heard of, but neither the states of nodes nor variables nor subscriptions change.
What depends on those only outlasts it, and if it depends on graphs only, whatever else is done in the name of nodes besides
setting states and assigning variables.
-/
namespace FlowGraph

open World Play

theorem Node.state_write {n m : Node} {name : String} {v : Value} (h : n.write name v = .ok m) : m.state = n.state := by
  unfold write at h
  split at h
  · split at h
    · cases h
    · cases h
      rfl
  · cases h

/-- A property of worlds that outlasts what is done where paths start and operations complete: it does not depend on engines,
on what the host hears of failures, on labels, and of nodes on anything but the states. -/
structure Detached (P : World → Prop) : Prop where
  engine : ∀ {w : World}, P w → ∀ j f, P (w.modifyEngine j f)
  failed : ∀ {w : World}, P w → ∀ e : Event, e.isFailed = true → P (w.record e)
  stamp : ∀ {w : World}, P w → ∀ g v, P (w.stamp g v).2
  node : ∀ {w : World}, P w → ∀ y (f : Node → Node), (f (w.node y)).state = (w.node y).state → P (w.modifyNode y f)

namespace Detached

variable {P : World → Prop} {w : World} (h : Detached P) (hw : P w)

include h hw

theorem report (j : Nat) (e : Failure) : P (w.report j e) := by
  unfold World.report
  refine h.failed (h.engine ?_ _ _) _ rfl
  split
  · split
    · exact h.node hw _ _ rfl
    · exact hw
  · exact hw

theorem writeOutputs (x : NodeRef) (values : List (String × Value)) : P (w.writeOutputs x values).2 := by
  induction values generalizing w with
  | nil => exact hw
  | cons p rest ih =>
    unfold World.writeOutputs
    split
    · rename_i n hn
      exact ih (h.node hw x _ (Node.state_write hn))
    · exact hw

/-- What is not moved by writing stands when a trigger writes what it carries. -/
theorem applyEntry (j f : Nat) : P (w.applyEntry j f).2 := by
  have hmarked := h.engine hw j (·.modifyFiber f fun f => { f with isWritten := true })
  unfold World.applyEntry
  dsimp only
  split
  · exact hmarked
  · rename_i x values _
    have hwritten := h.writeOutputs hmarked x values
    split
    · rename_i heq
      rw [heq] at hwritten
      exact hwritten
    · rename_i heq
      rw [heq] at hwritten
      exact hwritten

theorem stampOutputs (g : Nat) (values : List (String × Value)) : P (w.stampOutputs g values).2 := by
  induction values generalizing w with
  | nil => exact hw
  | cons p rest ih => exact ih (h.stamp hw g p.2)

theorem commitFiber (j f : Nat) (x : NodeRef) (output : String) (l : Option Listener) :
    P (w.commitFiber j f x output l).2 := by
  unfold World.commitFiber
  split
  · exact hw
  · exact h.engine hw _ _

theorem endFiber (j f : Nat) (x : NodeRef) : P (w.endFiber j f x).2 := by
  unfold World.endFiber
  split
  · exact hw
  · exact h.engine hw _ _

/-- It stands when a fiber is put in the queue. -/
theorem enqueue (j f : Nat) : P (w.enqueue j f) := by
  unfold World.enqueue
  dsimp only
  split
  · have happly := h.applyEntry hw j f
    split
    · rename_i heq
      rw [heq] at happly
      exact h.report happly j _
    · rename_i heq
      rw [heq] at happly
      exact h.engine happly _ _
  · split
    · exact h.engine hw _ _
    · exact h.engine hw _ _

/-- A path starts. -/
theorem begin (j : Nat) (x : NodeRef) (output : String) (l : Option Listener) (values : List (String × Value)) :
    P (w.begin j x output l values) := by
  unfold World.begin
  split
  · exact hw
  · have hv := h.stampOutputs hw x.graph values
    dsimp only
    generalize (w.stampOutputs x.graph values).2 = v at hv ⊢
    generalize (if (w.stampOutputs x.graph values).1.isEmpty then none
      else some (x, (Table.ofList (w.stampOutputs x.graph values).1).entries)) = entry
    have hpush := h.engine hv j fun e => { e with fibers := e.fibers.push { entry := entry } }
    have hcommit := h.commitFiber hpush j (v.engine j).fibers.size x output l
    split
    · rename_i heq
      rw [heq] at hcommit
      exact h.report hcommit j _
    · rename_i heq
      rw [heq] at hcommit
      exact h.enqueue hcommit j _

end Detached

/-- A property of worlds that depends on graphs only, and of their nodes on the states. -/
structure Unmoved (P : World → Prop) : Prop extends Detached P where
  frame : ∀ {w v : World}, P w → v.graphs = w.graphs → P v

namespace Unmoved

variable {P : World → Prop} {A : Context → Prop} {w : World}

/-- What does not concern graphs is out of the question. -/
theorem of_frame (frame : ∀ {w v : World}, P w → v.graphs = w.graphs → P v) (stamp : ∀ {w : World}, P w → ∀ g v, P (w.stamp g v).2)
    (node : ∀ {w : World}, P w → ∀ y (f : Node → Node), (f (w.node y)).state = (w.node y).state → P (w.modifyNode y f)) :
    Unmoved P where
  engine hw _ _ := frame hw rfl
  failed hw _ _ := frame hw rfl
  stamp := stamp
  node := node
  frame := frame

variable (h : Unmoved P) (hw : P w)

include h hw

theorem tell (j : Nat) (e : String → Event) : P (w.tell j e) := by
  unfold World.tell
  split
  · exact h.frame hw rfl
  · exact hw

theorem chooseOutput (x : NodeRef) (output : Option String) : P (w.chooseOutput x output).1 := by
  have hforget : P (if output.isNone then w.modifyNode x fun n => { n with lastOutput := none } else w) := by
    split
    · exact h.node hw x _ rfl
    · exact hw
  unfold World.chooseOutput
  dsimp only
  generalize (if output.isNone then w.modifyNode x fun n => { n with lastOutput := none } else w) = v at hforget ⊢
  split
  · exact hforget
  · split
    · exact h.node hforget x _ rfl
    · exact hforget

/-- An operation completes. -/
theorem complete (j o : Nat) (output : Option String) : P (w.complete j o output) := by
  refine complete_upholds ?_ ?_ ?_ ?_ ?_ hw
  · exact fun w hw => h.frame hw rfl
  · exact fun w x hw => h.chooseOutput hw x output
  · exact fun w e hw => h.report hw j e
  · exact fun w x name hw => h.begin hw j x name none []
  · exact fun w e hw => h.tell hw j e

theorem finishOperation (j o : Nat) (output : Option String) (fromOutside : Bool) :
    P (w.finishOperation j o output fromOutside) := by
  refine finishOperation_upholds ?_ ?_ ?_ hw
  · exact fun w hw _ _ => h.frame hw rfl
  · exact fun w hw _ => h.complete hw j o output
  · exact fun w hw _ => h.frame hw rfl

theorem drainInbox (j : Nat) : P (w.drainInbox j) := by
  refine drainInbox_upholds (h.frame hw rfl) fun p _ v hv => ?_
  cases p with
  | complete o output => exact h.complete hv j o output
  | begin x output l values => exact h.begin hv j x output l values

theorem rest (i f : Nat) : P (Play.rest w i f) := by
  unfold Play.rest
  dsimp only
  split
  · exact h.frame hw rfl
  · refine h.drainInbox (h.frame hw ?_) i
    split <;> rfl

theorem pop (i f : Nat) (others : List Nat) : P (Play.pop i f others w) := by
  refine h.frame hw ?_
  unfold Play.pop
  split <;> rfl

omit hw

/-- Besides, only states that nodes set and variables that are assigned have to be looked at. -/
theorem closed (hstate : ∀ w, P w → ∀ c : Context, A c → ∀ v, P (w.modifyNode c.node fun n => { n with state := v }))
    (hassign : ∀ w, P w → ∀ g x v changed told, (w.graph g).assign x v = .ok (changed, told) →
      P (w.modifyGraph g fun _ => changed)) : Closed (fun w _ => P w) A where
  stamp g v _ _ hw := h.stamp hw g v
  write hw _ _ _ _ _ hn := h.node hw _ _ (Node.state_write hn)
  setState hc v w _ hw := hstate w hw _ hc v
  setInput x _ _ _ _ hw := h.node hw x _ rfl
  assign {w _} hw g x v changed told hg := hassign w hw g x v changed told hg
  record _ _ _ _ hw := h.frame hw rfl
  tell j e _ _ _ hw := h.tell hw j e
  hold _ _ _ hw := h.frame hw rfl
  schedule _ _ _ hw := h.frame hw rfl
  store _ _ _ hw := h.frame hw rfl
  subscribe _ _ _ _ hw := h.frame hw rfl
  unsubscribe _ _ _ hw := h.frame hw rfl
  enlist _ _ _ _ _ hw := h.frame hw rfl
  unlist _ _ _ hw := h.frame hw rfl
  report {j} _ _ _ _ _ _ _ hw := h.report hw j _
  begin j x output l _ values _ _ _ hw := h.begin hw j x output l values
  commit _ output l _ _ _ hw := h.commitFiber hw _ _ _ output l
  stop _ _ _ hw := h.endFiber hw _ _ _
  register hw _ _ _ _ _ := h.frame hw rfl
  enrol _ _ _ hw := h.frame hw rfl
  finish j o output _ _ hw := h.finishOperation hw j o output false
  dismiss hw _ _ _ _ := relinquish_upholds (h.frame hw rfl) (h.frame hw rfl)
  close hw _ _ := h.frame hw rfl
  relinquish hw _ _ _ _ := relinquish_upholds (h.frame hw rfl) hw
  release hw _ _ _ := h.frame hw rfl
  clear hw _ _ _ := h.frame hw rfl

end Unmoved

end FlowGraph
