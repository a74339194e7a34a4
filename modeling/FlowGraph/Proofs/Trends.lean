import FlowGraph.Proofs.Iterations

/-!
What becomes of an engine, whoever acts. Calls, posts and the handling of fibers come down to a few kinds of changes of an
engine; a relation between engines that covers each of them covers all that happens, but for the counting of steps.
-/
namespace FlowGraph

open World Play

namespace Engine

theorem abort_frame (e : Engine) (f : Nat) :
    e.abort f = { e with fibers := (e.abort f).fibers, queue := (e.abort f).queue } := by
  rw [abort, finish_frame]
  rfl

/-- The relation covers each kind of change of an engine: fibers and how they stand, the flag of an asynchronous run, what
went wrong, what is under way or asked for, and that the engine is disposed of. -/
structure Trend (T : Engine → Engine → Prop) : Prop where
  refl : ∀ e, T e e
  trans : ∀ {e e' e''}, T e e' → T e' e'' → T e e''
  fibers : ∀ e fibers queue current, T e { e with fibers := fibers, queue := queue, current := current }
  notify : ∀ e : Engine, T e e.notify
  report : ∀ e x, T e { e with failures := x :: e.failures }
  work : ∀ e operations pending inbox, T e { e with operations := operations, pending := pending, inbox := inbox }
  close : ∀ e, T e { e with isDisposed := true }

end Engine

namespace Engine.Trend

variable {T : Engine → Engine → Prop}

theorem of_engines {i : Nat} {u v w : World} (h : T (u.engine i) (w.engine i)) (he : v.engines = w.engines) :
    T (u.engine i) (v.engine i) := by
  rwa [engine_congr he]

variable (hT : Engine.Trend T)

include hT

theorem commit (e : Engine) (f : Nat) (x : NodeRef) (l : Option Listener) (wires : List Wire) : T e (e.commit f x l wires) := by
  rw [commit_frame]
  exact hT.fibers e _ _ e.current

theorem finish (e : Engine) (f : Nat) : T e (e.finish f) := by
  rw [finish_frame]
  exact hT.fibers e _ _ e.current

theorem abort (e : Engine) (f : Nat) : T e (e.abort f) := by
  rw [abort_frame]
  exact hT.fibers e _ _ e.current

theorem modifyFiber (e : Engine) (f : Nat) (g : Fiber → Fiber) : T e (e.modifyFiber f g) := hT.fibers e _ e.queue e.current

theorem modifyOperation (e : Engine) (o : Nat) (g : Operation → Operation) : T e (e.modifyOperation o g) :=
  hT.work e _ e.pending e.inbox

section Worlds

variable {i : Nat} {u v w : World}

theorem modifyEngine (h : T (u.engine i) (w.engine i)) (j : Nat) {g : Engine → Engine} (hg : ∀ e, T e (g e)) :
    T (u.engine i) ((w.modifyEngine j g).engine i) := by
  refine hT.trans h ?_
  rw [engine_modifyEngine]
  split
  · exact hg _
  · exact hT.refl _

theorem reported (h : T (u.engine i) (w.engine i)) (j : Nat) (e : Failure) : T (u.engine i) ((w.report j e).engine i) :=
  of_engines (hT.modifyEngine h j (g := fun x => { x with failures := e :: x.failures }) fun x => hT.report x e)
    (engines_report w j e)

/-- The trend goes on while a trigger writes what it carries. -/
theorem applyEntry (h : T (u.engine i) (w.engine i)) (j f : Nat) : T (u.engine i) ((w.applyEntry j f).2.engine i) := by
  have hmarked := hT.modifyEngine h j (g := (·.modifyFiber f fun x => { x with isWritten := true }))
    fun e => hT.modifyFiber e f _
  unfold World.applyEntry
  dsimp only
  split
  · exact hmarked
  · rename_i x values _
    have hwrite := of_engines hmarked (engines_writeOutputs _ x values)
    split
    · rename_i heq
      rw [heq] at hwrite
      exact hwrite
    · rename_i heq
      rw [heq] at hwrite
      exact hwrite

theorem commitFiber (h : T (u.engine i) (w.engine i)) (j f : Nat) (x : NodeRef) (output : String) (l : Option Listener) :
    T (u.engine i) ((w.commitFiber j f x output l).2.engine i) := by
  unfold World.commitFiber
  split
  · exact h
  · exact hT.modifyEngine h j fun e => hT.commit e f x l _

/-- The trend goes on when a fiber is put in the queue. -/
theorem enqueue (h : T (u.engine i) (w.engine i)) (j f : Nat) : T (u.engine i) ((w.enqueue j f).engine i) := by
  unfold World.enqueue
  dsimp only
  split
  · have happly := hT.applyEntry h j f
    split
    · rename_i heq
      rw [heq] at happly
      exact hT.reported happly j _
    · rename_i heq
      rw [heq] at happly
      exact hT.modifyEngine happly j hT.notify
  · split
    · exact hT.modifyEngine h j hT.notify
    · exact hT.modifyEngine h j fun e => hT.trans (hT.fibers e e.fibers _ e.current) (hT.notify _)

/-- The trend goes on when a path begins. -/
theorem begin (h : T (u.engine i) (w.engine i)) (j : Nat) (x : NodeRef) (output : String) (l : Option Listener)
    (values : List (String × Value)) : T (u.engine i) ((w.begin j x output l values).engine i) := by
  unfold World.begin
  split
  · exact h
  · have hstamped := of_engines h (engines_stampOutputs w x.graph values)
    dsimp only
    generalize (w.stampOutputs x.graph values).2 = v at hstamped ⊢
    generalize (if (w.stampOutputs x.graph values).1.isEmpty then none
      else some (x, (Table.ofList (w.stampOutputs x.graph values).1).entries)) = entry
    have hpushed := hT.modifyEngine hstamped j (g := fun e => { e with fibers := e.fibers.push { entry := entry } })
      fun e => hT.fibers e _ e.queue e.current
    have hcommitted := hT.commitFiber hpushed j (v.engine j).fibers.size x output l
    split
    · rename_i heq
      rw [heq] at hcommitted
      exact hT.reported hcommitted j _
    · rename_i heq
      rw [heq] at hcommitted
      exact hT.enqueue hcommitted j _

theorem complete (h : T (u.engine i) (w.engine i)) (j o : Nat) (output : Option String) :
    T (u.engine i) ((w.complete j o output).engine i) := by
  refine complete_upholds (P := fun w => T (u.engine i) (w.engine i)) ?_ ?_ ?_ ?_ ?_ h
  · exact fun w h => hT.modifyEngine h j fun e => hT.work e e.operations _ e.inbox
  · exact fun w x h => of_engines h (engines_chooseOutput w x output)
  · exact fun w e h => hT.reported h j e
  · exact fun w x name h => hT.begin h j x name none []
  · exact fun w e h => of_engines h (engines_tell w j e)

theorem posted (h : T (u.engine i) (w.engine i)) (j : Nat) (p : Post) : T (u.engine i) ((w.post j p).engine i) :=
  hT.modifyEngine h j fun e => hT.trans (hT.work e e.operations e.pending _) (hT.notify _)

theorem finishOperation (h : T (u.engine i) (w.engine i)) (j o : Nat) (output : Option String) (fromOutside : Bool) :
    T (u.engine i) ((w.finishOperation j o output fromOutside).engine i) := by
  refine finishOperation_upholds (P := fun w => T (u.engine i) (w.engine i)) ?_ ?_ ?_ h
  · exact fun w h _ _ => hT.modifyEngine h j fun e => hT.modifyOperation e o _
  · exact fun w h _ => hT.complete h j o output
  · exact fun w h _ => hT.posted h j _

theorem drainInbox (h : T (u.engine i) (w.engine i)) (j : Nat) : T (u.engine i) ((w.drainInbox j).engine i) := by
  have hempty := hT.modifyEngine h j (g := fun e => { e with inbox := [] }) fun e => hT.work e e.operations e.pending []
  refine drainInbox_upholds (P := fun w => T (u.engine i) (w.engine i)) hempty fun p _ v hv => ?_
  cases p with
  | complete o output => exact hT.complete hv j o output
  | begin x output l values => exact hT.begin hv j x output l values

theorem relinquish (h : T (u.engine i) (w.engine i)) (j o : Nat) : T (u.engine i) ((w.relinquish j o).engine i) :=
  relinquish_upholds (P := fun w => T (u.engine i) (w.engine i)) (hT.modifyEngine h j fun e => hT.modifyOperation e o _) h

theorem strike (h : T (u.engine i) (w.engine i)) (j o : Nat) : T (u.engine i) ((w.strike j o).engine i) :=
  hT.modifyEngine h j fun e => hT.work e e.operations _ e.inbox

theorem rest (h : T (u.engine i) (w.engine i)) (j f : Nat) : T (u.engine i) ((Play.rest w j f).engine i) := by
  unfold Play.rest
  dsimp only
  split
  · exact hT.modifyEngine h j fun e => hT.fibers e e.fibers _ none
  · refine hT.drainInbox (hT.modifyEngine ?_ j fun e => hT.fibers e e.fibers e.queue none) j
    split
    · exact hT.modifyEngine h j fun e => hT.finish e f
    · exact h

theorem pop (h : T (u.engine i) (w.engine i)) (j f : Nat) (others : List Nat) :
    T (u.engine i) ((Play.pop j f others w).engine i) := by
  have hpopped := hT.modifyEngine h j (g := fun e => { e with queue := others }) fun e => hT.fibers e e.fibers others e.current
  unfold Play.pop
  split
  · exact hT.modifyEngine hpopped j fun e => hT.finish e f
  · exact hpopped

end Worlds

/-- Whatever is done in the name of nodes keeps to the trend. -/
theorem closed (u : World) (i : Nat) (A : Context → Prop) : Closed (fun w _ => T (u.engine i) (w.engine i)) A where
  stamp g v w _ h := of_engines h (engines_stamp w g v)
  write h _ _ _ _ _ _ := h
  setState _ _ _ _ h := h
  setInput _ _ _ _ _ h := h
  assign h _ _ _ _ _ _ := h
  record _ _ _ _ h := h
  tell j e _ w _ h := of_engines h (engines_tell w j e)
  hold _ _ _ h := h
  schedule _ _ _ h := h
  store _ _ _ h := h
  subscribe _ _ _ _ h := h
  unsubscribe _ _ _ h := h
  enlist _ _ _ _ _ h := h
  unlist _ _ _ h := h
  report {j} _ _ _ _ _ _ _ h := hT.reported h j _
  begin j x output l _ values _ _ _ h := hT.begin h j x output l values
  commit _ output l _ _ _ h := hT.commitFiber h _ _ _ output l
  stop {x j f _} _ w _ h := by
    dsimp only [World.endFiber]
    split
    · exact h
    · exact hT.modifyEngine h j fun e => hT.modifyFiber e f _
  register h j _ _ _ _ := hT.modifyEngine h j fun e => hT.work e _ _ e.inbox
  enrol {j o _} _ _ _ h := hT.modifyEngine h j fun e => hT.modifyOperation e o _
  finish j o output _ _ h := hT.finishOperation h j o output false
  dismiss h j o _ _ := hT.relinquish (hT.strike h j o) j o
  close h j _ := hT.modifyEngine h j hT.close
  relinquish h j _ _ o := hT.relinquish h j o
  release h j _ _ := hT.modifyEngine h j fun e => hT.work e e.operations [] e.inbox
  clear h j _ _ := hT.modifyEngine h j fun e =>
    hT.trans (hT.fibers e e.fibers [] e.current) (hT.work _ e.operations e.pending [])

theorem conduct (u : World) (i : Nat) : Conduct (Upholds fun w => T (u.engine i) (w.engine i)) fun _ => True := by
  refine (hT.closed u i _).conduct ?_ ?_ ?_ ?_
  · intro _ _ p _
    cases p.2 <;> trivial
  · intro _ _ _ _ _ d _
    cases d <;> trivial
  · exact fun _ _ _ _ _ => trivial
  · exact fun _ _ _ _ _ _ _ => trivial

theorem duty (u : World) (i j f : Nat) : Duty j f (fun _ => True) fun w => T (u.engine i) (w.engine i) where
  conduct := hT.conduct u i
  engages := engages_all _
  reaches _ _ _ _ _ _ := trivial
  heeds _ _ _ _ _ _ := trivial
  alter _ h g _ _ _ := hT.modifyEngine h j fun e => hT.modifyFiber e f g

/-- A step of a fiber keeps to the trend, whether it fails or not. -/
theorem step (w : World) (i j f : Nat) : T (w.engine i) (((Play.step j f).runOn w).2.engine i) := by
  have hentry := hT.applyEntry (hT.refl (w.engine i)) j f
  rw [runOn_step]
  split
  · rename_i heq
    rw [heq] at hentry
    exact (hT.duty w i j f).proceed hentry
  · rename_i heq
    rw [heq] at hentry
    exact hentry

/-- An iteration keeps to the trend where the counting of steps does. -/
theorem iteration (hcount : ∀ e, T e { e with steps := e.steps + 1 }) {i j : Nat} {w v : World} (hi : Iteration j w v) :
    T (w.engine i) (v.engine i) := by
  cases hi with
  | pop hq _ => exact hT.drainInbox (hT.pop (hT.refl _) j _ _) j
  | @turn _ f others hq _ ht =>
    have htaken : T (w.engine i) ((w.modifyEngine j fun e => { e with queue := others }).engine i) :=
      hT.modifyEngine (hT.refl _) j fun e => hT.fibers e e.fibers others e.current
    have hstep : T (w.engine i) (((Play.step j f).runOn (atWork j f others w)).2.engine i) :=
      hT.trans (hT.modifyEngine htaken j fun e => hT.fibers e e.fibers e.queue (some f)) (hT.step _ i j f)
    rcases turn_eq_ok ht with ⟨s, hp, rfl⟩ | ⟨e, s, -, hp, rfl⟩
    · rw [hp] at hstep
      exact hT.rest (hT.modifyEngine hstep j hcount) j f
    · rw [hp] at hstep
      exact hT.rest (hT.modifyEngine (hT.reported hstep j e) j fun x => hT.trans (hcount x) (hT.abort _ f)) j f

end Engine.Trend

end FlowGraph
