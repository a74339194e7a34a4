import FlowGraph.Proofs.Sequels

/-!
Nodes that take part in flow act for fibers. As long as hosts make engines, run them and do what else hosts do, whatever is
kept to be run later in the name of such a node is bound to a fiber, which the node was triggered by.
-/
namespace FlowGraph

open World Play

/-- A new engine keeps nothing to be run later. -/
theorem Retained.push {u w : World} {B : Context → Prop} (h : Retained u atRest B w) {e : Engine} (hf : e.fibers = #[])
    (hq : e.queue = []) (hc : e.current = none) (hi : e.inbox = []) (ho : e.operations = #[]) :
    Retained u atRest B { w with engines := w.engines.push e } := by
  refine ⟨h.toInOrder.push hf hq hc hi ho, fun j => ?_, h.undone⟩
  have hengine : ({ w with engines := w.engines.push e } : World).engine j = if j = w.engines.size then e else w.engine j := by
    simp only [World.engine, Array.getElem?_push]
    split <;> rfl
  rw [hengine]
  split
  · exact Engine.Within.empty.congr (fun k => by rw [Engine.fiber_congr (a := {}) hf]) hi ho
  · exact h.within j

/-- If the context is one of the node, it is bound to a fiber. -/
def Context.Bound (x : NodeRef) (c : Context) : Prop := c.node = x → ∃ j k input, c.role = .flow j k input

/-- The engines are in order, the graphs are what they were, and what is kept to be run later in the name of the node is bound
to fibers. -/
structure Bound (u : World) (cur : Nat → Option Nat) (x : NodeRef) (w : World) : Prop extends
    Retained u cur (Context.Bound x) w where
  outlined : Outlined u w

namespace Bound

variable {u v w : World} {cur : Nat → Option Nat} {i j f : Nat} {x : NodeRef} {b : Option FlowBehaviour}

theorem closed (u : World) (cur : Nat → Option Nat) (x : NodeRef) :
    Closed (fun w _ => Bound u cur x w) (Context.Serves (Context.Bound x) cur) := by
  refine ((Retained.closed u cur _).and (Outlined.closed u _)).congr fun w r => ?_
  exact ⟨fun h => ⟨h.1, h.2⟩, fun h => ⟨h.toRetained, h.outlined⟩⟩

theorem ne_of_behaviour (h : Bound u cur x w) (hx : (u.node x).definition.behaviour = .flow b) {y : NodeRef}
    (hy : ∀ b, (w.node y).definition.behaviour ≠ .flow b) : y ≠ x := by
  rintro rfl
  exact hy b (by rw [h.outlined.definition, hx])

theorem conduct (hx : (u.node x).definition.behaviour = .flow b) (cur : Nat → Option Nat) :
    Conduct (Upholds (Bound u cur x)) (Context.Serves (Context.Bound x) cur) := by
  have hserves {d : Disposer} (hkind : d.Within (Context.Bound x)) (hfree : d.Free) :
      d.Within (Context.Serves (Context.Bound x) cur) := by
    cases d with
    | script c actions => exact ⟨hkind, fun j k input hrole => absurd hrole (hfree j k input)⟩
    | _ => trivial
  refine (closed u cur x).conduct (fun w h d hd => ?_) (fun w h j op hop d hd => ?_) (fun w h y b hb => ?_) fun w h y b hb j o => ?_
  · exact hserves (h.undone d hd) (h.disposers d hd)
  · exact hserves ((h.within j).disposers op hop d hd) ((h.engine j).disposers op hop d hd)
  · exact ⟨fun heq => absurd heq (h.ne_of_behaviour hx (by simp [hb])), by rintro _ _ _ ⟨⟩⟩
  · exact ⟨fun heq => absurd heq (h.ne_of_behaviour hx (by simp [hb])), by rintro _ _ _ ⟨⟩⟩

theorem engages (i f : Nat) (x : NodeRef) : Engages (Context.Serves (Context.Bound x) (onlyAt i f)) i :=
  ⟨x, f, "", fun _ => ⟨i, f, "", rfl⟩, InOrder.admitted x i f ""⟩

theorem duty (hx : (u.node x).definition.behaviour = .flow b) (i f : Nat) :
    Duty i f (Context.Serves (Context.Bound x) (onlyAt i f)) (Bound u (onlyAt i f) x) where
  conduct := conduct hx _
  engages := engages i f x
  reaches _ _ y _ _ input := ⟨fun _ => ⟨i, f, input, rfl⟩, InOrder.admitted y i f input⟩
  heeds w h l hl c hc := ⟨(h.within i).listeners f l hl c hc, (InOrder.duty u i f).heeds w h.toInOrder l hl c hc⟩
  alter _ h _ hg hl hblank := ⟨h.toRetained.alter hg hl hblank, h.outlined.frame rfl⟩

theorem drainInbox (h : Bound u cur x w) (j : Nat) : Bound u cur x (w.drainInbox j) :=
  ⟨h.toRetained.drainInbox j, h.outlined.drainInbox j⟩

theorem rest (h : Bound u (onlyAt i f) x w) : Bound u atRest x (Play.rest w i f) := by
  refine ⟨h.toRetained.rest, ?_⟩
  unfold Play.rest
  dsimp only
  split
  · exact h.outlined.frame rfl
  · refine Outlined.drainInbox (h.outlined.frame ?_) i
    split <;> rfl

/-- A step of a fiber that is at work. -/
theorem step (hx : (u.node x).definition.behaviour = .flow b) (h : Bound u (onlyAt i f) x w) :
    Bound u (onlyAt i f) x ((Play.step i f).runOn w).2 := by
  have hwritten : Bound u (onlyAt i f) x (w.applyEntry i f).2 := ⟨h.toRetained.applyEntry, h.outlined.applyEntry i f⟩
  rw [runOn_step]
  split
  · rename_i heq
    rw [heq] at hwritten
    exact (duty hx i f).proceed hwritten
  · rename_i heq
    rw [heq] at hwritten
    exact hwritten

/-- A turn that does not escape the loop goes from rest to rest. -/
theorem turn (hx : (u.node x).definition.behaviour = .flow b) (h : Bound u atRest x w) {others : List Nat}
    (hq : (w.engine i).queue = f :: others)
    (ht : (Play.turn i f).runOn (w.modifyEngine i fun e => { e with queue := others }) = (.ok (), v)) : Bound u atRest x v := by
  have htaken : Bound u (onlyAt i f) x (atWork i f others w) := ⟨h.toRetained.take hq, h.outlined.frame rfl⟩
  have hstep := htaken.step hx
  rcases turn_eq_ok ht with ⟨r, hp, rfl⟩ | ⟨e, r, -, hp, rfl⟩
  · rw [hp] at hstep
    exact rest ⟨Retained.count hstep.toRetained, hstep.outlined.frame rfl⟩
  · rw [hp] at hstep
    exact rest ⟨Retained.fail hstep.toRetained e, (hstep.outlined.report i e).frame rfl⟩

theorem iteration (hx : (u.node x).definition.behaviour = .flow b) (h : Bound u atRest x w) (hi : Iteration i w v) :
    Bound u atRest x v := by
  cases hi with
  | @pop f others hq hidle =>
    have hpopped : Bound u atRest x (Play.pop i f others w) := by
      refine ⟨h.toRetained.pop hq hidle, h.outlined.frame ?_⟩
      unfold Play.pop
      split <;> rfl
    exact hpopped.drainInbox i
  | turn hq _ ht => exact h.turn hx hq ht

/-- What is said of the node counts from any point on. -/
theorem rebase (h : Bound u cur x w) : Bound w cur x w := ⟨h.toRetained.rebase, rfl⟩

theorem enduring (hx : (u.node x).definition.behaviour = .flow b) :
    Enduring (Context.Serves (Context.Bound x) atRest) (Bound u atRest x) where
  aside h hg he hd := ⟨h.toRetained.frame he hd, h.outlined.frame hg⟩
  finish _ h j o output fromOutside :=
    ⟨h.toRetained.finishOperation j o output fromOutside, h.outlined.finishOperation j o output fromOutside⟩
  conduct := conduct hx atRest
  reset _ h k _ _ _ _ hset := ⟨h.toRetained.frame rfl rfl, h.outlined.modifyGraph k (Outlined.outline_setVariable hset)⟩

theorem makeEngine (hx : (u.node x).definition.behaviour = .flow b) (h : Bound u atRest x w) (name : String)
    (nodes : List NodeRef) (settings : RuntimeSettings) :
    Bound u atRest x ((Play.makeEngine name nodes settings).runOn w).2 := by
  refine upholds_makeEngine (conduct hx atRest) ?_ ?_ ?_
  · exact ⟨h.toRetained.push rfl rfl rfl rfl rfl, h.outlined.frame rfl⟩
  · exact fun w h j => ⟨h.toRetained.face j (fun _ => ⟨rfl, rfl, rfl, rfl⟩) (fun _ => id) fun _ => rfl, h.outlined.frame rfl⟩
  · intro w h j y actions hy
    exact ⟨fun heq => absurd heq (h.ne_of_behaviour hx (by simp [hy])), by rintro _ _ _ ⟨⟩⟩

/-- Before there are engines nothing is kept to be run. -/
theorem start (he : u.engines = #[]) (hd : u.disposers = []) (x : NodeRef) : Bound u atRest x u := by
  have hengine (j : Nat) : u.engine j = {} := by
    simp [World.engine, he]
    rfl
  refine ⟨⟨InOrder.start he hd, fun j => ?_, by rw [hd]; exact fun _ hp => absurd hp List.not_mem_nil⟩, rfl⟩
  rw [hengine]
  exact .empty

end Bound

/-- Hosts come to the world from the bare one, in which there are no engines. They make engines, start paths or have other
threads ask for that, act in contexts of nodes that take no part in flow, and do what else hosts do; engines work off their
queues. -/
inductive World.Arises (u : World) : World → Prop where
  | bare : u.engines = #[] → u.disposers = [] → Arises u u
  | makeEngine {w : World} (name : String) (nodes : List NodeRef) (settings : RuntimeSettings) : Arises u w →
      Arises u ((Play.makeEngine name nodes settings).runOn w).2
  | play {w : World} {a : HostAct} : Arises u w → a.isCalm = true → Arises u (a.play.runOn w).2
  | begin {w : World} (j : Nat) (y : NodeRef) (output : String) {l : Option Listener} (values : List (String × Value)) :
      Arises u w → (∀ z, l = some z → z.context? = none) → Arises u (w.begin j y output l values)
  | post {w : World} (j : Nat) {y : NodeRef} (output : String) {l : Option Listener} (values : List (String × Value)) :
      Arises u w → (∀ b, (u.node y).definition.behaviour ≠ .flow b) → (∀ z, l = some z → z.context? = none) →
      Arises u (w.post j (.begin y output l values))
  | finish {w : World} (j o : Nat) (output : Option String) (fromOutside : Bool) : Arises u w →
      Arises u (w.finishOperation j o output fromOutside)
  | act {w : World} {c : Context} (a : Action) : Arises u w → c.Free → (∀ b, (u.node c.node).definition.behaviour ≠ .flow b) →
      Arises u ((Action.perform Play.dispose c a).runOn w).2
  | aside {w v : World} : Arises u w → v.graphs = w.graphs → v.engines = w.engines → v.disposers = w.disposers → Arises u v
  | drainInbox {w : World} (j : Nat) : Arises u w → Arises u (w.drainInbox j)
  | iteration {w v : World} {i : Nat} : Arises u w → Iteration i w v → Arises u v

namespace World.Arises

variable {u v w : World} {x : NodeRef} {b : Option FlowBehaviour}

/-- A run with any limits. -/
theorem run (h : u.Arises w) {i m : Nat} {maxSteps : Option Int} {maxSeconds : Option Double}
    (hrun : (Play.run i maxSteps maxSeconds).runOn w = (.ok m, v)) : u.Arises v :=
  upholds_run (fun _ _ h hi => h.iteration hi) (fun _ _ h => h.aside rfl rfl rfl) (fun _ h => h.drainInbox i) h hrun

/-- Whatever hosts do, what is kept to be run later in the name of a node that takes part in flow is bound to fibers. -/
theorem bound (h : u.Arises w) (hx : (u.node x).definition.behaviour = .flow b) : Bound u atRest x w := by
  have hne {y : NodeRef} (hy : ∀ b, (u.node y).definition.behaviour ≠ .flow b) : y ≠ x := by
    rintro rfl
    exact hy b hx
  have hnowhere {l : Option Listener} {A : Context → Prop} (hl : ∀ z, l = some z → z.context? = none) :
      ∀ z, l = some z → z.Within A := by
    intro z hz c hc
    rw [hl z hz] at hc
    cases hc
  induction h with
  | bare he hd => exact .start he hd x
  | makeEngine name nodes settings _ ih => exact ih.makeEngine hx name nodes settings
  | play _ ha ih => exact (Bound.enduring hx).play ha ih
  | begin j y output values _ hl ih =>
    exact ⟨ih.toRetained.begin j y output (hnowhere hl) values, ih.outlined.begin j y output _ values⟩
  | @post w j y output l values _ hy hl ih =>
    have hfree : (⟨y, .event j⟩ : Context).Free := by rintro _ _ _ ⟨⟩
    have hpost : (Post.begin y output l values).Within fun c => Context.Bound x c ∧ c.Free :=
      ⟨.inr ⟨⟨y, .event j⟩, ⟨fun heq => absurd heq (hne hy), hfree⟩, rfl⟩, hnowhere hl⟩
    exact ⟨ih.toRetained.post j hpost, ih.outlined.frame rfl⟩
  | finish j o output fromOutside _ ih => exact (Bound.enduring hx).finish _ ih j o output fromOutside
  | act a _ hfree hy ih =>
    have hkind : Context.Serves (Context.Bound x) atRest _ :=
      ⟨fun heq => absurd heq (hne hy), fun j k input hrole => absurd hrole (hfree j k input)⟩
    exact (Action.obeys_perform (Bound.conduct hx atRest).toBearing (obeys_dispose (Bound.conduct hx atRest)) hkind a).upholds ih
  | aside _ hg he hd ih => exact (Bound.enduring hx).aside ih hg he hd
  | drainInbox j _ ih => exact ih.drainInbox j
  | iteration _ hi ih => exact ih.iteration hx hi

end World.Arises

end FlowGraph
