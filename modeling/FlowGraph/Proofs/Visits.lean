import FlowGraph.Proofs.Reporting
import FlowGraph.Proofs.Rounds
import FlowGraph.Proofs.Unmoved

/-!
How a node is visited. Fibers come to a node that takes part in flow one after the other, at one or the other of its inputs,
whichever engines they belong to and however many drains that takes. In between nothing is done in the name of the node, so that
a visit finds the state that the one before has left.
-/
namespace FlowGraph

open World Play

/-- The fiber at the head of the queue can go on, and its wire leads to the input of the node. -/
structure World.Visits (w : World) (i f : Nat) (others : List Nat) (x : NodeRef) (input : String) : Prop where
  queue : (w.engine i).queue = f :: others
  isReady : ((w.engine i).fiber f).isReady = true
  written : ((atWork i f others w).applyEntry i f).1 = .ok ()
  ends : ∃ route ends, ((w.engine i).fiber f).next = some route ∧ (w.graph route.graph).endsOf route.wire = some ends ∧
    ⟨route.graph, ends.target.node⟩ = x ∧ route.wire.link.input = input

/-- The fiber at work has written what its trigger gave, and its wire is the one that it had before. -/
theorem World.next_written {w : World} {i : Nat} (hi : i < w.engines.size) (f : Nat) (others : List Nat) :
    ((((atWork i f others w).applyEntry i f).2.engine i).fiber f).next = ((w.engine i).fiber f).next := by
  have hfibers : ((atWork i f others w).engine i).fiber f = (w.engine i).fiber f := by
    rw [engine_atWork hi]
    rfl
  rw [engine_applyEntry (by simpa [atWork, unqueued] using hi), Engine.fiber_modifyFiber]
  rw [hfibers]
  split <;> rfl

/-- The state of a node is not touched when paths start and operations complete. -/
theorem Unmoved.state (x : NodeRef) (s : Value) : Unmoved fun w => (w.node x).state = s := by
  refine Unmoved.of_frame ?_ ?_ ?_
  · intro w v hw hg
    rw [← hw, World.node, World.node, World.graph, World.graph, hg]
  · intro w hw g v
    rw [node_stamp, hw]
  · intro w hw y f hf
    rw [node_modifyNode]
    split
    · rename_i hy
      rw [← hy.1, hf, hy.1, hw]
    · exact hw

/-- The node has the state, the graphs are what they were, and nothing is kept to be run later in the name of the node. -/
structure Minds (u : World) (cur : Nat → Option Nat) (x : NodeRef) (s : Value) (w : World) : Prop extends
    Retained u cur (·.node ≠ x) w where
  outlined : Outlined u w
  state : (w.node x).state = s

namespace Minds

variable {u v w : World} {cur : Nat → Option Nat} {i j f : Nat} {x : NodeRef} {s : Value} {b : Option FlowBehaviour}

theorem closed (u : World) (cur : Nat → Option Nat) (x : NodeRef) (s : Value) :
    Closed (fun w _ => Minds u cur x s w) (Context.Serves (·.node ≠ x) cur) := by
  have hstate : Closed (fun w _ => (w.node x).state = s) (Context.Serves (·.node ≠ x) cur) := by
    refine (Unmoved.state x s).closed (fun w hw c hc v => ?_) fun w hw g y v changed told hassign => ?_
    · rw [node_modifyNode, if_neg fun h => hc.1 h.1]
      exact hw
    · obtain ⟨_, _, -, -, rfl⟩ := Graph.assign_eq_ok hassign
      rw [w.node_modifyGraph (Graph.arena_stamp _ _)]
      exact hw
  refine (((Retained.closed u cur _).and (Outlined.closed u _)).and hstate).congr fun w r => ?_
  exact ⟨fun h => ⟨h.1.1, h.1.2, h.2⟩, fun h => ⟨⟨h.toRetained, h.outlined⟩, h.state⟩⟩

theorem ne_of_behaviour (h : Minds u cur x s w) (hx : (u.node x).definition.behaviour = .flow b) {y : NodeRef}
    (hy : ∀ b, (w.node y).definition.behaviour ≠ .flow b) : y ≠ x := by
  rintro rfl
  exact hy b (by rw [h.outlined.definition, hx])

theorem conduct (hx : (u.node x).definition.behaviour = .flow b) (cur : Nat → Option Nat) (s : Value) :
    Conduct (Upholds (Minds u cur x s)) (Context.Serves (·.node ≠ x) cur) := by
  have hserves {d : Disposer} (hkind : d.Within (·.node ≠ x)) (hfree : d.Free) : d.Within (Context.Serves (·.node ≠ x) cur) := by
    cases d with
    | script c actions => exact ⟨hkind, fun j k input hrole => absurd hrole (hfree j k input)⟩
    | _ => trivial
  refine (closed u cur x s).conduct (fun w h d hd => ?_) (fun w h j op hop d hd => ?_) (fun w h y b hb => ?_)
    fun w h y b hb j o => ?_
  · exact hserves (h.undone d hd) (h.disposers d hd)
  · exact hserves ((h.within j).disposers op hop d hd) ((h.engine j).disposers op hop d hd)
  · exact ⟨h.ne_of_behaviour hx (by simp [hb]), by rintro _ _ _ ⟨⟩⟩
  · exact ⟨h.ne_of_behaviour hx (by simp [hb]), by rintro _ _ _ ⟨⟩⟩

theorem tell (h : Minds u cur x s w) (j : Nat) (e : String → Event) : Minds u cur x s (w.tell j e) :=
  ⟨h.toRetained.tell j e, h.outlined.tell j e, (Unmoved.state x s).tell h.state j e⟩

theorem drainInbox (h : Minds u cur x s w) (j : Nat) : Minds u cur x s (w.drainInbox j) :=
  ⟨h.toRetained.drainInbox j, h.outlined.drainInbox j, (Unmoved.state x s).drainInbox h.state j⟩

section AtWork

/-- The fiber at work changes in what is its own business. -/
theorem alter (h : Minds u (onlyAt i f) x s w) {g : Fiber → Fiber} (hg : ∀ y : Fiber, y.Goes (g y))
    (hl : ∀ l ∈ (g ((w.engine i).fiber f)).listeners, l ∈ ((w.engine i).fiber f).listeners)
    (hblank : (g ((w.engine i).fiber f)).Blank → ((w.engine i).fiber f).Blank) :
    Minds u (onlyAt i f) x s (w.modifyEngine i (·.modifyFiber f g)) :=
  ⟨h.toRetained.alter hg hl hblank, h.outlined.frame rfl, h.state⟩

theorem applyEntry (h : Minds u (onlyAt i f) x s w) : Minds u (onlyAt i f) x s (w.applyEntry i f).2 :=
  ⟨h.toRetained.applyEntry, h.outlined.applyEntry i f, (Unmoved.state x s).applyEntry h.state i f⟩

theorem take (h : Minds u atRest x s w) {others : List Nat} (hq : (w.engine i).queue = f :: others) :
    Minds u (onlyAt i f) x s (atWork i f others w) :=
  ⟨h.toRetained.take hq, h.outlined.frame rfl, h.state⟩

theorem depart (h : Minds u (onlyAt i f) x s w) : Minds u (onlyAt i f) x s (w.modifyEngine i (·.modifyFiber f fun f =>
    { f with next := none, steps := f.steps + 1, committed := false })) := by
  refine h.alter ?_ ?_ ?_
  · exact fun _ => ⟨.inl rfl, rfl, rfl, rfl, rfl, rfl, rfl⟩
  · exact fun _ => id
  · exact fun hb => absurd hb.steps (Nat.succ_ne_zero _)

theorem engages (i f : Nat) (x : NodeRef) : Engages (Context.Serves (·.node ≠ x) (onlyAt i f)) i := by
  refine ⟨⟨x.graph, x.serial + 1⟩, f, "", fun h => ?_, InOrder.admitted _ i f ""⟩
  exact Nat.succ_ne_self _ (congrArg NodeRef.serial h)

/-- A step, once the data outputs of the trigger are written, that leads to no input of the node. -/
theorem proceed (hx : (u.node x).definition.behaviour = .flow b) (h : Minds u (onlyAt i f) x s w)
    (helse : ∀ route ends, ((w.engine i).fiber f).next = some route → (w.graph route.graph).endsOf route.wire = some ends →
      ⟨route.graph, ends.target.node⟩ ≠ x) : Minds u (onlyAt i f) x s ((Play.proceed i f).runOn w).2 := by
  refine upholds_proceed (conduct hx _ s) (engages i f x) h (fun _ => ?_) (fun _ => h.depart) ?_ ?_
  · refine h.alter ?_ ?_ ?_
    · exact fun _ => ⟨.inl rfl, rfl, rfl, rfl, rfl, rfl, rfl⟩
    · exact fun _ => id
    · exact fun hb => absurd hb.steps (Nat.succ_ne_zero _)
  · exact fun route ends hnext hends v b _ _ input => ⟨helse route ends hnext hends, InOrder.admitted _ i f input⟩
  · intro node l rest _ hl
    have hmem : (node, l) ∈ ((w.engine i).fiber f).listeners := by
      rw [hl]
      exact List.mem_cons_self
    refine ⟨h.alter ?_ ?_ ?_, fun c hc => ?_⟩
    · exact fun _ => ⟨.inr rfl, rfl, rfl, rfl, rfl, rfl, rfl⟩
    · intro y hy
      rw [hl]
      exact List.mem_cons_of_mem _ hy
    · exact fun hb => absurd hb.steps (Nat.succ_ne_zero _)
    · exact ⟨(h.within i).listeners f _ hmem c hc, (InOrder.duty u i f).heeds w h.toInOrder _ hmem c hc⟩

theorem rest (h : Minds u (onlyAt i f) x s w) : Minds u atRest x s (Play.rest w i f) := by
  refine ⟨h.toRetained.rest, ?_, (Unmoved.state x s).rest h.state i f⟩
  unfold Play.rest
  dsimp only
  split
  · exact h.outlined.frame rfl
  · refine Outlined.drainInbox (h.outlined.frame ?_) i
    split <;> rfl

/-- The turn of a fiber is over. -/
theorem closeTurn (h : Minds u (onlyAt i f) x s w) : Minds u atRest x s (Play.closeTurn i f w) :=
  rest ⟨h.toRetained.count, h.outlined.frame rfl, h.state⟩

/-- The turn of a fiber is over, which has failed. -/
theorem failed (h : Minds u (onlyAt i f) x s w) (e : Failure) : Minds u atRest x s (Play.failed i f e w) :=
  rest ⟨h.toRetained.fail e, (h.outlined.report i e).frame rfl, (Unmoved.state x s).report h.state i e⟩

end AtWork

/-- An iteration in which no fiber comes to the node. -/
theorem elsewhere (hx : (u.node x).definition.behaviour = .flow b) (h : Minds u atRest x s w) (hi : Iteration i w v)
    (helse : ∀ f others input, ¬ w.Visits i f others x input) : Minds u atRest x s v := by
  cases hi with
  | @pop f others hq hidle =>
    refine Minds.drainInbox ⟨h.toRetained.pop hq hidle, h.outlined.frame ?_, (Unmoved.state x s).pop h.state i f others⟩ i
    unfold Play.pop
    split <;> rfl
  | @turn _ f others hq hready ht =>
    have htaken := h.take hq
    have hoff := htaken.there
    simp only [atWork, unqueued, size_modifyEngine] at hoff
    have hwritten := htaken.applyEntry
    have hstep : Minds u (onlyAt i f) x s ((Play.step i f).runOn (atWork i f others w)).2 := by
      rw [runOn_step]
      split
      · rename_i r heq
        have hnext := next_written hoff f others
        rw [heq] at hwritten hnext
        refine hwritten.proceed hx fun route ends hroute hends hvisit => helse f others route.wire.link.input ?_
        rw [hwritten.outlined.endsOf, ← h.outlined.endsOf] at hends
        exact ⟨hq, hready, by rw [heq], route, ends, hnext.symm.trans hroute, hends, hvisit, rfl⟩
      · rename_i heq
        rw [heq] at hwritten
        exact hwritten
    rcases turn_eq_ok ht with ⟨r, hp, rfl⟩ | ⟨e, r, -, hp, rfl⟩
    · rw [hp] at hstep
      exact hstep.closeTurn
    · rw [hp] at hstep
      exact hstep.failed e

/-- Hosts make engines, and do what else they do. -/
theorem enduring (hx : (u.node x).definition.behaviour = .flow b) (s : Value) :
    Enduring (Context.Serves (·.node ≠ x) atRest) (Minds u atRest x s) where
  aside h hg he hd := ⟨h.toRetained.frame he hd, h.outlined.frame hg, (Unmoved.state x s).frame h.state hg⟩
  finish _ h j o output fromOutside := ⟨h.toRetained.finishOperation j o output fromOutside,
    h.outlined.finishOperation j o output fromOutside, (Unmoved.state x s).finishOperation h.state j o output fromOutside⟩
  conduct := conduct hx atRest s
  reset w h k name v g told hset := by
    obtain ⟨_, _, _, _, -, -, -, -, hchanged⟩ := Graph.setVariable_eq_ok hset
    refine ⟨h.toRetained.frame rfl rfl, h.outlined.modifyGraph k (Outlined.outline_setVariable hset), ?_⟩
    rw [w.node_modifyGraph (by rw [hchanged, Graph.arena_stamp])]
    exact h.state

theorem makeEngine (hx : (u.node x).definition.behaviour = .flow b) (h : Minds u atRest x s w) (name : String)
    (nodes : List NodeRef) (settings : RuntimeSettings) :
    Minds u atRest x s ((Play.makeEngine name nodes settings).runOn w).2 := by
  refine upholds_makeEngine (conduct hx atRest s) ?_ ?_ ?_
  · exact ⟨h.toRetained.push rfl rfl rfl rfl rfl, h.outlined.frame rfl, h.state⟩
  · exact fun w h j =>
      ⟨h.toRetained.face j (fun _ => ⟨rfl, rfl, rfl, rfl⟩) (fun _ => id) fun _ => rfl, h.outlined.frame rfl, h.state⟩
  · exact fun w h j y actions hy => ⟨h.ne_of_behaviour hx (by simp [hy]), by rintro _ _ _ ⟨⟩⟩

end Minds

/-- What hosts do between iterations: they make engines, start paths or have other threads ask for that, act in contexts of nodes
that take no part in flow, and do what else hosts do. -/
inductive World.Move (u w : World) : World → Prop where
  | makeEngine (name : String) (nodes : List NodeRef) (settings : RuntimeSettings) :
      Move u w ((Play.makeEngine name nodes settings).runOn w).2
  | play {a : HostAct} : a.isCalm = true → Move u w (a.play.runOn w).2
  | begin (j : Nat) (y : NodeRef) (output : String) {l : Option Listener} (values : List (String × Value)) :
      (∀ z, l = some z → z.context? = none) → Move u w (w.begin j y output l values)
  | post (j : Nat) {y : NodeRef} (output : String) {l : Option Listener} (values : List (String × Value)) :
      (∀ b, (u.node y).definition.behaviour ≠ .flow b) → (∀ z, l = some z → z.context? = none) →
      Move u w (w.post j (.begin y output l values))
  | finish (j o : Nat) (output : Option String) (fromOutside : Bool) : Move u w (w.finishOperation j o output fromOutside)
  | act {c : Context} (a : Action) : c.Free → (∀ b, (u.node c.node).definition.behaviour ≠ .flow b) →
      Move u w ((Action.perform Play.dispose c a).runOn w).2
  | aside {v : World} : v.graphs = w.graphs → v.engines = w.engines → v.disposers = w.disposers → Move u w v
  | drainInbox (j : Nat) : Move u w (w.drainInbox j)

/-- The inputs by which fibers have come to the node on the way from the bare world, in order. -/
inductive World.Visited (u : World) (x : NodeRef) : List String → World → Prop where
  | bare : u.engines = #[] → u.disposers = [] → Visited u x [] u
  | move {ins : List String} {w v : World} : Visited u x ins w → u.Move w v → Visited u x ins v
  | elsewhere {ins : List String} {w v : World} {i : Nat} : Visited u x ins w → Iteration i w v →
      (∀ f others input, ¬ w.Visits i f others x input) → Visited u x ins v
  | visit {ins : List String} {w v : World} {i f : Nat} {others : List Nat} {input : String} : Visited u x ins w →
      Iteration i w v → w.Visits i f others x input → Visited u x (ins ++ [input]) v

namespace World

variable {u v w : World} {x : NodeRef} {b : Option FlowBehaviour} {s : Value} {ins : List String}

theorem Move.arises (hm : u.Move w v) (h : u.Arises w) : u.Arises v := by
  cases hm with
  | makeEngine name nodes settings => exact .makeEngine name nodes settings h
  | play ha => exact .play h ha
  | begin j y output values hl => exact .begin j y output values h hl
  | post j output values hy hl => exact .post j output values h hy hl
  | finish j o output fromOutside => exact .finish j o output fromOutside h
  | act a hfree hy => exact .act a h hfree hy
  | aside hg he hd => exact .aside h hg he hd
  | drainInbox j => exact .drainInbox j h

/-- Hosts leave the state of the node as it is. -/
theorem Move.minds (hm : u.Move w v) (hx : (u.node x).definition.behaviour = .flow b) (h : Minds u atRest x s w) :
    Minds u atRest x s v := by
  have hne {y : NodeRef} (hy : ∀ b, (u.node y).definition.behaviour ≠ .flow b) : y ≠ x := by
    rintro rfl
    exact hy b hx
  have hnowhere {l : Option Listener} {A : Context → Prop} (hl : ∀ z, l = some z → z.context? = none) :
      ∀ z, l = some z → z.Within A := by
    intro z hz c hc
    rw [hl z hz] at hc
    cases hc
  cases hm with
  | makeEngine name nodes settings => exact h.makeEngine hx name nodes settings
  | play ha => exact (Minds.enduring hx s).play ha h
  | begin j y output values hl =>
    exact ⟨h.toRetained.begin j y output (hnowhere hl) values, h.outlined.begin j y output _ values,
      (Unmoved.state x s).begin h.state j y output _ values⟩
  | @post j y output l values hy hl =>
    have hfree : (⟨y, .event j⟩ : Context).Free := by rintro _ _ _ ⟨⟩
    have hpost : (Post.begin y output l values).Within fun c => c.node ≠ x ∧ c.Free :=
      ⟨.inr ⟨⟨y, .event j⟩, ⟨hne hy, hfree⟩, rfl⟩, hnowhere hl⟩
    exact ⟨h.toRetained.post j hpost, h.outlined.frame rfl, h.state⟩
  | finish j o output fromOutside => exact (Minds.enduring hx s).finish _ h j o output fromOutside
  | act a hfree hy =>
    have hkind : Context.Serves (·.node ≠ x) atRest _ := ⟨hne hy, fun j k input hrole => absurd hrole (hfree j k input)⟩
    have hC := Minds.conduct hx atRest s
    exact (Action.obeys_perform hC.toBearing (obeys_dispose hC) hkind a).upholds h
  | aside hg he hd => exact (Minds.enduring hx s).aside h hg he hd
  | drainInbox j => exact h.drainInbox j

/-- Whatever happens, there is a record of how the node was visited. -/
theorem Arises.visited (h : u.Arises w) (x : NodeRef) : ∃ ins, u.Visited x ins w := by
  induction h with
  | bare he hd => exact ⟨[], .bare he hd⟩
  | makeEngine name nodes settings _ ih => exact ih.imp fun _ h => h.move (.makeEngine name nodes settings)
  | play _ ha ih => exact ih.imp fun _ h => h.move (.play ha)
  | begin j y output values _ hl ih => exact ih.imp fun _ h => h.move (.begin j y output values hl)
  | post j output values _ hy hl ih => exact ih.imp fun _ h => h.move (.post j output values hy hl)
  | finish j o output fromOutside _ ih => exact ih.imp fun _ h => h.move (.finish j o output fromOutside)
  | act a _ hfree hy ih => exact ih.imp fun _ h => h.move (.act a hfree hy)
  | aside _ hg he hd ih => exact ih.imp fun _ h => h.move (.aside hg he hd)
  | drainInbox j _ ih => exact ih.imp fun _ h => h.move (.drainInbox j)
  | @iteration w v i _ hi ih =>
    obtain ⟨ins, h⟩ := ih
    by_cases hv : ∃ f others input, w.Visits i f others x input
    · obtain ⟨f, others, input, hv⟩ := hv
      exact ⟨_, h.visit hi hv⟩
    · exact ⟨ins, h.elsewhere hi fun f others input hvisit => hv ⟨f, others, input, hvisit⟩⟩

/-- If each visit leaves the node in the state that goes with the record, the node is in that state all along. -/
theorem Visited.minds {S : List String → Value} (h : u.Visited x ins w) (hx : (u.node x).definition.behaviour = .flow b)
    (hstart : (u.node x).state = S [])
    (hvisit : ∀ {ins w v i f others input}, Minds u atRest x (S ins) w → w.Visits i f others x input → Iteration i w v →
      Minds u atRest x (S (ins ++ [input])) v) : Minds u atRest x (S ins) w := by
  induction h with
  | bare he hd =>
    refine ⟨⟨InOrder.start he hd, fun j => ?_, by rw [hd]; exact fun _ hp => absurd hp List.not_mem_nil⟩, rfl, hstart⟩
    have hengine : u.engine j = {} := by
      simp [World.engine, he]
      rfl
    rw [hengine]
    exact .empty
  | move _ hm ih => exact hm.minds hx ih
  | elsewhere _ hi helse ih => exact ih.elsewhere hx hi helse
  | visit _ hi hv ih => exact hvisit ih hv hi

end World

namespace Play

variable {u v w r : World} {i f : Nat} {others : List Nat} {x : NodeRef} {input : String}

/-- The world in which the fiber has come to a node into which no data flows, and the node is about to be run. -/
def arrived (i f : Nat) (others : List Nat) (x : NodeRef) (w : World) : World :=
  (((atWork i f others w).applyEntry i f).2.modifyEngine i (·.modifyFiber f fun f =>
    { f with next := none, steps := f.steps + 1, committed := false })).tellStarted i x

theorem runOn_resolve_nil (i : Nat) (h : dataPlaces (w.node x) = []) : (resolve i x).runOn w = (.ok (), w) := by
  rw [resolve, runOn_get, resolveWithin, runOn_get, h]
  rfl

end Play

namespace World.Visits

variable {u w : World} {i f : Nat} {others : List Nat} {x : NodeRef} {input : String} {s : Value}

theorem inside (h : w.Visits i f others x input) : i < w.engines.size := by
  apply Decidable.byContradiction
  intro hout
  have hq := h.queue
  simp [World.engine, hout] at hq
  cases hq

theorem minds (hv : w.Visits i f others x input) (h : Minds u atRest x s w) :
    Minds u (onlyAt i f) x s (arrived i f others x w) := by
  rw [arrived, tellStarted]
  exact (h.take hv.queue).applyEntry.depart.tell ..

/-- The fiber that has come to the node has committed to nothing since. -/
theorem committed (hv : w.Visits i f others x input) (h : Minds u atRest x s w) :
    (((arrived i f others x w).engine i).fiber f).committed = false := by
  have hwritten := (h.take hv.queue).applyEntry
  have hcurrent := (hwritten.engine i).current.trans (InOrder.onlyAt_self i f)
  have hinside := (hwritten.engine i).accounted.current_lt hcurrent
  rw [arrived, tellStarted, engine_congr (engines_tell ..), engine_modifyEngine_self hwritten.there,
    Engine.fiber_modifyFiber, if_pos ⟨rfl, hinside⟩]

/-- The step of the fiber runs the node. -/
theorem runOn_step (hv : w.Visits i f others x input) (h : Minds u atRest x s w) (hx : dataPlaces (u.node x) = []) :
    (Play.step i f).runOn (atWork i f others w) = (visit i f x input).runOn (arrived i f others x w) := by
  obtain ⟨route, ends, hnext, hends, rfl, rfl⟩ := hv.ends
  have hwritten := (h.take hv.queue).applyEntry
  have hroute := next_written hv.inside f others
  have harrived := hv.minds h
  have hplaces := (harrived.outlined.dataPlaces ⟨route.graph, ends.target.node⟩).trans hx
  have hok := hv.written
  rw [Play.runOn_step]
  unfold arrived at hplaces ⊢
  generalize (atWork i f others w).applyEntry i f = p at hwritten hroute hplaces hok ⊢
  obtain ⟨out, r⟩ := p
  cases hok
  have hends' : (r.graph route.graph).endsOf route.wire = some ends := by
    rw [hwritten.outlined.endsOf, ← h.outlined.endsOf, hends]
  dsimp only
  rw [runOn_proceed_next (hroute.trans hnext) hends', runOn_bind, approach, runOn_bind, runOn_modify]
  dsimp only
  rw [runOn_bind, runOn_modify]
  dsimp only
  rw [runOn_resolve_nil i hplaces]

/-- Nothing goes wrong on the way to the node. -/
theorem reported (i f : Nat) (others : List Nat) (x : NodeRef) (w : World) :
    Reported [] (atWork i f others w) (arrived i f others x w) := by
  rw [arrived, tellStarted]
  refine Reported.next ?_ (.tell _ i fun _ => rfl)
  refine (Reported.applyEntry (atWork i f others w) i f).next (.modifyEngine _ i ?_ ?_)
  · exact fun _ => rfl
  · exact fun _ => rfl

end World.Visits

end FlowGraph
