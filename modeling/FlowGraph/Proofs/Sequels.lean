import FlowGraph.Proofs.CheckedGraphs
import FlowGraph.Proofs.Untangled

/-!
The payloads of triggers never mix. A `Sequel` of a point is one that whatever can happen leads to while nobody acts in the name
of an event node: hosts and nodes trigger paths, at rest and in the midst of a step, fibers have their turns, fork, fail and
end. At any point of it the outputs of the node show what the trigger of the fiber at work gave.
-/
namespace FlowGraph

open World Play

/-- The fiber at work, if there is one, is one of the engine. -/
def working (i : Nat) : Option Nat → Nat → Option Nat
  | none => atRest
  | some f => onlyAt i f

/-- A property of worlds, and of the fiber that is at work if there is one, that outlasts whatever can happen to the engine
while nobody acts in the name of the node. -/
structure Abiding (i : Nat) (x : NodeRef) (P : Option Nat → World → Prop) : Prop where
  calls : ∀ p, Closed (fun w _ => P p w) (Context.Serves (·.node ≠ x) (working i p))
  aside : ∀ {w v}, P none w → v.graphs = w.graphs → v.engines = w.engines → v.disposers = w.disposers → P none v
  tune : ∀ {w}, P none w → ∀ j {g : Engine → Engine},
    (∀ e, ∃ isObserved wake, g e = { e with isObserved := isObserved, wake := wake }) → P none (w.modifyEngine j g)
  reset : ∀ {w}, P none w → ∀ k {name v g told}, (w.graph k).setVariable name v = .ok (g, told) → P none (w.modifyGraph k fun _ => g)
  post : ∀ {w}, P none w → ∀ j y values, P none (w.post j (.begin y "exec" none values))
  finish : ∀ {w}, P none w → ∀ j o output fromOutside, P none (w.finishOperation j o output fromOutside)
  accept : ∀ {w}, P none w → ∀ j, P none (w.modifyEngine j fun e => { e with inbox := [] })
  complete : ∀ {w}, P none w → ∀ j o output, P none (w.complete j o output)
  pop : ∀ {w f others}, P none w → (w.engine i).queue = f :: others → ((w.engine i).fiber f).isReady = false →
    P none (Play.pop i f others w)
  take : ∀ {w v f others}, P none w → (w.engine i).queue = f :: others → ((w.engine i).fiber f).isReady = true →
    (atWork i f others w).applyEntry i f = (.ok (), v) → P (some f) v
  refuse : ∀ {w v f others e}, P none w → (w.engine i).queue = f :: others → ((w.engine i).fiber f).isReady = true →
    (atWork i f others w).applyEntry i f = (.error e, v) → P none ((v.fail i f e).cede i f)
  alter : ∀ {w f}, P (some f) w → ∀ g : Fiber → Fiber, (∀ y : Fiber, y.Goes (g y)) →
    (∀ l ∈ (g ((w.engine i).fiber f)).listeners, l ∈ ((w.engine i).fiber f).listeners) →
    ((g ((w.engine i).fiber f)).Blank → ((w.engine i).fiber f).Blank) → P (some f) (w.modifyEngine i (·.modifyFiber f g))
  count : ∀ {w f}, P (some f) w → P (some f) (w.modifyEngine i fun e => { e with steps := e.steps + 1 })
  requeue : ∀ {w f}, P (some f) w → ((w.engine i).fiber f).isReady = true →
    P none (w.modifyEngine i fun e => { e with queue := f :: e.queue, current := none })
  cede : ∀ {w f}, P (some f) w → ((w.engine i).fiber f).isReady = false → P none (w.cede i f)
  fail : ∀ {w f}, P (some f) w → ∀ e, P none ((w.fail i f e).cede i f)

/-- From one point to a later one: whatever outlasts all that can happen holds at the later one if it does at the first. -/
def Sequel (i : Nat) (x : NodeRef) (p : Option Nat) (w : World) (q : Option Nat) (v : World) : Prop :=
  ∀ P, Abiding i x P → P p w → P q v

namespace Sequel

variable {i : Nat} {x : NodeRef} {o p q : Option Nat} {u w v : World}

theorem refl (i : Nat) (x : NodeRef) (p : Option Nat) (w : World) : Sequel i x p w p w := fun _ _ h => h

/-- Whatever happens, there is a sequel. -/
theorem abiding (i : Nat) (x : NodeRef) (p : Option Nat) (w : World) : Abiding i x (Sequel i x p w) where
  calls q := Closed.all fun _ => Closed.all fun hP => Closed.all fun _ => hP.calls q
  aside h hg he hd P hP hw := hP.aside (h P hP hw) hg he hd
  reset h k _ _ _ _ hset P hP hw := hP.reset (h P hP hw) k hset
  post h j y values P hP hw := hP.post (h P hP hw) j y values
  tune h j _ hg P hP hw := hP.tune (h P hP hw) j hg
  finish h j o output fromOutside P hP hw := hP.finish (h P hP hw) j o output fromOutside
  accept h j P hP hw := hP.accept (h P hP hw) j
  complete h j o output P hP hw := hP.complete (h P hP hw) j o output
  pop h hq hidle P hP hw := hP.pop (h P hP hw) hq hidle
  take h hq hready ht P hP hw := hP.take (h P hP hw) hq hready ht
  refuse h hq hready ht P hP hw := hP.refuse (h P hP hw) hq hready ht
  alter h g hg hl hblank P hP hw := hP.alter (h P hP hw) g hg hl hblank
  count h P hP hw := hP.count (h P hP hw)
  requeue h hready P hP hw := hP.requeue (h P hP hw) hready
  cede h hover P hP hw := hP.cede (h P hP hw) hover
  fail h e P hP hw := hP.fail (h P hP hw) e

end Sequel

/-- The payloads of the node stay apart whatever happens. -/
theorem Untangled.abiding (u : World) (i : Nat) (x : NodeRef) :
    Abiding i x fun p w => Untangled u (working i p) i x none w where
  calls p := closed u (working i p) i x
  aside h hg he hd := h.aside hg he hd
  tune h j g hg := by
    refine h.face j (fun e => ?_) (fun e => ?_) fun e => ?_
    all_goals obtain ⟨_, _, heq⟩ := hg e; rw [heq]
    · exact ⟨rfl, rfl, rfl, rfl⟩
    · exact id
  reset := by
    intro w h k name v g told hset
    obtain ⟨_, _, _, _, -, -, -, -, hchanged⟩ := Graph.setVariable_eq_ok hset
    refine ⟨h.toRetained.frame rfl rfl, h.outlined.modifyGraph k (Outlined.outline_setVariable hset), h.apart.frame rfl ?_⟩
    rw [w.node_modifyGraph]
    rw [hchanged, Graph.arena_stamp]
  post h j y values := h.post j ⟨.inl ⟨rfl, rfl⟩, by simp⟩
  finish h j o output fromOutside := h.finishOperation j o output fromOutside
  accept h j := h.accept j
  complete h j o output := h.complete j o output
  pop h hq hidle := h.pop hq hidle
  take h hq hready ht := h.write hq hready ht
  refuse h hq hready ht := (h.write hq hready ht).fail _
  alter h g hg hl hblank :=
    ⟨h.toRetained.alter hg hl hblank, h.outlined.frame rfl,
      h.apart.alter h.toInOrder (InOrder.onlyAt_self _ _) (fun y => (hg y).entry) (fun y => (hg y).isWritten) fun y => (hg y).parent⟩
  count h := h.count
  requeue h hready := h.requeue hready
  cede h hover := h.cede hover fun _ hk => by cases hk
  fail h e := (show Untangled u _ i x (some _) _ from ⟨h.toRetained, h.outlined, h.apart.doubt _⟩).fail e

namespace Abiding

section Execution

variable {i f : Nat} {x : NodeRef} {u v w : World} {b : Option EventBehaviour} {Q : Option Nat → World → Prop}
  (hQ : Abiding i x Q) (hU : ∀ {p w}, Q p w → Untangled u (working i p) i x none w)
  (hx : (u.node x).definition.behaviour = .event b)

include hQ hU

/-- What other threads asked for is done one after the other. -/
theorem drainInbox (h : Q none w) (j : Nat) : Q none (w.drainInbox j) := by
  refine drainInbox_upholds (hQ.accept h j) fun p hp v hv => ?_
  have hkind := ((hU h).within j).posts p hp
  have hfree := ((hU h).engine j).posts p hp
  cases p with
  | complete o output => exact hQ.complete hv j o output
  | begin y output l values =>
    refine (hQ.calls none).begin (r := v) j y output (fun z hz c hc => ?_) values ?_ hv
    · have hlate := hfree z hz c hc
      exact ⟨⟨hkind.2 z hz c hc, fun j k input hrole => absurd hrole (hlate j k input)⟩, hlate⟩
    · refine hkind.1.imp_right ?_
      rintro ⟨c, hc, rfl⟩
      exact ⟨⟨c.node, .function⟩, ⟨hc, by rintro _ _ _ ⟨⟩⟩, rfl⟩

/-- A fiber that is through with its step goes on, or makes room for what other threads asked for. -/
theorem rest (h : Q (some f) w) : Q none (Play.rest w i f) := by
  unfold Play.rest
  dsimp only
  split
  · rename_i hready
    exact hQ.requeue h hready
  · rename_i hover
    exact drainInbox hQ hU (hQ.cede h (Bool.eq_false_iff.2 hover)) i

include hx

theorem conduct (p : Option Nat) : Conduct (Upholds (Q p)) (Context.Serves (·.node ≠ x) (working i p)) := by
  have hserves {d : Disposer} (hkind : d.Within (·.node ≠ x)) (hfree : d.Free) :
      d.Within (Context.Serves (·.node ≠ x) (working i p)) := by
    cases d with
    | script c actions => exact ⟨hkind, fun j k input hrole => absurd hrole (hfree j k input)⟩
    | _ => trivial
  refine (hQ.calls p).conduct ?_ ?_ ?_ ?_
  · exact fun w h d hd => hserves ((hU h).undone d hd) ((hU h).disposers d hd)
  · exact fun w h j op hop d hd => hserves (((hU h).within j).disposers op hop d hd) (((hU h).engine j).disposers op hop d hd)
  · refine fun w h y b hb => ⟨(hU h).ne_of_behaviour hx (by simp [hb]), ?_⟩
    rintro j k input ⟨⟩
  · refine fun w h y b hb j o => ⟨(hU h).ne_of_behaviour hx (by simp [hb]), ?_⟩
    rintro j' k input ⟨⟩

theorem duty (f : Nat) : Duty i f (Context.Serves (·.node ≠ x) (onlyAt i f)) (Q (some f)) where
  conduct := conduct hQ hU hx (some f)
  engages := by
    refine ⟨⟨x.graph + 1, x.serial⟩, f, "", ?_, InOrder.admitted _ i f ""⟩
    exact fun h => Nat.succ_ne_self x.graph (congrArg NodeRef.graph h)
  reaches w h y b hb input := ⟨(hU h).ne_of_behaviour hx (by simp [hb]), InOrder.admitted y i f input⟩
  heeds w h l hl c hc := ⟨((hU h).within i).listeners f l hl c hc, (InOrder.duty u i f).heeds w (hU h).toInOrder l hl c hc⟩
  alter w h := hQ.alter h

/-- A turn that does not escape the loop goes from rest to rest. -/
theorem turn {others : List Nat} (h : Q none w) (hq : (w.engine i).queue = f :: others)
    (hready : ((w.engine i).fiber f).isReady = true)
    (ht : (Play.turn i f).runOn (w.modifyEngine i fun e => { e with queue := others }) = (.ok (), v)) : Q none v := by
  -- A step fails on what it writes, or goes on to the node or listener and may fail there.
  have hstep {out : Except Failure Unit} {s : World} (hp : (Play.step i f).runOn (atWork i f others w) = (out, s)) :
      (out = .ok () → Q (some f) s) ∧
        ∀ e, out = .error e → InOrder u (onlyAt i f) s ∧ Q none ((s.fail i f e).cede i f) := by
    have hwritten : InOrder u (onlyAt i f) ((atWork i f others w).applyEntry i f).2 := ((hU h).toInOrder.take hq).applyEntry
    rw [runOn_step] at hp
    generalize hz : (atWork i f others w).applyEntry i f = z at hp hwritten
    obtain ⟨_ | _, r⟩ := z
    · cases hp
      refine ⟨nofun, ?_⟩
      rintro e ⟨⟩
      exact ⟨hwritten, hQ.refuse h hq hready hz⟩
    · have hdone := (duty hQ hU hx f).proceed (hQ.take h hq hready hz)
      dsimp only at hp
      rw [hp] at hdone
      exact ⟨fun _ => hdone, fun e _ => ⟨(hU hdone).toInOrder, hQ.fail hdone e⟩⟩
  rcases turn_eq_ok ht with ⟨s, hp, rfl⟩ | ⟨e, s, -, hp, rfl⟩
  · exact rest hQ hU (hQ.count ((hstep hp).1 rfl))
  · obtain ⟨hinorder, hfailed⟩ := (hstep hp).2 e rfl
    rw [← World.fail, hinorder.rest_fail]
    exact drainInbox hQ hU hfailed i

theorem iteration {j : Nat} (h : Q none w) (hi : Iteration j w v) : Q none v := by
  cases hi with
  | pop hq hidle =>
    obtain rfl := (hU h).eq_of_queue hq
    exact drainInbox hQ hU (hQ.pop h hq hidle) j
  | turn hq hready ht =>
    obtain rfl := (hU h).eq_of_queue hq
    exact turn hQ hU hx h hq hready ht

theorem enduring : Enduring (Context.Serves (·.node ≠ x) atRest) (Q none) where
  aside h := hQ.aside h
  finish _ h := hQ.finish h
  conduct := conduct hQ hU hx none
  reset _ h k _ _ _ _ hset := hQ.reset h k hset

/-- A run with any limits goes from rest to rest. -/
theorem run {j m : Nat} {maxSteps : Option Int} {maxSeconds : Option Double} (h : Q none w)
    (hrun : (Play.run j maxSteps maxSeconds).runOn w = (.ok m, v)) : Q none v :=
  upholds_run (fun _ _ h hi => iteration hQ hU hx h hi) (fun _ _ h => hQ.aside h rfl rfl rfl)
    (fun _ h => drainInbox hQ hU h j) h hrun

/-- The points of a step: its trigger's outputs are written, the node or the listener that it has come to is about to be
run, and that is done. -/
theorem step {others : List Nat} (h : Q none w) (hq : (w.engine i).queue = f :: others)
    (hready : ((w.engine i).fiber f).isReady = true)
    (ht : (atWork i f others w).applyEntry i f = (.ok (), v)) :
    Q (some f) v ∧ (∀ y, Q (some f) ((Play.approach i f y).runOn v).2) ∧
      (∀ l rest, ((v.engine i).fiber f).listeners = l :: rest → Q (some f) (Play.heed i f rest v)) ∧
      Q (some f) ((Play.proceed i f).runOn v).2 := by
  have hwritten := hQ.take h hq hready ht
  have hD := duty hQ hU hx f
  exact ⟨hwritten, hD.approach hwritten, fun _ _ hl => hD.heed hwritten hl, hD.proceed hwritten⟩

end Execution

end Abiding

namespace Engine

/-- The fiber is the root, or comes of it by forks. -/
inductive Stems (e : Engine) (root : Nat) : Nat → Prop where
  | root : Stems e root root
  | child {k p : Nat} : (e.fiber k).parent = some p → Stems e root p → Stems e root k

/-- What the root carries all of its kin carry. -/
theorem Unmixed.entry_of_stems {e : Engine} {x : NodeRef} {shows fits : List (String × Value) → Prop} {isBare : Prop}
    {c : Option Nat} (h : Unmixed x shows fits isBare c e) {root f : Nat} (hf : e.Stems root f) :
    (e.fiber f).entry = (e.fiber root).entry := by
  induction hf with
  | root => rfl
  | child hp _ ih => exact (h.heirs _ _ hp).1.trans ih

end Engine

namespace World

/-- The data outputs that a trigger gives to the node, as the graph keeps them. -/
def payload (w : World) (x : NodeRef) (given : List (String × Value)) : List (String × Value) :=
  (Table.ofList (w.stampOutputs x.graph given).1).entries

/-- The root of a path carries the payload of its trigger. -/
theorem carries_begin {w : World} {i : Nat} (hi : i < w.engines.size) (hd : (w.engine i).isDisposed = false)
    (hc : (w.engine i).current ≠ some (w.engine i).fibers.size) {x : NodeRef} {given : List (String × Value)}
    (hgiven : w.payload x given ≠ []) :
    (((w.begin i x "exec" none given).engine i).fiber (w.engine i).fibers.size).Carries x (w.payload x given) ∧
      (w.engine i).fibers.size < ((w.begin i x "exec" none given).engine i).fibers.size := by
  obtain ⟨root, kids, he, hentry, -, -⟩ := entered_begin hi hd hc x "exec" (l := none) (by simp) given
  have hsome : (w.stampOutputs x.graph given).1.isEmpty = false := by
    rw [List.isEmpty_eq_false_iff]
    intro hnone
    rw [payload, hnone] at hgiven
    exact hgiven rfl
  rw [hsome] at hentry
  refine ⟨?_, ?_⟩
  · rw [he.fiber_root]
    exact hentry
  · rw [he.size]
    omega

end World

namespace Untangled

variable {u : World} {x : NodeRef}

/-- Before there are engines nothing is triggered. -/
theorem start (he : u.engines = #[]) (hd : u.disposers = []) (x : NodeRef) {e : Engine} (hf : e.fibers = #[])
    (hq : e.queue = []) (hc : e.current = none) (hi : e.inbox = []) (ho : e.operations = #[]) :
    Untangled u atRest 0 x none { u with engines := u.engines.push e } := by
  have hengine (j : Nat) : ({ u with engines := u.engines.push e } : World).engine j = if j = 0 then e else {} := by
    simp only [World.engine, he, Array.getElem?_push, Array.size_empty, Array.getElem?_empty]
    split <;> rfl
  have hbefore : u.engine 0 = {} := by
    simp [World.engine, he]
    rfl
  refine ⟨⟨(InOrder.start he hd).push hf hq hc hi ho, fun j => ?_, by rw [hd]; exact fun _ hp => absurd hp List.not_mem_nil⟩,
    rfl, fun j hj => by simpa [he] using hj, ?_, ?_⟩
  · rw [hengine]
    split
    · exact Engine.Within.empty.congr (fun k => by rw [Engine.fiber_congr (a := {}) hf]) hi ho
    · exact .empty
  · rw [hengine]
    exact Engine.Unmixed.empty.congr hf hq hc
  · rw [hengine, hbefore]
    exact .of_fibers hf

/-- An engine that is made where there is none has no payloads yet. -/
theorem made (he : u.engines = #[]) (hd : u.disposers = []) {b : Option EventBehaviour}
    (hx : (u.node x).definition.behaviour = .event b) (hplain : (u.node x).definition.behaviour.isScript = false)
    (name : String) (nodes : List NodeRef) (settings : RuntimeSettings) :
    Untangled ((Play.makeEngine name nodes settings).runOn u).2 atRest 0 x none
        ((Play.makeEngine name nodes settings).runOn u).2 ∧
      0 < ((Play.makeEngine name nodes settings).runOn u).2.engines.size := by
  generalize hs : ({ u with
    engines := u.engines.push {
      name := name
      nodes := nodes
      eventNodes := nodes.filter fun r => (u.node r).kind = .event
      settings := settings } } : World) = s
  have hpushed : Untangled s atRest 0 x none s := hs ▸ (start he hd x rfl rfl rfl rfl rfl).rebase
  have hmade : Untangled s atRest 0 x none ((Play.makeEngine name nodes settings).runOn u).2 := by
    refine upholds_makeEngine ((Untangled.abiding s 0 x).conduct id (by rw [← hs]; exact hx) none) ?_ ?_ ?_
    · rw [hs]
      exact hpushed
    · exact fun w h j => h.face j (fun _ => ⟨rfl, rfl, rfl, rfl⟩) (fun _ => id) fun _ => rfl
    · intro w h j y actions hy
      refine ⟨?_, by rintro _ _ _ ⟨⟩⟩
      rintro rfl
      rw [h.outlined.definition, ← hs] at hy
      rw [show (u.node y).definition.behaviour = _ from hy] at hplain
      cases hplain
  refine ⟨hmade.rebase, Nat.lt_of_lt_of_le ?_ hmade.size⟩
  rw [← hs]
  simp

end Untangled

namespace Sequel

/-- Paths that events trigger begin in the course of things. -/
theorem trigger {i : Nat} {x : NodeRef} {o p : Option Nat} {u w : World} (h : Sequel i x o u p w) (j : Nat) (y : NodeRef)
    (values : List (String × Value)) : Sequel i x o u p (w.begin j y "exec" none values) :=
  ((abiding i x o u).calls p).begin (r := w) j y "exec" (by simp) values (.inl ⟨rfl, rfl⟩) h

section Coverage

variable {i j f : Nat} {x : NodeRef} {p : Option Nat} {u w z v : World} {b : Option EventBehaviour}
  (hw : Untangled u (working i p) i x none w) (hx : (u.node x).definition.behaviour = .event b)

include hw hx

/-- Whatever a host does short of making and running engines has a sequel. -/
theorem play (h : Sequel i x p w none z) {a : HostAct} (ha : a.isCalm = true) : Sequel i x p w none (a.play.runOn z).2 :=
  ((abiding i x p w).enduring (fun h => h _ (Untangled.abiding u i x) hw) hx).play ha h

/-- So has a run with any limits. -/
theorem run {m : Nat} {maxSteps : Option Int} {maxSeconds : Option Double} (h : Sequel i x p w none z)
    (hrun : (Play.run j maxSteps maxSeconds).runOn z = (.ok m, v)) : Sequel i x p w none v :=
  (abiding i x p w).run (fun h => h _ (Untangled.abiding u i x) hw) hx h hrun

/-- A step of a fiber passes through sequels: the outputs of its trigger are written, the node or the listener that it has
come to is about to be run, and that is done. -/
theorem step {others : List Nat} (h : Sequel i x p w none z) (hq : (z.engine i).queue = f :: others)
    (hready : ((z.engine i).fiber f).isReady = true) (ht : (atWork i f others z).applyEntry i f = (.ok (), v)) :
    Sequel i x p w (some f) v ∧ (∀ y, Sequel i x p w (some f) ((Play.approach i f y).runOn v).2) ∧
      (∀ l rest, ((v.engine i).fiber f).listeners = l :: rest → Sequel i x p w (some f) (Play.heed i f rest v)) ∧
      Sequel i x p w (some f) ((Play.proceed i f).runOn v).2 :=
  (abiding i x p w).step (fun h => h _ (Untangled.abiding u i x) hw) hx h hq hready ht

end Coverage

end Sequel

/-- The payloads of triggers never mix. -/
theorem Sequel.shows_payload {u : World} (he : u.engines = #[]) (hd : u.disposers = []) {x : NodeRef} {b : Option EventBehaviour}
    (hx : (u.node x).definition.behaviour = .event b) (hplain : (u.node x).definition.behaviour.isScript = false)
    {name : String} {nodes : List NodeRef} {settings : RuntimeSettings} {p : Option Nat} {z : World}
    (hbefore : Sequel 0 x none ((Play.makeEngine name nodes settings).runOn u).2 p z)
    (hopen : (z.engine 0).isDisposed = false) {given : List (String × Value)} {f : Nat} {v : World}
    (hafter : Sequel 0 x p (z.begin 0 x "exec" none given) (some f) v)
    (hkin : (v.engine 0).Stems (z.engine 0).fibers.size f) : (v.node x).Shows (z.payload x given) := by
  by_cases hnone : z.payload x given = []
  · rw [hnone]
    exact fun q hq => absurd hq List.not_mem_nil
  obtain ⟨hmade, hone⟩ := Untangled.made he hd hx hplain name nodes settings
  have hz := hbefore _ (Untangled.abiding _ 0 x) hmade
  have htriggered := (hz.begin 0 x "exec" (l := none) (by simp) given (.inr (.inl ⟨rfl, rfl⟩))).rebase
  have hv : Untangled (z.begin 0 x "exec" none given) (onlyAt 0 f) 0 x none v := hafter _ (Untangled.abiding _ 0 x) htriggered
  obtain ⟨hcarries, hroot⟩ := World.carries_begin (Nat.lt_of_lt_of_le hone hz.size) hopen
    ((hz.engine 0).accounted.out (Nat.le_refl _)).2 hnone
  refine hv.apart.shows hv.atWork.current ?_
  rw [Fiber.Carries, hv.apart.unmixed.entry_of_stems hkin, hv.apart.lasting.entry _ hroot]
  exact hcarries

namespace Rivals

def left : Wire := ⟨⟨"hit", "exec", "left", "exec"⟩, 0⟩

def right : Wire := ⟨⟨"hit", "exec", "right", "exec"⟩, 1⟩

/-- An event with two nodes behind it. -/
def graph : Graph where
  arena := #[
    { id := "hit", definition := { typeName := "Hit", behaviour := .event none }
      outputs := [{ name := "exec", valueType := ValueType.flowName, wires := [left, right] },
        { name := "value", valueType := "string" }] },
    { id := "left", definition := { typeName := "Left", behaviour := .flow (some (.script [.commit "exec_out"])) }
      inputs := [{ name := "exec", valueType := ValueType.flowName, wires := [left] }]
      outputs := [{ name := "exec_out", valueType := ValueType.flowName }] },
    { id := "right", definition := { typeName := "Right", behaviour := .flow (some (.script [.raise .value "no"])) }
      inputs := [{ name := "exec", valueType := ValueType.flowName, wires := [right] }] }]
  ids := ⟨[("hit", 0), ("left", 1), ("right", 2)]⟩
  wires := [left, right]
  ends := #[some ⟨⟨0, 0⟩, ⟨1, 0⟩⟩, some ⟨⟨0, 0⟩, ⟨2, 0⟩⟩]

def bare : World := { graphs := #[graph] }

def made : World := ((Play.makeEngine "main" [⟨0, 0⟩, ⟨0, 1⟩, ⟨0, 2⟩] {}).runOn bare).2

/-- One trigger after the other, before anything is run. -/
def first : World := made.begin 0 ⟨0, 0⟩ "exec" none [("value", .str "one")]
def second : World := first.begin 0 ⟨0, 0⟩ "exec" none [("value", .str "two")]

/-- A limit strikes between the parts of the first path, another one between the parts of the second. -/
def halfway : World := ((Play.run 0 (some 1)).runOn second).2
def onward : World := ((Play.run 0 (some 2)).runOn halfway).2

/-- The second part of a path is about to be triggered. -/
def behindFirst : World := ((atWork 0 2 [4, 5] halfway).applyEntry 0 2).2
def behindSecond : World := ((atWork 0 5 [] onward).applyEntry 0 5).2

theorem runOn_isOk {m : Int} {w : World} (h : ((Play.run 0 (some m)).runOn w).1.isOk = true) :
    ∃ n, (Play.run 0 (some m)).runOn w = (.ok n, ((Play.run 0 (some m)).runOn w).2) := by
  generalize (Play.run 0 (some m)).runOn w = p at h ⊢
  obtain ⟨_ | n, v⟩ := p
  · cases h
  · exact ⟨n, rfl⟩

theorem applyEntry_isOk {f : Nat} {w : World} (h : (w.applyEntry 0 f).1.isOk = true) :
    w.applyEntry 0 f = (.ok (), (w.applyEntry 0 f).2) := by
  generalize w.applyEntry 0 f = p at h ⊢
  obtain ⟨_ | _, v⟩ := p
  · cases h
  · rfl

end Rivals

open Rivals in
/-- Both parts of a path find what its trigger gave, although the paths were begun before either was run. -/
theorem Sequel.shows_payload_rivals : (behindFirst.node ⟨0, 0⟩).Shows [("value", .str "one")] ∧
    (behindSecond.node ⟨0, 0⟩).Shows [("value", .str "two")] := by
  have hmade := (Untangled.made (u := bare) rfl rfl (x := ⟨0, 0⟩) (b := none) rfl rfl "main" [⟨0, 0⟩, ⟨0, 1⟩, ⟨0, 2⟩] {}).1
  have hfirst := (hmade.begin 0 ⟨0, 0⟩ "exec" (l := none) (by simp) [("value", .str "one")] (.inr (.inl ⟨rfl, rfl⟩))).rebase
  have hsecond := (hfirst.begin 0 ⟨0, 0⟩ "exec" (l := none) (by simp) [("value", .str "two")] (.inr (.inl ⟨rfl, rfl⟩))).rebase
  obtain ⟨_, hrun⟩ := runOn_isOk (w := second) (m := 1) (by decide +kernel)
  obtain ⟨_, hrun'⟩ := runOn_isOk (w := halfway) (m := 2) (by decide +kernel)
  have hbehindFirst : Sequel 0 ⟨0, 0⟩ none first (some 2) behindFirst := by
    have hhalfway := Sequel.run hfirst (b := none) rfl ((Sequel.refl 0 ⟨0, 0⟩ none first).trigger 0 ⟨0, 0⟩ _) hrun
    exact (Sequel.step hfirst (b := none) rfl hhalfway (by decide +kernel) (by decide +kernel) (applyEntry_isOk (by decide +kernel))).1
  have hbehindSecond : Sequel 0 ⟨0, 0⟩ none second (some 5) behindSecond := by
    have hhalfway : Sequel 0 ⟨0, 0⟩ none second none halfway := Sequel.run hsecond (b := none) rfl (.refl _ _ _ _) hrun
    have honward := Sequel.run hsecond (b := none) rfl hhalfway hrun'
    exact (Sequel.step hsecond (b := none) rfl honward (by decide +kernel) (by decide +kernel) (applyEntry_isOk (by decide +kernel))).1
  refine ⟨?_, ?_⟩
  · refine Sequel.shows_payload (u := bare) rfl rfl (b := none) rfl rfl (.refl _ _ _ _) (by decide +kernel) hbehindFirst ?_
    exact .child (by decide +kernel) .root
  · refine Sequel.shows_payload (u := bare) rfl rfl (b := none) rfl rfl ((Sequel.refl 0 ⟨0, 0⟩ none made).trigger 0 ⟨0, 0⟩ _)
      (by decide +kernel) hbehindSecond ?_
    exact .child (by decide +kernel) .root

end FlowGraph
