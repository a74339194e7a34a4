import FlowGraph.Proofs.Outline
import FlowGraph.Proofs.QueueTurn

/-!
A call that fails after it has committed. The fiber is over at once, with what it had left to run; but the fibers
into which a commit to several wires split it stay in the queue. Main statement: where no output of the node that
runs has more than one wire, nothing of what the failed call committed to is left to run.
-/
namespace FlowGraph

open World Play Engine

/-- None of the outputs of the node has more than one wire. -/
def World.Narrow (w : World) (x : NodeRef) : Prop := ∀ output, (w.wiresAt x output).length ≤ 1

/-- The node for which a call speaks. -/
def World.speaker? (w : World) : Act → Option NodeRef
  | .trigger route => ((w.graph route.graph).endsOf route.wire).map fun ends => ⟨route.graph, ends.target.node⟩
  | .listener _ l => l.context?.map (·.node)

/-- The fiber is at work, and from a place of the arena on it has no children. -/
structure Engine.Unsplit (f start : Nat) (e : Engine) : Prop where
  fiber : f < e.fibers.size
  size : start ≤ e.fibers.size
  current : e.current = some f
  kids : e.kids f start = []

namespace Engine.Unsplit

variable {f start : Nat} {e : Engine}

theorem growing (f start : Nat) : Growing (Unsplit f start) where
  congr h hfibers _ hcurrent _ := by
    refine ⟨by rw [hfibers]; exact h.fiber, by rw [hfibers]; exact h.size, hcurrent.trans h.current, ?_⟩
    rw [kids_congr hfibers]
    exact h.kids
  enter h he := by
    have hsize := he.kept.size
    refine ⟨Nat.lt_of_lt_of_le h.fiber hsize, Nat.le_trans h.size hsize, he.current.trans h.current, ?_⟩
    rw [he.kept.kids_eq h.fiber id h.size]
    exact h.kids
  current {e} h hc := by
    rw [h.current] at hc
    exact Nat.lt_irrefl _ (Option.some.inj hc ▸ h.fiber)

theorem modifyFiber (h : e.Unsplit f start) {g : Fiber → Fiber} (hg : ∀ x, (g x).parent = x.parent) :
    (e.modifyFiber f g).Unsplit f start := by
  refine ⟨by simpa using h.fiber, by simpa using h.size, h.current, ?_⟩
  rw [(kept_modifyFiber hg).kids_of_size (size_modifyFiber e f g) f h.size]
  exact h.kids

/-- A commit to a single wire takes the fiber there itself. -/
theorem commit (h : e.Unsplit f start) (x : NodeRef) (l : Option Listener) {wires : List Wire}
    (hw : wires.length ≤ 1) : (e.commit f x l wires).Unsplit f start := by
  match wires, hw with
  | [], _ => exact h.modifyFiber (g := fun y => y.commit x l) fun _ => rfl
  | [w], _ =>
    have hcommitted := h.modifyFiber (g := fun y => y.commit x l) fun _ => rfl
    exact hcommitted.modifyFiber (g := fun y => { y with next := some ⟨x.graph, w⟩ }) fun _ => rfl

end Engine.Unsplit

/-- The context speaks for the fiber, if for any, and for a node none of whose outputs has more than one wire. -/
def Context.Single (u : World) (i f : Nat) (c : Context) : Prop :=
  ∀ j k input, c.role = .flow j k input → (j = i ∧ k = f) ∧ u.Narrow c.node

theorem Context.Free.single {c : Context} (h : c.Free) (u : World) (i f : Nat) : c.Single u i f :=
  fun j k input hc => absurd hc (h j k input)

/-- The worlds are the same, of the outline of `u`, and the fiber has not split since. -/
def Whole (u : World) (i f start : Nat) (w : World) : Prop := Steady i (Unsplit f start) w ∧ Outlined u w

section Whole

variable {i f start : Nat} {u w : World}

/-- What calls do in the name of a single fiber leaves it unsplit. -/
theorem closed_whole : Closed (fun w _ => Whole u i f start w) (·.Single u i f) where
  stamp g v w _ h := ⟨h.1.frame (engines_stamp w g v) (disposers_stamp w g v), h.2.stamp g v⟩
  write h _ _ _ _ _ hn := ⟨h.1.frame rfl rfl, h.2.modifyNode _ (Node.outline_write hn)⟩
  setState _ _ _ _ h := ⟨h.1.frame rfl rfl, h.2.modifyNode _ rfl⟩
  setInput x place v _ _ h := ⟨h.1.frame rfl rfl, h.2.modifyNode x (Node.outline_setInput _ place v)⟩
  assign h _ _ _ _ _ hg := ⟨h.1.frame rfl rfl, h.2.modifyGraph _ (Outlined.outline_assign hg)⟩
  record _ _ _ _ h := ⟨h.1.frame rfl rfl, h.2.frame rfl⟩
  tell j e _ _ _ h := ⟨h.1.tell j e, h.2.tell j e⟩
  hold _ _ _ h := ⟨h.1.frame rfl rfl, h.2.frame rfl⟩
  schedule _ _ _ h := ⟨h.1.frame rfl rfl, h.2.frame rfl⟩
  store _ _ _ h := ⟨h.1.frame rfl rfl, h.2.frame rfl⟩
  subscribe _ _ _ _ h := ⟨h.1.frame rfl rfl, h.2.frame rfl⟩
  unsubscribe _ _ _ h := ⟨h.1.frame rfl rfl, h.2.frame rfl⟩
  enlist x _ hd _ _ h := ⟨h.1.enlist x hd.free, h.2.frame rfl⟩
  unlist _ _ _ h := ⟨⟨h.1.inside, h.1.engine, fun p hp => h.1.nodes p (List.mem_filter.1 hp).1, h.1.operations⟩,
    h.2.frame rfl⟩
  report {j} _ _ _ _ _ _ _ h := ⟨h.1.report (Unsplit.growing f start) j _, h.2.report j _⟩
  begin j x output l hl values _ _ _ h :=
    ⟨h.1.begin (Unsplit.growing f start) j x output (fun y hy c hc => (hl y hy c hc).2) values,
      h.2.begin j x output l values⟩
  commit {x j k input} hc output l _ _ _ h := by
    obtain ⟨⟨rfl, rfl⟩, hnarrow⟩ := hc j k input rfl
    refine ⟨h.1.commitFiber fun he _ => he.commit x l ?_, h.2.commitFiber j k x output l⟩
    rw [h.2.wiresAt]
    exact hnarrow output
  stop {x j k input} hc _ _ h := by
    obtain ⟨⟨rfl, rfl⟩, -⟩ := hc j k input rfl
    exact ⟨h.1.endFiber (fun he => he.modifyFiber fun _ => rfl) x, h.2.endFiber j k x⟩
  register h j _ x _ input := ⟨h.1.register (Unsplit.growing f start) j _ x input, h.2.frame rfl⟩
  enrol {j o d} hd _ _ h := by
    refine ⟨h.1.modifyOperation (Unsplit.growing f start) j o fun op hop d' hd' => ?_, h.2.frame rfl⟩
    rcases List.mem_append.1 hd' with hd' | hd'
    · exact hop d' hd'
    · rw [List.mem_singleton.1 hd']
      exact hd.free
  finish j o output _ _ h := ⟨h.1.finishOperation (Unsplit.growing f start) j o output, h.2.finishOperation j o output false⟩
  dismiss {w _} h j o _ _ := by
    have hstruck : Steady i (Unsplit f start) (w.strike j o) :=
      h.1.face (Unsplit.growing f start) j (fun _ => ⟨rfl, rfl, rfl, rfl⟩) (fun _ => id) (h.1.operations j)
    have hgone : Outlined u (w.strike j o) := h.2.frame rfl
    exact ⟨hstruck.relinquish (Unsplit.growing f start) j o, relinquish_upholds (hgone.frame rfl) hgone⟩
  close h j _ := ⟨h.1.disposed j (fun _ => rfl) fun _ => rfl, h.2.frame rfl⟩
  relinquish h j _ _ o := ⟨h.1.relinquish (Unsplit.growing f start) j o, relinquish_upholds (h.2.frame rfl) h.2⟩
  release h j _ hd := ⟨h.1.disposed j hd fun _ => rfl, h.2.frame rfl⟩
  clear h j _ hd := ⟨h.1.disposed j hd fun _ => rfl, h.2.frame rfl⟩

theorem conduct_whole : Conduct (Upholds (Whole u i f start)) (·.Single u i f) := by
  refine closed_whole.conduct ?_ ?_ ?_ ?_
  · exact fun w h p hp => (h.1.nodes p hp).within fun c hc => hc.single u i f
  · exact fun w h j op hop d hd => (h.1.operations j op hop d hd).within fun c hc => hc.single u i f
  · rintro _ _ _ _ _ j k input ⟨⟩
  · rintro _ _ _ _ _ _ _ j k input ⟨⟩

theorem Whole.modifyFiber (h : Whole u i f start w) {g : Fiber → Fiber} (hg : ∀ x, (g x).parent = x.parent) :
    Whole u i f start (w.modifyEngine i (·.modifyFiber f g)) := by
  refine ⟨⟨by simpa using h.1.inside, ?_, h.1.nodes, ?_⟩, h.2.frame rfl⟩
  · rw [engine_modifyEngine_self h.1.inside]
    exact h.1.engine.imp id fun he => he.modifyFiber hg
  · intro j
    rw [engine_modifyEngine]
    split
    · exact h.1.operations j
    · exact h.1.operations j

theorem Whole.applyEntry (h : Whole u i f start w) : Whole u i f start (w.applyEntry i f).2 := by
  have hlocal := Local.applyEntry w i f
  refine ⟨⟨by rw [hlocal.size]; exact h.1.inside, ?_, by rw [hlocal.disposers]; exact h.1.nodes, ?_⟩,
    h.2.applyEntry i f⟩
  · rw [engine_applyEntry h.1.inside]
    exact h.1.engine.imp id fun he => he.modifyFiber fun _ => rfl
  · intro j
    rw [hlocal.operations]
    exact h.1.operations j

theorem obeys_modifyFiber {g : Fiber → Fiber} (hg : ∀ x, (g x).parent = x.parent) :
    Obeys (Upholds (Whole u i f start)) (modify (·.modifyEngine i (·.modifyFiber f g))) :=
  .of_modify fun w r h => ⟨by rw [h.1], h.2.modifyFiber hg⟩

/-- A call for a node none of whose outputs has more than one wire does not split the fiber. -/
theorem obeys_callAt {x : Fiber} (hfits : ∀ l ∈ x.listeners, l.2.Fits i f)
    (hnarrow : ∀ act y, x.act? = some act → u.speaker? act = some y → u.Narrow y) :
    Obeys (Upholds (Whole u i f start)) (Structured.callAt i f x) := by
  unfold Structured.callAt
  cases hnext : x.next with
  | some route =>
    refine Agrees.bind (obeys_modifyFiber fun _ => rfl) fun _ => .look fun w r h => ?_
    have hends : (w.graph route.graph).endsOf route.wire = (u.graph route.graph).endsOf route.wire :=
      h.2.2.endsOf route.graph route.wire
    rw [← h.1]
    split
    · exact .of_throw _
    · rename_i ends hsome
      refine Agrees.bind (obeys_modifyFiber fun _ => rfl) fun _ => obeys_reach conduct_whole ?_
      rintro j k input ⟨⟩
      refine ⟨⟨rfl, rfl⟩, hnarrow (.trigger route) _ (by simp [Fiber.act?, hnext]) ?_⟩
      simp [speaker?, ← hends, hsome]
  | none =>
    cases hlisteners : x.listeners with
    | nil => exact .of_pure _
    | cons p rest =>
      obtain ⟨node, l⟩ := p
      refine Agrees.bind (obeys_modifyFiber fun _ => rfl) fun _ => ?_
      refine Agrees.bind (obeys_modifyFiber fun _ => rfl) fun _ => obeys_answer conduct_whole node ?_
      intro c hc j k input hrole
      refine ⟨hfits (node, l) (by simp [hlisteners]) c hc j k input hrole, ?_⟩
      exact hnarrow (.listener node l) _ (by simp [Fiber.act?, hnext, hlisteners]) (by simp [speaker?, hc])

/-- A fiber whose call speaks for such a node comes out of it without children. -/
theorem Poised.whole (hp : Poised i f w)
    (hnarrow : ∀ act y, ((w.engine i).fiber f).act? = some act → w.speaker? act = some y → w.Narrow y) :
    Whole w i f (w.engine i).fibers.size ((Structured.call i f).runOn w).2 := by
  have hnone : (w.engine i).kids f (w.engine i).fibers.size = [] := by simp [kids]
  have hstart : Whole w i f (w.engine i).fibers.size w :=
    ⟨⟨hp.inside, .inr ⟨hp.fiber, Nat.le_refl _, hp.current, hnone⟩, hp.nodes, hp.operations⟩, rfl⟩
  have happly := hstart.applyEntry
  have he := engine_applyEntry hp.inside f
  generalize hv : w.applyEntry i f = out at happly he
  obtain ⟨outcome, v⟩ := out
  cases outcome with
  | error e =>
    rw [runOn_call_error hv]
    exact happly
  | ok _ =>
    have hfiber : (v.engine i).fiber f = { (w.engine i).fiber f with isWritten := true } := by
      rw [he, fiber_modifyFiber, if_pos ⟨rfl, hp.fiber⟩]
    rw [runOn_call_ok hv, hfiber]
    exact (obeys_callAt hp.fits hnarrow).upholds happly

end Whole

section Turn

variable {i f : Nat} {others : List Nat} {w : World} {e : Failure}

/-- Where a turn leaves the engine when its call fails: the fiber is over, and what it committed to comes down to
the children into which the call has split it. -/
structure Aborted (f : Nat) (others : List Nat) (a b : Engine) : Prop where
  finished : (b.fiber f).finished = true
  idle : (b.fiber f).act? = none
  queue : b.queue = a.release f ++ (b.kids f a.fibers.size ++ (others ++ b.groups a.fibers.size))

/-- A turn whose call fails drops what is left of the path and what the call has split off. -/
theorem Ready.aborted (h : Ready i f others w) (hact : ((w.engine i).fiber f).act? ≠ none)
    (hstep : ((Play.step i f).runOn (atWork i f others w)).1 = .error e) (he : e.isNode = true)
    (halive : (((Play.step i f).runOn (atWork i f others w)).2.engine i).isDisposed = false) :
    ∃ u, (turn i f).runOn (unqueued i others w) = (.ok (), u) ∧ Aborted f others (w.engine i) (u.engine i) ∧
      (u.engine i).kids f (w.engine i).fibers.size =
        (((Structured.call i f).runOn (atWork i f others w)).2.engine i).kids f (w.engine i).fibers.size := by
  have hengine := engine_atWork h.between.inside f others
  have hp := h.poised
  have heq := step_eq_call hp.inside hp.fiber (by rw [hengine]; exact h.pending) (by rw [hengine]; exact h.isAborted)
  generalize hs : (Play.step i f).runOn (atWork i f others w) = out at hstep halive heq
  obtain ⟨outcome, v⟩ := out
  cases hstep
  have hal : Alike i w (atWork i f others w) :=
    (((Alike.refl i w).unqueued others).arrange (g := fun e => { e with current := some f }) fun _ => rfl).symm
  obtain ⟨v', hv', -, hafoot⟩ := h.step hal hact heq.symm halive
  cases hs.symm.trans hv'
  have hturn : (turn i f).runOn (unqueued i others w) = _ := turn_failed he hs
  generalize hu : ((v.report i e).modifyEngine i fun e => { e with steps := e.steps + 1 }.abort f) = u at hturn
  have hreport := (hafoot.report e).aborted hu.symm
  rw [hengine] at hreport
  obtain ⟨-, -, hend, hover, hsplit, hself⟩ := hreport
  refine ⟨rest u i f, hturn, ⟨?_, ?_, ?_⟩, ?_⟩
  all_goals rw [hend]
  · exact congrArg Fiber.finished hself
  · exact congrArg Fiber.act? hself
  · refine hover.queue.trans ?_
    rw [← hsplit, List.append_assoc]
    rfl
  · rw [← heq]
    refine Eq.trans (kids_congr rfl _ _) (hsplit.trans ?_)
    exact kids_congr (same_report v i i e).fibers _ _

/-- A call that fails leaves nothing of what it has committed to, if no output of the node that it speaks for has more
than one wire: behind the released parent there are the fibers that were in the queue before, and new roots. -/
theorem failed_call_leaves_nothing (h : Ready i f others w) (hact : ((w.engine i).fiber f).act? ≠ none)
    (hnarrow : ∀ act x, ((w.engine i).fiber f).act? = some act → w.speaker? act = some x → w.Narrow x)
    (hstep : ((Play.step i f).runOn (atWork i f others w)).1 = .error e) (he : e.isNode = true)
    (halive : (((Play.step i f).runOn (atWork i f others w)).2.engine i).isDisposed = false) :
    ∃ u, (turn i f).runOn (unqueued i others w) = (.ok (), u) ∧ ((u.engine i).fiber f).finished = true ∧
      ((u.engine i).fiber f).act? = none ∧ (u.engine i).kids f (w.engine i).fibers.size = [] ∧
      (u.engine i).queue = (w.engine i).release f ++ (others ++ (u.engine i).groups (w.engine i).fibers.size) := by
  have hengine := engine_atWork h.between.inside f others
  obtain ⟨u, hturn, haborted, hkids⟩ := h.aborted hact hstep he halive
  have hp := h.poised
  have hwhole : Whole (atWork i f others w) i f (w.engine i).fibers.size
      ((Structured.call i f).runOn (atWork i f others w)).2 := by
    have := hp.whole (by rw [hengine]; exact hnarrow)
    rwa [hengine] at this
  rw [step_eq_call hp.inside hp.fiber (by rw [hengine]; exact h.pending) (by rw [hengine]; exact h.isAborted)] at halive
  have hunsplit := hwhole.1.engine.resolve_left (by rw [halive]; exact Bool.false_ne_true)
  rw [hunsplit.kids] at hkids
  refine ⟨u, hturn, haborted.finished, haborted.idle, hkids, ?_⟩
  rw [haborted.queue, hkids]
  rfl

end Turn

namespace Twice

def into : Wire := ⟨⟨"start", "exec", "twice", "exec"⟩, 0⟩

def left : Wire := ⟨⟨"twice", "exec_out", "left", "exec"⟩, 1⟩

def right : Wire := ⟨⟨"twice", "exec_out", "right", "exec"⟩, 2⟩

/-- A node that commits twice, which is once too often, with these wires behind its output. -/
def graph (wires : List Wire) : Graph where
  arena := #[
    { id := "start", definition := { typeName := "Start", behaviour := .event none }
      outputs := [{ name := "exec", valueType := ValueType.flowName, wires := [into] }] },
    { id := "twice"
      definition := {
        typeName := "Twice", behaviour := .flow (some (.script [.commit "exec_out", .commit "exec_out"])) }
      inputs := [{ name := "exec", valueType := ValueType.flowName, wires := [into] }]
      outputs := [{ name := "exec_out", valueType := ValueType.flowName, wires := wires }] },
    { id := "left", definition := { typeName := "Sink", behaviour := .flow (some (.script [])) }
      inputs := [{ name := "exec", valueType := ValueType.flowName, wires := wires.filter (· = left) }] },
    { id := "right", definition := { typeName := "Sink", behaviour := .flow (some (.script [])) }
      inputs := [{ name := "exec", valueType := ValueType.flowName, wires := wires.filter (· = right) }] }]
  ids := ⟨[("start", 0), ("twice", 1), ("left", 2), ("right", 3)]⟩
  wires := into :: wires
  ends := #[some ⟨⟨0, 0⟩, ⟨1, 0⟩⟩, some ⟨⟨1, 0⟩, ⟨2, 0⟩⟩, some ⟨⟨1, 0⟩, ⟨3, 0⟩⟩]

def world (wires : List Wire) : World where
  graphs := #[graph wires]
  engines := #[{ nodes := [⟨0, 0⟩, ⟨0, 1⟩, ⟨0, 2⟩, ⟨0, 3⟩] }]

/-- The world in which the node waits for its turn. -/
def started (wires : List Wire) : World := (world wires).begin 0 ⟨0, 0⟩ "exec" none []

/-- The path that the failing node starts is ready for its turn. -/
theorem ready_started : Ready 0 0 [] (started [left]) := by
  refine ⟨⟨⟨by decide, by decide, by decide, ?_, ?_⟩, by decide⟩, by decide, by decide, by decide, by decide, by decide,
    ?_, ?_⟩
  · exact fun p hp => absurd hp List.not_mem_nil
  · intro j op hop
    have hnone : ((started [left]).engine j).operations = #[] := by
      cases j with
      | zero => rfl
      | succ j => rfl
    rw [hnone] at hop
    exact absurd hop (Array.not_mem_empty op)
  · exact fun l hl => absurd hl List.not_mem_nil
  · intro p hp
    cases hp

theorem narrow_twice : (started [left]).Narrow ⟨0, 1⟩ := by
  intro output
  have hnode : ((started [left]).node ⟨0, 1⟩).outputs =
      [{ name := "exec_out", valueType := ValueType.flowName, wires := [left] }] := rfl
  simp only [wiresAt, Node.output?, hnode, List.find?_cons, List.find?_nil]
  by_cases h : "exec_out" = output
  · simp [h]
  · simp [h]

end Twice

open Twice in
theorem failed_call_leaves_nothing_once : ∃ u, (turn 0 0).runOn (unqueued 0 [] (started [left])) = (.ok (), u) ∧
    ((u.engine 0).fiber 0).finished = true ∧ (u.engine 0).kids 0 1 = [] := by
  have hact : (((started [left]).engine 0).fiber 0).act? = some (.trigger ⟨0, into⟩) := rfl
  obtain ⟨u, hturn, hfinished, -, hkids, -⟩ := failed_call_leaves_nothing ready_started
    (by rw [hact]; exact Option.some_ne_none _)
    (by
      intro act x hfound hx
      cases hact.symm.trans hfound
      cases hx
      exact narrow_twice)
    (e := .node "twice" "Twice" (.committedTwice "exec_out")) rfl rfl rfl
  exact ⟨u, hturn, hfinished, hkids⟩

open Twice in
/-- With two wires behind its output the nodes there run all the same. -/
theorem failed_call_leaves_children :
    (history 0 9 0 (started [left])).1 = [.trigger ⟨0, into⟩] ∧
      (history 0 9 0 (started [left, right])).1 = [.trigger ⟨0, into⟩, .trigger ⟨0, left⟩, .trigger ⟨0, right⟩] :=
  ⟨rfl, rfl⟩

end FlowGraph
