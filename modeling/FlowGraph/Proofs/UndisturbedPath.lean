import FlowGraph.Proofs.Descendants
import FlowGraph.Proofs.Sequels
import FlowGraph.Proofs.Tracking

/-!
A path while nobody acts in the name of some node. The fiber that runs the path keeps the listeners that it had, the node
keeps its outputs, and whoever has a turn is one of the kin of the fiber.
-/
namespace FlowGraph

open World Play

/-- A node, and the fiber that runs the paths behind it; there were `size` fibers before. -/
structure Seat where
  engine : Nat
  fiber : Nat
  node : NodeRef
  size : Nat

namespace Seat

/-- The node takes part in flow, no event fires there, and the fiber was there before. -/
structure Taken (s : Seat) (u : World) : Prop where
  flow : ∃ b, (u.node s.node).definition.behaviour = .flow b
  silent : (u.node s.node).isFlowOutput "exec" = false
  old : s.fiber < s.size
  inside : s.size ≤ (u.engine s.engine).fibers.size

/-- Contexts of the node are bound to fibers, in the engine to none but old ones. -/
def Elder (s : Seat) (c : Context) : Prop :=
  c.node = s.node → ∃ j k input, c.role = .flow j k input ∧ (j = s.engine → k < s.size)

/-- The contexts of other nodes in which something is done while the fiber is at work. -/
def Foreign (s : Seat) (p : Option Nat) (c : Context) : Prop := c.Serves s.Elder (working s.engine p) ∧ c.node ≠ s.node

section Foreign

variable {s : Seat} {p : Option Nat} {c : Context}

/-- What is bound to no fiber does not speak for the node. -/
theorem Elder.ne_of_free (hc : s.Elder c) (hfree : c.Free) : c.node ≠ s.node := by
  intro hnode
  obtain ⟨j, k, input, hrole, -⟩ := hc hnode
  exact hfree j k input hrole

theorem Elder.foreign (hc : s.Elder c) (hfree : c.Free) : s.Foreign p c :=
  ⟨⟨hc, fun j k input hrole => absurd hrole (hfree j k input)⟩, hc.ne_of_free hfree⟩

theorem foreign_of_free (hnode : c.node ≠ s.node) (hfree : c.Free) : s.Foreign p c :=
  Elder.foreign (fun h => absurd h hnode) hfree

theorem within_foreign {d : Disposer} (hkind : d.Within s.Elder) (hfree : d.Free) : d.Within (s.Foreign p) := by
  cases d with
  | script c actions => exact Elder.foreign hkind hfree
  | _ => trivial

/-- Only the fiber at work has contexts that are bound to it. -/
theorem Foreign.working (hc : s.Foreign p c) : c.Admits s.engine (Engine.AtHome s.size s.fiber p) := by
  intro j k input hrole
  have hat := hc.1.2 j k input hrole
  cases p with
  | none => cases hat
  | some g =>
    rw [FlowGraph.working, onlyAt] at hat
    split at hat
    · rename_i hj
      cases hat
      exact ⟨hj, Engine.AtHome.working ..⟩
    · cases hat

end Foreign

end Seat

/-- The fiber is not over. The listeners that were there are at the bottom, and those above do not speak for the node. -/
structure Fiber.Stacked (x : NodeRef) (ls : List (Option NodeRef × Listener)) (y : Fiber) : Prop where
  unfinished : y.finished = false
  above : ∃ above, y.listeners = above ++ ls ∧ ∀ l ∈ above, l.2.Within (·.node ≠ x)

theorem Fiber.Stacked.congr {x : NodeRef} {ls : List (Option NodeRef × Listener)} {y z : Fiber} (h : y.Stacked x ls)
    (hf : z.finished = y.finished) (hl : z.listeners = y.listeners) : z.Stacked x ls :=
  ⟨hf.trans h.unfinished, hl ▸ h.above⟩

/-- A path that begins changes no fiber that was there. -/
theorem InOrder.fiber_begin {u w : World} {cur : Nat → Option Nat} (h : InOrder u cur w) (j : Nat) (x : NodeRef)
    (output : String) {l : Option Listener} (hl : ∀ y, l = some y → y.Free) (values : List (String × Value)) {i k : Nat}
    (hk : k < (w.engine i).fibers.size) : ((w.begin j x output l values).engine i).fiber k = (w.engine i).fiber k := by
  by_cases hij : i = j
  · subst hij
    cases hd : (w.engine i).isDisposed with
    | true => rw [World.begin, if_pos hd]
    | false =>
      have hi : i < w.engines.size := by
        apply Decidable.byContradiction
        intro hi
        simp [World.engine, hi] at hk
        cases hk
      obtain ⟨root, kids, he, -⟩ := entered_begin hi hd ((h.engine i).accounted.out (Nat.le_refl _)).2 x output hl values
      exact he.fiber_old hk
  · rw [(Local.begin w j x output l values).others i hij]

/-- A path cannot begin at an output that is not one for execution. -/
theorem World.outputs_begin_refused (w : World) (j : Nat) {y : NodeRef} {output : String} (l : Option Listener)
    (values : List (String × Value)) (h : (w.node y).isFlowOutput output = false) (x : NodeRef) :
    ((w.begin j y output l values).node x).outputs = (w.node x).outputs := by
  have hnode (x : NodeRef) := node_stampOutputs w y.graph values x
  unfold World.begin
  split
  · rfl
  · dsimp only
    generalize (w.stampOutputs y.graph values).2 = r at hnode ⊢
    have hrefused (e : Engine → Engine) (k : Nat) :
        ∃ e', (r.modifyEngine j e).commitFiber j k y output l = (.error e', r.modifyEngine j e) := by
      unfold commitFiber commitRefusal?
      split
      · exact ⟨_, rfl⟩
      · rename_i hnone
        rw [show ((r.modifyEngine j e).node y) = r.node y from rfl, hnode, h] at hnone
        split at hnone <;> cases hnone
    obtain ⟨e', he⟩ := hrefused _ _
    rw [he]
    dsimp only
    rw [outputs_report]
    exact congrArg Node.outputs (hnode x)

/-- The path of the fiber above the listeners goes on, and the node has these outputs. Who has the turn is one of the kin of
the fiber, and nothing but fibers speaks for the node. -/
structure Along (s : Seat) (u : World) (ls : List (Option NodeRef × Listener)) (outs : List Socket) (p : Option Nat)
    (w : World) : Prop extends Retained u (working s.engine p) s.Elder w where
  outlined : Outlined u w
  steady : Steady s.engine (Engine.AtHome s.size s.fiber p) w
  stacked : ((w.engine s.engine).fiber s.fiber).Stacked s.node ls
  outputs : (w.node s.node).outputs = outs

namespace Along

variable {s : Seat} {u v w : World} {ls : List (Option NodeRef × Listener)} {outs : List Socket} {p : Option Nat} {j : Nat}

theorem inside (hs : s.Taken u) (h : Along s u ls outs p w) : s.fiber < (w.engine s.engine).fibers.size :=
  Nat.lt_of_lt_of_le hs.old (Nat.le_trans hs.inside (h.engine s.engine).outlived.size)

theorem aside (h : Along s u ls outs p w) (he : v.engines = w.engines) (hd : v.disposers = w.disposers)
    (hv : Outlined u v) (ho : (v.node s.node).outputs = (w.node s.node).outputs) : Along s u ls outs p v := by
  refine ⟨h.toRetained.frame he hd, hv, h.steady.frame he hd, ?_, ho.trans h.outputs⟩
  rw [engine_congr he]
  exact h.stacked

theorem fiber_face (w : World) (j : Nat) {g : Engine → Engine} (hg : ∀ e, (g e).fibers = e.fibers) (i k : Nat) :
    ((w.modifyEngine j g).engine i).fiber k = (w.engine i).fiber k := by
  rw [engine_modifyEngine]
  split
  · rw [Engine.fiber_congr (hg _)]
  · rfl

/-- A change of what the engine does not keep to be run later. -/
theorem face (h : Along s u ls outs p w) (j : Nat) {g : Engine → Engine} (hg : ∀ e : Engine, e.Same (g e))
    (hd : ∀ e : Engine, e.isDisposed = true → (g e).isDisposed = true) (ho : ∀ e : Engine, (g e).operations = e.operations) :
    Along s u ls outs p (w.modifyEngine j g) := by
  refine ⟨h.toRetained.face j hg hd ho, h.outlined.frame rfl, ?_, ?_, h.outputs⟩
  · refine h.steady.face (Engine.AtHome.growing ..) j hg hd ?_
    rw [ho]
    exact h.steady.operations j
  · rw [fiber_face w j (fun e => (hg e).fibers)]
    exact h.stacked

theorem tell (h : Along s u ls outs p w) (j : Nat) (e : String → Event) : Along s u ls outs p (w.tell j e) := by
  have hgraphs : (w.tell j e).graphs = w.graphs := by
    unfold World.tell
    split <;> rfl
  exact h.aside (engines_tell w j e) (disposers_tell w j e) (h.outlined.tell j e) (outputs_of_graphs hgraphs _)

theorem report (h : Along s u ls outs p w) (j : Nat) (e : Failure) : Along s u ls outs p (w.report j e) := by
  have hnoted : Along s u ls outs p (w.modifyEngine j fun x => { x with failures := e :: x.failures }) :=
    h.face j (fun _ => ⟨rfl, rfl, rfl, rfl⟩) (fun _ => id) fun _ => rfl
  exact hnoted.aside (engines_report w j e) (disposers_report w j e) (h.outlined.report j e) (outputs_report w j e _)

/-- Paths that begin elsewhere leave the seat alone. -/
theorem begin (hs : s.Taken u) (h : Along s u ls outs p w) (j : Nat) (y : NodeRef) (output : String) {l : Option Listener}
    (hl : ∀ z, l = some z → z.Within fun c => s.Elder c ∧ c.Free) (values : List (String × Value))
    (hy : y = s.node → output = "exec" ∨ values = []) : Along s u ls outs p (w.begin j y output l values) := by
  have hfree (z : Listener) (hz : l = some z) : z.Free := fun c hc => (hl z hz c hc).2
  refine ⟨h.toRetained.begin j y output hl values, h.outlined.begin j y output l values,
    h.steady.begin (Engine.AtHome.growing ..) j y output hfree values, ?_, Eq.trans ?_ h.outputs⟩
  · rw [h.fiber_begin j y output hfree values (h.inside hs)]
    exact h.stacked
  · by_cases hself : y = s.node
    · rcases hy hself with rfl | rfl
      · refine outputs_begin_refused w j l values ?_ s.node
        rw [hself, h.outlined.isFlowOutput]
        exact hs.silent
      · exact outputs_begin w fun _ => .inl rfl
    · exact outputs_begin w fun heq => absurd heq hself

theorem complete (hs : s.Taken u) (h : Along s u ls outs p w) (j o : Nat) (output : Option String) :
    Along s u ls outs p (w.complete j o output) := by
  refine complete_upholds (P := Along s u ls outs p) ?_ ?_ ?_ ?_ ?_ h
  · exact fun w h => h.face j (fun _ => ⟨rfl, rfl, rfl, rfl⟩) (fun _ => id) fun _ => rfl
  · exact fun w y h => h.aside (engines_chooseOutput w y output) (disposers_chooseOutput w y output)
      (h.outlined.chooseOutput y output) (outputs_chooseOutput w y output _)
  · exact fun w e h => h.report j e
  · exact fun w y name h => h.begin hs j y name (by simp) [] fun _ => .inr rfl
  · exact fun w e h => h.tell j e

theorem modifyOperation (h : Along s u ls outs p w) (j o : Nat) {g : Operation → Operation}
    (hg : ∀ op, (∀ d ∈ op.disposers, d.Within fun c => s.Elder c ∧ c.Free) →
      ∀ d ∈ (g op).disposers, d.Within fun c => s.Elder c ∧ c.Free)
    (hfree : ∀ op, (∀ d ∈ op.disposers, d.Free) → ∀ d ∈ (g op).disposers, d.Free) :
    Along s u ls outs p (w.modifyEngine j (·.modifyOperation o g)) := by
  refine ⟨h.toRetained.modifyOperation j o hg, h.outlined.frame rfl,
    h.steady.modifyOperation (Engine.AtHome.growing ..) j o hfree, ?_, h.outputs⟩
  rw [fiber_face w j (g := (·.modifyOperation o g)) fun _ => rfl]
  exact h.stacked

theorem finishOperation (hs : s.Taken u) (h : Along s u ls outs p w) (j o : Nat) (output : Option String) :
    Along s u ls outs p (w.finishOperation j o output) := by
  refine finishOperation_upholds (P := Along s u ls outs p) ?_ ?_ ?_ h
  · exact fun w h _ _ => h.modifyOperation j o (fun _ => id) fun _ => id
  · exact fun w h _ => h.complete hs j o output
  · intro _ _ hout
    cases hout

theorem relinquish (h : Along s u ls outs p w) (j o : Nat) : Along s u ls outs p (w.relinquish j o) :=
  relinquish_upholds (h.modifyOperation j o (by simp) (by simp)) h

theorem of_parts (h : Along s u ls outs p w) (hR : Retained u (working s.engine p) s.Elder v) (hv : Outlined u v)
    (hS : Steady s.engine (Engine.AtHome s.size s.fiber p) v)
    (hl : (v.engine s.engine).fiber s.fiber = (w.engine s.engine).fiber s.fiber)
    (ho : (v.node s.node).outputs = (w.node s.node).outputs) : Along s u ls outs p v :=
  ⟨hR, hv, hS, hl ▸ h.stacked, ho.trans h.outputs⟩

theorem retained_closed (s : Seat) (u : World) (p : Option Nat) :
    Closed (fun w _ => Retained u (working s.engine p) s.Elder w) (s.Foreign p) :=
  (Retained.closed u (working s.engine p) s.Elder).anti fun _ hc => hc.1

theorem steady_closed (s : Seat) (p : Option Nat) :
    Closed (fun w _ => Steady s.engine (Engine.AtHome s.size s.fiber p) w) (s.Foreign p) :=
  closed_steady (Engine.AtHome.growing _ _ p) fun _ hc => hc.working

/-- A commitment in the name of another node leaves the seat alone. -/
theorem commitFiber (hs : s.Taken u) (h : Along s u ls outs p w) {y : NodeRef} {j f : Nat} {input : String}
    (hc : s.Foreign p ⟨y, .flow j f input⟩) (output : String) {l : Option Listener}
    (hl : ∀ z, l = some z → z.context? = some ⟨y, .flow j f input⟩) : Along s u ls outs p (w.commitFiber j f y output l).2 := by
  refine ⟨(retained_closed s u p).commit hc output hl (r := w) h.toRetained, h.outlined.commitFiber j f y output l,
    (steady_closed s p).commit hc output hl (r := w) h.steady, ?_, ?_⟩
  · unfold World.commitFiber
    split
    · exact h.stacked
    · dsimp only
      rw [engine_modifyEngine]
      split
      · rename_i hj
        have hf : f < (w.engine j).fibers.size :=
          (h.engine j).accounted.current_lt ((h.engine j).current.trans (hc.1.2 j f input rfl))
        rw [hj.1] at hf
        rw [Engine.fiber_commit hf, if_pos (h.inside hs)]
        split
        · obtain ⟨hunfinished, above, heq, habove⟩ := h.stacked
          refine ⟨(Engine.onto_finished ..).trans hunfinished, ?_⟩
          rw [Engine.onto_listeners]
          cases l with
          | none => exact ⟨above, heq, habove⟩
          | some l =>
            refine ⟨(some y, l) :: above, congrArg _ heq, fun x hx => ?_⟩
            rcases List.mem_cons.1 hx with rfl | hx
            · intro c hctx
              cases (hl l rfl).symm.trans hctx
              exact hc.2
            · exact habove x hx
        · exact h.stacked
      · exact h.stacked
  · refine Eq.trans ?_ h.outputs
    unfold World.commitFiber
    split <;> rfl

/-- The end of a path at another node leaves the seat alone. -/
theorem endFiber (h : Along s u ls outs p w) {y : NodeRef} {j f : Nat} {input : String}
    (hc : s.Foreign p ⟨y, .flow j f input⟩) : Along s u ls outs p (w.endFiber j f y).2 := by
  refine ⟨(retained_closed s u p).stop hc (r := w) h.toRetained, h.outlined.endFiber j f y,
    (steady_closed s p).stop hc (r := w) h.steady, ?_, Eq.trans ?_ h.outputs⟩
  · unfold World.endFiber
    split
    · exact h.stacked
    · rw [engine_modifyEngine]
      split
      · rw [Engine.fiber_modifyFiber]
        split
        · exact h.stacked.congr rfl rfl
        · exact h.stacked
      · exact h.stacked
  · unfold World.endFiber
    split <;> rfl

theorem register (h : Along s u ls outs p w) {j : Nat} (hj : Engaged (fun w _ => Along s u ls outs p w) (s.Foreign p) j)
    (y : NodeRef) (hy : ∃ b, (w.node y).definition.behaviour = .async b) (input : String) :
    Along s u ls outs p (w.modifyEngine j fun e => { e with
      operations := e.operations.push { node := y, input := input }
      pending := e.pending ++ [(w.engine j).operations.size] }) := by
  have hR := (retained_closed s u p).register (r := w) h.toRetained (hj.mono fun _ _ h => h.toRetained) y hy input
  have hS := (steady_closed s p).register (r := w) h.steady (hj.mono fun _ _ h => h.steady) y hy input
  have hl := fiber_face w j (g := fun e => { e with
    operations := e.operations.push { node := y, input := input }
    pending := e.pending ++ [(w.engine j).operations.size] }) (fun _ => rfl) s.engine s.fiber
  exact h.of_parts hR (h.outlined.frame rfl) hS hl rfl

theorem enrol (h : Along s u ls outs p w) (j o : Nat) {d : Disposer} (hd : d.Within fun c => s.Foreign p c ∧ c.Free) :
    Along s u ls outs p (w.modifyEngine j (·.modifyOperation o fun op => { op with disposers := op.disposers ++ [d] })) := by
  have hR := (retained_closed s u p).enrol (j := j) (o := o) hd (r := w) h.toRetained
  have hS := (steady_closed s p).enrol (j := j) (o := o) hd (r := w) h.steady
  have hl := fiber_face w j (g := (·.modifyOperation o fun op => { op with disposers := op.disposers ++ [d] }))
    (fun _ => rfl) s.engine s.fiber
  exact h.of_parts hR (h.outlined.frame rfl) hS hl rfl

theorem clear (h : Along s u ls outs p w) {j : Nat} (ho : Opened (fun w _ => Along s u ls outs p w) j)
    (hd : j < w.engines.size → (w.engine j).isDisposed = true) :
    Along s u ls outs p (w.modifyEngine j fun e => { e with queue := [], inbox := [] }) := by
  have hR := (retained_closed s u p).clear (r := w) h.toRetained (ho.mono fun _ _ h => h.toRetained) hd
  have hS := (steady_closed s p).clear (r := w) h.steady (ho.mono fun _ _ h => h.steady) hd
  have hl := fiber_face w j (g := fun e => { e with queue := [], inbox := [] }) (fun _ => rfl) s.engine s.fiber
  exact h.of_parts hR (h.outlined.frame rfl) hS hl rfl

theorem enlist (h : Along s u ls outs p w) (y : NodeRef) {d : Disposer} (hd : d.Within fun c => s.Foreign p c ∧ c.Free) :
    Along s u ls outs p { w with disposers := w.disposers ++ [(y, d)] } := by
  have hR := (retained_closed s u p).enlist y hd (r := w) h.toRetained
  have hS := (steady_closed s p).enlist y hd (r := w) h.steady
  exact h.of_parts hR (h.outlined.frame rfl) hS rfl rfl

theorem unlist (h : Along s u ls outs p w) (y : NodeRef) :
    Along s u ls outs p { w with disposers := w.disposers.filter (·.1 ≠ y) } := by
  have hR := (retained_closed s u p).unlist y (r := w) h.toRetained
  have hS := (steady_closed s p).unlist y (r := w) h.steady
  exact h.of_parts hR (h.outlined.frame rfl) hS rfl rfl

/-- A node changes in what it shows nobody. -/
theorem modifyNode (h : Along s u ls outs p w) (y : NodeRef) {g : Node → Node} (hg : (g (w.node y)).outline = (w.node y).outline)
    (ho : ∀ n, (g n).outputs = n.outputs) : Along s u ls outs p (w.modifyNode y g) :=
  h.aside rfl rfl (h.outlined.modifyNode y hg) (outputs_modifyNode w y ho s.node)

/-- Whatever is done in the name of other nodes, the path goes on. -/
theorem closed (hs : s.Taken u) (ls : List (Option NodeRef × Listener)) (outs : List Socket) (p : Option Nat) :
    Closed (fun w _ => Along s u ls outs p w) (s.Foreign p) where
  stamp g v w _ h := h.aside (engines_stamp w g v) (disposers_stamp w g v) (h.outlined.stamp g v) (by rw [node_stamp])
  write h _ hc _ _ _ hn := h.aside rfl rfl (h.outlined.modifyNode _ (Node.outline_write hn)) (outputs_modifyNode_of_ne _ hc.2 _)
  setState _ _ _ _ h := h.modifyNode _ rfl fun _ => rfl
  setInput y place v _ _ h := h.modifyNode y (Node.outline_setInput _ place v) fun _ => rfl
  assign {w _} h _ _ _ _ _ hg := by
    obtain ⟨_, _, -, -, hchanged⟩ := Graph.assign_eq_ok hg
    refine h.aside rfl rfl (h.outlined.modifyGraph _ (Outlined.outline_assign hg)) ?_
    rw [w.node_modifyGraph]
    rw [hchanged, Graph.arena_stamp]
  record _ _ _ _ h := h.aside rfl rfl (h.outlined.frame rfl) rfl
  tell j e _ _ _ h := h.tell j e
  hold _ _ _ h := h.aside rfl rfl (h.outlined.frame rfl) rfl
  schedule _ _ _ h := h.aside rfl rfl (h.outlined.frame rfl) rfl
  store _ _ _ h := h.aside rfl rfl (h.outlined.frame rfl) rfl
  subscribe _ _ _ _ h := h.aside rfl rfl (h.outlined.frame rfl) rfl
  unsubscribe _ _ _ h := h.aside rfl rfl (h.outlined.frame rfl) rfl
  enlist y _ hd _ _ h := h.enlist y hd
  unlist y _ _ h := h.unlist y
  report _ _ _ _ _ _ _ h := h.report _ _
  begin j y output _ hl values hy _ _ h := by
    refine h.begin hs j y output (fun z hz c hc => ⟨(hl z hz c hc).1.1.1, (hl z hz c hc).2⟩) values fun hself => ?_
    rcases hy with hexec | ⟨c, hc, hnode⟩
    · exact .inl hexec.1
    · exact absurd (hnode.trans hself) hc.2
  commit hc output _ hl _ _ h := h.commitFiber hs hc output hl
  stop hc _ _ h := h.endFiber hc
  register h _ hj y hy input := h.register hj y hy input
  enrol {j o _} hd _ _ h := h.enrol j o hd
  finish j o output _ _ h := h.finishOperation hs j o output
  dismiss {w _} h j o _ _ := by
    have hdrop : Along s u ls outs p (w.strike j o) :=
      h.face j (fun _ => ⟨rfl, rfl, rfl, rfl⟩) (fun _ => id) fun _ => rfl
    exact hdrop.relinquish j o
  close h j _ := h.face j (fun _ => ⟨rfl, rfl, rfl, rfl⟩) (fun _ _ => rfl) fun _ => rfl
  relinquish h _ _ _ o := h.relinquish _ o
  release h j _ _ := h.face j (fun _ => ⟨rfl, rfl, rfl, rfl⟩) (fun _ => id) fun _ => rfl
  clear h _ ho hd := h.clear ho hd

/-- A node that does something else than to take part in flow is another one. -/
theorem ne_of_behaviour (hs : s.Taken u) (h : Along s u ls outs p w) {y : NodeRef}
    (hy : ∀ b, (w.node y).definition.behaviour ≠ .flow b) : y ≠ s.node := by
  rintro rfl
  obtain ⟨b, hb⟩ := hs.flow
  exact hy b (by rw [h.outlined.definition, hb])

theorem conduct (hs : s.Taken u) (ls : List (Option NodeRef × Listener)) (outs : List Socket) (p : Option Nat) :
    Conduct (Upholds (Along s u ls outs p)) (s.Foreign p) := by
  refine (closed hs ls outs p).conduct (fun w h d hd => ?_) (fun w h j op hop d hd => ?_) (fun w h y b hb => ?_)
    fun w h y b hb j o => ?_
  · exact Seat.within_foreign (h.undone d hd) (h.disposers d hd)
  · exact Seat.within_foreign ((h.within j).disposers op hop d hd) ((h.engine j).disposers op hop d hd)
  · exact Seat.foreign_of_free (h.ne_of_behaviour hs (by simp [hb])) (by rintro _ _ _ ⟨⟩)
  · exact Seat.foreign_of_free (h.ne_of_behaviour hs (by simp [hb])) (by rintro _ _ _ ⟨⟩)

end Along

end FlowGraph
