import FlowGraph.Proofs.Blaming
import FlowGraph.Proofs.Completion
import FlowGraph.Proofs.Recording
import FlowGraph.Proofs.Sequels
import FlowGraph.Proofs.Waking

/-!
What the parts of an engine report. To start a path adds one failure to the record or none, and so does the completion of an
operation; what calls do besides adds those of their own paths and completions, and of what is undone.
-/
namespace FlowGraph

open World Play

theorem Node.error_write {n m : Node} {name : String} {v : Value} (h : n.write name v = .ok m) : m.error = n.error := by
  unfold write at h
  split at h
  · split at h
    · cases h
    · cases h
      rfl
  · cases h

theorem Graph.arena_assign {g changed : Graph} {x : Variable} {v : Value} {told : Option Value}
    (h : g.assign x v = .ok (changed, told)) : changed.arena = g.arena := by
  obtain ⟨w, y, -, -, rfl⟩ := Graph.assign_eq_ok h
  exact Graph.arena_stamp g w

namespace World

/-- What the root of a new path carries. -/
def cargo (w : World) (x : NodeRef) (values : List (String × Value)) : Option (NodeRef × List (String × Value)) :=
  if (w.stampOutputs x.graph values).1.isEmpty then none else some (x, w.payload x values)

/-- A world in which the root of a new path is there, but has not committed yet. -/
def rooted (w : World) (i : Nat) (x : NodeRef) (values : List (String × Value)) : World :=
  (w.stampOutputs x.graph values).2.modifyEngine i fun e => { e with fibers := e.fibers.push { entry := w.cargo x values } }

/-- What cannot be written is carried. -/
theorem cargo_of_not_accepts {w : World} {x : NodeRef} {values : List (String × Value)}
    (h : ¬ (w.node x).Accepts (w.payload x values)) : w.cargo x values = some (x, w.payload x values) := by
  rw [cargo, if_neg]
  intro hnone
  rw [payload, List.isEmpty_iff.1 hnone] at h
  exact h fun p hp => absurd hp List.not_mem_nil

theorem begin_open {w : World} {i : Nat} (hopen : (w.engine i).isDisposed = false) (x : NodeRef) (output : String)
    (l : Option Listener) (values : List (String × Value)) : w.begin i x output l values =
      match (w.rooted i x values).commitFiber i (w.engine i).fibers.size x output l with
      | (.error e, w) => w.report i e
      | (.ok _, v) => v.enqueue i (w.engine i).fibers.size := by
  have hsize : ((w.stampOutputs x.graph values).2.engine i).fibers.size = (w.engine i).fibers.size := by
    rw [engine_congr (engines_stampOutputs w x.graph values)]
  rw [begin, hopen, ← hsize]
  rfl

/-- A path starts with a root that commits. -/
theorem begin_eq {w : World} {i : Nat} (hopen : (w.engine i).isDisposed = false) (x : NodeRef) (output : String)
    (l : Option Listener) (values : List (String × Value)) : w.begin i x output l values =
      if (w.node x).isFlowOutput output then
        ((w.rooted i x values).modifyEngine i (·.commit (w.engine i).fibers.size x l (w.wiresAt x output))).enqueue i
          (w.engine i).fibers.size
      else (w.rooted i x values).report i (w.nodeFailure x (.notFlowOutput output)) := by
  have hnode : (w.rooted i x values).node x = w.node x := node_stampOutputs w x.graph values x
  have hsize : ((w.stampOutputs x.graph values).2.engine i).fibers.size = (w.engine i).fibers.size := by
    rw [engine_congr (engines_stampOutputs w x.graph values)]
  have hfresh : (((w.rooted i x values).engine i).fiber (w.engine i).fibers.size).committed = false := by
    rw [rooted, engine_modifyEngine, ← hsize]
    split
    · simp [Engine.fiber]
    · simp [Engine.fiber, show (default : Fiber).committed = false from rfl]
  rw [begin_open hopen, commitFiber, commitRefusal?, hfresh, hnode]
  have hfailure (reason : NodeReason) : (w.rooted i x values).nodeFailure x reason = w.nodeFailure x reason := by
    rw [nodeFailure, hnode, nodeFailure]
  cases hflow : (w.node x).isFlowOutput output with
  | true =>
    have hwires : (w.rooted i x values).wiresAt x output = w.wiresAt x output := by rw [wiresAt, hnode, wiresAt]
    simp [hwires]
  | false => simp [hfailure]

/-- What goes wrong where a path starts at an output of a node: the node has no such output, or nothing is behind it and what
comes with the path cannot be written. -/
inductive BeginFails (w : World) (i : Nat) (x : NodeRef) (output : String) (l : Option Listener)
    (values : List (String × Value)) : Failure → Prop where
  | refused : (w.engine i).isDisposed = false → (w.node x).isFlowOutput output = false →
      BeginFails w i x output l values (w.nodeFailure x (.notFlowOutput output))
  | payload {cause : Fault} : i < w.engines.size → (w.engine i).isDisposed = false →
      (w.node x).isFlowOutput output = true → l = none → w.wiresAt x output = [] → ¬ (w.node x).Accepts (w.payload x values) →
      BeginFails w i x output l values (w.nodeFailure x (.payload (.fault cause)))

/-- What goes wrong where an operation is completed: its node has no such output. -/
def CompleteFails (w : World) (i o : Nat) (output : Option String) (e : Failure) : Prop :=
  (w.engine i).isDisposed = false ∧ ((w.engine i).operation o).isAbandoned = false ∧
    ((w.strike i o).chooseOutput ((w.engine i).operation o).node output).2 = .error e

end World

namespace Engine

theorem card_commit (e : Engine) (f : Nat) (x : NodeRef) (l : Option Listener) (wires : List Wire) :
    (e.commit f x l wires).card = e.card ∧ (e.commit f x l wires).failures = e.failures := by
  rw [commit_frame]
  exact ⟨rfl, rfl⟩

theorem card_finish (e : Engine) (f : Nat) : (e.finish f).card = e.card ∧ (e.finish f).failures = e.failures := by
  rw [finish_frame]
  exact ⟨rfl, rfl⟩

/-- A root that has committed is over at once if nothing is behind the output and nobody listens. -/
theorem isComplete_onto_iff (x : NodeRef) (l : Option Listener) (wires : List Wire)
    (entry : Option (NodeRef × List (String × Value))) :
    (onto x l wires { entry := entry }).isComplete = true ↔ l = none ∧ wires = [] := by
  by_cases hw : wires = []
  · subst hw
    cases l with
    | none => simp [onto, Fiber.commit, Fiber.isComplete]
    | some y => simp [onto, Fiber.commit, Fiber.isComplete]
  · simp [isComplete_onto x l wires { entry := entry } rfl hw, hw]

end Engine

namespace World

namespace Reported

variable {es : List (Nat × Failure)} {u v w : World} {i : Nat}

theorem writeOutputs (w : World) (x : NodeRef) (values : List (String × Value)) :
    Reported [] w (w.writeOutputs x values).2 := by
  induction values generalizing w with
  | nil => exact refl w
  | cons p rest ih =>
    unfold World.writeOutputs
    split
    · rename_i n hn
      exact (modifyNode w x (Node.outline_write hn) (Node.error_write hn)).next (ih _)
    · exact refl w

/-- Writing what a trigger carries reports nothing. -/
theorem applyEntry (w : World) (i f : Nat) : Reported [] w (w.applyEntry i f).2 := by
  have hmarked : Reported [] w (w.modifyEngine i (·.modifyFiber f fun f => { f with isWritten := true })) :=
    modifyEngine w i (fun _ => rfl) fun _ => rfl
  unfold World.applyEntry
  dsimp only
  split
  · exact hmarked
  · rename_i x values _
    have hwritten := hmarked.next (writeOutputs _ x values)
    split
    · rename_i heq
      rw [heq] at hwritten
      exact hwritten
    · rename_i heq
      rw [heq] at hwritten
      exact hwritten

theorem commitFiber (w : World) (i f : Nat) (x : NodeRef) (output : String) (l : Option Listener) :
    Reported [] w (w.commitFiber i f x output l).2 := by
  unfold World.commitFiber
  split
  · exact refl w
  · exact modifyEngine w i (fun e => (e.card_commit f x l _).1) fun e => (e.card_commit f x l _).2

/-- A path that is over at once reports what goes wrong with its outputs. -/
theorem enqueue (w : World) (i f : Nat) :
    (∃ e v, ((w.engine i).fiber f).isComplete = true ∧ w.applyEntry i f = (.error e, v) ∧ Reported [(i, e)] w (w.enqueue i f)) ∨
      (((w.engine i).fiber f).isComplete = true → (w.applyEntry i f).1 = .ok ()) ∧ Reported [] w (w.enqueue i f) := by
  have happly := applyEntry w i f
  have hnotify (v : World) : Reported [] v (v.modifyEngine i Engine.notify) := modifyEngine v i (fun _ => rfl) fun _ => rfl
  unfold World.enqueue
  dsimp only
  split
  · rename_i hcomplete
    split
    · rename_i e v heq
      rw [heq] at happly
      exact .inl ⟨e, v, hcomplete, heq, happly.trans (report v i e)⟩
    · rename_i v heq
      rw [heq] at happly
      exact .inr ⟨fun _ => by rw [heq], happly.next (hnotify v)⟩
  · rename_i hopen
    refine .inr ⟨fun hcomplete => absurd hcomplete hopen, ?_⟩
    split
    · exact hnotify w
    · exact modifyEngine w i (fun _ => rfl) fun _ => rfl

theorem rooted (w : World) (i : Nat) (x : NodeRef) (values : List (String × Value)) : Reported [] w (w.rooted i x values) :=
  (stampOutputs w x.graph values).next (modifyEngine _ i (fun _ => rfl) fun _ => rfl)

end Reported

/-- Whether the root of a new path is over at once, and what it has to write then. -/
theorem root_of_begin {w : World} {i : Nat} (x : NodeRef) (output : String) (l : Option Listener)
    (values : List (String × Value)) {f : Fiber} (hf : f = (((w.rooted i x values).modifyEngine i
      (·.commit (w.engine i).fibers.size x l (w.wiresAt x output))).engine i).fiber (w.engine i).fibers.size) :
    if i < w.engines.size then
      (f.isComplete = true ↔ l = none ∧ w.wiresAt x output = []) ∧ (f.isComplete = true → f.due = w.cargo x values)
    else f.due = none := by
  split
  · rename_i hi
    have hlt (e : Engine) (f : Fiber) : e.fibers.size < ({ e with fibers := e.fibers.push f } : Engine).fibers.size := by simp
    have hroot : f = Engine.onto x l (w.wiresAt x output) { entry := w.cargo x values } := by
      rw [hf, rooted, modifyEngine_modifyEngine, engine_modifyEngine_self (by simpa using hi),
        engine_congr (engines_stampOutputs w x.graph values), Engine.fiber_commit (hlt ..), if_pos (hlt ..), if_pos rfl]
      simp [Engine.fiber]
    have hcomplete := Engine.isComplete_onto_iff x l (w.wiresAt x output) (w.cargo x values)
    rw [← hroot] at hcomplete
    refine ⟨hcomplete, fun hover => ?_⟩
    obtain ⟨rfl, hnone⟩ := hcomplete.1 hover
    rw [hroot, hnone]
    rfl
  · rename_i hi
    have hnone : (w.rooted i x values).engines.size = w.engines.size := (Reported.rooted w i x values).size
    rw [hf, modifyEngine_out (by rwa [hnone]), World.engine, Array.getElem?_eq_none (by omega)]
    rfl

/-- To start a path adds one failure to the record if it goes wrong, and none if it does not. -/
theorem reported_begin (w : World) (i : Nat) (x : NodeRef) (output : String) (l : Option Listener)
    (values : List (String × Value)) :
    (∃ e, w.BeginFails i x output l values e ∧ Reported [(i, e)] w (w.begin i x output l values)) ∨
      (∀ e, ¬ w.BeginFails i x output l values e) ∧ Reported [] w (w.begin i x output l values) := by
  cases hopen : (w.engine i).isDisposed with
  | true =>
    refine .inr ⟨fun e he => ?_, ?_⟩
    · cases he with
      | refused h => cases hopen.symm.trans h
      | payload _ h => cases hopen.symm.trans h
    · rw [begin, if_pos hopen]
      exact .refl w
  | false =>
    rw [begin_eq hopen]
    cases hflow : (w.node x).isFlowOutput output with
    | false => exact .inl ⟨_, .refused hopen hflow, (Reported.rooted w i x values).trans (.report _ i _)⟩
    | true =>
      rw [if_pos rfl]
      have hcommitted := (Reported.rooted w i x values).next (.modifyEngine _ i
        (g := (·.commit (w.engine i).fibers.size x l (w.wiresAt x output)))
        (fun e => (e.card_commit _ x l _).1) fun e => (e.card_commit _ x l _).2)
      have hnode : ((w.rooted i x values).modifyEngine i
          (·.commit (w.engine i).fibers.size x l (w.wiresAt x output))).node x = w.node x :=
        node_stampOutputs w x.graph values x
      have hroot := root_of_begin (w := w) (i := i) x output l values rfl
      generalize (w.rooted i x values).modifyEngine i (·.commit (w.engine i).fibers.size x l (w.wiresAt x output)) = v at *
      rcases Reported.enqueue v i (w.engine i).fibers.size with ⟨e, z, hover, happly, hreported⟩ | ⟨hfine, hreported⟩
      · obtain ⟨y, vs, cause, hy, rfl⟩ := payload_of_applyEntry happly
        split at hroot
        · rename_i hi
          have hbare := hroot.1.1 hover
          rw [hroot.2 hover, cargo] at hy
          split at hy
          · cases hy
          · rename_i hsome
            cases hy
            have hrefused := not_accepts_of_applyEntry happly (by rw [hroot.2 hover, cargo, if_neg hsome])
            have hfailure : v.nodeFailure x (.payload (.fault cause)) = w.nodeFailure x (.payload (.fault cause)) := by
              rw [nodeFailure, hnode, nodeFailure]
            rw [hfailure] at hreported
            rw [hnode] at hrefused
            exact .inl ⟨_, .payload hi hopen hflow hbare.1 hbare.2 hrefused, hcommitted.trans hreported⟩
        · cases hroot.symm.trans hy
      · refine .inr ⟨fun e he => ?_, hcommitted.next hreported⟩
        cases he with
        | refused _ h => cases hflow.symm.trans h
        | payload hi _ _ hl hw hrefused =>
          rw [if_pos hi] at hroot
          have hover := hroot.1.2 ⟨hl, hw⟩
          have hcarried := (hroot.2 hover).trans (cargo_of_not_accepts hrefused)
          have haccepts := (shows_applyEntry (Prod.ext (hfine hover) rfl) hcarried (Table.nodup_keys_ofList _)).2
          exact hrefused (hnode ▸ haccepts)

/-- Finding the output of an operation reports nothing. -/
theorem Reported.chooseOutput (w : World) (x : NodeRef) (output : Option String) :
    Reported [] w (w.chooseOutput x output).1 := by
  have hforget : Reported [] w (if output.isNone then w.modifyNode x fun n => { n with lastOutput := none } else w) := by
    split
    · exact .modifyNode w x rfl rfl
    · exact .refl w
  unfold World.chooseOutput
  dsimp only
  generalize (if output.isNone then w.modifyNode x fun n => { n with lastOutput := none } else w) = v at hforget ⊢
  split
  · exact hforget
  · split
    · exact hforget.next (.modifyNode v x rfl rfl)
    · exact hforget

/-- A path without values goes on at any output that its node has. -/
theorem not_beginFails_bare {w : World} {i : Nat} {x : NodeRef} {output : String} (hflow : (w.node x).isFlowOutput output = true)
    (l : Option Listener) (e : Failure) : ¬ w.BeginFails i x output l [] e := by
  intro h
  cases h with
  | refused _ hrefused => cases hflow.symm.trans hrefused
  | payload _ _ _ _ _ hrefused => exact hrefused fun p hp => absurd hp List.not_mem_nil

/-- So does the completion of an operation. -/
theorem reported_complete (w : World) (i o : Nat) (output : Option String) :
    (∃ e, w.CompleteFails i o output e ∧ Reported [(i, e)] w (w.complete i o output)) ∨
      (∀ e, ¬ w.CompleteFails i o output e) ∧ Reported [] w (w.complete i o output) := by
  have hstruck : Reported [] w (w.strike i o) := .modifyEngine w i (fun _ => rfl) fun _ => rfl
  obtain ⟨marks, happlied⟩ := applied_complete w i o output
  generalize w.complete i o output = v at happlied
  have hchosen := hstruck.next (.chooseOutput _ ((w.engine i).operation o).node output)
  have hfits := chosen_or_refused (w.strike i o) ((w.engine i).operation o).node output
  cases happlied with
  | ignored hclosed =>
    refine .inr ⟨fun e he => ?_, hstruck⟩
    rw [he.1, he.2.1] at hclosed
    cases hclosed
  | refused hx hopen hrefused =>
    subst hx
    rw [Bool.or_eq_false_iff] at hopen
    rw [hrefused] at hchosen
    exact .inl ⟨_, ⟨hopen.1, hopen.2, by rw [hrefused]⟩, hchosen.trans (.report _ i _)⟩
  | continued hx hopen hsettled =>
    subst hx
    rw [hsettled] at hchosen hfits
    refine .inr ⟨fun e he => ?_, ?_⟩
    · rw [CompleteFails, hsettled] at he
      cases he.2.2
    · rcases reported_begin _ i ((w.engine i).operation o).node _ none [] with ⟨e, he, -⟩ | ⟨-, hbegun⟩
      · exact absurd he (not_beginFails_bare hfits none e)
      · exact (hchosen.next hbegun).next (.tell _ i fun _ => rfl)

/-- Whoever settles on an output is refused one that the node does not have, or the first one where there is none. -/
theorem refusal_of_chooseOutput {w : World} {x : NodeRef} {output : Option String} {e : Failure}
    (h : (w.chooseOutput x output).2 = .error e) : (∃ name, e = w.nodeFailure x (.notFlowOutput name)) ∨
      e = w.nodeFailure x .noFlowOutput ∧ (w.node x).flowOutputs = [] := by
  have hforget : Outlined w (if output.isNone then w.modifyNode x fun n => { n with lastOutput := none } else w) := by
    split
    · exact (show Outlined w w from rfl).modifyNode x rfl
    · rfl
  unfold chooseOutput at h
  dsimp only at h
  generalize (if output.isNone then w.modifyNode x fun n => { n with lastOutput := none } else w) = v at h hforget
  split at h
  · rename_i e' hchosen
    cases h
    split at hchosen
    · cases hchosen
    · simp only [outputOf] at hchosen
      split at hchosen
      · cases hchosen
      · split at hchosen
        · cases hchosen
        · rename_i hnone
          cases hchosen
          exact .inr ⟨hforget.nodeFailure x _, (Outlined.flowOutputs_eq_nil hforget x).1 hnone⟩
  · split at h
    · cases h
    · cases h
      exact .inl ⟨_, hforget.nodeFailure x _⟩

end World

/-- The operations of the engine are of nodes with the property, those that are posted as complete included. -/
structure Engine.Manned (K : NodeRef → Prop) (e : Engine) : Prop where
  operations : ∀ op ∈ e.operations, K op.node
  posts : ∀ o output, Post.complete o output ∈ e.inbox → K (e.operation o).node

/-- What may go into the record besides what goes wrong in steps, from `v` on, where operations are of nodes with the
property. -/
structure Failure.Tolerated (K : NodeRef → Prop) (C : Failure → Prop) (v : World) : Prop where
  started : ∀ x b, (v.node x).definition.behaviour = .async b → K x
  disposal : ∀ id typeName cause, cause.isUttered = true → C (.node id typeName (.disposal cause))
  refused : ∀ x output, C (v.nodeFailure x (.notFlowOutput output))
  payload : ∀ x cause, C (v.nodeFailure x (.payload (.fault cause)))
  endless : ∀ x, K x → (v.node x).flowOutputs = [] → C (v.nodeFailure x .noFlowOutput)

/-- From `v` on to `w` only such failures were added to the record. -/
structure World.Recorded (K : NodeRef → Prop) (C : Failure → Prop) (v w : World) : Prop where
  reported : ∃ es, Reported es v w ∧ ∀ p ∈ es, C p.2
  manned : ∀ j, (w.engine j).Manned K

namespace Engine.Manned

variable {K : NodeRef → Prop} {e e' : Engine}

theorem congr (h : e.Manned K) (ho : e'.operations = e.operations) (hi : e'.inbox = e.inbox) : e'.Manned K := by
  refine ⟨by rw [ho]; exact h.operations, fun o output ho' => ?_⟩
  rw [Engine.operation, ho]
  exact h.posts o output (hi ▸ ho')

theorem operation (h : e.Manned K) {o : Nat} (ho : o < e.operations.size) : K (e.operation o).node := by
  rw [Engine.operation, Array.getElem?_eq_getElem ho]
  exact h.operations _ (Array.getElem_mem ho)

theorem modifyOperation (h : e.Manned K) (o : Nat) {g : Operation → Operation} (hg : ∀ op, (g op).node = op.node) :
    (e.modifyOperation o g).Manned K := by
  refine ⟨forall_modifyOperation h.operations fun op hop => (hg op).symm ▸ hop, fun k output hk => ?_⟩
  have hold := h.posts k output hk
  rw [operation_modifyOperation]
  split
  · rw [hg]
    exact hold
  · exact hold

theorem register (h : e.Manned K) {x : NodeRef} (hx : K x) (input : String) (pending : List Nat) :
    ({ e with operations := e.operations.push { node := x, input := input }, pending := pending } : Engine).Manned K := by
  refine ⟨fun op hop => ?_, fun o output ho => ?_⟩
  · rcases Array.mem_push.1 hop with hop | rfl
    · exact h.operations op hop
    · exact hx
  · rw [operation_push e _ { node := x, input := input } rfl]
    split
    · exact hx
    · exact h.posts o output ho

end Engine.Manned

namespace World

variable {K : NodeRef → Prop} {C : Failure → Prop} {u v w : World} {j o : Nat}

theorem manned_modifyEngine (h : ∀ k, (w.engine k).Manned K) {g : Engine → Engine}
    (hg : (w.engine j).Manned K → (g (w.engine j)).Manned K) (k : Nat) : ((w.modifyEngine j g).engine k).Manned K := by
  rw [engine_modifyEngine]
  split
  · rename_i hj
    exact hj.1 ▸ hg (h j)
  · exact h k

namespace Recorded

theorem refl (hw : ∀ j, (w.engine j).Manned K) : Recorded K C w w := ⟨⟨[], .refl w, fun _ hp => absurd hp List.not_mem_nil⟩, hw⟩

theorem outlined (h : Recorded K C v w) : Outlined v w :=
  have ⟨_, hes, _⟩ := h.reported
  hes.outlined

theorem add (h : Recorded K C v w) {es : List (Nat × Failure)} (hes : Reported es w u) (hC : ∀ p ∈ es, C p.2)
    (hu : ∀ j, (u.engine j).Manned K) : Recorded K C v u := by
  obtain ⟨es', hes', hC'⟩ := h.reported
  exact ⟨⟨es ++ es', hes'.trans hes, fun p hp => (List.mem_append.1 hp).elim (hC p) (hC' p)⟩, hu⟩

/-- A change that leaves the record and the engines' operations alone. -/
theorem next (h : Recorded K C v w) (hu : Reported [] w u) (he : ∀ j, (u.engine j).operations = (w.engine j).operations)
    (hi : ∀ j, (u.engine j).inbox = (w.engine j).inbox) : Recorded K C v u :=
  h.add hu (fun _ hp => absurd hp List.not_mem_nil) fun j => (h.manned j).congr (he j) (hi j)

theorem frame (h : Recorded K C v w) (hu : Reported [] w u) (he : u.engines = w.engines) : Recorded K C v u :=
  h.next hu (fun j => by rw [engine_congr he]) fun j => by rw [engine_congr he]

theorem of_local (h : Recorded K C v w) {es : List (Nat × Failure)} (hes : Reported es w u) (hC : ∀ p ∈ es, C p.2)
    (hl : Local j w u) : Recorded K C v u :=
  h.add hes hC fun k => (h.manned k).congr (hl.operations k) (congrArg Engine.inbox (hl.face k) :)

theorem modifyEngine (h : Recorded K C v w) (j : Nat) {g : Engine → Engine} (hc : ∀ e, (g e).card = e.card)
    (hf : ∀ e, (g e).failures = e.failures) (hm : (w.engine j).Manned K → (g (w.engine j)).Manned K) :
    Recorded K C v (w.modifyEngine j g) :=
  h.add (.modifyEngine w j hc hf) (fun _ hp => absurd hp List.not_mem_nil) fun k => manned_modifyEngine h.manned hm k

theorem arrange (h : Recorded K C v w) (j : Nat) {g : Engine → Engine} (hc : ∀ e, (g e).card = e.card)
    (hf : ∀ e, (g e).failures = e.failures) (ho : ∀ e, (g e).operations = e.operations) (hi : ∀ e, (g e).inbox = e.inbox) :
    Recorded K C v (w.modifyEngine j g) :=
  h.modifyEngine j hc hf fun hm => hm.congr (ho _) (hi _)

theorem tell (h : Recorded K C v w) (j : Nat) {e : String → Event} (he : ∀ name, (e name).isFailed = false) :
    Recorded K C v (w.tell j e) := h.frame (.tell w j he) (engines_tell w j e)

theorem report (h : Recorded K C v w) (j : Nat) {e : Failure} (he : C e) : Recorded K C v (w.report j e) :=
  h.of_local (.report w j e) (fun _ hp => List.mem_singleton.1 hp ▸ he) (Local.report w j e)

theorem endFiber (h : Recorded K C v w) (j f : Nat) (x : NodeRef) : Recorded K C v (w.endFiber j f x).2 := by
  unfold World.endFiber
  split
  · exact h
  · exact h.arrange j (fun _ => rfl) (fun _ => rfl) (fun _ => rfl) fun _ => rfl

variable (hC : Failure.Tolerated K C v)

include hC

theorem begin (h : Recorded K C v w) (j : Nat) (x : NodeRef) (output : String) (l : Option Listener)
    (values : List (String × Value)) : Recorded K C v (w.begin j x output l values) := by
  rcases reported_begin w j x output l values with ⟨e, he, hreported⟩ | ⟨-, hreported⟩
  · refine h.of_local hreported (fun p hp => ?_) (Local.begin w j x output l values)
    rw [List.mem_singleton.1 hp]
    cases he with
    | refused => exact (h.outlined.nodeFailure x _).symm ▸ hC.refused x _
    | payload => exact (h.outlined.nodeFailure x _).symm ▸ hC.payload x _
  · exact h.of_local hreported (fun _ hp => absurd hp List.not_mem_nil) (Local.begin w j x output l values)

/-- An operation that is completed reports in the name of its node. -/
theorem complete (h : Recorded K C v w) {j o : Nat} (ho : K ((w.engine j).operation o).node) (output : Option String) :
    Recorded K C v (w.complete j o output) := by
  have hmanned : ∀ k, ((w.complete j o output).engine k).Manned K := by
    refine complete_upholds (P := fun w => ∀ k, (w.engine k).Manned K) ?_ ?_ ?_ ?_ ?_ h.manned
    · exact fun w h => manned_modifyEngine h fun hm => hm.congr rfl rfl
    · exact fun w x h k => by rw [engine_congr (engines_chooseOutput w x output)]; exact h k
    · exact fun w e h k => (h k).congr ((Local.report w j e).operations k) (congrArg Engine.inbox ((Local.report w j e).face k) :)
    · exact fun w x name h k => (h k).congr ((Local.begin w j x name none []).operations k)
        (congrArg Engine.inbox ((Local.begin w j x name none []).face k) :)
    · exact fun w e h k => by rw [engine_congr (engines_tell w j e)]; exact h k
  rcases reported_complete w j o output with ⟨e, he, hreported⟩ | ⟨-, hreported⟩
  · refine h.add hreported (fun p hp => ?_) hmanned
    rw [List.mem_singleton.1 hp]
    have hnode : (w.strike j o).nodeFailure = w.nodeFailure := rfl
    rcases refusal_of_chooseOutput he.2.2 with ⟨name, hname⟩ | ⟨hname, hnone⟩
    · rw [hname, hnode, h.outlined.nodeFailure]
      exact hC.refused _ name
    · rw [hname, hnode, h.outlined.nodeFailure]
      exact hC.endless _ ho ((Outlined.flowOutputs_eq_nil h.outlined _).1 hnone)
  · exact h.add hreported (fun _ hp => absurd hp List.not_mem_nil) hmanned

/-- So does one that is finished. -/
theorem finishOperation (h : Recorded K C v w) (j o : Nat) (output : Option String) (fromOutside : Bool) :
    Recorded K C v (w.finishOperation j o output fromOutside) := by
  unfold World.finishOperation
  dsimp only
  split
  · exact h
  · rename_i hopen
    simp only [Bool.or_eq_true, decide_eq_true_eq, not_or, Nat.not_le] at hopen
    have hmarked : Recorded K C v (w.modifyEngine j (·.modifyOperation o fun op => { op with isFinished := true })) :=
      h.modifyEngine j (fun _ => rfl) (fun _ => rfl) fun hm => hm.modifyOperation o fun _ => rfl
    have hnode :
        K (((w.modifyEngine j (·.modifyOperation o fun op => { op with isFinished := true })).engine j).operation o).node := by
      refine (hmarked.manned j).operation ?_
      rw [engine_modifyEngine]
      split
      · simpa [Engine.modifyOperation] using hopen.1.1
      · exact hopen.1.1
    split
    · refine hmarked.modifyEngine j (fun _ => rfl) (fun _ => rfl) fun hm => ⟨hm.operations, fun k out hk => ?_⟩
      rcases List.mem_append.1 hk with hk | hk
      · exact hm.posts k out hk
      · cases List.mem_singleton.1 hk
        exact hnode
    · exact hmarked.complete hC hnode output

/-- What other threads have posted reports in the names of the nodes of the operations. -/
theorem drainInbox (h : Recorded K C v w) (j : Nat) : Recorded K C v (w.drainInbox j) := by
  have hcleared : Recorded K C v (w.modifyEngine j fun e => { e with inbox := [] }) :=
    h.modifyEngine j (fun _ => rfl) (fun _ => rfl) fun hm => ⟨hm.operations, fun _ _ hp => absurd hp List.not_mem_nil⟩
  have hsame : ((w.modifyEngine j fun e => { e with inbox := [] }).engine j).operations = (w.engine j).operations := by
    rw [engine_modifyEngine]
    split <;> rfl
  refine (drainInbox_upholds (P := fun z => Recorded K C v z ∧ (z.engine j).operations = (w.engine j).operations)
    ⟨hcleared, hsame⟩ fun p hp z hz => ?_).1
  cases p with
  | complete o output =>
    have hnode := (h.manned j).posts o output hp
    rw [Engine.operation, ← hz.2] at hnode
    exact ⟨hz.1.complete hC hnode output, (operations_complete ..).trans hz.2⟩
  | begin x output l values =>
    exact ⟨hz.1.begin hC j x output l values, ((Local.begin z j x output l values).operations j).trans hz.2⟩

/-- Whatever is done in the name of nodes only adds to the record what is tolerated. -/
theorem closed (A : Context → Prop) : Closed (fun w _ => Recorded K C v w) A where
  stamp g x w _ h := h.frame (.stamp w g x) (engines_stamp w g x)
  write {w _} h _ _ _ _ _ hn := h.frame (.modifyNode w _ (Node.outline_write hn) (Node.error_write hn)) rfl
  setState _ _ w _ h := h.frame (.modifyNode w _ rfl rfl) rfl
  setInput x place v w _ h := h.frame (.modifyNode w x (Node.outline_setInput _ place v) rfl) rfl
  assign {w _} h _ _ _ _ _ hg := h.frame (.modifyGraph w _ (Outlined.outline_assign hg) (Graph.arena_assign hg)) rfl
  record e he w _ h := h.frame (.record w he) rfl
  tell j _ he _ _ h := h.tell j he
  hold _ _ _ h := h.frame (.frame rfl rfl rfl) rfl
  schedule _ _ _ h := h.frame (.frame rfl rfl rfl) rfl
  store _ _ _ h := h.frame (.frame rfl rfl rfl) rfl
  subscribe _ _ _ _ h := h.frame (.frame rfl rfl rfl) rfl
  unsubscribe _ _ _ h := h.frame (.frame rfl rfl rfl) rfl
  enlist _ _ _ _ _ h := h.frame (.frame rfl rfl rfl) rfl
  unlist _ _ _ h := h.frame (.frame rfl rfl rfl) rfl
  report _ id typeName cause hcause _ _ h := h.report _ (hC.disposal id typeName cause hcause)
  begin j x output l _ values _ _ _ h := h.begin hC j x output l values
  commit {x j f input} _ output l _ w _ h := h.of_local (.commitFiber w j f x output l)
    (fun _ hp => absurd hp List.not_mem_nil) (Local.commitFiber w j f x output l)
  stop _ _ _ h := h.endFiber _ _ _
  register h j _ x hx input := by
    obtain ⟨b, hb⟩ := hx
    rw [h.outlined.definition] at hb
    exact h.modifyEngine j (fun _ => rfl) (fun _ => rfl) fun hm => hm.register (hC.started x b hb) input _
  enrol {j o d} _ _ _ h := h.modifyEngine j (fun _ => rfl) (fun _ => rfl) fun hm => hm.modifyOperation o fun _ => rfl
  finish j o output _ _ h := h.finishOperation hC j o output false
  dismiss {w _} h j o _ _ := by
    have hstruck : Recorded K C v (w.strike j o) := h.arrange j (fun _ => rfl) (fun _ => rfl) (fun _ => rfl) fun _ => rfl
    refine relinquish_upholds (hstruck.modifyEngine j (fun _ => rfl) (fun _ => rfl) fun hm => ?_) hstruck
    exact hm.modifyOperation o fun _ => rfl
  close h j _ := h.arrange j (fun _ => rfl) (fun _ => rfl) (fun _ => rfl) fun _ => rfl
  relinquish h j _ _ o :=
    relinquish_upholds (h.modifyEngine j (fun _ => rfl) (fun _ => rfl) fun hm => hm.modifyOperation o fun _ => rfl) h
  release h j _ _ := h.arrange j (fun _ => rfl) (fun _ => rfl) (fun _ => rfl) fun _ => rfl
  clear h j _ _ := h.modifyEngine j (fun _ => rfl) (fun _ => rfl) fun hm => ⟨hm.operations, fun _ _ hp => absurd hp List.not_mem_nil⟩

end Recorded

end World

end FlowGraph
