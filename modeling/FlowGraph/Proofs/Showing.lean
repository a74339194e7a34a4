import FlowGraph.Proofs.Acts
import FlowGraph.Proofs.Payloads
import FlowGraph.Proofs.Wiring

/-!
What a node shows at its data outputs while the triggers of its paths take turns. The outputs of an event node are
written for its fibers and by nobody else, so what they show is what the fiber at work carries, whatever was triggered
before or after.
-/
namespace FlowGraph

open World Play

/-- The node has a data output for each of the values. -/
def Node.Accepts (n : Node) (values : List (String × Value)) : Prop :=
  ∀ p ∈ values, ∃ s, n.output? p.1 = some s ∧ s.isFlow = false

/-- The data outputs of those names hold those values. -/
def Node.Shows (n : Node) (values : List (String × Value)) : Prop :=
  ∀ p ∈ values, (n.output? p.1).map (·.value) = some p.2

namespace Node

variable {n m : Node} {name : String} {v : Value} {values : List (String × Value)}

/-- What is written at one output is found there, and the others stay as they are. -/
theorem output?_write (h : n.write name v = .ok m) : ∃ s, n.output? name = some s ∧ s.isFlow = false ∧
    ∀ other, m.output? other = if other = name then some { s with value := v } else n.output? other := by
  unfold write at h
  split at h
  · rename_i i s hi hs
    split at h
    · cases h
    · rename_i hflow
      cases h
      refine ⟨s, hs, Bool.eq_false_iff.2 hflow, fun other => ?_⟩
      have hput := find?_put hi v other
      rw [show n.outputs.find? (·.name = name) = some s from hs] at hput
      exact hput
  · cases h

/-- Only an output that is missing or is no data output cannot be written. -/
theorem not_accepts_of_write {e : Fault} (h : n.write name v = .error e) {s : Socket} (hs : n.output? name = some s) :
    s.isFlow = true := by
  unfold write at h
  split at h
  · rename_i s' _ hs'
    cases hs.symm.trans hs'
    split at h
    · assumption
    · cases h
  · rename_i hnone
    cases hi : place? name n.outputs with
    | some i => exact (hnone i s hi hs).elim
    | none =>
      have hfind : n.outputs.find? (·.name = name) = some s := hs
      rw [find?_eq_place?, hi] at hfind
      cases hfind

theorem Accepts.congr (h : n.Accepts values) (hm : m.outline = n.outline) : m.Accepts values := by
  intro p hp
  obtain ⟨s, hs, hflow⟩ := h p hp
  have houtputs : m.outputs.map Socket.hollow = n.outputs.map Socket.hollow := (congrArg Node.outputs hm :)
  have hfind (n : Node) : (n.output? p.1).map Socket.hollow = (n.outputs.map Socket.hollow).find? (·.name = p.1) := by
    rw [List.find?_map]
    rfl
  have hsame := hfind m
  rw [houtputs, ← hfind n, hs, Option.map_some, Option.map_eq_some_iff] at hsame
  obtain ⟨t, ht, heq⟩ := hsame
  refine ⟨t, ht, ?_⟩
  rw [← hflow]
  exact (congrArg Socket.isFlow heq :)

theorem Shows.congr (h : n.Shows values) (hm : m.outputs = n.outputs) : m.Shows values := by
  intro p hp
  rw [output?, hm]
  exact h p hp

end Node

namespace World

variable {w v : World} {x : NodeRef} {values : List (String × Value)}

/-- A value that can be written at a node is written there. -/
theorem node_write {name : String} {value : Value} {m : Node} (h : (w.node x).write name value = .ok m) :
    (w.modifyNode x fun _ => m).node x = m := by
  rw [node_modifyNode]
  cases hn : (w.graph x.graph).nodeAt? x.serial with
  | some n => simp
  | none =>
    obtain ⟨s, hs, -⟩ := Node.output?_write h
    have hdefault : w.node x = default := by simp [World.node, hn]
    rw [hdefault] at hs
    cases hs

/-- Values of different names that are written one after the other are all shown in the end. -/
theorem shows_writeOutputs (hdistinct : (values.map (·.1)).Nodup) (h : w.writeOutputs x values = (.ok (), v)) :
    (v.node x).Shows values ∧ (w.node x).Accepts values ∧
      ∀ other, other ∉ values.map (·.1) → (v.node x).output? other = (w.node x).output? other := by
  induction values generalizing w with
  | nil =>
    cases h
    exact ⟨fun _ hp => absurd hp List.not_mem_nil, fun _ hp => absurd hp List.not_mem_nil, fun _ _ => rfl⟩
  | cons p rest ih =>
    obtain ⟨name, value⟩ := p
    obtain ⟨hnew, hdistinct⟩ := List.nodup_cons.1 hdistinct
    unfold writeOutputs at h
    split at h
    · rename_i m hm
      obtain ⟨hshows, haccepts, hothers⟩ := ih hdistinct h
      obtain ⟨s, hs, hflow, hout⟩ := Node.output?_write hm
      rw [node_write hm] at haccepts hothers
      refine ⟨?_, ?_, ?_⟩
      · intro q hq
        rcases List.mem_cons.1 hq with rfl | hq
        · rw [hothers _ hnew, hout, if_pos rfl]
          rfl
        · exact hshows q hq
      · intro q hq
        rcases List.mem_cons.1 hq with rfl | hq
        · exact ⟨s, hs, hflow⟩
        · obtain ⟨t, ht, htflow⟩ := haccepts q hq
          rw [hout] at ht
          split at ht
          · rename_i heq
            rw [heq]
            exact ⟨s, hs, hflow⟩
          · exact ⟨t, ht, htflow⟩
      · intro other hother
        obtain ⟨hne, hrest⟩ := not_or.1 (mt List.mem_cons.2 hother)
        rw [hothers other hrest, hout, if_neg hne]
    · cases h

/-- The values that a node accepts can be written. -/
theorem not_accepts_of_writeOutputs {e : Fault} (h : w.writeOutputs x values = (.error e, v)) :
    ¬ (w.node x).Accepts values := by
  intro haccepts
  induction values generalizing w with
  | nil => cases h
  | cons p rest ih =>
    obtain ⟨name, value⟩ := p
    unfold writeOutputs at h
    split at h
    · rename_i m hm
      refine ih h ?_
      rw [node_write hm]
      exact Node.Accepts.congr (fun q hq => haccepts q (List.mem_cons_of_mem _ hq)) (Node.outline_write hm)
    · rename_i e hm
      obtain ⟨s, hs, hflow⟩ := haccepts (name, value) List.mem_cons_self
      rw [Node.not_accepts_of_write hm hs] at hflow
      cases hflow

section Outputs

theorem outputs_of_graphs (h : v.graphs = w.graphs) (x : NodeRef) : (v.node x).outputs = (w.node x).outputs := by
  rw [World.node, World.graph, h]
  rfl

theorem outputs_modifyNode (w : World) (y : NodeRef) {f : Node → Node} (hf : ∀ n, (f n).outputs = n.outputs) (x : NodeRef) :
    ((w.modifyNode y f).node x).outputs = (w.node x).outputs := by
  rw [node_modifyNode]
  split
  · exact hf _
  · rfl

theorem outputs_modifyNode_of_ne (w : World) {y : NodeRef} (hy : y ≠ x) (f : Node → Node) :
    ((w.modifyNode y f).node x).outputs = (w.node x).outputs := by
  rw [node_modifyNode, if_neg fun h => hy h.1]

theorem outputs_report (w : World) (j : Nat) (e : Failure) (x : NodeRef) :
    ((w.report j e).node x).outputs = (w.node x).outputs := by
  refine report_upholds (P := fun v => (v.node x).outputs = (w.node x).outputs) ?_ ?_ rfl
  · intro y h
    refine outputs_modifyNode w y ?_ x
    exact fun _ => rfl
  · exact fun u e h => h

/-- Finding the output of an operation writes nothing. -/
theorem outputs_chooseOutput (w : World) (y : NodeRef) (output : Option String) (x : NodeRef) :
    ((w.chooseOutput y output).1.node x).outputs = (w.node x).outputs := by
  have hforget : ((if output.isNone then w.modifyNode y fun n => { n with lastOutput := none } else w).node x).outputs =
      (w.node x).outputs := by
    split
    · refine outputs_modifyNode w y ?_ x
      exact fun _ => rfl
    · rfl
  unfold chooseOutput
  simp only
  generalize (if output.isNone then w.modifyNode y fun n => { n with lastOutput := none } else w) = u at hforget ⊢
  split
  · exact hforget
  · split
    · refine (outputs_modifyNode u y ?_ x).trans hforget
      exact fun _ => rfl
    · exact hforget

theorem outputs_writeOutputs (w : World) {y : NodeRef} (hy : y ≠ x) (values : List (String × Value)) :
    ((w.writeOutputs y values).2.node x).outputs = (w.node x).outputs := by
  induction values generalizing w with
  | nil => rfl
  | cons p rest ih =>
    unfold writeOutputs
    split
    · exact (ih _).trans (outputs_modifyNode_of_ne w hy _)
    · rfl

/-- Only a fiber that has something for the node writes there. -/
theorem outputs_applyEntry {j f : Nat} (h : ∀ values, ((w.engine j).fiber f).due ≠ some (x, values)) :
    ((w.applyEntry j f).2.node x).outputs = (w.node x).outputs := by
  unfold applyEntry
  dsimp only
  split
  · rfl
  · rename_i y values hdue
    have hy : y ≠ x := by
      rintro rfl
      exact h values hdue
    have hwrite := outputs_writeOutputs (w.modifyEngine j (·.modifyFiber f fun y => { y with isWritten := true })) hy values
    split
    · rename_i heq
      rw [heq] at hwrite
      exact hwrite
    · rename_i heq
      rw [heq] at hwrite
      exact hwrite

theorem due_of_entry {f : Fiber} {y : NodeRef} {values : List (String × Value)} (h : f.due = some (y, values)) :
    f.entry = some (y, values) ∧ f.isWritten = false := by
  refine ⟨Fiber.entry_of_due h, Bool.eq_false_iff.2 fun hw => ?_⟩
  rw [Fiber.due, if_pos hw] at h
  cases h

theorem due_eq_some {f : Fiber} {values : List (String × Value)} :
    f.due = some (x, values) ↔ f.Carries x values ∧ f.isWritten = false := by
  refine ⟨fun h => due_of_entry h, fun ⟨hc, hw⟩ => ?_⟩
  rw [Fiber.due, if_neg (by simp [hw])]
  exact hc

/-- What a fiber has for the node is shown there once it is written. -/
theorem shows_applyEntry {j f : Nat} (h : w.applyEntry j f = (.ok (), v)) (hdue : ((w.engine j).fiber f).due = some (x, values))
    (hdistinct : (values.map (·.1)).Nodup) : (v.node x).Shows values ∧ (w.node x).Accepts values := by
  unfold applyEntry at h
  dsimp only at h
  rw [hdue] at h
  dsimp only at h
  split at h
  · rename_i heq
    cases h
    obtain ⟨hshows, haccepts, -⟩ := shows_writeOutputs hdistinct heq
    exact ⟨hshows, haccepts⟩
  · cases h

theorem not_accepts_of_applyEntry {j f : Nat} {e : Failure} (h : w.applyEntry j f = (.error e, v))
    (hdue : ((w.engine j).fiber f).due = some (x, values)) : ¬ (w.node x).Accepts values := by
  unfold applyEntry at h
  dsimp only at h
  rw [hdue] at h
  dsimp only at h
  split at h
  · cases h
  · rename_i heq
    exact fun haccepts => not_accepts_of_writeOutputs heq haccepts

/-- Who is put in the queue writes nothing to a node that it has nothing due for. -/
theorem outputs_enqueue {j f : Nat}
    (h : ((w.engine j).fiber f).isComplete = true → ∀ values, ((w.engine j).fiber f).due ≠ some (x, values)) :
    ((w.enqueue j f).node x).outputs = (w.node x).outputs := by
  unfold enqueue
  dsimp only
  split
  · rename_i hcomplete
    have happly := outputs_applyEntry (h hcomplete)
    split
    · rename_i heq
      rw [heq] at happly
      rw [outputs_report]
      exact happly
    · rename_i heq
      rw [heq] at happly
      exact happly
  · split
    · rfl
    · rfl

/-- A path that begins writes nothing to the node yet, unless it begins there with nothing behind it. -/
theorem outputs_begin (w : World) {j : Nat} {y : NodeRef} {output : String} {l : Option Listener}
    {values : List (String × Value)} (h : y = x → values = [] ∨ w.wiresAt x output ≠ [] ∨ ¬ j < w.engines.size) :
    ((w.begin j y output l values).node x).outputs = (w.node x).outputs := by
  have hwires : (w.stampOutputs y.graph values).2.wiresAt y output = w.wiresAt y output := by
    rw [wiresAt, node_stampOutputs, wiresAt]
  have hsize : (w.stampOutputs y.graph values).2.engines.size = w.engines.size := by rw [engines_stampOutputs]
  have hnode := congrArg Node.outputs (node_stampOutputs w y.graph values x)
  have hnil : values = [] → (w.stampOutputs y.graph values).1 = [] := by
    rintro rfl
    rfl
  unfold begin
  split
  · rfl
  · dsimp only
    generalize (w.stampOutputs y.graph values).1 = stamped at hnil ⊢
    generalize (w.stampOutputs y.graph values).2 = u at hwires hsize hnode ⊢
    generalize hentry : (if stamped.isEmpty then none else some (y, (Table.ofList stamped).entries)) = entry
    unfold commitFiber
    split
    · rename_i heq
      split at heq
      · cases heq
        rw [outputs_report]
        exact hnode
      · cases heq
    · rename_i heq
      split at heq
      · cases heq
      · cases heq
        refine (outputs_enqueue fun hcomplete vs hdue => ?_).trans hnode
        obtain ⟨hcarries, -⟩ := due_of_entry hdue
        rw [modifyEngine_modifyEngine] at hcarries hcomplete
        by_cases hj : j < w.engines.size
        · have hlt : (u.engine j).fibers.size < ((u.engine j).fibers.push { entry := entry }).size := by simp
          rw [engine_modifyEngine_self (hsize ▸ hj), Engine.fiber_commit hlt, if_pos hlt, if_pos rfl] at hcarries hcomplete
          have hroot : ({ u.engine j with fibers := (u.engine j).fibers.push { entry := entry } } : Engine).fiber
              (u.engine j).fibers.size = { entry := entry } := by simp [Engine.fiber]
          rw [hroot] at hcarries hcomplete
          have hcarries : entry = some (x, vs) := (Engine.onto_entry ..).symm.trans hcarries
          rw [← hentry] at hcarries
          split at hcarries
          · cases hcarries
          · rename_i hsome
            cases hcarries
            rcases h rfl with hnone | hbehind | hout
            · rw [hnil hnone] at hsome
              exact hsome rfl
            · rw [Engine.isComplete_onto _ _ _ _ rfl (hwires ▸ hbehind)] at hcomplete
              cases hcomplete
            · exact hout hj
        · rw [modifyEngine_out (by rwa [hsize])] at hcarries
          rw [World.engine, Array.getElem?_eq_none (by omega)] at hcarries
          cases hcarries

end Outputs

end World

end FlowGraph
