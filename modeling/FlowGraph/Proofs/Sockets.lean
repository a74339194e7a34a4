import FlowGraph.Proofs.Pulling

/-!
What the sockets of one graph hold. Resolving inputs changes nothing else, but for the labels that new NaNs get, the
journal and those who hear of it: that is what it means for worlds to be `Around` one another.
-/
namespace FlowGraph

open World Play

def Node.emptied (n : Node) : Node :=
  { n with inputs := n.inputs.map Socket.hollow, outputs := n.outputs.map Socket.hollow }

def Graph.emptied (g : Graph) : Graph := { g with arena := g.arena.map Node.emptied, labels := 0 }

/-- Whether the event tells of an input without value and link. -/
def Event.isReport : Event → Bool
  | .unresolved _ _ _ => true
  | _ => false

/-- A value as it is kept, and the label of the next NaN after that. -/
def Value.kept (v : Value) (n : Nat) : Value × Nat := if v.hasFresh then v.stamp.run n else (v, n)

namespace Node

@[simp] theorem emptied_setInput (n : Node) (p : Nat) (v : Value) : (n.setInput p v).emptied = n.emptied := by
  simp [emptied, setInput, map_outline_modify]

@[simp] theorem emptied_setOutput (n : Node) (p : Nat) (v : Value) : (n.setOutput p v).emptied = n.emptied := by
  simp [emptied, setOutput, map_outline_modify]

theorem outline_emptied (n : Node) : n.emptied.outline = n.outline := by
  simp [emptied, outline, Function.comp_def, Socket.hollow]

end Node

theorem Graph.outline_emptied (g : Graph) : g.emptied.outline = g.outline := by
  simp [emptied, outline, Function.comp_def, Node.outline_emptied]

namespace World

/-- The label of the next NaN that a graph keeps. -/
def labels (w : World) (j : Nat) : Nat := (w.graph j).labels

def inputValue (w : World) (x : NodeRef) (p : Nat) : Value := (((w.node x).inputs[p]?).getD default).value

def outputValue (w : World) (x : NodeRef) (p : Nat) : Value := (((w.node x).outputs[p]?).getD default).value

def inputValues (w : World) (x : NodeRef) : List Value := (dataPlaces (w.node x)).map (w.inputValue x)

/-- The inputs without value and link that were told of, latest first. -/
def reports (w : World) : List Event := w.journal.filter Event.isReport

/-- A world without what the sockets of one graph hold. -/
def emptied (j : Nat) (w : World) : World :=
  { w with graphs := w.graphs.modify j Graph.emptied, journal := [], audience := {} }

/-- The worlds differ in what the sockets of one graph hold. -/
def Around (j : Nat) (u w : World) : Prop := w.emptied j = u.emptied j

namespace Around

variable {j : Nat} {u v w : World}

theorem refl (j : Nat) (w : World) : Around j w w := rfl

theorem trans (h : Around j u v) (h' : Around j v w) : Around j u w := Eq.trans h' h

theorem graph_emptied (h : Around j u w) : (w.graph j).emptied = (u.graph j).emptied := by
  have hj : (w.emptied j).graphs[j]? = (u.emptied j).graphs[j]? := by rw [h]
  simp only [emptied, Array.getElem?_modify, if_true] at hj
  unfold World.graph
  cases hw : w.graphs[j]? <;> cases hu : u.graphs[j]? <;> simp [hw, hu] at hj ⊢
  exact hj

theorem shaped (h : Around j u w) : Shaped j (u.graph j) w := by
  rw [Shaped, ← Graph.outline_emptied, h.graph_emptied, Graph.outline_emptied]

theorem engine (h : Around j u w) (i : Nat) : w.engine i = u.engine i := by
  have he : w.engines = u.engines := (congrArg World.engines h :)
  rw [World.engine, World.engine, he]

theorem registry (h : Around j u w) (k : Nat) : w.registryOf ⟨j, k⟩ = u.registryOf ⟨j, k⟩ :=
  (congrArg Graph.registry h.graph_emptied :)

theorem node_emptied (h : Around j u w) (k : Nat) : (w.node ⟨j, k⟩).emptied = (u.node ⟨j, k⟩).emptied := by
  have harena : (w.graph j).arena.map Node.emptied = (u.graph j).arena.map Node.emptied :=
    (congrArg Graph.arena h.graph_emptied :)
  have hk := congrArg (·[k]?) harena
  simp only [Array.getElem?_map] at hk
  simp only [World.node, Graph.nodeAt?]
  cases hw : (w.graph j).arena[k]? <;> cases hu : (u.graph j).arena[k]? <;> simp [hw, hu] at hk ⊢
  exact hk

theorem size (h : Around j u w) : w.graphs.size = u.graphs.size := by
  have hsize := congrArg (fun w : World => w.graphs.size) h
  simpa [emptied] using hsize

theorem modifyNode (w : World) (k : Nat) {f : Node → Node} (hf : ∀ n, (f n).emptied = n.emptied) :
    Around j w (w.modifyNode ⟨j, k⟩ f) := by
  have hgraph (g : Graph) : (g.modifyNode k f).emptied = g.emptied := by
    simp only [Graph.emptied, Graph.modifyNode, Graph.mk.injEq, true_and, and_true]
    apply Array.ext_getElem?
    intro l
    simp only [Array.getElem?_map, Array.getElem?_modify]
    split
    · cases g.arena[l]? <;> simp [hf]
    · rfl
  simp only [Around, emptied, World.modifyNode, modifyGraph, Engine.modify_modify, hgraph]

/-- Taking labels for a value leaves the sockets as they are. -/
theorem stamp (w : World) (v : Value) : Around j w (w.stamp j v).2 := by
  unfold World.stamp
  split
  · have hgraph : ((w.graph j).stamp v).1.emptied = (w.graph j).emptied := by
      unfold Graph.stamp
      split <;> rfl
    simp only [Around, emptied, modifyGraph]
    congr 1
    apply Array.ext_getElem?
    intro l
    simp only [Array.getElem?_modify]
    split
    · rename_i hl
      subst hl
      cases hw : w.graphs[j]? with
      | none => rfl
      | some g =>
        have hg : w.graph j = g := by simp [World.graph, hw]
        rw [hg] at hgraph
        simp [hg, hgraph]
    · rfl
  · rfl

theorem tell (w : World) (i : Nat) (e : String → Event) : Around j w (w.tell i e) := by
  unfold World.tell
  split
  · rfl
  · rfl

end Around

section Values

variable {j : Nat} {w : World}

theorem inputs_setInput (w : World) (x y : NodeRef) (p : Nat) (v : Value) :
    ((w.modifyNode x (·.setInput p v)).node y).inputs =
      if y = x then (w.node y).inputs.modify p fun s => { s with value := v } else (w.node y).inputs := by
  rw [node_modifyNode]
  by_cases hyx : y = x
  · subst hyx
    cases hn : (w.graph y.graph).nodeAt? y.serial with
    | some n => simp [Node.setInput]
    | none =>
      have hnode : w.node y = default := by simp [World.node, hn]
      simp [hnode, show (default : Node).inputs = [] from rfl]
  · simp [hyx, Ne.symm hyx]

theorem outputs_setOutput (w : World) (x y : NodeRef) (p : Nat) (v : Value) :
    ((w.modifyNode x (·.setOutput p v)).node y).outputs =
      if y = x then (w.node y).outputs.modify p fun s => { s with value := v } else (w.node y).outputs := by
  rw [node_modifyNode]
  by_cases hyx : y = x
  · subst hyx
    cases hn : (w.graph y.graph).nodeAt? y.serial with
    | some n => simp [Node.setOutput]
    | none =>
      have hnode : w.node y = default := by simp [World.node, hn]
      simp [hnode, show (default : Node).outputs = [] from rfl]
  · simp [hyx, Ne.symm hyx]

theorem value_modify {ss : List Socket} {p : Nat} (hp : p < ss.length) (v : Value) (q : Nat) :
    (((ss.modify p fun s => { s with value := v })[q]?).getD default).value =
      if q = p then v else ((ss[q]?).getD default).value := by
  rw [List.getElem?_modify]
  by_cases hqp : q = p
  · subst hqp
    simp [hp]
  · simp [hqp, Ne.symm hqp]

theorem inputValue_setInput {x : NodeRef} {p : Nat} (hp : p < (w.node x).inputs.length) (v : Value) (y : NodeRef)
    (q : Nat) : (w.modifyNode x (·.setInput p v)).inputValue y q =
      if y = x ∧ q = p then v else w.inputValue y q := by
  rw [inputValue, inputs_setInput]
  by_cases hyx : y = x
  · subst hyx
    simp only [if_true, value_modify hp, true_and]
    rfl
  · simp [hyx, inputValue]

theorem inputValue_setInput_of_ne (w : World) {x y : NodeRef} {p q : Nat} (h : y ≠ x ∨ q ≠ p) (v : Value) :
    (w.modifyNode x (·.setInput p v)).inputValue y q = w.inputValue y q := by
  rw [inputValue, inputs_setInput]
  by_cases hyx : y = x
  · have hqp : q ≠ p := h.resolve_left (not_not_intro hyx)
    simp only [hyx, if_true, List.getElem?_modify, if_neg hqp.symm, inputValue]
    simp
  · simp [hyx, inputValue]

theorem outputValue_setOutput {x : NodeRef} {p : Nat} (hp : p < (w.node x).outputs.length) (v : Value) (y : NodeRef)
    (q : Nat) : (w.modifyNode x (·.setOutput p v)).outputValue y q =
      if y = x ∧ q = p then v else w.outputValue y q := by
  rw [outputValue, outputs_setOutput]
  by_cases hyx : y = x
  · subst hyx
    simp only [if_true, value_modify hp, true_and]
    rfl
  · simp [hyx, outputValue]

@[simp] theorem outputValue_setInput (w : World) (x y : NodeRef) (p q : Nat) (v : Value) :
    (w.modifyNode x (·.setInput p v)).outputValue y q = w.outputValue y q := by
  rw [outputValue, node_modifyNode]
  split <;> rfl

@[simp] theorem inputValue_setOutput (w : World) (x y : NodeRef) (p q : Nat) (v : Value) :
    (w.modifyNode x (·.setOutput p v)).inputValue y q = w.inputValue y q := by
  rw [inputValue, node_modifyNode]
  split <;> rfl

@[simp] theorem labels_modifyNode (w : World) (x : NodeRef) (f : Node → Node) (j : Nat) :
    (w.modifyNode x f).labels j = w.labels j := by
  simp only [labels, graph, modifyNode, modifyGraph, Array.getElem?_modify]
  split
  · cases w.graphs[j]? <;> rfl
  · rfl

@[simp] theorem inputValue_stamp (w : World) (g : Nat) (v : Value) (x : NodeRef) (p : Nat) :
    (w.stamp g v).2.inputValue x p = w.inputValue x p := by
  rw [inputValue, node_stamp, inputValue]

@[simp] theorem outputValue_stamp (w : World) (g : Nat) (v : Value) (x : NodeRef) (p : Nat) :
    (w.stamp g v).2.outputValue x p = w.outputValue x p := by
  rw [outputValue, node_stamp, outputValue]

@[simp] theorem reports_stamp (w : World) (g : Nat) (v : Value) : (w.stamp g v).2.reports = w.reports := by
  unfold stamp
  split <;> rfl

theorem stamp_eq_kept (w : World) (j : Nat) (v : Value) : (w.stamp j v).1 = (v.kept (w.labels j)).1 := by
  unfold stamp Value.kept Graph.stamp labels
  split <;> rfl

theorem labels_stamp (hj : j < w.graphs.size) (v : Value) : (w.stamp j v).2.labels j = (v.kept (w.labels j)).2 := by
  unfold stamp Value.kept Graph.stamp labels
  split
  · simp only [graph, modifyGraph, Array.getElem?_modify, if_true, Array.getElem?_eq_getElem hj, Option.map_some,
      Option.getD_some]
    rfl
  · rfl

@[simp] theorem inputValue_tell (w : World) (i : Nat) (e : String → Event) (x : NodeRef) (p : Nat) :
    (w.tell i e).inputValue x p = w.inputValue x p := by
  rw [inputValue, node_tell, inputValue]

@[simp] theorem outputValue_tell (w : World) (i : Nat) (e : String → Event) (x : NodeRef) (p : Nat) :
    (w.tell i e).outputValue x p = w.outputValue x p := by
  rw [outputValue, node_tell, outputValue]

@[simp] theorem labels_tell (w : World) (i : Nat) (e : String → Event) (j : Nat) : (w.tell i e).labels j = w.labels j := by
  unfold tell
  split <;> rfl

/-- An engine that is observed tells of an input without value and link. -/
theorem reports_tell (w : World) (i : Nat) (e : String → Event) :
    (w.tell i e).reports =
      if (w.engine i).isObserved ∧ (e (w.engine i).name).isReport = true then e (w.engine i).name :: w.reports
      else w.reports := by
  unfold tell reports record
  by_cases ho : (w.engine i).isObserved = true
  · by_cases he : (e (w.engine i).name).isReport = true
    · simp [ho, he]
    · simp [ho, he]
  · simp [ho]

@[simp] theorem reports_modifyNode (w : World) (x : NodeRef) (f : Node → Node) : (w.modifyNode x f).reports = w.reports :=
  rfl

end Values

namespace Around

variable {j : Nat} {u w : World}

theorem dataPlaces (h : Around j u w) (k : Nat) : Play.dataPlaces (w.node ⟨j, k⟩) = Play.dataPlaces (u.node ⟨j, k⟩) :=
  h.shaped.dataPlaces k

/-- A socket is the same but for what it holds. -/
theorem input (h : Around j u w) (k p : Nat) :
    (((w.node ⟨j, k⟩).inputs[p]?).getD default).hollow = (((u.node ⟨j, k⟩).inputs[p]?).getD default).hollow := by
  have hinputs : (w.node ⟨j, k⟩).inputs.map Socket.hollow = (u.node ⟨j, k⟩).inputs.map Socket.hollow :=
    (congrArg Node.inputs (h.node_emptied k) :)
  have hp := congrArg (·[p]?) hinputs
  simp only [List.getElem?_map] at hp
  cases hw : (w.node ⟨j, k⟩).inputs[p]? <;> cases hu : (u.node ⟨j, k⟩).inputs[p]? <;> simp [hw, hu] at hp ⊢
  exact hp

theorem input_lt (h : Around j u w) {k p : Nat} (hp : p < (u.node ⟨j, k⟩).inputs.length) :
    p < (w.node ⟨j, k⟩).inputs.length := by
  have hinputs : (w.node ⟨j, k⟩).inputs.map Socket.hollow = (u.node ⟨j, k⟩).inputs.map Socket.hollow :=
    (congrArg Node.inputs (h.node_emptied k) :)
  have hlength := congrArg List.length hinputs
  simp only [List.length_map] at hlength
  omega

theorem output (h : Around j u w) (k p : Nat) :
    (((w.node ⟨j, k⟩).outputs[p]?).getD default).hollow = (((u.node ⟨j, k⟩).outputs[p]?).getD default).hollow := by
  have houtputs : (w.node ⟨j, k⟩).outputs.map Socket.hollow = (u.node ⟨j, k⟩).outputs.map Socket.hollow :=
    (congrArg Node.outputs (h.node_emptied k) :)
  have hp := congrArg (·[p]?) houtputs
  simp only [List.getElem?_map] at hp
  cases hw : (w.node ⟨j, k⟩).outputs[p]? <;> cases hu : (u.node ⟨j, k⟩).outputs[p]? <;> simp [hw, hu] at hp ⊢
  exact hp

theorem sockets_eq {ss ts : List Socket} (hst : ss.map Socket.hollow = ts.map Socket.hollow)
    (hvalue : ∀ p : Nat, ((ss[p]?).getD default).value = ((ts[p]?).getD default).value) : ss = ts := by
  apply List.ext_getElem?
  intro p
  have hp := congrArg (·[p]?) hst
  have hv := hvalue p
  simp only [List.getElem?_map] at hp
  cases hs : ss[p]? <;> cases ht : ts[p]? <;> simp [hs, ht] at hp hv ⊢
  rename_i s t
  cases s
  cases t
  simp only [Socket.hollow, Socket.mk.injEq] at hp ⊢
  simp_all

/-- Worlds in which all sockets hold the same, and the labels go on from the same, have the same graphs. -/
theorem graphs_eq (h : Around j u w) (hin : ∀ k p, w.inputValue ⟨j, k⟩ p = u.inputValue ⟨j, k⟩ p)
    (hout : ∀ k p, w.outputValue ⟨j, k⟩ p = u.outputValue ⟨j, k⟩ p) (hlabels : w.labels j = u.labels j) :
    w.graphs = u.graphs := by
  have hmodify : w.graphs.modify j Graph.emptied = u.graphs.modify j Graph.emptied := (congrArg World.graphs h :)
  apply Array.ext_getElem?
  intro i
  have hi := congrArg (·[i]?) hmodify
  simp only [Array.getElem?_modify] at hi
  by_cases hij : j = i
  · subst hij
    simp only [if_true] at hi
    cases hw : w.graphs[j]? <;> cases hu : u.graphs[j]? <;> simp [hw, hu] at hi ⊢
    rename_i g g'
    have hg : w.graph j = g := by simp [World.graph, hw]
    have hg' : u.graph j = g' := by simp [World.graph, hu]
    have harena : g.arena = g'.arena := by
      apply Array.ext_getElem?
      intro k
      have hk := congrArg (fun a : Array Node => a[k]?) (congrArg Graph.arena hi :)
      simp only [Graph.emptied, Array.getElem?_map] at hk
      have hnode (v : World) (x : Node) (hv : (v.graph j).arena[k]? = some x) : v.node ⟨j, k⟩ = x := by
        simp [World.node, Graph.nodeAt?, hv]
      cases hx : g.arena[k]? <;> cases hy : g'.arena[k]? <;> simp [hx, hy] at hk ⊢
      rename_i x y
      have hwx := hnode w x (by rw [hg]; exact hx)
      have huy := hnode u y (by rw [hg']; exact hy)
      have hins : x.inputs = y.inputs := by
        refine sockets_eq (congrArg Node.inputs hk :) fun p => ?_
        have := hin k p
        rwa [inputValue, inputValue, hwx, huy] at this
      have houts : x.outputs = y.outputs := by
        refine sockets_eq (congrArg Node.outputs hk :) fun p => ?_
        have := hout k p
        rwa [outputValue, outputValue, hwx, huy] at this
      cases x
      cases y
      simp only [Node.emptied, Node.mk.injEq] at hk hins houts ⊢
      simp_all
    have hl : g.labels = g'.labels := by
      rw [labels, labels, hg, hg'] at hlabels
      exact hlabels
    cases g
    cases g'
    simp only [Graph.emptied, Graph.mk.injEq] at hi harena hl ⊢
    simp_all
  · simpa only [if_neg hij] using hi

end Around

end World

end FlowGraph
