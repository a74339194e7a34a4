import FlowGraph.Proofs.Draining
import FlowGraph.Proofs.Outcome

/-!
What running leaves alone: the nodes of a graph with their definitions, sockets and wires. Only values, the state
of nodes and variables come and go.
-/
namespace FlowGraph

open World Play

def Socket.hollow (s : Socket) : Socket := { s with value := .none }

/-- A node without what it keeps for the moment. -/
def Node.outline (n : Node) : Node :=
  { n with
    state := .none
    inputs := n.inputs.map Socket.hollow
    outputs := n.outputs.map Socket.hollow
    error := none
    lastOutput := none }

def Graph.outline (g : Graph) : Graph := { g with arena := g.arena.map Node.outline, vars := {}, labels := 0 }

def World.outline (w : World) : Array Graph := w.graphs.map Graph.outline

theorem map_outline_modify (ss : List Socket) (k : Nat) (v : Value) :
    (ss.modify k fun s => { s with value := v }).map Socket.hollow = ss.map Socket.hollow := by
  apply List.ext_getElem?
  intro j
  simp only [List.getElem?_map, List.getElem?_modify]
  cases ss[j]? with
  | none => rfl
  | some s => by_cases hj : k = j <;> simp [hj, Socket.hollow]

theorem socket_of_outline {ss ts : List Socket} (h : ss.map Socket.hollow = ts.map Socket.hollow) {k : Nat}
    {s : Socket} (hs : ss[k]? = some s) : ∃ t, ts[k]? = some t ∧ t.hollow = s.hollow := by
  have hk : (ts.map Socket.hollow)[k]? = some s.hollow := by rw [← h, List.getElem?_map, hs]; rfl
  rw [List.getElem?_map, Option.map_eq_some_iff] at hk
  exact hk

namespace Node

@[simp] theorem outline_setInput (n : Node) (k : Nat) (v : Value) : (n.setInput k v).outline = n.outline := by
  simp [outline, setInput, map_outline_modify]

@[simp] theorem outline_setOutput (n : Node) (k : Nat) (v : Value) : (n.setOutput k v).outline = n.outline := by
  simp [outline, setOutput, map_outline_modify]

theorem outline_write {n m : Node} {name : String} {v : Value} (h : n.write name v = .ok m) : m.outline = n.outline := by
  unfold write at h
  split at h
  · split at h
    · cases h
    · cases h
      exact outline_setOutput ..
  · cases h

end Node

namespace Graph

variable {g changed : Graph} {name : String} {v : Value} {told : Option Value}

theorem assign_eq_ok {x : Variable} (h : g.assign x v = .ok (changed, told)) :
    ∃ w y, Variable.coerce x.name x.valueType v = .ok w ∧ x.put (g.stamp w).2 = .ok (y, told) ∧
      changed = { (g.stamp w).1 with vars := (g.stamp w).1.vars.set x.name y } := by
  obtain ⟨w, hw, h⟩ := bind_eq_ok.1 h
  obtain ⟨⟨y, told'⟩, hy, h⟩ := bind_eq_ok.1 h
  cases h
  exact ⟨w, y, hw, hy, rfl⟩

/-- What is done to a variable that is there when it gets a new value to start from. -/
theorem setVariable_eq_ok (h : g.setVariable name v = .ok (changed, told)) :
    ∃ x w initial y, g.vars.get? name = some x ∧ Variable.coerce name x.valueType v = .ok w ∧
      x.valueType.clone (g.stamp w).2 = .ok initial ∧ { x with initial := initial }.put (g.stamp w).2 = .ok (y, told) ∧
      changed = { (g.stamp w).1 with vars := (g.stamp w).1.vars.set name y } := by
  unfold setVariable at h
  split at h
  · cases h
  · rename_i x hx
    dsimp only [Option.getD_none] at h
    rw [if_neg (by simp)] at h
    obtain ⟨w, hw, h⟩ := bind_eq_ok.1 h
    obtain ⟨initial, hinitial, h⟩ := bind_eq_ok.1 h
    obtain ⟨⟨y, told'⟩, hy, h⟩ := bind_eq_ok.1 h
    cases h
    exact ⟨x, w, initial, y, hx, hw, lifted_eq_ok.1 hinitial, hy, rfl⟩

end Graph

namespace World

/-- The worlds have the same graphs but for what changes when they run. -/
def Outlined (u w : World) : Prop := w.outline = u.outline

namespace Outlined

variable {u v w : World} {i : Nat}

theorem frame (h : Outlined u w) (hg : v.graphs = w.graphs) : Outlined u v := by
  rw [Outlined, outline, hg]
  exact h

/-- A graph may change as far as its outline stays. -/
theorem modifyGraph (h : Outlined u w) (k : Nat) {f : Graph → Graph}
    (hf : (f (w.graph k)).outline = (w.graph k).outline) : Outlined u (w.modifyGraph k f) := by
  rw [Outlined, ← h]
  apply Array.ext_getElem?
  intro j
  simp only [outline, World.modifyGraph, Array.getElem?_map, Array.getElem?_modify]
  split
  · rename_i hj
    subst hj
    simp only [World.graph] at hf
    cases hx : w.graphs[k]? with
    | none => rfl
    | some g =>
      rw [hx] at hf
      exact congrArg some hf
  · rfl

/-- A node may change as far as its outline stays. -/
theorem modifyNode (h : Outlined u w) (x : NodeRef) {f : Node → Node}
    (hf : (f (w.node x)).outline = (w.node x).outline) : Outlined u (w.modifyNode x f) := by
  refine h.modifyGraph x.graph ?_
  simp only [Graph.outline, Graph.modifyNode, Graph.mk.injEq, true_and, and_true]
  apply Array.ext_getElem?
  intro j
  simp only [Array.getElem?_map, Array.getElem?_modify]
  split
  · rename_i hj
    subst hj
    simp only [World.node, Graph.nodeAt?] at hf
    cases hx : (w.graph x.graph).arena[x.serial]? with
    | none => rfl
    | some n =>
      rw [hx] at hf
      exact congrArg some hf
  · rfl

theorem stamp (h : Outlined u w) (g : Nat) (v : Value) : Outlined u (w.stamp g v).2 := by
  unfold World.stamp
  split
  · refine h.modifyGraph g ?_
    unfold Graph.stamp
    split <;> rfl
  · exact h

theorem tell (h : Outlined u w) (j : Nat) (e : String → Event) : Outlined u (w.tell j e) := by
  unfold World.tell
  split
  · exact h.frame rfl
  · exact h

theorem report (h : Outlined u w) (j : Nat) (e : Failure) : Outlined u (w.report j e) :=
  report_upholds (fun _ h => h.modifyNode _ rfl) (fun _ _ h => h.frame rfl) h

theorem writeOutputs (h : Outlined u w) (x : NodeRef) (values : List (String × Value)) :
    Outlined u (w.writeOutputs x values).2 := by
  induction values generalizing w with
  | nil => exact h
  | cons p rest ih =>
    obtain ⟨name, v⟩ := p
    unfold World.writeOutputs
    split
    · rename_i hn
      exact ih (h.modifyNode x (Node.outline_write hn))
    · exact h

/-- Writing what a trigger carries keeps the outline. -/
theorem applyEntry (h : Outlined u w) (j f : Nat) : Outlined u (w.applyEntry j f).2 := by
  unfold World.applyEntry
  have hmarked := h.frame (v := w.modifyEngine j (·.modifyFiber f fun f => { f with isWritten := true })) rfl
  dsimp only
  split
  · exact hmarked
  · rename_i x values _
    have hwritten := hmarked.writeOutputs x values
    split
    · rename_i heq
      rw [heq] at hwritten
      exact hwritten
    · rename_i heq
      rw [heq] at hwritten
      exact hwritten

theorem stampOutputs (h : Outlined u w) (g : Nat) (values : List (String × Value)) :
    Outlined u (w.stampOutputs g values).2 := by
  induction values generalizing w with
  | nil => exact h
  | cons p rest ih => exact ih (h.stamp g p.2)

theorem commitFiber (h : Outlined u w) (j f : Nat) (x : NodeRef) (output : String) (l : Option Listener) :
    Outlined u (w.commitFiber j f x output l).2 := by
  unfold World.commitFiber
  split
  · exact h
  · exact h.frame rfl

theorem endFiber (h : Outlined u w) (j f : Nat) (x : NodeRef) : Outlined u (w.endFiber j f x).2 := by
  unfold World.endFiber
  split
  · exact h
  · exact h.frame rfl

/-- Putting a fiber in the queue keeps the outline. -/
theorem enqueue (h : Outlined u w) (j f : Nat) : Outlined u (w.enqueue j f) := by
  unfold World.enqueue
  simp only
  split
  · have happly := h.applyEntry j f
    split
    · rename_i heq
      rw [heq] at happly
      exact happly.report j _
    · rename_i heq
      rw [heq] at happly
      exact happly.frame rfl
  · split
    · exact h.frame rfl
    · exact h.frame rfl

/-- A path that begins keeps the outline. -/
theorem begin (h : Outlined u w) (j : Nat) (x : NodeRef) (output : String) (l : Option Listener)
    (outputs : List (String × Value)) : Outlined u (w.begin j x output l outputs) := by
  unfold World.begin
  split
  · exact h
  · have hv := h.stampOutputs x.graph outputs
    simp only
    generalize (w.stampOutputs x.graph outputs).2 = v at hv ⊢
    generalize (if (w.stampOutputs x.graph outputs).1.isEmpty then none
      else some (x, (Table.ofList (w.stampOutputs x.graph outputs).1).entries)) = entry
    have hpush := hv.frame (v := v.modifyEngine j fun e => { e with fibers := e.fibers.push { entry := entry } }) rfl
    have hcommit := hpush.commitFiber j (v.engine j).fibers.size x output l
    split
    · rename_i heq
      rw [heq] at hcommit
      exact hcommit.report j _
    · rename_i heq
      rw [heq] at hcommit
      exact hcommit.enqueue j _

/-- Finding the output of an operation keeps the outline. -/
theorem chooseOutput (h : Outlined u w) (x : NodeRef) (output : Option String) :
    Outlined u (w.chooseOutput x output).1 := by
  have hforget : Outlined u (if output.isNone then w.modifyNode x fun n => { n with lastOutput := none } else w) := by
    split
    · exact h.modifyNode x rfl
    · exact h
  unfold World.chooseOutput
  simp only
  generalize (if output.isNone then w.modifyNode x fun n => { n with lastOutput := none } else w) = v at hforget ⊢
  split
  · exact hforget
  · split
    · exact hforget.modifyNode x rfl
    · exact hforget

theorem complete (h : Outlined u w) (j o : Nat) (output : Option String) : Outlined u (w.complete j o output) := by
  refine complete_upholds ?_ ?_ ?_ ?_ ?_ h
  · exact fun w h => h.frame rfl
  · exact fun w x h => h.chooseOutput x output
  · exact fun w e h => h.report j e
  · exact fun w x name h => h.begin j x name none []
  · exact fun w e h => h.tell j e

theorem finishOperation (h : Outlined u w) (j o : Nat) (output : Option String) (fromOutside : Bool) :
    Outlined u (w.finishOperation j o output fromOutside) := by
  refine finishOperation_upholds ?_ ?_ ?_ h
  · exact fun w h _ _ => h.frame rfl
  · exact fun w h _ => h.complete j o output
  · exact fun w h _ => h.frame rfl

theorem drainInbox (h : Outlined u w) (j : Nat) : Outlined u (w.drainInbox j) := by
  refine drainInbox_upholds (h.frame rfl) fun p _ v hv => ?_
  cases p with
  | complete o output => exact hv.complete j o output
  | begin x output l outputs => exact hv.begin j x output l outputs

theorem outline_stamp (g : Graph) (v : Value) : (g.stamp v).1.outline = g.outline := by
  unfold Graph.stamp
  split <;> rfl

theorem outline_assign {g changed : Graph} {x : Variable} {v : Value} {told : Option Value}
    (h : g.assign x v = .ok (changed, told)) : changed.outline = g.outline := by
  obtain ⟨w, y, -, -, rfl⟩ := Graph.assign_eq_ok h
  exact outline_stamp g w

theorem outline_setVariable {g changed : Graph} {name : String} {v : Value} {told : Option Value}
    (h : g.setVariable name v = .ok (changed, told)) : changed.outline = g.outline := by
  obtain ⟨x, w, initial, y, -, -, -, -, rfl⟩ := Graph.setVariable_eq_ok h
  exact outline_stamp g w

/-- No call changes the outline of a graph. -/
theorem closed (u : World) (A : Context → Prop) : Closed (fun w _ => Outlined u w) A where
  stamp g v _ _ h := h.stamp g v
  write h _ _ _ _ _ hn := h.modifyNode _ (Node.outline_write hn)
  setState _ _ _ _ h := h.modifyNode _ rfl
  setInput x place v _ _ h := h.modifyNode x (Node.outline_setInput _ place v)
  assign h _ _ _ _ _ hg := h.modifyGraph _ (outline_assign hg)
  record _ _ _ _ h := h.frame rfl
  tell j e _ _ _ h := h.tell j e
  hold _ _ _ h := h.frame rfl
  schedule _ _ _ h := h.frame rfl
  store _ _ _ h := h.frame rfl
  subscribe _ _ _ _ h := h.frame rfl
  unsubscribe _ _ _ h := h.frame rfl
  enlist _ _ _ _ _ h := h.frame rfl
  unlist _ _ _ h := h.frame rfl
  report {j} _ _ _ _ _ _ _ h := h.report j _
  begin j x output l _ values _ _ _ h := h.begin j x output l values
  commit _ output l _ _ _ h := h.commitFiber _ _ _ output l
  stop _ _ _ h := h.endFiber _ _ _
  register h _ _ _ _ _ := h.frame rfl
  enrol _ _ _ h := h.frame rfl
  finish j o output _ _ h := h.finishOperation j o output false
  dismiss h _ _ _ _ := by
    refine relinquish_upholds ?_ ?_
    · exact h.frame rfl
    · exact h.frame rfl
  close h _ _ := h.frame rfl
  relinquish h _ _ _ _ := relinquish_upholds (h.frame rfl) h
  release h _ _ _ := h.frame rfl
  clear h _ _ _ := h.frame rfl

theorem drained (u : World) (i : Nat) : Drained (Upholds (Outlined u)) i := by
  refine Conduct.drained (closed u _).conduct_of_all ?_ ?_ ?_ ?_
  · exact fun w h g _ => h.frame rfl
  · exact fun w h f => h.applyEntry i f
  · exact fun w h => h.drainInbox i
  · exact fun w h e => h.report i e

/-- Each graph has the outline that it had. -/
theorem graph (h : Outlined u w) (k : Nat) : (w.graph k).outline = (u.graph k).outline := by
  have hk : (w.outline)[k]? = (u.outline)[k]? := by rw [h]
  simp only [outline, Array.getElem?_map] at hk
  simp only [World.graph]
  cases hw : w.graphs[k]? with
  | none =>
    cases hu : u.graphs[k]? with
    | none => rfl
    | some g =>
      rw [hw, hu] at hk
      cases hk
  | some g =>
    cases hu : u.graphs[k]? with
    | none =>
      rw [hw, hu] at hk
      cases hk
    | some g' =>
      rw [hw, hu] at hk
      exact Option.some.inj hk

theorem registryOf (h : Outlined u w) (x : NodeRef) : w.registryOf x = u.registryOf x :=
  (congrArg Graph.registry (h.graph x.graph) :)

theorem endsOf (h : Outlined u w) (k : Nat) (wire : Wire) : (w.graph k).endsOf wire = (u.graph k).endsOf wire := by
  have hends : (w.graph k).ends = (u.graph k).ends := (congrArg Graph.ends (h.graph k) :)
  rw [Graph.endsOf, Graph.endsOf, hends]

/-- Each node has the outline that it had. -/
theorem node (h : Outlined u w) (x : NodeRef) : (w.node x).outline = (u.node x).outline := by
  have harena : ((w.graph x.graph).arena.map Node.outline)[x.serial]? =
      ((u.graph x.graph).arena.map Node.outline)[x.serial]? :=
    (congrArg (fun g : Graph => g.arena[x.serial]?) (h.graph x.graph) :)
  simp only [Array.getElem?_map] at harena
  simp only [World.node, Graph.nodeAt?]
  cases hw : (w.graph x.graph).arena[x.serial]? with
  | none =>
    cases hu : (u.graph x.graph).arena[x.serial]? with
    | none => rfl
    | some n =>
      rw [hw, hu] at harena
      cases harena
  | some n =>
    cases hu : (u.graph x.graph).arena[x.serial]? with
    | none =>
      rw [hw, hu] at harena
      cases harena
    | some m =>
      rw [hw, hu] at harena
      exact Option.some.inj harena

theorem definition (h : Outlined u w) (x : NodeRef) : (w.node x).definition = (u.node x).definition :=
  (congrArg Node.definition (h.node x) :)

/-- The wires at an output are those that there were. -/
theorem wiresAt (h : Outlined u w) (x : NodeRef) (output : String) :
    w.wiresAt x output = u.wiresAt x output := by
  have houtputs : (w.node x).outputs.map Socket.hollow = (u.node x).outputs.map Socket.hollow :=
    (congrArg Node.outputs (h.node x) :)
  have hfind := congrArg (List.find? (·.name = output)) houtputs
  rw [List.find?_map, List.find?_map] at hfind
  have hwires := congrArg (Option.map Socket.wires) hfind
  rw [Option.map_map, Option.map_map] at hwires
  have hsame : ((w.node x).output? output).map (·.wires) = ((u.node x).output? output).map (·.wires) := hwires
  unfold World.wiresAt
  cases hw : (w.node x).output? output <;> cases hu : (u.node x).output? output <;>
    simp only [hw, hu, Option.map_some, Option.map_none, reduceCtorEq, Option.some.injEq] at hsame
  · rfl
  · exact hsame

/-- Which outputs a path may start at is part of the outline. -/
theorem isFlowOutput (h : Outlined u w) (x : NodeRef) (output : String) :
    (w.node x).isFlowOutput output = (u.node x).isFlowOutput output := by
  have houtputs : (w.node x).outputs.map Socket.hollow = (u.node x).outputs.map Socket.hollow :=
    (congrArg Node.outputs (h.node x) :)
  have hfind := congrArg (List.find? (·.name = output)) houtputs
  rw [List.find?_map, List.find?_map] at hfind
  have hflow := congrArg (Option.any (·.isFlow)) hfind
  rw [Option.any_map, Option.any_map] at hflow
  exact hflow

theorem inputs (h : Outlined u w) (x : NodeRef) :
    (w.node x).inputs.map Socket.hollow = (u.node x).inputs.map Socket.hollow :=
  (congrArg Node.inputs (h.node x) :)

theorem flowOutputs_eq_nil (h : Outlined u w) (x : NodeRef) : (w.node x).flowOutputs = [] ↔ (u.node x).flowOutputs = [] := by
  have hhollow (n : Node) : n.flowOutputs.map Socket.hollow = (n.outputs.map Socket.hollow).filter (·.isFlow) := by
    rw [Node.flowOutputs, List.filter_map]
    rfl
  have hsame : (w.node x).flowOutputs.map Socket.hollow = (u.node x).flowOutputs.map Socket.hollow := by
    rw [hhollow, hhollow]
    exact congrArg (List.filter (·.isFlow)) (congrArg Node.outputs (h.node x) :)
  rw [← List.map_eq_nil_iff (f := Socket.hollow), hsame, List.map_eq_nil_iff]

end Outlined

end World

namespace Graph

variable {g h : Graph}

/-- Where the first wire at an input leads, by the places of the node and the input. -/
def pulls (g : Graph) (k p : Nat) : Option Ends :=
  ((((g.nodeAt? k).getD default).inputs[p]?).getD default).wires.head?.bind g.endsOf

theorem nodeAt?_outline (g : Graph) (k : Nat) : g.outline.nodeAt? k = (g.nodeAt? k).map Node.outline := by
  simp [outline, nodeAt?]

/-- The nodes at a place differ in what they keep for the moment. -/
theorem outline_getD_nodeAt? (hgh : g.outline = h.outline) (k : Nat) :
    ((g.nodeAt? k).getD default).outline = ((h.nodeAt? k).getD default).outline := by
  have hat : (g.nodeAt? k).map Node.outline = (h.nodeAt? k).map Node.outline := by
    rw [← nodeAt?_outline, ← nodeAt?_outline, hgh]
  cases hg : g.nodeAt? k with
  | none =>
    cases hh : h.nodeAt? k with
    | none => rfl
    | some m => simp [hg, hh] at hat
  | some n =>
    cases hh : h.nodeAt? k with
    | none => simp [hg, hh] at hat
    | some m => simpa [hg, hh] using hat

theorem outputAt?_outline (g : Graph) (e : End) : g.outline.outputAt? e = (g.outputAt? e).map Socket.hollow := by
  simp only [outputAt?, nodeAt?, outline, Array.getElem?_map]
  cases g.arena[e.node]? with
  | none => rfl
  | some n => simp [Node.outline]

theorem endsOf_of_outline (hgh : g.outline = h.outline) : g.endsOf = h.endsOf := by
  have hends : g.ends = h.ends := (congrArg Graph.ends hgh :)
  funext w
  rw [endsOf, endsOf, hends]

/-- Sockets that differ in their values alone have the same wires. -/
theorem wires_getD_of_hollow {ss ts : List Socket} (hst : ss.map Socket.hollow = ts.map Socket.hollow) (p : Nat) :
    (ss[p]?.getD default).wires = (ts[p]?.getD default).wires := by
  have hat : ss[p]?.map Socket.hollow = ts[p]?.map Socket.hollow := by
    rw [← List.getElem?_map, ← List.getElem?_map, hst]
  have hwires := congrArg (Option.map Socket.wires) hat
  rw [Option.map_map, Option.map_map] at hwires
  cases hs : ss[p]? with
  | none =>
    cases ht : ts[p]? with
    | none => rfl
    | some t => simp [hs, ht] at hat
  | some s =>
    cases ht : ts[p]? with
    | none => simp [hs, ht] at hat
    | some t => simpa [hs, ht, Socket.hollow] using hwires

theorem pulls_of_outline (hgh : g.outline = h.outline) (k p : Nat) : g.pulls k p = h.pulls k p := by
  have hinputs := congrArg Node.inputs (outline_getD_nodeAt? hgh k)
  rw [pulls, pulls, endsOf_of_outline hgh, wires_getD_of_hollow hinputs]

end Graph

namespace Play

theorem dataPlaces_outline (n : Node) : dataPlaces n.outline = dataPlaces n := by
  simp only [dataPlaces, Node.outline, List.zipIdx_map, List.filter_map, List.map_map]
  rfl

/-- The socket at the place of a data input is one of the data inputs. -/
theorem socket_of_dataPlaces {n : Node} {place : Nat} (h : place ∈ dataPlaces n) :
    ∃ s, n.inputs[place]? = some s ∧ s.isFlow = false := by
  obtain ⟨⟨s, k⟩, hmem, rfl⟩ := List.mem_map.1 h
  obtain ⟨hmem, hflow⟩ := List.mem_filter.1 hmem
  exact ⟨s, List.mem_zipIdx_iff_getElem?.1 hmem, by simpa using hflow⟩

theorem mem_dataPlaces {n : Node} {p : Nat} {s : Socket} (hs : n.inputs[p]? = some s) (hflow : s.isFlow = false) :
    p ∈ dataPlaces n := by
  refine List.mem_map.2 ⟨(s, p), List.mem_filter.2 ⟨?_, by simpa using hflow⟩, rfl⟩
  exact List.mem_zipIdx_iff_getElem?.2 hs

end Play

end FlowGraph
