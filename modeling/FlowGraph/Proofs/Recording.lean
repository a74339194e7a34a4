import FlowGraph.Proofs.Outline

/-!
The record of failures. An engine keeps every failure that is reported to it, the host hears of each, and the node that it
names has its text. What a change of the world adds to the record is a list of failures with the engines that had them.
-/
namespace FlowGraph

open World Play

/-- A failure that the host was told of: which engine had it, and whether the host listened. -/
def Event.failure? : Event → Option (String × Bool × Failure)
  | .failed name isHeard e => some (name, isHeard, e)
  | _ => none

theorem Event.failure?_of_not_isFailed {e : Event} (h : e.isFailed = false) : e.failure? = none := by
  cases e with
  | failed => cases h
  | _ => rfl

/-- What an engine is called, the nodes that it was made with, and whether the host listens. -/
def Engine.card (e : Engine) : String × List NodeRef × Bool := (e.name, e.nodes, e.isObserved)

namespace World

def heard (w : World) : List (String × Bool × Failure) := w.journal.filterMap Event.failure?

/-- What the host is told of a failure of an engine. -/
def notes (w : World) (p : Nat × Failure) : String × Bool × Failure :=
  ((w.engine p.1).name, (w.engine p.1).isObserved, p.2)

/-- The text that a failure of an engine leaves at the node: that of the failure, if the engine knows the node by the name. -/
def textAt (w : World) (x : NodeRef) (p : Nat × Failure) : Option String :=
  match p.2 with
  | .node id _ _ => if w.blamed p.1 id = some x then some p.2.message else none
  | _ => none

def IsThere (w : World) (x : NodeRef) : Prop := ((w.graph x.graph).nodeAt? x.serial).isSome = true

/-- From `v` on to `w` these failures, latest first, were added to the record: each once to those of its engine and once to
what the host heard, and a node has the text of the latest that names it. -/
structure Reported (es : List (Nat × Failure)) (v w : World) : Prop where
  outlined : Outlined v w
  size : w.engines.size = v.engines.size
  card : ∀ j, (w.engine j).card = (v.engine j).card
  failures : ∀ j < v.engines.size,
    (w.engine j).failures = (es.filter fun p => p.1 = j).map (·.2) ++ (v.engine j).failures
  heard : w.heard = es.map v.notes ++ v.heard
  error : ∀ x, v.IsThere x → (w.node x).error = (es.findSome? (v.textAt x)).or (v.node x).error

theorem isThere_iff {v w : World} (h : Outlined v w) (x : NodeRef) : w.IsThere x ↔ v.IsThere x := by
  have hat := congrArg (Graph.nodeAt? · x.serial) (h.graph x.graph)
  simp only [Graph.nodeAt?_outline] at hat
  rw [IsThere, IsThere, ← Option.isSome_map (f := Node.outline), hat, Option.isSome_map]

namespace Reported

variable {es es' : List (Nat × Failure)} {u v w : World} {i : Nat}

theorem name (h : Reported es v w) (j : Nat) : (w.engine j).name = (v.engine j).name := (congrArg Prod.fst (h.card j) :)

theorem nodes (h : Reported es v w) (j : Nat) : (w.engine j).nodes = (v.engine j).nodes :=
  (congrArg (·.2.1) (h.card j) :)

theorem isObserved (h : Reported es v w) (j : Nat) : (w.engine j).isObserved = (v.engine j).isObserved :=
  (congrArg (·.2.2) (h.card j) :)

theorem notes (h : Reported es v w) : w.notes = v.notes := by
  funext p
  rw [World.notes, World.notes, h.name, h.isObserved]

theorem blamed (h : Reported es v w) (j : Nat) (id : String) : w.blamed j id = v.blamed j id := by
  have hid (x : NodeRef) : (w.node x).id = (v.node x).id := (congrArg Node.id (h.outlined.node x) :)
  simp only [World.blamed, h.nodes, hid]

theorem textAt (h : Reported es v w) (x : NodeRef) : w.textAt x = v.textAt x := by
  funext p
  simp only [World.textAt, h.blamed]

theorem refl (w : World) : Reported [] w w :=
  ⟨rfl, rfl, fun _ => rfl, fun _ _ => rfl, rfl, fun _ _ => rfl⟩

theorem trans (h : Reported es u v) (h' : Reported es' v w) : Reported (es' ++ es) u w where
  outlined := h'.outlined.trans h.outlined
  size := h'.size.trans h.size
  card j := (h'.card j).trans (h.card j)
  failures j hj := by
    rw [h'.failures j (by rwa [h.size]), h.failures j hj, List.filter_append, List.map_append, List.append_assoc]
  heard := by rw [h'.heard, h.heard, h.notes, List.map_append, List.append_assoc]
  error x hx := by
    rw [h'.error x ((isThere_iff h.outlined x).2 hx), h.error x hx, h.textAt, List.findSome?_append, Option.or_assoc]

theorem next (h : Reported es u v) (h' : Reported [] v w) : Reported es u w := h.trans h'

/-- A change of anything but the engines, the texts at nodes and the failures that the host heard of. -/
theorem of_engines (ho : Outlined v w) (he : w.engines = v.engines) (hj : w.heard = v.heard)
    (hx : ∀ x, (w.node x).error = (v.node x).error) : Reported [] v w :=
  ⟨ho, by rw [he], fun j => by rw [engine_congr he], fun j _ => by rw [engine_congr he]; rfl, hj, fun x _ => by rw [hx]; rfl⟩

/-- A change that concerns neither graphs nor engines nor what the host heard of. -/
theorem frame (hg : w.graphs = v.graphs) (he : w.engines = v.engines) (hj : w.heard = v.heard) : Reported [] v w := by
  refine of_engines ((show Outlined v v from rfl).frame hg) he hj fun x => ?_
  rw [World.node, World.node, World.graph, World.graph, hg]

theorem record (w : World) {e : Event} (he : e.isFailed = false) : Reported [] w (w.record e) := by
  refine frame rfl rfl ?_
  rw [World.heard, World.record, List.filterMap_cons_none (Event.failure?_of_not_isFailed he)]
  rfl

theorem tell (w : World) (j : Nat) {e : String → Event} (he : ∀ name, (e name).isFailed = false) :
    Reported [] w (w.tell j e) := by
  unfold World.tell
  split
  · exact record w (he _)
  · exact refl w

theorem stamp (w : World) (g : Nat) (v : Value) : Reported [] w (w.stamp g v).2 := by
  refine of_engines ((show Outlined w w from rfl).stamp g v) (engines_stamp w g v) ?_ fun x => by rw [node_stamp]
  unfold World.stamp
  split <;> rfl

theorem stampOutputs (w : World) (g : Nat) (values : List (String × Value)) :
    Reported [] w (w.stampOutputs g values).2 := by
  induction values generalizing w with
  | nil => exact refl w
  | cons p rest ih => exact (stamp w g p.2).next (ih _)

/-- A change of a node that leaves its text alone. -/
theorem modifyNode (w : World) (x : NodeRef) {f : Node → Node} (hf : (f (w.node x)).outline = (w.node x).outline)
    (he : (f (w.node x)).error = (w.node x).error) : Reported [] w (w.modifyNode x f) := by
  refine of_engines ((show Outlined w w from rfl).modifyNode x hf) rfl rfl fun y => ?_
  rw [node_modifyNode]
  split
  · rename_i hy
    rw [← hy.1, he]
  · rfl

/-- A change of a graph that leaves its nodes alone. -/
theorem modifyGraph (w : World) (k : Nat) {f : Graph → Graph} (hf : (f (w.graph k)).outline = (w.graph k).outline)
    (ha : (f (w.graph k)).arena = (w.graph k).arena) : Reported [] w (w.modifyGraph k f) :=
  of_engines ((show Outlined w w from rfl).modifyGraph k hf) rfl rfl fun x => by rw [w.node_modifyGraph ha]

/-- A change of an engine that leaves its record alone. -/
theorem modifyEngine (w : World) (j : Nat) {g : Engine → Engine} (hc : ∀ e, (g e).card = e.card)
    (hf : ∀ e, (g e).failures = e.failures) : Reported [] w (w.modifyEngine j g) := by
  refine ⟨(show Outlined w w from rfl).frame rfl, by simp, fun k => ?_, fun k _ => ?_, rfl, fun x _ => rfl⟩
  · rw [engine_modifyEngine]
    split
    · exact hc _
    · rfl
  · rw [engine_modifyEngine]
    split
    · exact hf _
    · rfl

/-- A failure that is noted is put down once. -/
theorem report (w : World) (j : Nat) (e : Failure) : Reported [(j, e)] w (w.report j e) where
  outlined := (show Outlined w w from rfl).report j e
  size := (Local.report w j e).size
  card k := by
    rw [engine_congr (engines_report w j e), engine_modifyEngine]
    split <;> rfl
  failures k hk := by
    rw [engine_congr (engines_report w j e), engine_modifyEngine]
    by_cases hj : j = k
    · rw [if_pos ⟨hj, by rwa [hj]⟩, List.filter_cons_of_pos (by simpa using hj)]
      rfl
    · rw [if_neg fun h => hj h.1, List.filter_cons_of_neg (by simpa using hj)]
      rfl
  heard := by
    unfold World.report
    cases e with
    | node id type reason =>
      dsimp only
      split <;> rfl
    | _ => rfl
  error x hx := by
    have hnoted (w : World) (j : Nat) (g : Engine → Engine) (e : Event) :
        ((w.modifyEngine j g).record e).node x = w.node x := rfl
    unfold World.report
    rw [hnoted]
    cases e with
    | node id type reason =>
      dsimp only
      split
      · rename_i y hy
        rw [node_modifyNode]
        by_cases hxy : y = x
        · subst hxy
          rw [if_pos ⟨rfl, hx⟩]
          simp [World.textAt, hy]
        · rw [if_neg fun h => hxy h.1]
          simp [World.textAt, hy, hxy]
      · rename_i hnone
        simp [World.textAt, hnone]
    | _ => rfl

end Reported

end World

end FlowGraph
