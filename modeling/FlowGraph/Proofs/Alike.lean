import FlowGraph.Proofs.Growth

/-!
Worlds that differ only in the order of business of one engine: in its queue, in the fiber at work and in
what fibers keep to release each other. Nothing that a behaviour does depends on these.
-/
namespace FlowGraph

namespace Fiber

theorem own_written : Own fun f => { f with isWritten := true } :=
  ⟨fun _ => rfl, fun _ => rfl, fun _ => rfl, fun _ => rfl, fun x y h => by
    simp only [core, mk.injEq] at h ⊢
    simp [h]⟩

theorem own_stop : Own fun f => { f with committed := true } :=
  ⟨fun _ => rfl, fun _ => rfl, fun _ => rfl, fun _ => rfl, fun x y h => by
    simp only [core, mk.injEq] at h ⊢
    simp [h]⟩

theorem own_start : Own fun f => { f with committed := false } :=
  ⟨fun _ => rfl, fun _ => rfl, fun _ => rfl, fun _ => rfl, fun x y h => by
    simp only [core, mk.injEq] at h ⊢
    simp [h]⟩

theorem own_unwind (rest : List (Option NodeRef × Listener)) :
    Own fun f => { f with committed := false, listeners := rest } :=
  ⟨fun _ => rfl, fun _ => rfl, fun _ => rfl, fun _ => rfl, fun x y h => by
    simp only [core, mk.injEq] at h ⊢
    simp [h]⟩

theorem own_count : Own fun f => { f with steps := f.steps + 1 } :=
  ⟨fun _ => rfl, fun _ => rfl, fun _ => rfl, fun _ => rfl, fun x y h => by
    simp only [core, mk.injEq] at h ⊢
    simp [h]⟩

theorem own_depart : Own fun f => { f with next := none, steps := f.steps + 1 } :=
  ⟨fun _ => rfl, fun _ => rfl, fun _ => rfl, fun _ => rfl, fun x y h => by
    simp only [core, mk.injEq] at h ⊢
    simp [h]⟩

theorem own_drop : Own fun f => { f with next := none, listeners := [] } :=
  ⟨fun _ => rfl, fun _ => rfl, fun _ => rfl, fun _ => rfl, fun x y h => by
    simp only [core, mk.injEq] at h ⊢
    simp [h]⟩

end Fiber

/-- An engine without its order of business. -/
def Engine.core (e : Engine) : Engine :=
  { e with fibers := e.fibers.map Fiber.core, queue := [], current := none, steps := 0 }

namespace Engine

variable {a b : Engine}

theorem core_fibers (h : a.core = b.core) : a.fibers.map Fiber.core = b.fibers.map Fiber.core :=
  (congrArg Engine.fibers h :)

theorem size_of_core (h : a.core = b.core) : a.fibers.size = b.fibers.size := by
  have hs := congrArg Array.size (core_fibers h)
  simpa using hs

theorem fiber_of_core (h : a.core = b.core) (f : Nat) : (a.fiber f).core = (b.fiber f).core := by
  have hf := congrArg (·[f]?) (core_fibers h)
  simp only [Array.getElem?_map] at hf
  simp only [fiber]
  cases ha : a.fibers[f]? with
  | none =>
    cases hb : b.fibers[f]? with
    | none => rfl
    | some y => simp [ha, hb] at hf
  | some x =>
    cases hb : b.fibers[f]? with
    | none => simp [ha, hb] at hf
    | some y => simpa [ha, hb] using hf

theorem core_withFibers (h : a.core = b.core) {xs ys : Array Fiber}
    (hf : xs.map Fiber.core = ys.map Fiber.core) :
    { a with fibers := xs }.core = { b with fibers := ys }.core := by
  simp only [core, Engine.mk.injEq] at h ⊢
  simp only [h, hf, and_self]

theorem core_modifyFiber (h : a.core = b.core) (k : Nat) {g : Fiber → Fiber}
    (hg : ∀ x y : Fiber, x.core = y.core → (g x).core = (g y).core) :
    (a.modifyFiber k g).core = (b.modifyFiber k g).core := by
  refine core_withFibers h ?_
  apply Array.ext_getElem?
  intro j
  have hj := congrArg (·[j]?) (core_fibers h)
  simp only [Array.getElem?_map, Array.getElem?_modify] at hj ⊢
  split
  · cases ha : a.fibers[j]? with
    | none =>
      cases hb : b.fibers[j]? with
      | none => rfl
      | some y => simp [ha, hb] at hj
    | some x =>
      cases hb : b.fibers[j]? with
      | none => simp [ha, hb] at hj
      | some y =>
        have hxy : x.core = y.core := by simpa [ha, hb] using hj
        simp [hg x y hxy]
  · exact hj

theorem core_push (h : a.core = b.core) (f : Fiber) :
    { a with fibers := a.fibers.push f }.core = { b with fibers := b.fibers.push f }.core :=
  core_withFibers h (by simp [core_fibers h])

theorem core_follow (h : a.core = b.core) (f : Nat) (routes : List Route) :
    (a.follow f routes).core = (b.follow f routes).core := by
  match routes with
  | [] => exact h
  | [r] =>
    refine core_modifyFiber h f ?_
    intro x y hxy
    simp only [Fiber.core, Fiber.mk.injEq] at hxy ⊢
    simp [hxy]
  | r :: r' :: rs =>
    have hentry : (a.fiber f).entry = (b.fiber f).entry := (congrArg Fiber.entry (fiber_of_core h f) :)
    have hwritten : (a.fiber f).isWritten = (b.fiber f).isWritten := (congrArg Fiber.isWritten (fiber_of_core h f) :)
    have hchildren : a.children f (r :: r' :: rs) = b.children f (r :: r' :: rs) := by
      simp only [children, hentry, hwritten]
    have happ : { a with fibers := a.fibers ++ (a.children f (r :: r' :: rs)).toArray }.core =
        { b with fibers := b.fibers ++ (b.children f (r :: r' :: rs)).toArray }.core :=
      core_withFibers h (by rw [hchildren]; simp [core_fibers h])
    have hmod := core_modifyFiber happ f (g := fun x =>
        { x with isWritten := true, pending := x.pending + (r :: r' :: rs).length }) (by
      intro x y hxy
      simp only [Fiber.core, Fiber.mk.injEq] at hxy ⊢
      simp [hxy])
    exact hmod

theorem core_commit (h : a.core = b.core) (f : Nat) (node : NodeRef) (l : Option Listener) (wires : List Wire) :
    (a.commit f node l wires).core = (b.commit f node l wires).core := by
  refine core_follow (core_modifyFiber h f ?_) f _
  intro x y hxy
  simp only [Fiber.core, Fiber.commit, Fiber.mk.injEq] at hxy ⊢
  simp [hxy]

theorem kids_of_core (h : a.core = b.core) (p start : Nat) :
    a.kids p start = b.kids p start := by
  have hparent (k : Nat) : (a.fiber k).parent = (b.fiber k).parent :=
    (congrArg Fiber.parent (fiber_of_core h k) :)
  simp only [kids, size_of_core h, hparent]

theorem core_modify (e : Engine) (k : Nat) {g h : Fiber → Fiber} (hg : ∀ x, (g x).core = (h x).core) :
    (e.modifyFiber k g).core = (e.modifyFiber k h).core := by
  refine core_withFibers rfl ?_
  apply Array.ext_getElem?
  intro j
  simp only [Array.getElem?_map, Array.getElem?_modify]
  split
  · cases e.fibers[j]? <;> simp [hg]
  · rfl

theorem core_alter (e : Engine) (k : Nat) {g : Fiber → Fiber} (hg : ∀ x, (g x).core = x.core) :
    (e.modifyFiber k g).core = e.core := by
  have hid : e.fibers.modify k id = e.fibers := by
    apply Array.ext_getElem?
    intro j
    rw [Array.getElem?_modify]
    split <;> simp
  rw [core_modify e k (h := id) hg, modifyFiber, hid]

theorem core_childFinished (e : Engine) (p : Nat) : (e.childFinished p).core = e.core := by
  have hcore : (e.modifyFiber p fun f => { f with pending := f.pending - 1 }).core = e.core :=
    core_alter e p fun _ => rfl
  unfold childFinished
  simp only
  split
  · exact hcore
  · exact hcore

/-- The end of a fiber is order of business. -/
theorem core_finish (e : Engine) (f : Nat) : (e.finish f).core = e.core := by
  have hcore : (e.modifyFiber f fun f => { f with finished := true }).core = e.core := core_alter e f fun _ => rfl
  unfold finish
  simp only
  split
  · rfl
  · split
    · rw [core_childFinished, hcore]
    · exact hcore

theorem core_abort (e : Engine) (f : Nat) :
    (e.abort f).core = (e.modifyFiber f fun f => { f with next := none, listeners := [] }).core := by
  rw [abort, core_finish]
  exact core_modify e f fun _ => rfl

end Engine

@[simp] theorem Graph.arena_stamp (g : Graph) (v : Value) : (g.stamp v).1.arena = g.arena := by
  unfold stamp
  split <;> rfl

namespace World

@[simp] theorem size_modifyEngine (w : World) (j : Nat) (g : Engine → Engine) :
    (w.modifyEngine j g).engines.size = w.engines.size := by
  simp [modifyEngine]

theorem engine_modifyEngine (w : World) (j k : Nat) (g : Engine → Engine) :
    (w.modifyEngine j g).engine k = if j = k ∧ j < w.engines.size then g (w.engine k) else w.engine k := by
  simp only [engine, modifyEngine, Array.getElem?_modify]
  by_cases hk : j = k
  · by_cases hj : j < w.engines.size
    · have hk' : k < w.engines.size := hk ▸ hj
      simp [hk, hk']
    · have hk' : ¬ k < w.engines.size := hk ▸ hj
      simp [hk, hk']
  · simp [hk]

theorem engine_modifyEngine_of_ne {j k : Nat} (h : j ≠ k) (w : World) (g : Engine → Engine) :
    (w.modifyEngine j g).engine k = w.engine k := by
  rw [engine_modifyEngine, if_neg fun hk => h hk.1]

theorem modifyEngine_out {w : World} {j : Nat} (h : ¬ j < w.engines.size) (g : Engine → Engine) :
    w.modifyEngine j g = w := by
  have hsame : w.engines.modify j g = w.engines := by
    apply Array.ext_getElem?
    intro k
    rw [Array.getElem?_modify]
    split
    · rename_i hk
      subst hk
      simp [h]
    · rfl
  rw [modifyEngine, hsame]

@[simp] theorem engine_modifyEngine_self {w : World} {j : Nat} (h : j < w.engines.size) (g : Engine → Engine) :
    (w.modifyEngine j g).engine j = g (w.engine j) := by
  rw [engine_modifyEngine, if_pos ⟨rfl, h⟩]

theorem modifyEngine_modifyEngine (w : World) (j : Nat) (g g' : Engine → Engine) :
    (w.modifyEngine j g).modifyEngine j g' = w.modifyEngine j fun e => g' (g e) := by
  simp only [modifyEngine, Engine.modify_modify]

/-- A change of one node is seen at that node, if it is there. -/
theorem node_modifyNode (w : World) (x y : NodeRef) (f : Node → Node) :
    (w.modifyNode x f).node y =
      if x = y ∧ ((w.graph x.graph).nodeAt? x.serial).isSome then f (w.node y) else w.node y := by
  simp only [World.node, World.graph, modifyNode, modifyGraph, Array.getElem?_modify, Graph.nodeAt?]
  cases hx : w.graphs[y.graph]? with
  | none =>
    have hnone (k : Nat) : ((default : Graph).arena)[k]? = none := by
      show (#[] : Array Node)[k]? = none
      simp
    by_cases hxy : x = y
    · simp [hxy, hx, hnone]
    · simp [hxy, hnone]
  | some g =>
    by_cases hg : x.graph = y.graph
    · by_cases hs : x.serial = y.serial
      · have hxy : x = y := by
          cases x
          cases y
          simp_all
        cases hn : g.arena[y.serial]? <;> simp [Graph.modifyNode, Array.getElem?_modify, hxy, hn, hx]
      · have hxy : x ≠ y := fun h => hs (by rw [h])
        simp [Graph.modifyNode, Array.getElem?_modify, hs, hxy, hg]
    · have hxy : x ≠ y := fun h => hg (by rw [h])
      simp [hg, hxy]

theorem graph_modifyGraph (w : World) (k j : Nat) (f : Graph → Graph) :
    (w.modifyGraph k f).graph j = if k = j ∧ k < w.graphs.size then f (w.graph j) else w.graph j := by
  simp only [World.graph, modifyGraph, Array.getElem?_modify]
  by_cases hk : k = j
  · subst hk
    by_cases hsize : k < w.graphs.size
    · simp [hsize]
    · simp [hsize]
  · simp [hk]

/-- Nodes stay what they are as long as the arena does. -/
theorem node_modifyGraph (w : World) {k : Nat} {f : Graph → Graph} (hf : (f (w.graph k)).arena = (w.graph k).arena)
    (x : NodeRef) : (w.modifyGraph k f).node x = w.node x := by
  rw [node, node, graph_modifyGraph]
  split
  · rename_i hk
    rw [Graph.nodeAt?, ← hk.1, hf, Graph.nodeAt?]
  · rfl

@[simp] theorem node_stamp (w : World) (g : Nat) (v : Value) (x : NodeRef) : (w.stamp g v).2.node x = w.node x := by
  unfold stamp
  split
  · exact w.node_modifyGraph (Graph.arena_stamp _ _) x
  · rfl

@[simp] theorem node_tell (w : World) (i : Nat) (e : String → Event) (x : NodeRef) : (w.tell i e).node x = w.node x := by
  unfold tell
  split <;> rfl

/-- Equal outcomes in related worlds: both computations went through or both failed. -/
theorem outcomes {ε α : Type} {R : World → World → Prop} {p q : Except ε α × World} (h : p.1 = q.1 ∧ R p.2 q.2) :
    (∃ a v s, p = (.ok a, v) ∧ q = (.ok a, s) ∧ R v s) ∨
      ∃ e v s, p = (.error e, v) ∧ q = (.error e, s) ∧ R v s := by
  obtain ⟨x, v⟩ := p
  obtain ⟨y, s⟩ := q
  obtain ⟨rfl, hR⟩ := h
  cases x with
  | ok a => exact .inl ⟨a, v, s, rfl, rfl, hR⟩
  | error e => exact .inr ⟨e, v, s, rfl, rfl, hR⟩

/-- The world without its engines. -/
def outside (w : World) : World := { w with engines := #[] }

end World

/-- The worlds differ at most in the order of business of the engine. -/
structure Alike (i : Nat) (w r : World) : Prop where
  outside : w.outside = r.outside
  size : w.engines.size = r.engines.size
  others : ∀ j, j ≠ i → w.engine j = r.engine j
  core : (w.engine i).core = (r.engine i).core

namespace Alike

variable {i j : Nat} {v w r : World}

theorem refl (i : Nat) (w : World) : Alike i w w := ⟨rfl, rfl, fun _ _ => rfl, rfl⟩

theorem symm (h : Alike i w r) : Alike i r w :=
  ⟨h.outside.symm, h.size.symm, fun j hj => (h.others j hj).symm, h.core.symm⟩

theorem trans (h : Alike i v w) (h' : Alike i w r) : Alike i v r :=
  ⟨h.outside.trans h'.outside, h.size.trans h'.size, fun j hj => (h.others j hj).trans (h'.others j hj),
    h.core.trans h'.core⟩

/-- All engines have the same core. -/
theorem core_engine (h : Alike i w r) (j : Nat) : (w.engine j).core = (r.engine j).core := by
  by_cases hj : j = i
  · rw [hj]
    exact h.core
  · rw [h.others j hj]

section Observations

theorem graphs (h : Alike i w r) : w.graphs = r.graphs := (congrArg World.graphs h.outside :)
theorem disposers (h : Alike i w r) : w.disposers = r.disposers := (congrArg World.disposers h.outside :)
theorem subscriptions (h : Alike i w r) : w.subscriptions = r.subscriptions :=
  (congrArg World.subscriptions h.outside :)
theorem issued (h : Alike i w r) : w.issued = r.issued := (congrArg World.issued h.outside :)
theorem clock (h : Alike i w r) : w.clock = r.clock := (congrArg World.clock h.outside :)
theorem isLooping (h : Alike i w r) : w.isLooping = r.isLooping := (congrArg World.isLooping h.outside :)
theorem scheduler (h : Alike i w r) : w.scheduler = r.scheduler := (congrArg World.scheduler h.outside :)
theorem store (h : Alike i w r) : w.store = r.store := (congrArg World.store h.outside :)

theorem graph (h : Alike i w r) (g : Nat) : w.graph g = r.graph g := by
  rw [World.graph, World.graph, h.graphs]

theorem node (h : Alike i w r) (x : NodeRef) : w.node x = r.node x := by
  rw [World.node, World.node, h.graph]

theorem nodeFailure (h : Alike i w r) (x : NodeRef) (reason : NodeReason) :
    w.nodeFailure x reason = r.nodeFailure x reason := by
  rw [World.nodeFailure, World.nodeFailure, h.node]

theorem isObserved (h : Alike i w r) (j : Nat) : (w.engine j).isObserved = (r.engine j).isObserved :=
  (congrArg Engine.isObserved (h.core_engine j) :)
theorem name (h : Alike i w r) (j : Nat) : (w.engine j).name = (r.engine j).name :=
  (congrArg Engine.name (h.core_engine j) :)
theorem nodes (h : Alike i w r) (j : Nat) : (w.engine j).nodes = (r.engine j).nodes :=
  (congrArg Engine.nodes (h.core_engine j) :)
theorem eventNodes (h : Alike i w r) (j : Nat) : (w.engine j).eventNodes = (r.engine j).eventNodes :=
  (congrArg Engine.eventNodes (h.core_engine j) :)
theorem operations (h : Alike i w r) (j : Nat) : (w.engine j).operations = (r.engine j).operations :=
  (congrArg Engine.operations (h.core_engine j) :)
theorem pending (h : Alike i w r) (j : Nat) : (w.engine j).pending = (r.engine j).pending :=
  (congrArg Engine.pending (h.core_engine j) :)
theorem isDisposed (h : Alike i w r) (j : Nat) : (w.engine j).isDisposed = (r.engine j).isDisposed :=
  (congrArg Engine.isDisposed (h.core_engine j) :)

theorem operation (h : Alike i w r) (j o : Nat) : (w.engine j).operation o = (r.engine j).operation o := by
  rw [Engine.operation, Engine.operation, h.operations]

theorem size_fibers (h : Alike i w r) (j : Nat) : (w.engine j).fibers.size = (r.engine j).fibers.size :=
  Engine.size_of_core (h.core_engine j)

theorem core_fiber (h : Alike i w r) (j f : Nat) : ((w.engine j).fiber f).core = ((r.engine j).fiber f).core :=
  Engine.fiber_of_core (h.core_engine j) f

theorem committed (h : Alike i w r) (j f : Nat) :
    ((w.engine j).fiber f).committed = ((r.engine j).fiber f).committed :=
  (congrArg Fiber.committed (h.core_fiber j f) :)

theorem due (h : Alike i w r) (j f : Nat) : ((w.engine j).fiber f).due = ((r.engine j).fiber f).due :=
  (congrArg Fiber.due (h.core_fiber j f) :)

theorem kids(h : Alike i w r) (j p start : Nat) : (w.engine j).kids p start = (r.engine j).kids p start :=
  Engine.kids_of_core (h.core_engine j) p start

theorem blamed (h : Alike i w r) (j : Nat) (id : String) : w.blamed j id = r.blamed j id := by
  have hid : (fun x : NodeRef => decide ((w.node x).id = id)) = fun x => decide ((r.node x).id = id) := by
    funext x
    rw [h.node]
  rw [World.blamed, World.blamed, h.nodes, hid]

end Observations

/-- A change outside of the engines that sees nothing of them. -/
theorem frame (h : Alike i w r) {F : World → World} (hF : ∀ v, (F v).engines = v.engines)
    (hout : ∀ v : World, (F v).outside = F v.outside) : Alike i (F w) (F r) := by
  have hengine (v : World) (j : Nat) : (F v).engine j = v.engine j := by rw [World.engine, hF, World.engine]
  refine ⟨?_, ?_, ?_, ?_⟩
  · rw [hout, hout, h.outside]
  · rw [hF, hF, h.size]
  · intro j hj
    rw [hengine, hengine, h.others j hj]
  · rw [hengine, hengine, h.core]

/-- A change of an engine that does not see the order of business. -/
theorem modifyEngine (h : Alike i w r) (j : Nat) {g : Engine → Engine}
    (hg : ∀ a b : Engine, a.core = b.core → (g a).core = (g b).core) :
    Alike i (w.modifyEngine j g) (r.modifyEngine j g) := by
  refine ⟨h.outside, by simp [h.size], ?_, ?_⟩
  · intro k hk
    rw [World.engine_modifyEngine, World.engine_modifyEngine, h.size, h.others k hk]
  · rw [World.engine_modifyEngine, World.engine_modifyEngine, h.size]
    split
    · exact hg _ _ h.core
    · exact h.core

/-- A change of the order of business alone. -/
theorem arrange (h : Alike i w r) {g : Engine → Engine} (hg : ∀ e, (g e).core = e.core) :
    Alike i (w.modifyEngine i g) r := by
  refine ⟨h.outside, by simp [h.size], ?_, ?_⟩
  · intro j hj
    rw [World.engine_modifyEngine_of_ne (Ne.symm hj), h.others j hj]
  · rw [World.engine_modifyEngine]
    split
    · rw [hg, h.core]
    · exact h.core

theorem of_core (w : World) {g g' : Engine → Engine} (hg : ∀ e, (g e).core = (g' e).core) :
    Alike i (w.modifyEngine i g) (w.modifyEngine i g') := by
  refine ⟨rfl, by simp, ?_, ?_⟩
  · intro j hj
    rw [World.engine_modifyEngine_of_ne (Ne.symm hj), World.engine_modifyEngine_of_ne (Ne.symm hj)]
  · rw [World.engine_modifyEngine, World.engine_modifyEngine]
    split
    · exact hg _
    · rfl

theorem modifyNode (h : Alike i w r) (x : NodeRef) (f : Node → Node) :
    Alike i (w.modifyNode x f) (r.modifyNode x f) :=
  h.frame (F := (·.modifyNode x f)) (fun _ => rfl) fun _ => rfl

theorem modifyGraph (h : Alike i w r) (g : Nat) (f : Graph → Graph) :
    Alike i (w.modifyGraph g f) (r.modifyGraph g f) :=
  h.frame (F := (·.modifyGraph g f)) (fun _ => rfl) fun _ => rfl

theorem record (h : Alike i w r) (e : Event) : Alike i (w.record e) (r.record e) :=
  h.frame (F := (·.record e)) (fun _ => rfl) fun _ => rfl

theorem stamp (h : Alike i w r) (g : Nat) (v : Value) :
    (w.stamp g v).1 = (r.stamp g v).1 ∧ Alike i (w.stamp g v).2 (r.stamp g v).2 := by
  unfold World.stamp
  rw [h.graph]
  split
  · exact ⟨rfl, h.modifyGraph g _⟩
  · exact ⟨rfl, h⟩

theorem stampOutputs (h : Alike i w r) (g : Nat) (values : List (String × Value)) :
    (w.stampOutputs g values).1 = (r.stampOutputs g values).1 ∧
      Alike i (w.stampOutputs g values).2 (r.stampOutputs g values).2 := by
  induction values generalizing w r with
  | nil => exact ⟨rfl, h⟩
  | cons p rest ih =>
    obtain ⟨name, v⟩ := p
    obtain ⟨hv, hs⟩ := h.stamp g v
    obtain ⟨hrest, hs⟩ := ih hs
    exact ⟨by simp only [World.stampOutputs, hv, hrest], hs⟩

theorem tell (h : Alike i w r) (j : Nat) (e : String → Event) : Alike i (w.tell j e) (r.tell j e) := by
  unfold World.tell
  rw [h.isObserved, h.name]
  split
  · exact h.record _
  · exact h

theorem tellEnded (h : Alike i w r) (j : Nat) (x : NodeRef) : Alike i (w.tellEnded j x) (r.tellEnded j x) := by
  unfold World.tellEnded
  rw [h.node]
  exact h.tell j _

/-- A change of an engine that leaves its fibers alone. -/
theorem modifyFace (h : Alike i w r) (j : Nat) {g : Engine → Engine}
    (hg : ∀ e : Engine, (g e).core = (g e.core).core) :
    Alike i (w.modifyEngine j g) (r.modifyEngine j g) := by
  refine h.modifyEngine j ?_
  intro a b hab
  rw [hg a, hab, ← hg b]

theorem blame (h : Alike i w r) (j : Nat) (id text : String) :
    Alike i (match w.blamed j id with
      | some x => w.modifyNode x fun n => { n with error := some text }
      | none => w)
      (match r.blamed j id with
      | some x => r.modifyNode x fun n => { n with error := some text }
      | none => r) := by
  rw [h.blamed]
  split
  · exact h.modifyNode _ _
  · exact h

/-- A failure is noted alike. -/
theorem report (h : Alike i w r) (j : Nat) (f : Failure) : Alike i (w.report j f) (r.report j f) := by
  have hpush {w r : World} (h : Alike i w r) :
      Alike i ((w.modifyEngine j fun e => { e with failures := f :: e.failures }).record
          (.failed (w.engine j).name (w.engine j).isObserved f))
        ((r.modifyEngine j fun e => { e with failures := f :: e.failures }).record
          (.failed (r.engine j).name (r.engine j).isObserved f)) := by
    rw [h.name, h.isObserved]
    refine (h.modifyFace j ?_).record _
    intro e
    simp [Engine.core, Fiber.core, Function.comp_def]
  unfold World.report
  cases f with
  | node id type reason => exact hpush (h.blame j id _)
  | _ => exact hpush h

theorem writeOutputs (h : Alike i w r) (x : NodeRef) (values : List (String × Value)) :
    (w.writeOutputs x values).1 = (r.writeOutputs x values).1 ∧
      Alike i (w.writeOutputs x values).2 (r.writeOutputs x values).2 := by
  induction values generalizing w r with
  | nil => exact ⟨rfl, h⟩
  | cons p rest ih =>
    obtain ⟨name, v⟩ := p
    simp only [World.writeOutputs, h.node]
    split
    · exact ih (h.modifyNode x _)
    · exact ⟨rfl, h⟩

theorem modifyFiber (h : Alike i w r) (j k : Nat) {g : Fiber → Fiber} (hg : Fiber.Own g) :
    Alike i (w.modifyEngine j (·.modifyFiber k g)) (r.modifyEngine j (·.modifyFiber k g)) :=
  h.modifyEngine j fun _ _ hab => Engine.core_modifyFiber hab k hg.core

/-- What a trigger carries is written alike, and fails alike. -/
theorem applyEntry (h : Alike i w r) (j f : Nat) :
    (w.applyEntry j f).1 = (r.applyEntry j f).1 ∧ Alike i (w.applyEntry j f).2 (r.applyEntry j f).2 := by
  unfold World.applyEntry
  rw [h.due]
  have hmarked := h.modifyFiber j f Fiber.own_written
  dsimp only
  split
  · exact ⟨rfl, hmarked⟩
  · rename_i x values _
    obtain ⟨_, v, s, hp, hq, hal⟩ | ⟨e, v, s, hp, hq, hal⟩ := World.outcomes (hmarked.writeOutputs x values)
    · simp only [hp, hq]
      exact ⟨trivial, hal⟩
    · simp only [hp, hq, hal.nodeFailure]
      exact ⟨trivial, hal⟩

theorem commitRefusal? (h : Alike i w r) (j f : Nat) (x : NodeRef) (output : String) :
    w.commitRefusal? j f x output = r.commitRefusal? j f x output := by
  unfold World.commitRefusal?
  rw [h.committed, h.node, h.nodeFailure, h.nodeFailure]

theorem wiresAt (h : Alike i w r) (x : NodeRef) (output : String) : w.wiresAt x output = r.wiresAt x output := by
  unfold World.wiresAt
  rw [h.node]

theorem commitFiber (h : Alike i w r) (j f : Nat) (x : NodeRef) (output : String) (l : Option Listener) :
    (w.commitFiber j f x output l).1 = (r.commitFiber j f x output l).1 ∧
      Alike i (w.commitFiber j f x output l).2 (r.commitFiber j f x output l).2 := by
  unfold World.commitFiber
  rw [h.commitRefusal?, h.wiresAt]
  split
  · exact ⟨rfl, h⟩
  · exact ⟨rfl, h.modifyEngine j fun _ _ hab => Engine.core_commit hab f x l _⟩

theorem endFiber (h : Alike i w r) (j f : Nat) (x : NodeRef) :
    (w.endFiber j f x).1 = (r.endFiber j f x).1 ∧ Alike i (w.endFiber j f x).2 (r.endFiber j f x).2 := by
  unfold World.endFiber
  rw [h.committed, h.nodeFailure]
  split
  · exact ⟨rfl, h⟩
  · exact ⟨rfl, h.modifyFiber j f Fiber.own_stop⟩

theorem notify (h : Alike i w r) (j : Nat) :
    Alike i (w.modifyEngine j Engine.notify) (r.modifyEngine j Engine.notify) :=
  h.modifyFace j fun e => by simp [Engine.notify, Engine.core, Fiber.core, Function.comp_def]

/-- A fiber that is the same in both worlds is put into the queue of both or of none. -/
theorem enqueue (h : Alike i w r) {j f : Nat} (hf : (w.engine j).fiber f = (r.engine j).fiber f) :
    Alike i (w.enqueue j f) (r.enqueue j f) := by
  unfold World.enqueue
  rw [hf]
  simp only
  split
  · obtain ⟨_, v, s, hp, hq, hal⟩ | ⟨e, v, s, hp, hq, hal⟩ := World.outcomes (h.applyEntry j f)
    · simp only [hp, hq]
      exact hal.notify j
    · simp only [hp, hq]
      exact hal.report j e
  · split
    · exact h.notify j
    · refine h.modifyFace j ?_
      intro e
      simp [Engine.notify, Engine.core, Fiber.core, Function.comp_def]

/-- The fiber of a new path is the same in both worlds. -/
theorem fiber_pushed (h : Alike i w r) (j : Nat) (f : Fiber) (x : NodeRef) (l : Option Listener)
    (wires : List Wire) {v s : World}
    (hv : v = (w.modifyEngine j fun e => { e with fibers := e.fibers.push f }).modifyEngine j
      (·.commit (w.engine j).fibers.size x l wires))
    (hs : s = (r.modifyEngine j fun e => { e with fibers := e.fibers.push f }).modifyEngine j
      (·.commit (w.engine j).fibers.size x l wires)) :
    (v.engine j).fiber (w.engine j).fibers.size = (s.engine j).fiber (w.engine j).fibers.size := by
  by_cases hj : j < w.engines.size
  · have hfiber (e : Engine) (n : Nat) (hn : n = e.fibers.size) :
        (({ e with fibers := e.fibers.push f } : Engine).commit n x l wires).fiber n = Engine.onto x l wires f := by
      subst hn
      have hlt : e.fibers.size < ({ e with fibers := e.fibers.push f } : Engine).fibers.size := by simp
      rw [Engine.commit_eq hlt]
      simp [Engine.fiber, Array.getElem?_append, Array.getElem_modify]
    have hj' : j < r.engines.size := h.size ▸ hj
    rw [hv, hs, World.engine_modifyEngine_self (by simpa using hj), World.engine_modifyEngine_self hj,
      World.engine_modifyEngine_self (by simpa using hj'), World.engine_modifyEngine_self hj',
      hfiber _ _ rfl, hfiber _ _ (h.size_fibers j)]
  · have hj' : ¬ j < r.engines.size := h.size ▸ hj
    have hv' : v.engine j = default := by
      simp [hv, hj, World.engine]
    have hs' : s.engine j = default := by
      simp [hs, hj', World.engine]
    rw [hv', hs']

/-- A path begins alike. -/
theorem begin (h : Alike i w r) (j : Nat) (x : NodeRef) (output : String) (l : Option Listener)
    (outputs : List (String × Value)) : Alike i (w.begin j x output l outputs) (r.begin j x output l outputs) := by
  unfold World.begin
  rw [h.isDisposed]
  split
  · exact h
  · obtain ⟨hout, hal⟩ := h.stampOutputs x.graph outputs
    simp only [hout]
    generalize (w.stampOutputs x.graph outputs).2 = v at hal ⊢
    generalize (r.stampOutputs x.graph outputs).2 = s at hal ⊢
    generalize (r.stampOutputs x.graph outputs).1 = values
    rw [← hal.size_fibers j]
    generalize hfiber : ({ entry := if values.isEmpty then none else some (x, (Table.ofList values).entries) }
      : Fiber) = f
    have hpush := hal.modifyEngine j (g := fun e => { e with fibers := e.fibers.push f })
      fun a b hab => Engine.core_push hab f
    obtain ⟨_, v', s', hp, hq, hal'⟩ | ⟨e, v', s', hp, hq, hal'⟩ :=
      World.outcomes (hpush.commitFiber j (v.engine j).fibers.size x output l)
    · simp only [hp, hq]
      refine hal'.enqueue ?_
      unfold World.commitFiber at hp hq
      split at hp
      · cases hp
      · split at hq
        · cases hq
        · cases hp
          cases hq
          rw [hpush.wiresAt]
          exact hal.fiber_pushed j f x l _ rfl rfl
    · simp only [hp, hq]
      exact hal'.report j e

theorem outputOf (h : Alike i w r) (x : NodeRef) : w.outputOf x = r.outputOf x := by
  simp only [World.outputOf, h.node, h.nodeFailure]

/-- Which output an operation goes on with is found alike. -/
theorem chooseOutput (h : Alike i w r) (x : NodeRef) (output : Option String) :
    (w.chooseOutput x output).2 = (r.chooseOutput x output).2 ∧
      Alike i (w.chooseOutput x output).1 (r.chooseOutput x output).1 := by
  have hforget : Alike i (if output.isNone then w.modifyNode x fun n => { n with lastOutput := none } else w)
      (if output.isNone then r.modifyNode x fun n => { n with lastOutput := none } else r) := by
    split
    · exact h.modifyNode x _
    · exact h
  unfold World.chooseOutput
  simp only
  generalize (if output.isNone then w.modifyNode x fun n => { n with lastOutput := none } else w) = v at hforget ⊢
  generalize (if output.isNone then r.modifyNode x fun n => { n with lastOutput := none } else r) = s at hforget ⊢
  rw [hforget.outputOf]
  split
  · exact ⟨rfl, hforget⟩
  · rw [hforget.node, hforget.nodeFailure]
    split
    · exact ⟨rfl, hforget.modifyNode x _⟩
    · exact ⟨rfl, hforget⟩

/-- An operation is completed alike. -/
theorem complete (h : Alike i w r) (j o : Nat) (output : Option String) :
    Alike i (w.complete j o output) (r.complete j o output) := by
  have hgone := h.modifyFace j (g := fun e => { e with pending := e.pending.erase o })
    fun e => by simp [Engine.core, Fiber.core, Function.comp_def]
  unfold World.complete
  simp only
  generalize w.modifyEngine j (fun e => { e with pending := e.pending.erase o }) = v at hgone ⊢
  generalize r.modifyEngine j (fun e => { e with pending := e.pending.erase o }) = s at hgone ⊢
  rw [hgone.isDisposed, hgone.operation]
  split
  · exact hgone
  · obtain ⟨heq, hal⟩ := hgone.chooseOutput ((s.engine j).operation o).node output
    generalize v.chooseOutput ((s.engine j).operation o).node output = p at heq hal ⊢
    generalize s.chooseOutput ((s.engine j).operation o).node output = q at heq hal ⊢
    obtain ⟨v', x⟩ := p
    obtain ⟨s', y⟩ := q
    simp only at heq hal
    subst heq
    cases x with
    | error e => exact hal.report j e
    | ok name => exact (hal.begin j _ name none []).tellEnded j _

/-- An operation changes alike in both worlds. -/
theorem modifyOperation (h : Alike i w r) (j o : Nat) (f : Operation → Operation) :
    Alike i (w.modifyEngine j (·.modifyOperation o f)) (r.modifyEngine j (·.modifyOperation o f)) :=
  h.modifyFace j fun e => by simp [Engine.modifyOperation, Engine.core, Fiber.core, Function.comp_def]

theorem finishOperation (h : Alike i w r) (j o : Nat) (output : Option String) :
    Alike i (w.finishOperation j o output) (r.finishOperation j o output) := by
  unfold World.finishOperation
  rw [h.operation, h.operations]
  simp only [Bool.false_eq_true, if_false]
  split
  · exact h
  · exact (h.modifyOperation j o _).complete j o output

theorem subscribe (h : Alike i w r) (t : Topic) (x : Handler) :
    (w.subscribe t x).1 = (r.subscribe t x).1 ∧ Alike i (w.subscribe t x).2 (r.subscribe t x).2 := by
  refine ⟨by simp only [World.subscribe, h.issued], ?_⟩
  exact h.frame (F := fun w => (w.subscribe t x).2) (fun _ => rfl) fun _ => rfl

theorem unsubscribe (h : Alike i w r) (serial : Nat) : Alike i (w.unsubscribe serial) (r.unsubscribe serial) :=
  h.frame (F := (·.unsubscribe serial)) (fun _ => rfl) fun _ => rfl

end Alike

end FlowGraph
