import FlowGraph.Proofs.Contained
import FlowGraph.Proofs.Cycles
import FlowGraph.Proofs.Standard
import FlowGraph.Proofs.Yields
import Mathlib.Data.List.Nodup

/-!
Cycles met while inputs are resolved. Main statement: in a graph that was built by editing, resolving the inputs of a
node comes to an end, fails by meeting a node again only if function nodes above it draw on each other in a
round, and does fail if they do and nothing else goes wrong before.
-/
namespace FlowGraph

open World Play Relation

/-- A node was met again on the way from it. -/
def Failure.IsCycle (e : Failure) : Prop := ∃ id nodeType label, e = .node id nodeType (.cycle label)

theorem Failure.not_isCycle_fault (f : Fault) : ¬ (Failure.fault f).IsCycle := by
  rintro ⟨_, _, _, h⟩
  cases h

theorem Failure.not_isCycle_node {id nodeType : String} {reason : NodeReason} (h : ∀ label, reason ≠ .cycle label) :
    ¬ (Failure.node id nodeType reason).IsCycle := by
  rintro ⟨_, _, label, heq⟩
  cases heq
  exact h label rfl

namespace Play

/-- The computation does not fail by meeting a node again. -/
abbrev Onwards {α : Type} (x : Play α) : Prop := Yields (fun _ => True) (fun e => ¬ e.IsCycle) x fun _ => True

namespace Onwards

variable {α β : Type}

theorem of_throw (f : Fault) : Onwards (throw (.fault f) : Play α) := Yields.of_throw (Failure.not_isCycle_fault f)

theorem of_pure (a : α) : Onwards (pure a) := Yields.of_pure trivial

theorem of_modify (f : World → World) : Onwards (modify f) := Yields.of_modify fun _ _ => trivial

theorem bind {x : Play α} {k : α → Play β} (hx : Onwards x) (hk : ∀ a, Onwards (k a)) : Onwards (x >>= k) :=
  Yields.bind hx fun a _ => hk a

theorem look {k : World → Play β} (hk : ∀ w, Onwards (k w)) : Onwards (get >>= k) := Yields.look fun w _ => hk w

theorem stamp (g : Nat) (v : Value) : Onwards (Play.stamp g v) :=
  fun _ _ => ⟨trivial, fun _ _ => trivial, fun _ he => by cases he⟩

/-- No function node fails by meeting a node again: it has no means to resolve inputs. -/
theorem run (c : Context) (b : FunctionBehaviour) : Onwards (b.run c) := by
  refine FunctionBehaviour.yields_run (c := c) ⟨?_, ?_⟩ (closed_true _).conduct_of_all trivial b
  · rintro _ he ⟨_, _, _, rfl⟩
    cases he
  · refine fun w _ reason hown => Failure.not_isCycle_node ?_
    rintro label rfl
    cases hown

end Onwards

end Play

namespace Graph.Indexed

variable {g : Graph} {a : String} {k : Nat}

/-- The first wire at a data input comes from a node of the graph. -/
theorem of_pulls (hg : Indexed g) (hk : g.serial? a = some k) {p : Nat} (hp : p ∈ dataPlaces ((g.nodeAt? k).getD default))
    {e : Ends} (he : g.pulls k p = some e) :
    ∃ b, g.serial? b = some e.source.node ∧ (g.IsFunction b → g.Draws a b) := by
  obtain ⟨n, hn, rfl⟩ := hg.placed hk
  rw [hn, Option.getD_some] at hp
  obtain ⟨s, hs, hflow⟩ := socket_of_dataPlaces hp
  simp only [pulls, hn, hs, Option.getD_some] at he
  obtain ⟨w, hw, hends⟩ := Option.bind_eq_some_iff.1 he
  have hnode : g.node? n.id = some n := Option.bind_eq_some_iff.2 ⟨k, hk, hn⟩
  have hmem : n ∈ g.nodes := (hg.of_node? hnode).1
  have hdata : s ∈ n.dataInputs := List.mem_filter.2 ⟨List.mem_of_getElem? hs, by simpa using hflow⟩
  have hwires : w ∈ s.wires := List.mem_of_mem_head? hw
  obtain ⟨e', m, hends', hserial, -⟩ := hg.source_of_wire (hg.mem_wires_of_socket hmem hdata hwires)
  rw [hends] at hends'
  cases hends'
  exact ⟨w.link.source, hserial, fun hfunction => ⟨(hg.carries_iff hnode).2 ⟨s, hdata, w, hwires, rfl⟩, hfunction⟩⟩

/-- What a node draws on is at the first wire of one of its data inputs, since there is no second. -/
theorem pulls_of_draws (hg : Indexed g) (hk : g.serial? a = some k) {b : String} (h : g.Draws a b) :
    ∃ p ∈ dataPlaces ((g.nodeAt? k).getD default), ∃ e, g.pulls k p = some e ∧ g.serial? b = some e.source.node := by
  obtain ⟨n, hn, rfl⟩ := hg.placed hk
  have hnode : g.node? n.id = some n := Option.bind_eq_some_iff.2 ⟨k, hk, hn⟩
  have hmem : n ∈ g.nodes := (hg.of_node? hnode).1
  obtain ⟨s, hs, w, hw, rfl⟩ := (hg.carries_iff hnode).1 h.1
  obtain ⟨hin, hflow⟩ := List.mem_filter.1 hs
  obtain ⟨p, hp⟩ := List.mem_iff_getElem?.1 hin
  obtain ⟨e, m, hends, hserial, -⟩ := hg.source_of_wire (hg.mem_wires_of_socket hmem hs hw)
  have hfirst : s.wires.head? = some w := by
    have hsingle := hg.length_dataInput hmem hs
    obtain ⟨v, hv⟩ := List.length_eq_one_iff.1 (Nat.le_antisymm hsingle (List.length_pos_of_mem hw))
    rw [hv, List.mem_singleton] at hw
    rw [hv, hw]
    rfl
  refine ⟨p, ?_, e, ?_, hserial⟩
  · rw [hn]
    exact mem_dataPlaces hp (by simpa using hflow)
  · simp only [pulls, hn, hp, Option.getD_some]
    exact Option.bind_eq_some_iff.2 ⟨w, hfirst, hends⟩

theorem isFunction_iff (hg : Indexed g) (hk : g.serial? a = some k) :
    g.IsFunction a ↔ ((g.nodeAt? k).getD default).kind = .function := by
  obtain ⟨n, hn, rfl⟩ := hg.placed hk
  have hnode : g.node? n.id = some n := Option.bind_eq_some_iff.2 ⟨k, hk, hn⟩
  simp [IsFunction, hnode, hn]

/-- There are no more identifiers than places. -/
theorem length_le_size (hg : Indexed g) {ids : List String} (hids : ids.Nodup)
    (hin : ∀ id ∈ ids, ∃ k, g.serial? id = some k) : ids.length ≤ g.arena.size := by
  have hplaces : (ids.map fun id => (g.serial? id).getD 0).Nodup := by
    refine List.Nodup.map_on ?_ hids
    intro x hx y hy hxy
    obtain ⟨k, hk⟩ := hin x hx
    obtain ⟨l, hl⟩ := hin y hy
    simp only [hk, hl, Option.getD_some] at hxy
    exact hg.serial?_inj hk (hxy ▸ hl)
  have hsubset : (ids.map fun id => (g.serial? id).getD 0) ⊆ List.range g.arena.size := by
    intro k hk
    obtain ⟨id, hid, rfl⟩ := List.mem_map.1 hk
    obtain ⟨l, hl⟩ := hin id hid
    obtain ⟨n, hn, -⟩ := hg.placed hl
    rw [hl, Option.getD_some, List.mem_range]
    exact (Array.getElem?_eq_some_iff.1 hn).1
  have hlength := (hplaces.subperm hsubset).length_le
  simpa using hlength

end Graph.Indexed

/-- The graph at a place is a given one, but for what changes when it runs. -/
def World.Shaped (j : Nat) (g : Graph) (w : World) : Prop := (w.graph j).outline = g.outline

section Resolving

variable {i j : Nat} {g : Graph}

namespace World.Shaped

variable {w : World}

theorem node (h : Shaped j g w) (k : Nat) : (w.node ⟨j, k⟩).outline = ((g.nodeAt? k).getD default).outline :=
  Graph.outline_getD_nodeAt? h k

theorem kind (h : Shaped j g w) (k : Nat) : (w.node ⟨j, k⟩).kind = ((g.nodeAt? k).getD default).kind :=
  (congrArg Node.kind (h.node k) :)

theorem id (h : Shaped j g w) {k : Nat} {n : Node} (hn : g.nodeAt? k = some n) : (w.node ⟨j, k⟩).id = n.id := by
  have hnode := h.node k
  rw [hn] at hnode
  exact (congrArg Node.id hnode :)

theorem dataPlaces (h : Shaped j g w) (k : Nat) :
    Play.dataPlaces (w.node ⟨j, k⟩) = Play.dataPlaces ((g.nodeAt? k).getD default) := by
  rw [← dataPlaces_outline, h.node, dataPlaces_outline]

theorem keep (h : Shaped j g w) {α : Type} {x : Play α} (hx : ∀ u, Obeys (Upholds (Outlined u)) x) :
    Shaped j g (x.runOn w).2 :=
  (((hx w).upholds (show Outlined w w from rfl)).graph j).trans h

end World.Shaped

namespace Play

theorem Onwards.shaped {α : Type} {x : Play α} (hx : Onwards x) (hkeep : ∀ u, Obeys (Upholds (Outlined u)) x) :
    Yields (Shaped j g) (fun e => ¬ e.IsCycle) x fun _ => True :=
  fun w h => ⟨h.keep hkeep, fun _ _ => trivial, (hx w trivial).2.2⟩

theorem onwards_invoke (x : NodeRef) (stage : Stage) {call : Option (Play Unit)} (hcall : ∀ y ∈ call, Onwards y) :
    Onwards (invoke x stage call) := by
  unfold invoke
  split
  · exact .look fun _ => Yields.of_throw (Failure.not_isCycle_node fun _ h => by cases h)
  · rename_i y
    refine Yields.outcome_bind (hcall y rfl) (fun _ _ => Onwards.of_pure _) fun e he => ?_
    simp only
    split
    · exact Yields.of_throw he
    · exact Onwards.look fun _ => Yields.of_throw (Failure.not_isCycle_node fun _ h => by cases h)

theorem onwards_compute (x : NodeRef) : Onwards (compute x) := by
  refine .look fun w => ?_
  split
  · refine onwards_invoke x _ fun y hy => ?_
    obtain ⟨b, -, rfl⟩ := Option.map_eq_some_iff.1 hy
    exact Onwards.run _ b
  · exact .look fun _ => .of_throw _

theorem onwards_fillInput (x : NodeRef) (place : Nat) (s : Socket) : Onwards (fillInput i x place s) := by
  unfold fillInput
  split
  · refine .look fun w => ?_
    refine Onwards.bind (Yields.of_integrity (fun _ _ => trivial) fun e _ => ?_) fun t => (Onwards.stamp x.graph t.create).bind
      fun _ => (Onwards.of_modify _).bind fun _ => .look fun _ => .of_modify _
    rintro ⟨_, _, _, h⟩
    cases h
  · exact .of_pure _

theorem onwards_pullAcross (x : NodeRef) (place : Nat) (s : Socket) (source : End) :
    Onwards (pullAcross x place s source) := by
  refine .look fun w => Onwards.bind (Yields.of_except (fun _ _ => trivial) fun e he => ?_) fun v =>
    (Onwards.stamp x.graph v).bind fun _ => .of_modify _
  unfold carried at he
  simp only at he
  split at he
  · cases he
  · cases he
    exact Failure.not_isCycle_node fun _ h => by cases h

/-- From a node on a way back there is a way to the head of it. -/
theorem reflTransGen_of_mem {R : String → String → Prop} {a b : String} {rest : List String}
    (h : (a :: rest).IsChain fun x y => R y x) (hb : b ∈ a :: rest) : ReflTransGen R b a := by
  induction rest generalizing a with
  | nil =>
    rw [List.mem_singleton.1 hb]
  | cons c rest ih =>
    obtain ⟨hca, hrest⟩ := List.isChain_cons_cons.1 h
    rcases List.mem_cons.1 hb with rfl | hb
    · exact .refl
    · exact .tail (ih hrest hb) hca

/-- Resolving the inputs of a node comes to an end only if no way leads on and on from it, and meets a node again only
if one leads back to itself. The way here, `a :: rest`, is as long as there are nodes at most, which is why the fuel
lasts. -/
theorem yields_resolveWithin (hg : g.Indexed) {fuel : Nat} {a : String} {k : Nat} {rest : List String}
    (hk : g.serial? a = some k) (hnodup : (a :: rest).Nodup) (hin : ∀ id ∈ a :: rest, ∃ k, g.serial? id = some k)
    (hpath : (a :: rest).IsChain fun x y => g.Draws y x) (hfuel : g.arena.size + 2 ≤ fuel + (a :: rest).length) :
    Yields (Shaped j g) (fun e => e.IsCycle → ∃ c, ReflTransGen g.Draws a c ∧ TransGen g.Draws c c)
      (resolveWithin i fuel (a :: rest) ⟨j, k⟩) fun _ => Acc (fun b a => g.Draws a b) a := by
  have hkept (u : World) := (Outlined.drained u i).toConduct
  induction fuel generalizing a k rest with
  | zero =>
    have hlength := hg.length_le_size hnodup hin
    omega
  | succ fuel ih =>
    refine .look fun w hw => ?_
    rw [hw.dataPlaces]
    have hplaces : ∀ p ∈ dataPlaces ((g.nodeAt? k).getD default), Yields (Shaped j g)
        (fun e => e.IsCycle → ∃ c, ReflTransGen g.Draws a c ∧ TransGen g.Draws c c)
        (resolveInput i (resolveWithin i fuel) (a :: rest) ⟨j, k⟩ p)
        fun _ => ∀ e b, g.pulls k p = some e → g.serial? b = some e.source.node → g.Draws a b →
          Acc (fun b a => g.Draws a b) b := by
      intro p hp
      refine .look fun w hw => ?_
      have hpulls : (((w.node ⟨j, k⟩).inputs[p]?).getD default).wires.head?.bind (w.graph j).endsOf = g.pulls k p :=
        Graph.pulls_of_outline hw k p
      simp only [hpulls]
      cases he : g.pulls k p with
      | none =>
        refine ((onwards_fillInput ⟨j, k⟩ p _).shaped fun u => obeys_fillInput (hkept u) i _ _ _).mono
          (fun e hno hyes => absurd hyes hno) fun _ _ _ _ h => by cases h
      | some e =>
        obtain ⟨b, hb, hdraws⟩ := hg.of_pulls hk hp he
        obtain ⟨m, hm, hid⟩ := hg.placed hb
        have hcarry : Yields (Shaped j g) (fun e => e.IsCycle → ∃ c, ReflTransGen g.Draws a c ∧ TransGen g.Draws c c)
            (pullAcross ⟨j, k⟩ p (((w.node ⟨j, k⟩).inputs[p]?).getD default) e.source) fun _ => True :=
          ((onwards_pullAcross _ p _ _).shaped fun u => obeys_pullAcross (hkept u) _ _ _ _).mono
            (fun e hno hyes => absurd hyes hno) fun _ _ => trivial
        have hsupply : Yields (Shaped j g) (fun e => e.IsCycle → ∃ c, ReflTransGen g.Draws a c ∧ TransGen g.Draws c c)
            (supply i (resolveWithin i fuel) (a :: rest) ⟨j, k⟩ ⟨j, e.source.node⟩)
            fun _ => g.IsFunction b → Acc (fun b a => g.Draws a b) b := by
          refine .look fun w hw => ?_
          have hkind : (w.node ⟨j, e.source.node⟩).kind = .function ↔ g.IsFunction b := by
            rw [hw.kind]
            exact (hg.isFunction_iff hb).symm
          have hname : (w.node ⟨j, e.source.node⟩).id = b := (hw.id hm).trans hid
          dsimp only
          rw [hname]
          split
          · rename_i hfunction
            have hab := hdraws (hkind.1 hfunction)
            split
            · rename_i hmet
              refine .look fun _ _ => Yields.bind (Q := fun _ => False) (Yields.of_throw fun _ => ?_) fun _ h => h.elim
              have hback : ReflTransGen g.Draws b a := reflTransGen_of_mem hpath hmet
              exact ⟨b, .single hab, .tail' hback hab⟩
            · rename_i hnew
              refine Yields.bind ((ih hb (List.nodup_cons.2 ⟨hnew, hnodup⟩) ?_ (List.isChain_cons_cons.2 ⟨hab, hpath⟩) ?_).mono
                ?_ fun _ h => h) fun _ hacc => ?_
              · intro id hid
                rcases List.mem_cons.1 hid with rfl | hid
                · exact ⟨_, hb⟩
                · exact hin id hid
              · simp only [List.length_cons] at hfuel ⊢
                omega
              · intro e hyes hcycle
                obtain ⟨c, hreach, hloop⟩ := hyes hcycle
                exact ⟨c, .head hab hreach, hloop⟩
              · have hrest : Onwards (do
                    modify (·.tellStarted i ⟨j, e.source.node⟩)
                    compute ⟨j, e.source.node⟩
                    modify (·.tellEnded i ⟨j, e.source.node⟩) : Play Unit) :=
                  (Onwards.of_modify _).bind fun _ => (onwards_compute _).bind fun _ => .of_modify _
                refine (hrest.shaped fun u => ?_).mono (fun e hno hyes => absurd hyes hno) fun _ _ _ => hacc
                exact (obeys_tellStarted (hkept u) i _).bind fun _ => (obeys_compute (hkept u) _).bind fun _ =>
                  obeys_tellEnded (hkept u) i _
          · rename_i hother
            exact Yields.of_pure fun hfunction => absurd (hkind.2 hfunction) hother
        refine hsupply.bind fun _ hacc => hcarry.mono (fun _ he => he) fun _ _ e' b' he' hb' hdraws' => ?_
        cases he'
        rw [hg.serial?_inj hb' hb] at hdraws' ⊢
        exact hacc hdraws'.2
    refine (Yields.of_forM hplaces).mono (fun _ he => he) fun _ hall => ?_
    refine ⟨a, fun b hdraws => ?_⟩
    obtain ⟨p, hp, e, he, hb⟩ := hg.pulls_of_draws hk hdraws
    exact hall p hp e b he hb hdraws

/-- Calls that keep the outline do the same whatever the fuel. -/
theorem obeys_shaped {α : Type} {x : Play α} (hx : ∀ u, Obeys (Upholds (Outlined u)) x) :
    Obeys (Upholds (Shaped j g)) x := by
  rintro w _ ⟨rfl, hw⟩
  exact ⟨rfl, rfl, hw.keep hx⟩

/-- With enough fuel more makes no difference. -/
theorem agrees_resolveWithin (hg : g.Indexed) {fuel more : Nat} {a : String} {k : Nat} {rest : List String}
    (hk : g.serial? a = some k) (hnodup : (a :: rest).Nodup) (hin : ∀ id ∈ a :: rest, ∃ k, g.serial? id = some k)
    (hfuel : g.arena.size + 2 ≤ fuel + (a :: rest).length) (hmore : fuel ≤ more) :
    Agrees (Upholds (Shaped j g)) (resolveWithin i fuel (a :: rest) ⟨j, k⟩)
      (resolveWithin i more (a :: rest) ⟨j, k⟩) := by
  have hkept (u : World) := (Outlined.drained u i).toConduct
  induction fuel generalizing more a k rest with
  | zero =>
    have hlength := hg.length_le_size hnodup hin
    omega
  | succ fuel ih =>
    obtain ⟨more, rfl⟩ : ∃ m, more = m + 1 := ⟨more - 1, by omega⟩
    refine .look ?_
    rintro w _ ⟨rfl, hw⟩
    rw [hw.dataPlaces]
    refine .of_forM fun p hp => .look ?_
    rintro w _ ⟨rfl, hw⟩
    have hpulls : (((w.node ⟨j, k⟩).inputs[p]?).getD default).wires.head?.bind (w.graph j).endsOf = g.pulls k p :=
      Graph.pulls_of_outline hw k p
    simp only [hpulls]
    cases he : g.pulls k p with
    | none => exact obeys_shaped fun u => obeys_fillInput (hkept u) i _ _ _
    | some e =>
      obtain ⟨b, hb, -⟩ := hg.of_pulls hk hp he
      obtain ⟨m, hm, hid⟩ := hg.placed hb
      refine Agrees.bind (.look ?_) fun _ => obeys_shaped fun u => obeys_pullAcross (hkept u) _ _ _ _
      rintro w _ ⟨rfl, hw⟩
      have hname : (w.node ⟨j, e.source.node⟩).id = b := (hw.id hm).trans hid
      dsimp only
      rw [hname]
      split
      · have hrest : Obeys (Upholds (Shaped j g)) (do
            modify (·.tellStarted i ⟨j, e.source.node⟩)
            compute ⟨j, e.source.node⟩
            modify (·.tellEnded i ⟨j, e.source.node⟩) : Play Unit) :=
          obeys_shaped fun u => (obeys_tellStarted (hkept u) i _).bind fun _ => (obeys_compute (hkept u) _).bind fun _ =>
            obeys_tellEnded (hkept u) i _
        split
        · refine .look ?_
          rintro w _ ⟨rfl, hw⟩
          intro w r h
          exact ⟨rfl, h⟩
        · rename_i hnew
          refine Agrees.bind (ih hb (List.nodup_cons.2 ⟨hnew, hnodup⟩) ?_ ?_ (by omega)) fun _ => hrest
          · intro id hid
            rcases List.mem_cons.1 hid with rfl | hid
            · exact ⟨_, hb⟩
            · exact hin id hid
          · simp only [List.length_cons] at hfuel ⊢
            omega
      · exact Agrees.of_pure _

end Play

/-- What a node resolves by is its own identifier and the number of places. -/
theorem World.Shaped.resolve_eq {w : World} (h : Shaped j g w) {a : String} {k : Nat} {n : Node} (hn : g.nodeAt? k = some n)
    (hid : n.id = a) : (resolve i ⟨j, k⟩).runOn w = (resolveWithin i (g.arena.size + 1) [a] ⟨j, k⟩).runOn w := by
  have hsize : (w.graph j).arena.size = g.arena.size := by
    have harena : (w.graph j).arena.map Node.outline = g.arena.map Node.outline := (congrArg Graph.arena h :)
    simpa using congrArg Array.size harena
  rw [resolve, runOn_get]
  dsimp only
  rw [hsize, h.id hn, hid]

end Resolving

namespace Graph

/-- The search for cycles and the resolving of inputs agree on a graph, in whatever world it runs. -/
structure CyclesAgree (g : Graph) : Prop where
  /-- Every cycle that is reported is one, and of function nodes only. -/
  rounds : ∀ c ∈ g.cycles, IsRound g.Draws c ∧ ∀ id ∈ c, g.IsFunction id
  /-- No cycle goes unnoticed. -/
  noticed : g.cycles = [] ↔ ∀ a, ¬ TransGen g.Draws a a
  /-- Resolving comes to an end by itself: more fuel makes no difference. -/
  ends : ∀ i j a k w more, Shaped j g w → g.serial? a = some k →
    (resolveWithin i (g.arena.size + 1 + more) [a] ⟨j, k⟩).runOn w = (Play.resolve i ⟨j, k⟩).runOn w
  /-- Where no cycle is reported none is met. -/
  spared : g.cycles = [] → ∀ i j a k w e, Shaped j g w → g.serial? a = some k →
    ((Play.resolve i ⟨j, k⟩).runOn w).1 = .error e → ¬ e.IsCycle
  /-- Where a cycle is met there is one above the node. -/
  met : ∀ i j a k w e, Shaped j g w → g.serial? a = some k → ((Play.resolve i ⟨j, k⟩).runOn w).1 = .error e → e.IsCycle →
    ∃ c, ReflTransGen g.Draws a c ∧ TransGen g.Draws c c
  /-- Where there is a cycle above the node, it is met if nothing else fails before. -/
  meets : ∀ i j a k w, Shaped j g w → g.serial? a = some k → (∃ c, ReflTransGen g.Draws a c ∧ TransGen g.Draws c c) →
    (∀ e, ((Play.resolve i ⟨j, k⟩).runOn w).1 = .error e → e.IsCycle) →
    ∃ e, ((Play.resolve i ⟨j, k⟩).runOn w).1 = .error e ∧ e.IsCycle

theorem acc_of_reflTransGen {R : String → String → Prop} {a c : String} (h : Acc (fun b a => R a b) a)
    (hreach : ReflTransGen R a c) : Acc (fun b a => R a b) c := by
  induction hreach with
  | refl => exact h
  | tail _ hstep ih => exact ih.inv hstep

/-- In an indexed graph the rounds that a pull may run into are the ones that the search for cycles finds. -/
theorem Indexed.cyclesAgree {g : Graph} (hg : Indexed g) : CyclesAgree g := by
  have hresolve (i j : Nat) {a : String} {k : Nat} (hk : g.serial? a = some k) :
      Yields (Shaped j g) (fun e => e.IsCycle → ∃ c, ReflTransGen g.Draws a c ∧ TransGen g.Draws c c)
        (resolveWithin i (g.arena.size + 1) [a] ⟨j, k⟩) fun _ => Acc (fun b a => g.Draws a b) a :=
    yields_resolveWithin hg hk (List.nodup_singleton a) (by simpa using ⟨k, hk⟩) (List.isChain_singleton a) (by simp)
  have hmet : ∀ i j a k w e, Shaped j g w → g.serial? a = some k → ((Play.resolve i ⟨j, k⟩).runOn w).1 = .error e →
      e.IsCycle → ∃ c, ReflTransGen g.Draws a c ∧ TransGen g.Draws c c := by
    intro i j a k w e hw hk he hcycle
    obtain ⟨n, hn, hid⟩ := hg.placed hk
    rw [hw.resolve_eq hn hid] at he
    exact (hresolve i j hk w hw).2.2 e he hcycle
  refine ⟨fun c hc => ⟨hg.isRound_of_mem_cycles hc, fun id hid => isFunction_of_mem_round (hg.isRound_of_mem_cycles hc) hid⟩,
    hg.cycles_eq_nil_iff, ?_, ?_, hmet, ?_⟩
  · intro i j a k w more hw hk
    obtain ⟨n, hn, hid⟩ := hg.placed hk
    have hsame := agrees_resolveWithin (i := i) (j := j) hg hk (List.nodup_singleton a) (by simpa using ⟨k, hk⟩) (by simp)
      (Nat.le_add_right (g.arena.size + 1) more) w w ⟨rfl, hw⟩
    rw [hw.resolve_eq hn hid]
    exact Prod.ext hsame.1.symm hsame.2.1.symm
  · intro hnone i j a k w e hw hk he hcycle
    obtain ⟨c, -, hloop⟩ := hmet i j a k w e hw hk he hcycle
    exact hg.cycles_eq_nil_iff.1 hnone c hloop
  · rintro i j a k w hw hk ⟨c, hreach, hloop⟩ honly
    obtain ⟨n, hn, hid⟩ := hg.placed hk
    cases hout : ((Play.resolve i ⟨j, k⟩).runOn w).1 with
    | error e => exact ⟨e, rfl, honly e hout⟩
    | ok _ =>
      rw [hw.resolve_eq hn hid] at hout
      have hacc := (hresolve i j hk w hw).2.1 _ hout
      exact absurd hloop (not_transGen_of_acc (acc_of_reflTransGen hacc hreach))

/-- Whatever was done to a graph that was empty at first, the search for cycles and the resolving of inputs agree
on it. -/
theorem cyclesAgree_of_edits (name : String) (r : Registry) (replace : Bool) (labels : Nat) (es : List Edit) :
    CyclesAgree (edits { name := name, registry := r, replaceLinks := replace, labels := labels } es) :=
  (Indexed.of_empty (g := { name := name, registry := r, replaceLinks := replace, labels := labels }) rfl rfl).edits es
    |>.cyclesAgree

/-- A message comes from a node that sets a variable, and what that one sets comes from two nodes that draw on each
other. -/
def beyond : Graph := edits { registry := Catalogue.defaults } [
  .declareVariable "text" "string" (.str ""),
  .add "Log" (some "log") [] noPosition,
  .add "SetVariable" (some "set") [("variable_name", .str "text")] noPosition,
  .add "StringUpper" (some "upper") [] noPosition,
  .add "StringLower" (some "lower") [] noPosition,
  .connect ⟨"upper", "result", "lower", "text"⟩ none,
  .connect ⟨"lower", "result", "upper", "text"⟩ none,
  .connect ⟨"upper", "result", "set", "value"⟩ none,
  .connect ⟨"set", "value", "log", "text"⟩ none]

/-- Resolving stops at a node that takes part in flow, and so meets no cycle beyond it. -/
theorem not_met_beyond_flow : (∃ c, ReflTransGen beyond.Carries "log" c ∧ TransGen beyond.Draws c c) ∧
    beyond.serial? "log" = some 0 ∧ ((Play.resolve 0 ⟨0, 0⟩).runOn { graphs := #[beyond] }).1.toBool = true := by
  have hmade : (beyond.Carries "log" "set" ∧ beyond.Carries "set" "upper" ∧ beyond.Draws "upper" "lower" ∧
      beyond.Draws "lower" "upper") ∧ beyond.serial? "log" = some 0 ∧
      ((Play.resolve 0 ⟨0, 0⟩).runOn { graphs := #[beyond] }).1.toBool = true := by
    rw [beyond, Catalogue.defaults_eq_written]
    decide +kernel
  obtain ⟨⟨hlog, hset, hup, hdown⟩, hserial, hresolved⟩ := hmade
  refine ⟨⟨"upper", ?_, ?_⟩, hserial, hresolved⟩
  · exact .head hlog (.single hset)
  · exact .head hup (.single hdown)

end Graph

end FlowGraph
