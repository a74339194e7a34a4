import FlowGraph.Proofs.Cycles
import FlowGraph.Proofs.Standard
import Mathlib.Order.Minimal

/-!
What the reported cycles say about a graph. Not every set of function nodes that draw on each other holds a
reported cycle: one may be passed over for another that goes through its nodes and more. But every component
holds one, and every such set has both ends of a link by which one closes.
-/
namespace FlowGraph

open Relation

/-- The relation between members of a set. -/
def Within (R : String → String → Prop) (S : Set String) (a b : String) : Prop := a ∈ S ∧ b ∈ S ∧ R a b

section Chains

variable {R : String → String → Prop}

theorem Within.mono {S T : Set String} (h : S ⊆ T) {a b : String} (hab : ReflTransGen (Within R S) a b) :
    ReflTransGen (Within R T) a b :=
  ReflTransGen.mono (fun _ _ hstep => ⟨h hstep.1, h hstep.2.1, hstep.2.2⟩) _ _ hab

theorem reaches_of_isChain {l : List String} {a u : String} (h : (a :: l).IsChain R) (hu : u ∈ a :: l) :
    ReflTransGen R a u := by
  induction l generalizing a with
  | nil => rw [List.mem_singleton.1 hu]
  | cons b l ih =>
    obtain ⟨hab, hl⟩ := List.isChain_cons_cons.1 h
    rcases List.mem_cons.1 hu with rfl | hu
    · exact .refl
    · exact .head hab (ih hl hu)

/-- The members of a round and where it ends reach each other along it. -/
theorem IsRound.reaches {c : List String} (h : IsRound R c) : ∃ a, c.getLast? = some a ∧
    ∀ u ∈ c, ReflTransGen (Within R {x | x ∈ c}) a u ∧ ReflTransGen (Within R {x | x ∈ c}) u a := by
  obtain ⟨a, mid, rfl, hchain⟩ := h
  have hwithin : ((a :: mid) ++ [a]).IsChain (Within R {x | x ∈ (a :: mid) ++ [a]}) := List.IsChain.iff_mem.1 hchain
  refine ⟨a, List.getLast?_concat, fun u hu => ⟨reaches_of_isChain hwithin hu, ?_⟩⟩
  have hback : (a :: (mid.reverse ++ [a])).IsChain fun x y => Within R {x | x ∈ (a :: mid) ++ [a]} y x := by
    simpa using List.isChain_reverse.2 hwithin
  exact (reaches_of_isChain hback (by simpa using hu)).swap

end Chains

namespace Graph

/-- Function nodes each of which draws on each other by way of them alone. -/
structure Strong (g : Graph) (S : Set String) : Prop where
  functions : ∀ a ∈ S, g.IsFunction a
  connected : ∀ a ∈ S, ∀ b ∈ S, ReflTransGen (Within g.Draws S) a b

/-- Links between the nodes of the set lead round in a circle, if only from a node to itself. -/
def HasCycle (g : Graph) (S : Set String) : Prop := ∃ a, TransGen (Within g.Draws S) a a

variable {g : Graph} {S : Set String}

/-- A round through a node of the set can be added to it. -/
theorem Strong.union (hS : g.Strong S) {c : List String} (hc : IsRound g.Draws c) {q : String} (hq : q ∈ S)
    (hlast : c.getLast? = some q) : g.Strong (S ∪ {x | x ∈ c}) := by
  obtain ⟨a, ha, hreach⟩ := hc.reaches
  cases hlast.symm.trans ha
  refine ⟨?_, ?_⟩
  · rintro x (hx | hx)
    · exact hS.functions x hx
    · exact isFunction_of_mem_round hc hx
  · have hfrom (x : String) (hx : x ∈ S ∪ {x | x ∈ c}) : ReflTransGen (Within g.Draws (S ∪ {x | x ∈ c})) x q := by
      rcases hx with hx | hx
      · exact Within.mono Set.subset_union_left (hS.connected x hx q hq)
      · exact Within.mono Set.subset_union_right (hreach x hx).2
    have hto (x : String) (hx : x ∈ S ∪ {x | x ∈ c}) : ReflTransGen (Within g.Draws (S ∪ {x | x ∈ c})) q x := by
      rcases hx with hx | hx
      · exact Within.mono Set.subset_union_left (hS.connected q hq x hx)
      · exact Within.mono Set.subset_union_right (hreach x hx).1
    intro x hx y hy
    exact (hfrom x hx).trans (hto y hy)

/-- A set that cannot be made larger holds the whole of each round that comes back to one of its nodes. -/
theorem mem_of_maximal (hS : Maximal g.Strong S) {c : List String} (hc : IsRound g.Draws c)
    (hclose : ClosesBy (Within g.Draws S) c) : ∀ id ∈ c, id ∈ S := by
  obtain ⟨p, q, ⟨pre, rfl⟩, -, hq, -⟩ := hclose
  have hlarger := hS.prop.union hc hq (by simp)
  intro id hid
  exact hS.2 hlarger Set.subset_union_left (.inr hid)

/-- The search for cycles comes to an end, reports cycles only, and none goes unnoticed. -/
structure CyclesFound (g : Graph) : Prop where
  /-- The search by itself, with nothing to bound it, comes to one end, and what it has found there is the result. -/
  terminates : ∃ f, Explores g.dependencies [] g.dependencies.keys {} f ∧ f.cycles = g.cycles ∧
    ∀ f', Explores g.dependencies [] g.dependencies.keys {} f' → f' = f
  /-- Each node of a reported cycle draws on the next, and none is met twice but the first, at the end. -/
  genuine : ∀ c ∈ g.cycles, IsRound g.Draws c ∧ c.dropLast.Nodup ∧ ∀ id ∈ c, g.IsFunction id
  /-- A component with a cycle holds one that is reported. -/
  held : ∀ S, Maximal g.Strong S → g.HasCycle S → ∃ c ∈ g.cycles, ∀ id ∈ c, id ∈ S
  /-- Any strongly connected set with a cycle has a link by which one that is reported closes. -/
  met : ∀ S, g.Strong S → g.HasCycle S → ∃ c ∈ g.cycles, ClosesBy (Within g.Draws S) c
  empty : g.cycles = [] ↔ ∀ a, ¬ TransGen g.Draws a a

theorem Indexed.cyclesFound (hg : Indexed g) : CyclesFound g := by
  have hmet (S : Set String) (hS : g.Strong S) : g.HasCycle S → ∃ c ∈ g.cycles, ClosesBy (Within g.Draws S) c := by
    rintro ⟨a, hloop⟩
    exact hg.exists_closesBy (fun x y hxy => ⟨hS.functions x hxy.1, hxy.2.2⟩) hloop
  refine ⟨?_, ?_, ?_, hmet, hg.cycles_eq_nil_iff⟩
  · obtain ⟨f, hf, hcycles⟩ := explores_cycles g
    exact ⟨f, hf, hcycles, fun f' hf' => hf'.unique hf⟩
  · intro c hc
    have hround := hg.isRound_of_mem_cycles hc
    exact ⟨hround, (rounds_of_mem_cycles hc).2, fun id hid => isFunction_of_mem_round hround hid⟩
  · intro S hS hcycle
    obtain ⟨c, hc, hclose⟩ := hmet S hS.prop hcycle
    exact ⟨c, hc, mem_of_maximal hS (hg.isRound_of_mem_cycles hc) hclose⟩

/-- Whatever was done to a graph that was empty at first, the search for cycles ends, and what it reports are cycles,
one at least for each component that has any. -/
theorem cyclesFound_of_edits (name : String) (r : Registry) (replaceLinks : Bool) (labels : Nat) (es : List Edit) :
    CyclesFound (edits { name := name, registry := r, replaceLinks := replaceLinks, labels := labels } es) :=
  (Indexed.of_empty (g := { name := name, registry := r, replaceLinks := replaceLinks, labels := labels }) rfl rfl).edits es
    |>.cyclesFound

/-- Three nodes that join texts. The first draws on the third and then on the second, the third on the second, and the
second on the first. -/
def crossed : Graph := edits { registry := Catalogue.defaults } [
  .add "StringConcat" (some "x") [] noPosition,
  .add "StringConcat" (some "y") [] noPosition,
  .add "StringConcat" (some "z") [] noPosition,
  .connect ⟨"z", "result", "x", "a"⟩ none,
  .connect ⟨"y", "result", "x", "b"⟩ none,
  .connect ⟨"y", "result", "z", "a"⟩ none,
  .connect ⟨"x", "result", "y", "a"⟩ none]

/-- The first two nodes draw on each other, but the one cycle that is reported goes through the third. -/
theorem not_held_crossed : crossed.cycles = [["x", "z", "y", "x"]] ∧
    ¬ ∀ S, crossed.Strong S → crossed.HasCycle S → ∃ c ∈ crossed.cycles, ∀ id ∈ c, id ∈ S := by
  have hmade : crossed.cycles = [["x", "z", "y", "x"]] ∧ crossed.Draws "x" "y" ∧ crossed.Draws "y" "x" := by
    rw [crossed, Catalogue.defaults_eq_written]
    decide +kernel
  obtain ⟨hcycles, hdraws⟩ := hmade
  refine ⟨hcycles, fun hall => ?_⟩
  have hxy : Within crossed.Draws {"x", "y"} "x" "y" := ⟨by simp, by simp, hdraws.1⟩
  have hyx : Within crossed.Draws {"x", "y"} "y" "x" := ⟨by simp, by simp, hdraws.2⟩
  have hstrong : crossed.Strong {"x", "y"} := by
    refine ⟨?_, ?_⟩
    · rintro a (rfl | rfl)
      · exact hdraws.2.2
      · exact hdraws.1.2
    · rintro a (rfl | rfl) b (rfl | rfl)
      · exact .refl
      · exact .single hxy
      · exact .single hyx
      · exact .refl
  obtain ⟨c, hc, hin⟩ := hall _ hstrong ⟨"x", .tail (.single hxy) hyx⟩
  rw [hcycles, List.mem_singleton] at hc
  subst hc
  have hz := hin "z" (by simp)
  simp at hz

end Graph

end FlowGraph
