import FlowGraph.Graph.Check
import Mathlib.Data.List.Chain
import Mathlib.Data.List.Nodup
import Mathlib.Data.List.Perm.Subperm
import Mathlib.Logic.Relation

/-!
The search through a table of dependencies. `Explores` is the search as a recursion that nothing bounds. Main
statements: the bounded search is that recursion, all it reports are rounds that meet no node twice, and of any
links of the table that lead round in a circle one closes a round that is reported.
-/
namespace FlowGraph

open Relation

/-- The list goes along the relation and comes back to where it starts. -/
def IsRound (R : String → String → Prop) (c : List String) : Prop :=
  ∃ a mid, c = (a :: mid) ++ [a] ∧ c.IsChain R

theorem IsRound.transGen {R : String → String → Prop} {c : List String} (h : IsRound R c) : ∃ a, TransGen R a a := by
  obtain ⟨a, mid, rfl, hchain⟩ := h
  cases mid with
  | nil =>
    have hself : R a a := by simpa using hchain
    exact ⟨a, .single hself⟩
  | cons b mid =>
    have hcons : R a b ∧ List.IsChain R ((b :: mid) ++ [a]) := List.isChain_cons_cons.1 hchain
    have hback : ReflTransGen R b a :=
      List.relationReflTransGen_of_exists_isChain_cons (mid ++ [a]) hcons.2 (by simp)
    exact ⟨a, .head' hcons.1 hback⟩

theorem not_transGen_of_acc {α : Type} {R : α → α → Prop} {a : α} (h : Acc (fun b a => R a b) a) : ¬ TransGen R a a := by
  have hswap : Acc (TransGen fun b a => R a b) a := h.transGen
  clear h
  induction hswap with
  | intro a _ ih =>
    intro hloop
    have hback : TransGen (fun b a => R a b) a a := transGen_swap.1 hloop
    exact ih a hback hloop

/-- The last step of the list is one of the relation. -/
def ClosesBy (R : String → String → Prop) (c : List String) : Prop := ∃ p q, [p, q] <:+ c ∧ R p q

/-- Each comes after all that it is related to. -/
def InTurn (R : String → String → Prop) : List String → Prop
  | [] => True
  | a :: rest => (∀ b, R a b → b ∈ rest) ∧ InTurn R rest

theorem InTurn.acc {R : String → String → Prop} {done : List String} (h : InTurn R done) {a : String} (ha : a ∈ done) :
    Acc (fun b a => R a b) a := by
  induction done generalizing a with
  | nil => cases ha
  | cons d done ih =>
    rcases List.mem_cons.1 ha with rfl | ha
    · exact ⟨_, fun b hb => ih h.2 (h.1 b hb)⟩
    · exact ih h.2 ha

namespace Graph

/-- The table lists `b` for `a`. -/
def Lists (feeds : Table String (List String)) (a b : String) : Prop := b ∈ (feeds.get? a).getD []

theorem Lists.mem_keys {feeds : Table String (List String)} {a b : String} (h : Lists feeds a b) : a ∈ feeds.keys := by
  unfold Lists at h
  cases hget : feeds.get? a with
  | none => simp [hget] at h
  | some bs => exact Table.mem_keys_of_get? hget

/-- What is reported where the way, innermost node first, comes to a node that is on it. -/
def closing (path : List String) (id : String) : List String :=
  (id :: (path.takeWhile (· ≠ id)).reverse) ++ [id]

/-- Visiting some nodes one after the other, each by the same way, takes the first search to the second. -/
inductive Explores (feeds : Table String (List String)) : List String → List String → Search → Search → Prop where
  | nil (path : List String) (f : Search) : Explores feeds path [] f f
  | met {path ids : List String} {id : String} {f h : Search} (hid : id ∈ path)
      (rest : Explores feeds path ids { f with cycles := f.cycles ++ [closing path id] } h) :
      Explores feeds path (id :: ids) f h
  | passed {path ids : List String} {id : String} {f h : Search} (hid : id ∉ path) (hdone : id ∈ f.done)
      (rest : Explores feeds path ids f h) : Explores feeds path (id :: ids) f h
  | entered {path ids : List String} {id : String} {f m h : Search} (hid : id ∉ path) (hdone : id ∉ f.done)
      (below : Explores feeds (id :: path) ((feeds.get? id).getD []) f m)
      (rest : Explores feeds path ids { m with done := id :: m.done } h) : Explores feeds path (id :: ids) f h

namespace Explores

variable {feeds : Table String (List String)} {path ids : List String} {f f' : Search}

/-- What is visited and how decides what is found. -/
theorem unique {h h' : Search} (he : Explores feeds path ids f h) (he' : Explores feeds path ids f h') : h = h' := by
  induction he generalizing h' with
  | nil => cases he'; rfl
  | met hid _ ih =>
    cases he' with
    | met _ rest => exact ih rest
    | passed hout => exact absurd hid hout
    | entered hout => exact absurd hid hout
  | passed hid hdone _ ih =>
    cases he' with
    | met hin => exact absurd hin hid
    | passed _ _ rest => exact ih rest
    | entered _ hnot => exact absurd hdone hnot
  | entered hid hdone _ _ ihbelow ihrest =>
    cases he' with
    | met hin => exact absurd hin hid
    | passed _ hin => exact absurd hin hdone
    | entered _ _ below rest =>
      cases ihbelow below
      exact ihrest rest

/-- The bounded search is the search: the way is never longer than the table, which is why the fuel lasts. -/
theorem foldl_visit {fuel : Nat} (hfuel : feeds.size + 2 ≤ fuel + path.length) (hnodup : path.Nodup)
    (hkeys : path ⊆ feeds.keys) (ids : List String) (f : Search) :
    Explores feeds path ids f (ids.foldl (fun f id => visit feeds fuel path id f) f) := by
  induction fuel generalizing path ids f with
  | zero =>
    have hlength : path.length ≤ feeds.keys.length := (hnodup.subperm hkeys).length_le
    have hsize : feeds.keys.length = feeds.size := by simp [Table.keys, Table.size]
    omega
  | succ fuel ih =>
    induction ids generalizing f with
    | nil => exact .nil path f
    | cons id ids ihids =>
      rw [List.foldl_cons, visit]
      split
      · rename_i hid
        exact .met hid (ihids _)
      · rename_i hid
        split
        · rename_i hdone
          exact .passed hid hdone (ihids f)
        · rename_i hdone
          refine .entered hid hdone ?_ (ihids _)
          by_cases hkey : id ∈ feeds.keys
          · exact ih (by simp only [List.length_cons]; omega) (List.nodup_cons.2 ⟨hid, hnodup⟩)
              (List.cons_subset.2 ⟨hkey, hkeys⟩) _ f
          · have hnone : (feeds.get? id).getD [] = [] := by
              rw [List.eq_nil_iff_forall_not_mem]
              intro b hb
              exact hkey (Lists.mem_keys hb)
            rw [hnone]
            exact .nil _ f

/-- What was found stays found. -/
theorem cycles_prefix (he : Explores feeds path ids f f') : f.cycles <+: f'.cycles := by
  induction he with
  | nil => exact List.prefix_refl _
  | met _ _ ih => exact (List.prefix_append _ _).trans ih
  | passed _ _ _ ih => exact ih
  | entered _ _ _ _ ihbelow ihrest => exact ihbelow.trans ihrest

section Sound

/-- Every node on the way here is listed for the one before. -/
def Trodden (feeds : Table String (List String)) (path : List String) : Prop :=
  path.IsChain fun a b => Lists feeds b a

theorem takeWhile_append_prefix {id : String} (hid : id ∈ path) : (path.takeWhile (· ≠ id)) ++ [id] <+: path := by
  induction path with
  | nil => cases hid
  | cons a path ih =>
    by_cases ha : a = id
    · simp [ha]
    · have hin : id ∈ path := by
        rcases List.mem_cons.1 hid with rfl | hin
        · exact absurd rfl ha
        · exact hin
      rw [List.takeWhile_cons_of_pos (by simpa using ha), List.cons_append]
      exact List.cons_prefix_cons.2 ⟨rfl, ih hin⟩

/-- Going back along the way to where the node was met before closes a round. -/
theorem isRound_closing {id : String} (h : Trodden feeds (id :: path)) (hid : id ∈ path) :
    IsRound (Lists feeds) (closing path id) := by
  refine ⟨id, _, rfl, ?_⟩
  have hback : (id :: (path.takeWhile (· ≠ id) ++ [id])).IsChain fun a b => Lists feeds b a :=
    h.prefix (List.cons_prefix_cons.2 ⟨rfl, takeWhile_append_prefix hid⟩)
  simpa [closing] using List.isChain_reverse.2 hback

/-- No node of the way is on it twice, so none of the round is either. -/
theorem nodup_closing (hnodup : path.Nodup) (id : String) : (closing path id).dropLast.Nodup := by
  rw [closing, List.dropLast_concat, List.nodup_cons, List.nodup_reverse, List.mem_reverse]
  refine ⟨?_, (List.takeWhile_sublist _).nodup hnodup⟩
  intro hin
  have hne := List.all_takeWhile (p := fun x => decide (x ≠ id)) (l := path)
  simpa using List.all_eq_true.1 hne id hin

/-- The search reports rounds only, and no node is met twice on one but where it starts. -/
theorem rounds (he : Explores feeds path ids f f') (hpath : ∀ id ∈ ids, Trodden feeds (id :: path)) (hnodup : path.Nodup)
    (hf : ∀ c ∈ f.cycles, IsRound (Lists feeds) c ∧ c.dropLast.Nodup) :
    ∀ c ∈ f'.cycles, IsRound (Lists feeds) c ∧ c.dropLast.Nodup := by
  induction he with
  | nil => exact hf
  | @met path ids id f h hid _ ih =>
    refine ih (fun a ha => hpath a (List.mem_cons_of_mem _ ha)) hnodup ?_
    intro c hc
    rcases List.mem_append.1 hc with hc | hc
    · exact hf c hc
    · rw [List.mem_singleton.1 hc]
      exact ⟨isRound_closing (hpath id List.mem_cons_self) hid, nodup_closing hnodup id⟩
  | passed _ _ _ ih => exact ih (fun a ha => hpath a (List.mem_cons_of_mem _ ha)) hnodup hf
  | @entered path ids id f m h hid _ _ _ ihbelow ihrest =>
    refine ihrest (fun a ha => hpath a (List.mem_cons_of_mem _ ha)) hnodup ?_
    refine ihbelow ?_ (List.nodup_cons.2 ⟨hid, hnodup⟩) hf
    intro source hsource
    exact List.isChain_cons_cons.2 ⟨hsource, hpath id List.mem_cons_self⟩

end Sound

section Complete

variable {R : String → String → Prop}

/-- A round that closes where the way has come to closes by the step that was to be taken. -/
theorem closesBy_closing {p id : String} (path : List String) (hstep : R p id) : ClosesBy R (closing (p :: path) id) := by
  refine ⟨p, id, ?_, hstep⟩
  by_cases hp : p = id
  · simp [closing, hp]
  · rw [closing, List.takeWhile_cons_of_pos (by simpa using hp), List.reverse_cons]
    exact ⟨id :: (path.takeWhile (· ≠ id)).reverse, by simp⟩

/-- Where no round is reported that closes by a step of the relation, the search is done with all that it is to
visit, each after all that it is related to. -/
theorem done (hR : ∀ a b, R a b → Lists feeds a b) (he : Explores feeds path ids f f') (hf : InTurn R f.done)
    (hnone : ∀ c ∈ f'.cycles, ¬ ClosesBy R c) : InTurn R f'.done ∧ f.done ⊆ f'.done ∧
      ∀ id ∈ ids, (∀ p ∈ path.head?, R p id) → id ∈ f'.done := by
  induction he with
  | nil => exact ⟨hf, List.Subset.refl _, fun _ hid => by cases hid⟩
  | @met path ids id f h hid rest ih =>
    obtain ⟨hturn, hsubset, hall⟩ := ih hf hnone
    refine ⟨hturn, hsubset, fun a ha hstep => ?_⟩
    rcases List.mem_cons.1 ha with rfl | ha
    · -- The step leads back onto the way, so the round it closes was reported.
      cases path with
      | nil => cases hid
      | cons p path =>
        have hin := rest.cycles_prefix.subset (List.mem_append_right f.cycles (List.mem_singleton_self _))
        exact absurd (closesBy_closing path (hstep p rfl)) (hnone _ hin)
    · exact hall a ha hstep
  | @passed path ids id f h hid hdone rest ih =>
    obtain ⟨hturn, hsubset, hall⟩ := ih hf hnone
    refine ⟨hturn, hsubset, fun a ha hstep => ?_⟩
    rcases List.mem_cons.1 ha with rfl | ha
    · exact hsubset hdone
    · exact hall a ha hstep
  | @entered path ids id f m h hid hdone below rest ihbelow ihrest =>
    obtain ⟨hturn, hsubset, hall⟩ := ihbelow hf fun c hc => hnone c (rest.cycles_prefix.subset hc)
    have hfirst : InTurn R (id :: m.done) :=
      ⟨fun b hb => hall b (hR id b hb) fun p hp => by cases hp; exact hb, hturn⟩
    obtain ⟨hturn', hsubset', hall'⟩ := ihrest hfirst hnone
    refine ⟨hturn', fun a ha => hsubset' (List.mem_cons_of_mem _ (hsubset ha)), fun a ha hstep => ?_⟩
    rcases List.mem_cons.1 ha with rfl | ha
    · exact hsubset' List.mem_cons_self
    · exact hall' a ha hstep

/-- Among steps of the table that lead from a node back to it there is one by which a reported round closes. -/
theorem exists_closesBy (hR : ∀ a b, R a b → Lists feeds a b) (he : Explores feeds [] feeds.keys {} f') {a : String}
    (hloop : TransGen R a a) : ∃ c ∈ f'.cycles, ClosesBy R c := by
  by_contra hnone
  obtain ⟨hturn, -, hall⟩ := he.done hR trivial fun c hc hclose => hnone ⟨c, hc, hclose⟩
  obtain ⟨b, hab, -⟩ := TransGen.head'_iff.1 hloop
  have hdone : a ∈ f'.done := hall a (hR a b hab).mem_keys fun p hp => by cases hp
  exact not_transGen_of_acc (hturn.acc hdone) hloop

end Complete

end Explores

/-- The search of a graph. -/
theorem explores_cycles (g : Graph) :
    ∃ f, Explores g.dependencies [] g.dependencies.keys {} f ∧ f.cycles = g.cycles :=
  ⟨_, Explores.foldl_visit (by simp) List.nodup_nil (List.nil_subset _) _ _, rfl⟩

end Graph

end FlowGraph
