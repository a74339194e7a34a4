import FlowGraph.Failure
import Mathlib.Data.List.Forall2

/-!
Computations that may fail, taken apart: what a computation that came to a result went through.
-/
namespace FlowGraph

variable {ε α β : Type}

theorem bind_eq_ok {x : Except ε α} {f : α → Except ε β} {b : β} :
    (x >>= f) = .ok b ↔ ∃ a, x = .ok a ∧ f a = .ok b := by
  cases x with
  | ok a => simp [bind, Except.bind]
  | error e => simp [bind, Except.bind]

/-- A computation that comes to a result comes to the one that is taken from it. -/
theorem ok_of_toBool {x : Except ε α} (h : x.toBool = true) (usual : α) : x = .ok (x.toOption.getD usual) := by
  cases x with
  | ok a => rfl
  | error e => cases h

def error? : Except ε α → Option ε
  | .ok _ => none
  | .error e => some e

def Failure.fault? : Failure → Option Fault
  | .fault f => some f
  | _ => none

/-- The failure as one of a graph that does not fit together. -/
def Failure.integrity? : Failure → Option IntegrityError
  | .integrity e => some e
  | _ => none

theorem eq_fault {x : Except Failure α} {f : Fault} (h : (error? x).bind Failure.fault? = some f) :
    x = .error (.fault f) := by
  rcases x with (cause | cause | problems | ⟨id, nodeType, reason⟩) | a <;> cases h
  rfl

theorem eq_integrity {x : Except Failure α} {e : IntegrityError} (h : (error? x).bind Failure.integrity? = some e) :
    x = .error (.integrity e) := by
  rcases x with (cause | cause | problems | ⟨id, nodeType, reason⟩) | a <;> cases h
  rfl

/-- The first computation fails, or the second on what the first one gave. -/
theorem bind_eq_error {x : Except ε α} {f : α → Except ε β} {e : ε} :
    (x >>= f) = .error e ↔ x = .error e ∨ ∃ a, x = .ok a ∧ f a = .error e := by
  cases x with
  | ok a => simp [bind, Except.bind]
  | error e => simp [bind, Except.bind]

theorem map_eq_error {x : Except ε α} {f : α → β} {e : ε} : f <$> x = .error e ↔ x = .error e := by
  cases x with
  | ok a => simp [Functor.map, Except.map]
  | error e => simp [Functor.map, Except.map]

theorem map_eq_ok {x : Except ε α} {f : α → β} {b : β} : x.map f = .ok b ↔ ∃ a, x = .ok a ∧ f a = b := by
  cases x with
  | ok a => simp [Except.map]
  | error e => simp [Except.map]

theorem mapError_eq_ok {δ : Type} {x : Except ε α} {f : ε → δ} {a : α} :
    x.mapError f = .ok a ↔ x = .ok a := by
  cases x with
  | ok a => simp [Except.mapError]
  | error e => simp [Except.mapError]

theorem lifted_eq_ok {x : Except Fault α} {a : α} : Except.lifted x = .ok a ↔ x = .ok a := by
  cases x with
  | ok a => simp [Except.lifted]
  | error e => simp [Except.lifted]

/-- A list of computations comes to a list of their results. -/
theorem forall₂_of_mapM {f : α → Except ε β} {as : List α} {bs : List β} (h : as.mapM f = .ok bs) :
    List.Forall₂ (fun a b => f a = .ok b) as bs := by
  induction as generalizing bs with
  | nil =>
    cases h
    exact .nil
  | cons a as ih =>
    rw [List.mapM_cons] at h
    obtain ⟨b, hb, h⟩ := bind_eq_ok.1 h
    obtain ⟨cs, hcs, h⟩ := bind_eq_ok.1 h
    cases h
    exact .cons hb (ih hcs)

theorem mem_left_of_forall₂ {R : α → β → Prop} {as : List α} {bs : List β} (h : List.Forall₂ R as bs) {a : α}
    (ha : a ∈ as) : ∃ b ∈ bs, R a b := by
  induction h with
  | nil => cases ha
  | cons hab _ ih =>
    rcases List.mem_cons.1 ha with rfl | ha
    · exact ⟨_, List.mem_cons_self, hab⟩
    · obtain ⟨b, hb, hab⟩ := ih ha
      exact ⟨b, List.mem_cons_of_mem _ hb, hab⟩

theorem mem_right_of_forall₂ {R : α → β → Prop} {as : List α} {bs : List β} (h : List.Forall₂ R as bs) {b : β}
    (hb : b ∈ bs) : ∃ a ∈ as, R a b :=
  mem_left_of_forall₂ h.flip hb

/-- Lists that agree in a part, item by item. -/
theorem map_eq_of_forall₂ {γ : Type} {f : α → γ} {g : β → γ} {as : List α} {bs : List β}
    (h : List.Forall₂ (fun a b => g b = f a) as bs) : bs.map g = as.map f := by
  induction h with
  | nil => rfl
  | cons hab _ ih => rw [List.map_cons, List.map_cons, hab, ih]

/-- Relations between the items of lists, two by two, around a square. -/
theorem forall₂_square {α' β' : Type} {R : α → β → Prop} {S : α → α' → Prop} {T : α' → β' → Prop}
    {Q : β → β' → Prop} {as : List α} {as' : List α'} {bs : List β} {bs' : List β'}
    (hR : List.Forall₂ R as bs) (hS : List.Forall₂ S as as') (hT : List.Forall₂ T as' bs')
    (h : ∀ a ∈ as, ∀ a' ∈ as', ∀ b b', R a b → S a a' → T a' b' → Q b b') : List.Forall₂ Q bs bs' := by
  induction hS generalizing bs bs' with
  | nil =>
    cases hR
    cases hT
    exact .nil
  | cons hs _ ih =>
    cases hR with
    | cons hr hR =>
      cases hT with
      | cons ht hT =>
        refine .cons (h _ List.mem_cons_self _ List.mem_cons_self _ _ hr hs ht) (ih hR hT ?_)
        intro a ha a' ha'
        exact h a (List.mem_cons_of_mem _ ha) a' (List.mem_cons_of_mem _ ha')

theorem mem_of_mapM {f : α → Except ε β} {as : List α} {bs : List β} (h : as.mapM f = .ok bs) {b : β}
    (hb : b ∈ bs) : ∃ a ∈ as, f a = .ok b :=
  mem_right_of_forall₂ (forall₂_of_mapM h) hb

theorem mapM_of_forall₂ {f : α → Except ε β} {as : List α} {bs : List β}
    (h : List.Forall₂ (fun a b => f a = .ok b) as bs) : as.mapM f = .ok bs := by
  induction h with
  | nil => rfl
  | cons ha _ ih =>
    rw [List.mapM_cons, ha, ih]
    rfl

/-- Computations that all come to a result do so one after the other. -/
theorem exists_mapM {f : α → Except ε β} {as : List α} (h : ∀ a ∈ as, ∃ b, f a = .ok b) :
    ∃ bs, as.mapM f = .ok bs := by
  induction as with
  | nil => exact ⟨[], rfl⟩
  | cons a as ih =>
    obtain ⟨b, hb⟩ := h a List.mem_cons_self
    obtain ⟨bs, hbs⟩ := ih fun a ha => h a (List.mem_cons_of_mem _ ha)
    refine ⟨b :: bs, ?_⟩
    rw [List.mapM_cons, hb, hbs]
    rfl

/-- What every step keeps, all of them together keep. -/
theorem foldlM_invariant {P : β → Prop} {f : β → α → Except ε β} {xs : List α}
    (hstep : ∀ b, ∀ x ∈ xs, ∀ c, P b → f b x = .ok c → P c) {b c : β} (hb : P b) (h : xs.foldlM f b = .ok c) : P c := by
  induction xs generalizing b with
  | nil =>
    cases h
    exact hb
  | cons x xs ih =>
    obtain ⟨b', hb', h⟩ := bind_eq_ok.1 h
    exact ih (fun b x hx => hstep b x (List.mem_cons_of_mem _ hx)) (hstep b x List.mem_cons_self b' hb hb') h

end FlowGraph
