import FlowGraph.Proofs.Conduct
import FlowGraph.Proofs.Outcome

/-!
What a computation comes to, from any world with a property: it leads to a world with that property, gives
something of a kind, and fails, if it fails, in one of certain ways.
-/
namespace FlowGraph.Play

variable {P : World → Prop} {E F : Failure → Prop} {α β : Type} {Q : α → Prop} {R : β → Prop}

/-- From a world with the property `P` the computation leads to one with it, gives what `Q` says and fails, if it
fails, as `E` says. -/
def Yields (P : World → Prop) (E : Failure → Prop) (x : Play α) (Q : α → Prop) : Prop :=
  ∀ w, P w → P (x.runOn w).2 ∧ (∀ a, (x.runOn w).1 = .ok a → Q a) ∧ ∀ e, (x.runOn w).1 = .error e → E e

namespace Yields

theorem mono {x : Play α} {Q' : α → Prop} (hx : Yields P E x Q) (hE : ∀ e, E e → F e) (hQ : ∀ a, Q a → Q' a) :
    Yields P F x Q' := fun w h =>
  let ⟨hw, hok, herror⟩ := hx w h
  ⟨hw, fun a ha => hQ a (hok a ha), fun e he => hE e (herror e he)⟩

theorem of_pure {a : α} (ha : Q a) : Yields P E (pure a) Q :=
  fun _ h => ⟨h, (fun _ hb => by cases hb; exact ha), fun _ he => by cases he⟩

theorem of_throw {e : Failure} (he : E e) : Yields P E (throw e) Q :=
  fun _ h => ⟨h, (fun _ ha => by cases ha), fun _ he' => by cases he'; exact he⟩

theorem of_modify {f : World → World} (hf : ∀ w, P w → P (f w)) : Yields P E (modify f) fun _ => True :=
  fun w h => ⟨hf w h, fun _ _ => trivial, fun _ he => by cases he⟩

theorem of_change {f : World → Except Failure Unit × World} (hf : ∀ w, P w → P (f w).2)
    (hE : ∀ w, P w → ∀ e, (f w).1 = .error e → E e) : Yields P E (change f) fun _ => True :=
  fun w h => ⟨hf w h, fun _ _ => trivial, hE w h⟩

theorem of_except {x : Except Failure α} (hok : ∀ a, x = .ok a → Q a) (herror : ∀ e, x = .error e → E e) :
    Yields P E (ofExcept x) Q := fun _ h => ⟨h, hok, herror⟩

theorem of_fault {x : Except Fault α} (hok : ∀ a, x = .ok a → Q a) (herror : ∀ e, x = .error e → E (.fault e)) :
    Yields P E (ofFault x) Q := by
  refine of_except (fun a ha => hok a (lifted_eq_ok.1 ha)) fun e he => ?_
  cases x with
  | ok a => cases he
  | error f =>
    cases he
    exact herror f rfl

theorem of_integrity {x : Except IntegrityError α} (hok : ∀ a, x = .ok a → Q a)
    (herror : ∀ e, x = .error e → E (.integrity e)) : Yields P E (ofIntegrity x) Q := by
  refine of_except (fun a ha => hok a (mapError_eq_ok.1 ha)) fun e he => ?_
  cases x with
  | ok a => cases he
  | error f =>
    cases he
    exact herror f rfl

/-- The second computation is only run on what the first one gave. -/
theorem bind {x : Play α} {k : α → Play β} (hx : Yields P E x Q) (hk : ∀ a, Q a → Yields P E (k a) R) :
    Yields P E (x >>= k) R := by
  intro w h
  obtain ⟨hw, hok, herror⟩ := hx w h
  rw [runOn_bind]
  generalize x.runOn w = p at hw hok herror ⊢
  obtain ⟨out, v⟩ := p
  cases out with
  | ok a => exact hk a (hok a rfl) v hw
  | error e =>
    refine ⟨hw, (fun _ hb => by cases hb), fun e' he => ?_⟩
    cases he
    exact herror e rfl

theorem look {k : World → Play β} (hk : ∀ w, P w → Yields P E (k w) R) : Yields P E (get >>= k) R :=
  fun w h => hk w h w h

/-- A failure is looked at. -/
theorem outcome_bind {x : Play α} {k : Except Failure α → Play β} (hx : Yields P F x Q)
    (hok : ∀ a, Q a → Yields P E (k (.ok a)) R) (herror : ∀ e, F e → Yields P E (k (.error e)) R) :
    Yields P E (outcome x >>= k) R := by
  intro w h
  obtain ⟨hw, hyes, hno⟩ := hx w h
  rw [runOn_bind, runOn_outcome]
  generalize x.runOn w = p at hw hyes hno ⊢
  obtain ⟨out, v⟩ := p
  cases out with
  | ok a => exact hok a (hyes a rfl) v hw
  | error e => exact herror e (hno e rfl) v hw

/-- What each computation comes to, all come to one after the other. -/
theorem of_forM {xs : List α} {k : α → Play PUnit} {S : α → Prop} (hk : ∀ a ∈ xs, Yields P E (k a) fun _ => S a) :
    Yields P E (xs.forM k) fun _ => ∀ a ∈ xs, S a := by
  induction xs with
  | nil => exact of_pure fun _ ha => by cases ha
  | cons a xs ih =>
    refine (hk a List.mem_cons_self).bind fun _ ha => ?_
    refine (ih fun b hb => hk b (List.mem_cons_of_mem a hb)).mono (fun _ he => he) fun _ hall b hb => ?_
    rcases List.mem_cons.1 hb with rfl | hb
    · exact ha
    · exact hall b hb

theorem of_mapM {xs : List α} {k : α → Play β} {S : α → β → Prop} (hk : ∀ a ∈ xs, Yields P E (k a) (S a)) :
    Yields P E (xs.mapM k) (List.Forall₂ S xs) := by
  induction xs with
  | nil => exact of_pure .nil
  | cons a xs ih =>
    rw [List.mapM_cons]
    refine (hk a List.mem_cons_self).bind fun b hb => ?_
    refine (ih fun a' ha => hk a' (List.mem_cons_of_mem a ha)).bind fun bs hbs => ?_
    exact of_pure (.cons hb hbs)

/-- Calls that keep the property, whatever else they do. -/
theorem of_obeys {x : Play α} (hx : Obeys (Upholds P) x) (hE : ∀ w, P w → ∀ e, (x.runOn w).1 = .error e → E e) :
    Yields P E x fun _ => True :=
  fun w h => ⟨hx.upholds h, fun _ _ => trivial, hE w h⟩

end Yields

end FlowGraph.Play
