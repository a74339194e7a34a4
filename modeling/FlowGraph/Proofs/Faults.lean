import FlowGraph.Graph.Declare
import FlowGraph.Proofs.Outcome
import FlowGraph.Scheduler

/-!
The faults of values. However values are computed with, compared, shown, stored or copied, what goes wrong is
never that a name is missing.
-/
namespace FlowGraph

def Fault.isMissing : Fault → Bool
  | .missing _ => true
  | _ => false

/-- The computation misses no name. -/
def Plain {α : Type} (x : Except Fault α) : Prop := ∀ f, x = .error f → f.isMissing = false

namespace Plain

variable {α β : Type}

@[simp] theorem ok (a : α) : Plain (.ok a) := fun _ h => by cases h

@[simp] theorem pure (a : α) : Plain (pure a) := ok a

@[simp] theorem error_iff {f : Fault} : Plain (.error f : Except Fault α) ↔ f.isMissing = false :=
  ⟨fun h => h f rfl, fun h _ he => by cases he; exact h⟩

@[simp] theorem throw_iff {f : Fault} : Plain (throw f : Except Fault α) ↔ f.isMissing = false := error_iff

theorem bind {x : Except Fault α} {k : α → Except Fault β} (hx : Plain x) (hk : ∀ a, Plain (k a)) :
    Plain (x >>= k) := by
  cases x with
  | ok a => exact hk a
  | error f => exact error_iff.2 (hx f rfl)

theorem map {x : Except Fault α} (hx : Plain x) (f : α → β) : Plain (x.map f) := by
  cases x with
  | ok a => exact ok _
  | error e => exact error_iff.2 (hx e rfl)

theorem mapM {xs : List α} {k : α → Except Fault β} (hk : ∀ a, Plain (k a)) : Plain (xs.mapM k) := by
  induction xs with
  | nil => exact ok _
  | cons a xs ih =>
    rw [List.mapM_cons]
    exact (hk a).bind fun b => ih.bind fun bs => ok _

theorem foldlM {xs : List α} {k : β → α → Except Fault β} (hk : ∀ b a, Plain (k b a)) (b : β) :
    Plain (xs.foldlM k b) := by
  induction xs generalizing b with
  | nil => exact ok b
  | cons a xs ih => exact (hk b a).bind fun b => ih b

end Plain

namespace Number

theorem plain_toDouble (n : Number) : Plain n.toDouble := by
  unfold toDouble
  split
  · split <;> simp [Fault.isMissing]
  · simp

theorem plain_lift {onInt : Int → Int → Except Fault Number} {onDouble : Double → Double → Except Fault Double}
    (hint : ∀ a b, Plain (onInt a b)) (hdouble : ∀ x y, Plain (onDouble x y)) (m n : Number) :
    Plain (lift onInt onDouble m n) := by
  unfold lift
  split
  · exact hint _ _
  · exact (plain_toDouble _).bind fun _ => (plain_toDouble _).bind fun _ => (hdouble _ _).bind fun _ => .ok _

end Number

namespace Value

theorem plain_arithmetic {op : Number → Number → Except Fault Number} (hop : ∀ m n, Plain (op m n)) (symbol : String)
    (a b : Value) : Plain (arithmetic symbol op a b) := by
  unfold arithmetic
  split
  · exact (hop _ _).map _
  · simp [Fault.isMissing]

theorem plain_add (a b : Value) : Plain (a.add b) := by
  unfold add
  split
  all_goals first
    | exact plain_arithmetic (Number.plain_lift (fun _ _ => .ok _) fun _ _ => .ok _) _ _ _
    | simp [Fault.isMissing]

theorem plain_sub (a b : Value) : Plain (a.sub b) :=
  plain_arithmetic (Number.plain_lift (fun _ _ => .ok _) fun _ _ => .ok _) _ _ _

theorem plain_repeatBy {repetition : Int → Except Fault Value} (hr : ∀ n, Plain (repetition n)) (times : Value) :
    Plain (repeatBy repetition times) := by
  unfold repeatBy
  split
  · split
    · exact hr _
    · simp [Fault.isMissing]
  · simp [Fault.isMissing]

theorem plain_repeating? {v : Value} {r : Int → Except Fault Value} (h : v.repeating? = some r) (n : Int) :
    Plain (r n) := by
  unfold repeating? at h
  split at h
  · cases h
    unfold repeatText
    split
    · simp [Fault.isMissing]
    · split <;> simp [Fault.isMissing]
  · cases h
    unfold repeatList
    split <;> simp [Fault.isMissing]
  · cases h

theorem plain_mul (a b : Value) : Plain (a.mul b) := by
  unfold mul
  split
  · rename_i h
    exact plain_repeatBy (plain_repeating? h) b
  · rename_i h
    exact plain_repeatBy (plain_repeating? h) a
  · exact plain_arithmetic (Number.plain_lift (fun _ _ => .ok _) fun _ _ => .ok _) _ _ _

theorem plain_div (a b : Value) : Plain (a.div b) := by
  refine plain_arithmetic (Number.plain_lift ?_ ?_) _ _ _
  · intro m n
    unfold quotient
    split
    · simp [Fault.isMissing]
    · dsimp only
      split <;> simp [Fault.isMissing]
  · intro x y
    split <;> simp [Fault.isMissing]

theorem plain_floorDiv (a b : Value) : Plain (a.floorDiv b) := by
  refine plain_arithmetic (Number.plain_lift ?_ ?_) _ _ _
  · intro m n
    split <;> simp [Fault.isMissing]
  · intro x y
    unfold wholeQuotient
    dsimp only
    split
    · simp [Fault.isMissing]
    · split
      · simp
      · split <;> simp

theorem plain_neg (a : Value) : Plain a.neg := by
  unfold neg
  split <;> simp [Fault.isMissing]

theorem plain_abs (a : Value) : Plain a.abs := by
  unfold abs
  split <;> simp [Fault.isMissing]

theorem plain_orderLeaf (r : Relation) (a b : Value) : Plain (orderLeaf r a b) := by
  unfold orderLeaf
  split
  · simp
  · split <;> simp [Fault.isMissing]

mutual
theorem plain_order (r : Relation) (a b : Value) : Plain (order r a b) := by
  unfold order
  split
  · exact plain_orderLists r _ _
  · exact plain_orderLeaf r a b
theorem plain_orderLists (r : Relation) (as bs : List Value) : Plain (orderLists r as bs) := by
  unfold orderLists
  split
  · simp
  · simp
  · simp
  · split
    · exact plain_orderLists r _ _
    · exact plain_order r _ _
end

theorem plain_smaller (a b : Value) : Plain (a.smaller b) := (plain_order _ _ _).bind fun _ => .ok _

theorem plain_larger (a b : Value) : Plain (a.larger b) := (plain_order _ _ _).bind fun _ => .ok _

theorem plain_truncDiv (a b : Value) : Plain (a.truncDiv b) := by
  refine (plain_abs a).bind fun _ => (plain_abs b).bind fun _ => (plain_floorDiv _ _).bind fun q =>
    (plain_order _ _ _).bind fun s => (plain_order _ _ _).bind fun t => ?_
  split
  · exact .ok q
  · exact plain_neg q

theorem plain_truncMod (a b : Value) : Plain (a.truncMod b) :=
  (plain_truncDiv a b).bind fun _ => (plain_mul _ _).bind fun _ => plain_sub _ _

theorem plain_blend (a b t : Value) : Plain (a.blend b t) :=
  (plain_sub b a).bind fun _ => (plain_mul _ _).bind fun _ => plain_add _ _

theorem plain_wholeOf (rule : Double → Int) (x : Double) : Plain (wholeOf rule x) := by
  unfold wholeOf
  split
  · simp [Fault.isMissing]
  · split <;> simp [Fault.isMissing]

theorem plain_toInteger (v : Value) : Plain v.toInteger := by
  unfold toInteger
  split
  · split <;> simp [Fault.isMissing]
  · exact plain_wholeOf _ _
  all_goals simp [Fault.isMissing]

theorem plain_toFloat (v : Value) : Plain v.toFloat := by
  unfold toFloat
  split
  · split <;> simp [Fault.isMissing]
  · simp
  · split
    · exact (Number.plain_toDouble _).map _
    · simp [Fault.isMissing]

theorem plain_toReal (v : Value) : Plain v.toReal := by
  unfold toReal
  split
  · exact Number.plain_toDouble _
  · simp [Fault.isMissing]

theorem plain_rounded {refusal : String → Fault} (hrefusal : ∀ t, (refusal t).isMissing = false) (rule : Double → Int)
    (v : Value) : Plain (rounded rule refusal v) := by
  unfold rounded
  split
  · simp
  · exact plain_wholeOf _ _
  · simpa using hrefusal _

theorem plain_remainder (a b : Value) : Plain (a.remainder b) := by
  refine (plain_toReal a).bind fun x => (plain_toReal b).bind fun y => ?_
  split <;> simp [Fault.isMissing]

theorem plain_power (a b : Value) : Plain (a.power b) := by
  refine (plain_toReal a).bind fun x => (plain_toReal b).bind fun y => ?_
  split <;> simp [Fault.isMissing]

theorem plain_real (a : Value) (f : Double → Double) : Plain (a.real f) := by
  refine (plain_toReal a).bind fun x => ?_
  dsimp only
  split
  · exact Plain.bind (by simp [Fault.isMissing]) fun _ => .ok _
  · exact .ok _

theorem plain_length (v : Value) : Plain v.length := by
  unfold length
  split <;> simp [Fault.isMissing]

theorem plain_onText (v : Value) (method : String) (f : String → String) : Plain (v.onText method f) := by
  unfold onText
  split <;> simp [Fault.isMissing]

theorem plain_hashed (v : Value) : Plain v.hashed := by
  unfold hashed
  split <;> simp [Fault.isMissing]

theorem plain_key? (v : Value) : Plain v.key? := by
  refine (plain_hashed v).bind fun _ => ?_
  split <;> simp

theorem plain_contains (whole part : Value) : Plain (whole.contains part) := by
  unfold contains
  split
  · simp
  · simp [Fault.isMissing]
  · simp
  · exact (plain_key? part).map _
  · simp [Fault.isMissing]

theorem plain_components (v : Value) : Plain v.components := by
  unfold components
  split <;> simp [Fault.isMissing]

theorem plain_coordinate (v : Value) (axis : String) : Plain (v.coordinate axis) := by
  unfold coordinate
  split <;> simp [Fault.isMissing]

theorem plain_vector (d : Dimension) (cs : List Value) : Plain (d.vector cs) := by
  unfold Dimension.vector
  cases d with
  | two =>
    dsimp only
    split <;> simp [Fault.isMissing]
  | three => simp

theorem plain_zipVectors {op : Value → Value → Except Fault Value} (hop : ∀ a b, Plain (op a b)) (d : Dimension)
    (a b : Value) : Plain (zipVectors d op a b) :=
  (plain_components a).bind fun _ => (plain_components b).bind fun _ =>
    (Plain.mapM fun p : Value × Value => hop p.1 p.2).bind fun cs => plain_vector d cs

theorem plain_dot (a b : Value) : Plain (a.dot b) :=
  (plain_components a).bind fun _ => (plain_components b).bind fun _ =>
    .foldlM (fun _ _ => (plain_mul _ _).bind fun _ => plain_add _ _) _

theorem plain_norm (v : Value) : Plain v.norm := (plain_dot v v).bind fun _ => plain_real _ _

theorem plain_scaleVector (v : Value) (d : Dimension) (s : Value) : Plain (v.scaleVector d s) :=
  (plain_components v).bind fun _ => (Plain.mapM fun c => plain_mul c s).bind fun cs => plain_vector d cs

theorem plain_normalize (v : Value) (d : Dimension) : Plain (v.normalize d) := by
  refine (plain_norm v).bind fun n => ?_
  split
  · exact .ok _
  · exact (plain_components v).bind fun _ => (Plain.mapM fun c => plain_div c n).bind fun cs => plain_vector d cs

theorem plain_equalVectors (a b : Value) : Plain (a.equalVectors b) :=
  (plain_components a).bind fun _ => (plain_components b).bind fun _ => .ok _

theorem plain_cross (a b : Value) : Plain (a.cross b) := by
  have hminor (p q : String) : Plain (do
      let s ← mul (← a.coordinate p) (← b.coordinate q)
      sub s (← mul (← a.coordinate q) (← b.coordinate p)) : Except Fault Value) :=
    (plain_coordinate _ _).bind fun _ => (plain_coordinate _ _).bind fun _ => (plain_mul _ _).bind fun _ =>
      (plain_coordinate _ _).bind fun _ => (plain_coordinate _ _).bind fun _ => (plain_mul _ _).bind fun _ =>
        plain_sub _ _
  exact (hminor _ _).bind fun _ => (hminor _ _).bind fun _ => (hminor _ _).bind fun _ => plain_vector _ _

/-- A text fails to be written only where an integer in it has too many digits. -/
def FailsWhenLong {α : Type} (x : Except Fault α) : Prop := ∀ f, x = .error f → f = .digitsWritten

namespace FailsWhenLong

variable {α β : Type}

theorem ok (a : α) : FailsWhenLong (.ok a) := fun _ h => by cases h

theorem bind {x : Except Fault α} {k : α → Except Fault β} (hx : FailsWhenLong x) (hk : ∀ a, FailsWhenLong (k a)) :
    FailsWhenLong (x >>= k) := fun f h => by
  rcases bind_eq_error.1 h with h | ⟨a, -, h⟩
  · exact hx f h
  · exact hk a f h

theorem map {x : Except Fault α} (hx : FailsWhenLong x) (f : α → β) : FailsWhenLong (x.map f) := fun e h =>
  hx e (map_eq_error.1 h)

end FailsWhenLong

/-- By induction along the calls of the three writers, of a value, of a list and of the fields of a dictionary. -/
theorem failsWhenLong_literal (v : Value) : FailsWhenLong v.literal := by
  refine (literal.mutual_induct (fun v => FailsWhenLong v.literal) (fun fields => FailsWhenLong (fieldLiterals fields))
    (fun vs => FailsWhenLong (literals vs)) ?none ?bool ?short ?long ?float ?str ?list ?dict ?vec2 ?vec3 ?nil ?cons
    ?fieldsNil ?fieldsCons).1 v
  case none =>
    unfold literal
    exact .ok _
  case bool | float | str =>
    intro _
    unfold literal
    exact .ok _
  case short | long =>
    intro i
    intros
    unfold literal
    cases Decimal.writeInteger? i with
    | some s => exact .ok s
    | none => exact fun _ h => (Except.error.inj h).symm
  case list | dict =>
    intro _ h
    unfold literal
    exact h.map _
  case vec2 =>
    intro x y hx hy
    unfold literal
    exact hx.bind fun _ => hy.bind fun _ => .ok _
  case vec3 =>
    intro x y z hx hy hz
    unfold literal
    exact hx.bind fun _ => hy.bind fun _ => hz.bind fun _ => .ok _
  case nil =>
    rw [literals]
    exact .ok _
  case cons =>
    intro v vs hv hvs
    rw [literals]
    exact hv.bind fun _ => hvs.bind fun _ => .ok _
  case fieldsNil =>
    rw [fieldLiterals]
    exact .ok _
  case fieldsCons =>
    intro k v rest hv hrest
    rw [fieldLiterals]
    exact hv.bind fun _ => hrest.bind fun _ => .ok _

theorem literal_eq_error (v : Value) {f : Fault} (h : v.literal = .error f) : f = .digitsWritten := failsWhenLong_literal v f h

theorem plain_literal (v : Value) : Plain v.literal := fun f h => by
  rw [literal_eq_error v h]
  rfl

theorem plain_display (v : Value) : Plain v.display := by
  unfold display
  split
  · simp
  · exact plain_literal v

end Value

open Value

/-- Operators of one argument fail with plain faults. -/
theorem Unary.plain_apply (op : Unary) (v : Value) : Plain (op.apply v) := by
  unfold Unary.apply
  split
  · exact plain_neg v
  · exact plain_abs v
  · exact plain_real v _
  · exact plain_rounded (fun _ => rfl) _ v
  · exact plain_rounded (fun _ => rfl) _ v
  · exact plain_rounded (fun _ => rfl) _ v
  · exact plain_real v _
  · exact plain_real v _
  · exact plain_real v _
  · exact plain_toInteger v
  · exact plain_toFloat v
  · exact (plain_display v).map _
  · exact .ok _
  · exact .ok _
  · exact .ok _
  · exact plain_length v
  · exact plain_onText v _ _
  · exact plain_onText v _ _
  · exact plain_onText v _ _
  · exact plain_norm v
  · exact plain_normalize v _

/-- Operators of two arguments fail with plain faults. -/
theorem Binary.plain_apply (op : Binary) (a b : Value) : Plain (op.apply a b) := by
  unfold Binary.apply
  split
  · exact plain_add a b
  · exact plain_sub a b
  · exact plain_mul a b
  · exact plain_div a b
  · exact plain_remainder a b
  · exact plain_power a b
  · exact plain_smaller a b
  · exact plain_larger a b
  · exact plain_truncDiv a b
  · exact plain_truncMod a b
  · exact .ok _
  · exact .ok _
  · exact (plain_order _ a b).map _
  · exact .ok _
  · exact .ok _
  · exact (plain_contains a b).map _
  · exact plain_zipVectors plain_add _ a b
  · exact plain_zipVectors plain_sub _ a b
  · exact plain_scaleVector a _ b
  · exact plain_dot a b
  · exact (plain_equalVectors a b).map _
  · exact plain_cross a b

theorem Ternary.plain_apply (op : Ternary) (a b c : Value) : Plain (op.apply a b c) := by
  cases op with
  | clamp => exact (plain_smaller c a).bind fun _ => plain_larger b _
  | blend => exact plain_blend a b c
  | blendVectors d => exact plain_zipVectors (fun x y => plain_blend x y c) d a b

/-- Conversions fail with plain faults. -/
theorem Conversion.plain_apply (op : Conversion) (v : Value) : Plain (op.apply v) := by
  cases op with
  | toFloat => exact plain_toFloat v
  | toText => exact Unary.toText.plain_apply v
  | booleanText => exact Unary.booleanText.plain_apply v
  | length => exact plain_length v
  | identity => exact .ok v
  | refused => simp [Conversion.apply, Fault.isMissing]
  | custom convert =>
    intro f hf
    rw [Conversion.apply] at hf
    cases hc : convert v with
    | ok a =>
      rw [hc] at hf
      cases hf
    | error e =>
      rw [hc] at hf
      cases hf
      rfl

namespace ValueType

theorem plain_encode (t : ValueType) (v : Value) : Plain (t.encode v) := by
  cases t with
  | flow => exact .ok _
  | boolean => exact .ok _
  | integer => exact plain_toInteger v
  | float => exact plain_toFloat v
  | string => exact (plain_display v).map _
  | vector d => exact (plain_components v).map _
  | custom name start => exact .ok v

theorem plain_items (v : Value) : Plain (items v) := by
  unfold items
  split <;> simp [Fault.isMissing]

theorem plain_vectorOf (d : Dimension) (v : Value) : Plain (vectorOf d v) := by
  unfold vectorOf
  dsimp only
  refine Plain.bind (plain_items _) fun _ => (Plain.mapM plain_toFloat).bind fun cs => ?_
  split
  · exact Plain.bind (by simp [Fault.isMissing]) fun _ => plain_vector d cs
  · exact plain_vector d cs

/-- What cannot be read as a value of a type fails with a plain fault. -/
theorem plain_decode (t : ValueType) (v : Value) : Plain (t.decode v) := by
  unfold decode
  split
  · exact .ok _
  · unfold booleanOfText
    dsimp only
    split
    · simp
    · split <;> simp [Fault.isMissing]
  · exact .ok _
  · exact plain_toInteger _
  · split
    · exact plain_toInteger _
    · simp [Fault.isMissing]
  · exact plain_toInteger v
  · exact plain_toFloat v
  · exact (plain_display v).map _
  · exact plain_vectorOf _ v
  · exact .ok v

theorem plain_equals (t : ValueType) (a b : Value) : Plain (t.equals a b) := by
  cases t with
  | vector d => exact plain_equalVectors a b
  | _ => exact .ok _

theorem plain_clone (t : ValueType) (v : Value) : Plain (t.clone v) := by
  cases t with
  | vector d => exact (plain_components v).bind fun cs => plain_vector d cs
  | _ => exact .ok v

end ValueType

namespace Scheduler

variable {κ : Type}

theorem plain_callLater (s : Scheduler κ) (delay : Value) (callback : κ) : Plain (s.callLater delay callback) :=
  (plain_larger _ delay).bind fun _ => (plain_add _ _).bind fun _ => .ok _

theorem plain_next? (s : Scheduler κ) (target : Value) : Plain (s.next? target) := by
  unfold next?
  split
  · simp
  · refine (plain_order _ _ _).bind fun _ => ?_
    split <;> simp

end Scheduler

end FlowGraph
