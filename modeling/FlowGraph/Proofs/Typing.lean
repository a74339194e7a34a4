import FlowGraph.Document.Load
import FlowGraph.Proofs.Outcome

/-!
Values of a type. Each value type of the catalogue has its own shape of values; its document form can be
read back, and keeping a value only labels the NaNs in it.
-/
namespace FlowGraph

/-- The value is one of the type. Execution control has the empty value only, and a type that takes
everything is not among the types that are looked at here. -/
inductive ValueType.Holds : ValueType → Value → Prop
  | flow : Holds .flow .none
  | boolean (b : Bool) : Holds .boolean (.bool b)
  | integer (i : Int) : Holds .integer (.int i)
  | float (x : Double) : Holds .float (.float x)
  | string (s : String) : Holds .string (.str s)
  | vec2 (x y : Double) : Holds (.vector .two) (.vec2 (.float x) (.float y))
  | vec3 (x y z : Double) : Holds (.vector .three) (.vec3 (.float x) (.float y) (.float z))

namespace ValueType

def holds : ValueType → Value → Bool
  | flow, .none => true
  | boolean, .bool _ => true
  | integer, .int _ => true
  | float, .float _ => true
  | string, .str _ => true
  | vector .two, .vec2 (.float _) (.float _) => true
  | vector .three, .vec3 (.float _) (.float _) (.float _) => true
  | _, _ => false

theorem holds_iff (t : ValueType) (v : Value) : t.holds v = true ↔ t.Holds v := by
  constructor
  · intro h
    unfold holds at h
    split at h <;> first | constructor | cases h
  · intro h
    cases h <;> rfl

instance (t : ValueType) (v : Value) : Decidable (t.Holds v) := decidable_of_iff _ (t.holds_iff v)

/-- The type is one of those that hold values of one shape. -/
def IsBasic : ValueType → Prop
  | custom _ _ => False
  | _ => True

variable {t : ValueType} {v w : Value}

theorem holds_create (h : t.IsBasic) : t.Holds t.create := by
  cases t with
  | vector d => cases d <;> constructor
  | custom name start => cases h
  | _ => constructor

theorem Holds.clone (h : t.Holds v) : t.clone v = .ok v := by
  cases h <;> rfl

/-- Only execution control has nothing for a value. -/
theorem Holds.eq_flow (h : t.Holds v) (hv : v.isNone = true) : t = .flow := by
  cases h with
  | flow => rfl
  | _ => cases hv

/-- The document form stands for the value that it was made from. -/
theorem Holds.encode (h : t.Holds v) : ∃ w, t.encode v = .ok w ∧ t.decode w = .ok v ∧
    ∀ place, Document.literal t w place = .ok v := by
  cases h with
  | flow => exact ⟨.none, rfl, rfl, fun _ => rfl⟩
  | boolean b => exact ⟨.bool b, rfl, rfl, fun _ => rfl⟩
  | integer i => exact ⟨.int i, rfl, rfl, fun _ => rfl⟩
  | float x => exact ⟨.float x, rfl, rfl, fun _ => rfl⟩
  | string s => exact ⟨.str s, rfl, rfl, fun _ => rfl⟩
  | vec2 x y => exact ⟨.list [.float x, .float y], rfl, rfl, fun _ => rfl⟩
  | vec3 x y z => exact ⟨.list [.float x, .float y, .float z], rfl, rfl, fun _ => rfl⟩

theorem Holds.coerce (h : t.Holds v) (name : String) : Variable.coerce name t v = .ok v := by
  obtain ⟨w, he, hd, -⟩ := h.encode
  have hback : (do t.decode (← t.encode v) : Except Fault Value) = .ok v := bind_eq_ok.2 ⟨w, he, hd⟩
  simp only [Variable.coerce, hback]

/-- A variable starts with the very value that it is given. -/
theorem Holds.start (h : t.Holds v) (name : String) : Variable.start name t v = .ok v := by
  unfold Variable.start
  split
  · rename_i hv
    cases h.eq_flow hv
    cases h
    rfl
  · rw [h.coerce name]
    exact lifted_eq_ok.2 h.clone

/-- Values that are the same up to their NaNs have the same document form up to its NaNs. -/
theorem Holds.encode_congr (hv : t.Holds v) (hw : t.Holds w) (h : w.renewed = v.renewed) {a b : Value}
    (ha : t.encode v = .ok a) (hb : t.encode w = .ok b) : b.renewed = a.renewed := by
  cases hv with
  | vec2 x y =>
    cases hw
    cases ha
    cases hb
    simpa [Value.renewed, Value.renewedItems] using h
  | vec3 x y z =>
    cases hw
    cases ha
    cases hb
    simpa [Value.renewed, Value.renewedItems] using h
  | _ =>
    cases hw
    cases ha
    cases hb
    exact h

end ValueType

/-- A label leaves a NaN a NaN. -/
theorem Double.isNaN_nanLabelled (n : Nat) : (nanLabelled n).isNaN = true := by
  have hsign : signWord = 9223372036854775808 := rfl
  have hinfinity : infinityWord = 9218868437227405312 := rfl
  have hquiet : quietWord = 2251799813685248 := rfl
  have hn : n % quietWord < quietWord := Nat.mod_lt _ (by decide)
  simp only [isNaN, magnitude, nanLabelled, ofWord, Bool.false_eq_true, if_false, Nat.toUInt64_eq,
    UInt64.toNat_ofNat', decide_eq_true_eq]
  rw [hquiet] at hn
  rw [hsign, hinfinity, hquiet]
  omega

namespace Value

/-- A float that is kept stays what it is, up to its NaN. -/
theorem stampFloat_spec (x : Double) (n : Nat) :
    ∃ y, ((stampFloat x).run n).1 = .float y ∧ (float y).renewed = (float x).renewed := by
  by_cases h : x.isFresh = true
  · have hx : x = .nan := by simpa [Double.isFresh] using h
    have hnan : Double.nan.isNaN = true := by decide
    subst hx
    refine ⟨.nanLabelled n, rfl, ?_⟩
    simp [renewed, Double.isNaN_nanLabelled, hnan]
  · refine ⟨x, ?_, rfl⟩
    simp only [stampFloat, h]
    rfl

/-- A stamped value is of its type, and the same but for labels of NaNs. -/
theorem stamp_spec {t : ValueType} {v : Value} (h : t.Holds v) (n : Nat) :
    t.Holds (v.stamp.run n).1 ∧ (v.stamp.run n).1.renewed = v.renewed := by
  cases h with
  | float x =>
    obtain ⟨y, hy, hr⟩ := stampFloat_spec x n
    rw [stamp, hy]
    exact ⟨.float y, hr⟩
  | vec2 x y =>
    obtain ⟨a, ha, hx⟩ := stampFloat_spec x n
    obtain ⟨b, hb, hy⟩ := stampFloat_spec y ((stampFloat x).run n).2
    have hs : ((vec2 (.float x) (.float y)).stamp.run n).1 = .vec2 ((stampFloat x).run n).1
        ((stampFloat y).run ((stampFloat x).run n).2).1 := rfl
    rw [hs, ha, hb]
    exact ⟨.vec2 a b, congrArg₂ vec2 hx hy⟩
  | vec3 x y z =>
    obtain ⟨a, ha, hx⟩ := stampFloat_spec x n
    obtain ⟨b, hb, hy⟩ := stampFloat_spec y ((stampFloat x).run n).2
    obtain ⟨c, hc, hz⟩ := stampFloat_spec z ((stampFloat y).run ((stampFloat x).run n).2).2
    have hs : ((vec3 (.float x) (.float y) (.float z)).stamp.run n).1 = .vec3 ((stampFloat x).run n).1
        ((stampFloat y).run ((stampFloat x).run n).2).1
        ((stampFloat z).run ((stampFloat y).run ((stampFloat x).run n).2).2).1 := rfl
    rw [hs, ha, hb, hc]
    refine ⟨.vec3 a b c, ?_⟩
    rw [show (vec3 (.float a) (.float b) (.float c)).renewed =
      .vec3 (float a).renewed (float b).renewed (float c).renewed from rfl, hx, hy, hz]
    rfl
  | flow => exact ⟨.flow, rfl⟩
  | boolean b => exact ⟨.boolean b, rfl⟩
  | integer i => exact ⟨.integer i, rfl⟩
  | string s => exact ⟨.string s, rfl⟩

end Value

/-- A graph keeps a value of a type as a value of the type, the same up to its NaNs. -/
theorem Graph.stamp_spec (g : Graph) {t : ValueType} {v : Value} (h : t.Holds v) :
    t.Holds (g.stamp v).2 ∧ (g.stamp v).2.renewed = v.renewed := by
  by_cases hf : v.hasFresh = true
  · simp only [Graph.stamp, hf, if_true]
    exact Value.stamp_spec h g.labels
  · simp only [Graph.stamp, hf]
    exact ⟨h, rfl⟩

/-- The value is one of the registered type of that name. -/
def Registry.Types (r : Registry) (typeName : String) (v : Value) : Prop :=
  ∃ t, r.valueType typeName = .ok t ∧ t.Holds v

instance (r : Registry) (typeName : String) (v : Value) : Decidable (r.Types typeName v) :=
  match h : r.valueType typeName with
  | .ok t => decidable_of_iff (t.Holds v) (by simp [Registry.Types, h])
  | .error e => isFalse (by simp [Registry.Types, h])

end FlowGraph
