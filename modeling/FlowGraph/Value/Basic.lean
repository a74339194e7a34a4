import FlowGraph.Number.Double

/-!
Dynamic values: what sockets, variables, configurations and documents hold.
-/
namespace FlowGraph

/-- A value of some type known only when the program runs. Tables keep their insertion order, and the
components of a vector are values themselves. -/
inductive Value where
  | none
  | bool (b : Bool)
  | int (i : Int)
  | float (x : Double)
  | str (s : String)
  | list (xs : List Value)
  | dict (fields : List (String × Value))
  | vec2 (x y : Value)
  | vec3 (x y z : Value)
  deriving Repr, Inhabited

namespace Value

mutual
/-- Identity of values: the same constructor with the same content, floats by their bits. -/
def decEq : (a b : Value) → Decidable (a = b)
  | .none, .none => isTrue rfl
  | .bool a, .bool b => if h : a = b then isTrue (by rw [h]) else isFalse (by simp [h])
  | .int a, .int b => if h : a = b then isTrue (by rw [h]) else isFalse (by simp [h])
  | .float a, .float b => if h : a = b then isTrue (by rw [h]) else isFalse (by simp [h])
  | .str a, .str b => if h : a = b then isTrue (by rw [h]) else isFalse (by simp [h])
  | .list a, .list b => match decEqList a b with
    | isTrue h => isTrue (by rw [h])
    | isFalse h => isFalse (by simp [h])
  | .dict a, .dict b => match decEqFields a b with
    | isTrue h => isTrue (by rw [h])
    | isFalse h => isFalse (by simp [h])
  | .vec2 a b, .vec2 c d => match decEq a c, decEq b d with
    | isTrue h, isTrue k => isTrue (by rw [h, k])
    | isFalse h, _ => isFalse (by simp [h])
    | _, isFalse k => isFalse (by simp [k])
  | .vec3 a b c, .vec3 d e f => match decEq a d, decEq b e, decEq c f with
    | isTrue h, isTrue k, isTrue l => isTrue (by rw [h, k, l])
    | isFalse h, _, _ => isFalse (by simp [h])
    | _, isFalse k, _ => isFalse (by simp [k])
    | _, _, isFalse l => isFalse (by simp [l])
  | .none, .bool _ | .none, .int _ | .none, .float _ | .none, .str _ | .none, .list _
  | .none, .dict _ | .none, .vec2 _ _ | .none, .vec3 _ _ _
  | .bool _, .none | .bool _, .int _ | .bool _, .float _ | .bool _, .str _ | .bool _, .list _
  | .bool _, .dict _ | .bool _, .vec2 _ _ | .bool _, .vec3 _ _ _
  | .int _, .none | .int _, .bool _ | .int _, .float _ | .int _, .str _ | .int _, .list _
  | .int _, .dict _ | .int _, .vec2 _ _ | .int _, .vec3 _ _ _
  | .float _, .none | .float _, .bool _ | .float _, .int _ | .float _, .str _ | .float _, .list _
  | .float _, .dict _ | .float _, .vec2 _ _ | .float _, .vec3 _ _ _
  | .str _, .none | .str _, .bool _ | .str _, .int _ | .str _, .float _ | .str _, .list _
  | .str _, .dict _ | .str _, .vec2 _ _ | .str _, .vec3 _ _ _
  | .list _, .none | .list _, .bool _ | .list _, .int _ | .list _, .float _ | .list _, .str _
  | .list _, .dict _ | .list _, .vec2 _ _ | .list _, .vec3 _ _ _
  | .dict _, .none | .dict _, .bool _ | .dict _, .int _ | .dict _, .float _ | .dict _, .str _
  | .dict _, .list _ | .dict _, .vec2 _ _ | .dict _, .vec3 _ _ _
  | .vec2 _ _, .none | .vec2 _ _, .bool _ | .vec2 _ _, .int _ | .vec2 _ _, .float _
  | .vec2 _ _, .str _ | .vec2 _ _, .list _ | .vec2 _ _, .dict _ | .vec2 _ _, .vec3 _ _ _
  | .vec3 _ _ _, .none | .vec3 _ _ _, .bool _ | .vec3 _ _ _, .int _ | .vec3 _ _ _, .float _
  | .vec3 _ _ _, .str _ | .vec3 _ _ _, .list _ | .vec3 _ _ _, .dict _
  | .vec3 _ _ _, .vec2 _ _ => isFalse (by simp)
def decEqList : (a b : List Value) → Decidable (a = b)
  | [], [] => isTrue rfl
  | [], _ :: _ | _ :: _, [] => isFalse (by simp)
  | a :: as, b :: bs => match decEq a b, decEqList as bs with
    | isTrue h, isTrue k => isTrue (by rw [h, k])
    | isFalse h, _ => isFalse (by simp [h])
    | _, isFalse k => isFalse (by simp [k])
def decEqFields : (a b : List (String × Value)) → Decidable (a = b)
  | [], [] => isTrue rfl
  | [], _ :: _ | _ :: _, [] => isFalse (by simp)
  | (k, a) :: as, (l, b) :: bs =>
    if hk : k = l then
      match decEq a b, decEqFields as bs with
      | isTrue h, isTrue t => isTrue (by rw [hk, h, t])
      | isFalse h, _ => isFalse (by simp [h])
      | _, isFalse t => isFalse (by simp [t])
    else isFalse (by simp [hk])
end

instance : DecidableEq Value := decEq

/-- The name a value's type has in messages. -/
def typeName : Value → String
  | .none => "NoneType"
  | .bool _ => "bool"
  | .int _ => "int"
  | .float _ => "float"
  | .str _ => "str"
  | .list _ => "list"
  | .dict _ => "dict"
  | .vec2 _ _ => "Vec2"
  | .vec3 _ _ _ => "Vec3"

/-- Whether a value counts as true: zeros, empty texts, lists and tables, and `none` do not. -/
def truth : Value → Bool
  | .none => false
  | .bool b => b
  | .int i => i != 0
  | .float x => !x.isZero
  | .str s => !s.isEmpty
  | .list xs => !xs.isEmpty
  | .dict fields => !fields.isEmpty
  | .vec2 _ _ | .vec3 _ _ _ => true

def isNone : Value → Bool
  | .none => true
  | _ => false

def integer? : Value → Option Int
  | .bool b => some (if b then 1 else 0)
  | .int i => some i
  | _ => Option.none

def components? : Value → Option (List Value)
  | .vec2 x y => some [x, y]
  | .vec3 x y z => some [x, y, z]
  | _ => Option.none

end Value

/-- A number in one of the two exact forms. -/
inductive Number where
  | int (i : Int)
  | float (x : Double)
  deriving DecidableEq, Repr

/-- Booleans, integers and floats as numbers. -/
def Value.number? : Value → Option Number
  | .bool b => some (.int (if b then 1 else 0))
  | .int i => some (.int i)
  | .float x => some (.float x)
  | _ => Option.none

def Number.toValue : Number → Value
  | .int i => .int i
  | .float x => .float x

end FlowGraph
