import FlowGraph.Fault
import FlowGraph.Value.Basic

/-!
Equality and order of values. Numbers of any kind compare by their exact value; lists, tables and
vectors compare item by item, and there a NaN counts as equal to a NaN of the same origin.
-/
namespace FlowGraph

/-- Exact comparison of numbers; a NaN compares with nothing. -/
def Number.compare : Number → Number → Option Ordering
  | .int a, .int b => some (Ord.compare a b)
  | .float a, .int b => a.compareInt b
  | .int a, .float b => (b.compareInt a).map Ordering.swap
  | .float a, .float b =>
    if a.isNaN || b.isNaN then none else some (Ord.compare a.rank b.rank)

namespace Value

/-- Equality of two values that are not both containers of one kind. -/
def equalLeaf (a b : Value) : Bool :=
  match a.number?, b.number? with
  | some m, some n => m.compare n == some .eq
  | _, _ => match a, b with
    | .none, .none => true
    | .str s, .str t => s == t
    | _, _ => false

mutual
/-- Equality, where `nan` tells which NaNs count as one item inside a container. -/
def equalBy (nan : Double → Double → Bool) : Value → Value → Bool
  | .list xs, .list ys => equalList nan xs ys
  | .dict xs, .dict ys => xs.length == ys.length && equalFields nan xs ys
  | .vec2 x y, .vec2 x' y' => sameBy nan x x' && sameBy nan y y'
  | .vec3 x y z, .vec3 x' y' z' => sameBy nan x x' && sameBy nan y y' && sameBy nan z z'
  | a, b => equalLeaf a b
/-- Equality of items of a container. -/
def sameBy (nan : Double → Double → Bool) : Value → Value → Bool
  | .float x, .float y => x.eq y || nan x y
  | .list xs, .list ys => equalList nan xs ys
  | .dict xs, .dict ys => xs.length == ys.length && equalFields nan xs ys
  | .vec2 x y, .vec2 x' y' => sameBy nan x x' && sameBy nan y y'
  | .vec3 x y z, .vec3 x' y' z' => sameBy nan x x' && sameBy nan y y' && sameBy nan z z'
  | a, b => equalLeaf a b
def equalList (nan : Double → Double → Bool) : List Value → List Value → Bool
  | [], [] => true
  | a :: as, b :: bs => sameBy nan a b && equalList nan as bs
  | _, _ => false
/-- Every field of the first table is in the second one. -/
def equalFields (nan : Double → Double → Bool) : List (String × Value) → List (String × Value) → Bool
  | [], _ => true
  | (k, v) :: rest, other =>
    (match other.lookup k with
      | some w => sameBy nan v w
      | Option.none => false) && equalFields nan rest other
end

def equal (a b : Value) : Bool := equalBy Double.sameNaN a b

/-- Equality of items: as for values, and a NaN equals a NaN of the same origin. -/
def same (a b : Value) : Bool := sameBy Double.sameNaN a b

/-- Equality of two values one of which was derived from the other without computing: every NaN
still is the one it was. -/
def equalKept (a b : Value) : Bool := equalBy (fun x y => x.isNaN && x == y) a b

/-- The four order relations. -/
inductive Relation where
  | lt | le | gt | ge
  deriving DecidableEq, Repr

def Relation.symbol : Relation → String
  | .lt => "<"
  | .le => "<="
  | .gt => ">"
  | .ge => ">="

def Relation.holds : Relation → Ordering → Bool
  | .lt, o => o.isLT
  | .le, o => o.isLE
  | .gt, o => o.isGT
  | .ge, o => o.isGE

/-- Order of values that are not two lists. -/
def orderLeaf (r : Relation) (a b : Value) : Except Fault Bool :=
  match a.number?, b.number? with
  | some m, some n => .ok ((m.compare n).any r.holds)
  | _, _ => match a, b with
    | .str s, .str t => .ok (r.holds (Ord.compare s t))
    | _, _ => .error (.order r.symbol a.typeName b.typeName)

mutual
/-- Whether `a` stands in the relation to `b`; lists compare at their first difference. -/
def order (r : Relation) : Value → Value → Except Fault Bool
  | .list xs, .list ys => orderLists r xs ys
  | a, b => orderLeaf r a b
def orderLists (r : Relation) : List Value → List Value → Except Fault Bool
  | [], [] => .ok (r.holds .eq)
  | [], _ :: _ => .ok (r.holds .lt)
  | _ :: _, [] => .ok (r.holds .gt)
  | a :: as, b :: bs => if same a b then orderLists r as bs else order r a b
end

/-- Whether a value can be a key; lists, tables and vectors cannot. -/
def hashed : Value → Except Fault Unit
  | v@(.list _) | v@(.dict _) | v@(.vec2 _ _) | v@(.vec3 _ _ _) => .error (.unhashable v.typeName)
  | _ => .ok ()

/-- The name that a value is when used as a key among names. -/
def key? (v : Value) : Except Fault (Option String) := do
  v.hashed
  match v with
  | .str s => return some s
  | _ => return Option.none

end Value

end FlowGraph
