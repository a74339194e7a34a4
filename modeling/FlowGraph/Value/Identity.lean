import FlowGraph.Value.Basic

/-!
The identity of NaNs inside values. A NaN that was just made has no label. A value that is kept gets a
label of its own for each such NaN, by which it is known again wherever the value is passed on.
-/
namespace FlowGraph

/-- A NaN without label, as arithmetic yields it. -/
def Double.isFresh (d : Double) : Bool := d == nan

namespace Value

/-- A float with the next label, if it is a NaN without one. -/
def stampFloat (x : Double) : StateM Nat Value := do
  if x.isFresh then
    let n ← get
    set (n + 1)
    return .float (Double.nanLabelled n)
  return .float x

mutual
/-- The value with labels for its fresh NaNs, from the next label on. -/
def stamp : Value → StateM Nat Value
  | .float x => stampFloat x
  | .list xs => do return .list (← stampItems xs)
  | .dict fields => do return .dict (← stampFields fields)
  | .vec2 x y => do return .vec2 (← stamp x) (← stamp y)
  | .vec3 x y z => do return .vec3 (← stamp x) (← stamp y) (← stamp z)
  | v => return v
def stampItems : List Value → StateM Nat (List Value)
  | [] => return []
  | v :: vs => do return (← stamp v) :: (← stampItems vs)
def stampFields : List (String × Value) → StateM Nat (List (String × Value))
  | [] => return []
  | (k, v) :: rest => do return (k, ← stamp v) :: (← stampFields rest)
end

mutual
/-- Whether a NaN inside the value is fresh. -/
def hasFresh : Value → Bool
  | .float x => x.isFresh
  | .list xs => hasFreshItem xs
  | .dict fields => hasFreshField fields
  | .vec2 x y => hasFresh x || hasFresh y
  | .vec3 x y z => hasFresh x || hasFresh y || hasFresh z
  | _ => false
def hasFreshItem : List Value → Bool
  | [] => false
  | v :: vs => hasFresh v || hasFreshItem vs
def hasFreshField : List (String × Value) → Bool
  | [] => false
  | (_, v) :: rest => hasFresh v || hasFreshField rest
end

mutual
/-- The value made anew: its NaNs are none of those it was written with. -/
def renewed : Value → Value
  | .float x => .float (if x.isNaN then Double.nan else x)
  | .list xs => .list (renewedItems xs)
  | .dict fields => .dict (renewedFields fields)
  | .vec2 x y => .vec2 (renewed x) (renewed y)
  | .vec3 x y z => .vec3 (renewed x) (renewed y) (renewed z)
  | v => v
def renewedItems : List Value → List Value
  | [] => []
  | v :: vs => renewed v :: renewedItems vs
def renewedFields : List (String × Value) → List (String × Value)
  | [] => []
  | (k, v) :: rest => (k, renewed v) :: renewedFields rest
end

end Value

end FlowGraph
