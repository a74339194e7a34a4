import FlowGraph.Fault
import FlowGraph.Value.Basic

/-!
The two texts of a value: as it is shown, and as a literal, where texts are quoted. Both can fail,
because an integer may have too many digits to be written.
-/
namespace FlowGraph.Value

mutual
def literal : Value → Except Fault String
  | .none => .ok "None"
  | .bool b => .ok (if b then "True" else "False")
  | .int i => match Decimal.writeInteger? i with
    | some s => .ok s
    | Option.none => .error .digitsWritten
  | .float x => .ok (Decimal.render Decimal.plain x)
  | .str s => .ok (Text.quote s)
  | .list xs => (literals xs).map fun ts => "[" ++ String.intercalate ", " ts ++ "]"
  | .dict fields => (fieldLiterals fields).map fun ts => "\x7b" ++ String.intercalate ", " ts ++ "\x7d"
  | .vec2 x y => do return "Vec2(x=" ++ (← literal x) ++ ", y=" ++ (← literal y) ++ ")"
  | .vec3 x y z => do
    return "Vec3(x=" ++ (← literal x) ++ ", y=" ++ (← literal y) ++ ", z=" ++ (← literal z) ++ ")"
def literals : List Value → Except Fault (List String)
  | [] => .ok []
  | v :: vs => do
    let t ← literal v
    return t :: (← literals vs)
def fieldLiterals : List (String × Value) → Except Fault (List String)
  | [] => .ok []
  | (k, v) :: rest => do
    let t ← literal v
    return (Text.quote k ++ ": " ++ t) :: (← fieldLiterals rest)
end

/-- The text of a value as it is shown: a text is its own text, all else is its literal. -/
def display : Value → Except Fault String
  | .str s => .ok s
  | v => v.literal

end FlowGraph.Value
