import FlowGraph.Value.Arithmetic

/-!
The operators that function nodes compute with, by number of operands.
-/
namespace FlowGraph

inductive Unary where
  | negate | absolute | squareRoot | floor | ceil | round | sin | cos | tan
  | toInteger | toFloat | toText | booleanText | identity | not
  | length | upper | lower | trim
  | norm | normalize (d : Dimension)
  deriving DecidableEq, Repr

def Unary.apply : Unary → Value → Except Fault Value
  | negate, v => v.neg
  | absolute, v => v.abs
  | squareRoot, v => v.real Double.sqrt
  | floor, v => v.floor
  | ceil, v => v.ceil
  | round, v => v.round
  | sin, v => v.real Double.sin
  | cos, v => v.real Double.cos
  | tan, v => v.real Double.tan
  | toInteger, v => v.toInteger
  | toFloat, v => v.toFloat
  | toText, v => v.display.map .str
  | booleanText, v => .ok (.str (if v.truth then "true" else "false"))
  | identity, v => .ok v
  | not, v => .ok (.bool (!v.truth))
  | length, v => v.length
  | upper, v => v.onText "upper" Text.upper
  | lower, v => v.onText "lower" Text.lower
  | trim, v => v.onText "strip" Text.trim
  | norm, v => v.norm
  | normalize d, v => v.normalize d

inductive Binary where
  | add | sub | mul | div | remainder | power | smaller | larger | truncDiv | truncMod
  | equal | notEqual | order (r : Value.Relation) | both | either | contains
  | addVectors (d : Dimension) | subVectors (d : Dimension) | scaleVector (d : Dimension)
  | dot | equalVectors | cross
  deriving DecidableEq, Repr

def Binary.apply : Binary → Value → Value → Except Fault Value
  | add, a, b => a.add b
  | sub, a, b => a.sub b
  | mul, a, b => a.mul b
  | div, a, b => a.div b
  | remainder, a, b => a.remainder b
  | power, a, b => a.power b
  | smaller, a, b => a.smaller b
  | larger, a, b => a.larger b
  | truncDiv, a, b => a.truncDiv b
  | truncMod, a, b => a.truncMod b
  | equal, a, b => .ok (.bool (a.equal b))
  | notEqual, a, b => .ok (.bool (!a.equal b))
  | order r, a, b => (Value.order r a b).map .bool
  | both, a, b => .ok (if a.truth then b else a)
  | either, a, b => .ok (if a.truth then a else b)
  | contains, whole, part => (whole.contains part).map .bool
  | addVectors d, a, b => Value.zipVectors d Value.add a b
  | subVectors d, a, b => Value.zipVectors d Value.sub a b
  | scaleVector d, v, s => v.scaleVector d s
  | dot, a, b => a.dot b
  | equalVectors, a, b => (a.equalVectors b).map .bool
  | cross, a, b => a.cross b

inductive Ternary where
  | clamp | blend | blendVectors (d : Dimension)
  deriving DecidableEq, Repr

def Ternary.apply : Ternary → Value → Value → Value → Except Fault Value
  | clamp, v, lo, hi => do lo.larger (← hi.smaller v)
  | blend, a, b, t => a.blend b t
  | blendVectors d, a, b, t => a.blendVectors d b t

end FlowGraph
