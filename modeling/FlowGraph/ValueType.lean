import FlowGraph.Failure
import FlowGraph.Value.Arithmetic
import FlowGraph.Value.Identity

/-!
Value types: how the values of a socket's or variable's type are made, written to a document, read
back, compared, copied and blended.
-/
namespace FlowGraph

inductive ValueType where
  | flow
  | boolean
  | integer
  | float
  | string
  | vector (d : Dimension)
  /-- A type that takes every value as it is and starts from a given one. -/
  | custom (name : String) (start : Value)
  deriving DecidableEq, Repr

namespace ValueType

/-- The name reserved for execution control. -/
def flowName : String := "flow"

def name : ValueType → String
  | flow => flowName
  | boolean => "boolean"
  | integer => "integer"
  | float => "float"
  | string => "string"
  | vector .two => "vec2"
  | vector .three => "vec3"
  | custom n _ => n

def isFlow (t : ValueType) : Bool := t.name == flowName

def label (t : ValueType) : String := "<ValueType " ++ t.name ++ ">"

/-- The value that a socket of the type starts with, made anew each time. -/
def create : ValueType → Value
  | flow => .none
  | boolean => .bool false
  | integer => .int 0
  | float => .float Double.zero
  | string => .str ""
  | vector d => d.origin
  | custom _ start => start.renewed

/-- The form in which a document holds the value. -/
def encode : ValueType → Value → Except Fault Value
  | flow, _ => .ok .none
  | boolean, v => .ok (.bool v.truth)
  | integer, v => v.toInteger
  | float, v => v.toFloat
  | string, v => v.display.map .str
  | vector _, v => v.components.map .list
  | custom _ _, v => .ok v

/-- A text as a boolean, in any case and with blanks around it. -/
def booleanOfText (s : String) : Except Fault Value :=
  let word := Text.lower (Text.trim s)
  if word ∈ ["true", "1", "yes"] then .ok (.bool true)
  else if word ∈ ["false", "0", "no", ""] then .ok (.bool false)
  else .error (.badBoolean s)

/-- The items of a value that can be gone through: a list's items, a text's characters. -/
def items (v : Value) : Except Fault (List Value) :=
  match v with
  | .list xs => .ok xs
  | .str s => .ok (s.toList.map fun c => .str (String.singleton c))
  | .dict fields => .ok (fields.map fun f => .str f.1)
  | _ => .error (.notIterable v.typeName)

/-- A vector from a list of components, or from a table of them by axis. -/
def vectorOf (d : Dimension) (v : Value) : Except Fault Value := do
  let raw := match v with
    | .dict fields => .list (d.axes.map fun a => (fields.lookup a).getD (.float Double.zero))
    | other => other
  let cs ← (← items raw).mapM Value.toFloat
  if cs.length ≠ d.count then throw (.vectorSize (vector d).name d.count cs.length)
  d.vector cs

/-- The value that a document's form stands for. -/
def decode : ValueType → Value → Except Fault Value
  | flow, _ => .ok .none
  | boolean, .str s => booleanOfText s
  | boolean, v => .ok (.bool v.truth)
  | integer, .str s => Value.toInteger (.str (Text.trim s))
  | integer, .float x => if x.isIntegral then Value.toInteger (.float x) else .error (.notIntegral x)
  | integer, v => v.toInteger
  | float, v => v.toFloat
  | string, v => v.display.map .str
  | vector d, v => vectorOf d v
  | custom _ _, v => .ok v

def equals : ValueType → Value → Value → Except Fault Bool
  | flow, _, _ => .ok true
  | vector _, a, b => Value.equalVectors a b
  | _, a, b => .ok (Value.equal a b)

def clone : ValueType → Value → Except Fault Value
  | vector d, v => do d.vector (← v.components)
  | _, v => .ok v

def half : Double := Double.ofRatio false 1 2

/-- The value that lies the part `t` of the way from `a` to `b`; types without arithmetic jump in the
middle. -/
def blend : ValueType → Value → Value → Value → Except Fault Value
  | integer, a, b, t => do
    let r ← (← Value.blend a b t).round
    r.toInteger
  | float, a, b, t => Value.blend a b t
  | vector d, a, b, t => a.blendVectors d b t
  | _, a, b, t => do return if ← Value.order .lt t (.float half) then a else b

end ValueType

end FlowGraph
