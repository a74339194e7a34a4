import FlowGraph.Text.CaseMap
import FlowGraph.Value.Order
import FlowGraph.Value.Text

/-!
Arithmetic and text operations on dynamic values. Numbers of different kinds meet as doubles; what
an operation is not defined for is a fault that names the operand types.
-/
namespace FlowGraph

/-- A number as a double. -/
def Number.toDouble : Number → Except Fault Double
  | .int i => match Double.ofInt? i with
    | some x => .ok x
    | none => .error .integerTooLarge
  | .float x => .ok x

/-- An operation given on integers and on doubles. -/
def Number.lift (onInt : Int → Int → Except Fault Number) (onDouble : Double → Double → Except Fault Double) :
    Number → Number → Except Fault Number
  | .int a, .int b => onInt a b
  | m, n => do
    let x ← m.toDouble
    let y ← n.toDouble
    return .float (← onDouble x y)

namespace Value

def arithmetic (symbol : String) (op : Number → Number → Except Fault Number) (a b : Value) :
    Except Fault Value :=
  match a.number?, b.number? with
  | some m, some n => (op m n).map Number.toValue
  | _, _ => .error (.operands symbol a.typeName b.typeName)

/-- Sum of numbers, or two texts or lists one after the other. -/
def add (a b : Value) : Except Fault Value :=
  match a, b with
  | .str s, .str t => .ok (.str (s ++ t))
  | .list xs, .list ys => .ok (.list (xs ++ ys))
  | .str _, _ | .list _, _ => .error (.concatenation a.typeName b.typeName)
  | _, _ => arithmetic "+" (Number.lift (fun m n => .ok (.int (m + n))) fun x y => .ok (x.add y)) a b

def sub (a b : Value) : Except Fault Value :=
  arithmetic "-" (Number.lift (fun m n => .ok (.int (m - n))) fun x y => .ok (x.sub y)) a b

/-- The largest count of characters or items that can be told at all. -/
def countLimit : Int := twoPow 63 - 1

/-- The largest count of characters or items that there is room for. -/
def roomLimit : Int := twoPow 32

def repeatText (s : String) (n : Int) : Except Fault Value :=
  if countLimit < s.length * n then .error .textTooLong
  else if roomLimit < s.length * n then .error .outOfMemory
  else .ok (.str (if s.isEmpty then s else String.join (List.replicate n.toNat s)))

def repeatList (xs : List Value) (n : Int) : Except Fault Value :=
  if roomLimit < xs.length * n then .error .outOfMemory
  else .ok (.list (if xs.isEmpty then [] else (List.replicate n.toNat xs).flatten))

/-- A text or a list, as something that can be repeated. -/
def repeating? : Value → Option (Int → Except Fault Value)
  | .str s => some (repeatText s)
  | .list xs => some (repeatList xs)
  | _ => Option.none

/-- Repetition as often as a value says. A number that is no count is refused whatever is repeated. -/
def repeatBy (repetition : Int → Except Fault Value) (times : Value) : Except Fault Value :=
  match times.integer? with
  | some n => if -countLimit - 1 ≤ n ∧ n ≤ countLimit then repetition n else .error .countTooLarge
  | Option.none => .error (.repetition times.typeName)

/-- Product of numbers, or a text or list repeated. -/
def mul (a b : Value) : Except Fault Value :=
  match a.repeating?, b.repeating? with
  | some r, _ => repeatBy r b
  | Option.none, some r => repeatBy r a
  | Option.none, Option.none =>
    arithmetic "*" (Number.lift (fun m n => .ok (.int (m * n))) fun x y => .ok (x.mul y)) a b

/-- The exact quotient of two integers, rounded. -/
def quotient (m n : Int) : Except Fault Number :=
  if n = 0 then .error .quotientDivision
  else
    let x := Double.ofRatio ((m < 0) != (n < 0)) m.natAbs n.natAbs
    if x.isInfinite then .error .quotientTooLarge else .ok (.float x)

def div (a b : Value) : Except Fault Value :=
  arithmetic "/" (Number.lift quotient fun x y =>
    if y.isZero then .error .floatDivision else .ok (x.div y)) a b

/-- The whole part of a quotient of doubles that are not negative: what is left without the remainder is
divided, and the quotient taken to the whole number it is nearest to. -/
def wholeQuotient (x y : Double) : Except Fault Double :=
  if y.isZero then .error .floatFloorDivision
  else match x.remainder? y with
    | Option.none => .ok Double.nan
    | some r =>
      let q := (x.sub r).div y
      if q.isFinite then
        let whole := Double.ofRatio false q.floor.natAbs 1
        .ok (if (Double.ofRatio false 1 2).lt (q.sub whole) then whole.add Double.one else whole)
      else .ok (if q.isNaN then Double.nan else q)

def floorDiv (a b : Value) : Except Fault Value :=
  arithmetic "//" (Number.lift
    (fun m n => if n = 0 then .error .integerDivision else .ok (.int (m / n))) wholeQuotient) a b

def neg (a : Value) : Except Fault Value :=
  match a.number? with
  | some (.int i) => .ok (.int (-i))
  | some (.float x) => .ok (.float x.neg)
  | Option.none => .error (.operand "-" a.typeName)

def abs (a : Value) : Except Fault Value :=
  match a.number? with
  | some (.int i) => .ok (.int i.natAbs)
  | some (.float x) => .ok (.float x.abs)
  | Option.none => .error (.absoluteOf a.typeName)

/-- Quotient cut toward zero: the quotient of the magnitudes, with a sign if the signs differ. -/
def truncDiv (a b : Value) : Except Fault Value := do
  let q ← floorDiv (← abs a) (← abs b)
  let s ← order .ge a (.int 0)
  let t ← order .ge b (.int 0)
  if s == t then return q else neg q

/-- What cutting the quotient toward zero leaves over. -/
def truncMod (a b : Value) : Except Fault Value := do
  sub a (← mul b (← truncDiv a b))

/-- The second value if it is smaller, else the first. -/
def smaller (a b : Value) : Except Fault Value := do
  return if ← order .lt b a then b else a

/-- The second value if it is larger, else the first. -/
def larger (a b : Value) : Except Fault Value := do
  return if ← order .gt b a then b else a

/-- The point that lies the part `t` of the way from `a` to `b`. -/
def blend (a b t : Value) : Except Fault Value := do
  add a (← mul (← sub b a) t)

def wholeOf (rule : Double → Int) (x : Double) : Except Fault Value :=
  if x.isNaN then .error .nanToInteger
  else if x.isInfinite then .error .infinityToInteger
  else .ok (.int (rule x))

/-- The integer that a value stands for: a text is read, a float is cut toward zero. -/
def toInteger (v : Value) : Except Fault Value :=
  match v with
  | .str s => match Decimal.readInteger s with
    | .number i => .ok (.int i)
    | .tooLong n => .error (.digitsRead n)
    | .malformed => .error (.badInteger ((Text.quote s).take 200).toString)
  | .float x => wholeOf Double.truncate x
  | .int i => .ok (.int i)
  | .bool b => .ok (.int (if b then 1 else 0))
  | _ => .error (.integerFrom v.typeName)

/-- The float that a value stands for: a text is read. -/
def toFloat (v : Value) : Except Fault Value :=
  match v with
  | .str s => match Decimal.readDouble? s with
    | some x => .ok (.float x)
    | Option.none => .error (.badFloat s)
  | .float x => .ok (.float x)
  | _ => match v.number? with
    | some n => n.toDouble.map .float
    | Option.none => .error (.floatFrom v.typeName)

/-- A number as a double; texts are not read. -/
def toReal (v : Value) : Except Fault Double :=
  match v.number? with
  | some n => n.toDouble
  | Option.none => .error (.realFrom v.typeName)

/-- Rounding to an integer; integers stay. -/
def rounded (rule : Double → Int) (refusal : String → Fault) (v : Value) : Except Fault Value :=
  match v.number? with
  | some (.int i) => .ok (.int i)
  | some (.float x) => wholeOf rule x
  | Option.none => .error (refusal v.typeName)

def floor : Value → Except Fault Value := rounded Double.floor .realFrom
def ceil : Value → Except Fault Value := rounded Double.ceil .realFrom
def round : Value → Except Fault Value := rounded Double.roundEven .noRounding

def remainder (a b : Value) : Except Fault Value := do
  let x ← a.toReal
  let y ← b.toReal
  match x.remainder? y with
  | some r => return .float r
  | Option.none => throw .mathDomain

def power (a b : Value) : Except Fault Value := do
  let x ← a.toReal
  let y ← b.toReal
  match x.power y with
  | .ok r => return .float r
  | .error .domain => throw .mathDomain
  | .error .range => throw .mathRange

/-- A function of one real that has no value where the result would be a NaN out of a number. -/
def real (a : Value) (f : Double → Double) : Except Fault Value := do
  let x ← a.toReal
  let r := f x
  if r.isNaN && !x.isNaN then throw .mathDomain
  return .float r

/-- Number of characters, items or fields. -/
def length (v : Value) : Except Fault Value :=
  match v with
  | .str s => .ok (.int s.length)
  | .list xs => .ok (.int xs.length)
  | .dict fields => .ok (.int fields.length)
  | _ => .error (.noLength v.typeName)

/-- An operation on texts that other values refuse by the name `method`. -/
def onText (v : Value) (method : String) (f : String → String) : Except Fault Value :=
  match v with
  | .str s => .ok (.str (f s))
  | _ => .error (.notText method v.typeName)

/-- Whether the characters `part` occur in a row in the text. -/
def occurs (part : List Char) : List Char → Bool
  | [] => part.isEmpty
  | c :: cs => part.isPrefixOf (c :: cs) || occurs part cs

/-- Whether a text occurs in a text, a value in a list, or a name among the fields of a table. -/
def contains (whole part : Value) : Except Fault Bool :=
  match whole, part with
  | .str s, .str t => .ok (occurs t.toList s.toList)
  | .str _, _ => .error (.substringFrom part.typeName)
  | .list xs, _ => .ok (xs.any (same · part))
  | .dict fields, _ => part.key?.map fun k => k.any fun name => fields.any (·.1 == name)
  | _, _ => .error (.notContainer whole.typeName)

def components (v : Value) : Except Fault (List Value) :=
  match v.components? with
  | some cs => .ok cs
  | Option.none => .error (.noFeature v.typeName "components")

/-- One coordinate of a vector by name. -/
def coordinate (v : Value) (axis : String) : Except Fault Value :=
  match v, axis with
  | .vec2 x _, "x" | .vec3 x _ _, "x" => .ok x
  | .vec2 _ y, "y" | .vec3 _ y _, "y" => .ok y
  | .vec3 _ _ z, "z" => .ok z
  | _, _ => .error (.noFeature v.typeName axis)

end Value

/-- The two sizes of vectors. -/
inductive Dimension where
  | two | three
  deriving DecidableEq, Repr

namespace Dimension

def count : Dimension → Nat
  | two => 2
  | three => 3

def axes : Dimension → List String
  | two => ["x", "y"]
  | three => ["x", "y", "z"]

/-- The vector with the given components; missing ones are zero. -/
def vector (d : Dimension) (cs : List Value) : Except Fault Value :=
  let at_ (i : Nat) : Value := cs.getD i (.float Double.zero)
  match d with
  | two => if 2 < cs.length then .error .vectorArguments else .ok (.vec2 (at_ 0) (at_ 1))
  | three => .ok (.vec3 (at_ 0) (at_ 1) (at_ 2))

def origin : Dimension → Value
  | two => .vec2 (.float Double.zero) (.float Double.zero)
  | three => .vec3 (.float Double.zero) (.float Double.zero) (.float Double.zero)

end Dimension

namespace Value

/-- An operation on the components of two vectors, pair by pair. -/
def zipVectors (d : Dimension) (op : Value → Value → Except Fault Value) (a b : Value) :
    Except Fault Value := do
  let xs ← a.components
  let ys ← b.components
  d.vector (← (xs.zip ys).mapM fun p => op p.1 p.2)

def dot (a b : Value) : Except Fault Value := do
  let xs ← a.components
  let ys ← b.components
  (xs.zip ys).foldlM (fun sum p => do add sum (← mul p.1 p.2)) (.int 0)

def norm (v : Value) : Except Fault Value := do
  real (← dot v v) Double.sqrt

def scaleVector (v : Value) (d : Dimension) (s : Value) : Except Fault Value := do
  d.vector (← (← v.components).mapM (mul · s))

/-- The vector of length one in the same direction; the origin stays. -/
def normalize (v : Value) (d : Dimension) : Except Fault Value := do
  let n ← norm v
  if equal n (.float Double.zero) then return d.origin
  d.vector (← (← v.components).mapM (div · n))

def blendVectors (a : Value) (d : Dimension) (b t : Value) : Except Fault Value :=
  zipVectors d (blend · · t) a b

def equalVectors (a b : Value) : Except Fault Bool := do
  return equal (.list (← a.components)) (.list (← b.components))

def cross (a b : Value) : Except Fault Value := do
  let minor (p q : String) : Except Fault Value := do
    let s ← mul (← a.coordinate p) (← b.coordinate q)
    sub s (← mul (← a.coordinate q) (← b.coordinate p))
  Dimension.three.vector [← minor "y" "z", ← minor "z" "x", ← minor "x" "y"]

end Value

end FlowGraph
