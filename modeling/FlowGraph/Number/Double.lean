import FlowGraph.Number.Power

/-!
Binary64 numbers by their 64 bits. Order, comparison with integers, rounding of quotients and
remainders are exact integer arithmetic on the bits; the four operations, the square root, powers
and the angle functions come from the machine.

A NaN keeps its payload as long as it is only passed on, and the payload tells apart the NaNs that a
program got hold of separately. Arithmetic always yields the NaN of payload zero.
-/
namespace FlowGraph

structure Double where
  bits : UInt64
  deriving DecidableEq, Repr, Inhabited

namespace Double

def toFloat (d : Double) : Float := Float.ofBits d.bits
def ofFloat (f : Float) : Double := ⟨f.toBits⟩

def signWord : Nat := twoPow 63

/-- How many fractions there are, one for each word of the fraction bits. -/
def fractions : Nat := twoPow 52

/-- The word with the highest fraction bit alone. -/
def quietWord : Nat := twoPow 51

def magnitude (d : Double) : Nat := d.bits.toNat % signWord

def isNegative (d : Double) : Bool := signWord ≤ d.bits.toNat

/-- The word of positive infinity: all exponent bits, no fraction. -/
def infinityWord : Nat := 2047 * fractions

def isNaN (d : Double) : Bool := infinityWord < d.magnitude
def isInfinite (d : Double) : Bool := d.magnitude == infinityWord
def isFinite (d : Double) : Bool := d.magnitude < infinityWord

def ofWord (negative : Bool) (word : Nat) : Double :=
  ⟨(word + if negative then signWord else 0).toUInt64⟩

def zero : Double := ⟨0⟩
def infinity : Double := ofWord false infinityWord
def nan : Double := ofWord false (infinityWord + quietWord)

/-- The NaN that carries the label `n`; label zero is the NaN of arithmetic. -/
def nanLabelled (n : Nat) : Double := ofWord false (infinityWord + quietWord + n % quietWord)

/-- Two NaNs of one origin: the same word, and not the NaN that arithmetic yields. -/
def sameNaN (a b : Double) : Bool := a.isNaN && a == b && a != nan

/-- A finite number is `significand * 2 ^ scale`, up to its sign. -/
def significand (d : Double) : Nat :=
  if d.magnitude < fractions then d.magnitude else d.magnitude % fractions + fractions

def scale (d : Double) : Int :=
  if d.magnitude < fractions then -1074 else (d.magnitude / fractions : Nat) - 1075

def signed (d : Double) (n : Nat) : Int := if d.isNegative then -(n : Int) else n

/-- Position on the number line among the words; both zeros stand at the origin. -/
def rank (d : Double) : Int := d.signed d.magnitude

/-- Numeric equality: no NaN equals anything, the two zeros are equal. -/
def eq (a b : Double) : Bool := !a.isNaN && !b.isNaN && a.rank == b.rank
def lt (a b : Double) : Bool := !a.isNaN && !b.isNaN && a.rank < b.rank
def le (a b : Double) : Bool := !a.isNaN && !b.isNaN && a.rank ≤ b.rank

def isZero (d : Double) : Bool := d.magnitude == 0

/-- Exact comparison with an integer; a NaN compares with nothing. -/
def compareInt (d : Double) (i : Int) : Option Ordering :=
  if d.isNaN then none
  else if d.isInfinite then some (if d.isNegative then .lt else .gt)
  else if 0 ≤ d.scale then some (compare (d.signed d.significand * twoPow d.scale.toNat) i)
  else some (compare (d.signed d.significand) (i * twoPow (-d.scale).toNat))

/-- The quotient rounded to the nearest integer, a half to the even neighbour. -/
def roundQuotient (num den : Nat) : Nat :=
  let q := num / den
  let r := num % den
  if 2 * r < den then q
  else if den < 2 * r then q + 1
  else q + q % 2

/-- The fraction `num / (den * 2 ^ e)` as a pair of numerator and denominator. -/
def scaled (num den : Nat) (e : Int) : Nat × Nat :=
  if 0 ≤ e then (num, den * twoPow e.toNat) else (num * twoPow (-e).toNat, den)

/-- The double nearest to `num / den`, a half to the even word; too large a quotient is infinite. -/
def ofRatio (negative : Bool) (num den : Nat) : Double :=
  if num = 0 then ofWord negative 0
  else
    let guess : Int := max (-1074) ((Nat.log2 num : Int) - Nat.log2 den - 53)
    let f := scaled num den guess
    let e := if 2 * fractions ≤ f.1 / f.2 then guess + 1 else guess
    let f := scaled num den e
    let word := (e + 1074).toNat * fractions + roundQuotient f.1 f.2
    ofWord negative (min word infinityWord)

/-- The double nearest to an integer, unless it is too large. -/
def ofInt? (i : Int) : Option Double :=
  let d := ofRatio (i < 0) i.natAbs 1
  if d.isInfinite then none else some d

/-- The double nearest to `digits * 10 ^ exponent`. -/
def ofDecimal (negative : Bool) (digits : Nat) (exponent : Int) : Double :=
  if digits = 0 then ofWord negative 0
  else if 400 < exponent then ofWord negative infinityWord
  else if exponent < -(400 + Nat.log2 digits : Int) then ofWord negative 0
  else if 0 ≤ exponent then ofRatio negative (digits * tenPow exponent.toNat) 1
  else ofRatio negative digits (tenPow (-exponent).toNat)

def one : Double := ofRatio false 1 1

def add (a b : Double) : Double := ofFloat (a.toFloat + b.toFloat)
def sub (a b : Double) : Double := ofFloat (a.toFloat - b.toFloat)
def mul (a b : Double) : Double := ofFloat (a.toFloat * b.toFloat)
def div (a b : Double) : Double := ofFloat (a.toFloat / b.toFloat)
def neg (a : Double) : Double := if a.isNaN then nan else ofWord (!a.isNegative) a.magnitude
def abs (a : Double) : Double := if a.isNaN then nan else ofWord false a.magnitude
def sqrt (a : Double) : Double := ofFloat a.toFloat.sqrt
def sin (a : Double) : Double := ofFloat a.toFloat.sin
def cos (a : Double) : Double := ofFloat a.toFloat.cos
def tan (a : Double) : Double := ofFloat a.toFloat.tan
def pow (a b : Double) : Double := ofFloat (a.toFloat.pow b.toFloat)
def pi : Double := ⟨0x400921fb54442d18⟩

/-- The two finite numbers as integers over their common power of two. -/
def aligned (a b : Double) : Nat × Nat × Int :=
  let e := min a.scale b.scale
  (a.significand * twoPow (a.scale - e).toNat, b.significand * twoPow (b.scale - e).toNat, e)

/-- The remainder with the sign of `a`, exact; none where it is not defined. -/
def remainder? (a b : Double) : Option Double :=
  if a.isNaN || b.isNaN then some nan
  else if a.isInfinite || b.isZero then none
  else if b.isInfinite then some a
  else
    let (x, y, e) := aligned a b
    let f := scaled (x % y) 1 (-e)
    some (ofRatio a.isNegative f.1 f.2)

def floor (d : Double) : Int :=
  if 0 ≤ d.scale then d.signed d.significand * twoPow d.scale.toNat
  else Int.fdiv (d.signed d.significand) (twoPow (-d.scale).toNat)

def ceil (d : Double) : Int := -(d.neg.floor)

def truncate (d : Double) : Int := if d.isNegative then d.ceil else d.floor

/-- The integer nearest to a finite number, a half to the even one. -/
def roundEven (d : Double) : Int :=
  let f := scaled d.significand 1 (-d.scale)
  d.signed (roundQuotient f.1 f.2)

def isIntegral (d : Double) : Bool := d.isFinite && (d.compareInt d.floor == some .eq)

/-- Why a power has no value. -/
inductive PowerGap where
  | domain | range
  deriving DecidableEq, Repr

def isOdd (d : Double) : Bool := d.isIntegral && d.floor % 2 == 1

/-- Powers with the limits for infinite arguments written out. -/
def power (x y : Double) : Except PowerGap Double :=
  if x.isNaN then .ok (if y.isZero then one else nan)
  else if y.isNaN then .ok (if eq x one then one else nan)
  else if x.isInfinite then
    if y.isZero then .ok one
    else if !y.isNegative then .ok (if y.isOdd then x else x.abs)
    else .ok (if y.isOdd then ofWord x.isNegative 0 else zero)
  else if y.isInfinite then
    if eq x.abs one then .ok one
    else if !y.isNegative && lt one x.abs then .ok y
    else if y.isNegative && lt x.abs one then .ok y.neg
    else .ok zero
  else
    let r := pow x y
    if r.isNaN then .error .domain
    else if r.isInfinite then .error (if x.isZero then .domain else .range)
    else .ok r

end Double

end FlowGraph
