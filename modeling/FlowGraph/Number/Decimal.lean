import FlowGraph.Number.Double
import FlowGraph.Text.Classes

/-!
Decimal texts of numbers. A double is written with the fewest digits that read back as it, and of
those with the ones nearest to it. Reading takes the digits of any script, single underscores
between digits, and blanks around the number.
-/
namespace FlowGraph.Decimal

open Double Text

/-- The interval of reals that round to a finite positive double, over one common denominator. -/
structure Span where
  low : Nat
  value : Nat
  high : Nat
  den : Nat
  /-- Whether the two ends round to the double as well. -/
  closed : Bool

def span (d : Double) : Span :=
  let unit := twoPow d.scale.toNat
  let m := d.significand * unit
  let below := if d.significand = fractions ∧ -1074 < d.scale then 1 else 2
  { low := 4 * m - below * unit, value := 4 * m, high := 4 * m + 2 * unit
    den := 4 * twoPow (-d.scale).toNat, closed := d.significand % 2 = 0 }

/-- Numerators of `a * 10 ^ s` and `b / den` over a common denominator. -/
def align (a : Nat) (s : Int) (b den : Nat) : Nat × Nat :=
  if 0 ≤ s then (a * tenPow s.toNat * den, b) else (a * den, b * tenPow (-s).toNat)

def Span.holds (i : Span) (c : Nat) (s : Int) : Bool :=
  let (x, lo) := align c s i.low i.den
  let (_, hi) := align c s i.high i.den
  if i.closed then lo ≤ x && x ≤ hi else lo < x && x < hi

/-- Distance of `c * 10 ^ s` from the value, comparable for one `s`. -/
def Span.distance (i : Span) (c : Nat) (s : Int) : Nat :=
  let (x, v) := align c s i.value i.den
  (x - v) + (v - x)

/-- The grid point of step `10 ^ s` that reads back, the nearer of the two neighbours, a tie going to
the even one. -/
def Span.gridPoint? (i : Span) (s : Int) : Option Nat :=
  let (num, den) := if 0 ≤ s then (i.value, i.den * tenPow s.toNat) else (i.value * tenPow (-s).toNat, i.den)
  let c := num / den
  match i.holds c s, i.holds (c + 1) s with
  | true, false => some c
  | false, true => some (c + 1)
  | false, false => none
  | true, true =>
    let a := i.distance c s
    let b := i.distance (c + 1) s
    if a < b then some c else if b < a then some (c + 1) else some (c + c % 2)

/-- The number `p` with `10 ^ (p - 1) ≤ value < 10 ^ p`, found upward from a lower estimate. -/
def Span.magnitude (i : Span) : Nat → Int → Int
  | 0, p => p
  | fuel + 1, p =>
    let (x, v) := align 1 p i.value i.den
    if v < x then p else i.magnitude fuel (p + 1)

/-- Digits and exponent of the shortest decimal that reads back, trying one digit more each time. -/
def Span.shortest (i : Span) (p : Int) : Nat → Nat → Nat × Int
  | 0, n => ((i.gridPoint? (p - n)).getD 0, p - n)
  | fuel + 1, n =>
    match i.gridPoint? (p - n) with
    | some c => (c, p - n)
    | none => i.shortest p fuel (n + 1)

/-- Shortest digits `c` and exponent `s` of a finite positive double: it reads back from `c * 10 ^ s`. -/
def shortest (d : Double) : Nat × Int :=
  let i := span d
  let estimate := ((Nat.log2 d.significand : Int) + d.scale) * 30103 / 100000 - 1
  i.shortest (i.magnitude 6 estimate) 17 1

/-- How a number is laid out: the exponents written positionally, and the texts of what is not a
finite number. -/
structure Layout where
  least : Int
  most : Int
  nan : String
  infinity : String

/-- Layout of number texts inside values and messages. -/
def plain : Layout := ⟨-4, 15, "nan", "inf"⟩

/-- Layout inside a document file. -/
def document : Layout := ⟨-4, 15, "NaN", "Infinity"⟩

def zeros (n : Nat) : List Char := List.replicate n '0'

/-- Digits with the point after the first `point` of them; at least one digit on both sides. -/
def positional (digits : List Char) (point : Int) : List Char :=
  if point ≤ 0 then '0' :: '.' :: (zeros (-point).toNat ++ digits)
  else
    let p := point.toNat
    if digits.length ≤ p then digits ++ zeros (p - digits.length) ++ ['.', '0']
    else digits.take p ++ '.' :: digits.drop p

/-- One digit before the point, then the exponent with its sign and at least two digits. -/
def scientific (digits : List Char) (exponent : Int) : List Char :=
  let e := (Nat.toDigits 10 exponent.natAbs)
  let e := if e.length < 2 then '0' :: e else e
  let lead := match digits with
    | [d] => [d]
    | d :: rest => d :: '.' :: rest
    | [] => []
  lead ++ 'e' :: (if exponent < 0 then '-' else '+') :: e

/-- The text of a double. -/
def render (layout : Layout) (d : Double) : String :=
  if d.isNaN then layout.nan
  else
    let body :=
      if d.isInfinite then layout.infinity.toList
      else if d.isZero then ['0', '.', '0']
      else
        let (c, s) := shortest d
        let all := Nat.toDigits 10 c
        let digits := (all.reverse.dropWhile (· == '0')).reverse
        let exponent := (all.length : Int) + s - 1
        if layout.least ≤ exponent ∧ exponent ≤ layout.most then positional digits (exponent + 1)
        else scientific digits exponent
    String.ofList (if d.isNegative then '-' :: body else body)

/-- Blanks around a number: those of trimming without the four separators. -/
def isNumberBlank (c : Char) : Bool :=
  isBlank c && !(28 ≤ c.toNat && c.toNat ≤ 31)

def trimmed (isOuter : Char → Bool) (cs : List Char) : List Char :=
  ((cs.dropWhile isOuter).reverse.dropWhile isOuter).reverse

/-- The number's characters without blanks around them, every digit in its plain form. -/
def numberText (s : String) : List Char :=
  (trimmed isNumberBlank s.toList).map fun c => match digitValue? c with
    | some v => Char.ofNat (48 + v)
    | none => c

/-- Removes the underscores, each of which has to stand between two digits. -/
def stripUnderscores : List Char → Option (List Char)
  | [] => some []
  | '_' :: _ => none
  | c :: '_' :: d :: rest =>
    if c.isDigit && d.isDigit then (stripUnderscores (d :: rest)).map (c :: ·) else none
  | c :: rest => (stripUnderscores rest).map (c :: ·)

def digitsToNat (cs : List Char) : Nat :=
  Nat.ofDigitChars 10 cs 0

/-- The sign in front of a number, and what follows it. -/
def splitSign : List Char → Bool × List Char
  | '-' :: rest => (true, rest)
  | '+' :: rest => (false, rest)
  | cs => (false, cs)

/-- The longest integer text, in digits, that is read or written. -/
def digitLimit : Nat := 4300

/-- What reading an integer text gives. -/
inductive IntegerText where
  | number (i : Int)
  | tooLong (digits : Nat)
  | malformed
  deriving DecidableEq, Repr

/-- A sign, then digits. -/
def readInteger (s : String) : IntegerText :=
  let (negative, body) := splitSign (numberText s)
  match stripUnderscores body with
  | none => .malformed
  | some ds =>
    if ds.isEmpty || !ds.all Char.isDigit then .malformed
    else if digitLimit < ds.length then .tooLong ds.length
    else .number (if negative then -(digitsToNat ds : Int) else digitsToNat ds)

def integerBound : Nat := tenPow digitLimit

/-- The text of an integer, unless it has too many digits. -/
def writeInteger? (i : Int) : Option String :=
  if integerBound ≤ i.natAbs then none else some (toString i)

/-- An exponent mark with its digits, or nothing at all. -/
def readExponent : List Char → Option Int
  | [] => some 0
  | c :: rest =>
    if c == 'e' || c == 'E' then
      let (negative, ds) := splitSign rest
      if ds.isEmpty || !ds.all Char.isDigit then none
      else some (if negative then -(digitsToNat ds : Int) else digitsToNat ds)
    else none

/-- Digits with an optional point, at least one digit in all, then an optional exponent. -/
def readUnsigned (negative : Bool) (cs : List Char) : Option Double :=
  let whole := cs.takeWhile Char.isDigit
  let rest := cs.dropWhile Char.isDigit
  let (fraction, rest) := match rest with
    | '.' :: r => (r.takeWhile Char.isDigit, r.dropWhile Char.isDigit)
    | r => ([], r)
  if whole.isEmpty && fraction.isEmpty then none
  else (readExponent rest).map fun e =>
    ofDecimal negative (digitsToNat (whole ++ fraction)) (e - fraction.length)

/-- A sign, then a number, an infinity or a NaN, in any case. -/
def readSigned (cs : List Char) : Option Double :=
  let (negative, body) := splitSign cs
  let word := String.ofList (body.map Char.toLower)
  if word == "inf" || word == "infinity" then some (ofWord negative infinityWord)
  else if word == "nan" then some nan
  else readUnsigned negative body

def readDouble? (s : String) : Option Double := (stripUnderscores (numberText s)).bind readSigned

end FlowGraph.Decimal
