import FlowGraph.Number.Decimal

/-!
Numbers as they are entered in settings and documents, in plain digits only. A whole number may have
blanks around it, a plus, zeros in front, underscores between its digits and a fraction of zeros. The
underscores of a number with fraction or exponent may stand anywhere inside it.
-/
namespace FlowGraph.Entry

open Decimal

/-- The characters without underscores, which stand alone and inside. -/
def withoutUnderscores (cs : List Char) : Option (List Char) :=
  if cs.head? == some '_' || cs.getLast? == some '_' then none
  else if (cs.zip cs.tail).any fun p => p.1 == '_' && p.2 == '_' then none
  else some (cs.filter (· ≠ '_'))

/-- A whole number in its shortest form: a minus or none, then digits without a zero in front of
others. Too many digits count before what follows them. -/
def plainInteger (cs : List Char) : IntegerText :=
  let negative := cs.head? == some '-'
  let body := if negative then cs.tail else cs
  let ds := body.takeWhile Char.isDigit
  let isWhole := ds.length == body.length
  match ds with
  | [] => .malformed
  | '0' :: more => if more.isEmpty && isWhole then .number 0 else .malformed
  | _ =>
    let size := ds.length + if negative then 1 else 0
    if digitLimit < size then .tooLong size
    else if isWhole then .number (if negative then -(digitsToNat ds : Int) else digitsToNat ds)
    else .malformed

/-- What is left behind a zero and further zeros; `last` is the character before. A point keeps that
character, and so does the end. -/
def dropZeros : Char → List Char → Option (List Char)
  | last, [] => some [last]
  | last, c :: rest =>
    if c == '0' then dropZeros c rest
    else if c == '_' then (if last == '_' then none else dropZeros c rest)
    else if c == '.' then some (last :: c :: rest)
    else if c.isDigit then some (c :: rest)
    else none

/-- The text of a number without zeros in front. -/
def withoutZeros : List Char → Option (List Char)
  | [] => none
  | c :: rest =>
    if c == '0' then dropZeros c rest
    else if c == '-' || c.isDigit then some (c :: rest)
    else none

/-- The text of a number without a fraction of zeros. -/
def withoutZeroFraction (cs : List Char) : List Char :=
  match cs.dropWhile (· ≠ '.') with
  | _ :: fraction =>
    if !fraction.isEmpty && fraction.all (· == '0') then cs.takeWhile (· ≠ '.') else cs
  | [] => cs

/-- The text without a plus, in front of which no minus may stand. -/
def withoutPlus : List Char → Option (List Char)
  | '+' :: '-' :: _ => none
  | '+' :: rest => some rest
  | cs => some cs

/-- A whole number with the liberties of an entry taken away. -/
def cleaned (cs : List Char) : Option (List Char) := do
  let digits ← withoutZeros (← withoutPlus (trimmed isNumberBlank cs))
  withoutUnderscores (withoutZeroFraction digits)

def readInteger (s : String) : IntegerText :=
  match plainInteger s.toList with
  | .malformed => ((cleaned s.toList).map plainInteger).getD .malformed
  | found => found

/-- A number with or without fraction and exponent. Blanks and underscores do not go together. -/
def readDouble? (s : String) : Option Double :=
  match readSigned (trimmed isNumberBlank s.toList) with
  | some x => some x
  | none => (withoutUnderscores s.toList).bind readSigned

end FlowGraph.Entry
