import FlowGraph.Text.Classes

/-!
Quoted text: single quotes, or double ones around a text that has single and no double quotes. The
backslash, the chosen quote and everything unprintable are escaped.
-/
namespace FlowGraph.Text

def hexDigits (width n : Nat) : List Char :=
  let ds := Nat.toDigits 16 n
  List.replicate (width - ds.length) '0' ++ ds

def singleQuote : Char := Char.ofNat 39
def backslash : Char := Char.ofNat 92

/-- The first of the code points that stand for lone halves. -/
def firstHalf : Nat := 0x10f800

/-- Half of a pair of units that came without the other half. No character is that, so it is carried as
one of the last code points, which have no use of their own. -/
def half (unit : Nat) : Char := Char.ofNat (firstHalf + (unit - 0xd800))

/-- The unit of a lone half. -/
def halfUnit? (c : Char) : Option Nat :=
  if firstHalf ≤ c.toNat then some (0xd800 + (c.toNat - firstHalf)) else none

def unitEscape (u : Nat) : List Char := backslash :: 'u' :: hexDigits 4 u

/-- A character of the upper planes inside quotes, which is a lone half or not printable. -/
def escapeUpper (c : Char) : List Char :=
  match halfUnit? c with
  | some u => unitEscape u
  | none => backslash :: 'U' :: hexDigits 8 c.toNat

/-- One character inside quotes `q`. -/
def escapeChar (q c : Char) : List Char :=
  if c == q || c == backslash then [backslash, c]
  else if c == '\n' then [backslash, 'n']
  else if c == '\r' then [backslash, 'r']
  else if c == '\t' then [backslash, 't']
  else if isPrintable c then [c]
  else if c.toNat < 0x100 then backslash :: 'x' :: hexDigits 2 c.toNat
  else if c.toNat < 0x10000 then unitEscape c.toNat
  else escapeUpper c

def quoteFor (cs : List Char) : Char :=
  if cs.contains singleQuote && !cs.contains '"' then '"' else singleQuote

def quote (s : String) : String :=
  let cs := s.toList
  let q := quoteFor cs
  String.ofList (q :: (cs.flatMap (escapeChar q) ++ [q]))

end FlowGraph.Text
