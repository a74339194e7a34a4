import FlowGraph.Fault
import FlowGraph.Table
import FlowGraph.Value.Basic

/-!
Reading document text. Numbers without point and exponent are integers; `NaN` and the infinities are
numbers too; of a repeated field the last value counts. Control characters inside texts, commas before
a closing bracket and anything behind the value are refused. Brackets inside brackets are followed to a
certain depth, and a text that goes deeper is given up there.
-/
namespace FlowGraph.Json

def isBlank (c : Char) : Bool := c == ' ' || c == '\t' || c == '\n' || c == '\r'

def skipBlanks (cs : List Char) : List Char := cs.dropWhile isBlank

def after? : List Char → List Char → Option (List Char)
  | [], cs => some cs
  | w :: ws, c :: cs => if w = c then after? ws cs else none
  | _ :: _, [] => none

def hexValue? (c : Char) : Option Nat :=
  if c.isDigit then some (c.toNat - 48)
  else if 'a' ≤ c ∧ c ≤ 'f' then some (c.toNat - 87)
  else if 'A' ≤ c ∧ c ≤ 'F' then some (c.toNat - 55)
  else none

/-- Four hexadecimal digits. -/
def unit? : List Char → Option (Nat × List Char)
  | a :: b :: c :: d :: rest => do
    let n := (← hexValue? a) * 4096 + (← hexValue? b) * 256 + (← hexValue? c) * 16 + (← hexValue? d)
    return (n, rest)
  | _ => none

/-- The character of an escape of one letter. -/
def shortEscape? : Char → Option Char
  | '"' => some '"'
  | '/' => some '/'
  | 'b' => some (Char.ofNat 8)
  | 'f' => some (Char.ofNat 12)
  | 'n' => some '\n'
  | 'r' => some '\r'
  | 't' => some '\t'
  | c => if c = Text.backslash then some c else none

/-- The second half of a pair of units, if it follows. -/
def lowHalf? : List Char → Option (Nat × List Char)
  | c :: 'u' :: rest =>
    if c = Text.backslash then
      (unit? rest).bind fun (u, rest) => if 0xdc00 ≤ u ∧ u < 0xe000 then some (u, rest) else none
    else none
  | _ => none

/-- The character that a unit begins. A half without its partner stays a lone half. -/
def unitChar (u : Nat) (rest : List Char) : Char × List Char :=
  if 0xd800 ≤ u ∧ u < 0xdc00 then
    match lowHalf? rest with
    | some (v, rest) => (Char.ofNat (0x10000 + (u - 0xd800) * 0x400 + (v - 0xdc00)), rest)
    | none => (Text.half u, rest)
  else if 0xdc00 ≤ u ∧ u < 0xe000 then (Text.half u, rest)
  else (Char.ofNat u, rest)

/-- The rest of a text up to its closing quote; `acc` is what was read, last character first. -/
def readText : Nat → List Char → List Char → Option (String × List Char)
  | 0, _, _ => none
  | _, _, [] => none
  | fuel + 1, acc, c :: cs =>
    if c = '"' then some (String.ofList acc.reverse, cs)
    else if c = Text.backslash then
      match cs with
      | 'u' :: rest => (unit? rest).bind fun (u, rest) =>
        let (d, rest) := unitChar u rest
        readText fuel (d :: acc) rest
      | e :: rest => (shortEscape? e).bind fun d => readText fuel (d :: acc) rest
      | [] => none
    else if c.toNat < 32 then none
    else readText fuel (c :: acc) cs

/-- Digits of the whole part: no zero in front of other digits. -/
def wholePart? (cs : List Char) : Option (List Char × List Char) :=
  match cs with
  | '0' :: rest => some (['0'], rest)
  | _ =>
    let ds := cs.takeWhile Char.isDigit
    if ds.isEmpty then none else some (ds, cs.dropWhile Char.isDigit)

/-- A point with digits, if they follow. -/
def fractionPart (cs : List Char) : List Char × List Char :=
  match cs with
  | '.' :: rest =>
    let ds := rest.takeWhile Char.isDigit
    if ds.isEmpty then ([], cs) else ('.' :: ds, rest.dropWhile Char.isDigit)
  | _ => ([], cs)

def exponentPart (cs : List Char) : List Char × List Char :=
  match cs with
  | e :: rest =>
    if e == 'e' || e == 'E' then
      let (sign, body) := match rest with
        | '+' :: r => (['+'], r)
        | '-' :: r => (['-'], r)
        | r => ([], r)
      let ds := body.takeWhile Char.isDigit
      if ds.isEmpty then ([], cs) else (e :: (sign ++ ds), body.dropWhile Char.isDigit)
    else ([], cs)
  | [] => ([], cs)

def readNumber (cs : List Char) : Option (Value × List Char) := do
  let (sign, body) := match cs with
    | '-' :: r => (['-'], r)
    | r => ([], r)
  let (whole, rest) ← wholePart? body
  let (fraction, rest) := fractionPart rest
  let (exponent, rest) := exponentPart rest
  if fraction.isEmpty && exponent.isEmpty then
    match Decimal.readInteger (String.ofList (sign ++ whole)) with
    | .number i => return (.int i, rest)
    | _ => none
  else
    let x ← Decimal.readDouble? (String.ofList (sign ++ whole ++ fraction ++ exponent))
    return (.float x, rest)

/-- The words that are values of their own. All NaNs read from texts are one. -/
def words : List (String × Value) := [
  ("null", .none), ("true", .bool true), ("false", .bool false),
  ("NaN", .float (Double.nanLabelled 1)), ("Infinity", .float Double.infinity),
  ("-Infinity", .float (Double.ofWord true Double.infinityWord))]

def readWord (cs : List Char) : Option (Value × List Char) :=
  words.findSome? fun w => (after? w.1.toList cs).map fun rest => (w.2, rest)

/-- Why a text is not read: it is no document, or brackets of a kind nest too deep in it. -/
inductive Obstacle where
  | malformed
  | tooDeep (isArray : Bool)
  deriving DecidableEq, Repr

abbrev Reading := Except Obstacle

/-- What was found, or else the text is no document. -/
def found {α : Type} : Option α → Reading α
  | some a => .ok a
  | none => .error .malformed

def expect (c : Char) : List Char → Reading (List Char)
  | d :: rest => if d = c then .ok rest else .error .malformed
  | [] => .error .malformed

mutual
/-- One value at the start of the characters; `fuel` bounds how many parts it may have, `size` how long
its texts may be, and `room` how deep its brackets may nest. -/
def readValue (size : Nat) : Nat → Nat → List Char → Reading (Value × List Char)
  | 0, _, _ => .error .malformed
  | fuel + 1, room, cs =>
    match cs with
    | '"' :: rest => (found (readText size [] rest)).map fun (s, rest) => (.str s, rest)
    | '[' :: rest =>
      match room, skipBlanks rest with
      | 0, _ => .error (.tooDeep true)
      | _, ']' :: rest => .ok (.list [], rest)
      | room + 1, rest => (readItems size fuel room rest).map fun (xs, rest) => (.list xs, rest)
    | c :: rest =>
      if c.toNat = 0x7b then
        match room, skipBlanks rest with
        | 0, _ => .error (.tooDeep false)
        | room + 1, d :: rest' =>
          if d.toNat = 0x7d then .ok (.dict [], rest')
          else (readFields size fuel room (d :: rest')).map fun (fs, rest) =>
            (.dict (Table.ofList fs).entries, rest)
        | _, [] => .error .malformed
      else match readWord cs with
        | some r => .ok r
        | none => found (readNumber cs)
    | [] => .error .malformed
/-- Items up to the closing bracket; the first one begins here. -/
def readItems (size : Nat) : Nat → Nat → List Char → Reading (List Value × List Char)
  | 0, _, _ => .error .malformed
  | fuel + 1, room, cs => do
    let (v, rest) ← readValue size fuel room cs
    match skipBlanks rest with
    | ',' :: rest => do
      let (vs, rest) ← readItems size fuel room (skipBlanks rest)
      return (v :: vs, rest)
    | ']' :: rest => return ([v], rest)
    | _ => .error .malformed
/-- Fields up to the closing bracket; the first name begins here. -/
def readFields (size : Nat) : Nat → Nat → List Char → Reading (List (String × Value) × List Char)
  | 0, _, _ => .error .malformed
  | fuel + 1, room, cs => do
    let (k, rest) ← found (readText size [] (← expect '"' cs))
    let rest ← expect ':' (skipBlanks rest)
    let (v, rest) ← readValue size fuel room (skipBlanks rest)
    match skipBlanks rest with
    | ',' :: rest => do
      let (fs, rest) ← readFields size fuel room (skipBlanks rest)
      return ((k, v) :: fs, rest)
    | d :: rest => if d.toNat = 0x7d then return ([(k, v)], rest) else .error .malformed
    | [] => .error .malformed
end

/-- How deep brackets may nest. -/
def depthLimit : Nat := 985

def readWhole (s : String) : Reading Value := do
  let cs := s.toList
  let (v, rest) ← readValue (cs.length + 1) (cs.length + 1) depthLimit (skipBlanks cs)
  if (skipBlanks rest).isEmpty then return v else .error .malformed

/-- The value that a text stands for, none if it is no document. A text that nests too deep is a fault. -/
def read (s : String) : Except Fault (Option Value) :=
  match readWhole s with
  | .ok v => .ok (some v)
  | .error .malformed => .ok none
  | .error (.tooDeep isArray) => .error (.nestedTooDeep isArray)

end FlowGraph.Json
