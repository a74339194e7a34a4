import FlowGraph.Json.Reader
import FlowGraph.Value.Basic

/-!
Reading settings text of the form `[table]`, `key = value`: dotted and quoted keys, inline tables and
arrays, numbers with underscores and in other bases, texts in both quotes, comments. A name can be
given once, and a table once.
-/
namespace FlowGraph.Toml

/-- A table under construction, with what may no longer be opened or changed. -/
structure Draft where
  fields : List (String × Value) := []
  /-- Tables that were opened by a header or by dotted keys. -/
  opened : List (List String) := []
  /-- Tables that dotted keys of the current section opened. -/
  pending : List (List String) := []
  /-- Inline tables and arrays, which nothing below may change. -/
  frozen : List (List String) := []

def isFrozen (d : Draft) (path : List String) : Bool := d.frozen.any (·.isPrefixOf path)

def setField (k : String) (v : Value) (fields : List (String × Value)) : List (String × Value) :=
  (Table.set ⟨fields⟩ k v).entries

/-- Puts a value at a path, making tables on the way; refuses to go through what is no table, or to
replace a value. -/
def insert (fields : List (String × Value)) : List String → Value → Option (List (String × Value))
  | [], _ => none
  | [k], v => if (fields.lookup k).isSome then none else some (setField k v fields)
  | k :: rest, v => match fields.lookup k with
    | none => (insert [] rest v).map fun inner => setField k (.dict inner) fields
    | some (.dict inner) => (insert inner rest v).map fun inner => setField k (.dict inner) fields
    | some _ => none

/-- Makes sure that a path leads to a table. -/
def nest (fields : List (String × Value)) : List String → Option (List (String × Value))
  | [] => some fields
  | k :: rest => match fields.lookup k with
    | none => (nest [] rest).map fun inner => setField k (.dict inner) fields
    | some (.dict inner) => (nest inner rest).map fun inner => setField k (.dict inner) fields
    | some _ => none

/-- The paths that lead to the path, without the empty one and the path itself. -/
def containers (base key : List String) : List (List String) :=
  (List.range (key.length - 1)).map fun i => base ++ key.take (i + 1)

/-- Opens a table by its header. -/
def openTable (d : Draft) (path : List String) : Option Draft := do
  let d := { d with opened := d.opened ++ d.pending, pending := [] }
  if path ∈ d.opened || isFrozen d path then none
  else
    let fields ← nest d.fields path
    return { d with fields := fields, opened := path :: d.opened }

def isCompound : Value → Bool
  | .dict _ | .list _ => true
  | _ => false

/-- Adds a field of the table at `base`. -/
def addField (d : Draft) (base key : List String) (v : Value) : Option Draft := do
  let inner := containers base key
  if inner.any (· ∈ d.opened) then none
  else
    let path := base ++ key
    if isFrozen d path.dropLast then none
    else
      let fields ← insert d.fields path v
      return { d with
        fields := fields
        pending := inner ++ d.pending
        frozen := if isCompound v then path :: d.frozen else d.frozen }

def isSpace (c : Char) : Bool := c == ' ' || c == '\t'

def skipSpaces (cs : List Char) : List Char := cs.dropWhile isSpace

def isControl (c : Char) : Bool := (c.toNat < 32 && c != '\t') || c.toNat = 127

/-- Skips a comment, which may not hold control characters. -/
def skipComment (cs : List Char) : Option (List Char) :=
  match cs with
  | '#' :: rest =>
    let rest := rest.dropWhile fun c => !isControl c
    match rest with
    | [] => some []
    | '\n' :: _ => some rest
    | _ => none
  | _ => some cs

/-- The characters of an escape with `n` hexadecimal digits. -/
def hexEscape (n : Nat) (cs : List Char) : Option (Char × List Char) := do
  let ds := cs.take n
  if ds.length < n then none
  else
    let v ← ds.foldlM (fun acc c => (Json.hexValue? c).map (acc * 16 + ·)) 0
    if v < 0xd800 ∨ (0xe000 ≤ v ∧ v < 0x110000) then return (Char.ofNat v, cs.drop n) else none

/-- The rest of a text in double quotes. -/
def basicText : Nat → List Char → List Char → Option (String × List Char)
  | 0, _, _ => none
  | _, _, [] => none
  | fuel + 1, acc, c :: cs =>
    if c = '"' then some (String.ofList acc.reverse, cs)
    else if c = Text.backslash then
      match cs with
      | 'u' :: rest => (hexEscape 4 rest).bind fun (d, rest) => basicText fuel (d :: acc) rest
      | 'U' :: rest => (hexEscape 8 rest).bind fun (d, rest) => basicText fuel (d :: acc) rest
      | '/' :: _ => none
      | e :: rest => (Json.shortEscape? e).bind fun d => basicText fuel (d :: acc) rest
      | [] => none
    else if isControl c then none
    else basicText fuel (c :: acc) cs

/-- The rest of a text in single quotes, where nothing is escaped. -/
def literalText (cs : List Char) : Option (String × List Char) :=
  let body := cs.takeWhile fun c => c != Text.singleQuote && !isControl c
  match cs.drop body.length with
  | c :: rest => if c = Text.singleQuote then some (String.ofList body, rest) else none
  | [] => none

def isBareKey (c : Char) : Bool := c.isAlphanum || c == '_' || c == '-'

/-- One part of a key. -/
def keyPart (cs : List Char) : Option (String × List Char) :=
  match cs with
  | [] => none
  | c :: rest =>
    if c = '"' then basicText (rest.length + 1) [] rest
    else if c = Text.singleQuote then literalText rest
    else
      let name := cs.takeWhile isBareKey
      if name.isEmpty then none else some (String.ofList name, cs.drop name.length)

/-- A key of parts with points between them, and what follows the blanks behind it. -/
def key : Nat → List Char → Option (List String × List Char)
  | 0, _ => none
  | fuel + 1, cs => do
    let (k, rest) ← keyPart cs
    match skipSpaces rest with
    | '.' :: rest =>
      let (ks, rest) ← key fuel (skipSpaces rest)
      return (k :: ks, rest)
    | rest => return ([k], rest)

/-- Digits in some base, with single underscores between them. -/
def digitsIn (base : Nat) (cs : List Char) : Option Nat := do
  if cs.isEmpty || cs.head? == some '_' || cs.getLast? == some '_' then none
  else if (cs.zip cs.tail).any fun p => p.1 == '_' && p.2 == '_' then none
  else (cs.filter (· ≠ '_')).foldlM (fun acc c => do
    let v ← Json.hexValue? c
    if v < base then return acc * base + v else none) 0

/-- A plain number: no zero in front of other digits, and digits on both sides of a point. -/
def decimal (word : List Char) : Option Value := do
  let (negative, body) := Decimal.splitSign word
  let whole := body.takeWhile fun c => c.isDigit || c == '_'
  let rest := body.drop whole.length
  let n ← digitsIn 10 whole
  if whole.length > 1 && whole.head? == some '0' then none
  else if rest.isEmpty then
    if Decimal.digitLimit < (whole.filter (· ≠ '_')).length then none
    else return .int (if negative then -(n : Int) else n)
  else
    let fraction := match rest with
      | '.' :: r => r.takeWhile fun c => c.isDigit || c == '_'
      | _ => []
    let afterPoint := match rest with
      | '.' :: r => r.drop fraction.length
      | r => r
    if rest.head? == some '.' && (digitsIn 10 fraction).isNone then none
    else
      let exponentOk := match afterPoint with
        | [] => true
        | e :: r => (e == 'e' || e == 'E') && (digitsIn 10 (Decimal.splitSign r).2).isSome
      if exponentOk then (Decimal.readDouble? (String.ofList word)).map .float else none

/-- A number or a truth value, by its word. -/
def word (w : List Char) : Option Value :=
  match String.ofList w with
  | "true" => some (.bool true)
  | "false" => some (.bool false)
  | "inf" | "+inf" => some (.float Double.infinity)
  | "-inf" => some (.float (Double.ofWord true Double.infinityWord))
  | "nan" | "+nan" | "-nan" => some (.float Double.nan)
  | _ => match w with
    | '0' :: 'x' :: ds => (digitsIn 16 ds).map fun n => .int n
    | '0' :: 'o' :: ds => (digitsIn 8 ds).map fun n => .int n
    | '0' :: 'b' :: ds => (digitsIn 2 ds).map fun n => .int n
    | _ => decimal w

def isWordChar (c : Char) : Bool := c.isAlphanum || c == '_' || c == '-' || c == '+' || c == '.'

/-- Blanks, line ends and comments inside an array. -/
def skipArrayBlanks : Nat → List Char → Option (List Char)
  | 0, cs => some cs
  | fuel + 1, cs =>
    match cs.dropWhile fun c => isSpace c || c == '\n' with
    | '#' :: rest => (skipComment ('#' :: rest)).bind (skipArrayBlanks fuel)
    | rest => some rest

mutual
def value : Nat → List Char → Option (Value × List Char)
  | 0, _ => none
  | fuel + 1, cs =>
    match cs with
    | [] => none
    | c :: rest =>
      if c = '"' then (basicText (rest.length + 1) [] rest).map fun (s, rest) => (.str s, rest)
      else if c = Text.singleQuote then (literalText rest).map fun (s, rest) => (.str s, rest)
      else if c = '[' then do
        match ← skipArrayBlanks rest.length rest with
        | ']' :: rest => return (.list [], rest)
        | rest => (arrayItems fuel rest).map fun (xs, rest) => (.list xs, rest)
      else if c.toNat = 0x7b then
        match skipSpaces rest with
        | d :: rest' =>
          if d.toNat = 0x7d then some (.dict [], rest')
          else (inlineFields fuel {} (d :: rest')).map fun (fs, rest) => (.dict fs, rest)
        | [] => none
      else
        let w := cs.takeWhile isWordChar
        (word w).map fun v => (v, cs.drop w.length)
/-- Items of an array up to its closing bracket. -/
def arrayItems : Nat → List Char → Option (List Value × List Char)
  | 0, _ => none
  | fuel + 1, cs => do
    let (v, rest) ← value fuel cs
    match ← skipArrayBlanks rest.length rest with
    | ',' :: rest =>
      match ← skipArrayBlanks rest.length rest with
      | ']' :: rest => return ([v], rest)
      | rest =>
        let (vs, rest) ← arrayItems fuel rest
        return (v :: vs, rest)
    | ']' :: rest => return ([v], rest)
    | _ => none
/-- Fields of an inline table up to its closing bracket. -/
def inlineFields : Nat → Draft → List Char → Option (List (String × Value) × List Char)
  | 0, _, _ => none
  | fuel + 1, d, cs => do
    let (k, rest) ← key cs.length cs
    let some ('=', rest) := rest.head?.map fun c => (c, rest.tail) | none
    let (v, rest) ← value fuel (skipSpaces rest)
    let path := k
    if isFrozen d path.dropLast then none
    else
      let fields ← insert d.fields path v
      let d := { d with fields := fields, frozen := if isCompound v then path :: d.frozen else d.frozen }
      match skipSpaces rest with
      | ',' :: rest => inlineFields fuel d (skipSpaces rest)
      | c :: rest => if c.toNat = 0x7d then return (d.fields, rest) else none
      | [] => none
end

/-- The end of a line: blanks and a comment, then nothing more. -/
def lineEnd (cs : List Char) : Option (List Char) := do
  match ← skipComment (skipSpaces cs) with
  | [] => return []
  | '\n' :: rest => return rest
  | _ => none

/-- Reads line by line; `base` is the table that the current section fills. -/
def lines : Nat → List String → Draft → List Char → Option Draft
  | 0, _, d, _ => some d
  | fuel + 1, base, d, cs =>
    match skipSpaces cs with
    | [] => some d
    | '\n' :: rest => lines fuel base d rest
    | '#' :: rest => do lines fuel base d (← skipComment ('#' :: rest))
    | '[' :: rest => do
      let (path, rest) ← key rest.length (skipSpaces rest)
      match rest with
      | ']' :: rest => lines fuel path (← openTable d path) (← lineEnd rest)
      | _ => none
    | cs => do
      let (k, rest) ← key cs.length cs
      match rest with
      | '=' :: rest =>
        let (v, rest) ← value (rest.length + 1) (skipSpaces rest)
        lines fuel base (← addField d base k v) (← lineEnd rest)
      | _ => none

def read (s : String) : Option Value :=
  let cs := (s.replace "\r\n" "\n").toList
  (lines (cs.length + 1) [] {} cs).map fun d => .dict d.fields

end FlowGraph.Toml
