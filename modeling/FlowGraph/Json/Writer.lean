import FlowGraph.Value.Arithmetic

/-!
Values as document text. Texts are written in ASCII with escapes, numbers as elsewhere, tables and
lists on one line or, with an indentation, one item a line.
-/
namespace FlowGraph.Json

open Text

/-- A character beyond the first plane: a lone half, or both halves of a pair. -/
def escapePair (c : Char) : List Char :=
  match halfUnit? c with
  | some u => unitEscape u
  | none =>
    let r := c.toNat - 0x10000
    unitEscape (0xd800 + r / 0x400) ++ unitEscape (0xdc00 + r % 0x400)

/-- One character inside a text: plain where it is printable ASCII. -/
def escape (c : Char) : List Char :=
  if c == '"' || c == backslash then [backslash, c]
  else if c == '\n' then [backslash, 'n']
  else if c == '\r' then [backslash, 'r']
  else if c == '\t' then [backslash, 't']
  else if c.toNat = 8 then [backslash, 'b']
  else if c.toNat = 12 then [backslash, 'f']
  else if 32 ≤ c.toNat ∧ c.toNat < 127 then [c]
  else if c.toNat < 0x10000 then unitEscape c.toNat
  else escapePair c

def text (s : String) : String := String.ofList ('"' :: (s.toList.flatMap escape ++ ['"']))

/-- How the items of tables and lists are set apart. -/
inductive Style where
  | oneLine
  /-- One item a line, after the text `unit` once for every bracket around it. -/
  | indented (unit : String)
  deriving DecidableEq, Repr

namespace Style

def spaces (width : Nat) : Style := indented (String.ofList (List.replicate width ' '))

/-- The style that a value asks for: nothing for one line, a text to repeat, or a number of blanks. -/
def ofValue : Value → Except Fault Style
  | .none => .ok oneLine
  | .str unit => .ok (indented unit)
  | width => do
    match ← (Value.str " ").mul width with
    | .str unit => return indented unit
    | _ => return oneLine

/-- The break before an item at a depth, and before a closing bracket. -/
def lineBreak (s : Style) (depth : Nat) : String :=
  match s with
  | oneLine => ""
  | indented unit => "\n" ++ String.join (List.replicate depth unit)

def separator (s : Style) (depth : Nat) : String :=
  match s with
  | oneLine => ", "
  | indented _ => "," ++ s.lineBreak depth

/-- Items between brackets; nothing stands between brackets without items. -/
def enclose (s : Style) (depth : Nat) (opening closing : String) (items : List String) : String :=
  if items.isEmpty then opening ++ closing
  else opening ++ s.lineBreak (depth + 1) ++ String.intercalate (s.separator (depth + 1)) items ++
    s.lineBreak depth ++ closing

end Style

mutual
def write (s : Style) (depth : Nat) : Value → Except Fault String
  | .none => .ok "null"
  | .bool b => .ok (if b then "true" else "false")
  | .int i => match Decimal.writeInteger? i with
    | some t => .ok t
    | none => .error .digitsWritten
  | .float x => .ok (Decimal.render Decimal.document x)
  | .str t => .ok (text t)
  | .list xs => (writeItems s (depth + 1) xs).map (s.enclose depth "[" "]")
  | .dict fields => (writeFields s (depth + 1) fields).map (s.enclose depth "\x7b" "\x7d")
  | .vec2 _ _ => .error (.notWritable "Vec2")
  | .vec3 _ _ _ => .error (.notWritable "Vec3")
def writeItems (s : Style) (depth : Nat) : List Value → Except Fault (List String)
  | [] => .ok []
  | v :: rest => do
    let t ← write s depth v
    return t :: (← writeItems s depth rest)
def writeFields (s : Style) (depth : Nat) : List (String × Value) → Except Fault (List String)
  | [] => .ok []
  | (k, v) :: rest => do
    let t ← write s depth v
    return (text k ++ ": " ++ t) :: (← writeFields s depth rest)
end

def render (s : Style) (v : Value) : Except Fault String := write s 0 v

end FlowGraph.Json
