import FlowGraph.Table
import FlowGraph.Value.Arithmetic

/-!
Reading the words of a command line. A word is an option, an argument, or the divider after which all
words are arguments. Options may be cut short as long as only one name begins that way, carry their
value in the same word or take the next one, and short options without value may share a word.
-/
namespace FlowGraph.CommandLine

/-- Why reading stops before its end: a mistake, a wish for help, or an option whose value in the same
word is nothing but the divider. -/
inductive Stop where
  | mistake
  | help
  | dividerValue
  deriving DecidableEq, Repr

/-- What an option takes. -/
inductive Taking where
  | nothing | text | integer | number
  deriving DecidableEq, Repr

/-- An option with its names and the key of its value. -/
structure Switch where
  names : List String
  key : String
  taking : Taking
  deriving DecidableEq, Repr

/-- What stands besides the options. -/
inductive Tail where
  | nothing
  /-- One argument. -/
  | one (key : String)
  /-- A command, to which all words behind it belong. -/
  | command
  deriving DecidableEq, Repr

structure Grammar where
  switches : List Switch
  tail : Tail
  deriving Repr

def helpKey : String := "help"

def helpSwitch : Switch := ⟨["-h", "--help"], helpKey, .nothing⟩

/-- What stands in the same word behind an option. -/
abbrev Attached := List Char

/-- What a word is. A word that looks like an option may be none that is known. -/
inductive Word where
  | argument
  | divider
  | unknown
  | option (s : Switch) (isLong : Bool) (attached : Option Attached)
  deriving Repr

namespace Grammar

def named (g : Grammar) : List (String × Switch) := g.switches.flatMap fun s => s.names.map fun n => (n, s)

def find? (g : Grammar) (name : String) : Option Switch := g.named.lookup name

def cutAtMark (cs : List Char) : List Char × Option (List Char) :=
  match cs.dropWhile (· ≠ '=') with
  | _ :: value => (cs.takeWhile (· ≠ '='), some value)
  | [] => (cs, none)

def isLongName (cs : List Char) : Bool := match cs with
  | _ :: '-' :: _ => true
  | _ => false

/-- The options whose name a word can be the beginning of. A short option may have the rest of the word
for its value. -/
def candidates (g : Grammar) (cs : List Char) : List Word :=
  if isLongName cs then
    let (start, value) := cutAtMark cs
    g.named.filterMap fun n =>
      if start.isPrefixOf n.1.toList then some (.option n.2 true value) else none
  else
    g.named.filterMap fun n =>
      if n.1.toList = cs.take 2 then some (.option n.2 false (some (cs.drop 2)))
      else if cs.isPrefixOf n.1.toList then some (.option n.2 (isLongName n.1.toList) none)
      else none

def isDigit (c : Char) : Bool := (Text.digitValue? c).isSome

def withoutLineEnd (cs : List Char) : List Char := if cs.getLast? == some '\n' then cs.dropLast else cs

/-- Whether a word looks like a negative number, up to a line end. -/
def isNegative (cs : List Char) : Bool :=
  match withoutLineEnd cs with
  | '-' :: body =>
    (!body.isEmpty && body.all isDigit) ||
      (match body.dropWhile isDigit with
       | '.' :: fraction => !fraction.isEmpty && fraction.all isDigit
       | _ => false)
  | _ => false

/-- What a word before the divider is. -/
def classify (g : Grammar) (w : String) : Except Stop Word :=
  let cs := w.toList
  match cs with
  | '-' :: _ :: _ =>
    match g.find? w, cutAtMark cs with
    | some s, _ => .ok (.option s (isLongName cs) none)
    | none, (name, value) =>
      match g.find? (String.ofList name), value with
      | some s, some v => .ok (.option s (isLongName cs) (some v))
      | _, _ => match g.candidates cs with
        | [o] => .ok o
        | _ :: _ :: _ => .error .mistake
        | [] => .ok (if isNegative cs || cs.contains ' ' then .argument else .unknown)
  | _ => .ok .argument

def dividerText : String := "--"

def classifyAll (g : Grammar) : List String → Except Stop (List (String × Word))
  | [] => .ok []
  | w :: rest =>
    if w = dividerText then .ok ((w, .divider) :: rest.map fun a => (a, .argument))
    else do
      let k ← g.classify w
      return (w, k) :: (← g.classifyAll rest)

end Grammar

/-- Where an option's value comes from. -/
inductive Supply where
  | given (text : String)
  | following
  deriving Repr

/-- Takes apart an option and what is attached to it: its value, or further options of one letter. -/
def bundle (g : Grammar) : Switch → Bool → List Char → Except Stop (List (Switch × Supply))
  | s, _, [] => if s.taking = .nothing then .error .mistake else .ok [(s, .given "")]
  | s, isLong, c :: rest =>
    if s.taking ≠ .nothing then .ok [(s, .given (String.ofList (c :: rest)))]
    else if isLong then .error .mistake
    else match g.find? (String.ofList ['-', c]) with
      | none => .error .mistake
      | some t =>
        if rest.isEmpty then .ok [(s, .following), (t, .following)]
        else (bundle g t false rest).map ((s, .following) :: ·)

/-- What was read. -/
structure Parsed where
  values : Table String Value := {}
  hasTail : Bool := false
  command : List String := []
  /-- Whether some word had no place. -/
  hasExtras : Bool := false

/-- The value that a text stands for. -/
def Taking.read (t : Taking) (text : String) : Except Stop Value :=
  let result : Except Fault Value := match t with
    | .nothing => .ok (.bool true)
    | .text => .ok (.str text)
    | .integer => Value.toInteger (.str text)
    | .number => Value.toFloat (.str text)
  match result with
  | .ok v => .ok v
  | .error _ => .error .mistake

namespace Parsed

def set (p : Parsed) (s : Switch) (text : String) : Except Stop Parsed :=
  if s.key = helpKey then .error .help
  else if s.taking ≠ .nothing ∧ text = Grammar.dividerText then .error .dividerValue
  else do return { p with values := p.values.set s.key (← s.taking.read text) }

/-- Sets options in order; those that wait for the following word get it. -/
def setAll (p : Parsed) (following : String) (taken : List (Switch × Supply)) : Except Stop Parsed :=
  taken.foldlM (fun p o => match o.2 with
    | .given text => p.set o.1 text
    | .following => p.set o.1 following) p

end Parsed

/-- Whether the last of some options waits for a value in the following word. -/
def isWaiting (taken : List (Switch × Supply)) : Bool :=
  match taken.getLast? with
  | some (s, .following) => s.taking ≠ .nothing
  | _ => false

def optionsOf (g : Grammar) (s : Switch) (isLong : Bool) : Option Attached → Except Stop (List (Switch × Supply))
  | none => .ok [(s, .following)]
  | some attached => bundle g s isLong attached

/-- A reader between two words. -/
structure Reader where
  parsed : Parsed := {}
  /-- Options that wait for the next word. -/
  waiting : List (Switch × Supply) := []
  /-- Whether the word before was the one argument besides the options. -/
  isFresh : Bool := false

namespace Reader

/-- A word without place. -/
def extra (r : Reader) : Reader := { parsed := { r.parsed with hasExtras := true } }

def option (r : Reader) (taken : List (Switch × Supply)) : Except Stop Reader := do
  if isWaiting taken then return { parsed := r.parsed, waiting := taken }
  return { parsed := ← r.parsed.setAll "" taken }

/-- The next word. -/
def next (g : Grammar) (r : Reader) (w : String) (k : Word) : Except Stop Reader :=
  if !r.waiting.isEmpty then
    match k with
    | .argument => do return { parsed := ← r.parsed.setAll w r.waiting }
    | _ => .error .mistake
  else match k with
    | .unknown => .ok r.extra
    | .option s isLong attached => do r.option (← optionsOf g s isLong attached)
    | .argument => match g.tail, r.parsed.hasTail with
      | .one key, false =>
        .ok { parsed := { r.parsed with hasTail := true, values := r.parsed.values.set key (.str w) }, isFresh := true }
      | _, _ => .ok r.extra
    | .divider => match g.tail, r.parsed.hasTail with
      | .one _, false => .ok { r with isFresh := false }
      | .command, false => .error .mistake
      | _, _ => .ok (if r.isFresh then { r with isFresh := false } else r.extra)

/-- Whether the next word, if it is an argument, is a command. -/
def awaitsCommand (g : Grammar) (r : Reader) : Bool :=
  g.tail = .command && !r.parsed.hasTail && r.waiting.isEmpty

end Reader

def Word.isArgument : Word → Bool
  | argument => true
  | _ => false

/-- Reads words from the left; a command takes all that follow it. -/
def readWords (g : Grammar) : List (String × Word) → Reader → Except Stop Parsed
  | [], r => if r.waiting.isEmpty then .ok r.parsed else .error .mistake
  | (w, k) :: rest, r =>
    if k.isArgument && r.awaitsCommand g then
      .ok { r.parsed with hasTail := true, command := w :: rest.map (·.1) }
    else do readWords g rest (← r.next g w k)

def Grammar.read (g : Grammar) (words : List String) : Except Stop Parsed := do
  readWords g (← g.classifyAll words) {}

end FlowGraph.CommandLine
