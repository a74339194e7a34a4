import FlowGraph.CommandLine.Arguments
import FlowGraph.CommandLine.Help

/-!
What a command line asks for: a command with its options, or a help page.
-/
namespace FlowGraph.CommandLine

inductive Command where
  | run (graph : String) (ticks : Int) (tickSeconds : Value) (maxSteps : Option Int)
  | validate (graph : String)
  | nodes (category search : Option String)
  deriving Repr

/-- A command line that was understood. Without a command there is nothing to do. -/
structure Invocation where
  config : String
  isVerbose : Bool
  command : Option Command
  deriving Repr

/-- A command line that was not carried out. -/
inductive Refusal where
  | mistake
  | help (page : Page)
  | dividerValue
  deriving DecidableEq, Repr

/-- The options of the program and of each command. -/
def Page.grammar : Page → Grammar
  | program => ⟨[helpSwitch, ⟨["--config"], "config", .text⟩, ⟨["-v", "--verbose"], "verbose", .nothing⟩], .command⟩
  | run => ⟨[helpSwitch, ⟨["--ticks"], "ticks", .integer⟩, ⟨["--tick-seconds"], "tickSeconds", .number⟩,
      ⟨["--max-steps"], "maxSteps", .integer⟩], .one "graph"⟩
  | validate => ⟨[helpSwitch], .one "graph"⟩
  | nodes => ⟨[helpSwitch, ⟨["--category"], "category", .text⟩, ⟨["--search"], "search", .text⟩], .nothing⟩

/-- The page of a command. -/
def Page.ofCommand? : String → Option Page
  | "run" => some .run
  | "validate" => some .validate
  | "nodes" => some .nodes
  | _ => none

/-- Reads words by the grammar of a page; a wish for help is answered by that page. -/
def Page.read (page : Page) (words : List String) : Except Refusal Parsed :=
  match page.grammar.read words with
  | .ok p => .ok p
  | .error .mistake => .error .mistake
  | .error .help => .error (.help page)
  | .error .dividerValue => .error .dividerValue

namespace Parsed

def text? (p : Parsed) (key : String) : Option String := match p.values.get? key with
  | some (.str s) => some s
  | _ => none

def integer? (p : Parsed) (key : String) : Option Int := match p.values.get? key with
  | some (.int i) => some i
  | _ => none

end Parsed

def usualTickSeconds : Value := .float (Double.ofDecimal false 16 (-3))

/-- The command of a page with its values; a missing argument is a mistake. -/
def Page.command (page : Page) (p : Parsed) : Except Refusal (Option Command) :=
  match page, p.text? "graph" with
  | .program, _ => .ok none
  | .run, some graph => .ok (some (.run graph ((p.integer? "ticks").getD 0)
      ((p.values.get? "tickSeconds").getD usualTickSeconds) (p.integer? "maxSteps")))
  | .validate, some graph => .ok (some (.validate graph))
  | .nodes, _ => .ok (some (.nodes (p.text? "category") (p.text? "search")))
  | _, none => .error .mistake

def usualConfig : String := "scriptgraph.json"

/-- Reads the command behind the program's options; tells whether some word had no place. -/
def readCommand : List String → Except Refusal (Option Command × Bool)
  | [] => .ok (none, false)
  | name :: words => match Page.ofCommand? name with
    | none => .error .mistake
    | some page => do
      let p ← page.read words
      return (← page.command p, p.hasExtras)

/-- What a command line asks for. -/
def Invocation.ofWords (words : List String) : Except Refusal Invocation := do
  let p ← Page.program.read words
  let (command, hasExtras) ← readCommand p.command
  if p.hasExtras || hasExtras then throw .mistake
  return { config := (p.text? "config").getD usualConfig, isVerbose := p.values.has "verbose", command := command }

end FlowGraph.CommandLine
