import FlowGraph.Catalogue.Core
import FlowGraph.Catalogue.State
import FlowGraph.Catalogue.Vectors
import FlowGraph.CommandLine.Invocation
import FlowGraph.CommandLine.Report
import FlowGraph.Document.Load
import FlowGraph.Engine.Lifetime
import FlowGraph.Graph.Check
import FlowGraph.Registry.Check
import FlowGraph.Settings.Keeper

/-!
The commands: running a graph, checking one, and listing the node types. Whatever is wrong with a graph
or its nodes is told in the output; other failures escape.
-/
namespace FlowGraph.CommandLine

/-- What a command has shown so far. -/
structure Console where
  output : List String := []
  events : List Event := []

/-- A command under way; what it showed before a failure stays shown. -/
abbrev Work := ExceptT Failure (StateM Console)

def say (line : String) : Work Unit := modify fun c => { c with output := c.output ++ [line] }

def Work.ofExcept {α : Type} (x : Except Failure α) : Work α := ExceptT.mk (pure x)

def registry : Except Failure Registry :=
  Registry.create [Catalogue.core, Catalogue.vectors, Catalogue.state] [.scheduler, .lifecycle] true

/-- The graph in a file. -/
def loadGraph (files : Files) (path : String) (r : Registry) (replaceLinks : Bool) : Except Failure Graph :=
  let name := Files.normal path
  match files.read? name with
  | none => .error (.integrity (.unreadable name))
  | some text => do
    match ← Except.lifted (Json.read text) with
    | some v => Graph.ofValue v { registry := r, replaceLinks := replaceLinks }
    | none => throw (.integrity (.unreadable name))

/-- The graph in a file and its problems, which are told. -/
def checkedGraph (files : Files) (path : String) (settings : RuntimeSettings) : Work (Graph × Bool) := do
  let r ← Work.ofExcept registry
  let (g, problems) := (← Work.ofExcept (loadGraph files path r settings.replaceLinks)).problems
  let ps ← Work.ofExcept (Except.lifted problems)
  if !ps.isEmpty then
    say ("✗ " ++ path ++ ": " ++ toString ps.length ++ " problems")
    ps.forM fun p => say ("  - " ++ p)
  return (g, ps.isEmpty)

/-- Lets a program live and keeps what was observed. -/
def rehearse (g : Graph) (settings : RuntimeSettings) (ticks : Int) (seconds : Value) : Work Play.Life := do
  let w : World := { graphs := #[g], clock := .eventLoop }
  let nodes := g.ids.values.map fun n => { graph := 0, serial := n : NodeRef }
  let (result, w) := (Play.liveOnce nodes settings ticks.toNat seconds).runOn w
  modify fun c => { c with events := w.journal.reverse }
  Work.ofExcept result

def runGraph (files : Files) (settings : RuntimeSettings) (path : String) (ticks : Int) (seconds : Value) :
    Work Nat := do
  let (g, isSound) ← checkedGraph files path settings
  if !isSound then return 1
  say ("Running '" ++ g.name ++ "' (" ++ toString g.ids.size ++ " nodes, " ++ toString ticks ++ " ticks)")
  let life ← rehearse g settings ticks seconds
  if life.errors.isEmpty then
    say ("✓ Finished after " ++ toString life.steps ++ " steps")
    return 0
  say ("✗ Finished with " ++ toString life.errors.length ++ " runtime errors after " ++
    toString life.steps ++ " steps:")
  life.errors.forM fun e => say ("  - " ++ e.message)
  return 1

def validateGraph (files : Files) (settings : RuntimeSettings) (path : String) : Work Nat := do
  let (g, isSound) ← checkedGraph files path settings
  if !isSound then return 1
  say ("✓ " ++ path ++ ": " ++ toString g.ids.size ++ " nodes, " ++ toString g.wires.length ++
    " links, no problems")
  return 0

def padded (width : Nat) (s : String) : String := s ++ String.ofList (List.replicate (width - s.length) ' ')

def nodeLine (d : Definition) : String :=
  "  " ++ padded 24 d.typeName ++ " " ++ padded 9 d.kind.text ++ " " ++ d.metadata.description

def sortedBy {α : Type} (key : α → String) (xs : List α) : List α :=
  xs.mergeSort fun a b => decide (key a ≤ key b)

/-- The definitions that a listing shows. -/
def listed (r : Registry) (category search : Option String) : List Definition :=
  let found := match search with
    | some q => if q.isEmpty then r.nodes.values else r.search q
    | none => r.nodes.values
  match category with
  | some c => if c.isEmpty then found else found.filter fun d => Text.lower d.category = Text.lower c
  | none => found

def listNodes (category search : Option String) : Work Nat := do
  let ds := listed (← Work.ofExcept registry) category search
  if ds.isEmpty then
    say "No matching node types"
    return 1
  (sortedBy (·.1) (Registry.grouped Definition.category ds)).forM fun group => do
    say ""
    say group.1
    say (String.ofList (List.replicate 50 '='))
    (sortedBy (·.typeName) group.2).forM fun d => say (nodeLine d)
  say ""
  say (toString ds.length ++ " node types")
  return 0

def Command.perform (files : Files) (settings : RuntimeSettings) : Command → Work Nat
  | .run graph ticks seconds maxSteps =>
    runGraph files { settings with maxSteps := maxSteps.getD settings.maxSteps } graph ticks seconds
  | .validate graph => validateGraph files settings graph
  | .nodes category search => listNodes category search

/-- Tells of a failure that concerns the graph or its nodes; others are passed on. -/
def Work.guarded (x : Work Nat) : Work Nat := do
  match ← ExceptT.mk do return .ok (← x.run) with
  | .ok code => return code
  | .error (.fault f) => throw (.fault f)
  | .error (.integrity e) =>
    say ("✗ Invalid graph: " ++ e.message)
    return 1
  | .error e =>
    say ("✗ Error: " ++ e.message)
    return 1

/-- Carries out a command line on some files. -/
def run (files : Files) (words : List String) : Except Failure Report :=
  match Invocation.ofWords words with
  | .error .mistake => .ok { ending := .stopped 2 }
  | .error (.help page) => .ok { ending := .stopped 0, output := page.lines }
  | .error .dividerValue => .error (.fault .dividerValue)
  | .ok invocation => match invocation.command with
    | none => .ok { ending := .returned 1, output := Page.program.lines }
    | some command => do
      let settings := (← Except.lifted (Keeper.load files invocation.config)).settings
      match ((command.perform files settings.runtime).guarded.run {}) with
      | (.error e, _) => throw e
      | (.ok code, c) => return {
          ending := .returned code, output := c.output
          log := logOf (invocation.isVerbose || settings.logging.debugMode) c.events }

end FlowGraph.CommandLine
