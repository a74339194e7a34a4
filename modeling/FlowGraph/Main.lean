import FlowGraph.CommandLine.Commands

/-!
The program: reads the files that the command line names, carries it out, and shows the result.
-/
namespace FlowGraph.CommandLine

/-- The files that a command line names. -/
def filesNamed (words : List String) : List String :=
  match Invocation.ofWords words with
  | .error _ => []
  | .ok i => i.config :: match i.command with
    | some (.run graph _ _ _) | some (.validate graph) => [graph]
    | _ => []

def readText (path : String) : IO (Option String) := do
  try return some (← IO.FS.readFile path)
  catch _ => return none

def readFiles (paths : List String) : IO Files := do
  let mut found : List (String × String) := []
  for path in paths do
    if let some text ← readText path then found := found ++ [(path, text)]
  return Files.ofList found

def showReport (r : Report) : IO UInt32 := do
  IO.print r.text
  for l in r.log do IO.eprintln (l.level.title ++ " " ++ l.text)
  match r.ending with
  | .returned code | .stopped code => return code.toUInt32

end FlowGraph.CommandLine

open FlowGraph.CommandLine in
def main (words : List String) : IO UInt32 := do
  let files ← readFiles (filesNamed words)
  match FlowGraph.CommandLine.run files words with
  | .ok report => showReport report
  | .error e => do
    IO.eprintln e.message
    return 1
