import FlowGraph.Engine.World

/-!
What a command line leaves behind: its output, its log and how it ended.
-/
namespace FlowGraph.CommandLine

inductive Level where
  | debug | info | warning | error
  deriving DecidableEq, Repr

namespace Level

def title : Level → String
  | debug => "DEBUG"
  | info => "INFO"
  | warning => "WARNING"
  | error => "ERROR"

/-- The level of a script's message of the given severity. -/
def ofSeverity : Value → Level
  | .str "verbose" => debug
  | .str "warning" => warning
  | .str "error" => error
  | _ => info

end Level

structure LogLine where
  level : Level
  text : String
  deriving DecidableEq, Repr

/-- What the log says of an observation. -/
def LogLine.ofEvent? : Event → Option LogLine
  | .logged severity text => match text.display with
    | .ok shown => some ⟨.ofSeverity severity, "[script] " ++ shown⟩
    | .error _ => none
  | .limited steps queued => some ⟨.warning, "Execution limit reached after " ++ toString steps ++ " steps; " ++
      toString queued ++ " fibers queued"⟩
  | .failed _ _ f => some ⟨.error, "Node runtime error: " ++ f.message⟩
  | _ => none

/-- The log as a console shows it: debugging messages only on demand. -/
def logOf (isVerbose : Bool) (events : List Event) : List LogLine :=
  (events.filterMap LogLine.ofEvent?).filter fun l => isVerbose || l.level ≠ .debug

/-- How a command line ended: it ran to its end, or it was stopped before its command. -/
inductive Ending where
  | returned (code : Nat)
  | stopped (code : Nat)
  deriving DecidableEq, Repr

structure Report where
  ending : Ending
  output : List String := []
  log : List LogLine := []
  deriving DecidableEq, Repr

def Report.text (r : Report) : String := String.join (r.output.map (· ++ "\n"))

end FlowGraph.CommandLine
