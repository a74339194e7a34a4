import FlowGraph.Value.Arithmetic

/-!
The clock of an event loop. No two readings of it are the same, and it waits in whole milliseconds, so a
wait ends somewhat after the time it was for. Whatever has fallen due by then is done together.
-/
namespace FlowGraph.EventLoop

/-- Seconds between two readings of the clock. -/
def moment : Double := Double.ofDecimal false 2 (-5)

/-- Seconds from the end of a wait to the next reading. -/
def wakeMoment : Double := Double.ofDecimal false 8 (-5)

/-- A time as a double; all times of an event loop are numbers. -/
def seconds (t : Value) : Double :=
  match t.toReal with
  | .ok x => x
  | .error _ => Double.zero

/-- The next reading of the clock. -/
def reading (now : Value) : Value := .float ((seconds now).add moment)

/-- The length of a wait for a time that is so many seconds ahead: milliseconds, rounded up. -/
def waitFor (ahead : Double) : Double :=
  if Double.zero.lt ahead then
    Double.ofRatio false (ahead.mul (Double.ofRatio false 1000 1)).ceil.toNat 1000
  else Double.zero

/-- The first reading after a wait for the given time, which begins at the next reading. -/
def wakeUp (now due : Value) : Value :=
  let start := seconds (reading now)
  .float ((start.add (waitFor ((seconds due).sub start))).add wakeMoment)

end FlowGraph.EventLoop
