import FlowGraph.Engine.Host

/-!
The life of a program on an event loop: its start, a number of ticks with a pause before each, and its
end, with the operations under way finished before and after it.
-/
namespace FlowGraph.Play

/-- Fires the timers with the given handles and leaves the others, all at the present time. -/
def fireReady (ready : List Nat) : Play Unit := do
  let s := (← get).scheduler
  let (old, young) := s.timers.partition fun t => ready.contains t.handle
  modify fun w => { w with scheduler := { s with timers := old } }
  let _ ← fireDue old.length s.now
  modify fun w => { w with scheduler := { w.scheduler with now := s.now, timers := young } }

def dueHandles (s : Scheduler (Nat × Nat)) : List Nat :=
  (s.timers.filter fun t => !Scheduler.earlier s.now t.due).map (·.handle)

/-- Waits for a time, and for every timer that falls due before it; `fuel` bounds the number of waits. -/
def sleepUntil (due : Value) : Nat → Play Unit
  | 0 => return ()
  | fuel + 1 => do
    let s := (← get).scheduler
    let first := match nextDue? s with
      | some d => if Scheduler.earlier d due then d else due
      | none => due
    let reached := EventLoop.wakeUp s.now first
    let _ ← advanceTo reached
    if Scheduler.earlier reached due then sleepUntil due fuel

/-- Pauses before a tick. A pause of some length lets all timers fire that fall due in it. A pause of no
length only gives way once: what was found due at the pause before, `ready`, fires now. Gives what is
found due at this one. -/
def pause (seconds : Value) (ready : List Nat) : Play (List Nat) := do
  if ← ofFault (Value.order .le seconds (.int 0)) then
    fireReady ready
    modify fun w => { w with scheduler := w.readClock }
    return dueHandles (← get).scheduler
  else
    let s := (← get).readClock
    let due ← ofFault (Value.larger s.now (← ofFault (s.now.add seconds)))
    modify fun w => { w with scheduler := s }
    sleepUntil due (s.timers.length + 2)
    return []

/-- Ticks with a pause before each, and the number of steps they took. -/
def tickAll (i : Nat) (seconds : Value) : Nat → List Nat → Play Nat
  | 0, _ => return 0
  | ticks + 1, ready => do
    let ready ← pause seconds ready
    let _ ← lifecycleTick seconds
    let n ← run i
    return n + (← tickAll i seconds ticks ready)

def finishAll (i : Nat) : Play Nat := do
  match ← runAsync i none none (.byTimers none) with
  | .finished n => return n
  | .cancelled => return 0

/-- What is left of a program when it is over. -/
structure Life where
  steps : Nat
  errors : List Failure

/-- The life of an engine. -/
def live (i : Nat) (ticks : Nat) (seconds : Value) : Play Life := do
  lifecycleStart
  let first ← run i
  let middle ← tickAll i seconds ticks []
  let before ← finishAll i
  lifecycleEnd
  let after ← finishAll i
  return ⟨first + middle + before + after, ((← get).engine i).errors⟩

/-- The life of a program with the given nodes. The engine is disposed of whatever happens. -/
def liveOnce (nodes : List NodeRef) (settings : RuntimeSettings) (ticks : Nat) (seconds : Value) : Play Life :=
  onLoop do
    let i ← makeEngine "main" nodes settings
    let result ← outcome (live i ticks seconds)
    dispose i
    ofExcept result

end FlowGraph.Play
