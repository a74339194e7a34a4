import FlowGraph.Engine.Step

/-!
Time: firing timers, and asynchronous runs, which alternate between draining the engine and waiting
for its operations. A waiting run goes on once something has woken it.
-/
namespace FlowGraph.Play

/-- Fires one timer. On timers of other threads the operation is finished from outside. -/
def fire (t : Timer (Nat × Nat)) : Play Unit :=
  modify fun w =>
    let w := { w with scheduler := w.scheduler.cancel t.handle }
    w.finishOperation t.callback.1 t.callback.2 none (w.clock = .threads)

/-- Fires the timers due up to `target`, at most `fuel` of them, and counts them. -/
def fireDue : Nat → Value → Play Nat
  | 0, _ => return 0
  | fuel + 1, target => do
    match ← ofFault ((← get).scheduler.next? target) with
    | none => return 0
    | some (t, s) =>
      modify fun w => { w with scheduler := s }
      if s.isSpent t.handle then fireDue fuel target
      else
        fire t
        return 1 + (← fireDue fuel target)

/-- Moves the clock to a time, firing what is due on the way. -/
def advanceTo (target : Value) : Play Nat := do
  let n ← fireDue (← get).scheduler.timers.length target
  modify fun w => { w with scheduler := { w.scheduler with now := target } }
  return n

/-- Moves the clock forward by hand. -/
def advance (seconds : Value) : Play Nat := do
  let w ← get
  match w.clock with
  | .manual => advanceTo (← ofFault (w.scheduler.now.add seconds))
  | .eventLoop => throw (.fault (.noFeature "AsyncioScheduler" "advance"))
  | .threads => throw (.fault (.noFeature "ThreadingScheduler" "advance"))

/-- The due time of the first timer that was not cancelled. -/
def nextDue? (s : Scheduler (Nat × Nat)) : Option Value :=
  (s.timers.find? fun t => !s.isSpent t.handle).map (·.due)

/-- How an asynchronous run ended. -/
inductive Outcome where
  | finished (steps : Nat)
  | cancelled
  deriving DecidableEq, Repr

/-- How a run waits: by the times that the host hands it, or by the timers themselves up to a
deadline. -/
inductive Waiting where
  | byHand (seconds : List Value)
  | byTimers (deadline : Option Value)
  deriving Repr

/-- Lets time pass once; none if there is nothing left to wait for. -/
def passTime : Waiting → Play (Option Waiting)
  | .byHand [] => return none
  | .byHand (s :: rest) => do
    let _ ← advance s
    return some (.byHand rest)
  | .byTimers deadline => do
    match nextDue? (← get).scheduler with
    | none => return none
    | some due =>
      let late := match deadline with
        | some d => Scheduler.earlier d due
        | none => false
      if late then return none
      let w ← get
      let _ ← advanceTo (if w.clock = .eventLoop then EventLoop.wakeUp w.scheduler.now due else due)
      return some (.byTimers deadline)

/-- Waits until something wakes the engine; none if time runs out before that. -/
def awaitWake (i : Nat) : Nat → Waiting → Play (Option Waiting)
  | 0, _ => return none
  | fuel + 1, waiting => do
    if ((← get).engine i).wake = some true then return some waiting
    match ← passTime waiting with
    | none => return none
    | some later => awaitWake i fuel later

/-- How often a run can wait: once for every time handed to it, or for every timer. -/
def patience (w : World) : Waiting → Nat
  | .byHand seconds => seconds.length + 1
  | .byTimers _ => w.scheduler.timers.length + 1

/-- Drains and waits in turn, until the engine is idle, the steps are spent or time runs out. -/
def loopWithin (i : Nat) (maxSteps : Int) (maxSeconds : Option Double) : Nat → Nat → Waiting → Play (Nat × Bool)
  | 0, total, _ => return (total, true)
  | fuel + 1, total, waiting => do
    modify (·.modifyEngine i fun e => { e with wake := some false })
    let n ← run i (some (maxSteps - total)) maxSeconds
    let total := total + n
    let e := (← get).engine i
    if maxSteps ≤ total then return (total, true)
    else if !e.queue.isEmpty || !e.inbox.isEmpty then loopWithin i maxSteps maxSeconds fuel total waiting
    else if e.pending.isEmpty then return (total, true)
    else match ← awaitWake i (patience (← get) waiting) waiting with
      | some later => loopWithin i maxSteps maxSeconds fuel total later
      | none => return (total, false)

/-- The wait with a deadline, where timers decide and there is a limit. -/
def Waiting.within (now : Value) (seconds : Option Double) : Waiting → Except Fault Waiting
  | .byTimers none => match seconds with
    | some s => do return .byTimers (some (← now.add (.float s)))
    | none => .ok (.byTimers none)
  | other => .ok other

/-- Whether a run that waits in vain ends by its limit rather than being cancelled. -/
def Waiting.expires (maxSeconds : Option Double) : Waiting → Bool
  | .byHand _ => maxSeconds.isSome
  | .byTimers deadline => deadline.isSome

/-- Runs an engine until it is idle, waiting for its operations. Without a time limit a run that has
nothing left to wait for is cancelled. Every wait uses up a time or a timer, and every new timer takes
a step, which bounds the number of rounds. -/
def runAsync (i : Nat) (maxSteps : Option Int) (maxSeconds : Option Double) (waiting : Waiting) : Play Outcome := do
  let w ← get
  let settings := (w.engine i).settings
  let steps := maxSteps.getD settings.maxSteps
  let seconds := match maxSeconds with
    | some s => some s
    | none => settings.maxSeconds
  if isOver seconds then return .finished 0
  let waiting ← ofFault (waiting.within w.scheduler.now seconds)
  let handed := match waiting with
    | .byHand times => times.length
    | .byTimers _ => 0
  let fuel := 2 * (handed + w.scheduler.timers.length + steps.toNat + 2)
  let result ← outcome (loopWithin i steps seconds fuel 0 waiting)
  modify (·.modifyEngine i fun e => { e with wake := none })
  let (total, isDone) ← ofExcept result
  return if isDone || waiting.expires maxSeconds then .finished total else .cancelled

/-- Runs a computation on an event loop, where the clock is one. The timers of a loop end with it. -/
def onLoop {α : Type} (x : Play α) : Play α := do
  if (← get).clock ≠ .eventLoop then return ← x
  modify fun w => { w with isLooping := true }
  let result ← outcome x
  modify fun w => { w with isLooping := false, scheduler := { w.scheduler with timers := [] } }
  ofExcept result

end FlowGraph.Play
