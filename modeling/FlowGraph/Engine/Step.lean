import FlowGraph.Engine.Behave

/-!
Steps of fibers and the drain loop. The fiber at the head of the queue takes steps until it is over or
waits for the fibers it spawned; then the next one has its turn. A failure of a node ends its fiber
and no other; any other failure escapes the loop.
-/
namespace FlowGraph.Play

/-- Starts an operation of an asynchronous node. One that fails to start is given up. -/
def startOperation (i : Nat) (r : NodeRef) (input : String) (b : Option AsyncBehaviour) : Play Unit := do
  let o := ((← get).engine i).operations.size
  modify (·.modifyEngine i fun e => { e with
    operations := e.operations.push { node := r, input := input }
    pending := e.pending ++ [o] })
  match ← outcome (invoke r .startAsync (b.map fun b => b.run ⟨r, .async i o⟩)) with
  | .ok _ => return ()
  | .error e =>
    modify (·.modifyEngine i fun e => { e with pending := e.pending.erase o })
    abandon dispose i o
    throw e

/-- Runs a flow node, which has to commit if it has outputs to commit to. -/
def runFlow (i f : Nat) (r : NodeRef) (input : String) (b : Option FlowBehaviour) : Play Unit := do
  invoke r .triggered (b.map fun b => b.run ⟨r, .flow i f input⟩)
  let w ← get
  if !((w.engine i).fiber f).committed && !(w.node r).flowOutputs.isEmpty then
    throw (w.nodeFailure r .notCommitted)
  modify (·.tellEnded i r)

/-- Runs a node that a fiber has reached at an input, after its data inputs are resolved. -/
def reach (i f : Nat) (r : NodeRef) (input : String) : Play Unit := do
  modify (·.tellStarted i r)
  resolve i r
  match ((← get).node r).definition.behaviour with
  | .flow b => runFlow i f r input b
  | .async b => startOperation i r input b
  | other => throw ((← get).nodeFailure r (.notTriggerable other.kind))

/-- Triggers the node at the end of a wire. -/
def trigger (i f : Nat) (route : Route) : Play Unit := do
  let link := route.wire.link
  match ((← get).graph route.graph).endsOf route.wire with
  | none => throw (.node link.target "?" (.unresolved link.label))
  | some ends =>
    modify (·.modifyEngine i (·.modifyFiber f fun f => { f with committed := false }))
    reach i f ⟨route.graph, ends.target.node⟩ link.input

/-- Runs a listener. A failure of it becomes that of the node that committed, if there is one. -/
def answer (node : Option NodeRef) (l : Listener) : Play Unit := do
  match ← outcome l.run with
  | .ok _ => return ()
  | .error e => match node with
    | some r => if e.isNode then throw e else throw ((← get).nodeFailure r (.listener e))
    | none => throw e

def unwind (i f : Nat) (node : Option NodeRef) (l : Listener) (rest : List (Option NodeRef × Listener)) :
    Play Unit := do
  modify (·.modifyEngine i (·.modifyFiber f fun f => { f with committed := false, listeners := rest }))
  answer node l

/-- One step of a fiber: the node at its next wire, or else a listener. -/
def step (i f : Nat) : Play Unit := do
  change (·.applyEntry i f)
  let fiber := ((← get).engine i).fiber f
  match fiber.next, fiber.listeners with
  | some route, _ =>
    modify (·.modifyEngine i (·.modifyFiber f fun f => { f with next := none, steps := f.steps + 1 }))
    trigger i f route
  | none, (node, l) :: rest =>
    if fiber.pending = 0 && !fiber.isAborted then
      modify (·.modifyEngine i (·.modifyFiber f fun f => { f with steps := f.steps + 1 }))
      unwind i f node l rest
  | none, [] => return ()

/-- Takes idle fibers off the head of the queue: one that is over tells its parent, one that waits is
resumed by its children. Every turn takes one fiber off the queue, and each fiber that finishes puts at
most one back; a fiber finishes once, so as much `fuel` as there are places in the queue and fibers is
enough. -/
def settleWithin (i : Nat) : Nat → World → World
  | 0, w => w
  | fuel + 1, w =>
    match (w.engine i).queue with
    | [] => w
    | f :: rest =>
      let fiber := (w.engine i).fiber f
      if fiber.isReady then w
      else
        let w := w.modifyEngine i fun e => { e with queue := rest }
        let w := if fiber.isComplete then w.modifyEngine i (·.finish f) else w
        settleWithin i fuel (w.drainInbox i)

def settle (w : World) (i : Nat) : World :=
  let e := w.engine i
  let fuel := e.queue.length + 2 * (e.fibers.size + e.inbox.length) + 1
  settleWithin i fuel w

/-- The end of a turn of a fiber: it stays in front if it can go on, else it makes room. -/
def rest (w : World) (i f : Nat) : World :=
  let fiber := (w.engine i).fiber f
  if fiber.isReady then w.modifyEngine i fun e => { e with queue := f :: e.queue, current := none }
  else
    let w := if fiber.isComplete then w.modifyEngine i (·.finish f) else w
    (w.modifyEngine i fun e => { e with current := none }).drainInbox i

/-- One step of the fiber that was taken off the queue. -/
def turn (i f : Nat) : Play Unit := do
  modify (·.modifyEngine i fun e => { e with current := some f })
  match ← outcome (step i f) with
  | .ok _ => modify (·.modifyEngine i fun e => { e with steps := e.steps + 1 })
  | .error e =>
    if e.isNode then
      modify (·.report i e)
      modify (·.modifyEngine i fun e => { e with steps := e.steps + 1 }.abort f)
    else
      modify (·.modifyEngine i fun e => { e with current := none })
      throw e
  modify (rest · i f)

/-- Ends a run whose steps are spent. A queue that is left over is noted. -/
def breakOff (i taken : Nat) : Play Nat := do
  let queued := ((← get).engine i).queue.length
  if queued ≠ 0 then modify (·.record (.limited taken queued))
  return taken

/-- Takes up to `budget` steps, after `taken` before them, and counts all. -/
def drain (i : Nat) : Nat → Nat → Play Nat
  | 0, taken => breakOff i taken
  | budget + 1, taken => do
    modify (settle · i)
    match ((← get).engine i).queue with
    | [] => return taken
    | f :: others =>
      modify (·.modifyEngine i fun e => { e with queue := others })
      turn i f
      drain i budget (taken + 1)

/-- The least number of seconds that is not over before the first step. -/
def instant : Double := Double.ofDecimal false 5 (-7)

/-- Whether a time limit leaves no time at all. -/
def isOver (seconds : Option Double) : Bool := seconds.any (·.lt instant)

/-- The number of steps that a limit comes to: the least whole number that is not below it. -/
def stepLimit? : Value → Option Int
  | .float x =>
    if x.isFinite then some x.ceil else if x.lt Double.zero then some 0 else some (twoPow 62)
  | v => v.integer?

/-- How many steps a run may take: none at all if its time is over from the start. -/
def budget (settings : RuntimeSettings) (maxSteps : Option Int) (maxSeconds : Option Double) : Nat :=
  let seconds := match maxSeconds with
    | some s => some s
    | none => settings.maxSeconds
  if isOver seconds then 0 else (maxSteps.getD settings.maxSteps).toNat

/-- Runs the fibers of an engine until none is left or a limit is reached. -/
def run (i : Nat) (maxSteps : Option Int := none) (maxSeconds : Option Double := none) : Play Nat := do
  modify (·.drainInbox i)
  drain i (budget ((← get).engine i).settings maxSteps maxSeconds) 0

end FlowGraph.Play
