import FlowGraph.Engine.Loop
import FlowGraph.Graph.Edit

/-!
What a host does to a world: making engines, firing the lifecycle, triggering events, starting paths
and fibers of its own.
-/
namespace FlowGraph.Play

/-- Lets the event nodes of a new engine subscribe; `ready` are those that have, latest first. When
one fails, those before it are disposed of again. -/
def subscribeAll (i : Nat) (ready : List NodeRef) : List NodeRef → Play Unit
  | [] => return ()
  | r :: rest => do
    let call := match ((← get).node r).definition.behaviour with
      | .event b => b.map fun b => b.run ⟨r, .event i⟩
      | _ => none
    match ← outcome (invoke r .init call) with
    | .ok _ => subscribeAll i (r :: ready) rest
    | .error e =>
      ready.forM (disposeNode dispose)
      throw e

/-- Makes an engine for the nodes and gives its place. The host listens from then on. -/
def makeEngine (name : String) (nodes : List NodeRef) (settings : RuntimeSettings) : Play Nat := do
  let w ← get
  let i := w.engines.size
  let events := nodes.filter fun r => (w.node r).kind = .event
  set { w with engines := w.engines.push { name := name, nodes := nodes, eventNodes := events, settings := settings } }
  subscribeAll i [] events
  modify (·.modifyEngine i fun e => { e with isObserved := true })
  return i

def lifecycleStart : Play Unit := modify (·.emit .start .plain)

/-- One tick, with the seconds since the last; gives the number of ticks. -/
def lifecycleTick (seconds : Value) : Play Nat := do
  modify fun w => { w with ticks := w.ticks + 1 }
  modify (·.emit .tick (.tick seconds))
  return (← get).ticks

def lifecycleEnd : Play Unit := modify (·.emit .ending .plain)

/-- A fiber of the host's own, with its first wire and a listener. -/
def makeFiber (i : Nat) (route : Option Route) (l : Option Listener) : Play Nat := do
  let f := ((← get).engine i).fibers.size
  let fiber : Fiber := { next := route, listeners := match l with | some l => [(none, l)] | none => [] }
  modify (·.modifyEngine i fun e => { e with fibers := e.fibers.push fiber })
  return f

end FlowGraph.Play
