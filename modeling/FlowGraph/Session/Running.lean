import FlowGraph.Session.Basic

/-!
Running the graph at hand: engines, fibers of the host's own, and contexts that behaviours handed
over.
-/
namespace FlowGraph.Session

/-- Makes an engine for some nodes or all, under a name. An engine that had the name runs on without
one. -/
def makeEngine (name : String) (ids : Option (List String)) (settings : List (String × Value)) : Run Nat := do
  let place := (← get).graph
  let nodes ← match ids with
    | some ids => ids.mapM nodeRef
    | none => pure ((← current).ids.values.map fun n => ⟨place, n⟩)
  let i ← play (Play.makeEngine name nodes (← ofFault (RuntimeSettings.ofFields settings)))
  modify fun s => { s with engines := s.engines.set name i }
  return i

/-- Runs an engine and waits for its operations; on a clock by hand, the given times pass. -/
def runAsync (i : Nat) (maxSteps : Option Int) (maxSeconds : Option Double) (times : List Value) :
    Run Play.Outcome := do
  let waiting : Play.Waiting := match (← get).world.clock with
    | .manual => .byHand times
    | _ => .byTimers none
  play (Play.onLoop (Play.runAsync i maxSteps maxSeconds waiting))

/-- Starts a path at an output of a node, from this thread or from another. -/
def commit (i : Nat) (id output : String) (l : Option Listener) (values : List (String × Value))
    (fromOutside : Bool) : Run Unit := do
  let r ← nodeRef id
  modifyWorld fun w =>
    if fromOutside then w.post i (.begin r output l values) else w.begin i r output l values

/-- Finishes the operation of a context and gives it. -/
def finish (c : Context) (output : Option String) (fromOutside : Bool) : Run Operation := do
  play (c.finish output fromOutside)
  match c.role with
  | .async i o => return ((← get).world.engine i).operation o
  | _ => throw (.fault (.noFeature c.role.title "is_cancelled"))

/-- A fiber under a name, with its first link, which need not lead anywhere. -/
def makeFiber (name : String) (i : Nat) (l : Option Link) (isResolved : Bool) (then_ : Option Listener) :
    Run (Nat × Nat) := do
  let place := (← get).graph
  let route ← match l with
    | none => pure none
    | some l => do
      let g ← current
      let ends ← if isResolved then some <$> ofIntegrity (g.resolve l) else pure none
      let (g, w) := g.lay l ends
      setCurrent g
      pure (some ⟨place, w⟩)
  let f ← play (Play.makeFiber i route then_)
  modify fun s => { s with fibers := s.fibers.set name (i, f) }
  return (i, f)

def commitFiber (f : Nat × Nat) (id output : String) : Run Unit := do
  let r ← nodeRef id
  play (Play.change (·.commitFiber f.1 f.2 r output none))

def endFiber (f : Nat × Nat) (id : String) : Run Unit := do
  let r ← nodeRef id
  play (Play.change (·.endFiber f.1 f.2 r))

def putState (path v : Value) : Run Unit := play (Play.change (·.putState path v))

/-- Disposes of the engines that have names, in order. -/
def disposeAll : Run Unit := do
  (← get).engines.values.forM fun i => play (Play.dispose i)

/-- What an operation does on an empty journal, and what was observed meanwhile, in order. -/
def observed {α : Type} (x : Run α) (s : Session) : Except Failure α × List Event × Session :=
  let (r, s) := ExceptT.run x { s with world := { s.world with journal := [] } }
  (r, s.world.journal.reverse, s)

end FlowGraph.Session
