import FlowGraph.Engine.Step
import FlowGraph.Proofs.Growth

/-!
The structured semantics of runs, without a queue. A path makes its calls one after the other; a call that
splits it is followed by the whole runs of its parts, each in turn; when the path is over, its innermost
listener is called in the same way. Roots run to the end in the order in which they were triggered.
-/
namespace FlowGraph

/-- A call that a fiber makes. -/
inductive Act where
  | trigger (route : Route)
  | listener (node : Option NodeRef) (l : Listener)

/-- The call that a fiber is at: the node at the end of its wire, or else its innermost listener. -/
def Fiber.act? (f : Fiber) : Option Act :=
  match f.next, f.listeners with
  | some route, _ => some (.trigger route)
  | none, (node, l) :: _ => some (.listener node l)
  | none, [] => none

/-- A fiber that can take a step is at a call. -/
theorem Fiber.exists_act {f : Fiber} (h : f.isReady = true) : ∃ a, f.act? = some a := by
  unfold act?
  split
  · exact ⟨_, rfl⟩
  · exact ⟨_, rfl⟩
  · rename_i hn hl
    simp only [isReady, isComplete, isWaiting, hn, hl, Option.isNone_none, List.isEmpty_nil, Bool.true_and, Bool.and_true,
      Bool.and_eq_true, Bool.not_eq_true', Bool.or_eq_false_iff, beq_eq_false_iff_ne, decide_eq_false_iff_not] at h
    omega

/-- A fiber that has nothing to run is not ready. -/
theorem Fiber.not_isReady_of_spent {f : Fiber} (hn : f.next = none) (hl : f.listeners = []) : f.isReady = false := by
  refine Bool.eq_false_iff.2 fun h => ?_
  obtain ⟨a, ha⟩ := exists_act h
  rw [act?, hn, hl] at ha
  cases ha

/-- The call that a fiber makes next; none where the outputs that its trigger carries are refused. -/
def World.act? (w : World) (i f : Nat) : Option Act :=
  match w.applyEntry i f with
  | (.ok _, _) => ((w.engine i).fiber f).act?
  | (.error _, _) => none

/-- How a run went: the calls it made, the world after it, and the failure that it ended with, if one
escaped. -/
structure Course where
  acts : List Act
  world : World
  escaped : Option Failure

namespace Course

def after (acts : List Act) (c : Course) : Course := { c with acts := acts ++ c.acts }

/-- Goes on where a course ended, unless a failure escaped. -/
def andThen (x : Option Course) (k : World → Option Course) : Option Course :=
  match x with
  | none => none
  | some c => match c.escaped with
    | some _ => some c
    | none => (k c.world).map (after c.acts)

end Course

namespace Structured

/-- Makes the call that the fiber is at. -/
def callAt (i f : Nat) (fiber : Fiber) : Play Unit :=
  match fiber.next, fiber.listeners with
  | some route, _ => do
    modify (·.modifyEngine i (·.modifyFiber f fun f => { f with next := none, steps := f.steps + 1 }))
    Play.trigger i f route
  | none, (node, l) :: rest => do
    modify (·.modifyEngine i (·.modifyFiber f fun f => { f with steps := f.steps + 1 }))
    Play.unwind i f node l rest
  | none, [] => return ()

/-- Makes the next call of a fiber, after the outputs that its trigger carries are written. -/
def call (i f : Nat) : Play Unit := do
  Play.change (·.applyEntry i f)
  callAt i f (((← get).engine i).fiber f)

/-- Drops what is left of a path, its listeners included. -/
def drop (w : World) (i f : Nat) : World :=
  w.modifyEngine i (·.modifyFiber f fun f => { f with next := none, listeners := [] })

/-- One call and what comes of it. A failure of a node is reported and ends the path. There is no course
if the call breaks the rules: if it disposes of the engine, or fails after it has split the path. -/
def make (i f : Nat) (w : World) : Option Course :=
  let acts := (w.act? i f).toList
  let (outcome, v) := (call i f).runOn w
  if (v.engine i).isDisposed then none
  else match outcome with
    | .ok _ => some ⟨acts, v, none⟩
    | .error e =>
      if !e.isNode then some ⟨acts, v, some e⟩
      else if (v.engine i).kids f (w.engine i).fibers.size = [] then some ⟨acts, drop (v.report i e) i f, none⟩
      else none

def sequence (run : Nat → World → Option Course) : List Nat → World → Option Course
  | [], w => some ⟨[], w, none⟩
  | k :: ks, w => Course.andThen (run k w) (sequence run ks)

/-- Runs a path to its end: a call, the runs of the parts into which it split the path, and on. -/
def path (i : Nat) : Nat → Nat → World → Option Course
  | 0, _, _ => none
  | fuel + 1, f, w =>
    if ((w.engine i).fiber f).act?.isNone then some ⟨[], w, none⟩
    else Course.andThen (make i f w) fun v =>
      Course.andThen (sequence (path i fuel) ((v.engine i).kids f (w.engine i).fibers.size) v)
        (path i fuel f)

/-- Runs a root: the parts into which its trigger split it, then the rest. -/
def root (i fuel q : Nat) (w : World) : Option Course :=
  Course.andThen (sequence (path i fuel) ((w.engine i).kids q (q + 1)) w) (path i fuel q)

/-- Runs the roots from a place of the arena on, those that come in meanwhile after the others. -/
def roots (i : Nat) : Nat → Nat → World → Option Course
  | 0, _, _ => none
  | fuel + 1, q, w =>
    if (w.engine i).fibers.size ≤ q then some ⟨[], w, none⟩
    else if ((w.engine i).fiber q).parent.isSome then roots i fuel (q + 1) w
    else Course.andThen (root i fuel q w) (roots i fuel (q + 1))

end Structured

namespace Play

/-- A turn of the fiber at the head of the queue with the call that it makes, and what `go` makes of the world
after it. -/
def headTurn (i taken : Nat) (go : World → List Act × (Except Failure Nat × World)) (w : World) :
    List Act × (Except Failure Nat × World) :=
  match (w.engine i).queue with
  | [] => ([], (.ok taken, w))
  | f :: others =>
    let w := w.modifyEngine i fun e => { e with queue := others }
    match (turn i f).runOn w with
    | (.ok _, v) => ((w.act? i f).toList ++ (go v).1, (go v).2)
    | (.error e, v) => ((w.act? i f).toList, (.error e, v))

/-- What `drain` does, with the calls that its steps make. -/
def history (i : Nat) : Nat → Nat → World → List Act × (Except Failure Nat × World)
  | 0, taken, w => ([], (breakOff i taken).runOn w)
  | budget + 1, taken, w => headTurn i taken (history i budget (taken + 1)) (settle w i)

end Play

end FlowGraph
