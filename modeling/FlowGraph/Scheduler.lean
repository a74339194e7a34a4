import FlowGraph.Table
import FlowGraph.Value.Arithmetic

/-!
Timers on a clock that only moves when it is told to. Timers fire in the order of their due times,
ties in the order in which they were set, and the clock shows the due time while a timer fires.
-/
namespace FlowGraph

structure Timer (κ : Type) where
  due : Value
  handle : Nat
  callback : κ
  deriving Repr

/-- The timers stand in firing order. A handle is spent once its timer has fired or was cancelled. -/
structure Scheduler (κ : Type) where
  now : Value := .float Double.zero
  timers : List (Timer κ) := []
  issued : Nat := 0
  spent : List Nat := []
  deriving Repr

namespace Scheduler

variable {κ : Type}

/-- Whether `a` is strictly earlier than `b`; times that do not compare are not. -/
def earlier (a b : Value) : Bool :=
  match Value.order .lt a b with
  | .ok r => r
  | .error _ => false

/-- Puts a timer behind all that are not later. -/
def insert (t : Timer κ) : List (Timer κ) → List (Timer κ)
  | [] => [t]
  | u :: us => if earlier t.due u.due then t :: u :: us else u :: insert t us

def atLeastZero (delay : Value) : Except Fault Value := Value.larger (.float Double.zero) delay

def callLater (s : Scheduler κ) (delay : Value) (callback : κ) : Except Fault (Scheduler κ × Nat) := do
  let due ← Value.add s.now (← atLeastZero delay)
  return ({ s with timers := insert ⟨due, s.issued, callback⟩ s.timers, issued := s.issued + 1 }, s.issued)

def cancel (s : Scheduler κ) (handle : Nat) : Scheduler κ :=
  if handle ∈ s.spent then s else { s with spent := handle :: s.spent }

def isSpent (s : Scheduler κ) (handle : Nat) : Bool := s.spent.contains handle

/-- How many timers have neither fired nor been cancelled. -/
def pending (s : Scheduler κ) : Nat := (s.timers.filter fun t => !s.isSpent t.handle).length

/-- Takes the first timer that is due at `target`, with the clock at its due time. -/
def next? (s : Scheduler κ) (target : Value) : Except Fault (Option (Timer κ × Scheduler κ)) :=
  match s.timers with
  | [] => .ok none
  | t :: rest => do
    if ← Value.order .le t.due target then return some (t, { s with timers := rest, now := t.due })
    else return none

/-- What a timer may do when it fires, and what a host may do to the scheduler. -/
inductive Act where
  | callLater (label : String) (delay : Value) (acts : List Act)
  | cancel (label : String)
  | cancelled (label : String)
  | advance (seconds : Value)
  | raise (text : String)
  deriving Repr, Inhabited

mutual
/-- How many timers an act can set in all, itself and through the timers it sets. -/
def Act.weight : Act → Nat
  | .callLater _ _ acts => 1 + weights acts
  | _ => 0
def weights : List Act → Nat
  | [] => 0
  | a :: rest => a.weight + weights rest
end

/-- A scheduler whose timers are scripts, with what fired so far. -/
structure Stage where
  scheduler : Scheduler (String × List Act) := {}
  handles : Table String Nat := {}
  fired : List (String × Value) := []

abbrev Performance := ExceptT Fault (StateM Stage)

def handleOf (label : String) : Performance Nat := do
  match (← get).handles.get? label with
  | some h => return h
  | none => throw (.missing label)

/-- Moves the clock by `seconds`, where `fire` fires what is due on the way. -/
def moveBy (fire : Value → Performance Nat) (seconds : Value) : Performance Nat := do
  let target ← MonadExcept.ofExcept (Value.add (← get).scheduler.now seconds)
  let n ← fire target
  modify fun st => { st with scheduler := { st.scheduler with now := target } }
  return n

/-- Carries out one act, where `fire` fires what is due up to a time. -/
def performWith (fire : Value → Performance Nat) : Act → Performance Value
  | .callLater label delay acts => do
    let (s, h) ← MonadExcept.ofExcept ((← get).scheduler.callLater delay (label, acts))
    modify fun st => { st with scheduler := s, handles := st.handles.set label h }
    return .none
  | .cancel label => do
    let h ← handleOf label
    modify fun st => { st with scheduler := st.scheduler.cancel h }
    return .none
  | .cancelled label => do
    let h ← handleOf label
    return .bool ((← get).scheduler.isSpent h)
  | .advance seconds => do
    let n ← moveBy fire seconds
    return .int n
  | .raise text => throw (.scripted .value text)

/-- Fires the timers due up to `target`, at most `fuel` of them, and counts them. -/
def fireDue : Nat → Value → Performance Nat
  | 0, _ => return 0
  | fuel + 1, target => do
    match ← MonadExcept.ofExcept ((← get).scheduler.next? target) with
    | none => return 0
    | some (t, s) =>
      modify fun st => { st with scheduler := s }
      if s.isSpent t.handle then fireDue fuel target
      else do
        modify fun st => { st with
          scheduler := st.scheduler.cancel t.handle
          fired := st.fired ++ [(t.callback.1, st.scheduler.now)] }
        t.callback.2.forM fun a => do let _ ← performWith (fireDue fuel) a
        return 1 + (← fireDue fuel target)

/-- Enough fuel for whatever the timers and the act can set. -/
def fuelFor (st : Stage) (a : Act) : Nat :=
  st.scheduler.timers.foldl (fun n t => n + 1 + weights t.callback.2) (1 + a.weight)

def perform (a : Act) : Performance Value := do
  let st ← get
  performWith (fireDue (fuelFor st a)) a

end Scheduler

end FlowGraph
