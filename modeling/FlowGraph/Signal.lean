import FlowGraph.Fault
import FlowGraph.Table
import FlowGraph.Value.Basic

/-!
Signals: named lists of handlers. An emission calls the handlers that were connected when it began,
in the order of connection, whatever they connect or disconnect meanwhile, and goes on after one that
fails.
-/
namespace FlowGraph

structure Signal (α : Type) where
  name : String := "Signal"
  handlers : List α := []
  deriving Repr

namespace Signal

variable {α σ : Type} [DecidableEq α]

/-- Adds a handler at the end, unless it is connected. -/
def connect (s : Signal α) (h : α) : Signal α :=
  if h ∈ s.handlers then s else { s with handlers := s.handlers ++ [h] }

def disconnect (s : Signal α) (h : α) : Signal α := { s with handlers := s.handlers.erase h }

def count (s : Signal α) : Nat := s.handlers.length

def label (s : Signal α) : String :=
  "<Signal '" ++ s.name ++ "' handlers=" ++ toString s.count ++ ">"

/-! ### Emissions -/

/-- A signal and what its handlers share besides it. -/
structure Scene (α σ : Type) where
  signal : Signal α
  shared : σ

/-- What a handler does when it is called, one act after the other. Before each act it may look at the
signal and at what the handlers share. -/
inductive Routine (α σ : Type) where
  | done
  | raise (fault : Fault)
  | look (next : Signal α → σ → Routine α σ)
  | alter (f : σ → σ) (next : Routine α σ)
  | connect (handler : α) (next : Routine α σ)
  | disconnect (handler : α) (next : Routine α σ)
  /-- Emits, and goes on in view of how that ended. -/
  | emit (arguments : List Value) (next : Except Fault Unit → Routine α σ)

mutual
/-- What was done to a signal, in order. -/
inductive Deeds (α : Type) where
  | nothing
  | connect (handler : α) (rest : Deeds α)
  | disconnect (handler : α) (rest : Deeds α)
  | emission (arguments : List Value) (calls : Calls α) (rest : Deeds α)
  /-- An emission that would have nested too deep. -/
  | refusal (rest : Deeds α)
/-- The calls that an emission made, each with what the handler did. -/
inductive Calls (α : Type) where
  | nothing
  | call (handler : α) (deeds : Deeds α) (rest : Calls α)
end

/-- How a routine ended, where, and what it did. -/
structure Ending (α σ : Type) where
  scene : Scene α σ
  deeds : Deeds α
  result : Except Fault Unit

/-- The same ending of a routine that did something else before. -/
def Ending.after (e : Ending α σ) (before : Deeds α → Deeds α) : Ending α σ := { e with deeds := before e.deeds }

/-- Carries a routine out; `emission` is what it takes to emit. -/
def Routine.run (emission : List Value → Scene α σ → Scene α σ × Except Fault (Calls α)) :
    Routine α σ → Scene α σ → Ending α σ
  | .done, s => ⟨s, .nothing, .ok ()⟩
  | .raise fault, s => ⟨s, .nothing, .error fault⟩
  | .look next, s => (next s.signal s.shared).run emission s
  | .alter f next, s => next.run emission { s with shared := f s.shared }
  | .connect h next, s => (next.run emission { s with signal := s.signal.connect h }).after (.connect h)
  | .disconnect h next, s => (next.run emission { s with signal := s.signal.disconnect h }).after (.disconnect h)
  | .emit arguments next, s =>
    match emission arguments s with
    | (s, .ok calls) => ((next (.ok ())).run emission s).after (.emission arguments calls)
    | (s, .error fault) => ((next (.error fault)).run emission s).after .refusal

/-- Calls handlers one after the other. Whether one fails makes no difference to the next. -/
def callAll (call : α → Scene α σ → Ending α σ) : List α → Scene α σ → Scene α σ × Calls α
  | [], s => (s, .nothing)
  | h :: hs, s =>
    let ending := call h s
    let (s, calls) := callAll call hs ending.scene
    (s, .call h ending.deeds calls)

/-- Calls all handlers that are connected now. Emissions may nest as deep as `depth`. -/
def emission (handlers : α → List Value → Routine α σ) :
    Nat → List Value → Scene α σ → Scene α σ × Except Fault (Calls α)
  | 0, _, s => (s, .error .calledTooDeep)
  | depth + 1, arguments, s =>
    let (s, calls) := callAll (fun h => (handlers h arguments).run (emission handlers depth)) s.signal.handlers s
    (s, .ok calls)

/-! ### Handlers that follow a script -/

/-- What a scripted handler may do when it is called, and what a host may do to the signal. -/
inductive Act where
  | connect (handler : String)
  | disconnect (handler : String)
  /-- Undoes the latest connection made through that name. -/
  | unsubscribe (handler : String)
  | emit (arguments : List Value)
  | raise
  deriving Repr

/-- What scripted handlers share. -/
structure Notes where
  /-- The handlers for which a way to unsubscribe was handed out. -/
  tickets : List String := []
  /-- The calls made so far. -/
  calls : List (String × List Value) := []

/-- A signal whose handlers follow scripts. -/
structure Stage extends Notes where
  signal : Signal String
  scripts : Table String (List Act)

namespace Stage

/-- Acts one after the other. Only handlers that have a script can be named. -/
def routine (scripts : Table String (List Act)) : List Act → Routine String Notes
  | [] => .done
  | .connect h :: rest =>
    if scripts.has h then
      .alter (fun n => { n with tickets := h :: n.tickets }) (.connect h (routine scripts rest))
    else .raise (.missing h)
  | .disconnect h :: rest =>
    if scripts.has h then .disconnect h (routine scripts rest) else .raise (.missing h)
  | .unsubscribe h :: rest => .look fun _ n =>
    if h ∈ n.tickets then .disconnect h (routine scripts rest) else .raise (.missing h)
  | .emit arguments :: rest => .emit arguments fun
    | .ok () => routine scripts rest
    | .error fault => .raise fault
  | .raise :: _ => .raise (.scripted .runtime "handler failed")

/-- What a scripted handler does: it notes the call and follows its script. -/
def handle (scripts : Table String (List Act)) (handler : String) (arguments : List Value) : Routine String Notes :=
  .alter (fun n => { n with calls := n.calls ++ [(handler, arguments)] })
    (match scripts.get? handler with
    | some acts => routine scripts acts
    | none => .raise (.missing handler))

end Stage

abbrev Performance := ExceptT Fault (StateM Stage)

/-- Carries out one act; emissions may nest as deep as `depth`. -/
def perform (depth : Nat) (a : Act) : Performance Unit :=
  ExceptT.mk fun st =>
    let ending := (Stage.routine st.scripts [a]).run (emission (Stage.handle st.scripts) depth) ⟨st.signal, st.toNotes⟩
    (ending.result, { st with toNotes := ending.scene.shared, signal := ending.scene.signal })

/-- How deep emissions may nest. -/
def depthLimit : Nat := 320

end Signal

end FlowGraph
