import FlowGraph.Table
import FlowGraph.Value.Order
import FlowGraph.Value.Text

/-!
The host's state: values by path. A listener hears of a path only when a value other than the one
there is set.
-/
namespace FlowGraph

structure Store where
  entries : List (Value × Value) := []
  deriving Repr

namespace Store

/-- The value at a path; equal paths are one path. -/
def find? (s : Store) (path : Value) : Option Value :=
  (s.entries.find? fun e => Value.same e.1 path).map (·.2)

def get (s : Store) (path : Value) : Except Fault Value := do
  path.hashed
  match s.find? path with
  | some v => return v
  | none => throw (.missing ("No state at path: " ++ (← path.display)))

def putEntries (path v : Value) : List (Value × Value) → List (Value × Value)
  | [] => [(path, v)]
  | e :: es => if Value.same e.1 path then (e.1, v) :: es else e :: putEntries path v es

/-- Whether setting the value would change what is at the path. -/
def changes (s : Store) (path v : Value) : Bool :=
  match s.find? path with
  | some old => !Value.equal old v
  | none => true

def put (s : Store) (path v : Value) : Store := ⟨putEntries path v s.entries⟩

/-- Whether a change can be told: both texts can be written. -/
def announce (path v : Value) : Except Fault Unit := do
  let _ ← path.display
  let _ ← v.literal

def ofList (pairs : List (Value × Value)) : Store :=
  pairs.foldl (fun s p => s.put p.1 p.2) {}

/-- What a listener may do when it is called, and what a host may do to the store. -/
inductive Act where
  | get (path : Value)
  | set (path value : Value)
  | subscribe (label : String) (path : Value) (acts : List Act)
  | unsubscribe (label : String)
  | raise (text : String)
  deriving Repr, Inhabited

structure Listener where
  serial : Nat
  label : String
  path : Value
  acts : List Act
  deriving Repr

/-- A store whose listeners are scripts, with the calls made so far. -/
structure Stage where
  store : Store := {}
  listeners : List Listener := []
  issued : Nat := 0
  tickets : Table String Nat := {}
  calls : List (String × Value × Value) := []

abbrev Performance := ExceptT Fault (StateM Stage)

/-- Carries out one act; a listener that sets values may call listeners as deep as `depth`. -/
def perform : Nat → Act → Performance Value
  | _, .get path => do
    MonadExcept.ofExcept ((← MonadState.get).store.get path)
  | _, .subscribe label path acts => do
    MonadExcept.ofExcept path.hashed
    modify fun st => { st with
      listeners := st.listeners ++ [⟨st.issued, label, path, acts⟩]
      issued := st.issued + 1
      tickets := st.tickets.set label st.issued }
    return .none
  | _, .unsubscribe label => do
    match (← MonadState.get).tickets.get? label with
    | some n =>
      modify fun st => { st with listeners := st.listeners.filter (·.serial ≠ n) }
      return .none
    | none => throw (.missing label)
  | _, .raise text => throw (.scripted .value text)
  | 0, .set _ _ => throw .calledTooDeep
  | depth + 1, .set path v => do
    let st ← MonadState.get
    MonadExcept.ofExcept path.hashed
    modify fun st => { st with store := st.store.put path v }
    if st.store.changes path v then
      MonadExcept.ofExcept (announce path v)
      (st.listeners.filter fun l => Value.same l.path path).forM fun l => do
        modify fun st => { st with calls := st.calls ++ [(l.label, path, v)] }
        l.acts.forM fun a => do let _ ← perform depth a
    return .none

/-- How deep listeners may call each other. -/
def depthLimit : Nat := 320

end Store

end FlowGraph
