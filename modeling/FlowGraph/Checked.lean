import FlowGraph.Number.Entry
import FlowGraph.Problem
import FlowGraph.Text.Quoted
import FlowGraph.Value.Basic

/-!
Checks of values against shapes. A check gives the value in the form that its shape has, or every problem
with its place; members of a table that no rule mentions are ignored.
-/
namespace FlowGraph

namespace Checked

/-- Applies a checked function; the problems of the function come first. -/
def seq {α β : Type} (f : Checked (α → β)) (a : Checked α) : Checked β :=
  (both f a).map fun p => p.1 p.2

/-- A text; nothing else is taken for one. -/
def string : Value → Checked String
  | .str s => .ok s
  | _ => refuse .stringType

/-- A required member of a table. -/
def required {α : Type} (fields : List (String × Value)) (name : String) (check : Value → Checked α) :
    Checked α :=
  under (.field name) (match fields.lookup name with
    | some v => check v
    | none => refuse .missing)

/-- A member that may be left out. -/
def optional {α : Type} (fields : List (String × Value)) (name : String) (default : α)
    (check : Value → Checked α) : Checked α :=
  match fields.lookup name with
  | some v => under (.field name) (check v)
  | none => .ok default

def record {α : Type} (check : List (String × Value) → Checked α) : Value → Checked α
  | .dict fields => check fields
  | _ => refuse .modelType

def items {α : Type} (check : Value → Checked α) : Value → Checked (List α)
  | .list xs => all (xs.zipIdx.map fun x => under (.item x.2) (check x.1))
  | _ => refuse .listType

/-- A table with free names. -/
def mapping {α : Type} (check : Value → Checked α) : Value → Checked (List (String × α))
  | .dict fields => all (fields.map fun f => (under (.field f.1) (check f.2)).map fun a => (f.1, a))
  | _ => refuse .dictType

/-- A number: floats, integers, booleans, and texts that read as one. -/
def float : Value → Checked Double
  | .float x => .ok x
  | .str s => match Entry.readDouble? s with
    | some x => .ok x
    | none => refuse .floatParsing
  | v => match v.integer? with
    | some i => match Double.ofInt? i with
      | some x => .ok x
      | none => refuse .floatType
    | none => refuse .floatType

/-- A pair of numbers; missing ones are reported one by one. -/
def pair : Value → Checked (Double × Double)
  | .list xs =>
    if 2 < xs.length then refuse .tooLong
    else
      let at_ (i : Nat) : Checked Double := under (.item i) (match xs[i]? with
        | some v => float v
        | none => refuse .missing)
      both (at_ 0) (at_ 1)
  | _ => refuse .tupleType

def anything (v : Value) : Checked Value := .ok v

def nullable {α : Type} (check : Value → Checked α) : Value → Checked (Option α)
  | .none => .ok none
  | v => (check v).map some

end Checked

end FlowGraph
