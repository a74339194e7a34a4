/-!
Problems found while checking the shape of a document or of settings: where, and which rule.
-/
namespace FlowGraph

/-- One step of the way from the whole input to the offending part. -/
inductive Step where
  | field (name : String)
  | item (position : Nat)
  deriving DecidableEq, Repr

/-- The rule that the offending part breaks. -/
inductive Rule where
  | missing | stringType | listType | dictType | modelType | tupleType | tooLong
  | floatType | floatParsing | intType | intParsing | intParsingSize | intFromFloat | finiteNumber
  | boolType | boolParsing | greaterThan
  deriving DecidableEq, Repr

def Rule.code : Rule → String
  | .missing => "missing"
  | .stringType => "string_type"
  | .listType => "list_type"
  | .dictType => "dict_type"
  | .modelType => "model_type"
  | .tupleType => "tuple_type"
  | .tooLong => "too_long"
  | .floatType => "float_type"
  | .floatParsing => "float_parsing"
  | .intType => "int_type"
  | .intParsing => "int_parsing"
  | .intParsingSize => "int_parsing_size"
  | .intFromFloat => "int_from_float"
  | .finiteNumber => "finite_number"
  | .boolType => "bool_type"
  | .boolParsing => "bool_parsing"
  | .greaterThan => "greater_than"

structure Problem where
  path : List Step
  rule : Rule
  deriving DecidableEq, Repr

def Problem.under (s : Step) (p : Problem) : Problem := { p with path := s :: p.path }

/-- Either a checked value or the problems that stand in its way. -/
abbrev Checked (α : Type) := Except (List Problem) α

namespace Checked

/-- Both results, or the problems of both in order. -/
def both {α β : Type} : Checked α → Checked β → Checked (α × β)
  | .ok a, .ok b => .ok (a, b)
  | .ok _, .error q => .error q
  | .error p, .ok _ => .error p
  | .error p, .error q => .error (p ++ q)

def under {α : Type} (s : Step) : Checked α → Checked α
  | .ok a => .ok a
  | .error ps => .error (ps.map (Problem.under s))

def all {α : Type} : List (Checked α) → Checked (List α)
  | [] => .ok []
  | c :: cs => (both c (all cs)).map fun p => p.1 :: p.2

def refuse {α : Type} (r : Rule) : Checked α := .error [⟨[], r⟩]

end Checked

end FlowGraph
