import FlowGraph.Graph.Link
import FlowGraph.Problem
import FlowGraph.Table

/-!
Documents: the checked shape of a stored graph. Values in it are still in their document form.
-/
namespace FlowGraph

namespace Document

structure Parameter where
  name : String
  valueType : String
  default : Value := .none
  deriving DecidableEq, Repr

structure Event where
  name : String
  parameters : List Parameter := []
  deriving DecidableEq, Repr

structure Variable where
  name : String
  valueType : String
  initial : Value := .none
  deriving DecidableEq, Repr

structure Node where
  id : String
  typeName : String
  position : Double × Double := (Double.zero, Double.zero)
  configuration : List (String × Value) := []
  /-- The literals of data inputs, by socket name. -/
  inputs : List (String × Value) := []
  deriving DecidableEq, Repr

end Document

structure Document where
  name : String := "Untitled Graph"
  vars : List Document.Variable := []
  events : List Document.Event := []
  nodes : List Document.Node := []
  links : List Link := []
  deriving DecidableEq, Repr

end FlowGraph
