import FlowGraph.Checked
import FlowGraph.Document.Basic

/-!
Checking the shape of a document. Members that no rule mentions are ignored, and all problems are
reported with their places.
-/
namespace FlowGraph

namespace Document

open Checked

def checkParameter : Value → Checked Parameter := record fun m =>
  seq (seq ((required m "name" string).map Parameter.mk) (required m "value_type" string))
    (optional m "default_value" .none anything)

def checkEvent : Value → Checked Event := record fun m =>
  seq ((required m "name" string).map Event.mk) (optional m "parameters" [] (items checkParameter))

def checkVariable : Value → Checked Variable := record fun m =>
  seq (seq ((required m "name" string).map Variable.mk) (required m "value_type" string))
    (optional m "initial_value" .none anything)

def checkSocketValue : Value → Checked Value := record fun m => optional m "value" .none anything

def checkNode : Value → Checked Node := record fun m =>
  seq (seq (seq (seq ((required m "id" string).map Node.mk) (required m "type" string))
    (optional m "position" (Double.zero, Double.zero) pair))
    (optional m "configuration" [] (mapping anything)))
    (optional m "inputs" [] (mapping checkSocketValue))

def checkLink : Value → Checked Link := record fun m =>
  seq (seq (seq ((required m "source_node_id" string).map Link.mk) (required m "source_socket_name" string))
    (required m "target_node_id" string)) (required m "target_socket_name" string)

/-- The document that a value describes. -/
def check : Value → Checked Document := record fun m =>
  seq (seq (seq (seq ((optional m "name" "Untitled Graph" string).map Document.mk)
    (optional m "variables" [] (items checkVariable)))
    (optional m "custom_events" [] (items checkEvent)))
    (optional m "nodes" [] (items checkNode)))
    (optional m "links" [] (items checkLink))

end Document

end FlowGraph
