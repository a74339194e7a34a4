import FlowGraph.Fault

/-!
Everything that can fail beyond single values: graphs that do not fit together, definitions that are
malformed, and nodes that fail while they run. A node's failure keeps the failure that caused it. Its text
is made of the cause's, and it is assumed that there is one: a cause that fails when its text is asked for is not modelled.
-/
namespace FlowGraph

/-- The behaviour shape of a node. -/
inductive Kind where
  | event | flow | function | async
  deriving DecidableEq, Repr, Inhabited

def Kind.text : Kind → String
  | .event => "event"
  | .flow => "flow"
  | .function => "function"
  | .async => "async"

/-- The name of a node of the kind in messages. -/
def Kind.nodeTitle : Kind → String
  | .event => "EventNode"
  | .flow => "FlowNode"
  | .function => "FunctionNode"
  | .async => "AsyncNode"

/-- Why a graph operation is refused. Nodes, sockets and links appear by their labels. -/
inductive IntegrityError where
  | unknownValueType (name : String)
  | unknownNodeType (name : String)
  | duplicateNode (id : String)
  | unknownConfiguration (key nodeType : String)
  | sourceNodeMissing (id : String)
  | targetNodeMissing (id : String)
  | sourceIsInput (socket node : String)
  | sourceSocketMissing (node socket : String)
  | targetIsOutput (socket node : String)
  | targetSocketMissing (node socket : String)
  | incompatible (source target sourceSocket targetSocket : String)
  | linkExists (link : String)
  | inputLinked (socket : String)
  | linkSourceMissing (id : String)
  | linkTargetMissing (id : String)
  | linkOutputMissing (socket node : String)
  | linkInputMissing (socket node : String)
  | variableDeclared (name : String)
  | variableUndeclared (name : String)
  | variableType (name declared given : String)
  | variableValue (name valueType literal : String)
  | eventDeclared (name : String)
  | badParameter (parameter event : String)
  | noConversion (source target : String)
  | malformed (problems : List Problem)
  | unreadable (file : String)
  | unknownInput (socket node : String)
  | unreadableValue (valueType place literal : String)
  deriving DecidableEq, Repr

def IntegrityError.message : IntegrityError → String
  | unknownValueType name => "Unknown value type: " ++ name
  | unknownNodeType name => "Unknown node type: " ++ name
  | duplicateNode id => "Duplicate node id: " ++ id
  | unknownConfiguration key t => "Unknown configuration '" ++ key ++ "' for node type " ++ t
  | sourceNodeMissing id => "Source node not found: " ++ id
  | targetNodeMissing id => "Target node not found: " ++ id
  | sourceIsInput s n => "Socket '" ++ s ++ "' on " ++ n ++ " is an input, not an output"
  | sourceSocketMissing n s => "Source socket not found: " ++ n ++ "." ++ s
  | targetIsOutput s n => "Socket '" ++ s ++ "' on " ++ n ++ " is an output, not an input"
  | targetSocketMissing n s => "Target socket not found: " ++ n ++ "." ++ s
  | incompatible s t a b =>
    "Incompatible types: " ++ s ++ " -> " ++ t ++ " (" ++ a ++ " -> " ++ b ++ ")"
  | linkExists l => "Link already exists: " ++ l
  | inputLinked s => "Input already linked: " ++ s
  | linkSourceMissing id => "Link source node not found: " ++ id
  | linkTargetMissing id => "Link target node not found: " ++ id
  | linkOutputMissing s n => "Output socket '" ++ s ++ "' not found on " ++ n
  | linkInputMissing s n => "Input socket '" ++ s ++ "' not found on " ++ n
  | variableDeclared n => "Variable already declared: " ++ n
  | variableUndeclared n => "Variable not declared: " ++ n
  | variableType n d g => "Variable '" ++ n ++ "' is " ++ d ++ ", not " ++ g
  | variableValue n t v => "Variable '" ++ n ++ "' is " ++ t ++ ", cannot hold " ++ v
  | eventDeclared n => "Custom event already declared: " ++ n
  | badParameter p e => "Invalid parameter '" ++ p ++ "' on custom event " ++ e
  | noConversion s t => "No conversion from " ++ s ++ " to " ++ t
  | malformed _ => "Malformed graph document"
  | unreadable f => "Cannot read graph file " ++ f
  | unknownInput s n => "Unknown data input '" ++ s ++ "' on " ++ n
  | unreadableValue t p v => "Cannot read " ++ t ++ " value for " ++ p ++ ": " ++ v

/-- The call into a node's behaviour that failed. -/
inductive Stage where
  | init | triggered | exec | startAsync
  deriving DecidableEq, Repr

def Stage.text : Stage → String
  | .init => "init"
  | .triggered => "triggered"
  | .exec => "exec"
  | .startAsync => "start_async"

mutual
/-- Any failure. -/
inductive Failure where
  | fault (cause : Fault)
  | integrity (cause : IntegrityError)
  | definition (problems : List String)
  | node (id nodeType : String) (reason : NodeReason)

/-- Why a node failed while running. -/
inductive NodeReason where
  | noBehaviour (stage : Stage)
  | failed (stage : Stage) (cause : Failure)
  | cycle (through : String)
  | unconvertible (source target socket : String) (cause : Failure)
  | unresolved (link : String)
  | notTriggerable (kind : Kind)
  | notCommitted
  | committedTwice (output : String)
  | notFlowOutput (output : String)
  | endedAfterCommit
  | listener (cause : Failure)
  | payload (cause : Failure)
  | disposal (cause : Failure)
  | noFlowOutput
  | custom (text : String)
end

instance : Inhabited Failure := ⟨.definition []⟩

/-- Several problems of definitions as one text; a single one stands alone. -/
def definitionText : List String → String
  | [e] => e
  | es => toString es.length ++ " definition errors:\n" ++
    String.intercalate "\n" (es.map ("  - " ++ ·))

mutual
def Failure.message : Failure → String
  | .fault f => f.message
  | .integrity e => e.message
  | .definition es => definitionText es
  | .node id t reason => "[" ++ t ++ " " ++ id ++ "] " ++ reason.text
def NodeReason.text : NodeReason → String
  | .noBehaviour s => "definition has no " ++ s.text ++ " behaviour"
  | .failed s cause => s.text ++ " failed: " ++ cause.message
  | .cycle n => "data dependency cycle through " ++ n
  | .unconvertible s t socket cause =>
    "cannot convert " ++ s ++ " to " ++ t ++ " for '" ++ socket ++ "': " ++ cause.message
  | .unresolved l => "unresolved link " ++ l
  | .notTriggerable k => k.text ++ " nodes cannot be triggered by flow"
  | .notCommitted => "returned without committing an output flow"
  | .committedTwice o => "output flow committed twice (second: '" ++ o ++ "')"
  | .notFlowOutput o => "'" ++ o ++ "' is not an output flow socket"
  | .endedAfterCommit => "path ended after an output flow was committed"
  | .listener cause => "completion listener failed: " ++ cause.message
  | .payload cause => "cannot write trigger outputs: " ++ cause.message
  | .disposal cause => "dispose failed: " ++ cause.message
  | .noFlowOutput => "async node has no output flow socket"
  | .custom text => text
end

def NodeReason.cause? : NodeReason → Option Failure
  | .failed _ c | .unconvertible _ _ _ c | .listener c | .payload c | .disposal c => some c
  | _ => none

def Failure.family : Failure → Family
  | .fault f => f.family
  | .integrity _ => .integrity
  | .definition _ => .definition
  | .node _ _ _ => .node

/-- A failure of a node, as opposed to one that escapes the run. -/
def Failure.isNode : Failure → Bool
  | .node _ _ _ => true
  | _ => false

def Except.lifted {α : Type} : Except Fault α → Except Failure α
  | .ok a => .ok a
  | .error f => .error (.fault f)

instance : Coe IntegrityError Failure := ⟨.integrity⟩

end FlowGraph
