import FlowGraph.Catalogue.Shapes

/-!
The core catalogue: base value types with their implicit conversions, events, flow control,
variables, time, logging, and the pure nodes on numbers, booleans and texts.
-/
namespace FlowGraph.Catalogue

def exec : SocketSpec := flowSpec "exec"

def eventMeta : String → String → Metadata := describe "Events" "#CC0000"
def flowMeta : String → String → Metadata := describe "Flow Control" "#4A90D9"
def variableMeta : String → String → Metadata := describe "Variables" "#00CC66"
def timeMeta : String → String → Metadata := describe "Time" "#4A90D9"
def mathMeta : String → String → Metadata := describe "Math" "#228B22"
def logicMeta : String → String → Metadata := describe "Logic" "#8B0000"
def stringMeta : String → String → Metadata := describe "String" "#FF69B4"
def conversionMeta : String → String → Metadata := describe "Conversion" "#808080"
def constantMeta : String → String → Metadata := describe "Constants" "#228B22"

def eventSetting : ConfigSpec := { name := eventKey }
def variableSetting : ConfigSpec := { name := variableKey }
def closedSetting : ConfigSpec := { name := "start_closed", valueType := "boolean", default := .bool false }

def eventNodes : List Definition := [
  { typeName := "Start", behaviour := .event (some .start), outputs := .fixed [exec]
    metadata := eventMeta "Start" "Entry point for graph execution (runs once)" },
  { typeName := "Update", behaviour := .event (some .update)
    outputs := .fixed [exec, dataSpec "delta_seconds" "float"]
    metadata := eventMeta "Update (Tick)" "Called every tick/frame" },
  { typeName := "End", behaviour := .event (some .ending), outputs := .fixed [exec]
    metadata := eventMeta "End" "Called once when the program ends" },
  { typeName := "CustomEvent", behaviour := .event (some .customEvent)
    outputs := .eventParameters [exec], configuration := [eventSetting]
    metadata := eventMeta "Custom Event" "Runs when the named custom event is called" },
  { typeName := "VariableChanged", behaviour := .event (some .variableChanged)
    outputs := .variableValue [exec], configuration := [variableSetting]
    metadata := eventMeta "On Variable Changed" "Runs whenever the variable's value changes" },
  { typeName := "CallEvent", behaviour := .flow (some .callEvent)
    inputs := .eventParameters [exec], outputs := .fixed [flowSpec "then"], configuration := [eventSetting]
    metadata := eventMeta "Call Event" "Trigger a custom event" }]

def flowNodes : List Definition := [
  { typeName := "Branch", behaviour := .flow (some .branch)
    inputs := .fixed [exec, dataSpec "condition" "boolean" (.bool false)]
    outputs := .fixed [flowSpec "true", flowSpec "false"]
    metadata := flowMeta "Branch (If/Else)" "Execute True or False path based on condition" },
  { typeName := "Sequence", behaviour := .flow (some .sequence)
    inputs := .fixed [exec], outputs := .numbered
    configuration := [{ name := "num_outputs", valueType := "integer", default := .int 4 }]
    metadata := flowMeta "Sequence" "Execute multiple outputs sequentially" },
  { typeName := "ForLoop", behaviour := .flow (some .forLoop)
    inputs := .fixed [exec, dataSpec "first_index" "integer" (.int 0), dataSpec "last_index" "integer" (.int 10)]
    outputs := .fixed [flowSpec "loop_body", dataSpec "index" "integer", flowSpec "completed"]
    metadata := flowMeta "For Loop" "Loop from First to Last index (inclusive)" },
  { typeName := "DoOnce", behaviour := .flow (some .doOnce)
    inputs := .fixed [exec, flowSpec "reset"], outputs := .fixed [flowSpec "completed"]
    configuration := [closedSetting], initialState := .dict [("closed", .none)]
    metadata := flowMeta "Do Once" "Execute output only once until reset" },
  { typeName := "FlipFlop", behaviour := .flow (some .flipFlop)
    inputs := .fixed [exec], outputs := .fixed [flowSpec "A", flowSpec "B", dataSpec "is_A" "boolean"]
    initialState := .dict [("is_a", .bool false)]
    metadata := flowMeta "Flip Flop" "Alternate between A and B outputs" },
  { typeName := "Gate", behaviour := .flow (some .gate)
    inputs := .fixed [flowSpec "enter", flowSpec "open", flowSpec "close", flowSpec "toggle"]
    outputs := .fixed [flowSpec "exit"]
    configuration := [closedSetting], initialState := .dict [("open", .none)]
    metadata := flowMeta "Gate" "Control passage of execution" },
  { typeName := "Counter", behaviour := .flow (some .counter)
    inputs := .fixed [exec, flowSpec "reset"]
    outputs := .fixed [flowSpec "exec_out", dataSpec "count" "integer"]
    initialState := .dict [("count", .int 0)]
    metadata := flowMeta "Counter" "Count how many times execution passed through" }]

def variableNodes : List Definition := [
  { typeName := "GetVariable", behaviour := .function (some .getVariable)
    outputs := .variableValue [], configuration := [variableSetting]
    metadata := variableMeta "Get Variable" "Read value from a variable" },
  { typeName := "SetVariable", behaviour := .flow (some .setVariable)
    inputs := .variableValue [exec], outputs := .variableValue [flowSpec "exec_out"]
    configuration := [variableSetting]
    metadata := variableMeta "Set Variable" "Write value to a variable" }]

def timeNodes : List Definition := [
  { typeName := "Delay", behaviour := .async (some .delay)
    inputs := .fixed [exec, dataSpec "duration" "float" (real 1)], outputs := .fixed [flowSpec "completed"]
    metadata := timeMeta "Delay" "Wait for specified duration" },
  { typeName := "Now", behaviour := .function (some .now), outputs := .fixed [dataSpec "seconds" "float"]
    metadata := timeMeta "Now" "Current scheduler time in seconds" }]

def severities : List String := ["verbose", "info", "warning", "error"]

def debugNodes : List Definition := [
  { typeName := "Log", behaviour := .flow (some .log)
    inputs := .fixed [exec, dataSpec "text" "string" (.str ""),
      { dataSpec "severity" "string" (.str "info") with choices := some (severities.map .str) }]
    outputs := .fixed [flowSpec "exec_out"]
    metadata := describe "Debug" "#7B68EE" "Log" "Write a message to the host logger" }]

def floatBinary (typeName title text : String) (op : Binary) (a b : Nat) (first : String := "a")
    (second : String := "b") (result : String := "float") : Definition :=
  binary (mathMeta title text) typeName (dataSpec first "float" (real a)) (dataSpec second "float" (real b)) result op

def floatUnary (typeName title text : String) (op : Unary) (a : Nat := 0) (input : String := "value")
    (result : String := "float") : Definition :=
  unary (mathMeta title text) typeName (dataSpec input "float" (real a)) result op

def integerBinary (typeName title text : String) (op : Binary) (a b : Int) (result : String := "integer") :
    Definition :=
  binary (mathMeta title text) typeName (dataSpec "a" "integer" (.int a)) (dataSpec "b" "integer" (.int b)) result op

def integerUnary (typeName title text : String) (op : Unary) : Definition :=
  unary (mathMeta title text) typeName (dataSpec "value" "integer" (.int 0)) "integer" op

def floatNodes : List Definition := [
  floatBinary "Add" "Add" "A + B" .add 0 0,
  floatBinary "Subtract" "Subtract" "A - B" .sub 0 0,
  floatBinary "Multiply" "Multiply" "A * B" .mul 1 1,
  floatBinary "Divide" "Divide" "A / B" .div 1 1,
  floatBinary "Modulo" "Modulo" "A % B" .remainder 0 1,
  floatBinary "Power" "Power" "Base ^ Exponent" .power 2 2 "base" "exponent",
  floatBinary "Min" "Min" "Smaller of A and B" .smaller 0 0,
  floatBinary "Max" "Max" "Larger of A and B" .larger 0 0,
  floatUnary "Negate" "Negate" "-Value" .negate,
  floatUnary "Absolute" "Absolute" "Absolute value" .absolute,
  floatUnary "SquareRoot" "Square Root" "Square root of value" .squareRoot 4,
  floatUnary "Floor" "Floor" "Round down to integer" .floor 0 "value" "integer",
  floatUnary "Ceil" "Ceil" "Round up to integer" .ceil 0 "value" "integer",
  floatUnary "Round" "Round" "Round to nearest integer" .round 0 "value" "integer",
  floatUnary "Sin" "Sin" "Sine of angle in radians" .sin 0 "radians",
  floatUnary "Cos" "Cos" "Cosine of angle in radians" .cos 0 "radians",
  floatUnary "Tan" "Tan" "Tangent of angle in radians" .tan 0 "radians",
  ternary (mathMeta "Clamp" "Clamp value between min and max") "Clamp" (dataSpec "value" "float" (real 0))
    (dataSpec "min" "float" (real 0)) (dataSpec "max" "float" (real 1)) "float" .clamp,
  ternary (mathMeta "Lerp" "Linear interpolation between A and B") "Lerp" (dataSpec "a" "float" (real 0))
    (dataSpec "b" "float" (real 1)) (dataSpec "t" "float" oneHalf) "float" .blend]

def integerNodes : List Definition := [
  integerBinary "AddInteger" "Add (Integer)" "A + B" .add 0 0,
  integerBinary "SubtractInteger" "Subtract (Integer)" "A - B" .sub 0 0,
  integerBinary "MultiplyInteger" "Multiply (Integer)" "A * B" .mul 1 1,
  integerBinary "DivideInteger" "Divide (Integer)" "A / B truncated toward zero" .truncDiv 1 1,
  integerBinary "ModuloInteger" "Modulo (Integer)" "Remainder of truncated division" .truncMod 0 1,
  integerBinary "MinInteger" "Min (Integer)" "Smaller of A and B" .smaller 0 0,
  integerBinary "MaxInteger" "Max (Integer)" "Larger of A and B" .larger 0 0,
  integerUnary "NegateInteger" "Negate (Integer)" "-Value" .negate,
  integerUnary "AbsoluteInteger" "Absolute (Integer)" "Absolute value" .absolute]

def comparison (typeName title text : String) (op : Binary) : Definition :=
  floatBinary typeName title text op 0 0 "a" "b" "boolean"

def comparisonNodes : List Definition := [
  comparison "Equal" "Equal" "A == B" .equal,
  comparison "NotEqual" "Not Equal" "A != B" .notEqual,
  comparison "Less" "Less" "A < B" (.order .lt),
  comparison "LessEqual" "Less or Equal" "A <= B" (.order .le),
  comparison "Greater" "Greater" "A > B" (.order .gt),
  comparison "GreaterEqual" "Greater or Equal" "A >= B" (.order .ge),
  integerBinary "EqualInteger" "Equal (Integer)" "A == B" .equal 0 0 "boolean",
  integerBinary "LessInteger" "Less (Integer)" "A < B" (.order .lt) 0 0 "boolean",
  integerBinary "GreaterInteger" "Greater (Integer)" "A > B" (.order .gt) 0 0 "boolean"]

def converter (typeName title source target : String) (op : Unary) : Definition :=
  unary (conversionMeta title ("Convert " ++ source ++ " to " ++ target)) typeName
    (dataSpec "value" source) target op

def conversionNodes : List Definition := [
  converter "FloatToInteger" "To Integer" "float" "integer" .toInteger,
  converter "IntegerToFloat" "To Float" "integer" "float" .toFloat,
  converter "BooleanToInteger" "To Integer" "boolean" "integer" .toInteger,
  converter "ToStringFloat" "To String" "float" "string" .toText,
  converter "ToStringInteger" "To String" "integer" "string" .toText,
  converter "ToStringBoolean" "To String" "boolean" "string" .booleanText]

def literalNode (title valueType : String) : Definition :=
  constant (constantMeta (title ++ " Constant") ("Literal " ++ valueType ++ " value")) ("Constant" ++ title) valueType

def constantNodes : List Definition := [
  literalNode "Boolean" "boolean",
  literalNode "Integer" "integer",
  literalNode "Float" "float",
  literalNode "String" "string",
  { typeName := "Pi", behaviour := .function (some (.constant "result" (.float Double.pi)))
    outputs := .fixed [dataSpec "result" "float"]
    metadata := constantMeta "Pi" "The constant pi" }]

def booleanBinary (typeName title text : String) (op : Binary) : Definition :=
  binary (logicMeta title text) typeName (dataSpec "a" "boolean" (.bool false))
    (dataSpec "b" "boolean" (.bool false)) "boolean" op

def logicNodes : List Definition := [
  booleanBinary "And" "AND" "True if both A and B are true" .both,
  booleanBinary "Or" "OR" "True if A or B is true" .either,
  booleanBinary "Xor" "XOR" "True if exactly one of A and B is true" .notEqual,
  booleanBinary "EqualBoolean" "Equal (Boolean)" "True if A equals B" .equal,
  unary (logicMeta "NOT" "Invert a boolean") "Not" (dataSpec "a" "boolean" (.bool false)) "boolean" .not]

def textInput (name : String) : SocketSpec := dataSpec name "string" (.str "")

def stringBinary (typeName title text first second result : String) (op : Binary) : Definition :=
  binary (stringMeta title text) typeName (textInput first) (textInput second) result op

def stringUnary (typeName title text result : String) (op : Unary) : Definition :=
  unary (stringMeta title text) typeName (textInput "text") result op

def stringNodes : List Definition := [
  stringBinary "StringConcat" "Concat" "Join two strings" "a" "b" "string" .add,
  stringBinary "StringContains" "Contains" "Check if text contains a substring" "text" "substring" "boolean" .contains,
  stringBinary "StringEqual" "Equal (String)" "Check if two strings are equal" "a" "b" "boolean" .equal,
  stringUnary "StringLength" "Length" "Number of characters" "integer" .length,
  stringUnary "StringUpper" "Upper" "Convert to uppercase" "string" .upper,
  stringUnary "StringLower" "Lower" "Convert to lowercase" "string" .lower,
  stringUnary "StringTrim" "Trim" "Remove leading and trailing whitespace" "string" .trim]

def coreNodes : List Definition :=
  eventNodes ++ flowNodes ++ variableNodes ++ timeNodes ++ debugNodes ++ floatNodes ++ integerNodes ++
    comparisonNodes ++ conversionNodes ++ constantNodes ++ logicNodes ++ stringNodes

def coreValues : List ValueType := [.boolean, .integer, .float, .string]

/-- The conversions that a link makes on its own: nothing becomes a boolean, and no text is read. -/
def coreConversions : List ((String × String) × Conversion) := [
  (("integer", "float"), .toFloat),
  (("integer", "string"), .toText),
  (("float", "string"), .toText),
  (("boolean", "string"), .booleanText)]

def core : Profile := fun r => .ok <| r.extend
  { values := coreValues, nodes := coreNodes, conversions := Table.ofList coreConversions
    usualServices := [.logger, .lifecycle, .scheduler] }

end FlowGraph.Catalogue
