import FlowGraph.Number.Decimal
import FlowGraph.Problem
import FlowGraph.Text.Quoted

/-!
What can go wrong with values: each cause is a constructor, `Fault.message` words it and
`Fault.family` sorts it into the few families that callers tell apart. Every cause has a text.
-/
namespace FlowGraph

/-- The families of faults that a caller can react to differently. -/
inductive Family where
  | value | key | type | runtime | feature | overflow | zeroDivision | index | memory | recursion
  | integrity | definition | node | validation
  deriving DecidableEq, Repr

inductive Fault where
  /-- A text that is no integer, already quoted. -/
  | badInteger (quoted : String)
  | badFloat (text : String)
  | badBoolean (text : String)
  | notIntegral (x : Double)
  | nanToInteger
  | infinityToInteger
  | integerTooLarge
  | quotientTooLarge
  | digitsRead (digits : Nat)
  | digitsWritten
  | mathDomain
  | mathRange
  | floatDivision
  | floatFloorDivision
  | integerDivision
  | quotientDivision
  | vectorSize (name : String) (need got : Nat)
  | integerFrom (type : String)
  | floatFrom (type : String)
  | realFrom (type : String)
  | indexFrom (type : String)
  | notIterable (type : String)
  | notContainer (type : String)
  | noLength (type : String)
  | noRounding (type : String)
  | notSubscriptable (type : String)
  | unhashable (type : String)
  | notWritable (type : String)
  | noFeature (type feature : String)
  /-- A feature that not even the kind of the value has. -/
  | noKindFeature (type feature : String)
  | notText (method type : String)
  | substringFrom (type : String)
  | operands (operator left right : String)
  | operand (operator type : String)
  | absoluteOf (type : String)
  | concatenation (left right : String)
  | repetition (type : String)
  | countTooLarge
  | textTooLong
  | outOfMemory
  /-- A document with brackets inside brackets beyond measure, by the kind of the innermost one. -/
  | nestedTooDeep (isArray : Bool)
  | calledTooDeep
  | order (operator left right : String)
  | vectorArguments
  | indexRange
  | textIndexRange
  /-- A name that is not there; the whole text is shown quoted. -/
  | missing (text : String)
  | missingPosition (n : Nat)
  | readFlow (socket node : String)
  | writeFlow (socket node : String)
  | triggerOutputs
  | conversionRefused
  | severity (text : String)
  | noEventLoop
  | nullInPath
  /-- An option whose value is only the divider. -/
  | dividerValue
  | badSection (name : String)
  | badSetting (key sectionName : String)
  /-- A setting refused by its rule; the problems are locations with codes. -/
  | settingValue (sectionName key literal : String) (problems : List Problem)
  /-- A group of values of which some break their rules. -/
  | invalid (problems : List Problem)
  /-- A fault that a scripted behaviour asked for. -/
  | scripted (family : Family) (text : String)
  deriving DecidableEq, Repr

namespace Fault

def family : Fault → Family
  | badInteger _ | badFloat _ | badBoolean _ | notIntegral _ | nanToInteger | digitsRead _
  | digitsWritten | mathDomain | vectorSize _ _ _ | conversionRefused | severity _ | badSection _
  | badSetting _ _ | settingValue _ _ _ _ | nullInPath | dividerValue => .value
  | infinityToInteger | integerTooLarge | quotientTooLarge | mathRange | countTooLarge
  | textTooLong => .overflow
  | outOfMemory => .memory
  | nestedTooDeep _ | calledTooDeep => .recursion
  | floatDivision | floatFloorDivision | integerDivision | quotientDivision => .zeroDivision
  | noFeature _ _ | noKindFeature _ _ => .feature
  | indexRange | textIndexRange => .index
  | missing _ | missingPosition _ => .key
  | noEventLoop => .runtime
  | invalid _ => .validation
  | scripted f _ => f
  | _ => .type

def limitText : String := "Exceeds the limit (" ++ toString Decimal.digitLimit ++
  " digits) for integer string conversion"

def limitAdvice : String := "; use sys.set_int_max_str_digits() to increase the limit"

def inQuotes (s : String) : String := "'" ++ s ++ "'"

def message : Fault → String
  | badInteger q => "invalid literal for int() with base 10: " ++ q
  | badFloat s => "could not convert string to float: " ++ Text.quote s
  | badBoolean s => "Not a boolean: " ++ Text.quote s
  | notIntegral x => "Not an integer: " ++ Decimal.render Decimal.plain x
  | nanToInteger => "cannot convert float NaN to integer"
  | infinityToInteger => "cannot convert float infinity to integer"
  | integerTooLarge => "int too large to convert to float"
  | quotientTooLarge => "integer division result too large for a float"
  | digitsRead n => limitText ++ ": value has " ++ toString n ++ " digits" ++ limitAdvice
  | digitsWritten => limitText ++ limitAdvice
  | mathDomain => "math domain error"
  | mathRange => "math range error"
  | floatDivision => "float division by zero"
  | floatFloorDivision => "float floor division by zero"
  | integerDivision => "integer division or modulo by zero"
  | quotientDivision => "division by zero"
  | vectorSize name need got =>
    name ++ " needs " ++ toString need ++ " components, got " ++ toString got
  | integerFrom t =>
    "int() argument must be a string, a bytes-like object or a real number, not " ++ inQuotes t
  | floatFrom t => "float() argument must be a string or a real number, not " ++ inQuotes t
  | realFrom t => "must be real number, not " ++ t
  | indexFrom t => inQuotes t ++ " object cannot be interpreted as an integer"
  | notIterable t => inQuotes t ++ " object is not iterable"
  | notContainer t => "argument of type " ++ inQuotes t ++ " is not iterable"
  | noLength t => "object of type " ++ inQuotes t ++ " has no len()"
  | noRounding t => "type " ++ t ++ " doesn't define __round__ method"
  | notSubscriptable t => inQuotes t ++ " object is not subscriptable"
  | unhashable t => "unhashable type: " ++ inQuotes t
  | notWritable t => "Object of type " ++ t ++ " is not JSON serializable"
  | noFeature t a => inQuotes t ++ " object has no attribute " ++ inQuotes a
  | noKindFeature t a => "type object " ++ inQuotes t ++ " has no attribute " ++ inQuotes a
  | notText method t =>
    "descriptor " ++ inQuotes method ++ " for 'str' objects doesn't apply to a " ++ inQuotes t ++ " object"
  | substringFrom t => "'in <string>' requires string as left operand, not " ++ t
  | operands op a b =>
    "unsupported operand type(s) for " ++ op ++ ": " ++ inQuotes a ++ " and " ++ inQuotes b
  | operand op t => "bad operand type for unary " ++ op ++ ": " ++ inQuotes t
  | absoluteOf t => "bad operand type for abs(): " ++ inQuotes t
  | concatenation a b => "can only concatenate " ++ a ++ " (not \"" ++ b ++ "\") to " ++ a
  | repetition t => "can't multiply sequence by non-int of type " ++ inQuotes t
  | countTooLarge => "cannot fit 'int' into an index-sized integer"
  | textTooLong => "repeated string is too long"
  | outOfMemory => ""
  | nestedTooDeep isArray => "maximum recursion depth exceeded while decoding a JSON " ++
      (if isArray then "array" else "object") ++ " from a unicode string"
  | calledTooDeep => "maximum recursion depth exceeded"
  | order op a b =>
    inQuotes op ++ " not supported between instances of " ++ inQuotes a ++ " and " ++ inQuotes b
  | vectorArguments => "Vec2.__init__() takes from 1 to 3 positional arguments but 4 were given"
  | indexRange => "list index out of range"
  | textIndexRange => "string index out of range"
  | missing text => Text.quote text
  | missingPosition n => toString n
  | readFlow s n => "Cannot read flow socket " ++ inQuotes s ++ " on " ++ n
  | writeFlow s n => "Cannot write flow socket " ++ inQuotes s ++ " on " ++ n
  | triggerOutputs => "FlowContext.commit() takes from 2 to 3 positional arguments but 4 were given"
  | conversionRefused => "conversion refused"
  | severity text => "Unknown severity: " ++ text
  | noEventLoop => "no running event loop"
  | nullInPath => "embedded null byte"
  | dividerValue => "not enough values to unpack (expected 1, got 0)"
  | badSection name => "Invalid section: " ++ name
  | badSetting key s => "Invalid key: " ++ key ++ " in section " ++ s
  | settingValue s key literal _ => "Invalid value for " ++ s ++ "." ++ key ++ ": " ++ literal
  | invalid _ => "validation failed"
  | scripted .key text => Text.quote text
  | scripted _ text => text

end Fault

end FlowGraph
