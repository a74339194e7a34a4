import FlowGraph.Checked
import FlowGraph.Fault
import FlowGraph.Text.CaseMap
import FlowGraph.Value.Text

/-!
Settings of the runner: limits of a run and the handling of log messages. A setting is only ever
changed by a value that its rule accepts, and takes the accepted form of it.
-/
namespace FlowGraph

structure RuntimeSettings where
  maxSteps : Int := 100000
  maxSeconds : Option Double := none
  replaceLinks : Bool := true
  deriving DecidableEq, Repr, Inhabited

structure LoggingSettings where
  debugMode : Bool := false
  logDir : Option String := none
  deriving DecidableEq, Repr, Inhabited

structure Settings where
  runtime : RuntimeSettings := {}
  logging : LoggingSettings := {}
  deriving DecidableEq, Repr, Inhabited

namespace Checked

/-- A whole number that is entered as a text. -/
def integerText (s : String) : Checked Int :=
  match Entry.readInteger s with
  | .number i => .ok i
  | .tooLong _ => refuse .intParsingSize
  | .malformed => refuse .intParsing

/-- The numbers of a machine word lie below this bound, and not below its negative. -/
def wordBound : Int := twoPow 63

/-- A whole number: integers, booleans, floats without fraction, and texts of whole numbers. -/
def integer : Value → Checked Int
  | .float x =>
    if !x.isFinite then refuse .finiteNumber
    else if !x.isIntegral then refuse .intFromFloat
    else if wordBound ≤ (x.truncate.natAbs : Int) then refuse .intParsingSize
    else .ok x.truncate
  | .str s => integerText s
  | v => match v.integer? with
    | some i => .ok i
    | none => refuse .intType

def trueWords : List String := ["1", "on", "t", "true", "y", "yes"]
def falseWords : List String := ["0", "off", "f", "false", "n", "no"]

/-- Zero and one as truth values; a number beyond the range of a word is not even taken for one. -/
def bit (i : Int) : Checked Bool :=
  if i = 0 then .ok false
  else if i = 1 then .ok true
  else if -wordBound ≤ i ∧ i < wordBound then refuse .boolParsing
  else refuse .boolType

/-- A truth value: booleans, zero and one, and a few words in any case. -/
def boolean : Value → Checked Bool
  | .bool b => .ok b
  | .int i => bit i
  | .float x =>
    if x.isIntegral && x.truncate != -wordBound then bit x.truncate else refuse .boolType
  | .str s =>
    let word := Text.lower s
    if word ∈ trueWords then .ok true
    else if word ∈ falseWords then .ok false
    else refuse .boolParsing
  | _ => refuse .boolType

def positiveInteger (v : Value) : Checked Int := do
  let i ← integer v
  if 0 < i then return i else refuse .greaterThan

def positiveFloat (v : Value) : Checked Double := do
  let x ← float v
  if x.compareInt 0 == some .gt then return x else refuse .greaterThan

end Checked

open Checked

def RuntimeSettings.check (m : List (String × Value)) : Checked RuntimeSettings :=
  seq (seq ((optional m "max_steps" 100000 positiveInteger).map RuntimeSettings.mk)
    (optional m "max_seconds" none (nullable positiveFloat)))
    (optional m "replace_existing_links" true boolean)

def LoggingSettings.check (m : List (String × Value)) : Checked LoggingSettings :=
  seq ((optional m "debug_mode" false boolean).map LoggingSettings.mk)
    (optional m "log_dir" none (nullable string))

def RuntimeSettings.fields (s : RuntimeSettings) : List (String × Value) :=
  [("max_steps", .int s.maxSteps),
   ("max_seconds", match s.maxSeconds with | some x => .float x | none => .none),
   ("replace_existing_links", .bool s.replaceLinks)]

def LoggingSettings.fields (s : LoggingSettings) : List (String × Value) :=
  [("debug_mode", .bool s.debugMode),
   ("log_dir", match s.logDir with | some d => .str d | none => .none)]

def RuntimeSettings.ofFields (m : List (String × Value)) : Except Fault RuntimeSettings :=
  match RuntimeSettings.check m with
  | .ok s => .ok s
  | .error ps => .error (.invalid ps)

namespace Settings

def check : Value → Checked Settings := record fun m =>
  seq ((optional m "runtime" {} (record RuntimeSettings.check)).map Settings.mk)
    (optional m "logging" {} (record LoggingSettings.check))

def toValue (s : Settings) : Value :=
  .dict [("runtime", .dict s.runtime.fields), ("logging", .dict s.logging.fields)]

def section? (s : Settings) : String → Option (List (String × Value))
  | "runtime" => some s.runtime.fields
  | "logging" => some s.logging.fields
  | _ => none

def sectionTitle : String → String
  | "runtime" => "RuntimeSettings"
  | _ => "LoggingSettings"

/-- What a name gives: a value, or something that is only known by the name of its kind. -/
inductive Answer where
  | value (v : Value)
  | thing (kind : String)
  /-- One thing of a kind for each name. -/
  | things (names : List String) (kind : String)
  deriving Repr

def Answer.kind : Answer → String
  | value v => v.typeName
  | thing k => k
  | things _ _ => "dict"

/-- The kind under which a missing name of an answer is reported. -/
def Answer.owner (a : Answer) : String := if a.kind = "method" then "function" else a.kind

/-- Names of operations, which every group of settings has besides its values. -/
def operations : List String := ["construct", "copy", "dict", "from_orm", "json", "model_construct",
  "model_copy", "model_dump", "model_dump_json", "model_json_schema", "model_parametrized_name",
  "model_post_init", "model_rebuild", "model_validate", "model_validate_json", "model_validate_strings",
  "parse_file", "parse_obj", "parse_raw", "schema", "schema_json", "update_forward_refs", "validate"]

/-- What a group of settings with the given names answers to besides them. -/
def feature? (names : List String) (name : String) : Option Answer :=
  match name with
  | "model_config" | "model_computed_fields" => some (.value (.dict []))
  | "model_extra" => some (.value .none)
  | "model_fields" => some (.things names "FieldInfo")
  | "model_fields_set" => some (.thing "set")
  | _ => if name ∈ operations then some (.thing "method") else none

def sectionNames : List String := ["runtime", "logging"]

/-- What a name gives of all settings, where it is no section. -/
def topFeature? (name : String) : Option Answer := feature? sectionNames name

/-- What a section answers to a key. -/
def get (s : Settings) (sectionName key : String) : Except Fault Answer :=
  match s.section? sectionName with
  | some fields => match fields.lookup key, feature? (fields.map (·.1)) key with
    | some v, _ => .ok (.value v)
    | none, some a => .ok a
    | none, none => .error (.noFeature (sectionTitle sectionName) key)
  | none => match topFeature? sectionName with
    | some a => .error (.noFeature a.owner key)
    | none => .error (.noFeature "AppConfig" sectionName)

def withSection (s : Settings) (sectionName : String) (fields : List (String × Value)) : Checked Settings :=
  if sectionName = "runtime" then (RuntimeSettings.check fields).map fun r => { s with runtime := r }
  else (LoggingSettings.check fields).map fun l => { s with logging := l }

/-- Changes one setting, to the form that its rule gives the value. -/
def update (s : Settings) (sectionName key : String) (v : Value) : Except Fault Settings :=
  match s.section? sectionName with
  | none => match topFeature? sectionName with
    | some a => .error (.noKindFeature a.kind "model_fields")
    | none => .error (.badSection sectionName)
  | some fields =>
    if (fields.lookup key).isNone then .error (.badSetting key sectionName)
    else match s.withSection sectionName (fields.map fun f => if f.1 = key then (key, v) else f) with
      | .ok t => .ok t
      | .error ps => do throw (.settingValue sectionName key (← v.literal) ps)

def value? (s : Settings) (sectionName key : String) : Option Value :=
  (s.section? sectionName).bind (·.lookup key)

end Settings

end FlowGraph
