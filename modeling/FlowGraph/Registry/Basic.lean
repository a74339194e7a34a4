import FlowGraph.Definition.Basic

/-!
The registry: the value types, node definitions, conversions and host services that graphs are built
from. A registry grows by extensions; an extension that takes a name a second time replaces the entry
and leaves a clash on record.
-/
namespace FlowGraph

/-- How a value changes on its way across a link between different types. -/
inductive Conversion where
  | toFloat | toText | booleanText | length | identity
  /-- A conversion that always fails. -/
  | refused
  /-- A conversion of the host, which gives a value or fails in a way of its own. -/
  | custom (convert : Value → Except (Family × String) Value)

instance : Repr Conversion := ⟨fun _ _ => "conversion"⟩

def Conversion.apply : Conversion → Value → Except Fault Value
  | toFloat, v => v.toFloat
  | toText, v => Unary.toText.apply v
  | booleanText, v => Unary.booleanText.apply v
  | length, v => v.length
  | identity, v => .ok v
  | refused, _ => .error .conversionRefused
  | custom convert, v => (convert v).mapError fun e => .scripted e.1 e.2

/-- The services of the host that nodes can ask for. -/
inductive Service where
  | logger | lifecycle | scheduler | state
  deriving DecidableEq, Repr

def Service.name : Service → String
  | logger => "logger"
  | lifecycle => "lifecycle"
  | scheduler => "scheduler"
  | state => "state"

/-- A service as a host gives it: under a name, with the object that provides it. -/
structure Offer where
  name : String
  kind : Service
  /-- Tells apart the objects that provide one service. -/
  object : Nat := 0
  deriving DecidableEq, Repr

/-- The service under its own name. -/
def Service.offer (s : Service) : Offer := { name := s.name, kind := s }

namespace Offer

def logger : Offer := Service.logger.offer
def lifecycle : Offer := Service.lifecycle.offer
def scheduler : Offer := Service.scheduler.offer
def state : Offer := Service.state.offer

end Offer

/-- A name that was registered although it was taken. -/
inductive Clash where
  | valueType (name : String)
  | nodeType (name : String)
  | conversion (source target : String)
  deriving DecidableEq, Repr

def Clash.text : Clash → String
  | valueType n => "Duplicate value type: " ++ n
  | nodeType n => "Duplicate node type: " ++ n
  | conversion s t => "Duplicate conversion: " ++ s ++ " -> " ++ t

structure Registry where
  values : Table String ValueType := {}
  nodes : Table String Definition := {}
  conversions : Table (String × String) Conversion := {}
  services : Table String Offer := {}
  clashes : List Clash := []
  deriving Repr, Inhabited

/-- What one extension brings. Usual services count only where none is set. -/
structure Extension where
  values : List ValueType := []
  nodes : List Definition := []
  conversions : Table (String × String) Conversion := {}
  services : List Offer := []
  usualServices : List Offer := []

namespace Registry

def addValue (r : Registry) (t : ValueType) : Registry :=
  { r with
    values := r.values.set t.name t
    clashes := if r.values.has t.name || t.isFlow then r.clashes ++ [.valueType t.name] else r.clashes }

def addNode (r : Registry) (d : Definition) : Registry :=
  { r with
    nodes := r.nodes.set d.typeName d
    clashes := if r.nodes.has d.typeName then r.clashes ++ [.nodeType d.typeName] else r.clashes }

def addConversion (r : Registry) (c : (String × String) × Conversion) : Registry :=
  { r with
    conversions := r.conversions.set c.1 c.2
    clashes := if r.conversions.has c.1 then r.clashes ++ [.conversion c.1.1 c.1.2] else r.clashes }

def addService (r : Registry) (s : Offer) : Registry :=
  { r with services := r.services.set s.name s }

def addUsualService (r : Registry) (s : Offer) : Registry :=
  if r.services.has s.name then r else r.addService s

def extend (r : Registry) (e : Extension) : Registry :=
  let r := e.values.foldl addValue r
  let r := e.nodes.foldl addNode r
  let r := e.conversions.entries.foldl addConversion r
  let r := e.usualServices.foldl addUsualService r
  e.services.foldl addService r

def hasValueType (r : Registry) (name : String) : Bool :=
  name == ValueType.flowName || r.values.has name

/-- The value type of a name; the name of execution control stands for itself whatever is registered. -/
def valueType? (r : Registry) (name : String) : Option ValueType :=
  if name = ValueType.flowName then some .flow else r.values.get? name

def valueType (r : Registry) (name : String) : Except IntegrityError ValueType :=
  match r.valueType? name with
  | some t => .ok t
  | none => .error (.unknownValueType name)

def definition (r : Registry) (name : String) : Except IntegrityError Definition :=
  match r.nodes.get? name with
  | some d => .ok d
  | none => .error (.unknownNodeType name)

def service (r : Registry) (name : String) : Except Fault Service :=
  match r.services.get? name with
  | some s => .ok s.kind
  | none => .error (.missing ("Dependency not registered: " ++ name))

def requirementText (profile typeName : String) : String :=
  "Profile '" ++ profile ++ "' requires value type '" ++ typeName ++ "'"

/-- Refuses a profile whose value types are not all there, naming every missing one. -/
def requireValues (r : Registry) (profile : String) (names : List String) : Except Failure Unit :=
  match names.filter (!r.hasValueType ·) with
  | [] => .ok ()
  | missing => .error (.definition (missing.map (requirementText profile)))

/-- Whether an output of the first type may feed an input of the second: execution control only
itself, data its own type or one that a registered conversion leads to. -/
def canConnect (r : Registry) (source target : String) : Bool :=
  if source = ValueType.flowName ∨ target = ValueType.flowName then source == target
  else source == target || r.conversions.has (source, target)

/-- A value carried across a link: a copy for equal types, else what the conversion makes of it. -/
def convert (r : Registry) (v : Value) (source target : String) : Except Failure Value :=
  if source = target then
    match r.valueType target with
    | .ok t => Except.lifted (t.clone v)
    | .error e => .error e
  else match r.conversions.get? (source, target) with
    | some c => Except.lifted (c.apply v)
    | none => .error (.integrity (.noConversion source target))

/-- The items grouped by a key, groups in the order of their first item. -/
def grouped {α : Type} (key : α → String) (xs : List α) : List (String × List α) :=
  (xs.foldl (fun t x => t.set (key x) ((t.get? (key x)).getD [] ++ [x])) (Table.empty : Table String (List α))).entries

def categories (r : Registry) : List (String × List Definition) :=
  grouped Definition.category r.nodes.values

/-- Whether the definition's names or description hold the text, in any case. -/
def matchesText (query : String) (d : Definition) : Bool :=
  let q := (Text.lower query).toList
  [d.metadata.displayName, d.metadata.description, d.typeName].any fun t =>
    Value.occurs q (Text.lower t).toList

def search (r : Registry) (query : String) : List Definition :=
  r.nodes.values.filter (matchesText query)

def label (r : Registry) : String :=
  "<Registry values=" ++ toString r.values.size ++ " nodes=" ++ toString r.nodes.size ++ ">"

end Registry

/-- A step that extends a registry, or finds that what it builds on is missing. -/
abbrev Profile := Registry → Except Failure Registry

end FlowGraph
