import FlowGraph.Catalogue.Core
import FlowGraph.Catalogue.State
import FlowGraph.Catalogue.Vectors
import FlowGraph.Proofs.Typing
import FlowGraph.Registry.Check

/-!
Registries of the catalogue: their value types, and what every definition in them is like. The sockets that
a definition names itself have known types, texts of whole characters for names, and defaults of
their types.
-/
namespace FlowGraph

namespace Registry

theorem foldl_frame {α β : Type} (f : Registry → α → Registry) (part : Registry → β)
    (hf : ∀ r a, part (f r a) = part r) (xs : List α) (r : Registry) : part (xs.foldl f r) = part r := by
  induction xs generalizing r with
  | nil => rfl
  | cons x xs ih => exact (ih (f r x)).trans (hf r x)

theorem foldl_part {α β : Type} (f : Registry → α → Registry) (part : Registry → β) (step : β → α → β)
    (hf : ∀ r a, part (f r a) = step (part r) a) (xs : List α) (r : Registry) :
    part (xs.foldl f r) = xs.foldl step (part r) := by
  induction xs generalizing r with
  | nil => rfl
  | cons x xs ih => exact (ih (f r x)).trans (congrArg (List.foldl step · xs) (hf r x))

theorem addUsualService_eq (r : Registry) (s : Offer) :
    ∃ services, r.addUsualService s = { r with services := services } := by
  unfold addUsualService
  split
  · exact ⟨r.services, rfl⟩
  · exact ⟨r.services.set s.name s, rfl⟩

/-- Services are no part of what an extension does to the rest. -/
theorem services_frame {β : Type} (part : Registry → β)
    (hpart : ∀ (r : Registry) services, part { r with services := services } = part r)
    (usual own : List Offer) (r : Registry) : part (own.foldl addService (usual.foldl addUsualService r)) = part r := by
  rw [foldl_frame addService part (fun r s => hpart r _), foldl_frame addUsualService part]
  intro r s
  obtain ⟨services, hs⟩ := r.addUsualService_eq s
  rw [hs]
  exact hpart r services

theorem nodes_extend (r : Registry) (e : Extension) :
    (r.extend e).nodes = e.nodes.foldl (fun t d => t.set d.typeName d) r.nodes := by
  unfold extend
  rw [services_frame nodes (fun _ _ => rfl), foldl_frame addConversion nodes (fun _ _ => rfl),
    foldl_part addNode nodes (fun t d => t.set d.typeName d) (fun _ _ => rfl),
    foldl_frame addValue nodes (fun _ _ => rfl)]

theorem values_extend (r : Registry) (e : Extension) :
    (r.extend e).values = e.values.foldl (fun t v => t.set v.name v) r.values := by
  unfold extend
  rw [services_frame values (fun _ _ => rfl), foldl_frame addConversion values (fun _ _ => rfl),
    foldl_frame addNode values (fun _ _ => rfl),
    foldl_part addValue values (fun t v => t.set v.name v) (fun _ _ => rfl)]

end Registry

namespace Catalogue

def types : List ValueType := [.flow, .boolean, .integer, .float, .string, .vector .two, .vector .three]

def typeOf? (name : String) : Option ValueType := types.find? (·.name = name)

def vectorDefinitions : List Definition := vectorNodes .two ++ vectorNodes .three ++ [crossNode]

def defaultProfiles : List Profile := [core, vectors, state]

def stateDefinitions : List Definition := (stateTypes.flatMap fun t => stateNodes t.1 t.2) ++ [stateChangedNode]

theorem typeOf?_spec {name : String} {t : ValueType} (h : typeOf? name = some t) : t.name = name ∧ t.IsBasic := by
  have hname : t.name = name := by simpa using List.find?_some h
  have hmem := List.mem_of_find?_eq_some h
  simp only [types, List.mem_cons, List.not_mem_nil, or_false] at hmem
  refine ⟨hname, ?_⟩
  rcases hmem with rfl | rfl | rfl | rfl | rfl | rfl | rfl <;> exact trivial

end Catalogue

/-- The type is one of the catalogue, and the default is of the type. -/
def SocketSpec.isSound (s : SocketSpec) : Bool :=
  (Catalogue.typeOf? s.valueType).any fun t => s.default.isNone || t.holds s.default

def SocketSource.isSound : SocketSource → Bool
  | fixed specs | eventParameters specs | variableValue specs => specs.all SocketSpec.isSound
  | numbered => true
  | counted _ _ | refused _ => false

def Definition.isSound (d : Definition) : Bool := d.inputs.isSound && d.outputs.isSound

theorem Catalogue.isSound_definitions :
    ∀ d ∈ coreNodes ++ vectorDefinitions ++ stateDefinitions, d.isSound = true := by
  decide +kernel

/-- The registry has the types of the catalogue, and definitions from a list of sound ones under their own
names. -/
structure Registry.Standard (ds : List Definition) (r : Registry) : Prop where
  types : ∀ name, r.valueType? name = Catalogue.typeOf? name
  nodes : ∀ e ∈ r.nodes.entries, e.1 = e.2.typeName ∧ e.2 ∈ ds

namespace Registry

theorem mem_foldl_set {ds : List Definition} {t : Table String Definition} {e : String × Definition}
    (h : e ∈ (ds.foldl (fun t d => t.set d.typeName d) t).entries) :
    e ∈ t.entries ∨ e.1 = e.2.typeName ∧ e.2 ∈ ds := by
  induction ds generalizing t with
  | nil => exact .inl h
  | cons d ds ih =>
    rcases ih h with h | ⟨hname, hd⟩
    · rcases Table.mem_entries_set h with rfl | h
      · exact .inr ⟨rfl, List.mem_cons_self⟩
      · exact .inl h
    · exact .inr ⟨hname, List.mem_cons_of_mem _ hd⟩

theorem valueType?_eq {r : Registry} (h : r.values = Table.ofList (Catalogue.types.tail.map fun t => (t.name, t)))
    (name : String) : r.valueType? name = Catalogue.typeOf? name := by
  have hentries : r.values.entries = Catalogue.types.tail.map fun t => (t.name, t) := by
    rw [h]
    decide
  rw [valueType?, Table.get?, hentries, List.find?_map, Option.map_map, Catalogue.typeOf?]
  by_cases hflow : name = ValueType.flowName
  · subst hflow
    simp [Catalogue.types, ValueType.name]
  · have hne : ¬ ValueType.flow.name = name := fun h => hflow h.symm
    rw [if_neg hflow, show Catalogue.types = ValueType.flow :: Catalogue.types.tail from rfl,
      List.find?_cons_of_neg (by simpa using hne)]
    exact congrFun Option.map_id _

/-- The checks leave a registry as it is. -/
theorem checked_eq_ok {r r' : Registry} : r.checked = .ok r' ↔ r' = r ∧ r.problems = .ok [] := by
  unfold checked
  cases r.problems with
  | error f => exact ⟨fun h => (by cases h), fun h => (by cases h.2)⟩
  | ok ps =>
    cases ps with
    | nil => exact ⟨fun h => ⟨(Except.ok.inj h).symm, rfl⟩, fun h => congrArg Except.ok h.1.symm⟩
    | cons p ps => exact ⟨fun h => (by cases h), fun h => (by cases h.2)⟩

/-- What the creation of a registry comes to. -/
theorem create_eq_ok {profiles : List Profile} {services : List Service} {check : Bool} {r : Registry}
    (h : create profiles services check = .ok r) : ∃ folded, profiles.foldlM (fun r p => p r) ({} : Registry) =
      .ok folded ∧ r = folded.extend { services := services.map Service.offer } := by
  obtain ⟨folded, hfolded, h⟩ := bind_eq_ok.1 h
  refine ⟨folded, hfolded, ?_⟩
  split at h
  · exact (checked_eq_ok.1 h).1
  · cases h
    rfl

/-- The registry of the profiles of the catalogue, whatever the host adds as services. -/
theorem standard_of_create {services : List Service} {check : Bool} {r : Registry}
    (h : create Catalogue.defaultProfiles services check = .ok r) :
    Standard (Catalogue.coreNodes ++ Catalogue.vectorDefinitions ++ Catalogue.stateDefinitions) r := by
  obtain ⟨folded, hfolded, rfl⟩ := create_eq_ok h
  obtain ⟨r₁, h₁, h⟩ := bind_eq_ok.1 hfolded
  obtain ⟨r₂, h₂, h⟩ := bind_eq_ok.1 h
  obtain ⟨r₃, h₃, h⟩ := bind_eq_ok.1 h
  cases h
  cases h₁
  obtain ⟨-, -, h₂⟩ := bind_eq_ok.1 h₂
  cases h₂
  obtain ⟨-, -, h₃⟩ := bind_eq_ok.1 h₃
  cases h₃
  constructor
  · apply valueType?_eq
    simp only [values_extend]
    rfl
  · intro e he
    simp only [nodes_extend, ← List.foldl_append] at he
    rcases mem_foldl_set he with he | ⟨hname, hmem⟩
    · cases he
    · refine ⟨hname, ?_⟩
      rw [List.append_nil] at hmem
      exact hmem

namespace Standard

variable {ds : List Definition} {r : Registry}

theorem valueType_eq_ok (hr : Standard ds r) {name : String} {t : ValueType} :
    r.valueType name = .ok t ↔ Catalogue.typeOf? name = some t := by
  rw [← hr.types, valueType]
  cases r.valueType? name <;> simp

/-- A type of the catalogue is found under its name only, and holds values of one shape. -/
theorem valueType_spec (hr : Standard ds r) {name : String} {t : ValueType} (h : r.valueType name = .ok t) :
    t.name = name ∧ t.IsBasic :=
  Catalogue.typeOf?_spec (hr.valueType_eq_ok.1 h)

theorem definition_spec (hr : Standard ds r) {name : String} {d : Definition} (h : r.definition name = .ok d) :
    d.typeName = name ∧ d ∈ ds := by
  unfold definition at h
  cases hget : r.nodes.get? name with
  | none =>
    rw [hget] at h
    cases h
  | some d' =>
    rw [hget] at h
    cases h
    obtain ⟨hname, hmem⟩ := hr.nodes _ (Table.mem_entries_of_get? hget)
    exact ⟨hname.symm, hmem⟩

end Standard

end Registry

namespace Catalogue

/-- The registry of the default profiles, without services of the host. -/
def defaults : Registry := (Registry.create defaultProfiles [] false).toOption.getD {}

theorem create_defaults : Registry.create defaultProfiles [] false = .ok defaults :=
  ok_of_toBool (by decide +kernel) {}

/-- The same registry with its tables written out: what is looked up in it is read off, where the profiles would have to be
folded first. -/
def written : Registry where
  values := ⟨types.tail.map fun t => (t.name, t)⟩
  nodes := ⟨(coreNodes ++ vectorDefinitions ++ stateDefinitions).map fun d => (d.typeName, d)⟩
  conversions := ⟨coreConversions⟩
  services := ⟨[.logger, .lifecycle, .scheduler, .state].map fun s => (s.name, s)⟩

theorem conversions_defaults : defaults.conversions = written.conversions := by
  rfl

/-- The values and services, and that no names are taken twice. -/
theorem parts_defaults : defaults.values = written.values ∧ defaults.services = written.services ∧ defaults.clashes = [] ∧
    ((coreNodes ++ vectorDefinitions ++ stateDefinitions).map (·.typeName)).Nodup := by
  decide +kernel

/-- The nodes of the usual registry are the ones written out. -/
theorem nodes_defaults : defaults.nodes = written.nodes := by
  obtain ⟨folded, hfolded, hdefaults⟩ := Registry.create_eq_ok create_defaults
  obtain ⟨r₁, h₁, h⟩ := bind_eq_ok.1 hfolded
  obtain ⟨r₂, h₂, h⟩ := bind_eq_ok.1 h
  obtain ⟨r₃, h₃, h⟩ := bind_eq_ok.1 h
  cases h
  cases h₁
  obtain ⟨-, -, h₂⟩ := bind_eq_ok.1 h₂
  cases h₂
  obtain ⟨-, -, h₃⟩ := bind_eq_ok.1 h₃
  cases h₃
  have hdistinct : (({} : Table String Definition).keys ++
      ((coreNodes ++ vectorDefinitions ++ stateDefinitions).map fun d => (d.typeName, d)).map (·.1)).Nodup := by
    simpa [Table.keys, Function.comp_def] using parts_defaults.2.2.2
  have hentries := Table.entries_foldl_set hdistinct
  rw [List.foldl_map] at hentries
  rw [hdefaults]
  simp only [Registry.nodes_extend, ← List.foldl_append]
  exact congrArg Table.mk hentries

theorem defaults_eq_written : defaults = written := by
  obtain ⟨hvalues, hservices, hclashes, -⟩ := parts_defaults
  have hconversions := conversions_defaults
  have hnodes := nodes_defaults
  generalize defaults = r at hvalues hconversions hservices hclashes hnodes ⊢
  cases r
  subst hvalues hconversions hservices hclashes hnodes
  rfl

end Catalogue

end FlowGraph
