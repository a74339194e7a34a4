import FlowGraph.Proofs.Faults
import FlowGraph.Proofs.Shelving

/-!
Registries that profiles make, and their checks. A profile extends the registry or finds that value types are missing, which is
told at once. What comes of profiles is accepted if there is no clash and no problem with any definition; otherwise all clashes are
told, and then all problems. Telling a problem can fail in one way: a default that is none of the choices may be an integer too
long to be written.
-/
namespace FlowGraph

/-! ### Profiles -/

/-- What comes of a registry that is only extended, unless a value type is missing on the way. -/
def Registry.Grows (r : Registry) (result : Except Failure Registry) : Prop :=
  (∃ es : List Extension, result = .ok (es.foldl extend r)) ∨
    ∃ (es : List Extension) (profile : String) (names : List String) (f : Failure),
      (es.foldl extend r).requireValues profile names = .error f ∧ result = .error f

/-- A profile extends the registry, in whatever way it depends on it, or finds that a value type is missing. -/
def Profile.Folds (p : Profile) : Prop := ∀ r : Registry, r.Grows (p r)

namespace Registry

theorem Grows.bind {r : Registry} {result : Except Failure Registry} (h : r.Grows result) {f : Registry → Except Failure Registry}
    (hf : ∀ r : Registry, r.Grows (f r)) : r.Grows (result >>= f) := by
  rcases h with ⟨es, rfl⟩ | ⟨es, profile, names, e, he, rfl⟩
  · rcases hf (es.foldl extend r) with ⟨more, hmore⟩ | ⟨more, profile, names, e, he, hmore⟩
    · exact .inl ⟨es ++ more, hmore.trans (by rw [List.foldl_append])⟩
    · exact .inr ⟨es ++ more, profile, names, e, by rwa [List.foldl_append], hmore⟩
  · exact .inr ⟨es, profile, names, e, he, rfl⟩

/-- Profiles one after the other. -/
theorem grows_foldlM {profiles : List Profile} (h : ∀ p ∈ profiles, p.Folds) (r : Registry) :
    r.Grows (profiles.foldlM (fun r p => p r) r) := by
  induction profiles generalizing r with
  | nil => exact .inl ⟨[], rfl⟩
  | cons p profiles ih =>
    obtain ⟨hp, hrest⟩ := List.forall_mem_cons.1 h
    exact (hp r).bind (ih hrest)

theorem grows_extend (r : Registry) (e : Extension) : r.Grows (.ok (r.extend e)) := .inl ⟨[e], rfl⟩

/-- A profile that requires value types and brings one extension. -/
theorem grows_require (r : Registry) (profile : String) (names : List String) (e : Extension) :
    r.Grows (do r.requireValues profile names; return r.extend e) := by
  cases h : r.requireValues profile names with
  | ok u => exact grows_extend r e
  | error f => exact .inr ⟨[], profile, names, f, h, rfl⟩

end Registry

namespace Catalogue

theorem folds_core : core.Folds := fun r => r.grows_extend _

theorem folds_vectors : vectors.Folds := fun r => r.grows_require _ _ _

theorem folds_state : state.Folds := fun r => r.grows_require _ _ _

end Catalogue

/-! ### Problems -/

/-- A computation that fails just if not everything can be shown, because of an integer with too many digits. -/
def Shows {α : Type} (shown : Bool) : Except Fault α → Prop
  | .ok _ => shown = true
  | .error f => shown = false ∧ f = .digitsWritten

namespace Shows

variable {α β : Type} {a b : Bool}

theorem bind {x : Except Fault α} {f : α → Except Fault β} (hx : Shows a x) (hf : ∀ v, Shows b (f v)) :
    Shows (a && b) (x >>= f) := by
  cases x with
  | ok v =>
    rw [show a = true from hx, Bool.true_and]
    exact hf v
  | error e =>
    rw [hx.1, Bool.false_and]
    exact ⟨rfl, hx.2⟩

theorem map {x : Except Fault α} (hx : Shows a x) (f : α → β) : Shows a (x >>= fun v => .ok (f v)) := by
  rw [← Bool.and_true a]
  exact hx.bind fun _ => rfl

theorem mapM {f : α → Except Fault β} {g : α → Bool} (h : ∀ v, Shows (g v) (f v)) (vs : List α) :
    Shows (vs.all g) (vs.mapM f) := by
  induction vs with
  | nil => rfl
  | cons v vs ih =>
    rw [List.mapM_cons, List.all_cons]
    exact (h v).bind fun _ => ih.map _

theorem eq_ok {x : Except Fault α} (h : Shows true x) : ∃ v, x = .ok v := by
  cases x with
  | ok v => exact ⟨v, rfl⟩
  | error f => cases h.1

theorem eq_error {x : Except Fault α} (h : Shows false x) : x = .error .digitsWritten := by
  cases x with
  | ok v => cases h
  | error f => rw [h.2]

end Shows

/-- Whether a default can be shown where it has to be, which is where it is none of the choices. -/
def isShown (default : Value) (choices : Option (List Value)) : Bool :=
  !Registry.strays default choices || default.literal.toBool

/-- Whether all defaults of a definition can be shown where they have to be. -/
def Definition.isShown (d : Definition) : Bool :=
  match Registry.defaultSockets d Scope.none with
  | .error _ => true
  | .ok (inputs, outputs) => d.configuration.all (fun s => FlowGraph.isShown s.default s.choices) &&
      (inputs.all (fun s => FlowGraph.isShown s.default s.choices) &&
        outputs.all fun s => FlowGraph.isShown s.default s.choices)

namespace Registry

variable (r : Registry)

theorem shows_specProblems (place valueType : String) (default : Value) (choices : Option (List Value)) :
    Shows (isShown default choices) (r.specProblems place valueType default choices) := by
  unfold specProblems isShown
  cases strays default choices with
  | false => rfl
  | true =>
    cases h : default.literal with
    | ok text => rfl
    | error f => exact ⟨rfl, default.literal_eq_error h⟩

theorem shows_configProblems (name : String) (specs : List ConfigSpec) :
    Shows (specs.all fun s => isShown s.default s.choices) (r.configProblems name specs) :=
  (Shows.mapM (fun _ => r.shows_specProblems ..) specs).map _

theorem shows_socketProblems (name : String) (side : Side) (seen : List String) (specs : List SocketSpec) :
    Shows (specs.all fun s => isShown s.default s.choices) (r.socketProblems name side seen specs) := by
  induction specs generalizing seen with
  | nil => rfl
  | cons s specs ih => exact (r.shows_specProblems ..).bind fun _ => (ih (s.name :: seen)).map _

theorem shows_definitionProblems (d : Definition) : Shows d.isShown (r.definitionProblems d) := by
  unfold definitionProblems Definition.isShown
  cases defaultSockets d Scope.none with
  | error e => rfl
  | ok sockets => exact (r.shows_configProblems ..).bind fun _ => (r.shows_socketProblems ..).bind fun _ =>
      (r.shows_socketProblems ..).map _

theorem shows_problems : Shows (r.nodes.values.all Definition.isShown) r.problems :=
  (Shows.mapM r.shows_definitionProblems _).map _

/-! ### The verdict -/

/-- What the checks make of a registry. -/
structure Verdict (result : Except Failure Registry) : Prop where
  /-- It is accepted, as it is, just if there is no clash and no problem with any definition. -/
  accepted : (∃ r', result = .ok r') ↔ r.clashes = [] ∧ ∀ d ∈ r.nodes.values, r.definitionProblems d = .ok []
  same : ∀ r', result = .ok r' → r' = r
  /-- Otherwise all clashes are told and then the problems of each definition, if they can be shown. -/
  refused : r.nodes.values.all Definition.isShown = true → (¬∃ r', result = .ok r') → ∃ own : List (List String),
    List.Forall₂ (fun d ps => r.definitionProblems d = .ok ps) r.nodes.values own ∧
      result = .error (.definition (r.clashes.map Clash.text ++ own.flatten))
  unshown : r.nodes.values.all Definition.isShown = false → result = .error (.fault .digitsWritten)

variable {r}

/-- The problems that are told are the clashes and then those of each definition. -/
theorem problems_eq_ok {ps : List String} (h : r.problems = .ok ps) : ∃ own : List (List String),
    List.Forall₂ (fun d ps => r.definitionProblems d = .ok ps) r.nodes.values own ∧
      ps = r.clashes.map Clash.text ++ own.flatten := by
  obtain ⟨own, hown, hps⟩ := bind_eq_ok.1 h
  exact ⟨own, forall₂_of_mapM hown, (Except.ok.inj hps).symm⟩

/-- A registry has no problems just if no name clashed and each definition alone has none. -/
theorem problems_eq_nil : r.problems = .ok [] ↔
    r.clashes = [] ∧ ∀ d ∈ r.nodes.values, r.definitionProblems d = .ok [] := by
  constructor
  · intro h
    obtain ⟨own, hown, hps⟩ := problems_eq_ok h
    obtain ⟨hclashes, hflat⟩ := List.append_eq_nil_iff.1 hps.symm
    refine ⟨List.map_eq_nil_iff.1 hclashes, fun d hd => ?_⟩
    obtain ⟨ps, hmem, hd⟩ := mem_left_of_forall₂ hown hd
    rw [hd, List.flatten_eq_nil_iff.1 hflat ps hmem]
  · rintro ⟨hclashes, hsound⟩
    have hnone (ds : List Definition) (h : ∀ d ∈ ds, r.definitionProblems d = .ok []) :
        ds.mapM r.definitionProblems = .ok (ds.map fun _ => []) := by
      induction ds with
      | nil => rfl
      | cons d ds ih =>
        obtain ⟨hd, hds⟩ := List.forall_mem_cons.1 h
        rw [List.mapM_cons, hd, ih hds]
        rfl
    rw [problems, hnone _ hsound, hclashes]
    exact congrArg Except.ok (List.flatten_eq_nil_iff.2 fun ps hps => by
      obtain ⟨d, -, rfl⟩ := List.mem_map.1 hps
      rfl)

/-- The checks come to a verdict. -/
theorem verdict_checked (r : Registry) : r.Verdict r.checked := by
  have hok : (∃ r', r.checked = .ok r') ↔ r.problems = .ok [] :=
    ⟨fun ⟨_, h⟩ => (checked_eq_ok.1 h).2, fun h => ⟨r, checked_eq_ok.2 ⟨rfl, h⟩⟩⟩
  refine ⟨hok.trans problems_eq_nil, fun r' h => (checked_eq_ok.1 h).1, fun hshown hno => ?_, fun hshown => ?_⟩
  · have hshows := r.shows_problems
    rw [hshown] at hshows
    obtain ⟨ps, hps⟩ := hshows.eq_ok
    obtain ⟨own, hown, htold⟩ := problems_eq_ok hps
    refine ⟨own, hown, ?_⟩
    rw [checked, hps, ← htold]
    cases ps with
    | nil => exact absurd (hok.2 hps) hno
    | cons p ps => rfl
  · have hshows := r.shows_problems
    rw [hshown] at hshows
    rw [checked, hshows.eq_error]
    rfl

/-! ### What comes of profiles -/

/-- What a profile requires and does not find is told, all of it and nothing else. -/
theorem requireValues_eq_error {profile : String} {names : List String} {f : Failure}
    (h : r.requireValues profile names = .error f) : ∃ missing, missing ≠ [] ∧
      missing = names.filter (!r.hasValueType ·) ∧ f = .definition (missing.map (requirementText profile)) := by
  unfold requireValues at h
  split at h
  · cases h
  · rename_i hsome
    exact ⟨_, hsome, rfl, (Except.error.inj h).symm⟩

/-- What comes of profiles: value types that one of them requires are missing, and only these are told, or they come to
extensions, and the registry of these and of what the host offers comes to a verdict. -/
def Outcome (profiles : List Profile) (offers : List Offer) : Prop :=
  (∃ (es : List Extension) (profile : String) (names missing : List String), missing ≠ [] ∧
    missing = names.filter (!(ofExtensions es).hasValueType ·) ∧
    profiles.foldlM (fun r p => p r) {} = .error (.definition (missing.map (requirementText profile))) ∧
      assemble profiles offers true = .error (.definition (missing.map (requirementText profile)))) ∨
  ∃ es : List Extension, profiles.foldlM (fun r p => p r) {} = .ok (ofExtensions es) ∧
    (ofExtensions (es ++ [{ services := offers }])).Verdict (assemble profiles offers true)

theorem assemble_eq_checked {profiles : List Profile} {es : List Extension}
    (h : profiles.foldlM (fun r p => p r) {} = .ok (ofExtensions es)) (offers : List Offer) :
    assemble profiles offers true = (ofExtensions (es ++ [{ services := offers }])).checked := by
  rw [assemble, h, ofExtensions_concat]
  rfl

theorem outcome_of_folds {profiles : List Profile} (h : ∀ p ∈ profiles, p.Folds) (offers : List Offer) :
    Outcome profiles offers := by
  rcases grows_foldlM h {} with ⟨es, hes⟩ | ⟨es, profile, names, f, hmissing, hf⟩
  · refine .inr ⟨es, hes, ?_⟩
    rw [assemble_eq_checked hes]
    exact verdict_checked _
  · obtain ⟨missing, hsome, hnames, rfl⟩ := requireValues_eq_error hmissing
    refine .inl ⟨es, profile, names, missing, hsome, hnames, hf, ?_⟩
    rw [assemble, hf]
    rfl

/-- The registries that extensions make stay as they are while more extensions are carried out. -/
def Stays (es : List Extension) : Prop := ∀ (more : List Extension) (k : Nat), k ≤ es.length → ∃ h : Handle,
  (Shelf.empty.chain Shelf.emptyHandle es).2[k]? = some h ∧
  (Shelf.empty.chain Shelf.emptyHandle (es ++ more)).2[k]? = some h ∧
  (Shelf.empty.chain Shelf.emptyHandle es).1.read h = ofExtensions (es.take k) ∧
  (Shelf.empty.chain Shelf.emptyHandle (es ++ more)).1.read h = ofExtensions (es.take k)

theorem stays (es : List Extension) : Stays es := by
  intro more k hk
  obtain ⟨h, hh, -, hread⟩ := (Shelf.chain_spec Shelf.holds_empty es).2 k hk
  obtain ⟨h', hh', -, hread'⟩ := (Shelf.chain_spec Shelf.holds_empty (es ++ more)).2 k
    (hk.trans (by rw [List.length_append]; omega))
  obtain ⟨rest, hrest⟩ := Shelf.chain_append Shelf.empty Shelf.emptyHandle es more
  have hlt : k < (Shelf.empty.chain Shelf.emptyHandle es).2.length := (List.getElem?_eq_some_iff.1 hh).1
  have hsame : h' = h := by
    rw [hrest, List.getElem?_append_left hlt, hh] at hh'
    exact (Option.some.inj hh').symm
  rw [List.take_append_of_le_length hk, hsame] at hread'
  exact ⟨h, hh, hsame ▸ hh', hread, hread'⟩

/-- Extensions fold into a registry that holds the last entry of each name and a clash for each name that was taken; no registry
on the way changes. A registry that profiles make is accepted just if nothing that they require is missing, there is no clash and
no problem with a definition. Otherwise what is missing is told, or all clashes and problems if nothing is, unless one of them
cannot be shown. -/
theorem folded_and_checked (es : List Extension) {profiles : List Profile} (h : ∀ p ∈ profiles, p.Folds)
    (offers : List Offer) :
    Folds es (ofExtensions es) ∧
    ((ofExtensions es).clashes = [] ↔
      (es.flatMap (·.names)).Nodup ∧ ∀ c ∈ es.flatMap (·.names), c.isReserved = false) ∧
    Stays es ∧ Outcome profiles offers :=
  ⟨folds_ofExtensions es, (folds_ofExtensions es).clashes_eq_nil, stays es, outcome_of_folds h offers⟩

/-- An extension that takes a reserved name, and one that is taken, and offers a service in place of another one. -/
def redefining : Extension :=
  { values := [.flow, .boolean], services := [{ name := "logger", kind := .logger, object := 1 }]
    usualServices := [.scheduler] }

def redefiningProfiles : List Profile := [Catalogue.core, fun r => .ok (r.extend redefining)]

theorem folded_and_checked_redefining : (∀ p ∈ redefiningProfiles, p.Folds) ∧
    (Folds [redefining, redefining] (ofExtensions [redefining, redefining]) ∧
      (ofExtensions [redefining, redefining]).clashes =
        [.valueType "flow", .valueType "flow", .valueType "boolean"]) ∧
    Stays [redefining, redefining] ∧ Outcome redefiningProfiles [] ∧
    (match assemble redefiningProfiles [] true with
      | .error (.definition ps) => ps
      | _ => []) = ["Duplicate value type: flow", "Duplicate value type: boolean"] := by
  have hfolds : ∀ p ∈ redefiningProfiles, p.Folds := by
    intro p hp
    rcases List.mem_cons.1 hp with rfl | hp
    · exact Catalogue.folds_core
    · obtain rfl := List.mem_singleton.1 hp
      exact fun r => r.grows_extend _
  have htold : (ofExtensions [redefining, redefining]).clashes =
        [.valueType "flow", .valueType "flow", .valueType "boolean"] ∧
      (match assemble redefiningProfiles [] true with
        | .error (.definition ps) => ps
        | _ => []) = ["Duplicate value type: flow", "Duplicate value type: boolean"] := by
    decide +kernel
  obtain ⟨hfold, -, hstays, houtcome⟩ := folded_and_checked [redefining, redefining] hfolds []
  exact ⟨hfolds, ⟨hfold, htold.1⟩, hstays, houtcome, htold.2⟩

/-- A profile that requires a type which is nowhere. -/
def requiring : Profile := fun r => do
  r.requireValues "profile" ["quaternion"]
  return r

/-- A clash between profiles is not told where a later one misses a value type. -/
theorem not_told_required : ∃ r, [Catalogue.core, Catalogue.core].foldlM (fun r (p : Profile) => p r) {} = .ok r ∧
    .valueType "boolean" ∈ r.clashes ∧ assemble [Catalogue.core, Catalogue.core, requiring] [] true =
      .error (.definition ["Profile 'profile' requires value type 'quaternion'"]) := by
  obtain ⟨r, hr⟩ : ∃ r, [Catalogue.core, Catalogue.core].foldlM (fun r (p : Profile) => p r) {} = .ok r := ⟨_, rfl⟩
  have hfold : ∀ r ∈ ([Catalogue.core, Catalogue.core].foldlM (fun r (p : Profile) => p r) {}).toOption,
      .valueType "boolean" ∈ r.clashes ∧ r.hasValueType "quaternion" = false := by
    decide +kernel
  obtain ⟨hclash, hmissing⟩ := hfold r (by rw [hr]; rfl)
  have hrequired : requiring r = .error (.definition [requirementText "profile" "quaternion"]) := by
    simp only [requiring, requireValues, List.filter_cons, hmissing, Bool.not_false, reduceIte, List.filter_nil]
    rfl
  refine ⟨r, hr, hclash, ?_⟩
  rw [assemble, show [Catalogue.core, Catalogue.core, requiring] = [Catalogue.core, Catalogue.core] ++ [requiring] from rfl,
    List.foldlM_append, hr]
  show (List.foldlM (fun r (p : Profile) => p r) r [requiring] >>= fun folded => _) = _
  rw [List.foldlM_cons, hrequired]
  rfl

end Registry

end FlowGraph
