import FlowGraph.Proofs.DocumentForm
import FlowGraph.Proofs.Faults
import FlowGraph.Settings.Basic

/-!
Rules of settings. Each setting has a rule of its own, which leaves the forms that it gives as they are. So settings that were
accepted once are accepted again, together with any change of one of them, and only the rule of that one decides.
-/
namespace FlowGraph.Settings

open Checked

/-- The settings, one by one. -/
inductive Key where
  | maxSteps | maxSeconds | replaceLinks | debugMode | logDir
  deriving DecidableEq, Repr

namespace Key

def sectionName : Key → String
  | maxSteps | maxSeconds | replaceLinks => "runtime"
  | debugMode | logDir => "logging"

def name : Key → String
  | maxSteps => "max_steps"
  | maxSeconds => "max_seconds"
  | replaceLinks => "replace_existing_links"
  | debugMode => "debug_mode"
  | logDir => "log_dir"

/-- What a setting holds. -/
def Form : Key → Type
  | maxSteps => Int
  | maxSeconds => Option Double
  | replaceLinks | debugMode => Bool
  | logDir => Option String

/-- The rule of a setting: the form that a value takes, or what is wrong with it. -/
def rule : (k : Key) → Value → Checked k.Form
  | maxSteps => positiveInteger
  | maxSeconds => nullable positiveFloat
  | replaceLinks | debugMode => boolean
  | logDir => nullable string

/-- The value that a setting is shown and saved as. -/
def value : (k : Key) → k.Form → Value
  | maxSteps, i => .int i
  | maxSeconds, some x => .float x
  | maxSeconds, none => .none
  | replaceLinks, b | debugMode, b => .bool b
  | logDir, some t => .str t
  | logDir, none => .none

def get : (k : Key) → Settings → k.Form
  | maxSteps, s => s.runtime.maxSteps
  | maxSeconds, s => s.runtime.maxSeconds
  | replaceLinks, s => s.runtime.replaceLinks
  | debugMode, s => s.logging.debugMode
  | logDir, s => s.logging.logDir

def set : (k : Key) → k.Form → Settings → Settings
  | maxSteps, i, s => { s with runtime := { s.runtime with maxSteps := i } }
  | maxSeconds, x, s => { s with runtime := { s.runtime with maxSeconds := x } }
  | replaceLinks, b, s => { s with runtime := { s.runtime with replaceLinks := b } }
  | debugMode, b, s => { s with logging := { s.logging with debugMode := b } }
  | logDir, t, s => { s with logging := { s.logging with logDir := t } }

@[simp] theorem get_set (k : Key) (form : k.Form) (s : Settings) : k.get (k.set form s) = form := by
  cases k <;> rfl

/-- A change of one setting leaves the others. -/
theorem get_set_of_ne {j k : Key} (h : j ≠ k) (form : k.Form) (s : Settings) : j.get (k.set form s) = j.get s := by
  cases j <;> cases k <;> first | rfl | exact absurd rfl h

/-- Settings with the same values are the same. -/
theorem ext {s t : Settings} (h : ∀ k : Key, k.get s = k.get t) : s = t := by
  obtain ⟨⟨steps, seconds, replace⟩, ⟨debug, dir⟩⟩ := s
  obtain ⟨⟨steps', seconds', replace'⟩, ⟨debug', dir'⟩⟩ := t
  obtain rfl : steps = steps' := h maxSteps
  obtain rfl : seconds = seconds' := h maxSeconds
  obtain rfl : replace = replace' := h replaceLinks
  obtain rfl : debug = debug' := h debugMode
  obtain rfl : dir = dir' := h logDir
  rfl

theorem positiveInteger_eq_ok {v : Value} {i : Int} (h : positiveInteger v = .ok i) : 0 < i := by
  obtain ⟨j, -, h⟩ := bind_eq_ok.1 h
  split at h
  · rename_i hpos
    cases h
    exact hpos
  · cases h

theorem positiveFloat_eq_ok {v : Value} {x : Double} (h : positiveFloat v = .ok x) : (x.compareInt 0 == some .gt) = true := by
  obtain ⟨y, -, h⟩ := bind_eq_ok.1 h
  split at h
  · rename_i hpos
    cases h
    exact hpos
  · cases h

theorem nullable_eq_ok {α : Type} {check : Value → Checked α} {v : Value} {a : α} (h : nullable check v = .ok (some a)) :
    check v = .ok a := by
  unfold nullable at h
  split at h
  · cases h
  · obtain ⟨b, hb, hab⟩ := map_eq_ok.1 h
    cases hab
    exact hb

theorem name_injective : Function.Injective name := by
  intro j k h
  cases j <;> cases k <;> first | rfl | exact absurd h (by decide)

/-- A form that a rule gives is left as it is by the rule. -/
theorem rule_value {k : Key} {v : Value} {form : k.Form} (h : k.rule v = .ok form) : k.rule (k.value form) = .ok form := by
  cases k with
  | maxSteps => exact if_pos (positiveInteger_eq_ok h)
  | maxSeconds =>
    cases form with
    | none => rfl
    | some x =>
      have hpos := positiveFloat_eq_ok (nullable_eq_ok h)
      show (positiveFloat (.float x)).map some = _
      rw [show positiveFloat (.float x) = .ok x from if_pos hpos]
      rfl
  | replaceLinks | debugMode => rfl
  | logDir =>
    cases form <;> rfl

end Key

/-- Settings that their rules leave as they are. -/
def Valid (s : Settings) : Prop := ∀ k : Key, k.rule (k.value (k.get s)) = .ok (k.get s)

theorem valid_usual : Valid {} := by
  intro k
  cases k <;> rfl

/-- A change to what the rule of a setting gives keeps the settings valid. -/
theorem Valid.set {s : Settings} (h : s.Valid) {k : Key} {v : Value} {form : k.Form} (hform : k.rule v = .ok form) :
    (k.set form s).Valid := by
  intro j
  by_cases hj : j = k
  · subst hj
    rw [Key.get_set]
    exact Key.rule_value hform
  · rw [Key.get_set_of_ne hj]
    exact h j

/-- Sections as they are entered, checked by the rules of their settings. -/
theorem check_runtime (a b c : Value) :
    RuntimeSettings.check [("max_steps", a), ("max_seconds", b), ("replace_existing_links", c)] =
      seq (seq ((under (.field "max_steps") (Key.maxSteps.rule a)).map RuntimeSettings.mk)
        (under (.field "max_seconds") (Key.maxSeconds.rule b)))
        (under (.field "replace_existing_links") (Key.replaceLinks.rule c)) := rfl

theorem check_logging (a b : Value) : LoggingSettings.check [("debug_mode", a), ("log_dir", b)] =
    seq ((under (.field "debug_mode") (Key.debugMode.rule a)).map LoggingSettings.mk)
      (under (.field "log_dir") (Key.logDir.rule b)) := rfl

theorem fields_runtime (s : Settings) : s.runtime.fields = [("max_steps", Key.maxSteps.value (Key.maxSteps.get s)),
    ("max_seconds", Key.maxSeconds.value (Key.maxSeconds.get s)),
    ("replace_existing_links", Key.replaceLinks.value (Key.replaceLinks.get s))] := by
  obtain ⟨⟨steps, seconds, replace⟩, logging⟩ := s
  cases seconds <;> rfl

theorem fields_logging (s : Settings) : s.logging.fields = [("debug_mode", Key.debugMode.value (Key.debugMode.get s)),
    ("log_dir", Key.logDir.value (Key.logDir.get s))] := by
  obtain ⟨runtime, ⟨debug, dir⟩⟩ := s
  cases dir <;> rfl

def fields (s : Settings) (k : Key) : List (String × Value) := (s.section? k.sectionName).getD []

/-- A section with another value for one of its settings passes its check just if the value passes the rule of the setting. -/
theorem withSection_eq {s : Settings} (h : s.Valid) (k : Key) (v : Value) :
    s.withSection k.sectionName ((s.fields k).map fun f => if f.1 = k.name then (k.name, v) else f) =
      (under (.field k.name) (k.rule v)).map (k.set · s) := by
  have hsteps := h .maxSteps
  have hseconds := h .maxSeconds
  have hreplace := h .replaceLinks
  have hdebug := h .debugMode
  have hdir := h .logDir
  cases k
  all_goals
    simp only [fields, section?, withSection, Key.sectionName, Key.name, Option.getD_some, fields_runtime, fields_logging,
      List.map_cons, List.map_nil, reduceIte, String.reduceEq, check_runtime, check_logging, hsteps, hseconds, hreplace,
      hdebug, hdir]
  case maxSteps => cases Key.maxSteps.rule v <;> rfl
  case maxSeconds => cases Key.maxSeconds.rule v <;> rfl
  case replaceLinks => cases Key.replaceLinks.rule v <;> rfl
  case debugMode => cases Key.debugMode.rule v <;> rfl
  case logDir => cases Key.logDir.rule v <;> rfl

/-- Settings that were saved are read as they are. -/
theorem check_toValue {s : Settings} (h : s.Valid) : check s.toValue = .ok s := by
  have hsteps := h .maxSteps
  have hseconds := h .maxSeconds
  have hreplace := h .replaceLinks
  have hdebug := h .debugMode
  have hdir := h .logDir
  have hruntime : RuntimeSettings.check s.runtime.fields = .ok s.runtime := by
    rw [fields_runtime, check_runtime, hsteps, hseconds, hreplace]
    rfl
  have hlogging : LoggingSettings.check s.logging.fields = .ok s.logging := by
    rw [fields_logging, check_logging, hdebug, hdir]
    rfl
  show seq ((under (.field "runtime") (RuntimeSettings.check s.runtime.fields)).map Settings.mk)
    (under (.field "logging") (LoggingSettings.check s.logging.fields)) = .ok s
  rw [hruntime, hlogging]
  rfl

/-- What an optional setting holds is the usual form, or a form that its rule gives. -/
theorem rule_optional {k : Key} {m : List (String × Value)} {usual form : k.Form}
    (husual : k.rule (k.value usual) = .ok usual) (h : optional m k.name usual k.rule = .ok form) :
    k.rule (k.value form) = .ok form := by
  rcases optional_eq_ok h with rfl | ⟨v, hv⟩
  · exact husual
  · exact Key.rule_value hv

theorem runtime_of_check {m : List (String × Value)} {r : RuntimeSettings} (h : RuntimeSettings.check m = .ok r) :
    Key.maxSteps.rule (Key.maxSteps.value r.maxSteps) = .ok r.maxSteps ∧
      Key.maxSeconds.rule (Key.maxSeconds.value r.maxSeconds) = .ok r.maxSeconds := by
  obtain ⟨mk, replace, rfl, hmk, -⟩ := seq_eq_ok h
  obtain ⟨mk, seconds, rfl, hmk, hseconds⟩ := seq_eq_ok hmk
  obtain ⟨steps, hsteps, rfl⟩ := map_eq_ok.1 hmk
  exact ⟨rule_optional (valid_usual .maxSteps) hsteps, rule_optional (valid_usual .maxSeconds) hseconds⟩

theorem logging_of_check {m : List (String × Value)} {l : LoggingSettings} (h : LoggingSettings.check m = .ok l) :
    Key.logDir.rule (Key.logDir.value l.logDir) = .ok l.logDir := by
  obtain ⟨mk, dir, rfl, hmk, hdir⟩ := seq_eq_ok h
  obtain ⟨debug, -, rfl⟩ := map_eq_ok.1 hmk
  exact rule_optional (valid_usual .logDir) hdir

/-- Settings that are read are valid. -/
theorem valid_of_check {v : Value} {s : Settings} (h : check v = .ok s) : s.Valid := by
  obtain ⟨m, h⟩ := record_eq_ok h
  obtain ⟨mk, logging, rfl, hmk, hlogging⟩ := seq_eq_ok h
  obtain ⟨runtime, hruntime, rfl⟩ := map_eq_ok.1 hmk
  have hr : Key.maxSteps.rule (Key.maxSteps.value runtime.maxSteps) = .ok runtime.maxSteps ∧
      Key.maxSeconds.rule (Key.maxSeconds.value runtime.maxSeconds) = .ok runtime.maxSeconds := by
    rcases optional_eq_ok hruntime with rfl | ⟨v, hv⟩
    · exact ⟨valid_usual .maxSteps, valid_usual .maxSeconds⟩
    · obtain ⟨m, hm⟩ := record_eq_ok hv
      exact runtime_of_check hm
  have hl : Key.logDir.rule (Key.logDir.value logging.logDir) = .ok logging.logDir := by
    rcases optional_eq_ok hlogging with rfl | ⟨v, hv⟩
    · exact valid_usual .logDir
    · obtain ⟨m, hm⟩ := record_eq_ok hv
      exact logging_of_check hm
  intro k
  cases k with
  | maxSteps => exact hr.1
  | maxSeconds => exact hr.2
  | replaceLinks | debugMode => rfl
  | logDir => exact hl

theorem value?_eq (k : Key) (s : Settings) : s.value? k.sectionName k.name = some (k.value (k.get s)) := by
  obtain ⟨⟨steps, seconds, replace⟩, ⟨debug, dir⟩⟩ := s
  cases k with
  | maxSeconds => cases seconds <;> rfl
  | logDir => cases dir <;> rfl
  | _ => rfl

/-- What is no key has no value. -/
theorem value?_eq_none {sectionName name : String} (h : ∀ k : Key, ¬(k.sectionName = sectionName ∧ k.name = name))
    (s : Settings) : s.value? sectionName name = none := by
  have hne (k : Key) (hk : k.sectionName = sectionName) : (name == k.name) = false :=
    beq_false_of_ne fun he => h k ⟨hk, he.symm⟩
  unfold value? section?
  split
  · rw [fields_runtime]
    simp only [Option.bind_some, List.lookup_cons, List.lookup_nil,
      show (name == "max_steps") = false from hne .maxSteps rfl, show (name == "max_seconds") = false from hne .maxSeconds rfl,
      show (name == "replace_existing_links") = false from hne .replaceLinks rfl]
  · rw [fields_logging]
    simp only [Option.bind_some, List.lookup_cons, List.lookup_nil,
      show (name == "debug_mode") = false from hne .debugMode rfl, show (name == "log_dir") = false from hne .logDir rfl]
  · rfl

/-- After a change of one setting, its value is the new form and all other values are what they were. -/
theorem value?_set (k : Key) (form : k.Form) (s : Settings) (sectionName name : String) :
    (k.set form s).value? sectionName name =
      if sectionName = k.sectionName ∧ name = k.name then some (k.value form) else s.value? sectionName name := by
  by_cases hj : ∃ j : Key, j.sectionName = sectionName ∧ j.name = name
  · obtain ⟨j, rfl, rfl⟩ := hj
    rw [value?_eq]
    by_cases hjk : j = k
    · subst hjk
      rw [if_pos ⟨rfl, rfl⟩, Key.get_set]
    · have hname : ¬(j.sectionName = k.sectionName ∧ j.name = k.name) := by
        intro h
        exact hjk (Key.name_injective h.2)
      rw [if_neg hname, value?_eq, Key.get_set_of_ne hjk]
  · have hnone (k : Key) : ¬(k.sectionName = sectionName ∧ k.name = name) := fun hk => hj ⟨k, hk⟩
    rw [value?_eq_none hnone, value?_eq_none hnone, if_neg]
    exact fun h => hnone k ⟨h.1.symm, h.2.symm⟩

/-- A value is accepted just if it passes the rule of the setting. -/
theorem update_eq {s : Settings} (h : s.Valid) (k : Key) (v : Value) : s.update k.sectionName k.name v =
    match k.rule v with
    | .ok form => .ok (k.set form s)
    | .error ps => v.literal >>= fun text =>
      .error (.settingValue k.sectionName k.name text (ps.map (Problem.under (.field k.name)))) := by
  have hsection : s.section? k.sectionName = some (s.fields k) := by
    cases k <;> rfl
  have hlookup : (s.fields k).lookup k.name = some (k.value (k.get s)) := by
    rw [← value?_eq, value?, hsection, Option.bind_some]
  have hwith := withSection_eq h k v
  unfold update
  rw [hsection]
  dsimp only
  rw [if_neg (by simp [hlookup]), hwith]
  cases k.rule v <;> rfl

theorem update_eq_error {sectionName key : String} (hsection : sectionName ∈ sectionNames)
    (h : ∀ k : Key, ¬(k.sectionName = sectionName ∧ k.name = key)) (s : Settings) (v : Value) :
    s.update sectionName key v = .error (.badSetting key sectionName) := by
  have hnone := value?_eq_none h s
  obtain ⟨fields, hfields⟩ : ∃ fields, s.section? sectionName = some fields := by
    rcases List.mem_cons.1 hsection with rfl | hsection
    · exact ⟨_, rfl⟩
    · obtain rfl := List.mem_singleton.1 hsection
      exact ⟨_, rfl⟩
  rw [value?, hfields, Option.bind_some] at hnone
  rw [update, hfields]
  exact if_pos (by simp [hnone])

/-- A change is accepted if the rule of the setting accepts the value, and then the setting takes the form that the rule gives.
Otherwise the value is refused. -/
theorem update_spec {s : Settings} (h : s.Valid) {sectionName key : String} (hsection : sectionName ∈ sectionNames)
    (v : Value) :
    (∃ (k : Key) (form : k.Form), k.sectionName = sectionName ∧ k.name = key ∧ k.rule v = .ok form ∧
      s.update sectionName key v = .ok (k.set form s)) ∨
    (∀ k : Key, k.sectionName = sectionName → k.name = key → ∃ ps, k.rule v = .error ps) ∧
      ∃ f, s.update sectionName key v = .error f ∧ f.family = .value := by
  by_cases hk : ∃ k : Key, k.sectionName = sectionName ∧ k.name = key
  · obtain ⟨k, rfl, rfl⟩ := hk
    have hupdate := update_eq h k v
    cases hrule : k.rule v with
    | ok form =>
      rw [hrule] at hupdate
      exact .inl ⟨k, form, rfl, rfl, hrule, hupdate⟩
    | error ps =>
      rw [hrule] at hupdate
      refine .inr ⟨fun j _ hj => ?_, ?_⟩
      · rw [Key.name_injective hj]
        exact ⟨ps, hrule⟩
      · cases htext : v.literal with
        | ok text =>
          rw [htext] at hupdate
          exact ⟨_, hupdate, rfl⟩
        | error f =>
          rw [htext] at hupdate
          refine ⟨f, hupdate, ?_⟩
          rw [v.literal_eq_error htext]
          rfl
  · have hnone (k : Key) : ¬(k.sectionName = sectionName ∧ k.name = key) := fun h => hk ⟨k, h⟩
    exact .inr ⟨fun k hs hn => absurd ⟨hs, hn⟩ (hnone k), _, update_eq_error hsection hnone s v, rfl⟩

/-- A change that is accepted leaves the settings valid. -/
theorem Valid.update {s t : Settings} (h : s.Valid) {sectionName key : String} {v : Value}
    (hupdate : s.update sectionName key v = .ok t) : t.Valid := by
  by_cases hsection : sectionName ∈ sectionNames
  · rcases @update_spec s h sectionName key hsection v with ⟨k, form, -, -, hrule, hok⟩ | ⟨-, f, herror, -⟩
    · rw [hok] at hupdate
      cases hupdate
      exact h.set hrule
    · rw [herror] at hupdate
      cases hupdate
  · have hnone : s.section? sectionName = none := by
      unfold section?
      split
      · exact absurd (by decide) hsection
      · exact absurd (by decide) hsection
      · rfl
    rw [Settings.update, hnone] at hupdate
    dsimp only at hupdate
    split at hupdate <;> cases hupdate

end FlowGraph.Settings
