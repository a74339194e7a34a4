import FlowGraph.Proofs.Filing
import FlowGraph.Proofs.Rules
import FlowGraph.Settings.Keeper

/-!
Settings in a file, over any history of changes. A change is refused and leaves everything as it was, or it changes one setting to
the form that the rule of the setting gives, is saved and told once, and the file gives the settings back. What is accepted has to
be written for that. Only an integer with too many digits has no text, and what becomes of it is shown at the end.
-/
namespace FlowGraph

namespace Json

variable {style : Style} {depth : Nat}

theorem write_dict (fields : List (String × Value)) : write style depth (.dict fields) =
    (writeFields style (depth + 1) fields).map (style.enclose depth "\x7b" "\x7d") := rfl

theorem writeFields_cons (f : String × Value) (fields : List (String × Value)) :
    writeFields style depth (f :: fields) = (do
      let t ← write style depth f.2
      return (text f.1 ++ ": " ++ t) :: (← writeFields style depth fields)) := rfl

theorem exists_writeFields {fields : List (String × Value)} (h : ∀ f ∈ fields, ∃ t, write style depth f.2 = .ok t) :
    ∃ ts, writeFields style depth fields = .ok ts := by
  induction fields with
  | nil => exact ⟨[], rfl⟩
  | cons f fields ih =>
    obtain ⟨⟨t, ht⟩, hrest⟩ := List.forall_mem_cons.1 h
    obtain ⟨ts, hts⟩ := ih hrest
    rw [writeFields_cons, ht, hts]
    exact ⟨_, rfl⟩

theorem exists_write_dict {fields : List (String × Value)} (h : ∀ f ∈ fields, ∃ t, write style (depth + 1) f.2 = .ok t) :
    ∃ t, write style depth (.dict fields) = .ok t := by
  obtain ⟨ts, hts⟩ := exists_writeFields h
  rw [write_dict, hts]
  exact ⟨_, rfl⟩

/-- A table fails with its first member. -/
theorem write_dict_eq_error {key : String} {v : Value} {rest : List (String × Value)} {f : Fault}
    (h : write style (depth + 1) v = .error f) : write style depth (.dict ((key, v) :: rest)) = .error f := by
  rw [write_dict, writeFields_cons, h]
  rfl

end Json

namespace Settings

/-- Whether the settings can be written: only the number of steps can be too long. -/
def Fits (s : Settings) : Prop := s.runtime.maxSteps.natAbs < Decimal.integerBound

/-- The value of a setting other than the number of steps can be written, and that one if it is not too long. -/
theorem exists_write_value {k : Key} {form : k.Form} (h : k = .maxSteps → False) (depth : Nat) :
    ∃ t, Json.write Keeper.layout depth (k.value form) = .ok t := by
  cases k with
  | maxSteps => exact (h rfl).elim
  | maxSeconds => cases form <;> exact ⟨_, rfl⟩
  | replaceLinks | debugMode => exact ⟨_, rfl⟩
  | logDir => cases form <;> exact ⟨_, rfl⟩

theorem exists_write_steps {s : Settings} (h : s.Fits) (depth : Nat) :
    ∃ t, Json.write Keeper.layout depth (Key.maxSteps.value (Key.maxSteps.get s)) = .ok t := by
  have hdigits : Decimal.writeInteger? s.runtime.maxSteps = some (toString s.runtime.maxSteps) := if_neg (Nat.not_le.2 h)
  show ∃ t, Json.write Keeper.layout depth (.int s.runtime.maxSteps) = .ok t
  unfold Json.write
  rw [hdigits]
  exact ⟨_, rfl⟩

/-- Settings with a number of steps that is not too long have a text. -/
theorem exists_render {s : Settings} (h : s.Fits) : ∃ text, Json.render Keeper.layout s.toValue = .ok text := by
  apply Json.exists_write_dict
  rintro f hf
  rcases List.mem_cons.1 hf with rfl | hf
  · apply Json.exists_write_dict
    rw [fields_runtime]
    simp only [List.forall_mem_cons, List.not_mem_nil, false_implies, implies_true, and_true]
    exact ⟨exists_write_steps h _, exists_write_value (by decide) _, exists_write_value (by decide) _⟩
  · obtain rfl := List.mem_singleton.1 hf
    apply Json.exists_write_dict
    rw [fields_logging]
    simp only [List.forall_mem_cons, List.not_mem_nil, false_implies, implies_true, and_true]
    exact ⟨exists_write_value (by decide) _, exists_write_value (by decide) _⟩

theorem render_eq_error {s : Settings} (h : ¬s.Fits) : Json.render Keeper.layout s.toValue = .error .digitsWritten := by
  have hdigits : Decimal.writeInteger? s.runtime.maxSteps = none := if_pos (Nat.not_lt.1 h)
  apply Json.write_dict_eq_error
  apply Json.write_dict_eq_error
  unfold Json.write
  rw [hdigits]

/-- The settings have a text, which can be written. -/
def HasText (s : Settings) : Prop := ∃ text, Json.render Keeper.layout s.toValue = .ok text

theorem hasText_iff {s : Settings} : s.HasText ↔ s.Fits := by
  refine ⟨?_, exists_render⟩
  rintro ⟨text, htext⟩
  by_contra hlong
  rw [render_eq_error hlong] at htext
  cases htext

end Settings

namespace Keeper

/-- A path of a document file that can be written. -/
structure Savable (files : Files) (path : String) : Prop where
  document : path.endsWith tomlEnding = false
  whole : path.toList.contains (Char.ofNat 0) = false
  writable : files.canWrite path = true

/-- Saving writes the text of the settings. Settings with too many digits are written up to their first number. -/
theorem save_eq {k : Keeper} {files : Files} (h : Savable files k.path) :
    (∃ text, Json.render layout k.settings.toValue = .ok text ∧
      k.save files = (files.write k.path text, .ok ())) ∨
    (¬k.settings.HasText ∧ k.save files = (files.write k.path opening, .error .digitsWritten)) := by
  have hpath : savePath k.path = k.path := by
    rw [savePath, h.document]
    rfl
  unfold save
  dsimp only
  rw [hpath, h.whole, h.writable]
  by_cases hfits : k.settings.Fits
  · obtain ⟨text, htext⟩ := Settings.exists_render hfits
    refine .inl ⟨text, htext, ?_⟩
    rw [htext]
    rfl
  · refine .inr ⟨mt Settings.hasText_iff.1 hfits, ?_⟩
    rw [Settings.render_eq_error hfits]
    rfl

/-- A file that was written stays one that can be written. -/
theorem Savable.write {files : Files} {path : String} (h : Savable files path) (text : String) :
    Savable (files.write path text) path :=
  ⟨h.document, h.whole, (Files.write_spec h.writable text).2⟩

/-- The text of the settings is read as the settings. -/
def Restores (s : Settings) : Prop :=
  ∀ text, Json.render layout s.toValue = .ok text → Json.read text = .ok (some s.toValue)

/-- Settings that were written are loaded again. -/
theorem load_write {files : Files} {path text : String} {s : Settings} (h : Savable files path) (hvalid : s.Valid)
    (htext : Json.render layout s.toValue = .ok text) (hread : Restores s) :
    load (files.write path text) path = .ok { path := path, settings := s } := by
  have hparse : parse path text = .ok (some s) := by
    rw [parse, h.document]
    show (Json.read text >>= fun v => .ok (v.bind fun v => (Settings.check v).toOption)) = .ok (some s)
    rw [hread text htext]
    show Except.ok ((Settings.check s.toValue).toOption) = .ok (some s)
    rw [Settings.check_toValue hvalid]
    rfl
  rw [load, (Files.write_spec h.writable text).1]
  dsimp only
  rw [hparse]
  rfl

/-- What is read from a file is valid. -/
theorem valid_of_parse {path text : String} {s : Settings} (h : parse path text = .ok (some s)) : s.Valid := by
  obtain ⟨v, h⟩ : ∃ v : Option Value, v.bind (fun v => (Settings.check v).toOption) = some s := by
    unfold parse at h
    split at h
    all_goals
      obtain ⟨v, -, h⟩ := bind_eq_ok.1 h
      exact ⟨v, Except.ok.inj h⟩
  obtain ⟨v, -, hv⟩ := Option.bind_eq_some_iff.1 h
  cases hcheck : Settings.check v with
  | ok t =>
    rw [hcheck] at hv
    cases hv
    exact Settings.valid_of_check hcheck
  | error ps =>
    rw [hcheck] at hv
    cases hv

/-- What is loaded is valid. -/
theorem valid_of_load {files : Files} {path : String} {k : Keeper} (h : load files path = .ok k) :
    k.path = path ∧ k.settings.Valid := by
  unfold load at h
  split at h
  · obtain ⟨found, hfound, h⟩ := bind_eq_ok.1 h
    cases h
    cases found with
    | none => exact ⟨rfl, Settings.valid_usual⟩
    | some s => exact ⟨rfl, valid_of_parse hfound⟩
  · cases h
    exact ⟨rfl, Settings.valid_usual⟩

/-- A change that is asked for. -/
structure Update where
  sectionName : String
  key : String
  value : Value

def Update.run (u : Update) : Updating Change := Desk.update u.sectionName u.key u.value

namespace Desk

/-- The desk after changes that were asked for one after the other, whatever came of them. -/
def after (d : Desk) (us : List Update) : Desk := us.foldl (fun d u => (runOn u.run d).2) d

/-- The settings at the desk are valid, and can be saved at the path. -/
structure Sound (p : String) (d : Desk) : Prop where
  path : d.keeper.path = p
  valid : d.keeper.settings.Valid
  savable : Savable d.files p

theorem runOn_bind {α β : Type} (x : Updating α) (f : α → Updating β) (d : Desk) :
    runOn (x >>= f) d = match runOn x d with
      | (.ok a, d) => runOn (f a) d
      | (.error e, d) => (.error e, d) := by
  show (ExceptT.bindCont f (runOn x d).1).run (runOn x d).2 = _
  generalize runOn x d = p
  obtain ⟨_ | _, _⟩ := p <;> rfl

/-- The rule of the setting is asked first. -/
theorem runOn_update (u : Update) (d : Desk) :
    runOn u.run d = match d.keeper.settings.update u.sectionName u.key u.value with
      | .ok s => runOn (settle s u.sectionName u.key) d
      | .error f => (.error f, d) := by
  show runOn (ExceptT.mk (pure (d.keeper.settings.update u.sectionName u.key u.value)) >>=
    fun s => settle s u.sectionName u.key) d = _
  rw [runOn_bind]
  cases d.keeper.settings.update u.sectionName u.key u.value <;> rfl

theorem runOn_modify (f : Desk → Desk) (d : Desk) : runOn (modify f) d = (.ok (), f d) := rfl

theorem runOn_save (d : Desk) :
    runOn save d = ((d.keeper.save d.files).2, { d with files := (d.keeper.save d.files).1 }) := rfl

/-- What happens to settings that were accepted: they are saved and told, or they have no text and are not saved. -/
theorem runOn_settle {d : Desk} (h : Savable d.files d.keeper.path) (s : Settings) (sectionName key : String) :
    (∃ text, Json.render layout s.toValue = .ok text ∧ runOn (settle s sectionName key) d =
      (.ok ⟨sectionName, key, (s.value? sectionName key).getD .none⟩,
        { keeper := { d.keeper with settings := s }, files := d.files.write d.keeper.path text
          told := d.told ++ [⟨sectionName, key, (s.value? sectionName key).getD .none⟩] })) ∨
    (¬s.HasText ∧ runOn (settle s sectionName key) d = (.error .digitsWritten,
      { keeper := { d.keeper with settings := s }, files := d.files.write d.keeper.path opening, told := d.told })) := by
  rw [settle, runOn_bind, runOn_modify]
  dsimp only
  rw [runOn_bind, runOn_save]
  rcases save_eq (k := { d.keeper with settings := s }) h with ⟨text, htext, hsave⟩ | ⟨hlong, hsave⟩
  · refine .inl ⟨text, htext, ?_⟩
    rw [hsave]
    rfl
  · refine .inr ⟨hlong, ?_⟩
    rw [hsave]

theorem Sound.settle {p : String} {d : Desk} (h : Sound p d) {s : Settings} (hs : s.Valid) (sectionName key : String) :
    Sound p (runOn (Desk.settle s sectionName key) d).2 := by
  obtain ⟨rfl, -, hsavable⟩ := h
  rcases runOn_settle hsavable s sectionName key with ⟨text, -, hrun⟩ | ⟨-, hrun⟩
  · rw [hrun]
    exact ⟨rfl, hs, hsavable.write text⟩
  · rw [hrun]
    exact ⟨rfl, hs, hsavable.write opening⟩

/-- Whatever comes of a change, the settings stay valid. -/
theorem Sound.run {p : String} {d : Desk} (h : Sound p d) (u : Update) : Sound p (runOn u.run d).2 := by
  rw [runOn_update]
  cases hupdate : d.keeper.settings.update u.sectionName u.key u.value with
  | error f => exact h
  | ok s => exact h.settle (h.valid.update hupdate) u.sectionName u.key

theorem Sound.after {p : String} {d : Desk} (h : Sound p d) (us : List Update) : Sound p (d.after us) := by
  induction us generalizing d with
  | nil => exact h
  | cons u us ih => exact ih (h.run u)

/-- What comes of a change that is asked for. -/
inductive Answers (d : Desk) (u : Update) : Except Fault Change × Desk → Prop
  /-- No rule accepts the value, which is told as an error in a value; everything stays as it was. -/
  | refused {f : Fault} (named : ∀ k : Settings.Key, k.sectionName = u.sectionName → k.name = u.key →
        ∃ ps, k.rule u.value = .error ps) (family : f.family = .value) : Answers d u (.error f, d)
  /-- The setting takes the form that its rule gives, and no other one changes. The change is told once, and the file gives the
  settings back. -/
  | made {k : Settings.Key} {form : k.Form} {s : Settings} {text : String} (named : k.sectionName = u.sectionName ∧ k.name = u.key)
      (rule : k.rule u.value = .ok form) (changed : ∀ sectionName key, s.value? sectionName key =
        if sectionName = u.sectionName ∧ key = u.key then some (k.value form) else d.keeper.settings.value? sectionName key)
      (written : Json.render layout s.toValue = .ok text)
      (kept : Restores s → load (d.files.write d.keeper.path text) d.keeper.path = .ok { d.keeper with settings := s }) :
      Answers d u (.ok ⟨u.sectionName, u.key, k.value form⟩,
        { keeper := { d.keeper with settings := s }, files := d.files.write d.keeper.path text
          told := d.told ++ [⟨u.sectionName, u.key, k.value form⟩] })

/-- If the change is accepted, the new settings can be written. -/
def Writes (d : Desk) (u : Update) : Prop := ∀ s, d.keeper.settings.update u.sectionName u.key u.value = .ok s → s.HasText

/-- One change, at a desk with valid settings. -/
theorem answers_of_sound {p : String} {d : Desk} (h : Sound p d) {u : Update} (hsection : u.sectionName ∈ Settings.sectionNames)
    (hwrites : d.Writes u) : Answers d u (runOn u.run d) := by
  obtain ⟨rfl, hvalid, hsavable⟩ := h
  rw [runOn_update]
  rcases Settings.update_spec hvalid hsection u.value with ⟨k, form, hs, hk, hrule, hupdate⟩ | ⟨hnone, f, hupdate, hf⟩
  · have hchanged (sectionName key : String) : (k.set form d.keeper.settings).value? sectionName key =
        if sectionName = u.sectionName ∧ key = u.key then some (k.value form)
        else d.keeper.settings.value? sectionName key := by
      rw [Settings.value?_set, hs, hk]
    have hnow : ((k.set form d.keeper.settings).value? u.sectionName u.key).getD .none = k.value form := by
      rw [hchanged, if_pos ⟨rfl, rfl⟩]
      rfl
    rw [hupdate]
    dsimp only
    rcases runOn_settle hsavable (k.set form d.keeper.settings) u.sectionName u.key with ⟨text, htext, hrun⟩ | ⟨hlong, -⟩
    · rw [hrun, hnow]
      exact .made ⟨hs, hk⟩ hrule hchanged htext (load_write hsavable (hvalid.set hrule) htext)
    · exact absurd (hwrites _ hupdate) hlong
  · rw [hupdate]
    exact .refused hnone hf

/-- A desk with what was loaded, before anything was changed. -/
def opened (k : Keeper) (files : Files) : Desk := { keeper := k, files := files }

/-- After any history of changes, the next change is refused and leaves everything as it was, or it changes its setting, is told
once and can be loaded again. -/
theorem answers_of_load {files : Files} {path : String} {k : Keeper} (hload : load files path = .ok k)
    (hfile : Savable files path) (history : List Update) {u : Update} (hsection : u.sectionName ∈ Settings.sectionNames)
    (hwrites : ((opened k files).after history).Writes u) :
    Answers ((opened k files).after history) u (runOn u.run ((opened k files).after history)) := by
  obtain ⟨hpath, hvalid⟩ := valid_of_load hload
  have hsound : Sound path (opened k files) := ⟨hpath, hvalid, hfile⟩
  exact answers_of_sound (hsound.after history) hsection hwrites

/-- Changes of which the first one is accepted, and the others name no setting and break a rule. -/
def mixedHistory : List Update :=
  [⟨"runtime", "replace_existing_links", .str "off"⟩, ⟨"runtime", "max_step", .int 1⟩, ⟨"logging", "log_dir", .int 3⟩]

def stepsUpdate : Update := ⟨"runtime", "max_steps", .str "50"⟩

def mixedDesk : Desk := (opened { path := "settings.json" } {}).after mixedHistory

/-- The settings after the changes are read back from their text. -/
theorem restores_mixed : Restores (runOn stepsUpdate.run mixedDesk).2.keeper.settings := by
  have hread : (Json.render layout (runOn stepsUpdate.run mixedDesk).2.keeper.settings.toValue).toOption.bind
      (fun text => (Json.read text).toOption) =
        some (some (runOn stepsUpdate.run mixedDesk).2.keeper.settings.toValue) := by
    decide +kernel
  intro text htext
  rw [htext] at hread
  cases hv : Json.read text with
  | error f =>
    rw [Except.toOption, Option.bind_some, hv] at hread
    cases hread
  | ok v =>
    rw [Except.toOption, Option.bind_some, hv] at hread
    exact congrArg Except.ok (Option.some.inj hread)

theorem writes_mixed : mixedDesk.Writes stepsUpdate := by
  have hshort : ∀ s ∈ (mixedDesk.keeper.settings.update "runtime" "max_steps" (.str "50")).toOption,
      s.runtime.maxSteps.natAbs = 50 := by
    decide +kernel
  intro s hs
  have hfifty := hshort s (by rw [show mixedDesk.keeper.settings.update "runtime" "max_steps" (.str "50") = .ok s from hs]; rfl)
  rw [Settings.hasText_iff, Settings.Fits, hfifty]
  decide +kernel

/-- After changes of several kinds another number of steps is accepted, saved and read back. -/
theorem answers_of_load_mixed : load {} "settings.json" = .ok { path := "settings.json" } ∧
    Savable {} "settings.json" ∧ stepsUpdate.sectionName ∈ Settings.sectionNames ∧ mixedDesk.Writes stepsUpdate ∧ ∃ d : Desk,
      runOn stepsUpdate.run mixedDesk = (.ok ⟨"runtime", "max_steps", .int 50⟩, d) ∧
      load d.files "settings.json" = .ok d.keeper := by
  have hload : load {} "settings.json" = .ok { path := "settings.json" } := by
    rw [load, show ({} : Files).read? "settings.json" = none by decide +kernel]
    rfl
  have hfile : Savable {} "settings.json" := ⟨by decide +kernel, by decide +kernel, by decide +kernel⟩
  have hsection : stepsUpdate.sectionName ∈ Settings.sectionNames := by decide
  have hanswers : Answers mixedDesk stepsUpdate (runOn stepsUpdate.run mixedDesk) :=
    answers_of_load hload hfile mixedHistory hsection writes_mixed
  have hok : (runOn stepsUpdate.run mixedDesk).1.toBool = true := by decide +kernel
  have hrestores := restores_mixed
  have hpath : mixedDesk.keeper.path = "settings.json" := by decide +kernel
  refine ⟨hload, hfile, hsection, writes_mixed, ?_⟩
  generalize runOn stepsUpdate.run mixedDesk = r at hanswers hok hrestores ⊢
  cases hanswers with
  | refused => cases hok
  | @made k form s text named rule changed written kept =>
    obtain rfl : k = .maxSteps := Settings.Key.name_injective named.2
    have hfifty : (Checked.positiveInteger (.str "50")).toOption = some 50 := by decide +kernel
    rw [show Checked.positiveInteger (.str "50") = .ok form from rule] at hfifty
    cases hfifty
    refine ⟨_, rfl, ?_⟩
    rw [← hpath]
    dsimp only
    exact kept hrestores

/-- A number of steps with too many digits is taken over, and not saved. -/
theorem run_of_long {p : String} {d : Desk} (h : Sound p d) {i : Int} (hpos : 0 < i)
    (hlong : Decimal.integerBound ≤ i.natAbs) : runOn (Update.run ⟨"runtime", "max_steps", .int i⟩) d =
      (.error .digitsWritten, { keeper := { d.keeper with settings := Settings.Key.maxSteps.set i d.keeper.settings }
                                files := d.files.write d.keeper.path opening, told := d.told }) := by
  obtain ⟨rfl, hvalid, hsavable⟩ := h
  have hrule : Settings.Key.maxSteps.rule (.int i) = .ok i := if_pos hpos
  have hupdate := Settings.update_eq hvalid .maxSteps (.int i)
  rw [hrule] at hupdate
  have hover : ¬(Settings.Key.maxSteps.set i d.keeper.settings).Fits := Nat.not_lt.2 hlong
  rw [runOn_update, show d.keeper.settings.update "runtime" "max_steps" (.int i) = _ from hupdate]
  rcases runOn_settle hsavable (Settings.Key.maxSteps.set i d.keeper.settings) "runtime" "max_steps" with
    ⟨text, htext, -⟩ | ⟨-, hrun⟩
  · exact absurd (Settings.hasText_iff.1 ⟨text, htext⟩) hover
  · exact hrun

end Desk

end Keeper

end FlowGraph
