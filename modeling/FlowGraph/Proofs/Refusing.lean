import FlowGraph.Proofs.DocumentForm
import FlowGraph.Proofs.Faithful
import FlowGraph.Proofs.Filling

/-!
How documents are refused. Main statement: over the default profiles whatever is given for a document becomes a graph or is
refused as not fitting together, if the integers in its literals can be taken for floats and its settings are of the
kinds that definitions read. An integer that is too large for a float gets through the reader as a failure of another kind.
-/
namespace FlowGraph

/-- Whatever goes wrong, it is told as something that does not fit together. -/
def Refusing {α : Type} (x : Except Failure α) : Prop := ∀ e, x = .error e → ∃ reason, e = .integrity reason

namespace Refusing

variable {α β : Type}

theorem of_ok (a : α) : Refusing (.ok a) := fun _ h => nomatch h

theorem of_integrity (reason : IntegrityError) : Refusing (.error (.integrity reason) : Except Failure α) := by
  rintro e ⟨⟩
  exact ⟨reason, rfl⟩

theorem bind {x : Except Failure α} {f : α → Except Failure β} (hx : Refusing x) (hf : ∀ a, x = .ok a → Refusing (f a)) :
    Refusing (x >>= f) := by
  intro e h
  rcases bind_eq_error.1 h with h | ⟨a, ha, h⟩
  · exact hx e h
  · exact hf a ha e h

theorem mapM {f : α → Except Failure β} {xs : List α} (h : ∀ x ∈ xs, Refusing (f x)) : Refusing (xs.mapM f) := by
  induction xs with
  | nil => exact of_ok []
  | cons x xs ih =>
    rw [List.mapM_cons]
    exact (h x List.mem_cons_self).bind fun y _ => (ih fun x hx => h x (List.mem_cons_of_mem _ hx)).bind fun ys _ => of_ok _

/-- One step after the other, as long as each keeps what the next one relies on. -/
theorem foldlM {P : β → Prop} {f : β → α → Except Failure β} {xs : List α}
    (hf : ∀ b, ∀ x ∈ xs, P b → Refusing (f b x) ∧ ∀ c, f b x = .ok c → P c) {b : β} (hb : P b) : Refusing (xs.foldlM f b) := by
  induction xs generalizing b with
  | nil => exact of_ok b
  | cons x xs ih =>
    obtain ⟨hfirst, hkeeps⟩ := hf b x List.mem_cons_self hb
    exact hfirst.bind fun c hc => ih (fun b x hx => hf b x (List.mem_cons_of_mem _ hx)) (hkeeps c hc)

end Refusing

theorem twoPow_le_tenPow {m n : Nat} (h : m ≤ n) : twoPow m ≤ tenPow n :=
  (Nat.pow_le_pow_left (by decide) m).trans (Nat.pow_le_pow_right (by decide) h)

namespace Double

/-- An integer far beyond the largest float is not taken for one. -/
theorem ofInt?_eq_none {i : Int} {k : Nat} (hk : 3000 ≤ k) (h : twoPow k ≤ i.natAbs) : ofInt? i = none := by
  have hne : i.natAbs ≠ 0 := by
    have hpos := twoPow_pos k
    omega
  have hlog : k ≤ Nat.log2 i.natAbs := (Nat.le_log2 hne).2 h
  have hinfinite (negative : Bool) : (ofWord negative infinityWord).isInfinite = true := by
    cases negative <;> decide
  have hword {e : Int} (he : 2947 ≤ e) (n : Nat) : min ((e + 1074).toNat * fractions + n) infinityWord = infinityWord := by
    apply Nat.min_eq_right
    have hscale : 2047 ≤ (e + 1074).toNat := by omega
    exact (Nat.mul_le_mul_right fractions hscale).trans (Nat.le_add_right _ n)
  have hone : Nat.log2 1 = 0 := by decide
  have hratio : ofRatio (decide (i < 0)) i.natAbs 1 = ofWord (decide (i < 0)) infinityWord := by
    unfold ofRatio
    rw [if_neg hne, hone]
    simp only
    split
    · rw [hword (by omega)]
    · rw [hword (by omega)]
  simp only [ofInt?, hratio, hinfinite, if_true]

/-- What can be taken for a float can be written. -/
theorem exists_writeInteger {i : Int} (h : (ofInt? i).isSome = true) : ∃ s, Decimal.writeInteger? i = some s := by
  unfold Decimal.writeInteger?
  split
  · rename_i hlarge
    have hlimit : 3000 ≤ Decimal.digitLimit := by decide
    rw [ofInt?_eq_none hlimit ((twoPow_le_tenPow le_rfl).trans hlarge)] at h
    cases h
  · exact ⟨_, rfl⟩

end Double

namespace Value

mutual
/-- Every integer in the value can be taken for a float. -/
def fits : Value → Bool
  | .int i => (Double.ofInt? i).isSome
  | .list xs => fitsItems xs
  | .dict fields => fitsFields fields
  | .vec2 x y => fits x && fits y
  | .vec3 x y z => fits x && fits y && fits z
  | _ => true
def fitsItems : List Value → Bool
  | [] => true
  | v :: vs => fits v && fitsItems vs
def fitsFields : List (String × Value) → Bool
  | [] => true
  | (_, v) :: rest => fits v && fitsFields rest
end

theorem fitsItems_iff {xs : List Value} : fitsItems xs = true ↔ ∀ v ∈ xs, v.fits = true := by
  induction xs with
  | nil => simp [fitsItems]
  | cons x xs ih => simp [fitsItems, ih]

theorem literal_int {i : Int} {text : String} (h : Decimal.writeInteger? i = some text) : (int i).literal = .ok text := by
  rw [literal.eq_def]
  simp only [h]

mutual
/-- Then the value can be shown. -/
theorem exists_literal {v : Value} (h : v.fits = true) : ∃ text, v.literal = .ok text := by
  cases v with
  | int i =>
    obtain ⟨text, htext⟩ := Double.exists_writeInteger h
    exact ⟨text, literal_int htext⟩
  | list xs =>
    have hxs : fitsItems xs = true := h
    obtain ⟨ts, hts⟩ := exists_literals hxs
    rw [literal.eq_def]
    simp only [hts]
    exact ⟨_, rfl⟩
  | dict fields =>
    have hfields : fitsFields fields = true := h
    obtain ⟨ts, hts⟩ := exists_fieldLiterals hfields
    rw [literal.eq_def]
    simp only [hts]
    exact ⟨_, rfl⟩
  | vec2 x y =>
    obtain ⟨hx, hy⟩ := Bool.and_eq_true_iff.1 h
    obtain ⟨s, hs⟩ := exists_literal hx
    obtain ⟨t, ht⟩ := exists_literal hy
    rw [literal.eq_def]
    simp only [hs, ht]
    exact ⟨_, rfl⟩
  | vec3 x y z =>
    obtain ⟨hxy, hz⟩ := Bool.and_eq_true_iff.1 h
    obtain ⟨hx, hy⟩ := Bool.and_eq_true_iff.1 hxy
    obtain ⟨s, hs⟩ := exists_literal hx
    obtain ⟨t, ht⟩ := exists_literal hy
    obtain ⟨u, hu⟩ := exists_literal hz
    rw [literal.eq_def]
    simp only [hs, ht, hu]
    exact ⟨_, rfl⟩
  | none | bool b | float x | str s => exact ⟨_, rfl⟩
theorem exists_literals {xs : List Value} (h : fitsItems xs = true) : ∃ ts, literals xs = .ok ts := by
  cases xs with
  | nil => exact ⟨[], rfl⟩
  | cons x xs =>
    obtain ⟨hx, hxs⟩ := Bool.and_eq_true_iff.1 h
    obtain ⟨t, ht⟩ := exists_literal hx
    obtain ⟨ts, hts⟩ := exists_literals hxs
    simp only [literals, ht, hts]
    exact ⟨_, rfl⟩
theorem exists_fieldLiterals {fields : List (String × Value)} (h : fitsFields fields = true) :
    ∃ ts, fieldLiterals fields = .ok ts := by
  cases fields with
  | nil => exact ⟨[], rfl⟩
  | cons f fields =>
    obtain ⟨k, v⟩ := f
    obtain ⟨hv, hrest⟩ := Bool.and_eq_true_iff.1 h
    obtain ⟨t, ht⟩ := exists_literal hv
    obtain ⟨ts, hts⟩ := exists_fieldLiterals hrest
    simp only [fieldLiterals, ht, hts]
    exact ⟨_, rfl⟩
end

theorem exists_display {v : Value} (h : v.fits = true) : ∃ text, v.display = .ok text := by
  unfold display
  split
  · exact ⟨_, rfl⟩
  · exact exists_literal h

end Value

theorem Value.fits_lookup {fields : List (String × Value)} (hfields : (Value.dict fields).fits = true) {key : String}
    {v : Value} (h : fields.lookup key = some v) : v.fits = true := by
  induction fields with
  | nil => cases h
  | cons f fields ih =>
    obtain ⟨k, w⟩ := f
    obtain ⟨hw, hrest⟩ := Bool.and_eq_true_iff.1 hfields
    rw [List.lookup_cons] at h
    split at h
    · cases h
      exact hw
    · exact ih hrest h

/-- The kinds of fault that the reader of a literal expects of a value that does not fit. -/
def Fault.IsMisfit (f : Fault) : Prop := f.family = .type ∨ f.family = .value

namespace Value

/-- What is no integer is a misfit, infinities apart. -/
theorem isMisfit_toInteger {v : Value} (hv : ∀ x : Double, v = .float x → x.isInfinite = false) {f : Fault}
    (h : v.toInteger = .error f) : f.IsMisfit := by
  unfold toInteger at h
  split at h
  · split at h
    · cases h
    · cases h
      exact .inr rfl
    · cases h
      exact .inr rfl
  · rename_i x
    unfold wholeOf at h
    split at h
    · cases h
      exact .inr rfl
    · rw [hv x rfl] at h
      cases h
  · cases h
  · cases h
  · cases h
    exact .inl rfl

/-- What is no float is a misfit, integers out of range apart. -/
theorem isMisfit_toFloat {v : Value} (hv : ∀ i, v = .int i → (Double.ofInt? i).isSome = true) {f : Fault}
    (h : v.toFloat = .error f) : f.IsMisfit := by
  cases v with
  | str s =>
    simp only [toFloat] at h
    split at h
    · cases h
    · cases h
      exact .inr rfl
  | int i =>
    obtain ⟨x, hx⟩ := Option.isSome_iff_exists.1 (hv i rfl)
    simp [toFloat, number?, Number.toDouble, hx, Except.map] at h
  | bool b => cases b <;> cases h
  | float x => cases h
  | none | list xs | dict fields | vec2 x y | vec3 x y z =>
    cases h
    exact .inl rfl

theorem isSome_of_fits {v : Value} (hv : v.fits = true) (i : Int) (hi : v = .int i) : (Double.ofInt? i).isSome = true := by
  subst hi
  exact hv

/-- The items of a value that fits fit. -/
theorem fits_items {v : Value} (hv : v.fits = true) {xs : List Value} (h : ValueType.items v = .ok xs) :
    ∀ x ∈ xs, x.fits = true := by
  unfold ValueType.items at h
  split at h
  · cases h
    exact fitsItems_iff.1 hv
  · cases h
    intro x hx
    obtain ⟨c, -, rfl⟩ := List.mem_map.1 hx
    rfl
  · cases h
    intro x hx
    obtain ⟨f, -, rfl⟩ := List.mem_map.1 hx
    rfl
  · cases h

end Value

namespace ValueType

theorem isMisfit_mapM {α β : Type} {g : α → Except Fault β} {xs : List α}
    (hg : ∀ x ∈ xs, ∀ f, g x = .error f → f.IsMisfit) {f : Fault} (h : xs.mapM g = .error f) : f.IsMisfit := by
  induction xs with
  | nil => cases h
  | cons x xs ih =>
    rw [List.mapM_cons] at h
    rcases bind_eq_error.1 h with h | ⟨y, -, h⟩
    · exact hg x List.mem_cons_self f h
    · rcases bind_eq_error.1 h with h | ⟨ys, -, h⟩
      · exact ih (fun x hx => hg x (List.mem_cons_of_mem _ hx)) h
      · cases h

/-- The components of a vector are read one by one. -/
theorem isMisfit_components {d : Dimension} {raw : Value}
    (hraw : ∀ xs, items raw = .ok xs → ∀ x ∈ xs, ∀ i, x = .int i → (Double.ofInt? i).isSome = true) {f : Fault} (h : (do
      let cs ← (← items raw).mapM Value.toFloat
      if cs.length ≠ d.count then throw (Fault.vectorSize (vector d).name d.count cs.length)
      d.vector cs) = .error f) : f.IsMisfit := by
  rcases bind_eq_error.1 h with h | ⟨xs, hxs, h⟩
  · unfold items at h
    split at h <;> cases h
    exact .inl rfl
  rcases bind_eq_error.1 h with h | ⟨cs, -, h⟩
  · exact isMisfit_mapM (fun x hx f hf => Value.isMisfit_toFloat (hraw xs hxs x hx) hf) h
  split at h
  · cases h
    exact .inr rfl
  · unfold Dimension.vector at h
    split at h
    · split at h
      · cases h
        exact .inl rfl
      · cases h
    · cases h

/-- What is no vector is a misfit, if the value fits. -/
theorem isMisfit_vectorOf {d : Dimension} {v : Value} (hv : v.fits = true) {f : Fault} (h : vectorOf d v = .error f) :
    f.IsMisfit := by
  have hfits {raw : Value} (hraw : raw.fits = true) (xs : List Value) (hxs : items raw = .ok xs) (x : Value) (hx : x ∈ xs)
      (i : Int) : x = .int i → (Double.ofInt? i).isSome = true :=
    Value.isSome_of_fits (Value.fits_items hraw hxs x hx) i
  cases v with
  | dict fields =>
    have hraw : (Value.list (d.axes.map fun a => (fields.lookup a).getD (.float Double.zero))).fits = true := by
      refine Value.fitsItems_iff.2 fun x hx => ?_
      obtain ⟨a, -, rfl⟩ := List.mem_map.1 hx
      cases hlookup : fields.lookup a with
      | none => rfl
      | some w => exact Value.fits_lookup hv hlookup
    exact isMisfit_components (hfits hraw) h
  | none | bool b | int i | float x | str s | list xs | vec2 x y | vec3 x y z => exact isMisfit_components (hfits hv) h

/-- What cannot be read as an integer is a misfit. -/
theorem isMisfit_decode_integer {v : Value} {f : Fault} (h : integer.decode v = .error f) : f.IsMisfit := by
  rw [decode.eq_def] at h
  split at h
  case h_4 s _ => exact Value.isMisfit_toInteger (v := .str (Text.trim s)) (fun _ hx => nomatch hx) h
  case h_5 x ht hv =>
    split at h
    · rename_i hintegral
      refine Value.isMisfit_toInteger ?_ h
      rintro y ⟨⟩
      have hfinite := (Bool.and_eq_true_iff.1 hintegral).1
      simp only [Double.isFinite, decide_eq_true_eq] at hfinite
      simp only [Double.isInfinite, beq_eq_false_iff_ne]
      omega
    · cases h
      exact .inr rfl
  case h_6 hfloat => exact Value.isMisfit_toInteger (fun x hx => absurd hx (hfloat x)) h
  all_goals contradiction

/-- A value whose integers fit is read, or it is told that it does not fit the type. -/
theorem isMisfit_decode {t : ValueType} (ht : t.IsBasic) {v : Value} (hv : v.fits = true) {f : Fault}
    (h : t.decode v = .error f) : f.IsMisfit := by
  cases t with
  | flow => cases h
  | boolean =>
    cases v with
    | str s =>
      rw [decode, booleanOfText] at h
      split at h
      · cases h
      · split at h
        · cases h
        · cases h
          exact .inr rfl
    | none | bool b | int i | float x | list xs | dict fields | vec2 x y | vec3 x y z => cases h
  | integer => exact isMisfit_decode_integer h
  | string =>
    obtain ⟨text, htext⟩ := Value.exists_display hv
    rw [decode, htext] at h
    cases h
  | float => exact Value.isMisfit_toFloat (Value.isSome_of_fits hv) h
  | vector d => exact isMisfit_vectorOf hv h
  | custom name start => cases ht

end ValueType

/-- A setting is of a kind that definitions can read under the key: a name, or a number of outputs. -/
def isReadable (key : String) (v : Value) : Bool :=
  if key = variableKey ∨ key = eventKey then v.key?.toBool
  else if key = "num_outputs" then (if v.truth then v else .int 1).toInteger.toBool
  else true

theorem Catalogue.isReadable_defaults : ∀ d ∈ coreNodes ++ vectorDefinitions ++ stateDefinitions,
    ∀ e ∈ d.defaultConfiguration.entries, isReadable e.1 e.2 = true := by
  decide +kernel

/-- Settings that can be read yield sockets, whatever is declared. -/
theorem SocketSource.exists_expand {source : SocketSource} (hsound : source.isSound = true) {c : Configuration}
    (hc : ∀ e ∈ c.entries, isReadable e.1 e.2 = true) (scope : Scope) : ∃ specs, source.expand c scope = .ok specs := by
  have hsetting (key : String) (hnone : isReadable key .none = true) : isReadable key (setting c key) = true := by
    unfold setting
    cases hget : c.get? key with
    | none => exact hnone
    | some v => exact hc _ (Table.mem_entries_of_get? hget)
  cases source with
  | fixed specs => exact ⟨specs, rfl⟩
  | eventParameters lead =>
    have hname : (setting c eventKey).key?.toBool = true := hsetting eventKey (by decide)
    have hname := ok_of_toBool hname none
    exact ⟨_, bind_eq_ok.2 ⟨_, hname, rfl⟩⟩
  | variableValue lead =>
    have hname : (setting c variableKey).key?.toBool = true := hsetting variableKey (by decide)
    have hname := ok_of_toBool hname none
    generalize (setting c variableKey).key?.toOption.getD none = name at hname
    cases htype : name.bind scope.variableType? with
    | none => exact ⟨lead, bind_eq_ok.2 ⟨name, hname, by rw [htype]; rfl⟩⟩
    | some t => exact ⟨_, bind_eq_ok.2 ⟨name, hname, by rw [htype]; rfl⟩⟩
  | numbered =>
    have hn : (if (setting c "num_outputs").truth then setting c "num_outputs" else .int 1).toInteger.toBool = true :=
      hsetting "num_outputs" (by decide)
    have hn := ok_of_toBool hn .none
    exact ⟨_, bind_eq_ok.2 ⟨_, bind_eq_ok.2 ⟨_, hn, rfl⟩, rfl⟩⟩
  | counted stem key | refused text => cases hsound

/-- The integers in the literals of the document can be taken for floats, and its settings can be read. -/
structure Document.Tame (d : Document) : Prop where
  vars : ∀ v ∈ d.vars, v.initial.fits = true
  parameters : ∀ e ∈ d.events, ∀ p ∈ e.parameters, p.default.fits = true
  inputs : ∀ n ∈ d.nodes, ∀ i ∈ n.inputs, i.2.fits = true
  settings : ∀ n ∈ d.nodes, ∀ s ∈ n.configuration, isReadable s.1 s.2 = true

instance (d : Document) : Decidable d.Tame :=
  decidable_of_iff ((∀ v ∈ d.vars, v.initial.fits = true) ∧ (∀ e ∈ d.events, ∀ p ∈ e.parameters, p.default.fits = true) ∧
      (∀ n ∈ d.nodes, ∀ i ∈ n.inputs, i.2.fits = true) ∧ ∀ n ∈ d.nodes, ∀ s ∈ n.configuration, isReadable s.1 s.2 = true)
    ⟨fun ⟨h₁, h₂, h₃, h₄⟩ => ⟨h₁, h₂, h₃, h₄⟩, fun h => ⟨h.vars, h.parameters, h.inputs, h.settings⟩⟩

/-- The graph has the registry, and sockets can be made from what is declared in it. -/
structure Graph.Declares (r : Registry) (g : Graph) : Prop where
  registry : g.registry = r
  vars : ∀ e ∈ g.vars.entries, ∃ t, r.valueType e.2.valueType.name = .ok t
  events : ∀ e ∈ g.events.entries, ∀ p ∈ e.2.parameters, r.Types p.valueType p.default

namespace Graph.Declares

variable {ds : List Definition} {r : Registry} {g h : Graph}

theorem of_empty (name : String) (r : Registry) (replace : Bool) (labels : Nat) :
    Declares r { name := name, registry := r, replaceLinks := replace, labels := labels } :=
  ⟨rfl, by simp, by simp⟩

theorem congr (hg : Declares r g) (hregistry : h.registry = g.registry) (hvars : h.vars = g.vars)
    (hevents : h.events = g.events) : Declares r h :=
  ⟨hregistry.trans hg.registry, hvars ▸ hg.vars, hevents ▸ hg.events⟩

theorem scope (hg : Declares r g) : g.scope.Typed r := by
  constructor
  · intro name t ht
    obtain ⟨x, hx, rfl⟩ := Option.map_eq_some_iff.1 ht
    exact hg.vars _ (Table.mem_entries_of_get? hx)
  · intro name ps hps
    obtain ⟨e, he, rfl⟩ := Option.map_eq_some_iff.1 hps
    exact hg.events _ (Table.mem_entries_of_get? he)

end Graph.Declares

namespace Document

variable {ds : List Definition} {r : Registry} {g : Graph}

/-- A literal that fits is read or refused for integrity. -/
theorem refusing_literalOf (hr : r.Standard ds) {raw : Value} (hraw : raw.fits = true) (typeName place : String) :
    Refusing (literalOf r typeName raw place) := by
  unfold literalOf
  split
  · exact .of_integrity _
  · rename_i t ht
    unfold literal
    split
    · exact .of_ok _
    · split
      · exact .of_ok _
      · rename_i f hf
        have hmisfit : f.family = .type ∨ f.family = .value := ValueType.isMisfit_decode (hr.valueType_spec ht).2 hraw hf
        rw [if_pos hmisfit]
        obtain ⟨text, htext⟩ := Value.exists_literal hraw
        rw [htext]
        exact .of_integrity _

/-- So is a variable, and what was declared stays declared. -/
theorem refusing_loadVariable (hr : r.Standard ds) (hg : g.Declares r) {v : Variable} (hv : v.initial.fits = true) :
    Refusing (loadVariable g v) ∧ ∀ h, loadVariable g v = .ok h → h.Declares r := by
  have hheld {initial : Value}
      (h : literalOf g.registry v.valueType v.initial ("variable '" ++ v.name ++ "'") = .ok initial) :
      r.Types v.valueType initial :=
    Graph.Filled.types_literalOf hr (hg.registry ▸ h)
  constructor
  · refine .bind (hg.registry ▸ refusing_literalOf hr hv _ _) fun initial hinitial => ?_
    obtain ⟨t, ht, hheld⟩ := hheld hinitial
    unfold Graph.declareVariable
    split
    · exact .of_integrity _
    · rw [hg.registry, ht]
      simp only [hheld.start]
      exact .of_ok _
  · intro h hl
    obtain ⟨initial, hinitial, -⟩ := bind_eq_ok.1 hl
    obtain ⟨t, ht, -⟩ := hheld hinitial
    obtain ⟨x, labels, -, -, hname, rfl⟩ := loadVariable_eq_ok (hg.registry ▸ .of_standard hr) hl
    refine ⟨hg.registry, fun e he => ?_, hg.events⟩
    rcases List.mem_append.1 he with he | he
    · exact hg.vars e he
    · cases List.mem_singleton.1 he
      exact ⟨t, hname ▸ ht⟩

theorem refusing_loadParameter (hr : r.Standard ds) {p : Parameter} (hp : p.default.fits = true) (event : String) :
    Refusing (loadParameter r event p) :=
  Refusing.bind (refusing_literalOf hr hp _ _) fun _ _ => .of_ok _

theorem refusing_loadEvent (hr : r.Standard ds) (hg : g.Declares r) {e : Event}
    (he : ∀ p ∈ e.parameters, p.default.fits = true) : Refusing (loadEvent g e) := by
  refine .bind (.mapM fun p hp => hg.registry ▸ refusing_loadParameter hr (he p hp) e.name) fun specs _ => ?_
  split
  · exact .of_ok _
  · exact .of_integrity _

/-- The parameters of an event have defaults of their types. -/
theorem declares_loadEvent (hr : r.Standard ds) (hg : g.Declares r) {e : Event} {h : Graph} (hl : loadEvent g e = .ok h) :
    h.Declares r := by
  obtain ⟨specs, hspecs, hl⟩ := bind_eq_ok.1 hl
  split at hl
  · rename_i g' hd
    cases hl
    unfold Graph.declareEvent at hd
    split at hd
    · cases hd
    obtain ⟨checked, hchecked, hd⟩ := bind_eq_ok.1 hd
    have htypes : ∀ p ∈ checked, r.Types p.valueType p.default := by
      intro p hp
      obtain ⟨s, hs, hsp⟩ := mem_of_mapM hchecked hp
      obtain ⟨q, -, hq⟩ := mem_of_mapM hspecs hs
      obtain ⟨v, hv, hq⟩ := bind_eq_ok.1 hq
      cases hq
      exact (Graph.Filled.types_checkParameter hr hg.registry (.inr (Graph.Filled.types_literalOf hr (hg.registry ▸ hv))) hsp).2
    have hdefaults := (Graph.Filled.types_stampParameters g htypes).2
    have hsame : (g.stampParameters checked).1.Declares r := by
      obtain ⟨labels, hlabels⟩ := g.stampParameters_eq checked
      rw [hlabels]
      exact hg.congr rfl rfl rfl
    generalize g.stampParameters checked = p at hd hdefaults hsame
    cases hd
    refine ⟨hsame.registry, hsame.vars, fun x hx => ?_⟩
    rcases Table.mem_entries_set hx with rfl | hx
    · exact hdefaults
    · exact hsame.events x hx
  · cases hl

theorem refusing_loadInput (hr : r.Standard ds) (hg : g.registry = r) (k : Nat) {i : String × Value}
    (hi : i.2.fits = true) : Refusing (loadInput k g i) := by
  unfold loadInput
  split
  · exact .of_ok _
  · split
    · split
      · exact .of_integrity _
      · exact (hg ▸ refusing_literalOf hr hi _ _ : Refusing (literalOf g.registry _ i.2 _)).bind fun _ _ => .of_ok _
    · exact .of_integrity _

/-- A node whose settings can be read is made or refused for integrity. -/
theorem refusing_makeNode (hr : r.Standard ds) (hg : g.Declares r) {d : Definition} (hsound : d.isSound = true)
    (hdefaults : ∀ e ∈ d.defaultConfiguration.entries, isReadable e.1 e.2 = true) (id : String)
    {overrides : List (String × Value)} (hoverrides : ∀ o ∈ overrides, isReadable o.1 o.2 = true) (place : Double × Double) :
    Refusing (g.makeNode d id overrides (.list [.float place.1, .float place.2])) := by
  unfold Graph.makeNode
  refine .bind (.of_ok place) fun place _ => ?_
  split
  · exact .of_integrity _
  · rename_i c hc
    have hc : ∀ e ∈ c.entries, isReadable e.1 e.2 = true := by
      refine foldlM_invariant (P := fun c : Configuration => ∀ e ∈ c.entries, isReadable e.1 e.2 = true) ?_ hdefaults hc
      intro c o ho c' hc hstep e he
      split at hstep
      · cases hstep
        rcases Table.mem_entries_set he with rfl | he
        · exact hoverrides o ho
        · exact hc e he
      · cases hstep
    obtain ⟨hinputs, houtputs⟩ := Bool.and_eq_true_iff.1 hsound
    have hside {source : SocketSource} (hsource : source.isSound = true) : Refusing (g.buildSide source c) := by
      obtain ⟨specs, hspecs⟩ := source.exists_expand hsource hc g.scope
      obtain ⟨ss, hss, -⟩ := Graph.buildSide_ok hr hg.registry hspecs (SocketSource.builds_expand hr hsource hg.scope hspecs)
      exact hss ▸ .of_ok ss
    exact (hside hinputs).bind fun _ _ => (hside houtputs).bind fun _ _ => .of_ok _

/-- What is asked of the definitions that nodes are made from: their own settings can be read. -/
theorem refusing_loadNode (hr : r.Standard ds) (hg : g.Declares r)
    (hds : ∀ d ∈ ds, d.isSound = true ∧ ∀ e ∈ d.defaultConfiguration.entries, isReadable e.1 e.2 = true) {n : Node}
    (hinputs : ∀ i ∈ n.inputs, i.2.fits = true) (hsettings : ∀ s ∈ n.configuration, isReadable s.1 s.2 = true) :
    Refusing (loadNode g n) := by
  have hadd : Refusing (g.addNode n.typeName (some n.id) n.configuration
      (.list [.float n.position.1, .float n.position.2])) := by
    unfold Graph.addNode
    split
    · exact .of_integrity _
    · rename_i d hd
      obtain ⟨hsound, hdefaults⟩ := hds d (hr.definition_spec (hg.registry ▸ hd)).2
      unfold Graph.addNodeOf
      simp only
      split
      · exact .of_integrity _
      · exact (refusing_makeNode hr hg hsound hdefaults _ hsettings n.position).bind fun _ _ => .of_ok _
  refine hadd.bind fun p hk => .foldlM (P := fun h : Graph => h.registry = r) (fun h i hi hh => ⟨?_, fun h' hl => ?_⟩) ?_
  · exact refusing_loadInput hr hh p.2 (hinputs i hi)
  · rcases Graph.Indexed.loadInput_eq_ok hl with rfl | ⟨p, v, rfl⟩
    · exact hh
    · obtain ⟨labels, hlabels⟩ := h.stamp_eq v
      rw [hlabels]
      exact hh
  · obtain ⟨m, labels, -, -, -, -, -, hmade⟩ := addNode_withLast (hg.registry ▸ .of_standard hr) hk
    rw [hmade]
    exact hg.registry

theorem refusing_loadLink (g : Graph) (l : Link) : Refusing (loadLink g l) := by
  unfold loadLink
  split
  · exact .of_ok _
  · exact .of_integrity _

/-- A tame document is read or refused for integrity, part by part. -/
theorem refusing_toGraph (hr : r.Standard ds)
    (hds : ∀ d ∈ ds, d.isSound = true ∧ ∀ e ∈ d.defaultConfiguration.entries, isReadable e.1 e.2 = true) {d : Document}
    (hd : d.Tame) (replace : Bool) (labels : Nat) :
    Refusing (d.toGraph { registry := r, replaceLinks := replace, labels := labels }) := by
  have hempty := Graph.Declares.of_empty d.name r replace labels
  have hvar (g : Graph) (v : Variable) (hv : v ∈ d.vars) (hg : g.Declares r) := refusing_loadVariable hr hg (hd.vars v hv)
  have hevent (g : Graph) (e : Event) (he : e ∈ d.events) (hg : g.Declares r) :
      Refusing (loadEvent g e) ∧ ∀ h, loadEvent g e = .ok h → h.Declares r :=
    ⟨refusing_loadEvent hr hg (hd.parameters e he), fun h => declares_loadEvent hr hg⟩
  have hnode (g : Graph) (n : Node) (hn : n ∈ d.nodes) (hg : g.Declares r) :
      Refusing (loadNode g n) ∧ ∀ h, loadNode g n = .ok h → h.Declares r := by
    refine ⟨refusing_loadNode hr hg hds (hd.inputs n hn) (hd.settings n hn), fun h hl => ?_⟩
    obtain ⟨m, labels, -, -, rfl⟩ := loadNode_eq_ok (hg.registry ▸ .of_standard hr) hl
    exact hg.congr rfl rfl rfl
  refine (Refusing.foldlM hvar hempty).bind fun g₁ hg₁ => ?_
  have hg₁ := foldlM_invariant (fun g v hv h hg hl => (hvar g v hv hg).2 h hl) hempty hg₁
  refine (Refusing.foldlM hevent hg₁).bind fun g₂ hg₂ => ?_
  have hg₂ := foldlM_invariant (fun g e he h hg hl => (hevent g e he hg).2 h hl) hg₁ hg₂
  refine (Refusing.foldlM hnode hg₂).bind fun g₃ _ => ?_
  exact Refusing.foldlM (P := fun _ => True) (fun g l _ _ => ⟨refusing_loadLink g l, fun _ _ => trivial⟩) trivial

end Document

namespace Graph

/-- Whatever is given for a document, over the default profiles it becomes a graph or is refused as something that does not
fit together, if the document that it describes is tame. -/
theorem accepted_or_refused {services : List Service} {check : Bool} {r : Registry}
    (hr : Registry.create Catalogue.defaultProfiles services check = .ok r) (replace : Bool) (labels : Nat) (v : Value)
    (hv : ∀ d, Document.ofValue v = .ok d → d.Tame) :
    (∃ g, ofValue v { registry := r, replaceLinks := replace, labels := labels } = .ok g) ∨
      ∃ reason, ofValue v { registry := r, replaceLinks := replace, labels := labels } = .error (.integrity reason) := by
  have hrefusing : Refusing (ofValue v { registry := r, replaceLinks := replace, labels := labels }) := by
    refine .bind ?_ fun d hd => Document.refusing_toGraph (Registry.standard_of_create hr)
      (fun d hd => ⟨Catalogue.isSound_definitions d hd, Catalogue.isReadable_defaults d hd⟩) (hv d hd) replace labels
    unfold Document.ofValue
    split
    · exact .of_ok _
    · exact .of_integrity _
  cases hg : ofValue v { registry := r, replaceLinks := replace, labels := labels } with
  | ok g => exact .inl ⟨g, rfl⟩
  | error e =>
    obtain ⟨reason, rfl⟩ := hrefusing e hg
    exact .inr ⟨reason, rfl⟩

/-- A sequence with a float for its number of outputs, and a text that no float can be read from. -/
def unreadableDocument : Document where
  vars := [{ name := "speed", valueType := "float", initial := .str "fast" }]
  nodes := [{ id := "sequence", typeName := "Sequence", configuration := [("num_outputs", .float (Double.ofRatio false 5 2))] }]

/-- A document with a text for a number is refused for integrity. -/
theorem accepted_or_refused_unreadable :
    (∀ d, Document.ofValue unreadableDocument.toValue = .ok d → d.Tame) ∧
      ∃ reason, ofValue unreadableDocument.toValue { registry := Catalogue.defaults } = .error (.integrity reason) := by
  have htame : ∀ d, Document.ofValue unreadableDocument.toValue = .ok d → d.Tame := by
    intro d hd
    rw [Document.ofValue, Document.check_toValue] at hd
    cases hd
    decide +kernel
  refine ⟨htame, (accepted_or_refused Catalogue.create_defaults true labelRange _ htame).resolve_left ?_⟩
  rintro ⟨g, hg⟩
  have hfails : (ofValue unreadableDocument.toValue { registry := Catalogue.defaults }).toBool = false := by
    rw [Catalogue.defaults_eq_written]
    decide +kernel
  rw [hg] at hfails
  cases hfails

/-- An integer that no float is as large as. -/
def oversizedDocument : Document where
  name := "g"
  vars := [{ name := "x", valueType := "float", initial := .int (Nat.pow 10 400 : Nat) }]

/-- Such an integer is not told as a value that cannot be read. -/
theorem escapes_oversized :
    ofValue oversizedDocument.toValue { registry := Catalogue.defaults } = .error (.fault .integerTooLarge) :=
  eq_fault (by decide +kernel)

end Graph

end FlowGraph
