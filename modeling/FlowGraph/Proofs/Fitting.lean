import FlowGraph.Proofs.Refusing
import FlowGraph.Proofs.Variables

/-!
Values that do not fit a variable. Main statement: whatever is done to a variable goes through, or is refused as not
fitting, if the value does not take the conversion to the variable's type to the limits of numbers. Beyond them the failure
is of another kind.
-/
namespace FlowGraph

theorem twoPow_add (m n : Nat) : twoPow (m + n) = twoPow m * twoPow n := Nat.pow_add 2 m n

theorem twoPow_mono {m n : Nat} (h : m ≤ n) : twoPow m ≤ twoPow n := Nat.pow_le_pow_right (by decide) h

theorem tenPow_mono {m n : Nat} (h : m ≤ n) : tenPow m ≤ tenPow n := Nat.pow_le_pow_right (by decide) h

namespace Decimal

/-- A numeral of so many digits is below the power of ten. -/
theorem ofDigitChars_lt {ds : List Char} (hds : ds.all Char.isDigit = true) (n : Nat) :
    Nat.ofDigitChars 10 ds n < (n + 1) * tenPow ds.length := by
  induction ds generalizing n with
  | nil => simp
  | cons c ds ih =>
    obtain ⟨hc, hds⟩ := Bool.and_eq_true_iff.1 hds
    have hdigit : c.toNat - '0'.toNat < 10 := by
      simp only [Char.isDigit, Bool.and_eq_true, decide_eq_true_eq] at hc
      have hnine : c.toNat ≤ '9'.toNat := hc.2
      have hvalue : '9'.toNat = '0'.toNat + 9 := by decide
      omega
    rw [Nat.ofDigitChars_cons, List.length_cons, tenPow_succ]
    calc Nat.ofDigitChars 10 ds (10 * n + (c.toNat - '0'.toNat))
        < (10 * n + (c.toNat - '0'.toNat) + 1) * tenPow ds.length := ih hds _
      _ ≤ ((n + 1) * 10) * tenPow ds.length := Nat.mul_le_mul_right _ (by omega)
      _ = (n + 1) * (tenPow ds.length * 10) := by rw [Nat.mul_assoc, Nat.mul_comm 10]

/-- An integer that was read can be written. -/
theorem natAbs_lt_of_readInteger {s : String} {i : Int} (h : readInteger s = .number i) : i.natAbs < integerBound := by
  unfold readInteger at h
  generalize splitSign (numberText s) = sign at h
  obtain ⟨negative, body⟩ := sign
  dsimp only at h
  split at h
  · cases h
  rename_i ds _
  split at h
  · cases h
  rename_i hdigits
  split at h
  · cases h
  rename_i hlength
  simp only [Bool.or_eq_true, Bool.not_eq_true', not_or, Bool.not_eq_false] at hdigits
  have hlt : digitsToNat ds < integerBound := by
    have hdigits := ofDigitChars_lt hdigits.2 0
    rw [Nat.zero_add, Nat.one_mul] at hdigits
    exact Nat.lt_of_lt_of_le hdigits (tenPow_mono (Nat.le_of_not_lt hlength))
  cases h
  split <;> omega

end Decimal

namespace Double

theorem significand_lt (x : Double) : x.significand < 2 * fractions := by
  have hfractions : 0 < fractions := twoPow_pos 52
  unfold significand
  split
  · omega
  · have hmod := Nat.mod_lt x.magnitude hfractions
    omega

theorem scale_le {x : Double} (hx : x.isFinite = true) : x.scale ≤ 971 := by
  have hmagnitude : x.magnitude < 2047 * fractions := of_decide_eq_true hx
  have hexponent : x.magnitude / fractions < 2047 := (Nat.div_lt_iff_lt_mul (twoPow_pos 52)).2 hmagnitude
  unfold scale
  split <;> omega

theorem magnitude_ofWord {negative : Bool} {word : Nat} (h : word < signWord) : (ofWord negative word).magnitude = word := by
  have hsign : signWord = 9223372036854775808 := rfl
  cases negative <;>
  · simp only [magnitude, ofWord, Nat.toUInt64_eq, UInt64.toNat_ofNat']
    rw [hsign] at h ⊢
    simp only [Bool.false_eq_true, if_false, if_true]
    omega

theorem isFinite_neg {x : Double} (hx : x.isFinite = true) : x.neg.isFinite = true := by
  have hmagnitude : x.magnitude < infinityWord := of_decide_eq_true hx
  have hnumber : x.isNaN = false := decide_eq_false (by omega)
  have hword : x.magnitude < signWord := Nat.mod_lt _ (twoPow_pos 63)
  rw [neg, hnumber, if_neg Bool.false_ne_true, isFinite, magnitude_ofWord hword]
  exact hx

theorem natAbs_signed (x : Double) (n : Nat) : (x.signed n).natAbs = n := by
  unfold signed
  split <;> omega

theorem natAbs_floor_le (x : Double) : x.floor.natAbs ≤ x.significand * twoPow x.scale.toNat := by
  unfold floor
  split
  · rw [Int.natAbs_mul, natAbs_signed, Int.natAbs_natCast]
  · rename_i hscale
    have hzero : x.scale.toNat = 0 := by omega
    rw [hzero, twoPow_zero, Nat.mul_one, Int.fdiv_eq_ediv_of_nonneg _ (Int.natCast_nonneg _)]
    exact (Int.natAbs_ediv_le_natAbs _ _).trans (natAbs_signed x x.significand).le

theorem natAbs_floor_lt {x : Double} (hx : x.isFinite = true) : x.floor.natAbs < Decimal.integerBound := by
  have hscale : x.scale.toNat ≤ 971 := by
    have hle := scale_le hx
    omega
  have hlimit : 53 + 971 ≤ Decimal.digitLimit := by decide
  calc x.floor.natAbs
      ≤ x.significand * twoPow x.scale.toNat := natAbs_floor_le x
    _ < (2 * fractions) * twoPow x.scale.toNat := Nat.mul_lt_mul_of_pos_right (significand_lt x) (twoPow_pos _)
    _ ≤ (2 * fractions) * twoPow 971 := Nat.mul_le_mul_left _ (twoPow_mono hscale)
    _ = twoPow (53 + 971) := by rw [twoPow_add, twoPow_succ 52, Nat.mul_comm 2, fractions]
    _ ≤ Decimal.integerBound := twoPow_le_tenPow hlimit

/-- The integer of a float can be written. -/
theorem natAbs_truncate_lt {x : Double} (hx : x.isFinite = true) : x.truncate.natAbs < Decimal.integerBound := by
  unfold truncate
  split
  · rw [ceil, Int.natAbs_neg]
    exact natAbs_floor_lt (isFinite_neg hx)
  · exact natAbs_floor_lt hx

end Double

namespace Value

def isHuge : Value → Bool
  | .int i => (Double.ofInt? i).isNone
  | _ => false

def isInfinity : Value → Bool
  | .float x => x.isInfinite
  | _ => false

/-- The value can be shown: no integer in it has too many digits. -/
def isShown (v : Value) : Bool := v.literal.toBool

theorem isSome_of_not_isHuge {v : Value} (hv : v.isHuge = false) (i : Int) (hi : v = .int i) :
    (Double.ofInt? i).isSome = true := by
  subst hi
  simpa [isHuge] using hv

theorem isInfinite_of_not_isInfinity {v : Value} (hv : v.isInfinity = false) (x : Double) (hx : v = .float x) :
    x.isInfinite = false := by
  subst hx
  exact hv

theorem isShown_iff {v : Value} : v.isShown = true ↔ ∃ text, v.literal = .ok text := by
  unfold isShown
  cases v.literal <;> simp [Except.toBool]

/-- What is shown for an integer has not too many digits. -/
theorem natAbs_lt_of_isShown {i : Int} (h : (int i).isShown = true) : i.natAbs < Decimal.integerBound := by
  obtain ⟨text, htext⟩ := isShown_iff.1 h
  rw [literal.eq_def] at htext
  dsimp only at htext
  split at htext
  · rename_i s hs
    unfold Decimal.writeInteger? at hs
    split at hs
    · cases hs
    · omega
  · cases htext

/-- The integer that a value stands for can be shown if the value can. -/
theorem natAbs_lt_of_toInteger {v : Value} (hv : v.isShown = true) {i : Int} (h : v.toInteger = .ok (.int i)) :
    i.natAbs < Decimal.integerBound := by
  have hten : tenPow 1 ≤ Decimal.integerBound := tenPow_mono (by decide)
  rw [tenPow_succ, tenPow_zero] at hten
  unfold toInteger at h
  split at h
  · split at h
    · rename_i hread
      cases h
      exact Decimal.natAbs_lt_of_readInteger hread
    · cases h
    · cases h
  · rename_i x
    unfold wholeOf at h
    split at h
    · cases h
    · rename_i hnumber
      split at h
      · cases h
      · rename_i hfinite
        cases h
        refine Double.natAbs_truncate_lt ?_
        simp only [Double.isNaN, Double.isInfinite, decide_eq_true_eq, beq_iff_eq] at hnumber hfinite
        simp only [Double.isFinite, decide_eq_true_eq]
        omega
  · cases h
    exact natAbs_lt_of_isShown hv
  · cases h
    split <;> omega
  · cases h

end Value

namespace ValueType

variable {t : ValueType} {v w : Value}

/-- The value takes the conversion to the type beyond the limits of numbers. -/
def strains (t : ValueType) (v : Value) : Bool :=
  match t with
  | flow | boolean => false
  | integer => !v.isShown || v.isInfinity
  | float => !v.isShown || v.isHuge
  | vector _ => !v.isShown || (v.components?.getD []).any Value.isHuge
  | string | custom _ _ => !v.isShown

theorem isMisfit_vector_encoded {d : Dimension} {cs : List Value} (hcs : cs.any Value.isHuge = false) {f : Fault}
    (h : (vector d).decode (.list cs) = .error f) : f.IsMisfit := by
  refine isMisfit_components (fun xs (hxs : items (.list cs) = .ok xs) x hx => ?_) h
  cases hxs
  exact Value.isSome_of_not_isHuge (Bool.eq_false_iff.2 fun hhuge => by simp [List.any_eq_true.2 ⟨x, hx, hhuge⟩] at hcs)

/-- A conversion that a value does not strain fails because the value does not fit, and that can be told. -/
theorem unfit_of_conversion (ht : t.IsBasic) (hv : t.strains v = false) {f : Fault}
    (h : (do t.decode (← t.encode v) : Except Fault Value) = .error f) :
    Variable.unfit f.family = true ∧ v.isShown = true := by
  have hmisfit {f : Fault} (hf : f.IsMisfit) : Variable.unfit f.family = true := by
    rcases hf with hf | hf <;> rw [hf] <;> rfl
  cases t with
  | flow | boolean => cases h
  | custom name start => cases ht
  | integer =>
    simp only [strains, Bool.or_eq_false_iff, Bool.not_eq_false'] at hv
    rcases bind_eq_error.1 h with h | ⟨w, hw, h⟩
    · exact ⟨hmisfit (Value.isMisfit_toInteger (Value.isInfinite_of_not_isInfinity hv.2) h), hv.1⟩
    · obtain ⟨i, rfl⟩ := int_of_holds (integer_of_toInteger hw)
      cases h
  | float =>
    simp only [strains, Bool.or_eq_false_iff, Bool.not_eq_false'] at hv
    rcases bind_eq_error.1 h with h | ⟨w, hw, h⟩
    · exact ⟨hmisfit (Value.isMisfit_toFloat (Value.isSome_of_not_isHuge hv.2) h), hv.1⟩
    · cases float_of_toFloat hw
      cases h
  | string =>
    simp only [strains, Bool.not_eq_false'] at hv
    rcases bind_eq_error.1 h with h | ⟨w, hw, h⟩
    · obtain ⟨text, htext⟩ := Value.isShown_iff.1 hv
      cases v <;> simp [encode, Value.display, htext, Except.map] at h
    · cases string_of_display hw
      cases h
  | vector d =>
    simp only [strains, Bool.or_eq_false_iff, Bool.not_eq_false'] at hv
    refine ⟨?_, hv.1⟩
    rcases bind_eq_error.1 h with h | ⟨w, hw, h⟩
    · simp only [encode, Value.components] at h
      split at h <;> cases h
      rfl
    · obtain ⟨cs, hcs, rfl⟩ := map_eq_ok.1 hw
      have hparts : v.components? = some cs := by
        unfold Value.components at hcs
        split at hcs <;> cases hcs
        assumption
      rw [hparts] at hv
      exact hmisfit (isMisfit_vector_encoded hv.2 h)

theorem refusing_coerce (ht : t.IsBasic) (hv : t.strains v = false) (name : String) :
    Refusing (Variable.coerce name t v) := by
  unfold Variable.coerce
  split
  · exact .of_ok _
  · rename_i f hf
    obtain ⟨hunfit, hshown⟩ := unfit_of_conversion ht hv hf
    obtain ⟨text, htext⟩ := Value.isShown_iff.1 hshown
    simp only [hunfit, htext, if_true]
    exact .of_integrity _

/-- What comes of a value that does not strain the conversion can be shown. -/
theorem isShown_of_coerce (ht : t.IsBasic) (hv : t.strains v = false) {name : String}
    (h : Variable.coerce name t v = .ok w) : w.isShown = true := by
  have hheld := holds_coerce ht h
  cases hl : w.literal with
  | ok text => exact Value.isShown_iff.2 ⟨text, hl⟩
  | error f =>
    obtain ⟨-, i, rfl, hi⟩ := hheld.literal_eq_error hl
    cases hheld
    simp only [strains, Bool.or_eq_false_iff, Bool.not_eq_false'] at hv
    unfold Variable.coerce at h
    split at h
    · rename_i w hw
      cases h
      obtain ⟨x, hx, hw⟩ := bind_eq_ok.1 hw
      obtain ⟨j, rfl⟩ := int_of_holds (integer_of_toInteger hx)
      cases hw
      have hlt := Value.natAbs_lt_of_toInteger hv.1 hx
      omega
    · split at h
      · split at h <;> cases h
      · cases h

end ValueType

/-- What is passed on of it is told in the same way. -/
theorem Refusing.of_error {α β : Type} {x : Except Failure α} {e : Failure} (hx : Refusing x) (he : x = .error e) :
    Refusing (.error e : Except Failure β) := by
  rintro _ ⟨⟩
  exact hx e he

namespace ValueType

variable {t : ValueType} {v w : Value}

theorem isShown_create (ht : t.IsBasic) : t.create.isShown = true := by
  cases hl : t.create.literal with
  | ok text => exact Value.isShown_iff.2 ⟨text, hl⟩
  | error f =>
    obtain ⟨-, i, hi, hbound⟩ := (holds_create ht).literal_eq_error hl
    have hpos : 0 < Decimal.integerBound := tenPow_pos _
    cases t with
    | integer =>
      cases hi
      omega
    | vector d => cases d <;> cases hi
    | custom name start => cases ht
    | flow | boolean | float | string => cases hi

/-- A variable starts with what it is given or refuses it. -/
theorem refusing_start (ht : t.IsBasic) (hv : t.strains v = false) (name : String) : Refusing (Variable.start name t v) ∧
    ∀ w, Variable.start name t v = .ok w → w.isShown = true := by
  have hclone {w : Value} (hw : t.Holds w) : Except.lifted (t.clone w) = .ok w := lifted_eq_ok.2 hw.clone
  unfold Variable.start
  split
  · have hcreated := hclone (holds_create ht)
    simp only [pure, Except.pure, bind, Except.bind, hcreated]
    refine ⟨.of_ok _, ?_⟩
    rintro _ ⟨⟩
    exact isShown_create ht
  · refine ⟨(refusing_coerce ht hv name).bind fun w hw => ?_, fun u hu => ?_⟩
    · simp only [hclone (holds_coerce ht hw)]
      exact .of_ok w
    · obtain ⟨w, hw, hu⟩ := bind_eq_ok.1 hu
      cases (hclone (holds_coerce ht hw)).symm.trans hu
      exact isShown_of_coerce ht hv hw

end ValueType

/-- A graph keeps a value that can be shown as one that can be shown. -/
theorem Graph.isShown_stamp {t : ValueType} {v : Value} (hv : t.Holds v) (hshown : v.isShown = true) (g : Graph) :
    (g.stamp v).2.isShown = true := by
  have hstamped := (g.stamp_spec hv).1
  cases hl : (g.stamp v).2.literal with
  | ok text => exact Value.isShown_iff.2 ⟨text, hl⟩
  | error f =>
    obtain ⟨-, i, hi, -⟩ := hstamped.literal_eq_error hl
    rw [hi] at hstamped
    cases hv with
    | integer j => exact hshown
    | _ => cases hstamped

namespace Editing

open FlowGraph.Graph

variable {ds : List Definition} {r : Registry} {g : Graph}

/-- A declaration is refused for integrity and nothing else, if the value does not strain its type. -/
theorem refusing_declareVariable (hr : r.Standard ds) (hg : g.registry = r) {name typeName : String} {v : Value}
    (hv : ∀ t, r.valueType typeName = .ok t → t.strains v = false) :
    Refusing ((Editing.declareVariable name typeName v).runOn { graph := g }).1 := by
  simp only [Editing.declareVariable, runOn_bind, runOn_graph]
  split
  · exact .of_integrity _
  simp only [runOn_bind, runOn_ofIntegrity, hg]
  cases ht : r.valueType typeName with
  | error e => exact .of_integrity e
  | ok t =>
    have hbasic := (hr.valueType_spec ht).2
    obtain ⟨hrefusing, hshown⟩ := ValueType.refusing_start hbasic (hv t ht) name
    simp only [Except.mapError, runOn_ofExcept]
    cases hw : Variable.start name t v with
    | error e => exact hrefusing.of_error hw
    | ok w =>
      obtain ⟨text, htext⟩ := Value.isShown_iff.1 (g.isShown_stamp (hbasic.holds_start hw) (hshown w hw))
      simp only [runOn_keep, runOn_change, announce, Variable.label, htext]
      exact .of_ok _

/-- So is an assignment, whether the variable is there or is made by it. -/
theorem refusing_setVariable (hr : r.Standard ds) (hg : TypedVariables r g) {name : String} {v : Value}
    {typeName : Option String} (hold : ∀ x, g.vars.get? name = some x → x.valueType.strains v = false)
    (hnew : ∀ given t, g.vars.get? name = none → typeName = some given → r.valueType given = .ok t →
      t.strains v = false) :
    Refusing ((Editing.setVariable name v typeName).runOn { graph := g }).1 := by
  cases hx : g.vars.get? name with
  | none =>
    simp only [Editing.setVariable, runOn_bind, runOn_graph, hx]
    cases typeName with
    | none => exact .of_integrity _
    | some given => exact refusing_declareVariable hr hg.registry fun t => hnew given t hx rfl
  | some x =>
    obtain ⟨-, htyped, -⟩ := hg.of_get? hx
    rw [runOn_setVariable (d := { graph := g }) hg.holding hx]
    have hset : Refusing (g.setVariable name v typeName) := by
      simp only [Graph.setVariable, hx]
      split
      · exact .of_integrity _
      refine (ValueType.refusing_coerce htyped.value.isBasic (hold x hx) name).bind fun w hw => ?_
      have hstamped := (g.stamp_spec (ValueType.holds_coerce htyped.value.isBasic hw)).1
      obtain ⟨told, hput, -⟩ := runOn_assign (x := { x with initial := (g.stamp w).2 }) htyped.value hstamped
      simp only [hstamped.clone, Except.lifted, bind, Except.bind, hput]
      exact .of_ok _
    cases hs : g.setVariable name v typeName with
    | error e => exact hset.of_error hs
    | ok p => exact .of_ok _

/-- A variable that is there takes a value or refuses it. -/
theorem refusing_assign (hg : TypedVariables r g) {name : String} {x : Variable} (hx : g.vars.get? name = some x) {v : Value}
    (hv : x.valueType.strains v = false) : Refusing (g.assign x v) := by
  obtain ⟨-, htyped, -⟩ := hg.of_get? hx
  cases hw : Variable.coerce x.name x.valueType v with
  | error e =>
    have hrefused : g.assign x v = .error e := by simp only [Graph.assign, hw, bind, Except.bind]
    rw [hrefused]
    exact (ValueType.refusing_coerce htyped.value.isBasic hv x.name).of_error hw
  | ok w =>
    obtain ⟨labels, told, u, -, -, hassigned⟩ := hg.assign hx hw
    rw [hassigned]
    exact .of_ok _

end Editing

/-- The value that an operation gives to a variable, and the type that it has to fit. -/
def VariableAct.conversion? (g : Graph) : VariableAct → Option (ValueType × Value)
  | declare _ typeName v => (g.registry.valueType typeName).toOption.map (·, v)
  | establish name v typeName => match g.vars.get? name with
    | some x => some (x.valueType, v)
    | none => (typeName.bind fun given => (g.registry.valueType given).toOption).map (·, v)
  | assign name v => (g.vars.get? name).map (·.valueType, v)
  | restore _ => none

/-- The operation is one on a variable that is there, if it has to be. -/
def VariableAct.IsMeant (g : Graph) : VariableAct → Prop
  | declare _ _ _ | establish _ _ _ => True
  | assign name _ | restore name => (g.vars.get? name).isSome = true

namespace Graph

open VariableAct

/-- Whatever is done to a variable of a graph over the default profiles, at any time, goes through or is refused as something
that does not fit, if the value does not strain the conversion to the variable's type. -/
theorem taken_or_refused {services : List Service} {check : Bool} {r : Registry}
    (hr : Registry.create Catalogue.defaultProfiles services check = .ok r) (name : String) (replace : Bool) (labels : Nat)
    (acts : List VariableAct) (a : VariableAct) :
    let g := varied { name := name, registry := r, replaceLinks := replace, labels := labels } acts
    a.IsMeant g → (∀ t v, a.conversion? g = some (t, v) → t.strains v = false) →
      (a.run.runOn { graph := g }).1 = .ok () ∨ ∃ reason, (a.run.runOn { graph := g }).1 = .error (.integrity reason) := by
  intro g hmeant hfits
  have hstandard := Registry.standard_of_create hr
  have hg : TypedVariables r g := (retains_varied hstandard (.of_empty name r replace labels) acts).1
  have hrefusing : Refusing (a.run.runOn { graph := g }).1 := by
    cases a with
    | declare n typeName v =>
      refine Editing.refusing_declareVariable hstandard hg.registry fun t ht => hfits t v ?_
      simp only [conversion?, hg.registry, ht]
      rfl
    | establish n v typeName =>
      refine Editing.refusing_setVariable hstandard hg (fun x hx => hfits _ v ?_) fun given t hx htype ht => hfits t v ?_
      · simp only [conversion?, hx]
      · simp only [conversion?, hx, htype, hg.registry, Option.bind_some, ht]
        rfl
    | assign n v =>
      obtain ⟨x, hx⟩ := Option.isSome_iff_exists.1 hmeant
      simp only [run, Editing.runOn_bind, runOn_found, hx, runOn_put]
      have hassign := Editing.refusing_assign hg hx (hfits _ v (by simp only [conversion?, hx, Option.map_some]))
      cases hassigned : g.assign x v with
      | error e => exact hassign.of_error hassigned
      | ok p => exact .of_ok _
    | restore n =>
      obtain ⟨x, hx⟩ := Option.isSome_iff_exists.1 hmeant
      obtain ⟨d, y, hrun, -⟩ := runOn_restore hg hx
      rw [hrun]
      exact .of_ok _
  cases hout : (a.run.runOn { graph := g }).1 with
  | ok u => exact .inl rfl
  | error e =>
    obtain ⟨reason, rfl⟩ := hrefusing e hout
    exact .inr ⟨reason, rfl⟩

/-- A text that is no number, for a float variable. -/
def unfitAct : VariableAct := .assign "speed" (.str "fast")

/-- A speed that is no number is refused. -/
theorem taken_or_refused_unfit : ∃ reason,
    (unfitAct.run.runOn { graph := varied { registry := Catalogue.defaults } speedActs }).1 = .error (.integrity reason) := by
  have hmeant : ((varied { registry := Catalogue.defaults } speedActs).vars.get? "speed").isSome = true := by decide +kernel
  have hfits : ∀ t v, unfitAct.conversion? (varied { registry := Catalogue.defaults } speedActs) = some (t, v) →
      t.strains v = false := by
    intro t v h
    have hall : (unfitAct.conversion? (varied { registry := Catalogue.defaults } speedActs)).all
        (fun p => !p.1.strains p.2) = true := by
      decide +kernel
    rw [h] at hall
    simpa using hall
  refine (taken_or_refused Catalogue.create_defaults "Untitled Graph" true labelRange speedActs unfitAct hmeant
    hfits).resolve_left fun hok => ?_
  have hfails : (unfitAct.run.runOn { graph := varied { registry := Catalogue.defaults } speedActs }).1.toBool = false := by
    decide +kernel
  rw [hok] at hfails
  cases hfails

/-- An integer that no float is as large as, an infinity for an integer, and integers that cannot be shown. -/
def strainedActs : List VariableAct := [.declare "x" "float" (.int (Nat.pow 10 400 : Nat)),
  .declare "x" "integer" (.float Double.infinity), .declare "x" "string" (.int (Nat.pow 10 5000 : Nat)),
  .declare "x" "integer" (.int (Nat.pow 10 5000 : Nat))]

/-- None of these is told as a value that does not fit. -/
theorem escapes_strained : (strainedActs.map fun a => match (a.run.runOn { graph := { registry := Catalogue.defaults } }).1 with
      | .error (.fault f) => some f
      | _ => none) =
    [some .integerTooLarge, some .infinityToInteger, some .digitsWritten, some .digitsWritten] := by
  decide +kernel

end Graph

end FlowGraph
