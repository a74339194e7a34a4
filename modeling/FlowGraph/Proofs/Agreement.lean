import FlowGraph.Proofs.Signatures
import Mathlib.Data.List.DropRight

/-!
Two ways for a value to get into a variable: a host declares the variable with it, or a document has it. A host gives a
value, which goes through its document form and back, while a document has the form alone. Main statement: declaring a
variable with a value and reading it from the value's document form come to the same graph, or both fail, and most values
may be given either way.
-/
namespace FlowGraph

/-- Both computations fail, or both come to one result. -/
def Concur {ε α : Type} : Except ε α → Except ε α → Prop
  | .ok a, .ok b => a = b
  | .error _, .error _ => True
  | _, _ => False

namespace Concur

variable {ε α : Type} {x y : Except ε α}

theorem refl (x : Except ε α) : Concur x x := by
  cases x
  · exact trivial
  · rfl

theorem of_errors (hx : ∃ e, x = .error e) (hy : ∃ e, y = .error e) : Concur x y := by
  obtain ⟨e, rfl⟩ := hx
  obtain ⟨f, rfl⟩ := hy
  exact trivial

theorem cases_on (h : Concur x y) : (∃ a, x = .ok a ∧ y = .ok a) ∨ ((∃ e, x = .error e) ∧ ∃ f, y = .error f) := by
  cases x <;> cases y
  · exact .inr ⟨⟨_, rfl⟩, _, rfl⟩
  · cases h
  · cases h
  · cases h
    exact .inl ⟨_, rfl, rfl⟩

theorem toBool_eq (h : Concur x y) : x.toBool = y.toBool := by
  cases x <;> cases y <;> first | rfl | cases h

end Concur

namespace Decimal

theorem trimmed_congr {p q : Char → Bool} {cs : List Char} (h : ∀ c ∈ cs, p c = q c) : trimmed p cs = trimmed q cs := by
  have hdrop {ds : List Char} (hds : ∀ c ∈ ds, p c = q c) : ds.dropWhile p = ds.dropWhile q := by
    induction ds with
    | nil => rfl
    | cons d ds ih =>
      rw [List.dropWhile_cons, List.dropWhile_cons, hds d List.mem_cons_self,
        ih fun c hc => hds c (List.mem_cons_of_mem _ hc)]
  have hsuffix := List.dropWhile_suffix q (l := cs)
  simp only [trimmed, hdrop h]
  rw [hdrop fun c hc => h c (hsuffix.subset (List.mem_reverse.1 hc))]

/-- Nothing is left to be trimmed. -/
theorem trimmed_trimmed (p : Char → Bool) (cs : List Char) : trimmed p (trimmed p cs) = trimmed p cs := by
  have hfirst : (trimmed p cs).dropWhile p = trimmed p cs := by
    rw [List.dropWhile_eq_self_iff]
    intro hlength
    have hstart : trimmed p cs <+: cs.dropWhile p := List.rdropWhile_prefix p _
    have hlong := Nat.lt_of_lt_of_le hlength hstart.length_le
    rw [hstart.getElem hlength]
    exact List.dropWhile_eq_self_iff.1 (List.dropWhile_idempotent p cs) hlong
  have hlast : (trimmed p cs).rdropWhile p = trimmed p cs := List.rdropWhile_idempotent p _
  unfold trimmed at hfirst hlast ⊢
  rw [hfirst]
  exact hlast

/-- Separators are blanks of a text, but not of a number. -/
def isSeparator (c : Char) : Bool := 28 ≤ c.toNat && c.toNat ≤ 31

/-- A text without separators is read as an integer in the same way with the blanks around it and without them. -/
theorem readInteger_trim {s : String} (hs : s.toList.all (fun c => !isSeparator c) = true) :
    readInteger (Text.trim s) = readInteger s := by
  have hblank : ∀ c ∈ s.toList, Text.isBlank c = isNumberBlank c := by
    intro c hc
    have hplain := List.all_eq_true.1 hs c hc
    simp only [isSeparator] at hplain
    simp only [isNumberBlank, hplain, Bool.and_true]
  have htext : numberText (Text.trim s) = numberText s := by
    have htrim : (Text.trim s).toList = trimmed isNumberBlank s.toList := by
      rw [← trimmed_congr hblank, Text.trim, String.toList_ofList]
      rfl
    rw [numberText, htrim, trimmed_trimmed]
    rfl
  rw [readInteger, readInteger, htext]

end Decimal

/-- No integer is as large as an infinity. -/
theorem Value.toInteger_of_not_isFinite {z : Double} (hz : z.isFinite = false) :
    ∃ f, (Value.float z).toInteger = .error f := by
  simp only [Double.isFinite, decide_eq_false_iff_not] at hz
  simp only [Value.toInteger, Value.wholeOf]
  by_cases hnumber : z.isNaN = true
  · exact ⟨_, if_pos hnumber⟩
  · have hinfinite : z.isInfinite = true := by
      simp only [Double.isNaN, decide_eq_true_eq] at hnumber
      simp only [Double.isInfinite, beq_iff_eq]
      omega
    exact ⟨_, (if_neg hnumber).trans (if_pos hinfinite)⟩

namespace ValueType

variable {t : ValueType} {x : Value}

/-- A document may have the value that a host gives: it is no text for a boolean, no fraction or text with separators for an
integer, and nothing for a vector that has components of some kind. -/
def readsAlike : ValueType → Value → Bool
  | boolean, .str _ => false
  | integer, .str s => s.toList.all fun c => !Decimal.isSeparator c
  | integer, .float x => !x.isFinite || x.isIntegral
  | vector _, .str _ | vector _, .list _ | vector _, .dict _ | vector _, .vec2 _ _ | vector _, .vec3 _ _ _ => false
  | _, _ => true

/-- Only execution control has nothing for a document form. -/
theorem eq_flow_of_encode (ht : t.IsBasic) {y : Value} (h : t.encode x = .ok y) (hy : y.isNone = true) : t = .flow := by
  cases t with
  | flow => rfl
  | custom name start => cases ht
  | boolean =>
    cases h
    cases hy
  | integer =>
    obtain ⟨i, rfl⟩ := int_of_holds (integer_of_toInteger h)
    cases hy
  | float =>
    cases float_of_toFloat h
    cases hy
  | string =>
    cases string_of_display h
    cases hy
  | vector d =>
    obtain ⟨cs, -, rfl⟩ := map_eq_ok.1 h
    cases hy

/-- Writing an integer and reading it back is the same as reading it, if it reads the same either way. -/
theorem concur_integer (hx : integer.readsAlike x = true) :
    Concur (do integer.decode (← integer.encode x)) (integer.decode x) := by
  have hcut (y : Value) : Concur (do integer.decode (← y.toInteger)) y.toInteger := by
    cases hy : y.toInteger with
    | error f => exact trivial
    | ok z =>
      obtain ⟨i, rfl⟩ := int_of_holds (integer_of_toInteger hy)
      exact Concur.refl _
  cases x with
  | str s =>
    have hplain : s.toList.all (fun c => !Decimal.isSeparator c) = true := by simpa only [readsAlike] using hx
    have hread := Decimal.readInteger_trim hplain
    have hdecode : integer.decode (.str s) = (Value.str (Text.trim s)).toInteger := rfl
    have hgiven := hcut (.str s)
    rw [hdecode]
    simp only [encode, Value.toInteger, hread] at hgiven ⊢
    generalize Decimal.readInteger s = found at hgiven ⊢
    cases found with
    | number i => exact hgiven
    | tooLong n => exact hgiven
    | malformed => exact trivial
  | float z =>
    simp only [decode]
    split
    · exact hcut (.float z)
    · rename_i hfraction
      have hinfinite : z.isFinite = false := by simpa [readsAlike, hfraction] using hx
      obtain ⟨f, hf⟩ := Value.toInteger_of_not_isFinite hinfinite
      simp only [encode, hf]
      exact trivial
  | none => exact hcut .none
  | bool b => exact hcut (.bool b)
  | int i => exact hcut (.int i)
  | list xs => exact hcut (.list xs)
  | dict fields => exact hcut (.dict fields)
  | vec2 a b => exact hcut (.vec2 a b)
  | vec3 a b c => exact hcut (.vec3 a b c)

/-- The conversion of a variable comes to what the reader of a document comes to. -/
theorem concur_of_readsAlike (ht : t.IsBasic) (hx : t.readsAlike x = true) :
    Concur (do t.decode (← t.encode x)) (t.decode x) := by
  cases t with
  | flow => exact Concur.refl (Except.ok Value.none)
  | boolean =>
    have hread : boolean.decode x = .ok (.bool x.truth) := by
      cases x with
      | str s => simp [readsAlike] at hx
      | none | bool b | int i | float z | list xs | dict fields | vec2 a b | vec3 a b c => rfl
    rw [hread]
    exact Concur.refl (Except.ok (Value.bool x.truth))
  | custom name start => cases ht
  | integer => exact concur_integer hx
  | float =>
    simp only [encode, decode]
    cases hy : x.toFloat with
    | error f => exact trivial
    | ok y =>
      cases float_of_toFloat hy
      exact Concur.refl _
  | string =>
    simp only [encode, decode]
    cases hy : x.display with
    | error f => exact trivial
    | ok text => exact Concur.refl (Except.ok (Value.str text))
  | vector d =>
    cases x with
    | none | bool b | int i | float z => exact trivial
    | str s | list xs | dict fields | vec2 a b | vec3 a b c => simp [readsAlike] at hx

end ValueType

namespace Graph

open Document

variable {ds : List Definition} {r : Registry} {g : Graph} {n typeName : String} {t : ValueType} {x y : Value}

theorem declareVariable_eq (hg : g.registry.valueType typeName = .ok t) (x : Value) :
    g.declareVariable n typeName x = if g.vars.has n then .error (.integrity (.variableDeclared n))
      else (Variable.start n t x).map fun v => { (g.stamp v).1 with
        vars := (g.stamp v).1.vars.set n { name := n, serial := (g.stamp v).1.issued, valueType := t, initial := (g.stamp v).2
                                           value := (g.stamp v).2 }
        issued := (g.stamp v).1.issued + 1 } := by
  simp only [declareVariable, hg]
  split
  · rfl
  · cases Variable.start n t x <;> rfl

theorem declareVariable_congr (hg : g.registry.valueType typeName = .ok t) (h : Variable.start n t x = Variable.start n t y) :
    g.declareVariable n typeName x = g.declareVariable n typeName y := by
  rw [declareVariable_eq hg, declareVariable_eq hg, h]

theorem declareVariable_fails (hg : g.registry.valueType typeName = .ok t) (h : ∃ e, Variable.start n t x = .error e) :
    ∃ e, g.declareVariable n typeName x = .error e := by
  obtain ⟨e, he⟩ := h
  rw [declareVariable_eq hg, he]
  split <;> exact ⟨_, rfl⟩

/-- A variable does not start with what its type does not convert. -/
theorem start_fails (hx : x.isNone = false) {f : Fault} (hf : (do t.decode (← t.encode x) : Except Fault Value) = .error f) :
    ∃ e, Variable.start n t x = .error e := by
  have hcoerced : ∃ e, Variable.coerce n t x = .error e := by
    simp only [Variable.coerce, hf]
    split
    · split <;> exact ⟨_, rfl⟩
    · exact ⟨_, rfl⟩
  obtain ⟨e, he⟩ := hcoerced
  simp only [Variable.start, hx, he]
  exact ⟨e, rfl⟩

/-- A variable that a host declares and one that a document has come to the same, where the conversion of what the host gives
comes to what the reader of the document comes to. -/
theorem concur_loadVariable (hg : g.registry.valueType typeName = .ok t) (ht : t.IsBasic) (hx : x.isNone = false)
    (hy : y.isNone = true → t.decode y = .ok t.create) (h : Concur (do t.decode (← t.encode x)) (t.decode y)) :
    Concur (g.declareVariable n typeName x) (loadVariable g { name := n, valueType := typeName, initial := y }) := by
  rcases h.cases_on with ⟨w, hgiven, hread⟩ | ⟨⟨e, hgiven⟩, f, hread⟩
  · have hheld := ValueType.holds_decode ht hread
    have hcoerced : Variable.coerce n t x = .ok w := by simp only [Variable.coerce, hgiven]
    have hsame : Variable.start n t x = Variable.start n t w := by
      rw [hheld.start n]
      simp only [Variable.start, hx, hcoerced]
      exact lifted_eq_ok.2 hheld.clone
    have hliteral (place : String) : literalOf g.registry typeName y place = .ok w := by
      simp only [literalOf, hg, literal]
      split
      · rename_i hnone
        exact congrArg Except.ok (Except.ok.inj ((hy hnone).symm.trans hread))
      · rw [hread]
    have hloaded : loadVariable g { name := n, valueType := typeName, initial := y } = g.declareVariable n typeName w := by
      simp only [loadVariable, hliteral]
      rfl
    rw [hloaded, declareVariable_congr hg hsame]
    exact Concur.refl _
  · have hliteral (place : String) : ∃ e, literalOf g.registry typeName y place = .error e := by
      simp only [literalOf, hg, literal]
      split
      · rename_i hnone
        cases (hy hnone).symm.trans hread
      · rw [hread]
        dsimp only
        split
        · split <;> exact ⟨_, rfl⟩
        · exact ⟨_, rfl⟩
    obtain ⟨e, he⟩ := hliteral ("variable '" ++ n ++ "'")
    exact Concur.of_errors (declareVariable_fails hg (start_fails hx hgiven)) ⟨e, bind_eq_error.2 (.inl he)⟩

end Graph

def Document.declaring (name : String) (x : Variable) : Document := { name := name, vars := [x] }

namespace Graph

open Document

theorem ofValue_declaring (name : String) (x : Document.Variable) (start : Graph) :
    ofValue (declaring name x).toValue start = loadVariable { start with name := name } x := by
  have hread : Document.ofValue (declaring name x).toValue = .ok (declaring name x) := by
    rw [Document.ofValue, check_toValue]
  rw [ofValue, hread]
  simp only [bind, Except.bind, toGraph, declaring, List.foldlM]
  cases loadVariable { start with name := name } x <;> rfl

/-- Declaring a variable with a value and reading it from the document form of the value come to the same graph or both fail,
for every type of the default profiles, and the declaration fails where the value has no such form. From a document the
value itself may be read as well, if it reads alike. -/
theorem declared_as_loaded {services : List Service} {check : Bool} {r : Registry}
    (hr : Registry.create Catalogue.defaultProfiles services check = .ok r) (name n : String) {typeName : String} {t : ValueType}
    (ht : r.valueType typeName = .ok t) (replace : Bool) (labels : Nat) {x : Value} (hx : x.isNone = false) :
    let start : Graph := { registry := r, replaceLinks := replace, labels := labels }
    let declared := { start with name := name }.declareVariable n typeName x
    let loaded (y : Value) := ofValue (declaring name { name := n, valueType := typeName, initial := y }).toValue start
    (∀ y, t.encode x = .ok y → Concur declared (loaded y)) ∧
      (∀ f, t.encode x = .error f → ∃ e, declared = .error e) ∧
      (t.readsAlike x = true → Concur declared (loaded x)) := by
  intro start declared loaded
  have hstandard := Registry.standard_of_create hr
  have hbasic := (hstandard.valueType_spec ht).2
  have hloaded (y : Value) : loaded y = loadVariable { start with name := name }
      { name := n, valueType := typeName, initial := y } :=
    ofValue_declaring name _ start
  refine ⟨fun y hy => ?_, fun f hf => ?_, fun halike => ?_⟩
  · rw [hloaded]
    refine concur_loadVariable ht hbasic hx (fun hnone => ?_) ?_
    · rw [ValueType.eq_flow_of_encode hbasic hy hnone]
      rfl
    · simp only [hy]
      exact Concur.refl _
  · exact declareVariable_fails ht (start_fails hx (bind_eq_error.2 (.inl hf)))
  · rw [hloaded]
    refine concur_loadVariable ht hbasic hx (fun hnone => ?_) (ValueType.concur_of_readsAlike hbasic halike)
    rw [hx] at hnone
    cases hnone

/-- The components of a vector. -/
def wayForm : Value := .list [.float Double.zero, .float Double.one]

/-- A variable with the vector in a document. -/
def wayDocument : Document := declaring "g" { name := "way", valueType := "vec2", initial := wayForm }

theorem declared_as_loaded_vector :
    (declareVariable { name := "g", registry := Catalogue.defaults } "way" "vec2"
        (.vec2 (.float Double.zero) (.float Double.one))).toBool = true ∧
      Concur (declareVariable { name := "g", registry := Catalogue.defaults } "way" "vec2"
          (.vec2 (.float Double.zero) (.float Double.one)))
        (ofValue wayDocument.toValue { registry := Catalogue.defaults }) := by
  have htype : Catalogue.defaults.valueType "vec2" = .ok (.vector .two) := by decide +kernel
  have hconcur := (declared_as_loaded Catalogue.create_defaults "g" "way" htype true labelRange
    (x := .vec2 (.float Double.zero) (.float Double.one)) rfl).1 wayForm rfl
  exact ⟨by decide +kernel, hconcur⟩

/-- A document has the list of the components, which a host cannot give. -/
theorem not_declared_as_loaded_list :
    ¬ Concur (declareVariable { name := "g", registry := Catalogue.defaults } "way" "vec2" wayForm)
      (ofValue wayDocument.toValue { registry := Catalogue.defaults }) := by
  intro h
  have hsame := h.toBool_eq
  revert hsame
  decide +kernel

end Graph

end FlowGraph
