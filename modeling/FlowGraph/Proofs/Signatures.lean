import FlowGraph.Proofs.Serving

/-!
Signatures. Every operator of the catalogue makes a value of one type of operands of certain types, if it makes one at
all, and so does every conversion. A definition whose behaviour and sockets have such signatures gives each of its
outputs values of the output's type.
-/
namespace FlowGraph

open Value

namespace ValueType

variable {d : Dimension} {v w r : Value} {t : ValueType}

/-- A number of either kind. -/
inductive IsNumber : Value → Prop
  | int (i : Int) : IsNumber (.int i)
  | float (x : Double) : IsNumber (.float x)

theorem isNumber_of_float (h : float.Holds v) : IsNumber v := by
  cases h
  exact .float _

theorem int_of_holds (h : integer.Holds v) : ∃ i, v = .int i := by
  cases h
  exact ⟨_, rfl⟩

/-- Arithmetic in which a float takes part gives a float. -/
theorem float_of_lift {onInt : Int → Int → Except Fault Number} {onDouble : Double → Double → Except Fault Double}
    {symbol : String} (hv : IsNumber v) (hw : float.Holds w)
    (h : arithmetic symbol (Number.lift onInt onDouble) v w = .ok r) : float.Holds r := by
  cases hw
  cases hv with
  | int i =>
    obtain ⟨n, hn, rfl⟩ := map_eq_ok.1 h
    obtain ⟨a, -, hn⟩ := bind_eq_ok.1 hn
    obtain ⟨b, -, hn⟩ := bind_eq_ok.1 hn
    obtain ⟨c, -, hn⟩ := bind_eq_ok.1 hn
    cases hn
    exact .float c
  | float x =>
    obtain ⟨n, hn, rfl⟩ := map_eq_ok.1 h
    obtain ⟨a, -, hn⟩ := bind_eq_ok.1 hn
    obtain ⟨b, -, hn⟩ := bind_eq_ok.1 hn
    obtain ⟨c, -, hn⟩ := bind_eq_ok.1 hn
    cases hn
    exact .float c

theorem float_of_add (hv : IsNumber v) (hw : float.Holds w) (h : v.add w = .ok r) : float.Holds r := by
  cases hw with
  | float y =>
    cases hv with
    | int i =>
      simp only [Value.add] at h
      exact float_of_lift (.int i) (.float y) h
    | float x =>
      simp only [Value.add] at h
      exact float_of_lift (.float x) (.float y) h

theorem float_of_sub (hv : float.Holds v) (hw : float.Holds w) (h : v.sub w = .ok r) : float.Holds r :=
  float_of_lift (isNumber_of_float hv) hw h

theorem float_of_mul (hv : float.Holds v) (hw : float.Holds w) (h : v.mul w = .ok r) : float.Holds r := by
  cases hv with
  | float x =>
    cases hw with
    | float y =>
      simp only [Value.mul, repeating?] at h
      exact float_of_lift (.float x) (.float y) h

theorem float_of_div (hv : float.Holds v) (hw : float.Holds w) (h : v.div w = .ok r) : float.Holds r :=
  float_of_lift (isNumber_of_float hv) hw h

theorem float_of_real {f : Double → Double} (h : v.real f = .ok r) : float.Holds r := by
  obtain ⟨x, -, h⟩ := bind_eq_ok.1 h
  dsimp only at h
  split at h
  · cases h
  · cases h
    exact .float _

theorem float_of_toFloat (h : v.toFloat = .ok r) : float.Holds r := by
  unfold toFloat at h
  split at h
  · split at h
    · cases h
      exact .float _
    · cases h
  · cases h
    exact .float _
  · split at h
    · obtain ⟨x, -, rfl⟩ := map_eq_ok.1 h
      exact .float x
    · cases h

theorem integer_of_wholeOf {rule : Double → Int} {x : Double} (h : wholeOf rule x = .ok r) : integer.Holds r := by
  unfold wholeOf at h
  split at h
  · cases h
  · split at h
    · cases h
    · cases h
      exact .integer _

/-- What becomes an integer is an integer of the type. -/
theorem integer_of_toInteger (h : v.toInteger = .ok r) : integer.Holds r := by
  unfold toInteger at h
  split at h
  · split at h
    · cases h
      exact .integer _
    · cases h
    · cases h
  · exact integer_of_wholeOf h
  · cases h
    exact .integer _
  · cases h
    exact .integer _
  · cases h

theorem integer_of_rounded {rule : Double → Int} {refusal : String → Fault} (h : rounded rule refusal v = .ok r) :
    integer.Holds r := by
  unfold rounded at h
  split at h
  · cases h
    exact .integer _
  · exact integer_of_wholeOf h
  · cases h

theorem string_of_display (h : v.display.map .str = .ok r) : string.Holds r := by
  obtain ⟨s, -, rfl⟩ := map_eq_ok.1 h
  exact .string s

/-- What is true of numbers of one kind is not lost by cutting a quotient. -/
theorem integer_of_truncDiv (hv : integer.Holds v) (hw : integer.Holds w) (h : v.truncDiv w = .ok r) : integer.Holds r := by
  cases hv
  cases hw
  obtain ⟨a, ha, h⟩ := bind_eq_ok.1 h
  obtain ⟨b, hb, h⟩ := bind_eq_ok.1 h
  cases ha
  cases hb
  obtain ⟨q, hq, h⟩ := bind_eq_ok.1 h
  obtain ⟨s, -, h⟩ := bind_eq_ok.1 h
  obtain ⟨s', -, h⟩ := bind_eq_ok.1 h
  have hq : integer.Holds q := by
    obtain ⟨n, hn, rfl⟩ := map_eq_ok.1 hq
    simp only [Number.lift] at hn
    split at hn
    · cases hn
    · cases hn
      exact .integer _
  split at h
  · cases h
    exact hq
  · cases hq
    cases h
    exact .integer _

section Vectors

theorem float_of_components (h : (vector d).Holds v) {cs : List Value} (hcs : v.components = .ok cs) :
    ∀ c ∈ cs, float.Holds c := by
  intro c hc
  cases h with
  | vec2 x y =>
    cases hcs
    simp only [List.mem_cons, List.not_mem_nil, or_false] at hc
    rcases hc with rfl | rfl <;> exact .float _
  | vec3 x y z =>
    cases hcs
    simp only [List.mem_cons, List.not_mem_nil, or_false] at hc
    rcases hc with rfl | rfl | rfl <;> exact .float _

/-- Floats are the components of a vector; where some are missing there are zeros. -/
theorem holds_vector {cs : List Value} (hcs : ∀ c ∈ cs, float.Holds c) (h : d.vector cs = .ok r) : (vector d).Holds r := by
  have hat (i : Nat) : ∃ x, cs.getD i (.float Double.zero) = .float x := by
    rw [List.getD_eq_getElem?_getD]
    cases hi : cs[i]? with
    | none => exact ⟨_, rfl⟩
    | some c =>
      have hc := hcs c (List.mem_of_getElem? hi)
      cases hc
      exact ⟨_, rfl⟩
  obtain ⟨x, hx⟩ := hat 0
  obtain ⟨y, hy⟩ := hat 1
  obtain ⟨z, hz⟩ := hat 2
  cases d with
  | two =>
    simp only [Dimension.vector, hx, hy] at h
    split at h
    · cases h
    · cases h
      exact .vec2 x y
  | three =>
    simp only [Dimension.vector, hx, hy, hz] at h
    cases h
    exact .vec3 x y z

theorem float_of_mapM {α : Type} {xs : List α} {f : α → Except Fault Value} {cs : List Value}
    (hf : ∀ a ∈ xs, ∀ c, f a = .ok c → float.Holds c) (h : xs.mapM f = .ok cs) : ∀ c ∈ cs, float.Holds c := by
  intro c hc
  obtain ⟨a, ha, hac⟩ := mem_of_mapM h hc
  exact hf a ha c hac

theorem holds_zipVectors {op : Value → Value → Except Fault Value}
    (hop : ∀ a b c, float.Holds a → float.Holds b → op a b = .ok c → float.Holds c) (hv : (vector d).Holds v)
    (hw : (vector d).Holds w) (h : zipVectors d op v w = .ok r) : (vector d).Holds r := by
  obtain ⟨xs, hxs, h⟩ := bind_eq_ok.1 h
  obtain ⟨ys, hys, h⟩ := bind_eq_ok.1 h
  obtain ⟨cs, hcs, h⟩ := bind_eq_ok.1 h
  refine holds_vector (float_of_mapM (fun p hp c hc => ?_) hcs) h
  obtain ⟨hx, hy⟩ := List.of_mem_zip hp
  exact hop _ _ _ (float_of_components hv hxs _ hx) (float_of_components hw hys _ hy) hc

theorem holds_scaleVector {s : Value} (hv : (vector d).Holds v) (hs : float.Holds s) (h : v.scaleVector d s = .ok r) :
    (vector d).Holds r := by
  obtain ⟨xs, hxs, h⟩ := bind_eq_ok.1 h
  obtain ⟨cs, hcs, h⟩ := bind_eq_ok.1 h
  exact holds_vector (float_of_mapM (fun x hx c hc => float_of_mul (float_of_components hv hxs _ hx) hs hc) hcs) h

/-- The coordinates of a vector are floats. -/
theorem float_of_coordinate {axis : String} (hv : (vector d).Holds v) (h : v.coordinate axis = .ok r) : float.Holds r := by
  cases hv with
  | vec2 x y =>
    unfold coordinate at h
    split at h
    all_goals cases h
    all_goals rename_i heq
    all_goals cases heq
    all_goals exact .float _
  | vec3 x y z =>
    unfold coordinate at h
    split at h
    all_goals cases h
    all_goals rename_i heq
    all_goals cases heq
    all_goals exact .float _

/-- The sum of products is a float as soon as there is one. -/
theorem float_of_dot (hv : (vector d).Holds v) (hw : (vector d).Holds w) (h : v.dot w = .ok r) : float.Holds r := by
  have hstep {sum : Value} {p : Value × Value} {s : Value} (hsum : IsNumber sum) (hp : float.Holds p.1 ∧ float.Holds p.2)
      (hs : (do sum.add (← p.1.mul p.2) : Except Fault Value) = .ok s) : float.Holds s := by
    obtain ⟨c, hc, hs⟩ := bind_eq_ok.1 hs
    exact float_of_add hsum (float_of_mul hp.1 hp.2 hc) hs
  obtain ⟨xs, hxs, h⟩ := bind_eq_ok.1 h
  obtain ⟨ys, hys, h⟩ := bind_eq_ok.1 h
  have hall : ∀ p ∈ xs.zip ys, float.Holds p.1 ∧ float.Holds p.2 := by
    intro p hp
    obtain ⟨hx, hy⟩ := List.of_mem_zip hp
    exact ⟨float_of_components hv hxs _ hx, float_of_components hw hys _ hy⟩
  have hpairs : ∃ p ps, xs.zip ys = p :: ps := by
    cases hv with
    | vec2 x y =>
      cases hw
      cases hxs
      cases hys
      exact ⟨_, _, rfl⟩
    | vec3 x y z =>
      cases hw
      cases hxs
      cases hys
      exact ⟨_, _, rfl⟩
  obtain ⟨p, ps, hps⟩ := hpairs
  rw [hps, List.foldlM_cons] at h
  rw [hps] at hall
  obtain ⟨s, hs, h⟩ := bind_eq_ok.1 h
  have hfirst := hstep (.int 0) (hall p List.mem_cons_self) hs
  exact foldlM_invariant (P := float.Holds)
    (fun sum q hq s hsum hs => hstep (isNumber_of_float hsum) (hall q (List.mem_cons_of_mem p hq)) hs) hfirst h

theorem holds_normalize (hv : (vector d).Holds v) (h : v.normalize d = .ok r) : (vector d).Holds r := by
  obtain ⟨n, hn, h⟩ := bind_eq_ok.1 h
  obtain ⟨s, -, hn⟩ := bind_eq_ok.1 hn
  have hn : float.Holds n := float_of_real hn
  split at h
  · cases h
    exact holds_create (t := .vector d) trivial
  · obtain ⟨xs, hxs, h⟩ := bind_eq_ok.1 h
    obtain ⟨cs, hcs, h⟩ := bind_eq_ok.1 h
    exact holds_vector (float_of_mapM (fun x hx c hc => float_of_div (float_of_components hv hxs _ hx) hn hc) hcs) h

theorem float_of_blend {a b s : Value} (ha : float.Holds a) (hb : float.Holds b) (hs : float.Holds s)
    (h : a.blend b s = .ok r) : float.Holds r := by
  obtain ⟨x, hx, h⟩ := bind_eq_ok.1 h
  obtain ⟨y, hy, h⟩ := bind_eq_ok.1 h
  exact float_of_add (isNumber_of_float ha) (float_of_mul (float_of_sub hb ha hx) hs hy) h

/-- The cross product of two vectors is a vector. -/
theorem holds_cross (hv : (vector .three).Holds v) (hw : (vector .three).Holds w) (h : v.cross w = .ok r) :
    (vector .three).Holds r := by
  have hminor {p q : String} {c : Value} (hc : (do
      let s ← mul (← v.coordinate p) (← w.coordinate q)
      sub s (← mul (← v.coordinate q) (← w.coordinate p)) : Except Fault Value) = .ok c) : float.Holds c := by
    obtain ⟨a, ha, hc⟩ := bind_eq_ok.1 hc
    obtain ⟨b, hb, hc⟩ := bind_eq_ok.1 hc
    obtain ⟨s, hs, hc⟩ := bind_eq_ok.1 hc
    obtain ⟨a', ha', hc⟩ := bind_eq_ok.1 hc
    obtain ⟨b', hb', hc⟩ := bind_eq_ok.1 hc
    obtain ⟨s', hs', hc⟩ := bind_eq_ok.1 hc
    exact float_of_sub (float_of_mul (float_of_coordinate hv ha) (float_of_coordinate hw hb) hs)
      (float_of_mul (float_of_coordinate hv ha') (float_of_coordinate hw hb') hs') hc
  obtain ⟨x, hx, h⟩ := bind_eq_ok.1 h
  obtain ⟨y, hy, h⟩ := bind_eq_ok.1 h
  obtain ⟨z, hz, h⟩ := bind_eq_ok.1 h
  refine holds_vector (fun c hc => ?_) h
  simp only [List.mem_cons, List.not_mem_nil, or_false] at hc
  rcases hc with rfl | rfl | rfl
  · exact hminor hx
  · exact hminor hy
  · exact hminor hz

end Vectors

/-- What is read from a document's form is of the type. -/
theorem holds_decode (ht : t.IsBasic) (h : t.decode v = .ok r) : t.Holds r := by
  cases t with
  | flow =>
    cases h
    exact .flow
  | boolean =>
    cases v with
    | str s =>
      simp only [decode, booleanOfText] at h
      split at h
      · cases h
        exact .boolean true
      · split at h
        · cases h
          exact .boolean false
        · cases h
    | _ =>
      cases h
      exact .boolean _
  | integer =>
    cases v with
    | str s => exact integer_of_toInteger (v := .str (Text.trim s)) h
    | float x =>
      simp only [decode] at h
      split at h
      · exact integer_of_toInteger h
      · cases h
    | _ =>
      simp only [decode] at h
      exact integer_of_toInteger h
  | float => exact float_of_toFloat h
  | string => exact string_of_display h
  | vector d =>
    obtain ⟨xs, -, h⟩ := bind_eq_ok.1 h
    obtain ⟨cs, hcs, h⟩ := bind_eq_ok.1 h
    split at h
    · cases h
    · exact holds_vector (float_of_mapM (fun _ _ _ => float_of_toFloat) hcs) h
  | custom name start => cases ht

/-- A variable takes only what its type makes of a value. -/
theorem holds_coerce (ht : t.IsBasic) {name : String} (h : Variable.coerce name t v = .ok r) : t.Holds r := by
  unfold Variable.coerce at h
  split at h
  · rename_i w hw
    cases h
    obtain ⟨x, -, hw⟩ := bind_eq_ok.1 hw
    exact holds_decode ht hw
  · split at h
    · split at h <;> cases h
    · cases h

end ValueType

open ValueType

/-- The type of what the operator makes of a value of the type. -/
def Unary.result? : Unary → ValueType → Option ValueType
  | negate, .integer | absolute, .integer | floor, .float | ceil, .float | round, .float | toInteger, .float
  | toInteger, .boolean | length, .string => some .integer
  | negate, .float | absolute, .float | squareRoot, .float | sin, .float | cos, .float | tan, .float | toFloat, .integer
  | norm, .vector _ => some .float
  | toText, .float | toText, .integer | booleanText, .boolean | upper, .string | lower, .string | trim, .string =>
    some .string
  | not, .boolean => some .boolean
  | identity, t => some t
  | normalize d, .vector d' => if d = d' then some (.vector d) else none
  | _, _ => none

/-- Operators of one argument give what their signature says. -/
theorem Unary.holds_apply {op : Unary} {s t : ValueType} (hs : op.result? t = some s) {v r : Value} (hv : t.Holds v)
    (h : op.apply v = .ok r) : s.Holds r := by
  cases op with
  | negate =>
    cases hv <;> cases hs <;> cases h <;> constructor
  | absolute =>
    cases hv <;> cases hs <;> cases h <;> constructor
  | squareRoot | sin | cos | tan =>
    cases t <;> cases hs
    exact float_of_real h
  | floor | ceil | round =>
    cases t <;> cases hs
    exact integer_of_rounded h
  | toInteger =>
    cases t <;> cases hs <;> exact integer_of_toInteger h
  | toFloat =>
    cases t <;> cases hs
    exact float_of_toFloat h
  | toText =>
    cases t <;> cases hs <;> exact string_of_display h
  | booleanText =>
    cases t <;> cases hs
    cases h
    exact .string _
  | identity =>
    cases hs
    cases h
    exact hv
  | not =>
    cases t <;> cases hs
    cases h
    exact .boolean _
  | length =>
    cases hv <;> cases hs
    cases h
    exact .integer _
  | upper | lower | trim =>
    cases hv <;> cases hs
    cases h
    exact .string _
  | norm =>
    cases t <;> cases hs
    obtain ⟨s, -, h⟩ := bind_eq_ok.1 h
    exact float_of_real h
  | normalize d =>
    cases t with
    | vector d' =>
      simp only [result?] at hs
      split at hs
      · rename_i hd
        cases hd
        cases hs
        exact holds_normalize hv h
      · cases hs
    | _ => cases hs

/-- The type of what the operator makes of values of the types. -/
def Binary.result? : Binary → ValueType → ValueType → Option ValueType
  | add, .integer, .integer | sub, .integer, .integer | mul, .integer, .integer | truncDiv, .integer, .integer
  | truncMod, .integer, .integer => some .integer
  | add, .float, .float | sub, .float, .float | mul, .float, .float | div, .float, .float => some .float
  | add, .string, .string => some .string
  | remainder, _, _ | power, _, _ => some .float
  | smaller, s, t | larger, s, t | both, s, t | either, s, t => if s = t then some t else none
  | equal, _, _ | notEqual, _, _ | order _, _, _ | contains, _, _ | equalVectors, _, _ => some .boolean
  | addVectors d, .vector a, .vector b | subVectors d, .vector a, .vector b =>
    if a = d ∧ b = d then some (.vector d) else none
  | scaleVector d, .vector a, .float => if a = d then some (.vector d) else none
  | dot, .vector a, .vector b => if a = b then some .float else none
  | cross, .vector .three, .vector .three => some (.vector .three)
  | _, _, _ => none

/-- Operators of two arguments give what their signature says. -/
theorem Binary.holds_apply {op : Binary} {s t t' : ValueType} (hs : op.result? t t' = some s) {v w r : Value}
    (hv : t.Holds v) (hw : t'.Holds w) (h : op.apply v w = .ok r) : s.Holds r := by
  have hchoice {x : Bool} (hs : (if t = t' then some t' else none) = some s) (hr : r = if x then w else v) : s.Holds r := by
    split at hs
    · rename_i ht
      cases hs
      subst ht hr
      split
      · exact hw
      · exact hv
    · cases hs
  cases op with
  | add =>
    cases t <;> cases t' <;> cases hs
    · cases hv
      cases hw
      cases h
      exact .integer _
    · exact float_of_add (isNumber_of_float hv) hw h
    · cases hv
      cases hw
      cases h
      exact .string _
  | sub =>
    cases t <;> cases t' <;> cases hs
    · cases hv
      cases hw
      cases h
      exact .integer _
    · exact float_of_sub hv hw h
  | mul =>
    cases t <;> cases t' <;> cases hs
    · cases hv
      cases hw
      cases h
      exact .integer _
    · exact float_of_mul hv hw h
  | div =>
    cases t <;> cases t' <;> cases hs
    exact float_of_div hv hw h
  | remainder =>
    cases hs
    obtain ⟨x, -, h⟩ := bind_eq_ok.1 h
    obtain ⟨y, -, h⟩ := bind_eq_ok.1 h
    split at h
    · cases h
      exact .float _
    · cases h
  | power =>
    cases hs
    obtain ⟨x, -, h⟩ := bind_eq_ok.1 h
    obtain ⟨y, -, h⟩ := bind_eq_ok.1 h
    split at h
    · cases h
      exact .float _
    · cases h
    · cases h
  | smaller | larger =>
    obtain ⟨isOther, -, h⟩ := bind_eq_ok.1 h
    cases h
    exact hchoice hs rfl
  | both =>
    cases h
    exact hchoice hs rfl
  | either =>
    cases h
    refine hchoice (x := !v.truth) hs ?_
    cases v.truth <;> rfl
  | truncDiv =>
    cases t <;> cases t' <;> cases hs
    exact integer_of_truncDiv hv hw h
  | truncMod =>
    cases t <;> cases t' <;> cases hs
    obtain ⟨q, hq, h⟩ := bind_eq_ok.1 h
    obtain ⟨p, hp, h⟩ := bind_eq_ok.1 h
    obtain ⟨i, rfl⟩ := int_of_holds (integer_of_truncDiv hv hw hq)
    obtain ⟨m, rfl⟩ := int_of_holds hv
    obtain ⟨n, rfl⟩ := int_of_holds hw
    cases hp
    cases h
    exact .integer _
  | equal | notEqual =>
    cases hs
    cases h
    exact .boolean _
  | order _ | contains | equalVectors =>
    cases hs
    obtain ⟨b, -, rfl⟩ := map_eq_ok.1 h
    exact .boolean b
  | addVectors d =>
    cases t <;> cases t' <;> simp only [result?] at hs <;> try cases hs
    split at hs
    · rename_i hd
      obtain ⟨rfl, rfl⟩ := hd
      cases hs
      exact holds_zipVectors (fun _ _ _ ha hb => float_of_add (isNumber_of_float ha) hb) hv hw h
    · cases hs
  | subVectors d =>
    cases t <;> cases t' <;> simp only [result?] at hs <;> try cases hs
    split at hs
    · rename_i hd
      obtain ⟨rfl, rfl⟩ := hd
      cases hs
      exact holds_zipVectors (fun _ _ _ ha hb => float_of_sub ha hb) hv hw h
    · cases hs
  | scaleVector d =>
    cases t <;> cases t' <;> simp only [result?] at hs <;> try cases hs
    split at hs
    · rename_i hd
      subst hd
      cases hs
      exact holds_scaleVector hv hw h
    · cases hs
  | dot =>
    cases t <;> cases t' <;> simp only [result?] at hs <;> try cases hs
    split at hs
    · rename_i hd
      subst hd
      cases hs
      exact float_of_dot hv hw h
    · cases hs
  | cross =>
    cases hv <;> cases hw <;> cases hs
    exact holds_cross (.vec3 ..) (.vec3 ..) h

/-- The type of what the operator makes of values of the types. -/
def Ternary.result? : Ternary → ValueType → ValueType → ValueType → Option ValueType
  | clamp, s, t, t' => if s = t ∧ s = t' then some s else none
  | blend, .float, .float, .float => some .float
  | blendVectors d, .vector a, .vector b, .float => if a = d ∧ b = d then some (.vector d) else none
  | _, _, _, _ => none

/-- Operators of three arguments give what their signature says. -/
theorem Ternary.holds_apply {op : Ternary} {s t t' t'' : ValueType} (hs : op.result? t t' t'' = some s) {v w x r : Value}
    (hv : t.Holds v) (hw : t'.Holds w) (hx : t''.Holds x) (h : op.apply v w x = .ok r) : s.Holds r := by
  cases op with
  | clamp =>
    simp only [result?] at hs
    split at hs
    · rename_i ht
      obtain ⟨rfl, rfl⟩ := ht
      cases hs
      obtain ⟨y, hy, h⟩ := bind_eq_ok.1 h
      have hsame (op : Binary) (hop : op = .smaller ∨ op = .larger) : op.result? s s = some s := by
        rcases hop with rfl | rfl <;> exact if_pos rfl
      exact Binary.holds_apply (hsame .larger (.inr rfl)) hw (Binary.holds_apply (hsame .smaller (.inl rfl)) hx hv hy) h
    · cases hs
  | blend =>
    cases t <;> cases t' <;> cases t'' <;> cases hs
    exact float_of_blend hv hw hx h
  | blendVectors d =>
    cases t <;> cases t' <;> cases t'' <;> simp only [result?] at hs <;> try cases hs
    split at hs
    · rename_i hd
      obtain ⟨rfl, rfl⟩ := hd
      cases hs
      exact holds_zipVectors (fun _ _ _ ha hb => float_of_blend ha hb hx) hv hw h
    · cases hs

/-- The type of what the conversion makes of a value of the type. -/
def Conversion.result? : Conversion → ValueType → Option ValueType
  | toFloat, .integer => some .float
  | toText, .integer | toText, .float | booleanText, .boolean => some .string
  | _, _ => none

theorem Conversion.holds_apply {c : Conversion} {s t : ValueType} (hs : c.result? t = some s) {v r : Value}
    (h : c.apply v = .ok r) : s.Holds r := by
  unfold result? at hs
  split at hs <;> cases hs
  · exact float_of_toFloat h
  · exact string_of_display h
  · exact string_of_display h
  · cases h
    exact .string _

/-- The type of the first socket of that name among those that the source names itself, if it carries data. -/
def SocketSource.typeOf? (source : SocketSource) (name : String) : Option ValueType :=
  (source.own.find? (·.name = name)).bind fun s => if s.isFlow then none else Catalogue.typeOf? s.valueType

/-- What the behaviour makes of inputs of the types has the types of the outputs. -/
def FunctionBehaviour.isTyped (ins outs : String → Option ValueType) : FunctionBehaviour → Bool
  | unary a output op => (outs output).isSome && (ins a).bind op.result? = outs output
  | binary a b output op =>
    (outs output).isSome && ((ins a).bind fun s => (ins b).bind fun t => op.result? s t) = outs output
  | ternary a b c output op =>
    (outs output).isSome &&
      ((ins a).bind fun s => (ins b).bind fun t => (ins c).bind fun t' => op.result? s t t') = outs output
  | constant output v => (outs output).any (·.holds v)
  | makeVector d => d.axes.all (ins · = some .float) && outs "result" = some (.vector d)
  | breakVector d => ins "vector" = some (.vector d) && d.axes.all (outs · = some .float)
  | getVariable => true
  | now => outs "seconds" = some .float
  | getState _ | script _ => false

/-- A typed behaviour suits every contract in which its inputs and outputs have their types. -/
theorem FunctionBehaviour.suits_of_isTyped {ins outs : String → Option ValueType} {y : FunctionBehaviour}
    (hy : y.isTyped ins outs = true) {takes gives : String → Value → Prop}
    (htakes : ∀ {name v t}, takes name v → ins name = some t → t.Holds v)
    (hgives : ∀ {name v t}, outs name = some t → t.Holds v → gives name v) : y.Suits takes gives := by
  cases y with
  | unary a output op =>
    intro v r hv h
    simp only [isTyped, Bool.and_eq_true, decide_eq_true_eq] at hy
    obtain ⟨s, hs⟩ := Option.isSome_iff_exists.1 hy.1
    obtain ⟨t, ht, hop⟩ := Option.bind_eq_some_iff.1 (hy.2.trans hs)
    exact hgives hs (op.holds_apply hop (htakes hv ht) h)
  | binary a b output op =>
    intro v w r hv hw h
    simp only [isTyped, Bool.and_eq_true, decide_eq_true_eq] at hy
    obtain ⟨s, hs⟩ := Option.isSome_iff_exists.1 hy.1
    obtain ⟨t, ht, hop⟩ := Option.bind_eq_some_iff.1 (hy.2.trans hs)
    obtain ⟨t', ht', hop⟩ := Option.bind_eq_some_iff.1 hop
    exact hgives hs (op.holds_apply hop (htakes hv ht) (htakes hw ht') h)
  | ternary a b c output op =>
    intro v w x r hv hw hx h
    simp only [isTyped, Bool.and_eq_true, decide_eq_true_eq] at hy
    obtain ⟨s, hs⟩ := Option.isSome_iff_exists.1 hy.1
    obtain ⟨t, ht, hop⟩ := Option.bind_eq_some_iff.1 (hy.2.trans hs)
    obtain ⟨t', ht', hop⟩ := Option.bind_eq_some_iff.1 hop
    obtain ⟨t'', ht'', hop⟩ := Option.bind_eq_some_iff.1 hop
    exact hgives hs (op.holds_apply hop (htakes hv ht) (htakes hw ht') (htakes hx ht'') h)
  | constant output v =>
    obtain ⟨t, ht, hv⟩ := (Option.any_eq_true _ _).1 hy
    exact hgives ht ((ValueType.holds_iff t v).1 hv)
  | makeVector d =>
    intro cs r hcs h
    simp only [isTyped, Bool.and_eq_true, List.all_eq_true, decide_eq_true_eq] at hy
    refine hgives hy.2 (holds_vector (fun c hc => ?_) h)
    obtain ⟨axis, haxis, hc⟩ := mem_right_of_forall₂ hcs hc
    exact htakes hc (hy.1 axis haxis)
  | breakVector d =>
    intro v r axis haxis hv h
    simp only [isTyped, Bool.and_eq_true, List.all_eq_true, decide_eq_true_eq] at hy
    exact hgives (hy.2 axis haxis) (float_of_coordinate (htakes hv hy.1) h)
  | getVariable => trivial
  | now =>
    intro v r h
    exact hgives (of_decide_eq_true hy) (float_of_toFloat h)
  | getState _ | script _ => cases hy

namespace Definition

/-- The sockets for what the behaviour reads and writes have the types of what is read and written. -/
def isTypedData (d : Definition) : Bool :=
  match d.behaviour with
  | .event (some .update) => d.outputs.typeOf? "delta_seconds" = some .float
  | .flow (some .forLoop) => d.inputs.typeOf? "first_index" = some .integer && d.outputs.typeOf? "index" = some .integer
  | .flow (some .flipFlop) => d.outputs.typeOf? "is_A" = some .boolean
  | .flow (some .counter) => d.outputs.typeOf? "count" = some .integer
  | .function (some y) => y.isTyped d.inputs.typeOf? d.outputs.typeOf?
  | _ => true

def isTypedState (d : Definition) : Bool :=
  match d.behaviour, d.initialState with
  | .flow (some .counter), .dict fields => (fields.lookup "count").all ValueType.integer.holds
  | _, _ => true

/-- Sockets that stand for a declaration are not named twice. -/
def isTypedNames (d : Definition) : Bool :=
  [d.inputs, d.outputs].all fun source =>
    (!source.isOfVariable || source.own.all (·.name ≠ "value")) && (!source.isOfEvent || source.own.all (·.name = "exec"))

/-- The definition keeps to the types of its sockets. -/
structure Typed (d : Definition) : Prop where
  fit : d.Fit
  data : d.isTypedData = true
  state : d.isTypedState = true
  names : d.isTypedNames = true

instance (d : Definition) : Decidable d.Typed :=
  decidable_of_iff (d.Fit ∧ d.isTypedData = true ∧ d.isTypedState = true ∧ d.isTypedNames = true)
    ⟨fun ⟨h₁, h₂, h₃, h₄⟩ => ⟨h₁, h₂, h₃, h₄⟩, fun h => ⟨h.fit, h.data, h.state, h.names⟩⟩

end Definition

namespace Catalogue

/-- The profiles whose nodes have nothing to do with the state of the host. -/
def statelessProfiles : List Profile := [core, vectors]

def stateless : Registry := (Registry.create statelessProfiles [] false).toOption.getD {}

theorem create_stateless : Registry.create statelessProfiles [] false = .ok stateless :=
  ok_of_toBool (by decide +kernel) {}

theorem typed_definitions : ∀ d ∈ coreNodes ++ vectorDefinitions, d.Typed := by
  decide +kernel

theorem result?_conversions : ∀ p ∈ coreConversions, ∃ s t, typeOf? p.1.1 = some s ∧ typeOf? p.1.2 = some t ∧
    p.2.result? s = some t := by
  intro p hp
  simp only [coreConversions, List.mem_cons, List.not_mem_nil, or_false] at hp
  rcases hp with rfl | rfl | rfl | rfl
  · exact ⟨.integer, .float, by decide, by decide, rfl⟩
  · exact ⟨.integer, .string, by decide, by decide, rfl⟩
  · exact ⟨.float, .string, by decide, by decide, rfl⟩
  · exact ⟨.boolean, .string, by decide, by decide, rfl⟩

end Catalogue

namespace Registry

/-- What a conversion leads to is of the type that it is registered for. -/
def Converts (r : Registry) : Prop :=
  ∀ p ∈ r.conversions.entries, ∃ s t, Catalogue.typeOf? p.1.1 = some s ∧ Catalogue.typeOf? p.1.2 = some t ∧
    p.2.result? s = some t

theorem conversions_extend (r : Registry) (e : Extension) :
    (r.extend e).conversions = e.conversions.entries.foldl (fun t c => t.set c.1 c.2) r.conversions := by
  unfold extend
  rw [services_frame conversions (fun _ _ => rfl), foldl_part addConversion conversions (fun t c => t.set c.1 c.2)
    (fun _ _ => rfl), foldl_frame addNode conversions (fun _ _ => rfl), foldl_frame addValue conversions (fun _ _ => rfl)]

/-- The profiles without state come out as the core nodes and the vectors. -/
theorem standard_of_stateless {services : List Service} {check : Bool} {r : Registry}
    (h : create Catalogue.statelessProfiles services check = .ok r) :
    Standard (Catalogue.coreNodes ++ Catalogue.vectorDefinitions) r ∧ r.Converts := by
  obtain ⟨folded, hfolded, rfl⟩ := create_eq_ok h
  obtain ⟨r₁, h₁, h⟩ := bind_eq_ok.1 hfolded
  obtain ⟨r₂, h₂, h⟩ := bind_eq_ok.1 h
  cases h
  cases h₁
  obtain ⟨-, -, h₂⟩ := bind_eq_ok.1 h₂
  cases h₂
  refine ⟨⟨?_, ?_⟩, ?_⟩
  · apply valueType?_eq
    simp only [values_extend]
    rfl
  · intro e he
    simp only [nodes_extend, ← List.foldl_append] at he
    rcases mem_foldl_set he with he | ⟨hname, hmem⟩
    · cases he
    · refine ⟨hname, ?_⟩
      rw [List.append_nil] at hmem
      exact hmem
  · intro p hp
    simp only [conversions_extend, List.foldl_nil] at hp
    rcases Table.mem_foldl_set hp with hp | hp
    · cases hp
    · exact Catalogue.result?_conversions p (Table.mem_entries_ofList hp)

/-- What comes across a link is of the type of the input, if it comes from a value of the type of the output. -/
theorem types_convert {ds : List Definition} {r : Registry} (hr : r.Standard ds) (hc : r.Converts) {source target : String}
    {v w : Value} (hv : r.Types source v) (h : r.convert v source target = .ok w) : r.Types target w := by
  unfold convert at h
  split at h
  · rename_i hsame
    subst hsame
    obtain ⟨t, ht, hv⟩ := hv
    rw [ht] at h
    have h := lifted_eq_ok.1 h
    rw [hv.clone] at h
    cases h
    exact ⟨t, ht, hv⟩
  · split at h
    · rename_i c hconversion
      obtain ⟨s, t, hs, ht, hresult⟩ := hc _ (Table.mem_entries_of_get? hconversion)
      exact ⟨t, hr.valueType_eq_ok.2 ht, c.holds_apply hresult (lifted_eq_ok.1 h)⟩
    · cases h

end Registry

end FlowGraph
