import FlowGraph.Number.Double
import Mathlib.Algebra.Ring.Nat

/-!
The sum of two doubles that are not negative is not below either of them. The word of such a double counts the numbers up to
it, an exponent's worth of significands at a time, so rounding a larger number cannot lead to a smaller word.
-/
namespace FlowGraph.Double

open Float.Model Float.Model.UnpackedFloat

/-- The word of a number that is not negative, as the machine takes it apart. -/
inductive Stands : Nat → UnpackedFloat → Prop where
  | zero : Stands 0 (.zero .positive)
  | finite {m k : Nat} (hm : 0 < m) (hbound : m < 2 ^ 53) (hk : k < 2046) (hnormal : 2 ^ 52 ≤ m ∨ k = 0) :
      Stands (k * 2 ^ 52 + m) (.finite .positive m (k - 1074) hm)
  | infinity : Stands (2047 * 2 ^ 52) (.infinity .positive)

theorem Stands.of_eq {p m k : Nat} {e : Int} (hm : 0 < m) (hbound : m < 2 ^ 53) (hk : k < 2046)
    (hnormal : 2 ^ 52 ≤ m ∨ k = 0) (hp : p = k * 2 ^ 52 + m) (he : e = k - 1074) :
    Stands p (.finite .positive m e hm) := by
  subst hp he
  exact .finite hm hbound hk hnormal

theorem toNat_packComponents (e : BitVec 11) (m : BitVec 52) :
    (packComponents Format.binary64 .positive e m).toNat = e.toNat * 2 ^ 52 + m.toNat := by
  unfold packComponents
  simp only [Sign.toBitVec, BitVec.toNat_append]
  rw [← Nat.shiftLeft_add_eq_or_of_lt m.isLt]
  simp [Nat.shiftLeft_eq]

theorem toNat_unpackMantissa (b : BitVec 64) : (@unpackMantissa Format.binary64 b).toNat = b.toNat % 2 ^ 52 := by
  simp [unpackMantissa]

theorem toNat_unpackExponent (b : BitVec 64) :
    (@unpackExponent Format.binary64 b).toNat = b.toNat / 2 ^ 52 % 2 ^ 11 := by
  simp [unpackExponent, Nat.shiftRight_eq_div_pow]

theorem toNat_unpackSign (b : BitVec 64) : (@unpackSign Format.binary64 b).toNat = b.toNat / 2 ^ 63 % 2 := by
  delta unpackSign
  simp [Nat.shiftRight_eq_div_pow]

/-- A word that stands for a number is unpacked to it. -/
theorem stands_unpack {b : BitVec 64} (h : b.toNat ≤ 2047 * 2 ^ 52) :
    Stands b.toNat (UnpackedFloat.unpack Format.binary64 b) := by
  have hsign : @unpackSign Format.binary64 b = 0#1 := by
    apply BitVec.eq_of_toNat_eq
    rw [toNat_unpackSign, BitVec.toNat_ofNat]
    omega
  have hmantissa := toNat_unpackMantissa b
  have hexponent := toNat_unpackExponent b
  have hmbound : b.toNat % 2 ^ 52 < 2 ^ 52 := Nat.mod_lt _ (by decide)
  unfold UnpackedFloat.unpack
  rw [hsign]
  dsimp only
  by_cases he : @unpackExponent Format.binary64 b = -1#(Format.binary64.exponentBits)
  · rw [if_pos he]
    rw [he] at hexponent
    have hall : b.toNat / 2 ^ 52 % 2 ^ 11 = 2047 := hexponent.symm
    have hb : b.toNat = 2047 * 2 ^ 52 := by omega
    have hm : @unpackMantissa Format.binary64 b = 0#_ := by
      apply BitVec.eq_of_toNat_eq
      rw [hmantissa]
      show b.toNat % 2 ^ 52 = 0
      omega
    rw [if_pos hm, hb]
    exact .infinity
  · rw [if_neg he]
    have hlimit : b.toNat / 2 ^ 52 % 2 ^ 11 ≠ 2047 := fun h => he (BitVec.eq_of_toNat_eq (hexponent.trans h))
    by_cases hz : @unpackExponent Format.binary64 b = 0#(Format.binary64.exponentBits)
    · rw [if_pos hz]
      rw [hz] at hexponent
      have hnone : b.toNat / 2 ^ 52 % 2 ^ 11 = 0 := hexponent.symm
      by_cases hm : @unpackMantissa Format.binary64 b = 0#(Format.binary64.mantissaBitsWithoutImplicit)
      · rw [dif_pos hm]
        rw [hm] at hmantissa
        have hnone' : b.toNat % 2 ^ 52 = 0 := hmantissa.symm
        rw [show b.toNat = 0 by omega]
        exact .zero
      · rw [dif_neg hm]
        refine .of_eq _ (k := 0) (by omega) (by omega) (.inr rfl) (by omega) ?_
        rw [hz]
        rfl
    · rw [if_neg hz]
      have hsome : b.toNat / 2 ^ 52 % 2 ^ 11 ≠ 0 := fun h => hz (BitVec.eq_of_toNat_eq (hexponent.trans h))
      have hm : (1#1 ++ @unpackMantissa Format.binary64 b).toNat = 2 ^ 52 + b.toNat % 2 ^ 52 := by
        rw [BitVec.toNat_append, ← Nat.shiftLeft_add_eq_or_of_lt (BitVec.isLt _), hmantissa]
        rfl
      refine .of_eq _ (k := b.toNat / 2 ^ 52 - 1) (by omega) (by omega) (.inl (by omega)) (by omega) ?_
      rw [hexponent]
      show ((b.toNat / 2 ^ 52 % 2 ^ 11 : Nat) : Int) - (1023 + 52) = _
      omega

/-- The word of a rounded number, which is infinity where the exponent is too large. -/
theorem toNat_pack_finite {m k : Nat} (hm : 0 < m) (hbound : m < 2 ^ 53) (hnormal : 2 ^ 52 ≤ m ∨ k = 0) :
    (UnpackedFloat.pack Format.binary64 (.finite .positive m (k - 1074) hm)).toNat =
      min (k * 2 ^ 52 + m) (2047 * 2 ^ 52) := by
  unfold UnpackedFloat.pack
  have hbiased : ((k - 1074 : Int) + Format.binary64.exponentBias + Format.binary64.mantissaBitsWithoutImplicit).toNat
      = k + 1 := by
    show ((k - 1074 : Int) + (1023 : Nat) + (52 : Nat)).toNat = _
    omega
  simp only [hbiased]
  split
  · rename_i hlarge
    have hlarge : 2 ^ 11 ≤ k + 1 + 1 := hlarge
    rw [packedInfinity, toNat_packComponents]
    show 2047 * 2 ^ 52 + 0 = _
    omega
  · rename_i hsmall
    have hsmall : ¬2 ^ 11 ≤ k + 1 + 1 := hsmall
    split
    · rename_i hlog
      have hlog : m.log2 + 1 = 53 := hlog
      have hlow : 2 ^ 52 ≤ m := by
        have := Nat.log2_self_le (n := m) (by omega)
        rw [show m.log2 = 52 by omega] at this
        exact this
      rw [toNat_packComponents, BitVec.toNat_ofNat, BitVec.toNat_ofNat]
      show (k + 1) % 2 ^ 11 * 2 ^ 52 + m % 2 ^ 52 = _
      omega
    · rename_i hlog
      have hlog : ¬m.log2 + 1 = 53 := hlog
      have hlow : m < 2 ^ 52 := by
        have hle : m.log2 ≤ 52 := Nat.lt_succ_iff.1 ((Nat.log2_lt (by omega)).2 hbound)
        exact (Nat.log2_lt (by omega)).1 (by omega)
      rw [toNat_packComponents, BitVec.toNat_ofNat]
      show 0 * 2 ^ 52 + m % 2 ^ 52 = _
      omega

theorem toNat_pack {p : Nat} {u : UnpackedFloat} (h : Stands p u) : (UnpackedFloat.pack Format.binary64 u).toNat = p := by
  cases h with
  | zero => rfl
  | finite hm hbound hk hnormal =>
    rw [toNat_pack_finite hm hbound hnormal]
    omega
  | infinity => rfl

/-! ## Rounding -/

theorem mantissa_shiftRight (em : ExtendedMantissa) (n : Nat) : (em >>> n).mantissa = em.mantissa / 2 ^ n := by
  show (Nat.repeat ExtendedMantissa.shiftRightOne n em).mantissa = _
  induction n with
  | zero => simp [Nat.repeat]
  | succ n ih =>
    show (Nat.repeat ExtendedMantissa.shiftRightOne n em).shiftRightOne.mantissa = _
    rw [ExtendedMantissa.shiftRightOne, ih, Nat.div_div_eq_div_mul, Nat.pow_succ]

/-- Rounding goes up by one at most, and never down. -/
theorem roundedMantissa_bounds (em : ExtendedMantissa) :
    em.mantissa ≤ em.roundedMantissa ∧ em.roundedMantissa ≤ em.mantissa + 1 := by
  unfold ExtendedMantissa.roundedMantissa ExtendedMantissa.accuracy
  split <;> simp only [Accuracy.roundToNearestEven] <;> omega

/-- The exponent, counted from the least one, that a number of so many bits is written with. -/
def level (m k : Nat) : Nat := k + (m.log2 + 1) - 53

theorem targetExponent_eq (m k : Nat) :
    Format.binary64.targetExponent (totalExponent m ((k : Int) - 1074)) = (level m k : Int) - 1074 := by
  show max (((m.log2 + 1 : Nat) : Int) + ((k : Int) - 1074) - 53) (3 - 2 ^ 10 - 53) = _
  unfold level
  omega

/-- The bits of a number that are left when it is written with its exponent. -/
def kept (m k : Nat) : Nat := m * 2 ^ (k - level m k) / 2 ^ (level m k - k)

theorem kept_lt (m k : Nat) : kept m k < 2 ^ 53 := by
  have hlog : m < 2 ^ (m.log2 + 1) := Nat.lt_log2_self
  have hlevel : k + (m.log2 + 1) - 53 = level m k := rfl
  refine Nat.div_lt_of_lt_mul ?_
  calc m * 2 ^ (k - level m k) < 2 ^ (m.log2 + 1) * 2 ^ (k - level m k) :=
        Nat.mul_lt_mul_of_pos_right hlog (Nat.two_pow_pos _)
    _ = 2 ^ (m.log2 + 1 + (k - level m k)) := (Nat.pow_add ..).symm
    _ ≤ 2 ^ (level m k - k + 53) := Nat.pow_le_pow_right (by decide) (by omega)
    _ = 2 ^ (level m k - k) * 2 ^ 53 := Nat.pow_add ..

theorem le_kept {m k : Nat} (hm : 0 < m) (h : 0 < level m k) : 2 ^ 52 ≤ kept m k := by
  have hlog : 2 ^ m.log2 ≤ m := Nat.log2_self_le (by omega)
  have hlevel : k + (m.log2 + 1) - 53 = level m k := rfl
  refine (Nat.le_div_iff_mul_le (Nat.two_pow_pos _)).2 ?_
  calc 2 ^ 52 * 2 ^ (level m k - k) = 2 ^ (52 + (level m k - k)) := (Nat.pow_add ..).symm
    _ ≤ 2 ^ (m.log2 + (k - level m k)) := Nat.pow_le_pow_right (by decide) (by omega)
    _ = 2 ^ m.log2 * 2 ^ (k - level m k) := Nat.pow_add ..
    _ ≤ m * 2 ^ (k - level m k) := Nat.mul_le_mul_right _ hlog

theorem log2_mul_two_pow {m : Nat} (hm : 0 < m) (j : Nat) : (m * 2 ^ j).log2 = m.log2 + j := by
  rw [Nat.log2_eq_iff (Nat.mul_ne_zero (by omega) (Nat.ne_of_gt (Nat.two_pow_pos j))), Nat.add_right_comm, Nat.pow_add,
    Nat.pow_add _ (_ + 1)]
  exact ⟨Nat.mul_le_mul_right _ (Nat.log2_self_le (by omega)),
    Nat.mul_lt_mul_of_pos_right Nat.lt_log2_self (Nat.two_pow_pos _)⟩

theorem shiftToTargetExponent_eq (m k : Nat) (a : Accuracy) :
    shiftToTargetExponent Format.binary64 m ((k : Int) - 1074) a =
      (ExtendedMantissa.ofMantissaAndAccuracy m a >>> (level m k - k), ((max k (level m k) : Nat) : Int) - 1074) := by
  unfold shiftToTargetExponent
  rw [targetExponent_eq]
  simp only [shiftToExponent]
  rw [show ((level m k : Int) - 1074 - (k - 1074)).toNat = level m k - k by omega]
  refine Prod.ext rfl ?_
  show (k : Int) - 1074 + (level m k - k : Nat) = _
  omega

theorem kept_pos {m : Nat} (hm : 0 < m) (k : Nat) : 0 < kept m k := by
  by_cases h : 0 < level m k
  · exact Nat.lt_of_lt_of_le (by decide) (le_kept hm h)
  · rw [kept, Nat.eq_zero_of_not_pos h, Nat.zero_sub, Nat.pow_zero, Nat.div_one]
    exact Nat.mul_pos hm (Nat.two_pow_pos _)

/-- The number that rounded bits with an exponent stand for, with one bit dropped if there is one too many. -/
def settled (R L : Nat) : UnpackedFloat :=
  if h : R / 2 ^ (level R L - L) = 0 then .zero .positive
  else .finite .positive (R / 2 ^ (level R L - L)) ((max L (level R L) : Nat) - 1074) (Nat.pos_of_ne_zero h)

theorem finite_congr {m m' : Nat} {e e' : Int} (hm : 0 < m) (hm' : 0 < m') (h : m = m') (he : e = e') :
    UnpackedFloat.finite .positive m e hm = .finite .positive m' e' hm' := by
  subst h he
  rfl

/-- Rounding is shifting to the level of the number, and settling what is left. -/
theorem roundWithAccuracy_eq (m k : Nat) (a : Accuracy) :
    roundWithAccuracy Format.binary64 .positive m ((k : Int) - 1074) a =
      settled (ExtendedMantissa.ofMantissaAndAccuracy m a >>> (level m k - k)).roundedMantissa (max k (level m k)) := by
  unfold roundWithAccuracy
  rw [shiftToTargetExponent_eq]
  dsimp only
  rw [shiftToTargetExponent_eq]
  generalize (ExtendedMantissa.ofMantissaAndAccuracy m a >>> (level m k - k)).roundedMantissa = R
  generalize max k (level m k) = L
  have hmantissa := mantissa_shiftRight (ExtendedMantissa.ofMantissaAndAccuracy R .exact) (level R L - L)
  by_cases h : R / 2 ^ (level R L - L) = 0
  · rw [settled, dif_pos h, dif_pos (hmantissa.trans h)]
  · rw [settled, dif_neg h, dif_neg fun hzero => h (hmantissa.symm.trans hzero)]
    exact finite_congr _ _ hmantissa rfl

/-- What is settled is a mantissa and an exponent in range, and stands for the same number. -/
theorem settled_eq {R L : Nat} (hR : 0 < R) (hbound : R ≤ 2 ^ 53) (hnormal : 2 ^ 52 ≤ R ∨ L = 0) :
    ∃ (r e : Nat) (hr : 0 < r), settled R L = .finite .positive r (e - 1074) hr ∧ r < 2 ^ 53 ∧ (2 ^ 52 ≤ r ∨ e = 0) ∧
      e * 2 ^ 52 + r = L * 2 ^ 52 + R := by
  have hlevel : level R L = L + (R.log2 + 1) - 53 := rfl
  rcases Nat.lt_or_eq_of_le hbound with hlt | rfl
  · have hlog : R.log2 < 53 := (Nat.log2_lt (by omega)).2 hlt
    have hshift : R / 2 ^ (level R L - L) = R := by
      rw [show level R L - L = 0 by omega, Nat.pow_zero, Nat.div_one]
    refine ⟨R, L, hR, ?_, hlt, hnormal, rfl⟩
    rw [settled, dif_neg (by omega)]
    exact finite_congr _ _ (by omega) (by omega)
  · have hlog : (2 ^ 53).log2 = 53 := Nat.log2_two_pow
    have hshift : 2 ^ 53 / 2 ^ (level (2 ^ 53) L - L) = 2 ^ 52 :=
      (congrArg (fun k => 2 ^ 53 / 2 ^ k) (show level (2 ^ 53) L - L = 1 by omega)).trans (by decide)
    refine ⟨2 ^ 52, L + 1, by decide, ?_, by decide, .inl (Nat.le_refl _), by omega⟩
    rw [settled, dif_neg (by omega)]
    exact finite_congr _ _ (by omega) (by omega)

/-- An exact number is rounded at its own level. -/
theorem round_eq_settled {m : Nat} (hm : 0 < m) (k : Nat) : UnpackedFloat.round Format.binary64 .positive m (k - 1074) =
    settled (ExtendedMantissa.ofMantissaAndAccuracy (m * 2 ^ (k - level m k)) .exact >>> (level m k - k)).roundedMantissa
      (level m k) := by
  have hlevel : k + (m.log2 + 1) - 53 = level m k := rfl
  have hscaled : level (m * 2 ^ (k - level m k)) (k - (k - level m k)) = level m k := by
    rw [level, log2_mul_two_pow hm]
    omega
  have hdecrease : decreaseExponent m (k - 1074) (level m k - 1074) =
      (m * 2 ^ (k - level m k), ((k - (k - level m k) : Nat) : Int) - 1074) := by
    simp only [decreaseExponent]
    rw [show ((k : Int) - 1074 - (level m k - 1074)).toNat = k - level m k by omega, Nat.shiftLeft_eq]
    refine Prod.ext rfl ?_
    show (k : Int) - 1074 - (k - level m k : Nat) = _
    omega
  simp only [UnpackedFloat.round, targetExponent_eq, hdecrease, roundWithAccuracy_eq, hscaled]
  rw [show level m k - (k - (k - level m k)) = level m k - k by omega,
    show max (k - (k - level m k)) (level m k) = level m k by omega]

/-- Rounding gives the bits that are left, or one more; one more than all of them goes to the next exponent. -/
theorem round_eq {m : Nat} (hm : 0 < m) (k : Nat) : ∃ (r e R : Nat) (hr : 0 < r),
    UnpackedFloat.round Format.binary64 .positive m (k - 1074) = .finite .positive r (e - 1074) hr ∧ r < 2 ^ 53 ∧
      (2 ^ 52 ≤ r ∨ e = 0) ∧ kept m k ≤ R ∧ e * 2 ^ 52 + r = level m k * 2 ^ 52 + R := by
  rw [round_eq_settled hm]
  generalize hem : ExtendedMantissa.ofMantissaAndAccuracy (m * 2 ^ (k - level m k)) .exact >>> (level m k - k) = em
  have hmantissa : em.mantissa = kept m k := by
    rw [← hem, mantissa_shiftRight]
    rfl
  obtain ⟨hlow, hhigh⟩ := roundedMantissa_bounds em
  have hpos := kept_pos hm k
  have hbound := kept_lt m k
  have hnormal : 2 ^ 52 ≤ em.roundedMantissa ∨ level m k = 0 := by
    by_cases h : 0 < level m k
    · exact .inl (Nat.le_trans (le_kept hm h) (hmantissa ▸ hlow))
    · exact .inr (by omega)
  obtain ⟨r, e, hr, hsettled, hrest⟩ := settled_eq (R := em.roundedMantissa) (by omega) (by omega) hnormal
  exact ⟨r, e, em.roundedMantissa, hr, hsettled, hrest.1, hrest.2.1, hmantissa ▸ hlow, hrest.2.2⟩

/-- A number that is at least another one, written with its own exponent, does not come out below it. -/
theorem word_le {m k m' k' : Nat} (hm' : 0 < m') (hbound : m' < 2 ^ 53) (hnormal : 2 ^ 52 ≤ m' ∨ k' = 0) (hk : k ≤ k')
    (hle : m' * 2 ^ (k' - k) ≤ m) : k' * 2 ^ 52 + m' ≤ level m k * 2 ^ 52 + kept m k := by
  have hm : 0 < m := Nat.lt_of_lt_of_le (Nat.mul_pos hm' (Nat.two_pow_pos _)) hle
  have hlevel : k + (m.log2 + 1) - 53 = level m k := rfl
  have hup : k' ≤ level m k := by
    rcases hnormal with hnormal | rfl
    · have : 52 + (k' - k) ≤ m.log2 := by
        rw [Nat.le_log2 (by omega), Nat.pow_add]
        exact Nat.le_trans (Nat.mul_le_mul_right _ hnormal) hle
      omega
    · exact Nat.zero_le _
  rcases Nat.lt_or_eq_of_le hup with hlt | heq
  · have := le_kept hm (Nat.lt_of_le_of_lt (Nat.zero_le _) hlt)
    omega
  · have : m' ≤ kept m k := by
      unfold kept
      rw [← heq, Nat.sub_eq_zero_of_le hk, Nat.pow_zero, Nat.mul_one]
      exact (Nat.le_div_iff_mul_le (Nat.two_pow_pos _)).2 hle
    omega

theorem Stands.le {p : Nat} {u : UnpackedFloat} (h : Stands p u) : p ≤ 2047 * 2 ^ 52 := by
  cases h <;> omega

/-- The sum of two finite numbers is rounded from their sum at the lower of their exponents. -/
theorem add_finite {m k m' k' : Nat} (hm : 0 < m) (hm' : 0 < m') :
    UnpackedFloat.add Format.binary64 (.finite .positive m (k - 1074) hm) (.finite .positive m' (k' - 1074) hm') =
      UnpackedFloat.round Format.binary64 .positive (m * 2 ^ (k - min k k') + m' * 2 ^ (k' - min k k'))
        ((min k k' : Nat) - 1074) := by
  have hmin : min ((k : Int) - 1074) (k' - 1074) = (min k k' : Nat) - 1074 := by omega
  have hshift (j : Nat) : ((j : Int) - 1074 - ((min k k' : Nat) - 1074)).toNat = j - min k k' := by omega
  have hpos : 0 < m * 2 ^ (k - min k k') := Nat.mul_pos hm (Nat.two_pow_pos _)
  unfold UnpackedFloat.add
  simp only [decreaseExponent, hmin, hshift, Nat.shiftLeft_eq, Sign.apply]
  rw [← Int.natCast_add, UnpackedFloat.normalize, Int.compare_eq_gt.2 (by omega)]
  rfl

theorem toNat_pack_infinity : (UnpackedFloat.pack Format.binary64 (.infinity .positive)).toNat = 2047 * 2 ^ 52 := rfl

/-- Adding a number that is not negative does not go down. -/
theorem pack_add {p q : Nat} {u v : UnpackedFloat} (hu : Stands p u) (hv : Stands q v) :
    p ≤ (UnpackedFloat.pack Format.binary64 (UnpackedFloat.add Format.binary64 u v)).toNat ∧
      (UnpackedFloat.pack Format.binary64 (UnpackedFloat.add Format.binary64 u v)).toNat ≤ 2047 * 2 ^ 52 := by
  cases hu with
  | zero =>
    have hadd : UnpackedFloat.add Format.binary64 (.zero .positive) v = v := by
      cases hv <;> rfl
    rw [hadd, toNat_pack hv]
    exact ⟨Nat.zero_le _, hv.le⟩
  | infinity =>
    have hadd : UnpackedFloat.add Format.binary64 (.infinity .positive) v = .infinity .positive := by
      cases hv <;> rfl
    rw [hadd, toNat_pack_infinity]
    exact ⟨Nat.le_refl _, Nat.le_refl _⟩
  | @finite m k hm hbound hk hnormal =>
    have hstands := Stands.finite hm hbound hk hnormal
    cases hv with
    | zero =>
      have hadd : UnpackedFloat.add Format.binary64 (.finite .positive m (k - 1074) hm) (.zero .positive) =
          .finite .positive m (k - 1074) hm := rfl
      rw [hadd, toNat_pack hstands]
      exact ⟨Nat.le_refl _, hstands.le⟩
    | infinity =>
      have hadd : UnpackedFloat.add Format.binary64 (.finite .positive m (k - 1074) hm) (.infinity .positive) =
          .infinity .positive := rfl
      rw [hadd, toNat_pack_infinity]
      exact ⟨hstands.le, Nat.le_refl _⟩
    | @finite m' k' hm' hbound' hk' hnormal' =>
      rw [add_finite]
      have hsum : m * 2 ^ (k - min k k') ≤ m * 2 ^ (k - min k k') + m' * 2 ^ (k' - min k k') := Nat.le_add_right _ _
      have hword := word_le hm hbound hnormal (Nat.min_le_left k k') hsum
      have hpos := Nat.lt_of_lt_of_le (Nat.mul_pos hm (Nat.two_pow_pos (k - min k k'))) hsum
      obtain ⟨r, e, R, hr, hround, hrbound, hrnormal, hkept, hsame⟩ := round_eq hpos (min k k')
      rw [hround, toNat_pack_finite hr hrbound hrnormal, hsame]
      exact ⟨Nat.le_min.2 ⟨Nat.le_trans hword (Nat.add_le_add_left hkept _), hstands.le⟩, Nat.min_le_right _ _⟩

theorem stands_toModel {d : Double} (hd : d.bits.toNat ≤ infinityWord) : Stands d.bits.toNat d.toFloat.toModel.unpack := by
  have hword : d.bits.toBitVec.toNat ≤ 2047 * 2 ^ 52 := hd
  have hunpacked := stands_unpack hword
  have hpacked := toNat_pack hunpacked
  have h := stands_unpack (b := UnpackedFloat.pack Format.binary64 (UnpackedFloat.unpack Format.binary64 d.bits.toBitVec))
    (by rw [hpacked]; exact hword)
  rw [hpacked] at h
  exact h

/-- The sum of two numbers without a sign has none, and is not below the first. -/
theorem toNat_bits_add {a b : Double} (ha : a.bits.toNat ≤ infinityWord) (hb : b.bits.toNat ≤ infinityWord) :
    a.bits.toNat ≤ (a.add b).bits.toNat ∧ (a.add b).bits.toNat ≤ infinityWord :=
  pack_add (stands_toModel ha) (stands_toModel hb)

theorem unpack_negZero : (toFloat ⟨0x8000000000000000⟩).toModel.unpack = .zero .negative := rfl

theorem toNat_bits_add_negZero {a : Double} (ha : a.bits.toNat ≤ infinityWord) :
    (a.add ⟨0x8000000000000000⟩).bits.toNat = a.bits.toNat := by
  show (UnpackedFloat.pack Format.binary64 (UnpackedFloat.add Format.binary64 a.toFloat.toModel.unpack
    (toFloat ⟨0x8000000000000000⟩).toModel.unpack)).toNat = _
  rw [unpack_negZero]
  have hstands := stands_toModel ha
  have hadd : UnpackedFloat.add Format.binary64 a.toFloat.toModel.unpack (.zero .negative) = a.toFloat.toModel.unpack := by
    generalize a.toFloat.toModel.unpack = u at hstands
    generalize a.bits.toNat = p at hstands
    cases hstands <;> rfl
  rw [hadd, toNat_pack hstands]

end FlowGraph.Double
