import Descent.Arithmetic.Binary
import Mathlib

/-!
# Positive integers as doubles

A positive integer that is read as a double is a positive number, however large it is: rounding
keeps its sign, and it cannot come down to zero, since the integer is far above the least number of
the format. `improves_ofInt` follows the conversion through scaling, rounding and storing.
-/

namespace Descent.Binary

open Float.Model (UnpackedFloat Format)
open Float.Model.UnpackedFloat

/-- A number above zero that a double can hold. -/
inductive Positive : UnpackedFloat → Prop where
  | infinity : Positive (.infinity .positive)
  | finite {m : Nat} {e : Int} (hm : 0 < m) : m < 2 ^ 53 → -1074 ≤ e →
    Positive (.finite .positive m e hm)

/-! ## Rounding -/

/-- A shift to the right halves the mantissa at each place. -/
theorem mantissa_shiftRight (em : ExtendedMantissa) (k : Nat) :
    (em >>> k).mantissa = em.mantissa / 2 ^ k := by
  induction k with
  | zero => exact (Nat.div_one _).symm
  | succ k ih =>
    show (em >>> k).mantissa / 2 = em.mantissa / 2 ^ (k + 1)
    rw [ih, Nat.div_div_eq_div_mul, Nat.pow_succ]

/-- Rounding to the nearest goes up from the mantissa, if anywhere. -/
theorem mantissa_le_rounded (em : ExtendedMantissa) : em.mantissa ≤ em.roundedMantissa := by
  obtain ⟨m, roundBit, stickyBit⟩ := em
  cases roundBit <;> cases stickyBit
  · exact Nat.le_refl m
  · exact Nat.le_refl m
  · exact Nat.le_add_right m _
  · exact Nat.le_add_right m 1

/-- A number that is not below the least one of the format has a mantissa that fits after the
shift, and that is not zero. -/
theorem shift_bounds {m : Nat} {e : Int} (hm : 0 < m) (hleast : -1074 ≤ (m.log2 : Int) + e) :
    let shifted := shiftToTargetExponent Format.binary64 m e .exact
    0 < shifted.1.mantissa ∧ shifted.1.mantissa < 2 ^ 53 ∧ -1074 ≤ shifted.2 := by
  intro shifted
  let k := (Format.binary64.targetExponent (Float.Model.totalExponent m e) - e).toNat
  have hmantissa : shifted.1.mantissa = m / 2 ^ k := mantissa_shiftRight _ k
  have hexponent : shifted.2 = e + k := rfl
  have hk : k = (max ((m.log2 : Int) + 1 + e - 53) (-1074) - e).toNat := rfl
  have hlow : 2 ^ m.log2 ≤ m := Nat.log2_self_le (Nat.pos_iff_ne_zero.mp hm)
  have hhigh : m < 2 ^ (m.log2 + 1) := Nat.lt_log2_self
  refine ⟨?_, ?_, ?_⟩
  · rw [hmantissa]
    have hpow : 2 ^ k ≤ 2 ^ m.log2 := Nat.pow_le_pow_right (by decide) (by omega)
    exact Nat.div_pos (hpow.trans hlow) (Nat.two_pow_pos k)
  · rw [hmantissa, Nat.div_lt_iff_lt_mul (Nat.two_pow_pos k), ← Nat.pow_add]
    have hpow : 2 ^ (m.log2 + 1) ≤ 2 ^ (53 + k) := Nat.pow_le_pow_right (by decide) (by omega)
    exact hhigh.trans_le hpow
  · rw [hexponent]
    omega

/-- Rounding keeps a positive number positive if it is not below the least one of the format. -/
theorem positive_round {m : Nat} {e : Int} (hm : 0 < m) (hleast : -1074 ≤ (m.log2 : Int) + e) :
    Positive (roundWithAccuracy Format.binary64 .positive m e .exact) := by
  obtain ⟨hpos, -, hexponent⟩ := shift_bounds hm hleast
  have hrounded := hpos.trans_le (mantissa_le_rounded _)
  -- Rounding up may take one more place, which a second shift drops.
  obtain ⟨hpos', hlt', hexponent'⟩ := shift_bounds (e := (shiftToTargetExponent Format.binary64 m e
    .exact).2) hrounded (by omega)
  unfold roundWithAccuracy
  simp only [hpos'.ne', dite_false]
  exact .finite _ hlt' hexponent'

/-! ## Storing -/

/-- Of the bits of a positive number above the mantissa, those of the exponent are not all set. -/
theorem unpack_components (exponent : BitVec 11) (mantissa : BitVec 52) (htop : exponent ≠ -1#11)
    (hzero : exponent ≠ 0#11 ∨ mantissa ≠ 0#52) :
    Positive (unpack Format.binary64
      (packComponents Format.binary64 .positive exponent mantissa)) := by
  unfold unpack
  simp only [unpackMantissa_packComponents, unpackExponent_packComponents,
    unpackSign_packComponents, Sign.ofBitVec_toBitVec]
  rw [if_neg htop]
  by_cases hexponent : exponent = 0#11
  · rw [if_pos hexponent]
    have hmantissa : mantissa ≠ 0#52 := hzero.resolve_left fun h => h hexponent
    rw [dif_neg hmantissa]
    refine .finite _ (mantissa.isLt.trans (by decide)) ?_
    show -1074 ≤ (exponent.toNat : Int) - ((1023 : Nat) + (52 : Nat)) + 1
    omega
  · rw [if_neg hexponent]
    refine .finite _ (BitVec.isLt _) ?_
    show -1074 ≤ (exponent.toNat : Int) - ((1023 : Nat) + (52 : Nat))
    have hpos : exponent.toNat ≠ 0 := fun h => hexponent (BitVec.eq_of_toNat_eq h)
    omega

/-- A positive number is stored as a positive number. -/
theorem positive_stored {u : UnpackedFloat} (h : Positive u) :
    Positive (Float.Model.pack u).unpack := by
  cases h with
  | infinity => exact .infinity
  | @finite m e hm hlt he =>
    show Positive (unpack Format.binary64 (pack Format.binary64 (.finite .positive m e hm)))
    unfold pack
    have hbias : (e + (Format.binary64.exponentBias : Int) + (52 : Nat)).toNat =
        (e + 1075).toNat := by
      show (e + ((1023 : Nat) : Int) + (52 : Nat)).toNat = _
      omega
    simp only [hbias]
    by_cases hlarge : 2 ^ 11 ≤ (e + 1075).toNat + 1
    · rw [if_pos hlarge]
      exact .infinity
    · rw [if_neg hlarge]
      by_cases hnormal : m.log2 + 1 = Format.binary64.mantissaBits
      · rw [if_pos hnormal]
        refine unpack_components _ _ ?_ (.inl ?_)
        · intro h
          have hval : (e + 1075).toNat % 2 ^ 11 = 2 ^ 11 - 1 := congrArg BitVec.toNat h
          omega
        · intro h
          have hval : (e + 1075).toNat % 2 ^ 11 = 0 := congrArg BitVec.toNat h
          omega
      · rw [if_neg hnormal]
        refine unpack_components _ _ (by decide) (.inr ?_)
        intro h
        have hval : m % 2 ^ 52 = 0 := congrArg BitVec.toNat h
        -- Without its leading bit the mantissa has 52 places.
        have hlog : m.log2 < 53 := (Nat.log2_lt hm.ne').mpr hlt
        have hshort : m.log2 ≠ 52 := fun h => hnormal (by rw [h]; rfl)
        have hlt' : m < 2 ^ 52 := (Nat.log2_lt hm.ne').mp (by omega)
        rw [Nat.mod_eq_of_lt hlt'] at hval
        omega

/-! ## Conversion -/

theorem zero_lt_of_positive {u : UnpackedFloat} (h : Positive u) :
    (UnpackedFloat.zero .positive).lt u = true := by
  cases h with
  | infinity => rfl
  | finite => rfl

/-- A double improves if it is a positive number. -/
theorem improves_of_positive {x : Float} (h : Positive x.toModel.unpack) :
    Gain.improves x = true := by
  have hzero : (0 : Float).toModel.unpack = .zero .positive := rfl
  have hlt : (0 : Float) < x := by
    show decide ((0 : Float).toModel < x.toModel) = true
    rw [decide_eq_true_iff]
    show (0 : Float).toModel.unpack.lt x.toModel.unpack = true
    rw [hzero]
    exact zero_lt_of_positive h
  exact decide_eq_true hlt

/-- The product of two finite numbers is positive if it is not below the least one of the format. -/
theorem positive_mul {m₁ m₂ : Nat} {e₁ e₂ : Int} {h₁ : 0 < m₁} {h₂ : 0 < m₂}
    (hleast : -1074 ≤ ((m₁ * m₂).log2 : Int) + (e₁ + e₂)) :
    Positive (UnpackedFloat.mul Format.binary64 (.finite .positive m₁ e₁ h₁)
      (.finite .positive m₂ e₂ h₂)) :=
  positive_round (Nat.mul_pos h₁ h₂) hleast

/-- A positive number stays positive when it is multiplied by one. -/
theorem positive_mul_one {u : UnpackedFloat} (h : Positive u) :
    Positive (UnpackedFloat.mul Format.binary64 u (1 : Float).toModel.unpack) := by
  have hone : (1 : Float).toModel.unpack = .finite .positive (2 ^ 52) (-52) (by decide) := rfl
  rw [hone]
  cases h with
  | infinity => exact .infinity
  | @finite m e hm hlt he =>
    apply positive_mul
    have hlog : 52 ≤ (m * 2 ^ 52).log2 := by
      rw [Nat.le_log2 (by omega)]
      exact Nat.le_mul_of_pos_left _ hm
    omega

/-- A positive natural number is rounded to a positive number. -/
theorem positive_ofNat {n : Nat} (hn : 0 < n) :
    Positive (UnpackedFloat.ofNat Format.binary64 n) := by
  have hcompare : compare (n : Int) 0 = .gt := compare_gt_iff_gt.mpr (by omega)
  unfold UnpackedFloat.ofNat UnpackedFloat.ofInt UnpackedFloat.normalize
  rw [hcompare]
  show Positive (UnpackedFloat.round Format.binary64 .positive n 0)
  let k := (0 - Format.binary64.targetExponent (Float.Model.totalExponent n 0)).toNat
  have hk : k = (0 - max ((n.log2 : Int) + 1 + 0 - 53) (-1074)).toNat := rfl
  show Positive (roundWithAccuracy Format.binary64 .positive (n <<< k) (0 - k) .exact)
  apply positive_round
  · rw [Nat.shiftLeft_eq]
    exact Nat.mul_pos hn (Nat.two_pow_pos k)
  · omega

/-- So is one that is written out in digits. -/
theorem positive_ofScientific {n : Nat} (hn : 0 < n) :
    Positive (UnpackedFloat.ofScientific Format.binary64 n 0) := by
  have hlow : ¬ (0 : Int) < -(2 ^ 11 + (n.log2 : Int)) := by omega
  have hshift : 0 < n <<< 53 := by
    rw [Nat.shiftLeft_eq]
    exact Nat.mul_pos hn (Nat.two_pow_pos 53)
  have hproduct : Positive (UnpackedFloat.mul Format.binary64
      (.finite .positive (n <<< 53) (-53) hshift) (.finite .positive 1 0 Nat.one_pos)) := by
    apply positive_mul
    have hlog : 53 ≤ (n <<< 53 * 1).log2 := by
      rw [Nat.mul_one, Nat.le_log2 hshift.ne', Nat.shiftLeft_eq]
      exact Nat.le_mul_of_pos_left _ hn
    omega
  unfold UnpackedFloat.ofScientific
  rw [dif_neg hn.ne', if_neg (by decide), if_neg hlow, if_pos (by decide)]
  exact hproduct

/-- A positive natural number, read as a double, is a positive number. -/
theorem positive_double {k : Nat} (hk : 0 < k) : Positive (Float.ofNat k).toModel.unpack := by
  show Positive (Float.ofScientific k false 0).toModel.unpack
  unfold Float.ofScientific
  by_cases hsmall : k < 2 ^ 53 ∧ 0 ≤ 22
  · -- A number that a double can hold is converted as a word, and multiplied by one.
    rw [dif_pos hsmall]
    have hword : k.toUInt64.toNat = k := by
      rw [Nat.toUInt64_eq, UInt64.toNat_ofNat']
      omega
    have hconverted : Positive (Float.Model.ofUInt64 k.toUInt64).unpack := by
      apply positive_stored
      show Positive (UnpackedFloat.ofNat Format.binary64 k.toUInt64.toNat)
      rw [hword]
      exact positive_ofNat hk
    exact positive_stored (positive_mul_one hconverted)
  · rw [dif_neg hsmall]
    exact positive_stored (positive_ofScientific hk)

/-- A positive integer, read as a double, improves. -/
theorem improves_ofInt {n : Int} (hn : 0 < n) : Gain.improves (Float.ofInt n) = true := by
  obtain ⟨k, rfl⟩ := Int.eq_ofNat_of_zero_le (Int.le_of_lt hn)
  have hk : 0 < k := by omega
  exact improves_of_positive (positive_double hk)

end Descent.Binary
