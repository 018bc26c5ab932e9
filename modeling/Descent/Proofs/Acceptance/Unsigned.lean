import Descent.Acceptance.Cooling
import Descent.Proofs.Acceptance.Positive
import Descent.Proofs.Comparison

/-!
# Doubles without a minus sign

A number that is undefined, or that has no minus sign, is `Unsigned`; the negative zero is not.
Products, quotients and sums of such numbers are such numbers again, whatever is rounded and however
large they get. So no temperature of a usable configuration ever has a minus sign
(`AnnealingConfig.Usable.cool`), and no draw is below zero (`Binary.unsigned_unit`).
-/

namespace Descent

namespace Binary

open Float.Model (UnpackedFloat Format)
open Float.Model.UnpackedFloat

/-- An unpacked number that is undefined, or that has a given sign. -/
inductive HasSign (sign : Sign) : UnpackedFloat → Prop where
  | undefined : HasSign sign .notANumber
  | infinity : HasSign sign (.infinity sign)
  | zero : HasSign sign (.zero sign)
  | finite {m : Nat} {e : Int} (hm : 0 < m) : HasSign sign (.finite sign m e hm)

/-- A double that is undefined, or that has no minus sign. -/
def Unsigned (x : Float) : Prop := HasSign .positive x.toModel.unpack

variable {sign sign' : Sign} {u v : UnpackedFloat}

/-! ## Storing and rounding -/

/-- The sign of a number is the one among its bits. -/
theorem hasSign_components (sign : Sign) (exponent : BitVec 11) (mantissa : BitVec 52) :
    HasSign sign (unpack Format.binary64
      (packComponents Format.binary64 sign exponent mantissa)) := by
  unfold unpack
  simp only [unpackMantissa_packComponents, unpackExponent_packComponents,
    unpackSign_packComponents, Sign.ofBitVec_toBitVec]
  split
  · split
    · exact .infinity
    · exact .undefined
  · split
    · split
      · exact .zero
      · exact .finite _
    · exact .finite _

/-- A number is stored with its sign. -/
theorem HasSign.stored (h : HasSign sign u) : HasSign sign (Float.Model.pack u).unpack := by
  cases h with
  | undefined => exact .undefined
  | infinity => exact hasSign_components sign _ _
  | zero => exact hasSign_components sign _ _
  | @finite m e hm =>
    show HasSign sign (unpack Format.binary64 (pack Format.binary64 (.finite sign m e hm)))
    unfold pack
    simp only
    split
    · exact hasSign_components sign _ _
    · split
      · exact hasSign_components sign _ _
      · exact hasSign_components sign _ _

/-- Rounding keeps the sign, also where it comes down to zero. -/
theorem hasSign_round (sign : Sign) (m : Nat) (e : Int) (accuracy : Accuracy) :
    HasSign sign (roundWithAccuracy Format.binary64 sign m e accuracy) := by
  unfold roundWithAccuracy
  simp only
  split
  · exact .zero
  · exact .finite _

/-! ## Arithmetic -/

theorem HasSign.mul (hu : HasSign sign u) (hv : HasSign sign' v) :
    HasSign (sign * sign') (UnpackedFloat.mul Format.binary64 u v) := by
  cases hu with
  | undefined => exact .undefined
  | infinity => cases hv <;> first | exact .undefined | exact .infinity
  | zero => cases hv <;> first | exact .undefined | exact .zero
  | finite =>
    cases hv with
    | undefined => exact .undefined
    | infinity => exact .infinity
    | zero => exact .zero
    | finite => exact hasSign_round _ _ _ _

theorem HasSign.div (hu : HasSign sign u) (hv : HasSign sign' v) :
    HasSign (sign / sign') (UnpackedFloat.div Format.binary64 u v) := by
  cases hu with
  | undefined => exact .undefined
  | infinity => cases hv <;> first | exact .undefined | exact .infinity
  | zero => cases hv <;> first | exact .undefined | exact .zero
  | finite =>
    cases hv with
    | undefined => exact .undefined
    | infinity => exact .zero
    | zero => exact .infinity
    | finite => exact hasSign_round _ _ _ _

theorem HasSign.add (hu : HasSign .positive u) (hv : HasSign .positive v) :
    HasSign .positive (UnpackedFloat.add Format.binary64 u v) := by
  cases hu with
  | undefined => exact .undefined
  | infinity => cases hv <;> first | exact .undefined | exact .infinity
  | zero =>
    cases hv with
    | undefined => exact .undefined
    | infinity => exact .infinity
    | zero => exact .zero
    | finite hm => exact .finite hm
  | finite hm =>
    cases hv with
    | undefined => exact .undefined
    | infinity => exact .infinity
    | zero => exact .finite hm
    | finite =>
      -- The sum of two mantissas is not negative.
      show HasSign .positive (UnpackedFloat.normalize Format.binary64 (_ + _) _ .positive)
      unfold UnpackedFloat.normalize
      split
      · next hlt =>
        rw [compare_lt_iff_lt] at hlt
        exact absurd hlt (Int.not_lt.mpr (Int.add_nonneg (Int.natCast_nonneg _)
          (Int.natCast_nonneg _)))
      · exact .zero
      · exact hasSign_round _ _ _ _

variable {x y : Float}

theorem Unsigned.mul (hx : Unsigned x) (hy : Unsigned y) : Unsigned (x * y) :=
  (HasSign.mul hx hy).stored

theorem Unsigned.div (hx : Unsigned x) (hy : Unsigned y) : Unsigned (x / y) :=
  (HasSign.div hx hy).stored

theorem Unsigned.add (hx : Unsigned x) (hy : Unsigned y) : Unsigned (x + y) :=
  (HasSign.add hx hy).stored

theorem unsigned_of_isNaN (h : x.isNaN = true) : Unsigned x := by
  have hundefined : x.toModel.unpack.isNaN = true := h
  unfold Unsigned
  cases hx : x.toModel.unpack with
  | notANumber => exact .undefined
  | _ => simp [hx, UnpackedFloat.isNaN] at hundefined

theorem HasSign.of_positive (h : Positive u) : HasSign .positive u := by
  cases h with
  | infinity => exact .infinity
  | finite hm => exact .finite hm

theorem unsigned_ofNat (n : Nat) : Unsigned (Float.ofNat n) := by
  cases n with
  | zero => exact .zero
  | succ n => exact .of_positive (positive_double (Nat.succ_pos n))

/-! ## Comparisons -/

theorem lt_iff_unpack : Gain.lt x y = true ↔ x.toModel.unpack.lt y.toModel.unpack = true := by
  show decide (x < y) = true ↔ _
  rw [decide_eq_true_iff]
  exact decide_eq_true_iff

/-- No number without a minus sign is below zero, and none is below an undefined number. -/
theorem Unsigned.not_lt (hx : Unsigned x) (hy : y = 0 ∨ y.isNaN = true) : Gain.lt x y = false := by
  rw [← Bool.not_eq_true, lt_iff_unpack, Bool.not_eq_true]
  rcases hy with rfl | hy
  · have hzero : (0 : Float).toModel.unpack = .zero .positive := rfl
    rw [hzero]
    unfold Unsigned at hx
    generalize x.toModel.unpack = u at hx
    cases hx <;> rfl
  · have hundefined : y.toModel.unpack.isNaN = true := hy
    generalize y.toModel.unpack = v at hundefined
    generalize x.toModel.unpack = u
    cases v with
    | notANumber => cases u <;> rfl
    | _ => cases hundefined

/-- An unpacked number that is undefined or above zero. -/
inductive AboveZero : UnpackedFloat → Prop where
  | undefined : AboveZero .notANumber
  | infinity : AboveZero (.infinity .positive)
  | finite {m : Nat} {e : Int} (hm : 0 < m) : AboveZero (.finite .positive m e hm)

theorem AboveZero.hasSign (h : AboveZero u) : HasSign .positive u := by
  cases h with
  | undefined => exact .undefined
  | infinity => exact .infinity
  | finite hm => exact .finite hm

/-- A number that is not at or below zero is undefined or above zero. -/
theorem aboveZero_of_not_le (h : Scalar.le x Gain.zero = false) : AboveZero x.toModel.unpack := by
  have hle : x.toModel.unpack.le (.zero .positive) = false := by
    rw [← Bool.not_eq_true]
    intro hle
    have hx : decide (x ≤ 0) = true := by
      rw [decide_eq_true_iff]
      exact decide_eq_true hle
    rw [show decide (x ≤ 0) = false from h] at hx
    cases hx
  generalize x.toModel.unpack = u at hle
  rcases u with (_ | _) | _ | _ | ⟨_ | _, m, e, hm⟩
  · cases hle
  · exact .infinity
  · exact .undefined
  · cases hle
  · cases hle
  · exact .finite hm

/-- A number that is not below one above zero has no minus sign. -/
theorem unsigned_of_not_lt (hy : AboveZero y.toModel.unpack) (hdefined : y.isNaN = false)
    (h : Gain.lt x y = false) : Unsigned x := by
  rw [← Bool.not_eq_true, lt_iff_unpack, Bool.not_eq_true] at h
  have hdefined' : y.toModel.unpack.isNaN = false := hdefined
  unfold Unsigned
  generalize y.toModel.unpack = v at hy h hdefined'
  generalize x.toModel.unpack = u at h
  -- Below such a number are the negative ones and the zeros.
  rcases u with (_ | _) | _ | _ | ⟨_ | _, m, e, hm⟩
  · cases hy with
    | undefined => cases hdefined'
    | infinity => cases h
    | finite => cases h
  · exact .infinity
  · exact .undefined
  · cases hy with
    | undefined => cases hdefined'
    | infinity => cases h
    | finite => cases h
  · cases hy with
    | undefined => cases hdefined'
    | infinity => cases h
    | finite => cases h
  · exact .finite hm

/-! ## Draws and quotients -/

/-- A draw is a fraction without a minus sign. -/
theorem unsigned_unit (n : Nat) : Unsigned (unit n) :=
  Unsigned.div (unsigned_ofNat n) (.of_positive (.finite (by decide) (by decide) (by decide)))

/-- The number below all others stays the same when it is divided by a number without a minus sign,
unless the quotient is undefined. -/
theorem lowest_div (hx : Unsigned x) : lowest / x = lowest ∨ (lowest / x).isNaN = true := by
  have hlowest : lowest.toModel.unpack = .infinity .negative := rfl
  have hquotient : lowest / x = .ofModel (.pack
      (UnpackedFloat.div Format.binary64 (.infinity .negative) x.toModel.unpack)) := by
    rw [← hlowest]
    rfl
  rw [hquotient]
  unfold Unsigned at hx
  generalize x.toModel.unpack = u at hx
  cases hx with
  | undefined => exact .inr rfl
  | infinity => exact .inr rfl
  | zero => exact .inl rfl
  | finite => exact .inl rfl

theorem hasSign_neg (h : Positive u) : HasSign .negative u.neg := by
  cases h with
  | infinity => exact .infinity
  | finite hm => exact .finite hm

theorem HasSign.zero_not_lt (h : HasSign .negative u) :
    (UnpackedFloat.zero .positive).lt u = false := by
  cases h <;> rfl

/-- An integer, read as a double, improves exactly if it is positive. -/
theorem improves_ofInt_iff {n : Int} : Gain.improves (Float.ofInt n) = true ↔ 0 < n := by
  refine ⟨fun h => ?_, improves_ofInt⟩
  by_contra hn
  have hno : Gain.improves (Float.ofInt n) = false := by
    cases n with
    | ofNat k =>
      obtain rfl : k = 0 := by
        have hk : ¬ (0 : Int) < k := hn
        omega
      rfl
    | negSucc k =>
      show Gain.lt (0 : Float) _ = false
      rw [← Bool.not_eq_true, lt_iff_unpack, Bool.not_eq_true]
      exact (hasSign_neg (positive_double (Nat.succ_pos k))).stored.zero_not_lt
  rw [hno] at h
  cases h

/-! ## Undefined results -/

theorem eq_of_isNaN (h : u.isNaN = true) : u = .notANumber := by
  cases u with
  | notANumber => rfl
  | _ => cases h

theorem isNaN_stored (h : u = .notANumber) : (Float.Model.pack u).isNaN = true := by
  rw [h]
  rfl

theorem isNaN_sub_right (x : Float) (h : y.isNaN = true) : (x - y).isNaN = true := by
  apply isNaN_stored
  rw [eq_of_isNaN h]
  cases x.toModel.unpack <;> rfl

theorem isNaN_mul_right (x : Float) (h : y.isNaN = true) : (x * y).isNaN = true := by
  apply isNaN_stored
  rw [eq_of_isNaN h]
  cases x.toModel.unpack <;> rfl

theorem isNaN_div_left (y : Float) (h : x.isNaN = true) : (x / y).isNaN = true := by
  apply isNaN_stored
  rw [eq_of_isNaN h]
  rfl

end Binary

/-! ## Temperatures -/

namespace AnnealingConfig

open Binary

variable {c : AnnealingConfig Float} {temperature : Float}

/-- What is checked of a configuration, so far as it rules minus signs out. Undefined numbers pass
the checks. -/
structure Usable (c : AnnealingConfig Float) : Prop where
  initial : AboveZero c.initial.toModel.unpack
  minimum : AboveZero c.minimum.toModel.unpack
  ratio : ∀ ratio, c.cooling = .geometric ratio → Unsigned ratio
  rate : ∀ rate, c.cooling = .harmonic rate → Unsigned rate

theorem usable_of_validate (h : c.validate = .ok ()) : c.Usable := by
  unfold validate at h
  split at h
  · cases h
  next hinitial =>
  split at h
  · cases h
  next hminimum =>
  split at h
  · cases h
  refine ⟨aboveZero_of_not_le (Bool.not_eq_true _ ▸ hinitial),
    aboveZero_of_not_le (Bool.not_eq_true _ ▸ hminimum), fun ratio hratio => ?_,
    fun rate hrate => ?_⟩
  · rw [hratio] at h
    unfold validateCooling at h
    cases hle : Scalar.le ratio Gain.zero with
    | true => simp [hle] at h
    | false => exact (aboveZero_of_not_le hle).hasSign
  · rw [hrate] at h
    unfold validateCooling at h
    cases hle : Scalar.le rate Gain.zero with
    | true => simp [hle] at h
    | false => exact (aboveZero_of_not_le hle).hasSign

/-- What a schedule gives is held against the minimum, unless that is undefined. Then it is
undefined itself, if it aims at the minimum, and has no minus sign otherwise. -/
theorem Usable.scheduled (hc : c.Usable) (h : Unsigned temperature)
    (hminimum : c.minimum.isNaN = true) (commit : Nat) :
    Unsigned (c.scheduled temperature commit) := by
  unfold AnnealingConfig.scheduled
  cases hcooling : c.cooling with
  | geometric ratio => exact h.mul (hc.ratio ratio hcooling)
  | harmonic rate => exact h.div ((unsigned_ofNat 1).add ((hc.rate rate hcooling).mul h))
  | linear steps =>
    have hstep := isNaN_mul_right (Float.ofNat (commit + 1)) (isNaN_sub_right c.initial hminimum)
    have hundefined := isNaN_sub_right c.initial (isNaN_div_left (Float.ofNat steps) hstep)
    exact unsigned_of_isNaN hundefined

/-- Cooling down keeps a temperature without a minus sign. -/
theorem Usable.cool (hc : c.Usable) (h : Unsigned temperature) (commit : Nat) :
    Unsigned (c.cool temperature commit) := by
  show Unsigned (larger (c.scheduled temperature commit) c.minimum)
  unfold larger
  by_cases hdefined : (c.scheduled temperature commit).isNaN = true
  · rw [if_pos hdefined]
    exact hc.minimum.hasSign
  rw [if_neg hdefined]
  by_cases hminimum : c.minimum.isNaN = true
  · rw [if_pos hminimum]
    exact hc.scheduled h hminimum commit
  rw [if_neg hminimum]
  by_cases hlt : c.scheduled temperature commit < c.minimum
  · rw [if_pos hlt]
    exact hc.minimum.hasSign
  · rw [if_neg hlt]
    refine unsigned_of_not_lt hc.minimum ?_ (decide_eq_false hlt)
    rw [← Bool.not_eq_true]
    exact hminimum

theorem Usable.foldl_cool (hc : c.Usable) (h : Unsigned temperature) (commits : List Nat) :
    Unsigned (commits.foldl c.cool temperature) := by
  induction commits generalizing temperature with
  | nil => exact h
  | cons commit commits ih => exact ih (hc.cool h commit)

end AnnealingConfig

end Descent
