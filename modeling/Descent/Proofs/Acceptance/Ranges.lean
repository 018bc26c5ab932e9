import Descent.Proofs.Acceptance.Notices
import Descent.Proofs.Acceptance.Unsigned

/-!
# The ranges of an annealing configuration

A configuration is meant to have a minimum above zero and below the initial temperature, and the
parameter of its schedule in its range (`AnnealingConfig.Within`). The checks refuse what compares
the wrong way, and an undefined number does not compare at all. So a configuration passes them
exactly if it keeps every range in which no undefined number takes part, and one without undefined
numbers exactly if it keeps all of them (`validated_within`).
-/

namespace Descent

/-- Scalars of which any two compare, unless one of them is undefined. -/
class Scalar.Ordered (R : Type) [Scalar R] where
  Undefined : R → Prop
  zero_defined : ¬ Undefined (Gain.zero : R)
  one_defined : ¬ Undefined (Scalar.ofNat 1 : R)
  defined_of_lt : ∀ {a b : R}, Gain.lt a b = true → ¬ Undefined a ∧ ¬ Undefined b
  lt_trans : ∀ {a b c : R}, Gain.lt a b = true → Gain.lt b c = true → Gain.lt a c = true
  not_le_iff : ∀ {a b : R},
    Scalar.le a b = false ↔ Undefined a ∨ Undefined b ∨ Gain.lt b a = true

open Scalar.Ordered (Undefined)

/-! ## Ranges -/

section Ranges

variable {R : Type} [Scalar R]

/-- The range of a parameter: a ratio lies between zero and one, a rate above zero, and there is at
least one step. -/
def Cooling.Within : Cooling R → Prop
  | .geometric ratio => Gain.improves ratio = true ∧ Gain.lt ratio (Scalar.ofNat 1) = true
  | .linear steps => 1 ≤ steps
  | .harmonic rate => Gain.improves rate = true

/-- The ranges of a configuration. -/
structure AnnealingConfig.Within (c : AnnealingConfig R) : Prop where
  minimum : Gain.improves c.minimum = true
  below : Gain.lt c.minimum c.initial = true
  cooling : c.cooling.Within

variable [Scalar.Ordered R]

/-- The parameter is no undefined number. -/
def Cooling.Defined : Cooling R → Prop
  | .geometric ratio => ¬ Undefined ratio
  | .linear _ => True
  | .harmonic rate => ¬ Undefined rate

/-- No number of a configuration is undefined. -/
structure AnnealingConfig.Defined (c : AnnealingConfig R) : Prop where
  initial : ¬ Undefined c.initial
  minimum : ¬ Undefined c.minimum
  cooling : c.cooling.Defined

/-- What the checks make sure of: each range is kept in which no undefined number takes part. -/
structure AnnealingConfig.WithinWhereDefined (c : AnnealingConfig R) : Prop where
  initial : ¬ Undefined c.initial → Gain.improves c.initial = true
  minimum : ¬ Undefined c.minimum → Gain.improves c.minimum = true
  below : ¬ Undefined c.initial → ¬ Undefined c.minimum → Gain.lt c.minimum c.initial = true
  cooling : c.cooling.Defined → c.cooling.Within

end Ranges

/-! ## Checks -/

namespace AnnealingConfig

variable {R : Type} [Scalar R] [Scalar.Ordered R] {c : AnnealingConfig R} {cooling : Cooling R}

/-- A number that is not at or below zero is above it or undefined. -/
theorem not_le_zero_iff {a : R} :
    Scalar.le a Gain.zero = false ↔ (¬ Undefined a → Gain.improves a = true) := by
  rw [Scalar.Ordered.not_le_iff, or_iff_not_imp_left]
  exact imp_congr_right fun _ => or_iff_right Scalar.Ordered.zero_defined

theorem validateCooling_eq_ok_iff :
    validateCooling cooling = .ok () ↔ (cooling.Defined → cooling.Within) := by
  cases cooling with
  | geometric ratio =>
    have hone : Scalar.le (Scalar.ofNat 1) ratio = false ↔
        (¬ Undefined ratio → Gain.lt ratio (Scalar.ofNat 1) = true) := by
      rw [Scalar.Ordered.not_le_iff, or_iff_right Scalar.Ordered.one_defined,
        or_iff_not_imp_left]
    unfold validateCooling
    rw [ite_eq_right_iff]
    simp only [Bool.or_eq_true, reduceCtorEq, imp_false, not_or, Bool.not_eq_true,
      not_le_zero_iff, hone]
    exact imp_and.symm
  | linear steps =>
    unfold validateCooling
    rw [ite_eq_right_iff]
    simp [Cooling.Defined, Cooling.Within, Nat.one_le_iff_ne_zero]
  | harmonic rate =>
    unfold validateCooling
    rw [ite_eq_right_iff]
    simp only [reduceCtorEq, imp_false, Bool.not_eq_true, not_le_zero_iff]
    rfl

theorem validate_eq_ok_iff : c.validate = .ok () ↔ c.WithinWhereDefined := by
  unfold validate
  constructor
  · intro h
    split at h
    · cases h
    next hinitial =>
    split at h
    · cases h
    next hminimum =>
    split at h
    · cases h
    next hbelow =>
    rw [Bool.not_eq_true] at hinitial hminimum hbelow
    refine ⟨not_le_zero_iff.mp hinitial, not_le_zero_iff.mp hminimum, fun hi hm => ?_,
      validateCooling_eq_ok_iff.mp h⟩
    exact ((Scalar.Ordered.not_le_iff.mp hbelow).resolve_left hi).resolve_left hm
  · rintro ⟨hinitial, hminimum, hbelow, hcooling⟩
    have hbelow' : Scalar.le c.initial c.minimum = false := by
      rw [Scalar.Ordered.not_le_iff, or_iff_not_imp_left, or_iff_not_imp_left]
      exact hbelow
    rw [not_le_zero_iff.mpr hinitial, not_le_zero_iff.mpr hminimum, hbelow']
    exact validateCooling_eq_ok_iff.mpr hcooling

theorem WithinWhereDefined.within (h : c.WithinWhereDefined) (hc : c.Defined) : c.Within :=
  ⟨h.minimum hc.minimum, h.below hc.initial hc.minimum, h.cooling hc.cooling⟩

theorem Within.whereDefined (h : c.Within) : c.WithinWhereDefined where
  initial _ := Scalar.Ordered.lt_trans h.minimum h.below
  minimum _ := h.minimum
  below _ _ := h.below
  cooling _ := h.cooling

theorem Within.defined (h : c.Within) : c.Defined where
  initial := (Scalar.Ordered.defined_of_lt h.below).2
  minimum := (Scalar.Ordered.defined_of_lt h.below).1
  cooling := by
    have hcooling := h.cooling
    revert hcooling
    cases c.cooling with
    | geometric ratio => exact fun h => (Scalar.Ordered.defined_of_lt h.1).2
    | linear steps => exact fun _ => trivial
    | harmonic rate => exact fun h => (Scalar.Ordered.defined_of_lt h).2

theorem within_iff : c.Within ↔ c.validate = .ok () ∧ c.Defined := by
  rw [validate_eq_ok_iff]
  exact ⟨fun h => ⟨h.whereDefined, h.defined⟩, fun h => h.1.within h.2⟩

end AnnealingConfig

/-! ## Doubles -/

namespace Binary

open Float.Model (UnpackedFloat)

/-- Two numbers compare the other way round when they change places. -/
theorem compare_swap (a b : UnpackedFloat) : (a.compare b).map Ordering.swap = b.compare a := by
  have hswap {α : Type} [Ord α] [Std.OrientedOrd α] (x y : α) : (compare x y).swap = compare y x :=
    Std.OrientedOrd.eq_swap.symm
  rcases a with (_ | _) | _ | _ | ⟨_ | _, m₁, e₁, _⟩ <;>
    rcases b with (_ | _) | _ | _ | ⟨_ | _, m₂, e₂, _⟩ <;>
    simp [UnpackedFloat.compare, Ordering.swap_then, compare_sign_self, compare_negative_positive,
      compare_positive_negative, hswap]

variable {a b : UnpackedFloat}

/-- Two numbers compare unless one of them is undefined. -/
theorem compare_isSome : (a.compare b).isSome = (!a.isNaN && !b.isNaN) := by
  rcases a with (_ | _) | _ | _ | ⟨_ | _, m₁, e₁, _⟩ <;>
    rcases b with (_ | _) | _ | _ | ⟨_ | _, m₂, e₂, _⟩ <;> rfl

theorem not_le_iff :
    a.le b = false ↔ a.isNaN = true ∨ b.isNaN = true ∨ b.lt a = true := by
  have hsome := compare_isSome (a := a) (b := b)
  unfold UnpackedFloat.le UnpackedFloat.lt
  rw [← compare_swap a b]
  cases hcompare : a.compare b with
  | none =>
    rw [hcompare] at hsome
    cases ha : a.isNaN with
    | true => simp
    | false => simpa [ha] using hsome
  | some o =>
    rw [hcompare] at hsome
    obtain ⟨ha, hb⟩ : a.isNaN = false ∧ b.isNaN = false := by simpa using hsome.symm
    cases o <;> simp [ha, hb]

end Binary

instance : Scalar.Ordered Float where
  Undefined a := a.isNaN = true
  zero_defined := by decide
  one_defined := by decide
  defined_of_lt h := by
    obtain ⟨ha, hb⟩ := Comparable.defined_of_lt h
    exact ⟨Bool.not_eq_true _ ▸ ha, Bool.not_eq_true _ ▸ hb⟩
  lt_trans hab hbc := by
    obtain ⟨ha, hb⟩ := Comparable.defined_of_lt hab
    exact Comparable.lt_trans ha hb (Comparable.defined_of_lt hbc).2 hab hbc
  not_le_iff {a b} := by
    have hle : Scalar.le a b = a.toModel.unpack.le b.toModel.unpack := by
      show decide (a ≤ b) = _
      rw [Bool.eq_iff_iff, decide_eq_true_iff]
      exact decide_eq_true_iff
    rw [hle, Binary.not_le_iff, Binary.lt_iff_unpack]
    exact Iff.rfl

namespace AnnealingConfig

/-- A configuration passes the checks exactly if it keeps each range in which no undefined number
takes part. So those that keep all ranges are those that pass and have no undefined number, and an
annealed evaluator that starts out without one starts out within the ranges. -/
theorem validated_within (c : AnnealingConfig Float) :
    (c.validate = .ok () ↔ c.WithinWhereDefined) ∧
      (c.Within ↔ c.validate = .ok () ∧ c.Defined) ∧
      ∀ t, Thermal.start? c = .ok t → c.Defined → c.Within := by
  refine ⟨validate_eq_ok_iff, within_iff, fun t ht hdefined => ?_⟩
  exact within_iff.mpr ⟨(Thermal.eq_of_start? ht).1, hdefined⟩

/-- An annealed evaluator starts out from the usual configuration, which keeps all ranges. -/
theorem validated_within_standard :
    ∃ t, Thermal.start? standard = .ok t ∧ standard.Defined ∧ standard.Within := by
  obtain ⟨-, -, hstart⟩ := validated_within standard
  have hdefined : standard.Defined :=
    ⟨Bool.false_ne_true, Bool.false_ne_true, Bool.false_ne_true⟩
  exact ⟨_, rfl, hdefined, hstart _ rfl hdefined⟩

/-- A ratio that is no number. -/
def undefinedRatio : AnnealingConfig Float := { standard with cooling := .geometric (0.0 / 0.0) }

/-- The undefined ratio is not between zero and one, and passes the checks: an annealed evaluator
starts out with it. -/
theorem undefined_ratio_passes :
    undefinedRatio.validate = .ok () ∧ (∃ t, Thermal.start? undefinedRatio = .ok t) ∧
      ¬ undefinedRatio.Within :=
  ⟨rfl, ⟨_, rfl⟩, fun h => h.defined.cooling rfl⟩

end AnnealingConfig

end Descent
