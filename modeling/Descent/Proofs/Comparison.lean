import Descent.Arithmetic.Binary
import Mathlib

/-!
# Comparing distances

The choice of a nearest generator only rests on comparisons. `Comparable` states what it needs of
them: they order the distances, up to distances that are the same, as long as no undefined number
takes part. Words of every width and both binary formats meet it; for the latter a number is
placed by `Binary.rank`, in an order in which the two zeros coincide.
-/

namespace Descent

/-- Distances of which any two defined ones compare, in a consistent way. -/
class Comparable (D : Type) [Distance D] where
  /-- Whether a distance can be compared; an undefined number cannot. -/
  Defined : D → Prop
  lt_asymm : ∀ {a b : D}, Defined a → Defined b → Gain.lt a b = true → Gain.lt b a = false
  lt_or_lt : ∀ {a b c : D}, Defined a → Defined b → Defined c →
    Gain.lt a b = true → Gain.lt a c = true ∨ Gain.lt c b = true
  same_iff : ∀ {a b : D}, Defined a → Defined b →
    (Distance.same a b = true ↔ Gain.lt a b = false ∧ Gain.lt b a = false)

namespace Comparable

variable {D : Type} [Distance D] [Comparable D] {a b c : D}

theorem lt_irrefl (ha : Defined a) : Gain.lt a a = false := by
  cases h : Gain.lt a a with
  | false => rfl
  | true => rw [← h, lt_asymm ha ha h]

theorem lt_trans (ha : Defined a) (hb : Defined b) (hc : Defined c) (hab : Gain.lt a b = true)
    (hbc : Gain.lt b c = true) : Gain.lt a c = true := by
  rcases lt_or_lt ha hb hc hab with hac | hcb
  · exact hac
  · rw [lt_asymm hb hc hbc] at hcb
    cases hcb

theorem same_symm (ha : Defined a) (hb : Defined b) (h : Distance.same a b = true) :
    Distance.same b a = true :=
  (same_iff hb ha).mpr ((same_iff ha hb).mp h).symm

/-- Not below, in both places: `c ≤ b` and `b ≤ a` give `c ≤ a`. -/
theorem not_lt_trans (ha : Defined a) (hb : Defined b) (hc : Defined c)
    (hab : Gain.lt a b = false) (hbc : Gain.lt b c = false) : Gain.lt a c = false := by
  cases h : Gain.lt a c with
  | false => rfl
  | true =>
    rcases lt_or_lt ha hc hb h with h' | h'
    · rw [h'] at hab
      exact hab
    · rw [h'] at hbc
      exact hbc

theorem same_trans (ha : Defined a) (hb : Defined b) (hc : Defined c)
    (hab : Distance.same a b = true) (hbc : Distance.same b c = true) :
    Distance.same a c = true := by
  obtain ⟨h1, h2⟩ := (same_iff ha hb).mp hab
  obtain ⟨h3, h4⟩ := (same_iff hb hc).mp hbc
  exact (same_iff ha hc).mpr ⟨not_lt_trans ha hb hc h1 h3, not_lt_trans hc hb ha h4 h2⟩

theorem same_of_not_lt (ha : Defined a) (hb : Defined b) (h1 : Gain.lt a b = false)
    (h2 : Gain.lt b a = false) : Distance.same a b = true :=
  (same_iff ha hb).mpr ⟨h1, h2⟩

end Comparable

/-! ## Words -/

namespace Signed

variable {bits : Nat}

theorem lt_iff {a b : Signed bits} : Gain.lt a b = true ↔ a.val < b.val := decide_eq_true_iff

theorem not_lt_iff {a b : Signed bits} : Gain.lt a b = false ↔ b.val ≤ a.val := by
  rw [← Bool.not_eq_true, lt_iff, Int.not_lt]

theorem same_iff {a b : Signed bits} : Distance.same a b = true ↔ a.val = b.val :=
  decide_eq_true_iff

instance : Comparable (Signed bits) where
  Defined _ := True
  lt_asymm _ _ h := not_lt_iff.mpr (Int.le_of_lt (lt_iff.mp h))
  lt_or_lt := by
    intro a b c _ _ _ h
    rw [lt_iff] at h ⊢
    rw [lt_iff]
    omega
  same_iff := by
    intro a b _ _
    rw [same_iff, not_lt_iff, not_lt_iff]
    omega

end Signed

/-! ## Binary numbers -/

namespace Binary

open Float.Model (UnpackedFloat)
open Float.Model.UnpackedFloat (Sign)

/-- The place of a number among all others: first the kind and the sign, then the exponent and
the mantissa, which count down below zero. The place of an undefined number means nothing. -/
def rank : UnpackedFloat → Int ×ₗ Int ×ₗ Int
  | .notANumber => toLex (0, toLex (0, 0))
  | .infinity .negative => toLex (-2, toLex (0, 0))
  | .finite .negative m e _ => toLex (-1, toLex (-e, -m))
  | .zero _ => toLex (0, toLex (0, 0))
  | .finite .positive m e _ => toLex (1, toLex (e, m))
  | .infinity .positive => toLex (2, toLex (0, 0))

theorem compare_sign_self (s : Sign) : compare s s = .eq := by cases s <;> rfl

theorem compare_negative_positive : compare Sign.negative Sign.positive = .lt := rfl

theorem compare_positive_negative : compare Sign.positive Sign.negative = .gt := rfl

variable {a b : UnpackedFloat}

theorem lt_iff_rank_lt (ha : a.isNaN = false) (hb : b.isNaN = false) :
    a.lt b = true ↔ rank a < rank b := by
  rcases a with (_ | _) | _ | _ | ⟨_ | _, m₁, e₁, _⟩ <;>
    rcases b with (_ | _) | _ | _ | ⟨_ | _, m₂, e₂, _⟩ <;>
    simp_all [UnpackedFloat.lt, UnpackedFloat.compare, UnpackedFloat.isNaN, rank,
      Prod.Lex.toLex_lt_toLex, compare_sign_self, compare_negative_positive,
      compare_positive_negative, Ordering.then_eq_lt, Ordering.then_eq_gt, compare_lt_iff_lt,
      compare_gt_iff_gt]

theorem beq_iff_rank_eq (ha : a.isNaN = false) (hb : b.isNaN = false) :
    a.beq b = true ↔ rank a = rank b := by
  rcases a with (_ | _) | _ | _ | ⟨_ | _, m₁, e₁, _⟩ <;>
    rcases b with (_ | _) | _ | _ | ⟨_ | _, m₂, e₂, _⟩ <;>
    simp_all [UnpackedFloat.beq, UnpackedFloat.compare, UnpackedFloat.isNaN, rank,
      compare_sign_self, compare_negative_positive, compare_positive_negative,
      Ordering.then_eq_eq]

theorem isNaN_of_lt (h : a.lt b = true) : a.isNaN = false ∧ b.isNaN = false := by
  cases a with
  | notANumber => simp [UnpackedFloat.lt, UnpackedFloat.compare] at h
  | _ =>
    cases b with
    | notANumber => simp [UnpackedFloat.lt, UnpackedFloat.compare] at h
    | _ => exact ⟨rfl, rfl⟩

end Binary

open Float.Model (UnpackedFloat) in
/-- Numbers that compare as their unpacked forms do are comparable, undefined ones apart. -/
@[reducible] def Comparable.ofUnpacked {D : Type} [Distance D] (unpack : D → UnpackedFloat)
    (hlt : ∀ a b, Gain.lt a b = true ↔ (unpack a).lt (unpack b) = true)
    (hsame : ∀ a b, Distance.same a b = true ↔ (unpack a).beq (unpack b) = true) :
    Comparable D where
  Defined a := (unpack a).isNaN = false
  lt_asymm := by
    intro a b ha hb h
    rw [hlt, Binary.lt_iff_rank_lt ha hb] at h
    rw [← Bool.not_eq_true, hlt, Binary.lt_iff_rank_lt hb ha]
    exact h.asymm
  lt_or_lt := by
    intro a b c ha hb hc h
    rw [hlt, Binary.lt_iff_rank_lt ha hb] at h
    rw [hlt, hlt, Binary.lt_iff_rank_lt ha hc, Binary.lt_iff_rank_lt hc hb]
    exact (lt_or_ge _ _).imp_right fun h' => h'.trans_lt h
  same_iff := by
    intro a b ha hb
    rw [hsame, ← Bool.not_eq_true, ← Bool.not_eq_true, hlt, hlt, Binary.beq_iff_rank_eq ha hb,
      Binary.lt_iff_rank_lt ha hb, Binary.lt_iff_rank_lt hb ha, not_lt, not_lt]
    exact ⟨fun h => ⟨h.ge, h.le⟩, fun h => le_antisymm h.2 h.1⟩

instance : Comparable Float :=
  .ofUnpacked (fun a => a.toModel.unpack)
    (fun a b => by
      show decide (a < b) = true ↔ _
      rw [decide_eq_true_iff]
      exact decide_eq_true_iff)
    (fun _ _ => Iff.rfl)

instance : Comparable Float32 :=
  .ofUnpacked (fun a => a.toModel.unpack)
    (fun a b => by
      show decide (a < b) = true ↔ _
      rw [decide_eq_true_iff]
      exact decide_eq_true_iff)
    (fun _ _ => Iff.rfl)

/-- The undefined numbers are those that are not a number. -/
theorem Comparable.defined_double_iff (a : Float) : Defined a ↔ a.isNaN = false := Iff.rfl

/-- An undefined number is neither below nor above any other. -/
theorem Comparable.defined_of_lt {a b : Float} (h : Gain.lt a b = true) :
    Defined a ∧ Defined b := by
  have hlt : (a.toModel.unpack).lt (b.toModel.unpack) = true :=
    of_decide_eq_true (of_decide_eq_true h)
  exact Binary.isNaN_of_lt hlt

end Descent
