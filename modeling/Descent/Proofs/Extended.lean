import Descent.Proofs.Comparison
import Descent.Proofs.Outcome

/-!
# Extended numbers

Exact numbers with two infinities and an undefined number, under the rules that binary numbers have
for these, and without rounding. Infinities of opposite signs add up to the undefined number, which
every sum keeps. Addition stays associative and commutative all the same, and only cancelling fails:
a difference from itself is zero for a finite number alone. So a sum of differences is the
difference of two sums, even where the numbers are infinite.
-/

namespace Descent

/-- A number, an infinity of either sign, or the undefined number. -/
inductive Extended where
  | finite (x : ℚ)
  | positive
  | negative
  | undefined
deriving DecidableEq

namespace Extended

/-- An infinity outweighs every number, and the other infinity leaves nothing to say. -/
protected def add : Extended → Extended → Extended
  | finite x, finite y => finite (x + y)
  | finite _, positive | positive, finite _ | positive, positive => positive
  | finite _, negative | negative, finite _ | negative, negative => negative
  | _, _ => undefined

protected def neg : Extended → Extended
  | finite x => finite (-x)
  | positive => negative
  | negative => positive
  | undefined => undefined

instance : Zero Extended := ⟨finite 0⟩
instance : Add Extended := ⟨Extended.add⟩
instance : Neg Extended := ⟨Extended.neg⟩
instance : Sub Extended := ⟨fun a b => a + -b⟩

theorem zero_def : (0 : Extended) = finite 0 := rfl

theorem add_def (a b : Extended) : a + b = a.add b := rfl

theorem neg_def (a : Extended) : -a = a.neg := rfl

theorem sub_def (a b : Extended) : a - b = a.add b.neg := rfl

instance : SubtractionCommMonoid Extended where
  add_assoc a b c := by
    cases a <;> cases b <;> cases c <;> simp [add_def, Extended.add, add_assoc]
  zero_add a := by cases a <;> simp [zero_def, add_def, Extended.add]
  add_zero a := by cases a <;> simp [zero_def, add_def, Extended.add]
  add_comm a b := by cases a <;> cases b <;> simp [add_def, Extended.add, add_comm]
  nsmul := nsmulRec
  zsmul := zsmulRec
  sub_eq_add_neg _ _ := rfl
  neg_neg a := by cases a <;> simp [neg_def, Extended.neg]
  neg_add_rev a b := by
    cases a <;> cases b <;> simp [add_def, neg_def, Extended.add, Extended.neg, add_comm]
  neg_eq_of_add a b h := by
    -- Only two finite numbers add up to zero.
    cases a <;> cases b <;> simp_all [zero_def, add_def, neg_def, Extended.add, Extended.neg,
      neg_eq_iff_add_eq_zero]

variable {x y : ℚ}

theorem finite_sub_finite : finite y - finite x = finite (y - x) := by
  rw [sub_def, Extended.neg, Extended.add, sub_eq_add_neg]

theorem finite_sub_self (x : ℚ) : finite x - finite x = 0 := by
  rw [finite_sub_finite, sub_self, zero_def]

/-- A change from a finite number, added to that number, leads to where the change ends. -/
theorem finite_add_sub (x : ℚ) (a : Extended) : finite x + (a - finite x) = a := by
  cases a <;> simp [add_def, sub_def, Extended.add, Extended.neg]

/-! ## Distances -/

/-- Strictly below; the undefined number is below nothing and above nothing. -/
def below : Extended → Extended → Bool
  | finite x, finite y => decide (x < y)
  | finite _, positive | negative, finite _ | negative, positive => true
  | _, _ => false

/-- No operation faults. -/
instance : Distance Extended where
  zero := 0
  lt := below
  same a b := decide (a = b ∧ a ≠ undefined)
  add a b := .ok (a + b)
  sub a b := .ok (a - b)
  neg a := .ok (-a)

theorem lt_finite_iff : Gain.lt (finite x) (finite y) = true ↔ x < y := decide_eq_true_iff

instance : Comparable Extended where
  Defined a := a ≠ undefined
  lt_asymm {a b} ha hb h := by
    cases a <;> cases b <;> simp_all [Gain.lt, below, le_of_lt]
  lt_or_lt {a b c} ha hb hc h := by
    cases a <;> cases b <;> cases c <;> simp_all [Gain.lt, below]
    exact (lt_or_ge _ _).imp_right fun h' => h'.trans_lt h
  same_iff {a b} ha hb := by
    cases a <;> cases b <;> simp_all [Gain.lt, Distance.same, below]
    exact ⟨fun h => ⟨h.ge, h.le⟩, fun h => le_antisymm h.2 h.1⟩

/-! ## Sums -/

variable {α : Type}

/-- A loop that adds a term at every turn ends in the sum of the terms. -/
theorem foldlM_adds {f : Extended → α → Checked Extended} {term : α → Extended} {l : List α}
    (turn : ∀ x ∈ l, ∀ sum, f sum x = .ok (sum + term x)) (start : Extended) :
    l.foldlM f start = .ok (start + (l.map term).sum) := by
  induction l generalizing start with
  | nil =>
    rw [List.map_nil, List.sum_nil, add_zero]
    rfl
  | cons x l ih =>
    rw [List.foldlM_cons, turn x List.mem_cons_self, Checked.ok_bind,
      ih fun y hy => turn y (List.mem_cons_of_mem x hy), List.map_cons, List.sum_cons, add_assoc]

theorem sum_eq (ds : List Extended) : Distance.sum ds = .ok ds.sum := by
  have hsum := foldlM_adds (f := Distance.add) (l := ds) (fun _ _ _ => rfl) 0
  rw [zero_add, List.map_id'] at hsum
  exact hsum

theorem sum_finite (l : List α) (f : α → ℚ) :
    (l.map fun a => finite (f a)).sum = finite (l.map f).sum := by
  induction l with
  | nil => rfl
  | cons a l ih =>
    rw [List.map_cons, List.map_cons, List.sum_cons, List.sum_cons, ih]
    rfl

/-- However often it is added, the infinity stays as it is. -/
theorem sum_replicate_positive (n : ℕ) : (List.replicate (n + 1) positive).sum = positive := by
  induction n with
  | zero => rfl
  | succ n ih =>
    rw [List.replicate_succ, List.sum_cons, ih]
    rfl

end Extended

end Descent
