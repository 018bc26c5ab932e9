import Descent.Arithmetic.Distance

/-!
# Integers of a fixed width

`Signed bits` holds the integers of a signed word. Sums, differences and negations are exact or
fault: `Signed.add_eq_ok_iff` and its companions say that an operation has a result exactly when
the integer result fits.
-/

namespace Descent

/-- An integer that fits a signed word of `bits` bits. -/
@[ext] structure Signed (bits : Nat) where
  val : Int
  lower : -Int.pow 2 (bits - 1) ≤ val
  upper : val < Int.pow 2 (bits - 1)
deriving DecidableEq

namespace Signed

variable {bits : Nat}

/-- Whether an integer fits the word. -/
def Fits (bits : Nat) (x : Int) : Prop :=
  -Int.pow 2 (bits - 1) ≤ x ∧ x < Int.pow 2 (bits - 1)

instance (x : Int) : Decidable (Fits bits x) :=
  inferInstanceAs (Decidable (_ ∧ _))

theorem fits_val (a : Signed bits) : Fits bits a.val := ⟨a.lower, a.upper⟩

theorem fits_zero : Fits bits 0 := by
  have h : 0 < Int.pow 2 (bits - 1) := Int.pow_pos (by decide)
  exact ⟨by omega, h⟩

/-- The word that holds an integer, or the fault of the operation that produced it. -/
def ofResult (operation : Operation) (x : Int) : Checked (Signed bits) :=
  if h : Fits bits x then .ok ⟨x, h.1, h.2⟩ else .error (.overflow operation)

theorem ofResult_eq_ok_iff {operation : Operation} {x : Int} {r : Signed bits} :
    ofResult operation x = .ok r ↔ r.val = x := by
  unfold ofResult
  split
  · exact ⟨fun h => by cases h; rfl, fun h => congrArg Except.ok (Signed.ext h.symm)⟩
  · next h => exact ⟨fun e => (by cases e), fun e => absurd (e ▸ r.fits_val) h⟩

theorem ofResult_of_fits {operation : Operation} {x : Int} (h : Fits bits x) :
    ofResult operation x = .ok (⟨x, h.1, h.2⟩ : Signed bits) := dif_pos h

/-- The integer zero. -/
def zero : Signed bits := ⟨0, fits_zero.1, fits_zero.2⟩

/-- The sum, if it fits. -/
def add (a b : Signed bits) : Checked (Signed bits) := ofResult .add (a.val + b.val)

/-- The difference, if it fits. -/
def sub (a b : Signed bits) : Checked (Signed bits) := ofResult .subtract (a.val - b.val)

/-- The opposite, if it fits. -/
def neg (a : Signed bits) : Checked (Signed bits) := ofResult .negate (-a.val)

theorem add_eq_ok_iff {a b r : Signed bits} : a.add b = .ok r ↔ r.val = a.val + b.val :=
  ofResult_eq_ok_iff

theorem sub_eq_ok_iff {a b r : Signed bits} : a.sub b = .ok r ↔ r.val = a.val - b.val :=
  ofResult_eq_ok_iff

theorem neg_eq_ok_iff {a r : Signed bits} : a.neg = .ok r ↔ r.val = -a.val :=
  ofResult_eq_ok_iff

/-- The word whose low bits are those of an integer. -/
def wrap (x : Int) : Signed bits :=
  let half := Int.pow 2 (bits - 1)
  let y := (x + half) % (half * 2) - half
  have hp : 0 < half := Int.pow_pos (by decide)
  have h0 : 0 ≤ (x + half) % (half * 2) :=
    Int.emod_nonneg _ (by omega)
  have h1 : (x + half) % (half * 2) < half * 2 :=
    Int.emod_lt_of_pos _ (by omega)
  ⟨y, by omega, by omega⟩

instance : Distance (Signed bits) where
  zero := zero
  lt a b := decide (a.val < b.val)
  same a b := decide (a.val = b.val)
  add := add
  sub := sub
  neg := neg

end Signed

end Descent
