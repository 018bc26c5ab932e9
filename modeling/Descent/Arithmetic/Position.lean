import Descent.Arithmetic.Fault

/-!
# Positions

Positions in tables and tours, and the counters of a run, are natural numbers that fit a word
of 64 bits. Sums and products of positions are exact or fault.
-/

namespace Descent.Position

/-- The number of positions. -/
def bound : Nat := Nat.pow 2 64

/-- The sum of two positions. -/
def add (a b : Nat) : Checked Nat :=
  if a + b < bound then .ok (a + b) else .error (.overflow .add)

/-- The product of two positions. -/
def mul (a b : Nat) : Checked Nat :=
  if a * b < bound then .ok (a * b) else .error (.overflow .multiply)

theorem add_of_lt {a b : Nat} (h : a + b < bound) : add a b = .ok (a + b) := if_pos h

/-- The entry of a list at a position. -/
def entry {α : Type} (l : List α) (i : Nat) : Checked α :=
  match l[i]? with
  | some a => .ok a
  | none => .error (.outOfBounds l.length i)

theorem entry_eq_ok_iff {α : Type} {l : List α} {i : Nat} {a : α} :
    entry l i = .ok a ↔ l[i]? = some a := by
  unfold entry
  split
  · next b h => simp [h]
  · next h => simp [h]

end Descent.Position
