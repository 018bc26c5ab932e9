import Descent.Arithmetic.Position
import Descent.Space.Basic

/-!
# Distance tables

A square table of distances, kept row after row in one array. The entry of row `a` and column
`b` stands at `a * size + b`; only this one position is checked, so a column past the end of its
row reads on in the rows that follow.
-/

namespace Descent

/-- A square table of `size` rows, one after the other. -/
structure DistanceTable (D : Type) where
  size : Nat
  entries : Array D

namespace DistanceTable

variable {D : Type}

/-- The table with the given rows, each of which has to be as long as there are rows. -/
def ofRows (rows : List (List D)) : Checked (DistanceTable D) :=
  if rows.all (fun row => row.length == rows.length) then
    .ok ⟨rows.length, rows.flatten.toArray⟩
  else .error .notSquare

/-- The table whose entries a function gives, asked row by row. Room is made for all of them first,
so their number has to fit a position. -/
def ofFunction (size : Nat) (f : Nat → Nat → Checked D) : Checked (DistanceTable D) := do
  let _ ← Position.mul size size
  let rows ← (List.range size).mapM fun a => (List.range size).mapM fun b => f a b
  pure ⟨size, rows.flatten.toArray⟩

/-- The entry of a row and a column. -/
def distance (t : DistanceTable D) (a b : Nat) : Checked D := do
  let start ← Position.mul a t.size
  let k ← Position.add start b
  match t.entries[k]? with
  | some d => pure d
  | none => throw (.outOfBounds t.entries.size k)

/-- Whether every entry above the diagonal is the same as the one across it. The test ends at the
first pair that differs. -/
def isSymmetric [Distance D] (t : DistanceTable D) : Checked Bool :=
  (List.range t.size).allM fun a =>
    (List.range' (a + 1) (t.size - (a + 1))).allM fun b => do
      pure (Distance.same (← t.distance a b) (← t.distance b a))

end DistanceTable

end Descent
