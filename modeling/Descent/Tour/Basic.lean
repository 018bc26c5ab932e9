import Descent.Arithmetic.Position
import Descent.Space.Basic

/-!
# Closed tours

A tour visits its stops in order and returns from the last to the first. Its length is the sum of
the distances along its edges, the closing edge included.
-/

namespace Descent

/-- A closed tour, as the list of its stops. -/
@[ext] structure Tour (V : Type) where
  stops : List V
deriving DecidableEq

namespace Tour

variable {V D : Type}

/-- The number of stops. -/
def size (t : Tour V) : Nat := t.stops.length

/-- The stop at a position, counted round and round. -/
def stopAt (t : Tour V) (i : Nat) : Checked V :=
  if t.size = 0 then .error .emptyTour
  else Position.entry t.stops (i % t.size)

/-- The edges: each stop with the next one, and the last one with the first. -/
def edges (t : Tour V) : List (V × V) :=
  match t.stops with
  | [] => []
  | first :: rest => (first :: rest).zip (rest ++ [first])

/-- Adds the length of one edge. -/
def addEdge [Distance D] (distance : Metric V D) (sum : D) (edge : V × V) : Checked D := do
  Distance.add sum (← distance edge.1 edge.2)

/-- The length, added edge by edge from the first stop on. -/
def length [Distance D] (distance : Metric V D) (t : Tour V) : Checked D :=
  t.edges.foldlM (addEdge distance) Gain.zero

/-- The tour whose stops at the positions from `i` to `j`, both included, come in reverse. The
segment may be empty, when it ends right before it starts. -/
def reverse (t : Tour V) (i j : Nat) : Checked (Tour V) :=
  if i ≤ j + 1 ∧ j + 1 ≤ t.size then
    let segment := (t.stops.drop i).take (j + 1 - i)
    .ok ⟨t.stops.take i ++ segment.reverse ++ t.stops.drop (j + 1)⟩
  else .error .impossibleSegment

end Tour

end Descent
