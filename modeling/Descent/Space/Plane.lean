import Descent.Arithmetic.Hypotenuse
import Descent.Arithmetic.Position
import Descent.Arithmetic.Signed
import Descent.Space.Table

/-!
# Distances from coordinates

Three ways to measure by coordinates: along a line of words, along the axes of a plane, and
straight through a plane.
-/

namespace Descent

/-- The distance between two places on a line of 64-bit words. -/
def lineDistance (a b : Signed 64) : Checked (Signed 64) := do
  Distance.magnitude (← Signed.sub a b)

/-- The distance along the axes between two points. -/
def axisDistance {D : Type} [Distance D] (p q : D × D) : Checked D := do
  let dx ← Distance.magnitude (← Distance.sub p.1 q.1)
  let dy ← Distance.magnitude (← Distance.sub p.2 q.2)
  Distance.add dx dy

/-- The table of the distances along the axes between listed points. -/
def DistanceTable.ofPoints {D : Type} [Distance D] (points : List (D × D)) :
    Checked (DistanceTable D) :=
  ofFunction points.length fun i j => do
    axisDistance (← Position.entry points i) (← Position.entry points j)

/-- Points of the plane, addressed by their position in a list. -/
structure Plane where
  points : List (Float × Float)

namespace Plane

/-- The straight distance between two listed points. -/
def distance (p : Plane) (a b : Nat) : Checked Float := do
  let u ← Position.entry p.points a
  let v ← Position.entry p.points b
  pure (hypotenuse (u.1 - v.1) (u.2 - v.2))

end Plane

end Descent
