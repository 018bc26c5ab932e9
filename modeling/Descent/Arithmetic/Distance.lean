import Descent.Arithmetic.Fault

/-!
# Gains, distances and scalars

Three classes of numbers. A gain can be compared, with zero above all; a distance can also be
added, subtracted and negated, and each of these may fault; a scalar is a number for
temperatures and probabilities, on which every operation has a result.
-/

namespace Descent

/-- A value that scores moves. -/
class Gain (G : Type) where
  zero : G
  /-- Strictly below. -/
  lt : G → G → Bool

namespace Gain

variable {G : Type} [Gain G]

/-- A gain improves when it is strictly above zero. -/
def improves (g : G) : Bool := lt zero g

end Gain

/-- A value that measures lengths and costs. -/
class Distance (D : Type) extends Gain D where
  same : D → D → Bool
  add : D → D → Checked D
  sub : D → D → Checked D
  neg : D → Checked D

namespace Distance

variable {D : Type} [Distance D]

/-- The distance from zero: a value below zero is negated. -/
def magnitude (d : D) : Checked D :=
  if Gain.lt d Gain.zero then neg d else pure d

/-- The sum of a list, from left to right and from zero. -/
def sum (ds : List D) : Checked D :=
  ds.foldlM add Gain.zero

end Distance

/-- Numbers for temperatures and chances. -/
class Scalar (R : Type) extends Gain R where
  /-- At or below. -/
  le : R → R → Bool
  ofNat : Nat → R
  add : R → R → R
  sub : R → R → R
  mul : R → R → R
  div : R → R → R
  /-- The larger of two numbers; an undefined one is passed over. -/
  larger : R → R → R

/-- Scalars with what a random acceptance needs. -/
class Chance (R : Type) extends Scalar R where
  exp : R → R
  /-- Below every number. -/
  lowest : R
  /-- The least positive number of full precision. -/
  tiniest : R
  /-- The fraction `n / 2 ^ 52` of the unit interval, for `n < 2 ^ 52`. -/
  unit : Nat → R

/-- The draws of a random source, in order: each is a fraction of the unit interval, a multiple of
`2 ^ (-52)` that is given by its numerator. -/
abbrev Draws := Nat → Fin (Nat.pow 2 52)

/-- Gains that can be read as scalars. -/
class Measured (G R : Type) where
  toScalar : G → R

end Descent
