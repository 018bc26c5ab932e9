import Descent.Arithmetic.Distance
import Descent.Arithmetic.Signed

/-!
# Binary floating-point numbers

Distances and scalars in double and in single precision. Their operations round and never
fault; comparisons with an undefined number are false.
-/

namespace Descent

instance : Gain Float where
  zero := 0
  lt a b := decide (a < b)

instance : Gain Float32 where
  zero := 0
  lt a b := decide (a < b)

instance : Distance Float where
  same a b := a == b
  add a b := .ok (a + b)
  sub a b := .ok (a - b)
  neg a := .ok (-a)

instance : Distance Float32 where
  same a b := a == b
  add a b := .ok (a + b)
  sub a b := .ok (a - b)
  neg a := .ok (-a)

namespace Binary

/-- The larger of two numbers, where an undefined one gives way to the other. -/
def larger (a b : Float) : Float :=
  if a.isNaN then b else if b.isNaN then a else if a < b then b else a

/-- The least positive number of full precision, `2 ^ (-1022)`. -/
def tiniest : Float := Float.ofBits 0x0010000000000000

/-- The number below all others. -/
def lowest : Float := -(1.0 / 0.0)

/-- The fraction `n / 2 ^ 52`. -/
def unit (n : Nat) : Float := Float.ofNat n / 4503599627370496.0

end Binary

instance : Chance Float where
  le a b := decide (a ≤ b)
  ofNat := Float.ofNat
  add a b := a + b
  sub a b := a - b
  mul a b := a * b
  div a b := a / b
  larger := Binary.larger
  exp := Float.exp
  lowest := Binary.lowest
  tiniest := Binary.tiniest
  unit := Binary.unit

instance {bits : Nat} : Measured (Signed bits) Float where
  toScalar a := Float.ofInt a.val

instance {R : Type} : Measured R R where
  toScalar a := a

instance : Measured Float32 Float where
  toScalar := Float32.toFloat

end Descent
