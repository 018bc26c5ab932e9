import Descent.Arithmetic.Magnitude

/-!
# The length of a plane vector

The root of a sum of two squares in double precision. The sum is exact and the root is rounded
once, so nothing overflows or vanishes on the way, and the result is the number nearest to the
true length.
-/

namespace Descent

namespace Magnitude

/-- The mantissa of a magnitude at a smaller exponent. -/
def mantissaAt (m : Magnitude) (exponent : Int) : Nat :=
  m.mantissa * Nat.pow 2 (m.exponent - exponent).toNat

/-- The root of the sum of the squares of two magnitudes: its integer part to at least sixty
bits, and one more bit that says whether anything is left over. -/
def hypotenuse (a b : Magnitude) : Magnitude :=
  let exponent := min a.exponent b.exponent
  let x := a.mantissaAt exponent
  let y := b.mantissaAt exponent
  let square := (x * x + y * y) * Nat.pow 4 60
  let root := Nat.sqrt square
  ⟨2 * root + (if root * root = square then 0 else 1), exponent - 61⟩

end Magnitude

/-- The length of the vector `(x, y)`; it is infinite as soon as one coordinate is. -/
def hypotenuse (x y : Float) : Float :=
  if x.isInf || y.isInf then 1.0 / 0.0
  else if x.isNaN || y.isNaN then 0.0 / 0.0
  else ((Magnitude.ofFloat x).hypotenuse (Magnitude.ofFloat y)).toFloat

end Descent
