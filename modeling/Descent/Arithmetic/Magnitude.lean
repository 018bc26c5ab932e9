/-!
# Magnitudes of double-precision numbers

A finite number without its sign is `mantissa * 2 ^ exponent` for a natural mantissa. This
module takes a number apart in that form and rounds any such product back to the nearest
number, a half going to the even neighbour.
-/

namespace Descent

/-- The natural multiple `mantissa` of a power of two. -/
structure Magnitude where
  mantissa : Nat
  exponent : Int
deriving DecidableEq

namespace Magnitude

/-- The magnitude of a finite number; its exponent is the least one of its binade. -/
def ofFloat (x : Float) : Magnitude :=
  let bits := x.toBits.toNat % Nat.pow 2 63
  let fraction := bits % Nat.pow 2 52
  match bits / Nat.pow 2 52 with
  | 0 => ⟨fraction, -1074⟩
  | biased + 1 => ⟨Nat.pow 2 52 + fraction, (biased : Int) - 1074⟩

/-- Divides by `2 ^ k`, to the nearest natural number; a half goes to the even one. -/
def roundShift (n k : Nat) : Nat :=
  let q := n / Nat.pow 2 k
  let r := 2 * (n % Nat.pow 2 k)
  if r < Nat.pow 2 k then q
  else if Nat.pow 2 k < r then q + 1
  else q + q % 2

/-- The bits of the number `mantissa * 2 ^ exponent`, where the mantissa has at most 53 bits
and fewer only at the least exponent. Beyond the largest number it is infinity. -/
def encode (mantissa : Nat) (exponent : Int) : Nat :=
  if mantissa < Nat.pow 2 52 then mantissa
  else
    let biased := (exponent + 1075).toNat
    if 2047 ≤ biased then 2047 * Nat.pow 2 52
    else biased * Nat.pow 2 52 + (mantissa - Nat.pow 2 52)

/-- The number nearest to a magnitude, a half going to the even neighbour. -/
def toFloat (m : Magnitude) : Float :=
  if m.mantissa = 0 then Float.ofBits 0
  else
    let exponent := max ((Nat.log2 m.mantissa : Int) - 52 + m.exponent) (-1074)
    let shift := exponent - m.exponent
    let rounded :=
      if shift ≤ 0 then m.mantissa * Nat.pow 2 (-shift).toNat
      else roundShift m.mantissa shift.toNat
    let bits :=
      if rounded = Nat.pow 2 53 then encode (Nat.pow 2 52) (exponent + 1)
      else encode rounded exponent
    Float.ofBits (UInt64.ofNat bits)

end Magnitude

end Descent
