import Descent.Arithmetic.Magnitude

/-!
# Numbers in positional notation

A double-precision number is written with the fewest digits that read back as the number, the
nearest such digits, and never with an exponent. A whole number has no point.
-/

namespace Descent.Text

/-- A positive number together with the interval of reals that round to it, all three as
fractions over one denominator. -/
structure Neighbourhood where
  low : Nat
  value : Nat
  high : Nat
  denominator : Nat
  /-- Whether the ends of the interval round to the number too. -/
  closed : Bool

namespace Neighbourhood

/-- The neighbourhood of a magnitude above zero. Below a power of two the numbers lie twice as
close as above it. -/
def ofMagnitude (m : Magnitude) : Neighbourhood :=
  let scale := Nat.pow 2 (m.exponent - 2).toNat
  let below := if m.mantissa = Nat.pow 2 52 ∧ -1074 < m.exponent then 1 else 2
  { low := (4 * m.mantissa - below) * scale
    value := 4 * m.mantissa * scale
    high := (4 * m.mantissa + 2) * scale
    denominator := Nat.pow 2 (2 - m.exponent).toNat
    closed := m.mantissa % 2 = 0 }

/-- The neighbourhood measured in units of `10 ^ place`. -/
def inUnits (n : Neighbourhood) (place : Int) : Neighbourhood :=
  let up := Nat.pow 10 (-place).toNat
  { n with
    low := n.low * up
    value := n.value * up
    high := n.high * up
    denominator := n.denominator * Nat.pow 10 place.toNat }

/-- Whether a whole number of units lies in the interval. -/
def holds (n : Neighbourhood) (k : Nat) : Bool :=
  let x := k * n.denominator
  if n.closed then n.low ≤ x && x ≤ n.high else n.low < x && x < n.high

/-- The whole number of units that stands for the value: of its two neighbours the one that
lies in the interval, the nearer one if both do, and the upper one at equal distance. -/
def units? (n : Neighbourhood) : Option Nat :=
  let lower := n.value / n.denominator
  match n.holds lower, n.holds (lower + 1) with
  | false, false => none
  | true, false => some lower
  | false, true => some (lower + 1)
  | true, true =>
    if n.value - lower * n.denominator < (lower + 1) * n.denominator - n.value then some lower
    else some (lower + 1)

/-- Looks through the decimal places from a coarse one downwards for the first on which a whole
number of units stands for the value. -/
def coarsest (n : Neighbourhood) : (steps : Nat) → (place : Int) → Option (Nat × Int)
  | 0, _ => none
  | steps + 1, place =>
    match (n.inUnits place).units? with
    | some k => some (k, place)
    | none => n.coarsest steps (place - 1)

end Neighbourhood

/-- The number `k * 10 ^ place` in positional notation. -/
def positional (k : Nat) (place : Int) : String :=
  let digits := toString k
  if 0 ≤ place then digits ++ String.ofList (List.replicate place.toNat '0')
  else
    let places := (-place).toNat
    let padded := List.replicate (places + 1 - digits.length) '0' ++ digits.toList
    let whole := padded.take (padded.length - places)
    let fraction := padded.drop (padded.length - places)
    String.ofList whole ++ "." ++ String.ofList fraction

/-- A number in positional notation, with the fewest digits that read back. -/
def ofFloat (x : Float) : String :=
  if x.isNaN then "NaN"
  else
    let sign := if x.toBits.toNat < Nat.pow 2 63 then "" else "-"
    let m := Magnitude.ofFloat x
    if x.isInf then sign ++ "inf"
    else if m.mantissa = 0 then sign ++ "0"
    else
      match (Neighbourhood.ofMagnitude m).coarsest 700 310 with
      | some (k, place) => sign ++ positional k place
      | none => sign ++ toString m.mantissa

end Descent.Text
