import Descent.Acceptance.Misconfiguration
import Descent.Arithmetic.Binary

/-!
# Cooling schedules

How the temperature of an annealing run falls from commit to commit, and never below a minimum.
Two schedules go on from the present temperature, by a ratio or by a rate; the linear one goes
from the initial temperature to the minimum in equal steps.
-/

namespace Descent

/-- How the temperature falls. -/
inductive Cooling (R : Type) where
  /-- Each temperature is the same part of the one before. -/
  | geometric (ratio : R)
  /-- Equal steps from the initial temperature down to the minimum. -/
  | linear (steps : Nat)
  /-- Each temperature `t` is followed by `t / (1 + rate * t)`. -/
  | harmonic (rate : R)

/-- The temperatures of an annealing run, and the seed of its draws if one is fixed. -/
structure AnnealingConfig (R : Type) where
  initial : R
  minimum : R
  cooling : Cooling R
  seed : Option UInt64

namespace AnnealingConfig

/-- From 100 degrees down to a millionth, by 0.95 at a time, with no fixed seed. -/
def standard : AnnealingConfig Float where
  initial := 100.0
  minimum := 1e-6
  cooling := .geometric 0.95
  seed := none

variable {R : Type} [Scalar R]

/-- Refuses a ratio at or below zero, or at or above one; a rate at or below zero; no steps. -/
def validateCooling : Cooling R → Except (Misconfiguration R) Unit
  | .geometric ratio =>
    if Scalar.le ratio Gain.zero || Scalar.le (Scalar.ofNat 1) ratio then .error (.ratioOutside ratio)
    else .ok ()
  | .harmonic rate =>
    if Scalar.le rate Gain.zero then .error (.rateNotPositive rate) else .ok ()
  | .linear steps => if steps = 0 then .error .stepsNotPositive else .ok ()

/-- Refuses temperatures at or below zero, a minimum at or above the initial temperature, and
parameters of the schedule outside their range, in this order. -/
def validate (c : AnnealingConfig R) : Except (Misconfiguration R) Unit :=
  if Scalar.le c.initial Gain.zero then .error .initialNotPositive
  else if Scalar.le c.minimum Gain.zero then .error .minimumNotPositive
  else if Scalar.le c.initial c.minimum then .error .minimumNotBelowInitial
  else validateCooling c.cooling

/-- The temperature that a schedule puts after the present one, at the commit of a number that
counts from zero. -/
def scheduled (c : AnnealingConfig R) (temperature : R) (commit : Nat) : R :=
  match c.cooling with
  | .geometric ratio => Scalar.mul temperature ratio
  | .linear steps =>
    Scalar.sub c.initial
      (Scalar.div (Scalar.mul (Scalar.ofNat (commit + 1)) (Scalar.sub c.initial c.minimum))
        (Scalar.ofNat steps))
  | .harmonic rate =>
    Scalar.div temperature (Scalar.add (Scalar.ofNat 1) (Scalar.mul rate temperature))

/-- The temperature after the present one: the scheduled one, but no less than the minimum. -/
def cool (c : AnnealingConfig R) (temperature : R) (commit : Nat) : R :=
  Scalar.larger (c.scheduled temperature commit) c.minimum

/-- Whether a temperature has come down to the minimum. -/
def isFrozen (c : AnnealingConfig R) (temperature : R) : Bool := Scalar.le temperature c.minimum

end AnnealingConfig

end Descent
