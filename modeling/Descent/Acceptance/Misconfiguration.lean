/-!
# Unusable configurations

Why the configuration of an acceptance rule is not usable.
-/

namespace Descent

/-- A configuration value outside its range; `R` is the type of temperatures. -/
inductive Misconfiguration (R : Type) where
  | initialNotPositive
  | minimumNotPositive
  | minimumNotBelowInitial
  | ratioOutside (ratio : R)
  | rateNotPositive (rate : R)
  | stepsNotPositive
  | tenureNotPositive
deriving DecidableEq

namespace Misconfiguration

/-- The text of a misconfiguration, where numbers are written by a given function. -/
def reason {R : Type} (render : R → String) : Misconfiguration R → String
  | initialNotPositive => "initial_temperature must be positive"
  | minimumNotPositive => "min_temperature must be positive"
  | minimumNotBelowInitial => "min_temperature must be less than initial_temperature"
  | ratioOutside ratio => s!"geometric alpha must be in (0, 1), got {render ratio}"
  | rateNotPositive rate => s!"lundy-mees beta must be positive, got {render rate}"
  | stepsNotPositive => "linear steps must be positive"
  | tenureNotPositive => "tenure must be positive"

end Misconfiguration

end Descent
