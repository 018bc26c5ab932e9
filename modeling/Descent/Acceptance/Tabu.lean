import Descent.Acceptance.Misconfiguration
import Descent.Acceptance.TabuList
import Descent.Arithmetic.Distance
import Descent.Search.Component

/-!
# Tabu scores

A tabu evaluator scores a move below all others as long as one of its attributes is in the list
of the latest ones, and adds the attributes of every committed move to that list. With
aspiration, a move of positive gain keeps its gain.
-/

namespace Descent

/-- How many attributes are tabu, and whether a positive gain lifts the ban. -/
structure TabuConfig where
  tenure : Nat := 7
  aspiration : Bool := true
deriving DecidableEq

namespace TabuConfig

/-- Refuses a tenure of zero. -/
def validate {R : Type} (c : TabuConfig) : Except (Misconfiguration R) Unit :=
  if c.tenure = 0 then .error .tenureNotPositive else .ok ()

/-- The score of a move with a given inner gain, tabu or not. -/
def score {R : Type} [Chance R] (c : TabuConfig) (isTabu : Bool) (gain : R) : R :=
  if isTabu && !(c.aspiration && Gain.improves gain) then Chance.lowest else gain

end TabuConfig

/-- The memory of an inner evaluator with the list of a tabu one around it. -/
structure TabuMemory (σ K : Type) where
  inner : σ
  list : TabuList K

namespace TabuList

/-- The empty list, if the configuration is usable. -/
def start? {R K : Type} (c : TabuConfig) : Except (Misconfiguration R) (TabuList K) :=
  match c.validate with
  | .error cause => .error cause
  | .ok () => .ok ⟨[], ⟨[]⟩⟩

end TabuList

namespace Evaluator

variable {σ S E M G R K : Type}

/-- An evaluator with tabu scores, where a function gives the attributes of a move. -/
def tabu [DecidableEq K] [Measured G R] [Chance R] (c : TabuConfig) (attributes : E → M → List K)
    (inner : Evaluator σ S E M G) : Evaluator (TabuMemory σ K) S E M R where
  score memory s e m := do
    let (gain, innerMemory) ← inner.score memory.inner s e m
    let isTabu := (attributes e m).any memory.list.holds
    pure (c.score isTabu (Measured.toScalar gain), ⟨innerMemory, memory.list⟩)
  notice memory s e m := do
    let innerMemory ← inner.notice memory.inner s e m
    let list ← memory.list.pushAll c.tenure (attributes e m)
    pure ⟨innerMemory, list⟩

end Evaluator

end Descent
