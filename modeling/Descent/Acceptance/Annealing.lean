import Descent.Acceptance.Cooling
import Descent.Acceptance.Keystream
import Descent.Search.Component

/-!
# Annealed scores

An annealed evaluator lets a move without gain pass as an improvement now and then: with the
probability `exp (gain / temperature)` it scores the least positive gain there is. The
temperature falls with every committed move; once it has come down to the minimum, scores are
left as they are. Positive gains are always left as they are, and use no draw.

Where the draws come from is left open (`Evaluator.annealedBy`); with a seed, they are those of its
keystream (`Evaluator.annealed`).
-/

namespace Descent

/-- What an annealed evaluator remembers besides what the inner one does. -/
structure Thermal (R : Type) where
  temperature : R
  /-- The number of committed moves. -/
  commits : Nat
  /-- The number of moves without gain that were scored as improvements. -/
  accepted : Nat
  /-- The number of draws that were used. -/
  draws : Nat

/-- The memory of an inner evaluator with that of an annealed one around it. -/
structure Annealed (σ R : Type) where
  inner : σ
  thermal : Thermal R

namespace Thermal

variable {R : Type}

/-- The memory before the first move, if the configuration is usable. -/
def start? [Scalar R] (c : AnnealingConfig R) : Except (Misconfiguration R) (Thermal R) := do
  c.validate
  pure { temperature := c.initial, commits := 0, accepted := 0, draws := 0 }

/-- The score of a move with a given inner gain. -/
def score [Chance R] (c : AnnealingConfig R) (draws : Draws) (t : Thermal R) (gain : R) :
    R × Thermal R :=
  if Gain.improves gain || c.isFrozen t.temperature then (gain, t)
  else
    let probability := Chance.exp (Scalar.div gain t.temperature)
    let drawn := Chance.unit (draws t.draws)
    let t := { t with draws := t.draws + 1 }
    if Gain.lt drawn probability then (Chance.tiniest, { t with accepted := t.accepted + 1 })
    else (gain, t)

/-- The memory after one more commit. -/
def notice [Scalar R] (c : AnnealingConfig R) (t : Thermal R) : Thermal R :=
  { t with temperature := c.cool t.temperature t.commits, commits := t.commits + 1 }

end Thermal

namespace Evaluator

variable {σ S E M G R : Type}

/-- An evaluator with annealed scores, for given draws. -/
def annealedBy [Measured G R] [Chance R] (c : AnnealingConfig R) (draws : Draws)
    (inner : Evaluator σ S E M G) : Evaluator (Annealed σ R) S E M R where
  score memory s e m := do
    let (gain, innerMemory) ← inner.score memory.inner s e m
    let (score, thermal) := memory.thermal.score c draws (Measured.toScalar gain)
    pure (score, ⟨innerMemory, thermal⟩)
  notice memory s e m := do
    let innerMemory ← inner.notice memory.inner s e m
    pure ⟨innerMemory, memory.thermal.notice c⟩

/-- An evaluator with annealed scores, whose draws are those of a seed. -/
@[reducible] def annealed [Measured G R] [Chance R] (c : AnnealingConfig R) (seed : UInt64)
    (inner : Evaluator σ S E M G) : Evaluator (Annealed σ R) S E M R :=
  annealedBy c (Keystream.draws seed) inner

end Evaluator

end Descent
