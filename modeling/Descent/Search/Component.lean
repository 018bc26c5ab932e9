import Descent.Arithmetic.Distance

/-!
# The parts of a search

A search walks over the elements of a solution, looks at the moves around each element, scores
them, and commits one. An evaluator scores moves and is told of every committed one; a stop rule
ends the look around an element after a move that does not improve. Both may carry a state of
their own, which the search hands back to them unchanged.
-/

namespace Descent

/-- Scores moves of a solution; `σ` is what it remembers from one call to the next. -/
structure Evaluator (σ S E M G : Type) where
  /-- The gain of a move at an element. -/
  score : σ → S → E → M → Checked (G × σ)
  /-- Told of a committed move, with the solution as the move left it. -/
  notice : σ → S → E → M → Checked σ

namespace Evaluator

variable {σ S E M G : Type}

/-- An evaluator that remembers nothing. -/
def ofFunction (gain : S → E → M → Checked G) : Evaluator Unit S E M G where
  score _ s e m := do pure (← gain s e m, ())
  notice _ _ _ _ := pure ()

end Evaluator

/-- Decides, after a move that does not improve, whether to leave the element. -/
structure StopRule (τ S E M : Type) where
  check : τ → S → E → M → Bool × τ
  /-- Called at the start of every element. -/
  reset : τ → τ

namespace StopRule

variable {τ S E M : Type}

/-- Looks at every move. -/
def never : StopRule τ S E M where
  check t _ _ _ := (false, t)
  reset t := t

/-- Leaves an element at the move that brings the number of moves without improvement to a
limit. The number starts anew at every element. -/
def afterWorse (limit : Nat) : StopRule Nat S E M where
  check seen _ _ _ := (decide (limit ≤ seen + 1), seen + 1)
  reset _ := 0

/-- Leaves an element at a move of which a condition holds. -/
def onMove (condition : M → Bool) : StopRule τ S E M where
  check t _ _ m := (condition m, t)
  reset t := t

end StopRule

/-- Which improving move of an element is taken. -/
inductive Strategy where
  /-- The first one. -/
  | first
  /-- The one with the largest gain, the earliest of them if there are several. -/
  | best
deriving DecidableEq

/-- How a search goes about its work. A cap of zero leaves the number of passes open. -/
structure SearchConfig where
  strategy : Strategy := .first
  cap : Nat := 0
deriving DecidableEq

namespace SearchConfig

/-- The number of passes that a run can count: up to its cap, and without one as far as a word of
64 bits goes. -/
def budget (c : SearchConfig) : Nat :=
  if c.cap = 0 then Nat.pow 2 64 - 1 else c.cap

/-- Whether a number of passes has come to the cap. -/
def exhausted (c : SearchConfig) (passes : Nat) : Bool :=
  decide (0 < c.cap) && decide (c.cap ≤ passes)

end SearchConfig

end Descent
