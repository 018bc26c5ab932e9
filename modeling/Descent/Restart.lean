import Descent.Arithmetic.Distance

/-!
# Several starts

A search is run from every start of a list; the best result is the earliest one of least cost.
-/

namespace Descent.Restart

variable {A B C : Type}

/-- The results of a search from every start, in the order of the starts. -/
def runAll (starts : List A) (search : A → Checked B) : Checked (List B) :=
  starts.mapM search

/-- The cheaper of two results, the first one at equal cost. -/
def cheaper [Gain C] (cost : B → C) (best next : B) : B :=
  if Gain.lt (cost next) (cost best) then next else best

/-- The cheapest of some results, the earliest one if several cost the same. -/
def cheapest? [Gain C] (cost : B → C) : List B → Option B
  | [] => none
  | first :: rest => some (rest.foldl (cheaper cost) first)

/-- The cheapest result of a search from every start. -/
def bestOf [Gain C] (starts : List A) (search : A → Checked B) (cost : B → C) :
    Checked (Option B) := do
  pure (cheapest? cost (← runAll starts search))

end Descent.Restart
