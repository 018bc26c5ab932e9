import Descent.Tour.TwoEdge

/-!
# Tour runs

A tour run exchanges edges until no exchange shortens the tour, or a cap is reached, and reports
the length after every exchange.
-/

namespace Descent

/-- What a tour run ends with: the final length, the record of the run, and the tour. -/
structure TourRun (V D : Type) where
  length : D
  record : Record D
  tour : Tour V

namespace Tour

variable {V D : Type} [Distance D]

/-- What a run reports that leaves a tour behind. Every exchange has put a length in the history
after the first one. -/
def report (distance : Metric V D) (scans : Nat) (converged : Bool) (history : List D)
    (t : Tour V) : Checked (TourRun V D) := do
  let length ← t.length distance
  pure {
    length
    record := { passes := scans, improvements := history.length - 1, converged, history }
    tour := t }

/-- Exchanges edges until no exchange shortens the tour or the cap is reached. The count of scans
has room for a number of further ones, and leaves its word at the next. -/
def shortenWithin (distance : Metric V D) (config : SearchConfig) :
    Nat → Nat → List D → Tour V → Checked (TourRun V D)
  | 0, scans, history, t =>
    if config.cap = 0 ∨ scans < config.cap then throw (.overflow .add)
    else t.report distance scans false history
  | room + 1, scans, history, t =>
    if config.cap = 0 ∨ scans < config.cap then do
      let pass ← (engine distance config).search ⟨t, (), ()⟩
      let t := pass.state.solution
      if pass.improved then
        let length ← t.length distance
        shortenWithin distance config room (scans + 1) (history ++ [length]) t
      else t.report distance (scans + 1) true history
    else t.report distance scans false history

/-- Shortens a tour by exchanging edges. -/
def shorten (distance : Metric V D) (config : SearchConfig) (t : Tour V) :
    Checked (TourRun V D) := do
  let start ← t.length distance
  t.shortenWithin distance config config.budget 0 [start]

end Tour

end Descent
