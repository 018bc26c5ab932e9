import Descent.Siting.Run

/-!
# Medians

The k-median problem: keep the number of medians, and exchange them for other candidates as long
as that lowers the sum of the distances from each client to its nearest median. It is a siting
problem in which opening is free and only exchanges are made; since an exchange opens before it
closes, no client is ever without a median.
-/

namespace Descent

/-- What a search for medians reports. -/
structure MedianReport (V D : Type) where
  medians : List V
  cost : D
  record : Record D

/-- The siting problem of a metric: opening is free, and so is a client without service. -/
def SitingProblem.free {V D : Type} [Gain D] (distance : Metric V D) : SitingProblem V D where
  distance
  unserved := Gain.zero
  openingCost _ := Gain.zero

/-- Searches for medians from initial ones, among these and further candidates; refused if there
is no initial median. -/
def findMedians {V D : Type} [Vertex V] [Distance D] (distance : Metric V D)
    (config : SearchConfig) (medians candidates clients : List V) :
    Checked (Except (Refusal V) (MedianReport V D)) := do
  let start := AscendingSet.ofList medians
  if start.isEmpty then return .error .noMedians
  let others := (AscendingSet.ofList candidates).diff start
  let problem := SitingProblem.free distance
  match ← Plan.build problem start.toList others.toList clients with
  | .error refusal => pure (.error refusal)
  | .ok plan =>
    let siting : SitingConfig := { config with kinds := .exchangeOnly }
    match ← (Roster.ofPlan plan).optimize problem siting with
    | .error refusal => pure (.error refusal)
    | .ok run =>
      pure (.ok { medians := run.report.chosen, cost := run.report.cost, record := run.report.record })

end Descent
