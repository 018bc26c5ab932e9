import Descent.Siting.Moves

/-!
# Siting runs

A siting run repeats passes over a roster until no update improves it, or a cap is reached, and
reports the open facilities, the cost, and the cost after every committed update.
-/

namespace Descent

/-- How a siting run goes about its work. -/
structure SitingConfig extends SearchConfig where
  kinds : MoveKinds := .all
deriving DecidableEq

namespace SitingConfig

/-- Refuses a configuration that enables no kind of update. -/
def validate {V : Type} (c : SitingConfig) : Except (Refusal V) Unit :=
  if c.kinds.any then .ok ()
  else .error (.invalidConfig "at least one move kind must be enabled")

end SitingConfig

/-- What a siting run reports. -/
structure SitingReport (V D : Type) where
  chosen : List V
  cost : D
  record : Record D

/-- What a siting run ends with: its report, the roster, and what the evaluator remembers. -/
structure SitingRun (σ V D : Type) [Vertex V] where
  report : SitingReport V D
  roster : Roster V D
  evaluator : σ

namespace Roster

variable {σ V D G : Type} [Vertex V] [Distance D] [Gain G]

/-- What a run reports that leaves a roster behind. -/
def report (problem : SitingProblem V D) (record : Record D)
    (state : SearchState σ Unit (Roster V D)) : Checked (SitingRun σ V D) := do
  let roster := state.solution
  let cost ← roster.plan.totalCost problem
  pure {
    report := { chosen := roster.plan.chosen.toList, cost, record }
    roster
    evaluator := state.evaluator }

/-- Repeats passes until one commits no update or the cap is reached. The count of passes has room
for a number of further ones, and leaves its word at the next. -/
def optimizeWithin (problem : SitingProblem V D) (config : SitingConfig)
    (evaluator : Evaluator σ (Roster V D) (Facility V) (Update V) G) :
    Nat → Record D → SearchState σ Unit (Roster V D) → Checked (SitingRun σ V D)
  | 0, record, state =>
    if config.cap = 0 ∨ record.passes < config.cap then throw (.overflow .add)
    else report problem record state
  | room + 1, record, state =>
    if config.cap = 0 ∨ record.passes < config.cap then do
      let passes := record.passes + 1
      let pass ← (engine problem config.kinds evaluator .never config.toSearchConfig).search state
      if pass.improved then
        let improvements := record.improvements + 1
        let cost ← pass.state.solution.plan.totalCost problem
        let history := record.history ++ [cost]
        optimizeWithin problem config evaluator room { record with passes, improvements, history }
          pass.state
      else report problem { record with passes, converged := true } pass.state
    else report problem record state

/-- Runs the search over a roster with a given evaluator. -/
def optimizeWith (problem : SitingProblem V D) (config : SitingConfig)
    (evaluator : Evaluator σ (Roster V D) (Facility V) (Update V) G) (memory : σ)
    (r : Roster V D) : Checked (Except (Refusal V) (SitingRun σ V D)) :=
  match config.validate with
  | .error refusal => pure (.error refusal)
  | .ok () => do
    let start ← r.plan.totalCost problem
    let run ← optimizeWithin problem config evaluator config.budget ⟨0, 0, false, [start]⟩
      ⟨r, memory, ()⟩
    pure (.ok run)

/-- Runs the search over a roster, scoring updates by what they save. -/
def optimize (problem : SitingProblem V D) (config : SitingConfig) (r : Roster V D) :
    Checked (Except (Refusal V) (SitingRun Unit V D)) :=
  r.optimizeWith problem config (savings problem) ()

end Roster

end Descent
