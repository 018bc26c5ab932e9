import Descent.Search.Engine
import Descent.Siting.Roster

/-!
# Searching for a better plan

The parts of a search over a roster. Around a closed facility there is one move, to open it;
around an open one there are the move to close it and its exchanges for each closed facility, in
ascending order. The gain of an update is what it would save.
-/

namespace Descent

namespace Roster

variable {V D : Type} [Vertex V] [Distance D]

/-- The updates of the enabled kinds around a facility. -/
def neighborhood (kinds : MoveKinds) (r : Roster V D) (entry : Facility V) : List (Update V) :=
  if entry.isChosen then
    (if kinds.closing then [.closing entry.vertex] else []) ++
      (if kinds.exchange then r.idle.toList.map (.exchange entry.vertex) else [])
  else if kinds.opening then [.opening entry.vertex]
  else []

/-- What an update would save; nothing, if it is not legal. -/
def saving (problem : SitingProblem V D) (r : Roster V D) (u : Update V) : Checked D := do
  match ← r.plan.delta problem u with
  | .ok change => Distance.neg change
  | .error _ => pure Gain.zero

/-- Scores updates by what they would save. -/
def savings (problem : SitingProblem V D) :
    Evaluator Unit (Roster V D) (Facility V) (Update V) D :=
  .ofFunction fun r _ u => r.saving problem u

/-- Makes an update, and says whether it was legal. -/
def commit (problem : SitingProblem V D) (r : Roster V D) (u : Update V) :
    Checked (Bool × Roster V D) := do
  let attempt ← r.apply problem u
  match attempt.outcome with
  | .ok _ => pure (true, attempt.state)
  | .error _ => pure (false, attempt.state)

/-- The search over a roster, with any evaluator and any stop rule. -/
def engine {σ τ G : Type} (problem : SitingProblem V D) (kinds : MoveKinds)
    (evaluator : Evaluator σ (Roster V D) (Facility V) (Update V) G)
    (stop : StopRule τ (Roster V D) (Facility V) (Update V)) (config : SearchConfig) :
    Engine σ τ (Roster V D) (Facility V) (Update V) G where
  elements r := r.facilities
  neighborhood := neighborhood kinds
  evaluator
  commit r _ u := r.commit problem u
  stop
  config

end Roster

end Descent
