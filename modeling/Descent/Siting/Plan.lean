import Descent.Refusal
import Descent.Siting.Update
import Descent.Voronoi.Delta

/-!
# Siting plans

A plan says which facilities of a fixed universe are open and which are closed, and serves every
client from its nearest open facility. Its cost is the opening cost of the open facilities plus
the cost of the service. Updates return by how much the cost changed; the same changes can be
asked for without making them. An update that is not legal is refused.
-/

namespace Descent

/-- The data of a siting problem: a space, and what each facility costs when it is open. -/
structure SitingProblem (V D : Type) extends Space V D where
  openingCost : V → D

/-- Open facilities with the clients that they serve, and closed facilities. -/
structure Plan (V D : Type) [Vertex V] where
  service : Voronoi V D
  unchosen : AscendingSet V

namespace Plan

variable {V D : Type} [Vertex V] [Distance D]

/-- The plan with the given open and closed facilities and clients; refused, with the lowest
common facility, if a facility is listed as both. -/
def build (problem : SitingProblem V D) (chosen unchosen clients : List V) :
    Checked (Except (Refusal V) (Plan V D)) :=
  let closed := AscendingSet.ofList unchosen
  match (AscendingSet.ofList chosen).lowestCommon? closed with
  | some f => pure (.error (.overlapping f))
  | none => do pure (.ok ⟨← Voronoi.build problem.toSpace chosen clients, closed⟩)

/-- The open facilities. -/
def chosen (p : Plan V D) : AscendingSet V := p.service.generators

/-- The opening cost of the open facilities, added in ascending order. -/
def openingCost (problem : SitingProblem V D) (p : Plan V D) : Checked D :=
  Distance.sum (p.chosen.toList.map problem.openingCost)

/-- The opening cost and the cost of the service. -/
def totalCost (problem : SitingProblem V D) (p : Plan V D) : Checked D := do
  Distance.add (← p.openingCost problem) p.service.cost

/-- Refuses a facility that is not closed. -/
def requireClosed (p : Plan V D) (f : V) : Except (Refusal V) Unit :=
  if f ∈ p.unchosen then .ok ()
  else if f ∈ p.chosen then .error (.alreadyChosen f)
  else .error (.unknown f)

/-- Refuses a facility that is not open. -/
def requireOpen (p : Plan V D) (f : V) : Except (Refusal V) Unit :=
  if f ∈ p.chosen then .ok ()
  else if f ∈ p.unchosen then .error (.notChosen f)
  else .error (.unknown f)

/-- Opens a closed facility, and returns the change of the cost. -/
def openFacility (problem : SitingProblem V D) (p : Plan V D) (f : V) :
    Checked (Attempt V (Plan V D) D) :=
  match p.requireClosed f with
  | .error refusal => pure ⟨.error refusal, p⟩
  | .ok () => do
    let (delta, service) ← p.service.openGenerator problem.toSpace f
    let change ← Distance.add (problem.openingCost f) delta
    pure ⟨.ok change, ⟨service, p.unchosen.erase f⟩⟩

/-- Closes an open facility, and returns the change of the cost. -/
def closeFacility (problem : SitingProblem V D) (p : Plan V D) (f : V) :
    Checked (Attempt V (Plan V D) D) :=
  match p.requireOpen f with
  | .error refusal => pure ⟨.error refusal, p⟩
  | .ok () => do
    let (delta, service) ← p.service.closeGenerator problem.toSpace f
    let saved ← Distance.neg (problem.openingCost f)
    let change ← Distance.add saved delta
    pure ⟨.ok change, ⟨service, p.unchosen.insert f⟩⟩

/-- Refuses an exchange unless the first facility is open and the second one is closed. -/
def requireExchange (p : Plan V D) (closed opened : V) : Except (Refusal V) Unit := do
  p.requireOpen closed
  p.requireClosed opened

/-- Makes an update, and returns the change of the cost. An exchange opens before it closes, so
that clients are never without service in between. -/
def apply (problem : SitingProblem V D) (p : Plan V D) :
    Update V → Checked (Attempt V (Plan V D) D)
  | .opening f => p.openFacility problem f
  | .closing f => p.closeFacility problem f
  | .exchange closed opened =>
    match p.requireExchange closed opened with
    | .error refusal => pure ⟨.error refusal, p⟩
    | .ok () => do
      (← p.openFacility problem opened).andThen fun gained p => do
        (← p.closeFacility problem closed).andThen fun saved p => do
          pure ⟨.ok (← Distance.add gained saved), p⟩

/-- The change of the cost that opening a facility would bring. -/
def openingDelta (problem : SitingProblem V D) (p : Plan V D) (f : V) :
    Checked (Except (Refusal V) D) :=
  match p.requireClosed f with
  | .error refusal => pure (.error refusal)
  | .ok () => do
    let delta ← p.service.openingDelta problem.toSpace f
    pure (.ok (← Distance.add (problem.openingCost f) delta))

/-- The change of the cost that closing a facility would bring. -/
def closingDelta (problem : SitingProblem V D) (p : Plan V D) (f : V) :
    Checked (Except (Refusal V) D) :=
  match p.requireOpen f with
  | .error refusal => pure (.error refusal)
  | .ok () => do
    let saved ← Distance.neg (problem.openingCost f)
    let delta ← p.service.closingDelta problem.toSpace f
    pure (.ok (← Distance.add saved delta))

/-- The change of the cost that an exchange would bring. -/
def exchangeDelta (problem : SitingProblem V D) (p : Plan V D) (closed opened : V) :
    Checked (Except (Refusal V) D) :=
  match p.requireExchange closed opened with
  | .error refusal => pure (.error refusal)
  | .ok () => do
    let opening ← Distance.sub (problem.openingCost opened) (problem.openingCost closed)
    let delta ← p.service.exchangeDelta problem.toSpace closed opened
    pure (.ok (← Distance.add opening delta))

/-- The change of the cost that an update would bring. -/
def delta (problem : SitingProblem V D) (p : Plan V D) :
    Update V → Checked (Except (Refusal V) D)
  | .opening f => p.openingDelta problem f
  | .closing f => p.closingDelta problem f
  | .exchange closed opened => p.exchangeDelta problem closed opened

/-- A short text about a plan: its open and closed facilities and the cost of the service. -/
def describe (render : D → String) (p : Plan V D) : String :=
  Text.labelled "FacilityLocationSolution"
    [("chosen", Text.braced (p.chosen.toList.map Vertex.label)),
     ("unchosen", Text.braced (p.unchosen.toList.map Vertex.label)),
     ("service_cost", render p.service.cost)]

end Plan

end Descent
