import Descent.Siting.Plan

/-!
# Rosters

A roster lists the facilities of a plan in a fixed order, each with a mark that says whether it
is open, and keeps a set of the closed ones at hand. The list is what a search walks over. Every
update of the plan is entered in the list and in the set.

The entry of a facility is searched for in the list. No entry ever moves, so a table of their places
that is filled with the list would find the same one (`Roster.History.lookup`).
-/

namespace Descent

/-- A facility of a roster, marked as open or closed. -/
structure Facility (V : Type) where
  vertex : V
  isChosen : Bool
deriving DecidableEq

/-- A plan, its facilities in a fixed order, and the closed ones as a set. -/
structure Roster (V D : Type) [Vertex V] where
  plan : Plan V D
  facilities : List (Facility V)
  idle : AscendingSet V

namespace Roster

variable {V D : Type} [Vertex V] [Distance D]

/-- The roster of a plan: the open facilities in ascending order, then the closed ones. -/
def ofPlan (plan : Plan V D) : Roster V D where
  plan
  facilities :=
    plan.chosen.toList.map (fun f => ⟨f, true⟩) ++ plan.unchosen.toList.map (fun f => ⟨f, false⟩)
  idle := plan.unchosen

/-- The entry of a facility. -/
def get? (r : Roster V D) (f : V) : Option (Facility V) :=
  r.facilities.find? fun entry => decide (entry.vertex = f)

/-- Marks a facility as open or closed; refused if it has no entry. -/
def mark (r : Roster V D) (f : V) (isChosen : Bool) : Attempt V (Roster V D) Unit :=
  match r.facilities.findIdx? fun entry => decide (entry.vertex = f) with
  | none => ⟨.error (.unknown f), r⟩
  | some i =>
    ⟨.ok (), { r with
      facilities := r.facilities.modify i fun entry => { entry with isChosen } }⟩

/-- Marks a facility as open and takes it out of the closed ones. -/
def markOpen (r : Roster V D) (f : V) : Attempt V (Roster V D) Unit :=
  let marked := r.mark f true
  match marked.outcome with
  | .error _ => marked
  | .ok () => { marked with state := { marked.state with idle := marked.state.idle.erase f } }

/-- Marks a facility as closed and puts it among the closed ones. -/
def markClosed (r : Roster V D) (f : V) : Attempt V (Roster V D) Unit :=
  let marked := r.mark f false
  match marked.outcome with
  | .error _ => marked
  | .ok () => { marked with state := { marked.state with idle := marked.state.idle.insert f } }

/-- The outcome of an update of the plan, with the roster that holds the plan as it is now. -/
def withPlan (r : Roster V D) (a : Attempt V (Plan V D) D) : Attempt V (Roster V D) D :=
  ⟨a.outcome, { r with plan := a.state }⟩

/-- Opens a facility, and returns the change of the cost. -/
def openFacility (problem : SitingProblem V D) (r : Roster V D) (f : V) :
    Checked (Attempt V (Roster V D) D) := do
  (r.withPlan (← r.plan.openFacility problem f)).andThen fun change r =>
    (r.markOpen f).andThen fun _ r => pure ⟨.ok change, r⟩

/-- Closes a facility, and returns the change of the cost. -/
def closeFacility (problem : SitingProblem V D) (r : Roster V D) (f : V) :
    Checked (Attempt V (Roster V D) D) := do
  (r.withPlan (← r.plan.closeFacility problem f)).andThen fun change r =>
    (r.markClosed f).andThen fun _ r => pure ⟨.ok change, r⟩

/-- Enters what an update opened. -/
def enterOpened (r : Roster V D) (u : Update V) : Attempt V (Roster V D) Unit :=
  match u.opened? with
  | none => ⟨.ok (), r⟩
  | some f => r.markOpen f

/-- Enters what an update closed. -/
def enterClosed (r : Roster V D) (u : Update V) : Attempt V (Roster V D) Unit :=
  match u.closed? with
  | none => ⟨.ok (), r⟩
  | some f => r.markClosed f

/-- Makes an update, and returns the change of the cost. -/
def apply (problem : SitingProblem V D) (r : Roster V D) (u : Update V) :
    Checked (Attempt V (Roster V D) D) := do
  (r.withPlan (← r.plan.apply problem u)).andThen fun change r =>
    (r.enterOpened u).andThen fun _ r =>
      (r.enterClosed u).andThen fun _ r => pure ⟨.ok change, r⟩

/-- A short text about an entry. -/
def describeEntry (entry : Facility V) : String :=
  Text.labelled "Facility"
    [("vertex", Vertex.label entry.vertex), ("is_chosen", toString entry.isChosen)]

/-- A short text about a roster: its plan and its entries. -/
def describe (render : D → String) (r : Roster V D) : String :=
  Text.labelled "FacilitySolutionAdapter"
    [("solution", r.plan.describe render),
     ("facilities", Text.bracketed (r.facilities.map describeEntry))]

end Roster

end Descent
