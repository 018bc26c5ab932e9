import Descent.Proofs.Voronoi.Cost
import Descent.Siting.Plan

/-!
# The objective of a siting problem

What a set of open facilities costs, from scratch and in the integers: the opening costs, and for
every distinct client the distance to its nearest open facility. Beside it stand the sets that an
update leads to, and which updates are legal.
-/

namespace Descent

/-! ## Sums over sets -/

namespace AscendingSet

variable {V : Type} [Vertex V] {s : AscendingSet V} {a : V}

theorem nodup (s : AscendingSet V) : s.toList.Nodup := s.ascending.imp Vertex.ne_of_lt

theorem sum_insertList {l : List V} (h : a ∉ l) (f : V → Int) :
    ((insertList a l).map f).sum = f a + (l.map f).sum := by
  induction l with
  | nil => rfl
  | cons b rest ih =>
    rw [List.mem_cons, not_or] at h
    unfold insertList
    split
    · rfl
    · rw [if_neg h.1, List.map_cons, List.map_cons, List.sum_cons, List.sum_cons, ih h.2]
      omega

theorem sum_insert (h : a ∉ s) (f : V → Int) :
    ((s.insert a).toList.map f).sum = f a + (s.toList.map f).sum :=
  sum_insertList h f

theorem insert_erase (h : a ∈ s) : (s.erase a).insert a = s := by
  apply ext_mem
  intro x
  rw [mem_insert, mem_erase]
  by_cases hx : x = a
  · subst hx
    simp [h]
  · simp [hx]

theorem sum_erase (h : a ∈ s) (f : V → Int) :
    ((s.erase a).toList.map f).sum = (s.toList.map f).sum - f a := by
  have hsum := sum_insert (show a ∉ s.erase a by simp) f
  rw [insert_erase h] at hsum
  omega

end AscendingSet

/-! ## Updates of sets -/

namespace Update

variable {V : Type} [Vertex V]

/-- The open facilities after an update. -/
def chosenAfter (chosen : AscendingSet V) : Update V → AscendingSet V
  | opening f => chosen.insert f
  | closing f => chosen.erase f
  | exchange closed opened => (chosen.insert opened).erase closed

/-- The closed facilities after an update. -/
def unchosenAfter (unchosen : AscendingSet V) : Update V → AscendingSet V
  | opening f => unchosen.erase f
  | closing f => unchosen.insert f
  | exchange closed opened => (unchosen.erase opened).insert closed

/-- An update only opens what is closed and only closes what is open. -/
def Legal (chosen unchosen : AscendingSet V) : Update V → Prop
  | opening f => f ∈ unchosen
  | closing f => f ∈ chosen
  | exchange closed opened => closed ∈ chosen ∧ opened ∈ unchosen

variable {chosen unchosen : AscendingSet V} {u : Update V}

/-- An update keeps the two sets apart. -/
theorem disjoint_after (u : Update V) (h : ∀ f ∈ chosen, f ∉ unchosen) :
    ∀ f ∈ u.chosenAfter chosen, f ∉ u.unchosenAfter unchosen := by
  intro f
  have hf := h f
  cases u with
  | opening g =>
    simp only [chosenAfter, unchosenAfter, AscendingSet.mem_insert, AscendingSet.mem_erase]
    tauto
  | closing g =>
    simp only [chosenAfter, unchosenAfter, AscendingSet.mem_insert, AscendingSet.mem_erase]
    tauto
  | exchange closed opened =>
    simp only [chosenAfter, unchosenAfter, AscendingSet.mem_insert, AscendingSet.mem_erase]
    tauto

/-- A legal update neither adds a facility nor loses one. -/
theorem Legal.mem_after (hu : u.Legal chosen unchosen) (f : V) :
    f ∈ u.chosenAfter chosen ∨ f ∈ u.unchosenAfter unchosen ↔ f ∈ chosen ∨ f ∈ unchosen := by
  cases u with
  | opening g =>
    have hg : g ∈ unchosen := hu
    simp only [chosenAfter, unchosenAfter, AscendingSet.mem_insert, AscendingSet.mem_erase]
    by_cases hf : f = g
    · simp [hf, hg]
    · simp [hf]
  | closing g =>
    have hg : g ∈ chosen := hu
    simp only [chosenAfter, unchosenAfter, AscendingSet.mem_insert, AscendingSet.mem_erase]
    by_cases hf : f = g
    · simp [hf, hg]
    · simp [hf]
  | exchange closed opened =>
    obtain ⟨hclosed, hopened⟩ : closed ∈ chosen ∧ opened ∈ unchosen := hu
    simp only [chosenAfter, unchosenAfter, AscendingSet.mem_insert, AscendingSet.mem_erase]
    by_cases hfc : f = closed
    · simp [hfc, hclosed]
    · by_cases hfo : f = opened
      · subst hfo
        simp [hfc, hopened]
      · simp [hfc, hfo]

end Update

namespace SitingProblem

variable {V : Type} [Vertex V] {bits : Nat}

/-- The opening costs of some facilities, added up in the integers. -/
def openingTotal (problem : SitingProblem V (Signed bits)) (chosen : List V) : Int :=
  (chosen.map fun f => (problem.openingCost f).val).sum

/-- The opening cost and the cost of the service by some facilities, in the integers. -/
def objective (problem : SitingProblem V (Signed bits)) (clients chosen : List V) :
    Checked Int := do
  let service ← problem.toSpace.totalCost chosen clients
  pure (problem.openingTotal chosen + service)

end SitingProblem

end Descent
