import Descent.Proofs.Siting.Roster
import Descent.Siting.Moves

/-!
# The moves of a siting search

Around the facilities of a roster that agrees with its plan, a search finds exactly the legal
updates of the enabled kinds. Each of them is made when it is committed, and its saving is what
the objective loses.
-/

namespace Descent

open Checked (Ends)

namespace Roster

section Neighborhoods

variable {V D : Type} [Vertex V] {r : Roster V D} {u : Update V}

/-- Every move around a facility is a legal update of an enabled kind. -/
theorem Agrees.legal_of_mem {kinds : MoveKinds} {entry : Facility V} (hr : r.Agrees)
    (hentry : entry ∈ r.facilities) (hu : u ∈ neighborhood kinds r entry) :
    u.Legal r.plan.chosen r.plan.unchosen ∧ kinds.allows u = true := by
  have hmark := hr.marked entry hentry
  have hlisted := (hr.listed entry.vertex).mp (List.mem_map_of_mem hentry)
  unfold neighborhood at hu
  cases hchosen : entry.isChosen with
  | true =>
    have hopen : entry.vertex ∈ r.plan.chosen := hmark.mp hchosen
    simp only [hchosen, if_true, List.mem_append] at hu
    rcases hu with hu | hu
    · cases hk : kinds.closing with
      | false => simp [hk] at hu
      | true =>
        obtain rfl : u = .closing entry.vertex := by simpa [hk] using hu
        exact ⟨hopen, hk⟩
    · cases hk : kinds.exchange with
      | false => simp [hk] at hu
      | true =>
        simp only [hk, if_true] at hu
        obtain ⟨f, hf, rfl⟩ := List.mem_map.mp hu
        rw [hr.idle_eq] at hf
        exact ⟨⟨hopen, hf⟩, hk⟩
  | false =>
    have hclosed : entry.vertex ∈ r.plan.unchosen := by
      refine hlisted.resolve_left fun hopen => ?_
      rw [hmark.mpr hopen] at hchosen
      cases hchosen
    simp only [hchosen, Bool.false_eq_true, if_false] at hu
    cases hk : kinds.opening with
    | false => simp [hk] at hu
    | true =>
      obtain rfl : u = .opening entry.vertex := by simpa [hk] using hu
      exact ⟨hclosed, hk⟩

/-- Every legal update of an enabled kind is a move around a facility. -/
theorem Agrees.exists_mem {kinds : MoveKinds} (hr : r.Agrees)
    (hdisjoint : ∀ f ∈ r.plan.chosen, f ∉ r.plan.unchosen)
    (hu : u.Legal r.plan.chosen r.plan.unchosen) (hk : kinds.allows u = true) :
    ∃ entry ∈ r.facilities, u ∈ neighborhood kinds r entry := by
  have at_facility : ∀ f, f ∈ r.plan.chosen ∨ f ∈ r.plan.unchosen →
      ∃ entry ∈ r.facilities, entry.vertex = f := by
    intro f hf
    exact List.mem_map.mp ((hr.listed f).mpr hf)
  cases u with
  | opening f =>
    have hf : f ∈ r.plan.unchosen := hu
    obtain ⟨entry, hentry, rfl⟩ := at_facility f (.inr hf)
    have hmark : entry.isChosen = false := by
      rw [← Bool.not_eq_true, hr.marked entry hentry]
      exact fun hopen => hdisjoint _ hopen hf
    have hopening : kinds.opening = true := hk
    exact ⟨entry, hentry, by simp [neighborhood, hmark, hopening]⟩
  | closing f =>
    have hf : f ∈ r.plan.chosen := hu
    obtain ⟨entry, hentry, rfl⟩ := at_facility f (.inl hf)
    have hmark : entry.isChosen = true := (hr.marked entry hentry).mpr hf
    have hclosing : kinds.closing = true := hk
    exact ⟨entry, hentry, by simp [neighborhood, hmark, hclosing]⟩
  | exchange closed opened =>
    obtain ⟨hclosed, hopened⟩ : closed ∈ r.plan.chosen ∧ opened ∈ r.plan.unchosen := hu
    obtain ⟨entry, hentry, rfl⟩ := at_facility closed (.inl hclosed)
    have hmark : entry.isChosen = true := (hr.marked entry hentry).mpr hclosed
    have hexchange : kinds.exchange = true := hk
    have hidle : opened ∈ r.idle.toList := by
      rw [hr.idle_eq]
      exact hopened
    exact ⟨entry, hentry, by simp [neighborhood, hmark, hexchange, hidle]⟩

end Neighborhoods

section Commits

variable {V D : Type} [Vertex V] [Distance D] {problem : SitingProblem V D} {clients : List V}
  {r : Roster V D} {u : Update V}

theorem commit_eq_ok {accepted : Bool} {s : Roster V D}
    (h : r.commit problem u = .ok (accepted, s)) :
    ∃ b, r.apply problem u = .ok b ∧ s = b.state ∧ (∀ x, b.outcome = .ok x → accepted = true) := by
  unfold commit at h
  obtain ⟨b, hb, h⟩ := Checked.bind_ok_iff.mp h
  refine ⟨b, hb, ?_⟩
  cases houtcome : b.outcome with
  | error refusal =>
    simp only [houtcome] at h
    cases h
    exact ⟨rfl, fun x hx => by cases hx⟩
  | ok x =>
    simp only [houtcome] at h
    cases h
    exact ⟨rfl, fun _ _ => rfl⟩

/-- The search commits every move that it finds. -/
theorem Agrees.accepts {kinds : MoveKinds} {entry : Facility V} (hr : r.Agrees)
    (hentry : entry ∈ r.facilities) (hu : u ∈ neighborhood kinds r entry) {accepted : Bool}
    {s : Roster V D} (h : r.commit problem u = .ok (accepted, s)) : accepted = true := by
  obtain ⟨b, hb, -, haccepted⟩ := commit_eq_ok h
  obtain ⟨change, plan, -, rfl⟩ := apply_of_legal hr (hr.legal_of_mem hentry hu).1 hb
  exact haccepted change rfl

end Commits

section Words

variable {V : Type} [Vertex V] {bits : Nat} {problem : SitingProblem V (Signed bits)}
  {clients : List V} {r : Roster V (Signed bits)} {u : Update V}

/-- What a legal update is said to save is what the objective loses. -/
theorem Sound.saving_ends (hr : r.Sound problem clients)
    (hu : u.Legal r.plan.chosen r.plan.unchosen) :
    Ends (r.saving problem u)
      (fun g => problem.objective clients (u.chosenAfter r.plan.chosen).toList =
        .ok (r.plan.value problem - g.val)) problem.toSpace.MayOverflow := by
  refine (hr.plan.delta_ends hu).bind fun answer _ hanswer => ?_
  obtain ⟨change, rfl, hobjective⟩ := hanswer
  refine ((Signed.neg_ends change).weaken Space.mayOverflow_of_overflow).mono fun g _ hg => ?_
  rw [hobjective, hg]
  congr 1
  omega

end Words

end Roster

end Descent
