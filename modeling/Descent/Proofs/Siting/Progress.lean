import Descent.Proofs.Siting.Roster

/-!
# Legal updates go through

A legal update is made and its change can be asked for, except that the metric may fault, or the
arithmetic on distances: `Plan.Sound.apply_mayFail`, `Plan.Sound.delta_mayFail` and
`Roster.Sound.apply_mayFail`. The broken rules of a caller, and positions outside the sites, are
no fault of an update.
-/

namespace Descent

open Checked (Ends)

section Faults

variable {V D : Type} [Distance D]

/-- A fault of the metric, or of the arithmetic on distances. -/
def SitingProblem.MayFail (problem : SitingProblem V D) (e : Fault) : Prop :=
  problem.toSpace.MayFail e ∨ ∃ a : D, Distance.neg a = .error e

variable (problem : SitingProblem V D)

theorem SitingProblem.mayFail_of_space (e : Fault) (h : problem.toSpace.MayFail e) :
    problem.MayFail e := .inl h

theorem SitingProblem.add_ends (a b : D) :
    Ends (Distance.add a b) (fun _ => True) problem.MayFail :=
  (problem.toSpace.add_ends a b).weaken problem.mayFail_of_space

theorem SitingProblem.sub_ends (a b : D) :
    Ends (Distance.sub a b) (fun _ => True) problem.MayFail :=
  (problem.toSpace.sub_ends a b).weaken problem.mayFail_of_space

theorem SitingProblem.neg_ends (a : D) :
    Ends (Distance.neg a) (fun _ => True) problem.MayFail := by
  cases h : Distance.neg a with
  | error e => exact .inr ⟨a, h⟩
  | ok d => trivial

end Faults

/-- With words as distances, all that can go wrong is an overflow or the metric. -/
theorem SitingProblem.mayOverflow_of_mayFail {V : Type} {bits : Nat}
    {problem : SitingProblem V (Signed bits)} (e : Fault) (h : problem.MayFail e) :
    problem.toSpace.MayOverflow e := by
  rcases h with hspace | ⟨a, hneg⟩
  · exact Space.mayOverflow_of_mayFail e hspace
  · exact .inl ((Signed.neg_ends a).fault hneg)

namespace Plan

variable {V D : Type} [Vertex V] [Distance D] {problem : SitingProblem V D} {clients : List V}
  {p : Plan V D} {u : Update V} {f : V}

/-! ## Making an update -/

theorem Sound.openFacility_mayFail (hp : p.Sound problem clients) (hf : f ∈ p.unchosen) :
    Ends (p.openFacility problem f) (fun a => ∃ change, a.outcome = .ok change)
      problem.MayFail := by
  have hnew : f ∉ p.chosen := fun hold => hp.disjoint f hold hf
  have hopen : Ends (p.service.openGenerator problem.toSpace f) (fun _ => True) problem.MayFail :=
    (Voronoi.change_ends (c := .opening f) hp.served.indexed hnew).weaken problem.mayFail_of_space
  unfold openFacility
  rw [requireClosed_of_mem hf]
  refine hopen.bind fun r _ _ => ?_
  exact (problem.add_ends _ r.1).bind fun change _ _ => ⟨change, rfl⟩

/-- Closing needs no facility to be closed, so it is stated for the service alone. -/
theorem closeFacility_mayFail (hp : Voronoi.Reachable problem.toSpace clients p.service)
    (hf : f ∈ p.chosen) :
    Ends (p.closeFacility problem f) (fun a => ∃ change, a.outcome = .ok change)
      problem.MayFail := by
  have hclose : Ends (p.service.closeGenerator problem.toSpace f) (fun _ => True)
      problem.MayFail :=
    (Voronoi.change_ends (c := .closing f) hp.indexed hf).weaken problem.mayFail_of_space
  unfold closeFacility
  rw [requireOpen_of_mem hf]
  refine hclose.bind fun r _ _ => ?_
  refine (problem.neg_ends _).bind fun saved _ _ => ?_
  exact (problem.add_ends saved r.1).bind fun change _ _ => ⟨change, rfl⟩

/-- A legal update is made, unless the metric or the arithmetic faults. -/
theorem Sound.apply_mayFail (hp : p.Sound problem clients) (hu : u.Legal p.chosen p.unchosen) :
    Ends (p.apply problem u) (fun a => ∃ change, a.outcome = .ok change) problem.MayFail := by
  cases u with
  | opening f => exact hp.openFacility_mayFail hu
  | closing f => exact closeFacility_mayFail hp.served hu
  | exchange closed opened =>
    obtain ⟨hclosed, hopened⟩ : closed ∈ p.chosen ∧ opened ∈ p.unchosen := hu
    simp only [Plan.apply, requireExchange_of_mem hclosed hopened]
    refine (hp.openFacility_mayFail hopened).bind fun b hb hanswered => ?_
    obtain ⟨gained, hgained⟩ := hanswered
    obtain ⟨-, -, hopen⟩ := openFacility_updated hopened hb
    simp only [Attempt.andThen, hgained]
    refine (closeFacility_mayFail (hopen.served _ hp.served) (hopen.still_open hclosed)).bind
      fun c _ hclosing => ?_
    obtain ⟨saved, hsaved⟩ := hclosing
    simp only [hsaved]
    exact (problem.add_ends gained saved).bind fun change _ _ => ⟨change, rfl⟩

/-! ## Asking for its change -/

/-- The change of a legal update is answered, unless the metric or the arithmetic faults. -/
theorem Sound.delta_mayFail (hp : p.Sound problem clients) (hu : u.Legal p.chosen p.unchosen) :
    Ends (p.delta problem u) (fun answer => ∃ change, answer = .ok change) problem.MayFail := by
  have lift {α : Type} {x : Checked α} (h : Ends x (fun _ => True) problem.toSpace.MayFail) :
      Ends x (fun _ => True) problem.MayFail := h.weaken problem.mayFail_of_space
  cases u with
  | opening f =>
    have hf : f ∈ p.unchosen := hu
    have hnew : f ∉ p.chosen := fun hold => hp.disjoint f hold hf
    simp only [delta, openingDelta, requireClosed_of_mem hf]
    refine (lift (Voronoi.openingDelta_mayFail hnew)).bind fun delta _ _ => ?_
    exact (problem.add_ends _ delta).bind fun change _ _ => ⟨change, rfl⟩
  | closing f =>
    have hf : f ∈ p.chosen := hu
    simp only [delta, closingDelta, requireOpen_of_mem hf]
    refine (problem.neg_ends _).bind fun saved _ _ => ?_
    refine (lift (Voronoi.closingDelta_mayFail hp.served.indexed hf)).bind fun delta _ _ => ?_
    exact (problem.add_ends saved delta).bind fun change _ _ => ⟨change, rfl⟩
  | exchange closed opened =>
    obtain ⟨hclosed, hopened⟩ : closed ∈ p.chosen ∧ opened ∈ p.unchosen := hu
    have hnew : opened ∉ p.chosen := fun hold => hp.disjoint opened hold hopened
    simp only [delta, exchangeDelta, requireExchange_of_mem hclosed hopened]
    refine (problem.sub_ends _ _).bind fun opening _ _ => ?_
    refine (lift (Voronoi.exchangeDelta_mayFail hclosed hnew)).bind fun delta _ _ => ?_
    exact (problem.add_ends opening delta).bind fun change _ _ => ⟨change, rfl⟩

end Plan

namespace Roster

variable {V D : Type} [Vertex V] [Distance D] {problem : SitingProblem V D} {clients : List V}
  {r : Roster V D} {u : Update V}

/-- A legal update is made and entered, unless the metric or the arithmetic faults. -/
theorem Sound.apply_mayFail (hr : r.Sound problem clients)
    (hu : u.Legal r.plan.chosen r.plan.unchosen) :
    Ends (r.apply problem u) (fun b => ∃ change, b.outcome = .ok change) problem.MayFail := by
  have hplan := hr.plan.apply_mayFail hu
  cases h : r.plan.apply problem u with
  | error e =>
    have hfault : r.apply problem u = .error e := by
      unfold Roster.apply
      rw [h]
      rfl
    rw [hfault]
    exact hplan.fault h
  | ok a =>
    obtain ⟨outcome, plan⟩ := a
    obtain ⟨change, rfl⟩ : ∃ change, outcome = .ok change := hplan.value h
    rw [apply_of_made hr.agrees hu h]
    exact ⟨change, rfl⟩

end Roster

end Descent
