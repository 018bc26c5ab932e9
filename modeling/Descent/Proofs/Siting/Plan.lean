import Descent.Proofs.Siting.Objective
import Descent.Proofs.Voronoi.Queries

/-!
# Plans along a history

A legal update of a plan moves facilities between its two sets, and an update that is not legal
is refused and leaves the plan alone: `apply_of_legal` and `apply_refused`. So every plan that a
history leads to is `Sound`, and for words as distances its cost and the changes that it answers
are those of the objective.
-/

namespace Descent

open Checked (Ends)

namespace Plan

/-! ## Which updates are legal -/

section Requirements

variable {V D : Type} [Vertex V] {p : Plan V D} {f closed opened : V}

theorem requireClosed_of_mem (h : f ∈ p.unchosen) : p.requireClosed f = .ok () := if_pos h

theorem requireOpen_of_mem (h : f ∈ p.chosen) : p.requireOpen f = .ok () := if_pos h

theorem requireExchange_of_mem (hclosed : closed ∈ p.chosen) (hopened : opened ∈ p.unchosen) :
    p.requireExchange closed opened = .ok () := by
  unfold requireExchange
  rw [requireOpen_of_mem hclosed]
  exact requireClosed_of_mem hopened

/-- What an update asks of a plan. -/
def requirement (p : Plan V D) : Update V → Except (Refusal V) Unit
  | .opening f => p.requireClosed f
  | .closing f => p.requireOpen f
  | .exchange closed opened => p.requireExchange closed opened

theorem mem_of_requireClosed (h : p.requireClosed f = .ok ()) : f ∈ p.unchosen := by
  unfold requireClosed at h
  by_cases hf : f ∈ p.unchosen
  · exact hf
  · rw [if_neg hf] at h
    split at h <;> cases h

theorem mem_of_requireOpen (h : p.requireOpen f = .ok ()) : f ∈ p.chosen := by
  unfold requireOpen at h
  by_cases hf : f ∈ p.chosen
  · exact hf
  · rw [if_neg hf] at h
    split at h <;> cases h

theorem legal_of_requirement {u : Update V} (h : p.requirement u = .ok ()) :
    u.Legal p.chosen p.unchosen := by
  cases u with
  | opening f => exact mem_of_requireClosed h
  | closing f => exact mem_of_requireOpen h
  | exchange closed opened =>
    change (p.requireOpen closed >>= fun _ => p.requireClosed opened) = _ at h
    cases hclosed : p.requireOpen closed with
    | error refusal =>
      rw [hclosed] at h
      cases h
    | ok _ =>
      rw [hclosed] at h
      exact ⟨mem_of_requireOpen hclosed, mem_of_requireClosed h⟩

end Requirements

section Updates

variable {V D : Type} [Vertex V] [Distance D] {problem : SitingProblem V D} {clients : List V}
  {p : Plan V D} {u : Update V} {f closed opened : V} {a : Attempt V (Plan V D) D}

/-- An update whose requirement is not met is refused for that reason, and leaves the plan
alone. -/
theorem apply_of_requirement (problem : SitingProblem V D) {refusal : Refusal V}
    (h : p.requirement u = .error refusal) : p.apply problem u = .ok ⟨.error refusal, p⟩ := by
  cases u with
  | opening f =>
    change p.requireClosed f = _ at h
    simp only [apply, openFacility, h]
    rfl
  | closing f =>
    change p.requireOpen f = _ at h
    simp only [apply, closeFacility, h]
    rfl
  | exchange closed opened =>
    change p.requireExchange closed opened = _ at h
    simp only [apply, h]
    rfl

/-- An update that is not legal is refused, and leaves the plan alone. -/
theorem apply_refused (problem : SitingProblem V D) (hu : ¬ u.Legal p.chosen p.unchosen) :
    ∃ refusal, p.apply problem u = .ok ⟨.error refusal, p⟩ := by
  cases h : p.requirement u with
  | ok _ => exact absurd (legal_of_requirement h) hu
  | error refusal => exact ⟨refusal, apply_of_requirement problem h⟩

/-! ## What a legal update does -/

theorem openFacility_of_mem (hf : f ∈ p.unchosen) (h : p.openFacility problem f = .ok a) :
    ∃ delta service change, p.service.openGenerator problem.toSpace f = .ok (delta, service) ∧
      Distance.add (problem.openingCost f) delta = .ok change ∧
      a = ⟨.ok change, ⟨service, p.unchosen.erase f⟩⟩ := by
  unfold openFacility at h
  rw [requireClosed_of_mem hf] at h
  obtain ⟨⟨delta, service⟩, hservice, h⟩ := Checked.bind_ok_iff.mp h
  obtain ⟨change, hchange, h⟩ := Checked.bind_ok_iff.mp h
  cases h
  exact ⟨delta, service, change, hservice, hchange, rfl⟩

theorem closeFacility_of_mem (hf : f ∈ p.chosen) (h : p.closeFacility problem f = .ok a) :
    ∃ delta service saved change,
      p.service.closeGenerator problem.toSpace f = .ok (delta, service) ∧
      Distance.neg (problem.openingCost f) = .ok saved ∧ Distance.add saved delta = .ok change ∧
      a = ⟨.ok change, ⟨service, p.unchosen.insert f⟩⟩ := by
  unfold closeFacility at h
  rw [requireOpen_of_mem hf] at h
  obtain ⟨⟨delta, service⟩, hservice, h⟩ := Checked.bind_ok_iff.mp h
  obtain ⟨saved, hsaved, h⟩ := Checked.bind_ok_iff.mp h
  obtain ⟨change, hchange, h⟩ := Checked.bind_ok_iff.mp h
  cases h
  exact ⟨delta, service, saved, change, hservice, hsaved, hchange, rfl⟩

/-- What an update that was made leaves: its facilities have changed sides, and the service has a
history that goes on. -/
structure Updated (problem : SitingProblem V D) (p : Plan V D) (u : Update V) (q : Plan V D) :
    Prop where
  chosen_eq : q.chosen = u.chosenAfter p.chosen
  unchosen_eq : q.unchosen = u.unchosenAfter p.unchosen
  served : ∀ clients, Voronoi.Reachable problem.toSpace clients p.service →
    Voronoi.Reachable problem.toSpace clients q.service

/-- Opening one facility leaves the others open. -/
theorem Updated.still_open {q : Plan V D} (h : Updated problem p (.opening opened) q)
    (hclosed : closed ∈ p.chosen) : closed ∈ q.chosen := by
  rw [h.chosen_eq]
  exact AscendingSet.mem_insert.mpr (.inr hclosed)

theorem openFacility_updated (hf : f ∈ p.unchosen) (h : p.openFacility problem f = .ok a) :
    ∃ change, a.outcome = .ok change ∧ Updated problem p (.opening f) a.state := by
  obtain ⟨delta, service, change, hservice, -, rfl⟩ := openFacility_of_mem hf h
  have hchange : p.service.change problem.toSpace (.opening f) = .ok (delta, service) := hservice
  refine ⟨change, rfl, ?_, rfl, fun clients hp => hp.changed hchange⟩
  exact Voronoi.change_generators hchange

theorem closeFacility_updated (hf : f ∈ p.chosen) (h : p.closeFacility problem f = .ok a) :
    ∃ change, a.outcome = .ok change ∧ Updated problem p (.closing f) a.state := by
  obtain ⟨delta, service, -, change, hservice, -, -, rfl⟩ := closeFacility_of_mem hf h
  have hchange : p.service.change problem.toSpace (.closing f) = .ok (delta, service) := hservice
  refine ⟨change, rfl, ?_, rfl, fun clients hp => hp.changed hchange⟩
  exact Voronoi.change_generators hchange

/-- A legal update is made. -/
theorem apply_of_legal (hu : u.Legal p.chosen p.unchosen) (h : p.apply problem u = .ok a) :
    ∃ change, a.outcome = .ok change ∧ Updated problem p u a.state := by
  cases u with
  | opening f => exact openFacility_updated hu h
  | closing f => exact closeFacility_updated hu h
  | exchange closed opened =>
    obtain ⟨hclosed, hopened⟩ : closed ∈ p.chosen ∧ opened ∈ p.unchosen := hu
    simp only [apply, requireExchange_of_mem hclosed hopened] at h
    obtain ⟨b, hb, h⟩ := Checked.bind_ok_iff.mp h
    obtain ⟨gained, hgained, hopen⟩ := openFacility_updated hopened hb
    simp only [Attempt.andThen, hgained] at h
    obtain ⟨c, hc, h⟩ := Checked.bind_ok_iff.mp h
    obtain ⟨saved, hsaved, hclose⟩ := closeFacility_updated (hopen.still_open hclosed) hc
    simp only [hsaved] at h
    obtain ⟨change, hchange, h⟩ := Checked.bind_ok_iff.mp h
    cases h
    refine ⟨change, rfl, ?_, ?_, fun clients hp => hclose.served _ (hopen.served _ hp)⟩
    · rw [hclose.chosen_eq, hopen.chosen_eq]
      rfl
    · rw [hclose.unchosen_eq, hopen.unchosen_eq]
      rfl

/-! ## Histories -/

/-- The plans that a history over a list of clients leads to. -/
inductive Reachable (problem : SitingProblem V D) (clients : List V) : Plan V D → Prop where
  | built {chosen unchosen : List V} {p : Plan V D} :
    build problem chosen unchosen clients = .ok (.ok p) → Reachable problem clients p
  | opened {p : Plan V D} {f : V} {a : Attempt V (Plan V D) D} :
    Reachable problem clients p → p.openFacility problem f = .ok a →
    Reachable problem clients a.state
  | closed {p : Plan V D} {f : V} {a : Attempt V (Plan V D) D} :
    Reachable problem clients p → p.closeFacility problem f = .ok a →
    Reachable problem clients a.state
  | applied {p : Plan V D} {u : Update V} {a : Attempt V (Plan V D) D} :
    Reachable problem clients p → p.apply problem u = .ok a → Reachable problem clients a.state

/-- The service has a history, and no facility is open and closed. -/
structure Sound (problem : SitingProblem V D) (clients : List V) (p : Plan V D) : Prop where
  served : Voronoi.Reachable problem.toSpace clients p.service
  disjoint : ∀ f ∈ p.chosen, f ∉ p.unchosen

/-- A plan that was built has a service of the open facilities, none of which is listed as
closed. -/
theorem build_eq_ok {chosen unchosen : List V}
    (h : build problem chosen unchosen clients = .ok (.ok p)) :
    (AscendingSet.ofList chosen).lowestCommon? (.ofList unchosen) = none ∧
      Voronoi.build problem.toSpace chosen clients = .ok p.service ∧
      p.unchosen = .ofList unchosen := by
  unfold build at h
  cases hcommon : (AscendingSet.ofList chosen).lowestCommon? (AscendingSet.ofList unchosen) with
  | some f =>
    simp only [hcommon] at h
    cases h
  | none =>
    simp only [hcommon] at h
    obtain ⟨service, hservice, h⟩ := Checked.bind_ok_iff.mp h
    cases h
    exact ⟨rfl, hservice, rfl⟩

theorem Sound.of_build {chosen unchosen : List V}
    (h : build problem chosen unchosen clients = .ok (.ok p)) : p.Sound problem clients := by
  obtain ⟨hcommon, hservice, hunchosen⟩ := build_eq_ok h
  refine ⟨.built hservice, fun f hf => ?_⟩
  have hgens : p.service.generators = .ofList chosen := (Voronoi.build_ok hservice).1
  have hchosen : f ∈ AscendingSet.ofList chosen := hgens ▸ hf
  rw [hunchosen]
  simpa using List.find?_eq_none.mp hcommon f hchosen

theorem Sound.apply (hp : p.Sound problem clients) (h : p.apply problem u = .ok a) :
    a.state.Sound problem clients := by
  by_cases hu : u.Legal p.chosen p.unchosen
  · obtain ⟨-, -, hupdated⟩ := apply_of_legal hu h
    refine ⟨hupdated.served _ hp.served, ?_⟩
    rw [hupdated.chosen_eq, hupdated.unchosen_eq]
    exact u.disjoint_after hp.disjoint
  · obtain ⟨refusal, hrefusal⟩ := apply_refused problem hu
    rw [hrefusal] at h
    cases h
    exact hp

/-- No attempt to change a plan adds a facility or loses one. -/
theorem mem_apply (h : p.apply problem u = .ok a) (f : V) :
    f ∈ a.state.chosen ∨ f ∈ a.state.unchosen ↔ f ∈ p.chosen ∨ f ∈ p.unchosen := by
  by_cases hu : u.Legal p.chosen p.unchosen
  · obtain ⟨-, -, hupdated⟩ := apply_of_legal hu h
    rw [hupdated.chosen_eq, hupdated.unchosen_eq, hu.mem_after]
  · obtain ⟨refusal, hrefusal⟩ := apply_refused problem hu
    rw [hrefusal] at h
    cases h
    exact Iff.rfl

theorem Reachable.sound (h : Reachable problem clients p) : p.Sound problem clients := by
  induction h with
  | built h => exact .of_build h
  | @opened p f a _ h ih => exact ih.apply (show p.apply problem (.opening f) = .ok a from h)
  | @closed p f a _ h ih => exact ih.apply (show p.apply problem (.closing f) = .ok a from h)
  | applied _ h ih => exact ih.apply h

end Updates

/-! ## Costs -/

section Words

variable {V : Type} [Vertex V] {bits : Nat} {problem : SitingProblem V (Signed bits)}
  {clients : List V} {p : Plan V (Signed bits)} {u : Update V}

/-- What a plan costs, in the integers. -/
def value (problem : SitingProblem V (Signed bits)) (p : Plan V (Signed bits)) : Int :=
  problem.openingTotal p.chosen.toList + p.service.cost.val

theorem totalCost_ends (p : Plan V (Signed bits)) :
    Ends (p.totalCost problem) (fun c => c.val = p.value problem) Fault.IsOverflow := by
  refine (Signed.sum_ends _).bind fun opening _ hopening => ?_
  refine (Signed.add_ends ..).mono fun c _ hc => ?_
  rw [hc, hopening, List.map_map]
  rfl

/-- A plan costs what its open facilities cost from scratch. -/
theorem Sound.objective (hp : p.Sound problem clients) :
    problem.objective clients p.chosen.toList = .ok (p.value problem) := by
  unfold SitingProblem.objective
  rw [show problem.toSpace.totalCost p.chosen.toList clients = _ from hp.served.totalCost]
  rfl

/-- The objective of other facilities, by what their opening and their service cost more. -/
theorem objective_of_changes {chosen : List V} {opening service : Int}
    (hopening : problem.openingTotal chosen = problem.openingTotal p.chosen.toList + opening)
    (hservice : problem.toSpace.totalCost chosen clients = .ok (p.service.cost.val + service)) :
    problem.objective clients chosen = .ok (p.value problem + (opening + service)) := by
  unfold SitingProblem.objective value
  rw [hservice, Checked.ok_bind, hopening]
  congr 1
  omega

/-- The change that a legal update is said to bring is the change of the objective. -/
theorem Sound.delta_ends (hp : p.Sound problem clients) (hu : u.Legal p.chosen p.unchosen) :
    Ends (p.delta problem u)
      (fun answer => ∃ change, answer = .ok change ∧
        problem.objective clients (u.chosenAfter p.chosen).toList =
          .ok (p.value problem + change.val)) problem.toSpace.MayOverflow := by
  cases u with
  | opening f =>
    have hf : f ∈ p.unchosen := hu
    have hnew : f ∉ p.chosen := fun hold => hp.disjoint f hold hf
    simp only [delta, openingDelta, requireClosed_of_mem hf]
    refine (hp.served.openingDelta_ends hnew).bind fun delta _ htotal => ?_
    refine ((Signed.add_ends ..).weaken Space.mayOverflow_of_overflow).bind
      fun change _ hchange => ?_
    refine ⟨change, rfl, ?_⟩
    rw [hchange]
    refine objective_of_changes ?_ htotal
    exact (AscendingSet.sum_insert hnew _).trans (Int.add_comm ..)
  | closing f =>
    have hf : f ∈ p.chosen := hu
    simp only [delta, closingDelta, requireOpen_of_mem hf]
    refine ((Signed.neg_ends _).weaken Space.mayOverflow_of_overflow).bind fun saved _ hsaved => ?_
    refine (hp.served.closingDelta_ends hf).bind fun delta _ htotal => ?_
    refine ((Signed.add_ends ..).weaken Space.mayOverflow_of_overflow).bind
      fun change _ hchange => ?_
    refine ⟨change, rfl, ?_⟩
    rw [hchange, hsaved]
    exact objective_of_changes (AscendingSet.sum_erase hf _) htotal
  | exchange closed opened =>
    obtain ⟨hclosed, hopened⟩ : closed ∈ p.chosen ∧ opened ∈ p.unchosen := hu
    have hnew : opened ∉ p.chosen := fun hold => hp.disjoint opened hold hopened
    have hstill : closed ∈ p.chosen.insert opened := AscendingSet.mem_insert.mpr (.inr hclosed)
    simp only [delta, exchangeDelta, requireExchange_of_mem hclosed hopened]
    refine ((Signed.sub_ends ..).weaken Space.mayOverflow_of_overflow).bind
      fun opening _ hopening => ?_
    refine (hp.served.exchangeDelta_ends hclosed hnew).bind fun delta _ htotal => ?_
    refine ((Signed.add_ends ..).weaken Space.mayOverflow_of_overflow).bind
      fun change _ hchange => ?_
    refine ⟨change, rfl, ?_⟩
    rw [hchange, hopening]
    refine objective_of_changes ?_ htotal
    have herase := AscendingSet.sum_erase hstill fun f => (problem.openingCost f).val
    have hinsert := AscendingSet.sum_insert hnew fun f => (problem.openingCost f).val
    unfold SitingProblem.openingTotal
    show ((AscendingSet.erase closed (p.chosen.insert opened)).toList.map _).sum = _
    omega

end Words

end Plan

end Descent
