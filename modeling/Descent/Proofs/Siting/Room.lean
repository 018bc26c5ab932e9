import Descent.Proofs.Siting.Agreement
import Descent.Proofs.Siting.Partition
import Descent.Proofs.Voronoi.Room

/-!
# Plans with room

How large distances and opening costs may be so that no sum about a plan ever leaves its word:
twice the bound of a distance for each client, and the bound of an opening cost for each facility
and for two more, as an exchange opens one facility before it closes another. Then every call to a
plan has a value, whatever calls there were before: `siting_never_overflows`.
-/

namespace Descent

open Checked (Ends Returns)

/-- A siting problem with bounded distances and opening costs, whose word has room for twice the one
bound for each client, and for the other one for each facility and two more. -/
structure SitingProblem.Roomy {V : Type} [Vertex V] {bits : Nat}
    (problem : SitingProblem V (Signed bits)) (clients facilities : List V) (reach cost : Nat) :
    Prop where
  unserved : problem.unserved.val.natAbs ≤ reach
  distance : ∀ c ∈ clients, ∀ f ∈ facilities, ∃ d,
    problem.distance c f = .ok d ∧ d.val.natAbs ≤ reach
  openingCost : ∀ f ∈ facilities, (problem.openingCost f).val.natAbs ≤ cost
  room : 2 * clients.eraseDups.length * reach + (facilities.eraseDups.length + 2) * cost ≤
    Signed.maximum bits

namespace SitingProblem.Roomy

variable {V : Type} [Vertex V] {bits : Nat} {problem : SitingProblem V (Signed bits)}
  {clients facilities : List V} {reach cost : Nat}

theorem room_split (h : problem.Roomy clients facilities reach cost) :
    (distinct clients).length * (2 * reach) + facilities.eraseDups.length * cost + 2 * cost ≤
      Signed.maximum bits := by
  have hroom := h.room
  rwa [Nat.mul_assoc, Nat.mul_left_comm 2, Nat.add_mul, ← Nat.add_assoc,
    ← Voronoi.distinct_eq_eraseDups] at hroom

theorem toSpace (h : problem.Roomy clients facilities reach cost) :
    problem.toSpace.Roomy clients facilities reach where
  unserved := h.unserved
  distance := h.distance
  room := by
    have hroom := h.room_split
    omega

end SitingProblem.Roomy

namespace Plan

variable {V : Type} [Vertex V] {bits : Nat} {problem : SitingProblem V (Signed bits)}
  {clients facilities : List V} {reach cost : Nat} {p : Plan V (Signed bits)} {u : Update V}
  {f closed opened : V}

/-- A sound plan over some facilities of a problem with room. -/
structure Placed (problem : SitingProblem V (Signed bits)) (clients facilities : List V)
    (reach cost : Nat) (p : Plan V (Signed bits)) : Prop where
  roomy : problem.Roomy clients facilities reach cost
  sound : p.Sound problem clients
  listed : ∀ f, f ∈ p.chosen ∨ f ∈ p.unchosen → f ∈ facilities

/-- A plan that has a value for every call. -/
structure Unfailing {V D : Type} [Vertex V] [Distance D] (problem : SitingProblem V D)
    (p : Plan V D) : Prop where
  openFacility : ∀ f, ∃ a, p.openFacility problem f = .ok a
  closeFacility : ∀ f, ∃ a, p.closeFacility problem f = .ok a
  apply : ∀ u, ∃ a, p.apply problem u = .ok a
  delta : ∀ u, ∃ answer, p.delta problem u = .ok answer
  openingCost : ∃ c, p.openingCost problem = .ok c
  totalCost : ∃ c, p.totalCost problem = .ok c
  recompute : ∃ c, p.service.recompute problem.toSpace = .ok c

namespace Placed

variable (h : p.Placed problem clients facilities reach cost)

include h

theorem service : p.service.Placed problem.toSpace clients facilities reach where
  roomy := h.roomy.toSpace
  reachable := h.sound.served
  listed g hg := h.listed g (.inl hg)

theorem apply {a : Attempt V (Plan V (Signed bits)) (Signed bits)}
    (ha : p.apply problem u = .ok a) : a.state.Placed problem clients facilities reach cost where
  roomy := h.roomy
  sound := h.sound.apply ha
  listed f hf := h.listed f ((mem_apply ha f).mp hf)

/-! ## Costs -/

theorem length_chosen_le : p.chosen.toList.length ≤ facilities.eraseDups.length := by
  refine (List.subperm_of_subset (AscendingSet.nodup p.chosen) fun f hf => ?_).length_le
  exact List.mem_eraseDups.mpr (h.listed f (.inl hf))

theorem openingCost_returns : Returns (p.openingCost problem)
    (fun r => r.val.natAbs ≤ facilities.eraseDups.length * cost) := by
  have hroom := h.roomy.room_split
  have hlength : (p.chosen.toList.map problem.openingCost).length * cost ≤
      facilities.eraseDups.length * cost := by
    rw [List.length_map]
    exact Nat.mul_le_mul_right _ h.length_chosen_le
  have hcosts : ∀ d ∈ p.chosen.toList.map problem.openingCost, d.val.natAbs ≤ cost :=
    List.forall_mem_map.mpr fun f hf => h.roomy.openingCost f (h.listed f (.inl hf))
  exact (Signed.sum_returns hcosts (by omega)).mono fun r _ hr => hr.trans hlength

theorem totalCost_returns : Returns (p.totalCost problem) (fun _ => True) := by
  have hroom := h.roomy.room_split
  have hservice := h.service.runningCost_le
  rw [Nat.mul_left_comm] at hroom
  refine h.openingCost_returns.bind fun opening _ hopening => ?_
  exact (Signed.add_returns (by omega)).mono fun _ _ _ => trivial

/-! ## Updates -/

/-- Opening a facility returns its opening cost and the change of the running cost. -/
theorem openFacility_returns (hf : f ∈ p.unchosen) : Returns (p.openFacility problem f)
    (fun a => ∃ change, a.outcome = .ok change ∧ change.val =
      (problem.openingCost f).val + (a.state.service.cost.val - p.service.cost.val)) := by
  have hnew : f ∉ p.chosen := fun hold => h.sound.disjoint f hold hf
  have hlisted := h.listed f (.inr hf)
  have hroom := h.roomy.room_split
  have hcost := h.roomy.openingCost f hlisted
  unfold openFacility
  rw [requireClosed_of_mem hf]
  refine (h.service.openGenerator_returns hnew hlisted).bind fun r hmade _ => ?_
  obtain ⟨delta, service⟩ := r
  have hchange : p.service.change problem.toSpace (.opening f) = .ok (delta, service) := hmade
  obtain ⟨hdelta, hbound⟩ := h.service.change_le hchange (h.service.listed_insert hlisted)
  refine (Signed.add_returns (by omega)).bind fun change _ hsum => ?_
  exact ⟨change, rfl, by rw [hsum, hdelta]⟩

/-- Closing a facility returns the change of the running cost less its opening cost. -/
theorem closeFacility_returns (hf : f ∈ p.chosen) : Returns (p.closeFacility problem f)
    (fun a => ∃ change, a.outcome = .ok change ∧ change.val =
      -(problem.openingCost f).val + (a.state.service.cost.val - p.service.cost.val)) := by
  have hroom := h.roomy.room_split
  have hcost := h.roomy.openingCost f (h.listed f (.inl hf))
  unfold closeFacility
  rw [requireOpen_of_mem hf]
  refine (h.service.closeGenerator_returns hf).bind fun r hmade _ => ?_
  obtain ⟨delta, service⟩ := r
  have hchange : p.service.change problem.toSpace (.closing f) = .ok (delta, service) := hmade
  obtain ⟨hdelta, hbound⟩ := h.service.change_le hchange (h.service.listed_erase f)
  refine (Signed.neg_returns (by omega)).bind fun saved _ hsaved => ?_
  refine (Signed.add_returns (by omega)).bind fun change _ hsum => ?_
  exact ⟨change, rfl, by rw [hsum, hdelta, hsaved]⟩

/-- The two changes of an exchange may be far apart, but their sum is no more than the difference of
two running costs and two opening costs. -/
theorem exchange_returns (hclosed : closed ∈ p.chosen) (hopened : opened ∈ p.unchosen) :
    Returns (p.apply problem (.exchange closed opened)) (fun _ => True) := by
  simp only [Plan.apply, requireExchange_of_mem hclosed hopened]
  refine (h.openFacility_returns hopened).bind fun b hb hgained => ?_
  obtain ⟨gained, houtcome, hgained⟩ := hgained
  obtain ⟨-, -, hopen⟩ := openFacility_updated hopened hb
  have hbetween : b.state.Placed problem clients facilities reach cost :=
    h.apply (show p.apply problem (.opening opened) = .ok b from hb)
  simp only [Attempt.andThen, houtcome]
  refine (hbetween.closeFacility_returns (hopen.still_open hclosed)).bind fun c hc hsaved => ?_
  obtain ⟨saved, houtcome', hsaved⟩ := hsaved
  have hafter : c.state.Placed problem clients facilities reach cost :=
    hbetween.apply (show b.state.apply problem (.closing closed) = .ok c from hc)
  simp only [houtcome']
  have hroom := h.roomy.room_split
  have hdifference := h.service.runningCost_sub_le hafter.service
  have hopeningCost := h.roomy.openingCost opened (h.listed opened (.inr hopened))
  have hclosingCost := h.roomy.openingCost closed (h.listed closed (.inl hclosed))
  refine (Signed.add_returns ?_).bind fun change _ _ => trivial
  rw [hgained, hsaved]
  omega

/-- Every update returns, and leaves a plan of the same facilities. -/
theorem apply_returns (u : Update V) : Returns (p.apply problem u)
    (fun a => a.state.Placed problem clients facilities reach cost) := by
  have hends : Returns (p.apply problem u) (fun _ => True) := by
    by_cases hu : u.Legal p.chosen p.unchosen
    · cases u with
      | opening f => exact (h.openFacility_returns hu).mono fun _ _ _ => trivial
      | closing f => exact (h.closeFacility_returns hu).mono fun _ _ _ => trivial
      | exchange closed opened => exact h.exchange_returns hu.1 hu.2
    · obtain ⟨refusal, hrefusal⟩ := apply_refused problem hu
      rw [hrefusal]
      trivial
  exact hends.mono fun a ha _ => h.apply ha

/-! ## Questions -/

theorem delta_returns (u : Update V) : Returns (p.delta problem u)
    (fun answer => ∀ change, answer = .ok change → change.val.natAbs ≤ Signed.maximum bits) := by
  cases hrequired : p.requirement u with
  | error refusal =>
    rw [delta_of_requirement problem hrequired]
    intro change hchange
    cases hchange
  | ok _ =>
    have hroom := h.roomy.room_split
    have hlegal := legal_of_requirement hrequired
    cases u with
    | opening f =>
      have hf : f ∈ p.unchosen := hlegal
      have hnew : f ∉ p.chosen := fun hold => h.sound.disjoint f hold hf
      have hlisted := h.listed f (.inr hf)
      have hcost := h.roomy.openingCost f hlisted
      simp only [delta, openingDelta, requireClosed_of_mem hf]
      refine (h.service.openingDelta_returns hnew hlisted).bind fun delta _ hdelta => ?_
      refine (Signed.add_returns (by omega)).bind fun change _ hchange => ?_
      rintro _ ⟨⟩
      omega
    | closing f =>
      have hf : f ∈ p.chosen := hlegal
      have hcost := h.roomy.openingCost f (h.listed f (.inl hf))
      simp only [delta, closingDelta, requireOpen_of_mem hf]
      refine (Signed.neg_returns (by omega)).bind fun saved _ hsaved => ?_
      refine (h.service.closingDelta_returns hf).bind fun delta _ hdelta => ?_
      refine (Signed.add_returns (by omega)).bind fun change _ hchange => ?_
      rintro _ ⟨⟩
      omega
    | exchange closed opened =>
      obtain ⟨hclosed, hopened⟩ : closed ∈ p.chosen ∧ opened ∈ p.unchosen := hlegal
      have hnew : opened ∉ p.chosen := fun hold => h.sound.disjoint opened hold hopened
      have hlisted := h.listed opened (.inr hopened)
      have hopeningCost := h.roomy.openingCost opened hlisted
      have hclosingCost := h.roomy.openingCost closed (h.listed closed (.inl hclosed))
      simp only [delta, exchangeDelta, requireExchange_of_mem hclosed hopened]
      refine (Signed.sub_returns (by omega)).bind fun opening _ hopening => ?_
      refine (h.service.exchangeDelta_returns hclosed hnew hlisted).bind fun delta _ hdelta => ?_
      refine (Signed.add_returns (by omega)).bind fun change _ hchange => ?_
      rintro _ ⟨⟩
      omega

/-! ## Calls -/

theorem unfailing : p.Unfailing problem where
  openFacility f := (h.apply_returns (.opening f)).exists_ok
  closeFacility f := (h.apply_returns (.closing f)).exists_ok
  apply u := (h.apply_returns u).exists_ok
  delta u := (h.delta_returns u).exists_ok
  openingCost := h.openingCost_returns.exists_ok
  totalCost := h.totalCost_returns.exists_ok
  recompute := h.service.recompute_returns.exists_ok

theorem call_returns (c : Call V) :
    Returns (p.call problem c) (Placed problem clients facilities reach cost) := by
  obtain ⟨u, hcall | hcall⟩ := call_eq problem p c
  · rw [hcall]
    exact (h.apply_returns u).bind fun a _ ha => ha
  · rw [hcall]
    exact (h.delta_returns u).bind fun _ _ _ => h

theorem calls_returns (cs : List (Call V)) :
    Returns (p.calls problem cs) (Placed problem clients facilities reach cost) :=
  Ends.foldlM (I := fun _ q => Placed problem clients facilities reach cost q) h
    fun c _ _ _ hq => hq.call_returns c

end Placed

/-- A plan of lists with room is built, or refused because they meet. -/
theorem build_returns {chosen unchosen : List V}
    (hs : problem.Roomy clients (chosen ++ unchosen) reach cost) :
    Returns (build problem chosen unchosen clients)
      (fun answer => ∀ p, answer = .ok p →
        p.Placed problem clients (chosen ++ unchosen) reach cost) := by
  have hends : Returns (build problem chosen unchosen clients) (fun _ => True) := by
    unfold build
    cases hcommon : (AscendingSet.ofList chosen).lowestCommon? (.ofList unchosen) with
    | some f =>
      simp only [hcommon]
      trivial
    | none =>
      simp only [hcommon]
      exact (Voronoi.build_returns hs.toSpace fun g hg => List.mem_append_left _ hg).bind
        fun _ _ _ => trivial
  refine hends.mono fun answer hbuilt _ p hp => ?_
  subst hp
  obtain ⟨-, hservice, hunchosen⟩ := build_eq_ok hbuilt
  have hchosen : p.chosen = .ofList chosen := (Voronoi.build_ok hservice).1
  refine ⟨hs, .of_build hbuilt, fun f hf => ?_⟩
  rw [hchosen, hunchosen, AscendingSet.mem_ofList, AscendingSet.mem_ofList] at hf
  exact List.mem_append.mpr hf

end Plan

/-! ## Rosters -/

namespace Roster

variable {V : Type} [Vertex V] {bits : Nat} {problem : SitingProblem V (Signed bits)}
  {clients facilities : List V} {reach cost : Nat} {p : Plan V (Signed bits)}
  {r : Roster V (Signed bits)}

theorem andThen_returns {V S α β : Type} {a : Attempt V S α}
    {next : α → S → Checked (Attempt V S β)}
    (h : ∀ x s, Returns (next x s) (fun _ => True)) :
    Returns (a.andThen next) (fun _ => True) := by
  unfold Attempt.andThen
  cases a.outcome with
  | error refusal => trivial
  | ok x => exact h x a.state

/-- What an update of a plan returns is entered without another sum. -/
theorem apply_returns (h : r.plan.Placed problem clients facilities reach cost) (u : Update V) :
    Returns (r.apply problem u) (fun _ => True) := by
  refine (h.apply_returns u).bind fun a _ _ => ?_
  refine andThen_returns fun change r => andThen_returns fun _ r => andThen_returns fun _ r => ?_
  trivial

/-- No change is so large that its opposite would not fit. -/
theorem saving_returns (h : r.plan.Placed problem clients facilities reach cost) (u : Update V) :
    Returns (r.saving problem u) (fun _ => True) := by
  refine (h.delta_returns u).bind fun answer _ hanswer => ?_
  cases answer with
  | error refusal => trivial
  | ok change => exact (Signed.neg_returns (hanswer change rfl)).mono fun _ _ _ => trivial

theorem History.placed (hp : p.Placed problem clients facilities reach cost)
    (h : History problem p r) : r.plan.Placed problem clients facilities reach cost := by
  have hkept := h.keeps (I := fun r => r.Sound problem clients ∧
    r.plan.Placed problem clients facilities reach cost) ?_ ?_
  · exact hkept.2
  · intro r u a ⟨hsound, hplaced⟩ ha
    have hsound' := hsound.apply ha
    exact ⟨hsound', hplaced.roomy, hsound'.plan, fun f hf =>
      hplaced.listed f ((hsound.mem_apply ha f).mp hf)⟩
  · exact ⟨⟨hp.sound, agrees_ofPlan hp.sound.disjoint⟩, hp⟩

end Roster

/-! ## All that is asked of a plan -/

section Answers

variable {V : Type} [Vertex V] {bits : Nat} {problem : SitingProblem V (Signed bits)}
  {chosen unchosen clients : List V} {reach cost : Nat}

/-- If the word has room for the distances and the opening costs of a siting problem, then nothing
that is asked of a plan leaves it: neither to build the plan, nor any sequence of calls, nor what is
asked then of the plan, or of a roster that was made of it and updated or searched. -/
theorem siting_never_overflows (h : problem.Roomy clients (chosen ++ unchosen) reach cost) :
    (∃ answer, Plan.build problem chosen unchosen clients = .ok answer) ∧
    ∀ p, Plan.build problem chosen unchosen clients = .ok (.ok p) →
      ∀ cs, ∃ q, p.calls problem cs = .ok q ∧ q.Unfailing problem ∧
        ∀ r, Roster.History problem q r → r.plan.Unfailing problem ∧
          ∀ u, (∃ a, r.apply problem u = .ok a) ∧ ∃ saved, r.saving problem u = .ok saved := by
  have hbuilt := Plan.build_returns h
  refine ⟨hbuilt.exists_ok, fun p hp cs => ?_⟩
  have hplaced := hbuilt.value hp p rfl
  obtain ⟨q, hq, hplaced'⟩ := (hplaced.calls_returns cs).exists_value fun _ => id
  refine ⟨q, hq, hplaced'.unfailing, fun r hr => ?_⟩
  have hroster := hr.placed hplaced'
  exact ⟨hroster.unfailing, fun u =>
    ⟨(Roster.apply_returns hroster u).exists_ok, (Roster.saving_returns hroster u).exists_ok⟩⟩

/-- Two sites as far apart as there is room for in 32 bits, with opening costs that leave no more
than three units of it. -/
def farSites : SitingProblem Int (Signed 32) where
  distance c f := .ok (if c = f then ⟨-500000000, by decide, by decide⟩ else
    ⟨500000000, by decide, by decide⟩)
  unserved := ⟨500000000, by decide, by decide⟩
  openingCost _ := ⟨36870911, by decide, by decide⟩

theorem farSites_roomy : farSites.Roomy [1, 2, 1] ([1] ++ [2]) 500000000 36870911 where
  unserved := by decide
  distance c _ f _ := by
    refine ⟨_, rfl, ?_⟩
    split <;> decide
  openingCost _ _ := show (36870911 : Int).natAbs ≤ 36870911 by decide
  room := by decide

/-- The only site closes and opens again, and then gives way to the other one. -/
theorem siting_never_overflows_farSites :
    farSites.Roomy [1, 2, 1] ([1] ++ [2]) 500000000 36870911 ∧
    ∃ p q, Plan.build farSites [1] [2] [1, 2, 1] = .ok (.ok p) ∧
      p.calls farSites [.closing 1, .closing 2, .opening 1, .applying (.exchange 1 2)] = .ok q ∧
      p.service.cost.val = 0 ∧ q.chosen.toList = [2] ∧ q.Unfailing farSites ∧
      ∃ saved, (Roster.ofPlan q).saving farSites (.closing 2) = .ok saved ∧
        saved.val = -963129089 := by
  have at_calls : ∀ cs p q, Plan.build farSites [1] [2] [1, 2, 1] = .ok (.ok p) →
      p.calls farSites cs = .ok q → q.Unfailing farSites := by
    intro cs p q hbuild hcalls
    obtain ⟨-, hplans⟩ := siting_never_overflows farSites_roomy
    obtain ⟨_, hsame, hunfailing, -⟩ := hplans p hbuild cs
    rw [hcalls] at hsame
    cases hsame
    exact hunfailing
  refine ⟨farSites_roomy, _, _, rfl, rfl, rfl, rfl, ?_, _, rfl, rfl⟩
  exact at_calls [.closing 1, .closing 2, .opening 1, .applying (.exchange 1 2)] _ _ rfl rfl

end Answers

end Descent
