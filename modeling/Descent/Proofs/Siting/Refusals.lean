import Descent.Proofs.Siting.Progress

/-!
# Refused updates

`Update.RefusedBy` says, from the two sides of a plan alone, which updates are refused and for
which facility. A plan and its roster refuse exactly these, for exactly that reason, and so does
the question for the change that an update would bring. A refused update leaves everything as it
was; in particular no exchange stops half way, and a roster never misses a facility that its plan
has just moved.
-/

namespace Descent

open Checked (Ends)

/-! ## Reasons -/

section Reasons

variable {V : Type} [Vertex V]

/-- Why a facility cannot be opened. -/
inductive Refusal.BarsOpening (chosen unchosen : AscendingSet V) (f : V) : Refusal V → Prop where
  | alreadyChosen : f ∈ chosen → BarsOpening chosen unchosen f (.alreadyChosen f)
  | unknown : f ∉ chosen → f ∉ unchosen → BarsOpening chosen unchosen f (.unknown f)

/-- Why a facility cannot be closed. -/
inductive Refusal.BarsClosing (chosen unchosen : AscendingSet V) (f : V) : Refusal V → Prop where
  | notChosen : f ∈ unchosen → BarsClosing chosen unchosen f (.notChosen f)
  | unknown : f ∉ chosen → f ∉ unchosen → BarsClosing chosen unchosen f (.unknown f)

/-- Why an update is refused. An exchange is refused for the facility that it would open only if
it could close the other one. -/
def Update.RefusedBy (chosen unchosen : AscendingSet V) : Update V → Refusal V → Prop
  | opening f, refusal => refusal.BarsOpening chosen unchosen f
  | closing f, refusal => refusal.BarsClosing chosen unchosen f
  | exchange closed opened, refusal =>
    refusal.BarsClosing chosen unchosen closed ∨
      (closed ∈ chosen ∧ refusal.BarsOpening chosen unchosen opened)

end Reasons

namespace Plan

section Requirements

variable {V D : Type} [Vertex V] {p : Plan V D} {u : Update V} {f : V} {refusal : Refusal V}

theorem requireClosed_eq_error_iff (hp : ∀ f ∈ p.chosen, f ∉ p.unchosen) :
    p.requireClosed f = .error refusal ↔ refusal.BarsOpening p.chosen p.unchosen f := by
  constructor
  · intro h
    unfold requireClosed at h
    by_cases hclosed : f ∈ p.unchosen
    · rw [if_pos hclosed] at h
      cases h
    · rw [if_neg hclosed] at h
      by_cases hopen : f ∈ p.chosen
      · rw [if_pos hopen] at h
        cases h
        exact .alreadyChosen hopen
      · rw [if_neg hopen] at h
        cases h
        exact .unknown hopen hclosed
  · intro h
    unfold requireClosed
    cases h with
    | alreadyChosen hopen => rw [if_neg (hp f hopen), if_pos hopen]
    | unknown hopen hclosed => rw [if_neg hclosed, if_neg hopen]

theorem requireOpen_eq_error_iff (hp : ∀ f ∈ p.chosen, f ∉ p.unchosen) :
    p.requireOpen f = .error refusal ↔ refusal.BarsClosing p.chosen p.unchosen f := by
  constructor
  · intro h
    unfold requireOpen at h
    by_cases hopen : f ∈ p.chosen
    · rw [if_pos hopen] at h
      cases h
    · rw [if_neg hopen] at h
      by_cases hclosed : f ∈ p.unchosen
      · rw [if_pos hclosed] at h
        cases h
        exact .notChosen hclosed
      · rw [if_neg hclosed] at h
        cases h
        exact .unknown hopen hclosed
  · intro h
    unfold requireOpen
    cases h with
    | notChosen hclosed => rw [if_neg fun hopen => hp f hopen hclosed, if_pos hclosed]
    | unknown hopen hclosed => rw [if_neg hopen, if_neg hclosed]

/-- The requirement of an update fails for the reason that the sides of the plan give. -/
theorem requirement_eq_error_iff (hp : ∀ f ∈ p.chosen, f ∉ p.unchosen) :
    p.requirement u = .error refusal ↔ u.RefusedBy p.chosen p.unchosen refusal := by
  cases u with
  | opening f => exact requireClosed_eq_error_iff hp
  | closing f => exact requireOpen_eq_error_iff hp
  | exchange closed opened =>
    show (p.requireOpen closed >>= fun _ => p.requireClosed opened) = _ ↔
      refusal.BarsClosing p.chosen p.unchosen closed ∨
        (closed ∈ p.chosen ∧ refusal.BarsOpening p.chosen p.unchosen opened)
    rw [← requireOpen_eq_error_iff hp, ← requireClosed_eq_error_iff hp]
    cases hclosed : p.requireOpen closed with
    | error reason =>
      -- The facility to close stands in the way, so the other one is not looked at.
      have hnot : closed ∉ p.chosen := by
        intro hopen
        rw [requireOpen_of_mem hopen] at hclosed
        cases hclosed
      simp only [hnot, false_and, or_false]
      rfl
    | ok _ =>
      have hopen := mem_of_requireOpen hclosed
      simp only [hopen, true_and, reduceCtorEq, false_or]
      rfl

/-- An attempt that is made when the requirement is met, and is refused with its reason when it is
not, is refused exactly for that reason, and with the state that it then leaves. -/
theorem refused_iff_of_requirement {S α : Type} {x : Checked (Attempt V S α)} {s s' : S}
    (hmade : p.requirement u = .ok () → ∀ a, x = .ok a → ∃ change, a.outcome = .ok change)
    (hrefused : ∀ reason, p.requirement u = .error reason → x = .ok ⟨.error reason, s⟩) :
    x = .ok ⟨.error refusal, s'⟩ ↔ p.requirement u = .error refusal ∧ s' = s := by
  cases hrequired : p.requirement u with
  | ok _ =>
    constructor
    · intro h
      obtain ⟨change, houtcome⟩ := hmade hrequired _ h
      cases houtcome
    · rintro ⟨h, -⟩
      cases h
  | error reason =>
    rw [hrefused reason hrequired]
    constructor
    · intro h
      cases h
      exact ⟨rfl, rfl⟩
    · rintro ⟨h, rfl⟩
      cases h
      rfl

end Requirements

section Updates

variable {V D : Type} [Vertex V] [Distance D] {problem : SitingProblem V D} {clients : List V}
  {p q : Plan V D} {u : Update V} {refusal : Refusal V}

theorem delta_of_requirement (problem : SitingProblem V D)
    (h : p.requirement u = .error refusal) : p.delta problem u = .ok (.error refusal) := by
  cases u with
  | opening f =>
    change p.requireClosed f = _ at h
    simp only [delta, openingDelta, h]
    rfl
  | closing f =>
    change p.requireOpen f = _ at h
    simp only [delta, closingDelta, h]
    rfl
  | exchange closed opened =>
    change p.requireExchange closed opened = _ at h
    simp only [delta, exchangeDelta, h]
    rfl

/-- A plan refuses an update exactly for the reason that its sides give, and stays as it is. -/
theorem Sound.apply_eq_refused_iff (hp : p.Sound problem clients) :
    p.apply problem u = .ok ⟨.error refusal, q⟩ ↔
      u.RefusedBy p.chosen p.unchosen refusal ∧ q = p := by
  rw [← requirement_eq_error_iff hp.disjoint]
  refine refused_iff_of_requirement (fun hrequired a h => ?_) fun reason hrequired => ?_
  · obtain ⟨change, houtcome, -⟩ := apply_of_legal (legal_of_requirement hrequired) h
    exact ⟨change, houtcome⟩
  · exact apply_of_requirement problem hrequired

/-- The question for a change is refused exactly when the change is, for the same reason. -/
theorem Sound.delta_eq_refused_iff (hp : p.Sound problem clients) :
    p.delta problem u = .ok (.error refusal) ↔ u.RefusedBy p.chosen p.unchosen refusal := by
  rw [← requirement_eq_error_iff hp.disjoint]
  cases hrequired : p.requirement u with
  | ok _ =>
    constructor
    · intro h
      obtain ⟨change, hchange⟩ := (hp.delta_mayFail (legal_of_requirement hrequired)).value h
      cases hchange
    · intro h
      cases h
  | error reason =>
    rw [delta_of_requirement problem hrequired, Except.ok.injEq, Except.error.injEq,
      Except.error.injEq]

/-- Every update is legal or refused. -/
theorem Sound.legal_or_refused (hp : p.Sound problem clients) (u : Update V) :
    u.Legal p.chosen p.unchosen ∨ ∃ refusal, u.RefusedBy p.chosen p.unchosen refusal := by
  cases hrequired : p.requirement u with
  | ok _ => exact .inl (legal_of_requirement hrequired)
  | error reason => exact .inr ⟨reason, (requirement_eq_error_iff hp.disjoint).mp hrequired⟩

end Updates

end Plan

namespace Roster

variable {V D : Type} [Vertex V] [Distance D] {problem : SitingProblem V D} {clients : List V}
  {r s : Roster V D} {u : Update V} {refusal : Refusal V}

/-- A roster refuses an update exactly when its plan does, and stays as it is. -/
theorem Sound.apply_eq_refused_iff (hr : r.Sound problem clients) :
    r.apply problem u = .ok ⟨.error refusal, s⟩ ↔
      u.RefusedBy r.plan.chosen r.plan.unchosen refusal ∧ s = r := by
  rw [← Plan.requirement_eq_error_iff hr.plan.disjoint]
  refine Plan.refused_iff_of_requirement (fun hrequired b h => ?_) fun reason hrequired => ?_
  · obtain ⟨change, plan, -, rfl⟩ :=
      apply_of_legal hr.agrees (Plan.legal_of_requirement hrequired) h
    exact ⟨change, rfl⟩
  · exact apply_of_requirement problem hrequired

/-- Every update of a reachable plan or roster is legal or refused. If it is refused, it is so by
the change and by the question alike, for the first facility that stands in its way, and
everything stays as it was. If it is legal, both answer unless the metric or the arithmetic
faults, the change has been made in full, and the roster enters whatever its plan has made. -/
theorem refusals_predicted_and_atomic {p : Plan V D} (hp : Plan.Reachable problem clients p)
    (hr : Reachable problem clients r) (u : Update V) :
    ((u.Legal p.chosen p.unchosen ∨ ∃ refusal, u.RefusedBy p.chosen p.unchosen refusal) ∧
      (∀ refusal q, p.apply problem u = .ok ⟨.error refusal, q⟩ ↔
        u.RefusedBy p.chosen p.unchosen refusal ∧ q = p) ∧
      (∀ refusal, p.delta problem u = .ok (.error refusal) ↔
        u.RefusedBy p.chosen p.unchosen refusal) ∧
      (u.Legal p.chosen p.unchosen →
        Ends (p.apply problem u) (fun a => (∃ change, a.outcome = .ok change) ∧
          a.state.chosen = u.chosenAfter p.chosen ∧
          a.state.unchosen = u.unchosenAfter p.unchosen) problem.MayFail ∧
        Ends (p.delta problem u) (fun answer => ∃ change, answer = .ok change)
          problem.MayFail)) ∧
      (u.Legal r.plan.chosen r.plan.unchosen ∨
        ∃ refusal, u.RefusedBy r.plan.chosen r.plan.unchosen refusal) ∧
      (∀ refusal s, r.apply problem u = .ok ⟨.error refusal, s⟩ ↔
        u.RefusedBy r.plan.chosen r.plan.unchosen refusal ∧ s = r) ∧
      (∀ refusal, r.plan.delta problem u = .ok (.error refusal) ↔
        u.RefusedBy r.plan.chosen r.plan.unchosen refusal) ∧
      (u.Legal r.plan.chosen r.plan.unchosen →
        Ends (r.apply problem u) (fun b => ∃ change, b.outcome = .ok change) problem.MayFail) ∧
      ∀ change plan, r.plan.apply problem u = .ok ⟨.ok change, plan⟩ →
        r.apply problem u = .ok ⟨.ok change, { r.entered u with plan }⟩ := by
  have hplan := hp.sound
  have hroster := hr.sound
  refine ⟨⟨hplan.legal_or_refused u, fun _ _ => hplan.apply_eq_refused_iff,
      fun _ => hplan.delta_eq_refused_iff, fun hu => ⟨?_, hplan.delta_mayFail hu⟩⟩,
    hroster.plan.legal_or_refused u, fun _ _ => hroster.apply_eq_refused_iff,
    fun _ => hroster.plan.delta_eq_refused_iff, fun hu => hroster.apply_mayFail hu,
    fun change plan hmade => ?_⟩
  · refine (hplan.apply_mayFail hu).mono fun a ha hmade => ⟨hmade, ?_⟩
    obtain ⟨-, -, hupdated⟩ := Plan.apply_of_legal hu ha
    exact ⟨hupdated.chosen_eq, hupdated.unchosen_eq⟩
  · -- What the plan has made was not refused, so it was legal.
    rcases hroster.plan.legal_or_refused u with hu | ⟨refusal, hrefused⟩
    · exact apply_of_made hroster.agrees hu hmade
    · rw [hroster.plan.apply_eq_refused_iff.mpr ⟨hrefused, rfl⟩] at hmade
      cases hmade

/-- An exchange of an open facility for itself, and one of a facility that does not exist for one
that is open: the facility to close is looked at first. -/
theorem refusals_predicted_and_atomic_slope :
    ∃ p : Plan Int (Signed 64),
      Plan.build slopeSites [1] [5] [4, 2, 4] = .ok (.ok p) ∧
        p.apply slopeSites (.exchange 1 1) = .ok ⟨.error (.alreadyChosen 1), p⟩ ∧
        p.delta slopeSites (.exchange 1 1) = .ok (.error (.alreadyChosen 1)) ∧
        (ofPlan p).apply slopeSites (.exchange 9 1) = .ok ⟨.error (.unknown 9), ofPlan p⟩ := by
  have at_plan : ∀ p : Plan Int (Signed 64),
      Plan.build slopeSites [1] [5] [4, 2, 4] = .ok (.ok p) →
      1 ∈ p.chosen → 9 ∉ p.chosen → 9 ∉ p.unchosen →
      p.apply slopeSites (.exchange 1 1) = .ok ⟨.error (.alreadyChosen 1), p⟩ ∧
        p.delta slopeSites (.exchange 1 1) = .ok (.error (.alreadyChosen 1)) ∧
        (ofPlan p).apply slopeSites (.exchange 9 1) = .ok ⟨.error (.unknown 9), ofPlan p⟩ := by
    intro p hbuild h1 h9 h9'
    have hp : Plan.Reachable slopeSites [4, 2, 4] p := .built hbuild
    have hself : (Update.exchange (1 : Int) 1).RefusedBy p.chosen p.unchosen (.alreadyChosen 1) :=
      .inr ⟨h1, .alreadyChosen h1⟩
    have hunknown : (Update.exchange (9 : Int) 1).RefusedBy p.chosen p.unchosen (.unknown 9) :=
      .inl (.unknown h9 h9')
    obtain ⟨⟨-, happly, hdelta, -⟩, -⟩ :=
      refusals_predicted_and_atomic hp (.listed hp) (.exchange 1 1)
    obtain ⟨-, -, hroster, -⟩ := refusals_predicted_and_atomic hp (.listed hp) (.exchange 9 1)
    exact ⟨(happly _ _).mpr ⟨hself, rfl⟩, (hdelta _).mpr hself,
      (hroster _ _).mpr ⟨hunknown, rfl⟩⟩
  refine ⟨_, rfl, ?_⟩
  exact at_plan _ rfl (by decide) (by decide) (by decide)

end Roster

end Descent
