import Descent.Acceptance.Annealing
import Descent.Acceptance.Tabu
import Descent.Proofs.Acceptance.Positive
import Descent.Proofs.Siting.Trail

/-!
# Converged runs under annealed and tabu scores

Annealed scores and tabu scores with aspiration leave a positive gain as it is. So whatever the
draws, the temperature and the list are, a move that such an evaluator scores as one that does not
improve has an inner gain that does not improve, through any number of layers. A run that has
converged under a stack of them has therefore come to a local optimum: `stacked_run_optimal`.
-/

namespace Descent

open Checked (Ends)

/-! ## Scores that keep positive gains -/

section Scores

variable {K R : Type} [Chance R] {gain : R}

/-- A score under annealing that does not improve is that of a gain that does not improve. -/
theorem Thermal.gain_of_score {c : AnnealingConfig R} {draws : Draws} {t : Thermal R}
    (h : Gain.improves (t.score c draws gain).1 = false) : Gain.improves gain = false := by
  cases himproves : Gain.improves gain with
  | false => rfl
  | true =>
    have hsame : (t.score c draws gain).1 = gain := by
      unfold score
      rw [himproves, Bool.true_or, if_pos rfl]
    rw [hsame, himproves] at h
    exact h

/-- So is a tabu score with aspiration, whether the move is tabu or not. -/
theorem TabuConfig.gain_of_score {c : TabuConfig} {isTabu : Bool}
    (haspiration : c.aspiration = true) (h : Gain.improves (c.score isTabu gain) = false) :
    Gain.improves gain = false := by
  cases himproves : Gain.improves gain with
  | false => rfl
  | true =>
    have hsame : c.score isTabu gain = gain := by
      unfold score
      rw [haspiration, himproves]
      simp
    rw [hsame, himproves] at h
    exact h

/-- Gains that still improve when they are read as scalars. -/
def KeepsGains (G R : Type) [Gain G] [Gain R] [Measured G R] : Prop :=
  ∀ g : G, Gain.improves g = true → Gain.improves (Measured.toScalar g : R) = true

theorem KeepsGains.improves_eq_false {G : Type} [Gain G] [Measured G R] (h : KeepsGains G R) {g : G}
    (hno : Gain.improves (Measured.toScalar g : R) = false) : Gain.improves g = false := by
  cases himproves : Gain.improves g with
  | false => rfl
  | true =>
    rw [h g himproves] at hno
    exact hno

theorem keepsGains_refl (R : Type) [Gain R] : KeepsGains R R := fun _ h => h

/-- A positive word is read as a positive double. -/
theorem keepsGains_word (bits : Nat) : KeepsGains (Signed bits) Float :=
  fun _ h => Binary.improves_ofInt (Signed.lt_iff.mp h)

end Scores

namespace Roster

variable {σ V G R K : Type} [Vertex V] [Gain G] [Chance R] [Measured G R] {bits : Nat}
  {problem : SitingProblem V (Signed bits)} {clients : List V}
  {inner : Evaluator σ (Roster V (Signed bits)) (Facility V) (Update V) G}

/-! ## Layers -/

theorem Faithful.annealed (hinner : Faithful problem inner) (hkeeps : KeepsGains G R)
    (c : AnnealingConfig R) (draws : Draws) :
    Faithful problem (Evaluator.annealedBy c draws inner) := by
  intro memory r entry u score memory' hscore hno
  obtain ⟨⟨g, innerMemory⟩, hinnerScore, hscore⟩ := Checked.bind_ok_iff.mp hscore
  cases hscore
  have hgain := hkeeps.improves_eq_false (Thermal.gain_of_score hno)
  exact hinner _ r entry u g _ hinnerScore hgain

theorem Faithful.tabu [DecidableEq K] (hinner : Faithful problem inner) (hkeeps : KeepsGains G R)
    {c : TabuConfig} (haspiration : c.aspiration = true)
    (attributes : Facility V → Update V → List K) :
    Faithful problem (Evaluator.tabu c attributes inner : Evaluator _ _ _ _ R) := by
  intro memory r entry u score memory' hscore hno
  obtain ⟨⟨g, innerMemory⟩, hinnerScore, hscore⟩ := Checked.bind_ok_iff.mp hscore
  cases hscore
  have hgain := hkeeps.improves_eq_false (TabuConfig.gain_of_score haspiration hno)
  exact hinner _ r entry u g _ hinnerScore hgain

/-- Evaluators around the savings of a siting problem, of one or more layers: annealed scores, and
tabu scores with aspiration. -/
inductive Stack (problem : SitingProblem V (Signed bits)) : {σ : Type} →
    Evaluator σ (Roster V (Signed bits)) (Facility V) (Update V) Float → Prop where
  | annealed (c : AnnealingConfig Float) (draws : Draws) :
    Stack problem (.annealedBy c draws (savings problem))
  | tabu {K : Type} [DecidableEq K] (c : TabuConfig) (attributes : Facility V → Update V → List K) :
    c.aspiration = true → Stack problem (.tabu c attributes (savings problem))
  | annealedAround {σ : Type}
    {inner : Evaluator σ (Roster V (Signed bits)) (Facility V) (Update V) Float}
    (c : AnnealingConfig Float) (draws : Draws) :
    Stack problem inner → Stack problem (.annealedBy c draws inner)
  | tabuAround {σ K : Type} [DecidableEq K]
    {inner : Evaluator σ (Roster V (Signed bits)) (Facility V) (Update V) Float}
    (c : TabuConfig) (attributes : Facility V → Update V → List K) :
    c.aspiration = true → Stack problem inner → Stack problem (.tabu c attributes inner)

theorem Stack.faithful
    {evaluator : Evaluator σ (Roster V (Signed bits)) (Facility V) (Update V) Float}
    (h : Stack problem evaluator) : Faithful problem evaluator := by
  induction h with
  | annealed c draws => exact (savings_faithful problem).annealed (keepsGains_word bits) c draws
  | tabu c attributes haspiration =>
    exact (savings_faithful problem).tabu (keepsGains_word bits) haspiration attributes
  | annealedAround c draws _ ih => exact ih.annealed (keepsGains_refl Float) c draws
  | tabuAround c attributes haspiration _ ih =>
    exact ih.tabu (keepsGains_refl Float) haspiration attributes

/-! ## Runs -/

/-- What holds of a roster along a run from another one, with its entry in the history. -/
structure Kept (problem : SitingProblem V (Signed bits)) (clients : List V)
    (r s : Roster V (Signed bits)) (entry : Signed bits) : Prop where
  disjoint : ∀ f ∈ s.plan.chosen, f ∉ s.plan.unchosen
  facilities : ∀ f, f ∈ s.plan.chosen ∨ f ∈ s.plan.unchosen ↔
    f ∈ r.plan.chosen ∨ f ∈ r.plan.unchosen
  agrees : s.Agrees
  cost : s.plan.totalCost problem = .ok entry
  objective : problem.objective clients s.plan.chosen.toList = .ok entry.val

variable {r : Roster V (Signed bits)} {u : Update V}

/-- A legal update that does not save anything does not lower the cost. -/
theorem Sound.delta_of_saving (hr : r.Sound problem clients)
    (hu : u.Legal r.plan.chosen r.plan.unchosen) {saved : Signed bits}
    (hsaved : r.saving problem u = .ok saved) (hle : saved.val ≤ 0) :
    ∃ change, r.plan.delta problem u = .ok (.ok change) ∧ 0 ≤ change.val := by
  unfold saving at hsaved
  obtain ⟨answer, hdelta, hneg⟩ := Checked.bind_ok_iff.mp hsaved
  obtain ⟨change, rfl, -⟩ := (hr.plan.delta_ends hu).value hdelta
  have hval : saved.val = -change.val := Signed.neg_eq_ok_iff.mp hneg
  exact ⟨change, hdelta, by omega⟩

/-- A run from any reachable roster under a stack of annealed and tabu scores, with any memory to
start from, keeps its parts in agreement after every committed update, each with its entry in the
history, of which the last one is reported. If the run has converged, then no legal update of an
enabled kind lowers the cost, whatever the temperature and the tabu list are by then. -/
theorem stacked_run_optimal {config : SitingConfig}
    {evaluator : Evaluator σ (Roster V (Signed bits)) (Facility V) (Update V) Float} {memory : σ}
    {run : SitingRun σ V (Signed bits)} (hstack : Stack problem evaluator)
    (hr : Reachable problem clients r)
    (h : r.optimizeWith problem config evaluator memory = .ok (.ok run)) :
    (run.report.record.converged = true → ∀ u, config.kinds.allows u = true →
      u.Legal run.roster.plan.chosen run.roster.plan.unchosen →
      ∃ change, run.roster.plan.delta problem u = .ok (.ok change) ∧ 0 ≤ change.val) ∧
    (∃ later last, (engine problem config.kinds evaluator (.never : StopRule Unit _ _ _)
        config.toSearchConfig).Trail ⟨r, memory, ()⟩ later last ∧ last.solution = run.roster ∧
      List.Forall₂ (fun s entry => Kept problem clients r s.solution entry)
        (⟨r, memory, ()⟩ :: later) run.report.record.history) ∧
    run.report.record.history.getLast? = some run.report.cost := by
  have hretold := hr.sound.optimizeWith_retold h
  refine ⟨fun hconverged u hk hu => ?_, ?_, hretold.reported⟩
  · obtain ⟨hfinal, -, -, hsettled⟩ := optimizeWith_ends hr.sound h
    obtain ⟨saved, hsaved, hle⟩ :=
      hfinal.sound.saving_of_settled hstack.faithful (hsettled hconverged) hu hk
    exact hfinal.sound.delta_of_saving hu hsaved hle
  · obtain ⟨later, last, htrail, hlast, halong⟩ := hretold.along
    refine ⟨later, last, htrail, hlast, List.forall₂_iff_zip.mpr ⟨halong.length_eq, ?_⟩⟩
    intro s entry hs
    have hcost := (List.forall₂_iff_zip.mp halong).2 hs
    obtain ⟨hsound, hfacilities⟩ :=
      hr.sound.trail_continues htrail s (List.of_mem_zip hs).1
    have hvalue : entry.val = s.solution.plan.value problem :=
      (Plan.totalCost_ends s.solution.plan).value hcost
    refine ⟨hsound.plan.disjoint, hfacilities, hsound.agrees, hcost, ?_⟩
    rw [hvalue]
    exact hsound.plan.objective

/-- Annealed scores around tabu ones. The temperature comes down to the minimum at once. -/
def chilled : Evaluator (Annealed (TabuMemory Unit Int) Float) (Roster Int (Signed 64))
    (Facility Int) (Update Int) Float :=
  .annealed ⟨2.0, 1.0, .linear 1, none⟩ 11
    (.tabu {} (fun _ u => u.facilities) (savings slopeSites) : Evaluator _ _ _ _ Float)

set_option maxRecDepth 20000 in
/-- A run that stops before it has opened the last of four sites, which would not pay. -/
theorem stacked_run_optimal_slope :
    ∃ (plan : Plan Int (Signed 64)) (run : SitingRun _ Int (Signed 64)),
      Plan.build slopeSites [] [0, 1, 3, 5] [4, 2, 1, 7, 4] = .ok (.ok plan) ∧
        (ofPlan plan).optimizeWith slopeSites {} chilled ⟨⟨(), .empty⟩, ⟨2.0, 0, 0, 0⟩⟩ =
          .ok (.ok run) ∧
        run.report.record.converged = true ∧ run.report.chosen = [1, 3, 5] ∧
        (∃ change, run.roster.plan.delta slopeSites (.opening 0) = .ok (.ok change) ∧
          0 ≤ change.val) ∧
        run.report.record.history.getLast? = some run.report.cost := by
  have at_run : ∀ (plan : Plan Int (Signed 64)) (run : SitingRun _ Int (Signed 64)),
      Plan.build slopeSites [] [0, 1, 3, 5] [4, 2, 1, 7, 4] = .ok (.ok plan) →
      (ofPlan plan).optimizeWith slopeSites {} chilled ⟨⟨(), .empty⟩, ⟨2.0, 0, 0, 0⟩⟩ =
        .ok (.ok run) →
      run.report.record.converged = true → 0 ∈ run.roster.plan.unchosen →
      (∃ change, run.roster.plan.delta slopeSites (.opening 0) = .ok (.ok change) ∧
        0 ≤ change.val) ∧
      run.report.record.history.getLast? = some run.report.cost := by
    intro plan run hbuild hrun hconverged hclosed
    have hstack : Stack slopeSites chilled :=
      .annealedAround ⟨2.0, 1.0, .linear 1, none⟩ (Keystream.draws 11)
        (.tabu {} (fun _ u => u.facilities) rfl)
    obtain ⟨hoptimal, -, hlast⟩ := stacked_run_optimal hstack (.listed (.built hbuild)) hrun
    exact ⟨hoptimal hconverged (.opening 0) rfl hclosed, hlast⟩
  refine ⟨_, _, rfl, rfl, rfl, rfl, ?_⟩
  exact at_run _ _ rfl rfl rfl (by decide)

end Roster

end Descent
