import Descent.Acceptance.Tabu
import Descent.Proofs.Siting.Trail
import Descent.Proofs.Tour.Optimum

/-!
# Recorded runs of sitings and tours

A siting run and a tour run each keep a record of their own. Both refine the plain run of their
engine: from every start, with every configuration and, for sitings, with every evaluator, they
leave its state and count its passes. `runs_retold` puts this together with what such a run counts
and with what the history of its record says.
-/

namespace Descent

/-! ## Tours -/

namespace Tour

variable {V D : Type} [Distance D] {distance : Metric V D} {config : SearchConfig} {t : Tour V}

/-- The record of a tour run tells its whole story. -/
theorem shorten_retold {run : TourRun V D} (h : t.shorten distance config = .ok run) :
    (engine distance config).Retold (Tour.length distance) ⟨t, (), ()⟩ run.record
      ⟨run.tour, (), ()⟩ run.length := by
  rw [shorten_eq] at h
  obtain ⟨done, hdone, h⟩ := Checked.bind_ok_iff.mp h
  obtain ⟨length, hlength, h⟩ := Checked.bind_ok_iff.mp h
  cases h
  obtain ⟨value, hvalue, hretold⟩ := Engine.record_retold
    (fun _ last _ _ hpass hidle => ((search_ends last).value hpass).1 hidle) hdone
  have hsame : Except.ok value = Except.ok length := hvalue.symm.trans hlength
  cases hsame
  exact hretold

/-- A tour run ends if the engine's own run does and the length has a value all along. -/
theorem shorten_of_run
    (hvalues : ∀ later last, (engine distance config).Trail ⟨t, (), ()⟩ later last →
      ∃ length, last.solution.length distance = .ok length)
    {plain : Run Unit Unit (Tour V) Unit TwoEdgeMove}
    (h : (engine distance config).run ⟨t, (), ()⟩ = .ok plain) :
    ∃ run, t.shorten distance config = .ok run := by
  obtain ⟨done, hdone, length, hlength⟩ := Engine.record_of_run (Tour.length distance) hvalues
    (fun _ last _ _ hpass hidle => ((search_ends last).value hpass).1 hidle) h
  simp only [shorten_eq, hdone, hlength, Checked.ok_bind]
  exact ⟨_, rfl⟩

end Tour

/-! ## All runs -/

open Roster in
/-- A siting run from any reachable roster, with any evaluator, and a tour run from any tour tell
the whole story of the plain run of their engine; they end whenever that one does, as long as their
objective has a value all along. And what a plain run of any engine counts is settled by its trail
and its cap. -/
theorem runs_retold {σ V W D D' G : Type} [Vertex V] [Distance D] [Distance D'] [Gain G]
    {problem : SitingProblem V D} {clients : List V} {r : Roster V D}
    (hr : Reachable problem clients r) (config : SitingConfig) (hkinds : config.kinds.any = true)
    (evaluator : Evaluator σ (Roster V D) (Facility V) (Update V) G) (memory : σ)
    (distance : Metric W D') (search : SearchConfig) (t : Tour W) :
    let siting := Roster.engine problem config.kinds evaluator (.never : StopRule Unit _ _ _)
      config.toSearchConfig
    (∀ run, r.optimizeWith problem config evaluator memory = .ok (.ok run) →
      siting.Retold (fun s => s.plan.totalCost problem) ⟨r, memory, ()⟩ run.report.record
        ⟨run.roster, run.evaluator, ()⟩ run.report.cost) ∧
    (∀ plain, siting.run ⟨r, memory, ()⟩ = .ok plain →
      (∀ later last, siting.Trail ⟨r, memory, ()⟩ later last →
        ∃ cost, last.solution.plan.totalCost problem = .ok cost) →
      ∃ run, r.optimizeWith problem config evaluator memory = .ok (.ok run)) ∧
    (∀ run, t.shorten distance search = .ok run →
      (Tour.engine distance search).Retold (Tour.length distance) ⟨t, (), ()⟩ run.record
        ⟨run.tour, (), ()⟩ run.length) ∧
    (∀ plain, (Tour.engine distance search).run ⟨t, (), ()⟩ = .ok plain →
      (∀ later last, (Tour.engine distance search).Trail ⟨t, (), ()⟩ later last →
        ∃ length, last.solution.length distance = .ok length) →
      ∃ run, t.shorten distance search = .ok run) ∧
    ∀ {σ τ S E M G : Type} [Gain G] (engine : Engine σ τ S E M G) (start : SearchState σ τ S)
      (run : Run σ τ S E M), engine.run start = .ok run → engine.Counts start run.tally := by
  intro siting
  refine ⟨fun run hrun => hr.sound.optimizeWith_retold hrun, fun plain hplain hvalues =>
    hr.sound.optimizeWith_of_run hkinds hvalues hplain, fun run hrun => Tour.shorten_retold hrun,
    fun plain hplain hvalues => Tour.shorten_of_run hvalues hplain, ?_⟩
  intro σ τ S E M G _ engine start run hrun
  exact Engine.run_counts hrun

/-- Updates around the vertices of the latest two are tabu, even if they would improve. -/
def wary : Evaluator (TabuMemory Unit Int) (Roster Int (Signed 64)) (Facility Int) (Update Int)
    Float :=
  .tabu { tenure := 2, aspiration := false } (fun entry _ => [entry.vertex])
    (Roster.savings Roster.slopeSites)

open Roster Tour in
set_option maxRecDepth 20000 in
/-- Runs up to a cap, of which the tour run comes to the shortest tour with its last pass: it does
not know that no further pass would go on. -/
theorem runs_retold_capped :
    ∃ (plan : Plan Int (Signed 64)) (run : SitingRun _ Int (Signed 64))
      (tour : TourRun (Int × Int) (Signed 64)),
      Plan.build slopeSites [] [0, 1, 3, 5] [4, 2, 1, 7, 4] = .ok (.ok plan) ∧
        (ofPlan plan).optimizeWith slopeSites { strategy := .best, cap := 3 } wary ⟨(), .empty⟩ =
          .ok (.ok run) ∧
        stroll.shorten blocks { cap := 4 } = .ok tour ∧
        run.report.record.tally = ⟨3, 3, false⟩ ∧ tour.record.tally = ⟨4, 4, false⟩ ∧
        (∃ plain, (Roster.engine slopeSites .all wary (.never : StopRule Unit _ _ _)
            { strategy := .best, cap := 3 }).run ⟨ofPlan plan, ⟨(), .empty⟩, ()⟩ = .ok plain ∧
          plain.tally = ⟨3, 3, false⟩ ∧ plain.state.solution = run.roster) ∧
        (∃ plain, (Tour.engine blocks { cap := 4 }).run ⟨stroll, (), ()⟩ = .ok plain ∧
          plain.tally = ⟨4, 4, false⟩ ∧ plain.state.solution = tour.tour) ∧
        run.report.record.history.length = 4 ∧
        tour.record.history.getLast? = some tour.length := by
  have at_run : ∀ (plan : Plan Int (Signed 64)) (run : SitingRun _ Int (Signed 64))
      (tour : TourRun (Int × Int) (Signed 64)),
      Plan.build slopeSites [] [0, 1, 3, 5] [4, 2, 1, 7, 4] = .ok (.ok plan) →
      (ofPlan plan).optimizeWith slopeSites { strategy := .best, cap := 3 } wary ⟨(), .empty⟩ =
        .ok (.ok run) →
      stroll.shorten blocks { cap := 4 } = .ok tour →
      run.report.record.tally = ⟨3, 3, false⟩ → tour.record.tally = ⟨4, 4, false⟩ →
      (∃ plain, (Roster.engine slopeSites .all wary (.never : StopRule Unit _ _ _)
          { strategy := .best, cap := 3 }).run ⟨ofPlan plan, ⟨(), .empty⟩, ()⟩ = .ok plain ∧
        plain.tally = ⟨3, 3, false⟩ ∧ plain.state.solution = run.roster) ∧
      (∃ plain, (Tour.engine blocks { cap := 4 }).run ⟨stroll, (), ()⟩ = .ok plain ∧
        plain.tally = ⟨4, 4, false⟩ ∧ plain.state.solution = tour.tour) ∧
      run.report.record.history.length = 4 ∧
      tour.record.history.getLast? = some tour.length := by
    intro plan run tour hbuild hrun htour htally htally'
    obtain ⟨hsiting, -, hshorten, -, -⟩ := runs_retold (.listed (.built hbuild))
      { strategy := .best, cap := 3 } rfl wary ⟨(), .empty⟩ blocks { cap := 4 } stroll
    obtain ⟨⟨plain, hplain, hsame, hstate⟩, -, hlength, -⟩ := hsiting run hrun
    obtain ⟨⟨plain', hplain', hsame', hstate'⟩, -, -, -, hlast⟩ := hshorten tour htour
    have himprovements : run.report.record.improvements = 3 := congrArg Tally.improvements htally
    refine ⟨⟨plain, hplain, hsame.trans htally, by rw [hstate]⟩,
      ⟨plain', hplain', hsame'.trans htally', by rw [hstate']⟩, ?_, hlast⟩
    rw [hlength, himprovements]
  refine ⟨_, _, _, rfl, rfl, rfl, rfl, rfl, ?_⟩
  exact at_run _ _ _ rfl rfl rfl rfl rfl

end Descent
