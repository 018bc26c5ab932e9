import Descent.Proofs.Search.Run
import Descent.Proofs.Siting.Moves
import Descent.Siting.Run

/-!
# A converged run ends at a local optimum

A run keeps its roster sound and its universe of facilities. If it has converged, its last pass
went over all legal updates of the enabled kinds in a roster that it then left alone, and none
of them had a saving. Savings are what the objective loses, so no such update lowers the
objective.
-/

namespace Descent

namespace Roster

section Runs

variable {σ V D G : Type} [Vertex V] [Distance D] [Gain G] {problem : SitingProblem V D}
  {clients : List V} {config : SitingConfig} {r : Roster V D}
  {evaluator : Evaluator σ (Roster V D) (Facility V) (Update V) G} {memory : σ}
  {run : SitingRun σ V D}

/-- A roster that a run from another one can be in: it is sound, and over the same facilities. -/
structure Continues (problem : SitingProblem V D) (clients : List V) (r s : Roster V D) :
    Prop where
  sound : s.Sound problem clients
  facilities : ∀ f, f ∈ s.plan.chosen ∨ f ∈ s.plan.unchosen ↔
    f ∈ r.plan.chosen ∨ f ∈ r.plan.unchosen

theorem Continues.commit {s s' : Roster V D} {u : Update V} {accepted : Bool}
    (hs : Continues problem clients r s) (h : s.commit problem u = .ok (accepted, s')) :
    Continues problem clients r s' := by
  obtain ⟨b, hb, rfl, -⟩ := commit_eq_ok h
  refine ⟨hs.sound.apply hb, fun f => ?_⟩
  rw [hs.sound.mem_apply hb, hs.facilities]

/-- A pass with any evaluator and any stop rule goes on from a roster to one that continues it. -/
theorem Continues.search {τ : Type} {kinds : MoveKinds}
    {stop : StopRule τ (Roster V D) (Facility V) (Update V)} {config : SearchConfig}
    {state : SearchState σ τ (Roster V D)} {pass : Pass σ τ (Roster V D) (Facility V) (Update V)}
    (hs : Continues problem clients r state.solution)
    (h : (engine problem kinds evaluator stop config).search state = .ok pass) :
    Continues problem clients r pass.state.solution :=
  Engine.search_keeps (fun _ hs _ _ _ _ _ _ hcommit => hs.commit hcommit) hs h

/-- A run that answers with a report had a usable configuration, and was a recorded run of its
engine. -/
theorem optimizeWith_eq_ok (h : r.optimizeWith problem config evaluator memory = .ok (.ok run)) :
    ∃ done, (engine problem config.kinds evaluator (.never : StopRule Unit _ _ _)
        config.toSearchConfig).record (fun s => s.plan.totalCost problem) ⟨r, memory, ()⟩ =
          .ok done ∧
      done.state = ⟨run.roster, run.evaluator, ()⟩ ∧ done.record = run.report.record ∧
      run.roster.plan.totalCost problem = .ok run.report.cost ∧
      run.report.chosen = run.roster.plan.chosen.toList := by
  rw [optimizeWith_eq] at h
  cases hvalid : config.validate (V := V) with
  | error refusal =>
    simp only [hvalid] at h
    cases h
  | ok _ =>
    simp only [hvalid] at h
    obtain ⟨done, hdone, h⟩ := Checked.bind_ok_iff.mp h
    obtain ⟨cost, hcost, h⟩ := Checked.bind_ok_iff.mp h
    cases h
    exact ⟨done, hdone, rfl, rfl, hcost, rfl⟩

/-- What any run leaves. The report is about the last roster, and if the run has converged, the
evaluator has found no improving move of that roster. -/
theorem optimizeWith_ends (hr : r.Sound problem clients)
    (h : r.optimizeWith problem config evaluator memory = .ok (.ok run)) :
    Continues problem clients r run.roster ∧
      run.report.chosen = run.roster.plan.chosen.toList ∧
      run.roster.plan.totalCost problem = .ok run.report.cost ∧
      (run.report.record.converged = true →
        (engine problem config.kinds evaluator (.never : StopRule Unit _ _ _)
          config.toSearchConfig).Settled run.roster) := by
  obtain ⟨done, hdone, hroster, hrecord, hcost, hchosen⟩ := optimizeWith_eq_ok h
  have hstart : Continues problem clients r r := ⟨hr, fun _ => Iff.rfl⟩
  obtain ⟨hlast, hend⟩ := Engine.record_ends (I := Continues problem clients r)
    (fun _ _ hs hpass => hs.search hpass) hstart hdone
  rw [hroster] at hlast hend
  refine ⟨hlast, hchosen, hcost, fun hconverged => ?_⟩
  rw [← hrecord] at hconverged
  obtain ⟨before, pass, hbefore, hpass, hidle, hstate⟩ := hend hconverged
  obtain ⟨hsame, hsettled⟩ := Engine.search_settled (fun _ _ _ _ => rfl)
    (fun entry hentry u hu accepted s hcommit =>
      hbefore.sound.agrees.accepts hentry hu hcommit) hpass hidle
  -- The last pass left the roster alone, so what it saw is the roster that is reported.
  rw [← hsame, ← hstate] at hsettled
  exact hsettled

end Runs

section Words

variable {V : Type} [Vertex V] {bits : Nat} {problem : SitingProblem V (Signed bits)}
  {clients : List V} {config : SitingConfig} {r : Roster V (Signed bits)}
  {run : SitingRun Unit V (Signed bits)}

/-- If a run from any reachable roster has converged, the reported cost is the objective of the
reported facilities, and no legal update of an enabled kind leads to facilities with a lower
objective. The universe of facilities is the one that the run started with. -/
theorem converged_run_optimal (hr : Reachable problem clients r)
    (h : r.optimize problem config = .ok (.ok run))
    (hconverged : run.report.record.converged = true) :
    run.report.chosen = run.roster.plan.chosen.toList ∧
      problem.objective clients run.report.chosen = .ok run.report.cost.val ∧
      (∀ f, f ∈ run.roster.plan.chosen ∨ f ∈ run.roster.plan.unchosen ↔
        f ∈ r.plan.chosen ∨ f ∈ r.plan.unchosen) ∧
      ∀ u, config.kinds.allows u = true →
        u.Legal run.roster.plan.chosen run.roster.plan.unchosen →
        ∃ n, problem.objective clients (u.chosenAfter run.roster.plan.chosen).toList = .ok n ∧
          run.report.cost.val ≤ n := by
  obtain ⟨hlast, hchosen, hcost, hsettled⟩ := optimizeWith_ends hr.sound h
  have hsound := hlast.sound
  have hvalue : run.report.cost.val = run.roster.plan.value problem :=
    (Plan.totalCost_ends run.roster.plan).value hcost
  refine ⟨hchosen, ?_, hlast.facilities, fun u hk hu => ?_⟩
  · rw [hchosen, hvalue]
    exact hsound.plan.objective
  · obtain ⟨entry, hentry, hmem⟩ := hsound.agrees.exists_mem hsound.plan.disjoint hu hk
    obtain ⟨_, g, _, hscore, hno⟩ := hsettled hconverged entry hentry u hmem
    obtain ⟨saved, hsaved, hg⟩ := Checked.bind_ok_iff.mp hscore
    cases hg
    have hobjective := (hsound.saving_ends hu).value hsaved
    have hloss : g.val ≤ 0 := Signed.not_lt_iff.mp hno
    exact ⟨_, hobjective, by omega⟩

/-- A run that opens three of four sites, one after the other, and stops before the last one. -/
theorem converged_run_optimal_slope :
    ∃ (plan : Plan Int (Signed 64)) (run : SitingRun Unit Int (Signed 64)),
      Plan.build slopeSites [] [0, 1, 3, 5] [4, 2, 1, 7, 4] = .ok (.ok plan) ∧
        (ofPlan plan).optimize slopeSites { strategy := .best } = .ok (.ok run) ∧
        run.report.record.converged = true ∧ run.report.chosen = [1, 3, 5] ∧
        slopeSites.objective [4, 2, 1, 7, 4] [1, 3, 5] = .ok run.report.cost.val ∧
        ∃ n, slopeSites.objective [4, 2, 1, 7, 4] [0, 1, 3, 5] = .ok n ∧
          run.report.cost.val ≤ n := by
  have at_run : ∀ (plan : Plan Int (Signed 64)) (run : SitingRun Unit Int (Signed 64)),
      Plan.build slopeSites [] [0, 1, 3, 5] [4, 2, 1, 7, 4] = .ok (.ok plan) →
      (ofPlan plan).optimize slopeSites { strategy := .best } = .ok (.ok run) →
      run.report.record.converged = true → 0 ∈ run.roster.plan.unchosen →
      slopeSites.objective [4, 2, 1, 7, 4] run.report.chosen = .ok run.report.cost.val ∧
        ∃ n, slopeSites.objective [4, 2, 1, 7, 4] (run.roster.plan.chosen.insert 0).toList =
          .ok n ∧ run.report.cost.val ≤ n := by
    intro plan run hbuild hrun hconverged hclosed
    obtain ⟨-, hcost, -, hoptimal⟩ :=
      converged_run_optimal (.listed (.built hbuild)) hrun hconverged
    exact ⟨hcost, hoptimal (.opening 0) rfl hclosed⟩
  refine ⟨_, _, rfl, rfl, rfl, rfl, ?_⟩
  exact at_run _ _ rfl rfl rfl (by decide)

end Words

end Roster

end Descent
