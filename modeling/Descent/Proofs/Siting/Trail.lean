import Descent.Proofs.Search.Tally
import Descent.Proofs.Siting.Optimum

/-!
# Trails of siting runs

Whatever the evaluator remembers and however it scores, a search over rosters goes on from sound
rosters to sound rosters over the same facilities, and a pass that commits nothing leaves the roster
alone. So a siting run with any evaluator tells its whole story: `Sound.optimizeWith_retold`.
-/

namespace Descent

namespace Roster

variable {σ τ V D G : Type} [Vertex V] [Distance D] [Gain G] {problem : SitingProblem V D}
  {clients : List V} {kinds : MoveKinds} {r : Roster V D}
  {evaluator : Evaluator σ (Roster V D) (Facility V) (Update V) G} {memory : σ}

/-! ## Trails -/

/-- Every roster that a trail comes to continues the first one. -/
theorem Sound.trail_continues {stop : StopRule τ (Roster V D) (Facility V) (Update V)}
    {config : SearchConfig} {start last : SearchState σ τ (Roster V D)}
    {later : List (SearchState σ τ (Roster V D))} (hstart : start.solution.Sound problem clients)
    (h : (engine problem kinds evaluator stop config).Trail start later last) :
    ∀ s ∈ start :: later, Continues problem clients start.solution s.solution :=
  h.keeps (fun _ _ hs hpass _ => hs.search hpass) ⟨hstart, fun _ => Iff.rfl⟩

/-- A pass without a stop rule that commits nothing leaves a sound roster alone. -/
theorem Sound.search_idle {config : SearchConfig} {state : SearchState σ τ (Roster V D)}
    {pass : Pass σ τ (Roster V D) (Facility V) (Update V)}
    (hs : state.solution.Sound problem clients)
    (h : (engine problem kinds evaluator (.never : StopRule τ _ _ _) config).search state =
      .ok pass)
    (hidle : pass.improved = false) : pass.state.solution = state.solution :=
  (Engine.search_settled (fun _ _ _ _ => rfl)
    (fun _ hentry _ hu _ _ hcommit => hs.agrees.accepts hentry hu hcommit) h hidle).1

/-! ## Runs -/

variable {config : SitingConfig} {run : SitingRun σ V D}

/-- The report of a run from a sound roster tells its whole story. -/
theorem Sound.optimizeWith_retold (hr : r.Sound problem clients)
    (h : r.optimizeWith problem config evaluator memory = .ok (.ok run)) :
    (engine problem config.kinds evaluator (.never : StopRule Unit _ _ _)
      config.toSearchConfig).Retold (fun s => s.plan.totalCost problem) ⟨r, memory, ()⟩
        run.report.record ⟨run.roster, run.evaluator, ()⟩ run.report.cost := by
  obtain ⟨done, hdone, hstate, hrecord, hcost, -⟩ := optimizeWith_eq_ok h
  obtain ⟨value, hvalue, hretold⟩ := Engine.record_retold (fun later last pass htrail hpass hidle =>
    (hr.trail_continues htrail last htrail.last_mem).sound.search_idle hpass hidle) hdone
  rw [hstate] at hvalue hretold
  rw [hrecord] at hretold
  have hsame : Except.ok value = Except.ok run.report.cost := hvalue.symm.trans hcost
  cases hsame
  exact hretold

/-- A run answers with a report if the engine's own run ends and the cost has a value all along. -/
theorem Sound.optimizeWith_of_run (hr : r.Sound problem clients) (hkinds : config.kinds.any = true)
    (hvalues : ∀ later last, (engine problem config.kinds evaluator (.never : StopRule Unit _ _ _)
      config.toSearchConfig).Trail ⟨r, memory, ()⟩ later last →
        ∃ cost, last.solution.plan.totalCost problem = .ok cost)
    {plain : Run σ Unit (Roster V D) (Facility V) (Update V)}
    (h : (engine problem config.kinds evaluator (.never : StopRule Unit _ _ _)
      config.toSearchConfig).run ⟨r, memory, ()⟩ = .ok plain) :
    ∃ run, r.optimizeWith problem config evaluator memory = .ok (.ok run) := by
  have hvalid : config.validate (V := V) = .ok () := if_pos hkinds
  obtain ⟨done, hdone, cost, hcost⟩ := Engine.record_of_run (fun s => s.plan.totalCost problem)
    hvalues (fun later last pass htrail hpass hidle =>
      (hr.trail_continues htrail last htrail.last_mem).sound.search_idle hpass hidle) h
  rw [optimizeWith_eq]
  simp only [hvalid, hdone, Checked.ok_bind, hcost]
  exact ⟨_, rfl⟩

/-! ## Settled rosters -/

section Words

variable {bits : Nat} {problem : SitingProblem V (Signed bits)} {r : Roster V (Signed bits)}
  {evaluator : Evaluator σ (Roster V (Signed bits)) (Facility V) (Update V) G} {u : Update V}

/-- An evaluator that scores an update as one that does not improve only if it saves nothing. -/
def Faithful (problem : SitingProblem V (Signed bits))
    (evaluator : Evaluator σ (Roster V (Signed bits)) (Facility V) (Update V) G) : Prop :=
  ∀ memory r entry u score memory', evaluator.score memory r entry u = .ok (score, memory') →
    Gain.improves score = false → ∃ saved, r.saving problem u = .ok saved ∧ saved.val ≤ 0

theorem savings_faithful (problem : SitingProblem V (Signed bits)) :
    Faithful problem (savings problem) := by
  intro memory r entry u score memory' hscore hno
  obtain ⟨saved, hsaved, hsame⟩ := Checked.bind_ok_iff.mp hscore
  cases hsame
  exact ⟨score, hsaved, Signed.not_lt_iff.mp hno⟩

/-- If a faithful evaluator finds no improving move of a sound roster, then no legal update of an
enabled kind saves anything. -/
theorem Sound.saving_of_settled {stop : StopRule τ (Roster V (Signed bits)) (Facility V) (Update V)}
    {config : SearchConfig} (hr : r.Sound problem clients) (hfaithful : Faithful problem evaluator)
    (hsettled : (engine problem kinds evaluator stop config).Settled r)
    (hu : u.Legal r.plan.chosen r.plan.unchosen) (hk : kinds.allows u = true) :
    ∃ saved, r.saving problem u = .ok saved ∧ saved.val ≤ 0 := by
  obtain ⟨entry, hentry, hmem⟩ := hr.agrees.exists_mem hr.plan.disjoint hu hk
  obtain ⟨memory, score, memory', hscore, hno⟩ := hsettled entry hentry u hmem
  exact hfaithful memory r entry u score memory' hscore hno

end Words

end Roster

end Descent
