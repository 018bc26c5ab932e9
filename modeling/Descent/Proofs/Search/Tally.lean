import Descent.Proofs.Search.Return

/-!
# Counting passes

Runs from the same state make the same passes whatever they record (`recordWithin_retraced`). So a
plain run and a recorded one leave the same state behind and count the same:
`runWithin_of_recordWithin`, and, if the objective has a value all along,
`recordWithin_of_runWithin`. What a run counts is settled by its trail and its cap (`Counts`). A
recorded run whose last pass changes nothing tells its whole story: `record_retold`.
-/

namespace Descent

namespace Engine

variable {σ τ S E M G C : Type} [Gain G] {engine : Engine σ τ S E M G} {objective : S → Checked C}
  {left : Nat} {state start last : SearchState σ τ S} {record : Record C}
  {later : List (SearchState σ τ S)}

/-! ## Plain and recorded runs -/

/-- A run makes no more passes than it may. -/
theorem recordWithin_passes_le {done : Recorded σ τ S C}
    (h : engine.recordWithin objective left state record = .ok done) :
    done.record.passes ≤ record.passes + left := by
  induction left generalizing state record with
  | zero =>
    obtain ⟨-, rfl⟩ := recordWithin_zero_eq_ok h
    exact Nat.le_refl _
  | succ left ih =>
    obtain ⟨pass, -, ⟨-, rfl⟩ | ⟨-, value, -, h⟩⟩ := recordWithin_succ_eq_ok h
    · show record.passes + 1 ≤ record.passes + (left + 1)
      omega
    · have hrest : done.record.passes ≤ record.passes + 1 + left := ih h
      omega

/-- A recorded run goes the same way whatever it records, if that has a value all along. -/
theorem recordWithin_retraced {C' : Type} (objective' : S → Checked C') {done : Recorded σ τ S C}
    (hvalues : ∀ later last, engine.Trail state later last →
      ∃ value, objective' last.solution = .ok value)
    (h : engine.recordWithin objective left state record = .ok done) (record' : Record C')
    (htally : record'.tally = record.tally) :
    ∃ done', engine.recordWithin objective' left state record' = .ok done' ∧
      done'.record.tally = done.record.tally ∧ done'.state = done.state := by
  obtain ⟨later, last, hfollowed⟩ := recordWithin_followed h
  have hpasses := recordWithin_passes_le h
  have hreached : ∀ s ∈ later, ∃ value, objective' s.solution = .ok value := by
    intro s hs
    obtain ⟨before, -, hbefore⟩ := hfollowed.trail.upTo hs
    exact hvalues before s hbefore
  obtain ⟨values, hmap, -⟩ := Checked.mapM_of_forall_exists hreached
  simp only [Record.tally, Tally.mk.injEq] at htally ⊢
  obtain ⟨hsame, himproved, hconverged⟩ := htally
  rcases hfollowed.ended with ⟨hdone, hcount, pass, hpass, hidle, hstate⟩ |
    ⟨hcap, hlength, hdone, hcount, hstate⟩
  · have hsoon : later.length < left := by omega
    refine ⟨_, recordWithin_of_rests hfollowed.trail hmap hpass hidle hsoon record', ?_,
      hstate.symm⟩
    rw [hcount, hfollowed.improvements, hdone, hsame, himproved]
    exact ⟨rfl, rfl, rfl⟩
  · rw [← hlength, recordWithin_of_length hfollowed.trail hmap,
      SearchConfig.atBudget_of_capped hcap]
    refine ⟨_, rfl, ?_, hstate.symm⟩
    rw [hcount, hfollowed.improvements, hdone, hsame, himproved, hconverged]
    exact ⟨rfl, rfl, rfl⟩

/-- A plain run ends just where a recorded one does that has nothing to record. -/
theorem runWithin_eq_ok_iff {record : Record Unit} {tally : Tally}
    (hcount : engine.config.Counted record.passes left) :
    (∃ run, engine.runWithin left state record.tally = .ok run ∧ run.tally = tally ∧
        run.state = last) ↔
      ∃ done, engine.recordWithin (fun _ => .ok ()) left state record = .ok done ∧
        done.record.tally = tally ∧ done.state = last := by
  have hplain := Checked.map_eq_ok_iff (f := fun run => (run.tally, run.state)) (b := (tally, last))
    (x := engine.runWithin left state record.tally)
  rw [map_runWithin _ _ hcount, Checked.map_eq_ok_iff] at hplain
  simpa only [Prod.mk.injEq] using hplain.symm

/-- Where a recorded run ends, a plain one ends as well, in the same state and with the same
counts. -/
theorem runWithin_of_recordWithin {done : Recorded σ τ S C}
    (hcount : engine.config.Counted record.passes left)
    (h : engine.recordWithin objective left state record = .ok done) :
    ∃ run, engine.runWithin left state record.tally = .ok run ∧ run.tally = done.record.tally ∧
      run.state = done.state := by
  obtain ⟨silent, hsilent, htally, hstate⟩ := recordWithin_retraced (fun _ => .ok ())
    (fun _ _ _ => ⟨(), rfl⟩) h ⟨record.passes, record.improvements, record.converged, []⟩ rfl
  exact (runWithin_eq_ok_iff hcount).mpr ⟨silent, hsilent, htally, hstate⟩

/-- Where a plain run ends, a recorded one does too if every trail leads to a solution whose
objective has a value. -/
theorem recordWithin_of_runWithin {run : Run σ τ S E M} (objective : S → Checked C)
    (hvalues : ∀ later last, engine.Trail state later last →
      ∃ value, objective last.solution = .ok value)
    (record : Record C) (hcount : engine.config.Counted record.passes left)
    (h : engine.runWithin left state record.tally = .ok run) :
    ∃ done, engine.recordWithin objective left state record = .ok done := by
  let silent : Record Unit := ⟨record.passes, record.improvements, record.converged, []⟩
  have hplain : engine.runWithin left state silent.tally = .ok run := h
  obtain ⟨_, hsilent, -⟩ := (runWithin_eq_ok_iff hcount).mp ⟨run, hplain, rfl, rfl⟩
  obtain ⟨done, hdone, -⟩ := recordWithin_retraced objective hvalues hsilent record rfl
  exact ⟨done, hdone⟩

/-! ## What is counted -/

/-- What a run from a state counts. All its passes but the last one of a converged run committed a
move. It stays within its cap, and has not converged exactly if it has a cap and all the passes that
the cap allows commit a move. -/
structure Counts (engine : Engine σ τ S E M G) (start : SearchState σ τ S) (tally : Tally) :
    Prop where
  iterations : tally.iterations = tally.improvements + if tally.converged then 1 else 0
  le_cap : engine.config.cap ≠ 0 → tally.iterations ≤ engine.config.cap
  not_converged_iff : tally.converged = false ↔ engine.config.cap ≠ 0 ∧
    ∃ later last, engine.Trail start later last ∧ later.length = engine.config.cap

theorem Followed.counts {done : Recorded σ τ S C} {history : List C}
    (h : engine.Followed objective engine.config.budget start ⟨0, 0, false, history⟩ done later
      last)
    (hpasses : done.record.passes ≤ engine.config.budget) :
    engine.Counts start done.record.tally := by
  have himprovements : done.record.improvements = later.length := by
    simpa using h.improvements
  have hcapped (hcap : engine.config.cap ≠ 0) : done.record.passes ≤ engine.config.cap := by
    rwa [SearchConfig.budget_of_capped hcap] at hpasses
  rcases h.ended with ⟨hconverged, hcount, -⟩ | ⟨hcap, hlength, hconverged, hcount, -⟩
  · have hcount' : done.record.passes = later.length + 1 := by simpa using hcount
    refine ⟨?_, hcapped, ?_⟩
    · simp only [Record.tally, hconverged, if_true]
      omega
    · simp only [Record.tally, hconverged, Bool.true_eq_false, false_iff]
      rintro ⟨hcap, first, middle, hfirst, hlength⟩
      -- A trail of that length would be a part of the one that the run has made.
      have hinitial := h.trail.isPrefix_of_rests (h.rests rfl hconverged) hfirst
      have hshort := hinitial.length_le
      have hle := hcapped hcap
      omega
  · have hcount' : done.record.passes = later.length := by simpa using hcount
    have hconverged' : done.record.converged = false := hconverged
    rw [SearchConfig.budget_of_capped hcap] at hlength
    refine ⟨?_, hcapped, ?_⟩
    · simp only [Record.tally, hconverged', Bool.false_eq_true, if_false]
      omega
    · simp only [Record.tally, hconverged', true_iff]
      exact ⟨hcap, later, last, h.trail, hlength⟩

/-- What a plain run counts. -/
theorem run_counts {run : Run σ τ S E M} (h : engine.run start = .ok run) :
    engine.Counts start run.tally := by
  obtain ⟨done, hdone⟩ := recordWithin_of_runWithin (fun _ => .ok ())
    (fun _ _ _ => ⟨(), rfl⟩) ⟨0, 0, false, []⟩ (SearchConfig.counted_budget _) h
  obtain ⟨run', hrun', htally, -⟩ :=
    runWithin_of_recordWithin (SearchConfig.counted_budget _) hdone
  obtain ⟨later, last, hfollowed⟩ := recordWithin_followed hdone
  have hpasses := recordWithin_passes_le hdone
  rw [Nat.zero_add] at hpasses
  have hsame : Except.ok run = Except.ok run' := h.symm.trans hrun'
  cases hsame
  rw [htally]
  exact hfollowed.counts hpasses

/-! ## The whole story -/

/-- What the record of a run tells. The run has left the state and counted the passes of a plain run
of the engine. Its history has one entry more than there were moves, the one at each place is the
objective after as many moves, and the last one is the value that is reported. -/
structure Retold (engine : Engine σ τ S E M G) (objective : S → Checked C)
    (start : SearchState σ τ S) (record : Record C) (final : SearchState σ τ S) (value : C) :
    Prop where
  plain : ∃ run, engine.run start = .ok run ∧ run.tally = record.tally ∧ run.state = final
  counts : engine.Counts start record.tally
  length : record.history.length = record.improvements + 1
  entries : ∃ later last, engine.Trail start later last ∧ later.length = record.improvements ∧
    last.solution = final.solution ∧
    ∀ (t : Nat) (state : SearchState σ τ S), (start :: later)[t]? = some state →
      ∃ entry, record.history[t]? = some entry ∧ objective state.solution = .ok entry
  reported : record.history.getLast? = some value

/-- The history of a recorded run has the objectives along its trail. -/
theorem Followed.history_map {done : Recorded σ τ S C} {first : C}
    (h : engine.Followed objective left start ⟨0, 0, false, [first]⟩ done later last)
    (hfirst : objective start.solution = .ok first) :
    done.record.history.map Except.ok = (start :: later).map fun s => objective s.solution := by
  obtain ⟨values, hvalues, hhistory⟩ := h.history
  rw [hhistory, List.singleton_append, List.map_cons, List.map_cons, hfirst,
    Checked.map_ok_of_mapM hvalues]

/-- A recorded run tells its whole story, if passes that commit nothing change nothing. -/
theorem record_retold {done : Recorded σ τ S C}
    (idle : ∀ later last pass, engine.Trail start later last → engine.search last = .ok pass →
      pass.improved = false → pass.state.solution = last.solution)
    (h : engine.record objective start = .ok done) :
    ∃ value, objective done.state.solution = .ok value ∧
      engine.Retold objective start done.record done.state value := by
  unfold record at h
  obtain ⟨first, hfirst, hdone⟩ := Checked.bind_ok_iff.mp h
  obtain ⟨later, last, hfollowed⟩ := recordWithin_followed hdone
  have hfinal := hfollowed.solution_eq fun pass hpass hidle =>
    idle later last pass hfollowed.trail hpass hidle
  have hmap := hfollowed.history_map hfirst
  have himprovements : done.record.improvements = later.length := by
    simpa using hfollowed.improvements
  have hpasses := recordWithin_passes_le hdone
  rw [Nat.zero_add] at hpasses
  -- The last entry is the objective of the last state.
  have hlast : done.record.history.getLast?.map Except.ok = some (objective last.solution) := by
    rw [← List.getLast?_map, hmap, List.getLast?_map, hfollowed.trail.getLast?_eq]
    rfl
  obtain ⟨value, hvalue, hobjective⟩ := Option.map_eq_some_iff.mp hlast
  refine ⟨value, hfinal ▸ hobjective.symm,
    runWithin_of_recordWithin (SearchConfig.counted_budget _) hdone, hfollowed.counts hpasses, ?_,
    ⟨later, last, hfollowed.trail, himprovements.symm, hfinal.symm,
      fun t state hstate => ?_⟩, hvalue⟩
  · have hlength := congrArg List.length hmap
    simp only [List.length_map, List.length_cons] at hlength
    omega
  · have hentry := congrArg (·[t]?) hmap
    simp only [List.getElem?_map, hstate, Option.map_some] at hentry
    obtain ⟨entry, hentry, hvalue⟩ := Option.map_eq_some_iff.mp hentry
    exact ⟨entry, hentry, hvalue.symm⟩

/-- The history, entry by entry beside the states of the trail. -/
theorem Retold.along {final : SearchState σ τ S} {value : C}
    (h : engine.Retold objective start record final value) :
    ∃ later last, engine.Trail start later last ∧ last.solution = final.solution ∧
      List.Forall₂ (fun s entry => objective s.solution = .ok entry) (start :: later)
        record.history := by
  obtain ⟨later, last, htrail, hmoves, hlast, hentries⟩ := h.entries
  refine ⟨later, last, htrail, hlast, List.forall₂_iff_get.mpr ⟨?_, ?_⟩⟩
  · rw [List.length_cons, hmoves, h.length]
  · intro t ht ht'
    obtain ⟨entry, hentry, hvalue⟩ := hentries t _ (List.getElem?_eq_getElem ht)
    obtain ⟨_, hsame⟩ := List.getElem?_eq_some_iff.mp hentry
    rw [List.get_eq_getElem, List.get_eq_getElem, hsame]
    exact hvalue

/-- A recorded run ends if the plain one does and every trail leads to a solution whose objective
has a value. It then ends in such a solution, if passes that commit nothing change nothing. -/
theorem record_of_run (objective : S → Checked C)
    (hvalues : ∀ later last, engine.Trail start later last →
      ∃ value, objective last.solution = .ok value)
    (idle : ∀ later last pass, engine.Trail start later last → engine.search last = .ok pass →
      pass.improved = false → pass.state.solution = last.solution)
    {run : Run σ τ S E M} (h : engine.run start = .ok run) :
    ∃ done, engine.record objective start = .ok done ∧
      ∃ value, objective done.state.solution = .ok value := by
  obtain ⟨first, hfirst⟩ := hvalues _ _ .stay
  obtain ⟨done, hdone⟩ := recordWithin_of_runWithin objective hvalues ⟨0, 0, false, [first]⟩
    (SearchConfig.counted_budget _) h
  have hrecord : engine.record objective start = .ok done := by
    unfold record
    rw [hfirst, Checked.ok_bind, hdone]
  obtain ⟨value, hvalue, -⟩ := record_retold idle hrecord
  exact ⟨done, hrecord, value, hvalue⟩

end Engine

end Descent
