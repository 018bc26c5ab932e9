import Descent.Proofs.Siting.Optimum
import Descent.Proofs.Siting.Progress

/-!
# Plain descent ends

A search that scores updates by what they save lowers the cost at every pass that commits one, by
exactly that saving. The cost is the objective of the open facilities, so no set of open
facilities comes back, and there are only as many such sets as the universe has subsets. An
uncapped run therefore ends, and this bound does not depend on the word that counts its passes.
-/

namespace Descent

open Checked (Ends)

/-! ## Sets of some vertices -/

/-- Different sets of vertices of a list are at most as many as the list has subsets. -/
theorem AscendingSet.length_le_two_pow {V : Type} [Vertex V] {vertices : List V}
    {sets : List (AscendingSet V)} (hsets : sets.Nodup)
    (hsub : ∀ s ∈ sets, ∀ f ∈ s, f ∈ vertices) : sets.length ≤ 2 ^ vertices.length := by
  have hinj : Function.Injective fun s : AscendingSet V => s.toList.toFinset := by
    intro s s' h
    refine AscendingSet.ext_mem fun f => ?_
    have hmem := Finset.ext_iff.mp h f
    rwa [List.mem_toFinset, List.mem_toFinset] at hmem
  have hsubset : (sets.map fun s => s.toList.toFinset).toFinset ⊆
      vertices.toFinset.powerset := by
    intro x hx
    obtain ⟨s, hs, rfl⟩ := List.mem_map.mp (List.mem_toFinset.mp hx)
    refine Finset.mem_powerset.mpr fun f hf => ?_
    exact List.mem_toFinset.mpr (hsub s hs f (List.mem_toFinset.mp hf))
  calc sets.length = (sets.map fun s => s.toList.toFinset).length := by rw [List.length_map]
    _ = (sets.map fun s => s.toList.toFinset).toFinset.card :=
      (List.toFinset_card_of_nodup (hsets.map hinj)).symm
    _ ≤ vertices.toFinset.powerset.card := Finset.card_le_card hsubset
    _ = 2 ^ vertices.toFinset.card := Finset.card_powerset _
    _ ≤ 2 ^ vertices.length := Nat.pow_le_pow_right (by decide) (List.toFinset_card_le _)

namespace Roster

variable {τ V : Type} [Vertex V] {bits : Nat} {problem : SitingProblem V (Signed bits)}
  {clients : List V} {kinds : MoveKinds} {r s : Roster V (Signed bits)} {u : Update V}
  {stop : StopRule τ (Roster V (Signed bits)) (Facility V) (Update V)} {config : SearchConfig}
  {t : τ}

/-! ## One pass -/

/-- A legal update is committed. -/
theorem Sound.commit_ends (hr : r.Sound problem clients)
    (hu : u.Legal r.plan.chosen r.plan.unchosen) :
    Ends (r.commit problem u) (fun x => x.1 = true) problem.toSpace.MayOverflow := by
  refine ((hr.apply_mayFail hu).weaken SitingProblem.mayOverflow_of_mayFail).bind
    fun b _ hmade => ?_
  obtain ⟨change, houtcome⟩ := hmade
  simp only [houtcome]
  trivial

/-- What the cost loses by an update that was committed is what it was said to save. -/
theorem Sound.value_of_commit (hr : r.Sound problem clients)
    (hu : u.Legal r.plan.chosen r.plan.unchosen) {gain : Signed bits}
    (hsaving : r.saving problem u = .ok gain) (hcommit : r.commit problem u = .ok (true, s)) :
    (∃ change, r.apply problem u = .ok ⟨.ok change, s⟩) ∧
      s.plan.value problem = r.plan.value problem - gain.val := by
  obtain ⟨b, hb, rfl, -⟩ := commit_eq_ok hcommit
  have hs := (hr.apply hb).plan.objective
  obtain ⟨change, plan, hplan, rfl⟩ := apply_of_legal hr.agrees hu hb
  obtain ⟨-, -, hupdated⟩ := Plan.apply_of_legal hu hplan
  have hchosen : plan.chosen = u.chosenAfter r.plan.chosen := hupdated.chosen_eq
  refine ⟨⟨change, hb⟩, ?_⟩
  -- Both are the objective of the facilities that are open after the update.
  have hsaved := (hr.saving_ends hu).value hsaving
  change problem.objective clients plan.chosen.toList = _ at hs
  rw [hchosen, hsaved, Except.ok.injEq] at hs
  exact hs.symm

/-- Every pass over a sound roster that scores updates by what they save ends. -/
theorem Sound.responsive (hr : r.Sound problem clients) :
    (engine problem kinds (savings problem) stop config).Responsive problem.toSpace.MayOverflow
      r where
  scored entry hentry u hu memory := by
    have hlegal := (hr.agrees.legal_of_mem hentry hu).1
    exact (hr.saving_ends hlegal).bind fun _ _ _ => trivial
  committed entry hentry u hu := by
    have hlegal := (hr.agrees.legal_of_mem hentry hu).1
    refine (hr.commit_ends hlegal).mono fun x _ haccepted hrejected => ?_
    rw [haccepted] at hrejected
    cases hrejected
  noticed _ _ _ _ := trivial

/-- A pass lowered the cost, by exactly what the update that it committed was said to save. -/
structure Lowered (problem : SitingProblem V (Signed bits)) (r : Roster V (Signed bits))
    (pass : Pass Unit τ (Roster V (Signed bits)) (Facility V) (Update V)) (entry : Facility V)
    (u : Update V) (gain : Signed bits) : Prop where
  committed : .committed entry u true ∈ pass.events
  saving : r.saving problem u = .ok gain
  positive : 0 < gain.val
  made : ∃ change, r.apply problem u = .ok ⟨.ok change, pass.state.solution⟩
  value : pass.state.solution.plan.value problem = r.plan.value problem - gain.val

/-- A pass that commits an update lowers the cost, and one that commits none changes nothing. -/
theorem Sound.search_ends (state : SearchState Unit τ (Roster V (Signed bits)))
    (hs : state.solution.Sound problem clients) :
    Ends ((engine problem kinds (savings problem) stop config).search state)
      (fun pass => (pass.improved = false → pass.state.solution = state.solution) ∧
        (pass.improved = true →
          ∃ entry u gain, Lowered problem state.solution pass entry u gain))
      problem.toSpace.MayOverflow := by
  refine hs.responsive.search_ends.mono fun pass _ hpass => ?_
  cases hpass with
  | idle hidle hsame =>
    rw [hidle]
    exact ⟨fun _ => hsame, fun h => by cases h⟩
  | @moved entry u gain hmoved hentry hu himproving hcommit hevent =>
    rw [hmoved]
    refine ⟨fun h => (by cases h), fun _ => ⟨entry, u, gain, ?_⟩⟩
    obtain ⟨_, _, hscore, himproves⟩ := himproving
    obtain ⟨saved, hsaving, hsaved⟩ := Checked.bind_ok_iff.mp hscore
    cases hsaved
    have hlegal := (hs.agrees.legal_of_mem hentry hu).1
    obtain ⟨hmade, hvalue⟩ := hs.value_of_commit hlegal hsaving hcommit
    exact ⟨hevent, hsaving, Signed.lt_iff.mp himproves, hmade, hvalue⟩

/-! ## Trails -/

/-- Rosters of which each one costs less than the one before. Each costs what its open facilities
cost from scratch, and no set of open facilities comes twice. So the rosters after the first are
fewer than the sets of facilities, of which a roster lists each once. -/
structure Descends (problem : SitingProblem V (Signed bits)) (clients : List V)
    (r : Roster V (Signed bits)) (rosters : List (Roster V (Signed bits))) : Prop where
  objective : ∀ s ∈ r :: rosters,
    problem.objective clients s.plan.chosen.toList = .ok (s.plan.value problem)
  lower : (r :: rosters).Pairwise fun a b => b.plan.value problem < a.plan.value problem
  distinct : ((r :: rosters).map fun s => s.plan.chosen).Nodup
  count : rosters.length ≤ 2 ^ r.facilities.length - 1

/-- Rosters of which each one costs less than the one before descend, if a run goes over them. -/
theorem Descends.of_lower {rosters : List (Roster V (Signed bits))}
    (hall : ∀ s ∈ r :: rosters, Continues problem clients r s)
    (hlower : (r :: rosters).Pairwise fun a b => b.plan.value problem < a.plan.value problem) :
    Descends problem clients r rosters := by
  have hobjective : ∀ s ∈ r :: rosters,
      problem.objective clients s.plan.chosen.toList = .ok (s.plan.value problem) :=
    fun s hs => (hall s hs).sound.plan.objective
  have hdistinct : ((r :: rosters).map fun s => s.plan.chosen).Nodup := by
    refine List.pairwise_map.mpr (hlower.imp_of_mem fun ha hb hlt hsame => ?_)
    -- Equal sets of open facilities would cost the same.
    have hcost := hobjective _ hb
    rw [← hsame, hobjective _ ha, Except.ok.injEq] at hcost
    omega
  have hlisted : ∀ chosen ∈ (r :: rosters).map fun s => s.plan.chosen, ∀ f ∈ chosen,
      f ∈ r.facilities.map Facility.vertex := by
    intro chosen hchosen f hf
    obtain ⟨s, hs, rfl⟩ := List.mem_map.mp hchosen
    have hr := (hall r (List.mem_cons_self ..)).sound
    rw [hr.agrees.listed]
    exact ((hall s hs).facilities f).mp (.inl hf)
  have hcount := AscendingSet.length_le_two_pow hdistinct hlisted
  simp only [List.length_map, List.length_cons] at hcount
  exact ⟨hobjective, hlower, hdistinct, by omega⟩

/-- The rosters along a trail continue the first one, and they descend. -/
theorem Sound.trail_descends (start : SearchState Unit τ (Roster V (Signed bits)))
    {last : SearchState Unit τ (Roster V (Signed bits))}
    {later : List (SearchState Unit τ (Roster V (Signed bits)))}
    (hstart : start.solution.Sound problem clients)
    (h : (engine problem kinds (savings problem) stop config).Trail start later last) :
    (∀ s ∈ start :: later, Continues problem clients start.solution s.solution) ∧
      Descends problem clients start.solution (later.map SearchState.solution) := by
  have hfirst : Continues problem clients start.solution start.solution :=
    ⟨hstart, fun _ => Iff.rfl⟩
  have hcontinues := h.keeps (fun _ _ hs hpass _ => hs.search hpass) hfirst
  have hlower := h.pairwise (I := Continues problem clients start.solution)
    (R := fun a b => b.plan.value problem < a.plan.value problem)
    (fun _ _ _ hab hbc => Int.lt_trans hbc hab)
    (fun state pass hstate hpass himproved => by
      obtain ⟨entry, u, gain, hlowered⟩ :=
        ((hstate.sound.search_ends state).value hpass).2 himproved
      have hpositive := hlowered.positive
      have hvalue := hlowered.value
      exact ⟨hstate.search hpass, by omega⟩) hfirst
  refine ⟨hcontinues, .of_lower ?_ ?_⟩
  · rw [← List.map_cons]
    exact List.forall_mem_map.mpr hcontinues
  · rw [← List.map_cons]
    exact List.pairwise_map.mpr hlower

/-! ## Runs -/

/-- How a run from a state ended: some passes each committed an update, which led from roster to
roster down to the final one, and one more pass committed none. -/
structure Finished (problem : SitingProblem V (Signed bits)) (clients : List V)
    (engine : Engine Unit τ (Roster V (Signed bits)) (Facility V) (Update V) (Signed bits))
    (start : SearchState Unit τ (Roster V (Signed bits))) (tally : Tally)
    (final : Roster V (Signed bits)) (rosters : List (Roster V (Signed bits))) : Prop where
  trail : ∃ later last, engine.Trail start later last ∧
    rosters = later.map SearchState.solution ∧ final = last.solution
  descends : Descends problem clients start.solution rosters
  tally_eq : tally = ⟨rosters.length + 1, rosters.length, true⟩

/-- A recorded run from a sound roster ends if its objective does, unless there is an overflow or
the metric faults. -/
theorem Sound.recordWithin_mayOverflow {C : Type} (objective : Roster V (Signed bits) → Checked C)
    (left : Nat) (start : SearchState Unit τ (Roster V (Signed bits))) (record : Record C)
    (hstart : start.solution.Sound problem clients)
    (hobjective : ∀ s, Ends (objective s) (fun _ => True) problem.toSpace.MayOverflow) :
    Ends ((engine problem kinds (savings problem) stop config).recordWithin objective left start
        record) (fun _ => True) problem.toSpace.MayOverflow := by
  refine Engine.recordWithin_ends_of_search (I := Continues problem clients start.solution)
    (Space.mayOverflow_of_overflow _ ⟨.add, rfl⟩) (fun state hs => ?_)
    (fun s _ => hobjective s) ⟨hstart, fun _ => Iff.rfl⟩
  exact (hs.sound.search_ends state).mono fun pass hpass _ => hs.search hpass

/-- An uncapped run from a sound roster finishes. -/
theorem Sound.recordWithin_ends {C : Type} (objective : Roster V (Signed bits) → Checked C)
    (left : Nat) (start : SearchState Unit τ (Roster V (Signed bits))) (history : List C)
    (hstart : start.solution.Sound problem clients) (hcap : config.cap = 0)
    (hobjective : ∀ s, Ends (objective s) (fun _ => True) problem.toSpace.MayOverflow) :
    Ends ((engine problem kinds (savings problem) stop config).recordWithin objective left start
        ⟨0, 0, false, history⟩)
      (fun done => ∃ rosters, Finished problem clients
          (engine problem kinds (savings problem) stop config) start done.record.tally
          done.state.solution rosters ∧
        ∃ values, rosters.mapM objective = .ok values ∧ done.record.history = history ++ values)
      problem.toSpace.MayOverflow := by
  refine (Sound.recordWithin_mayOverflow objective left start _ hstart hobjective).mono
    fun done hdone _ => ?_
  obtain ⟨later, last, hfollowed⟩ := Engine.recordWithin_followed hdone
  obtain ⟨hcontinues, hdescends⟩ := hstart.trail_descends start hfollowed.trail
  have hlast := hcontinues last hfollowed.trail.last_mem
  have hfinal := hfollowed.solution_eq fun _ hpass hidle =>
    ((hlast.sound.search_ends last).value hpass).1 hidle
  obtain ⟨htrail, ⟨values, hvalues, hhistory⟩, himprovements, hended⟩ := hfollowed
  rcases hended with ⟨hconverged, hpasses, -⟩ | ⟨hcapped, -⟩
  · refine ⟨later.map SearchState.solution,
      ⟨⟨later, last, htrail, rfl, hfinal⟩, hdescends, ?_⟩, values, ?_, hhistory⟩
    · unfold Record.tally
      rw [hpasses, himprovements, hconverged, List.length_map]
      simp
    · rw [List.mapM_map]
      exact hvalues
  · exact absurd hcap hcapped

theorem totalCost_ends_mayOverflow (s : Roster V (Signed bits)) :
    Ends (s.plan.totalCost problem) (fun cost => cost.val = s.plan.value problem)
      problem.toSpace.MayOverflow :=
  (Plan.totalCost_ends s.plan).weaken Space.mayOverflow_of_overflow

/-- The history of an uncapped run that records the cost has the costs along its trail. -/
theorem Sound.record_ends (start : SearchState Unit τ (Roster V (Signed bits)))
    (hstart : start.solution.Sound problem clients) (hcap : config.cap = 0) :
    Ends ((engine problem kinds (savings problem) stop config).record
        (fun s => s.plan.totalCost problem) start)
      (fun done => ∃ rosters, Finished problem clients
          (engine problem kinds (savings problem) stop config) start done.record.tally
          done.state.solution rosters ∧
        done.record.history.map Signed.val =
          (start.solution :: rosters).map fun s => s.plan.value problem)
      problem.toSpace.MayOverflow := by
  unfold Engine.record
  refine (totalCost_ends_mayOverflow _).bind fun cost _ hcost => ?_
  refine (Sound.recordWithin_ends _ _ start [cost] hstart hcap fun s => ?_).mono
    fun done _ hdone => ?_
  · exact (totalCost_ends_mayOverflow s).mono fun _ _ _ => trivial
  obtain ⟨rosters, hfinished, values, hvalues, hhistory⟩ := hdone
  refine ⟨rosters, hfinished, ?_⟩
  have hlater : values.map Signed.val = rosters.map fun s => s.plan.value problem :=
    Checked.map_of_mapM (fun s _ _ h => (totalCost_ends_mayOverflow s).value h) hvalues
  rw [hhistory, List.singleton_append, List.map_cons, List.map_cons, hcost, hlater]

/-- A siting run that scores updates by what they save answers with a report, capped or not. -/
theorem Sound.optimize_answers {config : SitingConfig} (hr : r.Sound problem clients)
    (hkinds : config.kinds.any = true) :
    Ends (r.optimize problem config) (fun answer => ∃ run, answer = .ok run)
      problem.toSpace.MayOverflow := by
  have hvalid : config.validate (V := V) = .ok () := if_pos hkinds
  have hcost (s : Roster V (Signed bits)) : Ends (s.plan.totalCost problem) (fun _ => True)
      problem.toSpace.MayOverflow := (totalCost_ends_mayOverflow s).mono fun _ _ _ => trivial
  have hrecord : Ends ((engine problem config.kinds (savings problem) (.never : StopRule Unit _ _ _)
      config.toSearchConfig).record (fun s => s.plan.totalCost problem) ⟨r, (), ()⟩)
      (fun _ => True) problem.toSpace.MayOverflow :=
    (hcost r).bind fun _ _ _ => Sound.recordWithin_mayOverflow _ _ ⟨r, (), ()⟩ _ hr hcost
  rw [optimize, optimizeWith_eq]
  simp only [hvalid]
  exact hrecord.bind fun done _ _ => (hcost _).bind fun cost _ _ => ⟨_, rfl⟩

/-- An uncapped siting run finishes. -/
theorem Sound.optimize_ends {config : SitingConfig} (hr : r.Sound problem clients)
    (hcap : config.cap = 0) (hkinds : config.kinds.any = true) :
    Ends (r.optimize problem config)
      (fun answer => ∃ run rosters, answer = .ok run ∧
        Finished problem clients
          (engine problem config.kinds (savings problem) (.never : StopRule Unit _ _ _)
            config.toSearchConfig)
          ⟨r, (), ()⟩ run.report.record.tally run.roster rosters ∧
        run.report.record.history.map Signed.val =
          (r :: rosters).map fun s => s.plan.value problem)
      problem.toSpace.MayOverflow := by
  have hvalid : config.validate (V := V) = .ok () := if_pos hkinds
  rw [optimize, optimizeWith_eq]
  simp only [hvalid]
  refine (Sound.record_ends ⟨r, (), ()⟩ hr hcap).bind fun done _ hdone => ?_
  obtain ⟨rosters, hfinished, hhistory⟩ := hdone
  refine (totalCost_ends_mayOverflow done.state.solution).bind fun cost _ _ => ?_
  exact ⟨_, rosters, rfl, hfinished, hhistory⟩

/-- Plain descent from any reachable roster, with any strategy, kinds of updates and stop rule. A
pass that commits an update lowers the cost by exactly its positive saving, and one that commits
none changes nothing. However many passes follow each other, the cost falls from each to the next,
no set of open facilities comes twice, and fewer updates are committed than there are sets of
facilities. Uncapped runs end so, unless an operation overflows or the metric faults, and the
history of a siting run is that of the falling costs. -/
theorem plain_descent_terminates (hr : Reachable problem clients r) (config : SitingConfig)
    (stop : StopRule τ (Roster V (Signed bits)) (Facility V) (Update V)) (t : τ) :
    let engine := engine problem config.kinds (savings problem) stop config.toSearchConfig
    Ends (engine.search ⟨r, (), t⟩)
        (fun pass => (pass.improved = false → pass.state.solution = r) ∧
          (pass.improved = true → ∃ entry u gain, Lowered problem r pass entry u gain ∧
            ∀ before after, r.plan.totalCost problem = .ok before →
              pass.state.solution.plan.totalCost problem = .ok after →
              after.val = before.val - gain.val))
        problem.toSpace.MayOverflow ∧
      (∀ later last, engine.Trail ⟨r, (), t⟩ later last →
        Descends problem clients r (later.map SearchState.solution)) ∧
      (config.cap = 0 →
        Ends (engine.run ⟨r, (), t⟩)
          (fun run => ∃ rosters, Finished problem clients engine ⟨r, (), t⟩ run.tally
            run.state.solution rosters)
          problem.toSpace.MayOverflow) ∧
      (config.cap = 0 → config.kinds.any = true →
        Ends (r.optimize problem config)
          (fun answer => ∃ run rosters, answer = .ok run ∧
            Finished problem clients
              (Roster.engine problem config.kinds (savings problem)
                (.never : StopRule Unit _ _ _) config.toSearchConfig)
              ⟨r, (), ()⟩ run.report.record.tally run.roster rosters ∧
            run.report.record.history.map Signed.val =
              (r :: rosters).map (fun s => s.plan.value problem) ∧
            run.report.record.history.Pairwise fun a b => b.val < a.val)
          problem.toSpace.MayOverflow) := by
  intro engine
  have hsound := hr.sound
  refine ⟨?_, fun later last htrail => ?_, fun hcap => ?_, fun hcap hkinds => ?_⟩
  · refine (Sound.search_ends ⟨r, (), t⟩ hsound).mono fun pass _ hpass => ?_
    obtain ⟨hidle, hmoved⟩ := hpass
    refine ⟨hidle, fun himproved => ?_⟩
    obtain ⟨entry, u, gain, hlowered⟩ := hmoved himproved
    refine ⟨entry, u, gain, hlowered, fun before after hbefore hafter => ?_⟩
    rw [(Plan.totalCost_ends _).value hafter, (Plan.totalCost_ends _).value hbefore]
    exact hlowered.value
  · exact (Sound.trail_descends ⟨r, (), t⟩ hsound htrail).2
  · refine Engine.run_ends_of_record (P := fun tally state => ∃ rosters,
      Finished problem clients engine ⟨r, (), t⟩ tally state.solution rosters) ?_
    refine (Sound.recordWithin_ends (fun _ => .ok ()) _ ⟨r, (), t⟩ [] hsound hcap
      fun _ => trivial).mono fun done _ hdone => ?_
    obtain ⟨rosters, hfinished, -⟩ := hdone
    exact ⟨rosters, hfinished⟩
  · refine (hsound.optimize_ends hcap hkinds).mono fun answer _ hanswer => ?_
    obtain ⟨run, rosters, hanswer, hfinished, hhistory⟩ := hanswer
    refine ⟨run, rosters, hanswer, hfinished, hhistory, ?_⟩
    have hfalling : (run.report.record.history.map Signed.val).Pairwise fun a b => b < a := by
      rw [hhistory]
      exact List.pairwise_map.mpr hfinished.descends.lower
    exact List.pairwise_map.mp hfalling

/-- A run over four sites that commits six updates on its way from no open site to three. -/
theorem plain_descent_terminates_slope :
    ∃ (plan : Plan Int (Signed 64)) (pass : Pass Unit Unit _ _ _) (plain : Run Unit Unit _ _ _)
      (run : SitingRun Unit Int (Signed 64)),
      Plan.build slopeSites [] [0, 1, 3, 5] [4, 2, 1, 7, 4] = .ok (.ok plan) ∧
        (engine slopeSites .all (savings slopeSites) (.never : StopRule Unit _ _ _)
          { strategy := .best }).search ⟨ofPlan plan, (), ()⟩ = .ok pass ∧
        pass.improved = true ∧
        (engine slopeSites .all (savings slopeSites) (.never : StopRule Unit _ _ _)
          { strategy := .best }).run ⟨ofPlan plan, (), ()⟩ = .ok plain ∧
        (ofPlan plan).optimize slopeSites { strategy := .best } = .ok (.ok run) ∧
        run.report.record.improvements = 6 ∧
        (∃ entry u gain, Lowered slopeSites (ofPlan plan) pass entry u gain) ∧
        Descends slopeSites [4, 2, 1, 7, 4] (ofPlan plan) [pass.state.solution] ∧
        plain.tally.converged = true ∧
        run.report.record.history.Pairwise fun a b => b.val < a.val := by
  have at_run : ∀ (plan : Plan Int (Signed 64)) (pass : Pass Unit Unit _ _ _)
      (plain : Run Unit Unit _ _ _) (run : SitingRun Unit Int (Signed 64)),
      Plan.build slopeSites [] [0, 1, 3, 5] [4, 2, 1, 7, 4] = .ok (.ok plan) →
      (engine slopeSites .all (savings slopeSites) (.never : StopRule Unit _ _ _)
        { strategy := .best }).search ⟨ofPlan plan, (), ()⟩ = .ok pass →
      pass.improved = true →
      (engine slopeSites .all (savings slopeSites) (.never : StopRule Unit _ _ _)
        { strategy := .best }).run ⟨ofPlan plan, (), ()⟩ = .ok plain →
      (ofPlan plan).optimize slopeSites { strategy := .best } = .ok (.ok run) →
      (∃ entry u gain, Lowered slopeSites (ofPlan plan) pass entry u gain) ∧
        Descends slopeSites [4, 2, 1, 7, 4] (ofPlan plan) [pass.state.solution] ∧
        plain.tally.converged = true ∧
        run.report.record.history.Pairwise fun a b => b.val < a.val := by
    intro plan pass plain run hbuild hpass himproved hplain hrun
    obtain ⟨hsearch, htrail, hends, hoptimize⟩ := plain_descent_terminates
      (.listed (.built hbuild)) { strategy := .best } (.never : StopRule Unit _ _ _) ()
    obtain ⟨entry, u, gain, hlowered, -⟩ := (hsearch.value hpass).2 himproved
    obtain ⟨rosters, hfinished⟩ := (hends rfl).value hplain
    obtain ⟨_, _, hsame, -, -, hfalling⟩ := (hoptimize rfl rfl).value hrun
    cases hsame
    refine ⟨⟨entry, u, gain, hlowered⟩, htrail _ _ (.pass hpass himproved .stay), ?_, hfalling⟩
    rw [hfinished.tally_eq]
  refine ⟨_, _, _, _, rfl, rfl, rfl, rfl, rfl, rfl, ?_⟩
  exact at_run _ _ _ _ rfl rfl rfl rfl rfl

end Roster

end Descent
