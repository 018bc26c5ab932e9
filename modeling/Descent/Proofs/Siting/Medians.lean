import Descent.Proofs.Siting.Partition
import Descent.Proofs.Siting.Termination
import Descent.Proofs.Siting.Trail
import Descent.Siting.Medians

/-!
# The search for medians

What a search for medians promises, in terms of distances alone. `ServiceCost` is the sum over the
clients of the distance to the nearest median: it knows of no cost for clients without a median, and
no such cost is ever charged, since an exchange opens before it closes.
-/

namespace Descent

open Checked (Ends)

/-! ## Distances to medians -/

section Distances

variable {V : Type} {bits : Nat}

/-- The distance from a client to the nearest of some medians, as an integer. -/
def NearestDistance (distance : Metric V (Signed bits)) (medians : List V) (client : V) (n : Int) :
    Prop :=
  IsLeast {i | ∃ m ∈ medians, ∃ d, distance client m = .ok d ∧ d.val = i} n

variable {distance : Metric V (Signed bits)} {medians others clients : List V} {total : Int}

/-- What serving a vertex costs is its distance to the nearest median, if there is any median. -/
theorem nearestDistance_of_serviceCost {space : Space V (Signed bits)} {client : V} {n : Int}
    (hmedians : medians ≠ []) (h : space.serviceCost medians client = .ok n) :
    NearestDistance space.distance medians client n := by
  unfold Space.serviceCost at h
  obtain ⟨distances, hdistances, h⟩ := Checked.bind_ok_iff.mp h
  have hmem (i : Int) : i ∈ distances.map Signed.val ↔
      ∃ m ∈ medians, ∃ d, space.distance client m = .ok d ∧ d.val = i := by
    constructor
    · intro hi
      obtain ⟨d, hd, hval⟩ := List.mem_map.mp hi
      obtain ⟨m, hm, hdistance⟩ := Checked.exists_of_mem_mapM hdistances hd
      exact ⟨m, hm, d, hdistance, hval⟩
    · rintro ⟨m, hm, d, hdistance, hval⟩
      obtain ⟨d', hd', hdistance'⟩ := Checked.ok_of_mem_mapM hdistances hm
      rw [hdistance, Except.ok.injEq] at hdistance'
      subst hdistance'
      exact List.mem_map.mpr ⟨d, hd', hval⟩
  -- The least distance exists, so the cost without service is not asked for.
  cases hleast : (distances.map Signed.val).min? with
  | none =>
    obtain ⟨m, hm⟩ := List.exists_mem_of_ne_nil _ hmedians
    obtain ⟨d, hd, -⟩ := Checked.ok_of_mem_mapM hdistances hm
    rw [List.min?_eq_none_iff, List.map_eq_nil_iff] at hleast
    rw [hleast] at hd
    cases hd
  | some least =>
    rw [hleast] at h
    cases h
    obtain ⟨hin, hle⟩ := List.min?_eq_some_iff.mp hleast
    refine ⟨(hmem least).mp hin, ?_⟩
    intro i hi
    exact hle i ((hmem i).mpr hi)

variable [Vertex V]

/-- The sum over the distinct clients of the distance to the nearest median. Each client has
one. -/
def ServiceCost (distance : Metric V (Signed bits)) (medians clients : List V) (total : Int) :
    Prop :=
  ∃ nearest : V → Int, (∀ c ∈ clients, NearestDistance distance medians c (nearest c)) ∧
    total = (clients.eraseDups.map nearest).sum

/-- Only which medians there are matters. -/
theorem ServiceCost.of_mem_iff (h : ServiceCost distance medians clients total)
    (hsame : ∀ m, m ∈ medians ↔ m ∈ others) : ServiceCost distance others clients total := by
  obtain ⟨nearest, hnearest, htotal⟩ := h
  refine ⟨nearest, ?_, htotal⟩
  intro c hc
  have hleast := hnearest c hc
  unfold NearestDistance at hleast ⊢
  simpa only [hsame] using hleast

/-- What a set of medians costs from scratch is its service cost. -/
theorem serviceCost_of_totalCost {space : Space V (Signed bits)} (hmedians : medians ≠ [])
    (h : space.totalCost medians clients = .ok total) :
    ServiceCost space.distance medians clients total := by
  unfold Space.totalCost at h
  obtain ⟨costs, hcosts, h⟩ := Checked.bind_ok_iff.mp h
  cases h
  let nearest (c : V) : Int := ((space.serviceCost medians c).toOption).getD 0
  have hnearest {c : V} {n : Int} (hc : space.serviceCost medians c = .ok n) : nearest c = n := by
    show ((space.serviceCost medians c).toOption).getD 0 = n
    rw [hc]
    rfl
  refine ⟨nearest, ?_, ?_⟩
  · intro c hc
    obtain ⟨n, -, hcost⟩ := Checked.ok_of_mem_mapM hcosts (List.mem_eraseDups.mpr hc)
    rw [hnearest hcost]
    exact nearestDistance_of_serviceCost hmedians hcost
  · have hsame := Checked.map_of_mapM (g := id) (h := nearest)
      (fun c _ n hc => (hnearest hc).symm) hcosts
    rw [← hsame, List.map_id]

end Distances

/-! ## Sets of medians -/

namespace AscendingSet

variable {V : Type} [Vertex V] {s : AscendingSet V} {opened closed : V}

theorem ofList_toList (s : AscendingSet V) : ofList s.toList = s := by
  apply ext_mem
  intro x
  exact mem_ofList

theorem length_ofList (l : List V) : (ofList l).toList.length = l.toFinset.card := by
  rw [← List.toFinset_card_of_nodup (nodup _)]
  congr 1
  ext x
  rw [List.mem_toFinset, List.mem_toFinset]
  exact mem_ofList

/-- An exchange keeps the number of members. -/
theorem length_exchange (hclosed : closed ∈ s) (hopened : opened ∉ s) :
    ((s.insert opened).erase closed).toList.length = s.toList.length := by
  have hinsert := sum_insert hopened fun _ => 1
  have herase := sum_erase (mem_insert.mpr (.inr hclosed) : closed ∈ s.insert opened) fun _ => 1
  simp only [List.map_const', List.sum_replicate_int] at hinsert herase
  omega

/-- After an exchange the members are those that are left, and the new one. -/
theorem mem_exchange (hclosed : closed ∈ s) (hopened : opened ∉ s) {m : V} :
    m ∈ ((s.insert opened).erase closed).toList ↔ m ∈ opened :: s.toList.erase closed := by
  have hne : opened ≠ closed := by
    rintro rfl
    exact hopened hclosed
  show m ∈ (s.insert opened).erase closed ↔ _
  rw [mem_erase, mem_insert, List.mem_cons, s.nodup.mem_erase_iff]
  show (m = opened ∨ m ∈ s) ∧ m ≠ closed ↔ m = opened ∨ m ≠ closed ∧ m ∈ s
  constructor
  · rintro ⟨rfl | hm, hmc⟩
    · exact .inl rfl
    · exact .inr ⟨hmc, hm⟩
  · rintro (rfl | ⟨hmc, hm⟩)
    · exact ⟨.inl rfl, hne⟩
    · exact ⟨.inr hm, hmc⟩

end AscendingSet

/-! ## Rosters of medians -/

namespace Roster

variable {V : Type} [Vertex V] {bits : Nat} {distance : Metric V (Signed bits)}
  {clients : List V} {r s : Roster V (Signed bits)} {n : Int}

/-- The objective of a problem in which opening is free is the cost of the service. -/
theorem totalCost_of_objective {chosen : List V}
    (h : (SitingProblem.free distance).objective clients chosen = .ok n) :
    (SitingProblem.free distance).toSpace.totalCost chosen clients = .ok n := by
  have hopening : (SitingProblem.free distance).openingTotal chosen = 0 := by
    unfold SitingProblem.openingTotal
    have hzero : (chosen.map fun f => ((SitingProblem.free distance).openingCost f).val) =
        chosen.map fun _ => 0 := rfl
    rw [hzero, List.map_const', List.sum_replicate_int, Int.mul_zero]
  unfold SitingProblem.objective at h
  obtain ⟨service, hservice, h⟩ := Checked.bind_ok_iff.mp h
  rw [hopening, Int.zero_add] at h
  cases h
  exact hservice

/-- After a committed update the open facilities are those that it was to lead to. -/
theorem Sound.chosen_of_commit {problem : SitingProblem V (Signed bits)} {u : Update V}
    {accepted : Bool} (hr : r.Sound problem clients) (hu : u.Legal r.plan.chosen r.plan.unchosen)
    (h : r.commit problem u = .ok (accepted, s)) : s.plan.chosen = u.chosenAfter r.plan.chosen := by
  obtain ⟨b, hb, rfl, -⟩ := commit_eq_ok h
  obtain ⟨change, plan, hplan, rfl⟩ := apply_of_legal hr.agrees hu hb
  obtain ⟨-, -, hupdated⟩ := Plan.apply_of_legal hu hplan
  exact hupdated.chosen_eq

/-- A roster that exchanges alone can lead to: it has as many open facilities. -/
structure Exchanged (problem : SitingProblem V (Signed bits)) (clients : List V)
    (r s : Roster V (Signed bits)) : Prop extends Continues problem clients r s where
  length_eq : s.plan.chosen.toList.length = r.plan.chosen.toList.length

theorem Exchanged.commit {problem : SitingProblem V (Signed bits)} {u : Update V}
    {entry : Facility V} {accepted : Bool} {s' : Roster V (Signed bits)}
    (hs : Exchanged problem clients r s) (hentry : entry ∈ s.facilities)
    (hu : u ∈ neighborhood .exchangeOnly s entry) (h : s.commit problem u = .ok (accepted, s')) :
    Exchanged problem clients r s' := by
  refine ⟨hs.toContinues.commit h, ?_⟩
  obtain ⟨hlegal, hkind⟩ := hs.sound.agrees.legal_of_mem hentry hu
  rw [hs.sound.chosen_of_commit hlegal h, ← hs.length_eq]
  cases u with
  | opening f => cases hkind
  | closing f => cases hkind
  | exchange closed opened =>
    obtain ⟨hclosed, hopened⟩ : closed ∈ s.plan.chosen ∧ opened ∈ s.plan.unchosen := hlegal
    exact AscendingSet.length_exchange hclosed fun hold =>
      hs.sound.plan.disjoint opened hold hopened

/-- Every roster that a trail of exchanges comes to has as many open facilities as the first. -/
theorem Sound.trail_exchanged {problem : SitingProblem V (Signed bits)} {config : SearchConfig}
    {start last : SearchState Unit Unit (Roster V (Signed bits))}
    {later : List (SearchState Unit Unit (Roster V (Signed bits)))}
    (hstart : start.solution.Sound problem clients)
    (h : (engine problem .exchangeOnly (savings problem) (.never : StopRule Unit _ _ _)
      config).Trail start later last) :
    ∀ s ∈ start :: later, Exchanged problem clients start.solution s.solution := by
  refine h.keeps ?_ ⟨⟨hstart, fun _ => Iff.rfl⟩, rfl⟩
  intro state pass hs hpass _
  exact Engine.search_keeps (fun s hs entry hentry u hu accepted s' hcommit =>
    hs.commit hentry hu hcommit) hs hpass

/-- An open set of facilities of a problem in which opening is free costs its service cost. -/
theorem Sound.serviceCost (hr : r.Sound (SitingProblem.free distance) clients)
    (hopen : r.plan.chosen.toList ≠ []) {cost : Signed bits}
    (hcost : r.plan.totalCost (SitingProblem.free distance) = .ok cost) :
    ServiceCost distance r.plan.chosen.toList clients cost.val := by
  rw [(Plan.totalCost_ends r.plan).value hcost]
  exact serviceCost_of_totalCost hopen (totalCost_of_objective hr.plan.objective)

/-- If no exchange of facilities that open for free has a saving, then none has a lower service
cost. -/
theorem Sound.exchange_of_settled {config : SearchConfig} {closed opened : V} {cost : Signed bits}
    (hr : r.Sound (SitingProblem.free distance) clients)
    (hsettled : (engine (SitingProblem.free distance) .exchangeOnly
      (savings (SitingProblem.free distance)) (.never : StopRule Unit _ _ _) config).Settled r)
    (hclosed : closed ∈ r.plan.chosen) (hopened : opened ∈ r.plan.unchosen)
    (hcost : r.plan.totalCost (SitingProblem.free distance) = .ok cost) :
    ∃ n, ServiceCost distance (opened :: r.plan.chosen.toList.erase closed) clients n ∧
      cost.val ≤ n := by
  have hnew : opened ∉ r.plan.chosen := fun hold => hr.plan.disjoint opened hold hopened
  have hlegal : (Update.exchange closed opened).Legal r.plan.chosen r.plan.unchosen :=
    ⟨hclosed, hopened⟩
  obtain ⟨saved, hsaved, hle⟩ := hr.saving_of_settled (savings_faithful _) hsettled hlegal rfl
  have hvalue := (Plan.totalCost_ends r.plan).value hcost
  have hobjective := totalCost_of_objective ((hr.saving_ends hlegal).value hsaved)
  have hmem (m : V) := AscendingSet.mem_exchange (m := m) hclosed hnew
  have hservice := serviceCost_of_totalCost
    (List.ne_nil_of_mem ((hmem opened).mpr (List.mem_cons_self ..))) hobjective
  exact ⟨_, hservice.of_mem_iff hmem, by omega⟩

end Roster

/-! ## Runs -/

section Runs

variable {V : Type} [Vertex V] {bits : Nat}

/-- The plan that a search for medians starts from. -/
def medianPlan (distance : Metric V (Signed bits)) (medians candidates clients : List V) :
    Checked (Except (Refusal V) (Plan V (Signed bits))) :=
  Plan.build (SitingProblem.free distance) (AscendingSet.ofList medians).toList
    ((AscendingSet.ofList candidates).diff (.ofList medians)).toList clients

/-- The engine of a search for medians. -/
def medianEngine (distance : Metric V (Signed bits)) (config : SearchConfig) :
    Engine Unit Unit (Roster V (Signed bits)) (Facility V) (Update V) (Signed bits) :=
  Roster.engine (SitingProblem.free distance) .exchangeOnly
    (Roster.savings (SitingProblem.free distance)) .never config

/-- What a search for medians reports. The sets of medians are those along its trail, from the
initial one to the one that is reported. -/
structure Optimized (distance : Metric V (Signed bits)) (config : SearchConfig)
    (medians candidates clients : List V) (report : MedianReport V (Signed bits))
    (sets : List (List V)) : Prop where
  walked : ∃ plan later last, medianPlan distance medians candidates clients = .ok (.ok plan) ∧
    (medianEngine distance config).Trail ⟨Roster.ofPlan plan, (), ()⟩ later last ∧
    sets = (⟨Roster.ofPlan plan, (), ()⟩ :: later).map fun s => s.solution.plan.chosen.toList
  last : sets.getLast? = some report.medians
  ascending : ∀ set ∈ sets, set.Pairwise (· < ·)
  count : ∀ set ∈ sets, set.length = medians.toFinset.card
  members : ∀ set ∈ sets, ∀ m ∈ set, m ∈ medians ∨ m ∈ candidates
  history : List.Forall₂ (fun set cost => ServiceCost distance set clients cost.val) sets
    report.record.history
  cost : report.record.history.getLast? = some report.cost
  falling : report.record.history.Pairwise fun a b => b.val < a.val
  converged : config.cap = 0 → report.record.converged = true
  optimal : report.record.converged = true → ∀ closed ∈ report.medians, ∀ opened,
    opened ∈ medians ∨ opened ∈ candidates → opened ∉ report.medians →
      ∃ n, ServiceCost distance (opened :: report.medians.erase closed) clients n ∧
        report.cost.val ≤ n

variable {distance : Metric V (Signed bits)} {config : SearchConfig}
  {medians candidates clients : List V}

/-- The plan can be built, since no candidate is on both sides. -/
theorem medianPlan_ends (distance : Metric V (Signed bits)) (medians candidates clients : List V) :
    Ends (medianPlan distance medians candidates clients)
      (fun answer => ∃ plan, answer = .ok plan ∧ plan.chosen = .ofList medians ∧
        plan.unchosen = (AscendingSet.ofList candidates).diff (.ofList medians))
      (SitingProblem.free distance).toSpace.MayOverflow := by
  have hapart : ∀ f ∈ (AscendingSet.ofList medians).toList,
      f ∉ ((AscendingSet.ofList candidates).diff (.ofList medians)).toList := by
    intro f hf hother
    exact (AscendingSet.mem_diff.mp hother).2 hf
  refine ((Plan.build_ends hapart).mono fun answer _ hanswer => ?_).weaken
    SitingProblem.mayOverflow_of_mayFail
  obtain ⟨plan, hplan, hchosen, hunchosen⟩ := hanswer
  exact ⟨plan, hplan, hchosen.trans (AscendingSet.ofList_toList _),
    hunchosen.trans (AscendingSet.ofList_toList _)⟩

/-- The plan that a search starts from has the initial medians open, and the candidates besides. -/
theorem medianPlan_eq_ok {plan : Plan V (Signed bits)}
    (h : medianPlan distance medians candidates clients = .ok (.ok plan)) :
    (Roster.ofPlan plan).Sound (SitingProblem.free distance) clients ∧
      plan.chosen = .ofList medians ∧
      ∀ f, f ∈ plan.chosen ∨ f ∈ plan.unchosen ↔ f ∈ medians ∨ f ∈ candidates := by
  obtain ⟨_, hsame, hchosen, hunchosen⟩ :=
    (medianPlan_ends distance medians candidates clients).value h
  cases hsame
  refine ⟨(Roster.Reachable.listed (.built h)).sound, hchosen, ?_⟩
  intro f
  rw [hchosen, hunchosen, AscendingSet.mem_diff, AscendingSet.mem_ofList, AscendingSet.mem_ofList]
  tauto

/-- A run of exchanges from the initial medians reports what it should. -/
theorem optimized_of_run {plan : Plan V (Signed bits)} {run : SitingRun Unit V (Signed bits)}
    (hmedians : medians ≠ [])
    (hplan : medianPlan distance medians candidates clients = .ok (.ok plan))
    (hrun : (Roster.ofPlan plan).optimize (SitingProblem.free distance)
      { config with kinds := .exchangeOnly } = .ok (.ok run)) :
    ∃ sets, Optimized distance config medians candidates clients
      { medians := run.report.chosen, cost := run.report.cost, record := run.report.record }
      sets := by
  obtain ⟨hsound, hchosen, huniverse⟩ := medianPlan_eq_ok hplan
  have hretold := hsound.optimizeWith_retold hrun
  obtain ⟨later, last, htrail, hlast, halong⟩ := hretold.along
  obtain ⟨hfinal, hreport, hcost, hsettled⟩ := Roster.optimizeWith_ends hsound hrun
  have hexchanged := hsound.trail_exchanged htrail
  obtain ⟨-, hdescends⟩ := Roster.Sound.trail_descends ⟨Roster.ofPlan plan, (), ()⟩ hsound htrail
  have hcount : plan.chosen.toList.length = medians.toFinset.card := by
    rw [hchosen, AscendingSet.length_ofList]
  have hnonempty {s : AscendingSet V} (h : s.toList.length = plan.chosen.toList.length) :
      s.toList ≠ [] := by
    intro hnil
    rw [hnil, hcount, List.length_nil] at h
    exact hmedians ((List.toFinset_eq_empty_iff _).mp (Finset.card_eq_zero.mp h.symm))
  refine ⟨_, ⟨⟨plan, later, last, hplan, htrail, rfl⟩, ?_, ?_, ?_, ?_, ?_, hretold.reported, ?_, ?_,
    ?_⟩⟩
  · rw [List.getLast?_map, htrail.getLast?_eq, Option.map_some, hlast, hreport]
  · intro set hset
    obtain ⟨s, hs, rfl⟩ := List.mem_map.mp hset
    exact s.solution.plan.chosen.ascending
  · intro set hset
    obtain ⟨s, hs, rfl⟩ := List.mem_map.mp hset
    exact (hexchanged s hs).length_eq.trans hcount
  · intro set hset m hm
    obtain ⟨s, hs, rfl⟩ := List.mem_map.mp hset
    exact (huniverse m).mp (((hexchanged s hs).facilities m).mp (.inl hm))
  · rw [List.forall₂_map_left_iff]
    refine List.forall₂_iff_zip.mpr ⟨halong.length_eq, ?_⟩
    intro s cost hs
    have hmem := (List.of_mem_zip hs).1
    exact (hexchanged s hmem).sound.serviceCost (hnonempty (hexchanged s hmem).length_eq)
      ((List.forall₂_iff_zip.mp halong).2 hs)
  · refine Checked.pairwise_of_mapM (List.pairwise_map.mp hdescends.lower) ?_
      (Checked.mapM_eq_ok_iff.mpr halong)
    intro s s' cost cost' hlower hs hs'
    rw [(Plan.totalCost_ends _).value hs, (Plan.totalCost_ends _).value hs']
    exact hlower
  · intro hcap
    cases hconverged : run.report.record.converged with
    | true => rfl
    | false => exact absurd hcap (hretold.counts.not_converged_iff.mp hconverged).1
  · intro hconverged closed hclosed opened hopened hnew
    show ∃ n, _ ∧ run.report.cost.val ≤ n
    rw [hreport] at hclosed hnew ⊢
    have hidle : opened ∈ run.roster.plan.unchosen :=
      ((hfinal.facilities opened).mpr ((huniverse opened).mpr hopened)).resolve_left hnew
    exact hfinal.sound.exchange_of_settled (hsettled hconverged) hclosed hidle hcost

/-- A search with initial medians ends in a report, unless there is an overflow or the metric
faults. -/
theorem findMedians_ends (hmedians : medians ≠ []) :
    Ends (findMedians distance config medians candidates clients)
      (fun answer => ∃ report sets, answer = .ok report ∧
        Optimized distance config medians candidates clients report sets)
      (SitingProblem.free distance).toSpace.MayOverflow := by
  have hstart : (AscendingSet.ofList medians).isEmpty = false := by
    obtain ⟨m, hm⟩ := List.exists_mem_of_ne_nil _ hmedians
    rw [← Bool.not_eq_true, AscendingSet.isEmpty, List.isEmpty_iff]
    exact List.ne_nil_of_mem (AscendingSet.mem_ofList.mpr hm)
  unfold findMedians
  simp only [hstart, Bool.false_eq_true, if_false]
  refine (medianPlan_ends distance medians candidates clients).bind fun answer hplan hanswer => ?_
  obtain ⟨plan, rfl, -⟩ := hanswer
  refine ((medianPlan_eq_ok hplan).1.optimize_answers rfl).bind fun answer hrun hanswer => ?_
  obtain ⟨run, rfl⟩ := hanswer
  obtain ⟨sets, hsets⟩ := optimized_of_run hmedians hplan hrun
  exact ⟨_, sets, rfl, hsets⟩

/-- The exchanges of a search for medians are fewer than the sets of medians and candidates. -/
theorem medianTrail_few {plan : Plan V (Signed bits)}
    {later : List (SearchState Unit Unit (Roster V (Signed bits)))}
    {last : SearchState Unit Unit (Roster V (Signed bits))}
    (hplan : medianPlan distance medians candidates clients = .ok (.ok plan))
    (h : (medianEngine distance config).Trail ⟨Roster.ofPlan plan, (), ()⟩ later last) :
    later.length < 2 ^ (medians ++ candidates).toFinset.card := by
  obtain ⟨hsound, -, huniverse⟩ := medianPlan_eq_ok hplan
  obtain ⟨-, hdescends⟩ := Roster.Sound.trail_descends ⟨Roster.ofPlan plan, (), ()⟩ hsound h
  have hcount := hdescends.count
  have hfacilities : (Roster.ofPlan plan).facilities.length =
      (medians ++ candidates).toFinset.card := by
    rw [← List.length_map Facility.vertex, ← List.toFinset_card_of_nodup hsound.agrees.nodup]
    congr 1
    ext f
    rw [List.mem_toFinset, List.mem_toFinset, hsound.agrees.listed, List.mem_append]
    exact huniverse f
  have hpositive : 0 < 2 ^ (medians ++ candidates).toFinset.card := Nat.two_pow_pos _
  simp only [List.length_map, hfacilities] at hcount
  omega

/-- A search for medians is refused if there is no initial median, and for nothing else. Otherwise
it ends, unless there is an overflow or the metric faults, and reports as many of the medians and
candidates as there were distinct initial medians. Every cost in its history is the sum of the
distances from the distinct clients to the nearest median at that time, each is below the one
before, and there are fewer exchanges than sets of medians and candidates. If the search has
converged, then no exchange of one of the medians for another candidate has a smaller sum. -/
theorem findMedians_optimizes (distance : Metric V (Signed bits)) (config : SearchConfig)
    (medians candidates clients : List V) :
    (∀ refusal, findMedians distance config medians candidates clients = .ok (.error refusal) ↔
      medians = [] ∧ refusal = .noMedians) ∧
    (medians ≠ [] →
      Ends (findMedians distance config medians candidates clients)
        (fun answer => ∃ report sets, answer = .ok report ∧
          Optimized distance config medians candidates clients report sets)
        (SitingProblem.free distance).toSpace.MayOverflow) ∧
    ∀ plan later last, medianPlan distance medians candidates clients = .ok (.ok plan) →
      (medianEngine distance config).Trail ⟨Roster.ofPlan plan, (), ()⟩ later last →
      later.length < 2 ^ (medians ++ candidates).toFinset.card := by
  refine ⟨?_, findMedians_ends, fun plan later last hplan htrail => medianTrail_few hplan htrail⟩
  intro refusal
  constructor
  · intro h
    by_cases hmedians : medians = []
    · subst hmedians
      cases h
      exact ⟨rfl, rfl⟩
    · obtain ⟨report, sets, hreport, -⟩ := (findMedians_ends hmedians).value h
      cases hreport
  · rintro ⟨rfl, rfl⟩
    rfl

end Runs

/-- The distances on a line. -/
def line : Metric Int (Signed 64) := fun a b => Signed.ofResult .subtract (a - b).natAbs

/-- Two medians on a line, listed twice, move to the middle of the clients on either side. -/
theorem findMedians_optimizes_line :
    ∃ report : MedianReport Int (Signed 64),
      findMedians line {} [0, 2, 0] [0, 1, 2, 10, 11, 12] [0, 1, 2, 10, 11, 12, 0] =
          .ok (.ok report) ∧
        report.medians = [1, 11] ∧ report.cost.val = 4 ∧ report.record.converged = true ∧
        report.record.history.length = 4 ∧
        (∃ sets, Optimized line {} [0, 2, 0] [0, 1, 2, 10, 11, 12] [0, 1, 2, 10, 11, 12, 0] report
          sets) ∧
        ∃ n, ServiceCost line [12, 1] [0, 1, 2, 10, 11, 12, 0] n ∧ 4 ≤ n := by
  have at_run : ∀ report : MedianReport Int (Signed 64),
      findMedians line {} [0, 2, 0] [0, 1, 2, 10, 11, 12] [0, 1, 2, 10, 11, 12, 0] =
        .ok (.ok report) →
      report.medians = [1, 11] → report.cost.val = 4 → report.record.converged = true →
      (∃ sets, Optimized line {} [0, 2, 0] [0, 1, 2, 10, 11, 12] [0, 1, 2, 10, 11, 12, 0] report
        sets) ∧
      ∃ n, ServiceCost line [12, 1] [0, 1, 2, 10, 11, 12, 0] n ∧ 4 ≤ n := by
    intro report hrun hmedians hcost hconverged
    obtain ⟨-, hends, -⟩ := findMedians_optimizes line {} [0, 2, 0] [0, 1, 2, 10, 11, 12]
      [0, 1, 2, 10, 11, 12, 0]
    obtain ⟨_, sets, hsame, hoptimized⟩ := (hends (by decide)).value hrun
    cases hsame
    have hoptimal := hoptimized.optimal hconverged
    rw [hmedians, hcost] at hoptimal
    exact ⟨⟨sets, hoptimized⟩, hoptimal 11 (by decide) 12 (by decide) (by decide)⟩
  refine ⟨_, rfl, rfl, rfl, rfl, rfl, ?_⟩
  exact at_run _ rfl rfl rfl rfl

end Descent
