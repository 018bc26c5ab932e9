import Descent.Proofs.Tour.Optimum

/-!
# Shortening a tour ends

A move that a search over a tour commits lowers the length of the tour, by exactly what it was said
to save. So no tour comes twice on the way of a search, and a tour has only as many rearrangements
as its stops have orders. An uncapped run therefore ends, and this bound does not depend on the word
that counts its passes.
-/

namespace Descent

open Checked (Ends)

/-- Different orders of a list are at most as many as it has permutations. -/
theorem length_le_factorial_of_perm {α : Type} {l : List α} {orders : List (List α)}
    (hdistinct : orders.Nodup) (hperm : ∀ o ∈ orders, o.Perm l) :
    orders.length ≤ l.length.factorial := by
  have hsub : orders ⊆ l.permutations := fun o ho => List.mem_permutations.mpr (hperm o ho)
  rw [← List.length_permutations]
  exact (hdistinct.subperm hsub).length_le

namespace Tour

variable {V : Type} {bits : Nat} {distance : Metric V (Signed bits)} {config : SearchConfig}
  {t r : Tour V} {m : TwoEdgeMove} {gain : Signed bits} {n : Int}

/-- Different rearrangements of a tour are fewer than the orders of its stops, itself apart. -/
theorem length_lt_factorial {V : Type} {t : Tour V} {tours : List (Tour V)}
    (hperm : ∀ r ∈ t :: tours, r.stops.Perm t.stops) (hdistinct : (t :: tours).Nodup) :
    tours.length < t.size.factorial := by
  have horders : ((t :: tours).map Tour.stops).Nodup := hdistinct.map fun _ _ h => Tour.ext h
  have hcount := length_le_factorial_of_perm horders (List.forall_mem_map.mpr hperm)
  rw [List.length_map, List.length_cons] at hcount
  exact hcount

/-! ## Faults -/

/-- How a search over some stops may fail with words as distances: by an overflow, or in the
distance of two stops. -/
def MayOverflow (distance : Metric V (Signed bits)) (stops : List V) (e : Fault) : Prop :=
  e.IsOverflow ∨ ∃ a ∈ stops, ∃ b ∈ stops, distance a b = .error e

theorem mayOverflow_of_mayFail {stops : List V} (e : Fault) (h : MayFail distance stops e) :
    MayOverflow distance stops e := by
  rcases h with hmetric | ⟨x, y, hadd | hsub⟩ | ⟨-, he⟩
  · exact .inr hmetric
  · exact .inl ((Signed.add_ends x y).fault hadd)
  · exact .inl ((Signed.sub_ends x y).fault hsub)
  · exact .inl ⟨.add, he⟩

/-! ## One pass -/

/-- A tour that one move leads to, which lowered the length by exactly what it was said to save. -/
structure Lowered (distance : Metric V (Signed bits)) (t : Tour V) (m : TwoEdgeMove)
    (gain : Signed bits) (r : Tour V) : Prop extends Exchanged distance t m gain r where
  positive : 0 < gain.val
  total : ∀ n, t.total distance = .ok n → r.total distance = .ok (n - gain.val)
  length : ∀ before, t.length distance = .ok before →
    Ends (r.length distance) (fun after => after.val = before.val - gain.val) Fault.IsOverflow

theorem Exchanged.lowered (h : Exchanged distance t m gain r)
    (hsymm : distance.SymmetricOn t.stops) : Lowered distance t m gain r := by
  obtain ⟨hapart, hsecond, -⟩ := TwoEdgeMove.mem_all.mp h.listed
  have htotal : ∀ n, t.total distance = .ok n → r.total distance = .ok (n - gain.val) := by
    intro n hn
    rw [h.turned]
    exact total_of_saving hsymm (by omega) hsecond hn h.saving
  refine ⟨h, Signed.lt_iff.mp h.improves, htotal, fun before hbefore => ?_⟩
  exact length_ends_of_total (htotal _ (total_of_length hbefore))

/-! ## Trails -/

/-- Both tours have a total, and the first one has the smaller one. -/
def Shorter (distance : Metric V (Signed bits)) (r t : Tour V) : Prop :=
  ∃ i j, r.total distance = .ok i ∧ t.total distance = .ok j ∧ i < j

theorem Shorter.trans {q : Tour V} (hqr : Shorter distance q r) (hrt : Shorter distance r t) :
    Shorter distance q t := by
  obtain ⟨i, j, hi, hj, hij⟩ := hqr
  obtain ⟨j', k, hj', hk, hjk⟩ := hrt
  rw [hj, Except.ok.injEq] at hj'
  exact ⟨i, k, hi, hk, by omega⟩

theorem Shorter.ne (h : Shorter distance r t) : r ≠ t := by
  rintro rfl
  obtain ⟨i, j, hi, hj, hij⟩ := h
  rw [hi, Except.ok.injEq] at hj
  omega

/-- Tours of which each one comes from the one before by a move that lowered the length. They are
rearrangements of the first one, each shorter than all before. So none comes twice, and they are
fewer than the orders of the stops. -/
structure Descends (distance : Metric V (Signed bits)) (t : Tour V) (tours : List (Tour V)) :
    Prop where
  rearranged : ∀ r ∈ tours, r.stops.Perm t.stops
  lowered : (t :: tours).IsChain fun a b => ∃ m gain, Lowered distance a m gain b
  shorter : (t :: tours).Pairwise fun a b => Shorter distance b a
  distinct : (t :: tours).Nodup
  count : tours.length < t.size.factorial

/-- Rearrangements of a tour, each shorter than all before, descend. -/
theorem Descends.of_shorter {tours : List (Tour V)}
    (hperm : ∀ r ∈ t :: tours, r.stops.Perm t.stops)
    (hlowered : (t :: tours).IsChain fun a b => ∃ m gain, Lowered distance a m gain b)
    (hshorter : (t :: tours).Pairwise fun a b => Shorter distance b a) :
    Descends distance t tours := by
  have hdistinct : (t :: tours).Nodup := hshorter.imp fun hlt => hlt.ne.symm
  have hrearranged : ∀ r ∈ tours, r.stops.Perm t.stops := by
    intro r hr
    exact hperm r (List.mem_cons_of_mem _ hr)
  exact ⟨hrearranged, hlowered, hshorter, hdistinct, length_lt_factorial hperm hdistinct⟩

/-- What a pass that makes a move does to a rearrangement of a symmetric tour. -/
theorem search_lowered {state : SearchState Unit Unit (Tour V)}
    {pass : Pass Unit Unit (Tour V) Unit TwoEdgeMove} (hsymm : distance.SymmetricOn t.stops)
    (hperm : state.solution.stops.Perm t.stops)
    (h : (engine distance config).search state = .ok pass) (himproved : pass.improved = true) :
    pass.state.solution.stops.Perm t.stops ∧
      ∃ m gain, Lowered distance state.solution m gain pass.state.solution := by
  obtain ⟨m, gain, hexchanged⟩ := ((search_ends state).value h).2 himproved
  exact ⟨hexchanged.perm.trans hperm, m, gain, hexchanged.lowered (hsymm.of_perm hperm)⟩

/-- The tours along a trail descend. -/
theorem trail_descends {start last : SearchState Unit Unit (Tour V)}
    {later : List (SearchState Unit Unit (Tour V))}
    (hsymm : distance.SymmetricOn start.solution.stops)
    (htotal : start.solution.total distance = .ok n)
    (h : (engine distance config).Trail start later last) :
    Descends distance start.solution (later.map SearchState.solution) := by
  have hlowered := h.isChain (I := fun s => s.stops.Perm start.solution.stops)
    (R := fun a b => ∃ m gain, Lowered distance a m gain b)
    (fun _ _ hs hpass himproved => search_lowered hsymm hs hpass himproved) (.refl _)
  have hshorter := h.pairwise
    (I := fun s => s.stops.Perm start.solution.stops ∧ ∃ n, s.total distance = .ok n)
    (R := fun a b => Shorter distance b a) (fun _ _ _ hab hbc => hbc.trans hab)
    (fun _ _ hs hpass himproved => by
      obtain ⟨hs, n, hn⟩ := hs
      obtain ⟨hs', m, gain, hlower⟩ := search_lowered hsymm hs hpass himproved
      have hpositive := hlower.positive
      have hn' := hlower.total n hn
      exact ⟨⟨hs', _, hn'⟩, _, n, hn', hn, by omega⟩) ⟨.refl _, n, htotal⟩
  refine .of_shorter (tours_perm h) ?_ ?_
  · rw [← List.map_cons]
    exact (List.isChain_map _).mpr hlowered
  · rw [← List.map_cons]
    exact List.pairwise_map.mpr hshorter

/-! ## Runs -/

/-- An uncapped run converges, unless there is an overflow or the metric faults. -/
theorem shorten_converges (t : Tour V) (hcap : config.cap = 0) :
    Ends (t.shorten distance config) (fun run => run.record.converged = true)
      (MayOverflow distance t.stops) := by
  have hends := (shorten_mayFail distance config t).weaken fun e he =>
    he.elim (mayOverflow_of_mayFail e) fun hcount => .inl ⟨.add, hcount⟩
  refine hends.mono fun run hrun _ => ?_
  obtain ⟨tours, hwalked⟩ := shorten_walked hrun
  exact hwalked.converged hcap

/-- The history of a run falls if each of its tours is shorter than all before. -/
theorem history_falls {tours : List (Tour V)} {history : List (Signed bits)}
    (hshorter : tours.Pairwise fun a b => Shorter distance b a)
    (hhistory : tours.mapM (Tour.length distance) = .ok history) :
    history.Pairwise fun a b => b.val < a.val := by
  refine Checked.pairwise_of_mapM hshorter (fun a b x y hlt hx hy => ?_) hhistory
  obtain ⟨i, j, hi, hj, hij⟩ := hlt
  rw [total_of_length hy, Except.ok.injEq] at hi
  rw [total_of_length hx, Except.ok.injEq] at hj
  omega

/-- On a tour whose distances are the same both ways, a search goes on only by moves that lower the
length, each by exactly what it was said to save, which is positive. So the history of any run
falls from the length of the first tour to the one that is reported, no tour comes twice, and there
are no more passes than orders of the stops. Uncapped runs converge so, unless there is an overflow
or the metric faults. -/
theorem tour_descent_terminates (hsymm : distance.SymmetricOn t.stops) (config : SearchConfig) :
    (∀ n later last, t.total distance = .ok n →
      (engine distance config).Trail ⟨t, (), ()⟩ later last →
      Descends distance t (later.map SearchState.solution)) ∧
    (∀ run, t.shorten distance config = .ok run → ∃ tours,
      Walked distance config t run tours ∧ Descends distance t tours ∧
      run.record.history.Pairwise (fun a b => b.val < a.val) ∧
      (∃ first, t.length distance = .ok first ∧ run.record.history.head? = some first) ∧
      run.record.history.getLast? = some run.length ∧
      run.record.passes ≤ t.size.factorial) ∧
    (config.cap = 0 →
      Ends (t.shorten distance config) (fun run => run.record.converged = true)
        (MayOverflow distance t.stops)) := by
  refine ⟨fun n later last htotal htrail => trail_descends hsymm htotal htrail, ?_,
    fun hcap => shorten_converges t hcap⟩
  intro run hrun
  obtain ⟨tours, hwalked⟩ := shorten_walked hrun
  obtain ⟨⟨first, hlength, hfirst⟩, hlast⟩ := hwalked.history_ends
  obtain ⟨later, last, htrail, rfl⟩ := hwalked.trail
  have hdescends := trail_descends hsymm (total_of_length hlength) htrail
  have hpasses : run.record.passes ≤ t.size.factorial := hwalked.passes.trans hdescends.count
  exact ⟨_, hwalked, hdescends, history_falls hdescends.shorter hwalked.history,
    ⟨first, hlength, hfirst⟩, hlast, hpasses⟩

/-- Under the first strategy, the way through the town is shortened four times. -/
theorem tour_descent_terminates_stroll :
    ∃ pass run, (engine blocks {}).search ⟨stroll, (), ()⟩ = .ok pass ∧ pass.improved = true ∧
      stroll.shorten blocks {} = .ok run ∧
      run.record.history.map Signed.val = [20, 16, 14, 12, 10] ∧
      Descends blocks stroll [pass.state.solution] ∧
      (∃ tours, tours.length = 4 ∧ Descends blocks stroll tours) ∧
      run.record.history.Pairwise (fun a b => b.val < a.val) ∧ run.record.converged = true := by
  have at_run : ∀ pass run n, (engine blocks {}).search ⟨stroll, (), ()⟩ = .ok pass →
      pass.improved = true → stroll.total blocks = .ok n → stroll.shorten blocks {} = .ok run →
      run.record.improvements = 4 →
      Descends blocks stroll [pass.state.solution] ∧
      (∃ tours, tours.length = 4 ∧ Descends blocks stroll tours) ∧
      run.record.history.Pairwise (fun a b => b.val < a.val) ∧ run.record.converged = true := by
    intro pass run n hpass himproved htotal hrun hfour
    obtain ⟨htrail, hruns, hends⟩ :=
      tour_descent_terminates (blocks_symmetricOn stroll.stops) {}
    obtain ⟨tours, hwalked, hdescends, hfalls, -⟩ := hruns run hrun
    refine ⟨htrail n _ _ htotal (.pass hpass himproved .stay), ⟨tours, ?_, hdescends⟩, hfalls,
      (hends rfl).value hrun⟩
    rw [← hwalked.improvements, hfour]
  refine ⟨_, _, rfl, rfl, rfl, rfl, ?_⟩
  exact at_run _ _ 20 rfl rfl rfl rfl rfl

end Tour

end Descent
