import Descent.Proofs.Search.Run
import Descent.Proofs.Tour.Exchange
import Descent.Tour.Run

/-!
# Searching a tour

The moves of a tour pair its edges that share no stop (`TwoEdgeMove.mem_all`). Each of them can be
scored and is committed, so a pass over a tour leaves it alone or makes one move that scored as an
improvement: `search_ends`. A pass that leaves it alone has seen no such move: `search_unimproving`.
-/

namespace Descent

open Checked (Ends)

theorem TwoEdgeMove.mem_all {n : Nat} {m : TwoEdgeMove} :
    m ∈ all n ↔ m.first + 2 ≤ m.second ∧ m.second < n ∧ ¬ (m.first = 0 ∧ m.second = n - 1) := by
  obtain ⟨first, second⟩ := m
  simp only [all, startingAt, List.mem_flatMap, List.mem_range, List.mem_map, List.mem_filter,
    List.mem_range'_1, mk.injEq]
  constructor
  · rintro ⟨i, hi, j, ⟨hj, hpair⟩, rfl, rfl⟩
    simp at hpair
    omega
  · rintro ⟨hfirst, hsecond, hpair⟩
    refine ⟨first, by omega, second, ⟨by omega, ?_⟩, rfl, rfl⟩
    simp
    omega

namespace Tour

variable {V D : Type} [Distance D] {distance : Metric V D} {config : SearchConfig} {t r : Tour V}
  {m : TwoEdgeMove}

/-! ## Faults -/

/-- How a search over some stops may fail: in the distance of two of them, in the arithmetic on
distances, or in a position that leaves its word. -/
def MayFail (distance : Metric V D) (stops : List V) (e : Fault) : Prop :=
  (∃ a ∈ stops, ∃ b ∈ stops, distance a b = .error e) ∨
    (∃ x y : D, Distance.add x y = .error e ∨ Distance.sub x y = .error e) ∨
    (Position.bound ≤ stops.length ∧ e = .overflow .add)

theorem MayFail.of_perm {stops stops' : List V} {e : Fault} (hperm : stops.Perm stops')
    (h : MayFail distance stops e) : MayFail distance stops' e := by
  rcases h with ⟨a, ha, b, hb, hab⟩ | harithmetic | ⟨hlong, he⟩
  · exact .inl ⟨a, hperm.mem_iff.mp ha, b, hperm.mem_iff.mp hb, hab⟩
  · exact .inr (.inl harithmetic)
  · exact .inr (.inr ⟨hperm.length_eq ▸ hlong, he⟩)

theorem distance_ends (distance : Metric V D) {stops : List V} {a b : V} (ha : a ∈ stops)
    (hb : b ∈ stops) : Ends (distance a b) (fun _ => True) (MayFail distance stops) := by
  cases h : distance a b with
  | error e => exact .inl ⟨a, ha, b, hb, h⟩
  | ok d => trivial

theorem add_ends (distance : Metric V D) (stops : List V) (x y : D) :
    Ends (Distance.add x y) (fun _ => True) (MayFail distance stops) := by
  cases h : Distance.add x y with
  | error e => exact .inr (.inl ⟨x, y, .inl h⟩)
  | ok d => trivial

theorem sub_ends (distance : Metric V D) (stops : List V) (x y : D) :
    Ends (Distance.sub x y) (fun _ => True) (MayFail distance stops) := by
  cases h : Distance.sub x y with
  | error e => exact .inr (.inl ⟨x, y, .inr h⟩)
  | ok d => trivial

/-- A position leaves its word. It takes as many stops as there are positions for that. -/
def TooLong (t : Tour V) (e : Fault) : Prop := Position.bound ≤ t.size ∧ e = .overflow .add

theorem TooLong.mayFail (distance : Metric V D) {e : Fault} (h : t.TooLong e) :
    MayFail distance t.stops e := .inr (.inr h)

/-- The position behind one on the tour. -/
theorem next_ends {i : Nat} (hi : i < t.size) :
    Ends (Position.add i 1) (fun k => k = i + 1) t.TooLong := by
  refine ((Position.add_ends i 1).mono fun k _ hk => hk.1).weaken ?_
  rintro e ⟨rfl, hlarge⟩
  exact ⟨hlarge.trans hi, rfl⟩

theorem stopAt_ends (distance : Metric V D) {i : Nat} (h : 0 < t.size) :
    Ends (t.stopAt i) (fun v => v ∈ t.stops) (MayFail distance t.stops) := by
  obtain ⟨v, hv⟩ := exists_stopAt h i
  rw [hv]
  exact mem_of_stopAt hv

/-! ## Moves -/

/-- A move whose second edge lies past its first one on the tour can be scored. -/
theorem saving_ends_of_le (hm : m.first + 1 ≤ m.second) (hlt : m.second < t.size) :
    Ends (t.saving distance m) (fun _ => True) (MayFail distance t.stops) := by
  have hsize : 0 < t.size := Nat.zero_lt_of_lt hlt
  unfold saving
  refine (stopAt_ends distance hsize).bind fun a _ ha => ?_
  refine ((next_ends (by omega)).weaken fun _ => TooLong.mayFail distance).bind fun i _ _ => ?_
  refine (stopAt_ends distance hsize).bind fun b _ hb => ?_
  refine (stopAt_ends distance hsize).bind fun c _ hc => ?_
  refine ((next_ends hlt).weaken fun _ => TooLong.mayFail distance).bind fun j _ _ => ?_
  refine (stopAt_ends distance hsize).bind fun d _ hd => ?_
  refine (distance_ends distance ha hb).bind fun u _ _ => ?_
  refine (distance_ends distance hc hd).bind fun v _ _ => ?_
  refine (add_ends distance _ u v).bind fun old _ _ => ?_
  refine (distance_ends distance ha hc).bind fun x _ _ => ?_
  refine (sub_ends distance _ old x).bind fun less _ _ => ?_
  refine (distance_ends distance hb hd).bind fun y _ _ => ?_
  exact sub_ends distance _ less y

/-- A move of a tour can be scored. -/
theorem saving_ends (hm : m ∈ TwoEdgeMove.all t.size) :
    Ends (t.saving distance m) (fun _ => True) (MayFail distance t.stops) := by
  obtain ⟨hapart, hsecond, -⟩ := TwoEdgeMove.mem_all.mp hm
  exact saving_ends_of_le (by omega) hsecond

/-- A move whose second edge lies past its first one on the tour is made. -/
theorem commit_of_le (hnext : m.first + 1 < Position.bound) (hm : m.first + 1 ≤ m.second)
    (hlt : m.second < t.size) :
    t.commit m = .ok (true, t.turned (m.first + 1) m.second) := by
  unfold commit
  rw [Position.add_of_lt hnext, Checked.ok_bind, if_neg (by simpa using ⟨hm, hlt⟩),
    reverse_of_le (Nat.le_succ_of_le hm) hlt]
  rfl

/-- A move of a tour is committed. -/
theorem commit_ends (hm : m ∈ TwoEdgeMove.all t.size) :
    Ends (t.commit m) (fun result => result = (true, t.turned (m.first + 1) m.second))
      t.TooLong := by
  obtain ⟨hapart, hsecond, -⟩ := TwoEdgeMove.mem_all.mp hm
  by_cases hnext : m.first + 1 < Position.bound
  · rw [commit_of_le hnext (by omega) hsecond]
    rfl
  · unfold commit Position.add
    rw [if_neg hnext]
    exact ⟨by omega, rfl⟩

/-! ## Passes -/

/-- A tour that one move leads to, which scored as an improvement. -/
structure Exchanged (distance : Metric V D) (t : Tour V) (m : TwoEdgeMove) (gain : D)
    (r : Tour V) : Prop where
  listed : m ∈ TwoEdgeMove.all t.size
  saving : t.saving distance m = .ok gain
  improves : Gain.improves gain = true
  committed : t.commit m = .ok (true, r)
  turned : r = t.turned (m.first + 1) m.second

theorem Exchanged.perm {gain : D} (h : Exchanged distance t m gain r) :
    r.stops.Perm t.stops := by
  obtain ⟨hapart, -, -⟩ := TwoEdgeMove.mem_all.mp h.listed
  rw [h.turned]
  exact t.turned_perm (by omega)

theorem responsive (t : Tour V) :
    (engine distance config).Responsive (MayFail distance t.stops) t where
  scored _ _ m hm _ := (saving_ends hm).bind fun _ _ _ => trivial
  committed _ _ m hm := by
    refine ((commit_ends hm).weaken fun _ => TooLong.mayFail distance).mono ?_
    intro result _ hresult hrejected
    rw [hresult] at hrejected
    cases hrejected
  noticed _ _ _ _ := trivial

/-- A pass over a tour ends. It leaves the tour alone, or makes one move that scored as an
improvement. -/
theorem search_ends (state : SearchState Unit Unit (Tour V)) :
    Ends ((engine distance config).search state)
      (fun pass => (pass.improved = false → pass.state.solution = state.solution) ∧
        (pass.improved = true →
          ∃ m gain, Exchanged distance state.solution m gain pass.state.solution))
      (MayFail distance state.solution.stops) := by
  refine (responsive state.solution).search_ends.mono fun pass _ hpass => ?_
  cases hpass with
  | idle hidle hsame =>
    rw [hidle]
    exact ⟨fun _ => hsame, fun h => by cases h⟩
  | @moved _ m gain hmoved _ hm himproving hcommit _ =>
    rw [hmoved]
    refine ⟨fun h => (by cases h), fun _ => ⟨m, gain, ?_⟩⟩
    obtain ⟨_, _, hscore, himproves⟩ := himproving
    obtain ⟨saved, hsaving, hsaved⟩ := Checked.bind_ok_iff.mp hscore
    cases hsaved
    have hturned := (commit_ends hm).value hcommit
    exact ⟨hm, hsaving, himproves, hcommit, (Prod.mk.inj hturned).2⟩

theorem search_perm {state : SearchState Unit Unit (Tour V)}
    {pass : Pass Unit Unit (Tour V) Unit TwoEdgeMove}
    (h : (engine distance config).search state = .ok pass) :
    pass.state.solution.stops.Perm state.solution.stops := by
  obtain ⟨hidle, hmoved⟩ := (search_ends state).value h
  cases himproved : pass.improved with
  | false => rw [hidle himproved]
  | true =>
    obtain ⟨m, gain, hexchanged⟩ := hmoved himproved
    exact hexchanged.perm

/-- A pass that leaves a tour alone has scored all of its moves, none of them as an improvement. -/
theorem search_unimproving {state : SearchState Unit Unit (Tour V)}
    {pass : Pass Unit Unit (Tour V) Unit TwoEdgeMove}
    (h : (engine distance config).search state = .ok pass) (hpass : pass.improved = false) :
    ∀ m ∈ TwoEdgeMove.all state.solution.size, ∃ gain,
      state.solution.saving distance m = .ok gain ∧ Gain.improves gain = false := by
  obtain ⟨-, hsettled⟩ := Engine.search_settled (fun _ _ _ _ => rfl)
    (fun _ _ m hm accepted s hcommit => by
      have haccepted := (commit_ends hm).value hcommit
      exact (Prod.mk.inj haccepted).1) h hpass
  intro m hm
  obtain ⟨_, gain, _, hscore, hno⟩ := hsettled () (List.mem_singleton.mpr rfl) m hm
  obtain ⟨saved, hsaving, hsaved⟩ := Checked.bind_ok_iff.mp hscore
  cases hsaved
  exact ⟨gain, hsaving, hno⟩

/-! ## Runs -/

theorem trail_perm {start last : SearchState Unit Unit (Tour V)}
    {later : List (SearchState Unit Unit (Tour V))}
    (h : (engine distance config).Trail start later last) :
    ∀ s ∈ start :: later, s.solution.stops.Perm start.solution.stops :=
  h.keeps (I := fun s => s.stops.Perm start.solution.stops)
    (fun _ _ hs hpass _ => (search_perm hpass).trans hs) (.refl _)

theorem tours_perm {start last : SearchState Unit Unit (Tour V)}
    {later : List (SearchState Unit Unit (Tour V))}
    (h : (engine distance config).Trail start later last) :
    ∀ r ∈ start.solution :: later.map SearchState.solution,
      r.stops.Perm start.solution.stops := by
  rw [← List.map_cons]
  exact List.forall_mem_map.mpr (trail_perm h)

/-- The length of a tour can be added up. -/
theorem length_mayFail (distance : Metric V D) (t : Tour V) :
    Ends (t.length distance) (fun _ => True) (MayFail distance t.stops) := by
  refine Ends.foldlM_true fun edge hedge sum => ?_
  obtain ⟨ha, hb⟩ := mem_of_mem_edges hedge
  exact (distance_ends distance ha hb).bind fun d _ _ => add_ends distance _ sum d

/-- A run ends, unless one of its passes fails or they cannot be counted. -/
theorem shorten_mayFail (distance : Metric V D) (config : SearchConfig) (t : Tour V) :
    Ends (t.shorten distance config) (fun _ => True)
      (fun e => MayFail distance t.stops e ∨ e = .overflow .add) := by
  have hsearch : ∀ state : SearchState Unit Unit (Tour V), state.solution.stops.Perm t.stops →
      Ends ((engine distance config).search state)
        (fun pass => pass.state.solution.stops.Perm t.stops)
        (fun e => MayFail distance t.stops e ∨ e = .overflow .add) := by
    intro state hs
    refine ((search_ends state).mono fun pass hpass _ => (search_perm hpass).trans hs).weaken ?_
    exact fun e he => .inl (he.of_perm hs)
  have hlength : ∀ s : Tour V, s.stops.Perm t.stops → Ends (s.length distance) (fun _ => True)
      (fun e => MayFail distance t.stops e ∨ e = .overflow .add) := fun s hs =>
    (length_mayFail distance s).weaken fun e he => .inl (he.of_perm hs)
  have hrecord : Ends ((engine distance config).record (Tour.length distance) ⟨t, (), ()⟩)
      (fun _ => True) (fun e => MayFail distance t.stops e ∨ e = .overflow .add) := by
    unfold Engine.record
    refine (hlength t (.refl _)).bind fun first _ _ => ?_
    exact Engine.recordWithin_ends_of_search (I := fun s => s.stops.Perm t.stops)
      (.inr rfl) hsearch hlength (.refl _)
  rw [shorten_eq]
  refine hrecord.bind fun done hdone _ => ?_
  obtain ⟨hperm, -⟩ := Engine.record_ends (I := fun s => s.stops.Perm t.stops)
    (fun _ _ hs hpass => (search_perm hpass).trans hs) (.refl _) hdone
  exact (hlength done.state.solution hperm).bind fun _ _ _ => trivial

/-- How a run went: some passes each made a move, which led from tour to tour down to the final
one, and the history has the lengths of these tours. Only a cap can end a run otherwise than by a
pass that made no move. -/
structure Walked (distance : Metric V D) (config : SearchConfig) (t : Tour V) (run : TourRun V D)
    (tours : List (Tour V)) : Prop where
  trail : ∃ later last, (engine distance config).Trail ⟨t, (), ()⟩ later last ∧
    tours = later.map SearchState.solution
  last : (t :: tours).getLast? = some run.tour
  history : (t :: tours).mapM (Tour.length distance) = .ok run.record.history
  length : run.tour.length distance = .ok run.length
  improvements : run.record.improvements = tours.length
  passes : run.record.passes ≤ tours.length + 1
  converged : config.cap = 0 → run.record.converged = true

/-- Every run that ended has gone from tour to tour. -/
theorem shorten_walked {run : TourRun V D} (h : t.shorten distance config = .ok run) :
    ∃ tours, Walked distance config t run tours := by
  rw [shorten_eq, Engine.record] at h
  obtain ⟨done, hdone, h⟩ := Checked.bind_ok_iff.mp h
  obtain ⟨first, hfirst, hdone⟩ := Checked.bind_ok_iff.mp hdone
  obtain ⟨length, hlength, h⟩ := Checked.bind_ok_iff.mp h
  cases h
  obtain ⟨later, last, hfollowed⟩ := Engine.recordWithin_followed hdone
  have hfinal := hfollowed.solution_eq fun _ hpass hidle =>
    ((search_ends last).value hpass).1 hidle
  obtain ⟨htrail, ⟨values, hvalues, hhistory⟩, himprovements, hended⟩ := hfollowed
  refine ⟨later.map SearchState.solution, ⟨later, last, htrail, rfl⟩, ?_, ?_, hlength, ?_, ?_, ?_⟩
  · have hlast := congrArg (Option.map SearchState.solution) htrail.getLast?_eq
    rw [← List.getLast?_map] at hlast
    rw [hfinal]
    exact hlast
  · have hlater : later.mapM (Tour.length distance ∘ SearchState.solution) = .ok values := hvalues
    rw [List.mapM_cons, hfirst, List.mapM_map, hlater, hhistory]
    rfl
  · simpa using himprovements
  · rcases hended with ⟨-, hpasses, -⟩ | ⟨-, -, -, hpasses, -⟩
    · simp [hpasses]
    · simp [hpasses]
  · intro hcap
    rcases hended with ⟨hconverged, -⟩ | ⟨hcapped, -⟩
    · exact hconverged
    · exact absurd hcap hcapped

/-- The history starts with the length of the first tour and ends with the one that is reported. -/
theorem Walked.history_ends {run : TourRun V D} {tours : List (Tour V)}
    (h : Walked distance config t run tours) :
    (∃ first, t.length distance = .ok first ∧ run.record.history.head? = some first) ∧
      run.record.history.getLast? = some run.length := by
  have hlengths := Checked.map_ok_of_mapM h.history
  have hhead := congrArg List.head? hlengths
  have hlast := congrArg List.getLast? hlengths
  rw [List.head?_map, List.map_cons, List.head?_cons, Option.map_eq_some_iff] at hhead
  rw [List.getLast?_map, List.getLast?_map, h.last, Option.map_some, h.length,
    Option.map_eq_some_iff] at hlast
  obtain ⟨first, hfirst, hlength⟩ := hhead
  obtain ⟨final, hfinal, hsame⟩ := hlast
  cases hsame
  exact ⟨⟨first, hlength.symm, hfirst⟩, hfinal⟩

end Tour

end Descent
