import Descent.Arithmetic.Binary
import Descent.Proofs.Comparison
import Descent.Proofs.Search.Return
import Descent.Proofs.Tour.Termination
import Descent.Space.Table

/-!
# Shortening a tour with rounded distances

In double precision the saving of a move and the lengths before and after it are rounded apart, so a
move can score as an improvement that does not shorten the tour. A search that cannot fault comes
to rest if and only if no tour comes twice on its way (`rests_iff_not_returns`). No tour comes twice
as long as every move lowers the computed length; but there are four stops between which a search
goes round for ever.
-/

namespace Descent

open Checked (Ends)

namespace Tour

section Faultless

variable {V D : Type} [Distance D] {distance : Metric V D} {config : SearchConfig} {t : Tour V}
  {later : List (SearchState Unit Unit (Tour V))} {last : SearchState Unit Unit (Tour V)}

/-! ## Rest and return -/

/-- Some tour comes twice on the way of a search. -/
def Returns (distance : Metric V D) (config : SearchConfig) (t : Tour V) : Prop :=
  ∃ later last, (engine distance config).Trail ⟨t, (), ()⟩ later last ∧
    ¬ (t :: later.map SearchState.solution).Nodup

/-- A search over a tour remembers nothing but the tour. -/
theorem solution_injective :
    Function.Injective (SearchState.solution : SearchState Unit Unit (Tour V) → Tour V) := by
  rintro ⟨s, _, _⟩ ⟨r, _, _⟩ h
  cases h
  rfl

theorem not_returns_iff_nodup : ¬ Returns distance config t ↔
    ∀ later last, (engine distance config).Trail ⟨t, (), ()⟩ later last →
      ((⟨t, (), ()⟩ : SearchState Unit Unit (Tour V)) :: later).Nodup := by
  simp only [Returns, not_exists, not_and, not_not]
  refine forall₂_congr fun later last => imp_congr_right fun _ => ?_
  exact List.nodup_map_iff (l := ⟨t, (), ()⟩ :: later) solution_injective

/-- A trail along which no tour comes twice is shorter than the number of orders of the stops. -/
theorem trail_few (h : (engine distance config).Trail ⟨t, (), ()⟩ later last)
    (hnodup : ((⟨t, (), ()⟩ : SearchState Unit Unit (Tour V)) :: later).Nodup) :
    later.length < t.size.factorial := by
  have htours : (t :: later.map SearchState.solution).Nodup := hnodup.map solution_injective
  have hfew := length_lt_factorial (tours_perm h) htours
  rwa [List.length_map] at hfew

variable (hfaultless : ∀ e, ¬ MayFail distance t.stops e)

include hfaultless

theorem search_faultless (h : (engine distance config).Trail ⟨t, (), ()⟩ later last) :
    ∃ pass, (engine distance config).search last = .ok pass := by
  have hperm := trail_perm h last h.last_mem
  obtain ⟨pass, hpass, -⟩ := (search_ends last).exists_value fun e he =>
    hfaultless e (he.of_perm hperm)
  exact ⟨pass, hpass⟩

theorem length_faultless {s : Tour V} (hperm : s.stops.Perm t.stops) :
    ∃ length, s.length distance = .ok length := by
  obtain ⟨length, hlength, -⟩ := (length_mayFail distance s).exists_value fun e he =>
    hfaultless e (he.of_perm hperm)
  exact ⟨length, hlength⟩

theorem lengths_faultless (h : (engine distance config).Trail ⟨t, (), ()⟩ later last) :
    ∃ values, later.mapM (fun s => s.solution.length distance) = .ok values := by
  have hlengths : ∀ s ∈ later, ∃ length, s.solution.length distance = .ok length := by
    intro s hs
    exact length_faultless hfaultless (trail_perm h s (List.mem_cons_of_mem _ hs))
  obtain ⟨values, hvalues, -⟩ := Checked.mapM_of_forall_exists hlengths
  exact ⟨values, hvalues⟩

theorem rests_iff_not_returns :
    (∃ later last, (engine distance config).Trail ⟨t, (), ()⟩ later last ∧
      (engine distance config).Rests last) ↔ ¬ Returns distance config t := by
  rw [not_returns_iff_nodup]
  exact Engine.rests_iff_nodup (fun _ _ h => search_faultless hfaultless h)
    fun _ _ h hnodup => trail_few h hnodup

/-- The lengths along a trail, from its start on. -/
theorem record_faultless (h : (engine distance config).Trail ⟨t, (), ()⟩ later last) :
    ∃ first values, later.mapM (fun s => s.solution.length distance) = .ok values ∧
      (engine distance config).record (Tour.length distance) ⟨t, (), ()⟩ =
        (engine distance config).recordWithin (Tour.length distance) config.budget ⟨t, (), ()⟩
          ⟨0, 0, false, [first]⟩ := by
  obtain ⟨first, hfirst⟩ := length_faultless hfaultless (.refl t.stops)
  obtain ⟨values, hvalues⟩ := lengths_faultless hfaultless h
  refine ⟨first, values, hvalues, ?_⟩
  unfold Engine.record
  rw [hfirst]
  rfl

/-- An uncapped run comes to rest where a trail does, if its passes can be counted so far. -/
theorem shorten_of_rests (h : (engine distance config).Trail ⟨t, (), ()⟩ later last)
    (hrests : (engine distance config).Rests last) (hcount : later.length < config.budget) :
    ∃ run, t.shorten distance config = .ok run ∧ run.record.converged = true ∧
      run.record.passes = later.length + 1 := by
  obtain ⟨pass, hpass, hidle⟩ := hrests
  obtain ⟨first, values, hvalues, hrecord⟩ := record_faultless hfaultless h
  have hperm := (search_perm hpass).trans (trail_perm h last h.last_mem)
  obtain ⟨length, hlength⟩ := length_faultless hfaultless hperm
  rw [Engine.recordWithin_of_rests h hvalues hpass hidle hcount] at hrecord
  rw [shorten_eq]
  rw [hrecord, Checked.ok_bind]
  simp only [hlength]
  exact ⟨_, rfl, rfl, by simp⟩

/-- On whose way a tour comes twice, a trail leads on for as many passes as there may be. -/
theorem record_of_returns (h : Returns distance config t) :
    ∃ record last, last.solution.stops.Perm t.stops ∧ record.converged = false ∧
      record.improvements = config.budget ∧
      (engine distance config).record (Tour.length distance) ⟨t, (), ()⟩ =
        config.atBudget ⟨record, last⟩ := by
  obtain ⟨later, last, htrail, hrests | hlength⟩ := Engine.exists_trail ⟨t, (), ()⟩
    (fun _ _ h => search_faultless hfaultless h) config.budget
  · exact absurd h ((rests_iff_not_returns hfaultless).mp ⟨later, last, htrail, hrests⟩)
  · obtain ⟨first, values, hvalues, hrecord⟩ := record_faultless hfaultless htrail
    rw [← hlength, Engine.recordWithin_of_length htrail hvalues] at hrecord
    exact ⟨_, last, trail_perm htrail last htrail.last_mem, rfl, by simp [hlength], hrecord⟩

/-- If a tour comes twice, then an uncapped run only ends when its passes cannot be counted. -/
theorem shorten_of_returns_uncapped (hcap : config.cap = 0) (h : Returns distance config t) :
    t.shorten distance config = .error (.overflow .add) := by
  obtain ⟨record, last, -, -, -, hrecord⟩ := record_of_returns hfaultless h
  rw [shorten_eq]
  rw [hrecord, SearchConfig.atBudget_of_uncapped hcap]
  rfl

/-- If a tour comes twice, then a capped run makes a move in every pass. -/
theorem shorten_of_returns_capped (hcap : config.cap ≠ 0) (h : Returns distance config t) :
    ∃ run, t.shorten distance config = .ok run ∧ run.record.converged = false ∧
      run.record.improvements = config.cap := by
  obtain ⟨record, last, hperm, hconverged, himprovements, hrecord⟩ :=
    record_of_returns hfaultless h
  obtain ⟨length, hlength⟩ := length_faultless hfaultless hperm
  rw [shorten_eq]
  rw [hrecord, SearchConfig.atBudget_of_capped hcap, Checked.ok_bind]
  simp only [hlength]
  rw [SearchConfig.budget_of_capped hcap] at himprovements
  exact ⟨_, rfl, hconverged, himprovements⟩

end Faultless

section Doubles

variable {V : Type} {distance : Metric V Float} {config : SearchConfig} {t : Tour V}

/-! ## Lengths that fall -/

/-- The computed length of a tour lies below that of another one. -/
def Falls (distance : Metric V Float) (a b : Tour V) : Prop :=
  ∃ x y, a.length distance = .ok x ∧ b.length distance = .ok y ∧ Gain.lt y x = true

theorem Falls.trans {a b c : Tour V} (hab : Falls distance a b) (hbc : Falls distance b c) :
    Falls distance a c := by
  obtain ⟨x, y, hx, hy, hyx⟩ := hab
  obtain ⟨y', z, hy', hz, hzy⟩ := hbc
  rw [hy, Except.ok.injEq] at hy'
  subst hy'
  obtain ⟨defined_y, defined_x⟩ := Comparable.defined_of_lt hyx
  obtain ⟨defined_z, -⟩ := Comparable.defined_of_lt hzy
  exact ⟨x, z, hx, hz, Comparable.lt_trans defined_z defined_y defined_x hzy hyx⟩

theorem Falls.ne {a b : Tour V} (h : Falls distance a b) : a ≠ b := by
  rintro rfl
  obtain ⟨x, y, hx, hy, hyx⟩ := h
  rw [hx, Except.ok.injEq] at hy
  subst hy
  rw [Comparable.lt_irrefl (Comparable.defined_of_lt hyx).1] at hyx
  cases hyx

/-- If the computed length falls from tour to tour, it falls between any two of them. -/
theorem Falls.pairwise {tours : List (Tour V)} (h : tours.IsChain (Falls distance)) :
    tours.Pairwise (Falls distance) := by
  have htrans : Trans (Falls distance) (Falls distance) (Falls distance) := ⟨Falls.trans⟩
  exact h.pairwise

theorem not_returns_of_falls
    (h : ∀ later last, (engine distance config).Trail ⟨t, (), ()⟩ later last →
      (t :: later.map SearchState.solution).IsChain (Falls distance)) :
    ¬ Returns distance config t := by
  rintro ⟨later, last, htrail, hreturn⟩
  exact hreturn ((Falls.pairwise (h later last htrail)).imp fun hfalls => hfalls.ne)

/-- Double precision has no fault of its own. -/
theorem not_mayFail_double (hmetric : ∀ a ∈ t.stops, ∀ b ∈ t.stops, ∃ d, distance a b = .ok d)
    (hsize : t.size < Position.bound) (e : Fault) : ¬ MayFail distance t.stops e := by
  rintro (⟨a, ha, b, hb, hab⟩ | ⟨x, y, hadd | hsub⟩ | ⟨hlong, -⟩)
  · obtain ⟨d, hd⟩ := hmetric a ha b hb
    rw [hd] at hab
    cases hab
  · cases hadd
  · cases hsub
  · exact absurd hsize (Nat.not_lt.mpr hlong)

/-- What becomes of a search over a tour in double precision. If no tour comes twice, then it comes
to rest within as many passes as its stops have orders, and a run converges there if its passes can
be counted so far. If a tour does come twice, then no run converges: a capped one makes a move in
every pass, and an uncapped one goes on until its passes cannot be counted. As long as every move
lowers the computed length, no tour comes twice, and the history of every run falls. -/
theorem rounded_descent (hmetric : ∀ a ∈ t.stops, ∀ b ∈ t.stops, ∃ d, distance a b = .ok d)
    (hsize : t.size < Position.bound) (config : SearchConfig) :
    (¬ Returns distance config t →
      ∃ later last, (engine distance config).Trail ⟨t, (), ()⟩ later last ∧
        (engine distance config).Rests last ∧ later.length < t.size.factorial ∧
        (later.length < config.budget →
          ∃ run, t.shorten distance config = .ok run ∧ run.record.converged = true ∧
            run.record.passes = later.length + 1)) ∧
    (Returns distance config t →
      (config.cap = 0 → t.shorten distance config = .error (.overflow .add)) ∧
      (config.cap ≠ 0 → ∃ run, t.shorten distance config = .ok run ∧
        run.record.converged = false ∧ run.record.improvements = config.cap)) ∧
    ((∀ later last, (engine distance config).Trail ⟨t, (), ()⟩ later last →
        (t :: later.map SearchState.solution).IsChain (Falls distance)) →
      ¬ Returns distance config t ∧
        ∀ run, t.shorten distance config = .ok run → ∃ tours,
          Walked distance config t run tours ∧ (t :: tours).Nodup ∧
          run.record.history.Pairwise fun x y => Gain.lt y x = true) := by
  have hfaultless := not_mayFail_double hmetric hsize
  refine ⟨fun hno => ?_, fun hreturns => ?_, fun hfalls => ⟨not_returns_of_falls hfalls, ?_⟩⟩
  · obtain ⟨later, last, htrail, hrests⟩ := (rests_iff_not_returns hfaultless).mpr hno
    have hfew := trail_few htrail (not_returns_iff_nodup.mp hno later last htrail)
    exact ⟨later, last, htrail, hrests, hfew, shorten_of_rests hfaultless htrail hrests⟩
  · exact ⟨fun hcap => shorten_of_returns_uncapped hfaultless hcap hreturns,
      fun hcap => shorten_of_returns_capped hfaultless hcap hreturns⟩
  · intro run hrun
    obtain ⟨tours, hwalked⟩ := shorten_walked hrun
    obtain ⟨later, last, htrail, rfl⟩ := hwalked.trail
    have hpairs := Falls.pairwise (hfalls later last htrail)
    refine ⟨_, hwalked, hpairs.imp fun hfall => hfall.ne, ?_⟩
    refine Checked.pairwise_of_mapM hpairs (fun a b x y hfall hx hy => ?_) hwalked.history
    obtain ⟨x', y', hx', hy', hlt⟩ := hfall
    rw [hx, Except.ok.injEq] at hx'
    rw [hy, Except.ok.injEq] at hy'
    rw [hx', hy']
    exact hlt

/-- The corners of a square whose diagonals are half as long again as its sides. -/
def square : DistanceTable Float :=
  ⟨4, #[0, 1.0, 1.5, 1.0, 1.0, 0, 1.0, 1.5, 1.5, 1.0, 0, 1.0, 1.0, 1.5, 1.0, 0]⟩

/-- The tour along both diagonals. -/
def acrossSquare : Tour Nat := ⟨[0, 2, 1, 3]⟩

/-- The tour along the sides. -/
def aroundSquare : Tour Nat := ⟨[0, 1, 2, 3]⟩

theorem square_trail : (engine square.distance {}).Trail ⟨acrossSquare, (), ()⟩
    [⟨aroundSquare, (), ()⟩] ⟨aroundSquare, (), ()⟩ := .single rfl rfl rfl

theorem square_falls {later : List (SearchState Unit Unit (Tour Nat))}
    {last : SearchState Unit Unit (Tour Nat)}
    (h : (engine square.distance {}).Trail ⟨acrossSquare, (), ()⟩ later last) :
    (acrossSquare :: later.map SearchState.solution).IsChain (Falls square.distance) := by
  have hfall : Falls square.distance acrossSquare aroundSquare :=
    ⟨5.0, 4.0, rfl, rfl, rfl⟩
  have hrests : (engine square.distance {}).Rests ⟨aroundSquare, (), ()⟩ := ⟨_, rfl, rfl⟩
  cases later with
  | nil => exact List.isChain_singleton _
  | cons s rest =>
    obtain ⟨rfl, hrest⟩ := List.cons_prefix_cons.mp (square_trail.isPrefix_of_rests hrests h)
    obtain rfl := List.prefix_nil.mp hrest
    exact List.isChain_pair.mpr hfall

/-- A run that shortens the tour along the diagonals once. -/
theorem rounded_descent_square :
    ∃ run, acrossSquare.shorten square.distance {} = .ok run ∧ run.record.improvements = 1 ∧
      ¬ Returns square.distance {} acrossSquare ∧
      run.record.history.Pairwise fun x y => Gain.lt y x = true := by
  have at_run : ∀ run, acrossSquare.shorten square.distance {} = .ok run →
      ¬ Returns square.distance {} acrossSquare ∧
      run.record.history.Pairwise fun x y => Gain.lt y x = true := by
    intro run hrun
    have hmetric : ∀ a ∈ acrossSquare.stops, ∀ b ∈ acrossSquare.stops, ∃ d,
        square.distance a b = .ok d := by
      intro a ha b hb
      simp only [acrossSquare, List.mem_cons, List.not_mem_nil, or_false] at ha hb
      rcases ha with rfl | rfl | rfl | rfl <;> rcases hb with rfl | rfl | rfl | rfl <;>
        exact ⟨_, rfl⟩
    obtain ⟨-, -, hfalls⟩ := rounded_descent hmetric (by decide) {}
    obtain ⟨hreturns, hruns⟩ := hfalls fun later last h => square_falls h
    obtain ⟨tours, -, -, hhistory⟩ := hruns run hrun
    exact ⟨hreturns, hhistory⟩
  refine ⟨_, rfl, rfl, ?_⟩
  exact at_run _ rfl

/-! ## A near tie -/

/-- Distances between four stops, as far both ways. The two ways from stop 0 to stop 3 through the
other two are as long as each other, but `0.1 + 0.2 - 0.1 - 0.2` is above zero in double
precision. -/
def nearTie : DistanceTable Float :=
  ⟨4, #[0, 0.1, 0.1, 0.1, 0.1, 0, 0.1, 0.2, 0.1, 0.1, 0, 0.2, 0.1, 0.2, 0.2, 0]⟩

/-- The tour through the four stops in order. -/
def inOrder : Tour Nat := ⟨[0, 1, 2, 3]⟩

/-- The tour that the exchange of its first and third edge leads to. -/
def exchanged : Tour Nat := ⟨[0, 2, 1, 3]⟩

theorem nearTie_distance : ∀ a ∈ inOrder.stops, ∀ b ∈ inOrder.stops, ∃ d,
    nearTie.distance a b = .ok d ∧ nearTie.distance b a = .ok d ∧ d.isFinite = true ∧ 0 ≤ d := by
  intro a ha b hb
  simp only [inOrder, List.mem_cons, List.not_mem_nil, or_false] at ha hb
  rcases ha with rfl | rfl | rfl | rfl <;> rcases hb with rfl | rfl | rfl | rfl <;>
    exact ⟨_, rfl, rfl, rfl, by decide +kernel⟩

theorem nearTie_there (config : SearchConfig) :
    (engine nearTie.distance config).Trail ⟨inOrder, (), ()⟩ [⟨exchanged, (), ()⟩]
      ⟨exchanged, (), ()⟩ := by
  obtain ⟨strategy, cap⟩ := config
  cases strategy with
  | first => exact .single rfl rfl rfl
  | best => exact .single rfl rfl rfl

theorem nearTie_back (config : SearchConfig) :
    (engine nearTie.distance config).Trail ⟨exchanged, (), ()⟩ [⟨inOrder, (), ()⟩]
      ⟨inOrder, (), ()⟩ := by
  obtain ⟨strategy, cap⟩ := config
  cases strategy with
  | first => exact .single rfl rfl rfl
  | best => exact .single rfl rfl rfl

theorem nearTie_returns (config : SearchConfig) : Returns nearTie.distance config inOrder :=
  ⟨_, _, (nearTie_there config).append (nearTie_back config), by decide⟩

/-- And it goes nowhere else. -/
theorem nearTie_keeps {config : SearchConfig} {later : List (SearchState Unit Unit (Tour Nat))}
    {last : SearchState Unit Unit (Tour Nat)}
    (h : (engine nearTie.distance config).Trail ⟨inOrder, (), ()⟩ later last) :
    ∀ s ∈ inOrder :: later.map SearchState.solution, s = inOrder ∨ s = exchanged := by
  have hkept := h.keeps (I := fun s => s = inOrder ∨ s = exchanged) ?_ (.inl rfl)
  · intro s hs
    have hstates : s ∈ ((⟨inOrder, (), ()⟩ : SearchState Unit Unit (Tour Nat)) :: later).map
        SearchState.solution := hs
    obtain ⟨state, hstate, rfl⟩ := List.mem_map.mp hstates
    exact hkept state hstate
  · rintro ⟨s, _, _⟩ pass hstate hpass -
    rcases hstate with rfl | rfl
    · rw [(nearTie_there config).eq_of_single hpass]
      exact .inr rfl
    · rw [(nearTie_back config).eq_of_single hpass]
      exact .inl rfl

theorem nearTie_length : inOrder.length nearTie.distance = .ok 0.5 ∧
    exchanged.length nearTie.distance = .ok 0.5 := ⟨rfl, rfl⟩

/-- Whatever a run records, it is the length that both tours have. -/
theorem nearTie_history {config : SearchConfig} {run : TourRun Nat Float}
    (h : inOrder.shorten nearTie.distance config = .ok run) :
    ∀ length ∈ run.record.history, length = 0.5 := by
  obtain ⟨tours, hwalked⟩ := shorten_walked h
  obtain ⟨later, last, htrail, rfl⟩ := hwalked.trail
  obtain ⟨hinOrder, hexchanged⟩ := nearTie_length
  intro length hlength
  obtain ⟨s, hs, hsame⟩ := Checked.exists_of_mem_mapM hwalked.history hlength
  rcases nearTie_keeps htrail s hs with rfl | rfl
  · rw [hinOrder, Except.ok.injEq] at hsame
    exact hsame.symm
  · rw [hexchanged, Except.ok.injEq] at hsame
    exact hsame.symm

theorem nearTie_faultless : ∀ e, ¬ MayFail nearTie.distance inOrder.stops e := by
  refine not_mayFail_double (t := inOrder) (fun a ha b hb => ?_) (by decide)
  obtain ⟨d, hd, -⟩ := nearTie_distance a ha b hb
  exact ⟨d, hd⟩

/-- Distances that are the same both ways, finite and not below zero, between which a search goes
round for ever. Each of its moves scores as an improvement, from one to the other of two tours of
the same computed length, so no run from the first one converges, with either strategy and with any
cap, and an uncapped run does not come to an end but for the count of its passes. -/
theorem near_tie_goes_round :
    (∀ a ∈ inOrder.stops, ∀ b ∈ inOrder.stops, ∃ d, nearTie.distance a b = .ok d ∧
      nearTie.distance b a = .ok d ∧ d.isFinite = true ∧ 0 ≤ d) ∧
    inOrder.length nearTie.distance = .ok 0.5 ∧ exchanged.length nearTie.distance = .ok 0.5 ∧
    ∀ config : SearchConfig,
      (engine nearTie.distance config).Trail ⟨inOrder, (), ()⟩
        [⟨exchanged, (), ()⟩, ⟨inOrder, (), ()⟩] ⟨inOrder, (), ()⟩ ∧
      (config.cap = 0 → inOrder.shorten nearTie.distance config = .error (.overflow .add)) ∧
      (config.cap ≠ 0 → ∃ run, inOrder.shorten nearTie.distance config = .ok run ∧
        run.record.converged = false ∧ run.record.improvements = config.cap ∧
        ∀ length ∈ run.record.history, length = 0.5) := by
  obtain ⟨hinOrder, hexchanged⟩ := nearTie_length
  refine ⟨nearTie_distance, hinOrder, hexchanged, ?_⟩
  intro config
  refine ⟨?_, ?_, ?_⟩
  · exact (nearTie_there config).append (nearTie_back config)
  · intro hcap
    exact shorten_of_returns_uncapped nearTie_faultless hcap (nearTie_returns config)
  · intro hcap
    obtain ⟨run, hrun, hconverged, himprovements⟩ :=
      shorten_of_returns_capped nearTie_faultless hcap (nearTie_returns config)
    exact ⟨run, hrun, hconverged, himprovements, nearTie_history hrun⟩

end Doubles

end Tour

end Descent
