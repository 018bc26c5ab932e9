import Descent.Arithmetic.Binary
import Descent.Proofs.Search.Transcript
import Descent.Proofs.Tour.Optimum

/-!
# Every tour can be searched

Whatever tour a search starts from, it comes to rearrangements of it that start at the same stop.
On each of them all moves that are listed can be scored and are accepted when they are made, so a
run fails in no other way than by an overflow: `tour_search_safe`. A move that does not fit a tour
is rejected and leaves it alone.
-/

namespace Descent

open Checked (Ends)

/-! ## Distances -/

/-- Distances whose sums and differences fail by an overflow only. -/
structure Distance.OnlyOverflows (D : Type) [Distance D] : Prop where
  add : ∀ x y : D, Ends (Distance.add x y) (fun _ => True) Fault.IsOverflow
  sub : ∀ x y : D, Ends (Distance.sub x y) (fun _ => True) Fault.IsOverflow

theorem Signed.onlyOverflows (bits : Nat) : Distance.OnlyOverflows (Signed bits) where
  add x y := (add_ends x y).mono fun _ _ _ => trivial
  sub x y := (sub_ends x y).mono fun _ _ _ => trivial

theorem Binary.onlyOverflows_double : Distance.OnlyOverflows Float where
  add _ _ := trivial
  sub _ _ := trivial

theorem Binary.onlyOverflows_single : Distance.OnlyOverflows Float32 where
  add _ _ := trivial
  sub _ _ := trivial

/-- A metric that has a distance for any two of some stops. -/
def Metric.TotalOn {V D : Type} (distance : Metric V D) (stops : List V) : Prop :=
  ∀ a ∈ stops, ∀ b ∈ stops, ∃ d, distance a b = .ok d

namespace Tour

variable {V : Type}

/-! ## Rearrangements -/

/-- A rearrangement of a tour that starts at the same stop. -/
structure Rearranged (t r : Tour V) : Prop where
  perm : r.stops.Perm t.stops
  start : r.stops[0]? = t.stops[0]?

theorem Rearranged.refl (t : Tour V) : Rearranged t t := ⟨.refl _, rfl⟩

theorem Rearranged.trans {t r q : Tour V} (h : Rearranged t r) (h' : Rearranged r q) :
    Rearranged t q := ⟨h'.perm.trans h.perm, h'.start.trans h.start⟩

theorem Rearranged.size {t r : Tour V} (h : Rearranged t r) : r.size = t.size := h.perm.length_eq

/-- A segment behind the first stop can be turned around without moving it. -/
theorem Rearranged.turned (t : Tour V) {s e : Nat} (hs : 0 < s) (hse : s ≤ e + 1) (he : e < t.size) :
    Rearranged t (t.turned s e) := by
  refine ⟨t.turned_perm hse, ?_⟩
  have hfirst : 0 < (t.stops.take s).length := by
    rw [List.length_take]
    exact Nat.lt_min.mpr ⟨hs, Nat.zero_lt_of_lt he⟩
  unfold Tour.turned
  rw [List.getElem?_append_left hfirst, List.getElem?_take_of_lt hs]

variable {D : Type} [Distance D] {distance : Metric V D} {config : SearchConfig} {t r : Tour V}
  {m : TwoEdgeMove}

theorem Rearranged.of_mem_all (hm : m ∈ TwoEdgeMove.all t.size) :
    Rearranged t (t.turned (m.first + 1) m.second) := by
  obtain ⟨hapart, hsecond, -⟩ := TwoEdgeMove.mem_all.mp hm
  exact .turned t (Nat.succ_pos _) (by omega) hsecond

theorem search_rearranged {state : SearchState Unit Unit (Tour V)}
    {pass : Pass Unit Unit (Tour V) Unit TwoEdgeMove}
    (h : (engine distance config).search state = .ok pass) :
    Rearranged state.solution pass.state.solution := by
  obtain ⟨hidle, hmoved⟩ := (search_ends state).value h
  cases himproved : pass.improved with
  | false =>
    rw [hidle himproved]
    exact .refl _
  | true =>
    obtain ⟨m, gain, hexchanged⟩ := hmoved himproved
    rw [hexchanged.turned]
    exact .of_mem_all hexchanged.listed

theorem trail_rearranged {start last : SearchState Unit Unit (Tour V)}
    {later : List (SearchState Unit Unit (Tour V))}
    (h : (engine distance config).Trail start later last) :
    ∀ s ∈ start :: later, Rearranged start.solution s.solution :=
  h.keeps (I := Rearranged start.solution)
    (fun _ _ hs hpass _ => hs.trans (search_rearranged hpass)) (.refl _)

/-! ## Moves -/

/-- A move that is made is never rejected in a pass over a tour. -/
theorem search_accepts {state : SearchState Unit Unit (Tour V)}
    {pass : Pass Unit Unit (Tour V) Unit TwoEdgeMove} {e : Unit} {accepted : Bool}
    (h : (engine distance config).search state = .ok pass)
    (hevent : .committed e m accepted ∈ pass.events) : accepted = true := by
  obtain ⟨last, calls, htold⟩ := Engine.search_told h
  obtain ⟨s, r, hm, hcommit⟩ := htold.generated hevent
  exact (Prod.mk.inj ((commit_ends hm).value hcommit)).1

/-- A move that does not fit a tour is rejected. -/
theorem commit_of_unfit (hnext : m.first + 1 < Position.bound)
    (hunfit : m.first + 1 > m.second ∨ m.second ≥ t.size) : t.commit m = .ok (false, t) := by
  unfold commit
  rw [Position.add_of_lt hnext, Checked.ok_bind, if_pos (by simpa using hunfit)]
  rfl

/-- A tour on which a search can go on. Its moves can be scored and are accepted, and so can it be
measured, unless there is an overflow. -/
structure Searchable (distance : Metric V D) (config : SearchConfig) (t : Tour V) : Prop where
  measured : Ends (t.length distance) (fun _ => True) Fault.IsOverflow
  scored : ∀ m ∈ TwoEdgeMove.all t.size,
    Ends (t.saving distance m) (fun _ => True) Fault.IsOverflow
  accepted : ∀ m ∈ TwoEdgeMove.all t.size,
    Ends (t.commit m) (fun result => result.1 = true ∧ Rearranged t result.2) t.TooLong
  searched : Ends ((engine distance config).search ⟨t, (), ()⟩)
    (fun pass => Rearranged t pass.state.solution ∧
      ∀ e m accepted, .committed e m accepted ∈ pass.events → accepted = true) Fault.IsOverflow

theorem MayFail.isOverflow (hD : Distance.OnlyOverflows D) {stops : List V}
    (htotal : distance.TotalOn stops) {e : Fault} (h : MayFail distance stops e) :
    e.IsOverflow := by
  rcases h with ⟨a, ha, b, hb, herror⟩ | ⟨x, y, hadd | hsub⟩ | ⟨-, he⟩
  · obtain ⟨d, hd⟩ := htotal a ha b hb
    rw [hd] at herror
    cases herror
  · exact (hD.add x y).fault hadd
  · exact (hD.sub x y).fault hsub
  · exact ⟨.add, he⟩

theorem searchable (hD : Distance.OnlyOverflows D) (config : SearchConfig)
    (htotal : distance.TotalOn t.stops) : Searchable distance config t where
  measured := (length_mayFail distance t).weaken fun _ => MayFail.isOverflow hD htotal
  scored m hm := (saving_ends hm).weaken fun _ => MayFail.isOverflow hD htotal
  accepted m hm := (commit_ends hm).mono fun result _ hresult => by
    rw [hresult]
    exact ⟨rfl, .of_mem_all hm⟩
  searched := by
    have hends : Ends ((engine distance config).search ⟨t, (), ()⟩) _ Fault.IsOverflow :=
      (search_ends ⟨t, (), ()⟩).weaken fun _ he => MayFail.isOverflow hD htotal he
    exact hends.mono fun pass hpass _ =>
      ⟨search_rearranged hpass, fun _ _ _ hevent => search_accepts hpass hevent⟩

/-! ## Runs -/

theorem Walked.rearranged {run : TourRun V D} {tours : List (Tour V)}
    (h : Walked distance config t run tours) : ∀ r ∈ t :: tours, Rearranged t r := by
  obtain ⟨later, last, htrail, rfl⟩ := h.trail
  have hstates := trail_rearranged htrail
  rw [← List.forall_mem_map (f := SearchState.solution)] at hstates
  exact hstates

/-- A search from any tour whose stops have distances comes only to rearrangements that start at the
same stop, with each of which it can go on. A run ends at one of them, unless there is an overflow.
Outside a run, a move whose second edge does not lie past its first one on the tour is rejected and
leaves the tour alone. -/
theorem tour_search_safe (hD : Distance.OnlyOverflows D) (htotal : distance.TotalOn t.stops)
    (config : SearchConfig) :
    (∀ later last, (engine distance config).Trail ⟨t, (), ()⟩ later last →
      ∀ state ∈ (⟨t, (), ()⟩ : SearchState Unit Unit (Tour V)) :: later,
        Rearranged t state.solution ∧ state.solution.size = t.size ∧
          Searchable distance config state.solution) ∧
    Ends (t.shorten distance config)
      (fun run => Rearranged t run.tour ∧ ∃ tours, Walked distance config t run tours ∧
        ∀ r ∈ tours, Rearranged t r) Fault.IsOverflow ∧
    ∀ (r : Tour V) (m : TwoEdgeMove), m.first + 1 < Position.bound →
      m.first + 1 > m.second ∨ m.second ≥ r.size → r.commit m = .ok (false, r) := by
  refine ⟨fun later last htrail state hstate => ?_, ?_,
    fun r m hnext hunfit => commit_of_unfit hnext hunfit⟩
  · have hrearranged := trail_rearranged htrail state hstate
    refine ⟨hrearranged, hrearranged.size, searchable hD config fun a ha b hb => ?_⟩
    exact htotal a (hrearranged.perm.mem_iff.mp ha) b (hrearranged.perm.mem_iff.mp hb)
  · have hends := (shorten_mayFail distance config t).weaken fun e he =>
      he.elim (MayFail.isOverflow hD htotal) fun hcount => ⟨.add, hcount⟩
    refine hends.mono fun run hrun _ => ?_
    obtain ⟨tours, hwalked⟩ := shorten_walked hrun
    have hrearranged := hwalked.rearranged
    exact ⟨hrearranged _ (List.mem_of_getLast? hwalked.last), tours, hwalked,
      fun r hr => hrearranged r (List.mem_cons_of_mem _ hr)⟩

/-- The way through the town is rearranged four times. A move that ends behind its last stop is
rejected, and so is one on a tour of two stops. -/
theorem tour_search_safe_stroll :
    ∃ pass run, (engine blocks {}).search ⟨stroll, (), ()⟩ = .ok pass ∧ pass.improved = true ∧
      pass.state.solution ≠ stroll ∧ Rearranged stroll pass.state.solution ∧
      Searchable blocks {} pass.state.solution ∧
      stroll.shorten blocks {} = .ok run ∧ run.record.improvements = 4 ∧
      Rearranged stroll run.tour ∧ stroll.commit ⟨1, 6⟩ = .ok (false, stroll) ∧
      (⟨[(0, 0), (2, 2)]⟩ : Tour (Int × Int)).commit ⟨0, 2⟩ = .ok (false, ⟨[(0, 0), (2, 2)]⟩) := by
  have htotal : blocks.TotalOn stroll.stops := by
    have hvalues : ∀ a ∈ stroll.stops, ∀ b ∈ stroll.stops,
        (blocks a b).toOption.isSome = true := by decide
    intro a ha b hb
    cases hab : blocks a b with
    | error e =>
      have hvalue := hvalues a ha b hb
      rw [hab] at hvalue
      cases hvalue
    | ok d => exact ⟨d, rfl⟩
  obtain ⟨htrail, hrun, hunfit⟩ := tour_search_safe (Signed.onlyOverflows 64) htotal {}
  have at_pass : ∀ pass, (engine blocks {}).search ⟨stroll, (), ()⟩ = .ok pass →
      pass.improved = true →
      Rearranged stroll pass.state.solution ∧ Searchable blocks {} pass.state.solution := by
    intro pass hpass himproved
    obtain ⟨hrearranged, -, hsearchable⟩ :=
      htrail _ _ (.pass hpass himproved .stay) pass.state (by simp)
    exact ⟨hrearranged, hsearchable⟩
  obtain ⟨hrearranged, hsearchable⟩ := at_pass _ rfl rfl
  exact ⟨_, _, rfl, rfl, by decide, hrearranged, hsearchable, rfl, rfl, (hrun.value rfl).1,
    hunfit stroll ⟨1, 6⟩ (by decide) (.inr (by decide)),
    hunfit _ ⟨0, 2⟩ (by decide) (.inr (by decide))⟩

end Tour

end Descent
