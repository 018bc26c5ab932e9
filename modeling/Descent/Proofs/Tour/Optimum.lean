import Descent.Proofs.Comparison
import Descent.Proofs.Tour.Moves

/-!
# A converged run ends at a 2-optimal tour

A run that has converged ended with a pass that scored every move of the tour, none of them as an
improvement. The moves turn only some segments around: a segment at the start of the tour is the
rest of another one, which a move turns around instead, and to turn a single stop around, or all
stops but one, joins the same stops again. So if distances are the same both ways, no segment at
all can be turned around to make the tour shorter.
-/

namespace Descent

open Checked (Ends)

namespace Tour

section Segments

variable {V : Type} {bits : Nat} {distance : Metric V (Signed bits)} {t : Tour V} {s e : Nat}
  {a b c d : V} {n : Int}

/-! ## Segments that no move turns around -/

/-- Where a segment at the start of a tour meets the rest, which is the segment behind it. -/
theorem Corners.swap (h : t.Corners (e + 1) (t.size - 1) a b c d) (he : e + 1 < t.size) :
    t.Corners 0 e c d a b := by
  have hbefore : e + 1 + t.size - 1 = e + t.size := by omega
  have hend : t.size - 1 + 1 = 0 + t.size := by omega
  obtain ⟨ha, hb, hc, hd⟩ := h
  rw [hbefore, stopAt_add_size] at ha
  rw [hend, stopAt_add_size] at hd
  rw [← Nat.zero_add (t.size - 1), ← Nat.add_sub_assoc (by omega)] at hc
  exact ⟨hc, hd, ha, hb⟩

/-- A segment of one stop, and one that leaves out one stop, meet the rest in one stop. -/
theorem Corners.eq_or_eq (h : t.Corners s e a b c d) (hone : s = e ∨ e + 2 = s + t.size) :
    b = c ∨ a = d := by
  rcases hone with rfl | hone
  · left
    have hlast := h.last
    rw [h.first, Except.ok.injEq] at hlast
    exact hlast
  · right
    have hbehind := h.behind
    have hsame : s + t.size - 1 = e + 1 := by omega
    rw [← hsame, h.before, Except.ok.injEq] at hbehind
    exact hbehind

/-- Turning a segment around that meets the rest in one stop changes no total. -/
theorem Corners.total_turned_one (h : t.Corners s e a b c d) (hs : s ≤ e) (he : e < t.size)
    (hrest : 0 < s ∨ e + 1 < t.size) (hsymm : distance.SymmetricOn t.stops)
    (htotal : t.total distance = .ok n) (hone : b = c ∨ a = d) :
    (t.turned s e).total distance = .ok n := by
  obtain ⟨u, v, hu, hv, hturned⟩ := h.total_turned hs he hrest hsymm htotal
  rcases hone with rfl | rfl
  · rw [hturned u v hu hv, Except.ok.injEq]
    omega
  · -- The same two edges are gone along the other way.
    have hc := mem_of_stopAt h.last
    have ha := mem_of_stopAt h.before
    have hb := mem_of_stopAt h.first
    rw [hsymm a ha b hb] at hu
    rw [hsymm c hc a ha] at hv
    rw [hturned v u hv hu, Except.ok.injEq]
    omega

/-! ## Tours without a saving -/

/-- A tour all of whose moves can be scored, and none of which saves anything. -/
def NoSaving (distance : Metric V (Signed bits)) (t : Tour V) : Prop :=
  ∀ m ∈ TwoEdgeMove.all t.size, ∃ gain, t.saving distance m = .ok gain ∧ gain.val ≤ 0

/-- A segment at the start is turned around instead of the one behind it. -/
theorem NoSaving.le_total_turned_start (h : NoSaving distance t)
    (hsymm : distance.SymmetricOn t.stops) (htotal : t.total distance = .ok n) (hmore : 0 < e)
    (he : e + 2 < t.size) : ∃ k, (t.turned 0 e).total distance = .ok k ∧ n ≤ k := by
  have hm : ⟨e, t.size - 1⟩ ∈ TwoEdgeMove.all t.size :=
    TwoEdgeMove.mem_all.mpr ⟨by simp; omega, by simp; omega, by simp; omega⟩
  obtain ⟨gain, hgain, hno⟩ := h _ hm
  obtain ⟨a, b, c, d, u, v, x, y, (hcorners : t.Corners (e + 1) (t.size - 1) a b c d),
    hu, hv, hx, hy, hgain⟩ := saving_eq_ok hgain
  have hstart := hcorners.swap (by omega)
  obtain ⟨v', u', hv', hu', hturned⟩ :=
    hstart.total_turned (Nat.zero_le e) (by omega) (.inr (by omega)) hsymm htotal
  have ha := mem_of_stopAt hcorners.before
  have hb := mem_of_stopAt hcorners.first
  have hc := mem_of_stopAt hcorners.last
  have hd := mem_of_stopAt hcorners.behind
  rw [hsymm a ha c hc] at hx
  rw [hsymm b hb d hd] at hy
  rw [hu, Except.ok.injEq] at hu'
  rw [hv, Except.ok.injEq] at hv'
  refine ⟨_, hturned x y hx hy, ?_⟩
  rw [← hu', ← hv']
  omega

/-- No segment of such a tour can be turned around to make it shorter. -/
theorem NoSaving.le_total_turned (h : NoSaving distance t) (hsymm : distance.SymmetricOn t.stops)
    (htotal : t.total distance = .ok n) (hs : s ≤ e) (he : e < t.size) :
    ∃ k, (t.turned s e).total distance = .ok k ∧ n ≤ k := by
  by_cases hall : s = 0 ∧ e + 1 = t.size
  · obtain ⟨rfl, hend⟩ := hall
    exact ⟨n, total_turned_all hend hsymm htotal, Int.le_refl n⟩
  by_cases hone : s = e ∨ e + 2 = s + t.size
  · obtain ⟨a, b, c, d, hcorners⟩ := exists_corners (s := s) he
    exact ⟨n, hcorners.total_turned_one hs he (by omega) hsymm htotal (hcorners.eq_or_eq hone),
      Int.le_refl n⟩
  cases s with
  | zero => exact h.le_total_turned_start hsymm htotal (by omega) (by omega)
  | succ first =>
    have hm : ⟨first, e⟩ ∈ TwoEdgeMove.all t.size :=
      TwoEdgeMove.mem_all.mpr ⟨by simp; omega, he, by simp; omega⟩
    obtain ⟨gain, hgain, hno⟩ := h _ hm
    exact ⟨_, total_of_saving hsymm hs he htotal hgain, by omega⟩

end Segments

section Runs

variable {V D : Type} [Distance D] {distance : Metric V D} {config : SearchConfig} {t : Tour V}
  {run : TourRun V D}

/-! ## Converged runs -/

/-- What any tour run leaves: the stops that it was given in some order, and the length of the tour
that it reports. If it has converged, then no move of that tour scores as an improvement. -/
theorem shorten_ends (h : t.shorten distance config = .ok run) :
    run.tour.stops.Perm t.stops ∧ run.tour.length distance = .ok run.length ∧
      (run.record.converged = true → ∀ m ∈ TwoEdgeMove.all run.tour.size, ∃ gain,
        run.tour.saving distance m = .ok gain ∧ Gain.improves gain = false) := by
  rw [shorten_eq] at h
  obtain ⟨done, hdone, h⟩ := Checked.bind_ok_iff.mp h
  obtain ⟨length, hlength, h⟩ := Checked.bind_ok_iff.mp h
  cases h
  obtain ⟨hperm, hend⟩ := Engine.record_ends (I := fun s => s.stops.Perm t.stops)
    (fun state pass hstate hpass => (search_perm hpass).trans hstate) (.refl _) hdone
  refine ⟨hperm, hlength, fun hconverged => ?_⟩
  obtain ⟨before, pass, -, hpass, hidle, hstate⟩ := hend hconverged
  have hsame := ((search_ends before).value hpass).1 hidle
  have hunimproving := search_unimproving hpass hidle
  rw [← hsame, ← hstate] at hunimproving
  exact hunimproving

end Runs

section Words

variable {V : Type} {bits : Nat} {distance : Metric V (Signed bits)} {config : SearchConfig}
  {t : Tour V} {run : TourRun V (Signed bits)}

/-- If a run from any tour has converged, and distances are the same both ways, then the tour that
it leaves has the reported length, and no segment of it, wherever it starts and ends, can be turned
around to make it shorter. -/
theorem converged_tour_optimal (hsymm : distance.SymmetricOn t.stops)
    (h : t.shorten distance config = .ok run) (hconverged : run.record.converged = true) :
    run.tour.stops.Perm t.stops ∧ run.tour.length distance = .ok run.length ∧
      ∀ s e, s ≤ e → e < run.tour.size → ∃ r n, run.tour.reverse s e = .ok r ∧
        r.total distance = .ok n ∧ run.length.val ≤ n ∧
        Ends (r.length distance) (fun length => length.val = n) Fault.IsOverflow := by
  obtain ⟨hperm, hlength, hsettled⟩ := shorten_ends h
  have hno : NoSaving distance run.tour := by
    intro m hm
    obtain ⟨gain, hgain, himproves⟩ := hsettled hconverged m hm
    exact ⟨gain, hgain, Signed.not_lt_iff.mp himproves⟩
  refine ⟨hperm, hlength, fun s e hs he => ?_⟩
  obtain ⟨n, htotal, hn⟩ :=
    hno.le_total_turned (hsymm.of_perm hperm) (total_of_length hlength) hs he
  exact ⟨_, n, reverse_of_le (Nat.le_succ_of_le hs) he, htotal, hn, length_ends_of_total htotal⟩

/-- Crossings of a town whose streets form a square grid, and the way from one to another. -/
def blocks : Metric (Int × Int) (Signed 64) := fun a b =>
  Signed.ofResult .add ((a.1 - b.1).natAbs + (a.2 - b.2).natAbs)

theorem blocks_symmetricOn (stops : List (Int × Int)) : blocks.SymmetricOn stops := by
  intro a _ b _
  have hways : ((a.1 - b.1).natAbs + (a.2 - b.2).natAbs : Int) =
      (b.1 - a.1).natAbs + (b.2 - a.2).natAbs := by omega
  unfold blocks
  rw [hways]

/-- A way through six crossings, one of them twice, that half its length is saved on. -/
def stroll : Tour (Int × Int) := ⟨[(0, 0), (2, 2), (1, 0), (0, 2), (3, 1), (2, 2)]⟩

/-- The first four stops of the final tour cannot be turned around either to make it shorter. -/
theorem converged_tour_optimal_stroll :
    ∃ run, stroll.shorten blocks { strategy := .best } = .ok run ∧
      run.record.converged = true ∧ run.record.improvements = 3 ∧ run.length.val = 10 ∧
      run.tour.stops = [(0, 0), (0, 2), (2, 2), (2, 2), (3, 1), (1, 0)] ∧
      ∃ r n, run.tour.reverse 0 3 = .ok r ∧ r.total blocks = .ok n ∧ run.length.val ≤ n := by
  have at_run : ∀ run, stroll.shorten blocks { strategy := .best } = .ok run →
      run.record.converged = true → 3 < run.tour.size →
      ∃ r n, run.tour.reverse 0 3 = .ok r ∧ r.total blocks = .ok n ∧ run.length.val ≤ n := by
    intro run hrun hconverged hsize
    obtain ⟨-, -, hoptimal⟩ :=
      converged_tour_optimal (blocks_symmetricOn stroll.stops) hrun hconverged
    obtain ⟨r, n, hr, htotal, hn, -⟩ := hoptimal 0 3 (by decide) hsize
    exact ⟨r, n, hr, htotal, hn⟩
  refine ⟨_, rfl, rfl, rfl, rfl, rfl, ?_⟩
  exact at_run _ rfl rfl (by decide)

end Words

end Tour

end Descent
