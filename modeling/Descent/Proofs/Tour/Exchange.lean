import Descent.Proofs.Tour.Edges
import Descent.Tour.TwoEdge

/-!
# Turning a segment around

A segment of a tour and the stops outside it are two stretches of the tour, joined by two edges.
Turning the segment around keeps the steps of both stretches, if distances are the same both ways,
and joins them by two other edges. A move turns a segment around, and what it saves is what the
tour gets shorter by: `total_of_saving`.
-/

namespace Descent

theorem Position.eq_of_add {i j k : Nat} (h : Position.add i j = .ok k) : k = i + j :=
  ((add_ends i j).value h).1

namespace Tour

section Segments

variable {V : Type} {t r : Tour V} {s e i : Nat} {a b c d v : V}

/-! ## Stops -/

theorem stopAt_eq_ok_iff : t.stopAt i = .ok v ↔ t.stops[i % t.size]? = some v := by
  unfold stopAt
  by_cases hsize : t.size = 0
  · have hstops : t.stops = [] := List.eq_nil_of_length_eq_zero hsize
    simp [hsize, hstops]
  · rw [if_neg hsize, Position.entry_eq_ok_iff]

/-- A tour with a stop has one at every position. -/
theorem exists_stopAt (h : 0 < t.size) (i : Nat) : ∃ v, t.stopAt i = .ok v := by
  have hlt : i % t.size < t.stops.length := Nat.mod_lt i h
  refine ⟨t.stops[i % t.size], ?_⟩
  rw [stopAt_eq_ok_iff, List.getElem?_eq_getElem hlt]

theorem mem_of_stopAt (h : t.stopAt i = .ok v) : v ∈ t.stops :=
  List.mem_of_getElem? (stopAt_eq_ok_iff.mp h)

theorem stopAt_add_size (t : Tour V) (i : Nat) : t.stopAt (i + t.size) = t.stopAt i := by
  unfold stopAt
  rw [Nat.add_mod_right]

/-! ## Segments -/

/-- The stops from position `s` to position `e`. -/
def inside (t : Tour V) (s e : Nat) : List V := (t.stops.drop s).take (e + 1 - s)

/-- The stops that are not on the segment from `s` to `e`, from behind its end on. -/
def outside (t : Tour V) (s e : Nat) : List V := t.stops.drop (e + 1) ++ t.stops.take s

/-- The tour whose segment from `s` to `e` is turned around. -/
def turned (t : Tour V) (s e : Nat) : Tour V :=
  ⟨t.stops.take s ++ ((t.inside s e).reverse ++ t.stops.drop (e + 1))⟩

theorem reverse_of_le (hs : s ≤ e + 1) (he : e + 1 ≤ t.size) :
    t.reverse s e = .ok (t.turned s e) := by
  unfold reverse turned inside
  rw [if_pos ⟨hs, he⟩]
  simp only [List.append_assoc]

theorem stops_eq_inside (t : Tour V) (hs : s ≤ e + 1) :
    t.stops = t.stops.take s ++ (t.inside s e ++ t.stops.drop (e + 1)) := by
  have hrest : t.stops.drop (e + 1) = (t.stops.drop s).drop (e + 1 - s) := by
    rw [List.drop_drop, Nat.add_sub_cancel' hs]
  rw [inside, hrest, List.take_append_drop, List.take_append_drop]

theorem turned_perm (t : Tour V) (hs : s ≤ e + 1) : (t.turned s e).stops.Perm t.stops := by
  have hturn : (t.inside s e).reverse.Perm (t.inside s e) := List.reverse_perm _
  have hperm := (hturn.append_right (t.stops.drop (e + 1))).append_left (t.stops.take s)
  rwa [← t.stops_eq_inside hs] at hperm

/-- A tour is its segment and then the stops outside it, up to where it starts. -/
theorem edges_perm_inside (t : Tour V) (hs : s ≤ e + 1) :
    t.edges.Perm (⟨t.inside s e ++ t.outside s e⟩ : Tour V).edges := by
  have hrotate := edges_rotate (t.stops.take s) (t.inside s e ++ t.stops.drop (e + 1))
  rwa [← t.stops_eq_inside hs, List.append_assoc] at hrotate

theorem edges_perm_turned (t : Tour V) (s e : Nat) :
    (t.turned s e).edges.Perm (⟨(t.inside s e).reverse ++ t.outside s e⟩ : Tour V).edges := by
  have hrotate := edges_rotate (t.stops.take s) ((t.inside s e).reverse ++ t.stops.drop (e + 1))
  rwa [List.append_assoc] at hrotate

/-! ## Corners -/

/-- The stops where a segment meets the rest of the tour: an edge leads from `a` to its first stop
`b`, and one from its last stop `c` to `d`. -/
structure Corners (t : Tour V) (s e : Nat) (a b c d : V) : Prop where
  before : t.stopAt (s + t.size - 1) = .ok a
  first : t.stopAt s = .ok b
  last : t.stopAt e = .ok c
  behind : t.stopAt (e + 1) = .ok d

theorem exists_corners (he : e < t.size) : ∃ a b c d, t.Corners s e a b c d := by
  have hsize : 0 < t.size := Nat.zero_lt_of_lt he
  obtain ⟨a, ha⟩ := exists_stopAt hsize (s + t.size - 1)
  obtain ⟨b, hb⟩ := exists_stopAt hsize s
  obtain ⟨c, hc⟩ := exists_stopAt hsize e
  obtain ⟨d, hd⟩ := exists_stopAt hsize (e + 1)
  exact ⟨a, b, c, d, ha, hb, hc, hd⟩

namespace Corners

variable (h : t.Corners s e a b c d) (hs : s ≤ e) (he : e < t.size)

include h hs he

theorem head?_inside : (t.inside s e).head? = some b := by
  have hb := stopAt_eq_ok_iff.mp h.first
  rw [Nat.mod_eq_of_lt (by omega)] at hb
  rw [inside, List.head?_take, if_neg (by omega), List.head?_drop, hb]

theorem getLast?_inside : (t.inside s e).getLast? = some c := by
  have hc := stopAt_eq_ok_iff.mp h.last
  rw [Nat.mod_eq_of_lt he] at hc
  have hlast : s + (e + 1 - s - 1) = e := by omega
  rw [inside, List.getLast?_take, if_neg (by omega), List.getElem?_drop, hlast, hc]
  rfl

variable (hrest : 0 < s ∨ e + 1 < t.size)

include hrest

omit hs in
theorem head?_outside : (t.outside s e).head? = some d := by
  have hd := stopAt_eq_ok_iff.mp h.behind
  rw [outside, List.head?_append, List.head?_drop, List.head?_take]
  by_cases hend : e + 1 < t.size
  · rw [Nat.mod_eq_of_lt hend] at hd
    rw [hd]
    rfl
  · have hsize : t.size = e + 1 := by omega
    rw [hsize, Nat.mod_self] at hd
    have hnone : t.stops[e + 1]? = none := List.getElem?_eq_none (Nat.le_of_eq hsize)
    rw [hnone, if_neg (by omega), List.head?_eq_getElem?, hd]
    rfl

theorem getLast?_outside : (t.outside s e).getLast? = some a := by
  have ha := stopAt_eq_ok_iff.mp h.before
  rw [outside, List.getLast?_append, List.getLast?_take, List.getLast?_drop]
  by_cases hstart : s = 0
  · rw [if_pos hstart, if_neg (by unfold size at *; omega), List.getLast?_eq_getElem?]
    rw [hstart, Nat.zero_add, Nat.mod_eq_of_lt (by omega)] at ha
    exact ha
  · have hbefore : s + t.size - 1 = s - 1 + t.size := by omega
    rw [hbefore, Nat.add_mod_right, Nat.mod_eq_of_lt (by omega)] at ha
    rw [if_neg hstart, ha]
    rfl

/-- The edges of a tour: those that join a segment to the rest, and the steps of both. -/
theorem edges_perm : t.edges.Perm
    ((a, b) :: (c, d) :: (steps (t.inside s e) ++ steps (t.outside s e))) := by
  have hedges := edges_append_perm (h.head?_inside hs he) (h.getLast?_inside hs he)
    (h.head?_outside he hrest) (h.getLast?_outside hs he hrest)
  exact (t.edges_perm_inside (Nat.le_succ_of_le hs)).trans hedges

/-- The edges of the tour with the segment turned around. -/
theorem turned_edges_perm : (t.turned s e).edges.Perm
    ((a, c) :: (b, d) :: (steps (t.inside s e).reverse ++ steps (t.outside s e))) := by
  have hfirst : (t.inside s e).reverse.head? = some c := by
    rw [List.head?_reverse, h.getLast?_inside hs he]
  have hlast : (t.inside s e).reverse.getLast? = some b := by
    rw [List.getLast?_reverse, h.head?_inside hs he]
  have hedges := edges_append_perm hfirst hlast (h.head?_outside he hrest)
    (h.getLast?_outside hs he hrest)
  exact (t.edges_perm_turned s e).trans hedges

end Corners

end Segments

section Words

variable {V : Type} {bits : Nat} {distance : Metric V (Signed bits)} {t : Tour V} {s e : Nat}
  {a b c d : V} {m : TwoEdgeMove} {g : Signed bits} {n : Int}

/-! ## Totals -/

theorem mem_of_mem_inside {v : V} (h : v ∈ t.inside s e) : v ∈ t.stops :=
  List.mem_of_mem_drop (List.mem_of_mem_take h)

/-- What the total of a tour becomes when a segment is turned around, some stop being left
outside. -/
theorem Corners.total_turned (h : t.Corners s e a b c d) (hs : s ≤ e) (he : e < t.size)
    (hrest : 0 < s ∨ e + 1 < t.size) (hsymm : distance.SymmetricOn t.stops)
    (htotal : t.total distance = .ok n) :
    ∃ u v, distance a b = .ok u ∧ distance c d = .ok v ∧
      ∀ x y, distance a c = .ok x → distance b d = .ok y →
        (t.turned s e).total distance = .ok (n - u.val - v.val + x.val + y.val) := by
  have hspan := span_of_perm (h.edges_perm hs he hrest) htotal
  obtain ⟨u, k, hu, hspan, hn⟩ := span_cons_eq_ok_iff.mp hspan
  obtain ⟨v, steps, hv, hspan, hk⟩ := span_cons_eq_ok_iff.mp hspan
  obtain ⟨i, o, hinside, houtside, hsteps⟩ := span_append_eq_ok_iff.mp hspan
  refine ⟨u, v, hu, hv, fun x y hx hy => ?_⟩
  have hturned := span_steps_reverse
    (fun a ha b hb => hsymm a (mem_of_mem_inside ha) b (mem_of_mem_inside hb)) hinside
  refine span_of_perm (h.turned_edges_perm hs he hrest).symm ?_
  refine span_cons_eq_ok_iff.mpr ⟨x, y.val + steps, hx, ?_, by omega⟩
  refine span_cons_eq_ok_iff.mpr ⟨y, steps, hy, ?_, rfl⟩
  exact span_append_eq_ok_iff.mpr ⟨i, o, hturned, houtside, hsteps⟩

/-- Turning the whole tour around does not change its total. -/
theorem total_turned_all (hsize : e + 1 = t.size) (hsymm : distance.SymmetricOn t.stops)
    (htotal : t.total distance = .ok n) : (t.turned 0 e).total distance = .ok n := by
  have hall : t.turned 0 e = ⟨t.stops.reverse⟩ := by
    unfold turned inside
    rw [hsize]
    simp [size]
  rw [hall]
  exact total_reverse hsymm htotal

/-! ## Savings -/

theorem saving_eq_ok (h : t.saving distance m = .ok g) : ∃ a b c d u v x y,
    t.Corners (m.first + 1) m.second a b c d ∧ distance a b = .ok u ∧ distance c d = .ok v ∧
      distance a c = .ok x ∧ distance b d = .ok y ∧ g.val = u.val + v.val - x.val - y.val := by
  unfold saving at h
  obtain ⟨a, ha, h⟩ := Checked.bind_ok_iff.mp h
  obtain ⟨i, hi, h⟩ := Checked.bind_ok_iff.mp h
  obtain ⟨b, hb, h⟩ := Checked.bind_ok_iff.mp h
  obtain ⟨c, hc, h⟩ := Checked.bind_ok_iff.mp h
  obtain ⟨j, hj, h⟩ := Checked.bind_ok_iff.mp h
  obtain ⟨d, hd, h⟩ := Checked.bind_ok_iff.mp h
  obtain ⟨u, hu, h⟩ := Checked.bind_ok_iff.mp h
  obtain ⟨v, hv, h⟩ := Checked.bind_ok_iff.mp h
  obtain ⟨old, hold, h⟩ := Checked.bind_ok_iff.mp h
  obtain ⟨x, hx, h⟩ := Checked.bind_ok_iff.mp h
  obtain ⟨less, hless, h⟩ := Checked.bind_ok_iff.mp h
  obtain ⟨y, hy, h⟩ := Checked.bind_ok_iff.mp h
  rw [Position.eq_of_add hi] at hb
  rw [Position.eq_of_add hj] at hd
  have hbefore : m.first + 1 + t.size - 1 = m.first + t.size := by omega
  refine ⟨a, b, c, d, u, v, x, y, ⟨?_, hb, hc, hd⟩, hu, hv, hx, hy, ?_⟩
  · rw [hbefore, stopAt_add_size, ha]
  · rw [Signed.sub_eq_ok_iff.mp h, Signed.sub_eq_ok_iff.mp hless, Signed.add_eq_ok_iff.mp hold]

/-- The total of a tour goes down by what a move saves. -/
theorem total_of_saving (hsymm : distance.SymmetricOn t.stops) (hm : m.first + 1 ≤ m.second)
    (hlt : m.second < t.size) (htotal : t.total distance = .ok n)
    (hsaving : t.saving distance m = .ok g) :
    (t.turned (m.first + 1) m.second).total distance = .ok (n - g.val) := by
  obtain ⟨a, b, c, d, u, v, x, y, hcorners, hu, hv, hx, hy, hg⟩ := saving_eq_ok hsaving
  obtain ⟨u', v', hu', hv', hturned⟩ :=
    hcorners.total_turned hm hlt (.inl (Nat.succ_pos _)) hsymm htotal
  rw [hu, Except.ok.injEq] at hu'
  rw [hv, Except.ok.injEq] at hv'
  rw [hturned x y hx hy, Except.ok.injEq, hg, hu', hv']
  omega

end Words

end Tour

end Descent
