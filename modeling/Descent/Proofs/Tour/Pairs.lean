import Descent.Proofs.Tour.Moves

/-!
# The pairs of edges of a tour

Edge `p` of a tour of `n` stops joins the positions `p` and `p + 1`, counted round and round. The
moves pair any two edges that share no position, each two of them once, and no others:
`TwoEdgeMove.all_pairs_apart`. The edges lie on a circle and the moves are listed along a line, so
of the edges that lie two or more apart on the line one pair has to go, the first edge and the
closing one; `TwoEdgeMove.apart_iff` says that this is all there is to it.
-/

namespace Descent

namespace TwoEdgeMove

variable {n p q : Nat} {m : TwoEdgeMove}

/-! ## Edges that share no position -/

/-- The positions that edge `p` of a tour of `n` stops joins. -/
def joined (n p : Nat) : Nat × Nat := (p, (p + 1) % n)

/-- They are those that the edges of a tour join: here the stops are the positions themselves. -/
theorem edges_range (n : Nat) :
    (⟨List.range n⟩ : Tour Nat).edges = (List.range n).map (joined n) := by
  cases n with
  | zero => rfl
  | succ n =>
    have hedges : (⟨List.range (n + 1)⟩ : Tour Nat).edges =
        (List.range (n + 1)).zip ((List.range n).map Nat.succ ++ [0]) := by
      rw [List.range_succ_eq_map]
      rfl
    rw [hedges]
    refine List.ext_getElem (by simp) fun i hi _ => ?_
    have hle : i ≤ n := by simpa [Nat.lt_succ_iff] using hi
    rw [List.getElem_zip, List.getElem_map, List.getElem_range]
    rcases Nat.lt_or_eq_of_le hle with hlt | rfl
    · simp [joined, hlt, Nat.mod_eq_of_lt]
    · simp [joined]

/-- Two edges of which one starts or ends where the other one does. -/
def Adjacent (e f : Nat × Nat) : Prop := e.1 = f.1 ∨ e.1 = f.2 ∨ e.2 = f.1 ∨ e.2 = f.2

instance (e f : Nat × Nat) : Decidable (Adjacent e f) :=
  inferInstanceAs (Decidable (_ ∨ _))

/-- Two distinct edges of a tour of `n` stops that are not adjacent. -/
def Apart (n p q : Nat) : Prop :=
  p < n ∧ q < n ∧ p ≠ q ∧ ¬ Adjacent (joined n p) (joined n q)

instance (n p q : Nat) : Decidable (Apart n p q) :=
  inferInstanceAs (Decidable (_ ∧ _))

theorem Apart.symm (h : Apart n p q) : Apart n q p := by
  obtain ⟨hp, hq, hne, hapart⟩ := h
  refine ⟨hq, hp, hne.symm, fun hadjacent => hapart ?_⟩
  unfold Adjacent at hadjacent ⊢
  omega

/-- Of two edges in order, the second one starts past the end of the first one, and is not the
closing edge if the first one starts the tour. -/
theorem apart_iff (h : p < q) :
    Apart n p q ↔ p + 2 ≤ q ∧ q < n ∧ ¬ (p = 0 ∧ q = n - 1) := by
  unfold Apart Adjacent joined
  by_cases hq : q < n
  · rw [Nat.mod_eq_of_lt (by omega : p + 1 < n)]
    by_cases hclosing : q + 1 = n
    · rw [hclosing, Nat.mod_self]
      omega
    · rw [Nat.mod_eq_of_lt (by omega : q + 1 < n)]
      omega
  · omega

/-! ## What the moves pair -/

/-- The two edges that a move takes out. -/
def pair (m : TwoEdgeMove) : Sym2 Nat := s(m.first, m.second)

theorem mem_all_iff_apart : m ∈ all n ↔ m.first < m.second ∧ Apart n m.first m.second := by
  rw [mem_all]
  constructor
  · intro h
    have hlt : m.first < m.second := by omega
    exact ⟨hlt, (apart_iff hlt).mpr h⟩
  · rintro ⟨hlt, hapart⟩
    exact (apart_iff hlt).mp hapart

theorem mem_pairs_iff : s(p, q) ∈ (all n).map pair ↔ Apart n p q := by
  constructor
  · intro h
    obtain ⟨m, hm, hpair⟩ := List.mem_map.mp h
    obtain ⟨-, hapart⟩ := mem_all_iff_apart.mp hm
    rcases Sym2.eq_iff.mp hpair with ⟨rfl, rfl⟩ | ⟨rfl, rfl⟩
    · exact hapart
    · exact hapart.symm
  · intro h
    obtain ⟨-, -, hne, -⟩ := id h
    rcases Nat.lt_or_gt_of_ne hne with hlt | hgt
    · exact List.mem_map.mpr ⟨⟨p, q⟩, mem_all_iff_apart.mpr ⟨hlt, h⟩, rfl⟩
    · exact List.mem_map.mpr ⟨⟨q, p⟩, mem_all_iff_apart.mpr ⟨hgt, h.symm⟩, Sym2.eq_swap⟩

/-- The order of moves by their first and then by their second edge. -/
def Before (m k : TwoEdgeMove) : Prop :=
  m.first < k.first ∨ m.first = k.first ∧ m.second < k.second

theorem pairwise_all (n : Nat) : (all n).Pairwise Before := by
  rw [all, List.pairwise_flatMap]
  constructor
  · intro i _
    rw [startingAt, List.pairwise_map]
    have hsorted : (List.range' (i + 2) (n - (i + 2))).Pairwise (· < ·) := List.pairwise_lt_range'
    exact (hsorted.filter _).imp fun h => .inr ⟨rfl, h⟩
  · refine List.pairwise_lt_range.imp fun hij m hm k hk => ?_
    obtain ⟨j, -, rfl⟩ := List.mem_map.mp hm
    obtain ⟨j', -, rfl⟩ := List.mem_map.mp hk
    exact .inl hij

theorem nodup_pairs (n : Nat) : ((all n).map pair).Nodup := by
  rw [List.Nodup, List.pairwise_map]
  refine (pairwise_all n).imp_of_mem fun {m k} hm hk hbefore hpair => ?_
  obtain ⟨hm, -⟩ := mem_all_iff_apart.mp hm
  obtain ⟨hk, -⟩ := mem_all_iff_apart.mp hk
  have hsame := Sym2.eq_iff.mp hpair
  unfold Before at hbefore
  omega

/-! ## How many moves there are -/

theorem all_of_lt (h : n < 3) : all n = [] := by
  refine List.eq_nil_iff_forall_not_mem.mpr fun m hm => ?_
  have hm := mem_all.mp hm
  omega

/-- The first edge is paired with all edges but itself, the next one and the closing one. -/
theorem startingAt_zero (k : Nat) :
    startingAt (k + 3) 0 = (List.range' 2 k).map fun j => ⟨0, j⟩ := by
  have hrange : List.range' (0 + 2) (k + 3 - (0 + 2)) = List.range' 2 k ++ [2 + k] :=
    List.range'_1_concat
  have hkept : ∀ j ∈ List.range' 2 k, (!(0 == 0 && j == k + 3 - 1)) = true := by
    intro j hj
    rw [List.mem_range'_1] at hj
    have hne : j ≠ k + 2 := by omega
    simpa using hne
  have hclosing : [2 + k].filter (fun j => !(0 == 0 && j == k + 3 - 1)) = [] := by
    simp [Nat.add_comm]
  rw [startingAt, hrange, List.filter_append, List.filter_eq_self.mpr hkept, hclosing,
    List.append_nil]

/-- A later edge is paired with all edges from the next but one on. -/
theorem startingAt_succ (n i : Nat) :
    startingAt n (i + 1) = (List.range' (i + 3) (n - (i + 3))).map fun j => ⟨i + 1, j⟩ := by
  rw [startingAt, List.filter_eq_self.mpr fun j _ => by simp]

theorem two_mul_sum_sub (k : Nat) : 2 * ((List.range k).map (k - ·)).sum = k * (k + 1) := by
  induction k with
  | zero => rfl
  | succ k ih =>
    have hrest : (List.range k).map ((k + 1 - ·) ∘ Nat.succ) = (List.range k).map (k - ·) :=
      List.map_congr_left fun i _ => Nat.add_sub_add_right k 1 i
    rw [List.range_succ_eq_map, List.map_cons, List.map_map, hrest, List.sum_cons, Nat.mul_add, ih,
      Nat.sub_zero]
    ring

theorem two_mul_length_all (k : Nat) : 2 * (all (k + 3)).length = (k + 3) * k := by
  -- The first edge has `k` partners and edge `i + 1` has `k - i`.
  have hlater : (List.range k).map ((fun i => (startingAt (k + 3) i).length) ∘ Nat.succ) =
      (List.range k).map (k - ·) := by
    refine List.map_congr_left fun i _ => ?_
    simp [startingAt_succ]
  have hlength : (all (k + 3)).length = k + ((List.range k).map (k - ·)).sum := by
    rw [all, List.length_flatMap, show k + 3 - 2 = k + 1 from rfl, List.range_succ_eq_map,
      List.map_cons, List.map_map, List.sum_cons, startingAt_zero, hlater]
    simp
  rw [hlength, Nat.mul_add, two_mul_sum_sub]
  ring

/-- Any two edges of a tour, told in either order, are taken out by one of its moves if they are
apart, and by none if they are not, as the first and the closing edge. A move has its lower edge
first, and the moves come in lexicographic order. -/
theorem all_pairs_apart (n : Nat) :
    (⟨List.range n⟩ : Tour Nat).edges = (List.range n).map (joined n) ∧
    (∀ p q, ((all n).map pair).count s(p, q) = if Apart n p q then 1 else 0) ∧
    (∀ m ∈ all n, m.first < m.second) ∧ (all n).Pairwise Before ∧
    s(0, n - 1) ∉ (all n).map pair ∧
    (3 ≤ n → (all n).length = n * (n - 3) / 2) ∧ (n < 3 → all n = []) := by
  refine ⟨edges_range n, fun p q => ?_, fun m hm => (mem_all_iff_apart.mp hm).1, pairwise_all n,
    ?_, fun hn => ?_, all_of_lt⟩
  · rw [(nodup_pairs n).count]
    exact if_congr mem_pairs_iff rfl rfl
  · rw [mem_pairs_iff]
    intro hclosing
    obtain ⟨-, -, hne, -⟩ := id hclosing
    exact ((apart_iff (Nat.pos_of_ne_zero hne.symm)).mp hclosing).2.2 ⟨rfl, rfl⟩
  · obtain ⟨k, rfl⟩ := Nat.exists_eq_add_of_le' hn
    exact (Nat.div_eq_of_eq_mul_right (by decide) (two_mul_length_all k).symm).symm

/-- On a tour of seven stops edge 2 and the closing edge are apart, and the closing edge and the
first one are not. -/
theorem all_pairs_apart_seven :
    ((all 7).map pair).count s(6, 2) = 1 ∧ ((all 7).map pair).count s(6, 0) = 0 ∧
      (⟨2, 6⟩ : TwoEdgeMove) ∈ all 7 ∧ 2 < 6 ∧ (all 7).length = 14 ∧ all 2 = [] := by
  obtain ⟨-, hcount, hordered, -, -, hlength, -⟩ := all_pairs_apart 7
  obtain ⟨-, -, -, -, -, -, hnone⟩ := all_pairs_apart 2
  have hmove : (⟨2, 6⟩ : TwoEdgeMove) ∈ all 7 := by decide
  exact ⟨hcount 6 2, hcount 6 0, hmove, hordered _ hmove, hlength (by decide), hnone (by decide)⟩

end TwoEdgeMove

end Descent
