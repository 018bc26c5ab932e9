import Descent.Proofs.Exact
import Descent.Tour.Basic

/-!
# The edges of a tour

A tour that falls into two stretches has the steps of both and the two edges that join them. Which
of the two comes first does not matter, and to reverse one of them turns its steps around and joins
it by its other end. The length of a tour, which is added up edge by edge, is therefore looked at
through `Tour.total`, the sum of its edges in the integers, whatever their order.
-/

namespace Descent

open Checked (Ends)

/-- A metric that measures the same both ways between some vertices. -/
def Metric.SymmetricOn {V D : Type} (distance : Metric V D) (stops : List V) : Prop :=
  ∀ a ∈ stops, ∀ b ∈ stops, distance a b = distance b a

theorem Metric.SymmetricOn.of_perm {V D : Type} {distance : Metric V D} {stops stops' : List V}
    (h : distance.SymmetricOn stops) (hperm : stops'.Perm stops) : distance.SymmetricOn stops' :=
  fun a ha b hb => h a (hperm.mem_iff.mp ha) b (hperm.mem_iff.mp hb)

namespace Tour

section Steps

variable {V : Type} {xs ys : List V} {a b c d : V}

/-! ## Steps -/

/-- The steps of a path, each from one stop to the next. -/
def steps : List V → List (V × V)
  | a :: b :: rest => (a, b) :: steps (b :: rest)
  | _ => []

@[simp] theorem steps_nil : steps ([] : List V) = [] := rfl

@[simp] theorem steps_singleton (a : V) : steps [a] = [] := rfl

@[simp] theorem steps_cons_cons (a b : V) (rest : List V) :
    steps (a :: b :: rest) = (a, b) :: steps (b :: rest) := rfl

/-- Two paths one after the other have their steps and the one from the first to the second. -/
theorem steps_append (hx : xs.getLast? = some c) (hy : ys.head? = some d) :
    steps (xs ++ ys) = steps xs ++ (c, d) :: steps ys := by
  obtain ⟨ys, rfl⟩ := List.head?_eq_some_iff.mp hy
  induction xs with
  | nil => simp at hx
  | cons x xs ih =>
    cases xs with
    | nil =>
      obtain rfl : x = c := by simpa using hx
      rfl
    | cons x' xs =>
      have hx' : (x' :: xs).getLast? = some c := by simpa using hx
      simpa using ih hx'

theorem steps_reverse (xs : List V) : steps xs.reverse = (steps xs).reverse.map Prod.swap := by
  induction xs with
  | nil => rfl
  | cons x xs ih =>
    cases xs with
    | nil => rfl
    | cons x' xs =>
      have hlast : (x' :: xs).reverse.getLast? = some x' := by simp
      rw [List.reverse_cons, steps_append hlast (by rfl : [x].head? = some x), ih]
      simp

theorem mem_of_mem_steps (h : (a, b) ∈ steps xs) : a ∈ xs ∧ b ∈ xs := by
  induction xs with
  | nil => simp at h
  | cons x xs ih =>
    cases xs with
    | nil => simp at h
    | cons x' xs =>
      rw [steps_cons_cons, List.mem_cons] at h
      rcases h with h | h
      · cases h
        simp
      · obtain ⟨ha, hb⟩ := ih h
        exact ⟨List.mem_cons_of_mem _ ha, List.mem_cons_of_mem _ hb⟩

/-! ## Edges -/

theorem zip_eq_steps (a : V) (rest : List V) (last : V) :
    (a :: rest).zip (rest ++ [last]) = steps (a :: rest ++ [last]) := by
  induction rest generalizing a with
  | nil => rfl
  | cons b rest ih => simpa using ih b

theorem edges_eq_steps (h : xs.head? = some a) : (⟨xs⟩ : Tour V).edges = steps (xs ++ [a]) := by
  obtain ⟨rest, rfl⟩ := List.head?_eq_some_iff.mp h
  exact zip_eq_steps a rest a

/-- The edges of a tour that falls into two stretches, the first one from `b` to `c` and the second
one from `d` to `a`. -/
theorem edges_append (hb : xs.head? = some b) (hc : xs.getLast? = some c)
    (hd : ys.head? = some d) (ha : ys.getLast? = some a) :
    (⟨xs ++ ys⟩ : Tour V).edges = steps xs ++ (c, d) :: (steps ys ++ [(a, b)]) := by
  have hhead : (xs ++ ys).head? = some b := by simp [List.head?_append, hb]
  have hhead' : (ys ++ [b]).head? = some d := by simp [List.head?_append, hd]
  have hclose : [b].head? = some b := rfl
  rw [edges_eq_steps hhead, List.append_assoc, steps_append hc hhead', steps_append ha hclose]
  rfl

theorem edges_append_perm (hb : xs.head? = some b) (hc : xs.getLast? = some c)
    (hd : ys.head? = some d) (ha : ys.getLast? = some a) :
    (⟨xs ++ ys⟩ : Tour V).edges.Perm ((a, b) :: (c, d) :: (steps xs ++ steps ys)) := by
  calc (⟨xs ++ ys⟩ : Tour V).edges
    _ = (steps xs ++ (c, d) :: steps ys) ++ [(a, b)] := by simp [edges_append hb hc hd ha]
    _ |>.Perm ((a, b) :: (steps xs ++ (c, d) :: steps ys)) := List.perm_append_singleton _ _
    _ |>.Perm ((a, b) :: (c, d) :: (steps xs ++ steps ys)) := List.perm_middle.cons _

/-- A tour can be started anywhere. -/
theorem edges_rotate (xs ys : List V) :
    (⟨xs ++ ys⟩ : Tour V).edges.Perm (⟨ys ++ xs⟩ : Tour V).edges := by
  cases xs with
  | nil => simp
  | cons b xs =>
    cases ys with
    | nil => simp
    | cons d ys =>
      obtain ⟨c, hc⟩ : ∃ c, (b :: xs).getLast? = some c := ⟨_, List.getLast?_cons⟩
      obtain ⟨a, ha⟩ : ∃ a, (d :: ys).getLast? = some a := ⟨_, List.getLast?_cons⟩
      rw [edges_append rfl hc rfl ha, edges_append rfl ha rfl hc]
      have hcomm : ((steps (b :: xs) ++ [(c, d)]) ++ (steps (d :: ys) ++ [(a, b)])).Perm
          ((steps (d :: ys) ++ [(a, b)]) ++ (steps (b :: xs) ++ [(c, d)])) := List.perm_append_comm
      simpa using hcomm

/-- A tour that is gone around the other way has its edges turned around. -/
theorem edges_reverse_perm (xs : List V) :
    (⟨xs.reverse⟩ : Tour V).edges.Perm ((⟨xs⟩ : Tour V).edges.map Prod.swap) := by
  cases xs with
  | nil => exact .refl _
  | cons a rest =>
    have hback : a :: rest.reverse ++ [a] = (a :: rest ++ [a]).reverse := by simp
    calc (⟨(a :: rest).reverse⟩ : Tour V).edges
      _ = (⟨rest.reverse ++ [a]⟩ : Tour V).edges := by rw [List.reverse_cons]
      _ |>.Perm (⟨a :: rest.reverse⟩ : Tour V).edges := edges_rotate _ _
      _ = (steps (a :: rest ++ [a])).reverse.map Prod.swap := by
        rw [edges_eq_steps rfl, hback, steps_reverse]
      _ |>.Perm ((steps (a :: rest ++ [a])).map Prod.swap) := (List.reverse_perm _).map _
      _ = (⟨a :: rest⟩ : Tour V).edges.map Prod.swap := by rw [edges_eq_steps rfl]

theorem mem_of_mem_edges {t : Tour V} (h : (a, b) ∈ t.edges) : a ∈ t.stops ∧ b ∈ t.stops := by
  obtain ⟨stops⟩ := t
  cases stops with
  | nil => simp [edges] at h
  | cons first rest =>
    rw [edges_eq_steps rfl] at h
    have hmem := mem_of_mem_steps h
    simpa [or_comm] using hmem

end Steps

section Words

variable {V : Type} {bits : Nat} {distance : Metric V (Signed bits)} {l m : List (V × V)}
  {n : Int}

/-! ## Sums of edges -/

/-- The lengths of some edges, added up in the integers. -/
def span (distance : Metric V (Signed bits)) : List (V × V) → Checked Int
  | [] => .ok 0
  | edge :: rest => do
    let length ← distance edge.1 edge.2
    pure (length.val + (← span distance rest))

/-- The length of a tour, added up in the integers. -/
def total (distance : Metric V (Signed bits)) (t : Tour V) : Checked Int :=
  span distance t.edges

theorem span_cons_eq_ok_iff {edge : V × V} :
    span distance (edge :: l) = .ok n ↔
      ∃ length k, distance edge.1 edge.2 = .ok length ∧ span distance l = .ok k ∧
        length.val + k = n := by
  simp only [span, Checked.bind_ok_iff, Checked.pure_eq_ok, Except.ok.injEq]
  constructor
  · rintro ⟨length, hlength, k, hk, hn⟩
    exact ⟨length, k, hlength, hk, hn⟩
  · rintro ⟨length, k, hlength, hk, hn⟩
    exact ⟨length, hlength, k, hk, hn⟩

theorem span_append_eq_ok_iff :
    span distance (l ++ m) = .ok n ↔
      ∃ i j, span distance l = .ok i ∧ span distance m = .ok j ∧ i + j = n := by
  induction l generalizing n with
  | nil => simp [span]
  | cons edge l ih =>
    rw [List.cons_append, span_cons_eq_ok_iff]
    constructor
    · rintro ⟨length, k, hlength, hk, hn⟩
      obtain ⟨i, j, hi, hj, hk⟩ := ih.mp hk
      exact ⟨length.val + i, j, span_cons_eq_ok_iff.mpr ⟨length, i, hlength, hi, rfl⟩, hj, by omega⟩
    · rintro ⟨i, j, hi, hj, hn⟩
      obtain ⟨length, k, hlength, hk, hi⟩ := span_cons_eq_ok_iff.mp hi
      exact ⟨length, k + j, hlength, ih.mpr ⟨k, j, hk, hj, rfl⟩, by omega⟩

/-- The order of the edges does not matter. -/
theorem span_of_perm (h : l.Perm m) (hl : span distance l = .ok n) : span distance m = .ok n := by
  induction h generalizing n with
  | nil => exact hl
  | cons edge _ ih =>
    obtain ⟨length, k, hlength, hk, hn⟩ := span_cons_eq_ok_iff.mp hl
    exact span_cons_eq_ok_iff.mpr ⟨length, k, hlength, ih hk, hn⟩
  | swap e f l =>
    obtain ⟨i, k, hi, hk, hn⟩ := span_cons_eq_ok_iff.mp hl
    obtain ⟨j, k', hj, hk', hk⟩ := span_cons_eq_ok_iff.mp hk
    refine span_cons_eq_ok_iff.mpr ⟨j, i.val + k', hj, ?_, by omega⟩
    exact span_cons_eq_ok_iff.mpr ⟨i, k', hi, hk', rfl⟩
  | trans _ _ ih ih' => exact ih' (ih hl)

/-- The direction of the edges does not matter if they measure the same both ways. -/
theorem span_map_swap (h : ∀ a b, (a, b) ∈ l → distance a b = distance b a) :
    span distance (l.map Prod.swap) = span distance l := by
  induction l with
  | nil => rfl
  | cons edge l ih =>
    obtain ⟨a, b⟩ := edge
    have hrest := ih fun x y hxy => h x y (List.mem_cons_of_mem _ hxy)
    simp only [List.map_cons, span, Prod.swap, hrest, h a b (List.mem_cons_self ..)]

theorem span_steps_reverse {xs : List V} (hxs : distance.SymmetricOn xs)
    (h : span distance (steps xs) = .ok n) : span distance (steps xs.reverse) = .ok n := by
  rw [steps_reverse, span_map_swap]
  · exact span_of_perm (List.reverse_perm _).symm h
  · intro a b hab
    rw [List.mem_reverse] at hab
    obtain ⟨ha, hb⟩ := mem_of_mem_steps hab
    exact hxs a ha b hb

/-- Going around the other way does not change the total. -/
theorem total_reverse {xs : List V} (hxs : distance.SymmetricOn xs)
    (h : (⟨xs⟩ : Tour V).total distance = .ok n) :
    (⟨xs.reverse⟩ : Tour V).total distance = .ok n := by
  refine span_of_perm (edges_reverse_perm xs).symm ?_
  rw [span_map_swap]
  · exact h
  · intro a b hab
    obtain ⟨ha, hb⟩ := mem_of_mem_edges hab
    exact hxs a ha b hb

/-! ## Lengths -/

/-- A length that is added up edge by edge is the sum of the edges, unless it overflows on the way
or an edge has no length. -/
theorem foldlM_addEdge_ends (l : List (V × V)) (sum : Signed bits) :
    Ends (l.foldlM (addEdge distance) sum) (fun r => span distance l = .ok (r.val - sum.val))
      (fun e => e.IsOverflow ∨ span distance l = .error e) := by
  induction l generalizing sum with
  | nil =>
    show (.ok 0 : Checked Int) = .ok (sum.val - sum.val)
    rw [Int.sub_self]
  | cons edge l ih =>
    rw [List.foldlM_cons]
    unfold addEdge
    cases hlength : distance edge.1 edge.2 with
    | error e =>
      right
      simp [span, hlength]
    | ok length =>
      have hadd := (Signed.add_ends sum length).weaken
        fun e he => (Or.inl he : e.IsOverflow ∨ span distance (edge :: l) = .error e)
      refine hadd.bind fun sum' _ hsum' => ?_
      refine ((ih sum').mono fun r _ hr => ?_).weaken fun e he => ?_
      · exact span_cons_eq_ok_iff.mpr ⟨length, _, hlength, hr, by omega⟩
      · refine he.imp_right fun he => ?_
        simp [span, hlength, he]

theorem length_ends (t : Tour V) :
    Ends (t.length distance) (fun r => t.total distance = .ok r.val)
      (fun e => e.IsOverflow ∨ t.total distance = .error e) := by
  refine (foldlM_addEdge_ends t.edges _).mono fun r _ hr => ?_
  have hzero : (Gain.zero : Signed bits).val = 0 := rfl
  rwa [hzero, Int.sub_zero] at hr

theorem total_of_length {t : Tour V} {r : Signed bits} (h : t.length distance = .ok r) :
    t.total distance = .ok r.val :=
  (length_ends t).value h

/-- A tour that has a total has it as its length, unless this overflows on the way. -/
theorem length_ends_of_total {t : Tour V} (h : t.total distance = .ok n) :
    Ends (t.length distance) (fun r => r.val = n) Fault.IsOverflow := by
  refine ((length_ends t).mono fun r _ hr => ?_).weaken fun e he => ?_
  · rw [h, Except.ok.injEq] at hr
    exact hr.symm
  · refine he.resolve_right fun he => ?_
    rw [h] at he
    cases he

end Words

end Tour

end Descent
