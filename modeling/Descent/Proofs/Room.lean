import Descent.Proofs.Exact

/-!
# Sums with room

A computation `Returns` if it ends in a value. Arithmetic on words returns as long as its results
are not larger than the largest word, on either side of zero. A loop that adds a bounded term at
every turn therefore returns if the word has room for that bound as many times as there are turns:
`Signed.foldlM_adds_returns`.
-/

namespace Descent

namespace Checked

variable {α β : Type} {x : Checked α} {P : α → Prop}

/-- A computation that ends in a value with a property. It does not fault. -/
abbrev Returns (x : Checked α) (P : α → Prop) : Prop := Ends x P fun _ => False

theorem Returns.exists_ok (h : Returns x P) : ∃ a, x = .ok a := by
  obtain ⟨a, ha, -⟩ := Ends.exists_value h fun _ => id
  exact ⟨a, ha⟩

theorem returns_of_ok {a : α} (hx : x = .ok a) (ha : P a) : Returns x P := by
  rw [hx]
  exact ha

end Checked

/-- A sum is bounded by as many times the bound of its terms as there are terms. -/
theorem natAbs_sum_le {l : List Int} {bound : Nat} (h : ∀ x ∈ l, x.natAbs ≤ bound) :
    l.sum.natAbs ≤ l.length * bound := by
  induction l with
  | nil => exact Nat.zero_le _
  | cons x l ih =>
    have hx := h x (List.mem_cons_self ..)
    have hl := ih fun y hy => h y (List.mem_cons_of_mem _ hy)
    rw [List.sum_cons, List.length_cons, Nat.succ_mul]
    omega

namespace Signed

open Checked (Ends Returns)

variable {bits : Nat}

/-- The largest word. -/
def maximum (bits : Nat) : Nat := 2 ^ (bits - 1) - 1

theorem fits_of_natAbs_le {x : Int} (h : x.natAbs ≤ maximum bits) : Fits bits x := by
  have hpow : Int.pow 2 (bits - 1) = ((2 ^ (bits - 1) : Nat) : Int) := (Int.natCast_pow 2 _).symm
  have hpos : 0 < 2 ^ (bits - 1) := Nat.two_pow_pos _
  unfold maximum at h
  unfold Fits
  rw [hpow]
  omega

theorem ofResult_returns (operation : Operation) {x : Int} (h : x.natAbs ≤ maximum bits) :
    Returns (ofResult operation x : Checked (Signed bits)) (fun r => r.val = x) :=
  Checked.returns_of_ok (ofResult_of_fits (fits_of_natAbs_le h)) rfl

theorem add_returns {a b : Signed bits} (h : (a.val + b.val).natAbs ≤ maximum bits) :
    Returns (Distance.add a b) (fun r => r.val = a.val + b.val) := ofResult_returns .add h

theorem sub_returns {a b : Signed bits} (h : (a.val - b.val).natAbs ≤ maximum bits) :
    Returns (Distance.sub a b) (fun r => r.val = a.val - b.val) := ofResult_returns .subtract h

theorem neg_returns {a : Signed bits} (h : a.val.natAbs ≤ maximum bits) :
    Returns (Distance.neg a) (fun r => r.val = -a.val) :=
  ofResult_returns .negate (by rwa [Int.natAbs_neg])

theorem add_sub_returns {sum a b : Signed bits} (hchange : (a.val - b.val).natAbs ≤ maximum bits)
    (h : (sum.val + (a.val - b.val)).natAbs ≤ maximum bits) :
    Returns (do Distance.add sum (← Distance.sub a b))
      (fun r => r.val = sum.val + (a.val - b.val)) := by
  refine (sub_returns hchange).bind fun d _ hd => ?_
  rw [← hd] at h ⊢
  exact add_returns h

/-- A loop that adds a bounded term at every turn returns, if the word has room for all of them. -/
theorem foldlM_adds_returns {α : Type} {f : Signed bits → α → Checked (Signed bits)}
    {term : α → Int} {l : List α} {bound : Nat} {start : Signed bits}
    (turn : ∀ x ∈ l, ∀ sum : Signed bits, (term x).natAbs ≤ maximum bits →
      (sum.val + term x).natAbs ≤ maximum bits →
      Returns (f sum x) (fun r => r.val = sum.val + term x))
    (hterm : ∀ x ∈ l, (term x).natAbs ≤ bound)
    (hroom : start.val.natAbs + l.length * bound ≤ maximum bits) :
    Returns (l.foldlM f start) (fun r => r.val.natAbs ≤ start.val.natAbs + l.length * bound) := by
  -- What is left of the room is enough for the terms that are still to come.
  have loop := Ends.foldlM (f := f) (l := l) (b := start) (E := fun _ => False)
    (I := fun rest sum =>
      sum.val.natAbs + rest.length * bound ≤ start.val.natAbs + l.length * bound) (Nat.le_refl _) ?_
  · refine loop.mono fun r _ hr => ?_
    simpa using hr
  · intro x rest sum hx hleft
    have hbound := hterm x hx
    rw [List.length_cons, Nat.succ_mul] at hleft
    refine (turn x hx sum (by omega) (by omega)).mono fun r _ hr => ?_
    omega

/-- A loop that adds from zero on. -/
theorem foldlM_adds_returns_of_zero {α : Type} {f : Signed bits → α → Checked (Signed bits)}
    (term : α → Int) {l : List α} {bound : Nat}
    (turn : ∀ x ∈ l, ∀ sum : Signed bits, (term x).natAbs ≤ maximum bits →
      (sum.val + term x).natAbs ≤ maximum bits →
      Returns (f sum x) (fun r => r.val = sum.val + term x))
    (hterm : ∀ x ∈ l, (term x).natAbs ≤ bound) (hroom : l.length * bound ≤ maximum bits) :
    Returns (l.foldlM f Gain.zero) (fun r => r.val.natAbs ≤ l.length * bound) := by
  have hzero : (Gain.zero : Signed bits).val.natAbs + l.length * bound = l.length * bound :=
    Nat.zero_add _
  have hloop := foldlM_adds_returns turn hterm (Nat.le_trans (Nat.le_of_eq hzero) hroom)
  rwa [hzero] at hloop

theorem sum_returns {ds : List (Signed bits)} {bound : Nat}
    (h : ∀ d ∈ ds, d.val.natAbs ≤ bound) (hroom : ds.length * bound ≤ maximum bits) :
    Returns (Distance.sum ds) (fun r => r.val.natAbs ≤ ds.length * bound) :=
  foldlM_adds_returns_of_zero Signed.val (fun _ _ _ _ hsum => add_returns hsum) h hroom

end Signed

end Descent
