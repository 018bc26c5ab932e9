import Descent.Arithmetic.Signed
import Descent.Proofs.Outcome

/-!
# Sums of words

Arithmetic on words is exact or leaves the word. A loop that adds one term after the other
therefore ends in the sum of its terms, unless a partial sum overflows: `Signed.foldlM_adds_ends`.
-/

namespace Descent

/-- The fault of an operation whose result does not fit its word. -/
def Fault.IsOverflow (e : Fault) : Prop := ∃ operation, e = .overflow operation

/-! ## Sums over lists -/

theorem sum_map_sub {α M : Type} [SubtractionCommMonoid M] (l : List α) (f g : α → M) :
    (l.map fun x => f x - g x).sum = (l.map f).sum - (l.map g).sum := by
  simpa using Multiset.sum_map_sub (m := (l : Multiset α)) (f := f) (g := g)

/-- Terms that are left out of a sum do not matter if they are zero. -/
theorem sum_map_filter {α M : Type} [AddMonoid M] (l : List α) (f : α → M) (keep : α → Bool)
    (h : ∀ x ∈ l, keep x = false → f x = 0) : ((l.filter keep).map f).sum = (l.map f).sum := by
  induction l with
  | nil => rfl
  | cons x l ih =>
    have ih := ih fun y hy => h y (by simp [hy])
    cases hx : keep x with
    | true => rw [List.filter_cons_of_pos hx, List.map_cons, List.map_cons, List.sum_cons,
        List.sum_cons, ih]
    | false =>
      rw [List.filter_cons_of_neg (by simp [hx]), List.map_cons, List.sum_cons, ih,
        h x (by simp) hx, zero_add]

namespace Signed

open Checked (Ends)

variable {bits : Nat}

theorem ofResult_ends (operation : Operation) (x : Int) :
    Ends (ofResult operation x : Checked (Signed bits)) (fun r => r.val = x) Fault.IsOverflow := by
  unfold ofResult
  split
  · rfl
  · exact ⟨operation, rfl⟩

theorem add_ends (a b : Signed bits) :
    Ends (Distance.add a b) (fun r => r.val = a.val + b.val) Fault.IsOverflow :=
  ofResult_ends ..

theorem sub_ends (a b : Signed bits) :
    Ends (Distance.sub a b) (fun r => r.val = a.val - b.val) Fault.IsOverflow :=
  ofResult_ends ..

theorem neg_ends (a : Signed bits) :
    Ends (Distance.neg a) (fun r => r.val = -a.val) Fault.IsOverflow :=
  ofResult_ends ..

/-- A difference added to a sum. -/
theorem add_sub_ends (sum a b : Signed bits) :
    Ends (do Distance.add sum (← Distance.sub a b))
      (fun r => r.val = sum.val + (a.val - b.val)) Fault.IsOverflow := by
  refine (sub_ends a b).bind fun d _ hd => ?_
  rw [← hd]
  exact add_ends sum d

/-- A loop that adds a term at every turn ends in the sum of the terms. -/
theorem foldlM_adds_ends {α : Type} {f : Signed bits → α → Checked (Signed bits)}
    {term : α → Int} {l : List α} {E : Fault → Prop}
    (turn : ∀ x ∈ l, ∀ sum, Ends (f sum x) (fun r => r.val = sum.val + term x) E)
    (start : Signed bits) :
    Ends (l.foldlM f start) (fun r => r.val = start.val + (l.map term).sum) E := by
  have loop := Ends.foldlM (f := f) (l := l) (b := start) (E := E)
    (I := fun rest sum => sum.val + (rest.map term).sum = start.val + (l.map term).sum) rfl ?_
  · refine loop.mono fun r _ hr => ?_
    simpa using hr
  · intro x rest sum hx hsum
    refine (turn x hx sum).mono fun r _ hr => ?_
    rw [← hsum, hr, List.map_cons, List.sum_cons]
    omega

theorem sum_ends (ds : List (Signed bits)) :
    Ends (Distance.sum ds) (fun r => r.val = (ds.map Signed.val).sum) Fault.IsOverflow := by
  refine (foldlM_adds_ends (fun d _ sum => add_ends sum d) _).mono fun r _ hr => ?_
  rw [hr]
  exact Int.zero_add _

end Signed

end Descent
