import Descent.Proofs.Comparison
import Descent.Proofs.Outcome
import Descent.Restart

/-!
# The best of several starts

Going over the results from the first to the last and replacing the best one only by a cheaper one
ends with the earliest of those of least cost, in a list of any length: `Earliest.foldl_cheaper`. So
the best of several starts is the result of the first start that no other one beats, as long as no
cost is undefined.
-/

namespace Descent.Restart

open Checked (Ends)

variable {A B C : Type} [Distance C] {cost : B → C} {results seen rest : List B} {best : B}

/-- A result than which none of a list is cheaper. -/
def Cheapest (cost : B → C) (results : List B) (b : B) : Prop :=
  ∀ r ∈ results, Gain.lt (cost r) (cost b) = false

/-- The positions of the results of least cost. -/
def cheapestAt (cost : B → C) (results : List B) : Set Nat :=
  {i | ∃ b, results[i]? = some b ∧ Cheapest cost results b}

/-- A list taken apart at its earliest result of least cost: those before it cost more, and those
after it no less. -/
def Earliest (cost : B → C) (results : List B) (b : B) : Prop :=
  ∃ before after, results = before ++ b :: after ∧
    (∀ r ∈ before, Gain.lt (cost b) (cost r) = true) ∧
    ∀ r ∈ after, Gain.lt (cost r) (cost b) = false

variable [Comparable C]

/-- One more result is either cheaper than all before it or changes nothing. -/
theorem Earliest.cheaper {next : B} (h : Earliest cost seen best)
    (hseen : ∀ r ∈ seen, Comparable.Defined (cost r)) (hnext : Comparable.Defined (cost next)) :
    Earliest cost (seen ++ [next]) (cheaper cost best next) := by
  obtain ⟨before, after, rfl, hbefore, hafter⟩ := h
  have hbest : Comparable.Defined (cost best) := hseen best (by simp)
  unfold Restart.cheaper
  cases hlt : Gain.lt (cost next) (cost best) with
  | true =>
    refine ⟨before ++ best :: after, [], rfl, fun r hr => ?_, by simp⟩
    have hr' := hseen r hr
    -- What is not below the old cost is above the new one.
    rcases List.mem_append.mp hr with hr | hr
    · exact Comparable.lt_trans hnext hbest hr' hlt (hbefore r hr)
    rcases List.mem_cons.mp hr with rfl | hr
    · exact hlt
    rcases Comparable.lt_or_lt hnext hbest hr' hlt with h | h
    · exact h
    · rw [hafter r hr] at h
      cases h
  | false =>
    refine ⟨before, after ++ [next], by simp, hbefore, fun r hr => ?_⟩
    rcases List.mem_append.mp hr with hr | hr
    · exact hafter r hr
    · obtain rfl := List.mem_singleton.mp hr
      exact hlt

theorem Earliest.foldl_cheaper (h : Earliest cost seen best)
    (hdefined : ∀ r ∈ seen ++ rest, Comparable.Defined (cost r)) :
    Earliest cost (seen ++ rest) (rest.foldl (Restart.cheaper cost) best) := by
  induction rest generalizing seen best with
  | nil => simpa using h
  | cons next rest ih =>
    have hstep := h.cheaper (fun r hr => hdefined r (by simp [hr])) (hdefined next (by simp))
    rw [List.append_cons] at hdefined ⊢
    exact ih hstep hdefined

/-- The earliest result of least cost stands at the lowest position of one. -/
theorem Earliest.isLeast (h : Earliest cost results best)
    (hdefined : ∀ r ∈ results, Comparable.Defined (cost r)) :
    ∃ i, results[i]? = some best ∧ IsLeast (cheapestAt cost results) i := by
  obtain ⟨before, after, rfl, hbefore, hafter⟩ := h
  have hbest : Comparable.Defined (cost best) := hdefined best (by simp)
  have hat : (before ++ best :: after)[before.length]? = some best := by simp
  refine ⟨before.length, hat, ⟨best, hat, fun r hr => ?_⟩, ?_⟩
  · rcases List.mem_append.mp hr with hr' | hr'
    · exact Comparable.lt_asymm hbest (hdefined r hr) (hbefore r hr')
    rcases List.mem_cons.mp hr' with rfl | hr'
    · exact Comparable.lt_irrefl hbest
    · exact hafter r hr'
  · rintro j ⟨r, hr, hcheapest⟩
    by_contra hlt
    have hmem : r ∈ before := by
      rw [List.getElem?_append_left (Nat.not_le.mp hlt)] at hr
      exact List.mem_of_getElem? hr
    have hbeaten := hcheapest best (by simp)
    rw [hbefore r hmem] at hbeaten
    cases hbeaten

/-- The scan of a list of results finds the earliest one of least cost, and nothing only in the
empty list. -/
theorem cheapest?_isLeast (hdefined : ∀ r ∈ results, Comparable.Defined (cost r)) :
    (cheapest? cost results = none ↔ results = []) ∧
      ∀ b, cheapest? cost results = some b →
        ∃ i, results[i]? = some b ∧ IsLeast (cheapestAt cost results) i := by
  cases results with
  | nil => simp [cheapest?]
  | cons first rest =>
    refine ⟨by simp [cheapest?], ?_⟩
    rintro b ⟨⟩
    have hfirst : Earliest cost [first] first := ⟨[], [], rfl, by simp, by simp⟩
    exact (hfirst.foldl_cheaper hdefined).isLeast hdefined

/-- A search from every start ends in one result for each, in their order, or by a fault of one. -/
theorem runAll_ends (starts : List A) (search : A → Checked B) :
    Ends (runAll starts search) (List.Forall₂ (fun a b => search a = .ok b) starts)
      (fun e => ∃ a ∈ starts, search a = .error e) := by
  unfold runAll
  induction starts with
  | nil => exact .nil
  | cons a starts ih =>
    have hfirst : Ends (search a) (fun b => search a = .ok b)
        (fun e => ∃ a' ∈ a :: starts, search a' = .error e) := by
      cases h : search a with
      | error e => exact ⟨a, List.mem_cons_self, h⟩
      | ok b => rfl
    have hrest : Ends (starts.mapM search) (List.Forall₂ (fun a b => search a = .ok b) starts)
        (fun e => ∃ a' ∈ a :: starts, search a' = .error e) :=
      ih.weaken fun e ⟨a', ha', he⟩ => ⟨a', List.mem_cons_of_mem a ha', he⟩
    rw [List.mapM_cons]
    refine hfirst.bind fun b hb _ => ?_
    exact hrest.bind fun results _ hall => .cons hb hall

/-- The best of several starts is nothing exactly if there is no start. Otherwise it is the result
of the start at the lowest position among those of least cost. It is found unless the search fails
from some start. -/
theorem bestOf_earliest {starts : List A} {search : A → Checked B}
    (hdefined : ∀ a ∈ starts, ∀ b, search a = .ok b → Comparable.Defined (cost b)) :
    Ends (bestOf starts search cost)
      (fun best => ∃ results, runAll starts search = .ok results ∧
        List.Forall₂ (fun a b => search a = .ok b) starts results ∧
        (best = none ↔ starts = []) ∧
        ∀ b, best = some b → ∃ i, results[i]? = some b ∧ IsLeast (cheapestAt cost results) i)
      (fun e => ∃ a ∈ starts, search a = .error e) := by
  refine (runAll_ends starts search).bind fun results hresults hall => ?_
  have hcosts : ∀ r ∈ results, Comparable.Defined (cost r) := by
    intro r hr
    obtain ⟨a, ha, hsearch⟩ := Checked.exists_of_mem_mapM hresults hr
    exact hdefined a ha r hsearch
  obtain ⟨hnone, hsome⟩ := cheapest?_isLeast hcosts
  refine ⟨results, hresults, hall, hnone.trans ?_, hsome⟩
  rw [← List.length_eq_zero_iff, ← List.length_eq_zero_iff, hall.length_eq]

/-- Of four starts the second and the last cost least, and the others are infinitely far: the second
one is found. -/
theorem bestOf_earliest_repeated :
    let starts : List (Nat × Float) := [(0, 1.0 / 0.0), (1, 2.5), (2, 1.0 / 0.0), (3, 2.5)]
    bestOf starts .ok Prod.snd = .ok (some (1, 2.5)) ∧ IsLeast (cheapestAt Prod.snd starts) 1 := by
  intro starts
  have hdefined : ∀ a ∈ starts, ∀ b, Except.ok a = (.ok b : Checked _) →
      Comparable.Defined (Prod.snd b) := by
    rintro a ha b ⟨⟩
    simp only [starts, List.mem_cons, List.not_mem_nil, or_false] at ha
    rcases ha with rfl | rfl | rfl | rfl <;> rfl
  have hbest : bestOf starts .ok Prod.snd = .ok (some (1, 2.5)) := rfl
  obtain ⟨results, hresults, -, -, hsome⟩ := (bestOf_earliest hdefined).value hbest
  have hstarts : starts = results := Except.ok.inj hresults
  subst results
  obtain ⟨i, hi, hleast⟩ := hsome _ rfl
  have hnumber : (List.range 4)[i]? = some 1 := by
    show (starts.map Prod.fst)[i]? = some 1
    rw [List.getElem?_map, hi]
    rfl
  obtain ⟨_, hone⟩ := List.getElem?_eq_some_iff.mp hnumber
  rw [List.getElem_range] at hone
  exact ⟨hbest, hone ▸ hleast⟩

end Descent.Restart
