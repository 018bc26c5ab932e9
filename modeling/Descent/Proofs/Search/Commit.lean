import Descent.Proofs.Search.Pass

/-!
# What a pass comes to

In a `Responsive` solution every move around an element can be scored and committed, and a
solution is not changed by a move that it rejects. A pass over such a solution ends, and it
either leaves the solution alone or commits one move, which it scored as an improvement:
`Responsive.search_ends`.
-/

namespace Descent

open Checked (Ends)

namespace Engine

variable {σ τ S E M G : Type} [Gain G] {engine : Engine σ τ S E M G}

/-! ## Scans -/

section Scans

variable {s : S} {e : E} {memory : σ} {t : τ} {best : Option (G × M)} {moves : List M}
  {found : Scan σ τ S E M G}

/-- A scan ends if all of its moves can be scored. -/
theorem scan_ends {failed : Fault → Prop}
    (hscore : ∀ m ∈ moves, ∀ memory,
      Ends (engine.evaluator.score memory s e m) (fun _ => True) failed) :
    Ends (engine.scan s e memory t best moves) (fun _ => True) failed := by
  induction moves generalizing memory t best with
  | nil => trivial
  | cons m rest ih =>
    have hrest := fun m' hm' => hscore m' (List.mem_cons_of_mem _ hm')
    unfold scan
    refine (hscore m (List.mem_cons_self ..) memory).bind fun scored _ _ => ?_
    obtain ⟨g, memory'⟩ := scored
    cases himproves : Gain.improves g with
    | true =>
      simp only [himproves, if_true]
      cases hstrategy : engine.config.strategy with
      | first => trivial
      | best => exact (ih hrest).bind fun _ _ _ => trivial
    | false =>
      simp only [himproves, Bool.false_eq_true, if_false]
      cases (engine.stop.check t s e m).1 with
      | true =>
        simp only [if_true]
        trivial
      | false =>
        simp only [Bool.false_eq_true, if_false]
        exact (ih hrest).bind fun _ _ _ => trivial

end Scans

/-! ## Passes over responsive solutions -/

/-- A solution around whose elements all moves can be scored and committed, unless there is a
fault of a kind. It is not changed by a move that it rejects. -/
structure Responsive (engine : Engine σ τ S E M G) (failed : Fault → Prop) (s : S) : Prop where
  scored : ∀ e ∈ engine.elements s, ∀ m ∈ engine.neighborhood s e, ∀ memory,
    Ends (engine.evaluator.score memory s e m) (fun _ => True) failed
  committed : ∀ e ∈ engine.elements s, ∀ m ∈ engine.neighborhood s e,
    Ends (engine.commit s e m) (fun r => r.1 = false → r.2 = s) failed
  noticed : ∀ memory s' e m, Ends (engine.evaluator.notice memory s' e m) (fun _ => True) failed

/-- What a pass over a solution comes to. -/
inductive Passed (engine : Engine σ τ S E M G) (s : S) (pass : Pass σ τ S E M) : Prop where
  /-- Nothing was committed, and the solution is what it was. -/
  | idle : pass.improved = false → pass.state.solution = s → Passed engine s pass
  /-- A move that was scored as an improvement was committed. -/
  | moved {e : E} {m : M} {g : G} : pass.improved = true → e ∈ engine.elements s →
    m ∈ engine.neighborhood s e → engine.Improving s e m g →
    engine.commit s e m = .ok (true, pass.state.solution) → .committed e m true ∈ pass.events →
    Passed engine s pass

variable {failed : Fault → Prop} {state : SearchState σ τ S}

/-- The work on an element ends, and comes to what a pass comes to. -/
theorem Responsive.improve_ends (hs : engine.Responsive failed state.solution) {e : E}
    (he : e ∈ engine.elements state.solution) :
    Ends (engine.improve state e) (engine.Passed state.solution) failed := by
  unfold improve
  refine (scan_ends (hs.scored e he)).bind fun found hfound _ => ?_
  have hscanned := scanned_of_scan hfound
  cases htaken : found.taken with
  | none => exact .idle rfl rfl
  | some gm =>
    obtain ⟨g, m⟩ := gm
    rcases hscanned.taken_improving htaken with ⟨hm, hg⟩ | hbest
    · refine (hs.committed e he m hm).bind fun r hcommit hquiet => ?_
      obtain ⟨accepted, s⟩ := r
      cases accepted with
      | false => exact .idle rfl (hquiet rfl)
      | true =>
        refine (hs.noticed _ _ _ _).bind fun memory _ _ => ?_
        exact .moved rfl he hm hg hcommit (by simp)
    · cases hbest

/-- The work on the elements at some positions ends, and comes to what a pass comes to. -/
theorem Responsive.searchAt_ends (hs : engine.Responsive failed state.solution)
    {positions : List Nat}
    (hpositions : ∀ i ∈ positions, i < (engine.elements state.solution).length) :
    Ends (engine.searchAt state positions) (engine.Passed state.solution) failed := by
  induction positions generalizing state with
  | nil => exact .idle rfl rfl
  | cons i rest ih =>
    have hi := hpositions i (List.mem_cons_self ..)
    have helement := Position.entry_eq_ok_iff.mpr (List.getElem?_eq_getElem hi)
    unfold searchAt
    rw [helement, Checked.ok_bind]
    refine (hs.improve_ends (List.getElem_mem hi)).bind fun here _ hhere => ?_
    cases hhere with
    | moved himproved he hm hg hcommit hevent =>
      simp only [himproved, if_true]
      exact .moved himproved he hm hg hcommit hevent
    | idle himproved hsame =>
      simp only [himproved, Bool.false_eq_true, if_false]
      -- The rest of the pass goes over the same solution.
      rw [← hsame] at hs hpositions ⊢
      refine (ih hs fun j hj => hpositions j (List.mem_cons_of_mem _ hj)).bind
        fun later _ hlater => ?_
      cases hlater with
      | idle hidle hlast => exact .idle hidle hlast
      | moved hmoved he hm hg hcommit hevent =>
        exact .moved hmoved he hm hg hcommit (List.mem_append_right _ hevent)

/-- A pass over a responsive solution ends. It leaves the solution alone, or commits one move
that it scored as an improvement. -/
theorem Responsive.search_ends (hs : engine.Responsive failed state.solution) :
    Ends (engine.search state) (engine.Passed state.solution) failed :=
  hs.searchAt_ends fun _ hi => List.mem_range.mp hi

end Engine

end Descent
