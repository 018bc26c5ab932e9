import Descent.Proofs.Countdown
import Descent.Proofs.Search.Commit

/-!
# The trail of a run

A run leaves a trail of states, one for every pass that committed a move. What all such passes
keep or bring about holds along the whole trail: `Trail.keeps` and `Trail.pairwise`. A recorded
run writes the objective of every state of its trail down (`recordWithin_followed`), and has only
converged if one more pass committed nothing (`record_ends`). How a plain run ends follows from
that: `run_ends_of_record`.
-/

namespace Descent

open Checked (Ends)

namespace Engine

variable {σ τ S E M G C : Type} [Gain G] {engine : Engine σ τ S E M G}

/-! ## Trails -/

/-- Passes that each commit a move: the states that they lead to, and the last state of all. -/
inductive Trail (engine : Engine σ τ S E M G) :
    SearchState σ τ S → List (SearchState σ τ S) → SearchState σ τ S → Prop where
  | stay {state : SearchState σ τ S} : Trail engine state [] state
  | pass {state last : SearchState σ τ S} {pass : Pass σ τ S E M}
    {later : List (SearchState σ τ S)} :
    engine.search state = .ok pass → pass.improved = true → Trail engine pass.state later last →
    Trail engine state (pass.state :: later) last

variable {start last : SearchState σ τ S} {later : List (SearchState σ τ S)}

theorem Trail.getLast?_eq (h : engine.Trail start later last) :
    (start :: later).getLast? = some last := by
  induction h with
  | stay => rfl
  | pass _ _ _ ih => rw [List.getLast?_cons_cons, ih]

theorem Trail.last_mem (h : engine.Trail start later last) : last ∈ start :: later :=
  List.mem_of_getLast? h.getLast?_eq

/-- What every pass that commits a move keeps, a trail keeps. -/
theorem Trail.keeps {I : S → Prop}
    (kept : ∀ state pass, I state.solution → engine.search state = .ok pass →
      pass.improved = true → I pass.state.solution)
    (h : engine.Trail start later last) (hstart : I start.solution) :
    ∀ s ∈ start :: later, I s.solution := by
  induction h with
  | stay => simpa using hstart
  | pass hpass himproved _ ih =>
    exact List.forall_mem_cons.mpr ⟨hstart, ih (kept _ _ hstart hpass himproved)⟩

/-- What every pass that commits a move brings about, from its start to its end, holds between
the states of a trail that follow each other. -/
theorem Trail.isChain {I : S → Prop} {R : S → S → Prop}
    (step : ∀ state pass, I state.solution → engine.search state = .ok pass →
      pass.improved = true → I pass.state.solution ∧ R state.solution pass.state.solution)
    (h : engine.Trail start later last) (hstart : I start.solution) :
    (start :: later).IsChain fun a b => R a.solution b.solution := by
  induction h with
  | stay => exact List.isChain_singleton _
  | pass hpass himproved htrail ih =>
    obtain ⟨hkept, hstep⟩ := step _ _ hstart hpass himproved
    exact List.isChain_cons_cons.mpr ⟨hstep, ih hkept⟩

/-- If it can be put together, it holds between any two states of a trail. -/
theorem Trail.pairwise {I : S → Prop} {R : S → S → Prop}
    (trans : ∀ a b c, R a b → R b c → R a c)
    (step : ∀ state pass, I state.solution → engine.search state = .ok pass →
      pass.improved = true → I pass.state.solution ∧ R state.solution pass.state.solution)
    (h : engine.Trail start later last) (hstart : I start.solution) :
    (start :: later).Pairwise fun a b => R a.solution b.solution := by
  have hchain := List.isChain_map_of_isChain SearchState.solution (fun _ _ h => h)
    (h.isChain step hstart)
  have htrans : Trans R R R := ⟨trans _ _ _⟩
  exact List.pairwise_map.mp hchain.pairwise

/-! ## Recorded runs -/

/-- A recorded run from a state, with the record so far, and what it ended with. Its passes leave
a trail, whose objectives complete the history. It ended with a pass that committed nothing, or
because the cap was reached. -/
structure Followed (engine : Engine σ τ S E M G) (objective : S → Checked C) (left : Nat)
    (start : SearchState σ τ S) (record : Record C) (done : Recorded σ τ S C)
    (later : List (SearchState σ τ S)) (last : SearchState σ τ S) : Prop where
  trail : engine.Trail start later last
  history : ∃ values, later.mapM (fun s => objective s.solution) = .ok values ∧
    done.record.history = record.history ++ values
  improvements : done.record.improvements = record.improvements + later.length
  ended : (done.record.converged = true ∧
      done.record.passes = record.passes + later.length + 1 ∧
      ∃ pass, engine.search last = .ok pass ∧ pass.improved = false ∧ done.state = pass.state) ∨
    (engine.config.cap ≠ 0 ∧ later.length = left ∧
      done.record.converged = record.converged ∧
      done.record.passes = record.passes + later.length ∧ done.state = last)

variable {objective : S → Checked C} {left : Nat} {state : SearchState σ τ S} {record : Record C}

/-- A run ends with the last solution of its trail, if passes that commit nothing change nothing. -/
theorem Followed.solution_eq {done : Recorded σ τ S C}
    (h : engine.Followed objective left state record done later last)
    (idle : ∀ pass, engine.search last = .ok pass → pass.improved = false →
      pass.state.solution = last.solution) : done.state.solution = last.solution := by
  rcases h.ended with ⟨-, -, pass, hpass, hidle, hstate⟩ | ⟨-, -, -, -, hstate⟩
  · rw [hstate]
    exact idle pass hpass hidle
  · rw [hstate]

/-- A run without passes left ends because its cap is reached. -/
theorem recordWithin_zero_eq_ok {done : Recorded σ τ S C}
    (h : engine.recordWithin objective 0 state record = .ok done) :
    engine.config.cap ≠ 0 ∧ done = ⟨record, state⟩ := by
  unfold recordWithin SearchConfig.atBudget at h
  by_cases hcap : engine.config.cap = 0
  · rw [if_pos hcap] at h
    cases h
  · rw [if_neg hcap] at h
    cases h
    exact ⟨hcap, rfl⟩

/-- A run with a pass left ends with that pass, if it commits nothing, or goes on from it. -/
theorem recordWithin_succ_eq_ok {done : Recorded σ τ S C}
    (h : engine.recordWithin objective (left + 1) state record = .ok done) :
    ∃ pass, engine.search state = .ok pass ∧
      ((pass.improved = false ∧
          done = ⟨{ record with passes := record.passes + 1, converged := true }, pass.state⟩) ∨
        (pass.improved = true ∧ ∃ value, objective pass.state.solution = .ok value ∧
          engine.recordWithin objective left pass.state
            { record with
              passes := record.passes + 1
              improvements := record.improvements + 1
              history := record.history ++ [value] } = .ok done)) := by
  unfold recordWithin at h
  obtain ⟨pass, hpass, h⟩ := Checked.bind_ok_iff.mp h
  refine ⟨pass, hpass, ?_⟩
  cases himproved : pass.improved with
  | false =>
    simp only [himproved, Bool.false_eq_true, if_false] at h
    cases h
    exact .inl ⟨rfl, rfl⟩
  | true =>
    simp only [himproved, if_true] at h
    exact .inr ⟨rfl, Checked.bind_ok_iff.mp h⟩

/-- Every recorded run that ended has followed a trail. -/
theorem recordWithin_followed {done : Recorded σ τ S C}
    (h : engine.recordWithin objective left state record = .ok done) :
    ∃ later last, engine.Followed objective left state record done later last := by
  induction left generalizing state record with
  | zero =>
    obtain ⟨hcap, rfl⟩ := recordWithin_zero_eq_ok h
    exact ⟨[], state, .stay, ⟨[], rfl, by simp⟩, rfl, .inr ⟨hcap, rfl, rfl, rfl, rfl⟩⟩
  | succ left ih =>
    obtain ⟨pass, hpass, ⟨hidle, rfl⟩ | ⟨himproved, value, hvalue, h⟩⟩ := recordWithin_succ_eq_ok h
    · exact ⟨[], state, .stay, ⟨[], rfl, by simp⟩, rfl, .inl ⟨rfl, rfl, pass, hpass, hidle, rfl⟩⟩
    · obtain ⟨later, last, htrail, ⟨values, hvalues, hhistory⟩, himprovements, hended⟩ := ih h
      -- The record had one pass more when the rest of the run began.
      have hcount (n : Nat) : n + (pass.state :: later).length = n + 1 + later.length := by
        rw [List.length_cons]
        omega
      refine ⟨pass.state :: later, last, .pass hpass himproved htrail,
        ⟨value :: values, ?_, ?_⟩, himprovements.trans (hcount _).symm, ?_⟩
      · rw [List.mapM_cons, hvalue, hvalues]
        rfl
      · rw [hhistory, List.append_assoc]
        rfl
      · rw [hcount]
        rcases hended with hidle | ⟨hcap, hleft, hend⟩
        · exact .inl hidle
        · exact .inr ⟨hcap, by rw [List.length_cons, hleft], hend⟩

/-- The last pass of a run commits nothing. -/
def EndsWith (engine : Engine σ τ S E M G) (I : S → Prop) (last : SearchState σ τ S) : Prop :=
  ∃ before pass, I before.solution ∧ engine.search before = .ok pass ∧ pass.improved = false ∧
    last = pass.state

theorem recordWithin_ends {I : S → Prop}
    (kept : ∀ state pass, I state.solution → engine.search state = .ok pass →
      I pass.state.solution)
    {done : Recorded σ τ S C} (hs : I state.solution) (hrecord : record.converged = false)
    (h : engine.recordWithin objective left state record = .ok done) :
    I done.state.solution ∧ (done.record.converged = true → engine.EndsWith I done.state) := by
  obtain ⟨later, last, hfollowed⟩ := recordWithin_followed h
  have hlast : I last.solution := hfollowed.trail.keeps (fun state pass hs hpass _ =>
    kept state pass hs hpass) hs last hfollowed.trail.last_mem
  rcases hfollowed.ended with ⟨-, -, pass, hpass, hidle, hstate⟩ | ⟨-, -, hsame, -, hstate⟩
  · rw [hstate]
    exact ⟨kept last pass hlast hpass, fun _ => ⟨last, pass, hlast, hpass, hidle, rfl⟩⟩
  · -- The cap was reached, and the record still says that the run has not converged.
    refine ⟨hstate ▸ hlast, fun hconverged => ?_⟩
    rw [hsame, hrecord] at hconverged
    cases hconverged

/-- A recorded run keeps what every pass keeps, and has only converged if its last pass committed
nothing. -/
theorem record_ends {I : S → Prop}
    (kept : ∀ state pass, I state.solution → engine.search state = .ok pass →
      I pass.state.solution)
    {done : Recorded σ τ S C} (hs : I state.solution)
    (h : engine.record objective state = .ok done) :
    I done.state.solution ∧ (done.record.converged = true → engine.EndsWith I done.state) := by
  unfold record at h
  obtain ⟨start, -, h⟩ := Checked.bind_ok_iff.mp h
  exact recordWithin_ends kept hs rfl h

/-- A recorded run ends if its passes and the objective do, unless its passes cannot be
counted. -/
theorem recordWithin_ends_of_search {I : S → Prop} {failed : Fault → Prop}
    (hcount : failed (.overflow .add))
    (hsearch : ∀ state, I state.solution →
      Ends (engine.search state) (fun pass => I pass.state.solution) failed)
    (hobjective : ∀ s, I s → Ends (objective s) (fun _ => True) failed)
    (hs : I state.solution) :
    Ends (engine.recordWithin objective left state record) (fun _ => True) failed := by
  induction left generalizing state record with
  | zero =>
    unfold recordWithin SearchConfig.atBudget
    by_cases hcap : engine.config.cap = 0
    · rw [if_pos hcap]
      exact hcount
    · rw [if_neg hcap]
      trivial
  | succ left ih =>
    unfold recordWithin
    refine (hsearch state hs).bind fun pass _ hkept => ?_
    cases himproved : pass.improved with
    | false => trivial
    | true =>
      simp only [if_true]
      exact (hobjective _ hkept).bind fun value _ _ => ih hkept

/-! ## Plain runs -/

/-- A plain run ends as a recorded one does that has nothing to record. -/
theorem run_ends_of_record {P : Tally → SearchState σ τ S → Prop} {failed : Fault → Prop}
    (h : Ends (engine.recordWithin (fun _ => .ok ()) engine.config.budget state ⟨0, 0, false, []⟩)
      (fun done => P done.record.tally done.state) failed) :
    Ends (engine.run state) (fun run => P run.tally run.state) failed := by
  have hmap : Ends ((fun done => (done.record.tally, done.state)) <$>
      engine.recordWithin (fun _ => .ok ()) engine.config.budget state ⟨0, 0, false, []⟩)
      (fun x => P x.1 x.2) failed := Checked.ends_map.mpr h
  rw [← map_runWithin _ _ (SearchConfig.counted_budget _)] at hmap
  exact Checked.ends_map.mp hmap

end Engine

end Descent
