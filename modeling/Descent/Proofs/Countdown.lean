import Descent.Proofs.Outcome
import Descent.Siting.Run
import Descent.Tour.Run

/-!
# Runs as a countdown

The runs of engines, of tours and of sitings each have a loop of their own, with a test of the cap
of its own. The tests are the same one, `SearchConfig.not_exhausted_iff`, and they pass as long as
there is room left in the budget (`SearchConfig.Counted`). So a loop may as well count down that
room. `Engine.recordWithin` does, and keeps a record as it goes. All three loops go its way:
`Engine.map_runWithin`, `Tour.shorten_eq` and `Roster.optimizeWith_eq`.
-/

namespace Descent

/-! ## The cap -/

namespace SearchConfig

variable {α : Type} {c : SearchConfig} {passes room : Nat}

/-- The cap is not reached exactly if there is none or the passes are below it. -/
theorem not_exhausted_iff : ¬ c.exhausted passes = true ↔ c.cap = 0 ∨ passes < c.cap := by
  unfold exhausted
  rw [Bool.and_eq_true, not_and_or, decide_eq_true_iff, decide_eq_true_iff, Nat.not_lt,
    Nat.not_le, Nat.le_zero]

/-- Passes that have been counted, with room for all that the cap still allows. -/
def Counted (c : SearchConfig) (passes room : Nat) : Prop := c.cap = 0 ∨ passes + room = c.cap

theorem counted_budget (c : SearchConfig) : c.Counted 0 c.budget := by
  unfold Counted budget
  by_cases hcap : c.cap = 0
  · exact .inl hcap
  · rw [if_neg hcap, Nat.zero_add]
    exact .inr rfl

theorem Counted.next (h : c.Counted passes (room + 1)) : c.Counted (passes + 1) room :=
  h.imp id fun hcap => by omega

/-- As long as there is room, the cap is not reached. -/
theorem Counted.allowed (h : c.Counted passes (room + 1)) : c.cap = 0 ∨ passes < c.cap :=
  h.imp id fun hcap => by omega

/-- Without room it is reached, if there is one. -/
theorem Counted.reached (h : c.Counted passes 0) (hcap : c.cap ≠ 0) :
    ¬ (c.cap = 0 ∨ passes < c.cap) := by
  have hsame := h.resolve_left hcap
  omega

/-- What a run ends with when its budget is used up: the cap is reached, or the count of passes
leaves its word. -/
def atBudget (c : SearchConfig) (result : α) : Checked α :=
  if c.cap = 0 then .error (.overflow .add) else .ok result

theorem atBudget_of_uncapped (h : c.cap = 0) (result : α) :
    c.atBudget result = .error (.overflow .add) := if_pos h

theorem atBudget_of_capped (h : c.cap ≠ 0) (result : α) : c.atBudget result = .ok result := if_neg h

theorem budget_of_capped (h : c.cap ≠ 0) : c.budget = c.cap := if_neg h

end SearchConfig

/-! ## The countdown -/

/-- What a record says without its history. -/
def Record.tally {C : Type} (record : Record C) : Tally :=
  ⟨record.passes, record.improvements, record.converged⟩

/-- The record of a run with the state that it leaves. -/
structure Recorded (σ τ S C : Type) where
  record : Record C
  state : SearchState σ τ S

namespace Engine

variable {σ τ S E M G C : Type} [Gain G]

/-- Repeats passes, within a number of them, until one commits nothing. The record so far is
completed by the objective after every committed move. -/
def recordWithin (engine : Engine σ τ S E M G) (objective : S → Checked C) :
    Nat → SearchState σ τ S → Record C → Checked (Recorded σ τ S C)
  | 0, state, record => engine.config.atBudget ⟨record, state⟩
  | left + 1, state, record => do
    let pass ← engine.search state
    let passes := record.passes + 1
    if pass.improved then
      let value ← objective pass.state.solution
      engine.recordWithin objective left pass.state
        { record with
          passes
          improvements := record.improvements + 1
          history := record.history ++ [value] }
    else
      pure ⟨{ record with passes, converged := true }, pass.state⟩

/-- Repeats passes until one commits nothing or the cap is reached, and records the objective. -/
def record (engine : Engine σ τ S E M G) (objective : S → Checked C)
    (state : SearchState σ τ S) : Checked (Recorded σ τ S C) := do
  let start ← objective state.solution
  engine.recordWithin objective engine.config.budget state ⟨0, 0, false, [start]⟩

variable {engine : Engine σ τ S E M G} {left : Nat}

/-- A plain run is a countdown that has nothing to record. -/
theorem map_runWithin (state : SearchState σ τ S) (record : Record Unit)
    (hcount : engine.config.Counted record.passes left) :
    (fun run => (run.tally, run.state)) <$> engine.runWithin left state record.tally =
      (fun done => (done.record.tally, done.state)) <$>
        engine.recordWithin (fun _ => .ok ()) left state record := by
  induction left generalizing state record with
  | zero =>
    unfold runWithin recordWithin
    by_cases hcap : engine.config.cap = 0
    · rw [if_neg (SearchConfig.not_exhausted_iff.mpr (.inl hcap)),
        SearchConfig.atBudget_of_uncapped hcap]
      rfl
    · rw [if_pos, SearchConfig.atBudget_of_capped hcap]
      · rfl
      · by_contra hgoes
        exact hcount.reached hcap (SearchConfig.not_exhausted_iff.mp hgoes)
  | succ left ih =>
    have hgoes : ¬ engine.config.exhausted record.tally.iterations = true :=
      SearchConfig.not_exhausted_iff.mpr hcount.allowed
    unfold runWithin recordWithin
    rw [if_neg hgoes]
    cases engine.search state with
    | error e => rfl
    | ok pass =>
      simp only [Checked.ok_bind]
      cases pass.improved with
      | false => rfl
      | true =>
        simp only [if_true]
        rw [← ih _ _ hcount.next]
        simp only [Record.tally]
        -- What the rest of the run does not say are the events of the pass alone.
        cases engine.runWithin left pass.state _ with
        | error e => rfl
        | ok later => rfl

end Engine

/-! ## Tour runs -/

namespace Tour

variable {V D : Type} [Distance D] {distance : Metric V D} {config : SearchConfig}

/-- The history of a tour run tells how many exchanges there were, so a countdown that counts them
ends with the same report. -/
theorem shortenWithin_eq {room scans improvements : Nat} {history : List D} {t : Tour V}
    (hcount : config.Counted scans room) (hhistory : history.length = improvements + 1) :
    t.shortenWithin distance config room scans history =
      (do
        let done ← (engine distance config).recordWithin (Tour.length distance) room ⟨t, (), ()⟩
          ⟨scans, improvements, false, history⟩
        let tour := done.state.solution
        pure { length := ← tour.length distance, record := done.record, tour }) := by
  have himprovements : history.length - 1 = improvements := by omega
  induction room generalizing t scans improvements history with
  | zero =>
    unfold shortenWithin Engine.recordWithin
    show _ = config.atBudget _ >>= _
    by_cases hcap : config.cap = 0
    · rw [if_pos (.inl hcap), SearchConfig.atBudget_of_uncapped hcap]
      rfl
    · rw [if_neg (hcount.reached hcap), SearchConfig.atBudget_of_capped hcap, report,
        himprovements]
      rfl
  | succ room ih =>
    unfold shortenWithin Engine.recordWithin
    rw [if_pos hcount.allowed]
    cases (engine distance config).search ⟨t, (), ()⟩ with
    | error e => rfl
    | ok pass =>
      simp only [Checked.ok_bind]
      cases pass.improved with
      | false =>
        simp only [Bool.false_eq_true, if_false]
        rw [report, himprovements]
        rfl
      | true =>
        simp only [if_true]
        cases pass.state.solution.length distance with
        | error e => rfl
        | ok length =>
          have hlonger : (history ++ [length]).length = improvements + 1 + 1 := by
            rw [List.length_append, hhistory, List.length_singleton]
          exact ih hcount.next hlonger (by rw [hlonger, Nat.add_sub_cancel])

/-- A tour run is the countdown of its engine, with the length as the objective. -/
theorem shorten_eq (distance : Metric V D) (config : SearchConfig) (t : Tour V) :
    t.shorten distance config =
      (do
        let done ← (engine distance config).record (Tour.length distance) ⟨t, (), ()⟩
        let tour := done.state.solution
        pure { length := ← tour.length distance, record := done.record, tour }) := by
  unfold shorten Engine.record
  rw [bind_assoc]
  exact bind_congr fun start => shortenWithin_eq (SearchConfig.counted_budget config) rfl

end Tour

/-! ## Siting runs -/

namespace Roster

variable {σ V D G : Type} [Vertex V] [Distance D] [Gain G] {problem : SitingProblem V D}
  {config : SitingConfig} {evaluator : Evaluator σ (Roster V D) (Facility V) (Update V) G}

/-- The loop of a siting run is a countdown as well, with the cost as the objective. -/
theorem optimizeWithin_eq {room : Nat} {record : Record D}
    {state : SearchState σ Unit (Roster V D)} (hcount : config.Counted record.passes room) :
    optimizeWithin problem config evaluator room record state =
      (do
        let done ← (engine problem config.kinds evaluator .never
          config.toSearchConfig).recordWithin (fun r => r.plan.totalCost problem) room state record
        report problem done.record done.state) := by
  induction room generalizing record state with
  | zero =>
    unfold optimizeWithin Engine.recordWithin
    show _ = config.atBudget _ >>= _
    by_cases hcap : config.cap = 0
    · rw [if_pos (.inl hcap), SearchConfig.atBudget_of_uncapped hcap]
      rfl
    · rw [if_neg (hcount.reached hcap), SearchConfig.atBudget_of_capped hcap]
      rfl
  | succ room ih =>
    unfold optimizeWithin Engine.recordWithin
    rw [if_pos hcount.allowed]
    cases (engine problem config.kinds evaluator .never config.toSearchConfig).search state with
    | error e => rfl
    | ok pass =>
      simp only [Checked.ok_bind]
      cases pass.improved with
      | false => rfl
      | true =>
        simp only [if_true]
        cases pass.state.solution.plan.totalCost problem with
        | error e => rfl
        | ok cost => exact ih hcount.next

/-- A siting run with a usable configuration is the countdown of its engine. -/
theorem optimizeWith_eq (memory : σ) (r : Roster V D) :
    r.optimizeWith problem config evaluator memory =
      (match config.validate with
      | .error refusal => pure (.error refusal)
      | .ok () => do
        let done ← (engine problem config.kinds evaluator .never config.toSearchConfig).record
          (fun r => r.plan.totalCost problem) ⟨r, memory, ()⟩
        let roster := done.state.solution
        let cost ← roster.plan.totalCost problem
        pure (.ok {
          report := { chosen := roster.plan.chosen.toList, cost, record := done.record }
          roster
          evaluator := done.state.evaluator })) := by
  unfold optimizeWith Engine.record
  cases config.validate with
  | error refusal => rfl
  | ok _ =>
    simp only [bind_assoc]
    refine bind_congr fun start => ?_
    rw [optimizeWithin_eq (SearchConfig.counted_budget _), bind_assoc]
    refine bind_congr fun done => ?_
    rw [report, bind_assoc]
    rfl

end Roster

end Descent
