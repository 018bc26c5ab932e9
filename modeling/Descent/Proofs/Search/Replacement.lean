import Descent.Proofs.Countdown
import Descent.Proofs.Search.Pass

/-!
# Engines that do the same

A search asks its evaluator only about moves that its solution lists, and commits only such moves.
So an evaluator and a commit that agree with those of an engine on the listed moves, for as long as
a search can come to them, can take their place: every pass and every run is the same, whether it
ends or fails, down to its transcript. What the parts do elsewhere is never seen
(`Replaces.search_eq`, `Replaces.run_eq`, `Replaces.record_eq`).
-/

namespace Descent

namespace Engine

variable {σ τ S E M G C : Type} {engine : Engine σ τ S E M G} {evaluator : Evaluator σ S E M G}
  {commit : S → E → M → Checked (Bool × S)} {I : S → Prop}

/-- An engine with another evaluator and another commit. -/
def replace (engine : Engine σ τ S E M G) (evaluator : Evaluator σ S E M G)
    (commit : S → E → M → Checked (Bool × S)) : Engine σ τ S E M G :=
  { engine with evaluator, commit }

section Fields

variable (engine evaluator commit)

@[simp] theorem replace_elements :
    (engine.replace evaluator commit).elements = engine.elements := rfl

@[simp] theorem replace_neighborhood :
    (engine.replace evaluator commit).neighborhood = engine.neighborhood := rfl

@[simp] theorem replace_evaluator : (engine.replace evaluator commit).evaluator = evaluator := rfl

@[simp] theorem replace_commit : (engine.replace evaluator commit).commit = commit := rfl

@[simp] theorem replace_stop : (engine.replace evaluator commit).stop = engine.stop := rfl

@[simp] theorem replace_config : (engine.replace evaluator commit).config = engine.config := rfl

end Fields

/-- Parts that agree with those of an engine on the listed moves of all solutions of a kind. A
commit of a listed move leads to such a solution again. -/
structure Replaces (engine : Engine σ τ S E M G) (evaluator : Evaluator σ S E M G)
    (commit : S → E → M → Checked (Bool × S)) (I : S → Prop) : Prop where
  score : ∀ s, I s → ∀ e ∈ engine.elements s, ∀ m ∈ engine.neighborhood s e, ∀ memory,
    evaluator.score memory s e m = engine.evaluator.score memory s e m
  notice : evaluator.notice = engine.evaluator.notice
  commit : ∀ s, I s → ∀ e ∈ engine.elements s, ∀ m ∈ engine.neighborhood s e,
    commit s e m = engine.commit s e m
  kept : ∀ s, I s → ∀ e ∈ engine.elements s, ∀ m ∈ engine.neighborhood s e, ∀ accepted s',
    engine.commit s e m = .ok (accepted, s') → I s'

variable [Gain G]

/-! ## Passes -/

theorem scan_replace {s : S} {e : E} {memory : σ} {t : τ} {best : Option (G × M)} {moves : List M}
    (h : ∀ m ∈ moves, ∀ memory,
      evaluator.score memory s e m = engine.evaluator.score memory s e m) :
    (engine.replace evaluator commit).scan s e memory t best moves =
      engine.scan s e memory t best moves := by
  induction moves generalizing memory t best with
  | nil => rfl
  | cons m rest ih =>
    unfold scan
    simp only [replace_evaluator, replace_stop, replace_config, h m (List.mem_cons_self ..),
      ih fun m' hm' => h m' (List.mem_cons_of_mem _ hm')]

variable {state : SearchState σ τ S}

theorem Replaces.improve_eq (h : engine.Replaces evaluator commit I) (hs : I state.solution) {e : E}
    (he : e ∈ engine.elements state.solution) :
    (engine.replace evaluator commit).improve state e = engine.improve state e := by
  unfold improve
  simp only [replace_neighborhood, replace_stop, replace_evaluator, replace_commit,
    scan_replace (h.score _ hs e he), h.notice]
  cases hfound : engine.scan state.solution e state.evaluator (engine.stop.reset state.stop) none
      (engine.neighborhood state.solution e) with
  | error e => rfl
  | ok found =>
    simp only [Checked.ok_bind]
    cases htaken : found.taken with
    | none => rfl
    | some gm =>
      -- The move that is committed is one of those that were listed.
      rcases (scanned_of_scan hfound).taken_mem htaken with hm | hbest
      · simp only [h.commit _ hs e he gm.2 hm]
      · cases hbest

theorem Replaces.searchAt_eq (h : engine.Replaces evaluator commit I) {positions : List Nat}
    (hs : I state.solution) :
    (engine.replace evaluator commit).searchAt state positions =
      engine.searchAt state positions := by
  induction positions generalizing state with
  | nil => rfl
  | cons i rest ih =>
    unfold searchAt
    simp only [replace_elements]
    cases hentry : Position.entry (engine.elements state.solution) i with
    | error e => rfl
    | ok e =>
      have he := List.mem_of_getElem? (Position.entry_eq_ok_iff.mp hentry)
      simp only [Checked.ok_bind, h.improve_eq hs he]
      cases hpass : engine.improve state e with
      | error e => rfl
      | ok pass =>
        have hkept : I pass.state.solution := improve_keeps (h.kept _ hs e he) hs hpass
        simp only [Checked.ok_bind, ih hkept]

/-- A pass is the same. -/
theorem Replaces.search_eq (h : engine.Replaces evaluator commit I) (hs : I state.solution) :
    (engine.replace evaluator commit).search state = engine.search state :=
  h.searchAt_eq hs

/-! ## Runs -/

theorem Replaces.runWithin_eq (h : engine.Replaces evaluator commit I) {left : Nat} {tally : Tally}
    (hs : I state.solution) :
    (engine.replace evaluator commit).runWithin left state tally =
      engine.runWithin left state tally := by
  induction left generalizing state tally with
  | zero => rfl
  | succ left ih =>
    unfold runWithin
    simp only [replace_config, h.search_eq hs]
    cases hpass : engine.search state with
    | error e => rfl
    | ok pass => simp only [Checked.ok_bind, ih (search_keeps h.kept hs hpass)]

/-- A run is the same. -/
theorem Replaces.run_eq (h : engine.Replaces evaluator commit I) (hs : I state.solution) :
    (engine.replace evaluator commit).run state = engine.run state :=
  h.runWithin_eq hs

theorem Replaces.recordWithin_eq (h : engine.Replaces evaluator commit I) {objective : S → Checked C}
    {left : Nat} {record : Record C} (hs : I state.solution) :
    (engine.replace evaluator commit).recordWithin objective left state record =
      engine.recordWithin objective left state record := by
  induction left generalizing state record with
  | zero => rfl
  | succ left ih =>
    unfold recordWithin
    rw [h.search_eq hs]
    cases hpass : engine.search state with
    | error e => rfl
    | ok pass => simp only [Checked.ok_bind, ih (search_keeps h.kept hs hpass)]

/-- A recorded run is the same. -/
theorem Replaces.record_eq (h : engine.Replaces evaluator commit I) (objective : S → Checked C)
    (hs : I state.solution) :
    (engine.replace evaluator commit).record objective state = engine.record objective state := by
  unfold record
  simp only [replace_config, h.recordWithin_eq hs]

end Engine

end Descent
