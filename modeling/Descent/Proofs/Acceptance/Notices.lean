import Descent.Acceptance.Annealing
import Descent.Proofs.Acceptance.TabuList
import Descent.Proofs.Search.Transcript
import Descent.Search.Landscape

/-!
# What the layers of an evaluator are told

An annealed or a tabu evaluator hands every call on to the one inside it. So all layers of a stack
get the calls that the search makes, in the same order (`Within.answers`), and what an annealed
layer knows of the temperature, or a tabu layer of the latest attributes, follows from the moves
that were accepted: `Engine.run_heard`.
-/

namespace Descent

/-! ## One layer -/

section Layers

variable {σ S E M G R K : Type}

@[simp] theorem Thermal.score_temperature [Chance R] (c : AnnealingConfig R) (draws : Draws)
    (t : Thermal R) (gain : R) : (t.score c draws gain).2.temperature = t.temperature := by
  unfold score
  split
  · rfl
  · simp only
    split <;> rfl

@[simp] theorem Thermal.score_commits [Chance R] (c : AnnealingConfig R) (draws : Draws)
    (t : Thermal R) (gain : R) : (t.score c draws gain).2.commits = t.commits := by
  unfold score
  split
  · rfl
  · simp only
    split <;> rfl

/-- The memory of a usable configuration is at the initial temperature. -/
theorem Thermal.eq_of_start? [Scalar R] {c : AnnealingConfig R} {t : Thermal R}
    (h : Thermal.start? c = .ok t) :
    c.validate = .ok () ∧ t.temperature = c.initial ∧ t.commits = 0 := by
  unfold start? at h
  cases hvalid : c.validate with
  | error cause =>
    rw [hvalid] at h
    cases h
  | ok valid =>
    rw [hvalid] at h
    cases h
    exact ⟨rfl, rfl, rfl⟩

namespace Evaluator

variable {calls : List (Call S E M)} {inner : Evaluator σ S E M G}

section Annealed

variable [Measured G R] [Chance R] {c : AnnealingConfig R} {draws : Draws}
  {memory last : Annealed σ R}

variable {s : S} {e : E} {m : M}

theorem annealed_score_eq_ok {score : R}
    (h : (annealedBy c draws inner).score memory s e m = .ok (score, last)) :
    ∃ gain innerMemory, inner.score memory.inner s e m = .ok (gain, innerMemory) ∧
      score = (memory.thermal.score c draws (Measured.toScalar gain)).1 ∧
      last = ⟨innerMemory,
        (memory.thermal.score c draws (Measured.toScalar gain)).2⟩ := by
  obtain ⟨⟨gain, innerMemory⟩, hinner, h⟩ := Checked.bind_ok_iff.mp h
  have hpair := Prod.mk.inj (Except.ok.inj h)
  exact ⟨gain, innerMemory, hinner, hpair.1.symm, hpair.2.symm⟩

theorem annealed_notice_eq_ok
    (h : (annealedBy c draws inner : Evaluator _ S E M R).notice memory s e m = .ok last) :
    ∃ innerMemory, inner.notice memory.inner s e m = .ok innerMemory ∧
      last = ⟨innerMemory, memory.thermal.notice c⟩ := by
  obtain ⟨innerMemory, hinner, h⟩ := Checked.bind_ok_iff.mp h
  exact ⟨innerMemory, hinner, (Except.ok.inj h).symm⟩

/-- The evaluator inside an annealed one gets the same calls. -/
theorem Answers.of_annealed
    (h : (annealedBy c draws inner : Evaluator _ S E M R).Answers memory calls last) :
    inner.Answers memory.inner calls last.inner := by
  induction h with
  | silent => exact .silent
  | score hscore _ ih =>
    obtain ⟨gain, innerMemory, hinner, -, rfl⟩ := annealed_score_eq_ok hscore
    exact .score hinner ih
  | notice hnotice _ ih =>
    obtain ⟨innerMemory, hinner, rfl⟩ := annealed_notice_eq_ok hnotice
    exact .notice hinner ih

/-- The temperature falls at each move that an annealed evaluator is told of, and at no other
call. -/
theorem Answers.temperature
    (h : (annealedBy c draws inner : Evaluator _ S E M R).Answers memory calls last) :
    last.thermal.temperature =
      (List.range' memory.thermal.commits (calls.filterMap Call.noticed?).length).foldl c.cool
        memory.thermal.temperature := by
  induction h with
  | silent => rfl
  | score hscore _ ih =>
    obtain ⟨gain, innerMemory, -, -, rfl⟩ := annealed_score_eq_ok hscore
    rw [Thermal.score_temperature, Thermal.score_commits] at ih
    exact ih
  | notice hnotice _ ih =>
    obtain ⟨innerMemory, -, rfl⟩ := annealed_notice_eq_ok hnotice
    exact ih

end Annealed

section Tabu

variable [DecidableEq K] [Measured G R] [Chance R] {c : TabuConfig} {attributes : E → M → List K}
  {memory last : TabuMemory σ K} {added : List K}

variable {s : S} {e : E} {m : M}

theorem tabu_score_eq_ok {score : R}
    (h : (tabu c attributes inner).score memory s e m = .ok (score, last)) :
    ∃ gain innerMemory, inner.score memory.inner s e m = .ok (gain, innerMemory) ∧
      score = c.score ((attributes e m).any memory.list.holds) (Measured.toScalar gain) ∧
      last = ⟨innerMemory, memory.list⟩ := by
  obtain ⟨⟨gain, innerMemory⟩, hinner, h⟩ := Checked.bind_ok_iff.mp h
  have hpair := Prod.mk.inj (Except.ok.inj h)
  exact ⟨gain, innerMemory, hinner, hpair.1.symm, hpair.2.symm⟩

theorem tabu_notice_eq_ok
    (h : (tabu c attributes inner : Evaluator _ S E M R).notice memory s e m = .ok last) :
    ∃ innerMemory list, inner.notice memory.inner s e m = .ok innerMemory ∧
      memory.list.pushAll c.tenure (attributes e m) = .ok list ∧ last = ⟨innerMemory, list⟩ := by
  obtain ⟨innerMemory, hinner, h⟩ := Checked.bind_ok_iff.mp h
  obtain ⟨list, hlist, h⟩ := Checked.bind_ok_iff.mp h
  exact ⟨innerMemory, list, hinner, hlist, (Except.ok.inj h).symm⟩

/-- The evaluator inside a tabu one gets the same calls. -/
theorem Answers.of_tabu
    (h : (tabu c attributes inner : Evaluator _ S E M R).Answers memory calls last) :
    inner.Answers memory.inner calls last.inner := by
  induction h with
  | silent => exact .silent
  | score hscore _ ih =>
    obtain ⟨gain, innerMemory, hinner, -, rfl⟩ := tabu_score_eq_ok hscore
    exact .score hinner ih
  | notice hnotice _ ih =>
    obtain ⟨innerMemory, list, hinner, -, rfl⟩ := tabu_notice_eq_ok hnotice
    exact .notice hinner ih

/-- The list gets the attributes of each move that a tabu evaluator is told of, and no others. -/
theorem Answers.records
    (h : (tabu c attributes inner : Evaluator _ S E M R).Answers memory calls last)
    (hpositive : 0 < c.tenure) (hrecords : memory.list.Records c.tenure added) :
    last.list.Records c.tenure
      (added ++ (calls.filterMap Call.noticed?).flatMap fun move => attributes move.1 move.2) := by
  induction h generalizing added with
  | silent => simpa using hrecords
  | score hscore _ ih =>
    obtain ⟨gain, innerMemory, -, -, rfl⟩ := tabu_score_eq_ok hscore
    exact ih hrecords
  | @notice _ _ _ _ e m _ hnotice _ ih =>
    obtain ⟨innerMemory, list, -, hlist, rfl⟩ := tabu_notice_eq_ok hnotice
    obtain ⟨list', hlist', hrecords'⟩ := hrecords.pushAll hpositive (attributes e m)
    rw [hlist', Except.ok.injEq] at hlist
    subst hlist
    have hlater := ih hrecords'
    rw [List.append_assoc] at hlater
    exact hlater

end Tabu

/-! ## Stacks of layers -/

/-- The layers of an evaluator, from the whole of it down through annealed and tabu ones, each with
the place of its memory in that of the whole. -/
inductive Within : {σ σ' G G' : Type} → Evaluator σ S E M G → Evaluator σ' S E M G' → (σ → σ') →
    Prop where
  | whole {σ G : Type} {evaluator : Evaluator σ S E M G} : Within evaluator evaluator id
  | annealed {σ σ' G G' R : Type} [Measured G' R] [Chance R] {evaluator : Evaluator σ S E M G}
    {inner : Evaluator σ' S E M G'} {c : AnnealingConfig R} {draws : Draws}
    {view : σ → Annealed σ' R} :
    Within evaluator (.annealedBy c draws inner : Evaluator _ S E M R) view →
    Within evaluator inner fun memory => (view memory).inner
  | tabu {σ σ' G G' R K : Type} [DecidableEq K] [Measured G' R] [Chance R]
    {evaluator : Evaluator σ S E M G} {inner : Evaluator σ' S E M G'} {c : TabuConfig}
    {attributes : E → M → List K} {view : σ → TabuMemory σ' K} :
    Within evaluator (.tabu c attributes inner : Evaluator _ S E M R) view →
    Within evaluator inner fun memory => (view memory).inner

/-- All layers get the calls that the whole evaluator gets. -/
theorem Within.answers {σ' G' : Type} {evaluator : Evaluator σ S E M G}
    {layer : Evaluator σ' S E M G'} {view : σ → σ'} (hwithin : Within evaluator layer view)
    {memory last : σ} (h : evaluator.Answers memory calls last) :
    layer.Answers (view memory) calls (view last) := by
  induction hwithin with
  | whole => exact h
  | annealed _ ih => exact (ih h).of_annealed
  | tabu _ ih => exact (ih h).of_tabu

end Evaluator

end Layers

/-! ## Runs -/

/-- The moves that were accepted in a run. -/
def Run.accepted {σ τ S E M : Type} (run : Run σ τ S E M) : List (E × M) :=
  run.events.filterMap Event.accepted?

namespace Engine

variable {σ τ S E M G : Type} {engine : Engine σ τ S E M G}

/-- What the evaluator of a run was told. -/
structure Heard (engine : Engine σ τ S E M G) (start : SearchState σ τ S) (run : Run σ τ S E M)
    (calls : List (Call S E M)) (last : Place S E) : Prop where
  /-- The calls are those of the transcript, which leads to the final solution. -/
  told : engine.Told (engine.opening start.solution) run.events calls last
  solution : last.solution = run.state.solution
  /-- They tell of the accepted moves, of each one once and in their order. -/
  noticed : calls.filterMap Call.noticed? = run.accepted
  improvements : run.accepted.length = run.tally.improvements
  /-- Every layer of the evaluator has got these calls and no others. -/
  layers : ∀ {σ' G' : Type} {layer : Evaluator σ' S E M G'} {view : σ → σ'},
    engine.evaluator.Within layer view →
    layer.Answers (view start.evaluator) calls (view run.state.evaluator)
  /-- An annealed layer that started out fresh has cooled down once for every accepted move. -/
  temperature : ∀ {σ' G' R : Type} [Measured G' R] [Chance R] {c : AnnealingConfig R}
    {draws : Draws} {inner : Evaluator σ' S E M G'} {view : σ → Annealed σ' R},
    engine.evaluator.Within (.annealedBy c draws inner : Evaluator _ S E M R) view →
    Thermal.start? c = .ok (view start.evaluator).thermal →
    (view run.state.evaluator).thermal.temperature =
      (List.range run.tally.improvements).foldl c.cool c.initial
  /-- A tabu layer that started out fresh has the last attributes of all accepted moves. -/
  latest : ∀ {σ' G' R K : Type} [DecidableEq K] [Measured G' R] [Chance R] {c : TabuConfig}
    {attributes : E → M → List K} {inner : Evaluator σ' S E M G'} {view : σ → TabuMemory σ' K},
    engine.evaluator.Within (.tabu c attributes inner : Evaluator _ S E M R) view →
    (TabuList.start? c : Except (Misconfiguration R) _) = .ok (view start.evaluator).list →
    (view run.state.evaluator).list.Records c.tenure
      (run.accepted.flatMap fun move => attributes move.1 move.2)
  /-- There is no call for a rejected move, and the pass goes on with its next element. -/
  rejected : ∀ before e m after, run.events = before ++ .committed e m false :: after →
    ∃ p s first second, calls = first ++ second ∧
      engine.Told (engine.opening start.solution) before first p ∧
      p.element = some e ∧ engine.commit p.solution e m = .ok (false, s) ∧
      engine.Told { p with solution := s, element := none } after second last ∧
      ((after = [] ∧ p.visited = p.count) ∨
        ∃ e' rest, after = .listed s e' :: rest ∧ p.visited < p.count ∧
          (engine.elements s)[p.visited]? = some e')

variable [Gain G]

/-- In a run that ended, the evaluator is called as the transcript tells, and so are all of its
layers: each of them is told of the accepted moves only, of each one once, in their order, and with
the solution as the move left it. -/
theorem run_heard {start : SearchState σ τ S} {run : Run σ τ S E M}
    (h : engine.run start = .ok run) : ∃ calls last, engine.Heard start run calls last := by
  obtain ⟨last, htranscribed, hsolution, hended, haccepted⟩ := runWithin_told h
  obtain ⟨calls, htold, hanswers⟩ := htranscribed.answered
  have hnoticed := htold.noticed_eq
  have himprovements : run.accepted.length = run.tally.improvements := by
    rw [haccepted, Run.accepted, Nat.zero_add]
  refine ⟨calls, last, htold, hsolution, hnoticed, himprovements,
    fun hwithin => hwithin.answers hanswers, ?_, ?_, ?_⟩
  · intro σ' G' R _ _ c draws inner view hwithin hfresh
    obtain ⟨-, hinitial, hcommits⟩ := Thermal.eq_of_start? hfresh
    have htemperature := (hwithin.answers hanswers).temperature
    rw [hnoticed, ← Run.accepted, himprovements, hinitial, hcommits] at htemperature
    rw [htemperature, List.range_eq_range']
  · intro σ' G' R K _ _ _ c attributes inner view hwithin hfresh
    obtain ⟨hpositive, hempty⟩ := TabuList.records_of_start? hfresh
    have hrecords := (hwithin.answers hanswers).records hpositive hempty
    rw [hnoticed, ← Run.accepted, List.nil_append] at hrecords
    exact hrecords
  · intro before e m after hevents
    rw [hevents] at htold
    obtain ⟨first, second, p, rfl, hbefore, hcommitted⟩ := htold.split
    obtain ⟨s, he, hcommit, hafter, hnext⟩ := hcommitted.after_rejected
    refine ⟨p, s, first, second, rfl, hbefore, he, hcommit, hafter, ?_⟩
    rcases hnext with rfl | hnext
    · refine .inl ⟨rfl, ?_⟩
      have hvisited := hbefore.visited_pos (fun hnone => by cases hnone) (by rw [he]; rfl)
      cases hafter
      rcases hended with ⟨-, hall⟩ | ⟨-, hopening⟩
      · exact hall
      · have hzero := congrArg Place.visited hopening
        exact absurd hzero (Nat.ne_of_gt hvisited)
    · exact .inr hnext

/-- Two cells. The first one would like to move but must not, and the second one has two steps to
go. -/
def stairs : Landscape Float where
  rows := [((0, 0), [⟨1, 5.0, false, []⟩]), ((1, 0), [⟨1, 3.0, true, []⟩]),
    ((1, 1), [⟨2, 1.0, true, []⟩])]

/-- Annealed scores around tabu ones, of which a move is banned by the state that it leads to. -/
def layered : Evaluator (Annealed (TabuMemory Unit Int) Float) (List Int) Nat
    (LandscapeMove Float) Float :=
  .annealed ⟨2.0, 0.25, .geometric 0.5, none⟩ 11
    (.tabu ⟨1, true⟩ (fun _ m => [m.target]) Landscape.gains : Evaluator _ _ _ _ Float)

set_option maxRecDepth 20000 in
/-- A run in which the second cell goes up both steps, after the first one was held back in each
pass. -/
theorem run_heard_stairs : ∃ run,
    (stairs.engine false layered (.never : StopRule Unit _ _ _) {}).run
        ⟨[0, 0], ⟨⟨(), .empty⟩, ⟨2.0, 0, 0, 0⟩⟩, ()⟩ = .ok run ∧
      run.tally = ⟨3, 2, true⟩ ∧ run.state.evaluator.thermal.temperature = 0.5 ∧
      run.state.evaluator.inner.list.queue = [2] := by
  have at_run : ∀ run, (stairs.engine false layered (.never : StopRule Unit _ _ _) {}).run
        ⟨[0, 0], ⟨⟨(), .empty⟩, ⟨2.0, 0, 0, 0⟩⟩, ()⟩ = .ok run →
      run.tally.improvements = 2 → run.accepted.map (fun move => move.2.target) = [1, 2] →
      run.state.evaluator.thermal.temperature = 0.5 ∧
      run.state.evaluator.inner.list.queue = [2] := by
    intro run hrun htwo htargets
    obtain ⟨calls, last, hheard⟩ := run_heard hrun
    have htemperature := hheard.temperature .whole rfl
    have hlatest := (hheard.latest (.annealed .whole) rfl).queue
    rw [htwo] at htemperature
    rw [← List.map_eq_flatMap, htargets] at hlatest
    exact ⟨htemperature, hlatest⟩
  refine ⟨_, rfl, rfl, ?_⟩
  exact at_run _ rfl rfl rfl

end Engine

end Descent
