import Descent.Proofs.Acceptance.Notices
import Descent.Proofs.Acceptance.Unsigned
import Descent.Proofs.Siting.Roster
import Descent.Siting.Moves

/-!
# Bans under annealed scores

A tabu score around any evaluator, and annealed scores around that: a banned move has the score
below all others, and no temperature makes that a chance to pass. The quotient of the two stays
where it is or is undefined, and no draw is below its exponential. So a move that is banned is never
taken, neither by chance nor when the temperature is at its minimum, and neither under the first nor
under the best strategy: `ban_lasts`. All that is asked of the exponential function is what it makes
of the number below all others and of an undefined one (`ExpLaws`).
-/

namespace Descent

/-! ## The exponential function -/

/-- Doubles as chances, with a given exponential function. -/
@[reducible] def Binary.chanceWith (exp : Float → Float) : Chance Float :=
  { (inferInstance : Chance Float) with exp }

/-- What an exponential function does at the lower end and beyond the numbers. -/
structure ExpLaws (exp : Float → Float) : Prop where
  lowest : exp Binary.lowest = 0
  undefined : ∀ x, x.isNaN = true → (exp x).isNaN = true

namespace Evaluator

variable {σ S E M G K : Type} [DecidableEq K] [Measured G Float]

/-- Annealed scores around tabu ones, in doubles with a given exponential function. -/
@[reducible] def annealedTabu (exp : Float → Float) (c : AnnealingConfig Float) (draws : Draws)
    (tc : TabuConfig) (attributes : E → M → List K) (base : Evaluator σ S E M G) :
    Evaluator (Annealed (TabuMemory σ K) Float) S E M Float :=
  letI := Binary.chanceWith exp
  .annealedBy c draws (.tabu tc attributes base : Evaluator _ S E M Float)

/-- The exponential function of doubles makes them the evaluators that they are. -/
theorem annealedTabu_exp (c : AnnealingConfig Float) (draws : Draws) (tc : TabuConfig)
    (attributes : E → M → List K) (base : Evaluator σ S E M G) :
    annealedTabu Float.exp c draws tc attributes base =
      .annealedBy c draws (.tabu tc attributes base : Evaluator _ S E M Float) := rfl

end Evaluator

/-! ## Scores -/

section Scores

variable {exp : Float → Float} {c : AnnealingConfig Float} {t : Thermal Float}

/-- A gain that does not improve is left as it is unless a draw is below its chance. -/
theorem Thermal.score_of_not_lt {R : Type} [Chance R] {c : AnnealingConfig R} {draws : Draws}
    {t : Thermal R} {gain : R} (hgain : Gain.improves gain = false)
    (hdraw : Gain.lt (Chance.unit (draws t.draws))
      (Chance.exp (Scalar.div gain t.temperature)) = false) : (t.score c draws gain).1 = gain := by
  unfold score
  by_cases hfrozen : c.isFrozen t.temperature = true
  · rw [if_pos (by rw [hfrozen, Bool.or_true])]
  · rw [if_neg (by rw [hgain, Bool.false_or]; exact hfrozen)]
    simp only [hdraw, Bool.false_eq_true, if_false]

theorem not_improves_lowest : Gain.improves Binary.lowest = false := rfl

/-- The number below all others is left as it is at any temperature without a minus sign. -/
theorem Thermal.score_lowest (hexp : ExpLaws exp) (ht : Binary.Unsigned t.temperature)
    (draws : Draws) :
    letI := Binary.chanceWith exp
    (t.score c draws Chance.lowest).1 = Chance.lowest := by
  have hdraw : Gain.lt (Binary.unit (draws t.draws))
      (exp (Binary.lowest / t.temperature)) = false := by
    apply (Binary.unsigned_unit _).not_lt
    rcases Binary.lowest_div ht with hsame | hundefined
    · exact .inl (by rw [hsame, hexp.lowest])
    · exact .inr (hexp.undefined _ hundefined)
  let chance := Binary.chanceWith exp
  exact score_of_not_lt not_improves_lowest hdraw

/-- A tabu score is the number below all others, or that of a move that is not banned, or that of a
gain that lifts the ban. -/
theorem TabuConfig.score_cases {R : Type} [Chance R] (tc : TabuConfig) (isTabu : Bool) (gain : R) :
    tc.score isTabu gain = Chance.lowest ∨ isTabu = false ∨
      (tc.aspiration = true ∧ Gain.improves gain = true) := by
  unfold score
  cases isTabu with
  | false => exact .inr (.inl rfl)
  | true =>
    cases haspiration : tc.aspiration && Gain.improves gain with
    | false => exact .inl rfl
    | true => exact .inr (.inr (Bool.and_eq_true _ _ ▸ haspiration))

end Scores

/-! ## Evaluators -/

namespace Evaluator

variable {σ S E M G K : Type} [DecidableEq K] [Measured G Float] {exp : Float → Float}
  {c : AnnealingConfig Float} {draws : Draws} {tc : TabuConfig} {attributes : E → M → List K}
  {base : Evaluator σ S E M G} {memory last : Annealed (TabuMemory σ K) Float} {s : S} {e : E}
  {m : M} {score : Float}

/-- What a move must be like to be scored as an improvement: none of its attributes is in the list,
or aspiration lifts the ban because its own gain improves. -/
theorem allowed_of_improves (hexp : ExpLaws exp) (ht : Binary.Unsigned memory.thermal.temperature)
    (h : (annealedTabu exp c draws tc attributes base).score memory s e m = .ok (score, last))
    (himproves : Gain.improves score = true) :
    (∀ k ∈ attributes e m, memory.inner.list.holds k = false) ∨
      (tc.aspiration = true ∧ ∃ gain baseMemory,
        base.score memory.inner.inner s e m = .ok (gain, baseMemory) ∧
          Gain.improves (Measured.toScalar gain : Float) = true) := by
  let chance := Binary.chanceWith exp
  obtain ⟨tabuScore, inner, hinner, rfl, -⟩ := annealed_score_eq_ok h
  obtain ⟨gain, baseMemory, hbase, rfl, -⟩ := tabu_score_eq_ok hinner
  rcases tc.score_cases ((attributes e m).any memory.inner.list.holds)
    (Measured.toScalar gain : Float) with hlowest | hfree | ⟨haspiration, hgain⟩
  · have hscore : (memory.thermal.score c draws
        (Measured.toScalar (Chance.lowest : Float))).1 = Chance.lowest :=
      Thermal.score_lowest hexp ht _
    rw [hlowest, hscore] at himproves
    exact absurd himproves (Bool.eq_false_iff.mp not_improves_lowest)
  · exact .inl fun k hk => by simpa using List.any_eq_false.mp hfree k hk
  · exact .inr ⟨haspiration, gain, baseMemory, hbase, hgain⟩

/-! ## Memories -/

variable {fresh : Annealed (TabuMemory σ K) Float} {calls : List (Call S E M)}

/-- A memory that an evaluator has after some calls, when it has started out fresh. -/
def Reached (evaluator : Evaluator (Annealed (TabuMemory σ K) Float) S E M Float)
    (c : AnnealingConfig Float) (tc : TabuConfig) (calls : List (Call S E M))
    (memory : Annealed (TabuMemory σ K) Float) : Prop :=
  ∃ fresh, Thermal.start? c = .ok fresh.thermal ∧
    (TabuList.start? tc : Except (Misconfiguration Float) _) = .ok fresh.inner.list ∧
    evaluator.Answers fresh calls memory

theorem Reached.append {later : List (Call S E M)}
    (h : (annealedTabu exp c draws tc attributes base).Reached c tc calls memory)
    (hlater : (annealedTabu exp c draws tc attributes base).Answers memory later last) :
    (annealedTabu exp c draws tc attributes base).Reached c tc (calls ++ later) last := by
  obtain ⟨fresh, hthermal, hlist, hanswers⟩ := h
  exact ⟨fresh, hthermal, hlist, hanswers.append hlater⟩

/-- The temperature never gets a minus sign. -/
theorem Reached.unsigned
    (h : (annealedTabu exp c draws tc attributes base).Reached c tc calls memory) :
    Binary.Unsigned memory.thermal.temperature := by
  obtain ⟨fresh, hthermal, -, hanswers⟩ := h
  obtain ⟨hvalid, hinitial, -⟩ := Thermal.eq_of_start? hthermal
  have husable := AnnealingConfig.usable_of_validate hvalid
  let chance := Binary.chanceWith exp
  rw [hanswers.temperature, hinitial]
  exact husable.foldl_cool husable.initial.hasSign _

/-- The list has the attributes of the moves that the evaluator was told of. -/
theorem Reached.records
    (h : (annealedTabu exp c draws tc attributes base).Reached c tc calls memory) :
    memory.inner.list.Records tc.tenure
      ((calls.filterMap Call.noticed?).flatMap fun move => attributes move.1 move.2) := by
  obtain ⟨fresh, -, hlist, hanswers⟩ := h
  obtain ⟨hpositive, hempty⟩ := TabuList.records_of_start? hlist
  let chance := Binary.chanceWith exp
  have hrecords := hanswers.of_annealed.records hpositive hempty
  rwa [List.nil_append] at hrecords

end Evaluator

/-! ## Runs -/

namespace Engine

open Evaluator (annealedTabu)

variable {σ τ S E M G K : Type} [DecidableEq K] [Measured G Float] {exp : Float → Float}
  {c : AnnealingConfig Float} {draws : Draws} {tc : TabuConfig} {attributes : E → M → List K}
  {base : Evaluator σ S E M G} {engine : Engine (Annealed (TabuMemory σ K) Float) τ S E M Float}
  {start : SearchState (Annealed (TabuMemory σ K) Float) τ S} {calls : List (Call S E M)}

/-- A move whose own gain improves, by the score that the base evaluator gave it in the scan after
which it was committed. -/
structure Gainful (engine : Engine (Annealed (TabuMemory σ K) Float) τ S E M Float)
    (base : Evaluator σ S E M G) (start : SearchState (Annealed (TabuMemory σ K) Float) τ S)
    (before : List (Event S E M)) (q : Place S E) (e : E) (m : M) (gain : G) : Prop where
  scored : ∃ earlier looks memory baseMemory, before = earlier ++ .scored e m :: looks ∧
    (∀ event ∈ looks, event.isLook = true) ∧
    engine.Answered (engine.opening start.solution) start.evaluator earlier q memory ∧
    base.score memory.inner.inner q.solution e m = .ok (gain, baseMemory)
  improves : Gain.improves (Measured.toScalar gain : Float) = true

/-- What holds of a move when it is committed. The list has the last attributes of all moves that
were accepted before, and none of the move's own is among them, or aspiration lifts the ban. -/
def Allowed (engine : Engine (Annealed (TabuMemory σ K) Float) τ S E M Float)
    (tc : TabuConfig) (attributes : E → M → List K) (base : Evaluator σ S E M G)
    (start : SearchState (Annealed (TabuMemory σ K) Float) τ S) (added : List K)
    (before : List (Event S E M)) (e : E) (m : M) (accepted : Bool) : Prop :=
  ∃ q memory, engine.Answered (engine.opening start.solution) start.evaluator before q memory ∧
    (∃ s, engine.commit q.solution e m = .ok (accepted, s)) ∧
    memory.inner.list.Records tc.tenure added ∧
    ((∀ k ∈ attributes e m, k ∉ memory.inner.list.queue) ∨
      (tc.aspiration = true ∧ ∃ gain : G, engine.Gainful base start before q e m gain))

/-- The attributes of the moves that an evaluator was told of in some calls, and of those that were
accepted after them. -/
def addedBy (attributes : E → M → List K) (calls : List (Call S E M))
    (before : List (Event S E M)) : List K :=
  (calls.filterMap Call.noticed? ++ before.filterMap Event.accepted?).flatMap
    fun move => attributes move.1 move.2

/-- Events after which a commit is merited leave the memory that the scores so far have led to. -/
theorem Answered.reached {p q : Place S E} {before : List (Event S E M)}
    {memory last : Annealed (TabuMemory σ K) Float}
    (hevaluator : engine.evaluator = annealedTabu exp c draws tc attributes base)
    (hreached : (annealedTabu exp c draws tc attributes base).Reached c tc calls memory)
    (h : engine.Answered p memory before q last) :
    Binary.Unsigned last.thermal.temperature ∧
      last.inner.list.Records tc.tenure (addedBy attributes calls before) := by
  obtain ⟨later, htold, hanswers⟩ := h
  rw [hevaluator] at hanswers
  have hlast := hreached.append hanswers
  have hrecords := hlast.records
  rw [List.filterMap_append, htold.noticed_eq] at hrecords
  exact ⟨hlast.unsigned, hrecords⟩

theorem Merited.allowed (hexp : ExpLaws exp)
    (hevaluator : engine.evaluator = annealedTabu exp c draws tc attributes base)
    (hreached : (annealedTabu exp c draws tc attributes base).Reached c tc calls start.evaluator)
    {before : List (Event S E M)} {e : E} {m : M} {accepted : Bool} {q : Place S E}
    {memory : Annealed (TabuMemory σ K) Float}
    (h : engine.Merited (engine.opening start.solution) start.evaluator before e m accepted q
      memory) :
    engine.Allowed tc attributes base start (addedBy attributes calls before) before e m
      accepted := by
  obtain ⟨hanswered, -, hcommitted, hscored⟩ := h
  obtain ⟨earlier, looks, score, memory₁, memory₂, hsplit, hlooks, hearlier, hscore, himproves⟩ :=
    hscored
  obtain ⟨-, hrecords⟩ := hanswered.reached hevaluator hreached
  obtain ⟨hunsigned, hrecords₁⟩ := hearlier.reached hevaluator hreached
  -- Looks tell the evaluator of no move, so the list was the same when the move was scored.
  have hadded : addedBy attributes calls before = addedBy attributes calls earlier := by
    have hnone := Event.accepted?_of_isLook hlooks
    unfold addedBy
    rw [hsplit, List.filterMap_append, List.filterMap_cons_none rfl, hnone, List.append_nil]
  refine ⟨q, memory, hanswered, hcommitted, hrecords, ?_⟩
  rw [hevaluator] at hscore
  rcases Evaluator.allowed_of_improves hexp hunsigned hscore himproves with hfree |
    ⟨haspiration, gain, baseMemory, hbase, hgain⟩
  · refine .inl fun k hk hmem => ?_
    rw [hrecords.queue, hadded, ← hrecords₁.holds_iff] at hmem
    rw [hfree k hk] at hmem
    cases hmem
  · exact .inr ⟨haspiration, gain, ⟨earlier, looks, memory₁, baseMemory, hsplit, hlooks, hearlier,
      hbase⟩, hgain⟩

/-- Every move that is committed in a run is allowed at that moment. -/
theorem run_allowed (hexp : ExpLaws exp)
    (hevaluator : engine.evaluator = annealedTabu exp c draws tc attributes base)
    (hreached : (annealedTabu exp c draws tc attributes base).Reached c tc calls start.evaluator)
    {run : Run (Annealed (TabuMemory σ K) Float) τ S E M} (hrun : engine.run start = .ok run)
    {before after : List (Event S E M)} {e : E} {m : M} {accepted : Bool}
    (hsplit : run.events = before ++ .committed e m accepted :: after) :
    engine.Allowed tc attributes base start (addedBy attributes calls before) before e m
      accepted := by
  obtain ⟨last, htold⟩ := runWithin_told hrun
  obtain ⟨q, memory, hmerited⟩ := htold.transcribed.merited before e m accepted after hsplit
  exact hmerited.allowed hexp hevaluator hreached

end Engine

/-! ## Bans that last -/

section Bans

open Evaluator (annealedTabu)
open Engine (addedBy)

variable {exp : Float → Float}

/-- Under annealed scores around tabu ones, from usable configurations and with any draws, no move
is ever committed that is banned at that moment, unless aspiration is on and the base evaluator
scored it as an improvement in the scan before. So if the attributes of an update are the facilities
that it touches, an update that opens or closes one of the latest of them again always saves
something. -/
theorem ban_lasts (hexp : ExpLaws exp) :
    (∀ {σ τ S E M G K : Type} [DecidableEq K] [Measured G Float] {c : AnnealingConfig Float}
      {draws : Draws} {tc : TabuConfig} {attributes : E → M → List K} {base : Evaluator σ S E M G}
      {engine : Engine (Annealed (TabuMemory σ K) Float) τ S E M Float}
      {start : SearchState (Annealed (TabuMemory σ K) Float) τ S} {calls : List (Call S E M)}
      {run : Run (Annealed (TabuMemory σ K) Float) τ S E M},
      engine.evaluator = annealedTabu exp c draws tc attributes base →
      engine.evaluator.Reached c tc calls start.evaluator → engine.run start = .ok run →
      ∀ before e m accepted after, run.events = before ++ .committed e m accepted :: after →
        engine.Allowed tc attributes base start (addedBy attributes calls before) before e m
          accepted) ∧
    (∀ {τ V D : Type} [Vertex V] [Distance D] [Measured D Float] {problem : SitingProblem V D}
      {c : AnnealingConfig Float} {draws : Draws} {tc : TabuConfig}
      {engine : Engine (Annealed (TabuMemory Unit V) Float) τ (Roster V D) (Facility V) (Update V)
        Float}
      {start : SearchState (Annealed (TabuMemory Unit V) Float) τ (Roster V D)}
      {calls : List (Call (Roster V D) (Facility V) (Update V))}
      {run : Run (Annealed (TabuMemory Unit V) Float) τ (Roster V D) (Facility V) (Update V)},
      engine.evaluator =
        annealedTabu exp c draws tc (fun _ u => u.facilities) (Roster.savings problem) →
      engine.evaluator.Reached c tc calls start.evaluator → engine.run start = .ok run →
      ∀ before e u accepted after, run.events = before ++ .committed e u accepted :: after →
        ∀ f, u.opened? = some f ∨ u.closed? = some f →
          f ∈ (addedBy (fun _ u => u.facilities) calls before).rtake tc.tenure →
          tc.aspiration = true ∧ ∃ q memory saved,
            engine.Answered (engine.opening start.solution) start.evaluator before q memory ∧
            q.solution.saving problem u = .ok saved ∧
            Gain.improves (Measured.toScalar saved : Float) = true) := by
  constructor
  · intro σ τ S E M G K _ _ c draws tc attributes base engine start calls run hevaluator hreached
      hrun before e m accepted after hsplit
    rw [hevaluator] at hreached
    exact Engine.run_allowed hexp hevaluator hreached hrun hsplit
  · intro τ V D _ _ _ problem c draws tc engine start calls run hevaluator hreached hrun before e u
      accepted after hsplit f hf hrecent
    rw [hevaluator] at hreached
    obtain ⟨q, memory, hanswered, -, hrecords, hallowed⟩ :=
      Engine.run_allowed hexp hevaluator hreached hrun hsplit
    have hfacility : f ∈ u.facilities := by
      unfold Update.facilities
      rcases hf with hf | hf <;> simp [hf]
    rcases hallowed with hfree | ⟨haspiration, saved, ⟨earlier, looks, memory', baseMemory, -, -, -,
      hscore⟩, himproves⟩
    · exact absurd (hrecords.queue ▸ hrecent) (hfree f hfacility)
    · obtain ⟨saved', hsaving, hsaved⟩ := Checked.bind_ok_iff.mp hscore
      cases hsaved
      exact ⟨haspiration, q, memory, saved, hanswered, hsaving, himproves⟩

/-- An exponential function that is right wherever the runs below ask it: at zero and at the number
below all others. -/
def coarseExp (x : Float) : Float := if x.isNaN then x else if x < 0 then 0 else 1

theorem coarseExp_laws : ExpLaws coarseExp where
  lowest := rfl
  undefined x hx := by
    unfold coarseExp
    rw [if_pos hx]
    exact hx

/-- A cell that goes up two steps, and could then go back at no loss, which is banned. -/
def swing : Engine (Annealed (TabuMemory Unit Nat) Float) Unit (List Int) Nat
    (LandscapeMove Float) Float :=
  let steps : Landscape Float :=
    ⟨[((0, 0), [⟨1, 1.0, true, []⟩]), ((0, 1), [⟨2, 3.0, true, []⟩]),
      ((0, 2), [⟨0, 0.0, true, []⟩])]⟩
  steps.engine false (annealedTabu coarseExp ⟨2.0, 0.25, .geometric 0.5, none⟩
    (Keystream.draws 11) ⟨1, true⟩ (fun cell _ => [cell]) Landscape.gains) .never {}

/-- A siting search of two passes. -/
def sitting : Engine (Annealed (TabuMemory Unit Int) Float) Unit (Roster Int (Signed 64))
    (Facility Int) (Update Int) Float :=
  Roster.engine Roster.slopeSites .all (annealedTabu coarseExp ⟨2.0, 1.0, .linear 1, none⟩
    (Keystream.draws 11) {} (fun _ u => u.facilities) (Roster.savings Roster.slopeSites)) .never
    { cap := 2 }

set_option maxRecDepth 20000 in
/-- The cell goes up its second step although it is banned, since that step is a gain, and stays
there. The first site that was opened is given up at once for a better one. -/
theorem ban_lasts_swing :
    (∃ run, swing.run ⟨[0], ⟨⟨(), .empty⟩, ⟨2.0, 0, 0, 0⟩⟩, ()⟩ = .ok run ∧
      run.tally = ⟨3, 2, true⟩ ∧ run.state.solution = [2] ∧
      ∃ before q m gain, swing.Gainful Landscape.gains
        ⟨[0], ⟨⟨(), .empty⟩, ⟨2.0, 0, 0, 0⟩⟩, ()⟩ before q 0 m (gain : Float)) ∧
    ∃ (plan : Plan Int (Signed 64)) (run : Run _ Unit (Roster Int (Signed 64)) _ (Update Int)),
      Plan.build Roster.slopeSites [] [0, 1, 3, 5] [4, 2, 1, 7, 4] = .ok (.ok plan) ∧
        sitting.run ⟨Roster.ofPlan plan, ⟨⟨(), .empty⟩, ⟨2.0, 0, 0, 0⟩⟩, ()⟩ = .ok run ∧
        run.accepted.map Prod.snd = [.opening 0, .exchange 0 1] ∧
        ∃ r saved, Roster.saving Roster.slopeSites r (.exchange 0 1) = .ok saved ∧
          0 < saved.val := by
  have at_swing : ∀ run, swing.run ⟨[0], ⟨⟨(), .empty⟩, ⟨2.0, 0, 0, 0⟩⟩, ()⟩ = .ok run →
      run.accepted.map Prod.fst = [0, 0] →
      ∃ before q m gain, swing.Gainful Landscape.gains
        ⟨[0], ⟨⟨(), .empty⟩, ⟨2.0, 0, 0, 0⟩⟩, ()⟩ before q 0 m (gain : Float) := by
    intro run hrun hcells
    match hmoves : run.accepted, hcells with
    | [(_, m₁), (_, m₂)], rfl =>
      obtain ⟨before, after, hsplit, hbefore⟩ := Event.exists_accepted [_] hmoves
      obtain ⟨q, memory, -, -, hrecords, hallowed⟩ := (ban_lasts coarseExp_laws).1 rfl
        ⟨_, rfl, rfl, .silent⟩ hrun before 0 m₂ true after hsplit
      have hbanned : 0 ∈ memory.inner.list.queue := by
        rw [hrecords.queue, addedBy, hbefore]
        exact List.mem_singleton.mpr rfl
      rcases hallowed with hfree | ⟨-, gain, hgain⟩
      · exact absurd hbanned (hfree 0 (List.mem_singleton.mpr rfl))
      · exact ⟨before, q, m₂, gain, hgain⟩
  have at_sitting : ∀ (plan : Plan Int (Signed 64)) run,
      Plan.build Roster.slopeSites [] [0, 1, 3, 5] [4, 2, 1, 7, 4] = .ok (.ok plan) →
      sitting.run ⟨Roster.ofPlan plan, ⟨⟨(), .empty⟩, ⟨2.0, 0, 0, 0⟩⟩, ()⟩ = .ok run →
      run.accepted.map Prod.snd = [.opening 0, .exchange 0 1] →
      ∃ r saved, Roster.saving Roster.slopeSites r (.exchange 0 1) = .ok saved ∧
        0 < saved.val := by
    intro plan run hbuild hrun hupdates
    match hmoves : run.accepted, hupdates with
    | [(e₁, _), (e₂, _)], rfl =>
      obtain ⟨before, after, hsplit, hbefore⟩ := Event.exists_accepted [_] hmoves
      obtain ⟨-, q, memory, saved, -, hsaving, himproves⟩ := (ban_lasts coarseExp_laws).2 rfl
        ⟨_, rfl, rfl, .silent⟩ hrun before e₂ _ true after hsplit 0 (.inr rfl) (by
          rw [addedBy, hbefore]
          exact List.mem_singleton.mpr rfl)
      exact ⟨q.solution, saved, hsaving, Binary.improves_ofInt_iff.mp himproves⟩
  constructor
  · have hrun : (swing.run ⟨[0], ⟨⟨(), .empty⟩, ⟨2.0, 0, 0, 0⟩⟩, ()⟩).toOption.map
        (fun run => (run.tally, run.state.solution, run.accepted.map Prod.fst)) =
        some (⟨3, 2, true⟩, [2], [0, 0]) := by decide +kernel
    cases hresult : swing.run ⟨[0], ⟨⟨(), .empty⟩, ⟨2.0, 0, 0, 0⟩⟩, ()⟩ with
    | error e =>
      rw [hresult] at hrun
      cases hrun
    | ok run =>
      rw [hresult] at hrun
      simp only [Except.toOption, Option.map_some, Option.some.injEq, Prod.mk.injEq] at hrun
      obtain ⟨htally, hsolution, hcells⟩ := hrun
      exact ⟨run, rfl, htally, hsolution, at_swing run hresult hcells⟩
  · refine ⟨_, _, rfl, rfl, rfl, ?_⟩
    exact at_sitting _ _ rfl rfl rfl

end Bans

end Descent
