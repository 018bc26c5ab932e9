import Descent.Acceptance.Annealing
import Descent.Acceptance.Tabu
import Descent.Proofs.Search.Replacement
import Descent.Proofs.Search.Transcript
import Descent.Proofs.Siting.Moves
import Descent.Proofs.Siting.Progress

/-!
# The moves of a roster are the legal updates

The moves around the facilities of a roster that can be reached, one facility after the other, are
the legal updates of the enabled kinds, and each of them comes once. Every one of them can be scored
and is made. So no search over rosters ever scores an update that is not legal, or has one refused:
with any fault in place of what it would do then, it goes the same way (`moves_legal`).
-/

namespace Descent

open Checked (Ends)

/-! ## Layers -/

/-- A layer around evaluators that scores a move by what the one inside says of that move. -/
structure Evaluator.Layer {σ σ' S E M G G' : Type}
    (layer : Evaluator σ S E M G → Evaluator σ' S E M G') : Prop where
  score : ∀ a b s e m, (∀ memory, a.score memory s e m = b.score memory s e m) →
    ∀ memory, (layer a).score memory s e m = (layer b).score memory s e m
  notice : ∀ a b, a.notice = b.notice → (layer a).notice = (layer b).notice

namespace Evaluator.Layer

variable {σ σ' S E M G G' R K : Type} {layer : Evaluator σ S E M G → Evaluator σ' S E M G'}

theorem none : Layer (id : Evaluator σ S E M G → Evaluator σ S E M G) :=
  ⟨fun _ _ _ _ _ h => h, fun _ _ h => h⟩

theorem annealedBy [Measured G' R] [Chance R] (h : Layer layer) (c : AnnealingConfig R)
    (draws : Draws) :
    Layer fun a => (Evaluator.annealedBy c draws (layer a) : Evaluator _ S E M R) where
  score a b s e m hsame memory := by
    unfold Evaluator.annealedBy
    simp only [h.score a b s e m hsame]
  notice a b hsame := by
    unfold Evaluator.annealedBy
    simp only [h.notice a b hsame]

theorem tabu [DecidableEq K] [Measured G' R] [Chance R] (h : Layer layer) (c : TabuConfig)
    (attributes : E → M → List K) :
    Layer fun a => (Evaluator.tabu c attributes (layer a) : Evaluator _ S E M R) where
  score a b s e m hsame memory := by
    unfold Evaluator.tabu
    simp only [h.score a b s e m hsame]
  notice a b hsame := by
    unfold Evaluator.tabu
    simp only [h.notice a b hsame]

end Evaluator.Layer

/-! ## One list of all moves -/

/-- The facility that an update is a move around. -/
def Update.origin {V : Type} : Update V → V
  | .opening f => f
  | .closing f => f
  | .exchange closed _ => closed

namespace Roster

section Lists

variable {V D : Type} [Vertex V] {kinds : MoveKinds} {r : Roster V D} {u : Update V}

/-- The moves around all facilities, one facility after the other. -/
def moves (kinds : MoveKinds) (r : Roster V D) : List (Update V) :=
  r.facilities.flatMap (neighborhood kinds r)

theorem origin_of_mem {entry : Facility V} (h : u ∈ neighborhood kinds r entry) :
    u.origin = entry.vertex := by
  unfold neighborhood at h
  cases hchosen : entry.isChosen with
  | true =>
    simp only [hchosen, if_true, List.mem_append] at h
    rcases h with h | h
    · obtain ⟨-, rfl⟩ : kinds.closing = true ∧ u = .closing entry.vertex := by simpa using h
      rfl
    · obtain ⟨-, f, -, rfl⟩ : kinds.exchange = true ∧
          ∃ f ∈ r.idle.toList, .exchange entry.vertex f = u := by simpa using h
      rfl
  | false =>
    obtain ⟨-, rfl⟩ : kinds.opening = true ∧ u = .opening entry.vertex := by
      simpa [hchosen] using h
    rfl

/-- No move comes twice around one facility. -/
theorem nodup_neighborhood (kinds : MoveKinds) (r : Roster V D) (entry : Facility V) :
    (neighborhood kinds r entry).Nodup := by
  have hexchanges : (r.idle.toList.map (Update.exchange entry.vertex)).Nodup :=
    r.idle.nodup.map fun _ _ h => (Update.exchange.inj h).2
  unfold neighborhood
  cases entry.isChosen with
  | true =>
    cases kinds.closing with
    | true =>
      cases kinds.exchange with
      | true => simpa using hexchanges
      | false => simp
    | false =>
      cases kinds.exchange with
      | true => simpa using hexchanges
      | false => simp
  | false =>
    cases kinds.opening with
    | true => simp
    | false => simp

theorem Agrees.nodup_moves (hr : r.Agrees) (kinds : MoveKinds) : (r.moves kinds).Nodup := by
  refine List.nodup_flatMap.mpr ⟨fun entry _ => nodup_neighborhood kinds r entry, ?_⟩
  refine (List.pairwise_map.mp hr.nodup).imp fun hne => List.disjoint_left.mpr fun u hu hu' => ?_
  exact hne ((origin_of_mem hu).symm.trans (origin_of_mem hu'))

theorem Agrees.legal_of_mem_moves (hr : r.Agrees) (h : u ∈ r.moves kinds) :
    u.Legal r.plan.chosen r.plan.unchosen ∧ kinds.allows u = true := by
  obtain ⟨entry, hentry, hu⟩ := List.mem_flatMap.mp h
  exact hr.legal_of_mem hentry hu

theorem Agrees.mem_moves_iff (hr : r.Agrees)
    (hdisjoint : ∀ f ∈ r.plan.chosen, f ∉ r.plan.unchosen) :
    u ∈ r.moves kinds ↔ u.Legal r.plan.chosen r.plan.unchosen ∧ kinds.allows u = true := by
  refine ⟨hr.legal_of_mem_moves, ?_⟩
  rintro ⟨hu, hk⟩
  exact List.mem_flatMap.mpr (hr.exists_mem hdisjoint hu hk)

end Lists

variable {V D : Type} [Vertex V] [Distance D] {problem : SitingProblem V D} {clients : List V}
  {kinds : MoveKinds} {r : Roster V D} {u : Update V}

/-- What holds of the moves of a roster. -/
structure Covers (problem : SitingProblem V D) (kinds : MoveKinds) (r : Roster V D) : Prop where
  /-- They are the legal updates of the enabled kinds, each one once. -/
  listed : ∀ u, u ∈ r.moves kinds ↔ u.Legal r.plan.chosen r.plan.unchosen ∧ kinds.allows u = true
  nodup : (r.moves kinds).Nodup
  /-- The change of the cost is answered, the gain is what it says, and the update is made, unless
  the metric or the arithmetic faults. -/
  answered : ∀ u ∈ r.moves kinds,
    Ends (r.plan.delta problem u) (fun answer => ∃ change, answer = .ok change) problem.MayFail
  scored : ∀ u ∈ r.moves kinds,
    Ends (r.saving problem u) (fun gain => ∃ change, r.plan.delta problem u = .ok (.ok change) ∧
      Distance.neg change = .ok gain) problem.MayFail
  made : ∀ u ∈ r.moves kinds,
    Ends (r.apply problem u) (fun b => ∃ change, b.outcome = .ok change) problem.MayFail
  committed : ∀ u ∈ r.moves kinds,
    Ends (r.commit problem u) (fun result => result.1 = true) problem.MayFail

theorem Sound.covers (hr : r.Sound problem clients) (kinds : MoveKinds) :
    Covers problem kinds r where
  listed _ := hr.agrees.mem_moves_iff hr.plan.disjoint
  nodup := hr.agrees.nodup_moves kinds
  answered _ hu := hr.plan.delta_mayFail (hr.agrees.legal_of_mem_moves hu).1
  scored u hu := by
    obtain ⟨hlegal, -⟩ := hr.agrees.legal_of_mem_moves hu
    refine (hr.plan.delta_mayFail hlegal).bind fun answer hanswer hchange => ?_
    obtain ⟨change, rfl⟩ := hchange
    exact (problem.neg_ends change).mono fun gain hgain _ => ⟨change, hanswer, hgain⟩
  made _ hu := hr.apply_mayFail (hr.agrees.legal_of_mem_moves hu).1
  committed u hu := by
    obtain ⟨hlegal, -⟩ := hr.agrees.legal_of_mem_moves hu
    refine (hr.apply_mayFail hlegal).bind fun b _ hmade => ?_
    obtain ⟨change, hchange⟩ := hmade
    simp only [hchange]
    trivial

/-! ## Searches that refuse to go on -/

section Strict

variable {σ τ G C : Type} {panic : Fault}
  {layer : Evaluator Unit (Roster V D) (Facility V) (Update V) D →
    Evaluator σ (Roster V D) (Facility V) (Update V) G}
  {stop : StopRule τ (Roster V D) (Facility V) (Update V)} {config : SearchConfig}

/-- What an update would save, with a fault if it is not legal. -/
def strictSaving (panic : Fault) (problem : SitingProblem V D) (r : Roster V D) (u : Update V) :
    Checked D := do
  match ← r.plan.delta problem u with
  | .ok change => Distance.neg change
  | .error _ => .error panic

/-- Makes an update, with a fault if it is not legal. -/
def strictCommit (panic : Fault) (problem : SitingProblem V D) (r : Roster V D) (u : Update V) :
    Checked (Bool × Roster V D) := do
  let attempt ← r.apply problem u
  match attempt.outcome with
  | .ok _ => pure (true, attempt.state)
  | .error _ => .error panic

theorem Sound.strictSaving_eq (hr : r.Sound problem clients)
    (hu : u.Legal r.plan.chosen r.plan.unchosen) :
    r.strictSaving panic problem u = r.saving problem u := by
  unfold strictSaving saving
  cases hanswer : r.plan.delta problem u with
  | error e => rfl
  | ok answer =>
    obtain ⟨change, rfl⟩ := (hr.plan.delta_mayFail hu).value hanswer
    rfl

theorem Sound.strictCommit_eq (hr : r.Sound problem clients)
    (hu : u.Legal r.plan.chosen r.plan.unchosen) :
    r.strictCommit panic problem u = r.commit problem u := by
  unfold strictCommit commit
  cases hmade : r.apply problem u with
  | error e => rfl
  | ok attempt =>
    obtain ⟨change, hchange⟩ := (hr.apply_mayFail hu).value hmade
    simp only [Checked.ok_bind, hchange]

/-- The search over a roster with a fault in place of what it would do with an update that is not
legal, both when it scores one, inside any layers, and when it commits one. -/
def strictEngine (panic : Fault) (problem : SitingProblem V D) (kinds : MoveKinds)
    (layer : Evaluator Unit (Roster V D) (Facility V) (Update V) D →
      Evaluator σ (Roster V D) (Facility V) (Update V) G)
    (stop : StopRule τ (Roster V D) (Facility V) (Update V)) (config : SearchConfig) :
    Engine σ τ (Roster V D) (Facility V) (Update V) G :=
  (engine problem kinds (layer (savings problem)) stop config).replace
    (layer (.ofFunction fun r _ u => r.strictSaving panic problem u))
    fun r _ u => r.strictCommit panic problem u

theorem strict_replaces (panic : Fault) (hlayer : Evaluator.Layer layer) :
    (engine problem kinds (layer (savings problem)) stop config).Replaces
      (layer (.ofFunction fun r _ u => r.strictSaving panic problem u))
      (fun r _ u => r.strictCommit panic problem u) (Sound problem clients) where
  score r hr entry hentry u hu := by
    refine hlayer.score _ _ r entry u fun memory => ?_
    unfold savings Evaluator.ofFunction
    simp only [hr.strictSaving_eq (hr.agrees.legal_of_mem hentry hu).1]
  notice := hlayer.notice _ _ rfl
  commit r hr entry hentry u hu := hr.strictCommit_eq (hr.agrees.legal_of_mem hentry hu).1
  kept r hr entry hentry u hu accepted s hcommit := by
    obtain ⟨b, hb, rfl, -⟩ := commit_eq_ok hcommit
    exact hr.apply hb

/-- A strict search does not go on from an update that is refused. -/
theorem strictCommit_accepts {accepted : Bool} {s : Roster V D}
    (h : r.strictCommit panic problem u = .ok (accepted, s)) : accepted = true := by
  obtain ⟨attempt, -, h⟩ := Checked.bind_ok_iff.mp h
  cases houtcome : attempt.outcome with
  | ok change =>
    simp only [houtcome] at h
    cases h
    rfl
  | error refusal =>
    simp only [houtcome] at h
    cases h

variable [Gain G]

/-- What holds of the searches from a state. They are the strict ones, whatever fault those have in
place of a score or a commit of an update that is not legal: no such update is ever scored or
committed. So every commit of theirs is accepted. -/
structure NeverRefused (problem : SitingProblem V D) (kinds : MoveKinds)
    (layer : Evaluator Unit (Roster V D) (Facility V) (Update V) D →
      Evaluator σ (Roster V D) (Facility V) (Update V) G)
    (stop : StopRule τ (Roster V D) (Facility V) (Update V)) (config : SearchConfig)
    (state : SearchState σ τ (Roster V D)) : Prop where
  search : ∀ panic, (strictEngine panic problem kinds layer stop config).search state =
    (engine problem kinds (layer (savings problem)) stop config).search state
  run : ∀ panic, (strictEngine panic problem kinds layer stop config).run state =
    (engine problem kinds (layer (savings problem)) stop config).run state
  record : ∀ (C : Type) (objective : Roster V D → Checked C) panic,
    (strictEngine panic problem kinds layer stop config).record objective state =
      (engine problem kinds (layer (savings problem)) stop config).record objective state
  accepted_search : ∀ pass,
    (engine problem kinds (layer (savings problem)) stop config).search state = .ok pass →
      ∀ e u accepted, .committed e u accepted ∈ pass.events → accepted = true
  accepted_run : ∀ run,
    (engine problem kinds (layer (savings problem)) stop config).run state = .ok run →
      ∀ e u accepted, .committed e u accepted ∈ run.events → accepted = true

theorem Sound.neverRefused {state : SearchState σ τ (Roster V D)}
    (hstate : state.solution.Sound problem clients) (hlayer : Evaluator.Layer layer) :
    NeverRefused problem kinds layer stop config state where
  search panic := (strict_replaces panic hlayer).search_eq hstate
  run panic := (strict_replaces panic hlayer).run_eq hstate
  record _ objective panic := (strict_replaces panic hlayer).record_eq objective hstate
  accepted_search pass hpass e u accepted hevent := by
    rw [← (strict_replaces (.overflow .add) hlayer).search_eq hstate] at hpass
    obtain ⟨last, calls, htold⟩ := Engine.search_told hpass
    obtain ⟨r, s, -, hcommit⟩ := htold.generated hevent
    exact strictCommit_accepts hcommit
  accepted_run run hrun e u accepted hevent := by
    rw [← (strict_replaces (.overflow .add) hlayer).run_eq hstate] at hrun
    obtain ⟨last, htold⟩ := Engine.runWithin_told hrun
    obtain ⟨calls, htold, -⟩ := htold.transcribed.answered
    obtain ⟨r, s, -, hcommit⟩ := htold.generated hevent
    exact strictCommit_accepts hcommit

end Strict

/-- The moves of a roster that can be reached are the legal updates of the enabled kinds, each of
them once, and each of them can be scored and made. A search from there, with any layers around the
savings and any stop rule, never scores or commits another update, and is never refused one. -/
theorem moves_legal (hr : Reachable problem clients r) (kinds : MoveKinds) :
    Covers problem kinds r ∧
    ∀ {σ τ G : Type} [Gain G]
      {layer : Evaluator Unit (Roster V D) (Facility V) (Update V) D →
        Evaluator σ (Roster V D) (Facility V) (Update V) G},
      Evaluator.Layer layer → ∀ (stop : StopRule τ (Roster V D) (Facility V) (Update V))
        (config : SearchConfig) (memory : σ) (t : τ),
        NeverRefused problem kinds layer stop config ⟨r, memory, t⟩ :=
  ⟨hr.sound.covers kinds, fun hlayer _ _ _ _ => hr.sound.neverRefused hlayer⟩

/-- After an exchange the moves are those of the new marks. An update that is not among them saves
nothing and is rejected. A strict search would fault there, but none comes to it, with annealed
scores around tabu ones as little as with plain savings. -/
theorem moves_legal_slope :
    ∃ (plan : Plan Int (Signed 64)) (a : Attempt Int (Roster Int (Signed 64)) (Signed 64))
      (pass : Pass Unit Unit _ _ _),
      Plan.build slopeSites [3] [0, 5] [4, 2, 1, 7, 4] = .ok (.ok plan) ∧
      (ofPlan plan).apply slopeSites (.exchange 3 5) = .ok a ∧
      a.state.moves .all = [.opening 3, .opening 0, .closing 5, .exchange 5 0, .exchange 5 3] ∧
      Covers slopeSites .all a.state ∧
      a.state.saving slopeSites (.opening 5) = .ok Gain.zero ∧
      a.state.commit slopeSites (.opening 5) = .ok (false, a.state) ∧
      a.state.strictSaving .notSquare slopeSites (.opening 5) = .error .notSquare ∧
      (engine slopeSites .all (savings slopeSites) (.never : StopRule Unit _ _ _) {}).search
        ⟨a.state, (), ()⟩ = .ok pass ∧ pass.improved = true ∧
      (strictEngine .notSquare slopeSites .all id (.never : StopRule Unit _ _ _) {}).search
        ⟨a.state, (), ()⟩ = .ok pass ∧
      NeverRefused slopeSites .all
        (fun inner => .annealed ⟨2.0, 1.0, .linear 1, none⟩ 11
          (.tabu {} (fun _ u => u.facilities) inner : Evaluator _ _ _ _ Float))
        (.never : StopRule Unit _ _ _) {} ⟨a.state, ⟨⟨(), .empty⟩, ⟨2.0, 0, 0, 0⟩⟩, ()⟩ := by
  have at_roster : ∀ (plan : Plan Int (Signed 64))
      (a : Attempt Int (Roster Int (Signed 64)) (Signed 64)) (pass : Pass Unit Unit _ _ _),
      Plan.build slopeSites [3] [0, 5] [4, 2, 1, 7, 4] = .ok (.ok plan) →
      (ofPlan plan).apply slopeSites (.exchange 3 5) = .ok a →
      (engine slopeSites .all (savings slopeSites) (.never : StopRule Unit _ _ _) {}).search
        ⟨a.state, (), ()⟩ = .ok pass →
      Covers slopeSites .all a.state ∧
      (strictEngine .notSquare slopeSites .all id (.never : StopRule Unit _ _ _) {}).search
        ⟨a.state, (), ()⟩ = .ok pass ∧
      NeverRefused slopeSites .all
        (fun inner => .annealed ⟨2.0, 1.0, .linear 1, none⟩ 11
          (.tabu {} (fun _ u => u.facilities) inner : Evaluator _ _ _ _ Float))
        (.never : StopRule Unit _ _ _) {} ⟨a.state, ⟨⟨(), .empty⟩, ⟨2.0, 0, 0, 0⟩⟩, ()⟩ := by
    intro plan a pass hbuild ha hpass
    obtain ⟨hcovers, hsearches⟩ := moves_legal (.applied (.listed (.built hbuild)) ha) .all
    have hplain := hsearches Evaluator.Layer.none (.never : StopRule Unit _ _ _) {} () ()
    refine ⟨hcovers, (hplain.search .notSquare).trans hpass, hsearches ?_ .never {} _ ()⟩
    exact (Evaluator.Layer.none.tabu (R := Float) {} fun _ u => Update.facilities u).annealedBy _
      (Keystream.draws 11)
  obtain ⟨hcovers, hstrict, hlayered⟩ := at_roster _ _ _ rfl rfl rfl
  exact ⟨_, _, _, rfl, rfl, rfl, hcovers, rfl, rfl, rfl, rfl, rfl, hstrict, hlayered⟩

end Roster

end Descent
