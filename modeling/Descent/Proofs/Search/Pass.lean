import Descent.Proofs.Outcome
import Descent.Search.Engine

/-!
# One pass

What a pass does, from the inside out: `Scanned` lists the ways in which a scan goes on or ends,
`improve_cases` the three ends of the work on one element. From these follow the two facts about
a whole pass that a run needs. What every commit keeps, the pass keeps (`search_keeps`), and a
pass that commits nothing has seen every move of a solution that it left alone, none of which
improves (`search_settled`).
-/

namespace Descent

namespace Engine

variable {σ τ S E M G : Type} [Gain G] {engine : Engine σ τ S E M G}

/-! ## Scans -/

/-- How a scan goes from move to move. -/
inductive Scanned (engine : Engine σ τ S E M G) (s : S) (e : E) :
    σ → τ → Option (G × M) → List M → Scan σ τ S E M G → Prop where
  /-- No move is left. -/
  | done {memory : σ} {t : τ} {best : Option (G × M)} :
    Scanned engine s e memory t best [] ⟨best, memory, t, []⟩
  /-- The first improving move is taken. -/
  | first {memory memory' : σ} {t : τ} {best : Option (G × M)} {m : M} {rest : List M} {g : G} :
    engine.evaluator.score memory s e m = .ok (g, memory') → Gain.improves g = true →
    engine.config.strategy = .first →
    Scanned engine s e memory t best (m :: rest) ⟨some (g, m), memory', t, [.scored e m]⟩
  /-- An improving move competes with the best one so far. -/
  | best {memory memory' : σ} {t : τ} {best : Option (G × M)} {m : M} {rest : List M} {g : G}
    {later : Scan σ τ S E M G} :
    engine.evaluator.score memory s e m = .ok (g, memory') → Gain.improves g = true →
    engine.config.strategy = .best →
    Scanned engine s e memory' t (some (better best (g, m))) rest later →
    Scanned engine s e memory t best (m :: rest)
      { later with events := .scored e m :: later.events }
  /-- The stop rule ends the scan after a move that does not improve. -/
  | halted {memory memory' : σ} {t : τ} {best : Option (G × M)} {m : M} {rest : List M} {g : G} :
    engine.evaluator.score memory s e m = .ok (g, memory') → Gain.improves g = false →
    (engine.stop.check t s e m).1 = true →
    Scanned engine s e memory t best (m :: rest)
      ⟨best, memory', (engine.stop.check t s e m).2, [.scored e m, .asked e m]⟩
  /-- The scan goes on after a move that does not improve. -/
  | passed {memory memory' : σ} {t : τ} {best : Option (G × M)} {m : M} {rest : List M} {g : G}
    {later : Scan σ τ S E M G} :
    engine.evaluator.score memory s e m = .ok (g, memory') → Gain.improves g = false →
    (engine.stop.check t s e m).1 = false →
    Scanned engine s e memory' (engine.stop.check t s e m).2 best rest later →
    Scanned engine s e memory t best (m :: rest)
      { later with events := .scored e m :: .asked e m :: later.events }

variable {s : S} {e : E} {memory : σ} {t : τ} {best : Option (G × M)} {moves : List M}
  {found : Scan σ τ S E M G}

theorem scanned_of_scan (h : engine.scan s e memory t best moves = .ok found) :
    Scanned engine s e memory t best moves found := by
  induction moves generalizing memory t best found with
  | nil =>
    cases h
    exact .done
  | cons m rest ih =>
    unfold scan at h
    obtain ⟨⟨g, memory'⟩, hscore, h⟩ := Checked.bind_ok_iff.mp h
    cases himproves : Gain.improves g with
    | true =>
      simp only [himproves, if_true] at h
      cases hstrategy : engine.config.strategy with
      | first =>
        simp only [hstrategy] at h
        cases h
        exact .first hscore himproves hstrategy
      | best =>
        simp only [hstrategy] at h
        obtain ⟨later, hlater, h⟩ := Checked.bind_ok_iff.mp h
        cases h
        exact .best hscore himproves hstrategy (ih hlater)
    | false =>
      simp only [himproves, Bool.false_eq_true, if_false] at h
      cases hhalt : (engine.stop.check t s e m).1 with
      | true =>
        simp only [hhalt, if_true] at h
        cases h
        exact .halted hscore himproves hhalt
      | false =>
        simp only [hhalt, Bool.false_eq_true, if_false] at h
        obtain ⟨later, hlater, h⟩ := Checked.bind_ok_iff.mp h
        cases h
        exact .passed hscore himproves hhalt (ih hlater)

theorem better_eq (best : Option (G × M)) (candidate : G × M) :
    better best candidate = candidate ∨ best = some (better best candidate) := by
  unfold better
  cases best with
  | none => exact .inl rfl
  | some b =>
    cases hlt : Gain.lt b.1 candidate.1 with
    | true => exact .inl (by simp [hlt])
    | false => exact .inr (by simp [hlt])

/-- A move around an element that has been scored as an improvement, with its gain. -/
def Improving (engine : Engine σ τ S E M G) (s : S) (e : E) (m : M) (g : G) : Prop :=
  ∃ memory memory', engine.evaluator.score memory s e m = .ok (g, memory') ∧
    Gain.improves g = true

/-- A scan takes one of its moves that improves, or the best one that it started with. -/
theorem Scanned.taken_improving (h : Scanned engine s e memory t best moves found) {g : G} {m : M}
    (htaken : found.taken = some (g, m)) :
    (m ∈ moves ∧ engine.Improving s e m g) ∨ best = some (g, m) := by
  induction h with
  | done => exact .inr htaken
  | first hscore himproves _ =>
    cases htaken
    exact .inl ⟨List.mem_cons_self .., _, _, hscore, himproves⟩
  | @best memory memory' t best m' rest g' later hscore himproves _ _ ih =>
    rcases ih htaken with ⟨hm, hg⟩ | hbest
    · exact .inl ⟨List.mem_cons_of_mem _ hm, hg⟩
    · rcases better_eq best (g', m') with hnew | hold
      · rw [hnew] at hbest
        cases hbest
        exact .inl ⟨List.mem_cons_self .., _, _, hscore, himproves⟩
      · exact .inr (hold.trans hbest)
  | halted => exact .inr htaken
  | passed _ _ _ _ ih =>
    rcases ih htaken with ⟨hm, hg⟩ | hbest
    · exact .inl ⟨List.mem_cons_of_mem _ hm, hg⟩
    · exact .inr hbest

theorem Scanned.taken_mem (h : Scanned engine s e memory t best moves found) {g : G} {m : M}
    (htaken : found.taken = some (g, m)) : m ∈ moves ∨ best = some (g, m) :=
  (h.taken_improving htaken).imp_left And.left

/-- A scan that has a best move does not lose it. -/
theorem Scanned.taken_isSome (h : Scanned engine s e memory t best moves found)
    (hbest : best.isSome) : found.taken.isSome := by
  induction h with
  | done => exact hbest
  | first => rfl
  | best _ _ _ _ ih => exact ih rfl
  | halted => exact hbest
  | passed _ _ _ _ ih => exact ih hbest

/-- A move around an element that has been scored and does not improve. -/
def Unimproving (engine : Engine σ τ S E M G) (s : S) (e : E) (m : M) : Prop :=
  ∃ memory g memory', engine.evaluator.score memory s e m = .ok (g, memory') ∧
    Gain.improves g = false

/-- Under a stop rule that lets every scan go on, a scan that takes nothing has seen all moves,
and none of them improves. -/
theorem Scanned.unimproving (hstop : ∀ t s e m, (engine.stop.check t s e m).1 = false)
    (h : Scanned engine s e memory t best moves found) (hnone : found.taken = none) :
    ∀ m ∈ moves, engine.Unimproving s e m := by
  induction h with
  | done => exact fun _ hm => absurd hm List.not_mem_nil
  | first => cases hnone
  | best _ _ _ hlater =>
    -- A scan that has seen an improving move takes one.
    have hsome := hlater.taken_isSome rfl
    rw [show Scan.taken _ = none from hnone] at hsome
    cases hsome
  | halted _ _ hhalt =>
    rw [hstop] at hhalt
    cases hhalt
  | @passed memory memory' t best m rest g later hscore hno _ _ ih =>
    intro m' hm'
    rcases List.mem_cons.mp hm' with rfl | hm'
    · exact ⟨memory, g, memory', hscore, hno⟩
    · exact ih hnone m' hm'

/-! ## Elements -/

variable {state : SearchState σ τ S} {pass : Pass σ τ S E M}

/-- The work on an element ends without a move, with a move that is accepted, or with one that is
rejected. -/
theorem improve_cases (h : engine.improve state e = .ok pass) :
    ∃ found, Scanned engine state.solution e state.evaluator (engine.stop.reset state.stop) none
        (engine.neighborhood state.solution e) found ∧
      ((found.taken = none ∧ pass.improved = false ∧ pass.state.solution = state.solution) ∨
        ∃ g m s, found.taken = some (g, m) ∧
          engine.commit state.solution e m = .ok (pass.improved, s) ∧ pass.state.solution = s) := by
  unfold improve at h
  obtain ⟨found, hfound, h⟩ := Checked.bind_ok_iff.mp h
  refine ⟨found, scanned_of_scan hfound, ?_⟩
  cases htaken : found.taken with
  | none =>
    simp only [htaken] at h
    cases h
    exact .inl ⟨rfl, rfl, rfl⟩
  | some gm =>
    obtain ⟨g, m⟩ := gm
    simp only [htaken] at h
    obtain ⟨⟨accepted, s⟩, hcommit, h⟩ := Checked.bind_ok_iff.mp h
    refine .inr ⟨g, m, s, rfl, ?_⟩
    cases accepted with
    | true =>
      obtain ⟨memory, -, h⟩ := Checked.bind_ok_iff.mp h
      cases h
      exact ⟨hcommit, rfl⟩
    | false =>
      cases h
      exact ⟨hcommit, rfl⟩

/-- The work on an element changes the solution by a commit of a move around it, if at all. -/
theorem improve_keeps {I : S → Prop}
    (kept : ∀ m ∈ engine.neighborhood state.solution e, ∀ accepted s,
      engine.commit state.solution e m = .ok (accepted, s) → I s)
    (hs : I state.solution) (h : engine.improve state e = .ok pass) : I pass.state.solution := by
  obtain ⟨found, hfound, hend⟩ := improve_cases h
  rcases hend with ⟨-, -, hsame⟩ | ⟨g, m, s, htaken, hcommit, rfl⟩
  · rw [hsame]
    exact hs
  · rcases hfound.taken_mem htaken with hm | hbest
    · exact kept m hm _ _ hcommit
    · cases hbest

/-! ## Passes -/

/-- A solution none of whose moves improves. -/
def Settled (engine : Engine σ τ S E M G) (s : S) : Prop :=
  ∀ e ∈ engine.elements s, ∀ m ∈ engine.neighborhood s e, engine.Unimproving s e m

theorem searchAt_keeps {I : S → Prop}
    (kept : ∀ s, I s → ∀ e ∈ engine.elements s, ∀ m ∈ engine.neighborhood s e, ∀ accepted s',
      engine.commit s e m = .ok (accepted, s') → I s')
    {positions : List Nat} (hs : I state.solution)
    (h : engine.searchAt state positions = .ok pass) : I pass.state.solution := by
  induction positions generalizing state pass with
  | nil =>
    cases h
    exact hs
  | cons i rest ih =>
    unfold searchAt at h
    obtain ⟨e, he, h⟩ := Checked.bind_ok_iff.mp h
    obtain ⟨here, hhere, h⟩ := Checked.bind_ok_iff.mp h
    have hmem := List.mem_of_getElem? (Position.entry_eq_ok_iff.mp he)
    have hkept : I here.state.solution := improve_keeps (kept _ hs e hmem) hs hhere
    cases himproved : here.improved with
    | true =>
      simp only [himproved, if_true] at h
      cases h
      exact hkept
    | false =>
      simp only [himproved, Bool.false_eq_true, if_false] at h
      obtain ⟨later, hlater, h⟩ := Checked.bind_ok_iff.mp h
      cases h
      have hlast : I later.state.solution := ih hkept hlater
      exact hlast

/-- A pass keeps what every commit keeps. -/
theorem search_keeps {I : S → Prop}
    (kept : ∀ s, I s → ∀ e ∈ engine.elements s, ∀ m ∈ engine.neighborhood s e, ∀ accepted s',
      engine.commit s e m = .ok (accepted, s') → I s')
    (hs : I state.solution) (h : engine.search state = .ok pass) : I pass.state.solution :=
  searchAt_keeps kept hs h

/-- A solution that accepts all of its moves is left alone by a pass that commits nothing, and
no move around the elements that the pass went over improves it. -/
theorem searchAt_settled (hstop : ∀ t s e m, (engine.stop.check t s e m).1 = false)
    (haccepts : ∀ e ∈ engine.elements state.solution,
      ∀ m ∈ engine.neighborhood state.solution e, ∀ accepted s,
        engine.commit state.solution e m = .ok (accepted, s) → accepted = true)
    {positions : List Nat} (h : engine.searchAt state positions = .ok pass)
    (hpass : pass.improved = false) :
    pass.state.solution = state.solution ∧
      ∀ i ∈ positions, ∀ e, (engine.elements state.solution)[i]? = some e →
        ∀ m ∈ engine.neighborhood state.solution e, engine.Unimproving state.solution e m := by
  induction positions generalizing state pass with
  | nil =>
    cases h
    exact ⟨rfl, fun _ hi => absurd hi List.not_mem_nil⟩
  | cons i rest ih =>
    unfold searchAt at h
    obtain ⟨e, he, h⟩ := Checked.bind_ok_iff.mp h
    obtain ⟨here, hhere, h⟩ := Checked.bind_ok_iff.mp h
    have helement := Position.entry_eq_ok_iff.mp he
    obtain ⟨found, hfound, hend⟩ := improve_cases hhere
    rcases hend with ⟨hnone, himproved, hsame⟩ | ⟨g, m, s, htaken, hcommit, -⟩
    · simp only [himproved, Bool.false_eq_true, if_false] at h
      obtain ⟨later, hlater, h⟩ := Checked.bind_ok_iff.mp h
      cases h
      -- The rest of the pass goes over the same solution.
      rw [← hsame] at haccepts
      obtain ⟨hlast, hrest⟩ := ih haccepts hlater hpass
      rw [hsame] at hlast hrest
      refine ⟨hlast, fun j hj e' he' => ?_⟩
      rcases List.mem_cons.mp hj with rfl | hj
      · rw [helement] at he'
        cases he'
        exact hfound.unimproving hstop hnone
      · exact hrest j hj e' he'
    · -- A move that was taken would have been accepted, and the pass would have ended with it.
      have hm : m ∈ engine.neighborhood state.solution e := by
        rcases hfound.taken_mem htaken with hm | hbest
        · exact hm
        · cases hbest
      have haccepted := haccepts e (List.mem_of_getElem? helement) m hm _ _ hcommit
      simp only [haccepted, if_true] at h
      cases h
      rw [haccepted] at hpass
      cases hpass

theorem search_settled (hstop : ∀ t s e m, (engine.stop.check t s e m).1 = false)
    (haccepts : ∀ e ∈ engine.elements state.solution,
      ∀ m ∈ engine.neighborhood state.solution e, ∀ accepted s,
        engine.commit state.solution e m = .ok (accepted, s) → accepted = true)
    (h : engine.search state = .ok pass) (hpass : pass.improved = false) :
    pass.state.solution = state.solution ∧ engine.Settled state.solution := by
  obtain ⟨hsame, hall⟩ := searchAt_settled hstop haccepts h hpass
  refine ⟨hsame, fun e he => ?_⟩
  obtain ⟨i, hi, rfl⟩ := List.getElem_of_mem he
  exact hall i (List.mem_range.mpr hi) _ (List.getElem?_eq_getElem hi)

end Engine

end Descent
