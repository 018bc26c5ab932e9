import Descent.Proofs.Comparison
import Descent.Proofs.Search.Commit

/-!
# What one pass commits

An engine is `Plain` if its gains are a function of solution, element and move, and if every move
that it hands over is accepted. A stop rule then lets a scan see a certain start of the moves
around an element, its *window*, which has nothing to do with strategy or memory. A pass commits
on the first element whose window has an improving move, and on no other:
`Plain.search_of_windows`.
-/

namespace Descent

open Checked (Ends)

/-! ## Ordered gains -/

/-- Gains among which any two compare in a consistent way. Zero is one of them. -/
structure Gain.Ordered {G : Type} [Gain G] (among : G → Prop) : Prop where
  zero : among Gain.zero
  lt_asymm : ∀ {a b : G}, among a → among b → Gain.lt a b = true → Gain.lt b a = false
  lt_or_lt : ∀ {a b c : G}, among a → among b → among c →
    Gain.lt a b = true → Gain.lt a c = true ∨ Gain.lt c b = true

namespace Gain.Ordered

variable {G : Type} [Gain G] {among : G → Prop} {a b c : G}

theorem lt_irrefl (h : Gain.Ordered among) (ha : among a) : Gain.lt a a = false := by
  cases hself : Gain.lt a a with
  | false => rfl
  | true => rw [← hself, h.lt_asymm ha ha hself]

/-- What is not above a gain is below everything that is. -/
theorem lt_of_not_lt (h : Gain.Ordered among) (ha : among a) (hb : among b) (hc : among c)
    (hle : Gain.lt b a = false) (hlt : Gain.lt b c = true) : Gain.lt a c = true := by
  rcases h.lt_or_lt hb hc ha hlt with hba | hac
  · rw [hba] at hle
    cases hle
  · exact hac

/-- Every gain that does not improve is below every gain that does. -/
theorem lt_of_improves (h : Gain.Ordered among) (ha : among a) (hb : among b)
    (hno : Gain.improves a = false) (hyes : Gain.improves b = true) : Gain.lt a b = true :=
  h.lt_of_not_lt ha h.zero hb hno hyes

end Gain.Ordered

/-- Distances compare consistently, undefined ones apart. -/
theorem Comparable.ordered {D : Type} [Distance D] [Comparable D]
    (hzero : Comparable.Defined (Gain.zero : D)) :
    Gain.Ordered (Comparable.Defined : D → Prop) :=
  ⟨hzero, Comparable.lt_asymm, Comparable.lt_or_lt⟩

/-! ## Windows -/

/-- A window of a row of moves. Without a limit it is the whole row. With a limit it ends right
before the move that brings the number of moves without improvement to the limit, if there is
such a move. A limit of zero counts as one. -/
inductive IsWindow {M : Type} (improves : M → Bool) (moves : List M) :
    Option Nat → List M → Prop where
  | unlimited : IsWindow improves moves none moves
  | whole {limit : Nat} : moves.countP (fun m => !improves m) < max limit 1 →
    IsWindow improves moves (some limit) moves
  | cut {limit : Nat} {window rest : List M} {m : M} : moves = window ++ m :: rest →
    improves m = false → window.countP (fun m => !improves m) + 1 = max limit 1 →
    IsWindow improves moves (some limit) window

namespace StopRule

variable {τ S E M : Type}

/-- A stop rule that looks at every move, or that has a limit of moves without improvement. -/
inductive Limited : {τ : Type} → StopRule τ S E M → Option Nat → Prop where
  | never {τ : Type} : Limited (never : StopRule τ S E M) none
  | afterWorse (limit : Nat) : Limited (afterWorse limit : StopRule Nat S E M) (some limit)

/-- The moves of a row that come before the one at which a stop rule would leave. -/
def reach (stop : StopRule τ S E M) (s : S) (e : E) (improves : M → Bool) : τ → List M → List M
  | _, [] => []
  | t, m :: rest =>
    if improves m then m :: stop.reach s e improves t rest
    else if (stop.check t s e m).1 then []
    else m :: stop.reach s e improves (stop.check t s e m).2 rest

variable {s : S} {e : E} {improves : M → Bool} {moves : List M}

theorem reach_never (t : τ) :
    (never : StopRule τ S E M).reach s e improves t moves = moves := by
  induction moves with
  | nil => rfl
  | cons m rest ih =>
    unfold reach
    rw [show (never : StopRule τ S E M).check t s e m = (false, t) from rfl, ih]
    simp

/-- With some moves seen that do not improve, a scan reaches all moves, or it leaves at the move
that brings their number to the limit. -/
theorem reach_afterWorse (s : S) (e : E) (improves : M → Bool) (moves : List M)
    {limit seen : Nat} (hseen : seen < max limit 1) :
    let window := (afterWorse limit : StopRule Nat S E M).reach s e improves seen moves
    (window = moves ∧ seen + moves.countP (fun m => !improves m) < max limit 1) ∨
      ∃ m rest, moves = window ++ m :: rest ∧ improves m = false ∧
        seen + window.countP (fun m => !improves m) + 1 = max limit 1 := by
  induction moves generalizing seen with
  | nil => exact .inl ⟨rfl, hseen⟩
  | cons m rest ih =>
    unfold reach
    rw [show (afterWorse limit : StopRule Nat S E M).check seen s e m =
      (decide (limit ≤ seen + 1), seen + 1) from rfl]
    cases himproves : improves m with
    | true =>
      simp only [if_true, himproves, Bool.not_true, Bool.false_eq_true, not_false_eq_true,
        List.countP_cons_of_neg]
      rcases ih hseen with ⟨hall, hcount⟩ | ⟨m', rest', hsplit, hno, hcount⟩
      · exact .inl ⟨by rw [hall], hcount⟩
      · exact .inr ⟨m', rest', by rw [List.cons_append, ← hsplit], hno, hcount⟩
    | false =>
      simp only [Bool.false_eq_true, if_false]
      by_cases hhalt : limit ≤ seen + 1
      · rw [if_pos (decide_eq_true hhalt)]
        exact .inr ⟨m, rest, rfl, himproves, by simp only [List.countP_nil]; omega⟩
      · rw [if_neg (by simpa using hhalt)]
        simp only [himproves, Bool.not_false, List.countP_cons_of_pos]
        rcases ih (show seen + 1 < max limit 1 by omega) with
          ⟨hall, hcount⟩ | ⟨m', rest', hsplit, hno, hcount⟩
        · exact .inl ⟨by rw [hall], by omega⟩
        · exact .inr ⟨m', rest', by rw [List.cons_append, ← hsplit], hno, by omega⟩

/-- What a scan under a stop rule of these reaches is a window, whatever was seen before it. -/
theorem Limited.exists_window {stop : StopRule τ S E M} {limit : Option Nat}
    (h : stop.Limited limit) (s : S) (e : E) (improves : M → Bool) (moves : List M) :
    ∃ window, IsWindow improves moves limit window ∧
      ∀ t, stop.reach s e improves (stop.reset t) moves = window := by
  cases h with
  | never => exact ⟨moves, .unlimited, fun t => reach_never _⟩
  | afterWorse limit =>
    refine ⟨(StopRule.afterWorse limit).reach s e improves 0 moves, ?_, fun _ => rfl⟩
    rcases reach_afterWorse s e improves moves (show 0 < max limit 1 by omega) with
      ⟨hall, hcount⟩ | ⟨m, rest, hsplit, hno, hcount⟩
    · rw [Nat.zero_add] at hcount
      rw [hall]
      exact .whole hcount
    · rw [Nat.zero_add] at hcount
      exact .cut hsplit hno hcount

end StopRule

/-! ## The move that a scan takes -/

/-- A strategy takes a move of a row: the earliest one that improves, or the earliest one of the
largest gain, if that improves. -/
inductive Strategy.Takes {M G : Type} [Gain G] (gain : M → G) (moves : List M) :
    Strategy → M → Prop where
  | first {before after : List M} {m : M} : moves = before ++ m :: after →
    (∀ m' ∈ before, Gain.improves (gain m') = false) → Gain.improves (gain m) = true →
    Takes gain moves .first m
  | best {before after : List M} {m : M} : moves = before ++ m :: after →
    (∀ m' ∈ before, Gain.lt (gain m') (gain m) = true) →
    (∀ m' ∈ after, Gain.lt (gain m) (gain m') = false) → Gain.improves (gain m) = true →
    Takes gain moves .best m

section Choice

variable {M G : Type} [Gain G] {gain : M → G} {among : G → Prop} {strategy : Strategy}
  {moves : List M} {m : M} {choice : Option (G × M)}

theorem Strategy.Takes.mem (h : strategy.Takes gain moves m) : m ∈ moves := by
  cases h with
  | first hsplit => simp [hsplit]
  | best hsplit => simp [hsplit]

theorem Strategy.Takes.improves (h : strategy.Takes gain moves m) :
    Gain.improves (gain m) = true := by
  cases h with
  | first _ _ hm => exact hm
  | best _ _ _ hm => exact hm

/-- The choice of a strategy among the moves seen so far: none, if no move improves. -/
def Chosen (gain : M → G) (strategy : Strategy) (moves : List M) : Option (G × M) → Prop
  | none => ∀ m ∈ moves, Gain.improves (gain m) = false
  | some (g, m) => g = gain m ∧ strategy.Takes gain moves m

/-- A further move that does not improve changes no choice. -/
theorem Chosen.append_unimproving (hordered : Gain.Ordered among)
    (hamong : ∀ m' ∈ moves ++ [m], among (gain m')) (h : Chosen gain strategy moves choice)
    (hm : Gain.improves (gain m) = false) : Chosen gain strategy (moves ++ [m]) choice := by
  match choice, h with
  | none, h =>
    intro m' hm'
    rcases List.mem_append.mp hm' with hold | hnew
    · exact h m' hold
    · rw [List.mem_singleton.mp hnew]
      exact hm
  | some (_, b), ⟨hg, htakes⟩ =>
    refine ⟨hg, ?_⟩
    have hb := hamong b (List.mem_append_left _ htakes.mem)
    have hlast := hamong m (by simp)
    cases htakes with
    | first hsplit hbefore hyes =>
      exact .first (by rw [hsplit, List.append_assoc, List.cons_append]) hbefore hyes
    | best hsplit hbefore hafter hyes =>
      refine .best (by rw [hsplit, List.append_assoc, List.cons_append]) hbefore ?_ hyes
      intro m' hm'
      rcases List.mem_append.mp hm' with hold | hnew
      · exact hafter m' hold
      · rw [List.mem_singleton.mp hnew]
        exact hordered.lt_asymm hlast hb (hordered.lt_of_improves hlast hb hm hyes)

/-- A further move that improves competes with the best one so far. -/
theorem Chosen.append_improving (hordered : Gain.Ordered among)
    (hamong : ∀ m' ∈ moves ++ [m], among (gain m')) (h : Chosen gain .best moves choice)
    (hm : Gain.improves (gain m) = true) :
    Chosen gain .best (moves ++ [m]) (some (Engine.better choice (gain m, m))) := by
  have hold : ∀ m' ∈ moves, among (gain m') := fun m' hm' => hamong m' (by simp [hm'])
  have hlast := hamong m (by simp)
  match choice, h with
  | none, h =>
    -- All moves before it do not improve, so they are below it.
    refine ⟨rfl, .best rfl (fun m' hm' => ?_) (fun m' hm' => absurd hm' List.not_mem_nil) hm⟩
    exact hordered.lt_of_improves (hold m' hm') hlast (h m' hm') hm
  | some (_, b), ⟨rfl, .best hsplit hbefore hafter hyes⟩ =>
    have hb := hold b (by simp [hsplit])
    unfold Engine.better
    cases hlt : Gain.lt (gain b) (gain m) with
    | false =>
      simp only [hlt, Bool.false_eq_true, if_false]
      refine ⟨rfl, .best (by rw [hsplit, List.append_assoc, List.cons_append]) hbefore ?_ hyes⟩
      intro m' hm'
      rcases List.mem_append.mp hm' with hmem | hnew
      · exact hafter m' hmem
      · rw [List.mem_singleton.mp hnew]
        exact hlt
    | true =>
      simp only [hlt, if_true]
      refine ⟨rfl, .best rfl (fun m' hm' => ?_) (fun m' hm' => absurd hm' List.not_mem_nil) hm⟩
      -- No move so far is above the old best one, which is below the new one.
      have hle : Gain.lt (gain b) (gain m') = false := by
        rw [hsplit] at hm'
        rcases List.mem_append.mp hm' with hmem | hmem
        · exact hordered.lt_asymm (hold m' (by simp [hsplit, hmem])) hb (hbefore m' hmem)
        · rcases List.mem_cons.mp hmem with rfl | hmem
          · exact hordered.lt_irrefl hb
          · exact hafter m' hmem
      exact hordered.lt_of_not_lt (hold m' hm') hb hlast hle hlt

end Choice

/-! ## Plain engines -/

/-- A move that a pass handed to the solution, and whether it was accepted. -/
def Event.handed? {S E M : Type} : Event S E M → Option (E × M × Bool)
  | .committed e m accepted => some (e, m, accepted)
  | _ => none

namespace Engine

variable {σ τ S E M G : Type}

/-- The moves that a pass handed to the solution, in order. -/
def handed (events : List (Event S E M)) : List (E × M × Bool) :=
  events.filterMap Event.handed?

theorem handed_append (events later : List (Event S E M)) :
    handed (events ++ later) = handed events ++ handed later :=
  List.filterMap_append

theorem handed_listed (s : S) (e : E) (events : List (Event S E M)) :
    handed (.listed s e :: events) = handed events := rfl

/-- The same engine under another strategy. -/
def withStrategy (engine : Engine σ τ S E M G) (strategy : Strategy) : Engine σ τ S E M G :=
  { engine with config := { engine.config with strategy } }

/-- An engine whose gains are a function of solution, element and move, and which carries every
move out. -/
structure Plain (engine : Engine σ τ S E M G) (gain : S → E → M → G) (carry : S → E → M → S) :
    Prop where
  scored : ∀ memory s e m, engine.evaluator.score memory s e m = .ok (gain s e m, memory)
  noticed : ∀ memory s e m, engine.evaluator.notice memory s e m = .ok memory
  committed : ∀ s e m, engine.commit s e m = .ok (true, carry s e m)

theorem Plain.withStrategy {engine : Engine σ τ S E M G} {gain : S → E → M → G}
    {carry : S → E → M → S} (h : engine.Plain gain carry) (strategy : Strategy) :
    (engine.withStrategy strategy).Plain gain carry :=
  ⟨h.scored, h.noticed, h.committed⟩

variable [Gain G] {engine : Engine σ τ S E M G} {gain : S → E → M → G} {carry : S → E → M → S}
  {among : G → Prop} {s : S} {e : E} {memory : σ} {t : τ} {best : Option (G × M)}
  {moves : List M} {found : Scan σ τ S E M G} {state : SearchState σ τ S}

/-! ### Scans and elements -/

/-- The moves around an element that a scan reaches, if the stop rule is in a state. -/
def reached (engine : Engine σ τ S E M G) (gain : S → E → M → G) (s : S) (e : E) (t : τ)
    (moves : List M) : List M :=
  engine.stop.reach s e (fun m => Gain.improves (gain s e m)) t moves

theorem reached_cons {m : M} (h : Gain.improves (gain s e m) = true) :
    engine.reached gain s e t (m :: moves) = m :: engine.reached gain s e t moves := by
  simp only [reached, StopRule.reach, h, if_true]

/-- A scan takes the choice of its strategy among the moves that it reaches. -/
theorem Scanned.chosen (h : Scanned engine s e memory t best moves found)
    (hplain : engine.Plain gain carry) (hordered : Gain.Ordered among) (earlier : List M)
    (hamong : ∀ m ∈ earlier ++ moves, among (gain s e m))
    (hfirst : engine.config.strategy = .first → best = none)
    (hbest : Chosen (gain s e) engine.config.strategy earlier best) :
    Chosen (gain s e) engine.config.strategy (earlier ++ engine.reached gain s e t moves)
      found.taken := by
  have hscored {memory memory' : σ} {m : M} {g : G}
      (hscore : engine.evaluator.score memory s e m = .ok (g, memory')) : g = gain s e m := by
    rw [hplain.scored] at hscore
    cases hscore
    rfl
  induction h generalizing earlier with
  | done =>
    simp only [reached, StopRule.reach, List.append_nil]
    exact hbest
  | @first memory memory' t best m rest g hscore himproves hstrategy =>
    obtain rfl := hscored hscore
    obtain rfl := hfirst hstrategy
    rw [hstrategy]
    rw [reached_cons himproves]
    exact ⟨rfl, .first rfl hbest himproves⟩
  | @best memory memory' t best m rest g later hscore himproves hstrategy _ ih =>
    obtain rfl := hscored hscore
    rw [List.append_cons] at hamong
    rw [reached_cons himproves, List.append_cons]
    refine ih _ hamong (fun hother => ?_) ?_
    · rw [hstrategy] at hother
      cases hother
    · rw [hstrategy] at hbest ⊢
      exact hbest.append_improving hordered
        (fun m' hm' => hamong m' (List.mem_append_left _ hm')) himproves
  | @halted memory memory' t best m rest g hscore himproves hhalt =>
    obtain rfl := hscored hscore
    simp only [reached, StopRule.reach, himproves, hhalt, Bool.false_eq_true, if_false, if_true,
      List.append_nil]
    exact hbest
  | @passed memory memory' t best m rest g later hscore himproves hhalt _ ih =>
    obtain rfl := hscored hscore
    have hreached : engine.reached gain s e t (m :: rest) =
        m :: engine.reached gain s e (engine.stop.check t s e m).2 rest := by
      simp only [reached, StopRule.reach, himproves, hhalt, Bool.false_eq_true, if_false]
    rw [List.append_cons] at hamong
    rw [hreached, List.append_cons]
    exact ih _ hamong hfirst (hbest.append_unimproving hordered
      (fun m' hm' => hamong m' (List.mem_append_left _ hm')) himproves)

/-- A scan hands nothing over. -/
theorem Scanned.handed_eq (h : Scanned engine s e memory t best moves found) :
    handed found.events = [] := by
  induction h with
  | done => rfl
  | first => rfl
  | best _ _ _ _ ih => exact ih
  | halted => rfl
  | passed _ _ _ _ ih => exact ih

/-- The scan of an element ends, with the choice of the strategy among the moves it reaches. -/
theorem Plain.scan_eq (hplain : engine.Plain gain carry) (hordered : Gain.Ordered among)
    (memory : σ) (t : τ)
    (hamong : ∀ m ∈ moves, among (gain s e m)) :
    ∃ found, engine.scan s e memory t none moves = .ok found ∧ handed found.events = [] ∧
      Chosen (gain s e) engine.config.strategy (engine.reached gain s e t moves) found.taken := by
  have hends : Ends (engine.scan s e memory t none moves) (fun _ => True) fun _ => False :=
    scan_ends fun m _ memory => by
      rw [hplain.scored]
      trivial
  obtain ⟨found, hfound, -⟩ := hends.exists_value fun _ h => h
  have hscanned := scanned_of_scan hfound
  exact ⟨found, hfound, hscanned.handed_eq,
    hscanned.chosen hplain hordered [] hamong (fun _ => rfl)
      fun _ hm => absurd hm List.not_mem_nil⟩

/-- An element around which no reached move improves, whatever the stop rule saw before. -/
def Barren (engine : Engine σ τ S E M G) (gain : S → E → M → G) (s : S) (e : E) : Prop :=
  ∀ t, ∀ m ∈ engine.reached gain s e (engine.stop.reset t) (engine.neighborhood s e),
    Gain.improves (gain s e m) = false

/-- The work on a barren element leaves the solution alone. -/
theorem Plain.improve_barren (hplain : engine.Plain gain carry) (hordered : Gain.Ordered among)
    (hamong : ∀ m ∈ engine.neighborhood state.solution e, among (gain state.solution e m))
    (hbarren : engine.Barren gain state.solution e) :
    ∃ pass, engine.improve state e = .ok pass ∧ pass.improved = false ∧
      pass.state.solution = state.solution ∧ handed pass.events = [] := by
  obtain ⟨found, hfound, hquiet, hchosen⟩ :=
    hplain.scan_eq hordered state.evaluator (engine.stop.reset state.stop) hamong
  simp only [improve, hfound, Checked.ok_bind]
  cases htaken : found.taken with
  | none => exact ⟨_, rfl, rfl, rfl, hquiet⟩
  | some gm =>
    -- A move that was taken would be one that was reached and improves.
    rw [htaken] at hchosen
    have hno := hbarren _ _ hchosen.2.mem
    rw [hchosen.2.improves] at hno
    cases hno

/-- The work on any other element commits the move that the strategy takes. -/
theorem Plain.improve_fertile (hplain : engine.Plain gain carry) (hordered : Gain.Ordered among)
    (hamong : ∀ m ∈ engine.neighborhood state.solution e, among (gain state.solution e m))
    (hfertile : ∃ m ∈ engine.reached gain state.solution e (engine.stop.reset state.stop)
      (engine.neighborhood state.solution e), Gain.improves (gain state.solution e m) = true) :
    ∃ m pass, engine.config.strategy.Takes (gain state.solution e)
        (engine.reached gain state.solution e (engine.stop.reset state.stop)
          (engine.neighborhood state.solution e)) m ∧
      engine.improve state e = .ok pass ∧ pass.improved = true ∧
      pass.state.solution = carry state.solution e m ∧ handed pass.events = [(e, m, true)] := by
  obtain ⟨found, hfound, hquiet, hchosen⟩ :=
    hplain.scan_eq hordered state.evaluator (engine.stop.reset state.stop) hamong
  simp only [improve, hfound, Checked.ok_bind]
  cases htaken : found.taken with
  | none =>
    rw [htaken] at hchosen
    obtain ⟨m, hm, hyes⟩ := hfertile
    rw [hchosen m hm] at hyes
    cases hyes
  | some gm =>
    obtain ⟨g, m⟩ := gm
    rw [htaken] at hchosen
    refine ⟨m, ⟨true, ⟨carry state.solution e m, found.evaluator, found.stop⟩,
      .listed state.solution e :: found.events ++ [.committed e m true, .noticed e m]⟩,
      hchosen.2, ?_, rfl, rfl, ?_⟩
    · simp only [hplain.committed, hplain.noticed, Checked.ok_bind, if_true]
      rfl
    · rw [List.cons_append, handed_listed, handed_append, hquiet]
      rfl

/-! ### Passes -/

/-- A pass goes over barren elements as if they were not there. -/
theorem Plain.searchAt_append (hplain : engine.Plain gain carry) (hordered : Gain.Ordered among)
    (hamong : ∀ e ∈ engine.elements s, ∀ m ∈ engine.neighborhood s e, among (gain s e m))
    (skipped rest : List Nat) (hstate : state.solution = s)
    (hskipped : ∀ i ∈ skipped, ∃ e, (engine.elements s)[i]? = some e ∧ engine.Barren gain s e) :
    ∃ (reachedState : SearchState σ τ S) (events : List (Event S E M)),
      reachedState.solution = s ∧ handed events = [] ∧
      engine.searchAt state (skipped ++ rest) = (do
        let later ← engine.searchAt reachedState rest
        pure { later with events := events ++ later.events }) := by
  induction skipped generalizing state with
  | nil => exact ⟨state, [], hstate, rfl, (bind_pure _).symm⟩
  | cons i skipped ih =>
    subst hstate
    obtain ⟨e, helement, hbarren⟩ := hskipped i (List.mem_cons_self ..)
    obtain ⟨here, hhere, hidle, hsame, hquiet⟩ := hplain.improve_barren hordered
      (hamong e (List.mem_of_getElem? helement)) hbarren
    obtain ⟨reachedState, events, hreached, hnone, hrest⟩ :=
      ih hsame fun j hj => hskipped j (List.mem_cons_of_mem _ hj)
    refine ⟨reachedState, here.events ++ events, hreached, ?_, ?_⟩
    · rw [handed_append, hquiet, hnone]
      rfl
    · rw [List.cons_append]
      conv_lhs => unfold searchAt
      rw [Position.entry_eq_ok_iff.mpr helement, Checked.ok_bind, hhere, Checked.ok_bind]
      simp only [hidle, Bool.false_eq_true, if_false, hrest, bind_assoc, pure_bind,
        List.append_assoc]

/-- A pass over barren elements alone leaves the solution alone. -/
theorem Plain.search_barren (hplain : engine.Plain gain carry) (state : SearchState σ τ S)
    (hordered : Gain.Ordered among)
    (hamong : ∀ e ∈ engine.elements state.solution, ∀ m ∈ engine.neighborhood state.solution e,
      among (gain state.solution e m))
    (hbarren : ∀ e ∈ engine.elements state.solution, engine.Barren gain state.solution e) :
    ∃ pass, engine.search state = .ok pass ∧ pass.improved = false ∧
      pass.state.solution = state.solution ∧ handed pass.events = [] := by
  obtain ⟨last, events, hlast, hquiet, hpass⟩ := hplain.searchAt_append hordered hamong
    (List.range (engine.elements state.solution).length) [] rfl
    fun i hi => by
      have hi' := List.mem_range.mp hi
      exact ⟨_, List.getElem?_eq_getElem hi', hbarren _ (List.getElem_mem hi')⟩
  rw [List.append_nil] at hpass
  exact ⟨⟨false, last, events ++ []⟩, hpass, rfl, hlast, by rw [List.append_nil, hquiet]⟩

/-- A pass commits on the first element that has an improving move within reach. -/
theorem Plain.search_fertile (hplain : engine.Plain gain carry) (state : SearchState σ τ S)
    (hordered : Gain.Ordered among)
    (hamong : ∀ e ∈ engine.elements state.solution, ∀ m ∈ engine.neighborhood state.solution e,
      among (gain state.solution e m))
    {before after : List E} {window : List M}
    (hsplit : engine.elements state.solution = before ++ e :: after)
    (hbarren : ∀ e' ∈ before, engine.Barren gain state.solution e')
    (hwindow : ∀ t, engine.reached gain state.solution e (engine.stop.reset t)
      (engine.neighborhood state.solution e) = window)
    (hfertile : ∃ m ∈ window, Gain.improves (gain state.solution e m) = true) :
    ∃ m pass, engine.config.strategy.Takes (gain state.solution e) window m ∧
      engine.search state = .ok pass ∧ pass.improved = true ∧
      pass.state.solution = carry state.solution e m ∧ handed pass.events = [(e, m, true)] := by
  have hbefore (i : Nat) (hi : i < before.length) :
      (engine.elements state.solution)[i]? = some before[i] := by
    rw [hsplit, List.getElem?_append_left hi, List.getElem?_eq_getElem hi]
  have helement : (engine.elements state.solution)[before.length]? = some e := by
    rw [hsplit, List.getElem?_append_right le_rfl, Nat.sub_self]
    rfl
  have hrange : List.range (engine.elements state.solution).length =
      List.range before.length ++
        before.length :: (List.range after.length).map (before.length + 1 + ·) := by
    rw [hsplit, List.length_append, List.length_cons, Nat.add_comm after.length, ← Nat.add_assoc,
      List.range_add, List.range_succ, List.append_assoc]
    rfl
  obtain ⟨last, events, hlast, hquiet, hpass⟩ := hplain.searchAt_append hordered hamong
    (List.range before.length)
    (before.length :: (List.range after.length).map (before.length + 1 + ·)) rfl
    fun i hi => by
      have hi' := List.mem_range.mp hi
      exact ⟨_, hbefore i hi', hbarren _ (List.getElem_mem hi')⟩
  -- The pass comes to the element with the solution that it started from.
  rw [← hlast] at hamong hwindow hfertile helement ⊢
  obtain ⟨m, here, htakes, hhere, himproved, hcarried, hhanded⟩ := hplain.improve_fertile
    hordered (hamong e (List.mem_of_getElem? helement))
    (by rw [hwindow]; exact hfertile)
  rw [hwindow] at htakes
  refine ⟨m, { here with events := events ++ here.events }, htakes, ?_, himproved, hcarried, ?_⟩
  · unfold search
    rw [hrange, hpass]
    unfold searchAt
    simp only [Position.entry_eq_ok_iff.mpr helement, Checked.ok_bind, hhere, himproved, if_true,
      Checked.pure_eq_ok]
  · rw [handed_append, hquiet, hhanded]
    rfl

/-- What one pass of a plain engine comes to. Every element has a window of its moves that rests on
the solution alone. If no window has an improving move, then a pass leaves the solution alone and
hands nothing over. Otherwise there is a first element whose window has one, and under either
strategy a pass hands over exactly one move: the one of that window that the strategy takes. The
memories that a pass starts with, so all that the stop rule has seen before, have no say. -/
theorem Plain.search_of_windows {limit : Option Nat} (hplain : engine.Plain gain carry)
    (hlimit : engine.stop.Limited limit) (hordered : Gain.Ordered among) (s : S)
    (hamong : ∀ e ∈ engine.elements s, ∀ m ∈ engine.neighborhood s e, among (gain s e m)) :
    ∃ window : E → List M,
      (∀ e, IsWindow (fun m => Gain.improves (gain s e m)) (engine.neighborhood s e) limit
        (window e)) ∧
      (((∀ e ∈ engine.elements s, ∀ m ∈ window e, Gain.improves (gain s e m) = false) ∧
          ∀ strategy memory t, ∃ pass,
            (engine.withStrategy strategy).search ⟨s, memory, t⟩ = .ok pass ∧
            pass.improved = false ∧ pass.state.solution = s ∧ handed pass.events = []) ∨
        ∃ before e after, engine.elements s = before ++ e :: after ∧
          (∀ e' ∈ before, ∀ m ∈ window e', Gain.improves (gain s e' m) = false) ∧
          (∃ m ∈ window e, Gain.improves (gain s e m) = true) ∧
          ∀ strategy memory t, ∃ m pass, strategy.Takes (gain s e) (window e) m ∧
            (engine.withStrategy strategy).search ⟨s, memory, t⟩ = .ok pass ∧
            pass.improved = true ∧ pass.state.solution = carry s e m ∧
            handed pass.events = [(e, m, true)]) := by
  choose window hwindow hreach using fun e =>
    hlimit.exists_window s e (fun m => Gain.improves (gain s e m)) (engine.neighborhood s e)
  refine ⟨window, hwindow, ?_⟩
  have hbarren (strategy : Strategy) {e : E}
      (h : ∀ m ∈ window e, Gain.improves (gain s e m) = false) :
      (engine.withStrategy strategy).Barren gain s e := by
    intro t m hm
    have hm' : m ∈ engine.stop.reach s e (fun m => Gain.improves (gain s e m))
      (engine.stop.reset t) (engine.neighborhood s e) := hm
    rw [hreach] at hm'
    exact h m hm'
  cases hfind : (engine.elements s).find? fun e =>
      (window e).any fun m => Gain.improves (gain s e m) with
  | none =>
    have hnone : ∀ e ∈ engine.elements s, ∀ m ∈ window e, Gain.improves (gain s e m) = false := by
      simpa using hfind
    exact .inl ⟨hnone, fun strategy memory t =>
      (hplain.withStrategy strategy).search_barren ⟨s, memory, t⟩ hordered hamong
        fun e he => hbarren strategy (hnone e he)⟩
  | some e =>
    obtain ⟨hany, before, after, hsplit, hbefore⟩ := List.find?_eq_some_iff_append.mp hfind
    have hnone : ∀ e' ∈ before, ∀ m ∈ window e', Gain.improves (gain s e' m) = false := by
      simpa using hbefore
    have hfertile : ∃ m ∈ window e, Gain.improves (gain s e m) = true := by
      simpa using hany
    exact .inr ⟨before, e, after, hsplit, hnone, hfertile, fun strategy memory t =>
      (hplain.withStrategy strategy).search_fertile ⟨s, memory, t⟩ hordered hamong
        hsplit (fun e' he' => hbarren strategy (hnone e' he')) (hreach e) hfertile⟩

/-- Two elements, each with moves to new solutions and their gains, under a limit of two. The first
element has an improving move, but only after its window. -/
def benches : Engine Unit Nat Nat Nat (Nat × Int) (Signed 64) where
  elements _ := [0, 1]
  neighborhood _ e :=
    if e = 0 then [(1, -1), (2, -1), (3, 5)]
    else [(4, -1), (5, 3), (6, 7), (7, 7), (8, 0), (9, 9)]
  evaluator := .ofFunction fun _ _ m => pure (Signed.wrap m.2)
  commit _ _ m := pure (true, m.1)
  stop := .afterWorse 2

/-- On the benches one strategy takes the first improving move of the second window, the other one
the earlier of its two best moves. -/
theorem Plain.search_of_windows_benches :
    ∃ window : List (Nat × Int),
      IsWindow (fun m => Gain.improves (Signed.wrap m.2 : Signed 64)) (benches.neighborhood 0 1)
        (some 2) window ∧
      Strategy.first.Takes (fun m => (Signed.wrap m.2 : Signed 64)) window (5, 3) ∧
      Strategy.best.Takes (fun m => (Signed.wrap m.2 : Signed 64)) window (6, 7) := by
  have hordered : Gain.Ordered (Comparable.Defined : Signed 64 → Prop) :=
    Comparable.ordered trivial
  have hplain : benches.Plain (fun _ _ m => Signed.wrap m.2) (fun _ _ m => m.1) :=
    ⟨fun _ _ _ _ => rfl, fun _ _ _ _ => rfl, fun _ _ _ => rfl⟩
  obtain ⟨window, hwindow, hends⟩ :=
    hplain.search_of_windows (.afterWorse 2) hordered 0 fun _ _ _ _ => trivial
  rcases hends with ⟨-, hidle⟩ | ⟨before, e, after, -, -, -, hcommits⟩
  · obtain ⟨pass, hpass, hno, -⟩ := hidle .first () 0
    cases hpass
    cases hno
  · obtain ⟨m, pass, htakes, hpass, -, -, hhanded⟩ := hcommits .first () 0
    cases hpass
    cases hhanded
    obtain ⟨m', pass', htakes', hpass', -, -, hhanded'⟩ := hcommits .best () 0
    cases hpass'
    cases hhanded'
    exact ⟨window 1, hwindow 1, htakes, htakes'⟩

end Engine

end Descent
