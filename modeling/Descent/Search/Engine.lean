import Descent.Arithmetic.Position
import Descent.Search.Component

/-!
# The search engine

One pass of the engine goes over the elements of a solution in order. Around each element it
scans the moves: under the first strategy it takes the first improving move, under the best
strategy the first of the largest gain, and a stop rule may end the scan early. The pass commits
the move that was taken and ends; a move that the solution rejects counts as none, and the pass
goes on with the next element. A run repeats passes until one commits nothing.

A pass also returns its transcript, the list of what was done in order.
-/

namespace Descent

/-- One thing that a pass does. -/
inductive Event (S E M : Type) where
  /-- The moves around an element were listed. -/
  | listed (solution : S) (element : E)
  /-- A move was scored. -/
  | scored (element : E) (move : M)
  /-- The stop rule was asked after a move. -/
  | asked (element : E) (move : M)
  /-- A move was handed to the solution, which accepted it or not. -/
  | committed (element : E) (move : M) (accepted : Bool)
  /-- The evaluator was told of an accepted move. -/
  | noticed (element : E) (move : M)

/-- A search engine: its parts and its configuration. -/
structure Engine (σ τ S E M G : Type) where
  elements : S → List E
  /-- The moves around an element, in the order in which they are looked at. -/
  neighborhood : S → E → List M
  evaluator : Evaluator σ S E M G
  /-- Carries a move out; says whether it was accepted, and what the solution is now. -/
  commit : S → E → M → Checked (Bool × S)
  stop : StopRule τ S E M
  config : SearchConfig := {}

/-- What changes during a search: the solution and the memories of the parts. -/
structure SearchState (σ τ S : Type) where
  solution : S
  evaluator : σ
  stop : τ

/-- What a scan of the moves around an element ends with. -/
structure Scan (σ τ S E M G : Type) where
  /-- The move that was taken, with its gain. -/
  taken : Option (G × M)
  evaluator : σ
  stop : τ
  events : List (Event S E M)

/-- What a pass ends with. -/
structure Pass (σ τ S E M : Type) where
  improved : Bool
  state : SearchState σ τ S
  events : List (Event S E M)

/-- How a run went. -/
structure Tally where
  iterations : Nat
  improvements : Nat
  converged : Bool
deriving DecidableEq

/-- How a run went whose caller kept a history: the objective before the first pass and after every
committed move. -/
structure Record (C : Type) where
  passes : Nat
  improvements : Nat
  converged : Bool
  history : List C

/-- What a run ends with. -/
structure Run (σ τ S E M : Type) where
  tally : Tally
  state : SearchState σ τ S
  events : List (Event S E M)

namespace Engine

variable {σ τ S E M G : Type} [Gain G]

/-- The better of the best move so far and one more; the earlier one stays at equal gain. -/
def better (best : Option (G × M)) (candidate : G × M) : G × M :=
  match best with
  | none => candidate
  | some b => if Gain.lt b.1 candidate.1 then candidate else b

/-- Scans moves one after the other, with the best improving one so far at hand. -/
def scan (engine : Engine σ τ S E M G) (s : S) (e : E) :
    σ → τ → Option (G × M) → List M → Checked (Scan σ τ S E M G)
  | memory, t, best, [] => pure ⟨best, memory, t, []⟩
  | memory, t, best, m :: rest => do
    let (g, memory) ← engine.evaluator.score memory s e m
    if Gain.improves g then
      match engine.config.strategy with
      | .first => pure ⟨some (g, m), memory, t, [.scored e m]⟩
      | .best =>
        let later ← engine.scan s e memory t (some (better best (g, m))) rest
        pure { later with events := .scored e m :: later.events }
    else
      let (halt, t) := engine.stop.check t s e m
      if halt then pure ⟨best, memory, t, [.scored e m, .asked e m]⟩
      else
        let later ← engine.scan s e memory t best rest
        pure { later with events := .scored e m :: .asked e m :: later.events }

/-- Scans the moves around one element and commits the one that was taken. -/
def improve (engine : Engine σ τ S E M G) (state : SearchState σ τ S) (e : E) :
    Checked (Pass σ τ S E M) := do
  let s := state.solution
  let moves := engine.neighborhood s e
  let found ← engine.scan s e state.evaluator (engine.stop.reset state.stop) none moves
  let events := .listed s e :: found.events
  match found.taken with
  | none => pure ⟨false, ⟨s, found.evaluator, found.stop⟩, events⟩
  | some (_, m) =>
    let (accepted, s) ← engine.commit s e m
    if accepted then
      let memory ← engine.evaluator.notice found.evaluator s e m
      pure ⟨true, ⟨s, memory, found.stop⟩, events ++ [.committed e m true, .noticed e m]⟩
    else
      pure ⟨false, ⟨s, found.evaluator, found.stop⟩, events ++ [.committed e m false]⟩

/-- Goes over the elements at the given positions until one is improved. -/
def searchAt (engine : Engine σ τ S E M G) (state : SearchState σ τ S) :
    List Nat → Checked (Pass σ τ S E M)
  | [] => pure ⟨false, state, []⟩
  | i :: rest => do
    let e ← Position.entry (engine.elements state.solution) i
    let pass ← engine.improve state e
    if pass.improved then pure pass
    else
      let later ← engine.searchAt pass.state rest
      pure { later with events := pass.events ++ later.events }

/-- One pass over all elements. -/
def search (engine : Engine σ τ S E M G) (state : SearchState σ τ S) :
    Checked (Pass σ τ S E M) :=
  engine.searchAt state (List.range (engine.elements state.solution).length)

/-- Repeats passes until one commits nothing or the cap is reached. The count of passes has room for
a number of further ones, and leaves its word at the next. -/
def runWithin (engine : Engine σ τ S E M G) :
    Nat → SearchState σ τ S → Tally → Checked (Run σ τ S E M)
  | 0, state, tally =>
    if engine.config.exhausted tally.iterations then pure ⟨tally, state, []⟩
    else throw (.overflow .add)
  | room + 1, state, tally =>
    if engine.config.exhausted tally.iterations then pure ⟨tally, state, []⟩
    else do
      let iterations := tally.iterations + 1
      let pass ← engine.search state
      if pass.improved then
        let later ← engine.runWithin room pass.state
          { tally with iterations, improvements := tally.improvements + 1 }
        pure { later with events := pass.events ++ later.events }
      else
        pure ⟨{ tally with iterations, converged := true }, pass.state, pass.events⟩

/-- Repeats passes until one commits nothing or the cap is reached. -/
def run (engine : Engine σ τ S E M G) (state : SearchState σ τ S) :
    Checked (Run σ τ S E M) :=
  engine.runWithin engine.config.budget state ⟨0, 0, false⟩

end Engine

end Descent
