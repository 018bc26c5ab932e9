import Descent.Search.Engine

/-!
# Landscapes

A search problem that is written out in full. A solution is a row of cells, each in one of many
states; a table lists, for a cell and its state, the moves around that cell with their gains. A
move takes its cell, and possibly others, to new states, unless it is one that the solution
rejects.
-/

namespace Descent

/-- A move of a landscape. -/
structure LandscapeMove (G : Type) where
  /-- The new state of the cell. -/
  target : Int
  gain : G
  /-- Whether the solution accepts the move. -/
  accepted : Bool := true
  /-- Further cells that the move changes, with their new states. -/
  others : List (Nat × Int) := []

/-- A table of moves by cell and state. -/
structure Landscape (G : Type) where
  rows : List ((Nat × Int) × List (LandscapeMove G))

namespace Landscape

variable {G : Type}

/-- The moves around a cell in its present state; none, if the table has no such row. -/
def moves (l : Landscape G) (cells : List Int) (cell : Nat) : List (LandscapeMove G) :=
  ((l.rows.find? fun row => row.1 == (cell, cells.getD cell 0)).map Prod.snd).getD []

/-- Makes a move of a cell, and says whether it was accepted. -/
def commit (cells : List Int) (cell : Nat) (m : LandscapeMove G) : Bool × List Int :=
  (m.accepted,
    if m.accepted then m.others.foldl (fun s o => s.set o.1 o.2) (cells.set cell m.target)
    else cells)

/-- Scores moves by their listed gain. -/
def gains : Evaluator Unit (List Int) Nat (LandscapeMove G) G :=
  .ofFunction fun _ _ m => pure m.gain

/-- The search over the cells of a landscape, or over its first cell alone. -/
def engine {σ τ H : Type} (l : Landscape G) (firstOnly : Bool)
    (evaluator : Evaluator σ (List Int) Nat (LandscapeMove G) H)
    (stop : StopRule τ (List Int) Nat (LandscapeMove G)) (config : SearchConfig) :
    Engine σ τ (List Int) Nat (LandscapeMove G) H where
  elements cells := if firstOnly then [0] else List.range cells.length
  neighborhood := l.moves
  evaluator
  commit cells cell m := pure (commit cells cell m)
  stop
  config

end Landscape

end Descent
