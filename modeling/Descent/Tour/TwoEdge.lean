import Descent.Search.Engine
import Descent.Tour.Basic

/-!
# Exchanging two edges of a tour

A move takes out two edges of a tour that share no stop and puts in the two other edges that
close the tour again, which reverses the stops between them. Its gain is the length of the old
edges less that of the new ones, as it is when distances are the same both ways.
-/

namespace Descent

/-- The exchange of the edges that start at the positions `first` and `second`. -/
structure TwoEdgeMove where
  first : Nat
  second : Nat
deriving DecidableEq

namespace TwoEdgeMove

/-- The moves whose first edge starts at a given position of a tour of `n` stops. The first and
the closing edge share a stop and are not paired. -/
def startingAt (n i : Nat) : List TwoEdgeMove :=
  ((List.range' (i + 2) (n - (i + 2))).filter fun j => !(i == 0 && j == n - 1)).map fun j => ⟨i, j⟩

/-- All moves of a tour of `n` stops, by their first and then by their second edge. -/
def all (n : Nat) : List TwoEdgeMove :=
  (List.range (n - 2)).flatMap (startingAt n)

end TwoEdgeMove

namespace Tour

variable {V D : Type} [Distance D]

/-- What a move saves: the two old edges less the two new ones. -/
def saving (distance : Metric V D) (t : Tour V) (m : TwoEdgeMove) : Checked D := do
  let a ← t.stopAt m.first
  let b ← t.stopAt (← Position.add m.first 1)
  let c ← t.stopAt m.second
  let d ← t.stopAt (← Position.add m.second 1)
  let old ← Distance.add (← distance a b) (← distance c d)
  let less ← Distance.sub old (← distance a c)
  Distance.sub less (← distance b d)

/-- Makes a move, unless its second edge does not lie past its first one on the tour. -/
def commit (t : Tour V) (m : TwoEdgeMove) : Checked (Bool × Tour V) := do
  let start ← Position.add m.first 1
  if start > m.second || m.second ≥ t.size then pure (false, t)
  else pure (true, ← t.reverse start m.second)

/-- The search over a tour: it is one element, around which all moves lie. -/
def engine (distance : Metric V D) (config : SearchConfig) :
    Engine Unit Unit (Tour V) Unit TwoEdgeMove D where
  elements _ := [()]
  neighborhood t _ := TwoEdgeMove.all t.size
  evaluator := .ofFunction fun t _ m => t.saving distance m
  commit t _ m := t.commit m
  stop := .never
  config

end Tour

end Descent
