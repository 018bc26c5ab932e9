import Descent.Arithmetic.Fault
import Descent.Order.KeyedList

/-!
# Tabu lists

A tabu list holds the attributes of the latest moves, the oldest first, and no more than its
tenure of them. Beside the list it keeps how often each attribute occurs in it, so that asking
for an attribute needs no search.
-/

namespace Descent

/-- The latest attributes in order, and the number of occurrences of each. -/
structure TabuList (K : Type) where
  queue : List K
  counts : KeyedList K Nat

namespace TabuList

variable {K : Type} [DecidableEq K]

/-- The list without attributes. -/
def empty : TabuList K := ⟨[], .empty⟩

/-- Whether an attribute is in the list. -/
def holds (t : TabuList K) (k : K) : Bool := (t.counts.get? k).isSome

/-- One occurrence less of an attribute; its count is dropped with the last one. -/
def lessOne (counts : KeyedList K Nat) (k : K) : Checked (KeyedList K Nat) :=
  match counts.get? k with
  | none => .ok counts
  | some 0 => .error (.overflow .subtract)
  | some 1 => .ok (counts.erase k)
  | some (n + 2) => .ok (counts.set k (n + 1))

/-- One occurrence more of an attribute. -/
def oneMore (counts : KeyedList K Nat) (k : K) : KeyedList K Nat :=
  counts.set k ((counts.get? k).getD 0 + 1)

/-- Drops the oldest attribute of a list that is as long as its tenure. -/
def makeRoom (tenure : Nat) (t : TabuList K) : Checked (TabuList K) :=
  if tenure ≤ t.queue.length then
    match t.queue with
    | [] => .ok t
    | oldest :: rest => do pure ⟨rest, ← lessOne t.counts oldest⟩
  else .ok t

/-- Adds an attribute as the latest one. -/
def push (tenure : Nat) (t : TabuList K) (k : K) : Checked (TabuList K) := do
  let t ← t.makeRoom tenure
  pure ⟨t.queue ++ [k], oneMore t.counts k⟩

/-- Adds attributes one after the other. -/
def pushAll (tenure : Nat) (t : TabuList K) (ks : List K) : Checked (TabuList K) :=
  ks.foldlM (push tenure) t

end TabuList

end Descent
