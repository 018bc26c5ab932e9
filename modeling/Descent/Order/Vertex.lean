import Descent.Text.Quoted

/-!
# Vertices

The points that generators, clients, facilities and tour stops are drawn from. A vertex type
has a strict total order, which decides every tie, and a label, which names a vertex in a
message. Whole numbers, texts and characters are vertices; texts and characters are ordered by
code point.
-/

namespace Descent

/-- A type of vertices: totally ordered, with a label for messages. -/
class Vertex (V : Type) extends LT V where
  decEq : DecidableEq V
  decLt : DecidableLT V
  lt_irrefl : ∀ a : V, ¬ a < a
  lt_trans : ∀ {a b c : V}, a < b → b < c → a < c
  lt_trichotomy : ∀ a b : V, a < b ∨ a = b ∨ b < a
  /-- How the vertex is written in a message. -/
  label : V → String

namespace Vertex

attribute [reducible, instance] decEq decLt

variable {V : Type} [Vertex V]

/-- Stated for all vertices at once, so that every membership test in a list is the same one. -/
instance : LawfulBEq V := inferInstance

theorem lt_asymm {a b : V} (h : a < b) : ¬ b < a :=
  fun h' => lt_irrefl a (lt_trans h h')

theorem ne_of_lt {a b : V} (h : a < b) : a ≠ b :=
  fun e => lt_irrefl b (e ▸ h)

theorem lt_of_not_lt_of_ne {a b : V} (h : ¬ a < b) (hne : a ≠ b) : b < a :=
  ((lt_trichotomy a b).resolve_left h).resolve_left hne

end Vertex

instance : Vertex Int where
  decEq := inferInstance
  decLt := inferInstance
  lt_irrefl := Int.lt_irrefl
  lt_trans := Int.lt_trans
  lt_trichotomy := Int.lt_trichotomy
  label n := toString n

instance : Vertex Nat where
  decEq := inferInstance
  decLt := inferInstance
  lt_irrefl := Nat.lt_irrefl
  lt_trans := Nat.lt_trans
  lt_trichotomy := Nat.lt_trichotomy
  label n := toString n

instance : Vertex Char where
  decEq := inferInstance
  decLt := inferInstance
  lt_irrefl := Char.lt_irrefl
  lt_trans := Char.lt_trans
  lt_trichotomy a b := by
    by_cases h : a < b
    · exact .inl h
    · by_cases h' : b < a
      · exact .inr (.inr h')
      · exact .inr (.inl (Char.le_antisymm (Char.not_lt.mp h') (Char.not_lt.mp h)))
  label := Text.quotedChar

instance : Vertex String where
  decEq := inferInstance
  decLt := inferInstance
  lt_irrefl := String.lt_irrefl
  lt_trans := String.lt_trans
  lt_trichotomy a b := by
    by_cases h : a < b
    · exact .inl h
    · by_cases h' : b < a
      · exact .inr (.inr h')
      · exact .inr (.inl (String.le_antisymm (String.not_lt.mp h') (String.not_lt.mp h)))
  label := Text.quotedText

end Descent
