/-!
# Keyed lists

A finite table from keys to values, read and written one key at a time. What `get?` answers is
all that matters about a keyed list; the order of its entries carries no meaning.
Main statements: `get?_set` and `get?_erase`.
-/

namespace Descent

/-- A table of values by key. -/
structure KeyedList (K W : Type) where
  entries : List (K × W)

namespace KeyedList

variable {K W : Type} [DecidableEq K]

/-- The value of the first entry with the key. -/
def find (k : K) : List (K × W) → Option W
  | [] => none
  | (k', w) :: rest => if k' = k then some w else find k rest

/-- Replaces the value of the first entry with the key, or adds an entry at the end. -/
def put (k : K) (w : W) : List (K × W) → List (K × W)
  | [] => [(k, w)]
  | (k', w') :: rest => if k' = k then (k, w) :: rest else (k', w') :: put k w rest

/-- The table without entries. -/
def empty : KeyedList K W := ⟨[]⟩

/-- The value kept under a key. -/
def get? (t : KeyedList K W) (k : K) : Option W := find k t.entries

/-- Keeps a value under a key, in place of an earlier one. -/
def set (t : KeyedList K W) (k : K) (w : W) : KeyedList K W := ⟨put k w t.entries⟩

/-- Drops what is kept under a key. -/
def erase (t : KeyedList K W) (k : K) : KeyedList K W :=
  ⟨t.entries.filter (fun e => decide (e.1 ≠ k))⟩

@[simp] theorem get?_empty (k : K) : (empty : KeyedList K W).get? k = none := rfl

theorem find_put (k q : K) (w : W) (l : List (K × W)) :
    find q (put k w l) = if k = q then some w else find q l := by
  induction l with
  | nil => simp [put, find]
  | cons e rest ih =>
    obtain ⟨k', w'⟩ := e
    by_cases h : k' = k
    · subst h
      by_cases hq : k' = q <;> simp [put, find, hq]
    · by_cases hq : k' = q
      · subst hq
        simp [put, find, h, Ne.symm h]
      · simp [put, find, h, hq, ih]

theorem find_filter_ne (k q : K) (l : List (K × W)) :
    find q (l.filter (fun e => decide (e.1 ≠ k))) = if k = q then none else find q l := by
  induction l with
  | nil => simp [find]
  | cons e rest ih =>
    obtain ⟨k', w'⟩ := e
    by_cases h : k' = k
    · subst h
      by_cases hq : k' = q <;> simp_all [find]
    · by_cases hq : k' = q
      · subst hq
        simp [find, h, Ne.symm h]
      · simp_all [find]

@[simp] theorem get?_set (t : KeyedList K W) (k q : K) (w : W) :
    (t.set k w).get? q = if k = q then some w else t.get? q :=
  find_put k q w t.entries

@[simp] theorem get?_erase (t : KeyedList K W) (k q : K) :
    (t.erase k).get? q = if k = q then none else t.get? q :=
  find_filter_ne k q t.entries

end KeyedList

end Descent
