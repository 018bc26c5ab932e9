import Descent.Order.Vertex

/-!
# Finite sets in ascending order

A set of vertices is held as its strictly ascending list, so two sets with the same members are
equal, and iterating over a set visits its members from the lowest to the highest.
Main statements: `mem_ofList`, `mem_insert` and `mem_erase` say what is in a set, and `ext_mem`
that nothing else matters about it.
-/

namespace Descent

/-- A finite set of vertices, listed in strictly ascending order. -/
structure AscendingSet (V : Type) [Vertex V] where
  toList : List V
  ascending : toList.Pairwise (· < ·)

namespace AscendingSet

variable {V : Type} [Vertex V]

instance : Membership V (AscendingSet V) where
  mem s a := a ∈ s.toList

instance (a : V) (s : AscendingSet V) : Decidable (a ∈ s) :=
  inferInstanceAs (Decidable (a ∈ s.toList))

theorem mem_iff {a : V} {s : AscendingSet V} : a ∈ s ↔ a ∈ s.toList := Iff.rfl

/-- The set without members. -/
def empty : AscendingSet V := ⟨[], .nil⟩

/-- Whether the set has no member. -/
def isEmpty (s : AscendingSet V) : Bool := s.toList.isEmpty

/-- The number of members. -/
def size (s : AscendingSet V) : Nat := s.toList.length

/-- Puts a vertex at its place in an ascending list, unless it is there already. -/
def insertList (a : V) : List V → List V
  | [] => [a]
  | b :: rest => if a < b then a :: b :: rest else if a = b then b :: rest else b :: insertList a rest

theorem mem_insertList {a x : V} {l : List V} : x ∈ insertList a l ↔ x = a ∨ x ∈ l := by
  induction l with
  | nil => simp [insertList]
  | cons b rest ih =>
    simp only [insertList]
    split
    · simp
    · split
      · next h => subst h; simp
      · simp only [List.mem_cons, ih]
        exact or_left_comm

theorem pairwise_insertList {a : V} {l : List V} (h : l.Pairwise (· < ·)) :
    (insertList a l).Pairwise (· < ·) := by
  induction l with
  | nil => simp [insertList]
  | cons b rest ih =>
    obtain ⟨hb, hrest⟩ := List.pairwise_cons.mp h
    simp only [insertList]
    split
    · next hab =>
      refine List.pairwise_cons.mpr ⟨fun x hx => ?_, h⟩
      rcases List.mem_cons.mp hx with rfl | hx
      · exact hab
      · exact Vertex.lt_trans hab (hb x hx)
    · split
      · exact h
      · next hab hne =>
        refine List.pairwise_cons.mpr ⟨fun x hx => ?_, ih hrest⟩
        rcases mem_insertList.mp hx with rfl | hx
        · exact Vertex.lt_of_not_lt_of_ne hab hne
        · exact hb x hx

/-- Adds a vertex. -/
def insert (a : V) (s : AscendingSet V) : AscendingSet V :=
  ⟨insertList a s.toList, pairwise_insertList s.ascending⟩

/-- Takes a vertex out. -/
def erase (a : V) (s : AscendingSet V) : AscendingSet V :=
  ⟨s.toList.filter (fun b => decide (b ≠ a)), s.ascending.filter _⟩

/-- The members of a list, in any order and with any repetitions. -/
def ofList (l : List V) : AscendingSet V :=
  l.foldl (fun s a => s.insert a) empty

/-- The lowest vertex that two sets share. -/
def lowestCommon? (s t : AscendingSet V) : Option V :=
  s.toList.find? (fun a => decide (a ∈ t))

/-- The members of a set that are not in another. -/
def diff (s t : AscendingSet V) : AscendingSet V :=
  ⟨s.toList.filter (fun a => decide (a ∉ t)), s.ascending.filter _⟩

@[simp] theorem not_mem_empty (a : V) : a ∉ (empty : AscendingSet V) := by
  simp [mem_iff, empty]

@[simp] theorem mem_insert {a x : V} {s : AscendingSet V} : x ∈ s.insert a ↔ x = a ∨ x ∈ s :=
  mem_insertList

@[simp] theorem mem_erase {a x : V} {s : AscendingSet V} : x ∈ s.erase a ↔ x ∈ s ∧ x ≠ a := by
  simp [mem_iff, erase]

@[simp] theorem mem_diff {x : V} {s t : AscendingSet V} : x ∈ s.diff t ↔ x ∈ s ∧ x ∉ t := by
  simp [mem_iff, diff]

theorem mem_foldl_insert {x : V} (l : List V) (s : AscendingSet V) :
    x ∈ l.foldl (fun s a => s.insert a) s ↔ x ∈ l ∨ x ∈ s := by
  induction l generalizing s with
  | nil => simp
  | cons a rest ih => simp [ih, or_assoc, or_left_comm]

@[simp] theorem mem_ofList {x : V} {l : List V} : x ∈ ofList l ↔ x ∈ l := by
  simp [ofList, mem_foldl_insert]

theorem eq_of_mem_iff {l m : List V} (hl : l.Pairwise (· < ·)) (hm : m.Pairwise (· < ·))
    (h : ∀ x, x ∈ l ↔ x ∈ m) : l = m := by
  induction l generalizing m with
  | nil =>
    cases m with
    | nil => rfl
    | cons b rest => exact absurd ((h b).mpr (List.mem_cons_self ..)) List.not_mem_nil
  | cons a l ih =>
    cases m with
    | nil => exact absurd ((h a).mp (List.mem_cons_self ..)) List.not_mem_nil
    | cons b m =>
      obtain ⟨ha, hl'⟩ := List.pairwise_cons.mp hl
      obtain ⟨hb, hm'⟩ := List.pairwise_cons.mp hm
      -- The first members are equal, since each is the lowest of the same members.
      have hab : a = b := by
        rcases List.mem_cons.mp ((h a).mp (List.mem_cons_self ..)) with e | ham
        · exact e
        · rcases List.mem_cons.mp ((h b).mpr (List.mem_cons_self ..)) with e | hbl
          · exact e.symm
          · exact absurd (ha b hbl) (Vertex.lt_asymm (hb a ham))
      subst hab
      refine congrArg (a :: ·) (ih hl' hm' fun x => ?_)
      have hx := h x
      simp only [List.mem_cons] at hx
      constructor
      · intro hxl
        exact (hx.mp (.inr hxl)).resolve_left (Vertex.ne_of_lt (ha x hxl)).symm
      · intro hxm
        exact (hx.mpr (.inr hxm)).resolve_left (Vertex.ne_of_lt (hb x hxm)).symm

/-- Two sets with the same members are equal. -/
theorem ext_mem {s t : AscendingSet V} (h : ∀ x, x ∈ s ↔ x ∈ t) : s = t := by
  cases s
  cases t
  congr
  exact eq_of_mem_iff (by assumption) (by assumption) h

end AscendingSet

end Descent
