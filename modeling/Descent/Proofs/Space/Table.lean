import Descent.Proofs.Comparison
import Descent.Proofs.Exact
import Descent.Space.Table

/-!
# Reading distance tables

A table `Tabulates` a function of rows and columns if its array has the values of the function, row
after row. Rows make the table of their entries, `ofRows_ends`, and a function makes the table of
its values, `ofFunction_ends`. The distances of such a table are the values of the function,
`Tabulates.distance_ends`, and a table of words passes the test for symmetry if these are the same
both ways, `Tabulates.isSymmetric_ends`.
-/

namespace Descent

open Checked (Ends)

namespace DistanceTable

variable {D : Type} {rows : List (List D)} {t : DistanceTable D} {f : Nat → Nat → Checked D}
  {g : Nat → Nat → D} {n size a b : Nat} {d : D}

/-- An entry of a square is on one of its rows. -/
theorem place_lt (ha : a < n) (hb : b < n) : a * n + b < n * n := by
  calc a * n + b
    _ < a * n + n := Nat.add_lt_add_left hb _
    _ = (a + 1) * n := (Nat.succ_mul a n).symm
    _ ≤ n * n := Nat.mul_le_mul_right n ha

/-- Asking for an entry reads the array at its place, which has to be a position and in the array. -/
theorem distance_ends (t : DistanceTable D) (a b : Nat) :
    Ends (t.distance a b) (fun d => t.entries[a * t.size + b]? = some d)
      (fun e => (e.IsOverflow ∧ Position.bound ≤ a * t.size + b) ∨
        (e = .outOfBounds t.entries.size (a * t.size + b) ∧
          t.entries.size ≤ a * t.size + b)) := by
  unfold distance
  refine ((Position.mul_ends a t.size).weaken ?_).bind fun start _ hstart => ?_
  · rintro e ⟨rfl, hlarge⟩
    exact .inl ⟨⟨_, rfl⟩, Nat.le_add_right_of_le hlarge⟩
  obtain ⟨rfl, -⟩ := hstart
  refine ((Position.add_ends (a * t.size) b).weaken ?_).bind fun k _ hk => ?_
  · rintro e ⟨rfl, hlarge⟩
    exact .inl ⟨⟨_, rfl⟩, hlarge⟩
  obtain ⟨rfl, -⟩ := hk
  cases h : t.entries[a * t.size + b]? with
  | some d => rfl
  | none => exact .inr ⟨rfl, Array.getElem?_eq_none_iff.mp h⟩

/-! ## Tables of a function -/

/-- A table of the values of `f`, one row after the other. -/
structure Tabulates (t : DistanceTable D) (size : Nat) (f : Nat → Nat → Checked D) : Prop where
  size_eq : t.size = size
  entries_size : t.entries.size = size * size
  entry : ∀ a < size, ∀ b < size, ∃ d, f a b = .ok d ∧ t.entries[a * size + b]? = some d

/-- The distances of a table are the values of its function. Reading one can only overflow, and only
if the array has more entries than there are positions. -/
theorem Tabulates.distance_ends (h : t.Tabulates size f) (ha : a < size) (hb : b < size) :
    ∃ d, f a b = .ok d ∧ Ends (t.distance a b) (fun r => r = d)
      (fun e => Position.bound < t.entries.size ∧ e.IsOverflow) := by
  obtain ⟨d, hd, hentry⟩ := h.entry a ha b hb
  have hplace : a * t.size + b < t.entries.size := by
    rw [h.size_eq, h.entries_size]
    exact place_lt ha hb
  refine ⟨d, hd, ((t.distance_ends a b).mono fun r _ hr => ?_).weaken fun e he => ?_⟩
  · rw [h.size_eq, hentry, Option.some.injEq] at hr
    exact hr.symm
  · rcases he with ⟨hoverflow, hlarge⟩ | ⟨-, hpast⟩
    · exact ⟨by omega, hoverflow⟩
    · omega

/-- A table whose entries all have a position can be read. -/
theorem Tabulates.distance_eq (h : t.Tabulates size f) (hroom : t.entries.size ≤ Position.bound)
    (ha : a < size) (hb : b < size) : ∃ d, f a b = .ok d ∧ t.distance a b = .ok d := by
  obtain ⟨d, hd, hends⟩ := h.distance_ends ha hb
  obtain ⟨r, hr, rfl⟩ := hends.exists_value fun e he => by omega
  exact ⟨r, hd, hr⟩

/-! ## Rows -/

/-- The entry of a row and a column of some rows. -/
def entryOf (rows : List (List D)) (a b : Nat) : Checked D := do
  Position.entry (← Position.entry rows a) b

theorem entryOf_eq_ok_iff : entryOf rows a b = .ok d ↔ rows[a]?.bind (·[b]?) = some d := by
  unfold entryOf
  rw [Checked.bind_ok_iff, Option.bind_eq_some_iff]
  simp only [Position.entry_eq_ok_iff]

theorem getElem?_flatten (h : ∀ row ∈ rows, row.length = n) (hb : b < n) :
    rows.flatten[a * n + b]? = rows[a]?.bind (·[b]?) := by
  induction rows generalizing a with
  | nil => rfl
  | cons row rows ih =>
    have hrow : row.length = n := h row (List.mem_cons_self ..)
    rw [List.flatten_cons]
    cases a with
    | zero =>
      rw [Nat.zero_mul, Nat.zero_add, List.getElem?_append_left (hrow ▸ hb)]
      rfl
    | succ a =>
      have hplace : (a + 1) * n + b = row.length + (a * n + b) := by
        rw [hrow, Nat.succ_mul]
        omega
      rw [hplace, List.getElem?_append_right (Nat.le_add_right _ _), Nat.add_sub_cancel_left,
        ih fun r hr => h r (List.mem_cons_of_mem _ hr)]
      rfl

theorem length_flatten (h : ∀ row ∈ rows, row.length = n) :
    rows.flatten.length = rows.length * n := by
  rw [List.length_flatten, List.map_congr_left h, List.map_const', List.sum_replicate, smul_eq_mul]

theorem ofRows_of_square (h : ∀ row ∈ rows, row.length = rows.length) :
    ofRows rows = .ok ⟨rows.length, rows.flatten.toArray⟩ := by
  unfold ofRows
  rw [if_pos]
  simpa using h

theorem ofRows_of_not_square (h : ¬ ∀ row ∈ rows, row.length = rows.length) :
    ofRows rows = .error .notSquare := by
  unfold ofRows
  rw [if_neg]
  simpa using h

theorem tabulates_flatten (h : ∀ row ∈ rows, row.length = rows.length) :
    (⟨rows.length, rows.flatten.toArray⟩ : DistanceTable D).Tabulates rows.length
      (entryOf rows) where
  size_eq := rfl
  entries_size := by rw [List.size_toArray, length_flatten h]
  entry a ha b hb := by
    have hcolumn : b < rows[a].length := by rwa [h _ (List.getElem_mem ha)]
    have hentry : rows[a]?.bind (·[b]?) = some rows[a][b] := by
      rw [List.getElem?_eq_getElem ha, Option.bind_some, List.getElem?_eq_getElem hcolumn]
    refine ⟨_, entryOf_eq_ok_iff.mpr hentry, ?_⟩
    rw [List.getElem?_toArray, getElem?_flatten h hb, hentry]

/-- Rows that are all as long as there are rows make the table of their entries. -/
theorem ofRows_ends (rows : List (List D)) :
    Ends (ofRows rows)
      (fun t => (∀ row ∈ rows, row.length = rows.length) ∧ t.Tabulates rows.length (entryOf rows))
      (fun e => e = .notSquare ∧ ∃ row ∈ rows, row.length ≠ rows.length) := by
  by_cases h : ∀ row ∈ rows, row.length = rows.length
  · rw [ofRows_of_square h]
    exact ⟨h, tabulates_flatten h⟩
  · rw [ofRows_of_not_square h]
    exact ⟨rfl, by simpa using h⟩

/-! ## Functions -/

/-- The rows of the values of a function. -/
def valueRows (size : Nat) (g : Nat → Nat → D) : List (List D) :=
  (List.range size).map fun a => (List.range size).map (g a)

theorem length_valueRows (size : Nat) (g : Nat → Nat → D) : (valueRows size g).length = size := by
  rw [valueRows, List.length_map, List.length_range]

theorem valueRows_square (size : Nat) (g : Nat → Nat → D) :
    ∀ row ∈ valueRows size g, row.length = (valueRows size g).length := by
  intro row hrow
  obtain ⟨a, -, rfl⟩ := List.mem_map.mp hrow
  rw [length_valueRows, List.length_map, List.length_range]

theorem entryOf_valueRows (ha : a < size) (hb : b < size) :
    entryOf (valueRows size g) a b = .ok (g a b) := by
  rw [entryOf_eq_ok_iff, valueRows, List.getElem?_map, List.getElem?_range ha, Option.map_some,
    Option.bind_some, List.getElem?_map, List.getElem?_range hb, Option.map_some]

/-- A function that has all its values makes the same table as their rows, if their number fits a
position. -/
theorem ofFunction_ends (hf : ∀ a < size, ∀ b < size, f a b = .ok (g a b)) :
    Ends (ofFunction size f)
      (fun t => ofRows (valueRows size g) = .ok t ∧ size * size < Position.bound)
      (fun e => e = .overflow .multiply ∧ Position.bound ≤ size * size) := by
  have hrows : ((List.range size).mapM fun a => (List.range size).mapM fun b => f a b) =
      .ok (valueRows size g) :=
    Checked.mapM_of_forall fun a ha => Checked.mapM_of_forall fun b hb =>
      hf a (List.mem_range.mp ha) b (List.mem_range.mp hb)
  unfold ofFunction
  refine (Position.mul_ends size size).bind fun number _ hnumber => ?_
  obtain ⟨rfl, hroom⟩ := hnumber
  rw [hrows, Checked.ok_bind, ofRows_of_square (valueRows_square size g), length_valueRows]
  exact ⟨rfl, hroom⟩

/-- The distances of the table are the values of the function. -/
theorem distance_valueRows (h : ofRows (valueRows size g) = .ok t)
    (hroom : size * size < Position.bound) (ha : a < size) (hb : b < size) :
    t.distance a b = .ok (g a b) := by
  obtain ⟨-, htable⟩ := (ofRows_ends _).value h
  rw [length_valueRows] at htable
  obtain ⟨d, hd, hdistance⟩ :=
    htable.distance_eq (by rw [htable.entries_size]; exact hroom.le) ha hb
  rw [entryOf_valueRows ha hb, Except.ok.injEq] at hd
  rw [hdistance, hd]

/-! ## Symmetry -/

section Words

variable {bits : Nat} {t : DistanceTable (Signed bits)} {f : Nat → Nat → Checked (Signed bits)}

/-- The test of one pair compares its two distances. -/
theorem Tabulates.same_ends (h : t.Tabulates size f) (ha : a < size) (hb : b < size) :
    Ends (do pure (Distance.same (← t.distance a b) (← t.distance b a)))
      (fun answer => answer = true ↔ t.distance a b = t.distance b a)
      (fun e => Position.bound < t.entries.size ∧ e.IsOverflow) := by
  obtain ⟨_, -, hends⟩ := h.distance_ends ha hb
  obtain ⟨_, -, hacross⟩ := h.distance_ends hb ha
  refine hends.bind fun d hd _ => hacross.bind fun e he _ => ?_
  rw [Checked.pure_eq_ok, Checked.ends_ok, hd, he, Except.ok.injEq, Signed.same_iff,
    Signed.ext_iff]

/-- The test for symmetry looks at each pair of entries across the diagonal, from one side. -/
theorem Tabulates.isSymmetric_ends (h : t.Tabulates size f) :
    Ends t.isSymmetric
      (fun answer => answer = true ↔
        ∀ a < t.size, ∀ b < t.size, t.distance a b = t.distance b a)
      (fun e => Position.bound < t.entries.size ∧ e.IsOverflow) := by
  have hrows : Ends t.isSymmetric
      (fun answer => answer = true ↔ ∀ a ∈ List.range t.size,
        ∀ b ∈ List.range' (a + 1) (t.size - (a + 1)), t.distance a b = t.distance b a)
      (fun e => Position.bound < t.entries.size ∧ e.IsOverflow) := by
    unfold isSymmetric
    refine Ends.allM fun a ha => Ends.allM fun b hb => ?_
    rw [List.mem_range, h.size_eq] at ha
    rw [List.mem_range'_1, h.size_eq] at hb
    exact h.same_ends ha (by omega)
  refine hrows.mono fun answer _ hanswer => hanswer.trans ?_
  simp only [List.mem_range, List.mem_range'_1]
  constructor
  · -- The test visits the pairs above the diagonal only.
    intro hsame a ha b hb
    rcases Nat.lt_trichotomy a b with hab | rfl | hba
    · exact hsame a ha b (by omega)
    · rfl
    · exact (hsame b hb a (by omega)).symm
  · intro hsame a ha b hb
    exact hsame a ha b (by omega)

end Words

/-! ## Tables as they are made -/

/-- Rows make a table if each is as long as there are rows, and are refused if not; its distances
are their entries. A function makes the table of its values, which its rows of values make as well,
unless they are too many to be counted. A table of words is found symmetric if and only if its
distances are the same both ways; as a distance, the answer is only missing if there are too many
entries. -/
theorem tables_read_back :
    (∀ {D : Type} (rows : List (List D)),
      (ofRows rows = .error .notSquare ↔ ∃ row ∈ rows, row.length ≠ rows.length) ∧
      Ends (ofRows rows)
        (fun t => t.size = rows.length ∧ ∀ a < t.size, ∀ b < t.size, ∃ d,
          entryOf rows a b = .ok d ∧ Ends (t.distance a b) (fun r => r = d)
            (fun e => Position.bound < t.entries.size ∧ e.IsOverflow))
        (fun e => e = .notSquare)) ∧
    (∀ {D : Type} (size : Nat) (f : Nat → Nat → Checked D) (g : Nat → Nat → D),
      (∀ a < size, ∀ b < size, f a b = .ok (g a b)) →
      Ends (ofFunction size f)
        (fun t => t.size = size ∧ (∀ a < size, ∀ b < size, t.distance a b = .ok (g a b)) ∧
          ofRows (valueRows size g) = .ok t)
        (fun e => e = .overflow .multiply ∧ Position.bound ≤ size * size)) ∧
    (∀ {bits : Nat} (rows : List (List (Signed bits))) (t : DistanceTable (Signed bits)),
      ofRows rows = .ok t →
      Ends t.isSymmetric
        (fun answer => answer = true ↔
          ∀ a < t.size, ∀ b < t.size, t.distance a b = t.distance b a)
        (fun e => Position.bound < t.entries.size ∧ e.IsOverflow)) := by
  refine ⟨fun rows => ⟨⟨fun h => ?_, fun h => ?_⟩, ?_⟩, fun size f g hf => ?_,
    fun rows t h => ?_⟩
  · exact ((ofRows_ends rows).fault h).2
  · exact ofRows_of_not_square (by simpa using h)
  · refine ((ofRows_ends rows).mono fun t _ ht => ?_).weaken fun e he => he.1
    obtain ⟨-, htable⟩ := ht
    rw [htable.size_eq]
    exact ⟨rfl, fun a ha b hb => htable.distance_ends ha hb⟩
  · refine (ofFunction_ends hf).mono fun t _ ht => ?_
    obtain ⟨hrows, hroom⟩ := ht
    obtain ⟨-, htable⟩ := (ofRows_ends _).value hrows
    exact ⟨htable.size_eq.trans (length_valueRows size g),
      fun a ha b hb => distance_valueRows hrows hroom ha hb, hrows⟩
  · obtain ⟨-, htable⟩ := (ofRows_ends rows).value h
    exact htable.isSymmetric_ends

/-- Rows of words that grow downwards and fall to the right. -/
def slanted : List (List (Signed 64)) :=
  [[.wrap 0, .wrap (-1), .wrap (-2)], [.wrap 2, .wrap 1, .wrap 0], [.wrap 4, .wrap 3, .wrap 2]]

/-- The same entries by a rule. -/
def slant (a b : Nat) : Signed 64 := .wrap (2 * a - b)

/-- The slanted rows make the same table as the function that looks them up, which is not
symmetric. Without the last row they make none. -/
theorem tables_read_back_slanted :
    ofRows slanted.dropLast = .error .notSquare ∧
    ∃ t, ofRows slanted = .ok t ∧ ofFunction 3 (entryOf slanted) = .ok t ∧
      t.distance 2 1 = .ok (.wrap 3) ∧ t.distance 1 2 = .ok (.wrap 0) ∧
      t.isSymmetric = .ok false := by
  obtain ⟨hrows, hfunction, hsymmetric⟩ := tables_read_back
  have hshort := (hrows slanted.dropLast).1.mpr ⟨_, List.mem_cons_self .., by decide⟩
  have hslant : ∀ a < 3, ∀ b < 3, entryOf slanted a b = .ok (slant a b) := by decide
  have hslanted : valueRows 3 slant = slanted := by decide
  obtain ⟨t, ht, -, hdistance, hvalues⟩ :=
    (hfunction 3 (entryOf slanted) slant hslant).exists_value
      fun e he => absurd he.2 (by decide)
  rw [hslanted] at hvalues
  have hdown := hdistance 2 (by decide) 1 (by decide)
  have hright := hdistance 1 (by decide) 2 (by decide)
  refine ⟨hshort, t, hvalues, ht, hdown, hright, ?_⟩
  have hroom : t.entries.size ≤ Position.bound := by
    cases hvalues
    decide
  have hsize : t.size = 3 := ((hrows slanted).2.value hvalues).1
  obtain ⟨answer, hanswer, htest⟩ :=
    (hsymmetric slanted t hvalues).exists_value fun e he => absurd he.1 (Nat.not_lt.mpr hroom)
  cases answer with
  | false => exact hanswer
  | true =>
    have hsame := htest.mp rfl 2 (by rw [hsize]; decide) 1 (by rw [hsize]; decide)
    rw [hdown, hright] at hsame
    exact absurd hsame (by decide)

end DistanceTable

end Descent
