import Descent.Voronoi.Assignment
import Mathlib

/-!
# Sites and the positions of their generators

An assignment says twice who serves whom: in its sites, and in the positions that it keeps for
each generator. `Assignment.IndexedFor open` states that the two agree for the generators that
are open, and that no other generator has a position. Every change keeps it: giving a site a
service, vacating the site of a generator that has been detached, and giving services to a whole
row of sites (`Assignment.sweep`).
-/

namespace Descent

namespace Assignment

variable {V D : Type} [Vertex V]

/-- The generator of the site at a position. -/
def generatorAt? (a : Assignment V D) (i : Nat) : Option V :=
  (a.serviceAt? i).map Service.generator

/-- The positions of the open generators are those of their sites; others have none. -/
def IndexedFor (a : Assignment V D) (isOpen : V → Prop) : Prop :=
  ∀ g i, i ∈ a.positions g ↔ isOpen g ∧ a.generatorAt? i = some g

/-- The positions of every generator are those of its sites. -/
def Indexed (a : Assignment V D) : Prop := a.IndexedFor fun _ => True

variable {a : Assignment V D} {isOpen : V → Prop} {g h : V} {i j : Nat} {s : Service V D}

theorem Indexed.mem_positions (ha : a.Indexed) : i ∈ a.positions g ↔ a.generatorAt? i = some g :=
  (ha g i).trans (and_iff_right trivial)

/-- The sites determine the positions. -/
theorem Indexed.positions_unique {b : Assignment V D} (ha : a.Indexed) (hb : b.Indexed)
    (h : b.sites = a.sites) (g : V) : b.positions g = a.positions g := by
  apply AscendingSet.ext_mem
  intro i
  rw [ha.mem_positions, hb.mem_positions]
  simp only [generatorAt?, serviceAt?, h]

/-! ## One change of the table of positions -/

theorem mem_unlink {served : KeyedList V (AscendingSet Nat)} :
    j ∈ ((unlink served g i).get? h).getD .empty ↔
      j ∈ (served.get? h).getD .empty ∧ ¬ (g = h ∧ j = i) := by
  unfold unlink
  split
  · next hg =>
    by_cases hgh : g = h
    · subst hgh
      simp [hg]
    · simp [hgh]
  · next positions hg =>
    by_cases hgh : g = h
    · subst hgh
      simp only [hg, Option.getD_some, true_and]
      split
      · next hempty =>
        -- The dropped entry had no position but `i`.
        have hnone : ∀ x, x ∉ positions.erase i := by
          intro x
          rw [AscendingSet.mem_iff, List.isEmpty_iff.mp hempty]
          exact List.not_mem_nil
        have := hnone j
        simp only [AscendingSet.mem_erase] at this
        simpa using this
      · simp
    · simp only [hgh, false_and, not_false_eq_true, and_true]
      split
      · rw [KeyedList.get?_erase, if_neg hgh]
      · rw [KeyedList.get?_set, if_neg hgh]

theorem mem_link {served : KeyedList V (AscendingSet Nat)} :
    j ∈ ((link served g i).get? h).getD .empty ↔
      j ∈ (served.get? h).getD .empty ∨ (g = h ∧ j = i) := by
  unfold link
  by_cases hgh : g = h
  · subst hgh
    simp [or_comm]
  · simp [hgh]

/-! ## One change of an assignment -/

@[simp] theorem sites_detach : (a.detach g).sites = a.sites := rfl

@[simp] theorem sites_vacate :
    (a.vacate i).sites = a.sites.modify i fun site => { site with service := none } := rfl

@[simp] theorem sites_assign :
    (a.assign i s).sites = a.sites.modify i fun site => { site with service := some s } := rfl

theorem generatorAt?_assign (hi : i < a.sites.length) :
    (a.assign i s).generatorAt? j = if j = i then some s.generator else a.generatorAt? j := by
  by_cases hji : j = i
  · subst hji
    simp [generatorAt?, serviceAt?, hi]
  · simp [generatorAt?, serviceAt?, List.getElem?_modify_ne _ _ (Ne.symm hji), hji]

theorem generatorAt?_vacate :
    (a.vacate i).generatorAt? j = if j = i then none else a.generatorAt? j := by
  by_cases hji : j = i
  · subst hji
    cases hs : a.sites[j]? with
    | none => simp [generatorAt?, serviceAt?, hs]
    | some site => simp [generatorAt?, serviceAt?, hs]
  · simp [generatorAt?, serviceAt?, List.getElem?_modify_ne _ _ (Ne.symm hji), hji]

theorem mem_positions_assign :
    j ∈ (a.assign i s).positions h ↔
      (j ∈ a.positions h ∧ ¬ (a.generatorAt? i = some h ∧ j = i)) ∨
        (s.generator = h ∧ j = i) := by
  simp only [positions, assign]
  rw [mem_link]
  refine or_congr_left ?_
  cases hs : a.serviceAt? i with
  | none => simp [generatorAt?, hs]
  | some old =>
    simp only [generatorAt?, hs, Option.map_some, Option.some.injEq]
    exact mem_unlink

theorem IndexedFor.assign (ha : a.IndexedFor isOpen) (hi : i < a.sites.length)
    (hs : isOpen s.generator) : (a.assign i s).IndexedFor isOpen := by
  intro h j
  rw [mem_positions_assign, generatorAt?_assign hi, ha h j]
  by_cases hji : j = i
  · subst hji
    by_cases hsh : s.generator = h
    · subst hsh
      simp [hs]
    · simp [hsh]
  · simp [hji]

/-- Vacating a site of a generator without positions leaves the positions right. -/
theorem IndexedFor.vacate (ha : a.IndexedFor isOpen) (hg : a.generatorAt? i = some g)
    (hclosed : ¬ isOpen g) : (a.vacate i).IndexedFor isOpen := by
  intro h j
  rw [generatorAt?_vacate]
  refine (ha h j).trans ?_
  by_cases hji : j = i
  · subst hji
    simp only [hg, Option.some.injEq, if_true, reduceCtorEq, and_false, iff_false]
    rintro ⟨hopen, rfl⟩
    exact hclosed hopen
  · simp [hji]

theorem Indexed.detach (ha : a.Indexed) : (a.detach g).IndexedFor (· ≠ g) := by
  intro h j
  show j ∈ ((a.served.erase g).get? h).getD .empty ↔ _
  rw [KeyedList.get?_erase]
  by_cases hgh : g = h
  · subst hgh
    simp
  · rw [if_neg hgh]
    refine (ha h j).trans ?_
    simp only [true_and, ne_eq, Ne.symm hgh, not_false_eq_true]
    exact Iff.rfl

/-- Positions that leave a closed generator out are all positions once it serves no site. -/
theorem IndexedFor.indexed (ha : a.IndexedFor (· ≠ g)) (hg : ∀ i, a.generatorAt? i ≠ some g) :
    a.Indexed := by
  intro h j
  refine (ha h j).trans ?_
  simp only [true_and, and_iff_right_iff_imp]
  rintro hj rfl
  exact hg j hj

theorem indexed_ofVertices (vertices : List V) :
    (ofVertices vertices : Assignment V D).Indexed := by
  intro g i
  have hnone : (ofVertices vertices : Assignment V D).generatorAt? i = none := by
    simp only [generatorAt?, serviceAt?, ofVertices, List.getElem?_map]
    cases (distinct vertices)[i]? <;> rfl
  rw [hnone]
  simp [positions, ofVertices]

/-! ## A row of changes -/

/-- Gives a site the service that a choice has for it, if any. -/
def seatAt (choice : Site V D → Option (Service V D)) (a : Assignment V D)
    (x : Site V D × Nat) : Assignment V D :=
  match choice x.1 with
  | some s => a.assign x.2 s
  | none => a

/-- Gives every site the service that a choice has for it, from the first to the last. -/
def sweep (choice : Site V D → Option (Service V D)) (a : Assignment V D) : Assignment V D :=
  a.sites.zipIdx.foldl (seatAt choice) a

end Assignment

/-- The site with the service that a choice has for it, or as it is. -/
def Site.seated {V D : Type} (choice : Site V D → Option (Service V D)) (site : Site V D) :
    Site V D :=
  match choice site with
  | some s => { site with service := some s }
  | none => site

@[simp] theorem Site.vertex_seated {V D : Type} (choice : Site V D → Option (Service V D))
    (site : Site V D) : (site.seated choice).vertex = site.vertex := by
  unfold Site.seated
  split <;> rfl

namespace Assignment

variable {V D : Type} [Vertex V] {a : Assignment V D} {choice : Site V D → Option (Service V D)}

theorem modify_length_append {α : Type} (front : List α) (x : α) (rest : List α) (f : α → α) :
    (front ++ x :: rest).modify front.length f = front ++ f x :: rest := by
  induction front with
  | nil => rfl
  | cons y front ih => simp [ih]

theorem seatAt_sites {front rest : List (Site V D)} {site : Site V D}
    (ha : a.sites = front ++ site :: rest) :
    (seatAt choice a (site, front.length)).sites =
      (front ++ [site.seated choice]) ++ rest := by
  unfold seatAt Site.seated
  cases choice site with
  | none => simp [ha]
  | some s => simp [ha, modify_length_append]

theorem seatAt_indexed {front rest : List (Site V D)} {site : Site V D}
    (ha : a.sites = front ++ site :: rest) (hi : a.Indexed) :
    (seatAt choice a (site, front.length)).Indexed := by
  unfold seatAt
  cases choice site with
  | none => exact hi
  | some s => exact IndexedFor.assign hi (by simp [ha]) trivial

/-- The turns of a sweep that are still ahead. -/
private theorem sweep_rest {front rest : List (Site V D)} (ha : a.sites = front ++ rest)
    (hi : a.Indexed) :
    ((rest.zipIdx front.length).foldl (seatAt choice) a).sites =
        front ++ rest.map (Site.seated choice) ∧
      ((rest.zipIdx front.length).foldl (seatAt choice) a).Indexed := by
  induction rest generalizing front a with
  | nil => exact ⟨by simpa using ha, hi⟩
  | cons site rest ih =>
    have hsites : (seatAt choice a (site, front.length)).sites = _ := seatAt_sites ha
    obtain ⟨hs, hi'⟩ := ih hsites (seatAt_indexed ha hi)
    simp only [List.length_append, List.length_singleton] at hs hi'
    rw [List.zipIdx_cons, List.foldl_cons]
    exact ⟨by simpa using hs, hi'⟩

theorem sweep_sites (hi : a.Indexed) : (a.sweep choice).sites = a.sites.map (Site.seated choice) :=
  (sweep_rest (List.nil_append _).symm hi).1

theorem sweep_indexed (hi : a.Indexed) : (a.sweep choice).Indexed :=
  (sweep_rest (List.nil_append _).symm hi).2

end Assignment

end Descent
