import Descent.Proofs.Comparison
import Descent.Proofs.Outcome
import Descent.Voronoi.Assignment

/-!
# The nearest generator

`Service.IsNearest` says which service is the right one for a vertex: its generator is at a least
distance, and is the lowest one of those at that distance. There is at most one such service
(`IsNearest.unique`), and `nearest_ends` is the specification of the scan that looks for it. Two
more facts keep a service right while the generators change: a new generator either takes the
vertex over or leaves its service right, and a service stays right when another generator closes.
-/

namespace Descent

/-- A space whose distances can all be compared. -/
def Space.AllDefined {V D : Type} [Distance D] [Comparable D] (space : Space V D) : Prop :=
  ∀ v g d, space.distance v g = .ok d → Comparable.Defined d

namespace Service

variable {V D : Type} [Vertex V] [Distance D]

/-- The service of a vertex by the nearest generator of a list, the lowest one of those at the
least distance. -/
structure IsNearest (space : Space V D) (generators : List V) (v : V) (s : Service V D) :
    Prop where
  member : s.generator ∈ generators
  measured : space.distance v s.generator = .ok s.distance
  least : ∀ h ∈ generators, ∃ d, space.distance v h = .ok d ∧
    Gain.lt d s.distance = false ∧ (Distance.same d s.distance = true → ¬ h < s.generator)

/-- The right answer to the question for the nearest generator of a list: none only if the list
is empty. -/
def IsBest (space : Space V D) (generators : List V) (v : V) : Option (Service V D) → Prop
  | none => generators = []
  | some s => IsNearest space generators v s

variable {space : Space V D} {l l' : List V} {v g : V} {s t : Service V D} {d : D}

theorem closer_eq_false_iff :
    s.closer t = false ↔ Gain.lt s.distance t.distance = false ∧
      (Distance.same s.distance t.distance = true → ¬ s.generator < t.generator) := by
  simp only [closer, Bool.or_eq_false_iff, Bool.and_eq_false_iff, decide_eq_false_iff_not]
  refine and_congr_right fun _ => ?_
  cases Distance.same s.distance t.distance <;> simp

theorem IsNearest.singleton [Comparable D] (hd : space.distance v g = .ok d)
    (def_d : Comparable.Defined d) : IsNearest space [g] v ⟨g, d⟩ where
  member := by simp
  measured := hd
  least h hh := by
    obtain rfl := List.mem_singleton.mp hh
    exact ⟨d, hd, Comparable.lt_irrefl def_d, fun _ => Vertex.lt_irrefl h⟩

/-- Only which generators there are matters, not their order. -/
theorem IsNearest.congr (h : IsNearest space l v s) (hl : ∀ x, x ∈ l ↔ x ∈ l') :
    IsNearest space l' v s where
  member := (hl _).mp h.member
  measured := h.measured
  least x hx := h.least x ((hl x).mpr hx)

/-- A service stays the nearest one as long as its generator stays open. -/
theorem IsNearest.restrict (h : IsNearest space l v s) (hl : ∀ x ∈ l', x ∈ l)
    (hs : s.generator ∈ l') : IsNearest space l' v s where
  member := hs
  measured := h.measured
  least x hx := h.least x (hl x hx)

/-- A service stays the nearest one beside a generator that is not closer. -/
theorem IsNearest.keep (h : IsNearest space l v s) (hd : space.distance v g = .ok d)
    (hc : closer ⟨g, d⟩ s = false) : IsNearest space (g :: l) v s where
  member := List.mem_cons_of_mem g h.member
  measured := h.measured
  least x hx := by
    rcases List.mem_cons.mp hx with rfl | hx
    · exact ⟨d, hd, closer_eq_false_iff.mp hc⟩
    · exact h.least x hx

omit [Vertex V] in
/-- The scan only finds generators of its list, however their distances compare. -/
theorem generator_of_nearest (h : nearest space l v = .ok (some s)) : s.generator ∈ l := by
  have loop := Checked.Ends.foldlM (f := nearer space v) (l := l) (b := none)
    (I := fun _ best => ∀ t, best = some t → t.generator ∈ l) (E := fun _ => True)
    (fun _ h => by cases h) ?turn
  · exact loop.value h s rfl
  case turn =>
    intro g _ best hg hbest
    unfold nearer
    cases hd : space.distance v g with
    | error e => trivial
    | ok d =>
      simp only [Checked.ok_bind]
      cases best with
      | none =>
        intro t ht
        cases ht
        exact hg
      | some b =>
        intro t ht
        by_cases hlt : Gain.lt d b.distance = true
        · simp only [hlt, if_true] at ht
          cases ht
          exact hg
        · simp only [hlt, Bool.false_eq_true, if_false] at ht
          exact hbest t ht

section Comparable

variable [Comparable D]

/-- A closer generator takes over. -/
theorem IsNearest.replace (h : IsNearest space l v s) (def_ : space.AllDefined)
    (hd : space.distance v g = .ok d) (hc : closer ⟨g, d⟩ s = true) :
    IsNearest space (g :: l) v ⟨g, d⟩ where
  member := List.mem_cons_self ..
  measured := hd
  least x hx := by
    have def_d := def_ _ _ _ hd
    have def_s := def_ _ _ _ h.measured
    rcases List.mem_cons.mp hx with rfl | hx
    · exact ⟨d, hd, Comparable.lt_irrefl def_d, fun _ => Vertex.lt_irrefl x⟩
    · obtain ⟨e, he, hlt, hlow⟩ := h.least x hx
      have def_e := def_ _ _ _ he
      refine ⟨e, he, ?_, ?_⟩
      · -- The old distance is between the two: `d ≤ s.distance ≤ e`.
        refine Comparable.not_lt_trans def_e def_s def_d hlt ?_
        simp only [closer, Bool.or_eq_true, Bool.and_eq_true, decide_eq_true_eq] at hc
        rcases hc with hc | ⟨hc, -⟩
        · exact Comparable.lt_asymm def_d def_s hc
        · exact ((Comparable.same_iff def_d def_s).mp hc).2
      · intro hsame hxg
        have hed := (Comparable.same_iff def_e def_d).mp hsame
        have hds : Gain.lt d s.distance = false :=
          Comparable.not_lt_trans def_d def_e def_s hed.2 hlt
        simp only [closer, hds, Bool.false_or, Bool.and_eq_true, decide_eq_true_eq] at hc
        exact hlow (Comparable.same_trans def_e def_d def_s hsame hc.1)
          (Vertex.lt_trans hxg hc.2)

theorem IsNearest.unique (hs : IsNearest space l v s) (ht : IsNearest space l v t)
    (def_ : space.AllDefined) : s = t := by
  obtain ⟨d, hd, hdt, hlow⟩ := ht.least _ hs.member
  obtain ⟨e, he, hes, hlow'⟩ := hs.least _ ht.member
  obtain rfl : s.distance = d := Except.ok.inj (hs.measured.symm.trans hd)
  obtain rfl : t.distance = e := Except.ok.inj (ht.measured.symm.trans he)
  have def_s := def_ _ _ _ hs.measured
  have def_t := def_ _ _ _ ht.measured
  have hst := Comparable.same_of_not_lt def_s def_t hdt hes
  have hgen : s.generator = t.generator :=
    ((Vertex.lt_trichotomy _ _).resolve_left (hlow hst)).resolve_right
      (hlow' (Comparable.same_symm def_s def_t hst))
  have hdist : s.distance = t.distance :=
    Except.ok.inj (hs.measured.symm.trans (hgen ▸ ht.measured))
  cases s
  cases t
  cases hgen
  cases hdist
  rfl

theorem IsBest.unique {r r' : Option (Service V D)} (h : IsBest space l v r)
    (h' : IsBest space l v r') (def_ : space.AllDefined) : r = r' := by
  cases r with
  | none =>
    cases r' with
    | none => rfl
    | some t =>
      obtain rfl : l = [] := h
      exact absurd (show IsNearest _ _ _ _ from h').member List.not_mem_nil
  | some s =>
    cases r' with
    | none =>
      obtain rfl : l = [] := h'
      exact absurd (show IsNearest _ _ _ _ from h).member List.not_mem_nil
    | some t => exact congrArg some (IsNearest.unique h h' def_)

/-! ## The scan -/

/-- The scan finds the nearest generator, if there is one, and only fails with its metric. -/
theorem nearest_ends (def_ : space.AllDefined) (hl : l.Pairwise (· < ·)) (v : V) :
    Checked.Ends (nearest space l v) (IsBest space l v)
      (fun e => ∃ g ∈ l, space.distance v g = .error e) := by
  have loop := Checked.Ends.foldlM (f := nearer space v)
    (I := fun rest best => ∃ seen, l = seen ++ rest ∧ IsBest space seen v best)
    (E := fun e => ∃ g ∈ l, space.distance v g = .error e) (l := l) (b := none)
    ⟨[], rfl, rfl⟩ ?turn
  · refine loop.mono fun found _ ⟨seen, hseen, hfound⟩ => ?_
    rw [List.append_nil] at hseen
    exact hseen ▸ hfound
  case turn =>
    intro g rest best hg ⟨seen, hseen, hbest⟩
    cases hd : space.distance v g with
    | error e => simpa [nearer, hd] using ⟨g, hg, hd⟩
    | ok d =>
      simp only [nearer, hd, Checked.ok_bind]
      have hsnoc : l = (seen ++ [g]) ++ rest := by simpa using hseen
      have hmem : ∀ x, x ∈ g :: seen ↔ x ∈ seen ++ [g] := fun x => by simp [or_comm]
      cases best with
      | none =>
        obtain rfl : seen = [] := hbest
        exact ⟨[g], hsnoc, IsNearest.singleton hd (def_ _ _ _ hd)⟩
      | some b =>
        have hb : IsNearest space seen v b := hbest
        have hbg : b.generator < g := by
          rw [hseen, List.pairwise_append] at hl
          exact hl.2.2 _ hb.member _ (by simp)
        refine ⟨seen ++ [g], hsnoc, ?_⟩
        by_cases hlt : Gain.lt d b.distance = true
        · rw [if_pos hlt]
          exact (hb.replace def_ hd (by simp [closer, hlt])).congr hmem
        · rw [if_neg hlt]
          have hc : closer ⟨g, d⟩ b = false :=
            closer_eq_false_iff.mpr ⟨by simpa using hlt, fun _ => Vertex.lt_asymm hbg⟩
          exact (hb.keep hd hc).congr hmem

end Comparable

end Service

end Descent
