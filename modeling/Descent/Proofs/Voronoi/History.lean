import Descent.Proofs.Voronoi.Progress

/-!
# A partition answers for its generators alone

A history of allowed changes goes through, the faults of its metric and of its arithmetic apart.
After it the vertices are the listed ones, each once, and every vertex is served by the nearest of
the generators that the history has left open, the lowest one in a tie. Two histories that leave
the same generators open leave the same answers.
-/

namespace Descent

open Checked (Ends)

/-- Changes of which each is allowed after those before it. -/
def GeneratorChange.AllAllowed {V : Type} [Vertex V] :
    AscendingSet V → List (GeneratorChange V) → Prop
  | _, [] => True
  | generators, c :: changes => c.Allowed generators ∧ AllAllowed (c.applyTo generators) changes

instance GeneratorChange.decideAllAllowed {V : Type} [Vertex V] :
    (generators : AscendingSet V) → (changes : List (GeneratorChange V)) →
      Decidable (AllAllowed generators changes)
  | _, [] => isTrue trivial
  | generators, c :: changes =>
    have := decideAllAllowed (c.applyTo generators) changes
    inferInstanceAs (Decidable (c.Allowed generators ∧ AllAllowed _ changes))

namespace Voronoi

variable {V D : Type} [Vertex V] [Distance D]

/-- Makes changes one after the other. -/
def replay (space : Space V D) (p : Voronoi V D) (changes : List (GeneratorChange V)) :
    Checked (Voronoi V D) :=
  changes.foldlM (fun p c => do pure (← p.change space c).2) p

/-- Builds a partition and makes changes one after the other. -/
def history (space : Space V D) (generators vertices : List V)
    (changes : List (GeneratorChange V)) : Checked (Voronoi V D) := do
  (← build space generators vertices).replay space changes

variable {space : Space V D} {vertices generators : List V} {p q : Voronoi V D}

/-! ## The vertices -/

/-- The distinct vertices that a list adds to those that have been seen. -/
theorem foldl_distinct (seen l : List V) :
    l.foldl (fun seen v => if v ∈ seen then seen else seen ++ [v]) seen =
      seen ++ (l.filter fun v => decide (v ∉ seen)).eraseDups := by
  induction l generalizing seen with
  | nil => simp
  | cons v l ih =>
    rw [List.foldl_cons, ih]
    by_cases hv : v ∈ seen
    · simp [hv]
    · rw [if_neg hv, List.filter_cons_of_pos (by simpa using hv), List.eraseDups_cons,
        List.append_assoc, List.singleton_append, List.filter_filter]
      congr 4
      funext w
      simp [and_comm, beq_eq_decide]

theorem distinct_eq_eraseDups (l : List V) : distinct l = l.eraseDups := by
  unfold distinct
  rw [foldl_distinct, List.nil_append, List.filter_eq_self.mpr (by simp)]

theorem mem_distinct {l : List V} {v : V} : v ∈ distinct l ↔ v ∈ l := by
  rw [distinct_eq_eraseDups, List.mem_eraseDups]

theorem nodup_distinct (l : List V) : (distinct l).Nodup := by
  refine List.foldlRecOn (motive := List.Nodup) l _ List.nodup_nil fun seen hseen v _ => ?_
  by_cases hv : v ∈ seen
  · rw [if_pos hv]
    exact hseen
  · rw [if_neg hv, ← List.concat_eq_append]
    exact hseen.concat hv

/-! ## The answers -/

theorem Consistent.serviceOf?_isBest (hp : p.Consistent space vertices) {v : V}
    (hv : v ∈ vertices) :
    Service.IsBest space p.generators.toList v (p.assignment.serviceOf? v) := by
  have hmem : v ∈ p.assignment.sites.map Site.vertex := by
    have := mem_distinct.mpr hv
    rw [← hp.vertices_eq] at this
    exact this
  obtain ⟨site, hsite, hsv⟩ := List.mem_map.mp hmem
  unfold Assignment.serviceOf?
  cases hf : p.assignment.sites.find? fun site => decide (site.vertex = v) with
  | none =>
    have := List.find?_eq_none.mp hf site hsite
    simp [hsv] at this
  | some found =>
    have hfv : found.vertex = v := by simpa using List.find?_some hf
    have hbest := hp.best found (List.mem_of_find?_eq_some hf)
    rw [hfv] at hbest
    exact hbest

theorem Consistent.serviceOf?_eq_none (hp : p.Consistent space vertices) {v : V}
    (hv : v ∉ vertices) : p.assignment.serviceOf? v = none := by
  unfold Assignment.serviceOf?
  rw [List.find?_eq_none.mpr, Option.bind_none]
  intro site hsite hsv
  have hmem : v ∈ p.vertices := List.mem_map.mpr ⟨site, hsite, by simpa using hsv⟩
  rw [hp.vertices_eq, mem_distinct] at hmem
  exact hv hmem

theorem Consistent.answers_of_open (hp : p.Consistent space vertices) {g v : V}
    (hg : g ∈ p.generators) (hv : v ∈ vertices) :
    ∃ s : Service V D, s.IsNearest space p.generators.toList v ∧
      p.generatorOf? v = some s.generator ∧ p.distanceOf? v = some s.distance := by
  have hbest := hp.serviceOf?_isBest hv
  unfold generatorOf? distanceOf?
  cases hs : p.assignment.serviceOf? v with
  | none =>
    rw [hs] at hbest
    rw [AscendingSet.mem_iff, show p.generators.toList = [] from hbest] at hg
    exact absurd hg List.not_mem_nil
  | some s =>
    rw [hs] at hbest
    exact ⟨s, hbest, rfl, rfl⟩

theorem Consistent.answers_of_closed (hp : p.Consistent space vertices)
    (hnone : ∀ g, g ∉ p.generators) (v : V) :
    p.generatorOf? v = none ∧ p.distanceOf? v = none := by
  have hv : p.assignment.serviceOf? v = none := by
    by_cases hv : v ∈ vertices
    · have hbest := hp.serviceOf?_isBest hv
      cases hs : p.assignment.serviceOf? v with
      | none => rfl
      | some s =>
        rw [hs] at hbest
        exact absurd (Service.IsNearest.member hbest) (hnone _)
    · exact hp.serviceOf?_eq_none hv
  simp [generatorOf?, distanceOf?, hv]

theorem Reachable.replay {changes : List (GeneratorChange V)}
    (hp : Reachable space vertices p) (h : p.replay space changes = .ok q) :
    Reachable space vertices q ∧
      q.generators = changes.foldl GeneratorChange.applyTo p.generators := by
  induction changes generalizing p with
  | nil =>
    cases h
    exact ⟨hp, rfl⟩
  | cons c changes ih =>
    unfold Voronoi.replay at h
    rw [List.foldlM_cons, Checked.bind_ok_iff] at h
    obtain ⟨r, hr, h⟩ := h
    rw [Checked.bind_ok_iff] at hr
    obtain ⟨⟨delta, _⟩, hc, hr⟩ := hr
    cases hr
    rw [List.foldl_cons, ← change_generators hc]
    exact ih (hp.changed hc) h

theorem history_reachable {changes : List (GeneratorChange V)}
    (h : history space generators vertices changes = .ok p) :
    Reachable space vertices p ∧
      p.generators = changes.foldl GeneratorChange.applyTo (.ofList generators) := by
  obtain ⟨p₀, hbuild, hreplay⟩ := Checked.bind_ok_iff.mp h
  rw [← (build_ok hbuild).1]
  exact Reachable.replay (.built hbuild) hreplay

section Comparable

variable [Comparable D]

theorem Consistent.serviceOf?_unique (def_ : space.AllDefined)
    (hp : p.Consistent space vertices) (hq : q.Consistent space vertices)
    (hgens : q.generators = p.generators) (v : V) :
    q.assignment.serviceOf? v = p.assignment.serviceOf? v := by
  by_cases hv : v ∈ vertices
  · have hbest := hq.serviceOf?_isBest hv
    rw [hgens] at hbest
    exact hbest.unique (hp.serviceOf?_isBest hv) def_
  · rw [hp.serviceOf?_eq_none hv, hq.serviceOf?_eq_none hv]

theorem Reachable.replay_ends (def_ : space.AllDefined) {changes : List (GeneratorChange V)}
    (hp : Reachable space vertices p)
    (hallowed : GeneratorChange.AllAllowed p.generators changes) :
    Ends (p.replay space changes) (fun _ => True) space.MayFail := by
  induction changes generalizing p with
  | nil => trivial
  | cons c changes ih =>
    obtain ⟨hc, hrest⟩ := hallowed
    unfold Voronoi.replay
    rw [List.foldlM_cons]
    have hstep : Ends (do pure (← p.change space c).2)
        (fun q => Reachable space vertices q ∧ q.generators = c.applyTo p.generators)
        space.MayFail := by
      refine (change_ends (hp.consistent def_).indexed hc).bind fun r hr _ => ?_
      exact ⟨hp.changed hr, change_generators hr⟩
    refine hstep.bind fun q _ hq => ih hq.1 ?_
    rw [hq.2]
    exact hrest

theorem history_ends (def_ : space.AllDefined) {changes : List (GeneratorChange V)}
    (hallowed : GeneratorChange.AllAllowed (.ofList generators) changes) :
    Ends (history space generators vertices changes) (fun _ => True) space.MayFail := by
  refine (build_ends generators vertices).bind fun p₀ hbuild _ => ?_
  rw [← (build_ok hbuild).1] at hallowed
  exact Reachable.replay_ends def_ (.built hbuild) hallowed

/-- Every history of allowed changes goes through, unless the metric or the arithmetic faults.
After it the generators are the ones that it has left open, the vertices are the listed ones,
each where it first occurs, and every vertex has the service of its nearest generator, or none
while there is no generator. The answers of two histories over the same vertices only differ if
their open generators do. -/
theorem history_nearest (def_ : space.AllDefined) {changes : List (GeneratorChange V)}
    (hallowed : GeneratorChange.AllAllowed (.ofList generators) changes) :
    Ends (history space generators vertices changes)
      (fun p => p.generators = changes.foldl GeneratorChange.applyTo (.ofList generators) ∧
        p.vertices = vertices.eraseDups ∧
        ((∃ g, g ∈ p.generators) → ∀ v ∈ vertices, ∃ s : Service V D,
          s.IsNearest space p.generators.toList v ∧
            p.generatorOf? v = some s.generator ∧ p.distanceOf? v = some s.distance) ∧
        ((∀ g, g ∉ p.generators) → ∀ v, p.generatorOf? v = none ∧ p.distanceOf? v = none) ∧
        ∀ (generators' : List V) (changes' : List (GeneratorChange V)) (q : Voronoi V D),
          history space generators' vertices changes' = .ok q → q.generators = p.generators →
          ∀ v, q.generatorOf? v = p.generatorOf? v ∧ q.distanceOf? v = p.distanceOf? v)
      space.MayFail := by
  refine (history_ends def_ hallowed).mono fun p hp _ => ?_
  obtain ⟨hreach, hgens⟩ := history_reachable hp
  have hc := hreach.consistent def_
  refine ⟨hgens, ?_, ?_, ?_, ?_⟩
  · rw [hc.vertices_eq, distinct_eq_eraseDups]
  · rintro ⟨g, hg⟩ v hv
    exact hc.answers_of_open hg hv
  · exact hc.answers_of_closed
  · intro generators' changes' q hq hgens' v
    have hv := hc.serviceOf?_unique def_ ((history_reachable hq).1.consistent def_) hgens' v
    simp [generatorOf?, distanceOf?, hv]

end Comparable

/-- Distances that are all the same but for the sign of zero; a vertex is nearest to itself. -/
def signedZeros : Space Nat Float where
  distance v g := .ok (if g = v then -1 else if g < v then -0.0 else 0)
  unserved := 10

theorem signedZeros_allDefined : signedZeros.AllDefined := by
  intro v g d hd
  cases hd
  rw [Comparable.defined_double_iff]
  split
  · decide
  · split
    · decide
    · decide

/-- The two zeros tie, so the lowest generator gets vertex 3 although it came last. -/
theorem history_nearest_signedZeros :
    ∃ p : Voronoi Nat Float, signedZeros.AllDefined ∧
      GeneratorChange.AllAllowed (.ofList [5, 2]) [.closing 2, .opening 4, .opening 0] ∧
      history signedZeros [5, 2] [3, 1, 3] [.closing 2, .opening 4, .opening 0] = .ok p ∧
      p.vertices = [3, 1, 3].eraseDups ∧ p.generators.toList = [0, 4, 5] ∧
      ∃ s : Service Nat Float, s.IsNearest signedZeros p.generators.toList 3 ∧
        p.generatorOf? 3 = some s.generator ∧ p.generatorOf? 3 = some 0 := by
  have hallowed : GeneratorChange.AllAllowed (.ofList [5, 2])
      [.closing 2, .opening 4, .opening 0] := by decide
  have at_history : ∀ p : Voronoi Nat Float,
      history signedZeros [5, 2] [3, 1, 3] [.closing 2, .opening 4, .opening 0] = .ok p →
      (∃ g, g ∈ p.generators) → p.vertices = [3, 1, 3].eraseDups ∧
        ∃ s : Service Nat Float, s.IsNearest signedZeros p.generators.toList 3 ∧
          p.generatorOf? 3 = some s.generator := by
    intro p hp hopen
    obtain ⟨-, hvertices, hserved, -⟩ :=
      (history_nearest signedZeros_allDefined hallowed).value hp
    obtain ⟨s, hs, hg, -⟩ := hserved hopen 3 (by simp)
    exact ⟨hvertices, s, hs, hg⟩
  refine ⟨_, signedZeros_allDefined, hallowed, rfl, ?_⟩
  obtain ⟨hvertices, s, hs, hg⟩ := at_history _ rfl ⟨0, by decide⟩
  exact ⟨hvertices, rfl, s, hs, hg, rfl⟩

end Voronoi

end Descent
