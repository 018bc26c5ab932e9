import Descent.Proofs.Voronoi.Changes

/-!
# Partitions along a history

A history builds a partition and then opens and closes generators, in any order. Along all of it
the partition is `Consistent`: its sites are the distinct vertices, each with the service of its
nearest generator, and the positions kept for a generator are those of its sites. So a partition
answers for its present generators alone, whatever the history was that led to them.
-/

namespace Descent

/-- A change of the open generators. -/
inductive GeneratorChange (V : Type) where
  | opening (g : V)
  | closing (g : V)

/-- The open generators after a change. -/
def GeneratorChange.applyTo {V : Type} [Vertex V] (generators : AscendingSet V) :
    GeneratorChange V → AscendingSet V
  | opening g => generators.insert g
  | closing g => generators.erase g

namespace Voronoi

variable {V D : Type} [Vertex V] [Distance D]

/-- Makes a change, and returns the change of the cost. -/
def change (space : Space V D) (p : Voronoi V D) : GeneratorChange V → Checked (D × Voronoi V D)
  | .opening g => p.openGenerator space g
  | .closing g => p.closeGenerator space g

/-- The partitions that a history over a list of vertices leads to. -/
inductive Reachable (space : Space V D) (vertices : List V) : Voronoi V D → Prop where
  | built {generators : List V} {p : Voronoi V D} :
    build space generators vertices = .ok p → Reachable space vertices p
  | changed {p q : Voronoi V D} {c : GeneratorChange V} {delta : D} :
    Reachable space vertices p → p.change space c = .ok (delta, q) → Reachable space vertices q

/-- The sites are the distinct vertices with their nearest generators, and the positions are
those of the sites. -/
structure Consistent (space : Space V D) (vertices : List V) (p : Voronoi V D) : Prop where
  vertices_eq : p.vertices = distinct vertices
  best : ∀ site ∈ p.assignment.sites,
    Service.IsBest space p.generators.toList site.vertex site.service
  indexed : p.assignment.Indexed

variable {space : Space V D} {vertices : List V} {p q : Voronoi V D} {g : V} {delta : D}

/-! ## What a change leads to -/

theorem openGenerator_ok (h : p.openGenerator space g = .ok (delta, q)) :
    g ∉ p.generators ∧ p.openingDelta space g = .ok delta ∧
      q.generators = p.generators.insert g ∧
      q.assignment = p.assignment.sweep (Site.taken space g) ∧
      settle space p.cost p.generators.isEmpty delta q.assignment = .ok q.cost := by
  by_cases hg : g ∈ p.generators
  · unfold openGenerator at h
    rw [if_pos hg] at h
    cases h
  · rw [openGenerator_eq hg] at h
    simp only [Checked.bind_ok_iff] at h
    obtain ⟨delta', hdelta, cost, hcost, h⟩ := h
    cases h
    exact ⟨hg, hdelta, rfl, rfl, hcost⟩

theorem closeGenerator_ok (hi : p.assignment.Indexed)
    (h : p.closeGenerator space g = .ok (delta, q)) :
    g ∈ p.generators ∧ p.closingDelta space g = .ok delta ∧
      q.generators = p.generators.erase g ∧
      q.assignment = p.withdrawn space g ∧
      settle space p.cost q.generators.isEmpty delta q.assignment = .ok q.cost := by
  by_cases hg : g ∈ p.generators
  · rw [closeGenerator_eq hi hg] at h
    simp only [Checked.bind_ok_iff] at h
    obtain ⟨delta', hdelta, cost, hcost, h⟩ := h
    cases h
    exact ⟨hg, hdelta, rfl, rfl, hcost⟩
  · unfold closeGenerator at h
    rw [if_pos hg] at h
    cases h

/-- Closing takes its generator out, whatever the assignment is. -/
theorem closeGenerator_generators (h : p.closeGenerator space g = .ok (delta, q)) :
    g ∈ p.generators ∧ q.generators = p.generators.erase g := by
  unfold closeGenerator at h
  by_cases hg : g ∈ p.generators
  · rw [if_neg (not_not_intro hg)] at h
    obtain ⟨_, _, h⟩ := Checked.bind_ok_iff.mp h
    obtain ⟨cost, _, h⟩ := Checked.bind_ok_iff.mp h
    cases h
    exact ⟨hg, rfl⟩
  · rw [if_pos hg] at h
    cases h

theorem change_generators {c : GeneratorChange V} (h : p.change space c = .ok (delta, q)) :
    q.generators = c.applyTo p.generators := by
  cases c with
  | opening g => exact (openGenerator_ok h).2.2.1
  | closing g => exact (closeGenerator_generators h).2

/-- A partition can only be opened at a generator that has a distance to every vertex. -/
theorem measured_of_openingDelta (hg : g ∉ p.generators)
    (h : p.openingDelta space g = .ok delta) :
    ∀ site ∈ p.assignment.sites, ∃ d, space.distance site.vertex g = .ok d := by
  rw [openingDelta_eq hg] at h
  intro site hsite
  obtain ⟨_, _, hturn⟩ := Checked.foldlM_turn h site hsite
  unfold offerDelta at hturn
  rw [Checked.bind_ok_iff] at hturn
  obtain ⟨d, hd, -⟩ := hturn
  exact ⟨d, hd⟩

/-- Two lists are equal if their images are, and an image comes from one element only. -/
theorem eq_of_map_eq {α β : Type} {f : α → β} {l l' : List α} (hmap : l.map f = l'.map f)
    (hf : ∀ a ∈ l, ∀ b ∈ l', f a = f b → a = b) : l = l' := by
  induction l generalizing l' with
  | nil =>
    rw [List.map_nil, eq_comm, List.map_eq_nil_iff] at hmap
    exact hmap.symm
  | cons a l ih =>
    cases l' with
    | nil => cases hmap
    | cons b l' =>
      rw [List.map_cons, List.map_cons, List.cons.injEq] at hmap
      rw [hf a (by simp) b (by simp) hmap.1,
        ih hmap.2 fun x hx y hy => hf x (by simp [hx]) y (by simp [hy])]

omit [Vertex V] [Distance D] in
/-- Sites with other services are those of the same vertices. -/
theorem vertex_map {sites : List (Site V D)} {f : Site V D → Site V D}
    (hf : ∀ site, (f site).vertex = site.vertex) :
    (sites.map f).map Site.vertex = sites.map Site.vertex := by
  rw [List.map_map]
  exact List.map_congr_left fun site _ => hf site

/-- Sites with other services are still those of the distinct vertices, and have the best services
among other generators if each of them does. -/
theorem Consistent.map_sites (hp : p.Consistent space vertices) {f : Site V D → Site V D}
    (hf : ∀ site, (f site).vertex = site.vertex) {generators : List V}
    (hbest : ∀ site ∈ p.assignment.sites,
      Service.IsBest space generators site.vertex (f site).service) :
    (p.assignment.sites.map f).map Site.vertex = distinct vertices ∧
      ∀ site ∈ p.assignment.sites.map f,
        Service.IsBest space generators site.vertex site.service := by
  refine ⟨(vertex_map hf).trans hp.vertices_eq, fun site hsite => ?_⟩
  obtain ⟨old, hold, rfl⟩ := List.mem_map.mp hsite
  rw [hf]
  exact hbest old hold

/-- Giving the sites the best services among other generators keeps a partition consistent. -/
theorem Consistent.of_map (hp : p.Consistent space vertices) {f : Site V D → Site V D}
    (hf : ∀ site, (f site).vertex = site.vertex)
    (hsites : q.assignment.sites = p.assignment.sites.map f)
    (hbest : ∀ site ∈ p.assignment.sites,
      Service.IsBest space q.generators.toList site.vertex (f site).service)
    (hi : q.assignment.Indexed) : q.Consistent space vertices := by
  obtain ⟨hvertices, hbest'⟩ := hp.map_sites hf hbest
  rw [← hsites] at hvertices hbest'
  exact ⟨hvertices, hbest', hi⟩

/-- While a generator is open every site is served. -/
theorem Consistent.served (hp : p.Consistent space vertices) (hg : g ∈ p.generators)
    {site : Site V D} (hsite : site ∈ p.assignment.sites) : ∃ v s, site = ⟨v, some s⟩ := by
  have hbest := hp.best site hsite
  obtain ⟨v, service⟩ := site
  cases service with
  | some s => exact ⟨v, s, rfl⟩
  | none =>
    rw [AscendingSet.mem_iff, show p.generators.toList = [] from hbest] at hg
    exact absurd hg List.not_mem_nil

/-! ## Positions along a history

The positions of the generators are right, and the vertices stay where they are, whether or not the
distances compare. -/

theorem indexed_of_build {generators : List V} (h : build space generators vertices = .ok p) :
    p.assignment.Indexed := by
  rw [(build_ok h).2.1]
  exact Assignment.sweep_indexed (Assignment.indexed_ofVertices vertices)

theorem indexed_of_change (hi : p.assignment.Indexed) {c : GeneratorChange V}
    (h : p.change space c = .ok (delta, q)) : q.assignment.Indexed := by
  cases c with
  | opening g =>
    rw [(openGenerator_ok h).2.2.2.1]
    exact Assignment.sweep_indexed hi
  | closing g =>
    rw [(closeGenerator_ok hi h).2.2.2.1]
    exact withdrawn_indexed hi

theorem Reachable.indexed (h : Reachable space vertices p) : p.assignment.Indexed := by
  induction h with
  | built h => exact indexed_of_build h
  | changed _ h ih => exact indexed_of_change ih h

theorem vertices_of_build {generators : List V} (h : build space generators vertices = .ok p) :
    p.vertices = distinct vertices := by
  unfold Voronoi.vertices Assignment.vertices
  rw [(build_ok h).2.1, Assignment.sweep_sites (Assignment.indexed_ofVertices vertices),
    vertex_map (Site.vertex_seated _)]
  simp [Assignment.ofVertices, Function.comp_def]

theorem vertices_of_change (hi : p.assignment.Indexed) {c : GeneratorChange V}
    (h : p.change space c = .ok (delta, q)) : q.vertices = p.vertices := by
  unfold Voronoi.vertices Assignment.vertices
  cases c with
  | opening g =>
    rw [(openGenerator_ok h).2.2.2.1, Assignment.sweep_sites hi, vertex_map (Site.vertex_seated _)]
  | closing g =>
    rw [(closeGenerator_ok hi h).2.2.2.1, withdrawn_sites hi,
      vertex_map (Site.vertex_released space _ g)]

theorem Reachable.vertices_eq (h : Reachable space vertices p) :
    p.vertices = distinct vertices := by
  induction h with
  | built h => exact vertices_of_build h
  | changed hp h ih => rw [vertices_of_change hp.indexed h, ih]

section Comparable

variable [Comparable D]

/-- A site that has been offered a new generator has the best service among all. -/
theorem isBest_seated (def_ : space.AllDefined) {generators : AscendingSet V} {site : Site V D}
    {d : D} (hd : space.distance site.vertex g = .ok d)
    (h : Service.IsBest space generators.toList site.vertex site.service) :
    Service.IsBest space (generators.insert g).toList site.vertex
      (site.seated (Site.taken space g)).service := by
  have hmem : ∀ x, x ∈ g :: generators.toList ↔ x ∈ (generators.insert g).toList := by
    intro x
    rw [← AscendingSet.mem_iff, AscendingSet.mem_insert, List.mem_cons, AscendingSet.mem_iff]
  obtain ⟨v, service⟩ := site
  simp only at hd h ⊢
  cases service with
  | none =>
    have hnil : generators.toList = [] := h
    rw [hnil] at hmem
    rw [Site.seated_taken_none hd]
    exact (Service.IsNearest.singleton hd (def_ _ _ _ hd)).congr hmem
  | some old =>
    have hold : Service.IsNearest space generators.toList v old := h
    rw [Site.seated_taken_some hd]
    cases hc : Service.closer ⟨g, d⟩ old with
    | true => exact (hold.replace def_ hd hc).congr hmem
    | false => exact (hold.keep hd hc).congr hmem

/-- A site that a closed generator has left behind, or not, has the best service among the
remaining ones. -/
theorem isBest_released (def_ : space.AllDefined) {generators : AscendingSet V} {site : Site V D}
    (h : Service.IsBest space generators.toList site.vertex site.service) :
    Service.IsBest space (generators.erase g).toList site.vertex
      (site.released space (generators.erase g) g).service := by
  have hsub : ∀ x ∈ (generators.erase g).toList, x ∈ generators.toList := by
    intro x hx
    exact (AscendingSet.mem_erase.mp hx).1
  obtain ⟨v, service⟩ := site
  simp only at h ⊢
  cases service with
  | none =>
    have hnil : generators.toList = [] := h
    rw [hnil] at hsub
    exact List.eq_nil_iff_forall_not_mem.mpr fun x hx => List.not_mem_nil (hsub x hx)
  | some s =>
    have hs : Service.IsNearest space generators.toList v s := h
    unfold Site.released
    by_cases hsg : s.generator = g
    · rw [if_pos (by simp [Site.generator?, hsg])]
      simp only [Site.rehomed, Site.nearest?]
      have hends := Service.nearest_ends def_ (generators.erase g).ascending v
      cases hn : Service.nearest space (generators.erase g).toList v with
      | ok found => exact hends.value hn
      | error e =>
        -- The nearest service has measured the distance to every generator.
        obtain ⟨x, hx, hxe⟩ := hends.fault hn
        obtain ⟨d, hd, -⟩ := hs.least x (hsub x hx)
        rw [hxe] at hd
        cases hd
    · rw [if_neg (by simp [Site.generator?, hsg])]
      exact hs.restrict hsub (AscendingSet.mem_erase.mpr ⟨hs.member, hsg⟩)

/-! ## Consistency along a history -/

/-- Sites that have looked for their nearest generators are those of the distinct vertices, with the
best services. -/
theorem isBest_sweep (def_ : space.AllDefined) {generators : AscendingSet V}
    (hfound : ∀ v ∈ distinct vertices, ∃ found,
      Service.nearest space generators.toList v = .ok found) {a : Assignment V D}
    (ha : a = (Assignment.ofVertices vertices).sweep (Site.nearest? space generators)) :
    a.vertices = distinct vertices ∧ ∀ site ∈ a.sites,
      Service.IsBest space generators.toList site.vertex site.service := by
  have hsites : a.sites = (distinct vertices).map fun v =>
      (⟨v, none⟩ : Site V D).seated (Site.nearest? space generators) := by
    rw [ha, Assignment.sweep_sites (Assignment.indexed_ofVertices vertices)]
    simp [Assignment.ofVertices]
  refine ⟨?_, ?_⟩
  · simp [Assignment.vertices, hsites, Function.comp_def]
  · intro site hsite
    rw [hsites, List.mem_map] at hsite
    obtain ⟨v, hv, rfl⟩ := hsite
    obtain ⟨found, hf⟩ := hfound v hv
    have hbest := nearest?_isBest def_ hf
    rw [Site.vertex_seated]
    cases found with
    | none => simpa [Site.seated, Site.nearest?, hf] using hbest
    | some s => simpa [Site.seated, Site.nearest?, hf] using hbest

theorem Consistent.of_build (def_ : space.AllDefined) {generators : List V}
    (h : build space generators vertices = .ok p) : p.Consistent space vertices := by
  obtain ⟨-, ha, -, hfound⟩ := build_ok h
  obtain ⟨hvertices, hbest⟩ := isBest_sweep def_ hfound ha
  exact ⟨hvertices, hbest, indexed_of_build h⟩

theorem Consistent.of_open (def_ : space.AllDefined) (hp : p.Consistent space vertices)
    (h : p.openGenerator space g = .ok (delta, q)) : q.Consistent space vertices := by
  obtain ⟨hg, hdelta, hgens, ha, -⟩ := openGenerator_ok h
  have hsites : (p.assignment.sweep (Site.taken space g)).sites = _ :=
    Assignment.sweep_sites hp.indexed
  rw [← ha] at hsites
  have hindexed : q.assignment.Indexed :=
    indexed_of_change hp.indexed (show p.change space (.opening g) = .ok (delta, q) from h)
  refine hp.of_map (Site.vertex_seated _) hsites (fun site hsite => ?_) hindexed
  obtain ⟨d, hd⟩ := measured_of_openingDelta hg hdelta site hsite
  rw [hgens]
  exact isBest_seated def_ hd (hp.best site hsite)

theorem Consistent.of_close (def_ : space.AllDefined) (hp : p.Consistent space vertices)
    (h : p.closeGenerator space g = .ok (delta, q)) : q.Consistent space vertices := by
  obtain ⟨-, -, hgens, ha, -⟩ := closeGenerator_ok hp.indexed h
  have hsites : (p.withdrawn space g).sites = _ := withdrawn_sites hp.indexed
  rw [← ha] at hsites
  have hindexed : q.assignment.Indexed :=
    indexed_of_change hp.indexed (show p.change space (.closing g) = .ok (delta, q) from h)
  refine hp.of_map (Site.vertex_released space _ g) hsites (fun site hsite => ?_) hindexed
  rw [hgens]
  exact isBest_released def_ (hp.best site hsite)

/-- The generators determine the sites. -/
theorem Consistent.sites_unique (def_ : space.AllDefined) (hp : p.Consistent space vertices)
    (hq : q.Consistent space vertices) (hgens : q.generators = p.generators) :
    q.assignment.sites = p.assignment.sites := by
  refine eq_of_map_eq (hq.vertices_eq.trans hp.vertices_eq.symm) fun a ha b hb hab => ?_
  have hbest := hq.best a ha
  rw [hgens, hab] at hbest
  obtain ⟨v, s⟩ := a
  obtain ⟨v', s'⟩ := b
  obtain rfl : v = v' := hab
  obtain rfl : s = s' := hbest.unique (hp.best ⟨v, s'⟩ hb) def_
  rfl

theorem Reachable.consistent (def_ : space.AllDefined) (h : Reachable space vertices p) :
    p.Consistent space vertices := by
  induction h with
  | built h => exact .of_build def_ h
  | @changed p q c delta _ h ih =>
    cases c with
    | opening g => exact ih.of_open def_ h
    | closing g => exact ih.of_close def_ h

end Comparable

end Voronoi

end Descent
