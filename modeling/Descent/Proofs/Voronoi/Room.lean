import Descent.Proofs.Room
import Descent.Proofs.Voronoi.Queries

/-!
# Partitions with room

If no vertex costs more than a bound, served or not, then no site changes its cost by more than
twice that bound. A word with room for that many times the vertices has room for every sum along
a query or a change, up to where it is. The running cost is another matter: it never runs out of
room because it is at all times what the sites cost.
-/

namespace Descent

open Checked (Ends Returns)

/-- A space in which some facilities have distances to some vertices. No vertex costs more than a
bound, served or not, and the word has room for twice the bound for each vertex. -/
structure Space.Roomy {V : Type} [Vertex V] {bits : Nat} (space : Space V (Signed bits))
    (vertices facilities : List V) (bound : Nat) : Prop where
  unserved : space.unserved.val.natAbs ≤ bound
  distance : ∀ v ∈ vertices, ∀ g ∈ facilities, ∃ d,
    space.distance v g = .ok d ∧ d.val.natAbs ≤ bound
  room : (distinct vertices).length * (2 * bound) ≤ Signed.maximum bits

theorem Site.Adds.returns {V : Type} {bits : Nat} {space : Space V (Signed bits)}
    {delta : Signed bits} {before after : Site V (Signed bits)} {turn : Checked (Signed bits)}
    (h : Adds space delta before after turn)
    (hchange : (after.cost space - before.cost space).natAbs ≤ Signed.maximum bits)
    (hsum : (delta.val + (after.cost space - before.cost space)).natAbs ≤ Signed.maximum bits) :
    Returns turn (fun r => r.val = delta.val + (after.cost space - before.cost space)) := by
  rcases h with rfl | ⟨rfl, rfl⟩
  · exact Signed.add_sub_returns hchange hsum
  · show delta.val = delta.val + (after.cost space - after.cost space)
    omega

namespace Voronoi

variable {V : Type} [Vertex V] {bits : Nat} {space : Space V (Signed bits)}
  {vertices facilities : List V} {bound : Nat} {p q : Voronoi V (Signed bits)}
  {g closed opened : V} {delta : Signed bits}

/-! ## One site -/

theorem Consistent.mem_vertices (hc : p.Consistent space vertices) {site : Site V (Signed bits)}
    (hsite : site ∈ p.assignment.sites) : site.vertex ∈ vertices := by
  have hmem : site.vertex ∈ p.vertices := List.mem_map_of_mem hsite
  rwa [hc.vertices_eq, mem_distinct] at hmem

/-- A site with the best service among some of the facilities costs no more than the bound. -/
theorem cost_le_of_isBest (hs : space.Roomy vertices facilities bound) {generators : AscendingSet V}
    (hlisted : ∀ g ∈ generators, g ∈ facilities) {v : V} (hv : v ∈ vertices)
    {site : Site V (Signed bits)} (h : Service.IsBest space generators.toList v site.service) :
    (site.cost space).natAbs ≤ bound := by
  obtain ⟨u, service⟩ := site
  cases service with
  | none => exact hs.unserved
  | some s =>
    have hnearest : Service.IsNearest space generators.toList v s := h
    obtain ⟨d, hd, hbound⟩ := hs.distance v hv s.generator (hlisted _ hnearest.member)
    obtain rfl : s.distance = d := Except.ok.inj (hnearest.measured.symm.trans hd)
    exact hbound

theorem exists_nearest (hs : space.Roomy vertices facilities bound) {generators : AscendingSet V}
    (hlisted : ∀ g ∈ generators, g ∈ facilities) {v : V} (hv : v ∈ vertices) :
    ∃ found, Service.nearest space generators.toList v = .ok found := by
  cases h : Service.nearest space generators.toList v with
  | ok found => exact ⟨found, rfl⟩
  | error e =>
    obtain ⟨g, hg, herror⟩ :=
      (Service.nearest_ends space.allDefined_word generators.ascending v).fault h
    obtain ⟨d, hd, -⟩ := hs.distance v hv g (hlisted g hg)
    rw [hd] at herror
    cases herror

/-! ## All sites -/

/-- Sites that cost no more than the bound can be added up. -/
theorem total_returns (hs : space.Roomy vertices facilities bound) {a : Assignment V (Signed bits)}
    (hlength : a.sites.length = (distinct vertices).length)
    (hcost : ∀ site ∈ a.sites, (site.cost space).natAbs ≤ bound) :
    Returns (a.total space) (fun r => r.val = a.cost space) := by
  have hroom := hs.room
  have hsum : Returns (a.total space) (fun _ => True) := by
    refine (Signed.sum_returns (List.forall_mem_map.mpr hcost) ?_).mono fun _ _ _ => trivial
    rw [List.length_map, hlength]
    exact Nat.le_trans (Nat.mul_le_mul_left _ (by omega)) hroom
  exact hsum.mono fun r hr _ => (total_ends a).value hr

theorem cost_le {a : Assignment V (Signed bits)}
    (hlength : a.sites.length = (distinct vertices).length)
    (hcost : ∀ site ∈ a.sites, (site.cost space).natAbs ≤ bound) :
    (a.cost space).natAbs ≤ (distinct vertices).length * bound := by
  have hsum := natAbs_sum_le (List.forall_mem_map.mpr hcost)
  rwa [List.length_map, hlength] at hsum

/-- A cost that is settled after an exact change has room. -/
theorem settle_returns (hs : space.Roomy vertices facilities bound)
    {before delta : Signed bits} {a a' : Assignment V (Signed bits)} {atBoundary : Bool}
    (hbefore : before.val = a.cost space) (hdelta : delta.val = a'.cost space - a.cost space)
    (hlength : a'.sites.length = (distinct vertices).length)
    (hcost : ∀ site ∈ a'.sites, (site.cost space).natAbs ≤ bound) :
    Returns (settle space before atBoundary delta a') (fun _ => True) := by
  unfold settle
  cases atBoundary with
  | true => exact (total_returns hs hlength hcost).mono fun _ _ _ => trivial
  | false =>
    -- The sum of the two is what the sites cost after the change, however large the change is.
    have hafter := cost_le hlength hcost
    have hroom := hs.room
    rw [Nat.mul_left_comm] at hroom
    refine (Signed.add_returns ?_).mono fun _ _ _ => trivial
    rw [show before.val + delta.val = a'.cost space by omega]
    omega

/-! ## Partitions over some facilities -/

/-- A partition along a history in a space with room, whose generators are some of the
facilities. -/
structure Placed (space : Space V (Signed bits)) (vertices facilities : List V) (bound : Nat)
    (p : Voronoi V (Signed bits)) : Prop where
  roomy : space.Roomy vertices facilities bound
  reachable : Reachable space vertices p
  listed : ∀ g ∈ p.generators, g ∈ facilities

namespace Placed

variable (h : p.Placed space vertices facilities bound)

include h

theorem consistent : p.Consistent space vertices := h.reachable.consistent space.allDefined_word

theorem length_sites : p.assignment.sites.length = (distinct vertices).length := by
  rw [← h.consistent.vertices_eq]
  exact (List.length_map _).symm

theorem listed_insert (hg : g ∈ facilities) : ∀ x ∈ p.generators.insert g, x ∈ facilities := by
  intro x hx
  rcases AscendingSet.mem_insert.mp hx with rfl | hx
  · exact hg
  · exact h.listed x hx

theorem listed_erase (g : V) : ∀ x ∈ p.generators.erase g, x ∈ facilities :=
  fun x hx => h.listed x (AscendingSet.mem_erase.mp hx).1

theorem site_le {site : Site V (Signed bits)} (hsite : site ∈ p.assignment.sites) :
    (site.cost space).natAbs ≤ bound :=
  cost_le_of_isBest h.roomy h.listed (h.consistent.mem_vertices hsite)
    (h.consistent.best site hsite)

/-- The running cost is bounded because it is what the sites cost. -/
theorem runningCost_le : p.cost.val.natAbs ≤ (distinct vertices).length * bound := by
  rw [show p.cost.val = p.assignment.cost space from h.reachable.balanced]
  exact cost_le h.length_sites fun _ => h.site_le

theorem runningCost_sub_le (h' : q.Placed space vertices facilities bound) :
    (q.cost.val - p.cost.val).natAbs ≤ (distinct vertices).length * (2 * bound) := by
  have hp := h.runningCost_le
  have hq := h'.runningCost_le
  rw [Nat.mul_left_comm]
  omega

/-! ## Sites after a change -/

theorem seated_le (hg : g ∈ facilities) {site : Site V (Signed bits)}
    (hsite : site ∈ p.assignment.sites) :
    ((site.seated (Site.taken space g)).cost space).natAbs ≤ bound := by
  have hv := h.consistent.mem_vertices hsite
  obtain ⟨d, hd, -⟩ := h.roomy.distance _ hv g hg
  exact cost_le_of_isBest h.roomy (h.listed_insert hg) hv
    (isBest_seated space.allDefined_word hd (h.consistent.best site hsite))

theorem released_le (g : V) {site : Site V (Signed bits)} (hsite : site ∈ p.assignment.sites) :
    ((site.released space (p.generators.erase g) g).cost space).natAbs ≤ bound :=
  cost_le_of_isBest h.roomy (h.listed_erase g) (h.consistent.mem_vertices hsite)
    (isBest_released space.allDefined_word (h.consistent.best site hsite))

theorem exchanged_le (closed : V) (hopened : opened ∈ facilities) {site : Site V (Signed bits)}
    (hsite : site ∈ p.assignment.sites) :
    ((exchanged space p closed opened site).cost space).natAbs ≤ bound := by
  have hv := h.consistent.mem_vertices hsite
  obtain ⟨d, hd, -⟩ := h.roomy.distance _ hv opened hopened
  refine cost_le_of_isBest h.roomy (fun x hx => ?_) hv
    (h.consistent.isBest_exchanged space.allDefined_word closed hsite hd)
  rcases AscendingSet.mem_insert.mp hx with rfl | hx
  · exact hopened
  · exact h.listed_erase closed x hx

/-! ## Queries -/

theorem openingDelta_returns (hg : g ∉ p.generators) (hfacility : g ∈ facilities) :
    Returns (p.openingDelta space g)
      (fun r => r.val.natAbs ≤ (distinct vertices).length * (2 * bound)) := by
  rw [openingDelta_eq hg, ← h.length_sites]
  refine Signed.foldlM_adds_returns_of_zero
    (fun site => (site.seated (Site.taken space g)).cost space - site.cost space) ?_ ?_ ?_
  · intro site hsite sum hchange hsum
    obtain ⟨d, hd, -⟩ := h.roomy.distance _ (h.consistent.mem_vertices hsite) g hfacility
    exact (offerDelta_adds hd sum).returns hchange hsum
  · intro site hsite
    have hbefore := h.site_le hsite
    have hafter := h.seated_le hfacility hsite
    omega
  · rw [h.length_sites]
    exact h.roomy.room

theorem closingDelta_returns (hg : g ∈ p.generators) :
    Returns (p.closingDelta space g)
      (fun r => r.val.natAbs ≤ (distinct vertices).length * (2 * bound)) := by
  have hi := h.consistent.indexed
  have hfew : (p.assignment.positions g).toList.length * (2 * bound) ≤
      (distinct vertices).length * (2 * bound) := by
    refine Nat.mul_le_mul_right _ ?_
    rw [← h.length_sites, hi.positions_eq_filter]
    exact (List.length_filter_le ..).trans_eq List.length_range
  rw [closingDelta_eq hg]
  refine (Signed.foldlM_adds_returns_of_zero
    (fun i => (p.assignment.sites[i]?.map fun site =>
      (site.released space (p.generators.erase g) g).cost space - site.cost space).getD 0)
    ?_ ?_ (hfew.trans h.roomy.room)).mono fun r _ hr => hr.trans hfew
  · intro i hpos sum hchange hsum
    obtain ⟨v, old, hsite, hold⟩ :=
      Assignment.exists_site_of_generatorAt? (hi.mem_positions.mp hpos)
    obtain ⟨found, hfound⟩ := exists_nearest h.roomy (h.listed_erase g)
      (h.consistent.mem_vertices (List.mem_of_getElem? hsite))
    rw [hsite] at hchange hsum ⊢
    exact (rehomeDelta_adds hsite hold hfound sum).returns hchange hsum
  · intro i hpos
    obtain ⟨v, old, hsite, -⟩ := Assignment.exists_site_of_generatorAt? (hi.mem_positions.mp hpos)
    have hmem := List.mem_of_getElem? hsite
    have hbefore := h.site_le hmem
    have hafter := h.released_le g hmem
    rw [hsite, Option.map_some, Option.getD_some]
    omega

theorem exchangeDelta_returns (hclosed : closed ∈ p.generators) (hopened : opened ∉ p.generators)
    (hfacility : opened ∈ facilities) :
    Returns (p.exchangeDelta space closed opened)
      (fun r => r.val.natAbs ≤ (distinct vertices).length * (2 * bound)) := by
  unfold exchangeDelta
  rw [if_neg (not_not_intro hclosed), if_neg hopened, ← h.length_sites]
  refine Signed.foldlM_adds_returns_of_zero
    (fun site => (exchanged space p closed opened site).cost space - site.cost space) ?_ ?_ ?_
  · intro site hsite sum hchange hsum
    have hv := h.consistent.mem_vertices hsite
    obtain ⟨d, hd, -⟩ := h.roomy.distance _ hv opened hfacility
    obtain ⟨v, old, rfl⟩ := h.consistent.served hclosed hsite
    exact (exchangeSiteDelta_adds hd
      (fun _ => exists_nearest h.roomy (h.listed_erase closed) hv) sum).returns hchange hsum
  · intro site hsite
    have hbefore := h.site_le hsite
    have hafter := h.exchanged_le closed hfacility hsite
    omega
  · rw [h.length_sites]
    exact h.roomy.room

/-! ## Changes -/

theorem openGenerator_returns (hg : g ∉ p.generators) (hfacility : g ∈ facilities) :
    Returns (p.openGenerator space g) (fun _ => True) := by
  have hi := h.consistent.indexed
  have hsites : (p.assignment.sweep (Site.taken space g)).sites = _ := Assignment.sweep_sites hi
  rw [openGenerator_eq hg]
  refine (h.openingDelta_returns hg hfacility).bind fun delta hdelta _ => ?_
  refine (settle_returns h.roomy h.reachable.balanced ?_ ?_ ?_).bind fun cost _ _ => trivial
  · rw [(openingDelta_ends hg).value hdelta, sum_seated hi]
  · rw [hsites, List.length_map, h.length_sites]
  · rw [hsites]
    exact List.forall_mem_map.mpr fun site hsite => h.seated_le hfacility hsite

theorem closeGenerator_returns (hg : g ∈ p.generators) :
    Returns (p.closeGenerator space g) (fun _ => True) := by
  have hi := h.consistent.indexed
  have hsites : (p.withdrawn space g).sites = _ := withdrawn_sites hi
  rw [closeGenerator_eq hi hg]
  refine (h.closingDelta_returns hg).bind fun delta hdelta _ => ?_
  refine (settle_returns h.roomy h.reachable.balanced ?_ ?_ ?_).bind fun cost _ _ => trivial
  · rw [(closingDelta_ends hi hg).value hdelta, sum_released hi]
  · rw [hsites, List.length_map, h.length_sites]
  · rw [hsites]
    exact List.forall_mem_map.mpr fun site hsite => h.released_le g hsite

/-- What a change returns is the difference of two running costs. -/
theorem change_le {c : GeneratorChange V} (hmade : p.change space c = .ok (delta, q))
    (hlisted : ∀ g ∈ c.applyTo p.generators, g ∈ facilities) :
    delta.val = q.cost.val - p.cost.val ∧
      delta.val.natAbs ≤ (distinct vertices).length * (2 * bound) := by
  have hdelta := (h.reachable.balanced.change h.consistent.indexed hmade).2
  have hplaced : q.Placed space vertices facilities bound := by
    refine ⟨h.roomy, h.reachable.changed hmade, ?_⟩
    rw [change_generators hmade]
    exact hlisted
  refine ⟨hdelta, ?_⟩
  rw [hdelta]
  exact h.runningCost_sub_le hplaced

theorem recompute_returns : Returns (p.recompute space) (fun r => r.val = p.assignment.cost space) :=
  total_returns h.roomy h.length_sites fun _ => h.site_le

end Placed

theorem build_returns (hs : space.Roomy vertices facilities bound) {generators : List V}
    (hlisted : ∀ g ∈ generators, g ∈ facilities) :
    Returns (build space generators vertices)
      (fun p => p.Placed space vertices facilities bound) := by
  have hopen : ∀ g ∈ AscendingSet.ofList generators, g ∈ facilities :=
    fun g hg => hlisted g (AscendingSet.mem_ofList.mp hg)
  have hfound : ∀ v ∈ distinct vertices, ∃ found,
      Service.nearest space (AscendingSet.ofList generators).toList v = .ok found :=
    fun v hv => exists_nearest hs hopen (mem_distinct.mp hv)
  have hseat : ∀ x ∈ (Assignment.ofVertices vertices).sites.zipIdx, ∀ a,
      Returns (seat space (.ofList generators) a x) (fun _ => True) := by
    intro x hx a
    obtain ⟨v, hv, hvertex⟩ := List.mem_map.mp (List.fst_mem_of_mem_zipIdx hx)
    obtain ⟨found, hfound⟩ := hfound v hv
    rw [seat_eq, ← hvertex, hfound]
    trivial
  have hbuilt : Returns (build space generators vertices) (fun _ => True) := by
    refine (Ends.foldlM_true hseat).bind fun a ha _ => ?_
    obtain ⟨hvertices, hbest⟩ := isBest_sweep space.allDefined_word hfound (foldlM_seat ha).1
    have hlength : a.sites.length = (distinct vertices).length := by
      rw [← hvertices]
      exact (List.length_map _).symm
    refine (total_returns hs hlength fun site hsite => ?_).bind fun cost _ _ => trivial
    have hv : site.vertex ∈ a.vertices := List.mem_map_of_mem hsite
    rw [hvertices, mem_distinct] at hv
    exact cost_le_of_isBest hs hopen hv (hbest site hsite)
  refine hbuilt.mono fun p hp _ => ⟨hs, .built hp, ?_⟩
  rw [(build_ok hp).1]
  exact hopen

end Voronoi

end Descent
