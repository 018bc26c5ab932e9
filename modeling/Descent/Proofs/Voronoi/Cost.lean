import Descent.Proofs.Voronoi.History
import Descent.Proofs.Voronoi.Turns

/-!
# The cost of a partition

With words as distances, the changes of cost that a partition returns are exact: each is a sum
over sites of what the site costs after the change less what it cost before. Hence the running
cost is at all times the sum over the vertices of the distance to the nearest generator, and a
change that is undone gives back what it took.
-/

namespace Descent

open Checked (Ends)

/-- How a computation over a space may fail: by an overflow, or because a distance does. -/
def Space.MayOverflow {V D : Type} (space : Space V D) (e : Fault) : Prop :=
  e.IsOverflow ∨ ∃ v g, space.distance v g = .error e

theorem Space.allDefined_word {V : Type} {bits : Nat} (space : Space V (Signed bits)) :
    space.AllDefined := fun _ _ _ _ => trivial

theorem Space.mayOverflow_of_overflow {V D : Type} {space : Space V D} (e : Fault)
    (h : e.IsOverflow) : space.MayOverflow e := .inl h

/-- With words as distances, all that can go wrong is an overflow or the metric. -/
theorem Space.mayOverflow_of_mayFail {V : Type} {bits : Nat} {space : Space V (Signed bits)}
    (e : Fault) (h : space.MayFail e) : space.MayOverflow e := by
  rcases h with hmetric | ⟨a, b, hadd | hsub⟩
  · exact .inr hmetric
  · exact .inl ((Signed.add_ends a b).fault hadd)
  · exact .inl ((Signed.sub_ends a b).fault hsub)

section FromScratch

variable {V : Type} [Vertex V] {bits : Nat}

/-- The distance of a vertex to the nearest of some generators, or the cost of a vertex without
service, as an integer. -/
def Space.serviceCost (space : Space V (Signed bits)) (generators : List V) (v : V) :
    Checked Int := do
  let distances ← generators.mapM (space.distance v)
  pure ((distances.map Signed.val).min?.getD space.unserved.val)

/-- The costs of the distinct vertices of a list, added up in the integers. -/
def Space.totalCost (space : Space V (Signed bits)) (generators vertices : List V) :
    Checked Int := do
  let costs ← vertices.eraseDups.mapM (space.serviceCost generators)
  pure costs.sum

end FromScratch

/-- The change that undoes a change. -/
def GeneratorChange.reversed {V : Type} : GeneratorChange V → GeneratorChange V
  | opening g => closing g
  | closing g => opening g

namespace Site

variable {V : Type} {bits : Nat}

/-- What a site costs, as an integer. -/
def cost (space : Space V (Signed bits)) (site : Site V (Signed bits)) : Int :=
  (Assignment.siteCost space site).val

variable (space : Space V (Signed bits)) (v : V) (s : Service V (Signed bits))

@[simp] theorem cost_none : cost space ⟨v, none⟩ = space.unserved.val := rfl

@[simp] theorem cost_some : cost space ⟨v, some s⟩ = s.distance.val := rfl

theorem Adds.ends {space : Space V (Signed bits)} {delta : Signed bits}
    {before after : Site V (Signed bits)} {turn : Checked (Signed bits)}
    (h : Adds space delta before after turn) :
    Ends turn (fun r => r.val = delta.val + (after.cost space - before.cost space))
      Fault.IsOverflow := by
  rcases h with rfl | ⟨rfl, rfl⟩
  · exact Signed.add_sub_ends ..
  · show delta.val = delta.val + (after.cost space - after.cost space)
    omega

end Site

/-- What all sites cost, as an integer. -/
def Assignment.cost {V : Type} [Vertex V] {bits : Nat} (space : Space V (Signed bits))
    (a : Assignment V (Signed bits)) : Int :=
  (a.sites.map (Site.cost space)).sum

namespace Voronoi

variable {V : Type} [Vertex V] {bits : Nat} {space : Space V (Signed bits)}
  {p q : Voronoi V (Signed bits)} {g : V} {delta : Signed bits}

/-! ## One site -/

theorem total_ends (a : Assignment V (Signed bits)) :
    Ends (a.total space) (fun r => r.val = a.cost space) Fault.IsOverflow := by
  refine (Signed.sum_ends _).mono fun r _ hr => ?_
  rw [hr, Assignment.cost, List.map_map]
  rfl

/-- Offering a generator to a site adds the change of its cost to the sum. -/
theorem offerDelta_ends (delta : Signed bits) (site : Site V (Signed bits)) :
    Ends (offerDelta space g delta site)
      (fun r => r.val =
        delta.val + ((site.seated (Site.taken space g)).cost space - site.cost space))
      space.MayOverflow := by
  cases hd : space.distance site.vertex g with
  | error e =>
    unfold offerDelta
    rw [hd]
    exact .inr ⟨site.vertex, g, hd⟩
  | ok d => exact (offerDelta_adds hd delta).ends.weaken Space.mayOverflow_of_overflow

theorem nearest_ends_mayOverflow (generators : AscendingSet V) (v : V) :
    Ends (Service.nearest space generators.toList v)
      (fun found => Service.nearest space generators.toList v = .ok found) space.MayOverflow := by
  have hends := Service.nearest_ends space.allDefined_word generators.ascending v
  cases h : Service.nearest space generators.toList v with
  | error e =>
    obtain ⟨x, -, hx⟩ := hends.fault h
    exact .inr ⟨v, x, hx⟩
  | ok found => exact rfl

/-- Leaving a site behind adds the change of its cost to the sum. -/
theorem rehomeDelta_ends {i : Nat} (hi : p.assignment.generatorAt? i = some g)
    (delta : Signed bits) :
    Ends (rehomeDelta space p g delta i)
      (fun r => r.val = delta.val + (p.assignment.sites[i]?.map fun site =>
        (site.released space (p.generators.erase g) g).cost space - site.cost space).getD 0)
      space.MayOverflow := by
  obtain ⟨v, old, hsite, hold⟩ := Assignment.exists_site_of_generatorAt? hi
  have hends : Ends (Service.nearest space (p.generators.erase g).toList v) _ space.MayOverflow :=
    nearest_ends_mayOverflow (p.generators.erase g) v
  cases hfound : Service.nearest space (p.generators.erase g).toList v with
  | error e =>
    unfold rehomeDelta
    rw [Position.entry_eq_ok_iff.mpr hsite, Checked.ok_bind]
    simp only [hfound]
    exact hends.fault hfound
  | ok found =>
    rw [hsite]
    exact (rehomeDelta_adds hsite hold hfound delta).ends.weaken Space.mayOverflow_of_overflow

/-! ## All sites -/

/-- Opening changes the cost by the sum of the changes of the sites. -/
theorem openingDelta_ends (hg : g ∉ p.generators) :
    Ends (p.openingDelta space g)
      (fun r => r.val = (p.assignment.sites.map fun site =>
        (site.seated (Site.taken space g)).cost space - site.cost space).sum)
      space.MayOverflow := by
  rw [openingDelta_eq hg]
  refine (Signed.foldlM_adds_ends (fun site _ sum => offerDelta_ends sum site) _).mono
    fun r _ hr => ?_
  rw [hr]
  exact Int.zero_add _

/-- Closing changes the cost by the sum of the changes of the sites. -/
theorem closingDelta_ends (hi : p.assignment.Indexed) (hg : g ∈ p.generators) :
    Ends (p.closingDelta space g)
      (fun r => r.val = (p.assignment.sites.map fun site =>
        (site.released space (p.generators.erase g) g).cost space - site.cost space).sum)
      space.MayOverflow := by
  rw [closingDelta_eq hg]
  have turn : ∀ i ∈ (p.assignment.positions g).toList, ∀ delta,
      Ends (rehomeDelta space p g delta i) _ space.MayOverflow :=
    fun i h delta => rehomeDelta_ends (hi.mem_positions.mp h) delta
  refine (Signed.foldlM_adds_ends turn _).mono fun r _ hr => ?_
  rw [hr, sum_positions hi]
  · exact Int.zero_add _
  · intro site _ hne
    rw [Site.released, if_neg hne, Int.sub_self]

/-! ## The running cost -/

/-- The running cost is what all sites cost. -/
def Balanced (space : Space V (Signed bits)) (p : Voronoi V (Signed bits)) : Prop :=
  p.cost.val = p.assignment.cost space

theorem Balanced.of_build {generators vertices : List V}
    (h : build space generators vertices = .ok p) : p.Balanced space :=
  (total_ends p.assignment).value (build_ok h).2.2.1

/-- A cost that is settled after an exact change is what all sites cost. -/
theorem settle_val {before delta after : Signed bits} {a a' : Assignment V (Signed bits)}
    {atBoundary : Bool} (hbefore : before.val = a.cost space)
    (hdelta : delta.val = a'.cost space - a.cost space)
    (h : settle space before atBoundary delta a' = .ok after) : after.val = a'.cost space := by
  unfold settle at h
  cases atBoundary with
  | true => exact (total_ends a').value h
  | false =>
    have hsum := (Signed.add_ends before delta).value h
    omega

theorem sum_seated (hi : p.assignment.Indexed) (g : V) :
    (p.assignment.sites.map fun site =>
      (site.seated (Site.taken space g)).cost space - site.cost space).sum =
      (p.assignment.sweep (Site.taken space g)).cost space - p.assignment.cost space := by
  rw [sum_map_sub, Assignment.cost, Assignment.sweep_sites hi, List.map_map]
  rfl

theorem sum_released (hi : p.assignment.Indexed) (g : V) :
    (p.assignment.sites.map fun site =>
      (site.released space (p.generators.erase g) g).cost space - site.cost space).sum =
      (p.withdrawn space g).cost space - p.assignment.cost space := by
  rw [sum_map_sub, Assignment.cost, withdrawn_sites hi, List.map_map]
  rfl

theorem openingDelta_val (hi : p.assignment.Indexed)
    (h : p.openGenerator space g = .ok (delta, q)) :
    delta.val = q.assignment.cost space - p.assignment.cost space := by
  obtain ⟨hg, hdelta, -, ha, -⟩ := openGenerator_ok h
  rw [(openingDelta_ends hg).value hdelta, ha, sum_seated hi]

theorem closingDelta_val (hi : p.assignment.Indexed)
    (h : p.closeGenerator space g = .ok (delta, q)) :
    delta.val = q.assignment.cost space - p.assignment.cost space := by
  obtain ⟨hg, hdelta, -, ha, -⟩ := closeGenerator_ok hi h
  rw [(closingDelta_ends hi hg).value hdelta, ha, sum_released hi]

/-- A change returns exactly the difference of the costs, and keeps the balance. -/
theorem Balanced.change (hp : p.Balanced space) (hi : p.assignment.Indexed)
    {c : GeneratorChange V} (h : p.change space c = .ok (delta, q)) :
    q.Balanced space ∧ delta.val = q.cost.val - p.cost.val := by
  have hq : delta.val = q.assignment.cost space - p.assignment.cost space ∧
      ∃ atBoundary, settle space p.cost atBoundary delta q.assignment = .ok q.cost := by
    cases c with
    | opening g => exact ⟨openingDelta_val hi h, _, (openGenerator_ok h).2.2.2.2⟩
    | closing g => exact ⟨closingDelta_val hi h, _, (closeGenerator_ok hi h).2.2.2.2⟩
  obtain ⟨hdelta, atBoundary, hsettle⟩ := hq
  have hbal : q.cost.val = q.assignment.cost space := settle_val hp hdelta hsettle
  unfold Balanced at hp
  exact ⟨hbal, by omega⟩

theorem Reachable.balanced {vertices : List V} (h : Reachable space vertices p) :
    p.Balanced space := by
  induction h with
  | built h => exact .of_build h
  | changed hp h ih => exact (ih.change (hp.consistent space.allDefined_word).indexed h).1

/-! ## The cost from scratch -/

theorem serviceCost_of_isBest {generators : List V} {v : V}
    {service : Option (Service V (Signed bits))}
    (h : Service.IsBest space generators v service) :
    space.serviceCost generators v = .ok (Site.cost space ⟨v, service⟩) := by
  unfold Space.serviceCost
  cases service with
  | none =>
    obtain rfl : generators = [] := h
    rfl
  | some s =>
    have hs : Service.IsNearest space generators v s := h
    obtain ⟨ds, hds, hmem⟩ := Checked.mapM_of_forall_exists (f := space.distance v)
      (l := generators) fun x hx => by
        obtain ⟨d, hd, -⟩ := hs.least x hx
        exact ⟨d, hd⟩
    -- The distance of the nearest service is one of the distances, and none is below it.
    have hmin : (ds.map Signed.val).min? = some s.distance.val := by
      refine List.min?_eq_some_iff.mpr ⟨?_, ?_⟩
      · exact List.mem_map_of_mem ((hmem _).mpr ⟨_, hs.member, hs.measured⟩)
      · intro n hn
        obtain ⟨d, hd, rfl⟩ := List.mem_map.mp hn
        obtain ⟨x, hx, hxd⟩ := (hmem d).mp hd
        obtain ⟨e, he, hle, -⟩ := hs.least x hx
        obtain rfl : d = e := Except.ok.inj (hxd.symm.trans he)
        exact Signed.not_lt_iff.mp hle
    rw [hds, Checked.ok_bind, hmin]
    rfl

/-- Sites with the best services cost what their vertices cost from scratch. -/
theorem totalCost_of_isBest {generators vertices : List V} {sites : List (Site V (Signed bits))}
    (hvertices : sites.map Site.vertex = distinct vertices)
    (hbest : ∀ site ∈ sites, Service.IsBest space generators site.vertex site.service) :
    space.totalCost generators vertices = .ok (sites.map (Site.cost space)).sum := by
  have hcosts : (sites.map Site.vertex).mapM (space.serviceCost generators) =
      .ok (sites.map (Site.cost space)) := by
    rw [List.mapM_map]
    exact Checked.mapM_of_forall fun site hsite => serviceCost_of_isBest (hbest site hsite)
  unfold Space.totalCost
  rw [← distinct_eq_eraseDups, ← hvertices, hcosts]
  rfl

theorem Reachable.totalCost {vertices : List V} (hp : Reachable space vertices p) :
    space.totalCost p.generators.toList vertices = .ok p.cost.val := by
  have hc := hp.consistent space.allDefined_word
  rw [totalCost_of_isBest hc.vertices_eq hc.best, hp.balanced]
  rfl

/-! ## Changes that are undone -/

theorem reversed_applyTo {c : GeneratorChange V} (h : p.change space c = .ok (delta, q)) :
    c.reversed.applyTo (c.applyTo p.generators) = p.generators := by
  apply AscendingSet.ext_mem
  intro x
  cases c with
  | opening g =>
    have hg := (openGenerator_ok h).1
    simp only [GeneratorChange.applyTo, GeneratorChange.reversed, AscendingSet.mem_erase,
      AscendingSet.mem_insert]
    constructor
    · rintro ⟨hx | hx, hne⟩
      · exact absurd hx hne
      · exact hx
    · intro hx
      exact ⟨.inr hx, fun e => hg (e ▸ hx)⟩
  | closing g =>
    have hg := (closeGenerator_generators h).1
    simp only [GeneratorChange.applyTo, GeneratorChange.reversed, AscendingSet.mem_erase,
      AscendingSet.mem_insert]
    constructor
    · rintro (rfl | hx)
      · exact hg
      · exact hx.1
    · intro hx
      by_cases hxg : x = g
      · exact .inl hxg
      · exact .inr ⟨hx, hxg⟩

theorem Reachable.restored {vertices : List V} {r : Voronoi V (Signed bits)}
    {c : GeneratorChange V} {delta' : Signed bits} (hp : Reachable space vertices p)
    (h : p.change space c = .ok (delta, q)) (h' : q.change space c.reversed = .ok (delta', r)) :
    r.generators = p.generators ∧ r.assignment.sites = p.assignment.sites ∧
      (∀ g, r.assignment.positions g = p.assignment.positions g) ∧ r.cost = p.cost := by
  have def_ := space.allDefined_word
  have hq := hp.changed h
  have hr := hq.changed h'
  have hcp := hp.consistent def_
  have hcr := hr.consistent def_
  have hgens : r.generators = p.generators := by
    rw [change_generators h', change_generators h, reversed_applyTo h]
  have hsites := hcp.sites_unique def_ hcr hgens
  refine ⟨hgens, hsites, fun g => hcp.indexed.positions_unique hcr.indexed hsites g, ?_⟩
  apply Signed.ext
  rw [hr.balanced, hp.balanced, Assignment.cost, Assignment.cost, hsites]

/-- An allowed change is made and returns the difference of the costs, unless a sum overflows. -/
theorem Reachable.change_ends {vertices : List V} {c : GeneratorChange V}
    (hp : Reachable space vertices p) (hc : c.Allowed p.generators) :
    Ends (p.change space c) (fun r => r.1.val = r.2.cost.val - p.cost.val) space.MayOverflow := by
  have hi := (hp.consistent space.allDefined_word).indexed
  refine ((Voronoi.change_ends hi hc).weaken Space.mayOverflow_of_mayFail).mono fun r hr _ => ?_
  exact (hp.balanced.change hi hr).2

/-- Distances that are not symmetric, and negative between a generator and its double. -/
def slope : Space Int (Signed 64) where
  distance v g := Signed.ofResult .subtract ((v - g) * (v - 2 * g))
  unserved := ⟨100, by decide, by decide⟩

end Voronoi

end Descent
