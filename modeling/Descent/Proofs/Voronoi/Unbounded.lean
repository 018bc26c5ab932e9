import Descent.Proofs.Extended
import Descent.Proofs.Voronoi.History
import Descent.Proofs.Voronoi.Turns

/-!
# Partitions in which no service costs infinitely much

Let distances be finite and exact, and let a vertex that nothing serves cost infinitely much. The
cost is then infinite while no generator is open, and the sum of the least distances otherwise. A
change of the cost is a sum of differences, and so the difference of two such costs, of which at
most one is infinite. The running cost is adjusted by a change only while it is finite, and added up
anew when the first generator has opened or the last one closed. So no undefined number comes up,
through any number of changes and refused calls: `attempts_unpoisoned`.
-/

namespace Descent

open Voronoi (distinct_eq_eraseDups mem_distinct)

/-- Finite distances, and an infinite cost of a vertex that nothing serves. -/
def Space.unbounded {V : Type} (distance : V → V → ℚ) : Space V Extended where
  distance v g := .ok (.finite (distance v g))
  unserved := .positive

section Unbounded

variable {V : Type} (distance : V → V → ℚ)

theorem Space.unbounded_allDefined : (Space.unbounded distance).AllDefined := by
  rintro v g d ⟨⟩
  exact Extended.noConfusion

theorem Space.unbounded_faultless (e : Fault) : ¬ (Space.unbounded distance).MayFail e := by
  rintro (⟨v, g, h⟩ | ⟨a, b, h | h⟩) <;> cases h

/-- A turn adds the difference of what a site costs, if the site only stays as it is at a finite
cost. -/
theorem Site.Adds.turn_eq {distance : V → V → ℚ} {delta : Extended} {before after : Site V Extended}
    {turn : Checked Extended} (h : Adds (.unbounded distance) delta before after turn)
    (hstays : after = before → ∃ x, Assignment.siteCost (.unbounded distance) before = .finite x) :
    turn = .ok (delta + (Assignment.siteCost (.unbounded distance) after -
      Assignment.siteCost (.unbounded distance) before)) := by
  rcases h with rfl | ⟨rfl, hsame⟩
  · rfl
  · obtain ⟨x, hx⟩ := hstays hsame
    rw [hsame, hx, Extended.finite_sub_self, add_zero]

end Unbounded

/-! ## Calls -/

namespace Voronoi

variable {V D : Type} [Vertex V] [Distance D] {space : Space V D} {vertices : List V}
  {p : Voronoi V D} {c : GeneratorChange V}

/-- The change of the cost that a change of the generators would bring. -/
def ask (space : Space V D) (p : Voronoi V D) : GeneratorChange V → Checked D
  | .opening g => p.openingDelta space g
  | .closing g => p.closingDelta space g

/-- The partition after a call for a change: as it was, if the call ends by a fault. -/
def attempt (space : Space V D) (p : Voronoi V D) (c : GeneratorChange V) : Voronoi V D :=
  match p.change space c with
  | .ok (_, q) => q
  | .error _ => p

theorem Reachable.attempts (hp : Reachable space vertices p) (changes : List (GeneratorChange V)) :
    Reachable space vertices (changes.foldl (attempt space) p) := by
  induction changes generalizing p with
  | nil => exact hp
  | cons c changes ih =>
    rw [List.foldl_cons]
    apply ih
    unfold attempt
    cases h : p.change space c with
    | error e => exact hp
    | ok r => exact hp.changed h

theorem allowed_of_change {r : D × Voronoi V D} (h : p.change space c = .ok r) :
    c.Allowed p.generators := by
  cases c with
  | opening g => exact (openGenerator_ok h).1
  | closing g => exact (closeGenerator_generators h).1

theorem allowed_of_ask (delta : D) (h : p.ask space c = .ok delta) : c.Allowed p.generators := by
  by_contra hnot
  cases c with
  | opening g =>
    have hg : g ∈ p.generators := not_not.mp hnot
    unfold ask openingDelta at h
    simp only [if_pos hg] at h
    cases h
  | closing g =>
    have hg : g ∉ p.generators := hnot
    unfold ask closingDelta at h
    simp only [if_pos hg] at h
    cases h

theorem open_of_exchangeDelta {closed opened : V} (delta : D)
    (h : p.exchangeDelta space closed opened = .ok delta) :
    closed ∈ p.generators ∧ opened ∉ p.generators := by
  unfold exchangeDelta at h
  by_cases hclosed : closed ∈ p.generators
  · rw [if_neg (not_not_intro hclosed)] at h
    refine ⟨hclosed, fun hopened => ?_⟩
    rw [if_pos hopened] at h
    cases h
  · rw [if_pos hclosed] at h
    cases h

end Voronoi

/-- An opening leaves a generator open, and a closing finds one open. -/
theorem GeneratorChange.Allowed.nonempty {V : Type} [Vertex V] {generators : AscendingSet V}
    {c : GeneratorChange V} (h : c.Allowed generators) :
    generators.toList ≠ [] ∨ (c.applyTo generators).toList ≠ [] := by
  cases c with
  | opening g => exact .inr (List.ne_nil_of_mem (AscendingSet.mem_insert.mpr (.inl rfl)))
  | closing g => exact .inl (List.ne_nil_of_mem h)

/-! ## Costs from scratch -/

namespace Unbounded

variable {V : Type} (distance : V → V → ℚ)

/-- The distance of a vertex to the nearest of some generators, of which there is one. -/
def leastDistance (generators : List V) (v : V) : ℚ :=
  (generators.map (distance v)).min?.getD 0

/-- What one vertex costs. -/
def vertexCost : List V → V → Extended
  | [], _ => .positive
  | generators, v => .finite (leastDistance distance generators v)

variable [Vertex V]

/-- The least distances of the distinct vertices of a list, added up. -/
def totalDistance (generators vertices : List V) : ℚ :=
  (vertices.eraseDups.map (leastDistance distance generators)).sum

/-- What the vertices of a list cost, of which there is one. -/
def cost : List V → List V → Extended
  | [], _ => .positive
  | generators, vertices => .finite (totalDistance distance generators vertices)

/-- By how much the cost changes from some generators to others, if there is one before or after. -/
def change : List V → List V → List V → Extended
  | [], _, _ => .negative
  | _, [], _ => .positive
  | before, after, vertices =>
    .finite (totalDistance distance after vertices - totalDistance distance before vertices)

variable {distance} {before after generators vertices : List V}

theorem cost_of_ne_nil (h : generators ≠ []) :
    cost distance generators vertices = .finite (totalDistance distance generators vertices) := by
  cases generators with
  | nil => exact absurd rfl h
  | cons g generators => rfl

/-- The change is the difference of the costs: at most one of the two is infinite. -/
theorem cost_sub_cost (h : before ≠ [] ∨ after ≠ []) :
    cost distance after vertices - cost distance before vertices =
      change distance before after vertices := by
  cases before with
  | nil =>
    rw [cost_of_ne_nil (h.resolve_left (not_not_intro rfl))]
    rfl
  | cons g before =>
    cases after with
    | nil => rfl
    | cons g' after => exact Extended.finite_sub_finite

/-- The costs of the vertices add up to the cost of them all. -/
theorem sum_vertexCost (hvertices : vertices ≠ []) :
    ((distinct vertices).map (vertexCost distance generators)).sum =
      cost distance generators vertices := by
  cases generators with
  | nil =>
    obtain ⟨v, rest, hdistinct⟩ : ∃ v rest, distinct vertices = v :: rest := by
      refine List.exists_cons_of_ne_nil fun hnil => ?_
      obtain ⟨v, hv⟩ := List.exists_mem_of_ne_nil vertices hvertices
      rw [← mem_distinct, hnil] at hv
      exact List.not_mem_nil hv
    have hconst : (distinct vertices).map (vertexCost distance []) =
        List.replicate (rest.length + 1) .positive := by
      rw [hdistinct]
      exact List.map_const' ..
    rw [hconst, Extended.sum_replicate_positive]
    rfl
  | cons g generators =>
    have hsum := Extended.sum_finite (distinct vertices) (leastDistance distance (g :: generators))
    rw [distinct_eq_eraseDups] at hsum ⊢
    exact hsum

end Unbounded

namespace Voronoi

open Assignment (siteCost)

variable {V : Type} [Vertex V] {distance : V → V → ℚ} {vertices : List V} {p q : Voronoi V Extended}
  {g closed opened : V}

/-! ## Sites -/

theorem exists_nearest_unbounded (generators : AscendingSet V) (v : V) :
    ∃ found, Service.nearest (.unbounded distance) generators.toList v = .ok found := by
  obtain ⟨found, hfound, -⟩ := (nearest_mayFail generators.toList v).exists_value
    (Space.unbounded_faultless distance)
  exact ⟨found, hfound⟩

theorem siteCost_of_isBest {generators : List V} {v : V} {service : Option (Service V Extended)}
    (h : Service.IsBest (.unbounded distance) generators v service) :
    siteCost (.unbounded distance) ⟨v, service⟩ = Unbounded.vertexCost distance generators v := by
  cases service with
  | none =>
    obtain rfl : generators = [] := h
    rfl
  | some s =>
    have hs : s.IsNearest (.unbounded distance) generators v := h
    have hdistance : s.distance = .finite (distance v s.generator) :=
      (Except.ok.inj hs.measured).symm
    have hleast : (generators.map (distance v)).min? = some (distance v s.generator) := by
      refine List.min?_eq_some_iff.mpr ⟨List.mem_map_of_mem hs.member, fun d hd => ?_⟩
      obtain ⟨x, hx, rfl⟩ := List.mem_map.mp hd
      obtain ⟨e, he, hle, -⟩ := hs.least x hx
      cases he
      rw [hdistance, ← Bool.not_eq_true, Extended.lt_finite_iff] at hle
      exact not_lt.mp hle
    obtain ⟨x, rest, rfl⟩ := List.exists_cons_of_ne_nil (List.ne_nil_of_mem hs.member)
    show s.distance = .finite (Unbounded.leastDistance distance (x :: rest) v)
    rw [hdistance, Unbounded.leastDistance, hleast]
    rfl

theorem total_eq (a : Assignment V Extended) :
    a.total (.unbounded distance) = .ok (a.sites.map (siteCost (.unbounded distance))).sum :=
  Extended.sum_eq _

/-- Sites with the best services cost together what their vertices cost from scratch. -/
theorem sum_siteCost (hvertices : vertices ≠ []) {generators : List V}
    {sites : List (Site V Extended)} (hsites : sites.map Site.vertex = distinct vertices)
    (hbest : ∀ site ∈ sites,
      Service.IsBest (.unbounded distance) generators site.vertex site.service) :
    (sites.map (siteCost (.unbounded distance))).sum =
      Unbounded.cost distance generators vertices := by
  have hcosts : sites.map (siteCost (.unbounded distance)) =
      sites.map (Unbounded.vertexCost distance generators ∘ Site.vertex) :=
    List.map_congr_left fun site hsite => siteCost_of_isBest (hbest site hsite)
  rw [← Unbounded.sum_vertexCost hvertices, ← hsites, List.map_map, hcosts]

/-- What the sites cost with other services, if these are the best among other generators. -/
theorem Consistent.sum_map (hc : p.Consistent (.unbounded distance) vertices)
    (hvertices : vertices ≠ []) {generators : List V} {f : Site V Extended → Site V Extended}
    (hf : ∀ site, (f site).vertex = site.vertex)
    (hbest : ∀ site ∈ p.assignment.sites,
      Service.IsBest (.unbounded distance) generators site.vertex (f site).service) :
    ((p.assignment.sites.map f).map (siteCost (.unbounded distance))).sum =
      Unbounded.cost distance generators vertices := by
  obtain ⟨hafter, hbest'⟩ := hc.map_sites hf hbest
  exact sum_siteCost hvertices hafter hbest'

theorem Consistent.sum_changes (hc : p.Consistent (.unbounded distance) vertices)
    (hvertices : vertices ≠ []) {generators : List V} {f : Site V Extended → Site V Extended}
    (hf : ∀ site, (f site).vertex = site.vertex)
    (hbest : ∀ site ∈ p.assignment.sites,
      Service.IsBest (.unbounded distance) generators site.vertex (f site).service) :
    (p.assignment.sites.map fun site =>
        siteCost (.unbounded distance) (f site) - siteCost (.unbounded distance) site).sum =
      Unbounded.cost distance generators vertices -
        Unbounded.cost distance p.generators.toList vertices := by
  rw [sum_map_sub, sum_siteCost hvertices hc.vertices_eq hc.best,
    ← hc.sum_map hvertices hf hbest, List.map_map]
  rfl

theorem Consistent.finite_of_served (hc : p.Consistent (.unbounded distance) vertices) {v : V}
    {s : Service V Extended} (hsite : ⟨v, some s⟩ ∈ p.assignment.sites) :
    ∃ x, siteCost (.unbounded distance) ⟨v, some s⟩ = .finite x := by
  have hs : s.IsNearest (.unbounded distance) p.generators.toList v := hc.best _ hsite
  exact ⟨_, (Except.ok.inj hs.measured).symm⟩

/-! ## Questions -/

theorem Consistent.openingDelta_cost (hc : p.Consistent (.unbounded distance) vertices)
    (hvertices : vertices ≠ []) (hg : g ∉ p.generators) :
    p.openingDelta (.unbounded distance) g =
      .ok (Unbounded.cost distance (p.generators.insert g).toList vertices -
        Unbounded.cost distance p.generators.toList vertices) := by
  have turn : ∀ site ∈ p.assignment.sites, ∀ delta,
      offerDelta (.unbounded distance) g delta site = .ok (delta +
        (siteCost (.unbounded distance) (site.seated (Site.taken (.unbounded distance) g)) -
          siteCost (.unbounded distance) site)) := by
    intro site hsite delta
    refine (offerDelta_adds rfl delta).turn_eq fun hstays => ?_
    obtain ⟨v, service⟩ := site
    cases service with
    | none =>
      -- A site without a service takes any that it is offered.
      rw [Site.seated_taken_none rfl] at hstays
      cases hstays
    | some s => exact hc.finite_of_served hsite
  rw [openingDelta_eq hg, Extended.foldlM_adds turn,
    hc.sum_changes hvertices (Site.vertex_seated _) fun site hsite =>
      isBest_seated (Space.unbounded_allDefined distance) rfl (hc.best site hsite)]
  exact congrArg Except.ok (zero_add _)

theorem Consistent.closingDelta_cost (hc : p.Consistent (.unbounded distance) vertices)
    (hvertices : vertices ≠ []) (hg : g ∈ p.generators) :
    p.closingDelta (.unbounded distance) g =
      .ok (Unbounded.cost distance (p.generators.erase g).toList vertices -
        Unbounded.cost distance p.generators.toList vertices) := by
  have turn : ∀ i ∈ (p.assignment.positions g).toList, ∀ delta,
      rehomeDelta (.unbounded distance) p g delta i =
        .ok (delta + (p.assignment.sites[i]?.map fun site =>
          siteCost (.unbounded distance)
              (site.released (.unbounded distance) (p.generators.erase g) g) -
            siteCost (.unbounded distance) site).getD 0) := by
    intro i hi delta
    obtain ⟨v, old, hsite, hold⟩ :=
      Assignment.exists_site_of_generatorAt? (hc.indexed.mem_positions.mp hi)
    obtain ⟨found, hfound⟩ := exists_nearest_unbounded (p.generators.erase g) v
    rw [hsite]
    exact (rehomeDelta_adds hsite hold hfound delta).turn_eq fun _ =>
      hc.finite_of_served (List.mem_of_getElem? hsite)
  rw [closingDelta_eq hg, Extended.foldlM_adds turn, sum_positions hc.indexed,
    hc.sum_changes hvertices (Site.vertex_released _ _ g) fun site hsite =>
      isBest_released (Space.unbounded_allDefined distance) (hc.best site hsite)]
  · exact congrArg Except.ok (zero_add _)
  · intro site hsite hne
    obtain ⟨v, s, rfl⟩ := hc.served hg hsite
    obtain ⟨x, hx⟩ := hc.finite_of_served hsite
    rw [Site.released, if_neg hne, hx, Extended.finite_sub_self]

theorem Consistent.exchangeDelta_cost (hc : p.Consistent (.unbounded distance) vertices)
    (hvertices : vertices ≠ []) (hclosed : closed ∈ p.generators)
    (hopened : opened ∉ p.generators) :
    p.exchangeDelta (.unbounded distance) closed opened =
      .ok (Unbounded.cost distance ((p.generators.insert opened).erase closed).toList vertices -
        Unbounded.cost distance p.generators.toList vertices) := by
  have turn : ∀ site ∈ p.assignment.sites, ∀ delta,
      exchangeSiteDelta (.unbounded distance) p closed opened delta site = .ok (delta +
        (siteCost (.unbounded distance) (exchanged (.unbounded distance) p closed opened site) -
          siteCost (.unbounded distance) site)) := by
    intro site hsite delta
    obtain ⟨v, old, rfl⟩ := hc.served hclosed hsite
    exact (exchangeSiteDelta_adds rfl (fun _ => exists_nearest_unbounded _ v) delta).turn_eq
      fun _ => hc.finite_of_served hsite
  unfold exchangeDelta
  rw [if_neg (not_not_intro hclosed), if_neg hopened, ← insert_erase_comm hopened hclosed,
    Extended.foldlM_adds turn,
    hc.sum_changes hvertices vertex_exchanged fun site hsite =>
      hc.isBest_exchanged (Space.unbounded_allDefined distance) closed hsite rfl]
  exact congrArg Except.ok (zero_add _)

/-! ## Changes -/

/-- A cost that is adjusted by a change, or added up anew, is the cost after the change. Only a
finite cost is adjusted. -/
theorem settle_cost {a : Assignment V Extended} {before after : Extended} {atBoundary : Bool}
    (hafter : (a.sites.map (siteCost (.unbounded distance))).sum = after)
    (hbefore : atBoundary = false → ∃ x, before = .finite x) :
    settle (.unbounded distance) before atBoundary (after - before) a = .ok after := by
  cases atBoundary with
  | true => exact (total_eq a).trans (congrArg Except.ok hafter)
  | false =>
    obtain ⟨x, rfl⟩ := hbefore rfl
    exact congrArg Except.ok (Extended.finite_add_sub x after)

theorem Consistent.openGenerator_cost (hc : p.Consistent (.unbounded distance) vertices)
    (hvertices : vertices ≠ []) (hg : g ∉ p.generators)
    (hcost : p.cost = Unbounded.cost distance p.generators.toList vertices) :
    ∃ a, p.openGenerator (.unbounded distance) g =
      .ok (Unbounded.cost distance (p.generators.insert g).toList vertices - p.cost,
        ⟨p.generators.insert g, a,
          Unbounded.cost distance (p.generators.insert g).toList vertices⟩) := by
  have hafter := hc.sum_map hvertices (Site.vertex_seated _) fun site hsite =>
    isBest_seated (g := g) (Space.unbounded_allDefined distance) rfl (hc.best site hsite)
  rw [← Assignment.sweep_sites hc.indexed] at hafter
  have hbefore : p.generators.isEmpty = false → ∃ x, p.cost = .finite x := by
    intro hopen
    rw [hcost]
    exact ⟨_, Unbounded.cost_of_ne_nil (List.isEmpty_eq_false_iff.mp hopen)⟩
  refine ⟨p.assignment.sweep (Site.taken (.unbounded distance) g), ?_⟩
  rw [openGenerator_eq hg, hc.openingDelta_cost hvertices hg, ← hcost, Checked.ok_bind]
  dsimp only
  rw [settle_cost hafter hbefore]
  rfl

theorem Consistent.closeGenerator_cost (hc : p.Consistent (.unbounded distance) vertices)
    (hvertices : vertices ≠ []) (hg : g ∈ p.generators)
    (hcost : p.cost = Unbounded.cost distance p.generators.toList vertices) :
    ∃ a, p.closeGenerator (.unbounded distance) g =
      .ok (Unbounded.cost distance (p.generators.erase g).toList vertices - p.cost,
        ⟨p.generators.erase g, a,
          Unbounded.cost distance (p.generators.erase g).toList vertices⟩) := by
  have hafter := hc.sum_map hvertices (Site.vertex_released _ _ g) fun site hsite =>
    isBest_released (g := g) (Space.unbounded_allDefined distance) (hc.best site hsite)
  rw [← withdrawn_sites hc.indexed] at hafter
  have hbefore : ∃ x, p.cost = .finite x := by
    rw [hcost]
    exact ⟨_, Unbounded.cost_of_ne_nil (List.ne_nil_of_mem hg)⟩
  refine ⟨p.withdrawn (.unbounded distance) g, ?_⟩
  rw [closeGenerator_eq hc.indexed hg, hc.closingDelta_cost hvertices hg, ← hcost, Checked.ok_bind]
  dsimp only
  rw [settle_cost hafter fun _ => hbefore]
  rfl

theorem Consistent.change_cost (hc : p.Consistent (.unbounded distance) vertices)
    (hvertices : vertices ≠ []) {c : GeneratorChange V} (hallowed : c.Allowed p.generators)
    (hcost : p.cost = Unbounded.cost distance p.generators.toList vertices) :
    ∃ a, p.change (.unbounded distance) c =
      .ok (Unbounded.cost distance (c.applyTo p.generators).toList vertices - p.cost,
        ⟨c.applyTo p.generators, a,
          Unbounded.cost distance (c.applyTo p.generators).toList vertices⟩) := by
  cases c with
  | opening g => exact hc.openGenerator_cost hvertices hallowed hcost
  | closing g => exact hc.closeGenerator_cost hvertices hallowed hcost

theorem Reachable.cost_eq (hp : Reachable (.unbounded distance) vertices p)
    (hvertices : vertices ≠ []) :
    p.cost = Unbounded.cost distance p.generators.toList vertices := by
  have def_ := Space.unbounded_allDefined distance
  induction hp with
  | built h =>
    have hc := Consistent.of_build def_ h
    obtain ⟨-, -, htotal, -⟩ := build_ok h
    rw [total_eq, sum_siteCost hvertices hc.vertices_eq hc.best] at htotal
    exact (Except.ok.inj htotal).symm
  | changed hp h ih =>
    obtain ⟨a, ha⟩ := (hp.consistent def_).change_cost hvertices (allowed_of_change h) ih
    rw [h] at ha
    cases ha
    rfl

/-! ## Any number of calls -/

/-- What a partition is in whatever state: its cost is that from scratch, and so is the difference
that it answers or returns for every change, which is infinite only for the first generator and for
the last. Other calls are refused. -/
structure Unpoisoned (distance : V → V → ℚ) (vertices : List V) (p : Voronoi V Extended) :
    Prop where
  cost_eq : p.cost = Unbounded.cost distance p.generators.toList vertices
  recomputed : p.recompute (.unbounded distance) = .ok p.cost
  asked : ∀ (c : GeneratorChange V) (delta : Extended),
    p.ask (.unbounded distance) c = .ok delta ↔
      c.Allowed p.generators ∧ delta = Unbounded.change distance p.generators.toList
        (c.applyTo p.generators).toList vertices
  exchange : ∀ closed opened delta,
    p.exchangeDelta (.unbounded distance) closed opened = .ok delta ↔
      (closed ∈ p.generators ∧ opened ∉ p.generators) ∧ delta =
        .finite (Unbounded.totalDistance distance
            ((p.generators.insert opened).erase closed).toList vertices -
          Unbounded.totalDistance distance p.generators.toList vertices)
  changed : ∀ c : GeneratorChange V, c.Allowed p.generators →
    ∃ q, p.change (.unbounded distance) c =
        .ok (Unbounded.change distance p.generators.toList (c.applyTo p.generators).toList vertices,
          q) ∧
      q.generators = c.applyTo p.generators ∧
      q.cost = Unbounded.cost distance (c.applyTo p.generators).toList vertices
  refused : ∀ c : GeneratorChange V, ¬ c.Allowed p.generators →
    ∃ e, p.change (.unbounded distance) c = .error e

theorem Reachable.unpoisoned (hp : Reachable (.unbounded distance) vertices p)
    (hvertices : vertices ≠ []) : Unpoisoned distance vertices p := by
  have hc := hp.consistent (Space.unbounded_allDefined distance)
  have hcost := hp.cost_eq hvertices
  have hchange : ∀ c : GeneratorChange V, c.Allowed p.generators →
      Unbounded.cost distance (c.applyTo p.generators).toList vertices - p.cost =
        Unbounded.change distance p.generators.toList (c.applyTo p.generators).toList vertices := by
    intro c hallowed
    rw [hcost, Unbounded.cost_sub_cost hallowed.nonempty]
  refine
    { cost_eq := hcost
      recomputed := ?recomputed
      asked := fun c delta => ?asked
      exchange := fun closed opened delta => ?exchange
      changed := fun c hallowed => ?changed
      refused := fun c hnot => ?refused }
  case recomputed =>
    unfold recompute
    rw [total_eq, sum_siteCost hvertices hc.vertices_eq hc.best, hcost]
  case asked =>
    refine Checked.eq_ok_iff_of (fun hallowed => ?_) allowed_of_ask
    rw [← hchange c hallowed, hcost]
    cases c with
    | opening g => exact hc.openingDelta_cost hvertices hallowed
    | closing g => exact hc.closingDelta_cost hvertices hallowed
  case exchange =>
    refine Checked.eq_ok_iff_of (fun ⟨hclosed, hopened⟩ => ?_) open_of_exchangeDelta
    have hopen : opened ∈ (p.generators.insert opened).erase closed :=
      AscendingSet.mem_erase.mpr
        ⟨AscendingSet.mem_insert.mpr (.inl rfl), fun h => hopened (h ▸ hclosed)⟩
    rw [hc.exchangeDelta_cost hvertices hclosed hopened,
      Unbounded.cost_of_ne_nil (List.ne_nil_of_mem hclosed),
      Unbounded.cost_of_ne_nil (List.ne_nil_of_mem hopen), Extended.finite_sub_finite]
  case changed =>
    obtain ⟨a, ha⟩ := hc.change_cost hvertices hallowed hcost
    rw [hchange c hallowed] at ha
    exact ⟨_, ha, rfl, rfl⟩
  case refused =>
    cases h : p.change (.unbounded distance) c with
    | error e => exact ⟨e, rfl⟩
    | ok r => exact absurd (allowed_of_change h) hnot

/-- With finite distances, an infinite cost of no service and at least one vertex, a partition can
be built, and no calls for changes, allowed or refused and in whatever order, leave an undefined
number behind. While a generator is open the cost is the finite sum of the least distances, and it
is infinite otherwise. -/
theorem attempts_unpoisoned (distance : V → V → ℚ) (hvertices : vertices ≠ [])
    (generators : List V) (changes : List (GeneratorChange V)) :
    ∃ p, build (.unbounded distance) generators vertices = .ok p ∧
      Unpoisoned distance vertices (changes.foldl (attempt (.unbounded distance)) p) := by
  obtain ⟨p, hp, -⟩ := (build_ends generators vertices).exists_value
    (Space.unbounded_faultless distance)
  exact ⟨p, hp, ((Reachable.built hp).attempts changes).unpoisoned hvertices⟩

/-- How far apart two numbers are. -/
def gap (v g : Int) : ℚ := (v - g).natAbs

/-- The only generator closes again before another one opens, which is then called for once more:
the cost is finite, and would be infinite without the generator. -/
theorem attempts_unpoisoned_gap :
    ∃ p q, [0, 1] ≠ ([] : List Int) ∧ build (.unbounded gap) [] [0, 1] = .ok p ∧
      [.opening 0, .closing 0, .opening 3, .opening 3].foldl (attempt (.unbounded gap)) p = q ∧
      q.cost = .finite 5 ∧ q.ask (.unbounded gap) (.closing 3) = .ok .positive ∧
      q.exchangeDelta (.unbounded gap) 3 1 = .ok (.finite (-4)) := by
  have hvertices : [0, 1] ≠ ([] : List Int) := List.cons_ne_nil 0 [1]
  have at_calls : ∀ p q, build (.unbounded gap) [] [0, 1] = .ok p →
      [.opening 0, .closing 0, .opening 3, .opening 3].foldl (attempt (.unbounded gap)) p = q →
      q.generators = .ofList [3] → q.cost = .finite 5 ∧
        q.ask (.unbounded gap) (.closing 3) = .ok .positive ∧
        q.exchangeDelta (.unbounded gap) 3 1 = .ok (.finite (-4)) := by
    rintro p q hp rfl hgens
    obtain ⟨p', hp', h⟩ := attempts_unpoisoned gap hvertices []
      [.opening 0, .closing 0, .opening 3, .opening 3]
    rw [hp, Except.ok.injEq] at hp'
    subst hp'
    have hcost := h.cost_eq
    have hasked := h.asked (.closing 3) .positive
    have hexchange := h.exchange 3 1 (.finite (-4))
    rw [hgens] at hcost hasked hexchange
    exact ⟨hcost.trans (by decide +kernel), hasked.mpr (by decide +kernel),
      hexchange.mpr (by decide +kernel)⟩
  exact ⟨_, _, hvertices, rfl, rfl, at_calls _ _ rfl rfl rfl⟩

end Voronoi

end Descent
