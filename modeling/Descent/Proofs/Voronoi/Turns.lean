import Descent.Proofs.Exact
import Descent.Proofs.Voronoi.Reachable

/-!
# What one turn of a question adds

The questions for a change of cost are loops over sites. Each turn adds what its site costs more
after the change than before (`Site.Adds`), whatever the distances are: when a generator opens,
when one closes, and when one takes the place of another. The turns of a closing generator are
those of its positions alone, but may be taken as turns over all sites.
-/

namespace Descent

namespace Site

variable {V D : Type} [Distance D]

/-- A turn of a loop over sites. It adds to a sum what one site costs more after a change than
before, or leaves the sum alone if the site does not change. -/
def Adds (space : Space V D) (delta : D) (before after : Site V D) (turn : Checked D) : Prop :=
  turn = (do Distance.add delta (← Distance.sub (Assignment.siteCost space after)
    (Assignment.siteCost space before))) ∨ (turn = .ok delta ∧ after = before)

end Site

namespace Voronoi

variable {V D : Type} [Vertex V] [Distance D] {space : Space V D} {vertices : List V}
  {p : Voronoi V D} {g closed opened : V}

/-! ## Opening and closing -/

theorem offerDelta_adds {site : Site V D} {d : D}
    (hd : space.distance site.vertex g = .ok d) (delta : D) :
    Site.Adds space delta site (site.seated (Site.taken space g))
      (offerDelta space g delta site) := by
  obtain ⟨v, service⟩ := site
  unfold offerDelta
  rw [hd, Checked.ok_bind]
  cases service with
  | none =>
    rw [Site.seated_taken_none hd]
    exact .inl rfl
  | some old =>
    rw [Site.seated_taken_some hd]
    dsimp only
    cases Service.closer ⟨g, d⟩ old with
    | true => exact .inl rfl
    | false => exact .inr ⟨rfl, rfl⟩

theorem rehomeDelta_adds {i : Nat} {v : V} {old : Service V D}
    (hsite : p.assignment.sites[i]? = some ⟨v, some old⟩) (hold : old.generator = g)
    {found : Option (Service V D)}
    (hfound : Service.nearest space (p.generators.erase g).toList v = .ok found) (delta : D) :
    Site.Adds space delta ⟨v, some old⟩
      (Site.released space (p.generators.erase g) g ⟨v, some old⟩)
      (rehomeDelta space p g delta i) := by
  unfold rehomeDelta
  rw [Position.entry_eq_ok_iff.mpr hsite, Checked.ok_bind]
  simp only [hfound, Checked.ok_bind]
  left
  have hleft : Site.generator? ⟨v, some old⟩ = some g := congrArg some hold
  rw [Site.released, if_pos hleft]
  simp only [Site.rehomed, Site.nearest?, hfound]
  cases found <;> rfl

/-! ## Exchanging -/

/-- A site once one generator has closed and another has then been offered to it. -/
def exchanged (space : Space V D) (p : Voronoi V D) (closed opened : V)
    (site : Site V D) : Site V D :=
  (site.released space (p.generators.erase closed) closed).seated (Site.taken space opened)

@[simp] theorem vertex_exchanged (site : Site V D) :
    (exchanged space p closed opened site).vertex = site.vertex := by
  rw [exchanged, Site.vertex_seated, Site.vertex_released]

theorem exchangeSiteDelta_adds {v : V} {old : Service V D} {d : D}
    (hd : space.distance v opened = .ok d)
    (hnext : old.generator = closed →
      ∃ next, Service.nearest space (p.generators.erase closed).toList v = .ok next)
    (delta : D) :
    Site.Adds space delta ⟨v, some old⟩ (exchanged space p closed opened ⟨v, some old⟩)
      (exchangeSiteDelta space p closed opened delta ⟨v, some old⟩) := by
  unfold exchangeSiteDelta exchanged Site.released
  simp only [hd, Checked.ok_bind]
  by_cases hold : old.generator = closed
  · have hleft : Site.generator? ⟨v, some old⟩ = some closed := congrArg some hold
    obtain ⟨next, hnext⟩ := hnext hold
    rw [if_pos hold, if_pos hleft]
    simp only [Site.rehomed, Site.nearest?, hnext, Checked.ok_bind]
    left
    cases next with
    | none =>
      rw [Site.seated_taken_none hd]
      rfl
    | some s =>
      rw [Site.seated_taken_some hd]
      simp only [Assignment.siteCost, apply_ite Service.distance]
  · have hstays : Site.generator? ⟨v, some old⟩ ≠ some closed :=
      fun h => hold (Option.some.inj h)
    rw [if_neg hold, if_neg hstays, Site.seated_taken_some hd]
    cases Service.closer ⟨opened, d⟩ old with
    | true => exact .inl rfl
    | false => exact .inr ⟨rfl, rfl⟩

theorem insert_erase_comm {generators : AscendingSet V} (hopened : opened ∉ generators)
    (hclosed : closed ∈ generators) :
    (generators.erase closed).insert opened = (generators.insert opened).erase closed := by
  apply AscendingSet.ext_mem
  intro x
  simp only [AscendingSet.mem_insert, AscendingSet.mem_erase]
  constructor
  · rintro (rfl | ⟨hx, hne⟩)
    · exact ⟨.inl rfl, fun e => hopened (e ▸ hclosed)⟩
    · exact ⟨.inr hx, hne⟩
  · rintro ⟨rfl | hx, hne⟩
    · exact .inl rfl
    · exact .inr ⟨hx, hne⟩

/-- A site that has been exchanged has the best service among the generators as they are then. -/
theorem Consistent.isBest_exchanged [Comparable D] (hc : p.Consistent space vertices)
    (def_ : space.AllDefined) (closed : V) {site : Site V D}
    (hsite : site ∈ p.assignment.sites) {d : D} (hd : space.distance site.vertex opened = .ok d) :
    Service.IsBest space ((p.generators.erase closed).insert opened).toList site.vertex
      (exchanged space p closed opened site).service := by
  have hreleased := isBest_released def_ (g := closed) (hc.best site hsite)
  rw [← Site.vertex_released space (p.generators.erase closed) closed] at hd hreleased ⊢
  exact isBest_seated def_ hd hreleased

/-! ## Sums over positions -/

theorem map_range_getElem? {α M : Type} [AddMonoid M] (l : List α) (f : α → M) :
    (List.range l.length).map (fun i => (l[i]?.map f).getD 0) = l.map f := by
  apply List.ext_getElem
  · simp
  · intro i h1 h2
    simp only [List.length_map, List.length_range] at h1
    simp [h1]

omit [Distance D] in
/-- A sum over the positions of a generator is a sum over all sites, if it only counts the sites
of that generator. -/
theorem sum_positions {M : Type} [AddMonoid M] {a : Assignment V D} (ha : a.Indexed) {g : V}
    {f : Site V D → M}
    (hf : ∀ site ∈ a.sites, site.generator? ≠ some g → f site = 0) :
    ((a.positions g).toList.map fun i => (a.sites[i]?.map f).getD 0).sum =
      (a.sites.map f).sum := by
  rw [ha.positions_eq_filter, sum_map_filter, map_range_getElem?]
  intro i _ hkeep
  rw [Assignment.generatorAt?_eq, decide_eq_false_iff_not] at hkeep
  cases hs : a.sites[i]? with
  | none => rfl
  | some site =>
    rw [hs] at hkeep
    exact hf site (List.mem_of_getElem? hs) hkeep

end Voronoi

end Descent
