import Descent.Proofs.Voronoi.Cost

/-!
# Queries about changes

What a query answers is the difference of two costs from scratch: of the generators as the change
would leave them, and of those that are open. That holds of all three queries, so each agrees
with the change that it asks about. The query about an exchange looks at every site once, as if
the old generator closed before the new one opened, while the change opens first; the nearest
generator of a site is the same either way.
-/

namespace Descent

open Checked (Ends)

namespace Voronoi

variable {V : Type} [Vertex V] {bits : Nat} {space : Space V (Signed bits)}
  {vertices : List V} {p : Voronoi V (Signed bits)} {g closed opened : V}

/-! ## Opening and closing -/

/-- What the sites cost with other services, if these are the best among other generators. -/
theorem Reachable.totalCost_map (hp : Reachable space vertices p) {generators : AscendingSet V}
    {f : Site V (Signed bits) → Site V (Signed bits)}
    (hf : ∀ site, (f site).vertex = site.vertex)
    (hbest : ∀ site ∈ p.assignment.sites,
      Service.IsBest space generators.toList site.vertex (f site).service) :
    space.totalCost generators.toList vertices = .ok (p.cost.val +
      (p.assignment.sites.map fun site => (f site).cost space - site.cost space).sum) := by
  obtain ⟨hvertices, hbest'⟩ := (hp.consistent space.allDefined_word).map_sites hf hbest
  rw [totalCost_of_isBest hvertices hbest', sum_map_sub, hp.balanced, Assignment.cost,
    List.map_map, Function.comp_def]
  congr 1
  omega

theorem Reachable.openingDelta_ends (hp : Reachable space vertices p) (hg : g ∉ p.generators) :
    Ends (p.openingDelta space g)
      (fun r => space.totalCost (p.generators.insert g).toList vertices =
        .ok (p.cost.val + r.val)) space.MayOverflow := by
  have hc := hp.consistent space.allDefined_word
  refine (Voronoi.openingDelta_ends hg).mono fun r hr hval => ?_
  rw [hval]
  refine hp.totalCost_map (Site.vertex_seated _) fun site hsite => ?_
  obtain ⟨d, hd⟩ := measured_of_openingDelta hg hr site hsite
  exact isBest_seated space.allDefined_word hd (hc.best site hsite)

theorem Reachable.closingDelta_ends (hp : Reachable space vertices p) (hg : g ∈ p.generators) :
    Ends (p.closingDelta space g)
      (fun r => space.totalCost (p.generators.erase g).toList vertices =
        .ok (p.cost.val + r.val)) space.MayOverflow := by
  have hc := hp.consistent space.allDefined_word
  refine (Voronoi.closingDelta_ends hc.indexed hg).mono fun r _ hval => ?_
  rw [hval]
  refine hp.totalCost_map (Site.vertex_released space _ g) fun site hsite => ?_
  exact isBest_released space.allDefined_word (hc.best site hsite)

/-! ## Exchanging -/

/-- Exchanging adds the change of cost of a served site to the sum. -/
theorem exchangeSiteDelta_ends (delta : Signed bits) (v : V) (old : Service V (Signed bits)) :
    Ends (exchangeSiteDelta space p closed opened delta ⟨v, some old⟩)
      (fun r => r.val = delta.val +
        ((exchanged space p closed opened ⟨v, some old⟩).cost space - old.distance.val))
      space.MayOverflow := by
  cases hd : space.distance v opened with
  | error e =>
    simp only [exchangeSiteDelta, hd]
    exact .inr ⟨v, opened, hd⟩
  | ok d =>
    have hends : Ends (Service.nearest space (p.generators.erase closed).toList v) _
        space.MayOverflow := nearest_ends_mayOverflow (p.generators.erase closed) v
    by_cases hold : old.generator = closed ∧
        ∃ e, Service.nearest space (p.generators.erase closed).toList v = .error e
    · obtain ⟨hold, e, herror⟩ := hold
      simp only [exchangeSiteDelta, hd, Checked.ok_bind, if_pos hold, herror]
      exact hends.fault herror
    · refine (exchangeSiteDelta_adds hd (fun hclosed => ?_) delta).ends.weaken
        Space.mayOverflow_of_overflow
      cases hnext : Service.nearest space (p.generators.erase closed).toList v with
      | error e => exact absurd ⟨hclosed, e, hnext⟩ hold
      | ok next => exact ⟨next, rfl⟩

theorem Reachable.exchangeDelta_ends (hp : Reachable space vertices p)
    (hclosed : closed ∈ p.generators) (hopened : opened ∉ p.generators) :
    Ends (p.exchangeDelta space closed opened)
      (fun r => space.totalCost ((p.generators.insert opened).erase closed).toList vertices =
        .ok (p.cost.val + r.val)) space.MayOverflow := by
  have hc := hp.consistent space.allDefined_word
  have turn : ∀ site ∈ p.assignment.sites, ∀ delta,
      Ends (exchangeSiteDelta space p closed opened delta site) (fun r => r.val = delta.val +
        ((exchanged space p closed opened site).cost space - site.cost space)) space.MayOverflow := by
    intro site hsite delta
    obtain ⟨v, old, rfl⟩ := hc.served hclosed hsite
    exact exchangeSiteDelta_ends delta v old
  unfold exchangeDelta
  rw [if_neg (not_not_intro hclosed), if_neg hopened]
  refine (Signed.foldlM_adds_ends turn Gain.zero).mono fun r hr hval => ?_
  -- The query asked for the distance of every site to the new generator.
  have hmeasured : ∀ site ∈ p.assignment.sites, ∃ d, space.distance site.vertex opened = .ok d := by
    intro site hsite
    obtain ⟨before, after, hturn⟩ := Checked.foldlM_turn hr site hsite
    obtain ⟨v, old, rfl⟩ := hc.served hclosed hsite
    unfold exchangeSiteDelta at hturn
    obtain ⟨d, hd, -⟩ := Checked.bind_ok_iff.mp hturn
    exact ⟨d, hd⟩
  have hsum : r.val = (p.assignment.sites.map fun site =>
      (exchanged space p closed opened site).cost space - site.cost space).sum :=
    hval.trans (Int.zero_add _)
  rw [← insert_erase_comm hopened hclosed, hsum]
  refine hp.totalCost_map vertex_exchanged fun site hsite => ?_
  obtain ⟨d, hd⟩ := hmeasured site hsite
  exact hc.isBest_exchanged space.allDefined_word closed hsite hd

/-! ## Queries and changes -/

theorem settle_ends (before delta : Signed bits) (atBoundary : Bool)
    (a : Assignment V (Signed bits)) :
    Ends (settle space before atBoundary delta a) (fun _ => True) Fault.IsOverflow := by
  unfold settle
  cases atBoundary with
  | true => exact (total_ends a).mono fun _ _ _ => trivial
  | false => exact (Signed.add_ends before delta).mono fun _ _ _ => trivial

/-- A change that asks first and settles then returns the answer to its question. -/
theorem agree_of_settle {question : Checked (Signed bits)} {before : Signed bits}
    {atBoundary : Bool} {generators : AscendingSet V} {a : Assignment V (Signed bits)}
    {answers : Signed bits → Prop} {made : Checked (Signed bits × Voronoi V (Signed bits))}
    (hmade : made = (do
      let delta ← question
      let cost ← settle space before atBoundary delta a
      pure (delta, ⟨generators, a, cost⟩)))
    (hquestion : Ends question answers space.MayOverflow) :
    Ends made (fun r => question = .ok r.1) space.MayOverflow ∧
      ∀ delta, question = .ok delta → Ends made (fun r => r.1 = delta) Fault.IsOverflow := by
  subst hmade
  constructor
  · refine hquestion.bind fun delta hdelta _ => ?_
    have hsettle : Ends (settle space before atBoundary delta a) _ space.MayOverflow :=
      (settle_ends before delta atBoundary a).weaken Space.mayOverflow_of_overflow
    exact hsettle.bind fun cost _ _ => hdelta
  · intro delta hdelta
    rw [hdelta, Checked.ok_bind]
    exact (settle_ends before delta atBoundary a).bind fun cost _ _ => rfl

/-- In every reachable state the queries agree with the changes. A question about opening or
closing has the very answer that the change returns, and the question about an exchange has the
sum of what opening and then closing return, also if the closed generator is the only one. -/
theorem reachable_queries_agree (hp : Reachable space vertices p) :
    (∀ g, g ∉ p.generators →
      Ends (p.openGenerator space g) (fun r => p.openingDelta space g = .ok r.1) space.MayOverflow ∧
        ∀ delta, p.openingDelta space g = .ok delta →
          Ends (p.openGenerator space g) (fun r => r.1 = delta) Fault.IsOverflow) ∧
      (∀ g, g ∈ p.generators →
        Ends (p.closeGenerator space g) (fun r => p.closingDelta space g = .ok r.1)
          space.MayOverflow ∧
        ∀ delta, p.closingDelta space g = .ok delta →
          Ends (p.closeGenerator space g) (fun r => r.1 = delta) Fault.IsOverflow) ∧
      ∀ closed opened, closed ∈ p.generators → opened ∉ p.generators →
        Ends (p.exchangeDelta space closed opened)
          (fun delta => ∀ gained q saved r, p.openGenerator space opened = .ok (gained, q) →
            q.closeGenerator space closed = .ok (saved, r) →
            delta.val = gained.val + saved.val) space.MayOverflow := by
  have hi := (hp.consistent space.allDefined_word).indexed
  refine ⟨fun g hg => ?_, fun g hg => ?_, fun closed opened hclosed hopened => ?_⟩
  · exact agree_of_settle (openGenerator_eq hg) (hp.openingDelta_ends hg)
  · exact agree_of_settle (closeGenerator_eq hi hg) (hp.closingDelta_ends hg)
  · refine (hp.exchangeDelta_ends hclosed hopened).mono fun delta _ hdelta => ?_
    intro gained q saved r hq hr
    have hpq : p.change space (.opening opened) = .ok (gained, q) := hq
    have hqr : q.change space (.closing closed) = .ok (saved, r) := hr
    have hreach := (hp.changed hpq).changed hqr
    have hiq := ((hp.changed hpq).consistent space.allDefined_word).indexed
    have hgained := (hp.balanced.change hi hpq).2
    have hsaved := ((hp.changed hpq).balanced.change hiq hqr).2
    have hgens : r.generators = (p.generators.insert opened).erase closed := by
      rw [(closeGenerator_ok hiq hr).2.2.1, (openGenerator_ok hq).2.2.1]
    -- The query and the two changes lead to the same generators, which have one cost.
    have htotal := hreach.totalCost
    rw [hgens, hdelta, Except.ok.injEq] at htotal
    omega

/-- An exchange of the only generator does not count the cost of a vertex without service, and
vertex 2 is as far from the lower new generator as from the old one. -/
theorem reachable_queries_agree_slope :
    ∃ (p q r : Voronoi Int (Signed 64)) (delta gained saved : Signed 64),
      build slope [3] [4, 2, 1] = .ok p ∧ p.exchangeDelta slope 3 0 = .ok delta ∧
        p.openGenerator slope 0 = .ok (gained, q) ∧ q.closeGenerator slope 3 = .ok (saved, r) ∧
        slope.distance 2 3 = slope.distance 2 0 ∧ p.openingDelta slope 0 = .ok gained ∧
        q.closingDelta slope 3 = .ok saved ∧ delta.val = gained.val + saved.val := by
  have at_exchange : ∀ (p q r : Voronoi Int (Signed 64)) (delta gained saved : Signed 64),
      build slope [3] [4, 2, 1] = .ok p → p.exchangeDelta slope 3 0 = .ok delta →
      p.openGenerator slope 0 = .ok (gained, q) → q.closeGenerator slope 3 = .ok (saved, r) →
      3 ∈ p.generators → 0 ∉ p.generators → 3 ∈ q.generators →
      p.openingDelta slope 0 = .ok gained ∧ q.closingDelta slope 3 = .ok saved ∧
        delta.val = gained.val + saved.val := by
    intro p q r delta gained saved hbuild hdelta hopen hclose h3 h0 hq3
    have hp : Reachable slope [4, 2, 1] p := .built hbuild
    have hq : Reachable slope [4, 2, 1] q :=
      hp.changed (show p.change slope (.opening 0) = .ok (gained, q) from hopen)
    obtain ⟨hopening, -, hexchange⟩ := reachable_queries_agree hp
    obtain ⟨-, hclosing, -⟩ := reachable_queries_agree hq
    exact ⟨(hopening 0 h0).1.value hopen, (hclosing 3 hq3).1.value hclose,
      (hexchange 3 0 h3 h0).value hdelta _ _ _ _ hopen hclose⟩
  refine ⟨_, _, _, _, _, _, rfl, rfl, rfl, rfl, rfl, ?_⟩
  exact at_exchange _ _ _ _ _ _ rfl rfl rfl rfl (by decide) (by decide) (by decide)

end Voronoi

end Descent
