import Descent.Proofs.Voronoi.Nearest
import Descent.Proofs.Voronoi.Positions
import Descent.Voronoi.Delta

/-!
# What building, opening and closing do

Each change of a partition is a question and a sweep. The question is the sum of the changes of
cost, the very one that can be asked without making the change; the sweep gives the sites their
new services and cannot fail. `openGenerator_eq` and `closeGenerator_eq` take the changes apart
in this way, and `build_ok` says what the first assignment is.
-/

namespace Descent

namespace Site

variable {V D : Type} [Vertex V] [Distance D]

/-- The generator of a site, if it is served. -/
def generator? (site : Site V D) : Option V := site.service.map Service.generator

/-- The service that a site takes from a new generator. -/
def taken (space : Space V D) (g : V) (site : Site V D) : Option (Service V D) :=
  match space.distance site.vertex g with
  | .error _ => none
  | .ok d =>
    match site.service with
    | none => some ⟨g, d⟩
    | some old => if Service.closer ⟨g, d⟩ old then some ⟨g, d⟩ else none

theorem seated_taken_none {space : Space V D} {g v : V} {d : D}
    (hd : space.distance v g = .ok d) :
    seated (taken space g) ⟨v, none⟩ = ⟨v, some ⟨g, d⟩⟩ := by
  simp only [seated, taken, hd]

theorem seated_taken_some {space : Space V D} {g v : V} {d : D} {old : Service V D}
    (hd : space.distance v g = .ok d) :
    seated (taken space g) ⟨v, some old⟩ =
      ⟨v, some (if Service.closer ⟨g, d⟩ old then ⟨g, d⟩ else old)⟩ := by
  simp only [seated, taken, hd]
  cases Service.closer ⟨g, d⟩ old <;> rfl

/-- The service of a site by the nearest generator of a set. -/
def nearest? (space : Space V D) (generators : AscendingSet V) (site : Site V D) :
    Option (Service V D) :=
  match Service.nearest space generators.toList site.vertex with
  | .error _ => none
  | .ok found => found

/-- The site with its service looked for anew. -/
def rehomed (space : Space V D) (generators : AscendingSet V) (site : Site V D) : Site V D :=
  { site with service := site.nearest? space generators }

/-- The site once a generator has closed. -/
def released (space : Space V D) (remaining : AscendingSet V) (g : V) (site : Site V D) :
    Site V D :=
  if site.generator? = some g then site.rehomed space remaining else site

@[simp] theorem vertex_released (space : Space V D) (remaining : AscendingSet V) (g : V)
    (site : Site V D) : (site.released space remaining g).vertex = site.vertex := by
  unfold released
  split <;> rfl

end Site

namespace Assignment

variable {V D : Type} [Vertex V] {a : Assignment V D} {i : Nat}

theorem generatorAt?_eq : a.generatorAt? i = a.sites[i]?.bind Site.generator? := by
  unfold generatorAt? serviceAt?
  cases a.sites[i]? <;> rfl

theorem exists_site_of_generatorAt? {g : V} (h : a.generatorAt? i = some g) :
    ∃ v s, a.sites[i]? = some ⟨v, some s⟩ ∧ s.generator = g := by
  rw [generatorAt?_eq] at h
  cases hs : a.sites[i]? with
  | none => simp [hs] at h
  | some site =>
    obtain ⟨v, service⟩ := site
    cases service with
    | none => simp [hs, Site.generator?] at h
    | some s => exact ⟨v, s, rfl, by simpa [hs, Site.generator?] using h⟩

/-- The positions of a generator are those of its sites, from the first to the last. -/
theorem Indexed.positions_eq_filter (ha : a.Indexed) (g : V) :
    (a.positions g).toList =
      (List.range a.sites.length).filter fun i => decide (a.generatorAt? i = some g) := by
  refine AscendingSet.eq_of_mem_iff (a.positions g).ascending
    (List.pairwise_lt_range.filter _) fun i => ?_
  rw [← AscendingSet.mem_iff, ha.mem_positions]
  simp only [List.mem_filter, List.mem_range, decide_eq_true_eq, iff_and_self]
  intro hi
  obtain ⟨_, _, hsite, -⟩ := exists_site_of_generatorAt? hi
  exact (List.getElem?_eq_some_iff.mp hsite).1

end Assignment

namespace Voronoi

variable {V D : Type} [Vertex V] [Distance D] {space : Space V D} {p : Voronoi V D} {g : V}

/-! ## Opening -/

theorem offer_eq (delta : D) (a : Assignment V D) (x : Site V D × Nat) :
    offer space g (delta, a) x = (do
      let delta ← offerDelta space g delta x.1
      pure (delta, a.seatAt (Site.taken space g) x)) := by
  unfold offer offerDelta Assignment.seatAt Site.taken
  cases hd : space.distance x.1.vertex g with
  | error e => rfl
  | ok d =>
    cases hs : x.1.service with
    | none =>
      simp only [Checked.ok_bind]
      cases Distance.sub d space.unserved <;> rfl
    | some old =>
      simp only [Checked.ok_bind]
      split
      · cases Distance.sub d old.distance <;> rfl
      · rfl

theorem foldlM_offer (delta : D) (a : Assignment V D) (l : List (Site V D × Nat)) :
    l.foldlM (offer space g) (delta, a) = (do
      let delta ← (l.map Prod.fst).foldlM (offerDelta space g) delta
      pure (delta, l.foldl (Assignment.seatAt (Site.taken space g)) a)) := by
  induction l generalizing delta a with
  | nil => rfl
  | cons x l ih =>
    rw [List.foldlM_cons, offer_eq, List.map_cons, List.foldlM_cons, List.foldl_cons]
    cases offerDelta space g delta x.1 with
    | error e => rfl
    | ok delta => exact ih delta _

theorem openingDelta_eq (hg : g ∉ p.generators) :
    p.openingDelta space g = p.assignment.sites.foldlM (offerDelta space g) Gain.zero := by
  unfold openingDelta
  rw [if_neg hg]

/-- Opening asks for its change of cost, offers the generator to all sites, and settles the
cost. -/
theorem openGenerator_eq (hg : g ∉ p.generators) :
    p.openGenerator space g = (do
      let delta ← p.openingDelta space g
      let assignment := p.assignment.sweep (Site.taken space g)
      let cost ← settle space p.cost p.generators.isEmpty delta assignment
      pure (delta, { generators := p.generators.insert g, assignment, cost })) := by
  rw [openingDelta_eq hg]
  unfold openGenerator
  rw [if_neg hg]
  simp only [Checked.pure_eq_ok, foldlM_offer, List.zipIdx_map_fst]
  cases p.assignment.sites.foldlM (offerDelta space g) Gain.zero with
  | error e => rfl
  | ok delta => rfl

/-! ## Closing -/

/-- Finds a new service for the site at a position, or leaves it without one. -/
def rehomeAt (space : Space V D) (remaining : AscendingSet V) (a : Assignment V D) (i : Nat) :
    Assignment V D :=
  match a.sites[i]?.bind (Site.nearest? space remaining) with
  | some s => a.assign i s
  | none => a.vacate i

/-- The assignment once a generator has closed. -/
def withdrawn (space : Space V D) (p : Voronoi V D) (g : V) : Assignment V D :=
  (p.assignment.positions g).toList.foldl (rehomeAt space (p.generators.erase g))
    (p.assignment.detach g)

theorem rehomeAt_sites (remaining : AscendingSet V) (a : Assignment V D) (i : Nat) :
    (rehomeAt space remaining a i).sites = a.sites.modify i (Site.rehomed space remaining) := by
  apply List.ext_getElem?
  intro j
  unfold rehomeAt
  by_cases hij : i = j
  · subst hij
    cases hs : a.sites[i]? with
    | none => simp [hs]
    | some site =>
      cases hn : site.nearest? space remaining <;> simp [hs, hn, Site.rehomed]
  · split <;> simp [List.getElem?_modify_ne _ _ hij]

theorem rehome_eq {remaining : AscendingSet V} (delta : D) {a : Assignment V D} {i : Nat}
    (hr : remaining = p.generators.erase g) (ha : a.sites[i]? = p.assignment.sites[i]?)
    (hi : p.assignment.generatorAt? i = some g) :
    rehome space remaining (delta, a) i = (do
      let delta ← rehomeDelta space p g delta i
      pure (delta, rehomeAt space remaining a i)) := by
  subst hr
  obtain ⟨v, old, hsite, -⟩ := Assignment.exists_site_of_generatorAt? hi
  rw [hsite] at ha
  unfold rehome rehomeDelta rehomeAt
  simp only [Position.entry_eq_ok_iff.mpr ha, Position.entry_eq_ok_iff.mpr hsite, ha,
    Checked.ok_bind, Option.bind_some, Site.nearest?]
  cases Service.nearest space (p.generators.erase g).toList v with
  | error e => rfl
  | ok found =>
    cases found with
    | none =>
      simp only [Checked.ok_bind, Option.map_none, Option.getD_none]
      cases Distance.sub space.unserved old.distance <;> rfl
    | some s =>
      simp only [Checked.ok_bind, Option.map_some, Option.getD_some]
      cases Distance.sub s.distance old.distance <;> rfl

theorem foldlM_rehome (space : Space V D) {remaining : AscendingSet V} (delta : D) {a : Assignment V D}
    {l : List Nat} (hr : remaining = p.generators.erase g) (hl : l.Pairwise (· < ·))
    (ha : ∀ i ∈ l, a.sites[i]? = p.assignment.sites[i]?)
    (hi : ∀ i ∈ l, p.assignment.generatorAt? i = some g) :
    l.foldlM (rehome space remaining) (delta, a) = (do
      let delta ← l.foldlM (rehomeDelta space p g) delta
      pure (delta, l.foldl (rehomeAt space remaining) a)) := by
  induction l generalizing delta a with
  | nil => rfl
  | cons i l ih =>
    obtain ⟨hil, hl⟩ := List.pairwise_cons.mp hl
    rw [List.foldlM_cons, rehome_eq delta hr (ha i (by simp)) (hi i (by simp)), List.foldlM_cons,
      List.foldl_cons]
    cases rehomeDelta space p g delta i with
    | error e => rfl
    | ok delta =>
      refine ih delta hl (fun j hj => ?_) fun j hj => hi j (by simp [hj])
      -- The later positions are other ones, so their sites are still as they were.
      rw [rehomeAt_sites, List.getElem?_modify_ne _ _ (Nat.ne_of_lt (hil j hj))]
      exact ha j (by simp [hj])

theorem closingDelta_eq (hg : g ∈ p.generators) :
    p.closingDelta space g =
      (p.assignment.positions g).toList.foldlM (rehomeDelta space p g) Gain.zero := by
  unfold closingDelta
  rw [if_neg (not_not_intro hg)]

/-- Closing asks for its change of cost, finds new services for the sites that are left behind,
and settles the cost. -/
theorem closeGenerator_eq (hi : p.assignment.Indexed) (hg : g ∈ p.generators) :
    p.closeGenerator space g = (do
      let delta ← p.closingDelta space g
      let assignment := p.withdrawn space g
      let cost ← settle space p.cost (p.generators.erase g).isEmpty delta assignment
      pure (delta, { generators := p.generators.erase g, assignment, cost })) := by
  have hpos : ∀ i ∈ (p.assignment.positions g).toList, p.assignment.generatorAt? i = some g :=
    fun i h => hi.mem_positions.mp h
  have loop := foldlM_rehome space Gain.zero (a := p.assignment.detach g) rfl
    (p.assignment.positions g).ascending (fun _ _ => rfl) hpos
  rw [closingDelta_eq hg]
  unfold closeGenerator
  rw [if_neg (not_not_intro hg)]
  simp only [Checked.pure_eq_ok, loop]
  cases (p.assignment.positions g).toList.foldlM (rehomeDelta space p g) Gain.zero with
  | error e => rfl
  | ok delta => rfl

/-- The sites of positions that have been gone over are looked for anew, the others stay. -/
theorem foldl_rehomeAt_sites (remaining : AscendingSet V) (a : Assignment V D) (l : List Nat)
    (j : Nat) :
    (l.foldl (rehomeAt space remaining) a).sites[j]? =
      if j ∈ l then a.sites[j]?.map (Site.rehomed space remaining) else a.sites[j]? := by
  induction l generalizing a with
  | nil => simp
  | cons i l ih =>
    rw [List.foldl_cons, ih, rehomeAt_sites]
    by_cases hij : i = j
    · subst hij
      -- A second look at the same site finds the same service.
      have twice : Site.rehomed space remaining ∘ Site.rehomed space remaining =
          Site.rehomed space remaining := rfl
      simp [twice]
    · simp [List.getElem?_modify_ne _ _ hij, Ne.symm hij]

theorem withdrawn_sites (hi : p.assignment.Indexed) :
    (p.withdrawn space g).sites =
      p.assignment.sites.map (Site.released space (p.generators.erase g) g) := by
  apply List.ext_getElem?
  intro j
  unfold withdrawn
  rw [foldl_rehomeAt_sites, Assignment.sites_detach, List.getElem?_map]
  have hj : j ∈ (p.assignment.positions g).toList ↔ p.assignment.generatorAt? j = some g :=
    hi.mem_positions
  rw [Assignment.generatorAt?_eq] at hj
  simp only [hj]
  cases p.assignment.sites[j]? with
  | none => simp
  | some site =>
    simp only [Option.bind_some, Option.map_some, Site.released]
    split <;> rfl

theorem generatorAt?_rehomeAt_ne {remaining : AscendingSet V} {a : Assignment V D} {i j : Nat}
    (hij : i ≠ j) : (rehomeAt space remaining a i).generatorAt? j = a.generatorAt? j := by
  rw [Assignment.generatorAt?_eq, Assignment.generatorAt?_eq, rehomeAt_sites,
    List.getElem?_modify_ne _ _ hij]

theorem nearest?_isBest [Comparable D] (def_ : space.AllDefined) {generators : AscendingSet V}
    {v : V} {found : Option (Service V D)}
    (h : Service.nearest space generators.toList v = .ok found) :
    Service.IsBest space generators.toList v found :=
  (Service.nearest_ends def_ generators.ascending v).value h

theorem generator_of_nearest? {generators : AscendingSet V} {site : Site V D} {s : Service V D}
    (h : site.nearest? space generators = some s) : s.generator ∈ generators := by
  unfold Site.nearest? at h
  split at h
  · cases h
  · next found hf =>
    subst h
    exact Service.generator_of_nearest hf

/-- Closing goes through states in which the closed generator has no positions any more, though
some sites still name it. -/
theorem foldl_rehomeAt_indexed (space : Space V D) {remaining : AscendingSet V}
    (hg : g ∉ remaining) {a : Assignment V D} {l : List Nat} (hl : l.Pairwise (· < ·))
    (ha : a.IndexedFor (· ≠ g)) (hi : ∀ i ∈ l, a.generatorAt? i = some g) :
    (l.foldl (rehomeAt space remaining) a).IndexedFor (· ≠ g) := by
  induction l generalizing a with
  | nil => exact ha
  | cons i l ih =>
    obtain ⟨hil, hl⟩ := List.pairwise_cons.mp hl
    have hgi := hi i (by simp)
    rw [List.foldl_cons]
    refine ih hl ?_ fun j hj => ?_
    · unfold rehomeAt
      obtain ⟨v, old, hsite, -⟩ := Assignment.exists_site_of_generatorAt? hgi
      simp only [hsite, Option.bind_some]
      split
      · next s hs =>
        refine ha.assign (List.getElem?_eq_some_iff.mp hsite).1 ?_
        intro hsg
        exact hg (hsg ▸ generator_of_nearest? hs)
      · exact ha.vacate hgi (by simp)
    · rw [generatorAt?_rehomeAt_ne (Nat.ne_of_lt (hil j hj))]
      exact hi j (by simp [hj])

theorem withdrawn_indexed (hi : p.assignment.Indexed) :
    (p.withdrawn space g).Indexed := by
  have hpos : ∀ i ∈ (p.assignment.positions g).toList, p.assignment.generatorAt? i = some g :=
    fun i h => hi.mem_positions.mp h
  have loop := foldl_rehomeAt_indexed space (show g ∉ p.generators.erase g by simp)
    (p.assignment.positions g).ascending hi.detach hpos
  refine loop.indexed fun j hj => ?_
  -- A site that names the closed generator would have found it among the remaining ones.
  rw [Assignment.generatorAt?_eq] at hj
  change (p.withdrawn space g).sites[j]?.bind Site.generator? = some g at hj
  rw [withdrawn_sites hi, List.getElem?_map] at hj
  cases hs : p.assignment.sites[j]? with
  | none => simp [hs] at hj
  | some site =>
    simp only [hs, Option.map_some, Option.bind_some, Site.released] at hj
    split at hj
    · simp only [Site.generator?, Site.rehomed, Option.map_eq_some_iff] at hj
      obtain ⟨s, hs, hsg⟩ := hj
      have := generator_of_nearest? hs
      rw [hsg] at this
      simp at this
    · next h => exact h hj

/-! ## Building -/

theorem seat_eq (generators : AscendingSet V) (a : Assignment V D) (x : Site V D × Nat) :
    seat space generators a x = (do
      let _ ← Service.nearest space generators.toList x.1.vertex
      pure (a.seatAt (Site.nearest? space generators) x)) := by
  unfold seat Assignment.seatAt Site.nearest?
  cases Service.nearest space generators.toList x.1.vertex with
  | error e => rfl
  | ok found => cases found <;> rfl

theorem foldlM_seat {generators : AscendingSet V} {l : List (Site V D × Nat)}
    {a a' : Assignment V D} (h : l.foldlM (seat space generators) a = .ok a') :
    a' = l.foldl (Assignment.seatAt (Site.nearest? space generators)) a ∧
      ∀ x ∈ l, ∃ found, Service.nearest space generators.toList x.1.vertex = .ok found := by
  induction l generalizing a with
  | nil =>
    cases h
    exact ⟨rfl, by simp⟩
  | cons x l ih =>
    rw [List.foldlM_cons, seat_eq, Checked.bind_ok_iff] at h
    obtain ⟨b, hb, h⟩ := h
    rw [Checked.bind_ok_iff] at hb
    obtain ⟨found, hf, hb⟩ := hb
    cases hb
    obtain ⟨hl, hall⟩ := ih h
    refine ⟨hl, fun y hy => ?_⟩
    rcases List.mem_cons.mp hy with rfl | hy
    · exact ⟨found, hf⟩
    · exact hall y hy

/-- Building looks for the nearest generator of every distinct vertex, and adds the cost up. -/
theorem build_ok {generators vertices : List V} (h : build space generators vertices = .ok p) :
    p.generators = .ofList generators ∧
      p.assignment = (Assignment.ofVertices vertices).sweep (Site.nearest? space p.generators) ∧
      p.assignment.total space = .ok p.cost ∧
      ∀ v ∈ distinct vertices, ∃ found,
        Service.nearest space p.generators.toList v = .ok found := by
  unfold build at h
  simp only [Checked.bind_ok_iff] at h
  obtain ⟨a, ha, cost, hcost, h⟩ := h
  cases h
  obtain ⟨rfl, hall⟩ := foldlM_seat ha
  refine ⟨rfl, rfl, hcost, fun v hv => ?_⟩
  obtain ⟨i, hi, rfl⟩ := List.getElem_of_mem hv
  exact hall (⟨(distinct vertices)[i], none⟩, i)
    (by simp [Assignment.ofVertices, List.mk_mem_zipIdx_iff_getElem?, hi])

end Voronoi

end Descent
