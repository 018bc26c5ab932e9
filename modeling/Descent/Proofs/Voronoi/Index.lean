import Descent.Proofs.Voronoi.History

/-!
# The table of positions is the inverse of the sites

A partition can be asked which generator serves a vertex, and which vertices a generator serves. The
first answer comes from the sites, the second one from the table of positions beside them. At every
point of a history the second is the inverse of the first: `history_inverted`. The table has entries
for open generators only, none of them without a position, and the positions in it are those of
sites that are served, also while a generator is being closed.
-/

namespace Descent

open Checked (Ends)

namespace Assignment

/-! ## Entries with positions

The rest of the table is known from `Indexed`. That a generator without positions has no entry is
not, since an entry with no positions would answer the same. -/

section Entries

variable {V D : Type} [Vertex V] {served : KeyedList V (AscendingSet Nat)} {a : Assignment V D}
  {g : V}

theorem positions_of_get? {positions : AscendingSet Nat}
    (h : a.served.get? g = some positions) : a.positions g = positions := by
  unfold Assignment.positions
  rw [h]
  rfl

/-- No entry of a table is without positions. -/
def NoneEmpty (served : KeyedList V (AscendingSet Nat)) : Prop :=
  ∀ g positions, served.get? g = some positions → ∃ i, i ∈ positions

theorem noneEmpty_empty : NoneEmpty (.empty : KeyedList V (AscendingSet Nat)) :=
  fun _ _ h => by cases h

theorem NoneEmpty.erase (h : NoneEmpty served) (g : V) : NoneEmpty (served.erase g) := by
  intro k positions hk
  rw [KeyedList.get?_erase] at hk
  by_cases hgk : g = k
  · rw [if_pos hgk] at hk
    cases hk
  · rw [if_neg hgk] at hk
    exact h k positions hk

theorem NoneEmpty.set (h : NoneEmpty served) {new : AscendingSet Nat} (hnew : ∃ i, i ∈ new) (g : V) :
    NoneEmpty (served.set g new) := by
  intro k positions hk
  rw [KeyedList.get?_set] at hk
  by_cases hgk : g = k
  · rw [if_pos hgk] at hk
    cases hk
    exact hnew
  · rw [if_neg hgk] at hk
    exact h k positions hk

theorem NoneEmpty.unlink (h : NoneEmpty served) (g : V) (i : Nat) :
    NoneEmpty (unlink served g i) := by
  unfold Assignment.unlink
  cases hg : served.get? g with
  | none => exact h
  | some positions =>
    cases hempty : (positions.erase i).isEmpty with
    | true =>
      simp only [hempty, if_true]
      exact h.erase g
    | false =>
      simp only [hempty, Bool.false_eq_true, if_false]
      refine h.set (List.exists_mem_of_ne_nil _ fun hnil => ?_) g
      rw [AscendingSet.isEmpty, hnil] at hempty
      cases hempty

theorem NoneEmpty.link (h : NoneEmpty served) (g : V) (i : Nat) : NoneEmpty (link served g i) :=
  h.set ⟨i, AscendingSet.mem_insert.mpr (.inl rfl)⟩ g

theorem NoneEmpty.assign (h : NoneEmpty a.served) (i : Nat) (s : Service V D) :
    NoneEmpty (a.assign i s).served := by
  unfold Assignment.assign
  cases a.serviceAt? i with
  | none => exact h.link _ _
  | some old => exact (h.unlink _ _).link _ _

theorem NoneEmpty.sweep (h : NoneEmpty a.served) (choice : Site V D → Option (Service V D)) :
    NoneEmpty (a.sweep choice).served := by
  refine List.foldlRecOn (motive := fun b : Assignment V D => NoneEmpty b.served) _ _ h
    fun b hb x _ => ?_
  unfold seatAt
  cases choice x.1 with
  | none => exact hb
  | some s => exact hb.assign x.2 s

end Entries

/-! ## Answers from the sites -/

section Answers

variable {V D : Type} [Vertex V] {a : Assignment V D}

/-- The service of a vertex is that of its site, if no vertex has two of them. -/
theorem serviceOf?_of_mem (ha : a.vertices.Nodup) {site : Site V D} (hsite : site ∈ a.sites) :
    a.serviceOf? site.vertex = site.service := by
  unfold serviceOf?
  cases hfound : a.sites.find? fun other => decide (other.vertex = site.vertex) with
  | none =>
    have hmiss := List.find?_eq_none.mp hfound site hsite
    simp at hmiss
  | some other =>
    have hsame : other.vertex = site.vertex := by simpa using List.find?_some hfound
    have hother := List.mem_of_find?_eq_some hfound
    rw [List.inj_on_of_nodup_map ha hother hsite hsame]
    rfl

end Answers

/-- To look up the entries of a list at some positions in order is to go over the list, if the
positions are those of the entries that a test is true of. -/
theorem mapM_entry_filter {α β : Type} (front : List α) {rest : List α} {test : α → Bool}
    {keep : Nat → Bool} (f : α → β) (hkeep : ∀ i x, (front ++ rest)[i]? = some x → keep i = test x) :
    ((List.range' front.length rest.length).filter keep).mapM
        (fun i => do pure (f (← Position.entry (front ++ rest) i))) =
      .ok ((rest.filter test).map f) := by
  induction rest generalizing front with
  | nil => rfl
  | cons x rest ih =>
    have hx : (front ++ x :: rest)[front.length]? = some x := by simp
    have hrest := ih (front ++ [x]) (by simpa using hkeep)
    rw [List.append_assoc, List.singleton_append, List.length_append, List.length_singleton] at hrest
    rw [List.length_cons, List.range'_succ]
    cases htest : test x with
    | true =>
      have hkept : keep front.length = true := (hkeep _ _ hx).trans htest
      rw [List.filter_cons_of_pos hkept, List.filter_cons_of_pos htest, List.mapM_cons, hrest,
        Position.entry_eq_ok_iff.mpr hx]
      rfl
    | false =>
      have hskipped : ¬ keep front.length = true := by rw [hkeep _ _ hx, htest]; simp
      rw [List.filter_cons_of_neg hskipped, List.filter_cons_of_neg (by simp [htest]), hrest]

end Assignment

namespace Voronoi

variable {V D : Type} [Vertex V] [Distance D] {space : Space V D} {vertices generators : List V}
  {p q : Voronoi V D} {g : V}

/-! ## Closing -/

theorem noneEmpty_foldl_rehomeAt (remaining : AscendingSet V) {a : Assignment V D}
    (h : Assignment.NoneEmpty a.served) (l : List Nat) :
    Assignment.NoneEmpty (l.foldl (rehomeAt space remaining) a).served := by
  refine List.foldlRecOn (motive := fun b : Assignment V D => Assignment.NoneEmpty b.served) _ _ h
    fun b hb i _ => ?_
  unfold rehomeAt
  cases b.sites[i]?.bind (Site.nearest? space remaining) with
  | none => exact hb
  | some s => exact hb.assign i s

/-- When closing comes to a position, the generator that closes has no entry any more, from which
the position could be taken away, but the site still names it. -/
theorem closing_turn (hi : p.assignment.Indexed) (hnone : Assignment.NoneEmpty p.assignment.served)
    {done rest : List Nat} {i : Nat} {acc : D × Assignment V D}
    (hsplit : (p.assignment.positions g).toList = done ++ i :: rest)
    (h : done.foldlM (rehome space (p.generators.erase g)) (Gain.zero, p.assignment.detach g) =
      .ok acc) :
    acc.2.served.get? g = none ∧ ∃ v s, acc.2.sites[i]? = some ⟨v, some s⟩ ∧ s.generator = g := by
  have hascending := (p.assignment.positions g).ascending
  rw [hsplit] at hascending
  obtain ⟨hdone, -, hbefore⟩ := List.pairwise_append.mp hascending
  have hpos : ∀ j ∈ done ++ i :: rest, p.assignment.generatorAt? j = some g := by
    intro j hj
    rw [← hsplit] at hj
    exact hi.mem_positions.mp hj
  have hgone : ∀ j ∈ done, p.assignment.generatorAt? j = some g := fun j hj =>
    hpos j (List.mem_append_left _ hj)
  rw [foldlM_rehome space Gain.zero (a := p.assignment.detach g) rfl hdone (fun _ _ => rfl) hgone]
    at h
  obtain ⟨delta, -, h⟩ := Checked.bind_ok_iff.mp h
  cases h
  constructor
  · have hindexed := foldl_rehomeAt_indexed space (show g ∉ p.generators.erase g by simp) hdone
      hi.detach hgone
    cases hget : (done.foldl (rehomeAt space (p.generators.erase g))
        (p.assignment.detach g)).served.get? g with
    | none => rfl
    | some positions =>
      -- An entry would have a position, and the table says that the generator has none.
      obtain ⟨j, hj⟩ := noneEmpty_foldl_rehomeAt _ (hnone.erase g) done g positions hget
      rw [← Assignment.positions_of_get? hget] at hj
      exact absurd rfl ((hindexed g j).mp hj).1
  · have hlater : i ∉ done := fun hmem => Nat.lt_irrefl i (hbefore i hmem i (by simp))
    simp only [foldl_rehomeAt_sites, if_neg hlater, Assignment.sites_detach]
    exact Assignment.exists_site_of_generatorAt? (hpos i (by simp))

/-! ## The inverse -/

/-- What the table of positions says of a partition. -/
structure Inverted (space : Space V D) (p : Voronoi V D) : Prop where
  /-- A generator serves the vertices that name it, each once and in their order. -/
  nodup : p.vertices.Nodup
  inverse : ∀ g, p.verticesFor g =
    .ok (p.vertices.filter fun v => decide (p.generatorOf? v = some g))
  count : ∀ g, p.countFor g =
    (p.vertices.filter fun v => decide (p.generatorOf? v = some g)).length
  closed : ∀ g, g ∉ p.generators → p.verticesFor g = .ok [] ∧ p.countFor g = 0
  /-- There are entries for open generators only, none of them without a position. -/
  keyed : ∀ g positions, p.assignment.served.get? g = some positions →
    g ∈ p.generators ∧ positions.isEmpty = false
  disjoint : ∀ g h i, i ∈ p.assignment.positions g → i ∈ p.assignment.positions h → g = h
  covered : (∃ g, g ∈ p.generators) → ∀ i, i < p.vertices.length →
    ∃ g, g ∈ p.generators ∧ i ∈ p.assignment.positions g
  /-- A position is that of a site which the generator serves, and still is when closing the
  generator comes to it. -/
  present : ∀ g i, i ∈ p.assignment.positions g → i < p.vertices.length ∧
    ∃ v s, p.assignment.sites[i]? = some ⟨v, some s⟩ ∧ s.generator = g
  closing : ∀ g done i rest acc, (p.assignment.positions g).toList = done ++ i :: rest →
    done.foldlM (rehome space (p.generators.erase g)) (Gain.zero, p.assignment.detach g) =
      .ok acc →
    acc.2.served.get? g = none ∧ ∃ v s, acc.2.sites[i]? = some ⟨v, some s⟩ ∧ s.generator = g
  /-- An open generator can be closed, and asked what that would cost, unless the metric or the
  arithmetic faults. -/
  closes : ∀ g, g ∈ p.generators → Ends (p.closeGenerator space g) (fun _ => True) space.MayFail
  queried : ∀ g, g ∈ p.generators → Ends (p.closingDelta space g) (fun _ => True) space.MayFail

theorem Reachable.noneEmpty (h : Reachable space vertices p) :
    Assignment.NoneEmpty p.assignment.served := by
  induction h with
  | built h =>
    rw [(build_ok h).2.1]
    exact Assignment.noneEmpty_empty.sweep _
  | @changed p q c delta hp h ih =>
    cases c with
    | opening g =>
      rw [(openGenerator_ok h).2.2.2.1]
      exact ih.sweep _
    | closing g =>
      rw [(closeGenerator_ok hp.indexed h).2.2.2.1]
      exact noneEmpty_foldl_rehomeAt _ (ih.erase g) _

theorem Consistent.nodup (hp : p.Consistent space vertices) : p.vertices.Nodup := by
  rw [hp.vertices_eq]
  exact nodup_distinct vertices

section Sites

omit [Distance D]

/-- The vertices that name a generator are those of the sites that it serves. -/
theorem filter_generatorOf? (hp : p.vertices.Nodup) (g : V) :
    (p.vertices.filter fun v => decide (p.generatorOf? v = some g)) =
      (p.assignment.sites.filter fun site => decide (site.generator? = some g)).map
        Site.vertex := by
  unfold vertices Assignment.vertices
  rw [List.filter_map]
  refine congrArg _ (List.filter_congr fun site hsite => ?_)
  unfold generatorOf?
  rw [Function.comp_apply, Assignment.serviceOf?_of_mem hp hsite]
  rfl

theorem length_vertices (p : Voronoi V D) : p.vertices.length = p.assignment.sites.length :=
  List.length_map ..

end Sites

/-- A generator that a site names is open. -/
theorem Consistent.open_of_mem (hp : p.Consistent space vertices) {i : Nat}
    (hi : i ∈ p.assignment.positions g) : g ∈ p.generators := by
  obtain ⟨v, s, hsite, rfl⟩ :=
    Assignment.exists_site_of_generatorAt? (hp.indexed.mem_positions.mp hi)
  have hbest : s.IsNearest space p.generators.toList v := hp.best _ (List.mem_of_getElem? hsite)
  exact hbest.member

theorem Consistent.verticesFor_eq (hp : p.Consistent space vertices) (g : V) :
    p.verticesFor g =
      .ok ((p.assignment.sites.filter fun site => decide (site.generator? = some g)).map
        Site.vertex) := by
  unfold verticesFor
  rw [hp.indexed.positions_eq_filter, List.range_eq_range']
  refine Assignment.mapM_entry_filter [] Site.vertex fun i site hsite => ?_
  rw [Assignment.generatorAt?_eq, ← List.nil_append p.assignment.sites, hsite]
  rfl

theorem Consistent.inverted (hp : p.Consistent space vertices)
    (hnone : Assignment.NoneEmpty p.assignment.served) : Inverted space p where
  nodup := hp.nodup
  inverse g := by rw [filter_generatorOf? hp.nodup, hp.verticesFor_eq]
  count g := by
    rw [filter_generatorOf? hp.nodup]
    exact (Checked.mapM_eq_ok_iff.mp (hp.verticesFor_eq g)).length_eq
  closed g hg := by
    have hnil : (p.assignment.positions g).toList = [] :=
      List.eq_nil_iff_forall_not_mem.mpr fun i hi => hg (hp.open_of_mem hi)
    unfold verticesFor countFor AscendingSet.size
    rw [hnil]
    exact ⟨rfl, rfl⟩
  keyed g positions hget := by
    obtain ⟨i, hi⟩ := hnone g positions hget
    have hmem : i ∈ p.assignment.positions g := by
      rw [Assignment.positions_of_get? hget]
      exact hi
    exact ⟨hp.open_of_mem hmem, List.isEmpty_eq_false_iff_exists_mem.mpr ⟨i, hi⟩⟩
  disjoint g h i hg hh := by
    rw [hp.indexed.mem_positions] at hg hh
    exact Option.some.inj (hg.symm.trans hh)
  covered := by
    rintro ⟨g, hg⟩ i hi
    rw [length_vertices] at hi
    obtain ⟨v, s, hsite⟩ := hp.served hg (List.getElem_mem hi)
    have hmem : i ∈ p.assignment.positions s.generator := by
      rw [hp.indexed.mem_positions, Assignment.generatorAt?_eq, List.getElem?_eq_getElem hi, hsite]
      rfl
    exact ⟨s.generator, hp.open_of_mem hmem, hmem⟩
  present g i hi := by
    obtain ⟨v, s, hsite, hs⟩ :=
      Assignment.exists_site_of_generatorAt? (hp.indexed.mem_positions.mp hi)
    rw [length_vertices]
    exact ⟨(List.getElem?_eq_some_iff.mp hsite).1, v, s, hsite, hs⟩
  closing g done i rest acc hsplit h := closing_turn hp.indexed hnone hsplit h
  closes g hg := change_ends (c := .closing g) hp.indexed hg
  queried g hg := closingDelta_mayFail hp.indexed hg

/-- After every history of allowed changes the table of positions is the inverse of the sites. Every
generator has the vertices that name it, each once and in their order. There are entries for open
generators only, no entry is empty, no position stands in two of them, and while a generator is open
every position stands in one. Every position is that of a site that is served, also in the middle of
closing its generator. -/
theorem history_inverted [Comparable D] (def_ : space.AllDefined)
    {changes : List (GeneratorChange V)}
    (hallowed : GeneratorChange.AllAllowed (.ofList generators) changes) :
    Ends (history space generators vertices changes) (Inverted space) space.MayFail := by
  refine (history_ends def_ hallowed).mono fun p hp _ => ?_
  obtain ⟨hreachable, -⟩ := history_reachable hp
  exact (hreachable.consistent def_).inverted hreachable.noneEmpty

/-- A generator that closes leaves three vertices behind, which one that opens later takes over. -/
theorem history_inverted_signedZeros :
    ∃ p : Voronoi Nat Float, signedZeros.AllDefined ∧
      GeneratorChange.AllAllowed (.ofList [2, 5]) [.closing 2, .opening 3] ∧
      history signedZeros [2, 5] [5, 2, 3, 1, 5] [.closing 2, .opening 3] = .ok p ∧
      Inverted signedZeros p ∧ p.verticesFor 3 = .ok [2, 3, 1] ∧ p.countFor 3 = 3 ∧
      p.verticesFor 5 = .ok [5] ∧ p.verticesFor 2 = .ok [] ∧
      p.assignment.served.get? 2 = none := by
  have hallowed : GeneratorChange.AllAllowed (.ofList [2, 5]) [.closing 2, .opening 3] := by decide
  have at_history : ∀ p : Voronoi Nat Float,
      history signedZeros [2, 5] [5, 2, 3, 1, 5] [.closing 2, .opening 3] = .ok p →
      Inverted signedZeros p :=
    fun p hp => (history_inverted signedZeros_allDefined hallowed).value hp
  have hinverted := at_history _ rfl
  exact ⟨_, signedZeros_allDefined, hallowed, rfl, hinverted, rfl, rfl, rfl,
    (hinverted.closed 2 (by decide)).1, rfl⟩

end Voronoi

end Descent
