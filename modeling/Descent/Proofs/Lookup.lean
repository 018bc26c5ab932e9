import Descent.Proofs.Siting.Agreement
import Descent.Proofs.Voronoi.History

/-!
# Looking vertices up by their places

A partition and a roster search their lists for the entry of a vertex. The lists keep their order,
so a table of the place of every vertex that is filled once, when the list is made, finds the same
entries for good. Two ways to fill it are looked at: place by place from a list of distinct keys
(`KeyedList.places`), and together with the list itself, while repetitions are left out
(`Assignment.listing`). Rosters find what the first table says (`Roster.History.lookup`), and
partitions what the second one says (`Voronoi.Reachable.lookup`).
-/

namespace Descent

/-! ## Tables of places -/

/-- The place of a key in a list, found by a search. -/
def placeOf? {K : Type} [DecidableEq K] (keys : List K) (k : K) : Option Nat :=
  keys.findIdx? fun key => decide (key = k)

section Search

variable {K α : Type} [DecidableEq K]

theorem placeOf?_eq_none_iff {keys : List K} {k : K} : placeOf? keys k = none ↔ k ∉ keys := by
  unfold placeOf?
  rw [List.findIdx?_eq_none_iff]
  simp only [decide_eq_false_iff_not]
  exact ⟨fun h hk => h k hk rfl, fun h key hkey he => h (he ▸ hkey)⟩

/-- One more key at the end has the length of the list as its place, if it is a new one. -/
theorem placeOf?_append_singleton {keys : List K} {key : K} (hkey : key ∉ keys) (k : K) :
    placeOf? (keys ++ [key]) k = if key = k then some keys.length else placeOf? keys k := by
  have hsplit : placeOf? (keys ++ [key]) k =
      (placeOf? keys k).or (if key = k then some keys.length else none) := by
    unfold placeOf?
    rw [List.findIdx?_append, List.findIdx?_singleton]
    by_cases hk : key = k
    · simp [hk]
    · simp [hk]
  rw [hsplit]
  by_cases hk : key = k
  · rw [if_pos hk, if_pos hk, placeOf?_eq_none_iff.mpr (hk ▸ hkey), Option.none_or]
  · rw [if_neg hk, if_neg hk, Option.or_none]

/-- To search a list for the entry of a key is to look at the place of the key. -/
theorem findIdx?_key (key : α → K) (entries : List α) (k : K) :
    entries.findIdx? (fun entry => decide (key entry = k)) = placeOf? (entries.map key) k := by
  unfold placeOf?
  rw [List.findIdx?_map]
  rfl

theorem find?_key (key : α → K) (entries : List α) (k : K) :
    entries.find? (fun entry => decide (key entry = k)) =
      (placeOf? (entries.map key) k).bind fun i => entries[i]? := by
  rw [List.find?_eq_bind_findIdx?_getElem?, findIdx?_key]

/-- The place of a key has an entry, and it is that of the key. -/
theorem exists_of_placeOf? {key : α → K} {entries : List α} {k : K} {i : Nat}
    (h : placeOf? (entries.map key) k = some i) :
    ∃ entry, entries[i]? = some entry ∧ key entry = k := by
  rw [← findIdx?_key, List.findIdx?_eq_some_iff_getElem] at h
  obtain ⟨hi, hkey, -⟩ := h
  exact ⟨entries[i], List.getElem?_eq_getElem hi, of_decide_eq_true hkey⟩

end Search

namespace KeyedList

variable {K : Type} [DecidableEq K]

/-- The places of some keys, filled in from the first to the last. -/
def places (keys : List K) : KeyedList K Nat :=
  keys.zipIdx.foldl (fun t entry => t.set entry.1 entry.2) .empty

/-- If no key comes twice, the table says of each key where it is. -/
theorem get?_places {keys : List K} (h : keys.Nodup) (k : K) :
    (places keys).get? k = placeOf? keys k := by
  induction keys using List.reverseRecOn with
  | nil => rfl
  | append_singleton keys key ih =>
    have hkeys : keys.Nodup := (List.nodup_append.mp h).1
    have hkey : key ∉ keys := fun hmem =>
      (List.nodup_append.mp h).2.2 key hmem key (List.mem_singleton_self key) rfl
    rw [placeOf?_append_singleton hkey, ← ih hkeys]
    unfold places
    rw [List.zipIdx_append, List.foldl_append, List.zipIdx_singleton, List.foldl_cons,
      List.foldl_nil, get?_set, Nat.zero_add]

end KeyedList

/-! ## Partitions -/

namespace Assignment

variable {V : Type} [Vertex V]

/-- Lists a vertex, with its place in the list, unless it has one. -/
def enlist (listed : KeyedList V Nat × List V) (v : V) : KeyedList V Nat × List V :=
  match listed.1.get? v with
  | some _ => listed
  | none => (listed.1.set v listed.2.length, listed.2 ++ [v])

/-- The distinct vertices of a list, and the places that they have among them. -/
def listing (vertices : List V) : KeyedList V Nat × List V :=
  vertices.foldl enlist (.empty, [])

theorem foldl_enlist (vertices : List V) (listed : KeyedList V Nat × List V)
    (hlisted : ∀ v, listed.1.get? v = placeOf? listed.2 v) :
    (vertices.foldl enlist listed).2 =
        vertices.foldl (fun seen v => if v ∈ seen then seen else seen ++ [v]) listed.2 ∧
      ∀ v, (vertices.foldl enlist listed).1.get? v =
        placeOf? (vertices.foldl enlist listed).2 v := by
  induction vertices generalizing listed with
  | nil => exact ⟨rfl, hlisted⟩
  | cons v vertices ih =>
    rw [List.foldl_cons, List.foldl_cons]
    by_cases hv : v ∈ listed.2
    · have hsame : enlist listed v = listed := by
        unfold enlist
        cases hplace : listed.1.get? v with
        | some i => rfl
        | none =>
          rw [hlisted, placeOf?_eq_none_iff] at hplace
          exact absurd hv hplace
      rw [hsame, if_pos hv]
      exact ih listed hlisted
    · have hnew : enlist listed v = (listed.1.set v listed.2.length, listed.2 ++ [v]) := by
        unfold enlist
        rw [hlisted, placeOf?_eq_none_iff.mpr hv]
      rw [hnew, if_neg hv]
      refine ih _ fun w => ?_
      rw [KeyedList.get?_set, placeOf?_append_singleton hv, hlisted]

/-- The list is that of the distinct vertices, and the table says of each where it is. -/
theorem listing_eq (vertices : List V) :
    (listing vertices).2 = distinct vertices ∧
      ∀ v, (listing vertices).1.get? v = placeOf? (distinct vertices) v := by
  obtain ⟨hlist, hplaces⟩ := foldl_enlist vertices (.empty, []) fun _ => rfl
  have hdistinct : (listing vertices).2 = distinct vertices := hlist
  refine ⟨hdistinct, fun v => ?_⟩
  rw [← hdistinct]
  exact hplaces v

end Assignment

namespace Voronoi

variable {V D : Type} [Vertex V] [Distance D] {space : Space V D} {vertices : List V}
  {p : Voronoi V D}

/-- The service of a vertex is found at the place that the table of the listed vertices has for it,
and that place has a site. A vertex without a place has no service. -/
theorem Reachable.lookup (h : Reachable space vertices p) (v : V) :
    p.assignment.serviceOf? v =
        ((Assignment.listing vertices).1.get? v).bind p.assignment.serviceAt? ∧
      ∀ i, (Assignment.listing vertices).1.get? v = some i →
        ∃ site, p.assignment.sites[i]? = some site ∧ site.vertex = v := by
  have hplace : (Assignment.listing vertices).1.get? v =
      placeOf? (p.assignment.sites.map Site.vertex) v := by
    rw [(Assignment.listing_eq vertices).2 v, ← h.vertices_eq]
    rfl
  rw [hplace]
  refine ⟨?_, fun i hi => exists_of_placeOf? hi⟩
  unfold Assignment.serviceOf? Assignment.serviceAt?
  rw [find?_key, Option.bind_assoc]

end Voronoi

/-! ## Rosters -/

namespace Roster

variable {V D : Type} [Vertex V] [Distance D] {problem : SitingProblem V D} {clients : List V}
  {plan : Plan V D} {r : Roster V D}

/-- Along any history the entry of a facility is found, and marked, at the place that a table of
the facilities has for it which was filled when the roster was made; and that place has an entry. -/
theorem History.lookup (hplan : Plan.Reachable problem clients plan) (h : History problem plan r)
    (f : V) :
    let index := KeyedList.places ((ofPlan plan).facilities.map Facility.vertex)
    r.facilities.findIdx? (fun entry => decide (entry.vertex = f)) = index.get? f ∧
      r.get? f = (index.get? f).bind (fun i => r.facilities[i]?) ∧
      ∀ i, index.get? f = some i → ∃ entry, r.facilities[i]? = some entry ∧ entry.vertex = f := by
  intro index
  have hvertices := h.vertices hplan
  have hplace : index.get? f = placeOf? (r.facilities.map Facility.vertex) f := by
    have hnodup := (h.reachable hplan).sound.agrees.nodup
    rw [hvertices] at hnodup ⊢
    rw [← vertices_ofPlan] at hnodup ⊢
    exact KeyedList.get?_places hnodup f
  rw [hplace]
  exact ⟨findIdx?_key .., find?_key .., fun i hi => exists_of_placeOf? hi⟩

end Roster

end Descent
