import Descent.Proofs.Voronoi.Reachable

/-!
# Histories go on

Opening a generator that is not open and closing one that is are always possible, except that
the metric may fault, or the arithmetic on distances: `change_ends`. The faults of a caller, and
those of a position outside the sites, do not occur.
-/

namespace Descent

open Checked (Ends)

section Faults

variable {V D : Type} [Distance D]

/-- A fault of the metric, or of the arithmetic on distances. -/
def Space.MayFail (space : Space V D) (e : Fault) : Prop :=
  (∃ v g, space.distance v g = .error e) ∨
    ∃ a b : D, Distance.add a b = .error e ∨ Distance.sub a b = .error e

variable (space : Space V D)

theorem Space.distance_ends (v g : V) :
    Ends (space.distance v g) (fun _ => True) space.MayFail := by
  cases h : space.distance v g with
  | error e => exact .inl ⟨v, g, h⟩
  | ok d => trivial

theorem Space.add_ends (a b : D) : Ends (Distance.add a b) (fun _ => True) space.MayFail := by
  cases h : Distance.add a b with
  | error e => exact .inr ⟨a, b, .inl h⟩
  | ok d => trivial

theorem Space.sub_ends (a b : D) : Ends (Distance.sub a b) (fun _ => True) space.MayFail := by
  cases h : Distance.sub a b with
  | error e => exact .inr ⟨a, b, .inr h⟩
  | ok d => trivial

theorem Space.add_sub_ends (sum a b : D) :
    Ends (do Distance.add sum (← Distance.sub a b)) (fun _ => True) space.MayFail :=
  (space.sub_ends a b).bind fun d _ _ => space.add_ends sum d

end Faults

/-- A change that only opens what is not open and only closes what is. -/
def GeneratorChange.Allowed {V : Type} [Vertex V] (generators : AscendingSet V) :
    GeneratorChange V → Prop
  | opening g => g ∉ generators
  | closing g => g ∈ generators

instance {V : Type} [Vertex V] (generators : AscendingSet V) :
    (c : GeneratorChange V) → Decidable (c.Allowed generators)
  | .opening g => inferInstanceAs (Decidable (g ∉ generators))
  | .closing g => inferInstanceAs (Decidable (g ∈ generators))

namespace Voronoi

variable {V D : Type} [Distance D] {space : Space V D}

theorem nearest_mayFail (generators : List V) (v : V) :
    Ends (Service.nearest space generators v) (fun _ => True) space.MayFail := by
  refine Ends.foldlM_true fun g _ best => (space.distance_ends v g).bind fun d _ _ => ?_
  cases best <;> trivial

variable [Vertex V] {p : Voronoi V D} {g : V}

theorem total_mayFail (a : Assignment V D) : Ends (a.total space) (fun _ => True) space.MayFail :=
  Ends.foldlM_true fun d _ sum => space.add_ends sum d

theorem settle_mayFail (before delta : D) (atBoundary : Bool) (a : Assignment V D) :
    Ends (settle space before atBoundary delta a) (fun _ => True) space.MayFail := by
  cases atBoundary with
  | true => exact total_mayFail a
  | false => exact space.add_ends before delta

theorem openingDelta_mayFail (hg : g ∉ p.generators) :
    Ends (p.openingDelta space g) (fun _ => True) space.MayFail := by
  rw [openingDelta_eq hg]
  refine Ends.foldlM_true fun site _ delta => ?_
  refine (space.distance_ends site.vertex g).bind fun d _ _ => ?_
  cases site.service with
  | none => exact space.add_sub_ends delta d space.unserved
  | some old =>
    dsimp only
    split
    · exact space.add_sub_ends delta d old.distance
    · trivial

theorem closingDelta_mayFail (hi : p.assignment.Indexed) (hg : g ∈ p.generators) :
    Ends (p.closingDelta space g) (fun _ => True) space.MayFail := by
  rw [closingDelta_eq hg]
  refine Ends.foldlM_true fun i hpos delta => ?_
  -- The positions are those of sites that the generator serves.
  obtain ⟨v, old, hsite, -⟩ := Assignment.exists_site_of_generatorAt? (hi.mem_positions.mp hpos)
  unfold rehomeDelta
  rw [Position.entry_eq_ok_iff.mpr hsite, Checked.ok_bind]
  exact (nearest_mayFail _ v).bind fun new _ _ => space.add_sub_ends delta _ old.distance

theorem exchangeDelta_mayFail {closed opened : V} (hclosed : closed ∈ p.generators)
    (hopened : opened ∉ p.generators) :
    Ends (p.exchangeDelta space closed opened) (fun _ => True) space.MayFail := by
  unfold exchangeDelta
  rw [if_neg (not_not_intro hclosed), if_neg hopened]
  refine Ends.foldlM_true fun site _ delta => ?_
  unfold exchangeSiteDelta
  cases site.service with
  | none => trivial
  | some old =>
    refine (space.distance_ends site.vertex opened).bind fun d _ _ => ?_
    by_cases hold : old.generator = closed
    · rw [if_pos hold]
      exact (nearest_mayFail _ _).bind fun next _ _ => space.add_sub_ends delta _ old.distance
    · rw [if_neg hold]
      cases Service.closer ⟨opened, d⟩ old with
      | true => exact space.add_sub_ends delta d old.distance
      | false => trivial

/-- An allowed change is made, unless the metric or the arithmetic faults. -/
theorem change_ends (hi : p.assignment.Indexed) {c : GeneratorChange V}
    (hc : c.Allowed p.generators) :
    Ends (p.change space c) (fun _ => True) space.MayFail := by
  cases c with
  | opening g =>
    show Ends (p.openGenerator space g) _ _
    rw [openGenerator_eq hc]
    exact (openingDelta_mayFail hc).bind fun delta _ _ =>
      (settle_mayFail ..).bind fun cost _ _ => trivial
  | closing g =>
    show Ends (p.closeGenerator space g) _ _
    rw [closeGenerator_eq hi hc]
    exact (closingDelta_mayFail hi hc).bind fun delta _ _ =>
      (settle_mayFail ..).bind fun cost _ _ => trivial

/-- A partition can be built, unless the metric or the arithmetic faults. -/
theorem build_ends (generators vertices : List V) :
    Ends (build space generators vertices) (fun _ => True) space.MayFail := by
  have hseat : ∀ x ∈ (Assignment.ofVertices (D := D) vertices).sites.zipIdx, ∀ a,
      Ends (seat space (.ofList generators) a x) (fun _ => True) space.MayFail := by
    intro x _ a
    rw [seat_eq]
    exact (nearest_mayFail _ _).bind fun found _ _ => trivial
  exact (Ends.foldlM_true hseat).bind fun a _ _ =>
    (total_mayFail a).bind fun cost _ _ => trivial

end Voronoi

end Descent
