import Descent.Proofs.Siting.Plan
import Descent.Siting.Roster

/-!
# Rosters along a history

A roster that `Agrees` with its plan lists every facility of the plan once, with the right mark.
A legal update is entered at its facilities and nowhere else, so the agreement lasts.
-/

namespace Descent

/-! ## Marks -/

namespace Facility

variable {V : Type} [Vertex V]

/-- The entry with a new mark, if it is that of a given facility. -/
def remark (f : V) (isChosen : Bool) (entry : Facility V) : Facility V :=
  if entry.vertex = f then { entry with isChosen } else entry

/-- The entry after an update. -/
def entered (u : Update V) (entry : Facility V) : Facility V :=
  match u with
  | .opening f => entry.remark f true
  | .closing f => entry.remark f false
  | .exchange closed opened => (entry.remark opened true).remark closed false

@[simp] theorem vertex_remark (f : V) (isChosen : Bool) (entry : Facility V) :
    (entry.remark f isChosen).vertex = entry.vertex := by
  unfold remark
  split <;> rfl

@[simp] theorem vertex_entered (u : Update V) (entry : Facility V) :
    (entry.entered u).vertex = entry.vertex := by
  cases u <;> simp [entered]

theorem isChosen_remark (f : V) (isChosen : Bool) (entry : Facility V) :
    (entry.remark f isChosen).isChosen =
      if entry.vertex = f then isChosen else entry.isChosen := by
  unfold remark
  split <;> rfl

/-- A mark that is right before an update is entered as the right one after it. -/
theorem isChosen_entered {u : Update V} {entry : Facility V} {chosen : AscendingSet V}
    (h : entry.isChosen = true ↔ entry.vertex ∈ chosen) :
    (entry.entered u).isChosen = true ↔ entry.vertex ∈ u.chosenAfter chosen := by
  cases u with
  | opening f =>
    simp only [entered, Update.chosenAfter, isChosen_remark, AscendingSet.mem_insert]
    by_cases hf : entry.vertex = f
    · simp [hf]
    · simp [hf, h]
  | closing f =>
    simp only [entered, Update.chosenAfter, isChosen_remark, AscendingSet.mem_erase]
    by_cases hf : entry.vertex = f
    · simp [hf]
    · simp [hf, h]
  | exchange closed opened =>
    simp only [entered, Update.chosenAfter, isChosen_remark, vertex_remark,
      AscendingSet.mem_erase, AscendingSet.mem_insert]
    by_cases hclosed : entry.vertex = closed
    · simp [hclosed]
    · by_cases hopened : entry.vertex = opened
      · simp [hopened]
      · simp [hclosed, hopened, h]

end Facility

namespace Roster

/-- Changing the first entry of a key is changing all its entries, if there is one only. -/
theorem modify_findIdx? {α κ : Type} [DecidableEq κ] {key : α → κ} {l : List α} {k : κ} {i : Nat}
    (hl : (l.map key).Nodup) (h : l.findIdx? (fun x => decide (key x = k)) = some i) (f : α → α) :
    l.modify i f = l.map fun x => if key x = k then f x else x := by
  induction l generalizing i with
  | nil => cases h
  | cons x l ih =>
    rw [List.map_cons, List.nodup_cons] at hl
    obtain ⟨hx, hl⟩ := hl
    rw [List.findIdx?_cons] at h
    by_cases hk : key x = k
    · simp only [hk, decide_true, if_true] at h
      cases h
      rw [List.modify_zero_cons, List.map_cons, if_pos hk]
      -- The key does not come again, so the rest stays as it is.
      have hrest : l.map (fun y => if key y = k then f y else y) = l.map id := by
        refine List.map_congr_left fun y hy => ?_
        have hne : key y ≠ k := by
          intro hyk
          rw [hk, ← hyk] at hx
          exact hx (List.mem_map_of_mem hy)
        rw [if_neg hne]
        rfl
      rw [hrest, List.map_id]
    · simp only [hk, decide_false, Bool.false_eq_true, if_false, Option.map_eq_some_iff] at h
      obtain ⟨j, hj, rfl⟩ := h
      rw [List.modify_succ_cons, List.map_cons, if_neg hk, ih hl hj]

variable {V D : Type} [Vertex V] {r : Roster V D} {f : V}

theorem mark_of_mem (hr : (r.facilities.map Facility.vertex).Nodup)
    (hf : f ∈ r.facilities.map Facility.vertex) (isChosen : Bool) :
    r.mark f isChosen =
      ⟨.ok (), { r with facilities := r.facilities.map (Facility.remark f isChosen) }⟩ := by
  unfold mark
  cases hfound : r.facilities.findIdx? fun entry => decide (entry.vertex = f) with
  | none =>
    obtain ⟨entry, hentry, hv⟩ := List.mem_map.mp hf
    have hmiss := List.findIdx?_eq_none_iff.mp hfound entry hentry
    simp [hv] at hmiss
  | some i =>
    simp only [modify_findIdx? hr hfound]
    rfl

theorem markOpen_of_mem (hr : (r.facilities.map Facility.vertex).Nodup)
    (hf : f ∈ r.facilities.map Facility.vertex) :
    r.markOpen f = ⟨.ok (), { r with
      facilities := r.facilities.map (Facility.remark f true), idle := r.idle.erase f }⟩ := by
  unfold markOpen
  rw [mark_of_mem hr hf]

theorem markClosed_of_mem (hr : (r.facilities.map Facility.vertex).Nodup)
    (hf : f ∈ r.facilities.map Facility.vertex) :
    r.markClosed f = ⟨.ok (), { r with
      facilities := r.facilities.map (Facility.remark f false), idle := r.idle.insert f }⟩ := by
  unfold markClosed
  rw [mark_of_mem hr hf]

/-! ## Updates -/

/-- The roster with an update entered in its list and in its set. -/
def entered (r : Roster V D) (u : Update V) : Roster V D :=
  { r with facilities := r.facilities.map (Facility.entered u), idle := u.unchosenAfter r.idle }

@[simp] theorem vertices_entered (r : Roster V D) (u : Update V) :
    (r.entered u).facilities.map Facility.vertex = r.facilities.map Facility.vertex := by
  simp [entered, Function.comp_def]

theorem enter_of_mem {u : Update V} {α : Type} (hr : (r.facilities.map Facility.vertex).Nodup)
    (hu : ∀ f ∈ u.facilities, f ∈ r.facilities.map Facility.vertex) (change : α) :
    ((r.enterOpened u).andThen fun _ r => (r.enterClosed u).andThen fun _ r =>
      pure ⟨.ok change, r⟩) = (.ok ⟨.ok change, r.entered u⟩ : Checked (Attempt V _ α)) := by
  cases u with
  | opening f =>
    simp only [enterOpened, enterClosed, Update.opened?, Update.closed?]
    rw [markOpen_of_mem hr (hu f (by simp [Update.facilities, Update.opened?]))]
    rfl
  | closing f =>
    simp only [enterOpened, enterClosed, Update.opened?, Update.closed?]
    rw [Attempt.andThen, markClosed_of_mem hr (hu f (by simp [Update.facilities, Update.closed?]))]
    rfl
  | exchange closed opened =>
    have hopened := hu opened (by simp [Update.facilities, Update.opened?])
    have hclosed := hu closed (by simp [Update.facilities, Update.closed?])
    -- The first mark changes no vertex, so the second facility is still listed.
    have hkeep : (r.facilities.map (Facility.remark opened true)).map Facility.vertex =
        r.facilities.map Facility.vertex := by
      simp [Function.comp_def]
    simp only [enterOpened, enterClosed, Update.opened?, Update.closed?]
    rw [markOpen_of_mem hr hopened, Attempt.andThen,
      markClosed_of_mem (by rw [hkeep]; exact hr) (by rw [hkeep]; exact hclosed)]
    simp only [Attempt.andThen, List.map_map]
    rfl

/-- The list has every facility of the plan once, with the right mark, and the set has the closed
ones. -/
structure Agrees (r : Roster V D) : Prop where
  idle_eq : r.idle = r.plan.unchosen
  nodup : (r.facilities.map Facility.vertex).Nodup
  listed : ∀ f, f ∈ r.facilities.map Facility.vertex ↔ f ∈ r.plan.chosen ∨ f ∈ r.plan.unchosen
  marked : ∀ entry ∈ r.facilities, entry.isChosen = true ↔ entry.vertex ∈ r.plan.chosen

theorem vertices_ofPlan (plan : Plan V D) :
    (ofPlan plan).facilities.map Facility.vertex = plan.chosen.toList ++ plan.unchosen.toList := by
  simp [ofPlan, Function.comp_def]

theorem agrees_ofPlan {plan : Plan V D} (h : ∀ f ∈ plan.chosen, f ∉ plan.unchosen) :
    (ofPlan plan).Agrees := by
  refine ⟨rfl, ?_, fun f => ?_, fun entry hentry => ?_⟩
  · rw [vertices_ofPlan]
    refine List.nodup_append.mpr ⟨plan.chosen.nodup, plan.unchosen.nodup, fun f hf g hg hfg => ?_⟩
    subst hfg
    exact h f hf hg
  · rw [vertices_ofPlan, List.mem_append]
    rfl
  · rcases List.mem_append.mp hentry with hchosen | hunchosen
    · obtain ⟨f, hf, rfl⟩ := List.mem_map.mp hchosen
      exact iff_of_true rfl hf
    · obtain ⟨f, hf, rfl⟩ := List.mem_map.mp hunchosen
      exact iff_of_false Bool.false_ne_true fun hold => h f hold hf

theorem Agrees.listed_of_legal {u : Update V} (hr : r.Agrees)
    (hu : u.Legal r.plan.chosen r.plan.unchosen) :
    ∀ f ∈ u.facilities, f ∈ r.facilities.map Facility.vertex := by
  intro f hf
  rw [hr.listed]
  cases u with
  | opening g =>
    obtain rfl : f = g := by simpa [Update.facilities, Update.opened?, Update.closed?] using hf
    exact .inr hu
  | closing g =>
    obtain rfl : f = g := by simpa [Update.facilities, Update.opened?, Update.closed?] using hf
    exact .inl hu
  | exchange closed opened =>
    obtain ⟨hclosed, hopened⟩ : closed ∈ r.plan.chosen ∧ opened ∈ r.plan.unchosen := hu
    simp only [Update.facilities, Update.opened?, Update.closed?, Option.toList_some,
      List.singleton_append, List.mem_cons, List.not_mem_nil, or_false] at hf
    rcases hf with rfl | rfl
    · exact .inr hopened
    · exact .inl hclosed

section Updates

variable [Distance D] {problem : SitingProblem V D} {clients : List V} {u : Update V}
  {b : Attempt V (Roster V D) D}

/-- An update that the plan refuses leaves the roster alone. -/
theorem apply_of_requirement (problem : SitingProblem V D) {refusal : Refusal V}
    (h : r.plan.requirement u = .error refusal) : r.apply problem u = .ok ⟨.error refusal, r⟩ := by
  unfold apply
  rw [Plan.apply_of_requirement problem h]
  rfl

/-- An update that is not legal is refused, and leaves the roster alone. -/
theorem apply_refused (problem : SitingProblem V D)
    (hu : ¬ u.Legal r.plan.chosen r.plan.unchosen) :
    ∃ refusal, r.apply problem u = .ok ⟨.error refusal, r⟩ := by
  cases h : r.plan.requirement u with
  | ok _ => exact absurd (Plan.legal_of_requirement h) hu
  | error refusal => exact ⟨refusal, apply_of_requirement problem h⟩

/-- A legal update that the plan makes is entered in the roster. -/
theorem apply_of_made (hr : r.Agrees) (hu : u.Legal r.plan.chosen r.plan.unchosen) {change : D}
    {plan : Plan V D} (h : r.plan.apply problem u = .ok ⟨.ok change, plan⟩) :
    r.apply problem u = .ok ⟨.ok change, { r.entered u with plan }⟩ := by
  unfold apply
  rw [h]
  exact enter_of_mem (r := { r with plan }) hr.nodup (hr.listed_of_legal hu) change

/-- A legal update is made in the plan and entered in the roster. -/
theorem apply_of_legal (hr : r.Agrees) (hu : u.Legal r.plan.chosen r.plan.unchosen)
    (h : r.apply problem u = .ok b) :
    ∃ change plan, r.plan.apply problem u = .ok ⟨.ok change, plan⟩ ∧
      b = ⟨.ok change, { r.entered u with plan }⟩ := by
  obtain ⟨a, ha, -⟩ := Checked.bind_ok_iff.mp (show (r.plan.apply problem u >>= _) = _ from h)
  obtain ⟨change, hchange, -⟩ := Plan.apply_of_legal hu ha
  obtain ⟨outcome, plan⟩ := a
  obtain rfl : outcome = .ok change := hchange
  cases (apply_of_made hr hu ha).symm.trans h
  exact ⟨change, plan, ha, rfl⟩

theorem Agrees.apply (hr : r.Agrees) (h : r.apply problem u = .ok b) : b.state.Agrees := by
  by_cases hu : u.Legal r.plan.chosen r.plan.unchosen
  · obtain ⟨change, plan, hplan, rfl⟩ := apply_of_legal hr hu h
    obtain ⟨-, -, hupdated⟩ := Plan.apply_of_legal hu hplan
    have hchosen : plan.chosen = u.chosenAfter r.plan.chosen := hupdated.chosen_eq
    have hunchosen : plan.unchosen = u.unchosenAfter r.plan.unchosen := hupdated.unchosen_eq
    refine ⟨?_, ?_, fun f => ?_, fun entry hentry => ?_⟩
    · show u.unchosenAfter r.idle = plan.unchosen
      rw [hr.idle_eq, hunchosen]
    · show ((r.entered u).facilities.map Facility.vertex).Nodup
      rw [vertices_entered]
      exact hr.nodup
    · show f ∈ (r.entered u).facilities.map Facility.vertex ↔ f ∈ plan.chosen ∨ f ∈ plan.unchosen
      rw [vertices_entered, hchosen, hunchosen, hu.mem_after, hr.listed]
    · show entry.isChosen = true ↔ entry.vertex ∈ plan.chosen
      obtain ⟨old, hold, rfl⟩ := List.mem_map.mp hentry
      rw [hchosen, Facility.vertex_entered]
      exact Facility.isChosen_entered (hr.marked old hold)
  · obtain ⟨refusal, hrefusal⟩ := apply_refused problem hu
    rw [hrefusal] at h
    cases h
    exact hr

/-! ## Histories -/

theorem openFacility_eq_apply (problem : SitingProblem V D) (r : Roster V D) (f : V) :
    r.openFacility problem f = r.apply problem (.opening f) := rfl

theorem closeFacility_eq_apply (problem : SitingProblem V D) (r : Roster V D) (f : V) :
    r.closeFacility problem f = r.apply problem (.closing f) := rfl

/-- The rosters that a history over a list of clients leads to: one of a plan, and what any
attempts to change it leave. -/
inductive Reachable (problem : SitingProblem V D) (clients : List V) : Roster V D → Prop where
  | listed {plan : Plan V D} :
    Plan.Reachable problem clients plan → Reachable problem clients (ofPlan plan)
  | opened {r : Roster V D} {f : V} {a : Attempt V (Roster V D) D} :
    Reachable problem clients r → r.openFacility problem f = .ok a →
    Reachable problem clients a.state
  | closed {r : Roster V D} {f : V} {a : Attempt V (Roster V D) D} :
    Reachable problem clients r → r.closeFacility problem f = .ok a →
    Reachable problem clients a.state
  | applied {r : Roster V D} {u : Update V} {a : Attempt V (Roster V D) D} :
    Reachable problem clients r → r.apply problem u = .ok a → Reachable problem clients a.state

/-- A roster that agrees with a sound plan. -/
structure Sound (problem : SitingProblem V D) (clients : List V) (r : Roster V D) : Prop where
  plan : r.plan.Sound problem clients
  agrees : r.Agrees

theorem Sound.apply (hr : r.Sound problem clients) (h : r.apply problem u = .ok b) :
    b.state.Sound problem clients := by
  refine ⟨?_, hr.agrees.apply h⟩
  by_cases hu : u.Legal r.plan.chosen r.plan.unchosen
  · obtain ⟨change, plan, hplan, rfl⟩ := apply_of_legal hr.agrees hu h
    exact hr.plan.apply hplan
  · obtain ⟨refusal, hrefusal⟩ := apply_refused problem hu
    rw [hrefusal] at h
    cases h
    exact hr.plan

theorem Reachable.sound (h : Reachable problem clients r) : r.Sound problem clients := by
  induction h with
  | listed hplan => exact ⟨hplan.sound, agrees_ofPlan hplan.sound.disjoint⟩
  | @opened r f a _ h ih =>
    rw [openFacility_eq_apply] at h
    exact ih.apply h
  | @closed r f a _ h ih =>
    rw [closeFacility_eq_apply] at h
    exact ih.apply h
  | applied _ h ih => exact ih.apply h

/-- No attempt to change a roster adds a facility or loses one. -/
theorem Sound.mem_apply (hr : r.Sound problem clients) (h : r.apply problem u = .ok b) (f : V) :
    f ∈ b.state.plan.chosen ∨ f ∈ b.state.plan.unchosen ↔
      f ∈ r.plan.chosen ∨ f ∈ r.plan.unchosen := by
  by_cases hu : u.Legal r.plan.chosen r.plan.unchosen
  · obtain ⟨change, plan, hplan, rfl⟩ := apply_of_legal hr.agrees hu h
    exact Plan.mem_apply hplan f
  · obtain ⟨refusal, hrefusal⟩ := apply_refused problem hu
    rw [hrefusal] at h
    cases h
    exact Iff.rfl

end Updates

/-- Sites that cost one to open, with the distances of a slope. -/
def slopeSites : SitingProblem Int (Signed 64) :=
  { Voronoi.slope with openingCost := fun _ => ⟨1, by decide, by decide⟩ }

end Roster

end Descent
