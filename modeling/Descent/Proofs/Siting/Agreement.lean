import Descent.Proofs.Siting.Moves
import Descent.Proofs.Search.Pass

/-!
# Rosters and the searches over them

The history of a roster mixes attempts to change it with passes of searches, under any evaluator
and any stop rule. All along it the roster lists the facilities of the plan that it was made of,
in the order in which it first listed them, and the marks, the set of idle facilities and the
entries that it finds say the same as its plan: `history_agrees`.
-/

namespace Descent

namespace Roster

variable {V D : Type} [Vertex V] [Distance D] {problem : SitingProblem V D} {clients : List V}
  {plan : Plan V D} {r : Roster V D}

/-- The rosters that a history leads to from that of a plan, by attempts to change it, whether or
not they are refused, and by passes of searches over it, whether or not they commit a move. -/
inductive History (problem : SitingProblem V D) (plan : Plan V D) : Roster V D → Prop where
  | listed : History problem plan (ofPlan plan)
  | opened {r : Roster V D} {f : V} {a : Attempt V (Roster V D) D} :
    History problem plan r → r.openFacility problem f = .ok a → History problem plan a.state
  | closed {r : Roster V D} {f : V} {a : Attempt V (Roster V D) D} :
    History problem plan r → r.closeFacility problem f = .ok a → History problem plan a.state
  | applied {r : Roster V D} {u : Update V} {a : Attempt V (Roster V D) D} :
    History problem plan r → r.apply problem u = .ok a → History problem plan a.state
  | searched {σ τ G : Type} [Gain G] {r : Roster V D} {kinds : MoveKinds}
    {evaluator : Evaluator σ (Roster V D) (Facility V) (Update V) G}
    {stop : StopRule τ (Roster V D) (Facility V) (Update V)} {config : SearchConfig}
    {memory : σ} {t : τ} {pass : Pass σ τ (Roster V D) (Facility V) (Update V)} :
    History problem plan r →
    (engine problem kinds evaluator stop config).search ⟨r, memory, t⟩ = .ok pass →
    History problem plan pass.state.solution

/-- What every attempt to make an update keeps, a history keeps: a search changes a roster by
such attempts alone. -/
theorem History.keeps {I : Roster V D → Prop}
    (kept : ∀ r u a, I r → r.apply problem u = .ok a → I a.state) (hstart : I (ofPlan plan))
    (h : History problem plan r) : I r := by
  induction h with
  | listed => exact hstart
  | @opened r f a _ h ih => exact kept r (.opening f) a ih h
  | @closed r f a _ h ih => exact kept r (.closing f) a ih h
  | @applied r u a _ h ih => exact kept r u a ih h
  | @searched σ τ G _ r kinds evaluator stop config memory t pass _ h ih =>
    refine Engine.search_keeps (fun s hs _ _ u _ _ s' hcommit => ?_) ih h
    obtain ⟨a, ha, rfl, -⟩ := commit_eq_ok hcommit
    exact kept s u a hs ha

/-- A history over a plan that can be reached goes through rosters that can. -/
theorem History.reachable (hplan : Plan.Reachable problem clients plan)
    (h : History problem plan r) : Reachable problem clients r :=
  h.keeps (fun _ _ _ hr ha => hr.applied ha) (.listed hplan)

/-- An attempt to make an update moves no entry of the list. -/
theorem Agrees.vertices_apply {u : Update V} {a : Attempt V (Roster V D) D} (hr : r.Agrees)
    (h : r.apply problem u = .ok a) :
    a.state.facilities.map Facility.vertex = r.facilities.map Facility.vertex := by
  by_cases hu : u.Legal r.plan.chosen r.plan.unchosen
  · obtain ⟨change, plan, -, rfl⟩ := apply_of_legal hr hu h
    exact r.vertices_entered u
  · obtain ⟨refusal, hrefusal⟩ := apply_refused problem hu
    rw [hrefusal] at h
    cases h
    rfl

theorem History.vertices (hplan : Plan.Reachable problem clients plan)
    (h : History problem plan r) :
    r.facilities.map Facility.vertex = plan.chosen.toList ++ plan.unchosen.toList := by
  -- The agreement goes along, since it makes sure that no mark adds or drops an entry.
  have hboth : r.Agrees ∧
      r.facilities.map Facility.vertex = plan.chosen.toList ++ plan.unchosen.toList := by
    refine h.keeps (I := fun s => s.Agrees ∧
      s.facilities.map Facility.vertex = plan.chosen.toList ++ plan.unchosen.toList) ?_ ?_
    · rintro s u a ⟨hagrees, hvertices⟩ ha
      exact ⟨hagrees.apply ha, (hagrees.vertices_apply ha).trans hvertices⟩
    · exact ⟨agrees_ofPlan hplan.sound.disjoint, vertices_ofPlan plan⟩
  exact hboth.2

section Entries

omit [Distance D]

theorem Agrees.isChosen_eq (hr : r.Agrees) {entry : Facility V} (hentry : entry ∈ r.facilities) :
    entry.isChosen = decide (entry.vertex ∈ r.plan.chosen) := by
  rw [Bool.eq_iff_iff, decide_eq_true_iff]
  exact hr.marked entry hentry

/-- A roster finds the entry of its list that has the facility. -/
theorem Agrees.get?_eq_some_iff (hr : r.Agrees) {f : V} {entry : Facility V} :
    r.get? f = some entry ↔ entry ∈ r.facilities ∧ entry.vertex = f := by
  constructor
  · intro h
    have hvertex := List.find?_some h
    exact ⟨List.mem_of_find?_eq_some h, of_decide_eq_true hvertex⟩
  · rintro ⟨hentry, rfl⟩
    unfold get?
    cases hfound : r.facilities.find? fun other => decide (other.vertex = entry.vertex) with
    | none =>
      have hmiss := List.find?_eq_none.mp hfound entry hentry
      simp at hmiss
    | some other =>
      -- No vertex comes twice, so the entry that is found first is the only one.
      have hsame := List.find?_some hfound
      have hother := List.mem_of_find?_eq_some hfound
      rw [List.inj_on_of_nodup_map hr.nodup hother hentry (of_decide_eq_true hsame)]

/-- A roster finds an entry for the facilities of its plan and for nothing else. -/
theorem Agrees.exists_get?_iff (hr : r.Agrees) (f : V) :
    (∃ entry, r.get? f = some entry) ↔ f ∈ r.plan.chosen ∨ f ∈ r.plan.unchosen := by
  rw [← hr.listed f, List.mem_map]
  exact exists_congr fun entry => hr.get?_eq_some_iff

end Entries

/-- Along any history over a plan that can be reached, the roster keeps the length and the order
of its list, which has every facility once; the marks and the set of idle facilities are those of
its plan; and it finds the entry of every facility that the plan started with, and no other. -/
theorem history_agrees (hplan : Plan.Reachable problem clients plan)
    (h : History problem plan r) :
    r.facilities.length = (ofPlan plan).facilities.length ∧
      r.facilities.map Facility.vertex = plan.chosen.toList ++ plan.unchosen.toList ∧
      (r.facilities.map Facility.vertex).Nodup ∧
      (∀ entry ∈ r.facilities, entry.isChosen = decide (entry.vertex ∈ r.plan.chosen)) ∧
      r.idle = r.plan.unchosen ∧
      (∀ f entry, r.get? f = some entry ↔ entry ∈ r.facilities ∧ entry.vertex = f) ∧
      (∀ f, (∃ entry, r.get? f = some entry) ↔ f ∈ plan.chosen ∨ f ∈ plan.unchosen) ∧
      ∀ f, f ∈ r.plan.chosen ∨ f ∈ r.plan.unchosen ↔ f ∈ plan.chosen ∨ f ∈ plan.unchosen := by
  have hagrees := (h.reachable hplan).sound.agrees
  have hvertices := h.vertices hplan
  have hfacilities : ∀ f, f ∈ r.plan.chosen ∨ f ∈ r.plan.unchosen ↔
      f ∈ plan.chosen ∨ f ∈ plan.unchosen := by
    intro f
    rw [← hagrees.listed f, hvertices, List.mem_append]
    rfl
  refine ⟨?_, hvertices, hagrees.nodup, fun entry hentry => hagrees.isChosen_eq hentry,
    hagrees.idle_eq, fun f entry => hagrees.get?_eq_some_iff,
    fun f => (hagrees.exists_get?_iff f).trans (hfacilities f), hfacilities⟩
  have hlength := congrArg List.length (hvertices.trans (vertices_ofPlan plan).symm)
  simpa using hlength

/-- A pass of a search opens a facility, an exchange by hand closes the first one, and to close
that one again is refused. -/
theorem history_agrees_slope :
    ∃ (plan : Plan Int (Signed 64)) (pass : Pass Unit Unit _ _ _)
      (a b : Attempt Int (Roster Int (Signed 64)) (Signed 64)),
      Plan.build slopeSites [3] [0, 5] [4, 2, 1, 7, 4] = .ok (.ok plan) ∧
        (engine slopeSites .all (savings slopeSites) (.never : StopRule Unit _ _ _) {}).search
          ⟨ofPlan plan, (), ()⟩ = .ok pass ∧
        pass.improved = true ∧
        pass.state.solution.apply slopeSites (.exchange 3 5) = .ok a ∧
        a.state.closeFacility slopeSites 3 = .ok b ∧ b.outcome = .error (.notChosen 3) ∧
        b.state.facilities.map Facility.vertex = plan.chosen.toList ++ plan.unchosen.toList ∧
        b.state.idle = b.state.plan.unchosen ∧ ∃ entry, b.state.get? 3 = some entry := by
  have at_history : ∀ (plan : Plan Int (Signed 64)) (pass : Pass Unit Unit _ _ _)
      (a b : Attempt Int (Roster Int (Signed 64)) (Signed 64)),
      Plan.build slopeSites [3] [0, 5] [4, 2, 1, 7, 4] = .ok (.ok plan) →
      (engine slopeSites .all (savings slopeSites) (.never : StopRule Unit _ _ _) {}).search
        ⟨ofPlan plan, (), ()⟩ = .ok pass →
      pass.state.solution.apply slopeSites (.exchange 3 5) = .ok a →
      a.state.closeFacility slopeSites 3 = .ok b → 3 ∈ plan.chosen →
      b.state.facilities.map Facility.vertex = plan.chosen.toList ++ plan.unchosen.toList ∧
        b.state.idle = b.state.plan.unchosen ∧ ∃ entry, b.state.get? 3 = some entry := by
    intro plan pass a b hbuild hpass ha hb h3
    have hhistory : History slopeSites plan b.state :=
      .closed (.applied (.searched .listed hpass) ha) hb
    obtain ⟨-, hvertices, -, -, hidle, -, hfound, -⟩ := history_agrees (.built hbuild) hhistory
    exact ⟨hvertices, hidle, (hfound 3).mpr (.inl h3)⟩
  refine ⟨_, _, _, _, rfl, rfl, rfl, rfl, rfl, rfl, ?_⟩
  exact at_history _ _ _ _ rfl rfl rfl rfl (by decide)

end Roster

end Descent
