import Descent.Proofs.Siting.Refusals

/-!
# The two sides of a plan

A plan is refused exactly when a facility is listed on both sides, and then for the lowest one.
Whatever is asked of a plan that was built, its open and its closed facilities stay apart and are
together those that it was built of. The requirements of a plan look at one side only, its service
at the other; since the sides stay apart, no call ever breaks a rule of the service.
-/

namespace Descent

open Checked (Ends)

namespace AscendingSet

variable {V : Type} [Vertex V] {s t : AscendingSet V} {f : V}

/-- Every member before another one of an ascending list is lower. -/
theorem lt_of_mem_before {before after : List V} (h : (before ++ f :: after).Pairwise (· < ·)) :
    (∀ g ∈ before, g < f) ∧ ∀ g ∈ after, f < g := by
  obtain ⟨-, hafter, hbefore⟩ := List.pairwise_append.mp h
  exact ⟨fun g hg => hbefore g hg f (by simp), (List.pairwise_cons.mp hafter).1⟩

theorem lowestCommon?_eq_some_iff :
    s.lowestCommon? t = some f ↔ f ∈ s ∧ f ∈ t ∧ ∀ g ∈ s, g ∈ t → ¬ g < f := by
  unfold lowestCommon?
  rw [List.find?_eq_some_iff_append]
  constructor
  · rintro ⟨hf, before, after, hs, hbefore⟩
    have hascending := s.ascending
    rw [hs] at hascending
    refine ⟨?_, of_decide_eq_true hf, ?_⟩
    · rw [mem_iff, hs]
      simp
    · intro g hg hgt hlt
      rw [mem_iff, hs, List.mem_append, List.mem_cons] at hg
      rcases hg with hg | rfl | hg
      · have hno := hbefore g hg
        simp [hgt] at hno
      · exact Vertex.lt_irrefl g hlt
      · exact Vertex.lt_asymm hlt ((lt_of_mem_before hascending).2 g hg)
  · rintro ⟨hfs, hft, hlowest⟩
    obtain ⟨before, after, hs⟩ := List.append_of_mem hfs
    have hascending := s.ascending
    rw [hs] at hascending
    refine ⟨decide_eq_true hft, before, after, hs, ?_⟩
    intro g hg
    have hgs : g ∈ s := by
      rw [mem_iff, hs]
      simp [hg]
    have hno : g ∉ t := fun hgt => hlowest g hgs hgt ((lt_of_mem_before hascending).1 g hg)
    simp [hno]

theorem lowestCommon?_eq_none_iff : s.lowestCommon? t = none ↔ ∀ f ∈ s, f ∉ t := by
  unfold lowestCommon?
  simp [List.find?_eq_none, mem_iff]

end AscendingSet

namespace Plan

variable {V D : Type} [Vertex V] [Distance D] {problem : SitingProblem V D}
  {chosen unchosen clients : List V} {p q : Plan V D}

/-! ## Building a plan -/

/-- A plan is refused for the lowest facility that is listed on both sides, and for nothing else. -/
theorem build_eq_refused_iff {refusal : Refusal V} :
    build problem chosen unchosen clients = .ok (.error refusal) ↔
      ∃ f, refusal = .overlapping f ∧ f ∈ chosen ∧ f ∈ unchosen ∧
        ∀ g ∈ chosen, g ∈ unchosen → ¬ g < f := by
  have hlowest (f : V) := AscendingSet.lowestCommon?_eq_some_iff (s := .ofList chosen)
    (t := .ofList unchosen) (f := f)
  simp only [AscendingSet.mem_ofList] at hlowest
  unfold build
  cases hcommon : (AscendingSet.ofList chosen).lowestCommon? (AscendingSet.ofList unchosen) with
  | some f =>
    have hf := (hlowest f).mp hcommon
    simp only [hcommon, Checked.pure_eq_ok, Except.ok.injEq, Except.error.injEq]
    constructor
    · rintro rfl
      exact ⟨f, rfl, hf⟩
    · rintro ⟨g, rfl, hg⟩
      rw [← hlowest, hcommon] at hg
      cases hg
      rfl
  | none =>
    simp only [hcommon]
    constructor
    · intro h
      obtain ⟨service, -, h⟩ := Checked.bind_ok_iff.mp h
      cases h
    · rintro ⟨f, -, hf⟩
      rw [← hlowest, hcommon] at hf
      cases hf

/-- A plan whose sides are apart is built of them, unless the metric or the arithmetic faults. -/
theorem build_ends (h : ∀ f ∈ chosen, f ∉ unchosen) :
    Ends (build problem chosen unchosen clients)
      (fun answer => ∃ p, answer = .ok p ∧ p.chosen = .ofList chosen ∧
        p.unchosen = .ofList unchosen) problem.MayFail := by
  have hcommon : (AscendingSet.ofList chosen).lowestCommon? (.ofList unchosen) = none := by
    rw [AscendingSet.lowestCommon?_eq_none_iff]
    simpa using h
  unfold build
  simp only [hcommon]
  have hservice : Ends (Voronoi.build problem.toSpace chosen clients) (fun _ => True)
      problem.MayFail := (Voronoi.build_ends chosen clients).weaken problem.mayFail_of_space
  refine hservice.bind fun service hbuilt _ => ?_
  exact ⟨_, rfl, (Voronoi.build_ok hbuilt).1, rfl⟩

/-! ## Calls -/

/-- What can be asked of a plan: to make a change, or to say what one would bring. -/
inductive Call (V : Type) where
  | opening (f : V)
  | closing (f : V)
  | applying (u : Update V)
  | askingOpening (f : V)
  | askingClosing (f : V)
  | askingExchange (closed opened : V)
  | asking (u : Update V)

/-- The plan that a call leaves, refused or not. -/
def call (problem : SitingProblem V D) (p : Plan V D) : Call V → Checked (Plan V D)
  | .opening f => do pure (← p.openFacility problem f).state
  | .closing f => do pure (← p.closeFacility problem f).state
  | .applying u => do pure (← p.apply problem u).state
  | .askingOpening f => do
    let _ ← p.openingDelta problem f
    pure p
  | .askingClosing f => do
    let _ ← p.closingDelta problem f
    pure p
  | .askingExchange closed opened => do
    let _ ← p.exchangeDelta problem closed opened
    pure p
  | .asking u => do
    let _ ← p.delta problem u
    pure p

/-- The plan that a sequence of calls leaves. -/
def calls (problem : SitingProblem V D) (p : Plan V D) (cs : List (Call V)) :
    Checked (Plan V D) :=
  cs.foldlM (call problem) p

/-- A plan that a sequence of calls to another one can lead to: it is sound, and over the same
facilities. -/
structure Continues (problem : SitingProblem V D) (clients : List V) (p q : Plan V D) : Prop where
  sound : q.Sound problem clients
  facilities : ∀ f, f ∈ q.chosen ∨ f ∈ q.unchosen ↔ f ∈ p.chosen ∨ f ∈ p.unchosen

/-- Every attempt to make an update ends, legal or not, and leads on. -/
theorem Continues.apply_ends (hq : Continues problem clients p q) (u : Update V) :
    Ends (q.apply problem u) (fun a => Continues problem clients p a.state) problem.MayFail := by
  have hends : Ends (q.apply problem u) (fun _ => True) problem.MayFail := by
    by_cases hu : u.Legal q.chosen q.unchosen
    · exact (hq.sound.apply_mayFail hu).mono fun _ _ _ => trivial
    · obtain ⟨refusal, hrefusal⟩ := apply_refused problem hu
      rw [hrefusal]
      trivial
  refine hends.mono fun a ha _ => ⟨hq.sound.apply ha, ?_⟩
  intro f
  rw [mem_apply ha, hq.facilities]

/-- Every question for the change of an update ends. -/
theorem Sound.delta_ends_any (hq : q.Sound problem clients) (u : Update V) :
    Ends (q.delta problem u) (fun _ => True) problem.MayFail := by
  cases hrequired : q.requirement u with
  | ok _ => exact (hq.delta_mayFail (legal_of_requirement hrequired)).mono fun _ _ _ => trivial
  | error reason =>
    rw [delta_of_requirement problem hrequired]
    trivial

/-- A call is an attempt to make an update, or a question for its change. -/
theorem call_eq (problem : SitingProblem V D) (p : Plan V D) (c : Call V) :
    ∃ u, p.call problem c = (do pure (← p.apply problem u).state) ∨
      p.call problem c = (do let _ ← p.delta problem u; pure p) := by
  cases c with
  | opening f => exact ⟨.opening f, .inl rfl⟩
  | closing f => exact ⟨.closing f, .inl rfl⟩
  | applying u => exact ⟨u, .inl rfl⟩
  | askingOpening f => exact ⟨.opening f, .inr rfl⟩
  | askingClosing f => exact ⟨.closing f, .inr rfl⟩
  | askingExchange closed opened => exact ⟨.exchange closed opened, .inr rfl⟩
  | asking u => exact ⟨u, .inr rfl⟩

theorem Continues.call_ends (hq : Continues problem clients p q) (c : Call V) :
    Ends (q.call problem c) (Continues problem clients p) problem.MayFail := by
  obtain ⟨u, hcall | hcall⟩ := call_eq problem q c
  · rw [hcall]
    exact (hq.apply_ends u).bind fun a _ ha => ha
  · rw [hcall]
    exact (hq.sound.delta_ends_any u).bind fun _ _ _ => hq

theorem Sound.calls_ends (hp : p.Sound problem clients) (cs : List (Call V)) :
    Ends (p.calls problem cs) (Continues problem clients p) problem.MayFail :=
  Ends.foldlM (I := fun _ q => Continues problem clients p q) ⟨hp, fun _ => Iff.rfl⟩
    fun c _ _ _ hq => hq.call_ends c

/-! ## The two sides -/

/-- A plan is refused exactly when the two lists meet, and names the lowest vertex that they share.
Otherwise it is built of them, and after any calls with any arguments the two sides are still apart
and still hold the facilities that were listed. All that can end a call is a fault of the metric or
of the arithmetic on distances. So if these break no rule of a caller, then no call opens an open
generator, closes a closed one or asks for the change that this would bring. -/
theorem sides_kept (problem : SitingProblem V D) (chosen unchosen clients : List V) :
    (∀ refusal, build problem chosen unchosen clients = .ok (.error refusal) ↔
      ∃ f, refusal = .overlapping f ∧ f ∈ chosen ∧ f ∈ unchosen ∧
        ∀ g ∈ chosen, g ∈ unchosen → ¬ g < f) ∧
      ((∃ refusal, build problem chosen unchosen clients = .ok (.error refusal)) ↔
        ∃ f ∈ chosen, f ∈ unchosen) ∧
      ((∀ f ∈ chosen, f ∉ unchosen) →
        Ends (build problem chosen unchosen clients)
          (fun answer => ∃ p, answer = .ok p ∧ (∀ f, f ∈ p.chosen ↔ f ∈ chosen) ∧
            (∀ f, f ∈ p.unchosen ↔ f ∈ unchosen) ∧
            ∀ cs, Ends (p.calls problem cs)
              (fun q => (∀ f ∈ q.chosen, f ∉ q.unchosen) ∧
                ∀ f, f ∈ q.chosen ∨ f ∈ q.unchosen ↔ f ∈ chosen ∨ f ∈ unchosen)
              problem.MayFail)
          problem.MayFail) ∧
      ((∀ e, problem.MayFail e → e.isPrecondition = false) →
        ∀ p cs e, build problem chosen unchosen clients = .ok (.ok p) →
          p.calls problem cs = .error e → e.isPrecondition = false) := by
  refine ⟨fun refusal => build_eq_refused_iff, ?_, ?_, ?_⟩
  · constructor
    · rintro ⟨refusal, hrefused⟩
      obtain ⟨f, -, hf, hf', -⟩ := build_eq_refused_iff.mp hrefused
      exact ⟨f, hf, hf'⟩
    · rintro ⟨f, hf, hf'⟩
      -- The lists share a vertex, so the search for the lowest shared one finds something.
      cases hcommon : (AscendingSet.ofList chosen).lowestCommon? (.ofList unchosen) with
      | none =>
        rw [AscendingSet.lowestCommon?_eq_none_iff] at hcommon
        exact absurd (AscendingSet.mem_ofList.mpr hf') (hcommon f (AscendingSet.mem_ofList.mpr hf))
      | some lowest =>
        rw [AscendingSet.lowestCommon?_eq_some_iff] at hcommon
        simp only [AscendingSet.mem_ofList] at hcommon
        exact ⟨_, build_eq_refused_iff.mpr ⟨lowest, rfl, hcommon⟩⟩
  · intro hapart
    refine (build_ends hapart).mono fun answer hbuilt hanswer => ?_
    obtain ⟨p, rfl, hchosen, hunchosen⟩ := hanswer
    refine ⟨p, rfl, ?_, ?_, ?_⟩
    · simp [hchosen]
    · simp [hunchosen]
    · intro cs
      refine ((Sound.of_build hbuilt).calls_ends cs).mono fun q _ hq => ⟨hq.sound.disjoint, ?_⟩
      simpa [hchosen, hunchosen] using hq.facilities
  · intro hrules p cs e hbuilt hfault
    exact hrules e (((Sound.of_build hbuilt).calls_ends cs).fault hfault)

/-- Two vertices are listed on both sides, in the other order. Then a plan that is opened where it
is open, exchanged, asked for a facility that it does not have, and closed down. -/
theorem sides_kept_slope :
    ∃ p q : Plan Int (Signed 64),
      build Roster.slopeSites [5, 3] [3, 1, 5] [4] = .ok (.error (.overlapping 3)) ∧
        build Roster.slopeSites [3, 1, 3] [0] [4, 2, 4] = .ok (.ok p) ∧
        p.calls Roster.slopeSites [.opening 3, .applying (.exchange 3 0), .askingExchange 1 7,
          .closing 0, .asking (.opening 3), .closing 1] = .ok q ∧
        q.chosen.toList = [] ∧ (∀ f ∈ q.chosen, f ∉ q.unchosen) ∧
        ∀ f, f ∈ q.chosen ∨ f ∈ q.unchosen ↔ f ∈ [3, 1, 3] ∨ f ∈ [0] := by
  have at_calls : ∀ p q : Plan Int (Signed 64),
      build Roster.slopeSites [3, 1, 3] [0] [4, 2, 4] = .ok (.ok p) →
      p.calls Roster.slopeSites [.opening 3, .applying (.exchange 3 0), .askingExchange 1 7,
        .closing 0, .asking (.opening 3), .closing 1] = .ok q →
      (∀ f ∈ q.chosen, f ∉ q.unchosen) ∧
        ∀ f, f ∈ q.chosen ∨ f ∈ q.unchosen ↔ f ∈ [3, 1, 3] ∨ f ∈ [0] := by
    intro p q hbuild hcalls
    obtain ⟨-, -, hkept, -⟩ := sides_kept Roster.slopeSites [3, 1, 3] [0] [4, 2, 4]
    obtain ⟨_, hsame, -, -, hcs⟩ := (hkept (by decide)).value hbuild
    cases hsame
    exact (hcs _).value hcalls
  have hmeet : build Roster.slopeSites [5, 3] [3, 1, 5] [4] = .ok (.error (.overlapping 3)) := by
    obtain ⟨hrefused, -⟩ := sides_kept Roster.slopeSites [5, 3] [3, 1, 5] [4]
    exact (hrefused _).mpr ⟨3, rfl, by decide⟩
  refine ⟨_, _, hmeet, rfl, rfl, rfl, ?_⟩
  exact at_calls _ _ rfl rfl

end Plan

end Descent
