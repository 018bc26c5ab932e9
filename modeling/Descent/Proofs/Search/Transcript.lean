import Descent.Proofs.Search.Pass

/-!
# What a transcript tells

A transcript names elements and moves, but neither the solutions on the way nor the calls to the
evaluator. Both follow from it. `Told` reads a transcript event by event: where it stands, which
calls the evaluator gets, and what the commits make of the solution. Every run that ended is told
by its transcript, and its evaluator has answered these calls and no others: `runWithin_told`.
-/

namespace Descent

/-- A call to an evaluator, with the solution that it is handed. -/
inductive Call (S E M : Type) where
  | score (solution : S) (element : E) (move : M)
  | notice (solution : S) (element : E) (move : M)

/-- The move that an evaluator is told of, if a call tells it of one. -/
def Call.noticed? {S E M : Type} : Call S E M → Option (E × M)
  | .score _ _ _ => none
  | .notice _ e m => some (e, m)

/-- The move that a solution has accepted, if an event says so. -/
def Event.accepted? {S E M : Type} : Event S E M → Option (E × M)
  | .committed e m true => some (e, m)
  | _ => none

/-- Whether an event is a look at a move, which changes nothing. -/
def Event.isLook {S E M : Type} : Event S E M → Bool
  | .scored _ _ => true
  | .asked _ _ => true
  | _ => false

/-- Whether an event is a commit. -/
def Event.isCommit {S E M : Type} : Event S E M → Bool
  | .committed _ _ _ => true
  | _ => false

theorem Event.isCommit_of_isLook {S E M : Type} {event : Event S E M}
    (h : event.isLook = true) : event.isCommit = false := by
  cases event with
  | committed => cases h
  | _ => rfl

theorem Event.accepted?_of_isLook {S E M : Type} {events : List (Event S E M)}
    (h : ∀ event ∈ events, event.isLook = true) : events.filterMap Event.accepted? = [] := by
  rw [List.filterMap_eq_nil_iff]
  intro event hevent
  have hlook := h event hevent
  cases event with
  | committed => cases hlook
  | _ => rfl

/-- Where a transcript says that a move was accepted, after others. -/
theorem Event.exists_accepted {S E M : Type} {events : List (Event S E M)} {e : E} {m : M}
    (earlier : List (E × M)) {later : List (E × M)}
    (h : events.filterMap Event.accepted? = earlier ++ (e, m) :: later) :
    ∃ before after, events = before ++ .committed e m true :: after ∧
      before.filterMap Event.accepted? = earlier := by
  obtain ⟨first, second, rfl, hfirst, hsecond⟩ := List.filterMap_eq_append_iff.mp h
  obtain ⟨rest, event, after, rfl, hrest, hevent, -⟩ := List.filterMap_eq_cons_iff.mp hsecond
  refine ⟨first ++ rest, after, ?_, ?_⟩
  · rw [List.append_assoc]
    match event, hevent with
    | .committed _ _ true, rfl => rfl
  · rw [List.filterMap_append, hfirst, List.filterMap_eq_nil_iff.mpr hrest, List.append_nil]

/-! ## Calls -/

namespace Evaluator

variable {σ S E M G : Type} {evaluator : Evaluator σ S E M G}

/-- Calls that an evaluator answers one after the other, with its memory before and after. -/
inductive Answers (evaluator : Evaluator σ S E M G) : σ → List (Call S E M) → σ → Prop where
  | silent {memory : σ} : Answers evaluator memory [] memory
  | score {memory memory' last : σ} {s : S} {e : E} {m : M} {g : G} {calls : List (Call S E M)} :
    evaluator.score memory s e m = .ok (g, memory') → Answers evaluator memory' calls last →
    Answers evaluator memory (.score s e m :: calls) last
  | notice {memory memory' last : σ} {s : S} {e : E} {m : M} {calls : List (Call S E M)} :
    evaluator.notice memory s e m = .ok memory' → Answers evaluator memory' calls last →
    Answers evaluator memory (.notice s e m :: calls) last

theorem Answers.append {memory middle last : σ} {calls later : List (Call S E M)}
    (h : evaluator.Answers memory calls middle) (hlater : evaluator.Answers middle later last) :
    evaluator.Answers memory (calls ++ later) last := by
  induction h with
  | silent => exact hlater
  | score hscore _ ih => exact .score hscore (ih hlater)
  | notice hnotice _ ih => exact .notice hnotice (ih hlater)

end Evaluator

/-! ## Places -/

/-- Where a transcript stands: the solution, the number of elements that the pass is to go over and
of those that it has come to, and the element around which it is looking. -/
structure Place (S E : Type) where
  solution : S
  count : Nat
  visited : Nat
  element : Option E

namespace Engine

variable {σ τ S E M G : Type} {engine : Engine σ τ S E M G}

/-- The start of a pass. -/
def opening (engine : Engine σ τ S E M G) (s : S) : Place S E :=
  ⟨s, (engine.elements s).length, 0, none⟩

/-- A transcript from one place to another, with the calls to the evaluator on the way. The pass
comes to its elements in their order. It looks at moves around the last one, and leaves it at the
latest when it commits one of them. The evaluator is told of an accepted move, with the solution as
the commit left it, and a new pass begins; of a rejected one it is not told. -/
inductive Told (engine : Engine σ τ S E M G) :
    Place S E → List (Event S E M) → List (Call S E M) → Place S E → Prop where
  | stay {p : Place S E} : Told engine p [] [] p
  | listed {p last : Place S E} {e : E} {events : List (Event S E M)} {calls : List (Call S E M)} :
    p.visited < p.count → (engine.elements p.solution)[p.visited]? = some e →
    Told engine { p with visited := p.visited + 1, element := some e } events calls last →
    Told engine p (.listed p.solution e :: events) calls last
  | scored {p last : Place S E} {e : E} {m : M} {events : List (Event S E M)}
    {calls : List (Call S E M)} :
    p.element = some e → m ∈ engine.neighborhood p.solution e → Told engine p events calls last →
    Told engine p (.scored e m :: events) (.score p.solution e m :: calls) last
  | asked {p last : Place S E} {e : E} {m : M} {events : List (Event S E M)}
    {calls : List (Call S E M)} :
    p.element = some e → m ∈ engine.neighborhood p.solution e → Told engine p events calls last →
    Told engine p (.asked e m :: events) calls last
  | rejected {p last : Place S E} {e : E} {m : M} {s : S} {events : List (Event S E M)}
    {calls : List (Call S E M)} :
    p.element = some e → m ∈ engine.neighborhood p.solution e →
    engine.commit p.solution e m = .ok (false, s) →
    Told engine { p with solution := s, element := none } events calls last →
    Told engine p (.committed e m false :: events) calls last
  | accepted {p last : Place S E} {e : E} {m : M} {s : S} {events : List (Event S E M)}
    {calls : List (Call S E M)} :
    p.element = some e → m ∈ engine.neighborhood p.solution e →
    engine.commit p.solution e m = .ok (true, s) →
    Told engine (engine.opening s) events calls last →
    Told engine p (.committed e m true :: .noticed e m :: events) (.notice s e m :: calls) last

variable {p middle last : Place S E} {events later : List (Event S E M)}
  {calls calls' : List (Call S E M)}

theorem Told.append (h : engine.Told p events calls middle)
    (hlater : engine.Told middle later calls' last) :
    engine.Told p (events ++ later) (calls ++ calls') last := by
  induction h with
  | stay => exact hlater
  | listed hcount he _ ih => exact .listed hcount he (ih hlater)
  | scored he hm _ ih => exact .scored he hm (ih hlater)
  | asked he hm _ ih => exact .asked he hm (ih hlater)
  | rejected he hm hcommit _ ih => exact .rejected he hm hcommit (ih hlater)
  | accepted he hm hcommit _ ih => exact .accepted he hm hcommit (ih hlater)

/-- A transcript is told in two parts, of which the second one begins with a commit. -/
theorem Told.split {e : E} {m : M} {accepted : Bool}
    (h : engine.Told p (events ++ .committed e m accepted :: later) calls last) :
    ∃ first second middle, calls = first ++ second ∧ engine.Told p events first middle ∧
      engine.Told middle (.committed e m accepted :: later) second last := by
  generalize hall : events ++ .committed e m accepted :: later = all at h
  induction h generalizing events with
  | stay => simp at hall
  | listed hcount he _ ih =>
    cases events with
    | nil => cases hall
    | cons event events =>
      cases hall
      obtain ⟨first, second, middle, rfl, hfirst, hsecond⟩ := ih rfl
      exact ⟨first, second, middle, rfl, .listed hcount he hfirst, hsecond⟩
  | scored he hm _ ih =>
    cases events with
    | nil => cases hall
    | cons event events =>
      cases hall
      obtain ⟨first, second, middle, rfl, hfirst, hsecond⟩ := ih rfl
      exact ⟨_, second, middle, rfl, .scored he hm hfirst, hsecond⟩
  | asked he hm _ ih =>
    cases events with
    | nil => cases hall
    | cons event events =>
      cases hall
      obtain ⟨first, second, middle, rfl, hfirst, hsecond⟩ := ih rfl
      exact ⟨first, second, middle, rfl, .asked he hm hfirst, hsecond⟩
  | rejected he hm hcommit htold ih =>
    cases events with
    | nil =>
      cases hall
      exact ⟨[], _, _, rfl, .stay, .rejected he hm hcommit htold⟩
    | cons event events =>
      cases hall
      obtain ⟨first, second, middle, rfl, hfirst, hsecond⟩ := ih rfl
      exact ⟨first, second, middle, rfl, .rejected he hm hcommit hfirst, hsecond⟩
  | accepted he hm hcommit htold ih =>
    -- An acceptance is one step of two events, which no other commit comes between.
    match events with
    | [] =>
      cases hall
      exact ⟨[], _, _, rfl, .stay, .accepted he hm hcommit htold⟩
    | [event] => cases hall
    | event :: event' :: events =>
      cases hall
      obtain ⟨first, second, middle, rfl, hfirst, hsecond⟩ := ih rfl
      exact ⟨_, second, middle, rfl, .accepted he hm hcommit hfirst, hsecond⟩

/-- The evaluator is told of the accepted moves, each of them once and in their order. -/
theorem Told.noticed_eq (h : engine.Told p events calls last) :
    calls.filterMap Call.noticed? = events.filterMap Event.accepted? := by
  induction h with
  | stay => rfl
  | listed _ _ _ ih => exact ih
  | scored _ _ _ ih => exact ih
  | asked _ _ _ ih => exact ih
  | rejected _ _ _ _ ih => exact ih
  | accepted _ _ _ _ ih => exact congrArg (List.cons _) ih

/-- A pass that is looking around an element has come to one. -/
theorem Told.visited_pos (h : engine.Told p events calls last)
    (hp : p.element.isSome → 0 < p.visited) : last.element.isSome → 0 < last.visited := by
  induction h with
  | stay => exact hp
  | listed _ _ _ ih => exact ih fun _ => Nat.succ_pos _
  | scored _ _ _ ih => exact ih hp
  | asked _ _ _ ih => exact ih hp
  | rejected _ _ _ _ ih => exact ih fun hnone => by cases hnone
  | accepted _ _ _ _ ih => exact ih fun hnone => by cases hnone

/-- Every move that is committed lies around an element of a solution that the pass came to. -/
theorem Told.generated {e : E} {m : M} {accepted : Bool}
    (h : engine.Told p events calls last) (hevent : .committed e m accepted ∈ events) :
    ∃ s r, m ∈ engine.neighborhood s e ∧ engine.commit s e m = .ok (accepted, r) := by
  induction h with
  | stay => cases hevent
  | listed _ _ _ ih => exact ih (by simpa using hevent)
  | scored _ _ _ ih => exact ih (by simpa using hevent)
  | asked _ _ _ ih => exact ih (by simpa using hevent)
  | rejected _ hm hcommit _ ih =>
    rcases List.mem_cons.mp hevent with hsame | hlater
    · cases hsame
      exact ⟨_, _, hm, hcommit⟩
    · exact ih hlater
  | accepted _ hm hcommit _ ih =>
    rcases List.mem_cons.mp hevent with hsame | hlater
    · cases hsame
      exact ⟨_, _, hm, hcommit⟩
    · exact ih (by simpa using hlater)

/-- After a move that was rejected, the pass goes on with its next element, if there is one. -/
theorem Told.after_rejected {e : E} {m : M}
    (h : engine.Told p (.committed e m false :: later) calls last) :
    ∃ s, p.element = some e ∧ engine.commit p.solution e m = .ok (false, s) ∧
      engine.Told { p with solution := s, element := none } later calls last ∧
      (later = [] ∨ ∃ e' rest, later = .listed s e' :: rest ∧ p.visited < p.count ∧
        (engine.elements s)[p.visited]? = some e') := by
  cases h with
  | @rejected _ _ _ _ s _ _ he _ hcommit htold =>
    refine ⟨s, he, hcommit, htold, ?_⟩
    cases htold with
    | stay => exact .inl rfl
    | listed hcount he _ => exact .inr ⟨_, _, rfl, hcount, he⟩
    | scored he => cases he
    | asked he => cases he
    | rejected he => cases he
    | accepted he => cases he

/-- What a transcript tells, by calls that the evaluator has answered. -/
def Answered (engine : Engine σ τ S E M G) (p : Place S E) (memory : σ)
    (events : List (Event S E M)) (last : Place S E) (memory' : σ) : Prop :=
  ∃ calls, engine.Told p events calls last ∧ engine.evaluator.Answers memory calls memory'

variable {memory memory' memory'' : σ}

theorem Answered.append (h : engine.Answered p memory events middle memory')
    (hlater : engine.Answered middle memory' later last memory'') :
    engine.Answered p memory (events ++ later) last memory'' := by
  obtain ⟨calls, htold, hanswers⟩ := h
  obtain ⟨calls', htold', hanswers'⟩ := hlater
  exact ⟨calls ++ calls', htold.append htold', hanswers.append hanswers'⟩

/-! ## Commits -/

variable [Gain G]

/-- A commit that comes right after a scan in which the move was scored as an improvement. -/
structure Merited (engine : Engine σ τ S E M G) (p : Place S E) (memory : σ)
    (before : List (Event S E M)) (e : E) (m : M) (accepted : Bool) (q : Place S E) (memory' : σ) :
    Prop where
  answered : engine.Answered p memory before q memory'
  element : q.element = some e
  committed : ∃ s, engine.commit q.solution e m = .ok (accepted, s)
  scored : ∃ earlier looks g memory₁ memory₂, before = earlier ++ .scored e m :: looks ∧
    (∀ event ∈ looks, event.isLook = true) ∧ engine.Answered p memory earlier q memory₁ ∧
    engine.evaluator.score memory₁ q.solution e m = .ok (g, memory₂) ∧ Gain.improves g = true

theorem Merited.prepend {before : List (Event S E M)} {e : E} {m : M} {accepted : Bool}
    {q : Place S E} (hevents : engine.Answered p memory events middle memory')
    (h : engine.Merited middle memory' before e m accepted q memory'') :
    engine.Merited p memory (events ++ before) e m accepted q memory'' := by
  obtain ⟨hanswered, helement, hcommitted, hscored⟩ := h
  obtain ⟨earlier, looks, g, memory₁, memory₂, rfl, hlooks, hearlier, hscore, hg⟩ := hscored
  exact ⟨hevents.append hanswered, helement, hcommitted, events ++ earlier, looks, g, memory₁,
    memory₂, by rw [List.append_assoc], hlooks, hevents.append hearlier, hscore, hg⟩

/-- A transcript that is told by answered calls, and in which every commit is merited. -/
structure Transcribed (engine : Engine σ τ S E M G) (p : Place S E) (memory : σ)
    (events : List (Event S E M)) (last : Place S E) (memory' : σ) : Prop where
  answered : engine.Answered p memory events last memory'
  merited : ∀ before e m accepted after, events = before ++ .committed e m accepted :: after →
    ∃ q memory', engine.Merited p memory before e m accepted q memory'

theorem transcribed_nil (p : Place S E) (memory : σ) : engine.Transcribed p memory [] p memory :=
  ⟨⟨[], .stay, .silent⟩, fun _ _ _ _ _ h => by simp at h⟩

theorem Transcribed.append (h : engine.Transcribed p memory events middle memory')
    (hlater : engine.Transcribed middle memory' later last memory'') :
    engine.Transcribed p memory (events ++ later) last memory'' := by
  refine ⟨h.answered.append hlater.answered, fun before e m accepted after hsplit => ?_⟩
  rcases List.append_eq_append_iff.mp hsplit with ⟨rest, rfl, hrest⟩ | ⟨rest, hevents, hafter⟩
  · obtain ⟨q, memory₁, hmerited⟩ := hlater.merited rest e m accepted after hrest
    exact ⟨q, memory₁, hmerited.prepend h.answered⟩
  · -- The commit belongs to the first part, unless that part ends right before it.
    cases rest with
    | nil =>
      rw [List.append_nil] at hevents
      subst hevents
      obtain ⟨q, memory₁, hmerited⟩ := hlater.merited [] e m accepted after hafter.symm
      have hboth := hmerited.prepend h.answered
      rw [List.append_nil] at hboth
      exact ⟨q, memory₁, hboth⟩
    | cons event rest =>
      obtain ⟨rfl, -⟩ := List.cons.inj hafter
      exact h.merited before e m accepted rest hevents

theorem Answered.transcribed (h : engine.Answered p memory events last memory')
    (hno : ∀ event ∈ events, event.isCommit = false) :
    engine.Transcribed p memory events last memory' := by
  refine ⟨h, fun before e m accepted after hsplit => ?_⟩
  have hcommit := hno (.committed e m accepted) (by simp [hsplit])
  cases hcommit

/-- A transcript with one commit in it is split in one way only. -/
theorem eq_of_split {before after : List (Event S E M)} {e e' : E} {m m' : M}
    {accepted accepted' : Bool} (hevents : ∀ event ∈ events, event.isCommit = false)
    (hlater : ∀ event ∈ later, event.isCommit = false)
    (h : events ++ .committed e m accepted :: later =
      before ++ .committed e' m' accepted' :: after) :
    events = before ∧ e = e' ∧ m = m' ∧ accepted = accepted' := by
  rcases List.append_eq_append_iff.mp h with ⟨rest, rfl, hrest⟩ | ⟨rest, rfl, hrest⟩
  · cases rest with
    | nil =>
      cases hrest
      exact ⟨(List.append_nil _).symm, rfl, rfl, rfl⟩
    | cons event rest =>
      obtain ⟨-, rfl⟩ := List.cons.inj hrest
      have hcommit := hlater (.committed e' m' accepted') (by simp)
      cases hcommit
  · cases rest with
    | nil =>
      cases hrest
      exact ⟨List.append_nil _, rfl, rfl, rfl⟩
    | cons event rest =>
      obtain ⟨rfl, -⟩ := List.cons.inj hrest
      have hcommit := hevents (.committed e' m' accepted') (by simp)
      cases hcommit

/-- A transcript of one commit, which is merited. -/
theorem Merited.transcribed {e : E} {m : M} {accepted : Bool} {q : Place S E}
    (h : engine.Merited p memory events e m accepted q memory')
    (hevents : ∀ event ∈ events, event.isCommit = false)
    (hlater : ∀ event ∈ later, event.isCommit = false)
    (hcommit : engine.Answered q memory' (.committed e m accepted :: later) last memory'') :
    engine.Transcribed p memory (events ++ .committed e m accepted :: later) last memory'' := by
  refine ⟨h.answered.append hcommit, fun before e' m' accepted' after hsplit => ?_⟩
  obtain ⟨rfl, rfl, rfl, rfl⟩ := eq_of_split hevents hlater hsplit
  exact ⟨q, memory', h⟩

/-! ## Scans -/

variable {s : S} {e : E} {t : τ} {best : Option (G × M)} {moves : List M}
  {found : Scan σ τ S E M G}

/-- A scan stays where it is, and only looks at moves. -/
theorem Scanned.answered (h : Scanned engine s e memory t best moves found)
    (hmoves : ∀ m ∈ moves, m ∈ engine.neighborhood s e) (hs : p.solution = s)
    (he : p.element = some e) :
    engine.Answered p memory found.events p found.evaluator ∧
      ∀ event ∈ found.events, event.isLook = true := by
  subst hs
  induction h with
  | done => exact ⟨⟨[], .stay, .silent⟩, fun _ h => absurd h List.not_mem_nil⟩
  | first hscore =>
    have hm := hmoves _ (List.mem_cons_self ..)
    exact ⟨⟨_, .scored he hm .stay, .score hscore .silent⟩, by simp [Event.isLook]⟩
  | best hscore _ _ _ ih =>
    obtain ⟨hm, hrest⟩ := List.forall_mem_cons.mp hmoves
    obtain ⟨⟨calls, htold, hanswers⟩, hlooks⟩ := ih hrest
    exact ⟨⟨_, .scored he hm htold, .score hscore hanswers⟩, List.forall_mem_cons.mpr ⟨rfl, hlooks⟩⟩
  | halted hscore =>
    have hm := hmoves _ (List.mem_cons_self ..)
    exact ⟨⟨_, .scored he hm (.asked he hm .stay), .score hscore .silent⟩, by simp [Event.isLook]⟩
  | passed hscore _ _ _ ih =>
    obtain ⟨hm, hrest⟩ := List.forall_mem_cons.mp hmoves
    obtain ⟨⟨calls, htold, hanswers⟩, hlooks⟩ := ih hrest
    exact ⟨⟨_, .scored he hm (.asked he hm htold), .score hscore hanswers⟩,
      List.forall_mem_cons.mpr ⟨rfl, List.forall_mem_cons.mpr ⟨rfl, hlooks⟩⟩⟩

/-- The move that a scan takes was scored in it as an improvement, or is the one that it started
with. -/
theorem Scanned.scored (h : Scanned engine s e memory t best moves found)
    (hmoves : ∀ m ∈ moves, m ∈ engine.neighborhood s e) (hs : p.solution = s)
    (he : p.element = some e) {g : G} {m : M} (htaken : found.taken = some (g, m)) :
    (m ∈ engine.neighborhood s e ∧ ∃ earlier looks memory₁ memory₂,
      found.events = earlier ++ .scored e m :: looks ∧
      engine.Answered p memory earlier p memory₁ ∧
      engine.evaluator.score memory₁ s e m = .ok (g, memory₂) ∧ Gain.improves g = true) ∨
    best = some (g, m) := by
  subst hs
  induction h with
  | done => exact .inr htaken
  | first hscore himproves _ =>
    cases htaken
    have hm := hmoves m (List.mem_cons_self ..)
    exact .inl ⟨hm, [], [], _, _, rfl, ⟨[], .stay, .silent⟩, hscore, himproves⟩
  | @best memory memory' t best m' rest g' later hscore himproves _ _ ih =>
    obtain ⟨hm, hrest⟩ := List.forall_mem_cons.mp hmoves
    rcases ih htaken hrest with ⟨hmem, earlier, looks, memory₁, memory₂, hevents, hanswered,
      hlater⟩ | hbest
    · obtain ⟨calls, htold, hanswers⟩ := hanswered
      refine .inl ⟨hmem, .scored e m' :: earlier, looks, memory₁, memory₂, ?_, ?_, hlater⟩
      · rw [hevents]
        rfl
      · exact ⟨_, .scored he hm htold, .score hscore hanswers⟩
    · rcases better_eq best (g', m') with hnew | hold
      · rw [hnew] at hbest
        cases hbest
        exact .inl ⟨hm, [], later.events, _, _, rfl, ⟨[], .stay, .silent⟩, hscore, himproves⟩
      · exact .inr (hold.trans hbest)
  | halted => exact .inr htaken
  | @passed memory memory' t best m' rest g' later hscore _ _ _ ih =>
    obtain ⟨hm, hrest⟩ := List.forall_mem_cons.mp hmoves
    rcases ih htaken hrest with ⟨hmem, earlier, looks, memory₁, memory₂, hevents, hanswered,
      hlater⟩ | hbest
    · obtain ⟨calls, htold, hanswers⟩ := hanswered
      refine .inl ⟨hmem, .scored e m' :: .asked e m' :: earlier, looks, memory₁, memory₂, ?_, ?_,
        hlater⟩
      · rw [hevents]
        rfl
      · exact ⟨_, .scored he hm (.asked he hm htold), .score hscore hanswers⟩
    · exact .inr hbest

/-- What is told of an element when its moves have been scanned: nothing has been committed yet,
and a commit of the move that was taken is merited. -/
theorem Scanned.listed (h : Scanned engine p.solution e memory t none
      (engine.neighborhood p.solution e) found) (hcount : p.visited < p.count)
    (he : (engine.elements p.solution)[p.visited]? = some e) :
    let q : Place S E := { p with visited := p.visited + 1, element := some e }
    let events := .listed p.solution e :: found.events
    engine.Answered p memory events q found.evaluator ∧
      (∀ event ∈ events, event.isCommit = false) ∧ events.filterMap Event.accepted? = [] ∧
      ∀ g m accepted s, found.taken = some (g, m) →
        engine.commit p.solution e m = .ok (accepted, s) →
        m ∈ engine.neighborhood p.solution e ∧
          engine.Merited p memory events e m accepted q found.evaluator := by
  intro q events
  obtain ⟨⟨calls, htold, hanswers⟩, hlooks⟩ := h.answered (p := q) (fun _ hm => hm) rfl rfl
  have hanswered : engine.Answered p memory events q found.evaluator :=
    ⟨calls, .listed hcount he htold, hanswers⟩
  have haccepted : events.filterMap Event.accepted? = [] :=
    (List.filterMap_cons_none rfl).trans (Event.accepted?_of_isLook hlooks)
  refine ⟨hanswered, ?_, haccepted, fun g m accepted s htaken hcommit => ?_⟩
  · exact List.forall_mem_cons.mpr ⟨rfl, fun event h => Event.isCommit_of_isLook (hlooks event h)⟩
  · rcases h.scored (p := q) (fun _ hm => hm) rfl rfl htaken with hscored | hbest
    · obtain ⟨hm, earlier, looks, memory₁, memory₂, hevents, hearlier, hscore⟩ := hscored
      obtain ⟨calls', htold', hanswers'⟩ := hearlier
      refine ⟨hm, hanswered, rfl, ⟨s, hcommit⟩, .listed p.solution e :: earlier, looks, g, memory₁,
        memory₂, ?_, ?_, ⟨calls', .listed hcount he htold', hanswers'⟩, hscore⟩
      · rw [List.cons_append, ← hevents]
      · exact fun event hevent => hlooks event (by simp [hevents, hevent])
    · cases hbest

/-! ## Passes -/

variable {state : SearchState σ τ S} {pass : Pass σ τ S E M}

/-- What the transcript of a pass tells, from a place on. Either a move was accepted, or the pass
has come to so many elements. -/
inductive Visited (engine : Engine σ τ S E M G) (p : Place S E) (state : SearchState σ τ S)
    (visited : Nat) (pass : Pass σ τ S E M) : Prop where
  | idle {last : Place S E} : pass.improved = false →
    engine.Transcribed p state.evaluator pass.events last pass.state.evaluator →
    last.solution = pass.state.solution → last.count = p.count → last.visited = visited →
    pass.events.filterMap Event.accepted? = [] → Visited engine p state visited pass
  | moved : pass.improved = true →
    engine.Transcribed p state.evaluator pass.events (engine.opening pass.state.solution)
      pass.state.evaluator →
    (pass.events.filterMap Event.accepted?).length = 1 → Visited engine p state visited pass

theorem improve_visited (h : engine.improve state e = .ok pass) (hs : p.solution = state.solution)
    (hcount : p.visited < p.count)
    (he : (engine.elements state.solution)[p.visited]? = some e) :
    engine.Visited p state (p.visited + 1) pass := by
  obtain ⟨s, count, visited, element⟩ := p
  obtain rfl : s = state.solution := hs
  unfold improve at h
  obtain ⟨found, hfound, h⟩ := Checked.bind_ok_iff.mp h
  have hscanned := scanned_of_scan hfound
  obtain ⟨hlisted, hno, haccepted, htook⟩ :=
    hscanned.listed (p := ⟨state.solution, count, visited, element⟩) hcount he
  cases htaken : found.taken with
  | none =>
    simp only [htaken] at h
    cases h
    exact .idle rfl (hlisted.transcribed hno) rfl rfl rfl haccepted
  | some gm =>
    obtain ⟨g, m⟩ := gm
    simp only [htaken] at h
    obtain ⟨⟨accepted, s⟩, hcommit, h⟩ := Checked.bind_ok_iff.mp h
    obtain ⟨hm, hmerited⟩ := htook g m accepted s htaken hcommit
    cases accepted with
    | true =>
      obtain ⟨memory, hnotice, h⟩ := Checked.bind_ok_iff.mp h
      cases h
      refine .moved rfl (hmerited.transcribed hno (by simp [Event.isCommit])
        ⟨_, .accepted rfl hm hcommit .stay, .notice hnotice .silent⟩) ?_
      rw [List.filterMap_append, haccepted]
      rfl
    | false =>
      cases h
      refine .idle rfl (hmerited.transcribed hno (by simp)
        ⟨_, .rejected rfl hm hcommit .stay, .silent⟩) rfl rfl rfl ?_
      rw [List.filterMap_append, haccepted]
      rfl

/-- A pass comes to all elements, unless a move is accepted. -/
theorem searchAt_visited {left : Nat} (hs : p.solution = state.solution)
    (hleft : p.visited + left = p.count)
    (h : engine.searchAt state (List.range' p.visited left) = .ok pass) :
    engine.Visited p state p.count pass := by
  induction left generalizing p state pass with
  | zero =>
    cases h
    exact .idle rfl (transcribed_nil p _) hs rfl hleft rfl
  | succ left ih =>
    rw [List.range'_succ] at h
    unfold searchAt at h
    obtain ⟨e, he, h⟩ := Checked.bind_ok_iff.mp h
    obtain ⟨here, hhere, h⟩ := Checked.bind_ok_iff.mp h
    have hvisited := improve_visited hhere hs (by omega) (Position.entry_eq_ok_iff.mp he)
    cases hvisited with
    | moved himproved htranscribed haccepted =>
      simp only [himproved, if_true] at h
      cases h
      exact .moved himproved htranscribed haccepted
    | @idle middle hidle htranscribed hsame hcount hnext haccepted =>
      simp only [hidle, Bool.false_eq_true, if_false] at h
      obtain ⟨rest, hrest, h⟩ := Checked.bind_ok_iff.mp h
      cases h
      rw [← hnext] at hrest
      have hlater := ih hsame (by omega) hrest
      rw [hcount] at hlater
      cases hlater with
      | moved himproved' htranscribed' haccepted' =>
        refine .moved himproved' (htranscribed.append htranscribed') ?_
        rw [List.filterMap_append, haccepted]
        exact haccepted'
      | idle hidle' htranscribed' hsame' hcount' hnext' haccepted' =>
        refine .idle hidle' (htranscribed.append htranscribed') hsame' (hcount'.trans hcount)
          hnext' ?_
        rw [List.filterMap_append, haccepted]
        exact haccepted'

theorem search_visited (h : engine.search state = .ok pass) :
    engine.Visited (engine.opening state.solution) state
      (engine.elements state.solution).length pass := by
  unfold search at h
  rw [List.range_eq_range'] at h
  exact searchAt_visited (p := engine.opening state.solution) rfl (Nat.zero_add _) h

theorem search_told (h : engine.search state = .ok pass) :
    ∃ last calls, engine.Told (engine.opening state.solution) pass.events calls last := by
  cases search_visited h with
  | idle _ htranscribed => exact ⟨_, htranscribed.answered.imp fun _ => And.left⟩
  | moved _ htranscribed => exact ⟨_, htranscribed.answered.imp fun _ => And.left⟩

/-! ## Runs -/

/-- What the transcript of a run tells. A converged run ends when its pass has come to all elements,
and any other one when a move was accepted, or at once. -/
structure RunTold (engine : Engine σ τ S E M G) (start : SearchState σ τ S) (tally : Tally)
    (run : Run σ τ S E M) (last : Place S E) : Prop where
  transcribed : engine.Transcribed (engine.opening start.solution) start.evaluator run.events last
    run.state.evaluator
  solution : last.solution = run.state.solution
  ended : (run.tally.converged = true ∧ last.visited = last.count) ∨
    (run.tally.converged = tally.converged ∧ last = engine.opening run.state.solution)
  accepted : run.tally.improvements =
    tally.improvements + (run.events.filterMap Event.accepted?).length

/-- A run that starts at its cap has nothing to tell. -/
theorem runWithin_told_of_exhausted {room : Nat} {tally : Tally} {run : Run σ τ S E M}
    (hend : engine.config.exhausted tally.iterations = true)
    (h : engine.runWithin room state tally = .ok run) :
    ∃ last, engine.RunTold state tally run last := by
  have hstays : engine.runWithin room state tally = .ok ⟨tally, state, []⟩ := by
    cases room with
    | zero => exact if_pos hend
    | succ room => exact if_pos hend
  rw [hstays] at h
  cases h
  exact ⟨_, transcribed_nil _ _, rfl, .inr ⟨rfl, rfl⟩, rfl⟩

theorem runWithin_told {left : Nat} {tally : Tally} {run : Run σ τ S E M}
    (h : engine.runWithin left state tally = .ok run) :
    ∃ last, engine.RunTold state tally run last := by
  induction left generalizing state tally run with
  | zero =>
    by_cases hend : engine.config.exhausted tally.iterations = true
    · exact runWithin_told_of_exhausted hend h
    unfold runWithin at h
    rw [if_neg hend] at h
    cases h
  | succ left ih =>
    by_cases hend : engine.config.exhausted tally.iterations = true
    · exact runWithin_told_of_exhausted hend h
    unfold runWithin at h
    rw [if_neg hend] at h
    obtain ⟨pass, hpass, h⟩ := Checked.bind_ok_iff.mp h
    cases search_visited hpass with
    | @idle last hidle htranscribed hsame hcount hnext haccepted =>
      simp only [hidle, Bool.false_eq_true, if_false] at h
      cases h
      refine ⟨last, htranscribed, hsame, .inl ⟨rfl, hnext.trans hcount.symm⟩, ?_⟩
      rw [haccepted]
      rfl
    | moved himproved htranscribed haccepted =>
      simp only [himproved, if_true] at h
      obtain ⟨rest, hrest, h⟩ := Checked.bind_ok_iff.mp h
      cases h
      obtain ⟨last, htold⟩ := ih hrest
      refine ⟨last, htranscribed.append htold.transcribed, htold.solution, htold.ended, ?_⟩
      have himprovements := htold.accepted
      rw [List.filterMap_append, List.length_append, haccepted]
      simp only at himprovements ⊢
      omega

end Engine

end Descent
