import Descent.Proofs.Search.Run

/-!
# Trails that return

What a pass does only depends on the state that it starts from. So of two trails from one state the
shorter one is the start of the other, and a trail that comes to a state a second time can be gone
on without end. If no pass faults and there are only so many states, then a trail leads to a state
that rests if and only if no trail comes to a state twice: `rests_iff_nodup`. A recorded run goes
along its trail as far as its cap lets it: `recordWithin_of_trail`.
-/

namespace Descent

namespace Engine

variable {σ τ S E M G C : Type} [Gain G] {engine : Engine σ τ S E M G}
  {start middle last : SearchState σ τ S} {first later : List (SearchState σ τ S)}

/-! ## Putting trails together -/

theorem Trail.single {next : SearchState σ τ S} {pass : Pass σ τ S E M}
    (hpass : engine.search start = .ok pass) (himproved : pass.improved = true)
    (hnext : pass.state = next) : engine.Trail start [next] next := by
  subst hnext
  exact .pass hpass himproved .stay

theorem Trail.eq_of_single {next : SearchState σ τ S} {pass : Pass σ τ S E M}
    (h : engine.Trail start [next] last) (hpass : engine.search start = .ok pass) :
    pass.state = next := by
  cases h with
  | pass hnext _ _ =>
    rw [hpass, Except.ok.injEq] at hnext
    rw [hnext]

theorem Trail.append (h : engine.Trail start first middle) (h' : engine.Trail middle later last) :
    engine.Trail start (first ++ later) last := by
  induction h with
  | stay => exact h'
  | pass hpass himproved _ ih => exact .pass hpass himproved (ih h')

theorem Trail.split (h : engine.Trail start (first ++ later) last) :
    ∃ middle, engine.Trail start first middle ∧ engine.Trail middle later last := by
  induction first generalizing start with
  | nil => exact ⟨start, .stay, h⟩
  | cons state first ih =>
    cases h with
    | pass hpass himproved hrest =>
      obtain ⟨middle, hfirst, hlater⟩ := ih hrest
      exact ⟨middle, .pass hpass himproved hfirst, hlater⟩

/-- The part of a trail up to a state that it comes to. -/
theorem Trail.upTo (h : engine.Trail start later last) {state : SearchState σ τ S}
    (hstate : state ∈ later) : ∃ before, before ≠ [] ∧ engine.Trail start before state := by
  induction h with
  | stay => cases hstate
  | pass hpass himproved _ ih =>
    rcases List.mem_cons.mp hstate with rfl | hlater
    · exact ⟨_, List.cons_ne_nil _ _, .pass hpass himproved .stay⟩
    · obtain ⟨before, -, hbefore⟩ := ih hlater
      exact ⟨_, List.cons_ne_nil _ _, .pass hpass himproved hbefore⟩

/-! ## Rest -/

/-- A state from which a pass commits nothing. -/
def Rests (engine : Engine σ τ S E M G) (state : SearchState σ τ S) : Prop :=
  ∃ pass, engine.search state = .ok pass ∧ pass.improved = false

/-- A trail to a state that rests has all trails from its start as its own starts. -/
theorem Trail.isPrefix_of_rests (h : engine.Trail start later last) (hrests : engine.Rests last)
    (hfirst : engine.Trail start first middle) : first <+: later := by
  induction h generalizing first with
  | stay =>
    cases hfirst with
    | stay => exact List.prefix_rfl
    | pass hpass himproved _ =>
      obtain ⟨pass, hidle, hno⟩ := hrests
      rw [hpass, Except.ok.injEq] at hidle
      rw [← hidle, himproved] at hno
      cases hno
  | pass hpass himproved hlater ih =>
    cases hfirst with
    | stay => exact List.nil_prefix
    | pass hpass' himproved' hfirst =>
      rw [hpass, Except.ok.injEq] at hpass'
      subst hpass'
      exact (List.prefix_cons_inj _).mpr (ih hrests hfirst)

/-! ## Return -/

/-- A trail that returns can be gone on without end. -/
theorem Trail.again (h : engine.Trail start later start) (k : Nat) :
    engine.Trail start (List.replicate k later).flatten start := by
  induction k with
  | zero => exact .stay
  | succ k ih =>
    rw [List.replicate_succ, List.flatten_cons]
    exact h.append ih

/-- So it leads on for any number of passes. -/
theorem Trail.exists_length (h : engine.Trail start later start) (hmore : later ≠ []) (k : Nat) :
    ∃ first middle, engine.Trail start first middle ∧ first.length = k := by
  have hlong : k ≤ (List.replicate k later).flatten.length := by
    rw [List.length_flatten, List.map_replicate, List.sum_replicate, smul_eq_mul]
    exact Nat.le_mul_of_pos_right k (List.length_pos_of_ne_nil hmore)
  have hagain := h.again k
  rw [← List.take_append_drop k (List.replicate k later).flatten] at hagain
  obtain ⟨middle, hfirst, -⟩ := hagain.split
  exact ⟨_, middle, hfirst, List.length_take_of_le hlong⟩

/-- A trail to a state that rests does not return. -/
theorem Trail.nodup_of_rests (h : engine.Trail start later last) (hrests : engine.Rests last) :
    (start :: later).Nodup := by
  induction h with
  | stay => exact List.nodup_singleton _
  | @pass start last pass later hpass himproved hlater ih =>
    refine List.nodup_cons.mpr ⟨fun hreturn => ?_, ih hrests⟩
    have htrail : engine.Trail start (pass.state :: later) last := .pass hpass himproved hlater
    obtain ⟨before, hmore, hbefore⟩ := htrail.upTo hreturn
    obtain ⟨first, middle, hfirst, hlength⟩ :=
      hbefore.exists_length hmore ((pass.state :: later).length + 1)
    have hinitial := (htrail.isPrefix_of_rests hrests hfirst).length_le
    omega

/-- If no pass faults, then a trail leads to a state that rests, or for any number of passes. -/
theorem exists_trail (start : SearchState σ τ S)
    (ends : ∀ later last, engine.Trail start later last → ∃ pass, engine.search last = .ok pass)
    (k : Nat) :
    ∃ later last, engine.Trail start later last ∧ (engine.Rests last ∨ later.length = k) := by
  induction k with
  | zero => exact ⟨[], start, .stay, .inr rfl⟩
  | succ k ih =>
    obtain ⟨later, last, htrail, hrests | hlength⟩ := ih
    · exact ⟨later, last, htrail, .inl hrests⟩
    · obtain ⟨pass, hpass⟩ := ends later last htrail
      cases himproved : pass.improved with
      | false => exact ⟨later, last, htrail, .inl ⟨pass, hpass, himproved⟩⟩
      | true =>
        refine ⟨later ++ [pass.state], pass.state, htrail.append (.pass hpass himproved .stay),
          .inr ?_⟩
        rw [List.length_append, hlength]
        rfl

/-- If no pass faults and there are only so many states, then a trail leads to a state that rests
if and only if no trail comes to a state twice. -/
theorem rests_iff_nodup {bound : Nat}
    (ends : ∀ later last, engine.Trail start later last → ∃ pass, engine.search last = .ok pass)
    (few : ∀ later last, engine.Trail start later last → (start :: later).Nodup →
      later.length < bound) :
    (∃ later last, engine.Trail start later last ∧ engine.Rests last) ↔
      ∀ later last, engine.Trail start later last → (start :: later).Nodup := by
  constructor
  · rintro ⟨later, last, htrail, hrests⟩ first middle hfirst
    have hinitial := htrail.isPrefix_of_rests hrests hfirst
    exact (htrail.nodup_of_rests hrests).sublist (hinitial.sublist.cons_cons start)
  · intro hnodup
    obtain ⟨later, last, htrail, hrests | hlength⟩ := exists_trail start ends bound
    · exact ⟨later, last, htrail, hrests⟩
    · have hfew := few later last htrail (hnodup later last htrail)
      omega

/-! ## Recorded runs -/

variable {objective : S → Checked C} {values : List C}

/-- A recorded run goes along a trail as far as it may. -/
theorem recordWithin_of_trail (h : engine.Trail start later last)
    (hvalues : later.mapM (fun s => objective s.solution) = .ok values) (left : Nat)
    (record : Record C) :
    engine.recordWithin objective (later.length + left) start record =
      engine.recordWithin objective left last
        { record with
          passes := record.passes + later.length
          improvements := record.improvements + later.length
          history := record.history ++ values } := by
  induction h generalizing values record with
  | stay =>
    cases hvalues
    simp
  | pass hpass himproved _ ih =>
    rw [List.mapM_cons] at hvalues
    obtain ⟨value, hvalue, hvalues⟩ := Checked.bind_ok_iff.mp hvalues
    obtain ⟨rest, hrest, hvalues⟩ := Checked.bind_ok_iff.mp hvalues
    cases hvalues
    rw [List.length_cons, Nat.add_right_comm]
    conv_lhs => unfold recordWithin
    rw [hpass]
    simp only [Checked.ok_bind, himproved, if_true, hvalue]
    rw [ih hrest]
    simp [Nat.add_assoc, Nat.add_comm 1]

/-- It converges in a state that rests, if the trail leads there soon enough. -/
theorem recordWithin_of_rests (h : engine.Trail start later last)
    (hvalues : later.mapM (fun s => objective s.solution) = .ok values)
    {pass : Pass σ τ S E M} (hpass : engine.search last = .ok pass) (hidle : pass.improved = false)
    {left : Nat} (hsoon : later.length < left) (record : Record C) :
    engine.recordWithin objective left start record =
      .ok ⟨⟨record.passes + later.length + 1, record.improvements + later.length, true,
        record.history ++ values⟩, pass.state⟩ := by
  obtain ⟨rest, rfl⟩ := Nat.exists_eq_add_of_lt hsoon
  rw [Nat.add_assoc, recordWithin_of_trail h hvalues]
  unfold recordWithin
  simp only [hpass, Checked.ok_bind, hidle, Bool.false_eq_true, if_false]
  rfl

/-- Its passes are used up if the trail has as many. -/
theorem recordWithin_of_length (h : engine.Trail start later last)
    (hvalues : later.mapM (fun s => objective s.solution) = .ok values) (record : Record C) :
    engine.recordWithin objective later.length start record =
      engine.config.atBudget
        ⟨{ record with
            passes := record.passes + later.length
            improvements := record.improvements + later.length
            history := record.history ++ values }, last⟩ := by
  have hgoes := recordWithin_of_trail h hvalues 0 record
  rwa [Nat.add_zero] at hgoes

/-- A run that has converged followed a trail to a state that rests. -/
theorem Followed.rests {left : Nat} {record : Record C} {done : Recorded σ τ S C}
    (h : engine.Followed objective left start record done later last)
    (hrecord : record.converged = false) (hconverged : done.record.converged = true) :
    engine.Rests last := by
  rcases h.ended with ⟨-, -, pass, hpass, hidle, -⟩ | ⟨-, -, hsame, -⟩
  · exact ⟨pass, hpass, hidle⟩
  · rw [hsame, hrecord] at hconverged
    cases hconverged

end Engine

end Descent
