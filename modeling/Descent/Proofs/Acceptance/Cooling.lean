import Descent.Proofs.Acceptance.Ranges

/-!
# The course of a temperature

In exact arithmetic each schedule has a closed form, `AnnealingConfig.course`, which starts at the
initial temperature, falls at every commit and comes below any minimum. The temperature follows it
until it meets the minimum, and stays there (`Thermal.notices_eq`). So it is frozen from some commit
on, under the linear schedule from the last of its steps on: `Thermal.cooling_freezes`.
-/

namespace Descent

/-! ## Exact scalars -/

instance : Scalar ℚ where
  zero := 0
  lt a b := decide (a < b)
  le a b := decide (a ≤ b)
  ofNat n := n
  add a b := a + b
  sub a b := a - b
  mul a b := a * b
  div a b := a / b
  larger := max

instance : Scalar.Ordered ℚ where
  Undefined _ := False
  zero_defined := not_false
  one_defined := not_false
  defined_of_lt _ := ⟨not_false, not_false⟩
  lt_trans hab hbc := decide_eq_true ((of_decide_eq_true hab).trans (of_decide_eq_true hbc))
  not_le_iff {a b} := by
    show decide (a ≤ b) = false ↔ False ∨ False ∨ decide (b < a) = true
    rw [decide_eq_false_iff_not, decide_eq_true_iff, not_le, false_or, false_or]

namespace AnnealingConfig

variable {c : AnnealingConfig ℚ} {k : ℕ}

theorem Within.minimum_pos (hc : c.Within) : 0 < c.minimum := of_decide_eq_true hc.minimum

theorem Within.minimum_lt (hc : c.Within) : c.minimum < c.initial := of_decide_eq_true hc.below

theorem Within.initial_pos (hc : c.Within) : 0 < c.initial := hc.minimum_pos.trans hc.minimum_lt

theorem Within.ratio (hc : c.Within) {ratio : ℚ} (h : c.cooling = .geometric ratio) :
    0 < ratio ∧ ratio < 1 := by
  have hcooling := hc.cooling
  rw [h] at hcooling
  have hone : ratio < ((1 : ℕ) : ℚ) := of_decide_eq_true hcooling.2
  exact ⟨of_decide_eq_true hcooling.1, by simpa using hone⟩

theorem Within.steps (hc : c.Within) {steps : ℕ} (h : c.cooling = .linear steps) : 1 ≤ steps := by
  have hcooling := hc.cooling
  rw [h] at hcooling
  exact hcooling

theorem Within.rate (hc : c.Within) {rate : ℚ} (h : c.cooling = .harmonic rate) : 0 < rate := by
  have hcooling := hc.cooling
  rw [h] at hcooling
  exact of_decide_eq_true hcooling

/-- A configuration within its ranges has no undefined number, and so passes the checks. -/
theorem Within.validate (hc : c.Within) : c.validate = .ok () := (within_iff.mp hc).1

theorem isFrozen_iff {temperature : ℚ} :
    c.isFrozen temperature = true ↔ temperature ≤ c.minimum := decide_eq_true_iff

/-! ## The closed form -/

/-- The temperature that a schedule aims at after some commits, as if there were no minimum. -/
def course (c : AnnealingConfig ℚ) (k : ℕ) : ℚ :=
  match c.cooling with
  | .geometric ratio => c.initial * ratio ^ k
  | .linear steps => c.initial - k * (c.initial - c.minimum) / steps
  | .harmonic rate => c.initial / (1 + k * (rate * c.initial))

theorem course_zero : c.course 0 = c.initial := by
  unfold course
  cases c.cooling <;> simp

theorem course_strictAnti (hc : c.Within) : StrictAnti c.course := by
  apply strictAnti_nat_of_succ_lt
  intro k
  have hinitial := hc.initial_pos
  unfold course
  cases hcooling : c.cooling with
  | geometric ratio =>
    obtain ⟨hpos, hlt⟩ := hc.ratio hcooling
    have hpow : ratio ^ (k + 1) < ratio ^ k := pow_lt_pow_right_of_lt_one₀ hpos hlt k.lt_succ_self
    exact mul_lt_mul_of_pos_left hpow hinitial
  | linear steps =>
    have hsteps : (0 : ℚ) < steps := Nat.cast_pos.mpr (hc.steps hcooling)
    have hgap : 0 < c.initial - c.minimum := sub_pos.mpr hc.minimum_lt
    have hstep : (k : ℚ) * (c.initial - c.minimum) / steps <
        ((k + 1 : ℕ) : ℚ) * (c.initial - c.minimum) / steps := by
      gcongr
      exact k.lt_succ_self
    exact sub_lt_sub_left hstep _
  | harmonic rate =>
    have hrate : 0 < rate * c.initial := mul_pos (hc.rate hcooling) hinitial
    have hpos : 0 < 1 + (k : ℚ) * (rate * c.initial) := by positivity
    apply div_lt_div_of_pos_left hinitial hpos
    gcongr
    exact k.lt_succ_self

/-- The linear course comes to the minimum with the last of its steps. -/
theorem course_linear_last (hc : c.Within) {steps : ℕ} (h : c.cooling = .linear steps) :
    c.course steps = c.minimum := by
  have hsteps : (steps : ℚ) ≠ 0 := Nat.cast_ne_zero.mpr (Nat.one_le_iff_ne_zero.mp (hc.steps h))
  unfold course
  rw [h]
  simp only
  rw [mul_div_cancel_left₀ _ hsteps, sub_sub_cancel]

/-- Every course comes down to the minimum. -/
theorem exists_course_le (hc : c.Within) : ∃ k, c.course k ≤ c.minimum := by
  have hinitial := hc.initial_pos
  have hminimum := hc.minimum_pos
  cases hcooling : c.cooling with
  | geometric ratio =>
    obtain ⟨hpos, hlt⟩ := hc.ratio hcooling
    obtain ⟨k, hk⟩ := exists_pow_lt_of_lt_one (div_pos hminimum hinitial) hlt
    rw [lt_div_iff₀' hinitial] at hk
    refine ⟨k, ?_⟩
    unfold course
    rw [hcooling]
    exact hk.le
  | linear steps => exact ⟨steps, (course_linear_last hc hcooling).le⟩
  | harmonic rate =>
    have hrate : 0 < rate := hc.rate hcooling
    obtain ⟨k, hk⟩ := exists_nat_gt (1 / (rate * c.minimum))
    rw [div_lt_iff₀ (mul_pos hrate hminimum)] at hk
    refine ⟨k, ?_⟩
    unfold course
    rw [hcooling]
    simp only
    rw [div_le_iff₀ (by positivity)]
    calc c.initial = 1 * c.initial := (one_mul _).symm
      _ ≤ k * (rate * c.minimum) * c.initial := by gcongr
      _ = c.minimum * (k * (rate * c.initial)) := by ring
      _ ≤ c.minimum * (1 + k * (rate * c.initial)) :=
        mul_le_mul_of_nonneg_left (le_add_of_nonneg_left zero_le_one) hminimum.le

/-- The linear course is at or below the minimum from the last of its steps on. -/
theorem course_linear_le_iff (hc : c.Within) {steps : ℕ} (h : c.cooling = .linear steps) :
    c.course k ≤ c.minimum ↔ steps ≤ k := by
  rw [← course_linear_last hc h, (course_strictAnti hc).le_iff_ge]

/-! ## One commit -/

/-- A schedule leads along its course. -/
theorem scheduled_course (hc : c.Within) (k : ℕ) :
    c.scheduled (c.course k) k = c.course (k + 1) := by
  unfold scheduled course
  cases hcooling : c.cooling with
  | geometric ratio =>
    show c.initial * ratio ^ k * ratio = c.initial * ratio ^ (k + 1)
    rw [pow_succ, mul_assoc]
  | linear steps => rfl
  | harmonic rate =>
    have hrate : 0 < rate * c.initial := mul_pos (hc.rate hcooling) hc.initial_pos
    have hpos : 0 < 1 + (k : ℚ) * (rate * c.initial) := by positivity
    show c.initial / (1 + k * (rate * c.initial)) /
        (((1 : ℕ) : ℚ) + rate * (c.initial / (1 + k * (rate * c.initial)))) =
      c.initial / (1 + ((k + 1 : ℕ) : ℚ) * (rate * c.initial))
    have hnext : (1 + k * (rate * c.initial)) *
        (((1 : ℕ) : ℚ) + rate * (c.initial / (1 + k * (rate * c.initial)))) =
        1 + ((k + 1 : ℕ) : ℚ) * (rate * c.initial) := by
      rw [Nat.cast_one, mul_add, mul_one, ← mul_div_assoc, mul_div_cancel₀ _ hpos.ne']
      push_cast
      ring
    rw [div_div, hnext]

/-- Once the course has come down to the minimum, the schedule leads no higher than the minimum. -/
theorem scheduled_minimum_le (hc : c.Within) (hk : c.course k ≤ c.minimum) :
    c.scheduled c.minimum k ≤ c.minimum := by
  have hminimum := hc.minimum_pos
  cases hcooling : c.cooling with
  | geometric ratio =>
    unfold scheduled
    rw [hcooling]
    exact mul_le_of_le_one_right hminimum.le (hc.ratio hcooling).2.le
  | linear steps =>
    -- A linear schedule goes by the number of the commit alone.
    have hscheduled : c.scheduled c.minimum k = c.scheduled (c.course k) k := by
      unfold scheduled
      rw [hcooling]
    rw [hscheduled, scheduled_course hc]
    exact ((course_strictAnti hc) k.lt_succ_self).le.trans hk
  | harmonic rate =>
    have hrate : 0 < rate * c.minimum := mul_pos (hc.rate hcooling) hminimum
    have hone : (1 : ℚ) ≤ ((1 : ℕ) : ℚ) + rate * c.minimum := by
      rw [Nat.cast_one]
      exact le_add_of_nonneg_right hrate.le
    unfold scheduled
    rw [hcooling]
    exact div_le_self hminimum.le hone

theorem cool_course (hc : c.Within) (k : ℕ) :
    c.cool (max (c.course k) c.minimum) k = max (c.course (k + 1)) c.minimum := by
  show max (c.scheduled _ k) c.minimum = _
  rcases le_total (c.course k) c.minimum with hk | hk
  · have hnext : c.course (k + 1) ≤ c.minimum :=
      ((course_strictAnti hc) k.lt_succ_self).le.trans hk
    rw [max_eq_right hk, max_eq_right hnext, max_eq_right (scheduled_minimum_le hc hk)]
  · rw [max_eq_left hk, scheduled_course hc]

end AnnealingConfig

/-! ## Any number of commits -/

namespace Thermal

variable {c : AnnealingConfig ℚ} {t : Thermal ℚ}

/-- How the memories of a configuration follow one another from commit to commit: along the course,
down to the minimum and no further. -/
structure Cools (c : AnnealingConfig ℚ) (memory : ℕ → Thermal ℚ) : Prop where
  follows : ∀ k, (memory k).temperature = max (c.course k) c.minimum
  bounded : ∀ k, (memory k).temperature ∈ Set.Icc c.minimum c.initial
  falls : ∀ k, c.isFrozen (memory k).temperature = false →
    (memory (k + 1)).temperature < (memory k).temperature
  frozen_iff : ∀ k,
    c.isFrozen (memory k).temperature = true ↔ (memory k).temperature = c.minimum
  stays : ∀ {j k}, j ≤ k → c.isFrozen (memory j).temperature = true →
    c.isFrozen (memory k).temperature = true
  freezes : ∃ k, c.isFrozen (memory k).temperature = true
  linear : ∀ {steps}, c.cooling = .linear steps → ∀ k,
    (c.isFrozen (memory k).temperature = true ↔ steps ≤ k)

/-- After any number of commits the temperature stands where the course does, or at the minimum. -/
theorem notices_eq (hc : c.Within) (ht : t.temperature = c.initial) (hcommits : t.commits = 0)
    (k : ℕ) :
    ((notice c)^[k] t).temperature = max (c.course k) c.minimum ∧
      ((notice c)^[k] t).commits = k := by
  induction k with
  | zero =>
    refine ⟨?_, hcommits⟩
    rw [AnnealingConfig.course_zero, max_eq_left hc.minimum_lt.le]
    exact ht
  | succ k ih =>
    obtain ⟨htemperature, hcommit⟩ := ih
    rw [Function.iterate_succ_apply']
    refine ⟨?_, congrArg (· + 1) hcommit⟩
    show c.cool _ _ = _
    rw [htemperature, hcommit, AnnealingConfig.cool_course hc]

/-- A temperature that follows the course is frozen once the course is at or below the minimum. -/
theorem isFrozen_max_iff {k : ℕ} :
    c.isFrozen (max (c.course k) c.minimum) = true ↔ c.course k ≤ c.minimum := by
  rw [AnnealingConfig.isFrozen_iff, max_le_iff, and_iff_left le_rfl]

theorem Cools.of_follows (hc : c.Within) {memory : ℕ → Thermal ℚ}
    (hfollows : ∀ k, (memory k).temperature = max (c.course k) c.minimum) : Cools c memory := by
  have hanti := AnnealingConfig.course_strictAnti hc
  have hfrozen : ∀ k, c.isFrozen (memory k).temperature = true ↔ c.course k ≤ c.minimum :=
    fun k => by rw [hfollows, isFrozen_max_iff]
  refine
    { follows := hfollows
      bounded := fun k => ?bounded
      falls := fun k hk => ?falls
      frozen_iff := fun k => ?frozen_iff
      stays := fun {j k} hjk hj => ?stays
      freezes := ?freezes
      linear := fun {steps} hlinear k => ?linear }
  case bounded =>
    have hinitial : c.course k ≤ c.course 0 := hanti.antitone k.zero_le
    rw [AnnealingConfig.course_zero] at hinitial
    rw [hfollows]
    exact ⟨le_max_right .., max_le hinitial hc.minimum_lt.le⟩
  case falls =>
    have habove : c.minimum < c.course k := by
      rw [← not_le, ← hfrozen, hk]
      exact Bool.false_ne_true
    rw [hfollows, hfollows, max_eq_left habove.le]
    exact max_lt (hanti k.lt_succ_self) habove
  case frozen_iff => rw [hfrozen, hfollows, max_eq_right_iff]
  case stays =>
    rw [hfrozen] at hj ⊢
    exact (hanti.antitone hjk).trans hj
  case freezes =>
    obtain ⟨k, hk⟩ := AnnealingConfig.exists_course_le hc
    exact ⟨k, (hfrozen k).mpr hk⟩
  case linear => rw [hfrozen, AnnealingConfig.course_linear_le_iff hc hlinear]

/-- A configuration within its ranges starts out, and from commit to commit its temperature falls to
the minimum in finitely many steps, under the linear schedule in exactly as many as it has. -/
theorem cooling_freezes (hc : c.Within) :
    ∃ t, start? c = .ok t ∧ Cools c fun k => (notice c)^[k] t := by
  have hvalid := hc.validate
  cases ht : start? c with
  | error cause =>
    unfold start? at ht
    rw [hvalid] at ht
    cases ht
  | ok t =>
    obtain ⟨-, htemperature, hcommits⟩ := eq_of_start? ht
    exact ⟨t, rfl, .of_follows hc fun k => (notices_eq hc htemperature hcommits k).1⟩

/-- From ten degrees down to one in three equal steps, the temperature is frozen after three commits
and not after two. -/
theorem cooling_freezes_linear :
    let c : AnnealingConfig ℚ := ⟨10, 1, .linear 3, none⟩
    c.Within ∧ ∃ t, start? c = .ok t ∧ Cools c (fun k => (notice c)^[k] t) ∧
      c.isFrozen ((notice c)^[2] t).temperature = false ∧
      ((notice c)^[3] t).temperature = 1 := by
  intro c
  have hc : c.Within := ⟨by decide, by decide, Nat.one_le_ofNat⟩
  obtain ⟨t, ht, hcools⟩ := cooling_freezes hc
  refine ⟨hc, t, ht, hcools, ?_, ?_⟩
  · rw [← Bool.not_eq_true, hcools.linear rfl]
    decide
  · exact (hcools.frozen_iff 3).mp ((hcools.linear rfl 3).mpr le_rfl)

end Thermal

end Descent
