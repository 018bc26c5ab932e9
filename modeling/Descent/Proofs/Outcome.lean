import Descent.Arithmetic.Fault
import Descent.Arithmetic.Position
import Mathlib

/-!
# How checked computations end

Rules to follow a checked computation from its start to its end. `Checked.bind_ok_iff` takes a
computation that ended in a value apart; `Checked.Ends` says at once what holds of the value and
which faults are possible, and has one rule for each way to put computations together. How the sums
and products of positions end is said in the same way.
-/

namespace Descent.Checked

variable {α β : Type}

/-! ## Computations that ended in a value -/

@[simp] theorem ok_bind (a : α) (f : α → Checked β) : (Except.ok a >>= f) = f a := rfl

@[simp] theorem error_bind (e : Fault) (f : α → Checked β) :
    ((Except.error e : Checked α) >>= f) = .error e := rfl

@[simp] theorem pure_eq_ok (a : α) : (pure a : Checked α) = .ok a := rfl

theorem bind_ok_iff {x : Checked α} {f : α → Checked β} {b : β} :
    (x >>= f) = .ok b ↔ ∃ a, x = .ok a ∧ f a = .ok b := by
  cases x with
  | error e => simp
  | ok a => simp

theorem map_eq_ok_iff {x : Checked α} {f : α → β} {b : β} :
    f <$> x = .ok b ↔ ∃ a, x = .ok a ∧ f a = b := by
  cases x with
  | error e => simp
  | ok a => simp

/-- A computation that has its value under a condition, and a value under no other. -/
theorem eq_ok_iff_of {x : Checked α} {a b : α} {allowed : Prop} (hvalue : allowed → x = .ok a)
    (hallowed : ∀ b, x = .ok b → allowed) : x = .ok b ↔ allowed ∧ b = a := by
  constructor
  · intro hb
    have ha := hvalue (hallowed b hb)
    rw [hb] at ha
    exact ⟨hallowed b hb, Except.ok.inj ha⟩
  · rintro ⟨h, rfl⟩
    exact hvalue h

/-! ## Values and faults together -/

/-- A computation ends in a value with one property or by a fault with another. -/
def Ends (x : Checked α) (post : α → Prop) (failed : Fault → Prop) : Prop :=
  match x with
  | .ok a => post a
  | .error e => failed e

variable {P : α → Prop} {Q : β → Prop} {E : Fault → Prop}

@[simp] theorem ends_ok (a : α) : Ends (.ok a) P E ↔ P a := Iff.rfl

theorem Ends.value {x : Checked α} (h : Ends x P E) {a : α} (ha : x = .ok a) : P a := by
  subst ha
  exact h

theorem Ends.fault {x : Checked α} (h : Ends x P E) {e : Fault} (he : x = .error e) : E e := by
  subst he
  exact h

/-- A computation that has no fault to end by ends in a value. -/
theorem Ends.exists_value {x : Checked α} (h : Ends x P E) (hno : ∀ e, ¬ E e) :
    ∃ a, x = .ok a ∧ P a := by
  cases x with
  | error e => exact absurd h (hno e)
  | ok a => exact ⟨a, rfl, h⟩

theorem Ends.mono {x : Checked α} {P' : α → Prop} (h : Ends x P E)
    (hp : ∀ a, x = .ok a → P a → P' a) : Ends x P' E := by
  cases x with
  | error e => exact h
  | ok a => exact hp a rfl h

theorem Ends.weaken {x : Checked α} {E' : Fault → Prop} (h : Ends x P E) (he : ∀ e, E e → E' e) :
    Ends x P E' := by
  cases x with
  | error e => exact he e h
  | ok a => exact h

theorem Ends.bind {x : Checked α} {f : α → Checked β} (hx : Ends x P E)
    (hf : ∀ a, x = .ok a → P a → Ends (f a) Q E) : Ends (x >>= f) Q E := by
  cases x with
  | error e => exact hx
  | ok a => exact hf a rfl hx

@[simp] theorem ends_map {x : Checked α} {f : α → β} :
    Ends (f <$> x) Q E ↔ Ends x (fun a => Q (f a)) E := by
  cases x with
  | error e => exact Iff.rfl
  | ok a => exact Iff.rfl

/-! ## Loops -/

/-- A loop that ended in a value has made every turn. -/
theorem foldlM_turn {f : β → α → Checked β} {l : List α} {b r : β} (h : l.foldlM f b = .ok r) :
    ∀ x ∈ l, ∃ b₁ b₂, f b₁ x = .ok b₂ := by
  induction l generalizing b with
  | nil => simp
  | cons a l ih =>
    rw [List.foldlM_cons, bind_ok_iff] at h
    obtain ⟨b', hb', h⟩ := h
    intro x hx
    rcases List.mem_cons.mp hx with rfl | hx
    · exact ⟨b, b', hb'⟩
    · exact ih h x hx

/-- A loop over a list keeps what every turn keeps. -/
theorem Ends.foldlM {f : β → α → Checked β} {I : List α → β → Prop} {l : List α} {b : β}
    (start : I l b)
    (turn : ∀ x rest b, x ∈ l → I (x :: rest) b → Ends (f b x) (I rest) E) :
    Ends (l.foldlM f b) (I []) E := by
  induction l generalizing b with
  | nil => simpa using start
  | cons x rest ih =>
    rw [List.foldlM_cons]
    refine (turn x rest b (by simp) start).bind fun b' _ hb' => ?_
    exact ih hb' fun y rest' c hy => turn y rest' c (by simp [hy])

theorem Ends.foldlM_true {f : β → α → Checked β} {l : List α} {b : β}
    (turn : ∀ x ∈ l, ∀ b, Ends (f b x) (fun _ => True) E) :
    Ends (l.foldlM f b) (fun _ => True) E :=
  Ends.foldlM (I := fun _ _ => True) trivial fun x _ b hx _ => turn x hx b

/-- A test of all members of a list ends in the answer, if the tests of the members do. -/
theorem Ends.allM {p : α → Checked Bool} {R : α → Prop} {l : List α}
    (h : ∀ a ∈ l, Ends (p a) (fun answer => answer = true ↔ R a) E) :
    Ends (l.allM p) (fun answer => answer = true ↔ ∀ a ∈ l, R a) E := by
  induction l with
  | nil => exact iff_of_true rfl (List.forall_mem_nil _)
  | cons a l ih =>
    rw [List.allM]
    refine (h a (List.mem_cons_self ..)).bind fun answer _ hanswer => ?_
    cases answer with
    | false =>
      refine iff_of_false Bool.false_ne_true fun hall => ?_
      exact Bool.false_ne_true (hanswer.mpr (hall a (List.mem_cons_self ..)))
    | true =>
      refine (ih fun b hb => h b (List.mem_cons_of_mem _ hb)).mono fun rest _ hrest => ?_
      rw [hrest, List.forall_mem_cons]
      exact (and_iff_right (hanswer.mp rfl)).symm

/-- A list of computations that all have a value has the list of their values. -/
theorem mapM_of_forall {f : α → Checked β} {g : α → β} {l : List α}
    (h : ∀ a ∈ l, f a = .ok (g a)) : l.mapM f = .ok (l.map g) := by
  induction l with
  | nil => rfl
  | cons a l ih =>
    rw [List.mapM_cons, h a (by simp), ih fun b hb => h b (by simp [hb])]
    rfl

/-- The values of a list of computations, looked at through what is known of each of them. -/
theorem map_of_mapM {γ : Type} {f : α → Checked β} {g : β → γ} {h : α → γ} {l : List α}
    {values : List β} (hl : ∀ a ∈ l, ∀ b, f a = .ok b → g b = h a)
    (hvalues : l.mapM f = .ok values) : values.map g = l.map h := by
  induction l generalizing values with
  | nil =>
    cases hvalues
    rfl
  | cons a l ih =>
    rw [List.mapM_cons] at hvalues
    obtain ⟨b, hb, hvalues⟩ := bind_ok_iff.mp hvalues
    obtain ⟨rest, hrest, hvalues⟩ := bind_ok_iff.mp hvalues
    cases hvalues
    rw [List.map_cons, List.map_cons, hl a (by simp) b hb,
      ih (fun c hc => hl c (by simp [hc])) hrest]

theorem map_ok_of_mapM {f : α → Checked β} {l : List α} {values : List β}
    (h : l.mapM f = .ok values) : values.map Except.ok = l.map f :=
  map_of_mapM (fun _ _ _ hb => hb.symm) h

theorem exists_of_mem_mapM {f : α → Checked β} {l : List α} {values : List β} {b : β}
    (h : l.mapM f = .ok values) (hb : b ∈ values) : ∃ a ∈ l, f a = .ok b := by
  have hmem : Except.ok b ∈ values.map (Except.ok : β → Checked β) := List.mem_map_of_mem hb
  rw [map_ok_of_mapM h] at hmem
  exact List.mem_map.mp hmem

theorem ok_of_mem_mapM {f : α → Checked β} {l : List α} {values : List β} {a : α}
    (h : l.mapM f = .ok values) (ha : a ∈ l) : ∃ b ∈ values, f a = .ok b := by
  have hmem : f a ∈ l.map f := List.mem_map_of_mem ha
  rw [← map_ok_of_mapM h] at hmem
  obtain ⟨b, hb, hvalue⟩ := List.mem_map.mp hmem
  exact ⟨b, hb, hvalue.symm⟩

/-- The values of a list of computations stand beside them, one by one. -/
theorem mapM_eq_ok_iff {f : α → Checked β} {l : List α} {values : List β} :
    l.mapM f = .ok values ↔ List.Forall₂ (fun a b => f a = .ok b) l values := by
  induction l generalizing values with
  | nil =>
    rw [List.forall₂_nil_left_iff]
    exact ⟨fun h => by cases h; rfl, fun h => by rw [h]; rfl⟩
  | cons a l ih =>
    rw [List.mapM_cons, bind_ok_iff, List.forall₂_cons_left_iff]
    constructor
    · rintro ⟨b, hb, h⟩
      obtain ⟨rest, hrest, h⟩ := bind_ok_iff.mp h
      cases h
      exact ⟨b, rest, hb, ih.mp hrest, rfl⟩
    · rintro ⟨b, rest, hb, hrest, rfl⟩
      exact ⟨b, hb, by rw [ih.mpr hrest]; rfl⟩

/-- What holds between any two members of a list, looked at through their values. -/
theorem pairwise_of_mapM {f : α → Checked β} {R : α → α → Prop} {Q : β → β → Prop} {l : List α}
    {values : List β} (h : l.Pairwise R)
    (hvalue : ∀ a b x y, R a b → f a = .ok x → f b = .ok y → Q x y)
    (hvalues : l.mapM f = .ok values) : values.Pairwise Q := by
  have hpairs : (l.map f).Pairwise fun x y => ∀ a b, x = .ok a → y = .ok b → Q a b :=
    List.pairwise_map.mpr (h.imp fun hab _ _ ha hb => hvalue _ _ _ _ hab ha hb)
  rw [← map_ok_of_mapM hvalues] at hpairs
  exact (List.pairwise_map.mp hpairs).imp fun hxy => hxy _ _ rfl rfl

/-- What is in the list of values, without its order. -/
theorem mapM_of_forall_exists {f : α → Checked β} {l : List α} (h : ∀ a ∈ l, ∃ b, f a = .ok b) :
    ∃ r, l.mapM f = .ok r ∧ ∀ b, b ∈ r ↔ ∃ a ∈ l, f a = .ok b := by
  induction l with
  | nil => exact ⟨[], rfl, by simp⟩
  | cons a l ih =>
    obtain ⟨b, hb⟩ := h a (by simp)
    obtain ⟨r, hr, hmem⟩ := ih fun c hc => h c (by simp [hc])
    refine ⟨b :: r, ?_, fun c => ?_⟩
    · rw [List.mapM_cons, hb, hr]
      rfl
    · simp only [List.mem_cons, hmem, exists_eq_or_imp, hb, Except.ok.injEq]
      exact or_congr_left eq_comm

end Descent.Checked

namespace Descent.Position

open Checked (Ends)

/-! ## Positions -/

theorem ite_ends (k : Nat) (e : Fault) :
    Ends (if k < bound then .ok k else .error e) (fun r => r = k ∧ r < bound)
      (fun e' => e' = e ∧ bound ≤ k) := by
  by_cases h : k < bound
  · rw [if_pos h]
    exact ⟨rfl, h⟩
  · rw [if_neg h]
    exact ⟨rfl, Nat.not_lt.mp h⟩

theorem add_ends (a b : Nat) :
    Ends (add a b) (fun r => r = a + b ∧ r < bound)
      (fun e => e = .overflow .add ∧ bound ≤ a + b) :=
  ite_ends ..

theorem mul_ends (a b : Nat) :
    Ends (mul a b) (fun r => r = a * b ∧ r < bound)
      (fun e => e = .overflow .multiply ∧ bound ≤ a * b) :=
  ite_ends ..

end Descent.Position
