import Descent.Acceptance.Tabu
import Descent.Proofs.Outcome

/-!
# The latest attributes

A tabu list keeps a queue of attributes and, beside it, their numbers of occurrences. The two agree
as long as attributes are only added (`Records`), so to ask for an attribute is to look for it in
the queue, and adding one never faults. What the queue has are the last attributes of all that were
ever added, as many as the tenure says: `Records.pushAll`.
-/

namespace Descent.TabuList

variable {K : Type} [DecidableEq K] {t : TabuList K} {counts : KeyedList K Nat}
  {queue rest added : List K} {k oldest : K} {tenure : Nat}

/-! ## Numbers of occurrences -/

/-- A table has the number of occurrences of every attribute that occurs in a queue, and nothing of
any other. -/
def Counts (counts : KeyedList K Nat) (queue : List K) : Prop :=
  ∀ k, counts.get? k = if k ∈ queue then some (queue.count k) else none

theorem counts_empty : Counts (.empty : KeyedList K Nat) [] := fun k => by simp

theorem Counts.isSome_iff (h : Counts counts queue) : (counts.get? k).isSome ↔ k ∈ queue := by
  rw [h k]
  by_cases hk : k ∈ queue
  · simp [hk]
  · simp [hk]

theorem Counts.oneMore (h : Counts counts queue) (k : K) :
    Counts (oneMore counts k) (queue ++ [k]) := by
  intro q
  unfold TabuList.oneMore
  rw [KeyedList.get?_set]
  by_cases hq : k = q
  · subst hq
    by_cases hk : k ∈ queue
    · simp [h k, hk]
    · simp [h k, hk, List.count_eq_zero_of_not_mem hk]
  · have hne : ¬ q = k := fun heq => hq heq.symm
    simp [h q, hq, hne]

/-- The first attribute of a queue has an occurrence to lose. -/
theorem Counts.lessOne (h : Counts counts (oldest :: rest)) :
    ∃ counts', lessOne counts oldest = .ok counts' ∧ Counts counts' rest := by
  have hcount := h oldest
  rw [if_pos (List.mem_cons_self ..), List.count_cons_self] at hcount
  unfold TabuList.lessOne
  rw [hcount]
  cases hrest : rest.count oldest with
  | zero =>
    have hgone : oldest ∉ rest := List.count_eq_zero.mp hrest
    refine ⟨_, rfl, fun q => ?_⟩
    rw [KeyedList.get?_erase]
    by_cases hq : oldest = q
    · subst hq
      simp [hgone]
    · have hne : ¬ q = oldest := fun heq => hq heq.symm
      simp [h q, hq, hne]
  | succ n =>
    have hstill : oldest ∈ rest := List.count_pos_iff.mp (by omega)
    refine ⟨_, rfl, fun q => ?_⟩
    rw [KeyedList.get?_set]
    by_cases hq : oldest = q
    · subst hq
      simp [hstill, hrest]
    · have hne : ¬ q = oldest := fun heq => hq heq.symm
      simp [h q, hq, hne]

/-! ## Additions -/

/-- A list that was made by adding attributes one after the other: its queue has the last of them,
and its table their numbers of occurrences in the queue. -/
structure Records (tenure : Nat) (t : TabuList K) (added : List K) : Prop where
  queue : t.queue = added.rtake tenure
  counts : Counts t.counts t.queue

theorem records_empty (tenure : Nat) : Records tenure (.empty : TabuList K) [] :=
  ⟨(List.rtake_nil ..).symm, counts_empty⟩

/-- The list of a usable configuration has a tenure, and records nothing yet. -/
theorem records_of_start? {R : Type} {c : TabuConfig}
    (h : (start? c : Except (Misconfiguration R) (TabuList K)) = .ok t) :
    0 < c.tenure ∧ Records c.tenure t [] := by
  unfold start? TabuConfig.validate at h
  by_cases hzero : c.tenure = 0
  · simp [hzero] at h
  · simp only [hzero, if_false, Except.ok.injEq] at h
    subst h
    exact ⟨Nat.pos_of_ne_zero hzero, records_empty _⟩

/-- A list holds an attribute if it is among the last ones. -/
theorem Records.holds_iff (h : Records tenure t added) :
    t.holds k = true ↔ k ∈ added.rtake tenure := by
  rw [← h.queue]
  exact h.counts.isSome_iff

/-- A list that is as long as its tenure drops its first attribute, and one that is not has room. -/
theorem Records.makeRoom (h : Records (tenure + 1) t added) :
    ∃ t', makeRoom (tenure + 1) t = .ok t' ∧ t'.queue = added.rtake tenure ∧
      Counts t'.counts t'.queue := by
  have hlength : t.queue.length = min (tenure + 1) added.length := by
    rw [h.queue, List.rtake, List.length_drop]
    omega
  have hdrop : added.rtake tenure = t.queue.drop (t.queue.length - tenure) := by
    rw [hlength, h.queue, List.rtake, List.rtake, List.drop_drop]
    congr 1
    omega
  unfold TabuList.makeRoom
  by_cases hfull : tenure + 1 ≤ t.queue.length
  · have hone : t.queue.length - tenure = 1 := by omega
    rw [if_pos hfull]
    have hcounts := h.counts
    cases hqueue : t.queue with
    | nil =>
      rw [hqueue] at hfull
      cases hfull
    | cons oldest rest =>
      rw [hqueue] at hcounts
      obtain ⟨counts', hless, hcounts'⟩ := hcounts.lessOne
      rw [hone, hqueue] at hdrop
      simp only [hless, Checked.ok_bind]
      exact ⟨_, rfl, hdrop.symm, hcounts'⟩
  · have hnone : t.queue.length - tenure = 0 := by omega
    rw [hnone, List.drop_zero] at hdrop
    rw [if_neg hfull]
    exact ⟨t, rfl, hdrop.symm, h.counts⟩

/-- An attribute can be added, and is then the last one. -/
theorem Records.push (h : Records tenure t added) (hpositive : 0 < tenure) (k : K) :
    ∃ t', push tenure t k = .ok t' ∧ Records tenure t' (added ++ [k]) := by
  obtain ⟨n, rfl⟩ := Nat.exists_eq_add_of_le' hpositive
  obtain ⟨room, hroom, hqueue, hcounts⟩ := h.makeRoom
  unfold TabuList.push
  rw [hroom]
  refine ⟨_, rfl, ?_, hcounts.oneMore k⟩
  rw [List.rtake_concat_succ, ← hqueue]

/-- Attributes can be added one after the other. -/
theorem Records.pushAll (h : Records tenure t added) (hpositive : 0 < tenure) (ks : List K) :
    ∃ t', pushAll tenure t ks = .ok t' ∧ Records tenure t' (added ++ ks) := by
  unfold TabuList.pushAll
  induction ks generalizing t added with
  | nil => exact ⟨t, rfl, by simpa using h⟩
  | cons k ks ih =>
    obtain ⟨next, hnext, hrecords⟩ := h.push hpositive k
    obtain ⟨last, hlast, hall⟩ := ih hrecords
    refine ⟨last, ?_, by simpa using hall⟩
    rw [List.foldlM_cons, hnext]
    exact hlast

end Descent.TabuList
