import Descent.Proofs.Acceptance.Notices

/-!
# What a tabu list holds at any time

Whatever calls a tabu evaluator gets, its list has the last attributes of the moves that it was told
of, as many as the tenure says, and its table has their numbers of occurrences and nothing else
(`Latest`). So the oldest attribute always has an occurrence to lose, and a tabu evaluator fails
only when the one inside it does: `tabu_lists_latest`.
-/

namespace Descent

/-- The attributes of the move that an evaluator is told of, if a call tells it of one. -/
def Call.attributes {S E M K : Type} (attributes : E → M → List K) : Call S E M → List K
  | .score _ _ _ => []
  | .notice _ e m => attributes e m

theorem Call.flatMap_attributes {S E M K : Type} (attributes : E → M → List K)
    (calls : List (Call S E M)) :
    calls.flatMap (Call.attributes attributes) =
      (calls.filterMap Call.noticed?).flatMap fun move => attributes move.1 move.2 := by
  induction calls with
  | nil => rfl
  | cons call calls ih =>
    rw [List.flatMap_cons, ih]
    cases call with
    | score s e m => rfl
    | notice s e m => rfl

namespace TabuList

/-! ## Lists -/

section Lists

variable {K : Type} [DecidableEq K] {t : TabuList K} {added : List K} {tenure : Nat}

/-- What a tabu list holds after some attributes were added to it, the oldest one first. -/
structure Latest (tenure : Nat) (t : TabuList K) (added : List K) : Prop where
  /-- The queue has the last of them in their order, as many as fit. -/
  queue : t.queue = added.drop (added.length - tenure)
  length : t.queue.length = min tenure added.length
  /-- The table has the number of occurrences of every attribute in the queue, and no others. -/
  counts : ∀ k, t.counts.get? k = if k ∈ t.queue then some (t.queue.count k) else none
  positive : ∀ k, t.counts.get? k ≠ some 0
  /-- To ask for an attribute is to look for it in the queue. -/
  holds : ∀ k, t.holds k = true ↔ k ∈ t.queue
  /-- The attribute that leaves the list next has an occurrence to lose, so that another one can be
  added. -/
  oldest : ∀ oldest rest, t.queue = oldest :: rest → ∃ n, t.counts.get? oldest = some (n + 1)
  push : ∀ k, ∃ t', t.push tenure k = .ok t'

theorem Records.latest (h : Records tenure t added) (hpositive : 0 < tenure) :
    Latest tenure t added where
  queue := h.queue
  length := by
    rw [h.queue, List.rtake, List.length_drop]
    omega
  counts := h.counts
  positive k hzero := by
    rw [h.counts k] at hzero
    by_cases hk : k ∈ t.queue
    · rw [if_pos hk, Option.some.injEq, List.count_eq_zero] at hzero
      exact hzero hk
    · rw [if_neg hk] at hzero
      cases hzero
  holds _ := h.counts.isSome_iff
  oldest oldest rest hqueue := by
    have hcount := h.counts oldest
    rw [hqueue, if_pos (List.mem_cons_self ..), List.count_cons_self] at hcount
    exact ⟨rest.count oldest, hcount⟩
  push k := by
    obtain ⟨t', hpush, -⟩ := h.push hpositive k
    exact ⟨t', hpush⟩

/-- The attributes of several moves are added as if all of them were those of one. -/
theorem Records.foldlM_pushAll (h : Records tenure t added) (hpositive : 0 < tenure)
    (moves : List (List K)) :
    ∃ t', moves.foldlM (TabuList.pushAll tenure) t = .ok t' ∧
      Records tenure t' (added ++ moves.flatten) := by
  induction moves generalizing t added with
  | nil => exact ⟨t, rfl, by simpa using h⟩
  | cons ks moves ih =>
    obtain ⟨next, hnext, hrecords⟩ := h.pushAll hpositive ks
    obtain ⟨last, hlast, hall⟩ := ih hrecords
    refine ⟨last, ?_, by simpa using hall⟩
    rw [List.foldlM_cons, hnext]
    exact hlast

end Lists

end TabuList

/-! ## Calls -/

namespace Evaluator

variable {σ S E M G R K : Type}

/-- What a call makes of the memory of an evaluator. -/
def hear (evaluator : Evaluator σ S E M G) (memory : σ) : Call S E M → Checked σ
  | .score s e m => Prod.snd <$> evaluator.score memory s e m
  | .notice s e m => evaluator.notice memory s e m

variable [DecidableEq K] [Measured G R] [Chance R] {c : TabuConfig} {attributes : E → M → List K}
  {inner : Evaluator σ S E M G} {memory : TabuMemory σ K} {list : TabuList K}

/-- A tabu evaluator hands a call on, and adds to its list what the call tells of. -/
theorem tabu_hear (call : Call S E M)
    (h : memory.list.pushAll c.tenure (call.attributes attributes) = .ok list) :
    (tabu c attributes inner : Evaluator _ S E M R).hear memory call =
      (⟨·, list⟩) <$> inner.hear memory.inner call := by
  cases call with
  | score s e m =>
    obtain rfl : memory.list = list := Except.ok.inj h
    cases hscore : inner.score memory.inner s e m with
    | error e => simp [hear, tabu, hscore]
    | ok scored => simp [hear, tabu, hscore]
  | notice s e m =>
    rw [Call.attributes] at h
    cases hnotice : inner.notice memory.inner s e m with
    | error e => simp [hear, tabu, hnotice]
    | ok innerMemory => simp [hear, tabu, hnotice, h]

/-- Over some calls, the memory of the inner evaluator goes its own way, and so does the list. -/
theorem foldlM_tabu_hear {calls : List (Call S E M)}
    (h : (calls.map (Call.attributes attributes)).foldlM (TabuList.pushAll c.tenure) memory.list =
      .ok list) :
    calls.foldlM (tabu c attributes inner : Evaluator _ S E M R).hear memory =
      (⟨·, list⟩) <$> calls.foldlM inner.hear memory.inner := by
  induction calls generalizing memory with
  | nil =>
    obtain rfl : memory.list = list := Except.ok.inj h
    rfl
  | cons call calls ih =>
    rw [List.map_cons, List.foldlM_cons, Checked.bind_ok_iff] at h
    obtain ⟨next, hnext, hlater⟩ := h
    rw [List.foldlM_cons, List.foldlM_cons, tabu_hear call hnext]
    cases hinner : inner.hear memory.inner call with
    | error e => rfl
    | ok innerMemory => exact ih hlater

/-- A usable tabu evaluator starts out with an empty list. However attributes are added to it, move
by move, it has the last of them and their numbers of occurrences. Whatever calls the evaluator gets
with whatever is inside it, its list has the last attributes of the moves that it was told of, and
it fails only when the evaluator inside fails. -/
theorem tabu_lists_latest (hpositive : 0 < c.tenure) (attributes : E → M → List K)
    (inner : Evaluator σ S E M G) (memory : σ) :
    (TabuList.start? c : Except (Misconfiguration R) (TabuList K)) = .ok .empty ∧
    (∀ moves : List (List K), ∃ t, moves.foldlM (TabuList.pushAll c.tenure) .empty = .ok t ∧
      t.Latest c.tenure moves.flatten) ∧
    ∀ calls : List (Call S E M), ∃ list : TabuList K,
      list.Latest c.tenure
        ((calls.filterMap Call.noticed?).flatMap fun move => attributes move.1 move.2) ∧
      calls.foldlM (tabu c attributes inner : Evaluator _ S E M R).hear ⟨memory, .empty⟩ =
        (⟨·, list⟩) <$> calls.foldlM inner.hear memory := by
  have hmoves (moves : List (List K)) := (TabuList.records_empty c.tenure).foldlM_pushAll hpositive
    moves
  refine ⟨?_, fun moves => ?_, fun calls => ?_⟩
  · have hvalid : c.validate = (.ok () : Except (Misconfiguration R) Unit) :=
      if_neg (Nat.ne_of_gt hpositive)
    unfold TabuList.start?
    rw [hvalid]
    rfl
  · obtain ⟨t, hadded, hrecords⟩ := hmoves moves
    exact ⟨t, hadded, hrecords.latest hpositive⟩
  · obtain ⟨list, hadded, hrecords⟩ := hmoves (calls.map (Call.attributes attributes))
    rw [List.nil_append, ← List.flatMap_def, Call.flatMap_attributes] at hrecords
    exact ⟨list, hrecords.latest hpositive, foldlM_tabu_hear hadded⟩

/-- Two attributes are kept. One that was added twice stays until both of its occurrences are gone,
and a move with more attributes than that leaves its last two. -/
theorem tabu_lists_latest_repeated :
    ∃ (twice gone : TabuList Nat) (last : TabuMemory Unit Nat),
      [[1], [1], [2]].foldlM (TabuList.pushAll 2) .empty = .ok twice ∧
      twice.queue = [1, 2] ∧ twice.holds 1 = true ∧
      [[1], [1], [2], [3]].foldlM (TabuList.pushAll 2) .empty = .ok gone ∧
      gone.queue = [2, 3] ∧ gone.holds 1 = false ∧
      [Call.notice () () [1], .score () () [2], .notice () () [2, 3, 3]].foldlM
        (tabu { tenure := 2 } (fun _ ks => ks) (ofFunction fun _ _ _ => .ok 1.0) :
          Evaluator (TabuMemory Unit Nat) Unit Unit (List Nat) Float).hear ⟨(), .empty⟩ = .ok last ∧
      last.list.queue = [3, 3] ∧ last.list.counts.get? 3 = some 2 := by
  obtain ⟨-, hmoves, hcalls⟩ := tabu_lists_latest (R := Float) (c := { tenure := 2 }) (by decide)
    (fun _ ks => ks)
    (ofFunction fun _ _ _ => .ok (1.0 : Float) : Evaluator Unit Unit Unit (List Nat) Float) ()
  obtain ⟨twice, htwice, hstays⟩ := hmoves [[1], [1], [2]]
  obtain ⟨gone, hgone, hleft⟩ := hmoves [[1], [1], [2], [3]]
  obtain ⟨list, hlatest, hhear⟩ :=
    hcalls [.notice () () [1], .score () () [2], .notice () () [2, 3, 3]]
  refine ⟨twice, gone, ⟨(), list⟩, htwice, hstays.queue, (hstays.holds 1).mpr ?_, hgone,
    hleft.queue, Bool.eq_false_iff.mpr fun hholds => ?_, hhear, hlatest.queue, ?_⟩
  · rw [hstays.queue]
    decide
  · rw [hleft.holds, hleft.queue] at hholds
    exact absurd hholds (by decide)
  · rw [hlatest.counts, hlatest.queue]
    rfl

end Evaluator

end Descent
