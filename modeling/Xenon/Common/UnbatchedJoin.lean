import Xenon.Common.OperationJoin

/-!
# Joins without a batch size

`sendWith` without a batch size sends all operations in its loop, and the batch limit is not
checked. Such a join does what one does whose batch has room for all of its operations.
-/

namespace Xenon.Common.OperationJoin

variable {I E : Type*}

/-- The join with a batch that has room for `n` operations. -/
def State.batched (s : State I E) (n : Nat) (guard : Int) : State I E :=
  { s with batchSize := n, batchSizeGuard := guard }

/-- The failure whose operation a task is about to put into the map. -/
def unputFailure : Task I E → Option (I × E)
  | .failuresLock op e | .putFailure op e => some (op, e)
  | _ => none

/-- What holds in a join without a batch size whose operations end as `fails` says. -/
structure Unbatched (fails : I → Option E) (ops : List I) (s : State I E) (ts : List (Task I E)) :
    Prop where
  size : s.batchSize = 0
  iterator : s.operationIterator = []
  batched : ∃ guard, Inv ops ops.length (s.batched ops.length guard) ts
  outcomes : ∀ c ∈ s.completed, c.2 = fails c.1
  failures : ∀ c ∈ s.failures.getD [], fails c.1 = some c.2
  unput : ∀ t ∈ ts, ∀ c ∈ unputFailure t, fails c.1 = some c.2

/-- An operation ends as `fails` says. -/
def Ends (fails : I → Option E) (t : Task I E) (answer : Option E) : Prop :=
  ∀ op, t = .await op → answer = fails op

theorem mem_put [DecidableEq I] {m : List (I × E)} {op : I} {e : E} {c : I × E}
    (h : c ∈ put m op e) : c ∈ m ∨ c = (op, e) := by
  rcases List.mem_append.mp h with h | h
  · exact Or.inl (List.mem_of_mem_filter h)
  · exact Or.inr (List.mem_singleton.mp h)

/-! ## What a step does to the other fields -/

section Steps

variable [DecidableEq I] {s : State I E} {t : Task I E} {answer : Option E}

/-- The handler is called at the end of the join, and only then. -/
def joinedCalls (s : State I E) : Task I E → List (Option (List (I × E)))
  | .finish [] => [s.failures]
  | _ => []

theorem handled_fire : (fire s t answer).1.handled = s.handled ++ joinedCalls s t := by
  match t with
  | .finish [] => rfl
  | .batchGuard batch | .nextGuard op =>
      simp only [fire, State.incrementGuard]
      split_ifs <;> exact (List.append_nil _).symm
  | .sendNext =>
      simp only [fire]
      split <;> exact (List.append_nil _).symm
  | .sendWithBatch [] | .sendWithBatch (op :: batch) | .await op | .failuresLock op e
  | .putFailure op e | .decrementGuard | .sendOperation op | .decrementPending
  | .finish (op :: ops') => exact (List.append_nil _).symm

theorem operationIterator_fire (h : s.operationIterator = []) :
    (fire s t answer).1.operationIterator = [] := by
  match t with
  | .batchGuard batch | .nextGuard op =>
      simp only [fire, State.incrementGuard]
      split_ifs <;> exact h
  | .sendNext =>
      simp only [fire, h]
  | .sendWithBatch [] | .sendWithBatch (op :: batch) | .await op | .failuresLock op e
  | .putFailure op e | .decrementGuard | .sendOperation op | .decrementPending
  | .finish [] | .finish (op :: ops') => exact h

end Steps

namespace Unbatched

variable {fails : I → Option E} {ops : List I} {s : State I E} {ts ts' : List (Task I E)}
  {t : Task I E} {answer : Option E}

theorem perm (hp : ts.Perm ts') (h : Unbatched fails ops s ts) : Unbatched fails ops s ts' where
  size := h.size
  iterator := h.iterator
  batched := h.batched.imp fun _ hinv => hinv.perm hp
  outcomes := h.outcomes
  failures := h.failures
  unput := fun t ht => h.unput t (hp.mem_iff.mpr ht)

theorem init (hne : ops ≠ []) :
    Unbatched fails ops (start ops 0 : Foundation.Pool (State I E) (Task I E)).shared
      (start ops 0).tasks where
  size := rfl
  iterator := List.drop_eq_nil_of_le (le_refl _)
  batched := by
    have hpos : 0 < ops.length := List.length_pos_iff.mpr hne
    have hfirst : firstBatch ops ops.length = ops := by
      unfold firstBatch
      rw [if_pos hpos, List.take_length]
    have hinit := Inv.init (E := E) hne hpos
    refine ⟨0, ?_⟩
    unfold start at hinit ⊢
    rw [hfirst] at hinit
    exact hinit
  outcomes := fun c hc => absurd hc List.not_mem_nil
  failures := fun c hc => absurd hc List.not_mem_nil
  unput := by
    intro t ht c hc
    obtain rfl := List.mem_singleton.mp ht
    exact nomatch hc

/-- The guard aside, a step does the same with and without a batch size. -/
theorem fire_batched [DecidableEq I] {guard : Int} (hsize : s.batchSize = 0)
    (h : Inv ops ops.length (s.batched ops.length guard) (t :: ts)) (hne : ops ≠ [])
    (answer : Option E) :
    (fire s t answer).1.batchSize = 0 ∧
      ∃ guard', fire (s.batched ops.length guard) t answer =
        ((fire s t answer).1.batched ops.length guard', (fire s t answer).2) := by
  have hpos : 1 ≤ ops.length := List.length_pos_iff.mpr hne
  match t with
  | .batchGuard batch | .nextGuard op =>
      have hguard := h.incrementGuard_eq hpos (by simp)
      simp only [fire]
      rw [hguard, State.incrementGuard, if_neg (by omega)]
      exact ⟨hsize, guard + 1, rfl⟩
  | .sendWithBatch [] | .sendWithBatch (op :: batch) | .await op | .failuresLock op e
  | .putFailure op e | .sendOperation op | .decrementPending
  | .finish [] | .finish (op :: ops') => exact ⟨hsize, guard, rfl⟩
  | .decrementGuard => exact ⟨hsize, guard - 1, rfl⟩
  | .sendNext =>
      simp only [fire]
      cases hit : s.operationIterator with
      | nil =>
          refine ⟨hsize, guard, ?_⟩
          simp only [State.batched, hit]
      | cons op rest =>
          refine ⟨hsize, guard, ?_⟩
          simp only [State.batched, hit]

theorem completed_fire [DecidableEq I] (houtcome : Ends fails t answer) :
    ∀ c ∈ (fire s t answer).1.completed, c ∈ s.completed ∨ c.2 = fails c.1 := by
  intro c hc
  match t with
  | .await op =>
      rcases List.mem_append.mp hc with hc | hc
      · exact Or.inl hc
      · obtain rfl := List.mem_singleton.mp hc
        exact Or.inr (houtcome op rfl)
  | .batchGuard batch | .nextGuard op =>
      refine Or.inl ?_
      simp only [fire, State.incrementGuard] at hc
      split_ifs at hc <;> exact hc
  | .sendNext =>
      refine Or.inl ?_
      simp only [fire] at hc
      split at hc <;> exact hc
  | .sendWithBatch [] | .sendWithBatch (op :: batch) | .failuresLock op e | .putFailure op e
  | .decrementGuard | .sendOperation op | .decrementPending
  | .finish [] | .finish (op :: ops') => exact Or.inl hc

theorem failures_fire [DecidableEq I] :
    ∀ c ∈ (fire s t answer).1.failures.getD [], c ∈ s.failures.getD [] ∨ c ∈ unputFailure t := by
  intro c hc
  match t with
  | .putFailure op e =>
      simp only [fire] at hc
      cases hm : s.failures with
      | none =>
          rw [hm] at hc
          exact absurd hc List.not_mem_nil
      | some m =>
          rw [hm] at hc
          rcases mem_put hc with hc | rfl
          · exact Or.inl hc
          · exact Or.inr rfl
  | .failuresLock op e => exact Or.inl hc
  | .batchGuard batch | .nextGuard op =>
      refine Or.inl ?_
      simp only [fire, State.incrementGuard] at hc
      split_ifs at hc <;> exact hc
  | .sendNext =>
      refine Or.inl ?_
      simp only [fire] at hc
      split at hc <;> exact hc
  | .await op | .sendWithBatch [] | .sendWithBatch (op :: batch) | .decrementGuard
  | .sendOperation op | .decrementPending | .finish [] | .finish (op :: ops') => exact Or.inl hc

theorem unput_fire [DecidableEq I] (houtcome : Ends fails t answer) :
    ∀ t' ∈ (fire s t answer).2, ∀ c ∈ unputFailure t', c ∈ unputFailure t ∨
      fails c.1 = some c.2 := by
  intro t' ht' c hc
  match t with
  | .await op =>
      cases answer with
      | none =>
          obtain rfl := List.mem_singleton.mp ht'
          cases hc
      | some e =>
          obtain rfl := List.mem_singleton.mp ht'
          obtain rfl := Option.some.inj hc
          exact Or.inr (houtcome op rfl).symm
  | .failuresLock op e =>
      obtain rfl := List.mem_singleton.mp ht'
      exact Or.inl hc
  | .batchGuard batch | .nextGuard op =>
      simp only [fire, State.incrementGuard] at ht'
      split_ifs at ht' <;> simp_all [unputFailure]
  | .sendNext =>
      simp only [fire] at ht'
      split at ht' <;> simp_all [unputFailure]
  | .decrementPending =>
      simp only [fire] at ht'
      split at ht' <;> simp_all [unputFailure]
  | .sendWithBatch (op :: batch) | .sendOperation op =>
      simp only [fire, List.mem_cons, List.not_mem_nil, or_false] at ht'
      rcases ht' with rfl | rfl
      · cases hc
      · cases hc
  | .putFailure op e | .decrementGuard | .finish (op :: ops') =>
      obtain rfl := List.mem_singleton.mp ht'
      cases hc
  | .sendWithBatch [] | .finish [] => exact absurd ht' List.not_mem_nil

theorem fire [DecidableEq I] (hne : ops ≠ []) (hops : ops.Nodup)
    (houtcome : Ends fails t answer) (h : Unbatched fails ops s (t :: ts)) :
    Unbatched fails ops (fire s t answer).1 ((fire s t answer).2 ++ ts) := by
  obtain ⟨guard, hinv⟩ := h.batched
  obtain ⟨hsize, guard', hfire⟩ := fire_batched h.size hinv hne answer
  refine ⟨hsize, operationIterator_fire h.iterator, ⟨guard', ?_⟩, fun c hc => ?_, fun c hc => ?_,
    fun t' ht' c hc => ?_⟩
  · have hnext := hinv.fire (List.length_pos_iff.mpr hne) hops answer
    rw [hfire] at hnext
    exact hnext
  · exact (completed_fire houtcome c hc).elim (h.outcomes c) id
  · exact (failures_fire c hc).elim (h.failures c) (h.unput t (List.mem_cons_self ..) c)
  · rcases List.mem_append.mp ht' with ht' | ht'
    · exact (unput_fire houtcome t' ht' c hc).elim (h.unput t (List.mem_cons_self ..) c) id
    · exact h.unput t' (List.mem_cons_of_mem _ ht') c hc

theorem operations (h : Unbatched fails ops s ts) : s.operations = ops :=
  h.batched.elim fun _ hinv => hinv.operations

theorem handled (h : Unbatched fails ops s ts) : ∀ f ∈ s.handled, f = s.failures :=
  h.batched.elim fun _ hinv => hinv.handled

theorem length_handled_le (h : Unbatched fails ops s ts) : s.handled.length ≤ 1 := by
  obtain ⟨guard, hinv⟩ := h.batched
  have hends := hinv.ends
  have hle := Inv.ended_le_one (s.batched ops.length guard).pendingCount
  have hhandled : (s.batched ops.length guard).handled = s.handled := rfl
  rw [hhandled] at hends
  omega

/-- A join whose handler was called: all its operations have completed, and the map has just the
failures. -/
theorem of_handled (h : Unbatched fails ops s ts) (hhandled : s.handled ≠ []) :
    (s.completed.map Prod.fst).Perm ops ∧
      (∀ c, c ∈ s.failures.getD [] ↔ c.1 ∈ ops ∧ fails c.1 = some c.2) ∧
      (s.failures = none ↔ ∀ op ∈ ops, fails op = none) := by
  obtain ⟨guard, hinv⟩ := h.batched
  -- the handler is called where the count reaches zero, and nowhere else
  have hzero : s.pendingCount = 0 := by
    by_contra hne
    have hends : ts.countP isFinish + s.handled.length = ended s.pendingCount := hinv.ends
    rw [ended, if_neg hne, Nat.add_eq_zero_iff, List.length_eq_zero_iff] at hends
    exact hhandled hends.2
  obtain ⟨hit, hheld, hawaited, hunput, -⟩ := hinv.settled hzero
  have hcompleted : (s.completed.map Prod.fst).Perm ops := by
    have hall := hinv.all
    have hflight := hinv.inFlight
    rw [hit, hheld, List.append_nil, List.append_nil] at hall
    rw [hawaited, List.append_nil] at hflight
    exact hflight.symm.trans hall
  have hfailed : ∀ op, op ∈ failedIds s.completed ↔ op ∈ ops ∧ (fails op).isSome := by
    intro op
    unfold failedIds
    rw [List.mem_filterMap]
    constructor
    · rintro ⟨c, hc, hop⟩
      obtain ⟨e, he, rfl⟩ := Option.map_eq_some_iff.mp hop
      refine ⟨hcompleted.mem_iff.mp (List.mem_map_of_mem hc), ?_⟩
      rw [← h.outcomes c hc, he]
      rfl
    · rintro ⟨hop, hsome⟩
      obtain ⟨c, hc, rfl⟩ := List.mem_map.mp (hcompleted.mem_iff.mpr hop)
      rw [← h.outcomes c hc] at hsome
      obtain ⟨e, he⟩ := Option.isSome_iff_exists.mp hsome
      exact ⟨c, hc, by rw [he]; rfl⟩
  have hnone : s.failures = none ↔ failedIds s.completed = [] := (hinv.reports hzero).1
  -- no failure is still to be put into the map
  have hkeys : (failureKeys s.failures).Perm (failedIds s.completed) := by
    have := hinv.failed
    rwa [hunput, List.append_nil] at this
  refine ⟨hcompleted, fun c => ⟨fun hc => ?_, fun hc => ?_⟩, hnone.trans ⟨fun hnil => ?_, ?_⟩⟩
  · have hkey : c.1 ∈ failureKeys s.failures := List.mem_map_of_mem hc
    exact ⟨((hfailed c.1).mp (hkeys.mem_iff.mp hkey)).1, h.failures c hc⟩
  · have hkey : c.1 ∈ failureKeys s.failures :=
      hkeys.mem_iff.mpr ((hfailed c.1).mpr ⟨hc.1, by rw [hc.2]; rfl⟩)
    obtain ⟨c', hc', heq⟩ := List.mem_map.mp hkey
    have hvalue := h.failures c' hc'
    rw [heq, hc.2] at hvalue
    obtain rfl : c' = c := Prod.ext heq (Option.some.inj hvalue).symm
    exact hc'
  · intro op hop
    by_contra hfails
    have hmem := (hfailed op).mpr ⟨hop, Option.isSome_iff_ne_none.mpr hfails⟩
    rw [hnil] at hmem
    exact List.not_mem_nil hmem
  · intro hall
    apply List.eq_nil_iff_forall_not_mem.mpr
    intro op hop
    obtain ⟨hmem, hsome⟩ := (hfailed op).mp hop
    rw [hall op hmem] at hsome
    cases hsome

/-- A join that has no task left has called its handler. -/
theorem handled_of_done (h : Unbatched fails ops s []) :
    s.handled.length = 1 ∧ s.sent.Perm ops := by
  obtain ⟨guard, hinv⟩ := h.batched
  have hit := h.iterator
  have hzero : s.pendingCount = 0 := by
    have hpending := hinv.pending
    simp only [State.batched, hit, List.length_nil, total_nil] at hpending
    simpa using hpending
  constructor
  · have hends := hinv.ends
    simp only [State.batched, hzero, List.countP_nil] at hends
    simpa [ended] using hends
  · have hall := hinv.all
    simp only [State.batched, hit, List.flatMap_nil, List.append_nil] at hall
    exact hall

end Unbatched

end Xenon.Common.OperationJoin
