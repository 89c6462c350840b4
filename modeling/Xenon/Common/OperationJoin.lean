import Mathlib.Algebra.BigOperators.Group.List.Basic
import Mathlib.Algebra.Order.Group.Int
import Mathlib.Algebra.Ring.Int.Defs
import Mathlib.Algebra.Ring.Nat
import Mathlib.Data.List.Nodup
import Xenon.Foundation.Pool

/-!
# Joined operations

`OperationJoin` sends a collection of operations, at most `batchSize` at a time,
and calls one handler when all of them have completed. The first batch is sent by
a loop, the others from the completions of operations that were sent before. A
completion can arrive while the loop still runs, also from inside the call that
sends: the loop and the completions are tasks of a pool, and every access to the
shared fields is a step of its own.

Three sums over the tasks carry the accounting. Each task that still has
to send or is in flight holds a slot of the batch; the guard counter is the
number of slots in use, up to steps that are about to count; the pending counter
is the number of completions that have not been counted.
-/

namespace Xenon.Common.OperationJoin

open Foundation

variable {I E : Type*}

/-- The fields of a join, with the history of what it has done: which operations
it sent, how they completed, which of them it completed in turn, what the joined
handler was called with, and whether a check of the batch limit threw. -/
structure State (I E : Type*) where
  operations : List I
  batchSize : Nat
  operationIterator : List I
  failures : Option (List (I × E))
  pendingCount : Int
  batchSizeGuard : Int
  sent : List I
  completed : List (I × Option E)
  finished : List (I × Option E)
  handled : List (Option (List (I × E)))
  violated : Bool

inductive Task (I E : Type*) where
  /-- The loop of `sendWithBatch` over what is left of the local batch. -/
  | sendWithBatch (batch : List I)
  /-- The loop after `sendOperation`: it counts the guard up. -/
  | batchGuard (batch : List I)
  /-- The operation is in flight. -/
  | await (op : I)
  -- The sections of `parentCompletion`.
  | failuresLock (op : I) (e : E)
  | putFailure (op : I) (e : E)
  | decrementGuard
  -- The sections of `sendNext`, called from `parentCompletion`.
  | sendNext
  | nextGuard (op : I)
  | sendOperation (op : I)
  | decrementPending
  /-- Every operation is completed individually, then the joined handler called. -/
  | finish (ops : List I)

/-- `failures.put`. -/
def put [DecidableEq I] (m : List (I × E)) (op : I) (e : E) : List (I × E) :=
  m.filter (·.1 ≠ op) ++ [(op, e)]

namespace State

def send (s : State I E) (op : I) : State I E :=
  { s with sent := s.sent ++ [op] }

/-- `batchSize > 0 && batchSizeGuard.incrementAndGet() > batchSize` throws. -/
def incrementGuard (s : State I E) (next : List (Task I E)) : State I E × List (Task I E) :=
  if 0 < s.batchSize then
    let guard := s.batchSizeGuard + 1
    if guard > s.batchSize then ({ s with batchSizeGuard := guard, violated := true }, [])
    else ({ s with batchSizeGuard := guard }, next)
  else (s, next)

def failure [DecidableEq I] (s : State I E) (op : I) : Option E :=
  s.failures.bind fun m => (m.find? (·.1 = op)).map Prod.snd

end State

/-- One step of a task. The answer is the error of an operation that completes;
the other tasks do not read it. -/
def fire [DecidableEq I] (s : State I E) (t : Task I E) (answer : Option E) :
    State I E × List (Task I E) :=
  match t with
  | .sendWithBatch [] => (s, [])
  | .sendWithBatch (op :: batch) => (s.send op, [.batchGuard batch, .await op])
  | .batchGuard batch => s.incrementGuard [.sendWithBatch batch]
  | .await op =>
      ({ s with completed := s.completed ++ [(op, answer)] },
        match answer with
        | some e => [.failuresLock op e]
        | none => [.decrementGuard])
  | .failuresLock op e =>
      ({ s with failures := some (s.failures.getD []) }, [.putFailure op e])
  | .putFailure op e =>
      ({ s with failures := s.failures.map (put · op e) }, [.decrementGuard])
  | .decrementGuard => ({ s with batchSizeGuard := s.batchSizeGuard - 1 }, [.sendNext])
  | .sendNext =>
      match s.operationIterator with
      | [] => (s, [.decrementPending])
      | op :: rest => ({ s with operationIterator := rest }, [.nextGuard op])
  | .nextGuard op => s.incrementGuard [.sendOperation op]
  | .sendOperation op => (s.send op, [.decrementPending, .await op])
  | .decrementPending =>
      ({ s with pendingCount := s.pendingCount - 1 },
        if s.pendingCount - 1 ≠ 0 then [] else [.finish s.operations])
  | .finish (op :: ops) =>
      ({ s with finished := s.finished ++ [(op, s.failure op)] }, [.finish ops])
  | .finish [] => ({ s with handled := s.handled ++ [s.failures] }, [])

def join [DecidableEq I] : Machine (State I E) (Task I E) Empty (Option E) where
  input _ i := nomatch i
  fire s t answer := some (fire s t answer)

/-- The operations that `sendWithBatch` moves to its local list. -/
def firstBatch (ops : List I) (batchSize : Nat) : List I :=
  if 0 < batchSize then ops.take batchSize else ops

/-- `sendWith` on operations that the map iterates in the order of `ops`. -/
def start (ops : List I) (batchSize : Nat) : Pool (State I E) (Task I E) where
  shared :=
    { operations := ops
      batchSize := batchSize
      operationIterator := ops.drop (firstBatch ops batchSize).length
      failures := none
      pendingCount := ops.length
      batchSizeGuard := 0
      sent := []
      completed := []
      finished := []
      handled := []
      violated := false }
  tasks := [.sendWithBatch (firstBatch ops batchSize)]

/-! ## The accounting -/

section Weights

/-- The operations that a task has taken and not sent. -/
@[simp] def held : Task I E → List I
  | .sendWithBatch batch | .batchGuard batch => batch
  | .nextGuard op | .sendOperation op => [op]
  | _ => []

/-- The operation that is in flight. -/
@[simp] def awaited : Task I E → List I
  | .await op => [op]
  | _ => []

/-- The operation whose failure is still to be put into the map. -/
@[simp] def unput : Task I E → List I
  | .failuresLock op _ | .putFailure op _ => [op]
  | _ => []

@[simp] def isPut : Task I E → Bool
  | .putFailure _ _ => true
  | _ => false

@[simp] def isFinish : Task I E → Bool
  | .finish _ => true
  | _ => false

/-- The slots of the batch that a task holds. -/
@[simp] def slots : Task I E → Int
  | .sendWithBatch batch | .batchGuard batch => batch.length
  | .decrementPending | .finish _ => 0
  | _ => 1

/-- What a task stands for in `batchSizeGuard`. -/
@[simp] def guarded : Task I E → Int
  | .batchGuard _ => -1
  | .await _ | .failuresLock _ _ | .putFailure _ _ | .decrementGuard | .sendOperation _ => 1
  | _ => 0

/-- What a task stands for in `pendingCount`. -/
@[simp] def uncounted : Task I E → Int
  | .sendWithBatch batch | .batchGuard batch => batch.length
  | .nextGuard _ | .sendOperation _ => 2
  | .finish _ => 0
  | _ => 1

def total (w : Task I E → Int) (ts : List (Task I E)) : Int :=
  (ts.map w).sum

@[simp] theorem total_nil (w : Task I E → Int) : total w [] = 0 := rfl

@[simp] theorem total_cons (w : Task I E → Int) (t : Task I E) (ts : List (Task I E)) :
    total w (t :: ts) = w t + total w ts := by
  simp [total]

theorem total_perm (w : Task I E → Int) {ts ts' : List (Task I E)} (h : ts.Perm ts') :
    total w ts = total w ts' :=
  (h.map w).sum_eq

theorem total_mono {v w : Task I E → Int} (h : ∀ t, v t ≤ w t) (ts : List (Task I E)) :
    total v ts ≤ total w ts := by
  induction ts with
  | nil => exact le_refl _
  | cons t ts ih =>
      rw [total_cons, total_cons]
      exact add_le_add (h t) ih

theorem guarded_le_slots (t : Task I E) : guarded t ≤ slots t := by
  cases t <;> simp

theorem uncounted_nonneg (t : Task I E) : 0 ≤ uncounted t := by
  cases t <;> simp

theorem total_nonneg {w : Task I E → Int} (h : ∀ t, 0 ≤ w t) (ts : List (Task I E)) :
    0 ≤ total w ts := by
  simpa [total] using total_mono h ts

theorem total_eq_zero {w : Task I E → Int} (h : ∀ t, 0 ≤ w t) {ts : List (Task I E)}
    (hts : total w ts = 0) : ∀ t ∈ ts, w t = 0 := by
  induction ts with
  | nil => exact fun t ht => absurd ht List.not_mem_nil
  | cons t ts ih =>
      have ht := h t
      have hnonneg := total_nonneg h ts
      rw [total_cons] at hts
      intro t' ht'
      rcases List.mem_cons.mp ht' with rfl | ht'
      · omega
      · exact ih (by omega) t' ht'

end Weights

/-- The ids of the operations that failed. -/
def failedIds (completed : List (I × Option E)) : List I :=
  completed.filterMap fun c => c.2.map fun _ => c.1

/-- The keys of the failure map; none if there is no map. -/
def failureKeys (failures : Option (List (I × E))) : List I :=
  (failures.getD []).map Prod.fst

/-- The map is there when a failure is about to be put, and is empty only then. -/
def MapExists (failures : Option (List (I × E))) (puts : Nat) : Prop :=
  match failures with
  | none => puts = 0
  | some [] => 0 < puts
  | some (_ :: _) => True

/-- How often the end of the join has been reached. -/
def ended (pendingCount : Int) : Nat :=
  if pendingCount = 0 then 1 else 0

structure Inv (ops : List I) (batchSize : Nat) (s : State I E) (ts : List (Task I E)) : Prop where
  operations : s.operations = ops
  size : s.batchSize = batchSize
  all : (s.sent ++ (ts.flatMap held ++ s.operationIterator)).Perm ops
  inFlight : s.sent.Perm (s.completed.map Prod.fst ++ ts.flatMap awaited)
  slots : total slots ts ≤ batchSize
  full : s.operationIterator ≠ [] → total OperationJoin.slots ts = batchSize
  guard : s.batchSizeGuard = total guarded ts
  pending : s.pendingCount = s.operationIterator.length + total uncounted ts
  failed : (failureKeys s.failures ++ ts.flatMap unput).Perm (failedIds s.completed)
  mapExists : MapExists s.failures (ts.countP isPut)
  ends : ts.countP isFinish + s.handled.length = ended s.pendingCount
  handled : ∀ f ∈ s.handled, f = s.failures
  violated : s.violated = false

namespace Inv

variable {ops : List I} {batchSize : Nat} {s : State I E} {ts ts' : List (Task I E)}

theorem perm (hp : ts.Perm ts') (h : Inv ops batchSize s ts) : Inv ops batchSize s ts' where
  operations := h.operations
  size := h.size
  all := (((hp.flatMap_right held).append_right _).append_left _).symm.trans h.all
  inFlight := h.inFlight.trans ((hp.flatMap_right awaited).append_left _)
  slots := total_perm OperationJoin.slots hp ▸ h.slots
  full := total_perm OperationJoin.slots hp ▸ h.full
  guard := h.guard.trans (total_perm guarded hp)
  pending := by rw [h.pending, total_perm uncounted hp]
  failed := ((hp.flatMap_right unput).append_left _).symm.trans h.failed
  mapExists := hp.countP_eq isPut ▸ h.mapExists
  ends := hp.countP_eq isFinish ▸ h.ends
  handled := h.handled
  violated := h.violated

/-- While a completion is not counted, the join has not ended. -/
theorem not_ended {t : Task I E} (h : Inv ops batchSize s (t :: ts)) (ht : 0 < uncounted t) :
    s.pendingCount ≠ 0 ∧ (t :: ts).countP isFinish = 0 ∧ s.handled = [] := by
  have hpos := total_nonneg uncounted_nonneg ts
  have hne : s.pendingCount ≠ 0 := by
    have := h.pending
    rw [total_cons] at this
    omega
  have hends := h.ends
  rw [ended, if_neg hne, Nat.add_eq_zero_iff, List.length_eq_zero_iff] at hends
  exact ⟨hne, hends⟩

/-- The ids of the failed operations are those of some completed ones. -/
theorem failedIds_sublist (completed : List (I × Option E)) :
    (failedIds completed).Sublist (completed.map Prod.fst) := by
  induction completed with
  | nil => exact List.Sublist.refl _
  | cons c completed ih =>
      rcases c with ⟨op, _ | e⟩
      · exact ih.cons _
      · exact ih.cons_cons _

theorem failedIds_snoc (completed : List (I × Option E)) (op : I) (e : Option E) :
    failedIds (completed ++ [(op, e)]) = failedIds completed ++ (e.map fun _ => op).toList := by
  cases e <;> simp [failedIds]

theorem nodup_failures (hops : ops.Nodup) (h : Inv ops batchSize s ts) :
    (failureKeys s.failures ++ ts.flatMap unput).Nodup := by
  have hsent : s.sent.Nodup :=
    (h.all.nodup_iff.mpr hops).sublist (List.sublist_append_left _ _)
  have hcompleted : (s.completed.map Prod.fst).Nodup :=
    (h.inFlight.nodup_iff.mp hsent).sublist (List.sublist_append_left _ _)
  exact h.failed.nodup_iff.mpr (hcompleted.sublist (failedIds_sublist _))

theorem put_of_notMem [DecidableEq I] {m : List (I × E)} {op : I} (e : E)
    (hop : op ∉ m.map Prod.fst) : put m op e = m ++ [(op, e)] := by
  unfold put
  rw [List.filter_eq_self.mpr]
  intro c hc
  have : c.1 ≠ op := fun heq => hop (heq ▸ List.mem_map_of_mem hc)
  simpa using this

/-! One lemma for each task. What a step leaves alone it leaves alone by definition. -/

theorem send {op : I} {sent : List I} (h : s.sent.Perm (sent ++ ts.flatMap awaited)) :
    (s.sent ++ [op]).Perm (sent ++ op :: ts.flatMap awaited) :=
  (List.perm_append_singleton op s.sent).trans ((h.cons op).trans List.perm_middle.symm)

theorem sendWithBatch_cons {op : I} {batch : List I}
    (h : Inv ops batchSize s (.sendWithBatch (op :: batch) :: ts)) :
    Inv ops batchSize (s.send op) (.batchGuard batch :: .await op :: ts) :=
  { h with
    all := by simpa [State.send] using h.all
    inFlight := send h.inFlight
    slots := by simpa [add_assoc] using h.slots
    full := by simpa [State.send, add_assoc] using h.full
    guard := by simpa [State.send] using h.guard
    pending := by simpa [State.send, add_assoc] using h.pending }

theorem sendOperation {op : I} (h : Inv ops batchSize s (.sendOperation op :: ts)) :
    Inv ops batchSize (s.send op) (.decrementPending :: .await op :: ts) :=
  { h with
    all := by simpa [State.send] using h.all
    inFlight := send h.inFlight
    slots := by simpa using h.slots
    full := by simpa [State.send] using h.full
    guard := by simpa [State.send] using h.guard
    pending := by
      have := h.pending
      simp only [total_cons, uncounted, State.send] at this ⊢
      omega }

/-- A task that counts the guard up does not exceed the batch. -/
theorem incrementGuard_eq {t : Task I E} (hb : 1 ≤ batchSize) (h : Inv ops batchSize s (t :: ts))
    (ht : guarded t + 1 ≤ OperationJoin.slots t) (new : List (Task I E)) :
    s.incrementGuard new = ({ s with batchSizeGuard := s.batchSizeGuard + 1 }, new) := by
  have hle : s.batchSizeGuard + 1 ≤ s.batchSize := by
    have hguard := h.guard
    have hslots := h.slots
    have hts := total_mono guarded_le_slots ts
    rw [total_cons] at hguard hslots
    rw [h.size]
    omega
  unfold State.incrementGuard
  rw [if_pos (h.size ▸ hb)]
  exact if_neg (not_lt.mpr hle)

theorem batchGuard {batch : List I} (h : Inv ops batchSize s (.batchGuard batch :: ts)) :
    Inv ops batchSize { s with batchSizeGuard := s.batchSizeGuard + 1 }
      (.sendWithBatch batch :: ts) :=
  { h with
    guard := by
      have := h.guard
      simp only [total_cons, guarded] at this ⊢
      omega }

theorem nextGuard {op : I} (h : Inv ops batchSize s (.nextGuard op :: ts)) :
    Inv ops batchSize { s with batchSizeGuard := s.batchSizeGuard + 1 }
      (.sendOperation op :: ts) :=
  { h with
    guard := by
      have := h.guard
      simp only [total_cons, guarded] at this ⊢
      omega }

theorem await_completes {op : I} (h : Inv ops batchSize s (.await op :: ts)) :
    Inv ops batchSize { s with completed := s.completed ++ [(op, none)] }
      (.decrementGuard :: ts) :=
  { h with
    inFlight := by simpa using h.inFlight
    failed := by simpa [failedIds_snoc] using h.failed }

theorem await_fails {op : I} (e : E) (h : Inv ops batchSize s (.await op :: ts)) :
    Inv ops batchSize { s with completed := s.completed ++ [(op, some e)] }
      (.failuresLock op e :: ts) :=
  { h with
    inFlight := by simpa using h.inFlight
    failed := by
      rw [failedIds_snoc]
      exact List.perm_middle.trans
        ((h.failed.cons op).trans (List.perm_append_singleton op _).symm) }

theorem failuresLock {op : I} {e : E} (h : Inv ops batchSize s (.failuresLock op e :: ts)) :
    Inv ops batchSize { s with failures := some (s.failures.getD []) }
      (.putFailure op e :: ts) :=
  { h with
    mapExists := by
      cases s.failures.getD [] with
      | nil => simp [MapExists]
      | cons c m => trivial
    handled := by
      rw [(h.not_ended Int.one_pos).2.2]
      exact fun f hf => absurd hf List.not_mem_nil }

theorem putFailure [DecidableEq I] {op : I} {e : E} (hops : ops.Nodup)
    (h : Inv ops batchSize s (.putFailure op e :: ts)) :
    Inv ops batchSize { s with failures := s.failures.map (put · op e) }
      (.decrementGuard :: ts) := by
  obtain ⟨m, hm⟩ : ∃ m, s.failures = some m := by
    have := h.mapExists
    match hf : s.failures with
    | none => simp [hf, MapExists] at this
    | some m => exact ⟨m, rfl⟩
  have hop : op ∉ m.map Prod.fst := by
    have hnodup := h.nodup_failures hops
    rw [hm, failureKeys, Option.getD_some, List.flatMap_cons] at hnodup
    exact fun hmem => List.disjoint_of_nodup_append hnodup hmem (by simp)
  have hput : s.failures.map (put · op e) = some (m ++ [(op, e)]) := by
    rw [hm, Option.map_some, put_of_notMem e hop]
  rw [hput]
  exact
    { h with
      failed := by
        have := h.failed
        rw [hm] at this
        simpa [failureKeys] using this
      mapExists := by cases m <;> trivial
      handled := by
        rw [(h.not_ended Int.one_pos).2.2]
        exact fun f hf => absurd hf List.not_mem_nil }

theorem decrementGuard (h : Inv ops batchSize s (.decrementGuard :: ts)) :
    Inv ops batchSize { s with batchSizeGuard := s.batchSizeGuard - 1 } (.sendNext :: ts) :=
  { h with
    guard := by
      have := h.guard
      simp only [total_cons, guarded] at this ⊢
      omega }

/-- A slot is given up only when there is nothing left to send. -/
theorem sendNext_none (hit : s.operationIterator = [])
    (h : Inv ops batchSize s (.sendNext :: ts)) :
    Inv ops batchSize s (.decrementPending :: ts) :=
  { h with
    slots := by
      have := h.slots
      simp only [total_cons, OperationJoin.slots] at this ⊢
      omega
    full := fun hne => absurd hit hne }

theorem sendNext_some {op : I} {rest : List I} (hit : s.operationIterator = op :: rest)
    (h : Inv ops batchSize s (.sendNext :: ts)) :
    Inv ops batchSize { s with operationIterator := rest } (.nextGuard op :: ts) :=
  { h with
    all := by
      have := h.all
      rw [hit] at this
      exact (List.Perm.append_left _ List.perm_middle.symm).trans this
    full := fun _ => h.full (by simp [hit])
    pending := by
      have := h.pending
      rw [hit] at this
      simp only [total_cons, uncounted, List.length_cons] at this ⊢
      omega }

/-- The completion that counts the last operation, and no other, ends the join. -/
theorem decrementPending (h : Inv ops batchSize s (.decrementPending :: ts)) :
    Inv ops batchSize { s with pendingCount := s.pendingCount - 1 }
      ((if s.pendingCount - 1 ≠ 0 then [] else [.finish s.operations]) ++ ts) := by
  obtain ⟨hne, hfinish, hnil⟩ := h.not_ended Int.one_pos
  have hcount : ts.countP isFinish = 0 := hfinish
  have hslots : total OperationJoin.slots ts ≤ batchSize := by simpa using h.slots
  have hfull : s.operationIterator ≠ [] → total OperationJoin.slots ts = batchSize := by
    simpa using h.full
  have hguard : s.batchSizeGuard = total guarded ts := by simpa using h.guard
  have hpending : s.pendingCount - 1 = s.operationIterator.length + total uncounted ts := by
    have := h.pending
    simp only [total_cons, uncounted] at this
    omega
  by_cases hlast : s.pendingCount - 1 = 0
  · rw [if_neg (not_not.mpr hlast)]
    exact
      { h with
        slots := by simpa using hslots
        full := by simpa using hfull
        guard := by simpa using hguard
        pending := by simpa using hpending
        ends := by
          show (.finish s.operations :: ts).countP isFinish + s.handled.length =
            ended (s.pendingCount - 1)
          rw [List.countP_cons_of_pos rfl, hcount, hnil, hlast]
          rfl }
  · rw [if_pos hlast]
    exact
      { h with
        slots := hslots
        full := hfull
        guard := hguard
        pending := hpending
        ends := by simp [hcount, hnil, hlast, ended] }

theorem finish_nil (h : Inv ops batchSize s (.finish [] :: ts)) :
    Inv ops batchSize { s with handled := s.handled ++ [s.failures] } ts :=
  { h with
    slots := by simpa using h.slots
    full := by simpa using h.full
    guard := by simpa using h.guard
    pending := by simpa using h.pending
    ends := by
      have := h.ends
      rw [List.countP_cons_of_pos rfl] at this
      rw [List.length_append, List.length_singleton, ← this]
      omega
    handled := by
      intro f hf
      rw [List.mem_append, List.mem_singleton] at hf
      exact hf.elim (h.handled f) id }

/-- The loop of `sendWithBatch` is over. -/
theorem sendWithBatch_nil (h : Inv ops batchSize s (.sendWithBatch [] :: ts)) :
    Inv ops batchSize s ts :=
  { h with
    slots := by simpa using h.slots
    full := by simpa using h.full
    guard := by simpa using h.guard
    pending := by simpa using h.pending }

theorem fire [DecidableEq I] {t : Task I E} (hb : 1 ≤ batchSize) (hops : ops.Nodup)
    (h : Inv ops batchSize s (t :: ts)) (answer : Option E) :
    Inv ops batchSize (fire s t answer).1 ((fire s t answer).2 ++ ts) := by
  match t with
  | .sendWithBatch [] => exact h.sendWithBatch_nil
  | .sendWithBatch (op :: batch) => exact h.sendWithBatch_cons
  | .batchGuard batch =>
      rw [OperationJoin.fire, h.incrementGuard_eq hb (by simp)]
      exact h.batchGuard
  | .await op =>
      match answer with
      | none => exact h.await_completes
      | some e => exact h.await_fails e
  | .failuresLock op e => exact h.failuresLock
  | .putFailure op e => exact h.putFailure hops
  | .decrementGuard => exact h.decrementGuard
  | .sendNext =>
      rw [OperationJoin.fire]
      match hit : s.operationIterator with
      | [] => exact h.sendNext_none hit
      | op :: rest => exact h.sendNext_some hit
  | .nextGuard op =>
      rw [OperationJoin.fire, h.incrementGuard_eq hb (by simp)]
      exact h.nextGuard
  | .sendOperation op => exact h.sendOperation
  | .decrementPending => exact h.decrementPending
  | .finish (op :: ops') => exact { h with }
  | .finish [] => exact h.finish_nil

theorem firstBatch_append_drop (ops : List I) (batchSize : Nat) :
    firstBatch ops batchSize ++ ops.drop (firstBatch ops batchSize).length = ops := by
  apply List.prefix_iff_eq_append.mp
  unfold firstBatch
  split
  · exact List.take_prefix _ _
  · exact List.prefix_rfl

theorem init (hne : ops ≠ []) (hb : 1 ≤ batchSize) :
    Inv ops batchSize (start ops batchSize : Pool (State I E) (Task I E)).shared
      (start ops batchSize).tasks := by
  have hpos : ops.length ≠ 0 := by simpa using hne
  exact
    { operations := rfl
      size := rfl
      all := by simp [start, firstBatch_append_drop]
      inFlight := by simp [start]
      slots := by simp [start, firstBatch, Nat.lt_of_lt_of_le Nat.zero_lt_one hb]
      full := by
        simp only [start, firstBatch, Nat.lt_of_lt_of_le Nat.zero_lt_one hb, if_true, ne_eq,
          List.drop_eq_nil_iff, List.length_take, total_cons, OperationJoin.slots, total_nil]
        omega
      guard := by simp [start]
      pending := by
        simp only [start, firstBatch, Nat.lt_of_lt_of_le Nat.zero_lt_one hb, if_true,
          List.length_drop, List.length_take, total_cons, uncounted, total_nil]
        omega
      failed := by simp [start, failureKeys, failedIds]
      mapExists := by simp [start, MapExists]
      ends := by simp [start, ended, hne]
      handled := by simp [start]
      violated := rfl }

/-- When every completion is counted, nothing is held, in flight or still to be
put into the map. -/
theorem settled (h : Inv ops batchSize s ts) (hzero : s.pendingCount = 0) :
    s.operationIterator = [] ∧ ts.flatMap held = [] ∧ ts.flatMap awaited = [] ∧
      ts.flatMap unput = [] ∧ ts.countP isPut = 0 := by
  have hsum : total uncounted ts = 0 ∧ s.operationIterator.length = 0 := by
    have hnonneg := total_nonneg uncounted_nonneg ts
    have := h.pending
    omega
  have hall := total_eq_zero uncounted_nonneg hsum.1
  refine ⟨List.length_eq_zero_iff.mp hsum.2, ?_, ?_, ?_, ?_⟩
  all_goals
    first
    | rw [List.flatMap_eq_nil_iff]
    | rw [List.countP_eq_zero]
    intro t ht
    have := hall t ht
    cases t <;> simp_all

theorem ended_le_one (n : Int) : ended n ≤ 1 := by
  unfold ended
  split
  · exact le_refl 1
  · exact Nat.zero_le 1

end Inv

/-! ## How long a join can run -/

/-- The steps that a task leads to, in a join of `n` operations. -/
@[simp] def work (n : Nat) : Task I E → Nat
  | .sendWithBatch batch => batch.length * (n + 9) + 1
  | .batchGuard batch => batch.length * (n + 9) + 2
  | .await _ => n + 7
  | .failuresLock _ _ => n + 6
  | .putFailure _ _ => n + 5
  | .decrementGuard => n + 4
  | .sendNext => n + 3
  | .nextGuard _ => 2 * n + 11
  | .sendOperation _ => 2 * n + 10
  | .decrementPending => n + 2
  | .finish ops => ops.length + 1

def workLeft (s : State I E) (ts : List (Task I E)) : Nat :=
  s.operationIterator.length * (s.operations.length + 9) +
    (ts.map (work s.operations.length)).sum

theorem workLeft_perm {s : State I E} {ts ts' : List (Task I E)} (h : ts.Perm ts') :
    workLeft s ts = workLeft s ts' := by
  unfold workLeft
  rw [(h.map _).sum_eq]

theorem workLeft_append (s : State I E) (ts ts' : List (Task I E)) :
    workLeft s (ts ++ ts') = workLeft s ts + (ts'.map (work s.operations.length)).sum := by
  simp [workLeft, add_assoc]

theorem incrementGuard_work (s : State I E) (t : Task I E) :
    workLeft (s.incrementGuard [t]).1 (s.incrementGuard [t]).2 ≤ workLeft s [t] := by
  unfold State.incrementGuard
  split
  · dsimp only
    split <;> simp [workLeft]
  · exact le_refl _

section Steps

variable [DecidableEq I]

/-- Every step takes a unit off what is left. -/
theorem fire_work (s : State I E) (t : Task I E) (answer : Option E) :
    workLeft (fire s t answer).1 (fire s t answer).2 + 1 ≤ workLeft s [t] := by
  -- every step takes the work of its task away and leaves less behind
  match t with
  | .sendWithBatch [] => simp [workLeft, fire]
  | .sendWithBatch (op :: batch) =>
      simp [workLeft, fire, State.send, Nat.add_mul]
      omega
  | .batchGuard batch =>
      have := incrementGuard_work s (.sendWithBatch batch)
      simp only [workLeft, fire, List.map_cons, List.map_nil, List.sum_cons, List.sum_nil,
        work] at this ⊢
      omega
  | .await op =>
      cases answer with
      | none | some e =>
          simp only [workLeft, fire, List.map_cons, List.map_nil, List.sum_cons, List.sum_nil, work]
          omega
  | .failuresLock op e | .putFailure op e | .decrementGuard =>
      simp only [workLeft, fire, List.map_cons, List.map_nil, List.sum_cons, List.sum_nil, work]
      omega
  | .sendNext =>
      rw [fire]
      match hit : s.operationIterator with
      | [] => simp [workLeft, hit]
      | op :: rest =>
          simp only [workLeft, hit, List.length_cons, Nat.add_mul, List.map_cons, List.map_nil,
            List.sum_cons, List.sum_nil, work]
          omega
  | .nextGuard op =>
      have := incrementGuard_work s (.sendOperation op)
      simp only [workLeft, fire, List.map_cons, List.map_nil, List.sum_cons, List.sum_nil,
        work] at this ⊢
      omega
  | .sendOperation op =>
      simp only [workLeft, fire, State.send, List.map_cons, List.map_nil, List.sum_cons,
        List.sum_nil, work]
      omega
  | .decrementPending =>
      simp only [workLeft, fire]
      split
      · simp only [List.map_cons, List.map_nil, List.sum_cons, List.sum_nil, work]
        omega
      · simp only [List.map_cons, List.map_nil, List.sum_cons, List.sum_nil, work]
        omega
  | .finish [] =>
      simp only [workLeft, fire, List.map_cons, List.map_nil, List.sum_cons, List.sum_nil, work]
      omega
  | .finish (op :: ops) =>
      simp only [workLeft, fire, List.map_cons, List.map_nil, List.sum_cons, List.sum_nil, work]
      rw [List.length_cons]
      omega

theorem fire_operations (s : State I E) (t : Task I E) (answer : Option E) :
    (fire s t answer).1.operations = s.operations := by
  match t with
  | .sendWithBatch [] | .sendWithBatch (op :: batch) | .await op | .failuresLock op e
  | .putFailure op e | .decrementGuard | .sendOperation op | .decrementPending
  | .finish [] | .finish (op :: ops) => rfl
  | .batchGuard batch | .nextGuard op =>
      simp only [fire, State.incrementGuard]
      split
      · split <;> rfl
      · rfl
  | .sendNext =>
      rw [fire]
      split <;> rfl

variable {ops : List I} {batchSize : Nat} {p : Pool (State I E) (Task I E)}
  {es : List (PoolEvent Empty (Option E))}

/-- A run of a join is no longer than what its first task leads to. -/
theorem length_run (h : Reach join.step (Machine.Admits fun _ _ _ => True)
    (start ops batchSize) es p) :
    p.shared.operations = ops ∧ es.length + workLeft p.shared p.tasks ≤
      ops.length * (ops.length + 9) + 1 := by
  induction h with
  | refl =>
      have hlen : (firstBatch ops batchSize).length +
          (ops.drop (firstBatch ops batchSize).length).length = ops.length := by
        rw [← List.length_append, Inv.firstBatch_append_drop]
      simp only [start, workLeft, List.map_cons, List.map_nil, List.sum_cons, List.sum_nil, work,
        List.length_nil]
      refine ⟨trivial, ?_⟩
      have hmul : ops.length * (ops.length + 9) =
          (firstBatch ops batchSize).length * (ops.length + 9) +
            (ops.drop (firstBatch ops batchSize).length).length * (ops.length + 9) := by
        rw [← Nat.add_mul, hlen]
      omega
  | @snoc es q q' e _ _ hstep ih =>
      obtain ⟨hops, hle⟩ := ih
      rcases Machine.step_cases hstep with ⟨i, -⟩ | ⟨n, k, t, r, rest, -, -, hperm, hr, rfl⟩
      · exact nomatch i
      · obtain rfl : fire q.shared t k = r := Option.some.inj hr
        have hw := fire_work q.shared t k
        refine ⟨(fire_operations _ _ _).trans hops, ?_⟩
        rw [workLeft_perm hperm, ← List.singleton_append, workLeft_append] at hle
        rw [workLeft_append, fire_operations, List.length_append, List.length_singleton]
        show _ + (workLeft (fire q.shared t k).1 (fire q.shared t k).2 + _) ≤ _
        omega

end Steps

/-! ## Every operation is sent once, and the handler called once -/

/-- The operations that were sent and have not completed. -/
def inFlight [DecidableEq I] (s : State I E) : List I :=
  s.sent.filter (· ∉ s.completed.map Prod.fst)

/-- The failure map that the joined handler gets: `null` when no operation
failed, else its keys are the ids of the failed ones. -/
def Reports (failures : Option (List (I × E))) (completed : List (I × Option E)) : Prop :=
  (failures = none ↔ failedIds completed = []) ∧
    ∀ m ∈ failures, (m.map Prod.fst).Perm (failedIds completed)

namespace Inv

variable {ops : List I} {batchSize : Nat} {s : State I E} {ts : List (Task I E)}

theorem sent_nodup (hops : ops.Nodup) (h : Inv ops batchSize s ts) :
    s.sent.Nodup ∧ s.sent ⊆ ops := by
  constructor
  · exact (h.all.nodup_iff.mpr hops).sublist (List.sublist_append_left _ _)
  · exact fun op hop => h.all.subset (List.mem_append_left _ hop)

theorem length_awaited_le (ts : List (Task I E)) :
    ((ts.flatMap awaited).length : Int) ≤ total OperationJoin.slots ts := by
  induction ts with
  | nil => exact le_refl _
  | cons t ts ih =>
      have ht : ((awaited t).length : Int) ≤ OperationJoin.slots t := by cases t <;> simp
      rw [total_cons, List.flatMap_cons, List.length_append]
      omega

theorem length_inFlight_le [DecidableEq I] (hops : ops.Nodup) (h : Inv ops batchSize s ts) :
    (OperationJoin.inFlight s).length ≤ batchSize := by
  have hnodup := h.inFlight.nodup_iff.mp (h.sent_nodup hops).1
  have hperm : (OperationJoin.inFlight s).Perm (ts.flatMap awaited) := by
    refine (h.inFlight.filter _).trans ?_
    rw [List.filter_append, List.filter_eq_nil_iff.mpr (by simp), List.nil_append,
      List.filter_eq_self.mpr]
    intro op hop
    have : op ∉ s.completed.map Prod.fst :=
      fun hmem => List.disjoint_of_nodup_append hnodup hmem hop
    simpa using this
  have hle := length_awaited_le ts
  have hslots := h.slots
  rw [hperm.length_eq]
  omega

theorem reports (h : Inv ops batchSize s ts) (hzero : s.pendingCount = 0) :
    Reports s.failures s.completed := by
  obtain ⟨-, -, -, hunput, hput⟩ := h.settled hzero
  have hfailed := h.failed
  have hmap := h.mapExists
  rw [hunput, List.append_nil] at hfailed
  rw [hput] at hmap
  match hm : s.failures with
  | none =>
      rw [hm] at hfailed
      exact ⟨iff_of_true rfl hfailed.symm.eq_nil, fun m hm => nomatch hm⟩
  | some [] =>
      rw [hm] at hmap
      exact absurd hmap (lt_irrefl 0)
  | some (c :: m) =>
      rw [hm] at hfailed
      refine ⟨iff_of_false nofun fun hnil => ?_, ?_⟩
      · rw [hnil] at hfailed
        exact absurd hfailed.eq_nil (List.cons_ne_nil _ _)
      · rintro m' ⟨⟩
        exact hfailed

end Inv

section Runs

variable [DecidableEq I] {ops : List I} {batchSize : Nat} {p : Pool (State I E) (Task I E)}
  {es : List (PoolEvent Empty (Option E))}

theorem reach_inv (hne : ops ≠ []) (hops : ops.Nodup) (hb : 1 ≤ batchSize)
    (h : Reach join.step (Machine.Admits fun _ _ _ => True) (start ops batchSize) es p) :
    Inv ops batchSize p.shared p.tasks := by
  refine Machine.invariant (Inv ops batchSize) ⟨es, h⟩ Inv.perm (Inv.init hne hb)
    (fun i => nomatch i) ?_
  intro s t ts answer r _ hfire hinv
  obtain rfl : fire s t answer = r := Option.some.inj hfire
  exact hinv.fire hb hops answer

/-- In every state of every run of a join: no check of the batch limit throws, no
operation is sent twice, at most `batchSize` are in flight, and the joined handler
has been called at most once, after all operations completed and with the failures
of those that failed. A run ends after boundedly many steps; then all operations
were sent and the handler was called. -/
theorem join_sends_once (hne : ops ≠ []) (hops : ops.Nodup) (hb : 1 ≤ batchSize)
    (h : Reach join.step (Machine.Admits fun _ _ _ => True) (start ops batchSize) es p) :
    p.shared.violated = false ∧
    (p.shared.sent.Nodup ∧ p.shared.sent ⊆ ops) ∧
    (inFlight p.shared).length ≤ batchSize ∧
    p.shared.handled.length ≤ 1 ∧
    (∀ failures ∈ p.shared.handled, (p.shared.completed.map Prod.fst).Perm ops ∧
      Reports failures p.shared.completed) ∧
    es.length ≤ ops.length * (ops.length + 9) + 1 ∧
    (p.tasks = [] → p.shared.sent.Perm ops ∧ p.shared.handled.length = 1) := by
  have hinv := reach_inv hne hops hb h
  have hends := hinv.ends
  refine ⟨hinv.violated, hinv.sent_nodup hops, hinv.length_inFlight_le hops, ?_, ?_, ?_, ?_⟩
  · have := Inv.ended_le_one p.shared.pendingCount
    omega
  · intro failures hf
    -- the handler is called where nothing is pending
    have hzero : p.shared.pendingCount = 0 := by
      by_contra hne'
      rw [ended, if_neg hne', Nat.add_eq_zero_iff, List.length_eq_zero_iff] at hends
      rw [hends.2] at hf
      exact absurd hf List.not_mem_nil
    obtain ⟨hit, hheld, hawaited, -, -⟩ := hinv.settled hzero
    constructor
    · have hall := hinv.all
      have hflight := hinv.inFlight
      rw [hit, hheld, List.append_nil, List.append_nil] at hall
      rw [hawaited, List.append_nil] at hflight
      exact hflight.symm.trans hall
    · rw [hinv.handled failures hf]
      exact hinv.reports hzero
  · have := (length_run h).2
    omega
  · intro hnil
    have hit : p.shared.operationIterator = [] := by
      by_contra hne'
      -- while operations are left, the batch is full and tasks are there to go on
      have hfull := hinv.full hne'
      rw [hnil, total_nil] at hfull
      omega
    have hzero : p.shared.pendingCount = 0 := by
      have hpending := hinv.pending
      rw [hit, hnil] at hpending
      simpa using hpending
    constructor
    · have hall := hinv.all
      rw [hit, hnil] at hall
      simpa using hall
    · rw [hnil, hzero] at hends
      simpa [ended] using hends

/-- Two operations, one at a time; the first fails from inside the call that
sends it. -/
theorem join_sends_once_inline :
    ∃ p : Pool (State Nat String) (Task Nat String),
      p.shared.sent = [1, 2] ∧ p.shared.handled = [some [(1, "timeout")]] ∧
      p.shared.violated = false ∧
      (∀ failures ∈ p.shared.handled, (p.shared.completed.map Prod.fst).Perm [1, 2] ∧
        Reports failures p.shared.completed) := by
  have hexec : ∃ p : Pool (State Nat String) (Task Nat String),
      join.exec (fun _ _ _ => True) (start [1, 2] 1)
        [.fire 0 none, .fire 1 (some "timeout"), .fire 0 none, .fire 0 none, .fire 0 none,
          .fire 0 none, .fire 0 none, .fire 0 none, .fire 1 none, .fire 0 none, .fire 0 none,
          .fire 0 none, .fire 0 none, .fire 0 none, .fire 0 none, .fire 0 none] = some p ∧
        p.shared.sent = [1, 2] ∧ p.shared.handled = [some [(1, "timeout")]] :=
    ⟨_, rfl, rfl, rfl⟩
  obtain ⟨p, hp, hsent, hhandled⟩ := hexec
  obtain ⟨es, hrun⟩ := Machine.reaches_of_exec hp
  have := join_sends_once (by decide) (by decide) (le_refl 1) hrun
  exact ⟨p, hsent, hhandled, this.1, this.2.2.2.2.1⟩

end Runs

end Xenon.Common.OperationJoin
