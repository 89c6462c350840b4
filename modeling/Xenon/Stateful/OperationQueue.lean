import Mathlib.Data.List.Perm.Basic

/-!
# Operation queues

`com.vmware.xenon.common.OperationQueue`: a queue with a limit whose sign says
whether it is first in first out. The code keeps its own element count, and
`clear` leaves that count as it is; that the count never falls below the number
of stored elements, so that `poll` never finds it negative, is a field.
-/

namespace Xenon.Stateful

variable {α : Type*}

structure OperationQueue (α : Type*) where
  limit : Int
  elementCount : Nat
  store : List α
  counted : store.length ≤ elementCount

namespace OperationQueue

def createFifo (limit : Int) : OperationQueue α := ⟨limit, 0, [], Nat.le_refl 0⟩

def createLifo (limit : Int) : OperationQueue α := ⟨-limit, 0, [], Nat.le_refl 0⟩

/-- `setLimit`, which throws for a limit that is not positive. -/
def setLimit (q : OperationQueue α) (limit : Int) : Option (OperationQueue α) :=
  if limit ≤ 0 then none
  else some { q with limit := if q.limit < 0 then -limit else limit }

def isEmpty (q : OperationQueue α) : Bool := q.store.isEmpty

/-- `offer`; `none` is the answer `false`, of a queue at its limit. -/
def offer (q : OperationQueue α) (op : α) : Option (OperationQueue α) :=
  if q.limit < 0 then
    if (q.elementCount : Int) ≥ -q.limit then none
    else some ⟨q.limit, q.elementCount + 1, op :: q.store, Nat.succ_le_succ q.counted⟩
  else
    if (q.elementCount : Int) ≥ q.limit then none
    else some ⟨q.limit, q.elementCount + 1, q.store ++ [op], by
      simpa using q.counted⟩

def poll (q : OperationQueue α) : Option (α × OperationQueue α) :=
  match h : q.store with
  | [] => none
  | op :: rest => some (op, ⟨q.limit, q.elementCount - 1, rest, by
      have := q.counted
      rw [h, List.length_cons] at this
      omega⟩)

def clear (q : OperationQueue α) : OperationQueue α :=
  { q with store := [], counted := Nat.zero_le _ }

variable {q q' : OperationQueue α} {op : α}

theorem store_of_setLimit {limit : Int} (h : q.setLimit limit = some q') :
    q'.store = q.store := by
  unfold setLimit at h
  split_ifs at h <;> exact (Option.some.inj h) ▸ rfl

/-- The discipline of a queue is not configurable. -/
theorem limit_of_setLimit {limit : Int} (h : q.setLimit limit = some q') (hq : 0 ≤ q.limit) :
    0 ≤ q'.limit := by
  unfold setLimit at h
  split_ifs at h with hlimit hlifo
  · omega
  · obtain rfl := Option.some.inj h
    show 0 ≤ limit
    omega

/-- `setOperationQueueLimit` of a configuration request, which may have no limit. -/
theorem store_configured (q : OperationQueue α) (limit : Option Int) :
    ((limit.bind q.setLimit).getD q).store = q.store := by
  cases h : limit.bind q.setLimit with
  | none => rfl
  | some q' =>
      obtain ⟨n, -, hn⟩ := Option.bind_eq_some_iff.mp h
      exact store_of_setLimit hn

theorem limit_configured (limit : Option Int) (hq : 0 ≤ q.limit) :
    0 ≤ ((limit.bind q.setLimit).getD q).limit := by
  cases h : limit.bind q.setLimit with
  | none => exact hq
  | some q' =>
      obtain ⟨n, -, hn⟩ := Option.bind_eq_some_iff.mp h
      exact limit_of_setLimit hn hq

/-- A queue that is first in first out takes a request at its end. -/
theorem store_of_offer (hq : 0 ≤ q.limit) (h : q.offer op = some q') :
    q'.store = q.store ++ [op] ∧ q'.limit = q.limit := by
  unfold offer at h
  rw [if_neg (by omega)] at h
  split_ifs at h
  obtain rfl := Option.some.inj h
  exact ⟨rfl, rfl⟩

theorem perm_of_offer (h : q.offer op = some q') : q'.store.Perm (op :: q.store) := by
  unfold offer at h
  split_ifs at h
  · exact (Option.some.inj h) ▸ List.Perm.refl _
  · exact (Option.some.inj h) ▸ List.perm_append_singleton op q.store

theorem store_of_poll (h : q.poll = some (op, q')) : q.store = op :: q'.store := by
  unfold poll at h
  split at h
  · exact absurd h (by simp)
  · rename_i hs
    obtain ⟨rfl, rfl⟩ := Prod.mk.inj (Option.some.inj h)
    exact hs

theorem limit_of_poll (h : q.poll = some (op, q')) : q'.limit = q.limit := by
  unfold poll at h
  split at h
  · exact absurd h (by simp)
  · obtain ⟨-, rfl⟩ := Prod.mk.inj (Option.some.inj h)
    rfl

theorem poll_eq_none : q.poll = none ↔ q.store = [] := by
  unfold poll
  split
  · rename_i hs
    simp [hs]
  · rename_i hs
    simp [hs]

@[simp] theorem isEmpty_iff : q.isEmpty = true ↔ q.store = [] := by
  simp [isEmpty]

@[simp] theorem clear_store : q.clear.store = [] := rfl

end OperationQueue

end Xenon.Stateful
