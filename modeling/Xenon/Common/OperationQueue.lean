import Xenon.Foundation.History
import Xenon.Stateful.OperationQueue

/-!
# The accounts of an operation queue

`com.vmware.xenon.common.OperationQueue` field by field, with its exceptions. An element count is
kept beside the store. `offer` compares that count with the limit and `poll` lowers it; `clear` and
`transferAll` empty the store and leave the count. The order of the operations and their number do
not suffer from that, the limit does.
-/

namespace Xenon.Common

open Xenon.Foundation

variable {α : Type*}

/-- The order in which a queue gives its operations back. -/
inductive Discipline where
  | fifo
  | lifo
deriving DecidableEq

namespace Discipline

/-- Of the operations that wait, oldest first, the one that is next. -/
def next : Discipline → List α → Option α
  | fifo, waiting => waiting.head?
  | lifo, waiting => waiting.getLast?

/-- The operations that wait after the next one has left. -/
def others : Discipline → List α → List α
  | fifo, waiting => waiting.tail
  | lifo, waiting => waiting.dropLast

/-- The waiting operations in the order in which they leave. -/
def order : Discipline → List α → List α
  | fifo, waiting => waiting
  | lifo, waiting => waiting.reverse

/-- Where the order takes a new operation. -/
def enqueue : Discipline → α → List α → List α
  | fifo, op, store => store ++ [op]
  | lifo, op, store => op :: store

variable {d : Discipline} {op : α} {waiting rest : List α}

theorem order_snoc : d.order (waiting ++ [op]) = d.enqueue op (d.order waiting) := by
  cases d with
  | fifo => rfl
  | lifo => exact List.reverse_append

theorem order_perm (d : Discipline) (waiting : List α) : (d.order waiting).Perm waiting := by
  cases d with
  | fifo => exact .refl waiting
  | lifo => exact waiting.reverse_perm

theorem head_order (d : Discipline) (waiting : List α) :
    (d.order waiting).head? = d.next waiting := by
  cases d with
  | fifo => rfl
  | lifo => exact List.head?_reverse

theorem tail_order (d : Discipline) (waiting : List α) :
    (d.order waiting).tail = d.order (d.others waiting) := by
  cases d with
  | fifo => rfl
  | lifo => exact List.tail_reverse

theorem order_nil (d : Discipline) : d.order ([] : List α) = [] := by
  cases d with
  | fifo => rfl
  | lifo => rfl

theorem length_enqueue (d : Discipline) (op : α) (store : List α) :
    (d.enqueue op store).length = store.length + 1 := by
  cases d with
  | fifo => exact List.length_append
  | lifo => rfl

/-- The next operation and the others are all that wait. -/
theorem perm_of_order (h : d.order waiting = op :: rest) :
    waiting.Perm (op :: d.others waiting) := by
  have hrest : rest = d.order (d.others waiting) := by
    rw [← tail_order, h, List.tail_cons]
  calc waiting.Perm (d.order waiting) := (d.order_perm waiting).symm
    _ = op :: d.order (d.others waiting) := by rw [h, hrest]
    List.Perm _ (op :: d.others waiting) := (d.order_perm _).cons op

end Discipline

/-- `com.vmware.xenon.common.OperationQueue`. A positive limit indicates first in first out, a
negative limit last in first out. -/
structure OperationQueue (α : Type*) where
  limit : Int
  elementCount : Int := 0
  store : List α := []
deriving DecidableEq

namespace OperationQueue

inductive Exception where
  | illegalArgument (message : String)
  | illegalState (message : String)
deriving DecidableEq

def createFifo (limit : Int) : OperationQueue α := { limit := limit }

def createLifo (limit : Int) : OperationQueue α := { limit := -limit }

def create : Discipline → Int → OperationQueue α
  | .fifo, limit => createFifo limit
  | .lifo, limit => createLifo limit

/-- The discipline that the limit encodes. -/
def discipline (q : OperationQueue α) : Discipline := if q.limit < 0 then .lifo else .fifo

def getLimit (q : OperationQueue α) : Int := q.limit.natAbs

def setLimit (q : OperationQueue α) (limit : Int) : Except Exception Unit × OperationQueue α :=
  if limit ≤ 0 then (.error (.illegalArgument "limit must be greater than zero"), q)
  else (.ok (), { q with limit := if q.limit < 0 then -limit else limit })

/-- `offer`; `none` is `null`. -/
def offer (q : OperationQueue α) (op : Option α) : Except Exception Bool × OperationQueue α :=
  match op with
  | none => (.error (.illegalArgument "op is required"), q)
  | some op =>
      if q.limit < 0 then
        if q.elementCount ≥ -q.limit then (.ok false, q)
        else (.ok true,
          { q with store := op :: q.store, elementCount := q.elementCount + 1 })
      else
        if q.elementCount ≥ q.limit then (.ok false, q)
        else (.ok true,
          { q with store := q.store ++ [op], elementCount := q.elementCount + 1 })

/-- `poll`. An operation has left the store when the count is found negative. -/
def poll (q : OperationQueue α) : Except Exception (Option α) × OperationQueue α :=
  match q.store with
  | [] => (.ok none, q)
  | op :: rest =>
      let q' := { q with store := rest, elementCount := q.elementCount - 1 }
      if q'.elementCount < 0 then (.error (.illegalState "elementCount is negative"), q')
      else (.ok (some op), q')

/-- `transferAll`: the collection with the operations added, and the queue. -/
def transferAll (q : OperationQueue α) (pendingOps : List α) : List α × OperationQueue α :=
  (pendingOps ++ q.store, { q with store := [] })

def clear (q : OperationQueue α) : OperationQueue α := { q with store := [] }

def size (q : OperationQueue α) : Int × OperationQueue α :=
  (q.store.length, { q with elementCount := q.store.length })

inductive Call (α : Type*) where
  | offer (op : Option α)
  | poll
  | transferAll (pendingOps : List α)
  | clear
  | size
  | setLimit (limit : Int)
deriving DecidableEq

inductive Answer (α : Type*) where
  | offer (accepted : Except Exception Bool)
  | poll (op : Except Exception (Option α))
  | transferAll (pendingOps : List α)
  | clear
  | size (count : Int)
  | setLimit (result : Except Exception Unit)

def call (q : OperationQueue α) : Call α → Answer α × OperationQueue α
  | .offer op => ((.offer (q.offer op).1), (q.offer op).2)
  | .poll => (.poll q.poll.1, q.poll.2)
  | .transferAll pendingOps =>
      (.transferAll (q.transferAll pendingOps).1, (q.transferAll pendingOps).2)
  | .clear => (.clear, q.clear)
  | .size => (.size q.size.1, q.size.2)
  | .setLimit limit => (.setLimit (q.setLimit limit).1, (q.setLimit limit).2)

/-- The calls that remove all operations at once. -/
def Call.removesAll : Call α → Bool
  | .transferAll _ => true
  | .clear => true
  | _ => false

/-! ## The ledger of the callers -/

/-- The operations that were accepted, those that left, and those that were accepted and have not
been removed yet, each in the order in which that happened. -/
structure Ledger (α : Type*) where
  accepted : List α := []
  left : List α := []
  waiting : List α := []

/-- Enter a call and its answer. `stored` is what `clear` drops. -/
def Ledger.enter (d : Discipline) (stored : List α) (l : Ledger α) : Call α → Answer α → Ledger α
  | .offer (some op), .offer (.ok true) =>
      { l with accepted := l.accepted ++ [op], waiting := l.waiting ++ [op] }
  | .poll, .poll (.ok (some op)) =>
      { l with left := l.left ++ [op], waiting := d.others l.waiting }
  | .transferAll pendingOps, .transferAll ops =>
      { l with left := l.left ++ ops.drop pendingOps.length, waiting := [] }
  | .clear, _ => { l with left := l.left ++ stored, waiting := [] }
  | _, _ => l

/-- One call, with its entry. -/
def step (d : Discipline) (p : OperationQueue α × Ledger α) (c : Call α) :
    OperationQueue α × Ledger α :=
  ((p.1.call c).2, p.2.enter d p.1.store c (p.1.call c).1)

/-- The calls of a run, on a queue that no one has used. -/
def run (q : OperationQueue α) (calls : List (Call α)) : OperationQueue α × Ledger α :=
  calls.foldl (step q.discipline) (q, {})

theorem run_snoc (q : OperationQueue α) (calls : List (Call α)) (c : Call α) :
    run q (calls ++ [c]) = step q.discipline (run q calls) c := by
  unfold run
  rw [List.foldl_append]
  rfl

/-- What is expected of one call: the count is the number of stored operations after it, `offer`
accepts below the limit, `poll` answers the next of the operations that wait, and an operation that
was accepted has left or is stored. -/
structure Accounted (d : Discipline) (p : OperationQueue α × Ledger α) (c : Call α) : Prop where
  count : (step d p c).1.elementCount = (step d p c).1.store.length
  offer : ∀ op, c = .offer (some op) →
    (p.1.call c).1 = .offer (.ok (decide ((p.1.store.length : Int) < p.1.getLimit)))
  poll : c = .poll → (p.1.call c).1 = .poll (.ok (d.next p.2.waiting))
  once : (step d p c).2.accepted.Perm ((step d p c).2.left ++ (step d p c).1.store)

/-! ## What a call does -/

section Calls

variable {d : Discipline} {q : OperationQueue α} {op : α} {rest : List α}

theorem offer_some : q.offer (some op) =
    if q.elementCount < q.getLimit then
      (.ok true, { q with
        store := q.discipline.enqueue op q.store, elementCount := q.elementCount + 1 })
    else (.ok false, q) := by
  unfold offer getLimit discipline
  by_cases hlifo : q.limit < 0
  · have habs : (q.limit.natAbs : Int) = -q.limit := by omega
    simp only [hlifo, if_true, habs]
    by_cases hfull : q.elementCount ≥ -q.limit
    · rw [if_pos hfull, if_neg (Int.not_lt.mpr hfull)]
    · rw [if_neg hfull, if_pos (Int.not_le.mp hfull)]
      rfl
  · have habs : (q.limit.natAbs : Int) = q.limit := by omega
    simp only [hlifo, if_false, habs]
    by_cases hfull : q.elementCount ≥ q.limit
    · rw [if_pos hfull, if_neg (Int.not_lt.mpr hfull)]
    · rw [if_neg hfull, if_pos (Int.not_le.mp hfull)]
      rfl

theorem poll_of_nil (h : q.store = []) : q.poll = (.ok none, q) := by
  unfold poll
  rw [h]

theorem poll_of_cons (h : q.store = op :: rest) (hcount : 0 < q.elementCount) :
    q.poll = (.ok (some op), { q with store := rest, elementCount := q.elementCount - 1 }) := by
  unfold poll
  rw [h]
  exact if_neg (by simp only; omega)

/-- A limit that is refused changes nothing. -/
theorem setLimit_frame (q : OperationQueue α) (limit : Int) :
    (q.setLimit limit).2.store = q.store ∧
      (q.setLimit limit).2.elementCount = q.elementCount := by
  unfold setLimit
  by_cases hlimit : limit ≤ 0
  · rw [if_pos hlimit]
    exact ⟨rfl, rfl⟩
  · rw [if_neg hlimit]
    exact ⟨rfl, rfl⟩

/-- The discipline is not configurable. -/
theorem setLimit_discipline (q : OperationQueue α) (limit : Int) :
    (q.setLimit limit).2.discipline = q.discipline := by
  have hsign : ¬ limit ≤ 0 → ((if q.limit < 0 then -limit else limit) < 0 ↔ q.limit < 0) := by
    intro hlimit
    split_ifs with hlifo
    · omega
    · omega
  unfold setLimit
  by_cases hlimit : limit ≤ 0
  · rw [if_pos hlimit]
  · rw [if_neg hlimit]
    simp only [discipline, hsign hlimit]

end Calls

/-! ## The order and the number of the operations -/

/-- The store holds what waits, in the order in which it leaves, and the count is never below the
number of stored operations. -/
structure Linked (d : Discipline) (p : OperationQueue α × Ledger α) : Prop where
  discipline : p.1.discipline = d
  store : p.1.store = d.order p.2.waiting
  count : (p.1.store.length : Int) ≤ p.1.elementCount
  once : p.2.accepted.Perm (p.2.left ++ p.2.waiting)

section Runs

variable {d : Discipline} {p : OperationQueue α × Ledger α} {q : OperationQueue α}

theorem Linked.step (h : Linked d p) (c : Call α) : Linked d (step d p c) := by
  obtain ⟨q, l⟩ := p
  obtain ⟨hd, hstore, hcount, honce⟩ := h
  simp only at hd hstore hcount honce
  cases c with
  | offer op =>
      cases op with
      | none => exact ⟨hd, hstore, hcount, honce⟩
      | some op =>
          simp only [OperationQueue.step, call, offer_some]
          split_ifs with hlt
          · refine ⟨hd, ?_, ?_, ?_⟩
            · exact (congrArg₂ (Discipline.enqueue · op ·) hd hstore).trans
                Discipline.order_snoc.symm
            · have hlength := Discipline.length_enqueue q.discipline op q.store
              simp only
              omega
            · show (l.accepted ++ [op]).Perm (l.left ++ (l.waiting ++ [op]))
              rw [← List.append_assoc]
              exact honce.append_right [op]
          · exact ⟨hd, hstore, hcount, honce⟩
  | poll =>
      cases hq : q.store with
      | nil =>
          simp only [OperationQueue.step, call, poll_of_nil hq]
          exact ⟨hd, hstore, hcount, honce⟩
      | cons op rest =>
          rw [hq, List.length_cons] at hcount
          simp only [OperationQueue.step, call, poll_of_cons hq (by omega)]
          rw [hq] at hstore
          refine ⟨hd, ?_, ?_, ?_⟩
          · show rest = d.order (d.others l.waiting)
            rw [← Discipline.tail_order, ← hstore, List.tail_cons]
          · simp only
            omega
          · show l.accepted.Perm (l.left ++ [op] ++ d.others l.waiting)
            rw [List.append_assoc]
            exact honce.trans ((Discipline.perm_of_order hstore.symm).append_left l.left)
  | transferAll pendingOps =>
      refine ⟨hd, (Discipline.order_nil d).symm, ?_, ?_⟩
      · exact Int.le_trans (Int.natCast_nonneg _) hcount
      · show l.accepted.Perm (l.left ++ (pendingOps ++ q.store).drop pendingOps.length ++ [])
        rw [List.drop_left, List.append_nil, hstore]
        exact honce.trans ((d.order_perm l.waiting).symm.append_left l.left)
  | clear =>
      refine ⟨hd, (Discipline.order_nil d).symm, ?_, ?_⟩
      · exact Int.le_trans (Int.natCast_nonneg _) hcount
      · show l.accepted.Perm (l.left ++ q.store ++ [])
        rw [List.append_nil, hstore]
        exact honce.trans ((d.order_perm l.waiting).symm.append_left l.left)
  | size => exact ⟨hd, hstore, Int.le_refl _, honce⟩
  | setLimit limit =>
      obtain ⟨hs, hc⟩ := q.setLimit_frame limit
      refine ⟨(q.setLimit_discipline limit).trans hd, hs.trans hstore, ?_, honce⟩
      show ((q.setLimit limit).2.store.length : Int) ≤ (q.setLimit limit).2.elementCount
      rw [hs, hc]
      exact hcount

theorem Linked.run (q : OperationQueue α) (hstore : q.store = []) (hcount : q.elementCount = 0)
    (calls : List (Call α)) : Linked q.discipline (run q calls) := by
  induction calls using List.reverseRecOn with
  | nil =>
      refine ⟨rfl, ?_, ?_, .refl []⟩
      · exact hstore.trans (Discipline.order_nil _).symm
      · show (q.store.length : Int) ≤ q.elementCount
        rw [hstore, hcount]
        exact Int.le_refl 0
  | append_singleton calls c ih =>
      rw [run_snoc]
      exact ih.step c

/-- `poll` answers the next of the operations that wait, and never throws. -/
theorem Linked.poll (h : Linked d p) : p.1.poll.1 = .ok (d.next p.2.waiting) := by
  have hcount := h.count
  rw [← Discipline.head_order, ← h.store]
  cases hq : p.1.store with
  | nil => rw [poll_of_nil hq, List.head?_nil]
  | cons op rest =>
      rw [hq, List.length_cons] at hcount
      rw [poll_of_cons hq (by omega), List.head?_cons]

/-! ## The count -/

/-- An exact count stays exact, except where a call removes all operations and there are some. -/
theorem count_call (hcount : q.elementCount = q.store.length) (c : Call α) :
    (q.call c).2.elementCount = (q.call c).2.store.length ↔
      (c.removesAll = true → q.store = []) := by
  have hemptied : q.elementCount = (0 : Nat) ↔ q.store = [] := by
    rw [hcount, Int.natCast_inj, List.length_eq_zero_iff]
  cases c with
  | transferAll pendingOps => exact hemptied.trans (by simp [Call.removesAll])
  | clear => exact hemptied.trans (by simp [Call.removesAll])
  | offer op =>
      refine iff_of_true ?_ nofun
      cases op with
      | none => exact hcount
      | some op =>
          simp only [call, offer_some]
          split_ifs
          · simp only [Discipline.length_enqueue]
            omega
          · exact hcount
  | poll =>
      refine iff_of_true ?_ nofun
      cases hq : q.store with
      | nil =>
          simp only [call, poll_of_nil hq]
          exact hcount
      | cons op rest =>
          rw [hq, List.length_cons] at hcount
          simp only [call, poll_of_cons hq (by omega)]
          omega
  | size => exact iff_of_true rfl nofun
  | setLimit limit =>
      obtain ⟨hstore, helements⟩ := q.setLimit_frame limit
      refine iff_of_true ?_ nofun
      show (q.setLimit limit).2.elementCount = (q.setLimit limit).2.store.length
      rw [hstore, helements]
      exact hcount

/-- With an exact count, `offer` accepts below the limit. -/
theorem offer_answer (hcount : q.elementCount = q.store.length) (op : α) :
    (q.offer (some op)).1 = .ok (decide ((q.store.length : Int) < q.getLimit)) := by
  rw [offer_some, hcount]
  split_ifs with hlt
  · rw [decide_eq_true hlt]
  · rw [decide_eq_false hlt]

theorem accounted_iff_count (h : Linked d p) (hcount : p.1.elementCount = p.1.store.length)
    (c : Call α) : Accounted d p c ↔ (c.removesAll = true → p.1.store = []) := by
  rw [← count_call hcount c]
  refine ⟨fun h => h.count, fun hnext => ⟨hnext, ?_, ?_, ?_⟩⟩
  · rintro op rfl
    exact congrArg Answer.offer (offer_answer hcount op)
  · rintro rfl
    exact congrArg Answer.poll h.poll
  · have hstep := h.step c
    rw [hstep.store]
    exact hstep.once.trans ((d.order_perm _).symm.append_left _)

end Runs

/-- **The accounts of an operation queue.** In a run on a new queue, with any limit and under either
discipline, every call is accounted for exactly if `transferAll` and `clear` are called on an empty
queue only. They do not lower the element count. -/
theorem accounted_iff (kind : Discipline) (limit : Int) (calls : List (Call α)) :
    let q : OperationQueue α := create kind limit
    Each (fun before c => Accounted q.discipline (run q before) c) calls ↔
      Each (fun before c => c.removesAll = true → (run q before).1.store = []) calls := by
  intro q
  have hnew : q.store = [] ∧ q.elementCount = 0 := by
    cases kind with
    | fifo => exact ⟨rfl, rfl⟩
    | lifo => exact ⟨rfl, rfl⟩
  have hlinked := Linked.run q hnew.1 hnew.2
  apply Each.iff fun before => (run q before).1.elementCount = (run q before).1.store.length
  · show q.elementCount = q.store.length
    rw [hnew.1, hnew.2]
    rfl
  · exact fun before c hcount => accounted_iff_count (hlinked before) hcount c
  · intro before c _ haccounted
    rw [run_snoc]
    exact haccounted.count

/-- The connection pool transfers the operation that waited. The queue is empty and refuses the next
operation. -/
theorem full_after_transferAll : ¬ ∀ (kind : Discipline) (limit : Int) (calls : List (Call Nat)),
    Each (fun before c => Accounted (create kind limit : OperationQueue Nat).discipline
      (run (create kind limit) before) c) calls := by
  intro h
  have hoffer := (h .fifo 1 [.offer (some 0), .transferAll [], .offer (some 1)]
    [.offer (some 0), .transferAll []] (.offer (some 1)) [] rfl).offer 1 rfl
  cases hoffer

end OperationQueue

end Xenon.Common

/-! ## The queue of a service

The queue with the bound on its count as a field does what the class does; its `poll` need not look
for a negative count. -/

namespace Xenon.Stateful.OperationQueue

variable {α : Type*}

def fields (q : OperationQueue α) : Common.OperationQueue α :=
  { limit := q.limit, elementCount := q.elementCount, store := q.store }

theorem fields_createFifo (limit : Int) :
    (createFifo limit : OperationQueue α).fields = Common.OperationQueue.createFifo limit := rfl

theorem fields_createLifo (limit : Int) :
    (createLifo limit : OperationQueue α).fields = Common.OperationQueue.createLifo limit := rfl

theorem fields_clear (q : OperationQueue α) : q.clear.fields = q.fields.clear := rfl

theorem offer_fields (q : OperationQueue α) (op : α) :
    q.fields.offer (some op) =
      match q.offer op with
      | some q' => (.ok true, q'.fields)
      | none => (.ok false, q.fields) := by
  unfold Common.OperationQueue.offer offer fields
  split_ifs <;> rfl

theorem poll_fields (q : OperationQueue α) :
    q.fields.poll =
      match q.poll with
      | some (op, q') => (.ok (some op), q'.fields)
      | none => (.ok none, q.fields) := by
  have hcounted := q.counted
  unfold poll
  split
  · rename_i op q' hpoll
    split at hpoll
    · cases hpoll
    · rename_i op rest hstore
      cases hpoll
      rw [hstore, List.length_cons] at hcounted
      have hcount : 0 < q.fields.elementCount := by
        show (0 : Int) < q.elementCount
        omega
      rw [Common.OperationQueue.poll_of_cons (q := q.fields) hstore hcount]
      simp only [fields, Prod.mk.injEq, Common.OperationQueue.mk.injEq, true_and, and_true]
      omega
  · rename_i hpoll
    split at hpoll
    · rename_i hstore
      exact Common.OperationQueue.poll_of_nil (q := q.fields) hstore
    · cases hpoll

theorem setLimit_fields (q : OperationQueue α) (limit : Int) :
    (q.fields.setLimit limit).2 = ((q.setLimit limit).getD q).fields := by
  unfold Common.OperationQueue.setLimit setLimit
  by_cases hlimit : limit ≤ 0
  · rw [if_pos hlimit, if_pos hlimit]
    rfl
  · rw [if_neg hlimit, if_neg hlimit]
    rfl

end Xenon.Stateful.OperationQueue
