import Xenon.Foundation.History
import Xenon.Foundation.Rotation

/-!
# Round robin queues

`com.vmware.xenon.common.RoundRobinOperationQueue`: a queue of operations for every key, in a map
sorted by the keys, and an active key that goes round them. The keys are those of any linear order
with a least key, as which the empty string serves.
-/

namespace Xenon.Common

open Xenon.Foundation

variable {κ α : Type*} [LinearOrder κ]

/-- `com.vmware.xenon.common.RoundRobinOperationQueue`. -/
structure RoundRobinOperationQueue (κ α : Type*) [LinearOrder κ] where
  queues : SortedMap κ (List α) := .empty
  activeKey : κ
  description : String
  limit : Int
  totalCount : Int := 0

namespace RoundRobinOperationQueue

/-- What becomes of an operation that is offered. A refused one is failed with the status and the
message. -/
inductive Offer where
  | accepted
  | refused (statusCode : Nat) (message : String)
  | illegalArgument (message : String)
deriving DecidableEq

/-- `offer`; `none` is `null`. -/
def offer (q : RoundRobinOperationQueue κ α) (key : Option κ) (op : Option α) :
    Offer × RoundRobinOperationQueue κ α :=
  match key, op with
  | some key, some op =>
      if q.totalCount ≥ q.limit then
        (.refused 503 s!"Limit for queue {q.description} exceeded: {q.limit}", q)
      else
        (.accepted, { q with
          queues := q.queues.insert key ((q.queues.get key).getD [] ++ [op])
          totalCount := q.totalCount + 1 })
  | _, _ => (.illegalArgument s!"key and operation are required ({q.description})", q)

/-- The loop of `poll`: the operation, the queues that are left and the active key. Every round but
the last removes an empty queue. -/
def pollQueues (queues : SortedMap κ (List α)) (activeKey : κ) :
    Option α × SortedMap κ (List α) × κ :=
  match _h : queues.next activeKey with
  | none => (none, queues, activeKey)
  | some (key, []) => pollQueues (queues.remove key) key
  | some (key, op :: rest) => (some op, queues.insert key rest, key)
termination_by queues.entries.length
decreasing_by exact SortedMap.length_remove_lt (SortedMap.mem_of_next _h)

/-- `poll`; `none` is `null`. -/
def poll (q : RoundRobinOperationQueue κ α) : Option α × RoundRobinOperationQueue κ α :=
  match pollQueues q.queues q.activeKey with
  | (none, queues, activeKey) => (none, { q with queues := queues, activeKey := activeKey })
  | (some op, queues, activeKey) =>
      (some op, { q with
        queues := queues, activeKey := activeKey, totalCount := q.totalCount - 1 })

/-- The operations that are queued under a key. -/
def queued (queues : SortedMap κ (List α)) (key : κ) : List α := (queues.get key).getD []

/-- The number of queued operations. -/
def size (q : RoundRobinOperationQueue κ α) : Nat := q.queues.weight List.length

/-! ## What a poll does -/

section Poll

variable {queues queues' : SortedMap κ (List α)} {activeKey key k : κ} {op : α} {rest : List α}

theorem queued_insert_self : queued (queues.insert key rest) key = rest := by
  rw [queued, SortedMap.get_insert_self, Option.getD_some]

theorem queued_insert_of_ne (hne : k ≠ key) :
    queued (queues.insert key rest) k = queued queues k := by
  rw [queued, SortedMap.get_insert_of_ne hne, queued]

theorem queued_of_mem (h : (key, rest) ∈ queues.entries) : queued queues key = rest := by
  rw [queued, SortedMap.get_eq_some.mpr h, Option.getD_some]

theorem mem_of_queued (h : queued queues key ≠ []) :
    (key, queued queues key) ∈ queues.entries := by
  cases hget : queues.get key with
  | none => exact absurd (by rw [queued, hget, Option.getD_none]) h
  | some rest => 
      rw [queued, hget, Option.getD_some]
      exact SortedMap.get_eq_some.mp hget

/-- To remove an empty queue is to remove nothing. -/
theorem queued_remove (h : (key, []) ∈ queues.entries) (k : κ) :
    queued (queues.remove key) k = queued queues k := by
  by_cases hk : k = key
  · rw [hk, queued_of_mem h, queued, SortedMap.get_remove_self, Option.getD_none]
  · rw [queued, SortedMap.get_remove_of_ne hk, queued]

theorem pollQueues_of_none (h : queues.next activeKey = none) :
    pollQueues queues activeKey = (none, queues, activeKey) := by
  rw [pollQueues]
  split <;> simp_all

theorem pollQueues_of_nil (h : queues.next activeKey = some (key, [])) :
    pollQueues queues activeKey = pollQueues (queues.remove key) key := by
  rw [pollQueues]
  split <;> simp_all

theorem pollQueues_of_cons (h : queues.next activeKey = some (key, op :: rest)) :
    pollQueues queues activeKey = (some op, queues.insert key rest, key) := by
  rw [pollQueues]
  split <;> simp_all

/-- What the loop leaves behind: with nothing found all queues are empty; an operation was the first
one under its key, which is the first one with operations on the way round, and the other queues are
as before. -/
def Polled (queues : SortedMap κ (List α)) (activeKey : κ) :
    Option α × SortedMap κ (List α) × κ → Prop
  | (none, queues', _) => ∀ k, queued queues k = [] ∧ queued queues' k = []
  | (some op, queues', key) =>
      queued queues key = op :: queued queues' key ∧
      (∀ k, k ≠ key → queued queues' k = queued queues k) ∧
      ∀ k, queued queues k ≠ [] → Ahead activeKey key k

/-- A round that removes an empty queue passes no operations. -/
theorem Polled.skip {result : Option α × SortedMap κ (List α) × κ}
    (hnext : queues.next activeKey = some (key, []))
    (h : Polled (queues.remove key) key result) : Polled queues activeKey result := by
  have hmem := SortedMap.mem_of_next hnext
  have hqueued : ∀ k, queued (queues.remove key) k = queued queues k := queued_remove hmem
  obtain ⟨found, queues', key'⟩ := result
  cases found with
  | none =>
      intro k
      rw [← hqueued]
      exact h k
  | some op =>
      obtain ⟨hfirst, hothers, hahead⟩ := h
      refine ⟨hqueued key' ▸ hfirst, fun k hk => (hothers k hk).trans (hqueued k), ?_⟩
      intro k hk
      have hkey : key ≠ k := by
        rintro rfl
        exact hk (queued_of_mem hmem)
      have hskip := SortedMap.ahead_of_next hnext (mem_of_queued hk)
      exact hskip.trans hkey (hahead k (hqueued k ▸ hk))

theorem pollQueues_spec (queues : SortedMap κ (List α)) (activeKey : κ) :
    Polled queues activeKey (pollQueues queues activeKey) := by
  induction queues, activeKey using pollQueues.induct with
  | case1 queues activeKey h =>
      rw [pollQueues_of_none h]
      intro k
      have hempty : queued queues k = [] := by
        by_contra hne
        have hmem := mem_of_queued hne
        rw [SortedMap.next_eq_none.mp h] at hmem
        cases hmem
      exact ⟨hempty, hempty⟩
  | case2 queues activeKey key h ih =>
      rw [pollQueues_of_nil h]
      exact ih.skip h
  | case3 queues activeKey key op rest h =>
      rw [pollQueues_of_cons h]
      refine ⟨?_, fun k hk => queued_insert_of_ne hk, fun k hk => ?_⟩
      · rw [queued_insert_self]
        exact queued_of_mem (SortedMap.mem_of_next h)
      · exact SortedMap.ahead_of_next h (mem_of_queued hk)

/-- The loop takes what it finds and nothing else. -/
theorem weight_pollQueues (queues : SortedMap κ (List α)) (activeKey : κ) :
    (pollQueues queues activeKey).2.1.weight List.length +
      (pollQueues queues activeKey).1.toList.length = queues.weight List.length := by
  induction queues, activeKey using pollQueues.induct with
  | case1 queues activeKey h =>
      rw [pollQueues_of_none h]
      rfl
  | case2 queues activeKey key h ih =>
      rw [pollQueues_of_nil h, ih]
      exact SortedMap.weight_remove _ (SortedMap.mem_of_next h) rfl
  | case3 queues activeKey key op rest h =>
      rw [pollQueues_of_cons h]
      have hweight := queues.weight_insert List.length key rest
      rw [SortedMap.get_eq_some.mpr (SortedMap.mem_of_next h), Option.map_some,
        Option.getD_some, List.length_cons] at hweight
      simp only [Option.toList_some, List.length_singleton]
      omega

end Poll

/-! ## Runs -/

inductive Call (κ α : Type*) where
  | offer (key : Option κ) (op : Option α)
  | poll
deriving DecidableEq

/-- The operations that were accepted and those that were returned, in the order in which that
happened, each with its key. -/
structure Ledger (κ α : Type*) where
  accepted : List (κ × α) := []
  returned : List (κ × α) := []

/-- The operations of one key. -/
def Ledger.ofKey (key : κ) (ps : List (κ × α)) : List α :=
  (ps.filter fun p => p.1 = key).map Prod.snd

abbrev State (κ α : Type*) [LinearOrder κ] := RoundRobinOperationQueue κ α × Ledger κ α

/-- One call. The key of an operation that is returned is the active key. -/
def call (p : State κ α) : Call κ α → State κ α
  | .offer key op =>
      ((p.1.offer key op).2,
        match key, op, (p.1.offer key op).1 with
        | some key, some op, .accepted =>
            { p.2 with accepted := p.2.accepted ++ [(key, op)] }
        | _, _, _ => p.2)
  | .poll =>
      (p.1.poll.2,
        match p.1.poll.1 with
        | some op => { p.2 with returned := p.2.returned ++ [(p.1.poll.2.activeKey, op)] }
        | none => p.2)

def run (p : State κ α) (calls : List (Call κ α)) : State κ α := calls.foldl call p

theorem run_snoc (p : State κ α) (calls : List (Call κ α)) (c : Call κ α) :
    run p (calls ++ [c]) = call (run p calls) c := by
  unfold run
  rw [List.foldl_append]
  rfl

theorem run_append (p : State κ α) (calls calls' : List (Call κ α)) :
    run p (calls ++ calls') = run (run p calls) calls' := List.foldl_append

/-- A queue that no one has used; its active key is the least one. -/
def create [OrderBot κ] (description : String) (limit : Int) : State κ α :=
  ({ activeKey := ⊥, description := description, limit := limit }, {})

/-- The key of the operation that a poll returns. -/
def served (q : RoundRobinOperationQueue κ α) : Option κ :=
  q.poll.1.map fun _ => q.poll.2.activeKey

/-! ## The operations of a key -/

/-- The count is that of the queued operations, and of every key those that were accepted have been
returned, in the order in which they were offered, or are still queued. -/
structure Lossless (p : State κ α) : Prop where
  count : p.1.totalCount = p.1.size
  kept : ∀ k, Ledger.ofKey k p.2.accepted =
    Ledger.ofKey k p.2.returned ++ queued p.1.queues k

section Runs

variable {p : State κ α} {q : RoundRobinOperationQueue κ α} {k j : κ}

theorem ofKey_snoc (k key : κ) (ps : List (κ × α)) (op : α) :
    Ledger.ofKey k (ps ++ [(key, op)]) =
      Ledger.ofKey k ps ++ if key = k then [op] else [] := by
  unfold Ledger.ofKey
  rw [List.filter_append, List.map_append]
  split_ifs with h
  · simp [h]
  · simp [h]

theorem poll_eq (q : RoundRobinOperationQueue κ α) :
    q.poll = ((pollQueues q.queues q.activeKey).1, { q with
      queues := (pollQueues q.queues q.activeKey).2.1
      activeKey := (pollQueues q.queues q.activeKey).2.2
      totalCount := q.totalCount - (pollQueues q.queues q.activeKey).1.toList.length }) := by
  unfold poll
  split
  · rename_i h
    rw [h]
    simp
  · rename_i h
    rw [h]
    simp

theorem offer_of_lt (h : q.totalCount < q.limit) (key : κ) (op : α) :
    q.offer (some key) (some op) = (.accepted, { q with
      queues := q.queues.insert key (queued q.queues key ++ [op])
      totalCount := q.totalCount + 1 }) :=
  if_neg (not_le.mpr h)

/-- An operation that is not accepted changes nothing. -/
theorem call_offer (p : State κ α) (key : Option κ) (op : Option α) :
    call p (.offer key op) = p ∨ ∃ key' op', key = some key' ∧ op = some op' ∧
      p.1.totalCount < p.1.limit ∧ call p (.offer key op) =
        ((p.1.offer key op).2, { p.2 with accepted := p.2.accepted ++ [(key', op')] }) := by
  rcases key with _ | key <;> rcases op with _ | op
  · exact Or.inl rfl
  · exact Or.inl rfl
  · exact Or.inl rfl
  · by_cases hlt : p.1.totalCount < p.1.limit
    · refine Or.inr ⟨key, op, rfl, rfl, hlt, ?_⟩
      simp only [call, offer_of_lt hlt]
    · left
      simp only [call, offer, if_pos (not_lt.mp hlt)]

theorem Lossless.offer (h : Lossless p) (key : Option κ) (op : Option α) :
    Lossless (call p (.offer key op)) := by
  rcases call_offer p key op with heq | ⟨key, op, rfl, rfl, hlt, heq⟩
  · rwa [heq]
  · rw [heq, offer_of_lt hlt]
    constructor
    · have hweight := p.1.queues.weight_insert List.length key (queued p.1.queues key ++ [op])
      have hold : ((p.1.queues.get key).map List.length).getD 0 =
          (queued p.1.queues key).length := by
        unfold queued
        cases p.1.queues.get key <;> rfl
      have hcount := h.count
      rw [hold, List.length_append, List.length_singleton] at hweight
      simp only [size] at hcount ⊢
      omega
    · intro k
      rw [ofKey_snoc, h.kept k]
      by_cases hk : key = k
      · subst hk
        rw [if_pos rfl, queued_insert_self, List.append_assoc]
      · rw [if_neg hk, queued_insert_of_ne (Ne.symm hk), List.append_nil]

theorem Lossless.poll (h : Lossless p) : Lossless (call p .poll) := by
  have hspec := pollQueues_spec p.1.queues p.1.activeKey
  have hweight := weight_pollQueues p.1.queues p.1.activeKey
  have hcount := h.count
  simp only [call, poll_eq]
  generalize pollQueues p.1.queues p.1.activeKey = result at hspec hweight ⊢
  obtain ⟨found, queues, key⟩ := result
  constructor
  · simp only [size] at hcount ⊢
    simp only at hweight
    omega
  · intro k
    cases found with
    | none =>
        obtain ⟨hempty, hempty'⟩ := hspec k
        exact (h.kept k).trans (by rw [hempty, hempty'])
    | some op =>
        obtain ⟨hfirst, hothers, -⟩ := hspec
        simp only [ofKey_snoc, h.kept k]
        by_cases hk : key = k
        · subst hk
          rw [if_pos rfl, hfirst, List.append_assoc, List.singleton_append]
        · rw [if_neg hk, hothers k (Ne.symm hk), List.append_nil]

theorem Lossless.run (h : Lossless p) (calls : List (Call κ α)) : Lossless (run p calls) := by
  induction calls using List.reverseRecOn with
  | nil => exact h
  | append_singleton calls c ih =>
      rw [run_snoc]
      cases c with
      | offer key op => exact ih.offer key op
      | poll => exact ih.poll

theorem lossless_create [OrderBot κ] (description : String) (limit : Int) :
    Lossless (create description limit : State κ α) := ⟨rfl, fun _ => rfl⟩

/-- A poll returns nothing exactly if nothing is queued. -/
theorem poll_eq_none (q : RoundRobinOperationQueue κ α) :
    q.poll.1 = none ↔ ∀ k, queued q.queues k = [] := by
  have hspec := pollQueues_spec q.queues q.activeKey
  rw [poll_eq]
  generalize pollQueues q.queues q.activeKey = result at hspec ⊢
  obtain ⟨found, queues, key⟩ := result
  cases found with
  | none => exact iff_of_true rfl fun k => (hspec k).1
  | some op =>
      refine iff_of_false nofun fun hempty => ?_
      have hfirst := hspec.1
      rw [hempty key] at hfirst
      cases hfirst

theorem size_eq_zero (q : RoundRobinOperationQueue κ α) :
    q.size = 0 ↔ ∀ k, queued q.queues k = [] := by
  unfold size SortedMap.weight
  rw [List.sum_eq_zero_iff_forall_eq_nat]
  constructor
  · intro h k
    by_contra hne
    have hlength := h _ (List.mem_map_of_mem (mem_of_queued hne))
    exact hne (List.length_eq_zero_iff.mp hlength)
  · intro h n hn
    obtain ⟨e, he, rfl⟩ := List.mem_map.mp hn
    rw [← queued_of_mem he, h, List.length_nil]

/-! ## The round -/

/-- A poll serves the first key with operations on the way round, which is the active one then. -/
theorem served_spec {key : κ} (h : served q = some key) :
    q.poll.2.activeKey = key ∧ ∀ j, queued q.queues j ≠ [] → Ahead q.activeKey key j := by
  have hspec := pollQueues_spec q.queues q.activeKey
  unfold served at h
  rw [poll_eq] at h ⊢
  generalize pollQueues q.queues q.activeKey = result at hspec h ⊢
  obtain ⟨found, queues, key'⟩ := result
  cases found with
  | none => cases h
  | some op =>
      obtain rfl : key' = key := Option.some.inj h
      exact ⟨rfl, hspec.2.2⟩

theorem served_isSome (hj : queued q.queues j ≠ []) : ∃ key, served q = some key := by
  cases hpoll : q.poll.1 with
  | none => exact absurd (q.poll_eq_none.mp hpoll j) hj
  | some op => exact ⟨q.poll.2.activeKey, by rw [served, hpoll, Option.map_some]⟩

/-- As long as operations of a key are queued and none of them is returned, the active key does not
pass that key. -/
theorem within_run (h : Within k p.1.activeKey j) {between : List (Call κ α)}
    (hqueued : ∀ b, b <+: between → queued (run p b).1.queues j ≠ [])
    (hnot : Each (fun b c => c = .poll → served (run p b).1 ≠ some j) between) :
    Within k (run p between).1.activeKey j := by
  induction between using List.reverseRecOn with
  | nil => exact h
  | append_singleton between c ih =>
      obtain ⟨hnot, hlast⟩ := Each.snoc_iff.mp hnot
      have hbetween := ih (fun b hb => hqueued b (hb.trans (List.prefix_append _ _))) hnot
      rw [run_snoc]
      cases c with
      | offer key op =>
          rcases call_offer (run p between) key op with heq | ⟨key, op, rfl, rfl, hlt, heq⟩
          · rwa [heq]
          · rw [heq, offer_of_lt hlt]
            exact hbetween
      | poll =>
          have hj := hqueued between (List.prefix_append _ _)
          obtain ⟨key, hkey⟩ := served_isSome hj
          obtain ⟨hactive, hahead⟩ := served_spec hkey
          have hne : key ≠ j := fun heq => hlast rfl (heq ▸ hkey)
          show Within k (run p between).1.poll.2.activeKey j
          rw [hactive]
          exact (hbetween.step (hahead j hj) hne).1

/-- After an operation of a key, the next one of it waits for the other keys. -/
theorem served_ne (hactive : p.1.activeKey = k) (hne : j ≠ k) {between : List (Call κ α)}
    (hqueued : ∀ b, b <+: between → queued (run p b).1.queues j ≠ [])
    (hnot : Each (fun b c => c = .poll → served (run p b).1 ≠ some j) between) :
    served (run p between).1 ≠ some k := by
  intro hserved
  subst hactive
  have hwithin := within_run (within_self p.1.activeKey j) hqueued hnot
  have hahead := (served_spec hserved).2 j (hqueued between (List.prefix_rfl))
  exact (hwithin.step hahead hne.symm).2 rfl

/-- Between two operations of one key, with no other of it between them, a key with operations
queued throughout has one returned; no second one, if operations of the first key are queued
throughout, too. -/
structure Fair (p : State κ α) (k j : κ) (between : List (Call κ α)) : Prop where
  some_returned : ∃ b after, between = b ++ .poll :: after ∧ served (run p b).1 = some j
  one_returned : (∀ b, b <+: between → queued (run p b).1.queues k ≠ []) →
    ∀ b after b' after', between = b ++ .poll :: after → served (run p b).1 = some j →
      between = b' ++ .poll :: after' → served (run p b').1 = some j → b = b'

theorem fair_of_served (hactive : p.1.activeKey = k) (hne : j ≠ k) {between : List (Call κ α)}
    (hserved : served (run p between).1 = some k)
    (hnot : Each (fun b c => c = .poll → served (run p b).1 ≠ some k) between)
    (hqueued : ∀ b, b <+: between → queued (run p b).1.queues j ≠ []) :
    Fair p k j between := by
  constructor
  · by_contra hnone
    refine served_ne hactive hne hqueued ?_ hserved
    rintro b c after hsplit rfl hj
    exact hnone ⟨b, after, hsplit, hj⟩
  · -- the earlier of two returns of `j` leaves `j` active
    have hlater : (∀ b, b <+: between → queued (run p b).1.queues k ≠ []) →
        ∀ b mid after, between = b ++ .poll :: (mid ++ .poll :: after) →
          served (run p b).1 = some j → served (run p (b ++ .poll :: mid)).1 ≠ some j := by
      intro hk b mid after hsplit hj
      have hrun : ∀ calls, run p (b ++ .poll :: calls) = run (run p (b ++ [.poll])) calls := by
        intro calls
        rw [← run_append, List.append_assoc, List.singleton_append]
      rw [hrun]
      have hactive' : (run p (b ++ [.poll])).1.activeKey = j := by
        rw [run_snoc]
        exact (served_spec hj).1
      refine served_ne hactive' hne.symm (fun calls hcalls => ?_) ?_
      · rw [← hrun]
        apply hk
        rw [hsplit]
        refine (List.prefix_append_right_inj b).mpr ?_
        refine List.cons_prefix_cons.mpr ⟨rfl, hcalls.trans (List.prefix_append _ _)⟩
      · rintro calls c rest hmid rfl
        rw [← hrun]
        refine hnot (b ++ .poll :: calls) .poll (rest ++ .poll :: after) ?_ rfl
        rw [hsplit, hmid]
        simp
    intro hk b after b' after' hsplit hj hsplit' hj'
    rcases split_trichotomy (hsplit.symm.trans hsplit') with
      heq | ⟨mid, rfl, hmid⟩ | ⟨mid, rfl, hmid⟩
    · exact heq
    · exact absurd hj' (hlater hk b mid after' (hmid ▸ hsplit) hj)
    · exact absurd hj (hlater hk b' mid after (hmid ▸ hsplit') hj')

end Runs

end RoundRobinOperationQueue

end Xenon.Common
