import Mathlib.Logic.Function.Basic
import Xenon.Common.UnbatchedJoin

/-!
# Sequences of joined operations

`OperationSequence` links joins to a chain. Each join is sent when the one before it has completed:
its handler is wrapped in a proxy, which calls the handler of the element, with the operations and
the failures of the whole chain so far if it is cumulative, and sends the next join unless the
handler was told of failures.

`abortOnFirstFailure` is to keep the handlers from being called once an operation fails. The proxy
looks for it only in the elements after its own.
-/

namespace Xenon.Common.OperationSequence

open Foundation Common.OperationJoin

variable {I E : Type*}

/-- An element of the chain: the operations of its join, whether a handler was set and whether it is
cumulative, and the flag of `abortOnFirstFailure()`. -/
structure Element (I : Type*) where
  operations : List I
  joinedCompletion : Bool
  cumulative : Bool
  abortOnFirstFailure : Bool

structure Chain (I : Type*) where
  elements : List (Element I)
  nonempty : elements ≠ []
  operations : ∀ e ∈ elements, e.operations ≠ []
  distinct : (elements.flatMap (·.operations)).Nodup

/-- What a handler was called with. -/
structure Call (I E : Type*) where
  index : Nat
  operations : List I
  failures : Option (List (I × E))

/-- The joins, what `getAllFailures` has put into the map of each, the flag of each proxy, and the
calls of handlers so far. -/
structure State (I E : Type*) where
  join : Nat → OperationJoin.State I E
  added : Nat → List (I × E)
  completed : Nat → Bool
  calls : List (Call I E)

inductive Task (I E : Type*) where
  /-- A task of the join at a position. -/
  | join (k : Nat) (t : OperationJoin.Task I E)
  /-- The proxy at a position is called. -/
  | handle (k : Nat) (failures : Option (List (I × E)))

def hasFailures (failures : Option (List (I × E))) : Bool :=
  !(failures.getD []).isEmpty

namespace Chain

variable (c : Chain I)

def ops (k : Nat) : List I :=
  (c.elements[k]?.map (·.operations)).getD []

/-- The loop starts at the child. -/
def hasAbortOnFirstFailureInChildSequences (k : Nat) : Bool :=
  (c.elements.drop (k + 1)).any (·.abortOnFirstFailure)

def getAllCompletedOperations : Nat → List I
  | 0 => c.ops 0
  | k + 1 => c.ops (k + 1) ++ getAllCompletedOperations k

end Chain

section Steps

variable [DecidableEq I]

def putAll (m m' : List (I × E)) : List (I × E) :=
  m'.foldl (fun m p => put m p.1 p.2) m

namespace State

/-- The map of a join is shared with `getAllFailures`. -/
def getFailures (s : State I E) (k : Nat) : Option (List (I × E)) :=
  (s.join k).failures.map (putAll · (s.added k))

/-- The first map that is found takes up the others. -/
def addFailures (s : State I E) (owner : Option Nat) (k : Nat) : State I E × Option Nat :=
  match s.getFailures k with
  | none => (s, owner)
  | some m =>
      match owner with
      | none => (s, some k)
      | some i => ({ s with added := Function.update s.added i (s.added i ++ m) }, some i)

/-- From a position up to the root. -/
def collect (s : State I E) (owner : Option Nat) : Nat → State I E × Option Nat
  | 0 => s.addFailures owner 0
  | k + 1 => (s.addFailures owner (k + 1)).1.collect (s.addFailures owner (k + 1)).2 k

def getAllFailures (s : State I E) (k : Nat) : State I E × Option (List (I × E)) :=
  ((s.collect none k).1, (s.collect none k).2.bind (s.collect none k).1.getFailures)

end State

/-- The child is sent, if there is one. -/
def sendChild (c : Chain I) (s : State I E) (k : Nat) : State I E × List (Task I E) :=
  (s, if k + 1 < c.elements.length then
      (OperationJoin.start (c.ops (k + 1)) 0).tasks.map (.join (k + 1))
    else [])

/-- The handler of an element is called; the child is sent unless it was told of failures. -/
def callHandler (c : Chain I) (s : State I E) (call : Call I E) : State I E × List (Task I E) :=
  let s := { s with calls := s.calls ++ [call] }
  if hasFailures call.failures then (s, []) else sendChild c s call.index

/-- `CompletionHandlerSequenceProxy.handle`. Nothing else touches what it reads. -/
def handle (c : Chain I) (s : State I E) (k : Nat) (failures : Option (List (I × E))) :
    State I E × List (Task I E) :=
  if s.completed k then (s, [])
  else
    let s := { s with completed := Function.update s.completed k true }
    if hasFailures failures ∧ c.hasAbortOnFirstFailureInChildSequences k then (s, [])
    else
      match c.elements[k]? with
      | none => (s, [])
      | some e =>
          if e.joinedCompletion then
            if e.cumulative then
              callHandler c (s.getAllFailures k).1
                ⟨k, c.getAllCompletedOperations k, (s.getAllFailures k).2⟩
            else callHandler c s ⟨k, e.operations, failures⟩
          else sendChild c s k

def fire (c : Chain I) (s : State I E) (t : Task I E) (answer : Option E) :
    State I E × List (Task I E) :=
  match t with
  | .join k t =>
      let r := OperationJoin.fire (s.join k) t answer
      ({ s with join := Function.update s.join k r.1 },
        r.2.map (.join k) ++ (joinedCalls (s.join k) t).map (.handle k))
  | .handle k failures => handle c s k failures

def sequence (c : Chain I) : Machine (State I E) (Task I E) Empty (Option E) where
  input _ i := nomatch i
  fire s t answer := some (fire c s t answer)

end Steps

/-- `sendWith` sends the join at the root. -/
def start (c : Chain I) : Pool (State I E) (Task I E) where
  shared :=
    { join := fun k => (OperationJoin.start (c.ops k) 0).shared
      added := fun _ => []
      completed := fun _ => false
      calls := [] }
  tasks := (OperationJoin.start (c.ops 0) 0).tasks.map (.join 0)

/-- The operation whose completion a task waits for. -/
def awaited : Task I E → Option I
  | .join _ (.await op) => some op
  | _ => none

/-- Every operation ends as `fails` says. -/
def Outcomes (fails : I → Option E) (_ : State I E) (t : Task I E) (answer : Option E) : Prop :=
  ∀ op ∈ awaited t, answer = fails op

instance [DecidableEq E] (fails : I → Option E) (s : State I E) (t : Task I E)
    (answer : Option E) : Decidable (Outcomes fails s t answer) :=
  inferInstanceAs (Decidable (∀ op ∈ awaited t, answer = fails op))

/-! ## What the handlers are to be told -/

section Told

variable (c : Chain I) (fails : I → Option E)

namespace Chain

/-- The operations of the joins up to a position. -/
def upTo (k : Nat) : List I :=
  (c.elements.take (k + 1)).flatMap (·.operations)

def hasHandler (k : Nat) : Bool :=
  (c.elements[k]?.map (·.joinedCompletion)).getD false

/-- The operations that the handler at a position is told of. -/
def known (k : Nat) : List I :=
  if (c.elements[k]?.map (·.cumulative)).getD false then c.upTo k else c.ops k

variable {c}

theorem upTo_succ (k : Nat) : c.upTo (k + 1) = c.upTo k ++ c.ops (k + 1) := by
  unfold upTo ops
  rw [List.take_add_one, List.flatMap_append]
  cases c.elements[k + 1]? with
  | none => rfl
  | some e => simp

theorem upTo_zero : c.upTo 0 = c.ops 0 := by
  unfold upTo ops
  rw [List.take_add_one, List.take_zero, List.nil_append]
  cases c.elements[0]? with
  | none => rfl
  | some e => simp

theorem mem_upTo {k : Nat} {op : I} : op ∈ c.upTo k ↔ ∃ i ≤ k, op ∈ c.ops i := by
  induction k with
  | zero =>
      rw [upTo_zero]
      constructor
      · exact fun h => ⟨0, le_refl 0, h⟩
      · rintro ⟨i, hi, h⟩
        rwa [Nat.le_zero.mp hi] at h
  | succ k ih =>
      rw [upTo_succ, List.mem_append, ih]
      constructor
      · rintro (⟨i, hi, h⟩ | h)
        · exact ⟨i, Nat.le_succ_of_le hi, h⟩
        · exact ⟨k + 1, le_refl _, h⟩
      · rintro ⟨i, hi, h⟩
        rcases Nat.le_succ_iff.mp hi with hi | rfl
        · exact Or.inl ⟨i, hi, h⟩
        · exact Or.inr h

theorem perm_getAllCompletedOperations (k : Nat) :
    (c.getAllCompletedOperations k).Perm (c.upTo k) := by
  induction k with
  | zero => exact List.Perm.of_eq upTo_zero.symm
  | succ k ih =>
      rw [upTo_succ]
      exact (ih.append_left _).trans List.perm_append_comm

theorem ops_ne_nil {k : Nat} (h : k < c.elements.length) : c.ops k ≠ [] := by
  unfold ops
  rw [List.getElem?_eq_getElem h]
  exact c.operations _ (List.getElem_mem h)

theorem nodup_ops (k : Nat) : (c.ops k).Nodup := by
  unfold ops
  cases he : c.elements[k]? with
  | none => exact List.nodup_nil
  | some e => exact (List.nodup_flatMap.mp c.distinct).1 e (List.mem_of_getElem? he)

end Chain

/-- A handler is told of `ops`, and of exactly the failures among them. -/
structure Tells (ops : List I) (call : Call I E) : Prop where
  operations : call.operations.Perm ops
  failures : ∀ p, p ∈ call.failures.getD [] ↔ p.1 ∈ ops ∧ fails p.1 = some p.2
  none : call.failures = none ↔ ∀ op ∈ ops, fails op = none

def anyFails (ops : List I) : Bool :=
  ops.any fun op => (fails op).isSome

variable {fails}

theorem anyFails_iff {ops : List I} : anyFails fails ops = true ↔ ∃ op ∈ ops, ∃ e,
    fails op = some e := by
  unfold anyFails
  simp only [List.any_eq_true, Option.isSome_iff_exists]

theorem anyFails_eq_false {ops : List I} : anyFails fails ops = false ↔
    ∀ op ∈ ops, fails op = none := by
  unfold anyFails
  simp only [List.any_eq_false, Option.not_isSome_iff_eq_none]

theorem hasFailures_eq {ops : List I} {failures : Option (List (I × E))}
    (h : ∀ p, p ∈ failures.getD [] ↔ p.1 ∈ ops ∧ fails p.1 = some p.2) :
    hasFailures failures = anyFails fails ops := by
  rw [Bool.eq_iff_iff, anyFails_iff]
  unfold hasFailures
  rw [Bool.not_eq_true', List.isEmpty_eq_false_iff_exists_mem]
  constructor
  · rintro ⟨p, hp⟩
    exact ⟨p.1, ((h p).mp hp).1, p.2, ((h p).mp hp).2⟩
  · rintro ⟨op, hop, e, he⟩
    exact ⟨(op, e), (h (op, e)).mpr ⟨hop, he⟩⟩

end Told

/-! ## `getAllFailures` -/

section Failures

variable [DecidableEq I] {c : Chain I} {fails : I → Option E} {s : State I E} {k : Nat}

theorem mem_putAll {m m' : List (I × E)} (hm : ∀ p ∈ m, fails p.1 = some p.2)
    (hm' : ∀ p ∈ m', fails p.1 = some p.2) (p : I × E) : p ∈ putAll m m' ↔ p ∈ m ∨ p ∈ m' := by
  induction m' using List.reverseRecOn with
  | nil => simp [putAll]
  | append_singleton m' q ih =>
      have hq := hm' q (List.mem_append_right _ (List.mem_singleton_self q))
      have ih := ih fun p hp => hm' p (List.mem_append_left _ hp)
      unfold putAll at ih ⊢
      rw [List.foldl_append, List.foldl_cons, List.foldl_nil, List.mem_append, List.mem_singleton,
        ← or_assoc, ← ih]
      unfold put
      rw [List.mem_append, List.mem_singleton, List.mem_filter]
      constructor
      · rintro (⟨h, -⟩ | h)
        · exact Or.inl h
        · exact Or.inr h
      · rintro (h | h)
        · by_cases hkey : p.1 = q.1
          · have hvalue : fails p.1 = some p.2 := (ih.mp h).elim (hm p) fun h =>
              hm' p (List.mem_append_left _ h)
            rw [hkey, hq] at hvalue
            exact Or.inr (Prod.ext hkey (Option.some.inj hvalue).symm)
          · exact Or.inl ⟨h, by simpa using hkey⟩
        · exact Or.inr h

/-- A failure of the chain up to a position. -/
def Good (c : Chain I) (fails : I → Option E) (k : Nat) (p : I × E) : Prop :=
  p.1 ∈ c.upTo k ∧ fails p.1 = some p.2

omit [DecidableEq I] in
theorem Good.mono {i k : Nat} {p : I × E} (h : Good c fails i p) (hik : i ≤ k) :
    Good c fails k p := by
  obtain ⟨j, hj, hop⟩ := Chain.mem_upTo.mp h.1
  exact ⟨Chain.mem_upTo.mpr ⟨j, hj.trans hik, hop⟩, h.2⟩

/-- The maps up to a position have failures of the chain only. -/
structure Sound (c : Chain I) (fails : I → Option E) (k : Nat) (s : State I E) : Prop where
  failures : ∀ i ≤ k, ∀ p ∈ (s.join i).failures.getD [], Good c fails i p
  added : ∀ i, ∀ p ∈ s.added i, Good c fails i p

theorem Sound.mem_getFailures (h : Sound c fails k s) {i : Nat} (hi : i ≤ k) (p : I × E) :
    p ∈ (s.getFailures i).getD [] ↔ s.getFailures i ≠ none ∧
      (p ∈ (s.join i).failures.getD [] ∨ p ∈ s.added i) := by
  have hf := h.failures i hi
  unfold State.getFailures
  cases hm : (s.join i).failures with
  | none => simp
  | some m =>
      have hf : ∀ p ∈ m, fails p.1 = some p.2 := fun p hp => (hf p (by rwa [hm])).2
      rw [Option.map_some, Option.getD_some, Option.getD_some,
        mem_putAll hf fun p hp => (h.added i p hp).2]
      simp

theorem Sound.good (h : Sound c fails k s) {i : Nat} (hi : i ≤ k) {p : I × E}
    (hp : p ∈ (s.getFailures i).getD []) : Good c fails i p :=
  ((h.mem_getFailures hi p).mp hp).2.elim (h.failures i hi p) (h.added i p)

theorem getFailures_eq_none {i : Nat} : s.getFailures i = none ↔ (s.join i).failures = none :=
  Option.map_eq_none_iff

/-- The owner of the map that the loop has found is at `j` or later, and it has a map. -/
structure Found (s : State I E) (owner : Option Nat) (j k : Nat) : Prop where
  le : ∀ i ∈ owner, j ≤ i ∧ i ≤ k
  exists_map : ∀ i ∈ owner, s.getFailures i ≠ none

/-- The map that the loop has found. -/
def State.found (s : State I E) (owner : Option Nat) : Option (List (I × E)) :=
  owner.bind s.getFailures

/-- The loop has gone over the positions `js`. -/
structure Collected (c : Chain I) (fails : I → Option E) (k : Nat) (js : Nat → Prop)
    (s : State I E) (owner : Option Nat) (r : State I E × Option Nat) : Prop where
  join : r.1.join = s.join
  completed : r.1.completed = s.completed
  calls : r.1.calls = s.calls
  sound : Sound c fails k r.1
  mem : ∀ p, p ∈ (r.1.found r.2).getD [] ↔ p ∈ (s.found owner).getD [] ∨
    ∃ i, js i ∧ p ∈ (s.getFailures i).getD []
  none : r.1.found r.2 = none ↔ s.found owner = none ∧ ∀ i, js i → s.getFailures i = none

theorem addFailures_spec {owner : Option Nat} {i : Nat} (h : Sound c fails k s) (hi : i ≤ k)
    (hfound : Found s owner (i + 1) k) :
    Collected c fails k (· = i) s owner (s.addFailures owner i) ∧
      Found (s.addFailures owner i).1 (s.addFailures owner i).2 i k ∧
      ∀ j < i, (s.addFailures owner i).1.getFailures j = s.getFailures j := by
  unfold State.addFailures
  cases hm : s.getFailures i with
  | none =>
      refine ⟨⟨rfl, rfl, rfl, h, fun p => ?_, ?_⟩, ⟨fun j hj => ?_, hfound.exists_map⟩,
        fun j _ => rfl⟩
      · simp [hm]
      · simp [hm]
      · exact ⟨(Nat.lt_of_succ_le (hfound.le j hj).1).le, (hfound.le j hj).2⟩
  | some m =>
      -- the first map that is found becomes the result, and the failures of the others are put
      -- into it: it is that join's own map
      cases owner with
      | none =>
          refine ⟨⟨rfl, rfl, rfl, h, fun p => ?_, ?_⟩, ⟨fun j hj => ?_, fun j hj => ?_⟩,
            fun j _ => rfl⟩
          · simp [State.found, hm]
          · simp [State.found, hm]
          · obtain rfl := Option.some.inj hj
            exact ⟨le_refl _, hi⟩
          · obtain rfl := Option.some.inj hj
            rw [hm]
            exact Option.some_ne_none m
      | some j =>
          obtain ⟨hij, hj⟩ := hfound.le j rfl
          have hmap := hfound.exists_map j rfl
          have hgood : ∀ p ∈ m, Good c fails j p := fun p hp =>
            (h.good hi (by rwa [hm])).mono (by omega)
          have hsound : Sound c fails k
              { s with added := Function.update s.added j (s.added j ++ m) } := by
            refine ⟨h.failures, fun i' p hp => ?_⟩
            dsimp only at hp
            by_cases heq : i' = j
            · subst heq
              rw [Function.update_self] at hp
              exact (List.mem_append.mp hp).elim (h.added i' p) (hgood p)
            · rw [Function.update_of_ne heq] at hp
              exact h.added i' p hp
          have hmap' : State.getFailures
              { s with added := Function.update s.added j (s.added j ++ m) } j ≠ none := by
            rw [Ne, getFailures_eq_none]
            rwa [Ne, getFailures_eq_none] at hmap
          refine ⟨⟨rfl, rfl, rfl, hsound, fun p => ?_, ?_⟩, ⟨fun i' hi' => ?_, fun i' hi' => ?_⟩,
            fun i' hi' => ?_⟩
          · show p ∈ (State.getFailures _ j).getD [] ↔ p ∈ (s.getFailures j).getD [] ∨ _
            rw [hsound.mem_getFailures hj, h.mem_getFailures hj]
            simp only [Function.update_self, List.mem_append, exists_eq_left, hm, Option.getD_some]
            tauto
          · show State.getFailures _ j = none ↔ s.getFailures j = none ∧ _
            exact iff_of_false hmap' fun hboth => hmap hboth.1
          · obtain rfl := Option.some.inj hi'
            exact ⟨(Nat.lt_of_succ_le hij).le, hj⟩
          · obtain rfl := Option.some.inj hi'
            exact hmap'
          · unfold State.getFailures
            dsimp only
            rw [Function.update_of_ne (by omega)]

theorem collect_spec {owner : Option Nat} {i : Nat} (h : Sound c fails k s) (hi : i ≤ k)
    (hfound : Found s owner (i + 1) k) :
    Collected c fails k (· ≤ i) s owner (s.collect owner i) := by
  induction i generalizing s owner with
  | zero =>
      obtain ⟨hround, -, -⟩ := addFailures_spec h hi hfound
      rw [State.collect]
      refine ⟨hround.join, hround.completed, hround.calls, hround.sound, fun p => ?_, ?_⟩
      · rw [hround.mem]
        simp
      · rw [hround.none]
        simp
  | succ i ih =>
      obtain ⟨hround, hfound', hsame⟩ := addFailures_spec h hi hfound
      have hrest := ih hround.sound (by omega) hfound'
      rw [State.collect]
      refine ⟨hrest.join.trans hround.join, hrest.completed.trans hround.completed,
        hrest.calls.trans hround.calls, hrest.sound, fun p => ?_, ?_⟩
      · rw [hrest.mem, hround.mem, or_assoc]
        apply or_congr_right
        constructor
        · rintro (⟨j, rfl, hp⟩ | ⟨j, hj, hp⟩)
          · exact ⟨i + 1, le_refl _, hp⟩
          · rw [hsame j (by omega)] at hp
            exact ⟨j, by omega, hp⟩
        · rintro ⟨j, hj, hp⟩
          rcases Nat.le_succ_iff.mp hj with hj | rfl
          · refine Or.inr ⟨j, hj, ?_⟩
            rwa [hsame j (by omega)]
          · exact Or.inl ⟨i + 1, rfl, hp⟩
      · rw [hrest.none, hround.none, and_assoc]
        apply and_congr_right
        intro _
        constructor
        · rintro ⟨hfirst, hall⟩ j hj
          rcases Nat.le_succ_iff.mp hj with hj | rfl
          · rw [← hsame j (by omega)]
            exact hall j hj
          · exact hfirst _ rfl
        · intro hall
          refine ⟨fun j hj => hall j (by omega), fun j hj => ?_⟩
          rw [hsame j (by omega)]
          exact hall j (by omega)

/-- The joins up to a position have completed, with the failures that `fails` says. -/
def Settled (c : Chain I) (fails : I → Option E) (k : Nat) (s : State I E) : Prop :=
  ∀ i ≤ k, (∀ p, p ∈ (s.join i).failures.getD [] ↔ p.1 ∈ c.ops i ∧ fails p.1 = some p.2) ∧
    ((s.join i).failures = none ↔ ∀ op ∈ c.ops i, fails op = none)

theorem getAllFailures_spec (hadded : ∀ i, ∀ p ∈ s.added i, Good c fails i p)
    (hsettled : Settled c fails k s) :
    ((s.getAllFailures k).1.join = s.join ∧ (s.getAllFailures k).1.completed = s.completed ∧
        (s.getAllFailures k).1.calls = s.calls) ∧
      (∀ i, ∀ p ∈ (s.getAllFailures k).1.added i, Good c fails i p) ∧
      (∀ p, p ∈ (s.getAllFailures k).2.getD [] ↔ p.1 ∈ c.upTo k ∧ fails p.1 = some p.2) ∧
      ((s.getAllFailures k).2 = none ↔ ∀ op ∈ c.upTo k, fails op = none) := by
  have hsound : Sound c fails k s := by
    refine ⟨fun i hi p hp => ?_, hadded⟩
    obtain ⟨hop, hfails⟩ := ((hsettled i hi).1 p).mp hp
    exact ⟨Chain.mem_upTo.mpr ⟨i, le_refl i, hop⟩, hfails⟩
  have hfound : Found s none (k + 1) k :=
    { le := fun i hi => nomatch hi
      exists_map := fun i hi => nomatch hi }
  have hall := collect_spec hsound (le_refl k) hfound
  refine ⟨⟨hall.join, hall.completed, hall.calls⟩, hall.sound.added, fun p => ?_, ?_⟩
  · show p ∈ (State.found (s.collect none k).1 (s.collect none k).2).getD [] ↔ _
    rw [hall.mem]
    constructor
    · rintro (hp | ⟨i, hi, hp⟩)
      · exact absurd hp List.not_mem_nil
      · exact (hsound.good hi hp).mono hi
    · rintro ⟨hop, hfails⟩
      obtain ⟨i, hi, hop⟩ := Chain.mem_upTo.mp hop
      have hp := ((hsettled i hi).1 p).mpr ⟨hop, hfails⟩
      refine Or.inr ⟨i, hi, (hsound.mem_getFailures hi p).mpr ⟨?_, Or.inl hp⟩⟩
      rw [Ne, getFailures_eq_none]
      intro hnone
      rw [hnone] at hp
      exact List.not_mem_nil hp
  · show State.found (s.collect none k).1 (s.collect none k).2 = none ↔ _
    rw [hall.none]
    constructor
    · rintro ⟨-, hnone⟩ op hop
      obtain ⟨i, hi, hop⟩ := Chain.mem_upTo.mp hop
      exact (hsettled i hi).2.mp (getFailures_eq_none.mp (hnone i hi)) op hop
    · intro hnone
      refine ⟨rfl, fun i hi => getFailures_eq_none.mpr ((hsettled i hi).2.mpr fun op hop => ?_)⟩
      exact hnone op (Chain.mem_upTo.mpr ⟨i, hi, hop⟩)

end Failures

/-! ## The proxy -/

section Proxy

variable (c : Chain I) (fails : I → Option E)

namespace Chain

def aborted (k : Nat) : Bool :=
  anyFails fails (c.ops k) && c.hasAbortOnFirstFailureInChildSequences k

/-- The handler is called when the join has completed. -/
def called (k : Nat) : Bool :=
  c.hasHandler k && !c.aborted fails k

/-- The next join is not sent. -/
def stops (k : Nat) : Bool :=
  c.aborted fails k || (c.hasHandler k && anyFails fails (c.known k))

/-- The tasks of the next join, if it is sent. -/
def next (k : Nat) : List (Task I E) :=
  if k + 1 < c.elements.length ∧ c.stops fails k = false then
    (OperationJoin.start (c.ops (k + 1)) 0).tasks.map (.join (k + 1))
  else []

end Chain

/-- What the proxy at a position does when its join has completed. -/
structure Handles [DecidableEq I] (s : State I E) (k : Nat) (r : State I E × List (Task I E)) :
    Prop where
  join : r.1.join = s.join
  completed : r.1.completed = Function.update s.completed k true
  added : ∀ i, ∀ p ∈ r.1.added i, Good c fails i p
  calls : ∃ new, r.1.calls = s.calls ++ new ∧ new.length = (c.called fails k).toNat ∧
    ∀ call ∈ new, call.index = k ∧ Tells fails (c.known k) call
  next : r.2 = c.next fails k

variable [DecidableEq I] {c fails} {s : State I E} {k : Nat} {failures : Option (List (I × E))}

theorem callHandler_spec {call : Call I E} (hindex : call.index = k)
    (hadded : ∀ i, ∀ p ∈ s.added i, Good c fails i p) (hcalled : c.called fails k = true)
    (htells : Tells fails (c.known k) call) {t : State I E} (hjoin : s.join = t.join)
    (hcompleted : s.completed = Function.update t.completed k true) (hcalls : s.calls = t.calls) :
    Handles c fails t k (callHandler c s call) := by
  obtain ⟨hhandler, haborted⟩ := Bool.and_eq_true_iff.mp hcalled
  have hstops : c.stops fails k = hasFailures call.failures := by
    rw [Chain.stops, hhandler, Bool.not_eq_eq_eq_not.mp haborted, Bool.not_true, Bool.false_or,
      Bool.true_and, hasFailures_eq htells.failures]
  have hnew : ∃ new, s.calls ++ [call] = t.calls ++ new ∧
      new.length = (c.called fails k).toNat ∧
        ∀ call ∈ new, call.index = k ∧ Tells fails (c.known k) call := by
    refine ⟨[call], by rw [hcalls], by rw [hcalled]; rfl, fun call' hcall' => ?_⟩
    obtain rfl := List.mem_singleton.mp hcall'
    exact ⟨hindex, htells⟩
  unfold callHandler
  dsimp only
  split_ifs with hfailures
  · refine ⟨hjoin, hcompleted, hadded, hnew, ?_⟩
    rw [Chain.next, if_neg]
    rw [hstops, hfailures]
    exact fun h => nomatch h.2
  · refine ⟨hjoin, hcompleted, hadded, hnew, ?_⟩
    rw [Bool.not_eq_true] at hfailures
    rw [Chain.next, hstops, hfailures, sendChild, hindex]
    simp only [and_true]

theorem handle_spec (hk : k < c.elements.length) (hnew : s.completed k = false)
    (hadded : ∀ i, ∀ p ∈ s.added i, Good c fails i p) (hsettled : Settled c fails k s)
    (hfailures : failures = (s.join k).failures) :
    Handles c fails s k (handle c s k failures) := by
  have he : c.elements[k]? = some c.elements[k] := List.getElem?_eq_getElem hk
  have hown := (hsettled k (le_refl k)).1
  rw [← hfailures] at hown
  have hhandler : c.hasHandler k = c.elements[k].joinedCompletion := by
    rw [Chain.hasHandler, he]
    rfl
  have hany : hasFailures failures = anyFails fails (c.ops k) := hasFailures_eq hown
  have habort : (hasFailures failures = true ∧
      c.hasAbortOnFirstFailureInChildSequences k = true) ↔ c.aborted fails k = true := by
    rw [hany, Chain.aborted, Bool.and_eq_true]
  unfold handle
  rw [hnew, he]
  simp only [Bool.false_eq_true, if_false]
  -- no handler is called after an abort, and none where the element has none
  split_ifs with haborts hcompletion hcumulative
  · have haborted := habort.mp haborts
    refine ⟨rfl, rfl, hadded, ⟨[], (List.append_nil _).symm, ?_, fun _ h => nomatch h⟩, ?_⟩
    · rw [Chain.called, haborted, Bool.not_true, Bool.and_false]
      rfl
    · rw [Chain.next, if_neg]
      rw [Chain.stops, haborted, Bool.true_or]
      exact fun h => nomatch h.2
  · have haborted := Bool.eq_false_iff.mpr (mt habort.mpr haborts)
    have hcalled : c.called fails k = true := by
      rw [Chain.called, hhandler, hcompletion, haborted]
      rfl
    -- a cumulative handler is given the operations of all joins so far
    have hknown : c.known k = c.upTo k := by
      rw [Chain.known, he]
      exact if_pos hcumulative
    obtain ⟨⟨hjoin, hcompleted, hcalls⟩, hadded', hmem, hnone⟩ := getAllFailures_spec
      (s := { s with completed := Function.update s.completed k true }) hadded hsettled
    refine callHandler_spec (t := s) (k := k) rfl hadded' hcalled ⟨?_, ?_, ?_⟩ hjoin hcompleted
      hcalls
    · rw [hknown]
      exact Chain.perm_getAllCompletedOperations k
    · rw [hknown]
      exact hmem
    · rw [hknown]
      exact hnone
  · have haborted := Bool.eq_false_iff.mpr (mt habort.mpr haborts)
    have hcalled : c.called fails k = true := by
      rw [Chain.called, hhandler, hcompletion, haborted]
      rfl
    -- and any other those of its own join
    have hknown : c.known k = c.ops k := by
      rw [Chain.known, he]
      exact if_neg hcumulative
    have hops : c.elements[k].operations = c.ops k := by
      rw [Chain.ops, he]
      rfl
    refine callHandler_spec (s := { s with completed := Function.update s.completed k true })
      (t := s) (k := k) rfl hadded hcalled ⟨?_, ?_, ?_⟩ rfl rfl rfl
    · rw [hknown, hops]
    · rw [hknown]
      exact hown
    · rw [hknown, hfailures]
      exact (hsettled k (le_refl k)).2
  · rw [Bool.not_eq_true] at hcompletion
    have haborted := Bool.eq_false_iff.mpr (mt habort.mpr haborts)
    refine ⟨rfl, rfl, hadded, ⟨[], (List.append_nil _).symm, ?_, fun _ h => nomatch h⟩, ?_⟩
    · rw [Chain.called, hhandler, hcompletion]
      rfl
    · rw [Chain.next, Chain.stops, haborted, hhandler, hcompletion, sendChild]
      simp only [Bool.false_and, Bool.or_false, and_true]

end Proxy

end Xenon.Common.OperationSequence
