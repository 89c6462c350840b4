import Mathlib.Data.List.TakeWhile
import Mathlib.Data.Int.Order.Basic
import Xenon.Stateful.Gate

/-!
# Tracked operations and their expiration

`com.vmware.xenon.common.OperationTracker`. The pending operations of a kind are a set that is
sorted by their ids, and maintenance walks such a set up to the first operation that has not
expired. Ids are given in the order in which operations are created, expiration times are not.
-/

namespace Xenon.Common.OperationTracker

open Stateful (ProcessingStage)

structure Operation where
  id : Int
  expirationMicrosUtc : Int
  retryCount : Nat := 0
deriving DecidableEq

/-- `createOperationSet()`: a set of operations in the order of their ids, none of them twice. -/
structure OperationSet where
  ops : List Operation := []
  sorted : ops.Pairwise fun a b => a.id < b.id := by exact .nil

/-- Where an operation belongs; one with its id stays. -/
def insertOp (op : Operation) : List Operation → List Operation
  | [] => [op]
  | o :: ops =>
      if op.id < o.id then op :: o :: ops
      else if op.id = o.id then o :: ops
      else o :: insertOp op ops

theorem mem_insertOp {op o : Operation} {ops : List Operation} (h : o ∈ insertOp op ops) :
    o = op ∨ o ∈ ops := by
  induction ops with
  | nil => exact Or.inl (List.mem_singleton.mp h)
  | cons p ops ih =>
      unfold insertOp at h
      split_ifs at h
      · exact List.mem_cons.mp h
      · exact Or.inr h
      · rcases List.mem_cons.mp h with rfl | h
        · exact Or.inr List.mem_cons_self
        · exact (ih h).imp_right (List.mem_cons_of_mem p)

theorem sorted_insertOp {op : Operation} {ops : List Operation}
    (h : ops.Pairwise fun a b => a.id < b.id) :
    (insertOp op ops).Pairwise fun a b => a.id < b.id := by
  induction ops with
  | nil => exact List.pairwise_singleton _ _
  | cons p ops ih =>
      obtain ⟨hp, hops⟩ := List.pairwise_cons.mp h
      unfold insertOp
      split_ifs with hlt heq
      · refine List.pairwise_cons.mpr ⟨fun o ho => ?_, h⟩
        rcases List.mem_cons.mp ho with rfl | ho
        · exact hlt
        · exact hlt.trans (hp o ho)
      · exact h
      · refine List.pairwise_cons.mpr ⟨fun o ho => ?_, ih hops⟩
        rcases mem_insertOp ho with rfl | ho
        · omega
        · exact hp o ho

/-- `SortedSet.add`. -/
def OperationSet.add (s : OperationSet) (op : Operation) : OperationSet :=
  ⟨insertOp op s.ops, sorted_insertOp s.sorted⟩

/-- What the tracker does to an operation. -/
inductive Effect where
  /-- Failed with a `TimeoutException`. -/
  | timedOut (op : Operation)
  | failed (op : Operation)
  | completed (op : Operation)
  | cancelled (op : Operation)
  | retried (op : Operation)
deriving DecidableEq

/-- The host: `findService`, of which only the processing stage is read, and `isStopping`. -/
structure ServiceHost where
  findService : String → Option ProcessingStage
  isStopping : Bool := false

/-- The tracked operations. A map is the list of its entries in the order of its iterator. -/
structure Tracker where
  pendingStartOperations : OperationSet := {}
  pendingServiceStartCompletions : List (String × OperationSet) := []
  pendingServiceAvailableCompletions : List (String × OperationSet) := []
  pendingOperationsForRetry : List (Int × Operation) := []

/-- The operations under a link. -/
def completions (m : List (String × OperationSet)) (link : String) : List Operation :=
  ((m.lookup link).map OperationSet.ops).getD []

/-- `compute`, which adds the operation to the set of a link. -/
def track (link : String) (op : Operation) :
    List (String × OperationSet) → List (String × OperationSet)
  | [] => [(link, OperationSet.add {} op)]
  | (l, ops) :: m => if l = link then (l, ops.add op) :: m else (l, ops) :: track link op m

namespace Tracker

def trackStartOperation (t : Tracker) (op : Operation) : Tracker :=
  { t with pendingStartOperations := t.pendingStartOperations.add op }

def trackServiceStartCompletion (t : Tracker) (link : String) (op : Operation) : Tracker :=
  { t with
    pendingServiceStartCompletions := track link op t.pendingServiceStartCompletions }

/-- `trackServiceAvailableCompletion`. A clone has the id and the expiration time of its
template. -/
def trackServiceAvailableCompletion (t : Tracker) (link : String) (op : Operation) : Tracker :=
  { t with
    pendingServiceAvailableCompletions := track link op t.pendingServiceAvailableCompletions }

end Tracker

/-! ## Maintenance -/

/-- The loop of `checkOperationExpiration`: the operations that are failed, and those that are
left. -/
def expire (now : Int) : List Operation → List Operation × List Operation
  | [] => ([], [])
  | op :: ops =>
      if op.expirationMicrosUtc > now then ([], op :: ops)
      else (op :: (expire now ops).1, (expire now ops).2)

theorem expire_eq (now : Int) (ops : List Operation) :
    expire now ops = (ops.takeWhile (·.expirationMicrosUtc ≤ now),
      ops.dropWhile (·.expirationMicrosUtc ≤ now)) := by
  induction ops with
  | nil => rfl
  | cons op ops ih =>
      unfold expire
      by_cases h : op.expirationMicrosUtc > now
      · rw [if_pos h, List.takeWhile_cons_of_neg (by simpa using h),
          List.dropWhile_cons_of_neg (by simpa using h)]
      · rw [if_neg h, ih, List.takeWhile_cons_of_pos (by simpa using h),
          List.dropWhile_cons_of_pos (by simpa using h)]

/-- `checkOperationExpiration`. -/
def checkOperationExpiration (now : Int) (s : OperationSet) : OperationSet × List Effect :=
  (⟨(expire now s.ops).2, by
      rw [expire_eq]
      exact s.sorted.sublist (List.dropWhile_sublist _)⟩,
    (expire now s.ops).1.map .timedOut)

/-- One round over `pendingServiceStartCompletions`: the entry that stays, and the effects. -/
def checkStartCompletion (host : ServiceHost) (now : Int) (e : String × OperationSet) :
    Option (String × OperationSet) × List Effect :=
  match host.findService e.1 with
  | some .available => (none, e.2.ops.map .completed)
  | none | some .stopped => (none, e.2.ops.map .failed)
  | some _ =>
      (some (e.1, (checkOperationExpiration now e.2).1), (checkOperationExpiration now e.2).2)

/-- One round over `pendingServiceAvailableCompletions`. -/
def checkAvailableCompletion (host : ServiceHost) (now : Int) (e : String × OperationSet) :
    Option (String × OperationSet) × List Effect :=
  match host.findService e.1 with
  | some .available => (none, e.2.ops.map .completed)
  | _ => (some (e.1, (checkOperationExpiration now e.2).1), (checkOperationExpiration now e.2).2)

/-- The loop over `pendingOperationsForRetry`. -/
def checkRetries (host : ServiceHost) (now : Int) :
    List (Int × Operation) → List (Int × Operation) × List Effect
  | [] => ([], [])
  | (queuingTimeMicros, o) :: entries =>
      if host.isStopping then ((queuingTimeMicros, o) :: entries, [.cancelled o])
      else
        let rest := checkRetries host now entries
        if o.retryCount * 1000000 + queuingTimeMicros > now then
          ((queuingTimeMicros, o) :: rest.1, rest.2)
        else (rest.1, .retried o :: rest.2)

/-- A loop over the entries of a map. -/
def sweep (check : String × OperationSet → Option (String × OperationSet) × List Effect)
    (m : List (String × OperationSet)) : List (String × OperationSet) × List Effect :=
  (m.filterMap fun e => (check e).1, m.flatMap fun e => (check e).2)

/-- `performMaintenance`. -/
def Tracker.performMaintenance (host : ServiceHost) (now : Int) (t : Tracker) :
    Tracker × List Effect :=
  let starts := checkOperationExpiration now t.pendingStartOperations
  let startCompletions :=
    sweep (checkStartCompletion host now) t.pendingServiceStartCompletions
  let availableCompletions :=
    sweep (checkAvailableCompletion host now) t.pendingServiceAvailableCompletions
  let retries := checkRetries host now t.pendingOperationsForRetry
  ({ pendingStartOperations := starts.1
     pendingServiceStartCompletions := startCompletions.1
     pendingServiceAvailableCompletions := availableCompletions.1
     pendingOperationsForRetry := retries.1 },
    starts.2 ++ startCompletions.2 ++ availableCompletions.2 ++ retries.2)

/-! ## One set -/

/-- Exactly the operations of a set that have expired are removed and failed with a timeout. -/
def Swept (now : Int) (before after : List Operation) (effects : List Effect) : Prop :=
  ∀ op ∈ before,
    (op.expirationMicrosUtc ≤ now → op ∉ after ∧ .timedOut op ∈ effects) ∧
      (now < op.expirationMicrosUtc → op ∈ after ∧ .timedOut op ∉ effects)

/-- An operation that has expired follows, in the order of the ids, none that has not. -/
def InOrder (now : Int) (ops : List Operation) : Prop :=
  ∀ a ∈ ops, ∀ b ∈ ops, a.id < b.id → b.expirationMicrosUtc ≤ now → a.expirationMicrosUtc ≤ now

section Sets

variable {now : Int} {s : OperationSet} {op : Operation} {effects : List Effect}

theorem mem_expire (now : Int) (ops : List Operation) :
    op ∈ ops ↔ op ∈ (expire now ops).1 ∨ op ∈ (expire now ops).2 := by
  rw [expire_eq, ← List.mem_append, List.takeWhile_append_dropWhile]

theorem expired_of_mem_expire {ops : List Operation} (h : op ∈ (expire now ops).1) :
    op.expirationMicrosUtc ≤ now := by
  rw [expire_eq] at h
  simpa using List.mem_takeWhile_imp h

/-- Where the expired operations come first, none of them is left. -/
theorem lt_of_mem_expire (h : InOrder now s.ops) (hop : op ∈ (expire now s.ops).2) :
    now < op.expirationMicrosUtc := by
  have hsub : (expire now s.ops).2.Sublist s.ops := by
    rw [expire_eq]
    exact List.dropWhile_sublist _
  cases hleft : (expire now s.ops).2 with
  | nil =>
      rw [hleft] at hop
      cases hop
  | cons first rest =>
      have hfirst : now < first.expirationMicrosUtc := by
        rw [expire_eq] at hleft
        simp only at hleft
        have hne : s.ops.dropWhile (fun op => decide (op.expirationMicrosUtc ≤ now)) ≠ [] := by
          rw [hleft]
          exact List.cons_ne_nil first rest
        simpa [hleft] using List.head_dropWhile_not _ hne
      rw [hleft] at hop hsub
      rcases List.mem_cons.mp hop with rfl | hrest
      · exact hfirst
      · have hid := (List.pairwise_cons.mp (s.sorted.sublist hsub)).1 op hrest
        by_contra hle
        have := h first (hsub.subset List.mem_cons_self) op (hsub.subset hop) hid (not_lt.mp hle)
        omega

theorem swept_iff (hfailed : ∀ op ∈ (expire now s.ops).1, .timedOut op ∈ effects)
    (hexpired : ∀ op, .timedOut op ∈ effects → op.expirationMicrosUtc ≤ now) :
    Swept now s.ops (expire now s.ops).2 effects ↔ InOrder now s.ops := by
  constructor
  · intro h a ha b hb hid hle
    by_contra hlt
    have hb := ((mem_expire now s.ops).mp hb).resolve_right ((h b hb).1 hle).1
    have ha := ((h a ha).2 (not_le.mp hlt)).1
    -- what is found comes before what is left
    have hsorted := s.sorted
    rw [← List.takeWhile_append_dropWhile (p := fun op => decide (op.expirationMicrosUtc ≤ now))
      (l := s.ops), List.pairwise_append] at hsorted
    rw [expire_eq] at ha hb
    have := hsorted.2.2 b hb a ha
    omega
  · intro h op hop
    constructor
    · intro hle
      have hleft : op ∉ (expire now s.ops).2 := fun hmem =>
        absurd hle (not_le.mpr (lt_of_mem_expire h hmem))
      exact ⟨hleft, hfailed op (((mem_expire now s.ops).mp hop).resolve_right hleft)⟩
    · intro hlt
      refine ⟨((mem_expire now s.ops).mp hop).resolve_left fun hmem => ?_, fun hmem => ?_⟩
      · exact absurd (expired_of_mem_expire hmem) (not_le.mpr hlt)
      · exact absurd (hexpired op hmem) (not_le.mpr hlt)

end Sets

/-! ## The maps -/

section Maps

variable {check : String × OperationSet → Option (String × OperationSet) × List Effect}
  {m : List (String × OperationSet)} {link : String} {now : Int}

/-- A loop over the entries checks the expiration of the operations under a link, if its check does
so there and leaves the other links alone. -/
structure Checks (check : String × OperationSet → Option (String × OperationSet) × List Effect)
    (now : Int) (link : String) : Prop where
  links : ∀ e e', (check e).1 = some e' → e'.1 = e.1
  checked : ∀ s, check (link, s) =
    (some (link, (checkOperationExpiration now s).1), (checkOperationExpiration now s).2)

theorem completions_sweep (h : Checks check now link) (m : List (String × OperationSet)) :
    completions (sweep check m).1 link = (expire now (completions m link)).2 := by
  induction m with
  | nil => rfl
  | cons e m ih =>
      obtain ⟨l, s⟩ := e
      by_cases hl : l = link
      · subst hl
        simp [completions, sweep, h.checked, List.lookup_cons_self, checkOperationExpiration]
      · have hne : (link == l) = false := by simpa using Ne.symm hl
        have hbefore : completions ((l, s) :: m) link = completions m link := by
          simp [completions, List.lookup_cons, hne]
        rw [hbefore, ← ih]
        cases hcheck : (check (l, s)).1 with
        | none => simp [sweep, hcheck]
        | some e' =>
            obtain ⟨l', s'⟩ := e'
            have hl' : l' = l := h.links _ _ hcheck
            subst hl'
            simp [completions, sweep, hcheck, List.lookup_cons, hne]

theorem timedOut_mem_sweep (h : Checks check now link) {m : List (String × OperationSet)}
    {op : Operation} (hop : op ∈ (expire now (completions m link)).1) :
    .timedOut op ∈ (sweep check m).2 := by
  unfold completions at hop
  cases hlookup : m.lookup link with
  | none =>
      rw [hlookup] at hop
      cases hop
  | some s =>
      rw [hlookup] at hop
      obtain ⟨before, after, rfl, -⟩ := List.lookup_eq_some_iff.mp hlookup
      simp only [sweep, List.flatMap_append, List.flatMap_cons, List.mem_append, h.checked]
      exact Or.inr (Or.inl (List.mem_map_of_mem hop))

theorem exists_completions (m : List (String × OperationSet)) (link : String) :
    ∃ s : OperationSet, s.ops = completions m link := by
  unfold completions
  cases m.lookup link with
  | none => exact ⟨{}, rfl⟩
  | some s => exact ⟨s, rfl⟩

theorem swept_sweep_iff (h : Checks check now link) {m : List (String × OperationSet)}
    {effects : List Effect} (hsub : ∀ e ∈ (sweep check m).2, e ∈ effects)
    (hexpired : ∀ op, .timedOut op ∈ effects → op.expirationMicrosUtc ≤ now) :
    Swept now (completions m link) (completions (sweep check m).1 link) effects ↔
      InOrder now (completions m link) := by
  obtain ⟨s, hs⟩ := exists_completions m link
  rw [completions_sweep h, ← hs]
  exact swept_iff (fun op hop => hsub _ (timedOut_mem_sweep h (hs ▸ hop))) hexpired

end Maps

/-! ## Maintenance as a whole -/

section Maintenance

variable {host : ServiceHost} {now : Int} {t : Tracker} {link : String} {op : Operation}

/-- The service of the link is there and neither available nor stopped. -/
def ServiceHost.Starting (host : ServiceHost) (link : String) : Prop :=
  ∃ stage, host.findService link = some stage ∧ stage ≠ .available ∧ stage ≠ .stopped

/-- There is no service of the link that is available or stopped. -/
def ServiceHost.NotAvailable (host : ServiceHost) (link : String) : Prop :=
  host.findService link ≠ some .available ∧ host.findService link ≠ some .stopped

theorem checks_startCompletion (h : host.Starting link) :
    Checks (checkStartCompletion host now) now link := by
  obtain ⟨stage, hstage, havailable, hstopped⟩ := h
  constructor
  · rintro ⟨l, s⟩ e' he
    unfold checkStartCompletion at he
    split at he <;> cases he
    rfl
  · intro s
    unfold checkStartCompletion
    rw [hstage]
    cases stage <;> first | rfl | contradiction

theorem checks_availableCompletion (h : host.NotAvailable link) :
    Checks (checkAvailableCompletion host now) now link := by
  constructor
  · rintro ⟨l, s⟩ e' he
    unfold checkAvailableCompletion at he
    split at he <;> cases he
    rfl
  · intro s
    unfold checkAvailableCompletion
    split
    · rename_i hstage
      exact absurd hstage h.1
    · rfl

theorem expired_of_check {s : OperationSet}
    (h : .timedOut op ∈ (checkOperationExpiration now s).2) : op.expirationMicrosUtc ≤ now := by
  obtain ⟨op', hop, heq⟩ := List.mem_map.mp h
  cases heq
  exact expired_of_mem_expire hop

theorem not_timedOut_of_retries (entries : List (Int × Operation)) :
    .timedOut op ∉ (checkRetries host now entries).2 := by
  induction entries with
  | nil => exact nofun
  | cons e entries ih =>
      obtain ⟨queuingTimeMicros, o⟩ := e
      unfold checkRetries
      split_ifs
      · simp
      · exact ih
      · simpa using ih

/-- Maintenance fails no operation with a timeout before it has expired. -/
theorem expired_of_timedOut (h : .timedOut op ∈ (t.performMaintenance host now).2) :
    op.expirationMicrosUtc ≤ now := by
  simp only [Tracker.performMaintenance, sweep, List.mem_append, List.mem_flatMap] at h
  rcases h with ((h | ⟨e, -, h⟩) | ⟨e, -, h⟩) | h
  · exact expired_of_check h
  · unfold checkStartCompletion at h
    split at h
    · simp at h
    · simp at h
    · simp at h
    · exact expired_of_check h
  · unfold checkAvailableCompletion at h
    split at h
    · simp at h
    · exact expired_of_check h
  · exact absurd h (not_timedOut_of_retries _)

/-- **Expired operations are found where they come first.** Maintenance removes and fails exactly the
expired ones of the pending starts and of the completions that wait for a service which is neither
available nor stopped, if and only if in none of these sets an expired operation has a greater id
than one that has not expired. -/
theorem expired_found_iff (host : ServiceHost) (now : Int) (t : Tracker) :
    let r := t.performMaintenance host now
    (Swept now t.pendingStartOperations.ops r.1.pendingStartOperations.ops r.2 ∧
      (∀ link, host.Starting link → Swept now (completions t.pendingServiceStartCompletions link)
        (completions r.1.pendingServiceStartCompletions link) r.2) ∧
      ∀ link, host.NotAvailable link →
        Swept now (completions t.pendingServiceAvailableCompletions link)
          (completions r.1.pendingServiceAvailableCompletions link) r.2) ↔
    InOrder now t.pendingStartOperations.ops ∧
      (∀ link, host.Starting link →
        InOrder now (completions t.pendingServiceStartCompletions link)) ∧
      ∀ link, host.NotAvailable link →
        InOrder now (completions t.pendingServiceAvailableCompletions link) := by
  intro r
  have hexpired : ∀ op, .timedOut op ∈ r.2 → op.expirationMicrosUtc ≤ now :=
    fun _ => expired_of_timedOut
  refine and_congr ?_ (and_congr ?_ ?_)
  · refine swept_iff (fun op hop => ?_) hexpired
    simp only [r, Tracker.performMaintenance, List.append_assoc, List.mem_append]
    exact Or.inl (List.mem_map_of_mem hop)
  · refine forall₂_congr fun link hlink => ?_
    refine swept_sweep_iff (checks_startCompletion hlink) (fun e he => ?_) hexpired
    simp only [r, Tracker.performMaintenance, List.mem_append]
    exact Or.inl (Or.inl (Or.inr he))
  · refine forall₂_congr fun link hlink => ?_
    refine swept_sweep_iff (checks_availableCompletion hlink) (fun e he => ?_) hexpired
    simp only [r, Tracker.performMaintenance, List.mem_append]
    exact Or.inl (Or.inr he)

/-- The start that was posted first has more time than the second, which is never found. -/
theorem second_start_not_found : ¬ ∀ (host : ServiceHost) (now : Int) (t : Tracker),
    let r := t.performMaintenance host now
    Swept now t.pendingStartOperations.ops r.1.pendingStartOperations.ops r.2 := by
  intro h
  let t := (Tracker.trackStartOperation {} { id := 1, expirationMicrosUtc := 100 })
    |>.trackStartOperation { id := 2, expirationMicrosUtc := 10 }
  have hswept := h { findService := fun _ => none } 50 t { id := 2, expirationMicrosUtc := 10 }
    (by decide)
  exact absurd (hswept.1 (by decide)).1 (by decide)

end Maintenance

end Xenon.Common.OperationTracker
