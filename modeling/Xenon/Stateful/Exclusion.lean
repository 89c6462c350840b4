import Xenon.Stateful.Service

/-!
# Mutual exclusion

At most one update is between its admission and its `processPending`, and no GET
is while an update is. The gate alone guarantees this: `isUpdateActive` is set
by the one update that is active, `getActiveCount` counts the active GETs, and
the queueing sections let nothing past the other kind.

The gate does not remember who holds it, though. `processPending` clears the
flag for any update, and the code calls it twice for some requests: the
completion of a failed index update calls it again for an update that has left
the gate when it was sent to the index, a request that fails inside a
transaction is released before and by `failRequest`, and the synchronization
request made on behalf of an update gives up the gate that the update, which is
then processed again, still needs. When another request was let in between the
two calls, the second one lets in a third. So the guarantee is about runs in
which `processPending` is called by a request that still holds the gate, or
while no request of its kind does.
-/

namespace Xenon.Stateful

open Xenon.Common Xenon.Foundation

variable {β : Type}

/-- At most one update is active, and then no GET is. -/
def Exclusive (s : Shared β) : Prop :=
  s.activeUpdates.length ≤ 1 ∧ (s.activeUpdates ≠ [] → s.activeGets = [])

/-- The request for which a task calls `processPending`. -/
def Task.released : Task β → Option (Request β)
  | .processPending op _ => some op.toRequest
  | _ => none

/-- `processPending` is called for a request that is still active, or while no
request of its kind is. -/
def ReleasesOwn (s : Shared β) (t : Task β) (_ : Answer β) : Prop :=
  ∀ op ∈ t.released,
    (op.isUpdate = true → op.id ∈ s.activeUpdates ∨ s.activeUpdates = []) ∧
      (op.action = .get → op.id ∈ s.activeGets ∨ s.activeGets = [])

instance (s : Shared β) (t : Task β) (k : Answer β) : Decidable (ReleasesOwn s t k) :=
  inferInstanceAs (Decidable (∀ op ∈ t.released,
    (op.isUpdate = true → op.id ∈ s.activeUpdates ∨ s.activeUpdates = []) ∧
      (op.action = .get → op.id ∈ s.activeGets ∨ s.activeGets = [])))

/-! ## The invariant -/

/-- The gate knows its holders. -/
structure Guarded (s : Shared β) : Prop where
  updates : s.activeUpdates.length ≤ s.gate.isUpdateActive.toNat
  gets : s.activeGets.length ≤ s.gate.getActiveCount
  apart : s.gate.isUpdateActive = true → s.gate.getActiveCount = 0

namespace Guarded

variable {s s' : Shared β}

theorem exclusive (h : Guarded s) : Exclusive s := by
  refine ⟨h.updates.trans (Bool.toNat_le _), fun hne => ?_⟩
  have hactive : s.gate.isUpdateActive = true := by
    by_contra hflag
    have hlen := h.updates
    rw [Bool.eq_false_iff.mpr hflag] at hlen
    exact hne (List.length_eq_zero_iff.mp (Nat.le_zero.mp hlen))
  have hgets := h.gets
  rw [h.apart hactive] at hgets
  exact List.length_eq_zero_iff.mp (Nat.le_zero.mp hgets)

/-- Everything but the gate's own steps: the gate's flag and counter stay, and no
request becomes active. -/
theorem of_sublist (h : Guarded s) (hgate : s.gate.QueuesOnly s'.gate)
    (hu : s'.activeUpdates.Sublist s.activeUpdates)
    (hg : s'.activeGets.Sublist s.activeGets) : Guarded s' where
  updates := by
    rw [hgate.update]
    exact hu.length_le.trans h.updates
  gets := by
    rw [hgate.gets]
    exact hg.length_le.trans h.gets
  apart := by
    rw [hgate.update, hgate.gets]
    exact h.apart

theorem of_gate_eq (h : Guarded s) (hgate : s'.gate = s.gate)
    (hu : s'.activeUpdates = s.activeUpdates) (hg : s'.activeGets = s.activeGets) :
    Guarded s' :=
  h.of_sublist (by rw [hgate]; exact ⟨rfl, rfl, rfl⟩) (hu ▸ .refl _) (hg ▸ .refl _)

theorem activate_update (h : Guarded s) {op : Request β} (hop : op.isUpdate = true)
    (hheld : ¬ s.gate.isHeld) :
    Guarded ({ s with gate := { s.gate with isUpdateActive := true } }.activate op) := by
  obtain ⟨hflag, hcount⟩ := not_or.mp hheld
  have hnone := h.updates
  rw [Bool.eq_false_iff.mpr hflag] at hnone
  have hget := (Request.isUpdate_iff.mp hop).1
  simp only [Shared.activate, if_neg hget]
  exact ⟨by simpa using hnone, h.gets, fun _ => not_not.mp hcount⟩

theorem activate_get (h : Guarded s) {op : Request β} (hop : op.action = .get)
    (hflag : s.gate.isUpdateActive = false) :
    Guarded ({ s with
      gate := { s.gate with getActiveCount := s.gate.getActiveCount + 1 } }.activate op) := by
  simp only [Shared.activate, if_pos hop]
  exact ⟨h.updates, Nat.succ_le_succ h.gets, fun hactive => by simp_all⟩

theorem release_update (h : Guarded s) {op : Request β} (hop : op.isUpdate = true)
    (hown : op.id ∈ s.activeUpdates ∨ s.activeUpdates = []) :
    Guarded ({ s with gate := { s.gate with isUpdateActive := false } }.release op) := by
  have hnone : s.activeUpdates.erase op.id = [] := by
    rcases hown with hmem | hnil
    · refine List.length_eq_zero_iff.mp ?_
      have hlen := List.length_erase_of_mem hmem
      have hle := h.updates.trans (Bool.toNat_le _)
      omega
    · simp [hnil]
  have hget := (Request.isUpdate_iff.mp hop).1
  simp only [Shared.release, if_neg hget, hnone]
  exact ⟨by simp, h.gets, by simp⟩

theorem release_get (h : Guarded s) {op : Request β} (hop : op.action = .get)
    (hown : op.id ∈ s.activeGets ∨ s.activeGets = []) :
    Guarded ({ s with
      gate := { s.gate with getActiveCount := s.gate.getActiveCount - 1 } }.release op) := by
  have hle : (s.activeGets.erase op.id).length ≤ s.gate.getActiveCount - 1 := by
    rcases hown with hmem | hnil
    · rw [List.length_erase_of_mem hmem]
      exact Nat.sub_le_sub_right h.gets 1
    · simp [hnil]
  simp only [Shared.release, if_pos hop]
  refine ⟨h.updates, hle, fun hactive => ?_⟩
  have := h.apart hactive
  simp [this]

end Guarded

/-! ## One step -/

variable {svc : Service β} {s : Shared β}

theorem guarded_receive (h : Guarded s) (i : Input β) : Guarded (receive s i).1 := by
  cases i with
  | request op => exact h.of_gate_eq rfl rfl rfl
  | configuration epoch limit =>
      simp only [receive]
      split
      · exact h
      · exact h.of_sublist ⟨rfl, rfl, rfl⟩ (.refl _) (.refl _)
  | toggleDocumentOwner enable => exact h.of_gate_eq rfl rfl rfl
  | hostStop => exact h.of_gate_eq rfl rfl rfl

theorem guarded_queueRequest (h : Guarded s) (op : Request β) (dequeued : Bool) :
    Guarded (fireQueueRequest svc s op dequeued).1 := by
  unfold fireQueueRequest
  split
  · simp only
    split_ifs <;> exact h.of_gate_eq rfl rfl rfl
  all_goals exact h.of_gate_eq rfl rfl rfl

theorem guarded_queueRequestInternal (h : Guarded s) (op : Request β) :
    Guarded (fireQueueRequestInternal svc s op).1 := by
  unfold fireQueueRequestInternal
  split <;> rename_i hq <;> have hcases := queueing_of_queueRequestInternal hq
  · cases hcases with
    | stopped d _ => exact h.of_gate_eq rfl rfl rfl
    | full _ hsame _ => exact h.of_sublist hsame (.refl _) (.refl _)
  · cases hcases
    exact h.of_gate_eq rfl rfl rfl
  · cases hcases with
    | update hop hheld => exact h.activate_update hop hheld
    | get hop _ hflag => exact h.activate_get hop hflag
  · cases hcases
  · cases hcases with
    | queued _ _ _ hsame _ => exact h.of_sublist hsame (.refl _) (.refl _)

theorem guarded_processPending (h : Guarded s) {op : Operation β} {next : Next} {k : Answer β}
    (hown : ReleasesOwn s (.processPending op next) k) :
    Guarded (fireProcessPending svc s op next).1 := by
  unfold fireProcessPending
  cases hp : processPending svc s.gate op.toRequest with
  | mk g asks =>
      rcases processPending_cases hp with
        ⟨rfl, rfl, -⟩ | ⟨rfl, ⟨hop, rfl⟩ | ⟨hop, rfl⟩⟩
      · exact h
      · exact h.release_update hop ((hown _ rfl).1 hop)
      · exact h.release_get hop ((hown _ rfl).2 hop)

theorem guarded_fire {t : Task β} {k : Answer β} {r : Shared β × List (Task β)}
    (h : Guarded s) (hown : ReleasesOwn s t k) (hfire : fire svc s t k = some r) :
    Guarded r.1 := by
  cases t with
  | stage st =>
      obtain ⟨e, us, gs, -, -, hr, hus, hgs⟩ := fireStage_eq hfire
      rw [hr]
      exact h.of_sublist ⟨rfl, rfl, rfl⟩ hus hgs
  | chain op =>
      rcases fire_chain hfire with ⟨-, rfl⟩ | rfl
      · exact h.of_gate_eq rfl rfl rfl
      · unfold queueOrScheduleRequest
        split_ifs <;> exact h.of_gate_eq rfl rfl rfl
  | queueRequest op dequeued =>
      cases hfire
      exact guarded_queueRequest h op dequeued
  | queueRequestInternal op _ =>
      cases hfire
      exact guarded_queueRequestInternal h op
  | admitted op =>
      cases hfire
      unfold fireAdmitted
      split <;> exact h.of_gate_eq rfl rfl rfl
  | processPending op next =>
      cases hfire
      exact guarded_processPending h hown
  | dequeueRequest =>
      cases hfire
      unfold fireDequeueRequest
      split <;> rename_i hd <;>
        exact h.of_sublist (dequeueRequest_cases hd).1 (.refl _) (.refl _)
  | stop op k =>
      cases hfire
      unfold fireStop
      split_ifs <;> exact h
  | setStopped op k =>
      cases hfire
      exact ⟨h.updates, h.gets, h.apart⟩
  | cancelPendingRequests op k =>
      cases hfire
      unfold fireCancel
      split
      rename_i hc
      exact h.of_sublist (cancelPendingRequests_cases hc).1 (.refl _) (.refl _)

/-! ## Whole runs -/

/-- **Mutual exclusion.** In every state that a started service reaches, under
any interleaving of requests, completions, failures and drains in which
`processPending` is only called by a request that still holds the gate or while
no request of its kind does, at most one update is between its admission and its
`processPending`, and no GET is while an update is. -/
theorem mutual_exclusion (svc : Service β) (lifo : Bool) (limit : Int) (v : Versions)
    {p : Pool (Shared β) (Task β)}
    (h : (service svc).Reaches ReleasesOwn (started lifo limit v) p) : Exclusive p.shared := by
  apply Guarded.exclusive
  apply Machine.invariant (fun s _ => Guarded s) h
  case perm =>
    intro s ts ts' _ hs
    exact hs
  case init => exact ⟨Nat.zero_le _, Nat.zero_le _, fun _ => rfl⟩
  case input =>
    intro s ts i hs
    exact guarded_receive hs i
  case fire =>
    intro s t ts k r hown hfire hs
    exact guarded_fire hs hown hfire

/-- An update that calls `processPending` while it is active, and the next one. -/
theorem mutual_exclusion_two_updates : ∃ p : Pool (Shared Unit) (Task Unit),
    (service persistentService).Reaches ReleasesOwn (started false 10 {}) p ∧
      p.shared.activeUpdates = [.inbound 2] ∧ Exclusive p.shared := by
  obtain ⟨p, hp, hactive⟩ := Option.map_eq_some_iff.mp (show
    ((service persistentService).exec ReleasesOwn (started false 10 {})
      (admitPut 1 ++ handlePut ++ admitPut 2)).map (·.shared.activeUpdates) =
        some [.inbound 2] by decide +kernel)
  have h := Machine.reaches_of_exec hp
  exact ⟨p, h, hactive, mutual_exclusion persistentService false 10 {} h⟩

/-- The first update is sent to the index and leaves the gate, a second one is
admitted, the index fails the first one: its completion calls `processPending`
again, and a third update is admitted beside the second. -/
theorem mutual_exclusion_fails_with_index : ¬ ∀ (svc : Service Unit) (lifo : Bool)
    (limit : Int) (v : Versions) (p : Pool (Shared Unit) (Task Unit)),
    svc.concurrentUpdateHandling = false → svc.concurrentGetHandling = false →
      (service svc).Reaches (fun _ _ _ => True) (started lifo limit v) p →
        Exclusive p.shared := by
  intro h
  obtain ⟨p, hp, hactive⟩ := Option.map_eq_some_iff.mp (show
    ((service persistentService).exec (fun _ _ _ => True) (started false 10 {})
      (admitPut 1 ++ handlePut ++ admitPut 2 ++
        [.fire 1 (.failed {}), .fire 0 .proceed] ++ admitPut 3)).map
          (·.shared.activeUpdates) = some [.inbound 3, .inbound 2] by decide +kernel)
  have hlen := (h persistentService false 10 {} p rfl rfl (Machine.reaches_of_exec hp)).1
  rw [hactive] at hlen
  exact absurd hlen (by decide)

end Xenon.Stateful
