import Xenon.Foundation.Long
import Xenon.Stateful.Service

/-!
# The state that a synchronization leaves

When the peers have answered, `handleSynchronizeWithPeersCompletion` raises epoch
and version of the context to those of the state they returned, and counts the
epoch up if the node has just become the owner. The request is completed as a
replicated one, so `applyUpdate` leaves its document alone: what is linked for the
index is the state of the peers as it came, with the epoch and the version that
it had.
-/

namespace Xenon.Stateful

open Xenon.Common Xenon.Foundation

variable {β : Type}

/-- The operation that goes on to `handleRequestCompletion`. -/
def Task.completing : Task β → Option (Operation β)
  | .stage (.completion op false) => some op
  | _ => none

/-- The document of an update that goes on to the index, directly or behind the
stop of a deleted service. -/
def Task.linked : Task β → Option (ServiceDocument β)
  | .stage (.updated op true) | .stop _ (.delete op true) => op.linkedState
  | _ => none

/-- What follows the answer of the peers on the thread that brings it: the context
afterwards and the document that is linked for the index, if the synchronization
finishes with an updated state. -/
def synchronizeAndLink (svc : Service β) (now : Int64) (v : Versions) (request : Operation β)
    (failure wasOwner : Bool) (state : Option (ServiceDocument β)) :
    Option (Versions × ServiceDocument β) := do
  let (v, request', isStateUpdated) :=
    handleSynchronizeWithPeersCompletion svc v request.toRequest wasOwner state
  let op ← (completeSynchronizationRequest v ⟨request', request.reProcess⟩ failure
    isStateUpdated).findSome? Task.completing
  let e := handleRequestCompletion svc now v op false
  let d ← e.tasks.findSome? Task.linked
  return (e.versions, d)

/-- The node has just become the owner. -/
def becameOwner (v : Versions) (wasOwner : Bool) : Prop := wasOwner = false ∧ v.documentOwner = true

/-- The linked document is in step with the context, and with the epoch of a new
owner, which is beyond every epoch that was known. -/
def InStep (v : Versions) (wasOwner : Bool) (state : ServiceDocument β)
    (r : Versions × ServiceDocument β) : Prop :=
  r.2.documentEpoch = some r.1.epoch ∧ r.2.documentVersion = r.1.version ∧
    (becameOwner v wasOwner → ∃ epoch, r.2.documentEpoch = some epoch ∧
      synchEpoch v (some state) < epoch)

variable {svc : Service β} {now : Int64} {v v' : Versions} {request : Operation β}
  {failure wasOwner : Bool} {d d' : ServiceDocument β}

theorem completing_of_completeSynchronizationRequest {op : Operation β} {isStateUpdated : Bool}
    (h : (completeSynchronizationRequest v request failure isStateUpdated).findSome?
      Task.completing = some op) :
    op = { request with isFromReplication := true } := by
  unfold completeSynchronizationRequest at h
  split_ifs at h
  · cases h
  · exact (Option.some.inj h).symm
  · cases h

theorem linked_of_specialCases {op : Operation β} {failed updated : Bool}
    (h : (handleRequestCompletionSpecialCases svc op failed updated).findSome? Task.linked =
      some d) : failed = false ∧ updated = true ∧ op.linkedState = some d := by
  cases updated with
  | false =>
      unfold handleRequestCompletionSpecialCases at h
      split_ifs at h <;> cases h
  | true =>
      unfold handleRequestCompletionSpecialCases at h
      split_ifs at h with hfailed
      · cases h
      · exact ⟨by simpa using hfailed, rfl, by simpa [Task.linked] using h⟩
      · cases h
      · exact ⟨by simpa using hfailed, rfl, by simpa [Task.linked] using h⟩

/-- `applyUpdate` of a replicated update raises the context and leaves the
document. -/
theorem applyUpdate_replicated {op op' : Request β} (hop : op.isFromReplication = true)
    (hlinked : op.linkedState = some d) (h : applyUpdate svc now v op = (v', some op')) :
    op' = op ∧ v'.version = maxLong d.documentVersion v.version ∧
      v'.documentOwner = v.documentOwner ∧
        (svc.ownerSelection = true ∧
          (∃ epoch, d.documentEpoch = some epoch ∧ v'.epoch = maxLong epoch v.epoch) ∨
            svc.ownerSelection = false ∧ v'.epoch = v.epoch) := by
  simp only [applyUpdate, hop, hlinked, Option.getD_some, Bool.true_eq_false, if_false] at h
  cases hselection : svc.ownerSelection with
  | true =>
      rw [hselection] at h
      cases hepoch : d.documentEpoch with
      | none =>
          rw [hepoch] at h
          cases h
      | some epoch =>
          rw [hepoch] at h
          cases h
          exact ⟨rfl, rfl, rfl, Or.inl ⟨rfl, epoch, rfl, rfl⟩⟩
  | false =>
      rw [hselection] at h
      cases h
      exact ⟨rfl, rfl, rfl, Or.inr ⟨rfl, rfl⟩⟩

/-- A replicated update that is linked for the index was applied, and its document
is the one it came with. -/
theorem linked_of_handleRequestCompletion {op : Operation β}
    (hop : op.isFromReplication = true) (hstate : op.linkedState = some d)
    (h : (handleRequestCompletion svc now v op false).tasks.findSome? Task.linked = some d') :
    d' = d ∧ ∃ op', applyUpdate svc now v op.toRequest =
      ((handleRequestCompletion svc now v op false).versions, some op') := by
  unfold handleRequestCompletion at h ⊢
  dsimp only at h ⊢
  split_ifs at h ⊢ with hupdated
  · cases happlied : applyUpdate svc now v op.toRequest with
    | mk v₁ applied =>
        cases applied with
        | none =>
            rw [happlied] at h
            dsimp only at h
            exact absurd (linked_of_specialCases h).1 (by decide)
        | some request =>
            rw [happlied] at h
            dsimp only at h
            obtain ⟨rfl, -⟩ := applyUpdate_replicated hop hstate happlied
            obtain ⟨-, -, hd⟩ := linked_of_specialCases h
            exact ⟨Option.some.inj (hd.symm.trans hstate), _, rfl⟩
  · dsimp only at h
    exact absurd ⟨rfl, (linked_of_specialCases h).2.1⟩ hupdated

/-- The document that is linked has the epoch and the version of the peers' state;
the context takes the greater ones, and the epoch of a new owner is one further. -/
theorem synchronizeAndLink_spec
    (h : synchronizeAndLink svc now v request failure wasOwner (some d) = some (v', d')) :
    d'.documentEpoch = d.documentEpoch ∧ d'.documentVersion = d.documentVersion ∧
      v'.version = maxLong d.documentVersion (synchVersion v (some d)) ∧
        let epoch := if !wasOwner && v.documentOwner then synchEpoch v (some d) + 1
          else synchEpoch v (some d)
        (svc.ownerSelection = true ∧
          (∃ e, d.documentEpoch = some e ∧ v'.epoch = maxLong e epoch) ∨
            svc.ownerSelection = false ∧ v'.epoch = epoch) := by
  simp only [synchronizeAndLink, Option.bind_eq_bind, Option.bind_eq_some_iff,
    Option.pure_def, Option.some.injEq, Prod.mk.injEq] at h
  obtain ⟨op, hop, d₁, hlinked, rfl, rfl⟩ := h
  obtain rfl := completing_of_completeSynchronizationRequest hop
  obtain ⟨rfl, op', happlied⟩ := linked_of_handleRequestCompletion rfl rfl hlinked
  obtain ⟨-, hversion, -, hepoch⟩ := applyUpdate_replicated rfl rfl happlied
  exact ⟨rfl, rfl, hversion, hepoch⟩

/-! ## When the two are in step -/

theorem maxLong_eq_left {x y : Int64} : maxLong x y = x ↔ y ≤ x := by
  unfold maxLong
  split_ifs with h
  · exact ⟨fun heq => heq ▸ Int64.le_refl y, fun hle => Int64.le_antisymm hle h⟩
  · exact ⟨fun _ => Int64.le_of_lt (Int64.not_le.mp h), fun _ => rfl⟩

theorem le_maxLong_right (x y : Int64) : y ≤ maxLong x y := by
  unfold maxLong
  split_ifs with h
  · exact Int64.le_refl y
  · exact Int64.le_of_lt (Int64.not_le.mp h)

theorem maxLong_eq_right {x y : Int64} : maxLong x y = y ↔ x ≤ y := by
  unfold maxLong
  split_ifs with h
  · exact ⟨fun _ => h, fun _ => rfl⟩
  · exact ⟨fun heq => heq ▸ Int64.le_refl x, fun hle => absurd hle h⟩

/-- Raising the version twice is raising it once. -/
theorem version_in_step : d.documentVersion = maxLong d.documentVersion (synchVersion v (some d)) ↔
    v.version ≤ d.documentVersion := by
  rw [eq_comm, maxLong_eq_left]
  unfold synchVersion
  dsimp only
  split_ifs with h
  · exact ⟨fun _ => Int64.le_of_lt h, fun _ => Int64.le_refl _⟩
  · exact Iff.rfl

theorem synchEpoch_some {epoch : Int64} (h : d.documentEpoch = some epoch) :
    synchEpoch v (some d) = maxLong v.epoch epoch := by
  simp only [synchEpoch, Option.bind_some, h, maxLong]
  split_ifs with hgt hle hle
  · rfl
  · exact absurd (Int64.le_of_lt hgt) hle
  · exact Int64.le_antisymm hle (Int64.not_lt.mp hgt)
  · rfl

/-- Without a new owner the context ends at the greater epoch. -/
theorem epoch_of_not_becameOwner {e epoch : Int64} (hstate : d.documentEpoch = some e)
    (h : svc.ownerSelection = true ∧
        (∃ e, d.documentEpoch = some e ∧ epoch = maxLong e (synchEpoch v (some d))) ∨
      svc.ownerSelection = false ∧ epoch = synchEpoch v (some d)) :
    epoch = maxLong v.epoch e := by
  rw [synchEpoch_some hstate] at h
  rcases h with ⟨-, e', he', rfl⟩ | ⟨-, rfl⟩
  · obtain rfl := Option.some.inj (hstate.symm.trans he')
    exact maxLong_eq_right.mpr (le_maxLong_right _ _)
  · rfl

/-- **The linked document and the context** agree exactly when the node has not
just become the owner and the state of the peers is, in its epoch and in its
version, at least as new as the context. The new epoch of an owner is never
linked. -/
theorem in_step_iff (svc : Service β) (now : Int64) (v : Versions) (request : Operation β)
    (failure wasOwner : Bool) (state : ServiceDocument β) (r : Versions × ServiceDocument β)
    (h : synchronizeAndLink svc now v request failure wasOwner (some state) = some r) :
    InStep v wasOwner state r ↔
      ¬ becameOwner v wasOwner ∧ (∃ epoch, state.documentEpoch = some epoch ∧ v.epoch ≤ epoch) ∧
        v.version ≤ state.documentVersion := by
  obtain ⟨v', d'⟩ := r
  obtain ⟨hde, hdv, hversion, hepoch⟩ := synchronizeAndLink_spec h
  unfold InStep
  rw [hde, hdv, hversion, version_in_step]
  by_cases howner : becameOwner v wasOwner
  · -- the epoch of the peers is never beyond itself
    refine iff_of_false (fun ⟨_, _, hnew⟩ => ?_) fun hright => hright.1 howner
    obtain ⟨e, he, hlt⟩ := hnew howner
    rw [synchEpoch_some he] at hlt
    exact Int64.not_le.mpr hlt (le_maxLong_right _ _)
  · have hflag : (!wasOwner && v.documentOwner) = false := by
      simpa [becameOwner] using howner
    simp only [hflag, Bool.false_eq_true, if_false] at hepoch
    cases hstate : state.documentEpoch with
    | none => simp
    | some e =>
        rw [epoch_of_not_becameOwner hstate hepoch, Option.some.injEq, eq_comm,
          maxLong_eq_right]
        simp [howner, and_comm]

/-- A service that selects its owner. -/
def ownerSelected : Service Unit where
  persistence := true
  replication := true
  ownerSelection := true
  hostId := "host"
  selfLink := "/core/examples/one"
  newInstance := { body := () }

/-- The request of a synchronization. -/
def synchRequest : Operation Unit where
  id := .inbound 1
  action := .post
  isSynchronizeOwner := true

/-- The peers know epoch 6 and version 4, the context 5 and 3: both are raised. -/
theorem in_step_of_newer : ∃ r : Versions × ServiceDocument Unit,
    synchronizeAndLink ownerSelected 0 ⟨5, 3, true⟩ synchRequest false true
        (some { documentEpoch := some 6, documentVersion := 4, body := () }) = some r ∧
      r.1 = ⟨6, 4, true⟩ ∧
        InStep ⟨5, 3, true⟩ true { documentEpoch := some 6, documentVersion := 4, body := () } r := by
  refine ⟨(⟨6, 4, true⟩, { documentEpoch := some 6, documentVersion := 4, body := (), documentOwner := some "host" }), ?_, rfl, ?_⟩
  · decide +kernel
  · refine (in_step_iff ownerSelected 0 _ synchRequest false _ _ _ (by decide +kernel)).mpr ?_
    refine ⟨fun h => absurd h.1 (by decide), ⟨6, rfl, by decide⟩, by decide⟩

/-- The node has just become the owner of a state that all nodes agree on: the
context goes to epoch 6, the index gets epoch 5. -/
theorem new_owner_not_in_step : ¬ ∀ (svc : Service Unit) (now : Int64) (v : Versions)
    (request : Operation Unit) (failure wasOwner : Bool) (state : ServiceDocument Unit)
    (r : Versions × ServiceDocument Unit),
    synchronizeAndLink svc now v request failure wasOwner (some state) = some r →
      InStep v wasOwner state r := by
  intro h
  have hstep := h ownerSelected 0 ⟨5, 3, true⟩ synchRequest false false
    { documentEpoch := some 5, documentVersion := 3, body := () }
    (⟨6, 3, true⟩, { documentEpoch := some 5, documentVersion := 3, body := (), documentOwner := some "host" })
    (by decide +kernel)
  exact absurd hstep.1 (by decide)

end Xenon.Stateful
