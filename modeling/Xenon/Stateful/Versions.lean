import Xenon.Stateful.Gate

/-!
# Epoch, version and ownership of a stateful service

The part of `StatefulService.RuntimeContext` that the consensus protocol is
about, and the four places of `StatefulService` that write it: `applyUpdate`,
`validateOwnerSelectedUpdate` (the owner option only), the completion of a
synchronization with the peers, and the configuration request. Epoch and version
are `long`s and wrap.
-/

namespace Xenon.Stateful

open Xenon.Common

variable {β : Type}

/-- `epoch`, `version` and the option `DOCUMENT_OWNER`, the only option that is
toggled on a running service. -/
structure Versions where
  epoch : Int64 := 0
  version : Int64 := 0
  documentOwner : Bool := false
deriving DecidableEq

/-- The order in which epoch and version move. -/
def Versions.stamp (v : Versions) : Int ×ₗ Int := toLex (v.epoch.toInt, v.version.toInt)

/-- `Math.max` on longs. -/
def maxLong (a b : Int64) : Int64 := if a ≤ b then b else a

/-- `applyUpdate`. The second component is the operation with its new linked
state, `none` when the code throws: it unboxes the epoch of a replicated state,
after the version was raised. -/
def applyUpdate (svc : Service β) (now : Int64) (v : Versions) (op : Request β) :
    Versions × Option (Request β) :=
  let cachedState := op.linkedState.getD svc.newInstance
  if op.isFromReplication = false then
    let v' := { v with version := v.version + 1 }
    (v', some { op with linkedState := some { cachedState with
      documentEpoch := if svc.ownerSelection then some v.epoch else cachedState.documentEpoch
      documentVersion := v'.version
      documentUpdateTimeMicros := now } })
  else
    let v' := { v with version := maxLong cachedState.documentVersion v.version }
    if svc.ownerSelection then
      match cachedState.documentEpoch with
      | none => (v', none)
      | some epoch => ({ v' with epoch := maxLong epoch v.epoch }, some op)
    else (v', some op)

/-- What `validateOwnerSelectedUpdate` does with a request. -/
inductive OwnerCheck where
  | proceed
  | failRequest
  /-- `synchronizeWithPeers`, with or without an original failure. -/
  | synchronize (failure : Bool)
  /-- `synchWithPeersAndReProcess`. -/
  | reProcess
deriving DecidableEq

def validateOwnerSelectedUpdate (svc : Service β) (v : Versions) (request : Request β) :
    Versions × OwnerCheck :=
  if svc.concurrentUpdateHandling then (v, .proceed)
  else if request.isFromReplication = false ∧ request.isSynchronizeOwner = true then
    (v, .synchronize false)
  else if request.isFromReplication = false ∧ svc.ownerSelection = true then
    if v.documentOwner then (v, .proceed) else (v, .reProcess)
  else if svc.ownerSelection = false then (v, .proceed)
  else
    match request.linkedState with
    | none => (v, .failRequest)
    | some stateFromOwner =>
        match stateFromOwner.documentOwner with
        | none => (v, .failRequest)
        | some owner =>
            if stateFromOwner.documentEpoch.all fun epoch => decide (v.epoch > epoch) then
              (v, if v.documentOwner then .synchronize true else .failRequest)
            else if owner = svc.hostId then
              ({ v with documentOwner := v.documentOwner || request.isSynchronizePeer }, .proceed)
            else ({ v with documentOwner := false }, .proceed)

/-- `validateUpdate`: true when the request is invalid. -/
def validateUpdate (svc : Service β) (v : Versions) (request : Request β) : Bool :=
  if svc.concurrentUpdateHandling ∨ request.isFromReplication ∨
      request.hasTransactionHeader ∨ svc.strictUpdateChecking = false then false
  else
    match request.body with
    | none => true
    | some sdBody => decide (v.version ≠ sdBody.documentVersion)

/-- The consensus fields that `loadAndLinkState` sets on a loaded state. -/
def linkLoadedState (svc : Service β) (v : Versions) (d : ServiceDocument β) :
    ServiceDocument β :=
  { d with
    documentOwner := if v.documentOwner then some svc.hostId else d.documentOwner
    documentEpoch := if svc.ownerSelection then some v.epoch else d.documentEpoch }

/-- The epoch after a synchronization has brought a state. -/
def synchEpoch (v : Versions) (state : Option (ServiceDocument β)) : Int64 :=
  match state.bind (·.documentEpoch) with
  | none => v.epoch
  | some epoch => if epoch > v.epoch then epoch else v.epoch

/-- The version after a synchronization has brought a state. -/
def synchVersion (v : Versions) (state : Option (ServiceDocument β)) : Int64 :=
  match state with
  | none => v.version
  | some state => if state.documentVersion > v.version then state.documentVersion else v.version

/-- `handleSynchronizeWithPeersCompletion`, for a synchronization that
succeeded: the request with the state of the peers linked to it, and whether
anything was updated. -/
def handleSynchronizeWithPeersCompletion (svc : Service β) (v : Versions)
    (request : Request β) (wasOwner : Bool) (state : Option (ServiceDocument β)) :
    Versions × Request β × Bool :=
  let linkedState := state.map fun d =>
    { d with documentOwner := if v.documentOwner then some svc.hostId else d.documentOwner }
  let gained := !wasOwner && v.documentOwner
  let v' := { v with
    epoch := if gained then synchEpoch v state + 1 else synchEpoch v state
    version := synchVersion v state }
  let isStateUpdated := decide (synchEpoch v state ≠ v.epoch) ||
    decide (synchVersion v state ≠ v.version) || gained
  let request := match linkedState with
    | none => request
    | some d => { request with linkedState := some d, body := some d }
  (v', { request with
      statusCode := if isStateUpdated then request.statusCode else statusCodeNotModified },
    isStateUpdated)

/-- The epoch part of `handleConfigurationRequest`; `none` is a failed request. -/
def handleConfigurationRequest (v : Versions) (epoch : Option Int64) : Option Versions :=
  match epoch with
  | none => some v
  | some epoch => if v.epoch ≥ epoch then none else some { v with epoch := epoch }

/-! ## What the functions can do -/

/-- A local update takes the next version and is linked to a state that carries
it; a replicated one takes what is greater of its own and the known epoch and
version, and its state stays. -/
theorem applyUpdate_cases {svc : Service β} {now : Int64} {v v' : Versions} {op : Request β}
    {op' : Option (Request β)} (h : applyUpdate svc now v op = (v', op')) :
    (op.isFromReplication = false ∧ v' = { v with version := v.version + 1 } ∧
      ∃ d, op' = some { op with linkedState := some d } ∧
        d.documentVersion = v.version + 1) ∨
    (op.isFromReplication = true ∧ (op' = none ∨ op' = some op) ∧
      ∃ epoch version, v' = { v with
        epoch := maxLong epoch v.epoch
        version := maxLong version v.version }) := by
  unfold applyUpdate at h
  by_cases hlocal : op.isFromReplication = false
  · rw [if_pos hlocal] at h
    obtain ⟨rfl, rfl⟩ := Prod.mk.inj h
    exact Or.inl ⟨hlocal, rfl, _, rfl, rfl⟩
  · rw [if_neg hlocal] at h
    have hsame : maxLong v.epoch v.epoch = v.epoch := by simp [maxLong]
    refine Or.inr ⟨by simpa using hlocal, ?_⟩
    split_ifs at h
    · split at h
      · obtain ⟨rfl, rfl⟩ := Prod.mk.inj h
        exact ⟨Or.inl rfl, v.epoch, _, by rw [hsame]⟩
      · obtain ⟨rfl, rfl⟩ := Prod.mk.inj h
        exact ⟨Or.inr rfl, _, _, rfl⟩
    · obtain ⟨rfl, rfl⟩ := Prod.mk.inj h
      exact ⟨Or.inr rfl, v.epoch, _, by rw [hsame]⟩

end Xenon.Stateful
