import Xenon.Common.ServiceDocument
import Xenon.Stateful.OperationQueue

/-!
# The admission gate of a stateful service

The part of `StatefulService.RuntimeContext` that serializes requests
(`isUpdateActive`, `getActiveCount`, the two queues and the processing stage)
and the synchronized sections of `StatefulService` that read and write it. Each
function below is one such section, with the code around it that touches no
shared data; how they are strung together by the threads of a host is modelled
in `Xenon.Stateful.Service`.
-/

namespace Xenon.Stateful

open Xenon.Common

variable {β : Type}

/-! ## Requests and services -/

/-- The identity of an operation: an inbound request, or the synchronization
request that the service creates on behalf of an inbound one. -/
inductive OpId where
  | inbound (n : Nat)
  | synchOwner (of : OpId)
deriving DecidableEq

/-- The parts of `Operation` that decide how a stateful service processes it.
The pragma directives it looks at are flags. -/
structure Request (β : Type) where
  id : OpId
  action : Action
  isFromReplication : Bool := false
  isSynchronizeOwner : Bool := false
  isSynchronizePeer : Bool := false
  isCommit : Bool := false
  isReplicationDisabled : Bool := false
  /-- `PRAGMA_DIRECTIVE_NO_INDEX_UPDATE` -/
  noIndexUpdate : Bool := false
  /-- `PRAGMA_DIRECTIVE_STATE_NOT_MODIFIED` -/
  stateNotModified : Bool := false
  hasReferer : Bool := true
  /-- `TRANSACTION_HEADER` is set: a transaction control operation. -/
  hasTransactionHeader : Bool := false
  transactionId : Option String := none
  statusCode : Int := statusCodeOk
  body : Option (ServiceDocument β) := none
  linkedState : Option (ServiceDocument β) := none

namespace Request

def isWithinTransaction (op : Request β) : Bool := op.transactionId.isSome

/-- `ServiceHost.isServiceStop`. -/
def isServiceStop (op : Request β) : Bool := op.action = .delete && op.noIndexUpdate

/-- `ServiceHost.isServiceDeleteAndStop`. -/
def isServiceDeleteAndStop (op : Request β) : Bool :=
  op.action = .delete && !op.noIndexUpdate

/-- The actions that `queueRequestInternal` treats as updates. -/
def isUpdate (op : Request β) : Bool :=
  op.action = .patch || op.action = .put || op.action = .delete || op.action = .post

theorem isUpdate_iff {op : Request β} :
    op.isUpdate = true ↔ op.action ≠ .get ∧ op.action ≠ .options := by
  unfold isUpdate
  cases op.action <;> simp

end Request

/-- What a service instance is configured with before it starts. `newInstance`
is a fresh value of its state type; `isPrivileged` says that authorization is
enabled on the host and the service is a privileged one. -/
structure Service (β : Type) where
  concurrentUpdateHandling : Bool := false
  concurrentGetHandling : Bool := false
  persistence : Bool := false
  replication : Bool := false
  ownerSelection : Bool := false
  immutable : Bool := false
  strictUpdateChecking : Bool := false
  isPrivileged : Bool := false
  hasTransactionService : Bool := false
  hostId : String
  selfLink : String
  newInstance : ServiceDocument β

/-- `Service.ProcessingStage`. -/
inductive ProcessingStage where
  | created | initializing | loadingInitialState | synchronizing
  | executingCreateHandler | executingStartHandler | indexingInitialState
  | replicateState | available | stopped
deriving DecidableEq

/-- What happens to a request that is taken away from the service. -/
inductive Disposition where
  | completed | retried | failed
deriving DecidableEq

/-- How `queueRequest` is done with a request. -/
inductive Outcome where
  | dispatched
  | cancelled (d : Disposition)
  | limitExceeded
  | stopped (d : Disposition)
  | notAvailable
  /-- A filter of the host's processing chain kept a dequeued request. -/
  | filtered
deriving DecidableEq

/-- `ServiceResourceTracker.retryOnDemandLoadConflict`. -/
def retryOnDemandLoadConflict (svc : Service β) : Disposition :=
  if svc.persistence then .retried else .failed

/-! ## The gate -/

/-- The gate fields of `RuntimeContext`. -/
structure Gate (β : Type) where
  processingStage : ProcessingStage := .available
  synchQueue : Option (OperationQueue (Request β)) := none
  operationQueue : OperationQueue (Request β)
  isUpdateActive : Bool := false
  getActiveCount : Nat := 0

def synchQueueDefaultLimit : Int := 100

namespace Gate

/-- All queued requests. -/
def pending (g : Gate β) : List (Request β) :=
  (g.synchQueue.map (·.store)).getD [] ++ g.operationQueue.store

/-- `hasActiveUpdates` of `checkServiceStopped`. -/
def hasActiveUpdates (g : Gate β) : Bool :=
  g.synchQueue.isSome || !g.operationQueue.isEmpty

end Gate

/-- What `checkServiceStopped` does with a request that finds the service
stopped. -/
def stoppedReply (svc : Service β) (op : Request β) : Disposition :=
  if op.action = .delete ∧ op.isServiceDeleteAndStop = false then .completed
  else retryOnDemandLoadConflict svc

/-- `checkServiceStopped(op, false)`; `none` is the answer `false`. -/
def checkServiceStopped (svc : Service β) (g : Gate β) (op : Request β) : Option Outcome :=
  if g.processingStage = .stopped then some (.stopped (stoppedReply svc op)) else none

/-- What a section of `queueRequest` decides. -/
inductive Verdict where
  /-- The request was taken care of. -/
  | handled (o : Outcome)
  /-- The request has no referer and is failed at once. -/
  | refused
  /-- The next section runs. -/
  | proceed
  | queued
  | dispatch
deriving DecidableEq

/-- `queueRequest`, up to the call of `queueRequestInternal`. -/
def queueRequest (svc : Service β) (g : Gate β) (op : Request β) : Verdict :=
  match checkServiceStopped svc g op with
  | some o => .handled o
  | none =>
      if op.action ≠ .delete ∧ g.processingStage ≠ .available then .handled .notAvailable
      else if op.hasReferer = false then .refused
      else if svc.concurrentUpdateHandling then .dispatch
      else .proceed

/-- The stop flag of the queueing sections: retry, or, on a host that is
stopping, what `checkServiceStopped` does. -/
def stopFlagReply (svc : Service β) (hostIsStopping : Bool) (op : Request β) : Verdict :=
  .handled (.stopped (if hostIsStopping then stoppedReply svc op
    else retryOnDemandLoadConflict svc))

def queueGetRequestInternal (svc : Service β) (hostIsStopping : Bool) (g : Gate β)
    (op : Request β) : Gate β × Verdict :=
  if g.processingStage = .stopped then (g, stopFlagReply svc hostIsStopping op)
  else if g.isUpdateActive then
    match g.operationQueue.offer op with
    | none => (g, .handled .limitExceeded)
    | some q => ({ g with operationQueue := q }, .queued)
  else ({ g with getActiveCount := g.getActiveCount + 1 }, .proceed)

def queueUpdateRequestInternal (svc : Service β) (hostIsStopping : Bool) (g : Gate β)
    (op : Request β) : Gate β × Verdict :=
  if g.processingStage = .stopped then (g, stopFlagReply svc hostIsStopping op)
  else if g.isUpdateActive ∨ g.getActiveCount ≠ 0 then
    if op.isSynchronizeOwner then
      -- synchronization requests have a queue of their own, created on demand
      match (g.synchQueue.getD (.createFifo synchQueueDefaultLimit)).offer op with
      | none =>
          ({ g with
              synchQueue := some (g.synchQueue.getD (.createFifo synchQueueDefaultLimit)) },
            .handled .limitExceeded)
      | some q => ({ g with synchQueue := some q }, .queued)
    else
      match g.operationQueue.offer op with
      | none => (g, .handled .limitExceeded)
      | some q => ({ g with operationQueue := q }, .queued)
  else ({ g with isUpdateActive := true }, .proceed)

/-- `queueRequestInternal`, up to its last `checkServiceStopped`: a request that
may proceed holds the gate, one that is dispatched is not gated. -/
def queueRequestInternal (svc : Service β) (hostIsStopping : Bool) (g : Gate β)
    (op : Request β) : Gate β × Verdict :=
  if op.isUpdate then queueUpdateRequestInternal svc hostIsStopping g op
  else if op.action = .options then (g, .dispatch)
  else if svc.concurrentGetHandling then (g, .dispatch)
  else queueGetRequestInternal svc hostIsStopping g op

/-- `cancelPendingRequests(op)`: the queued requests with what becomes of them. -/
def cancelPendingRequests (svc : Service β) (g : Gate β) (op : Request β) :
    Gate β × List (Request β × Disposition) :=
  let opsToCancel := g.operationQueue.store ++ (g.synchQueue.map (·.store)).getD []
  let cancel (o : Request β) : Disposition :=
    if o.isFromReplication ∧ o.action = .delete then .completed
    else if op.isServiceDeleteAndStop = false then retryOnDemandLoadConflict svc
    else .failed
  ({ g with
      operationQueue := g.operationQueue.clear
      synchQueue := g.synchQueue.map (·.clear) },
    opsToCancel.map fun o => (o, cancel o))

/-- `processPending`, up to the call of the host; the flag says that the host is
asked for the next request. `getActiveCount` is reset when it gets negative. -/
def processPending (svc : Service β) (g : Gate β) (op : Request β) : Gate β × Bool :=
  if svc.concurrentUpdateHandling then (g, false)
  else if op.action = .options then (g, false)
  else if op.action ≠ .get then ({ g with isUpdateActive := false }, true)
  else if svc.concurrentGetHandling then (g, false)
  else ({ g with getActiveCount := g.getActiveCount - 1 }, true)

def pollSynchQueue (g : Gate β) : Gate β × Option (Request β) :=
  match g.synchQueue with
  | none => (g, none)
  | some q =>
      match q.poll with
      | none => ({ g with synchQueue := none }, none)
      | some (op, q') => ({ g with synchQueue := if q'.isEmpty then none else some q' }, some op)

/-- `dequeueRequest`: synchronization requests come first. -/
def dequeueRequest (g : Gate β) : Gate β × Option (Request β) :=
  match pollSynchQueue g with
  | (g, some op) => (g, some op)
  | (g, none) =>
      match g.operationQueue.poll with
      | none => (g, none)
      | some (op, q) => ({ g with operationQueue := q }, some op)

/-! ## What the sections can do

One lemma for each section that writes the gate; the results about whole runs
use these and never look into the sections again. -/

/-- The requests that have to pass the gate. -/
def isGated (svc : Service β) (op : Request β) : Bool :=
  op.isUpdate || (op.action = .get && !svc.concurrentGetHandling)

namespace Gate

/-- Only the queues may differ. -/
structure QueuesOnly (g g' : Gate β) : Prop where
  stage : g'.processingStage = g.processingStage
  update : g'.isUpdateActive = g.isUpdateActive
  gets : g'.getActiveCount = g.getActiveCount

/-- Some request holds the gate. -/
def isHeld (g : Gate β) : Prop := g.isUpdateActive = true ∨ g.getActiveCount ≠ 0

end Gate

variable {svc : Service β} {hostIsStopping : Bool} {g g' : Gate β} {op : Request β}
  {v : Verdict}

theorem pending_offer_synch {q : OperationQueue (Request β)}
    (h : (g.synchQueue.getD (.createFifo synchQueueDefaultLimit)).offer op = some q) :
    ({ g with synchQueue := some q } : Gate β).pending.Perm (op :: g.pending) := by
  have hq := OperationQueue.perm_of_offer h
  have hstore : (g.synchQueue.getD (.createFifo synchQueueDefaultLimit)).store =
      (g.synchQueue.map (·.store)).getD [] := by
    cases g.synchQueue <;> rfl
  rw [hstore] at hq
  exact hq.append_right _

theorem pending_offer {q : OperationQueue (Request β)}
    (h : g.operationQueue.offer op = some q) :
    ({ g with operationQueue := q } : Gate β).pending.Perm (op :: g.pending) :=
  ((OperationQueue.perm_of_offer h).append_left _).trans List.perm_middle

/-- A queueing section either lets the request through or keeps it out. It keeps
a request out when the service is stopped or somebody holds the gate, and then
the request is queued or has its outcome. -/
inductive Queueing (svc : Service β) (g : Gate β) (op : Request β) : Gate β → Verdict → Prop
  | stopped (d : Disposition) :
      g.processingStage = .stopped → Queueing svc g op g (.handled (.stopped d))
  | full {g' : Gate β} :
      g.isHeld → g.QueuesOnly g' → g'.pending = g.pending →
      Queueing svc g op g' (.handled .limitExceeded)
  | queued {g' : Gate β} :
      g.processingStage ≠ .stopped → g.isHeld → isGated svc op = true →
      g.QueuesOnly g' → g'.pending.Perm (op :: g.pending) →
      Queueing svc g op g' .queued
  | update :
      op.isUpdate = true → ¬ g.isHeld →
      Queueing svc g op { g with isUpdateActive := true } .proceed
  | get :
      op.action = .get → isGated svc op = true → g.isUpdateActive = false →
      Queueing svc g op { g with getActiveCount := g.getActiveCount + 1 } .proceed
  | ungated :
      isGated svc op = false → Queueing svc g op g .dispatch

theorem queueing_get (hget : op.action = .get) (hgated : isGated svc op = true) :
    Queueing svc g op (queueGetRequestInternal svc hostIsStopping g op).1
      (queueGetRequestInternal svc hostIsStopping g op).2 := by
  unfold queueGetRequestInternal
  split_ifs with hstop hupdate
  · exact .stopped _ hstop
  · split
    · exact .full (Or.inl hupdate) ⟨rfl, rfl, rfl⟩ rfl
    · rename_i hoffer
      exact .queued hstop (Or.inl hupdate) hgated ⟨rfl, rfl, rfl⟩ (pending_offer hoffer)
  · exact .get hget hgated (by simpa using hupdate)

theorem queueing_update (hupdate : op.isUpdate = true) :
    Queueing svc g op (queueUpdateRequestInternal svc hostIsStopping g op).1
      (queueUpdateRequestInternal svc hostIsStopping g op).2 := by
  have hgated : isGated svc op = true := by simp [isGated, hupdate]
  unfold queueUpdateRequestInternal
  split_ifs with hstop hheld hsynch
  · exact .stopped _ hstop
  · split
    · refine .full hheld ⟨rfl, rfl, rfl⟩ ?_
      cases hq : g.synchQueue <;> simp [Gate.pending, hq, OperationQueue.createFifo]
    · rename_i hoffer
      exact .queued hstop hheld hgated ⟨rfl, rfl, rfl⟩ (pending_offer_synch hoffer)
  · split
    · exact .full hheld ⟨rfl, rfl, rfl⟩ rfl
    · rename_i hoffer
      exact .queued hstop hheld hgated ⟨rfl, rfl, rfl⟩ (pending_offer hoffer)
  · exact .update hupdate hheld

theorem queueing_of_queueRequestInternal
    (h : queueRequestInternal svc hostIsStopping g op = (g', v)) : Queueing svc g op g' v := by
  obtain ⟨rfl, rfl⟩ : _ = g' ∧ _ = v := ⟨congrArg Prod.fst h, congrArg Prod.snd h⟩
  unfold queueRequestInternal
  split_ifs with hupdate hoptions hget
  · exact queueing_update hupdate
  · exact .ungated (by simp [isGated, hupdate, hoptions])
  · exact .ungated (by simp [isGated, hupdate, hget])
  · have haction : op.action = .get := by
      by_contra hne
      exact hupdate (Request.isUpdate_iff.mpr ⟨hne, hoptions⟩)
    exact queueing_get haction (by simp [isGated, haction, hget])

/-- `processPending` opens the gate for the kind of request it is called for. -/
theorem processPending_cases {asks : Bool} (h : processPending svc g op = (g', asks)) :
    (asks = false ∧ g' = g ∧ (svc.concurrentUpdateHandling = true ∨ isGated svc op = false)) ∨
    (asks = true ∧ ((op.isUpdate = true ∧ g' = { g with isUpdateActive := false }) ∨
      (op.action = .get ∧ g' = { g with getActiveCount := g.getActiveCount - 1 }))) := by
  unfold processPending at h
  split_ifs at h with hconc hoptions hget hcget <;>
    obtain ⟨rfl, rfl⟩ := Prod.mk.inj h
  · exact Or.inl ⟨rfl, rfl, Or.inl hconc⟩
  · exact Or.inl ⟨rfl, rfl, Or.inr (by simp [isGated, Request.isUpdate, hoptions])⟩
  · exact Or.inr ⟨rfl, Or.inl ⟨Request.isUpdate_iff.mpr ⟨hget, hoptions⟩, rfl⟩⟩
  · simp only [ne_eq, not_not] at hget
    exact Or.inl ⟨rfl, rfl, Or.inr (by simp [isGated, Request.isUpdate, hget, hcget])⟩
  · exact Or.inr ⟨rfl, Or.inr ⟨not_not.mp hget, rfl⟩⟩

theorem pollSynchQueue_cases :
    (pollSynchQueue g).1.operationQueue = g.operationQueue ∧
      g.QueuesOnly (pollSynchQueue g).1 ∧
      g.pending = (pollSynchQueue g).2.toList ++ (pollSynchQueue g).1.pending ∧
      ((pollSynchQueue g).2 = none → (pollSynchQueue g).1.synchQueue = none) := by
  unfold pollSynchQueue
  split
  · rename_i hq
    exact ⟨rfl, ⟨rfl, rfl, rfl⟩, rfl, fun _ => hq⟩
  · rename_i q hq
    split
    · rename_i hp
      have hs := OperationQueue.poll_eq_none.mp hp
      exact ⟨rfl, ⟨rfl, rfl, rfl⟩, by simp [Gate.pending, hq, hs], fun _ => rfl⟩
    · rename_i op q' hp
      have hs := OperationQueue.store_of_poll hp
      refine ⟨rfl, ⟨rfl, rfl, rfl⟩, ?_, by simp⟩
      by_cases he : q'.isEmpty
      · simp [Gate.pending, hq, hs, OperationQueue.isEmpty_iff.mp he, he]
      · simp [Gate.pending, hq, hs, he]

/-- `dequeueRequest` takes one pending request, unless there is none. -/
theorem dequeueRequest_cases {next : Option (Request β)} (h : dequeueRequest g = (g', next)) :
    g.QueuesOnly g' ∧ g.pending.Perm (next.toList ++ g'.pending) ∧
      (next = none → g'.pending = []) := by
  obtain ⟨hqueue, hsame, hpending, hnone⟩ := pollSynchQueue_cases (g := g)
  unfold dequeueRequest at h
  split at h
  · rename_i hpoll
    obtain ⟨rfl, rfl⟩ := Prod.mk.inj h
    rw [hpoll] at hsame hpending
    exact ⟨hsame, List.Perm.of_eq hpending, by simp⟩
  · rename_i g₁ hpoll
    rw [hpoll] at hqueue hsame hpending hnone
    have hsynch : g₁.synchQueue = none := hnone rfl
    have hall : g₁.pending = g₁.operationQueue.store := by simp [Gate.pending, hsynch]
    rw [hpending]
    split at h
    · rename_i hp
      obtain ⟨rfl, rfl⟩ := Prod.mk.inj h
      exact ⟨hsame, .refl _, fun _ => by rw [hall, OperationQueue.poll_eq_none.mp hp]⟩
    · rename_i op q hp
      obtain ⟨rfl, rfl⟩ := Prod.mk.inj h
      refine ⟨⟨hsame.stage, hsame.update, hsame.gets⟩, ?_, by simp⟩
      simp [Gate.pending, hsynch, OperationQueue.store_of_poll hp]

/-- `cancelPendingRequests` empties the queues, and every request that was
pending is cancelled once. -/
theorem cancelPendingRequests_cases {cancelled : List (Request β × Disposition)}
    (h : cancelPendingRequests svc g op = (g', cancelled)) :
    g.QueuesOnly g' ∧ g'.pending = [] ∧ (cancelled.map Prod.fst).Perm g.pending := by
  obtain ⟨rfl, rfl⟩ := Prod.mk.inj h
  refine ⟨⟨rfl, rfl, rfl⟩, ?_, ?_⟩
  · cases g.synchQueue <;> simp [Gate.pending]
  · simpa [Gate.pending, Function.comp_def] using List.perm_append_comm

end Xenon.Stateful
