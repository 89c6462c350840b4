import Xenon.Foundation.Pool
import Xenon.Stateful.Versions

/-!
# Stateful services as pools of tasks

A `StatefulService` processes a request in stages, on whatever thread completes
the previous one. A task is what is left of such a thread up to its next
synchronized section or its next asynchronous call; the answer it is fired with
is what the call returned. Between two tasks the code touches no shared data, so
the runs of the pool are the interleavings of the code.

Two kinds of task are kept apart. The *stages* of a request (state loading, the
handlers, replication, indexing, transactions, synchronization) never touch the
admission gate: they only end in tasks that do. The other tasks are the gate's
own: admission, `processPending`, dequeueing and stopping.

Beside the runtime context the shared state carries the history the results are
about: which requests are between their admission and their `processPending`,
what `queueRequest` accepted and how it was done with each request, and which
updates the index stored. No function of the model reads it.
-/

namespace Xenon.Stateful

open Xenon.Common Xenon.Foundation

variable {β : Type}

/-! ## Tasks -/

/-- An operation in the completion stages. `reProcess` is the request that
`synchWithPeersAndReProcess` handles again when this one completes. -/
structure Operation (β : Type) extends Request β where
  reProcess : Option (Request β) := none

/-- The stages of a request after it was dispatched. -/
inductive Stage (β : Type) where
  /-- `handleRequest(op)`, in stage `LOADING_STATE`. -/
  | handleRequest (op : Request β)
  /-- Waits for `handleStop` of a local stop. -/
  | handleStop (op : Request β)
  /-- Waits for `loadServiceState`. -/
  | loadState (op : Request β)
  /-- `handleRequest(op, PROCESSING_FILTERS)`. -/
  | processFilters (op : Request β)
  /-- Waits for the service handler, the filters of the service or the
  transaction helper. -/
  | serviceHandler (op : Request β)
  /-- `handleRequestCompletion`. -/
  | completion (op : Operation β) (failed : Bool)
  /-- `handleRequestCompletion` behind its special cases. -/
  | updated (op : Operation β) (isStateUpdated : Bool)
  /-- Waits for `replicateRequest`. -/
  | replication (op : Operation β)
  /-- `processCompletionStageCommit`, which may wait for the commit. -/
  | commit (op : Operation β)
  /-- Waits for `saveServiceState`. -/
  | indexing (op : Operation β)
  /-- Waits for `processCompletionStageUpdateAuthzArtifacts`. -/
  | authzArtifacts (op : Operation β)
  /-- `processCompletionStageTransactionNotification`. -/
  | notification (op : Operation β) (failed : Bool)
  /-- Waits for the transaction coordinator. -/
  | coordinator (op : Operation β) (failed : Bool)
  /-- Waits for `selectServiceOwnerAndSynchState`. -/
  | synchronize (request : Operation β) (failure wasOwner : Bool)
  /-- `op.complete()` or `op.fail(e)`, towards the client. -/
  | reply (op : Operation β) (success : Bool)

/-- What the thread that called `processPending` does next. -/
inductive Next where
  | nothing
  | reply (success : Bool)
  | failRequest
  | handleStopCompletion
  | completion
deriving DecidableEq

/-- Why `checkServiceStopped(op, true)` was called. -/
inductive StopFor (β : Type) where
  /-- `handleStopCompletion` of a stop request. -/
  | stop
  /-- `handleDeleteCompletion`. -/
  | delete (op : Operation β) (isStateUpdated : Bool)
  /-- `handleSynchFailure`, for a service that is marked deleted on a peer. -/
  | markedDeleted (request : Operation β)

inductive Task (β : Type) where
  /-- A dequeued request on its way through the processing chain of the host. -/
  | chain (op : Request β)
  | queueRequest (op : Request β) (dequeued : Bool)
  | queueRequestInternal (op : Request β) (dequeued : Bool)
  /-- The last `checkServiceStopped` of `queueRequestInternal`. -/
  | admitted (op : Request β)
  | processPending (op : Operation β) (next : Next)
  /-- `host.handleRequest(this, null)`. -/
  | dequeueRequest
  /-- The three sections of `checkServiceStopped(op, true)`. -/
  | stop (op : Request β) (k : StopFor β)
  | setStopped (op : Request β) (k : StopFor β)
  | cancelPendingRequests (op : Request β) (k : StopFor β)
  | stage (st : Stage β)

/-- A failure that a stage reports. -/
structure Failure where
  shouldRetry : Bool := false
  isCancellation : Bool := false
  isMarkedDeleted : Bool := false

/-- What a task is fired with. -/
inductive Answer (β : Type) where
  | proceed
  | failed (e : Failure)
  /-- The current time. -/
  | now (micros : Int64)
  | state (d : Option (ServiceDocument β))
  /-- A handler completed the operation. -/
  | completed (linkedState : Option (ServiceDocument β)) (statusCode : Int)
      (stateNotModified : Bool)
  /-- `handleGetWithinTransaction` failed the request. -/
  | failRequest

/-! ## The stages of a request -/

/-- What firing a stage does. `stored` is an update that the index has taken,
`abandoned` the request that will not be handled again because the
synchronization made for it failed. -/
structure Effect (β : Type) where
  versions : Versions
  stored : Option (Request β) := none
  abandoned : Option (Request β) := none
  tasks : List (Task β)

/-- `failRequest`. -/
def failRequest (op : Operation β) : Task β := .processPending op (.reply false)

/-- `handleRequest(request, LOADING_STATE)`. -/
def handleRequest (svc : Service β) (isStopped : Bool) (v : Versions) (request : Request β) :
    List (Task β) :=
  if svc.immutable ∧ (request.action = .patch ∨ request.action = .put) then
    [.processPending ⟨request, none⟩ (.reply false)]
  else if request.isServiceStop then
    if svc.ownerSelection ∧ v.documentOwner = false then
      [.processPending ⟨request, none⟩ .handleStopCompletion]
    else [.stage (.handleStop request)]
  else if isStopped then []
  else if request.isFromReplication then
    [.stage (.processFilters { request with linkedState := request.body })]
  else [.stage (.loadState request)]

/-- The completion of `loadServiceState` in `loadAndLinkState`. -/
def loadAndLinkState (svc : Service β) (v : Versions) (op : Request β)
    (state : Option (ServiceDocument β)) : List (Task β) :=
  if state.isNone ∧ svc.persistence then [failRequest ⟨op, none⟩]
  else [.stage (.processFilters { op with linkedState := state.map (linkLoadedState svc v) })]

/-- `synchronizeWithPeers`, unless it fails the request at once. -/
def synchronizeWithPeers (v : Versions) (request : Operation β) (failure : Bool) : Task β :=
  .stage (.synchronize request failure v.documentOwner)

/-- The request that `synchWithPeersAndReProcess` creates. -/
def synchOwnerRequest (op : Request β) : Operation β where
  id := .synchOwner op.id
  action := .post
  isSynchronizeOwner := true
  linkedState := op.linkedState
  reProcess := some op

/-- `handleRequest(request, PROCESSING_FILTERS)`. -/
def processFilters (svc : Service β) (v : Versions) (request : Request β) : Effect β :=
  match if request.action = .get then (v, .proceed)
      else validateOwnerSelectedUpdate svc v request with
  | (v, .failRequest) => { versions := v, tasks := [failRequest ⟨request, none⟩] }
  | (v, .synchronize failure) =>
      { versions := v, tasks := [synchronizeWithPeers v ⟨request, none⟩ failure] }
  | (v, .reProcess) =>
      { versions := v, tasks := [synchronizeWithPeers v (synchOwnerRequest request) false] }
  | (v, .proceed) =>
      if request.action ≠ .get ∧ validateUpdate svc v request then
        { versions := v, tasks := [.stage (.completion ⟨request, none⟩ true)] }
      else if svc.ownerSelection ∧ request.isFromReplication then
        { versions := v, tasks := [.stage (.completion ⟨request, none⟩ false)] }
      else { versions := v, tasks := [.stage (.serviceHandler request)] }

/-- `isStateUpdated` of `handleRequestCompletion`. -/
def isStateUpdated (op : Request β) : Bool :=
  if op.stateNotModified then false
  else op.isUpdate || op.isFromReplication ||
    (op.transactionId.isSome &&
      decide (op.linkedState.bind (·.documentTransactionId) = op.transactionId))

/-- `handleRequestCompletionSpecialCases`, with `handleDeleteCompletion`. -/
def handleRequestCompletionSpecialCases (svc : Service β) (op : Operation β)
    (failed isStateUpdated : Bool) : List (Task β) :=
  if failed then [.stage (.notification op true)]
  else if op.action = .delete ∧ op.transactionId = none ∧
      ¬ (op.isFromReplication ∧ svc.ownerSelection ∧ op.isCommit = false) then
    [.stop op.toRequest (.delete op isStateUpdated)]
  else if op.action = .options then [.stage (.reply op true), .processPending op .nothing]
  else [.stage (.updated op isStateUpdated)]

/-- `handleRequestCompletion`, up to its special cases. -/
def handleRequestCompletion (svc : Service β) (now : Int64) (v : Versions)
    (op : Operation β) (failed : Bool) : Effect β :=
  let updated := isStateUpdated op.toRequest
  if failed = false ∧ updated = true then
    match applyUpdate svc now v op.toRequest with
    | (v, none) =>
        { versions := v, tasks := handleRequestCompletionSpecialCases svc op true updated }
    | (v, some request) =>
        { versions := v
          tasks := handleRequestCompletionSpecialCases svc ⟨request, op.reProcess⟩ false updated }
  else { versions := v, tasks := handleRequestCompletionSpecialCases svc op failed updated }

/-- The core fields that `handleRequestCompletion` sets on an updated state. -/
def conformState (svc : Service β) (op : Request β) (d : ServiceDocument β) :
    ServiceDocument β :=
  { d with
    documentSelfLink := some svc.selfLink
    documentUpdateAction := some op.action.name
    documentTransactionId :=
      if d.documentTransactionId = none ∧ op.hasTransactionHeader = false then op.transactionId
      else d.documentTransactionId }

/-- `processCompletionStageReplicationProposal` sends the update to the peers. -/
def isReplicated (svc : Service β) (v : Versions) (op : Request β) : Bool :=
  svc.replication && op.action != .get && !op.isReplicationDisabled &&
    !op.isFromReplication && !(svc.ownerSelection && !v.documentOwner)

/-- `processCompletionStageIndexing`: the update is saved, and outside a
transaction the next request is processed meanwhile. -/
def processCompletionStageIndexing (op : Operation β) : List (Task β) :=
  if op.isWithinTransaction then [.stage (.indexing op)]
  else [.stage (.indexing op), .processPending op .nothing]

/-- `handleRequestCompletion` behind its special cases. -/
def completeUpdate (svc : Service β) (v : Versions) (op : Operation β)
    (isStateUpdated : Bool) : List (Task β) :=
  match op.linkedState, isStateUpdated with
  | some linkedState, true =>
      let op : Operation β :=
        { op with linkedState := some (conformState svc op.toRequest linkedState) }
      if isReplicated svc v op.toRequest then [.stage (.replication op)]
      else processCompletionStageIndexing op
  | _, _ => [.stage (.reply op true), .processPending op .nothing]

/-- The state that `saveServiceState` hands to the index. -/
def savedState (svc : Service β) (op : Request β) (d : ServiceDocument β) : ServiceDocument β :=
  { d with
    documentTransactionId :=
      if svc.hasTransactionService then op.transactionId else d.documentTransactionId
    documentUpdateAction :=
      if op.isSynchronizePeer then d.documentUpdateAction else some op.action.name }

/-- How the completions of the index and of the authorization artifacts treat a
failure. -/
def failCompletionStage (op : Operation β) : List (Task β) :=
  if op.isWithinTransaction then [.processPending op .failRequest] else [failRequest op]

/-- `processCompletionStageTransactionNotification`. -/
def processCompletionStageTransactionNotification (svc : Service β) (op : Operation β)
    (failed : Bool) : List (Task β) :=
  if op.isWithinTransaction ∧ svc.hasTransactionService ∧ svc.persistence ∧
      op.statusCode ≠ statusCodeNotFound ∧ op.isFromReplication = false then
    [.stage (.coordinator op failed)]
  else if op.isWithinTransaction then
    [.processPending op (if failed then .failRequest else .reply true)]
  else if failed then [failRequest op]
  else [.stage (.reply op true)]

/-- `completeSynchronizationRequest`. -/
def completeSynchronizationRequest (v : Versions) (request : Operation β)
    (failure isStateUpdated : Bool) : List (Task β) :=
  if failure ∧ v.documentOwner = false then [failRequest request]
  else
    let request : Operation β := { request with isFromReplication := true }
    if isStateUpdated then [.stage (.completion request false)]
    else [.processPending request (.reply true)]

/-- The stop operation that `handleSynchFailure` creates. -/
def stopOp (request : Operation β) : Request β where
  id := .synchOwner request.id
  action := .delete
  noIndexUpdate := true

/-- One stage, fired with what its asynchronous call returned. -/
def runStage (svc : Service β) (isStopped : Bool) (v : Versions) :
    Stage β → Answer β → Option (Effect β)
  | .handleRequest op, .proceed =>
      some { versions := v, tasks := handleRequest svc isStopped v op }
  | .handleStop op, .proceed =>
      some { versions := v, tasks := [.processPending ⟨op, none⟩ .handleStopCompletion] }
  | .handleStop op, .failed _ =>
      some { versions := v, tasks := [.processPending ⟨op, none⟩ .nothing] }
  | .loadState op, .state d => some { versions := v, tasks := loadAndLinkState svc v op d }
  | .loadState op, .failed _ => some { versions := v, tasks := [failRequest ⟨op, none⟩] }
  | .processFilters op, .proceed => some (processFilters svc v op)
  | .serviceHandler op, .completed d statusCode notModified =>
      -- `handleGetSimple` returns without a reply when the service is stopped
      if op.action = .get ∧ op.linkedState = none ∧ isStopped then
        some { versions := v, tasks := [] }
      else
        some
          { versions := v
            tasks := [.stage (.completion
              ⟨{ op with
                  linkedState := d
                  statusCode := statusCode
                  stateNotModified := op.stateNotModified || notModified }, none⟩ false)] }
  | .serviceHandler op, .failed _ =>
      some { versions := v, tasks := [.stage (.completion ⟨op, none⟩ true)] }
  | .serviceHandler op, .failRequest =>
      if op.action = .get ∧ svc.hasTransactionService then
        some { versions := v, tasks := [.processPending ⟨op, none⟩ .completion] }
      else none
  | .completion op failed, .now micros =>
      some (handleRequestCompletion svc micros v op failed)
  | .updated op isStateUpdated, .proceed =>
      some { versions := v, tasks := completeUpdate svc v op isStateUpdated }
  | .replication op, .proceed =>
      some
        { versions := v
          tasks := [.stage (.commit { op with isReplicationDisabled := true })] }
  | .replication op, .failed e =>
      some
        { versions := v
          tasks :=
            if e.shouldRetry ∧ e.isCancellation = false then [synchronizeWithPeers v op true]
            else [failRequest op] }
  | .commit op, .proceed => some { versions := v, tasks := processCompletionStageIndexing op }
  | .indexing op, .proceed =>
      some
        { versions := v
          stored := some { op.toRequest with
            linkedState := op.linkedState.map (savedState svc op.toRequest) }
          tasks :=
            if svc.isPrivileged then [.stage (.authzArtifacts op)]
            else [.stage (.notification op false)] }
  | .indexing op, .failed _ =>
      -- only the document index can fail, the state of other services is cached
      if svc.persistence then some { versions := v, tasks := failCompletionStage op } else none
  | .authzArtifacts op, .proceed =>
      some { versions := v, tasks := [.stage (.notification op false)] }
  | .authzArtifacts op, .failed _ => some { versions := v, tasks := failCompletionStage op }
  | .notification op failed, .proceed =>
      some
        { versions := v
          tasks := processCompletionStageTransactionNotification svc op failed }
  | .coordinator op failed, .proceed =>
      some
        { versions := v
          tasks := [.processPending op (if failed then .failRequest else .reply true)] }
  | .coordinator op _, .failed _ =>
      some { versions := v, tasks := [.processPending op .failRequest] }
  | .synchronize request failure wasOwner, .state d =>
      match handleSynchronizeWithPeersCompletion svc v request.toRequest wasOwner d with
      | (v, request', isStateUpdated) =>
          some
            { versions := v
              tasks := completeSynchronizationRequest v ⟨request', request.reProcess⟩
                failure isStateUpdated }
  | .synchronize request _ _, .failed e =>
      some
        { versions := v
          tasks :=
            if e.isMarkedDeleted then [.stop (stopOp request) (.markedDeleted request)]
            else [failRequest request] }
  | .reply op true, .proceed =>
      some
        { versions := v
          tasks := op.reProcess.toList.map fun r => .stage (.handleRequest r) }
  | .reply op false, .proceed =>
      some { versions := v, abandoned := op.reProcess, tasks := [] }
  | _, _ => none

/-! ## The machine -/

structure Shared (β : Type) where
  gate : Gate β
  versions : Versions := {}
  hostIsStopping : Bool := false
  /-- The requests between their admission and their `processPending`. -/
  activeUpdates : List OpId := []
  activeGets : List OpId := []
  /-- The requests that `queueRequest` accepted (a request without referer never
  is), and how it was done with each. -/
  accepted : List OpId := []
  outcomes : List (OpId × Outcome) := []
  /-- The updates that the index has taken. -/
  stored : List (Request β) := []

namespace Shared

def isStopped (s : Shared β) : Bool := s.gate.processingStage = .stopped

/-- `queueRequest` is done with a request. -/
def settle (s : Shared β) (op : Request β) (o : Outcome) : Shared β :=
  { s with outcomes := (op.id, o) :: s.outcomes }

/-- A request passed the gate. -/
def activate (s : Shared β) (op : Request β) : Shared β :=
  if op.action = .get then { s with activeGets := op.id :: s.activeGets }
  else { s with activeUpdates := op.id :: s.activeUpdates }

/-- A request called `processPending`, or is not processed any further. -/
def release (s : Shared β) (op : Request β) : Shared β :=
  if op.action = .get then { s with activeGets := s.activeGets.erase op.id }
  else { s with activeUpdates := s.activeUpdates.erase op.id }

@[simp] theorem activate_gate (s : Shared β) (op : Request β) :
    (s.activate op).gate = s.gate := by
  unfold activate
  split_ifs <;> rfl

@[simp] theorem activate_accepted (s : Shared β) (op : Request β) :
    (s.activate op).accepted = s.accepted := by
  unfold activate
  split_ifs <;> rfl

@[simp] theorem activate_outcomes (s : Shared β) (op : Request β) :
    (s.activate op).outcomes = s.outcomes := by
  unfold activate
  split_ifs <;> rfl

/-- Releasing a request only touches the list of active ones, which shrinks. -/
theorem release_eq (s : Shared β) (op : Request β) :
    ∃ us gs, s.release op = { s with activeUpdates := us, activeGets := gs } ∧
      us.Sublist s.activeUpdates ∧ gs.Sublist s.activeGets := by
  unfold release
  split_ifs
  · exact ⟨_, _, rfl, .refl _, List.erase_sublist⟩
  · exact ⟨_, _, rfl, List.erase_sublist, .refl _⟩

end Shared

/-- What the thread that called `processPending` does next. -/
def Next.tasks (op : Operation β) : Next → List (Task β)
  | .nothing => []
  | .reply success => [.stage (.reply op success)]
  | .failRequest => [Stateful.failRequest op]
  | .handleStopCompletion => [.stop op.toRequest .stop]
  | .completion => [.stage (.completion op true)]

/-- What follows `checkServiceStopped(op, true)` when it returned true: the
service was stopped already, or is active. -/
def StopFor.refused : StopFor β → List (Task β)
  | .stop => []
  | .delete _ _ => []
  | .markedDeleted request => [failRequest request]

/-- What follows `checkServiceStopped(op, true)` when it stopped the service. -/
def StopFor.stopped (op : Request β) : StopFor β → List (Task β)
  | .stop => [.stage (.reply ⟨op, none⟩ true)]
  | .delete op isStateUpdated => [.stage (.updated op isStateUpdated)]
  | .markedDeleted request => [failRequest request]

/-- The host schedules `handleRequest(op)`. -/
def dispatch (s : Shared β) (op : Request β) : Shared β × List (Task β) :=
  (s.settle op .dispatched, [.stage (.handleRequest op)])

/-- `queueOrScheduleRequest`, for a dequeued request. -/
def queueOrScheduleRequest (svc : Service β) (s : Shared β) (op : Request β) :
    Shared β × List (Task β) :=
  if s.gate.processingStage = .available ∨ op.action = .delete then
    (s, [.queueRequest op true])
  else if s.isStopped then (s.settle op (.stopped (retryOnDemandLoadConflict svc)), [])
  else (s.settle op .notAvailable, [])

def fireQueueRequest (svc : Service β) (s : Shared β) (op : Request β) (dequeued : Bool) :
    Shared β × List (Task β) :=
  match queueRequest svc s.gate op with
  | .handled o => (if op.hasReferer then s.settle op o else s, [])
  | .dispatch => dispatch s op
  | .proceed => (s, [.queueRequestInternal op dequeued])
  | .refused | .queued => (s, [])

def fireQueueRequestInternal (svc : Service β) (s : Shared β) (op : Request β) :
    Shared β × List (Task β) :=
  match queueRequestInternal svc s.hostIsStopping s.gate op with
  | (g, .handled o) => ({ s with gate := g }.settle op o, [])
  | (g, .dispatch) => dispatch { s with gate := g } op
  | (g, .proceed) => ({ s with gate := g }.activate op, [.admitted op])
  | (g, .refused) | (g, .queued) => ({ s with gate := g }, [])

def fireAdmitted (svc : Service β) (s : Shared β) (op : Request β) :
    Shared β × List (Task β) :=
  match checkServiceStopped svc s.gate op with
  | some o => (s.settle op o, [])
  | none => dispatch s op

def fireProcessPending (svc : Service β) (s : Shared β) (op : Operation β) (next : Next) :
    Shared β × List (Task β) :=
  match processPending svc s.gate op.toRequest with
  | (g, true) =>
      ({ s with gate := g }.release op.toRequest, .dequeueRequest :: next.tasks op)
  | (g, false) => ({ s with gate := g }, next.tasks op)

def fireDequeueRequest (s : Shared β) : Shared β × List (Task β) :=
  match dequeueRequest s.gate with
  | (g, some op) => ({ s with gate := g }, [.chain op])
  | (g, none) => ({ s with gate := g }, [])

/-- The first section of `checkServiceStopped(op, true)`. -/
def fireStop (s : Shared β) (op : Request β) (k : StopFor β) : Shared β × List (Task β) :=
  if s.isStopped then (s, k.refused)
  else if s.gate.hasActiveUpdates ∧ op.isServiceDeleteAndStop = false then (s, k.refused)
  else (s, [.setStopped op k])

/-- `setProcessingStage(STOPPED)`. -/
def fireSetStopped (s : Shared β) (op : Request β) (k : StopFor β) :
    Shared β × List (Task β) :=
  ({ s with gate := { s.gate with processingStage := .stopped } },
    [.cancelPendingRequests op k])

def fireCancel (svc : Service β) (s : Shared β) (op : Request β) (k : StopFor β) :
    Shared β × List (Task β) :=
  match cancelPendingRequests svc s.gate op with
  | (g, cancelled) =>
      ({ s with
          gate := g
          outcomes := cancelled.map (fun c => (c.1.id, .cancelled c.2)) ++ s.outcomes },
        k.stopped op)

def fireStage (svc : Service β) (s : Shared β) (st : Stage β) (k : Answer β) :
    Option (Shared β × List (Task β)) :=
  (runStage svc s.isStopped s.versions st k).map fun r =>
    (r.abandoned.toList.foldl Shared.release
      { s with versions := r.versions, stored := r.stored.toList ++ s.stored }, r.tasks)

/-- One task. Only the stages wait for an answer, and a request in the processing
chain, which a filter may keep. -/
def fire (svc : Service β) (s : Shared β) :
    Task β → Answer β → Option (Shared β × List (Task β))
  | .chain op, .failed _ => some (s.settle op .filtered, [])
  | .chain op, _ => some (queueOrScheduleRequest svc s op)
  | .queueRequest op dequeued, _ => some (fireQueueRequest svc s op dequeued)
  | .queueRequestInternal op _, _ => some (fireQueueRequestInternal svc s op)
  | .admitted op, _ => some (fireAdmitted svc s op)
  | .processPending op next, _ => some (fireProcessPending svc s op next)
  | .dequeueRequest, _ => some (fireDequeueRequest s)
  | .stop op k, _ => some (fireStop s op k)
  | .setStopped op k, _ => some (fireSetStopped s op k)
  | .cancelPendingRequests op k, _ => some (fireCancel svc s op k)
  | .stage st, k => fireStage svc s st k

/-- What reaches a service from outside: a request that the host hands to
`queueRequest`, a configuration request, a change of ownership, the stop of
the host. -/
inductive Input (β : Type) where
  | request (op : Request β)
  | configuration (epoch : Option Int64) (operationQueueLimit : Option Int)
  | toggleDocumentOwner (enable : Bool)
  | hostStop

def receive (s : Shared β) : Input β → Shared β × List (Task β)
  | .request op =>
      ({ s with accepted := if op.hasReferer then op.id :: s.accepted else s.accepted },
        [.queueRequest op false])
  | .configuration epoch limit =>
      match handleConfigurationRequest s.versions epoch with
      | none => (s, [])
      | some v =>
          let queue := (limit.bind s.gate.operationQueue.setLimit).getD s.gate.operationQueue
          ({ s with versions := v, gate := { s.gate with operationQueue := queue } }, [])
  | .toggleDocumentOwner enable =>
      ({ s with versions := { s.versions with documentOwner := enable } }, [])
  | .hostStop => ({ s with hostIsStopping := true }, [])

/-- A stateful service with the threads that work for it. -/
def service (svc : Service β) : Machine (Shared β) (Task β) (Input β) (Answer β) :=
  ⟨receive, fire svc⟩

/-- A service that has just become available: nothing is queued, active or under
way, whatever its queue (`LIFO_QUEUE` or not), its limit, epoch, version and
ownership. -/
def started (lifo : Bool) (limit : Int) (v : Versions) : Pool (Shared β) (Task β) :=
  ⟨{ gate := { operationQueue := if lifo then .createLifo limit else .createFifo limit }
     versions := v }, []⟩

theorem fire_chain {svc : Service β} {s : Shared β} {op : Request β} {k : Answer β}
    {r : Shared β × List (Task β)} (h : fire svc s (.chain op) k = some r) :
    (∃ e, k = .failed e) ∧ r = (s.settle op .filtered, []) ∨
      r = queueOrScheduleRequest svc s op := by
  cases k with
  | failed e => exact Or.inl ⟨⟨e, rfl⟩, (Option.some.inj h).symm⟩
  | _ => exact Or.inr (Option.some.inj h).symm

/-- A stage does not touch the gate or the accounting of `queueRequest`, and no
request becomes active by it. -/
theorem fireStage_eq {svc : Service β} {s : Shared β} {st : Stage β} {k : Answer β}
    {r : Shared β × List (Task β)} (h : fireStage svc s st k = some r) :
    ∃ e us gs, runStage svc s.isStopped s.versions st k = some e ∧ r.2 = e.tasks ∧
      r.1 = { s with
        versions := e.versions
        stored := e.stored.toList ++ s.stored
        activeUpdates := us
        activeGets := gs } ∧
      us.Sublist s.activeUpdates ∧ gs.Sublist s.activeGets := by
  obtain ⟨e, he, rfl⟩ := Option.map_eq_some_iff.mp h
  cases ha : e.abandoned with
  | none => exact ⟨e, _, _, he, rfl, by simp, .refl _, .refl _⟩
  | some op =>
      obtain ⟨us, gs, hr, hus, hgs⟩ := Shared.release_eq
        { s with versions := e.versions, stored := e.stored.toList ++ s.stored } op
      exact ⟨e, us, gs, he, rfl, by simpa using hr, hus, hgs⟩

/-! ## Runs of a sample service -/

/-- A persistent service that is neither replicated nor owner selected. -/
def persistentService : Service Unit where
  persistence := true
  hostId := "host"
  selfLink := "/core/examples/one"
  newInstance := { body := () }

/-- A PUT. -/
def put (n : Nat) : Request Unit := { id := .inbound n, action := .put }

/-- Fire the `n`-th task over and over. -/
def fires (n : Nat) (ks : List (Answer Unit)) : List (PoolEvent (Input Unit) (Answer Unit)) :=
  ks.map (.fire n)

/-- From `queueRequest` to the handler, for a request whose task is the first. -/
def admitPut (n : Nat) : List (PoolEvent (Input Unit) (Answer Unit)) :=
  .input (.request (put n)) :: fires 0 [.proceed, .proceed, .proceed]

/-- From `queueRequest` to the queue. -/
def queuePut (n : Nat) : List (PoolEvent (Input Unit) (Answer Unit)) :=
  .input (.request (put n)) :: fires 0 [.proceed, .proceed]

/-- From the handler to the index, and `processPending` and the dequeue of the next
request meanwhile. -/
def handlePut : List (PoolEvent (Input Unit) (Answer Unit)) :=
  fires 0 [.proceed, .state (some { body := () }), .proceed,
    .completed (some { body := () }) 200 false, .now 1, .proceed] ++
    [.fire 1 .proceed, .fire 0 .proceed]

end Xenon.Stateful
