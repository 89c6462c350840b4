import Xenon.Common.ServiceDocument
import Xenon.Common.UriPaths
import Xenon.Foundation.Run
import Xenon.Stateful.Gate

/-!
# The start of a service

`ServiceHost.startService` attaches a service and hands its POST to
`processServiceStart`, which moves the service from stage to stage. A stage that has to wait nests a
handler on the POST and completes it when the answer is there; the handler goes on with the next
stage. Between any two sections of this code the service may be stopped from elsewhere, and the
host may begin to stop.
-/

namespace Xenon.ServiceStart

open Xenon.Common Xenon.Foundation
open Stateful (ProcessingStage)

variable {β : Type}

/-- `ProcessingStage.ordinal`. -/
def ordinal : ProcessingStage → Nat
  | .created => 0
  | .initializing => 1
  | .loadingInitialState => 2
  | .synchronizing => 3
  | .executingCreateHandler => 4
  | .executingStartHandler => 5
  | .indexingInitialState => 6
  | .replicateState => 7
  | .available => 8
  | .stopped => 9

/-- `StatefulService.setProcessingStage`. An earlier stage is refused, unless the service was
stopped: then any stage is set. -/
def setProcessingStage (current stage : ProcessingStage) : Option ProcessingStage :=
  if current = stage then some stage
  else if current = .stopped then some stage
  else if ordinal current > ordinal stage then none
  else some stage

/-- How an operation failed: `markedDeleted` for the error code `ERROR_CODE_STATE_MARKED_DELETED` in
the response. -/
structure Failure where
  statusCode : Int
  markedDeleted : Bool := false
deriving DecidableEq

def statusCodeConflict : Int := 409
def statusCodeForbidden : Int := 403

/-- An exception that was given to `fail`. -/
def exception : Failure := { statusCode := statusCodeInternalError }

/-- `Operation.failServiceMarkedDeleted`. -/
def failServiceMarkedDeleted : Failure :=
  { statusCode := statusCodeConflict, markedDeleted := true }

/-- `Operation.failServiceNotFound`. -/
def failServiceNotFound : Failure := { statusCode := statusCodeNotFound }

/-- `failRequestServiceAlreadyStarted`. -/
def failRequestServiceAlreadyStarted : Failure := { statusCode := statusCodeConflict }

/-- `ServiceDocument.isDeleted`. -/
def isDeleted (d : ServiceDocument β) : Bool := d.documentUpdateAction = some Action.delete.name

/-! ## The parties -/

/-- What the POST says besides its body. The pragma directives are flags. -/
structure Flags where
  action : Action := .post
  /-- `PRAGMA_DIRECTIVE_CREATED` -/
  created : Bool := false
  isSynchronizeOwner : Bool := false
  isSynchronizePeer : Bool := false
  versionCheck : Bool := false
  indexCheck : Bool := false
  forceIndexUpdate : Bool := false
  noIndexUpdate : Bool := false
  synchVersion : Bool := false
  synchHistoricalVersions : Bool := false
  postToPut : Bool := false
  fromMigrationTask : Bool := false
  isFromReplication : Bool := false
  isCommit : Bool := false
  isReplicationDisabled : Bool := false
deriving DecidableEq

/-- `ServiceHost.isServiceCreate`. -/
def Flags.isServiceCreate (post : Flags) : Bool := post.action = .post && post.created

/-- The service and its host: options, and what they answer at once. `newInstance` is a fresh value
of the state type, when there is one; `isAuthorized none` is the answer for a document that has
nothing but the link of the service. -/
structure Env (β : Type) where
  selfLink : String
  persistence : Bool := false
  replication : Bool := false
  ownerSelection : Bool := false
  factory : Bool := false
  immutable : Bool := false
  idempotentPost : Bool := false
  newInstance : Option (ServiceDocument β) := none
  /-- Authorization is enabled and its service is available. -/
  hasAuthorizationService : Bool := false
  hasIndexService : Bool := true
  hasNodeSelector : Bool := true
  isAuthorized : Option (ServiceDocument β) → Bool := fun _ => true
  equals : ServiceDocument β → ServiceDocument β → Bool
  timeEpsilon : Int64 := 0
  hostId : String := ""
  now : Int64 := 0
  /-- `REPLICATION_PARENT_HEADER` -/
  replicationParent : Option String := none

/-- The handlers that are nested on the POST. -/
inductive Frame (β : Type) where
  /-- Goes on with a stage. -/
  | proceed (next : ProcessingStage) (hasClientSuppliedInitialState : Bool)
  /-- Goes on after the synchronization, with a state that it may have linked. -/
  | synchronized (next : ProcessingStage) (hasClientSuppliedInitialState : Bool)
  /-- Goes on after `handleStart`. -/
  | started (finalVersion : Option Int64) (hasClientSuppliedInitialState : Bool)
  /-- Goes on after the replication of a state, which becomes the body. -/
  | replicated (clonedInitState : ServiceDocument β) (hasClientSuppliedInitialState : Bool)
  /-- The handler of `startService`. -/
  | startService (finalAttachService : Bool)
  /-- The handler that the POST came with. -/
  | original

/-- What the start does next, or waits for. -/
inductive Task (β : Type) where
  /-- The checks of `processServiceStart`. -/
  | process (next : ProcessingStage) (hasClientSuppliedInitialState : Bool)
  /-- The stage is set and its case runs. -/
  | enter (next : ProcessingStage) (hasClientSuppliedInitialState : Bool)
  /-- The case of `AVAILABLE`, after the stage was set. -/
  | announce
  | maintain
  /-- `post.complete()`. -/
  | complete
  /-- `post.fail(..)`. -/
  | fail (failure : Failure)
  /-- `failStartServiceOrSynchronize`. -/
  | failStart (failure : Failure)
  /-- The POST is made a PUT, see `checkServiceExistsOrDeleted`. -/
  | convert
  /-- `synchronizeWithPeers`. -/
  | synchronize
  /-- The authorization service has the POST. -/
  | authorization
  /-- The index is asked for the state. -/
  | indexQuery (hasClientSuppliedInitialState : Bool)
  /-- The POST is under way as a PUT. -/
  | put
  | ownerSelection
  /-- The synchronization service was given a state. -/
  | peers (state : ServiceDocument β)
  | createHandler
  | startHandler
  | index
  | replication
  /-- A request to synchronize the service is under way. -/
  | synchRequest (failure : Failure)

/-- What a start does to others. -/
inductive Effect (β : Type) where
  | authorize
  | queryIndex
  /-- The answer of the index. -/
  | loaded (stateFromStore : Option (ServiceDocument β))
  | convertToPut
  | selectOwner
  /-- The answer of the node selector. -/
  | ownerSelected (isLocalHostOwner : Bool)
  | synchronizePeers
  | handleCreate
  | handleStart
  | cacheState (state : ServiceDocument β)
  | saveServiceState (state : ServiceDocument β)
  /-- The index has stored the state. -/
  | indexed
  | replicateRequest (state : ServiceDocument β)
  /-- The replicas have accepted the state. -/
  | accepted
  /-- The service became available: requests that waited for it are let go. -/
  | available
  /-- User interface and maintenance of the service are started. -/
  | maintenance
  | stopService (failure : Failure)
  | synchRequest
  /-- The POST is done, with the failure it was given. -/
  | completed (failure : Option Failure)

/-- A service that starts, its POST, and what the start has done. `deletedStates` are the tombstones
of peers that were saved. -/
structure Start (β : Type) where
  processingStage : ProcessingStage := .created
  isAttached : Bool
  /-- `DOCUMENT_OWNER` -/
  documentOwner : Bool := false
  version : Int64 := 0
  epoch : Int64 := 0
  isStopping : Bool := false
  flags : Flags
  body : Option (ServiceDocument β)
  linkedState : Option (ServiceDocument β) := none
  completion : List (Frame β)
  task : Option (Task β)
  effects : List (Effect β) := []
  deletedStates : List (ServiceDocument β) := []

namespace Start

variable (env : Env β) (s : Start β)

def nestCompletion (f : Frame β) : Start β := { s with completion := f :: s.completion }

def goTo (t : Task β) : Start β := { s with task := some t }

def emit (e : Effect β) : Start β := { s with effects := s.effects ++ [e] }

/-- `ServiceHost.isDocumentOwner`. -/
def isDocumentOwner : Bool := !env.ownerSelection || s.documentOwner

/-- `stopService`, from the start itself or from elsewhere. -/
def stopService : Start β :=
  { s with
    processingStage := if s.isAttached then .stopped else s.processingStage
    isAttached := false }

/-! ## The stages -/

/-- The checks at the beginning of `processServiceStart`. -/
def processServiceStart (next : ProcessingStage) (hasClientSuppliedInitialState : Bool) :
    Start β :=
  if next = s.processingStage then s.goTo .complete
  else if s.isStopping then s.goTo (.fail exception)
  else if s.processingStage = .stopped then s.goTo (.fail exception)
  else s.goTo (.enter next hasClientSuppliedInitialState)

/-- `INITIALIZING`. -/
def initializing (hasClientSuppliedInitialState : Bool) : Start β :=
  let nextStage : ProcessingStage :=
    if env.persistence then .loadingInitialState else .synchronizing
  let s := { s with
    body := s.body.map fun d =>
      if s.flags.fromMigrationTask || s.flags.isFromReplication then d
      else { d with documentUpdateTimeMicros := env.now } }
  if env.hasAuthorizationService then
    ((s.nestCompletion (.proceed nextStage hasClientSuppliedInitialState)).emit .authorize).goTo
      .authorization
  else s.goTo (.process nextStage hasClientSuppliedInitialState)

/-- `loadInitialServiceState`. -/
def loadInitialServiceState (hasClientSuppliedState : Bool) : Start β :=
  if env.hasIndexService = false then s.goTo (.fail exception)
  else if s.flags.synchVersion && s.body.isNone then s.goTo (.fail exception)
  else (s.emit .queryIndex).goTo (.indexQuery hasClientSuppliedState)

/-- `LOADING_INITIAL_STATE`. -/
def loadInitialState (hasClientSuppliedInitialState : Bool) : Start β :=
  let isImmutableStart := s.flags.isServiceCreate && env.immutable
  if !isImmutableStart && env.persistence &&
      (!s.flags.isFromReplication || s.flags.isSynchronizePeer) then
    s.loadInitialServiceState env hasClientSuppliedInitialState
  else s.goTo (.process .synchronizing hasClientSuppliedInitialState)

/-- What `checkServiceExistsOrDeleted` does with a start that is not refused. -/
inductive Existing where
  | proceed (noIndexUpdate : Bool)
  | refused (failure : Failure)
  | restart

/-- `checkServiceExistsOrDeleted`. -/
def checkServiceExistsOrDeleted (stateFromStore : Option (ServiceDocument β))
    (pendingDeletion : Bool) : Existing :=
  if s.flags.versionCheck = false then .proceed false
  else if s.flags.forceIndexUpdate then .proceed false
  else match stateFromStore with
    | none => .proceed false
    | some st =>
        let isDeleted := isDeleted st || pendingDeletion
        match s.body with
        | none => if isDeleted then .refused failServiceMarkedDeleted else .proceed false
        | some initState =>
            if isDeleted && !s.flags.synchVersion then
              if st.documentVersion < initState.documentVersion then .proceed false
              else .refused failServiceMarkedDeleted
            else if s.flags.isSynchronizePeer then
              if st.documentVersion = initState.documentVersion then .proceed true
              else if s.flags.synchVersion then .refused exception
              else .proceed false
            else if env.idempotentPost = false then .refused failRequestServiceAlreadyStarted
            else .restart

/-- The end of `handleLoadInitialStateCompletion`: the state of the index is linked, as one that has
a new version, or it becomes the body. -/
def useStateFromStore (stateFromStore : Option (ServiceDocument β))
    (hasClientSuppliedState : Bool) : Start β :=
  if s.flags.isSynchronizePeer then s
  else { s with
    linkedState := stateFromStore.map fun st =>
      if hasClientSuppliedState then { st with documentVersion := st.documentVersion + 1 } else st
    body := match stateFromStore with
      | none => s.body
      | some st =>
          if !hasClientSuppliedState && st.documentSelfLink.isSome then some st else s.body }

/-- `handleLoadInitialStateCompletion`. -/
def handleLoadInitialStateCompletion (hasClientSuppliedState : Bool)
    (stateFromStore : Option (ServiceDocument β)) (pendingDeletion : Bool) : Start β :=
  let stateToLink := if s.flags.isSynchronizePeer then s.body else stateFromStore
  let s := { s with linkedState := stateToLink }.emit (.loaded stateFromStore)
  match s.checkServiceExistsOrDeleted env stateFromStore pendingDeletion with
  | .refused failure => s.goTo (.fail failure)
  | .restart => s.goTo .convert
  | .proceed noIndexUpdate =>
      let s := { s with
        flags := { s.flags with noIndexUpdate := s.flags.noIndexUpdate || noIndexUpdate } }
      (s.useStateFromStore stateFromStore hasClientSuppliedState).goTo
        (.process .synchronizing hasClientSuppliedState)

/-- A start of an existing service with an idempotent POST goes on as a PUT. -/
def convertToPut : Start β :=
  let s := { s with flags := { s.flags with action := .put, postToPut := true } }
  (s.stopService.emit .convertToPut).goTo .put

/-- The stage after the synchronization. -/
def afterSynchronizing : ProcessingStage :=
  if s.flags.isServiceCreate then .executingCreateHandler else .executingStartHandler

/-- `SYNCHRONIZING`. -/
def synchronizing (hasClientSuppliedInitialState : Bool) : Start β :=
  let nxt := s.afterSynchronizing
  if env.factory || !(env.replication || env.ownerSelection) then
    if !s.flags.isServiceCreate && s.flags.indexCheck && s.linkedState.isNone then
      s.goTo (.fail failServiceNotFound)
    else s.goTo (.process nxt hasClientSuppliedInitialState)
  else
    ((s.nestCompletion (.synchronized nxt hasClientSuppliedInitialState)).emit .selectOwner).goTo
      .ownerSelection

/-- `DOCUMENT_OWNER` is toggled. A replica learns who the owner is when the request is committed. -/
def toggleDocumentOwner (isLocalHostOwner : Bool) : Start β :=
  { s with
    documentOwner :=
      if s.flags.isFromReplication && !s.flags.isCommit then s.documentOwner
      else isLocalHostOwner }

/-- The handler of `selectServiceOwnerAndSynchState`. -/
def ownerSelected (isLocalHostOwner : Bool) : Start β :=
  let s := (s.toggleDocumentOwner isLocalHostOwner).emit (.ownerSelected isLocalHostOwner)
  if s.flags.isFromReplication then s.goTo .complete
  else if s.flags.isServiceCreate || !isLocalHostOwner then s.goTo .complete
  else if !env.replication || env.factory then s.goTo .complete
  else s.goTo .synchronize

/-- The state for the peers when there is none to start from. -/
def templateState (d : ServiceDocument β) : ServiceDocument β :=
  { d with documentSelfLink := some env.selfLink, documentEpoch := some 0, documentVersion := -1 }

/-- `synchronizeWithPeers`. -/
def synchronizeWithPeers : Start β :=
  match UriUtils.getParentPath env.selfLink.toList with
  | none | some [] => s.goTo (.fail exception)
  | some (_ :: _) =>
      match s.body <|> env.newInstance.map (templateState env) with
      | none => s.goTo (.fail exception)
      | some state =>
          ({ s with flags := { s.flags with isSynchronizeOwner := false }
            }.emit .synchronizePeers).goTo (.peers state)

/-- Nothing is to be indexed that the index has. -/
def setNoIndexUpdate : Start β := { s with flags := { s.flags with noIndexUpdate := true } }

/-- The handler of `synchronizeWithPeers`, for an answer that is not a failure. -/
def peersSynchronized (state : ServiceDocument β) (selected : Option (ServiceDocument β)) :
    Start β :=
  if s.isStopping then s.goTo (.fail exception)
  else if s.flags.synchHistoricalVersions then s.setNoIndexUpdate.goTo .complete
  else match selected with
    | none =>
        if isDeleted state then s.goTo (.fail failServiceMarkedDeleted)
        else s.setNoIndexUpdate.goTo .complete
    | some selectedState =>
        let isVersionSame :=
          .equalVersion ∈ ServiceDocument.compare env.equals selectedState (some state)
            env.timeEpsilon
        if isDeleted selectedState then
          { s with
            deletedStates := s.deletedStates ++ if isVersionSame then [] else [selectedState]
          }.goTo (.fail failServiceMarkedDeleted)
        else
          { s with
            flags := { s.flags with
              isSynchronizePeer := true
              noIndexUpdate := s.flags.noIndexUpdate || isVersionSame }
            linkedState := some selectedState
            body := some selectedState }.goTo .complete

/-- `EXECUTING_CREATE_HANDLER`. -/
def executeCreateHandler (hasClientSuppliedInitialState : Bool) : Start β :=
  let s := s.nestCompletion (.proceed .executingStartHandler hasClientSuppliedInitialState)
  if s.isDocumentOwner env = false then s.goTo .complete
  else if s.flags.isFromReplication then s.goTo .complete
  else (s.emit .handleCreate).goTo .createHandler

/-- The version that a linked state gives to the body. -/
def linkedVersion : Option Int64 :=
  if s.body.isSome then s.linkedState.map (·.documentVersion) else none

/-- The linked state is taken from the POST, if there is a body for its version. -/
def takeLinkedState : Start β :=
  { s with linkedState := if s.body.isSome then none else s.linkedState }

/-- `EXECUTING_START_HANDLER`. -/
def executeStartHandler (hasClientSuppliedInitialState : Bool) : Start β :=
  let s := s.takeLinkedState.nestCompletion
    (.started s.linkedVersion hasClientSuppliedInitialState)
  if s.isDocumentOwner env = false then s.goTo .complete
  else if s.body.isNone && s.flags.indexCheck then s.goTo .complete
  else if s.flags.synchVersion then s.goTo .complete
  else (s.emit .handleStart).goTo .startHandler

/-- `StatefulService.setInitialState`, and the self link that `normalizeInitialServiceState` sets. -/
def initialState (d : ServiceDocument β) (finalVersion : Option Int64) : ServiceDocument β :=
  { d with
    documentVersion := finalVersion.getD d.documentVersion
    documentEpoch := if env.ownerSelection then some d.epoch else d.documentEpoch
    documentSelfLink := some env.selfLink }

/-- The epoch of the service after `setInitialState`. -/
def nextEpoch (d : ServiceDocument β) : Int64 :=
  match d.documentEpoch with
  | none => s.epoch
  | some e => max s.epoch e

/-- `normalizeInitialServiceState`. -/
def normalizeInitialServiceState (finalVersion : Option Int64) : Start β :=
  let body := s.body.map (initialState env · finalVersion)
  { s with
    version := (body.map (·.documentVersion)).getD s.version
    epoch := (body.map s.nextEpoch).getD s.epoch
    body }

/-- `INDEXING_INITIAL_STATE`: what is to be indexed. -/
def needsIndexing (hasClientSuppliedInitialState : Bool) : Bool :=
  env.persistence && !env.factory &&
    (s.flags.isSynchronizePeer || hasClientSuppliedInitialState) && !s.flags.noIndexUpdate

/-- The state as `saveServiceState` stores it. -/
def savedState (d : ServiceDocument β) : ServiceDocument β :=
  if s.flags.isSynchronizePeer then d
  else { d with documentUpdateAction := some s.flags.action.name }

/-- `INDEXING_INITIAL_STATE`. -/
def indexInitialState (hasClientSuppliedInitialState : Bool) : Start β :=
  let needsIndexing := s.needsIndexing env hasClientSuppliedInitialState
  let s := s.nestCompletion (.proceed .replicateState hasClientSuppliedInitialState)
  match s.body with
  | none => s.goTo .complete
  | some d =>
      if needsIndexing then
        let d := s.savedState d
        ({ s with body := some d }.emit (.saveServiceState d)).goTo .index
      else (s.emit (.cacheState d)).goTo .complete

/-- `REPLICATE_STATE`: whether the state is replicated. -/
def shouldReplicate : Bool :=
  s.flags.isServiceCreate && s.flags.action = .post && env.replication &&
    !s.flags.isFromReplication && !s.flags.isReplicationDisabled

/-- The state as the factories of the peers are to see it: with the link that the client asked for
in place of the whole path. -/
def clonedInitState (d : ServiceDocument β) (factoryPath originalLink : String) :
    ServiceDocument β :=
  { d with
    documentSelfLink := some (originalLink.replace factoryPath "")
    documentOwner := some env.hostId }

/-- `REPLICATE_STATE`. The body gets its link back when the replication is done. -/
def replicateState (hasClientSuppliedInitialState : Bool) : Start β :=
  if s.shouldReplicate env = false then
    s.goTo (.process .available hasClientSuppliedInitialState)
  else match s.body, env.replicationParent with
    | some d, some factoryPath =>
        match d.documentSelfLink with
        | none => s.goTo (.fail exception)
        | some originalLink =>
            let clone := clonedInitState env d factoryPath originalLink
            let s := s.nestCompletion (.replicated { clone with documentSelfLink := originalLink }
              hasClientSuppliedInitialState)
            let s := { s with linkedState := some clone }
            if s.isStopping || !env.hasNodeSelector then s.goTo (.fail exception)
            else (s.emit (.replicateRequest clone)).goTo .replication
    | _, _ => s.goTo (.fail exception)

/-- `processServiceStart`, from the point at which the stage is set. -/
def enterStage (next : ProcessingStage) (hasClientSuppliedInitialState : Bool) : Start β :=
  match setProcessingStage s.processingStage next with
  | none => s.goTo (.fail exception)
  | some stage =>
      let s := { s with processingStage := stage }
      match next with
      | .initializing => s.initializing env hasClientSuppliedInitialState
      | .loadingInitialState => s.loadInitialState env hasClientSuppliedInitialState
      | .synchronizing => s.synchronizing env hasClientSuppliedInitialState
      | .executingCreateHandler => s.executeCreateHandler env hasClientSuppliedInitialState
      | .executingStartHandler => s.executeStartHandler env hasClientSuppliedInitialState
      | .indexingInitialState => s.indexInitialState env hasClientSuppliedInitialState
      | .replicateState => s.replicateState env hasClientSuppliedInitialState
      | .available => (s.emit .available).goTo .announce
      | .created | .stopped => { s with task := none }

/-- `AVAILABLE`: a service that was stopped before it got here is left alone. -/
def announce : Start β :=
  if s.processingStage = .stopped then s.goTo .complete else s.goTo .maintain

def maintain : Start β :=
  let s := { s with processingStage := .available }
  if !env.immutable && !s.flags.synchVersion then (s.emit .maintenance).goTo .complete
  else s.goTo .complete

/-! ## The handlers of the POST -/

/-- `complete`: the handler that is nested last is taken from the POST and runs. -/
def complete : Start β :=
  match s.completion with
  | [] => { s with task := none }
  | frame :: existing =>
      let s := { s with completion := existing }
      match frame with
      | .proceed next hasClient => s.goTo (.process next hasClient)
      | .synchronized next hasClient =>
          s.goTo (.process next (hasClient || s.linkedState.isSome))
      | .started finalVersion hasClient =>
          let s := s.normalizeInitialServiceState env finalVersion
          if env.isAuthorized s.body then s.goTo (.process .indexingInitialState hasClient)
          else s.goTo (.fail { statusCode := statusCodeForbidden })
      | .replicated clone hasClient =>
          { s with body := some clone }.goTo (.process .available hasClient)
      | .startService _ => s.goTo .complete
      | .original => { s with task := none }.emit (.completed none)

/-- `fail`: the handlers of the stages pass the failure on, that of `startService` stops the
service. -/
def fail (failure : Failure) : Start β :=
  match s.completion with
  | [] => { s with task := none }
  | frame :: existing =>
      let s := { s with completion := existing }
      match frame with
      | .startService finalAttachService =>
          if finalAttachService = false then s.goTo (.fail failure)
          else (s.stopService.emit (.stopService failure)).goTo (.failStart failure)
      | .original => { s with task := none }.emit (.completed (some failure))
      | _ => s.goTo (.fail failure)

/-- `isReplicaConflict`: the state was refused by a replica, which has one. -/
def isReplicaConflict (failure : Failure) : Bool :=
  !failure.markedDeleted && s.flags.isServiceCreate && env.replication &&
    s.flags.action = .post && !s.flags.isFromReplication &&
      failure.statusCode = statusCodeConflict

/-- `failStartServiceOrSynchronize`. Without a linked state the exception is swallowed by the
completion of the POST, whose handler is then not called. -/
def failStartServiceOrSynchronize (failure : Failure) : Start β :=
  if s.isReplicaConflict env failure then
    match s.linkedState with
    | none => { s with task := none }
    | some _ => (s.emit .synchRequest).goTo (.synchRequest failure)
  else s.goTo (.fail failure)

end Start

/-! ## Steps -/

/-- What a start is told by those it waits for. -/
inductive Answer (β : Type) where
  /-- The request has completed, or nothing is waited for. -/
  | done
  | failed (failure : Failure)
  /-- A handler of the service has completed the POST, with a body. -/
  | handled (body : Option (ServiceDocument β))
  | state (stateFromStore : Option (ServiceDocument β)) (pendingDeletion : Bool)
  | owner (isLocalHostOwner : Bool)
  | selected (best : Option (ServiceDocument β))

/-- What happens next. -/
inductive Event (β : Type) where
  /-- The start goes on. -/
  | resume (answer : Answer β)
  /-- The service is stopped from elsewhere. -/
  | stop
  /-- The host begins to stop. -/
  | hostStops

/-- The start goes on with an answer, or refuses one that does not belong to its task. A handler of
the service that throws fails the POST. -/
def resume (env : Env β) (s : Start β) : Task β → Answer β → Option (Start β)
  | .process next hasClient, .done => some (s.processServiceStart next hasClient)
  | .enter next hasClient, .done => some (s.enterStage env next hasClient)
  | .announce, .done => some s.announce
  | .maintain, .done => some (s.maintain env)
  | .complete, .done => some (s.complete env)
  | .fail failure, .done => some (s.fail failure)
  | .failStart failure, .done => some (s.failStartServiceOrSynchronize env failure)
  | .convert, .done => some s.convertToPut
  | .synchronize, .done => some (s.synchronizeWithPeers env)
  | .authorization, .done => some (s.goTo .complete)
  | .put, .done => some (s.goTo .complete)
  | .index, .done => some ((s.emit .indexed).goTo .complete)
  | .replication, .done => some ((s.emit .accepted).goTo .complete)
  | .synchRequest failure, .done | .synchRequest failure, .failed _ =>
      some (s.goTo (.fail failure))
  | .indexQuery hasClient, .state stateFromStore pendingDeletion =>
      some (s.handleLoadInitialStateCompletion env hasClient stateFromStore pendingDeletion)
  | .ownerSelection, .owner isLocalHostOwner => some (s.ownerSelected env isLocalHostOwner)
  | .peers state, .selected best => some (s.peersSynchronized env state best)
  | .createHandler, .handled body | .startHandler, .handled body =>
      some ({ s with body }.goTo .complete)
  | .authorization, .failed failure | .put, .failed failure | .index, .failed failure
  | .replication, .failed failure | .indexQuery _, .failed failure
  | .ownerSelection, .failed failure | .peers _, .failed failure
  | .createHandler, .failed failure | .startHandler, .failed failure =>
      some (s.goTo (.fail failure))
  | _, _ => none

def step (env : Env β) (s : Start β) : Event β → Option (Start β)
  | .resume answer => s.task.bind fun t => resume env s t answer
  | .stop => some s.stopService
  | .hostStops => some { s with isStopping := true }

/-- `startService`, when the service is attached. A helper service and the start of an old version
are not attached. -/
def startService (attachService : Bool) (flags : Flags) (body : Option (ServiceDocument β)) :
    Start β :=
  { isAttached := attachService, flags, body,
    completion := [.startService attachService, .original],
    task := some (.process .initializing body.isSome) }

end Xenon.ServiceStart
