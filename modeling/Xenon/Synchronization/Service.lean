import Xenon.Common.ServiceDocument
import Xenon.Foundation.Selection

/-!
# The synchronization service

`NodeSelectorSynchronizationService.handleBroadcastGetCompletion` looks at the
states that the peers returned for a document, chooses the best one (or the
local one) and sends it to every node whose state differs. The responses are
modelled after `Utils.fromJson`, in the order in which the map enumerates them.
-/

namespace Xenon.Synchronization

open Xenon.Common Xenon.Foundation

variable {β : Type*}

/-! ## The datatype -/

/-- `NodeGroupBroadcastResponse`, as far as it is read. The keys of a map are
distinct. -/
structure BroadcastResponse (β : Type*) where
  receivers : List URI
  jsonResponses : List (URI × ServiceDocument β)
  failures : List URI

/-- `SynchronizePeersRequest`. `handleSynchronizeRequest` has checked that the
self link and the factory link are there. -/
structure SynchronizePeersRequest (β : Type*) where
  state : ServiceDocument β
  factoryLink : String
  selfLink_ne : state.documentSelfLink ≠ none

/-- What else the service reads: `getHost().getId()`,
`Utils.getTimeComparisonEpsilonMicros()` and `ServiceDocument.equals` under the
description of the request. -/
structure Env (β : Type*) where
  hostId : String
  timeEpsilon : Int64
  equals : ServiceDocument β → ServiceDocument β → Bool

/-- How the request is failed: with an exception (its text up to the document
that is printed into it) or with a status code. -/
inductive Failure where
  | exception (message : String)
  | status (code : Int)
deriving DecidableEq

/-! ## Choosing the best state -/

section Choose

variable (env : Env β) (request : SynchronizePeersRequest β)

/-- The state is one of the requested document. -/
def isValid (d : ServiceDocument β) : Bool :=
  d.documentSelfLink ≠ none && d.documentSelfLink = request.state.documentSelfLink

/-- A missing epoch is set to zero. -/
def withEpoch (d : ServiceDocument β) : ServiceDocument β :=
  { d with documentEpoch := some d.epoch }

/-- `peerStates`: what is known of each peer that responded. A state of another
document is kept as an empty one. -/
def peerStates [Inhabited β] (responses : List (URI × ServiceDocument β)) :
    List (URI × ServiceDocument β) :=
  responses.map fun p =>
    (p.1, if isValid request p.2 then withEpoch p.2 else { body := default })

/-- The states put into `syncRspsPerEpoch`. -/
def validStates (responses : List (URI × ServiceDocument β)) :
    List (ServiceDocument β) :=
  (responses.filter fun p => isValid request p.2).map fun p => withEpoch p.2

/-- A state of the requested document, but not of the requested version. -/
def isMismatch (version : Option Int64) (d : ServiceDocument β) : Bool :=
  isValid request d && version.isSome && version ≠ some d.documentVersion

/-- The states of the bucket with the last key of `syncRspsPerEpoch`. -/
def statesForHighestEpoch (states : List (ServiceDocument β)) :
    List (ServiceDocument β) :=
  states.filter fun d => some d.epoch.toInt = topKey (fun d => d.epoch.toInt) states

/-- The loop over these states; the running maximum starts at
`Long.MIN_VALUE`. -/
def bestVersion (states : List (ServiceDocument β)) :
    Option (ServiceDocument β) × Int64 :=
  states.foldl
    (fun acc d => if d.documentVersion > acc.2 then (some d, d.documentVersion) else acc)
    (none, Int64.minValue)

def bestPeer (states : List (ServiceDocument β)) : Option (ServiceDocument β) :=
  (bestVersion (statesForHighestEpoch states)).1

/-- How the local state relates to the best state among peers. A given version
is looked for among the peers only. -/
def relation (version : Option Int64) (best : Option (ServiceDocument β)) :
    List DocumentRelationship :=
  let state := withEpoch request.state
  if version.isSome then []
  else
    match best with
    | none => [.preferred]
    | some b =>
        if state.epoch > b.epoch then [.preferred]
        else if state.epoch = b.epoch then
          ServiceDocument.compare env.equals state (some b) env.timeEpsilon
        else []

/-- From the best state among peers to the state that is broadcast. -/
def resolve (version : Option Int64) (best : Option (ServiceDocument β)) :
    Except Failure (ServiceDocument β) :=
  let state := withEpoch request.state
  let results := relation env request version best
  if best = none ∧ (state.documentVersion = -1 ∨ version.isSome) then
    .error (.status statusCodeNotFound)
  else
    -- in conflict, the local service is synchronized with the peer state
    let best :=
      if .inConflict ∈ results then best
      else if .preferred ∈ results then some state
      else best
    let best := best.getD state
    if best.documentSelfLink = none ∨ best.documentVersion < 0 ∨
        best.documentEpoch = none ∨ best.epoch < 0 then
      .error (.exception "Chosen state has invalid epoch or version: ")
    else if version = none then .ok { best with documentOwner := some env.hostId }
    else .ok best

/-- `handleBroadcastGetCompletion` up to the broadcast. -/
def chooseBest (rsp : BroadcastResponse β) (version : Option Int64) :
    Except Failure (ServiceDocument β) :=
  if rsp.failures ≠ [] ∧ rsp.jsonResponses = [] then
    .error (.exception "Failures received: ")
  else if rsp.jsonResponses.any fun p => isMismatch request version p.2 then
    .error (.status statusCodeInternalError)
  else resolve env request version (bestPeer (validStates request rsp.jsonResponses))

end Choose

/-! ## The broadcast -/

/-- The request that brings a peer to the best state. -/
structure SynchPost (β : Type*) where
  peer : URI
  uri : URI
  action : Action
  /-- `PRAGMA_DIRECTIVE_SYNCH_VERSION` is added; the other directives
  (replicated, version check, synch peer) always are. -/
  synchVersion : Bool
  body : ServiceDocument β

section Broadcast

variable (env : Env β) (request : SynchronizePeersRequest β)

def prepareSynchPostRequest (best : ServiceDocument β) (version : Option Int64)
    (peer : URI) : SynchPost β :=
  let selfLink := best.documentSelfLink.getD ""
  if best.documentUpdateAction = some Action.delete.name ∧ version = none then
    { peer
      uri := buildUri peer selfLink
      action := .delete
      synchVersion := version.isSome
      body := { best with documentSelfLink := some selfLink } }
  else
    { peer
      uri := buildUri peer request.factoryLink
      action := .post
      synchVersion := version.isSome
      body := { best with documentSelfLink := some (getLastPathSegment selfLink) } }

/-- The peer has the best state already. -/
def isSynchronized (best peerState : ServiceDocument β) : Bool :=
  .equalVersion ∈ ServiceDocument.compare env.equals best (some peerState) env.timeEpsilon &&
    best.className = peerState.className && env.equals best peerState

/-- `broadcastBestState`: the requests that are sent. A receiver without a
response in `peerStates` is sent to as well. -/
def broadcastBestState [Inhabited β] (rsp : BroadcastResponse β)
    (best : ServiceDocument β) (version : Option Int64) : List (SynchPost β) :=
  let states := peerStates request rsp.jsonResponses
  let nonRespondingPeers := rsp.receivers.filter fun u => u ∉ states.map Prod.fst
  let stale := states.filter fun p => !isSynchronized env best p.2
  (stale.map Prod.fst ++ nonRespondingPeers).map
    (prepareSynchPostRequest request best version)

/-- What `handleBroadcastGetCompletion` does when it succeeds. -/
structure Broadcast (β : Type*) where
  best : ServiceDocument β
  posts : List (SynchPost β)
  /-- The body of the completed request; none when there is no peer. -/
  responseBody : Option (ServiceDocument β)

def handleBroadcastGetCompletion [Inhabited β] (rsp : BroadcastResponse β)
    (version : Option Int64) : Except Failure (Broadcast β) :=
  match chooseBest env request rsp version with
  | .error f => .error f
  | .ok best =>
      let posts := broadcastBestState env request rsp best version
      let noPeers := rsp.jsonResponses.isEmpty && rsp.receivers.isEmpty
      .ok ⟨best, posts, if noPeers then none else some best⟩

end Broadcast

end Xenon.Synchronization
