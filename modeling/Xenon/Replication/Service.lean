import Xenon.Replication.Outcome

/-!
# The replication service

`NodeSelectorReplicationService.replicateUpdate` chooses the thresholds of a
replication context and `replicateUpdateToNodes` sends the update out. The
second is a loop over the selected nodes interleaved with the responses to the
requests it has already sent, so it is modelled as a step function: one step
takes the next node of the loop, another delivers the response of a node that
was sent to. The context is the fold of the responses handed to it so far
(`State.heard`).
-/

namespace Xenon.Replication

open Xenon.Common Xenon.Foundation

/-! ## Java integers -/

/-- The value of an `int` expression. -/
def javaInt (x : Int) : Int := x.bmod (2 ^ 32)

/-- The code points of the decimal zeros that `Character.digit` knows; a digit
is at most nine above one of them. -/
def digitZeros : List Nat :=
  [0x0030, 0x0660, 0x06F0, 0x07C0, 0x0966, 0x09E6, 0x0A66, 0x0AE6, 0x0B66,
    0x0BE6, 0x0C66, 0x0CE6, 0x0D66, 0x0E50, 0x0ED0, 0x0F20, 0x1040, 0x1090,
    0x17E0, 0x1810, 0x1946, 0x19D0, 0x1A80, 0x1A90, 0x1B50, 0x1BB0, 0x1C40,
    0x1C50, 0xA620, 0xA8D0, 0xA900, 0xA9D0, 0xAA50, 0xABF0, 0xFF10]

/-- `Character.digit(c, 10)`. -/
def digit (c : Char) : Option Nat :=
  (digitZeros.find? fun z => z ≤ c.toNat ∧ c.toNat < z + 10).map (c.toNat - ·)

def digits : List Char → Option Nat
  | [] => none
  | cs => cs.foldl (fun acc c => (acc.bind fun n => (digit c).map (10 * n + ·))) (some 0)

/-- `Integer.parseInt`: an optional sign, then digits, within the range of
`int`. -/
def parseInt (s : String) : Option Int32 :=
  let value : Option Int :=
    match s.toList with
    | '-' :: cs => (digits cs).map fun n => -(n : Int)
    | '+' :: cs => (digits cs).map fun n => (n : Int)
    | cs => (digits cs).map fun n => (n : Int)
  value.bind fun v =>
    if -(2 ^ 31) ≤ v ∧ v < 2 ^ 31 then some (Int32.ofInt v) else none

/-! ## The datatype -/

/-- The fields of the service. Both maps are caches that outlive a single
update. -/
structure ServiceState where
  nodeCountPerLocation : String → Option Int32
  locationPerNodeURI : URI → Option String
  nodeGroupLink : Option String

/-- The arguments of `replicateUpdate`, with what the node selector promises
about them: the local node is a member, the selected nodes are members, and the
members publish one node group path and one location per address. -/
structure Update where
  /-- `getHost().getId()`. -/
  hostId : String
  /-- `getHost().getLocation()`. -/
  location : Option String
  service : ServiceState
  /-- `localState.nodes.values()`. -/
  nodes : List NodeState
  /-- `localState.nodes.get(getHost().getId())`. -/
  selfNode : NodeState
  self_mem : selfNode ∈ nodes
  self_id : selfNode.id = hostId
  /-- `rsp.selectedNodes`. -/
  selectedNodes : List NodeState
  selected_mem : ∀ m ∈ selectedNodes, m ∈ nodes
  selected_size : selectedNodes.length < 2 ^ 31
  groupLink : String
  group_path : ∀ m ∈ nodes,
    m.groupReference.path = groupLink ∧ m.groupReference.query = none
  group_location : ∀ m ∈ nodes, ∀ m' ∈ nodes,
    m.groupReference = m'.groupReference → m.location = m'.location
  outboundOp : ParentOp
  /-- `outboundOp.getRequestHeaderAsIs(REPLICATION_QUORUM_HEADER)`. -/
  rplQuorumValue : Option String
  /-- `req.serviceOptions.contains(OWNER_SELECTION)`. -/
  ownerSelection : Bool
  replicationQuorum : Option Int32

/-- How `replicateUpdate` ends: the operation is failed or completed at once,
or the update is sent to the nodes of a context. -/
inductive Started where
  | failed (message : String)
  | completed
  | replicating (service : ServiceState) (context : Context)

def replicationQuorumHeaderValueAll : String := "x-xenon-all"

/-! ## `replicateUpdate` -/

/-- The number of nodes in the location, from the cache if there; else the
cache maps are filled. -/
def getNodeCountInLocation (service : ServiceState) (location : String)
    (nodes : List NodeState) : Int32 × ServiceState :=
  match service.nodeCountPerLocation location with
  | some count => (count, service)
  | none =>
      let inside := nodes.filter fun ns => ns.location = some location
      let count := Int32.ofNat inside.length
      (count,
        { service with
          locationPerNodeURI := fun u =>
            if u ∈ inside.map NodeState.groupReference then some location
            else service.locationPerNodeURI u
          nodeCountPerLocation := fun l =>
            if l = location then some count else service.nodeCountPerLocation l })

/-- The success threshold asked for by the request header. -/
def headerQuorum (v : String) (eligibleMemberCount : Int) : Except String Int :=
  let requested : Option Int :=
    if v = replicationQuorumHeaderValueAll then some eligibleMemberCount
    else (parseInt v).map Int32.toInt
  match requested with
  | none => .error ("For input string: \"" ++ v ++ "\"")
  | some s =>
      if s > eligibleMemberCount then
        .error ("Requested quorum " ++ toString s ++ " is larger than member count " ++
          toString eligibleMemberCount)
      else .ok s

/-- `(eligible - success) + 1`, in `int` arithmetic. -/
def failureThresholdFor (eligible success : Int) : Int :=
  javaInt (javaInt (eligible - success) + 1)

def withThresholds (c : Context) (eligible success : Int) : Context :=
  { c with
    successThreshold := success
    failureThreshold := failureThresholdFor eligible success }

def replicateUpdate (u : Update) : Started :=
  let memberCount : Int := u.nodes.length
  if u.ownerSelection ∧ u.selfNode.membershipQuorum.toInt > memberCount then
    .failed ("Not enough peers: " ++ toString memberCount)
  else if memberCount = 1 then .completed
  else
    let eligibleMemberCount : Int := u.selectedNodes.length
    let context := { newContext u.location u.selectedNodes u.outboundOp with
      locationThreshold := u.selfNode.locationQuorum.toInt }
    match u.rplQuorumValue with
    | some v =>
        match headerQuorum v eligibleMemberCount with
        | .error message => .failed message
        | .ok s => .replicating u.service (withThresholds context eligibleMemberCount s)
    | none =>
        if u.ownerSelection then
          match u.location with
          | none =>
              let s := match u.replicationQuorum with
                | some q =>
                    if u.outboundOp.action ≠ .delete then q.toInt
                    else min eligibleMemberCount u.selfNode.membershipQuorum.toInt
                | none => min eligibleMemberCount u.selfNode.membershipQuorum.toInt
              .replicating u.service (withThresholds context eligibleMemberCount s)
          | some location =>
              let (localNodeCount, service) :=
                getNodeCountInLocation u.service location u.selectedNodes
              if u.selfNode.locationQuorum = 1 then
                let s := min localNodeCount.toInt u.selfNode.membershipQuorum.toInt
                .replicating service (withThresholds context localNodeCount.toInt s)
              else
                -- neither threshold is set on this branch
                .replicating service context
        else
          let s := min 2 (eligibleMemberCount - 1)
          .replicating u.service (withThresholds context eligibleMemberCount s)

/-! ## `replicateUpdateToNodes` -/

/-- `NodeState.isUnAvailable`. -/
def isUnAvailable (m : NodeState) : Bool :=
  m.status = .unavailable || m.status = .replaced || m.options.contains .observer

/-- `computeIfAbsent` stores nothing when the node has no location. -/
def updateLocation (service : ServiceState) (m : NodeState) : ServiceState :=
  { service with
    nodeGroupLink := some m.groupReference.path
    locationPerNodeURI := fun u =>
      if u = m.groupReference then
        (service.locationPerNodeURI u).or m.location
      else service.locationPerNodeURI u }

/-- The location of the node a response came from: the address of the response
with the path of the node group. -/
def getLocation (service : ServiceState) (o : PeerOp) : Option String :=
  service.nodeGroupLink.bind fun link =>
    service.locationPerNodeURI
      (buildServiceUri o.uri.scheme o.uri.host o.uri.port link none)

def createReplicaUri (remoteHost : URI) (op : ParentOp) : URI :=
  buildServiceUri remoteHost.scheme remoteHost.host remoteHost.port op.uri.path
    op.uri.query

/-- The location a completion counts for: the local one for the local node. -/
def remoteLocation (service : ServiceState) (c : Context) (o : Option PeerOp) :
    Option String :=
  match c.location, o with
  | some _, some o => getLocation service o
  | location, _ => location

/-- A response with a failure status is a failure (the text of the exception
is only logged). -/
def completionError (o : Option PeerOp) (e : Option String) : Option String :=
  match e, o with
  | none, some o =>
      if statusCodeFailureThreshold ≤ o.statusCode then some "Request failed" else none
  | e, _ => e

/-- What is handed to the context for a response, `none` when it is ignored:
with a location quorum of one only the local location takes part. -/
def handleReplicationCompletion (service : ServiceState) (c : Context)
    (o : Option PeerOp) (e : Option String) : Option Response :=
  if c.location ≠ none ∧ c.locationThreshold = 1 ∧
      c.location ≠ remoteLocation service c o then none
  else some ⟨completionError o e, o, remoteLocation service c o⟩

/-- A replication under way: the nodes the loop has not reached, the nodes that
were sent to and have not answered, and what the context has heard. -/
structure State where
  service : ServiceState
  todo : List NodeState
  inflight : List NodeState
  heard : List Response

/-- The loop takes its next node, or a response arrives from a node that was
sent to (with a failure, or with a status code). -/
inductive Event where
  | next
  | response (m : NodeState) (e : Option String) (statusCode : Int)
      (errorCode : Option Int)

/-- The completion is triggered once for the local node before the loop. -/
def start (service : ServiceState) (c : Context) : State where
  service := service
  todo := c.nodes
  inflight := []
  heard := (handleReplicationCompletion service c none none).toList

/-- The peer operation of node `m`. -/
def peerOp (c : Context) (m : NodeState) (statusCode : Int)
    (errorCode : Option Int) : PeerOp :=
  ⟨createReplicaUri m.groupReference c.parentOp, statusCode, errorCode⟩

def step (hostId : String) (c : Context) (s : State) : Event → Option State
  | .next =>
      match s.todo with
      | [] => none
      | m :: todo =>
          if m.id = hostId then some { s with todo := todo }
          else if m.options.contains .observer then some { s with todo := todo }
          else
            let service :=
              if c.location ≠ none then updateLocation s.service m else s.service
            if isUnAvailable m then
              let o := peerOp c m statusCodeFailureThreshold none
              let r := handleReplicationCompletion service c (some o)
                (some "node is not available")
              some { s with service, todo, heard := s.heard ++ r.toList }
            else some { s with service, todo, inflight := m :: s.inflight }
  | .response m e statusCode errorCode =>
      if m ∈ s.inflight then
        let r := handleReplicationCompletion s.service c
          (some (peerOp c m statusCode errorCode)) e
        some { s with inflight := s.inflight.erase m, heard := s.heard ++ r.toList }
      else none

/-- Every selected node has been accounted for. -/
def State.Complete (s : State) : Prop := s.todo = [] ∧ s.inflight = []

end Xenon.Replication
