import Xenon.NodeGroup.Merge

/-!
# The node group service

The requests that a node group answers: a gossip PATCH is merged, a quorum is updated, a peer
inserts an entry, the node joins a group. A request that fails leaves the state as it was, since
the service works on a copy.
-/

namespace Xenon.NodeGroup

open Xenon.Foundation

/-! ## Requests -/

structure UpdateQuorumRequest where
  isGroupUpdate : Bool
  membershipQuorum : Option Int32
  locationQuorum : Option Int32

structure JoinPeerRequest where
  memberGroupReference : String
  localNodeOptions : Option (Finset NodeOption)
  membershipQuorum : Option Int32
  locationQuorum : Option Int32

/-- A request. A PATCH has the body as a state of a group, as a `UpdateQuorumRequest` if it is of
that kind, and whether enough of the peers accept a quorum for the group. -/
inductive Request where
  | patch (body : NodeGroupState) (quorum : Option UpdateQuorumRequest) (peersAccept : Bool)
  | insert (id : Option String) (body : NodeState)
  | join (body : JoinPeerRequest)

/-! ## The local node -/

/-- `new NodeState()`, with its id. -/
def NodeState.new (id : String) : NodeState := ⟨id, none, .unknown, {.peer}, 0, 0, 0, 0, 0⟩

def buildLocalNodeState (host : Host) (now : Int64) (body : Option NodeState) : NodeState :=
  let body := body.getD (.new host.id)
  let total := host.initialPeerHosts + 1
  { body with
    id := host.id
    status := .synchronizing
    membershipQuorum := if host.membershipQuorum ≠ 0 then host.membershipQuorum
      else max 1 (Int32.ofNat (total / 2 + 1))
    locationQuorum := if host.locationQuorum ≠ 0 then host.locationQuorum else 1
    groupReference := some host.publicUri
    documentUpdateTimeMicros := now }

def validateNodeOptions (options : Finset NodeOption) : Except Failure Unit :=
  if options = ∅ then .error (.illegalArgument "at least one option must be specified")
  else if .observer ∈ options ∧ .peer ∈ options then
    .error (.illegalArgument "OBSERVER and PEER are mutually exclusive")
  else .ok ()

/-- `new NodeGroupState()`. -/
def NodeGroupState.new : NodeGroupState := ⟨none, none, ∅, ∅, 0, 0⟩

def handleStart (host : Host) (now : Int64) (body : Option NodeGroupState) :
    Except Failure NodeGroupState := do
  let initState := body.getD .new
  let self := buildLocalNodeState host now (initState.nodes.lookup host.id)
  validateNodeOptions self.options
  return { initState with
    documentOwner := some host.id
    config := some (initState.config.getD .default)
    nodes := initState.nodes.insert self.id self }

/-! ## Handlers -/

/-- Set a quorum, if one is given. -/
def setQuorums (membershipQuorum locationQuorum : Option Int32) (node : NodeState) : NodeState :=
  { node with
    membershipQuorum := membershipQuorum.getD node.membershipQuorum
    locationQuorum := locationQuorum.getD node.locationQuorum }

/-- The next version of the own entry. -/
def NodeState.update (self : NodeState) (now : Int64) : NodeState :=
  { self with
    documentVersion := self.documentVersion + 1
    documentUpdateTimeMicros := now }

def Nodes.mapValues (f : NodeState → NodeState) (nodes : Nodes) : Nodes where
  entries := (nodes.entries.map (.map id fun _ => f) : List (Σ _ : String, NodeState))
  nodupKeys := List.NodupKeys.map₂ _ _ nodes.nodupKeys

theorem Nodes.lookup_mapValues (f : NodeState → NodeState) (nodes : Nodes) (id : String) :
    (nodes.mapValues f).lookup id = (nodes.lookup id).map f :=
  List.dlookup_map₂ id

/-- A quorum for the group is set for every peer that is available, as it is given. -/
def setGroupQuorum (host : Host) (bd : UpdateQuorumRequest) (nodes : Nodes) : Nodes :=
  nodes.mapValues fun node =>
    if node.isAvailable host.id then setQuorums bd.membershipQuorum bd.locationQuorum node else node

def handleUpdateQuorumPatch (host : Host) (clock : Clock) (localState : NodeGroupState)
    (bd : UpdateQuorumRequest) (peersAccept : Bool) : Except Failure NodeGroupState :=
  match localState.nodes.lookup host.id with
  | none => .error .nullPointer
  | some self =>
      let self := (setQuorums (bd.membershipQuorum.map (max 1)) (bd.locationQuorum.map (max 1))
        self).update clock.now
      let nodes := localState.nodes.insert host.id self
      let localState := { localState with
        nodes := if bd.isGroupUpdate then setGroupQuorum host bd nodes else nodes
        membershipUpdateTimeMicros := clock.now
        localMembershipUpdateTimeMicros := clock.now }
      if bd.isGroupUpdate && !peersAccept then
        .error (.illegalState "Majority of nodes failed request")
      else .ok localState

def handlePatch (host : Host) (clock : Clock) (localState body : NodeGroupState)
    (quorum : Option UpdateQuorumRequest) (peersAccept : Bool) : Except Failure NodeGroupState :=
  if body.nodes.entries.isEmpty then
    match body.config, quorum with
    | some config, _ => .ok { localState with config := some config }
    | none, some bd => handleUpdateQuorumPatch host clock localState bd peersAccept
    | none, none => .error (.illegalArgument "nodes or config are required")
  else do
    let s ← mergeRemoteAndLocalMembership host.id clock localState body
    match s.nodes.lookup host.id with
    | none => .error .nullPointer
    | some self => return { s with
        documentOwner := some host.id
        nodes := s.nodes.insert host.id { self with groupReference := some host.publicUri } }

/-- `handlePost` with an entry. -/
def handleInsertPost (host : Host) (clock : Clock) (localState : NodeGroupState)
    (id : Option String) (body : NodeState) : Except Failure NodeGroupState :=
  match id with
  | none => .error (.illegalArgument "id is required")
  | some id =>
      if body.groupReference = none then .error (.illegalArgument "groupReference is required")
      else
        let body := { body with id := id }
        let body := if id = host.id then buildLocalNodeState host clock.now (some body) else body
        .ok { localState with nodes := localState.nodes.insert id body }

/-- The options that a join asks for. -/
def setOptions (options : Option (Finset NodeOption)) (self : NodeState) :
    Except Failure NodeState :=
  match options with
  | none => .ok self
  | some options => do
      validateNodeOptions options
      return { self with options := options }

/-- `handleJoinPost` as far as the state of the group goes; then the peer is asked for its state,
which comes as a PATCH. -/
def handleJoinPost (host : Host) (clock : Clock) (localState : NodeGroupState)
    (joinBody : JoinPeerRequest) : Except Failure NodeGroupState :=
  if host.isHostEqual joinBody.memberGroupReference then .ok localState
  else match localState.nodes.lookup host.id with
    | none => .error .nullPointer
    | some self => do
        let self ← setOptions joinBody.localNodeOptions
          (setQuorums joinBody.membershipQuorum joinBody.locationQuorum (self.update clock.now))
        return { localState with
          nodes := localState.nodes.insert host.id self
          membershipUpdateTimeMicros := clock.now }

def handle (host : Host) (clock : Clock) (localState : NodeGroupState) :
    Request → Except Failure NodeGroupState
  | .patch body quorum peersAccept => handlePatch host clock localState body quorum peersAccept
  | .insert id body => handleInsertPost host clock localState id body
  | .join body => handleJoinPost host clock localState body

/-- The state after a request: a failure leaves it. -/
def next (host : Host) (s : NodeGroupState) (e : Clock × Request) : NodeGroupState :=
  match handle host e.1 s e.2 with
  | .ok s' => s'
  | .error _ => s

/-- A step of a run. -/
def step (host : Host) (s : NodeGroupState) (e : Clock × Request) : Option NodeGroupState :=
  some (next host s e)

/-! ## What a request writes -/

section

variable {host : Host} {clock : Clock} {s s' : NodeGroupState}

/-- The own entry with the next version. -/
structure Updated (c c' : NodeState) : Prop where
  version : c'.documentVersion = c.documentVersion + 1
  groupReference : c'.groupReference = c.groupReference

/-- The entry of a peer with another quorum. -/
structure SameVersion (c c' : NodeState) : Prop where
  version : c'.documentVersion = c.documentVersion
  groupReference : c'.groupReference = c.groupReference

theorem handleUpdateQuorumPatch_spec {bd : UpdateQuorumRequest} {peersAccept : Bool}
    (h : handleUpdateQuorumPatch host clock s bd peersAccept = .ok s') :
    ∃ self self', s.nodes.lookup host.id = some self ∧ Updated self self' ∧
      s'.config = s.config ∧ ∃ f, (∀ c, SameVersion c (f c)) ∧
        ∀ id, s'.nodes.lookup id = ((s.nodes.insert host.id self').lookup id).map f := by
  unfold handleUpdateQuorumPatch at h
  split at h
  · cases h
  · rename_i self hself
    have hupdated : ∀ q q', Updated self ((setQuorums q q' self).update clock.now) :=
      fun q q' => ⟨rfl, rfl⟩
    dsimp only at h
    split_ifs at h with hfail hgroup <;> cases h
    · refine ⟨self, _, hself, hupdated _ _, rfl, _, fun c => ?_, Nodes.lookup_mapValues _ _⟩
      split_ifs <;> exact ⟨rfl, rfl⟩
    · exact ⟨self, _, hself, hupdated (bd.membershipQuorum.map (max 1))
        (bd.locationQuorum.map (max 1)), rfl, id, fun c => ⟨rfl, rfl⟩, by simp⟩

theorem handlePatch_spec {body : NodeGroupState} {quorum : Option UpdateQuorumRequest}
    {peersAccept : Bool} (h : handlePatch host clock s body quorum peersAccept = .ok s') :
    (s'.nodes = s.nodes ∧ s'.config.isSome) ∨
      (∃ bd, handleUpdateQuorumPatch host clock s bd peersAccept = .ok s') ∨
        ∃ s₁ self, mergeRemoteAndLocalMembership host.id clock s body = .ok s₁ ∧
          s₁.nodes.lookup host.id = some self ∧ s'.config = s₁.config ∧
            s'.nodes =
              s₁.nodes.insert host.id { self with groupReference := some host.publicUri } := by
  unfold handlePatch at h
  split_ifs at h
  · split at h
    · cases h
      exact Or.inl ⟨rfl, rfl⟩
    · exact Or.inr (Or.inl ⟨_, h⟩)
    · cases h
  · obtain ⟨s₁, hs₁, h⟩ := bind_eq_ok.mp h
    split at h
    · cases h
    · rename_i self hself
      cases h
      exact Or.inr (Or.inr ⟨s₁, self, hs₁, hself, rfl, rfl⟩)

theorem handleInsertPost_spec {id : Option String} {body : NodeState}
    (h : handleInsertPost host clock s id body = .ok s') :
    ∃ key entry, id = some key ∧ s'.nodes = s.nodes.insert key entry ∧ s'.config = s.config ∧
      entry.documentVersion = body.documentVersion ∧ entry.groupReference.isSome := by
  unfold handleInsertPost at h
  split at h
  · cases h
  · rename_i key
    split_ifs at h with hgroup hlocal <;> cases h
    · exact ⟨key, _, rfl, rfl, rfl, rfl, rfl⟩
    · exact ⟨key, _, rfl, rfl, rfl, rfl, Option.isSome_iff_ne_none.mpr hgroup⟩

theorem handleJoinPost_spec {joinBody : JoinPeerRequest}
    (h : handleJoinPost host clock s joinBody = .ok s') :
    s' = s ∨ ∃ self self', s.nodes.lookup host.id = some self ∧ Updated self self' ∧
      s'.config = s.config ∧ s'.nodes = s.nodes.insert host.id self' := by
  unfold handleJoinPost at h
  split_ifs at h
  · cases h
    exact Or.inl rfl
  · split at h
    · cases h
    · rename_i self hself
      obtain ⟨self', hoptions, h⟩ := bind_eq_ok.mp h
      cases h
      refine Or.inr ⟨self, self', hself, ?_, rfl, rfl⟩
      unfold setOptions at hoptions
      split at hoptions
      · cases hoptions
        exact ⟨rfl, rfl⟩
      · obtain ⟨_, -, hoptions⟩ := bind_eq_ok.mp hoptions
        cases hoptions
        exact ⟨rfl, rfl⟩

end

end Xenon.NodeGroup
