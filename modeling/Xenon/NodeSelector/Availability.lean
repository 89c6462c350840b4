import Xenon.NodeSelector.Agreement

/-!
# Selection on an available group

`NodeSelectorState.updateStatus` lets requests through once the membership has settled and as many
nodes as the quorum asks for are `AVAILABLE`. It counts the observers among them, and `selectNodes`
does not select any: where the two disagree about every node the map of the closest nodes is empty,
and its first entry is missing.
-/

namespace Xenon.NodeSelector

open Xenon.Common Xenon.Foundation Xenon.NodeGroup

/-! ## The code -/

/-- `NodeSelectorState.Status`. -/
inductive Status where
  | unavailable
  | paused
  | available
deriving DecidableEq

/-- `NodeSelectorState`, as far as its status and the selection go. -/
structure NodeSelectorState where
  replicationFactor : Option Int32
  status : Status
deriving DecidableEq

/-- What the host and the configuration of the group say about settling. -/
structure Settling where
  hostId : String
  maintenanceIntervalMicros : Int64
  /-- A field of the configuration. -/
  stableGroupMaintenanceIntervalCount : NodeGroupConfig → Int64
  /-- `Utils.getSystemNowMicrosUtc`. -/
  systemNow : Int64

section Code

variable (host : Settling)

/-- `NodeGroupUtils.isMembershipSettled`. -/
def isMembershipSettled (localState : NodeGroupState) : Except Failure Bool :=
  match localState.nodes.lookup host.hostId with
  | none => .ok false
  | some selfNode =>
      -- single, stand-alone node, skip update time check
      if localState.nodes.entries.length = 1 ∧ selfNode.membershipQuorum = 1 then .ok true
      else
        match localState.config with
        | none => .error .nullPointer
        | some config =>
            let threshold := localState.localMembershipUpdateTimeMicros +
              host.stableGroupMaintenanceIntervalCount config * host.maintenanceIntervalMicros
            .ok (0 ≤ host.systemNow - threshold)

/-- How many nodes `hasMembershipQuorum` counts. -/
def availableNodeCount (ngs : NodeGroupState) : Nat :=
  if ngs.nodes.entries.length = 1 then 1
  else (ngs.nodes.values.filter fun ns => ns.status = .available).length

/-- `NodeGroupUtils.hasMembershipQuorum`. -/
def hasMembershipQuorum (ngs : NodeGroupState) : Bool :=
  match ngs.nodes.lookup host.hostId with
  | none => false
  | some selfNode => selfNode.membershipQuorum.toInt ≤ availableNodeCount ngs

/-- `NodeGroupUtils.isNodeGroupAvailable`. -/
def isNodeGroupAvailable (localState : NodeGroupState) : Except Failure Bool := do
  -- low overhead, does not walk all nodes in the group
  if ← isMembershipSettled host localState then
    return hasMembershipQuorum host localState
  else
    return false

def calculateStatus (groupState : NodeGroupState) : Except Failure Status := do
  if ← isNodeGroupAvailable host groupState then
    return .available
  else
    return .unavailable

def updateStatus (groupState : NodeGroupState) (ns : NodeSelectorState) :
    Except Failure NodeSelectorState := do
  return { ns with status := ← calculateStatus host groupState }

end Code

/-- The selector that the node selector service of the host is. -/
def NodeSelectorState.selector (ns : NodeSelectorState) (hostId : String)
    (hash : String → Int64) : Selector where
  hostId := hostId
  hash := hash
  replicationFactor := ns.replicationFactor

/-! ## What the status says -/

section Available

variable {host : Settling} {s : NodeGroupState} {ns ns' : NodeSelectorState}

theorem isNodeGroupAvailable_spec (h : isNodeGroupAvailable host s = .ok true) :
    ∃ self, s.nodes.lookup host.hostId = some self ∧
      self.membershipQuorum.toInt ≤ availableNodeCount s := by
  unfold isNodeGroupAvailable at h
  cases hsettled : isMembershipSettled host s with
  | error e =>
      rw [hsettled] at h
      cases h
  | ok settled =>
      rw [hsettled] at h
      cases settled with
      | false => cases h
      | true =>
          have hquorum : hasMembershipQuorum host s = true := Except.ok.inj h
          unfold hasMembershipQuorum at hquorum
          cases hself : s.nodes.lookup host.hostId with
          | none =>
              rw [hself] at hquorum
              cases hquorum
          | some self =>
              rw [hself] at hquorum
              exact ⟨self, rfl, of_decide_eq_true hquorum⟩

/-- The status is available only if the host is in its group, with a quorum. -/
theorem updateStatus_spec (h : updateStatus host s ns = .ok ns') :
    ns'.replicationFactor = ns.replicationFactor ∧ (ns'.status = .available →
      ∃ self, s.nodes.lookup host.hostId = some self ∧
        self.membershipQuorum.toInt ≤ availableNodeCount s) := by
  unfold updateStatus calculateStatus at h
  cases havailable : isNodeGroupAvailable host s with
  | error e =>
      rw [havailable] at h
      cases h
  | ok available =>
      rw [havailable] at h
      cases available with
      | false =>
          cases h
          exact ⟨rfl, fun h => by cases h⟩
      | true =>
          cases h
          exact ⟨rfl, fun _ => isNodeGroupAvailable_spec havailable⟩

end Available

/-- Some node is neither unavailable nor an observer, and the replication factor has room for it;
a single node is always selected. -/
def HasCandidate (ns : NodeSelectorState) (nodes : Nodes) : Prop :=
  nodes.entries.length = 1 ∨
    ((∀ factor ∈ ns.replicationFactor, 1 ≤ factor.toInt) ∧
      ∃ m ∈ nodes.values, m.status ≠ .unavailable ∧ m.status ≠ .replaced ∧ .observer ∉ m.options)

section Candidates

variable {ns : NodeSelectorState} {nodes : Nodes}

theorem availableNodes_ne_nil_iff : availableNodes nodes ≠ [] ↔
    ∃ m ∈ nodes.values, m.status ≠ .unavailable ∧ m.status ≠ .replaced ∧ .observer ∉ m.options := by
  have hfilter : ∀ m : NodeState, (!isUnAvailable m) = true ↔
      m.status ≠ .unavailable ∧ m.status ≠ .replaced ∧ .observer ∉ m.options := by
    intro m
    simp [isUnAvailable, NodeState.isUnAvailable, and_assoc]
  constructor
  · intro hne
    obtain ⟨m, hm⟩ := List.exists_mem_of_ne_nil _ hne
    obtain ⟨hmem, havailable⟩ := List.mem_filter.mp hm
    exact ⟨m, hmem, (hfilter m).mp havailable⟩
  · rintro ⟨m, hmem, havailable⟩
    exact List.ne_nil_of_mem (List.mem_filter.mpr ⟨hmem, (hfilter m).mpr havailable⟩)

theorem one_le_neighbourCount_iff (hostId : String) (hash : String → Int64) :
    1 ≤ (ns.selector hostId hash).neighbourCount.toInt ↔
      ∀ factor ∈ ns.replicationFactor, 1 ≤ factor.toInt := by
  unfold Selector.neighbourCount NodeSelectorState.selector
  cases ns.replicationFactor with
  | none => simp
  | some factor => simp

end Candidates

/-- **Selection on an available group.** Where the status of a node selector is available, a node is
found for every key exactly if the group `HasCandidate`. -/
theorem selection_succeeds_iff (host : Settling) (hash : String → Int64) (s : NodeGroupState)
    (ns ns' : NodeSelectorState) (hstatus : updateStatus host s ns = .ok ns')
    (havailable : ns'.status = .available) :
    (∀ key, ∃ r, (ns'.selector host.hostId hash).selectNodes key s = .ok r) ↔
      HasCandidate ns s.nodes := by
  obtain ⟨hfactor, hself⟩ := updateStatus_spec hstatus
  obtain ⟨self, hlookup, -⟩ := hself havailable
  unfold HasCandidate
  by_cases hsize : s.nodes.entries.length = 1
  · refine iff_of_true (fun key => ?_) (Or.inl hsize)
    unfold Selector.selectNodes
    rw [if_pos hsize]
    show ∃ r, (match s.nodes.lookup host.hostId with | none => _ | some self => _) = Except.ok r
    rw [hlookup]
    exact ⟨_, rfl⟩
  · rw [or_iff_right hsize, ← availableNodes_ne_nil_iff, ← hfactor,
      ← one_le_neighbourCount_iff host.hostId hash]
    constructor
    · exact fun h => (selectNodes_isOk_iff "" hsize).mp (h "")
    · exact fun h key => (selectNodes_isOk_iff key hsize).mpr h

/-! ## A group of two -/

/-- The host `a`, long after the last change. -/
def Settling.longAgo : Settling where
  hostId := "a"
  maintenanceIntervalMicros := 1
  stableGroupMaintenanceIntervalCount := fun _ => 5
  systemNow := 10

/-- Two nodes that are up, with the options given. -/
def groupOfTwo (options : Finset NodeOption) : NodeGroupState :=
  { groupOf "a" "b" (by decide) with
    config := some .default
    nodes := ⟨[⟨"a", { peer "a" with options := options }⟩,
      ⟨"b", { peer "b" with options := options }⟩], by simp [List.NodupKeys, List.keys]⟩ }

theorem selection_succeeds_peers :
    updateStatus .longAgo (groupOfTwo {.peer}) ⟨none, .unavailable⟩ = .ok ⟨none, .available⟩ ∧
      ∃ r, ((⟨none, .available⟩ : NodeSelectorState).selector "a" fun _ => 0).selectNodes "k"
        (groupOfTwo {.peer}) = .ok r := by
  have hcandidate : HasCandidate ⟨none, .unavailable⟩ (groupOfTwo {.peer}).nodes := by
    refine Or.inr ⟨by simp, { peer "a" with options := {.peer} }, ?_, ?_⟩
    · decide
    · decide
  exact ⟨rfl, (selection_succeeds_iff .longAgo (fun _ => 0) (groupOfTwo {NodeOption.peer})
    ⟨none, .unavailable⟩ ⟨none, .available⟩ rfl rfl).mpr hcandidate "k"⟩

/-- Two observers are a group with a quorum, and none of them is a closest node. -/
theorem observers_have_no_owner : ¬ ∀ (host : Settling) (hash : String → Int64) (s : NodeGroupState)
    (ns ns' : NodeSelectorState), updateStatus host s ns = .ok ns' → ns'.status = .available →
      ∀ key, ∃ r, (ns'.selector host.hostId hash).selectNodes key s = .ok r := by
  intro h
  obtain ⟨r, hr⟩ := h .longAgo (fun _ => 0) (groupOfTwo {.observer}) ⟨none, .unavailable⟩
    ⟨none, .available⟩ rfl rfl "k"
  cases hr

end Xenon.NodeSelector
