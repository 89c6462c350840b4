import Mathlib.Algebra.Group.Int.Defs
import Mathlib.Data.Finset.Basic
import Mathlib.Data.List.AList

/-!
# The state of a node group

`NodeGroupState` holds an entry for every node that the group knows of. A node changes its own
entry, learns the entries of others from the bodies of gossip requests, and hands its own view on.
-/

namespace Xenon.NodeGroup

/-! ## Nodes -/

inductive NodeStatus where
  | unknown
  | unavailable
  | available
  | synchronizing
  | replaced
deriving DecidableEq

inductive NodeOption where
  | peer
  | observer
deriving DecidableEq

/-- `NodeState`. The version and the times are those of the document that it is. -/
structure NodeState where
  id : String
  groupReference : Option String
  status : NodeStatus
  options : Finset NodeOption
  membershipQuorum : Int32
  locationQuorum : Int32
  documentVersion : Int64
  documentUpdateTimeMicros : Int64
  documentExpirationTimeMicros : Int64
deriving DecidableEq

/-- `isUnAvailable(ns, null)`. -/
def NodeState.isUnAvailable (ns : NodeState) : Bool :=
  ns.status = .unavailable || ns.status = .replaced

/-- `isAvailable(m, hostId, true)`. -/
def NodeState.isAvailable (m : NodeState) (hostId : String) : Bool :=
  m.status = .available && m.id ≠ hostId

/-- A map of nodes. An entry need not be under its own id. -/
abbrev Nodes := AList fun _ : String => NodeState

def Nodes.values (nodes : Nodes) : List NodeState := nodes.entries.map Sigma.snd

/-- Every entry is under its id. -/
def Nodes.Keyed (nodes : Nodes) : Prop := ∀ key c, nodes.lookup key = some c → c.id = key

section Values

variable {nodes : Nodes} {c : NodeState}

theorem mem_values (hkeyed : nodes.Keyed) : c ∈ nodes.values ↔ nodes.lookup c.id = some c := by
  unfold Nodes.values
  rw [List.mem_map]
  constructor
  · rintro ⟨⟨key, c'⟩, hmem, rfl⟩
    have hlookup : nodes.lookup key = some c' := AList.mem_lookup_iff.mpr hmem
    show nodes.lookup c'.id = some c'
    rw [hkeyed key c' hlookup, hlookup]
  · exact fun h => ⟨⟨c.id, c⟩, AList.mem_lookup_iff.mp h, rfl⟩

theorem nodup_ids (hkeyed : nodes.Keyed) : (nodes.values.map NodeState.id).Nodup := by
  have hids : nodes.values.map NodeState.id = nodes.entries.map Sigma.fst := by
    unfold Nodes.values
    rw [List.map_map]
    refine List.map_congr_left fun p hp => ?_
    exact hkeyed p.1 p.2 (AList.mem_lookup_iff.mpr hp)
  rw [hids]
  exact nodes.keys_nodup

theorem length_values (nodes : Nodes) : nodes.values.length = nodes.entries.length :=
  List.length_map _

end Values

/-! ## The group -/

inductive NodeGroupChange where
  | selfChange
  | quorumChanged
  | peerAdded
  | peerStatusChange
  | peerUnavailable
  | peerExpired
deriving DecidableEq

structure NodeGroupConfig where
  nodeRemovalDelayMicros : Int64
deriving DecidableEq

/-- `DEFAULT_NODE_REMOVAL_DELAY_MICROS`, five minutes. -/
def NodeGroupConfig.default : NodeGroupConfig := ⟨300000000⟩

/-- `NodeGroupState`, of which a body may lack the owner and the configuration. -/
structure NodeGroupState where
  documentOwner : Option String
  config : Option NodeGroupConfig
  nodes : Nodes
  lastChanges : Finset NodeGroupChange
  membershipUpdateTimeMicros : Int64
  localMembershipUpdateTimeMicros : Int64

/-- How a request is refused, or the exception that is thrown. -/
inductive Failure where
  | illegalArgument (message : String)
  | illegalState (message : String)
  | nullPointer
deriving DecidableEq

/-- The host of a node group, as far as it is asked. -/
structure Host where
  id : String
  /-- `getPublicUri`. -/
  publicUri : String
  /-- The settings for the quorums; zero is none. -/
  membershipQuorum : Int32
  locationQuorum : Int32
  initialPeerHosts : Nat
  /-- `isHostEqual`. -/
  isHostEqual : String → Bool

/-- The clocks: `Utils.getNowMicrosUtc` for the request, and `Utils.getSystemNowMicrosUtc` when an
entry is merged. -/
structure Clock where
  now : Int64
  systemNow : NodeState → Int64

end Xenon.NodeGroup
