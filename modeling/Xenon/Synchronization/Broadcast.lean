import Xenon.Common.Signature
import Xenon.Foundation.FanOut
import Xenon.Synchronization.Service

/-!
# The broadcast of the best state

`broadcastBestState` is a fan-out over the peers: those that have the best state
already complete their request in the loop, the others are sent to, and the
synchronization request is completed when all are accounted for. What the loop
throws fails the request at once.
-/

namespace Xenon.Synchronization

open Xenon.Common Xenon.Foundation

variable {β : Type*}

/-! ## The code -/

/-- An entry of `peerStates`, or one of the peers that did not respond. -/
inductive Peer (β : Type*) where
  | responding (peer : URI) (peerState : ServiceDocument β)
  | nonResponding (peer : URI)
deriving DecidableEq

def Peer.uri : Peer β → URI
  | .responding peer _ => peer
  | .nonResponding peer => peer

/-- What can throw: the signature of a state under the description of the request,
the preparation of a request and the sending of it. -/
structure Throwing (β : Type*) where
  signature : ServiceDocument β → Except Thrown String
  prepare : URI → Except Thrown Unit
  send : URI → Except Thrown Unit

section Code

variable (calls : Throwing β) (timeEpsilon : Int64) (best : ServiceDocument β)

/-- The peer has the best state. -/
def hasBestState (peerState : ServiceDocument β) : Except Thrown Bool := do
  let results ← ServiceDocument.tryCompare calls.signature best (some peerState) timeEpsilon
  if .equalVersion ∈ results ∧ best.className = peerState.className then
    ServiceDocument.equals calls.signature best peerState
  else
    return false

def isUpToDate : Peer β → Except Thrown Bool
  | .responding _ peerState => hasBestState calls timeEpsilon best peerState
  | .nonResponding _ => .ok false

/-- One round of the loops: whether the request is sent, or else completed. -/
def broadcastTo (peer : Peer β) : Except Thrown Bool := do
  calls.prepare peer.uri
  if ← isUpToDate calls timeEpsilon best peer then
    return false
  else
    calls.send peer.uri
    return true

def issueOf : Except Thrown Bool → Issue
  | .ok true => .send
  | .ok false => .inline
  | .error _ => .throw

/-- The answers do not matter; an error is logged only. -/
def broadcast : FanOut (Peer β) Unit Bool where
  issue := fun peer => issueOf (broadcastTo calls timeEpsilon best peer)
  deliver := fun _ _ => ()
  answer := fun _ _ _ => some ()

/-- `broadcastBestState`: without peers the request is completed right away. -/
def startBroadcast (peers : List (Peer β)) :
    Pool (FanOut.State (Peer β) Unit) (FanOut.Task (Peer β)) :=
  match peers with
  | [] => ⟨⟨0, (), [], [], [.counted ()]⟩, []⟩
  | peers => FanOut.start peers ()

end Code

/-! ## The peers that diverge -/

section Diverges

variable (calls : Throwing β) (best : ServiceDocument β)

def sameSignature (peerState : ServiceDocument β) : Bool :=
  match ServiceDocument.equals calls.signature best peerState with
  | .ok same => same
  | .error _ => false

/-- The states are of one class and have one signature. -/
def sameContent (peerState : ServiceDocument β) : Bool :=
  best.className = peerState.className && sameSignature calls best peerState

/-- The peer did not respond, or its state differs in epoch, version or content. -/
def diverges : Peer β → Bool
  | .responding _ peerState =>
      !(best.epoch = peerState.epoch && best.documentVersion = peerState.documentVersion &&
        sameContent calls best peerState)
  | .nonResponding _ => true

variable {calls best} {timeEpsilon : Int64} {peer : Peer β} {sent : Bool}

theorem hasBestState_spec {peerState : ServiceDocument β} {same : Bool}
    (h : hasBestState calls timeEpsilon best peerState = .ok same) :
    same = (best.epoch = peerState.epoch && best.documentVersion = peerState.documentVersion &&
      sameContent calls best peerState) := by
  obtain ⟨results, hresults, h⟩ := bind_eq_ok.mp h
  obtain ⟨_, rfl, -⟩ := ServiceDocument.tryCompare_spec hresults
  simp only [ServiceDocument.equalVersion_mem_compare, ServiceDocument.stamp_eq_iff] at h
  split_ifs at h with hequal
  · obtain ⟨⟨hepoch, hversion⟩, hclass⟩ := hequal
    simp [sameContent, sameSignature, hepoch, hversion, hclass, h]
  · cases h
    rw [not_and] at hequal
    by_cases hstamp : best.epoch = peerState.epoch ∧
        best.documentVersion = peerState.documentVersion
    · simp [sameContent, hequal hstamp]
    · by_cases hepoch : best.epoch = peerState.epoch
      · have hversion : ¬ best.documentVersion = peerState.documentVersion :=
          fun h => hstamp ⟨hepoch, h⟩
        simp [hversion]
      · simp [hepoch]

/-- A round that does not throw sends to the peer exactly if it diverges. -/
theorem broadcastTo_spec (h : broadcastTo calls timeEpsilon best peer = .ok sent) :
    sent = diverges calls best peer := by
  obtain ⟨_, -, h⟩ := bind_eq_ok.mp h
  obtain ⟨same, hsame, h⟩ := bind_eq_ok.mp h
  have hdiverges : diverges calls best peer = !same := by
    cases peer with
    | responding uri peerState =>
        unfold diverges
        rw [hasBestState_spec hsame]
    | nonResponding uri =>
        cases hsame
        rfl
  rw [hdiverges]
  split_ifs at h with hbest
  · cases h
    rw [hbest]
    rfl
  · obtain ⟨_, -, h⟩ := bind_eq_ok.mp h
    cases h
    rw [Bool.eq_false_of_not_eq_true hbest]
    rfl

theorem diverges_of_send (h : (broadcast calls timeEpsilon best).issue peer = .send) :
    diverges calls best peer = true := by
  cases hround : broadcastTo calls timeEpsilon best peer with
  | error e =>
      simp only [broadcast, hround] at h
      cases h
  | ok sent =>
      simp only [broadcast, hround] at h
      cases sent with
      | true => exact (broadcastTo_spec hround).symm
      | false => cases h

theorem issue_eq_throw_iff : (broadcast calls timeEpsilon best).issue peer = .throw ↔
    ∃ e, broadcastTo calls timeEpsilon best peer = .error e := by
  unfold broadcast
  dsimp only
  cases hround : broadcastTo calls timeEpsilon best peer with
  | error e => exact iff_of_true rfl ⟨e, rfl⟩
  | ok sent => cases sent <;> simp [issueOf]

/-- Where nothing throws, the peers to send to are those that diverge. -/
theorem filter_send {peers : List (Peer β)}
    (h : ∀ peer ∈ peers, (broadcast calls timeEpsilon best).issue peer ≠ .throw) :
    peers.filter (fun peer => (broadcast calls timeEpsilon best).issue peer = .send) =
      peers.filter (diverges calls best) := by
  refine List.filter_congr fun peer hpeer => ?_
  cases hround : broadcastTo calls timeEpsilon best peer with
  | error e => exact absurd (issue_eq_throw_iff.mpr ⟨e, hround⟩) (h peer hpeer)
  | ok sent =>
      have hissue : (broadcast calls timeEpsilon best).issue peer = issueOf (.ok sent) :=
        congrArg issueOf hround
      rw [← broadcastTo_spec hround, hissue]
      cases sent <;> rfl

end Diverges

/-! ## The requests that are sent -/

section Posts

variable (env : Env β) (request : SynchronizePeersRequest β) (calls : Throwing β)

/-- The peers that the completion of the broadcast GET finds. -/
def peersOf [Inhabited β] (rsp : BroadcastResponse β) : List (Peer β) :=
  let states := peerStates request rsp.jsonResponses
  states.map (fun p => .responding p.1 p.2) ++
    (rsp.receivers.filter fun u => u ∉ states.map Prod.fst).map .nonResponding

variable {env calls}

theorem diverges_eq_not_isSynchronized (hequals : ∀ a b, env.equals a b = sameSignature calls a b)
    (peer : URI) (best peerState : ServiceDocument β) :
    diverges calls best (.responding peer peerState) = !isSynchronized env best peerState := by
  unfold isSynchronized
  rw [hequals]
  simp [diverges, sameContent, ServiceDocument.equalVersion_mem_compare,
    ServiceDocument.stamp_eq_iff, Bool.and_assoc]

/-- The peers that diverge are those that `broadcastBestState` makes requests for. -/
theorem posts_eq_broadcastBestState [Inhabited β]
    (hequals : ∀ a b, env.equals a b = sameSignature calls a b) (rsp : BroadcastResponse β)
    (best : ServiceDocument β) (version : Option Int64) :
    ((peersOf request rsp).filter (diverges calls best)).map
        (fun peer => prepareSynchPostRequest request best version peer.uri) =
      broadcastBestState env request rsp best version := by
  have hnonResponding : ∀ us : List URI, (us.map Peer.nonResponding).filter (diverges calls best) =
      us.map .nonResponding := by
    intro us
    apply List.filter_eq_self.mpr
    intro peer hpeer
    obtain ⟨u, -, rfl⟩ := List.mem_map.mp hpeer
    rfl
  unfold broadcastBestState peersOf
  simp only [List.filter_append, List.map_append, hnonResponding, List.filter_map, List.map_map,
    Function.comp_def, diverges_eq_not_isSynchronized hequals]
  rfl

end Posts

/-! ## Runs -/

section Runs

variable {calls : Throwing β} {timeEpsilon : Int64} {best : ServiceDocument β}
  {peers : List (Peer β)} {p : Pool (FanOut.State (Peer β) Unit) (FanOut.Task (Peer β))}

/-- A broadcast without peers is over from the start. -/
theorem eq_of_no_peers
    (h : (broadcast calls timeEpsilon best).machine.Reaches (fun _ _ _ => True)
      (startBroadcast []) p) : p = startBroadcast [] := by
  have hinv := Machine.invariant
    (fun s ts => s = (startBroadcast ([] : List (Peer β))).shared ∧ ts = []) h ?_ ⟨rfl, rfl⟩
    (fun i => nomatch i) ?_
  · obtain ⟨s, ts⟩ := p
    obtain ⟨rfl, rfl⟩ := hinv
    rfl
  · rintro s ts ts' hperm ⟨rfl, rfl⟩
    exact ⟨rfl, hperm.nil_eq.symm⟩
  · rintro s t ts k r - - ⟨-, hts⟩
    cases hts

/-- A state of version 3. -/
def versionThree : ServiceDocument Unit := { documentVersion := 3, body := () }

/-- Every signature is the same. -/
def Throwing.never : Throwing Unit := ⟨fun _ => .ok "", fun _ => .ok (), fun _ => .ok ()⟩

/-- The request has no description. -/
def Throwing.noDescription : Throwing Unit :=
  { Throwing.never with signature := computeSignature (fun _ _ => .ok 0) (none : Option
      (List (PropertyDescription Unit Unit))) }

def peerUri (host : String) : URI := buildServiceUri "http" host 8000 "" none

/-- One peer has the best state, one has not responded. -/
def twoPeers : List (Peer Unit) := [.responding (peerUri "a") versionThree, .nonResponding (peerUri "b")]

end Runs

end Xenon.Synchronization
