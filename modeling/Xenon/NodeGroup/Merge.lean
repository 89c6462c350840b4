import Mathlib.Data.Finset.Insert
import Xenon.Foundation.Run
import Xenon.NodeGroup.State

/-!
# Merging a view of the group

`mergeRemoteAndLocalMembership`: for every entry of the body there is one pass of the loop, which
adds it, takes it in place of the local one, or leaves the local one; then entries of nodes that
are gone, and whose time is over, are removed.
-/

namespace Xenon.NodeGroup

open Xenon.Foundation

/-! ## An entry for which there is a local one -/

section

variable (current remote : NodeState)

/-- The entries differ in what is news: `needsUpdate`. -/
def differs : Bool :=
  current.status ≠ remote.status || current.membershipQuorum ≠ remote.membershipQuorum

/-- The changes that the difference is noted as. -/
def noted : Finset NodeGroupChange :=
  (if current.status = remote.status then ∅
    else if current.status = .available ∧ remote.status = .unavailable then {.peerUnavailable}
    else if current.documentVersion ≤ remote.documentVersion then {.peerStatusChange} else ∅) ∪
  if current.membershipQuorum = remote.membershipQuorum then ∅ else {.quorumChanged}

/-- The remote entry is older: it has a smaller version, or with the same version other contents
and a smaller time. -/
def stale : Bool :=
  remote.documentVersion < current.documentVersion ||
    remote.documentVersion = current.documentVersion && differs current remote &&
      remote.documentUpdateTimeMicros < current.documentUpdateTimeMicros

/-- The node is not available, and neither side has a time for its removal. -/
def lacksExpiration : Bool :=
  remote.status = .unavailable && current.documentExpirationTimeMicros = 0 &&
    remote.documentExpirationTimeMicros = 0

/-- Nodes increment their own entry version, except if they are unavailable. -/
def bumps : Bool :=
  remote.status = .unavailable && current.status = .unavailable &&
    (differs current remote || lacksExpiration current remote)

/-- What is taken in place of the local entry. -/
def taken (expiration : Int64) : NodeState :=
  { remote with
    documentExpirationTimeMicros :=
      if lacksExpiration current remote then expiration else remote.documentExpirationTimeMicros
    documentVersion :=
      if bumps current remote then remote.documentVersion + 1 else remote.documentVersion }

/-- A self patch with news moves the version of the own entry forward. -/
def ownUpdate (now : Int64) : NodeState :=
  { current with
    documentVersion := max remote.documentVersion current.documentVersion + 1
    documentUpdateTimeMicros := max remote.documentUpdateTimeMicros now
    status := remote.status
    options := remote.options }

end

/-! ## The loop -/

/-- What the loop works on. An entry of the body is changed before it is taken, and the loop that
removes entries looks at the body again. -/
structure Merging where
  nodes : Nodes
  remoteNodes : Nodes
  changes : Finset NodeGroupChange

def Merging.put (m : Merging) (entry : NodeState) (changes : Finset NodeGroupChange) : Merging :=
  { m with nodes := m.nodes.insert entry.id entry, changes := m.changes ∪ changes }

/-- What a merge reads besides its two states. -/
structure Merge where
  host : String
  config : Option NodeGroupConfig
  isSelfPatch : Bool
  /-- That of the own entry, before the loop. -/
  groupReference : Option String
  clock : Clock

namespace Merge

variable (merge : Merge)

/-- A peer has an entry for the local node: only the version is looked at. -/
def ownEntry (m : Merging) (remote : NodeState) : Except Failure Merging :=
  match m.nodes.lookup merge.host with
  | none => .error .nullPointer
  | some current =>
      .ok (if remote.status ≠ current.status ∧ current.documentVersion < remote.documentVersion then
        { m with
          nodes := m.nodes.insert merge.host
            { current with
              documentVersion := remote.documentVersion
              documentUpdateTimeMicros := merge.clock.now }
          changes := m.changes ∪ {.selfChange} }
      else m)

/-- There is no local entry yet. -/
def newEntry (m : Merging) (remote : NodeState) : Except Failure Merging :=
  let hasExpired := 0 < remote.documentExpirationTimeMicros &&
    remote.documentExpirationTimeMicros < merge.clock.now
  if hasExpired || remote.isUnAvailable then .ok m
  else match merge.groupReference with
    | none => .error .nullPointer
    | some groupReference =>
        .ok (if some groupReference = remote.groupReference then
          { m with changes := m.changes ∪ {.selfChange} }
        else m.put remote {.peerAdded})

/-- The time for the removal of a node that is not available. -/
def expiration (remote : NodeState) : Int64 :=
  merge.clock.systemNow remote + (merge.config.map NodeGroupConfig.nodeRemovalDelayMicros).getD 0

/-- There is a local entry. -/
def currentEntry (m : Merging) (key : String) (current remote : NodeState) :
    Except Failure Merging :=
  let m := { m with changes := m.changes ∪ noted current remote }
  if merge.isSelfPatch && remote.id = merge.host && differs current remote then
    .ok { m with nodes := m.nodes.insert remote.id (ownUpdate current remote merge.clock.now) }
  else if stale current remote then .ok m
  else if lacksExpiration current remote && merge.config.isNone then .error .nullPointer
  else
    let entry := taken current remote (merge.expiration remote)
    .ok { m.put entry (if lacksExpiration current remote then {.peerUnavailable} else ∅) with
      remoteNodes := m.remoteNodes.insert key entry }

/-- One pass of the loop. -/
def entry (m : Merging) (key : String) (remote : NodeState) : Except Failure Merging :=
  if !merge.isSelfPatch && remote.id = merge.host then merge.ownEntry m remote
  else match m.nodes.lookup remote.id with
    | none => merge.newEntry m remote
    | some current => merge.currentEntry m key current remote

/-- The loop over the entries of the body. -/
def entries (m : Merging) : List (Sigma fun _ : String => NodeState) → Except Failure Merging
  | [] => .ok m
  | p :: ps => do entries (← merge.entry m p.1 p.2) ps

end Merge

/-! ## Removal -/

/-- The time for the removal of an entry, for which the body has another one or none. -/
def expirationMicros (l : NodeState) : Option NodeState → Int64
  | some r => max l.documentExpirationTimeMicros r.documentExpirationTimeMicros
  | none => l.documentExpirationTimeMicros

/-- An entry is removed: its node is not available, and its time is over. -/
def expires (host : String) (now : Int64) (l : NodeState) (r : Option NodeState) : Bool :=
  l.isUnAvailable && l.id ≠ host && 0 < expirationMicros l r && expirationMicros l r < now

/-- `missingNodes`. -/
def missingNodes (host : String) (now : Int64) (m : Merging) : List String :=
  (m.nodes.values.filter fun l => expires host now l (m.remoteNodes.lookup l.id)).map NodeState.id

def removeAll (nodes : Nodes) (ids : List String) : Nodes :=
  ids.foldl (fun nodes id => nodes.erase id) nodes

/-! ## The merge -/

/-- What the merge of a body into a state reads. -/
def mergeOf (host : String) (clock : Clock) (localState : NodeGroupState) (owner : String) :
    Merge :=
  ⟨host, localState.config, owner = host,
    (localState.nodes.lookup host).bind NodeState.groupReference, clock⟩

def mergeRemoteAndLocalMembership (host : String) (clock : Clock)
    (localState remotePeerState : NodeGroupState) : Except Failure NodeGroupState :=
  match remotePeerState.documentOwner with
  | none => .error .nullPointer
  | some owner => do
      let m ← (mergeOf host clock localState owner).entries
        ⟨localState.nodes, remotePeerState.nodes, ∅⟩ remotePeerState.nodes.entries
      let missing := missingNodes host clock.now m
      let changes := m.changes ∪ if missing.isEmpty then ∅ else {.peerExpired}
      let isModified := changes ≠ ∅
      return { localState with
        nodes := removeAll m.nodes missing
        lastChanges := changes
        membershipUpdateTimeMicros := max remotePeerState.membershipUpdateTimeMicros
          (if isModified then clock.now else localState.membershipUpdateTimeMicros)
        localMembershipUpdateTimeMicros :=
          if isModified then clock.now else localState.localMembershipUpdateTimeMicros }

/-! ## What a merge does to an entry -/

namespace Merge

variable (merge : Merge)

/-- A peer is not taken as new: it is gone, or it is at the address of the local node. -/
def skips (remote : NodeState) : Bool :=
  (0 < remote.documentExpirationTimeMicros &&
      remote.documentExpirationTimeMicros < merge.clock.now) || remote.isUnAvailable ||
    merge.groupReference = remote.groupReference

/-- What becomes of the local entry of a node when the loop is at the remote one. -/
def merged (current : Option NodeState) (remote : NodeState) : Option NodeState :=
  match current with
  | none => if merge.skips remote then none else some remote
  | some current =>
      some (if remote.id = merge.host && !merge.isSelfPatch then
        if remote.status ≠ current.status ∧ current.documentVersion < remote.documentVersion then
          { current with
            documentVersion := remote.documentVersion
            documentUpdateTimeMicros := merge.clock.now }
        else current
      else if merge.isSelfPatch && remote.id = merge.host && differs current remote then
        ownUpdate current remote merge.clock.now
      else if stale current remote then current
      else taken current remote (merge.expiration remote))

variable {merge} {m m' : Merging} {key : String} {remote : NodeState}

theorem lookup_ownEntry (hself : merge.isSelfPatch = false) (hhost : remote.id = merge.host)
    (h : merge.ownEntry m remote = .ok m') (id : String) :
    m'.nodes.lookup id = if id = remote.id then merge.merged (m.nodes.lookup id) remote
      else m.nodes.lookup id := by
  unfold ownEntry at h
  split at h
  · cases h
  · rename_i current hcurrent
    cases h
    by_cases hid : id = remote.id
    · subst hid
      rw [if_pos rfl, hhost, hcurrent]
      split_ifs with hnews <;> simp [merged, hself, hhost, hnews, hcurrent]
    · rw [if_neg hid]
      rw [hhost] at hid
      split_ifs <;> simp [hid]

theorem lookup_newEntry (hcurrent : m.nodes.lookup remote.id = none)
    (h : merge.newEntry m remote = .ok m') (id : String) :
    m'.nodes.lookup id = if id = remote.id then merge.merged (m.nodes.lookup id) remote
      else m.nodes.lookup id := by
  unfold newEntry at h
  dsimp only at h
  split_ifs at h with hgone
  · cases h
    split_ifs with hid
    · subst hid
      simp [hcurrent, merged, skips, hgone]
    · rfl
  · split at h
    · cases h
    · rename_i groupReference hself
      cases h
      by_cases hid : id = remote.id
      · subst hid
        rw [if_pos rfl, hcurrent]
        split_ifs with hsame
        · simp [hcurrent, merged, skips, hself, hsame]
        · simp [merged, skips, hself, hsame, hgone, Merging.put]
      · rw [if_neg hid]
        split_ifs <;> simp [Merging.put, hid]

theorem lookup_currentEntry {current : NodeState}
    (hother : (decide (remote.id = merge.host) && !merge.isSelfPatch) = false)
    (hcurrent : m.nodes.lookup remote.id = some current)
    (h : merge.currentEntry m key current remote = .ok m') (id : String) :
    m'.nodes.lookup id = if id = remote.id then merge.merged (m.nodes.lookup id) remote
      else m.nodes.lookup id := by
  have hkey : (taken current remote (merge.expiration remote)).id = remote.id := rfl
  unfold currentEntry at h
  dsimp only at h
  by_cases hid : id = remote.id
  · subst hid
    rw [if_pos rfl, hcurrent]
    unfold merged
    rw [hother]
    split_ifs at h with hnews hstale <;> cases h
    · simp [hnews]
    · simp [hnews, hstale, hcurrent]
    all_goals simp [hnews, hstale, Merging.put, hkey]
  · rw [if_neg hid]
    split_ifs at h <;> cases h <;> simp [Merging.put, hkey, hid]

/-- One pass changes the entry of one node. -/
theorem lookup_entry (h : merge.entry m key remote = .ok m') (id : String) :
    m'.nodes.lookup id = if id = remote.id then merge.merged (m.nodes.lookup id) remote
      else m.nodes.lookup id := by
  unfold entry at h
  split_ifs at h with hown
  · obtain ⟨hself, hhost⟩ : merge.isSelfPatch = false ∧ remote.id = merge.host := by
      simpa using hown
    exact lookup_ownEntry hself hhost h id
  · split at h
    · exact lookup_newEntry (by assumption) h id
    · refine lookup_currentEntry ?_ (by assumption) h id
      simpa [Bool.and_comm] using hown

/-- What each pass keeps holds after the loop. -/
theorem entries_invariant (P : Merging → Prop) {ps : List (Sigma fun _ : String => NodeState)}
    (hpass : ∀ p ∈ ps, ∀ {m m'}, merge.entry m p.1 p.2 = .ok m' → P m → P m')
    (h : merge.entries m ps = .ok m') (hm : P m) : P m' := by
  induction ps generalizing m with
  | nil =>
      cases h
      exact hm
  | cons p ps ih =>
      obtain ⟨m₁, hp, h⟩ := bind_eq_ok.mp h
      exact ih (fun q hq => hpass q (List.mem_cons_of_mem _ hq)) h (hpass p List.mem_cons_self hp hm)

theorem merged_isSome {current : Option NodeState} (h : current.isSome) :
    (merge.merged current remote).isSome := by
  obtain ⟨c, rfl⟩ := Option.isSome_iff_exists.mp h
  rfl

end Merge

/-! ## Removed entries -/

theorem lookup_removeAll (nodes : Nodes) (ids : List String) (id : String) :
    (removeAll nodes ids).lookup id = if id ∈ ids then none else nodes.lookup id := by
  induction ids generalizing nodes with
  | nil => simp [removeAll]
  | cons id' ids ih =>
      show (removeAll (nodes.erase id') ids).lookup id = _
      rw [ih]
      by_cases hid : id = id'
      · subst hid
        simp
      · simp [hid]

theorem host_not_mem_missingNodes (host : String) (now : Int64) (m : Merging) :
    host ∉ missingNodes host now m := by
  intro h
  obtain ⟨l, hl, hid⟩ := List.mem_map.mp h
  have hexpires := (List.mem_filter.mp hl).2
  simp [expires, hid] at hexpires

/-! ## The result of a merge -/

/-- The loop returns if the own entry has its address and there is a configuration. -/
theorem Merge.entries_ok {merge : Merge} (hconfig : merge.config.isSome)
    (hself : merge.groupReference.isSome)
    (ps : List (Sigma fun _ : String => NodeState)) :
    ∀ m : Merging, (m.nodes.lookup merge.host).isSome → ∃ m', merge.entries m ps = .ok m' := by
  induction ps with
  | nil => exact fun m _ => ⟨m, rfl⟩
  | cons p ps ih =>
      intro m hm
      have hpass : ∃ m₁, merge.entry m p.1 p.2 = .ok m₁ := by
        obtain ⟨self, hhost⟩ := Option.isSome_iff_exists.mp hm
        obtain ⟨groupReference, hgroup⟩ := Option.isSome_iff_exists.mp hself
        unfold Merge.entry
        split_ifs
        · simp only [Merge.ownEntry, hhost]
          exact ⟨_, rfl⟩
        · split
          · simp only [Merge.newEntry, hgroup]
            split_ifs <;> exact ⟨_, rfl⟩
          · simp only [Merge.currentEntry]
            split_ifs with h₁ h₂ h₃
            · exact ⟨_, rfl⟩
            · exact ⟨_, rfl⟩
            · obtain ⟨config, hsome⟩ := Option.isSome_iff_exists.mp hconfig
              simp [hsome] at h₃
            all_goals exact ⟨_, rfl⟩
      obtain ⟨m₁, hm₁⟩ := hpass
      have hhost : (m₁.nodes.lookup merge.host).isSome := by
        rw [lookup_entry hm₁]
        split_ifs
        · exact merged_isSome hm
        · exact hm
      obtain ⟨m', hm'⟩ := ih m₁ hhost
      exact ⟨m', bind_eq_ok.mpr ⟨m₁, hm₁, hm'⟩⟩

section

variable {host : String} {clock : Clock} {localState remotePeerState s' : NodeGroupState}

/-- What a merge comes to. -/
theorem merge_spec
    (h : mergeRemoteAndLocalMembership host clock localState remotePeerState = .ok s') :
    ∃ owner m, remotePeerState.documentOwner = some owner ∧
      (mergeOf host clock localState owner).entries
        ⟨localState.nodes, remotePeerState.nodes, ∅⟩ remotePeerState.nodes.entries = .ok m ∧
        s'.nodes = removeAll m.nodes (missingNodes host clock.now m) ∧
          s'.config = localState.config := by
  unfold mergeRemoteAndLocalMembership at h
  split at h
  · cases h
  · rename_i owner howner
    obtain ⟨m, hm, h⟩ := bind_eq_ok.mp h
    cases h
    exact ⟨owner, m, howner, hm, rfl, rfl⟩

theorem merge_ok {self : NodeState} (hconfig : localState.config.isSome)
    (hself : localState.nodes.lookup host = some self) (hgroup : self.groupReference.isSome)
    {owner : String} (howner : remotePeerState.documentOwner = some owner) :
    ∃ s', mergeRemoteAndLocalMembership host clock localState remotePeerState = .ok s' := by
  obtain ⟨m, hm⟩ := @Merge.entries_ok (mergeOf host clock localState owner) hconfig
    (by simpa [mergeOf, hself] using hgroup) remotePeerState.nodes.entries
    ⟨localState.nodes, remotePeerState.nodes, ∅⟩ (by simp [mergeOf, hself])
  unfold mergeRemoteAndLocalMembership
  rw [howner]
  exact ⟨_, bind_eq_ok.mpr ⟨m, hm, rfl⟩⟩

/-- The own entry is not removed. -/
theorem lookup_host_removeAll (m : Merging) (now : Int64) :
    (removeAll m.nodes (missingNodes host now m)).lookup host = m.nodes.lookup host := by
  rw [lookup_removeAll, if_neg (host_not_mem_missingNodes host now m)]

end

end Xenon.NodeGroup
