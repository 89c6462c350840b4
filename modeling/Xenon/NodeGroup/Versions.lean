import Xenon.Foundation.Long
import Xenon.NodeGroup.Service

/-!
# Versions of entries

Versions are meant to move forward only. A merge keeps to that, as long as no version is at the
end of its range; an entry that is inserted by a POST replaces the local one whatever its version
is. And a merge with the view of another node leaves the own entry as it is, but for its version.
-/

namespace Xenon.NodeGroup

open Xenon.Foundation

/-! ## One pass of the loop -/

namespace Merge

variable {merge : Merge} {m m' : Merging} {remote : NodeState}

/-- A pass does not take an entry away or set its version back, and adds at most one to the
versions that there are. -/
theorem merged_version {c : NodeState} (hc : c.documentVersion.toInt + 1 < 2 ^ 63)
    (hr : remote.documentVersion.toInt + 1 < 2 ^ 63) :
    ∃ c', merge.merged (some c) remote = some c' ∧ c.documentVersion ≤ c'.documentVersion ∧
      c'.documentVersion.toInt ≤
        max c.documentVersion.toInt remote.documentVersion.toInt + 1 := by
  refine ⟨_, rfl, ?_⟩
  rw [Int64.le_iff_toInt_le]
  split_ifs with hown hnews hself hstale
  · have hlt := Int64.lt_iff_toInt_lt.mp hnews.2
    dsimp only
    omega
  · omega
  · have hmax : (max remote.documentVersion c.documentVersion).toInt + 1 < 2 ^ 63 := by
      rw [Long.toInt_max]
      omega
    have hadd := Long.toInt_add_one (Long.ne_maxValue_of_lt hmax)
    rw [Long.toInt_max] at hadd
    simp only [ownUpdate]
    omega
  · omega
  · have hle : c.documentVersion.toInt ≤ remote.documentVersion.toInt := by
      simp only [stale, Bool.or_eq_true, decide_eq_true_eq, not_or, Int64.lt_iff_toInt_lt] at hstale
      omega
    have hadd := Long.toInt_add_one (Long.ne_maxValue_of_lt hr)
    simp only [taken]
    split_ifs <;> omega

/-- After the loop every entry is still there, with a version that is not smaller. -/
theorem entries_version {ps : List (Sigma fun _ : String => NodeState)}
    (hps : ∀ p ∈ ps, p.2.documentVersion.toInt + ps.length < 2 ^ 63)
    (hm : ∀ id c, m.nodes.lookup id = some c → c.documentVersion.toInt + ps.length < 2 ^ 63)
    (h : merge.entries m ps = .ok m') {id : String} {c : NodeState}
    (hc : m.nodes.lookup id = some c) :
    ∃ c', m'.nodes.lookup id = some c' ∧ c.documentVersion ≤ c'.documentVersion := by
  induction ps generalizing m c with
  | nil =>
      cases h
      exact ⟨c, hc, Int64.le_refl _⟩
  | cons p ps ih =>
      obtain ⟨m₁, hp, h⟩ := bind_eq_ok.mp h
      simp only [List.length_cons, List.mem_cons, forall_eq_or_imp] at hps hm
      obtain ⟨hhead, hps⟩ := hps
      have hlookup := lookup_entry hp
      -- the bound on the versions gives way by one
      have hm₁ : ∀ id c, m₁.nodes.lookup id = some c →
          c.documentVersion.toInt + ps.length < 2 ^ 63 := by
        intro id c hc
        rw [hlookup] at hc
        split_ifs at hc
        · cases hold : m.nodes.lookup id with
          | none =>
              simp only [merged, hold] at hc
              split_ifs at hc
              cases hc
              omega
          | some old =>
              have hbound := hm id old hold
              obtain ⟨c', hc', -, hle⟩ := @merged_version merge p.2 old (by omega) (by omega)
              rw [hold, hc'] at hc
              cases hc
              omega
        · have := hm id c hc
          omega
      obtain ⟨c₁, hc₁, hle₁⟩ : ∃ c₁, m₁.nodes.lookup id = some c₁ ∧
          c.documentVersion ≤ c₁.documentVersion := by
        rw [hlookup]
        split_ifs
        · have hold := hm id c hc
          obtain ⟨c₁, hc₁, hle, -⟩ := @merged_version merge p.2 c (by omega) (by omega)
          exact ⟨c₁, hc ▸ hc₁, hle⟩
        · exact ⟨c, hc, Int64.le_refl _⟩
      obtain ⟨c', hc', hle'⟩ := ih (fun q hq => by have := hps q hq; omega) hm₁ h hc₁
      exact ⟨c', hc', Int64.le_trans hle₁ hle'⟩

end Merge

/-! ## Requests -/

/-- No version is within `n` of the end of its range. -/
def Room (n : Nat) (nodes : Nodes) : Prop :=
  ∀ p ∈ nodes.entries, p.2.documentVersion.toInt + n < 2 ^ 63

/-- A request does not set a version back: an entry that is inserted is not older than the local
one, and there is room for the versions that are moved forward. -/
def Careful (s : NodeGroupState) : Request → Prop
  | .patch body _ _ =>
      Room (body.nodes.entries.length + 1) s.nodes ∧
        Room (body.nodes.entries.length + 1) body.nodes
  | .insert id body => ∀ key ∈ id, ∀ c ∈ s.nodes.lookup key,
      c.documentVersion ≤ body.documentVersion
  | .join _ => Room 1 s.nodes

theorem Room.mono {n k : Nat} {nodes : Nodes} (h : Room n nodes) (hk : k ≤ n) : Room k nodes := by
  intro p hp
  have := h p hp
  omega

theorem Room.lookup {n : Nat} {nodes : Nodes} (h : Room n nodes) {id : String} {c : NodeState}
    (hc : nodes.lookup id = some c) : c.documentVersion.toInt + n < 2 ^ 63 :=
  h ⟨id, c⟩ (AList.mem_lookup_iff.mp hc)

variable {host : Host} {clock : Clock} {s s' body : NodeGroupState} {id : String}
  {c c' : NodeState}

theorem merge_version {host : String} (hs : Room body.nodes.entries.length s.nodes)
    (hbody : Room body.nodes.entries.length body.nodes)
    (h : mergeRemoteAndLocalMembership host clock s body = .ok s')
    (hc : s.nodes.lookup id = some c) (hc' : s'.nodes.lookup id = some c') :
    c.documentVersion ≤ c'.documentVersion := by
  obtain ⟨owner, m, -, hm, hnodes, -⟩ := merge_spec h
  obtain ⟨c₁, hc₁, hle⟩ := Merge.entries_version hbody (fun _ _ => hs.lookup) hm hc
  rw [hnodes, lookup_removeAll] at hc'
  split_ifs at hc'
  rw [hc₁] at hc'
  cases hc'
  exact hle

/-- The own entry is the only one that is written, with the next version. -/
theorem insert_version {self self' : NodeState} {key : String} (hs : Room 1 s.nodes)
    (hself : s.nodes.lookup key = some self) (hupdated : Updated self self')
    (hc : s.nodes.lookup id = some c) (hc' : (s.nodes.insert key self').lookup id = some c') :
    c.documentVersion ≤ c'.documentVersion := by
  by_cases hid : id = key
  · subst hid
    rw [AList.lookup_insert] at hc'
    cases hc'
    obtain rfl : self = c := Option.some.inj (hself.symm.trans hc)
    rw [hupdated.version]
    exact Int64.le_of_lt (Long.lt_add_one (Long.ne_maxValue_of_lt (hs.lookup hself)))
  · rw [AList.lookup_insert_ne hid, hc] at hc'
    cases hc'
    exact Int64.le_refl _

/-- A careful request does not set a version back. -/
theorem next_version {e : Clock × Request} (he : Careful s e.2)
    (hc : s.nodes.lookup id = some c) (hc' : (next host s e).nodes.lookup id = some c') :
    c.documentVersion ≤ c'.documentVersion := by
  have hsame : s.nodes.lookup id = some c' → c.documentVersion ≤ c'.documentVersion := by
    intro hc'
    rw [hc] at hc'
    cases hc'
    exact Int64.le_refl _
  obtain ⟨clock, request⟩ := e
  unfold next at hc'
  split at hc'
  -- a request that fails leaves the nodes as they were
  case h_2 => exact hsame hc'
  rename_i s' h
  cases request with
  | patch body quorum peersAccept =>
      obtain ⟨hs, hbody⟩ := he
      -- nothing was changed, the quorum was updated, or the remote membership was merged
      rcases handlePatch_spec h with ⟨hnodes, -⟩ | ⟨bd, h⟩ | ⟨s₁, self, h, hself, -, hnodes⟩
      · rw [hnodes] at hc'
        exact hsame hc'
      · obtain ⟨self, self', hself, hupdated, -, f, hf, hlookup⟩ := handleUpdateQuorumPatch_spec h
        rw [hlookup] at hc'
        obtain ⟨c₁, hc₁, rfl⟩ := Option.map_eq_some_iff.mp hc'
        rw [(hf c₁).version]
        exact insert_version (hs.mono (by omega)) hself hupdated hc hc₁
      · have hmerge : ∀ {c'}, s₁.nodes.lookup id = some c' →
            c.documentVersion ≤ c'.documentVersion :=
          merge_version (hs.mono (by omega)) (hbody.mono (by omega)) h hc
        rw [hnodes] at hc'
        by_cases hid : id = host.id
        · subst hid
          have hle := hmerge hself
          rw [AList.lookup_insert] at hc'
          cases hc'
          exact hle
        · rw [AList.lookup_insert_ne hid] at hc'
          exact hmerge hc'
  | insert key body =>
      obtain ⟨key, entry, rfl, hnodes, -, hversion, -⟩ := handleInsertPost_spec h
      rw [hnodes] at hc'
      by_cases hid : id = key
      · subst hid
        rw [AList.lookup_insert] at hc'
        cases hc'
        rw [hversion]
        exact he id rfl c hc
      · rw [AList.lookup_insert_ne hid] at hc'
        exact hsame hc'
  | join joinBody =>
      rcases handleJoinPost_spec h with rfl | ⟨self, self', hself, hupdated, -, hnodes⟩
      · exact hsame hc'
      · rw [hnodes] at hc'
        exact insert_version he hself hupdated hc hc'

/-! ## Runs -/

/-- **Versions move forward.** In a run of careful requests, as long as a node has an entry its
version does not get smaller. -/
theorem versions_move_forward (host : Host) {s₀ s : NodeGroupState}
    {es : List (Clock × Request)} {id : String}
    (h : Reach (step host) (fun s e => Careful s e.2 ∧ ((next host s e).nodes.lookup id).isSome)
      s₀ es s) {c : NodeState} (hc : s₀.nodes.lookup id = some c) :
    ∃ c', s.nodes.lookup id = some c' ∧ c.documentVersion ≤ c'.documentVersion := by
  have hinit : ∃ c', s₀.nodes.lookup id = some c' ∧ c.documentVersion ≤ c'.documentVersion :=
    ⟨c, hc, Int64.le_refl c.documentVersion⟩
  refine h.invariant (fun s => ∃ c', s.nodes.lookup id = some c' ∧
    c.documentVersion ≤ c'.documentVersion) hinit ?_
  rintro s e s' ⟨hcareful, hpresent⟩ hstep ⟨c₁, hc₁, hle⟩
  cases hstep
  obtain ⟨c', hc'⟩ := Option.isSome_iff_exists.mp hpresent
  exact ⟨c', hc', Int64.le_trans hle (next_version hcareful hc₁ hc')⟩

/-- A host without peers. -/
def Host.alone : Host := ⟨"a", "http://a", 0, 0, 0, fun _ => false⟩

def Clock.at (now : Int64) : Clock := ⟨now, fun _ => now⟩

def NodeState.peerAt (id : String) (version : Int64) : NodeState :=
  { NodeState.new id with
    groupReference := some id
    status := .available
    documentVersion := version }

/-- A request that inserts a peer. -/
def insertPeer (version : Int64) : Clock × Request :=
  (.at 1, .insert (some "b") (.peerAt "b" version))

theorem versions_move_forward_insert :
    let s₀ : NodeGroupState := { NodeGroupState.new with nodes := .singleton "b" (.peerAt "b" 5) }
    Reach (step .alone) (fun s e => Careful s e.2 ∧ ((next .alone s e).nodes.lookup "b").isSome)
        s₀ [insertPeer 7] (next .alone s₀ (insertPeer 7)) ∧
      s₀.nodes.lookup "b" = some (.peerAt "b" 5) ∧
        ∃ c', (next .alone s₀ (insertPeer 7)).nodes.lookup "b" = some c' ∧
          5 ≤ c'.documentVersion := by
  intro s₀
  have hrun : Reach (step .alone)
      (fun s e => Careful s e.2 ∧ ((next .alone s e).nodes.lookup "b").isSome)
      s₀ [insertPeer 7] (next .alone s₀ (insertPeer 7)) := by
    refine Reach.refl.snoc ⟨?_, rfl⟩ rfl
    rintro _ ⟨⟩ _ ⟨⟩
    decide
  have hentry : s₀.nodes.lookup "b" = some (.peerAt "b" 5) := rfl
  obtain ⟨c', hc', hle⟩ := versions_move_forward .alone hrun hentry
  exact ⟨hrun, hentry, c', hc', hle⟩

/-- An entry that is inserted with an old version replaces the one that is there. -/
theorem insert_sets_version_back :
    ¬ ∀ (host : Host) (now : Int64) (body : Option NodeGroupState) (s₀ : NodeGroupState),
      handleStart host now body = .ok s₀ → ∀ es s, Reach (step host) (fun _ _ => True) s₀ es s →
        ∀ e id c c', s.nodes.lookup id = some c → (next host s e).nodes.lookup id = some c' →
          c.documentVersion ≤ c'.documentVersion := by
  intro h
  have hle := h .alone 1 none _ rfl [insertPeer 5] _ (Reach.refl.snoc trivial rfl) (insertPeer 3)
    "b" _ _ rfl rfl
  exact absurd hle (by decide)

/-! ## The own entry -/

/-- The own entry is there, with its address, and so is a configuration. -/
def Ready (host : Host) (s : NodeGroupState) : Prop :=
  s.config.isSome ∧ ∃ self, s.nodes.lookup host.id = some self ∧ self.groupReference.isSome

theorem ready_handleStart {now : Int64} {body : Option NodeGroupState}
    (h : handleStart host now body = .ok s) : Ready host s := by
  obtain ⟨_, -, h⟩ := bind_eq_ok.mp h
  cases h
  exact ⟨rfl, _, AList.lookup_insert _, rfl⟩

/-- Another entry for the own one, or for another node. -/
theorem Ready.insert (h : Ready host s) {entry : NodeState} (hentry : entry.groupReference.isSome)
    (hconfig : s'.config.isSome) {key : String} (hnodes : s'.nodes = s.nodes.insert key entry) :
    Ready host s' := by
  obtain ⟨-, self, hself, hgroup⟩ := h
  refine ⟨hconfig, ?_⟩
  rw [hnodes]
  by_cases hid : host.id = key
  · subst hid
    exact ⟨entry, AList.lookup_insert _, hentry⟩
  · exact ⟨self, by rwa [AList.lookup_insert_ne hid], hgroup⟩

theorem ready_next {e : Clock × Request} (hs : Ready host s) : Ready host (next host s e) := by
  obtain ⟨clock, request⟩ := e
  have hready := hs
  obtain ⟨hconfig, self, hself, hgroup⟩ := hs
  unfold next
  split
  case h_2 => exact hready
  rename_i s' h
  cases request with
  | patch body quorum peersAccept =>
      rcases handlePatch_spec h with ⟨hnodes, hconfig'⟩ | ⟨bd, h⟩ | ⟨s₁, self₁, h, -, heq, hnodes⟩
      · exact ⟨hconfig', self, by rwa [hnodes], hgroup⟩
      · obtain ⟨self₁, self', hself₁, hupdated, heq, f, hf, hlookup⟩ :=
          handleUpdateQuorumPatch_spec h
        obtain rfl : self₁ = self := Option.some.inj (hself₁.symm.trans hself)
        refine ⟨by rwa [heq], f self', ?_, ?_⟩
        · rw [hlookup, AList.lookup_insert]
          rfl
        · rw [(hf self').groupReference, hupdated.groupReference]
          exact hgroup
      · obtain ⟨-, -, -, -, -, hconfig₁⟩ := merge_spec h
        refine ⟨by rwa [heq, hconfig₁], { self₁ with groupReference := some host.publicUri },
          ?_, rfl⟩
        rw [hnodes]
        exact AList.lookup_insert _
  | insert key body =>
      obtain ⟨key, entry, rfl, hnodes, heq, -, hentry⟩ := handleInsertPost_spec h
      exact hready.insert hentry (by rwa [heq]) hnodes
  | join joinBody =>
      rcases handleJoinPost_spec h with rfl | ⟨self₁, self', hself₁, hupdated, heq, hnodes⟩
      · exact hready
      · obtain rfl : self₁ = self := Option.some.inj (hself₁.symm.trans hself)
        refine hready.insert ?_ (by rwa [heq]) hnodes
        rw [hupdated.groupReference]
        exact hgroup

/-- What a node alone decides of its entry. -/
structure SameOwn (c c' : NodeState) : Prop where
  status : c'.status = c.status
  options : c'.options = c.options
  membershipQuorum : c'.membershipQuorum = c.membershipQuorum
  locationQuorum : c'.locationQuorum = c.locationQuorum
  groupReference : c'.groupReference = c.groupReference
  version : c.documentVersion ≤ c'.documentVersion

/-- A pass of the loop over the body of another node. -/
theorem Merge.merged_own {merge : Merge} (hself : merge.isSelfPatch = false) {remote : NodeState}
    (hremote : remote.id = merge.host) :
    ∃ c', merge.merged (some c) remote = some c' ∧ SameOwn c c' := by
  refine ⟨_, rfl, ?_⟩
  rw [hself, hremote]
  simp only [decide_true, Bool.not_false, Bool.and_self, if_true]
  split_ifs with hnews
  · exact ⟨rfl, rfl, rfl, rfl, rfl, Int64.le_of_lt hnews.2⟩
  · exact ⟨rfl, rfl, rfl, rfl, rfl, Int64.le_refl _⟩

theorem SameOwn.trans {c₁ c₂ c₃ : NodeState} (h : SameOwn c₁ c₂) (h' : SameOwn c₂ c₃) :
    SameOwn c₁ c₃ :=
  ⟨h'.status.trans h.status, h'.options.trans h.options,
    h'.membershipQuorum.trans h.membershipQuorum, h'.locationQuorum.trans h.locationQuorum,
    h'.groupReference.trans h.groupReference, Int64.le_trans h.version h'.version⟩

/-- The loop keeps the own entry, and it is not removed. -/
theorem merge_own {host : String} {self : NodeState} (hself : s.nodes.lookup host = some self)
    {owner : String} (howner : body.documentOwner = some owner) (hother : owner ≠ host)
    (h : mergeRemoteAndLocalMembership host clock s body = .ok s') :
    ∃ self', s'.nodes.lookup host = some self' ∧ SameOwn self self' := by
  obtain ⟨owner', m, howner', hm, hnodes, -⟩ := merge_spec h
  obtain rfl : owner = owner' := Option.some.inj (howner.symm.trans howner')
  rw [hnodes, lookup_host_removeAll]
  refine Merge.entries_invariant
    (fun m => ∃ self', m.nodes.lookup host = some self' ∧ SameOwn self self') ?_ hm
    ⟨self, hself, rfl, rfl, rfl, rfl, rfl, Int64.le_refl _⟩
  rintro p - m m' hpass ⟨c, hc, hsame⟩
  rw [Merge.lookup_entry hpass]
  split_ifs with hid
  · obtain ⟨c', hc', hsame'⟩ := @Merge.merged_own c (mergeOf host clock s owner)
      (by simp [mergeOf, hother]) p.2 hid.symm
    exact ⟨c', by rw [hc, hc'], hsame.trans hsame'⟩
  · exact ⟨c, hc, hsame⟩

/-- **Only a node changes its own entry.** In every state that a node group gets into, the merge
of a body of another node leaves the own entry, but for its version, which does not get
smaller. -/
theorem merge_keeps_own {now : Int64} {start : Option NodeGroupState} {s₀ : NodeGroupState}
    (hstart : handleStart host now start = .ok s₀) {es : List (Clock × Request)}
    (hrun : Reach (step host) (fun _ _ => True) s₀ es s) (clock : Clock) {body : NodeGroupState}
    {owner : String} (howner : body.documentOwner = some owner) (hother : owner ≠ host.id) :
    ∃ s' self self', mergeRemoteAndLocalMembership host.id clock s body = .ok s' ∧
      s.nodes.lookup host.id = some self ∧ s'.nodes.lookup host.id = some self' ∧
        SameOwn self self' := by
  obtain ⟨hconfig, self, hself, hgroup⟩ : Ready host s :=
    hrun.invariant (Ready host) (ready_handleStart hstart) fun _ hstep hs => by
      cases hstep
      exact ready_next hs
  obtain ⟨s', hs'⟩ := @merge_ok host.id clock s body self hconfig hself hgroup owner howner
  obtain ⟨self', hself', hsame⟩ := merge_own hself howner hother hs'
  exact ⟨s', self, self', hs', hself, hself', hsame⟩

/-- A peer that reports the node as unavailable. -/
def reportOf (owner id : String) (version : Int64) : NodeGroupState :=
  { NodeGroupState.new with
    documentOwner := some owner
    nodes := .singleton id { NodeState.peerAt id version with status := .unavailable } }

theorem merge_keeps_own_reported :
    ∃ s₀ s' self self', handleStart .alone 1 none = .ok s₀ ∧
      mergeRemoteAndLocalMembership "a" (.at 2) s₀ (reportOf "b" "a" 7) = .ok s' ∧
        s₀.nodes.lookup "a" = some self ∧ s'.nodes.lookup "a" = some self' ∧
          SameOwn self self' := by
  obtain ⟨s₀, hstart⟩ : ∃ s₀, handleStart .alone 1 none = .ok s₀ := ⟨_, rfl⟩
  have howner : (reportOf "b" "a" 7).documentOwner = some "b" := rfl
  obtain ⟨s', self, self', h⟩ := merge_keeps_own hstart .refl (.at 2) howner (by decide)
  exact ⟨s₀, s', self, self', hstart, h⟩

end Xenon.NodeGroup
