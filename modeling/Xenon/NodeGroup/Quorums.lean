import Xenon.NodeGroup.Versions

/-!
# Membership times and quorums

Whether a group has settled is decided by the time of its last change, whether it is available by
the quorums of the own entry. A merge takes the later of two times, a quorum update clamps the
quorum; the other writers take what they are given: a change sets the time to that of the local
clock, which may be behind a time that a peer has sent, a join takes its quorums as they are, and a
patch of the node to itself may bring any location quorum.
-/

namespace Xenon.NodeGroup

open Xenon.Foundation

/-- The own entry has quorums of at least one. -/
def QuorumsPositive (host : Host) (s : NodeGroupState) : Prop :=
  ∃ self, s.nodes.lookup host.id = some self ∧ 1 ≤ self.membershipQuorum ∧ 1 ≤ self.locationQuorum

/-- The settings of the host, where zero stands for none. -/
def Host.HasQuorumSettings (host : Host) : Prop :=
  0 ≤ host.membershipQuorum ∧ 0 ≤ host.locationQuorum

/-- A request finds the clock at or past the time of the last change and brings no quorum below
one where it is not clamped. -/
def Orderly (host : Host) (s : NodeGroupState) (e : Clock × Request) : Prop :=
  match e.2 with
  | .patch body _ _ =>
      if body.nodes.entries.isEmpty then
        body.config = none → s.membershipUpdateTimeMicros ≤ e.1.now
      else s.membershipUpdateTimeMicros ≤ max body.membershipUpdateTimeMicros e.1.now ∧
        (body.documentOwner = some host.id → ∀ p ∈ body.nodes.entries, p.2.id = host.id →
          1 ≤ p.2.locationQuorum)
  | .insert _ _ => True
  | .join body => host.isHostEqual body.memberGroupReference = false →
      s.membershipUpdateTimeMicros ≤ e.1.now ∧
        (∀ q ∈ body.membershipQuorum, 1 ≤ q) ∧ ∀ q ∈ body.locationQuorum, 1 ≤ q

variable {host : Host} {clock : Clock} {s s' body : NodeGroupState} {self : NodeState}

/-! ## The own entry -/

/-- The own entry is under its id and has quorums of at least one. -/
structure NodeState.IsOwn (host : String) (c : NodeState) : Prop where
  id : c.id = host
  membershipQuorum : 1 ≤ c.membershipQuorum
  locationQuorum : 1 ≤ c.locationQuorum

def HasOwn (host : String) (nodes : Nodes) : Prop :=
  ∃ self, nodes.lookup host = some self ∧ self.IsOwn host

theorem HasOwn.quorumsPositive (h : HasOwn host.id s.nodes) : QuorumsPositive host s := by
  obtain ⟨self, hself, hown⟩ := h
  exact ⟨self, hself, hown.membershipQuorum, hown.locationQuorum⟩

theorem hasOwn_insert {nodes : Nodes} (h : self.IsOwn host.id) :
    HasOwn host.id (nodes.insert host.id self) :=
  ⟨self, AList.lookup_insert nodes, h⟩

theorem one_le_max (q : Int32) : 1 ≤ max 1 q := by
  show 1 ≤ if 1 ≤ q then q else 1
  split_ifs with h
  · exact h
  · decide

theorem isOwn_setQuorums {membershipQuorum locationQuorum : Option Int32}
    (h : self.IsOwn host.id) (hm : ∀ q ∈ membershipQuorum, 1 ≤ q)
    (hl : ∀ q ∈ locationQuorum, 1 ≤ q) :
    (setQuorums membershipQuorum locationQuorum self).IsOwn host.id where
  id := h.id
  membershipQuorum := by
    cases membershipQuorum with
    | none => exact h.membershipQuorum
    | some q => exact hm q rfl
  locationQuorum := by
    cases locationQuorum with
    | none => exact h.locationQuorum
    | some q => exact hl q rfl

/-- The entry that a node builds for itself has the quorums of the settings, or the default ones. -/
theorem isOwn_buildLocalNodeState (hhost : host.HasQuorumSettings) (now : Int64)
    (entry : Option NodeState) : (buildLocalNodeState host now entry).IsOwn host.id := by
  have hpos : ∀ q : Int32, 0 ≤ q → q ≠ 0 → 1 ≤ q := by
    intro q hle hne
    have hne' : q.toInt ≠ (0 : Int32).toInt := fun h => hne (Int32.toInt_inj.mp h)
    rw [Int32.le_iff_toInt_le] at hle ⊢
    simp only [Int32.toInt_zero, Int32.toInt_one] at hle hne' ⊢
    omega
  refine ⟨rfl, ?_, ?_⟩
  · simp only [buildLocalNodeState]
    split_ifs with h
    · exact hpos _ hhost.1 h
    · exact one_le_max _
  · simp only [buildLocalNodeState]
    split_ifs with h
    · exact hpos _ hhost.2 h
    · decide

/-! ## Merges -/

section Merge

variable {merge : Merge} {remote : NodeState}

/-- A pass keeps the membership quorum of the own entry, and takes a location quorum from a body of
the node's own only. -/
theorem Merge.merged_isOwn {c : NodeState} (hhost : remote.id = merge.host)
    (hself : merge.isSelfPatch = true → 1 ≤ remote.locationQuorum) (hc : c.IsOwn merge.host) :
    ∃ c', merge.merged (some c) remote = some c' ∧ c'.IsOwn merge.host := by
  refine ⟨_, rfl, ?_⟩
  split_ifs with hown hnews hpatch hstale
  · exact ⟨hc.id, hc.membershipQuorum, hc.locationQuorum⟩
  · exact hc
  · exact ⟨hc.id, hc.membershipQuorum, hc.locationQuorum⟩
  · exact hc
  · -- the entry is taken: it does not differ in the membership quorum
    have hpatch' : merge.isSelfPatch = true := by simpa [hhost] using hown
    have hsame : c.membershipQuorum = remote.membershipQuorum := by
      simp only [hpatch', hhost, differs, Bool.true_and, decide_true, Bool.or_eq_true,
        decide_eq_true_eq, not_or, not_not] at hpatch
      exact hpatch.2
    exact ⟨hhost, hsame ▸ hc.membershipQuorum, hself hpatch'⟩

/-- The loop keeps the quorums of the own entry at one or more. -/
theorem Merge.entries_hasOwn {m m' : Merging} {ps : List (Sigma fun _ : String => NodeState)}
    (hself : merge.isSelfPatch = true → ∀ p ∈ ps, p.2.id = merge.host → 1 ≤ p.2.locationQuorum)
    (h : merge.entries m ps = .ok m') (hm : HasOwn merge.host m.nodes) :
    HasOwn merge.host m'.nodes := by
  refine Merge.entries_invariant (fun m => HasOwn merge.host m.nodes) ?_ h hm
  rintro p hp m m' hpass ⟨c, hc, hown⟩
  unfold HasOwn
  rw [Merge.lookup_entry hpass]
  split_ifs with hid
  · rw [hc]
    exact merged_isOwn hid.symm (fun hpatch => hself hpatch p hp hid.symm) hown
  · exact ⟨c, hc, hown⟩

theorem merge_hasOwn {host : String}
    (h : mergeRemoteAndLocalMembership host clock s body = .ok s')
    (hself : body.documentOwner = some host → ∀ p ∈ body.nodes.entries, p.2.id = host →
      1 ≤ p.2.locationQuorum) (hs : HasOwn host s.nodes) : HasOwn host s'.nodes := by
  obtain ⟨owner, m, howner, hm, hnodes, -⟩ := merge_spec h
  have hown : HasOwn host m.nodes := by
    refine Merge.entries_hasOwn (fun hpatch => hself ?_) hm hs
    rw [howner]
    exact congrArg some (of_decide_eq_true hpatch)
  unfold HasOwn
  rw [hnodes, lookup_host_removeAll]
  exact hown

theorem merge_time {host : String}
    (h : mergeRemoteAndLocalMembership host clock s body = .ok s')
    (htime : s.membershipUpdateTimeMicros ≤ max body.membershipUpdateTimeMicros clock.now) :
    s.membershipUpdateTimeMicros ≤ s'.membershipUpdateTimeMicros := by
  have hmax : ∀ (isModified : Prop) [Decidable isModified], s.membershipUpdateTimeMicros ≤
      max body.membershipUpdateTimeMicros
        (if isModified then clock.now else s.membershipUpdateTimeMicros) := by
    intro isModified _
    split_ifs
    · exact htime
    · rw [Int64.le_iff_toInt_le, Long.toInt_max]
      exact le_max_right _ _
  unfold mergeRemoteAndLocalMembership at h
  split at h
  · cases h
  · obtain ⟨m, -, h⟩ := bind_eq_ok.mp h
    cases h
    exact hmax _

end Merge

/-! ## Requests -/

/-- What a step keeps: the own entry, and the time moves forward only. -/
structure Forward (host : Host) (s s' : NodeGroupState) : Prop where
  own : HasOwn host.id s'.nodes
  time : s.membershipUpdateTimeMicros ≤ s'.membershipUpdateTimeMicros

theorem forward_refl (h : HasOwn host.id s.nodes) : Forward host s s :=
  ⟨h, Int64.le_refl _⟩

/-- A quorum for the group is not set for the own entry again. -/
theorem hasOwn_setGroupQuorum {bd : UpdateQuorumRequest} {nodes : Nodes}
    (h : HasOwn host.id nodes) : HasOwn host.id (setGroupQuorum host bd nodes) := by
  obtain ⟨self, hself, hown⟩ := h
  refine ⟨self, ?_, hown⟩
  unfold setGroupQuorum
  rw [Nodes.lookup_mapValues, hself]
  simp [NodeState.isAvailable, hown.id]

theorem forward_handleUpdateQuorumPatch {bd : UpdateQuorumRequest} {peersAccept : Bool}
    (hs : HasOwn host.id s.nodes) (htime : s.membershipUpdateTimeMicros ≤ clock.now)
    (h : handleUpdateQuorumPatch host clock s bd peersAccept = .ok s') : Forward host s s' := by
  obtain ⟨self, hself, hown⟩ := hs
  have hclamped : ∀ {quorum : Option Int32}, ∀ q ∈ quorum.map (max 1), 1 ≤ q := by
    intro quorum q hq
    obtain ⟨q', -, rfl⟩ := Option.mem_map.mp hq
    exact one_le_max q'
  have hset := isOwn_setQuorums hown (@hclamped bd.membershipQuorum) (@hclamped bd.locationQuorum)
  have hown' : HasOwn host.id (s.nodes.insert host.id
      ((setQuorums (bd.membershipQuorum.map (max 1)) (bd.locationQuorum.map (max 1))
        self).update clock.now)) :=
    hasOwn_insert ⟨hset.id, hset.membershipQuorum, hset.locationQuorum⟩
  simp only [handleUpdateQuorumPatch, hself] at h
  split_ifs at h with hfail hgroup
  · cases h
    exact ⟨hasOwn_setGroupQuorum hown', htime⟩
  · cases h
    exact ⟨hown', htime⟩

theorem forward_handlePatch {quorum : Option UpdateQuorumRequest} {peersAccept : Bool}
    (hs : HasOwn host.id s.nodes)
    (hok : Orderly host s (clock, .patch body quorum peersAccept))
    (h : handlePatch host clock s body quorum peersAccept = .ok s') : Forward host s s' := by
  unfold Orderly at hok
  unfold handlePatch at h
  dsimp only at hok
  split_ifs at h hok
  · split at h
    · cases h
      exact ⟨hs, Int64.le_refl _⟩
    · rename_i hconfig
      exact forward_handleUpdateQuorumPatch hs (hok hconfig) h
    · cases h
  · obtain ⟨s₁, hs₁, h⟩ := bind_eq_ok.mp h
    have htime := merge_time hs₁ hok.1
    obtain ⟨self, hself, hown⟩ := merge_hasOwn hs₁ hok.2 hs
    rw [hself] at h
    cases h
    exact ⟨hasOwn_insert ⟨hown.id, hown.membershipQuorum, hown.locationQuorum⟩, htime⟩

theorem forward_handleInsertPost {id : Option String} {entry : NodeState}
    (hhost : host.HasQuorumSettings) (hs : HasOwn host.id s.nodes)
    (h : handleInsertPost host clock s id entry = .ok s') : Forward host s s' := by
  unfold handleInsertPost at h
  split at h
  · cases h
  · rename_i key
    dsimp only at h
    split_ifs at h with hgroup hlocal
    · cases h
      subst hlocal
      exact ⟨hasOwn_insert (isOwn_buildLocalNodeState hhost _ _), Int64.le_refl _⟩
    · cases h
      obtain ⟨self, hself, hown⟩ := hs
      refine ⟨⟨self, ?_, hown⟩, Int64.le_refl _⟩
      rw [AList.lookup_insert_ne (Ne.symm hlocal), hself]

theorem forward_handleJoinPost {joinBody : JoinPeerRequest} (hs : HasOwn host.id s.nodes)
    (hok : Orderly host s (clock, .join joinBody))
    (h : handleJoinPost host clock s joinBody = .ok s') : Forward host s s' := by
  unfold handleJoinPost at h
  split_ifs at h with hequal
  · cases h
    exact forward_refl hs
  · obtain ⟨htime, hm, hl⟩ := hok (by simpa using hequal)
    obtain ⟨self, hself, hown⟩ := hs
    rw [hself] at h
    obtain ⟨self', hoptions, h⟩ := bind_eq_ok.mp h
    cases h
    have hupdated : (self.update clock.now).IsOwn host.id :=
      ⟨hown.id, hown.membershipQuorum, hown.locationQuorum⟩
    have hset := isOwn_setQuorums hupdated hm hl
    refine ⟨hasOwn_insert ?_, htime⟩
    unfold setOptions at hoptions
    split at hoptions
    · cases hoptions
      exact hset
    · obtain ⟨_, -, hoptions⟩ := bind_eq_ok.mp hoptions
      cases hoptions
      exact ⟨hset.id, hset.membershipQuorum, hset.locationQuorum⟩

theorem forward_next {e : Clock × Request} (hhost : host.HasQuorumSettings)
    (hs : HasOwn host.id s.nodes) (hok : Orderly host s e) : Forward host s (next host s e) := by
  obtain ⟨clock, request⟩ := e
  unfold next
  split
  · rename_i s' h
    cases request with
    | patch body quorum peersAccept => exact forward_handlePatch hs hok h
    | insert id body => exact forward_handleInsertPost hhost hs h
    | join body => exact forward_handleJoinPost hs hok h
  · exact forward_refl hs

/-! ## Runs -/

theorem hasOwn_handleStart {now : Int64} {body : Option NodeGroupState}
    (hhost : host.HasQuorumSettings) (h : handleStart host now body = .ok s) :
    HasOwn host.id s.nodes := by
  obtain ⟨_, -, h⟩ := bind_eq_ok.mp h
  cases h
  exact hasOwn_insert (isOwn_buildLocalNodeState hhost _ _)

theorem forward_run {es : List (Clock × Request)} (hhost : host.HasQuorumSettings)
    (hs : HasOwn host.id s.nodes) (h : Reach (step host) (Orderly host) s es s') :
    Forward host s s' := by
  refine h.invariant (Forward host s) (forward_refl hs) ?_
  rintro s₁ e s₂ hok hstep ⟨hown, htime⟩
  obtain rfl := Option.some.inj hstep
  have hnext := forward_next hhost hown hok
  exact ⟨hnext.own, Int64.le_trans htime hnext.time⟩

/-- **Membership times and quorums.** In a run of orderly requests from the start of a group, on a
host whose settings for the quorums are not negative, the time of the last change never goes back,
and the own entry always has quorums of at least one. -/
theorem times_and_quorums (host : Host) (hhost : host.HasQuorumSettings) (now : Int64)
    (body : Option NodeGroupState) (s₀ s s' : NodeGroupState) (es es' : List (Clock × Request))
    (hstart : handleStart host now body = .ok s₀)
    (hs : Reach (step host) (Orderly host) s₀ es s)
    (hs' : Reach (step host) (Orderly host) s es' s') :
    s.membershipUpdateTimeMicros ≤ s'.membershipUpdateTimeMicros ∧
      QuorumsPositive host s ∧ QuorumsPositive host s' := by
  have hown := (forward_run hhost (hasOwn_handleStart hhost hstart) hs).own
  have hforward := forward_run hhost hown hs'
  exact ⟨hforward.time, hown.quorumsPositive, hforward.own.quorumsPositive⟩

/-- A join that asks for a quorum. -/
def joinWith (membershipQuorum : Int32) : Request :=
  .join ⟨"http://b/core/node-groups/default", none, some membershipQuorum, none⟩

/-- A join with a quorum of two, on a clock that has gone on. -/
theorem times_and_quorums_join : ∃ s₀ s, handleStart .alone 1 none = .ok s₀ ∧
    Reach (step .alone) (Orderly .alone) s₀ [(.at 2, joinWith 2)] s ∧
      s₀.membershipUpdateTimeMicros ≤ s.membershipUpdateTimeMicros ∧
        QuorumsPositive .alone s₀ ∧ QuorumsPositive .alone s := by
  obtain ⟨s₀, hstart⟩ : ∃ s₀, handleStart .alone 1 none = .ok s₀ := ⟨_, rfl⟩
  have hrun : Reach (step .alone) (Orderly .alone) s₀ [(.at 2, joinWith 2)]
      (next .alone s₀ (.at 2, joinWith 2)) := by
    refine Reach.refl.snoc (fun _ => ⟨?_, ?_, ?_⟩) rfl
    · cases hstart
      decide
    · rintro q ⟨⟩
      decide
    · rintro q ⟨⟩
  exact ⟨s₀, _, hstart, hrun,
    times_and_quorums .alone ⟨by decide, by decide⟩ 1 none s₀ s₀ _ [] _ hstart .refl hrun⟩

/-- A join takes the quorum of zero that it brings. -/
theorem join_sets_quorum_zero : ¬ ∀ (host : Host) (now : Int64) (body : Option NodeGroupState)
    (s₀ s s' : NodeGroupState) (es es' : List (Clock × Request)),
    handleStart host now body = .ok s₀ → Reach (step host) (fun _ _ => True) s₀ es s →
      Reach (step host) (fun _ _ => True) s es' s' →
        s.membershipUpdateTimeMicros ≤ s'.membershipUpdateTimeMicros ∧
          QuorumsPositive host s ∧ QuorumsPositive host s' := by
  intro h
  obtain ⟨s₀, hstart⟩ : ∃ s₀, handleStart .alone 1 none = .ok s₀ := ⟨_, rfl⟩
  have hrun : Reach (step .alone) (fun _ _ => True) s₀ [(.at 2, joinWith 0)]
      (next .alone s₀ (.at 2, joinWith 0)) := Reach.refl.snoc trivial rfl
  obtain ⟨-, -, self, hself, hquorum, -⟩ :=
    h .alone 1 none s₀ s₀ _ [] _ hstart .refl hrun
  cases hstart
  cases hself
  exact absurd hquorum (by decide)

end Xenon.NodeGroup
