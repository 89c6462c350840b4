import Xenon.NodeGroup.Versions

/-!
# Gossip

Where every entry is under its id, a merge treats the nodes one by one: what becomes of an entry
is a function of the two entries of its node (`Merge.result`). With it, what two nodes hold that
merge each other's views, and what a node holds that merges a view again.
-/

namespace Xenon.NodeGroup

open Xenon.Foundation

namespace Merge

variable (merge : Merge)

/-- The remote entry after the loop: one that is taken was changed. -/
def changed (current : Option NodeState) (remote : NodeState) : NodeState :=
  match current with
  | none => remote
  | some current =>
      if remote.id = merge.host && (!merge.isSelfPatch || differs current remote) ||
        stale current remote then remote
      else taken current remote (merge.expiration remote)

/-- What a merge leaves of an entry, from the local and the remote one. -/
def result (current remote : Option NodeState) : Option NodeState :=
  (remote.elim current (merge.merged current)).filter fun l =>
    !expires merge.host merge.clock.now l (remote.map (merge.changed current))

variable {merge} {m m' : Merging} {key id : String} {remote : NodeState}

theorem merged_id {current : Option NodeState} {c : NodeState}
    (hcurrent : ∀ c ∈ current, c.id = remote.id) (h : merge.merged current remote = some c) :
    c.id = remote.id := by
  cases current with
  | none =>
      simp only [merged] at h
      split_ifs at h
      cases h
      rfl
  | some current =>
      have hid := hcurrent current rfl
      cases h
      split_ifs <;> first | exact hid | rfl

theorem keyed_entry (hm : m.nodes.Keyed) (h : merge.entry m key remote = .ok m') :
    m'.nodes.Keyed := by
  intro id c hc
  rw [lookup_entry h] at hc
  split_ifs at hc with hid
  · subst hid
    exact merged_id (fun c hc => hm _ c hc) hc
  · exact hm id c hc

/-! What becomes of the remote entries: only the one that is taken is changed. -/

theorem remoteNodes_ownEntry (h : merge.ownEntry m remote = .ok m') :
    m'.remoteNodes = m.remoteNodes := by
  unfold ownEntry at h
  split at h
  · cases h
  · cases h
    split_ifs <;> rfl

theorem remoteNodes_newEntry (h : merge.newEntry m remote = .ok m') :
    m'.remoteNodes = m.remoteNodes := by
  unfold newEntry at h
  dsimp only at h
  split_ifs at h
  · cases h
    rfl
  · split at h
    · cases h
    · cases h
      split_ifs <;> rfl

theorem remoteNodes_currentEntry {current : NodeState}
    (hother : (!merge.isSelfPatch && decide (remote.id = merge.host)) = false)
    (h : merge.currentEntry m key current remote = .ok m') :
    (m'.remoteNodes = m.remoteNodes ∧ merge.changed (some current) remote = remote) ∨
      m'.remoteNodes = m.remoteNodes.insert key (merge.changed (some current) remote) := by
  unfold currentEntry at h
  dsimp only at h
  split_ifs at h with hnews hstale
  · cases h
    have hnews : (merge.isSelfPatch = true ∧ remote.id = merge.host) ∧
        differs current remote = true := by simpa using hnews
    exact Or.inl ⟨rfl, by simp [changed, hnews]⟩
  · cases h
    exact Or.inl ⟨rfl, by simp [changed, hstale]⟩
  all_goals
    cases h
    have hlocal : (decide (remote.id = merge.host) &&
        (!merge.isSelfPatch || differs current remote) || stale current remote) = false := by
      cases hp : merge.isSelfPatch <;> simp_all
    right
    simp only [changed, hlocal, Bool.false_eq_true, if_false]

/-- The remote entries after a pass. -/
theorem lookup_entry_remote (h : merge.entry m key remote = .ok m')
    (hkey : m.remoteNodes.lookup key = some remote) (id : String) :
    m'.remoteNodes.lookup id = if id = key then
      some (merge.changed (m.nodes.lookup remote.id) remote) else m.remoteNodes.lookup id := by
  have hpass : (m'.remoteNodes = m.remoteNodes ∧
        merge.changed (m.nodes.lookup remote.id) remote = remote) ∨
      m'.remoteNodes = m.remoteNodes.insert key
        (merge.changed (m.nodes.lookup remote.id) remote) := by
    unfold entry at h
    split_ifs at h with hown
    · refine Or.inl ⟨remoteNodes_ownEntry h, ?_⟩
      obtain ⟨hself, hhost⟩ : merge.isSelfPatch = false ∧ remote.id = merge.host := by
        simpa using hown
      cases m.nodes.lookup remote.id <;> simp [changed, hself, hhost]
    · split at h
      · rename_i hcurrent
        rw [hcurrent]
        exact Or.inl ⟨remoteNodes_newEntry h, rfl⟩
      · rename_i current hcurrent
        rw [hcurrent]
        exact remoteNodes_currentEntry (Bool.eq_false_iff.mpr hown) h
  rcases hpass with ⟨hsame, hchanged⟩ | hinsert
  · rw [hsame, hchanged]
    split_ifs with hid
    · rw [hid, hkey]
    · rfl
  · rw [hinsert]
    split_ifs with hid
    · rw [hid]
      exact AList.lookup_insert _
    · exact AList.lookup_insert_ne hid

/-- The loop treats the nodes one by one. -/
theorem lookup_entries {ps : List (Sigma fun _ : String => NodeState)} (hnodup : ps.NodupKeys)
    (hkeyed : ∀ p ∈ ps, p.2.id = p.1) (h : merge.entries m ps = .ok m')
    (hremote : ∀ p ∈ ps, m.remoteNodes.lookup p.1 = some p.2) (id : String) :
    m'.nodes.lookup id = (ps.dlookup id).elim (m.nodes.lookup id)
        (merge.merged (m.nodes.lookup id)) ∧
      m'.remoteNodes.lookup id = (ps.dlookup id).elim (m.remoteNodes.lookup id)
        fun r => some (merge.changed (m.nodes.lookup id) r) := by
  induction ps generalizing m with
  | nil =>
      cases h
      exact ⟨rfl, rfl⟩
  | cons p ps ih =>
      obtain ⟨key, r⟩ := p
      obtain rfl : r.id = key := hkeyed ⟨key, r⟩ List.mem_cons_self
      obtain ⟨m₁, hp, hrest⟩ := bind_eq_ok.mp h
      rw [List.nodupKeys_cons] at hnodup
      have hnodes := lookup_entry hp
      have hremotes := lookup_entry_remote hp (hremote _ List.mem_cons_self)
      dsimp only at hnodes hremotes
      have ih := ih hnodup.2 (fun q hq => hkeyed q (List.mem_cons_of_mem _ hq)) hrest fun q hq => by
        have hne : q.1 ≠ r.id := by
          intro heq
          have hmem : q.1 ∈ ps.keys := List.mem_keys_of_mem hq
          rw [heq] at hmem
          exact hnodup.1 hmem
        rw [hremotes, if_neg hne]
        exact hremote q (List.mem_cons_of_mem _ hq)
      rw [ih.1, ih.2, hnodes, hremotes]
      by_cases hid : id = r.id
      · subst hid
        rw [List.dlookup_eq_none.mpr hnodup.1, List.dlookup_cons_eq]
        simp
      · rw [List.dlookup_cons_ne _ _ hid]
        simp [hid]

end Merge

section

variable {host : String} {clock : Clock} {s s' body : NodeGroupState} {owner : String}

/-- **A merge, node by node.** -/
theorem lookup_merge (hs : s.nodes.Keyed) (hbody : body.nodes.Keyed)
    (howner : body.documentOwner = some owner)
    (h : mergeRemoteAndLocalMembership host clock s body = .ok s') (id : String) :
    s'.nodes.lookup id =
      (mergeOf host clock s owner).result (s.nodes.lookup id) (body.nodes.lookup id) := by
  obtain ⟨owner', m, howner', hm, hnodes, -⟩ := merge_spec h
  obtain rfl : owner = owner' := Option.some.inj (howner.symm.trans howner')
  have hlookup : ∀ p ∈ body.nodes.entries, body.nodes.lookup p.1 = some p.2 :=
    fun p hp => AList.mem_lookup_iff.mpr hp
  have hkeyed : m.nodes.Keyed := Merge.entries_invariant (fun m => m.nodes.Keyed)
    (fun p _ {m m'} hpass hm => Merge.keyed_entry hm hpass) hm hs
  obtain ⟨hnode, hremote⟩ := Merge.lookup_entries body.nodes.nodupKeys
    (fun p hp => hbody p.1 p.2 (hlookup p hp)) hm hlookup id
  have hdlookup : body.nodes.entries.dlookup id = body.nodes.lookup id := rfl
  rw [hdlookup] at hnode hremote
  -- the entries that are removed
  have hmissing : id ∈ missingNodes host clock.now m ↔
      ∃ l, m.nodes.lookup id = some l ∧ expires host clock.now l (m.remoteNodes.lookup id) := by
    simp only [missingNodes, Nodes.values, List.mem_map, List.mem_filter]
    constructor
    · rintro ⟨l, ⟨⟨⟨key, l⟩, hp, rfl⟩, hexpires⟩, rfl⟩
      have hl : m.nodes.lookup key = some l := AList.mem_lookup_iff.mpr hp
      obtain rfl := hkeyed key l hl
      exact ⟨l, hl, hexpires⟩
    · rintro ⟨l, hl, hexpires⟩
      obtain rfl := hkeyed id l hl
      exact ⟨l, ⟨⟨⟨l.id, l⟩, AList.mem_lookup_iff.mp hl, rfl⟩, hexpires⟩, rfl⟩
  have hmap : m.remoteNodes.lookup id =
      (body.nodes.lookup id).map
        ((mergeOf host clock s owner).changed (s.nodes.lookup id)) := by
    rw [hremote]
    cases hr : body.nodes.lookup id with
    | none => rfl
    | some r => rfl
  rw [hnodes, lookup_removeAll, Merge.result, ← hnode, ← hmap]
  cases hl : m.nodes.lookup id with
  | none => simp
  | some l =>
      simp only [hmissing, hl, Option.some.injEq, exists_eq_left', Option.filter_some]
      cases hexpires : expires host clock.now l (m.remoteNodes.lookup id) <;>
        simp [mergeOf, hexpires]

end

/-! ## An exchange of views -/

/-- Two entries of one version and time that differ: each side takes the other one. -/
def Tied (x y : NodeState) : Prop :=
  x.documentVersion = y.documentVersion ∧
    x.documentUpdateTimeMicros = y.documentUpdateTimeMicros ∧ differs x y = true

/-- Both sides hold a node for unavailable, and there is news of it: other contents, or no side
had a time for its removal. Then who takes the entry of the other raises its version; both do if
the entries have one version and do not differ. -/
def OneRaises (x y : NodeState) : Prop :=
  bumps x y = true ∧ (x.documentVersion ≠ y.documentVersion ∨ differs x y = true)

theorem differs_comm (x y : NodeState) : differs x y = differs y x := by
  simp only [differs, ne_comm]

theorem bumps_comm (x y : NodeState) : bumps x y = bumps y x := by
  unfold bumps lacksExpiration
  rw [differs_comm]
  cases hx : x.status <;> cases hy : y.status <;> simp [Bool.and_comm]

/-- What a node holds of another one, after a merge with a third. -/
def exchanged (x y : NodeState) (expiration : Int64) : NodeState :=
  if stale x y then x else taken x y expiration

theorem oneRaises_comm (x y : NodeState) : OneRaises x y ↔ OneRaises y x := by
  rw [OneRaises, OneRaises, bumps_comm, differs_comm, ne_comm]

theorem stale_iff (x y : NodeState) : stale x y = true ↔
    y.documentVersion.toInt < x.documentVersion.toInt ∨
      y.documentVersion.toInt = x.documentVersion.toInt ∧ differs x y = true ∧
        y.documentUpdateTimeMicros.toInt < x.documentUpdateTimeMicros.toInt := by
  simp only [stale, Bool.or_eq_true, Bool.and_eq_true, decide_eq_true_eq, Int64.lt_iff_toInt_lt,
    ← Int64.toInt_inj, and_assoc]

/-- Of two entries one of which is older, both sides hold the other one. -/
theorem exchanged_of_stale {x y : NodeState} (h : stale y x = true) (e e' : Int64) :
    exchanged y x e' = y ∧ exchanged x y e = taken x y e ∧
      (OneRaises x y ↔ bumps x y = true) := by
  have hiff := (stale_iff y x).mp h
  have hnot : ¬ stale x y = true := by
    rw [stale_iff]
    omega
  refine ⟨if_pos h, if_neg hnot, and_iff_left_of_imp fun _ => ?_⟩
  rcases hiff with hlt | ⟨-, hdiffers, -⟩
  · refine Or.inl fun heq => ?_
    rw [heq] at hlt
    exact lt_irrefl _ hlt
  · exact Or.inr (differs_comm y x ▸ hdiffers)

/-- What two nodes hold of a third one agrees, but for a version that one of them has raised. -/
structure Agree (raised : Prop) (x' y' : NodeState) : Prop where
  status : x'.status = y'.status
  membershipQuorum : x'.membershipQuorum = y'.membershipQuorum
  version : ¬ raised → x'.documentVersion = y'.documentVersion
  version_raised : raised → x'.documentVersion = y'.documentVersion + 1 ∨
    y'.documentVersion = x'.documentVersion + 1

theorem Agree.symm {p q : Prop} {x' y' : NodeState} (h : Agree p x' y') (hpq : p ↔ q) :
    Agree q y' x' :=
  ⟨h.status.symm, h.membershipQuorum.symm, fun hq => (h.version (hpq.not.mpr hq)).symm,
    fun hq => (h.version_raised (hpq.mpr hq)).symm⟩

theorem agree_of_stale {x y : NodeState} (h : stale y x = true) (e e' : Int64) :
    Agree (OneRaises x y) (exchanged x y e) (exchanged y x e') := by
  obtain ⟨hy, hx, hraises⟩ := exchanged_of_stale h e e'
  rw [hx, hy, hraises]
  refine ⟨rfl, rfl, fun hbump => ?_, fun hbump => Or.inl ?_⟩
  · simp [taken, hbump]
  · simp [taken, hbump]

theorem exchanged_agree {x y : NodeState} (e e' : Int64) (htied : ¬ Tied x y) :
    Agree (OneRaises x y) (exchanged x y e) (exchanged y x e') := by
  cases hyx : stale y x with
  | true => exact agree_of_stale hyx e e'
  | false =>
      cases hxy : stale x y with
      | true => exact (agree_of_stale hxy e' e).symm (oneRaises_comm y x)
      | false =>
          -- one version, and no difference: each side takes the other entry
          have hy := Bool.eq_false_iff.mp hyx
          have hx := Bool.eq_false_iff.mp hxy
          rw [ne_eq, stale_iff] at hx hy
          have hversion : x.documentVersion = y.documentVersion := by
            rw [← Int64.toInt_inj]
            omega
          have hdiffers : differs x y = false := by
            by_contra hdiffers
            rw [Bool.not_eq_false] at hdiffers
            rw [differs_comm, hdiffers] at hy
            rw [hdiffers] at hx
            refine htied ⟨hversion, ?_, hdiffers⟩
            rw [← Int64.toInt_inj] at hversion ⊢
            simp only [hversion, true_and] at hx hy
            omega
          have hsame : x.status = y.status ∧ x.membershipQuorum = y.membershipQuorum := by
            simpa [differs] using hdiffers
          have hraises : ¬ OneRaises x y := by
            rintro ⟨-, hne | hne⟩
            · exact hne hversion
            · rw [hdiffers] at hne
              cases hne
          rw [exchanged, exchanged, hxy, hyx]
          refine ⟨hsame.1.symm, hsame.2.symm, fun _ => ?_, fun h => absurd h hraises⟩
          simp [taken, bumps_comm y x, hversion]

/-- A peer is held as `exchanged` says, if it is not removed. -/
theorem lookup_merge_peer {host : String} {clock : Clock} {s s' body : NodeGroupState}
    {owner id : String} {x y x' : NodeState} (hs : s.nodes.Keyed) (hbody : body.nodes.Keyed)
    (howner : body.documentOwner = some owner) (hother : owner ≠ host) (hid : id ≠ host)
    (h : mergeRemoteAndLocalMembership host clock s body = .ok s')
    (hx : s.nodes.lookup id = some x) (hy : body.nodes.lookup id = some y)
    (hx' : s'.nodes.lookup id = some x') :
    x' = exchanged x y ((mergeOf host clock s owner).expiration y) := by
  have hyid : y.id ≠ host := by rwa [hbody id y hy]
  rw [lookup_merge hs hbody howner h, hx, hy, Merge.result] at hx'
  have hmerged := (Option.filter_eq_some_iff.mp hx').1
  simpa [Merge.merged, mergeOf, hother, hyid, exchanged] using hmerged.symm

/-- **Gossip agreement.** Two nodes merge each other's views. What they then hold of a third node,
if its time is not over, agrees in status and quorum, and in the version unless one of them has
raised it; only where the entries were tied may they be exchanged. -/
theorem gossip_agreement {a b : String} (hab : a ≠ b) {clock clock' : Clock}
    {sa sb sa' sb' : NodeGroupState} (hsa : sa.nodes.Keyed) (hsb : sb.nodes.Keyed)
    (howner : sa.documentOwner = some a) (howner' : sb.documentOwner = some b)
    (h : mergeRemoteAndLocalMembership a clock sa sb = .ok sa')
    (h' : mergeRemoteAndLocalMembership b clock' sb sa = .ok sb') {id : String} (hida : id ≠ a)
    (hidb : id ≠ b) {x y x' y' : NodeState} (hx : sa.nodes.lookup id = some x)
    (hy : sb.nodes.lookup id = some y) (hx' : sa'.nodes.lookup id = some x')
    (hy' : sb'.nodes.lookup id = some y') (htied : ¬ Tied x y) : Agree (OneRaises x y) x' y' := by
  rw [lookup_merge_peer hsa hsb howner' hab.symm hida h hx hy hx',
    lookup_merge_peer hsb hsa howner hab hidb h' hy hx hy']
  exact exchanged_agree _ _ htied

/-- The view of a node of a group with one other node. -/
def viewOf (owner : String) (peer : NodeState) : NodeGroupState :=
  { NodeGroupState.new with
    documentOwner := some owner
    config := some .default
    nodes := (AList.singleton owner (.peerAt owner 1)).insert peer.id peer }

theorem lookup_viewOf {owner id : String} {peer c : NodeState}
    (hc : (viewOf owner peer).nodes.lookup id = some c) :
    id = peer.id ∧ c = peer ∨ id = owner ∧ c = .peerAt owner 1 := by
  by_cases hid : id = peer.id
  · subst hid
    rw [viewOf, AList.lookup_insert] at hc
    cases hc
    exact Or.inl ⟨rfl, rfl⟩
  · rw [viewOf, AList.lookup_insert_ne hid] at hc
    have hmem := AList.mem_lookup_iff.mp hc
    rw [AList.singleton_entries, List.mem_singleton] at hmem
    cases hmem
    exact Or.inr ⟨rfl, rfl⟩

theorem keyed_viewOf (owner : String) (peer : NodeState) : (viewOf owner peer).nodes.Keyed := by
  intro id c hc
  rcases lookup_viewOf hc with ⟨rfl, rfl⟩ | ⟨rfl, rfl⟩ <;> rfl

/-- An entry for a node that is not available. -/
def goneAt (version : Int64) : NodeState :=
  { NodeState.peerAt "c" version with status := .unavailable }

theorem gossip_agreement_newer :
    let x := NodeState.peerAt "c" 1
    let y := NodeState.peerAt "c" 2
    ∃ sa' sb' x' y', mergeRemoteAndLocalMembership "a" (.at 10) (viewOf "a" x) (viewOf "b" y) =
        .ok sa' ∧
      mergeRemoteAndLocalMembership "b" (.at 10) (viewOf "b" y) (viewOf "a" x) = .ok sb' ∧
        sa'.nodes.lookup "c" = some x' ∧ sb'.nodes.lookup "c" = some y' ∧
          Agree (OneRaises x y) x' y' := by
  intro x y
  have htied : ¬ Tied x y := by
    rintro ⟨hversion, -⟩
    exact absurd hversion (by decide)
  have hida : "c" ≠ "a" := by decide
  have hidb : "c" ≠ "b" := by decide
  obtain ⟨sa', hsa', x', hx'⟩ : ∃ sa', mergeRemoteAndLocalMembership "a" (.at 10) (viewOf "a" x)
      (viewOf "b" y) = .ok sa' ∧ ∃ x', sa'.nodes.lookup "c" = some x' := ⟨_, rfl, _, rfl⟩
  obtain ⟨sb', hsb', y', hy'⟩ : ∃ sb', mergeRemoteAndLocalMembership "b" (.at 10) (viewOf "b" y)
      (viewOf "a" x) = .ok sb' ∧ ∃ y', sb'.nodes.lookup "c" = some y' := ⟨_, rfl, _, rfl⟩
  exact ⟨sa', sb', x', y', hsa', hsb', hx', hy', gossip_agreement (by decide)
    (keyed_viewOf "a" x) (keyed_viewOf "b" y) rfl rfl hsa' hsb' hida hidb rfl rfl hx' hy' htied⟩

/-- Both hold a node for unavailable: one takes the entry of the other, and raises its version. -/
theorem exchange_raises_one_version :
    ¬ ∀ (a b : String) (clock clock' : Clock) (sa sb sa' sb' : NodeGroupState), a ≠ b →
      sa.nodes.Keyed → sb.nodes.Keyed → sa.documentOwner = some a → sb.documentOwner = some b →
        mergeRemoteAndLocalMembership a clock sa sb = .ok sa' →
          mergeRemoteAndLocalMembership b clock' sb sa = .ok sb' →
            ∀ id x y x' y', id ≠ a → id ≠ b → sa.nodes.lookup id = some x →
              sb.nodes.lookup id = some y → sa'.nodes.lookup id = some x' →
                sb'.nodes.lookup id = some y' → x'.status = y'.status ∧
                  x'.documentVersion = y'.documentVersion ∧
                    x'.membershipQuorum = y'.membershipQuorum := by
  intro h
  have hagree := h "a" "b" (.at 10) (.at 10) (viewOf "a" (goneAt 1)) (viewOf "b" (goneAt 2)) _ _
    (by decide) (keyed_viewOf _ _) (keyed_viewOf _ _) rfl rfl rfl rfl "c" _ _ _ _ (by decide)
    (by decide) rfl rfl rfl rfl
  exact absurd hagree.2.1 (by decide)

end Xenon.NodeGroup
