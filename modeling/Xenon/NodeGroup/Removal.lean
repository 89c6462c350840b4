import Xenon.NodeGroup.Gossip

/-!
# Nodes that are gone

A node that is not available gets a time for its removal when an entry for it is taken and neither
side has one. But the remote entry replaces the local one as a whole, so that a time which only the
local one has is lost, and is set anew, later, when the same view is merged again.
-/

namespace Xenon.NodeGroup

open Xenon.Foundation

namespace Merge

variable {merge : Merge} {c r : NodeState}

/-! ## Peers -/

theorem expirationMicros_self (t : NodeState) :
    expirationMicros t (some t) = t.documentExpirationTimeMicros := by
  rw [expirationMicros, ← Int64.toInt_inj, Long.toInt_max]
  exact max_self _

section

variable (hself : merge.isSelfPatch = false) (hr : r.id ≠ merge.host)
include hself hr

/-- A peer that is known, and for which the body has an entry. -/
theorem result_peer : merge.result (some c) (some r) =
    if stale c r then
      if expires merge.host merge.clock.now c (some r) then none else some c
    else
      let t := taken c r (merge.expiration r)
      if expires merge.host merge.clock.now t (some t) then none else some t := by
  have hmerged : merge.merged (some c) r = some (exchanged c r (merge.expiration r)) := by
    simp [merged, hself, hr, exchanged]
  have hchanged : merge.changed (some c) r =
      if stale c r then r else taken c r (merge.expiration r) := by
    simp [changed, hself, hr]
  rw [result, Option.elim_some, hmerged, Option.map_some, hchanged, exchanged]
  cases hstale : stale c r
  · cases hexpires : expires merge.host merge.clock.now (taken c r (merge.expiration r))
      (some (taken c r (merge.expiration r))) <;> simp [hexpires]
  · cases hexpires : expires merge.host merge.clock.now c (some r) <;> simp [hexpires]

omit hself hr in
/-- A peer that is not known. -/
theorem result_new : merge.result none (some r) = if merge.skips r then none else some r := by
  rw [result, Option.elim_some, merged]
  split_ifs with hskips
  · rfl
  · have havailable : r.isUnAvailable = false := by
      simp only [skips, Bool.or_eq_true, not_or, Bool.not_eq_true] at hskips
      exact hskips.1.2
    simp [expires, havailable]

/-- The deadline of a node that is gone is kept: the local entry is kept, or the one that is taken
has a deadline of its own. -/
theorem result_deadline (hdeadline : c.documentExpirationTimeMicros ≠ 0) :
    (∀ c', merge.result (some c) (some r) = some c' → c'.documentExpirationTimeMicros ≠ 0 ∧
      c'.documentExpirationTimeMicros ≤
        max c.documentExpirationTimeMicros r.documentExpirationTimeMicros) ↔
      (stale c r || r.documentExpirationTimeMicros ≠ 0) = true := by
  have hlacks : lacksExpiration c r = false := by simp [lacksExpiration, hdeadline]
  rw [result_peer hself hr]
  cases hstale : stale c r with
  | true =>
      simp only [if_true, Bool.true_or, iff_true]
      intro c' hc'
      split_ifs at hc'
      cases hc'
      refine ⟨hdeadline, ?_⟩
      rw [Int64.le_iff_toInt_le, Long.toInt_max]
      exact le_max_left _ _
  | false =>
      simp only [Bool.false_eq_true, if_false, Bool.false_or, decide_eq_true_eq]
      have hexpiration : (taken c r (merge.expiration r)).documentExpirationTimeMicros =
          r.documentExpirationTimeMicros := by simp [taken, hlacks]
      constructor
      · intro h hzero
        have hkept : expires merge.host merge.clock.now (taken c r (merge.expiration r))
            (some (taken c r (merge.expiration r))) = false := by
          simp [expires, expirationMicros_self, hexpiration, hzero]
        obtain ⟨hne, -⟩ := h _ (if_neg (by simp [hkept]))
        exact hne (hexpiration.trans hzero)
      · intro hne c' hc'
        split_ifs at hc'
        cases hc'
        rw [hexpiration]
        refine ⟨hne, ?_⟩
        rw [Int64.le_iff_toInt_le, Long.toInt_max]
        exact le_max_right _ _

end

/-! ## The same view again -/

variable (merge) in
/-- A second merge of the same view leaves what the first one has made of a local and a remote
entry. -/
def settles (c r : NodeState) : Bool :=
  let t := taken c r (merge.expiration r)
  if stale c r then !expires merge.host merge.clock.now c (some r) || merge.skips r
  else expires merge.host merge.clock.now t (some t) ||
    if bumps c r then r.documentVersion ≠ Int64.maxValue ||
      r.documentExpirationTimeMicros = 0 && merge.expiration r = 0
    else r.status ≠ .unavailable || r.documentExpirationTimeMicros ≠ 0

/-- What is taken does not differ from the remote entry. -/
theorem differs_taken (e : Int64) : differs (taken c r e) r = false := by
  simp [differs, taken]

/-- An entry with a raised version is newer than the remote one. -/
theorem stale_taken (hbumps : bumps c r = true) (hmax : r.documentVersion ≠ Int64.maxValue)
    (e : Int64) : stale (taken c r e) r = true := by
  simp [stale, taken, hbumps, Long.lt_add_one hmax]

theorem not_stale_taken (h : bumps c r = false ∨ r.documentVersion = Int64.maxValue) (e : Int64) :
    stale (taken c r e) r = false := by
  rw [stale, differs_taken]
  rcases h with hbumps | hmax
  · simp [taken, hbumps]
  · have hlt := Int64.toInt_lt (taken c r e).documentVersion
    have hnot : ¬ Int64.maxValue < (taken c r e).documentVersion := by
      rw [Int64.lt_iff_toInt_lt, Int64.toInt_maxValue]
      omega
    simp [hmax, hnot]

theorem bumps_taken (e : Int64) : bumps (taken c r e) r = lacksExpiration (taken c r e) r := by
  rw [bumps, differs_taken]
  by_cases hgone : r.status = .unavailable <;> simp [lacksExpiration, taken, hgone]

/-- What is taken of a remote entry depends on the local one in two fields. -/
theorem taken_inj {x : NodeState} (e : Int64) : taken x r e = taken c r e ↔
    (if lacksExpiration x r then e else r.documentExpirationTimeMicros) =
        (if lacksExpiration c r then e else r.documentExpirationTimeMicros) ∧
      bumps x r = bumps c r := by
  constructor
  · intro h
    refine ⟨congrArg NodeState.documentExpirationTimeMicros h, ?_⟩
    have hversion := congrArg NodeState.documentVersion h
    have hne := Long.add_one_ne r.documentVersion
    simp only [taken] at hversion
    cases hx : bumps x r <;> cases hc : bumps c r <;> simp [hx, hc, hne, hne.symm] at hversion ⊢
  · rintro ⟨hexpiration, hbumps⟩
    rw [taken, taken, hexpiration, hbumps]

/-- What is taken is taken again as it is. -/
theorem taken_taken (e : Int64) : taken (taken c r e) r e = taken c r e ↔
    (if bumps c r then r.documentExpirationTimeMicros = 0 ∧ e = 0
      else r.status ≠ .unavailable ∨ r.documentExpirationTimeMicros ≠ 0) := by
  have hexpiration : (taken c r e).documentExpirationTimeMicros =
      if lacksExpiration c r then e else r.documentExpirationTimeMicros := rfl
  have hlacks : lacksExpiration (taken c r e) r = true ↔ r.status = .unavailable ∧
      (if lacksExpiration c r then e else r.documentExpirationTimeMicros) = 0 ∧
        r.documentExpirationTimeMicros = 0 := by
    rw [← hexpiration, lacksExpiration]
    simp [and_assoc]
  rw [taken_inj, bumps_taken]
  -- the deadline `e` is given only where the remote node is unavailable without one
  by_cases hgone : r.status = .unavailable ∧ r.documentExpirationTimeMicros = 0
  · obtain ⟨hgone, hzero⟩ := hgone
    simp only [hgone, hzero, true_and, and_true, ne_eq, not_true_eq_false, or_self,
      if_false_right] at hlacks ⊢
    by_cases he : e = 0
    · subst he
      have htrue : lacksExpiration (taken c r 0) r = true := by
        rw [hlacks]
        exact ite_self _
      rw [htrue]
      simp only [ite_self, true_and, and_true]
      exact eq_comm
    · have hcontra : ∀ {p : Prop}, ¬ ((if lacksExpiration (taken c r e) r then e else 0) =
          (if lacksExpiration c r then e else 0) ∧ p) := by
        rintro p ⟨heq, -⟩
        cases hc : lacksExpiration c r <;> cases ht : lacksExpiration (taken c r e) r <;>
          simp [hc, ht, he, Ne.symm he] at heq hlacks
      simp [hcontra, he]
  · have hlocal : lacksExpiration c r = false := by
      rw [Bool.eq_false_iff]
      intro h
      simp only [lacksExpiration, Bool.and_eq_true, decide_eq_true_eq] at h
      exact hgone ⟨h.1.1, h.2⟩
    have htaken : lacksExpiration (taken c r e) r = false := by
      rw [Bool.eq_false_iff, ne_eq, hlacks]
      exact fun h => hgone ⟨h.1, h.2.2⟩
    cases hbumps : bumps c r with
    | false => simpa [hlocal, htaken] using (not_and_or.mp hgone)
    | true =>
        have hunavailable : r.status = .unavailable := by
          simp only [bumps, Bool.and_eq_true, decide_eq_true_eq] at hbumps
          exact hbumps.1.1
        have hne : r.documentExpirationTimeMicros ≠ 0 := fun hzero => hgone ⟨hunavailable, hzero⟩
        simp [htaken, hne]

/-- What is taken, and is not removed, is not removed by the second merge either. -/
theorem not_expires_taken {t : NodeState} (ht : t = taken c r (merge.expiration r))
    (h : expires merge.host merge.clock.now t (some t) = false) :
    expires merge.host merge.clock.now t (some r) = false := by
  have hmax : 0 < (expirationMicros t (some r)).toInt →
      expirationMicros t (some r) = t.documentExpirationTimeMicros := by
    intro hpos
    rw [← Int64.toInt_inj]
    simp only [expirationMicros, Long.toInt_max] at hpos ⊢
    -- the remote entry has the same time, or none
    have hr : r.documentExpirationTimeMicros = t.documentExpirationTimeMicros ∨
        r.documentExpirationTimeMicros = 0 := by
      subst ht
      simp only [taken]
      split_ifs with hlacks
      · simp only [lacksExpiration, Bool.and_eq_true, decide_eq_true_eq] at hlacks
        exact Or.inr hlacks.2
      · exact Or.inl rfl
    rcases hr with hr | hr
    · rw [hr]
      exact max_self _
    · rw [hr] at hpos ⊢
      simp only [Int64.toInt_zero] at hpos ⊢
      omega
  rw [Bool.eq_false_iff] at h ⊢
  intro hexpires
  apply h
  simp only [expires, Bool.and_eq_true, decide_eq_true_eq, expirationMicros_self] at hexpires ⊢
  have hpos := Int64.lt_iff_toInt_lt.mp hexpires.1.2
  rw [Int64.toInt_zero] at hpos
  rw [← hmax hpos]
  exact hexpires

/-- **A second merge of the same view.** -/
theorem result_result (hself : merge.isSelfPatch = false) (hr : r.id ≠ merge.host) :
    merge.result (merge.result (some c) (some r)) (some r) = merge.result (some c) (some r) ↔
      merge.settles c r = true := by
  rw [result_peer hself hr, settles]
  cases hstale : stale c r with
  | true =>
      simp only [if_true]
      cases hexpires : expires merge.host merge.clock.now c (some r) with
      | true =>
          -- the local entry is removed, and the remote one is added
          rw [if_pos rfl, result_new]
          cases hskips : merge.skips r <;> simp
      | false =>
          rw [if_neg (by simp), result_peer hself hr, hstale, if_pos rfl, hexpires]
          simp
  | false =>
      simp only [Bool.false_eq_true, if_false]
      generalize ht : taken c r (merge.expiration r) = t
      cases hexpires : expires merge.host merge.clock.now t (some t) with
      | true =>
          have hskips : merge.skips r = true := by
            have hstatus : t.isUnAvailable = r.isUnAvailable := by
              rw [← ht]
              rfl
            simp only [expires, Bool.and_eq_true] at hexpires
            simp [skips, ← hstatus, hexpires.1.1.1]
          rw [if_pos rfl, result_new, hskips]
          simp
      | false =>
          simp only [Bool.false_eq_true, if_false, Bool.false_or]
          rw [result_peer hself hr]
          by_cases hnewer : bumps c r = true ∧ r.documentVersion ≠ Int64.maxValue
          · obtain ⟨hbumps, hmax⟩ := hnewer
            rw [← ht, stale_taken hbumps hmax, ht, if_pos rfl,
              not_expires_taken ht.symm hexpires]
            simp [hbumps, hmax]
          · have hsame : bumps c r = false ∨ r.documentVersion = Int64.maxValue := by
              rcases not_and_or.mp hnewer with h | h
              · exact Or.inl (Bool.eq_false_iff.mpr h)
              · exact Or.inr (not_not.mp h)
            have hiff := @taken_taken c r (merge.expiration r)
            rw [ht] at hiff
            have hstale' := not_stale_taken hsame (merge.expiration r)
            rw [ht] at hstale'
            simp only [hstale', Bool.false_eq_true, if_false]
            have hagain : (if expires merge.host merge.clock.now
                (taken t r (merge.expiration r)) (some (taken t r (merge.expiration r))) then none
                else some (taken t r (merge.expiration r))) = some t ↔
                  taken t r (merge.expiration r) = t := by
              constructor
              · intro h
                split_ifs at h
                exact Option.some.inj h
              · intro h
                rw [h, hexpires]
                rfl
            rw [hagain, hiff]
            cases hbumps : bumps c r with
            | false => simp
            | true =>
                have hmax := hsame.resolve_left (by simp [hbumps])
                simp [hmax]

/-- The body has no entry for the node. -/
theorem result_none_result_none (current : Option NodeState) :
    merge.result (merge.result current none) none = merge.result current none := by
  cases current with
  | none => rfl
  | some c => simp [result]

/-- The node was not known. -/
theorem result_result_new (hself : merge.isSelfPatch = false) (hr : r.id ≠ merge.host) :
    merge.result (merge.result none (some r)) (some r) = merge.result none (some r) := by
  rw [result_new]
  split_ifs with hskips
  · rw [result_new, if_pos hskips]
  · have havailable : r.isUnAvailable = false := by
      simp only [skips, Bool.or_eq_true, not_or, Bool.not_eq_true] at hskips
      exact hskips.1.2
    have hstatus : r.status ≠ .unavailable := by
      intro hgone
      simp [NodeState.isUnAvailable, hgone] at havailable
    have hstale : stale r r = false := by simp [stale, differs]
    have htaken : taken r r (merge.expiration r) = r := by
      simp [taken, lacksExpiration, bumps, hstatus]
    rw [result_peer hself hr, hstale]
    simp [htaken, expires, havailable]

/-- The own entry. -/
theorem result_result_own (hself : merge.isSelfPatch = false) (hr : r.id = merge.host)
    (hc : c.id = merge.host) :
    merge.result (merge.result (some c) (some r)) (some r) = merge.result (some c) (some r) := by
  have hresult : ∀ {x : NodeState}, x.id = merge.host → merge.result (some x) (some r) =
      merge.merged (some x) r := by
    intro x hx
    obtain ⟨x', hx', -⟩ := @merged_own x merge hself r hr
    have hid : x'.id = merge.host :=
      (merged_id (fun y hy => by cases hy; exact hx.trans hr.symm) hx').trans hr
    simp [result, hx', expires, hid]
  rw [hresult hc]
  simp only [merged, hself, hr, decide_true, Bool.not_false, Bool.and_self, if_true]
  split_ifs with hnews
  · rw [hresult]
    · simp [merged, hself, hr]
    · exact hc
  · rw [hresult hc]
    simp [merged, hself, hr, hnews]

end Merge

/-! ## Merging a view twice -/

variable {host : Host} {clock : Clock} {s s' s'' body : NodeGroupState} {owner : String}

theorem keyed_merge {host : String} (hs : s.nodes.Keyed)
    (h : mergeRemoteAndLocalMembership host clock s body = .ok s') : s'.nodes.Keyed := by
  obtain ⟨owner, m, -, hm, hnodes, -⟩ := merge_spec h
  have hkeyed : m.nodes.Keyed := Merge.entries_invariant (fun m => m.nodes.Keyed)
    (fun p _ {m m'} hpass hm => Merge.keyed_entry hm hpass) hm hs
  intro id c hc
  rw [hnodes, lookup_removeAll] at hc
  split_ifs at hc
  exact hkeyed id c hc

theorem ready_merge (hs : Ready host s) (howner : body.documentOwner = some owner)
    (hother : owner ≠ host.id)
    (h : mergeRemoteAndLocalMembership host.id clock s body = .ok s') :
    Ready host s' ∧ mergeOf host.id clock s' owner = mergeOf host.id clock s owner := by
  obtain ⟨hconfig, self, hself, hgroup⟩ := hs
  obtain ⟨-, -, -, -, -, heq⟩ := merge_spec h
  obtain ⟨self', hself', hsame⟩ := merge_own hself howner hother h
  refine ⟨⟨by rwa [heq], self', hself', by rwa [hsame.groupReference]⟩, ?_⟩
  simp [mergeOf, heq, hself, hself', hsame.groupReference]

/-- A merge keeps the deadlines: a peer for which both sides have an entry as unavailable, the
local one with a deadline, has a deadline afterwards, and none that is later than both. -/
def KeepsDeadlines (host : String) (s body s' : NodeGroupState) : Prop :=
  ∀ id c r c', id ≠ host → s.nodes.lookup id = some c → body.nodes.lookup id = some r →
    c.status = .unavailable → c.documentExpirationTimeMicros ≠ 0 → r.status = .unavailable →
      s'.nodes.lookup id = some c' → c'.documentExpirationTimeMicros ≠ 0 ∧
        c'.documentExpirationTimeMicros ≤
          max c.documentExpirationTimeMicros r.documentExpirationTimeMicros

/-- The local deadline is not lost: the local entry is kept, or the one that is taken has a
deadline of its own. -/
def deadlineKept (c r : NodeState) : Bool :=
  c.status ≠ .unavailable || c.documentExpirationTimeMicros = 0 || r.status ≠ .unavailable ||
    stale c r || r.documentExpirationTimeMicros ≠ 0

/-- **Nodes that are gone.** A merge keeps the deadlines, and a second merge of the same view
changes nothing, exactly if for every peer that both sides know no deadline is lost with the local
entry and the second merge finds nothing to do. -/
theorem merge_keeps_deadlines_iff (hs : Ready host s) (hkeyed : s.nodes.Keyed)
    (hbody : body.nodes.Keyed) (howner : body.documentOwner = some owner)
    (hother : owner ≠ host.id) (clock : Clock) :
    ∃ s' s'', mergeRemoteAndLocalMembership host.id clock s body = .ok s' ∧
      mergeRemoteAndLocalMembership host.id clock s' body = .ok s'' ∧
        ((KeepsDeadlines host.id s body s' ∧ ∀ id, s''.nodes.lookup id = s'.nodes.lookup id) ↔
          ∀ id c r, id ≠ host.id → s.nodes.lookup id = some c → body.nodes.lookup id = some r →
            deadlineKept c r = true ∧ (mergeOf host.id clock s owner).settles c r = true) := by
  obtain ⟨hconfig, self, hself, hgroup⟩ := hs
  obtain ⟨s', hs'⟩ := @merge_ok host.id clock s body self hconfig hself hgroup owner howner
  obtain ⟨⟨hconfig', self', hself', hgroup'⟩, hmerge⟩ :=
    ready_merge ⟨hconfig, self, hself, hgroup⟩ howner hother hs'
  obtain ⟨s'', hs''⟩ := @merge_ok host.id clock s' body self' hconfig' hself' hgroup' owner howner
  refine ⟨s', s'', hs', hs'', ?_⟩
  have hlookup := lookup_merge hkeyed hbody howner hs'
  have hlookup' := lookup_merge (keyed_merge hkeyed hs') hbody howner hs''
  rw [hmerge] at hlookup'
  generalize hm : mergeOf host.id clock s owner = merge at hlookup hlookup'
  have hpatch : merge.isSelfPatch = false := by simp [← hm, mergeOf, hother]
  have hhost : merge.host = host.id := by rw [← hm]; rfl
  -- the entry of the host itself is merged by another rule
  have hpeer : ∀ {id r}, id ≠ host.id → body.nodes.lookup id = some r → r.id ≠ merge.host := by
    intro id r hid hr
    rwa [hbody id r hr, hhost]
  constructor
  · rintro ⟨hdeadlines, hsame⟩ id c r hid hc hr
    constructor
    · by_cases hgone : c.status = .unavailable ∧ c.documentExpirationTimeMicros ≠ 0 ∧
        r.status = .unavailable
      · obtain ⟨hgone, hdeadline, hgone'⟩ := hgone
        have hkept := (Merge.result_deadline hpatch (hpeer hid hr) hdeadline).mp
          fun c' hc' => hdeadlines id c r c' hid hc hr hgone hdeadline hgone' (by
            rw [hlookup, hc, hr, hc'])
        simpa [deadlineKept, hgone, hdeadline, hgone'] using hkept
      · simp only [deadlineKept, Bool.or_eq_true, decide_eq_true_eq, ne_eq]
        tauto
    · have hid' := hsame id
      rw [hlookup', hlookup, hc, hr] at hid'
      exact (Merge.result_result hpatch (hpeer hid hr)).mp hid'
  · intro h
    constructor
    · intro id c r c' hid hc hr hgone hdeadline hgone' hc'
      rw [hlookup, hc, hr] at hc'
      refine (Merge.result_deadline hpatch (hpeer hid hr) hdeadline).mpr ?_ c' hc'
      simpa [deadlineKept, hgone, hdeadline, hgone'] using (h id c r hid hc hr).1
    · intro id
      rw [hlookup', hlookup]
      cases hr : body.nodes.lookup id with
      | none => exact Merge.result_none_result_none _
      | some r =>
          by_cases hid : id = host.id
          · subst hid
            rw [hself]
            exact Merge.result_result_own hpatch ((hbody _ r hr).trans hhost.symm)
              ((hkeyed _ self hself).trans hhost.symm)
          · cases hc : s.nodes.lookup id with
            | none => exact Merge.result_result_new hpatch (hpeer hid hr)
            | some c =>
                exact (Merge.result_result hpatch (hpeer hid hr)).mpr (h id c r hid hc hr).2

theorem ready_viewOf (peer : NodeState) (hpeer : "a" ≠ peer.id) :
    Ready .alone (viewOf "a" peer) := by
  refine ⟨rfl, .peerAt "a" 1, ?_, rfl⟩
  show (viewOf "a" peer).nodes.lookup "a" = _
  rw [viewOf, AList.lookup_insert_ne hpeer]
  rfl

/-- An entry for a node that is gone, with a deadline. -/
def goneUntil (expiration : Int64) : NodeState :=
  { goneAt 1 with documentExpirationTimeMicros := expiration }

theorem merge_keeps_deadlines_later :
    ∃ s' s'', mergeRemoteAndLocalMembership "a" (.at 10) (viewOf "a" (goneUntil 100))
        (viewOf "b" (goneUntil 200)) = .ok s' ∧
      mergeRemoteAndLocalMembership "a" (.at 10) s' (viewOf "b" (goneUntil 200)) = .ok s'' ∧
        KeepsDeadlines "a" (viewOf "a" (goneUntil 100)) (viewOf "b" (goneUntil 200)) s' ∧
          ∀ id, s''.nodes.lookup id = s'.nodes.lookup id := by
  obtain ⟨s', s'', hs', hs'', hiff⟩ := merge_keeps_deadlines_iff
    (ready_viewOf (goneUntil 100) (by decide)) (keyed_viewOf "a" (goneUntil 100))
    (keyed_viewOf "b" (goneUntil 200)) rfl (by decide) (.at 10)
  refine ⟨s', s'', hs', hs'', hiff.mpr ?_⟩
  intro id c r hid hc hr
  rcases lookup_viewOf hc with ⟨rfl, rfl⟩ | ⟨rfl, rfl⟩
  · rcases lookup_viewOf hr with ⟨-, rfl⟩ | ⟨hb, -⟩
    · exact ⟨by decide, by decide⟩
    · exact absurd hb (by decide)
  · exact absurd rfl hid

/-- The remote entry has no deadline: that of the local one is lost. -/
theorem merge_loses_deadline :
    ¬ ∀ (host : Host) (clock : Clock) (s body s' s'' : NodeGroupState) (owner : String),
      Ready host s → s.nodes.Keyed → body.nodes.Keyed → body.documentOwner = some owner →
        owner ≠ host.id → mergeRemoteAndLocalMembership host.id clock s body = .ok s' →
          mergeRemoteAndLocalMembership host.id clock s' body = .ok s'' →
            KeepsDeadlines host.id s body s' ∧
              ∀ id, s''.nodes.lookup id = s'.nodes.lookup id := by
  intro h
  obtain ⟨hdeadlines, -⟩ := h .alone (.at 10) (viewOf "a" (goneUntil 100))
    (viewOf "b" (goneUntil 0)) _ _ "b" (ready_viewOf _ (by decide)) (keyed_viewOf _ _)
    (keyed_viewOf _ _) rfl (by decide) rfl rfl
  obtain ⟨hne, -⟩ := hdeadlines "c" (goneUntil 100) (goneUntil 0) (goneUntil 0) (by decide) rfl rfl
    rfl (by decide) rfl rfl
  exact hne rfl

end Xenon.NodeGroup
