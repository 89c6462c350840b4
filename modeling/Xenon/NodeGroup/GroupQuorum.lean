import Mathlib.Data.Finset.Card
import Mathlib.Data.Finset.Powerset
import Xenon.Foundation.FanOut
import Xenon.NodeGroup.Service

/-!
# Updating the quorum of a group

`handleUpdateQuorumPatch` with `isGroupUpdate`: after the own quorum the node updates that of its
peers, by a request to each, and completes the PATCH unless more than `failureThreshold` of them
fail. A peer that is not available is skipped, and counts like one that has accepted.
-/

namespace Xenon.NodeGroup

open Xenon.Foundation

/-! ## The code -/

/-- The hosts of the nodes by their ids, each with its clock. -/
structure Cluster where
  host : String → Host
  host_id : ∀ id, (host id).id = id
  clock : String → Clock

/-- The failures counted so far, the state of the group on each node, and the nodes that have
handled the request. -/
structure GroupUpdate where
  failures : Nat
  groups : String → NodeGroupState
  updated : Finset String

section Code

variable (cluster : Cluster) (bd : UpdateQuorumRequest)

/-- A node handles the request for itself: its own patch, or the one that the update sends, with
`isGroupUpdate` off. -/
def handleAt (acc : GroupUpdate) (id : String) : GroupUpdate :=
  match handleUpdateQuorumPatch (cluster.host id) (cluster.clock id) (acc.groups id)
      { bd with isGroupUpdate := false } true with
  | .ok s => { acc with
      groups := Function.update acc.groups id s
      updated := insert id acc.updated }
  | .error _ => acc

/-- The loop over the nodes. A request without a URI is refused by the host with an exception; an
answer is a failure, or tells that the peer has handled the request. -/
def updateGroup (self : String) : FanOut NodeState GroupUpdate Bool where
  issue := fun node =>
    if !node.isAvailable self then .inline
    else if node.groupReference = none then .throw
    else .send
  deliver := fun acc node => handleAt cluster bd acc node.id
  answer := fun acc node failed =>
    if failed then some { acc with failures := acc.failures + 1 }
    else if node.id ∈ acc.updated then some acc
    else none

def failureThreshold (nodes : Nodes) : Nat := (nodes.entries.length - 1) / 2

/-- What the PATCH is completed with. -/
def outcome (nodes : Nodes) (acc : GroupUpdate) : Except Failure Unit :=
  if failureThreshold nodes < acc.failures then
    .error (.illegalState "Majority of nodes failed request")
  else .ok ()

/-- Before the loop the node has updated itself. -/
def startUpdate (groups : String → NodeGroupState) (self : String) : GroupUpdate :=
  handleAt cluster bd ⟨0, groups, ∅⟩ self

end Code

/-! ## What the update is for -/

/-- The node with this id has the quorums that are asked for, and none below one. -/
def HasQuorum (bd : UpdateQuorumRequest) (id : String) (s : NodeGroupState) : Prop :=
  ∃ node, s.nodes.lookup id = some node ∧
    (∀ q ∈ bd.membershipQuorum, node.membershipQuorum = max 1 q) ∧
      ∀ q ∈ bd.locationQuorum, node.locationQuorum = max 1 q

/-- More than half of the nodes have handled the request, and have its quorums. -/
def Majority (bd : UpdateQuorumRequest) (nodes : Nodes) (acc : GroupUpdate) : Prop :=
  nodes.entries.length < 2 * (nodes.values.filter fun node => node.id ∈ acc.updated).length ∧
    ∀ id ∈ acc.updated, HasQuorum bd id (acc.groups id)

/-- In every run the PATCH is completed exactly once, when every node is accounted for, and with
success only if a majority has updated its quorum. -/
def UpdatesMajority (cluster : Cluster) (bd : UpdateQuorumRequest) (self : String)
    (groups : String → NodeGroupState) : Prop :=
  ∀ p, (updateGroup cluster bd self).Reaches (groups self).nodes.values
      (startUpdate cluster bd groups self) p →
    p.shared.ends.length ≤ 1 ∧
    (FanOut.todo p.tasks = [] → FanOut.awaiting p.tasks = [] → p.shared.ends ≠ []) ∧
    (p.shared.ends ≠ [] → p.shared.settled.Perm (groups self).nodes.values) ∧
    ∀ acc, .counted acc ∈ p.shared.ends → outcome (groups self).nodes acc = .ok () →
      Majority bd (groups self).nodes acc

/-- Every other node is available, and its group can be reached. -/
def Reachable (self : String) (nodes : Nodes) : Prop :=
  ∀ node ∈ nodes.values, node.id ≠ self → node.status = .available ∧ node.groupReference ≠ none

/-! ## Handling the request -/

section Handle

variable {acc : GroupUpdate} {id : String}

/-- A node that is in its group handles the request. -/
theorem handleUpdateQuorumPatch_alone (host : Host) (clock : Clock) (bd : UpdateQuorumRequest)
    {s : NodeGroupState} (h : host.id ∈ s.nodes) :
    ∃ s', handleUpdateQuorumPatch host clock s { bd with isGroupUpdate := false } true = .ok s' ∧
      HasQuorum bd host.id s' := by
  obtain ⟨node, hnode⟩ := Option.isSome_iff_exists.mp (AList.lookup_isSome.mpr h)
  unfold handleUpdateQuorumPatch
  rw [hnode]
  refine ⟨_, rfl, _, AList.lookup_insert _, ?_, ?_⟩
  · intro q hq
    simp [NodeState.update, setQuorums, Option.mem_def.mp hq]
  · intro q hq
    simp [NodeState.update, setQuorums, Option.mem_def.mp hq]

/-- A node that is not in its group throws. -/
theorem handleUpdateQuorumPatch_unknown (host : Host) (clock : Clock) {s : NodeGroupState}
    (h : host.id ∉ s.nodes) (bd : UpdateQuorumRequest) (accept : Bool) :
    handleUpdateQuorumPatch host clock s bd accept = .error .nullPointer := by
  unfold handleUpdateQuorumPatch
  rw [AList.lookup_eq_none.mpr h]

variable (cluster : Cluster) (bd : UpdateQuorumRequest)

theorem handleAt_of_mem (h : id ∈ (acc.groups id).nodes) :
    ∃ s, HasQuorum bd id s ∧ handleAt cluster bd acc id = { acc with
      groups := Function.update acc.groups id s
      updated := insert id acc.updated } := by
  have hhost : (cluster.host id).id ∈ (acc.groups id).nodes := by rwa [cluster.host_id]
  obtain ⟨s, hs, hquorum⟩ := handleUpdateQuorumPatch_alone _ (cluster.clock id) bd hhost
  rw [cluster.host_id] at hquorum
  refine ⟨s, hquorum, ?_⟩
  unfold handleAt
  rw [hs]

theorem handleAt_of_notMem (h : id ∉ (acc.groups id).nodes) : handleAt cluster bd acc id = acc := by
  unfold handleAt
  rw [handleUpdateQuorumPatch_unknown _ _ (by rwa [cluster.host_id])]

/-- What handling the request keeps. -/
theorem handleAt_spec (acc : GroupUpdate) (id : String) :
    (handleAt cluster bd acc id).failures = acc.failures ∧
      acc.updated ⊆ (handleAt cluster bd acc id).updated ∧
      ((∀ i ∈ acc.updated, HasQuorum bd i (acc.groups i)) →
        ∀ i ∈ (handleAt cluster bd acc id).updated,
          HasQuorum bd i ((handleAt cluster bd acc id).groups i)) := by
  by_cases hmem : id ∈ (acc.groups id).nodes
  · obtain ⟨s, hs, heq⟩ := handleAt_of_mem cluster bd hmem
    rw [heq]
    refine ⟨rfl, Finset.subset_insert _ _, fun h i hi => ?_⟩
    by_cases hid : i = id
    · subst hid
      simpa using hs
    · show HasQuorum bd i (Function.update acc.groups id s i)
      rw [Function.update_of_ne hid]
      exact h i (Finset.mem_of_mem_insert_of_ne hi hid)
  · rw [handleAt_of_notMem cluster bd hmem]
    exact ⟨rfl, Finset.Subset.refl _, fun h => h⟩

end Handle

/-! ## A reachable group -/

section Issue

variable {cluster : Cluster} {bd : UpdateQuorumRequest} {self : String} {node : NodeState}

theorem issue_eq_send_iff : (updateGroup cluster bd self).issue node = .send ↔
    node.status = .available ∧ node.id ≠ self ∧ node.groupReference ≠ none := by
  by_cases hstatus : node.status = .available <;> by_cases hid : node.id = self <;>
    by_cases hreference : node.groupReference = none <;>
      simp [updateGroup, NodeState.isAvailable, hstatus, hid, hreference]

theorem issue_eq_throw_iff : (updateGroup cluster bd self).issue node = .throw ↔
    node.status = .available ∧ node.id ≠ self ∧ node.groupReference = none := by
  by_cases hstatus : node.status = .available <;> by_cases hid : node.id = self <;>
    by_cases hreference : node.groupReference = none <;>
      simp [updateGroup, NodeState.isAvailable, hstatus, hid, hreference]

end Issue

/-- What the open nodes are worth: every node has handled the request, or failed, or is still to
be asked. -/
structure Covers (cluster : Cluster) (bd : UpdateQuorumRequest) (self : String) (nodes : Nodes)
    (acc : GroupUpdate) (xs : List NodeState) : Prop where
  quorum : ∀ id ∈ acc.updated, HasQuorum bd id (acc.groups id)
  cover : ∃ failed : Finset String, failed.card ≤ acc.failures ∧
    ∀ node ∈ nodes.values, node.id ∈ acc.updated ∨ node.id ∈ failed ∨
      ∃ x ∈ xs, x.id = node.id ∧ (updateGroup cluster bd self).issue x = .send

section Sufficient

variable {cluster : Cluster} {bd : UpdateQuorumRequest} {self : String} {nodes : Nodes}
  {groups : String → NodeGroupState}

theorem rule_covers : (updateGroup cluster bd self).Rule (Covers cluster bd self nodes) where
  perm := by
    rintro acc xs ys hperm ⟨hquorum, failed, hcard, hcover⟩
    refine ⟨hquorum, failed, hcard, fun node hnode => ?_⟩
    rcases hcover node hnode with h | h | ⟨x, hx, h⟩
    · exact Or.inl h
    · exact Or.inr (Or.inl h)
    · exact Or.inr (Or.inr ⟨x, hperm.mem_iff.mp hx, h⟩)
  inline := by
    rintro acc x xs hinline ⟨hquorum, failed, hcard, hcover⟩
    refine ⟨hquorum, failed, hcard, fun node hnode => ?_⟩
    rcases hcover node hnode with h | h | ⟨y, hy, hid, hsend⟩
    · exact Or.inl h
    · exact Or.inr (Or.inl h)
    · rcases List.mem_cons.mp hy with rfl | hy
      · rw [hinline] at hsend
        cases hsend
      · exact Or.inr (Or.inr ⟨y, hy, hid, hsend⟩)
  deliver := by
    rintro acc x xs ⟨hquorum, failed, hcard, hcover⟩
    -- handling a response keeps the nodes that are covered
    obtain ⟨hfailures, hsub, hkeeps⟩ := handleAt_spec cluster bd acc x.id
    refine ⟨hkeeps hquorum, failed, hcard.trans hfailures.ge, fun node hnode => ?_⟩
    rcases hcover node hnode with h | h
    · exact Or.inl (hsub h)
    · exact Or.inr h
  answer := by
    rintro acc acc' x xs failed hanswer ⟨hquorum, fs, hcard, hcover⟩
    cases failed with
    | true =>
        cases hanswer
        refine ⟨hquorum, insert x.id fs, ?_, fun node hnode => ?_⟩
        · exact (Finset.card_insert_le _ _).trans (Nat.succ_le_succ hcard)
        · rcases hcover node hnode with h | h | ⟨y, hy, hid, hsend⟩
          · exact Or.inl h
          · exact Or.inr (Or.inl (Finset.mem_insert_of_mem h))
          · rcases List.mem_cons.mp hy with rfl | hy
            · exact Or.inr (Or.inl (hid ▸ Finset.mem_insert_self _ _))
            · exact Or.inr (Or.inr ⟨y, hy, hid, hsend⟩)
    | false =>
        obtain ⟨hmem, hsome⟩ := Option.ite_none_right_eq_some.mp hanswer
        cases hsome
        refine ⟨hquorum, fs, hcard, fun node hnode => ?_⟩
        rcases hcover node hnode with h | h | ⟨y, hy, hid, hsend⟩
        · exact Or.inl h
        · exact Or.inr (Or.inl h)
        · rcases List.mem_cons.mp hy with rfl | hy
          · exact Or.inl (hid ▸ hmem)
          · exact Or.inr (Or.inr ⟨y, hy, hid, hsend⟩)

variable (cluster bd groups)

/-- The node itself has handled the request before the loop. -/
theorem startUpdate_spec (hself : self ∈ (groups self).nodes) :
    (startUpdate cluster bd groups self).failures = 0 ∧
      (startUpdate cluster bd groups self).updated = {self} ∧
      (∀ id ≠ self, (startUpdate cluster bd groups self).groups id = groups id) ∧
        HasQuorum bd self ((startUpdate cluster bd groups self).groups self) := by
  have hmem : self ∈ ((⟨0, groups, ∅⟩ : GroupUpdate).groups self).nodes := hself
  obtain ⟨s, hs, heq⟩ := handleAt_of_mem cluster bd hmem
  unfold startUpdate
  rw [heq]
  refine ⟨rfl, rfl, fun id hid => Function.update_of_ne hid _ _, ?_⟩
  simpa using hs

variable {groups}

theorem covers_startUpdate (hself : self ∈ (groups self).nodes)
    (h : Reachable self (groups self).nodes) :
    Covers cluster bd self (groups self).nodes (startUpdate cluster bd groups self)
      (groups self).nodes.values := by
  obtain ⟨-, hupdated, -, hquorum⟩ := startUpdate_spec cluster bd groups hself
  refine ⟨fun id hid => ?_, ∅, Nat.zero_le _, fun node hnode => ?_⟩
  · rw [hupdated, Finset.mem_singleton] at hid
    exact hid ▸ hquorum
  · by_cases hid : node.id = self
    · exact Or.inl (by rw [hupdated, hid]; exact Finset.mem_singleton_self _)
    · obtain ⟨hstatus, hreference⟩ := h node hnode hid
      exact Or.inr (Or.inr ⟨node, hnode, rfl, issue_eq_send_iff.mpr ⟨hstatus, hid, hreference⟩⟩)

theorem values_ne_nil (h : self ∈ nodes) : nodes.values ≠ [] := by
  obtain ⟨node, hnode⟩ := Option.isSome_iff_exists.mp (AList.lookup_isSome.mpr h)
  exact List.ne_nil_of_mem (List.mem_map_of_mem (AList.mem_lookup_iff.mp hnode))

/-- Nodes with ids in a set are no more than the set has elements. -/
theorem length_filter_le_card (hnodup : (nodes.values.map NodeState.id).Nodup)
    {p : NodeState → Bool} {ids : Finset String}
    (h : ∀ node ∈ nodes.values, p node = true → node.id ∈ ids) :
    (nodes.values.filter p).length ≤ ids.card := by
  have hsub : ((nodes.values.filter p).map NodeState.id).Nodup :=
    hnodup.sublist (List.filter_sublist.map _)
  rw [← List.length_map NodeState.id, ← List.toFinset_card_of_nodup hsub]
  refine Finset.card_le_card fun id hid => ?_
  obtain ⟨node, hnode, rfl⟩ := List.mem_map.mp (List.mem_toFinset.mp hid)
  obtain ⟨hmem, hp⟩ := List.mem_filter.mp hnode
  exact h node hmem hp

/-- With few failures, those that have handled the request are a majority. -/
theorem majority_of_covers {acc : GroupUpdate} (hnodup : (nodes.values.map NodeState.id).Nodup)
    (hne : nodes.values ≠ []) (h : Covers cluster bd self nodes acc [])
    (hok : outcome nodes acc = .ok ()) : Majority bd nodes acc := by
  obtain ⟨hquorum, failed, hcard, hcover⟩ := h
  have hfailures : acc.failures ≤ failureThreshold nodes := by
    unfold outcome at hok
    split_ifs at hok with hlt
    exact not_lt.mp hlt
  have hrest : (nodes.values.filter fun node => !(decide (node.id ∈ acc.updated))).length ≤
      failed.card := by
    refine length_filter_le_card hnodup fun node hnode hnot => ?_
    rcases hcover node hnode with h | h | ⟨x, hx, -⟩
    · simp [h] at hnot
    · exact h
    · cases hx
  have htotal := List.length_eq_length_filter_add (l := nodes.values)
    fun node => decide (node.id ∈ acc.updated)
  have hpos := List.length_pos_iff.mpr hne
  refine ⟨?_, hquorum⟩
  rw [length_values] at htotal hpos
  unfold failureThreshold at hfailures
  omega

theorem updatesMajority_of_reachable (hkeyed : (groups self).nodes.Keyed)
    (hself : self ∈ (groups self).nodes) (h : Reachable self (groups self).nodes) :
    UpdatesMajority cluster bd self groups := by
  intro p hp
  have hne := values_ne_nil hself
  obtain ⟨lost, haccounting⟩ :=
    hp.accounting rule_covers hne (covers_startUpdate cluster bd hself h)
  refine ⟨haccounting.ends_length_le, haccounting.ends_ne_nil, fun hends => ?_, ?_⟩
  · obtain ⟨e, he⟩ := List.exists_mem_of_ne_nil _ hends
    cases e with
    | counted acc => exact (haccounting.counted he).1
    | thrown =>
        obtain ⟨-, node, hnode, hthrow⟩ := haccounting.thrown he
        obtain ⟨-, hid, hreference⟩ := issue_eq_throw_iff.mp hthrow
        exact absurd hreference (h node hnode hid).2
  · intro acc hacc hok
    exact majority_of_covers cluster bd (nodup_ids hkeyed) hne (haccounting.counted hacc).2.2.1 hok

end Sufficient

/-! ## A group with a node that is not available -/

section Necessary

variable (cluster : Cluster) (bd : UpdateQuorumRequest) {self : String}

/-- Every node stays in its own group. -/
theorem mem_handleAt {acc : GroupUpdate} (h : ∀ id, id ∈ (acc.groups id).nodes) (i id : String) :
    id ∈ ((handleAt cluster bd acc i).groups id).nodes := by
  obtain ⟨s, ⟨node, hnode, -⟩, heq⟩ := handleAt_of_mem cluster bd (h i)
  rw [heq]
  by_cases hid : id = i
  · subst hid
    refine AList.lookup_isSome.mp ?_
    simp [hnode]
  · show id ∈ (Function.update acc.groups i s id).nodes
    rw [Function.update_of_ne hid]
    exact h id

/-- A node whose request is lost if it is `bad`, and what it leaves for the others. -/
theorem serve_bad_one (bad : NodeState → Bool) {acc : GroupUpdate} {x : NodeState}
    (hgroups : ∀ id, id ∈ (acc.groups id).nodes)
    (hx : (updateGroup cluster bd self).issue x ≠ .throw) :
    ∃ acc', (updateGroup cluster bd self).serve (fun x => (!bad x, bad x)) acc x = some acc' ∧
      (∀ id, id ∈ (acc'.groups id).nodes) ∧
      acc'.failures = acc.failures +
        (if (updateGroup cluster bd self).issue x = .send ∧ bad x = true then 1 else 0) ∧
      ∀ id ∈ acc'.updated, id ∈ acc.updated ∨
        (updateGroup cluster bd self).issue x = .send ∧ bad x = false ∧ x.id = id := by
  cases hissue : (updateGroup cluster bd self).issue x with
  | throw => exact absurd hissue hx
  | inline =>
      refine ⟨acc, ?_, hgroups, by simp, fun _ h => Or.inl h⟩
      simp [FanOut.serve, hissue]
  | send =>
      cases hbad : bad x with
      | true =>
          refine ⟨{ acc with failures := acc.failures + 1 }, ?_, hgroups, by simp,
            fun _ h => Or.inl h⟩
          simp only [FanOut.serve, hissue, hbad]
          rfl
      | false =>
          obtain ⟨s, -, heq⟩ := handleAt_of_mem cluster bd (hgroups x.id)
          refine ⟨handleAt cluster bd acc x.id, ?_, mem_handleAt cluster bd hgroups x.id, ?_, ?_⟩
          · simp only [FanOut.serve, hissue, hbad]
            show (if x.id ∈ (handleAt cluster bd acc x.id).updated then _ else _) = _
            rw [if_pos (by rw [heq]; exact Finset.mem_insert_self _ _)]
            rfl
          · rw [heq]
            simp
          · intro id hid
            rw [heq] at hid
            rcases Finset.mem_insert.mp hid with rfl | hid
            · exact Or.inr ⟨rfl, rfl, rfl⟩
            · exact Or.inl hid

/-- A run in which the requests to the `bad` nodes are lost. -/
theorem serve_bad (bad : NodeState → Bool) : ∀ (xs : List NodeState) (acc : GroupUpdate),
    (∀ id, id ∈ (acc.groups id).nodes) →
    (∀ x ∈ xs, (updateGroup cluster bd self).issue x ≠ .throw) →
    ∃ acc', xs.foldlM ((updateGroup cluster bd self).serve fun x => (!bad x, bad x)) acc = some acc' ∧
      acc'.failures = acc.failures +
        (xs.filter fun x => (updateGroup cluster bd self).issue x = .send && bad x).length ∧
      ∀ id ∈ acc'.updated, id ∈ acc.updated ∨
        ∃ x ∈ xs, (updateGroup cluster bd self).issue x = .send ∧ bad x = false ∧ x.id = id
  | [], acc, _, _ => ⟨acc, rfl, rfl, fun _ h => Or.inl h⟩
  | x :: xs, acc, hgroups, hthrow => by
      obtain ⟨hx, hxs⟩ := List.forall_mem_cons.mp hthrow
      obtain ⟨acc₁, hserve, hgroups₁, hfailures₁, hupdated₁⟩ :=
        serve_bad_one cluster bd bad hgroups hx
      obtain ⟨acc', hrun, hfailures, hupdated⟩ := serve_bad bad xs acc₁ hgroups₁ hxs
      refine ⟨acc', ?_, ?_, fun id hid => ?_⟩
      · rw [List.foldlM_cons, hserve]
        exact hrun
      · rw [hfailures, hfailures₁, List.filter_cons]
        by_cases hbad : (updateGroup cluster bd self).issue x = .send ∧ bad x = true
        · rw [if_pos hbad, if_pos (by simp [hbad]), List.length_cons]
          omega
        · rw [if_neg hbad, if_neg (by simpa using hbad)]
          omega
      · rcases hupdated id hid with h | ⟨y, hy, h⟩
        · rcases hupdated₁ id h with h | h
          · exact Or.inl h
          · exact Or.inr ⟨x, List.mem_cons_self, h⟩
        · exact Or.inr ⟨y, List.mem_cons_of_mem _ hy, h⟩

variable {bd cluster} {nodes : Nodes}

/-- The ids of the nodes that are asked. -/
def askedIds (self : String) (nodes : Nodes) : Finset String :=
  ((nodes.values.filter fun node => node.isAvailable self).map NodeState.id).toFinset

/-- Beside the node itself, one that is not available is not asked either. -/
theorem card_askedIds (hkeyed : nodes.Keyed) (hself : self ∈ nodes) {node : NodeState}
    (hnode : node ∈ nodes.values) (hid : node.id ≠ self) (hstatus : node.status ≠ .available) :
    (askedIds self nodes).card + 2 ≤ nodes.entries.length := by
  have hasked : ∀ {id}, id ∈ askedIds self nodes →
      ∃ x, nodes.lookup id = some x ∧ x.status = .available ∧ id ≠ self := by
    intro id h
    obtain ⟨x, hx, rfl⟩ := List.mem_map.mp (List.mem_toFinset.mp h)
    obtain ⟨hmem, havailable⟩ := List.mem_filter.mp hx
    have hboth : x.status = .available ∧ x.id ≠ self := by
      simpa [NodeState.isAvailable] using havailable
    exact ⟨x, (mem_values hkeyed).mp hmem, hboth⟩
  have hnotAsked : node.id ∉ askedIds self nodes := by
    intro h
    obtain ⟨x, hx, havailable, -⟩ := hasked h
    obtain rfl := Option.some.inj (hx.symm.trans ((mem_values hkeyed).mp hnode))
    exact hstatus havailable
  have hselfNotAsked : self ∉ insert node.id (askedIds self nodes) := by
    intro h
    rcases Finset.mem_insert.mp h with h | h
    · exact hid h.symm
    · obtain ⟨-, -, -, hne⟩ := hasked h
      exact hne rfl
  have hsub : insert self (insert node.id (askedIds self nodes)) ⊆
      nodes.keys.toFinset := by
    intro id h
    rw [List.mem_toFinset, ← AList.mem_keys]
    rcases Finset.mem_insert.mp h with rfl | h
    · exact hself
    · refine AList.lookup_isSome.mp ?_
      rcases Finset.mem_insert.mp h with rfl | h
      · rw [(mem_values hkeyed).mp hnode]
        rfl
      · obtain ⟨x, hx, -⟩ := hasked h
        rw [hx]
        rfl
  have hcard := Finset.card_le_card hsub
  have hlength : nodes.keys.length = nodes.entries.length := by
    simp [AList.keys, List.keys]
  rw [Finset.card_insert_of_notMem hselfNotAsked, Finset.card_insert_of_notMem hnotAsked,
    List.toFinset_card_of_nodup nodes.keys_nodup, hlength] at hcard
  exact hcard

/-- A group of one node. -/
def NodeGroupState.alone (id : String) : NodeGroupState :=
  { NodeGroupState.new with nodes := AList.insert id (.new id) ∅ }

/-- Half of the nodes at most have handled the request, and it succeeds: as many requests are lost
as may fail. -/
theorem not_updatesMajority {s : NodeGroupState} (hkeyed : s.nodes.Keyed) (hself : self ∈ s.nodes)
    (hthrow : ∀ x ∈ s.nodes.values, (updateGroup cluster bd self).issue x ≠ .throw)
    {node : NodeState} (hnode : node ∈ s.nodes.values) (hid : node.id ≠ self)
    (hstatus : node.status ≠ .available) :
    ¬ UpdatesMajority cluster bd self (Function.update .alone self s) := by
  intro h
  have hs : Function.update NodeGroupState.alone self s self = s := Function.update_self _ _ _
  have hmem : ∀ id, id ∈ (Function.update NodeGroupState.alone self s id).nodes := by
    intro id
    by_cases hid : id = self
    · rw [hid, hs]
      exact hself
    · rw [Function.update_of_ne hid]
      exact (AList.mem_insert _).mpr (Or.inl rfl)
  have hcard := card_askedIds hkeyed hself hnode hid hstatus
  obtain ⟨lost, hsub, hlost⟩ := Finset.exists_subset_card_eq
    (Nat.min_le_left (askedIds self s.nodes).card (failureThreshold s.nodes))
  obtain ⟨hfailures₀, hupdated₀, -, -⟩ :=
    startUpdate_spec cluster bd (Function.update NodeGroupState.alone self s) (hs.symm ▸ hself)
  obtain ⟨acc, hrun, hfailures, hupdated⟩ := serve_bad cluster bd
    (fun x => decide (x.id ∈ lost)) s.nodes.values
    (startUpdate cluster bd (Function.update .alone self s) self)
    (mem_handleAt cluster bd hmem self) hthrow
  rw [hfailures₀, Nat.zero_add] at hfailures
  have hbad : (s.nodes.values.filter fun x => (updateGroup cluster bd self).issue x = .send &&
      decide (x.id ∈ lost)).length ≤ lost.card :=
    length_filter_le_card (nodup_ids hkeyed) fun x _ hx => by simpa using (Bool.and_eq_true_iff.mp hx).2
  -- the others, and the node itself, have handled the request
  have hgood : (s.nodes.values.filter fun x => x.id ∈ acc.updated).length ≤
      (insert self (askedIds self s.nodes \ lost)).card := by
    refine length_filter_le_card (nodup_ids hkeyed) fun x _ hx => ?_
    rcases hupdated x.id (of_decide_eq_true hx) with h | ⟨y, hy, hsend, hkept, hyid⟩
    · rw [hupdated₀, Finset.mem_singleton] at h
      rw [h]
      exact Finset.mem_insert_self _ _
    · obtain ⟨havailable, hne, -⟩ := issue_eq_send_iff.mp hsend
      rw [← hyid]
      refine Finset.mem_insert_of_mem (Finset.mem_sdiff.mpr ⟨?_, of_decide_eq_false hkept⟩)
      refine List.mem_toFinset.mpr (List.mem_map_of_mem (List.mem_filter.mpr ⟨hy, ?_⟩))
      simp [NodeState.isAvailable, havailable, hne]
  have hgoodCard := hgood.trans (Finset.card_insert_le _ _)
  rw [Finset.card_sdiff_of_subset hsub] at hgoodCard
  obtain ⟨p, hp, -, hends⟩ := (FanOut.reaches_start _).serve
    (fun x : NodeState => (!decide (x.id ∈ lost), decide (x.id ∈ lost))) rfl rfl hrun
  have hcounted := hends (List.ne_nil_of_mem hnode)
  unfold UpdatesMajority at h
  rw [hs] at h
  obtain ⟨-, -, -, hmajority⟩ := h p hp
  have hok : outcome s.nodes acc = .ok () := by
    unfold outcome
    rw [if_neg]
    omega
  obtain ⟨hmore, -⟩ := hmajority acc (by simp [hcounted]) hok
  unfold failureThreshold at hlost
  omega

theorem reachable_of_updatesMajority {s : NodeGroupState} (hkeyed : s.nodes.Keyed)
    (hself : self ∈ s.nodes)
    (h : ∀ groups, groups self = s → UpdatesMajority cluster bd self groups) :
    Reachable self s.nodes := by
  have hs : Function.update NodeGroupState.alone self s self = s := Function.update_self _ _ _
  have hthrow : ∀ x ∈ s.nodes.values, (updateGroup cluster bd self).issue x ≠ .throw := by
    intro x hx hthrow
    have hupdate := h _ hs
    unfold UpdatesMajority at hupdate
    rw [hs] at hupdate
    obtain ⟨p, hp, hends⟩ := (FanOut.reaches_start _).throw ⟨x, hx, hthrow⟩
    obtain ⟨-, -, hsettled, -⟩ := hupdate p hp
    obtain ⟨lost, haccounting⟩ := hp.accounting (FanOut.rule_true _) (List.ne_nil_of_mem hx) trivial
    exact (haccounting.thrown hends).1 (hsettled (List.ne_nil_of_mem hends))
  intro node hnode hid
  have hstatus : node.status = .available := by
    by_contra hstatus
    exact not_updatesMajority hkeyed hself hthrow hnode hid hstatus (h _ hs)
  refine ⟨hstatus, fun hreference => ?_⟩
  exact hthrow node hnode (issue_eq_throw_iff.mpr ⟨hstatus, hid, hreference⟩)

end Necessary

/-- **Updating the quorum of a group.** Whatever the peers hold, however they answer and in whatever
order, the PATCH is completed once, when every node is accounted for, and with success only if a
majority has the quorum, exactly if every other node of the group is available and can be
reached. -/
theorem group_update_iff (cluster : Cluster) (bd : UpdateQuorumRequest) (self : String)
    (s : NodeGroupState) (hkeyed : s.nodes.Keyed) (hself : self ∈ s.nodes) :
    (∀ groups, groups self = s → UpdatesMajority cluster bd self groups) ↔
      Reachable self s.nodes := by
  constructor
  · exact reachable_of_updatesMajority hkeyed hself
  · rintro h groups rfl
    exact updatesMajority_of_reachable cluster bd hkeyed hself h

/-! ## A group of three -/

def member (id : String) (status : NodeStatus) : NodeState :=
  { NodeState.new id with
    groupReference := some id
    status := status }

/-- The host `a`, with two peers of the status given. -/
def groupOfThree (status : NodeStatus) : NodeGroupState :=
  { NodeGroupState.new with
    nodes := ⟨[⟨"a", member "a" .available⟩, ⟨"b", member "b" status⟩, ⟨"c", member "c" status⟩],
      by simp [List.NodupKeys, List.keys]⟩ }

theorem keyed_groupOfThree (status : NodeStatus) : (groupOfThree status).nodes.Keyed := by
  intro key c hc
  have hmem : (⟨key, c⟩ : Sigma fun _ : String => NodeState) ∈ (groupOfThree status).nodes.entries :=
    AList.mem_lookup_iff.mp hc
  simp only [groupOfThree, List.mem_cons, List.not_mem_nil, or_false] at hmem
  obtain h | h | h := hmem <;> (cases h; rfl)

/-- A host for every id, at time one. -/
def Cluster.atOne : Cluster where
  host := fun id => ⟨id, id, 0, 0, 0, fun _ => false⟩
  host_id := fun _ => rfl
  clock := fun _ => ⟨1, fun _ => 1⟩

theorem group_update_available :
    UpdatesMajority .atOne ⟨true, some 2, none⟩ "a"
      (Function.update .alone "a" (groupOfThree .available)) := by
  refine (group_update_iff .atOne ⟨true, some 2, none⟩ "a" (groupOfThree .available)
    (keyed_groupOfThree _) (by decide)).mpr ?_ _ (Function.update_self _ _ _)
  intro node hnode hid
  simp only [groupOfThree, Nodes.values, List.map_cons, List.map_nil, List.mem_cons,
    List.not_mem_nil, or_false] at hnode
  obtain rfl | rfl | rfl := hnode
  · exact absurd rfl hid
  · exact ⟨rfl, by simp [member]⟩
  · exact ⟨rfl, by simp [member]⟩

/-- Both peers are gone, and the update of the group succeeds on one node of three. -/
theorem update_succeeds_alone : ¬ ∀ (cluster : Cluster) (bd : UpdateQuorumRequest) (self : String)
    (groups : String → NodeGroupState), (groups self).nodes.Keyed → self ∈ (groups self).nodes →
      UpdatesMajority cluster bd self groups := by
  intro h
  have hs : Function.update NodeGroupState.alone "a" (groupOfThree .unavailable) "a" =
      groupOfThree .unavailable := Function.update_self _ _ _
  have hmem : member "b" .unavailable ∈ (groupOfThree .unavailable).nodes.values :=
    List.mem_cons_of_mem _ List.mem_cons_self
  refine not_updatesMajority (keyed_groupOfThree .unavailable) (by decide) ?_ hmem (by decide)
    (by decide) (h .atOne ⟨true, some 2, none⟩ "a" _ (hs ▸ keyed_groupOfThree _) (hs ▸ by decide))
  intro node hnode
  simp only [groupOfThree, Nodes.values, List.map_cons, List.map_nil, List.mem_cons,
    List.not_mem_nil, or_false] at hnode
  obtain rfl | rfl | rfl := hnode <;> decide

end Xenon.NodeGroup
