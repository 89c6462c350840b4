import Xenon.Common.FNVHash
import Xenon.Foundation.SortedMap
import Xenon.NodeGroup.State

/-!
# Selecting the owner of a key

`ConsistentHashingNodeSelectorService.selectNodes`: of the nodes of a group that
are available, those whose hashes are closest to that of the key, and the closest
one as the owner. The distance is the square of a difference of longs, modulo
`2 ^ 64`, so two nodes may be equally far; the map `ClosestNNeighbours` then keeps
the one that it sees last.

The hash is a parameter (it is `FNVHash.compute` in the code), and so is the order in
which the map of the nodes is enumerated: it is that of the list.
-/

namespace Xenon.NodeSelector

open Xenon.Common Xenon.Foundation Xenon.NodeGroup

/-! ## The code -/

inductive Failure where
  | nullPointer
  /-- `lastKey()` of an empty map. -/
  | noSuchElement
deriving DecidableEq

/-- The entries of `ClosestNNeighbours`, which `Long::compare` orders. -/
abbrev Neighbours := SortedMap Int NodeState

/-- `ClosestNNeighbours.put`. -/
def put (maxN : Int32) (closest : Neighbours) (key : Int) (value : NodeState) :
    Except Failure Neighbours :=
  if (closest.entries.length : Int) < maxN.toInt then .ok (closest.insert key value)
  else
    match closest.lastKey with
    | none => .error .noSuchElement
    | some lastKey =>
        -- only attempt to write if new key can displace one of the top N entries
        if key ≤ lastKey then
          if closest.containsKey key then .ok (closest.insert key value)
          else .ok (closest.insert key value).removeLast
        else .ok closest

/-- `NodeState.isUnAvailable(ns)`, which excludes the observers. -/
def isUnAvailable (ns : NodeState) : Bool := ns.isUnAvailable || .observer ∈ ns.options

/-- The nodes that the loop looks at. -/
def availableNodes (nodes : Nodes) : List NodeState :=
  nodes.values.filter fun m => !isUnAvailable m

/-- `NodeSelectorService.SelectOwnerResponse`. -/
structure SelectOwnerResponse where
  key : String
  ownerNodeId : String
  ownerNodeGroupReference : Option String
  isLocalHostOwner : Bool
  availableNodeCount : Nat
  selectedNodes : List NodeState
  membershipUpdateTimeMicros : Int64

/-- What a node selector reads besides the group: the id of its host, the hash of
strings, and `replicationFactor`, which may be missing. -/
structure Selector where
  hostId : String
  hash : String → Int64 := FNVHash.compute
  replicationFactor : Option Int32

namespace Selector

variable (sel : Selector)

def neighbourCount : Int32 := sel.replicationFactor.getD 1

/-- The squared difference between the hashes of the key and of a node. The least
long is its own absolute value. -/
def distance (key id : String) : Int64 :=
  let distance := sel.hash id - sel.hash key
  (distance * distance).abs

/-- The loop of `selectNodes`. -/
def closestNodes (key : String) (nodes : List NodeState) : Except Failure Neighbours :=
  nodes.foldlM (fun closest m => put sel.neighbourCount closest (sel.distance key m.id).toInt m)
    SortedMap.empty

def selectNodes (key : String) (localState : NodeGroupState) :
    Except Failure SelectOwnerResponse :=
  if localState.nodes.entries.length = 1 then
    match localState.nodes.lookup sel.hostId with
    | none => .error .nullPointer
    | some self =>
        .ok {
          key := key
          ownerNodeId := self.id
          isLocalHostOwner := true
          ownerNodeGroupReference := self.groupReference
          selectedNodes := localState.nodes.values
          membershipUpdateTimeMicros := localState.membershipUpdateTimeMicros
          availableNodeCount := 1 }
  else do
    let closest ← sel.closestNodes key (availableNodes localState.nodes)
    match closest.firstEntry with
    | none => .error .nullPointer
    | some (_, node) =>
        .ok {
          key := key
          ownerNodeId := node.id
          isLocalHostOwner := node.id = sel.hostId
          ownerNodeGroupReference := node.groupReference
          selectedNodes := closest.values
          membershipUpdateTimeMicros := localState.membershipUpdateTimeMicros
          availableNodeCount := (availableNodes localState.nodes).length }

end Selector

/-! ## What the loop computes -/

namespace Selector

variable (sel : Selector)

/-- The distances as the map compares them. -/
def distances (key id : String) : Int := (sel.distance key id).toInt

/-- `neighbourCount` as a number of entries. -/
def limit : Nat := sel.neighbourCount.toInt.toNat

/-- The map of all nodes, cut off at the limit. -/
def closest (key : String) (nodes : List NodeState) : Neighbours :=
  (SortedMap.ofList (fun m => sel.distances key m.id) nodes).take sel.limit

end Selector

section Loop

variable {maxN : Int32} {closest : Neighbours} {key : Int} {value : NodeState}

/-- The bounded map is the unbounded one, cut off. -/
theorem put_eq (hn : 1 ≤ maxN.toInt) (hlen : (closest.entries.length : Int) ≤ maxN.toInt) :
    put maxN closest key value = .ok ((closest.insert key value).take maxN.toInt.toNat) := by
  have hlength : (closest.insert key value).entries.length =
      if closest.containsKey key then closest.entries.length else closest.entries.length + 1 :=
    SortedMap.length_insert
  unfold put
  by_cases hsize : (closest.entries.length : Int) < maxN.toInt
  · rw [if_pos hsize, SortedMap.take_of_length_le]
    split_ifs at hlength <;> omega
  · have hfull : maxN.toInt.toNat = closest.entries.length := by omega
    rw [if_neg hsize, hfull]
    cases hlast : closest.lastKey with
    | none =>
        rw [SortedMap.lastKey_eq_none.mp hlast, List.length_nil] at hfull
        omega
    | some lastKey =>
        dsimp only
        split_ifs with hle hcontains
        · rw [if_pos hcontains] at hlength
          rw [SortedMap.take_of_length_le hlength.le]
        · rw [if_neg hcontains] at hlength
          rw [SortedMap.removeLast_eq_take, hlength, Nat.add_sub_cancel]
        · rw [SortedMap.take_insert_of_lastKey_lt hlast (not_le.mp hle)]

/-- Calls of `put` on an empty map, one after the other. -/
def putAll (maxN : Int32) (puts : List (Int × NodeState)) : Except Failure Neighbours :=
  puts.foldlM (fun closest p => put maxN closest p.1 p.2) SortedMap.empty

theorem putAll_eq (hn : 1 ≤ maxN.toInt) (puts : List (Int × NodeState)) :
    putAll maxN puts = .ok ((SortedMap.ofPairs puts).take maxN.toInt.toNat) := by
  induction puts using List.reverseRecOn with
  | nil =>
      have hempty : (SortedMap.empty : Neighbours).take maxN.toInt.toNat = SortedMap.empty :=
        SortedMap.take_of_length_le (Nat.zero_le _)
      exact congrArg Except.ok hempty.symm
  | append_singleton puts p ih =>
      have hlen : (((SortedMap.ofPairs puts).take maxN.toInt.toNat).entries.length : Int) ≤
          maxN.toInt := by
        show ((List.take _ _).length : Int) ≤ _
        rw [List.length_take]
        omega
      unfold putAll at ih ⊢
      rw [List.foldlM_append, ih]
      show List.foldlM (fun closest p => put maxN closest p.1 p.2)
        ((SortedMap.ofPairs puts).take maxN.toInt.toNat) [p] = _
      rw [List.foldlM_cons, put_eq hn hlen, SortedMap.take_insert_take, SortedMap.ofPairs_snoc]
      rfl

theorem closestNodes_eq {sel : Selector} {key : String} (hn : 1 ≤ sel.neighbourCount.toInt)
    (nodes : List NodeState) : sel.closestNodes key nodes = .ok (sel.closest key nodes) := by
  have hputs : sel.closestNodes key nodes = putAll sel.neighbourCount
      (nodes.map fun m => ((sel.distance key m.id).toInt, m)) := by
    rw [putAll, List.foldlM_map]
    rfl
  rw [hputs, putAll_eq hn, Selector.closest, SortedMap.ofList_eq]
  rfl

/-- Without room for an entry the first node is one too many. -/
theorem closestNodes_cons_of_lt {sel : Selector} {key : String}
    (hn : sel.neighbourCount.toInt < 1) (m : NodeState) (nodes : List NodeState) :
    sel.closestNodes key (m :: nodes) = .error .noSuchElement := by
  have hsize : ¬ (((SortedMap.empty : Neighbours).entries.length : Int) <
      sel.neighbourCount.toInt) := by
    show ¬ (((0 : Nat) : Int) < _)
    omega
  unfold Selector.closestNodes
  rw [List.foldlM_cons, put, if_neg hsize]
  rfl

end Loop

/-! ## The nodes of a group -/

/-- What two hosts agree on about a node. -/
def view (c : NodeState) : String × NodeStatus × Finset NodeOption := (c.id, c.status, c.options)

/-- Two maps hold the same nodes, in whatever order. -/
def SameMembers (nodes nodes' : Nodes) : Prop :=
  ∀ id, (nodes.lookup id).map view = (nodes'.lookup id).map view

/-- The ids of the nodes that are available. -/
def availableIds (nodes : Nodes) : Finset String := ((availableNodes nodes).map NodeState.id).toFinset

section Members

variable {nodes nodes' : Nodes} {a : String} {c : NodeState}

theorem mem_availableNodes (hkeyed : nodes.Keyed) : c ∈ availableNodes nodes ↔
    nodes.lookup c.id = some c ∧ isUnAvailable c = false := by
  unfold availableNodes
  rw [List.mem_filter, mem_values hkeyed, Bool.not_eq_true']

theorem mem_availableIds (hkeyed : nodes.Keyed) : a ∈ availableIds nodes ↔
    ∃ c, nodes.lookup a = some c ∧ isUnAvailable c = false := by
  simp only [availableIds, List.mem_toFinset, List.mem_map, mem_availableNodes hkeyed]
  constructor
  · rintro ⟨c, h, rfl⟩
    exact ⟨c, h⟩
  · rintro ⟨c, hlookup, h⟩
    have hid := hkeyed a c hlookup
    exact ⟨c, ⟨by rw [hid, hlookup], h⟩, hid⟩

theorem length_availableNodes (hkeyed : nodes.Keyed) :
    (availableNodes nodes).length = (availableIds nodes).card := by
  have hnodup : ((availableNodes nodes).map NodeState.id).Nodup :=
    (nodup_ids hkeyed).sublist (List.filter_sublist.map _)
  rw [availableIds, List.toFinset_card_of_nodup hnodup, List.length_map]

theorem SameMembers.symm (h : SameMembers nodes nodes') : SameMembers nodes' nodes :=
  fun id => (h id).symm

/-- An entry of one map has its like in the other. -/
theorem SameMembers.lookup (h : SameMembers nodes nodes') (hc : nodes.lookup a = some c) :
    ∃ c', nodes'.lookup a = some c' ∧ view c' = view c := by
  have ha := h a
  rw [hc] at ha
  obtain ⟨c', hc', hview⟩ := Option.map_eq_some_iff.mp ha.symm
  exact ⟨c', hc', hview⟩

theorem SameMembers.keyed (h : SameMembers nodes nodes') (hkeyed : nodes.Keyed) :
    nodes'.Keyed := by
  intro key c hc
  obtain ⟨c', hc', hview⟩ := h.symm.lookup hc
  rw [← hkeyed key c' hc']
  exact (congrArg Prod.fst hview).symm

theorem isUnAvailable_of_view {c' : NodeState} (h : view c' = view c) :
    isUnAvailable c' = isUnAvailable c := by
  obtain ⟨-, hstatus, hoptions⟩ : c'.id = c.id ∧ c'.status = c.status ∧ c'.options = c.options := by
    simpa [view] using h
  simp [isUnAvailable, NodeState.isUnAvailable, hstatus, hoptions]

theorem SameMembers.availableIds (h : SameMembers nodes nodes') (hkeyed : nodes.Keyed) :
    availableIds nodes' = availableIds nodes := by
  ext a
  rw [mem_availableIds hkeyed, mem_availableIds (h.keyed hkeyed)]
  constructor
  · rintro ⟨c, hc, havailable⟩
    obtain ⟨c', hc', hview⟩ := h.symm.lookup hc
    exact ⟨c', hc', (isUnAvailable_of_view hview).trans havailable⟩
  · rintro ⟨c, hc, havailable⟩
    obtain ⟨c', hc', hview⟩ := h.lookup hc
    exact ⟨c', hc', (isUnAvailable_of_view hview).trans havailable⟩

theorem SameMembers.mem_iff (h : SameMembers nodes nodes') (a : String) :
    a ∈ nodes ↔ a ∈ nodes' := by
  rw [← AList.lookup_isSome, ← AList.lookup_isSome, ← Option.isSome_map (f := view),
    ← Option.isSome_map (f := view), h a]

theorem SameMembers.length (h : SameMembers nodes nodes') :
    nodes'.entries.length = nodes.entries.length := by
  have hkeys : nodes'.keys.Perm nodes.keys :=
    (List.perm_ext_iff_of_nodup nodes'.keys_nodup nodes.keys_nodup).mpr fun a =>
      (h.mem_iff a).symm
  simpa [AList.keys, List.keys] using hkeys.length_eq

end Members

/-! ## What a selection is

In terms of the ids alone: `D` are the distances, `C` the available nodes. -/

/-- The selected ids have the `n` least distances, one for each, and the owner has the
least of all. -/
structure IsSelection (n : Nat) (D : String → Int) (C : Finset String) (ids : List String)
    (owner : String) : Prop where
  mem : ∀ a ∈ ids, a ∈ C ∧ D a ∈ leastKeys n (C.image D)
  covers : ∀ k ∈ leastKeys n (C.image D), ∃ a ∈ ids, D a = k
  one : ∀ a ∈ ids, ∀ b ∈ ids, D a = D b → a = b
  length : ids.length = min n (C.image D).card
  owner_mem : owner ∈ ids
  owner_le : ∀ c ∈ C, D owner ≤ D c

def SelectOwnerResponse.selectedIds (r : SelectOwnerResponse) : List String :=
  r.selectedNodes.map NodeState.id

section Selections

variable {sel : Selector} {key : String} {s : NodeGroupState} {r : SelectOwnerResponse}

theorem keys_availableNodes (D : String → Int) (nodes : Nodes) :
    (SortedMap.ofList (fun m : NodeState => D m.id) (availableNodes nodes)).keys =
      (availableIds nodes).image D := by
  ext k
  simp only [SortedMap.mem_keys_ofList, Finset.mem_image, availableIds, List.mem_toFinset,
    List.mem_map]
  constructor
  · rintro ⟨m, hm, rfl⟩
    exact ⟨m.id, ⟨m, hm, rfl⟩, rfl⟩
  · rintro ⟨_, ⟨m, hm, rfl⟩, rfl⟩
    exact ⟨m, hm, rfl⟩

/-- The first `n` entries of the map of all available nodes are a selection. -/
theorem isSelection_take {n : Nat} {D : String → Int} {nodes : Nodes} {p : Int × NodeState}
    (hfirst : ((SortedMap.ofList (fun m : NodeState => D m.id)
      (availableNodes nodes)).take n).firstEntry = some p) :
    IsSelection n D (availableIds nodes) (((SortedMap.ofList (fun m : NodeState => D m.id)
      (availableNodes nodes)).take n).values.map NodeState.id) p.2.id := by
  have hkeys := keys_availableNodes D nodes
  have hvalue : ∀ {q : Int × NodeState}, q ∈ ((SortedMap.ofList (fun m : NodeState => D m.id)
      (availableNodes nodes)).take n).entries → q.2 ∈ availableNodes nodes ∧ q.1 = D q.2.id ∧
        q.1 ∈ leastKeys n ((availableIds nodes).image D) := by
    intro q hq
    obtain ⟨hmem, hleast⟩ := SortedMap.mem_take.mp hq
    rw [hkeys] at hleast
    obtain ⟨hnode, hkey⟩ := SortedMap.mem_of_mem_ofList hmem
    exact ⟨hnode, hkey, hleast⟩
  have hid : ∀ {a : String}, a ∈ ((SortedMap.ofList (fun m : NodeState => D m.id)
      (availableNodes nodes)).take n).values.map NodeState.id ↔
        ∃ q ∈ ((SortedMap.ofList (fun m : NodeState => D m.id)
          (availableNodes nodes)).take n).entries, q.2.id = a := by
    simp [SortedMap.values]
  obtain ⟨hpmem, hpleast⟩ := SortedMap.mem_firstEntry hfirst
  refine ⟨?_, ?_, ?_, ?_, hid.mpr ⟨p, hpmem, rfl⟩, ?_⟩
  · intro a ha
    obtain ⟨q, hq, rfl⟩ := hid.mp ha
    obtain ⟨hnode, hkey, hleast⟩ := hvalue hq
    exact ⟨List.mem_toFinset.mpr (List.mem_map_of_mem hnode), hkey ▸ hleast⟩
  · intro k hk
    obtain ⟨v, hv⟩ := SortedMap.mem_keys.mp (hkeys ▸ (mem_leastKeys.mp hk).1)
    have hq := SortedMap.mem_take.mpr ⟨hv, hkeys.symm ▸ hk⟩
    exact ⟨v.id, hid.mpr ⟨_, hq, rfl⟩, (hvalue hq).2.1.symm⟩
  · intro a ha b hb hD
    obtain ⟨q, hq, rfl⟩ := hid.mp ha
    obtain ⟨q', hq', rfl⟩ := hid.mp hb
    rw [← (hvalue hq).2.1, ← (hvalue hq').2.1] at hD
    rw [SortedMap.eq_of_key hq hq' hD]
  · rw [← hkeys, SortedMap.card_keys, List.length_map, SortedMap.values, List.length_map]
    exact List.length_take
  · intro c hc
    rw [← (hvalue hpmem).2.1]
    by_cases hleast : D c ∈ leastKeys n ((availableIds nodes).image D)
    · obtain ⟨v, hv⟩ := SortedMap.mem_keys.mp
        (hkeys ▸ Finset.mem_image_of_mem D hc : D c ∈ (SortedMap.ofList _ _).keys)
      exact hpleast _ (SortedMap.mem_keys.mpr
        ⟨v, SortedMap.mem_take.mpr ⟨hv, hkeys.symm ▸ hleast⟩⟩)
    · -- what is not among the least is not below one of them
      by_contra hlt
      exact hleast (leastKeys_of_le (hvalue hpmem).2.2 (Finset.mem_image_of_mem D hc)
        (not_le.mp hlt).le)

/-- A group of several nodes: the response is a selection if any node is available. -/
theorem selectNodes_spec (key : String) (hsize : s.nodes.entries.length ≠ 1)
    (hn : 1 ≤ sel.neighbourCount.toInt) (hne : availableNodes s.nodes ≠ []) :
    ∃ r, sel.selectNodes key s = .ok r ∧
      r.selectedNodes = (sel.closest key (availableNodes s.nodes)).values ∧
        IsSelection sel.limit (sel.distances key) (availableIds s.nodes) r.selectedIds
          r.ownerNodeId := by
  obtain ⟨m, hm⟩ := List.exists_mem_of_ne_nil _ hne
  obtain ⟨p, hp⟩ : ∃ p, (sel.closest key (availableNodes s.nodes)).firstEntry = some p :=
    SortedMap.firstEntry_isSome_take (by unfold Selector.limit; omega)
      (SortedMap.mem_keys_ofList.mpr ⟨m, hm, rfl⟩)
  have hok : ∃ r, sel.selectNodes key s = .ok r ∧ r.ownerNodeId = p.2.id ∧
      r.selectedNodes = (sel.closest key (availableNodes s.nodes)).values := by
    unfold Selector.selectNodes
    rw [if_neg hsize, closestNodes_eq hn]
    simp only [bind, Except.bind, hp]
    exact ⟨_, rfl, rfl, rfl⟩
  obtain ⟨r, hr, howner, hselected⟩ := hok
  refine ⟨r, hr, hselected, ?_⟩
  unfold SelectOwnerResponse.selectedIds
  rw [howner, hselected]
  exact isSelection_take hp

/-- In a group of several nodes a closest node is found exactly if there is one, and
room for it. -/
theorem selectNodes_isOk_iff (key : String) (hsize : s.nodes.entries.length ≠ 1) :
    (∃ r, sel.selectNodes key s = .ok r) ↔
      1 ≤ sel.neighbourCount.toInt ∧ availableNodes s.nodes ≠ [] := by
  constructor
  · rintro ⟨r, hr⟩
    unfold Selector.selectNodes at hr
    rw [if_neg hsize] at hr
    cases hnodes : availableNodes s.nodes with
    | nil =>
        rw [hnodes] at hr
        cases hr
    | cons m nodes =>
        rw [hnodes] at hr
        refine ⟨?_, List.cons_ne_nil _ _⟩
        by_contra hn
        rw [closestNodes_cons_of_lt (not_le.mp hn)] at hr
        cases hr
  · rintro ⟨hn, hne⟩
    obtain ⟨r, hr, -⟩ := selectNodes_spec key hsize hn hne
    exact ⟨r, hr⟩

end Selections

end Xenon.NodeSelector
