import Xenon.NodeSelector.Selection

/-!
# Agreement on the owner

Two hosts that hold the same nodes, each in the order of its own map, have to select
the same owner for a key. They do unless two available nodes are equally far from the
key and the tie is among the nodes to select: then the map of either host keeps the
node that it has seen last, and the other one is missing in the selection.
-/

namespace Xenon.NodeSelector

open Xenon.Common Xenon.Foundation Xenon.NodeGroup

/-! ## Selections of an untied set -/

section Abstract

variable {n : Nat} {D : String → Int} {C : Finset String} {ids ids' : List String}
  {owner owner' : String}

/-- An id of one selection is in every other. -/
theorem IsSelection.mem_of_untied (h : IsSelection n D C ids owner)
    (h' : IsSelection n D C ids' owner') (huntied : Untied n D C) {a : String} (ha : a ∈ ids) :
    a ∈ ids' := by
  obtain ⟨haC, hleast⟩ := h.mem a ha
  obtain ⟨b, hb, hD⟩ := h'.covers _ hleast
  have hab : a = b := huntied.unique haC (h'.mem b hb).1 hD.symm hleast
  exact hab ▸ hb

theorem IsSelection.agree (h : IsSelection n D C ids owner)
    (h' : IsSelection n D C ids' owner') (huntied : Untied n D C) :
    owner = owner' ∧ ids.toFinset = ids'.toFinset ∧ ids.length = min n C.card := by
  refine ⟨?_, ?_, h.length.trans huntied.min_card_image⟩
  · obtain ⟨howner, hleast⟩ := h.mem owner h.owner_mem
    have howner' := (h'.mem owner' h'.owner_mem).1
    have hD : D owner = D owner' := le_antisymm (h.owner_le _ howner') (h'.owner_le _ howner)
    exact huntied.unique howner howner' hD hleast
  · ext a
    rw [List.mem_toFinset, List.mem_toFinset]
    exact ⟨h.mem_of_untied h' huntied, h'.mem_of_untied h huntied⟩

end Abstract

/-! ## Two hosts -/

/-- The two hosts answer, with one owner and one set of nodes, of the right size. -/
def Agree (sel sel' : Selector) (key : String) (s s' : NodeGroupState) : Prop :=
  ∃ r r', sel.selectNodes key s = .ok r ∧ sel'.selectNodes key s' = .ok r' ∧
    r.ownerNodeId = r'.ownerNodeId ∧ r.selectedIds.toFinset = r'.selectedIds.toFinset ∧
      (r.selectedNodes.length : Int) =
        min sel.neighbourCount.toInt (availableNodes s.nodes).length ∧
      (r'.selectedNodes.length : Int) =
        min sel'.neighbourCount.toInt (availableNodes s'.nodes).length

/-- The replication factor is positive, some node is available, and two nodes that
are equally far from the key have as many nodes before them as are selected. -/
def Selectable (sel : Selector) (key : String) (nodes : Nodes) : Prop :=
  1 ≤ sel.neighbourCount.toInt ∧ availableNodes nodes ≠ [] ∧
    Untied sel.limit (sel.distances key) (availableIds nodes)

/-- The selector of another host. -/
def Selector.on (sel : Selector) (hostId : String) : Selector := { sel with hostId := hostId }

section Single

variable {sel : Selector} {s : NodeGroupState}

/-- A single node is selected, available or not. -/
theorem selectNodes_single (key : String) (hsize : s.nodes.entries.length = 1) (hkeyed : s.nodes.Keyed)
    (hhost : sel.hostId ∈ s.nodes) :
    ∃ r, sel.selectNodes key s = .ok r ∧ r.ownerNodeId = sel.hostId ∧
      r.selectedIds = [sel.hostId] ∧ r.selectedNodes.length = 1 := by
  obtain ⟨self, hself⟩ := Option.isSome_iff_exists.mp (AList.lookup_isSome.mpr hhost)
  obtain ⟨p, hp⟩ := List.length_eq_one_iff.mp hsize
  have hentry : p = ⟨sel.hostId, self⟩ := by
    have hmem := AList.mem_lookup_iff.mp hself
    rw [hp, List.mem_singleton] at hmem
    exact hmem.symm
  have hid := hkeyed _ _ hself
  have hvalues : s.nodes.values = [self] := by
    unfold Nodes.values
    rw [hp, hentry]
    rfl
  unfold Selector.selectNodes
  rw [if_pos hsize, hself]
  refine ⟨_, rfl, hid, ?_, ?_⟩
  · show s.nodes.values.map NodeState.id = _
    rw [hvalues, List.map_singleton, hid]
  · show s.nodes.values.length = 1
    rw [hvalues]
    rfl

theorem eq_of_single {nodes : Nodes} {a b : String} (hsize : nodes.entries.length = 1)
    (ha : a ∈ nodes) (hb : b ∈ nodes) : a = b := by
  obtain ⟨p, hp⟩ := List.length_eq_one_iff.mp hsize
  have hkeys : nodes.keys = [p.1] := by simp [AList.keys, List.keys, hp]
  rw [AList.mem_keys, hkeys, List.mem_singleton] at ha hb
  rw [ha, hb]

theorem length_availableNodes_le (nodes : Nodes) :
    (availableNodes nodes).length ≤ nodes.entries.length := by
  refine (List.length_filter_le _ _).trans ?_
  unfold Nodes.values
  rw [List.length_map]

end Single

section Agreement

variable {sel : Selector} {key : String} {s s' : NodeGroupState} {hostId : String}

theorem agree_of_selectable (hkeyed : s.nodes.Keyed) (hhost : sel.hostId ∈ s.nodes)
    (hhost' : hostId ∈ s'.nodes) (hsame : SameMembers s.nodes s'.nodes)
    (h : Selectable sel key s.nodes) : Agree sel (sel.on hostId) key s s' := by
  obtain ⟨hn, hne, huntied⟩ := h
  have hkeyed' := hsame.keyed hkeyed
  have hids := hsame.availableIds hkeyed
  have hcard : (availableNodes s'.nodes).length = (availableNodes s.nodes).length := by
    rw [length_availableNodes hkeyed, length_availableNodes hkeyed', hids]
  have hpos : 0 < (availableNodes s.nodes).length := List.length_pos_iff.mpr hne
  by_cases hsize : s.nodes.entries.length = 1
  · obtain ⟨r, hr, howner, hselected, hlen⟩ := selectNodes_single key hsize hkeyed hhost
    obtain ⟨r', hr', howner', hselected', hlen'⟩ := @selectNodes_single (sel.on hostId) s' key
      (hsame.length.trans hsize) hkeyed' hhost'
    obtain rfl : hostId = sel.hostId :=
      eq_of_single (hsame.length.trans hsize) hhost' ((hsame.mem_iff _).mp hhost)
    have hle := length_availableNodes_le s.nodes
    refine ⟨r, r', hr, hr', howner.trans howner'.symm, ?_, ?_, ?_⟩
    · rw [hselected, hselected']
      rfl
    · rw [hlen]
      omega
    · rw [hlen', hcard]
      show _ = min sel.neighbourCount.toInt _
      omega
  · obtain ⟨r, hr, -, hsel⟩ := selectNodes_spec key hsize hn hne
    obtain ⟨r', hr', -, hsel'⟩ := @selectNodes_spec (sel.on hostId) s' key
      (fun h => hsize (hsame.length ▸ h)) hn
      (List.length_pos_iff.mp (hcard.symm ▸ hpos))
    rw [hids] at hsel'
    obtain ⟨howner, hset, hlen⟩ := hsel.agree hsel' huntied
    obtain ⟨-, -, hlen'⟩ := hsel'.agree hsel huntied
    rw [← length_availableNodes hkeyed] at hlen hlen'
    unfold SelectOwnerResponse.selectedIds at hlen hlen'
    rw [List.length_map] at hlen hlen'
    refine ⟨r, r', hr, hr', howner, hset, ?_, ?_⟩
    · rw [hlen]
      unfold Selector.limit
      omega
    · rw [hlen', hcard]
      show ((min sel.limit _ : Nat) : Int) = min sel.neighbourCount.toInt _
      unfold Selector.limit
      omega

end Agreement

/-! ## Orders that disagree -/

/-- The nodes the other way round. -/
def reverse (nodes : Nodes) : Nodes :=
  ⟨nodes.entries.reverse, (List.perm_nodupKeys (List.reverse_perm _)).mpr nodes.nodupKeys⟩

/-- The nodes with one of them at the end. -/
def endingIn (nodes : Nodes) (a : String) (c : NodeState) : Nodes := reverse (nodes.insert a c)

section Orders

variable {nodes : Nodes} {a : String} {c : NodeState}

theorem sameMembers_endingIn (h : nodes.lookup a = some c) :
    SameMembers nodes (endingIn nodes a c) := by
  intro id
  have hlookup : (endingIn nodes a c).lookup id = (nodes.insert a c).lookup id :=
    AList.perm_lookup (List.reverse_perm _)
  rw [hlookup]
  by_cases hid : id = a
  · rw [hid, AList.lookup_insert, h]
  · rw [AList.lookup_insert_ne hid]

theorem availableNodes_endingIn (h : isUnAvailable c = false) :
    ∃ ms, availableNodes (endingIn nodes a c) = ms ++ [c] := by
  refine ⟨((nodes.entries.kerase a).map Sigma.snd |>.filter fun m => !isUnAvailable m).reverse, ?_⟩
  unfold availableNodes endingIn reverse Nodes.values
  show ((nodes.insert a c).entries.reverse.map Sigma.snd).filter _ = _
  rw [AList.entries_insert, List.map_reverse, List.filter_reverse, List.map_cons,
    List.filter_cons_of_pos (by rw [h]; rfl), List.reverse_cons]

end Orders

section Necessary

variable {sel : Selector} {key : String} {s : NodeGroupState}

/-- The node that the loop sees last is selected if its distance is among the least. -/
theorem mem_selectedIds_of_last {ms : List NodeState} {c : NodeState} {r : SelectOwnerResponse}
    (hr : r.selectedNodes = (sel.closest key (availableNodes s.nodes)).values)
    (hlast : availableNodes s.nodes = ms ++ [c])
    (hleast : sel.distances key c.id ∈
      leastKeys sel.limit ((availableIds s.nodes).image (sel.distances key))) :
    c.id ∈ r.selectedIds := by
  rw [← keys_availableNodes] at hleast
  unfold SelectOwnerResponse.selectedIds
  rw [hr]
  refine List.mem_map_of_mem (List.mem_map.mpr ⟨(sel.distances key c.id, c), ?_, rfl⟩)
  refine SortedMap.mem_take.mpr ⟨?_, hleast⟩
  rw [hlast, SortedMap.ofList_snoc]
  exact SortedMap.mem_insert_self _ _ _

/-- If every host agrees, there is no tie among the nodes to select: each of two tied
nodes would be selected where it comes last. -/
theorem untied_of_agree (hkeyed : s.nodes.Keyed) (hhost : sel.hostId ∈ s.nodes)
    (hsize : s.nodes.entries.length ≠ 1) (hn : 1 ≤ sel.neighbourCount.toInt)
    (hne : availableNodes s.nodes ≠ [])
    (h : ∀ hostId s', hostId ∈ s'.nodes → SameMembers s.nodes s'.nodes →
      Agree sel (sel.on hostId) key s s') :
    Untied sel.limit (sel.distances key) (availableIds s.nodes) := by
  intro a ha b hb hab hD
  by_contra hcard
  obtain ⟨r, hr, -, hsel⟩ := selectNodes_spec key hsize hn hne
  have hleast : sel.distances key a ∈
      leastKeys sel.limit ((availableIds s.nodes).image (sel.distances key)) := by
    refine mem_leastKeys.mpr ⟨Finset.mem_image_of_mem _ ha, ?_⟩
    rw [← image_filter_lt]
    exact lt_of_le_of_lt Finset.card_image_le (not_le.mp hcard)
  have hselected : ∀ {x : String}, x ∈ availableIds s.nodes →
      sel.distances key x = sel.distances key a → x ∈ r.selectedIds := by
    intro x hx hxD
    obtain ⟨c, hc, havailable⟩ := (mem_availableIds hkeyed).mp hx
    obtain rfl := hkeyed x c hc
    have hsame := sameMembers_endingIn hc
    have hsame' : SameMembers s.nodes ({ s with nodes := endingIn s.nodes c.id c } :
        NodeGroupState).nodes := hsame
    obtain ⟨ms, hms⟩ := @availableNodes_endingIn s.nodes c.id c havailable
    obtain ⟨r₀, r₁, hr₀, hr₁, -, hset, -⟩ := h sel.hostId _ ((hsame.mem_iff _).mp hhost) hsame'
    obtain ⟨r₂, hr₂, hvalues, -⟩ := @selectNodes_spec sel
      { s with nodes := endingIn s.nodes c.id c } key (fun h => hsize (hsame.length ▸ h)) hn
      (by rw [hms]; simp)
    obtain rfl := Except.ok.inj (hr.symm.trans hr₀)
    obtain rfl := Except.ok.inj (hr₁.symm.trans hr₂)
    have hmem := mem_selectedIds_of_last hvalues hms
      (by rw [hsame'.availableIds hkeyed, hxD]; exact hleast)
    rwa [← List.mem_toFinset, hset, List.mem_toFinset]
  exact hab (hsel.one a (hselected ha rfl) b (hselected hb hD.symm) hD)

theorem selectable_of_agree (hkeyed : s.nodes.Keyed) (hhost : sel.hostId ∈ s.nodes)
    (h : ∀ hostId s', hostId ∈ s'.nodes → SameMembers s.nodes s'.nodes →
      Agree sel (sel.on hostId) key s s') : Selectable sel key s.nodes := by
  obtain ⟨r, r', hr, -, -, -, hlen, -⟩ := h sel.hostId s hhost fun _ => rfl
  by_cases hsize : s.nodes.entries.length = 1
  · obtain ⟨r₁, hr₁, -, -, hlen₁⟩ := selectNodes_single key hsize hkeyed hhost
    obtain rfl := Except.ok.inj (hr.symm.trans hr₁)
    have hle := length_availableNodes_le s.nodes
    rw [hlen₁] at hlen
    refine ⟨by omega, List.length_pos_iff.mp (by omega), ?_⟩
    intro a ha b hb hab
    obtain ⟨c, hc, -⟩ := (mem_availableIds hkeyed).mp ha
    obtain ⟨c', hc', -⟩ := (mem_availableIds hkeyed).mp hb
    exact absurd (eq_of_single hsize (AList.lookup_isSome.mp (by rw [hc]; rfl))
      (AList.lookup_isSome.mp (by rw [hc']; rfl))) hab
  · obtain ⟨hn, hne⟩ := (selectNodes_isOk_iff key hsize).mp ⟨r, hr⟩
    exact ⟨hn, hne, untied_of_agree hkeyed hhost hsize hn hne h⟩

end Necessary

/-- **Owner agreement.** A host and every other one that holds the same nodes select the
same owner and the same nodes for a key, as many as the replication factor and the
available nodes allow, exactly if the nodes are `Selectable`. -/
theorem owner_agreement_iff (sel : Selector) (key : String) (s : NodeGroupState)
    (hkeyed : s.nodes.Keyed) (hhost : sel.hostId ∈ s.nodes) :
    (∀ hostId s', hostId ∈ s'.nodes → SameMembers s.nodes s'.nodes →
      Agree sel (sel.on hostId) key s s') ↔ Selectable sel key s.nodes :=
  ⟨selectable_of_agree hkeyed hhost, fun h _ _ hhost' hsame =>
    agree_of_selectable hkeyed hhost hhost' hsame h⟩

/-! ## A group of two -/

/-- An available peer. -/
def peer (id : String) : NodeState where
  id := id
  groupReference := some id
  status := .available
  options := {.peer}
  membershipQuorum := 1
  locationQuorum := 1
  documentVersion := 0
  documentUpdateTimeMicros := 0
  documentExpirationTimeMicros := 0

/-- A group that holds two peers, in the order given. -/
def groupOf (a b : String) (hne : a ≠ b) : NodeGroupState where
  documentOwner := none
  config := none
  nodes := ⟨[⟨a, peer a⟩, ⟨b, peer b⟩], by simpa [List.NodupKeys, List.keys] using hne⟩
  lastChanges := ∅
  membershipUpdateTimeMicros := 0
  localMembershipUpdateTimeMicros := 0

theorem a_ne_b : "a" ≠ "b" := by decide

theorem keyed_groupOf {a b : String} (hne : a ≠ b) : (groupOf a b hne).nodes.Keyed := by
  intro key c hc
  have hmem : (⟨key, c⟩ : Sigma fun _ : String => NodeState) ∈
      (groupOf a b hne).nodes.entries := AList.mem_lookup_iff.mp hc
  simp only [groupOf, List.mem_cons, List.not_mem_nil, or_false] at hmem
  obtain h | h := hmem <;> (cases h; rfl)

theorem sameMembers_groupOf {a b : String} (hne : a ≠ b) :
    SameMembers (groupOf a b hne).nodes (groupOf b a hne.symm).nodes := by
  intro id
  have hperm : (groupOf a b hne).nodes.entries.Perm (groupOf b a hne.symm).nodes.entries :=
    List.Perm.swap _ _ _
  rw [AList.perm_lookup hperm]

/-- The host `a`, to which the key and the nodes have the hashes given. -/
def selectorOf (hashes : List (String × Int64)) : Selector where
  hostId := "a"
  hash := fun id => (hashes.lookup id).getD 0
  replicationFactor := none

theorem owner_agreement_closer :
    Agree (selectorOf [("a", 1), ("b", 5)]) ((selectorOf [("a", 1), ("b", 5)]).on "b") "k"
      (groupOf "a" "b" (by decide)) (groupOf "b" "a" (by decide)) := by
  refine (owner_agreement_iff _ "k" (groupOf "a" "b" (by decide)) (keyed_groupOf _)
    (by decide)).mpr ?_ "b" (groupOf "b" "a" (by decide)) (by decide) (sameMembers_groupOf _)
  refine ⟨by decide, by decide, ?_⟩
  unfold Untied
  decide

/-- The nodes `a` and `b` are on either side of the key, and each order of the two
selects the node that comes last. -/
theorem tied_nodes_have_two_owners : ¬ ∀ (sel : Selector) (key : String) (s : NodeGroupState)
    (hostId : String) (s' : NodeGroupState), s.nodes.Keyed → sel.hostId ∈ s.nodes →
      hostId ∈ s'.nodes → SameMembers s.nodes s'.nodes → Agree sel (sel.on hostId) key s s' := by
  intro h
  obtain ⟨r, r', hr, hr', howner, -⟩ := h (selectorOf [("a", 1), ("b", -1)]) "k"
    (groupOf "a" "b" (by decide)) "b" (groupOf "b" "a" (by decide)) (keyed_groupOf _)
    (by decide) (by decide) (sameMembers_groupOf _)
  cases hr
  cases hr'
  exact absurd howner (by decide)

end Xenon.NodeSelector
