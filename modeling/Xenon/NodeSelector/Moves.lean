import Xenon.NodeSelector.Agreement

/-!
# How far a selection moves

One node more or less in a group moves little: the owner of a key stays, or is the
new node, and of the selected nodes at most one is exchanged. In terms of distances,
a new one pushes out at most one of the least (`eq_of_pushed_out`). A new node may
also tie with a selected one and take its place; then no distance changes at all.
-/

namespace Xenon.NodeSelector

open Xenon.Common Xenon.Foundation Xenon.NodeGroup

/-! ## One candidate more -/

/-- At most one comes in and at most one goes out. -/
def MovesOne (before after : Finset String) : Prop :=
  (after \ before).card ≤ 1 ∧ (before \ after).card ≤ 1

theorem MovesOne.symm {ids ids' : Finset String} (h : MovesOne ids ids') : MovesOne ids' ids :=
  ⟨h.2, h.1⟩

theorem MovesOne.refl (ids : Finset String) : MovesOne ids ids := by
  simp [MovesOne]

section Abstract

variable {n : Nat} {D : String → Int} {C : Finset String} {ids ids' : List String}
  {owner owner' x : String}

theorem IsSelection.owner_of_insert (h : IsSelection n D C ids owner)
    (h' : IsSelection n D (insert x C) ids' owner') (hinj : Set.InjOn D C) :
    owner' = owner ∨ owner' = x := by
  have howner := (h.mem owner h.owner_mem).1
  rcases Finset.mem_insert.mp (h'.mem owner' h'.owner_mem).1 with hx | howner'
  · exact Or.inr hx
  · have hle := h.owner_le owner' howner'
    have hge := h'.owner_le owner (Finset.mem_insert_of_mem howner)
    exact Or.inl (hinj howner' howner (le_antisymm hge hle))

/-- Only the new node comes in. -/
theorem IsSelection.eq_of_comes_in (h : IsSelection n D C ids owner)
    (h' : IsSelection n D (insert x C) ids' owner') (hinj : Set.InjOn D C) {a : String}
    (ha' : a ∈ ids') (ha : a ∉ ids) : a = x := by
  obtain ⟨hmem, hleast⟩ := h'.mem a ha'
  by_contra hne
  have haC := Finset.mem_of_mem_insert_of_ne hmem hne
  rw [Finset.image_insert] at hleast
  obtain ⟨b, hb, hD⟩ := h.covers _ (leastKeys_of_insert hleast (Finset.mem_image_of_mem D haC))
  exact ha (hinj (h.mem b hb).1 haC hD ▸ hb)

/-- What goes out ties with the new node, or its distance is no longer among the least. -/
theorem IsSelection.tied_or_pushed_out (h : IsSelection n D C ids owner)
    (h' : IsSelection n D (insert x C) ids' owner') (hinj : Set.InjOn D C) {a : String}
    (ha : a ∈ ids) (ha' : a ∉ ids') :
    D a = D x ∨ D a ∉ leastKeys n (insert (D x) (C.image D)) := by
  by_contra hcontra
  push Not at hcontra
  obtain ⟨hne, hleast⟩ := hcontra
  rw [← Finset.image_insert] at hleast
  obtain ⟨c, hc, hD⟩ := h'.covers _ hleast
  have hcx : c ≠ x := fun hcx => hne (hcx ▸ hD.symm)
  have hcC := Finset.mem_of_mem_insert_of_ne (h'.mem c hc).1 hcx
  exact ha' (hinj hcC (h.mem a ha).1 hD ▸ hc)

theorem IsSelection.eq_of_go_out (h : IsSelection n D C ids owner)
    (h' : IsSelection n D (insert x C) ids' owner') (hinj : Set.InjOn D C) {a b : String}
    (ha : a ∈ ids) (ha' : a ∉ ids') (hb : b ∈ ids) (hb' : b ∉ ids') : a = b := by
  obtain ⟨haC, haleast⟩ := h.mem a ha
  obtain ⟨hbC, hbleast⟩ := h.mem b hb
  apply hinj haC hbC
  -- a tie adds no distance, so nothing is pushed out
  have htied : ∀ {c d : String}, c ∈ C → D c = D x → D d ∈ leastKeys n (C.image D) →
      D d ∉ leastKeys n (insert (D x) (C.image D)) → False := by
    intro c d hc hD hd hdout
    rw [Finset.insert_eq_of_mem (hD ▸ Finset.mem_image_of_mem D hc)] at hdout
    exact hdout hd
  rcases h.tied_or_pushed_out h' hinj ha ha' with hax | haout <;>
    rcases h.tied_or_pushed_out h' hinj hb hb' with hbx | hbout
  · exact hax.trans hbx.symm
  · exact (htied haC hax hbleast hbout).elim
  · exact (htied hbC hbx haleast haout).elim
  · exact eq_of_pushed_out haleast haout hbleast hbout

theorem IsSelection.movesOne_of_insert (h : IsSelection n D C ids owner)
    (h' : IsSelection n D (insert x C) ids' owner') (hinj : Set.InjOn D C) :
    MovesOne ids.toFinset ids'.toFinset := by
  constructor
  · refine Finset.card_le_one.mpr fun a ha b hb => ?_
    simp only [Finset.mem_sdiff, List.mem_toFinset] at ha hb
    rw [h.eq_of_comes_in h' hinj ha.1 ha.2, h.eq_of_comes_in h' hinj hb.1 hb.2]
  · refine Finset.card_le_one.mpr fun a ha b hb => ?_
    simp only [Finset.mem_sdiff, List.mem_toFinset] at ha hb
    exact h.eq_of_go_out h' hinj ha.1 ha.2 hb.1 hb.2

end Abstract

/-! ## Changes of a group -/

/-- A node is removed, or marked as one that is not available. -/
def Removes (x : String) (nodes nodes' : Nodes) : Prop :=
  SameMembers (nodes.erase x) nodes' ∨
    ∃ c status, nodes.lookup x = some c ∧ (status = .unavailable ∨ status = .replaced) ∧
      SameMembers (nodes.insert x { c with status := status }) nodes'

/-- A node joins, in whatever status. -/
def Adds (x : String) (nodes nodes' : Nodes) : Prop :=
  x ∉ nodes ∧ ∃ c : NodeState, c.id = x ∧ SameMembers (nodes.insert x c) nodes'

section Changes

variable {nodes nodes' : Nodes} {x : String} {c : NodeState}

theorem keyed_erase (hkeyed : nodes.Keyed) (x : String) : Nodes.Keyed (nodes.erase x) := by
  intro key c hc
  by_cases hx : key = x
  · rw [hx, AList.lookup_erase] at hc
    cases hc
  · rw [AList.lookup_erase_ne hx] at hc
    exact hkeyed key c hc

theorem keyed_insert (hkeyed : nodes.Keyed) (hid : c.id = x) : Nodes.Keyed (nodes.insert x c) := by
  intro key c' hc'
  by_cases hx : key = x
  · rw [hx, AList.lookup_insert] at hc'
    rw [← Option.some.inj hc', hid, hx]
  · rw [AList.lookup_insert_ne hx] at hc'
    exact hkeyed key c' hc'

theorem availableIds_erase (hkeyed : nodes.Keyed) :
    availableIds (nodes.erase x) = (availableIds nodes).erase x := by
  ext a
  rw [Finset.mem_erase, mem_availableIds (keyed_erase hkeyed x), mem_availableIds hkeyed]
  by_cases hx : a = x
  · rw [hx, AList.lookup_erase]
    simp
  · rw [AList.lookup_erase_ne hx]
    simp [hx]

theorem availableIds_insert_unavailable (hkeyed : nodes.Keyed) (hid : c.id = x)
    (hc : isUnAvailable c = true) :
    availableIds (nodes.insert x c) = (availableIds nodes).erase x := by
  ext a
  rw [Finset.mem_erase, mem_availableIds (keyed_insert hkeyed hid), mem_availableIds hkeyed]
  by_cases hx : a = x
  · rw [hx, AList.lookup_insert]
    simp [hc]
  · rw [AList.lookup_insert_ne hx]
    simp [hx]

theorem availableIds_insert_available (hkeyed : nodes.Keyed) (hid : c.id = x)
    (hc : isUnAvailable c = false) :
    availableIds (nodes.insert x c) = insert x (availableIds nodes) := by
  ext a
  rw [Finset.mem_insert, mem_availableIds (keyed_insert hkeyed hid), mem_availableIds hkeyed]
  by_cases hx : a = x
  · rw [hx, AList.lookup_insert]
    simp [hc]
  · rw [AList.lookup_insert_ne hx]
    simp [hx]

theorem Removes.spec (h : Removes x nodes nodes') (hkeyed : nodes.Keyed) :
    nodes'.Keyed ∧ availableIds nodes' = (availableIds nodes).erase x := by
  rcases h with hsame | ⟨c, status, hc, hstatus, hsame⟩
  · have herased := keyed_erase hkeyed x
    exact ⟨hsame.keyed herased, by rw [hsame.availableIds herased, availableIds_erase hkeyed]⟩
  · have hid : ({ c with status := status } : NodeState).id = x := hkeyed x c hc
    have hmarked := keyed_insert hkeyed hid
    have hunavailable : isUnAvailable { c with status := status } = true := by
      rcases hstatus with rfl | rfl <;> rfl
    refine ⟨hsame.keyed hmarked, ?_⟩
    rw [hsame.availableIds hmarked, availableIds_insert_unavailable hkeyed hid hunavailable]

/-- Every other node stays. -/
theorem Removes.mem_of_ne (h : Removes x nodes nodes') {a : String} (ha : a ∈ nodes)
    (hne : a ≠ x) : a ∈ nodes' := by
  rcases h with hsame | ⟨c, status, -, -, hsame⟩
  · exact (hsame.mem_iff a).mp (AList.mem_erase.mpr ⟨hne, ha⟩)
  · exact (hsame.mem_iff a).mp ((AList.mem_insert _).mpr (Or.inr ha))

theorem Adds.spec (h : Adds x nodes nodes') (hkeyed : nodes.Keyed) :
    nodes'.Keyed ∧ (availableIds nodes' = availableIds nodes ∨
      availableIds nodes' = insert x (availableIds nodes)) := by
  obtain ⟨hx, c, hid, hsame⟩ := h
  have hadded := keyed_insert hkeyed hid
  refine ⟨hsame.keyed hadded, ?_⟩
  rw [hsame.availableIds hadded]
  cases hc : isUnAvailable c with
  | false => exact Or.inr (availableIds_insert_available hkeyed hid hc)
  | true =>
      left
      rw [availableIds_insert_unavailable hkeyed hid hc]
      apply Finset.erase_eq_of_notMem
      intro hmem
      obtain ⟨c', hc', -⟩ := (mem_availableIds hkeyed).mp hmem
      exact hx (AList.lookup_isSome.mp (by rw [hc']; rfl))

end Changes

/-! ## The code -/

section Moves

variable {sel : Selector} {key : String} {s s' : NodeGroupState} {r : SelectOwnerResponse}

theorem size_ne_one (h : 2 ≤ (availableNodes s.nodes).length) : s.nodes.entries.length ≠ 1 := by
  have := length_availableNodes_le s.nodes
  omega

theorem isSelection_of_ok (hsize : s.nodes.entries.length ≠ 1)
    (hr : sel.selectNodes key s = .ok r) : 1 ≤ sel.neighbourCount.toInt ∧
      IsSelection sel.limit (sel.distances key) (availableIds s.nodes) r.selectedIds
        r.ownerNodeId := by
  obtain ⟨hn, hne⟩ := (selectNodes_isOk_iff key hsize).mp ⟨r, hr⟩
  obtain ⟨r', hr', -, hsel⟩ := selectNodes_spec key hsize hn hne
  obtain rfl := Except.ok.inj (hr.symm.trans hr')
  exact ⟨hn, hsel⟩

/-- A group of several nodes, of which so many are available that one is selected. -/
theorem selection_of_card (key : String) (hkeyed : s.nodes.Keyed)
    (hsize : s.nodes.entries.length ≠ 1) (hn : 1 ≤ sel.neighbourCount.toInt)
    (hcard : 0 < (availableIds s.nodes).card) :
    ∃ r, sel.selectNodes key s = .ok r ∧
      IsSelection sel.limit (sel.distances key) (availableIds s.nodes) r.selectedIds
        r.ownerNodeId := by
  rw [← length_availableNodes hkeyed] at hcard
  obtain ⟨r, hr, -, hsel⟩ := selectNodes_spec key hsize hn (List.length_pos_iff.mp hcard)
  exact ⟨r, hr, hsel⟩

theorem removes_moves (hkeyed : s.nodes.Keyed) (htwo : 2 ≤ (availableNodes s.nodes).length)
    (hinj : Set.InjOn (sel.distances key) (availableIds s.nodes))
    (hr : sel.selectNodes key s = .ok r) {x : String} (h : Removes x s.nodes s'.nodes)
    (hsize : s'.nodes.entries.length ≠ 1) :
    ∃ r', sel.selectNodes key s' = .ok r' ∧
      (x ≠ r.ownerNodeId → r'.ownerNodeId = r.ownerNodeId) ∧
        MovesOne r.selectedIds.toFinset r'.selectedIds.toFinset := by
  obtain ⟨hn, hsel⟩ := isSelection_of_ok (size_ne_one htwo) hr
  obtain ⟨hkeyed', hids⟩ := h.spec hkeyed
  have hcard := length_availableNodes hkeyed
  have hcard' := Finset.pred_card_le_card_erase (s := availableIds s.nodes) (a := x)
  rw [← hids] at hcard'
  obtain ⟨r', hr', hsel'⟩ := selection_of_card key hkeyed' hsize hn (by omega)
  refine ⟨r', hr', ?_⟩
  by_cases hx : x ∈ availableIds s.nodes
  · -- the former nodes are the present ones with `x` added
    rw [← Finset.insert_erase hx, ← hids] at hsel
    have hinj' : Set.InjOn (sel.distances key) (availableIds s'.nodes) := by
      rw [hids]
      exact hinj.mono (Finset.erase_subset _ _)
    refine ⟨fun hne => ?_, (hsel'.movesOne_of_insert hsel hinj').symm⟩
    rcases hsel'.owner_of_insert hsel hinj' with howner | howner
    · exact howner.symm
    · exact absurd howner.symm hne
  · rw [Finset.erase_eq_of_notMem hx] at hids
    rw [hids] at hsel'
    have huntied : Untied sel.limit (sel.distances key) (availableIds s.nodes) :=
      fun a ha b hb hne hD => absurd (hinj ha hb hD) hne
    obtain ⟨howner, hset, -⟩ := hsel.agree hsel' huntied
    exact ⟨fun _ => howner.symm, hset ▸ MovesOne.refl _⟩

/-- The last node, which is the host itself, may be one that was not selected. -/
theorem removes_moves_single (hkeyed : s.nodes.Keyed)
    (htwo : 2 ≤ (availableNodes s.nodes).length) (hr : sel.selectNodes key s = .ok r)
    {x : String} (h : Removes x s.nodes s'.nodes) (hsize : s'.nodes.entries.length = 1)
    (hhost : sel.hostId ∈ s'.nodes) :
    ∃ r', sel.selectNodes key s' = .ok r' ∧
      MovesOne r.selectedIds.toFinset r'.selectedIds.toFinset := by
  obtain ⟨-, hsel⟩ := isSelection_of_ok (size_ne_one htwo) hr
  obtain ⟨hkeyed', -⟩ := h.spec hkeyed
  obtain ⟨r', hr', -, hselected, -⟩ := selectNodes_single key hsize hkeyed' hhost
  have hout : ∀ {a : String}, a ∈ r.selectedIds → a ≠ sel.hostId → a = x := by
    intro a ha hne
    by_contra hx
    obtain ⟨c, hc, -⟩ := (mem_availableIds hkeyed).mp (hsel.mem a ha).1
    have hmem := h.mem_of_ne (AList.lookup_isSome.mp (by rw [hc]; rfl)) hx
    exact hne (eq_of_single hsize hmem hhost)
  refine ⟨r', hr', ?_, ?_⟩
  · refine Finset.card_le_one.mpr fun a ha b hb => ?_
    simp only [hselected, Finset.mem_sdiff, List.mem_toFinset, List.mem_singleton] at ha hb
    rw [ha.1, hb.1]
  · refine Finset.card_le_one.mpr fun a ha b hb => ?_
    simp only [hselected, Finset.mem_sdiff, List.mem_toFinset, List.mem_singleton] at ha hb
    rw [hout ha.1 ha.2, hout hb.1 hb.2]

theorem adds_moves (hkeyed : s.nodes.Keyed) (htwo : 2 ≤ (availableNodes s.nodes).length)
    (hinj : Set.InjOn (sel.distances key) (availableIds s.nodes))
    (hr : sel.selectNodes key s = .ok r) {x : String} (h : Adds x s.nodes s'.nodes) :
    ∃ r', sel.selectNodes key s' = .ok r' ∧
      (r'.ownerNodeId = r.ownerNodeId ∨ r'.ownerNodeId = x) ∧
        MovesOne r.selectedIds.toFinset r'.selectedIds.toFinset := by
  obtain ⟨hn, hsel⟩ := isSelection_of_ok (size_ne_one htwo) hr
  obtain ⟨hkeyed', hids⟩ := h.spec hkeyed
  have hcard := length_availableNodes hkeyed
  have hsub : availableIds s.nodes ⊆ availableIds s'.nodes := by
    rcases hids with hids | hids
    · rw [hids]
    · rw [hids]
      exact Finset.subset_insert _ _
  have hle := Finset.card_le_card hsub
  have hcard' := length_availableNodes hkeyed'
  obtain ⟨r', hr', hsel'⟩ := selection_of_card key hkeyed' (size_ne_one (by omega)) hn (by omega)
  refine ⟨r', hr', ?_⟩
  rcases hids with hids | hids
  · rw [hids] at hsel'
    have huntied : Untied sel.limit (sel.distances key) (availableIds s.nodes) :=
      fun a ha b hb hne hD => absurd (hinj ha hb hD) hne
    obtain ⟨howner, hset, -⟩ := hsel.agree hsel' huntied
    exact ⟨Or.inl howner.symm, hset ▸ MovesOne.refl _⟩
  · rw [hids] at hsel'
    exact ⟨hsel.owner_of_insert hsel' hinj, hsel.movesOne_of_insert hsel' hinj⟩

end Moves

/-- **Consistent hashing moves little.** A node that goes, or is marked, leaves the owner in its
place unless it is the owner, as long as several nodes remain; one that comes may become the
owner, and nobody else does. In each case one selected node at most is exchanged, also when
only the host remains. -/
theorem selection_moves_little (sel : Selector) (key : String) (s s' : NodeGroupState)
    (r : SelectOwnerResponse) (x : String) (hkeyed : s.nodes.Keyed)
    (htwo : 2 ≤ (availableNodes s.nodes).length)
    (hinj : Set.InjOn (sel.distances key) (availableIds s.nodes))
    (hr : sel.selectNodes key s = .ok r) :
    (Removes x s.nodes s'.nodes → 2 ≤ s'.nodes.entries.length →
      ∃ r', sel.selectNodes key s' = .ok r' ∧
        (x ≠ r.ownerNodeId → r'.ownerNodeId = r.ownerNodeId) ∧
          MovesOne r.selectedIds.toFinset r'.selectedIds.toFinset) ∧
    (Removes x s.nodes s'.nodes → s'.nodes.entries.length = 1 → sel.hostId ∈ s'.nodes →
      ∃ r', sel.selectNodes key s' = .ok r' ∧
        MovesOne r.selectedIds.toFinset r'.selectedIds.toFinset) ∧
    (Adds x s.nodes s'.nodes →
      ∃ r', sel.selectNodes key s' = .ok r' ∧
        (r'.ownerNodeId = r.ownerNodeId ∨ r'.ownerNodeId = x) ∧
          MovesOne r.selectedIds.toFinset r'.selectedIds.toFinset) := by
  refine ⟨fun h hsize => ?_, fun h hsize hhost => ?_, fun h => ?_⟩
  · exact removes_moves hkeyed htwo hinj hr h (by omega)
  · exact removes_moves_single hkeyed htwo hr h hsize hhost
  · exact adds_moves hkeyed htwo hinj hr h

/-- The group of `a` and `b`, with a peer more. -/
def groupWith (x : String) : NodeGroupState :=
  { groupOf "a" "b" a_ne_b with
    nodes := (groupOf "a" "b" a_ne_b).nodes.insert x (peer x) }

theorem selection_moves_little_join :
    ∃ r r', (selectorOf [("a", 1), ("b", 5)]).selectNodes "k" (groupOf "a" "b" (by decide)) = .ok r ∧
      (selectorOf [("a", 1), ("b", 5)]).selectNodes "k" (groupWith "c") = .ok r' ∧
        (r'.ownerNodeId = r.ownerNodeId ∨ r'.ownerNodeId = "c") := by
  obtain ⟨r, hr⟩ : ∃ r, (selectorOf [("a", 1), ("b", 5)]).selectNodes "k"
      (groupOf "a" "b" (by decide)) = .ok r := ⟨_, rfl⟩
  have hinj : Set.InjOn ((selectorOf [("a", 1), ("b", 5)]).distances "k")
      (availableIds (groupOf "a" "b" (by decide)).nodes) := by
    unfold Set.InjOn
    decide
  obtain ⟨-, -, hadds⟩ := selection_moves_little _ _ _ (groupWith "c") r "c" (keyed_groupOf _)
    (by decide) hinj hr
  obtain ⟨r', hr', howner, -⟩ := hadds ⟨by decide, peer "c", rfl, fun _ => rfl⟩
  exact ⟨r, r', hr, hr', howner⟩

end Xenon.NodeSelector
