import Xenon.Replication.Decides

/-!
# Replication without a quorum

For a service without owner selection the update is to succeed when one remote node has it. The
success threshold counts the local node, which has accepted before the loop starts, but is taken
from the number of the other nodes: of two selected nodes, one is enough.
-/

namespace Xenon.Replication

open Xenon.Common Xenon.Foundation

/-! ## What the remote nodes report -/

/-- A remote node reports success. -/
def Accepts (c : Context) : Event → Bool
  | .next => false
  | .response m e statusCode errorCode =>
      (completionError (some (peerOp c m statusCode errorCode)) e).isNone

section

variable {hostId : String} {service : ServiceState} {c : Context}

/-- What is handed to the context counts as the event does. -/
theorem successes_handle (service : ServiceState) (c : Context) (o : PeerOp) (e : Option String) :
    successes (handleReplicationCompletion service c (some o) e).toList ≤
      if (completionError (some o) e).isNone then 1 else 0 := by
  unfold handleReplicationCompletion
  split
  · simp [successes]
  · exact (List.countP_singleton ..).le

/-- Nothing is ignored, unless only one location takes part. -/
theorem successes_handle_eq (service : ServiceState) (o : PeerOp) (e : Option String)
    (hall : c.location = none ∨ c.locationThreshold ≠ 1) :
    successes (handleReplicationCompletion service c (some o) e).toList =
      if (completionError (some o) e).isNone then 1 else 0 := by
  unfold handleReplicationCompletion
  rw [if_neg (by tauto)]
  exact List.countP_singleton ..

theorem successes_append (rs rs' : List Response) :
    successes (rs ++ rs') = successes rs + successes rs' :=
  List.countP_append

/-- What a step lets the context hear. -/
theorem step_heard {s s' : State} {e : Event} (hstep : step hostId c s e = some s') :
    (s'.heard = s.heard ∧ Accepts c e = false) ∨
      ∃ service o x, s'.heard = s.heard ++
          (handleReplicationCompletion service c (some o) x).toList ∧
        Accepts c e = (completionError (some o) x).isNone := by
  cases e with
  | next =>
      simp only [step] at hstep
      split at hstep
      · cases hstep
      · split_ifs at hstep
        · obtain rfl := Option.some.inj hstep
          exact Or.inl ⟨rfl, rfl⟩
        · obtain rfl := Option.some.inj hstep
          exact Or.inl ⟨rfl, rfl⟩
        · obtain rfl := Option.some.inj hstep
          exact Or.inr ⟨_, _, _, rfl, rfl⟩
        · obtain rfl := Option.some.inj hstep
          exact Or.inr ⟨_, _, _, rfl, rfl⟩
        · obtain rfl := Option.some.inj hstep
          exact Or.inl ⟨rfl, rfl⟩
        · obtain rfl := Option.some.inj hstep
          exact Or.inl ⟨rfl, rfl⟩
  | response m e statusCode errorCode =>
      simp only [step] at hstep
      split_ifs at hstep
      obtain rfl := Option.some.inj hstep
      exact Or.inr ⟨_, _, _, rfl, rfl⟩

theorem successes_start : successes (start service c).heard = 1 := by
  rw [start_heard]
  rfl

/-- The context hears at most one success, its own, more than the remote nodes report. -/
theorem successes_le {ok : State → Event → Prop} {es : List Event} {s : State}
    (h : Reach (step hostId c) ok (start service c) es s) :
    successes s.heard ≤ 1 + es.countP (Accepts c) := by
  induction h with
  | refl => exact successes_start.le
  | @snoc es s s' e _ _ hstep ih =>
      rw [List.countP_append, List.countP_singleton]
      rcases step_heard hstep with ⟨hheard, haccepts⟩ | ⟨service, o, x, hheard, haccepts⟩
      · rw [hheard]
        omega
      · have hle := successes_handle service c o x
        rw [hheard, successes_append, haccepts]
        omega

/-- And exactly one, if it hears from all of them. -/
theorem successes_eq (hall : c.location = none ∨ c.locationThreshold ≠ 1)
    {ok : State → Event → Prop} {es : List Event} {s : State}
    (h : Reach (step hostId c) ok (start service c) es s) :
    successes s.heard = 1 + es.countP (Accepts c) := by
  induction h with
  | refl => exact successes_start
  | @snoc es s s' e _ _ hstep ih =>
      rw [List.countP_append, List.countP_singleton]
      rcases step_heard hstep with ⟨hheard, haccepts⟩ | ⟨service, o, x, hheard, haccepts⟩
      · rw [hheard, haccepts, ih]
        rfl
      · rw [hheard, successes_append, haccepts, successes_handle_eq service o x hall, ih,
          Nat.add_assoc]

end

/-! ## Locations alone -/

section

variable {c : Context}

/-- The local node accepts first. -/
theorem status_self (hc : Fresh c) : statusAfter c [selfResponse c] =
    decision c.successThreshold c.failureThreshold c.locationThreshold
      (successes [selfResponse c]) (failures [selfResponse c])
      (heardLocations [selfResponse c]).card (selfResponse c) := by
  have hstart : statusAfter c [] = .pending := hc.status
  rw [← List.nil_append [selfResponse c], status_snoc hc, if_pos hstart]

theorem status_self_located (hc : Fresh c) (hs : c.successThreshold ≤ 1) (hl : c.location ≠ none) :
    statusAfter c [selfResponse c] =
      if ((heardLocations [selfResponse c]).card : Int) < c.locationThreshold then .pending
      else .succeeded := by
  rw [status_self hc, decision, if_pos ⟨hl, hs⟩]

theorem one_le_successes (c : Context) (rs : List Response) :
    1 ≤ successes (selfResponse c :: rs) := by
  rw [successes_cons]
  exact Nat.le_add_left 1 _

/-- Where the local node meets the success threshold, a located run succeeds by its locations
only. -/
theorem locations_of_succeeded (hc : Fresh c) (hs : c.successThreshold ≤ 1)
    (hl : c.location ≠ none) (rs : List Response)
    (h : statusAfter c (selfResponse c :: rs) = .succeeded) :
    c.locationThreshold ≤ (heardLocations (selfResponse c :: rs)).card := by
  induction rs using List.reverseRecOn with
  | nil =>
      rw [status_self_located hc hs hl] at h
      split_ifs at h with hlt
      exact not_lt.mp hlt
  | append_singleton rs r ih =>
      have hmono : (heardLocations (selfResponse c :: rs)).card ≤
          (heardLocations (selfResponse c :: (rs ++ [r]))).card := by
        rw [← List.cons_append, heardLocations_snoc]
        apply Finset.card_le_card
        unfold addLocation
        split
        · exact subset_refl _
        · exact Finset.subset_insert _ _
      rw [← List.cons_append, status_snoc hc] at h
      split_ifs at h with hp
      · unfold decision at h
        have hself := one_le_successes c rs
        split_ifs at h with hloc hlt he hmet hmet
        · exact not_lt.mp hlt
        · -- the counter has passed the threshold with the local node
          rw [successes_snoc, if_pos he] at hmet
          push_cast at hmet
          omega
      · exact (ih h).trans (by exact_mod_cast hmono)

/-- It fails only while there are too few locations. -/
theorem locations_of_failed (hc : Fresh c) (hs : c.successThreshold ≤ 1)
    (hl : c.location ≠ none) (rs : List Response)
    (h : statusAfter c (selfResponse c :: rs) = .failed) :
    ∃ pre post, rs = pre ++ post ∧ c.failureThreshold ≤ failures (selfResponse c :: pre) ∧
      ((heardLocations (selfResponse c :: pre)).card : Int) < c.locationThreshold := by
  induction rs using List.reverseRecOn with
  | nil =>
      rw [status_self_located hc hs hl] at h
      split_ifs at h
  | append_singleton rs r ih =>
      rw [← List.cons_append, status_snoc hc] at h
      split_ifs at h with hp
      · have hself := one_le_successes c rs
        have hreached : c.successThreshold ≤ successes (selfResponse c :: rs ++ [r]) := by
          rw [successes_snoc]
          push_cast
          omega
        unfold decision at h
        split_ifs at h with hloc hlt he hmet hmet
        -- the response has no location, so the number of locations has not changed
        have hnone : r.remoteLocation = none := by
          by_contra hsome
          exact hloc ⟨hsome, hreached⟩
        have hsame : heardLocations (selfResponse c :: rs ++ [r]) =
            heardLocations (selfResponse c :: rs) := by
          rw [heardLocations_snoc, addLocation, hnone]
          rfl
        have hpending := status_located hc (selfResponse c :: rs)
        rw [hp] at hpending
        refine ⟨rs ++ [r], [], (List.append_nil _).symm, hmet.ge, ?_⟩
        rw [← List.cons_append, hsame]
        apply hpending.2
        · obtain ⟨l, hl⟩ := Option.ne_none_iff_exists'.mp hl
          exact Finset.ne_empty_of_mem (a := l) (by simp [heardLocations, selfResponse, hl])
        · omega
      · obtain ⟨pre, post, rfl, hrest⟩ := ih h
        exact ⟨pre, post ++ [r], List.append_assoc .., hrest⟩

/-- The locations heard from are among those of the local node and the counted peers. -/
theorem Accounted.heardLocations_subset {hostId : String} {service : ServiceState} {s : State}
    {done : List (NodeState × Response)} (h : Accounted hostId service c s done) :
    heardLocations s.heard ⊆ reachableLocations hostId service c := by
  intro l hl
  rw [heardLocations, List.mem_toFinset, List.mem_filterMap] at hl
  obtain ⟨r, hr, hrl⟩ := hl
  rw [reachableLocations, List.mem_toFinset, List.mem_append]
  rw [h.heard] at hr
  rcases List.mem_cons.mp hr with rfl | hr
  · exact Or.inl (Option.mem_toList.mpr hrl)
  · obtain ⟨p, hp, rfl⟩ := List.mem_map.mp hr
    right
    rw [List.mem_filterMap]
    refine ⟨p.1, ?_, (h.location p hp).symm.trans hrl⟩
    exact h.nodes.subset (List.mem_append_left _ (List.mem_map_of_mem hp))

end

/-! ## At least one remote node -/

/-- The parent operation succeeds only after a remote node has reported success. -/
def Durable (u : Update) : Prop :=
  match replicateUpdate u with
  | .failed _ => True
  | .completed => False
  | .replicating service c =>
      ∀ es s, Reach (step u.hostId c) (fun _ _ => True) (start service c) es s →
        (∃ code, .complete code ∈ completions c s.heard) → ∃ e ∈ es, Accepts c e = true

/-- Two remote nodes, or more, are selected; or the operation cannot succeed at all, as less than
two nodes are selected without a location, or there are too few locations. -/
def NeedsRemote (u : Update) : Prop :=
  3 ≤ u.selectedNodes.length ∨ (u.location = none ∧ u.selectedNodes.length ≠ 2) ∨
    ShortOfLocations u

section

variable {u : Update} {q el : Int} {c : Context}

theorem complete_mem_completions (hc : Fresh c) (rs : List Response) :
    (∃ code, .complete code ∈ completions c rs) ↔ statusAfter c rs = .succeeded := by
  have hout := completions_of_status hc rs
  cases hs : statusAfter c rs with
  | succeeded =>
      rw [hs] at hout
      exact iff_of_true ⟨statusCodeOk, by simp [hout]⟩ rfl
  | failed =>
      rw [hs] at hout
      obtain ⟨code, msg, hout⟩ := hout
      exact iff_of_false (by simp [hout]) (by simp)
  | pending =>
      rw [hs] at hout
      exact iff_of_false (by simp [hout]) (by simp)

/-- What a run without a success of a remote node can lead to. -/
theorem Installed.durable_of_short (h : Installed u q el c) (hq : q ≤ 1)
    (hshort : ShortOfLocations u) {ok : State → Event → Prop} {es : List Event} {s : State}
    (hrun : Reach (step u.hostId c) ok (start u.caches c) es s) :
    statusAfter c s.heard ≠ .succeeded := by
  intro hst
  obtain ⟨done, hacc⟩ := accounted_reach (u.group h) hrun
  have hsub := Finset.card_le_card hacc.heardLocations_subset
  rw [hacc.heard] at hst hsub
  have hle := locations_of_succeeded h.fresh (h.success.trans_le hq)
    (h.location.trans_ne hshort.1) _ hst
  rw [h.locations] at hsub
  have hlt := hshort.2
  rw [← h.locationThreshold] at hlt
  omega

theorem Installed.durable_of_unlocated (h : Installed u q el c) (hq : q ≤ 0)
    (hloc : u.location = none) {ok : State → Event → Prop} {es : List Event} {s : State}
    (hrun : Reach (step u.hostId c) ok (start u.caches c) es s) :
    statusAfter c s.heard ≠ .succeeded := by
  intro hst
  have hc : c.location = none := h.location.trans hloc
  obtain ⟨done, hacc⟩ := accounted_reach (u.group h) hrun
  have hunlocated : Unlocated s.heard := by
    rw [hacc.heard]
    intro r hr
    rcases List.mem_cons.mp hr with rfl | hr
    · exact hc
    · obtain ⟨p, hp, rfl⟩ := List.mem_map.mp hr
      rw [hacc.location p hp, responseLocation, if_pos hc]
  have hmet := status_unlocated h.fresh hunlocated
  rw [hst] at hmet
  have := hmet.1
  rw [h.success] at this
  omega

/-- Where the local node is enough and there are enough locations, the operation succeeds when
every remote node fails. -/
theorem Installed.exists_not_durable {n : Int} (h : Installed u (n - 1) n c)
    (hn : n = u.selectedNodes.length) (htwo : n ≤ 2)
    (hloc : u.location ≠ none) (hshort : ¬ ShortOfLocations u) :
    ∃ es s, Reach (step u.hostId c) (fun _ _ => True) (start u.caches c) es s ∧
      statusAfter c s.heard = .succeeded ∧ ∀ e ∈ es, Accepts c e = false := by
  have hlocated : c.location ≠ none := h.location.trans_ne hloc
  have hthreshold : c.successThreshold ≤ 1 := h.success.trans_le (by omega)
  by_cases hone : c.locationThreshold = 1
  · -- the local node makes up the location quorum
    refine ⟨[], _, .refl, ?_, by simp⟩
    rw [start_heard, status_self_located h.fresh hthreshold hlocated, if_neg]
    obtain ⟨l, hl⟩ := Option.ne_none_iff_exists'.mp hlocated
    rw [hone]
    simp [heardLocations, selfResponse, hl]
  · have hg := u.group h
    have hnone : 0 + (countedPeers u.hostId u.caches c).countP isUnAvailable ≤
        (countedPeers u.hostId u.caches c).length := by
      rw [Nat.zero_add]
      exact List.countP_le_length
    obtain ⟨es, s, hrun, hend, hsucc⟩ := exists_final hg hnone
    obtain ⟨done, hacc⟩ := accounted_reach hg hrun
    have hfinal := hacc.final hend
    have hlocations : heardLocations s.heard = u.locations := hfinal.locations.trans h.locations
    have henough : c.locationThreshold ≤ (heardLocations s.heard).card := by
      rw [hlocations, h.locationThreshold]
      exact not_lt.mp fun hlt => hshort ⟨hloc, hlt⟩
    refine ⟨es, s, hrun, ?_, ?_⟩
    · cases hst : statusAfter c s.heard with
      | succeeded => rfl
      | pending =>
          have hpending := status_located h.fresh s.heard
          rw [hst] at hpending
          have hlt := hpending.2 ?_ ?_
          · omega
          · obtain ⟨l, hl⟩ := Option.ne_none_iff_exists'.mp hloc
            rw [hlocations]
            exact Finset.ne_empty_of_mem (a := l) (by simp [Update.locations, hl])
          · omega
      | failed =>
          rw [hacc.heard] at hst
          obtain ⟨pre, post, hdone, hfail, hlt⟩ :=
            locations_of_failed h.fresh hthreshold hlocated _ hst
          -- it takes two failures, and these are all there can be
          have htotal := hfinal.total
          have hpeers : (countedPeers u.hostId u.caches c).length ≤ u.selectedNodes.length := by
            rw [← h.nodes]
            exact List.length_filter_le ..
          have hlength := successes_add_failures (selfResponse c :: pre)
          have hself := one_le_successes c pre
          have htwo' : c.failureThreshold = 2 := by
            rw [h.failure]
            unfold failureThresholdFor
            rw [sub_sub_cancel]
            rfl
          have hpost : post = [] := by
            rw [successes_add_failures, hacc.heard, hdone] at htotal
            simp only [List.length_cons, List.length_append] at htotal hlength
            apply List.eq_nil_of_length_eq_zero
            omega
          rw [hpost, List.append_nil] at hdone
          rw [hacc.heard, hdone] at henough
          omega
    · rw [successes_eq (Or.inr hone) hrun] at hsucc
      have hzero : es.countP (Accepts c) = 0 := by omega
      intro e he
      exact Bool.eq_false_iff.mpr (List.countP_eq_zero.mp hzero e he)

/-- Of two selected nodes the local one is enough. -/
theorem Installed.succeeds_at_once (h : Installed u 1 el c) (hloc : u.location = none) :
    statusAfter c (start u.caches c).heard = .succeeded := by
  have hc : c.location = none := h.location.trans hloc
  have hself : (selfResponse c).e = none := rfl
  have hmet : (successes [selfResponse c] : Int) = c.successThreshold := h.success.symm
  rw [start_heard, status_self h.fresh, decision, if_neg (fun hl => hl.1 hc), if_pos hself,
    if_pos hmet]

/-- A threshold of two asks for a remote node. -/
theorem Installed.exists_accepts (h : Installed u 2 el c) {ok : State → Event → Prop}
    {es : List Event} {s : State} (hrun : Reach (step u.hostId c) ok (start u.caches c) es s)
    (hst : statusAfter c s.heard = .succeeded) : ∃ e ∈ es, Accepts c e = true := by
  have hmet := status_located h.fresh s.heard
  rw [hst] at hmet
  dsimp only at hmet
  rw [h.success] at hmet
  have hle := successes_le hrun
  exact List.countP_pos_iff.mp (by omega)

end

/-- Without a quorum, and with a remote node in the group that is available. -/
theorem durable_iff (u : Update) (hheader : u.rplQuorumValue = none)
    (howner : u.ownerSelection = false)
    (hremote : ∃ m ∈ u.nodes, m.id ≠ u.hostId ∧ isUnAvailable m = false) :
    Durable u ↔ NeedsRemote u := by
  have hnodes : u.nodes.length ≠ 1 := by
    intro hone
    obtain ⟨m, hm, hne, -⟩ := hremote
    obtain ⟨x, hx⟩ := List.length_eq_one_iff.mp hone
    have hself := u.self_mem
    rw [hx, List.mem_singleton] at hm hself
    rw [hm, ← hself] at hne
    exact hne u.self_id
  have hquorum : requiredQuorum u =
      some (min 2 ((u.selectedNodes.length : Int) - 1), (u.selectedNodes.length : Int)) := by
    simp [requiredQuorum, hheader, howner]
  have hspec := replicateUpdate_spec u (by simp [howner]) hnodes
  rw [hquorum] at hspec
  obtain ⟨c, hstarted, hinst⟩ := hspec
  have hdurable : Durable u ↔ ∀ es s,
      Reach (step u.hostId c) (fun _ _ => True) (start u.caches c) es s →
        statusAfter c s.heard = .succeeded → ∃ e ∈ es, Accepts c e = true := by
    unfold Durable
    rw [hstarted]
    simp only [complete_mem_completions hinst.fresh]
  rw [hdurable]
  constructor
  · intro hall
    by_contra hnot
    obtain ⟨hthree, hrest⟩ := not_or.mp hnot
    obtain ⟨htwo, hshort⟩ := not_or.mp hrest
    rw [min_eq_right (by omega)] at hinst
    -- without a location the host's own response is enough
    by_cases hloc : u.location = none
    · have hlen : u.selectedNodes.length = 2 := by
        by_contra hne
        exact htwo ⟨hloc, hne⟩
      rw [hlen] at hinst
      obtain ⟨e, he, -⟩ := hall [] _ .refl (hinst.succeeds_at_once hloc)
      exact absurd he List.not_mem_nil
    · obtain ⟨es, s, hrun, hst, hnone⟩ :=
        hinst.exists_not_durable rfl (by omega) hloc hshort
      obtain ⟨e, he, haccepts⟩ := hall es s hrun hst
      rw [hnone e he] at haccepts
      cases haccepts
  · intro hneeds es s hrun hst
    by_cases hthree : 3 ≤ u.selectedNodes.length
    · rw [min_eq_left (by omega)] at hinst
      exact hinst.exists_accepts hrun hst
    · rcases hneeds with hthree' | ⟨hloc, htwo⟩ | hshort
      · exact absurd hthree' hthree
      · exact absurd hst (hinst.durable_of_unlocated (by omega) hloc hrun)
      · exact absurd hst (hinst.durable_of_short (by omega) hshort hrun)

/-- Three nodes: the local one and one of the others. -/
theorem durable_of_three :
    NeedsRemote { groupOfThree [.peer] with ownerSelection := false } ∧
      Durable { groupOfThree [.peer] with ownerSelection := false } := by
  have hneeds : NeedsRemote { groupOfThree [.peer] with ownerSelection := false } :=
    Or.inl (by decide)
  refine ⟨hneeds, (durable_iff _ rfl rfl ?_).mpr hneeds⟩
  exact ⟨⟨⟨"http", "b", 8000, "/core/node-groups/default", none⟩, .available, [.peer], "b", 2, 1,
    none⟩, by decide, by decide, by decide⟩

/-- An update of a service without owner selection, in a group of two nodes. -/
def groupOfTwo : Update :=
  let node (id : String) : NodeState :=
    ⟨⟨"http", id, 8000, "/core/node-groups/default", none⟩, .available, [.peer], id, 1, 1, none⟩
  let nodes := [node "a", node "b"]
  { hostId := "a"
    location := none
    service := ⟨fun _ => none, fun _ => none, none⟩
    nodes := nodes
    selfNode := node "a"
    self_mem := by simp [nodes]
    self_id := rfl
    selectedNodes := nodes
    selected_mem := fun _ h => h
    selected_size := by simp [nodes]
    groupLink := "/core/node-groups/default"
    group_path := by simp [nodes, node]
    group_location := by simp [nodes, node]
    outboundOp := ⟨1, .put, ⟨"http", "a", 8000, "/core/examples/one", none⟩⟩
    rplQuorumValue := none
    ownerSelection := false
    replicationQuorum := none }

/-- With two nodes the operation is completed before the update is sent. -/
theorem not_durable_of_two : ¬ ∀ u : Update, u.rplQuorumValue = none → u.ownerSelection = false →
    (∃ m ∈ u.nodes, m.id ≠ u.hostId ∧ isUnAvailable m = false) → Durable u := by
  intro h
  have hdurable := h groupOfTwo rfl rfl
    ⟨⟨⟨"http", "b", 8000, "/core/node-groups/default", none⟩, .available, [.peer], "b", 1, 1,
      none⟩, by decide, by decide, by decide⟩
  have hcompleted : ∃ c, replicateUpdate groupOfTwo = .replicating groupOfTwo.service c ∧
      .complete statusCodeOk ∈ completions c (start groupOfTwo.service c).heard :=
    ⟨_, rfl, by decide⟩
  obtain ⟨c, hstarted, hmem⟩ := hcompleted
  unfold Durable at hdurable
  rw [hstarted] at hdurable
  obtain ⟨e, he, -⟩ := hdurable [] _ .refl ⟨_, hmem⟩
  exact absurd he List.not_mem_nil

end Xenon.Replication
