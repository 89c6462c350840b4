import Xenon.Replication.Accounting

/-!
# When a replication decides

At the end of a run the context has heard once from the local node and once
from every counted peer, so the tallies are fixed up to the number of available
peers that accept (`Final`), and every such number occurs in some run
(`exists_final`). Whether the parent operation can be left pending is then
arithmetic on the thresholds that `replicateUpdate` installs. They are computed
from the number of *selected* nodes, and an observer is selected but never
heard from.
-/

namespace Xenon.Replication

open Xenon.Common Xenon.Foundation

/-! ## The tallies at the end of a run -/

section Final

variable {hostId : String} {service : ServiceState} {c : Context}

/-- The peers a context hears from. -/
def countedPeers (hostId : String) (service : ServiceState) (c : Context) :
    List NodeState :=
  c.nodes.filter (countedNode hostId service c)

/-- The locations of the local node and of the counted peers. -/
def reachableLocations (hostId : String) (service : ServiceState) (c : Context) :
    Finset String :=
  (c.location.toList ++
    (countedPeers hostId service c).filterMap (responseLocation service c)).toFinset

/-- What is known of the responses once every node is accounted for. -/
structure Final (hostId : String) (service : ServiceState) (c : Context)
    (rs : List Response) : Prop where
  total : successes rs + failures rs = (countedPeers hostId service c).length + 1
  success : 1 ≤ successes rs
  failure : (countedPeers hostId service c).countP isUnAvailable ≤ failures rs
  locations : heardLocations rs = reachableLocations hostId service c
  unlocated : c.location = none → Unlocated rs

theorem successes_cons (r : Response) (rs : List Response) :
    successes (r :: rs) = successes rs + (if r.e = none then 1 else 0) := by
  cases h : r.e <;> simp [successes, h]

theorem failures_cons (r : Response) (rs : List Response) :
    failures (r :: rs) = failures rs + (if r.e = none then 0 else 1) := by
  cases h : r.e <;> simp [failures, h]

theorem countP_fst_le_failures {done : List (NodeState × Response)}
    (h : ∀ p ∈ done, isUnAvailable p.1 = true → p.2.e ≠ none) :
    (done.map Prod.fst).countP isUnAvailable ≤ failures (done.map Prod.snd) := by
  rw [failures, List.countP_map, List.countP_map]
  refine List.countP_mono_left fun p hp hu => ?_
  exact Option.isSome_iff_ne_none.mpr (h p hp hu)

theorem Accounted.final {s : State} {done : List (NodeState × Response)}
    (h : Accounted hostId service c s done) (hs : s.Complete) :
    Final hostId service c s.heard := by
  have hnodes : (done.map Prod.fst).Perm (countedPeers hostId service c) := by
    have := h.nodes
    rwa [hs.1, hs.2, List.append_nil, List.filter_nil, List.append_nil] at this
  have hlocs : (done.map Prod.snd).map (·.remoteLocation) =
      (done.map Prod.fst).map (responseLocation service c) := by
    rw [List.map_map, List.map_map]
    exact List.map_congr_left h.location
  rw [h.heard]
  refine ⟨?_, ?_, ?_, ?_, ?_⟩
  · rw [successes_add_failures, ← hnodes.length_eq]
    simp
  · rw [successes_cons]
    simp [selfResponse]
  · rw [failures_cons, ← hnodes.countP_eq]
    exact Nat.le_add_right_of_le (countP_fst_le_failures h.unavailable)
  · have hmem : ∀ l, some l ∈ (done.map Prod.snd).map (·.remoteLocation) ↔
        some l ∈ (countedPeers hostId service c).map (responseLocation service c) := by
      intro l
      rw [hlocs]
      exact (hnodes.map _).mem_iff
    ext l
    have := hmem l
    rw [List.mem_map, List.mem_map] at this
    simp only [heardLocations, reachableLocations, selfResponse, List.mem_toFinset,
      List.mem_filterMap, List.mem_append, Option.mem_toList, List.mem_cons,
      exists_eq_or_imp]
    rw [this]
  · intro hl r hr
    rcases List.mem_cons.mp hr with rfl | hr
    · exact hl
    · obtain ⟨p, hp, rfl⟩ := List.mem_map.mp hr
      rw [h.location p hp, responseLocation, if_pos hl]

/-! ## Every split of the available peers occurs

The loop is run to its end first; then the responses come in, as many
successes as asked for before the failures. -/

/-- The loop alone hears from unavailable nodes only. -/
theorem exists_loop (hg : Group c.nodes) :
    ∀ {todo : List NodeState} {s : State} {done : List (NodeState × Response)},
    s.todo = todo → Accounted hostId service c s done →
    (∀ p ∈ done, isUnAvailable p.1 = true) →
    ∃ es s' done', Reach (step hostId c) (fun _ _ => True) s es s' ∧ s'.todo = [] ∧
      Accounted hostId service c s' done' ∧
      ∀ p ∈ done', isUnAvailable p.1 = true := by
  intro todo
  induction todo with
  | nil =>
      intro s done htodo h hdone
      exact ⟨[], s, done, .refl, htodo, h, hdone⟩
  | cons m rest ih =>
      intro s done htodo h hdone
      obtain ⟨s₁, hstep⟩ : ∃ s₁, step hostId c s .next = some s₁ := by
        simp only [step, htodo]
        split_ifs <;> exact ⟨_, rfl⟩
      obtain ⟨m', htodo', more, h₁, hmore⟩ := h.next hg hstep
      have hrest : s₁.todo = rest := by
        rw [htodo] at htodo'
        exact (List.cons.inj htodo').2.symm
      obtain ⟨es, s', done', hreach, hend⟩ := ih hrest h₁ (by
        intro p hp
        rcases List.mem_append.mp hp with hp | hp
        · exact hdone p hp
        · exact hmore p hp)
      exact ⟨_, s', done', (Reach.refl.snoc trivial hstep).trans hreach, hend⟩

/-- A response of the wanted kind. -/
def responseEvent (m : NodeState) (ok : Bool) : Event :=
  .response m (if ok then none else some "request failed") statusCodeOk none

theorem heardFrom_event (m : NodeState) (ok : Bool) :
    successes ((heardFrom hostId service c m statusCodeOk none
      (if ok then none else some "request failed")).map Prod.snd) =
      if countedNode hostId service c m = true ∧ ok = true then 1 else 0 := by
  unfold heardFrom
  by_cases hc : countedNode hostId service c m = true
  · cases ok with
    | false => simp [hc, successes, nodeResponse, completionError]
    | true =>
        simp [hc, successes, nodeResponse, completionError, peerOp, statusCodeOk,
          statusCodeFailureThreshold]
  · simp [hc, successes]

theorem exists_responses (hg : Group c.nodes) :
    ∀ {inflight : List NodeState} {s : State} {done : List (NodeState × Response)}
      {p : Nat}, s.inflight = inflight → s.todo = [] →
    Accounted hostId service c s done →
    p ≤ inflight.countP (countedNode hostId service c) →
    ∃ es s', Reach (step hostId c) (fun _ _ => True) s es s' ∧ s'.Complete ∧
      successes s'.heard = successes s.heard + p := by
  intro inflight
  induction inflight with
  | nil =>
      intro s done p hin htodo h hp
      obtain rfl : p = 0 := by simpa using hp
      exact ⟨[], s, .refl, ⟨htodo, hin⟩, rfl⟩
  | cons m rest ih =>
      intro s done p hin htodo h hp
      rw [List.countP_cons] at hp
      -- the peer accepts if it counts and a success is still wanted
      obtain ⟨ok, hok⟩ : ∃ ok : Bool, ok = true ↔
          countedNode hostId service c m = true ∧ 1 ≤ p :=
        ⟨decide (countedNode hostId service c m = true ∧ 1 ≤ p), by simp⟩
      obtain ⟨s₁, hstep⟩ : ∃ s₁, step hostId c s (responseEvent m ok) = some s₁ := by
        simp only [step, responseEvent, hin, List.mem_cons, true_or, if_true]
        exact ⟨_, rfl⟩
      obtain ⟨-, hin₁, htodo₁, h₁⟩ := h.response hg hstep
      have hsucc : successes s₁.heard = successes s.heard +
          if countedNode hostId service c m = true ∧ ok = true then 1 else 0 := by
        rw [h₁.heard, h.heard, List.map_append, ← List.cons_append,
          ← heardFrom_event]
        exact List.countP_append
      obtain ⟨es, s', hreach, hend, hcount⟩ := ih
        (p := p - if countedNode hostId service c m = true ∧ ok = true then 1 else 0)
        (by rw [hin₁, hin, List.erase_cons_head]) (htodo₁.trans htodo) h₁ (by
          split at hp <;> split_ifs <;> grind)
      refine ⟨_, s', (Reach.refl.snoc trivial hstep).trans hreach, hend, ?_⟩
      rw [hcount, hsucc]
      split_ifs with hboth
      · have := (hok.mp hboth.2).2
        omega
      · omega

/-- **Every split occurs**: any number of the available counted peers may be
the ones that accept. -/
theorem exists_final (hg : Group c.nodes) {p : Nat}
    (hp : p + (countedPeers hostId service c).countP isUnAvailable ≤
      (countedPeers hostId service c).length) :
    ∃ es s, Reach (step hostId c) (fun _ _ => True) (start service c) es s ∧
      s.Complete ∧ successes s.heard = p + 1 := by
  have hstart : Accounted hostId service c (start service c) [] := accounted_start
  obtain ⟨es, s, done, hreach, htodo, h, hdone⟩ := exists_loop hg rfl hstart (by simp)
  have hnodes := h.nodes
  rw [htodo, List.append_nil] at hnodes
  -- after the loop the unavailable peers are exactly those heard from
  have hdown : (countedPeers hostId service c).countP isUnAvailable = done.length := by
    have hdone : (done.map Prod.fst).countP isUnAvailable = done.length := by
      rw [List.countP_map]
      exact List.countP_eq_length.mpr hdone
    rw [countedPeers, ← hnodes.countP_eq, List.countP_append, hdone,
      List.countP_eq_zero.mpr]
    · rfl
    · intro m hm
      rw [(h.inflight m (List.mem_of_mem_filter hm)).2.1.available]
      simp
  have hup := hnodes.length_eq
  rw [List.length_append, List.length_map, ← List.countP_eq_length_filter] at hup
  have hself : successes s.heard = 1 := by
    rw [h.heard, successes_cons, successes, List.countP_map, List.countP_eq_zero.mpr]
    · rfl
    · intro q hq
      simpa using h.unavailable q hq (hdone q hq)
  obtain ⟨es', s', hreach', hend, hcount⟩ :=
    exists_responses (p := p) hg rfl htodo h (by
      rw [countedPeers] at hp hdown
      omega)
  exact ⟨_, s', hreach.trans hreach', hend, by rw [hcount, hself]; omega⟩

end Final

/-! ## The thresholds that are installed -/

/-- The quorum that applies to an update and the member count it is taken
from; `none` when the request header is rejected. With a location and a
location quorum other than one neither threshold is set, as if none out of
minus one were asked for. -/
def requiredQuorum (u : Update) : Option (Int × Int) :=
  let n : Int := u.selectedNodes.length
  match u.rplQuorumValue with
  | some v => (headerQuorum v n).toOption.map fun q => (q, n)
  | none =>
      if u.ownerSelection then
        match u.location with
        | none =>
            match u.replicationQuorum with
            | some q =>
                if u.outboundOp.action ≠ .delete then some (q.toInt, n)
                else some (min n u.selfNode.membershipQuorum.toInt, n)
            | none => some (min n u.selfNode.membershipQuorum.toInt, n)
        | some location =>
            let count := (getNodeCountInLocation u.service location u.selectedNodes).1.toInt
            if u.selfNode.locationQuorum = 1 then
              some (min count u.selfNode.membershipQuorum.toInt, count)
            else some (0, -1)
      else some (min 2 (n - 1), n)

/-- The caches when the update is sent out. -/
def Update.caches (u : Update) : ServiceState :=
  match u.rplQuorumValue, u.ownerSelection, u.location with
  | none, true, some location =>
      (getNodeCountInLocation u.service location u.selectedNodes).2
  | _, _, _ => u.service

/-- The update is failed or completed without being sent to any node. -/
def DecidedAtOnce (u : Update) : Prop :=
  (u.ownerSelection = true ∧ (u.nodes.length : Int) < u.selfNode.membershipQuorum.toInt) ∨
    u.nodes.length = 1 ∨ requiredQuorum u = none

/-- The context of an update that is sent out. -/
structure Installed (u : Update) (q el : Int) (c : Context) : Prop where
  fresh : Fresh c
  location : c.location = u.location
  nodes : c.nodes = u.selectedNodes
  locationThreshold : c.locationThreshold = u.selfNode.locationQuorum.toInt
  success : c.successThreshold = q
  failure : c.failureThreshold = failureThresholdFor el q

theorem installed_withThresholds (u : Update) (q el : Int) :
    Installed u q el (withThresholds
      { newContext u.location u.selectedNodes u.outboundOp with
        locationThreshold := u.selfNode.locationQuorum.toInt } el q) :=
  ⟨⟨rfl, rfl, rfl, rfl⟩, rfl, rfl, rfl, rfl, rfl⟩

theorem installed_unset (u : Update) :
    Installed u 0 (-1)
      { newContext u.location u.selectedNodes u.outboundOp with
        locationThreshold := u.selfNode.locationQuorum.toInt } :=
  ⟨⟨rfl, rfl, rfl, rfl⟩, rfl, rfl, rfl, rfl, rfl⟩

/-- What `replicateUpdate` does with an update that needs other nodes. -/
theorem replicateUpdate_spec (u : Update)
    (hpeers : ¬ (u.ownerSelection = true ∧
      (u.nodes.length : Int) < u.selfNode.membershipQuorum.toInt))
    (hone : u.nodes.length ≠ 1) :
    match requiredQuorum u with
    | none => ∃ message, replicateUpdate u = .failed message
    | some (q, el) => ∃ c, replicateUpdate u = .replicating u.caches c ∧
        Installed u q el c := by
  have hone' : ¬ (u.nodes.length : Int) = 1 := by exact_mod_cast hone
  have hinst := installed_withThresholds u
  have hunset := installed_unset u
  unfold replicateUpdate requiredQuorum Update.caches
  simp only [gt_iff_lt, if_neg hpeers, if_neg hone']
  generalize ({ newContext u.location u.selectedNodes u.outboundOp with
    locationThreshold := u.selfNode.locationQuorum.toInt } : Context) = ctx
    at hinst hunset ⊢
  cases hv : u.rplQuorumValue with
  | some v =>
      dsimp only
      cases hh : headerQuorum v u.selectedNodes.length with
      | error m =>
          simp only [Except.toOption, Option.map_none]
          exact ⟨m, rfl⟩
      | ok q =>
          simp only [Except.toOption, Option.map_some]
          exact ⟨_, rfl, hinst q _⟩
  | none =>
      cases ho : u.ownerSelection with
      | false =>
          simp only [Bool.false_eq_true, if_false]
          exact ⟨_, rfl, hinst _ _⟩
      | true =>
          simp only [if_true]
          cases hl : u.location with
          | none =>
              cases hq : u.replicationQuorum with
              | none => exact ⟨_, rfl, hinst _ _⟩
              | some q =>
                  dsimp only
                  by_cases hd : u.outboundOp.action ≠ .delete
                  · simp only [if_pos hd]
                    exact ⟨_, rfl, hinst _ _⟩
                  · simp only [if_neg hd]
                    exact ⟨_, rfl, hinst _ _⟩
          | some location =>
              dsimp only
              by_cases h1 : u.selfNode.locationQuorum = 1
              · simp only [if_pos h1]
                exact ⟨_, rfl, hinst _ _⟩
              · simp only [if_neg h1]
                exact ⟨_, rfl, hunset⟩

/-- The range of the quorum and of the count it is taken from. -/
structure InRange (u : Update) (q el : Int) : Prop where
  eligible : el < 2 ^ 31
  quorum : -(2 ^ 31) ≤ q
  difference : -(2 ^ 31) ≤ el - q
  selected : u.location = none → el = u.selectedNodes.length

theorem headerQuorum_range {v : String} {n q : Int} (hn : 0 ≤ n)
    (h : headerQuorum v n = .ok q) : -(2 ^ 31) ≤ q ∧ q ≤ n := by
  simp only [headerQuorum] at h
  split at h
  · simp at h
  · rename_i s hs
    split at h
    · simp at h
    · obtain rfl : s = q := by simpa using h
      refine ⟨?_, by omega⟩
      split at hs
      · obtain rfl : n = s := by simpa using hs
        omega
      · obtain ⟨i, -, rfl⟩ := Option.map_eq_some_iff.mp hs
        exact i.le_toInt

theorem inRange_min (u : Update) :
    InRange u (min (u.selectedNodes.length : Int) u.selfNode.membershipQuorum.toInt)
      u.selectedNodes.length := by
  have hn := u.selected_size
  have hq := u.selfNode.membershipQuorum.le_toInt
  exact ⟨by omega, by omega, by omega, fun _ => rfl⟩

theorem requiredQuorum_range {u : Update} {q el : Int}
    (h : requiredQuorum u = some (q, el)) : InRange u q el := by
  have hn := u.selected_size
  unfold requiredQuorum at h
  -- the quorum of a header is checked; else owner selection and the location decide
  cases hv : u.rplQuorumValue with
  | some v =>
      simp only [hv, Option.map_eq_some_iff, Prod.mk.injEq] at h
      obtain ⟨q', hh, rfl, rfl⟩ := h
      have hok : headerQuorum v u.selectedNodes.length = .ok q' := by
        revert hh
        cases headerQuorum v u.selectedNodes.length <;> simp [Except.toOption]
      obtain ⟨h1, h2⟩ := headerQuorum_range (by omega) hok
      exact ⟨by omega, h1, by omega, fun _ => rfl⟩
  | none =>
      cases ho : u.ownerSelection with
      | false =>
          simp only [hv, ho, Bool.false_eq_true, if_false, Option.some.injEq,
            Prod.mk.injEq] at h
          obtain ⟨rfl, rfl⟩ := h
          exact ⟨by omega, by omega, by omega, fun _ => rfl⟩
      | true =>
          cases hl : u.location with
          | none =>
              cases hq : u.replicationQuorum with
              | none =>
                  simp only [hv, ho, hl, hq, if_true, Option.some.injEq,
                    Prod.mk.injEq] at h
                  obtain ⟨rfl, rfl⟩ := h
                  exact inRange_min u
              | some i =>
                  simp only [hv, ho, hl, hq, if_true] at h
                  split at h
                  · obtain ⟨rfl, rfl⟩ := Prod.mk.inj (Option.some.inj h)
                    have h1 := i.le_toInt
                    have h2 := i.toInt_lt
                    exact ⟨by omega, by omega, by omega, fun _ => rfl⟩
                  · obtain ⟨rfl, rfl⟩ := Prod.mk.inj (Option.some.inj h)
                    exact inRange_min u
          | some location =>
              simp only [hv, ho, hl, if_true] at h
              have hloc : u.location ≠ none := by simp [hl]
              split at h
              · obtain ⟨rfl, rfl⟩ := Prod.mk.inj (Option.some.inj h)
                generalize (getNodeCountInLocation u.service location
                  u.selectedNodes).1 = count
                have h1 := count.le_toInt
                have h2 := count.toInt_lt
                have h3 := u.selfNode.membershipQuorum.le_toInt
                exact ⟨by omega, by omega, by omega, fun hn => absurd hn hloc⟩
              · obtain ⟨rfl, rfl⟩ := Prod.mk.inj (Option.some.inj h)
                exact ⟨by omega, by omega, by omega, fun hn => absurd hn hloc⟩

/-! ## The arithmetic of the thresholds -/

theorem failureThreshold_of_le {q el : Int} (h1 : 1 ≤ q) (h2 : q ≤ el)
    (h3 : el < 2 ^ 31) : failureThresholdFor el q = el - q + 1 := by
  unfold failureThresholdFor javaInt Int.bmod
  norm_num
  omega

/-- More is asked for than there are members. -/
theorem failureThreshold_of_gt {q el : Int} (h1 : el < q)
    (h2 : -(2 ^ 31) ≤ el - q) : failureThresholdFor el q ≤ 0 := by
  unfold failureThresholdFor javaInt Int.bmod
  norm_num
  omega

/-- Nothing is asked for: the failure threshold is out of reach, also where it
overflows. -/
theorem failureThreshold_of_nonpos {q el : Int} (h1 : q ≤ 0) (h2 : -(2 ^ 31) ≤ q)
    (h3 : 0 ≤ el) (h4 : el < 2 ^ 31) :
    failureThresholdFor el q ≤ 0 ∨ el < failureThresholdFor el q := by
  unfold failureThresholdFor javaInt Int.bmod
  norm_num
  omega

/-- A quorum of `q` out of `el` that `k` peers, `U` of them unavailable, either
give or cannot prevent from failing. -/
def Attainable (q el : Int) (k U : Nat) : Prop :=
  q ≤ 1 ∨ (q ≤ el ∧ (el - q + 1 ≤ U ∨ el ≤ k + 1))

theorem Attainable.met {q el : Int} {k U S F : Nat} (h : Attainable q el k U)
    (hel : el < 2 ^ 31) (hS : 1 ≤ S) (hU : U ≤ F) (hk : S + F = k + 1) :
    q ≤ S ∨ Met (failureThresholdFor el q) F := by
  rcases h with h | ⟨hq, h⟩
  · exact Or.inl (by omega)
  · by_cases hle : q ≤ S
    · exact Or.inl hle
    · refine Or.inr ?_
      rw [failureThreshold_of_le (by omega) hq hel]
      exact ⟨by omega, by rcases h with h | h <;> omega⟩

/-- Otherwise some number of accepting peers meets neither threshold. -/
theorem exists_unmet {q el : Int} {k U : Nat} (h : ¬ Attainable q el k U)
    (hU : U ≤ k) (hel : el < 2 ^ 31) (hdiff : -(2 ^ 31) ≤ el - q) :
    ∃ p, p + U ≤ k ∧ ((p + 1 : Nat) : Int) < q ∧
      ∀ F : Nat, F + p = k → ¬ Met (failureThresholdFor el q) F := by
  unfold Attainable at h
  by_cases hq : q ≤ el
  · refine ⟨min (k - U) (q - 2).toNat, by omega, by omega, ?_⟩
    rintro F hF ⟨-, hle⟩
    rw [failureThreshold_of_le (by omega) hq hel] at hle
    omega
  · refine ⟨0, by omega, by omega, ?_⟩
    rintro F - ⟨hpos, -⟩
    have := failureThreshold_of_gt (by omega) hdiff
    omega

/-! ## The end of a run -/

section Pending

variable {c : Context} {rs : List Response}

theorem pending_unlocated (hc : Fresh c) (h : Unlocated rs) :
    statusAfter c rs = .pending ↔
      ¬ Met c.successThreshold (successes rs) ∧ ¬ Met c.failureThreshold (failures rs) := by
  have hst := status_unlocated hc h
  cases hs : statusAfter c rs <;> rw [hs] at hst
  · exact iff_of_false (by simp) fun hn => hn.1 hst
  · exact iff_of_false (by simp) fun hn => hn.2 hst
  · exact iff_of_true rfl hst

theorem pending_located (hc : Fresh c) (hne : heardLocations rs ≠ ∅)
    (hL : c.locationThreshold ≤ ((heardLocations rs).card : Int)) :
    statusAfter c rs = .pending ↔
      (successes rs : Int) < c.successThreshold ∧ ¬ Met c.failureThreshold (failures rs) := by
  have hst := status_located hc rs
  cases hs : statusAfter c rs <;> rw [hs] at hst
  · exact iff_of_false (by simp) fun hn => not_lt.mpr hst hn.1
  · exact iff_of_false (by simp) fun hn => hn.2 hst
  · have hlt : (successes rs : Int) < c.successThreshold := by
      by_contra hle
      exact not_lt.mpr hL (hst.2 hne (not_lt.mp hle))
    exact iff_of_true rfl ⟨hlt, hst.1 hlt⟩

/-- The parent operation is completed or failed, once, unless it is pending. -/
theorem completions_singleton (hc : Fresh c) :
    (∃ x, completions c rs = [x]) ↔ statusAfter c rs ≠ .pending := by
  have hout := completions_of_status hc rs
  cases hs : statusAfter c rs <;> rw [hs] at hout
  · exact iff_of_true ⟨_, hout⟩ (by simp)
  · obtain ⟨code, msg, hout⟩ := hout
    exact iff_of_true ⟨_, hout⟩ (by simp)
  · exact iff_of_false (by rintro ⟨x, hx⟩; rw [hout] at hx; simp at hx) (by simp)

end Pending

/-! ## Replication decides -/

/-- The parent operation of an update is decided: no earlier than the first
answer, and exactly once by the time every selected node is accounted for. -/
def AlwaysDecides (u : Update) : Prop :=
  match replicateUpdate u with
  | .failed _ => True
  | .completed => True
  | .replicating service c =>
      ∀ es s, Reach (step u.hostId c) (fun _ _ => True) (start service c) es s →
        (∀ pre post, s.heard = pre ++ post → completions c pre ≠ [] →
          ∃ r ∈ pre, r.e = none) ∧
        (s.Complete → ∃ x, completions c s.heard = [x])

/-- The selected peers whose responses count. -/
def Update.peers (u : Update) : List NodeState :=
  u.selectedNodes.filter
    (counted u.hostId u.location u.selfNode.locationQuorum.toInt u.caches)

/-- The locations of the local node and of these peers. -/
def Update.locations (u : Update) : Finset String :=
  (u.location.toList ++ u.peers.filterMap fun m =>
    if u.location = none then none else nodeLocation u.caches m).toFinset

/-- There are fewer locations than the location quorum asks for. -/
def ShortOfLocations (u : Update) : Prop :=
  u.location ≠ none ∧ (u.locations.card : Int) < u.selfNode.locationQuorum.toInt

/-- The quorum of the update is positive where no location decides, its
locations exist, and its peers can give or refuse it. -/
def WillDecide (u : Update) : Prop :=
  DecidedAtOnce u ∨ ∃ q el, requiredQuorum u = some (q, el) ∧
    (u.location = none → 1 ≤ q) ∧ ¬ ShortOfLocations u ∧
    Attainable q el u.peers.length (u.peers.countP isUnAvailable)

section Decides

variable {u : Update} {q el : Int} {c : Context}

theorem Update.group (u : Update) (h : Installed u q el c) : Group c.nodes := by
  rw [h.nodes]
  refine ⟨fun m hm m' hm' => ?_, fun m hm => ?_, fun m hm m' hm' => ?_⟩
  · rw [(u.group_path m (u.selected_mem m hm)).1, (u.group_path m' (u.selected_mem m' hm')).1]
  · exact (u.group_path m (u.selected_mem m hm)).2
  · exact u.group_location m (u.selected_mem m hm) m' (u.selected_mem m' hm')

theorem Installed.peers (h : Installed u q el c) :
    countedPeers u.hostId u.caches c = u.peers := by
  unfold countedPeers countedNode Update.peers
  rw [h.nodes, h.location, h.locationThreshold]

theorem Installed.locations (h : Installed u q el c) :
    reachableLocations u.hostId u.caches c = u.locations := by
  unfold reachableLocations responseLocation Update.locations
  rw [h.peers, h.location]

/-- What is pending at the end of a run is so for its tallies. -/
theorem Installed.pending (h : Installed u q el c) {rs : List Response}
    (hf : Final u.hostId u.caches c rs) (hshort : ¬ ShortOfLocations u) :
    statusAfter c rs = .pending ↔
      (if u.location = none then ¬ Met q (successes rs) else (successes rs : Int) < q) ∧
        ¬ Met (failureThresholdFor el q) (failures rs) := by
  rw [← h.failure, ← h.success]
  by_cases hl : u.location = none
  · rw [if_pos hl]
    exact pending_unlocated h.fresh (hf.unlocated (h.location.trans hl))
  · have hheard : heardLocations rs = u.locations := hf.locations.trans h.locations
    rw [if_neg hl]
    refine pending_located h.fresh ?_ ?_
    · obtain ⟨l, hl⟩ := Option.ne_none_iff_exists'.mp hl
      rw [hheard]
      exact Finset.ne_empty_of_mem (a := l) (by simp [Update.locations, hl])
    · rw [hheard, h.locationThreshold]
      exact not_lt.mp fun hlt => hshort ⟨hl, hlt⟩

/-- The local node answers first. -/
theorem answered_before_completed (hg : Group c.nodes) (hc : Fresh c)
    {hostId : String} {service : ServiceState} {ok : State → Event → Prop}
    {es : List Event} {s : State}
    (h : Reach (step hostId c) ok (start service c) es s) {pre post : List Response}
    (heq : s.heard = pre ++ post) (hne : completions c pre ≠ []) :
    ∃ r ∈ pre, r.e = none := by
  obtain ⟨done, hacc⟩ := accounted_reach hg h
  rw [hacc.heard] at heq
  cases pre with
  | nil =>
      have := completions_of_status hc []
      rw [show statusAfter c [] = .pending from hc.status] at this
      exact absurd this hne
  | cons r pre =>
      obtain ⟨rfl, -⟩ := List.cons.inj heq
      exact ⟨selfResponse c, by simp, rfl⟩

/-- An update is decided at once, or the end of every run has to decide it. -/
theorem alwaysDecides_cases (u : Update) :
    (DecidedAtOnce u ∧ AlwaysDecides u) ∨
      ∃ q el c, ¬ DecidedAtOnce u ∧ requiredQuorum u = some (q, el) ∧ Installed u q el c ∧
        (AlwaysDecides u ↔ ∀ es s,
          Reach (step u.hostId c) (fun _ _ => True) (start u.caches c) es s →
          s.Complete → statusAfter c s.heard ≠ .pending) := by
  by_cases hpeers : u.ownerSelection = true ∧
      (u.nodes.length : Int) < u.selfNode.membershipQuorum.toInt
  · refine Or.inl ⟨Or.inl hpeers, ?_⟩
    unfold AlwaysDecides
    rw [replicateUpdate, if_pos hpeers]
    trivial
  by_cases hone : u.nodes.length = 1
  · refine Or.inl ⟨Or.inr (Or.inl hone), ?_⟩
    unfold AlwaysDecides
    rw [replicateUpdate, if_neg hpeers, if_pos (by exact_mod_cast hone)]
    trivial
  have hspec := replicateUpdate_spec u hpeers hone
  cases hq : requiredQuorum u with
  | none =>
      rw [hq] at hspec
      obtain ⟨message, hrep⟩ := hspec
      refine Or.inl ⟨Or.inr (Or.inr hq), ?_⟩
      unfold AlwaysDecides
      rw [hrep]
      trivial
  | some p =>
      obtain ⟨q, el⟩ := p
      rw [hq] at hspec
      obtain ⟨c, hrep, hinst⟩ := hspec
      refine Or.inr ⟨q, el, c, ?_, rfl, hinst, ?_⟩
      · rintro (h | h | h)
        · exact hpeers h
        · exact hone h
        · simp [hq] at h
      · unfold AlwaysDecides
        rw [hrep]
        constructor
        · intro h es s hreach hend
          exact (completions_singleton hinst.fresh).mp ((h es s hreach).2 hend)
        · intro h es s hreach
          refine ⟨fun pre post => ?_, fun hend => ?_⟩
          · exact answered_before_completed (u.group hinst) hinst.fresh hreach
          · exact (completions_singleton hinst.fresh).mpr (h es s hreach hend)

/-- Enough: the thresholds cannot both be missed. -/
theorem Installed.decides (h : Installed u q el c) (hr : InRange u q el)
    (hpos : u.location = none → 1 ≤ q) (hshort : ¬ ShortOfLocations u)
    (hatt : Attainable q el u.peers.length (u.peers.countP isUnAvailable))
    {rs : List Response} (hf : Final u.hostId u.caches c rs) :
    statusAfter c rs ≠ .pending := by
  intro hp
  obtain ⟨hs, hfail⟩ := (h.pending hf hshort).mp hp
  have htotal := hf.total
  have hU := hf.failure
  rw [h.peers] at htotal hU
  rcases hatt.met hr.eligible hf.success hU htotal with hle | hmet
  · split at hs
    · exact hs ⟨hpos ‹_›, hle⟩
    · omega
  · exact hfail hmet

/-- Needed: a number of accepting peers that meets neither threshold leaves
the operation pending. -/
theorem Installed.exists_pending (h : Installed u q el c) (hr : InRange u q el)
    (hshort : ¬ ShortOfLocations u)
    (hnot : ¬ ((u.location = none → 1 ≤ q) ∧
      Attainable q el u.peers.length (u.peers.countP isUnAvailable))) :
    ∃ es s, Reach (step u.hostId c) (fun _ _ => True) (start u.caches c) es s ∧
      s.Complete ∧ statusAfter c s.heard = .pending := by
  have hg := u.group h
  have hUk : u.peers.countP isUnAvailable ≤ u.peers.length := List.countP_le_length
  have hrun : ∀ p, p + u.peers.countP isUnAvailable ≤ u.peers.length →
      (if u.location = none then ¬ Met q (p + 1) else ((p + 1 : Nat) : Int) < q) →
      (∀ F, F + p = u.peers.length → ¬ Met (failureThresholdFor el q) F) →
      ∃ es s, Reach (step u.hostId c) (fun _ _ => True) (start u.caches c) es s ∧
        s.Complete ∧ statusAfter c s.heard = .pending := by
    intro p hp hs hF
    rw [← h.peers] at hp
    obtain ⟨es, s, hreach, hend, hsucc⟩ := exists_final hg hp
    obtain ⟨done, hacc⟩ := accounted_reach hg hreach
    have hf := hacc.final hend
    have htotal := hf.total
    rw [h.peers, hsucc] at htotal
    refine ⟨es, s, hreach, hend, (h.pending hf hshort).mpr ⟨?_, hF _ (by omega)⟩⟩
    rwa [hsucc]
  by_cases hatt : Attainable q el u.peers.length (u.peers.countP isUnAvailable)
  · -- the quorum is not positive and no location can make up for it
    have hloc : u.location = none := by
      by_contra hl
      exact hnot ⟨fun hn => absurd hn hl, hatt⟩
    have hq : q ≤ 0 := by
      by_contra hq
      exact hnot ⟨fun _ => by omega, hatt⟩
    have hlen : u.peers.length ≤ u.selectedNodes.length := List.length_filter_le ..
    have hel := hr.selected hloc
    refine hrun 0 (by omega) ?_ ?_
    · rw [if_pos hloc]
      exact fun hm => absurd hm.1 (by omega)
    · rintro F hF ⟨h1, h2⟩
      have := failureThreshold_of_nonpos hq hr.quorum (by omega) hr.eligible
      omega
  · obtain ⟨p, hp, hlt, hF⟩ := exists_unmet hatt hUk hr.eligible hr.difference
    refine hrun p hp ?_ hF
    split
    · exact fun hm => absurd hm.2 (by omega)
    · exact hlt

end Decides

/-- An update of an owner selected service in a group of three nodes with a
membership quorum of two, the third node with the given options. -/
def groupOfThree (third : List NodeOption) : Update :=
  let node (id : String) (options : List NodeOption) : NodeState :=
    ⟨⟨"http", id, 8000, "/core/node-groups/default", none⟩, .available, options, id, 2, 1, none⟩
  let nodes := [node "a" [.peer], node "b" [.peer], node "c" third]
  { hostId := "a"
    location := none
    service := ⟨fun _ => none, fun _ => none, none⟩
    nodes := nodes
    selfNode := node "a" [.peer]
    self_mem := by simp [nodes]
    self_id := rfl
    selectedNodes := nodes
    selected_mem := fun _ h => h
    selected_size := by simp [nodes]
    groupLink := "/core/node-groups/default"
    group_path := by simp [nodes, node]
    group_location := by simp [nodes, node]
    outboundOp := ⟨1, .put, ⟨"http", "a", 8000, "/core/examples/one", none⟩⟩
    rplQuorumValue := none
    ownerSelection := true
    replicationQuorum := none }

end Xenon.Replication
