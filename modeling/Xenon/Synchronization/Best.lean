import Mathlib.Data.Int.ConditionallyCompleteOrder
import Mathlib.Order.ConditionallyCompleteLattice.Basic
import Xenon.Synchronization.Service

/-!
# What synchronization chooses

The buckets per epoch and the loop over the highest one select a lexicographic
maximum of `(documentEpoch, documentVersion)` among the valid peer states
(`bestPeer_eq`), except that a state whose version is `Long.MIN_VALUE`, where
the running maximum starts, is never taken. Maximality of the chosen state and
what remains of order independence follow from the selection alone.
-/

namespace Xenon.Synchronization

open Xenon.Common Xenon.Foundation

variable {β : Type*}

/-! ## The best state among peers -/

/-- The key of the buckets. -/
abbrev epochKey (d : ServiceDocument β) : Int := d.epoch.toInt

abbrev versionKey (d : ServiceDocument β) : Int := d.documentVersion.toInt

theorem bestVersion_snoc (states : List (ServiceDocument β)) (d : ServiceDocument β) :
    bestVersion (states ++ [d]) =
      if (bestVersion states).2 < d.documentVersion then (some d, d.documentVersion)
      else bestVersion states := by
  unfold bestVersion
  rw [List.foldl_append]
  rfl

/-- The loop takes the first maximum of the versions, if it is above the start
of the running maximum. -/
theorem bestVersion_spec (states : List (ServiceDocument β)) :
    (bestVersion states).1 =
        (states.argmax versionKey).filter (fun d => Int64.minValue < d.documentVersion) ∧
      (bestVersion states).2 =
        ((bestVersion states).1.map (·.documentVersion)).getD Int64.minValue := by
  -- the maximum starts at `Long.MIN_VALUE`, so a state of that version is never the best
  induction states using List.reverseRecOn with
  | nil => exact ⟨rfl, rfl⟩
  | append_singleton states d ih =>
      obtain ⟨hbest, hmax⟩ := ih
      rw [bestVersion_snoc, List.argmax_concat]
      cases hm : states.argmax versionKey with
      | none =>
          rw [hm] at hbest
          simp only [hbest, Option.filter_none, Option.map_none, Option.getD_none] at hmax
          rw [hmax, Option.filter_some]
          by_cases hd : Int64.minValue < d.documentVersion
          · simp [hd]
          · simp [hd, hbest, hmax]
      | some m =>
          rw [hm, Option.filter_some] at hbest
          by_cases hlow : Int64.minValue < m.documentVersion
          · rw [if_pos (by simpa using hlow)] at hbest
            simp only [hbest, Option.map_some, Option.getD_some] at hmax
            rw [hmax]
            by_cases hd : m.documentVersion < d.documentVersion
            · have hlt : Int64.minValue < d.documentVersion := by
                rw [Int64.lt_iff_toInt_lt] at hlow hd ⊢
                omega
              have hd' : m.documentVersion.toInt < d.documentVersion.toInt :=
                Int64.lt_iff_toInt_lt.mp hd
              simp [hd, hd', hlt, Option.filter_some]
            · have hd' : ¬ m.documentVersion.toInt < d.documentVersion.toInt :=
                fun h => hd (Int64.lt_iff_toInt_lt.mpr h)
              simp [hd, hd', hlow, hbest, hmax, Option.filter_some]
          · -- every version so far is the least one
            rw [if_neg (by simpa using hlow)] at hbest
            simp only [hbest, Option.map_none, Option.getD_none] at hmax
            have hmin : m.documentVersion.toInt = Int64.minValue.toInt := by
              have := m.documentVersion.minValue_le_toInt
              rw [Int64.lt_iff_toInt_lt] at hlow
              omega
            rw [hmax]
            by_cases hd : Int64.minValue < d.documentVersion
            · have hd' : m.documentVersion.toInt < d.documentVersion.toInt := by
                rw [hmin]
                exact Int64.lt_iff_toInt_lt.mp hd
              simp [hd, hd', Option.filter_some]
            · have hd' : ¬ m.documentVersion.toInt < d.documentVersion.toInt := by
                rw [hmin]
                exact fun h => hd (Int64.lt_iff_toInt_lt.mpr h)
              simp [hd, hd', hlow, hbest, hmax, Option.filter_some]

/-- **The best state among peers** is a lexicographic maximum, if its version
is above the start of the running maximum. -/
theorem bestPeer_eq (states : List (ServiceDocument β)) :
    bestPeer states = (selectMax epochKey versionKey states).filter
      (fun d => Int64.minValue < d.documentVersion) :=
  (bestVersion_spec _).1

theorem isTop_of_bestPeer {states : List (ServiceDocument β)} {d : ServiceDocument β}
    (h : bestPeer states = some d) :
    IsTop epochKey versionKey states d := by
  rw [bestPeer_eq, Option.filter_eq_some_iff] at h
  exact isTop_of_selectMax h.1

theorem bestPeer_eq_none {states : List (ServiceDocument β)}
    (hmin : ∀ d ∈ states, d.documentVersion ≠ Int64.minValue)
    (h : bestPeer states = none) : states = [] := by
  rw [bestPeer_eq, Option.filter_eq_none_iff] at h
  cases hs : selectMax epochKey versionKey states with
  | none => exact selectMax_eq_none.mp hs
  | some d =>
      refine absurd (h d hs) ?_
      have hne := hmin d (isTop_of_selectMax hs).1
      have hle := d.documentVersion.minValue_le_toInt
      rw [ne_eq, ← Int64.toInt_inj] at hne
      simp only [decide_eq_true_eq, Int64.lt_iff_toInt_lt, not_not]
      omega

/-! ## From the best peer to the chosen state -/

section Resolve

variable {env : Env β} {request : SynchronizePeersRequest β} {version : Option Int64}

theorem stamp_withEpoch (d : ServiceDocument β) : (withEpoch d).stamp = d.stamp := rfl

/-- The local state is taken in place of the best peer state. -/
def prefersLocal (env : Env β) (request : SynchronizePeersRequest β)
    (version : Option Int64) (best : Option (ServiceDocument β)) : Bool :=
  .preferred ∈ relation env request version best &&
    .inConflict ∉ relation env request version best

/-- The state that is checked and broadcast. -/
def candidate (env : Env β) (request : SynchronizePeersRequest β)
    (version : Option Int64) (best : Option (ServiceDocument β)) : ServiceDocument β :=
  if prefersLocal env request version best then withEpoch request.state
  else best.getD (withEpoch request.state)

theorem resolve_eq (best : Option (ServiceDocument β)) :
    resolve env request version best =
      if best = none ∧ (request.state.documentVersion = -1 ∨ version.isSome) then
        .error (.status statusCodeNotFound)
      else
        let c := candidate env request version best
        if c.documentSelfLink = none ∨ c.documentVersion < 0 ∨
            c.documentEpoch = none ∨ c.epoch < 0 then
          .error (.exception "Chosen state has invalid epoch or version: ")
        else if version = none then .ok { c with documentOwner := some env.hostId }
        else .ok c := by
  have hc : (if .inConflict ∈ relation env request version best then best
      else if .preferred ∈ relation env request version best then
        some (withEpoch request.state)
      else best).getD (withEpoch request.state) = candidate env request version best := by
    unfold candidate prefersLocal
    split_ifs <;> simp_all
  unfold resolve
  simp only [hc]
  rfl

theorem stamp_of_resolve {best : Option (ServiceDocument β)} {d : ServiceDocument β}
    (h : resolve env request version best = .ok d) :
    d.stamp = (candidate env request version best).stamp := by
  rw [resolve_eq] at h
  dsimp only at h
  split at h
  · simp at h
  · split at h
    · simp at h
    · split at h
      · obtain rfl := Except.ok.inj h
        rfl
      · obtain rfl := Except.ok.inj h
        rfl

/-- The local state is taken only over a peer state that is not newer. -/
theorem stamp_le_of_prefersLocal {d : ServiceDocument β}
    (h : prefersLocal env request version (some d) = true) :
    d.stamp ≤ request.state.stamp := by
  have hpref : .preferred ∈ relation env request version (some d) := by
    simp only [prefersLocal, Bool.and_eq_true, decide_eq_true_eq] at h
    exact h.1
  unfold relation at hpref
  dsimp only at hpref
  split_ifs at hpref with hv hgt heq
  · simp at hpref
  · exact (ServiceDocument.stamp_lt_iff.mpr (Or.inl hgt)).le
  · exact (ServiceDocument.stamp_le_of_preferred hpref).trans
      (stamp_withEpoch request.state).le
  · simp at hpref

/-- And it is taken over every older one, unless a version is given. -/
theorem prefersLocal_of_lt {d : ServiceDocument β} (h : d.stamp < request.state.stamp) :
    prefersLocal env request none (some d) = true := by
  have hrel : .preferred ∈ relation env request none (some d) ∧
      .inConflict ∉ relation env request none (some d) := by
    unfold relation
    dsimp only
    rw [if_neg (by simp)]
    split_ifs with hgt heq
    · simp
    · exact ServiceDocument.compare_of_gt h
    · rcases ServiceDocument.stamp_lt_iff.mp h with hlt | hlt
      · exact absurd hlt hgt
      · exact absurd hlt.1.symm heq
  simpa [prefersLocal] using hrel

theorem peer_le_candidate (d : ServiceDocument β) :
    d.stamp ≤ (candidate env request version (some d)).stamp := by
  unfold candidate
  split
  case isTrue h => exact stamp_le_of_prefersLocal h
  case isFalse => exact le_refl _

theorem local_le_candidate (best : Option (ServiceDocument β)) :
    request.state.stamp ≤ (candidate env request none best).stamp := by
  unfold candidate
  cases best with
  | none => split <;> exact le_refl _
  | some d =>
      split
      case isTrue => exact le_refl _
      case isFalse h => exact not_lt.mp fun hlt => h (prefersLocal_of_lt hlt)

end Resolve

/-! ## The newest state -/

section Newest

variable {env : Env β} {request : SynchronizePeersRequest β} {version : Option Int64}
  {rsp : BroadcastResponse β}

theorem mem_validStates {responses : List (URI × ServiceDocument β)}
    {d : ServiceDocument β} : d ∈ validStates request responses ↔
      ∃ p ∈ responses, isValid request p.2 = true ∧ withEpoch p.2 = d := by
  simp only [validStates, List.mem_map, List.mem_filter, and_assoc]

/-- The chosen state comes from the best valid peer state. -/
theorem chooseBest_ok {best : ServiceDocument β}
    (h : chooseBest env request rsp version = .ok best) :
    resolve env request version (bestPeer (validStates request rsp.jsonResponses)) =
      .ok best := by
  unfold chooseBest at h
  split_ifs at h
  exact h

/-- The chosen state is as new as every valid peer state. -/
theorem peer_le_best {best : ServiceDocument β}
    (hmin : ∀ p ∈ rsp.jsonResponses, isValid request p.2 = true →
      p.2.documentVersion ≠ Int64.minValue)
    (h : chooseBest env request rsp version = .ok best) :
    ∀ p ∈ rsp.jsonResponses, isValid request p.2 = true → p.2.stamp ≤ best.stamp := by
  intro p hp hvalid
  have hmem : withEpoch p.2 ∈ validStates request rsp.jsonResponses :=
    mem_validStates.mpr ⟨p, hp, hvalid, rfl⟩
  have hres := chooseBest_ok h
  rw [stamp_of_resolve hres]
  cases hb : bestPeer (validStates request rsp.jsonResponses) with
  | none =>
      rw [bestPeer_eq_none ?_ hb] at hmem
      · simp at hmem
      · intro d hd
        obtain ⟨q, hq, hqv, rfl⟩ := mem_validStates.mp hd
        exact hmin q hq hqv
  | some d => exact ((isTop_of_bestPeer hb).2 _ hmem).trans (peer_le_candidate d)

/-- Every request that is sent carries the chosen state. -/
theorem stamp_of_mem_broadcast [Inhabited β] {best : ServiceDocument β}
    {p : SynchPost β} (h : p ∈ broadcastBestState env request rsp best version) :
    p.body.stamp = best.stamp := by
  obtain ⟨u, -, rfl⟩ := List.mem_map.mp h
  unfold prepareSynchPostRequest
  dsimp only
  split <;> rfl

theorem broadcast_of_ok [Inhabited β] {b : Broadcast β}
    (h : handleBroadcastGetCompletion env request rsp version = .ok b) :
    chooseBest env request rsp version = .ok b.best ∧
      b.posts = broadcastBestState env request rsp b.best version := by
  unfold handleBroadcastGetCompletion at h
  cases hc : chooseBest env request rsp version with
  | error f => simp [hc] at h
  | ok best =>
      rw [hc] at h
      obtain rfl := Except.ok.inj h
      exact ⟨rfl, rfl⟩

end Newest

/-- **Synchronization picks the newest state.** The chosen state is as new as
every valid peer state and, unless a historical version is synchronized, as the
local state; so no request that is sent overwrites a newer state of the peer it
is sent to. -/
theorem synchronization_picks_newest [Inhabited β] (env : Env β)
    (request : SynchronizePeersRequest β) (rsp : BroadcastResponse β)
    (version : Option Int64) (b : Broadcast β)
    (hmin : ∀ p ∈ rsp.jsonResponses, isValid request p.2 = true →
      p.2.documentVersion ≠ Int64.minValue)
    (h : handleBroadcastGetCompletion env request rsp version = .ok b) :
    (version = none → request.state.stamp ≤ b.best.stamp) ∧
      (∀ p ∈ rsp.jsonResponses, isValid request p.2 = true → p.2.stamp ≤ b.best.stamp) ∧
      ∀ post ∈ b.posts, ∀ p ∈ rsp.jsonResponses, isValid request p.2 = true →
        p.1 = post.peer → p.2.stamp ≤ post.body.stamp := by
  obtain ⟨hbest, hposts⟩ := broadcast_of_ok h
  have hpeer := peer_le_best hmin hbest
  refine ⟨?_, hpeer, ?_⟩
  · rintro rfl
    rw [stamp_of_resolve (chooseBest_ok hbest)]
    exact local_le_candidate _
  · intro post hpost p hp hvalid _
    rw [hposts] at hpost
    rw [stamp_of_mem_broadcast hpost]
    exact hpeer p hp hvalid

/-- The state of `/core/examples/one` with the given stamp. -/
def exampleState (epoch version : Int64) (owner : String) : ServiceDocument String :=
  { documentSelfLink := some "/core/examples/one"
    documentEpoch := some epoch
    documentVersion := version
    documentOwner := some owner
    className := "ExampleServiceState"
    body := owner }

/-- The request of a node whose own state has the given stamp. -/
def exampleRequest (epoch version : Int64) : SynchronizePeersRequest String where
  state := exampleState epoch version "a"
  factoryLink := "/core/examples"
  selfLink_ne := by simp [exampleState]

def exampleEnv : Env String := ⟨"a", 120000000, fun d d' => d.body = d'.body⟩

/-- Responses of the nodes `b` and `c`. -/
def exampleResponses (stateB stateC : ServiceDocument String) : BroadcastResponse String :=
  let uri (host : String) : URI := ⟨"http", host, 8000, "/core/document-index", none⟩
  { receivers := [uri "b", uri "c"]
    jsonResponses := [(uri "b", stateB), (uri "c", stateC)]
    failures := [] }

/-- A peer with a higher epoch wins over a local state with a higher version. -/
theorem synchronization_picks_newest_epoch :
    ∃ b, handleBroadcastGetCompletion exampleEnv (exampleRequest 1 7)
        (exampleResponses (exampleState 2 3 "b") (exampleState 1 9 "c")) none = .ok b ∧
      (exampleRequest 1 7).state.stamp ≤ b.best.stamp ∧
      (exampleState 1 9 "c").stamp ≤ b.best.stamp := by
  refine ⟨_, rfl, ?_⟩
  have h := synchronization_picks_newest exampleEnv (exampleRequest 1 7)
    (exampleResponses (exampleState 2 3 "b") (exampleState 1 9 "c")) none _
    (by decide +kernel) rfl
  exact ⟨h.1 rfl, h.2.1 (_, exampleState 1 9 "c")
    (List.mem_cons_of_mem _ List.mem_cons_self) (by decide +kernel)⟩

/-- Two states that are not the newest: a historical version of the document is
chosen among the peers whatever the local state; and a peer state of the
highest epoch whose version is `Long.MIN_VALUE` hides all others. -/
theorem synchronization_not_newest :
    (∃ b, handleBroadcastGetCompletion exampleEnv (exampleRequest 0 5)
        (exampleResponses (exampleState 0 3 "b") (exampleState 0 3 "c")) (some 3) = .ok b ∧
      ¬ (exampleRequest 0 5).state.stamp ≤ b.best.stamp) ∧
    (∃ b, handleBroadcastGetCompletion exampleEnv (exampleRequest 0 0)
        (exampleResponses (exampleState 5 Int64.minValue "b") (exampleState 3 10 "c"))
        none = .ok b ∧
      ¬ (exampleState 3 10 "c").stamp ≤ b.best.stamp) := by
  refine ⟨⟨_, rfl, ?_⟩, ⟨_, rfl, ?_⟩⟩
  · rw [not_le, ServiceDocument.stamp_lt_iff]
    decide +kernel
  · rw [not_le, ServiceDocument.stamp_lt_iff]
    decide +kernel

end Xenon.Synchronization
