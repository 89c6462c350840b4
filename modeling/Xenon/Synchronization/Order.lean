import Xenon.Synchronization.Best

/-!
# The order of the responses

The map of responses is enumerated once. In which order it is enumerated never
changes the epoch and version of the chosen state, nor whether the request
fails. It can change the state itself: of several peer states tied at the
highest epoch and version the first one is taken, and only this one is compared
with the local state. `TiesAgree` says when that makes no difference.
-/

namespace Xenon.Synchronization

open Xenon.Common Xenon.Foundation

variable {β : Type*} {env : Env β} {request : SynchronizePeersRequest β}
  {version : Option Int64}

/-! ## The stamp of the chosen state -/

theorem prefersLocal_version {v : Int64} {best : Option (ServiceDocument β)} :
    prefersLocal env request (some v) best = false := by
  simp [prefersLocal, relation]

/-- The stamp of the candidate depends on the stamp of the best peer only. -/
theorem candidate_stamp (d : ServiceDocument β) :
    (candidate env request version (some d)).stamp =
      if version = none then max request.state.stamp d.stamp else d.stamp := by
  cases version with
  | some v =>
      rw [candidate, prefersLocal_version]
      rfl
  | none =>
      rw [if_pos rfl]
      refine le_antisymm ?_ (max_le (local_le_candidate _) (peer_le_candidate d))
      unfold candidate
      split
      · exact le_max_left _ _
      · exact le_max_right _ _

/-- A stamp that may be broadcast. -/
def checkStamp (s : Int ×ₗ Int) : Except Failure (Int ×ₗ Int) :=
  if (ofLex s).2 < 0 ∨ (ofLex s).1 < 0 then
    .error (.exception "Chosen state has invalid epoch or version: ")
  else .ok s

theorem resolve_stamp {d : ServiceDocument β} (hself : d.documentSelfLink ≠ none)
    (hepoch : d.documentEpoch ≠ none) :
    (resolve env request version (some d)).map ServiceDocument.stamp =
      checkStamp (candidate env request version (some d)).stamp := by
  rw [resolve_eq, if_neg (by simp)]
  have hc : (candidate env request version (some d)).documentSelfLink ≠ none ∧
      (candidate env request version (some d)).documentEpoch ≠ none := by
    unfold candidate
    split
    · exact ⟨request.selfLink_ne, by simp [withEpoch]⟩
    · exact ⟨hself, hepoch⟩
  generalize candidate env request version (some d) = c at hc
  have hneg : (c.documentSelfLink = none ∨ c.documentVersion < 0 ∨
      c.documentEpoch = none ∨ c.epoch < 0) ↔
      c.documentVersion.toInt < 0 ∨ c.epoch.toInt < 0 := by
    rw [Int64.lt_iff_toInt_lt, Int64.lt_iff_toInt_lt]
    simp [hc]
  dsimp only
  simp only [hneg, checkStamp]
  change _ = if c.documentVersion.toInt < 0 ∨ c.epoch.toInt < 0 then _ else _
  split_ifs <;> rfl

/-! ## Reordered responses -/

section Perm

variable {rsp : BroadcastResponse β} {rs : List (URI × ServiceDocument β)}

/-- The response with its entries enumerated in the order `rs`. -/
def BroadcastResponse.inOrder (rsp : BroadcastResponse β)
    (rs : List (URI × ServiceDocument β)) : BroadcastResponse β :=
  { rsp with jsonResponses := rs }

/-- The response is not refused before a best peer is looked for. -/
def Admitted (request : SynchronizePeersRequest β) (rsp : BroadcastResponse β)
    (version : Option Int64) : Prop :=
  ¬ (rsp.failures ≠ [] ∧ rsp.jsonResponses = []) ∧
    ∀ p ∈ rsp.jsonResponses, isMismatch request version p.2 = false

theorem chooseBest_admitted (h : Admitted request rsp version) :
    chooseBest env request rsp version =
      resolve env request version (bestPeer (validStates request rsp.jsonResponses)) := by
  unfold chooseBest
  rw [if_neg h.1, if_neg]
  rw [Bool.not_eq_true, List.any_eq_false]
  intro p hp
  rw [h.2 p hp]
  simp

theorem Admitted.inOrder (h : Admitted request rsp version)
    (hp : rs.Perm rsp.jsonResponses) : Admitted request (rsp.inOrder rs) version :=
  ⟨fun hf => h.1 ⟨hf.1, by
    have hnil : rs = [] := hf.2
    rw [hnil] at hp
    exact hp.nil_eq.symm⟩, fun p hmem => h.2 p (hp.mem_iff.mp hmem)⟩

/-- A refused response is refused in every order, for the same reason. -/
theorem chooseBest_refused (h : ¬ Admitted request rsp version)
    (hp : rs.Perm rsp.jsonResponses) :
    chooseBest env request (rsp.inOrder rs) version = chooseBest env request rsp version := by
  have hnil : rs = [] ↔ rsp.jsonResponses = [] := by
    constructor
    · rintro rfl
      exact hp.nil_eq.symm
    · intro hnil
      rw [hnil] at hp
      exact hp.eq_nil
  have hany : (rs.any fun p => isMismatch request version p.2) =
      rsp.jsonResponses.any fun p => isMismatch request version p.2 := hp.any_eq
  unfold chooseBest BroadcastResponse.inOrder
  simp only [hnil, hany]
  split_ifs with h1 h2
  · rfl
  · rfl
  · refine absurd ⟨h1, fun p hmem => ?_⟩ h
    rw [Bool.not_eq_true, List.any_eq_false] at h2
    exact Bool.not_eq_true _ ▸ h2 p hmem

theorem validStates_perm (request : SynchronizePeersRequest β)
    (hp : rs.Perm rsp.jsonResponses) :
    (validStates request rs).Perm (validStates request rsp.jsonResponses) :=
  (hp.filter _).map _

/-- The peer states that some order makes the best one. -/
def Tied (states : List (ServiceDocument β)) (d : ServiceDocument β) : Prop :=
  IsTop epochKey versionKey states d ∧ Int64.minValue < d.documentVersion

theorem tied_of_bestPeer {states : List (ServiceDocument β)} {d : ServiceDocument β}
    (h : bestPeer states = some d) : Tied states d := by
  refine ⟨isTop_of_bestPeer h, ?_⟩
  rw [bestPeer_eq, Option.filter_eq_some_iff] at h
  exact of_decide_eq_true h.2

theorem Tied.stamp_eq {states : List (ServiceDocument β)} {d d' : ServiceDocument β}
    (h : Tied states d) (h' : Tied states d') : d.stamp = d'.stamp :=
  h.1.keys_eq h'.1

theorem Tied.perm {states states' : List (ServiceDocument β)} {d : ServiceDocument β}
    (h : Tied states d) (hp : states.Perm states') : Tied states' d :=
  ⟨h.1.perm hp, h.2⟩

/-- A tied state that comes first is the best one. -/
theorem bestPeer_cons_of_tied {states : List (ServiceDocument β)} {d : ServiceDocument β}
    (h : Tied (d :: states) d) : bestPeer (d :: states) = some d := by
  rw [bestPeer_eq, selectMax_cons_of_isTop h.1, Option.filter_some,
    if_pos (decide_eq_true h.2)]

/-- Some order finds a best peer iff every order does. -/
theorem bestPeer_isSome_of_tied {states : List (ServiceDocument β)}
    {d : ServiceDocument β} (h : Tied states d) : bestPeer states ≠ none := by
  rw [bestPeer_eq]
  cases hs : selectMax epochKey versionKey states with
  | none =>
      rw [selectMax_eq_none.mp hs] at h
      exact absurd h.1.1 List.not_mem_nil
  | some b =>
      have hstamp : b.stamp = d.stamp := (isTop_of_selectMax hs).keys_eq h.1
      rw [Option.filter_some, if_pos]
      · simp
      · rw [(ServiceDocument.stamp_eq_iff.mp hstamp).2]
        exact decide_eq_true h.2

/-- The best peers of two orders are both missing or both tied. -/
theorem bestPeer_perm {states states' : List (ServiceDocument β)}
    (hp : states'.Perm states) :
    (bestPeer states' = none ∧ bestPeer states = none) ∨
      ∃ d' d, bestPeer states' = some d' ∧ bestPeer states = some d ∧
        Tied states d' ∧ Tied states d := by
  cases h' : bestPeer states' with
  | none =>
      cases h : bestPeer states with
      | none => exact Or.inl ⟨rfl, rfl⟩
      | some d =>
          exact absurd h' (bestPeer_isSome_of_tied ((tied_of_bestPeer h).perm hp.symm))
  | some d' =>
      have hd' := (tied_of_bestPeer h').perm hp
      cases h : bestPeer states with
      | none => exact absurd h (bestPeer_isSome_of_tied hd')
      | some d => exact Or.inr ⟨d', d, rfl, rfl, hd', tied_of_bestPeer h⟩

/-- A valid state can be brought to the front. -/
theorem exists_order {d : ServiceDocument β} {responses : List (URI × ServiceDocument β)}
    (h : d ∈ validStates request responses) :
    ∃ rs, rs.Perm responses ∧ ∃ states, validStates request rs = d :: states := by
  obtain ⟨p, hp, hvalid, rfl⟩ := mem_validStates.mp h
  obtain ⟨s, t, rfl⟩ := List.append_of_mem hp
  refine ⟨p :: (s ++ t), List.perm_middle.symm, validStates request (s ++ t), ?_⟩
  unfold validStates
  rw [List.filter_cons, if_pos hvalid, List.map_cons]

/-- The valid peer states tied at the highest epoch and version lead to the
same result, whichever comes first. -/
def TiesAgree (env : Env β) (request : SynchronizePeersRequest β)
    (rsp : BroadcastResponse β) (version : Option Int64) : Prop :=
  Admitted request rsp version →
    ∀ p q, Tied (validStates request rsp.jsonResponses) p →
      Tied (validStates request rsp.jsonResponses) q →
      resolve env request version (some p) = resolve env request version (some q)

theorem valid_fields {d : ServiceDocument β} {responses : List (URI × ServiceDocument β)}
    (h : d ∈ validStates request responses) :
    d.documentSelfLink ≠ none ∧ d.documentEpoch ≠ none := by
  obtain ⟨p, -, hvalid, rfl⟩ := mem_validStates.mp h
  simp only [isValid, Bool.and_eq_true, decide_eq_true_eq] at hvalid
  exact ⟨hvalid.1, by simp [withEpoch]⟩

theorem chooseBest_stamp_perm (hp : rs.Perm rsp.jsonResponses) :
    (chooseBest env request (rsp.inOrder rs) version).map ServiceDocument.stamp =
      (chooseBest env request rsp version).map ServiceDocument.stamp := by
  by_cases hadm : Admitted request rsp version
  · rw [chooseBest_admitted hadm, chooseBest_admitted (hadm.inOrder hp)]
    rcases bestPeer_perm (validStates_perm request hp) with
      ⟨h', h⟩ | ⟨d', d, h', h, ht', ht⟩
    · rw [show bestPeer (validStates request (rsp.inOrder rs).jsonResponses) = none from h', h]
    · rw [show bestPeer (validStates request (rsp.inOrder rs).jsonResponses) = some d' from h',
        h, resolve_stamp (valid_fields ht'.1.1).1 (valid_fields ht'.1.1).2,
        resolve_stamp (valid_fields ht.1.1).1 (valid_fields ht.1.1).2,
        candidate_stamp, candidate_stamp, ht'.stamp_eq ht]
  · rw [chooseBest_refused hadm hp]

theorem chooseBest_perm_iff :
    (∀ rs, rs.Perm rsp.jsonResponses →
      chooseBest env request (rsp.inOrder rs) version = chooseBest env request rsp version) ↔
    TiesAgree env request rsp version := by
  constructor
  · intro h hadm p q hp hq
    -- each of the two states is the best one in an order of its own
    have hfirst : ∀ d, Tied (validStates request rsp.jsonResponses) d →
        resolve env request version (some d) = chooseBest env request rsp version := by
      intro d hd
      obtain ⟨rs, hperm, states, hrs⟩ := exists_order hd.1.1
      have ht : Tied (d :: states) d := hrs ▸ hd.perm (validStates_perm request hperm).symm
      rw [← h rs hperm, chooseBest_admitted (hadm.inOrder hperm)]
      change _ = resolve env request version (bestPeer (validStates request rs))
      rw [hrs, bestPeer_cons_of_tied ht]
    rw [hfirst p hp, hfirst q hq]
  · intro h rs hp
    by_cases hadm : Admitted request rsp version
    · rw [chooseBest_admitted hadm, chooseBest_admitted (hadm.inOrder hp)]
      change resolve env request version (bestPeer (validStates request rs)) = _
      rcases bestPeer_perm (validStates_perm request hp) with
        ⟨h', h0⟩ | ⟨d', d, h', h0, ht', ht⟩
      · rw [h', h0]
      · rw [h', h0]
        exact h hadm d' d ht' ht
    · exact chooseBest_refused hadm hp

end Perm

theorem handle_best [Inhabited β] (rsp : BroadcastResponse β) :
    (handleBroadcastGetCompletion env request rsp version).map (·.best) =
      chooseBest env request rsp version := by
  unfold handleBroadcastGetCompletion
  cases chooseBest env request rsp version <;> rfl

theorem handle_stamp [Inhabited β] (rsp : BroadcastResponse β) :
    (handleBroadcastGetCompletion env request rsp version).map (·.best.stamp) =
      (chooseBest env request rsp version).map ServiceDocument.stamp := by
  unfold handleBroadcastGetCompletion
  cases chooseBest env request rsp version <;> rfl

end Xenon.Synchronization
