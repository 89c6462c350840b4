import Mathlib.Logic.Function.Basic
import Xenon.Foundation.Run
import Xenon.Stateful.Versions

/-!
# The cached state of a service

`ServiceResourceTracker` keeps the state of a service that is attached, so that it need not be
loaded from the index. `saveServiceState` caches the state of an update before it hands it to the
index, and takes it back if that fails; `loadServiceState` caches what the index returns. What is
cached is never older than an update that was applied before, as long as the updates that are not
cached (of other nodes, deletions) come while there is nothing in the cache: nobody clears it for
them.
-/

namespace Xenon.Stateful

open Xenon.Common Xenon.Foundation

variable {β : Type}

/-! ## The tracker -/

/-- `ServiceResourceTracker`, as far as one service is concerned. -/
structure Tracker (β : Type) where
  isServiceStateCaching : Bool := true
  /-- `AttachedServiceInfo.cachedState`; none if the service is not attached. -/
  serviceInfo : Option (Option (ServiceDocument β)) := none
  cachedTransactionalServiceStates : String → Option (ServiceDocument β) := fun _ => none

/-- The state that is cached outside of transactions. -/
def Tracker.cachedState (t : Tracker β) : Option (ServiceDocument β) := t.serviceInfo.join

section Tracker

variable (svc : Service β) (t : Tracker β)

/-- The transaction of an operation, if `isTransactional`. -/
def transactionOf (op : Request β) : Option String :=
  if svc.hasTransactionService then op.transactionId else none

/-- The state of a persistent service is cached if the operation is not replicated, or brings a
better state of the peers to the owner. -/
def cacheState (op : Request β) : Bool :=
  !svc.persistence || (!op.isFromReplication || op.isSynchronizeOwner) && t.isServiceStateCaching

/-- `updateCachedServiceState`; without the check of the version it is
`resetCachedServiceState`. -/
def updateCachedServiceState (st : ServiceDocument β) (op : Request β) (checkVersion : Bool) :
    Tracker β :=
  match t.serviceInfo with
  | none => t
  | some cachedState =>
      if !cacheState svc t op then t
      else
        match transactionOf svc op with
        | none =>
            -- discarding update, if the existing version is higher
            if checkVersion && cachedState.any fun d => st.documentVersion < d.documentVersion then t
            else { t with serviceInfo := some (some st) }
        | some id => { t with
            cachedTransactionalServiceStates := Function.update t.cachedTransactionalServiceStates id
              (match t.cachedTransactionalServiceStates id with
              | some d => if st.documentVersion < d.documentVersion then some d else some st
              | none => some st) }

/-- `getCachedServiceState`. A state that is expired at that time is not returned. -/
def getCachedServiceState (op : Request β) (isExpired : ServiceDocument β → Bool) :
    Option (ServiceDocument β) :=
  let state := match (transactionOf svc op).bind t.cachedTransactionalServiceStates with
    | some state => some state
    | none => t.cachedState
  state.filter fun d => !isExpired d

/-- `clearCachedServiceState`, of an operation that may be missing. -/
def clearCachedServiceState (op : Option (Request β)) : Tracker β :=
  match op.bind (transactionOf svc) with
  | none => { t with serviceInfo := t.serviceInfo.map fun _ => none }
  | some id => { t with
      cachedTransactionalServiceStates := Function.update t.cachedTransactionalServiceStates id none }

/-- `ServiceHost.cacheServiceState`. -/
def cacheServiceState (st : ServiceDocument β) (op : Request β) : Tracker β :=
  if op.action = .delete then t else updateCachedServiceState svc t st op true

end Tracker

/-! ## Saving and loading -/

/-- A state that was handed to the index. -/
structure Saving (β : Type) where
  op : Request β
  state : ServiceDocument β
  previousState : Option (ServiceDocument β)

/-- The service with its tracker, the latest version in the index, the states that are being
indexed, and the versions of the updates that were applied. -/
structure CachedService (β : Type) where
  tracker : Tracker β := {}
  versions : Versions := {}
  index : Option (ServiceDocument β) := none
  saving : List (Saving β) := []
  applied : List Int64 := []

inductive CacheEvent (β : Type) where
  | update (op : Request β) (now : Int64) (isExpired : ServiceDocument β → Bool)
  /-- The index completes the `n`-th state that it was handed. -/
  | indexed (n : Nat) (success : Bool)
  | load (op : Request β) (isExpired : ServiceDocument β → Bool)
  | evict
  | stop
  | start (versions : Versions)
  | setServiceStateCaching (enable : Bool)

section Steps

variable (svc : Service β)

/-- The operation and the state that an update hands to `saveServiceState`. -/
def linkedUpdate (now : Int64) (v : Versions) (op : Request β) :
    Option (Request β × ServiceDocument β) := do
  let op ← (applyUpdate svc now v op).2
  let state ← op.linkedState
  return (op, state)

/-- The index serves the highest version. -/
def indexState (index : Option (ServiceDocument β)) (d : ServiceDocument β) : ServiceDocument β :=
  match index with
  | none => d
  | some latest => if d.documentVersion < latest.documentVersion then latest else d

/-- `saveServiceState`. A service that is not persistent is done when its state is cached. -/
def saveServiceState (s : CachedService β) (op : Request β) (state : ServiceDocument β)
    (isExpired : ServiceDocument β → Bool) : CachedService β :=
  let tracker := cacheServiceState svc s.tracker state op
  if !svc.persistence then
    { s with
      tracker := tracker
      applied := state.documentVersion :: s.applied }
  else
    { s with
      tracker := tracker
      saving := s.saving ++ [⟨op, state, getCachedServiceState svc s.tracker op isExpired⟩] }

/-- The completion of the index: a failure puts the previous state back. -/
def handleIndexCompletion (s : CachedService β) (saved : Saving β) (success : Bool) :
    CachedService β :=
  if success then
    { s with
      index := some (indexState s.index saved.state)
      applied := saved.state.documentVersion :: s.applied }
  else
    match saved.previousState with
    | some previousState =>
        { s with tracker := updateCachedServiceState svc s.tracker previousState saved.op false }
    | none => { s with tracker := clearCachedServiceState svc s.tracker (some saved.op) }

/-- `loadServiceState`: a state that is not cached comes from the index, unless it is deleted. -/
def loadServiceState (s : CachedService β) (op : Request β) (isExpired : ServiceDocument β → Bool) :
    CachedService β :=
  match getCachedServiceState svc s.tracker op isExpired, s.index with
  | none, some st =>
      if !svc.persistence || st.documentUpdateAction = some Action.delete.name then s
      else { s with tracker := updateCachedServiceState svc s.tracker st op true }
  | _, _ => s

def cacheStep (s : CachedService β) : CacheEvent β → Option (CachedService β)
  | .update op now isExpired =>
      let s' := { s with versions := (applyUpdate svc now s.versions op).1 }
      match linkedUpdate svc now s.versions op with
      | none => some s'
      | some (op, state) => some (saveServiceState svc s' op state isExpired)
  | .indexed n success =>
      s.saving[n]?.map fun saved =>
        handleIndexCompletion svc { s with saving := s.saving.eraseIdx n } saved success
  | .load op isExpired => some (loadServiceState svc s op isExpired)
  | .evict => some { s with tracker := clearCachedServiceState svc s.tracker none }
  | .stop => some { s with tracker := { s.tracker with serviceInfo := none } }
  | .start versions => some { s with
      tracker := { s.tracker with serviceInfo := some (s.tracker.serviceInfo.getD none) }
      versions := versions }
  | .setServiceStateCaching enable => some { s with
      tracker := { s.tracker with isServiceStateCaching := enable } }

end Steps

/-! ## Runs -/

/-- The versions of updates increase. -/
def Increasing (svc : Service β) (s : CachedService β) : CacheEvent β → Prop
  | .update op now _ => ∀ op' state, linkedUpdate svc now s.versions op = some (op', state) →
      ∀ w ∈ s.applied, w < state.documentVersion
  | _ => True

/-- Requests come one at a time, none is part of a transaction, and an update that is not cached
comes while nothing is. -/
def Undisturbed (svc : Service β) (s : CachedService β) : CacheEvent β → Prop
  | .update op _ _ => s.saving = [] ∧ transactionOf svc op = none ∧
      (cacheState svc s.tracker op = true ∧ op.action ≠ .delete ∨ s.tracker.cachedState = none)
  | .load op _ => s.saving = [] ∧ transactionOf svc op = none
  | _ => True

section Tracker

variable {svc : Service β} {t : Tracker β} {st : ServiceDocument β} {op : Request β}

/-- What caching a state does outside of transactions: it is cached unless a higher version is, or
the operation is not one to cache. -/
theorem updateCachedServiceState_spec (checkVersion : Bool) (h : transactionOf svc op = none) :
    (updateCachedServiceState svc t st op checkVersion).cachedTransactionalServiceStates =
        t.cachedTransactionalServiceStates ∧
      ((updateCachedServiceState svc t st op checkVersion).cachedState = t.cachedState ∨
        (updateCachedServiceState svc t st op checkVersion).cachedState = some st) ∧
      (cacheState svc t op = true → ∀ d,
        (updateCachedServiceState svc t st op checkVersion).cachedState = some d →
          st.documentVersion ≤ d.documentVersion) := by
  unfold updateCachedServiceState
  cases hinfo : t.serviceInfo with
  | none =>
      refine ⟨rfl, Or.inl rfl, fun _ d hd => ?_⟩
      simp [Tracker.cachedState, hinfo] at hd
  | some cachedState =>
      rw [h]
      dsimp only
      split_ifs with hcache hhigher
      · exact ⟨rfl, Or.inl rfl, fun h => by simp [h] at hcache⟩
      · refine ⟨rfl, Or.inl rfl, fun _ d hd => ?_⟩
        have hd' : cachedState = some d := by simpa [Tracker.cachedState, hinfo] using hd
        rw [hd', Bool.and_eq_true] at hhigher
        exact Int64.le_of_lt (of_decide_eq_true hhigher.2)
      · refine ⟨rfl, Or.inr rfl, fun _ d hd => ?_⟩
        cases hd
        exact Int64.le_refl _

/-- Without transactional states the cached state is returned, for every operation. -/
theorem cachedState_of_get (htx : ∀ id, t.cachedTransactionalServiceStates id = none)
    {isExpired : ServiceDocument β → Bool} {d : ServiceDocument β}
    (h : getCachedServiceState svc t op isExpired = some d) : t.cachedState = some d := by
  have hnone : (transactionOf svc op).bind t.cachedTransactionalServiceStates = none := by
    cases transactionOf svc op with
    | none => rfl
    | some id => exact htx id
  unfold getCachedServiceState at h
  rw [hnone] at h
  exact (Option.filter_eq_some_iff.mp h).1

theorem clearCachedServiceState_spec {op : Option (Request β)}
    (h : op.bind (transactionOf svc) = none) :
    (clearCachedServiceState svc t op).cachedTransactionalServiceStates =
        t.cachedTransactionalServiceStates ∧
      (clearCachedServiceState svc t op).cachedState = none := by
  unfold clearCachedServiceState
  rw [h]
  refine ⟨rfl, ?_⟩
  show (t.serviceInfo.map fun _ => none).join = none
  cases t.serviceInfo <;> rfl

end Tracker

/-- The state after a save, a load or a stop: the cache and the index are as new as every update
that was applied, and of the one update that is being indexed the cache is as new, or empty. -/
structure Current (svc : Service β) (s : CachedService β) : Prop where
  transactional : ∀ id, s.tracker.cachedTransactionalServiceStates id = none
  cached : ∀ d, s.tracker.cachedState = some d → ∀ w ∈ s.applied, w ≤ d.documentVersion
  index : svc.persistence = true → ∀ w ∈ s.applied, ∃ d, s.index = some d ∧ w ≤ d.documentVersion
  saving : s.saving = [] ∨ ∃ saved, s.saving = [saved] ∧ transactionOf svc saved.op = none ∧
    (∀ d, saved.previousState = some d → ∀ w ∈ s.applied, w ≤ d.documentVersion) ∧
      ∀ d, s.tracker.cachedState = some d → saved.state.documentVersion ≤ d.documentVersion

section Current

variable {svc : Service β} {s s' : CachedService β}

/-- A tracker that has less in it is current too. -/
theorem Current.withTracker (h : Current svc s) {t : Tracker β} {v : Versions}
    (htx : t.cachedTransactionalServiceStates = s.tracker.cachedTransactionalServiceStates)
    (hcached : ∀ d, t.cachedState = some d → s.tracker.cachedState = some d) :
    Current svc { s with tracker := t, versions := v } := by
  refine ⟨fun id => ?_, fun d hd => h.cached d (hcached d hd), h.index, ?_⟩
  · show t.cachedTransactionalServiceStates id = none
    rw [htx]
    exact h.transactional id
  · rcases h.saving with hnil | ⟨saved, hsaved, htrans, hprevious, hnewer⟩
    · exact Or.inl hnil
    · exact Or.inr ⟨saved, hsaved, htrans, hprevious, fun d hd => hnewer d (hcached d hd)⟩

/-- The operation that is saved is the one that came, but for its state. -/
theorem linkedUpdate_spec {now : Int64} {v : Versions} {op op' : Request β}
    {state : ServiceDocument β} (h : linkedUpdate svc now v op = some (op', state)) :
    transactionOf svc op' = transactionOf svc op ∧ op'.action = op.action ∧
      ∀ t : Tracker β, cacheState svc t op' = cacheState svc t op := by
  obtain ⟨op₁, hop₁, h⟩ := Option.bind_eq_some_iff.mp h
  obtain ⟨state₁, -, h⟩ := Option.bind_eq_some_iff.mp h
  cases h
  rcases applyUpdate_cases (Prod.eta (applyUpdate svc now v op)).symm with
    ⟨-, -, d, heq, -⟩ | ⟨-, heq | heq, -⟩
  · obtain rfl := Option.some.inj (hop₁.symm.trans heq)
    exact ⟨rfl, rfl, fun _ => rfl⟩
  · rw [heq] at hop₁
    cases hop₁
  · obtain rfl := Option.some.inj (hop₁.symm.trans heq)
    exact ⟨rfl, rfl, fun _ => rfl⟩

/-- What an update that comes alone leaves in the cache: its own state or a higher one, or nothing
if it is not cached. -/
theorem cacheServiceState_spec {t : Tracker β} {op : Request β} (state : ServiceDocument β)
    (htrans : transactionOf svc op = none)
    (hcache : cacheState svc t op = true ∧ op.action ≠ .delete ∨ t.cachedState = none) :
    (cacheServiceState svc t state op).cachedTransactionalServiceStates =
        t.cachedTransactionalServiceStates ∧
      ∀ d, (cacheServiceState svc t state op).cachedState = some d →
        state.documentVersion ≤ d.documentVersion ∧ (t.cachedState = some d ∨ d = state) := by
  obtain ⟨htx, hone, hnewer⟩ := @updateCachedServiceState_spec β svc t state op true htrans
  have hor : ∀ d, (updateCachedServiceState svc t state op true).cachedState = some d →
      t.cachedState = some d ∨ d = state := by
    intro d hd
    rcases hone with hone | hone
    · exact Or.inl (hone ▸ hd)
    · exact Or.inr (Option.some.inj (hd.symm.trans hone))
  unfold cacheServiceState
  split_ifs with hdelete
  · refine ⟨rfl, fun d hd => ?_⟩
    rcases hcache with ⟨-, hne⟩ | hnone
    · exact absurd hdelete hne
    · rw [hnone] at hd
      cases hd
  · refine ⟨htx, fun d hd => ⟨?_, hor d hd⟩⟩
    rcases hcache with ⟨hcache, -⟩ | hnone
    · exact hnewer hcache d hd
    · -- nothing was cached, so the state was
      rcases hor d hd with hd' | rfl
      · rw [hnone] at hd'
        cases hd'
      · exact Int64.le_refl _

theorem current_saveServiceState {op : Request β} {state : ServiceDocument β}
    {isExpired : ServiceDocument β → Bool} (h : Current svc s) (hsaving : s.saving = [])
    (htrans : transactionOf svc op = none)
    (hcache : cacheState svc s.tracker op = true ∧ op.action ≠ .delete ∨
      s.tracker.cachedState = none)
    (hincreasing : ∀ w ∈ s.applied, w < state.documentVersion) :
    Current svc (saveServiceState svc s op state isExpired) := by
  obtain ⟨htx, hcached⟩ := cacheServiceState_spec state htrans hcache
  have htransactional : ∀ id, (cacheServiceState svc s.tracker state op
      ).cachedTransactionalServiceStates id = none := by
    rw [htx]
    exact h.transactional
  have happlied : ∀ d, (cacheServiceState svc s.tracker state op).cachedState = some d →
      ∀ w ∈ s.applied, w ≤ d.documentVersion := by
    intro d hd w hw
    exact Int64.le_of_lt (Int64.lt_of_lt_of_le (hincreasing w hw) (hcached d hd).1)
  unfold saveServiceState
  dsimp only
  split_ifs with hpersistence
  · refine ⟨htransactional, fun d hd w hw => ?_, fun hp => ?_, Or.inl hsaving⟩
    · rcases List.mem_cons.mp hw with rfl | hw
      · exact (hcached d hd).1
      · exact happlied d hd w hw
    · simp [hp] at hpersistence
  · have hsaved : s.saving ++ [⟨op, state, getCachedServiceState svc s.tracker op isExpired⟩] =
        [⟨op, state, getCachedServiceState svc s.tracker op isExpired⟩] := by
      rw [hsaving, List.nil_append]
    refine ⟨htransactional, happlied, h.index, Or.inr ⟨_, hsaved, htrans, fun d hd => ?_, ?_⟩⟩
    · exact h.cached d (cachedState_of_get h.transactional hd)
    · exact fun d hd => (hcached d hd).1

theorem indexState_spec (index : Option (ServiceDocument β)) (d : ServiceDocument β) :
    d.documentVersion ≤ (indexState index d).documentVersion ∧
      ∀ latest, index = some latest →
        latest.documentVersion ≤ (indexState index d).documentVersion := by
  unfold indexState
  cases index with
  | none => exact ⟨Int64.le_refl _, fun _ h => by cases h⟩
  | some latest =>
      dsimp only
      split_ifs with hlt
      · refine ⟨Int64.le_of_lt hlt, fun _ h => ?_⟩
        cases h
        exact Int64.le_refl _
      · refine ⟨Int64.le_refl _, fun _ h => ?_⟩
        cases h
        exact Int64.not_lt.mp hlt

/-- The index completes the one state that it has. -/
theorem current_handleIndexCompletion {saved : Saving β} {success : Bool} (h : Current svc s)
    (hsaving : s.saving = [saved]) :
    Current svc (handleIndexCompletion svc { s with saving := [] } saved success) := by
  obtain ⟨htrans, hprevious, hnewer⟩ : transactionOf svc saved.op = none ∧
      (∀ d, saved.previousState = some d → ∀ w ∈ s.applied, w ≤ d.documentVersion) ∧
        ∀ d, s.tracker.cachedState = some d → saved.state.documentVersion ≤ d.documentVersion := by
    rcases h.saving with hnil | ⟨saved', hsaved', hrest⟩
    · rw [hnil] at hsaving
      cases hsaving
    · rw [hsaved'] at hsaving
      cases hsaving
      exact hrest
  unfold handleIndexCompletion
  cases success with
  | true =>
      refine ⟨h.transactional, fun d hd w hw => ?_, fun hp w hw => ⟨_, rfl, ?_⟩, Or.inl rfl⟩
      · rcases List.mem_cons.mp hw with rfl | hw
        · exact hnewer d hd
        · exact h.cached d hd w hw
      · obtain ⟨hstate, hlatest⟩ := indexState_spec s.index saved.state
        rcases List.mem_cons.mp hw with rfl | hw
        · exact hstate
        · obtain ⟨d, hd, hle⟩ := h.index hp w hw
          exact Int64.le_trans hle (hlatest d hd)
  | false =>
      cases hstate : saved.previousState with
      | none =>
          obtain ⟨htx, hnone⟩ := @clearCachedServiceState_spec β svc s.tracker (some saved.op) htrans
          refine ⟨?_, fun d hd => ?_, h.index, Or.inl rfl⟩
          · show ∀ id, (clearCachedServiceState svc s.tracker _).cachedTransactionalServiceStates id = _
            rw [htx]
            exact h.transactional
          · exact absurd (hnone.symm.trans hd) (by simp)
      | some previousState =>
          -- the previous state was in the cache before the update
          obtain ⟨htx, hone, -⟩ :=
            @updateCachedServiceState_spec β svc s.tracker previousState saved.op false htrans
          refine ⟨?_, fun d hd => ?_, h.index, Or.inl rfl⟩
          · show ∀ id, (updateCachedServiceState svc s.tracker _ _ _
              ).cachedTransactionalServiceStates id = _
            rw [htx]
            exact h.transactional
          · rcases hone with hone | hone
            · exact h.cached d (hone.symm.trans hd)
            · cases hone.symm.trans hd
              exact hprevious previousState hstate

theorem current_loadServiceState {op : Request β} {isExpired : ServiceDocument β → Bool}
    (h : Current svc s) (hsaving : s.saving = []) (htrans : transactionOf svc op = none) :
    Current svc (loadServiceState svc s op isExpired) := by
  unfold loadServiceState
  cases getCachedServiceState svc s.tracker op isExpired with
  | some d => exact h
  | none =>
      cases hindex : s.index with
      | none => exact h
      | some st =>
          dsimp only
          split_ifs with hpersistence
          · exact h
          · have hp : svc.persistence = true := by
              simp only [Bool.or_eq_true, not_or] at hpersistence
              simpa using hpersistence.1
            obtain ⟨htx, hone, -⟩ := @updateCachedServiceState_spec β svc s.tracker st op true htrans
            refine ⟨?_, fun d hd w hw => ?_, hindex ▸ h.index, Or.inl hsaving⟩
            · show ∀ id, (updateCachedServiceState svc s.tracker _ _ _
                ).cachedTransactionalServiceStates id = _
              rw [htx]
              exact h.transactional
            · rcases hone with hone | hone
              · exact h.cached d (hone.symm.trans hd) w hw
              · cases hone.symm.trans hd
                obtain ⟨latest, hlatest, hle⟩ := h.index hp w hw
                cases hindex.symm.trans hlatest
                exact hle

/-- The step lemma. -/
theorem current_cacheStep {e : CacheEvent β} (h : Current svc s) (hincreasing : Increasing svc s e)
    (hundisturbed : Undisturbed svc s e) (hstep : cacheStep svc s e = some s') : Current svc s' := by
  cases e with
  | update op now isExpired =>
      obtain ⟨hsaving, htrans, hcache⟩ := hundisturbed
      have hversions : Current svc { s with versions := (applyUpdate svc now s.versions op).1 } :=
        h.withTracker rfl fun d hd => hd
      unfold cacheStep at hstep
      dsimp only at hstep
      cases hlinked : linkedUpdate svc now s.versions op with
      | none =>
          rw [hlinked] at hstep
          cases hstep
          exact hversions
      | some p =>
          obtain ⟨op', state⟩ := p
          rw [hlinked] at hstep
          cases hstep
          obtain ⟨htransEq, haction, hcacheEq⟩ := linkedUpdate_spec hlinked
          refine current_saveServiceState hversions hsaving (htransEq.trans htrans) ?_
            (hincreasing op' state hlinked)
          rw [hcacheEq, haction]
          exact hcache
  | indexed n success =>
      obtain ⟨saved, hsaved, rfl⟩ := Option.map_eq_some_iff.mp hstep
      -- one save is under way at most, so the one that was indexed is it
      rcases h.saving with hnil | ⟨saved', hsaved', -⟩
      · rw [hnil] at hsaved
        cases hsaved
      · rw [hsaved'] at hsaved
        obtain ⟨hn, hget⟩ := List.getElem?_eq_some_iff.mp hsaved
        obtain rfl : n = 0 := by simpa using hn
        obtain rfl : saved' = saved := by simpa using hget
        rw [hsaved']
        exact current_handleIndexCompletion h hsaved'
  | load op isExpired =>
      cases hstep
      exact current_loadServiceState h hundisturbed.1 hundisturbed.2
  | evict =>
      cases hstep
      obtain ⟨htx, hnone⟩ := @clearCachedServiceState_spec β svc s.tracker none rfl
      exact h.withTracker htx fun d hd => absurd (hnone.symm.trans hd) (by simp)
  | stop =>
      cases hstep
      exact h.withTracker rfl fun d hd => by cases hd
  | start versions =>
      cases hstep
      refine h.withTracker rfl fun d hd => ?_
      unfold Tracker.cachedState at hd ⊢
      cases hinfo : s.tracker.serviceInfo with
      | none => simp [hinfo] at hd
      | some cached => simpa [hinfo] using hd
  | setServiceStateCaching enable =>
      cases hstep
      exact h.withTracker rfl fun d hd => hd

end Current

/-- A service that has not applied anything yet, with whatever the index holds. -/
def CachedService.fresh (versions : Versions) (index : Option (ServiceDocument β)) :
    CachedService β :=
  { versions := versions
    index := index }

/-- **The cached state is never stale.** In a run of updates with increasing versions, loads,
evictions and stops that are all undisturbed, a state that is returned from the cache has at least
the version of every update that was applied before. -/
theorem cached_state_not_stale (svc : Service β) (versions : Versions)
    (index : Option (ServiceDocument β)) (es : List (CacheEvent β)) (s : CachedService β)
    (h : Reach (cacheStep svc) (fun s e => Increasing svc s e ∧ Undisturbed svc s e)
      (.fresh versions index) es s)
    (op : Request β) (isExpired : ServiceDocument β → Bool) (d : ServiceDocument β)
    (hget : getCachedServiceState svc s.tracker op isExpired = some d) :
    ∀ w ∈ s.applied, w ≤ d.documentVersion := by
  have hcurrent : Current svc s := by
    refine h.invariant (Current svc) ?_ fun hok hstep hs => current_cacheStep hs hok.1 hok.2 hstep
    refine ⟨fun _ => rfl, fun d hd => ?_, fun _ w hw => ?_, Or.inl rfl⟩
    · cases hd
    · cases hw
  exact hcurrent.cached d (cachedState_of_get hcurrent.transactional hget)

/-! ## Two updates -/

def indexedService : Service Unit where
  persistence := true
  hostId := "host"
  selfLink := "/service"
  newInstance := { body := () }

def localPatch : Request Unit := { id := .inbound 1, action := .patch }

/-- An update of another node, with its state. -/
def replicatedPatch (version : Int64) : Request Unit where
  id := .inbound 2
  action := .patch
  isFromReplication := true
  linkedState := some { documentVersion := version, body := () }

/-- The service is started, and a local update is applied. -/
def localUpdate : List (CacheEvent Unit) :=
  [.start {}, .update localPatch 1 fun _ => false, .indexed 0 true]

theorem reach_localUpdate : ∃ s, Reach (cacheStep indexedService)
    (fun s e => Increasing indexedService s e ∧ Undisturbed indexedService s e)
    (.fresh {} none) localUpdate s ∧ s.tracker.cachedState.map (·.documentVersion) = some 1 ∧
      s.applied = [1] := by
  refine ⟨_, ((Reach.refl.snoc ⟨trivial, trivial⟩ rfl).snoc ⟨?_, rfl, rfl, Or.inl ⟨rfl, by decide⟩⟩ rfl
    ).snoc ⟨trivial, trivial⟩ rfl, rfl, rfl⟩
  intro op' state _ w hw
  cases hw

theorem cached_state_not_stale_local : ∃ s d, Reach (cacheStep indexedService)
    (fun s e => Increasing indexedService s e ∧ Undisturbed indexedService s e)
    (.fresh {} none) localUpdate s ∧
      getCachedServiceState indexedService s.tracker localPatch (fun _ => false) = some d ∧
        s.applied = [1] ∧ 1 ≤ d.documentVersion := by
  obtain ⟨s, h, hcached, happlied⟩ := reach_localUpdate
  obtain ⟨d, hd, -⟩ := Option.map_eq_some_iff.mp hcached
  have hget : getCachedServiceState indexedService s.tracker localPatch (fun _ => false) =
      some d := by
    simp [getCachedServiceState, transactionOf, indexedService, hd]
  have hstale := cached_state_not_stale indexedService {} none localUpdate s h localPatch
    (fun _ => false) d hget
  exact ⟨s, d, h, hget, happlied, hstale 1 (by simp [happlied])⟩

/-- Version 2 of another node is applied, and version 1 stays in the cache. -/
theorem replicated_update_leaves_cache_stale : ¬ ∀ (svc : Service Unit) (versions : Versions)
    (index : Option (ServiceDocument Unit)) (es : List (CacheEvent Unit)) (s : CachedService Unit),
    Reach (cacheStep svc) (Increasing svc) (.fresh versions index) es s →
      ∀ (op : Request Unit) (isExpired : ServiceDocument Unit → Bool) (d : ServiceDocument Unit),
        getCachedServiceState svc s.tracker op isExpired = some d →
          ∀ w ∈ s.applied, w ≤ d.documentVersion := by
  intro h
  have hrun : ∃ es s d, Reach (cacheStep indexedService) (Increasing indexedService)
      (.fresh {} none) es s ∧
        getCachedServiceState indexedService s.tracker localPatch (fun _ => false) = some d ∧
          d.documentVersion = 1 ∧ 2 ∈ s.applied := by
    refine ⟨localUpdate ++ [.update (replicatedPatch 2) 2 fun _ => false, .indexed 0 true], _, _,
      ((((Reach.refl.snoc trivial rfl).snoc ?_ rfl).snoc trivial rfl).snoc ?_ rfl).snoc trivial rfl,
        rfl, rfl, List.mem_cons_self⟩
    · intro op' state _ w hw
      cases hw
    · intro op' state hlinked w hw
      cases hlinked
      change w ∈ [(1 : Int64)] at hw
      obtain rfl := List.mem_singleton.mp hw
      decide
  obtain ⟨es, s, d, hreach, hget, hversion, happlied⟩ := hrun
  have hle := h indexedService {} none es s hreach localPatch _ d hget 2 happlied
  rw [hversion] at hle
  exact absurd hle (by decide)

end Xenon.Stateful
