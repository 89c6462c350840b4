import Mathlib.Data.List.Nodup
import Xenon.Foundation.Long
import Xenon.Stateful.Service

/-!
# Epoch and version never move backwards

Each of the places that write epoch or version raises them or leaves them alone,
and a local update always takes a version above every version that this instance
has seen, so no two local updates are stored with the same epoch and version.

Both counters are `long`s that the code increments without looking: a local
update after a replicated one with version `2 ^ 63 - 1`, or an ownership gained
at epoch `2 ^ 63 - 1`, makes them wrap to the least value. The results are about
runs in which no increment does.
-/

namespace Xenon.Stateful

open Xenon.Common Xenon.Foundation

variable {β : Type}

/-! ## Versions only grow -/

/-- Neither epoch nor version has gone down. -/
structure Versions.Before (v v' : Versions) : Prop where
  epoch : v.epoch ≤ v'.epoch
  version : v.version ≤ v'.version

namespace Versions.Before

variable {v v' v'' : Versions}

theorem refl (v : Versions) : v.Before v := ⟨Int64.le_refl _, Int64.le_refl _⟩

theorem of_eq (he : v'.epoch = v.epoch) (hv : v'.version = v.version) : v.Before v' :=
  ⟨he ▸ Int64.le_refl _, hv ▸ Int64.le_refl _⟩

theorem trans (h : v.Before v') (h' : v'.Before v'') : v.Before v'' :=
  ⟨Int64.le_trans h.epoch h'.epoch, Int64.le_trans h.version h'.version⟩

theorem stamp_le (h : v.Before v') : v.stamp ≤ v'.stamp := by
  have he := Int64.le_iff_toInt_le.mp h.epoch
  have hv := Int64.le_iff_toInt_le.mp h.version
  rw [stamp, stamp, Prod.Lex.toLex_le_toLex]
  rcases Int.lt_or_eq_of_le he with hlt | heq
  · exact Or.inl hlt
  · exact Or.inr ⟨heq, hv⟩

end Versions.Before

theorem le_maxLong (a b : Int64) : b ≤ maxLong a b := by
  unfold maxLong
  split_ifs with h
  · exact Int64.le_refl b
  · exact Int64.le_of_lt (Int64.not_le.mp h)

theorem before_applyUpdate {svc : Service β} {now : Int64} {v v' : Versions} {op : Request β}
    {op' : Option (Request β)} (h : applyUpdate svc now v op = (v', op'))
    (hwrap : op.isFromReplication = false → v.version ≠ Int64.maxValue) : v.Before v' := by
  rcases applyUpdate_cases h with ⟨hlocal, rfl, -⟩ | ⟨-, -, epoch, version, rfl⟩
  · exact ⟨Int64.le_refl _, Int64.le_of_lt (Long.lt_add_one (hwrap hlocal))⟩
  · exact ⟨le_maxLong _ _, le_maxLong _ _⟩

theorem validateOwnerSelectedUpdate_eq (svc : Service β) (v : Versions) (request : Request β) :
    (validateOwnerSelectedUpdate svc v request).1.epoch = v.epoch ∧
      (validateOwnerSelectedUpdate svc v request).1.version = v.version := by
  unfold validateOwnerSelectedUpdate
  repeat' split
  all_goals exact ⟨rfl, rfl⟩

theorem le_synchEpoch (v : Versions) (state : Option (ServiceDocument β)) :
    v.epoch ≤ synchEpoch v state := by
  unfold synchEpoch
  split
  · exact Int64.le_refl _
  · split_ifs with h
    · exact Int64.le_of_lt h
    · exact Int64.le_refl _

theorem le_synchVersion (v : Versions) (state : Option (ServiceDocument β)) :
    v.version ≤ synchVersion v state := by
  unfold synchVersion
  split
  · exact Int64.le_refl _
  · split_ifs with h
    · exact Int64.le_of_lt h
    · exact Int64.le_refl _

theorem before_synchronize (svc : Service β) {v : Versions} (request : Request β)
    {wasOwner : Bool} {state : Option (ServiceDocument β)}
    (hwrap : wasOwner = false → v.documentOwner = true →
      synchEpoch v state ≠ Int64.maxValue) :
    v.Before (handleSynchronizeWithPeersCompletion svc v request wasOwner state).1 := by
  refine ⟨?_, le_synchVersion v state⟩
  show v.epoch ≤
    if (!wasOwner && v.documentOwner) = true then synchEpoch v state + 1 else synchEpoch v state
  split_ifs with hgained
  · rw [Bool.and_eq_true, Bool.not_eq_true'] at hgained
    exact Int64.le_trans (le_synchEpoch v state)
      (Int64.le_of_lt (Long.lt_add_one (hwrap hgained.1 hgained.2)))
  · exact le_synchEpoch v state

theorem before_handleConfigurationRequest {v v' : Versions} {epoch : Option Int64}
    (h : handleConfigurationRequest v epoch = some v') : v.Before v' := by
  unfold handleConfigurationRequest at h
  split at h
  · exact (Option.some.inj h) ▸ .refl v
  · split_ifs at h with hle
    obtain rfl := Option.some.inj h
    exact ⟨Int64.le_of_lt (Int64.not_le.mp hle), Int64.le_refl _⟩

/-! ## The guard -/

/-- The counters that a stage increments, as it finds them: the version for a local
update, the epoch when the service has become the owner. -/
def Stage.increments (v : Versions) : Stage β → Answer β → List Int64
  | .completion op false, _ =>
      if isStateUpdated op.toRequest = true ∧ op.isFromReplication = false then [v.version]
      else []
  | .synchronize _ _ wasOwner, .state d =>
      if wasOwner = false ∧ v.documentOwner = true then [synchEpoch v d] else []
  | _, _ => []

def Task.increments (v : Versions) : Task β → Answer β → List Int64
  | .stage st, k => st.increments v k
  | _, _ => []

/-- No counter is incremented at the greatest `long`. -/
def NoWrap (s : Shared β) (t : Task β) (k : Answer β) : Prop :=
  Int64.maxValue ∉ t.increments s.versions k

instance (s : Shared β) (t : Task β) (k : Answer β) : Decidable (NoWrap s t k) :=
  inferInstanceAs (Decidable (Int64.maxValue ∉ t.increments s.versions k))

/-! ## Versions that local updates carry -/

/-- The version with which a local update is going to be stored. -/
def carriedVersion (op : Request β) : List Int64 :=
  if op.isFromReplication then [] else (op.linkedState.map (·.documentVersion)).toList

def StopFor.carried : StopFor β → List Int64
  | .delete op true => carriedVersion op.toRequest
  | _ => []

def Stage.carried : Stage β → List Int64
  | .updated op true | .replication op | .commit op | .indexing op =>
      carriedVersion op.toRequest
  | _ => []

def Task.carried : Task β → List Int64
  | .stop _ k | .setStopped _ k | .cancelPendingRequests _ k => k.carried
  | .stage st => st.carried
  | _ => []

/-- The versions of the local updates that the index has taken. -/
def issued (s : Shared β) : List Int64 := s.stored.flatMap carriedVersion

/-- The states of the local updates that the index has taken. -/
def localStates (s : Shared β) : List (ServiceDocument β) :=
  (s.stored.filter fun op => !op.isFromReplication).filterMap (·.linkedState)

theorem issued_eq (s : Shared β) :
    issued s = (localStates s).map (·.documentVersion) := by
  unfold issued localStates
  induction s.stored with
  | nil => rfl
  | cons op ops ih =>
      cases hop : op.isFromReplication <;> cases hstate : op.linkedState <;>
        simpa [carriedVersion, hop, hstate] using ih

/-- The versions that a firing leaves behind. -/
def Effect.carried (e : Effect β) : List Int64 :=
  e.stored.toList.flatMap carriedVersion ++ e.tasks.flatMap Task.carried

/-- What a stage does to epoch and version: neither goes down, and the version that
the stage carries is kept (in the index, by the indexing stage), dropped, or taken
as the next one. -/
structure Advances (v : Versions) (st : Stage β) (e : Effect β) : Prop where
  before : v.Before e.versions
  carried : e.carried = [] ∨ e.carried = st.carried ∨
    e.carried = [v.version + 1] ∧ e.versions.version = v.version + 1 ∧
      v.version < v.version + 1

variable {svc : Service β} {v : Versions} {st : Stage β}

/-- A stage that hands its request on without a state. -/
theorem Advances.quiet {e : Effect β} (hv : v.Before e.versions) (hstored : e.stored = none)
    (htasks : ∀ t ∈ e.tasks, t.carried = []) : Advances v st e :=
  ⟨hv, Or.inl (by simp [Effect.carried, hstored, List.flatMap_eq_nil_iff.mpr htasks])⟩

theorem advances_of_tasks {ts : List (Task β)}
    (h : ts.flatMap Task.carried = [] ∨ ts.flatMap Task.carried = st.carried) :
    Advances v st { versions := v, tasks := ts } :=
  ⟨.refl v, h.imp (fun h => by simpa [Effect.carried] using h)
    fun h => Or.inl (by simpa [Effect.carried] using h)⟩

theorem handleRequest_carried (isStopped : Bool) (op : Request β) :
    (handleRequest svc isStopped v op).flatMap Task.carried = [] := by
  unfold handleRequest
  split_ifs <;> rfl

theorem loadAndLinkState_carried (op : Request β) (d : Option (ServiceDocument β)) :
    (loadAndLinkState svc v op d).flatMap Task.carried = [] := by
  unfold loadAndLinkState
  split_ifs <;> rfl

theorem advances_processFilters (op : Request β) : Advances v st (processFilters svc v op) := by
  have hbefore : v.Before (if op.action = .get then (v, OwnerCheck.proceed)
      else validateOwnerSelectedUpdate svc v op).1 := by
    split_ifs
    · exact .refl v
    · obtain ⟨he, hv⟩ := validateOwnerSelectedUpdate_eq svc v op
      exact .of_eq he hv
  unfold processFilters
  split <;> rename_i hcheck <;> rw [hcheck] at hbefore
  · exact .quiet hbefore rfl (by simp [failRequest, Task.carried])
  · exact .quiet hbefore rfl (by simp [synchronizeWithPeers, Task.carried, Stage.carried])
  · exact .quiet hbefore rfl (by simp [synchronizeWithPeers, Task.carried, Stage.carried])
  · split_ifs <;> exact .quiet hbefore rfl (by simp [Task.carried, Stage.carried])

theorem processCompletionStageIndexing_carried (op : Operation β) :
    (processCompletionStageIndexing op).flatMap Task.carried = carriedVersion op.toRequest := by
  unfold processCompletionStageIndexing
  split_ifs <;> simp [Task.carried, Stage.carried]

theorem completeUpdate_carried (op : Operation β) (isStateUpdated : Bool) :
    (completeUpdate svc v op isStateUpdated).flatMap Task.carried = [] ∨
      (completeUpdate svc v op isStateUpdated).flatMap Task.carried =
        (Stage.updated op isStateUpdated).carried := by
  unfold completeUpdate
  split
  · rename_i linkedState hlinked
    simp only
    split_ifs
    · exact Or.inr (by simp [Task.carried, Stage.carried, carriedVersion, hlinked, conformState])
    · rw [processCompletionStageIndexing_carried]
      exact Or.inr (by simp [Stage.carried, carriedVersion, hlinked, conformState])
  · exact Or.inl (by simp [Task.carried, Stage.carried])

/-- The tasks that follow a completed update carry the version of its state. -/
theorem specialCases_carried (op : Operation β) (failed isStateUpdated : Bool) :
    (handleRequestCompletionSpecialCases svc op failed isStateUpdated).flatMap Task.carried = [] ∨
      isStateUpdated = true ∧
        (handleRequestCompletionSpecialCases svc op failed isStateUpdated).flatMap
          Task.carried = carriedVersion op.toRequest := by
  unfold handleRequestCompletionSpecialCases
  cases isStateUpdated <;> split_ifs <;>
    simp [Task.carried, Stage.carried, StopFor.carried]

theorem advances_handleRequestCompletion {now : Int64} {op : Operation β} {failed : Bool}
    (hwrap : failed = false → isStateUpdated op.toRequest = true →
      op.isFromReplication = false → v.version ≠ Int64.maxValue) :
    Advances v (.completion op failed) (handleRequestCompletion svc now v op failed) := by
  simp only [handleRequestCompletion]
  split_ifs with hupdate
  · have hwrap := hwrap hupdate.1 hupdate.2
    split
    · rename_i happly
      exact .quiet (before_applyUpdate happly hwrap) rfl (by
        simp [handleRequestCompletionSpecialCases, Task.carried, Stage.carried])
    · rename_i request happly
      refine ⟨before_applyUpdate happly hwrap, ?_⟩
      simp only [Effect.carried, Option.toList_none, List.flatMap_nil, List.nil_append]
      rcases specialCases_carried ⟨request, op.reProcess⟩ false
        (isStateUpdated op.toRequest) with hnone | ⟨-, hcarried⟩
      · exact Or.inl hnone
      · rw [hcarried]
        -- only a local update carries a version, and it is the one it was given
        rcases applyUpdate_cases happly with ⟨hlocal, rfl, d, hop, hversion⟩ | ⟨hrepl, hop, -⟩
        · obtain rfl := Option.some.inj hop
          exact Or.inr (Or.inr ⟨by simp [carriedVersion, hlocal, hversion], rfl,
            Long.lt_add_one (hwrap hlocal)⟩)
        · obtain rfl : request = op.toRequest := by simpa using hop
          exact Or.inl (by simp [carriedVersion, hrepl])
  · refine .quiet (.refl v) rfl (List.flatMap_eq_nil_iff.mp ?_)
    rcases specialCases_carried op failed (isStateUpdated op.toRequest) with hnone | ⟨hupd, -⟩
    · exact hnone
    · have hfailed : failed = true := by simpa [hupd] using hupdate
      simp [handleRequestCompletionSpecialCases, hfailed, Task.carried, Stage.carried]

theorem notification_carried (op : Operation β) (failed : Bool) :
    (processCompletionStageTransactionNotification svc op failed).flatMap Task.carried = [] := by
  unfold processCompletionStageTransactionNotification
  split_ifs <;> rfl

theorem failCompletionStage_carried (op : Operation β) :
    (failCompletionStage op).flatMap Task.carried = [] := by
  unfold failCompletionStage
  split_ifs <;> rfl

theorem completeSynchronizationRequest_carried (request : Operation β)
    (failure updated : Bool) :
    (completeSynchronizationRequest v request failure updated).flatMap Task.carried = [] := by
  simp only [completeSynchronizationRequest]
  split_ifs <;> rfl

theorem advances_runStage {isStopped : Bool} {k : Answer β} {e : Effect β} {s : Shared β}
    (hwrap : NoWrap s (.stage st) k) (h : runStage svc isStopped s.versions st k = some e) :
    Advances s.versions st e := by
  -- the completion takes the next version, the indexing stores the one that it carries, and the
  -- synchronization may take the next epoch
  cases st with
  | handleRequest op =>
      cases k <;> cases h
      exact advances_of_tasks (Or.inl (handleRequest_carried _ _))
  | handleStop op => cases k <;> cases h <;> exact advances_of_tasks (Or.inl rfl)
  | loadState op =>
      cases k <;> cases h
      · exact advances_of_tasks (Or.inl rfl)
      · exact advances_of_tasks (Or.inl (loadAndLinkState_carried _ _))
  | processFilters op =>
      cases k <;> cases h
      exact advances_processFilters op
  | serviceHandler op =>
      cases k with
      | completed d statusCode notModified =>
          simp only [runStage] at h
          split_ifs at h <;> cases h <;> exact advances_of_tasks (Or.inl rfl)
      | failed e =>
          cases h
          exact advances_of_tasks (Or.inl rfl)
      | failRequest =>
          simp only [runStage] at h
          split_ifs at h
          cases h
          exact advances_of_tasks (Or.inl rfl)
      | _ => cases h
  | completion op failed =>
      cases k <;> cases h
      refine advances_handleRequestCompletion ?_
      -- the version is incremented here; `hwrap` says that it does not wrap
      rintro rfl hupdated hlocal heq
      exact hwrap (by simp [Task.increments, Stage.increments, hupdated, hlocal, heq])
  | updated op isStateUpdated =>
      cases k <;> cases h
      exact advances_of_tasks (completeUpdate_carried op isStateUpdated)
  | replication op =>
      cases k <;> cases h
      · exact advances_of_tasks (Or.inr (by simp [Task.carried, Stage.carried, carriedVersion]))
      · refine advances_of_tasks (Or.inl ?_)
        split_ifs <;> rfl
  | commit op =>
      cases k <;> cases h
      exact advances_of_tasks (Or.inr (processCompletionStageIndexing_carried op))
  | indexing op =>
      cases k with
      | proceed =>
          cases h
          refine ⟨.refl _, Or.inr (Or.inl ?_)⟩
          have htasks : (if svc.isPrivileged then [Task.stage (.authzArtifacts op)]
              else [.stage (.notification op false)]).flatMap Task.carried = [] := by
            split_ifs <;> rfl
          simp [Effect.carried, htasks, Stage.carried, carriedVersion, savedState,
            Function.comp_def]
      | failed e =>
          simp only [runStage] at h
          split_ifs at h
          cases h
          exact advances_of_tasks (Or.inl (failCompletionStage_carried op))
      | _ => cases h
  | authzArtifacts op =>
      cases k <;> cases h
      · exact advances_of_tasks (Or.inl rfl)
      · exact advances_of_tasks (Or.inl (failCompletionStage_carried op))
  | notification op failed =>
      cases k <;> cases h
      exact advances_of_tasks (Or.inl (notification_carried op failed))
  | coordinator op failed => cases k <;> cases h <;> exact advances_of_tasks (Or.inl rfl)
  | synchronize request failure wasOwner =>
      cases k with
      | state d =>
          cases h
          have hne : wasOwner = false → s.versions.documentOwner = true →
              synchEpoch s.versions d ≠ Int64.maxValue := by
            intro hwas howner heq
            exact hwrap (by simp [Task.increments, Stage.increments, hwas, howner, heq])
          exact .quiet (before_synchronize svc request.toRequest hne) rfl
            (List.flatMap_eq_nil_iff.mp (completeSynchronizationRequest_carried _ _ _))
      | failed e =>
          cases h
          refine advances_of_tasks (Or.inl ?_)
          split_ifs <;> rfl
      | _ => cases h
  | reply op success =>
      cases success <;> cases k <;> cases h
      · exact .quiet (.refl _) rfl (by simp)
      · exact .quiet (.refl _) rfl (by simp [Task.carried, Stage.carried])

/-! ## One step -/

variable {s : Shared β} {t : Task β}

/-- What a firing does to the versions that are issued or carried. -/
structure Issues (s : Shared β) (t : Task β) (s' : Shared β) (new : List (Task β)) : Prop where
  before : s.versions.Before s'.versions
  issued : ∃ kept, (issued s' ++ new.flatMap Task.carried).Perm (kept ++ issued s) ∧
    (kept = [] ∨ kept = t.carried ∨ kept = [s.versions.version + 1] ∧
      s'.versions.version = s.versions.version + 1 ∧
      s.versions.version < s.versions.version + 1)

/-- The gate's tasks store nothing and change no version. -/
theorem Issues.of_gate {s' : Shared β} {new : List (Task β)}
    (hversions : s'.versions = s.versions) (hstored : s'.stored = s.stored)
    (h : new.flatMap Task.carried = [] ∨ new.flatMap Task.carried = t.carried) :
    Issues s t s' new := by
  have hissued : Stateful.issued s' = Stateful.issued s := by simp [Stateful.issued, hstored]
  refine ⟨hversions ▸ .refl _, new.flatMap Task.carried, ?_, h.imp_right Or.inl⟩
  rw [hissued]
  exact List.perm_append_comm

theorem issues_stage {k : Answer β} {r : Shared β × List (Task β)}
    (hwrap : NoWrap s (.stage st) k) (h : fireStage svc s st k = some r) :
    Issues s (.stage st) r.1 r.2 := by
  obtain ⟨e, us, gs, hrun, htasks, hr, -, -⟩ := fireStage_eq h
  have hadv := advances_runStage hwrap hrun
  rw [hr, htasks]
  refine ⟨hadv.before, e.carried, ?_, hadv.carried⟩
  simp only [issued, Effect.carried, List.flatMap_append, List.append_assoc]
  exact List.perm_append_comm.append_left _

theorem next_tasks_carried (op : Operation β) (next : Next) :
    (next.tasks op).flatMap Task.carried = [] := by
  cases next <;> rfl

theorem release_stored (s : Shared β) (op : Request β) :
    (s.release op).versions = s.versions ∧ (s.release op).stored = s.stored := by
  obtain ⟨us, gs, h, -, -⟩ := s.release_eq op
  rw [h]
  exact ⟨rfl, rfl⟩

theorem activate_stored (s : Shared β) (op : Request β) :
    (s.activate op).versions = s.versions ∧ (s.activate op).stored = s.stored := by
  unfold Shared.activate
  split_ifs <;> exact ⟨rfl, rfl⟩

theorem issues_fire {k : Answer β} {r : Shared β × List (Task β)} (hwrap : NoWrap s t k)
    (h : fire svc s t k = some r) : Issues s t r.1 r.2 := by
  -- only a stage issues a version; every other task hands on what it carries, or drops it
  cases t with
  | stage st => exact issues_stage hwrap h
  | chain op =>
      rcases fire_chain h with ⟨-, rfl⟩ | rfl
      · exact .of_gate rfl rfl (Or.inl rfl)
      · unfold queueOrScheduleRequest
        split_ifs <;> exact .of_gate rfl rfl (Or.inl rfl)
  | queueRequest op dequeued =>
      cases h
      unfold fireQueueRequest
      split
      · refine .of_gate ?_ ?_ (Or.inl rfl) <;> dsimp only <;> split_ifs <;> rfl
      all_goals exact .of_gate rfl rfl (Or.inl rfl)
  | queueRequestInternal op dequeued =>
      cases h
      unfold fireQueueRequestInternal
      split
      · exact .of_gate rfl rfl (Or.inl rfl)
      · exact .of_gate rfl rfl (Or.inl rfl)
      · exact .of_gate (activate_stored _ op).1 (activate_stored _ op).2 (Or.inl rfl)
      · exact .of_gate rfl rfl (Or.inl rfl)
      · exact .of_gate rfl rfl (Or.inl rfl)
  | admitted op =>
      cases h
      unfold fireAdmitted
      split <;> exact .of_gate rfl rfl (Or.inl rfl)
  | processPending op next =>
      cases h
      unfold fireProcessPending
      split
      · exact .of_gate (release_stored _ _).1 (release_stored _ _).2
          (Or.inl (next_tasks_carried op next))
      · exact .of_gate rfl rfl (Or.inl (next_tasks_carried op next))
  | dequeueRequest =>
      cases h
      unfold fireDequeueRequest
      split <;> exact .of_gate rfl rfl (Or.inl rfl)
  | stop op k =>
      cases h
      unfold fireStop
      split_ifs
      · exact .of_gate rfl rfl (Or.inl (by cases k <;> rfl))
      · exact .of_gate rfl rfl (Or.inl (by cases k <;> rfl))
      · exact .of_gate rfl rfl (Or.inr (by simp [Task.carried]))
  | setStopped op k =>
      cases h
      exact .of_gate rfl rfl (Or.inr (by simp [fireSetStopped, Task.carried]))
  | cancelPendingRequests op k =>
      cases h
      unfold fireCancel
      split
      refine .of_gate rfl rfl (Or.inr ?_)
      cases k with
      | delete op' updated =>
          cases updated <;> simp [StopFor.stopped, Task.carried, Stage.carried, StopFor.carried]
      | _ => rfl

theorem before_receive (i : Input β) :
    s.versions.Before (receive s i).1.versions ∧ (receive s i).1.stored = s.stored ∧
      (receive s i).2.flatMap Task.carried = [] := by
  cases i with
  | configuration epoch limit =>
      simp only [receive]
      split
      · exact ⟨.refl _, rfl, rfl⟩
      · rename_i hconf
        exact ⟨before_handleConfigurationRequest hconf, rfl, rfl⟩
  | toggleDocumentOwner enable => exact ⟨.of_eq rfl rfl, rfl, rfl⟩
  | request op => exact ⟨.refl _, rfl, rfl⟩
  | hostStop => exact ⟨.refl _, rfl, rfl⟩

/-! ## Whole runs -/

/-- The versions that local updates were stored with or are about to be stored
with are distinct, and none is above the version of the service. -/
structure Fresh (s : Shared β) (ts : List (Task β)) : Prop where
  nodup : (issued s ++ ts.flatMap Task.carried).Nodup
  le : ∀ x ∈ issued s ++ ts.flatMap Task.carried, x ≤ s.versions.version

theorem Fresh.fire {s' : Shared β} {new ts : List (Task β)} (h : Fresh s (t :: ts))
    (m : Issues s t s' new) : Fresh s' (new ++ ts) := by
  obtain ⟨kept, hperm, hkept⟩ := m.issued
  have hall : (issued s' ++ (new ++ ts).flatMap Task.carried).Perm
      (kept ++ (issued s ++ ts.flatMap Task.carried)) := by
    rw [List.flatMap_append, ← List.append_assoc, ← List.append_assoc]
    exact hperm.append_right _
  have hbefore : (issued s ++ (t :: ts).flatMap Task.carried).Perm
      (t.carried ++ (issued s ++ ts.flatMap Task.carried)) :=
    List.perm_append_comm_assoc _ _ _
  have hnodup := hbefore.nodup_iff.mp h.nodup
  have hle : ∀ x ∈ t.carried ++ (issued s ++ ts.flatMap Task.carried),
      x ≤ s.versions.version := fun x hx => h.le x (hbefore.mem_iff.mpr hx)
  have hrest : ∀ x ∈ issued s ++ ts.flatMap Task.carried, x ≤ s.versions.version :=
    fun x hx => hle x (List.mem_append_right _ hx)
  have hnew : (kept ++ (issued s ++ ts.flatMap Task.carried)).Nodup ∧
      ∀ x ∈ kept ++ (issued s ++ ts.flatMap Task.carried), x ≤ s'.versions.version := by
    rcases hkept with rfl | rfl | ⟨rfl, hversion, hlt⟩
    · exact ⟨(List.nodup_append.mp hnodup).2.1, fun x hx => Int64.le_trans (hrest x hx) m.before.version⟩
    · exact ⟨hnodup, fun x hx => Int64.le_trans (hle x hx) m.before.version⟩
    · refine ⟨List.nodup_cons.mpr ⟨fun hmem => ?_, (List.nodup_append.mp hnodup).2.1⟩, ?_⟩
      · exact Int64.not_le.mpr hlt (hrest _ hmem)
      · intro x hx
        rcases List.mem_cons.mp hx with rfl | hx
        · rw [hversion]
          exact Int64.le_refl _
        · exact Int64.le_trans (hrest x hx) m.before.version
  exact ⟨hall.nodup_iff.mpr hnew.1, fun x hx => hnew.2 x (hall.mem_iff.mp hx)⟩

theorem Fresh.perm {ts ts' : List (Task β)} (hperm : ts.Perm ts') (h : Fresh s ts) :
    Fresh s ts' := by
  have hall := (hperm.flatMap_right Task.carried).append_left (issued s)
  exact ⟨hall.nodup_iff.mp h.nodup, fun x hx => h.le x (hall.mem_iff.mpr hx)⟩

theorem Fresh.receive {ts : List (Task β)} (h : Fresh s ts) (i : Input β) :
    Fresh (receive s i).1 ((receive s i).2 ++ ts) := by
  obtain ⟨hbefore, hstored, hnone⟩ := before_receive (s := s) i
  have hsame : issued (Stateful.receive s i).1 ++
      ((Stateful.receive s i).2 ++ ts).flatMap Task.carried =
        issued s ++ ts.flatMap Task.carried := by
    simp [issued, hstored, hnone]
  refine ⟨hsame ▸ h.nodup, fun x hx => Int64.le_trans (h.le x (hsame ▸ hx)) hbefore.version⟩

/-- States whose versions are distinct have distinct stamps. -/
theorem nodup_stamps {ds : List (ServiceDocument β)}
    (h : (ds.map (·.documentVersion)).Nodup) : (ds.map (·.stamp)).Nodup := by
  refine List.Nodup.of_map (fun x : Int ×ₗ Int => (ofLex x).2) ?_
  have hint := h.map (f := Int64.toInt) fun a b hab => Int64.toInt_inj.mp hab
  simpa [ServiceDocument.stamp, Function.comp_def] using hint

/-- **Epoch and version never move backwards.** In every run of a service in which
neither counter is incremented at the greatest `long`, the pair of epoch and
version is lexicographically non-decreasing from any state to any later one, and
the states with which local updates were stored all have different pairs. -/
theorem epoch_version_monotone (svc : Service β) (lifo : Bool) (limit : Int) (v : Versions)
    {p p' : Pool (Shared β) (Task β)}
    (h : (service svc).Reaches NoWrap (started lifo limit v) p)
    (h' : (service svc).Reaches NoWrap p p') :
    p.shared.versions.stamp ≤ p'.shared.versions.stamp ∧
      ((localStates p'.shared).map (·.stamp)).Nodup := by
  have hbefore : p.shared.versions.Before p'.shared.versions := by
    apply Machine.invariant (fun s _ => p.shared.versions.Before s.versions) h'
    case perm =>
      intro s ts ts' _ hs
      exact hs
    case init => exact .refl _
    case input =>
      intro s ts i hs
      exact hs.trans (before_receive i).1
    case fire =>
      intro s t ts k r hwrap hfire hs
      exact hs.trans (issues_fire hwrap hfire).before
  have hfresh : Fresh p'.shared p'.tasks := by
    apply Machine.invariant Fresh (h.trans h')
    case perm =>
      intro s ts ts' hperm hs
      exact hs.perm hperm
    case init => exact ⟨by simp [started, issued], by simp [started, issued]⟩
    case input =>
      intro s ts i hs
      exact hs.receive i
    case fire =>
      intro s t ts k r hwrap hfire hs
      exact hs.fire (issues_fire hwrap hfire)
  refine ⟨hbefore.stamp_le, nodup_stamps ?_⟩
  rw [← issued_eq]
  exact (List.nodup_append.mp hfresh.nodup).1

/-- A replicated, owner selected service. -/
def ownerSelectedService : Service Unit where
  persistence := true
  replication := true
  ownerSelection := true
  hostId := "host"
  selfLink := "/core/examples/one"
  newInstance := { body := () }

/-- A PUT on the owner, from `queueRequest` to the reply. -/
def ownerPut (n : Nat) : List (PoolEvent (Input Unit) (Answer Unit)) :=
  admitPut n ++ fires 0 [.proceed, .state (some { body := () }), .proceed,
    .completed (some { body := () }) 200 false, .now 1, .proceed, .proceed, .proceed] ++
    [.fire 1 .proceed, .fire 0 .proceed] ++ fires 0 [.proceed, .proceed, .proceed]

/-- Two updates on the owner, stored with the versions one and two. -/
theorem epoch_version_monotone_two_updates : ∃ p p' : Pool (Shared Unit) (Task Unit),
    (service ownerSelectedService).Reaches NoWrap (started false 10 ⟨0, 0, true⟩) p ∧
      (service ownerSelectedService).Reaches NoWrap p p' ∧
      (localStates p'.shared).map (·.documentVersion) = [2, 1] ∧
      p.shared.versions.stamp ≤ p'.shared.versions.stamp ∧
      ((localStates p'.shared).map (·.stamp)).Nodup := by
  obtain ⟨p, hp, hrest⟩ := Option.bind_eq_some_iff.mp (show
    (((service ownerSelectedService).exec NoWrap (started false 10 ⟨0, 0, true⟩) (ownerPut 1)).bind
      fun p => ((service ownerSelectedService).exec NoWrap p (ownerPut 2)).map
        fun p' => (localStates p'.shared).map (·.documentVersion)) = some [2, 1] by
          decide +kernel)
  obtain ⟨p', hp', hversions⟩ := Option.map_eq_some_iff.mp hrest
  have h := Machine.reaches_of_exec hp
  have h' := Machine.reaches_of_exec hp'
  exact ⟨p, p', h, h', hversions,
    epoch_version_monotone ownerSelectedService false 10 ⟨0, 0, true⟩ h h'⟩

/-- A replicated update of a peer that owns the document. -/
def replicatedPut (n : Nat) (version : Int64) : Request Unit :=
  { put n with
    isFromReplication := true
    body := some
      { documentOwner := some "peer"
        documentEpoch := some 0
        documentVersion := version
        body := () } }

/-- A replica takes the greatest version from its owner, becomes the owner, and
its next update wraps to the least version. -/
theorem version_wraps : ¬ ∀ (svc : Service Unit) (lifo : Bool) (limit : Int) (v : Versions)
    (p p' : Pool (Shared Unit) (Task Unit)), svc.replication = true →
    svc.ownerSelection = true →
    (service svc).Reaches (fun _ _ _ => True) (started lifo limit v) p →
    (service svc).Reaches (fun _ _ _ => True) p p' →
      p.shared.versions.stamp ≤ p'.shared.versions.stamp ∧
        ((localStates p'.shared).map (·.stamp)).Nodup := by
  intro h
  obtain ⟨p, hp, hrest⟩ := Option.bind_eq_some_iff.mp (show
    (((service ownerSelectedService).exec (fun _ _ _ => True) (started false 10 {})
      ([.input (.request (replicatedPut 1 Int64.maxValue))] ++
        fires 0 [.proceed, .proceed, .proceed, .proceed, .proceed, .now 1, .proceed] ++
        [.fire 1 .proceed, .fire 0 .proceed] ++ fires 0 [.proceed, .proceed, .proceed] ++
        [.input (.toggleDocumentOwner true)])).bind
      fun p => ((service ownerSelectedService).exec (fun _ _ _ => True) p (ownerPut 2)).map
        fun p' => (p.shared.versions, p'.shared.versions)) =
          some (⟨0, Int64.maxValue, true⟩, ⟨0, Int64.minValue, true⟩) by decide +kernel)
  obtain ⟨p', hp', hversions⟩ := Option.map_eq_some_iff.mp hrest
  obtain ⟨hv, hv'⟩ := Prod.mk.inj hversions
  have hle := (h ownerSelectedService false 10 {} p p' rfl rfl (Machine.reaches_of_exec hp)
    (Machine.reaches_of_exec hp')).1
  rw [hv, hv'] at hle
  exact absurd hle (by decide)

end Xenon.Stateful
