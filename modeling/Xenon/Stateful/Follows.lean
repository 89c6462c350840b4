import Xenon.Stateful.Live

/-!
# The stages keep the gate

A request that holds the gate goes through many stages before it calls
`processPending`, and any of them may fail. None of them forgets the gate: as
long as the service is not stopped, each stage of a request that holds it is
followed by a task that will still call `processPending` for a request of the
same kind. This is proved stage by stage and then for `runStage`.
-/

namespace Xenon.Stateful

open Xenon.Common Xenon.Foundation

variable {β : Type}

variable {svc : Service β}

/-- Two requests that the gate treats alike. -/
structure SameKind (op op' : Request β) : Prop where
  isUpdate : op'.isUpdate = op.isUpdate
  isGet : op'.action = .get ↔ op.action = .get

theorem SameKind.of_action {op op' : Request β} (h : op'.action = op.action) :
    SameKind op op' :=
  ⟨by simp [Request.isUpdate, h], by rw [h]⟩

/-- The tasks that follow one of a request's tasks are outside the gate, and one
of them will call `processPending` if the task was to call it. -/
structure Follows (svc : Service β) (holder : Option (Request β)) (ts : List (Task β)) :
    Prop where
  wellFormed : ∀ t ∈ ts, t.WellFormed svc
  transit : ∀ t ∈ ts, t.transit = []
  holds : ∀ op, holder = some op → gates svc op = true →
    ∃ t ∈ ts, ∃ op', t.holder = some op' ∧ SameKind op op'

namespace Follows

variable {op op' : Request β} {t : Task β} {ts : List (Task β)}

theorem single (hwf : t.WellFormed svc) (htransit : t.transit = [])
    (hholder : t.holder = some op') (hkind : SameKind op op') : Follows svc (some op) [t] where
  wellFormed := by simpa using hwf
  transit := by simpa using htransit
  holds := by
    rintro _ ⟨⟩ _
    exact ⟨t, List.mem_singleton_self t, op', hholder, hkind⟩

theorem none (hwf : ∀ t ∈ ts, t.WellFormed svc) (htransit : ∀ t ∈ ts, t.transit = []) :
    Follows svc none ts :=
  ⟨hwf, htransit, by simp⟩

theorem cons (h : Follows svc (some op) ts) (hwf : t.WellFormed svc) (htransit : t.transit = []) :
    Follows svc (some op) (t :: ts) where
  wellFormed := List.forall_mem_cons.mpr ⟨hwf, h.wellFormed⟩
  transit := List.forall_mem_cons.mpr ⟨htransit, h.transit⟩
  holds op hop hgates := by
    obtain ⟨t', ht', h'⟩ := h.holds op hop hgates
    exact ⟨t', List.mem_cons_of_mem _ ht', h'⟩

end Follows

theorem sameKind_refl (op : Request β) : SameKind op op := .of_action rfl

theorem follows_processPending {op : Operation β} {next : Next} {op₀ : Request β}
    (hnext : next ≠ .completion) (hkind : SameKind op₀ op.toRequest) :
    Follows svc (some op₀) [.processPending op next] := by
  refine .single ?_ rfl rfl hkind
  cases next with
  | completion => exact absurd rfl hnext
  | _ => trivial

theorem follows_handleRequest {v : Versions} (op : Request β) :
    Follows svc (some op) (handleRequest svc false v op) := by
  unfold handleRequest
  split_ifs with _ hstop _ hfalse
  · exact follows_processPending (by simp) (sameKind_refl op)
  · exact follows_processPending (by simp) (sameKind_refl op)
  · exact .single trivial rfl rfl (sameKind_refl op)
  · cases hfalse
  · have hwf : op.isServiceStop = false := by simpa using hstop
    exact .single hwf rfl rfl (.of_action rfl)
  · have hwf : op.isServiceStop = false := by simpa using hstop
    exact .single hwf rfl rfl (sameKind_refl op)

theorem follows_loadAndLinkState {v : Versions} {op : Request β}
    {d : Option (ServiceDocument β)} (hwf : op.isServiceStop = false) :
    Follows svc (some op) (loadAndLinkState svc v op d) := by
  unfold loadAndLinkState
  split_ifs
  · exact follows_processPending (by simp) (sameKind_refl op)
  · exact .single hwf rfl rfl (.of_action rfl)

theorem follows_synchOwnerRequest {v : Versions} {op : Request β} (hget : op.action ≠ .get) :
    Follows svc (some op) [synchronizeWithPeers v (synchOwnerRequest op) false] where
  wellFormed := by simp [synchronizeWithPeers, Task.WellFormed, Stage.WellFormed,
    synchOwnerRequest, Request.isServiceStop]
  transit := by simp [synchronizeWithPeers, Task.transit]
  holds := by
    rintro _ ⟨⟩ hgates
    have hupdate : op.isUpdate = true := by
      simpa [gates, isGated, hget] using And.right (Bool.and_eq_true_iff.mp hgates)
    exact ⟨_, List.mem_singleton_self _, _, rfl, ⟨by rw [hupdate]; rfl, by simp [hget,
      synchOwnerRequest]⟩⟩

theorem follows_processFilters {v : Versions} {op : Request β}
    (hwf : op.isServiceStop = false) :
    Follows svc (some op) (processFilters svc v op).tasks := by
  unfold processFilters
  split
  · exact follows_processPending (by simp) (sameKind_refl op)
  · exact .single hwf rfl rfl (sameKind_refl op)
  · rename_i hcheck
    refine follows_synchOwnerRequest fun hget => ?_
    rw [if_pos hget] at hcheck
    cases hcheck
  · split_ifs <;> exact .single hwf rfl rfl (sameKind_refl op)

theorem applyUpdate_action {now : Int64} {v v' : Versions} {op op' : Request β}
    (h : applyUpdate svc now v op = (v', some op')) :
    op'.action = op.action ∧ op'.isServiceStop = op.isServiceStop := by
  rcases applyUpdate_cases h with ⟨-, -, d, hop, -⟩ | ⟨-, hop | hop, -⟩
  · obtain rfl := Option.some.inj hop
    exact ⟨rfl, rfl⟩
  · cases hop
  · obtain rfl := Option.some.inj hop
    exact ⟨rfl, rfl⟩

theorem follows_specialCases (op : Operation β) {op₀ : Request β} (failed updated : Bool)
    (hkind : SameKind op₀ op.toRequest) (hwf : op.isServiceStop = false) :
    Follows svc (some op₀) (handleRequestCompletionSpecialCases svc op failed updated) := by
  unfold handleRequestCompletionSpecialCases
  split_ifs with _ hdelete
  · exact .single trivial rfl (by simp [Task.holder, Stage.holder]) hkind
  · refine .single ⟨?_, hwf⟩ rfl rfl hkind
    simpa [Request.isServiceDeleteAndStop, Request.isServiceStop, hdelete.1] using hwf
  · exact (follows_processPending (by simp) hkind).cons trivial rfl
  · exact .single hwf rfl rfl hkind

theorem follows_handleRequestCompletion {now : Int64} {v : Versions} {op : Operation β}
    {failed : Bool} (hwf : op.isServiceStop = false) :
    Follows svc (some op.toRequest) (handleRequestCompletion svc now v op failed).tasks := by
  simp only [handleRequestCompletion]
  split_ifs
  · split <;> dsimp only
    · exact follows_specialCases op _ _ (sameKind_refl _) hwf
    · rename_i request happlied
      obtain ⟨haction, hstop⟩ := applyUpdate_action happlied
      exact follows_specialCases ⟨request, op.reProcess⟩ _ _ (.of_action haction)
        (hstop.trans hwf)
  · exact follows_specialCases op _ _ (sameKind_refl _) hwf

theorem follows_indexing {op : Operation β} {op₀ : Request β}
    (hkind : SameKind op₀ op.toRequest) :
    Follows svc (some op₀) (processCompletionStageIndexing op) := by
  unfold processCompletionStageIndexing
  split_ifs with htx
  · exact .single trivial rfl (by simp [Task.holder, Stage.holder, htx]) hkind
  · exact (follows_processPending (by simp) hkind).cons trivial rfl

theorem follows_completeUpdate {v : Versions} {op : Operation β} {isStateUpdated : Bool}
    (hwf : op.isServiceStop = false) :
    Follows svc (some op.toRequest) (completeUpdate svc v op isStateUpdated) := by
  unfold completeUpdate
  split
  · simp only
    split_ifs
    · exact .single hwf rfl rfl (.of_action rfl)
    · exact follows_indexing (.of_action rfl)
  · exact (follows_processPending (by simp) (sameKind_refl _)).cons trivial rfl

theorem follows_failCompletionStage (op : Operation β) :
    Follows svc (some op.toRequest) (failCompletionStage op) := by
  unfold failCompletionStage
  split_ifs <;> exact follows_processPending (by simp) (sameKind_refl _)

/-- Outside a transaction a stage that has released its request leaves no holder. -/
theorem follows_of_holder {op : Operation β} {b : Bool} {ts : List (Task β)}
    (h : Follows svc (some op.toRequest) ts) :
    Follows svc (if b then some op.toRequest else none) ts := by
  split_ifs
  · exact h
  · exact .none h.wellFormed h.transit

theorem follows_indexed {op : Operation β} {t : Task β} (hwf : t.WellFormed svc)
    (htransit : t.transit = [])
    (hholder : t.holder = if op.isWithinTransaction then some op.toRequest else none) :
    Follows svc (if op.isWithinTransaction then some op.toRequest else none) [t] := by
  split_ifs at hholder ⊢
  · exact .single hwf htransit hholder (sameKind_refl _)
  · exact .none (by simpa using hwf) (by simpa using htransit)

theorem follows_notification (op : Operation β) (failed : Bool) :
    Follows svc (Stage.notification op failed).holder
      (processCompletionStageTransactionNotification svc op failed) := by
  have hcoordinator : Follows svc (some op.toRequest) [.stage (.coordinator op failed)] :=
    .single trivial rfl rfl (sameKind_refl _)
  simp only [Stage.holder, processCompletionStageTransactionNotification]
  by_cases htx : op.isWithinTransaction = true
  · simp only [htx, Bool.true_or, if_true, true_and]
    split_ifs
    · exact hcoordinator
    · exact follows_processPending (by simp) (sameKind_refl _)
    · exact follows_processPending (by simp) (sameKind_refl _)
  · simp only [htx, Bool.false_eq_true, if_false, false_and, Bool.false_or]
    cases failed with
    | true => exact follows_processPending (by simp) (sameKind_refl _)
    | false => exact .none (by simp [Task.WellFormed, Stage.WellFormed]) (by simp [Task.transit])

theorem handleSynchronizeWithPeersCompletion_action (svc : Service β) (v : Versions)
    (request : Request β) (wasOwner : Bool) (d : Option (ServiceDocument β)) :
    (handleSynchronizeWithPeersCompletion svc v request wasOwner d).2.1.action =
        request.action ∧
      (handleSynchronizeWithPeersCompletion svc v request wasOwner d).2.1.isServiceStop =
        request.isServiceStop := by
  cases d <;> exact ⟨rfl, rfl⟩

theorem follows_completeSynchronizationRequest {v : Versions} {request : Operation β}
    {failure updated : Bool} {op : Request β} (hkind : SameKind op request.toRequest)
    (hwf : request.isServiceStop = false) :
    Follows svc (some op) (completeSynchronizationRequest v request failure updated) := by
  unfold completeSynchronizationRequest
  simp only
  split_ifs
  · exact follows_processPending (by simp) hkind
  · exact .single hwf rfl rfl ⟨hkind.isUpdate, hkind.isGet⟩
  · exact follows_processPending (by simp) ⟨hkind.isUpdate, hkind.isGet⟩

/-- A stage of a service that is not stopped is followed by tasks of the same
request, and the gate it holds is not forgotten. -/
theorem follows_runStage {v : Versions} {st : Stage β} {k : Answer β} {e : Effect β}
    (hwf : st.WellFormed) (h : runStage svc false v st k = some e) :
    Follows svc st.holder e.tasks := by
  -- one of the tasks that follow holds the request again
  cases st with
  | handleRequest op =>
      cases k <;> cases h
      exact follows_handleRequest op
  | handleStop op =>
      cases k <;> cases h <;> exact follows_processPending (by simp) (sameKind_refl _)
  | loadState op =>
      cases k <;> cases h
      · exact follows_processPending (by simp) (sameKind_refl _)
      · exact follows_loadAndLinkState hwf
  | processFilters op =>
      cases k <;> cases h
      exact follows_processFilters hwf
  | serviceHandler op =>
      cases k with
      | completed d statusCode notModified =>
          simp only [runStage, Bool.false_eq_true, and_false, if_false] at h
          cases h
          exact .single hwf rfl rfl (.of_action rfl)
      | failed e =>
          cases h
          exact .single hwf rfl rfl (sameKind_refl _)
      | failRequest =>
          simp only [runStage] at h
          split_ifs at h
          cases h
          exact .single hwf rfl rfl (sameKind_refl _)
      | _ => cases h
  | completion op failed =>
      cases k <;> cases h
      exact follows_handleRequestCompletion hwf
  | updated op isStateUpdated =>
      cases k <;> cases h
      exact follows_completeUpdate hwf
  | replication op =>
      cases k <;> cases h
      · exact .single trivial rfl rfl (.of_action rfl)
      · simp only
        split_ifs
        · exact .single hwf rfl rfl (sameKind_refl _)
        · exact follows_processPending (by simp) (sameKind_refl _)
  | commit op =>
      cases k <;> cases h
      exact follows_indexing (sameKind_refl _)
  | indexing op =>
      cases k with
      | proceed =>
          cases h
          simp only
          split_ifs
          · exact follows_indexed trivial rfl rfl
          · exact follows_indexed trivial rfl (by simp [Task.holder, Stage.holder])
      | failed e =>
          simp only [runStage] at h
          split_ifs at h
          cases h
          exact follows_of_holder (follows_failCompletionStage op)
      | _ => cases h
  | authzArtifacts op =>
      cases k <;> cases h
      · exact follows_indexed trivial rfl (by simp [Task.holder, Stage.holder])
      · exact follows_of_holder (follows_failCompletionStage op)
  | notification op failed =>
      cases k <;> cases h
      exact follows_notification op failed
  | coordinator op failed =>
      cases k <;> cases h
      · exact follows_processPending (by cases failed <;> simp) (sameKind_refl _)
      · exact follows_processPending (by simp) (sameKind_refl _)
  | synchronize request failure wasOwner =>
      cases k with
      | state d =>
          cases h
          obtain ⟨haction, hstop⟩ :=
            handleSynchronizeWithPeersCompletion_action svc v request.toRequest wasOwner d
          exact follows_completeSynchronizationRequest (.of_action haction) (hstop.trans hwf)
      | failed e =>
          cases h
          simp only
          split_ifs
          · exact .single hwf rfl rfl (sameKind_refl _)
          · exact follows_processPending (by simp) (sameKind_refl _)
      | _ => cases h
  | reply op success =>
      cases success <;> cases k <;> cases h
      · exact .none (by simp) (by simp)
      · exact .none (by simp [Task.WellFormed, Stage.WellFormed]) (by simp [Task.transit])

/-- A stopped service ends some stages early. -/
theorem runStage_isStopped {isStopped : Bool} {v : Versions} {st : Stage β} {k : Answer β}
    {e : Effect β} (h : runStage svc isStopped v st k = some e) :
    e.tasks = [] ∨ ∃ e', runStage svc false v st k = some e' ∧ e'.tasks = e.tasks := by
  cases isStopped with
  | false => exact Or.inr ⟨e, h, rfl⟩
  | true =>
      cases st with
      | handleRequest op =>
          cases k <;> cases h
          simp only [handleRequest, if_true, runStage, Option.some.injEq, exists_eq_left',
            Bool.false_eq_true, if_false]
          split_ifs <;> simp
      | serviceHandler op =>
          cases k with
          | completed d statusCode notModified =>
              simp only [runStage] at h
              split_ifs at h <;> cases h
              · exact Or.inl rfl
              · exact Or.inr ⟨_, by simp only [runStage, Bool.false_eq_true, and_false,
                  if_false], rfl⟩
          | _ => exact Or.inr ⟨e, h, rfl⟩
      | reply op success => cases success <;> cases k <;> exact Or.inr ⟨e, h, rfl⟩
      | _ => cases k <;> exact Or.inr ⟨e, h, rfl⟩

end Xenon.Stateful
