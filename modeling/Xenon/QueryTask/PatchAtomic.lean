import Xenon.QueryTask.Patch

/-!
# Failed PATCHes of a query task

`handlePatch` assigns the results of the body to the field `results` of the instance
before it looks at the rest of the body, so a PATCH that it fails replaces the results
that a GET shows. `Rejects` lists the PATCHes that fail, each with the results that it
leaves in the field; the state is the same after each of them.
-/

namespace Xenon.QueryTask.Patch

open Xenon.QueryTask.Count (TaskStage)

/-! ## The PATCHes that are failed -/

/-- A notification on a task with results that cannot be counted, and the results that it
leaves in the field: the documents are cleared before their links are looked at. -/
inductive Uncounted (count : Bool) (known r : QueryResult) : QueryResult → Prop
  | document {documents : List (String × Document)} {doc : String × Document} :
      r.documents = some documents → doc ∈ documents → ¬ Countable known doc.2 →
      Uncounted count known r r
  | noLinks {documents : List (String × Document)} :
      r.documents = some documents → (∀ doc ∈ documents, Countable known doc.2) →
      count = true → r.documentLinks = none →
      Uncounted count known r { r with documents := some [] }
  | noCount {n : Int} :
      r.documents = none → r.documentCount = some n → known.documentCount = none →
      Uncounted count known r r

theorem adjustCount_error {count : Bool} {known r left : QueryResult}
    (h : adjustCount count known r = .error left) : Uncounted count known r left := by
  unfold adjustCount at h
  split at h
  · next documents hdocuments =>
      split at h
      · next hfold =>
          cases h
          have hnot : ¬ ∀ doc ∈ documents, Countable known doc.2 := by
            rw [← foldlM_isSome_iff, hfold]
            exact Bool.false_ne_true
          push Not at hnot
          obtain ⟨doc, hdoc, hcount⟩ := hnot
          exact .document hdocuments hdoc hcount
      · next known' hfold =>
          have hall := (foldlM_isSome_iff documents known).mp (by rw [hfold]; rfl)
          split_ifs at h with hcount
          split at h
          · next hlinks =>
              cases h
              exact .noLinks hdocuments hall hcount hlinks
          · cases h
  · next hdocuments =>
      split at h
      · cases h
      · next added hadded =>
          split at h
          · next hcount =>
              cases h
              exact .noCount hdocuments hadded hcount
          · cases h

theorem Uncounted.adjustCount {count : Bool} {known r left : QueryResult}
    (h : Uncounted count known r left) : adjustCount count known r = .error left := by
  unfold Patch.adjustCount
  cases h with
  | @document documents doc hdocuments hdoc hcount =>
      have hnone : documents.foldlM (fun known doc => countDocument known doc.2) known = none := by
        rw [← Option.not_isSome_iff_eq_none, foldlM_isSome_iff]
        exact fun hall => hcount (hall doc hdoc)
      simp only [hdocuments, hnone]
  | @noLinks documents hdocuments hall hcount hlinks =>
      obtain ⟨known', hfold⟩ := Option.isSome_iff_exists.mp ((foldlM_isSome_iff documents known).mpr hall)
      simp only [hdocuments, hfold, hcount, hlinks, if_true]
  | noCount hdocuments hadded hcount =>
      simp only [hdocuments, hadded, hcount]

/-- The stage that a PATCH asks for. -/
def PatchBody.Asks (patchBody : PatchBody) (newTaskState : TaskState (Option TaskStage))
    (stage : TaskStage) : Prop :=
  patchBody.taskInfo = some newTaskState ∧ newTaskState.stage = some stage

/-- A PATCH that `handlePatchForContinuousQuery` takes. -/
def Taken (options : QueryOptions) (state : Task) (stage : TaskStage) : Prop :=
  (options.continuous || options.continuousStopMatch) = true ∧ state.taskInfo.stage = .started ∧
    stage ≠ .created

/-- The PATCHes that fail on a state, and the results that they leave in the field. -/
inductive Rejects (state : Task) (patchBody : PatchBody) : Option QueryResult → Prop
  | noTaskInfo : patchBody.taskInfo = none → Rejects state patchBody patchBody.results
  | noStage {newTaskState : TaskState (Option TaskStage)} :
      patchBody.taskInfo = some newTaskState → newTaskState.stage = none →
      Rejects state patchBody patchBody.results
  | noOptions {newTaskState : TaskState (Option TaskStage)} {stage : TaskStage} :
      patchBody.Asks newTaskState stage → state.querySpec.bind (·.options) = none →
      Rejects state patchBody patchBody.results
  | notForward {newTaskState : TaskState (Option TaskStage)} {stage : TaskStage}
      {options : QueryOptions} :
      patchBody.Asks newTaskState stage → state.querySpec.bind (·.options) = some options →
      ¬ Taken options state stage → ordinal stage ≤ ordinal state.taskInfo.stage →
      Rejects state patchBody patchBody.results
  | noFailure {newTaskState : TaskState (Option TaskStage)} {stage : TaskStage}
      {options : QueryOptions} :
      patchBody.Asks newTaskState stage → state.querySpec.bind (·.options) = some options →
      ¬ Taken options state stage → stage = .failed ∨ stage = .cancelled →
      newTaskState.failure = none → Rejects state patchBody patchBody.results
  | noResults {newTaskState : TaskState (Option TaskStage)} {stage : TaskStage}
      {options : QueryOptions} :
      patchBody.Asks newTaskState stage → state.querySpec.bind (·.options) = some options →
      Taken options state stage → patchBody.results = none →
      stage = .started ∨ options.count = false → Rejects state patchBody none
  | uncounted {newTaskState : TaskState (Option TaskStage)} {options : QueryOptions}
      {known r left : QueryResult} :
      patchBody.Asks newTaskState .started → state.querySpec.bind (·.options) = some options →
      Taken options state .started → patchBody.results = some r → state.results = some known →
      Uncounted options.count known r.withContinuousResults left →
      Rejects state patchBody (some left)

theorem handleTransition_results (state : Task) (patchBody : PatchBody)
    (newTaskState : TaskState (Option TaskStage)) (stage : TaskStage) :
    (handleTransition state patchBody newTaskState stage).results = patchBody.results := by
  unfold handleTransition
  split_ifs <;> rfl

theorem handleTransition_isFailure_iff (state : Task) (patchBody : PatchBody)
    (newTaskState : TaskState (Option TaskStage)) (stage : TaskStage) :
    (handleTransition state patchBody newTaskState stage).exit.isFailure ↔
      ordinal stage ≤ ordinal state.taskInfo.stage ∨
        (stage = .failed ∨ stage = .cancelled) ∧ newTaskState.failure = none := by
  unfold handleTransition
  split_ifs with hle hstarted hfailure
  · exact iff_of_true trivial (.inl hle)
  · subst hstarted
    refine iff_of_false id ?_
    rintro (h | ⟨h | h, -⟩)
    · exact hle h
    · cases h
    · cases h
  · exact iff_of_true trivial (.inr hfailure)
  · exact iff_of_false id (not_or.mpr ⟨hle, hfailure⟩)

theorem completeContinuous_isFailure_iff (count : Bool) (state : Task)
    (results : Option QueryResult) (sent : List Request) :
    (completeContinuous count state results sent).exit.isFailure ↔
      count = false ∧ results = none := by
  unfold completeContinuous
  cases count <;> cases results <;> simp [Exit.isFailure]

theorem completeContinuous_results {count : Bool} {state : Task} {sent : List Request} :
    (completeContinuous count state none sent).results = none := by
  unfold completeContinuous
  cases count <;> rfl

theorem handlePatchForContinuousQuery_eq_none_iff {count : Bool} {state : Task}
    {stage : TaskStage} {results : Option QueryResult} :
    handlePatchForContinuousQuery count state stage results = none ↔
      ¬ (state.taskInfo.stage = .started ∧ stage ≠ .created) := by
  unfold handlePatchForContinuousQuery
  cases state.taskInfo.stage with
  | started =>
      cases stage with
      | started =>
          refine iff_of_false ?_ fun h => h ⟨rfl, nofun⟩
          cases results with
          | none => exact Option.some_ne_none _
          | some r =>
              cases state.results with
              | none => exact Option.some_ne_none _
              | some known =>
                  dsimp only
                  cases adjustCount count known r.withContinuousResults <;>
                    exact Option.some_ne_none _
      | _ => simp
  | _ => simp

/-- The two ways in which a PATCH that `handlePatchForContinuousQuery` takes fails. -/
theorem handlePatchForContinuousQuery_failure {count : Bool} {state : Task} {stage : TaskStage}
    {results : Option QueryResult} {handled : Handled}
    (h : handlePatchForContinuousQuery count state stage results = some handled)
    (hfailure : handled.exit.isFailure) :
    (results = none ∧ (stage = .started ∨ count = false) ∧ handled.results = none) ∨
      (stage = .started ∧ ∃ known r left, results = some r ∧ state.results = some known ∧
        Uncounted count known r.withContinuousResults left ∧ handled.results = some left) := by
  unfold handlePatchForContinuousQuery at h
  split at h
  · split at h
    · cases h
    · split at h
      · cases h
        exact .inl ⟨rfl, .inl rfl, rfl⟩
      · next r =>
          dsimp only at h
          split at h
          · cases h
            obtain ⟨-, hnone⟩ := (completeContinuous_isFailure_iff _ _ _ _).mp hfailure
            cases hnone
          · next known hknown =>
              split at h
              · next left hadjust =>
                  cases h
                  exact .inr ⟨rfl, known, r, left, rfl, hknown, adjustCount_error hadjust, rfl⟩
              · cases h
                obtain ⟨-, hnone⟩ := (completeContinuous_isFailure_iff _ _ _ _).mp hfailure
                cases hnone
    all_goals
      cases h
      obtain ⟨hcount, hnone⟩ := (completeContinuous_isFailure_iff _ _ _ _).mp hfailure
      subst hnone
      exact .inl ⟨rfl, .inr hcount, completeContinuous_results⟩
  · cases h

theorem handlePatchForContinuousQuery_noResults {count : Bool} {state : Task} {stage : TaskStage}
    (hstate : state.taskInfo.stage = .started) (hcreated : stage ≠ .created)
    (h : stage = .started ∨ count = false) :
    ∃ handled, handlePatchForContinuousQuery count state stage none = some handled ∧
      handled.exit.isFailure ∧ handled.results = none := by
  unfold handlePatchForContinuousQuery
  rw [hstate]
  cases stage with
  | created => exact absurd rfl hcreated
  | started => exact ⟨_, rfl, trivial, rfl⟩
  | finished | failed | cancelled =>
      have hcount := h.resolve_left nofun
      exact ⟨_, rfl, (completeContinuous_isFailure_iff _ _ _ _).mpr ⟨hcount, rfl⟩,
        completeContinuous_results⟩

theorem handlePatchForContinuousQuery_uncounted {count : Bool} {state : Task}
    {known r left : QueryResult} (hstate : state.taskInfo.stage = .started)
    (hknown : state.results = some known)
    (h : Uncounted count known r.withContinuousResults left) :
    handlePatchForContinuousQuery count state .started (some r) =
      some ⟨.exception, some state, some left, []⟩ := by
  unfold handlePatchForContinuousQuery
  simp only [hstate, hknown, h.adjustCount]

/-! ## What a failed PATCH leaves -/

/-- A PATCH with a stage, on a state whose query has options. -/
theorem handlePatch_eq {state : Task} {patchBody : PatchBody} {patch : Operation}
    {newTaskState : TaskState (Option TaskStage)} {stage : TaskStage} {options : QueryOptions}
    (hreplicated : patch.replicated = none) (hbody : patch.body = some patchBody)
    (hasks : patchBody.Asks newTaskState stage)
    (hoptions : state.querySpec.bind (·.options) = some options) (results : Option QueryResult) :
    handlePatch (some state) results patch =
      if options.continuous || options.continuousStopMatch then
        (handlePatchForContinuousQuery options.count state stage patchBody.results).getD
          (handleTransition state patchBody newTaskState stage)
      else handleTransition state patchBody newTaskState stage := by
  unfold handlePatch
  simp only [hreplicated, hbody, hasks.1, hasks.2, hoptions]
  rfl

/-- A PATCH that is not taken is a transition. -/
theorem handlePatch_eq_of_not_taken {state : Task} {patchBody : PatchBody} {patch : Operation}
    {newTaskState : TaskState (Option TaskStage)} {stage : TaskStage} {options : QueryOptions}
    (hreplicated : patch.replicated = none) (hbody : patch.body = some patchBody)
    (hasks : patchBody.Asks newTaskState stage)
    (hoptions : state.querySpec.bind (·.options) = some options)
    (htaken : ¬ Taken options state stage) (results : Option QueryResult) :
    handlePatch (some state) results patch =
      handleTransition state patchBody newTaskState stage := by
  rw [handlePatch_eq hreplicated hbody hasks hoptions]
  split_ifs with hcontinuous
  · have hnone : handlePatchForContinuousQuery options.count state stage patchBody.results = none :=
      handlePatchForContinuousQuery_eq_none_iff.mpr fun h => htaken ⟨hcontinuous, h⟩
    rw [hnone]
    rfl
  · rfl

/-- A PATCH with a body fails before its stage is looked at, or it has one. -/
theorem handlePatch_early {state : Task} {patchBody : PatchBody} {patch : Operation}
    (hreplicated : patch.replicated = none) (hbody : patch.body = some patchBody)
    (results : Option QueryResult) :
    (Rejects state patchBody patchBody.results ∧ ∃ exit, exit.isFailure ∧
      handlePatch (some state) results patch = ⟨exit, some state, patchBody.results, []⟩) ∨
      ∃ newTaskState stage options, patchBody.Asks newTaskState stage ∧
        state.querySpec.bind (·.options) = some options := by
  cases hinfo : patchBody.taskInfo with
  | none =>
      left
      refine ⟨.noTaskInfo hinfo, .failed "taskInfo is required", trivial, ?_⟩
      simp [handlePatch, hreplicated, hbody, hinfo]
  | some newTaskState =>
      cases hstage : newTaskState.stage with
      | none =>
          left
          refine ⟨.noStage hinfo hstage, .failed "stage is required", trivial, ?_⟩
          simp [handlePatch, hreplicated, hbody, hinfo, hstage]
      | some stage =>
          cases hoptions : state.querySpec.bind (·.options) with
          | none =>
              left
              refine ⟨.noOptions ⟨hinfo, hstage⟩ hoptions, .exception, trivial, ?_⟩
              simp [handlePatch, hreplicated, hbody, hinfo, hstage, hoptions]
          | some options => exact .inr ⟨newTaskState, stage, options, ⟨hinfo, hstage⟩, rfl⟩

/-- A PATCH that fails is one of those, and leaves what they leave. -/
theorem rejects_of_isFailure {state : Task} {patchBody : PatchBody} {patch : Operation}
    (hreplicated : patch.replicated = none) (hbody : patch.body = some patchBody)
    {results : Option QueryResult}
    (h : (handlePatch (some state) results patch).exit.isFailure) :
    Rejects state patchBody (handlePatch (some state) results patch).results := by
  rcases handlePatch_early hreplicated hbody results with
    ⟨hrejects, exit, -, heq⟩ | ⟨newTaskState, stage, options, hasks, hoptions⟩
  · rw [heq]
    exact hrejects
  · by_cases htaken : Taken options state stage
    · obtain ⟨handled, hhandled⟩ : ∃ handled, handlePatchForContinuousQuery options.count
          state stage patchBody.results = some handled := by
        rw [← Option.isSome_iff_exists, Option.isSome_iff_ne_none]
        exact fun hnone => handlePatchForContinuousQuery_eq_none_iff.mp hnone htaken.2
      have heq : handlePatch (some state) results patch = handled := by
        rw [handlePatch_eq hreplicated hbody hasks hoptions, if_pos htaken.1, hhandled]
        rfl
      rw [heq] at h ⊢
      rcases handlePatchForContinuousQuery_failure hhandled h with
        ⟨hnone, hor, hleft⟩ | ⟨rfl, known, r, left, hr, hknown, huncounted, hleft⟩
      · rw [hleft]
        exact .noResults hasks hoptions htaken hnone hor
      · rw [hleft]
        exact .uncounted hasks hoptions htaken hr hknown huncounted
    · rw [handlePatch_eq_of_not_taken hreplicated hbody hasks hoptions htaken] at h ⊢
      rw [handleTransition_results]
      rcases (handleTransition_isFailure_iff _ _ _ _).mp h with hle | ⟨hfailed, hfailure⟩
      · exact .notForward hasks hoptions htaken hle
      · exact .noFailure hasks hoptions htaken hfailed hfailure

theorem Rejects.isFailure {state : Task} {patchBody : PatchBody} {left : Option QueryResult}
    (h : Rejects state patchBody left) {patch : Operation} (hreplicated : patch.replicated = none)
    (hbody : patch.body = some patchBody) (results : Option QueryResult) :
    (handlePatch (some state) results patch).exit.isFailure ∧
      (handlePatch (some state) results patch).results = left := by
  cases h with
  | noTaskInfo hinfo =>
      simp [handlePatch, hreplicated, hbody, hinfo, Exit.isFailure]
  | noStage hinfo hstage =>
      simp [handlePatch, hreplicated, hbody, hinfo, hstage, Exit.isFailure]
  | noOptions hasks hoptions =>
      simp [handlePatch, hreplicated, hbody, hasks.1, hasks.2, hoptions, Exit.isFailure]
  | notForward hasks hoptions htaken hle =>
      rw [handlePatch_eq_of_not_taken hreplicated hbody hasks hoptions htaken]
      exact ⟨(handleTransition_isFailure_iff _ _ _ _).mpr (.inl hle), handleTransition_results _ _ _ _⟩
  | noFailure hasks hoptions htaken hfailed hfailure =>
      rw [handlePatch_eq_of_not_taken hreplicated hbody hasks hoptions htaken]
      exact ⟨(handleTransition_isFailure_iff _ _ _ _).mpr (.inr ⟨hfailed, hfailure⟩),
        handleTransition_results _ _ _ _⟩
  | noResults hasks hoptions htaken hnone hor =>
      obtain ⟨handled, hhandled, hfailure, hleft⟩ :=
        handlePatchForContinuousQuery_noResults htaken.2.1 htaken.2.2 hor
      rw [handlePatch_eq hreplicated hbody hasks hoptions, if_pos htaken.1, hnone, hhandled]
      exact ⟨hfailure, hleft⟩
  | uncounted hasks hoptions htaken hr hknown huncounted =>
      rw [handlePatch_eq hreplicated hbody hasks hoptions, if_pos htaken.1, hr,
        handlePatchForContinuousQuery_uncounted htaken.2.1 hknown huncounted]
      exact ⟨trivial, rfl⟩

/-! ## Failed and accepted PATCHes -/

/-- If the PATCH fails, a GET shows the stage and the results that it showed before. -/
def Atomic (service : Service) (patch : Operation) : Prop :=
  (service.receive patch).1.isFailure →
    (handleGet (service.receive patch).2).shown = (handleGet service).shown

/-- A query task that is not continuous. -/
def Task.isPlain (state : Task) : Prop :=
  ∀ options, state.querySpec.bind (·.options) = some options →
    (options.continuous || options.continuousStopMatch) = false

/-- If the PATCH is accepted on a task that is not continuous, its stage moves forward. -/
def Forward (service : Service) (patch : Operation) : Prop :=
  (service.receive patch).1.isAccepted → ∀ state, service.linkedState patch = some state →
    state.isPlain → ∃ state', (service.receive patch).2.state = some state' ∧
      state'.querySpec = state.querySpec ∧
      ordinal state.taskInfo.stage < ordinal state'.taskInfo.stage

theorem linkedState_of_client {patch : Operation} (hreplicated : patch.replicated = none)
    (service : Service) : service.linkedState patch = service.state := by
  unfold Service.linkedState
  rw [hreplicated]

theorem receive_of_isFailure {service : Service} {patch : Operation}
    (h : (handlePatch (service.linkedState patch) service.results patch).exit.isFailure) :
    (service.receive patch).2 =
      { service with
        results := (handlePatch (service.linkedState patch) service.results patch).results } := by
  unfold Service.receive
  dsimp only
  split
  · rfl
  · rfl
  · next hexit =>
      rw [hexit] at h
      exact h.elim
  · next hexit =>
      rw [hexit] at h
      exact h.elim

theorem receive_exit (service : Service) (patch : Operation) :
    (service.receive patch).1 =
      (handlePatch (service.linkedState patch) service.results patch).exit := by
  unfold Service.receive
  dsimp only
  split <;> rfl

theorem handleTransition_accepted {state : Task} {patchBody : PatchBody}
    {newTaskState : TaskState (Option TaskStage)} {stage : TaskStage}
    (h : (handleTransition state patchBody newTaskState stage).exit.isAccepted) :
    ordinal state.taskInfo.stage < ordinal stage ∧
      (handleTransition state patchBody newTaskState stage).state =
        some { state with taskInfo := { newTaskState with stage := stage } } := by
  unfold handleTransition at h ⊢
  split_ifs at h ⊢ with hle hstarted hfailure
  · exact h.elim
  · exact ⟨Nat.lt_of_not_le hle, rfl⟩
  · exact h.elim
  · exact ⟨Nat.lt_of_not_le hle, rfl⟩

theorem Exit.isFailure.not_isAccepted {exit : Exit} (h : exit.isFailure) : ¬ exit.isAccepted := by
  cases exit with
  | failed | exception => exact id
  | acknowledged | accepted => exact h.elim

theorem Exit.isFailure.ne_acknowledged {exit : Exit} (h : exit.isFailure) :
    exit ≠ .acknowledged := by
  rintro rfl
  exact h

/-- An accepted PATCH asks for a stage, on a state whose query has options. -/
theorem asks_of_isAccepted {linkedState : Option Task} {results : Option QueryResult}
    {patch : Operation} (h : (handlePatch linkedState results patch).exit.isAccepted) :
    patch.replicated = none ∧ ∃ state patchBody newTaskState stage options,
      linkedState = some state ∧ patch.body = some patchBody ∧
        patchBody.Asks newTaskState stage ∧
        state.querySpec.bind (·.options) = some options := by
  cases hreplicated : patch.replicated with
  | some => simp [handlePatch, hreplicated, Exit.isAccepted] at h
  | none =>
      refine ⟨rfl, ?_⟩
      cases linkedState with
      | none => simp [handlePatch, hreplicated, Exit.isAccepted] at h
      | some state =>
          cases hbody : patch.body with
          | none => simp [handlePatch, hreplicated, hbody, Exit.isAccepted] at h
          | some patchBody =>
              rcases handlePatch_early hreplicated hbody results with
                ⟨-, exit, hfailure, heq⟩ | ⟨newTaskState, stage, options, hasks, hoptions⟩
              · rw [heq] at h
                exact absurd h hfailure.not_isAccepted
              · exact ⟨state, patchBody, newTaskState, stage, options, rfl, rfl, hasks, hoptions⟩

theorem receive_of_isAccepted {service : Service} {patch : Operation}
    (h : (handlePatch (service.linkedState patch) service.results patch).exit.isAccepted) :
    (service.receive patch).2 =
      ⟨(handlePatch (service.linkedState patch) service.results patch).state,
        (handlePatch (service.linkedState patch) service.results patch).results⟩ := by
  unfold Service.receive
  dsimp only
  split
  · next hexit =>
      rw [hexit] at h
      exact h.elim
  · next hexit =>
      rw [hexit] at h
      exact h.elim
  · rfl
  · rfl

theorem forward (service : Service) (patch : Operation) : Forward service patch := by
  intro haccepted state hlinked hplain
  rw [receive_exit] at haccepted
  obtain ⟨hreplicated, state₁, patchBody, newTaskState, stage, options, hlinked₁, hbody, hasks,
    hoptions⟩ := asks_of_isAccepted haccepted
  obtain rfl : state = state₁ := Option.some.inj (hlinked.symm.trans hlinked₁)
  have htaken : ¬ Taken options state stage := fun h =>
    Bool.false_ne_true ((hplain options hoptions).symm.trans h.1)
  have heq := handlePatch_eq_of_not_taken hreplicated hbody hasks hoptions htaken service.results
  rw [receive_of_isAccepted haccepted]
  rw [hlinked, heq] at haccepted ⊢
  obtain ⟨hlt, hstate⟩ := handleTransition_accepted haccepted
  exact ⟨_, hstate, rfl, hlt⟩

/-- The stages that the accepted ones of some PATCHes set, one after the other. -/
def Service.acceptedStages (service : Service) : List Operation → List TaskStage
  | [] => []
  | patch :: patches =>
      let received := service.receive patch
      match received.1 with
      | .accepted _ _ =>
          (received.2.state.map (·.taskInfo.stage)).toList ++ received.2.acceptedStages patches
      | _ => received.2.acceptedStages patches

theorem completeContinuous_decides (count : Bool) (state : Task) (results : Option QueryResult)
    (sent : List Request) :
    (completeContinuous count state results sent).exit ≠ .acknowledged := by
  unfold completeContinuous
  cases count <;> cases results <;> nofun

theorem handlePatchForContinuousQuery_decides {count : Bool} {state : Task} {stage : TaskStage}
    {results : Option QueryResult} {handled : Handled}
    (h : handlePatchForContinuousQuery count state stage results = some handled) :
    handled.exit ≠ .acknowledged := by
  unfold handlePatchForContinuousQuery at h
  split at h
  · split at h
    · cases h
    · split at h
      · cases h
        nofun
      · dsimp only at h
        split at h
        · cases h
          exact completeContinuous_decides _ _ _ _
        · split at h
          · cases h
            nofun
          · cases h
            exact completeContinuous_decides _ _ _ _
    all_goals
      cases h
      exact completeContinuous_decides _ _ _ _
  · cases h

theorem handleTransition_decides (state : Task) (patchBody : PatchBody)
    (newTaskState : TaskState (Option TaskStage)) (stage : TaskStage) :
    (handleTransition state patchBody newTaskState stage).exit ≠ .acknowledged := by
  unfold handleTransition
  split_ifs <;> nofun

/-- A PATCH of a client is accepted or failed. -/
theorem handlePatch_decides {patch : Operation} (hreplicated : patch.replicated = none)
    (linkedState : Option Task) (results : Option QueryResult) :
    (handlePatch linkedState results patch).exit ≠ .acknowledged := by
  cases linkedState with
  | none => simp [handlePatch, hreplicated]
  | some state =>
      cases hbody : patch.body with
      | none => simp [handlePatch, hreplicated, hbody]
      | some patchBody =>
          rcases handlePatch_early hreplicated hbody results with
            ⟨-, exit, hfailure, heq⟩ | ⟨newTaskState, stage, options, hasks, hoptions⟩
          · rw [heq]
            exact hfailure.ne_acknowledged
          · rw [handlePatch_eq hreplicated hbody hasks hoptions]
            split_ifs
            · cases hcontinuous : handlePatchForContinuousQuery options.count state stage
                  patchBody.results with
              | none => exact handleTransition_decides _ _ _ _
              | some handled => exact handlePatchForContinuousQuery_decides hcontinuous
            · exact handleTransition_decides _ _ _ _

/-- A PATCH of a client that is not accepted leaves the state as it is. -/
theorem receive_state {service : Service} {patch : Operation} (hreplicated : patch.replicated = none)
    (h : ¬ (service.receive patch).1.isAccepted) :
    (service.receive patch).2.state = service.state := by
  rw [receive_exit] at h
  cases hexit : (handlePatch (service.linkedState patch) service.results patch).exit with
  | accepted =>
      rw [hexit] at h
      exact absurd trivial h
  | acknowledged => exact absurd hexit (handlePatch_decides hreplicated _ _)
  | failed | exception => rw [receive_of_isFailure (by rw [hexit]; trivial)]

/-- The accepted PATCHes of a client move a task that is not continuous strictly forward. -/
theorem acceptedStages_pairwise {service : Service} {state : Task} {patches : List Operation}
    (hstate : service.state = some state) (hplain : state.isPlain)
    (hreplicated : ∀ patch ∈ patches, patch.replicated = none) :
    (state.taskInfo.stage :: service.acceptedStages patches).IsChain
      fun a b => ordinal a < ordinal b := by
  induction patches generalizing service state with
  | nil => exact List.isChain_singleton _
  | cons patch patches ih =>
      obtain ⟨hpatch, hpatches⟩ := List.forall_mem_cons.mp hreplicated
      unfold Service.acceptedStages
      dsimp only
      split
      · next hexit =>
          have haccepted : (service.receive patch).1.isAccepted := by
            rw [hexit]
            trivial
          have hlinked := (linkedState_of_client hpatch service).trans hstate
          obtain ⟨state', hstate', hspec, hlt⟩ := forward service patch haccepted state hlinked hplain
          have hplain' : state'.isPlain := by
            unfold Task.isPlain
            rw [hspec]
            exact hplain
          rw [hstate']
          exact List.isChain_cons_cons.mpr ⟨hlt, ih hstate' hplain' hpatches⟩
      · next hexit =>
          have hnot : ¬ (service.receive patch).1.isAccepted := by
            intro haccepted
            cases h : (service.receive patch).1 with
            | accepted => exact hexit _ _ h
            | acknowledged | failed | exception =>
                rw [h] at haccepted
                exact haccepted
          exact ih ((receive_state hpatch hnot).trans hstate) hplain hpatches

/-- What a PATCH has to meet for its failure to change nothing: if it is one that fails, a GET
does not tell the results that it leaves from those that were there. -/
def KeepsShown (service : Service) (patch : Operation) : Prop :=
  ∀ state patchBody left, patch.replicated = none → service.state = some state →
    patch.body = some patchBody → Rejects state patchBody left →
    SameShown state service.results left

/-- Before the assignment of `this.results` nothing is changed. -/
theorem handlePatch_results_of_unread {linkedState : Option Task} {results : Option QueryResult}
    {patch : Operation}
    (h : patch.replicated.isSome ∨ linkedState = none ∨ patch.body = none) :
    (handlePatch linkedState results patch).results = results := by
  unfold handlePatch
  split_ifs with hreplicated
  · rfl
  · split
    · rfl
    · rfl
    · next hbody =>
        rcases h with h | h | h
        · exact absurd h hreplicated
        · cases h
        · rw [hbody] at h
          cases h

theorem atomic_iff (service : Service) (patch : Operation) :
    Atomic service patch ↔ KeepsShown service patch := by
  obtain ⟨serviceState, results⟩ := service
  constructor
  · intro hatomic state patchBody left hreplicated hstate hbody hrejects
    dsimp only at hstate
    subst hstate
    have hlinked : (Service.mk (some state) results).linkedState patch = some state :=
      linkedState_of_client hreplicated _
    obtain ⟨hfailure, hleft⟩ := hrejects.isFailure hreplicated hbody results
    rw [← hlinked] at hfailure
    have hshown := hatomic (by rw [receive_exit]; exact hfailure)
    rw [receive_of_isFailure hfailure, hlinked, hleft] at hshown
    exact (shown_eq_iff state results left).mp hshown
  · intro hkeeps hfailure
    rw [receive_exit] at hfailure
    rw [receive_of_isFailure hfailure]
    by_cases hunread : patch.replicated.isSome ∨ serviceState = none ∨ patch.body = none
    · have hlinked : patch.replicated.isSome ∨
          (Service.mk serviceState results).linkedState patch = none ∨ patch.body = none := by
        rcases hunread with h | h | h
        · exact .inl h
        · cases hreplicated : patch.replicated with
          | none => exact .inr (.inl ((linkedState_of_client hreplicated _).trans h))
          | some => exact .inl rfl
        · exact .inr (.inr h)
      rw [handlePatch_results_of_unread hlinked]
    · rw [not_or, not_or, Option.not_isSome_iff_eq_none] at hunread
      obtain ⟨hreplicated, hstate, hbody⟩ := hunread
      obtain ⟨state, rfl⟩ := Option.ne_none_iff_exists'.mp hstate
      obtain ⟨patchBody, hbody⟩ := Option.ne_none_iff_exists'.mp hbody
      have hlinked : (Service.mk (some state) results).linkedState patch = some state :=
        linkedState_of_client hreplicated _
      rw [hlinked] at hfailure ⊢
      exact (shown_eq_iff state results _).mpr
        (hkeeps state patchBody _ hreplicated rfl hbody
          (rejects_of_isFailure hreplicated hbody hfailure))

/-- `this.results` is assigned before the PATCH is checked. A failed PATCH changes nothing exactly
when it shows no other results than before; the accepted ones move a task forward that is not
continuous, in any sequence of PATCHes. -/
theorem patch_atomic_iff (service : Service) :
    (∀ patch : Operation,
      Atomic service patch ∧ Forward service patch ↔ KeepsShown service patch) ∧
      ∀ (state : Task) (patches : List Operation), service.state = some state → state.isPlain →
        (∀ patch ∈ patches, patch.replicated = none) →
        (state.taskInfo.stage :: service.acceptedStages patches).IsChain
          fun a b => ordinal a < ordinal b := by
  constructor
  · intro patch
    rw [atomic_iff]
    exact and_iff_left (forward service patch)
  · exact fun state patches => acceptedStages_pairwise

/-! ## A finished task -/

/-- The options of a query that is not continuous. -/
def plainSpec : QuerySpecification := ⟨some ⟨false, false, false, false, false⟩⟩

/-- A task at a stage, without results of its own. -/
def plainTask (stage : TaskStage) : Task :=
  ⟨⟨stage, false, none, none⟩, some plainSpec, none⟩

/-- A finished task: its results are in the field. -/
def finishedService : Service :=
  ⟨some (plainTask .finished), some { QueryResult.new with documentLinks := some ["/a"] }⟩

/-- A PATCH whose body has neither `taskInfo` nor `results`. -/
def emptyPatch : Operation := ⟨none, some ⟨none, none, none⟩⟩

/-- A PATCH to a stage. -/
def stagePatch (stage : TaskStage) : Operation :=
  ⟨none, some ⟨some ⟨some stage, false, none, none⟩, some plainSpec, none⟩⟩

theorem patch_atomic_iff_start :
    (TaskStage.created :: (Service.mk (some (plainTask .created)) none).acceptedStages
      [stagePatch .started, stagePatch .started, stagePatch .finished]).IsChain
        fun a b => ordinal a < ordinal b :=
  (patch_atomic_iff ⟨some (plainTask .created), none⟩).2 (plainTask .created)
    [stagePatch .started, stagePatch .started, stagePatch .finished] rfl
    (fun options h => by
      cases h
      rfl)
    (by simp [stagePatch])

/-- The PATCH is failed, and the results of the task are gone. -/
theorem failed_patch_drops_results :
    (finishedService.receive emptyPatch).1.isFailure ∧
      (handleGet (finishedService.receive emptyPatch).2).shown ≠ (handleGet finishedService).shown := by
  constructor
  · exact trivial
  · intro h
    cases h

end Xenon.QueryTask.Patch
