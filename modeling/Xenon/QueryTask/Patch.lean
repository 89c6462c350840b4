import Xenon.Foundation.Run
import Xenon.QueryTask.Count

/-!
# PATCHes of a query task

The results of a query task are kept twice: in the state, and in a field of the
service instance that a GET shows instead when it is set. A handler works on a copy
of the state, which the host installs when the request is completed and drops when it
is failed; the field is the instance's own, and what a handler assigns to it stays.
-/

namespace Xenon.QueryTask.Patch

open Xenon.Index.Continuous
open Xenon.QueryTask.Count (TaskStage updateAction)

/-- The ordinal of a `TaskState.TaskStage`. -/
def ordinal : TaskStage → Nat
  | .created => 0
  | .started => 1
  | .finished => 2
  | .failed => 3
  | .cancelled => 4

/-- `TaskState`. The stage may be missing in a body and never is in a state. -/
structure TaskState (S : Type) where
  stage : S
  isDirect : Bool
  failure : Option String
  durationMicros : Option Int64

/-- The members of `QueryOption` that are looked at here. -/
structure QueryOptions where
  continuous : Bool
  continuousStopMatch : Bool
  count : Bool
  broadcast : Bool
  readAfterWriteConsistency : Bool

structure QuerySpecification where
  options : Option QueryOptions

/-- A value of the map `documents`: a `ServiceDocument`, or anything else that a body
can hold there. -/
inductive Document where
  | serviceDocument (state : State)
  | other (value : String)

/-- `ContinuousResult`. -/
structure ContinuousResult where
  documentCountAdded : Option Int
  documentCountUpdated : Option Int
  documentCountDeleted : Option Int

/-- The counters of a `ContinuousResult`. -/
inductive Counter where
  | added | updated | deleted
deriving DecidableEq

def ContinuousResult.get (c : ContinuousResult) : Counter → Option Int
  | .added => c.documentCountAdded
  | .updated => c.documentCountUpdated
  | .deleted => c.documentCountDeleted

def ContinuousResult.set (c : ContinuousResult) (counter : Counter) (n : Int) : ContinuousResult :=
  match counter with
  | .added => { c with documentCountAdded := some n }
  | .updated => { c with documentCountUpdated := some n }
  | .deleted => { c with documentCountDeleted := some n }

theorem ContinuousResult.get_set (c : ContinuousResult) (counter counter' : Counter) (n : Int) :
    (c.set counter n).get counter' = if counter' = counter then some n else c.get counter' := by
  cases counter <;> cases counter' <;> rfl

/-- `new ContinuousResult()`. -/
def ContinuousResult.new : ContinuousResult := ⟨some 0, some 0, some 0⟩

/-- `ServiceDocumentQueryResult`. -/
structure QueryResult where
  documentLinks : Option (List String)
  documents : Option (List (String × Document))
  selectedLinks : Option (List String)
  selectedLinksPerDocument : Option (List (String × List (String × String)))
  selectedDocuments : Option (List (String × Document))
  documentCount : Option Int
  prevPageLink : Option String
  nextPageLink : Option String
  nextPageLinksPerGroup : Option (List (String × String))
  queryTimeMicros : Option Int64
  continuousResults : Option ContinuousResult

/-- `new ServiceDocumentQueryResult()`. -/
def QueryResult.new : QueryResult :=
  ⟨some [], none, none, none, none, none, none, none, none, none, none⟩

/-- The state of a query task. -/
structure Task where
  taskInfo : TaskState TaskStage
  querySpec : Option QuerySpecification
  results : Option QueryResult

/-- The body of a PATCH. -/
structure PatchBody where
  taskInfo : Option (TaskState (Option TaskStage))
  querySpec : Option QuerySpecification
  results : Option QueryResult

/-- A PATCH. `replicated` is the state that a replicated one carries, which the host
links to it; `body` is missing if `getBody` has none to return. -/
structure Operation where
  replicated : Option Task
  body : Option PatchBody

/-- What the handlers send, once the PATCH is completed or before. -/
inductive Request where
  | forwardQuery
  | broadcastQuery
  | cancelContinuousQuery
deriving DecidableEq

/-- How a PATCH ends. `acknowledged` is a replicated one, on which its owner has
decided. An exception fails the request in the host. -/
inductive Exit where
  | acknowledged
  | accepted (statusCode : Nat) (answer : Option Task)
  | failed (message : String)
  | exception

def Exit.isFailure : Exit → Prop
  | .failed _ => True
  | .exception => True
  | _ => False

def Exit.isAccepted : Exit → Prop
  | .accepted _ _ => True
  | _ => False

/-- What a handler leaves behind: the copy of the state it worked on, and the field
`results` of the instance. -/
structure Handled where
  exit : Exit
  state : Option Task
  results : Option QueryResult
  sent : List Request

/-! ## `handleGet` -/

/-- `copyTo` into a new result. It leaves out `selectedDocuments`. -/
def QueryResult.copyTo (r : QueryResult) : QueryResult :=
  { QueryResult.new with
    documentLinks := r.documentLinks
    documents := r.documents
    selectedLinksPerDocument := r.selectedLinksPerDocument
    selectedLinks := r.selectedLinks
    documentCount := r.documentCount
    prevPageLink := r.prevPageLink
    nextPageLink := r.nextPageLink
    nextPageLinksPerGroup := r.nextPageLinksPerGroup
    queryTimeMicros := r.queryTimeMicros
    continuousResults := r.continuousResults }

/-- The copy of the cached results that a GET answers with: the collections that are
present are copied once more. -/
def QueryResult.cloned (r : QueryResult) : QueryResult :=
  let c := r.copyTo
  { c with
    documentLinks := r.documentLinks.or c.documentLinks
    documents := r.documents.or c.documents
    selectedLinksPerDocument := r.selectedLinksPerDocument.or c.selectedLinksPerDocument
    selectedLinks := r.selectedLinks.or c.selectedLinks
    selectedDocuments := r.selectedDocuments.or c.selectedDocuments
    nextPageLinksPerGroup := r.nextPageLinksPerGroup.or c.nextPageLinksPerGroup
    continuousResults := r.continuousResults.or c.continuousResults }

/-- A service instance: the latest state, if there is one, and the field `results`. -/
structure Service where
  state : Option Task
  results : Option QueryResult

/-- The answer of a GET. `resetQuerySpecNativeContext` needs a query specification. -/
inductive Answer where
  | body (state : Option Task)
  | exception

def handleGet (service : Service) : Answer :=
  match service.results, service.state with
  | none, state => .body state
  | _, none => .body none
  | some r, some state =>
      match state.querySpec with
      | none => .exception
      | some _ => .body (some { state with results := some r.cloned })

/-- The stage and the results that a GET shows. -/
def Answer.shown : Answer → Option (Option (TaskStage × Option QueryResult))
  | .body state => some (state.map fun task => (task.taskInfo.stage, task.results))
  | .exception => none

/-! ## `handlePatchForContinuousQuery` -/

/-- `continuousResults` is set if it is missing. -/
def QueryResult.withContinuousResults (r : QueryResult) : QueryResult :=
  { r with continuousResults := some (r.continuousResults.getD .new) }

/-- `documentCount` changes by `delta`. -/
def QueryResult.addToCount (known : QueryResult) (delta : Int) : Option QueryResult :=
  known.documentCount.map fun n => { known with documentCount := some (n + delta) }

/-- One of the counters of `continuousResults` is incremented. -/
def QueryResult.increment (known : QueryResult) (counter : Counter) : Option QueryResult :=
  match known.continuousResults with
  | none => none
  | some c =>
      (c.get counter).map fun n => { known with continuousResults := some (c.set counter (n + 1)) }

/-- What the loop does with the `documentUpdateAction` of a document. -/
def countAction (known : QueryResult) (action : String) (documentVersion : Int64) :
    Option QueryResult :=
  if action = Common.Action.delete.name then
    (known.addToCount (-1)).bind (·.increment .deleted)
  else if action = Common.Action.post.name ∧ documentVersion = 0 then
    (known.addToCount 1).bind (·.increment .added)
  else if action = Common.Action.patch.name ∨ action = Common.Action.put.name then
    known.increment .updated
  else some known

/-- The body of the loop over the documents of a notification: an update of
`state.results`, or an exception. -/
def countDocument (known : QueryResult) : Document → Option QueryResult
  | .other _ => none
  | .serviceDocument doc =>
      (updateAction doc).bind fun action => countAction known action doc.documentVersion

/-- A notification on a task with results: the new `state.results` and `this.results`, or,
on an exception, the latter alone. -/
def adjustCount (count : Bool) (known r : QueryResult) : Except QueryResult (QueryResult × QueryResult) :=
  match r.documents with
  | some documents =>
      match documents.foldlM (fun known doc => countDocument known doc.2) known with
      | none => .error r
      | some known =>
          if count then
            -- `documents` is cleared before `documentLinks` is
            match r.documentLinks with
            | none => .error { r with documents := some [] }
            | some _ =>
                let known := { known with documents := none, documentLinks := none }
                .ok (known, { r with documents := some []
                                     documentLinks := some []
                                     documentCount := known.documentCount
                                     continuousResults := known.continuousResults })
          else .ok (known, { r with continuousResults := known.continuousResults })
  | none =>
      match r.documentCount with
      | none => .ok (known, r)
      | some added =>
          match known.documentCount with
          | none => .error r
          | some n => .ok ({ known with documentCount := some (n + added) }, r)

/-- The end of `handlePatchForContinuousQuery`. -/
def completeContinuous (count : Bool) (state : Task) (results : Option QueryResult)
    (sent : List Request) : Handled :=
  if count then ⟨.accepted 200 (some state), some state, results, sent⟩
  else
    match results with
    | none => ⟨.exception, some state, none, sent⟩
    | some r => ⟨.accepted 200 none, some state, some r.withContinuousResults, sent⟩

/-- `handlePatchForContinuousQuery`; `results` is `patchBody.results`, which is also
`this.results` by then. `none` leaves the PATCH to its caller. -/
def handlePatchForContinuousQuery (count : Bool) (state : Task) (stage : TaskStage)
    (results : Option QueryResult) : Option Handled :=
  match state.taskInfo.stage with
  | .started =>
      match stage with
      | .created => none
      | .started =>
          match results with
          | none => some ⟨.exception, some state, none, []⟩
          | some r =>
              let r := r.withContinuousResults
              match state.results with
              | none =>
                  let r := { r with documentCount := some (r.documentCount.getD 0) }
                  some (completeContinuous count { state with results := some r } (some r) [])
              | some known =>
                  match adjustCount count known r with
                  | .error left => some ⟨.exception, some state, some left, []⟩
                  | .ok (known, r) =>
                      some (completeContinuous count { state with results := some known } (some r) [])
      | .cancelled | .failed | .finished =>
          some (completeContinuous count state results [.cancelContinuousQuery])
  | _ => none

/-! ## `handlePatch` -/

/-- What an accepted PATCH to `STARTED` sends once it is completed. -/
def startQuery (patchBody : PatchBody) : List Request :=
  match patchBody.querySpec.bind (·.options) with
  | none => []
  | some options =>
      if options.broadcast || options.readAfterWriteConsistency then [.broadcastQuery]
      else [.forwardQuery]

/-- The transition of a query that is not continuous, or whose PATCH is no notification. -/
def handleTransition (state : Task) (patchBody : PatchBody) (newTaskState : TaskState (Option TaskStage))
    (stage : TaskStage) : Handled :=
  if ordinal stage ≤ ordinal state.taskInfo.stage then
    ⟨.failed "new stage must be greater than current", some state, patchBody.results, []⟩
  else
    let state := { state with taskInfo := { newTaskState with stage := stage } }
    if stage = .started then
      ⟨.accepted 202 none, some state, patchBody.results, startQuery patchBody⟩
    else if (stage = .failed ∨ stage = .cancelled) ∧ newTaskState.failure = none then
      ⟨.failed "failure must be specified", some state, patchBody.results, []⟩
    else ⟨.accepted 200 none, some state, patchBody.results, []⟩

/-- `handlePatch`, on the linked state and the field `results` of the instance. -/
def handlePatch (linkedState : Option Task) (results : Option QueryResult) (patch : Operation) :
    Handled :=
  if patch.replicated.isSome then ⟨.acknowledged, linkedState, results, []⟩
  else
    match linkedState, patch.body with
    | none, _ => ⟨.failed "service state missing", none, results, []⟩
    | some state, none => ⟨.exception, some state, results, []⟩
    | some state, some patchBody =>
        -- `this.results = patchBody.results`: from here on the field is that of the body
        match patchBody.taskInfo with
        | none => ⟨.failed "taskInfo is required", some state, patchBody.results, []⟩
        | some newTaskState =>
            match newTaskState.stage with
            | none => ⟨.failed "stage is required", some state, patchBody.results, []⟩
            | some stage =>
                match state.querySpec.bind (·.options) with
                | none => ⟨.exception, some state, patchBody.results, []⟩
                | some options =>
                    if options.continuous || options.continuousStopMatch then
                      (handlePatchForContinuousQuery options.count state stage
                        patchBody.results).getD (handleTransition state patchBody newTaskState stage)
                    else handleTransition state patchBody newTaskState stage

/-! ## The service -/

/-- The state that the host links to a request. -/
def Service.linkedState (service : Service) (patch : Operation) : Option Task :=
  match patch.replicated with
  | some carried => some carried
  | none => service.state

/-- A PATCH: the host installs the state of a completed one. -/
def Service.receive (service : Service) (patch : Operation) : Exit × Service :=
  let handled := handlePatch (service.linkedState patch) service.results patch
  match handled.exit with
  | .failed _ | .exception => (handled.exit, { service with results := handled.results })
  | .acknowledged | .accepted _ _ => (handled.exit, ⟨handled.state, handled.results⟩)

/-! ## What a GET shows -/

theorem QueryResult.cloned_eq (r : QueryResult) : r.cloned = r := by
  simp only [QueryResult.cloned, QueryResult.copyTo, QueryResult.new, Option.or_self, Option.or_none]

/-- Two values of the field `results` that a GET does not tell apart. Without a query
specification a GET fails as soon as the field is set. -/
def SameShown (state : Task) (results left : Option QueryResult) : Prop :=
  match state.querySpec with
  | none => left.isSome = results.isSome
  | some _ => left.or state.results = results.or state.results

theorem shown_some (state : Task) (results : Option QueryResult) :
    (handleGet ⟨some state, results⟩).shown =
      match results, state.querySpec with
      | none, _ => some (some (state.taskInfo.stage, state.results))
      | some _, none => none
      | some r, some _ => some (some (state.taskInfo.stage, some r)) := by
  obtain ⟨taskInfo, querySpec, known⟩ := state
  cases results with
  | none => rfl
  | some r =>
      cases querySpec with
      | none => rfl
      | some _ => simp only [handleGet, r.cloned_eq, Answer.shown, Option.map_some]

theorem shown_eq_iff (state : Task) (results left : Option QueryResult) :
    (handleGet ⟨some state, left⟩).shown = (handleGet ⟨some state, results⟩).shown ↔
      SameShown state results left := by
  rw [shown_some, shown_some]
  unfold SameShown
  cases state.querySpec <;> cases left <;> cases results <;> simp

/-! ## Notifications that can be counted -/

/-- A counter of `state.results`. -/
def QueryResult.counter (r : QueryResult) (counter : Counter) : Option Int :=
  r.continuousResults.bind (·.get counter)

/-- The counts and counters that the loop needs for an action are there. -/
def CountableAction (known : QueryResult) (action : String) (documentVersion : Int64) : Prop :=
  if action = Common.Action.delete.name then
    known.documentCount.isSome ∧ (known.counter .deleted).isSome
  else if action = Common.Action.post.name ∧ documentVersion = 0 then
    known.documentCount.isSome ∧ (known.counter .added).isSome
  else
    action = Common.Action.patch.name ∨ action = Common.Action.put.name →
      (known.counter .updated).isSome

/-- A document of a notification that the loop counts without an exception. -/
def Countable (known : QueryResult) : Document → Prop
  | .other _ => False
  | .serviceDocument doc =>
      ∃ action, updateAction doc = some action ∧ CountableAction known action doc.documentVersion

/-- What `Countable` reads of the results. -/
structure SameCounters (known known' : QueryResult) : Prop where
  documentCount : known'.documentCount.isSome = known.documentCount.isSome
  counter : ∀ counter, (known'.counter counter).isSome = (known.counter counter).isSome

theorem SameCounters.refl (known : QueryResult) : SameCounters known known := ⟨rfl, fun _ => rfl⟩

theorem SameCounters.trans {a b c : QueryResult} (h : SameCounters a b) (h' : SameCounters b c) :
    SameCounters a c where
  documentCount := h'.documentCount.trans h.documentCount
  counter k := (h'.counter k).trans (h.counter k)

theorem SameCounters.countable {known known' : QueryResult} (h : SameCounters known known')
    (doc : Document) : Countable known' doc ↔ Countable known doc := by
  cases doc with
  | other => rfl
  | serviceDocument doc =>
      unfold Countable CountableAction
      rw [h.documentCount, h.counter, h.counter, h.counter]

theorem addToCount_isSome (known : QueryResult) (delta : Int) :
    (known.addToCount delta).isSome = known.documentCount.isSome := Option.isSome_map

theorem addToCount_sameCounters {known known' : QueryResult} {delta : Int}
    (h : known.addToCount delta = some known') : SameCounters known known' := by
  obtain ⟨n, hn, rfl⟩ := Option.map_eq_some_iff.mp h
  constructor
  · rw [hn]
    rfl
  · intro k
    rfl

theorem increment_isSome (known : QueryResult) (k : Counter) :
    (known.increment k).isSome = (known.counter k).isSome := by
  unfold QueryResult.increment QueryResult.counter
  cases known.continuousResults with
  | none => rfl
  | some c => exact Option.isSome_map

theorem increment_sameCounters {known known' : QueryResult} {k : Counter}
    (h : known.increment k = some known') : SameCounters known known' := by
  unfold QueryResult.increment at h
  cases hc : known.continuousResults with
  | none =>
      rw [hc] at h
      cases h
  | some c =>
      rw [hc] at h
      obtain ⟨n, hn, rfl⟩ := Option.map_eq_some_iff.mp h
      constructor
      · rfl
      · intro k'
        unfold QueryResult.counter
        rw [hc]
        simp only [Option.bind_some, c.get_set]
        split_ifs with hk
        · rw [hk, hn]
          rfl
        · rfl

/-- A change of the count followed by an increment is possible if each of them is. -/
theorem addToCount_increment_isSome (known : QueryResult) (delta : Int) (k : Counter) :
    ((known.addToCount delta).bind (·.increment k)).isSome ↔
      known.documentCount.isSome ∧ (known.counter k).isSome := by
  rw [← addToCount_isSome known delta]
  cases hadd : known.addToCount delta with
  | none => simp
  | some known₁ =>
      rw [← (addToCount_sameCounters hadd).counter k, ← increment_isSome]
      simp

theorem addToCount_increment_sameCounters {known known' : QueryResult} {delta : Int} {k : Counter}
    (h : (known.addToCount delta).bind (·.increment k) = some known') :
    SameCounters known known' := by
  obtain ⟨known₁, h₁, h₂⟩ := Option.bind_eq_some_iff.mp h
  exact (addToCount_sameCounters h₁).trans (increment_sameCounters h₂)

theorem countAction_isSome_iff (known : QueryResult) (action : String) (documentVersion : Int64) :
    (countAction known action documentVersion).isSome ↔
      CountableAction known action documentVersion := by
  unfold countAction CountableAction
  split_ifs with hdelete hpost hupdate
  · exact addToCount_increment_isSome known (-1) .deleted
  · exact addToCount_increment_isSome known 1 .added
  · rw [increment_isSome]
    exact ⟨fun h _ => h, fun h => h hupdate⟩
  · exact ⟨fun _ h => absurd h hupdate, fun _ => rfl⟩

theorem countAction_sameCounters {known known' : QueryResult} {action : String}
    {documentVersion : Int64} (h : countAction known action documentVersion = some known') :
    SameCounters known known' := by
  unfold countAction at h
  split_ifs at h
  · exact addToCount_increment_sameCounters h
  · exact addToCount_increment_sameCounters h
  · exact increment_sameCounters h
  · cases h
    exact SameCounters.refl known

theorem countDocument_isSome_iff (known : QueryResult) (doc : Document) :
    (countDocument known doc).isSome ↔ Countable known doc := by
  cases doc with
  | other => simp [countDocument, Countable]
  | serviceDocument doc =>
      simp only [countDocument, Countable, Option.isSome_bind, ← countAction_isSome_iff]
      cases updateAction doc <;> simp

theorem countDocument_sameCounters {known known' : QueryResult} {doc : Document}
    (h : countDocument known doc = some known') : SameCounters known known' := by
  cases doc with
  | other => cases h
  | serviceDocument doc =>
      obtain ⟨action, -, h⟩ := Option.bind_eq_some_iff.mp h
      exact countAction_sameCounters h

/-- The loop meets no exception exactly when every document can be counted: what it needs
of the results does not change on the way. -/
theorem foldlM_isSome_iff (documents : List (String × Document)) (known : QueryResult) :
    (documents.foldlM (fun known doc => countDocument known doc.2) known).isSome ↔
      ∀ doc ∈ documents, Countable known doc.2 := by
  induction documents generalizing known with
  | nil => simp
  | cons doc documents ih =>
      rw [List.foldlM_cons, List.forall_mem_cons, ← countDocument_isSome_iff known doc.2]
      cases hcount : countDocument known doc.2 with
      | none => simp
      | some known' =>
          have same := countDocument_sameCounters hcount
          have tail := ih known'
          simp only [same.countable] at tail
          simpa using tail

end Xenon.QueryTask.Patch
