import Mathlib.Data.List.Flatten
import Xenon.Stateful.Exclusion

/-!
# The order of updates

A service whose queue is first in first out means to handle updates in the order in
which `queueRequest` took them. The queue keeps that order; the way out of it does not.
`dequeueRequest` takes a request out of the queue before anybody holds the gate for it,
and the request comes back through the processing chain of the host to
`queueRequestInternal`, as if it had just arrived. An update that arrives in between
finds the gate open and passes it, and the one that was dequeued is queued again,
behind the updates that arrived after it. The same happens to one that was dequeued
for a GET while another GET is still active.

The order holds in runs in which nobody comes in between: an update that finds the
gate open finds no other one waiting, and a dequeued one finds it open. It also rests
on the gate being given up by its holder, so that no second update is on its way to a
handler (see `Xenon.Stateful.Exclusion`).
-/

namespace Xenon.Stateful

open Xenon.Common Xenon.Foundation

variable {β : Type}

/-! ## Where updates are -/

/-- The identity of an update; nothing for the other requests. -/
def Request.updateId (op : Request β) : List OpId := if op.isUpdate then [op.id] else []

/-- The update that is handled again when this operation completes. -/
def Operation.reProcessId (op : Operation β) : List OpId :=
  op.reProcess.toList.flatMap Request.updateId

/-- The updates in the queue, the next one first. -/
def Gate.queuedUpdates (g : Gate β) : List OpId :=
  g.operationQueue.store.flatMap Request.updateId

namespace Task

/-- The request that a task brings to the gate. -/
def arriving : Task β → Option (Request β)
  | .chain op | .queueRequest op _ | .queueRequestInternal op _ => some op
  | _ => none

/-- The dequeued update that a task brings back to the gate. -/
def returning : Task β → List OpId
  | .chain op | .queueRequest op true | .queueRequestInternal op true => op.updateId
  | _ => []

/-- The update that `queueRequest` accepts by a task: it passes the gate or is queued,
and not because it was dequeued. -/
def accepts (svc : Service β) (s : Shared β) : Task β → List OpId
  | .queueRequestInternal op false =>
      match (Stateful.queueRequestInternal svc s.hostIsStopping s.gate op).2 with
      | .queued | .proceed => op.updateId
      | _ => []
  | _ => []

end Task

/-- The update that a stage brings to its handler, at once or after a synchronization
made for it. -/
def Stage.approaching : Stage β → List OpId
  | .handleRequest op | .loadState op | .processFilters op => op.updateId
  | .handleStop _ | .serviceHandler _ => []
  | .completion op _ | .updated op _ | .replication op | .commit op | .indexing op
  | .authzArtifacts op | .notification op _ | .coordinator op _ | .synchronize op _ _
  | .reply op _ => op.reProcessId

def StopFor.approaching : StopFor β → List OpId
  | .stop => []
  | .delete op _ => op.reProcessId
  | .markedDeleted request => request.reProcessId

/-- The update that passed the gate and that a task brings to its handler. -/
def Task.approaching : Task β → List OpId
  | .admitted op => op.updateId
  | .processPending op next => if next = .nothing then [] else op.reProcessId
  | .stop _ k | .setStopped _ k | .cancelPendingRequests _ k => k.approaching
  | .stage st => st.approaching
  | _ => []

/-- The update whose handler has been called when there is such a task. -/
def Task.reached : Task β → List OpId
  | .stage (.handleStop op) | .stage (.serviceHandler op) => op.updateId
  | _ => []

/-! ## The history of a run -/

/-- The updates that were accepted, those that were dequeued and are on their way back
to the gate, and those whose handler was called, each in the order in which it
happened. -/
structure History where
  accepted : List OpId := []
  dequeued : List OpId := []
  handled : List OpId := []

/-- The history after a task was fired that is followed by the tasks `new`. -/
def History.note (svc : Service β) (h : History) (s : Shared β) (t : Task β)
    (new : List (Task β)) : History where
  accepted := h.accepted ++ t.accepts svc s
  dequeued :=
    -- an update that is still on its way keeps its place
    if new.flatMap Task.returning = t.returning then h.dequeued
    else h.dequeued.diff t.returning ++ new.flatMap Task.returning
  handled := h.handled ++ new.flatMap Task.reached

/-- The service with the history of its updates. -/
def recorded (svc : Service β) :
    Machine (Shared β × History) (Task β) (Input β) (Answer β) :=
  (service svc).record (History.note svc)

/-- A service that has just become available, with the default queue. -/
def startedFifo (limit : Int) (v : Versions) : Pool (Shared β × History) (Task β) :=
  ⟨((started false limit v).shared, {}), []⟩

/-- The history changes nothing: the runs are those of the service. -/
theorem recorded_runs (svc : Service β) (limit : Int) (v : Versions)
    (es : List (PoolEvent (Input β) (Answer β))) :
    (Foundation.exec (recorded svc).step (startedFifo limit v) es).map Machine.forget =
      Foundation.exec (service svc).step (started false limit v) es :=
  Machine.record_exec es (startedFifo limit v)

/-! ## Runs in which updates take turns -/

/-- No synchronization request arrives. -/
def Unsynchronized : PoolEvent (Input β) (Answer β) → Prop
  | .input (.request op) => op.isSynchronizeOwner = false
  | _ => True

/-- A new update passes the gate while no other one waits, in the queue or on its way
back from it. Those that were dequeued come back in their order, and one that finds the
gate held is the only one that waits. Nobody gives up the gate of an update while one
is on its way to its handler. -/
def TakesTurn (s : Shared β) (h : History) (ts : List (Task β)) : Task β → Prop
  | .queueRequestInternal op false =>
      s.isStopped = false → op.isUpdate = true → ¬ s.gate.isHeld →
        h.dequeued = [] ∧ s.gate.queuedUpdates = []
  | .queueRequestInternal op true =>
      s.isStopped = false → op.isUpdate = true →
        h.dequeued.head? = some op.id ∧
          (s.gate.isHeld → h.dequeued.tail = [] ∧ s.gate.queuedUpdates = [])
  | .processPending op _ => op.isUpdate = true → ∀ t ∈ ts, t.approaching = []
  | _ => True

/-- The guard of a run in which updates take turns. -/
def InTurn (p : Pool (Shared β × History) (Task β)) :
    PoolEvent (Input β) (Answer β) → Prop
  | .input i => Unsynchronized (.input i)
  | .fire n _ => ∀ t ∈ p.tasks[n]?, TakesTurn p.shared.1 p.shared.2 p.tasks t

instance : ∀ e : PoolEvent (Input β) (Answer β), Decidable (Unsynchronized e)
  | .input (.request op) => inferInstanceAs (Decidable (op.isSynchronizeOwner = false))
  | .input (.configuration _ _) | .input (.toggleDocumentOwner _) | .input .hostStop
  | .fire _ _ => inferInstanceAs (Decidable True)

instance (g : Gate β) : Decidable g.isHeld :=
  inferInstanceAs (Decidable (g.isUpdateActive = true ∨ g.getActiveCount ≠ 0))

instance (s : Shared β) (h : History) (ts : List (Task β)) :
    ∀ t : Task β, Decidable (TakesTurn s h ts t)
  | .queueRequestInternal op false => inferInstanceAs (Decidable (s.isStopped = false →
      op.isUpdate = true → ¬ s.gate.isHeld → h.dequeued = [] ∧ s.gate.queuedUpdates = []))
  | .queueRequestInternal op true => inferInstanceAs (Decidable (s.isStopped = false →
      op.isUpdate = true → h.dequeued.head? = some op.id ∧
        (s.gate.isHeld → h.dequeued.tail = [] ∧ s.gate.queuedUpdates = [])))
  | .processPending op _ =>
      inferInstanceAs (Decidable (op.isUpdate = true → ∀ t ∈ ts, t.approaching = []))
  | .chain _ | .queueRequest _ _ | .admitted _ | .dequeueRequest | .stop _ _
  | .setStopped _ _ | .cancelPendingRequests _ _ | .stage _ => inferInstanceAs (Decidable True)

instance (p : Pool (Shared β × History) (Task β)) :
    ∀ e : PoolEvent (Input β) (Answer β), Decidable (InTurn p e)
  | .input i => inferInstanceAs (Decidable (Unsynchronized (.input i)))
  | .fire n _ => inferInstanceAs
      (Decidable (∀ t ∈ p.tasks[n]?, TakesTurn p.shared.1 p.shared.2 p.tasks t))

/-! ## The way to the handler -/

variable {svc : Service β} {ids : List OpId}

/-- The tasks that follow one outside of the gate bring no request to it, and at most
the update that it was bringing to its handler goes on, or has arrived. -/
structure Leads (ids : List OpId) (new : List (Task β)) : Prop where
  approaching : (new.flatMap Task.reached ++ new.flatMap Task.approaching).Sublist ids
  arriving : ∀ t ∈ new, t.arriving = none

namespace Leads

variable {t : Task β} {new : List (Task β)}

theorem nil : Leads ids ([] : List (Task β)) := ⟨by simp, by simp⟩

theorem single (h : (t.reached ++ t.approaching).Sublist ids) (ht : t.arriving = none) :
    Leads ids [t] :=
  ⟨by simpa using h, by simpa using ht⟩

/-- A task that brings no update anywhere. -/
theorem cons (h : Leads ids new) (hreached : t.reached = []) (happroaching : t.approaching = [])
    (harriving : t.arriving = none) : Leads ids (t :: new) :=
  ⟨by simpa [hreached, happroaching] using h.approaching,
    List.forall_mem_cons.mpr ⟨harriving, h.arriving⟩⟩

/-- The thread goes on, and the next request is processed meanwhile. -/
theorem meanwhile {op : Operation β} (h : (t.reached ++ t.approaching).Sublist ids)
    (ht : t.arriving = none) : Leads ids [t, .processPending op .nothing] :=
  ⟨by simpa [Task.reached, Task.approaching] using h,
    List.forall_mem_cons.mpr ⟨ht, by simp [Task.arriving]⟩⟩

end Leads

theorem leads_processPending (op : Operation β) (next : Next) :
    Leads op.reProcessId [.processPending op next] := by
  apply Leads.single _ rfl
  show (if next = .nothing then [] else op.reProcessId).Sublist op.reProcessId
  split_ifs
  · exact List.nil_sublist _
  · exact List.Sublist.refl _

/-- Once its handler was called, or will not be, a request leads nowhere. -/
theorem leads_request {op : Request β} (next : Next) :
    Leads ids [.processPending ⟨op, none⟩ next] := by
  apply Leads.single _ rfl
  show (if next = .nothing then [] else []).Sublist ids
  rw [ite_self]
  exact List.nil_sublist _

theorem leads_handleRequest {isStopped : Bool} {v : Versions} (op : Request β) :
    Leads op.updateId (handleRequest svc isStopped v op) := by
  unfold handleRequest
  split_ifs
  · exact leads_request _
  · exact leads_request _
  · exact .single (by simp [Task.reached, Task.approaching, Stage.approaching]) rfl
  · exact .nil
  · exact .single (.refl _) rfl
  · exact .single (.refl _) rfl

theorem leads_loadAndLinkState {v : Versions} {op : Request β} {d : Option (ServiceDocument β)} :
    Leads op.updateId (loadAndLinkState svc v op d) := by
  unfold loadAndLinkState
  split_ifs
  · exact leads_request _
  · exact .single (.refl _) rfl

/-- The handler is called here, unless the request waits for a synchronization, or
fails, or is a replicated one. -/
theorem leads_processFilters {v : Versions} (op : Request β) :
    Leads op.updateId (processFilters svc v op).tasks := by
  unfold processFilters
  split
  · exact leads_request _
  · exact .single (List.nil_sublist _) rfl
  · refine .single ?_ rfl
    simp [Task.reached, Task.approaching, Stage.approaching, synchronizeWithPeers,
      Operation.reProcessId, synchOwnerRequest]
  · split_ifs
    · exact .single (List.nil_sublist _) rfl
    · exact .single (List.nil_sublist _) rfl
    · exact .single (by simp [Task.reached, Task.approaching, Stage.approaching]) rfl

theorem leads_specialCases (op : Operation β) (failed updated : Bool) :
    Leads op.reProcessId (handleRequestCompletionSpecialCases svc op failed updated) := by
  unfold handleRequestCompletionSpecialCases
  split_ifs
  · exact .single (.refl _) rfl
  · exact .single (.refl _) rfl
  · exact Leads.meanwhile (.refl _) rfl
  · exact .single (.refl _) rfl

theorem leads_handleRequestCompletion {now : Int64} {v : Versions} (op : Operation β)
    (failed : Bool) : Leads op.reProcessId (handleRequestCompletion svc now v op failed).tasks := by
  simp only [handleRequestCompletion]
  split_ifs
  · split <;> dsimp only
    · exact leads_specialCases op _ _
    · rename_i request _
      exact leads_specialCases ⟨request, op.reProcess⟩ _ _
  · exact leads_specialCases op _ _

theorem leads_indexing (op : Operation β) :
    Leads op.reProcessId (processCompletionStageIndexing op) := by
  unfold processCompletionStageIndexing
  split_ifs
  · exact .single (.refl _) rfl
  · exact Leads.meanwhile (.refl _) rfl

theorem leads_completeUpdate {v : Versions} (op : Operation β) (isStateUpdated : Bool) :
    Leads op.reProcessId (completeUpdate svc v op isStateUpdated) := by
  unfold completeUpdate
  split
  · simp only
    split_ifs
    · exact .single (.refl _) rfl
    · exact leads_indexing { op with linkedState := some (conformState svc op.toRequest _) }
  · exact Leads.meanwhile (.refl _) rfl

theorem leads_failCompletionStage (op : Operation β) :
    Leads op.reProcessId (failCompletionStage op) := by
  unfold failCompletionStage
  split_ifs <;> exact leads_processPending _ _

theorem leads_notification (op : Operation β) (failed : Bool) :
    Leads op.reProcessId (processCompletionStageTransactionNotification svc op failed) := by
  unfold processCompletionStageTransactionNotification
  split_ifs
  · exact .single (.refl _) rfl
  · exact leads_processPending _ _
  · exact leads_processPending _ _
  · exact leads_processPending _ _
  · exact .single (.refl _) rfl

theorem leads_completeSynchronizationRequest {v : Versions} (request : Operation β)
    (failure updated : Bool) :
    Leads request.reProcessId (completeSynchronizationRequest v request failure updated) := by
  unfold completeSynchronizationRequest
  simp only
  split_ifs
  · exact leads_processPending _ _
  · exact .single (.refl _) rfl
  · exact leads_processPending { request with isFromReplication := true } _

/-- What one stage does to the update that it brings to its handler. -/
theorem leads_runStage {isStopped : Bool} {v : Versions} {st : Stage β} {k : Answer β}
    {e : Effect β} (h : runStage svc isStopped v st k = some e) :
    Leads st.approaching e.tasks := by
  -- no stage leaves more of a request than it was given: each case is the lemma about the
  -- function that the stage calls
  cases st with
  | handleRequest op =>
      cases k <;> cases h
      exact leads_handleRequest op
  | handleStop op =>
      cases k <;> cases h <;> exact leads_request _
  | loadState op =>
      cases k <;> cases h
      · exact leads_request _
      · exact leads_loadAndLinkState
  | processFilters op =>
      cases k <;> cases h
      exact leads_processFilters op
  | serviceHandler op =>
      cases k with
      | completed d statusCode notModified =>
          simp only [runStage] at h
          split_ifs at h <;> cases h
          · exact .nil
          · exact .single (List.nil_sublist _) rfl
      | failed e =>
          cases h
          exact .single (List.nil_sublist _) rfl
      | failRequest =>
          simp only [runStage] at h
          split_ifs at h
          cases h
          exact leads_request _
      | _ => cases h
  | completion op failed =>
      cases k <;> cases h
      exact leads_handleRequestCompletion op failed
  | updated op isStateUpdated =>
      cases k <;> cases h
      exact leads_completeUpdate op isStateUpdated
  | replication op =>
      cases k <;> cases h
      · exact .single (.refl _) rfl
      · simp only
        split_ifs
        · exact .single (.refl _) rfl
        · exact leads_processPending _ _
  | commit op =>
      cases k <;> cases h
      exact leads_indexing op
  | indexing op =>
      cases k with
      | proceed =>
          cases h
          simp only
          split_ifs <;> exact .single (.refl _) rfl
      | failed e =>
          simp only [runStage] at h
          split_ifs at h
          cases h
          exact leads_failCompletionStage op
      | _ => cases h
  | authzArtifacts op =>
      cases k <;> cases h
      · exact .single (.refl _) rfl
      · exact leads_failCompletionStage op
  | notification op failed =>
      cases k <;> cases h
      exact leads_notification op failed
  | coordinator op failed =>
      cases k <;> cases h <;> exact leads_processPending _ _
  | synchronize request failure wasOwner =>
      cases k with
      | state d =>
          cases h
          exact leads_completeSynchronizationRequest
            ⟨(handleSynchronizeWithPeersCompletion svc v request.toRequest wasOwner d).2.1,
              request.reProcess⟩ failure _
      | failed e =>
          cases h
          simp only
          split_ifs
          · exact .single (.refl _) rfl
          · exact leads_processPending _ _
      | _ => cases h
  | reply op success =>
      cases success <;> cases k <;> cases h
      · exact .nil
      · simp only [Stage.approaching, Operation.reProcessId]
        -- the request that waited for the synchronization is processed again
        cases op.reProcess with
        | none => exact .nil
        | some r => exact .single (by simp [Task.reached, Task.approaching, Stage.approaching]) rfl

/-! ## What a firing does -/

/-- How a request passes the gate of a service without synchronization requests whose
queue is first in first out. -/
inductive Arrival (g : Gate β) (op : Request β) : Gate β → Verdict → Prop
  | handled (o : Outcome) : Arrival g op g (.handled o)
  | queued {q : OperationQueue (Request β)} :
      g.processingStage ≠ .stopped → (op.isUpdate = true → g.isHeld) →
      q.store = g.operationQueue.store ++ [op] → q.limit = g.operationQueue.limit →
      Arrival g op { g with operationQueue := q } .queued
  | update :
      g.processingStage ≠ .stopped → op.isUpdate = true → ¬ g.isHeld →
      Arrival g op { g with isUpdateActive := true } .proceed
  | get :
      op.isUpdate = false →
      Arrival g op { g with getActiveCount := g.getActiveCount + 1 } .proceed
  | ungated : op.isUpdate = false → Arrival g op g .dispatch

theorem arrival_of_queueRequestInternal {hostIsStopping : Bool} {g g' : Gate β} {op : Request β}
    {v : Verdict} (hfifo : 0 ≤ g.operationQueue.limit) (hsynch : op.isSynchronizeOwner = false)
    (h : queueRequestInternal svc hostIsStopping g op = (g', v)) : Arrival g op g' v := by
  obtain ⟨rfl, rfl⟩ : _ = g' ∧ _ = v := ⟨congrArg Prod.fst h, congrArg Prod.snd h⟩
  unfold queueRequestInternal
  split_ifs with hupdate hoptions hget
  · unfold queueUpdateRequestInternal
    split_ifs with hstop hheld howner
    · exact .handled _
    · exact absurd howner (by simp [hsynch])
    · split
      · exact .handled _
      · rename_i hoffer
        obtain ⟨hstore, hlimit⟩ := OperationQueue.store_of_offer hfifo hoffer
        exact .queued hstop (fun _ => hheld) hstore hlimit
    · exact .update hstop hupdate hheld
  · exact .ungated (by simpa using hupdate)
  · exact .ungated (by simpa using hupdate)
  · unfold queueGetRequestInternal
    split_ifs with hstop hactive
    · exact .handled _
    · split
      · exact .handled _
      · rename_i hoffer
        obtain ⟨hstore, hlimit⟩ := OperationQueue.store_of_offer hfifo hoffer
        exact .queued hstop (fun h => absurd h hupdate) hstore hlimit
    · exact .get (by simpa using hupdate)

/-- Without synchronization requests the queue is polled. -/
theorem dequeueRequest_of_synchQueue {g g' : Gate β} {next : Option (Request β)}
    (hsynch : g.synchQueue = none) (h : dequeueRequest g = (g', next)) :
    (next = none ∧ g' = g) ∨
      ∃ op q, next = some op ∧ g' = { g with operationQueue := q } ∧
        g.operationQueue.store = op :: q.store ∧ q.limit = g.operationQueue.limit := by
  have hpoll : pollSynchQueue g = (g, none) := by simp [pollSynchQueue, hsynch]
  simp only [dequeueRequest, hpoll] at h
  split at h
  · obtain ⟨rfl, rfl⟩ := Prod.mk.inj h
    exact Or.inl ⟨rfl, rfl⟩
  · rename_i op q hq
    obtain ⟨rfl, rfl⟩ := Prod.mk.inj h
    exact Or.inr ⟨op, q, rfl, rfl, OperationQueue.store_of_poll hq, OperationQueue.limit_of_poll hq⟩

/-- The tasks that follow `queueRequestInternal`. -/
def Verdict.tasks (op : Request β) : Verdict → List (Task β)
  | .proceed => [.admitted op]
  | .dispatch => [.stage (.handleRequest op)]
  | _ => []

/-- What firing a task does to the gate, and which tasks follow. -/
inductive Turn (svc : Service β) (s : Shared β) : Task β → Gate β → List (Task β) → Prop
  /-- Outside of the gate requests go on to their handlers, the queue may be emptied,
  and only `processPending` gives up the gate. -/
  | outside {t : Task β} {g : Gate β} {new : List (Task β)} :
      t.arriving = none → Leads t.approaching new →
      g.operationQueue.store.Sublist s.gate.operationQueue.store →
      g.operationQueue.limit = s.gate.operationQueue.limit →
      (s.gate.synchQueue = none → g.synchQueue = none) →
      g.isUpdateActive = s.gate.isUpdateActive ∨ (∃ op ∈ t.released, op.isUpdate = true) →
      Turn svc s t g new
  /-- A request on its way to the gate comes closer or is turned away. -/
  | passes {t t' : Task β} {op : Request β} {new : List (Task β)} :
      new.Sublist [t'] → t'.arriving = some op → t'.returning = t.returning →
      t.arriving = some op → t.accepts svc s = [] → Turn svc s t s.gate new
  | arrives {op : Request β} {dequeued : Bool} {g : Gate β} {v : Verdict} :
      queueRequestInternal svc s.hostIsStopping s.gate op = (g, v) →
      Turn svc s (.queueRequestInternal op dequeued) g (v.tasks op)
  | dequeues {next : Option (Request β)} {g : Gate β} :
      dequeueRequest s.gate = (g, next) →
      Turn svc s .dequeueRequest g (next.toList.map .chain)

section Fire

variable {s : Shared β}

/-- A task that leaves the gate alone. -/
theorem Turn.of_gate_eq {t : Task β} {new : List (Task β)} (ht : t.arriving = none)
    (hleads : Leads t.approaching new) : Turn svc s t s.gate new :=
  .outside ht hleads (.refl _) rfl id (Or.inl rfl)

theorem turn_queueRequest (hsvc : svc.concurrentUpdateHandling = false) (op : Request β)
    (dequeued : Bool) :
    Turn svc s (.queueRequest op dequeued) (fireQueueRequest svc s op dequeued).1.gate
      (fireQueueRequest svc s op dequeued).2 := by
  have hreturning : (Task.queueRequestInternal op dequeued).returning =
      (Task.queueRequest op dequeued).returning := by cases dequeued <;> rfl
  have hturn : ∀ new : List (Task β), new.Sublist [.queueRequestInternal op dequeued] →
      Turn svc s (.queueRequest op dequeued) s.gate new :=
    fun new hnew => .passes hnew rfl hreturning rfl rfl
  unfold fireQueueRequest
  split
  · simp only
    split_ifs <;> exact hturn [] (List.nil_sublist _)
  · -- only a service with concurrent updates dispatches here
    rename_i hq
    unfold queueRequest at hq
    split at hq
    · cases hq
    · split_ifs at hq with _ _ hconcurrent
      simp [hsvc] at hconcurrent
  · exact hturn _ (.refl _)
  · exact hturn [] (List.nil_sublist _)
  · exact hturn [] (List.nil_sublist _)

theorem turn_queueRequestInternal (op : Request β) (dequeued : Bool) :
    Turn svc s (.queueRequestInternal op dequeued) (fireQueueRequestInternal svc s op).1.gate
      (fireQueueRequestInternal svc s op).2 := by
  unfold fireQueueRequestInternal
  split <;> rename_i hq
  · exact .arrives hq
  · exact .arrives hq
  · rw [Shared.activate_gate]
    exact .arrives hq
  · exact .arrives hq
  · exact .arrives hq

theorem leads_next (op : Operation β) (next : Next) :
    Leads (Task.processPending op next).approaching (next.tasks op) := by
  cases next with
  | nothing => exact .nil
  | reply success => exact .single (.refl _) rfl
  | failRequest => exact leads_processPending op _
  | handleStopCompletion => exact .single (List.nil_sublist _) rfl
  | completion => exact .single (.refl _) rfl

theorem turn_processPending (op : Operation β) (next : Next) :
    Turn svc s (.processPending op next) (fireProcessPending svc s op next).1.gate
      (fireProcessPending svc s op next).2 := by
  unfold fireProcessPending
  cases hp : processPending svc s.gate op.toRequest with
  | mk g asks =>
      have hleads := leads_next op next
      rcases processPending_cases hp with ⟨rfl, rfl, -⟩ | ⟨rfl, hopens⟩
      · exact .of_gate_eq rfl hleads
      · obtain ⟨us, gs, hr, -, -⟩ := Shared.release_eq { s with gate := g } op.toRequest
        simp only [hr]
        have hleads' : Leads (Task.processPending op next).approaching
            (.dequeueRequest :: next.tasks op) := hleads.cons rfl rfl rfl
        rcases hopens with ⟨hop, rfl⟩ | ⟨-, rfl⟩
        · exact .outside rfl hleads' (.refl _) rfl id (Or.inr ⟨op.toRequest, rfl, hop⟩)
        · exact .outside rfl hleads' (.refl _) rfl id (Or.inl rfl)

theorem leads_refused (k : StopFor β) : Leads k.approaching k.refused := by
  cases k with
  | stop => exact .nil
  | delete op _ => exact .nil
  | markedDeleted request => exact leads_processPending request _

theorem leads_stopped (op : Request β) (k : StopFor β) :
    Leads k.approaching (k.stopped op) := by
  cases k with
  | stop => exact .single (List.nil_sublist _) rfl
  | delete op _ => exact .single (.refl _) rfl
  | markedDeleted request => exact leads_processPending request _

theorem turn_of_fire {t : Task β} {k : Answer β} {r : Shared β × List (Task β)}
    (hsvc : svc.concurrentUpdateHandling = false) (hfire : fire svc s t k = some r) :
    Turn svc s t r.1.gate r.2 := by
  cases t with
  | stage st =>
      obtain ⟨e, us, gs, hrun, htasks, hr, -, -⟩ := fireStage_eq hfire
      rw [htasks, hr]
      exact .of_gate_eq rfl (leads_runStage hrun)
  | chain op =>
      have hturn : ∀ new : List (Task β), new.Sublist [.queueRequest op true] →
          Turn svc s (.chain op) s.gate new := fun new hnew => .passes hnew rfl rfl rfl rfl
      rcases fire_chain hfire with ⟨-, rfl⟩ | rfl
      · exact hturn [] (List.nil_sublist _)
      · unfold queueOrScheduleRequest
        split_ifs
        · exact hturn _ (.refl _)
        · exact hturn [] (List.nil_sublist _)
        · exact hturn [] (List.nil_sublist _)
  | queueRequest op dequeued =>
      cases hfire
      exact turn_queueRequest hsvc op dequeued
  | queueRequestInternal op dequeued =>
      cases hfire
      exact turn_queueRequestInternal op dequeued
  | admitted op =>
      cases hfire
      unfold fireAdmitted
      split
      · exact .of_gate_eq rfl .nil
      · exact .of_gate_eq rfl (.single (.refl _) rfl)
  | processPending op next =>
      cases hfire
      exact turn_processPending op next
  | dequeueRequest =>
      cases hfire
      unfold fireDequeueRequest
      split <;> rename_i hd <;> exact .dequeues hd
  | stop op k =>
      cases hfire
      unfold fireStop
      split_ifs
      · exact .of_gate_eq rfl (leads_refused k)
      · exact .of_gate_eq rfl (leads_refused k)
      · exact .of_gate_eq rfl (.single (.refl _) rfl)
  | setStopped op k =>
      cases hfire
      exact .outside rfl (.single (.refl _) rfl) (.refl _) rfl id (Or.inl rfl)
  | cancelPendingRequests op k =>
      cases hfire
      refine .outside rfl (leads_stopped op k) (List.nil_sublist _) rfl ?_ (Or.inl rfl)
      intro hsynch
      simp [fireCancel, cancelPendingRequests, hsynch]

end Fire

/-! ## The invariant -/

/-- The queue is first in first out, and no synchronization request is under way to
it. -/
structure Plain (g : Gate β) (ts : List (Task β)) : Prop where
  fifo : 0 ≤ g.operationQueue.limit
  synchQueue : g.synchQueue = none
  queued : ∀ op ∈ g.operationQueue.store, op.isSynchronizeOwner = false
  arriving : ∀ t ∈ ts, ∀ op ∈ t.arriving, op.isSynchronizeOwner = false

/-- The updates that were handled, the one on its way to its handler, those that are
coming back and those that are queued were accepted in this order. -/
structure Ordered (g : Gate β) (h : History) (ts : List (Task β)) : Prop where
  order : (h.handled ++ ts.flatMap Task.approaching ++ h.dequeued ++ g.queuedUpdates).Sublist
    h.accepted
  single : (ts.flatMap Task.approaching).length ≤ 1
  held : ts.flatMap Task.approaching ≠ [] → g.isUpdateActive = true

section Invariant

variable {s : Shared β} {g : Gate β} {h : History} {t : Task β} {new ts : List (Task β)}

theorem returning_of_arriving (ht : t.arriving = none) : t.returning = [] := by
  cases t <;> first | rfl | cases ht

theorem accepts_of_arriving (ht : t.arriving = none) : t.accepts svc s = [] := by
  cases t <;> first | rfl | cases ht

theorem quiet_of_arriving {op : Request β} (ht : t.arriving = some op) :
    t.reached = [] ∧ t.approaching = [] := by
  cases t <;> first | exact ⟨rfl, rfl⟩ | cases ht

theorem Plain.replace (hp : Plain s.gate (t :: ts)) (hfifo : 0 ≤ g.operationQueue.limit)
    (hsynch : g.synchQueue = none)
    (hqueued : ∀ op ∈ g.operationQueue.store, op.isSynchronizeOwner = false)
    (hnew : ∀ t' ∈ new, ∀ op ∈ t'.arriving, op.isSynchronizeOwner = false) :
    Plain g (new ++ ts) where
  fifo := hfifo
  synchQueue := hsynch
  queued := hqueued
  arriving t' ht' op hop := by
    rcases List.mem_append.mp ht' with hmem | hmem
    · exact hnew t' hmem op hop
    · exact hp.arriving t' (List.mem_cons_of_mem _ hmem) op hop

theorem Plain.turn (hp : Plain s.gate (t :: ts)) (hturn : Turn svc s t g new) :
    Plain g (new ++ ts) := by
  cases hturn with
  | outside _ hleads hstore hlimit hsynch _ =>
      refine hp.replace (hlimit ▸ hp.fifo) (hsynch hp.synchQueue)
        (fun op hop => hp.queued op (hstore.subset hop)) ?_
      intro t' ht' op hop
      rw [hleads.arriving t' ht'] at hop
      cases hop
  | passes hnew ht' _ ht _ =>
      refine hp.replace hp.fifo hp.synchQueue hp.queued ?_
      intro t'' ht'' op hop
      obtain rfl := List.mem_singleton.mp (hnew.subset ht'')
      rw [ht'] at hop
      exact hp.arriving t List.mem_cons_self op (ht ▸ hop)
  | arrives hq =>
      rename_i op dequeued v
      have hop : op.isSynchronizeOwner = false := hp.arriving _ List.mem_cons_self op rfl
      have hnone : ∀ t' ∈ v.tasks op, ∀ op' ∈ t'.arriving, op'.isSynchronizeOwner = false := by
        intro t' ht' op' hop'
        cases v <;> simp only [Verdict.tasks, List.mem_singleton, List.not_mem_nil] at ht'
          <;> rw [ht'] at hop' <;> cases hop'
      cases arrival_of_queueRequestInternal hp.fifo hop hq with
      | queued _ _ hstore hlimit =>
          refine hp.replace (hlimit ▸ hp.fifo) hp.synchQueue ?_ hnone
          intro op' hop'
          rw [hstore] at hop'
          rcases List.mem_append.mp hop' with hmem | hmem
          · exact hp.queued op' hmem
          · rw [List.mem_singleton.mp hmem]
            exact hop
      | _ => exact hp.replace hp.fifo hp.synchQueue hp.queued hnone
  | dequeues hd =>
      rcases dequeueRequest_of_synchQueue hp.synchQueue hd with
        ⟨rfl, rfl⟩ | ⟨op, q, rfl, rfl, hstore, hlimit⟩
      · exact hp.replace hp.fifo hp.synchQueue hp.queued (by simp)
      · have hqueued := hp.queued
        rw [hstore] at hqueued
        obtain ⟨hop, hrest⟩ := List.forall_mem_cons.mp hqueued
        refine hp.replace (hlimit ▸ hp.fifo) hp.synchQueue hrest ?_
        intro t' ht' op' hop'
        obtain rfl : t' = .chain op := by simpa using ht'
        obtain rfl := Option.some.inj hop'
        exact hop

theorem Ordered.perm {ts' : List (Task β)} (hperm : ts.Perm ts') (ho : Ordered g h ts) :
    Ordered g h ts' := by
  have hsame : ts.flatMap Task.approaching = ts'.flatMap Task.approaching := by
    have happroaching := hperm.flatMap_right Task.approaching
    have hsingle := ho.single
    match hids : ts.flatMap Task.approaching with
    | [] => exact (List.nil_perm.mp (hids ▸ happroaching)).symm
    | [id] => exact List.singleton_perm.mp (hids ▸ happroaching)
    | _ :: _ :: _ => simp [hids] at hsingle
  obtain ⟨horder, hsingle, hheld⟩ := ho
  rw [hsame] at horder hsingle hheld
  exact ⟨horder, hsingle, hheld⟩

/-- A firing by which no update is accepted, dequeued or let through. -/
theorem Ordered.follow (ho : Ordered s.gate h (t :: ts))
    (hleads : (new.flatMap Task.reached ++ new.flatMap Task.approaching).Sublist t.approaching)
    (hreturning : new.flatMap Task.returning = t.returning ∨ new.flatMap Task.returning = [])
    (haccepts : t.accepts svc s = [])
    (hqueued : g.queuedUpdates.Sublist s.gate.queuedUpdates)
    (hflag : (t :: ts).flatMap Task.approaching ≠ [] →
      g.isUpdateActive = s.gate.isUpdateActive) :
    Ordered g (h.note svc s t new) (new ++ ts) := by
  have happroaching : ((new ++ ts).flatMap Task.approaching).Sublist
      ((t :: ts).flatMap Task.approaching) := by
    rw [List.flatMap_append, List.flatMap_cons]
    exact ((List.sublist_append_right _ _).trans hleads).append_right _
  have hdequeued : (h.note svc s t new).dequeued.Sublist h.dequeued := by
    simp only [History.note]
    split_ifs with hsame
    · exact .refl _
    · rw [hreturning.resolve_left hsame, List.append_nil]
      exact List.diff_sublist _ _
  refine ⟨?_, happroaching.length_le.trans ho.single, fun hne => ?_⟩
  · have haccepted : (h.note svc s t new).accepted = h.accepted := by
      simp [History.note, haccepts]
    rw [haccepted]
    refine List.Sublist.trans ?_ ho.order
    refine List.Sublist.append (List.Sublist.append ?_ hdequeued) hqueued
    simp only [History.note, List.flatMap_append, List.flatMap_cons, List.append_assoc]
    rw [← List.append_assoc (new.flatMap Task.reached)]
    exact (hleads.append_right _).append_left _
  · have hne' : (t :: ts).flatMap Task.approaching ≠ [] := by
      intro hnil
      rw [hnil] at happroaching
      exact hne (List.sublist_nil.mp happroaching)
    rw [hflag hne']
    exact ho.held hne'

/-- A new update is queued behind all others. -/
theorem Ordered.queue {op : Request β} {q : OperationQueue (Request β)}
    (ho : Ordered s.gate h (.queueRequestInternal op false :: ts)) (hop : op.isUpdate = true)
    (hq : (queueRequestInternal svc s.hostIsStopping s.gate op).2 = .queued)
    (hstore : q.store = s.gate.operationQueue.store ++ [op]) :
    Ordered { s.gate with operationQueue := q }
      (h.note svc s (.queueRequestInternal op false) []) ts := by
  have hid : op.updateId = [op.id] := by simp [Request.updateId, hop]
  refine ⟨?_, ho.single, ho.held⟩
  have hqueued : ({ s.gate with operationQueue := q } : Gate β).queuedUpdates =
      s.gate.queuedUpdates ++ [op.id] := by
    simp [Gate.queuedUpdates, hstore, hid]
  have haccepts : (Task.queueRequestInternal op false).accepts svc s = [op.id] := by
    simp [Task.accepts, hq, hid]
  have horder := ho.order.append_right [op.id]
  rw [hqueued]
  simpa [History.note, haccepts, Task.returning, Task.approaching, List.append_assoc]
    using horder

/-- A dequeued update that is the only one that waits is queued again. -/
theorem Ordered.requeue {op : Request β} {q : OperationQueue (Request β)}
    (ho : Ordered s.gate h (.queueRequestInternal op true :: ts)) (hop : op.isUpdate = true)
    (hdequeued : h.dequeued = [op.id]) (hempty : s.gate.queuedUpdates = [])
    (hstore : q.store = s.gate.operationQueue.store ++ [op]) :
    Ordered { s.gate with operationQueue := q }
      (h.note svc s (.queueRequestInternal op true) []) ts := by
  have hid : op.updateId = [op.id] := by simp [Request.updateId, hop]
  refine ⟨?_, ho.single, ho.held⟩
  have hqueued : ({ s.gate with operationQueue := q } : Gate β).queuedUpdates = [op.id] := by
    have hold : s.gate.operationQueue.store.flatMap Request.updateId = [] := hempty
    simp [Gate.queuedUpdates, hstore, hid, hold]
  have horder := ho.order
  rw [hdequeued, hempty] at horder
  rw [hqueued]
  simpa [History.note, Task.accepts, Task.returning, Task.approaching, hid, hdequeued]
    using horder

/-- An update passes the gate in its turn: it is new and nobody waits, or it is the
first of those that were dequeued. -/
theorem Ordered.admit {op : Request β} {dequeued : Bool}
    (ho : Ordered s.gate h (.queueRequestInternal op dequeued :: ts))
    (hop : op.isUpdate = true) (hheld : ¬ s.gate.isHeld)
    (hq : (queueRequestInternal svc s.hostIsStopping s.gate op).2 = .proceed)
    (hturn : dequeued = false ∧ h.dequeued = [] ∧ s.gate.queuedUpdates = [] ∨
      dequeued = true ∧ h.dequeued.head? = some op.id) :
    Ordered { s.gate with isUpdateActive := true }
      (h.note svc s (.queueRequestInternal op dequeued) [.admitted op]) (.admitted op :: ts) := by
  have hid : op.updateId = [op.id] := by simp [Request.updateId, hop]
  -- the gate is open, so no update is on its way to its handler
  have hnone : ts.flatMap Task.approaching = [] := by
    by_contra hne
    exact hheld (Or.inl (ho.held hne))
  have horder := ho.order
  refine ⟨?_, by simp [Task.approaching, hnone, hid], fun _ => rfl⟩
  rcases hturn with ⟨rfl, hdequeued, hempty⟩ | ⟨rfl, hhead⟩
  · have hqueued : ({ s.gate with isUpdateActive := true } : Gate β).queuedUpdates = [] := hempty
    have haccepts : (Task.queueRequestInternal op false).accepts svc s = [op.id] := by
      simp [Task.accepts, hq, hid]
    rw [hdequeued, hempty] at horder
    rw [hqueued]
    simpa [History.note, haccepts, Task.returning, Task.approaching, Task.reached, hid,
      hdequeued, hnone] using horder
  · obtain ⟨rest, hdequeued⟩ := List.head?_eq_some_iff.mp hhead
    rw [hdequeued] at horder
    simpa [History.note, Task.accepts, Task.returning, Task.approaching, Task.reached, hid,
      hdequeued, hnone, Gate.queuedUpdates] using horder

/-- The first request of the queue is dequeued. -/
theorem Ordered.dequeue {op : Request β} {q : OperationQueue (Request β)}
    (ho : Ordered s.gate h (.dequeueRequest :: ts))
    (hstore : s.gate.operationQueue.store = op :: q.store) :
    Ordered { s.gate with operationQueue := q } (h.note svc s .dequeueRequest [.chain op])
      (.chain op :: ts) := by
  refine ⟨?_, ho.single, ho.held⟩
  have hqueued : s.gate.queuedUpdates =
      op.updateId ++ ({ s.gate with operationQueue := q } : Gate β).queuedUpdates := by
    simp [Gate.queuedUpdates, hstore]
  have hdequeued : (h.note svc s .dequeueRequest [.chain op]).dequeued =
      h.dequeued ++ op.updateId := by
    by_cases hid : op.updateId = []
    · simp [History.note, Task.returning, hid]
    · simp [History.note, Task.returning, hid]
  have horder := ho.order
  rw [hqueued] at horder
  rw [hdequeued]
  simpa [History.note, Task.accepts, Task.approaching, Task.reached] using horder

/-- Requests other than updates pass the gate, or not, without touching the order. -/
theorem Ordered.arrive {op : Request β} {dequeued : Bool} {v : Verdict}
    (ho : Ordered s.gate h (.queueRequestInternal op dequeued :: ts))
    (hop : (v.tasks op).flatMap Task.approaching = [])
    (haccepts : (Task.queueRequestInternal op dequeued).accepts svc s = [])
    (hqueued : g.queuedUpdates = s.gate.queuedUpdates)
    (hflag : g.isUpdateActive = s.gate.isUpdateActive) :
    Ordered g (h.note svc s (.queueRequestInternal op dequeued) (v.tasks op))
      (v.tasks op ++ ts) := by
  have hreached : (v.tasks op).flatMap Task.reached = [] := by cases v <;> rfl
  have hreturning : (v.tasks op).flatMap Task.returning = [] := by cases v <;> rfl
  refine ho.follow ?_ (Or.inr hreturning) haccepts (hqueued ▸ .refl _) (fun _ => hflag)
  rw [hreached, hop]
  exact List.nil_sublist _

theorem Ordered.arrival {op : Request β} {dequeued : Bool} {v : Verdict}
    (ho : Ordered s.gate h (.queueRequestInternal op dequeued :: ts))
    (hq : queueRequestInternal svc s.hostIsStopping s.gate op = (g, v))
    (harrival : Arrival s.gate op g v)
    (hturn : TakesTurn s h (.queueRequestInternal op dequeued :: ts)
      (.queueRequestInternal op dequeued)) :
    Ordered g (h.note svc s (.queueRequestInternal op dequeued) (v.tasks op))
      (v.tasks op ++ ts) := by
  have hrunning : s.gate.processingStage ≠ .stopped → s.isStopped = false := by
    intro hstage
    simpa [Shared.isStopped] using hstage
  have hverdict : (queueRequestInternal svc s.hostIsStopping s.gate op).2 = v := by rw [hq]
  -- a request that is no update has no identity to keep in order
  have hother : op.isUpdate = false →
      op.updateId = [] ∧ (Task.queueRequestInternal op dequeued).accepts svc s = [] := by
    intro hop
    have hid : op.updateId = [] := by simp [Request.updateId, hop]
    refine ⟨hid, ?_⟩
    cases dequeued with
    | false =>
        simp only [Task.accepts, hid]
        split <;> rfl
    | true => rfl
  cases harrival with
  | handled o =>
      refine ho.arrive rfl ?_ rfl rfl
      cases dequeued with
      | false => simp [Task.accepts, hverdict]
      | true => rfl
  | queued hstage hheld hstore _ =>
      by_cases hop : op.isUpdate = true
      · cases dequeued with
        | false => exact ho.queue hop hverdict hstore
        | true =>
            obtain ⟨hhead, halone⟩ := hturn (hrunning hstage) hop
            obtain ⟨htail, hempty⟩ := halone (hheld hop)
            obtain ⟨rest, hrest⟩ := List.head?_eq_some_iff.mp hhead
            rw [hrest, List.tail_cons] at htail
            exact ho.requeue hop (htail ▸ hrest) hempty hstore
      · obtain ⟨hid, haccepts⟩ := hother (by simpa using hop)
        exact ho.arrive rfl haccepts (by simp [Gate.queuedUpdates, hstore, hid]) rfl
  | update hstage hop hheld =>
      apply ho.admit hop hheld hverdict
      cases dequeued with
      | false =>
          obtain ⟨hdequeued, hempty⟩ := hturn (hrunning hstage) hop hheld
          exact Or.inl ⟨rfl, hdequeued, hempty⟩
      | true => exact Or.inr ⟨rfl, (hturn (hrunning hstage) hop).1⟩
  | get hop =>
      obtain ⟨hid, haccepts⟩ := hother hop
      exact ho.arrive (by simp [Verdict.tasks, Task.approaching, hid]) haccepts rfl rfl
  | ungated hop =>
      obtain ⟨hid, haccepts⟩ := hother hop
      exact ho.arrive (by simp [Verdict.tasks, Task.approaching, Stage.approaching, hid])
        haccepts rfl rfl

theorem Ordered.turn (hp : Plain s.gate (t :: ts)) (ho : Ordered s.gate h (t :: ts))
    (htakes : TakesTurn s h (t :: ts) t) (hturn : Turn svc s t g new) :
    Ordered g (h.note svc s t new) (new ++ ts) := by
  cases hturn with
  | outside ht hleads hstore _ _ hflag =>
      have haccepts : t.accepts svc s = [] := accepts_of_arriving ht
      have hreturning : new.flatMap Task.returning = [] := by
        apply List.flatMap_eq_nil_iff.mpr
        intro t' ht'
        exact returning_of_arriving (hleads.arriving t' ht')
      refine ho.follow hleads.approaching (Or.inr hreturning) haccepts (hstore.flatMap _) ?_
      intro hne
      rcases hflag with hsame | ⟨op, hreleased, hop⟩
      · exact hsame
      · -- the gate is given up only while no update is on its way to its handler
        refine absurd (List.flatMap_eq_nil_iff.mpr ?_) hne
        cases t with
        | processPending op' next =>
            obtain rfl := Option.some.inj hreleased
            exact htakes hop
        | _ => cases hreleased
  | passes hnew ht' hreturning ht haccepts =>
      rename_i t' op
      obtain ⟨hreached, happroaching⟩ := quiet_of_arriving ht'
      have hquiet : ∀ f : Task β → List OpId, f t' = [] → new.flatMap f = [] := by
        intro f hf
        have hsub := hnew.flatMap f
        rw [List.flatMap_singleton, hf] at hsub
        exact List.sublist_nil.mp hsub
      refine ho.follow ?_ ?_ haccepts (.refl _) (fun _ => rfl)
      · rw [hquiet _ hreached, hquiet _ happroaching]
        exact List.nil_sublist _
      · rcases List.sublist_singleton.mp hnew with rfl | rfl
        · exact Or.inr rfl
        · exact Or.inl (by simpa using hreturning)
  | arrives hq =>
      have hop := hp.arriving _ List.mem_cons_self _ rfl
      exact ho.arrival hq (arrival_of_queueRequestInternal hp.fifo hop hq) htakes
  | dequeues hd =>
      rcases dequeueRequest_of_synchQueue hp.synchQueue hd with
        ⟨rfl, rfl⟩ | ⟨op, q, rfl, rfl, hstore, -⟩
      · exact ho.follow (List.nil_sublist _) (Or.inr rfl) rfl (.refl _) (fun _ => rfl)
      · exact ho.dequeue hstore

theorem TakesTurn.perm {ts' : List (Task β)} (hturn : TakesTurn s h ts t) (hperm : ts.Perm ts') :
    TakesTurn s h ts' t := by
  cases t with
  | processPending op next =>
      intro hop t' ht'
      exact hturn hop t' (hperm.mem_iff.mpr ht')
  | queueRequestInternal op dequeued => cases dequeued <;> exact hturn
  | _ => trivial

theorem plain_receive {i : Input β} (hi : Unsynchronized (.input i)) (hp : Plain s.gate ts) :
    Plain (receive s i).1.gate ((receive s i).2 ++ ts) := by
  cases i with
  | request op =>
      refine ⟨hp.fifo, hp.synchQueue, hp.queued, List.forall_mem_cons.mpr ⟨?_, hp.arriving⟩⟩
      rintro _ ⟨⟩
      exact hi
  | configuration epoch limit =>
      simp only [receive]
      split
      · exact hp
      · refine ⟨OperationQueue.limit_configured limit hp.fifo, hp.synchQueue, ?_, hp.arriving⟩
        rw [OperationQueue.store_configured]
        exact hp.queued
  | toggleDocumentOwner enable => exact ⟨hp.fifo, hp.synchQueue, hp.queued, hp.arriving⟩
  | hostStop => exact ⟨hp.fifo, hp.synchQueue, hp.queued, hp.arriving⟩

theorem Ordered.receive {i : Input β} (ho : Ordered s.gate h ts) :
    Ordered (receive s i).1.gate h ((receive s i).2 ++ ts) := by
  cases i with
  | request op => exact ⟨ho.order, ho.single, ho.held⟩
  | configuration epoch limit =>
      simp only [Stateful.receive]
      split
      · exact ho
      · refine ⟨?_, ho.single, ho.held⟩
        simpa [Gate.queuedUpdates, OperationQueue.store_configured] using ho.order
  | toggleDocumentOwner enable => exact ⟨ho.order, ho.single, ho.held⟩
  | hostStop => exact ⟨ho.order, ho.single, ho.held⟩

end Invariant

/-! ## Whole runs -/

/-- The history knows the dequeued updates that are on their way back. -/
theorem dequeued_perm (svc : Service β) (limit : Int) (v : Versions)
    {guard : Pool (Shared β × History) (Task β) → PoolEvent (Input β) (Answer β) → Prop}
    {es : List (PoolEvent (Input β) (Answer β))} {p : Pool (Shared β × History) (Task β)}
    (h : Reach (recorded svc).step guard (startedFifo limit v) es p) :
    p.shared.2.dequeued.Perm (p.tasks.flatMap Task.returning) := by
  apply Machine.reach_invariant
    (fun (s : Shared β × History) ts => s.2.dequeued.Perm (ts.flatMap Task.returning)) h
  case perm =>
    intro s ts ts' hperm hs
    exact hs.trans (hperm.flatMap_right _)
  case init => exact .refl _
  case input =>
    intro s ts i _ hs
    have hnone : ((service svc).input s.1 i).2.flatMap Task.returning = [] := by
      cases i with
      | configuration epoch limit =>
          simp only [service, receive]
          split <;> rfl
      | _ => rfl
    rw [List.flatMap_append]
    show s.2.dequeued.Perm (((service svc).input s.1 i).2.flatMap Task.returning ++ _)
    rw [hnone]
    exact hs
  case fire =>
    intro s ts n t rest k r _ _ _ hfire hs
    obtain ⟨-, hnote⟩ := Machine.record_fire hfire
    rw [hnote, List.flatMap_append]
    rw [List.flatMap_cons] at hs
    simp only [History.note]
    split_ifs with hsame
    · rw [hsame]
      exact hs
    · have hcancel : ∀ l l' : List OpId, (l ++ l').diff l = l' := by
        intro l l'
        induction l with
        | nil => rfl
        | cons a l ih => simpa using ih
      have hrest := hs.diff_right t.returning
      rw [hcancel] at hrest
      exact (hrest.append_right _).trans List.perm_append_comm

/-- **First in first out.** In every run in which no synchronization request arrives
and updates take turns at the gate, the updates reach their handlers in the order in
which `queueRequest` accepted them, whatever arrives, completes, fails or is dequeued
in between. -/
theorem updates_in_order (svc : Service β) (hsvc : svc.concurrentUpdateHandling = false)
    (limit : Int) (hlimit : 0 ≤ limit) (v : Versions)
    {es : List (PoolEvent (Input β) (Answer β))} {p : Pool (Shared β × History) (Task β)}
    (h : Reach (recorded svc).step InTurn (startedFifo limit v) es p) :
    p.shared.2.handled.Sublist p.shared.2.accepted := by
  have hinv : Plain p.shared.1.gate p.tasks ∧ Ordered p.shared.1.gate p.shared.2 p.tasks := by
    apply Machine.reach_invariant
      (fun (s : Shared β × History) ts => Plain s.1.gate ts ∧ Ordered s.1.gate s.2 ts) h
    case perm =>
      intro s ts ts' hperm hs
      refine ⟨⟨hs.1.fifo, hs.1.synchQueue, hs.1.queued, ?_⟩, hs.2.perm hperm⟩
      intro t ht
      exact hs.1.arriving t (hperm.mem_iff.mpr ht)
    case init =>
      exact ⟨⟨hlimit, rfl, by simp [startedFifo, started, OperationQueue.createFifo],
        by simp [startedFifo]⟩, ⟨List.Sublist.refl _, Nat.zero_le _, fun hne => absurd rfl hne⟩⟩
    case input =>
      intro s ts i hguard hs
      exact ⟨plain_receive hguard hs.1, hs.2.receive⟩
    case fire =>
      intro s ts n t rest k r hguard ht hperm hfire hs
      obtain ⟨hfire, hnote⟩ := Machine.record_fire hfire
      have hturn := turn_of_fire hsvc hfire
      have htakes := (hguard t ht).perm hperm
      rw [hnote]
      exact ⟨hs.1.turn hturn, hs.2.turn hs.1 htakes hturn⟩
  have horder := hinv.2.order
  simp only [List.append_assoc] at horder
  exact (List.sublist_append_left _ _).trans horder

/-- From the processing chain of the host to the handler, for a dequeued request whose
task is the first. -/
def returnPut : List (PoolEvent (Input Unit) (Answer Unit)) :=
  fires 0 [.proceed, .proceed, .proceed, .proceed, .proceed, .state (some { body := () }), .proceed]

/-- Two updates, of which the second is queued and dequeued. -/
theorem updates_in_order_queued :
    ∃ (es : List (PoolEvent (Input Unit) (Answer Unit)))
      (p : Pool (Shared Unit × History) (Task Unit)),
      Reach (recorded persistentService).step InTurn (startedFifo 10 {}) es p ∧
        p.shared.2.handled = [.inbound 1, .inbound 2] ∧
        p.shared.2.handled.Sublist p.shared.2.accepted := by
  obtain ⟨p, hp, hhandled⟩ := Option.map_eq_some_iff.mp (show
    (Foundation.exec
      (fun p e => if InTurn p e then (recorded persistentService).step p e else none)
      (startedFifo 10 {}) (admitPut 1 ++ queuePut 2 ++ handlePut ++ returnPut)).map
        (·.shared.2.handled) = some [.inbound 1, .inbound 2] by decide +kernel)
  have h := reach_of_exec hp
  exact ⟨_, p, h, hhandled, updates_in_order persistentService rfl 10 (by decide) {} h⟩

/-- The first update is active, the second is queued. The first one gives up the gate
and the second is dequeued; before it is back at the gate the third one arrives and
passes. The second is queued again and handled after the third. -/
theorem update_overtakes_dequeued :
    ¬ ∀ (svc : Service Unit) (limit : Int) (v : Versions)
      (es : List (PoolEvent (Input Unit) (Answer Unit)))
      (p : Pool (Shared Unit × History) (Task Unit)),
      svc.concurrentUpdateHandling = false → 0 ≤ limit →
        Reach (recorded svc).step (fun _ => Unsynchronized) (startedFifo limit v) es p →
          p.shared.2.handled.Sublist p.shared.2.accepted := by
  intro h
  obtain ⟨p, hp, hhistory⟩ := Option.map_eq_some_iff.mp (show
    (Foundation.exec
      (fun p e => if Unsynchronized e then (recorded persistentService).step p e else none)
      (startedFifo 10 {})
      (admitPut 1 ++ queuePut 2 ++ handlePut ++ admitPut 3 ++
        [.fire 1 .proceed, .fire 0 .proceed, .fire 0 .proceed] ++ handlePut ++ returnPut)).map
        (fun p => (p.shared.2.accepted, p.shared.2.handled)) =
      some ([.inbound 1, .inbound 2, .inbound 3], [.inbound 1, .inbound 3, .inbound 2]) by
      decide +kernel)
  obtain ⟨haccepted, hhandled⟩ := Prod.mk.inj hhistory
  have hsub := h persistentService 10 {} _ p rfl (by decide) (reach_of_exec hp)
  rw [haccepted, hhandled] at hsub
  exact absurd hsub (by decide)

end Xenon.Stateful
