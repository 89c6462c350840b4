import Xenon.Foundation.Pool

/-!
# The synchronization task of a factory

A factory has one synchronization task. A PUT (a POST to an existing task) asks
for a synchronization: it starts the state machine of a task that is not running
and asks a running one to start over, by setting its sub-stage to `RESTART`. The
state machine sends PATCHes to the task itself and goes on when one is handled.

Requests are handled one at a time; a request that waits for the factory to be
marked available or not keeps the next ones waiting. An execution of the task is
at any moment either at work in a sub-stage, or in a self-PATCH that is on its way
or being handled: each of these is a task of the pool. What a sub-stage finds out
is open; `emissions` lists the PATCHes that it can end with.

The history counts the PUTs that were accepted. An execution knows how many of them
there were when it was started or last restarted.
-/

namespace Xenon.SynchronizationTask

open Foundation

/-- `TaskState.TaskStage`, in the order of its ordinals. -/
inductive TaskStage where
  | created
  | started
  | finished
  | failed
  | cancelled
deriving DecidableEq

def TaskStage.ordinal : TaskStage → Nat
  | .created => 0
  | .started => 1
  | .finished => 2
  | .failed => 3
  | .cancelled => 4

def TaskStage.isInProgress (stage : TaskStage) : Bool :=
  stage = .created || stage = .started

inductive SubStage where
  | getCheckpoints
  | query
  | synchronize
  | restart
  | checkNgAvailability
deriving DecidableEq

/-- What the requests read and write of the state of the task. -/
structure State where
  stage : TaskStage
  subStage : Option SubStage
  membershipUpdateTimeMicros : Option Int64
  queryResultLimit : Int
deriving DecidableEq

/-- What does not change: whether the children are replicated and persisted, whether
they have periodic maintenance, and whether checkpoints are used. -/
structure Options where
  replication : Bool
  hasParent : Bool
  persistence : Bool
  periodicMaintenance : Bool
  isCheckpointEnabled : Bool

structure PutBody where
  queryResultLimit : Int
  membershipUpdateTimeMicros : Option Int64
deriving DecidableEq

/-- A PUT; `postToPut` is its pragma directive. -/
structure Put where
  postToPut : Bool
  body : Option PutBody
deriving DecidableEq

section Code

variable (o : Options)

/-- The first sub-stage of a task that is started. -/
def startSubStage : SubStage :=
  if o.hasParent && o.persistence && !o.periodicMaintenance && o.isCheckpointEnabled then
    .getCheckpoints
  else .query

/-- The first sub-stage of a task that is restarted. -/
def restartSubStage : SubStage :=
  if o.hasParent && o.persistence && o.isCheckpointEnabled then .getCheckpoints else .query

/-- The answer of `validatePutRequest`. -/
inductive PutVerdict where
  | accepted (body : PutBody)
  | rejected
  | outdated
deriving DecidableEq

/-- The time of the request is before that of the task. -/
def isOutdated (currentTask : State) (putTask : PutBody) : Bool :=
  match currentTask.membershipUpdateTimeMicros, putTask.membershipUpdateTimeMicros with
  | some current, some passed => current > passed
  | _, _ => false

def validatePutRequest (currentTask : State) (put : Put) : PutVerdict :=
  match put.body with
  | none => .rejected
  | some putTask =>
      if putTask.queryResultLimit ≤ 0 then .rejected
      else if putTask.membershipUpdateTimeMicros.isSome ≠ o.replication then .rejected
      else if isOutdated currentTask putTask then .outdated
      else .accepted putTask

def validateTransition (currentTask patchBody : State) : Bool :=
  patchBody.stage ≠ .created &&
    !(patchBody.stage.ordinal < currentTask.stage.ordinal) &&
    !(!currentTask.stage.isInProgress && !patchBody.stage.isInProgress)

/-- `Utils.mergeWithState`: the fields that are merged if they are not null. -/
def updateState (currentTask patchBody : State) : State :=
  { currentTask with
    stage := patchBody.stage
    subStage := patchBody.subStage <|> currentTask.subStage }

/-- The task with what an accepted PUT changes. -/
def putState (task : State) (body : PutBody) : State :=
  { task with
    membershipUpdateTimeMicros := body.membershipUpdateTimeMicros
    queryResultLimit := body.queryResultLimit }

/-- The PATCHes that a sub-stage can end with, unless the host stops: the stage and
the sub-stage of the body. A sub-stage that `handleSubStage` does not expect ends
with none. -/
def emissions (task : State) : List State :=
  match task.subStage with
  | some .getCheckpoints => [{ task with stage := .started, subStage := some .query }]
  | some .query =>
      [{ task with stage := .failed },
        { task with stage := .started, subStage := some .checkNgAvailability },
        { task with stage := .started, subStage := some .synchronize }]
  | some .synchronize =>
      [{ task with stage := .failed }, { task with stage := .cancelled },
        { task with stage := .started, subStage := some .checkNgAvailability },
        { task with stage := .started, subStage := some .synchronize }]
  | some .checkNgAvailability => [{ task with stage := .failed }, { task with stage := .finished }]
  | some .restart | none => []

end Code

/-! ## The machine -/

/-- The state that was committed last, whether a request is being handled, and the
history: how many PUTs were accepted, with how many of them the last execution that
finished was started, and, for each request to mark the factory available, these two
numbers at the time. -/
structure Shared where
  committed : State
  busy : Bool
  accepted : Nat
  finished : Nat
  marks : List (Nat × Nat)
deriving DecidableEq

inductive Task where
  /-- A PUT that waits to be handled. -/
  | put (r : Put)
  /-- `handlePut` waits for the factory to be marked unavailable. -/
  | markUnavailable (task : State)
  /-- An execution in the sub-stage of `task`. -/
  | handleSubStage (task : State) (start : Nat)
  /-- A self-PATCH that waits to be handled. -/
  | patch (body : State) (start : Nat)
  /-- `handlePatch` waits for the factory to be marked available. -/
  | markAvailable (task : State) (start : Nat)
  /-- `validatePutRequest` waits for the factory to be marked available. -/
  | markOutdated
  /-- A PUT that nothing completes any more, until it expires. -/
  | expire
deriving DecidableEq

/-- The answers: a request to the factory succeeded or failed, and a sub-stage ended
with a PATCH. -/
inductive Answer where
  | done
  | failed
  | emit (body : State)
deriving DecidableEq

section Machine

variable (o : Options)

def handlePut (s : Shared) (put : Put) : Shared × List Task :=
  if put.postToPut then
    match validatePutRequest o s.committed put with
    | .rejected => (s, [])
    | .outdated =>
        if s.committed.stage = .finished then
          ({ s with busy := true, marks := s.marks ++ [(s.finished, s.accepted)] },
            [.markOutdated])
        else (s, [])
    | .accepted body =>
        let s := { s with accepted := s.accepted + 1 }
        if s.committed.stage = .started then
          ({ s with committed := { putState s.committed body with subStage := some .restart } }, [])
        else
          ({ s with busy := true },
            [.markUnavailable
              { putState s.committed body with
                stage := .started
                subStage := some (startSubStage o) }])
  else (s, [])

def handlePatch (s : Shared) (body : State) (start : Nat) : Shared × List Task :=
  if validateTransition s.committed body then
    if s.committed.subStage = some .restart then
      let task := { s.committed with stage := .started, subStage := some (restartSubStage o) }
      ({ s with committed := task }, [.handleSubStage task s.accepted])
    else
      let task := updateState s.committed body
      if task.stage = .finished then
        ({ s with busy := true, marks := s.marks ++ [(start, s.accepted)] },
          [.markAvailable task start])
      else
        ({ s with committed := task },
          if task.stage = .started then [.handleSubStage task start] else [])
  else (s, [])

def fire (s : Shared) (t : Task) (a : Answer) : Option (Shared × List Task) :=
  match t, a with
  | .put r, .done => if s.busy then none else some (handlePut o s r)
  | .patch body start, .done => if s.busy then none else some (handlePatch o s body start)
  | .handleSubStage task start, .emit body =>
      if body ∈ emissions task then some (s, [.patch body start]) else none
  -- a sub-stage that is not expected ends the execution
  | .handleSubStage task _, .done => if emissions task = [] then some (s, []) else none
  | .markUnavailable task, .done =>
      some ({ s with busy := false, committed := task }, [.handleSubStage task s.accepted])
  | .markUnavailable task, .failed =>
      some ({ s with busy := false, committed := task },
        [.patch { task with stage := .failed } s.accepted])
  | .markAvailable task start, .done =>
      some ({ s with busy := false, committed := task, finished := start }, [])
  | .markAvailable task start, .failed =>
      some ({ s with busy := false, committed := task, finished := start },
        [.patch { task with stage := .failed } start])
  | .markOutdated, .done => some ({ s with busy := false }, [])
  | .markOutdated, .failed =>
      some (s, [.patch { s.committed with stage := .failed } s.finished, .expire])
  | .expire, .done => some ({ s with busy := false }, [])
  | _, _ => none

/-- The task of one factory; the inputs are PUTs. -/
def service : Machine Shared Task Put Answer where
  input s r := (s, [.put r])
  fire := fire o

/-- The task as `handleStart` leaves it. -/
def start (queryResultLimit : Int) : Pool Shared Task :=
  ⟨⟨⟨.created, none, none, queryResultLimit⟩, false, 0, 0, []⟩, []⟩

end Machine

/-- An execution in progress: in a sub-stage, or with its PATCH on the way or being
handled. -/
def Task.isExecution : Task → Bool
  | .handleSubStage _ _ | .patch _ _ | .markAvailable _ _ => true
  | _ => false

/-- How many executions are in progress. -/
def executions (ts : List Task) : Nat := ts.countP Task.isExecution

/-- The guard of the runs in which no request to mark the factory available fails. -/
def MarksSucceed (_ : Shared) (t : Task) (a : Answer) : Prop :=
  match t with
  | .markAvailable _ _ | .markOutdated => a ≠ .failed
  | _ => True

end Xenon.SynchronizationTask
