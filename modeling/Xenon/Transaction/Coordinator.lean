import Mathlib.Data.List.Nodup
import Mathlib.Order.Defs.LinearOrder
import Xenon.Common.Operation
import Xenon.Foundation.Pool

/-!
# Transaction coordinators

A transaction is driven by a coordinator. The services that take part in it report each
operation to the coordinator in a PUT. A PATCH asks the coordinator to commit or to
abort; the coordinator goes on by PATCHes to itself. Before it commits it asks the
other coordinators that it was told of, whether they have modified a service that it
has modified too: of two transactions that could both commit, the one with the lesser
link wins. When it is clear how the transaction ends, the coordinator notifies the
services.

The handlers are functions from the state to the state and what they send; they are
shared by the machine of one coordinator among arbitrary peers, below, and by the
system of several coordinators.
-/

namespace Xenon.Transaction

open Common Foundation

/-- `TransactionService.SubStage`. -/
inductive SubStage where
  | collecting
  | resolving
  | committing
  | aborting
  | committed
  | aborted
deriving DecidableEq

namespace SubStage

def name : SubStage → String
  | collecting => "COLLECTING"
  | resolving => "RESOLVING"
  | committing => "COMMITTING"
  | aborting => "ABORTING"
  | committed => "COMMITTED"
  | aborted => "ABORTED"

/-- `COMMITTING` or `COMMITTED`. -/
def commits (stage : SubStage) : Bool := stage = committed || stage = committing

/-- `ABORTING` or `ABORTED`. -/
def aborts (stage : SubStage) : Bool := stage = aborted || stage = aborting

theorem not_aborts_of_commits {stage : SubStage} (h : stage.commits) : stage.aborts = false := by
  cases stage <;> first | rfl | cases h

end SubStage

/-- `TransactionService.ResolutionKind`. -/
inductive ResolutionKind where
  | commit
  | abort
  | committing
  | committed
  | aborted
deriving DecidableEq

/-- A set of links, in the order of their insertion. -/
structure LinkSet (L : Type*) where
  links : List L
  nodup : links.Nodup
deriving DecidableEq

namespace LinkSet

variable {L : Type*}

instance : Membership L (LinkSet L) := ⟨fun set link => link ∈ set.links⟩

instance [DecidableEq L] (set : LinkSet L) (link : L) : Decidable (link ∈ set) :=
  inferInstanceAs (Decidable (link ∈ set.links))

def empty : LinkSet L := ⟨[], List.nodup_nil⟩

def add [DecidableEq L] (set : LinkSet L) (link : L) : LinkSet L :=
  ⟨set.links.insert link, set.nodup.insert⟩

@[simp] theorem mem_links {set : LinkSet L} {link : L} : link ∈ set.links ↔ link ∈ set := Iff.rfl

@[simp] theorem not_mem_empty (link : L) : link ∉ (empty : LinkSet L) := List.not_mem_nil

@[simp] theorem mem_add [DecidableEq L] {set : LinkSet L} {link link' : L} :
    link ∈ set.add link' ↔ link = link' ∨ link ∈ set :=
  List.mem_insert_iff

end LinkSet

/-- `TransactionServiceState`. -/
structure State (L : Type*) where
  readLinks : LinkSet L
  modifiedLinks : LinkSet L
  createdLinks : LinkSet L
  deletedLinks : LinkSet L
  servicesToCoordinators : L → Option (List L)
  taskSubStage : SubStage
  allowErrorsCauseAbort : Bool
  failedLinks : LinkSet L

/-- A record of an operation: `TransactionContext` with the link of the service in the
header. -/
structure TransactionContext (L : Type*) where
  serviceLink : L
  action : Action
  coordinatorLinks : Option (List L)
  isSuccessful : Bool
deriving DecidableEq

structure ConflictCheckResponse where
  subStage : SubStage
  serviceIsInWriteSet : Bool
deriving DecidableEq

/-- A conflict check: the coordinator that is asked, and the service it is about. -/
structure ConflictCheck (L : Type*) where
  coordinator : L
  serviceLink : L
deriving DecidableEq

/-- The resolution messages to services: a DELETE, or a PATCH with the header `TX_COMMIT`
or `TX_ABORT`. -/
inductive Notification where
  | delete
  | commit
  | abort
deriving DecidableEq

structure Message (L : Type*) where
  service : L
  notification : Notification
deriving DecidableEq

/-- What a handler sends after its request is completed. -/
inductive Effect (L : Type*) where
  | selfPatch (kind : ResolutionKind)
  /-- The join of the conflict checks. -/
  | checkConflicts (checks : List (ConflictCheck L))
  /-- The join of the messages, all to commit or all to abort. -/
  | notifyServices (kind : ResolutionKind) (messages : List (Message L))
deriving DecidableEq

section Handlers

variable {L : Type*} [LinearOrder L]

/-- The state after `handleStart` with a body without links. -/
def handleStart (allowErrorsCauseAbort : Bool) : State L :=
  ⟨.empty, .empty, .empty, .empty, fun _ => none, .collecting, allowErrorsCauseAbort, .empty⟩

def handlePut (existing : State L) (record : TransactionContext L) : State L :=
  let serviceLink := record.serviceLink
  { existing with
    readLinks :=
      if record.action = .get then existing.readLinks.add serviceLink else existing.readLinks
    modifiedLinks :=
      if record.action = .get then existing.modifiedLinks
      else existing.modifiedLinks.add serviceLink
    createdLinks :=
      if record.action = .post then existing.createdLinks.add serviceLink
      else existing.createdLinks
    deletedLinks :=
      if record.action = .delete then existing.deletedLinks.add serviceLink
      else existing.deletedLinks
    servicesToCoordinators :=
      match record.coordinatorLinks with
      | none => existing.servicesToCoordinators
      | some coordinatorLinks =>
          Function.update existing.servicesToCoordinators serviceLink (some coordinatorLinks)
    failedLinks :=
      if record.isSuccessful then existing.failedLinks else existing.failedLinks.add serviceLink }

/-- The messages to the services: a delete for those in `own`, and the notification for
all others. -/
def notifications (own : LinkSet L) (notification : Notification) (state : State L) :
    List (Message L) :=
  own.links.map (⟨·, .delete⟩) ++
    ((state.readLinks.links.filter (· ∉ own)).map (⟨·, notification⟩) ++
      (state.modifiedLinks.links.filter fun service => service ∉ own ∧ service ∉ state.readLinks).map
        (⟨·, notification⟩))

def createNotifyServicesToAbort (state : State L) : List (Message L) :=
  notifications state.createdLinks .abort state

def createNotifyServicesToCommit (state : State L) : List (Message L) :=
  notifications state.deletedLinks .commit state

def handleAbort (existing : State L) : List (Effect L) :=
  let ops := createNotifyServicesToAbort existing
  if ops.isEmpty then [.selfPatch .aborted] else [.notifyServices .abort ops]

def notifyServicesToCommit (state : State L) : List (Effect L) :=
  let operations := createNotifyServicesToCommit state
  if operations.isEmpty then [.selfPatch .committed] else [.notifyServices .commit operations]

/-- What follows when all services have answered. -/
def servicesNotified (kind : ResolutionKind) (failures : Bool) : ResolutionKind :=
  if kind = .abort then .aborted else if failures then .abort else .committed

variable (self : L)

/-- Whether this coordinator wins against the remote one. -/
def compareTo (remote : L) : Bool := self < remote

/-- The conflict checks: for each service of the write set, the coordinators that the
last record for it listed. -/
def conflictChecks (state : State L) : List (ConflictCheck L) :=
  state.modifiedLinks.links.flatMap fun serviceLink =>
    (((state.servicesToCoordinators serviceLink).getD []).filter (· ≠ self)).map
      (⟨·, serviceLink⟩)

def checkPotentialConflicts (state : State L) : List (Effect L) :=
  let operations := conflictChecks self state
  if operations.isEmpty then [.selfPatch .committing] else [.checkConflicts operations]

/-- The completion of one conflict check: whether it stands in the way of the commit.
`none` is a failure of the request. -/
def isConflict (coordinator : L) : Option ConflictCheckResponse → Bool
  | none => true
  | some res =>
      if !res.serviceIsInWriteSet || res.subStage.aborts then false
      else res.subStage.commits || !compareTo self coordinator

/-- What follows when all conflict checks are answered. -/
def conflictsChecked (failures continueWithCommit : Bool) : List ResolutionKind :=
  if failures then [.abort] else if continueWithCommit then [.committing] else []

def handleCommit (existing : State L) : List (Effect L) :=
  if existing.allowErrorsCauseAbort && !existing.failedLinks.links.isEmpty then
    [.selfPatch .abort]
  else checkPotentialConflicts self existing

/-- The PATCH handler for resolution requests. A request that fails changes nothing. -/
def handlePatch (currentState : State L) (resolutionKind : ResolutionKind) :
    Except String (State L × List (Effect L)) :=
  let stage := currentState.taskSubStage
  match resolutionKind with
  | .abort =>
      if stage.commits then .error ("Already " ++ stage.name)
      else if stage.aborts then .ok (currentState, [])
      else .ok ({ currentState with taskSubStage := .aborting }, handleAbort currentState)
  | .commit =>
      if stage.aborts then .error "Already aborted"
      else if stage.commits then .ok (currentState, [])
      else .ok ({ currentState with taskSubStage := .resolving }, handleCommit self currentState)
  | .committing =>
      if stage.aborts then .error "Already aborted"
      else
        .ok ({ currentState with taskSubStage := .committing }, notifyServicesToCommit currentState)
  | .committed => .ok ({ currentState with taskSubStage := .committed }, [])
  | .aborted => .ok ({ currentState with taskSubStage := .aborted }, [])

/-- The PATCH handler for conflict checks of another coordinator. -/
def handleCheckConflicts (existing : State L) (txLink serviceLink : L) :
    State L × ConflictCheckResponse × List (Effect L) :=
  let serviceIsInWriteSet := serviceLink ∈ existing.modifiedLinks
  if (existing.taskSubStage = .collecting || existing.taskSubStage = .resolving) &&
      !compareTo self txLink then
    ({ existing with taskSubStage := .aborting }, ⟨.aborting, serviceIsInWriteSet⟩,
      handleAbort existing)
  else (existing, ⟨existing.taskSubStage, serviceIsInWriteSet⟩, [])

end Handlers

/-! ## What the handlers can do -/

section Facts

variable {L : Type*} [LinearOrder L] {self : L} {s : State L}

theorem isOpen_iff {stage : SubStage} :
    (stage.commits = false ∧ stage.aborts = false) ↔ stage = .collecting ∨ stage = .resolving := by
  cases stage <;> simp [SubStage.commits, SubStage.aborts]

theorem handlePatch_cases {kind : ResolutionKind} {r : State L × List (Effect L)}
    (h : handlePatch self s kind = .ok r) :
    r = (s, []) ∨
    (kind = .abort ∧ (s.taskSubStage = .collecting ∨ s.taskSubStage = .resolving) ∧
      r = ({ s with taskSubStage := .aborting }, handleAbort s)) ∨
    (kind = .commit ∧ (s.taskSubStage = .collecting ∨ s.taskSubStage = .resolving) ∧
      r = ({ s with taskSubStage := .resolving }, handleCommit self s)) ∨
    (kind = .committing ∧ s.taskSubStage.aborts = false ∧
      r = ({ s with taskSubStage := .committing }, notifyServicesToCommit s)) ∨
    (kind = .committed ∧ r = ({ s with taskSubStage := .committed }, [])) ∨
    (kind = .aborted ∧ r = ({ s with taskSubStage := .aborted }, [])) := by
  unfold handlePatch at h
  dsimp only at h
  split at h
  next =>
    split at h
    · cases h
    next hcommits =>
      split at h <;> cases h
      · exact Or.inl rfl
      next haborts =>
        exact Or.inr (Or.inl ⟨rfl, isOpen_iff.mp ⟨by simpa using hcommits, by simpa using haborts⟩, rfl⟩)
  next =>
    split at h
    · cases h
    next haborts =>
      split at h <;> cases h
      · exact Or.inl rfl
      next hcommits =>
        exact Or.inr (Or.inr (Or.inl
          ⟨rfl, isOpen_iff.mp ⟨by simpa using hcommits, by simpa using haborts⟩, rfl⟩))
  next =>
    split at h <;> cases h
    next haborts =>
      exact Or.inr (Or.inr (Or.inr (Or.inl ⟨rfl, by simpa using haborts, rfl⟩)))
  next =>
    cases h
    exact Or.inr (Or.inr (Or.inr (Or.inr (Or.inl ⟨rfl, rfl⟩))))
  next =>
    cases h
    exact Or.inr (Or.inr (Or.inr (Or.inr (Or.inr ⟨rfl, rfl⟩))))

theorem handleCheckConflicts_cases (self : L) (s : State L) (txLink serviceLink : L) :
    ((s.taskSubStage = .collecting ∨ s.taskSubStage = .resolving) ∧ compareTo self txLink = false ∧
      handleCheckConflicts self s txLink serviceLink =
        ({ s with taskSubStage := .aborting }, ⟨.aborting, serviceLink ∈ s.modifiedLinks⟩,
          handleAbort s)) ∨
    ((s.taskSubStage = .collecting ∨ s.taskSubStage = .resolving → compareTo self txLink = true) ∧
      handleCheckConflicts self s txLink serviceLink =
        (s, ⟨s.taskSubStage, serviceLink ∈ s.modifiedLinks⟩, [])) := by
  unfold handleCheckConflicts
  dsimp only
  split
  next h =>
    rw [Bool.and_eq_true, Bool.or_eq_true, decide_eq_true_eq, decide_eq_true_eq,
      Bool.not_eq_true'] at h
    exact Or.inl ⟨h.1, h.2, rfl⟩
  next h =>
    refine Or.inr ⟨fun hopen => ?_, rfl⟩
    rw [Bool.and_eq_true, Bool.or_eq_true, decide_eq_true_eq, decide_eq_true_eq,
      Bool.not_eq_true'] at h
    by_contra hlt
    exact h ⟨hopen, by simpa using hlt⟩

@[simp] theorem handlePut_taskSubStage (record : TransactionContext L) :
    (handlePut s record).taskSubStage = s.taskSubStage := rfl

end Facts

/-! ## One coordinator -/

/-- The state of the coordinator, and the history of its messages to services. -/
structure Shared (L : Type*) where
  state : State L
  sent : List (Message L)

inductive Task (L : Type*) where
  /-- A resolution request, of a client or the coordinator itself, is on its way. -/
  | resolve (kind : ResolutionKind)
  /-- A record of an operation is on its way. -/
  | put (record : TransactionContext L)
  /-- A conflict check of another coordinator is on its way. -/
  | checkConflicts (txLink serviceLink : L)
  /-- The join of conflict checks waits for the answers to these. -/
  | awaitChecks (checks : List (ConflictCheck L)) (failures continueWithCommit : Bool)
  /-- The join of messages waits for the answers to these. -/
  | awaitServices (kind : ResolutionKind) (messages : List (Message L)) (failures : Bool)
deriving DecidableEq

inductive Input (L : Type*) where
  | commit
  | abort
  | put (record : TransactionContext L)
  | checkConflicts (txLink serviceLink : L)

inductive Answer where
  | done
  /-- The `n`-th conflict check is answered, or fails. -/
  | checked (n : Nat) (res : Option ConflictCheckResponse)
  /-- The `n`-th message is answered. -/
  | notified (n : Nat) (success : Bool)

def Effect.task {L : Type*} : Effect L → Task L
  | selfPatch kind => .resolve kind
  | checkConflicts checks => .awaitChecks checks false true
  | notifyServices kind messages => .awaitServices kind messages false

@[simp] def Effect.messages {L : Type*} : Effect L → List (Message L)
  | notifyServices _ messages => messages
  | _ => []

section Machine

variable {L : Type*} [LinearOrder L]

/-- The state is set and the effects are sent. -/
def Shared.advance (s : Shared L) (state : State L) (effects : List (Effect L)) :
    Shared L × List (Task L) :=
  (⟨state, s.sent ++ effects.flatMap Effect.messages⟩, effects.map Effect.task)

variable (self : L)

def fire (s : Shared L) (t : Task L) (a : Answer) : Option (Shared L × List (Task L)) :=
  match t, a with
  | .resolve kind, .done =>
      match handlePatch self s.state kind with
      | .error _ => some (s, [])
      | .ok r => some (s.advance r.1 r.2)
  | .put record, .done => some ({ s with state := handlePut s.state record }, [])
  | .checkConflicts txLink serviceLink, .done =>
      let r := handleCheckConflicts self s.state txLink serviceLink
      some (s.advance r.1 r.2.2)
  | .awaitChecks checks failures continueWithCommit, .checked n res =>
      checks[n]?.map fun check =>
        let conflict := isConflict self check.coordinator res
        let failures := failures || res.isNone
        let continueWithCommit := continueWithCommit && !conflict
        let checks := checks.eraseIdx n
        (s, (if conflict then [.resolve .abort] else []) ++
          if checks.isEmpty then (conflictsChecked failures continueWithCommit).map .resolve
          else [.awaitChecks checks failures continueWithCommit])
  | .awaitServices kind messages failures, .notified n success =>
      messages[n]?.map fun _ =>
        let failures := failures || !success
        let messages := messages.eraseIdx n
        (s, if messages.isEmpty then [.resolve (servicesNotified kind failures)]
          else [.awaitServices kind messages failures])
  | _, _ => none

/-- One coordinator: clients and services send requests at any time, and peers ask and
answer what they like. -/
def coordinator : Machine (Shared L) (Task L) (Input L) Answer where
  input s i :=
    match i with
    | .commit => (s, [.resolve .commit])
    | .abort => (s, [.resolve .abort])
    | .put record => (s, [.put record])
    | .checkConflicts txLink serviceLink => (s, [.checkConflicts txLink serviceLink])
  fire := fire self

def start (allowErrorsCauseAbort : Bool) : Pool (Shared L) (Task L) :=
  ⟨⟨handleStart allowErrorsCauseAbort, []⟩, []⟩

end Machine

/-- The guard of the runs in which no COMMIT is handled in the sub-stage `RESOLVING`. -/
def CommitOnce {L : Type*} (s : Shared L) (t : Task L) (_ : Answer) : Prop :=
  t = .resolve .commit → s.state.taskSubStage ≠ .resolving

instance {L : Type*} [DecidableEq L] (s : Shared L) (t : Task L) (a : Answer) :
    Decidable (CommitOnce s t a) :=
  inferInstanceAs (Decidable (t = .resolve .commit → s.state.taskSubStage ≠ .resolving))

end Xenon.Transaction
