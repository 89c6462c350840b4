import Mathlib.Data.List.Nodup
import Mathlib.Logic.Function.Basic
import Xenon.Common.Operation
import Xenon.Foundation.Run
import Xenon.SynchronizationTask.Service
import Xenon.Transaction.Coordinator

/-!
# Simple transactions

A simple transaction locks the services that it works on. A filter in front of each
service looks at the `documentTransactionId` of the state: it fails the requests from
outside the transaction that has marked the state, and marks the state for the first
request of a transaction. It then suspends the request and enrolls the service with the
coordinator of the transaction, which remembers the version that the service had. Only
then the request reaches the handler of the service, and the marked state is saved.

At the end the coordinator deletes the services that the transaction has deleted, if it
commits, or created, if it aborts, and clears the mark of all others; a service that the
transaction has updated goes back to its original version if it aborts.

A service handles one update at a time, and works on a copy of its state. GETs do not
exclude each other, and do not exclude updates where `CONCURRENT_GET_HANDLING` is set. A
request of a transaction stays active while it is suspended; other requests take effect
at once, when the service admits them.
-/

namespace Xenon.SimpleTransaction

open Common
open SynchronizationTask (TaskStage)
open Transaction (LinkSet)

variable {L T D : Type*}

structure Document (T D : Type*) where
  content : D
  documentTransactionId : Option T
deriving DecidableEq

/-- What a request does to the state. The handler of an update keeps the
`documentTransactionId` of the state, or replaces the state by a body that has its own. -/
inductive Handler (T D : Type*) where
  | get
  | update (handler : D → D) (bodyTransactionId : Option (Option T))
  | delete

namespace Handler

def isGet : Handler T D → Bool
  | get => true
  | _ => false

/-- The action, where PUT and PATCH do not differ. -/
def action : Handler T D → Action
  | get => .get
  | update _ _ => .patch
  | delete => .delete

/-- The content that is saved. -/
def result (linked : D) : Handler T D → D
  | get | delete => linked
  | update handler _ => handler linked

end Handler

/-- A request of a transaction that the filter has let pass and that is not completed: the
content and the version of its copy of the state, and whether it is enrolled. -/
structure Active (T D : Type*) where
  transactionId : T
  handler : Handler T D
  linked : D
  linkedVersion : Int
  isEnrolled : Bool

/-- A service, which has no state when it is not started. The index keeps the content of
each version. -/
structure Service (T D : Type*) where
  state : Option (Document T D)
  documentVersion : Int
  index : Int → Option D
  active : List (Active T D)

structure EnrollmentInfo where
  isUpdated : Bool
  originalVersion : Int
deriving DecidableEq

inductive TransactionOutcome where
  | commit
  | abort
deriving DecidableEq

/-- The end of a transaction under way: the services that are still to be deleted and
those that are still to be cleared. -/
structure Ending (L : Type*) where
  outcome : TransactionOutcome
  deletes : List L
  clears : List (L × EnrollmentInfo)
  failed : Bool

/-- `SimpleTransactionServiceState`; `enrolledServices` is the set of its keys and what it
maps them to. -/
structure Coordinator (L : Type*) where
  stage : TaskStage
  enrolledLinks : LinkSet L
  enrollmentInfo : L → EnrollmentInfo
  createdServicesLinks : LinkSet L
  deletedServicesLinks : LinkSet L
  ending : Option (Ending L)

/-- A POST of a transaction that is enrolled and has not created its service yet. -/
structure Creation (L T D : Type*) where
  transactionId : T
  link : L
  content : D

/-- The history of a transaction on a service: the content before its first request
(none if it has created the service), the content that its last request has left, whether
one of its requests was a DELETE, and what was there when the transaction let the service
go. -/
structure Touched (D : Type*) where
  before : Option D
  last : D
  deleted : Bool
  released : Option (Option D)

structure State (L T D : Type*) where
  services : L → Service T D
  coordinators : T → Coordinator L
  creations : List (Creation L T D)
  history : T → L → Option (Touched D)

/-! ## The filter and the service -/

section Service

variable [DecidableEq T]

/-- `validateTransactionConflictsAndMarkState`: whether the request conflicts with the
mark of the state. -/
def validateTransactionConflicts (isGet deleteOnTransactionEnd : Bool)
    (requestTransactionId currentStateTransactionId : Option T) : Bool :=
  if isGet then
    match requestTransactionId, currentStateTransactionId with
    | none, none => false
    | none, some _ => true
    | some _, none => false
    | some request, some current => request ≠ current
  else
    match requestTransactionId, currentStateTransactionId with
    | none, none => false
    | none, some _ => !deleteOnTransactionEnd
    | some _, none => false
    | some request, some current => request ≠ current

namespace Service

variable (s : Service T D)

/-- A version is saved. -/
def save (content : D) (documentTransactionId : Option T) : Service T D :=
  { s with
    state := some ⟨content, documentTransactionId⟩
    documentVersion := s.documentVersion + 1
    index := Function.update s.index (s.documentVersion + 1) (some content) }

/-- The service is deleted. -/
def stop (content : D) : Service T D :=
  { s.save content none with state := none }

/-- Whether the service can begin with a request. -/
def admits (concurrentGetHandling isGet : Bool) : Bool :=
  if isGet then concurrentGetHandling || s.active.all (·.handler.isGet)
  else s.active.all (·.handler.isGet) && (concurrentGetHandling || s.active.isEmpty)

/-- The handler is executed on the copy of the state and the result is saved. A GET is
saved if it belongs to a transaction, a DELETE stops the service if it does not. -/
def execute (transactionId : Option T) (linked : D) : Handler T D → Service T D
  | .get =>
      match transactionId with
      | none => s
      | some _ => s.save linked transactionId
  | .update handler bodyTransactionId =>
      s.save (handler linked) (bodyTransactionId.getD transactionId <|> transactionId)
  | .delete =>
      match transactionId with
      | none => s.stop linked
      | some _ => s.save linked transactionId

/-- `handleClearTransaction`; `none` is a failure. -/
def handleClearTransaction (transactionId : T) (outcome : TransactionOutcome)
    (info : EnrollmentInfo) : Option (Service T D) :=
  s.state.bind fun doc =>
    if doc.documentTransactionId ≠ some transactionId then
      some (s.save doc.content doc.documentTransactionId)
    else if outcome = .abort && info.isUpdated then
      (s.index info.originalVersion).map (s.save · none)
    else some (s.save doc.content none)

end Service

end Service

/-! ## The coordinator -/

namespace Coordinator

variable [DecidableEq L] (c : Coordinator L)

def handlePatchForEnroll (serviceSelfLink : L) (action : Action) (previousVersion : Int) :
    Coordinator L :=
  let info := c.enrollmentInfo serviceSelfLink
  { c with
    enrolledLinks := c.enrolledLinks.add serviceSelfLink
    enrollmentInfo := Function.update c.enrollmentInfo serviceSelfLink
      (if serviceSelfLink ∈ c.enrolledLinks then
        { info with isUpdated := info.isUpdated || action ≠ .get }
      else ⟨action ≠ .get, previousVersion⟩)
    createdServicesLinks :=
      if action = .post then c.createdServicesLinks.add serviceSelfLink else c.createdServicesLinks
    deletedServicesLinks :=
      if action = .delete then c.deletedServicesLinks.add serviceSelfLink
      else c.deletedServicesLinks }

/-- The services that are deleted at the end. -/
def servicesToBeDeleted : TransactionOutcome → LinkSet L
  | .commit => c.deletedServicesLinks
  | .abort => c.createdServicesLinks

/-- The PATCH that ends the transaction completes. -/
def complete (outcome : TransactionOutcome) : Coordinator L :=
  { c with
    stage := match outcome with
      | .commit => .finished
      | .abort => .cancelled
    enrolledLinks :=
      ⟨c.enrolledLinks.links.filter (· ∉ c.servicesToBeDeleted outcome),
        c.enrolledLinks.nodup.filter _⟩
    ending := none }

/-- What follows when all that was sent is answered. -/
def settle (e : Ending L) : Coordinator L :=
  if e.deletes.isEmpty && e.clears.isEmpty then c.complete e.outcome
  else { c with ending := some e }

def handlePatchForEndTransaction (outcome : TransactionOutcome) : Coordinator L :=
  let deletes := c.servicesToBeDeleted outcome
  let links := c.enrolledLinks.links.filter (· ∉ deletes)
  c.settle ⟨outcome, deletes.links, links.map fun link => (link, c.enrollmentInfo link), false⟩

/-- A delete request is answered. If one of them has failed, the PATCH fails and the state
stays as it was. -/
def deleteAnswered (e : Ending L) : Coordinator L :=
  if e.deletes.isEmpty && e.failed then { c with ending := none } else c.settle e

/-- A clear request is answered. -/
def clearAnswered (e : Ending L) : Coordinator L :=
  if e.clears.isEmpty && e.failed then { c with ending := none } else c.settle e

end Coordinator

/-! ## The system -/

section System

variable [DecidableEq L] [DecidableEq T]

/-- A request of the transaction on the service has succeeded. -/
def touch (history : T → L → Option (Touched D)) (transactionId : T) (link : L)
    (before : Option D) (last : D) (deleted : Bool) : T → L → Option (Touched D) :=
  Function.update history transactionId (Function.update (history transactionId) link (some
    (match history transactionId link with
    | none => ⟨before, last, deleted, none⟩
    | some h => { h with last := last, deleted := h.deleted || deleted })))

/-- The transaction lets the service go. -/
def release (history : T → L → Option (Touched D)) (transactionId : T) (link : L)
    (content : Option D) : T → L → Option (Touched D) :=
  Function.update history transactionId (Function.update (history transactionId) link
    ((history transactionId link).map fun h => { h with released := some content }))

inductive Event (L T D : Type*) where
  /-- A service takes a request. -/
  | request (link : L) (transactionId : Option T) (handler : Handler T D)
  /-- The coordinator handles the enrollment of an active request. -/
  | enroll (link : L) (n : Nat)
  /-- The handler of an active request completes, or fails. -/
  | execute (link : L) (n : Nat) (success : Bool)
  /-- A factory takes a POST; for a transaction its coordinator enrolls the service. -/
  | post (link : L) (transactionId : Option T) (content : D)
  /-- A POST that is enrolled creates its service, or fails. -/
  | create (n : Nat) (success : Bool)
  | endTransaction (transactionId : T) (outcome : TransactionOutcome)
  /-- A service handles a delete request of the coordinator. -/
  | delete (transactionId : T) (n : Nat) (success : Bool)
  /-- A service handles a clear request of the coordinator. -/
  | clear (transactionId : T) (n : Nat) (success : Bool)

namespace State

variable (σ : State L T D)

def setService (link : L) (s : Service T D) : State L T D :=
  { σ with services := Function.update σ.services link s }

def setCoordinator (transactionId : T) (c : Coordinator L) : State L T D :=
  { σ with coordinators := Function.update σ.coordinators transactionId c }

end State

variable (concurrentGetHandling : L → Bool) (σ : State L T D)

def handleRequest (link : L) (transactionId : Option T) (handler : Handler T D) :
    Option (State L T D) :=
  let s := σ.services link
  s.state.bind fun doc =>
    if s.admits (concurrentGetHandling link) handler.isGet then
      if validateTransactionConflicts handler.isGet false transactionId
          doc.documentTransactionId then
        some σ
      else
        match transactionId with
        | none => some (σ.setService link (s.execute none doc.content handler))
        | some t =>
            some (σ.setService link
              { s with
                active := s.active ++ [⟨t, handler, doc.content, s.documentVersion, false⟩] })
    else none

def handleEnroll (link : L) (n : Nat) : Option (State L T D) :=
  let s := σ.services link
  s.active[n]?.bind fun a =>
    let c := σ.coordinators a.transactionId
    if a.isEnrolled || c.ending.isSome then none
    else if c.stage = .started then
      some ((σ.setService link
          { s with active := s.active.set n { a with isEnrolled := true } }).setCoordinator
        a.transactionId (c.handlePatchForEnroll link a.handler.action a.linkedVersion))
    else some (σ.setService link { s with active := s.active.eraseIdx n })

def handleExecute (link : L) (n : Nat) (success : Bool) : Option (State L T D) :=
  let s := σ.services link
  s.active[n]?.bind fun a =>
    let s := { s with active := s.active.eraseIdx n }
    if a.isEnrolled then
      if success then
        some { σ.setService link (s.execute (some a.transactionId) a.linked a.handler) with
          history := touch σ.history a.transactionId link (some a.linked)
            (a.handler.result a.linked) (a.handler.action = .delete) }
      else some (σ.setService link s)
    else none

def handlePost (link : L) (transactionId : Option T) (content : D) : Option (State L T D) :=
  let s := σ.services link
  match transactionId with
  | none => if s.state.isSome then some σ else some (σ.setService link (s.save content none))
  | some t =>
      let c := σ.coordinators t
      if c.ending.isSome then none
      else if c.stage = .started then
        some { σ.setCoordinator t (c.handlePatchForEnroll link .post (-1)) with
          creations := σ.creations ++ [⟨t, link, content⟩] }
      else some σ

def handleCreate (n : Nat) (success : Bool) : Option (State L T D) :=
  σ.creations[n]?.bind fun p =>
    let s := σ.services p.link
    let σ := { σ with creations := σ.creations.eraseIdx n }
    if success && s.state.isNone then
      some { σ.setService p.link (s.save p.content (some p.transactionId)) with
        history := touch σ.history p.transactionId p.link none p.content false }
    else some σ

def handleEndTransaction (transactionId : T) (outcome : TransactionOutcome) :
    Option (State L T D) :=
  let c := σ.coordinators transactionId
  if c.ending.isSome then none
  else if c.stage = .started then
    some (σ.setCoordinator transactionId (c.handlePatchForEndTransaction outcome))
  else some σ

/-- The DELETE has the pragma directive that lets it pass the filter. It succeeds if the
service does not exist. -/
def handleDelete (transactionId : T) (n : Nat) (success : Bool) : Option (State L T D) :=
  let c := σ.coordinators transactionId
  c.ending.bind fun e =>
    e.deletes[n]?.bind fun link =>
      let s := σ.services link
      let e := { e with deletes := e.deletes.eraseIdx n }
      if s.admits (concurrentGetHandling link) false then
        if success then
          some { (σ.setService link (s.state.elim s fun doc => s.stop doc.content)).setCoordinator
              transactionId (c.deleteAnswered e) with
            history := release σ.history transactionId link none }
        else some (σ.setCoordinator transactionId (c.deleteAnswered { e with failed := true }))
      else none

def handleClear (transactionId : T) (n : Nat) (success : Bool) : Option (State L T D) :=
  let c := σ.coordinators transactionId
  c.ending.bind fun e =>
    if e.deletes.isEmpty then
      e.clears[n]?.bind fun request =>
        let link := request.1
        let s := σ.services link
        let e := { e with clears := e.clears.eraseIdx n }
        if s.admits (concurrentGetHandling link) false then
          match s.handleClearTransaction transactionId e.outcome request.2, success with
          | some s', true =>
              some { (σ.setService link s').setCoordinator transactionId (c.clearAnswered e) with
                history := release σ.history transactionId link (s'.state.map Document.content) }
          | _, _ =>
              some (σ.setCoordinator transactionId (c.clearAnswered { e with failed := true }))
        else none
    else none

def step : Event L T D → Option (State L T D)
  | .request link transactionId handler =>
      handleRequest concurrentGetHandling σ link transactionId handler
  | .enroll link n => handleEnroll σ link n
  | .execute link n success => handleExecute σ link n success
  | .post link transactionId content => handlePost σ link transactionId content
  | .create n success => handleCreate σ n success
  | .endTransaction transactionId outcome => handleEndTransaction σ transactionId outcome
  | .delete transactionId n success =>
      handleDelete concurrentGetHandling σ transactionId n success
  | .clear transactionId n success => handleClear concurrentGetHandling σ transactionId n success

/-- The coordinator as `handleStart` leaves it. -/
def Coordinator.start : Coordinator L :=
  ⟨.started, .empty, fun _ => ⟨false, 0⟩, .empty, .empty, none⟩

/-- Services with the given contents and versions, and no transactions. -/
def start (contents : L → Option D) (versions : L → Int) : State L T D where
  services link :=
    { state := (contents link).map (⟨·, none⟩)
      documentVersion := versions link
      index := fun version => if version = versions link then contents link else none
      active := [] }
  coordinators _ := .start
  creations := []
  history _ _ := none

end System

end Xenon.SimpleTransaction
