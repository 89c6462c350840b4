import Mathlib.Data.Finset.Card
import Mathlib.Tactic
import Xenon.Common.Operation
import Xenon.Foundation.Run

/-!
# The replication context

`NodeSelectorReplicationContext` counts the responses of the selected nodes and
completes the parent operation once a threshold is reached. One call of
`checkAndCompleteOperation` is one step; the completion it performs on the
parent operation, if any, is the step's output, so "exactly once" is a
statement about the outputs of a run.

The counters are integers here: a context hears once from each selected node,
far fewer than `2 ^ 31` times.
-/

namespace Xenon.Replication

open Xenon.Common Xenon.Foundation

/-! ## The datatype -/

/-- `NodeState.NodeStatus`. -/
inductive NodeStatus where
  | unknown | unavailable | available | synchronizing | replaced
deriving DecidableEq

/-- `NodeState.NodeOption`. -/
inductive NodeOption where
  | peer | observer
deriving DecidableEq

/-- The fields of `NodeState` that replication reads. `location` is
`customProperties.get(PROPERTY_NAME_LOCATION)`. -/
structure NodeState where
  groupReference : URI
  status : NodeStatus
  options : List NodeOption
  id : String
  membershipQuorum : Int32
  locationQuorum : Int32
  location : Option String
deriving DecidableEq

/-- The parent operation: what the failure message prints. -/
structure ParentOp where
  id : Nat
  action : Action
  uri : URI
deriving DecidableEq

/-- A peer's response. `errorCode` is the code of a `ServiceErrorResponse`
that came as a JSON body, `none` when there is no such body. -/
structure PeerOp where
  uri : URI
  statusCode : Int
  errorCode : Option Int
deriving DecidableEq

/-- The arguments of one call: the failure `e` (its message), the peer
operation `o` and the location the response came from. -/
structure Response where
  e : Option String
  o : Option PeerOp
  remoteLocation : Option String
deriving DecidableEq

/-- `NodeSelectorReplicationContext.Status`. -/
inductive Status where
  | succeeded | failed | pending
deriving DecidableEq

/-- What is done to the parent operation. -/
inductive Completion where
  | complete (statusCode : Int)
  | fail (statusCode : Int) (message : String)
deriving DecidableEq

structure Context where
  location : Option String
  nodes : List NodeState
  parentOp : ParentOp
  successThreshold : Int := 0
  failureThreshold : Int := 0
  locationThreshold : Int := 0
  successCount : Int := 0
  failureCount : Int := 0
  locations : Option (Finset String) := none
  failureStatus : Int := 0
  failureErrorCodes : Option (List Int) := none
  completionStatus : Status := .pending
deriving DecidableEq

/-- The constructor; the thresholds are set by the caller afterwards. -/
def newContext (location : Option String) (nodes : List NodeState)
    (op : ParentOp) : Context :=
  { location, nodes, parentOp := op }

/-! ## `checkAndCompleteOperation` -/

/-- `getErrorCode`: zero unless the body is a service error response. -/
def getErrorCode (o : PeerOp) : Int := o.errorCode.getD 0

def saveErrorCode (c : Context) (errorCode : Int) : Context :=
  if errorCode = 0 then c
  else { c with failureErrorCodes := some (c.failureErrorCodes.getD [] ++ [errorCode]) }

/-- The part before the lock: a failed peer operation leaves its status code
and its error code. -/
def recordFailure (c : Context) (r : Response) : Context × Int :=
  match r.e, r.o with
  | some _, some o => ({ c with failureStatus := o.statusCode }, getErrorCode o)
  | _, _ => (c, 0)

/-- The two counters; whichever is incremented decides when it meets its
threshold exactly. -/
def countResponse (c : Context) (r : Response) : Context :=
  match r.e with
  | none =>
      let c := { c with successCount := c.successCount + 1 }
      if c.successCount = c.successThreshold then
        { c with completionStatus := .succeeded }
      else c
  | some _ =>
      let c := { c with failureCount := c.failureCount + 1 }
      if c.failureCount = c.failureThreshold then
        { c with completionStatus := .failed }
      else c

/-- The location constraint. It is applied to every response that has a
location, after the counters, and overrides their decision. -/
def countLocation (c : Context) (r : Response) : Context :=
  match r.remoteLocation with
  | none => c
  | some l =>
      let c := { c with locations := some (insert l (c.locations.getD ∅)) }
      if c.successThreshold ≤ c.successCount then
        if ((c.locations.getD ∅).card : Int) < c.locationThreshold then
          { c with completionStatus := .pending }
        else { c with completionStatus := .succeeded }
      else c

def failureMsg (c : Context) : String :=
  "(Original id: " ++ toString c.parentOp.id ++ ") " ++ c.parentOp.action.name ++
    " to " ++ c.parentOp.uri.path ++ " failed. Success: " ++
    toString c.successCount ++ ",  Fail: " ++ toString c.failureCount ++
    ", quorum: " ++ toString c.successThreshold ++ ", failure threshold: " ++
    toString c.failureThreshold

/-- The completion of the parent operation, after the lock is released. -/
def completion (c : Context) : Option Completion :=
  match c.completionStatus with
  | .succeeded => some (.complete statusCodeOk)
  | .failed => some (.fail c.failureStatus (failureMsg c))
  | .pending => none

def checkAndCompleteOperation (c : Context) (r : Response) :
    Context × Option Completion :=
  let (c, errorCode) := recordFailure c r
  let c := saveErrorCode c errorCode
  if c.completionStatus ≠ .pending then (c, none)
  else
    let c := countLocation (countResponse c r) r
    (c, completion c)

/-! ## One call

A decided context only records error codes; a pending one counts. -/

/-- The thresholds are not touched by a call. -/
structure SameThresholds (c c' : Context) : Prop where
  success : c'.successThreshold = c.successThreshold
  failure : c'.failureThreshold = c.failureThreshold
  location : c'.locationThreshold = c.locationThreshold

theorem SameThresholds.trans {c c' c'' : Context} (h : SameThresholds c c')
    (h' : SameThresholds c' c'') : SameThresholds c c'' :=
  ⟨h'.success.trans h.success, h'.failure.trans h.failure,
    h'.location.trans h.location⟩

/-- What the lock sees: `recordFailure` and `saveErrorCode` change neither the
thresholds nor the counters, the locations or the status. -/
theorem saveErrorCode_recordFailure (c : Context) (r : Response) :
    let c' := saveErrorCode (recordFailure c r).1 (recordFailure c r).2
    SameThresholds c c' ∧ c'.successCount = c.successCount ∧
      c'.failureCount = c.failureCount ∧ c'.locations = c.locations ∧
      c'.completionStatus = c.completionStatus := by
  obtain ⟨e, o, l⟩ := r
  unfold recordFailure saveErrorCode
  cases e <;> cases o <;> dsimp only <;> split <;>
    exact ⟨⟨rfl, rfl, rfl⟩, rfl, rfl, rfl, rfl⟩

theorem check_decided {c : Context} (h : c.completionStatus ≠ .pending)
    (r : Response) :
    (checkAndCompleteOperation c r).2 = none ∧
      (checkAndCompleteOperation c r).1.completionStatus = c.completionStatus := by
  obtain ⟨-, -, -, -, hst⟩ := saveErrorCode_recordFailure c r
  have h' : (saveErrorCode (recordFailure c r).1
      (recordFailure c r).2).completionStatus ≠ .pending := by rwa [hst]
  have hc : checkAndCompleteOperation c r =
      (saveErrorCode (recordFailure c r).1 (recordFailure c r).2, none) :=
    if_pos h'
  rw [hc]
  exact ⟨rfl, hst⟩

/-- The decision that a pending context takes on one more response, from its
thresholds and the counters *after* the response was counted. -/
def decision (s f L S F locations : Int) (r : Response) : Status :=
  if r.remoteLocation ≠ none ∧ s ≤ S then
    if locations < L then .pending else .succeeded
  else if r.e = none then (if S = s then .succeeded else .pending)
  else (if F = f then .failed else .pending)

/-- The locations counted after a response. -/
def addLocation (locations : Option (Finset String)) (r : Response) :
    Finset String :=
  match r.remoteLocation with
  | none => locations.getD ∅
  | some l => insert l (locations.getD ∅)

theorem countResponse_spec (c : Context) (r : Response) :
    let c' := countResponse c r
    SameThresholds c c' ∧ c'.locations = c.locations ∧
      c'.successCount = c.successCount + (if r.e = none then 1 else 0) ∧
      c'.failureCount = c.failureCount + (if r.e = none then 0 else 1) ∧
      c'.completionStatus =
        if r.e = none then
          (if c'.successCount = c.successThreshold then .succeeded
            else c.completionStatus)
        else
          (if c'.failureCount = c.failureThreshold then .failed
            else c.completionStatus) := by
  obtain ⟨e, o, l⟩ := r
  unfold countResponse
  cases e with
  | none =>
      dsimp only
      split <;> exact ⟨⟨rfl, rfl, rfl⟩, rfl, rfl, by simp, by simp [*]⟩
  | some m =>
      dsimp only
      split <;> exact ⟨⟨rfl, rfl, rfl⟩, rfl, by simp, rfl, by simp [*]⟩

theorem countLocation_spec (c : Context) (r : Response) :
    let c' := countLocation c r
    SameThresholds c c' ∧ c'.successCount = c.successCount ∧
      c'.failureCount = c.failureCount ∧
      c'.locations.getD ∅ = addLocation c.locations r ∧
      c'.completionStatus =
        if r.remoteLocation ≠ none ∧ c.successThreshold ≤ c.successCount then
          (if ((addLocation c.locations r).card : Int) < c.locationThreshold
            then .pending else .succeeded)
        else c.completionStatus := by
  obtain ⟨e, o, l⟩ := r
  cases l with
  | none => exact ⟨⟨rfl, rfl, rfl⟩, rfl, rfl, rfl, by simp [countLocation]⟩
  | some l =>
      simp only [countLocation, addLocation, Option.getD_some, ne_eq,
        reduceCtorEq, not_false_eq_true, true_and]
      split_ifs with h1 h2 <;>
        exact ⟨⟨rfl, rfl, rfl⟩, rfl, rfl, rfl, by simp [*]⟩

/-- **One call on a pending context.** -/
theorem check_pending {c : Context} (h : c.completionStatus = .pending)
    (r : Response) :
    let c' := (checkAndCompleteOperation c r).1
    SameThresholds c c' ∧
      c'.successCount = c.successCount + (if r.e = none then 1 else 0) ∧
      c'.failureCount = c.failureCount + (if r.e = none then 0 else 1) ∧
      c'.locations.getD ∅ = addLocation c.locations r ∧
      c'.completionStatus =
        decision c.successThreshold c.failureThreshold c.locationThreshold
          c'.successCount c'.failureCount (addLocation c.locations r).card r ∧
      (checkAndCompleteOperation c r).2 = completion c' := by
  obtain ⟨h0, hS, hF, hL, hst⟩ := saveErrorCode_recordFailure c r
  generalize hd : saveErrorCode (recordFailure c r).1 (recordFailure c r).2 = d at *
  obtain ⟨h1, hL1, hS1, hF1, hst1⟩ := countResponse_spec d r
  obtain ⟨h2, hS2, hF2, hL2, hst2⟩ := countLocation_spec (countResponse d r) r
  have hnd : ¬ d.completionStatus ≠ .pending := by simpa [hst] using h
  have hc : checkAndCompleteOperation c r =
      (countLocation (countResponse d r) r,
        completion (countLocation (countResponse d r) r)) := by
    simp only [checkAndCompleteOperation, hd, if_neg hnd]
  simp only [hc]
  refine ⟨h0.trans (h1.trans h2), ?_, ?_, ?_, ?_, trivial⟩
  · rw [hS2, hS1, hS]
  · rw [hF2, hF1, hF]
  · rw [hL2, hL1, hL]
  · rw [hst2, hst1, hL1, hL, h1.location, h0.location, h1.success, h0.success,
      h0.failure, hst, h, hS2, hF2]
    rfl

end Xenon.Replication
