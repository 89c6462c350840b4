import Mathlib.Algebra.BigOperators.Group.List.Basic
import Mathlib.Algebra.Order.Group.Int
import Mathlib.Algebra.Ring.Int.Defs
import Mathlib.Algebra.Ring.Nat
import Xenon.Foundation.Pool
import Xenon.NodeSelector.Availability

/-!
# Requests that wait for the node group

A request that arrives while the group is unavailable is queued, and maintenance takes the queue up
again. Arrivals and maintenance run on threads of their own: they are the tasks of a pool, and
every access to a field that they share is a step. A request that was taken out of the queue goes
through the same checks as one that arrives, so it can be queued again before the loop has looked
at the next one.

An exception of the selection is caught nowhere in the loop. It ends the loop, and with it the
request that was taken out.
-/

namespace Xenon.NodeSelector.PendingQueue

open Xenon.Foundation Xenon.NodeGroup

/-! ## The state -/

/-- `SelectAndForwardRequest` with its operation. -/
structure Request where
  id : Nat
  key : Option String
  targetPath : Option String
  /-- The options of the request that are looked at. -/
  broadcast : Bool
  replicate : Bool
  expirationMicrosUtc : Int64
deriving DecidableEq

/-- `keyValue`. One of the two is there. -/
def Request.keyValue (r : Request) : String := r.key.getD (r.targetPath.getD "")

/-- What becomes of a request: it is handed on, or answered with the selected nodes, or failed. -/
inductive Outcome where
  | replicated
  | broadcast
  | answered (ownerNodeId : String)
  | forwarded (ownerNodeGroupReference : Option String)
  | failed (message : String)
  | limitExceeded
deriving DecidableEq

/-- The fields of the service, with the history of the requests. -/
structure Shared where
  cachedState : NodeSelectorState
  /-- `cachedState.membershipQuorum`. -/
  membershipQuorum : Int32
  cachedGroupState : NodeGroupState
  /-- `getHost().isStopping()`. -/
  isStopping : Bool
  operationQueueLimit : Int
  pendingRequestQueue : List Request
  pendingOperationCount : Int
  arrived : List Request
  outcomes : List (Request × Outcome)

def Shared.isAvailable (s : Shared) : Bool := s.cachedState.status = .available

def Shared.settle (s : Shared) (r : Request) (o : Outcome) : Shared :=
  { s with outcomes := s.outcomes ++ [(r, o)] }

/-- The threads. `drained` tells whether the thread is one of maintenance, which goes on with its
loop when the request is dealt with. -/
inductive Task where
  -- The sections of `queueRequestIfNodeGroupIsUnavailable`.
  | queueRequest (r : Request) (localState : NodeGroupState) (drained : Bool)
  | checkStatus (r : Request) (localState : NodeGroupState) (drained : Bool)
  | updateStatus (r : Request) (localState : NodeGroupState) (drained : Bool)
  | checkAvailable (r : Request) (localState : NodeGroupState) (drained : Bool)
  | checkLimit (r : Request) (drained : Bool)
  | increment (r : Request) (drained : Bool)
  | add (r : Request) (drained : Bool)
  /-- The rest of `selectAndForward`. -/
  | forward (r : Request) (localState : NodeGroupState) (drained : Bool)
  -- The sections of `performPendingRequestMaintenance`.
  | loop
  | checkGroup
  | updateGroup
  | poll
  | decrement (r : Request)
  | checkStopping (r : Request)

/-- What happens from outside: a request, maintenance, a change of the group or of the selector's
own state, the stop of the host, and a change of the queue limit. -/
inductive Input where
  | request (r : Request)
  | maintenance
  | groupState (cachedState : NodeSelectorState) (membershipQuorum : Int32)
      (cachedGroupState : NodeGroupState)
  | stop
  | operationQueueLimit (limit : Int)

/-! ## The steps -/

/-- The host, at the time that a step reads. -/
def atTime (host : Settling) (now : Int64) : Settling := { host with systemNow := now }

/-- `selectAndForward`, for a request that is not queued. -/
def selectAndForward (host : Settling) (hash : String → Int64) (s : Shared) (r : Request)
    (localState : NodeGroupState) : Except Failure Outcome :=
  if s.cachedState.replicationFactor = none ∧ r.broadcast then
    .ok (if r.replicate then .replicated else .broadcast)
  else
    match (s.cachedState.selector host.hostId hash).selectNodes r.keyValue localState with
    | .error e => .error e
    | .ok response =>
        if (response.availableNodeCount : Int) < s.membershipQuorum.toInt then
          .ok (.failed ("Available nodes: " ++ toString response.availableNodeCount ++
            ", quorum:" ++ toString s.membershipQuorum.toInt))
        else if r.targetPath = none then .ok (.answered response.ownerNodeId)
        else if r.broadcast then .ok (if r.replicate then .replicated else .broadcast)
        else .ok (.forwarded response.ownerNodeGroupReference)

/-- The loop of maintenance goes on. -/
def resume (drained : Bool) : List Task := if drained then [.loop] else []

def fire (host : Settling) (hash : String → Int64) (s : Shared) (t : Task) (now : Int64) :
    Shared × List Task :=
  match t with
  | .queueRequest r localState drained =>
      if s.isStopping then (s.settle r (.failed "host is stopping"), resume drained)
      else if r.expirationMicrosUtc < now then
        (s.settle r (.failed ("Operation already expired, will not queue. Exp:" ++
          toString r.expirationMicrosUtc ++ ", now:" ++ toString now)), resume drained)
      else (s, [.checkStatus r localState drained])
  | .checkStatus r localState drained =>
      if s.isAvailable then (s, [.checkAvailable r localState drained])
      else (s, [.updateStatus r localState drained])
  | .updateStatus r localState drained =>
      match NodeSelector.updateStatus (atTime host now) localState s.cachedState with
      | .ok cachedState =>
          ({ s with cachedState := cachedState }, [.checkAvailable r localState drained])
      | .error _ => (s, [])
  | .checkAvailable r localState drained =>
      if s.isAvailable then (s, [.forward r localState drained]) else (s, [.checkLimit r drained])
  | .checkLimit r drained =>
      if s.operationQueueLimit ≤ s.pendingOperationCount then
        (s.settle r .limitExceeded, resume drained)
      else (s, [.increment r drained])
  | .increment r drained =>
      ({ s with pendingOperationCount := s.pendingOperationCount + 1 }, [.add r drained])
  | .add r drained =>
      ({ s with pendingRequestQueue := s.pendingRequestQueue ++ [r] }, resume drained)
  | .forward r localState drained =>
      match selectAndForward host hash s r localState with
      | .ok o => (s.settle r o, resume drained)
      | .error _ => (s, [])
  | .loop => (s, if s.pendingRequestQueue.isEmpty then [] else [.checkGroup])
  | .checkGroup => (s, if s.isAvailable then [.poll] else [.updateGroup])
  | .updateGroup =>
      match NodeSelector.updateStatus (atTime host now) s.cachedGroupState s.cachedState with
      | .ok cachedState => ({ s with cachedState := cachedState }, [])
      | .error _ => (s, [])
  | .poll =>
      match s.pendingRequestQueue with
      | [] => (s, [])
      | r :: queue => ({ s with pendingRequestQueue := queue }, [.decrement r])
  | .decrement r =>
      ({ s with pendingOperationCount := s.pendingOperationCount - 1 }, [.checkStopping r])
  | .checkStopping r =>
      if s.isStopping then (s.settle r (.failed "Host is stopping"), [.loop])
      else (s, [.queueRequest r s.cachedGroupState true])

def input (s : Shared) : Input → Shared × List Task
  | .request r => ({ s with arrived := s.arrived ++ [r] }, [.queueRequest r s.cachedGroupState false])
  | .maintenance => (s, [.loop])
  | .groupState cachedState membershipQuorum cachedGroupState =>
      ({ s with cachedState := cachedState, membershipQuorum := membershipQuorum,
                cachedGroupState := cachedGroupState }, [])
  | .stop => ({ s with isStopping := true }, [])
  | .operationQueueLimit limit => ({ s with operationQueueLimit := limit }, [])

def selector (host : Settling) (hash : String → Int64) : Machine Shared Task Input Int64 where
  input := input
  fire s t now := some (fire host hash s t now)

/-- The selector before its first request. -/
def start (cachedState : NodeSelectorState) (membershipQuorum : Int32)
    (cachedGroupState : NodeGroupState) (operationQueueLimit : Int) : Pool Shared Task where
  shared := ⟨cachedState, membershipQuorum, cachedGroupState, false, operationQueueLimit, [], 0,
    [], []⟩
  tasks := []

/-! ## The accounting -/

section Accounting

/-- The requests that a thread is dealing with. -/
@[simp] def held : Task → List Request
  | .queueRequest r _ _ | .checkStatus r _ _ | .updateStatus r _ _ | .checkAvailable r _ _
  | .checkLimit r _ | .increment r _ | .add r _ | .forward r _ _ | .decrement r
  | .checkStopping r => [r]
  | .loop | .checkGroup | .updateGroup | .poll => []

/-- The thread has counted a request that it has not added, or taken one out that it has not
counted. -/
@[simp] def Task.counting : Task → Nat
  | .add _ _ | .decrement _ => 1
  | _ => 0

@[simp] theorem held_resume (drained : Bool) : (resume drained).flatMap held = [] := by
  cases drained <;> rfl

@[simp] theorem counting_resume (drained : Bool) : ((resume drained).map Task.counting).sum = 0 := by
  cases drained <;> rfl

/-- Every request is settled, in the queue or with a thread, and the counter is off by the threads
that are between the counter and the queue. -/
structure Inv (s : Shared) (ts : List Task) : Prop where
  requests : s.arrived.Perm
    (s.outcomes.map Prod.fst ++ s.pendingRequestQueue ++ ts.flatMap held)
  count : s.pendingOperationCount =
    s.pendingRequestQueue.length + ((ts.map Task.counting).sum : Nat)

/-- What a step does with the request of its task, and with the counter. -/
def Accounts (s : Shared) (t : Task) (r : Shared × List Task) : Prop :=
  r.1.arrived = s.arrived ∧
    (s.outcomes.map Prod.fst ++ s.pendingRequestQueue ++ held t).Perm
      (r.1.outcomes.map Prod.fst ++ r.1.pendingRequestQueue ++ r.2.flatMap held) ∧
    s.pendingOperationCount - s.pendingRequestQueue.length - (t.counting : Nat) =
      r.1.pendingOperationCount - r.1.pendingRequestQueue.length - ((r.2.map Task.counting).sum : Nat)

variable {s : Shared} {ts : List Task} {t : Task} {r : Shared × List Task}

theorem Inv.fire (h : Inv s (t :: ts)) (hstep : Accounts s t r) : Inv r.1 (r.2 ++ ts) := by
  obtain ⟨harrived, hperm, hcount⟩ := hstep
  constructor
  · rw [harrived, List.flatMap_append, ← List.append_assoc]
    apply h.requests.trans
    rw [List.flatMap_cons, ← List.append_assoc]
    exact hperm.append_right _
  · have hold := h.count
    rw [List.map_cons, List.sum_cons] at hold
    rw [List.map_append, List.sum_append]
    rw [Int.natCast_add] at hold ⊢
    omega

/-- A thread that goes on with what it has. -/
theorem accounts_same
    (hsame : r.1.arrived = s.arrived ∧ r.1.outcomes = s.outcomes ∧
      r.1.pendingRequestQueue = s.pendingRequestQueue ∧
      r.1.pendingOperationCount = s.pendingOperationCount)
    (hheld : r.2.flatMap held = held t) (hcounting : (r.2.map Task.counting).sum = t.counting) :
    Accounts s t r := by
  obtain ⟨harrived, houtcomes, hqueue, hcount⟩ := hsame
  refine ⟨harrived, ?_, ?_⟩
  · rw [houtcomes, hqueue, hheld]
  · rw [hqueue, hcount, hcounting]

/-- The request is settled. -/
theorem accounts_settle (q : Request) (o : Outcome) (hheld : held t = [q])
    (hcounting : t.counting = 0) {next : List Task} (hnext : next.flatMap held = [])
    (hcount : (next.map Task.counting).sum = 0) : Accounts s t (s.settle q o, next) := by
  refine ⟨rfl, ?_, ?_⟩
  · simp only [Shared.settle, hheld, hnext, List.map_append, List.map_cons, List.map_nil,
      List.append_nil, List.append_assoc]
    exact List.perm_append_comm.append_left _
  · simp only [Shared.settle, hcounting, hcount]

end Accounting

/-! ## Exceptions -/

/-- The selection can be made: the host is in the group, which has a node that can be selected, or
the request goes to all nodes. -/
def Selectable (host : Settling) (s : Shared) (r : Request) (localState : NodeGroupState) : Prop :=
  (s.cachedState.replicationFactor = none ∧ r.broadcast) ∨
    (localState.nodes.lookup host.hostId ≠ none ∧ HasCandidate s.cachedState localState.nodes)

/-- The step throws no exception while it deals with a request: the status of the group can be
told, and the selection can be made. -/
def Safe (host : Settling) (s : Shared) (t : Task) (now : Int64) : Prop :=
  match t with
  | .updateStatus _ localState _ =>
      ∃ available, isNodeGroupAvailable (atTime host now) localState = .ok available
  | .forward r localState _ => Selectable host s r localState
  | _ => True

section Exceptions

variable {host : Settling} {hash : String → Int64} {s : Shared} {now : Int64}

theorem updateStatus_of_ok {localState : NodeGroupState} {available : Bool}
    (h : isNodeGroupAvailable host localState = .ok available) (cachedState : NodeSelectorState) :
    ∃ cachedState', NodeSelector.updateStatus host localState cachedState = .ok cachedState' := by
  unfold NodeSelector.updateStatus calculateStatus
  rw [h]
  cases available <;> exact ⟨_, rfl⟩

theorem selectNodes_of_candidate {ns : NodeSelectorState} {localState : NodeGroupState}
    {hostId : String} (hself : localState.nodes.lookup hostId ≠ none)
    (h : HasCandidate ns localState.nodes) (hash : String → Int64) (key : String) :
    ∃ response, (ns.selector hostId hash).selectNodes key localState = .ok response := by
  by_cases hsize : localState.nodes.entries.length = 1
  · obtain ⟨self, hself⟩ := Option.ne_none_iff_exists'.mp hself
    have hlookup : localState.nodes.lookup (ns.selector hostId hash).hostId = some self :=
      hself
    unfold Selector.selectNodes
    rw [if_pos hsize, hlookup]
    exact ⟨_, rfl⟩
  · obtain ⟨hfactor, hnodes⟩ := h.resolve_left hsize
    apply (selectNodes_isOk_iff key hsize).mpr
    exact ⟨(one_le_neighbourCount_iff hostId hash).mpr hfactor,
      availableNodes_ne_nil_iff.mpr hnodes⟩

theorem selectAndForward_of_selectable {r : Request} {localState : NodeGroupState}
    (h : Selectable host s r localState) (hash : String → Int64) :
    ∃ o, selectAndForward host hash s r localState = .ok o := by
  unfold selectAndForward
  by_cases hall : s.cachedState.replicationFactor = none ∧ r.broadcast
  · rw [if_pos hall]
    exact ⟨_, rfl⟩
  · obtain ⟨hself, hcandidate⟩ := h.resolve_left hall
    obtain ⟨response, hresponse⟩ := selectNodes_of_candidate hself hcandidate hash
      r.keyValue
    rw [if_neg hall, hresponse]
    dsimp only
    split_ifs <;> exact ⟨_, rfl⟩

end Exceptions

/-! ## Every step, every run -/

section Runs

variable {host : Settling} {hash : String → Int64} {s : Shared}

theorem accounts_fire {t : Task} {now : Int64} (hsafe : Safe host s t now) :
    Accounts s t (fire host hash s t now) := by
  -- a request leaves the threads and the queue with `settle` only; every other step moves it or
  -- leaves it where it is
  cases t with
  | queueRequest r localState drained =>
      simp only [fire]
      split_ifs
      · exact accounts_settle r _ rfl rfl (held_resume _) (counting_resume _)
      · exact accounts_settle r _ rfl rfl (held_resume _) (counting_resume _)
      · exact accounts_same ⟨rfl, rfl, rfl, rfl⟩ rfl rfl
  | checkStatus r localState drained =>
      simp only [fire]
      split_ifs
      · exact accounts_same ⟨rfl, rfl, rfl, rfl⟩ rfl rfl
      · exact accounts_same ⟨rfl, rfl, rfl, rfl⟩ rfl rfl
  | updateStatus r localState drained =>
      -- by `hsafe` the status of the group can be told
      obtain ⟨available, havailable⟩ := hsafe
      obtain ⟨cachedState, hupdate⟩ := updateStatus_of_ok havailable s.cachedState
      simp only [fire, hupdate]
      exact accounts_same ⟨rfl, rfl, rfl, rfl⟩ rfl rfl
  | checkAvailable r localState drained =>
      simp only [fire]
      split_ifs
      · exact accounts_same ⟨rfl, rfl, rfl, rfl⟩ rfl rfl
      · exact accounts_same ⟨rfl, rfl, rfl, rfl⟩ rfl rfl
  | checkLimit r drained =>
      simp only [fire]
      split_ifs
      · exact accounts_settle r _ rfl rfl (held_resume _) (counting_resume _)
      · exact accounts_same ⟨rfl, rfl, rfl, rfl⟩ rfl rfl
  | increment r drained =>
      refine ⟨rfl, List.Perm.refl _, ?_⟩
      simp only [fire, Task.counting, List.map_cons, List.map_nil, List.sum_cons, List.sum_nil]
      push_cast
      omega
  | add r drained =>
      refine ⟨rfl, ?_, ?_⟩
      · simp only [fire, held, held_resume, List.append_nil, List.append_assoc]
        exact List.Perm.refl _
      · simp only [fire, Task.counting, counting_resume, List.length_append, List.length_cons,
          List.length_nil]
        push_cast
        omega
  | forward r localState drained =>
      obtain ⟨o, ho⟩ := selectAndForward_of_selectable hsafe hash
      simp only [fire, ho]
      exact accounts_settle r o rfl rfl (held_resume _) (counting_resume _)
  | loop =>
      simp only [fire]
      split_ifs
      · exact accounts_same ⟨rfl, rfl, rfl, rfl⟩ rfl rfl
      · exact accounts_same ⟨rfl, rfl, rfl, rfl⟩ rfl rfl
  | checkGroup =>
      simp only [fire]
      split_ifs
      · exact accounts_same ⟨rfl, rfl, rfl, rfl⟩ rfl rfl
      · exact accounts_same ⟨rfl, rfl, rfl, rfl⟩ rfl rfl
  | updateGroup =>
      simp only [fire]
      split
      · exact accounts_same ⟨rfl, rfl, rfl, rfl⟩ rfl rfl
      · exact accounts_same ⟨rfl, rfl, rfl, rfl⟩ rfl rfl
  | poll =>
      simp only [fire]
      split
      · exact accounts_same ⟨rfl, rfl, rfl, rfl⟩ rfl rfl
      · rename_i r queue hqueue
        refine ⟨rfl, ?_, ?_⟩
        · simp only [hqueue, held, List.append_nil, List.flatMap_cons, List.flatMap_nil,
            List.append_assoc]
          exact (List.perm_append_singleton r queue).symm.append_left _
        · simp only [hqueue, Task.counting, List.map_cons, List.map_nil, List.sum_cons,
            List.sum_nil, List.length_cons]
          push_cast
          omega
  | decrement r =>
      refine ⟨rfl, List.Perm.refl _, ?_⟩
      simp only [fire, Task.counting, List.map_cons, List.map_nil, List.sum_cons, List.sum_nil]
      push_cast
      omega
  | checkStopping r =>
      simp only [fire]
      split_ifs
      · exact accounts_settle r _ rfl rfl rfl rfl
      · exact accounts_same ⟨rfl, rfl, rfl, rfl⟩ rfl rfl

theorem Inv.input {ts : List Task} (h : Inv s ts) (i : Input) :
    Inv (input s i).1 ((input s i).2 ++ ts) := by
  cases i with
  | request r =>
      constructor
      · show (s.arrived ++ [r]).Perm (s.outcomes.map Prod.fst ++ s.pendingRequestQueue ++
          (r :: ts.flatMap held))
        exact (List.perm_append_comm.trans (h.requests.cons r)).trans List.perm_middle.symm
      · exact h.count.trans (by simp [PendingQueue.input])
  | maintenance => exact ⟨h.requests, h.count.trans (by simp [PendingQueue.input])⟩
  | groupState cachedState membershipQuorum cachedGroupState => exact ⟨h.requests, h.count⟩
  | stop => exact ⟨h.requests, h.count⟩
  | operationQueueLimit limit => exact ⟨h.requests, h.count⟩

theorem inv_reaches {p₀ p : Pool Shared Task} (h : (selector host hash).Reaches (Safe host) p₀ p)
    (h₀ : Inv p₀.shared p₀.tasks) : Inv p.shared p.tasks := by
  apply Machine.invariant Inv h
  case perm =>
    intro s ts ts' hperm hinv
    refine ⟨hinv.requests.trans ((hperm.flatMap_right held).append_left _), ?_⟩
    rw [hinv.count, (hperm.map Task.counting).sum_eq]
  case init => exact h₀
  case input => exact fun i hinv => hinv.input i
  case fire =>
    intro s t ts now r hsafe hr hinv
    obtain rfl := Option.some.inj hr
    exact hinv.fire (accounts_fire hsafe)

end Runs

/-- No thread is between the counter and the queue. -/
def NoneCounting (ts : List Task) : Prop := ∀ t ∈ ts, t.counting = 0

/-- Every request that has arrived is once settled, in the queue or with a thread; and the counter
is the length of the queue while no request is being added or taken out. -/
def LosesNothing (p : Pool Shared Task) : Prop :=
  p.shared.arrived.Perm (p.shared.outcomes.map Prod.fst ++ p.shared.pendingRequestQueue ++
      p.tasks.flatMap held) ∧
    (NoneCounting p.tasks → p.shared.pendingOperationCount = p.shared.pendingRequestQueue.length)

/-- In every run in which no step that deals with a request throws. -/
theorem queue_loses_nothing (host : Settling) (hash : String → Int64)
    (cachedState : NodeSelectorState) (membershipQuorum : Int32) (cachedGroupState : NodeGroupState)
    (operationQueueLimit : Int) (p : Pool Shared Task)
    (h : (selector host hash).Reaches (Safe host)
      (start cachedState membershipQuorum cachedGroupState operationQueueLimit) p) :
    LosesNothing p := by
  have hinv : Inv p.shared p.tasks := inv_reaches h ⟨List.Perm.refl _, rfl⟩
  refine ⟨hinv.requests, fun hnone => ?_⟩
  have hzero : (p.tasks.map Task.counting).sum = 0 := by
    apply List.sum_eq_zero
    intro n hn
    obtain ⟨t, ht, rfl⟩ := List.mem_map.mp hn
    exact hnone t ht
  have hcount := hinv.count
  omega

/-! ## A request that waits -/

section

instance (host : Settling) (s : Shared) : ∀ (t : Task) (now : Int64), Decidable (Safe host s t now)
  | .updateStatus _ localState _, now =>
      match h : isNodeGroupAvailable (atTime host now) localState with
      | .ok available => isTrue ⟨available, h⟩
      | .error _ => isFalse fun ⟨_, h'⟩ => nomatch h.symm.trans h'
  | .forward r localState _, _ =>
      letI : Decidable (∀ factor ∈ s.cachedState.replicationFactor, 1 ≤ factor.toInt) :=
        Option.decidableForallMem s.cachedState.replicationFactor
      inferInstanceAs (Decidable
      ((s.cachedState.replicationFactor = none ∧ r.broadcast) ∨
        (localState.nodes.lookup host.hostId ≠ none ∧
          (localState.nodes.entries.length = 1 ∨
            ((∀ factor ∈ s.cachedState.replicationFactor, 1 ≤ factor.toInt) ∧
              ∃ m ∈ localState.nodes.values, m.status ≠ .unavailable ∧ m.status ≠ .replaced ∧
                .observer ∉ m.options)))))
  | .queueRequest _ _ _, _ | .checkStatus _ _ _, _ | .checkAvailable _ _ _, _
  | .checkLimit _ _, _ | .increment _ _, _ | .add _ _, _ | .loop, _ | .checkGroup, _
  | .updateGroup, _ | .poll, _ | .decrement _, _ | .checkStopping _, _ => isTrue trivial

/-- A request for the owner of a key. -/
def getOwner : Request := ⟨0, some "k", none, false, false, 100⟩

/-- It arrives before the group has settled. Maintenance finds the group settled, and takes the
request up the next time. -/
def waits : List (PoolEvent Input Int64) :=
  [.input (.request getOwner)] ++ List.replicate 7 (.fire 0 0) ++
    [.input .maintenance, .fire 0 10, .fire 0 10, .fire 0 10, .input .maintenance] ++
      List.replicate 9 (.fire 0 10)

theorem queue_loses_nothing_of_peers : ∃ p, LosesNothing p ∧ p.shared.arrived = [getOwner] ∧
    p.shared.outcomes = [(getOwner, .answered "b")] ∧ p.tasks.length = 1 := by
  obtain ⟨p, hp, hrest⟩ : ∃ p, (selector .longAgo fun _ => 0).exec (Safe .longAgo)
      (start ⟨none, .unavailable⟩ 1 (groupOfTwo {.peer}) 10) waits = some p ∧
        p.shared.arrived = [getOwner] ∧ p.shared.outcomes = [(getOwner, .answered "b")] ∧
          p.tasks.length = 1 :=
    ⟨_, rfl, rfl, by decide, rfl⟩
  refine ⟨p, ?_, hrest⟩
  exact queue_loses_nothing .longAgo (fun _ => 0) ⟨none, .unavailable⟩ 1 (groupOfTwo {.peer}) 10 p
    (Machine.reaches_of_exec hp)

/-- In a group of observers the request is taken out of the queue, and the selection throws. -/
theorem queue_loses_request : ¬ ∀ (host : Settling) (hash : String → Int64)
    (cachedState : NodeSelectorState) (membershipQuorum : Int32) (cachedGroupState : NodeGroupState)
    (operationQueueLimit : Int) (p : Pool Shared Task),
    (selector host hash).Reaches (fun _ _ _ => True)
      (start cachedState membershipQuorum cachedGroupState operationQueueLimit) p →
        LosesNothing p := by
  intro h
  obtain ⟨p, hp, harrived, houtcomes, hqueue, htasks⟩ : ∃ p,
      (selector .longAgo fun _ => 0).exec (fun _ _ _ => True)
        (start ⟨none, .unavailable⟩ 1 (groupOfTwo {.observer}) 10) waits = some p ∧
        p.shared.arrived = [getOwner] ∧ p.shared.outcomes = [] ∧
          p.shared.pendingRequestQueue = [] ∧ p.tasks = [] :=
    ⟨_, rfl, rfl, rfl, rfl, rfl⟩
  have hperm := (h _ _ _ _ _ _ p (Machine.reaches_of_exec hp)).1
  rw [harrived, houtcomes, hqueue, htasks] at hperm
  exact absurd hperm.length_eq (by decide)

end

end Xenon.NodeSelector.PendingQueue
