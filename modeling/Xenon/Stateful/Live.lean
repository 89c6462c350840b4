import Xenon.Stateful.Service

/-!
# Where requests are

Every request that `queueRequest` accepted is in exactly one place: on its way
through the gate, pending in a queue, or done with. And whenever requests are
pending, something is under way that will look at the queue: a request that
holds the gate and has its `processPending` before it, a dequeued request, or
the cancellation of a service that stops. `Live` is this invariant; `Moves` is
what a firing has to do for it, stated about the fired task and its successors
alone, and `Live.moves` the one place where the other tasks are looked at.
-/

namespace Xenon.Stateful

open Xenon.Common Xenon.Foundation

variable {β : Type}

/-! ## Where requests are, and who will look at the queue -/

/-- The accepted request that a task has not brought through the gate yet. -/
def Task.transit : Task β → List OpId
  | .chain op | .queueRequestInternal op _ | .admitted op => [op.id]
  | .queueRequest op _ => if op.hasReferer then [op.id] else []
  | _ => []

/-- A dequeued request is on its way to the gate, or about to be dequeued. -/
def Task.isDraining : Task β → Bool
  | .dequeueRequest | .chain _ | .queueRequest _ true | .queueRequestInternal _ true => true
  | _ => false

/-- The service was stopped and its pending requests are about to be cancelled. -/
def Task.isCancelling : Task β → Bool
  | .cancelPendingRequests _ _ => true
  | _ => false

def StopFor.holder : StopFor β → Option (Request β)
  | .stop => none
  | .delete op _ => some op.toRequest
  | .markedDeleted request => some request.toRequest

/-- The request for which a stage will still call `processPending`. -/
def Stage.holder : Stage β → Option (Request β)
  | .handleRequest op | .handleStop op | .loadState op | .processFilters op
  | .serviceHandler op => some op
  | .completion op _ | .updated op _ | .replication op | .commit op | .coordinator op _
  | .synchronize op _ _ => some op.toRequest
  | .indexing op | .authzArtifacts op =>
      if op.isWithinTransaction then some op.toRequest else none
  | .notification op failed =>
      if op.isWithinTransaction || failed then some op.toRequest else none
  | .reply _ _ => none

/-- The request for which a task will still call `processPending`. -/
def Task.holder : Task β → Option (Request β)
  | .admitted op => some op
  | .processPending op _ => some op.toRequest
  | .stop _ k | .setStopped _ k | .cancelPendingRequests _ k => k.holder
  | .stage st => st.holder
  | _ => none

/-- Some request has to pass the gate of this service. -/
def gates (svc : Service β) (op : Request β) : Bool :=
  !svc.concurrentUpdateHandling && isGated svc op

def Task.holdsUpdate (svc : Service β) (t : Task β) : Bool :=
  t.holder.any fun op => gates svc op && op.isUpdate

def Task.holdsGet (svc : Service β) (t : Task β) : Bool :=
  t.holder.any fun op => gates svc op && op.action = .get

/-- No request is active, no dequeue is in progress and the service is not about
to cancel its pending requests. -/
def Idle (svc : Service β) (ts : List (Task β)) : Prop :=
  ∀ t ∈ ts, t.holdsUpdate svc = false ∧ t.holdsGet svc = false ∧
    t.isDraining = false ∧ t.isCancelling = false

/-- The outcomes of a request that is not lost. -/
def Outcome.isExpected : Outcome → Bool
  | .dispatched | .cancelled _ | .limitExceeded | .stopped _ => true
  | .notAvailable | .filtered => false

/-- A filter of the host's processing chain keeps a dequeued request. -/
def Task.isFiltered : Task β → Answer β → Bool
  | .chain _, .failed _ => true
  | _, _ => false

/-- The processing chain of the host hands every dequeued request on. -/
def ChainPasses (_ : Shared β) (t : Task β) (k : Answer β) : Prop := t.isFiltered k = false

instance (s : Shared β) (t : Task β) (k : Answer β) : Decidable (ChainPasses s t k) :=
  inferInstanceAs (Decidable (t.isFiltered k = false))

/-- Every accepted request is in one place, every one that `queueRequest` is done
with was dispatched, cancelled or failed for the queue limit or the stop, and an
idle service has nothing pending. -/
def NothingLost (svc : Service β) (s : Shared β) (ts : List (Task β)) : Prop :=
  s.accepted.Perm
      (ts.flatMap Task.transit ++ s.gate.pending.map (·.id) ++ s.outcomes.map Prod.fst) ∧
    (∀ o ∈ s.outcomes, o.2.isExpected = true) ∧
    (Idle svc ts → s.gate.pending = [])

/-! ## The invariant -/

/-- A request that can be found in a queue. -/
structure Queueable (svc : Service β) (op : Request β) : Prop where
  gates : gates svc op = true
  referer : op.hasReferer = true

def StopFor.WellFormed (op : Request β) : StopFor β → Prop
  | .stop => True
  | .delete op' _ => op.isServiceDeleteAndStop = true ∧ op'.isServiceStop = false
  | .markedDeleted request => request.isServiceStop = false

/-- A local stop leaves `handleRequest` early, so the later stages never see one. -/
def Stage.WellFormed : Stage β → Prop
  | .loadState op | .processFilters op | .serviceHandler op => op.isServiceStop = false
  | .completion op _ | .updated op _ | .replication op | .synchronize op _ _ =>
      op.isServiceStop = false
  | _ => True

def Task.WellFormed (svc : Service β) : Task β → Prop
  | .chain op | .queueRequest op true => Queueable svc op
  | .queueRequestInternal op dequeued =>
      svc.concurrentUpdateHandling = false ∧ op.hasReferer = true ∧
        (dequeued = true → isGated svc op = true)
  | .stop op k | .setStopped op k | .cancelPendingRequests op k => k.WellFormed op
  | .processPending op .completion => op.isServiceStop = false
  | .stage st => st.WellFormed
  | _ => True

structure Live (svc : Service β) (s : Shared β) (ts : List (Task β)) : Prop where
  wellFormed : ∀ t ∈ ts, t.WellFormed svc
  queueable : ∀ op ∈ s.gate.pending, Queueable svc op
  stage : s.gate.processingStage = .available ∨ s.gate.processingStage = .stopped
  update : s.gate.processingStage = .available → s.gate.isUpdateActive = true →
    ∃ t ∈ ts, t.holdsUpdate svc = true
  gets : s.gate.processingStage = .available →
    s.gate.getActiveCount ≤ ts.countP (·.holdsGet svc)
  wake : s.gate.processingStage = .available → s.gate.pending ≠ [] →
    s.gate.isHeld ∨ ∃ t ∈ ts, t.isDraining = true
  stopping : s.gate.processingStage = .stopped → s.gate.pending ≠ [] →
    ∃ t ∈ ts, t.isCancelling = true
  accounted : s.accepted.Perm
    (ts.flatMap Task.transit ++ s.gate.pending.map (·.id) ++ s.outcomes.map Prod.fst)
  expected : ∀ o ∈ s.outcomes, o.2.isExpected = true

/-- What a firing does to the invariant, seen from the tasks `old` it replaces by
`new` alone. -/
structure Moves (svc : Service β) (s : Shared β) (old : List (Task β)) (s' : Shared β)
    (new : List (Task β)) : Prop where
  wellFormed : ∀ t ∈ new, t.WellFormed svc
  queueable : ∀ op ∈ s'.gate.pending, op ∈ s.gate.pending ∨ Queueable svc op
  stage : s'.gate.processingStage = s.gate.processingStage ∨
    s'.gate.processingStage = .stopped
  update : s'.gate.processingStage = .available → s'.gate.isUpdateActive = true →
    (∃ t ∈ new, t.holdsUpdate svc = true) ∨
      s.gate.isUpdateActive = true ∧ ∀ t ∈ old, t.holdsUpdate svc = false
  gets : s'.gate.processingStage = .available →
    s'.gate.getActiveCount ≤
      s.gate.getActiveCount - old.countP (·.holdsGet svc) + new.countP (·.holdsGet svc)
  wake : s'.gate.processingStage = .available → s'.gate.pending ≠ [] →
    s'.gate.isHeld ∨ (∃ t ∈ new, t.isDraining = true) ∨
      s.gate.pending ≠ [] ∧ (∀ t ∈ old, t.isDraining = false) ∧ ¬ s.gate.isHeld
  stopping : s'.gate.processingStage = .stopped → s'.gate.pending ≠ [] →
    (∃ t ∈ new, t.isCancelling = true) ∨
      s.gate.processingStage = .stopped ∧ s.gate.pending ≠ [] ∧
        ∀ t ∈ old, t.isCancelling = false
  accepted : ∃ arrived, s'.accepted = arrived ++ s.accepted ∧
    (new.flatMap Task.transit ++ s'.gate.pending.map (·.id) ++ s'.outcomes.map Prod.fst).Perm
      (arrived ++
        (old.flatMap Task.transit ++ s.gate.pending.map (·.id) ++ s.outcomes.map Prod.fst))
  expected : ∀ o ∈ s'.outcomes, o ∈ s.outcomes ∨ o.2.isExpected = true

variable {svc : Service β} {s s' : Shared β} {old new rest : List (Task β)}

/-- A witness among the old tasks or the others is one among the new tasks or the
others. -/
theorem exists_mem_of_replace {P : Task β → Prop} (h : ∃ t ∈ old ++ rest, P t)
    (hold : ∀ t ∈ old, ¬ P t) : ∃ t ∈ new ++ rest, P t := by
  obtain ⟨t, ht, hp⟩ := h
  rcases List.mem_append.mp ht with ht | ht
  · exact absurd hp (hold t ht)
  · exact ⟨t, List.mem_append_right _ ht, hp⟩

theorem exists_mem_of_new {P : Task β → Prop} (h : ∃ t ∈ new, P t) :
    ∃ t ∈ new ++ rest, P t := by
  obtain ⟨t, ht, hp⟩ := h
  exact ⟨t, List.mem_append_left _ ht, hp⟩

theorem Moves.available_before (m : Moves svc s old s' new)
    (h : s'.gate.processingStage = .available) : s.gate.processingStage = .available := by
  rcases m.stage with hs | hs
  · rw [← hs, h]
  · rw [hs] at h
    cases h

/-- The tasks that are not fired stay as they are. -/
theorem Live.moves (h : Live svc s (old ++ rest)) (m : Moves svc s old s' new) :
    Live svc s' (new ++ rest) where
  wellFormed t ht := by
    rcases List.mem_append.mp ht with ht | ht
    · exact m.wellFormed t ht
    · exact h.wellFormed t (List.mem_append_right _ ht)
  queueable op hop := (m.queueable op hop).elim (h.queueable op) id
  stage := by
    rcases m.stage with hs | hs
    · rw [hs]
      exact h.stage
    · exact Or.inr hs
  update ha hflag := by
    rcases m.update ha hflag with hnew | ⟨hwas, hold⟩
    · exact exists_mem_of_new hnew
    · exact exists_mem_of_replace (h.update (m.available_before ha) hwas) fun t ht => by simp [hold t ht]
  gets ha := by
    have h₁ := h.gets (m.available_before ha)
    have h₂ := m.gets ha
    rw [List.countP_append] at h₁ ⊢
    omega
  wake ha hne := by
    rcases m.wake ha hne with hheld | hnew | ⟨hwas, hold, hfree⟩
    · exact Or.inl hheld
    · exact Or.inr (exists_mem_of_new hnew)
    · refine Or.inr (exists_mem_of_replace ((h.wake (m.available_before ha) hwas).resolve_left hfree) ?_)
      exact fun t ht => by simp [hold t ht]
  stopping hs hne := by
    rcases m.stopping hs hne with hnew | ⟨hprev, hwas, hold⟩
    · exact exists_mem_of_new hnew
    · exact exists_mem_of_replace (h.stopping hprev hwas) fun t ht => by simp [hold t ht]
  accounted := by
    obtain ⟨arrived, haccepted, hperm⟩ := m.accepted
    rw [haccepted]
    have hbefore := h.accounted
    rw [List.perm_iff_count] at hbefore hperm ⊢
    intro id
    have h₁ := hbefore id
    have h₂ := hperm id
    simp only [List.flatMap_append, List.count_append] at h₁ h₂ ⊢
    omega
  expected o ho := (m.expected o ho).elim (h.expected o) id

end Xenon.Stateful
