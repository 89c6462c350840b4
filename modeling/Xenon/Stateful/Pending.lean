import Xenon.Stateful.Follows

/-!
# No request is lost

Each task of a service keeps the invariant `Live`, so in every state of a run
the accepted requests are accounted for and pending requests are never left with
nobody to look at them.

This rests on the host handing every dequeued request back to the service. It
sends a dequeued request through its whole processing chain first, and a filter
that keeps the request there (`RequestRateLimitsFilter` fails it when its user
has used up the rate limit, and no longer dequeues the next one in its place)
leaves the rest of the queue behind with nobody to wake it.
-/

namespace Xenon.Stateful

open Xenon.Common Xenon.Foundation

variable {β : Type}

variable {svc : Service β} {s s' : Shared β} {new : List (Task β)}

/-! ## One step -/

theorem gates_of_sameKind {op op' : Request β} (h : SameKind op op') :
    gates svc op' = gates svc op := by
  simp [gates, isGated, h.isUpdate, h.isGet]

theorem Follows.holdsUpdate {t : Task β} (h : Follows svc t.holder new)
    (ht : t.holdsUpdate svc = true) : ∃ t' ∈ new, t'.holdsUpdate svc = true := by
  obtain ⟨op, hop, hp⟩ := (Option.any_eq_true _ _).mp ht
  obtain ⟨hgates, hupdate⟩ := Bool.and_eq_true_iff.mp hp
  obtain ⟨t', ht', op', hop', hkind⟩ := h.holds op hop hgates
  exact ⟨t', ht', by
    simp [Task.holdsUpdate, hop', gates_of_sameKind hkind, hkind.isUpdate, hgates, hupdate]⟩

theorem Follows.holdsGet {t : Task β} (h : Follows svc t.holder new)
    (ht : t.holdsGet svc = true) : ∃ t' ∈ new, t'.holdsGet svc = true := by
  obtain ⟨op, hop, hp⟩ := (Option.any_eq_true _ _).mp ht
  obtain ⟨hgates, hget⟩ := Bool.and_eq_true_iff.mp hp
  obtain ⟨t', ht', op', hop', hkind⟩ := h.holds op hop hgates
  exact ⟨t', ht', by
    simpa [Task.holdsGet, hop', gates_of_sameKind hkind, hkind.isGet, hgates] using hget⟩

variable {t : Task β}

/-- A firing that at most moves requests in and out of the queues. -/
theorem Moves.of_queues (hsame : s.gate.QueuesOnly s'.gate)
    (hwf : ∀ t ∈ new, t.WellFormed svc)
    (hqueueable : ∀ op ∈ s'.gate.pending, op ∈ s.gate.pending ∨ Queueable svc op)
    (hupdate : s.gate.processingStage = .available → t.holdsUpdate svc = true →
      ∃ t' ∈ new, t'.holdsUpdate svc = true)
    (hget : s.gate.processingStage = .available → t.holdsGet svc = true →
      ∃ t' ∈ new, t'.holdsGet svc = true)
    (hwake : s.gate.processingStage = .available → s'.gate.pending ≠ [] → ¬ s.gate.isHeld →
      (∃ t' ∈ new, t'.isDraining = true) ∨ s.gate.pending ≠ [] ∧ t.isDraining = false)
    (hstopping : s.gate.processingStage = .stopped → s'.gate.pending ≠ [] →
      s.gate.pending ≠ [] ∧ t.isCancelling = false)
    (haccepted : s'.accepted = s.accepted)
    (hperm : (new.flatMap Task.transit ++ s'.gate.pending.map (·.id) ++
      s'.outcomes.map Prod.fst).Perm
        (t.transit ++ s.gate.pending.map (·.id) ++ s.outcomes.map Prod.fst))
    (hexpected : ∀ o ∈ s'.outcomes, o ∈ s.outcomes ∨ o.2.isExpected = true) :
    Moves svc s [t] s' new where
  wellFormed := hwf
  queueable := hqueueable
  stage := Or.inl hsame.stage
  update ha hflag := by
    rw [hsame.stage] at ha
    rw [hsame.update] at hflag
    by_cases ht : t.holdsUpdate svc = true
    · exact Or.inl (hupdate ha ht)
    · exact Or.inr ⟨hflag, by simpa using ht⟩
  gets ha := by
    rw [hsame.stage] at ha
    rw [hsame.gets]
    by_cases ht : t.holdsGet svc = true
    · have hone : [t].countP (·.holdsGet svc) = 1 := by simp [ht]
      have hpos : 0 < new.countP (·.holdsGet svc) := List.countP_pos_iff.mpr (hget ha ht)
      omega
    · simp [ht]
  wake ha hne := by
    rw [hsame.stage] at ha
    -- the flags are as before, so the gate is held by the same requests
    have hiff : s'.gate.isHeld ↔ s.gate.isHeld := by
      rw [Gate.isHeld, Gate.isHeld, hsame.update, hsame.gets]
    rw [hiff]
    by_cases hheld : s.gate.isHeld
    · exact Or.inl hheld
    · refine Or.inr ((hwake ha hne hheld).imp_right fun h => ⟨h.1, by simpa using h.2, hheld⟩)
  stopping hs hne := by
    rw [hsame.stage] at hs
    obtain ⟨hwas, hcancel⟩ := hstopping hs hne
    exact Or.inr ⟨hs, hwas, by simpa using hcancel⟩
  accepted := ⟨[], by simpa using haccepted, by simpa using hperm⟩
  expected := hexpected

/-- A firing that leaves the gate alone. `settled` are the requests it is done
with. -/
theorem Moves.of_gate_eq {settled : List (OpId × Outcome)} (hgate : s'.gate = s.gate)
    (haccepted : s'.accepted = s.accepted) (houtcomes : s'.outcomes = settled ++ s.outcomes)
    (hexpected : ∀ o ∈ settled, o.2.isExpected = true)
    (hwf : ∀ t ∈ new, t.WellFormed svc)
    (hupdate : s.gate.processingStage = .available → t.holdsUpdate svc = true →
      ∃ t' ∈ new, t'.holdsUpdate svc = true)
    (hget : s.gate.processingStage = .available → t.holdsGet svc = true →
      ∃ t' ∈ new, t'.holdsGet svc = true)
    (hdrain : s.gate.processingStage = .available → t.isDraining = true →
      ∃ t' ∈ new, t'.isDraining = true)
    (hcancel : t.isCancelling = false)
    (htransit : (new.flatMap Task.transit ++ settled.map Prod.fst).Perm t.transit) :
    Moves svc s [t] s' new := by
  have hsame : s.gate.QueuesOnly s'.gate := by
    rw [hgate]
    exact ⟨rfl, rfl, rfl⟩
  apply Moves.of_queues hsame hwf
  case hqueueable =>
    intro op hop
    exact Or.inl (hgate ▸ hop)
  case hupdate => exact hupdate
  case hget => exact hget
  case hwake =>
    intro ha hne _
    rw [hgate] at hne
    by_cases ht : t.isDraining = true
    · exact Or.inl (hdrain ha ht)
    · exact Or.inr ⟨hne, by simpa using ht⟩
  case hstopping =>
    intro _ hne
    exact ⟨hgate ▸ hne, hcancel⟩
  case haccepted => exact haccepted
  case hperm =>
    rw [hgate, houtcomes]
    rw [List.perm_iff_count] at htransit ⊢
    intro id
    have := htransit id
    simp only [List.count_append, List.map_append] at this ⊢
    omega
  case hexpected =>
    intro o ho
    rw [houtcomes] at ho
    exact (List.mem_append.mp ho).symm.imp_right (hexpected o)

/-- Tasks outside the gate that follow a task outside the gate. -/
theorem Moves.of_follows (hgate : s'.gate = s.gate) (haccepted : s'.accepted = s.accepted)
    (houtcomes : s'.outcomes = s.outcomes) (hwf : ∀ t ∈ new, t.WellFormed svc)
    (hnew : ∀ t ∈ new, t.transit = [])
    (hfollows : s.gate.processingStage = .available → Follows svc t.holder new)
    (htransit : t.transit = []) (hdrain : t.isDraining = false)
    (hcancel : t.isCancelling = false) : Moves svc s [t] s' new := by
  have hsettled : s'.outcomes = [] ++ s.outcomes := houtcomes
  refine .of_gate_eq hgate haccepted hsettled (by simp) hwf
    (fun ha => (hfollows ha).holdsUpdate) (fun ha => (hfollows ha).holdsGet)
    (fun _ h => by simp [hdrain] at h) hcancel ?_
  have hnil : new.flatMap Task.transit = [] := List.flatMap_eq_nil_iff.mpr hnew
  simp [hnil, htransit]

theorem moves_stage {st : Stage β} {k : Answer β} {r : Shared β × List (Task β)}
    (hwf : st.WellFormed) (h : fireStage svc s st k = some r) :
    Moves svc s [.stage st] r.1 r.2 := by
  obtain ⟨e, us, gs, hrun, htasks, hr, -, -⟩ := fireStage_eq h
  rw [hr, htasks]
  have hfollows : s.gate.processingStage = .available → Follows svc st.holder e.tasks := by
    intro ha
    have hrunning : s.isStopped = false := by simp [Shared.isStopped, ha]
    rw [hrunning] at hrun
    exact follows_runStage hwf hrun
  rcases runStage_isStopped hrun with hnil | ⟨e', hrun', htasks'⟩
  · exact .of_follows rfl rfl rfl (by simp [hnil]) (by simp [hnil]) hfollows rfl rfl rfl
  · have htail := follows_runStage hwf hrun'
    rw [htasks'] at htail
    exact .of_follows rfl rfl rfl htail.wellFormed htail.transit hfollows rfl rfl rfl

/-- The stage of a service that was started. -/
def Running (s : Shared β) : Prop :=
  s.gate.processingStage = .available ∨ s.gate.processingStage = .stopped

/-- A task of the gate is done with its request. -/
theorem Moves.settle {op : Request β} {o : Outcome} (ho : o.isExpected = true)
    (htransit : t.transit = [op.id]) (hcancel : t.isCancelling = false)
    (hquiet : s.gate.processingStage = .available → t.holder = none ∧ t.isDraining = false) :
    Moves svc s [t] (s.settle op o) [] := by
  have hsettled : (s.settle op o).outcomes = [(op.id, o)] ++ s.outcomes := rfl
  refine .of_gate_eq rfl rfl hsettled (by simpa using ho) (by simp) ?_ ?_ ?_ hcancel
    (by simp [htransit])
  · intro ha h
    simp [Task.holdsUpdate, (hquiet ha).1] at h
  · intro ha h
    simp [Task.holdsGet, (hquiet ha).1] at h
  · intro ha h
    simp [(hquiet ha).2] at h

/-- A task of the gate dispatches its request. -/
theorem moves_dispatch {op : Request β} (htransit : t.transit = [op.id])
    (hcancel : t.isCancelling = false) (hholder : ∀ op', t.holder = some op' → op' = op)
    (hquiet : s.gate.processingStage = .available → t.isDraining = false) :
    Moves svc s [t] (dispatch s op).1 (dispatch s op).2 := by
  have hsettled : (s.settle op .dispatched).outcomes = [(op.id, .dispatched)] ++ s.outcomes := rfl
  have hfollows : Follows svc t.holder [.stage (.handleRequest op)] := by
    cases h : t.holder with
    | none => exact .none (by simp [Task.WellFormed, Stage.WellFormed]) (by simp [Task.transit])
    | some op' =>
        obtain rfl := hholder op' h
        exact .single trivial rfl rfl (sameKind_refl _)
  refine .of_gate_eq rfl rfl hsettled (by simp [Outcome.isExpected]) hfollows.wellFormed
    (fun _ => hfollows.holdsUpdate) (fun _ => hfollows.holdsGet) ?_ hcancel
    (by rw [htransit]; exact .refl _)
  intro ha h
  simp [hquiet ha] at h

/-- A task of the gate hands its request to the next one. -/
theorem Moves.hand {t' : Task β} (hwf : t'.WellFormed svc) (htransit : t'.transit = t.transit)
    (hcancel : t.isCancelling = false) (hholder : t.holder = none)
    (hdrain : t.isDraining = true → t'.isDraining = true) : Moves svc s [t] s [t'] := by
  have hsettled : s.outcomes = [] ++ s.outcomes := rfl
  refine .of_gate_eq rfl rfl hsettled (by simp) (by simpa using hwf) ?_ ?_ ?_ hcancel
    (by simp [htransit])
  · intro _ h
    simp [Task.holdsUpdate, hholder] at h
  · intro _ h
    simp [Task.holdsGet, hholder] at h
  · intro _ h
    simpa using hdrain h

theorem moves_queueOrScheduleRequest {op : Request β} (hs : Running s)
    (hop : Queueable svc op) :
    Moves svc s [.chain op] (queueOrScheduleRequest svc s op).1
      (queueOrScheduleRequest svc s op).2 := by
  unfold queueOrScheduleRequest
  split_ifs with hgo hstopped
  · exact .hand hop (by simp [Task.transit, hop.referer]) rfl rfl fun _ => rfl
  · exact .settle rfl rfl rfl fun ha => absurd (Or.inl ha) hgo
  · rcases hs with ha | hs
    · exact absurd (Or.inl ha) hgo
    · exact absurd (by simpa [Shared.isStopped] using hs) hstopped

/-- What the first section of `queueRequest` can decide. -/
theorem queueRequest_cases (svc : Service β) (op : Request β) (hs : Running s) :
    (∃ d, queueRequest svc s.gate op = .handled (.stopped d) ∧
      s.gate.processingStage = .stopped) ∨
    (queueRequest svc s.gate op = .refused ∧ op.hasReferer = false) ∨
    (queueRequest svc s.gate op = .dispatch ∧ op.hasReferer = true ∧
      svc.concurrentUpdateHandling = true) ∨
    (queueRequest svc s.gate op = .proceed ∧ op.hasReferer = true ∧
      svc.concurrentUpdateHandling = false) := by
  rcases hs with ha | hs
  · simp only [queueRequest, checkServiceStopped, ha, reduceCtorEq, if_false, ne_eq,
      not_true_eq_false, and_false]
    split_ifs with hreferer hconc
    · simp [hreferer]
    · simp [hreferer, hconc]
    · simp [hreferer, hconc]
  · exact Or.inl ⟨stoppedReply svc op, by simp [queueRequest, checkServiceStopped, hs], hs⟩

theorem moves_queueRequest {op : Request β} {dequeued : Bool} (hs : Running s)
    (hwf : (Task.queueRequest op dequeued).WellFormed svc) :
    Moves svc s [.queueRequest op dequeued] (fireQueueRequest svc s op dequeued).1
      (fireQueueRequest svc s op dequeued).2 := by
  have hqueueable : (Task.queueRequest op dequeued).isDraining = true → Queueable svc op := by
    cases dequeued with
    | false => simp [Task.isDraining]
    | true => exact fun _ => hwf
  have hquiet : (Task.queueRequest op dequeued).holder = none := rfl
  have hsettled : s.outcomes = [] ++ s.outcomes := rfl
  -- an unaccepted request may disappear, since no dequeued one is unaccepted
  have hdrop : op.hasReferer = false → Moves svc s [.queueRequest op dequeued] s [] :=
    fun hno => .of_gate_eq rfl rfl hsettled (by simp) (by simp)
      (by simp [Task.holdsUpdate, hquiet]) (by simp [Task.holdsGet, hquiet])
      (fun _ h => absurd (hqueueable h).referer (by simp [hno])) rfl
      (by simp [Task.transit, hno])
  unfold fireQueueRequest
  rcases queueRequest_cases svc op hs with
    ⟨d, hq, hstop⟩ | ⟨hq, hno⟩ | ⟨hq, hyes, hconc⟩ | ⟨hq, hyes, hconc⟩ <;>
    simp only [hq]
  · split_ifs with hreferer
    · exact .settle rfl (by simp [Task.transit, hreferer]) rfl fun ha => by simp [ha] at hstop
    · exact hdrop (by simpa using hreferer)
  · exact hdrop hno
  · refine moves_dispatch (by simp [Task.transit, hyes]) rfl (by simp [hquiet]) fun _ => ?_
    by_contra hdrain
    have hgates := (hqueueable (by simpa using hdrain)).gates
    simp [gates, hconc] at hgates
  · refine .hand ⟨hconc, hyes, ?_⟩ (by simp [Task.transit, hyes]) rfl rfl ?_
    · rintro rfl
      simpa [gates, hconc] using hwf.gates
    · cases dequeued <;> simp [Task.isDraining]

theorem moves_activate {op : Request β} {dequeued : Bool} {g : Gate β}
    (hgates : gates svc op = true) (hstage : g.processingStage = s.gate.processingStage)
    (hpending : g.pending = s.gate.pending) (hheld : g.isHeld)
    (hupdate : g.isUpdateActive = true → s.gate.isUpdateActive = true ∨ op.isUpdate = true)
    (hgets : g.getActiveCount ≤
      s.gate.getActiveCount + [Task.admitted op].countP (·.holdsGet svc)) :
    Moves svc s [.queueRequestInternal op dequeued] ({ s with gate := g }.activate op)
      [.admitted op] where
  wellFormed := by simp [Task.WellFormed]
  queueable op' hop := Or.inl (by simpa [hpending] using hop)
  stage := Or.inl (by simpa using hstage)
  update _ hflag := by
    rcases hupdate (by simpa using hflag) with hwas | hop
    · exact Or.inr ⟨hwas, by simp [Task.holdsUpdate, Task.holder]⟩
    · exact Or.inl ⟨_, List.mem_singleton_self _, by
        simp [Task.holdsUpdate, Task.holder, hgates, hop]⟩
  gets _ := by
    have hnone : [Task.queueRequestInternal op dequeued].countP (·.holdsGet svc) = 0 := by
      simp [Task.holdsGet, Task.holder]
    rw [Shared.activate_gate, hnone]
    exact hgets
  wake _ _ := Or.inl (by simpa using hheld)
  stopping hs hne := by
    rw [Shared.activate_gate] at hs hne
    exact Or.inr ⟨hstage ▸ hs, hpending ▸ hne, by simp [Task.isCancelling]⟩
  accepted := ⟨[], by simp, by simp [hpending, Task.transit]⟩
  expected o ho := Or.inl (by simpa using ho)

/-- The queue is full and the request is failed. -/
theorem moves_full {op : Request β} {dequeued : Bool} {g : Gate β} (hheld : s.gate.isHeld)
    (hsame : s.gate.QueuesOnly g) (hpending : g.pending = s.gate.pending) :
    Moves svc s [.queueRequestInternal op dequeued]
      ({ s with gate := g }.settle op .limitExceeded) [] := by
  have hquiet : (Task.queueRequestInternal op dequeued).holder = none := rfl
  apply Moves.of_queues hsame
  case hwf => simp
  case hqueueable =>
    intro op' hop
    exact Or.inl (hpending ▸ hop)
  case hupdate => simp [Task.holdsUpdate, hquiet]
  case hget => simp [Task.holdsGet, hquiet]
  case hwake =>
    intro _ _ hfree
    exact absurd hheld hfree
  case hstopping =>
    intro _ hne
    exact ⟨hpending ▸ hne, rfl⟩
  case haccepted => rfl
  case hperm =>
    simp only [Shared.settle, hpending, Task.transit]
    exact List.perm_middle
  case hexpected =>
    intro o ho
    rcases List.mem_cons.mp ho with rfl | ho
    · exact Or.inr rfl
    · exact Or.inl ho

/-- The request is queued behind those that hold the gate. -/
theorem moves_queued {op : Request β} {dequeued : Bool} {g : Gate β}
    (hrunning : s.gate.processingStage ≠ .stopped) (hheld : s.gate.isHeld)
    (hqueueable : Queueable svc op) (hsame : s.gate.QueuesOnly g)
    (hpending : g.pending.Perm (op :: s.gate.pending)) :
    Moves svc s [.queueRequestInternal op dequeued] { s with gate := g } [] := by
  have hquiet : (Task.queueRequestInternal op dequeued).holder = none := rfl
  apply Moves.of_queues hsame
  case hwf => simp
  case hqueueable =>
    intro op' hop
    rcases List.mem_cons.mp (hpending.mem_iff.mp hop) with rfl | hop
    · exact Or.inr hqueueable
    · exact Or.inl hop
  case hupdate => simp [Task.holdsUpdate, hquiet]
  case hget => simp [Task.holdsGet, hquiet]
  case hwake =>
    intro _ _ hfree
    exact absurd hheld hfree
  case hstopping =>
    intro hs _
    exact absurd hs hrunning
  case haccepted => rfl
  case hperm => exact (hpending.map _).append_right _
  case hexpected =>
    intro o ho
    exact Or.inl ho

theorem moves_queueRequestInternal {op : Request β} {dequeued : Bool}
    (hwf : (Task.queueRequestInternal op dequeued).WellFormed svc) :
    Moves svc s [.queueRequestInternal op dequeued] (fireQueueRequestInternal svc s op).1
      (fireQueueRequestInternal svc s op).2 := by
  obtain ⟨hconc, hreferer, hgated⟩ := hwf
  unfold fireQueueRequestInternal
  cases hq : queueRequestInternal svc s.hostIsStopping s.gate op with
  | mk g v =>
      cases queueing_of_queueRequestInternal hq with
      | stopped d hstop =>
          exact .settle rfl rfl rfl fun ha => by simp [ha] at hstop
      | full hheld hsame hpending => exact moves_full hheld hsame hpending
      | queued hrunning hheld hg hsame hpending =>
          have hqueueable : Queueable svc op := ⟨by simp [gates, hconc, hg], hreferer⟩
          exact moves_queued hrunning hheld hqueueable hsame hpending
      | update hop hfree =>
          have hgates : gates svc op = true := by simp [gates, isGated, hconc, hop]
          exact moves_activate hgates rfl rfl (Or.inl rfl) (fun _ => Or.inr hop)
            (Nat.le_add_right _ _)
      | get hop hg hflag =>
          have hgates : gates svc op = true := by simp [gates, hconc, hg]
          refine moves_activate hgates rfl rfl (Or.inr (Nat.succ_ne_zero _)) Or.inl ?_
          simp [Task.holdsGet, Task.holder, hgates, hop]
      | ungated hfree =>
          refine moves_dispatch rfl rfl (by simp [Task.holder]) fun _ => ?_
          cases dequeued with
          | false => rfl
          | true => simp [hfree] at hgated

theorem moves_admitted {op : Request β} :
    Moves svc s [.admitted op] (fireAdmitted svc s op).1 (fireAdmitted svc s op).2 := by
  unfold fireAdmitted checkServiceStopped
  by_cases hstop : s.gate.processingStage = .stopped
  · simp only [hstop, if_true]
    exact .settle rfl rfl rfl fun ha => by simp [ha] at hstop
  · simp only [hstop, if_false]
    exact moves_dispatch rfl rfl (fun op' h => (Option.some.inj h).symm) fun _ => rfl

theorem next_tasks {op : Operation β} {next : Next}
    (hwf : (Task.processPending op next).WellFormed svc) :
    (∀ t ∈ next.tasks op, t.WellFormed svc) ∧ ∀ t ∈ next.tasks op, t.transit = [] := by
  cases next with
  | completion => exact ⟨List.forall_mem_singleton.mpr hwf, List.forall_mem_singleton.mpr rfl⟩
  | _ => simp [Next.tasks, Task.WellFormed, Stage.WellFormed, StopFor.WellFormed, failRequest,
      Task.transit]

/-- `processPending` opens the gate, and the dequeue it starts is what the pending
requests wait for. -/
theorem moves_release {op : Operation β} {next : Next} {g : Gate β}
    (hwf : (Task.processPending op next).WellFormed svc)
    (hstage : g.processingStage = s.gate.processingStage) (hpending : g.pending = s.gate.pending)
    (hupdate : g.isUpdateActive = true → s.gate.isUpdateActive = true ∧ op.isUpdate = false)
    (hgets : g.getActiveCount ≤ s.gate.getActiveCount -
      [Task.processPending op next].countP (·.holdsGet svc)) :
    Moves svc s [.processPending op next] ({ s with gate := g }.release op.toRequest)
      (.dequeueRequest :: next.tasks op) := by
  obtain ⟨us, gs, hrelease, -, -⟩ := Shared.release_eq { s with gate := g } op.toRequest
  rw [hrelease]
  exact
    { wellFormed := List.forall_mem_cons.mpr ⟨trivial, (next_tasks hwf).1⟩
      queueable := fun op' hop => Or.inl (hpending ▸ hop)
      stage := Or.inl hstage
      update := fun _ hflag => Or.inr ⟨(hupdate hflag).1, by
        simp [Task.holdsUpdate, Task.holder, (hupdate hflag).2]⟩
      gets := fun _ => Nat.le_add_right_of_le hgets
      wake := fun _ _ => Or.inr (Or.inl ⟨_, List.mem_cons_self, rfl⟩)
      stopping := fun hs hne => Or.inr ⟨hstage ▸ hs, hpending ▸ hne, by
        simp [Task.isCancelling]⟩
      accepted := ⟨[], rfl, by
        simp [hpending, Task.transit, List.flatMap_eq_nil_iff.mpr (next_tasks hwf).2]⟩
      expected := fun o ho => Or.inl ho }

theorem moves_processPending {op : Operation β} {next : Next}
    (hwf : (Task.processPending op next).WellFormed svc) :
    Moves svc s [.processPending op next] (fireProcessPending svc s op next).1
      (fireProcessPending svc s op next).2 := by
  unfold fireProcessPending
  cases hp : processPending svc s.gate op.toRequest with
  | mk g asks =>
      rcases processPending_cases hp with ⟨rfl, rfl, hfree⟩ | ⟨rfl, ⟨hop, rfl⟩ | ⟨hop, rfl⟩⟩
      · have hgates : gates svc op.toRequest = false := by
          rcases hfree with h | h <;> simp [gates, h]
        have hsettled : s.outcomes = [] ++ s.outcomes := rfl
        refine .of_gate_eq rfl rfl hsettled (by simp) (next_tasks hwf).1
          (by simp [Task.holdsUpdate, Task.holder, hgates])
          (by simp [Task.holdsGet, Task.holder, hgates]) (by simp [Task.isDraining]) rfl ?_
        simp [Task.transit, List.flatMap_eq_nil_iff.mpr (next_tasks hwf).2]
      · have hget : op.action ≠ .get := (Request.isUpdate_iff.mp hop).1
        refine moves_release hwf rfl rfl (by simp) ?_
        simp [Task.holdsGet, Task.holder, hget]
      · have hupdate : op.isUpdate = false := by simp [Request.isUpdate, hop]
        have hle : [Task.processPending op next].countP (·.holdsGet svc) ≤ 1 :=
          List.countP_le_length
        exact moves_release hwf rfl rfl (fun h => ⟨h, hupdate⟩) (Nat.sub_le_sub_left hle _)

theorem moves_dequeueRequest (hqueueable : ∀ op ∈ s.gate.pending, Queueable svc op) :
    Moves svc s [.dequeueRequest] (fireDequeueRequest s).1 (fireDequeueRequest s).2 := by
  cases hd : dequeueRequest s.gate with
  | mk g next =>
      obtain ⟨hsame, hperm, hnone⟩ := dequeueRequest_cases hd
      have hfire : fireDequeueRequest s = ({ s with gate := g }, next.toList.map .chain) := by
        cases next <;> simp [fireDequeueRequest, hd]
      have hsub : ∀ op ∈ g.pending, op ∈ s.gate.pending := fun op hop =>
        hperm.mem_iff.mpr (List.mem_append_right _ hop)
      have htaken : ∀ op ∈ next.toList, op ∈ s.gate.pending := fun op hop =>
        hperm.mem_iff.mpr (List.mem_append_left _ hop)
      rw [hfire]
      apply Moves.of_queues hsame
      case hwf =>
        intro t' ht'
        obtain ⟨op, hop, rfl⟩ := List.mem_map.mp ht'
        exact hqueueable op (htaken op hop)
      case hqueueable =>
        intro op hop
        exact Or.inl (hsub op hop)
      case hupdate => simp [Task.holdsUpdate, Task.holder]
      case hget => simp [Task.holdsGet, Task.holder]
      case hwake =>
        -- the request that was taken looks at the rest of the queue when it is done
        intro _ hleft _
        cases next with
        | none => exact absurd (hnone rfl) hleft
        | some op => exact Or.inl ⟨_, List.mem_singleton_self _, rfl⟩
      case hstopping =>
        intro _ hleft
        obtain ⟨op, hop⟩ := List.exists_mem_of_ne_nil _ hleft
        exact ⟨List.ne_nil_of_mem (hsub op hop), rfl⟩
      case haccepted => rfl
      case hperm =>
        have hids := (hperm.map (·.id)).symm.append_right (s.outcomes.map Prod.fst)
        simpa [List.flatMap_map, Task.transit, ← List.map_eq_flatMap] using hids
      case hexpected =>
        intro o ho
        exact Or.inl ho

theorem follows_stopped {op : Request β} {k : StopFor β} (hwf : k.WellFormed op) :
    Follows svc k.holder (k.stopped op) := by
  cases k with
  | stop =>
      exact Follows.none (List.forall_mem_singleton.mpr trivial)
        (List.forall_mem_singleton.mpr rfl)
  | delete op' isStateUpdated => exact .single hwf.2 rfl rfl (sameKind_refl _)
  | markedDeleted request => exact follows_processPending (by simp) (sameKind_refl _)

theorem follows_refused {op : Request β} {k : StopFor β} (hwf : k.WellFormed op)
    (hactive : op.isServiceDeleteAndStop = false) : Follows svc k.holder k.refused := by
  cases k with
  | stop => exact .none (by simp [StopFor.refused]) (by simp [StopFor.refused])
  | delete op' isStateUpdated =>
      rw [hwf.1] at hactive
      cases hactive
  | markedDeleted request => exact follows_processPending (by simp) (sameKind_refl _)

theorem moves_stop {op : Request β} {k : StopFor β} (hwf : k.WellFormed op) :
    Moves svc s [.stop op k] (fireStop s op k).1 (fireStop s op k).2 := by
  have hrefused : (∀ t ∈ k.refused, t.WellFormed svc) ∧ ∀ t ∈ k.refused, t.transit = [] := by
    cases k <;> simp [StopFor.refused, failRequest, Task.WellFormed, Task.transit]
  unfold fireStop
  split_ifs with hstop hactive
  · refine .of_follows rfl rfl rfl hrefused.1 hrefused.2 (fun ha => ?_) rfl rfl rfl
    simp [Shared.isStopped, ha] at hstop
  · exact .of_follows rfl rfl rfl hrefused.1 hrefused.2
      (fun _ => follows_refused hwf hactive.2) rfl rfl rfl
  · refine .of_follows rfl rfl rfl (by simpa [Task.WellFormed] using hwf)
      (by simp [Task.transit]) (fun _ => ?_) rfl rfl rfl
    exact ⟨by simpa [Task.WellFormed] using hwf, by simp [Task.transit],
      fun op' hop _ => ⟨_, List.mem_singleton_self _, op', hop, sameKind_refl _⟩⟩

theorem moves_setStopped {op : Request β} {k : StopFor β} (hwf : k.WellFormed op) :
    Moves svc s [.setStopped op k] (fireSetStopped s op k).1 (fireSetStopped s op k).2 where
  wellFormed := by simpa [fireSetStopped, Task.WellFormed] using hwf
  queueable _ hop := Or.inl hop
  stage := Or.inr rfl
  update ha := by cases ha
  gets ha := by cases ha
  wake ha := by cases ha
  stopping _ _ := Or.inl ⟨_, List.mem_singleton_self _, rfl⟩
  accepted := ⟨[], rfl, .refl _⟩
  expected _ ho := Or.inl ho

theorem moves_cancel {op : Request β} {k : StopFor β} (hwf : k.WellFormed op) :
    Moves svc s [.cancelPendingRequests op k] (fireCancel svc s op k).1
      (fireCancel svc s op k).2 := by
  have hfollows : Follows svc k.holder (k.stopped op) := follows_stopped hwf
  unfold fireCancel
  cases hc : cancelPendingRequests svc s.gate op with
  | mk g cancelled =>
      obtain ⟨hsame, hempty, hperm⟩ := cancelPendingRequests_cases hc
      have hnil : (k.stopped op).flatMap Task.transit = [] :=
        List.flatMap_eq_nil_iff.mpr hfollows.transit
      apply Moves.of_queues hsame hfollows.wellFormed
      case hqueueable => simp [hempty]
      case hupdate =>
        intro _ h
        exact hfollows.holdsUpdate h
      case hget =>
        intro _ h
        exact hfollows.holdsGet h
      case hwake =>
        intro _ hleft
        exact absurd hempty hleft
      case hstopping =>
        intro _ hleft
        exact absurd hempty hleft
      case haccepted => rfl
      case hperm =>
        have hids := (hperm.map (·.id)).append_right (s.outcomes.map Prod.fst)
        simpa [hnil, hempty, Task.transit, Function.comp_def] using hids
      case hexpected =>
        intro o ho
        rcases List.mem_append.mp ho with ho | ho
        · obtain ⟨c, -, rfl⟩ := List.mem_map.mp ho
          exact Or.inr rfl
        · exact Or.inl ho

/-- An input leaves the gate's flags and the pending requests alone. -/
theorem Moves.of_input (hsame : s.gate.QueuesOnly s'.gate)
    (hpending : s'.gate.pending = s.gate.pending) (houtcomes : s'.outcomes = s.outcomes)
    (hwf : ∀ t ∈ new, t.WellFormed svc)
    (haccepted : s'.accepted = new.flatMap Task.transit ++ s.accepted) :
    Moves svc s [] s' new where
  wellFormed := hwf
  queueable op hop := Or.inl (hpending ▸ hop)
  stage := Or.inl hsame.stage
  update _ hflag := Or.inr ⟨hsame.update ▸ hflag, by simp⟩
  gets _ := by simp [hsame.gets]
  wake _ hne := by
    have hiff : s'.gate.isHeld ↔ s.gate.isHeld := by
      rw [Gate.isHeld, Gate.isHeld, hsame.update, hsame.gets]
    rw [hiff]
    by_cases hheld : s.gate.isHeld
    · exact Or.inl hheld
    · exact Or.inr (Or.inr ⟨hpending ▸ hne, by simp, hheld⟩)
  stopping hs hne := Or.inr ⟨hsame.stage ▸ hs, hpending ▸ hne, by simp⟩
  accepted := ⟨_, haccepted, by simp [hpending, houtcomes]⟩
  expected o ho := Or.inl (houtcomes ▸ ho)

theorem moves_receive (i : Input β) : Moves svc s [] (receive s i).1 (receive s i).2 := by
  cases i with
  | request op =>
      refine .of_input ⟨rfl, rfl, rfl⟩ rfl rfl (by simp [receive, Task.WellFormed]) ?_
      simp only [receive, List.flatMap_cons, List.flatMap_nil, List.append_nil, Task.transit]
      split_ifs <;> rfl
  | configuration epoch limit =>
      simp only [receive]
      split
      · exact .of_input ⟨rfl, rfl, rfl⟩ rfl rfl (by simp) rfl
      · refine .of_input ⟨rfl, rfl, rfl⟩ ?_ rfl (by simp) rfl
        simp [Gate.pending, OperationQueue.store_configured]
  | toggleDocumentOwner enable => exact .of_input ⟨rfl, rfl, rfl⟩ rfl rfl (by simp [receive]) rfl
  | hostStop => exact .of_input ⟨rfl, rfl, rfl⟩ rfl rfl (by simp [receive]) rfl

theorem moves_fire {k : Answer β} {r : Shared β × List (Task β)} (hs : Running s)
    (hqueueable : ∀ op ∈ s.gate.pending, Queueable svc op) (hwf : t.WellFormed svc)
    (hpasses : ChainPasses s t k) (h : fire svc s t k = some r) :
    Moves svc s [t] r.1 r.2 := by
  cases t with
  | chain op =>
      rcases fire_chain h with ⟨⟨e, rfl⟩, -⟩ | rfl
      · cases hpasses
      · exact moves_queueOrScheduleRequest hs hwf
  | stage st => exact moves_stage hwf h
  | queueRequest op dequeued =>
      cases h
      exact moves_queueRequest hs hwf
  | queueRequestInternal op dequeued =>
      cases h
      exact moves_queueRequestInternal hwf
  | admitted op =>
      cases h
      exact moves_admitted
  | processPending op next =>
      cases h
      exact moves_processPending hwf
  | dequeueRequest =>
      cases h
      exact moves_dequeueRequest hqueueable
  | stop op k =>
      cases h
      exact moves_stop hwf
  | setStopped op k =>
      cases h
      exact moves_setStopped hwf
  | cancelPendingRequests op k =>
      cases h
      exact moves_cancel hwf

/-! ## Whole runs -/

theorem live_perm {ts ts' : List (Task β)} (hperm : ts.Perm ts') (h : Live svc s ts) :
    Live svc s ts' where
  wellFormed t ht := h.wellFormed t (hperm.mem_iff.mpr ht)
  queueable := h.queueable
  stage := h.stage
  update ha hflag := by
    obtain ⟨t, ht, hp⟩ := h.update ha hflag
    exact ⟨t, hperm.mem_iff.mp ht, hp⟩
  gets ha := hperm.countP_eq _ ▸ h.gets ha
  wake ha hne := (h.wake ha hne).imp_right fun ⟨t, ht, hp⟩ => ⟨t, hperm.mem_iff.mp ht, hp⟩
  stopping hs hne := by
    obtain ⟨t, ht, hp⟩ := h.stopping hs hne
    exact ⟨t, hperm.mem_iff.mp ht, hp⟩
  accounted := h.accounted.trans (((hperm.flatMap_right _).append_right _).append_right _)
  expected := h.expected

theorem live_started {p : Pool (Shared β) (Task β)} {lifo : Bool} {limit : Int} {v : Versions}
    (hp : p = started lifo limit v) : Live svc p.shared p.tasks := by
  subst hp
  have hpending : (started lifo limit v).shared.gate.pending = ([] : List (Request β)) := by
    cases lifo <;> rfl
  exact
    { wellFormed := by simp [started]
      queueable := by simp [hpending]
      stage := Or.inl rfl
      update := fun _ hflag => by cases hflag
      gets := fun _ => Nat.zero_le _
      wake := fun _ hne => absurd hpending hne
      stopping := fun hs => by cases hs
      accounted := by
        rw [hpending]
        exact .refl _
      expected := by simp [started] }

theorem live_reaches {lifo : Bool} {limit : Int} {v : Versions} {p : Pool (Shared β) (Task β)}
    (h : (service svc).Reaches ChainPasses (started lifo limit v) p) :
    Live svc p.shared p.tasks := by
  apply Machine.invariant (Live svc) h
  case perm =>
    intro s ts ts' hperm hlive
    exact live_perm hperm hlive
  case init => exact live_started rfl
  case input =>
    intro s ts i hlive
    have hnone : Live svc s ([] ++ ts) := hlive
    exact hnone.moves (moves_receive i)
  case fire =>
    intro s t ts k r hpasses hfire hlive
    have hwf : t.WellFormed svc := hlive.wellFormed t List.mem_cons_self
    exact hlive.moves (moves_fire hlive.stage hlive.queueable hwf hpasses hfire)

/-- Pending requests of an idle service would have nobody to look at them. -/
theorem Live.pending_eq_nil {ts : List (Task β)} (h : Live svc s ts) (hidle : Idle svc ts) :
    s.gate.pending = [] := by
  by_contra hne
  rcases h.stage with ha | hs
  · rcases h.wake ha hne with (hflag | hcount) | ⟨t, ht, hdrain⟩
    · obtain ⟨t, ht, hholds⟩ := h.update ha hflag
      simp [(hidle t ht).1] at hholds
    · have hpos := Nat.lt_of_lt_of_le (Nat.pos_of_ne_zero hcount) (h.gets ha)
      obtain ⟨t, ht, hholds⟩ := List.countP_pos_iff.mp hpos
      simp [(hidle t ht).2.1] at hholds
    · simp [(hidle t ht).2.2.1] at hdrain
  · obtain ⟨t, ht, hcancel⟩ := h.stopping hs hne
    simp [(hidle t ht).2.2.2] at hcancel

/-- **No request is lost.** In every state that a started service reaches, under
any interleaving of arrivals, completions, failures and stops in which the host
hands every dequeued request back: each accepted request is exactly once on its
way through the gate, pending, or done with (dispatched, cancelled, or failed
because of the queue limit or the stop), and if no request is active and no
dequeue or cancellation is in progress then nothing is pending. -/
theorem no_request_lost (svc : Service β) (lifo : Bool) (limit : Int) (v : Versions)
    {p : Pool (Shared β) (Task β)}
    (h : (service svc).Reaches ChainPasses (started lifo limit v) p) :
    NothingLost svc p.shared p.tasks :=
  ⟨(live_reaches h).accounted, (live_reaches h).expected, (live_reaches h).pending_eq_nil⟩

/-- A second update is queued behind the first, dequeued when the first has been
sent to the index, passes the chain and is dispatched. -/
theorem no_request_lost_two_updates : ∃ p : Pool (Shared Unit) (Task Unit),
    (service persistentService).Reaches ChainPasses (started false 10 {}) p ∧
      p.shared.outcomes = [(.inbound 2, .dispatched), (.inbound 1, .dispatched)] ∧
        NothingLost persistentService p.shared p.tasks := by
  obtain ⟨p, hp, hdone⟩ := Option.map_eq_some_iff.mp (show
    ((service persistentService).exec ChainPasses (started false 10 {})
      (admitPut 1 ++ queuePut 2 ++ handlePut ++
        fires 0 [.proceed, .proceed, .proceed, .proceed])).map (·.shared.outcomes) =
          some [(.inbound 2, .dispatched), (.inbound 1, .dispatched)] by decide +kernel)
  have h := Machine.reaches_of_exec hp
  exact ⟨p, h, hdone, no_request_lost persistentService false 10 {} h⟩

/-- Two updates are queued behind the first. When it is done the second one is
dequeued and a filter of the host fails it: the third one stays in the queue of a
service for which nothing is running any more. -/
theorem request_lost_behind_filter : ¬ ∀ (svc : Service Unit) (lifo : Bool) (limit : Int) (v : Versions)
    (p : Pool (Shared Unit) (Task Unit)),
    (service svc).Reaches (fun _ _ _ => True) (started lifo limit v) p →
      NothingLost svc p.shared p.tasks := by
  intro h
  obtain ⟨p, hp, hstuck⟩ := Option.map_eq_some_iff.mp (show
    ((service persistentService).exec (fun _ _ _ => True) (started false 10 {})
      (admitPut 1 ++ queuePut 2 ++ queuePut 3 ++ handlePut ++
        fires 0 [.failed {}, .proceed, .proceed, .proceed])).map
          (fun p => (p.tasks.length, p.shared.gate.pending.map (·.id))) =
            some (0, [.inbound 3]) by decide +kernel)
  obtain ⟨htasks, hpending⟩ := Prod.mk.inj hstuck
  have hnil := (h persistentService false 10 {} p (Machine.reaches_of_exec hp)).2.2
  rw [List.length_eq_zero_iff.mp htasks] at hnil
  rw [hnil (by simp [Idle])] at hpending
  cases hpending

end Xenon.Stateful
