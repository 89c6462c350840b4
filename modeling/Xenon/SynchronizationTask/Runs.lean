import Mathlib.Data.List.Count
import Xenon.SynchronizationTask.Service

/-!
# Runs of the synchronization task

As long as no request to mark the factory available fails, an execution is in
progress exactly while the stage of the task is `STARTED`, and the factory is marked
available only when an execution finishes that was started, or restarted, after every
PUT that was accepted. When such a request fails, the task sends itself a PATCH that
belongs to no execution; it can hit the next one.
-/

namespace Xenon.SynchronizationTask

open Foundation

/-- A request that is being handled. -/
def Task.isGate : Task → Bool
  | .markUnavailable _ | .markAvailable _ _ | .markOutdated | .expire => true
  | _ => false

/-- The number of accepted PUTs when the execution was started or restarted. -/
def Task.startedAt : Task → Option Nat
  | .handleSubStage _ n | .patch _ n | .markAvailable _ n => some n
  | _ => none

/-- A sub-stage that `handleSubStage` expects. -/
def Working (subStage : Option SubStage) : Prop :=
  subStage.isSome ∧ subStage ≠ some .restart

theorem startSubStage_working (o : Options) : Working (some (startSubStage o)) := by
  refine ⟨rfl, ?_⟩
  unfold startSubStage
  split <;> decide

theorem restartSubStage_working (o : Options) : Working (some (restartSubStage o)) := by
  refine ⟨rfl, ?_⟩
  unfold restartSubStage
  split <;> decide

/-- The PATCHes of a sub-stage. -/
theorem emissions_fits {task body : State} (h : body ∈ emissions task) :
    body.stage ≠ .created ∧ Working body.subStage := by
  unfold emissions at h
  unfold Working
  split at h <;> simp only [List.mem_cons, List.not_mem_nil, or_false] at h
  next => exact ⟨by simp [h], by simp [h], by simp [h]⟩
  next hsub => rcases h with rfl | rfl | rfl <;> simp [hsub]
  next hsub => rcases h with rfl | rfl | rfl | rfl <;> simp [hsub]
  next hsub => rcases h with rfl | rfl <;> simp [hsub]

theorem emissions_ne_nil {task : State} (h : Working task.subStage) : emissions task ≠ [] := by
  obtain ⟨hsome, hne⟩ := h
  unfold emissions
  split
  next => exact List.cons_ne_nil _ _
  next => exact List.cons_ne_nil _ _
  next => exact List.cons_ne_nil _ _
  next => exact List.cons_ne_nil _ _
  next hsub => exact absurd hsub hne
  next hsub => simp [hsub] at hsome

/-- What a task of the pool says about the shared state. -/
def Fits (s : Shared) : Task → Prop
  | .put _ => True
  | .markUnavailable task =>
      s.committed.stage ≠ .started ∧ task.stage = .started ∧ Working task.subStage
  | .handleSubStage task _ => Working task.subStage
  | .patch body _ => body.stage ≠ .created ∧ Working body.subStage
  | .markAvailable task n => task.stage = .finished ∧ n = s.accepted
  | .markOutdated => s.committed.stage = .finished ∧ s.finished = s.accepted
  | .expire => False

structure Inv (s : Shared) (ts : List Task) : Prop where
  gate : ts.countP Task.isGate = if s.busy then 1 else 0
  one : executions ts = if s.committed.stage = .started then 1 else 0
  fits : ∀ t ∈ ts, Fits s t
  /-- An execution that was not asked to restart has seen every accepted PUT. -/
  current : s.committed.stage = .started → s.committed.subStage ≠ some .restart →
    ∀ t ∈ ts, ∀ n ∈ t.startedAt, n = s.accepted
  /-- A task that is finished has seen every accepted PUT, unless one is just being
  handled. -/
  fresh : s.committed.stage = .finished → s.busy = false → s.finished = s.accepted
  marks : ∀ m ∈ s.marks, m.1 = m.2

namespace Inv

variable {o : Options} {s : Shared} {t : Task} {ts ts' : List Task}

theorem perm (hp : ts.Perm ts') (h : Inv s ts) : Inv s ts' where
  gate := hp.countP_eq Task.isGate ▸ h.gate
  one := by
    have hcount : executions ts = executions ts' := hp.countP_eq _
    exact hcount ▸ h.one
  fits t ht := h.fits t (hp.mem_iff.mpr ht)
  current hstage hsub t ht := h.current hstage hsub t (hp.mem_iff.mpr ht)
  fresh := h.fresh
  marks := h.marks

/-- While no request is being handled, no task waits for the factory. -/
theorem no_gate (h : Inv s ts) (hbusy : s.busy = false) : ∀ t ∈ ts, ¬ t.isGate := by
  have hgate := h.gate
  rw [hbusy] at hgate
  exact List.countP_eq_zero.mp hgate

/-- At most one request is being handled. -/
theorem other_gate (h : Inv s (t :: ts)) (ht : t.isGate) :
    s.busy = true ∧ ∀ t ∈ ts, ¬ t.isGate := by
  have hgate := h.gate
  rw [List.countP_cons_of_pos ht] at hgate
  split at hgate
  next hbusy => exact ⟨hbusy, List.countP_eq_zero.mp (Nat.succ.inj hgate)⟩
  next => exact absurd hgate (Nat.succ_ne_zero _)

/-- There is at most one execution, and the stage is `STARTED`. -/
theorem other_execution (h : Inv s (t :: ts)) (ht : t.isExecution) :
    s.committed.stage = .started ∧ executions ts = 0 := by
  have hone := h.one
  unfold executions at hone
  rw [List.countP_cons_of_pos ht] at hone
  split at hone
  next hstage => exact ⟨hstage, Nat.succ.inj hone⟩
  next => exact absurd hone (Nat.succ_ne_zero _)

/-- The tasks other than executions, when the rest of the state changes. -/
theorem startedAt_eq_none (h : executions ts = 0) : ∀ t ∈ ts, t.startedAt = none := by
  intro t ht
  have hnot : ¬ t.isExecution := List.countP_eq_zero.mp h t ht
  cases t <;> first | rfl | exact absurd rfl hnot

/-- The only execution was started with the number of PUTs that it says. -/
theorem startedAt_cons {m : Nat} (h : executions ts = 0) (ht : ∀ n ∈ t.startedAt, n = m) :
    ∀ t' ∈ t :: ts, ∀ n ∈ t'.startedAt, n = m := by
  intro t' ht' n hn
  rcases List.mem_cons.mp ht' with rfl | ht'
  · exact ht n hn
  · rw [startedAt_eq_none h t' ht'] at hn
    exact absurd hn (Option.not_mem_none n)

theorem drop (h : Inv s (t :: ts)) (hgate : t.isGate = false) (hexec : t.isExecution = false) :
    Inv s ts where
  gate := by
    have := h.gate
    rwa [List.countP_cons_of_neg (by simp [hgate])] at this
  one := by
    have := h.one
    unfold executions at this
    rwa [List.countP_cons_of_neg (by simp [hexec])] at this
  fits t ht := h.fits t (List.mem_cons_of_mem _ ht)
  current hstage hsub t ht := h.current hstage hsub t (List.mem_cons_of_mem _ ht)
  fresh := h.fresh
  marks := h.marks

theorem fits_of_not_gate {s' : Shared} (ht : ¬ t.isGate) (h : Fits s t) : Fits s' t := by
  match t with
  | .put _ | .handleSubStage _ _ | .patch _ _ => exact h
  | .markUnavailable _ | .markAvailable _ _ | .markOutdated | .expire => exact absurd rfl ht

/-- A request begins that waits for the factory. -/
theorem enter {s' : Shared} (hno : ∀ t ∈ ts, ¬ t.isGate) (hrest : ∀ t ∈ ts, Fits s t)
    (ht : t.isGate) (hbusy : s'.busy = true)
    (hone : executions (t :: ts) = if s'.committed.stage = .started then 1 else 0)
    (hfits : Fits s' t)
    (hcurrent : s'.committed.stage = .started → s'.committed.subStage ≠ some .restart →
      ∀ t' ∈ t :: ts, ∀ n ∈ t'.startedAt, n = s'.accepted)
    (hmarks : ∀ m ∈ s'.marks, m.1 = m.2) : Inv s' (t :: ts) where
  gate := by
    rw [List.countP_cons_of_pos ht, List.countP_eq_zero.mpr hno, hbusy]
    rfl
  one := hone
  fits := List.forall_mem_cons.mpr
    ⟨hfits, fun t' ht' => fits_of_not_gate (hno t' ht') (hrest t' ht')⟩
  current := hcurrent
  fresh _ hfalse := absurd (hbusy.symm.trans hfalse) (by decide)
  marks := hmarks

/-- A request has been handled, or did not have to wait. -/
theorem leave {s' : Shared} {new : List Task} (hno : ∀ t ∈ ts, ¬ t.isGate)
    (hrest : ∀ t ∈ ts, Fits s t) (hnew : ∀ t ∈ new, ¬ t.isGate ∧ Fits s' t)
    (hbusy : s'.busy = false)
    (hone : executions (new ++ ts) = if s'.committed.stage = .started then 1 else 0)
    (hcurrent : s'.committed.stage = .started → s'.committed.subStage ≠ some .restart →
      ∀ t ∈ new ++ ts, ∀ n ∈ t.startedAt, n = s'.accepted)
    (hfresh : s'.committed.stage = .finished → s'.finished = s'.accepted)
    (hmarks : ∀ m ∈ s'.marks, m.1 = m.2) : Inv s' (new ++ ts) where
  gate := by
    rw [hbusy]
    exact List.countP_eq_zero.mpr (List.forall_mem_append.mpr ⟨fun t ht => (hnew t ht).1, hno⟩)
  one := hone
  fits := List.forall_mem_append.mpr
    ⟨fun t ht => (hnew t ht).2, fun t ht => fits_of_not_gate (hno t ht) (hrest t ht)⟩
  current := hcurrent
  fresh hstage _ := hfresh hstage
  marks := hmarks

theorem executions_cons_of_neg (ht : t.isExecution = false) :
    executions (t :: ts) = executions ts :=
  List.countP_cons_of_neg (by simp [ht])

theorem executions_cons_of_pos (ht : t.isExecution) (h : executions ts = 0) :
    executions (t :: ts) = 1 := by
  unfold executions at h ⊢
  rw [List.countP_cons_of_pos ht, h]

theorem marks_snoc {marks : List (Nat × Nat)} {a b : Nat} (h : ∀ m ∈ marks, m.1 = m.2)
    (hab : a = b) : ∀ m ∈ marks ++ [(a, b)], m.1 = m.2 := by
  refine List.forall_mem_append.mpr ⟨h, fun m hm => ?_⟩
  rw [List.mem_singleton.mp hm]
  exact hab

/-- A PUT is handled. -/
theorem handlePut {r : Put} (h : Inv s (.put r :: ts)) (hbusy : s.busy = false) :
    Inv (handlePut o s r).1 ((handlePut o s r).2 ++ ts) := by
  have hrest : Inv s ts := h.drop rfl rfl
  have hno := hrest.no_gate hbusy
  unfold SynchronizationTask.handlePut
  split
  next hpost =>
    split
    next => exact hrest
    next =>
      -- an outdated request
      split
      next hstage =>
        have hfresh := h.fresh hstage hbusy
        refine enter hno hrest.fits rfl rfl hrest.one ⟨hstage, hfresh⟩ ?_
          (marks_snoc h.marks hfresh)
        intro hstarted
        exact absurd (hstage.symm.trans hstarted) nofun
      next => exact hrest
    next body _ =>
      dsimp only
      split
      next hstage =>
        -- a running task is asked to restart
        have hstage' : (putState s.committed body).stage = .started := hstage
        refine leave hno hrest.fits (fun t ht => absurd ht List.not_mem_nil) hbusy ?_
          (fun _ hsub => absurd rfl hsub) (fun hfinished => ?_) h.marks
        · have hone := hrest.one
          rw [hstage] at hone
          show executions ts = if (putState s.committed body).stage = .started then 1 else 0
          rw [hstage']
          exact hone
        · exact absurd (hstage'.symm.trans hfinished) nofun
      next hstage =>
        refine enter hno hrest.fits rfl rfl hrest.one ?_ (fun hstarted => absurd hstarted hstage)
          h.marks
        exact ⟨hstage, rfl, startSubStage_working o⟩
  next => exact hrest

/-- A self-PATCH is handled. The task is `STARTED`, so the transition is valid. -/
theorem handlePatch {body : State} {n : Nat} (h : Inv s (.patch body n :: ts))
    (hbusy : s.busy = false) :
    Inv (handlePatch o s body n).1 ((handlePatch o s body n).2 ++ ts) := by
  obtain ⟨hstage, hnone⟩ := h.other_execution rfl
  obtain ⟨⟨hcreated, hworking⟩, hrest⟩ := List.forall_mem_cons.mp h.fits
  obtain ⟨-, hno⟩ := List.forall_mem_cons.mp (h.no_gate hbusy)
  have hvalid : validateTransition s.committed body = true := by
    unfold validateTransition
    rw [hstage]
    cases hb : body.stage <;> first | rfl | exact absurd hb hcreated
  have hsub : (updateState s.committed body).subStage = body.subStage := by
    obtain ⟨x, hx⟩ := Option.isSome_iff_exists.mp hworking.1
    simp [updateState, hx]
  unfold SynchronizationTask.handlePatch
  rw [if_pos hvalid]
  split
  next hrestart =>
    -- the execution starts over, whatever its PATCH said
    refine leave hno hrest ?_ hbusy (executions_cons_of_pos rfl hnone)
      (fun _ _ => startedAt_cons hnone fun n hn => (Option.some.inj hn).symm) nofun h.marks
    intro t ht
    rw [List.mem_singleton.mp ht]
    exact ⟨nofun, restartSubStage_working o⟩
  next hrestart =>
    have hn : n = s.accepted := h.current hstage hrestart _ (List.mem_cons_self ..) n rfl
    dsimp only
    split
    next hfinished =>
      -- the execution is finished: the factory is marked available
      refine enter hno hrest rfl rfl ?_ ⟨hfinished, hn⟩
        (fun _ _ => startedAt_cons hnone fun m hm => (Option.some.inj hm).symm.trans hn)
        (marks_snoc h.marks hn)
      rw [if_pos hstage]
      exact executions_cons_of_pos rfl hnone
    next hfinished =>
      have hfresh : (updateState s.committed body).stage = .finished → s.finished = s.accepted :=
        fun hstage' => absurd hstage' hfinished
      by_cases hstarted : (updateState s.committed body).stage = .started
      · rw [if_pos hstarted]
        refine leave hno hrest ?_ hbusy ?_
          (fun _ _ => startedAt_cons hnone fun m hm => (Option.some.inj hm).symm.trans hn)
          hfresh h.marks
        · intro t ht
          rw [List.mem_singleton.mp ht]
          refine ⟨nofun, ?_⟩
          show Working (updateState s.committed body).subStage
          rw [hsub]
          exact hworking
        · show _ = if (updateState s.committed body).stage = .started then 1 else 0
          rw [if_pos hstarted]
          exact executions_cons_of_pos rfl hnone
      · rw [if_neg hstarted]
        refine leave hno hrest (fun t ht => absurd ht List.not_mem_nil) hbusy ?_
          (fun hstage' => absurd hstage' hstarted) hfresh h.marks
        show executions ts = if (updateState s.committed body).stage = .started then 1 else 0
        rw [if_neg hstarted]
        exact hnone

/-- The factory is marked unavailable, or cannot be: the execution begins, or its
first PATCH says that it failed. -/
theorem markUnavailable {task : State} {t' : Task} (h : Inv s (.markUnavailable task :: ts))
    (ht' : t' = .handleSubStage task s.accepted ∨
      t' = .patch { task with stage := .failed } s.accepted) :
    Inv { s with busy := false, committed := task } (t' :: ts) := by
  obtain ⟨-, hno⟩ := h.other_gate rfl
  obtain ⟨⟨hstage, hstarted, hworking⟩, hrest⟩ := List.forall_mem_cons.mp h.fits
  have hnone : executions ts = 0 := by
    have hone := h.one
    rwa [if_neg hstage, executions_cons_of_neg rfl] at hone
  have hexec : t'.isExecution = true := by rcases ht' with rfl | rfl <;> rfl
  show Inv _ ([t'] ++ ts)
  refine leave hno hrest ?_ rfl ?_ ?_ ?_ h.marks
  · intro t ht
    rw [List.mem_singleton.mp ht]
    rcases ht' with rfl | rfl
    · exact ⟨nofun, hworking⟩
    · exact ⟨nofun, nofun, hworking⟩
  · rw [if_pos hstarted]
    exact executions_cons_of_pos hexec hnone
  · intro _ _
    refine startedAt_cons hnone fun n hn => ?_
    rcases ht' with rfl | rfl <;> exact (Option.some.inj hn).symm
  · exact fun hfinished => absurd (hstarted.symm.trans hfinished) nofun

/-- The factory is marked available: the execution is over. -/
theorem markAvailable {task : State} {n : Nat} (h : Inv s (.markAvailable task n :: ts)) :
    Inv { s with busy := false, committed := task, finished := n } ts := by
  obtain ⟨-, hno⟩ := h.other_gate rfl
  obtain ⟨-, hnone⟩ := h.other_execution rfl
  obtain ⟨⟨hfinished, hn⟩, hrest⟩ := List.forall_mem_cons.mp h.fits
  have hstage : task.stage ≠ .started := fun hstarted =>
    absurd (hfinished.symm.trans hstarted) nofun
  show Inv _ ([] ++ ts)
  refine leave hno hrest (fun t ht => absurd ht List.not_mem_nil) rfl ?_
    (fun hstarted => absurd hstarted hstage) (fun _ => hn) h.marks
  rw [if_neg hstage]
  exact hnone

theorem markOutdated (h : Inv s (.markOutdated :: ts)) : Inv { s with busy := false } ts := by
  obtain ⟨-, hno⟩ := h.other_gate rfl
  obtain ⟨⟨-, hfresh⟩, hrest⟩ := List.forall_mem_cons.mp h.fits
  show Inv _ ([] ++ ts)
  refine leave hno hrest (fun t ht => absurd ht List.not_mem_nil) rfl ?_ ?_
    (fun _ => hfresh) h.marks
  · have hone := h.one
    rwa [executions_cons_of_neg rfl] at hone
  · exact fun hstage hsub t ht => h.current hstage hsub t (List.mem_cons_of_mem _ ht)

/-- A sub-stage ends with a PATCH. -/
theorem handleSubStage {task body : State} {n : Nat} (h : Inv s (.handleSubStage task n :: ts))
    (hbody : body ∈ emissions task) : Inv s (.patch body n :: ts) where
  gate := h.gate
  one := h.one
  fits := List.forall_mem_cons.mpr
    ⟨emissions_fits hbody, (List.forall_mem_cons.mp h.fits).2⟩
  current hstage hsub := List.forall_mem_cons.mpr
    (List.forall_mem_cons.mp (h.current hstage hsub))
  fresh := h.fresh
  marks := h.marks

theorem fire {a : Answer} {r : Shared × List Task} (hok : MarksSucceed s t a)
    (hfire : fire o s t a = some r) (h : Inv s (t :: ts)) : Inv r.1 (r.2 ++ ts) := by
  unfold SynchronizationTask.fire at hfire
  split at hfire
  next =>
    obtain ⟨hbusy, ⟨⟩⟩ := Option.ite_none_left_eq_some.mp hfire
    exact h.handlePut (by simpa using hbusy)
  next =>
    obtain ⟨hbusy, ⟨⟩⟩ := Option.ite_none_left_eq_some.mp hfire
    exact h.handlePatch (by simpa using hbusy)
  next =>
    obtain ⟨hbody, ⟨⟩⟩ := Option.ite_none_right_eq_some.mp hfire
    exact h.handleSubStage hbody
  next =>
    obtain ⟨hnil, -⟩ := Option.ite_none_right_eq_some.mp hfire
    exact absurd hnil (emissions_ne_nil (h.fits _ (List.mem_cons_self ..)))
  next =>
    cases hfire
    exact h.markUnavailable (Or.inl rfl)
  next =>
    cases hfire
    exact h.markUnavailable (Or.inr rfl)
  next =>
    cases hfire
    exact h.markAvailable
  next => exact absurd rfl hok
  next =>
    cases hfire
    exact h.markOutdated
  next => exact absurd rfl hok
  next => exact absurd (h.fits _ (List.mem_cons_self ..)) id
  next => cases hfire

end Inv

section Runs

variable {o : Options} {queryResultLimit : Int} {p : Pool Shared Task}

theorem reaches_inv (h : (service o).Reaches MarksSucceed (start queryResultLimit) p) :
    Inv p.shared p.tasks := by
  apply Machine.invariant Inv h Inv.perm
  case init =>
    exact ⟨rfl, rfl, fun t ht => absurd ht List.not_mem_nil,
      fun _ _ t ht => absurd ht List.not_mem_nil, nofun, fun m hm => absurd hm List.not_mem_nil⟩
  case input =>
    intro s ts r hinv
    exact
      { gate := hinv.gate
        one := hinv.one
        fits := List.forall_mem_cons.mpr ⟨trivial, hinv.fits⟩
        current := fun hstage hsub => List.forall_mem_cons.mpr
          ⟨fun n hn => absurd hn (Option.not_mem_none n), hinv.current hstage hsub⟩
        fresh := hinv.fresh
        marks := hinv.marks }
  case fire =>
    intro s t ts a r hok hfire hinv
    exact hinv.fire hok hfire

/-- In every state of every run in which no request to mark the factory available
fails: one execution is in progress if the stage is `STARTED`, and none otherwise; and
whenever the factory was marked available, the execution that had finished was started
or restarted after the last PUT that had been accepted. -/
theorem one_execution (h : (service o).Reaches MarksSucceed (start queryResultLimit) p) :
    executions p.tasks = (if p.shared.committed.stage = .started then 1 else 0) ∧
      ∀ m ∈ p.shared.marks, m.1 = m.2 := by
  have hinv := reaches_inv h
  exact ⟨hinv.one, hinv.marks⟩

/-- The PUT and the PATCH bodies of the examples below, without replication. -/
def examplePut : Put := ⟨true, some ⟨10, none⟩⟩

def exampleBody (stage : TaskStage) (subStage : SubStage) : State := ⟨stage, some subStage, none, 10⟩

def exampleOptions : Options := ⟨false, false, false, false, false⟩

/-- A task that is started, asked to restart, and runs to its end; the first PATCH that
it would have finished with starts it over. -/
def exampleEvents : List (PoolEvent Put Answer) :=
  [.input examplePut, .fire 0 .done, .fire 0 .done,
    .fire 0 (.emit (exampleBody .started .checkNgAvailability)),
    .input examplePut, .fire 0 .done, .fire 0 .done,
    .fire 0 (.emit (exampleBody .started .checkNgAvailability)), .fire 0 .done,
    .fire 0 (.emit (exampleBody .finished .checkNgAvailability)), .fire 0 .done]

instance (s : Shared) (a : Answer) : ∀ t : Task, Decidable (MarksSucceed s t a)
  | .markAvailable _ _ | .markOutdated => inferInstanceAs (Decidable (a ≠ .failed))
  | .put _ | .markUnavailable _ | .handleSubStage _ _ | .patch _ _ | .expire =>
      inferInstanceAs (Decidable True)

theorem one_execution_restarted : ∃ p : Pool Shared Task,
    p.shared.marks = [(2, 2)] ∧
      executions p.tasks = (if p.shared.committed.stage = .started then 1 else 0) ∧
      ∀ m ∈ p.shared.marks, m.1 = m.2 := by
  have hexec : ∃ p, (service exampleOptions).exec MarksSucceed (start 10) exampleEvents = some p ∧
      p.shared.marks = [(2, 2)] := ⟨_, rfl, rfl⟩
  obtain ⟨p, hp, hmarks⟩ := hexec
  exact ⟨p, hmarks, one_execution (Machine.reaches_of_exec hp)⟩

/-- Marking the factory available fails after the task has finished; the PATCH that
says so reaches the task after the next PUT has started it again. An execution is in
progress and the stage is `FAILED`. -/
theorem stray_patch_hits_next_execution : ∃ p : Pool Shared Task,
    (service exampleOptions).Reaches (fun _ _ _ => True) (start 10) p ∧
      p.shared.committed.stage = .failed ∧ executions p.tasks = 1 := by
  have hexec : ∃ p, (service exampleOptions).exec (fun _ _ _ => True) (start 10)
      [.input examplePut, .fire 0 .done, .fire 0 .done,
        .fire 0 (.emit (exampleBody .started .checkNgAvailability)), .fire 0 .done,
        .fire 0 (.emit (exampleBody .finished .checkNgAvailability)), .fire 0 .done,
        .fire 0 .failed, .input examplePut, .fire 0 .done, .fire 0 .done, .fire 1 .done] = some p ∧
      p.shared.committed.stage = .failed ∧ executions p.tasks = 1 := ⟨_, rfl, rfl, rfl⟩
  obtain ⟨p, hp, hstage⟩ := hexec
  exact ⟨p, Machine.reaches_of_exec hp, hstage⟩

end Runs

end Xenon.SynchronizationTask
