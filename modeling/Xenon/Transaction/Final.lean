import Mathlib.Data.List.Count
import Xenon.Transaction.Coordinator

/-!
# The outcome of a transaction

A coordinator that is committing never aborts and one that is aborting never commits:
the guards of the resolution requests see to it. `COMMITTED` and `ABORTED` are final as
long as the coordinator resolves conflicts only once. A second COMMIT that is handled
in the sub-stage `RESOLVING` makes it send itself a second COMMITTING, which can reach
it when it is already `COMMITTED`.
-/

namespace Xenon.Transaction

open Foundation

variable {L : Type*}

/-- Whether the task can make the coordinator commit: the conflict checks are under way
or done. -/
def Task.leadsToCommit : Task L → Bool
  | .resolve .committing | .awaitChecks _ _ _ => true
  | _ => false

/-- What a task says about the sub-stage. -/
def Fits (stage : SubStage) : Task L → Prop
  | .resolve .committed => stage.commits
  | .resolve .aborted => stage.aborts
  | .awaitServices kind _ _ => (kind = .commit ∧ stage.commits) ∨ (kind = .abort ∧ stage.aborts)
  | _ => True

/-- What a run does to the sub-stage. -/
structure Follows (stage stage' : SubStage) : Prop where
  commits : stage.commits → stage'.commits
  aborts : stage.aborts → stage'.aborts
  committed : stage = .committed → stage' = .committed
  aborted : stage = .aborted → stage' = .aborted

/-- The conflicts are resolved at most once, before the coordinator commits. -/
structure Inv (s : Shared L) (ts : List (Task L)) : Prop where
  fits : ∀ t ∈ ts, Fits s.state.taskSubStage t
  once : ts.countP Task.leadsToCommit ≤ 1
  before : s.state.taskSubStage = .collecting ∨ s.state.taskSubStage.commits →
    ts.countP Task.leadsToCommit = 0

section Stages

variable {stage stage' stage'' : SubStage} {t : Task L}

theorem Follows.refl : Follows stage stage := ⟨id, id, id, id⟩

theorem Follows.trans (h : Follows stage stage') (h' : Follows stage' stage'') :
    Follows stage stage'' :=
  ⟨h'.commits ∘ h.commits, h'.aborts ∘ h.aborts, h'.committed ∘ h.committed,
    h'.aborted ∘ h.aborted⟩

/-- From an open sub-stage everything can follow. -/
theorem Follows.of_open (h : stage = .collecting ∨ stage = .resolving) : Follows stage stage' := by
  rcases h with rfl | rfl
  · exact ⟨nofun, nofun, nofun, nofun⟩
  · exact ⟨nofun, nofun, nofun, nofun⟩

theorem Follows.committed_of_commits (h : stage.commits) : Follows stage .committed where
  commits _ := rfl
  aborts haborts := by
    rw [SubStage.not_aborts_of_commits h] at haborts
    cases haborts
  committed _ := rfl
  aborted hstage := by
    subst hstage
    cases h

theorem Follows.aborted_of_aborts (h : stage.aborts) : Follows stage .aborted where
  commits hcommits := by
    rw [SubStage.not_aborts_of_commits hcommits] at h
    cases h
  aborts _ := rfl
  committed hstage := by
    subst hstage
    cases h
  aborted _ := rfl

theorem Fits.mono (h : Fits stage t) (hstage : Follows stage stage') : Fits stage' t := by
  match t with
  | .resolve .committed => exact hstage.commits h
  | .resolve .aborted => exact hstage.aborts h
  | .resolve .commit | .resolve .abort | .resolve .committing => trivial
  | .awaitServices _ _ _ =>
      rcases h with ⟨hkind, h⟩ | ⟨hkind, h⟩
      · exact Or.inl ⟨hkind, hstage.commits h⟩
      · exact Or.inr ⟨hkind, hstage.aborts h⟩
  | .put _ | .checkConflicts _ _ | .awaitChecks _ _ _ => trivial

theorem countP_singleton_of_not (h : t.leadsToCommit = false) : [t].countP Task.leadsToCommit = 0 := by
  simp [h]

end Stages

/-! ## What the handlers send -/

section Joins

/-- The answer to a conflict check leads to a PATCH that aborts, to the next answer, or to
a PATCH that commits. -/
theorem checkAnswered_tasks (conflict failures continueWithCommit : Bool)
    (checks : List (ConflictCheck L)) :
    let new : List (Task L) := (if conflict then [.resolve .abort] else []) ++
      if checks.isEmpty then (conflictsChecked failures continueWithCommit).map .resolve
      else [.awaitChecks checks failures continueWithCommit]
    (∀ t ∈ new, ∀ stage, Fits stage t) ∧ new.countP Task.leadsToCommit ≤ 1 := by
  unfold conflictsChecked
  split_ifs <;> simp [Fits, Task.leadsToCommit]

theorem servicesNotified_fits {kind : ResolutionKind} {messages : List (Message L)}
    {failures failures' : Bool} {stage : SubStage}
    (h : Fits stage (.awaitServices kind messages failures : Task L)) :
    Fits stage (.resolve (servicesNotified kind failures') : Task L) := by
  rcases h with ⟨rfl, h⟩ | ⟨rfl, h⟩
  · cases failures'
    · exact h
    · trivial
  · exact h

theorem servicesNotified_leads (kind : ResolutionKind) (failures : Bool) :
    (Task.resolve (servicesNotified kind failures) : Task L).leadsToCommit = false := by
  unfold servicesNotified
  split_ifs <;> rfl

end Joins

section Effects

variable [LinearOrder L] {s : State L}

theorem handleAbort_task : ∃ t : Task L, (handleAbort s).map Effect.task = [t] ∧
    t.leadsToCommit = false ∧ ∀ {stage : SubStage}, stage.aborts → Fits stage t := by
  unfold handleAbort
  dsimp only
  split
  · exact ⟨.resolve .aborted, rfl, rfl, id⟩
  · exact ⟨.awaitServices .abort _ false, rfl, rfl, fun h => Or.inr ⟨rfl, h⟩⟩

theorem notifyServicesToCommit_task : ∃ t : Task L,
    (notifyServicesToCommit s).map Effect.task = [t] ∧ t.leadsToCommit = false ∧
      ∀ {stage : SubStage}, stage.commits → Fits stage t := by
  unfold notifyServicesToCommit
  dsimp only
  split
  · exact ⟨.resolve .committed, rfl, rfl, id⟩
  · exact ⟨.awaitServices .commit _ false, rfl, rfl, fun h => Or.inl ⟨rfl, h⟩⟩

theorem handleCommit_task (self : L) : ∃ t : Task L,
    (handleCommit self s).map Effect.task = [t] ∧ ∀ stage, Fits stage t := by
  unfold handleCommit checkPotentialConflicts
  dsimp only
  split
  · exact ⟨.resolve .abort, rfl, fun _ => trivial⟩
  · split
    · exact ⟨.resolve .committing, rfl, fun _ => trivial⟩
    · exact ⟨.awaitChecks _ false true, rfl, fun _ => trivial⟩

end Effects

/-! ## One step -/

namespace Inv

variable {s s' : Shared L} {t : Task L} {ts ts' new : List (Task L)}

theorem perm (hp : ts.Perm ts') (h : Inv s ts) : Inv s ts' where
  fits t ht := h.fits t (hp.mem_iff.mpr ht)
  once := hp.countP_eq Task.leadsToCommit ▸ h.once
  before hstage := hp.countP_eq Task.leadsToCommit ▸ h.before hstage

/-- A COMMITTING that is on its way is the first one. -/
theorem open_of_committing (h : Inv s (.resolve .committing :: ts))
    (haborts : s.state.taskSubStage.aborts = false) :
    s.state.taskSubStage = .collecting ∨ s.state.taskSubStage = .resolving := by
  refine isOpen_iff.mp ⟨?_, haborts⟩
  by_contra hcommits
  have hzero := h.before (Or.inr (by simpa using hcommits))
  rw [List.countP_cons_of_pos rfl] at hzero
  exact Nat.succ_ne_zero _ hzero

/-- A task is replaced by others that do not lead to a commit where it does not. -/
theorem replace (h : Inv s (t :: ts))
    (hstage : Follows s.state.taskSubStage s'.state.taskSubStage)
    (hnew : ∀ t ∈ new, Fits s'.state.taskSubStage t)
    (hcount : new.countP Task.leadsToCommit ≤ [t].countP Task.leadsToCommit)
    (hbefore : s'.state.taskSubStage = .collecting ∨ s'.state.taskSubStage.commits →
      (new ++ ts).countP Task.leadsToCommit = 0) : Inv s' (new ++ ts) where
  fits t' ht' := by
    rw [List.mem_append] at ht'
    rcases ht' with ht' | ht'
    · exact hnew t' ht'
    · exact (h.fits t' (List.mem_cons_of_mem _ ht')).mono hstage
  once := by
    have hone := h.once
    rw [← List.singleton_append, List.countP_append] at hone
    rw [List.countP_append]
    omega
  before := hbefore

/-- The sub-stage stays as it is. -/
theorem replace_same (h : Inv s (t :: ts)) (hstage : s'.state.taskSubStage = s.state.taskSubStage)
    (hnew : ∀ t ∈ new, Fits s.state.taskSubStage t)
    (hcount : new.countP Task.leadsToCommit ≤ [t].countP Task.leadsToCommit) :
    Inv s' (new ++ ts) := by
  refine h.replace (hstage ▸ Follows.refl) (hstage ▸ hnew) hcount fun hbefore => ?_
  rw [hstage] at hbefore
  have hzero := h.before hbefore
  rw [← List.singleton_append, List.countP_append] at hzero
  rw [List.countP_append]
  omega

end Inv

theorem inv_start {allowErrorsCauseAbort : Bool} : Inv (start allowErrorsCauseAbort : Pool (Shared L) (Task L)).shared
    (start allowErrorsCauseAbort : Pool (Shared L) (Task L)).tasks where
  fits _ ht := absurd ht List.not_mem_nil
  once := Nat.zero_le _
  before _ := rfl

section Step

variable [LinearOrder L] {self : L} {s : Shared L} {t : Task L} {ts : List (Task L)}

/-- The coordinator aborts. -/
theorem Inv.handleAbort (h : Inv s (t :: ts))
    (hopen : s.state.taskSubStage = .collecting ∨ s.state.taskSubStage = .resolving) :
    Inv (s.advance { s.state with taskSubStage := .aborting } (handleAbort s.state)).1
      ((s.advance { s.state with taskSubStage := .aborting } (Transaction.handleAbort s.state)).2 ++
        ts) := by
  obtain ⟨t', ht', hleads, hfits⟩ := handleAbort_task (s := s.state)
  show Inv _ ((Transaction.handleAbort s.state).map Effect.task ++ ts)
  rw [ht']
  refine h.replace (Follows.of_open hopen) (List.forall_mem_singleton.mpr (hfits rfl)) ?_ nofun
  rw [countP_singleton_of_not hleads]
  exact Nat.zero_le _

/-- A resolution request is handled. -/
theorem Inv.handlePatch {kind : ResolutionKind} {r : State L × List (Effect L)}
    (h : Inv s (.resolve kind :: ts)) (hok : CommitOnce s (.resolve kind) .done)
    (hr : handlePatch self s.state kind = .ok r) :
    Inv (s.advance r.1 r.2).1 ((s.advance r.1 r.2).2 ++ ts) ∧
      Follows s.state.taskSubStage r.1.taskSubStage := by
  have hfits := h.fits _ (List.mem_cons_self ..)
  rcases handlePatch_cases hr with rfl | ⟨rfl, hopen, rfl⟩ | ⟨rfl, hopen, rfl⟩ |
    ⟨rfl, haborts, rfl⟩ | ⟨rfl, rfl⟩ | ⟨rfl, rfl⟩
  · exact ⟨h.replace_same rfl (List.forall_mem_nil _) (Nat.zero_le _), Follows.refl⟩
  · exact ⟨h.handleAbort hopen, Follows.of_open hopen⟩
  · -- COMMIT: the conflicts are resolved for the first time
    have hcollecting : s.state.taskSubStage = .collecting :=
      hopen.resolve_right (hok rfl)
    have hzero : ts.countP Task.leadsToCommit = 0 := h.before (Or.inl hcollecting)
    obtain ⟨t', ht', hfits'⟩ := handleCommit_task (s := s.state) self
    refine ⟨?_, Follows.of_open hopen⟩
    show Inv _ ((handleCommit self s.state).map Effect.task ++ ts)
    rw [ht']
    exact
      { fits := List.forall_mem_cons.mpr ⟨hfits' _, fun t ht =>
          (h.fits t (List.mem_cons_of_mem _ ht)).mono (Follows.of_open hopen)⟩
        once := by
          rw [List.countP_append, hzero]
          exact List.countP_le_length
        before := nofun }
  · have hopen := h.open_of_committing haborts
    have hone := h.once
    rw [List.countP_cons_of_pos rfl] at hone
    obtain ⟨t', ht', hleads, hfits'⟩ := notifyServicesToCommit_task (s := s.state)
    refine ⟨?_, Follows.of_open hopen⟩
    show Inv _ ((notifyServicesToCommit s.state).map Effect.task ++ ts)
    rw [ht']
    refine h.replace (Follows.of_open hopen) (List.forall_mem_singleton.mpr (hfits' rfl)) ?_ fun _ => ?_
    · rw [countP_singleton_of_not hleads]
      exact Nat.zero_le _
    · rw [List.countP_append, countP_singleton_of_not hleads]
      omega
  · have hfollows := Follows.committed_of_commits hfits
    refine ⟨h.replace hfollows (List.forall_mem_nil _) (Nat.zero_le _) fun _ => ?_, hfollows⟩
    exact h.before (Or.inr hfits)
  · have hfollows := Follows.aborted_of_aborts hfits
    exact ⟨h.replace hfollows (List.forall_mem_nil _) (Nat.zero_le _) nofun, hfollows⟩

theorem Inv.fire {a : Answer} {r : Shared L × List (Task L)} (hok : CommitOnce s t a)
    (hfire : fire self s t a = some r) (h : Inv s (t :: ts)) :
    Inv r.1 (r.2 ++ ts) ∧ Follows s.state.taskSubStage r.1.state.taskSubStage := by
  have hfits := h.fits _ (List.mem_cons_self ..)
  unfold Transaction.fire at hfire
  split at hfire
  next kind =>
    split at hfire <;> cases hfire
    · exact ⟨h.replace_same rfl (List.forall_mem_nil _) (Nat.zero_le _), Follows.refl⟩
    next r hr => exact h.handlePatch hok hr
  next =>
    cases hfire
    exact ⟨h.replace_same rfl (List.forall_mem_nil _) (Nat.zero_le _), Follows.refl⟩
  next txLink serviceLink =>
    cases hfire
    rcases handleCheckConflicts_cases self s.state txLink serviceLink with
      ⟨hopen, -, hr⟩ | ⟨-, hr⟩
    · rw [hr]
      exact ⟨h.handleAbort hopen, Follows.of_open hopen⟩
    · rw [hr]
      exact ⟨h.replace_same rfl (List.forall_mem_nil _) (Nat.zero_le _), Follows.refl⟩
  next checks failures continueWithCommit n res =>
    obtain ⟨check, -, rfl⟩ := Option.map_eq_some_iff.mp hfire
    obtain ⟨hnew, hcount⟩ := checkAnswered_tasks (isConflict self check.coordinator res)
      (failures || res.isNone) (continueWithCommit && !isConflict self check.coordinator res)
      (checks.eraseIdx n)
    exact ⟨h.replace_same rfl (fun t' ht' => hnew t' ht' _) hcount, Follows.refl⟩
  next kind messages failures n success =>
    obtain ⟨message, -, rfl⟩ := Option.map_eq_some_iff.mp hfire
    dsimp only
    split
    · refine ⟨h.replace_same rfl (List.forall_mem_singleton.mpr ?_) ?_, Follows.refl⟩
      · exact servicesNotified_fits hfits
      · rw [countP_singleton_of_not (servicesNotified_leads kind _)]
        exact Nat.zero_le _
    · exact ⟨h.replace_same rfl (List.forall_mem_singleton.mpr hfits) (le_refl 0), Follows.refl⟩
  next => cases hfire

end Step

/-! ## Runs -/

section Runs

variable [LinearOrder L] {self : L} {allowErrorsCauseAbort : Bool}
  {p p₀ q : Pool (Shared L) (Task L)}

theorem Inv.input {s : Shared L} {ts : List (Task L)} (i : Input L) (h : Inv s ts) :
    Inv ((coordinator self).input s i).1 (((coordinator self).input s i).2 ++ ts) := by
  cases i <;> exact
    { fits := List.forall_mem_cons.mpr ⟨trivial, h.fits⟩
      once := h.once
      before := h.before }

theorem Inv.follows (h : (coordinator self).Reaches CommitOnce p₀ p) (hinv : Inv p₀.shared p₀.tasks) :
    Inv p.shared p.tasks ∧
      Follows p₀.shared.state.taskSubStage p.shared.state.taskSubStage := by
  apply Machine.invariant
    (fun s ts => Inv s ts ∧ Follows p₀.shared.state.taskSubStage s.state.taskSubStage) h
  case perm =>
    intro s ts ts' hp ⟨hinv, hstage⟩
    exact ⟨hinv.perm hp, hstage⟩
  case init => exact ⟨hinv, Follows.refl⟩
  case input =>
    intro s ts i ⟨hinv, hstage⟩
    refine ⟨hinv.input i, ?_⟩
    cases i <;> exact hstage
  case fire =>
    intro s t ts a r hok hfire ⟨hinv, hstage⟩
    obtain ⟨hinv', hstage'⟩ := hinv.fire hok hfire
    exact ⟨hinv', hstage.trans hstage'⟩

/-- In every run of a coordinator in which no COMMIT is handled in the sub-stage
`RESOLVING`: it is never committing or committed at one time and aborting or aborted at
another, and once it is `COMMITTED` or `ABORTED` its sub-stage does not change any more. -/
theorem outcome_final (h : (coordinator self).Reaches CommitOnce (start allowErrorsCauseAbort) p)
    (h' : (coordinator self).Reaches CommitOnce p q) :
    ¬(p.shared.state.taskSubStage.commits ∧ q.shared.state.taskSubStage.aborts) ∧
      ¬(p.shared.state.taskSubStage.aborts ∧ q.shared.state.taskSubStage.commits) ∧
      (p.shared.state.taskSubStage = .committed ∨ p.shared.state.taskSubStage = .aborted →
        q.shared.state.taskSubStage = p.shared.state.taskSubStage) := by
  have hinv := (Inv.follows h inv_start).1
  have hstage := (Inv.follows h' hinv).2
  refine ⟨?_, ?_, ?_⟩
  · rintro ⟨hcommits, haborts⟩
    have := SubStage.not_aborts_of_commits (hstage.commits hcommits)
    rw [haborts] at this
    cases this
  · rintro ⟨haborts, hcommits⟩
    have := SubStage.not_aborts_of_commits hcommits
    rw [hstage.aborts haborts] at this
    cases this
  · rintro (hcommitted | haborted)
    · rw [hcommitted, hstage.committed hcommitted]
    · rw [haborted, hstage.aborted haborted]

/-- The record, and the requests of a client, of the runs below. -/
def exampleEvents : List (PoolEvent (Input String) Answer) :=
  [.input (.put ⟨"/examples/s", .put, some ["/tx/a"], true⟩), .fire 0 .done,
    .input .commit, .fire 0 .done, .fire 0 .done, .fire 0 (.notified 0 true), .fire 0 .done]

theorem outcome_final_committed : ∃ p q : Pool (Shared String) (Task String),
    p.shared.state.taskSubStage = .committed ∧
      (coordinator "/tx/a").Reaches CommitOnce p q ∧ q.shared.state.taskSubStage = .committed := by
  have hexec : ∃ p, (coordinator "/tx/a").exec CommitOnce (start true) exampleEvents = some p ∧
      p.shared.state.taskSubStage = .committed := ⟨_, rfl, rfl⟩
  obtain ⟨p, hp, hstage⟩ := hexec
  have habort : ∃ q, (coordinator "/tx/a").Reaches CommitOnce p q :=
    ⟨_, [.input .abort], Reach.refl.snoc trivial rfl⟩
  obtain ⟨q, hq⟩ := habort
  have hfinal := (outcome_final (Machine.reaches_of_exec hp) hq).2.2 (Or.inl hstage)
  exact ⟨p, q, hstage, hq, hfinal.trans hstage⟩

/-- Two COMMITs are handled before the first COMMITTING: the second COMMITTING finds the
coordinator committed and takes it back to `COMMITTING`. -/
theorem committed_is_taken_back : ∃ p q : Pool (Shared String) (Task String),
    (coordinator "/tx/a").Reaches (fun _ _ _ => True) (start true) p ∧
      (coordinator "/tx/a").Reaches (fun _ _ _ => True) p q ∧
      p.shared.state.taskSubStage = .committed ∧ q.shared.state.taskSubStage = .committing := by
  have hexec : ∃ p q, (coordinator "/tx/a").exec (fun _ _ _ => True) (start true)
      [.input .commit, .input .commit, .fire 0 .done, .fire 1 .done, .fire 0 .done,
        .fire 0 .done] = some p ∧
      (coordinator "/tx/a").exec (fun _ _ _ => True) p [.fire 0 .done] = some q ∧
      p.shared.state.taskSubStage = .committed ∧ q.shared.state.taskSubStage = .committing :=
    ⟨_, _, rfl, rfl, rfl, rfl⟩
  obtain ⟨p, q, hp, hq, hstages⟩ := hexec
  exact ⟨p, q, Machine.reaches_of_exec hp, Machine.reaches_of_exec hq, hstages⟩

end Runs

end Xenon.Transaction
