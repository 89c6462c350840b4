import Xenon.Transaction.Messages

/-!
# Transactions that modify the same service

Any number of coordinators, and the services on which their transactions work. A service
knows the transactions that are pending on it. It reports an operation to the coordinator
of the transaction together with the pending transactions, and accepts the next operation
when the coordinator has recorded it. The notification to commit or to abort takes the
transaction out of the pending ones.

Two transactions conflict if both have modified a service and one of them was told of the
other. A coordinator that commits asks the coordinators that it was told of, and the
conflict is settled by the order of the links, unless one of them is on its way to an end
already. But of each service a coordinator remembers only what the last record told it:
when a transaction works on the service again after the other one has committed, it
forgets the conflict.
-/

namespace Xenon.Transaction.Conflicts

open Common Foundation

variable {L : Type*}

/-- Both transactions have modified the service, and the first was told of the second. -/
structure Conflict (L : Type*) where
  tx : L
  serviceLink : L
  peer : L
deriving DecidableEq

structure Shared (L : Type*) where
  coordinators : L → State L
  /-- The `txCoordinatorLinks` of the services. -/
  txCoordinatorLinks : L → List L
  /-- The service waits for a coordinator to record an operation. -/
  isProcessing : L → Bool
  /-- The history of the conflicts. -/
  conflicts : List (Conflict L)

inductive Task (L : Type*) where
  /-- An operation of a transaction is on its way to a service. -/
  | request (tx serviceLink : L) (action : Action) (isSuccessful : Bool)
  /-- The record of an operation is on its way to the coordinator. -/
  | put (tx : L) (record : TransactionContext L)
  /-- A resolution request is on its way to the coordinator. -/
  | resolve (tx : L) (kind : ResolutionKind)
  /-- The join of the conflict checks: those that are on their way, and the answers that
  are. -/
  | awaitChecks (tx : L) (requests : List (ConflictCheck L))
      (responses : List (ConflictCheck L × Option ConflictCheckResponse))
      (failures continueWithCommit : Bool)
  /-- The join of the messages to services. -/
  | awaitServices (tx : L) (kind : ResolutionKind) (messages : List (Message L)) (failures : Bool)

inductive Input (L : Type*) where
  | request (tx serviceLink : L) (action : Action) (isSuccessful : Bool)
  | commit (tx : L)
  | abort (tx : L)

inductive Answer where
  | done
  | failed
  /-- The `n`-th conflict check reaches its coordinator. -/
  | deliver (n : Nat)
  /-- The `n`-th conflict check is lost. -/
  | lose (n : Nat)
  /-- The `n`-th answer arrives, or is lost. -/
  | respond (n : Nat) (lost : Bool)
  /-- The `n`-th message is answered: whether the service has handled it, and whether
  the answer is a success. -/
  | notified (n : Nat) (handled success : Bool)

section Machine

variable [LinearOrder L]

def Shared.set (s : Shared L) (tx : L) (state : State L) : Shared L :=
  { s with coordinators := Function.update s.coordinators tx state }

def task (tx : L) : Effect L → Task L
  | .selfPatch kind => .resolve tx kind
  | .checkConflicts checks => .awaitChecks tx checks [] false true
  | .notifyServices kind messages => .awaitServices tx kind messages false

/-- The conflicts that a record tells the coordinator of. -/
def told (s : Shared L) (tx : L) (record : TransactionContext L) : List (Conflict L) :=
  if record.serviceLink ∈ (handlePut (s.coordinators tx) record).modifiedLinks then
    ((record.coordinatorLinks.getD []).filter fun peer =>
      peer ≠ tx ∧ record.serviceLink ∈ (s.coordinators peer).modifiedLinks).map
        (⟨tx, record.serviceLink, ·⟩)
  else []

/-- What a service does to its pending transactions. A service that is deleted has none. -/
def handleMessage (tx : L) (pending : List L) : Notification → List L
  | .delete => []
  | .commit | .abort => pending.filter (· ≠ tx)

def awaitChecks (tx : L) (requests : List (ConflictCheck L))
    (responses : List (ConflictCheck L × Option ConflictCheckResponse))
    (failures continueWithCommit : Bool) : List (Task L) :=
  if requests.isEmpty && responses.isEmpty then
    (conflictsChecked failures continueWithCommit).map (.resolve tx)
  else [.awaitChecks tx requests responses failures continueWithCommit]

def fire (s : Shared L) (t : Task L) (a : Answer) : Option (Shared L × List (Task L)) :=
  match t, a with
  | .request tx serviceLink action isSuccessful, .done =>
      if s.isProcessing serviceLink then none
      else
        let pending := (s.txCoordinatorLinks serviceLink).insert tx
        some ({ s with
            txCoordinatorLinks := Function.update s.txCoordinatorLinks serviceLink pending
            isProcessing := Function.update s.isProcessing serviceLink true },
          [.put tx ⟨serviceLink, action, some pending, isSuccessful⟩])
  | .put tx record, .done =>
      some ({ s.set tx (handlePut (s.coordinators tx) record) with
          isProcessing := Function.update s.isProcessing record.serviceLink false
          conflicts := s.conflicts ++ told s tx record }, [])
  | .put _ record, .failed =>
      some ({ s with isProcessing := Function.update s.isProcessing record.serviceLink false }, [])
  | .resolve tx kind, .done =>
      match handlePatch tx (s.coordinators tx) kind with
      | .error _ => some (s, [])
      | .ok r => some (s.set tx r.1, r.2.map (task tx))
  | .awaitChecks tx requests responses failures continueWithCommit, .deliver n =>
      requests[n]?.map fun check =>
        let peer := check.coordinator
        let r := handleCheckConflicts peer (s.coordinators peer) tx check.serviceLink
        (s.set peer r.1,
          awaitChecks tx (requests.eraseIdx n) (responses ++ [(check, some r.2.1)]) failures
            continueWithCommit ++ r.2.2.map (task peer))
  | .awaitChecks tx requests responses failures continueWithCommit, .lose n =>
      requests[n]?.map fun check =>
        (s, awaitChecks tx (requests.eraseIdx n) (responses ++ [(check, none)]) failures
          continueWithCommit)
  | .awaitChecks tx requests responses failures continueWithCommit, .respond n lost =>
      responses[n]?.map fun response =>
        let res := if lost then none else response.2
        let conflict := isConflict tx response.1.coordinator res
        (s, (if conflict then [.resolve tx .abort] else []) ++
          awaitChecks tx requests (responses.eraseIdx n) (failures || res.isNone)
            (continueWithCommit && !conflict))
  | .awaitServices tx kind messages failures, .notified n handled success =>
      messages[n]?.map fun message =>
        let failures := failures || !success
        let messages := messages.eraseIdx n
        let pending := s.txCoordinatorLinks message.service
        ({ s with
            txCoordinatorLinks := Function.update s.txCoordinatorLinks message.service
              (if handled then handleMessage tx pending message.notification else pending) },
          if messages.isEmpty then [.resolve tx (servicesNotified kind failures)]
          else [.awaitServices tx kind messages failures])
  | _, _ => none

def system : Machine (Shared L) (Task L) (Input L) Answer where
  input s i :=
    match i with
    | .request tx serviceLink action isSuccessful =>
        (s, [.request tx serviceLink action isSuccessful])
    | .commit tx => (s, [.resolve tx .commit])
    | .abort tx => (s, [.resolve tx .abort])
  fire := fire

/-- All coordinators are started; `allowErrorsCauseAbort` is their option. -/
def start (allowErrorsCauseAbort : L → Bool) : Pool (Shared L) (Task L) :=
  ⟨⟨fun tx => handleStart (allowErrorsCauseAbort tx), fun _ => [], fun _ => false, []⟩, []⟩

end Machine

/-! ## The guards -/

def stage (s : Shared L) (tx : L) : SubStage := (s.coordinators tx).taskSubStage

/-- An operation is recorded before the COMMIT of its transaction is handled. -/
def RecordedInTime (s : Shared L) (t : Task L) (a : Answer) : Prop :=
  match t, a with
  | .put tx _, .done => stage s tx ≠ .resolving ∧ (stage s tx).commits = false
  | _, _ => True

/-- A record does not leave out a transaction that it conflicts with on the service, unless
that one is aborting or aborted. -/
def ConflictsKept (s : Shared L) (t : Task L) (a : Answer) : Prop :=
  match t, a with
  | .put tx record, .done => ∀ links ∈ record.coordinatorLinks, ∀ c ∈ s.conflicts,
      c.tx = tx → c.serviceLink = record.serviceLink → c.peer ∈ links ∨ (stage s c.peer).aborts
  | _, _ => True

instance (s : Shared L) : ∀ (t : Task L) (a : Answer), Decidable (RecordedInTime s t a)
  | .put _ _, .done => inferInstanceAs (Decidable (_ ∧ _))
  | .put _ _, .failed | .put _ _, .deliver _ | .put _ _, .lose _ | .put _ _, .respond _ _
  | .put _ _, .notified _ _ _ | .request _ _ _ _, _ | .resolve _ _, _ | .awaitChecks _ _ _ _ _, _
  | .awaitServices _ _ _ _, _ => inferInstanceAs (Decidable True)

instance [DecidableEq L] (s : Shared L) : ∀ (t : Task L) (a : Answer), Decidable (ConflictsKept s t a)
  | .put tx record, .done => inferInstanceAs (Decidable (∀ links ∈ record.coordinatorLinks,
      ∀ c ∈ s.conflicts, c.tx = tx → c.serviceLink = record.serviceLink →
        c.peer ∈ links ∨ (stage s c.peer).aborts))
  | .put _ _, .failed | .put _ _, .deliver _ | .put _ _, .lose _ | .put _ _, .respond _ _
  | .put _ _, .notified _ _ _ | .request _ _ _ _, _ | .resolve _ _, _ | .awaitChecks _ _ _ _ _, _
  | .awaitServices _ _ _ _, _ => inferInstanceAs (Decidable True)

/-! ## The invariant -/

/-- All transactions that `tx` conflicts with are aborting or aborted. -/
def Cleared (s : Shared L) (tx : L) : Prop :=
  ∀ c ∈ s.conflicts, c.tx = tx → (stage s c.peer).aborts

/-- What a task says about the coordinators. A coordinator that has not aborted sends
COMMITTING only if it is cleared; while it asks, a conflict is settled, still to be
asked about, or in an answer that will stop it. -/
def Fits [LinearOrder L] (s : Shared L) : Task L → Prop
  | .resolve tx .committing => (stage s tx).aborts ∨ (stage s tx ≠ .collecting ∧ Cleared s tx)
  | .resolve tx .committed => (stage s tx).commits
  | .resolve tx .aborted => (stage s tx).aborts
  | .awaitServices tx kind _ _ =>
      (kind = .commit ∧ (stage s tx).commits) ∨ (kind = .abort ∧ (stage s tx).aborts)
  | .awaitChecks tx requests responses failures continueWithCommit =>
      (stage s tx).aborts ∨ (stage s tx ≠ .collecting ∧
        (failures = false → continueWithCommit = true → ∀ c ∈ s.conflicts, c.tx = tx →
          (stage s c.peer).aborts ∨ ⟨c.peer, c.serviceLink⟩ ∈ requests ∨
            ∃ res, (⟨c.peer, c.serviceLink⟩, res) ∈ responses ∧ isConflict tx c.peer res))
  | _ => True

/-- The coordinator remembers the conflict, or the other transaction is over. -/
structure Known (s : Shared L) (c : Conflict L) : Prop where
  other : c.peer ≠ c.tx
  modified : c.serviceLink ∈ (s.coordinators c.tx).modifiedLinks
  modifiedByPeer : c.serviceLink ∈ (s.coordinators c.peer).modifiedLinks
  listed : (∃ links ∈ (s.coordinators c.tx).servicesToCoordinators c.serviceLink, c.peer ∈ links) ∨
    (stage s c.peer).aborts

structure Inv [LinearOrder L] (s : Shared L) (ts : List (Task L)) : Prop where
  fits : ∀ t ∈ ts, Fits s t
  known : ∀ c ∈ s.conflicts, Known s c
  cleared : ∀ tx, (stage s tx).commits → Cleared s tx

/-- What a step does to the sub-stages and the conflicts. -/
structure Evolves (s s' : Shared L) : Prop where
  commits : ∀ tx, (stage s tx).commits → (stage s' tx).commits
  aborts : ∀ tx, (stage s tx).aborts → (stage s' tx).aborts
  collecting : ∀ tx, stage s' tx = .collecting → stage s tx = .collecting
  conflicts : ∀ c ∈ s'.conflicts, c ∈ s.conflicts ∨ stage s c.tx = .collecting ∨
    (stage s c.tx).aborts

theorem Evolves.cleared {s s' : Shared L} {tx : L} (h : Evolves s s') (hstage : stage s tx ≠ .collecting)
    (hclear : Cleared s tx) : (stage s tx).aborts ∨ Cleared s' tx := by
  by_cases haborts : (stage s tx).aborts = true
  · exact Or.inl haborts
  · refine Or.inr fun c hc htx => ?_
    rcases h.conflicts c hc with hc | hc | hc
    · exact h.aborts _ (hclear c hc htx)
    · exact absurd (htx ▸ hc) hstage
    · exact absurd (htx ▸ hc) haborts

section Facts

variable [LinearOrder L] {s s' : Shared L} {tx : L} {t : Task L}

theorem mem_conflictChecks {self : L} {state : State L} {check : ConflictCheck L} :
    check ∈ conflictChecks self state ↔ check.serviceLink ∈ state.modifiedLinks ∧
      (∃ links ∈ state.servicesToCoordinators check.serviceLink, check.coordinator ∈ links) ∧
      check.coordinator ≠ self := by
  obtain ⟨coordinator, serviceLink⟩ := check
  unfold conflictChecks
  rw [List.mem_flatMap]
  constructor
  · rintro ⟨link, hlink, hcheck⟩
    obtain ⟨peer, hpeer, heq⟩ := List.mem_map.mp hcheck
    cases heq
    rw [List.mem_filter, decide_eq_true_eq] at hpeer
    refine ⟨hlink, ?_, hpeer.2⟩
    cases hlinks : state.servicesToCoordinators serviceLink with
    | none =>
        rw [hlinks] at hpeer
        exact absurd hpeer.1 List.not_mem_nil
    | some links =>
        rw [hlinks] at hpeer
        exact ⟨links, rfl, hpeer.1⟩
  · rintro ⟨hlink, ⟨links, hlinks, hpeer⟩, hself⟩
    refine ⟨serviceLink, hlink, List.mem_map.mpr ⟨coordinator, ?_, rfl⟩⟩
    have hlinks : state.servicesToCoordinators serviceLink = some links := hlinks
    rw [hlinks, List.mem_filter, decide_eq_true_eq]
    exact ⟨hpeer, hself⟩

theorem Fits.mono (h : Fits s t) (hstep : Evolves s s') : Fits s' t := by
  match t with
  | .resolve tx .committing =>
      rcases h with haborts | ⟨hstage, hclear⟩
      · exact Or.inl (hstep.aborts tx haborts)
      · rcases hstep.cleared hstage hclear with haborts | hclear
        · exact Or.inl (hstep.aborts tx haborts)
        · exact Or.inr ⟨fun hcollecting => hstage (hstep.collecting tx hcollecting), hclear⟩
  | .resolve tx .committed => exact hstep.commits tx h
  | .resolve tx .aborted => exact hstep.aborts tx h
  | .resolve _ .commit | .resolve _ .abort => trivial
  | .awaitServices tx _ _ _ =>
      rcases h with ⟨hkind, h⟩ | ⟨hkind, h⟩
      · exact Or.inl ⟨hkind, hstep.commits tx h⟩
      · exact Or.inr ⟨hkind, hstep.aborts tx h⟩
  | .awaitChecks tx _ _ _ _ =>
      by_cases haborts : (stage s tx).aborts = true
      · exact Or.inl (hstep.aborts tx haborts)
      · obtain ⟨hstage, hasked⟩ := Or.resolve_left h haborts
        refine Or.inr ⟨fun hcollecting => hstage (hstep.collecting tx hcollecting), ?_⟩
        intro hfailures hcontinue c hc htx
        rcases hstep.conflicts c hc with hc | hc | hc
        · rcases hasked hfailures hcontinue c hc htx with hpeer | hpending
          · exact Or.inl (hstep.aborts _ hpeer)
          · exact Or.inr hpending
        · exact absurd (htx ▸ hc) hstage
        · exact absurd (htx ▸ hc) haborts
  | .request _ _ _ _ | .put _ _ => trivial

/-! ## The sub-stage of one coordinator changes -/

def Shared.setStage (s : Shared L) (tx : L) (stage' : SubStage) : Shared L :=
  s.set tx { s.coordinators tx with taskSubStage := stage' }

theorem stage_setStage (s : Shared L) (tx : L) (stage' : SubStage) (tx' : L) :
    stage (s.setStage tx stage') tx' = if tx' = tx then stage' else stage s tx' := by
  show (Function.update s.coordinators tx _ tx').taskSubStage = _
  rw [Function.update_apply]
  split <;> rfl

theorem modifiedLinks_setStage (s : Shared L) (tx : L) (stage' : SubStage) (tx' : L) :
    ((s.setStage tx stage').coordinators tx').modifiedLinks =
      (s.coordinators tx').modifiedLinks := by
  show (Function.update s.coordinators tx _ tx').modifiedLinks = _
  rw [Function.update_apply]
  split
  next heq => rw [heq]
  next => rfl

theorem servicesToCoordinators_setStage (s : Shared L) (tx : L) (stage' : SubStage) (tx' : L) :
    ((s.setStage tx stage').coordinators tx').servicesToCoordinators =
      (s.coordinators tx').servicesToCoordinators := by
  show (Function.update s.coordinators tx _ tx').servicesToCoordinators = _
  rw [Function.update_apply]
  split
  next heq => rw [heq]
  next => rfl

theorem Evolves.setStage {stage' : SubStage} (hcommits : (stage s tx).commits → stage'.commits)
    (haborts : (stage s tx).aborts → stage'.aborts) (hcollecting : stage' ≠ .collecting) :
    Evolves s (s.setStage tx stage') where
  commits tx' h := by
    rw [stage_setStage]
    split
    next heq => exact hcommits (heq ▸ h)
    next => exact h
  aborts tx' h := by
    rw [stage_setStage]
    split
    next heq => exact haborts (heq ▸ h)
    next => exact h
  collecting tx' h := by
    rw [stage_setStage] at h
    split at h
    · exact absurd h hcollecting
    · exact h
  conflicts c hc := Or.inl hc

theorem Known.setStage {c : Conflict L} {stage' : SubStage} (h : Known s c)
    (hstep : Evolves s (s.setStage tx stage')) : Known (s.setStage tx stage') c where
  other := h.other
  modified := by
    rw [modifiedLinks_setStage]
    exact h.modified
  modifiedByPeer := by
    rw [modifiedLinks_setStage]
    exact h.modifiedByPeer
  listed := by
    rw [servicesToCoordinators_setStage]
    exact h.listed.imp_right (hstep.aborts _)

/-- The handled task is replaced, and the sub-stage of one coordinator changes. -/
theorem Inv.setStage {ts new : List (Task L)} {stage' : SubStage} (h : Inv s (t :: ts))
    (hstep : Evolves s (s.setStage tx stage')) (hclear : stage'.commits → Cleared s tx)
    (hnew : ∀ t ∈ new, Fits (s.setStage tx stage') t) : Inv (s.setStage tx stage') (new ++ ts) where
  fits t' ht' := by
    rw [List.mem_append] at ht'
    rcases ht' with ht' | ht'
    · exact hnew t' ht'
    · exact (h.fits t' (List.mem_cons_of_mem _ ht')).mono hstep
  known c hc := (h.known c hc).setStage hstep
  cleared tx' hcommits := by
    have hclear' : Cleared s tx' := by
      rw [stage_setStage] at hcommits
      split at hcommits
      next heq => exact heq ▸ hclear hcommits
      next => exact h.cleared tx' hcommits
    intro c hc htx
    exact hstep.aborts _ (hclear' c hc htx)

/-- The handled task is replaced, and no coordinator changes. -/
theorem Inv.replace {ts new : List (Task L)} (h : Inv s (t :: ts))
    (hcoordinators : s'.coordinators = s.coordinators) (hconflicts : s'.conflicts = s.conflicts)
    (hnew : ∀ t ∈ new, Fits s t) : Inv s' (new ++ ts) := by
  obtain ⟨coordinators, pending, processing, conflicts⟩ := s'
  obtain rfl : coordinators = s.coordinators := hcoordinators
  obtain rfl : conflicts = s.conflicts := hconflicts
  have hstep : Evolves s ⟨s.coordinators, pending, processing, s.conflicts⟩ :=
    ⟨fun _ => id, fun _ => id, fun _ => id, fun _ => Or.inl⟩
  exact
    { fits := fun t' ht' => by
        rw [List.mem_append] at ht'
        rcases ht' with ht' | ht'
        · exact (hnew t' ht').mono hstep
        · exact (h.fits t' (List.mem_cons_of_mem _ ht')).mono hstep
      known := fun c hc => ⟨(h.known c hc).other, (h.known c hc).modified,
        (h.known c hc).modifiedByPeer, (h.known c hc).listed⟩
      cleared := fun tx hcommits => h.cleared tx hcommits }

theorem Inv.perm {ts ts' : List (Task L)} (hp : ts.Perm ts') (h : Inv s ts) : Inv s ts' :=
  ⟨fun t ht => h.fits t (hp.mem_iff.mpr ht), h.known, h.cleared⟩

end Facts

/-! ## The requests to a coordinator -/

section Requests

variable [LinearOrder L] {s : Shared L} {tx : L} {t : Task L} {ts : List (Task L)}

theorem fits_handleAbort (state : State L) (haborts : (stage s tx).aborts) :
    ∀ t ∈ (handleAbort state).map (task tx), Fits s t := by
  unfold handleAbort
  dsimp only
  split
  · exact List.forall_mem_singleton.mpr haborts
  · exact List.forall_mem_singleton.mpr (Or.inr ⟨rfl, haborts⟩)

theorem fits_notifyServicesToCommit (state : State L) (hcommits : (stage s tx).commits) :
    ∀ t ∈ (notifyServicesToCommit state).map (task tx), Fits s t := by
  unfold notifyServicesToCommit
  dsimp only
  split
  · exact List.forall_mem_singleton.mpr hcommits
  · exact List.forall_mem_singleton.mpr (Or.inl ⟨rfl, hcommits⟩)

/-- A conflict is asked about, or the other transaction is over. -/
theorem Known.asked {c : Conflict L} (h : Known s c) :
    (stage s c.peer).aborts ∨
      ⟨c.peer, c.serviceLink⟩ ∈ conflictChecks c.tx (s.coordinators c.tx) := by
  rcases h.listed with hlisted | haborts
  · exact Or.inr (mem_conflictChecks.mpr ⟨h.modified, hlisted, h.other⟩)
  · exact Or.inl haborts

theorem fits_handleCommit (hstep : Evolves s (s.setStage tx .resolving))
    (hknown : ∀ c ∈ s.conflicts, Known s c) :
    ∀ t ∈ (handleCommit tx (s.coordinators tx)).map (task tx), Fits (s.setStage tx .resolving) t := by
  have hstage : stage (s.setStage tx .resolving) tx ≠ .collecting := by
    rw [stage_setStage, if_pos rfl]
    exact nofun
  unfold handleCommit checkPotentialConflicts
  dsimp only
  split
  · exact List.forall_mem_singleton.mpr trivial
  · split
    next hempty =>
      refine List.forall_mem_singleton.mpr (Or.inr ⟨hstage, fun c hc htx => ?_⟩)
      subst htx
      rcases (hknown c hc).asked with haborts | hasked
      · exact hstep.aborts _ haborts
      · rw [List.isEmpty_iff.mp hempty] at hasked
        exact absurd hasked List.not_mem_nil
    next =>
      refine List.forall_mem_singleton.mpr (Or.inr ⟨hstage, fun _ _ c hc htx => ?_⟩)
      subst htx
      rcases (hknown c hc).asked with haborts | hasked
      · exact Or.inl (hstep.aborts _ haborts)
      · exact Or.inr (Or.inl hasked)

/-- A coordinator in an open sub-stage can go on to any other. -/
theorem Evolves.setStage_of_open {stage' : SubStage}
    (hopen : stage s tx = .collecting ∨ stage s tx = .resolving) (hne : stage' ≠ .collecting) :
    Evolves s (s.setStage tx stage') := by
  obtain ⟨hcommits, haborts⟩ := isOpen_iff.mpr hopen
  refine Evolves.setStage ?_ ?_ hne
  · rw [hcommits]
    exact nofun
  · rw [haborts]
    exact nofun

theorem stage_setStage_self (s : Shared L) (tx : L) (stage' : SubStage) :
    stage (s.setStage tx stage') tx = stage' := by
  rw [stage_setStage, if_pos rfl]

/-- A coordinator aborts. -/
theorem Inv.handleAbort (h : Inv s (t :: ts)) (new : List (Task L))
    (hopen : stage s tx = .collecting ∨ stage s tx = .resolving)
    (hnew : ∀ t ∈ new, Fits (s.setStage tx .aborting) t) :
    Inv (s.setStage tx .aborting)
      (new ++ (handleAbort (s.coordinators tx)).map (task tx) ++ ts) := by
  refine h.setStage (Evolves.setStage_of_open hopen nofun) nofun fun t' ht' => ?_
  rw [List.mem_append] at ht'
  rcases ht' with ht' | ht'
  · exact hnew t' ht'
  · refine fits_handleAbort _ ?_ t' ht'
    rw [stage_setStage_self]
    rfl

/-- A resolution request is handled. -/
theorem Inv.handlePatch {kind : ResolutionKind} {r : State L × List (Effect L)}
    (h : Inv s (.resolve tx kind :: ts)) (hr : handlePatch tx (s.coordinators tx) kind = .ok r) :
    Inv (s.set tx r.1) (r.2.map (task tx) ++ ts) := by
  have hfits := h.fits _ (List.mem_cons_self ..)
  rcases handlePatch_cases hr with rfl | ⟨rfl, hopen, rfl⟩ | ⟨rfl, hopen, rfl⟩ |
    ⟨rfl, haborts, rfl⟩ | ⟨rfl, rfl⟩ | ⟨rfl, rfl⟩
  · refine h.replace ?_ rfl (List.forall_mem_nil _)
    exact Function.update_eq_self tx s.coordinators
  · exact h.handleAbort [] hopen (List.forall_mem_nil _)
  · have hstep : Evolves s (s.setStage tx .resolving) := Evolves.setStage_of_open hopen nofun
    exact h.setStage hstep nofun (fits_handleCommit hstep h.known)
  · have hclear : Cleared s tx := (Or.resolve_left hfits (by simpa [stage] using haborts)).2
    have hstep : Evolves s (s.setStage tx .committing) := by
      refine Evolves.setStage (fun _ => rfl) ?_ nofun
      show (s.coordinators tx).taskSubStage.aborts = true → _
      rw [haborts]
      exact nofun
    refine h.setStage hstep (fun _ => hclear) (fits_notifyServicesToCommit _ ?_)
    rw [stage_setStage_self]
    rfl
  · have hstep : Evolves s (s.setStage tx .committed) := by
      refine Evolves.setStage (fun _ => rfl) ?_ nofun
      rw [SubStage.not_aborts_of_commits hfits]
      exact nofun
    exact h.setStage hstep (fun _ => h.cleared tx hfits) (List.forall_mem_nil _)
  · have hstep : Evolves s (s.setStage tx .aborted) := by
      refine Evolves.setStage (fun hcommits => ?_) (fun _ => rfl) nofun
      have haborts : (stage s tx).aborts = true := hfits
      rw [SubStage.not_aborts_of_commits hcommits] at haborts
      cases haborts
    exact h.setStage hstep nofun (List.forall_mem_nil _)

end Requests

/-! ## The conflict checks -/

section Checks

variable [LinearOrder L] {s : Shared L} {tx : L} {ts : List (Task L)}
  {requests : List (ConflictCheck L)}
  {responses : List (ConflictCheck L × Option ConflictCheckResponse)}
  {failures continueWithCommit : Bool} {n : Nat}

/-- When all checks are answered, a coordinator that goes on is cleared. -/
theorem fits_awaitChecks
    (h : Fits s (.awaitChecks tx requests responses failures continueWithCommit)) :
    ∀ t ∈ awaitChecks tx requests responses failures continueWithCommit, Fits s t := by
  unfold awaitChecks
  split
  next hempty =>
    obtain ⟨hrequests, hresponses⟩ := (Bool.and_eq_true _ _).mp hempty
    obtain rfl := List.isEmpty_iff.mp hrequests
    obtain rfl := List.isEmpty_iff.mp hresponses
    unfold conflictsChecked
    split
    · exact List.forall_mem_singleton.mpr trivial
    next hfailures =>
      split
      next hcontinue =>
        refine List.forall_mem_singleton.mpr (h.imp_right fun hasked => ⟨hasked.1, ?_⟩)
        intro c hc htx
        rcases hasked.2 (by simpa using hfailures) hcontinue c hc htx with
          haborts | hrequest | ⟨res, hresponse, -⟩
        · exact haborts
        · exact absurd hrequest List.not_mem_nil
        · exact absurd hresponse List.not_mem_nil
      next => exact List.forall_mem_nil _
  next => exact List.forall_mem_singleton.mpr h

/-- A check is answered: the other transaction is over, or the answer will stop this one. -/
theorem fits_answer {check : ConflictCheck L} (res : Option ConflictCheckResponse)
    (h : Fits s (.awaitChecks tx requests responses failures continueWithCommit))
    (hcheck : requests[n]? = some check)
    (hres : ∀ c ∈ s.conflicts, c.tx = tx → ⟨c.peer, c.serviceLink⟩ = check →
      (stage s c.peer).aborts ∨ isConflict tx c.peer res) :
    Fits s (.awaitChecks tx (requests.eraseIdx n) (responses ++ [(check, res)]) failures
      continueWithCommit) := by
  refine h.imp_right fun hasked => ⟨hasked.1, fun hfailures hcontinue c hc htx => ?_⟩
  rcases hasked.2 hfailures hcontinue c hc htx with haborts | hrequest | ⟨res', hresponse, hconflict⟩
  · exact Or.inl haborts
  · rcases List.mem_cons.mp ((Machine.perm_eraseIdx hcheck).mem_iff.mp hrequest) with heq | hrequest
    · rcases hres c hc htx heq with haborts | hconflict
      · exact Or.inl haborts
      · refine Or.inr (Or.inr ⟨res, List.mem_append_right _ ?_, hconflict⟩)
        rw [heq]
        exact List.mem_singleton_self _
    · exact Or.inr (Or.inl hrequest)
  · exact Or.inr (Or.inr ⟨res', List.mem_append_left _ hresponse, hconflict⟩)

theorem fits_conflict (conflict : Bool) :
    ∀ t ∈ (if conflict then [.resolve tx .abort] else [] : List (Task L)), Fits s t := by
  split
  · exact List.forall_mem_singleton.mpr trivial
  · exact List.forall_mem_nil _

/-- An answer arrives. -/
theorem fits_respond {response : ConflictCheck L × Option ConflictCheckResponse}
    {res : Option ConflictCheckResponse} (hres : res = none ∨ res = response.2)
    (h : Fits s (.awaitChecks tx requests responses failures continueWithCommit))
    (hresponse : responses[n]? = some response) :
    Fits s (.awaitChecks tx requests (responses.eraseIdx n) (failures || res.isNone)
      (continueWithCommit && !isConflict tx response.1.coordinator res)) := by
  refine h.imp_right fun hasked => ⟨hasked.1, fun hfailures hcontinue c hc htx => ?_⟩
  rw [Bool.or_eq_false_iff] at hfailures
  rw [Bool.and_eq_true, Bool.not_eq_true'] at hcontinue
  obtain rfl : res = response.2 := by
    rcases hres with rfl | hres
    · cases hfailures.2
    · exact hres
  rcases hasked.2 hfailures.1 hcontinue.1 c hc htx with haborts | hrequest | ⟨res', hmem, hconflict⟩
  · exact Or.inl haborts
  · exact Or.inr (Or.inl hrequest)
  · rcases List.mem_cons.mp ((Machine.perm_eraseIdx hresponse).mem_iff.mp hmem) with rfl | hmem
    · rw [hcontinue.2] at hconflict
      cases hconflict
    · exact Or.inr (Or.inr ⟨res', hmem, hconflict⟩)

/-- The answer of a coordinator that has modified the service and does not abort stops the
one that asks. -/
theorem isConflict_of_not_aborts {peer : L} {state : State L}
    (haborts : state.taskSubStage.aborts = false)
    (hopen : state.taskSubStage = .collecting ∨ state.taskSubStage = .resolving →
      compareTo peer tx = true) :
    isConflict tx peer (some ⟨state.taskSubStage, true⟩) = true := by
  show (if _ then false else _) = true
  rw [if_neg (by simp [haborts]), Bool.or_eq_true]
  by_cases hcommits : state.taskSubStage.commits = true
  · exact Or.inl hcommits
  · right
    have hlt : peer < tx := by
      simpa [compareTo] using hopen (isOpen_iff.mp ⟨by simpa using hcommits, haborts⟩)
    simpa [compareTo] using hlt.le

/-- A conflict check reaches its coordinator. -/
theorem Inv.deliver {check : ConflictCheck L}
    (h : Inv s (.awaitChecks tx requests responses failures continueWithCommit :: ts))
    (hcheck : requests[n]? = some check) :
    let r := handleCheckConflicts check.coordinator (s.coordinators check.coordinator) tx
      check.serviceLink
    Inv (s.set check.coordinator r.1)
      (awaitChecks tx (requests.eraseIdx n) (responses ++ [(check, some r.2.1)]) failures
        continueWithCommit ++ r.2.2.map (task check.coordinator) ++ ts) := by
  have hfits := h.fits _ (List.mem_cons_self ..)
  rcases handleCheckConflicts_cases check.coordinator
    (s.coordinators check.coordinator) tx check.serviceLink with
    ⟨hopen, -, hr⟩ | ⟨hwins, hr⟩
  · rw [hr]
    refine h.handleAbort _ hopen (fits_awaitChecks (fits_answer _ ?_ hcheck ?_))
    · exact hfits.mono (Evolves.setStage_of_open hopen nofun)
    · rintro c - - rfl
      refine Or.inl ?_
      rw [stage_setStage_self]
      rfl
  · rw [hr]
    show Inv _ (awaitChecks _ _ _ _ _ ++ [] ++ ts)
    rw [List.append_nil]
    refine h.replace (Function.update_eq_self _ s.coordinators) rfl
      (fits_awaitChecks (fits_answer _ hfits hcheck ?_))
    rintro c hc rfl rfl
    have hknown := h.known c hc
    by_cases haborts : (stage s c.peer).aborts = true
    · exact Or.inl haborts
    · right
      rw [decide_eq_true hknown.modifiedByPeer]
      exact isConflict_of_not_aborts (by simpa [stage] using haborts) hwins

end Checks

/-! ## The records -/

section Records

variable [LinearOrder L] {s : Shared L} {tx : L} {record : TransactionContext L}
  {ts : List (Task L)}

theorem mem_told {c : Conflict L} (hc : c ∈ told s tx record) :
    c.tx = tx ∧ c.serviceLink = record.serviceLink ∧ c.peer ≠ tx ∧
      record.serviceLink ∈ (handlePut (s.coordinators tx) record).modifiedLinks ∧
      record.serviceLink ∈ (s.coordinators c.peer).modifiedLinks ∧
      ∃ links, record.coordinatorLinks = some links ∧ c.peer ∈ links := by
  unfold told at hc
  split at hc
  next hmodified =>
    obtain ⟨peer, hpeer, rfl⟩ := List.mem_map.mp hc
    rw [List.mem_filter, decide_eq_true_eq] at hpeer
    obtain ⟨hlinks, hne, hpeer⟩ := hpeer
    refine ⟨rfl, rfl, hne, hmodified, hpeer, ?_⟩
    cases hrecord : record.coordinatorLinks with
    | none =>
        rw [hrecord] at hlinks
        exact absurd hlinks List.not_mem_nil
    | some links =>
        rw [hrecord] at hlinks
        exact ⟨links, rfl, hlinks⟩
  next => exact absurd hc List.not_mem_nil

/-- The state after a record was handled. -/
def recorded (s : Shared L) (tx : L) (record : TransactionContext L) : Shared L :=
  { s.set tx (handlePut (s.coordinators tx) record) with
    isProcessing := Function.update s.isProcessing record.serviceLink false
    conflicts := s.conflicts ++ told s tx record }

theorem recorded_self : (recorded s tx record).coordinators tx =
    handlePut (s.coordinators tx) record :=
  Function.update_self ..

theorem recorded_of_ne {tx' : L} (h : tx' ≠ tx) :
    (recorded s tx record).coordinators tx' = s.coordinators tx' :=
  Function.update_of_ne h ..

theorem stage_recorded (tx' : L) : stage (recorded s tx record) tx' = stage s tx' := by
  unfold stage
  by_cases heq : tx' = tx
  · rw [heq, recorded_self]
    rfl
  · rw [recorded_of_ne heq]

theorem modifiedLinks_recorded {tx' link : L} (h : link ∈ (s.coordinators tx').modifiedLinks) :
    link ∈ ((recorded s tx record).coordinators tx').modifiedLinks := by
  by_cases heq : tx' = tx
  · subst heq
    rw [recorded_self]
    exact mem_handlePut_modifiedLinks.mpr (Or.inr h)
  · rw [recorded_of_ne heq]
    exact h

/-- A record of a service leaves what is known of the others. -/
theorem servicesToCoordinators_handlePut {state : State L} {link : L}
    (h : record.coordinatorLinks = none ∨ link ≠ record.serviceLink) :
    (handlePut state record).servicesToCoordinators link = state.servicesToCoordinators link := by
  cases hlinks : record.coordinatorLinks with
  | none => simp only [handlePut, hlinks]
  | some links =>
      have hne : link ≠ record.serviceLink := h.resolve_left (by rw [hlinks]; exact nofun)
      simp only [handlePut, hlinks]
      exact Function.update_of_ne hne ..

theorem servicesToCoordinators_handlePut_self {state : State L} {links : List L}
    (h : record.coordinatorLinks = some links) :
    (handlePut state record).servicesToCoordinators record.serviceLink = some links := by
  simp only [handlePut, h]
  exact Function.update_self ..

theorem Known.recorded {c : Conflict L} (h : Known s c) (hc : c ∈ s.conflicts)
    (hkept : ConflictsKept s (.put tx record) .done) : Known (recorded s tx record) c where
  other := h.other
  modified := modifiedLinks_recorded h.modified
  modifiedByPeer := modifiedLinks_recorded h.modifiedByPeer
  listed := by
    rw [stage_recorded]
    by_cases htx : c.tx = tx
    · rw [htx, recorded_self]
      by_cases hlink : record.coordinatorLinks = none ∨ c.serviceLink ≠ record.serviceLink
      · rw [servicesToCoordinators_handlePut hlink, ← htx]
        exact h.listed
      · -- the record is about the service of the conflict
        rw [not_or, not_not] at hlink
        obtain ⟨hlinks, hlink⟩ := hlink
        obtain ⟨links, hlinks⟩ := Option.ne_none_iff_exists'.mp hlinks
        rw [hlink, servicesToCoordinators_handlePut_self hlinks]
        exact (hkept links hlinks c hc htx hlink).imp_left fun hpeer => ⟨links, rfl, hpeer⟩
    · rw [recorded_of_ne htx]
      exact h.listed

theorem known_of_told {c : Conflict L} (hc : c ∈ told s tx record) :
    Known (recorded s tx record) c := by
  obtain ⟨htx, hlink, hne, hmodified, hpeer, links, hlinks, hmem⟩ := mem_told hc
  refine ⟨htx ▸ hne, ?_, ?_, ?_⟩
  · rw [htx, hlink, recorded_self]
    exact hmodified
  · rw [hlink]
    exact modifiedLinks_recorded hpeer
  · rw [htx, hlink, recorded_self, servicesToCoordinators_handlePut_self hlinks]
    exact Or.inl ⟨links, rfl, hmem⟩

theorem Evolves.recorded (htime : RecordedInTime s (.put tx record) .done) :
    Evolves s (recorded s tx record) where
  commits tx' h := by
    rw [stage_recorded]
    exact h
  aborts tx' h := by
    rw [stage_recorded]
    exact h
  collecting tx' h := by
    rw [stage_recorded] at h
    exact h
  conflicts c hc := by
    rcases List.mem_append.mp hc with hc | hc
    · exact Or.inl hc
    · right
      rw [(mem_told hc).1]
      by_cases haborts : (stage s tx).aborts = true
      · exact Or.inr haborts
      · left
        exact (isOpen_iff.mp ⟨htime.2, by simpa using haborts⟩).resolve_right htime.1

/-- A record is handled. -/
theorem Inv.recorded (h : Inv s (.put tx record :: ts))
    (htime : RecordedInTime s (.put tx record) .done)
    (hkept : ConflictsKept s (.put tx record) .done) : Inv (recorded s tx record) ts where
  fits t ht := (h.fits t (List.mem_cons_of_mem _ ht)).mono (Evolves.recorded htime)
  known c hc := by
    rcases List.mem_append.mp hc with hc | hc
    · exact (h.known c hc).recorded hc hkept
    · exact known_of_told hc
  cleared tx' hcommits := by
    rw [stage_recorded] at hcommits
    have hne : tx' ≠ tx := by
      rintro rfl
      rw [htime.2] at hcommits
      cases hcommits
    intro c hc htx
    rw [stage_recorded]
    rcases List.mem_append.mp hc with hc | hc
    · exact h.cleared tx' hcommits c hc htx
    · exact absurd (htx.symm.trans (mem_told hc).1) hne

end Records

/-! ## Runs -/

/-- The guard of the runs in which operations are recorded in time and records keep the
conflicts. -/
def Remembers (s : Shared L) (t : Task L) (a : Answer) : Prop :=
  RecordedInTime s t a ∧ ConflictsKept s t a

instance [DecidableEq L] (s : Shared L) (t : Task L) (a : Answer) : Decidable (Remembers s t a) :=
  inferInstanceAs (Decidable (_ ∧ _))

section Runs

variable [LinearOrder L] {s : Shared L} {t : Task L} {ts : List (Task L)}
  {allowErrorsCauseAbort : L → Bool} {p : Pool (Shared L) (Task L)}

theorem Inv.fire {a : Answer} {r : Shared L × List (Task L)} (hok : Remembers s t a)
    (hfire : fire s t a = some r) (h : Inv s (t :: ts)) : Inv r.1 (r.2 ++ ts) := by
  have hfits := h.fits _ (List.mem_cons_self ..)
  unfold Conflicts.fire at hfire
  -- the branches are those of `fire`, in its order
  split at hfire
  next =>
    split at hfire <;> cases hfire
    exact h.replace rfl rfl (List.forall_mem_singleton.mpr trivial)
  next =>
    cases hfire
    exact h.recorded hok.1 hok.2
  next =>
    cases hfire
    exact h.replace rfl rfl (List.forall_mem_nil _)
  next =>
    split at hfire <;> cases hfire
    · exact h.replace rfl rfl (List.forall_mem_nil _)
    next hr => exact h.handlePatch hr
  next =>
    obtain ⟨check, hcheck, rfl⟩ := Option.map_eq_some_iff.mp hfire
    exact h.deliver hcheck
  next =>
    obtain ⟨check, hcheck, rfl⟩ := Option.map_eq_some_iff.mp hfire
    exact h.replace rfl rfl (fits_awaitChecks
      (fits_answer none hfits hcheck fun _ _ _ _ => Or.inr rfl))
  next n lost =>
    obtain ⟨response, hresponse, rfl⟩ := Option.map_eq_some_iff.mp hfire
    refine h.replace rfl rfl fun t' ht' => ?_
    have hres : (if lost then none else response.2) = none ∨
        (if lost then none else response.2) = response.2 := by
      split
      · exact Or.inl rfl
      · exact Or.inr rfl
    rcases List.mem_append.mp ht' with ht' | ht'
    · exact fits_conflict _ t' ht'
    · exact fits_awaitChecks (fits_respond hres hfits hresponse) t' ht'
  next =>
    obtain ⟨message, -, rfl⟩ := Option.map_eq_some_iff.mp hfire
    refine h.replace rfl rfl ?_
    dsimp only
    split
    · refine List.forall_mem_singleton.mpr ?_
      rcases hfits with ⟨rfl, hcommits⟩ | ⟨rfl, haborts⟩
      · unfold servicesNotified
        rw [if_neg nofun]
        split
        · trivial
        · exact hcommits
      · exact haborts
    · exact List.forall_mem_singleton.mpr hfits
  next => cases hfire

theorem reaches_inv (h : system.Reaches Remembers (start allowErrorsCauseAbort) p) :
    Inv p.shared p.tasks := by
  apply Machine.invariant Inv h Inv.perm
  case init =>
    exact ⟨fun _ ht => absurd ht List.not_mem_nil, fun _ hc => absurd hc List.not_mem_nil, nofun⟩
  case input =>
    intro s ts i hinv
    cases i <;>
      exact ⟨List.forall_mem_cons.mpr ⟨trivial, hinv.fits⟩, hinv.known, hinv.cleared⟩
  case fire =>
    intro s t ts a r hok hfire hinv
    exact hinv.fire hok hfire

/-- In every run in which operations are recorded before the COMMIT of their transaction
and no record leaves out a transaction that it conflicts with: of two transactions in
conflict, not both are committing or committed. -/
theorem conflicting_not_both_commit
    (h : system.Reaches Remembers (start allowErrorsCauseAbort) p) {c : Conflict L}
    (hc : c ∈ p.shared.conflicts) :
    ¬((stage p.shared c.tx).commits ∧ (stage p.shared c.peer).commits) := by
  rintro ⟨htx, hpeer⟩
  have haborts := (reaches_inv h).cleared c.tx htx c hc rfl
  rw [SubStage.not_aborts_of_commits hpeer] at haborts
  cases haborts

/-- Two transactions modify a service, and the first one commits. -/
def exampleEvents : List (PoolEvent (Input String) Answer) :=
  [.input (.request "/tx/a" "/examples/s" .put true), .fire 0 .done, .fire 0 .done,
    .input (.request "/tx/b" "/examples/s" .put true), .fire 0 .done, .fire 0 .done,
    .input (.commit "/tx/a"), .fire 0 .done, .fire 0 .done, .fire 0 (.notified 0 true true),
    .fire 0 .done]

/-- The second one asks the first and is told that it has committed. -/
theorem conflicting_not_both_commit_asked : ∃ p : Pool (Shared String) (Task String),
    stage p.shared "/tx/a" = .committed ∧
      ¬((stage p.shared "/tx/b").commits ∧ (stage p.shared "/tx/a").commits) := by
  have hexec : ∃ p, system.exec Remembers (start fun _ => true) (exampleEvents ++
      [.input (.commit "/tx/b"), .fire 0 .done, .fire 0 (.deliver 0)]) = some p ∧
      stage p.shared "/tx/a" = .committed ∧
      p.shared.conflicts = [⟨"/tx/b", "/examples/s", "/tx/a"⟩] := ⟨_, rfl, rfl, rfl⟩
  obtain ⟨p, hp, hstage, hconflicts⟩ := hexec
  refine ⟨p, hstage, conflicting_not_both_commit (Machine.reaches_of_exec hp)
    (c := ⟨"/tx/b", "/examples/s", "/tx/a"⟩) ?_⟩
  rw [hconflicts]
  exact List.mem_singleton_self _

/-- The second one works on the service again before it commits. The record no longer
lists the first one, and the second one commits without asking. -/
theorem overwritten_record_hides_conflict : ∃ p : Pool (Shared String) (Task String),
    system.Reaches RecordedInTime (start fun _ => true) p ∧
      ⟨"/tx/b", "/examples/s", "/tx/a"⟩ ∈ p.shared.conflicts ∧
      stage p.shared "/tx/a" = .committed ∧ stage p.shared "/tx/b" = .committed := by
  have hexec : ∃ p, system.exec RecordedInTime (start fun _ => true) (exampleEvents ++
      [.input (.request "/tx/b" "/examples/s" .put true), .fire 0 .done, .fire 0 .done,
        .input (.commit "/tx/b"), .fire 0 .done, .fire 0 .done, .fire 0 (.notified 0 true true),
        .fire 0 .done]) = some p ∧
      p.shared.conflicts = [⟨"/tx/b", "/examples/s", "/tx/a"⟩] ∧
      stage p.shared "/tx/a" = .committed ∧ stage p.shared "/tx/b" = .committed :=
    ⟨_, rfl, rfl, rfl, rfl⟩
  obtain ⟨p, hp, hconflicts, hstages⟩ := hexec
  refine ⟨p, Machine.reaches_of_exec hp, ?_, hstages⟩
  rw [hconflicts]
  exact List.mem_singleton_self _

end Runs

end Xenon.Transaction.Conflicts
