import Xenon.ServiceStart.Service

/-!
# The order of a start

Every point of a start has a place in one order: that of the stages, with the failure of the POST
and its completion at the end. A start only moves on in it, whatever it is told and whenever the
service is stopped, and what it does to others is done at the place it has then. So nothing is done
twice, nothing out of order, and the POST that started the service is answered once.
-/

namespace Xenon.ServiceStart

open Xenon.Common Xenon.Foundation
open Stateful (ProcessingStage)

variable {β : Type}

/-- The place at which something is done. -/
def Effect.place : Effect β → Nat
  | .authorize => 11
  | .queryIndex => 21
  | .loaded _ => 22
  | .convertToPut => 23
  | .selectOwner => 31
  | .ownerSelected _ => 32
  | .synchronizePeers => 33
  | .handleCreate => 41
  | .handleStart => 51
  | .cacheState _ | .saveServiceState _ => 61
  | .indexed => 62
  | .replicateRequest _ => 71
  | .accepted => 72
  | .available => 81
  | .maintenance => 83
  | .stopService _ => 92
  | .synchRequest => 93
  | .completed _ => 95

/-- The handlers that a stage nests. -/
def Frame.IsNested : Frame β → Prop
  | .proceed next _ | .synchronized next _ => 2 ≤ ordinal next ∧ ordinal next ≤ 7
  | .started _ _ | .replicated _ _ => True
  | .startService _ | .original => False

/-- The place at which a nested handler is called, right before the stage that it goes on with. -/
def Frame.place : Frame β → Nat
  | .proceed next _ | .synchronized next _ => 10 * ordinal next - 1
  | .started _ _ => 59
  | .replicated _ _ => 79
  | .startService _ => 90
  | .original => 95

/-- The handlers of the POST when no stage has nested one. -/
def base (attachService : Bool) : List (Frame β) := [.startService attachService, .original]

/-- Where a start is: its task, with the handlers on its POST, and their place. -/
inductive Placed (a : Bool) : Task β → List (Frame β) → Nat → Prop
  | process {next : ProcessingStage} {hasClient : Bool}
      (h : 1 ≤ ordinal next ∧ ordinal next ≤ 8) :
      Placed a (.process next hasClient) (base a) (10 * ordinal next)
  | enter {next : ProcessingStage} {hasClient : Bool}
      (h : 1 ≤ ordinal next ∧ ordinal next ≤ 8) :
      Placed a (.enter next hasClient) (base a) (10 * ordinal next + 1)
  | authorization {f : Frame β} (h : f.IsNested) (hlt : 12 < f.place) :
      Placed a .authorization (f :: base a) 12
  | indexQuery {hasClient : Bool} : Placed a (.indexQuery hasClient) (base a) 22
  | convert : Placed a .convert (base a) 23
  | put : Placed a .put (base a) 24
  | ownerSelection {f : Frame β} (h : f.IsNested) (hlt : 34 < f.place) :
      Placed a .ownerSelection (f :: base a) 32
  | synchronize {f : Frame β} (h : f.IsNested) (hlt : 34 < f.place) :
      Placed a .synchronize (f :: base a) 33
  | peers {f : Frame β} {state : ServiceDocument β} (h : f.IsNested) (hlt : 34 < f.place) :
      Placed a (.peers state) (f :: base a) 34
  | createHandler {f : Frame β} (h : f.IsNested) (hlt : 42 < f.place) :
      Placed a .createHandler (f :: base a) 42
  | startHandler {f : Frame β} (h : f.IsNested) (hlt : 52 < f.place) :
      Placed a .startHandler (f :: base a) 52
  | index {f : Frame β} (h : f.IsNested) (hlt : 62 < f.place) : Placed a .index (f :: base a) 62
  | replication {f : Frame β} (h : f.IsNested) (hlt : 72 < f.place) :
      Placed a .replication (f :: base a) 72
  | announce : Placed a .announce (base a) 82
  | maintain : Placed a .maintain (base a) 83
  | nested {f : Frame β} (h : f.IsNested) : Placed a .complete (f :: base a) f.place
  | complete : Placed a .complete (base a) 90
  | failNested {f : Frame β} {failure : Failure} (h : f.IsNested) :
      Placed a (.fail failure) (f :: base a) 91
  | fail {failure : Failure} : Placed a (.fail failure) (base a) 92
  | failStart {failure : Failure} : Placed a (.failStart failure) [.original] 93
  | synchRequest {failure : Failure} : Placed a (.synchRequest failure) [.original] 94
  | reply : Placed a .complete [.original] 95
  | replyFailure {failure : Failure} : Placed a (.fail failure) [.original] 95

/-- The POST was answered. -/
def Start.Answered (s : Start β) : Prop := ∃ failure, Effect.completed failure ∈ s.effects

/-- A replica refused the state of a create, or a handler failed the create as if one had, and there
is no linked state to say which service is to be synchronized. -/
def Start.Refused (env : Env β) (s : Start β) (failure : Failure) : Prop :=
  s.isReplicaConflict env failure = true ∧ s.linkedState = none

/-- The failure that a task goes on with after the service was stopped. -/
def Task.failing : Task β → Option Failure
  | .failStart failure => some failure
  | _ => none

/-- The failure for which the service is stopped. -/
def Effect.failing : Effect β → Option Failure
  | .stopService failure => some failure
  | _ => none

theorem Task.failing_eq_some {t : Task β} {failure : Failure} :
    t.failing = some failure ↔ t = .failStart failure := by
  cases t <;> simp [failing]

theorem Effect.failing_eq_some {e : Effect β} {failure : Failure} :
    e.failing = some failure ↔ e = .stopService failure := by
  cases e <;> simp [failing]

/-- What one section of a start at the place `p` does: at most one thing, at this place, and then it
is further on, or at its end. -/
structure Moves (env : Env β) (a : Bool) (p : Nat) (s s' : Start β) : Prop where
  effects : s'.effects = s.effects ∨ ∃ e, e.place = p ∧ s'.effects = s.effects ++ [e]
  task : (s'.task = none ∧ (p = 95 ∧ s'.Answered ∨
      ∃ failure, s.task = some (.failStart failure) ∧ s'.effects = s.effects ∧
        s'.Refused env failure)) ∨
    ∃ t p', s'.task = some t ∧ Placed a t s'.completion p' ∧ p < p'
  stopped : ∀ failure, s'.task = some (.failStart failure) ↔
    s'.effects = s.effects ++ [.stopService failure]
  stage : s'.processingStage = s.processingStage ∨ s'.processingStage = .stopped ∨
    10 * ordinal s'.processingStage < p

namespace Moves

variable {env : Env β} {a : Bool} {p p' : Nat} {s s' : Start β} {t : Task β}
  {c : List (Frame β)} {e : Effect β}

theorem goTo (heffects : s'.effects = s.effects)
    (hstage : s'.processingStage = s.processingStage ∨ s'.processingStage = .stopped ∨
      10 * ordinal s'.processingStage < p)
    (htask : s'.task = some t) (hfailing : t.failing = none) (hcompletion : s'.completion = c)
    (h : Placed a t c p') (hlt : p < p') : Moves env a p s s' where
  effects := Or.inl heffects
  task := Or.inr ⟨t, p', htask, hcompletion ▸ h, hlt⟩
  stopped failure := by
    rw [heffects, htask, Option.some_inj, ← Task.failing_eq_some, hfailing]
    simp
  stage := hstage

theorem emit (heffects : s'.effects = s.effects ++ [e])
    (hstage : s'.processingStage = s.processingStage ∨ s'.processingStage = .stopped ∨
      10 * ordinal s'.processingStage < p)
    (he : e.place = p) (htask : s'.task = some t) (hfailing : t.failing = e.failing)
    (hcompletion : s'.completion = c) (h : Placed a t c p') (hlt : p < p') :
    Moves env a p s s' where
  effects := Or.inr ⟨e, he, heffects⟩
  task := Or.inr ⟨t, p', htask, hcompletion ▸ h, hlt⟩
  stopped failure := by
    rw [heffects, htask, Option.some_inj, ← Task.failing_eq_some, hfailing,
      Effect.failing_eq_some]
    simp
  stage := hstage

theorem reply {r : Option Failure} (htask : s'.task = none)
    (heffects : s'.effects = s.effects ++ [.completed r])
    (hstage : s'.processingStage = s.processingStage) : Moves env a 95 s s' where
  effects := Or.inr ⟨_, rfl, heffects⟩
  task := Or.inl ⟨htask, Or.inl ⟨rfl, r,
    heffects ▸ List.mem_append_right _ (List.mem_singleton_self _)⟩⟩
  stopped failure := by simp [htask, heffects]
  stage := Or.inl hstage

theorem lost {failure : Failure} (ht : s.task = some (.failStart failure))
    (htask : s'.task = none) (heffects : s'.effects = s.effects)
    (hstage : s'.processingStage = s.processingStage) (h : s'.Refused env failure) :
    Moves env a p s s' where
  effects := Or.inl heffects
  task := Or.inl ⟨htask, Or.inr ⟨failure, ht, heffects, h⟩⟩
  stopped failure := by simp [htask, heffects]
  stage := Or.inl hstage

/-- The stage of a place is set before its section. -/
theorem of_stage {stage : ProcessingStage} (hstage : 10 * ordinal stage < p)
    (h : Moves env a p { s with processingStage := stage } s') : Moves env a p s s' where
  effects := h.effects
  task := h.task
  stopped := h.stopped
  stage := by
    rcases h.stage with heq | hstopped | hlt
    · exact Or.inr (Or.inr (heq ▸ hstage))
    · exact Or.inr (Or.inl hstopped)
    · exact Or.inr (Or.inr hlt)

end Moves

/-! ## One section -/

section Sections

variable {env : Env β} {a : Bool} {s s' : Start β} {hasClient : Bool}

theorem processServiceStart_moves {next : ProcessingStage} (hc : s.completion = base a)
    (hnext : 1 ≤ ordinal next ∧ ordinal next ≤ 8) :
    Moves env a (10 * ordinal next) s (s.processServiceStart next hasClient) := by
  unfold Start.processServiceStart
  split_ifs
  · exact Moves.goTo rfl (Or.inl rfl) rfl rfl hc .complete (by omega)
  · exact Moves.goTo rfl (Or.inl rfl) rfl rfl hc .fail (by omega)
  · exact Moves.goTo rfl (Or.inl rfl) rfl rfl hc .fail (by omega)
  · exact Moves.goTo rfl (Or.inl rfl) rfl rfl hc (.enter hnext) (by omega)

theorem initializing_moves (hc : s.completion = base a) :
    Moves env a 11 s (s.initializing env hasClient) := by
  unfold Start.initializing
  dsimp only
  split_ifs
  all_goals first
    | exact Moves.emit rfl (Or.inl rfl) rfl rfl rfl (congrArg (_ :: ·) hc)
        (.authorization (by simp [Frame.IsNested, ordinal]) (by simp [Frame.place, ordinal]))
        (by decide)
    | exact Moves.goTo rfl (Or.inl rfl) rfl rfl hc (.process (by decide)) (by decide)

theorem loadInitialState_moves (hc : s.completion = base a) :
    Moves env a 21 s (s.loadInitialState env hasClient) := by
  unfold Start.loadInitialState Start.loadInitialServiceState
  dsimp only
  split_ifs
  · exact Moves.goTo rfl (Or.inl rfl) rfl rfl hc .fail (by decide)
  · exact Moves.goTo rfl (Or.inl rfl) rfl rfl hc .fail (by decide)
  · exact Moves.emit rfl (Or.inl rfl) rfl rfl rfl hc .indexQuery (by decide)
  · exact Moves.goTo rfl (Or.inl rfl) rfl rfl hc (.process (by decide)) (by decide)

theorem useStateFromStore_effects (s : Start β) (stateFromStore : Option (ServiceDocument β))
    (hasClient : Bool) : (s.useStateFromStore stateFromStore hasClient).effects = s.effects := by
  unfold Start.useStateFromStore
  split <;> rfl

theorem useStateFromStore_completion (s : Start β) (stateFromStore : Option (ServiceDocument β))
    (hasClient : Bool) :
    (s.useStateFromStore stateFromStore hasClient).completion = s.completion := by
  unfold Start.useStateFromStore
  split <;> rfl

theorem useStateFromStore_stage (s : Start β) (stateFromStore : Option (ServiceDocument β))
    (hasClient : Bool) :
    (s.useStateFromStore stateFromStore hasClient).processingStage = s.processingStage := by
  unfold Start.useStateFromStore
  split <;> rfl

theorem handleLoadInitialStateCompletion_moves {stateFromStore : Option (ServiceDocument β)}
    {pendingDeletion : Bool} (hc : s.completion = base a) :
    Moves env a 22 s
      (s.handleLoadInitialStateCompletion env hasClient stateFromStore pendingDeletion) := by
  unfold Start.handleLoadInitialStateCompletion
  dsimp only
  split
  · exact Moves.emit rfl (Or.inl rfl) rfl rfl rfl hc .fail (by decide)
  · exact Moves.emit rfl (Or.inl rfl) rfl rfl rfl hc .convert (by decide)
  · exact Moves.emit (useStateFromStore_effects ..) (Or.inl (useStateFromStore_stage ..)) rfl rfl
      rfl ((useStateFromStore_completion ..).trans hc) (.process (by decide)) (by decide)

theorem afterSynchronizing_range (s : Start β) :
    4 ≤ ordinal s.afterSynchronizing ∧ ordinal s.afterSynchronizing ≤ 5 := by
  unfold Start.afterSynchronizing
  split <;> decide

theorem synchronizing_moves (hc : s.completion = base a) :
    Moves env a 31 s (s.synchronizing env hasClient) := by
  have hnext := afterSynchronizing_range s
  unfold Start.synchronizing
  dsimp only
  split_ifs
  · exact Moves.goTo rfl (Or.inl rfl) rfl rfl hc .fail (by decide)
  · exact Moves.goTo rfl (Or.inl rfl) rfl rfl hc (.process (by omega)) (by omega)
  · refine Moves.emit rfl (Or.inl rfl) rfl rfl rfl (congrArg (_ :: ·) hc) (.ownerSelection ?_ ?_) (by decide)
    · exact ⟨by omega, by omega⟩
    · simp only [Frame.place]
      omega

theorem ownerSelected_moves {f : Frame β} {isLocalHostOwner : Bool}
    (hc : s.completion = f :: base a) (hf : f.IsNested) (hlt : 34 < f.place) :
    Moves env a 32 s (s.ownerSelected env isLocalHostOwner) := by
  unfold Start.ownerSelected
  dsimp only
  split_ifs
  · exact Moves.emit rfl (Or.inl rfl) rfl rfl rfl hc (.nested hf) (by omega)
  · exact Moves.emit rfl (Or.inl rfl) rfl rfl rfl hc (.nested hf) (by omega)
  · exact Moves.emit rfl (Or.inl rfl) rfl rfl rfl hc (.nested hf) (by omega)
  · exact Moves.emit rfl (Or.inl rfl) rfl rfl rfl hc (.synchronize hf hlt) (by decide)

theorem synchronizeWithPeers_moves {f : Frame β} (hc : s.completion = f :: base a)
    (hf : f.IsNested) (hlt : 34 < f.place) : Moves env a 33 s (s.synchronizeWithPeers env) := by
  unfold Start.synchronizeWithPeers
  split
  · exact Moves.goTo rfl (Or.inl rfl) rfl rfl hc (.failNested hf) (by decide)
  · exact Moves.goTo rfl (Or.inl rfl) rfl rfl hc (.failNested hf) (by decide)
  · split
    · exact Moves.goTo rfl (Or.inl rfl) rfl rfl hc (.failNested hf) (by decide)
    · exact Moves.emit rfl (Or.inl rfl) rfl rfl rfl hc (.peers hf hlt) (by decide)

theorem peersSynchronized_moves {f : Frame β} {state : ServiceDocument β}
    {selected : Option (ServiceDocument β)} (hc : s.completion = f :: base a)
    (hf : f.IsNested) (hlt : 34 < f.place) :
    Moves env a 34 s (s.peersSynchronized env state selected) := by
  unfold Start.peersSynchronized
  by_cases hstop : s.isStopping = true
  · rw [if_pos hstop]
    exact Moves.goTo rfl (Or.inl rfl) rfl rfl hc (.failNested hf) (by decide)
  rw [if_neg hstop]
  by_cases hhistorical : s.flags.synchHistoricalVersions = true
  · rw [if_pos hhistorical]
    exact Moves.goTo rfl (Or.inl rfl) rfl rfl hc (.nested hf) hlt
  rw [if_neg hhistorical]
  cases selected with
  | none =>
      dsimp only
      split
      · exact Moves.goTo rfl (Or.inl rfl) rfl rfl hc (.failNested hf) (by decide)
      · exact Moves.goTo rfl (Or.inl rfl) rfl rfl hc (.nested hf) hlt
  | some selectedState =>
      dsimp only
      split
      · exact Moves.goTo rfl (Or.inl rfl) rfl rfl hc (.failNested hf) (by decide)
      · exact Moves.goTo rfl (Or.inl rfl) rfl rfl hc (.nested hf) hlt

theorem executeCreateHandler_moves (hc : s.completion = base a) :
    Moves env a 41 s (s.executeCreateHandler env hasClient) := by
  have hf : (Frame.proceed (β := β) .executingStartHandler hasClient).IsNested := by
    simp [Frame.IsNested, ordinal]
  have hplace : (Frame.proceed (β := β) .executingStartHandler hasClient).place = 49 := rfl
  unfold Start.executeCreateHandler
  dsimp only
  split_ifs
  · exact Moves.goTo rfl (Or.inl rfl) rfl rfl (congrArg (_ :: ·) hc) (.nested hf) (by omega)
  · exact Moves.goTo rfl (Or.inl rfl) rfl rfl (congrArg (_ :: ·) hc) (.nested hf) (by omega)
  · exact Moves.emit rfl (Or.inl rfl) rfl rfl rfl (congrArg (_ :: ·) hc) (.createHandler hf (by omega))
      (by decide)

theorem executeStartHandler_moves (hc : s.completion = base a) :
    Moves env a 51 s (s.executeStartHandler env hasClient) := by
  have hf : (Frame.started (β := β) s.linkedVersion hasClient).IsNested := trivial
  have hplace : (Frame.started (β := β) s.linkedVersion hasClient).place = 59 := rfl
  unfold Start.executeStartHandler
  dsimp only
  split_ifs
  · exact Moves.goTo rfl (Or.inl rfl) rfl rfl (congrArg (_ :: ·) hc) (.nested hf) (by omega)
  · exact Moves.goTo rfl (Or.inl rfl) rfl rfl (congrArg (_ :: ·) hc) (.nested hf) (by omega)
  · exact Moves.goTo rfl (Or.inl rfl) rfl rfl (congrArg (_ :: ·) hc) (.nested hf) (by omega)
  · exact Moves.emit rfl (Or.inl rfl) rfl rfl rfl (congrArg (_ :: ·) hc) (.startHandler hf (by omega))
      (by decide)

theorem indexInitialState_moves (hc : s.completion = base a) :
    Moves env a 61 s (s.indexInitialState env hasClient) := by
  have hf : (Frame.proceed (β := β) .replicateState hasClient).IsNested := by
    simp [Frame.IsNested, ordinal]
  have hplace : (Frame.proceed (β := β) .replicateState hasClient).place = 69 := rfl
  unfold Start.indexInitialState
  dsimp only
  split
  · exact Moves.goTo rfl (Or.inl rfl) rfl rfl (congrArg (_ :: ·) hc) (.nested hf) (by omega)
  · split_ifs
    · exact Moves.emit rfl (Or.inl rfl) rfl rfl rfl (congrArg (_ :: ·) hc) (.index hf (by omega)) (by decide)
    · exact Moves.emit rfl (Or.inl rfl) rfl rfl rfl (congrArg (_ :: ·) hc) (.nested hf) (by omega)

theorem replicateState_moves (hc : s.completion = base a) :
    Moves env a 71 s (s.replicateState env hasClient) := by
  unfold Start.replicateState
  split_ifs
  · exact Moves.goTo rfl (Or.inl rfl) rfl rfl hc (.process (by decide)) (by decide)
  · split
    · dsimp only
      split
      · exact Moves.goTo rfl (Or.inl rfl) rfl rfl hc .fail (by decide)
      · split_ifs
        · exact Moves.goTo rfl (Or.inl rfl) rfl rfl (congrArg (_ :: ·) hc) (.failNested trivial) (by decide)
        · exact Moves.emit rfl (Or.inl rfl) rfl rfl rfl (congrArg (_ :: ·) hc)
            (.replication trivial (Nat.lt_of_sub_eq_succ rfl)) (by decide)
    · exact Moves.goTo rfl (Or.inl rfl) rfl rfl hc .fail (by decide)

theorem setProcessingStage_eq {current next stage : ProcessingStage}
    (h : setProcessingStage current next = some stage) : stage = next := by
  unfold setProcessingStage at h
  split_ifs at h <;> exact (Option.some.inj h).symm

/-- A stage is entered at its place. -/
theorem enterStage_moves {next : ProcessingStage} (hc : s.completion = base a)
    (hnext : 1 ≤ ordinal next ∧ ordinal next ≤ 8) :
    Moves env a (10 * ordinal next + 1) s (s.enterStage env next hasClient) := by
  unfold Start.enterStage
  split
  · exact Moves.goTo rfl (Or.inl rfl) rfl rfl hc .fail (by omega)
  next stage hset =>
    obtain rfl := setProcessingStage_eq hset
    have hstage : 10 * ordinal stage < 10 * ordinal stage + 1 := Nat.lt_succ_self _
    cases stage with
    | created => exact absurd hnext.1 (by decide)
    | stopped => exact absurd hnext.2 (by decide)
    | initializing => exact .of_stage hstage (initializing_moves hc)
    | loadingInitialState => exact .of_stage hstage (loadInitialState_moves hc)
    | synchronizing => exact .of_stage hstage (synchronizing_moves hc)
    | executingCreateHandler => exact .of_stage hstage (executeCreateHandler_moves hc)
    | executingStartHandler => exact .of_stage hstage (executeStartHandler_moves hc)
    | indexingInitialState => exact .of_stage hstage (indexInitialState_moves hc)
    | replicateState => exact .of_stage hstage (replicateState_moves hc)
    | available =>
        refine Moves.of_stage hstage ?_
        exact Moves.emit rfl (Or.inl rfl) rfl rfl rfl hc .announce (by decide)

/-- A service that is stopped keeps its stage if it is not attached. -/
theorem stopService_stage (s : Start β) {p : Nat} :
    s.stopService.processingStage = s.processingStage ∨
      s.stopService.processingStage = .stopped ∨ 10 * ordinal s.stopService.processingStage < p := by
  cases h : s.isAttached with
  | true => exact Or.inr (Or.inl (by simp [Start.stopService, h]))
  | false => exact Or.inl (by simp [Start.stopService, h])

theorem maintain_moves (hc : s.completion = base a) : Moves env a 83 s (s.maintain env) := by
  unfold Start.maintain
  dsimp only
  split_ifs
  · exact Moves.emit rfl (Or.inr (Or.inr (Nat.lt_of_sub_eq_succ rfl))) rfl rfl rfl hc .complete
      (by decide)
  · exact Moves.goTo rfl (Or.inr (Or.inr (Nat.lt_of_sub_eq_succ rfl))) rfl rfl hc .complete
      (by decide)

theorem announce_moves (hc : s.completion = base a) : Moves env a 82 s s.announce := by
  unfold Start.announce
  split_ifs
  · exact Moves.goTo rfl (Or.inl rfl) rfl rfl hc .complete (by decide)
  · exact Moves.goTo rfl (Or.inl rfl) rfl rfl hc .maintain (by decide)

/-- A nested handler goes on with its stage, or fails the POST. -/
theorem complete_nested_moves {f : Frame β} (hc : s.completion = f :: base a)
    (hf : f.IsNested) : Moves env a f.place s (s.complete env) := by
  unfold Start.complete
  rw [hc]
  cases f with
  | startService _ => exact hf.elim
  | original => exact hf.elim
  | proceed next hasClient =>
      obtain ⟨hlow, hhigh⟩ := hf
      refine Moves.goTo rfl (Or.inl rfl) rfl rfl rfl (.process ⟨by omega, by omega⟩) ?_
      simp only [Frame.place]
      omega
  | synchronized next hasClient =>
      obtain ⟨hlow, hhigh⟩ := hf
      refine Moves.goTo rfl (Or.inl rfl) rfl rfl rfl (.process ⟨by omega, by omega⟩) ?_
      simp only [Frame.place]
      omega
  | started finalVersion hasClient =>
      dsimp only
      split
      · exact Moves.goTo rfl (Or.inl rfl) rfl rfl rfl (.process (by decide)) (Nat.lt_of_sub_eq_succ rfl)
      · exact Moves.goTo rfl (Or.inl rfl) rfl rfl rfl .fail (Nat.lt_of_sub_eq_succ rfl)
  | replicated clone hasClient =>
      exact Moves.goTo rfl (Or.inl rfl) rfl rfl rfl (.process (by decide)) (Nat.lt_of_sub_eq_succ rfl)

theorem complete_moves (hc : s.completion = base a) : Moves env a 90 s (s.complete env) := by
  unfold Start.complete
  rw [hc]
  exact Moves.goTo rfl (Or.inl rfl) rfl rfl rfl .reply (by decide)

theorem reply_moves (hc : s.completion = [.original]) : Moves env a 95 s (s.complete env) := by
  unfold Start.complete
  rw [hc]
  exact Moves.reply rfl rfl rfl

theorem fail_nested_moves {f : Frame β} {failure : Failure} (hc : s.completion = f :: base a)
    (hf : f.IsNested) : Moves env a 91 s (s.fail failure) := by
  unfold Start.fail
  rw [hc]
  cases f with
  | startService _ => exact hf.elim
  | original => exact hf.elim
  | proceed _ _ => exact Moves.goTo rfl (Or.inl rfl) rfl rfl rfl .fail (by decide)
  | synchronized _ _ => exact Moves.goTo rfl (Or.inl rfl) rfl rfl rfl .fail (by decide)
  | started _ _ => exact Moves.goTo rfl (Or.inl rfl) rfl rfl rfl .fail (by decide)
  | replicated _ _ => exact Moves.goTo rfl (Or.inl rfl) rfl rfl rfl .fail (by decide)

theorem fail_moves {failure : Failure} (hc : s.completion = base a) :
    Moves env a 92 s (s.fail failure) := by
  unfold Start.fail
  rw [hc]
  dsimp only [base]
  split
  · exact Moves.goTo rfl (Or.inl rfl) rfl rfl rfl .replyFailure (by decide)
  · exact Moves.emit rfl (stopService_stage _) rfl rfl rfl rfl .failStart (by decide)

theorem replyFailure_moves {failure : Failure} (hc : s.completion = [.original]) :
    Moves env a 95 s (s.fail failure) := by
  unfold Start.fail
  rw [hc]
  exact Moves.reply rfl rfl rfl

theorem failStartServiceOrSynchronize_moves {failure : Failure}
    (hc : s.completion = [.original]) (ht : s.task = some (.failStart failure)) :
    Moves env a 93 s (s.failStartServiceOrSynchronize env failure) := by
  unfold Start.failStartServiceOrSynchronize
  split
  next hconflict =>
    split
    next hlinked => exact Moves.lost ht rfl rfl rfl ⟨hconflict, hlinked⟩
    next => exact Moves.emit rfl (Or.inl rfl) rfl rfl rfl hc .synchRequest (by decide)
  next => exact Moves.goTo rfl (Or.inl rfl) rfl rfl hc .replyFailure (by decide)

/-- Whatever a start is told, it moves on. -/
theorem resume_moves {t : Task β} {answer : Answer β} {p : Nat} (ht : s.task = some t)
    (hp : Placed a t s.completion p) (h : resume env s t answer = some s') :
    Moves env a p s s' := by
  generalize hc : s.completion = c at hp
  cases hp with
  | process hnext =>
      cases answer <;> cases h
      exact processServiceStart_moves hc hnext
  | enter hnext =>
      cases answer <;> cases h
      exact enterStage_moves hc hnext
  | indexQuery =>
      cases answer <;> cases h
      · exact Moves.goTo rfl (Or.inl rfl) rfl rfl hc .fail (by decide)
      · exact handleLoadInitialStateCompletion_moves hc
  | convert =>
      cases answer <;> cases h
      exact Moves.emit rfl (stopService_stage _) rfl rfl rfl hc .put (by decide)
  | put =>
      cases answer <;> cases h
      · exact Moves.goTo rfl (Or.inl rfl) rfl rfl hc .complete (by decide)
      · exact Moves.goTo rfl (Or.inl rfl) rfl rfl hc .fail (by decide)
  | ownerSelection hf hlt =>
      cases answer <;> cases h
      · exact Moves.goTo rfl (Or.inl rfl) rfl rfl hc (.failNested hf) (by decide)
      · exact ownerSelected_moves hc hf hlt
  | synchronize hf hlt =>
      cases answer <;> cases h
      exact synchronizeWithPeers_moves hc hf hlt
  | peers hf hlt =>
      cases answer <;> cases h
      · exact Moves.goTo rfl (Or.inl rfl) rfl rfl hc (.failNested hf) (by decide)
      · exact peersSynchronized_moves hc hf hlt
  | index hf hlt | replication hf hlt =>
      cases answer <;> cases h
      · exact Moves.emit rfl (Or.inl rfl) rfl rfl rfl hc (.nested hf) hlt
      · exact Moves.goTo rfl (Or.inl rfl) rfl rfl hc (.failNested hf) (by decide)
  | authorization hf hlt =>
      cases answer <;> cases h
      · exact Moves.goTo rfl (Or.inl rfl) rfl rfl hc (.nested hf) hlt
      · exact Moves.goTo rfl (Or.inl rfl) rfl rfl hc (.failNested hf) (by decide)
  | createHandler hf hlt | startHandler hf hlt =>
      cases answer <;> cases h
      · exact Moves.goTo rfl (Or.inl rfl) rfl rfl hc (.failNested hf) (by decide)
      · exact Moves.goTo rfl (Or.inl rfl) rfl rfl hc (.nested hf) hlt
  | announce =>
      cases answer <;> cases h
      exact announce_moves hc
  | maintain =>
      cases answer <;> cases h
      exact maintain_moves hc
  | nested hf =>
      cases answer <;> cases h
      exact complete_nested_moves hc hf
  | complete =>
      cases answer <;> cases h
      exact complete_moves hc
  | failNested hf =>
      cases answer <;> cases h
      exact fail_nested_moves hc hf
  | fail =>
      cases answer <;> cases h
      exact fail_moves hc
  | failStart =>
      cases answer <;> cases h
      exact failStartServiceOrSynchronize_moves hc ht
  | synchRequest =>
      cases answer <;> cases h
      · exact Moves.goTo rfl (Or.inl rfl) rfl rfl hc .replyFailure (by decide)
      · exact Moves.goTo rfl (Or.inl rfl) rfl rfl hc .replyFailure (by decide)
  | reply =>
      cases answer <;> cases h
      exact reply_moves hc
  | replyFailure =>
      cases answer <;> cases h
      exact replyFailure_moves hc

end Sections

/-! ## Runs -/

section Runs

variable {env : Env β} {a : Bool} {s s' : Start β}

/-- What holds in every state of a start. -/
structure InOrder (env : Env β) (a : Bool) (s : Start β) : Prop where
  sorted : (s.effects.map Effect.place).Pairwise (· < ·)
  place : ∀ t, s.task = some t →
    ∃ p, Placed a t s.completion p ∧ (∀ e ∈ s.effects, e.place < p) ∧
      (s.processingStage = .stopped ∨ 10 * ordinal s.processingStage < p)
  stopped : ∀ failure, s.task = some (.failStart failure) → .stopService failure ∈ s.effects
  heeded : ∀ failure, .stopService failure ∈ s.effects → s.Refused env failure →
    s.task = some (.failStart failure) ∨ s.task = none
  ends : s.task = none → (s.Answered ↔
    ¬∃ failure, .stopService failure ∈ s.effects ∧ s.Refused env failure)

theorem startService_inOrder (flags : Flags) (body : Option (ServiceDocument β)) :
    InOrder env a (startService a flags body) where
  sorted := List.Pairwise.nil
  place := by
    rintro _ ⟨⟩
    exact ⟨10, .process (by decide), by simp [startService], Or.inr (Nat.succ_pos 9)⟩
  stopped := by
    rintro _ ⟨⟩
  heeded := by
    intro failure h
    cases h
  ends := by
    intro h
    cases h

theorem Frame.IsNested.place_le {f : Frame β} (hf : f.IsNested) : f.place ≤ 79 := by
  cases f with
  | startService _ => exact hf.elim
  | original => exact hf.elim
  | proceed next _ | synchronized next _ =>
      have := hf.2
      simp only [Frame.place]
      omega
  | started _ _ => exact Nat.le_of_ble_eq_true rfl
  | replicated _ _ => exact le_rfl

/-- After the service was stopped the POST stays as it is. -/
theorem resume_late {t : Task β} {answer : Answer β} {p : Nat} (hp : Placed a t s.completion p)
    (hlate : 93 ≤ p) (h : resume env s t answer = some s') :
    s'.flags = s.flags ∧ s'.linkedState = s.linkedState := by
  generalize hc : s.completion = c at hp
  cases hp with
  | process hnext | enter hnext => omega
  | nested hf => exact absurd hf.place_le (by omega)
  | failStart =>
      cases answer <;> cases h
      unfold Start.failStartServiceOrSynchronize
      split
      · split <;> exact ⟨rfl, rfl⟩
      · exact ⟨rfl, rfl⟩
  | synchRequest => cases answer <;> cases h <;> exact ⟨rfl, rfl⟩
  | reply =>
      cases answer <;> cases h
      unfold Start.complete
      rw [hc]
      exact ⟨rfl, rfl⟩
  | replyFailure =>
      cases answer <;> cases h
      unfold Start.fail
      rw [hc]
      exact ⟨rfl, rfl⟩
  | _ => omega

theorem failStart_place {c : List (Frame β)} {failure : Failure} {p : Nat}
    (hp : Placed a (.failStart failure) c p) : p = 93 := by
  cases hp
  rfl

theorem refused_congr {failure : Failure} (hflags : s'.flags = s.flags)
    (hlinked : s'.linkedState = s.linkedState) :
    s'.Refused env failure ↔ s.Refused env failure := by
  unfold Start.Refused Start.isReplicaConflict
  rw [hflags, hlinked]

/-- A refused start ends without an answer. -/
theorem refused_task {t : Task β} {answer : Answer β} {failure : Failure}
    (hrefused : s.Refused env failure) (ht : t = .failStart failure)
    (h : resume env s t answer = some s') : s'.task = none := by
  subst ht
  cases answer <;> cases h
  unfold Start.failStartServiceOrSynchronize
  rw [if_pos hrefused.1, hrefused.2]

/-- The step lemma for what a start is told. -/
theorem resume_inOrder {t : Task β} {answer : Answer β} (hs : InOrder env a s)
    (ht : s.task = some t) (h : resume env s t answer = some s') : InOrder env a s' := by
  obtain ⟨p, hp, hbelow, hstage⟩ := hs.place t ht
  have hmoves := resume_moves ht hp h
  -- what was done before is below the place, what is done now is at it
  have hle : ∀ e ∈ s'.effects, e.place ≤ p := by
    rcases hmoves.effects with heffects | ⟨e, he, heffects⟩
    · intro e' he'
      exact (hbelow e' (heffects ▸ he')).le
    · intro e' he'
      rw [heffects, List.mem_append, List.mem_singleton] at he'
      rcases he' with he' | rfl
      · exact (hbelow e' he').le
      · exact he.le
  refine ⟨?_, ?_, ?_, ?_, ?_⟩
  · rcases hmoves.effects with heffects | ⟨e, he, heffects⟩
    · exact heffects ▸ hs.sorted
    · rw [heffects, List.map_append, List.pairwise_append]
      refine ⟨hs.sorted, List.pairwise_singleton _ _, ?_⟩
      intro x hx y hy
      obtain ⟨e', he', rfl⟩ := List.mem_map.mp hx
      obtain rfl : y = e.place := List.mem_singleton.mp hy
      exact he ▸ hbelow e' he'
  · intro t' ht'
    rcases hmoves.task with ⟨hnone, -⟩ | ⟨t'', p', ht'', hp', hlt⟩
    · rw [hnone] at ht'
      cases ht'
    · obtain rfl : t'' = t' := Option.some.inj (ht''.symm.trans ht')
      refine ⟨p', hp', fun e he => (hle e he).trans_lt hlt, ?_⟩
      rcases hmoves.stage with heq | hstopped | hbelow
      · exact heq ▸ hstage.imp_right fun h => h.trans hlt
      · exact Or.inl hstopped
      · exact Or.inr (hbelow.trans hlt)
  · intro failure hfail
    rw [(hmoves.stopped failure).mp hfail]
    exact List.mem_append_right _ (List.mem_singleton_self _)
  · intro failure hmem hrefused
    by_cases hold : Effect.stopService failure ∈ s.effects
    · -- the service was stopped before
      have hlate : 93 ≤ p := hbelow _ hold
      obtain ⟨hflags, hlinked⟩ := resume_late hp hlate h
      have hrefused := (refused_congr hflags hlinked).mp hrefused
      rcases hs.heeded failure hold hrefused with hfail | hnone
      · exact Or.inr (refused_task hrefused (Option.some.inj (ht.symm.trans hfail)) h)
      · rw [ht] at hnone
        cases hnone
    · refine Or.inl ((hmoves.stopped failure).mpr ?_)
      rcases hmoves.effects with heffects | ⟨e, -, heffects⟩
      · exact absurd (heffects ▸ hmem) hold
      · rw [heffects, List.mem_append, List.mem_singleton] at hmem
        rw [heffects, (hmem.resolve_left hold)]
  · intro hnone
    rcases hmoves.task with ⟨-, ⟨rfl, hanswered⟩ | ⟨failure, hfail, heffects, hrefused⟩⟩ |
        ⟨t', p', ht', -⟩
    · refine iff_of_true hanswered ?_
      rintro ⟨failure, hmem, hrefused⟩
      obtain ⟨hflags, hlinked⟩ := resume_late hp (by decide) h
      have hold : Effect.stopService failure ∈ s.effects := by
        rcases hmoves.effects with heffects | ⟨e, he, heffects⟩
        · exact heffects ▸ hmem
        · rw [heffects, List.mem_append, List.mem_singleton] at hmem
          refine hmem.resolve_right ?_
          rintro rfl
          cases he
      rcases hs.heeded failure hold ((refused_congr hflags hlinked).mp hrefused) with hfail | hnone
      · obtain rfl : t = .failStart failure := Option.some.inj (ht.symm.trans hfail)
        exact absurd (failStart_place hp) (by decide)
      · rw [ht] at hnone
        cases hnone
    · obtain rfl : t = .failStart failure := Option.some.inj (ht.symm.trans hfail)
      refine iff_of_false ?_ ?_
      · rintro ⟨r, hr⟩
        have hplace : 95 ≤ 93 := (hle _ hr).trans_eq (failStart_place hp)
        omega
      · exact not_not_intro ⟨failure, heffects ▸ hs.stopped failure hfail, hrefused⟩
    · rw [hnone] at ht'
      cases ht'

/-- The step lemma. -/
theorem step_inOrder {e : Event β} (hs : InOrder env a s) (h : step env s e = some s') :
    InOrder env a s' := by
  cases e with
  | stop =>
      cases h
      refine ⟨hs.sorted, ?_, hs.stopped, hs.heeded, hs.ends⟩
      intro t ht
      obtain ⟨p, hp, hbelow, hstage⟩ := hs.place t ht
      refine ⟨p, hp, hbelow, ?_⟩
      rcases stopService_stage (p := p) s with heq | hstopped | hlt
      · exact heq ▸ hstage
      · exact Or.inl hstopped
      · exact Or.inr hlt
  | hostStops =>
      cases h
      exact ⟨hs.sorted, hs.place, hs.stopped, hs.heeded, hs.ends⟩
  | resume answer =>
      obtain ⟨t, ht, h⟩ := Option.bind_eq_some_iff.mp h
      exact resume_inOrder hs ht h

variable {flags : Flags} {body : Option (ServiceDocument β)} {es : List (Event β)}
  {ok : Start β → Event β → Prop}

theorem reach_inOrder (h : Reach (step env) ok (startService a flags body) es s) :
    InOrder env a s :=
  h.invariant (InOrder env a) (startService_inOrder flags body) fun _ hstep hs =>
    step_inOrder hs hstep

/-- How often the start has gone on. -/
def resumes (es : List (Event β)) : Nat :=
  es.countP fun
    | .resume _ => true
    | _ => false

theorem Placed.place_le {t : Task β} {c : List (Frame β)} {p : Nat} (hp : Placed a t c p) :
    p ≤ 95 := by
  cases hp with
  | process hnext | enter hnext => omega
  | nested hf => exact hf.place_le.trans (by decide)
  | _ => decide

/-- Every section takes a start on, so it does not go on for ever. -/
theorem resumes_le (h : Reach (step env) ok (startService a flags body) es s) :
    (∀ t, s.task = some t → ∃ p, Placed a t s.completion p ∧ resumes es + 10 ≤ p) ∧
      resumes es ≤ 86 := by
  induction h with
  | refl =>
      refine ⟨?_, Nat.zero_le _⟩
      rintro _ ⟨⟩
      exact ⟨10, .process (by decide), le_rfl⟩
  | @snoc es s s' e _ _ hstep ih =>
      obtain ⟨hplace, hle⟩ := ih
      unfold resumes at hplace hle ⊢
      rw [List.countP_append, List.countP_singleton]
      cases e with
      | stop =>
          cases hstep
          exact ⟨hplace, hle⟩
      | hostStops =>
          cases hstep
          exact ⟨hplace, hle⟩
      | resume answer =>
          obtain ⟨t, ht, hstep⟩ := Option.bind_eq_some_iff.mp hstep
          obtain ⟨p, hp, hcount⟩ := hplace t ht
          have := hp.place_le
          refine ⟨?_, by simp only [if_pos]; omega⟩
          intro t' ht'
          rcases (resume_moves ht hp hstep).task with ⟨hnone, -⟩ | ⟨t'', p', ht'', hp', hlt⟩
          · rw [hnone] at ht'
            cases ht'
          · obtain rfl : t'' = t' := Option.some.inj (ht''.symm.trans ht')
            exact ⟨p', hp', by simp only [if_pos]; omega⟩

/-- No start waits for an answer that nobody can give. -/
theorem exists_answer (t : Task β) : ∃ answer s', resume env s t answer = some s' := by
  cases t with
  | indexQuery hasClient => exact ⟨.state none false, _, rfl⟩
  | ownerSelection => exact ⟨.owner true, _, rfl⟩
  | peers state => exact ⟨.selected none, _, rfl⟩
  | createHandler | startHandler => exact ⟨.handled none, _, rfl⟩
  | _ => exact ⟨.done, _, rfl⟩

/-- Whatever a start is told, and whenever the service or the host is stopped: the start does its
work in the order of the stages and nothing twice, it goes on only so often and never gets stuck,
and at its end the POST was answered, unless the start was refused with nothing to synchronize. -/
theorem start_in_order (h : Reach (step env) (fun _ _ => True) (startService a flags body) es s) :
    (s.effects.map Effect.place).Pairwise (· < ·) ∧ resumes es ≤ 86 ∧
      (∀ t, s.task = some t → ∃ answer s', step env s (.resume answer) = some s') ∧
      (s.task = none → (s.Answered ↔
        ¬∃ failure, .stopService failure ∈ s.effects ∧ s.Refused env failure)) := by
  have hs := reach_inOrder h
  refine ⟨hs.sorted, (resumes_le h).2, ?_, hs.ends⟩
  intro t ht
  obtain ⟨answer, s', h⟩ : ∃ answer s', resume env s t answer = some s' := exists_answer t
  exact ⟨answer, s', by rw [step, ht]; exact h⟩

end Runs

end Xenon.ServiceStart
