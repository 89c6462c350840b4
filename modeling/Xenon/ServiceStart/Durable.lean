import Xenon.ServiceStart.Order

/-!
# What a start promises

A client that creates a replicated, persisted service and is told that it succeeded has its state in
the index of the owner and accepted by the replicas, whatever happened on the way, or its request
was handed on as an update of a service that was there. And a service that is stopped while its
start waits is not started any further.
-/

namespace Xenon.ServiceStart

open Xenon.Common Xenon.Foundation
open Stateful (ProcessingStage)

variable {β : Type}

/-! ## Creates -/

/-- The request of a client to create a service that is replicated and persisted. -/
structure IsCreate (env : Env β) (flags : Flags) : Prop where
  persistence : env.persistence = true
  replication : env.replication = true
  factory : env.factory = false
  create : flags.isServiceCreate = true
  direct : flags.isFromReplication = false
  peer : flags.isSynchronizePeer = false
  replicated : flags.isReplicationDisabled = false
  indexed : flags.noIndexUpdate = false

/-- The client supplied the initial state, as the handler knows. -/
def Frame.Supplied : Frame β → Prop
  | .proceed _ hasClient | .synchronized _ hasClient | .started _ hasClient
  | .replicated _ hasClient => hasClient = true
  | .startService _ | .original => True

/-- The client supplied the initial state, as the task knows. -/
def Task.Supplied : Task β → Prop
  | .process _ hasClient | .enter _ hasClient | .indexQuery hasClient => hasClient = true
  | _ => True

namespace Start

variable (env : Env β) (s : Start β)

/-- The body, if there is one, was given to the index. -/
def Given : Prop := ∀ d ∈ s.body, Effect.saveServiceState d ∈ s.effects

/-- The body, if there is one, is in the index. -/
def Saved : Prop := ∀ d ∈ s.body, Effect.saveServiceState d ∈ s.effects ∧ Effect.indexed ∈ s.effects

/-- A state that is in the index was sent to the replicas. -/
def Sent : Prop :=
  ∃ d factoryPath originalLink, Effect.saveServiceState d ∈ s.effects ∧
    Effect.indexed ∈ s.effects ∧ d.documentSelfLink = some originalLink ∧
    Effect.replicateRequest (clonedInitState env d factoryPath originalLink) ∈ s.effects

/-- A state is in the index, and the replicas have accepted it. -/
def Replicated : Prop := s.Sent env ∧ Effect.accepted ∈ s.effects

/-- What a create that succeeds has done. -/
def Created : Prop :=
  s.Replicated env ∧ Effect.available ∈ s.effects ∨ Effect.convertToPut ∈ s.effects

/-- What has been done before a stage. -/
def DoneBefore : ProcessingStage → Prop
  | .replicateState => s.Saved
  | .available => s.Replicated env
  | _ => True

/-- What has been done before a handler of the POST is called with success. -/
def DoneBeforeFrame : Frame β → Prop
  | .proceed next _ | .synchronized next _ => s.DoneBefore env next
  | .replicated _ _ => s.Replicated env
  | .started _ _ => True
  | .startService _ | .original => s.Created env

/-- What has been done at a task. A create does not ask its peers. -/
def DoneAt : Task β → Prop
  | .process next _ | .enter next _ => s.DoneBefore env next
  | .announce | .maintain => s.Replicated env ∧ Effect.available ∈ s.effects
  | .complete | .authorization | .ownerSelection =>
      ∀ f ∈ s.completion.head?, s.DoneBeforeFrame env f
  | .index =>
      s.Given ∧ ∀ f ∈ s.completion.head?, ∃ hasClient, f = .proceed .replicateState hasClient
  | .replication =>
      s.Sent env ∧ ∀ f ∈ s.completion.head?, ∃ clone hasClient, f = .replicated clone hasClient
  | .createHandler =>
      ∀ f ∈ s.completion.head?, ∃ hasClient, f = .proceed .executingStartHandler hasClient
  | .startHandler => ∀ f ∈ s.completion.head?, ∃ version hasClient, f = .started version hasClient
  | .synchronize | .peers _ | .put => False
  | _ => True

end Start

/-- A create on its way: the POST is as it came, and what is due at its point has been done. -/
structure Creating (env : Env β) (flags : Flags) (s : Start β) : Prop where
  flags : s.flags = flags
  supplied : ∀ f ∈ s.completion, f.Supplied
  task : ∀ t, s.task = some t → t.Supplied ∧ s.DoneAt env t
  done : Effect.completed none ∈ s.effects → s.Created env

section Creates

variable {env : Env β} {a : Bool} {flags : Flags} {s s' : Start β} {l : List (Effect β)}

theorem Start.Saved.mono (h : s.Saved) (hbody : s'.body = s.body)
    (heffects : s'.effects = s.effects ++ l) : s'.Saved := by
  intro d hd
  obtain ⟨hsaved, hindexed⟩ := h d (hbody ▸ hd)
  rw [heffects]
  exact ⟨List.mem_append_left _ hsaved, List.mem_append_left _ hindexed⟩

theorem Start.Sent.mono (h : s.Sent env) (heffects : s'.effects = s.effects ++ l) :
    s'.Sent env := by
  obtain ⟨d, factoryPath, originalLink, hsaved, hindexed, hlink, hsent⟩ := h
  rw [Start.Sent, heffects]
  exact ⟨d, factoryPath, originalLink, List.mem_append_left _ hsaved,
    List.mem_append_left _ hindexed, hlink, List.mem_append_left _ hsent⟩

theorem Start.Replicated.mono (h : s.Replicated env) (heffects : s'.effects = s.effects ++ l) :
    s'.Replicated env :=
  ⟨h.1.mono heffects, heffects ▸ List.mem_append_left _ h.2⟩

theorem Start.Created.mono (h : s.Created env) (heffects : s'.effects = s.effects ++ l) :
    s'.Created env := by
  rcases h with ⟨hreplicated, havailable⟩ | hconverted
  · exact Or.inl ⟨hreplicated.mono heffects, heffects ▸ List.mem_append_left _ havailable⟩
  · exact Or.inr (heffects ▸ List.mem_append_left _ hconverted)

theorem Start.DoneBefore.mono {next : ProcessingStage} (h : s.DoneBefore env next)
    (hbody : s'.body = s.body) (heffects : s'.effects = s.effects ++ l) :
    s'.DoneBefore env next := by
  cases next with
  | replicateState => exact Start.Saved.mono h hbody heffects
  | available => exact Start.Replicated.mono h heffects
  | _ => trivial

theorem Start.DoneBeforeFrame.mono {f : Frame β} (h : s.DoneBeforeFrame env f)
    (hbody : s'.body = s.body) (heffects : s'.effects = s.effects ++ l) :
    s'.DoneBeforeFrame env f := by
  cases f with
  | proceed next _ => exact Start.DoneBefore.mono h hbody heffects
  | synchronized next _ => exact Start.DoneBefore.mono h hbody heffects
  | replicated _ _ => exact Start.Replicated.mono h heffects
  | started _ _ => trivial
  | startService _ => exact Start.Created.mono h heffects
  | original => exact Start.Created.mono h heffects

/-- A create goes on with a task. -/
theorem Creating.next {t : Task β} (hs : Creating env flags s)
    (heffects : s'.effects = s.effects ++ l) (hcompleted : Effect.completed none ∉ l)
    (hflags : s'.flags = s.flags) (hcompletion : ∀ f ∈ s'.completion, f.Supplied)
    (htask : s'.task = some t) (hsupplied : t.Supplied) (hdone : s'.DoneAt env t) :
    Creating env flags s' where
  flags := hflags.trans hs.flags
  supplied := hcompletion
  task t' ht' := by
    obtain rfl : t = t' := Option.some.inj (htask.symm.trans ht')
    exact ⟨hsupplied, hdone⟩
  done h := by
    rw [heffects, List.mem_append] at h
    exact (hs.done (h.resolve_right hcompleted)).mono heffects

/-- A create fails, or goes on with a task at which nothing is due. -/
theorem Creating.goTo {t : Task β} (hs : Creating env flags s) (htask : t.Supplied)
    (hdone : (s.goTo t).DoneAt env t) : Creating env flags (s.goTo t) :=
  hs.next (l := []) (List.append_nil _).symm List.not_mem_nil rfl hs.supplied rfl htask hdone

theorem mem_head_cons {f g : Frame β} {c : List (Frame β)} (h : g ∈ (f :: c).head?) : g = f :=
  (Option.some.inj h).symm

theorem supplied_cons {f : Frame β} {c : List (Frame β)} (hf : f.Supplied)
    (h : ∀ g ∈ c, g.Supplied) : ∀ g ∈ f :: c, g.Supplied :=
  List.forall_mem_cons.mpr ⟨hf, h⟩

theorem IsCreate.action (hq : IsCreate env flags) : flags.action = .post := by
  have h := hq.create
  unfold Flags.isServiceCreate at h
  simp only [Bool.and_eq_true, decide_eq_true_eq] at h
  exact h.1

theorem useStateFromStore_flags (s : Start β) (stateFromStore : Option (ServiceDocument β))
    (hasClient : Bool) : (s.useStateFromStore stateFromStore hasClient).flags = s.flags := by
  unfold Start.useStateFromStore
  split <;> rfl

theorem initializing_creating (hs : Creating env flags s) :
    Creating env flags (s.initializing env true) := by
  have hframe : (Frame.proceed (β := β)
      (if env.persistence then .loadingInitialState else .synchronizing) true).Supplied := rfl
  have hbefore : ∀ s' : Start β, s'.DoneBefore env
      (if env.persistence then .loadingInitialState else .synchronizing) := by
    intro s'
    split <;> trivial
  unfold Start.initializing
  dsimp only
  split
  · refine hs.next (l := [.authorize]) rfl (by simp) rfl (supplied_cons hframe hs.supplied) rfl
      trivial ?_
    intro f hf
    rw [mem_head_cons hf]
    exact hbefore _
  · exact hs.next (l := []) (List.append_nil _).symm List.not_mem_nil rfl hs.supplied rfl rfl
      (hbefore _)

theorem loadInitialState_creating (hs : Creating env flags s) :
    Creating env flags (s.loadInitialState env true) := by
  unfold Start.loadInitialState Start.loadInitialServiceState
  dsimp only
  split_ifs
  · exact hs.goTo trivial trivial
  · exact hs.goTo trivial trivial
  · exact hs.next (l := [.queryIndex]) rfl (by simp) rfl hs.supplied rfl rfl trivial
  · exact hs.goTo rfl trivial

/-- A state of the index that has the version of the body is one for a peer. -/
theorem checkServiceExistsOrDeleted_proceed {stateFromStore : Option (ServiceDocument β)}
    {pendingDeletion noIndexUpdate : Bool} (hpeer : s.flags.isSynchronizePeer = false)
    (h : s.checkServiceExistsOrDeleted env stateFromStore pendingDeletion =
      .proceed noIndexUpdate) : noIndexUpdate = false := by
  unfold Start.checkServiceExistsOrDeleted at h
  cases stateFromStore with
  | none => simp_all
  | some st =>
      cases hbody : s.body with
      | none =>
          simp only [hbody] at h
          split_ifs at h <;> cases h <;> rfl
      | some initState =>
          simp only [hbody, hpeer, Bool.false_eq_true, if_false] at h
          split_ifs at h <;> cases h <;> rfl

theorem handleLoadInitialStateCompletion_creating {stateFromStore : Option (ServiceDocument β)}
    {pendingDeletion : Bool} (hq : IsCreate env flags) (hs : Creating env flags s) :
    Creating env flags
      (s.handleLoadInitialStateCompletion env true stateFromStore pendingDeletion) := by
  have hpeer : s.flags.isSynchronizePeer = false := hs.flags ▸ hq.peer
  unfold Start.handleLoadInitialStateCompletion
  dsimp only
  split
  · exact hs.next (l := [.loaded stateFromStore]) rfl (by simp) rfl hs.supplied rfl trivial
      trivial
  · exact hs.next (l := [.loaded stateFromStore]) rfl (by simp) rfl hs.supplied rfl trivial
      trivial
  next noIndexUpdate hproceed =>
    have hsame : noIndexUpdate = false := checkServiceExistsOrDeleted_proceed hpeer hproceed
    subst hsame
    refine hs.next (l := [.loaded stateFromStore]) (useStateFromStore_effects ..) (by simp) ?_ ?_
      rfl rfl trivial
    · refine (useStateFromStore_flags ..).trans ?_
      show { s.flags with noIndexUpdate := s.flags.noIndexUpdate || false } = s.flags
      rw [Bool.or_false]
    · show ∀ f ∈ (Start.useStateFromStore _ _ _).completion, f.Supplied
      rw [useStateFromStore_completion]
      exact hs.supplied

theorem synchronizing_creating (hq : IsCreate env flags) (hs : Creating env flags s) :
    Creating env flags (s.synchronizing env true) := by
  unfold Start.synchronizing
  dsimp only
  rw [if_neg (by simp [hq.factory, hq.replication])]
  refine hs.next (l := [.selectOwner]) rfl (by simp) rfl (supplied_cons rfl hs.supplied) rfl
    trivial ?_
  intro f hf
  rw [mem_head_cons hf]
  show Start.DoneBefore env _ s.afterSynchronizing
  unfold Start.afterSynchronizing
  split <;> trivial

/-- The owner of a new service does not ask its peers. -/
theorem ownerSelected_creating {isLocalHostOwner : Bool} (hq : IsCreate env flags)
    (hs : Creating env flags s) (hdone : s.DoneAt env .ownerSelection) :
    Creating env flags (s.ownerSelected env isLocalHostOwner) := by
  have hdirect : s.flags.isFromReplication = false := hs.flags ▸ hq.direct
  have hcreate : s.flags.isServiceCreate = true := hs.flags ▸ hq.create
  have hcomplete : Creating env flags
      (((s.toggleDocumentOwner isLocalHostOwner).emit (.ownerSelected isLocalHostOwner)).goTo
        .complete) := by
    refine hs.next (l := [.ownerSelected isLocalHostOwner]) rfl (by simp) rfl hs.supplied rfl
      trivial ?_
    intro f hf
    exact Start.DoneBeforeFrame.mono (l := [.ownerSelected isLocalHostOwner]) (hdone f hf) rfl rfl
  unfold Start.ownerSelected
  dsimp only
  split
  · exact hcomplete
  · split
    · exact hcomplete
    next hne =>
      refine absurd ?_ hne
      show (s.flags.isServiceCreate || !isLocalHostOwner) = true
      rw [hcreate, Bool.true_or]

theorem executeCreateHandler_creating (hs : Creating env flags s) :
    Creating env flags (s.executeCreateHandler env true) := by
  have hcomplete : Creating env flags
      ((s.nestCompletion (.proceed .executingStartHandler true)).goTo .complete) := by
    refine hs.next (l := []) (List.append_nil _).symm List.not_mem_nil rfl
      (supplied_cons rfl hs.supplied) rfl trivial ?_
    intro f hf
    rw [mem_head_cons hf]
    trivial
  unfold Start.executeCreateHandler
  dsimp only
  split_ifs
  · exact hcomplete
  · exact hcomplete
  · exact hs.next (l := [.handleCreate]) rfl (by simp) rfl (supplied_cons rfl hs.supplied) rfl
      trivial fun f hf => ⟨true, mem_head_cons hf⟩

theorem executeStartHandler_creating (hs : Creating env flags s) :
    Creating env flags (s.executeStartHandler env true) := by
  have hcomplete : Creating env flags
      ((s.takeLinkedState.nestCompletion (.started s.linkedVersion true)).goTo .complete) := by
    refine hs.next (l := []) (List.append_nil _).symm List.not_mem_nil rfl
      (supplied_cons rfl hs.supplied) rfl trivial ?_
    intro f hf
    rw [mem_head_cons hf]
    trivial
  unfold Start.executeStartHandler
  dsimp only
  split_ifs
  · exact hcomplete
  · exact hcomplete
  · exact hcomplete
  · exact hs.next (l := [.handleStart]) rfl (by simp) rfl (supplied_cons rfl hs.supplied) rfl
      trivial fun f hf => ⟨_, true, mem_head_cons hf⟩

/-- The state of a create is given to the index. -/
theorem indexInitialState_creating (hq : IsCreate env flags) (hs : Creating env flags s) :
    Creating env flags (s.indexInitialState env true) := by
  have hneeds : s.needsIndexing env true = true := by
    have hindexed : s.flags.noIndexUpdate = false := hs.flags ▸ hq.indexed
    simp [Start.needsIndexing, hq.persistence, hq.factory, hindexed]
  have hframe : (Frame.proceed (β := β) .replicateState true).Supplied := rfl
  unfold Start.indexInitialState
  dsimp only
  split
  next hbody =>
    refine hs.next (l := []) (List.append_nil _).symm List.not_mem_nil rfl
      (supplied_cons hframe hs.supplied) rfl trivial ?_
    intro f hf
    rw [mem_head_cons hf]
    intro d hd
    have hnone : s.body = none := hbody
    have hd : d ∈ s.body := hd
    rw [hnone] at hd
    cases hd
  next d hbody =>
    rw [if_pos hneeds]
    refine hs.next (l := [.saveServiceState (s.savedState d)]) rfl (by simp) rfl
      (supplied_cons hframe hs.supplied) rfl trivial ⟨?_, fun f hf => ⟨true, mem_head_cons hf⟩⟩
    intro d' hd'
    obtain rfl : s.savedState d = d' := Option.some.inj hd'
    exact List.mem_append_right _ (List.mem_singleton_self _)

/-- The state that is replicated was given to the index. -/
theorem replicateState_creating (hq : IsCreate env flags) (hs : Creating env flags s)
    (hsaved : s.Saved) : Creating env flags (s.replicateState env true) := by
  have hreplicate : s.shouldReplicate env = true := by
    unfold Start.shouldReplicate
    rw [hs.flags, hq.create, hq.action, hq.replication, hq.direct, hq.replicated]
    rfl
  unfold Start.replicateState
  rw [if_neg (by rw [hreplicate]; decide)]
  split
  next d factoryPath hbody _ =>
    split
    · exact hs.goTo trivial trivial
    next originalLink hlink =>
      dsimp only
      split
      · exact hs.next (l := []) (List.append_nil _).symm List.not_mem_nil rfl
          (supplied_cons rfl hs.supplied) rfl trivial trivial
      · refine hs.next
          (l := [.replicateRequest (Start.clonedInitState env d factoryPath originalLink)]) rfl
          (by simp) rfl (supplied_cons rfl hs.supplied) rfl trivial
          ⟨?_, fun f hf => ⟨_, true, mem_head_cons hf⟩⟩
        obtain ⟨hgiven, hindexed⟩ := hsaved d hbody
        exact ⟨d, factoryPath, originalLink, List.mem_append_left _ hgiven,
          List.mem_append_left _ hindexed, hlink,
          List.mem_append_right _ (List.mem_singleton_self _)⟩
  · exact hs.goTo trivial trivial

theorem enterStage_creating {next : ProcessingStage} (hq : IsCreate env flags)
    (hs : Creating env flags s) (hdone : s.DoneBefore env next) (hlow : 1 ≤ ordinal next)
    (hhigh : ordinal next ≤ 8) : Creating env flags (s.enterStage env next true) := by
  unfold Start.enterStage
  split
  · exact hs.goTo trivial trivial
  next stage hset =>
    have hs' : Creating env flags { s with processingStage := stage } :=
      ⟨hs.flags, hs.supplied, hs.task, hs.done⟩
    cases next with
    | created => exact absurd hlow (by decide)
    | stopped => exact absurd hhigh (by decide)
    | initializing => exact initializing_creating hs'
    | loadingInitialState => exact loadInitialState_creating hs'
    | synchronizing => exact synchronizing_creating hq hs'
    | executingCreateHandler => exact executeCreateHandler_creating hs'
    | executingStartHandler => exact executeStartHandler_creating hs'
    | indexingInitialState => exact indexInitialState_creating hq hs'
    | replicateState => exact replicateState_creating hq hs' hdone
    | available =>
        exact hs'.next (l := [.available]) rfl (by simp) rfl hs.supplied rfl trivial
          ⟨Start.Replicated.mono hdone rfl, List.mem_append_right _ (List.mem_singleton_self _)⟩

/-- A handler of the POST is called. -/
theorem complete_creating {f : Frame β} {existing : List (Frame β)} (hs : Creating env flags s)
    (hdone : s.DoneAt env .complete) (hc : s.completion = f :: existing)
    (hbase : ∀ attached, f = .startService attached → existing = [.original]) :
    Creating env flags (s.complete env) := by
  have hdone : s.DoneBeforeFrame env f := hdone f (by rw [hc]; rfl)
  have hsupplied := hs.supplied
  rw [hc, List.forall_mem_cons] at hsupplied
  obtain ⟨hf, hsupplied⟩ := hsupplied
  unfold Start.complete
  rw [hc]
  cases f with
  | proceed next hasClient =>
      exact hs.next (l := []) (List.append_nil _).symm List.not_mem_nil rfl hsupplied rfl hf
        (Start.DoneBefore.mono (l := []) hdone rfl (List.append_nil _).symm)
  | synchronized next hasClient =>
      obtain rfl : hasClient = true := hf
      exact hs.next (l := []) (List.append_nil _).symm List.not_mem_nil rfl hsupplied rfl
        (Bool.true_or _) (Start.DoneBefore.mono (l := []) hdone rfl (List.append_nil _).symm)
  | started finalVersion hasClient =>
      dsimp only
      split
      · exact hs.next (l := []) (List.append_nil _).symm List.not_mem_nil rfl hsupplied rfl hf
          trivial
      · exact hs.next (l := []) (List.append_nil _).symm List.not_mem_nil rfl hsupplied rfl
          trivial trivial
  | replicated clone hasClient =>
      exact hs.next (l := []) (List.append_nil _).symm List.not_mem_nil rfl hsupplied rfl hf
        (Start.Replicated.mono (l := []) hdone (List.append_nil _).symm)
  | startService attached =>
      refine hs.next (l := []) (List.append_nil _).symm List.not_mem_nil rfl hsupplied rfl
        trivial ?_
      intro f hf
      rw [hbase attached rfl] at hf
      rw [mem_head_cons hf]
      exact Start.Created.mono (l := []) hdone (List.append_nil _).symm
  | original =>
      refine ⟨hs.flags, hsupplied, ?_, fun _ => ?_⟩
      · intro t ht
        cases ht
      · exact Start.Created.mono (l := [.completed none]) hdone rfl

/-- The POST fails. -/
theorem fail_creating {failure : Failure} (hs : Creating env flags s) :
    Creating env flags (s.fail failure) := by
  unfold Start.fail
  cases hc : s.completion with
  | nil =>
      refine ⟨hs.flags, by simp, ?_, hs.done⟩
      intro t ht
      cases ht
  | cons f existing =>
      have hsupplied := hs.supplied
      rw [hc, List.forall_mem_cons] at hsupplied
      obtain ⟨-, hsupplied⟩ := hsupplied
      cases f with
      | startService attached =>
          dsimp only
          split
          · exact hs.next (l := []) (List.append_nil _).symm List.not_mem_nil rfl hsupplied rfl
              trivial trivial
          · exact hs.next (l := [.stopService failure]) rfl (by simp) rfl hsupplied rfl trivial
              trivial
      | original =>
          refine ⟨hs.flags, hsupplied, ?_, ?_⟩
          · intro t ht
            cases ht
          · intro h
            have h : Effect.completed none ∈ s.effects ++ [.completed (some failure)] := h
            rw [List.mem_append, List.mem_singleton] at h
            rcases h with h | h
            · exact (hs.done h).mono (l := [.completed (some failure)]) rfl
            · cases h
      | proceed _ _ | synchronized _ _ | started _ _ | replicated _ _ =>
          exact hs.next (l := []) (List.append_nil _).symm List.not_mem_nil rfl hsupplied rfl
            trivial trivial

/-- The step lemma: a create goes on, or it is made an update. -/
theorem resume_creating {t : Task β} {answer : Answer β} (hq : IsCreate env flags)
    (hin : InOrder env a s) (hs : Creating env flags s) (ht : s.task = some t)
    (h : resume env s t answer = some s') :
    .convertToPut ∈ s'.effects ∨ Creating env flags s' := by
  obtain ⟨p, hp, -, hstage⟩ := hin.place t ht
  obtain ⟨hsupplied, hdone⟩ := hs.task t ht
  have hfail : ∀ failure, Creating env flags (s.goTo (.fail failure)) := fun _ =>
    hs.goTo trivial trivial
  generalize hc : s.completion = c at hp
  cases hp with
  | @process next hasClient hnext =>
      cases answer <;> cases h
      have hne : next ≠ s.processingStage := by
        rintro rfl
        rcases hstage with hstopped | hlt
        · rw [hstopped] at hnext
          exact absurd hnext.2 (by decide)
        · omega
      unfold Start.processServiceStart
      rw [if_neg hne]
      split_ifs
      · exact Or.inr (hfail _)
      · exact Or.inr (hfail _)
      · exact Or.inr (hs.goTo hsupplied hdone)
  | enter hnext =>
      cases answer <;> cases h
      obtain rfl := hsupplied
      exact Or.inr (enterStage_creating hq hs hdone hnext.1 hnext.2)
  | indexQuery =>
      cases answer <;> cases h
      · exact Or.inr (hfail _)
      · obtain rfl := hsupplied
        exact Or.inr (handleLoadInitialStateCompletion_creating hq hs)
  | convert =>
      cases answer <;> cases h
      exact Or.inl (List.mem_append_right _ (List.mem_singleton_self _))
  | put => exact hdone.elim
  | synchronize => exact hdone.elim
  | peers => exact hdone.elim
  | ownerSelection hf hlt =>
      cases answer <;> cases h
      · exact Or.inr (hfail _)
      · exact Or.inr (ownerSelected_creating hq hs hdone)
  | authorization hf hlt =>
      cases answer <;> cases h
      · exact Or.inr (hs.goTo trivial hdone)
      · exact Or.inr (hfail _)
  | index hf hlt =>
      cases answer <;> cases h
      · obtain ⟨hgiven, hframe⟩ := hdone
        refine Or.inr (hs.next (l := [.indexed]) rfl (by simp) rfl hs.supplied rfl trivial ?_)
        intro f hf
        obtain ⟨hasClient, rfl⟩ := hframe f hf
        exact fun d hd => ⟨List.mem_append_left _ (hgiven d hd),
          List.mem_append_right _ (List.mem_singleton_self _)⟩
      · exact Or.inr (hfail _)
  | replication hf hlt =>
      cases answer <;> cases h
      · obtain ⟨hsent, hframe⟩ := hdone
        refine Or.inr (hs.next (l := [.accepted]) rfl (by simp) rfl hs.supplied rfl trivial ?_)
        intro f hf
        obtain ⟨clone, hasClient, rfl⟩ := hframe f hf
        exact ⟨Start.Sent.mono (l := [.accepted]) hsent rfl,
          List.mem_append_right _ (List.mem_singleton_self _)⟩
      · exact Or.inr (hfail _)
  | createHandler hf hlt =>
      cases answer <;> cases h
      · exact Or.inr (hfail _)
      · refine Or.inr (hs.next (l := []) (List.append_nil _).symm List.not_mem_nil rfl
          hs.supplied rfl trivial ?_)
        intro f hf
        obtain ⟨hasClient, rfl⟩ := hdone f hf
        trivial
  | startHandler hf hlt =>
      cases answer <;> cases h
      · exact Or.inr (hfail _)
      · refine Or.inr (hs.next (l := []) (List.append_nil _).symm List.not_mem_nil rfl
          hs.supplied rfl trivial ?_)
        intro f hf
        obtain ⟨version, hasClient, rfl⟩ := hdone f hf
        trivial
  | announce =>
      cases answer <;> cases h
      unfold Start.announce
      split
      · refine Or.inr (hs.goTo trivial ?_)
        intro f hf
        have hf : f ∈ s.completion.head? := hf
        rw [hc] at hf
        rw [mem_head_cons hf]
        exact Or.inl hdone
      · exact Or.inr (hs.goTo trivial hdone)
  | maintain =>
      cases answer <;> cases h
      have hcreated : s.Created env := Or.inl hdone
      have hhead : ∀ f ∈ s.completion.head?, f = .startService a := by
        intro f hf
        rw [hc] at hf
        exact mem_head_cons hf
      unfold Start.maintain
      dsimp only
      split
      · refine Or.inr (hs.next (l := [.maintenance]) rfl (by simp) rfl hs.supplied rfl trivial ?_)
        intro f hf
        rw [hhead f hf]
        exact hcreated.mono (l := [.maintenance]) rfl
      · refine Or.inr (hs.next (l := []) (List.append_nil _).symm List.not_mem_nil rfl
          hs.supplied rfl trivial ?_)
        intro f hf
        rw [hhead f hf]
        exact hcreated
  | nested hf =>
      cases answer <;> cases h
      refine Or.inr (complete_creating hs hdone hc ?_)
      rintro attached rfl
      exact hf.elim
  | complete =>
      cases answer <;> cases h
      exact Or.inr (complete_creating hs hdone hc fun _ _ => rfl)
  | reply =>
      cases answer <;> cases h
      refine Or.inr (complete_creating hs hdone hc ?_)
      rintro attached ⟨⟩
  | failNested hf | fail | replyFailure =>
      cases answer <;> cases h
      exact Or.inr (fail_creating hs)
  | failStart =>
      cases answer <;> cases h
      unfold Start.failStartServiceOrSynchronize
      split
      · split
        · refine Or.inr ⟨hs.flags, hs.supplied, ?_, hs.done⟩
          intro t ht
          cases ht
        · exact Or.inr (hs.next (l := [.synchRequest]) rfl (by simp) rfl hs.supplied rfl trivial
            trivial)
      · exact Or.inr (hfail _)
  | synchRequest =>
      cases answer <;> cases h
      · exact Or.inr (hfail _)
      · exact Or.inr (hfail _)

theorem resume_converted {t : Task β} {answer : Answer β} (hin : InOrder env a s)
    (ht : s.task = some t) (h : resume env s t answer = some s')
    (hconverted : .convertToPut ∈ s.effects) : .convertToPut ∈ s'.effects := by
  obtain ⟨p, hp, -⟩ := hin.place t ht
  rcases (resume_moves ht hp h).effects with heffects | ⟨e, -, heffects⟩ <;> rw [heffects]
  · exact hconverted
  · exact List.mem_append_left _ hconverted

/-- The run lemma: a create is on its way, or it was made an update. -/
theorem reach_creating {body : Option (ServiceDocument β)} {events : List (Event β)}
    {ok : Start β → Event β → Prop} (hq : IsCreate env flags) (hbody : body.isSome)
    (h : Reach (step env) ok (startService a flags body) events s) :
    .convertToPut ∈ s.effects ∨ Creating env flags s := by
  suffices hall : InOrder env a s ∧ (.convertToPut ∈ s.effects ∨ Creating env flags s) from hall.2
  refine h.invariant
    (fun s => InOrder env a s ∧ (.convertToPut ∈ s.effects ∨ Creating env flags s)) ?_ ?_
  · refine ⟨startService_inOrder flags body, Or.inr ⟨rfl, ?_, ?_, ?_⟩⟩
    · simp [startService, Frame.Supplied]
    · rintro _ ⟨⟩
      exact ⟨hbody, trivial⟩
    · intro h
      cases h
  · rintro s e s' - hstep ⟨hin, hs⟩
    refine ⟨step_inOrder hin hstep, ?_⟩
    cases e with
    | stop =>
        cases hstep
        exact hs.imp_right fun hs => ⟨hs.flags, hs.supplied, hs.task, hs.done⟩
    | hostStops =>
        cases hstep
        exact hs.imp_right fun hs => ⟨hs.flags, hs.supplied, hs.task, hs.done⟩
    | resume answer =>
        obtain ⟨t, ht, hstep⟩ := Option.bind_eq_some_iff.mp hstep
        rcases hs with hconverted | hs
        · exact Or.inl (resume_converted hin ht hstep hconverted)
        · exact resume_creating hq hin hs ht hstep

/-- A create of a replicated, persisted service that succeeds, whatever was answered on the way and
whenever the service was stopped: the index has stored a state, the replicas have accepted that
state, and the service became available, or the create was made an update of a service that was
there. -/
theorem create_is_durable {body : Option (ServiceDocument β)} {events : List (Event β)}
    (hq : IsCreate env flags) (hbody : body.isSome)
    (h : Reach (step env) (fun _ _ => True) (startService a flags body) events s)
    (hok : .completed none ∈ s.effects) : s.Created env := by
  rcases reach_creating hq hbody h with hconverted | hs
  · exact Or.inr hconverted
  · exact hs.done hok

end Creates

/-! ## Stops -/

/-- A task that does not set the stage of the service. -/
def Task.Idle : Task β → Prop
  | .enter _ _ | .maintain => False
  | _ => True

/-- What starts a service further: handlers, the index, the replicas, and what is told to those that
wait for it. -/
def Effect.IsWork : Effect β → Prop
  | .authorize | .queryIndex | .selectOwner | .handleCreate | .handleStart | .cacheState _
  | .saveServiceState _ | .replicateRequest _ | .available | .maintenance => True
  | _ => False

/-- The service was stopped, and the start is not about to set its stage. -/
structure Halted (s : Start β) : Prop where
  stage : s.processingStage = .stopped
  task : ∀ t, s.task = some t → t.Idle

section Stops

variable {env : Env β} {s s' : Start β}

/-- A halted start has done no work, and is halted. -/
def Rests (s s' : Start β) : Prop :=
  Halted s' ∧ ∃ es, s'.effects = s.effects ++ es ∧ ∀ e ∈ es, ¬e.IsWork

theorem Rests.goTo {t : Task β} (hs : Halted s) (htask : s'.task = some t) (ht : t.Idle)
    (hstage : s'.processingStage = s.processingStage) (heffects : s'.effects = s.effects) :
    Rests s s' := by
  refine ⟨⟨hstage.trans hs.stage, ?_⟩, [], by rw [heffects, List.append_nil], by simp⟩
  intro t' ht'
  obtain rfl : t = t' := Option.some.inj (htask.symm.trans ht')
  exact ht

theorem Rests.emit {t : Task β} {e : Effect β} (hs : Halted s) (htask : s'.task = some t)
    (ht : t.Idle) (hstage : s'.processingStage = s.processingStage)
    (heffects : s'.effects = s.effects ++ [e]) (he : ¬e.IsWork) : Rests s s' := by
  refine ⟨⟨hstage.trans hs.stage, ?_⟩, [e], heffects, by simpa using he⟩
  intro t' ht'
  obtain rfl : t = t' := Option.some.inj (htask.symm.trans ht')
  exact ht

theorem Rests.ends {l : List (Effect β)} (hs : Halted s) (htask : s'.task = none)
    (hstage : s'.processingStage = s.processingStage) (heffects : s'.effects = s.effects ++ l)
    (hes : ∀ e ∈ l, ¬e.IsWork) : Rests s s' := by
  refine ⟨⟨hstage.trans hs.stage, ?_⟩, l, heffects, hes⟩
  intro t ht
  rw [htask] at ht
  cases ht

theorem stopService_stopped (hs : s.processingStage = .stopped) :
    s.stopService.processingStage = s.processingStage := by
  simp [Start.stopService, hs]

theorem complete_rests (hs : Halted s) : Rests s (s.complete env) := by
  unfold Start.complete
  split
  · exact .ends (l := []) hs rfl rfl (List.append_nil _).symm (by simp)
  · dsimp only
    split
    · exact .goTo hs rfl trivial rfl rfl
    · exact .goTo hs rfl trivial rfl rfl
    · split
      · exact .goTo hs rfl trivial rfl rfl
      · exact .goTo hs rfl trivial rfl rfl
    · exact .goTo hs rfl trivial rfl rfl
    · exact .goTo hs rfl trivial rfl rfl
    · exact .ends (l := [.completed none]) hs rfl rfl rfl (by simp [Effect.IsWork])

theorem fail_rests {failure : Failure} (hs : Halted s) : Rests s (s.fail failure) := by
  unfold Start.fail
  split
  · exact .ends (l := []) hs rfl rfl (List.append_nil _).symm (by simp)
  · dsimp only
    split
    · split
      · exact .goTo hs rfl trivial rfl rfl
      · exact .emit hs rfl trivial (stopService_stopped hs.stage) rfl not_false
    · exact .ends (l := [.completed (some failure)]) hs rfl rfl rfl (by simp [Effect.IsWork])
    · exact .goTo hs rfl trivial rfl rfl

theorem handleLoadInitialStateCompletion_rests {hasClient pendingDeletion : Bool}
    {stateFromStore : Option (ServiceDocument β)} (hs : Halted s) :
    Rests s (s.handleLoadInitialStateCompletion env hasClient stateFromStore pendingDeletion) := by
  unfold Start.handleLoadInitialStateCompletion
  dsimp only
  split
  · exact .emit hs rfl trivial rfl rfl not_false
  · exact .emit hs rfl trivial rfl rfl not_false
  · exact .emit (e := .loaded stateFromStore) hs rfl trivial (useStateFromStore_stage ..)
      (useStateFromStore_effects ..) not_false

theorem ownerSelected_rests {isLocalHostOwner : Bool} (hs : Halted s) :
    Rests s (s.ownerSelected env isLocalHostOwner) := by
  unfold Start.ownerSelected
  dsimp only
  split_ifs <;> exact .emit hs rfl trivial rfl rfl not_false

theorem synchronizeWithPeers_rests (hs : Halted s) : Rests s (s.synchronizeWithPeers env) := by
  unfold Start.synchronizeWithPeers
  split
  · exact .goTo hs rfl trivial rfl rfl
  · exact .goTo hs rfl trivial rfl rfl
  · split
    · exact .goTo hs rfl trivial rfl rfl
    · exact .emit hs rfl trivial rfl rfl not_false

theorem peersSynchronized_rests {state : ServiceDocument β}
    {selected : Option (ServiceDocument β)} (hs : Halted s) :
    Rests s (s.peersSynchronized env state selected) := by
  unfold Start.peersSynchronized
  split
  · exact .goTo hs rfl trivial rfl rfl
  · split
    · exact .goTo hs rfl trivial rfl rfl
    · split
      · split <;> exact .goTo hs rfl trivial rfl rfl
      · dsimp only
        split <;> exact .goTo hs rfl trivial rfl rfl

/-- The step lemma for a start that is halted. -/
theorem resume_rests {t : Task β} {answer : Answer β} (hs : Halted s) (ht : s.task = some t)
    (h : resume env s t answer = some s') : Rests s s' := by
  have hidle := hs.task t ht
  have hfail : ∀ failure, Rests s (s.goTo (.fail failure)) := fun _ =>
    .goTo hs rfl trivial rfl rfl
  have hcomplete : Rests s (s.goTo .complete) := .goTo hs rfl trivial rfl rfl
  cases t with
  | enter _ _ => exact hidle.elim
  | maintain => exact hidle.elim
  | process next hasClient =>
      cases answer <;> cases h
      unfold Start.processServiceStart
      split
      · exact hcomplete
      · split
        · exact hfail _
        · rw [if_pos hs.stage]
          exact hfail _
  | announce =>
      cases answer <;> cases h
      unfold Start.announce
      rw [if_pos hs.stage]
      exact hcomplete
  | complete =>
      cases answer <;> cases h
      exact complete_rests hs
  | fail failure =>
      cases answer <;> cases h
      exact fail_rests hs
  | failStart failure =>
      cases answer <;> cases h
      unfold Start.failStartServiceOrSynchronize
      split
      · split
        · exact .ends (l := []) hs rfl rfl (List.append_nil _).symm (by simp)
        · exact .emit hs rfl trivial rfl rfl not_false
      · exact hfail _
  | convert =>
      cases answer <;> cases h
      exact .emit hs rfl trivial (stopService_stopped hs.stage) rfl not_false
  | synchronize =>
      cases answer <;> cases h
      exact synchronizeWithPeers_rests hs
  | authorization | put =>
      cases answer <;> cases h
      · exact hcomplete
      · exact hfail _
  | index | replication =>
      cases answer <;> cases h
      · exact .emit hs rfl trivial rfl rfl not_false
      · exact hfail _
  | indexQuery hasClient =>
      cases answer <;> cases h
      · exact hfail _
      · exact handleLoadInitialStateCompletion_rests hs
  | ownerSelection =>
      cases answer <;> cases h
      · exact hfail _
      · exact ownerSelected_rests hs
  | peers state =>
      cases answer <;> cases h
      · exact hfail _
      · exact peersSynchronized_rests hs
  | createHandler | startHandler =>
      cases answer <;> cases h
      · exact hfail _
      · exact .goTo hs rfl trivial rfl rfl
  | synchRequest failure =>
      cases answer <;> cases h
      · exact hfail _
      · exact hfail _

/-- The run lemma. -/
theorem reach_rests {es : List (Event β)} {ok : Start β → Event β → Prop} (hs : Halted s)
    (h : Reach (step env) ok s es s') : Rests s s' := by
  induction h with
  | refl => exact ⟨hs, [], (List.append_nil _).symm, by simp⟩
  | @snoc es s₁ s₂ e _ _ hstep ih =>
      obtain ⟨hhalted, new, heffects, hnew⟩ := ih
      cases e with
      | stop =>
          cases hstep
          exact ⟨⟨(stopService_stopped hhalted.stage).trans hhalted.stage, hhalted.task⟩, new,
            heffects, hnew⟩
      | hostStops =>
          cases hstep
          exact ⟨⟨hhalted.stage, hhalted.task⟩, new, heffects, hnew⟩
      | resume answer =>
          obtain ⟨t, ht, hstep⟩ := Option.bind_eq_some_iff.mp hstep
          obtain ⟨hhalted', new', heffects', hnew'⟩ := resume_rests hhalted ht hstep
          refine ⟨hhalted', new ++ new', ?_, ?_⟩
          · rw [heffects', heffects, List.append_assoc]
          · intro e he
            rcases List.mem_append.mp he with he | he
            · exact hnew e he
            · exact hnew' e he

/-- A service that is stopped while its start is not about to set a stage stays stopped: whatever
the start is told from then on, no handler runs, nothing is indexed, cached or replicated, and the
service is not announced. -/
theorem stop_is_final {es : List (Event β)} (hattached : s.isAttached = true)
    (hidle : ∀ t, s.task = some t → t.Idle)
    (h : Reach (step env) (fun _ _ => True) s.stopService es s') :
    s'.processingStage = .stopped ∧
      ∃ new, s'.effects = s.effects ++ new ∧ ∀ e ∈ new, ¬e.IsWork := by
  have hstage : s.stopService.processingStage = .stopped := by
    simp [Start.stopService, hattached]
  obtain ⟨hhalted, hnew⟩ := reach_rests ⟨hstage, hidle⟩ h
  exact ⟨hhalted.stage, hnew⟩

end Stops

/-! ## Runs of a create -/

section Run

/-- A replicated, persisted service. -/
def exampleEnv : Env Unit where
  selfLink := "/core/examples/one"
  persistence := true
  replication := true
  ownerSelection := true
  equals _ _ := true
  replicationParent := some "/core/examples"

def exampleFlags : Flags := { created := true }

def exampleState : ServiceDocument Unit := { documentSelfLink := some "/core/examples/one", body := () }

def exampleCreate : Start Unit := startService true exampleFlags (some exampleState)

/-- The start goes on to the point at which it waits for the handler of the create. -/
def exampleStart : List (Event Unit) :=
  [.resume .done, .resume .done, .resume .done, .resume .done, .resume (.state none false),
    .resume .done, .resume .done, .resume (.owner true), .resume .done, .resume .done,
    .resume .done]

/-- It goes on to its end. -/
def exampleRest : List (Event Unit) :=
  [.resume (.handled (some exampleState)), .resume .done, .resume .done, .resume .done,
    .resume (.handled (some exampleState)), .resume .done, .resume .done, .resume .done,
    .resume .done, .resume .done, .resume .done, .resume .done, .resume .done, .resume .done,
    .resume .done, .resume .done, .resume .done, .resume .done, .resume .done, .resume .done]

/-- The handler refuses the create as a replica would. There is no linked state, and the POST is
never answered. -/
theorem refused_is_not_answered : ∃ s : Start Unit,
    Reach (step exampleEnv) (fun _ _ => True) exampleCreate
      (exampleStart ++ [.resume (.failed failRequestServiceAlreadyStarted), .resume .done,
        .resume .done, .resume .done]) s ∧ s.task = none ∧ ¬s.Answered := by
  have hreach : Reach (step exampleEnv) (fun _ _ => True) exampleCreate
      (exampleStart ++ [.resume (.failed failRequestServiceAlreadyStarted), .resume .done,
        .resume .done, .resume .done]) _ := reach_of_exec rfl
  refine ⟨_, hreach, rfl, ?_⟩
  rw [(start_in_order hreach).2.2.2 rfl, not_not]
  exact ⟨failRequestServiceAlreadyStarted, List.mem_of_getElem? (i := 5) rfl, rfl, rfl⟩

theorem example_is_created : ∃ s : Start Unit,
    Reach (step exampleEnv) (fun _ _ => True) exampleCreate (exampleStart ++ exampleRest) s ∧
      s.task = none ∧ s.Created exampleEnv := by
  have hreach : Reach (step exampleEnv) (fun _ _ => True) exampleCreate
      (exampleStart ++ exampleRest) _ := reach_of_exec rfl
  exact ⟨_, hreach, rfl, create_is_durable ⟨rfl, rfl, rfl, rfl, rfl, rfl, rfl, rfl⟩ rfl hreach
    (List.mem_of_getElem? (i := 12) rfl)⟩

/-- The create while its handler has it. -/
def exampleWaiting : Start Unit :=
  (exec (step exampleEnv) exampleCreate exampleStart).getD exampleCreate

/-- The service is stopped while its handler has the create: what the handler answers is not
indexed. -/
theorem stopped_is_not_indexed : ∃ s : Start Unit,
    Reach (step exampleEnv) (fun _ _ => True) exampleWaiting.stopService
      [.resume (.handled (some exampleState)), .resume .done, .resume .done] s ∧
    s.processingStage = .stopped ∧
      ∃ new, s.effects = exampleWaiting.effects ++ new ∧ ∀ e ∈ new, ¬e.IsWork := by
  have hreach : Reach (step exampleEnv) (fun _ _ => True) exampleWaiting.stopService
      [.resume (.handled (some exampleState)), .resume .done, .resume .done] _ :=
    reach_of_exec rfl
  refine ⟨_, hreach, stop_is_final rfl ?_ hreach⟩
  rintro _ ⟨⟩
  trivial

/-- A stop between the check of a stage and its setting is undone, and the start goes on. -/
example : ((exec (step exampleEnv) exampleCreate
    [.resume .done, .stop, .resume .done]).map (·.processingStage)) = some .initializing := rfl

end Run

end Xenon.ServiceStart
