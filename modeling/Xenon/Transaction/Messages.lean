import Xenon.Transaction.Final

/-!
# The messages that resolve a transaction

When a coordinator commits, it sends a delete to each service that the transaction
deleted and a commit notification to all others; when it aborts, a delete to each
service that the transaction created and an abort notification to all others. The sets
of links overlap, and every link gets one message.

The messages are made when the coordinator begins to commit or to abort. A record that
arrives later and enrolls a service comes too late for them; and if the conflicts are
resolved twice, the messages to commit are sent twice.
-/

namespace Xenon.Transaction

open Common Foundation

variable {L : Type*}

/-- The services that take part in the transaction. -/
def Enrolled (s : State L) (link : L) : Prop :=
  link ∈ s.readLinks ∨ link ∈ s.modifiedLinks ∨ link ∈ s.createdLinks ∨ link ∈ s.deletedLinks

instance [DecidableEq L] (s : State L) (link : L) : Decidable (Enrolled s link) :=
  inferInstanceAs (Decidable (_ ∨ _))

/-- The record does not enroll a service when the messages are made, nor change which
message it should have got. -/
def InTime (s : State L) (record : TransactionContext L) : Prop :=
  (s.taskSubStage.commits → Enrolled s record.serviceLink ∧
    (record.action = .delete → record.serviceLink ∈ s.deletedLinks)) ∧
  (s.taskSubStage.aborts → Enrolled s record.serviceLink ∧
    (record.action = .post → record.serviceLink ∈ s.createdLinks))

instance [DecidableEq L] (s : State L) (record : TransactionContext L) :
    Decidable (InTime s record) :=
  inferInstanceAs (Decidable (_ ∧ _))

/-- The guard of the runs in which no COMMIT is handled in the sub-stage `RESOLVING` and
no record comes too late. -/
def ResolvedOnce (s : Shared L) (t : Task L) (a : Answer) : Prop :=
  CommitOnce s t a ∧ match t with
    | .put record => InTime s.state record
    | _ => True

instance [DecidableEq L] (s : Shared L) (a : Answer) : ∀ t : Task L, Decidable (ResolvedOnce s t a)
  | .put record => inferInstanceAs (Decidable (_ ∧ InTime s.state record))
  | .resolve _ | .checkConflicts _ _ | .awaitChecks _ _ _ | .awaitServices _ _ _ =>
      inferInstanceAs (Decidable (_ ∧ True))

section Messages

variable [DecidableEq L]

def messagesTo (link : L) (sent : List (Message L)) : List (Message L) :=
  sent.filter (·.service = link)

/-- The message that a service should get when the transaction commits. -/
def commitMessage (s : State L) (link : L) : Message L :=
  ⟨link, if link ∈ s.deletedLinks then .delete else .commit⟩

/-- The message that a service should get when the transaction aborts. -/
def abortMessage (s : State L) (link : L) : Message L :=
  ⟨link, if link ∈ s.createdLinks then .delete else .abort⟩

variable {link : L} {links : List L}

theorem messagesTo_map_of_mem (hnodup : links.Nodup) (hlink : link ∈ links) (n : Notification) :
    messagesTo link (links.map (⟨·, n⟩)) = [⟨link, n⟩] := by
  unfold messagesTo
  rw [List.filter_map]
  show (links.filter (· = link)).map _ = _
  rw [List.filter_eq, List.count_eq_one_of_mem hnodup hlink]
  rfl

theorem messagesTo_map_of_not_mem (hlink : link ∉ links) (n : Notification) :
    messagesTo link (links.map (⟨·, n⟩)) = [] := by
  unfold messagesTo
  rw [List.filter_map]
  show (links.filter (· = link)).map _ = _
  rw [List.filter_eq, List.count_eq_zero_of_not_mem hlink]
  rfl

end Messages

/-- The four sets overlap, and each link gets one message. -/
theorem messagesTo_notifications [LinearOrder L] {own : LinkSet L} {s : State L} {link : L}
    (n : Notification) (hlink : link ∈ own ∨ link ∈ s.readLinks ∨ link ∈ s.modifiedLinks) :
    messagesTo link (notifications own n s) = [⟨link, if link ∈ own then .delete else n⟩] := by
  have happend : ∀ sent sent' : List (Message L),
      messagesTo link (sent ++ sent') = messagesTo link sent ++ messagesTo link sent' :=
    fun sent sent' => List.filter_append ..
  unfold notifications
  rw [happend, happend]
  by_cases hown : link ∈ own
  · rw [if_pos hown, messagesTo_map_of_mem own.nodup hown,
      messagesTo_map_of_not_mem (by simp [hown]), messagesTo_map_of_not_mem (by simp [hown])]
    rfl
  · rw [if_neg hown, messagesTo_map_of_not_mem hown]
    by_cases hread : link ∈ s.readLinks
    · rw [messagesTo_map_of_mem (s.readLinks.nodup.filter _) (by simp [hown, hread]),
        messagesTo_map_of_not_mem (by simp [hread])]
      rfl
    · have hmodified : link ∈ s.modifiedLinks := (hlink.resolve_left hown).resolve_left hread
      rw [messagesTo_map_of_not_mem (by simp [hread]),
        messagesTo_map_of_mem (s.modifiedLinks.nodup.filter _) (by simp [hown, hread, hmodified])]
      rfl

/-! ## The invariant -/

/-- The messages that were sent are those that the sub-stage asks for. -/
structure Notified [LinearOrder L] (s : Shared L) : Prop where
  created : ∀ link ∈ s.state.createdLinks, link ∈ s.state.modifiedLinks
  deleted : ∀ link ∈ s.state.deletedLinks, link ∈ s.state.modifiedLinks
  unsent : s.state.taskSubStage = .collecting ∨ s.state.taskSubStage = .resolving → s.sent = []
  commit : s.state.taskSubStage.commits → ∀ link, Enrolled s.state link →
    messagesTo link s.sent = [commitMessage s.state link]
  abort : s.state.taskSubStage.aborts → ∀ link, Enrolled s.state link →
    messagesTo link s.sent = [abortMessage s.state link]

section Effects

variable [LinearOrder L] (s : State L)

theorem handleAbort_messages :
    (handleAbort s).flatMap Effect.messages = createNotifyServicesToAbort s := by
  unfold handleAbort
  dsimp only
  split
  next hempty => exact (List.isEmpty_iff.mp hempty).symm
  next => simp

theorem notifyServicesToCommit_messages :
    (notifyServicesToCommit s).flatMap Effect.messages = createNotifyServicesToCommit s := by
  unfold notifyServicesToCommit
  dsimp only
  split
  next hempty => exact (List.isEmpty_iff.mp hempty).symm
  next => simp

theorem handleCommit_messages (self : L) : (handleCommit self s).flatMap Effect.messages = [] := by
  unfold handleCommit checkPotentialConflicts
  dsimp only
  split_ifs <;> rfl

end Effects

/-! ## What a record changes -/

section Records

variable [LinearOrder L] {s : State L} {record : TransactionContext L} {link : L}

theorem mem_add_if {p : Prop} [Decidable p] {set : LinkSet L} {link' : L} :
    (link ∈ if p then set.add link' else set) ↔ (p ∧ link = link') ∨ link ∈ set := by
  split
  next h => simp [h]
  next h => simp [h]

theorem mem_handlePut_readLinks :
    link ∈ (handlePut s record).readLinks ↔
      (record.action = .get ∧ link = record.serviceLink) ∨ link ∈ s.readLinks :=
  mem_add_if

theorem mem_handlePut_modifiedLinks :
    link ∈ (handlePut s record).modifiedLinks ↔
      (record.action ≠ .get ∧ link = record.serviceLink) ∨ link ∈ s.modifiedLinks := by
  show (link ∈ if record.action = .get then _ else _) ↔ _
  rw [← ite_not]
  exact mem_add_if

theorem mem_handlePut_createdLinks :
    link ∈ (handlePut s record).createdLinks ↔
      (record.action = .post ∧ link = record.serviceLink) ∨ link ∈ s.createdLinks :=
  mem_add_if

theorem mem_handlePut_deletedLinks :
    link ∈ (handlePut s record).deletedLinks ↔
      (record.action = .delete ∧ link = record.serviceLink) ∨ link ∈ s.deletedLinks :=
  mem_add_if

/-- A record for a service that takes part enrolls no other. -/
theorem enrolled_of_handlePut (hrecord : Enrolled s record.serviceLink)
    (h : Enrolled (handlePut s record) link) : Enrolled s link := by
  unfold Enrolled at h
  rw [mem_handlePut_readLinks, mem_handlePut_modifiedLinks, mem_handlePut_createdLinks,
    mem_handlePut_deletedLinks] at h
  rcases h with (⟨-, rfl⟩ | h) | (⟨-, rfl⟩ | h) | (⟨-, rfl⟩ | h) | (⟨-, rfl⟩ | h)
  · exact hrecord
  · exact Or.inl h
  · exact hrecord
  · exact Or.inr (Or.inl h)
  · exact hrecord
  · exact Or.inr (Or.inr (Or.inl h))
  · exact hrecord
  · exact Or.inr (Or.inr (Or.inr h))

end Records

namespace Notified

variable [LinearOrder L] {self : L} {s : Shared L} {t : Task L} {ts : List (Task L)}

theorem of_sent {sent : List (Message L)} (h : Notified s) (hsent : sent = s.sent) :
    Notified ⟨s.state, sent⟩ := by
  rw [hsent]
  exact h

theorem enrolled_cases (h : Notified s) {link : L} (hlink : Enrolled s.state link) :
    link ∈ s.state.readLinks ∨ link ∈ s.state.modifiedLinks := by
  rcases hlink with hlink | hlink | hlink | hlink
  · exact Or.inl hlink
  · exact Or.inr hlink
  · exact Or.inr (h.created link hlink)
  · exact Or.inr (h.deleted link hlink)

/-- The sub-stage changes and nothing is sent. -/
theorem set_stage (h : Notified s) (stage : SubStage)
    (hunsent : stage = .collecting ∨ stage = .resolving →
      s.state.taskSubStage = .collecting ∨ s.state.taskSubStage = .resolving)
    (hcommit : stage.commits → s.state.taskSubStage.commits)
    (habort : stage.aborts → s.state.taskSubStage.aborts) :
    Notified ⟨{ s.state with taskSubStage := stage }, s.sent⟩ where
  created := h.created
  deleted := h.deleted
  unsent hopen := h.unsent (hunsent hopen)
  commit hstage := h.commit (hcommit hstage)
  abort hstage := h.abort (habort hstage)

theorem handleAbort (h : Notified s)
    (hopen : s.state.taskSubStage = .collecting ∨ s.state.taskSubStage = .resolving) :
    Notified (s.advance { s.state with taskSubStage := .aborting }
      (Transaction.handleAbort s.state)).1 where
  created := h.created
  deleted := h.deleted
  unsent := nofun
  commit := nofun
  abort _ link hlink := by
    show messagesTo link (s.sent ++ _) = _
    rw [h.unsent hopen, handleAbort_messages]
    exact messagesTo_notifications .abort (Or.inr (h.enrolled_cases hlink))

theorem notifyServicesToCommit (h : Notified s)
    (hopen : s.state.taskSubStage = .collecting ∨ s.state.taskSubStage = .resolving) :
    Notified (s.advance { s.state with taskSubStage := .committing }
      (Transaction.notifyServicesToCommit s.state)).1 where
  created := h.created
  deleted := h.deleted
  unsent := nofun
  commit _ link hlink := by
    show messagesTo link (s.sent ++ _) = _
    rw [h.unsent hopen, notifyServicesToCommit_messages]
    exact messagesTo_notifications .commit (Or.inr (h.enrolled_cases hlink))
  abort := nofun

/-- A record is handled. -/
theorem handlePut {record : TransactionContext L} (h : Notified s) (hok : InTime s.state record) :
    Notified { s with state := handlePut s.state record } where
  created link hlink := by
    rw [mem_handlePut_createdLinks] at hlink
    rw [mem_handlePut_modifiedLinks]
    rcases hlink with ⟨haction, hlink⟩ | hlink
    · exact Or.inl ⟨by rw [haction]; exact nofun, hlink⟩
    · exact Or.inr (h.created link hlink)
  deleted link hlink := by
    rw [mem_handlePut_deletedLinks] at hlink
    rw [mem_handlePut_modifiedLinks]
    rcases hlink with ⟨haction, hlink⟩ | hlink
    · exact Or.inl ⟨by rw [haction]; exact nofun, hlink⟩
    · exact Or.inr (h.deleted link hlink)
  unsent := h.unsent
  commit hstage link hlink := by
    obtain ⟨henrolled, hdeleted⟩ := hok.1 hstage
    have hsame : commitMessage (Transaction.handlePut s.state record) link =
        commitMessage s.state link := by
      have hmem : link ∈ (Transaction.handlePut s.state record).deletedLinks ↔ link ∈ s.state.deletedLinks :=
        mem_handlePut_deletedLinks.trans (or_iff_right_of_imp fun hnew => hnew.2 ▸ hdeleted hnew.1)
      simp only [commitMessage, hmem]
    rw [hsame]
    exact h.commit hstage link (enrolled_of_handlePut henrolled hlink)
  abort hstage link hlink := by
    obtain ⟨henrolled, hcreated⟩ := hok.2 hstage
    have hsame : abortMessage (Transaction.handlePut s.state record) link =
        abortMessage s.state link := by
      have hmem : link ∈ (Transaction.handlePut s.state record).createdLinks ↔ link ∈ s.state.createdLinks :=
        mem_handlePut_createdLinks.trans (or_iff_right_of_imp fun hnew => hnew.2 ▸ hcreated hnew.1)
      simp only [abortMessage, hmem]
    rw [hsame]
    exact h.abort hstage link (enrolled_of_handlePut henrolled hlink)

/-- A resolution request is handled. -/
theorem handlePatch {kind : ResolutionKind} {r : State L × List (Effect L)} (h : Notified s)
    (hinv : Inv s (.resolve kind :: ts)) (hr : handlePatch self s.state kind = .ok r) :
    Notified (s.advance r.1 r.2).1 := by
  have hfits := hinv.fits _ (List.mem_cons_self ..)
  rcases handlePatch_cases hr with rfl | ⟨rfl, hopen, rfl⟩ | ⟨rfl, hopen, rfl⟩ |
    ⟨rfl, haborts, rfl⟩ | ⟨rfl, rfl⟩ | ⟨rfl, rfl⟩
  · exact h.of_sent (List.append_nil _)
  · exact h.handleAbort hopen
  · refine (h.set_stage .resolving (fun _ => hopen) nofun nofun).of_sent ?_
    show s.sent ++ (handleCommit self s.state).flatMap Effect.messages = s.sent
    rw [handleCommit_messages, List.append_nil]
  · exact h.notifyServicesToCommit (hinv.open_of_committing haborts)
  · exact (h.set_stage .committed nofun (fun _ => hfits) nofun).of_sent (List.append_nil _)
  · exact (h.set_stage .aborted nofun nofun (fun _ => hfits)).of_sent (List.append_nil _)

theorem fire {a : Answer} {r : Shared L × List (Task L)} (hok : ResolvedOnce s t a)
    (hfire : fire self s t a = some r) (hinv : Inv s (t :: ts)) (h : Notified s) :
    Notified r.1 := by
  unfold Transaction.fire at hfire
  split at hfire
  next =>
    split at hfire <;> cases hfire
    · exact h
    next hr => exact h.handlePatch hinv hr
  next =>
    cases hfire
    exact h.handlePut hok.2
  next txLink serviceLink =>
    cases hfire
    rcases handleCheckConflicts_cases self s.state txLink serviceLink with
      ⟨hopen, -, hr⟩ | ⟨-, hr⟩
    · rw [hr]
      exact h.handleAbort hopen
    · rw [hr]
      exact h.of_sent (List.append_nil _)
  next =>
    obtain ⟨check, -, rfl⟩ := Option.map_eq_some_iff.mp hfire
    exact h
  next =>
    obtain ⟨message, -, rfl⟩ := Option.map_eq_some_iff.mp hfire
    exact h
  next => cases hfire

end Notified

/-! ## Runs -/

section Runs

variable [LinearOrder L] {self : L} {allowErrorsCauseAbort : Bool} {p : Pool (Shared L) (Task L)}

theorem reaches_notified
    (h : (coordinator self).Reaches ResolvedOnce (start allowErrorsCauseAbort) p) :
    Inv p.shared p.tasks ∧ Notified p.shared := by
  apply Machine.invariant (fun s ts => Inv s ts ∧ Notified s) h
  case perm =>
    intro s ts ts' hp ⟨hinv, hsent⟩
    exact ⟨hinv.perm hp, hsent⟩
  case init =>
    exact ⟨inv_start, fun _ hlink => absurd hlink (LinkSet.not_mem_empty _),
      fun _ hlink => absurd hlink (LinkSet.not_mem_empty _), fun _ => rfl, nofun, nofun⟩
  case input =>
    intro s ts i ⟨hinv, hsent⟩
    refine ⟨hinv.input i, ?_⟩
    cases i <;> exact hsent
  case fire =>
    intro s t ts a r hok hfire ⟨hinv, hsent⟩
    exact ⟨(hinv.fire hok.1 hfire).1, hsent.fire hok hfire hinv⟩

/-- In every run of a coordinator in which no COMMIT is handled in the sub-stage
`RESOLVING` and no record comes too late: when it is `COMMITTED` every enrolled service
was sent one message, a delete if the transaction deleted it and a commit notification
otherwise; when it is `ABORTED` every enrolled service was sent one message, a delete if
the transaction created it and an abort notification otherwise. -/
theorem resolved_once
    (h : (coordinator self).Reaches ResolvedOnce (start allowErrorsCauseAbort) p) {link : L}
    (hlink : Enrolled p.shared.state link) :
    (p.shared.state.taskSubStage = .committed →
      messagesTo link p.shared.sent = [commitMessage p.shared.state link]) ∧
    (p.shared.state.taskSubStage = .aborted →
      messagesTo link p.shared.sent = [abortMessage p.shared.state link]) := by
  obtain ⟨-, hsent⟩ := reaches_notified h
  constructor
  · intro hstage
    exact hsent.commit (by rw [hstage]; rfl) link hlink
  · intro hstage
    exact hsent.abort (by rw [hstage]; rfl) link hlink

theorem resolved_once_committed : ∃ p : Pool (Shared String) (Task String),
    p.shared.state.taskSubStage = .committed ∧
      messagesTo "/examples/s" p.shared.sent = [⟨"/examples/s", .commit⟩] := by
  have hexec : ∃ p, (coordinator "/tx/a").exec ResolvedOnce (start true) exampleEvents = some p ∧
      p.shared.state.taskSubStage = .committed ∧ Enrolled p.shared.state "/examples/s" ∧
      commitMessage p.shared.state "/examples/s" = ⟨"/examples/s", .commit⟩ :=
    ⟨_, rfl, rfl, by decide, rfl⟩
  obtain ⟨p, hp, hstage, hlink, hmessage⟩ := hexec
  have hsent := (resolved_once (Machine.reaches_of_exec hp) hlink).1 hstage
  exact ⟨p, hstage, hsent.trans (congrArg (fun m => [m]) hmessage)⟩

/-- Two COMMITs are handled before the first COMMITTING: the service is notified twice. -/
theorem services_notified_twice : ∃ p : Pool (Shared String) (Task String),
    (coordinator "/tx/a").Reaches (fun _ _ _ => True) (start true) p ∧
      p.shared.state.taskSubStage = .committed ∧ Enrolled p.shared.state "/examples/s" ∧
      messagesTo "/examples/s" p.shared.sent =
        [⟨"/examples/s", .commit⟩, ⟨"/examples/s", .commit⟩] := by
  have hexec : ∃ p, (coordinator "/tx/a").exec (fun _ _ _ => True) (start true)
      [.input (.put ⟨"/examples/s", .put, some ["/tx/a"], true⟩), .fire 0 .done,
        .input .commit, .input .commit, .fire 0 .done, .fire 1 .done, .fire 0 .done, .fire 1 .done,
        .fire 0 (.notified 0 true), .fire 0 .done] = some p ∧
      p.shared.state.taskSubStage = .committed ∧ Enrolled p.shared.state "/examples/s" ∧
      messagesTo "/examples/s" p.shared.sent =
        [⟨"/examples/s", .commit⟩, ⟨"/examples/s", .commit⟩] :=
    ⟨_, rfl, rfl, by decide, by decide⟩
  obtain ⟨p, hp, hsent⟩ := hexec
  exact ⟨p, Machine.reaches_of_exec hp, hsent⟩

end Runs

end Xenon.Transaction
