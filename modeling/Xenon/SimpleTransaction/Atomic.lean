import Xenon.SimpleTransaction.History

/-!
# Simple transactions are atomic

Every event keeps the traces of a transaction (`Traced`). So while a transaction has a
service its state is what the last request of the transaction has left, and the transaction
lets it go with what was there before if it aborts, and with what its last request has left,
or without a state if it has deleted the service, if it commits.
-/

namespace Xenon.SimpleTransaction

open Common Foundation
open SynchronizationTask (TaskStage)
open Transaction (LinkSet)

variable {L T D : Type*}

variable {concurrentGetHandling : L → Bool} {t : T} {σ σ' : State L T D}

def Traced (t : T) (σ : State L T D) : Prop :=
  ∀ link, Trace (σ.services link) (σ.coordinators t) (Pending σ t link) t link (σ.history t link)

namespace Traced

/-- Another coordinator changes, and what its transaction has done. -/
theorem setCoordinator [DecidableEq T] (h : Traced t σ) {t' : T} {c : Coordinator L}
    {history : T → L → Option (Touched D)} (hne : t ≠ t') (hhistory : history t = σ.history t) :
    Traced t { σ.setCoordinator t' c with history := history } := by
  intro link
  show Trace (σ.services link) (Function.update σ.coordinators t' c t) (Pending σ t link) t link
    (history t link)
  rw [Function.update_of_ne hne, hhistory]
  exact h link

variable [DecidableEq L]

/-- A service changes. -/
theorem setService (h : Traced t σ) {link : L} {s : Service T D}
    (hs : Trace s (σ.coordinators t) (Pending σ t link) t link (σ.history t link)) :
    Traced t (σ.setService link s) := by
  intro link'
  show Trace (Function.update σ.services link s link') (σ.coordinators t) (Pending σ t link') t
    link' (σ.history t link')
  by_cases hlink : link' = link
  · rw [hlink, Function.update_self]
    exact hs
  · rw [Function.update_of_ne hlink]
    exact h link'

theorem written (h : Traced t σ) {link : L} {s : Service T D}
    (hactive : (σ.services link).active = [])
    (hmark : ∀ doc ∈ (σ.services link).state, doc.documentTransactionId = none)
    (hs : (∃ content, s = (σ.services link).save content none) ∨
      ∃ content, s = (σ.services link).stop content) : Traced t (σ.setService link s) := by
  apply h.setService
  apply (h link).service
  · rcases hs with ⟨content, rfl⟩ | ⟨content, rfl⟩
    · exact grows_save content none
    · exact grows_stop content
  · intro _ a ha
    exact absurd ha (not_mem_of_idle hactive)
  · intro content hstate
    cases hmark ⟨content, some t⟩ hstate

theorem dropped (h : Traced t σ) {link : L} {n : Nat} {a : Active T D}
    (ha : (σ.services link).active[n]? = some a)
    (hlost : (a.transactionId ≠ t ∧ a.handler.action ≠ .delete) ∨
      (σ.coordinators a.transactionId).stage ≠ .started) :
    Traced t (σ.setService link { σ.services link with
      active := (σ.services link).active.eraseIdx n }) := by
  apply h.setService
  refine (h link).service (Grows.refl _) ?_ fun _ => id
  intro hstarted b hb htransaction _
  apply mem_eraseIdx_of_ne ha hb
  rintro rfl
  rcases hlost with ⟨hne, -⟩ | hstage
  · exact hne htransaction
  · rw [htransaction] at hstage
    exact hstage hstarted

theorem admitted (h : Traced t σ) {link : L} {a : Active T D} :
    Traced t (σ.setService link { σ.services link with
      active := (σ.services link).active ++ [a] }) := by
  apply h.setService
  exact (h link).service (Grows.refl _) (fun _ _ ha _ _ => List.mem_append_left _ ha) fun _ => id

variable [DecidableEq T]

theorem enrolled (h : Traced t σ) (hinv : Inv σ) {link : L} {n : Nat} {a : Active T D}
    (ha : (σ.services link).active[n]? = some a)
    (hending : (σ.coordinators a.transactionId).ending = none)
    (hstarted : (σ.coordinators a.transactionId).stage = .started) :
    Traced t ((σ.setService link { σ.services link with
        active := (σ.services link).active.set n { a with isEnrolled := true } }).setCoordinator
      a.transactionId ((σ.coordinators a.transactionId).handlePatchForEnroll link
        a.handler.action a.linkedVersion)) := by
  by_cases ht : t = a.transactionId
  · subst ht
    intro link'
    show Trace (Function.update σ.services link _ link')
      (Function.update σ.coordinators a.transactionId _ a.transactionId)
      (Pending σ a.transactionId link') a.transactionId link' (σ.history a.transactionId link')
    rw [Function.update_self]
    by_cases hlink : link' = link
    · rw [hlink, Function.update_self]
      exact (h link).enroll (hinv.coordinator _) (hinv.service link) ha hending hstarted
    · rw [Function.update_of_ne hlink]
      exact (h link').enroll_of_ne hending hstarted hlink
  · refine Traced.setCoordinator (h.setService ?_) ht rfl
    refine (h link).service (Grows.refl _) ?_ fun _ => id
    intro _ b hb htransaction _
    apply mem_set_of_ne ha hb
    rintro rfl
    exact ht htransaction.symm

theorem executed (h : Traced t σ) (hinv : Inv σ) {link : L} {n : Nat} {a : Active T D}
    (ha : (σ.services link).active[n]? = some a) (henrolled : a.isEnrolled) :
    Traced t { σ.setService link ({ σ.services link with
        active := (σ.services link).active.eraseIdx n }.execute (some a.transactionId) a.linked
          a.handler) with
      history := touch σ.history a.transactionId link (some a.linked)
        (a.handler.result a.linked) (a.handler.action = .delete) } := by
  have hs := hinv.service link
  have hmem := List.mem_of_getElem? ha
  rw [Service.execute_some (hs.keeps a hmem)]
  intro link'
  show Trace (Function.update σ.services link _ link') (σ.coordinators t) (Pending σ t link') t
    link' (touch σ.history a.transactionId link _ _ _ t link')
  by_cases ht : t = a.transactionId
  · subst ht
    by_cases hlink : link' = link
    · rw [hlink, Function.update_self, touch_apply]
      have hknown := (hinv.pair _ link).enrolled a hmem rfl henrolled
      have htrace := h link
      cases hhistory : σ.history a.transactionId link with
      | none =>
          rw [hhistory] at htrace
          exact htrace.execute_first hs ha hknown
      | some x =>
          rw [hhistory] at htrace
          exact htrace.execute_again hs ha hknown
    · rw [Function.update_of_ne hlink, touch_apply_of_ne hlink]
      exact h link'
  · rw [touch_of_ne ht]
    by_cases hlink : link' = link
    · rw [hlink, Function.update_self]
      refine (h link).service (grows_execute _ (some a.transactionId)) ?_ ?_
      · intro _ b hb htransaction
        exact absurd (htransaction.symm.trans (hs.same b hb a hmem)) ht
      · intro content hstate
        exact absurd (Owned.eq_of_active hs hmem (Or.inl ⟨content, hstate⟩)) ht
    · rw [Function.update_of_ne hlink]
      exact h link'

theorem posted (h : Traced t σ) {link : L} {t' : T} {content : D}
    (hending : (σ.coordinators t').ending = none)
    (hstarted : (σ.coordinators t').stage = .started) :
    Traced t { σ.setCoordinator t' ((σ.coordinators t').handlePatchForEnroll link .post (-1)) with
      creations := σ.creations ++ [⟨t', link, content⟩] } := by
  intro link'
  show Trace (σ.services link') (Function.update σ.coordinators t' _ t)
    (∃ p ∈ σ.creations ++ [⟨t', link, content⟩], p.transactionId = t ∧ p.link = link') t link'
    (σ.history t link')
  have hpending : ¬ (t' = t ∧ link = link') → (Pending σ t link' ↔
      ∃ p ∈ σ.creations ++ [(⟨t', link, content⟩ : Creation L T D)],
        p.transactionId = t ∧ p.link = link') := by
    intro hne
    constructor
    · rintro ⟨p, hp, hpair⟩
      exact ⟨p, List.mem_append_left _ hp, hpair⟩
    · rintro ⟨p, hp, hpair⟩
      rcases List.mem_append.mp hp with hp | hp
      · exact ⟨p, hp, hpair⟩
      · cases List.mem_singleton.mp hp
        exact absurd hpair hne
  by_cases ht : t = t'
  · subst ht
    rw [Function.update_self]
    by_cases hlink : link' = link
    · subst hlink
      exact (h link').post hending hstarted
        ⟨_, List.mem_append_right _ List.mem_cons_self, rfl, rfl⟩
    · apply ((h link').enroll_of_ne hending hstarted hlink).congr_pending
      exact hpending fun hpair => hlink hpair.2.symm
  · rw [Function.update_of_ne ht]
    exact (h link').congr_pending (hpending fun hpair => ht hpair.1.symm)

theorem created (h : Traced t σ) (hinv : Inv σ) {n : Nat} {p : Creation L T D}
    (hp : σ.creations[n]? = some p) (hstate : (σ.services p.link).state = none) :
    Traced t { σ.setService p.link
        ((σ.services p.link).save p.content (some p.transactionId)) with
      creations := σ.creations.eraseIdx n
      history := touch σ.history p.transactionId p.link none p.content false } := by
  intro link
  show Trace (Function.update σ.services p.link _ link) (σ.coordinators t)
    (∃ q ∈ σ.creations.eraseIdx n, q.transactionId = t ∧ q.link = link) t link
    (touch σ.history p.transactionId p.link none p.content false t link)
  have hpending : ¬ (p.transactionId = t ∧ p.link = link) → (Pending σ t link ↔
      ∃ q ∈ σ.creations.eraseIdx n, q.transactionId = t ∧ q.link = link) := by
    intro hne
    constructor
    · rintro ⟨q, hq, hpair⟩
      refine ⟨q, mem_eraseIdx_of_ne hp hq ?_, hpair⟩
      rintro rfl
      exact hne hpair
    · rintro ⟨q, hq, hpair⟩
      exact ⟨q, List.mem_of_mem_eraseIdx hq, hpair⟩
  have hothers : t ≠ p.transactionId → Trace (Function.update σ.services p.link
      ((σ.services p.link).save p.content (some p.transactionId)) link) (σ.coordinators t)
      (Pending σ t link) t link (σ.history t link) := by
    intro ht
    refine h.setService ?_ link
    refine (h p.link).service (grows_save ..) ?_ ?_
    · intro _ a ha
      rw [(hinv.service p.link).idle hstate] at ha
      exact absurd ha List.not_mem_nil
    · intro content hmark
      rw [hstate] at hmark
      cases hmark
  by_cases ht : t = p.transactionId
  · subst ht
    by_cases hlink : link = p.link
    · subst hlink
      rw [Function.update_self, touch_apply]
      have hunreleased := hinv.unreleased_of_creation (List.mem_of_getElem? hp)
      cases hhistory : σ.history p.transactionId p.link with
      | none =>
          have htrace := h p.link
          rw [hhistory] at htrace
          exact htrace.create ((hinv.service p.link).idle hstate) hunreleased
            (hinv.creation p (List.mem_of_getElem? hp)).2.2
      | some x =>
          -- The transaction has the service, which therefore exists.
          have hheld := (h p.link).held x hhistory hunreleased
          rw [hstate] at hheld
          cases hheld
    · rw [Function.update_of_ne hlink, touch_apply_of_ne hlink]
      exact (h link).congr_pending (hpending fun hpair => hlink hpair.2.symm)
  · rw [touch_of_ne ht]
    exact (hothers ht).congr_pending (hpending fun hpair => ht hpair.1.symm)

theorem ended (h : Traced t σ) {t' : T} {outcome : TransactionOutcome}
    (hending : (σ.coordinators t').ending = none)
    (hstarted : (σ.coordinators t').stage = .started) :
    Traced t (σ.setCoordinator t'
      ((σ.coordinators t').handlePatchForEndTransaction outcome)) := by
  by_cases ht : t = t'
  · subst ht
    intro link
    show Trace (σ.services link) (Function.update σ.coordinators t _ t) (Pending σ t link) t link
      (σ.history t link)
    rw [Function.update_self, handlePatchForEndTransaction_eq]
    apply (h link).settle hstarted
    · intro _ e he
      exact absurd (hending.symm.trans he) nofun
    · intro x hx hlink
      rw [mem_links_endRequests] at hlink
      exact absurd (Or.inr ((h link).enrolled x hx hstarted)) hlink
  · exact h.setCoordinator ht rfl

theorem deleted (h : Traced t σ) (hinv : Inv σ) {t' : T} {e : Ending L} {n : Nat} {link : L}
    (he : (σ.coordinators t').ending = some e) (hn : e.deletes[n]? = some link)
    (hactive : (σ.services link).active = []) :
    Traced t { (σ.setService link ((σ.services link).state.elim (σ.services link) fun doc =>
          (σ.services link).stop doc.content)).setCoordinator t'
        ((σ.coordinators t').deleteAnswered { e with deletes := e.deletes.eraseIdx n }) with
      history := release σ.history t' link none } := by
  have hending := (hinv.coordinator t').ending e he
  have hown : Owned (σ.services link) t' :=
    (hinv.pair t' link).ending hending.started e he (List.mem_of_getElem? hn)
  obtain ⟨content, hstate⟩ := hown.marked hactive
  rw [hstate, deleteAnswered_of_ok hending.delete.ok]
  by_cases ht : t = t'
  · subst ht
    intro link'
    show Trace (Function.update σ.services link ((σ.services link).stop content) link')
      (Function.update σ.coordinators t _ t) (Pending σ t link') t link'
      (release σ.history t link none t link')
    rw [Function.update_self]
    by_cases hlink : link' = link
    · subst hlink
      rw [Function.update_self, release_apply]
      apply (h link').release hending.started (hinv.not_pending he) (grows_stop content) hactive
      · rw [hending.mem_links_delete hn]
        exact fun hlinks => hlinks.2 rfl
      · intro x hx _
        have htrace := h link'
        rw [hx] at htrace
        exact (htrace.stopped (hinv.not_pending he) hending (List.mem_of_getElem? hn) hactive).symm
    · rw [Function.update_of_ne hlink, release_apply_of_ne hlink]
      apply (h link').settle hending.started
      · intro hlinks e' he'
        cases he.symm.trans he'
        exact ((hending.mem_links_delete hn).mp hlinks).1
      · intro x _ hlinks
        rw [hending.mem_links_delete hn, and_iff_left hlink] at hlinks
        exact Or.inl ⟨e, he, rfl, hlinks⟩
  · refine Traced.setCoordinator (h.setService ?_) ht (release_of_ne ht)
    refine (h link).service (grows_stop content) ?_ ?_
    · intro _ a ha
      exact absurd ha (not_mem_of_idle hactive)
    · intro content' hmark
      exact absurd (Owned.unique (hinv.service link) (Or.inl ⟨content', hmark⟩) hown) ht

theorem cleared (h : Traced t σ) (hinv : Inv σ) {t' : T} {e : Ending L} {n : Nat}
    {r : L × EnrollmentInfo} {s : Service T D} (he : (σ.coordinators t').ending = some e)
    (hdeletes : e.deletes = []) (hn : e.clears[n]? = some r)
    (hactive : (σ.services r.1).active = [])
    (hs : (σ.services r.1).handleClearTransaction t' e.outcome r.2 = some s) :
    Traced t { (σ.setService r.1 s).setCoordinator t'
        ((σ.coordinators t').clearAnswered { e with clears := e.clears.eraseIdx n }) with
      history := release σ.history t' r.1 (s.state.map Document.content) } := by
  have hending := (hinv.coordinator t').ending e he
  obtain ⟨content, mark, hstate, hcases⟩ := Service.handleClearTransaction_cases hs
  have hgrows : Grows (σ.services r.1) s := by
    rcases hcases with ⟨-, rfl⟩ | ⟨-, content', rfl, -⟩
    · exact grows_save content mark
    · exact grows_save content' none
  rw [clearAnswered_of_ok hending.clear.ok]
  by_cases ht : t = t'
  · subst ht
    intro link
    show Trace (Function.update σ.services r.1 s link) (Function.update σ.coordinators t _ t)
      (Pending σ t link) t link (release σ.history t r.1 _ t link)
    rw [Function.update_self]
    -- the service that is cleared is released by it, and no other
    by_cases hlink : link = r.1
    · subst hlink
      rw [Function.update_self, release_apply]
      apply (h r.1).release hending.started (hinv.not_pending he) hgrows hactive
      · rw [hending.mem_links_clear hdeletes hn]
        exact fun hlinks => hlinks.2 rfl
      · intro x hx henrolled
        have htrace := h r.1
        rw [hx] at htrace
        show _ = x.final e.outcome
        exact htrace.cleared (hinv.not_pending he) hending he (List.mem_of_getElem? hn) henrolled hs
    · rw [Function.update_of_ne hlink, release_apply_of_ne hlink]
      apply (h link).settle hending.started
      · intro hlinks e' he'
        cases he.symm.trans he'
        exact ((hending.mem_links_clear hdeletes hn).mp hlinks).1
      · intro x _ hlinks
        rw [hending.mem_links_clear hdeletes hn, and_iff_left hlink] at hlinks
        exact Or.inl ⟨e, he, rfl, hlinks⟩
  · refine Traced.setCoordinator (h.setService ?_) ht (release_of_ne ht)
    refine (h r.1).service hgrows ?_ ?_
    · intro _ a ha
      exact absurd ha (not_mem_of_idle hactive)
    · intro content' hmark
      cases hstate.symm.trans hmark
      rcases hcases with ⟨-, rfl⟩ | ⟨hmark', -⟩
      · rfl
      · exact absurd (Option.some.inj hmark') ht

/-- Every change that an event makes. -/
theorem change (h : Traced t σ) (hinv : Inv σ) (hchange : Change t σ σ') : Traced t σ' := by
  cases hchange with
  | refused => exact h
  | written hactive hmark hs => exact h.written hactive hmark hs
  | admitted => exact h.admitted
  | dropped ha hlost => exact h.dropped ha hlost
  | enrolled ha hending hstarted => exact h.enrolled hinv ha hending hstarted
  | executed ha henrolled => exact h.executed hinv ha henrolled
  | posted hending hstarted => exact h.posted hending hstarted
  | created hp hstate => exact h.created hinv hp hstate
  | ended hending hstarted _ => exact h.ended hending hstarted
  | deleted he hn hactive => exact h.deleted hinv he hn hactive
  | cleared he hdeletes hn hactive hs => exact h.cleared hinv he hdeletes hn hactive hs

end Traced

variable [DecidableEq L] [DecidableEq T]

/-- The invariants hold in every state of a run. -/
theorem reach_traced {contents : L → Option D} {versions : L → Int} {events : List (Event L T D)}
    (hrun : Reach (step concurrentGetHandling) (Isolated t) (start contents versions) events σ) :
    Inv σ ∧ Traced t σ := by
  refine hrun.invariant (fun σ => Inv σ ∧ Traced t σ) ⟨Inv.start contents versions, ?_⟩ ?_
  · intro link
    exact ⟨fun _ _ hlink => absurd hlink (LinkSet.not_mem_empty _), nofun, nofun, nofun, nofun,
      nofun, fun _ hlink => absurd hlink (LinkSet.not_mem_empty _), nofun⟩
  · rintro σ event σ' hisolated hstep ⟨hinv, htraced⟩
    have hchange := Change.of_step hinv hisolated hstep
    exact ⟨hinv.change hchange, htraced.change hinv hchange⟩

/-- In every run that keeps the transactions apart, a service that `t` works on has the
content that `t` has left there and the mark of `t` until `t` lets it go. When `t` has
aborted each of its services was let go with the content it had before, and when `t` has
committed with what the last request of `t` has left, or deleted. No service then has the
mark of `t`. -/
theorem transaction_atomic (concurrentGetHandling : L → Bool) (contents : L → Option D)
    (versions : L → Int) {t : T} {events : List (Event L T D)} {σ : State L T D}
    (hrun : Reach (step concurrentGetHandling) (Isolated t) (start contents versions) events σ)
    (link : L) :
    (∀ a ∈ (σ.services link).active, a.transactionId = t →
      (σ.services link).state.map Document.content = some a.linked) ∧
    (∀ x ∈ σ.history t link,
      ((σ.coordinators t).stage = .started → x.released = none →
        (σ.services link).state = some ⟨x.last, some t⟩) ∧
      ((σ.coordinators t).stage = .cancelled → x.released = some x.before) ∧
      ((σ.coordinators t).stage = .finished →
        x.released = some (if x.deleted then none else some x.last))) ∧
    ((σ.coordinators t).stage ≠ .started →
      ∀ content, (σ.services link).state ≠ some ⟨content, some t⟩) := by
  obtain ⟨hinv, htraced⟩ := reach_traced hrun
  have htrace := htraced link
  refine ⟨fun a ha _ => (hinv.service link).state_content ha, ?_, ?_⟩
  · intro x hx
    refine ⟨?_, ?_, ?_⟩
    · intro hstarted hreleased
      apply htrace.held x hx
      refine ⟨htrace.enrolled x hx hstarted, hstarted, ?_⟩
      intro e he
      by_contra hlink
      rw [htrace.released x hx e.outcome (Or.inl ⟨e, he, rfl, hlink⟩)] at hreleased
      cases hreleased
    · intro hcancelled
      exact htrace.released x hx .abort (Or.inr hcancelled)
    · intro hfinished
      exact htrace.released x hx .commit (Or.inr hfinished)
  · intro hstage content hstate
    exact hstage ((hinv.pair t link).mark content hstate).started

/-- A transaction reads and updates a service, creates another and aborts, and requests from
outside meet the mark in between. -/
theorem transaction_atomic_aborted : ∃ (σ : State String String Nat) (x : Touched Nat),
    (σ.coordinators "tx").stage = .cancelled ∧ σ.history "tx" "/examples/a" = some x ∧
      x.last = 6 ∧ x.released = some (some 5) ∧
      ∀ content, (σ.services "/examples/a").state ≠ some ⟨content, some "tx"⟩ := by
  have hexec : ∃ σ x, exec (fun σ event => if Isolated "tx" σ event then
        step (fun _ => false) σ event else none)
      (start (fun link => if link = "/examples/a" then some 5 else none) fun _ => 0)
      [.request "/examples/a" (some "tx") .get, .enroll "/examples/a" 0,
        .execute "/examples/a" 0 true, .request "/examples/a" none (.update (· + 10) none),
        .request "/examples/a" (some "tx") (.update (· + 1) none), .enroll "/examples/a" 0,
        .execute "/examples/a" 0 true, .request "/examples/a" (some "other") .get,
        .post "/examples/b" (some "tx") 7, .create 0 true, .endTransaction "tx" .abort,
        .delete "tx" 0 true, .clear "tx" 0 true] = some σ ∧
      (σ.coordinators "tx").stage = .cancelled ∧ σ.history "tx" "/examples/a" = some x ∧
      x.last = 6 ∧ x.before = some 5 :=
    ⟨_, _, rfl, rfl, rfl, rfl, rfl⟩
  obtain ⟨σ, x, hrun, hstage, hx, hlast, hbefore⟩ := hexec
  obtain ⟨-, htouched, hcleared⟩ :=
    transaction_atomic (fun _ => false) _ _ (reach_of_exec hrun) "/examples/a"
  refine ⟨σ, x, hstage, hx, hlast, ?_, hcleared (by rw [hstage]; exact nofun)⟩
  rw [(htouched x hx).2.1 hstage, hbefore]

/-- Two transactions read a service at the same time: the second takes the mark of the first
away, and updates the service before the first has ended. -/
theorem overlapping_reads_share_service : ∃ (σ : State String String Nat) (x : Touched Nat),
    exec (step fun _ => false) (start (fun _ => some 5) fun _ => 0)
      [.request "/examples/a" (some "tx") .get, .request "/examples/a" (some "other") .get,
        .enroll "/examples/a" 0, .enroll "/examples/a" 1, .execute "/examples/a" 0 true,
        .execute "/examples/a" 0 true,
        .request "/examples/a" (some "other") (.update (· + 1) none), .enroll "/examples/a" 0,
        .execute "/examples/a" 0 true] = some σ ∧
      σ.history "tx" "/examples/a" = some x ∧ (σ.coordinators "tx").stage = .started ∧
      x.released = none ∧ x.last = 5 ∧
      (σ.services "/examples/a").state = some ⟨6, some "other"⟩ :=
  ⟨_, _, rfl, rfl, rfl, rfl, rfl, rfl⟩

end Xenon.SimpleTransaction
