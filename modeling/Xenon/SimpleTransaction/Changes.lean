import Xenon.SimpleTransaction.Isolation

/-!
# What an event of a simple transaction changes

`Change` lists what the events do under the conditions of `Isolated`, with what is known
when they do it. The invariant is kept by each of them, and so by every run.
-/

namespace Xenon.SimpleTransaction

open Common Foundation
open SynchronizationTask (TaskStage)
open Transaction (LinkSet)

variable {L T D : Type*}

theorem State.setService_self [DecidableEq L] (σ : State L T D) (link : L) :
    σ.setService link (σ.services link) = σ := by
  unfold State.setService
  rw [Function.update_eq_self]

theorem State.setCoordinator_self [DecidableEq T] (σ : State L T D) (t : T) :
    σ.setCoordinator t (σ.coordinators t) = σ := by
  unfold State.setCoordinator
  rw [Function.update_eq_self]

/-- The index has what a clear request asks for. -/
theorem Inv.handleClearTransaction_ne_none [DecidableEq T] {σ : State L T D} (h : Inv σ) {t : T}
    {e : Ending L} {n : Nat} {r : L × EnrollmentInfo} (he : (σ.coordinators t).ending = some e)
    (hn : e.clears[n]? = some r) (hstate : (σ.services r.1).state ≠ none) :
    (σ.services r.1).handleClearTransaction t e.outcome r.2 ≠ none := by
  have hending := (h.coordinator t).ending e he
  have hpair := h.pair t r.1
  obtain ⟨hinfo, hdelete⟩ := hending.clears r (List.mem_of_getElem? hn)
  obtain ⟨⟨content, mark⟩, hdoc⟩ := Option.ne_none_iff_exists'.mp hstate
  unfold Service.handleClearTransaction
  rw [hdoc, Option.bind_some]
  split
  next => exact nofun
  next hmark =>
    split
    next habort =>
      rw [Bool.and_eq_true, decide_eq_true_eq] at habort
      -- The service is marked, so it is enrolled; it is not one of those that are deleted.
      have hmark : mark = some t := not_not.mp hmark
      rw [hmark] at hdoc
      have henrolled := (hpair.mark content hdoc).enrolled
      rw [habort.1] at hdelete
      obtain ⟨original, hstored⟩ := (hpair.original hending.started henrolled).resolve_left hdelete
      rw [hinfo, hstored.2]
      exact nofun
    next => exact nofun

/-- No POST is under way at the end. -/
theorem Inv.creation_settle [DecidableEq T] {σ : State L T D} (h : Inv σ) {t' : T} {e : Ending L}
    {c : Coordinator L}
    (he : (σ.coordinators t').ending = some e) {p : Creation L T D} (hp : p ∈ σ.creations) :
    let c := Function.update σ.coordinators t' c p.transactionId
    c.stage = .started ∧ c.ending = none ∧ p.link ∈ c.createdServicesLinks := by
  have hcreation := h.creation p hp
  have hne : p.transactionId ≠ t' := by
    intro ht
    rw [ht, he] at hcreation
    cases hcreation.2.1
  rw [Function.update_of_ne hne]
  exact hcreation

theorem Inv.not_pending {σ : State L T D} (h : Inv σ) {t : T} {e : Ending L} {link : L}
    (he : (σ.coordinators t).ending = some e) : ¬ Pending σ t link := by
  rintro ⟨p, hp, rfl, -⟩
  cases he.symm.trans (h.creation p hp).2.1

/-- A POST that is under way is enrolled. -/
theorem Inv.unreleased_of_creation {σ : State L T D} (h : Inv σ) {p : Creation L T D}
    (hp : p ∈ σ.creations) : Unreleased (σ.coordinators p.transactionId) p.link := by
  obtain ⟨hstarted, hending, hcreated⟩ := h.creation p hp
  exact Unreleased.of_open ((h.coordinator _).created hstarted p.link hcreated) hstarted hending

theorem Inv.start (contents : L → Option D) (versions : L → Int) :
    Inv (start contents versions : State L T D) where
  service link := by
    refine ServiceInv.of_idle rfl ?_
    intro doc hdoc
    obtain ⟨content, hcontent, rfl⟩ := Option.map_eq_some_iff.mp hdoc
    exact ⟨le_refl _, (if_pos rfl).trans hcontent⟩
  coordinator t := ⟨fun _ _ hlink => absurd hlink (LinkSet.not_mem_empty _), nofun⟩
  creation p hp := absurd hp List.not_mem_nil
  pair t link := by
    refine ⟨?_, nofun, ?_, ?_, nofun, ?_⟩
    · intro content hstate
      obtain ⟨_, -, hdoc⟩ := Option.map_eq_some_iff.mp hstate
      cases hdoc
    · exact fun _ _ hlink => absurd hlink (LinkSet.not_mem_empty _)
    · exact fun _ _ hlink => absurd hlink (LinkSet.not_mem_empty _)
    · exact fun _ hlink => absurd hlink (LinkSet.not_mem_empty _)

variable [DecidableEq L]

/-! ## The invariant is kept -/

namespace Inv

variable {t : T} {σ : State L T D}

/-- Only a service changes. -/
theorem setService (h : Inv σ) {link : L} {s : Service T D} (hs : ServiceInv s)
    (hpair : ∀ t, Pair s (σ.coordinators t) (Pending σ t link) t link) :
    Inv (σ.setService link s) where
  service link' := by
    show ServiceInv (Function.update σ.services link s link')
    by_cases hlink : link' = link
    · rw [hlink, Function.update_self]
      exact hs
    · rw [Function.update_of_ne hlink]
      exact h.service link'
  coordinator := h.coordinator
  creation := h.creation
  pair t link' := by
    show Pair (Function.update σ.services link s link') _ (Pending σ t link') t link'
    by_cases hlink : link' = link
    · rw [hlink, Function.update_self]
      exact hpair t
    · rw [Function.update_of_ne hlink]
      exact h.pair t link'

theorem written (h : Inv σ) {link : L} {s : Service T D} (hactive : (σ.services link).active = [])
    (hmark : ∀ doc ∈ (σ.services link).state, doc.documentTransactionId = none)
    (hs : (∃ content, s = (σ.services link).save content none) ∨
      ∃ content, s = (σ.services link).stop content) : Inv (σ.setService link s) := by
  rcases hs with ⟨content, rfl⟩ | ⟨content, rfl⟩
  · apply h.setService (ServiceInv.save hactive content none)
    intro t
    have hfree := not_owned_of_unmarked hactive hmark t
    refine (h.pair t link).of_free (grows_save content none) hfree hactive ?_
    rintro content' ⟨⟩
  · apply h.setService (ServiceInv.stop hactive content)
    intro t
    have hfree := not_owned_of_unmarked hactive hmark t
    exact (h.pair t link).of_free (grows_stop content) hfree hactive nofun

theorem admitted (h : Inv σ) {link : L} {t' : T} {handler : Handler T D} {content : D}
    {mark : Option T} (hstate : (σ.services link).state = some ⟨content, mark⟩)
    (hmark : mark = none ∨ mark = some t') (hapart : Apart (σ.services link) (some t') handler)
    (hkeeps : handler.Keeps (some t')) :
    Inv (σ.setService link { σ.services link with
      active := (σ.services link).active ++
        [⟨t', handler, content, (σ.services link).documentVersion, false⟩] }) := by
  apply h.setService ((h.service link).admitted hstate hmark hapart hkeeps)
  intro t
  exact (h.pair t link).admitted rfl

theorem dropped (h : Inv σ) {link : L} {n : Nat} {a : Active T D}
    (ha : (σ.services link).active[n]? = some a)
    (hlost : (a.transactionId ≠ t ∧ a.handler.action ≠ .delete) ∨
      (σ.coordinators a.transactionId).stage ≠ .started) :
    Inv (σ.setService link { σ.services link with
      active := (σ.services link).active.eraseIdx n }) := by
  apply h.setService ((h.service link).eraseIdx ha)
  intro t'
  apply (h.pair t' link).drop ha
  rintro hstarted rfl
  rcases hlost with ⟨-, haction⟩ | hstage
  · exact haction
  · exact absurd hstarted hstage

theorem executed (h : Inv σ) {link : L} {n : Nat} {a : Active T D}
    (ha : (σ.services link).active[n]? = some a) (henrolled : a.isEnrolled) :
    Inv (σ.setService link ({ σ.services link with
      active := (σ.services link).active.eraseIdx n }.execute (some a.transactionId) a.linked
        a.handler)) := by
  rw [Service.execute_some ((h.service link).keeps a (List.mem_of_getElem? ha))]
  apply h.setService ((h.service link).execute ha)
  intro t'
  exact (h.pair t' link).execute (h.service link) ha henrolled _

variable [DecidableEq T]

/-- A service and a coordinator change. -/
theorem set (h : Inv σ) (link : L) (t : T) (s : Service T D) (c : Coordinator L)
    (creations : List (Creation L T D)) (history : T → L → Option (Touched D))
    (hpending : ∀ p ∈ σ.creations, p ∈ creations ∨ (p.transactionId = t ∧ p.link = link))
    (hcreation : ∀ p ∈ creations,
      let c := Function.update σ.coordinators t c p.transactionId
      c.stage = .started ∧ c.ending = none ∧ p.link ∈ c.createdServicesLinks)
    (hs : ServiceInv s) (hc : CoordinatorInv c)
    (here : Pair s c (∃ p ∈ creations, p.transactionId = t ∧ p.link = link) t link)
    (others : ∀ t' ≠ t, Pair s (σ.coordinators t') (Pending σ t' link) t' link)
    (elsewhere : ∀ link' ≠ link, Pair (σ.services link') c (Pending σ t link') t link') :
    Inv { (σ.setService link s).setCoordinator t c with
      creations := creations
      history := history } where
  service link' := by
    show ServiceInv (Function.update σ.services link s link')
    by_cases hlink : link' = link
    · rw [hlink, Function.update_self]
      exact hs
    · rw [Function.update_of_ne hlink]
      exact h.service link'
  coordinator t' := by
    show CoordinatorInv (Function.update σ.coordinators t c t')
    by_cases ht : t' = t
    · rw [ht, Function.update_self]
      exact hc
    · rw [Function.update_of_ne ht]
      exact h.coordinator t'
  creation := hcreation
  pair t' link' := by
    show Pair (Function.update σ.services link s link') (Function.update σ.coordinators t c t')
      (∃ p ∈ creations, p.transactionId = t' ∧ p.link = link') t' link'
    -- only the creation of this pair may have been dropped
    have hkept : ¬ (t' = t ∧ link' = link) → Pending σ t' link' →
        ∃ p ∈ creations, p.transactionId = t' ∧ p.link = link' := by
      rintro hne ⟨p, hp, rfl, rfl⟩
      exact ⟨p, (hpending p hp).resolve_right hne, rfl, rfl⟩
    by_cases ht : t' = t
    · by_cases hlink : link' = link
      · rw [ht, hlink, Function.update_self, Function.update_self]
        exact here
      · rw [Function.update_of_ne hlink]
        subst ht
        rw [Function.update_self]
        exact (elsewhere link' hlink).mono (hkept fun hpair => hlink hpair.2)
    · rw [Function.update_of_ne ht]
      by_cases hlink : link' = link
      · subst hlink
        rw [Function.update_self]
        exact (others t' ht).mono (hkept fun hpair => ht hpair.1)
      · rw [Function.update_of_ne hlink]
        exact (h.pair t' link').mono (hkept fun hpair => ht hpair.1)

/-- The POSTs of the transaction stay enrolled when another service is. -/
theorem creation_enroll (h : Inv σ) {t' : T} {link : L} {action : Action} {version : Int}
    {p : Creation L T D} (hp : p ∈ σ.creations) :
    let c := Function.update σ.coordinators t'
      ((σ.coordinators t').handlePatchForEnroll link action version) p.transactionId
    c.stage = .started ∧ c.ending = none ∧ p.link ∈ c.createdServicesLinks := by
  obtain ⟨hstarted, hending, hcreated⟩ := h.creation p hp
  intro c
  by_cases ht : p.transactionId = t'
  · have hc : c = (σ.coordinators t').handlePatchForEnroll link action version := by
      show Function.update _ _ _ p.transactionId = _
      rw [ht, Function.update_self]
    rw [ht] at hstarted hending hcreated
    rw [hc]
    exact ⟨hstarted, hending, mem_createdServicesLinks_handlePatchForEnroll.mpr (Or.inr hcreated)⟩
  · have hc : c = σ.coordinators p.transactionId := Function.update_of_ne ht ..
    rw [hc]
    exact ⟨hstarted, hending, hcreated⟩

theorem enrolled (h : Inv σ) {link : L} {n : Nat} {a : Active T D}
    (ha : (σ.services link).active[n]? = some a)
    (hending : (σ.coordinators a.transactionId).ending = none)
    (hstarted : (σ.coordinators a.transactionId).stage = .started) :
    Inv ((σ.setService link { σ.services link with
        active := (σ.services link).active.set n { a with isEnrolled := true } }).setCoordinator
      a.transactionId ((σ.coordinators a.transactionId).handlePatchForEnroll link
        a.handler.action a.linkedVersion)) := by
  have hs := h.service link
  refine h.set link a.transactionId _ _ σ.creations σ.history (fun _ => Or.inl)
    (fun p => h.creation_enroll) (hs.enroll ha) ((h.coordinator _).handlePatchForEnroll hending)
    ?_ ?_ ?_
  · exact Pair.enroll_active hs ha (h.pair a.transactionId link) hending hstarted
  · intro t' ht'
    exact (h.pair t' link).enroll_others ha ht'
  · intro link' hlink'
    exact (h.pair a.transactionId link').enroll_of_ne hlink'

theorem posted (h : Inv σ) {link : L} {t' : T} {content : D}
    (hending : (σ.coordinators t').ending = none)
    (hstarted : (σ.coordinators t').stage = .started) :
    Inv { σ.setCoordinator t' ((σ.coordinators t').handlePatchForEnroll link .post (-1)) with
      creations := σ.creations ++ [⟨t', link, content⟩] } := by
  rw [← State.setService_self σ link]
  refine h.set link t' (σ.services link) _ _ σ.history ?_ ?_ (h.service link)
    ((h.coordinator t').handlePatchForEnroll hending) ?_ (fun t'' _ => h.pair t'' link) ?_
  · intro p hp
    exact Or.inl (List.mem_append_left _ hp)
  · intro p hp
    rcases List.mem_append.mp hp with hp | hp
    · exact h.creation_enroll hp
    · cases List.mem_singleton.mp hp
      rw [Function.update_self]
      exact ⟨hstarted, hending,
        mem_createdServicesLinks_handlePatchForEnroll.mpr (Or.inl ⟨rfl, rfl⟩)⟩
  · have hpending : ∃ p ∈ σ.creations ++ [(⟨t', link, content⟩ : Creation L T D)],
        p.transactionId = t' ∧ p.link = link :=
      ⟨_, List.mem_append_right _ List.mem_cons_self, rfl, rfl⟩
    exact (h.pair t' link).enroll hending hstarted (fun _ => hpending) (fun _ => hpending) nofun
      fun hpost => absurd rfl hpost
  · intro link' hlink'
    exact (h.pair t' link').enroll_of_ne hlink'

theorem created (h : Inv σ) {n : Nat} {p : Creation L T D} (hp : σ.creations[n]? = some p)
    (hstate : (σ.services p.link).state = none) (history : T → L → Option (Touched D)) :
    Inv { σ.setService p.link ((σ.services p.link).save p.content (some p.transactionId)) with
      creations := σ.creations.eraseIdx n
      history := history } := by
  have hactive := (h.service p.link).idle hstate
  have hcreated := (h.creation p (List.mem_of_getElem? hp)).2.2
  have hfree : ∀ t, ¬ Owned (σ.services p.link) t :=
    not_owned_of_unmarked hactive (hstate ▸ nofun)
  have hunreleased := h.unreleased_of_creation (List.mem_of_getElem? hp)
  rw [← State.setCoordinator_self (σ.setService p.link _) p.transactionId]
  refine h.set p.link p.transactionId _ (σ.coordinators p.transactionId) _ history ?_ ?_
    (ServiceInv.save hactive p.content (some p.transactionId)) (h.coordinator _)
    (Pair.create hactive hunreleased hcreated p.content) ?_ (fun link' _ => h.pair _ link')
  · intro q hq
    by_cases hqp : q = p
    · rw [hqp]
      exact Or.inr ⟨rfl, rfl⟩
    · exact Or.inl (mem_eraseIdx_of_ne hp hq hqp)
  · intro q hq
    rw [Function.update_eq_self]
    exact h.creation q (List.mem_of_mem_eraseIdx hq)
  · intro t' ht'
    refine (h.pair t' p.link).of_free (grows_save ..) (hfree t') hactive ?_
    rintro content ⟨⟩
    exact ht' rfl

theorem ended (h : Inv σ) {t' : T} {outcome : TransactionOutcome}
    (hending : (σ.coordinators t').ending = none)
    (hstarted : (σ.coordinators t').stage = .started)
    (hcreations : ∀ p ∈ σ.creations, p.transactionId ≠ t') :
    Inv (σ.setCoordinator t' ((σ.coordinators t').handlePatchForEndTransaction outcome)) where
  service := h.service
  coordinator t'' := by
    show CoordinatorInv (Function.update σ.coordinators t' _ t'')
    by_cases ht : t'' = t'
    · rw [ht, Function.update_self]
      exact (h.coordinator t').settle (endingInv_endRequests hstarted outcome)
    · rw [Function.update_of_ne ht]
      exact h.coordinator t''
  creation p hp := by
    show (Function.update σ.coordinators t' _ p.transactionId).stage = _ ∧
      (Function.update σ.coordinators t' _ p.transactionId).ending = _ ∧
      _ ∈ (Function.update σ.coordinators t' _ p.transactionId).createdServicesLinks
    rw [Function.update_of_ne (hcreations p hp)]
    exact h.creation p hp
  pair t'' link := by
    show Pair (σ.services link) (Function.update σ.coordinators t' _ t'') (Pending σ t'' link) t''
      link
    by_cases ht : t'' = t'
    · subst ht
      rw [Function.update_self, handlePatchForEndTransaction_eq]
      apply (h.pair t'' link).settle
      · intro hunreleased
        exact (mem_links_endRequests outcome).mpr (Or.inr hunreleased.enrolled)
      · intro hdelete
        cases outcome with
        | commit => exact (h.pair t'' link).deleted hstarted hending hdelete
        | abort =>
            refine ((h.pair t'' link).created hstarted hending hdelete).resolve_left ?_
            rintro ⟨p, hp, htransaction, -⟩
            exact hcreations p hp htransaction
    · rw [Function.update_of_ne ht]
      exact h.pair t'' link

theorem deleted (h : Inv σ) {t' : T} {e : Ending L} {n : Nat} {link : L}
    (he : (σ.coordinators t').ending = some e) (hn : e.deletes[n]? = some link)
    (hactive : (σ.services link).active = []) (history : T → L → Option (Touched D)) :
    Inv { (σ.setService link ((σ.services link).state.elim (σ.services link) fun doc =>
          (σ.services link).stop doc.content)).setCoordinator t'
        ((σ.coordinators t').deleteAnswered { e with deletes := e.deletes.eraseIdx n }) with
      history := history } := by
  have hending := (h.coordinator t').ending e he
  have hown : Owned (σ.services link) t' :=
    (h.pair t' link).ending hending.started e he (List.mem_of_getElem? hn)
  obtain ⟨content, hstate⟩ := hown.marked hactive
  rw [hstate, deleteAnswered_of_ok hending.delete.ok]
  show Inv { (σ.setService link ((σ.services link).stop content)).setCoordinator t' _ with
    history := history }
  refine h.set link t' _ _ σ.creations history (fun _ => Or.inl) (fun p => h.creation_settle he)
    (ServiceInv.stop hactive content) ((h.coordinator t').settle hending.delete) ?_ ?_ ?_
  · apply (h.pair t' link).release (grows_stop content) hactive nofun
    rw [hending.mem_links_delete hn]
    exact fun hlink => hlink.2 rfl
  · intro t'' ht''
    refine (h.pair t'' link).of_free (grows_stop content) ?_ hactive nofun
    intro hown'
    exact ht'' (hown'.unique (h.service link) hown)
  · intro link' hlink'
    apply (h.pair t' link').settle
    · intro hunreleased
      exact (hending.mem_links_delete hn).mpr ⟨hunreleased.left e he, hlink'⟩
    · intro hdelete
      exact (h.pair t' link').ending hending.started e he (List.mem_of_mem_eraseIdx hdelete)

theorem cleared (h : Inv σ) {t' : T} {e : Ending L} {n : Nat} {r : L × EnrollmentInfo}
    {s : Service T D} (he : (σ.coordinators t').ending = some e) (hdeletes : e.deletes = [])
    (hn : e.clears[n]? = some r) (hactive : (σ.services r.1).active = [])
    (hs : (σ.services r.1).handleClearTransaction t' e.outcome r.2 = some s)
    (history : T → L → Option (Touched D)) :
    Inv { (σ.setService r.1 s).setCoordinator t'
        ((σ.coordinators t').clearAnswered { e with clears := e.clears.eraseIdx n }) with
      history := history } := by
  have hending := (h.coordinator t').ending e he
  obtain ⟨content, mark, hstate, hcases⟩ := Service.handleClearTransaction_cases hs
  -- the service is saved with the mark of another transaction kept, or its own taken off
  obtain ⟨content', mark', rfl, hne, hother⟩ : ∃ content' mark',
      s = (σ.services r.1).save content' mark' ∧ mark' ≠ some t' ∧
        ∀ t'' ≠ t', mark' = some t'' ↔ mark = some t'' := by
    rcases hcases with ⟨hmark, rfl⟩ | ⟨rfl, content', rfl, -⟩
    · exact ⟨content, mark, rfl, hmark, fun _ _ => Iff.rfl⟩
    · refine ⟨content', none, rfl, nofun, fun t'' ht'' => ⟨nofun, ?_⟩⟩
      rintro ⟨⟩
      exact absurd rfl ht''
  rw [clearAnswered_of_ok hending.clear.ok]
  refine h.set r.1 t' _ _ σ.creations history (fun _ => Or.inl) (fun p => h.creation_settle he)
    (ServiceInv.save hactive content' mark') ((h.coordinator t').settle hending.clear) ?_ ?_ ?_
  · apply (h.pair t' r.1).release (grows_save content' mark') hactive
    · rintro content'' ⟨⟩
      exact hne rfl
    · rw [hending.mem_links_clear hdeletes hn]
      exact fun hlink => hlink.2 rfl
  · intro t'' ht''
    refine (h.pair t'' r.1).service (grows_save content' mark') ?_ ?_ ?_
    · rintro content'' ⟨⟩
      have hmark : mark = some t'' := (hother t'' ht'').mp rfl
      rw [hmark] at hstate
      exact (h.pair t'' r.1).mark content hstate
    · intro b hb
      exact absurd hb (not_mem_of_idle hactive)
    · intro _ hown
      obtain ⟨content'', hstate'⟩ := hown.marked hactive
      cases hstate.symm.trans hstate'
      have hmark : mark' = some t'' := (hother t'' ht'').mpr rfl
      rw [hmark]
      exact Or.inl ⟨content', rfl⟩
  · intro link' hlink'
    apply (h.pair t' link').settle
    · intro hunreleased
      exact (hending.mem_links_clear hdeletes hn).mpr ⟨hunreleased.left e he, hlink'⟩
    · intro hdelete
      exact (h.pair t' link').ending hending.started e he hdelete

end Inv

variable [DecidableEq T]

inductive Change (t : T) (σ : State L T D) : State L T D → Prop
  | refused : Change t σ σ
  /-- A request from outside the transactions takes effect. -/
  | written {link : L} {s : Service T D} (hactive : (σ.services link).active = [])
      (hmark : ∀ doc ∈ (σ.services link).state, doc.documentTransactionId = none)
      (hs : (∃ content, s = (σ.services link).save content none) ∨
        ∃ content, s = (σ.services link).stop content) :
      Change t σ (σ.setService link s)
  | admitted {link : L} {t' : T} {handler : Handler T D} {content : D} {mark : Option T}
      (hstate : (σ.services link).state = some ⟨content, mark⟩)
      (hmark : mark = none ∨ mark = some t') (hapart : Apart (σ.services link) (some t') handler)
      (hkeeps : handler.Keeps (some t')) :
      Change t σ (σ.setService link { σ.services link with
        active := (σ.services link).active ++
          [⟨t', handler, content, (σ.services link).documentVersion, false⟩] })
  /-- A request of another transaction fails, or one that comes after the end. -/
  | dropped {link : L} {n : Nat} {a : Active T D} (ha : (σ.services link).active[n]? = some a)
      (hlost : (a.transactionId ≠ t ∧ a.handler.action ≠ .delete) ∨
        (σ.coordinators a.transactionId).stage ≠ .started) :
      Change t σ (σ.setService link { σ.services link with
        active := (σ.services link).active.eraseIdx n })
  | enrolled {link : L} {n : Nat} {a : Active T D} (ha : (σ.services link).active[n]? = some a)
      (hending : (σ.coordinators a.transactionId).ending = none)
      (hstarted : (σ.coordinators a.transactionId).stage = .started) :
      Change t σ ((σ.setService link { σ.services link with
          active := (σ.services link).active.set n { a with isEnrolled := true } }).setCoordinator
        a.transactionId ((σ.coordinators a.transactionId).handlePatchForEnroll link
          a.handler.action a.linkedVersion))
  | executed {link : L} {n : Nat} {a : Active T D} (ha : (σ.services link).active[n]? = some a)
      (henrolled : a.isEnrolled) :
      Change t σ { σ.setService link ({ σ.services link with
          active := (σ.services link).active.eraseIdx n }.execute (some a.transactionId) a.linked
            a.handler) with
        history := touch σ.history a.transactionId link (some a.linked)
          (a.handler.result a.linked) (a.handler.action = .delete) }
  | posted {link : L} {t' : T} {content : D} (hending : (σ.coordinators t').ending = none)
      (hstarted : (σ.coordinators t').stage = .started) :
      Change t σ { σ.setCoordinator t'
          ((σ.coordinators t').handlePatchForEnroll link .post (-1)) with
        creations := σ.creations ++ [⟨t', link, content⟩] }
  | created {n : Nat} {p : Creation L T D} (hp : σ.creations[n]? = some p)
      (hstate : (σ.services p.link).state = none) :
      Change t σ { σ.setService p.link
          ((σ.services p.link).save p.content (some p.transactionId)) with
        creations := σ.creations.eraseIdx n
        history := touch σ.history p.transactionId p.link none p.content false }
  | ended {t' : T} {outcome : TransactionOutcome} (hending : (σ.coordinators t').ending = none)
      (hstarted : (σ.coordinators t').stage = .started)
      (hcreations : ∀ p ∈ σ.creations, p.transactionId ≠ t') :
      Change t σ (σ.setCoordinator t'
        ((σ.coordinators t').handlePatchForEndTransaction outcome))
  | deleted {t' : T} {e : Ending L} {n : Nat} {link : L}
      (he : (σ.coordinators t').ending = some e) (hn : e.deletes[n]? = some link)
      (hactive : (σ.services link).active = []) :
      Change t σ { (σ.setService link ((σ.services link).state.elim (σ.services link) fun doc =>
            (σ.services link).stop doc.content)).setCoordinator t'
          ((σ.coordinators t').deleteAnswered { e with deletes := e.deletes.eraseIdx n }) with
        history := release σ.history t' link none }
  | cleared {t' : T} {e : Ending L} {n : Nat} {r : L × EnrollmentInfo} {s : Service T D}
      (he : (σ.coordinators t').ending = some e) (hdeletes : e.deletes = [])
      (hn : e.clears[n]? = some r) (hactive : (σ.services r.1).active = [])
      (hs : (σ.services r.1).handleClearTransaction t' e.outcome r.2 = some s) :
      Change t σ { (σ.setService r.1 s).setCoordinator t'
          ((σ.coordinators t').clearAnswered { e with clears := e.clears.eraseIdx n }) with
        history := release σ.history t' r.1 (s.state.map Document.content) }

/-! ## The events -/

section Inversion

variable {concurrentGetHandling : L → Bool} {t : T} {σ σ' : State L T D}

theorem Change.of_handleRequest {link : L} {transactionId : Option T} {handler : Handler T D}
    (hisolated : Isolated t σ (.request link transactionId handler))
    (hstep : handleRequest concurrentGetHandling σ link transactionId handler = some σ') :
    Change t σ σ' := by
  obtain ⟨hapart, hkeeps⟩ := hisolated
  obtain ⟨⟨content, mark⟩, hstate, hstep⟩ := Option.bind_eq_some_iff.mp hstep
  obtain ⟨-, hstep⟩ := Option.ite_none_right_eq_some.mp hstep
  split at hstep
  next =>
    cases hstep
    exact Change.refused
  next hpassed =>
    have hmark := mark_of_passed (Bool.eq_false_iff.mpr hpassed)
    cases transactionId with
    | some t' =>
        cases hstep
        exact Change.admitted hstate hmark hapart hkeeps
    | none =>
        cases hstep
        rcases hapart with hactive | ⟨hget, -⟩
        · have hnone : ∀ doc ∈ (σ.services link).state, doc.documentTransactionId = none := by
            rintro doc hdoc
            cases hstate.symm.trans hdoc
            exact hmark.elim id id
          rcases Service.execute_none (s := σ.services link) hkeeps content with hs | hs | ⟨_, hs⟩
          · rw [hs, State.setService_self]
            exact Change.refused
          · exact Change.written hactive hnone (Or.inr ⟨_, hs⟩)
          · exact Change.written hactive hnone (Or.inl ⟨_, hs⟩)
        · rw [Service.execute_none_of_isGet hget, State.setService_self]
          exact Change.refused

theorem Change.of_handleEnroll {link : L} {n : Nat} (hstep : handleEnroll σ link n = some σ') :
    Change t σ σ' := by
  obtain ⟨a, ha, hstep⟩ := Option.bind_eq_some_iff.mp hstep
  dsimp only at hstep
  split at hstep
  next => cases hstep
  next hidle =>
    rw [Bool.or_eq_true, not_or, Option.not_isSome_iff_eq_none] at hidle
    split at hstep
    next hstarted =>
      cases hstep
      exact Change.enrolled ha hidle.2 hstarted
    next hstage =>
      cases hstep
      exact Change.dropped ha (Or.inr hstage)

theorem Change.of_handleExecute {link : L} {n : Nat} {success : Bool}
    (hisolated : Isolated t σ (.execute link n success))
    (hstep : handleExecute σ link n success = some σ') : Change t σ σ' := by
  obtain ⟨a, ha, hstep⟩ := Option.bind_eq_some_iff.mp hstep
  dsimp only at hstep
  split at hstep
  next henrolled =>
    split at hstep
    next =>
      cases hstep
      exact Change.executed ha henrolled
    next hfailed =>
      cases hstep
      exact Change.dropped ha (Or.inl (hisolated.resolve_left hfailed a ha))
  next => cases hstep

theorem Change.of_handlePost (h : Inv σ) {link : L} {transactionId : Option T} {content : D}
    (hstep : handlePost σ link transactionId content = some σ') : Change t σ σ' := by
  cases transactionId with
  | none =>
      obtain ⟨-, hstep⟩ | ⟨hstate, hstep⟩ := ite_eq_iff.mp hstep
      · cases hstep
        exact Change.refused
      · cases hstep
        have hnone := Option.not_isSome_iff_eq_none.mp hstate
        refine Change.written ((h.service link).idle hnone) ?_ (Or.inl ⟨content, rfl⟩)
        rw [hnone]
        exact nofun
  | some t' =>
      obtain ⟨-, hstep⟩ | ⟨hending, hstep⟩ := ite_eq_iff.mp hstep
      · cases hstep
      · obtain ⟨hstarted, hstep⟩ | ⟨-, hstep⟩ := ite_eq_iff.mp hstep
        · cases hstep
          exact Change.posted (Option.not_isSome_iff_eq_none.mp hending) hstarted
        · cases hstep
          exact Change.refused

theorem Change.of_handleCreate {n : Nat} {success : Bool}
    (hisolated : Isolated t σ (.create n success))
    (hstep : handleCreate σ n success = some σ') : Change t σ σ' := by
  obtain ⟨rfl, hfree⟩ := hisolated
  obtain ⟨p, hp, hstep⟩ := Option.bind_eq_some_iff.mp hstep
  have hstate := hfree p hp
  dsimp only at hstep
  rw [if_pos (by simp [hstate])] at hstep
  cases hstep
  exact Change.created hp hstate

theorem Change.of_handleEndTransaction {t' : T} {outcome : TransactionOutcome}
    (hisolated : Isolated t σ (.endTransaction t' outcome))
    (hstep : handleEndTransaction σ t' outcome = some σ') : Change t σ σ' := by
  obtain ⟨-, hstep⟩ | ⟨hending, hstep⟩ := ite_eq_iff.mp hstep
  · cases hstep
  · obtain ⟨hstarted, hstep⟩ | ⟨-, hstep⟩ := ite_eq_iff.mp hstep
    · cases hstep
      exact Change.ended (Option.not_isSome_iff_eq_none.mp hending) hstarted hisolated
    · cases hstep
      exact Change.refused

theorem Change.of_handleDelete {t' : T} {n : Nat} {success : Bool}
    (hisolated : Isolated t σ (.delete t' n success))
    (hstep : handleDelete concurrentGetHandling σ t' n success = some σ') : Change t σ σ' := by
  obtain ⟨rfl, hidle⟩ := hisolated
  obtain ⟨e, he, hstep⟩ := Option.bind_eq_some_iff.mp hstep
  obtain ⟨link, hn, hstep⟩ := Option.bind_eq_some_iff.mp hstep
  obtain ⟨-, hstep⟩ := Option.ite_none_right_eq_some.mp hstep
  cases hstep
  exact Change.deleted he hn (hidle e he link hn)

theorem Change.of_handleClear (h : Inv σ) {t' : T} {n : Nat} {success : Bool}
    (hisolated : Isolated t σ (.clear t' n success))
    (hstep : handleClear concurrentGetHandling σ t' n success = some σ') : Change t σ σ' := by
  obtain ⟨rfl, hidle⟩ := hisolated
  obtain ⟨e, he, hstep⟩ := Option.bind_eq_some_iff.mp hstep
  obtain ⟨hdeletes, hstep⟩ := Option.ite_none_right_eq_some.mp hstep
  obtain ⟨r, hn, hstep⟩ := Option.bind_eq_some_iff.mp hstep
  obtain ⟨-, hstep⟩ := Option.ite_none_right_eq_some.mp hstep
  obtain ⟨hactive, hstate⟩ := hidle e he r hn
  obtain ⟨s, hs⟩ := Option.ne_none_iff_exists'.mp (h.handleClearTransaction_ne_none he hn hstate)
  dsimp only at hstep
  rw [hs] at hstep
  cases hstep
  exact Change.cleared he (List.isEmpty_iff.mp hdeletes) hn hactive hs

theorem Change.of_step (h : Inv σ) {event : Event L T D} (hisolated : Isolated t σ event)
    (hstep : step concurrentGetHandling σ event = some σ') : Change t σ σ' := by
  cases event with
  | request => exact Change.of_handleRequest hisolated hstep
  | enroll => exact Change.of_handleEnroll hstep
  | execute => exact Change.of_handleExecute hisolated hstep
  | post => exact Change.of_handlePost h hstep
  | create => exact Change.of_handleCreate hisolated hstep
  | endTransaction => exact Change.of_handleEndTransaction hisolated hstep
  | delete => exact Change.of_handleDelete hisolated hstep
  | clear => exact Change.of_handleClear h hisolated hstep

theorem Inv.change (h : Inv σ) (hchange : Change t σ σ') : Inv σ' := by
  cases hchange with
  | refused => exact h
  | written hactive hmark hs => exact h.written hactive hmark hs
  | admitted hstate hmark hapart hkeeps => exact h.admitted hstate hmark hapart hkeeps
  | dropped ha hlost => exact h.dropped ha hlost
  | enrolled ha hending hstarted => exact h.enrolled ha hending hstarted
  | executed ha henrolled =>
      obtain ⟨hservice, hcoordinator, hcreation, hpair⟩ := h.executed ha henrolled
      exact ⟨hservice, hcoordinator, hcreation, hpair⟩
  | posted hending hstarted => exact h.posted hending hstarted
  | created hp hstate => exact h.created hp hstate _
  | ended hending hstarted hcreations => exact h.ended hending hstarted hcreations
  | deleted he hn hactive => exact h.deleted he hn hactive _
  | cleared he hdeletes hn hactive hs => exact h.cleared he hdeletes hn hactive hs _

end Inversion

end Xenon.SimpleTransaction
