import Xenon.SimpleTransaction.Changes

/-!
# The history of a simple transaction on a service

The history says what was there before the first request of the transaction and what its
last request has left. `Trace` relates it to the service and the coordinator: the state is
what the last request has left until the transaction lets the service go, and the version
that the coordinator remembers is what was there before.
-/

namespace Xenon.SimpleTransaction

open Common Foundation
open SynchronizationTask (TaskStage)
open Transaction (LinkSet)

variable {L T D : Type*}

/-- The content with which the transaction lets a service go. -/
def Touched.final (x : Touched D) : TransactionOutcome → Option D
  | .commit => if x.deleted then none else some x.last
  | .abort => x.before

/-- The end with this outcome has let the service go. -/
def Released (c : Coordinator L) (link : L) (outcome : TransactionOutcome) : Prop :=
  (∃ e ∈ c.ending, e.outcome = outcome ∧ link ∉ e.links) ∨ c.stage = outcome.stage

/-- What the history of a transaction on a service has to do with them. -/
structure Trace (s : Service T D) (c : Coordinator L) (pending : Prop) (t : T) (link : L)
    (h : Option (Touched D)) : Prop where
  fresh : h = none → c.stage = .started → link ∈ c.enrolledLinks →
    pending ∨ (link ∉ c.createdServicesLinks ∧ ∃ a ∈ s.active, a.transactionId = t ∧
      a.isEnrolled ∧ Stored s (c.enrollmentInfo link).originalVersion a.linked)
  enrolled : ∀ x ∈ h, c.stage = .started → link ∈ c.enrolledLinks
  held : ∀ x ∈ h, Unreleased c link → s.state = some ⟨x.last, some t⟩
  made : ∀ x ∈ h, c.stage = .started → x.before = none → link ∈ c.createdServicesLinks
  original : ∀ x ∈ h, c.stage = .started → ¬ pending → ∀ content ∈ x.before,
    link ∉ c.createdServicesLinks ∧ Stored s (c.enrollmentInfo link).originalVersion content ∧
      ((c.enrollmentInfo link).isUpdated = false → x.last = content)
  deleted : ∀ x ∈ h, c.stage = .started → x.deleted → link ∈ c.deletedServicesLinks
  deletion : c.stage = .started → link ∈ c.deletedServicesLinks →
    (∃ x ∈ h, x.deleted) ∨ ∃ a ∈ s.active, a.transactionId = t ∧ a.isEnrolled ∧
      a.handler = .delete
  released : ∀ x ∈ h, ∀ outcome, Released c link outcome → x.released = some (x.final outcome)

theorem Unreleased.not_released {c : Coordinator L} {link : L} (h : Unreleased c link)
    (outcome : TransactionOutcome) : ¬ Released c link outcome := by
  rintro (⟨e, he, -, hlink⟩ | hstage)
  · exact hlink (h.left e he)
  · exact outcome.stage_ne (hstage.symm.trans h.started)

/-- Nothing is let go before the end. -/
theorem not_released_of_open {c : Coordinator L} {link : L} (hending : c.ending = none)
    (hstarted : c.stage = .started) (outcome : TransactionOutcome) :
    ¬ Released c link outcome := by
  rintro (⟨e, he, -⟩ | hstage)
  · rw [hending] at he
    cases he
  · exact outcome.stage_ne (hstage.symm.trans hstarted)

section Coordinator

variable [DecidableEq L] {c : Coordinator L} {e : Ending L} {link : L}
  {outcome : TransactionOutcome}

theorem released_settle (hstarted : c.stage = .started)
    (h : Released (c.settle e) link outcome) : outcome = e.outcome ∧ link ∉ e.links := by
  rcases settle_cases c e with ⟨hlinks, hsettle⟩ | ⟨-, hsettle⟩
  · rw [hsettle] at h
    rcases h with ⟨e', he', -⟩ | hstage
    · cases he'
    · rw [hlinks]
      rw [complete_stage] at hstage
      exact ⟨(TransactionOutcome.stage_injective hstage).symm, List.not_mem_nil⟩
  · rw [hsettle] at h
    rcases h with ⟨e', he', houtcome, hlink⟩ | hstage
    · cases he'
      exact ⟨houtcome.symm, hlink⟩
    · exact absurd (hstage.symm.trans hstarted) outcome.stage_ne

/-- An end that is not through has changed nothing but the requests it waits for. -/
theorem settle_of_started (h : (c.settle e).stage = .started) :
    c.settle e = { c with ending := some e } := by
  rcases settle_cases c e with ⟨-, hsettle⟩ | ⟨-, hsettle⟩
  · rw [hsettle] at h
    exact absurd h (complete_stage_ne _)
  · exact hsettle

end Coordinator

namespace Trace

variable {s s' : Service T D} {c : Coordinator L} {e : Ending L} {pending pending' : Prop} {t : T}
  {link link' : L} {h : Option (Touched D)} {a : Active T D} {n : Nat}

/-- The service changes and the transaction keeps what it has. -/
theorem service (htrace : Trace s c pending t link h) (hgrows : Grows s s')
    (hactive : c.stage = .started → ∀ a ∈ s.active, a.transactionId = t → a.isEnrolled →
      a ∈ s'.active)
    (hstate : ∀ content, s.state = some ⟨content, some t⟩ → s'.state = some ⟨content, some t⟩) :
    Trace s' c pending t link h where
  fresh hnone hstarted henrolled := by
    refine (htrace.fresh hnone hstarted henrolled).imp_right ?_
    rintro ⟨hcreated, a, ha, htransaction, hisEnrolled, hstored⟩
    exact ⟨hcreated, a, hactive hstarted a ha htransaction hisEnrolled, htransaction, hisEnrolled,
      hstored.mono hgrows⟩
  enrolled := htrace.enrolled
  held x hx hunreleased := hstate x.last (htrace.held x hx hunreleased)
  made := htrace.made
  original x hx hstarted hpending content hcontent := by
    obtain ⟨hcreated, hstored, hlast⟩ := htrace.original x hx hstarted hpending content hcontent
    exact ⟨hcreated, hstored.mono hgrows, hlast⟩
  deleted := htrace.deleted
  deletion hstarted hdeleted := by
    refine (htrace.deletion hstarted hdeleted).imp_right ?_
    rintro ⟨a, ha, htransaction, hisEnrolled, hdelete⟩
    exact ⟨a, hactive hstarted a ha htransaction hisEnrolled, htransaction, hisEnrolled, hdelete⟩
  released := htrace.released

theorem congr_pending (htrace : Trace s c pending t link h) (hpending : pending ↔ pending') :
    Trace s c pending' t link h := by
  rw [← propext hpending]
  exact htrace

/-- A POST creates the service. -/
theorem create {content : D} (htrace : Trace s c pending t link none) (hactive : s.active = [])
    (hunreleased : Unreleased c link) (hcreated : link ∈ c.createdServicesLinks) :
    Trace (s.save content (some t)) c pending' t link (some ⟨none, content, false, none⟩) where
  fresh := nofun
  enrolled _ _ _ := hunreleased.enrolled
  held := by
    rintro x ⟨⟩ _
    rfl
  made _ _ _ _ := hcreated
  original := by
    rintro x ⟨⟩ _ _ _ ⟨⟩
  deleted := by
    rintro x ⟨⟩ _ ⟨⟩
  deletion hstarted hdeleted := by
    rcases htrace.deletion hstarted hdeleted with ⟨x, hx, -⟩ | ⟨a, ha, -⟩
    · cases hx
    · exact absurd ha (not_mem_of_idle hactive)
  released x hx outcome hreleased := absurd hreleased (hunreleased.not_released outcome)

/-- The first request of the transaction is executed. -/
theorem execute_first (htrace : Trace s c pending a.transactionId link none) (hs : ServiceInv s)
    (ha : s.active[n]? = some a) (henrolled : Enrolled c link a) :
    Trace ({ s with active := s.active.eraseIdx n }.save (a.handler.result a.linked)
        (some a.transactionId)) c pending a.transactionId link
      (some ⟨some a.linked, a.handler.result a.linked, a.handler.action = .delete, none⟩) where
  fresh := nofun
  enrolled _ _ _ := henrolled.unreleased.enrolled
  held := by
    rintro x ⟨⟩ _
    rfl
  made := by
    rintro x ⟨⟩ _ ⟨⟩
  original := by
    rintro x ⟨⟩ hstarted hpending content ⟨⟩
    obtain ⟨hnew, b, hb, -, -, hstored⟩ :=
      (htrace.fresh rfl hstarted henrolled.unreleased.enrolled).resolve_left hpending
    rw [hs.linked_eq hb (List.mem_of_getElem? ha)] at hstored
    exact ⟨hnew, hstored.mono (grows_execute ..), henrolled.result_eq⟩
  deleted := by
    rintro x ⟨⟩ _ hdelete
    exact henrolled.deleted (Handler.eq_delete (of_decide_eq_true hdelete))
  deletion hstarted hlink := by
    rcases htrace.deletion hstarted hlink with ⟨x, hx, -⟩ | ⟨b, hb, -, -, hdelete⟩
    · cases hx
    · rw [hs.eq_of_delete hb hdelete (List.mem_of_getElem? ha)] at hdelete
      exact Or.inl ⟨_, rfl, decide_eq_true (Handler.action_of_delete hdelete)⟩
  released _ _ outcome hreleased :=
    absurd hreleased (henrolled.unreleased.not_released outcome)

/-- A further request of the transaction is executed. -/
theorem execute_again {x : Touched D} (htrace : Trace s c pending a.transactionId link (some x))
    (hs : ServiceInv s) (ha : s.active[n]? = some a) (henrolled : Enrolled c link a) :
    Trace ({ s with active := s.active.eraseIdx n }.save (a.handler.result a.linked)
        (some a.transactionId)) c pending a.transactionId link
      (some { x with
        last := a.handler.result a.linked
        deleted := x.deleted || a.handler.action = .delete }) where
  fresh := nofun
  enrolled _ _ _ := henrolled.unreleased.enrolled
  held := by
    rintro y ⟨⟩ _
    rfl
  made := by
    rintro y ⟨⟩
    exact htrace.made x rfl
  original := by
    rintro y ⟨⟩ hstarted hpending content hcontent
    obtain ⟨hnew, hstored, hlast⟩ := htrace.original x rfl hstarted hpending content hcontent
    refine ⟨hnew, hstored.mono (grows_execute ..), fun hread => ?_⟩
    -- The request has read what the request before it has left.
    have hlinked : a.linked = x.last := by
      have hcopy := hs.state_content (List.mem_of_getElem? ha)
      rw [htrace.held x rfl henrolled.unreleased] at hcopy
      exact (Option.some.inj hcopy).symm
    calc a.handler.result a.linked = a.linked := henrolled.result_eq hread
      _ = x.last := hlinked
      _ = content := hlast hread
  deleted := by
    rintro y ⟨⟩ hstarted hdelete
    rcases Bool.or_eq_true_iff.mp hdelete with hdelete | hdelete
    · exact htrace.deleted x rfl hstarted hdelete
    · exact henrolled.deleted (Handler.eq_delete (of_decide_eq_true hdelete))
  deletion hstarted hlink := by
    refine Or.inl ⟨_, rfl, Bool.or_eq_true_iff.mpr ?_⟩
    rcases htrace.deletion hstarted hlink with ⟨y, hy, hdelete⟩ | ⟨b, hb, -, -, hdelete⟩
    · cases hy
      exact Or.inl hdelete
    · rw [hs.eq_of_delete hb hdelete (List.mem_of_getElem? ha)] at hdelete
      exact Or.inr (decide_eq_true (Handler.action_of_delete hdelete))
  released _ _ outcome hreleased :=
    absurd hreleased (henrolled.unreleased.not_released outcome)

/-- A delete request leaves what the outcome asks for: the transaction has deleted the
service, or created it. -/
theorem stopped {x : Touched D} (htrace : Trace s c pending t link (some x))
    (hpending : ¬ pending) (he : EndingInv c e) (hdelete : link ∈ e.deletes)
    (hactive : s.active = []) : x.final e.outcome = none := by
  have hlink := he.deletes link hdelete
  cases houtcome : e.outcome with
  | commit =>
      rw [houtcome] at hlink
      refine if_pos ?_
      rcases htrace.deletion he.started hlink with ⟨y, hy, hdeleted⟩ | ⟨a, ha, -⟩
      · cases hy
        exact hdeleted
      · exact absurd ha (not_mem_of_idle hactive)
  | abort =>
      rw [houtcome] at hlink
      show x.before = none
      cases hbefore : x.before with
      | none => rfl
      | some before =>
          have horiginal := htrace.original x rfl he.started hpending before hbefore
          exact absurd hlink horiginal.1

/-- A clear request leaves what the outcome asks for. -/
theorem cleared [DecidableEq T] {x : Touched D} {info : EnrollmentInfo}
    (htrace : Trace s c pending t link (some x)) (hpending : ¬ pending) (he : EndingInv c e)
    (hending : c.ending = some e) (hclear : (link, info) ∈ e.clears)
    (henrolled : link ∈ c.enrolledLinks)
    (hs : s.handleClearTransaction t e.outcome info = some s') :
    s'.state.map Document.content = x.final e.outcome := by
  obtain ⟨hinfo, hkept⟩ := he.clears _ hclear
  have hheld := htrace.held x rfl ⟨henrolled, he.started, by
    intro e' he'
    cases hending.symm.trans he'
    exact List.mem_append_right _ (List.mem_map_of_mem hclear)⟩
  obtain ⟨content, mark, hstate, hcases⟩ := Service.handleClearTransaction_cases hs
  cases hheld.symm.trans hstate
  rcases hcases with ⟨hmark, -⟩ | ⟨-, content', rfl, hcontent⟩
  · exact absurd rfl hmark
  · show some content' = _
    cases houtcome : e.outcome with
    | commit =>
        rw [houtcome] at hkept
        have hlast : content' = x.last := by
          rcases hcontent with ⟨habort, -⟩ | ⟨-, hlast⟩
          · rw [houtcome] at habort
            cases habort
          · exact hlast
        rw [hlast]
        exact (if_neg fun hdeleted => hkept (htrace.deleted x rfl he.started hdeleted)).symm
    | abort =>
        rw [houtcome] at hkept
        cases hbefore : x.before with
        | none => exact absurd (htrace.made x rfl he.started hbefore) hkept
        | some before =>
            obtain ⟨-, hstored, hread⟩ := htrace.original x rfl he.started hpending before hbefore
            show some content' = x.before
            rw [hbefore]
            have hinfo : info = c.enrollmentInfo link := hinfo
            rw [hinfo] at hcontent
            rcases hcontent with ⟨-, -, hindex⟩ | ⟨hupdated, hlast⟩
            · exact hindex.symm.trans hstored.2
            · have hisUpdated : (c.enrollmentInfo link).isUpdated = false :=
                Bool.eq_false_iff.mpr fun hisUpdated => hupdated ⟨houtcome, hisUpdated⟩
              rw [hlast, hread hisUpdated]

variable [DecidableEq L]

/-- Another service is enrolled. -/
theorem enroll_of_ne {action : Action} {version : Int} (htrace : Trace s c pending t link h)
    (hending : c.ending = none) (hstarted : c.stage = .started) (hne : link ≠ link') :
    Trace s (c.handlePatchForEnroll link' action version) pending t link h := by
  have hcreated : link ∈ (c.handlePatchForEnroll link' action version).createdServicesLinks ↔
      link ∈ c.createdServicesLinks := by
    rw [mem_createdServicesLinks_handlePatchForEnroll, or_iff_right fun hpost => hne hpost.2]
  have henrolled : link ∈ (c.handlePatchForEnroll link' action version).enrolledLinks ↔
      link ∈ c.enrolledLinks := by
    rw [mem_enrolledLinks_handlePatchForEnroll, or_iff_right hne]
  have hdeleted : link ∈ (c.handlePatchForEnroll link' action version).deletedServicesLinks ↔
      link ∈ c.deletedServicesLinks := by
    rw [mem_deletedServicesLinks_handlePatchForEnroll, or_iff_right fun hdelete => hne hdelete.2]
  refine ⟨?_, ?_, ?_, ?_, ?_, ?_, ?_, ?_⟩
  · rw [hcreated, henrolled, enrollmentInfo_handlePatchForEnroll_of_ne hne]
    exact htrace.fresh
  · rw [henrolled]
    exact htrace.enrolled
  · intro x hx hunreleased
    exact htrace.held x hx ⟨henrolled.mp hunreleased.enrolled, hunreleased.started,
      hunreleased.left⟩
  · rw [hcreated]
    exact htrace.made
  · rw [hcreated, enrollmentInfo_handlePatchForEnroll_of_ne hne]
    exact htrace.original
  · rw [hdeleted]
    exact htrace.deleted
  · rw [hdeleted]
    exact htrace.deletion
  · intro x _ outcome hreleased
    exact absurd hreleased (not_released_of_open hending hstarted outcome)

/-- The end begins, or goes on without the service. -/
theorem settle (htrace : Trace s c pending t link h) (hstarted : c.stage = .started)
    (hleft : link ∈ e.links → ∀ e' ∈ c.ending, link ∈ e'.links)
    (hreleased : ∀ x ∈ h, link ∉ e.links → Released c link e.outcome) :
    Trace s (c.settle e) pending t link h where
  fresh hnone hstage := by
    rw [settle_of_started hstage]
    exact htrace.fresh hnone hstarted
  enrolled x hx hstage := by
    rw [settle_of_started hstage]
    exact htrace.enrolled x hx hstarted
  held x hx hunreleased := by
    have hsettle := settle_of_started hunreleased.started
    rw [hsettle] at hunreleased
    exact htrace.held x hx ⟨hunreleased.enrolled, hstarted, hleft (hunreleased.left e rfl)⟩
  made x hx hstage := by
    rw [settle_of_started hstage]
    exact htrace.made x hx hstarted
  original x hx hstage := by
    rw [settle_of_started hstage]
    exact htrace.original x hx hstarted
  deleted x hx hstage := by
    rw [settle_of_started hstage]
    exact htrace.deleted x hx hstarted
  deletion hstage := by
    rw [settle_of_started hstage]
    exact htrace.deletion hstarted
  released x hx outcome hrel := by
    obtain ⟨rfl, hlink⟩ := released_settle hstarted hrel
    exact htrace.released x hx e.outcome (hreleased x hx hlink)

/-- The service is let go. -/
theorem release {content : Option D} (htrace : Trace s c pending t link h)
    (hstarted : c.stage = .started) (hpending : ¬ pending) (hgrows : Grows s s')
    (hactive : s.active = []) (hlink : link ∉ e.links)
    (hcontent : ∀ x ∈ h, link ∈ c.enrolledLinks → content = x.final e.outcome) :
    Trace s' (c.settle e) pending t link
      (h.map fun x => { x with released := some content }) where
  fresh hnone hstage henrolled := by
    rw [Option.map_eq_none_iff] at hnone
    rw [settle_of_started hstage] at henrolled
    rcases htrace.fresh hnone hstarted henrolled with hold | ⟨-, a, ha, -⟩
    · exact absurd hold hpending
    · exact absurd ha (not_mem_of_idle hactive)
  enrolled x hx hstage := by
    obtain ⟨y, hy, rfl⟩ := Option.map_eq_some_iff.mp hx
    rw [settle_of_started hstage]
    exact htrace.enrolled y hy hstarted
  held x hx hunreleased := by
    have hsettle := settle_of_started hunreleased.started
    rw [hsettle] at hunreleased
    -- the service is none of those that the ending still clears
    exact absurd (hunreleased.left e rfl) hlink
  made x hx hstage := by
    obtain ⟨y, hy, rfl⟩ := Option.map_eq_some_iff.mp hx
    rw [settle_of_started hstage]
    exact htrace.made y hy hstarted
  original x hx hstage _ content hcontent := by
    obtain ⟨y, hy, rfl⟩ := Option.map_eq_some_iff.mp hx
    rw [settle_of_started hstage]
    obtain ⟨hcreated, hstored, hlast⟩ := htrace.original y hy hstarted hpending content hcontent
    exact ⟨hcreated, hstored.mono hgrows, hlast⟩
  deleted x hx hstage := by
    obtain ⟨y, hy, rfl⟩ := Option.map_eq_some_iff.mp hx
    rw [settle_of_started hstage]
    exact htrace.deleted y hy hstarted
  deletion hstage hdeleted := by
    rw [settle_of_started hstage] at hdeleted
    rcases htrace.deletion hstarted hdeleted with ⟨x, hx, hdelete⟩ | ⟨a, ha, -⟩
    · exact Or.inl ⟨_, Option.map_eq_some_iff.mpr ⟨x, hx, rfl⟩, hdelete⟩
    · exact absurd ha (not_mem_of_idle hactive)
  released x hx outcome hrel := by
    obtain ⟨rfl, -⟩ := released_settle hstarted hrel
    obtain ⟨y, hy, rfl⟩ := Option.map_eq_some_iff.mp hx
    rw [hcontent y hy (htrace.enrolled y hy hstarted)]
    show some (y.final e.outcome) = some (Touched.final _ e.outcome)
    cases e.outcome with
    | commit | abort => rfl

/-- The first request of the transaction is enrolled, or a further one. -/
theorem enroll (htrace : Trace s c pending a.transactionId link h) (hc : CoordinatorInv c)
    (hs : ServiceInv s) (ha : s.active[n]? = some a) (hending : c.ending = none)
    (hstarted : c.stage = .started) :
    Trace { s with active := s.active.set n { a with isEnrolled := true } }
      (c.handlePatchForEnroll link a.handler.action a.linkedVersion) pending a.transactionId link
      h := by
  have hcreated : link ∈ (c.handlePatchForEnroll link a.handler.action
      a.linkedVersion).createdServicesLinks ↔ link ∈ c.createdServicesLinks := by
    rw [mem_createdServicesLinks_handlePatchForEnroll,
      or_iff_right fun hpost => a.handler.action_ne_post hpost.1]
  have hlt := (List.getElem?_eq_some_iff.mp ha).1
  refine ⟨?_, ?_, ?_, ?_, ?_, ?_, ?_, ?_⟩
  · intro hnone _ _
    rw [hcreated, enrollmentInfo_handlePatchForEnroll]
    split
    next hmem =>
      refine (htrace.fresh hnone hstarted hmem).imp_right ?_
      rintro ⟨hnew, b, hb, htransaction, -, hstored⟩
      -- The copies of the two requests are the same.
      rw [hs.linked_eq hb (List.mem_of_getElem? ha)] at hstored
      exact ⟨hnew, _, List.mem_set hlt _, rfl, rfl, hstored⟩
    next hmem =>
      right
      refine ⟨fun hlink => hmem (hc.created hstarted link hlink), _, List.mem_set hlt _, rfl, rfl,
        ?_⟩
      exact (hs.linked a (List.mem_of_getElem? ha)).1
  · intro x _ _
    exact mem_enrolledLinks_handlePatchForEnroll.mpr (Or.inl rfl)
  · intro x hx hunreleased
    exact htrace.held x hx ⟨htrace.enrolled x hx hstarted, hstarted, hunreleased.left⟩
  · rw [hcreated]
    exact htrace.made
  · intro x hx _ hpending content hcontent
    rw [hcreated, enrollmentInfo_handlePatchForEnroll, if_pos (htrace.enrolled x hx hstarted)]
    obtain ⟨hnew, hstored, hlast⟩ := htrace.original x hx hstarted hpending content hcontent
    refine ⟨hnew, hstored, fun hupdated => hlast ?_⟩
    exact (Bool.or_eq_false_iff.mp hupdated).1
  · intro x hx _ hdelete
    exact mem_deletedServicesLinks_handlePatchForEnroll.mpr
      (Or.inr (htrace.deleted x hx hstarted hdelete))
  · intro _ hdeleted
    rcases mem_deletedServicesLinks_handlePatchForEnroll.mp hdeleted with ⟨haction, -⟩ | hdeleted
    · exact Or.inr ⟨_, List.mem_set hlt _, rfl, rfl, Handler.eq_delete haction⟩
    · refine (htrace.deletion hstarted hdeleted).imp_right ?_
      rintro ⟨b, hb, -, -, hdelete⟩
      rw [hs.eq_of_delete hb hdelete (List.mem_of_getElem? ha)] at hdelete
      exact ⟨_, List.mem_set hlt _, rfl, rfl, hdelete⟩
  · intro x _ outcome hreleased
    exact absurd hreleased (not_released_of_open hending hstarted outcome)

/-- A POST for the service is enrolled. -/
theorem post {version : Int} (htrace : Trace s c pending t link h) (hending : c.ending = none)
    (hstarted : c.stage = .started) (hpending : pending') :
    Trace s (c.handlePatchForEnroll link .post version) pending' t link h where
  fresh _ _ _ := Or.inl hpending
  enrolled _ _ _ := mem_enrolledLinks_handlePatchForEnroll.mpr (Or.inl rfl)
  held x hx hunreleased :=
    htrace.held x hx ⟨htrace.enrolled x hx hstarted, hstarted, hunreleased.left⟩
  made _ _ _ _ := mem_createdServicesLinks_handlePatchForEnroll.mpr (Or.inl ⟨rfl, rfl⟩)
  original _ _ _ hnot := absurd hpending hnot
  deleted x hx _ hdelete := htrace.deleted x hx hstarted hdelete
  deletion _ hdeleted := htrace.deletion hstarted hdeleted
  released _ _ outcome hreleased :=
    absurd hreleased (not_released_of_open hending hstarted outcome)

end Trace

/-! ## Histories -/

section Histories

variable [DecidableEq L] [DecidableEq T] {t : T}

theorem touch_of_ne {history : T → L → Option (Touched D)} {t' : T} {link : L} {before : Option D}
    {last : D} {deleted : Bool} (hne : t ≠ t') :
    touch history t' link before last deleted t = history t :=
  Function.update_of_ne hne ..

theorem touch_apply_of_ne {history : T → L → Option (Touched D)} {link link' : L}
    {before : Option D} {last : D} {deleted : Bool} (hne : link' ≠ link) :
    touch history t link before last deleted t link' = history t link' := by
  unfold touch
  rw [Function.update_self, Function.update_of_ne hne]

theorem touch_apply {history : T → L → Option (Touched D)} {link : L} {before : Option D}
    {last : D} {deleted : Bool} :
    touch history t link before last deleted t link = some (match history t link with
      | none => ⟨before, last, deleted, none⟩
      | some x => { x with last := last, deleted := x.deleted || deleted }) := by
  refine (congrFun (Function.update_self ..) link).trans ((Function.update_self ..).trans ?_)
  cases history t link with
  | none | some x => rfl

theorem release_of_ne {history : T → L → Option (Touched D)} {t' : T} {link : L}
    {content : Option D} (hne : t ≠ t') : release history t' link content t = history t :=
  Function.update_of_ne hne ..

theorem release_apply_of_ne {history : T → L → Option (Touched D)} {link link' : L}
    {content : Option D} (hne : link' ≠ link) :
    release history t link content t link' = history t link' := by
  unfold release
  rw [Function.update_self, Function.update_of_ne hne]

theorem release_apply {history : T → L → Option (Touched D)} {link : L} {content : Option D} :
    release history t link content t link =
      (history t link).map fun x => { x with released := some content } := by
  unfold release
  rw [Function.update_self, Function.update_self]

end Histories

end Xenon.SimpleTransaction
