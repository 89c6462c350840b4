import Xenon.SimpleTransaction.Service

/-!
# Isolation of simple transactions

The mark of a service says which transaction has it. Under the conditions of `Isolated`
a marked service is enrolled with the transaction, an active request works on a copy that
is up to date, and what a transaction deletes at its end is its own.

The invariant is about one service and one coordinator at a time (`Pair`), since an event
changes at most one of each.
-/

namespace Xenon.SimpleTransaction

open Common Foundation
open SynchronizationTask (TaskStage)
open Transaction (LinkSet)

variable {L T D : Type*}

/-- The handler does not leave the mark of another transaction. -/
def Handler.Keeps (transactionId : Option T) : Handler T D → Prop
  | .update _ (some bodyTransactionId) =>
      bodyTransactionId = none ∨ bodyTransactionId = transactionId
  | _ => True

/-- A request does not overlap with an update of a transaction, nor, if it belongs to a
transaction or is an update, with a request of another transaction. -/
def Apart (s : Service T D) (transactionId : Option T) (handler : Handler T D) : Prop :=
  s.active = [] ∨ (handler.isGet ∧
    ∀ t ∈ transactionId, ∀ a ∈ s.active, a.handler.isGet ∧ a.transactionId = t)

/-- The condition on the events. Where a transaction works on a service, requests do not
overlap and bodies do not carry the mark of another transaction; POSTs and DELETEs of
transactions do not fail once they are enrolled, and no other request of `t` does; an end
comes after the POSTs, and its own requests do not fail. -/
def Isolated (t : T) (σ : State L T D) : Event L T D → Prop
  | .request link transactionId handler =>
      Apart (σ.services link) transactionId handler ∧ handler.Keeps transactionId
  | .execute link n success => success = true ∨
      ∀ a ∈ (σ.services link).active[n]?, a.transactionId ≠ t ∧ a.handler.action ≠ .delete
  | .create n success =>
      success = true ∧ ∀ p ∈ σ.creations[n]?, (σ.services p.link).state = none
  | .endTransaction t' _ => ∀ p ∈ σ.creations, p.transactionId ≠ t'
  | .delete t' n success => success = true ∧ ∀ e ∈ (σ.coordinators t').ending,
      ∀ link ∈ e.deletes[n]?, (σ.services link).active = []
  | .clear t' n success => success = true ∧ ∀ e ∈ (σ.coordinators t').ending,
      ∀ r ∈ e.clears[n]?, (σ.services r.1).active = [] ∧ (σ.services r.1).state ≠ none
  | .enroll _ _ | .post _ _ _ => True

instance [DecidableEq T] (transactionId : Option T) :
    ∀ handler : Handler T D, Decidable (handler.Keeps transactionId)
  | .update _ (some bodyTransactionId) =>
      inferInstanceAs (Decidable (bodyTransactionId = none ∨ bodyTransactionId = transactionId))
  | .get | .delete | .update _ none => inferInstanceAs (Decidable True)

instance [DecidableEq T] (s : Service T D) (transactionId : Option T) (handler : Handler T D) :
    Decidable (Apart s transactionId handler) :=
  inferInstanceAs (Decidable (_ ∨ _))

instance [DecidableEq T] (t : T) (σ : State L T D) :
    ∀ event, Decidable (Isolated t σ event)
  | .request _ _ _ | .create _ _ | .delete _ _ _ | .clear _ _ _ =>
      inferInstanceAs (Decidable (_ ∧ _))
  | .execute _ _ _ => inferInstanceAs (Decidable (_ ∨ _))
  | .endTransaction t' _ => inferInstanceAs (Decidable (∀ p ∈ σ.creations, p.transactionId ≠ t'))
  | .enroll _ _ | .post _ _ _ => inferInstanceAs (Decidable True)

/-! ## The invariant -/

/-- The content is that of a version in the index. -/
def Stored (s : Service T D) (version : Int) (content : D) : Prop :=
  version ≤ s.documentVersion ∧ s.index version = some content

/-- The services that the end has not come to. -/
def Ending.links (e : Ending L) : List L := e.deletes ++ e.clears.map Prod.fst

/-- The transaction has the service and has not let it go. -/
structure Unreleased (c : Coordinator L) (link : L) : Prop where
  enrolled : link ∈ c.enrolledLinks
  started : c.stage = .started
  left : ∀ e ∈ c.ending, link ∈ e.links

/-- The service has the mark of the transaction, or is about to get it from a DELETE. -/
def Owned (s : Service T D) (t : T) : Prop :=
  (∃ content, s.state = some ⟨content, some t⟩) ∨
    ∃ a ∈ s.active, a.transactionId = t ∧ a.handler = .delete

structure ServiceInv (s : Service T D) : Prop where
  stored : ∀ doc ∈ s.state, Stored s s.documentVersion doc.content
  linked : ∀ a ∈ s.active, Stored s a.linkedVersion a.linked ∧
    (s.state = some ⟨a.linked, none⟩ ∨ s.state = some ⟨a.linked, some a.transactionId⟩)
  keeps : ∀ a ∈ s.active, a.handler.Keeps (some a.transactionId)
  same : ∀ a ∈ s.active, ∀ b ∈ s.active, a.transactionId = b.transactionId
  alone : ∀ a ∈ s.active, a.handler.isGet = false → s.active = [a]

/-- A service that is enrolled is not let go before the end. -/
theorem Unreleased.of_open {c : Coordinator L} {link : L} (henrolled : link ∈ c.enrolledLinks)
    (hstarted : c.stage = .started) (hending : c.ending = none) : Unreleased c link := by
  refine ⟨henrolled, hstarted, ?_⟩
  rw [hending]
  exact nofun

/-- The requests of an end under way are those that its sets ask for. -/
structure EndingInv (c : Coordinator L) (e : Ending L) : Prop where
  started : c.stage = .started
  ok : e.failed = false
  nodup : e.links.Nodup
  deletes : ∀ link ∈ e.deletes, link ∈ c.servicesToBeDeleted e.outcome
  clears : ∀ r ∈ e.clears, r.2 = c.enrollmentInfo r.1 ∧ r.1 ∉ c.servicesToBeDeleted e.outcome

structure CoordinatorInv (c : Coordinator L) : Prop where
  created : c.stage = .started → ∀ link ∈ c.createdServicesLinks, link ∈ c.enrolledLinks
  ending : ∀ e ∈ c.ending, EndingInv c e

/-- What the coordinator knows of an active request that is enrolled. -/
structure Enrolled (c : Coordinator L) (link : L) (a : Active T D) : Prop where
  unreleased : Unreleased c link
  updated : a.handler.isGet = false → (c.enrollmentInfo link).isUpdated
  deleted : a.handler = .delete → link ∈ c.deletedServicesLinks

/-- What a service and a coordinator know of each other; `pending` says that a POST of the
transaction for this service is under way. -/
structure Pair (s : Service T D) (c : Coordinator L) (pending : Prop) (t : T) (link : L) :
    Prop where
  mark : ∀ content, s.state = some ⟨content, some t⟩ → Unreleased c link
  enrolled : ∀ a ∈ s.active, a.transactionId = t → a.isEnrolled → Enrolled c link a
  created : c.stage = .started → c.ending = none → link ∈ c.createdServicesLinks →
    pending ∨ Owned s t
  deleted : c.stage = .started → c.ending = none → link ∈ c.deletedServicesLinks → Owned s t
  ending : c.stage = .started → ∀ e ∈ c.ending, link ∈ e.deletes → Owned s t
  original : c.stage = .started → link ∈ c.enrolledLinks → link ∈ c.createdServicesLinks ∨
    ∃ content, Stored s (c.enrollmentInfo link).originalVersion content

def Pending (σ : State L T D) (t : T) (link : L) : Prop :=
  ∃ p ∈ σ.creations, p.transactionId = t ∧ p.link = link

structure Inv (σ : State L T D) : Prop where
  service : ∀ link, ServiceInv (σ.services link)
  coordinator : ∀ t, CoordinatorInv (σ.coordinators t)
  creation : ∀ p ∈ σ.creations, (σ.coordinators p.transactionId).stage = .started ∧
    (σ.coordinators p.transactionId).ending = none ∧
    p.link ∈ (σ.coordinators p.transactionId).createdServicesLinks
  pair : ∀ t link,
    Pair (σ.services link) (σ.coordinators t) (Pending σ t link) t link

/-! ## Services -/

section Services

variable {s : Service T D} {a : Active T D} {n : Nat} {t : T}

/-- The index keeps what it has. -/
def Grows (s s' : Service T D) : Prop :=
  s.documentVersion ≤ s'.documentVersion ∧
    ∀ version ≤ s.documentVersion, s'.index version = s.index version

theorem Stored.mono {s' : Service T D} {version : Int} {content : D} (h : Stored s version content)
    (hgrows : Grows s s') : Stored s' version content :=
  ⟨h.1.trans hgrows.1, (hgrows.2 version h.1).trans h.2⟩

theorem Grows.refl (s : Service T D) : Grows s s := ⟨le_refl _, fun _ _ => rfl⟩

theorem grows_save (content : D) (id : Option T) : Grows s (s.save content id) := by
  constructor
  · show s.documentVersion ≤ s.documentVersion + 1
    omega
  · intro version hversion
    have hne : version ≠ s.documentVersion + 1 := by omega
    exact Function.update_of_ne hne ..

theorem grows_execute (content : D) (id : Option T) :
    Grows s ({ s with active := s.active.eraseIdx n }.save content id) :=
  grows_save (s := s) content id

theorem grows_stop (content : D) : Grows s (s.stop content) := grows_save (s := s) content none

theorem stored_save (content : D) (id : Option T) :
    Stored (s.save content id) (s.save content id).documentVersion content :=
  ⟨le_refl _, Function.update_self ..⟩

theorem not_mem_of_idle (h : s.active = []) : a ∉ s.active := by
  rw [h]
  exact List.not_mem_nil

theorem mem_eraseIdx_of_ne {α : Type*} {l : List α} {x y : α} (hx : l[n]? = some x) (hy : y ∈ l)
    (hne : y ≠ x) : y ∈ l.eraseIdx n := by
  have hperm : y ∈ x :: l.eraseIdx n := (Machine.perm_eraseIdx hx).mem_iff.mp hy
  exact (List.mem_cons.mp hperm).resolve_left hne

theorem mem_set_of_ne {α : Type*} {l : List α} {x y z : α} (hx : l[n]? = some x) (hy : y ∈ l)
    (hne : y ≠ x) : y ∈ l.set n z := by
  obtain ⟨i, hi⟩ := List.mem_iff_getElem?.mp hy
  apply List.mem_of_getElem? (i := i)
  rw [List.getElem?_set_ne, hi]
  rintro rfl
  rw [hx] at hi
  exact hne (Option.some.inj hi).symm

theorem eraseIdx_eq_nil {l : List (Active T D)} (ha : l[n]? = some a) (h : l = [a]) :
    l.eraseIdx n = [] := by
  subst h
  cases n with
  | zero => rfl
  | succ n => cases ha

theorem Handler.action_ne_get {handler : Handler T D} (h : handler.isGet = false) :
    handler.action ≠ .get := by
  cases handler with
  | get => cases h
  | update _ _ | delete => exact nofun

theorem Handler.action_ne_post (handler : Handler T D) : handler.action ≠ .post := by
  cases handler with
  | get | update _ _ | delete => exact nofun

theorem Handler.eq_delete {handler : Handler T D} (h : handler.action = .delete) :
    handler = .delete := by
  cases handler with
  | get | update _ _ => cases h
  | delete => rfl

theorem Handler.action_of_delete {handler : Handler T D} (h : handler = .delete) :
    handler.action = .delete := by
  rw [h]
  rfl

theorem Handler.result_of_isGet {handler : Handler T D} (h : handler.isGet) (linked : D) :
    handler.result linked = linked := by
  cases handler with
  | get => rfl
  | update _ _ | delete => cases h

/-- A request of a transaction that keeps the mark leaves it on the state. -/
theorem Service.execute_some {handler : Handler T D} (hkeeps : handler.Keeps (some t))
    (linked : D) :
    s.execute (some t) linked handler = s.save (handler.result linked) (some t) := by
  match handler with
  | .get | .delete | .update _ none | .update _ (some none) => rfl
  | .update _ (some (some t')) =>
      have hid : some t' = some t := hkeeps.resolve_left nofun
      cases hid
      rfl

/-- A request from outside leaves no mark. -/
theorem Service.execute_none {handler : Handler T D} (hkeeps : handler.Keeps (none : Option T))
    (linked : D) :
    s.execute none linked handler = s ∨ s.execute none linked handler = s.stop linked ∨
      ∃ content, s.execute none linked handler = s.save content none := by
  match handler with
  | .get => exact Or.inl rfl
  | .delete => exact Or.inr (Or.inl rfl)
  | .update handler none | .update handler (some none) =>
      exact Or.inr (Or.inr ⟨handler linked, rfl⟩)
  | .update _ (some (some t')) => exact absurd (hkeeps.elim id id) nofun

theorem Service.execute_none_of_isGet {handler : Handler T D} (h : handler.isGet) (linked : D) :
    s.execute none linked handler = s := by
  cases handler with
  | get => rfl
  | update _ _ | delete => cases h

/-- A request that passes the filter finds no mark, or that of its transaction. -/
theorem mark_of_passed [DecidableEq T] {isGet : Bool} {request current : Option T}
    (h : validateTransactionConflicts isGet false request current = false) :
    current = none ∨ current = request := by
  cases request with
  | none =>
      cases current with
      | none => exact Or.inl rfl
      | some t => cases isGet <;> cases h
  | some t' =>
      cases current with
      | none => exact Or.inl rfl
      | some t =>
          right
          have hne : decide (t' ≠ t) = false := by cases isGet <;> exact h
          rw [decide_eq_false_iff_not, not_not] at hne
          rw [hne]

/-- A clear request takes the mark of its transaction away, and leaves that of others. -/
theorem Service.handleClearTransaction_cases [DecidableEq T] {s' : Service T D}
    {outcome : TransactionOutcome} {info : EnrollmentInfo}
    (h : s.handleClearTransaction t outcome info = some s') :
    ∃ content mark, s.state = some ⟨content, mark⟩ ∧
      ((mark ≠ some t ∧ s' = s.save content mark) ∨
        (mark = some t ∧ ∃ content', s' = s.save content' none ∧
          ((outcome = .abort ∧ info.isUpdated ∧ s.index info.originalVersion = some content') ∨
            (¬ (outcome = .abort ∧ info.isUpdated) ∧ content' = content)))) := by
  obtain ⟨⟨content, mark⟩, hstate, h⟩ := Option.bind_eq_some_iff.mp h
  refine ⟨content, mark, hstate, ?_⟩
  split at h
  next hmark =>
    cases h
    exact Or.inl ⟨hmark, rfl⟩
  next hmark =>
    right
    refine ⟨not_not.mp hmark, ?_⟩
    split at h
    next habort =>
      rw [Bool.and_eq_true, decide_eq_true_eq] at habort
      obtain ⟨content', hindex, rfl⟩ := Option.map_eq_some_iff.mp h
      exact ⟨content', rfl, Or.inl ⟨habort.1, habort.2, hindex⟩⟩
    next habort =>
      rw [Bool.and_eq_true, decide_eq_true_eq] at habort
      cases h
      exact ⟨content, rfl, Or.inr ⟨habort, rfl⟩⟩

namespace ServiceInv

/-- While an update is active nothing else is. -/
theorem eq_of_update (h : ServiceInv s) {b : Active T D} (hb : b ∈ s.active)
    (hget : b.handler.isGet = false) (ha : a ∈ s.active) : b = a := by
  rw [h.alone b hb hget, List.mem_singleton] at ha
  exact ha.symm

theorem eraseIdx_of_update (h : ServiceInv s) (ha : s.active[n]? = some a)
    (hget : a.handler.isGet = false) : s.active.eraseIdx n = [] :=
  eraseIdx_eq_nil ha (h.alone a (List.mem_of_getElem? ha) hget)

/-- Fewer requests are active. -/
theorem eraseIdx (h : ServiceInv s) (ha : s.active[n]? = some a) :
    ServiceInv { s with active := s.active.eraseIdx n } where
  stored := h.stored
  linked b hb := h.linked b (List.mem_of_mem_eraseIdx hb)
  keeps b hb := h.keeps b (List.mem_of_mem_eraseIdx hb)
  same b hb b' hb' := h.same b (List.mem_of_mem_eraseIdx hb) b' (List.mem_of_mem_eraseIdx hb')
  alone b hb hget := by
    have hba := h.eq_of_update (List.mem_of_mem_eraseIdx hb) hget (List.mem_of_getElem? ha)
    subst hba
    exact absurd hb (not_mem_of_idle (h.eraseIdx_of_update ha hget))

/-- The copy of an active request is up to date. -/
theorem state_content (h : ServiceInv s) (ha : a ∈ s.active) :
    s.state.map Document.content = some a.linked := by
  rcases (h.linked a ha).2 with hstate | hstate
  · rw [hstate]
    rfl
  · rw [hstate]
    rfl

theorem linked_eq (h : ServiceInv s) {b : Active T D} (ha : a ∈ s.active) (hb : b ∈ s.active) :
    a.linked = b.linked :=
  Option.some.inj ((h.state_content ha).symm.trans (h.state_content hb))

theorem eq_of_delete (h : ServiceInv s) {b : Active T D} (hb : b ∈ s.active)
    (hdelete : b.handler = .delete) (ha : a ∈ s.active) : b = a := by
  apply h.eq_of_update hb _ ha
  rw [hdelete]
  rfl

/-- An active request completes. -/
theorem execute (h : ServiceInv s) (ha : s.active[n]? = some a) :
    ServiceInv ({ s with active := s.active.eraseIdx n }.save (a.handler.result a.linked)
      (some a.transactionId)) where
  stored := by
    rintro doc ⟨⟩
    exact stored_save ..
  linked b hb := by
    have hmem := List.mem_of_mem_eraseIdx hb
    have hstored : Stored { s with active := s.active.eraseIdx n } b.linkedVersion b.linked :=
      (h.linked b hmem).1
    refine ⟨hstored.mono (grows_save ..), Or.inr ?_⟩
    have hget : a.handler.isGet = true := by
      by_contra hget
      have hnil := h.eraseIdx_of_update ha (Bool.eq_false_iff.mpr hget)
      exact absurd hb (not_mem_of_idle hnil)
    rw [Handler.result_of_isGet hget, h.linked_eq (List.mem_of_getElem? ha) hmem,
      h.same a (List.mem_of_getElem? ha) b hmem]
    rfl
  keeps := (h.eraseIdx ha).keeps
  same := (h.eraseIdx ha).same
  alone := (h.eraseIdx ha).alone

/-- A service that is not started has no active requests. -/
theorem idle (h : ServiceInv s) (hstate : s.state = none) : s.active = [] := by
  rw [List.eq_nil_iff_forall_not_mem]
  intro a ha
  have hcopy := h.state_content ha
  rw [hstate] at hcopy
  cases hcopy

/-- Without active requests, what is saved last is in the index. -/
theorem of_idle (hactive : s.active = [])
    (hstored : ∀ doc ∈ s.state, Stored s s.documentVersion doc.content) : ServiceInv s where
  stored := hstored
  linked := by simp [hactive]
  keeps := by simp [hactive]
  same := by simp [hactive]
  alone := by simp [hactive]

theorem stop (h : s.active = []) (content : D) : ServiceInv (s.stop content) :=
  of_idle h nofun

theorem save (h : s.active = []) (content : D) (id : Option T) :
    ServiceInv (s.save content id) := by
  refine of_idle h ?_
  rintro doc ⟨⟩
  exact stored_save ..

/-- The filter lets a request pass. -/
theorem admitted (h : ServiceInv s) {content : D} {mark : Option T} {handler : Handler T D}
    (hstate : s.state = some ⟨content, mark⟩) (hmark : mark = none ∨ mark = some t)
    (hapart : Apart s (some t) handler) (hkeeps : handler.Keeps (some t)) :
    ServiceInv { s with
      active := s.active ++ [⟨t, handler, content, s.documentVersion, false⟩] } where
  stored := h.stored
  linked b hb := by
    rcases List.mem_append.mp hb with hb | hb
    · exact h.linked b hb
    · cases List.mem_singleton.mp hb
      refine ⟨h.stored ⟨content, mark⟩ hstate, ?_⟩
      rcases hmark with rfl | rfl
      · exact Or.inl hstate
      · exact Or.inr hstate
  keeps b hb := by
    rcases List.mem_append.mp hb with hb | hb
    · exact h.keeps b hb
    · cases List.mem_singleton.mp hb
      exact hkeeps
  same := by
    have hall : ∀ b ∈ s.active ++ [⟨t, handler, content, s.documentVersion, false⟩],
        b.transactionId = t := by
      intro b hb
      rcases List.mem_append.mp hb with hb | hb
      · rcases hapart with hnil | ⟨-, hothers⟩
        · rw [hnil] at hb
          exact absurd hb List.not_mem_nil
        · exact (hothers t rfl b hb).2
      · cases List.mem_singleton.mp hb
        rfl
    intro b hb b' hb'
    rw [hall b hb, hall b' hb']
  alone b hb hget := by
    rcases hapart with hnil | ⟨hisGet, hothers⟩
    · simp only [hnil, List.nil_append, List.mem_singleton] at hb ⊢
      rw [hb]
    · rcases List.mem_append.mp hb with hb | hb
      · rw [(hothers t rfl b hb).1] at hget
        cases hget
      · cases List.mem_singleton.mp hb
        rw [show handler.isGet = true from hisGet] at hget
        cases hget

/-- An active request is enrolled. -/
theorem enroll (h : ServiceInv s) (ha : s.active[n]? = some a) :
    ServiceInv { s with active := s.active.set n { a with isEnrolled := true } } where
  stored := h.stored
  linked b hb := by
    rcases List.mem_or_eq_of_mem_set hb with hb | rfl
    · exact h.linked b hb
    · exact h.linked a (List.mem_of_getElem? ha)
  keeps b hb := by
    rcases List.mem_or_eq_of_mem_set hb with hb | rfl
    · exact h.keeps b hb
    · exact h.keeps a (List.mem_of_getElem? ha)
  same := by
    have hall : ∀ b ∈ s.active.set n { a with isEnrolled := true },
        b.transactionId = a.transactionId := by
      intro b hb
      rcases List.mem_or_eq_of_mem_set hb with hb | rfl
      · exact h.same b hb a (List.mem_of_getElem? ha)
      · rfl
    intro b hb b' hb'
    rw [hall b hb, hall b' hb']
  alone b hb hget := by
    have hsingle : ∀ x, s.active = [x] → s.active.set n { a with isEnrolled := true } = [b] := by
      intro x hx
      rw [hx] at ha hb
      have hn : n = 0 := by
        by_contra hn
        rw [List.getElem?_eq_none (by simp; omega)] at ha
        cases ha
      subst hn
      rw [hx]
      exact congrArg (fun y => [y]) (List.mem_singleton.mp hb).symm
    rcases List.mem_or_eq_of_mem_set hb with hold | rfl
    · exact hsingle b (h.alone b hold hget)
    · exact hsingle a (h.alone a (List.mem_of_getElem? ha) hget)

end ServiceInv

/-- A service that the transaction has not updated is read. -/
theorem Enrolled.result_eq {c : Coordinator L} {link : L} (h : Enrolled c link a)
    (hread : (c.enrollmentInfo link).isUpdated = false) : a.handler.result a.linked = a.linked := by
  apply Handler.result_of_isGet
  by_contra hget
  rw [h.updated (Bool.eq_false_iff.mpr hget)] at hread
  cases hread

/-! ## Owners -/

/-- The service of an active request is owned by its transaction, if at all. -/
theorem Owned.eq_of_active {s : Service T D} (h : ServiceInv s) {a : Active T D}
    (ha : a ∈ s.active) (hown : Owned s t) : t = a.transactionId := by
  rcases hown with ⟨content, hstate⟩ | ⟨b, hb, rfl, -⟩
  · rcases (h.linked a ha).2 with ha | ha
    · rw [hstate] at ha
      cases ha
    · rw [hstate] at ha
      cases ha
      rfl
  · exact h.same b hb a ha

/-- Nobody else owns an owned service. -/
theorem Owned.unique {s : Service T D} (h : ServiceInv s) {t t' : T} (hown : Owned s t)
    (hown' : Owned s t') : t = t' := by
  rcases hown' with ⟨content', hstate'⟩ | ⟨b, hb, rfl, -⟩
  · rcases hown with ⟨content, hstate⟩ | ⟨a, ha, rfl, -⟩
    · rw [hstate] at hstate'
      cases hstate'
      rfl
    · exact (Owned.eq_of_active h ha (Or.inl ⟨content', hstate'⟩)).symm
  · exact hown.eq_of_active h hb

/-- An enrolled request owns what it owned. -/
theorem Owned.enroll (ha : s.active[n]? = some a) (hown : Owned s t) :
    Owned { s with active := s.active.set n { a with isEnrolled := true } } t := by
  refine hown.imp_right ?_
  rintro ⟨b, hb, hdelete⟩
  by_cases hba : b = a
  · subst hba
    exact ⟨_, List.mem_set (List.getElem?_eq_some_iff.mp ha).1 _, hdelete⟩
  · exact ⟨b, mem_set_of_ne ha hb hba, hdelete⟩

/-- Without active requests, an owned service has the mark. -/
theorem Owned.marked {s : Service T D} (hactive : s.active = []) (hown : Owned s t) :
    ∃ content, s.state = some ⟨content, some t⟩ := by
  rcases hown with hmarked | ⟨a, ha, -⟩
  · exact hmarked
  · exact absurd ha (not_mem_of_idle hactive)

theorem not_owned_of_unmarked {s : Service T D} (hactive : s.active = [])
    (hmark : ∀ doc ∈ s.state, doc.documentTransactionId = none) (t : T) : ¬ Owned s t := by
  intro hown
  obtain ⟨content, hstate⟩ := hown.marked hactive
  cases hmark ⟨content, some t⟩ hstate

end Services

/-! ## Coordinators -/

section Coordinators

/-- The stage in which a transaction ends. -/
def TransactionOutcome.stage : TransactionOutcome → TaskStage
  | .commit => .finished
  | .abort => .cancelled

theorem TransactionOutcome.stage_ne (outcome : TransactionOutcome) : outcome.stage ≠ .started := by
  cases outcome with
  | commit | abort => exact nofun

theorem TransactionOutcome.stage_injective : Function.Injective TransactionOutcome.stage := by
  intro outcome outcome' h
  cases outcome with
  | commit =>
      cases outcome' with
      | commit => rfl
      | abort => cases h
  | abort =>
      cases outcome' with
      | commit => cases h
      | abort => rfl

variable {c : Coordinator L} {e : Ending L} {link link' : L} {action : Action} {version : Int}
  {n : Nat}

namespace EndingInv

/-- The end goes on when a delete request is answered. -/
theorem delete (h : EndingInv c e) :
    EndingInv c { e with deletes := e.deletes.eraseIdx n } where
  started := h.started
  ok := h.ok
  nodup := h.nodup.sublist ((List.eraseIdx_sublist ..).append_right _)
  deletes link hlink := h.deletes link (List.mem_of_mem_eraseIdx hlink)
  clears := h.clears

/-- The end goes on when a clear request is answered. -/
theorem clear (h : EndingInv c e) :
    EndingInv c { e with clears := e.clears.eraseIdx n } where
  started := h.started
  ok := h.ok
  nodup := h.nodup.sublist (((List.eraseIdx_sublist ..).map _).append_left _)
  deletes := h.deletes
  clears r hr := h.clears r (List.mem_of_mem_eraseIdx hr)

end EndingInv

variable [DecidableEq L]

theorem mem_enrolledLinks_handlePatchForEnroll :
    link' ∈ (c.handlePatchForEnroll link action version).enrolledLinks ↔
      link' = link ∨ link' ∈ c.enrolledLinks :=
  LinkSet.mem_add

theorem mem_ite_add {p : Prop} [Decidable p] {set : LinkSet L} :
    link' ∈ (if p then set.add link else set) ↔ (p ∧ link' = link) ∨ link' ∈ set := by
  split
  next h => simp [h]
  next h => simp [h]

theorem mem_createdServicesLinks_handlePatchForEnroll :
    link' ∈ (c.handlePatchForEnroll link action version).createdServicesLinks ↔
      (action = .post ∧ link' = link) ∨ link' ∈ c.createdServicesLinks :=
  mem_ite_add

theorem mem_deletedServicesLinks_handlePatchForEnroll :
    link' ∈ (c.handlePatchForEnroll link action version).deletedServicesLinks ↔
      (action = .delete ∧ link' = link) ∨ link' ∈ c.deletedServicesLinks :=
  mem_ite_add

theorem enrollmentInfo_handlePatchForEnroll_of_ne (h : link' ≠ link) :
    (c.handlePatchForEnroll link action version).enrollmentInfo link' = c.enrollmentInfo link' :=
  Function.update_of_ne h ..

theorem enrollmentInfo_handlePatchForEnroll :
    (c.handlePatchForEnroll link action version).enrollmentInfo link =
      if link ∈ c.enrolledLinks then
        { c.enrollmentInfo link with
          isUpdated := (c.enrollmentInfo link).isUpdated || action ≠ .get }
      else ⟨action ≠ .get, version⟩ :=
  Function.update_self ..

/-- An update is remembered. -/
theorem isUpdated_handlePatchForEnroll (h : action ≠ .get) :
    ((c.handlePatchForEnroll link action version).enrollmentInfo link).isUpdated := by
  rw [enrollmentInfo_handlePatchForEnroll]
  split
  next => simp [h]
  next => simp [h]

/-- What stands once in a list is gone when it is erased. -/
theorem mem_eraseIdx_of_nodup {links : List L} (hnodup : links.Nodup)
    (hn : links[n]? = some link) : link' ∈ links.eraseIdx n ↔ link' ∈ links ∧ link' ≠ link := by
  rw [List.getElem?_eq_some_iff] at hn
  obtain ⟨hlt, rfl⟩ := hn
  rw [← hnodup.erase_getElem n hlt, hnodup.mem_erase_iff, and_comm]

theorem Unreleased.enroll (hending : c.ending = none) (hstarted : c.stage = .started) :
    Unreleased (c.handlePatchForEnroll link action version) link :=
  Unreleased.of_open (mem_enrolledLinks_handlePatchForEnroll.mpr (Or.inl rfl)) hstarted hending

/-- When all is answered the PATCH completes, else the end goes on. -/
theorem settle_cases (c : Coordinator L) (e : Ending L) :
    (e.links = [] ∧ c.settle e = c.complete e.outcome) ∨
      (e.links ≠ [] ∧ c.settle e = { c with ending := some e }) := by
  unfold Coordinator.settle Ending.links
  split
  next h =>
    rw [Bool.and_eq_true, List.isEmpty_iff, List.isEmpty_iff] at h
    simp [h.1, h.2]
  next h =>
    right
    rw [Bool.and_eq_true, List.isEmpty_iff, List.isEmpty_iff, not_and_or] at h
    constructor
    · simpa [or_iff_not_imp_left] using h
    · rfl

theorem deleteAnswered_of_ok (h : e.failed = false) : c.deleteAnswered e = c.settle e := by
  unfold Coordinator.deleteAnswered
  rw [h, Bool.and_false, if_neg Bool.false_ne_true]

theorem clearAnswered_of_ok (h : e.failed = false) : c.clearAnswered e = c.settle e := by
  unfold Coordinator.clearAnswered
  rw [h, Bool.and_false, if_neg Bool.false_ne_true]

theorem complete_stage (outcome : TransactionOutcome) :
    (c.complete outcome).stage = outcome.stage := by
  cases outcome with
  | commit | abort => rfl

theorem complete_stage_ne (outcome : TransactionOutcome) :
    (c.complete outcome).stage ≠ .started := by
  rw [complete_stage]
  exact outcome.stage_ne

namespace CoordinatorInv

theorem handlePatchForEnroll (h : CoordinatorInv c) (hending : c.ending = none) :
    CoordinatorInv (c.handlePatchForEnroll link action version) where
  created hstarted link' hlink' := by
    rw [mem_enrolledLinks_handlePatchForEnroll]
    rcases mem_createdServicesLinks_handlePatchForEnroll.mp hlink' with ⟨-, rfl⟩ | hlink'
    · exact Or.inl rfl
    · exact Or.inr (h.created hstarted link' hlink')
  ending := by
    show ∀ e ∈ c.ending, _
    rw [hending]
    exact nofun

theorem settle (h : CoordinatorInv c) (he : EndingInv c e) : CoordinatorInv (c.settle e) := by
  rcases settle_cases c e with ⟨-, hsettle⟩ | ⟨-, hsettle⟩
  · rw [hsettle]
    exact ⟨fun hstarted => absurd hstarted (complete_stage_ne _), nofun⟩
  · rw [hsettle]
    refine ⟨h.created, ?_⟩
    rintro e ⟨⟩
    exact ⟨he.started, he.ok, he.nodup, he.deletes, he.clears⟩

end CoordinatorInv

/-- The requests that end the transaction. -/
def Coordinator.endRequests (c : Coordinator L) (outcome : TransactionOutcome) : Ending L where
  outcome := outcome
  deletes := (c.servicesToBeDeleted outcome).links
  clears := (c.enrolledLinks.links.filter (· ∉ c.servicesToBeDeleted outcome)).map
    fun link => (link, c.enrollmentInfo link)
  failed := false

theorem handlePatchForEndTransaction_eq (outcome : TransactionOutcome) :
    c.handlePatchForEndTransaction outcome = c.settle (c.endRequests outcome) := rfl

theorem endingInv_endRequests (hstarted : c.stage = .started) (outcome : TransactionOutcome) :
    EndingInv c (c.endRequests outcome) where
  started := hstarted
  ok := rfl
  nodup := by
    show ((c.servicesToBeDeleted outcome).links ++ List.map Prod.fst (List.map _ _)).Nodup
    rw [List.map_map]
    show ((c.servicesToBeDeleted outcome).links ++ List.map id _).Nodup
    rw [List.map_id, List.nodup_append']
    refine ⟨(c.servicesToBeDeleted outcome).nodup, c.enrolledLinks.nodup.filter _, ?_⟩
    intro link hdelete hclear
    exact of_decide_eq_true (List.mem_filter.mp hclear).2 hdelete
  deletes _ hlink := hlink
  clears r hr := by
    obtain ⟨link, hlink, rfl⟩ := List.mem_map.mp hr
    exact ⟨rfl, of_decide_eq_true (List.mem_filter.mp hlink).2⟩

/-- Each service that is enrolled gets a request. -/
theorem mem_links_endRequests (outcome : TransactionOutcome) :
    link ∈ (c.endRequests outcome).links ↔
      link ∈ c.servicesToBeDeleted outcome ∨ link ∈ c.enrolledLinks := by
  simp only [Ending.links, Coordinator.endRequests, List.mem_append, List.map_map,
    LinkSet.mem_links]
  show _ ∨ link ∈ List.map id _ ↔ _
  rw [List.map_id, List.mem_filter, decide_eq_true_eq, LinkSet.mem_links]
  tauto

namespace EndingInv

/-- Only the service that has answered is let go. -/
theorem mem_links_delete (h : EndingInv c e) (hn : e.deletes[n]? = some link) :
    link' ∈ Ending.links { e with deletes := e.deletes.eraseIdx n } ↔
      link' ∈ e.links ∧ link' ≠ link := by
  have hlinks : Ending.links { e with deletes := e.deletes.eraseIdx n } = e.links.eraseIdx n := by
    show e.deletes.eraseIdx n ++ _ = (e.deletes ++ _).eraseIdx n
    rw [List.eraseIdx_append_of_lt_length (List.getElem?_eq_some_iff.mp hn).1]
  have hlink : e.links[n]? = some link := by
    show (e.deletes ++ _)[n]? = some link
    rw [List.getElem?_append_left (List.getElem?_eq_some_iff.mp hn).1]
    exact hn
  rw [hlinks]
  exact mem_eraseIdx_of_nodup h.nodup hlink

theorem mem_links_clear {r : L × EnrollmentInfo} (h : EndingInv c e) (hdeletes : e.deletes = [])
    (hn : e.clears[n]? = some r) :
    link' ∈ Ending.links { e with clears := e.clears.eraseIdx n } ↔
      link' ∈ e.links ∧ link' ≠ r.1 := by
  have hall : e.links = e.clears.map Prod.fst := by
    show e.deletes ++ _ = _
    rw [hdeletes, List.nil_append]
  have hlinks : Ending.links { e with clears := e.clears.eraseIdx n } = e.links.eraseIdx n := by
    rw [hall]
    show e.deletes ++ (e.clears.eraseIdx n).map Prod.fst = _
    rw [hdeletes, List.nil_append, List.eraseIdx_map]
  have hlink : e.links[n]? = some r.1 := by
    rw [hall, List.getElem?_map, hn]
    rfl
  rw [hlinks]
  exact mem_eraseIdx_of_nodup h.nodup hlink

end EndingInv

end Coordinators

/-! ## Pairs -/

section Pairs

variable {s s' : Service T D} {c : Coordinator L} {e : Ending L} {pending pending' : Prop} {t : T}
  {link link' : L} {a : Active T D} {n : Nat}

namespace Pair

/-- The service changes and the transaction keeps what it owns. -/
theorem service (h : Pair s c pending t link) (hgrows : Grows s s')
    (hmark : ∀ content, s'.state = some ⟨content, some t⟩ → Unreleased c link)
    (henrolled : ∀ a ∈ s'.active, a.transactionId = t → a.isEnrolled → Enrolled c link a)
    (hown : c.stage = .started → Owned s t → Owned s' t) : Pair s' c pending t link where
  mark := hmark
  enrolled := henrolled
  created hstarted hending hcreated :=
    (h.created hstarted hending hcreated).imp_right (hown hstarted)
  deleted hstarted hending hdeleted := hown hstarted (h.deleted hstarted hending hdeleted)
  ending hstarted e he hdelete := hown hstarted (h.ending hstarted e he hdelete)
  original hstarted henrolled := by
    refine (h.original hstarted henrolled).imp_right ?_
    rintro ⟨content, hstored⟩
    exact ⟨content, hstored.mono hgrows⟩

/-- Nobody owns the service, before or after. -/
theorem of_free (h : Pair s c pending t link) (hgrows : Grows s s') (hown : ¬ Owned s t)
    (hactive : s'.active = []) (hmark : ∀ content, s'.state ≠ some ⟨content, some t⟩) :
    Pair s' c pending t link :=
  h.service hgrows (fun content hstate => absurd hstate (hmark content))
    (by simp [hactive]) fun _ howned => absurd howned hown

/-- The filter lets a request pass. -/
theorem admitted (h : Pair s c pending t link) (ha : a.isEnrolled = false) :
    Pair { s with active := s.active ++ [a] } c pending t link := by
  refine h.service (Grows.refl s) h.mark ?_ ?_
  · intro b hb htransaction henrolled
    rcases List.mem_append.mp hb with hb | hb
    · exact h.enrolled b hb htransaction henrolled
    · cases List.mem_singleton.mp hb
      rw [ha] at henrolled
      cases henrolled
  · intro _ hown
    refine hown.imp_right ?_
    rintro ⟨b, hb, hdelete⟩
    exact ⟨b, List.mem_append_left _ hb, hdelete⟩

/-- A request ends without an effect. It is not a DELETE that the transaction counts on. -/
theorem drop (h : Pair s c pending t link) (ha : s.active[n]? = some a)
    (hlost : c.stage = .started → a.transactionId = t → a.handler.action ≠ .delete) :
    Pair { s with active := s.active.eraseIdx n } c pending t link := by
  refine h.service (Grows.refl s) h.mark ?_ ?_
  · intro b hb
    exact h.enrolled b (List.mem_of_mem_eraseIdx hb)
  · intro hstarted hown
    refine hown.imp_right ?_
    rintro ⟨b, hb, htransaction, hdelete⟩
    refine ⟨b, mem_eraseIdx_of_ne ha hb ?_, htransaction, hdelete⟩
    rintro rfl
    exact hlost hstarted htransaction (Handler.action_of_delete hdelete)

/-- A request of a transaction is executed. -/
theorem execute (h : Pair s c pending t link) (hs : ServiceInv s) (ha : s.active[n]? = some a)
    (henrolled : a.isEnrolled) (content : D) :
    Pair ({ s with active := s.active.eraseIdx n }.save content (some a.transactionId)) c
      pending t link := by
  have hmem := List.mem_of_getElem? ha
  refine h.service (grows_execute content (some a.transactionId)) ?_ ?_ ?_
  · rintro content' ⟨⟩
    exact (h.enrolled a hmem rfl henrolled).unreleased
  · intro b hb
    exact h.enrolled b (List.mem_of_mem_eraseIdx hb)
  · intro _ hown
    left
    rw [hown.eq_of_active hs hmem]
    exact ⟨content, rfl⟩

/-- A request of another transaction is enrolled. -/
theorem enroll_others (h : Pair s c pending t link) (ha : s.active[n]? = some a)
    (hne : t ≠ a.transactionId) :
    Pair { s with active := s.active.set n { a with isEnrolled := true } } c pending t link := by
  refine h.service (Grows.refl s) h.mark ?_ fun _ => Owned.enroll ha
  intro b hb htransaction henrolled
  rcases List.mem_or_eq_of_mem_set hb with hb | rfl
  · exact h.enrolled b hb htransaction henrolled
  · exact absurd htransaction.symm hne

/-- A POST of the transaction creates the service. -/
theorem create (hactive : s.active = []) (hunreleased : Unreleased c link)
    (hcreated : link ∈ c.createdServicesLinks) (content : D) :
    Pair (s.save content (some t)) c pending t link := by
  have hown : Owned (s.save content (some t)) t := Or.inl ⟨content, rfl⟩
  refine ⟨fun _ _ => hunreleased, ?_, fun _ _ _ => Or.inr hown, fun _ _ _ => hown,
    fun _ _ _ _ => hown, fun _ _ => Or.inl hcreated⟩
  intro b hb
  exact absurd hb (not_mem_of_idle hactive)

theorem mono (h : Pair s c pending t link) (hpending : pending → pending') :
    Pair s c pending' t link :=
  { h with created := fun hstarted hending hcreated =>
      (h.created hstarted hending hcreated).imp_left hpending }

section Coordinator

variable [DecidableEq L] {action : Action} {version : Int}

/-- Another service is enrolled. -/
theorem enroll_of_ne (h : Pair s c pending t link) (hne : link ≠ link') :
    Pair s (c.handlePatchForEnroll link' action version) pending t link := by
  have hunreleased : Unreleased c link →
      Unreleased (c.handlePatchForEnroll link' action version) link := by
    intro hold
    exact ⟨mem_enrolledLinks_handlePatchForEnroll.mpr (Or.inr hold.enrolled), hold.started,
      hold.left⟩
  refine ⟨?_, ?_, ?_, ?_, h.ending, ?_⟩
  · intro content hstate
    exact hunreleased (h.mark content hstate)
  · intro b hb htransaction henrolled
    obtain ⟨hold, hupdated, hdeleted⟩ := h.enrolled b hb htransaction henrolled
    refine ⟨hunreleased hold, ?_, fun hdelete =>
      mem_deletedServicesLinks_handlePatchForEnroll.mpr (Or.inr (hdeleted hdelete))⟩
    rw [enrollmentInfo_handlePatchForEnroll_of_ne hne]
    exact hupdated
  · intro hstarted hending hcreated
    rw [mem_createdServicesLinks_handlePatchForEnroll] at hcreated
    exact h.created hstarted hending (hcreated.resolve_left fun ⟨_, heq⟩ => hne heq)
  · intro hstarted hending hdeleted
    rw [mem_deletedServicesLinks_handlePatchForEnroll] at hdeleted
    exact h.deleted hstarted hending (hdeleted.resolve_left fun ⟨_, heq⟩ => hne heq)
  · intro hstarted henrolled
    rw [mem_enrolledLinks_handlePatchForEnroll] at henrolled
    rw [mem_createdServicesLinks_handlePatchForEnroll,
      enrollmentInfo_handlePatchForEnroll_of_ne hne]
    exact (h.original hstarted (henrolled.resolve_left hne)).imp_left Or.inr

/-- The service is enrolled. -/
theorem enroll (h : Pair s c pending t link) (hending : c.ending = none)
    (hstarted : c.stage = .started) (hpending : action = .post → pending') (hpending' : pending → pending')
    (hdelete : action = .delete → Owned s t)
    (horiginal : action ≠ .post → ∃ content, Stored s version content) :
    Pair s (c.handlePatchForEnroll link action version) pending' t link := by
  have hunreleased : Unreleased (c.handlePatchForEnroll link action version) link :=
    Unreleased.enroll hending hstarted
  refine ⟨?_, ?_, ?_, ?_, ?_, ?_⟩
  · intro content _
    exact hunreleased
  · intro b hb htransaction henrolled
    obtain ⟨hold, hupdated, hdeleted⟩ := h.enrolled b hb htransaction henrolled
    refine ⟨hunreleased, fun hget => ?_, fun hdelete =>
      mem_deletedServicesLinks_handlePatchForEnroll.mpr (Or.inr (hdeleted hdelete))⟩
    rw [enrollmentInfo_handlePatchForEnroll, if_pos hold.enrolled]
    simp [hupdated hget]
  · intro _ _ hcreated
    rcases mem_createdServicesLinks_handlePatchForEnroll.mp hcreated with ⟨hpost, -⟩ | hcreated
    · exact Or.inl (hpending hpost)
    · exact (h.created hstarted hending hcreated).imp_left hpending'
  · intro _ _ hdeleted
    rcases mem_deletedServicesLinks_handlePatchForEnroll.mp hdeleted with ⟨haction, -⟩ | hdeleted
    · exact hdelete haction
    · exact h.deleted hstarted hending hdeleted
  · intro _ e he
    exact absurd (hending.symm.trans he) nofun
  · intro _ _
    rw [mem_createdServicesLinks_handlePatchForEnroll, enrollmentInfo_handlePatchForEnroll]
    by_cases hpost : action = .post
    · exact Or.inl (Or.inl ⟨hpost, rfl⟩)
    · split
      next hmem => exact (h.original hstarted hmem).imp_left Or.inr
      next => exact Or.inr (horiginal hpost)

/-- An active request of the transaction is enrolled. -/
theorem enroll_active (hs : ServiceInv s) (ha : s.active[n]? = some a)
    (h : Pair s c pending a.transactionId link) (hending : c.ending = none)
    (hstarted : c.stage = .started) :
    Pair { s with active := s.active.set n { a with isEnrolled := true } }
      (c.handlePatchForEnroll link a.handler.action a.linkedVersion) pending a.transactionId
      link := by
  have hmem := List.mem_of_getElem? ha
  have henroll : Pair s (c.handlePatchForEnroll link a.handler.action a.linkedVersion) pending
      a.transactionId link := by
    refine h.enroll hending hstarted ?_ id ?_ ?_
    · intro hpost
      exact absurd hpost a.handler.action_ne_post
    · intro hdelete
      exact Or.inr ⟨a, hmem, rfl, Handler.eq_delete hdelete⟩
    · intro _
      exact ⟨a.linked, (hs.linked a hmem).1⟩
  refine henroll.service (Grows.refl s) henroll.mark ?_ fun _ => Owned.enroll ha
  intro b hb htransaction henrolled
  rcases List.mem_or_eq_of_mem_set hb with hb | rfl
  · exact henroll.enrolled b hb htransaction henrolled
  · refine ⟨Unreleased.enroll hending hstarted, fun hget => ?_, fun hdelete => ?_⟩
    · exact isUpdated_handlePatchForEnroll (Handler.action_ne_get hget)
    · exact mem_deletedServicesLinks_handlePatchForEnroll.mpr
        (Or.inl ⟨Handler.action_of_delete hdelete, rfl⟩)

/-- The end begins or goes on. -/
theorem settle (h : Pair s c pending t link)
    (hleft : Unreleased c link → link ∈ e.links) (hown : link ∈ e.deletes → Owned s t) :
    Pair s (c.settle e) pending' t link := by
  rcases settle_cases c e with ⟨hlinks, hsettle⟩ | ⟨-, hsettle⟩
  · rw [hsettle]
    have hreleased : ¬ Unreleased c link := by
      intro hunreleased
      have hlink := hleft hunreleased
      rw [hlinks] at hlink
      exact absurd hlink List.not_mem_nil
    have hended := complete_stage_ne (c := c) e.outcome
    exact ⟨fun content hstate => absurd (h.mark content hstate) hreleased,
      fun b hb htransaction henrolled =>
        absurd (h.enrolled b hb htransaction henrolled).unreleased hreleased,
      fun hstage => absurd hstage hended, fun hstage => absurd hstage hended,
      fun hstage => absurd hstage hended, fun hstage => absurd hstage hended⟩
  · rw [hsettle]
    have hunreleased : Unreleased c link → Unreleased { c with ending := some e } link := by
      intro hold
      refine ⟨hold.enrolled, hold.started, ?_⟩
      rintro e ⟨⟩
      exact hleft hold
    refine ⟨fun content hstate => hunreleased (h.mark content hstate), ?_,
      fun _ => nofun, fun _ => nofun, ?_, h.original⟩
    · intro b hb htransaction henrolled
      obtain ⟨hold, hupdated, hdeleted⟩ := h.enrolled b hb htransaction henrolled
      exact ⟨hunreleased hold, hupdated, hdeleted⟩
    · rintro _ e ⟨⟩
      exact hown

/-- The transaction lets the service go. -/
theorem release (h : Pair s c pending t link) (hgrows : Grows s s') (hactive : s'.active = [])
    (hmark : ∀ content, s'.state ≠ some ⟨content, some t⟩) (hlink : link ∉ e.links) :
    Pair s' (c.settle e) pending' t link := by
  rcases settle_cases c e with ⟨hlinks, hsettle⟩ | ⟨-, hsettle⟩
  · rw [hsettle]
    have hended := complete_stage_ne (c := c) e.outcome
    exact ⟨fun content hstate => absurd hstate (hmark content), by simp [hactive],
      fun hstage => absurd hstage hended, fun hstage => absurd hstage hended,
      fun hstage => absurd hstage hended, fun hstage => absurd hstage hended⟩
  · rw [hsettle]
    refine ⟨fun content hstate => absurd hstate (hmark content), by simp [hactive],
      fun _ => nofun, fun _ => nofun, ?_, ?_⟩
    · rintro _ e ⟨⟩ hdelete
      exact absurd (List.mem_append_left _ hdelete) hlink
    · intro hstarted henrolled
      refine (h.original hstarted henrolled).imp_right ?_
      rintro ⟨content, hstored⟩
      exact ⟨content, hstored.mono hgrows⟩

end Coordinator

end Pair

end Pairs

end Xenon.SimpleTransaction
