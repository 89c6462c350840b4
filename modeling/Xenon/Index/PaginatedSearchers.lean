import Mathlib.Logic.Function.Basic
import Xenon.Foundation.Rotation
import Xenon.Foundation.Run

/-!
# Paginated searchers

`PaginatedSearcherManager` of the index service. A searcher is found by itself, by its creation time
and by its expiration time; the last moves when the searcher is used again. It is closed by the
caller that releases it last, or by the caller that finds it expired.
-/

namespace Xenon.Index.PaginatedSearchers

open Xenon.Foundation

variable {σ : Type*} [DecidableEq σ]

structure PaginatedSearcherInfo where
  creationTimeMicros : Int
  expirationTimeMicros : Int
  refCount : Int
deriving DecidableEq

/-- `PaginatedSearcherManager`. -/
structure PaginatedSearcherManager (σ : Type*) where
  infoBySearcher : σ → Option PaginatedSearcherInfo := fun _ => none
  searcherByCreationTime : SortedMap Int σ := .empty
  searchersByExpirationTime : SortedMap Int (List σ) := .empty

/-! ## The expiration lists -/

/-- The searchers that expire at a time. -/
def expiring (m : SortedMap Int (List σ)) (t : Int) : List σ := (m.get t).getD []

/-- Remove a searcher from its expiration list, and the list with its last searcher. -/
def removeExpiring (m : SortedMap Int (List σ)) (t : Int) (searcher : σ)
    (expirationList : List σ) : SortedMap Int (List σ) :=
  if expirationList.erase searcher = [] then m.remove t
  else m.insert t (expirationList.erase searcher)

/-- `computeIfAbsent(t, ..).add(searcher)`. -/
def addExpiring (m : SortedMap Int (List σ)) (t : Int) (searcher : σ) :
    SortedMap Int (List σ) :=
  m.insert t (expiring m t ++ [searcher])

/-! ## The operations

An operation that throws answers `none`. -/

namespace PaginatedSearcherManager

/-- `removeSearcher`: whether the caller has to close the searcher. -/
def removeSearcher (m : PaginatedSearcherManager σ) (searcher : σ) :
    Option (Bool × PaginatedSearcherManager σ) :=
  match m.infoBySearcher searcher with
  | none => some (false, m)
  | some info =>
      let info := { info with refCount := info.refCount - 1 }
      if info.refCount = 0 then
        -- there is a list for the expiration time, or a `NullPointerException`
        (m.searchersByExpirationTime.get info.expirationTimeMicros).map fun expirationList =>
          (true,
            { infoBySearcher := Function.update m.infoBySearcher searcher none
              searcherByCreationTime := m.searcherByCreationTime.remove info.creationTimeMicros
              searchersByExpirationTime := removeExpiring m.searchersByExpirationTime
                info.expirationTimeMicros searcher expirationList })
      else
        some (false, { m with
          infoBySearcher := Function.update m.infoBySearcher searcher (some info) })

/-- `updateExistingSearcher`. -/
def updateExistingSearcher (m : PaginatedSearcherManager σ) (searcher : σ)
    (newExpirationMicros : Int) : Option (PaginatedSearcherManager σ) :=
  (m.infoBySearcher searcher).bind fun info =>
    if newExpirationMicros ≤ info.expirationTimeMicros then
      some { m with
        infoBySearcher := Function.update m.infoBySearcher searcher
          (some { info with refCount := info.refCount + 1 }) }
    else
      (m.searchersByExpirationTime.get info.expirationTimeMicros).bind fun expirationList =>
        if searcher ∈ expirationList then
          some { m with
            infoBySearcher := Function.update m.infoBySearcher searcher
              (some { info with
                expirationTimeMicros := newExpirationMicros, refCount := info.refCount + 1 })
            searchersByExpirationTime := addExpiring
              (removeExpiring m.searchersByExpirationTime info.expirationTimeMicros searcher
                expirationList) newExpirationMicros searcher }
        else none

/-- `addNewSearcher`. -/
def addNewSearcher (m : PaginatedSearcherManager σ) (searcher : σ)
    (creationMicros expirationMicros : Int) : PaginatedSearcherManager σ :=
  { infoBySearcher := Function.update m.infoBySearcher searcher
      (some ⟨creationMicros, expirationMicros, 1⟩)
    searcherByCreationTime := m.searcherByCreationTime.insert creationMicros searcher
    searchersByExpirationTime :=
      addExpiring m.searchersByExpirationTime expirationMicros searcher }

/-- A searcher of an expiration list is removed from the other maps, to be closed. -/
def closeSearcher (expirationMicros : Int)
    (p : PaginatedSearcherManager σ × List (σ × Int)) (searcher : σ) :
    Option (PaginatedSearcherManager σ × List (σ × Int)) :=
  (p.1.infoBySearcher searcher).map fun info =>
    ({ p.1 with
        infoBySearcher := Function.update p.1.infoBySearcher searcher none
        searcherByCreationTime := p.1.searcherByCreationTime.remove info.creationTimeMicros },
      p.2 ++ [(searcher, expirationMicros)])

/-- The loop of `removeExpiredSearchers` over the expiration lists. -/
def removeExpired (now : Int) : List (Int × List σ) →
    PaginatedSearcherManager σ × List (σ × Int) →
    Option (PaginatedSearcherManager σ × List (σ × Int))
  | [], p => some p
  | (expirationMicros, searchers) :: entries, p =>
      if expirationMicros > now then some p
      else
        (searchers.foldlM (closeSearcher expirationMicros) p).bind fun p =>
          removeExpired now entries
            ({ p.1 with
                searchersByExpirationTime := p.1.searchersByExpirationTime.remove
                  expirationMicros }, p.2)

/-- `removeExpiredSearchers`: the searchers to close, with their expiration times. -/
def removeExpiredSearchers (m : PaginatedSearcherManager σ) (now : Int) :
    Option (PaginatedSearcherManager σ × List (σ × Int)) :=
  removeExpired now m.searchersByExpirationTime.entries (m, [])

end PaginatedSearcherManager

/-! ## Runs -/

inductive Call (σ : Type*) where
  | addNewSearcher (searcher : σ) (creationMicros expirationMicros : Int)
  | updateExistingSearcher (searcher : σ) (newExpirationMicros : Int)
  | removeSearcher (searcher : σ)
  | removeExpiredSearchers (now : Int)
deriving DecidableEq

/-- A searcher that is handed to a caller for closing: how often it was acquired and not released,
its expiration time, and the time at which it was found expired. -/
structure Handed (σ : Type*) where
  searcher : σ
  held : Int
  expirationMicros : Int
  now : Option Int
deriving DecidableEq

/-- What the callers know of the searchers. -/
structure Ledger (σ : Type*) where
  added : List σ := []
  creation : σ → Int := fun _ => 0
  expiration : σ → Int := fun _ => 0
  acquisitions : σ → Int := fun _ => 0
  releases : σ → Int := fun _ => 0
  handed : List (Handed σ) := []

namespace Ledger

def held (l : Ledger σ) (s : σ) : Int := l.acquisitions s - l.releases s

def acquire (l : Ledger σ) (s : σ) : Ledger σ :=
  { l with acquisitions := Function.update l.acquisitions s (l.acquisitions s + 1) }

def release (l : Ledger σ) (s : σ) : Ledger σ :=
  { l with releases := Function.update l.releases s (l.releases s + 1) }

def hand (l : Ledger σ) (now : Option Int) (ss : List σ) : Ledger σ :=
  { l with handed := l.handed ++ ss.map fun s => ⟨s, l.held s, l.expiration s, now⟩ }

end Ledger

structure State (σ : Type*) where
  manager : PaginatedSearcherManager σ := {}
  ledger : Ledger σ := {}

/-- One call; a call that throws has no next state. A searcher that is used again expires at the
later of its times. -/
def step (p : State σ) : Call σ → Option (State σ)
  | .addNewSearcher s creation expiration =>
      some
        { manager := p.manager.addNewSearcher s creation expiration
          ledger := { p.ledger.acquire s with
            added := p.ledger.added ++ [s]
            creation := Function.update p.ledger.creation s creation
            expiration := Function.update p.ledger.expiration s expiration } }
  | .updateExistingSearcher s expiration =>
      (p.manager.updateExistingSearcher s expiration).map fun m =>
        { manager := m
          ledger := { p.ledger.acquire s with
            expiration := Function.update p.ledger.expiration s
              (max (p.ledger.expiration s) expiration) } }
  | .removeSearcher s =>
      (p.manager.removeSearcher s).map fun r =>
        let l := if (p.manager.infoBySearcher s).isSome then p.ledger.release s else p.ledger
        { manager := r.2, ledger := if r.1 then l.hand none [s] else l }
  | .removeExpiredSearchers now =>
      (p.manager.removeExpiredSearchers now).map fun r =>
        { manager := r.1, ledger := p.ledger.hand (some now) (r.2.map Prod.fst) }

/-- A searcher is added once and with a creation time of its own, and only a managed searcher is
used again. -/
def Admitted (p : State σ) : Call σ → Prop
  | .addNewSearcher s creation _ =>
      s ∉ p.ledger.added ∧ ∀ s' ∈ p.ledger.added, p.ledger.creation s' ≠ creation
  | .updateExistingSearcher s _ => (p.manager.infoBySearcher s).isSome = true
  | _ => True

instance (p : State σ) : ∀ c, Decidable (Admitted p c)
  | .addNewSearcher _ _ _ => inferInstanceAs (Decidable (_ ∧ _))
  | .updateExistingSearcher _ _ => inferInstanceAs (Decidable (_ = _))
  | .removeSearcher _ => inferInstanceAs (Decidable True)
  | .removeExpiredSearchers _ => inferInstanceAs (Decidable True)

/-! ## The expiration lists -/

/-- No expiration list is empty or has a searcher twice. -/
def Lists {σ : Type*} (m : SortedMap Int (List σ)) : Prop :=
  ∀ t ss, (t, ss) ∈ m.entries → ss ≠ [] ∧ ss.Nodup

section Lists

variable {σ : Type*} {m : SortedMap Int (List σ)} {t t' : Int} {s s' : σ} {ss : List σ}

theorem expiring_of_mem (h : (t, ss) ∈ m.entries) : expiring m t = ss := by
  rw [expiring, SortedMap.get_eq_some.mpr h, Option.getD_some]

theorem mem_of_mem_expiring (h : s ∈ expiring m t) : (t, expiring m t) ∈ m.entries := by
  unfold expiring at h ⊢
  cases hget : m.get t with
  | none =>
      rw [hget] at h
      cases h
  | some ss => exact SortedMap.get_eq_some.mp hget

theorem expiring_insert : expiring (m.insert t ss) t' = if t' = t then ss else expiring m t' := by
  unfold expiring
  split_ifs with h
  · rw [h, SortedMap.get_insert_self, Option.getD_some]
  · rw [SortedMap.get_insert_of_ne h]

theorem expiring_remove : expiring (m.remove t) t' = if t' = t then [] else expiring m t' := by
  unfold expiring
  split_ifs with h
  · rw [h, SortedMap.get_remove_self, Option.getD_none]
  · rw [SortedMap.get_remove_of_ne h]

theorem mem_addExpiring :
    s' ∈ expiring (addExpiring m t s) t' ↔ s' ∈ expiring m t' ∨ t' = t ∧ s' = s := by
  rw [addExpiring, expiring_insert]
  split_ifs with h
  · simp [h]
  · simp [h]

theorem Lists.nodup (h : Lists m) (t : Int) : (expiring m t).Nodup := by
  cases hss : expiring m t with
  | nil => exact List.nodup_nil
  | cons s ss =>
      rw [← hss]
      exact (h t _ (mem_of_mem_expiring (hss ▸ List.mem_cons_self))).2

theorem Lists.remove (h : Lists m) (t : Int) : Lists (m.remove t) :=
  fun t' ss hss => h t' ss (SortedMap.mem_remove.mp hss).1

theorem Lists.insert (h : Lists m) (hne : ss ≠ []) (hnodup : ss.Nodup) : Lists (m.insert t ss) := by
  intro t' ss' hss'
  rcases SortedMap.mem_insert.mp hss' with heq | ⟨hmem, -⟩
  · cases heq
    exact ⟨hne, hnodup⟩
  · exact h t' ss' hmem

theorem Lists.addExpiring (h : Lists m) (hs : s ∉ expiring m t) : Lists (addExpiring m t s) := by
  apply h.insert (List.append_ne_nil_of_right_ne_nil _ (List.cons_ne_nil s []))
  rw [List.nodup_append]
  refine ⟨h.nodup t, List.nodup_singleton s, ?_⟩
  rintro a ha b hb rfl
  exact hs (List.mem_singleton.mp hb ▸ ha)

variable [DecidableEq σ]

theorem Lists.removeExpiring (h : Lists m) (hss : (t, ss) ∈ m.entries) :
    Lists (removeExpiring m t s ss) := by
  unfold PaginatedSearchers.removeExpiring
  split_ifs with hnil
  · exact h.remove t
  · exact h.insert hnil ((h t ss hss).2.erase s)

/-- Of a list without duplicates all copies of a searcher are removed. -/
theorem Lists.mem_removeExpiring (h : Lists m) (hss : (t, ss) ∈ m.entries) :
    s' ∈ expiring (PaginatedSearchers.removeExpiring m t s ss) t' ↔
      s' ∈ expiring m t' ∧ ¬ (t' = t ∧ s' = s) := by
  have herase : expiring (PaginatedSearchers.removeExpiring m t s ss) t' =
      if t' = t then ss.erase s else expiring m t' := by
    unfold PaginatedSearchers.removeExpiring
    by_cases hnil : ss.erase s = []
    · rw [if_pos hnil, expiring_remove, hnil]
    · rw [if_neg hnil, expiring_insert]
  rw [herase]
  split_ifs with heq
  · rw [heq, expiring_of_mem hss, (h t ss hss).2.mem_erase_iff]
    tauto
  · simp [heq]

end Lists

/-! ## The three maps -/

/-- The maps describe the same searchers with the same times. -/
structure Linked (m : PaginatedSearcherManager σ) : Prop where
  created : ∀ t s, (t, s) ∈ m.searcherByCreationTime.entries ↔
    ∃ info, m.infoBySearcher s = some info ∧ info.creationTimeMicros = t
  expires : ∀ t s, s ∈ expiring m.searchersByExpirationTime t ↔
    ∃ info, m.infoBySearcher s = some info ∧ info.expirationTimeMicros = t
  lists : Lists m.searchersByExpirationTime

section Linked

section Times

variable {σ : Type*} {m : PaginatedSearcherManager σ} {s : σ} {info : PaginatedSearcherInfo}

theorem Linked.mem_created (h : Linked m) (hs : m.infoBySearcher s = some info) (t : Int) :
    (t, s) ∈ m.searcherByCreationTime.entries ↔ info.creationTimeMicros = t := by
  rw [h.created, hs]
  simp

theorem Linked.mem_expires (h : Linked m) (hs : m.infoBySearcher s = some info) (t : Int) :
    s ∈ expiring m.searchersByExpirationTime t ↔ info.expirationTimeMicros = t := by
  rw [h.expires, hs]
  simp

/-- The creation time of a searcher belongs to it alone. -/
theorem Linked.mem_remove_created (h : Linked m) (hs : m.infoBySearcher s = some info) (t : Int)
    (s' : σ) : (t, s') ∈ (m.searcherByCreationTime.remove info.creationTimeMicros).entries ↔
      s' ≠ s ∧ (t, s') ∈ m.searcherByCreationTime.entries := by
  have hmem := (h.mem_created hs info.creationTimeMicros).mpr rfl
  rw [SortedMap.mem_remove, and_comm]
  refine and_congr_left fun hs' => not_congr ⟨fun ht => ?_, fun heq => ?_⟩
  · exact congrArg Prod.snd (SortedMap.eq_of_key hs' hmem ht)
  · rw [heq, h.mem_created hs] at hs'
    exact hs'.symm

/-- The list of a managed searcher's expiration time. -/
theorem Linked.mem_lists (h : Linked m) (hs : m.infoBySearcher s = some info) :
    s ∈ expiring m.searchersByExpirationTime info.expirationTimeMicros ∧
      (info.expirationTimeMicros, expiring m.searchersByExpirationTime info.expirationTimeMicros) ∈
        m.searchersByExpirationTime.entries := by
  have hmem := (h.mem_expires hs info.expirationTimeMicros).mpr rfl
  exact ⟨hmem, mem_of_mem_expiring hmem⟩

end Times

variable {m : PaginatedSearcherManager σ} {s : σ} {info : PaginatedSearcherInfo}

/-- The maps are linked again when each of them has a new value for one searcher. -/
theorem Linked.update (h : Linked m) (s : σ) (new : Option PaginatedSearcherInfo)
    {created : SortedMap Int σ} {expires : SortedMap Int (List σ)}
    (hcreated : ∀ t s', (t, s') ∈ created.entries ↔
      s' ≠ s ∧ (t, s') ∈ m.searcherByCreationTime.entries ∨
        s' = s ∧ ∃ info, new = some info ∧ info.creationTimeMicros = t)
    (hexpires : ∀ t s', s' ∈ expiring expires t ↔
      s' ≠ s ∧ s' ∈ expiring m.searchersByExpirationTime t ∨
        s' = s ∧ ∃ info, new = some info ∧ info.expirationTimeMicros = t)
    (hlists : Lists expires) :
    Linked ⟨Function.update m.infoBySearcher s new, created, expires⟩ := by
  have hupdate : ∀ s' (P : PaginatedSearcherInfo → Prop),
      (∃ info, Function.update m.infoBySearcher s new s' = some info ∧ P info) ↔
        s' ≠ s ∧ (∃ info, m.infoBySearcher s' = some info ∧ P info) ∨
          s' = s ∧ ∃ info, new = some info ∧ P info := by
    intro s' P
    by_cases hs : s' = s
    · simp [hs]
    · simp [hs]
  refine ⟨fun t s' => ?_, fun t s' => ?_, hlists⟩
  · rw [hcreated, hupdate, h.created]
  · rw [hexpires, hupdate, h.expires]

/-- A reference is taken or given back. -/
theorem Linked.setRefCount (h : Linked m) (hs : m.infoBySearcher s = some info) (n : Int) :
    Linked { m with
      infoBySearcher := Function.update m.infoBySearcher s (some { info with refCount := n }) } := by
  refine h.update s _ (fun t s' => ?_) (fun t s' => ?_) h.lists
  · by_cases heq : s' = s
    · rw [heq, h.created, hs]
      simp
    · simp [heq]
  · by_cases heq : s' = s
    · rw [heq, h.expires, hs]
      simp
    · simp [heq]

theorem Linked.addNewSearcher (h : Linked m) (hs : m.infoBySearcher s = none) {creation : Int}
    (hcreation : ∀ s', (creation, s') ∉ m.searcherByCreationTime.entries) (expiration : Int) :
    Linked (m.addNewSearcher s creation expiration) := by
  have hnew : ∀ (P : PaginatedSearcherInfo → Prop),
      ¬ ∃ info, m.infoBySearcher s = some info ∧ P info := by
    rintro P ⟨info, hinfo, -⟩
    rw [hs] at hinfo
    cases hinfo
  have hnotCreated : ∀ t, (t, s) ∉ m.searcherByCreationTime.entries :=
    fun t ht => hnew _ ((h.created t s).mp ht)
  have hnotExpires : ∀ t, s ∉ expiring m.searchersByExpirationTime t :=
    fun t ht => hnew _ ((h.expires t s).mp ht)
  refine h.update s _ (fun t s' => ?_) (fun t s' => ?_)
    (h.lists.addExpiring (hnotExpires expiration))
  · rw [SortedMap.mem_insert]
    by_cases heq : s' = s
    · simp [heq, hnotCreated, eq_comm]
    · have hne : (t, s') ∈ m.searcherByCreationTime.entries → t ≠ creation := by
        rintro ht rfl
        exact hcreation s' ht
      simpa [heq] using hne
  · rw [mem_addExpiring]
    by_cases heq : s' = s
    · simp [heq, hnotExpires, eq_comm]
    · simp [heq]

/-- The searcher leaves all three maps. -/
theorem Linked.close (h : Linked m) (hs : m.infoBySearcher s = some info) :
    Linked
      { infoBySearcher := Function.update m.infoBySearcher s none
        searcherByCreationTime := m.searcherByCreationTime.remove info.creationTimeMicros
        searchersByExpirationTime := removeExpiring m.searchersByExpirationTime
          info.expirationTimeMicros s
          (expiring m.searchersByExpirationTime info.expirationTimeMicros) } := by
  have hlist := (h.mem_lists hs).2
  refine h.update s none (fun t s' => ?_) (fun t s' => ?_) (h.lists.removeExpiring hlist)
  · rw [h.mem_remove_created hs]
    simp
  · rw [h.lists.mem_removeExpiring hlist]
    by_cases heq : s' = s
    · rw [heq, h.mem_expires hs]
      simp [eq_comm]
    · simp [heq]

/-- A managed searcher expires later. -/
theorem Linked.move (h : Linked m) (hs : m.infoBySearcher s = some info) {expiration : Int}
    (n : Int) : Linked { m with
      infoBySearcher := Function.update m.infoBySearcher s
        (some { info with expirationTimeMicros := expiration, refCount := n })
      searchersByExpirationTime := addExpiring
        (removeExpiring m.searchersByExpirationTime info.expirationTimeMicros s
          (expiring m.searchersByExpirationTime info.expirationTimeMicros)) expiration s } := by
  have hlist := (h.mem_lists hs).2
  have hgone : ∀ t, s ∉ expiring (removeExpiring m.searchersByExpirationTime
      info.expirationTimeMicros s
        (expiring m.searchersByExpirationTime info.expirationTimeMicros)) t := by
    intro t hmem
    obtain ⟨ht, hne⟩ := (h.lists.mem_removeExpiring hlist).mp hmem
    exact hne ⟨((h.mem_expires hs t).mp ht).symm, rfl⟩
  refine h.update s _ (fun t s' => ?_) (fun t s' => ?_)
    ((h.lists.removeExpiring hlist).addExpiring (hgone expiration))
  · by_cases heq : s' = s
    · rw [heq, h.mem_created hs]
      simp
    · simp [heq]
  · rw [mem_addExpiring]
    by_cases heq : s' = s
    · simp [heq, hgone, eq_comm]
    · rw [h.lists.mem_removeExpiring hlist]
      simp [heq]

end Linked

/-! ## What expires -/

/-- The maps of searchers and creation times have lost the searchers `closed`. -/
structure Swept (m p : PaginatedSearcherManager σ) (closed : List σ) : Prop where
  info : ∀ s, p.infoBySearcher s = if s ∈ closed then none else m.infoBySearcher s
  created : ∀ t s, (t, s) ∈ p.searcherByCreationTime.entries ↔
    (t, s) ∈ m.searcherByCreationTime.entries ∧ s ∉ closed

section Sweep

open PaginatedSearcherManager

variable {m p : PaginatedSearcherManager σ} {s : σ} {closed : List σ} {now : Int}

theorem Swept.closeSearcher (h : Swept m p closed) (hlinked : Linked m)
    {info : PaginatedSearcherInfo} (hs : m.infoBySearcher s = some info) (hnot : s ∉ closed)
    (toClose : List (σ × Int)) (t : Int) :
    ∃ p', PaginatedSearcherManager.closeSearcher t (p, toClose) s =
        some (p', toClose ++ [(s, t)]) ∧
      Swept m p' (closed ++ [s]) ∧
        p'.searchersByExpirationTime = p.searchersByExpirationTime := by
  have hinfo : p.infoBySearcher s = some info := by rw [h.info, if_neg hnot, hs]
  let p' : PaginatedSearcherManager σ := { p with
    infoBySearcher := Function.update p.infoBySearcher s none
    searcherByCreationTime := p.searcherByCreationTime.remove info.creationTimeMicros }
  refine ⟨p', ?_, ⟨fun s' => ?_, fun t' s' => ?_⟩, rfl⟩
  · rw [PaginatedSearcherManager.closeSearcher, hinfo]
    rfl
  · by_cases heq : s' = s
    · simp [p', heq]
    · simp [p', heq, h.info]
  · have hkey : (t', s') ∈ m.searcherByCreationTime.entries →
        (t' ≠ info.creationTimeMicros ↔ s' ≠ s) := by
      intro hmem
      have hremove := hlinked.mem_remove_created hs t' s'
      rw [SortedMap.mem_remove, and_comm] at hremove
      simpa [hmem] using hremove
    simp only [p', SortedMap.mem_remove, h.created, List.mem_append, List.mem_singleton, not_or]
    tauto

/-- The searchers of one expiration list are closed. -/
theorem Swept.foldlM (h : Swept m p closed) (hlinked : Linked m) (t : Int) {ss : List σ}
    (hnodup : ss.Nodup) (hmanaged : ∀ s ∈ ss, ∃ info, m.infoBySearcher s = some info)
    (hnot : ∀ s ∈ ss, s ∉ closed) (toClose : List (σ × Int)) :
    ∃ p', ss.foldlM (PaginatedSearcherManager.closeSearcher t) (p, toClose) =
        some (p', toClose ++ ss.map (·, t)) ∧
      Swept m p' (closed ++ ss) ∧
        p'.searchersByExpirationTime = p.searchersByExpirationTime := by
  induction ss generalizing p closed toClose with
  | nil => exact ⟨p, by simp, by simpa using h, rfl⟩
  | cons s ss ih =>
      obtain ⟨hs, hss⟩ := List.nodup_cons.mp hnodup
      obtain ⟨info, hinfo⟩ := hmanaged s List.mem_cons_self
      obtain ⟨p₁, hclose, hswept, hexpires⟩ :=
        h.closeSearcher hlinked hinfo (hnot s List.mem_cons_self) toClose t
      obtain ⟨p', hfold, hswept', hexpires'⟩ := ih hswept hss
        (fun s' hs' => hmanaged s' (List.mem_cons_of_mem _ hs')) (fun s' hs' => by
          have hne : s' ≠ s := fun heq => hs (heq ▸ hs')
          simp [hne, hnot s' (List.mem_cons_of_mem _ hs')]) (toClose ++ [(s, t)])
      refine ⟨p', ?_, by simpa using hswept', hexpires'.trans hexpires⟩
      rw [List.foldlM_cons, hclose]
      simpa using hfold

/-- The lists up to `now` are done, and their searchers closed. -/
structure Done (m p : PaginatedSearcherManager σ) (now : Int)
    (done entries : List (Int × List σ)) : Prop where
  split : m.searchersByExpirationTime.entries = done ++ entries
  left : p.searchersByExpirationTime.entries = entries
  due : ∀ e ∈ done, e.1 ≤ now
  swept : Swept m p (done.flatMap Prod.snd)

/-- The searchers of the lists that are done, with the expiration times. -/
def closing (done : List (Int × List σ)) : List (σ × Int) :=
  done.flatMap fun e => e.2.map (·, e.1)

theorem Done.removeExpired {done entries : List (Int × List σ)} (h : Done m p now done entries)
    (hlinked : Linked m) :
    ∃ p' done' entries', PaginatedSearcherManager.removeExpired now entries (p, closing done) =
        some (p', closing done') ∧
      Done m p' now done' entries' ∧ ∀ e ∈ entries', now < e.1 := by
  induction entries generalizing p done with
  | nil => exact ⟨p, done, [], rfl, h, nofun⟩
  | cons e entries ih =>
      obtain ⟨t, ss⟩ := e
      have hsorted := m.searchersByExpirationTime.sorted
      rw [h.split, List.pairwise_append, List.pairwise_cons] at hsorted
      obtain ⟨-, ⟨hlater, -⟩, hearlier⟩ := hsorted
      unfold PaginatedSearcherManager.removeExpired
      -- the loop breaks at the first entry that is not due: the entries are sorted by time
      by_cases hnow : t > now
      · rw [if_pos hnow]
        refine ⟨p, done, _, rfl, h, fun e he => ?_⟩
        rcases List.mem_cons.mp he with rfl | he
        · exact hnow
        · exact lt_trans hnow (hlater e he)
      · rw [if_neg hnow]
        have hmem : (t, ss) ∈ m.searchersByExpirationTime.entries := by
          rw [h.split]
          exact List.mem_append_right _ List.mem_cons_self
        have hexpires : ∀ s ∈ ss, ∃ info, m.infoBySearcher s = some info ∧
            info.expirationTimeMicros = t := by
          intro s hs
          rw [← expiring_of_mem hmem] at hs
          exact (hlinked.expires t s).mp hs
        -- a searcher of this entry is in no earlier one, whose time is another
        have hnot : ∀ s ∈ ss, s ∉ done.flatMap Prod.snd := by
          intro s hs hdone
          obtain ⟨⟨t', ss'⟩, he, hs'⟩ := List.mem_flatMap.mp hdone
          have hmem' : (t', ss') ∈ m.searchersByExpirationTime.entries := by
            rw [h.split]
            exact List.mem_append_left _ he
          have hlt : t' < t := hearlier (t', ss') he (t, ss) List.mem_cons_self
          rw [← expiring_of_mem hmem', hlinked.expires] at hs'
          obtain ⟨info, hinfo, ht⟩ := hs'
          obtain ⟨info', hinfo', ht'⟩ := hexpires s hs
          rw [hinfo] at hinfo'
          cases hinfo'
          exact hlt.ne (ht.symm.trans ht')
        obtain ⟨p₁, hfold, hswept, heq⟩ := h.swept.foldlM hlinked t
          (hlinked.lists t ss hmem).2 (fun s hs => (hexpires s hs).imp fun _ => And.left) hnot
          (closing done)
        rw [hfold, Option.bind_some]
        have hnext : Done m { p₁ with
            searchersByExpirationTime := p₁.searchersByExpirationTime.remove t } now
            (done ++ [(t, ss)]) entries := by
          refine ⟨by simp [h.split], ?_, ?_, ?_⟩
          · show (p₁.searchersByExpirationTime.entries.filter fun e => e.1 ≠ t) = entries
            rw [heq, h.left, List.filter_cons_of_neg (by simp)]
            exact List.filter_eq_self.mpr fun e he => by simpa using (hlater e he).ne'
          · intro e he
            rcases List.mem_append.mp he with he | he
            · exact h.due e he
            · rw [List.mem_singleton.mp he]
              exact not_lt.mp hnow
          · simpa using ⟨hswept.info, hswept.created⟩
        have hclosing : closing done ++ ss.map (·, t) = closing (done ++ [(t, ss)]) := by
          simp [closing]
        rw [hclosing]
        exact ih hnext

omit [DecidableEq σ] in
theorem fst_closing (done : List (Int × List σ)) :
    (closing done).map Prod.fst = done.flatMap Prod.snd := by
  simp only [closing, List.map_flatMap, List.map_map]
  exact List.flatMap_congr fun e _ => List.map_id e.2

/-- `removeExpiredSearchers` does not throw, and takes the searchers that have expired, each of them
once. -/
theorem Linked.removeExpiredSearchers (h : Linked m) (now : Int) :
    ∃ m' toClose, m.removeExpiredSearchers now = some (m', toClose) ∧ Linked m' ∧
      (toClose.map Prod.fst).Nodup ∧
      (∀ s, s ∈ toClose.map Prod.fst ↔
        ∃ info, m.infoBySearcher s = some info ∧ info.expirationTimeMicros ≤ now) ∧
      ∀ s, m'.infoBySearcher s =
        if s ∈ toClose.map Prod.fst then none else m.infoBySearcher s := by
  have hstart : Done m m now [] m.searchersByExpirationTime.entries :=
    ⟨rfl, rfl, nofun, ⟨fun _ => by simp, fun _ _ => by simp⟩⟩
  obtain ⟨m', done, entries, hremove, ⟨hsplit, hleft, hdue, hswept⟩, hlater⟩ :=
    hstart.removeExpired h
  -- the entries behind those that are done expire later, so the loop has met every due one
  have hexpired : ∀ s, s ∈ done.flatMap Prod.snd ↔
      ∃ info, m.infoBySearcher s = some info ∧ info.expirationTimeMicros ≤ now := by
    intro s
    rw [List.mem_flatMap]
    constructor
    · rintro ⟨⟨t, ss⟩, he, hs⟩
      have hmem : (t, ss) ∈ m.searchersByExpirationTime.entries := by
        rw [hsplit]
        exact List.mem_append_left _ he
      rw [← expiring_of_mem hmem, h.expires] at hs
      obtain ⟨info, hinfo, rfl⟩ := hs
      exact ⟨info, hinfo, hdue _ he⟩
    · rintro ⟨info, hinfo, hle⟩
      obtain ⟨hs, hmem⟩ := h.mem_lists hinfo
      rw [hsplit, List.mem_append] at hmem
      rcases hmem with hmem | hmem
      · exact ⟨_, hmem, hs⟩
      · exact absurd hle (not_le.mpr (hlater _ hmem))
  have hkept : ∀ t ss, (t, ss) ∈ m'.searchersByExpirationTime.entries ↔
      (t, ss) ∈ m.searchersByExpirationTime.entries ∧ now < t := by
    intro t ss
    rw [hleft, hsplit, List.mem_append]
    constructor
    · exact fun he => ⟨Or.inr he, hlater _ he⟩
    · rintro ⟨he | he, hlt⟩
      · exact absurd (hdue _ he) (not_le.mpr hlt)
      · exact he
  have hexpiring : ∀ t s, s ∈ expiring m'.searchersByExpirationTime t ↔
      s ∈ expiring m.searchersByExpirationTime t ∧ now < t := by
    intro t s
    constructor
    · intro hs
      have hmem := (hkept _ _).mp (mem_of_mem_expiring hs)
      rw [expiring_of_mem hmem.1]
      exact ⟨hs, hmem.2⟩
    · rintro ⟨hs, hlt⟩
      rwa [expiring_of_mem ((hkept _ _).mpr ⟨mem_of_mem_expiring hs, hlt⟩)]
  refine ⟨m', closing done, hremove, ⟨fun t s => ?_, fun t s => ?_, ?_⟩, ?_, ?_, ?_⟩
  · rw [hswept.created, hswept.info, h.created]
    split_ifs with hs
    · simp [hs]
    · simp [hs]
  · rw [hexpiring, h.expires, hswept.info]
    split_ifs with hs
    · obtain ⟨info, hinfo, hle⟩ := (hexpired s).mp hs
      refine iff_of_false ?_ (by simp)
      rintro ⟨⟨info', hinfo', rfl⟩, hlt⟩
      rw [hinfo] at hinfo'
      cases hinfo'
      exact absurd hle (not_le.mpr hlt)
    · refine and_iff_left_of_imp ?_
      rintro ⟨info, hinfo, rfl⟩
      by_contra hle
      exact hs ((hexpired s).mpr ⟨info, hinfo, not_lt.mp hle⟩)
  · exact fun t ss hss => h.lists t ss ((hkept t ss).mp hss).1
  · rw [fst_closing, List.nodup_flatMap]
    have hentry : ∀ e ∈ done, e ∈ m.searchersByExpirationTime.entries := by
      intro e he
      rw [hsplit]
      exact List.mem_append_left _ he
    refine ⟨fun e he => (h.lists e.1 e.2 (hentry e he)).2, ?_⟩
    -- a searcher has one expiration time, and the keys of two entries differ
    have hsorted := m.searchersByExpirationTime.sorted
    rw [hsplit, List.pairwise_append] at hsorted
    refine hsorted.1.imp_of_mem fun {e e'} he he' hlt s hs hs' => ?_
    rw [← expiring_of_mem (hentry e he), h.expires] at hs
    rw [← expiring_of_mem (hentry e' he'), h.expires] at hs'
    obtain ⟨info, hinfo, ht⟩ := hs
    obtain ⟨info', hinfo', ht'⟩ := hs'
    rw [hinfo] at hinfo'
    cases hinfo'
    exact hlt.ne (ht.symm.trans ht')
  · intro s
    rw [fst_closing]
    exact hexpired s
  · intro s
    rw [fst_closing]
    exact hswept.info s

end Sweep

/-! ## Every run -/

section Runs

variable {p : State σ} {s : σ}

theorem removeSearcher_of_none {m : PaginatedSearcherManager σ}
    (h : m.infoBySearcher s = none) : m.removeSearcher s = some (false, m) := by
  rw [PaginatedSearcherManager.removeSearcher, h]

theorem removeSearcher_of_ne {m : PaginatedSearcherManager σ} {info : PaginatedSearcherInfo}
    (hs : m.infoBySearcher s = some info) (hheld : info.refCount - 1 ≠ 0) :
    m.removeSearcher s = some (false, { m with
      infoBySearcher := Function.update m.infoBySearcher s
        (some { info with refCount := info.refCount - 1 }) }) := by
  rw [PaginatedSearcherManager.removeSearcher, hs]
  exact if_neg hheld

theorem Linked.removeSearcher_of_eq {m : PaginatedSearcherManager σ} (h : Linked m)
    {info : PaginatedSearcherInfo} (hs : m.infoBySearcher s = some info)
    (hlast : info.refCount - 1 = 0) :
    m.removeSearcher s = some (true,
      { infoBySearcher := Function.update m.infoBySearcher s none
        searcherByCreationTime := m.searcherByCreationTime.remove info.creationTimeMicros
        searchersByExpirationTime := removeExpiring m.searchersByExpirationTime
          info.expirationTimeMicros s
          (expiring m.searchersByExpirationTime info.expirationTimeMicros) }) := by
  have hget := SortedMap.get_eq_some.mpr (h.mem_lists hs).2
  rw [PaginatedSearcherManager.removeSearcher, hs]
  simp only [hlast, if_true, hget, Option.map_some]

theorem updateExistingSearcher_of_le {m : PaginatedSearcherManager σ}
    {info : PaginatedSearcherInfo} (hs : m.infoBySearcher s = some info) {expiration : Int}
    (hle : expiration ≤ info.expirationTimeMicros) :
    m.updateExistingSearcher s expiration = some { m with
      infoBySearcher := Function.update m.infoBySearcher s
        (some { info with refCount := info.refCount + 1 }) } := by
  rw [PaginatedSearcherManager.updateExistingSearcher, hs, Option.bind_some, if_pos hle]

theorem Linked.updateExistingSearcher_of_lt {m : PaginatedSearcherManager σ} (h : Linked m)
    {info : PaginatedSearcherInfo} (hs : m.infoBySearcher s = some info) {expiration : Int}
    (hlt : info.expirationTimeMicros < expiration) :
    m.updateExistingSearcher s expiration = some { m with
      infoBySearcher := Function.update m.infoBySearcher s
        (some { info with
          expirationTimeMicros := expiration, refCount := info.refCount + 1 })
      searchersByExpirationTime := addExpiring
        (removeExpiring m.searchersByExpirationTime info.expirationTimeMicros s
          (expiring m.searchersByExpirationTime info.expirationTimeMicros)) expiration s } := by
  obtain ⟨hmem, hlist⟩ := h.mem_lists hs
  rw [PaginatedSearcherManager.updateExistingSearcher, hs, Option.bind_some,
    if_neg (not_le.mpr hlt), SortedMap.get_eq_some.mpr hlist, Option.bind_some, if_pos hmem]

/-- What a managed searcher's entry says, as the callers know it. -/
structure Known (l : Ledger σ) (s : σ) (info : PaginatedSearcherInfo) : Prop where
  creation : info.creationTimeMicros = l.creation s
  expiration : info.expirationTimeMicros = l.expiration s
  refCount : info.refCount = l.held s
  positive : 1 ≤ info.refCount

/-- A searcher was handed over when no one held it any more or it had expired. -/
def Handed.IsDue (h : Handed σ) : Prop :=
  h.held = 0 ∨ ∃ now, h.now = some now ∧ h.expirationMicros ≤ now

/-- The bookkeeping in a state of a run. -/
structure Kept (p : State σ) : Prop where
  linked : Linked p.manager
  known : ∀ s info, p.manager.infoBySearcher s = some info → Known p.ledger s info
  added : ∀ s, s ∈ p.ledger.added ↔
    (p.manager.infoBySearcher s).isSome = true ∨ s ∈ p.ledger.handed.map Handed.searcher
  managed : ∀ s, (p.manager.infoBySearcher s).isSome = true →
    s ∉ p.ledger.handed.map Handed.searcher
  once : (p.ledger.handed.map Handed.searcher).Nodup
  due : ∀ h ∈ p.ledger.handed, h.IsDue
  fresh : ∀ s, s ∉ p.ledger.added → p.ledger.held s = 0

theorem isSome_update {f : σ → Option PaginatedSearcherInfo} {info : PaginatedSearcherInfo}
    {s' : σ} : (Function.update f s (some info) s').isSome = true ↔
      s' = s ∨ (f s').isSome = true := by
  by_cases h : s' = s
  · simp [h]
  · simp [h]

theorem held_acquire (l : Ledger σ) (s s' : σ) :
    (l.acquire s).held s' = if s' = s then l.held s' + 1 else l.held s' := by
  unfold Ledger.acquire Ledger.held
  by_cases h : s' = s
  · subst h
    simp only [Function.update_self, if_true]
    omega
  · simp only [Function.update_of_ne h, if_neg h]

theorem held_release (l : Ledger σ) (s s' : σ) :
    (l.release s).held s' = if s' = s then l.held s' - 1 else l.held s' := by
  unfold Ledger.release Ledger.held
  by_cases h : s' = s
  · subst h
    simp only [Function.update_self, if_true]
    omega
  · simp only [Function.update_of_ne h, if_neg h]

omit [DecidableEq σ] in
theorem Kept.start : Kept ({} : State σ) where
  linked := ⟨by simp [SortedMap.empty], by simp [expiring, SortedMap.get, SortedMap.empty],
    nofun⟩
  known := nofun
  added := by simp
  managed := nofun
  once := List.nodup_nil
  due := nofun
  fresh := fun _ _ => rfl

omit [DecidableEq σ] in
theorem Kept.none_of_notMem (h : Kept p) (hs : s ∉ p.ledger.added) :
    p.manager.infoBySearcher s = none ∧ s ∉ p.ledger.handed.map Handed.searcher := by
  rw [h.added, not_or, Option.not_isSome_iff_eq_none] at hs
  exact hs

theorem Kept.addNewSearcher (h : Kept p) {creation : Int} (hs : s ∉ p.ledger.added)
    (hcreation : ∀ s' ∈ p.ledger.added, p.ledger.creation s' ≠ creation) (expiration : Int) :
    ∃ p', step p (.addNewSearcher s creation expiration) = some p' ∧ Kept p' := by
  obtain ⟨hnone, hnot⟩ := h.none_of_notMem hs
  refine ⟨_, rfl, ?_, ?_, ?_, ?_, h.once, h.due, ?_⟩
  · refine h.linked.addNewSearcher hnone (fun s' hs' => ?_) expiration
    obtain ⟨info, hinfo, rfl⟩ := (h.linked.created _ _).mp hs'
    have hadded := (h.added s').mpr (Or.inl (hinfo ▸ rfl))
    exact hcreation s' hadded (h.known s' info hinfo).creation.symm
  · intro s' info hinfo
    by_cases heq : s' = s
    · subst heq
      simp only [PaginatedSearcherManager.addNewSearcher, Function.update_self,
        Option.some.injEq] at hinfo
      have hheld := held_acquire p.ledger s' s'
      rw [if_pos rfl, h.fresh s' hs] at hheld
      subst hinfo
      exact ⟨by simp, by simp, hheld.symm, le_rfl⟩
    · simp only [PaginatedSearcherManager.addNewSearcher, Function.update_of_ne heq] at hinfo
      obtain ⟨hc, he, hr, hpos⟩ := h.known s' info hinfo
      have hheld := held_acquire p.ledger s s'
      rw [if_neg heq] at hheld
      exact ⟨by simpa [heq] using hc, by simpa [heq] using he, hr.trans hheld.symm, hpos⟩
  · intro s'
    simp only [PaginatedSearcherManager.addNewSearcher, isSome_update, Ledger.acquire,
      List.mem_append, List.mem_singleton, h.added]
    tauto
  · intro s' hs'
    simp only [PaginatedSearcherManager.addNewSearcher, isSome_update] at hs'
    rcases hs' with rfl | hs'
    · exact hnot
    · exact h.managed s' hs'
  · intro s' hs'
    have hne : s' ≠ s ∧ s' ∉ p.ledger.added := by simpa [not_or, and_comm] using hs'
    have hheld := held_acquire p.ledger s s'
    rw [if_neg hne.1] at hheld
    exact hheld.trans (h.fresh s' hne.2)

theorem Kept.updateExistingSearcher (h : Kept p)
    (hs : (p.manager.infoBySearcher s).isSome = true) (expiration : Int) :
    ∃ p', step p (.updateExistingSearcher s expiration) = some p' ∧ Kept p' := by
  obtain ⟨info, hinfo⟩ := Option.isSome_iff_exists.mp hs
  have hknown := h.known s info hinfo
  have hadded : s ∈ p.ledger.added := (h.added s).mpr (Or.inl hs)
  -- the entry of `s` has a new expiration time and one more reference
  have hupdate : ∃ m, p.manager.updateExistingSearcher s expiration = some m ∧ Linked m ∧
      m.infoBySearcher = Function.update p.manager.infoBySearcher s
        (some { info with
          expirationTimeMicros := max info.expirationTimeMicros expiration
          refCount := info.refCount + 1 }) := by
    by_cases hle : expiration ≤ info.expirationTimeMicros
    · rw [updateExistingSearcher_of_le hinfo hle, max_eq_left hle]
      exact ⟨_, rfl, h.linked.setRefCount hinfo _, rfl⟩
    · have hlt := not_le.mp hle
      rw [h.linked.updateExistingSearcher_of_lt hinfo hlt, max_eq_right hlt.le]
      exact ⟨_, rfl, h.linked.move hinfo _, rfl⟩
  obtain ⟨m, hm, hlinked, hinfos⟩ := hupdate
  refine ⟨_, congrArg (Option.map _) hm, hlinked, ?_, ?_, ?_, h.once, h.due, ?_⟩
  · intro s' info' hinfo'
    rw [hinfos] at hinfo'
    have hheld := held_acquire p.ledger s s'
    by_cases heq : s' = s
    · subst heq
      rw [Function.update_self, Option.some.injEq] at hinfo'
      subst hinfo'
      rw [if_pos rfl, ← hknown.refCount] at hheld
      refine ⟨hknown.creation, ?_, hheld.symm, ?_⟩
      · simp [hknown.expiration]
      · exact hknown.positive.trans (Int.le_add_one le_rfl)
    · rw [Function.update_of_ne heq] at hinfo'
      obtain ⟨hc, he, hr, hpos⟩ := h.known s' info' hinfo'
      rw [if_neg heq] at hheld
      exact ⟨hc, by simpa [heq] using he, hr.trans hheld.symm, hpos⟩
  · intro s'
    simp only [hinfos, isSome_update, Ledger.acquire, h.added]
    by_cases heq : s' = s
    · simp [heq, hs]
    · simp [heq]
  · intro s' hs'
    simp only [hinfos, isSome_update] at hs'
    rcases hs' with rfl | hs'
    · exact h.managed s' hs
    · exact h.managed s' hs'
  · intro s' hs'
    have hne : s' ≠ s := fun heq => hs' (heq ▸ hadded)
    have hheld := held_acquire p.ledger s s'
    rw [if_neg hne] at hheld
    exact hheld.trans (h.fresh s' hs')

/-- Managed searchers are handed over for closing, each with its due. -/
theorem Kept.hand (h : Kept p) {m : PaginatedSearcherManager σ} {l : Ledger σ} {now : Option Int}
    {ss : List σ} (hlinked : Linked m)
    (hinfos : ∀ s, m.infoBySearcher s = if s ∈ ss then none else p.manager.infoBySearcher s)
    (hnodup : ss.Nodup) (hmanaged : ∀ s ∈ ss, (p.manager.infoBySearcher s).isSome = true)
    (hl : l = { p.ledger with releases := l.releases })
    (hheld : ∀ s, s ∉ ss → l.held s = p.ledger.held s)
    (hdue : ∀ s ∈ ss, Handed.IsDue ⟨s, l.held s, l.expiration s, now⟩) :
    Kept ⟨m, l.hand now ss⟩ := by
  -- the releases apart, the ledger is the one before
  have hadded : l.added = p.ledger.added := by rw [hl]
  have hcreation : l.creation = p.ledger.creation := by rw [hl]
  have hexpiration : l.expiration = p.ledger.expiration := by rw [hl]
  have hsame : l.handed = p.ledger.handed := by rw [hl]
  have hhanded : (l.hand now ss).handed.map Handed.searcher =
      p.ledger.handed.map Handed.searcher ++ ss := by
    simp [Ledger.hand, hsame, List.map_append, Function.comp_def]
  have hopen : ∀ s, (m.infoBySearcher s).isSome = true ↔
      s ∉ ss ∧ (p.manager.infoBySearcher s).isSome = true := by
    intro s
    rw [hinfos]
    split_ifs with hs <;> simp [hs]
  refine ⟨hlinked, ?_, ?_, ?_, ?_, ?_, ?_⟩
  · intro s info hinfo
    have hs := (hopen s).mp (hinfo ▸ rfl)
    rw [hinfos, if_neg hs.1] at hinfo
    obtain ⟨hc, he, hr, hpos⟩ := h.known s info hinfo
    exact ⟨hc.trans (congrFun hcreation s).symm, he.trans (congrFun hexpiration s).symm,
      hr.trans (hheld s hs.1).symm, hpos⟩
  · intro s
    show s ∈ l.added ↔ _
    rw [hadded, h.added, hhanded, List.mem_append, hopen]
    by_cases hs : s ∈ ss
    · simp [hs, hmanaged s hs]
    · simp [hs]
  · intro s hs
    obtain ⟨hnot, hs⟩ := (hopen s).mp hs
    rw [hhanded, List.mem_append, not_or]
    exact ⟨h.managed s hs, hnot⟩
  · rw [hhanded, List.nodup_append]
    refine ⟨h.once, hnodup, ?_⟩
    rintro s hs s' hs' rfl
    exact h.managed s (hmanaged s hs') hs
  · intro e he
    simp only [Ledger.hand, hsame, List.mem_append, List.mem_map] at he
    rcases he with he | ⟨s, hs, rfl⟩
    · exact h.due e he
    · exact hdue s hs
  · intro s hs
    have hs : s ∉ p.ledger.added := hadded ▸ hs
    have hnot : s ∉ ss := fun hmem => hs ((h.added s).mpr (Or.inl (hmanaged s hmem)))
    exact (hheld s hnot).trans (h.fresh s hs)

theorem Kept.removeSearcher (h : Kept p) (s : σ) :
    ∃ p', step p (.removeSearcher s) = some p' ∧ Kept p' := by
  cases hinfo : p.manager.infoBySearcher s with
  | none =>
      refine ⟨_, congrArg (Option.map _) (removeSearcher_of_none hinfo), ?_⟩
      simp only [hinfo]
      exact h
  | some info =>
      have hknown := h.known s info hinfo
      have hs : (p.manager.infoBySearcher s).isSome = true := hinfo ▸ rfl
      have hadded : s ∈ p.ledger.added := (h.added s).mpr (Or.inl hs)
      have hfresh : ∀ s', s' ∉ p.ledger.added → (p.ledger.release s).held s' = 0 := by
        intro s' hs'
        have hne : s' ≠ s := fun heq => hs' (heq ▸ hadded)
        rw [held_release, if_neg hne]
        exact h.fresh s' hs'
      -- the last release hands the searcher to the caller; the others count down
      by_cases hlast : info.refCount - 1 = 0
      · refine ⟨_, congrArg (Option.map _) (h.linked.removeSearcher_of_eq hinfo hlast), ?_⟩
        simp only [hs, if_true]
        have hreleased := held_release p.ledger s s
        rw [if_pos rfl, ← hknown.refCount, hlast] at hreleased
        refine h.hand (h.linked.close hinfo) (fun s' => ?_) (List.nodup_singleton s) ?_ rfl ?_ ?_
        · simp [Function.update_apply]
        · simp [hs]
        · intro s' hs'
          rw [held_release, if_neg (by simpa using hs')]
        · intro s' hs'
          rw [List.mem_singleton.mp hs']
          exact Or.inl hreleased
      · refine ⟨_, congrArg (Option.map _) (removeSearcher_of_ne hinfo hlast), ?_⟩
        simp only [hs, if_true]
        refine ⟨h.linked.setRefCount hinfo _, ?_, ?_, ?_, h.once, h.due, hfresh⟩
        · intro s' info' hinfo'
          have hheld := held_release p.ledger s s'
          by_cases heq : s' = s
          · subst heq
            simp only [Function.update_self, Option.some.injEq] at hinfo'
            subst hinfo'
            rw [if_pos rfl, ← hknown.refCount] at hheld
            have hpositive := hknown.positive
            exact ⟨hknown.creation, hknown.expiration, hheld.symm, by simp only; omega⟩
          · simp only [Function.update_of_ne heq] at hinfo'
            obtain ⟨hc, he, hr, hpos⟩ := h.known s' info' hinfo'
            rw [if_neg heq] at hheld
            exact ⟨hc, he, hr.trans hheld.symm, hpos⟩
        · intro s'
          rw [isSome_update]
          refine (h.added s').trans (or_congr_left ?_)
          exact (or_iff_right_of_imp fun heq => heq ▸ hs).symm
        · intro s' hs'
          simp only [isSome_update] at hs'
          rcases hs' with rfl | hs'
          · exact h.managed s' hs
          · exact h.managed s' hs'

theorem Kept.removeExpiredSearchers (h : Kept p) (now : Int) :
    ∃ p', step p (.removeExpiredSearchers now) = some p' ∧ Kept p' := by
  obtain ⟨m, toClose, hremove, hlinked, hnodup, hmem, hinfos⟩ :=
    h.linked.removeExpiredSearchers now
  refine ⟨_, congrArg (Option.map _) hremove, ?_⟩
  refine h.hand hlinked hinfos hnodup (fun s hs => ?_) rfl (fun _ _ => rfl) fun s hs => ?_
  · obtain ⟨info, hinfo, -⟩ := (hmem s).mp hs
    exact hinfo ▸ rfl
  · obtain ⟨info, hinfo, hle⟩ := (hmem s).mp hs
    exact Or.inr ⟨now, rfl, (h.known s info hinfo).expiration ▸ hle⟩

/-- A call that is admitted does not throw, and keeps the books. -/
theorem Kept.step (h : Kept p) {c : Call σ} (hc : Admitted p c) :
    ∃ p', step p c = some p' ∧ Kept p' := by
  cases c with
  | addNewSearcher s creation expiration => exact h.addNewSearcher hc.1 hc.2 expiration
  | updateExistingSearcher s expiration => exact h.updateExistingSearcher hc expiration
  | removeSearcher s => exact h.removeSearcher s
  | removeExpiredSearchers now => exact h.removeExpiredSearchers now

end Runs

/-- Two searchers with one expiration time, of which the first is used again. -/
def twoSearchers : List (Call Nat) :=
  [.addNewSearcher 0 1 10, .addNewSearcher 1 2 10, .updateExistingSearcher 0 20,
    .removeSearcher 0, .removeExpiredSearchers 15, .removeSearcher 0]

end Xenon.Index.PaginatedSearchers
