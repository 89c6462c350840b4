import Xenon.Index.Versions

/-!
# Latest versions only

An entry of the cache is trusted by every searcher that is not older than the entry. It
agrees with such a searcher if its version is the highest one of the link there, apart
from documents whose update is still on the way to the cache.

Updates that come in the order of their versions keep this. Other writers of the cache
need not: the deletion of old versions records the newest version that it deleted, for a
link without an entry too; a query on an old searcher, or one with `TIME_SNAPSHOT`,
records the version that it found there; and the time that a query records is the
document's own, which is earlier than the time at which the document was added.
`InOrder` is the condition that none of this leaves a wrong entry.
-/

namespace Xenon.Index.Latest

open Xenon.Foundation

/-! ## The condition on steps -/

/-- The version is the highest one of the link among the documents that are recorded, if
there is any. -/
def Agrees (unrecorded docs : List Doc) (link : String) (version : Int) : Prop :=
  ∀ d ∈ docs, d.link = link → d ∉ unrecorded → d.version ≤ version ∧
    ∃ d' ∈ docs, d'.link = link ∧ d' ∉ unrecorded ∧ d'.version = version

instance (unrecorded docs : List Doc) (link : String) (version : Int) :
    Decidable (Agrees unrecorded docs link version) :=
  inferInstanceAs (Decidable (∀ d ∈ docs, _ → _ → _ ∧ ∃ d' ∈ docs, _ ∧ _ ∧ _))

/-- A version that a deletion or a query records: the entry has a version that is not lower,
or the new entry agrees with the index and with the searchers that will trust it. -/
def Accounts (s : Shared) (link : String) (version time : Int) : Prop :=
  (∃ e ∈ s.cache.updatesPerLink link, version ≤ e.version) ∨
    let e := recordVersion version time (s.cache.updatesPerLink link)
    Agrees s.unrecorded s.docs link e.version ∧
      ∀ x ∈ s.searchers, e.updateTimeMicros ≤ x.updateTime →
        Agrees s.unrecorded x.docs link e.version

instance (s : Shared) (link : String) (version time : Int) :
    Decidable (Accounts s link version time) :=
  inferInstanceAs (Decidable (_ ∨ _ ∧ ∀ x ∈ s.searchers, _ → _))

/-- No recorded document of the link has a higher version. -/
def NoneAbove (unrecorded docs : List Doc) (link : String) (version : Int) : Prop :=
  ∀ d ∈ docs, d.link = link → d ∉ unrecorded → d.version ≤ version

instance (unrecorded docs : List Doc) (link : String) (version : Int) :
    Decidable (NoneAbove unrecorded docs link version) :=
  inferInstanceAs (Decidable (∀ d ∈ docs, _ → _ → _))

/-- An update is recorded in the order of the versions of its link. -/
def UpdatesInOrder (s : Shared) (d : Doc) (time : Int) : Prop :=
  match s.cache.updatesPerLink d.link with
  | some e => if d.isImmutable then e.version = d.version else e.version ≤ d.version
  | none => d.isImmutable = false → 0 ≤ d.version ∧
      NoneAbove s.unrecorded s.docs d.link d.version ∧
        ∀ x ∈ s.searchers, time ≤ x.updateTime →
          NoneAbove s.unrecorded x.docs d.link d.version

instance (s : Shared) (d : Doc) (time : Int) : Decidable (UpdatesInOrder s d time) := by
  unfold UpdatesInOrder
  split <;> infer_instance

/-- A deletion spares the documents that are not recorded, and it deletes all others of the
link or keeps one with the highest version. -/
def KeepsLatest (s : Shared) (r : Deletion) : Prop :=
  (∀ d ∈ s.unrecorded, ¬ r.Covers d) ∧
    ((∀ d ∈ s.docs, d.link = r.link → d ∉ s.unrecorded → r.Covers d) ∨
      ∀ d ∈ s.docs, r.Covers d → ∃ d' ∈ s.docs, d'.link = r.link ∧ d' ∉ s.unrecorded ∧
        ¬ r.Covers d' ∧ d.version ≤ d'.version)

instance (s : Shared) (r : Deletion) : Decidable (KeepsLatest s r) :=
  inferInstanceAs (Decidable ((∀ d ∈ s.unrecorded, _) ∧
    ((∀ d ∈ s.docs, _ → _ → _) ∨ ∀ d ∈ s.docs, _ → ∃ d' ∈ s.docs, _ ∧ _ ∧ _ ∧ _)))

/-- What a query takes from the cache: from an entry only if the searcher has no document of
the link that is not recorded, and from an immutable parent only if its children have the
version zero. -/
def ReadsSettled (s : Shared) (x : Searcher) (link : String) : Prop :=
  match (s.cache.updatesPerLink link).filter fun e => e.updateTimeMicros ≤ x.updateTime with
  | some _ => ∀ d ∈ s.unrecorded, d.link = link → d ∉ x.docs
  | none => (s.cache.immutableParentLinks (getParentPath link)).isSome →
      ∀ d ∈ x.docs, d.link = link → d.version = 0

instance (s : Shared) (x : Searcher) (link : String) : Decidable (ReadsSettled s x link) := by
  unfold ReadsSettled
  split <;> infer_instance

def InOrder (s : Shared) : Task → Answer → Prop
  | .deleteDocuments u, _ => ∀ d ∈ s.unrecorded, d.link ≠ u.link
  | .recordDelete u time, .description false => Accounts s u.link 0 time
  | .recordUpdate d time, _ => UpdatesInOrder s d time
  | .deleteRange r, _ => KeepsLatest s r
  | .recordRange r time, .description false => Accounts s r.link r.newestVersion time
  | .process q, .hit d =>
      q.documentsUpdatedBefore = -1 → q.latestVersionPerLink.lookup d.link = none →
        ReadsSettled s q.searcher d.link
  | .refill q d, _ =>
      ∀ latest ∈ latestDoc q.searcher d.link q.documentsUpdatedBefore,
        Accounts s d.link latest.version latest.documentUpdateTimeMicros
  | _, _ => True

instance (s : Shared) (t : Task) (k : Answer) : Decidable (InOrder s t k) := by
  unfold InOrder
  split <;> infer_instance

/-! ## The invariant -/

/-- What holds of the index, the searchers and the cache. -/
structure Core (s : Shared) : Prop where
  index : ∀ {link e}, s.cache.updatesPerLink link = some e →
    Agrees s.unrecorded s.docs link e.version
  searchers : ∀ x ∈ s.searchers, ∀ {link e}, s.cache.updatesPerLink link = some e →
    e.updateTimeMicros ≤ x.updateTime → Agrees s.unrecorded x.docs link e.version
  past : ∀ x ∈ s.searchers, x.updateTime ≤ s.now
  unrecorded : s.unrecorded ⊆ s.docs
  nodup : s.unrecorded.Nodup
  docs_lt : ∀ d ∈ s.docs, d.id < s.nextId
  searchers_lt : ∀ x ∈ s.searchers, ∀ d ∈ x.docs, d.id < s.nextId

/-- The highest version of a link in a searcher. -/
structure Searcher.Highest (x : Searcher) (link : String) (version : Int) : Prop where
  exists_doc : ∃ d ∈ x.docs, d.link = link ∧ d.version = version
  le : ∀ d ∈ x.docs, d.link = link → d.version ≤ version

/-- The latest versions that a query has found are the highest of its searcher. -/
structure Call.Ok (s : Shared) (q : Call) : Prop where
  searcher : q.searcher ∈ s.searchers
  highest : q.documentsUpdatedBefore = -1 →
    ∀ p ∈ q.latestVersionPerLink, q.searcher.Highest p.1 p.2

def Task.Ok (s : Shared) : Task → Prop
  | .recordUpdate d time => ∀ x ∈ s.searchers, time ≤ x.updateTime → d ∈ x.docs
  | .openReader time => time ≤ s.now
  | .process q => q.Ok s
  | .refill q d => q.Ok s ∧ d ∈ q.searcher.docs
  | _ => True

/-- The document that a task has still to record. -/
def Task.unrecorded : Task → Option Doc
  | .stampUpdate d => some d
  | .recordUpdate d _ => some d
  | _ => none

structure Inv (s : Shared) (ts : List Task) : Prop where
  core : Core s
  tasks : ∀ t ∈ ts, t.Ok s
  unrecorded : (ts.filterMap Task.unrecorded).Perm s.unrecorded
  outcomes : LatestOnly s

/-! ## What later states keep -/

/-- Time has passed. A searcher that was opened since sees the documents that are not
recorded. -/
structure Later (s s' : Shared) : Prop where
  now : s.now ≤ s'.now
  searchers : ∀ x ∈ s.searchers, x ∈ s'.searchers
  opened : ∀ x ∈ s'.searchers, x ∈ s.searchers ∨ s.unrecorded ⊆ x.docs

section

variable {s s' : Shared} {t : Task} {ts new : List Task}

theorem Later.of_eq (hnow : s.now ≤ s'.now) (h : s'.searchers = s.searchers) : Later s s' :=
  ⟨hnow, fun _ hx => h ▸ hx, fun _ hx => Or.inl (h ▸ hx)⟩

theorem Call.Ok.later {q : Call} (h : q.Ok s) (hs : Later s s') : q.Ok s' :=
  ⟨hs.searchers _ h.searcher, h.highest⟩

theorem Task.Ok.later (h : t.Ok s) (hs : Later s s') (hd : ∀ d ∈ t.unrecorded, d ∈ s.unrecorded) :
    t.Ok s' := by
  cases t with
  | recordUpdate d time =>
      intro x hx hle
      rcases hs.opened x hx with hx | hopened
      · exact h x hx hle
      · exact hopened (hd d rfl)
  | openReader time => exact le_trans h hs.now
  | process q => exact Call.Ok.later h hs
  | refill q d => exact ⟨h.1.later hs, h.2⟩
  | deleteDocuments | removeEntry | stampDelete | recordDelete | addDocument | stampUpdate
  | deleteRange | stampRange | recordRange | removeExpired | evict | stampSearcher | query =>
      trivial

theorem Inv.mem_unrecorded (h : Inv s ts) (ht : t ∈ ts) : ∀ d ∈ t.unrecorded, d ∈ s.unrecorded :=
  fun _ hd => h.unrecorded.mem_iff.mp (List.mem_filterMap.mpr ⟨t, ht, hd⟩)

theorem Inv.step (h : Inv s (t :: ts)) (hlater : Later s s') (hcore : Core s')
    (hnew : ∀ t ∈ new, t.Ok s')
    (hunrecorded : ∀ {ds : List Doc}, (t.unrecorded.toList ++ ds).Perm s.unrecorded →
      (new.filterMap Task.unrecorded ++ ds).Perm s'.unrecorded)
    (houtcomes : LatestOnly s') : Inv s' (new ++ ts) where
  core := hcore
  tasks := by
    intro t' ht'
    rcases List.mem_append.mp ht' with ht' | ht'
    · exact hnew t' ht'
    · have hmem := List.mem_cons_of_mem t ht'
      exact (h.tasks t' hmem).later hlater (h.mem_unrecorded hmem)
  unrecorded := by
    rw [List.filterMap_append]
    apply hunrecorded
    have hperm := h.unrecorded
    cases hd : t.unrecorded with
    | none => rwa [List.filterMap_cons_none hd] at hperm
    | some d => rwa [List.filterMap_cons_some hd] at hperm
  outcomes := houtcomes

/-! ## The index and the cache -/

/-- Entries are only removed. -/
theorem Core.quiet (h : Core s) (hnow : s.now ≤ s'.now) (hid : s'.nextId = s.nextId)
    (hdocs : s'.docs = s.docs) (hsearchers : s'.searchers = s.searchers)
    (hunrecorded : s'.unrecorded = s.unrecorded)
    (hlinks : ∀ {link e}, s'.cache.updatesPerLink link = some e →
      s.cache.updatesPerLink link = some e) : Core s' where
  index he := by
    rw [hdocs, hunrecorded]
    exact h.index (hlinks he)
  searchers x hx := by
    intro link e he hle
    rw [hunrecorded]
    rw [hsearchers] at hx
    exact h.searchers x hx (hlinks he) hle
  past x hx := (h.past x (hsearchers ▸ hx)).trans hnow
  unrecorded := by
    rw [hdocs, hunrecorded]
    exact h.unrecorded
  nodup := by
    rw [hunrecorded]
    exact h.nodup
  docs_lt := by
    rw [hdocs, hid]
    exact h.docs_lt
  searchers_lt := by
    rw [hsearchers, hid]
    exact h.searchers_lt

/-- The entries of some links are removed. -/
theorem Core.removeLinks (h : Core s) (links : List String) (hnow : s.now ≤ s'.now)
    (hid : s'.nextId = s.nextId) (hdocs : s'.docs = s.docs)
    (hsearchers : s'.searchers = s.searchers) (hunrecorded : s'.unrecorded = s.unrecorded)
    (hlinks : s'.cache.updatesPerLink = (s.cache.removeLinks links).updatesPerLink) : Core s' := by
  refine h.quiet hnow hid hdocs hsearchers hunrecorded fun {link e} he => ?_
  rw [hlinks] at he
  by_cases hmem : link ∈ links
  · simp [Cache.removeLinks, hmem] at he
  · simpa [Cache.removeLinks, hmem] using he

/-- The time and the version of an entry after a version was recorded that is not higher. -/
theorem recordVersion_of_le {version : Int} (time : Int) {e : DocumentUpdateInfo}
    (h : version ≤ e.version) :
    (recordVersion version time (some e)).version = e.version ∧
      e.updateTimeMicros ≤ (recordVersion version time (some e)).updateTimeMicros := by
  unfold recordVersion
  dsimp only [Option.getD_some]
  split_ifs with hle
  · exact ⟨le_antisymm h hle, le_max_left _ _⟩
  · exact ⟨rfl, le_rfl⟩

/-- A version is recorded by a deletion or by a query. -/
theorem Core.account {link : String} {kind : Option String} {version time : Int} (h : Core s)
    (hguard : Accounts s link version time) :
    Core { s with cache := s.cache.updateLinkInfoCache false link kind version time } := by
  obtain ⟨hindex, hsearchers⟩ : Agrees s.unrecorded s.docs link
      (recordVersion version time (s.cache.updatesPerLink link)).version ∧ ∀ x ∈ s.searchers,
        (recordVersion version time (s.cache.updatesPerLink link)).updateTimeMicros ≤
          x.updateTime → Agrees s.unrecorded x.docs link
            (recordVersion version time (s.cache.updatesPerLink link)).version := by
    rcases hguard with ⟨e, he, hle⟩ | hagrees
    · rw [Option.mem_def.mp he]
      obtain ⟨hversion, htime⟩ := recordVersion_of_le time hle
      rw [hversion]
      exact ⟨h.index he, fun x hx hx' => h.searchers x hx he (htime.trans hx')⟩
    · exact hagrees
  refine ⟨fun {link' e} he => ?_, fun x hx link' e he hle => ?_, h.past, h.unrecorded, h.nodup,
    h.docs_lt, h.searchers_lt⟩
  · by_cases hlink : link' = link
    · subst hlink
      obtain rfl : recordVersion version time (s.cache.updatesPerLink link') = e := by
        simpa using he
      exact hindex
    · rw [updateLinkInfoCache_link_other _ _ _ _ _ _ hlink] at he
      exact h.index he
  · by_cases hlink : link' = link
    · subst hlink
      obtain rfl : recordVersion version time (s.cache.updatesPerLink link') = e := by
        simpa using he
      exact hsearchers x hx hle
    · rw [updateLinkInfoCache_link_other _ _ _ _ _ _ hlink] at he
      exact h.searchers x hx he hle

theorem Core.updateCache {isImmutable : Bool} {link : String} {kind : Option String}
    {version time : Int} (h : Core s)
    (hguard : isImmutable = false → Accounts s link version time) :
    Core { s with cache := s.cache.updateLinkInfoCache isImmutable link kind version time } := by
  cases isImmutable with
  | false => exact h.account (hguard rfl)
  | true => exact h.quiet le_rfl rfl rfl rfl rfl fun he => he

/-! ### Updates -/

/-- A document is recorded that has the highest version so far. -/
theorem agrees_erase {unrecorded docs : List Doc} {d : Doc} (hnd : unrecorded.Nodup)
    (hd : d ∈ docs) (h : NoneAbove unrecorded docs d.link d.version) :
    Agrees (unrecorded.erase d) docs d.link d.version := by
  intro d' hd' hlink hnot
  refine ⟨?_, d, hd, rfl, fun hmem => (hnd.mem_erase_iff.mp hmem).1 rfl, rfl⟩
  by_cases heq : d' = d
  · rw [heq]
  · exact h d' hd' hlink fun hmem => hnot (hnd.mem_erase_iff.mpr ⟨heq, hmem⟩)

/-- Other links do not see that a document is recorded. -/
theorem Agrees.erase_other {unrecorded docs : List Doc} {d : Doc} {link : String} {version : Int}
    (h : Agrees unrecorded docs link version) (hnd : unrecorded.Nodup) (hlink : d.link ≠ link) :
    Agrees (unrecorded.erase d) docs link version := by
  have hiff : ∀ d' : Doc, d'.link = link → (d' ∉ unrecorded.erase d ↔ d' ∉ unrecorded) := by
    intro d' hd'
    have hne : d' ≠ d := by
      rintro rfl
      exact hlink hd'
    rw [hnd.mem_erase_iff]
    tauto
  intro d' hd' hlink' hnot
  obtain ⟨hle, d'', hd'', hlink'', hnot'', hversion⟩ :=
    h d' hd' hlink' ((hiff d' hlink').mp hnot)
  exact ⟨hle, d'', hd'', hlink'', (hiff d'' hlink'').mpr hnot'', hversion⟩

theorem Agrees.noneAbove {unrecorded docs : List Doc} {link : String} {version version' : Int}
    (h : Agrees unrecorded docs link version) (hle : version ≤ version') :
    NoneAbove unrecorded docs link version' :=
  fun d hd hlink hnot => (h d hd hlink hnot).1.trans hle

/-- A document with the version of the entry is recorded. -/
theorem Agrees.erase_same {unrecorded docs : List Doc} {d : Doc} {version : Int}
    (h : Agrees unrecorded docs d.link version) (hnd : unrecorded.Nodup)
    (hversion : version = d.version) : Agrees (unrecorded.erase d) docs d.link version := by
  subst hversion
  by_cases hd : d ∈ docs
  · exact agrees_erase hnd hd (h.noneAbove le_rfl)
  · intro d' hd' hlink hnot
    have hne : d' ≠ d := by
      rintro rfl
      exact hd hd'
    have hmem : d' ∉ unrecorded := fun hmem => hnot (hnd.mem_erase_iff.mpr ⟨hne, hmem⟩)
    obtain ⟨hle, d'', hd'', hlink'', hnot'', hversion⟩ := h d' hd' hlink hmem
    exact ⟨hle, d'', hd'', hlink'', fun hmem => hnot'' (List.mem_of_mem_erase hmem), hversion⟩

/-- The entry after an update that comes in order. -/
theorem recordVersion_update {d : Doc} {time : Int} (hguard : UpdatesInOrder s d time)
    (himm : d.isImmutable = false) :
    recordVersion d.version time (s.cache.updatesPerLink d.link) =
      ⟨max ((s.cache.updatesPerLink d.link).getD ⟨0, 0⟩).updateTimeMicros time, d.version⟩ := by
  unfold UpdatesInOrder at hguard
  unfold recordVersion
  refine if_pos ?_
  cases he : s.cache.updatesPerLink d.link with
  | some e => simpa [he, himm] using hguard
  | none =>
      rw [he] at hguard
      exact (hguard himm).1

theorem Core.recordUpdate {d : Doc} {time : Int} (h : Core s) (hd : d ∈ s.unrecorded)
    (hopened : ∀ x ∈ s.searchers, time ≤ x.updateTime → d ∈ x.docs)
    (hguard : UpdatesInOrder s d time) :
    Core { s with
      cache := s.cache.updateLinkInfoCache d.isImmutable d.link d.kind d.version time
      unrecorded := s.unrecorded.erase d } := by
  refine ⟨fun {link e} he => ?_, fun x hx link e he hle => ?_, h.past,
    fun d' hd' => h.unrecorded (List.mem_of_mem_erase hd'), h.nodup.erase d, h.docs_lt,
    h.searchers_lt⟩
  · by_cases hlink : link = d.link
    · subst hlink
      cases himm : d.isImmutable with
      | true =>
          rw [himm, updateLinkInfoCache_immutable_link] at he
          have hversion : e.version = d.version := by
            simpa [UpdatesInOrder, he, himm] using hguard
          exact (h.index he).erase_same h.nodup hversion
      | false =>
          rw [himm, updateLinkInfoCache_link, recordVersion_update hguard himm] at he
          cases he
          refine agrees_erase h.nodup (h.unrecorded hd) ?_
          unfold UpdatesInOrder at hguard
          cases he : s.cache.updatesPerLink d.link with
          | some e => exact (h.index he).noneAbove (by simpa [he, himm] using hguard)
          | none =>
              rw [he] at hguard
              exact (hguard himm).2.1
    · rw [updateLinkInfoCache_link_other _ _ _ _ _ _ hlink] at he
      exact (h.index he).erase_other h.nodup (Ne.symm hlink)
  · -- the same for a searcher, which is trusted from the time of the entry on
    by_cases hlink : link = d.link
    · subst hlink
      cases himm : d.isImmutable with
      | true =>
          rw [himm, updateLinkInfoCache_immutable_link] at he
          have hversion : e.version = d.version := by
            simpa [UpdatesInOrder, he, himm] using hguard
          exact (h.searchers x hx he hle).erase_same h.nodup hversion
      | false =>
          rw [himm, updateLinkInfoCache_link, recordVersion_update hguard himm] at he
          cases he
          have htime : time ≤ x.updateTime := (le_max_right _ _).trans hle
          refine agrees_erase h.nodup (hopened x hx htime) ?_
          unfold UpdatesInOrder at hguard
          cases he : s.cache.updatesPerLink d.link with
          | some e =>
              have htrusted : e.updateTimeMicros ≤ x.updateTime := by
                rw [he] at hle
                exact (le_max_left _ _).trans hle
              exact (h.searchers x hx he htrusted).noneAbove (by simpa [he, himm] using hguard)
          | none =>
              rw [he] at hguard
              exact (hguard himm).2.2 x hx htime
    · rw [updateLinkInfoCache_link_other _ _ _ _ _ _ hlink] at he
      exact (h.searchers x hx he hle).erase_other h.nodup (Ne.symm hlink)

/-- A new document is not recorded yet. -/
theorem Core.addDocument (h : Core s) (u : DocVersion) :
    Core { s with
      nextId := s.nextId + 1
      docs := s.docs ++ [⟨u, s.nextId⟩]
      unrecorded := ⟨u, s.nextId⟩ :: s.unrecorded } := by
  have hnew : (⟨u, s.nextId⟩ : Doc) ∉ s.docs := fun hmem => lt_irrefl _ (h.docs_lt _ hmem)
  refine ⟨fun {link e} he => ?_, fun x hx link e he hle => ?_, h.past, ?_, ?_, ?_, ?_⟩
  · intro d hd hlink hnot
    have hdocs : d ∈ s.docs := by
      rcases List.mem_append.mp hd with hd | hd
      · exact hd
      · exact absurd (List.mem_cons.mpr (Or.inl (List.mem_singleton.mp hd))) hnot
    obtain ⟨hle, d', hd', hlink', hnot', hversion⟩ :=
      h.index he d hdocs hlink fun hmem => hnot (List.mem_cons_of_mem _ hmem)
    refine ⟨hle, d', List.mem_append_left _ hd', hlink', fun hmem => ?_, hversion⟩
    rcases List.mem_cons.mp hmem with rfl | hmem
    · exact hnew hd'
    · exact hnot' hmem
  · intro d hd hlink hnot
    obtain ⟨hle, d', hd', hlink', hnot', hversion⟩ :=
      h.searchers x hx he hle d hd hlink fun hmem => hnot (List.mem_cons_of_mem _ hmem)
    refine ⟨hle, d', hd', hlink', fun hmem => ?_, hversion⟩
    rcases List.mem_cons.mp hmem with rfl | hmem
    · exact lt_irrefl _ (h.searchers_lt x hx _ hd')
    · exact hnot' hmem
  · intro d hd
    rcases List.mem_cons.mp hd with rfl | hd
    · exact List.mem_append_right _ (List.mem_singleton_self _)
    · exact List.mem_append_left _ (h.unrecorded hd)
  · exact List.nodup_cons.mpr ⟨fun hmem => hnew (h.unrecorded hmem), h.nodup⟩
  · intro d hd
    rcases List.mem_append.mp hd with hd | hd
    · exact Nat.lt_succ_of_lt (h.docs_lt d hd)
    · rw [List.mem_singleton.mp hd]
      exact Nat.lt_succ_self _
  · exact fun x hx d hd => Nat.lt_succ_of_lt (h.searchers_lt x hx d hd)

/-! ### Deletions and searchers -/

/-- Documents are deleted that are recorded; of every link that has an entry one with the
highest version stays, or none. -/
theorem Core.filter (h : Core s) (keep : Doc → Bool)
    (hunrecorded : ∀ d ∈ s.unrecorded, keep d = true)
    (hkeep : ∀ d ∈ s.docs, keep d = false →
      (∀ d' ∈ s.docs, d'.link = d.link → d' ∉ s.unrecorded → keep d' = false) ∨
        ∃ d' ∈ s.docs, d'.link = d.link ∧ d' ∉ s.unrecorded ∧ keep d' = true ∧
          d.version ≤ d'.version) :
    Core { s with docs := s.docs.filter keep } := by
  refine ⟨fun {link e} he d hd hlink hnot => ?_, h.searchers, h.past, fun d hd => ?_, h.nodup,
    fun d hd => h.docs_lt d (List.mem_of_mem_filter hd), h.searchers_lt⟩
  · obtain ⟨hd, hkept⟩ := List.mem_filter.mp hd
    obtain ⟨hle, d', hd', hlink', hnot', hversion⟩ := h.index he d hd hlink hnot
    refine ⟨hle, ?_⟩
    cases hkept' : keep d' with
    | true => exact ⟨d', List.mem_filter.mpr ⟨hd', hkept'⟩, hlink', hnot', hversion⟩
    | false =>
        rcases hkeep d' hd' hkept' with hnone | ⟨d'', hd'', hlink'', hnot'', hkept'', hle''⟩
        · rw [hnone d hd (hlink.trans hlink'.symm) hnot] at hkept
          cases hkept
        · have hlink'' := hlink''.trans hlink'
          refine ⟨d'', List.mem_filter.mpr ⟨hd'', hkept''⟩, hlink'', hnot'', ?_⟩
          exact le_antisymm (h.index he d'' hd'' hlink'' hnot'').1 (hversion ▸ hle'')
  · exact List.mem_filter.mpr ⟨h.unrecorded hd, hunrecorded d hd⟩

theorem Core.deleteDocuments (h : Core s) {link : String}
    (hrecorded : ∀ d ∈ s.unrecorded, d.link ≠ link) :
    Core { s with docs := s.docs.filter fun d => d.link ≠ link } := by
  refine h.filter _ (fun d hd => decide_eq_true (hrecorded d hd)) fun d _ hd => Or.inl ?_
  have hlink : d.link = link := by simpa using hd
  intro d' _ hlink' _
  simp [hlink', hlink]

theorem Core.deleteRange (h : Core s) {r : Deletion} (hkeeps : KeepsLatest s r) :
    Core { s with docs := s.docs.filter fun d => ¬ r.Covers d } := by
  obtain ⟨hspared, hkept⟩ := hkeeps
  refine h.filter _ (fun d hd => decide_eq_true (hspared d hd)) fun d hd hcovers => ?_
  have hcovers : r.Covers d := by simpa using hcovers
  rcases hkept with hall | hkept
  · left
    intro d' hd' hlink hnot
    simpa using hall d' hd' (hlink.trans hcovers.1) hnot
  · right
    obtain ⟨d', hd', hlink, hnot, hcovers', hle⟩ := hkept d hd hcovers
    exact ⟨d', hd', hlink.trans hcovers.1.symm, hnot, decide_eq_true hcovers', hle⟩

theorem Core.openReader (h : Core s) {time : Int} (ht : time ≤ s.now) :
    Core { s with searchers := ⟨s.docs, time⟩ :: s.searchers } := by
  refine ⟨h.index, fun x hx link e he hle => ?_, fun x hx => ?_, h.unrecorded, h.nodup, h.docs_lt,
    fun x hx => ?_⟩
  · rcases List.mem_cons.mp hx with rfl | hx
    · exact h.index he
    · exact h.searchers x hx he hle
  · rcases List.mem_cons.mp hx with rfl | hx
    · exact ht
    · exact h.past x hx
  · rcases List.mem_cons.mp hx with rfl | hx
    · exact h.docs_lt
    · exact h.searchers_lt x hx

/-! ## Queries -/

/-- What a query takes from the cache is the highest version. -/
theorem highest_of_cachedVersion (h : Core s) {x : Searcher} {d : Doc} {version : Int}
    (hx : x ∈ s.searchers) (hd : d ∈ x.docs) (hguard : ReadsSettled s x d.link)
    (hcached : cachedVersion s.cache x.updateTime d.link d.version (-1) = some version) :
    x.Highest d.link version := by
  unfold cachedVersion at hcached
  unfold ReadsSettled at hguard
  simp only [true_and] at hcached
  cases htrusted : (s.cache.updatesPerLink d.link).filter
      fun e => e.updateTimeMicros ≤ x.updateTime with
  | some e =>
      rw [htrusted] at hcached hguard
      cases hcached
      obtain ⟨he, hle⟩ := Option.filter_eq_some_iff.mp htrusted
      have hagrees := h.searchers x hx he (of_decide_eq_true hle)
      have hsettled : ∀ d' ∈ x.docs, d'.link = d.link → d' ∉ s.unrecorded :=
        fun d' hd' hlink hmem => hguard d' hmem hlink hd'
      obtain ⟨hmax, d', hd', hlink', -, hversion⟩ := hagrees d hd rfl (hsettled d hd rfl)
      rw [max_eq_right hmax]
      exact ⟨⟨d', hd', hlink', hversion⟩, fun d'' hd'' hlink'' =>
        (hagrees d'' hd'' hlink'' (hsettled d'' hd'' hlink'')).1⟩
  | none =>
      rw [htrusted] at hcached hguard
      dsimp only at hcached hguard
      split_ifs at hcached with himmutable
      · cases hcached
        have hzero := hguard himmutable
        exact ⟨⟨d, hd, rfl, hzero d hd rfl⟩, fun d' hd' hlink => (hzero d' hd' hlink).le⟩

/-- What a query looks up in its searcher is the highest version. -/
theorem highest_of_latestDoc {x : Searcher} {link : String} {latest : Doc}
    (h : latestDoc x link (-1) = some latest) : x.Highest link latest.version := by
  have hmem := List.mem_filter.mp (List.argmax_mem h)
  refine ⟨⟨latest, hmem.1, by simpa using hmem.2, rfl⟩, fun d hd hlink => ?_⟩
  exact List.le_of_mem_argmax (f := fun d : Doc => d.version)
    (List.mem_filter.mpr ⟨hd, by simp [hlink]⟩) h

theorem latestDoc_ne_none {x : Searcher} {d : Doc} (hd : d ∈ x.docs) :
    latestDoc x d.link (-1) ≠ none := by
  intro hnone
  have hnil := List.argmax_eq_none.mp hnone
  have hmem : d ∈ ([] : List Doc) := by
    rw [← hnil]
    exact List.mem_filter.mpr ⟨hd, by simp⟩
  cases hmem

theorem includes_iff {q : Call} {d : Doc} {version : Int}
    (h : q.searcher.Highest d.link version) :
    q.includes d version = true ↔
      q.searcher.IsLatest d ∧ (d.isDeleted = true → q.includeDeleted = true) := by
  have hlatest : ¬ d.version < version ↔ q.searcher.IsLatest d := by
    rw [not_lt]
    constructor
    · exact fun hle d' hd' hlink => (h.le d' hd' hlink).trans hle
    · intro hlatest
      obtain ⟨d', hd', hlink, rfl⟩ := h.exists_doc
      exact hlatest d' hd' hlink
  rw [← hlatest]
  cases hdel : d.isDeleted <;> simp [Call.includes, hdel]

theorem LatestOnly.decide (h : LatestOnly s) {q : Call} {d : Doc} {version : Int}
    (hhighest : q.documentsUpdatedBefore = -1 → q.searcher.Highest d.link version) :
    LatestOnly (s.decide q d version) := by
  unfold Shared.decide
  split_ifs with hbefore
  · intro o ho
    rcases List.mem_cons.mp ho with rfl | ho
    · exact includes_iff (hhighest hbefore)
    · exact h o ho
  · exact h

theorem Call.Ok.put {q : Call} (h : q.Ok s) {link : String} {version : Int}
    (hhighest : q.documentsUpdatedBefore = -1 → q.searcher.Highest link version) :
    (q.put link version).Ok s := by
  refine ⟨h.searcher, fun hbefore p hp => ?_⟩
  rcases List.mem_cons.mp hp with rfl | hp
  · exact hhighest hbefore
  · exact h.highest hbefore p hp

theorem decide_eq (s : Shared) (q : Call) (d : Doc) (version : Int) :
    ∃ outcomes, s.decide q d version = { s with outcomes := outcomes } := by
  unfold Shared.decide
  split_ifs
  · exact ⟨_, rfl⟩
  · exact ⟨s.outcomes, rfl⟩

/-- A hit is decided on, and the query goes on. -/
theorem Inv.decide (h : Inv s (t :: ts)) (ht : t.unrecorded = none) {q q' : Call} {d : Doc}
    {version : Int} (hq : q'.Ok s)
    (hhighest : q.documentsUpdatedBefore = -1 → q.searcher.Highest d.link version) :
    Inv (s.decide q d version) ([.process q'] ++ ts) := by
  have houtcomes := h.outcomes.decide hhighest
  obtain ⟨outcomes, hs⟩ := decide_eq s q d version
  rw [hs] at houtcomes ⊢
  have hlater : Later s { s with outcomes := outcomes } := .of_eq le_rfl rfl
  refine h.step hlater (h.core.quiet le_rfl rfl rfl rfl rfl fun he => he) ?_ ?_ houtcomes
  · intro t' ht'
    rw [List.mem_singleton.mp ht']
    exact Call.Ok.later hq hlater
  · intro ds hds
    rwa [ht] at hds

theorem Inv.process {q : Call} {d : Doc} {r : Shared × List Task}
    (h : Inv s (.process q :: ts)) (hok : InOrder s (.process q) (.hit d))
    (hfire : fire s (.process q) (.hit d) = some r) : Inv r.1 (r.2 ++ ts) := by
  have hq : q.Ok s := h.tasks _ List.mem_cons_self
  simp only [fire] at hfire
  split_ifs at hfire with hd
  split at hfire
  · rename_i version hlookup
    cases hfire
    exact h.decide rfl hq fun hbefore => hq.highest hbefore _ (mem_of_lookup hlookup)
  · rename_i hlookup
    split at hfire
    · rename_i version hcached
      cases hfire
      have hhighest : q.documentsUpdatedBefore = -1 → q.searcher.Highest d.link version := by
        intro hbefore
        rw [hbefore] at hcached
        exact highest_of_cachedVersion h.core hq.searcher hd (hok hbefore hlookup) hcached
      exact h.decide rfl (hq.put hhighest) hhighest
    · cases hfire
      refine h.step (.of_eq le_rfl rfl) h.core ?_ (fun hds => hds) h.outcomes
      intro t' ht'
      rw [List.mem_singleton.mp ht']
      exact ⟨hq, hd⟩

theorem Inv.refill {q : Call} {d : Doc} {r : Shared × List Task}
    (h : Inv s (.refill q d :: ts)) (hok : InOrder s (.refill q d) .go)
    (hfire : fire s (.refill q d) .go = some r) : Inv r.1 (r.2 ++ ts) := by
  obtain ⟨hq, hd⟩ := h.tasks _ List.mem_cons_self
  simp only [fire] at hfire
  split at hfire
  · rename_i latest hlatest
    cases hfire
    have hhighest : q.documentsUpdatedBefore = -1 → q.searcher.Highest d.link latest.version := by
      intro hbefore
      rw [hbefore] at hlatest
      exact highest_of_latestDoc hlatest
    have hinv := h.decide rfl (hq.put hhighest) hhighest
    obtain ⟨outcomes, hs⟩ := decide_eq s q d latest.version
    rw [hs] at hinv ⊢
    exact ⟨hinv.core.account (hok latest hlatest), fun t' ht' =>
      (hinv.tasks t' ht').later (.of_eq le_rfl rfl) (hinv.mem_unrecorded ht'), hinv.unrecorded,
      hinv.outcomes⟩
  · rename_i hnone
    split_ifs at hfire with hbefore
    · rw [hbefore] at hnone
      exact absurd hnone (latestDoc_ne_none hd)
    · cases hfire
      exact h.step (.of_eq le_rfl rfl) h.core (by simp) (fun hds => hds) h.outcomes

/-! ## All steps -/

theorem tick_map {f : Shared → Shared × List Task} {time : Int} {r : Shared × List Task}
    (h : (s.tick time).map f = some r) : s.now < time ∧ f { s with now := time } = r := by
  unfold Shared.tick at h
  split_ifs at h with ht
  · exact ⟨ht, Option.some.inj h⟩
  · cases h

theorem Core.tick (h : Core s) {time : Int} (ht : s.now < time) : Core { s with now := time } :=
  h.quiet ht.le rfl rfl rfl rfl fun he => he

/-- A step of a task that does not record a document, in which no searcher is opened. -/
theorem Inv.plain (h : Inv s (t :: ts)) (hnow : s.now ≤ s'.now)
    (hsearchers : s'.searchers = s.searchers) (hcore : Core s') (hnew : ∀ t ∈ new, t.Ok s')
    (ht : t.unrecorded = none) (hnone : new.filterMap Task.unrecorded = [])
    (hunrecorded : s'.unrecorded = s.unrecorded) (houtcomes : s'.outcomes = s.outcomes) :
    Inv s' (new ++ ts) := by
  refine h.step (.of_eq hnow hsearchers) hcore hnew (fun {ds} hds => ?_) ?_
  · rw [hnone, hunrecorded]
    rwa [ht] at hds
  · unfold LatestOnly
    rw [houtcomes]
    exact h.outcomes

theorem Inv.fire {k : Answer} {r : Shared × List Task} (hok : InOrder s t k)
    (hfire : fire s t k = some r) (h : Inv s (t :: ts)) : Inv r.1 (r.2 ++ ts) := by
  have hcore := h.core
  have htask := h.tasks t List.mem_cons_self
  -- a task fires only with the answer that it waits for
  cases t with
  | deleteDocuments u =>
      cases k with
      | go =>
          cases hfire
          exact h.plain le_rfl rfl (hcore.deleteDocuments hok) (by simp [Task.Ok]) rfl rfl rfl rfl
      | _ => cases hfire
  | removeEntry u =>
      cases k with
      | time time =>
          obtain ⟨ht, rfl⟩ := tick_map hfire
          exact h.plain ht.le rfl (hcore.removeLinks [u.link] ht.le rfl rfl rfl rfl rfl)
            (by simp [Task.Ok]) rfl rfl rfl rfl
      | _ => cases hfire
  | stampDelete u =>
      cases k with
      | time time =>
          obtain ⟨ht, rfl⟩ := tick_map hfire
          exact h.plain ht.le rfl (hcore.tick ht) (by simp [Task.Ok]) rfl rfl rfl rfl
      | _ => cases hfire
  | recordDelete u time =>
      cases k with
      | description isImmutable =>
          cases hfire
          refine h.plain le_rfl rfl (hcore.updateCache fun himm => ?_) (by simp [Task.Ok]) rfl rfl
            rfl rfl
          subst himm
          exact hok
      | _ => cases hfire
  | addDocument u =>
      cases k with
      | go =>
          cases hfire
          refine h.step (.of_eq le_rfl rfl) (hcore.addDocument u) (by simp [Task.Ok])
            (fun {ds} hds => ?_) h.outcomes
          exact hds.cons _
      | _ => cases hfire
  | stampUpdate d =>
      cases k with
      | time time =>
          obtain ⟨ht, rfl⟩ := tick_map hfire
          refine h.step (.of_eq ht.le rfl) (hcore.tick ht) (fun t' ht' => ?_) (fun hds => hds)
            h.outcomes
          rw [List.mem_singleton.mp ht']
          -- the searchers so far are older
          exact fun x hx hle => absurd (hcore.past x hx) (not_le.mpr (ht.trans_le hle))
      | _ => cases hfire
  | recordUpdate d time =>
      cases k with
      | go =>
          cases hfire
          -- the document of the task is not recorded yet
          have hd := h.mem_unrecorded List.mem_cons_self d rfl
          refine h.step (.of_eq le_rfl rfl) (hcore.recordUpdate hd htask hok) (by simp)
            (fun {ds} hds => ?_) h.outcomes
          simpa [Task.unrecorded] using hds.erase d
      | _ => cases hfire
  | deleteRange r =>
      cases k with
      | go =>
          cases hfire
          exact h.plain le_rfl rfl (hcore.deleteRange hok) (by simp [Task.Ok]) rfl rfl rfl rfl
      | _ => cases hfire
  | stampRange r =>
      cases k with
      | time time =>
          obtain ⟨ht, rfl⟩ := tick_map hfire
          exact h.plain ht.le rfl (hcore.tick ht) (by simp [Task.Ok]) rfl rfl rfl rfl
      | _ => cases hfire
  | recordRange r time =>
      cases k with
      | description isImmutable =>
          cases hfire
          refine h.plain le_rfl rfl (hcore.updateCache fun himm => ?_) ?_ rfl ?_ rfl rfl
          · subst himm
            exact hok
          · split_ifs <;> simp [Task.Ok]
          · split_ifs <;> rfl
      | _ => cases hfire
  | removeExpired r =>
      cases k with
      | time time =>
          obtain ⟨ht, rfl⟩ := tick_map hfire
          exact h.plain ht.le rfl (hcore.removeLinks [r.link] ht.le rfl rfl rfl rfl rfl) (by simp)
            rfl rfl rfl rfl
      | _ => cases hfire
  | evict =>
      cases k with
      | go =>
          cases hfire
          exact h.plain le_rfl rfl hcore (by simp) rfl rfl rfl rfl
      | detached links time =>
          obtain ⟨ht, rfl⟩ := tick_map hfire
          exact h.plain ht.le rfl (hcore.removeLinks links ht.le rfl rfl rfl rfl rfl) (by simp)
            rfl rfl rfl rfl
      | _ => cases hfire
  | stampSearcher =>
      cases k with
      | time time =>
          obtain ⟨ht, rfl⟩ := tick_map hfire
          exact h.plain ht.le rfl (hcore.tick ht) (by simp [Task.Ok]) rfl rfl rfl rfl
      | _ => cases hfire
  | openReader time =>
      cases k with
      | go =>
          cases hfire
          refine h.step ⟨le_rfl, fun _ => List.mem_cons_of_mem _, fun x hx => ?_⟩
            (hcore.openReader htask) (by simp) (fun hds => hds) h.outcomes
          rcases List.mem_cons.mp hx with rfl | hx
          · exact Or.inr hcore.unrecorded
          · exact Or.inl hx
      | _ => cases hfire
  | query documentsUpdatedBefore includeDeleted =>
      cases k with
      | searcher n =>
          obtain ⟨x, hx, rfl⟩ := Option.map_eq_some_iff.mp hfire
          refine h.plain le_rfl rfl hcore (fun t' ht' => ?_) rfl rfl rfl rfl
          rw [List.mem_singleton.mp ht']
          exact ⟨List.mem_of_getElem? hx, by simp⟩
      | _ => cases hfire
  | process q =>
      cases k with
      | go =>
          cases hfire
          exact h.plain le_rfl rfl hcore (by simp) rfl rfl rfl rfl
      | hit d => exact h.process hok hfire
      | _ => cases hfire
  | refill q d =>
      cases k with
      | go => exact h.refill hok hfire
      | _ => cases hfire

theorem Inv.input (i : Input) (h : Inv s ts) : Inv (input s i).1 ((input s i).2 ++ ts) := by
  have hkeep : ∀ {t : Task}, t.Ok s → t.unrecorded = none → Inv s ([t] ++ ts) := by
    intro t hok hnone
    refine ⟨h.core, ?_, ?_, h.outcomes⟩
    · simpa using ⟨hok, h.tasks⟩
    · simpa [hnone] using h.unrecorded
  cases i with
  | update u =>
      show Inv s ([if u.isForced then .deleteDocuments u else .addDocument u] ++ ts)
      split_ifs
      · exact hkeep trivial rfl
      · exact hkeep trivial rfl
  | delete r => exact hkeep trivial rfl
  | evict => exact hkeep trivial rfl
  | openSearcher => exact hkeep trivial rfl
  | query documentsUpdatedBefore includeDeleted => exact hkeep trivial rfl

end

/-! ## Runs -/

theorem inv_start (now : Int) (versions : List DocVersion) :
    Inv (start now versions).shared (start now versions).tasks where
  core := by
    refine ⟨?_, ?_, ?_, ?_, ?_, fun d hd => ?_, ?_⟩
    case refine_6 =>
      obtain ⟨⟨v, i⟩, hmem, rfl⟩ := List.mem_map.mp hd
      simpa [start] using List.snd_lt_of_mem_zipIdx hmem
    all_goals simp [start]
  tasks := by simp [start]
  unrecorded := .refl _
  outcomes := by simp [LatestOnly, start]

/-- A version of a document that is not deleted. -/
def note (version : Int) : DocVersion :=
  ⟨⟨"/notes/a", some "note", version, false, false⟩, 0, false⟩

end Xenon.Index.Latest
