import Xenon.Index.MetadataPass

/-!
# Queries with and without indexed metadata

Whatever part of the tombstone times has been written, a tombstone is the update time of
the next version, or that of a deleted document itself. So the latest version of a link
has a tombstone only if it is deleted, and a query with `INDEXED_METADATA` has the same
results as one without, unless it asks for deleted documents.
-/

namespace Xenon.Index.Metadata

open Xenon.Foundation Xenon.Lucene Xenon.QueryTask

/-! ## Tombstones -/

/-- A time at which a document was superseded or deleted. -/
def Ended (docs : List Doc) (d : Doc) (time : Int64) : Prop :=
  (∃ e ∈ docs, e.link = d.link ∧ e.version = d.version + 1 ∧ e.updateTime = time) ∨
    (d.isDeleted = true ∧ d.updateTime = time)

/-- What can be relied on in the index: indexing ids identify documents, as do links and
versions, and what is or will be written as a tombstone time is one. -/
structure Consistent (s : System) : Prop where
  versions : (s.docs.map fun d => (d.link, d.version)).Nodup
  ids : (s.docs.map Doc.indexingId).Nodup
  times : ∀ d ∈ s.docs, 0 ≤ d.updateTime
  tombstones : ∀ d ∈ s.docs, d.tombstone = activeDocumentTombstoneTime ∨
    Ended s.docs d d.tombstone
  pending : ∀ u ∈ s.pending, ∀ d ∈ s.docs, d.indexingId = u.indexingId → Ended s.docs d u.time

/-- The indexing id of a new document is not in use. -/
def Distinct (s : System) : Event → Prop
  | .addDocument d =>
      (∀ e ∈ s.docs, e.indexingId ≠ d.indexingId) ∧ ∀ u ∈ s.pending, u.indexingId ≠ d.indexingId
  | .forcedPost d =>
      (∀ e ∈ s.docs, e.link ≠ d.link → e.indexingId ≠ d.indexingId) ∧
        ∀ u ∈ s.pending, u.link ≠ d.link → u.indexingId ≠ d.indexingId
  | _ => True

section

variable {s s' : System}

theorem Ended.mono {docs docs' : List Doc} {d : Doc} {time : Int64} (h : Ended docs d time)
    (hsub : ∀ e ∈ docs, e.link = d.link → e ∈ docs') : Ended docs' d time := by
  rcases h with ⟨e, he, hlink, hnext⟩ | hdeleted
  · exact Or.inl ⟨e, hsub e he hlink, hlink, hnext⟩
  · exact Or.inr hdeleted

theorem Consistent.addDocument (h : Consistent s) {d : Doc} (htime : 0 ≤ d.updateTime)
    (hnew : ∀ e ∈ s.docs, ¬ (e.link = d.link ∧ e.version = d.version))
    (hdocs : ∀ e ∈ s.docs, e.indexingId ≠ d.indexingId)
    (hpending : ∀ u ∈ s.pending, u.indexingId ≠ d.indexingId) :
    Consistent (s.addDocument d) := by
  have hid : Doc.indexingId { d with tombstone := activeDocumentTombstoneTime } = d.indexingId :=
    rfl
  have hsub : ∀ {t : Int64} {e : Doc}, Ended s.docs e t → Ended (s.addDocument d).docs e t :=
    fun hended => hended.mono fun _ he _ => List.mem_append_left _ he
  refine ⟨?_, ?_, ?_, ?_, ?_⟩
  · unfold System.addDocument
    rw [List.map_append, List.nodup_append]
    refine ⟨h.versions, List.nodup_singleton _, fun p hp p' hp' heq => ?_⟩
    obtain ⟨e, he, rfl⟩ := List.mem_map.mp hp
    obtain rfl := List.mem_singleton.mp hp'
    exact hnew e he ⟨(Prod.mk.inj heq).1, (Prod.mk.inj heq).2⟩
  · unfold System.addDocument
    rw [List.map_append, List.nodup_append]
    refine ⟨h.ids, List.nodup_singleton _, fun p hp p' hp' heq => ?_⟩
    obtain ⟨e, he, rfl⟩ := List.mem_map.mp hp
    obtain rfl := List.mem_singleton.mp hp'
    exact hdocs e he heq
  · intro e he
    rcases List.mem_append.mp he with he | he
    · exact h.times e he
    · obtain rfl := List.mem_singleton.mp he
      exact htime
  · intro e he
    rcases List.mem_append.mp he with he | he
    · exact (h.tombstones e he).imp_right hsub
    · obtain rfl := List.mem_singleton.mp he
      exact Or.inl rfl
  · intro u hu e he heq
    rcases List.mem_append.mp he with he | he
    · exact hsub (h.pending u hu e he heq)
    · obtain rfl := List.mem_singleton.mp he
      exact absurd (heq.symm.trans hid) (hpending u hu)

/-- What is left after the deletion of a link. -/
theorem Consistent.deleteAll (h : Consistent s) (link : String) :
    Consistent (s.deleteAll link) := by
  have hmem : ∀ {e : Doc}, e ∈ (s.deleteAll link).docs ↔ e ∈ s.docs ∧ e.link ≠ link := by
    intro e
    simp [System.deleteAll]
  have hsub : ∀ {t : Int64} {e : Doc}, e.link ≠ link → Ended s.docs e t →
      Ended (s.deleteAll link).docs e t :=
    fun hlink hended => hended.mono fun e' he' heq => hmem.mpr ⟨he', by rwa [heq]⟩
  refine ⟨h.versions.sublist (List.filter_sublist.map _), h.ids.sublist (List.filter_sublist.map _),
    fun e he => h.times e (hmem.mp he).1, fun e he => ?_, fun u hu e he heq => ?_⟩
  · obtain ⟨he, hlink⟩ := hmem.mp he
    exact (h.tombstones e he).imp_right (hsub hlink)
  · obtain ⟨he, hlink⟩ := hmem.mp he
    exact hsub hlink (h.pending u (List.mem_filter.mp hu).1 e he heq)

/-- A right update, by what a searcher has. -/
def EndedUpdate (searcher : List Doc) (link : String) (u : TombstoneUpdate) : Prop :=
  ∃ d ∈ searcher, d.link = link ∧ d.indexingId = u.indexingId ∧
    ∃ e ∈ searcher, e.link = link ∧ e.updateTime = u.time ∧
      (e.version = d.version + 1 ∨ e.version = d.version ∧
        ∃ highest ∈ searcher, highest.link = link ∧ highest.version = d.version ∧
          highest.isDeleted = true)

theorem Pass.Reads.endedUpdate {searcher : List Doc} {link : String} {visited : List Doc} {p : Pass}
    (h : p.Reads searcher link visited) {u : TombstoneUpdate} (hu : u ∈ p.updatesOf link) :
    EndedUpdate searcher link u := by
  obtain ⟨d, hd, hmap⟩ := List.mem_filterMap.mp hu
  obtain ⟨time, htime, rfl⟩ := Option.map_eq_some_iff.mp hmap
  obtain ⟨hsearcher, hlink⟩ := h.mem d hd
  refine ⟨d, hsearcher, hlink, rfl, ?_⟩
  rcases tombstoneTime_eq_some htime with ⟨hversion, hdeleted, e, he, heversion, hetime⟩ |
    ⟨e, he, heversion, hetime⟩
  · obtain ⟨highest, hhighest, hhversion, hhdeleted⟩ := h.highest.exists_deleted hdeleted
    obtain ⟨hhsearcher, hhlink⟩ := h.mem highest (h.read highest hhighest)
    exact ⟨e, (h.mem e he).1, (h.mem e he).2, hetime,
      .inr ⟨heversion, highest, hhsearcher, hhlink, by omega, hhdeleted⟩⟩
  · exact ⟨e, (h.mem e he).1, (h.mem e he).2, hetime, .inl heversion⟩

/-- The updates that maintenance finds are right. -/
theorem ended_of_mem_update {searcher : List Doc} {link : String} {u : TombstoneUpdate}
    (h : u ∈ applyMetadataIndexingUpdate searcher link) : EndedUpdate searcher link u := by
  obtain ⟨n, p, -, -, -, hupdates, heq⟩ := pass_rule searcher link
    (P := fun _ p => ∀ u ∈ p.updates, EndedUpdate searcher link u) (by simp [Pass.start])
    fun k p after _ _ _ hreads hp u hu => by
      rw [next_updates] at hu
      rcases List.mem_append.mp hu with hu | hu
      · exact hp u hu
      · exact hreads.endedUpdate hu
  rw [heq] at h
  exact hupdates u h

/-- Links and versions identify documents. -/
theorem Consistent.eq_of_version (h : Consistent s) {d e : Doc} (hd : d ∈ s.docs) (he : e ∈ s.docs)
    (hlink : e.link = d.link) (hversion : e.version = d.version) : e = d :=
  List.inj_on_of_nodup_map h.versions he hd (Prod.ext hlink hversion)

/-- A searcher has documents of the index, but for their tombstones. -/
theorem mem_searcher {view : List (Nat × Int64)} {d : Doc} (h : d ∈ s.searcher view) :
    ∃ d' ∈ s.docs, d.link = d'.link ∧ d.version = d'.version ∧ d.indexingId = d'.indexingId ∧
      d.updateTime = d'.updateTime ∧ d.isDeleted = d'.isDeleted := by
  obtain ⟨⟨n, tombstone⟩, -, hmap⟩ := List.mem_filterMap.mp h
  obtain ⟨d', hd', rfl⟩ := Option.map_eq_some_iff.mp hmap
  exact ⟨d', List.mem_of_getElem? hd', rfl, rfl, rfl, rfl, rfl⟩

theorem Consistent.maintain (h : Consistent s) {link : String} {view : List (Nat × Int64)}
    (hstep : step s (.maintain link view) = some s') : Consistent s' := by
  obtain rfl := Option.some.inj hstep
  refine ⟨h.versions, h.ids, h.times, h.tombstones, fun u hu d hd hid => ?_⟩
  rcases List.mem_append.mp hu with hu | hu
  · exact h.pending u hu d hd hid
  · obtain ⟨x, hx, hxlink, hxid, y, hy, hylink, hytime, hcase⟩ := ended_of_mem_update hu
    obtain ⟨d', hd', hlink', hversion', hid', -, -⟩ := mem_searcher hx
    obtain ⟨e, he, helink, heversion, -, hetime, -⟩ := mem_searcher hy
    obtain rfl := List.inj_on_of_nodup_map h.ids hd hd' (hid.trans (hxid.symm.trans hid'))
    have hlink : e.link = d.link :=
      helink.symm.trans (hylink.trans (hxlink.symm.trans hlink'))
    have htime : e.updateTime = u.time := hetime.symm.trans hytime
    rcases hcase with hnext | ⟨hsame, z, hz, hzlink, hzversion, hzdeleted⟩
    · exact Or.inl ⟨e, he, hlink, by omega, htime⟩
    · obtain ⟨highest, hhighest, hhlink, hhversion, -, -, hhdeleted⟩ := mem_searcher hz
      obtain rfl := h.eq_of_version hd he hlink (by omega)
      obtain rfl := h.eq_of_version hd hhighest
        (hhlink.symm.trans (hzlink.trans (hxlink.symm.trans hlink'))) (by omega)
      exact Or.inr ⟨hhdeleted.symm.trans hzdeleted, htime⟩

/-! ## Writing a tombstone -/

@[simp] theorem setTombstone_link (id : String) (time : Int64) (d : Doc) :
    (d.setTombstone id time).link = d.link := by
  unfold Doc.setTombstone
  split <;> rfl

@[simp] theorem setTombstone_version (id : String) (time : Int64) (d : Doc) :
    (d.setTombstone id time).version = d.version := by
  unfold Doc.setTombstone
  split <;> rfl

@[simp] theorem setTombstone_updateTime (id : String) (time : Int64) (d : Doc) :
    (d.setTombstone id time).updateTime = d.updateTime := by
  unfold Doc.setTombstone
  split <;> rfl

@[simp] theorem setTombstone_isDeleted (id : String) (time : Int64) (d : Doc) :
    (d.setTombstone id time).isDeleted = d.isDeleted := by
  unfold Doc.setTombstone
  split <;> rfl

@[simp] theorem setTombstone_indexingId (id : String) (time : Int64) (d : Doc) :
    (d.setTombstone id time).indexingId = d.indexingId := by
  unfold Doc.setTombstone
  split <;> rfl

theorem ended_setTombstone {docs : List Doc} {d : Doc} {t : Int64} {id : String} {time : Int64} :
    Ended (docs.map (Doc.setTombstone id time)) (d.setTombstone id time) t ↔ Ended docs d t := by
  simp [Ended]

theorem Consistent.updateTombstoneTime (h : Consistent s) {n : Nat}
    (hstep : step s (.updateTombstoneTime n) = some s') : Consistent s' := by
  simp only [step] at hstep
  split at hstep
  · cases hstep
  · rename_i u hu
    obtain rfl := Option.some.inj hstep
    have hmem : u ∈ s.pending := List.mem_of_getElem? hu
    refine ⟨?_, ?_, ?_, ?_, ?_⟩
    · simpa [Function.comp_def] using h.versions
    · simpa [Function.comp_def] using h.ids
    · intro x hx
      obtain ⟨d, hd, rfl⟩ := List.mem_map.mp hx
      simpa using h.times d hd
    · intro x hx
      obtain ⟨d, hd, rfl⟩ := List.mem_map.mp hx
      rw [ended_setTombstone]
      by_cases hid : d.indexingId = u.indexingId
      · right
        rw [Doc.setTombstone, if_pos hid]
        exact h.pending u hmem d hd hid
      · rw [Doc.setTombstone, if_neg hid]
        exact h.tombstones d hd
    · intro v hv x hx hid
      obtain ⟨d, hd, rfl⟩ := List.mem_map.mp hx
      rw [setTombstone_indexingId] at hid
      exact ended_setTombstone.mpr (h.pending v (List.mem_of_mem_eraseIdx hv) d hd hid)

theorem Consistent.step {e : Event} (h : Consistent s) (hdistinct : Distinct s e)
    (hstep : step s e = some s') : Consistent s' := by
  cases e with
  | addDocument d =>
      simp only [Metadata.step] at hstep
      split at hstep
      next hguard =>
        obtain rfl := Option.some.inj hstep
        exact h.addDocument hguard.1 hguard.2 hdistinct.1 hdistinct.2
      next => cases hstep
  | forcedPost d =>
      simp only [Metadata.step] at hstep
      split at hstep
      next htime =>
        obtain rfl := Option.some.inj hstep
        refine (h.deleteAll d.link).addDocument htime (fun e he heq => ?_) (fun e he => ?_)
          fun u hu => ?_
        · have he := (List.mem_filter.mp he).2
          exact of_decide_eq_true he heq.1
        · have he := List.mem_filter.mp he
          exact hdistinct.1 e he.1 (of_decide_eq_true he.2)
        · have hu := List.mem_filter.mp hu
          exact hdistinct.2 u hu.1 (of_decide_eq_true hu.2)
      next => cases hstep
  | maintain link versions => exact h.maintain hstep
  | updateTombstoneTime n => exact h.updateTombstoneTime hstep

theorem consistent_start : Consistent start where
  versions := List.nodup_nil
  ids := List.nodup_nil
  times := by simp [start]
  tombstones := by simp [start]
  pending := by simp [start]

end

/-! ## The results of a query -/

/-- A document of the latest version of its link. -/
def IndexQuery.IsCurrent (q : IndexQuery) (docs : List Doc) (d : Doc) : Prop :=
  ¬ d.version < latestVersion docs q.documentsUpdatedBefore d

/-- The clauses on the tombstone time. -/
def IndexQuery.Passes (q : IndexQuery) (d : Doc) : Prop :=
  match q.timeSnapshotBoundaryMicros with
  | none => d.tombstone = activeDocumentTombstoneTime
  | some boundary => q.hasSortTerm = true ∨ boundary ≤ d.tombstone

section

variable {q : IndexQuery} {s : System} {docs : List Doc} {d e : Doc}

theorem le_latestVersion (he : e ∈ docs) (hlink : e.link = d.link)
    (hscope : inScope q.documentsUpdatedBefore e = true) :
    e.version ≤ latestVersion docs q.documentsUpdatedBefore d := by
  have hmem : e ∈ docs.filter fun x =>
      x.link = d.link && inScope q.documentsUpdatedBefore x := by
    rw [List.mem_filter, Bool.and_eq_true, decide_eq_true_eq]
    exact ⟨he, hlink, hscope⟩
  unfold latestVersion
  cases hlatest : latestDoc docs d.link q.documentsUpdatedBefore with
  | none =>
      rw [List.argmax_eq_none.mp hlatest] at hmem
      cases hmem
  | some latest =>
      exact List.le_of_mem_argmax (f := fun d : Doc => d.version) hmem hlatest

/-- No document in the scope of a query has a higher version than a current one. -/
theorem IndexQuery.IsCurrent.le (h : q.IsCurrent docs d) (he : e ∈ docs) (hlink : e.link = d.link)
    (hscope : inScope q.documentsUpdatedBefore e = true) : e.version ≤ d.version :=
  (le_latestVersion he hlink hscope).trans (Nat.le_of_not_lt h)

/-- The links of the results, where a link has at most one current hit. -/
theorem mem_processQueryResults {hits : List Doc} {link : String}
    (hunique : ∀ d ∈ hits, ∀ e ∈ hits, q.IsCurrent docs d → q.IsCurrent docs e →
      e.link = d.link → e = d) :
    link ∈ q.processQueryResults docs hits ↔ ∃ d ∈ hits, d.link = link ∧ q.IsCurrent docs d ∧
      (d.isDeleted = true → q.includeDeleted = true) := by
  induction hits using List.reverseRecOn with
  | nil => simp [IndexQuery.processQueryResults]
  | append_singleton hits x ih =>
      have ih := ih fun d hd e he =>
        hunique d (List.mem_append_left _ hd) e (List.mem_append_left _ he)
      have hstep : q.processQueryResults docs (hits ++ [x]) =
          q.processHit docs (q.processQueryResults docs hits) x := by
        unfold IndexQuery.processQueryResults
        rw [List.foldl_append]
        rfl
      have hsplit : (∃ d ∈ hits ++ [x], d.link = link ∧ q.IsCurrent docs d ∧
          (d.isDeleted = true → q.includeDeleted = true)) ↔
          (∃ d ∈ hits, d.link = link ∧ q.IsCurrent docs d ∧
            (d.isDeleted = true → q.includeDeleted = true)) ∨
          (x.link = link ∧ q.IsCurrent docs x ∧
            (x.isDeleted = true → q.includeDeleted = true)) := by
        simp only [List.mem_append, List.mem_singleton, or_and_right, exists_or, exists_eq_left]
      rw [hstep, hsplit, ← ih, IndexQuery.processHit]
      split
      next hold => simp [IndexQuery.IsCurrent, hold]
      next hcurrent =>
        split
        next hdeleted =>
          rw [Bool.and_eq_true, Bool.not_eq_true'] at hdeleted
          rw [Finset.mem_erase]
          constructor
          · exact fun hmem => Or.inl hmem.2
          · rintro (hmem | ⟨-, -, hinclude⟩)
            · refine ⟨fun hlink => ?_, hmem⟩
              -- an earlier current hit of the link would be this one
              obtain ⟨d, hd, hdlink, hd', hinclude⟩ := ih.mp hmem
              obtain rfl := hunique d (List.mem_append_left _ hd) x (by simp) hd' hcurrent
                (hlink.symm.trans hdlink.symm)
              exact absurd (hinclude hdeleted.1) (by simp [hdeleted.2])
            · exact absurd (hinclude hdeleted.1) (by simp [hdeleted.2])
        next hkept =>
          have hinclude : x.isDeleted = true → q.includeDeleted = true := by
            intro hdeleted
            simpa [hdeleted] using hkept
          rw [Finset.mem_insert]
          constructor
          · rintro (rfl | hmem)
            · exact Or.inr ⟨rfl, hcurrent, hinclude⟩
            · exact Or.inl hmem
          · rintro (hmem | ⟨rfl, -⟩)
            · exact Or.inr hmem
            · exact Or.inl rfl

/-! ## Hits -/

/-- What a query matches is in the scope of its lookups. -/
theorem inScope_of_matches {indexedMetadata : Bool} {native : NativeQuery}
    (hnative : q.native indexedMetadata = .ok (some native))
    (hmatch : native.matches d.indexed = true) :
    inScope q.documentsUpdatedBefore d = true := by
  obtain ⟨rest, rfl, -⟩ := updateQuery_eq_some hnative
  rw [matches_boolean ⟨(.filter, snapshotQuery q.timeSnapshotBoundaryMicros q.query), by simp,
    by simp⟩] at hmatch
  have hquery := hmatch (.filter, snapshotQuery q.timeSnapshotBoundaryMicros q.query) (by simp)
  unfold inScope IndexQuery.documentsUpdatedBefore
  cases hboundary : q.timeSnapshotBoundaryMicros with
  | none => rfl
  | some boundary =>
      have hquery : (snapshotQuery (some boundary) q.query).matches d.indexed = true := by
        simpa [hboundary, Occur.allows] using hquery
      rw [snapshotQuery, matches_boolean ⟨_, List.mem_cons_self, by simp⟩] at hquery
      have htime : between 0 boundary d.updateTime = true := by
        simpa [Occur.allows, NativeQuery.matches, Doc.indexed] using hquery _ List.mem_cons_self
      simp [htime]

theorem between_active {lower t : Int64} :
    between lower activeDocumentTombstoneTime t = true ↔ lower ≤ t := by
  have hle : t ≤ activeDocumentTombstoneTime := Int64.le_iff_toInt_le.mpr t.toInt_le
  simp [between, hle]

/-- The clauses of `INDEXED_METADATA`. -/
theorem metadataClauses_allow (q : IndexQuery) (d : Doc) :
    (∀ c ∈ metadataClauses (some ⟨q.hasSortTerm, q.timeSnapshotBoundaryMicros.getD 0⟩)
        ⟨true, false, q.includeDeleted, q.timeSnapshotBoundaryMicros.isSome⟩,
      c.1.allows (c.2.matches d.indexed) = true) ↔ q.Passes d := by
  have htombstone : d.indexed.numericDocValues fieldNameTombstoneTime = some d.tombstone := by
    simp [Doc.indexed]
  unfold IndexQuery.Passes
  cases q.timeSnapshotBoundaryMicros with
  | none =>
      have hle : d.tombstone ≤ activeDocumentTombstoneTime :=
        Int64.le_iff_toInt_le.mpr d.tombstone.toInt_le
      simp [metadataClauses, Occur.allows, NativeQuery.matches, htombstone, between_active,
        Int64.le_antisymm_iff, hle]
  | some boundary =>
      cases q.hasSortTerm <;>
        simp [metadataClauses, Occur.allows, NativeQuery.matches, htombstone, between_active]

/-- A current document that is not deleted passes the clauses. -/
theorem Consistent.passes (h : Consistent s) (hd : d ∈ s.docs) (hcurrent : q.IsCurrent s.docs d)
    (hlive : d.isDeleted = false) : q.Passes d := by
  unfold IndexQuery.Passes
  rcases h.tombstones d hd with hactive | ⟨e, he, hlink, hversion, htime⟩ | ⟨hdeleted, -⟩
  · cases q.timeSnapshotBoundaryMicros with
    | none => exact hactive
    | some boundary =>
        right
        rw [hactive]
        exact Int64.le_iff_toInt_le.mpr boundary.toInt_le
  · -- the next version is not in the scope of the query, so it came after the boundary
    have hscope : inScope q.documentsUpdatedBefore e = false := by
      by_contra hscope
      have hle := hcurrent.le he hlink (by simpa using hscope)
      omega
    have hpos := h.times e he
    unfold inScope IndexQuery.documentsUpdatedBefore at hscope
    cases hboundary : q.timeSnapshotBoundaryMicros with
    | none =>
        rw [hboundary] at hscope
        simp at hscope
    | some boundary =>
        right
        rw [hboundary, Option.getD_some, Bool.or_eq_false_iff, between] at hscope
        have hlt : boundary < e.updateTime := by
          simpa [hpos] using hscope.2
        rw [← htime]
        exact Int64.le_of_lt hlt
  · rw [hlive] at hdeleted
    cases hdeleted

/-- A link has one current document that a query can match. -/
theorem Consistent.current_unique (h : Consistent s) (hd : d ∈ s.docs) (he : e ∈ s.docs)
    (hdscope : inScope q.documentsUpdatedBefore d = true)
    (hescope : inScope q.documentsUpdatedBefore e = true) (hdc : q.IsCurrent s.docs d)
    (hec : q.IsCurrent s.docs e) (hlink : e.link = d.link) : e = d :=
  h.eq_of_version hd he hlink
    (le_antisymm (hdc.le he hlink hescope) (hec.le hd hlink.symm hdscope))

end

/-- The links that a query returns, by the documents that it matches. -/
theorem Consistent.mem_results {s : System} (h : Consistent s) {q : IndexQuery}
    {indexedMetadata : Bool} {native : NativeQuery}
    (hnative : q.native indexedMetadata = .ok (some native)) (link : String) :
    link ∈ q.processQueryResults s.docs (s.docs.filter fun d => native.matches d.indexed) ↔
      ∃ d ∈ s.docs, native.matches d.indexed = true ∧ d.link = link ∧ q.IsCurrent s.docs d ∧
        (d.isDeleted = true → q.includeDeleted = true) := by
  rw [mem_processQueryResults]
  · simp only [List.mem_filter, and_assoc]
  · intro d hd e he hdc hec hlink
    have hd := List.mem_filter.mp hd
    have he := List.mem_filter.mp he
    exact h.current_unique hd.1 he.1 (inScope_of_matches hnative hd.2)
      (inScope_of_matches hnative he.2) hdc hec hlink

/-- Every deleted document that the query returns without `INDEXED_METADATA` passes the clauses
on the tombstone time. -/
def DeletedPass (q : IndexQuery) (docs : List Doc) : Prop :=
  q.includeDeleted = true → ∀ plain, q.native false = .ok (some plain) →
    ∀ d ∈ docs, plain.matches d.indexed = true → q.IsCurrent docs d → d.isDeleted = true →
      q.Passes d

/-- In every state that the index reaches with distinct indexing ids, and whatever tombstones
have been written, a query has the same results with `INDEXED_METADATA` as without just if the
deleted documents that it asks for have no tombstone that keeps them out. -/
theorem indexed_metadata_agrees_iff (es : List Event) (s : System)
    (h : Reach step Distinct start es s) (q : IndexQuery) :
    q.queryIndex true s.docs = q.queryIndex false s.docs ↔ DeletedPass q s.docs := by
  have hs : Consistent s :=
    h.invariant Consistent consistent_start fun hdistinct hstep hs => hs.step hdistinct hstep
  by_cases hsome : ∃ plain, q.native false = .ok (some plain)
  · obtain ⟨plain, hplain⟩ := hsome
    obtain ⟨rest, -, hother⟩ := updateQuery_eq_some hplain
    obtain ⟨indexed, hindexed⟩ : ∃ indexed, q.native true = .ok (some indexed) := ⟨_, hother _⟩
    -- the option adds one clause to the query
    have hmatches : ∀ d : Doc, indexed.matches d.indexed = true ↔
        plain.matches d.indexed = true ∧ q.Passes d := by
      intro d
      rw [matches_metadataClauses rfl hindexed hplain, metadataClauses_allow]
    have hresults : q.queryIndex true s.docs = q.queryIndex false s.docs ↔
        ∀ link, (∃ d ∈ s.docs, indexed.matches d.indexed = true ∧ d.link = link ∧
          q.IsCurrent s.docs d ∧ (d.isDeleted = true → q.includeDeleted = true)) ↔
          ∃ d ∈ s.docs, plain.matches d.indexed = true ∧ d.link = link ∧
            q.IsCurrent s.docs d ∧ (d.isDeleted = true → q.includeDeleted = true) := by
      unfold IndexQuery.queryIndex
      rw [hindexed, hplain]
      show Except.ok _ = Except.ok _ ↔ _
      rw [Except.ok.injEq, Finset.ext_iff]
      exact forall_congr' fun link => by rw [hs.mem_results hindexed, hs.mem_results hplain]
    rw [hresults]
    constructor
    · intro heq hinclude plain' hplain' d hd hmatch hcurrent hdeleted
      obtain rfl := Option.some.inj (Except.ok.inj (hplain.symm.trans hplain'))
      obtain ⟨e, he, hematch, helink, hecurrent, -⟩ :=
        (heq d.link).mpr ⟨d, hd, hmatch, rfl, hcurrent, fun _ => hinclude⟩
      obtain rfl := hs.current_unique hd he (inScope_of_matches hplain hmatch)
        (inScope_of_matches hindexed hematch) hcurrent hecurrent helink
      exact ((hmatches e).mp hematch).2
    · intro hpass link
      constructor
      · rintro ⟨d, hd, hmatch, hrest⟩
        exact ⟨d, hd, ((hmatches d).mp hmatch).1, hrest⟩
      · rintro ⟨d, hd, hmatch, hlink, hcurrent, hinclude⟩
        refine ⟨d, hd, (hmatches d).mpr ⟨hmatch, ?_⟩, hlink, hcurrent, hinclude⟩
        cases hdeleted : d.isDeleted with
        | false => exact hs.passes hd hcurrent hdeleted
        | true => exact hpass (hinclude hdeleted) plain hplain d hd hmatch hcurrent hdeleted
  · -- no query is executed, with or without the option
    have hnone : ∀ plain, q.native false ≠ .ok (some plain) := by
      intro plain hplain
      exact hsome ⟨plain, hplain⟩
    have hsame : q.native true = q.native false := updateQuery_eq_of_ne_some hnone _
    refine iff_of_true ?_ fun _ plain hplain => absurd hplain (hnone plain)
    unfold IndexQuery.queryIndex
    rw [hsame]

/-! ## A deleted document -/

section

instance (s : System) : ∀ e : Event, Decidable (Distinct s e)
  | .addDocument d => inferInstanceAs (Decidable
      ((∀ e ∈ s.docs, e.indexingId ≠ d.indexingId) ∧
        ∀ u ∈ s.pending, u.indexingId ≠ d.indexingId))
  | .forcedPost d => inferInstanceAs (Decidable
      ((∀ e ∈ s.docs, e.link ≠ d.link → e.indexingId ≠ d.indexingId) ∧
        ∀ u ∈ s.pending, u.link ≠ d.link → u.indexingId ≠ d.indexingId))
  | .maintain _ _ | .updateTombstoneTime _ => isTrue trivial

/-- A version of a document. -/
def note (version : Nat) (updateTime : Int64) (isDeleted : Bool) : Doc where
  link := "/notes/a"
  epoch := none
  version := version
  updateTime := updateTime
  isDeleted := isDeleted
  tombstone := activeDocumentTombstoneTime
  content := ⟨⟨fun _ => [], fun _ => [], fun _ => []⟩, fun _ => none, fun _ => none⟩

/-- The document is created and deleted, and both its tombstones are written. -/
def createdAndDeleted : List Event :=
  [.addDocument (note 0 1 false), .addDocument (note 1 2 true), 
    .maintain "/notes/a" [(0, activeDocumentTombstoneTime), (1, activeDocumentTombstoneTime)],
    .updateTombstoneTime 0, .updateTombstoneTime 0]

/-- All documents, on a host without authorization. -/
def allNotes (includeDeleted : Bool) : IndexQuery where
  settings := ⟨false, 1024⟩
  ctx := none
  query := .leaf ⟨some "documentSelfLink", some "*", some .wildcard, none⟩ .matchAllDocsQuery
  now := 1000
  timeSnapshotBoundaryMicros := none
  hasSortTerm := false
  includeDeleted := includeDeleted

theorem indexed_metadata_agrees_not_deleted : ∃ s : System, s.docs.length = 2 ∧
    (allNotes false).queryIndex true s.docs = (allNotes false).queryIndex false s.docs := by
  obtain ⟨s, hs, hdocs⟩ : ∃ s, exec (fun s e => if Distinct s e then step s e else none) start
      createdAndDeleted = some s ∧ s.docs.length = 2 := ⟨_, rfl, rfl⟩
  refine ⟨s, hdocs, (indexed_metadata_agrees_iff _ s (reach_of_exec hs) (allNotes false)).mpr ?_⟩
  intro hinclude
  cases hinclude

/-- Deleted documents are asked for: the one that is there is returned without
`INDEXED_METADATA` only. -/
theorem indexed_metadata_drops_deleted : ¬ ∀ (es : List Event) (s : System),
    Reach step Distinct start es s → ∀ q : IndexQuery,
      q.queryIndex true s.docs = q.queryIndex false s.docs := by
  intro h
  obtain ⟨s, hs, hindexed, hplain⟩ : ∃ s, exec (fun s e => if Distinct s e then step s e else none)
      start createdAndDeleted = some s ∧
      (allNotes true).queryIndex true s.docs = .ok ∅ ∧
      (allNotes true).queryIndex false s.docs = .ok {"/notes/a"} := ⟨_, rfl, by decide, by decide⟩
  have hsame := h _ s (reach_of_exec hs) (allNotes true)
  rw [hindexed, hplain] at hsame
  exact absurd (Except.ok.inj hsame) (by decide)

end

end Xenon.Index.Metadata
