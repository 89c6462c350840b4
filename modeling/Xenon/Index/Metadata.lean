import Mathlib.Data.List.MinMax
import Xenon.Index.NativeQuery

/-!
# Indexed metadata

A document of a service with `INDEX_METADATA` has a tombstone time: the time at which
it was superseded by the next version or deleted, and the greatest time as long as it
is neither. Tombstone times are written by maintenance, behind the updates, and by the
indexing ids of the documents. With `INDEXED_METADATA` a query leaves out what has a
tombstone; without it, the same documents are left out when the hits are processed.
-/

namespace Xenon.Index.Metadata

open Xenon.Foundation Xenon.Lucene Xenon.QueryTask

/-! ## Documents -/

/-- A document in the index. -/
structure Doc where
  link : String
  epoch : Option Int
  version : Nat
  updateTime : Int64
  isDeleted : Bool
  tombstone : Int64
  content : IndexedDocument

/-- `addIndexingIdField`. -/
def Doc.indexingId (d : Doc) : String :=
  d.link ++ (match d.epoch with
    | none => ""
    | some epoch => ":" ++ toString epoch) ++ ":" ++ toString d.version

/-- The document as a query sees it. -/
def Doc.indexed (d : Doc) : IndexedDocument :=
  { d.content with
    longs := Function.update d.content.longs fieldNameUpdateTimeMicros [d.updateTime]
    numericDocValues := Function.update d.content.numericDocValues fieldNameTombstoneTime
      (some d.tombstone) }

/-- `updateNumericDocValue`, for the documents with an indexing id. -/
def Doc.setTombstone (indexingId : String) (time : Int64) (d : Doc) : Doc :=
  if d.indexingId = indexingId then { d with tombstone := time } else d

/-! ## `applyMetadataIndexingUpdate` -/

/-- A write of a tombstone time. -/
structure TombstoneUpdate where
  link : String
  indexingId : String
  time : Int64
deriving DecidableEq

/-- `searchAfter`, over the documents of a searcher in the order of their ids. The queries of a
pass score all documents of a link alike, so their hits come in this order. -/
def searchAfter (searcher : List Doc) (after : Option Nat) (query : Doc → Bool) (pageSize : Nat) :
    List (Doc × Nat) :=
  (searcher.zipIdx.filter fun hit => query hit.1 && after.all (· < hit.2)).take pageSize

/-- The variables of the loop over the pages. `versionToDocs` has the values of
`versionToDocsMap`, in the order in which they are put there; `isDeleted` says that
`lastUpdateAction` is `DELETE`. -/
structure Pass where
  after : Option Nat
  highestVersion : Int
  isDeleted : Bool
  versionToDocs : List Doc
  updates : List TombstoneUpdate

def Pass.start : Pass := ⟨none, -1, false, [], []⟩

/-- The body of the loop over the documents of a page. -/
def Pass.visit (s : Pass) (d : Doc) : Pass :=
  let s := { s with versionToDocs := s.versionToDocs ++ [d] }
  if (d.version : Int) > s.highestVersion then
    { s with highestVersion := d.version, isDeleted := d.isDeleted }
  else s

/-- The next version of a version that is there, and is not the highest. -/
def Pass.isMissing (s : Pass) (version : Nat) : Bool :=
  (s.versionToDocs.all fun d => d.version ≠ version) &&
    s.versionToDocs.any fun d => (d.version : Int) ≠ s.highestVersion && d.version + 1 = version

/-- The time with which the tombstone of a version is updated. The highest version gets one if it
is deleted, the others if their next version is there. The check of the tombstone time that
is in the code never skips a document: the field is not a stored one, so a visitor
has the time of an active document for all of them. -/
def Pass.tombstoneTime (s : Pass) (version : Nat) : Option Int64 :=
  if (version : Int) = s.highestVersion then
    if s.isDeleted then
      (s.versionToDocs.find? fun d => d.version = version).map fun d => d.updateTime
    else none
  else (s.versionToDocs.find? fun d => d.version = version + 1).map fun d => d.updateTime

section

variable (pageSize : Nat) (searcher : List Doc) (link : String)

/-- The missing versions that a page leads to. The query for them starts where that for the
page did. -/
def Pass.missing (s : Pass) : List Doc :=
  (searchAfter searcher s.after (fun d => d.link = link && s.isMissing d.version) pageSize).map
    fun hit => hit.1

def Pass.updatesOf (s : Pass) : List TombstoneUpdate :=
  s.versionToDocs.filterMap fun d =>
    (s.tombstoneTime d.version).map fun time => ⟨link, d.indexingId, time⟩

/-- What is done for a page. -/
def Pass.page (s : Pass) (docs : List Doc) : Pass :=
  let s := docs.foldl Pass.visit s
  let s := { s with versionToDocs := s.versionToDocs ++ s.missing pageSize searcher link }
  { s with updates := s.updates ++ s.updatesOf link }

/-- The loop over the pages of documents without a tombstone. The fuel bounds their number. -/
def Pass.loop : Nat → Pass → List TombstoneUpdate
  | 0, s => s.updates
  | fuel + 1, s =>
      let results := searchAfter searcher s.after
        (fun d => d.link = link && d.tombstone = activeDocumentTombstoneTime) pageSize
      match results.getLast? with
      | none => s.updates
      | some last =>
          let s := s.page pageSize searcher link (results.map fun hit => hit.1)
          if results.length < pageSize then s.updates
          else loop fuel { s with after := some last.2 }

end

/-- The size of the pages of `applyMetadataIndexingUpdate`. -/
def metadataPageSize : Nat := 10000

/-- The tombstone updates of a link, over the documents of a searcher. -/
def applyMetadataIndexingUpdate (searcher : List Doc) (link : String) : List TombstoneUpdate :=
  Pass.start.loop metadataPageSize searcher link (searcher.length + 1)

/-! ## The index -/

/-- The documents, and the tombstone times that are still to be written. -/
structure System where
  docs : List Doc
  pending : List TombstoneUpdate

/-- What happens to the index: a version is added; a link is created anew, with
`FORCE_INDEX_UPDATE`; maintenance processes a link, with a searcher; a tombstone is written. The
searcher may be an old one: it has some of the documents, with tombstone times of then. -/
inductive Event where
  | addDocument (d : Doc)
  | forcedPost (d : Doc)
  | maintain (link : String) (view : List (Nat × Int64))
  | updateTombstoneTime (n : Nat)

def System.addDocument (s : System) (d : Doc) : System :=
  { s with docs := s.docs ++ [{ d with tombstone := activeDocumentTombstoneTime }] }

/-- The updates of the link are flushed, and all its versions are deleted. -/
def System.deleteAll (s : System) (link : String) : System :=
  ⟨s.docs.filter fun d => d.link ≠ link, s.pending.filter fun u => u.link ≠ link⟩

/-- The documents of a searcher. -/
def System.searcher (s : System) (view : List (Nat × Int64)) : List Doc :=
  view.filterMap fun (n, tombstone) => s.docs[n]?.map fun d => { d with tombstone := tombstone }

def step (s : System) : Event → Option System
  | .addDocument d =>
      if 0 ≤ d.updateTime ∧ ∀ e ∈ s.docs, ¬ (e.link = d.link ∧ e.version = d.version) then
        some (s.addDocument d)
      else none
  | .forcedPost d =>
      if 0 ≤ d.updateTime then some ((s.deleteAll d.link).addDocument d) else none
  | .maintain link view =>
      some { s with pending := s.pending ++ applyMetadataIndexingUpdate (s.searcher view) link }
  | .updateTombstoneTime n =>
      match s.pending[n]? with
      | none => none
      | some u => some ⟨s.docs.map (Doc.setTombstone u.indexingId u.time), s.pending.eraseIdx n⟩

def start : System := ⟨[], []⟩

/-! ## Queries -/

/-- A query, without `INCLUDE_ALL_VERSIONS`; it has a boundary if it has `TIME_SNAPSHOT`. -/
structure IndexQuery where
  settings : Settings
  ctx : Option AuthorizationContext
  query : LuceneQuery
  now : Int64
  timeSnapshotBoundaryMicros : Option Int64
  hasSortTerm : Bool
  includeDeleted : Bool

/-- The query that is run. -/
def IndexQuery.native (q : IndexQuery) (indexedMetadata : Bool) :
    Except Failure (Option NativeQuery) :=
  updateQuery q.settings q.ctx
    (some ⟨q.hasSortTerm, q.timeSnapshotBoundaryMicros.getD 0⟩)
    (snapshotQuery q.timeSnapshotBoundaryMicros q.query) q.now
    ⟨indexedMetadata, false, q.includeDeleted, q.timeSnapshotBoundaryMicros.isSome⟩

/-- `documentsUpdatedBefore`: `-1` without `TIME_SNAPSHOT`. -/
def IndexQuery.documentsUpdatedBefore (q : IndexQuery) : Int64 :=
  q.timeSnapshotBoundaryMicros.getD (-1)

/-- The documents that the latest version of a link is looked for among. -/
def inScope (documentsUpdatedBefore : Int64) (d : Doc) : Bool :=
  documentsUpdatedBefore ≤ 0 || between 0 documentsUpdatedBefore d.updateTime

/-- `queryIndexForVersion`. -/
def latestDoc (docs : List Doc) (link : String) (documentsUpdatedBefore : Int64) : Option Doc :=
  (docs.filter fun d => d.link = link && inScope documentsUpdatedBefore d).argmax fun d => d.version

/-- `latestVersion`, for a hit. -/
def latestVersion (docs : List Doc) (documentsUpdatedBefore : Int64) (d : Doc) : Nat :=
  ((latestDoc docs d.link documentsUpdatedBefore).map fun e => e.version).getD d.version

/-- A hit of `processQueryResults`. -/
def IndexQuery.processHit (q : IndexQuery) (docs : List Doc) (uniques : Finset String) (d : Doc) :
    Finset String :=
  if d.version < latestVersion docs q.documentsUpdatedBefore d then uniques
  else if d.isDeleted && !q.includeDeleted then uniques.erase d.link
  else insert d.link uniques

/-- `processQueryResults`: the links of the results. -/
def IndexQuery.processQueryResults (q : IndexQuery) (docs hits : List Doc) : Finset String :=
  hits.foldl (q.processHit docs) ∅

/-- `queryIndex`. -/
def IndexQuery.queryIndex (q : IndexQuery) (indexedMetadata : Bool) (docs : List Doc) :
    Except Failure (Finset String) := do
  match ← q.native indexedMetadata with
  | none => return ∅
  | some query =>
      return q.processQueryResults docs (docs.filter fun d => query.matches d.indexed)

end Xenon.Index.Metadata
