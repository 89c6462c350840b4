import Mathlib.Data.List.MinMax
import Xenon.Foundation.Pool
import Xenon.Index.Searcher

/-!
# Versions in the index

A query returns the latest version of every link, and asks the cache of update times for
it where it can. The cache is written by updates, by deletions of old versions and of
expired documents, and by queries that had to look the version up in the index, and it
is emptied by memory pressure and by a restart. A searcher is here the documents that its
reader sees; a query can run on any searcher that was opened.
-/

namespace Xenon.Index.Latest

open Xenon.Foundation

/-- A version of a document, as `addDocumentToIndex` gets it. -/
structure DocVersion extends Update where
  documentUpdateTimeMicros : Int
  isDeleted : Bool
deriving DecidableEq

/-- A document in the index; `id` tells documents with equal contents apart. -/
structure Doc extends DocVersion where
  id : Nat
deriving DecidableEq

/-- A searcher and its entry in `searcherUpdateTimesMicros`. -/
structure Searcher where
  docs : List Doc
  updateTime : Int
deriving DecidableEq

/-- The versions of a link that `deleteDocumentsFromIndex` deletes. An expired document
(`deleteAllDocumentsForSelfLink`) also loses its entry in the cache. -/
structure Deletion where
  link : String
  kind : Option String
  oldestVersion : Int
  newestVersion : Int
  isExpired : Bool
deriving DecidableEq

/-- The range query of `deleteDocumentFromIndex`. -/
def Deletion.Covers (r : Deletion) (d : Doc) : Prop :=
  d.link = r.link ∧ r.oldestVersion ≤ d.version ∧ d.version ≤ r.newestVersion

instance (r : Deletion) (d : Doc) : Decidable (r.Covers d) := instDecidableAnd

/-- A call of `processQueryResults` without `INCLUDE_ALL_VERSIONS`. `documentsUpdatedBefore`
is `-1` for a query without `TIME_SNAPSHOT`. -/
structure Call where
  searcher : Searcher
  documentsUpdatedBefore : Int
  includeDeleted : Bool
  latestVersionPerLink : List (String × Int)
deriving DecidableEq

/-- A hit of a query, and whether it is in the results. -/
structure Outcome where
  searcher : Searcher
  includeDeleted : Bool
  doc : Doc
  isIncluded : Bool
deriving DecidableEq

/-- The index service. `unrecorded` and `outcomes` are not in the source: the documents that
are in the index and whose versions are not in the cache yet, and the hits of the queries
without `TIME_SNAPSHOT`. -/
structure Shared where
  now : Int
  nextId : Nat
  docs : List Doc
  cache : Cache
  searchers : List Searcher
  unrecorded : List Doc
  outcomes : List Outcome

inductive Task where
  -- `addDocumentToIndex`, `deleteAllDocumentsForSelfLinkForcedPost`
  | deleteDocuments (u : DocVersion)
  | removeEntry (u : DocVersion)
  | stampDelete (u : DocVersion)
  | recordDelete (u : DocVersion) (time : Int)
  | addDocument (u : DocVersion)
  | stampUpdate (d : Doc)
  | recordUpdate (d : Doc) (time : Int)
  -- `deleteDocumentsFromIndex`, `deleteAllDocumentsForSelfLink`
  | deleteRange (r : Deletion)
  | stampRange (r : Deletion)
  | recordRange (r : Deletion) (time : Int)
  | removeExpired (r : Deletion)
  -- `applyMemoryLimitToDocumentUpdateInfo`
  | evict
  -- `createOrRefreshSearcher`, `createPaginatedQuerySearcher`
  | stampSearcher
  | openReader (time : Int)
  -- `processQueryResults`, `getLatestVersion`
  | query (documentsUpdatedBefore : Int) (includeDeleted : Bool)
  | process (q : Call)
  | refill (q : Call) (d : Doc)

/-- What a task meets: a time, a description, links without a running service, the searcher
of a query, its next hit. -/
inductive Answer where
  | go
  | time (t : Int)
  | description (isImmutable : Bool)
  | detached (links : List String) (t : Int)
  | searcher (n : Nat)
  | hit (d : Doc)

inductive Input where
  | update (u : DocVersion)
  | delete (r : Deletion)
  | evict
  | openSearcher
  | query (documentsUpdatedBefore : Int) (includeDeleted : Bool)

def Shared.tick (s : Shared) (t : Int) : Option Shared :=
  if s.now < t then some { s with now := t } else none

/-- An entry is removed, and the times that force new searchers are set, under one lock. -/
def Shared.removeLink (s : Shared) (link : String) (t : Int) : Shared :=
  { s with cache := { s.cache.removeLinks [link] with
      writerUpdateTimeMicros := t, serviceRemovalDetectedTimeMicros := t } }

/-! ## The latest version of a link -/

/-- The part of `getLatestVersion` that asks the cache. -/
def cachedVersion (c : Cache) (searcherUpdateTime : Int) (link : String)
    (version documentsUpdatedBefore : Int) : Option Int :=
  match (c.updatesPerLink link).filter fun e =>
      documentsUpdatedBefore = -1 ∧ e.updateTimeMicros ≤ searcherUpdateTime with
  | some e => some (max version e.version)
  | none =>
      -- all immutable services have just a single, zero, version
      if (c.immutableParentLinks (getParentPath link)).isSome then some 0 else none

section

-- Mathlib has orders of the integers that cannot be evaluated.
local instance preorderInt : Preorder Int := Int.instLinearOrder.toPreorder

/-- `queryIndexForVersion`: the document with the highest version, if a time is given then
among those that were updated before it. -/
def latestDoc (x : Searcher) (link : String) (documentsUpdatedBefore : Int) : Option Doc :=
  (x.docs.filter fun d => d.link = link ∧ (0 < documentsUpdatedBefore →
    0 ≤ d.documentUpdateTimeMicros ∧ d.documentUpdateTimeMicros ≤ documentsUpdatedBefore)).argmax
      fun d => d.version

end

/-- The filter of `processQueryResults`, for a hit whose latest version is known. -/
def Call.includes (q : Call) (d : Doc) (latestVersion : Int) : Bool :=
  !decide (d.version < latestVersion) && (!d.isDeleted || q.includeDeleted)

/-- Decide on a hit, and record what was decided. -/
def Shared.decide (s : Shared) (q : Call) (d : Doc) (latestVersion : Int) : Shared :=
  if q.documentsUpdatedBefore = -1 then
    { s with outcomes :=
        ⟨q.searcher, q.includeDeleted, d, q.includes d latestVersion⟩ :: s.outcomes }
  else s

/-- `latestVersionPerLink.put`. -/
def Call.put (q : Call) (link : String) (latestVersion : Int) : Call :=
  { q with latestVersionPerLink := (link, latestVersion) :: q.latestVersionPerLink }

theorem mem_of_lookup {α β : Type*} [BEq α] [LawfulBEq α] {a : α} {b : β} {l : List (α × β)}
    (h : l.lookup a = some b) : (a, b) ∈ l := by
  obtain ⟨before, after, rfl, -⟩ := List.lookup_eq_some_iff.mp h
  exact List.mem_append_right _ List.mem_cons_self

/-! ## Steps -/

def fire (s : Shared) : Task → Answer → Option (Shared × List Task)
  | .deleteDocuments u, .go =>
      some ({ s with docs := s.docs.filter fun d => d.link ≠ u.link }, [.removeEntry u])
  | .removeEntry u, .time t =>
      (s.tick t).map fun s => (s.removeLink u.link t, [.stampDelete u])
  | .stampDelete u, .time t => (s.tick t).map fun s => (s, [.recordDelete u t])
  | .recordDelete u t, .description isImmutable =>
      some ({ s with cache := s.cache.updateLinkInfoCache isImmutable u.link u.kind 0 t },
        [.addDocument u])
  | .addDocument u, .go =>
      some ({ s with
        nextId := s.nextId + 1
        docs := s.docs ++ [⟨u, s.nextId⟩]
        unrecorded := ⟨u, s.nextId⟩ :: s.unrecorded }, [.stampUpdate ⟨u, s.nextId⟩])
  | .stampUpdate d, .time t => (s.tick t).map fun s => (s, [.recordUpdate d t])
  | .recordUpdate d t, .go =>
      some ({ s with
        cache := s.cache.updateLinkInfoCache d.isImmutable d.link d.kind d.version t
        unrecorded := s.unrecorded.erase d }, [])
  | .deleteRange r, .go =>
      some ({ s with docs := s.docs.filter fun d => ¬ r.Covers d }, [.stampRange r])
  | .stampRange r, .time t => (s.tick t).map fun s => (s, [.recordRange r t])
  | .recordRange r t, .description isImmutable =>
      some ({ s with
        cache := s.cache.updateLinkInfoCache isImmutable r.link r.kind r.newestVersion t },
        if r.isExpired then [.removeExpired r] else [])
  | .removeExpired r, .time t => (s.tick t).map fun s => (s.removeLink r.link t, [])
  | .evict, .go => some (s, [])
  | .evict, .detached links t =>
      (s.tick t).map fun s => ({ s with
        cache := { s.cache.removeLinks links with writerUpdateTimeMicros := t } }, [])
  | .stampSearcher, .time t => (s.tick t).map fun s => (s, [.openReader t])
  | .openReader t, .go => some ({ s with searchers := ⟨s.docs, t⟩ :: s.searchers }, [])
  | .query documentsUpdatedBefore includeDeleted, .searcher n =>
      s.searchers[n]?.map fun x => (s, [.process ⟨x, documentsUpdatedBefore, includeDeleted, []⟩])
  | .process _, .go => some (s, [])
  | .process q, .hit d =>
      if d ∈ q.searcher.docs then
        match q.latestVersionPerLink.lookup d.link with
        | some latestVersion => some (s.decide q d latestVersion, [.process q])
        | none =>
            match cachedVersion s.cache q.searcher.updateTime d.link d.version
                q.documentsUpdatedBefore with
            | some latestVersion =>
                some (s.decide q d latestVersion, [.process (q.put d.link latestVersion)])
            | none => some (s, [.refill q d])
      else none
  | .refill q d, .go =>
      match latestDoc q.searcher d.link q.documentsUpdatedBefore with
      | some latest =>
          some ({ s.decide q d latest.version with
            cache := s.cache.updateLinkInfoCache false d.link none latest.version
              latest.documentUpdateTimeMicros }, [.process (q.put d.link latest.version)])
      | none =>
          if q.documentsUpdatedBefore = -1 then
            some (s.decide q d d.version, [.process (q.put d.link d.version)])
          -- the list of links to skip cannot be changed, so the query fails
          else some (s, [])
  | _, _ => none

def input (s : Shared) : Input → Shared × List Task
  | .update u => (s, [if u.isForced then .deleteDocuments u else .addDocument u])
  | .delete r => (s, [.deleteRange r])
  | .evict => (s, [.evict])
  | .openSearcher => (s, [.stampSearcher])
  | .query documentsUpdatedBefore includeDeleted =>
      (s, [.query documentsUpdatedBefore includeDeleted])

def machine : Machine Shared Task Input Answer := ⟨input, fire⟩

/-- The host has started: any documents are in the index, and the cache is empty. -/
def start (now : Int) (versions : List DocVersion) : Pool Shared Task :=
  ⟨⟨now, versions.length, versions.zipIdx.map fun p => ⟨p.1, p.2⟩, {}, [], [], []⟩, []⟩

/-! ## Latest versions only -/

/-- No document of the same link in the searcher has a higher version. -/
def Searcher.IsLatest (x : Searcher) (d : Doc) : Prop :=
  ∀ d' ∈ x.docs, d'.link = d.link → d'.version ≤ d.version

/-- **Latest versions only**: a hit is in the results exactly if it has the highest version of
its link in the searcher, and is not a deleted document that the query does not ask
for. -/
def LatestOnly (s : Shared) : Prop :=
  ∀ o ∈ s.outcomes, o.isIncluded = true ↔
    o.searcher.IsLatest o.doc ∧ (o.doc.isDeleted = true → o.includeDeleted = true)

end Xenon.Index.Latest
