import Mathlib.Data.Multiset.AddSub
import Xenon.Foundation.Pool
import Xenon.Index.Cache

/-!
# Searchers and index updates

Updates, memory-pressure evictions and queries run on threads of their own and meet in
the cache of update times. Every section that is locked by `searchSync`, every call of
the index writer and every read of the clock is one step; between them anything can
happen. An index reader sees what was added before it was opened, so a reader is the
number of changes that it sees.
-/

namespace Xenon.Index

open Xenon.Foundation

/-- An update of a document, as `addDocumentToIndex` gets it. `isForced` is a POST with
`PRAGMA_DIRECTIVE_FORCE_INDEX_UPDATE`. -/
structure Update where
  link : String
  kind : Option String
  version : Int
  isImmutable : Bool
  isForced : Bool
deriving DecidableEq

/-- A document in the index: the change that added it and the update time. -/
structure Added where
  update : Update
  position : Nat
  time : Int
deriving DecidableEq

/-- An `IndexSearcher`: the changes that its reader sees, and its entry in
`searcherUpdateTimesMicros`. -/
structure Searcher where
  opened : Nat
  updateTime : Int
deriving DecidableEq

/-- What a query asks of the searcher: a single link, the kinds of `kindScope`, or
everything. -/
inductive Scope where
  | link (selfLink : String)
  | kinds (kindScope : Finset (Option String))
  | all
deriving DecidableEq

/-- A query can match an update; `kindScope` has the kinds that the query matches. -/
def Scope.CanMatch (u : Update) : Scope → Prop
  | .link selfLink => u.link = selfLink
  | .kinds kindScope => ∃ kind, u.kind = some kind ∧ some kind ∈ kindScope
  | .all => True

/-- The decision of `createOrRefreshSearcher` under the lock, for a query without
`DO_NOT_REFRESH`. -/
def Scope.needsNewSearcher (c : Cache) (searcherUpdateTime : Int) : Scope → Bool
  | .link selfLink =>
      c.documentNeedsNewSearcher 0 0 (some selfLink) none 1 searcherUpdateTime false
  | .kinds kindScope =>
      c.documentNeedsNewSearcher 0 0 none (some kindScope) (2 ^ 31 - 1) searcherUpdateTime false
  | .all => c.documentNeedsNewSearcher 0 0 none none (2 ^ 31 - 1) searcherUpdateTime false

/-- A query that got its searcher, and the updates that were complete when it asked. -/
structure Answered where
  scope : Scope
  before : List Added
  searcher : Searcher
deriving DecidableEq

/-- The index service. The fields after `searchers` are not in the source: they record
the updates that have a time, that are in the cache and that are complete, the links
whose entries an eviction has removed before its removal time is stored, and the
queries that got their searcher. -/
structure Shared where
  now : Int
  changes : Nat
  cache : Cache
  searchers : Nat → Option Searcher := fun _ => none
  stamped : List Added := []
  recorded : List Added := []
  completed : List Added := []
  evicting : Multiset String := 0
  answers : List Answered := []

/-- What is left to do of an update, of an eviction or of a query. -/
inductive Task where
  -- `addDocumentToIndex`, `deleteAllDocumentsForSelfLinkForcedPost`
  | deleteDocuments (u : Update)
  | removeEntry (u : Update)
  | stampDelete (u : Update)
  | recordDelete (u : Update) (time : Int)
  | addDocument (u : Update)
  | stampUpdate (u : Update) (position : Nat)
  | recordUpdate (a : Added)
  | complete (a : Added)
  -- `applyMemoryLimitToDocumentUpdateInfo`
  | evict
  | stampRemoval (links : List String)
  | storeRemoval (links : List String) (time : Int)
  -- `createOrRefreshSearcher`
  | stampQuery (threadId : Nat) (scope : Scope) (before : List Added)
  | decide (threadId : Nat) (scope : Scope) (before : List Added) (time : Int)
  | openReader (threadId : Nat) (scope : Scope) (before : List Added) (time : Int)
      (old : Option Searcher)
  | put (threadId : Nat) (scope : Scope) (before : List Added) (s : Searcher)
  -- `getLatestVersion`, for the results of a query
  | results

/-- What a task meets: a time of the clock, whether the description of a forced update
has the `IMMUTABLE` option, the links without a running service, a document that was
looked up in the index. -/
inductive Answer where
  | go
  | time (t : Int)
  | description (isImmutable : Bool)
  | detached (links : List String) (t : Int)
  | lookup (link : String) (version updateTime : Int)

inductive Input where
  | update (u : Update)
  | evict
  | query (threadId : Nat) (scope : Scope)

/-- The clock: every time is later than those before. -/
def Shared.tick (s : Shared) (t : Int) : Option Shared :=
  if s.now < t then some { s with now := t } else none

/-- Remove entries of `updatesPerLink`. -/
def Cache.removeLinks (c : Cache) (links : List String) : Cache :=
  { c with updatesPerLink := fun link => if link ∈ links then none else c.updatesPerLink link }

/-- The links among these that have an entry. -/
def Cache.present (c : Cache) (links : List String) : List String :=
  links.filter fun link => (c.updatesPerLink link).isSome

def Shared.answer (s : Shared) (scope : Scope) (before : List Added) (x : Searcher) : Shared :=
  { s with answers := ⟨scope, before, x⟩ :: s.answers }

def fire (s : Shared) : Task → Answer → Option (Shared × List Task)
  | .deleteDocuments u, .go =>
      some ({ s with changes := s.changes + 1 }, [.removeEntry u])
  | .removeEntry u, .time t =>
      (s.tick t).map fun s => ({ s with cache := { s.cache.removeLinks [u.link] with
        writerUpdateTimeMicros := t, serviceRemovalDetectedTimeMicros := t } }, [.stampDelete u])
  | .stampDelete u, .time t => (s.tick t).map fun s => (s, [.recordDelete u t])
  | .recordDelete u t, .description isImmutable =>
      some ({ s with cache := s.cache.updateLinkInfoCache isImmutable u.link u.kind 0 t },
        [.addDocument u])
  | .addDocument u, .go =>
      some ({ s with changes := s.changes + 1 }, [.stampUpdate u (s.changes + 1)])
  | .stampUpdate u position, .time t =>
      (s.tick t).map fun s => ({ s with stamped := ⟨u, position, t⟩ :: s.stamped },
        [.recordUpdate ⟨u, position, t⟩])
  | .recordUpdate a, .go =>
      some ({ s with
        cache := s.cache.updateLinkInfoCache a.update.isImmutable a.update.link a.update.kind
          a.update.version a.time
        recorded := a :: s.recorded }, [.complete a])
  | .complete a, .go => some ({ s with completed := a :: s.completed }, [])
  -- the map is empty or small enough
  | .evict, .go => some (s, [])
  | .evict, .detached links t =>
      (s.tick t).map fun s => ({ s with
        cache := { s.cache.removeLinks links with writerUpdateTimeMicros := t }
        evicting := s.evicting + s.cache.present links },
        if s.cache.present links = [] then [] else [.stampRemoval (s.cache.present links)])
  | .stampRemoval links, .time t => (s.tick t).map fun s => (s, [.storeRemoval links t])
  | .storeRemoval links t, .go =>
      some ({ s with
        cache := { s.cache with serviceRemovalDetectedTimeMicros := t }
        evicting := s.evicting - links }, [])
  | .stampQuery threadId scope before, .time t =>
      (s.tick t).map fun s => (s, [.decide threadId scope before t])
  | .decide threadId scope before t, .go =>
      match s.searchers threadId with
      | none => some (s, [.openReader threadId scope before t none])
      | some x =>
          if scope.needsNewSearcher s.cache x.updateTime then
            some (s, [.openReader threadId scope before t (some x)])
          else some (s.answer scope before x, [.results])
  | .openReader threadId scope before t old, .go =>
      match old with
      | none => some (s, [.put threadId scope before ⟨s.changes, t⟩])
      | some x =>
          -- `openIfChanged` returns nothing if the reader is current
          if x.opened = s.changes then some (s.answer scope before x, [.results])
          else some (s, [.put threadId scope before ⟨s.changes, t⟩])
  | .put threadId scope before x, .go =>
      some ({ s with searchers := Function.update s.searchers threadId (some x) }.answer scope
        before x, [.results])
  | .results, .go => some (s, [])
  | .results, .lookup link version updateTime =>
      some ({ s with cache := s.cache.updateLinkInfoCache false link none version updateTime },
        [.results])
  | _, _ => none

/-- `createOrRefreshSearcher` starts with the updates that are complete by then. -/
def input (s : Shared) : Input → Shared × List Task
  | .update u => (s, [if u.isForced then .deleteDocuments u else .addDocument u])
  | .evict => (s, [.evict])
  | .query threadId scope => (s, [.stampQuery threadId scope s.completed])

def machine : Machine Shared Task Input Answer := ⟨input, fire⟩

/-- The index service before any of its threads has run. -/
def start (now : Int) (changes : Nat) (cache : Cache) : Pool Shared Task :=
  ⟨⟨now, changes, cache, fun _ => none, [], [], [], 0, []⟩, []⟩

/-- **Read your writes**: a searcher was opened after the updates that its query can match
and that were complete when it was asked for. -/
def ReadsWrites (s : Shared) : Prop :=
  ∀ a ∈ s.answers, ∀ d ∈ a.before, a.scope.CanMatch d.update → d.position ≤ a.searcher.opened

end Xenon.Index
