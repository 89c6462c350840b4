import Xenon.Common.Operation
import Xenon.Lucene.Converter

/-!
# The queries that the index service runs

`LuceneDocumentIndexService` does not run a converted query as it is. A time
snapshot adds a range of update times, and `updateQuery` adds a clause against
expired documents, clauses on the indexed metadata and the resource query of
the user.
-/

namespace Xenon.Index

open Xenon.Common Xenon.Foundation Xenon.Lucene Xenon.QueryTask
open Xenon.Filter (Occurance)

/-! ## Queries -/

/-- An indexed document, with its doc values. -/
structure IndexedDocument extends Document where
  numericDocValues : String → Option Int64
  sortedDocValues : String → Option String

/-- `BooleanClause.Occur`, less `SHOULD`. A `FILTER` clause matches as a `MUST` clause
does, without a score. -/
inductive Occur where
  | must | filter | mustNot
deriving DecidableEq

def Occur.occurance : Occur → Occurance
  | .must | .filter => .mustOccur
  | .mustNot => .mustNotOccur

/-- The Lucene queries that the service builds around a converted one. -/
inductive NativeQuery where
  | converted (query : LuceneQuery)
  | pointRange (field : String) (lower upper : Int64)
  | docValueRange (field : String) (lower upper : Int64)
  | matchNoDocs
  | boolean (clauses : List (Occur × NativeQuery))

/-- A value in a range, both ends included. -/
def between (lower upper x : Int64) : Bool := lower ≤ x && x ≤ upper

mutual

def NativeQuery.matches (d : IndexedDocument) : NativeQuery → Bool
  | .converted query => query.matches d.toDocument
  | .pointRange field lower upper => (d.longs field).any (between lower upper)
  | .docValueRange field lower upper => (d.numericDocValues field).any (between lower upper)
  | .matchNoDocs => false
  | .boolean clauses => booleanMatches (matchesAll d clauses)

def matchesAll (d : IndexedDocument) : List (Occur × NativeQuery) → List (Occurance × Bool)
  | [] => []
  | c :: clauses => matchesClause d c :: matchesAll d clauses

def matchesClause (d : IndexedDocument) : Occur × NativeQuery → Occurance × Bool
  | (o, q) => (o.occurance, q.matches d)

end

theorem matchesAll_eq (d : IndexedDocument) (clauses : List (Occur × NativeQuery)) :
    matchesAll d clauses = clauses.map fun c => (c.1.occurance, c.2.matches d) := by
  induction clauses with
  | nil => rfl
  | cons c clauses ih =>
      obtain ⟨o, q⟩ := c
      rw [matchesAll, ih, matchesClause, List.map_cons]

/-- A clause, by itself. -/
def Occur.allows (o : Occur) (b : Bool) : Bool := if o = .mustNot then !b else b

/-- The queries built here have a positive clause, so all their clauses decide. -/
theorem matches_boolean {d : IndexedDocument} {clauses : List (Occur × NativeQuery)}
    (h : ∃ c ∈ clauses, c.1 ≠ .mustNot) :
    (NativeQuery.boolean clauses).matches d = true ↔
      ∀ c ∈ clauses, c.1.allows (c.2.matches d) = true := by
  obtain ⟨c, hc, hpos⟩ := h
  have hmust : ∃ c ∈ clauses, c.1.occurance = .mustOccur := by
    refine ⟨c, hc, ?_⟩
    cases ho : c.1 with
    | must => rfl
    | filter => rfl
    | mustNot => exact absurd ho hpos
  rw [NativeQuery.matches, matchesAll_eq, booleanMatches_must hmust, ← forall₂_and]
  refine forall₂_congr fun c _ => ?_
  cases c.1 <;> simp [Occur.occurance, Occur.allows]

/-! ## `updateQuery` -/

/-- `ServiceDocument.FIELD_NAME_UPDATE_TIME_MICROS`. -/
def fieldNameUpdateTimeMicros : String := "documentUpdateTimeMicros"

/-- `ServiceDocument.FIELD_NAME_EXPIRATION_TIME_MICROS`. -/
def fieldNameExpirationTimeMicros : String := "documentExpirationTimeMicros"

/-- `FIELD_NAME_INDEXING_METADATA_VALUE_TOMBSTONE_TIME`. -/
def fieldNameTombstoneTime : String := "xenon.indexing.metadata.tombstone.time"

/-- `ACTIVE_DOCUMENT_TOMBSTONE_TIME`. -/
def activeDocumentTombstoneTime : Int64 := Int64.maxValue

/-- The members of `QueryOption` that are looked at here. -/
structure QueryOptions where
  indexedMetadata : Bool
  includeAllVersions : Bool
  includeDeleted : Bool
  timeSnapshot : Bool
deriving DecidableEq

/-- What `updateQuery` reads of a `QuerySpecification`. -/
structure SnapshotSpec where
  hasSortTerm : Bool
  timeSnapshotBoundaryMicros : Int64
deriving DecidableEq

/-- `Operation.AuthorizationContext`, as far as it is read. -/
structure AuthorizationContext where
  isSystemUser : Bool
  getResourceQuery : Action → Option Query

/-- What the host is configured with. -/
structure Settings where
  isAuthorizationEnabled : Bool
  maxClauseCount : Nat

/-- The query of `handleQueryTaskPatch`: a time snapshot leaves out what was updated after
its boundary. -/
def snapshotQuery (boundary : Option Int64) (query : LuceneQuery) : NativeQuery :=
  match boundary with
  | none => .converted query
  | some boundary =>
      .boolean [(.must, .pointRange fieldNameUpdateTimeMicros 0 boundary),
        (.filter, .converted query)]

/-- The clauses that `INDEXED_METADATA` adds. -/
def metadataClauses (qs : Option SnapshotSpec) (options : QueryOptions) :
    List (Occur × NativeQuery) :=
  if options.indexedMetadata then
    (if !options.includeAllVersions && !options.timeSnapshot then
      [(.must, .docValueRange fieldNameTombstoneTime activeDocumentTombstoneTime
        activeDocumentTombstoneTime)]
    else []) ++
    match qs with
    | none => []
    | some qs =>
        if !qs.hasSortTerm && options.timeSnapshot then
          [(.must, .docValueRange fieldNameTombstoneTime qs.timeSnapshotBoundaryMicros
            activeDocumentTombstoneTime)]
        else []
  else []

/-- The clause that restricts the query to what a user may read. -/
def resourceClause (maxClauseCount : Nat) (resourceQuery : Option Query) :
    Except Failure NativeQuery :=
  match resourceQuery with
  | none => .ok .matchNoDocs
  | some query => do
      let (rq, _) ← convert maxClauseCount query none
      return .converted rq

/-- `updateQuery`; `none` is `null`, for which no query is executed. -/
def updateQuery (settings : Settings) (ctx : Option AuthorizationContext)
    (qs : Option SnapshotSpec) (tq : NativeQuery) (now : Int64) (options : QueryOptions) :
    Except Failure (Option NativeQuery) :=
  let clauses := [(.mustNot, .pointRange fieldNameExpirationTimeMicros 1 now), (.filter, tq)]
    ++ metadataClauses qs options
  if settings.isAuthorizationEnabled then
    match ctx with
    | none => .ok none
    | some ctx =>
        if ctx.isSystemUser then .ok (some (.boolean clauses))
        else do
          let rq ← resourceClause settings.maxClauseCount (ctx.getResourceQuery .get)
          return some (.boolean (clauses ++ [(.filter, rq)]))
  else .ok (some (.boolean clauses))

/-! ## What a query sees -/

/-- A document that expired before `now`, or just then. -/
def expired (now : Int64) (d : IndexedDocument) : Bool :=
  (d.longs fieldNameExpirationTimeMicros).any (between 1 now)

/-- A document that matches a resource query. Without one nothing does. -/
def authorized (maxClauseCount : Nat) (resourceQuery : Option Query) (d : IndexedDocument) :
    Bool :=
  match resourceClause maxClauseCount resourceQuery with
  | .ok rq => rq.matches d
  | .error _ => false

/-- What a user may see of the index. -/
def visible (maxClauseCount : Nat) (user : AuthorizationContext) (now : Int64)
    (d : IndexedDocument) : Bool :=
  !expired now d && authorized maxClauseCount (user.getResourceQuery .get) d

/-- A query that went through `updateQuery` matches only what the user may see. -/
theorem updateQuery_matches {settings : Settings} {user : AuthorizationContext}
    {qs : Option SnapshotSpec} {tq q : NativeQuery} {now : Int64} {options : QueryOptions}
    (hauth : settings.isAuthorizationEnabled = true) (huser : user.isSystemUser = false)
    (h : updateQuery settings (some user) qs tq now options = .ok (some q))
    (d : IndexedDocument) :
    q.matches d = true ↔
      (tq.matches d = true ∧ ∀ c ∈ metadataClauses qs options,
        c.1.allows (c.2.matches d) = true) ∧
        visible settings.maxClauseCount user now d = true := by
  simp only [updateQuery, hauth, huser, if_true, Bool.false_eq_true, if_false] at h
  obtain ⟨rq, hrq, h⟩ := bind_eq_ok.mp h
  obtain rfl := Option.some.inj (Except.ok.inj h)
  rw [matches_boolean ⟨(.filter, tq), by simp, by simp⟩]
  simp only [List.forall_mem_append, List.forall_mem_cons, List.not_mem_nil, false_imp_iff,
    implies_true, and_true, visible, authorized, hrq, expired, Bool.and_eq_true]
  simp only [Occur.allows, NativeQuery.matches, if_true, reduceCtorEq, if_false]
  tauto

/-- A selection within what is visible depends on what is visible only. -/
theorem filter_eq_of_imp {α : Type*} {p v : α → Bool} (h : ∀ x, p x = true → v x = true)
    {l l' : List α} (hagree : l.filter v = l'.filter v) : l.filter p = l'.filter p := by
  have hsplit : ∀ l : List α, l.filter p = (l.filter v).filter p := by
    intro l
    rw [List.filter_filter]
    refine List.filter_congr fun x _ => ?_
    cases hp : p x with
    | false => rfl
    | true => rw [h x hp, Bool.and_true]
  rw [hsplit l, hsplit l', hagree]

/-- So the search of a query does not tell apart two indexes in which the user may see the
same. -/
theorem updateQuery_hides {settings : Settings} {user : AuthorizationContext}
    {qs : Option SnapshotSpec} {tq q : NativeQuery} {now : Int64} {options : QueryOptions}
    (hauth : settings.isAuthorizationEnabled = true) (huser : user.isSystemUser = false)
    (h : updateQuery settings (some user) qs tq now options = .ok (some q))
    {docs docs' : List IndexedDocument}
    (hagree : docs.filter (visible settings.maxClauseCount user now) =
      docs'.filter (visible settings.maxClauseCount user now)) :
    docs.filter (q.matches ·) = docs'.filter (q.matches ·) := by
  have hvisible : ∀ d, q.matches d = true →
      visible settings.maxClauseCount user now d = true :=
    fun d hd => ((updateQuery_matches hauth huser h d).mp hd).2
  exact filter_eq_of_imp hvisible hagree

/-! ## Indexed metadata -/

/-- `updateQuery`, as one query or none. -/
theorem updateQuery_eq_some {settings : Settings} {ctx : Option AuthorizationContext}
    {qs : Option SnapshotSpec} {tq q : NativeQuery} {now : Int64} {options : QueryOptions}
    (h : updateQuery settings ctx qs tq now options = .ok (some q)) :
    ∃ rest, q = .boolean ([(.mustNot, .pointRange fieldNameExpirationTimeMicros 1 now),
        (.filter, tq)] ++ metadataClauses qs options ++ rest) ∧
      ∀ options', updateQuery settings ctx qs tq now options' =
        .ok (some (.boolean ([(.mustNot, .pointRange fieldNameExpirationTimeMicros 1 now),
          (.filter, tq)] ++ metadataClauses qs options' ++ rest))) := by
  unfold updateQuery at h ⊢
  cases hauth : settings.isAuthorizationEnabled with
  | false =>
      simp only [hauth, Bool.false_eq_true, if_false] at h ⊢
      obtain rfl := Option.some.inj (Except.ok.inj h)
      exact ⟨[], by simp, by simp⟩
  | true =>
      simp only [hauth, if_true] at h ⊢
      cases ctx with
      | none => cases h
      | some ctx =>
          cases hsystem : ctx.isSystemUser with
          | true =>
              simp only [hsystem, if_true] at h ⊢
              obtain rfl := Option.some.inj (Except.ok.inj h)
              exact ⟨[], by simp, by simp⟩
          | false =>
              simp only [hsystem, Bool.false_eq_true, if_false] at h ⊢
              obtain ⟨rq, hrq, h⟩ := bind_eq_ok.mp h
              obtain rfl := Option.some.inj (Except.ok.inj h)
              refine ⟨[(.filter, rq)], rfl, fun options' => ?_⟩
              rw [hrq]
              rfl

/-- The options do not decide whether there is a query. -/
theorem updateQuery_eq_of_ne_some {settings : Settings} {ctx : Option AuthorizationContext}
    {qs : Option SnapshotSpec} {tq : NativeQuery} {now : Int64} {options : QueryOptions}
    (h : ∀ q, updateQuery settings ctx qs tq now options ≠ .ok (some q))
    (options' : QueryOptions) :
    updateQuery settings ctx qs tq now options' = updateQuery settings ctx qs tq now options := by
  have hother : ∀ q, updateQuery settings ctx qs tq now options' ≠ .ok (some q) := by
    intro q hq
    obtain ⟨rest, -, heq⟩ := updateQuery_eq_some hq
    exact h _ (heq options)
  unfold updateQuery at h hother ⊢
  cases hauth : settings.isAuthorizationEnabled with
  | false => simp [hauth] at h
  | true =>
      simp only [hauth, if_true] at h hother ⊢
      cases ctx with
      | none => rfl
      | some ctx =>
          cases hsystem : ctx.isSystemUser with
          | true => simp [hsystem] at h
          | false =>
              simp only [hsystem, Bool.false_eq_true, if_false] at h hother ⊢
              cases hrq : resourceClause settings.maxClauseCount (ctx.getResourceQuery .get) with
              | error e => rfl
              | ok rq =>
                  rw [hrq] at h
                  exact absurd rfl (h _)

/-- A query with other options matches what both match without the clauses on the metadata. -/
theorem matches_metadataClauses {settings : Settings} {ctx : Option AuthorizationContext}
    {qs : Option SnapshotSpec} {tq q q' : NativeQuery} {now : Int64} {options : QueryOptions}
    {plain : QueryOptions} (hplain : metadataClauses qs plain = [])
    (h : updateQuery settings ctx qs tq now options = .ok (some q))
    (h' : updateQuery settings ctx qs tq now plain = .ok (some q')) (d : IndexedDocument) :
    q.matches d = true ↔ q'.matches d = true ∧
      ∀ c ∈ metadataClauses qs options, c.1.allows (c.2.matches d) = true := by
  obtain ⟨rest, rfl, heq⟩ := updateQuery_eq_some h
  have hq' := (heq plain).symm.trans h'
  obtain rfl := Option.some.inj (Except.ok.inj hq')
  rw [hplain, matches_boolean ⟨(.filter, tq), by simp, by simp⟩,
    matches_boolean ⟨(.filter, tq), by simp, by simp⟩]
  simp only [List.forall_mem_append, List.append_nil]
  tauto

end Xenon.Index
