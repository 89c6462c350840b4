import Xenon.Index.NativeQuery
import Xenon.OData.Visitor

/-!
# Grouped queries

`handleGroupByQueryTaskPatch` searches for the values of a property, and makes a
page of results for each of them. It runs the converted query of the task:
`updateQuery`, which every other search goes through, is not called, so that
expired documents and documents that the user may not read have their groups
too.
-/

namespace Xenon.Index.GroupBy

open Xenon.Common Xenon.Foundation Xenon.Lucene Xenon.QueryTask Xenon.OData

/-! ## Lucene's `GroupingSearch` -/

/-- The value that a document is grouped by. -/
def groupValue (field : Option String) (d : IndexedDocument) : Option String :=
  field.bind d.sortedDocValues

/-- `GroupDocs`, as far as it is read. -/
structure GroupDocs where
  groupValue : Option String
  totalHits : Nat
deriving DecidableEq

/-- `TopGroups`. -/
structure TopGroups where
  groups : List GroupDocs
  totalHitCount : Nat
  totalGroupedHitCount : Nat
deriving DecidableEq

/-- `GroupingSearch` with its sorts, a class of Lucene: it may refuse its group field, its
sorts or the number of groups, and it puts the groups of the hits in order. -/
structure GroupingSearch where
  check : Option String → Int → Except Failure Unit
  arrange : Option String → List IndexedDocument → List (Option String)
  /-- `topNGroups must be >= 1`. -/
  check_pos : ∀ {field topN}, check field topN = .ok () → 1 ≤ topN
  arrange_nodup : ∀ field hits, (arrange field hits).Nodup
  mem_arrange : ∀ field hits v, v ∈ arrange field hits ↔ ∃ d ∈ hits, groupValue field d = v

/-- `search`: the best groups, less those of the earlier pages. -/
def GroupingSearch.search (s : GroupingSearch) (field : Option String)
    (docs : List IndexedDocument) (query : NativeQuery) (groupOffset : Nat) (groupLimit : Int) :
    Except Failure TopGroups := do
  s.check field (groupOffset + groupLimit)
  let hits := docs.filter (query.matches ·)
  let values := ((s.arrange field hits).take (groupOffset + groupLimit).toNat).drop groupOffset
  let groups := values.map fun v => ⟨v, hits.countP fun d => groupValue field d = v⟩
  if groups = [] then return ⟨[], 0, 0⟩
  return ⟨groups, hits.length, (groups.map (·.totalHits)).sum⟩

/-! ## `handleGroupByQueryTaskPatch` -/

/-- `GROUP_BY_PROPERTY_NAME_SUFFIX`. -/
def groupByPropertyNameSuffix : String := "_groupBySuffix"

/-- `SORT_PROPERTY_NAME_SUFFIX`. -/
def sortPropertyNameSuffix : String := "_sort"

/-- `DOCUMENTS_WITHOUT_RESULTS`. -/
def documentsWithoutResults : String := "DocumentsWithoutResults"

/-- The group limit of a task that gives none. -/
def defaultGroupLimit : Int := 10000

/-- `qs.groupByTerm`, as far as it is read. -/
structure GroupByTerm where
  propertyName : Option String
  propertyType : Option TypeName
deriving DecidableEq

/-- The specification of a grouped query. -/
structure QuerySpecification where
  query : Query
  kindScope : Option (Finset (Option String))
  /-- Set with `TIME_SNAPSHOT` only. -/
  timeSnapshotBoundaryMicros : Option Int64
  groupByTerm : GroupByTerm
  groupResultLimit : Option Int

/-- What the service and the Java library are configured with. -/
structure Environment where
  maxClauseCount : Nat
  disableSortFieldNaming : Bool
  java : Java
  groupingSearch : GroupingSearch

/-- `createSortFieldPropertyName`. -/
def createSortFieldPropertyName (env : Environment) (propertyName : Option String) :
    Option String :=
  if env.disableSortFieldNaming then propertyName
  else some (propertyName.getD "null" ++ sortPropertyNameSuffix)

/-- The field that the documents are grouped by. -/
def groupField (env : Environment) (term : GroupByTerm) : Option String :=
  if term.propertyType = some .long ∨ term.propertyType = some .double then
    some (term.propertyName.getD "null" ++ groupByPropertyNameSuffix)
  else createSortFieldPropertyName env term.propertyName

def groupLimit (qs : QuerySpecification) : Int := qs.groupResultLimit.getD defaultGroupLimit

/-- The key of a group. -/
def groupKey (value : Option String) : String := value.getD documentsWithoutResults

/-- The clause that restricts a query to the documents of a group. -/
def groupClause (env : Environment) (term : GroupByTerm) (value : Option String) :
    Except Failure Query :=
  let range (number : Option Number) : Except Failure Query :=
    match number with
    | none => .error .numberFormat
    | some n => .ok (.ofTerm (some .mustOccur)
        ⟨term.propertyName, none, some .term, some (createEqualRange n)⟩)
  match term.propertyType, value with
  | some .long, some text => range ((parseLong text).map env.java.long)
  | some .double, some text => range ((env.java.parseDouble text).map env.java.double)
  | _, _ => .ok (.ofTerm (some .mustOccur)
      ⟨term.propertyName, some (groupKey value), some .term, none⟩)

/-- The query of a group. A query without clauses is added to itself, and the converter does
not come back from it. -/
def convertGroup (maxClauseCount : Nat) (query clause : Query)
    (context : Option QueryRuntimeContext) :
    Except Failure (LuceneQuery × Option QueryRuntimeContext) :=
  match query.booleanClauses with
  | none => .error .stackOverflow
  | some _ => convert maxClauseCount (query.addBooleanClause clause) context

/-- The loop over the groups. The value of a link is the query of its page; a later group with
the key of an earlier one replaces its link. -/
def groupPages (env : Environment) (qs : QuerySpecification) :
    List GroupDocs → Option QueryRuntimeContext → Except Failure (List (String × LuceneQuery))
  | [], _ => return []
  | g :: groups, context =>
      if g.totalHits = 0 then groupPages env qs groups context
      else do
        let clause ← groupClause env qs.groupByTerm g.groupValue
        let (query, context) ← convertGroup env.maxClauseCount qs.query clause context
        let pages ← groupPages env qs groups context
        return (groupKey g.groupValue, query) :: pages

/-- `ServiceDocumentQueryResult`: the pages of the groups, and where the next groups start if
there is a page for them. -/
structure GroupByResult where
  nextPageLinksPerGroup : List (String × LuceneQuery)
  nextPageLink : Option Int

/-- The keys of `nextPageLinksPerGroup`. -/
def GroupByResult.keys (r : GroupByResult) : Finset String :=
  (r.nextPageLinksPerGroup.map (·.1)).toFinset

/-- `handleGroupByQueryTaskPatch`, for the documents that its searcher sees. -/
def handleGroupByQueryTaskPatch (env : Environment) (qs : QuerySpecification)
    (tq : NativeQuery) (context : Option QueryRuntimeContext) (groupOffset : Nat)
    (docs : List IndexedDocument) : Except Failure GroupByResult := do
  let groups ← env.groupingSearch.search (groupField env qs.groupByTerm) docs tq groupOffset
    (groupLimit qs)
  let pages ← groupPages env qs groups.groups context
  let more := qs.groupResultLimit.isSome ∧ groupLimit qs ≤ groups.groups.length ∧
    groups.totalGroupedHitCount < groups.totalHitCount
  return ⟨pages, if more then some (groupLimit qs + groupOffset) else none⟩

/-- `handleQueryTaskPatch` for a task with `GROUP_BY`: its first page. -/
def handleQueryTaskPatch (env : Environment) (qs : QuerySpecification)
    (docs : List IndexedDocument) : Except Failure GroupByResult := do
  let (query, context) ← convert env.maxClauseCount qs.query (some ⟨qs.kindScope⟩)
  handleGroupByQueryTaskPatch env qs (snapshotQuery qs.timeSnapshotBoundaryMicros query) context
    0 docs

/-! ## The group keys depend on what the query matches -/

section

variable {env : Environment} {qs : QuerySpecification} {tq : NativeQuery}
  {context : Option QueryRuntimeContext}

/-- The search looks at the hits only, and at them only if it accepts its settings. -/
theorem search_congr {s : GroupingSearch} {field : Option String}
    {docs docs' : List IndexedDocument} {groupOffset : Nat} {limit : Int}
    (h : s.check field (groupOffset + limit) = .ok () →
      docs.filter (tq.matches ·) = docs'.filter (tq.matches ·)) :
    s.search field docs tq groupOffset limit = s.search field docs' tq groupOffset limit := by
  unfold GroupingSearch.search
  cases hcheck : s.check field (groupOffset + limit) with
  | error e => rfl
  | ok =>
      rw [h hcheck]

/-- Without hits there is no group. -/
theorem handle_empty
    (hcheck : env.groupingSearch.check (groupField env qs.groupByTerm) (groupLimit qs) = .ok ())
    {docs : List IndexedDocument} (h : docs.filter (tq.matches ·) = []) :
    ∃ r, handleGroupByQueryTaskPatch env qs tq context 0 docs = .ok r ∧ r.keys = ∅ := by
  have hnone : env.groupingSearch.arrange (groupField env qs.groupByTerm) [] = [] := by
    rw [List.eq_nil_iff_forall_not_mem]
    intro v hv
    obtain ⟨d, hd, -⟩ := (env.groupingSearch.mem_arrange _ _ v).mp hv
    cases hd
  have hsearch : env.groupingSearch.search (groupField env qs.groupByTerm) docs tq 0
      (groupLimit qs) = .ok ⟨[], 0, 0⟩ := by
    simp only [GroupingSearch.search, h, hnone, List.take_nil, List.drop_nil, List.map_nil,
      if_true]
    rw [Int.natCast_zero, zero_add, hcheck]
    rfl
  refine ⟨⟨[], none⟩, ?_, rfl⟩
  unfold handleGroupByQueryTaskPatch
  rw [hsearch]
  show Except.ok _ = _
  simp

/-- A page of groups that starts with a group has a key, if it has pages at all. -/
theorem groupPages_ne_nil {g : GroupDocs} {groups : List GroupDocs}
    (hhits : g.totalHits ≠ 0) {pages : List (String × LuceneQuery)}
    (h : groupPages env qs (g :: groups) context = .ok pages) : pages ≠ [] := by
  rw [groupPages, if_neg hhits] at h
  obtain ⟨clause, -, h⟩ := bind_eq_ok.mp h
  obtain ⟨⟨query, context'⟩, -, h⟩ := bind_eq_ok.mp h
  obtain ⟨rest, -, h⟩ := bind_eq_ok.mp h
  obtain rfl := Except.ok.inj h
  exact List.cons_ne_nil _ _

/-- A single hit has a group, whether the user may see it or not. -/
theorem handle_hit {d : IndexedDocument} (hd : tq.matches d = true) {r : GroupByResult}
    (h : handleGroupByQueryTaskPatch env qs tq context 0 [d] = .ok r) : r.keys ≠ ∅ := by
  obtain ⟨groups, hsearch, h⟩ := bind_eq_ok.mp h
  obtain ⟨pages, hpages, h⟩ := bind_eq_ok.mp h
  obtain rfl := Except.ok.inj h
  unfold GroupingSearch.search at hsearch
  obtain ⟨⟨⟩, hcheck, hsearch⟩ := bind_eq_ok.mp hsearch
  have hpos := env.groupingSearch.check_pos hcheck
  set field := groupField env qs.groupByTerm
  have hhits : [d].filter (tq.matches ·) = [d] := by simp [hd]
  -- the arrangement of one hit is its value alone
  have hvalues : env.groupingSearch.arrange field [d] = [groupValue field d] := by
    have hmem : ∀ v, v ∈ env.groupingSearch.arrange field [d] ↔ v = groupValue field d := by
      intro v
      rw [env.groupingSearch.mem_arrange]
      simp [eq_comm]
    refine List.perm_singleton.mp ?_
    rw [List.perm_ext_iff_of_nodup (env.groupingSearch.arrange_nodup _ _) (List.nodup_singleton _)]
    intro v
    rw [hmem v, List.mem_singleton]
  have htake : [groupValue field d].take (((0 : Nat) : Int) + groupLimit qs).toNat =
      [groupValue field d] := by
    refine List.take_of_length_le ?_
    simp only [List.length_singleton]
    omega
  simp only [hhits, hvalues, htake, List.drop_zero, List.map_cons, List.map_nil] at hsearch
  obtain rfl := Except.ok.inj hsearch
  have hne := groupPages_ne_nil (by simp) hpages
  intro hempty
  apply hne
  simpa [GroupByResult.keys] using hempty

end

/-! ## What the groups tell -/

/-- What a user is told about an index. -/
def groupKeys (env : Environment) (qs : QuerySpecification) (docs : List IndexedDocument) :
    Except Failure (Finset String) :=
  (handleQueryTaskPatch env qs docs).map (·.keys)

/-- The groups tell a user nothing about the documents that are expired or that the user may
not read. -/
def DoesNotLeak (env : Environment) (qs : QuerySpecification) (user : AuthorizationContext)
    (now : Int64) : Prop :=
  ∀ docs docs' : List IndexedDocument,
    docs.filter (visible env.maxClauseCount user now) =
      docs'.filter (visible env.maxClauseCount user now) →
    groupKeys env qs docs = groupKeys env qs docs'

/-- The query of the task leaves out by itself what the user may not see. A task that fails
before it searches counts as such. -/
def SeesVisibleOnly (env : Environment) (qs : QuerySpecification) (user : AuthorizationContext)
    (now : Int64) : Prop :=
  ∀ query context, convert env.maxClauseCount qs.query (some ⟨qs.kindScope⟩) = .ok (query, context) →
    env.groupingSearch.check (groupField env qs.groupByTerm) (groupLimit qs) = .ok () →
      ∀ d, (snapshotQuery qs.timeSnapshotBoundaryMicros query).matches d = true →
        visible env.maxClauseCount user now d = true

theorem groupKeys_eq {env : Environment} {qs : QuerySpecification} {query : LuceneQuery}
    {context : Option QueryRuntimeContext}
    (h : convert env.maxClauseCount qs.query (some ⟨qs.kindScope⟩) = .ok (query, context))
    (docs : List IndexedDocument) :
    groupKeys env qs docs = (handleGroupByQueryTaskPatch env qs
      (snapshotQuery qs.timeSnapshotBoundaryMicros query) context 0 docs).map (·.keys) := by
  unfold groupKeys handleQueryTaskPatch
  rw [h]
  rfl

/-- The groups of a task leak nothing just when its query, as the user sent it, matches nothing
that is expired or out of the user's reach. -/
theorem groupBy_keeps_secrets_iff (env : Environment) (qs : QuerySpecification)
    (user : AuthorizationContext) (now : Int64) :
    DoesNotLeak env qs user now ↔ SeesVisibleOnly env qs user now := by
  constructor
  · intro hsame query context hconvert hcheck d hd
    by_contra hhidden
    rw [Bool.not_eq_true] at hhidden
    -- the index with the hidden document alone, and the empty index
    have heq := hsame [d] [] (by simp [hhidden])
    obtain ⟨r, hr, hkeys⟩ : ∃ r, handleGroupByQueryTaskPatch env qs
        (snapshotQuery qs.timeSnapshotBoundaryMicros query) context 0 [] = .ok r ∧ r.keys = ∅ :=
      handle_empty hcheck rfl
    rw [groupKeys_eq hconvert, groupKeys_eq hconvert, hr] at heq
    cases hhit : handleGroupByQueryTaskPatch env qs
        (snapshotQuery qs.timeSnapshotBoundaryMicros query) context 0 [d] with
    | error e =>
        rw [hhit] at heq
        cases heq
    | ok r' =>
        rw [hhit] at heq
        have hsame : r'.keys = r.keys := Except.ok.inj heq
        exact handle_hit hd hhit (hsame.trans hkeys)
  · intro hsees docs docs' hagree
    cases hconvert : convert env.maxClauseCount qs.query (some ⟨qs.kindScope⟩) with
    | error e =>
        unfold groupKeys handleQueryTaskPatch
        rw [hconvert]
        rfl
    | ok p =>
        obtain ⟨query, context⟩ := p
        rw [groupKeys_eq hconvert, groupKeys_eq hconvert]
        unfold handleGroupByQueryTaskPatch
        rw [search_congr]
        intro hcheck
        rw [Int.natCast_zero, zero_add] at hcheck
        exact filter_eq_of_imp (hsees query context hconvert hcheck) hagree

/-! ## A group of a secret -/

section

/-- A search that keeps the groups in the order of their first hits. -/
def firstHits : GroupingSearch where
  check _ topN :=
    if topN < 1 then .error (.illegalArgument "topNGroups must be >= 1") else .ok ()
  arrange field hits := (hits.map (groupValue field)).dedup
  check_pos {_ topN} h := by
    by_contra hlt
    rw [if_pos (by omega)] at h
    cases h
  arrange_nodup _ _ := List.nodup_dedup _
  mem_arrange _ _ _ := by simp

def secretEnvironment : Environment where
  maxClauseCount := 1024
  disableSortFieldNaming := false
  java := ⟨fun _ => true, fun _ => none, fun _ => ⟨0⟩, fun _ => 0⟩
  groupingSearch := firstHits

def termOf (name value : String) : Query :=
  .ofTerm (some .mustOccur) ⟨some name, some value, some .term, none⟩

/-- All documents of a kind, by their names. -/
def namesOfKind : QuerySpecification where
  query := .ofClauses (some .mustOccur) [termOf fieldNameKind "example"]
  kindScope := none
  timeSnapshotBoundaryMicros := none
  groupByTerm := ⟨some "name", some .string⟩
  groupResultLimit := none

/-- Jane reads what she owns. -/
def jane : AuthorizationContext where
  isSystemUser := false
  getResourceQuery action := if action = .get then some (termOf "owner" "jane") else none

/-- A document of John's, that does not expire. -/
def johns : IndexedDocument where
  terms field := if field = fieldNameKind then [(0, "example")]
    else if field = "owner" then [(0, "john")] else []
  longs _ := []
  doubles _ := []
  numericDocValues _ := none
  sortedDocValues field := if field = "name_sort" then some "secret" else none

/-- Jane, who may not read John's document, is told its name. -/
theorem groupBy_leaks : ¬ ∀ (env : Environment) (qs : QuerySpecification)
    (user : AuthorizationContext) (now : Int64), user.isSystemUser = false →
      DoesNotLeak env qs user now := by
  intro h
  have hhidden : visible secretEnvironment.maxClauseCount jane 1000 johns = false := by decide
  have hsame := h secretEnvironment namesOfKind jane 1000 rfl [johns] [] (by simp [hhidden])
  have hkeys : groupKeys secretEnvironment namesOfKind [johns] = .ok {"secret"} := by decide
  have hnone : groupKeys secretEnvironment namesOfKind [] = .ok ∅ := by decide
  rw [hkeys, hnone] at hsame
  exact absurd (Except.ok.inj hsame) (by decide)

end

end Xenon.Index.GroupBy
