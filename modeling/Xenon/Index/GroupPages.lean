import Mathlib.Algebra.BigOperators.Group.Finset.Basic
import Xenon.Index.GroupBy

/-!
# The pages of the groups

A grouped query with a limit of groups returns its first groups, and a link to a page for the
next ones. The page has a copy of the specification, and `QuerySpecification.copyTo` leaves the
limit out: the page returns what groups there are, up to the default limit, and is the last one.
-/

namespace Xenon.Index.GroupBy

open Xenon.Common Xenon.Foundation Xenon.Lucene Xenon.QueryTask Xenon.OData

/-! ## From page to page -/

/-- `copyTo` a new specification. -/
def QuerySpecification.copyTo (qs : QuerySpecification) : QuerySpecification where
  query := qs.query
  kindScope := qs.kindScope
  timeSnapshotBoundaryMicros := qs.timeSnapshotBoundaryMicros
  groupByTerm := qs.groupByTerm
  groupResultLimit := none

/-- The context of the query after the loop over the groups, with the kinds that were converted. -/
def groupContext (env : Environment) (qs : QuerySpecification) :
    List GroupDocs → Option QueryRuntimeContext → Option QueryRuntimeContext
  | [], context => context
  | g :: groups, context =>
      if g.totalHits = 0 then groupContext env qs groups context
      else
        match groupClause env qs.groupByTerm g.groupValue >>= fun clause =>
          convertGroup env.maxClauseCount qs.query clause context with
        | .ok (_, context) => groupContext env qs groups context
        | .error _ => context

/-- The context that the next page gets. -/
def pageContext (env : Environment) (qs : QuerySpecification) (tq : NativeQuery)
    (context : Option QueryRuntimeContext) (groupOffset : Nat) (docs : List IndexedDocument) :
    Option QueryRuntimeContext :=
  match env.groupingSearch.search (groupField env qs.groupByTerm) docs tq groupOffset
      (groupLimit qs) with
  | .ok groups => groupContext env qs groups.groups context
  | .error _ => context

/-- Follow the links from page to page, on one searcher. -/
def followGroups (env : Environment) (tq : NativeQuery) (docs : List IndexedDocument) :
    Nat → QuerySpecification → Option QueryRuntimeContext → Nat →
      Except Failure (List GroupByResult)
  | 0, _, _, _ => .error .outOfFuel
  | fuel + 1, qs, context, groupOffset => do
      let page ← handleGroupByQueryTaskPatch env qs tq context groupOffset docs
      match page.nextPageLink with
      | none => return [page]
      | some next =>
          let pages ← followGroups env tq docs fuel qs.copyTo
            (pageContext env qs tq context groupOffset docs) next.toNat
          return page :: pages

/-- All pages of the groups. -/
def paginateGroups (env : Environment) (qs : QuerySpecification) (tq : NativeQuery)
    (context : Option QueryRuntimeContext) (docs : List IndexedDocument) :
    Except Failure (List GroupByResult) :=
  followGroups env tq docs (docs.length + 2) qs context 0

/-- The groups that a query has, in the order of the search. -/
def groupsOf (env : Environment) (qs : QuerySpecification) (tq : NativeQuery)
    (docs : List IndexedDocument) : List (Option String) :=
  env.groupingSearch.arrange (groupField env qs.groupByTerm) (docs.filter (tq.matches ·))

/-- The groups of a page. -/
def pageGroups (env : Environment) (qs : QuerySpecification) (tq : NativeQuery)
    (docs : List IndexedDocument) (groupOffset : Nat) : List (Option String) :=
  ((groupsOf env qs tq docs).take (groupOffset + groupLimit qs).toNat).drop groupOffset

/-- The number of hits in a group. -/
def hitsOf (env : Environment) (qs : QuerySpecification) (tq : NativeQuery)
    (docs : List IndexedDocument) (value : Option String) : Nat :=
  (docs.filter (tq.matches ·)).countP fun d => groupValue (groupField env qs.groupByTerm) d = value

/-! ## A page -/

section

variable {env : Environment} {qs : QuerySpecification} {tq : NativeQuery}
  {docs : List IndexedDocument}

/-- The conversion of a list of clauses does not depend on the context. -/
theorem buildBooleanQuery_any {maxClauseCount : Nat} {qs : List Query}
    (hqs : ∀ q ∈ qs, ∀ {context r}, convertToLuceneQuery maxClauseCount q context = .ok r →
      ∀ context', ∃ c, convertToLuceneQuery maxClauseCount q context' = .ok (r.1, c)) :
    ∀ {n context r}, buildBooleanQuery maxClauseCount qs n context = .ok r →
      ∀ context', ∃ c, buildBooleanQuery maxClauseCount qs n context' = .ok (r.1, c) := by
  induction qs with
  | nil =>
      intro n context r h context'
      obtain rfl := Except.ok.inj h
      exact ⟨context', rfl⟩
  | cons q qs ih =>
      intro n context r h context'
      obtain ⟨⟨lq, context₁⟩, hq, h⟩ := bind_eq_ok.mp h
      dsimp only at h
      obtain ⟨_, hcount, h⟩ := bind_eq_ok.mp h
      obtain ⟨⟨rest, context₂⟩, hrest, h⟩ := bind_eq_ok.mp h
      obtain rfl := Except.ok.inj h
      obtain ⟨c₁, hq'⟩ := hqs q List.mem_cons_self hq context'
      obtain ⟨c₂, hrest'⟩ := ih (fun q' hq' => hqs q' (List.mem_cons_of_mem _ hq')) hrest c₁
      refine ⟨c₂, ?_⟩
      unfold buildBooleanQuery
      apply bind_eq_ok.mpr
      refine ⟨_, hq', bind_eq_ok.mpr ⟨_, hcount, bind_eq_ok.mpr ⟨_, hrest', rfl⟩⟩⟩

theorem convertToLuceneQuery_any {maxClauseCount : Nat} (q : Query) :
    ∀ {context r}, convertToLuceneQuery maxClauseCount q context = .ok r →
      ∀ context', ∃ c, convertToLuceneQuery maxClauseCount q context' = .ok (r.1, c) := by
  induction q using Query.ofAll with
  | h o t qs ih =>
      intro context r h context'
      rcases t with _ | t <;> rcases qs with _ | qs
      · cases h
      · unfold convertToLuceneQuery convertToLuceneBooleanQuery at h ⊢
        obtain ⟨choice, hchoice, h⟩ := bind_eq_ok.mp h
        cases choice with
        | some p =>
            obtain rfl := Except.ok.inj h
            exact ⟨context', bind_eq_ok.mpr ⟨_, hchoice, rfl⟩⟩
        | none =>
            dsimp only at h
            obtain ⟨⟨clauses, context₁⟩, hbuild, h⟩ := bind_eq_ok.mp h
            obtain rfl := Except.ok.inj h
            obtain ⟨c, hbuild'⟩ := buildBooleanQuery_any (fun q hq => ih q hq) hbuild context'
            exact ⟨c, bind_eq_ok.mpr ⟨_, hchoice, bind_eq_ok.mpr ⟨_, hbuild', rfl⟩⟩⟩
      · unfold convertToLuceneQuery at h ⊢
        obtain ⟨leaf, hleaf, h⟩ := bind_eq_ok.mp h
        obtain rfl := Except.ok.inj h
        exact ⟨_, bind_eq_ok.mpr ⟨_, hleaf, rfl⟩⟩
      · cases h

theorem convertGroup_any {maxClauseCount : Nat} {query clause : Query}
    {context : Option QueryRuntimeContext} {r : LuceneQuery × Option QueryRuntimeContext}
    (h : convertGroup maxClauseCount query clause context = .ok r)
    (context' : Option QueryRuntimeContext) :
    ∃ c, convertGroup maxClauseCount query clause context' = .ok (r.1, c) := by
  unfold convertGroup at h ⊢
  cases hclauses : query.booleanClauses with
  | none =>
      rw [hclauses] at h
      cases h
  | some clauses =>
      rw [hclauses] at h
      dsimp only at h ⊢
      unfold convert at h ⊢
      cases hadded : (query.addBooleanClause clause).booleanClauses with
      | none =>
          rw [hadded] at h
          exact convertToLuceneQuery_any _ h context'
      | some added =>
          rw [hadded] at h
          obtain ⟨⟨lq, context₁⟩, hconvert, h⟩ := bind_eq_ok.mp h
          obtain rfl := Except.ok.inj h
          obtain ⟨c, hconvert'⟩ := convertToLuceneQuery_any _ hconvert context'
          exact ⟨c, bind_eq_ok.mpr ⟨_, hconvert', rfl⟩⟩

/-- A page of its own can be made for the documents with a value. -/
def Convertible (env : Environment) (qs : QuerySpecification) (value : Option String) : Prop :=
  ∃ clause r, groupClause env qs.groupByTerm value = .ok clause ∧
    convertGroup env.maxClauseCount qs.query clause none = .ok r

/-- The loop succeeds if the page of each group can be made. -/
theorem exists_groupPages {groups : List GroupDocs}
    (hconvertible : ∀ g ∈ groups, Convertible env qs g.groupValue)
    (context : Option QueryRuntimeContext) :
    ∃ pages, groupPages env qs groups context = .ok pages := by
  induction groups generalizing context with
  | nil => exact ⟨[], rfl⟩
  | cons g groups ih =>
      rw [List.forall_mem_cons] at hconvertible
      obtain ⟨⟨clause, r, hclause, hgroup⟩, hrest⟩ := hconvertible
      unfold groupPages
      split_ifs with hhits
      · exact ih hrest context
      · obtain ⟨c, hgroup'⟩ := convertGroup_any hgroup context
        obtain ⟨pages, hpages⟩ := ih hrest c
        exact ⟨_, bind_eq_ok.mpr ⟨_, hclause, bind_eq_ok.mpr ⟨_, hgroup',
          bind_eq_ok.mpr ⟨_, hpages, rfl⟩⟩⟩⟩

/-- What the loop returns has the keys of the groups, each of which can be made a page. -/
theorem groupPages_spec {groups : List GroupDocs} (hhits : ∀ g ∈ groups, g.totalHits ≠ 0)
    {context : Option QueryRuntimeContext} {pages : List (String × LuceneQuery)}
    (h : groupPages env qs groups context = .ok pages) :
    (∀ g ∈ groups, Convertible env qs g.groupValue) ∧
      pages.map Prod.fst = groups.map fun g => groupKey g.groupValue := by
  induction groups generalizing context pages with
  | nil =>
      obtain rfl := Except.ok.inj h
      exact ⟨List.forall_mem_nil _, rfl⟩
  | cons g groups ih =>
      rw [List.forall_mem_cons] at hhits ⊢
      rw [groupPages, if_neg hhits.1] at h
      obtain ⟨clause, hclause, h⟩ := bind_eq_ok.mp h
      obtain ⟨⟨query, context'⟩, hgroup, h⟩ := bind_eq_ok.mp h
      obtain ⟨rest, hrest, h⟩ := bind_eq_ok.mp h
      obtain rfl := Except.ok.inj h
      obtain ⟨hconvertible, hkeys⟩ := ih hhits.2 hrest
      obtain ⟨c, hgroup'⟩ := convertGroup_any hgroup none
      exact ⟨⟨⟨clause, _, hclause, hgroup'⟩, hconvertible⟩, by rw [List.map_cons, hkeys]; rfl⟩

theorem hitsOf_ne_zero {value : Option String} (h : value ∈ groupsOf env qs tq docs) :
    hitsOf env qs tq docs value ≠ 0 := by
  obtain ⟨d, hd, hvalue⟩ := (env.groupingSearch.mem_arrange _ _ value).mp h
  have hpos : 0 < hitsOf env qs tq docs value :=
    List.countP_pos_iff.mpr ⟨d, hd, decide_eq_true hvalue⟩
  exact hpos.ne'

/-- Every hit is in one group. -/
theorem sum_hitsOf : ((groupsOf env qs tq docs).map (hitsOf env qs tq docs)).sum =
    (docs.filter (tq.matches ·)).length := by
  set hits := docs.filter (tq.matches ·) with hhits
  set field := groupField env qs.groupByTerm with hfield
  have hcount : ∀ v, hitsOf env qs tq docs v =
      Multiset.count v (hits.map (groupValue field) : List (Option String)) := by
    intro v
    show _ = Multiset.countP (v = ·) _
    rw [Multiset.coe_countP, List.countP_map]
    apply List.countP_congr
    intro d _
    rw [Function.comp_apply, decide_eq_true_iff, decide_eq_true_iff, eq_comm]
  have hmem : ∀ v ∈ ((hits.map (groupValue field) : List _) : Multiset (Option String)),
      v ∈ (groupsOf env qs tq docs).toFinset := by
    intro v hv
    obtain ⟨d, hd, rfl⟩ := List.mem_map.mp (Multiset.mem_coe.mp hv)
    exact List.mem_toFinset.mpr ((env.groupingSearch.mem_arrange _ _ _).mpr ⟨d, hd, rfl⟩)
  have hnodup : (groupsOf env qs tq docs).Nodup := env.groupingSearch.arrange_nodup _ _
  have hsum := Multiset.sum_count_eq_card hmem
  rw [List.sum_toFinset _ hnodup] at hsum
  rw [Multiset.coe_card, List.length_map] at hsum
  rw [← hsum]
  congr 1
  exact List.map_congr_left fun v _ => hcount v

/-- Some of the groups have all hits just when they are all groups. -/
theorem sum_take_lt_iff (k : Nat) :
    (((groupsOf env qs tq docs).take k).map (hitsOf env qs tq docs)).sum <
      (docs.filter (tq.matches ·)).length ↔ k < (groupsOf env qs tq docs).length := by
  have hsum : (((groupsOf env qs tq docs).take k).map (hitsOf env qs tq docs)).sum +
      (((groupsOf env qs tq docs).drop k).map (hitsOf env qs tq docs)).sum =
        (docs.filter (tq.matches ·)).length := by
    rw [← List.sum_append, ← List.map_append, List.take_append_drop, sum_hitsOf]
  constructor
  · intro hlt
    by_contra hle
    rw [List.drop_eq_nil_of_le (not_lt.mp hle), List.map_nil, List.sum_nil] at hsum
    omega
  · intro hlt
    have hpos : 0 < (((groupsOf env qs tq docs).drop k).map (hitsOf env qs tq docs)).sum := by
      rw [List.drop_eq_getElem_cons hlt, List.map_cons, List.sum_cons]
      have := hitsOf_ne_zero (List.getElem_mem hlt)
      omega
    omega

/-- A page of the groups, and when it has a link to the next one. -/
structure IsPage (env : Environment) (qs : QuerySpecification) (tq : NativeQuery)
    (docs : List IndexedDocument) (groupOffset : Nat) (r : GroupByResult) : Prop where
  convertible : ∀ v ∈ pageGroups env qs tq docs groupOffset, Convertible env qs v
  keys : r.nextPageLinksPerGroup.map Prod.fst =
    (pageGroups env qs tq docs groupOffset).map groupKey
  next : r.nextPageLink =
    if qs.groupResultLimit.isSome ∧ groupLimit qs ≤ (pageGroups env qs tq docs groupOffset).length ∧
        ((pageGroups env qs tq docs groupOffset).map (hitsOf env qs tq docs)).sum <
          (docs.filter (tq.matches ·)).length then
      some (groupLimit qs + groupOffset)
    else none

variable {groupOffset : Nat} {context : Option QueryRuntimeContext}

theorem search_eq (hcheck : env.groupingSearch.check (groupField env qs.groupByTerm)
      (groupOffset + groupLimit qs) = .ok ()) :
    env.groupingSearch.search (groupField env qs.groupByTerm) docs tq groupOffset (groupLimit qs) =
      .ok (if pageGroups env qs tq docs groupOffset = [] then ⟨[], 0, 0⟩ else
        ⟨(pageGroups env qs tq docs groupOffset).map fun v => ⟨v, hitsOf env qs tq docs v⟩,
          (docs.filter (tq.matches ·)).length,
          ((pageGroups env qs tq docs groupOffset).map (hitsOf env qs tq docs)).sum⟩) := by
  unfold GroupingSearch.search
  rw [hcheck]
  show (if List.map _ (pageGroups env qs tq docs groupOffset) = [] then _ else _) = _
  by_cases hnil : pageGroups env qs tq docs groupOffset = []
  · rw [if_pos (by rw [hnil]; rfl), if_pos hnil]
    rfl
  · rw [if_neg (by rwa [List.map_eq_nil_iff]), if_neg hnil, List.map_map]
    rfl

theorem hits_ne_zero : ∀ g ∈ (pageGroups env qs tq docs groupOffset).map fun v =>
    (⟨v, hitsOf env qs tq docs v⟩ : GroupDocs), g.totalHits ≠ 0 := by
  intro g hg
  obtain ⟨v, hv, rfl⟩ := List.mem_map.mp hg
  exact hitsOf_ne_zero (List.mem_of_mem_take (List.mem_of_mem_drop hv))

theorem isPage_of_handle (hlimit : 1 ≤ groupLimit qs)
    (hcheck : env.groupingSearch.check (groupField env qs.groupByTerm)
      (groupOffset + groupLimit qs) = .ok ()) {r : GroupByResult}
    (h : handleGroupByQueryTaskPatch env qs tq context groupOffset docs = .ok r) :
    IsPage env qs tq docs groupOffset r := by
  unfold handleGroupByQueryTaskPatch at h
  rw [search_eq hcheck] at h
  obtain ⟨groups, hgroups, h⟩ := bind_eq_ok.mp h
  obtain rfl := Except.ok.inj hgroups
  obtain ⟨pages, hpages, h⟩ := bind_eq_ok.mp h
  obtain rfl := Except.ok.inj h
  by_cases hnil : pageGroups env qs tq docs groupOffset = []
  · rw [if_pos hnil] at hpages
    obtain rfl := Except.ok.inj hpages
    refine ⟨?_, ?_, ?_⟩
    · rw [hnil]
      exact List.forall_mem_nil _
    · rw [hnil]
      rfl
    · dsimp only
      rw [if_pos hnil, hnil, if_neg, if_neg]
      · rintro ⟨-, hle, -⟩
        simp only [List.length_nil] at hle
        omega
      · rintro ⟨-, hle, -⟩
        simp only [List.length_nil] at hle
        omega
  · rw [if_neg hnil] at hpages
    obtain ⟨hconvertible, hkeys⟩ := groupPages_spec hits_ne_zero hpages
    refine ⟨fun v hv => hconvertible _ (List.mem_map.mpr ⟨v, hv, rfl⟩), ?_, ?_⟩
    · rw [hkeys, List.map_map]
      rfl
    · dsimp only
      rw [if_neg hnil, List.length_map]

theorem exists_handle (hcheck : env.groupingSearch.check (groupField env qs.groupByTerm)
      (groupOffset + groupLimit qs) = .ok ())
    (h : ∀ v ∈ pageGroups env qs tq docs groupOffset, Convertible env qs v)
    (context : Option QueryRuntimeContext) :
    ∃ r, handleGroupByQueryTaskPatch env qs tq context groupOffset docs = .ok r := by
  unfold handleGroupByQueryTaskPatch
  rw [search_eq hcheck]
  have hall : ∀ g ∈ (if pageGroups env qs tq docs groupOffset = [] then ⟨[], 0, 0⟩ else
      (⟨(pageGroups env qs tq docs groupOffset).map fun v => ⟨v, hitsOf env qs tq docs v⟩,
        (docs.filter (tq.matches ·)).length,
        ((pageGroups env qs tq docs groupOffset).map (hitsOf env qs tq docs)).sum⟩ :
          TopGroups)).groups, Convertible env qs g.groupValue := by
    split_ifs
    · exact List.forall_mem_nil _
    · intro g hg
      obtain ⟨v, hv, rfl⟩ := List.mem_map.mp hg
      exact h v hv
  obtain ⟨pages, hpages⟩ := exists_groupPages hall context
  exact ⟨_, bind_eq_ok.mpr ⟨_, rfl, bind_eq_ok.mpr ⟨_, hpages, rfl⟩⟩⟩

end

/-! ## All pages -/

/-- **The pages have all groups**: each key is on one of them, none has too many groups, and there
is a next page just when groups remain. -/
structure GroupsComplete (g : Nat) (groups : List (Option String)) (pages : List GroupByResult) :
    Prop where
  keys : ∀ key, (∃ page ∈ pages, key ∈ page.keys) ↔ ∃ value ∈ groups, groupKey value = key
  once : pages.Pairwise fun page page' => Disjoint page.keys page'.keys
  bounded : ∀ page ∈ pages, page.nextPageLinksPerGroup.length ≤ g
  next : ∀ first page rest, pages = first ++ page :: rest → (page.nextPageLink ≠ none ↔
    ((first ++ [page]).map (·.nextPageLinksPerGroup.length)).sum < groups.length)

def PaginatesGroups (env : Environment) (qs : QuerySpecification) (tq : NativeQuery)
    (context : Option QueryRuntimeContext) (docs : List IndexedDocument) (g : Nat) : Prop :=
  ∃ pages, paginateGroups env qs tq context docs = .ok pages ∧
    GroupsComplete g (groupsOf env qs tq docs) pages

section

variable {env : Environment} {qs : QuerySpecification} {tq : NativeQuery}
  {context : Option QueryRuntimeContext} {docs : List IndexedDocument} {g : Nat}

theorem IsPage.mem_keys {groupOffset : Nat} {r : GroupByResult}
    (h : IsPage env qs tq docs groupOffset r) (key : String) :
    key ∈ r.keys ↔ ∃ v ∈ pageGroups env qs tq docs groupOffset, groupKey v = key := by
  rw [GroupByResult.keys, h.keys, List.mem_toFinset, List.mem_map]

theorem IsPage.length {groupOffset : Nat} {r : GroupByResult}
    (h : IsPage env qs tq docs groupOffset r) :
    r.nextPageLinksPerGroup.length = (pageGroups env qs tq docs groupOffset).length := by
  rw [← List.length_map Prod.fst, h.keys, List.length_map]

/-- The first page has the groups up to the limit. -/
theorem pageGroups_first (hlimit : qs.groupResultLimit = some (g : Int)) :
    pageGroups env qs tq docs 0 = (groupsOf env qs tq docs).take g := by
  simp [pageGroups, groupLimit, hlimit]

theorem next_first {r : GroupByResult} (hlimit : qs.groupResultLimit = some (g : Int))
    (h : IsPage env qs tq docs 0 r) :
    r.nextPageLink = if g < (groupsOf env qs tq docs).length then some (g : Int) else none := by
  rw [h.next, pageGroups_first hlimit]
  have hg : groupLimit qs = g := by
    simp [groupLimit, hlimit]
  by_cases hlt : g < (groupsOf env qs tq docs).length
  · rw [if_pos hlt, if_pos]
    · rw [hg, Int.natCast_zero, add_zero]
    · refine ⟨by rw [hlimit]; rfl, ?_, (sum_take_lt_iff g).mpr hlt⟩
      rw [hg, List.length_take, min_eq_left hlt.le]
  · rw [if_neg hlt, if_neg]
    exact fun hmore => hlt ((sum_take_lt_iff g).mp hmore.2.2)

/-- The second page has the copy of the specification, without the limit. -/
theorem pageGroups_second : pageGroups env qs.copyTo tq docs g =
    ((groupsOf env qs tq docs).take (g + 10000)).drop g := by
  show List.drop g (List.take ((g : Int) + 10000).toNat _) = _
  congr 2

theorem next_second {r : GroupByResult} (h : IsPage env qs.copyTo tq docs g r) :
    r.nextPageLink = none := by
  rw [h.next, if_neg]
  rintro ⟨hsome, -⟩
  cases hsome

theorem check_first (hg : 1 ≤ g) (hlimit : qs.groupResultLimit = some (g : Int))
    (hcheck : ∀ topN, 1 ≤ topN →
      env.groupingSearch.check (groupField env qs.groupByTerm) topN = .ok ()) :
    env.groupingSearch.check (groupField env qs.groupByTerm) ((0 : Nat) + groupLimit qs) =
      .ok () := by
  apply hcheck
  simp only [groupLimit, hlimit, Option.getD_some]
  omega

theorem check_second (hcheck : ∀ topN, 1 ≤ topN →
      env.groupingSearch.check (groupField env qs.groupByTerm) topN = .ok ()) :
    env.groupingSearch.check (groupField env qs.copyTo.groupByTerm) (g + groupLimit qs.copyTo) =
      .ok () := by
  apply hcheck
  show (1 : Int) ≤ g + 10000
  omega

theorem isPage_first (hg : 1 ≤ g) (hlimit : qs.groupResultLimit = some (g : Int))
    (hcheck : ∀ topN, 1 ≤ topN →
      env.groupingSearch.check (groupField env qs.groupByTerm) topN = .ok ())
    {r : GroupByResult} (h : handleGroupByQueryTaskPatch env qs tq context 0 docs = .ok r) :
    IsPage env qs tq docs 0 r := by
  apply isPage_of_handle _ (check_first hg hlimit hcheck) h
  simp only [groupLimit, hlimit, Option.getD_some]
  omega

theorem isPage_second (hcheck : ∀ topN, 1 ≤ topN →
      env.groupingSearch.check (groupField env qs.groupByTerm) topN = .ok ())
    {r : GroupByResult} (h : handleGroupByQueryTaskPatch env qs.copyTo tq context g docs = .ok r) :
    IsPage env qs.copyTo tq docs g r := by
  apply isPage_of_handle _ (check_second hcheck) h
  show (1 : Int) ≤ 10000
  decide

/-- There is one page or two. -/
theorem paginateGroups_eq_ok (hg : 1 ≤ g) (hlimit : qs.groupResultLimit = some (g : Int))
    (hcheck : ∀ topN, 1 ≤ topN →
      env.groupingSearch.check (groupField env qs.groupByTerm) topN = .ok ())
    {pages : List GroupByResult} :
    paginateGroups env qs tq context docs = .ok pages ↔
      ∃ r, handleGroupByQueryTaskPatch env qs tq context 0 docs = .ok r ∧
        if g < (groupsOf env qs tq docs).length then
          ∃ r', handleGroupByQueryTaskPatch env qs.copyTo tq (pageContext env qs tq context 0 docs)
            g docs = .ok r' ∧ pages = [r, r']
        else pages = [r] := by
  unfold paginateGroups followGroups
  rw [bind_eq_ok]
  apply exists_congr
  intro r
  apply and_congr_right
  intro hr
  rw [next_first hlimit (isPage_first hg hlimit hcheck hr)]
  split_ifs with hmore
  · dsimp only
    rw [bind_eq_ok]
    unfold followGroups
    constructor
    · rintro ⟨pages', hpages', h⟩
      obtain ⟨r', hr', h'⟩ := bind_eq_ok.mp hpages'
      rw [next_second (isPage_second hcheck hr')] at h'
      obtain rfl := Except.ok.inj h'
      exact ⟨r', hr', (Except.ok.inj h).symm⟩
    · rintro ⟨r', hr', rfl⟩
      refine ⟨[r'], bind_eq_ok.mpr ⟨r', hr', ?_⟩, rfl⟩
      rw [next_second (isPage_second hcheck hr')]
      rfl
  · exact ⟨fun h => (Except.ok.inj h).symm, fun h => congrArg Except.ok h.symm⟩

/-- What the second page has, if it has all that is left. -/
theorem pageGroups_second_eq (h : (groupsOf env qs tq docs).length ≤ g + 10000) :
    pageGroups env qs.copyTo tq docs g = (groupsOf env qs tq docs).drop g := by
  rw [pageGroups_second, List.take_of_length_le h]

/-- A single page is complete if the limit is not exceeded. -/
theorem complete_single {r : GroupByResult} (hlimit : qs.groupResultLimit = some (g : Int))
    (hr : IsPage env qs tq docs 0 r) (hle : (groupsOf env qs tq docs).length ≤ g) :
    GroupsComplete g (groupsOf env qs tq docs) [r] := by
  have hall : pageGroups env qs tq docs 0 = groupsOf env qs tq docs := by
    rw [pageGroups_first hlimit, List.take_of_length_le hle]
  constructor
  case keys =>
    intro key
    rw [List.exists_mem_cons_iff, hr.mem_keys, hall]
    simp
  case once => exact List.pairwise_singleton _ _
  case bounded =>
    intro page hpage
    obtain rfl := List.mem_singleton.mp hpage
    rw [hr.length, hall]
    exact hle
  case next =>
    intro first page rest hpages
    obtain ⟨rfl, rfl, rfl⟩ : first = [] ∧ page = r ∧ rest = [] := by
      cases first with
      | nil => exact ⟨rfl, ((List.cons.inj hpages).1).symm, ((List.cons.inj hpages).2).symm⟩
      | cons p first => exact absurd (List.cons.inj hpages).2.symm (by simp)
    rw [next_first hlimit hr, if_neg (not_lt.mpr hle)]
    simp [hr.length, hall]

/-- Two pages are complete just when the second has room for what is left, and no key of the
first. -/
theorem complete_pair_iff {r r' : GroupByResult} (hlimit : qs.groupResultLimit = some (g : Int))
    (hr : IsPage env qs tq docs 0 r) (hr' : IsPage env qs.copyTo tq docs g r')
    (hlt : g < (groupsOf env qs tq docs).length) :
    GroupsComplete g (groupsOf env qs tq docs) [r, r'] ↔
      (groupsOf env qs tq docs).length ≤ g + min g 10000 ∧
        ∀ v ∈ (groupsOf env qs tq docs).take g, ∀ v' ∈ (groupsOf env qs tq docs).drop g,
          groupKey v ≠ groupKey v' := by
  have hlength : r.nextPageLinksPerGroup.length = g := by
    rw [hr.length, pageGroups_first hlimit, List.length_take, min_eq_left hlt.le]
  have hlength' : r'.nextPageLinksPerGroup.length =
      min (g + 10000) (groupsOf env qs tq docs).length - g := by
    rw [hr'.length, pageGroups_second, List.length_drop, List.length_take]
  have hnext : r.nextPageLink ≠ none := by
    rw [next_first hlimit hr, if_pos hlt]
    exact Option.some_ne_none _
  constructor
  · intro hcomplete
    have hbound := hcomplete.bounded r' (by simp)
    -- the second page has no link, so the groups end with it
    have hlast := (hcomplete.next [r] r' [] rfl).not.mp (not_not.mpr (next_second hr'))
    simp only [List.singleton_append, List.map_cons, List.map_nil, List.sum_cons, List.sum_nil]
      at hlast
    have hle : (groupsOf env qs tq docs).length ≤ g + min g 10000 := by
      omega
    refine ⟨hle, fun v hv v' hv' heq => ?_⟩
    -- groups with one key on both sides of the cut would be reported twice
    have hdisjoint := List.rel_of_pairwise_cons hcomplete.once (List.mem_singleton_self r')
    have hmem : groupKey v ∈ r.keys :=
      (hr.mem_keys _).mpr ⟨v, by rwa [pageGroups_first hlimit], rfl⟩
    have hmem' : groupKey v ∈ r'.keys :=
      (hr'.mem_keys _).mpr ⟨v', by rwa [pageGroups_second_eq (by omega)], heq.symm⟩
    exact Finset.disjoint_left.mp hdisjoint hmem hmem'
  · rintro ⟨hle, hkeys⟩
    have hfits : (groupsOf env qs tq docs).length ≤ g + 10000 := by
      omega
    have hrest := pageGroups_second_eq hfits
    constructor
    case keys =>
      intro key
      rw [List.exists_mem_cons_iff, List.exists_mem_cons_iff, hr.mem_keys, hr'.mem_keys,
        pageGroups_first hlimit, hrest]
      constructor
      · rintro (⟨v, hv, hkey⟩ | ⟨v, hv, hkey⟩ | ⟨_, hnil, -⟩)
        · exact ⟨v, List.mem_of_mem_take hv, hkey⟩
        · exact ⟨v, List.mem_of_mem_drop hv, hkey⟩
        · cases hnil
      · rintro ⟨v, hv, hkey⟩
        rw [← List.take_append_drop g (groupsOf env qs tq docs), List.mem_append] at hv
        rcases hv with hv | hv
        · exact Or.inl ⟨v, hv, hkey⟩
        · exact Or.inr (Or.inl ⟨v, hv, hkey⟩)
    case once =>
      apply List.pairwise_pair.mpr
      rw [Finset.disjoint_left]
      intro key hkey hkey'
      obtain ⟨v, hv, rfl⟩ := (hr.mem_keys _).mp hkey
      obtain ⟨v', hv', heq⟩ := (hr'.mem_keys _).mp hkey'
      rw [pageGroups_first hlimit] at hv
      rw [hrest] at hv'
      exact hkeys v hv v' hv' heq.symm
    case bounded =>
      intro page hpage
      rcases List.mem_cons.mp hpage with rfl | hpage
      · exact hlength.le
      · obtain rfl := List.mem_singleton.mp hpage
        omega
    case next =>
      intro first page rest hpages
      cases first with
      | nil =>
          obtain ⟨rfl, -⟩ := List.cons.inj hpages
          simp only [List.nil_append, List.map_cons, List.map_nil, List.sum_cons, List.sum_nil]
          exact ⟨fun _ => by omega, fun _ => hnext⟩
      | cons p first =>
          obtain ⟨rfl, htail⟩ := List.cons.inj hpages
          cases first with
          | nil =>
              obtain ⟨rfl, -⟩ := List.cons.inj htail
              simp only [List.singleton_append, List.map_cons, List.map_nil, List.sum_cons,
                List.sum_nil]
              exact ⟨fun hsome => absurd (next_second hr') hsome, fun hlt => by omega⟩
          | cons p first => exact absurd (List.cons.inj htail).2.symm (by simp)

end

/-- The pages have all groups just when the second page has room for what the first one leaves:
the limit of the task is not in the copy of the specification. Also, the pages of the groups
themselves can be made, and the documents without the property are not on another page than those
whose value is the name that their group has. -/
theorem groups_paginated_iff (env : Environment) (qs : QuerySpecification) (tq : NativeQuery)
    (context : Option QueryRuntimeContext) (docs : List IndexedDocument) (g : Nat) (hg : 1 ≤ g)
    (hlimit : qs.groupResultLimit = some (g : Int))
    (hcheck : ∀ topN, 1 ≤ topN →
      env.groupingSearch.check (groupField env qs.groupByTerm) topN = .ok ()) :
    PaginatesGroups env qs tq context docs g ↔
      (groupsOf env qs tq docs).length ≤ g + min g 10000 ∧
        (∀ v ∈ groupsOf env qs tq docs, Convertible env qs v) ∧
        ∀ v ∈ (groupsOf env qs tq docs).take g, ∀ v' ∈ (groupsOf env qs tq docs).drop g,
          groupKey v ≠ groupKey v' := by
  -- more groups than the limit make a second page, which is the last one
  rcases lt_or_ge g (groupsOf env qs tq docs).length with hlt | hle
  · constructor
    · rintro ⟨pages, hpages, hcomplete⟩
      obtain ⟨r, hr, hmore⟩ := (paginateGroups_eq_ok hg hlimit hcheck).mp hpages
      rw [if_pos hlt] at hmore
      obtain ⟨r', hr', rfl⟩ := hmore
      have hpage := isPage_first hg hlimit hcheck hr
      have hpage' := isPage_second hcheck hr'
      obtain ⟨hlength, hkeys⟩ := (complete_pair_iff hlimit hpage hpage' hlt).mp hcomplete
      refine ⟨hlength, fun v hv => ?_, hkeys⟩
      rw [← List.take_append_drop g (groupsOf env qs tq docs), List.mem_append] at hv
      rcases hv with hv | hv
      · exact hpage.convertible v (by rwa [pageGroups_first hlimit])
      · exact hpage'.convertible v (by rwa [pageGroups_second_eq (by omega)])
    · rintro ⟨hlength, hconvertible, hkeys⟩
      have hfirst : ∀ v ∈ pageGroups env qs tq docs 0, Convertible env qs v := fun v hv =>
        hconvertible v (List.mem_of_mem_take (List.mem_of_mem_drop hv))
      have hsecond : ∀ v ∈ pageGroups env qs.copyTo tq docs g, Convertible env qs v := fun v hv =>
        hconvertible v (List.mem_of_mem_take (List.mem_of_mem_drop hv))
      obtain ⟨r, hr⟩ := exists_handle (check_first hg hlimit hcheck) hfirst context
      obtain ⟨r', hr'⟩ := exists_handle (check_second hcheck) hsecond
        (pageContext env qs tq context 0 docs)
      refine ⟨[r, r'], (paginateGroups_eq_ok hg hlimit hcheck).mpr ⟨r, hr, ?_⟩, ?_⟩
      · rw [if_pos hlt]
        exact ⟨r', hr', rfl⟩
      · exact (complete_pair_iff hlimit (isPage_first hg hlimit hcheck hr)
          (isPage_second hcheck hr') hlt).mpr ⟨hlength, hkeys⟩
  · constructor
    · rintro ⟨pages, hpages, hcomplete⟩
      obtain ⟨r, hr, -⟩ := (paginateGroups_eq_ok hg hlimit hcheck).mp hpages
      have hpage := isPage_first hg hlimit hcheck hr
      refine ⟨by omega, fun v hv => hpage.convertible v ?_, fun v _ v' hv' => ?_⟩
      · rwa [pageGroups_first hlimit, List.take_of_length_le hle]
      · rw [List.drop_eq_nil_of_le hle] at hv'
        cases hv'
    · rintro ⟨-, hconvertible, -⟩
      have hfirst : ∀ v ∈ pageGroups env qs tq docs 0, Convertible env qs v := fun v hv =>
        hconvertible v (List.mem_of_mem_take (List.mem_of_mem_drop hv))
      obtain ⟨r, hr⟩ := exists_handle (check_first hg hlimit hcheck) hfirst context
      refine ⟨[r], (paginateGroups_eq_ok hg hlimit hcheck).mpr ⟨r, hr, ?_⟩, ?_⟩
      · rw [if_neg (not_lt.mpr hle)]
      · exact complete_single hlimit (isPage_first hg hlimit hcheck hr) hle

/-! ## A group a page -/

section

def oneGroupPerPage : QuerySpecification := { namesOfKind with groupResultLimit := some 1 }

def examplesOnly : NativeQuery :=
  .converted (.leaf ⟨some fieldNameKind, some "example", some .term, none⟩
    (.termQuery fieldNameKind "example"))

def named (name : String) : IndexedDocument where
  terms field := if field = fieldNameKind then [(0, "example")] else []
  longs _ := []
  doubles _ := []
  numericDocValues _ := none
  sortedDocValues field := if field = "name_sort" then some name else none

theorem firstHits_check (field : Option String) (topN : Int) (h : 1 ≤ topN) :
    firstHits.check field topN = .ok () :=
  if_neg (not_lt.mpr h)

theorem groupsOf_named (names : List String) :
    groupsOf secretEnvironment oneGroupPerPage examplesOnly (names.map named) =
      (names.map some).dedup := by
  have hmatches : (names.map named).filter (examplesOnly.matches ·) = names.map named := by
    apply List.filter_eq_self.mpr
    intro d hd
    obtain ⟨name, -, rfl⟩ := List.mem_map.mp hd
    rfl
  unfold groupsOf
  rw [hmatches]
  show (List.map _ (names.map named)).dedup = _
  rw [List.map_map]
  rfl

/-- Two groups are on two pages. -/
theorem groups_paginated_of_two :
    PaginatesGroups secretEnvironment oneGroupPerPage examplesOnly none
      (["a", "b"].map named) 1 := by
  apply (groups_paginated_iff secretEnvironment oneGroupPerPage examplesOnly none _ 1 (le_refl 1)
    rfl (firstHits_check _)).mpr
  rw [groupsOf_named]
  refine ⟨by decide, fun v hv => ?_, by decide⟩
  rcases List.mem_cons.mp (show v ∈ [some "a", some "b"] from hv) with rfl | hv
  · exact ⟨_, _, rfl, rfl⟩
  · obtain rfl := List.mem_singleton.mp hv
    exact ⟨_, _, rfl, rfl⟩

/-- Of three groups two are on the second page. -/
theorem second_page_overfull :
    ¬PaginatesGroups secretEnvironment oneGroupPerPage examplesOnly none
      (["a", "b", "c"].map named) 1 := by
  rintro ⟨pages, hpages, hcomplete⟩
  have hcheck := firstHits_check (groupField secretEnvironment oneGroupPerPage.groupByTerm)
  obtain ⟨r, hr, hmore⟩ := (paginateGroups_eq_ok (le_refl 1) rfl hcheck).mp hpages
  have hgroups := groupsOf_named ["a", "b", "c"]
  have hlt : 1 < (groupsOf secretEnvironment oneGroupPerPage examplesOnly
      (["a", "b", "c"].map named)).length := by
    rw [hgroups]
    decide
  rw [if_pos hlt] at hmore
  obtain ⟨r', hr', rfl⟩ := hmore
  have hlength := ((complete_pair_iff rfl (isPage_first (le_refl 1) rfl hcheck hr)
    (isPage_second hcheck hr') hlt).mp hcomplete).1
  rw [hgroups] at hlength
  exact absurd hlength (by decide)

end

end Xenon.Index.GroupBy
