import Mathlib.Data.List.MinMax
import Xenon.Lucene.Meaning

/-!
# The `TermInSetQuery`

A list of 16 or more `SHOULD` terms on one property becomes a query for the set
of their match values. The rewrite looks at the occurance, the property and the
match value of a clause, but not at its match type, and does not record document
kinds.
-/

namespace Xenon.Lucene

open Xenon.Foundation
open Xenon.Filter (Occurance)
open Xenon.QueryTask

/-! ## The clauses that the loop takes -/

/-- The terms of the clauses up to the first one that is not a `SHOULD` term on the
property of those before it. -/
def setRun : Option String → List Query → List QueryTerm
  | _, [] => []
  | name, q :: qs =>
      match q.term with
      | none => []
      | some t =>
          if q.occurance = some .shouldOccur ∧ (name = none ∨ name = t.propertyName) then
            t :: setRun (name.or t.propertyName) qs
          else []

theorem setRun_cons {name : Option String} {q : Query} {qs : List Query} {t : QueryTerm}
    (ht : q.term = some t) (ho : q.occurance = some .shouldOccur)
    (hname : name = none ∨ name = t.propertyName) :
    setRun name (q :: qs) = t :: setRun (name.or t.propertyName) qs := by
  simp only [setRun, ht]
  rw [if_pos ⟨ho, hname⟩]

/-- The loop either takes the first clause or stops there. -/
theorem setRun_cons_cases (name : Option String) (q : Query) (qs : List Query) :
    setRun name (q :: qs) = [] ∨ ∃ t, q.term = some t ∧ q.occurance = some .shouldOccur ∧
      (name = none ∨ name = t.propertyName) := by
  cases ht : q.term with
  | none => simp [setRun, ht]
  | some t =>
      by_cases hq : q.occurance = some .shouldOccur ∧ (name = none ∨ name = t.propertyName)
      · exact Or.inr ⟨t, rfl, hq.1, hq.2⟩
      · left
        simp only [setRun, ht]
        rw [if_neg hq]

theorem setRun_some {name : String} : ∀ {qs : List Query} {t : QueryTerm},
    t ∈ setRun (some name) qs → t.propertyName = some name
  | [], t, h => by simp [setRun] at h
  | q :: qs, t, h => by
      rcases setRun_cons_cases (some name) q qs with hnil | ⟨u, hu, ho, hname⟩
      · simp [hnil] at h
      · rw [setRun_cons hu ho hname] at h
        rcases List.mem_cons.mp h with rfl | h
        · exact (hname.resolve_left (by simp)).symm
        · exact setRun_some h

/-- The loop fails at the first match value that is missing, and finds a set if it
takes all clauses. -/
theorem termInSetLoop_eq : ∀ (qs : List Query) (name : Option String) (acc : List String),
    termInSetLoop qs name acc =
      if (setRun name qs).all (·.matchValue.isSome) then
        if (setRun name qs).length = qs.length then
          .ok (some ((setRun name qs).foldl (fun n t => n.or t.propertyName) name,
            acc ++ (setRun name qs).filterMap (·.matchValue)))
        else .ok none
      else .error .nullPointer
  | [], name, acc => by simp [termInSetLoop, setRun]
  | q :: qs, name, acc => by
      unfold termInSetLoop setRun
      cases q.term with
      | none => simp
      | some t =>
          by_cases hq : q.occurance = some .shouldOccur ∧ (name = none ∨ name = t.propertyName)
          · have hskip : ¬ (q.occurance ≠ some .shouldOccur ∨
                name ≠ none ∧ name ≠ t.propertyName) := by tauto
            simp only [if_neg hskip, if_pos hq]
            cases hv : t.matchValue with
            | none => simp [hv]
            | some value =>
                simp only [termInSetLoop_eq qs, List.all_cons, hv, Option.isSome_some,
                  Bool.true_and, List.length_cons, Nat.add_right_cancel_iff, List.foldl_cons,
                  List.filterMap_cons, List.append_assoc, List.singleton_append]
          · have hskip : q.occurance ≠ some .shouldOccur ∨
                name ≠ none ∧ name ≠ t.propertyName := by tauto
            simp [if_pos hskip, if_neg hq]

/-! ## Documents that tell queries apart -/

/-- A document with terms in one field. -/
def Document.ofField (field : String) (terms : List (Nat × String)) : Document where
  terms f := if f = field then terms else []
  longs _ := []
  doubles _ := []

theorem hasTerm_iff {d : Document} {field value : String} :
    d.hasTerm field value = true ↔ ∃ p ∈ d.terms field, p.2 = value := by
  simp [Document.hasTerm]

theorem hasPhrase_iff {d : Document} {field : String} : ∀ {tokens : List String} {p : Nat},
    d.hasPhrase field p tokens = true ↔
      ∀ i, ∀ h : i < tokens.length, (p + i, tokens[i]) ∈ d.terms field
  | [], p => by simp [Document.hasPhrase]
  | token :: tokens, p => by
      rw [Document.hasPhrase, Bool.and_eq_true, decide_eq_true_eq, hasPhrase_iff]
      constructor
      · rintro ⟨hhead, htail⟩ i hi
        cases i with
        | zero => simpa using hhead
        | succ i =>
            have := htail i (by simpa using hi)
            rwa [Nat.add_assoc, Nat.add_comm 1 i] at this
      · intro h
        refine ⟨h 0 (by simp), fun i hi => ?_⟩
        have := h (i + 1) (by simpa using hi)
        rwa [← Nat.add_assoc, Nat.add_right_comm] at this

/-- A text longer than all of the values. -/
theorem exists_extension (p : String) (values : List String) :
    ∃ x, x ∉ values ∧ p.toList.isPrefixOf x.toList = true := by
  obtain ⟨n, hn⟩ : ∃ n, ∀ v ∈ values, v.toList.length ≤ n := by
    refine ⟨(values.map fun v => v.toList.length).sum, fun v hv => ?_⟩
    exact List.single_le_sum (by simp) _ (List.mem_map_of_mem hv)
  refine ⟨String.ofList (p.toList ++ List.replicate (n + 1) 'a'), fun hmem => ?_, by simp⟩
  have := hn _ hmem
  simp at this
  omega

/-! ## What the set has to do with the clauses -/

/-- The query matches documents with one of the values only. -/
def LeafQuery.Within (values : List String) : LeafQuery → Prop
  | .termQuery _ value => value ∈ values
  | .phraseQuery _ tokens => tokens = [] ∨ ∃ token ∈ tokens, token ∈ values
  | .wildcardQuery _ value => ∀ x : String, wildcardAccepts value.toList x.toList → x ∈ values
  | _ => False

/-- The query matches whatever has the term `x` in its field. -/
def LeafQuery.acceptsText (x : String) : LeafQuery → Bool
  | .termQuery _ value => value = x
  | .phraseQuery _ tokens => tokens = [x]
  | .prefixQuery _ value => value.toList.isPrefixOf x.toList
  | .wildcardQuery _ value => wildcardAccepts value.toList x.toList
  | .matchAllDocsQuery => true
  | _ => false

/-- The query is for terms of `field`. -/
def LeafQuery.On (field : String) : LeafQuery → Prop
  | .termQuery f _ | .phraseQuery f _ | .prefixQuery f _ | .wildcardQuery f _ => f = field
  | .matchAllDocsQuery => True
  | _ => False

theorem convertTerm_on {t : QueryTerm} {field value : String} {q : LeafQuery}
    (hname : t.propertyName = some field) (hvalue : t.matchValue = some value)
    (hq : convertTerm t = .ok q) :
    q.On field := by
  cases hr : t.range with
  | some r => simp [convertTerm, validateTerm, hr, hvalue, bind, Except.bind, throw, throwThe,
      MonadExceptOf.throw] at hq
  | none =>
      simp only [convertTerm, validateTerm, hr, hvalue, hname, bind, Except.bind, pure,
        Except.pure, Option.getD_some] at hq
      cases hm : t.matchType.getD .term <;> simp [hm] at hq <;> subst hq
      · unfold convertToLuceneWildcardTermQuery
        split_ifs <;> simp [LeafQuery.On]
      · simp [LeafQuery.On]
      · simp [LeafQuery.On]
      · unfold convertToLucenePrefixQuery
        split_ifs <;> simp [LeafQuery.On]

/-- A document with one of the values, and a query that accepts it. -/
theorem matches_of_acceptsText {d : Document} {field x : String} {q : LeafQuery}
    (hon : q.On field) (hx : q.acceptsText x = true) (hd : d.hasTerm field x = true) :
    q.matches d = true := by
  obtain ⟨⟨p, y⟩, hp, rfl⟩ := hasTerm_iff.mp hd
  cases q with
  | termQuery f value =>
      obtain rfl : f = field := hon
      obtain rfl : value = y := of_decide_eq_true hx
      exact hd
  | phraseQuery f tokens =>
      obtain rfl : f = field := hon
      obtain rfl : tokens = [y] := of_decide_eq_true hx
      simp only [LeafQuery.matches, List.isEmpty_cons, Bool.not_false, Bool.true_and,
        List.any_eq_true]
      exact ⟨(p, y), hp, by simpa [Document.hasPhrase] using hp⟩
  | prefixQuery f value =>
      obtain rfl : f = field := hon
      exact List.any_eq_true.mpr ⟨(p, y), hp, hx⟩
  | wildcardQuery f value =>
      obtain rfl : f = field := hon
      exact List.any_eq_true.mpr ⟨(p, y), hp, hx⟩
  | matchAllDocsQuery => rfl
  | longRangeQuery f min max => cases hon
  | doubleRangeQuery f min max => cases hon

/-- A document that the query matches has one of the values. -/
theorem hasTerm_of_within {d : Document} {field : String} {values : List String} {q : LeafQuery}
    (hon : q.On field) (hwithin : q.Within values) (hd : q.matches d = true) :
    ∃ x ∈ values, d.hasTerm field x = true := by
  cases q with
  | termQuery f value =>
      obtain rfl : f = field := hon
      exact ⟨value, hwithin, hd⟩
  | phraseQuery f tokens =>
      obtain rfl : f = field := hon
      obtain ⟨hne, hany⟩ := Bool.and_eq_true_iff.mp hd
      obtain ⟨p, -, hphrase⟩ := List.any_eq_true.mp hany
      rcases hwithin with rfl | ⟨token, htoken, hvalue⟩
      · simp at hne
      · obtain ⟨i, hi, rfl⟩ := List.mem_iff_getElem.mp htoken
        exact ⟨_, hvalue, hasTerm_iff.mpr ⟨_, hasPhrase_iff.mp hphrase i hi, rfl⟩⟩
  | wildcardQuery f value =>
      obtain rfl : f = field := hon
      obtain ⟨p, hp, haccepts⟩ := List.any_eq_true.mp hd
      exact ⟨p.2, hwithin p.2 haccepts, hasTerm_iff.mpr ⟨p, hp, rfl⟩⟩
  | prefixQuery f value => cases hwithin
  | matchAllDocsQuery => cases hwithin
  | longRangeQuery f min max => cases hon
  | doubleRangeQuery f min max => cases hon

@[simp] theorem ofField_terms (field : String) (terms : List (Nat × String)) :
    (Document.ofField field terms).terms field = terms := by
  simp [Document.ofField]

/-- On a document with a single term the query tells whether it accepts it. -/
theorem matches_ofField {field x : String} {q : LeafQuery} (hon : q.On field) :
    q.matches (.ofField field [(0, x)]) = q.acceptsText x := by
  cases q with
  | termQuery f value =>
      obtain rfl : f = field := hon
      simp [LeafQuery.matches, LeafQuery.acceptsText, Document.hasTerm, eq_comm]
  | phraseQuery f tokens =>
      obtain rfl : f = field := hon
      match tokens with
      | [] => simp [LeafQuery.matches, LeafQuery.acceptsText]
      | [token] => simp [LeafQuery.matches, LeafQuery.acceptsText, Document.hasPhrase]
      | token :: token' :: tokens =>
          simp [LeafQuery.matches, LeafQuery.acceptsText, Document.hasPhrase]
  | prefixQuery f value =>
      obtain rfl : f = field := hon
      simp [LeafQuery.matches, LeafQuery.acceptsText]
  | wildcardQuery f value =>
      obtain rfl : f = field := hon
      simp [LeafQuery.matches, LeafQuery.acceptsText]
  | matchAllDocsQuery => rfl
  | longRangeQuery f min max => cases hon
  | doubleRangeQuery f min max => cases hon

/-- A query that only matches documents with one of the values. -/
theorem within_of_matches {field : String} {values : List String} {q : LeafQuery}
    (hon : q.On field)
    (h : ∀ d : Document, q.matches d = true → ∃ x ∈ values, d.hasTerm field x = true) :
    q.Within values := by
  have hone : ∀ x, q.acceptsText x = true → x ∈ values := by
    intro x hx
    obtain ⟨y, hy, hterm⟩ := h (.ofField field [(0, x)]) (by rw [matches_ofField hon, hx])
    obtain rfl : x = y := by simpa [Document.hasTerm] using hterm
    exact hy
  cases q with
  | termQuery f value => exact hone value (by simp [LeafQuery.acceptsText])
  | phraseQuery f tokens =>
      obtain rfl : f = field := hon
      by_cases htokens : tokens = []
      · exact Or.inl htokens
      · -- a document that consists of the phrase
        obtain ⟨x, hx, hterm⟩ := h (.ofField f (tokens.mapIdx fun i token => (i, token))) (by
          simp only [LeafQuery.matches, Bool.and_eq_true, List.any_eq_true, ofField_terms]
          refine ⟨by simpa using htokens, (0, tokens.head htokens), ?_, ?_⟩
          · exact List.mem_mapIdx.mpr ⟨0, List.length_pos_iff.mpr htokens, by
              simp [List.head_eq_getElem]⟩
          · rw [hasPhrase_iff]
            intro i hi
            rw [ofField_terms]
            exact List.mem_mapIdx.mpr ⟨i, hi, by simp⟩)
        obtain ⟨p, hp, rfl⟩ := hasTerm_iff.mp hterm
        rw [ofField_terms] at hp
        obtain ⟨i, hi, rfl⟩ := List.mem_mapIdx.mp hp
        exact Or.inr ⟨_, List.getElem_mem hi, hx⟩
  | wildcardQuery f value => exact fun x hx => hone x hx
  | prefixQuery f value =>
      obtain ⟨x, hx, hstart⟩ := exists_extension value values
      exact hx (hone x hstart)
  | matchAllDocsQuery =>
      obtain ⟨x, -, hterm⟩ := h (.ofField field []) rfl
      simp [Document.hasTerm] at hterm
  | longRangeQuery f min max => cases hon
  | doubleRangeQuery f min max => cases hon

/-- The match values of terms. -/
def matchValues (ts : List QueryTerm) : List String := ts.filterMap (·.matchValue)

/-- The clauses match the documents that have one of their match values. -/
def Covered (ts : List QueryTerm) : Prop :=
  ∀ t ∈ ts, ∀ q, convertTerm t = .ok q → q.Within (matchValues ts) ∧
    ∀ value, t.matchValue = some value →
      ∃ u ∈ ts, ∃ q', convertTerm u = .ok q' ∧ q'.acceptsText value = true

theorem covered_iff {field : String} {ts : List QueryTerm}
    (hname : ∀ t ∈ ts, t.propertyName = some field) (hvalue : ∀ t ∈ ts, t.matchValue ≠ none)
    (hok : ∀ t ∈ ts, ∃ q, convertTerm t = .ok q) :
    (∀ d : Document, (matchValues ts).any (d.hasTerm field) =
      ts.any fun t => (Reading.ofDocument d).ofTerm t) ↔ Covered ts := by
  have hon : ∀ t ∈ ts, ∀ q, convertTerm t = .ok q → q.On field := by
    intro t ht q hq
    obtain ⟨value, hv⟩ := Option.ne_none_iff_exists'.mp (hvalue t ht)
    exact convertTerm_on (hname t ht) hv hq
  have hterm : ∀ (d : Document) (t : QueryTerm) (q : LeafQuery), convertTerm t = .ok q →
      (Reading.ofDocument d).ofTerm t = q.matches d := by
    intro d t q hq
    simp [Reading.ofTerm, hq, Reading.ofDocument]
  constructor
  · intro h t ht q hq
    constructor
    · refine within_of_matches (hon t ht q hq) fun d hd => ?_
      have hany : (matchValues ts).any (d.hasTerm field) = true := by
        rw [h d, List.any_eq_true]
        exact ⟨t, ht, (hterm d t q hq).trans hd⟩
      exact List.any_eq_true.mp hany
    · intro value hv
      -- a document with this one value is found by the set
      have hany := h (.ofField field [(0, value)])
      have hleft : (matchValues ts).any
          ((Document.ofField field [(0, value)]).hasTerm field) = true :=
        List.any_eq_true.mpr ⟨value, List.mem_filterMap.mpr ⟨t, ht, hv⟩, by
          simp [Document.hasTerm]⟩
      rw [hleft, eq_comm, List.any_eq_true] at hany
      obtain ⟨u, hu, hmatch⟩ := hany
      obtain ⟨q', hq'⟩ := hok u hu
      rw [hterm _ u q' hq', matches_ofField (hon u hu q' hq')] at hmatch
      exact ⟨u, hu, q', hq', hmatch⟩
  · intro h d
    rw [Bool.eq_iff_iff, List.any_eq_true, List.any_eq_true]
    constructor
    · rintro ⟨value, hmem, hd⟩
      obtain ⟨t, ht, hv⟩ := List.mem_filterMap.mp hmem
      obtain ⟨q, hq⟩ := hok t ht
      obtain ⟨u, hu, q', hq', haccepts⟩ := (h t ht q hq).2 value hv
      refine ⟨u, hu, ?_⟩
      rw [hterm d u q' hq']
      exact matches_of_acceptsText (hon u hu q' hq') haccepts hd
    · rintro ⟨t, ht, hd⟩
      obtain ⟨q, hq⟩ := hok t ht
      rw [hterm d t q hq] at hd
      exact hasTerm_of_within (hon t ht q hq) (h t ht q hq).1 hd

/-! ## Document kinds -/

/-- The kinds that the terms name are in the context already, if there is one. -/
def Recorded (ts : List QueryTerm) (context : Option QueryRuntimeContext) : Prop :=
  ∀ t ∈ ts, t.propertyName = some fieldNameKind → ∀ c, context = some c →
    ∃ kinds, c.kindScope = some kinds ∧ t.matchValue ∈ kinds

/-- The context after the clauses were converted one by one. -/
def recordAll (ts : List QueryTerm) (context : Option QueryRuntimeContext) :
    Option QueryRuntimeContext :=
  ts.foldl (fun c t => addKind (some .shouldOccur) t c) context

theorem recordAll_kind : ∀ {ts : List QueryTerm} (kinds : Finset (Option String)),
    (∀ t ∈ ts, t.propertyName = some fieldNameKind) →
      recordAll ts (some ⟨some kinds⟩) =
        some ⟨some (kinds ∪ (ts.map (·.matchValue)).toFinset)⟩
  | [], kinds, _ => by simp [recordAll]
  | t :: ts, kinds, h => by
      have ht := h t List.mem_cons_self
      have hadd : addKind (some .shouldOccur) t (some ⟨some kinds⟩) =
          some ⟨some (insert t.matchValue kinds)⟩ := by
        simp [addKind, ht]
      have ih := recordAll_kind (insert t.matchValue kinds) fun u hu =>
        h u (List.mem_cons_of_mem _ hu)
      rw [recordAll, List.foldl_cons, hadd]
      refine ih.trans ?_
      simp [Finset.insert_union, Finset.union_insert]

theorem recordAll_other {ts : List QueryTerm} (context : Option QueryRuntimeContext)
    (h : ∀ t ∈ ts, t.propertyName ≠ some fieldNameKind) : recordAll ts context = context := by
  induction ts generalizing context with
  | nil => rfl
  | cons t ts ih =>
      have hadd : addKind (some .shouldOccur) t context = context := by
        simp [addKind, h t List.mem_cons_self]
      rw [recordAll, List.foldl_cons, hadd]
      exact ih context fun u hu => h u (List.mem_cons_of_mem _ hu)

theorem recordAll_none (ts : List QueryTerm) : recordAll ts none = none := by
  induction ts with
  | nil => rfl
  | cons t ts ih =>
      have hadd : addKind (some .shouldOccur) t none = none := by simp [addKind]
      rw [recordAll, List.foldl_cons, hadd]
      exact ih

/-- Not recording the kinds is noticed unless they were recorded before. -/
theorem recordAll_eq_self {field : String} {ts : List QueryTerm} (hne : ts ≠ [])
    (hname : ∀ t ∈ ts, t.propertyName = some field) (context : Option QueryRuntimeContext) :
    recordAll ts context = context ↔ Recorded ts context := by
  by_cases hkind : field = fieldNameKind
  · subst hkind
    rcases context with _ | ⟨_ | kinds⟩
    · exact iff_of_true (recordAll_none ts) fun t _ _ c hc => nomatch hc
    · obtain ⟨t, ts, rfl⟩ := List.exists_cons_of_ne_nil hne
      have hadd : addKind (some .shouldOccur) t (some ⟨none⟩) =
          some ⟨some (insert t.matchValue ∅)⟩ := by
        simp [addKind, hname t List.mem_cons_self]
      refine iff_of_false ?_ fun h => ?_
      · rw [recordAll, List.foldl_cons, hadd]
        have := recordAll_kind (insert t.matchValue ∅) fun u hu =>
          hname u (List.mem_cons_of_mem t hu)
        rw [recordAll] at this
        rw [this]
        simp
      · obtain ⟨kinds, hk, -⟩ := h t List.mem_cons_self (hname t List.mem_cons_self) _ rfl
        cases hk
    · rw [recordAll_kind kinds hname]
      constructor
      · intro h t ht _ c hc
        cases hc
        refine ⟨kinds, rfl, ?_⟩
        have heq : kinds ∪ (ts.map (·.matchValue)).toFinset = kinds := by simpa using h
        rw [← heq]
        exact Finset.mem_union_right _ (List.mem_toFinset.mpr (List.mem_map_of_mem ht))
      · intro h
        congr 3
        refine Finset.union_eq_left.mpr fun value hv => ?_
        obtain ⟨t, ht, rfl⟩ := List.mem_map.mp (List.mem_toFinset.mp hv)
        obtain ⟨kinds', hk, hmem⟩ := h t ht (hname t ht) _ rfl
        cases hk
        exact hmem
  · have hother : ∀ t ∈ ts, t.propertyName ≠ some fieldNameKind := by
      intro t ht heq
      rw [hname t ht] at heq
      exact hkind (Option.some.inj heq)
    exact iff_of_true (recordAll_other context hother) fun t ht hk => absurd hk (hother t ht)

/-! ## The rewrite -/

theorem validateTerm_name {t : QueryTerm} {q : LeafQuery} (h : convertTerm t = .ok q) :
    t.propertyName ≠ none := by
  intro hname
  obtain ⟨_, hvalid, -⟩ := bind_eq_ok.mp h
  unfold validateTerm at hvalid
  split_ifs at hvalid
  all_goals simp [bind, Except.bind, throw, throwThe, MonadExceptOf.throw] at hvalid

/-- Every clause was accepted. -/
theorem accepted_of_build {maxClauseCount : Nat} {qs : List Query} :
    ∀ {n context r}, buildBooleanQuery maxClauseCount qs n context = .ok r →
      ∀ q ∈ qs, ∃ context r, convertToLuceneQuery maxClauseCount q context = .ok r := by
  induction qs with
  | nil => simp
  | cons q qs ih =>
      intro n context r h q' hq'
      obtain ⟨⟨lq, context₁⟩, hq, h⟩ := bind_eq_ok.mp h
      dsimp only at h
      obtain ⟨_, -, h⟩ := bind_eq_ok.mp h
      obtain ⟨rest, hrest, -⟩ := bind_eq_ok.mp h
      rcases List.mem_cons.mp hq' with rfl | hq'
      · exact ⟨context, _, hq⟩
      · exact ih hrest q' hq'

theorem accepted_term {maxClauseCount : Nat} {q : Query} {t : QueryTerm} (ht : q.term = some t)
    (h : ∃ context r, convertToLuceneQuery maxClauseCount q context = .ok r) :
    q.booleanClauses = none ∧ ∃ leaf, convertTerm t = .ok leaf := by
  obtain ⟨o, t', qs⟩ := q
  obtain rfl : t' = some t := ht
  obtain ⟨context, r, h⟩ := h
  cases qs with
  | some qs => cases h
  | none =>
      obtain ⟨leaf, hleaf, -⟩ := bind_eq_ok.mp h
      exact ⟨rfl, leaf, hleaf⟩

theorem accepted_of_convert {maxClauseCount : Nat} {q : Query}
    {context : Option QueryRuntimeContext} {r : LuceneQuery × Option QueryRuntimeContext}
    (h : convert maxClauseCount q context = .ok r) :
    ∃ context r, convertToLuceneQuery maxClauseCount q context = .ok r := by
  obtain ⟨o, t, qs⟩ := q
  cases qs with
  | none => exact ⟨_, _, h⟩
  | some qs =>
      obtain ⟨r, hr, -⟩ := bind_eq_ok.mp h
      exact ⟨_, _, hr⟩

/-- If the loop takes every clause then the clauses are its terms. -/
theorem eq_map_setRun : ∀ {qs : List Query} {name : Option String},
    (∀ q ∈ qs, ∀ t, q.term = some t → q.booleanClauses = none) →
      (setRun name qs).length = qs.length →
        qs = (setRun name qs).map (Query.ofTerm (some .shouldOccur))
  | [], _, _, _ => rfl
  | q :: qs, name, hnone, hlen => by
      rcases setRun_cons_cases name q qs with hnil | ⟨t, ht, ho, hname⟩
      · simp [hnil] at hlen
      · rw [setRun_cons ht ho hname] at hlen ⊢
        have hclauses := hnone q List.mem_cons_self t ht
        obtain ⟨o, t', clauses⟩ := q
        obtain rfl : o = some .shouldOccur := ho
        obtain rfl : t' = some t := ht
        obtain rfl : clauses = none := hclauses
        rw [List.map_cons]
        congr 1
        exact eq_map_setRun (fun q hq => hnone q (List.mem_cons_of_mem _ hq))
          (by simpa using hlen)

/-- The terms that the loop takes are on one property. -/
theorem setRun_key {qs : List Query} (hne : setRun none qs ≠ [])
    (hname : ∀ t ∈ setRun none qs, t.propertyName ≠ none) :
    ∃ field, (∀ t ∈ setRun none qs, t.propertyName = some field) ∧
      (setRun none qs).foldl (fun n t => n.or t.propertyName) none = some field := by
  cases qs with
  | nil => exact absurd rfl hne
  | cons q qs =>
      rcases setRun_cons_cases none q qs with hnil | ⟨t, ht, ho, hkey⟩
      · exact absurd hnil hne
      · rw [setRun_cons ht ho hkey, Option.none_or] at hname ⊢
        obtain ⟨field, hfield⟩ := Option.ne_none_iff_exists'.mp (hname t List.mem_cons_self)
        rw [hfield]
        refine ⟨field, fun u hu => ?_, ?_⟩
        · rcases List.mem_cons.mp hu with rfl | hu
          · exact hfield
          · exact setRun_some hu
        · rw [List.foldl_cons, hfield, Option.none_or]
          induction setRun (some field) qs with
          | nil => rfl
          | cons u us ih => rw [List.foldl_cons, Option.some_or, ih]

/-- The clause by clause conversion of `SHOULD` terms. -/
theorem context_of_build {maxClauseCount : Nat} : ∀ {ts : List QueryTerm} {n context clauses context'},
    buildBooleanQuery maxClauseCount (ts.map (Query.ofTerm (some .shouldOccur))) n context =
        .ok (clauses, context') → context' = recordAll ts context
  | [], n, context, clauses, context', h => by
      cases h
      rfl
  | t :: ts, n, context, clauses, context', h => by
      obtain ⟨⟨lq, context₁⟩, hq, h⟩ := bind_eq_ok.mp h
      dsimp only at h
      obtain ⟨_, -, h⟩ := bind_eq_ok.mp h
      obtain ⟨⟨rest, context₂⟩, hrest, h⟩ := bind_eq_ok.mp h
      cases h
      obtain ⟨leaf, -, hq⟩ := bind_eq_ok.mp hq
      cases hq
      have ih := context_of_build hrest
      exact ih

/-- The boolean query of `SHOULD` terms. -/
theorem matches_of_build {maxClauseCount : Nat} {ts : List QueryTerm}
    {context context' : Option QueryRuntimeContext} {clauses : List (Occurance × LuceneQuery)}
    (h : buildBooleanQuery maxClauseCount (ts.map (Query.ofTerm (some .shouldOccur))) 0 context =
      .ok (clauses, context')) (d : Document) :
    (LuceneQuery.booleanQuery clauses).matches d =
      ts.any fun t => (Reading.ofDocument d).ofTerm t := by
  have hclauses := buildBooleanQuery_spec (r := .ofDocument d)
    (fun q _ => holds_convertToLuceneQuery maxClauseCount _ q) h
  rw [LuceneQuery.matches, LuceneQuery.holds, hclauses, readsAll_eq, Bool.eq_iff_iff,
    booleanMatches_should]
  · simp [Query.ofTerm, reads]
  · simp [Query.ofTerm, Query.effective]

/-- The rewrite keeps the documents and the kinds: the loop meets no clause without a
match value, and if it takes all clauses then they match by their values and
name no new kind. -/
def RewriteKeeps (qs : List Query) (context : Option QueryRuntimeContext) : Prop :=
  (∀ t ∈ setRun none qs, t.matchValue ≠ none) ∧
    ((setRun none qs).length = qs.length →
      Covered (setRun none qs) ∧ Recorded (setRun none qs) context)

/-- **When the rewrite preserves the meaning.** -/
theorem rewrite_preserves_iff {maxClauseCount : Nat} {qs : List Query}
    {context context' : Option QueryRuntimeContext} {clauses : List (Occurance × LuceneQuery)}
    (hsize : booleanRewriteTermCountThreshold ≤ qs.length)
    (hbuild : buildBooleanQuery maxClauseCount qs 0 context = .ok (clauses, context')) :
    (∃ lq, convertToLuceneBooleanQuery maxClauseCount (some qs) context = .ok (lq, context') ∧
      ∀ d, lq.matches d = (LuceneQuery.booleanQuery clauses).matches d) ↔
    RewriteKeeps qs context := by
  have haccepted := accepted_of_build hbuild
  have hset : termInSet maxClauseCount qs = termInSetLoop qs none [] >>= newTermInSet := by
    rw [termInSet, if_pos ((Nat.min_le_left _ _).trans hsize)]
  rw [termInSetLoop_eq] at hset
  unfold RewriteKeeps
  -- a term without a value is a null pointer in the loop over the clauses
  by_cases hvalues : (setRun none qs).all (·.matchValue.isSome) = true
  · have hvalues' : ∀ t ∈ setRun none qs, t.matchValue ≠ none := fun t ht =>
      Option.isSome_iff_ne_none.mp (List.all_eq_true.mp hvalues t ht)
    rw [if_pos hvalues] at hset
    by_cases hlen : (setRun none qs).length = qs.length
    · -- the loop takes every clause
      have hqs := eq_map_setRun (fun q hq t ht => (accepted_term ht (haccepted q hq)).1) hlen
      have hok : ∀ t ∈ setRun none qs, ∃ q, convertTerm t = .ok q := by
        intro t ht
        have hmem : Query.ofTerm (some .shouldOccur) t ∈ qs := by
          rw [hqs]
          exact List.mem_map_of_mem ht
        exact (accepted_term rfl (haccepted _ hmem)).2
      have hne : setRun none qs ≠ [] := by
        intro hnil
        rw [hnil, List.length_nil] at hlen
        simp [booleanRewriteTermCountThreshold, ← hlen] at hsize
      obtain ⟨field, hfield, hkey⟩ := setRun_key hne fun t ht => by
        obtain ⟨leaf, hleaf⟩ := hok t ht
        exact validateTerm_name hleaf
      rw [if_pos hlen, hkey] at hset
      have hset : termInSet maxClauseCount qs =
          .ok (some (field, matchValues (setRun none qs))) := hset
      rw [hqs] at hbuild
      have hcontext := context_of_build hbuild
      have hmatches := matches_of_build hbuild
      have hconvert : convertToLuceneBooleanQuery maxClauseCount (some qs) context =
          .ok (.termInSetQuery field (matchValues (setRun none qs)), context) := by
        simp [convertToLuceneBooleanQuery, hset, bind, Except.bind, pure, Except.pure]
      rw [hconvert]
      constructor
      · rintro ⟨lq, hlq, heq⟩
        cases hlq
        refine ⟨hvalues', fun _ => ⟨?_, ?_⟩⟩
        · rw [← covered_iff hfield hvalues' hok]
          exact fun d => (heq d).trans (hmatches d)
        · rw [← recordAll_eq_self hne hfield]
          exact hcontext.symm
      · rintro ⟨-, hkeeps⟩
        obtain ⟨hcovered, hrecorded⟩ := hkeeps hlen
        rw [← covered_iff hfield hvalues' hok] at hcovered
        rw [← recordAll_eq_self hne hfield] at hrecorded
        refine ⟨_, by rw [hcontext, hrecorded], fun d => ?_⟩
        exact (hcovered d).trans (hmatches d).symm
    · rw [if_neg hlen] at hset
      -- the loop gave up, and the clauses are built one by one
      have hset : termInSet maxClauseCount qs = .ok none := hset
      refine iff_of_true ⟨.booleanQuery clauses, ?_, fun _ => rfl⟩
        ⟨hvalues', fun h => absurd h hlen⟩
      simp [convertToLuceneBooleanQuery, hset, hbuild, bind, Except.bind, pure, Except.pure]
  · rw [if_neg hvalues] at hset
    have hset : termInSet maxClauseCount qs = .error .nullPointer := hset
    have hconvert : convertToLuceneBooleanQuery maxClauseCount (some qs) context =
        .error .nullPointer := by
      simp [convertToLuceneBooleanQuery, hset, bind, Except.bind]
    rw [hconvert]
    refine iff_of_false (fun ⟨lq, h, _⟩ => nomatch h) fun ⟨h, _⟩ => hvalues ?_
    exact List.all_eq_true.mpr fun t ht => Option.isSome_iff_ne_none.mpr (h t ht)

/-- Equality terms are matched by their values. -/
theorem covered_of_terms {field : String} {ts : List QueryTerm}
    (h : ∀ t ∈ ts, ∃ value, t.matchValue = some value ∧
      convertTerm t = .ok (.termQuery field value)) : Covered ts := by
  intro t ht q hq
  obtain ⟨value, hvalue, hconvert⟩ := h t ht
  obtain rfl := Except.ok.inj (hconvert.symm.trans hq)
  refine ⟨List.mem_filterMap.mpr ⟨t, ht, hvalue⟩, fun value' hvalue' => ?_⟩
  refine ⟨t, ht, _, hconvert, ?_⟩
  rw [hvalue] at hvalue'
  simpa [LeafQuery.acceptsText] using hvalue'

/-- Sixteen terms on one property. -/
def sixteenTerms (propertyName : String) (matchType : MatchType) : List QueryTerm :=
  (List.range 16).map fun n =>
    ⟨some propertyName, some ("/core/examples-" ++ toString n), some matchType, none⟩

def sixteenClauses (propertyName : String) (matchType : MatchType) : List Query :=
  (sixteenTerms propertyName matchType).map (.ofTerm (some .shouldOccur))

/-- Sixteen links. -/
theorem rewrite_preserves_links :
    booleanRewriteTermCountThreshold ≤ (sixteenClauses fieldNameSelfLink .term).length ∧
    ∃ clauses context', buildBooleanQuery 1024 (sixteenClauses fieldNameSelfLink .term) 0
        (some ⟨none⟩) = .ok (clauses, context') ∧
      ∃ lq, convertToLuceneBooleanQuery 1024 (some (sixteenClauses fieldNameSelfLink .term))
          (some ⟨none⟩) = .ok (lq, context') ∧
        ∀ d, lq.matches d = (LuceneQuery.booleanQuery clauses).matches d := by
  have hrun : setRun none (sixteenClauses fieldNameSelfLink .term) =
      sixteenTerms fieldNameSelfLink .term := by decide
  refine ⟨by decide, _, _, rfl, (rewrite_preserves_iff (by decide) rfl).mpr ⟨?_, fun _ => ⟨?_, ?_⟩⟩⟩
  · decide
  · refine @covered_of_terms fieldNameSelfLink _ fun t ht => ?_
    obtain ⟨n, -, rfl⟩ := List.mem_map.mp (hrun ▸ ht)
    exact ⟨_, rfl, rfl⟩
  · intro t ht hkind
    obtain ⟨n, -, rfl⟩ := List.mem_map.mp (hrun ▸ ht)
    simp [fieldNameSelfLink, fieldNameKind] at hkind

/-- Sixteen prefixes of links become the set of these prefixes, which no link is
in. -/
theorem rewritten_prefixes :
    ¬ ∀ maxClauseCount qs context clauses context',
      booleanRewriteTermCountThreshold ≤ qs.length →
      buildBooleanQuery maxClauseCount qs 0 context = .ok (clauses, context') →
      ∃ lq, convertToLuceneBooleanQuery maxClauseCount (some qs) context = .ok (lq, context') ∧
        ∀ d, lq.matches d = (LuceneQuery.booleanQuery clauses).matches d := by
  intro h
  obtain ⟨lq, hlq, hmatches⟩ := h 1024 (sixteenClauses fieldNameSelfLink .prefixMatch) none _ _
    (by decide) rfl
  cases hlq
  have := hmatches (.ofField fieldNameSelfLink [(0, "/core/examples-1/a")])
  revert this
  decide

end Xenon.Lucene
