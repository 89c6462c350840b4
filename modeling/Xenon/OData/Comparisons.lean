import Xenon.Foundation.Long
import Xenon.Lucene.Meaning
import Xenon.OData.Grammar

/-!
# Comparisons and documents

What a comparison says of a document by the rules of OData, and what the query for it finds.
The two agree on the comparisons that are `supported`.
-/

namespace Xenon.OData

open Xenon.Foundation
open Xenon.Filter (Occurance splitAt)
open Xenon.Lucene
open Xenon.QueryTask

/-! ## The rules of OData -/

/-- The relation of a verb; that of `ne` is the one it denies. -/
def ComparisonVerb.relates {α : Type} [DecidableEq α] [LT α] [LE α] [DecidableLT α]
    [DecidableLE α] : ComparisonVerb → α → α → Bool
  | .lt, x, y => x < y
  | .le, x, y => x ≤ y
  | .gt, x, y => y < x
  | .ge, x, y => y ≤ x
  | _, x, y => x = y

/-- A quote in a literal is doubled. -/
def undouble : List Char → List Char
  | [] => []
  | [c] => [c]
  | c :: c' :: s => if c = '\'' ∧ c' = '\'' then '\'' :: undouble s else c :: undouble (c' :: s)

/-- The text that a literal stands for. -/
def literalText (right : List Char) : List Char :=
  match right with
  | '\'' :: s => undouble s.dropLast
  | s => s

/-- A field has a text, or one that matches a pattern. -/
def hasText (d : Document) (field : String) (isPattern : Bool) (text : List Char) : Bool :=
  if isPattern then (d.terms field).any fun p => wildcardAccepts text p.2.toList
  else d.hasTerm field (String.ofList text)

/-- The items of `any` and `all` that are not blank. -/
def pieces (right : String) : List (List Char) :=
  (splitAt ';' right.toList).filter fun p => !(trim (unquote p)).isEmpty

def hasItem (d : Document) (field : String) (piece : List Char) : Bool :=
  hasText d field ('*' ∈ piece) (trim (unquote piece))

/-- Whether a value of a field is in the relation; of `ne`, in the one that it denies. -/
def Comparison.holdsAt (java : Java) (c : Comparison) (d : Document) (field : String) : Bool :=
  match c.verb with
  | .any => (pieces c.right).any (hasItem d field)
  | .all => (pieces c.right).all (hasItem d field)
  | verb =>
      if isNumeric java c.right then
        match parseNumber java c.right with
        | none => false
        | some n =>
            if n.isDouble then
              (d.doubles field).any fun x => verb.relates x.rank n.doubleValue.rank
            else (d.longs field).any (verb.relates · n.longValue)
      else if '*' ∈ c.right.toList then hasText d field true (literalText c.right.toList)
      else (d.terms field).any fun p =>
        verb.relates p.2 (String.ofList (literalText c.right.toList))

/-- The fields that a comparison is about. -/
def Comparison.fields (java : Java) (names : Option (List String)) (c : Comparison) :
    List String :=
  if isUnfoldQuery java c.left (some c.verb.toVerb) c.right then names.getD [] else [c.left]

/-- The relation holds of one of the fields. -/
def Comparison.related (java : Java) (names : Option (List String)) (d : Document)
    (c : Comparison) : Bool := (c.fields java names).any (c.holdsAt java d)

/-- The truth of a comparison; `ne` is the complement of `eq`. -/
def Comparison.holds (java : Java) (names : Option (List String)) (d : Document)
    (c : Comparison) : Bool :=
  if c.verb = .ne then !c.related java names d else c.related java names d

/-! ## Supported comparisons -/

/-- The comparisons for which the query on a field is right. -/
def Comparison.supportedAt (java : Java) (c : Comparison) (field : String) : Bool :=
  match c.verb with
  | .any | .all => !(pieces c.right).isEmpty &&
      (splitAt ';' c.right.toList).all fun p => p.isEmpty || !(trim (unquote p)).isEmpty
  | verb =>
      if isNumeric java c.right then
        match parseNumber java c.right with
        | none => false
        | some n =>
            if n.isDouble then verb = .eq && n.doubleValue.rank ≠ 0
            else verb = .eq || verb = .le || verb = .ge ||
              (verb = .lt && n.longValue ≠ Int64.minValue) ||
                (verb = .gt && n.longValue ≠ Int64.maxValue)
      else (verb = .eq || verb = .ne) &&
        unquote c.right.toList = literalText c.right.toList &&
          ('*' ∉ field.toList || '*' ∈ c.right.toList ||
            (literalText c.right.toList).all fun ch => ch ≠ '?' && ch ≠ '\\')

/-- The comparisons for which the query is right. -/
def Comparison.supported (java : Java) (names : Option (List String)) (c : Comparison) : Bool :=
  if isUnfoldQuery java c.left (some c.verb.toVerb) c.right then
    names.any fun ns => !ns.isEmpty && filterValueAllFields ∉ ns && ns.all (c.supportedAt java)
  else c.supportedAt java c.left

/-- Every indexed document has its link. -/
def Indexed (d : Document) : Prop := d.terms fieldNameSelfLink ≠ []

/-! ## Texts -/

theorem wildcardAccepts_star (s : List Char) : wildcardAccepts ['*'] s = true := by
  induction s with
  | nil => rfl
  | cons c s ih =>
      simp only [wildcardAccepts, suffixes, List.any_cons] at ih ⊢
      rw [ih, Bool.or_true]

/-- A pattern without special characters is a text. -/
theorem wildcardAccepts_plain {text : List Char}
    (h : ∀ c ∈ text, c ≠ '*' ∧ c ≠ '?' ∧ c ≠ '\\') (s : List Char) :
    wildcardAccepts text s = decide (s = text) := by
  induction text generalizing s with
  | nil => cases s <;> rfl
  | cons w text ih =>
      obtain ⟨h₁, h₂, h₃⟩ := h w List.mem_cons_self
      have ih := ih fun c hc => h c (List.mem_cons_of_mem _ hc)
      rcases s with _ | ⟨c, s⟩
      · simp [wildcardAccepts, h₃]
      · simp [wildcardAccepts, h₃, ih]

/-- The term that a text is searched by. -/
def textTerm (field : String) (isPattern : Bool) (text : List Char) : QueryTerm :=
  ⟨some field, some (String.ofList text), some (if isPattern then .wildcard else .term), none⟩

theorem ofTerm_textTerm {d : Document} (hd : Indexed d) (field : String) (isPattern : Bool)
    (text : List Char) :
    (∃ q, convertTerm (textTerm field isPattern text) = .ok q) ∧
      (Reading.ofDocument d).ofTerm (textTerm field isPattern text) =
        hasText d field isPattern text := by
  cases isPattern with
  | false => exact ⟨⟨_, rfl⟩, rfl⟩
  | true =>
      refine ⟨⟨_, rfl⟩, ?_⟩
      show (convertToLuceneWildcardTermQuery field (String.ofList text)).matches d = _
      unfold convertToLuceneWildcardTermQuery
      split_ifs with hall
      · -- every document has its link
        obtain ⟨rfl, htext⟩ := hall
        have htext : text = ['*'] := by
          have := congrArg String.toList htext
          simpa using this
        obtain ⟨p, ps, hps⟩ := List.exists_cons_of_ne_nil hd
        simp [hasText, htext, hps, wildcardAccepts_star, LeafQuery.matches]
      · simp [hasText, LeafQuery.matches]

/-! ## Numbers -/

/-- The range of longs that a query looks for. -/
def inRange (minInclusive maxInclusive : Bool) (min max x : Int64) : Bool :=
  (if minInclusive then min ≤ x else min < x) && if maxInclusive then x ≤ max else x < max

theorem validate_createRangeOf {isDouble a b : Bool} {min max : Number} {o o' : Ordering}
    (h : max.compareTo min = .ok o) (ho : o ≠ .lt) (h' : min.compareTo max = .ok o')
    (ho' : o' ≠ .gt) : (createRangeOf isDouble min max a b).validate = .ok () := by
  simp only [createRangeOf, NumericRange.validate, reduceCtorEq, and_self, if_false, h, h']
  show (if o = .lt then _ else (if o' = .gt then _ else _)) = _
  rw [if_neg ho, if_neg ho']
  rfl

theorem validate_longRange {a b : Bool} {min max : Number} (hmin : min.isDouble = false)
    (hmax : max.isDouble = false) (hle : min.longValue ≤ max.longValue) :
    (createRangeOf false min max a b).validate = .ok () := by
  rw [Int64.le_iff_toInt_le] at hle
  have hcompare : max.compareTo min =
      .ok (compare max.longValue.toInt min.longValue.toInt) := by
    simp [Number.compareTo, hmin, hmax]
  have hcompare' : min.compareTo max =
      .ok (compare min.longValue.toInt max.longValue.toInt) := by
    simp [Number.compareTo, hmin, hmax]
  apply validate_createRangeOf hcompare _ hcompare'
  · rw [ne_eq, compare_gt_iff_gt]
    omega
  · rw [ne_eq, compare_lt_iff_lt]
    omega

/-- The query for a range of longs. -/
theorem convert_longRange {min max : Number} (hmin : min.isDouble = false)
    (hmax : max.isDouble = false) (hle : min.longValue ≤ max.longValue) {a b : Bool}
    (ha : a = true ∨ min.longValue ≠ Int64.maxValue)
    (hb : b = true ∨ max.longValue ≠ Int64.minValue) (field : String) :
    ∃ q, convertToLuceneNumericRangeQuery field (createRangeOf false min max a b) = .ok q ∧
      ∀ d, q.matches d = (d.longs field).any (inRange a b min.longValue max.longValue) := by
  have hvalidate := validate_longRange (a := a) (b := b) hmin hmax hle
  unfold convertToLuceneNumericRangeQuery
  rw [hvalidate]
  show ∃ q, createLongRangeQuery field (createRangeOf false min max a b) = .ok q ∧ _
  refine ⟨.longRangeQuery field (if a then min.longValue else min.longValue + 1)
    (if b then max.longValue else max.longValue - 1), ?_, fun d => ?_⟩
  · rcases ha with rfl | ha <;> rcases hb with rfl | hb
    · rfl
    · cases b <;> simp [createLongRangeQuery, createRangeOf, hb] <;> rfl
    · cases a <;> simp [createLongRangeQuery, createRangeOf, ha] <;> rfl
    · cases a <;> cases b <;> simp [createLongRangeQuery, createRangeOf, ha, hb] <;> rfl
  · show (d.longs field).any _ = _
    congr 1
    funext x
    unfold inRange
    congr 1
    · rcases ha with rfl | ha
      · rfl
      · cases a <;> simp [Long.add_one_le_iff ha]
    · rcases hb with rfl | hb
      · rfl
      · cases b <;> simp [Long.le_sub_one_iff hb]

/-- The query for one double. -/
theorem convert_doubleEqual {n : Number} (hn : n.isDouble = true) (field : String) :
    ∃ q, convertToLuceneNumericRangeQuery field (createRangeOf true n n true true) = .ok q ∧
      ∀ d, q.matches d = (d.doubles field).any (· = n.doubleValue) := by
  have hcompare : n.compareTo n = .ok .eq := by simp [Number.compareTo, hn]
  unfold convertToLuceneNumericRangeQuery
  rw [validate_createRangeOf hcompare (by simp) hcompare (by simp)]
  refine ⟨.doubleRangeQuery field n.doubleValue n.doubleValue, rfl, fun d => ?_⟩
  show (d.doubles field).any _ = _
  congr 1
  funext x
  obtain ⟨x⟩ := x
  obtain ⟨_, _, ⟨y⟩⟩ := n
  simp only [Double.le_def, ← Bool.decide_and, Double.mk.injEq]
  exact decide_eq_decide.mpr ⟨fun h => le_antisymm h.2 h.1, fun h => ⟨h.ge, h.le⟩⟩

/-! ## What a query finds -/

/-- The terms of a query can be converted, and of the indexed documents it finds those that are
told by `f`. -/
structure Finds (q : Query) (f : Document → Bool) : Prop where
  converts : ∀ t ∈ q.terms, ∃ lq, convertTerm t = .ok lq
  finds : ∀ d, Indexed d → reads noRewrite (.ofDocument d) q = f d

theorem reads_mk (rewrite : Rewrite) (r : Reading) (o o' : Option Occurance)
    (t : Option QueryTerm) (qs : Option (List Query)) :
    reads rewrite r (.mk o t qs) = reads rewrite r (.mk o' t qs) := by
  rcases t with _ | t <;> rcases qs with _ | qs <;> rfl

theorem Finds.occurance {o o' : Option Occurance} {t : Option QueryTerm} {qs : Option (List Query)}
    {f : Document → Bool} (h : Finds (.mk o t qs) f) : Finds (.mk o' t qs) f := by
  refine ⟨fun u hu => h.converts u ?_, fun d hd => ?_⟩
  · rwa [Query.terms_mk] at hu ⊢
  · rw [reads_mk noRewrite _ o' o, h.finds d hd]

theorem finds_term {o : Option Occurance} {t : QueryTerm} {f : Document → Bool}
    (hconvert : ∃ lq, convertTerm t = .ok lq)
    (h : ∀ d, Indexed d → (Reading.ofDocument d).ofTerm t = f d) : Finds (.ofTerm o t) f := by
  refine ⟨fun u hu => ?_, h⟩
  obtain rfl : u = t := by simpa [Query.ofTerm, Query.terms_mk] using hu
  exact hconvert

section

variable {ι : Type} {xs : List ι} {q : ι → Query} {f : ι → Document → Bool}
  {o : Option Occurance}

theorem converts_clauses (h : ∀ x ∈ xs, Finds (q x) (f x)) :
    ∀ t ∈ (Query.mk o none (some (xs.map q))).terms, ∃ lq, convertTerm t = .ok lq := by
  intro t ht
  simp only [Query.terms_mk, Option.toList_none, List.nil_append, Option.getD_some,
    List.mem_flatMap, List.mem_map, exists_exists_and_eq_and] at ht
  obtain ⟨x, hx, ht⟩ := ht
  exact (h x hx).converts t ht

/-- Of `SHOULD` clauses one has to find the document. -/
theorem finds_should (h : ∀ x ∈ xs, Finds (q x) (f x))
    (ho : ∀ x ∈ xs, (q x).effective = .shouldOccur) :
    Finds (.mk o none (some (xs.map q))) fun d => xs.any (f · d) := by
  refine ⟨converts_clauses h, fun d hd => ?_⟩
  rw [reads_clauses rfl, List.map_map, Bool.eq_iff_iff]
  exact (booleanMatches_should ho).trans (by
    rw [List.any_eq_true]
    exact exists_congr fun x => and_congr_right fun hx => by rw [(h x hx).finds d hd])

/-- Of `MUST` clauses all have to. -/
theorem finds_must (h : ∀ x ∈ xs, Finds (q x) (f x)) (hne : xs ≠ [])
    (ho : ∀ x ∈ xs, (q x).effective = .mustOccur) :
    Finds (.mk o none (some (xs.map q))) fun d => xs.all (f · d) := by
  refine ⟨converts_clauses h, fun d hd => ?_⟩
  obtain ⟨x, hx⟩ := List.exists_mem_of_ne_nil xs hne
  rw [reads_clauses rfl, List.map_map, Bool.eq_iff_iff]
  refine (booleanMatches_must ⟨x, hx, ho x hx⟩).trans ?_
  rw [List.all_eq_true]
  constructor
  · rintro ⟨hall, -⟩ y hy
    rw [← (h y hy).finds d hd]
    exact hall y hy (ho y hy)
  · intro hall
    refine ⟨fun y hy _ => ?_, fun y hy hnot => ?_⟩
    · rw [(h y hy).finds d hd]
      exact hall y hy
    · rw [ho y hy] at hnot
      cases hnot

end

theorem addBooleanClauses_eq (o : Option Occurance) {cs : List Query} (h : cs ≠ []) :
    addBooleanClauses (.mk o none none) cs = .mk o none (some cs) := by
  have hfold : ∀ (cs qs : List Query), cs.foldl Query.addBooleanClause (.mk o none (some qs)) =
      .mk o none (some (qs ++ cs)) := by
    intro cs
    induction cs with
    | nil => simp
    | cons c cs ih =>
        intro qs
        rw [List.foldl_cons, Query.addBooleanClause, ih, List.append_assoc]
        rfl
  obtain ⟨c, cs, rfl⟩ := List.exists_cons_of_ne_nil h
  exact hfold cs [c]

/-! ## The query for a property -/

/-- The occurance of a comparison. -/
def Comparison.occurance (c : Comparison) : Occurance :=
  if c.verb = .ne then .mustNotOccur else .mustOccur

theorem convertToLuceneOccur_toVerb (c : Comparison) :
    OData.convertToLuceneOccur (some c.verb.toVerb) = .ok c.occurance := by
  cases hverb : c.verb <;> simp [Comparison.occurance, hverb, ComparisonVerb.toVerb,
    OData.convertToLuceneOccur]

theorem finds_itemClause (field : String) (o : Occurance) (piece : List Char) :
    Finds (itemClause field o piece) fun d => hasItem d field piece := by
  have hterm : itemClause field o piece = .ofTerm (some o)
      (textTerm field ('*' ∈ piece) (trim (unquote piece))) := by
    by_cases h : '*' ∈ piece <;> simp [itemClause, textTerm, matchTypeOf, h]
  rw [hterm]
  refine finds_term ?_ fun d hd => (ofTerm_textTerm hd _ _ _).2
  by_cases h : '*' ∈ piece <;> simp only [h, decide_true, decide_false] <;> exact ⟨_, rfl⟩

theorem itemClauses_eq {field : String} {o : Occurance} {right : String}
    (h : (splitAt ';' right.toList).all (fun p => p.isEmpty || !(trim (unquote p)).isEmpty) =
      true) : itemClauses field o right = (pieces right).map (itemClause field o) := by
  unfold itemClauses pieces
  congr 1
  refine List.filter_congr fun p hp => ?_
  have hp := List.all_eq_true.mp h p hp
  cases hempty : p.isEmpty with
  | false => simpa [hempty] using hp
  | true =>
      obtain rfl : p = [] := by simpa using hempty
      rfl

/-- The items of a supported comparison. -/
theorem Comparison.supportedAt_items {c : Comparison} (hverb : c.verb = .any ∨ c.verb = .all)
    {java : Java} {field : String} (h : c.supportedAt java field = true) (o : Occurance) :
    pieces c.right ≠ [] ∧
      addBooleanClauses (.mk (some .mustOccur) none none) (itemClauses field o c.right) =
        .mk (some .mustOccur) none (some ((pieces c.right).map (itemClause field o))) := by
  have hsupported : (pieces c.right).isEmpty = false ∧ (splitAt ';' c.right.toList).all
      (fun p => p.isEmpty || !(trim (unquote p)).isEmpty) = true := by
    rcases hverb with hverb | hverb <;> simpa [Comparison.supportedAt, hverb] using h
  obtain ⟨hne, hpieces⟩ := hsupported
  have hne : pieces c.right ≠ [] := by simpa using hne
  refine ⟨hne, ?_⟩
  rw [itemClauses_eq hpieces, addBooleanClauses_eq _ (by simpa using hne)]

theorem finds_any {c : Comparison} (hverb : c.verb = .any) {java : Java} {field : String}
    (h : c.supportedAt java field = true) :
    ∃ q, visitProperty java field (some c.verb.toVerb) c.right = .ok q ∧
      q.occurance = some c.occurance ∧ Finds q fun d => c.holdsAt java d field := by
  obtain ⟨-, hclauses⟩ := c.supportedAt_items (Or.inl hverb) h .shouldOccur
  refine ⟨.mk (some .mustOccur) none
    (some ((pieces c.right).map (itemClause field .shouldOccur))), ?_, ?_, ?_⟩
  · rw [← hclauses, hverb]
    rfl
  · simp [Comparison.occurance, hverb]
  · simp only [Comparison.holdsAt, hverb]
    exact finds_should (fun p _ => finds_itemClause field .shouldOccur p) fun _ _ => rfl

theorem finds_all {c : Comparison} (hverb : c.verb = .all) {java : Java} {field : String}
    (h : c.supportedAt java field = true) :
    ∃ q, visitProperty java field (some c.verb.toVerb) c.right = .ok q ∧
      q.occurance = some c.occurance ∧ Finds q fun d => c.holdsAt java d field := by
  obtain ⟨hne, hclauses⟩ := c.supportedAt_items (Or.inr hverb) h .mustOccur
  refine ⟨.mk (some .mustOccur) none
    (some ((pieces c.right).map (itemClause field .mustOccur))), ?_, ?_, ?_⟩
  · rw [← hclauses, hverb]
    rfl
  · simp [Comparison.occurance, hverb]
  · simp only [Comparison.holdsAt, hverb]
    exact finds_must (fun p _ => finds_itemClause field .mustOccur p) hne fun _ _ => rfl

/-- The other verbs give one term. -/
theorem finds_comparisonTerm {c : Comparison} (hany : c.verb ≠ .any) (hall : c.verb ≠ .all)
    {java : Java} {field : String} {t : QueryTerm}
    (h : comparisonTerm java field (some c.verb.toVerb) c.right = .ok t)
    (hconvert : ∃ lq, convertTerm t = .ok lq)
    (hfinds : ∀ d, Indexed d → (Reading.ofDocument d).ofTerm t = c.holdsAt java d field) :
    ∃ q, visitProperty java field (some c.verb.toVerb) c.right = .ok q ∧
      q.occurance = some c.occurance ∧ Finds q fun d => c.holdsAt java d field := by
  have hvisit : visitProperty java field (some c.verb.toVerb) c.right =
      .ok (.ofTerm (some c.occurance) t) := by
    unfold visitProperty
    rw [convertToLuceneOccur_toVerb]
    refine bind_eq_ok.mpr ⟨c.occurance, rfl, ?_⟩
    rw [if_neg (by cases hverb : c.verb <;> simp_all [ComparisonVerb.toVerb]),
      if_neg (by cases hverb : c.verb <;> simp_all [ComparisonVerb.toVerb]), h]
    rfl
  exact ⟨_, hvisit, rfl, finds_term hconvert hfinds⟩

/-- A field that may be searched by a pattern without special characters. -/
theorem hasText_plain {d : Document} {field : String} {text : List Char}
    (h : ∀ c ∈ text, c ≠ '*' ∧ c ≠ '?' ∧ c ≠ '\\') :
    hasText d field true text = hasText d field false text := by
  simp only [hasText, if_true, Bool.false_eq_true, if_false, Document.hasTerm,
    wildcardAccepts_plain h]
  congr 1
  funext p
  rw [decide_eq_decide, ← String.toList_inj, String.toList_ofList]

/-- A comparison with a text. -/
theorem finds_text {c : Comparison} (hany : c.verb ≠ .any) (hall : c.verb ≠ .all)
    {java : Java} {field : String} (hnumeric : isNumeric java c.right = false)
    (h : c.supportedAt java field = true) :
    ∃ q, visitProperty java field (some c.verb.toVerb) c.right = .ok q ∧
      q.occurance = some c.occurance ∧ Finds q fun d => c.holdsAt java d field := by
  have hverb : c.verb = .eq ∨ c.verb = .ne := by
    cases hv : c.verb <;> simp_all [Comparison.supportedAt]
  have hsupported : unquote c.right.toList = literalText c.right.toList ∧
      ('*' ∉ field.toList ∨ '*' ∈ c.right.toList ∨
        ∀ ch ∈ literalText c.right.toList, ch ≠ '?' ∧ ch ≠ '\\') := by
    rcases hverb with hv | hv <;> simpa [Comparison.supportedAt, hv, hnumeric, or_assoc] using h
  obtain ⟨htext, hpattern⟩ := hsupported
  let isPattern : Bool := '*' ∈ c.right.toList || '*' ∈ field.toList
  have hterm : comparisonTerm java field (some c.verb.toVerb) c.right =
      .ok (textTerm field isPattern (literalText c.right.toList)) := by
    by_cases h₁ : '*' ∈ c.right.toList <;> by_cases h₂ : '*' ∈ field.toList <;>
      simp [comparisonTerm, hnumeric, textTerm, matchTypeOf, isPattern, htext, h₁, h₂]
  have hholds : ∀ d, c.holdsAt java d field =
      hasText d field ('*' ∈ c.right.toList) (literalText c.right.toList) := by
    intro d
    by_cases hstar : '*' ∈ c.right.toList <;> rcases hverb with hv | hv <;>
      simp [Comparison.holdsAt, hv, hnumeric, hstar, hasText, Document.hasTerm,
        ComparisonVerb.relates]
  refine finds_comparisonTerm hany hall hterm ?_ fun d hd => ?_
  · cases isPattern <;> exact ⟨_, rfl⟩
  · rw [(ofTerm_textTerm hd _ _ _).2, hholds d]
    by_cases hstar : '*' ∈ c.right.toList
    · simp [isPattern, hstar]
    · by_cases hfield : '*' ∈ field.toList
      · have hplain := hpattern.resolve_left (not_not_intro hfield) |>.resolve_left hstar
        simp only [isPattern, hstar, hfield, decide_true, decide_false, Bool.or_true]
        refine hasText_plain fun ch hch => ⟨?_, hplain ch hch⟩
        rintro rfl
        rw [← htext] at hch
        exact hstar (List.mem_of_mem_filter hch)
      · simp [isPattern, hstar, hfield]

/-- A term with a range. -/
theorem ofTerm_range {field : String} {set : Option MatchType} {r : NumericRange} {q : LeafQuery}
    (h : convertToLuceneNumericRangeQuery field r = .ok q) (d : Document) :
    convertTerm ⟨some field, none, set, some r⟩ = .ok q ∧
      (Reading.ofDocument d).ofTerm ⟨some field, none, set, some r⟩ = q.matches d := by
  have hconvert : convertTerm ⟨some field, none, set, some r⟩ = .ok q := h
  refine ⟨hconvert, ?_⟩
  simp [Reading.ofTerm, hconvert, Reading.ofDocument]

/-- A range that is the relation of the comparison is enough. -/
theorem exists_longRange {java : Java} {n : Number} {v : ComparisonVerb} {min max : Number}
    {a b : Bool} (hmin : min.isDouble = false) (hmax : max.isDouble = false)
    (hle : min.longValue ≤ max.longValue) (ha : a = true ∨ min.longValue ≠ Int64.maxValue)
    (hb : b = true ∨ max.longValue ≠ Int64.minValue)
    (hcreate : ∀ right, parseNumber java right = some n →
      createRange java right (some v.toVerb) = .ok (some (createRangeOf false min max a b)))
    (hrelates : ∀ x, inRange a b min.longValue max.longValue x = v.relates x n.longValue)
    (field : String) :
    ∃ r q, (∀ right, parseNumber java right = some n →
        createRange java right (some v.toVerb) = .ok (some r)) ∧
      convertToLuceneNumericRangeQuery field r = .ok q ∧
        ∀ d, q.matches d = (d.longs field).any (v.relates · n.longValue) := by
  obtain ⟨q, hq, hmatch⟩ := convert_longRange hmin hmax hle ha hb field
  refine ⟨_, q, hcreate, hq, fun d => ?_⟩
  rw [hmatch d]
  congr 1
  ext x
  exact hrelates x

/-- The range of a supported comparison with a long. -/
theorem longRange_relates (java : Java) {n : Number} (hlong : n.isDouble = false)
    {v : ComparisonVerb}
    (h : v = .eq ∨ v = .le ∨ v = .ge ∨ (v = .lt ∧ n.longValue ≠ Int64.minValue) ∨
      (v = .gt ∧ n.longValue ≠ Int64.maxValue)) (field : String) :
    ∃ r q, (∀ right, parseNumber java right = some n →
        createRange java right (some v.toVerb) = .ok (some r)) ∧
      convertToLuceneNumericRangeQuery field r = .ok q ∧
        ∀ d, q.matches d = (d.longs field).any (v.relates · n.longValue) := by
  have hlow : (java.long Int64.minValue).isDouble = false := rfl
  have hhigh : (java.long Int64.maxValue).isDouble = false := rfl
  rcases h with rfl | rfl | rfl | ⟨rfl, hne⟩ | ⟨rfl, hne⟩
  · apply exists_longRange hlong hlong (Int64.le_refl n.longValue) (Or.inl rfl) (Or.inl rfl)
    · intro right hn
      simp [createRange, hn, ComparisonVerb.toVerb, createEqualRange, hlong]
    · intro x
      simp only [inRange, if_true, ComparisonVerb.relates, ← Bool.decide_and]
      exact decide_eq_decide.mpr
        ⟨fun h => Int64.le_antisymm h.2 h.1, fun h => h ▸ ⟨Int64.le_refl _, Int64.le_refl _⟩⟩
  · apply exists_longRange hlow hlong (Int64.minValue_le _) (Or.inl rfl) (Or.inl rfl)
    · intro right hn
      simp [createRange, hn, ComparisonVerb.toVerb, createLessThanOrEqualRange, Java.minOf, hlong]
    · intro x
      simp [inRange, Java.long, ComparisonVerb.relates]
  · apply exists_longRange hlong hhigh (Int64.le_maxValue _) (Or.inl rfl) (Or.inl rfl)
    · intro right hn
      simp [createRange, hn, ComparisonVerb.toVerb, createGreaterThanOrEqualRange, Java.maxOf, hlong]
    · intro x
      simp [inRange, Java.long, ComparisonVerb.relates]
  · apply exists_longRange (b := false) hlow hlong (Int64.minValue_le _) (Or.inl rfl) (Or.inr hne)
    · intro right hn
      simp [createRange, hn, ComparisonVerb.toVerb, createLessThanRange, Java.minOf, hlong]
    · intro x
      simp [inRange, Java.long, ComparisonVerb.relates]
  · apply exists_longRange (a := false) hlong hhigh (Int64.le_maxValue _) (Or.inr hne) (Or.inl rfl)
    · intro right hn
      simp [createRange, hn, ComparisonVerb.toVerb, createGreaterThanRange, Java.maxOf, hlong]
    · intro x
      simp [inRange, Java.long, ComparisonVerb.relates]

/-- A comparison with a number. -/
theorem finds_number {c : Comparison} (hany : c.verb ≠ .any) (hall : c.verb ≠ .all)
    {java : Java} {field : String} (hnumeric : isNumeric java c.right = true)
    (h : c.supportedAt java field = true) :
    ∃ q, visitProperty java field (some c.verb.toVerb) c.right = .ok q ∧
      q.occurance = some c.occurance ∧ Finds q fun d => c.holdsAt java d field := by
  obtain ⟨n, hn⟩ : ∃ n, parseNumber java c.right = some n := by
    cases hn : parseNumber java c.right with
    | some n => exact ⟨n, rfl⟩
    | none => cases hv : c.verb <;> simp_all [Comparison.supportedAt]
  -- what it comes to once the range and its query are known
  have hrange : ∀ r q, createRange java c.right (some c.verb.toVerb) = .ok (some r) →
      convertToLuceneNumericRangeQuery field r = .ok q →
        (∀ d, q.matches d = c.holdsAt java d field) →
          ∃ q, visitProperty java field (some c.verb.toVerb) c.right = .ok q ∧
            q.occurance = some c.occurance ∧ Finds q fun d => c.holdsAt java d field := by
    intro r q hr hq hmatch
    have hterm : comparisonTerm java field (some c.verb.toVerb) c.right =
        .ok ⟨some field, none, if '*' ∈ field.toList then some .wildcard else none, some r⟩ := by
      unfold comparisonTerm
      rw [if_pos hnumeric, hr]
      rfl
    refine finds_comparisonTerm hany hall hterm ⟨q, hq⟩ fun d _ => ?_
    rw [(ofTerm_range hq d).2, hmatch d]
  cases hdouble : n.isDouble with
  | true =>
      have hv : c.verb = .eq ∧ n.doubleValue.rank ≠ 0 := by
        cases hv : c.verb <;> simp_all [Comparison.supportedAt]
      obtain ⟨hv, hne⟩ := hv
      obtain ⟨q, hq, hmatch⟩ := convert_doubleEqual hdouble field
      refine hrange (createEqualRange n) q ?_ (by rwa [createEqualRange, hdouble]) fun d => ?_
      · simp [createRange, hn, hv, ComparisonVerb.toVerb]
      · simp [hmatch d, Comparison.holdsAt, hv, hnumeric, hn, hdouble, ComparisonVerb.relates,
          Double.rank_inj hne]
  | false =>
      have hv : c.verb = .eq ∨ c.verb = .le ∨ c.verb = .ge ∨
          (c.verb = .lt ∧ n.longValue ≠ Int64.minValue) ∨
            (c.verb = .gt ∧ n.longValue ≠ Int64.maxValue) := by
        cases hv : c.verb <;> simp_all [Comparison.supportedAt]
      obtain ⟨r, q, hr, hq, hmatch⟩ := longRange_relates java hdouble hv field
      refine hrange r q (hr _ hn) hq fun d => ?_
      rw [hmatch d]
      rcases hv with hv | hv | hv | ⟨hv, -⟩ | ⟨hv, -⟩ <;>
        simp [Comparison.holdsAt, hv, hnumeric, hn, hdouble]

/-- **The query for a supported comparison on a field is right.** -/
theorem finds_visitProperty {c : Comparison} {java : Java} {field : String}
    (h : c.supportedAt java field = true) :
    ∃ q, visitProperty java field (some c.verb.toVerb) c.right = .ok q ∧
      q.occurance = some c.occurance ∧ Finds q fun d => c.holdsAt java d field := by
  by_cases hany : c.verb = .any
  · exact finds_any hany h
  · by_cases hall : c.verb = .all
    · exact finds_all hall h
    · cases hnumeric : isNumeric java c.right with
      | false => exact finds_text hany hall hnumeric h
      | true => exact finds_number hany hall hnumeric h

/-! ## The query for a comparison -/

theorem mapM_eq_ok_map {ι β ε : Type} {f : ι → Except ε β} {g : ι → β} {xs : List ι}
    (h : ∀ x ∈ xs, f x = .ok (g x)) : xs.mapM f = .ok (xs.map g) := by
  induction xs with
  | nil => rfl
  | cons x xs ih =>
      rw [List.mapM_cons]
      refine bind_eq_ok.mpr ⟨g x, h x List.mem_cons_self, bind_eq_ok.mpr ⟨xs.map g, ?_, rfl⟩⟩
      exact ih fun y hy => h y (List.mem_cons_of_mem _ hy)

/-- The query of a property that is unfolded. -/
def unfolded (java : Java) (c : Comparison) (name : String) : Query :=
  match visitProperty java name (some c.verb.toVerb) c.right with
  | .ok (.mk _ t qs) => .mk (some .shouldOccur) t qs
  | .error _ => .mk none none none

theorem unfoldClause_supported {java : Java} {c : Comparison} {name : String}
    (hname : name ≠ filterValueAllFields) (h : c.supportedAt java name = true) :
    unfoldClause java (some c.verb.toVerb) c.right name = .ok (unfolded java c name) ∧
      (unfolded java c name).effective = .shouldOccur ∧
        Finds (unfolded java c name) fun d => c.holdsAt java d name := by
  obtain ⟨⟨o, t, qs⟩, hq, -, hfinds⟩ := finds_visitProperty h
  have hunfolded : unfolded java c name = .mk (some .shouldOccur) t qs := by
    simp only [unfolded, hq]
  rw [hunfolded]
  refine ⟨?_, rfl, hfinds.occurance⟩
  rw [unfoldClause, if_neg hname]
  exact bind_eq_ok.mpr ⟨_, hq, rfl⟩

/-- **The query for a supported comparison is right.** -/
theorem Comparison.finds_query {java : Java} {names : Option (List String)} {c : Comparison}
    (h : c.supported java names = true) :
    c.readable java names = true ∧ (c.query java names).occurance = some c.occurance ∧
      Finds (c.query java names) fun d => c.related java names d := by
  suffices hvisit : ∃ q, visitBinaryComparator java names c.left (some c.verb.toVerb) c.right =
      .ok q ∧ q.occurance = some c.occurance ∧ Finds q fun d => c.related java names d by
    obtain ⟨q, hq, hoccurance, hfinds⟩ := hvisit
    have hquery : c.query java names = q := by simp only [Comparison.query, hq]
    rw [hquery]
    exact ⟨(visitBinaryComparator_ok_iff _ _ _).mp ⟨q, hq⟩, hoccurance, hfinds⟩
  unfold Comparison.supported at h
  unfold visitBinaryComparator
  simp only [Comparison.related, Comparison.fields]
  split_ifs at h ⊢ with hunfold
  · cases names with
    | none => simp at h
    | some ns =>
        simp only [Option.any_some, Bool.and_eq_true, Bool.not_eq_true', List.isEmpty_eq_false_iff,
          decide_eq_true_eq, List.all_eq_true] at h
        obtain ⟨⟨hne, hall⟩, hns⟩ := h
        have hclause : ∀ name ∈ ns, unfoldClause java (some c.verb.toVerb) c.right name =
            .ok (unfolded java c name) ∧ (unfolded java c name).effective = .shouldOccur ∧
              Finds (unfolded java c name) fun d => c.holdsAt java d name :=
          fun name hname =>
            unfoldClause_supported (fun heq => hall (heq ▸ hname)) (hns name hname)
        refine ⟨.mk (some c.occurance) none (some (ns.map (unfolded java c))), ?_, rfl, ?_⟩
        · rw [convertToLuceneOccur_toVerb]
          refine bind_eq_ok.mpr ⟨c.occurance, rfl, ?_⟩
          refine bind_eq_ok.mpr ⟨_, mapM_eq_ok_map fun name hname => (hclause name hname).1, ?_⟩
          rw [addBooleanClauses_eq _ (by simpa using hne)]
          rfl
        · exact finds_should (fun name hname => (hclause name hname).2.2)
            fun name hname => (hclause name hname).2.1
  · simpa using finds_visitProperty h

end Xenon.OData
