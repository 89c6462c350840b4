import Xenon.OData.Comparisons
import Xenon.OData.Literals

/-!
# Comparisons with numbers

The query for `field op number` looks for a range, with a lower and an upper end of its own where the
comparison has none. For longs these ends are the extreme longs. For doubles the lower one is the
least positive double, and the upper one is the greatest finite double. There is no range for `ne`.
-/

namespace Xenon.OData

open Xenon.Foundation
open Xenon.Lucene
open Xenon.QueryTask

/-! ## Numbers as they are written -/

/-- The exact value of a literal: an integer, or with a decimal point a double. -/
inductive Literal where
  | integral (n : ℤ)
  | decimal (d : Double)

/-- The values of a field of the type of the literal. -/
def Literal.Value : Literal → Type
  | .integral _ => Int64
  | .decimal _ => Double

/-- The places of a literal and of a value among the numbers of their type. -/
def Literal.place : Literal → ℤ
  | .integral n => n
  | .decimal d => d.rank

def Literal.placeOf : (l : Literal) → l.Value → ℤ
  | .integral _, x => Int64.toInt x
  | .decimal _, x => Double.rank x

/-- A document whose field has one value. -/
def Literal.HasValue (d : Document) (field : String) : (l : Literal) → l.Value → Prop
  | .integral _, x => d.longs field = [x]
  | .decimal _, x => d.doubles field = [x]

/-- A sign, digits and at most one decimal point, and their value. -/
structure NumericLiteral (java : Java) (right : String) (l : Literal) : Prop where
  characters : ∀ c ∈ right.toList, c.isDigit = true ∨ c ∈ ['-', '+', '.']
  numeric : isNumeric java right = true
  value : match l with
    | .integral n => '.' ∉ right.toList ∧ parseInteger right.toList = some n
    | .decimal d => '.' ∈ right.toList ∧ java.parseDouble right = some d

def ComparisonVerb.Compares : ComparisonVerb → ℤ → ℤ → Prop
  | .eq, x, n => x = n
  | .ne, x, n => x ≠ n
  | .lt, x, n => x < n
  | .le, x, n => x ≤ n
  | .gt, x, n => n < x
  | .ge, x, n => n ≤ x
  | .any, _, _ | .all, _, _ => False

/-! ## The query of a number -/

variable {java : Java} {right : String} {l : Literal}

theorem NumericLiteral.ne_nil (h : NumericLiteral java right l) : right.toList ≠ [] := by
  intro hnil
  have hvalue := h.value
  cases l with
  | integral n =>
      rw [hnil] at hvalue
      cases hvalue.2
  | decimal d =>
      rw [hnil] at hvalue
      cases hvalue.1

theorem NumericLiteral.isWord (h : NumericLiteral java right l) : IsWord java right.toList := by
  refine ⟨h.ne_nil, ?_, ?_⟩
  · intro c hc
    unfold isLiteralCharacter
    rcases h.characters c hc with hdigit | hsign
    · rw [hdigit, Bool.or_true, Bool.true_or]
    · simp only [List.mem_cons, List.not_mem_nil, or_false] at hsign
      rcases hsign with rfl | rfl | rfl
      · rw [Bool.or_eq_true]
        exact Or.inr (by decide)
      · rw [Bool.or_eq_true]
        exact Or.inr (by decide)
      · rw [Bool.or_eq_true]
        exact Or.inr (by decide)
  · intro c hc hspecial
    simp only [specialCharacters, List.mem_cons, List.not_mem_nil, or_false] at hspecial
    have hc := h.characters c hc
    rcases hspecial with rfl | rfl | rfl | rfl | rfl | rfl | rfl | rfl <;>
      exact absurd hc (by decide)

theorem NumericLiteral.readsLiteral (h : NumericLiteral java right l)
    (hspace : java.isLetter ' ' = false) : ReadsLiteral java right := by
  obtain ⟨c, u, hcons⟩ := List.exists_cons_of_ne_nil h.ne_nil
  have hword := h.isWord
  rw [hcons] at hword
  refine ⟨c, u, hcons, ?_, ?_⟩
  · rintro rfl
    exact hword.plain ' ' List.mem_cons_self (by decide)
  · intro expression position
    have hread := @nextToken_word java expression c u [] hword hspace (Or.inl rfl) (Or.inl rfl)
      position
    rw [List.append_nil] at hread
    rw [hread, ← hcons, String.ofList_toList]

/-- The filter has a query, the converter accepts it, and it finds a document with one value where
the value compares with the literal. -/
def ComparesExactly (java : Java) (names : Option (List String)) (maxClauseCount : ℕ)
    (context : Option QueryRuntimeContext) (field : String) (verb : ComparisonVerb)
    (right : String) (l : Literal) (x : l.Value) : Prop :=
  ∃ q lq context',
    toQuery java names (filterOf field verb right) = .ok (some q) ∧
    convert maxClauseCount q context = .ok (lq, context') ∧
    ∀ d, l.HasValue d field x →
      (lq.holds (.ofDocument d) = true ↔ verb.Compares (l.placeOf x) l.place)

/-- The range of a comparison finds the values that compare with the literal. -/
def RangeCompares (java : Java) (field : String) (verb : ComparisonVerb) (right : String)
    (l : Literal) (x : l.Value) : Prop :=
  ∃ r q, createRange java right (some verb.toVerb) = .ok (some r) ∧
    convertToLuceneNumericRangeQuery field r = .ok q ∧
    ∀ d, l.HasValue d field x → (q.matches d = true ↔ verb.Compares (l.placeOf x) l.place)

/-- Without a number, a range, or a query for the range there is nothing to find. -/
theorem not_rangeCompares {field : String} {verb : ComparisonVerb} {x : l.Value}
    (h : ∀ r, createRange java right (some verb.toVerb) = .ok (some r) →
      ∃ e, convertToLuceneNumericRangeQuery field r = .error e) :
    ¬ RangeCompares java field verb right l x := by
  rintro ⟨r, q, hr, hq, -⟩
  obtain ⟨e, he⟩ := h r hr
  rw [he] at hq
  cases hq

/-- The converter on a query that is one term. -/
theorem convert_ofTerm (maxClauseCount : ℕ) (o : Option Filter.Occurance) (t : QueryTerm)
    (context : Option QueryRuntimeContext) :
    convert maxClauseCount (.ofTerm o t) context =
      (convertTerm t).map fun q => (.leaf t q, addKind o t context) := by
  show convertToLuceneQuery maxClauseCount (.mk o (some t) none) context = _
  rw [convertToLuceneQuery]
  cases convertTerm t <;> rfl

theorem convertTerm_range (field : String) (set : Option MatchType) (r : NumericRange) :
    convertTerm ⟨some field, none, set, some r⟩ = convertToLuceneNumericRangeQuery field r := rfl

/-- It comes down to the range and the query for it. -/
theorem comparesExactly_iff {names : Option (List String)} {maxClauseCount : ℕ}
    {context : Option QueryRuntimeContext} {field : String} {verb : ComparisonVerb}
    (hany : verb ≠ .any) (hall : verb ≠ .all) (hfield : FieldName java field)
    (hspace : java.isLetter ' ' = false) (h : NumericLiteral java right l) (x : l.Value) :
    ComparesExactly java names maxClauseCount context field verb right l x ↔
      RangeCompares java field verb right l x := by
  unfold ComparesExactly RangeCompares
  rw [toQuery_filterOf hfield hspace verb (h.readsLiteral hspace), visitProperty_eq hany hall,
    comparisonTerm, if_pos h.numeric]
  cases hrange : createRange java right (some verb.toVerb) with
  | error e =>
      apply iff_of_false
      · rintro ⟨q, lq, context', hq, -⟩
        cases hq
      · rintro ⟨r, q, hr, -⟩
        cases hr
  | ok range =>
      cases range with
      | none =>
          apply iff_of_false
          · -- a term without a range has no value to match either
            rintro ⟨q, lq, context', hq, hconvert, -⟩
            cases hq
            rw [convert_ofTerm] at hconvert
            cases hconvert
          · rintro ⟨r, q, hr, -⟩
            cases hr
      | some r =>
          constructor
          · rintro ⟨q, lq, context', hq, hconvert, hmatch⟩
            cases hq
            rw [convert_ofTerm, convertTerm_range] at hconvert
            cases hleaf : convertToLuceneNumericRangeQuery field r with
            | error e =>
                rw [hleaf] at hconvert
                cases hconvert
            | ok leaf =>
                rw [hleaf] at hconvert
                cases hconvert
                exact ⟨r, leaf, rfl, hleaf, hmatch⟩
          · rintro ⟨r', leaf, hr, hleaf, hmatch⟩
            cases hr
            -- the leaf depends on the field and the range of the term only
            have hconvert : ∀ o set,
                convert maxClauseCount (.ofTerm o ⟨some field, none, set, some r⟩) context =
                  .ok (.leaf ⟨some field, none, set, some r⟩ leaf,
                    addKind o ⟨some field, none, set, some r⟩ context) := by
              intro o set
              rw [convert_ofTerm, convertTerm_range, hleaf]
              rfl
            exact ⟨_, _, _, rfl, hconvert _ _, hmatch⟩

/-! ## Longs -/

/-- The integral literals and the verbs for which the query is right. -/
def SupportedLong (verb : ComparisonVerb) (n : ℤ) : Prop :=
  Int64.minValue.toInt ≤ n ∧ n ≤ Int64.maxValue.toInt ∧
    (verb = .eq ∨ verb = .le ∨ verb = .ge ∨ (verb = .lt ∧ n ≠ Int64.minValue.toInt) ∨
      (verb = .gt ∧ n ≠ Int64.maxValue.toInt))

theorem relates_long {verb : ComparisonVerb} (h : verb = .eq ∨ verb = .le ∨ verb = .ge ∨
    verb = .lt ∨ verb = .gt) (x n : Int64) :
    verb.relates x n = true ↔ verb.Compares x.toInt n.toInt := by
  rcases h with rfl | rfl | rfl | rfl | rfl
  · show decide (x = n) = true ↔ x.toInt = n.toInt
    rw [decide_eq_true_eq, Int64.toInt_inj]
  · show decide (x ≤ n) = true ↔ x.toInt ≤ n.toInt
    rw [decide_eq_true_eq, Int64.le_iff_toInt_le]
  · show decide (n ≤ x) = true ↔ n.toInt ≤ x.toInt
    rw [decide_eq_true_eq, Int64.le_iff_toInt_le]
  · show decide (x < n) = true ↔ x.toInt < n.toInt
    rw [decide_eq_true_eq, Int64.lt_iff_toInt_lt]
  · show decide (n < x) = true ↔ n.toInt < x.toInt
    rw [decide_eq_true_eq, Int64.lt_iff_toInt_lt]

/-- An integral literal is a long, or there is no number for the range. -/
theorem parseNumber_integral {n : ℤ} (h : NumericLiteral java right (.integral n)) :
    (∃ m : Int64, m.toInt = n ∧ parseNumber java right = some (java.long m)) ∨
      (¬(Int64.minValue.toInt ≤ n ∧ n ≤ Int64.maxValue.toInt) ∧ parseNumber java right = none) := by
  obtain ⟨hpoint, hn⟩ := h.value
  have hparse : parseNumber java right =
      ((if Int64.minValue.toInt ≤ n ∧ n ≤ Int64.maxValue.toInt then some (Int64.ofInt n)
        else none).map java.long) := by
    rw [parseNumber, if_neg hpoint, parseLong, hn]
    rfl
  by_cases hlong : Int64.minValue.toInt ≤ n ∧ n ≤ Int64.maxValue.toInt
  · rw [if_pos hlong] at hparse
    refine Or.inl ⟨Int64.ofInt n, ?_, hparse⟩
    rw [Int64.toInt_minValue, Int64.toInt_maxValue] at hlong
    exact Int64.toInt_ofInt_of_le (by omega) (by omega)
  · rw [if_neg hlong] at hparse
    exact Or.inr ⟨hlong, hparse⟩

theorem convert_longRange_eq {min max : Number} (hmin : min.isDouble = false)
    (hmax : max.isDouble = false) (hle : min.longValue ≤ max.longValue) (a b : Bool)
    (field : String) :
    convertToLuceneNumericRangeQuery field (createRangeOf false min max a b) =
      createLongRangeQuery field (createRangeOf false min max a b) := by
  rw [convertToLuceneNumericRangeQuery, validate_longRange hmin hmax hle]
  rfl

/-- There is no long below the least one to end the range at. -/
theorem convert_lt_minValue (java : Java) (field : String) :
    convertToLuceneNumericRangeQuery field (createLessThanRange java (java.long Int64.minValue)) =
      .error .arithmetic := by
  have hrange : createLessThanRange java (java.long Int64.minValue) =
      createRangeOf false (java.long Int64.minValue) (java.long Int64.minValue) true false := rfl
  have hle : (java.long Int64.minValue).longValue ≤ (java.long Int64.minValue).longValue :=
    Int64.le_refl _
  rw [hrange, convert_longRange_eq rfl rfl hle]
  simp [createLongRangeQuery, createRangeOf, Java.long]
  rfl

theorem convert_gt_maxValue (java : Java) (field : String) :
    convertToLuceneNumericRangeQuery field
      (createGreaterThanRange java (java.long Int64.maxValue)) = .error .arithmetic := by
  have hrange : createGreaterThanRange java (java.long Int64.maxValue) =
      createRangeOf false (java.long Int64.maxValue) (java.long Int64.maxValue) false true := rfl
  have hle : (java.long Int64.maxValue).longValue ≤ (java.long Int64.maxValue).longValue :=
    Int64.le_refl _
  rw [hrange, convert_longRange_eq rfl rfl hle]
  simp [createLongRangeQuery, createRangeOf, Java.long]
  rfl

theorem rangeCompares_long_iff {n : ℤ} (h : NumericLiteral java right (.integral n))
    {verb : ComparisonVerb} (hany : verb ≠ .any) (hall : verb ≠ .all) (field : String)
    (x : Int64) :
    RangeCompares java field verb right (.integral n) x ↔ SupportedLong verb n := by
  rcases parseNumber_integral h with ⟨m, rfl, hparse⟩ | ⟨hlong, hparse⟩
  · have hbounds : Int64.minValue.toInt ≤ m.toInt ∧ m.toInt ≤ Int64.maxValue.toInt :=
      ⟨Int64.le_iff_toInt_le.mp (Int64.minValue_le m), Int64.le_iff_toInt_le.mp (Int64.le_maxValue m)⟩
    constructor
    · intro hrange
      refine ⟨hbounds.1, hbounds.2, ?_⟩
      by_contra hverb
      revert hrange
      apply not_rangeCompares
      intro r hr
      rw [createRange, hparse] at hr
      cases verb with
      | eq => exact absurd (Or.inl rfl) hverb
      | le => exact absurd (Or.inr (Or.inl rfl)) hverb
      | ge => exact absurd (Or.inr (Or.inr (Or.inl rfl))) hverb
      | any => exact absurd rfl hany
      | all => exact absurd rfl hall
      | ne => cases hr
      | lt =>
          cases hr
          -- nothing is less than the least long, and the conversion fails for it
          have hm : m = Int64.minValue := by
            by_contra hne
            exact hverb (Or.inr (Or.inr (Or.inr (Or.inl ⟨rfl, fun heq =>
              hne (Int64.toInt_inj.mp heq)⟩))))
          rw [hm]
          exact ⟨_, convert_lt_minValue java field⟩
      | gt =>
          cases hr
          have hm : m = Int64.maxValue := by
            by_contra hne
            exact hverb (Or.inr (Or.inr (Or.inr (Or.inr ⟨rfl, fun heq =>
              hne (Int64.toInt_inj.mp heq)⟩))))
          rw [hm]
          exact ⟨_, convert_gt_maxValue java field⟩
    · rintro ⟨-, -, hverb⟩
      have hverb' : verb = .eq ∨ verb = .le ∨ verb = .ge ∨
          (verb = .lt ∧ m ≠ Int64.minValue) ∨ (verb = .gt ∧ m ≠ Int64.maxValue) := by
        simpa only [ne_eq, Int64.toInt_inj] using hverb
      obtain ⟨r, q, hr, hq, hmatch⟩ := longRange_relates java (n := java.long m) rfl hverb' field
      refine ⟨r, q, hr right hparse, hq, ?_⟩
      intro d hd
      change d.longs field = [x] at hd
      rw [hmatch d, hd, List.any_cons, List.any_nil, Bool.or_false]
      exact relates_long (by tauto) x m
  · apply iff_of_false
    · apply not_rangeCompares
      intro r hr
      rw [createRange, hparse] at hr
      cases hr
    · intro hsupported
      exact hlong ⟨hsupported.1, hsupported.2.1⟩

/-! ## Doubles -/

/-- The decimal literals, verbs and values for which the query is right: the index tells the zeros
apart, and the range of a verb has an end of its own. -/
def SupportedDouble (verb : ComparisonVerb) (d x : Double) : Prop :=
  match verb with
  | .eq => d.rank = 0 → x.rank = 0 → x = d
  | .lt | .le => 0 < d.rank ∧ 0 < x.rank
  | .gt => d ≤ .maxValue ∧ x ≤ .maxValue
  | .ge => d ≤ .maxValue ∧ x ≤ .maxValue ∧ (d.rank = 0 → x.rank = 0 → d ≤ x)
  | .ne | .any | .all => False

theorem validate_doubleRange {min max : Number} (hmin : min.isDouble = true)
    (hmax : max.isDouble = true) (a b : Bool) :
    (createRangeOf true min max a b).validate =
      if max.doubleValue < min.doubleValue then
        .error (.illegalArgument "max must be greater than min")
      else .ok () := by
  have hcompare : max.compareTo min =
      .ok (compare max.doubleValue.ordinal min.doubleValue.ordinal) := by
    rw [Number.compareTo, hmin, hmax]
    rfl
  have hcompare' : min.compareTo max =
      .ok (compare min.doubleValue.ordinal max.doubleValue.ordinal) := by
    rw [Number.compareTo, hmin, hmax]
    rfl
  split_ifs with hlt
  · rw [Double.lt_def] at hlt
    rw [compare_lt_iff_lt.mpr hlt] at hcompare
    simp only [createRangeOf, NumericRange.validate, reduceCtorEq, and_self, if_false, hcompare]
    rfl
  · rw [Double.lt_def] at hlt
    apply validate_createRangeOf hcompare _ hcompare'
    · rw [ne_eq, compare_gt_iff_gt]
      exact hlt
    · rw [ne_eq, compare_lt_iff_lt]
      exact hlt

theorem doubleRange_matches {d : Document} {field : String} {x : Double}
    (h : d.doubles field = [x]) (min max : Double) :
    (LeafQuery.doubleRangeQuery field min max).matches d = true ↔ min ≤ x ∧ x ≤ max := by
  show (d.doubles field).any _ = true ↔ _
  rw [h, List.any_cons, List.any_nil, Bool.or_false, Bool.and_eq_true, decide_eq_true_eq,
    decide_eq_true_eq]

/-- The range of a comparison with a double. -/
theorem createRange_decimal {d : Double}
    (hparse : parseNumber java right = some (java.double d)) (verb : ComparisonVerb) :
    createRange java right (some verb.toVerb) = .ok (match verb with
      | .eq => some (createRangeOf true (java.double d) (java.double d) true true)
      | .lt => some (createRangeOf true (java.double .minValue) (java.double d) true false)
      | .le => some (createRangeOf true (java.double .minValue) (java.double d) true true)
      | .gt => some (createRangeOf true (java.double d) (java.double .maxValue) false true)
      | .ge => some (createRangeOf true (java.double d) (java.double .maxValue) true true)
      | .ne | .any | .all => none) := by
  rw [createRange, hparse]
  cases verb <;> rfl

/-- A range of doubles on one value. -/
theorem rangeCompares_doubleRange {d x : Double} {verb : ComparisonVerb} {field : String}
    {min max : Number} (hmin : min.isDouble = true) (hmax : max.isDouble = true) {a b : Bool}
    (hcreate : createRange java right (some verb.toVerb) =
      .ok (some (createRangeOf true min max a b))) :
    RangeCompares java field verb right (.decimal d) x ↔
      min.doubleValue ≤ max.doubleValue ∧
        ((if a then min.doubleValue else min.doubleValue.nextUp) ≤ x ∧
          x ≤ (if b then max.doubleValue else max.doubleValue.nextDown) ↔
            verb.Compares x.rank d.rank) := by
  have hconvert : convertToLuceneNumericRangeQuery field (createRangeOf true min max a b) =
      (if max.doubleValue < min.doubleValue then
        .error (.illegalArgument "max must be greater than min")
      else .ok (createDoubleRangeQuery field (createRangeOf true min max a b))) := by
    rw [convertToLuceneNumericRangeQuery, validate_doubleRange hmin hmax]
    split_ifs <;> rfl
  constructor
  · rintro ⟨r, q, hr, hq, hmatch⟩
    rw [hcreate] at hr
    cases hr
    rw [hconvert] at hq
    by_cases hlt : max.doubleValue < min.doubleValue
    · rw [if_pos hlt] at hq
      cases hq
    · rw [if_neg hlt] at hq
      cases hq
      have hone : (Document.mk (fun _ => []) (fun _ => []) fun _ => [x]).doubles field = [x] := rfl
      exact ⟨Int.not_lt.mp hlt, (doubleRange_matches hone _ _).symm.trans (hmatch _ hone)⟩
  · rintro ⟨hle, hcompares⟩
    have hge : ¬ max.doubleValue < min.doubleValue := Int.not_lt.mpr hle
    rw [if_neg hge] at hconvert
    refine ⟨_, _, hcreate, hconvert, ?_⟩
    intro d' hd'
    exact (doubleRange_matches hd' _ _).trans hcompares

section

variable {d x : Double}

/-- The order of the doubles is that of their values, the zeros apart. -/
theorem le_iff_rank_le (h : d.rank = 0 → x.rank = 0 → d ≤ x) : d ≤ x ↔ d.rank ≤ x.rank := by
  have hd := d.rank_spec
  have hx := x.rank_spec
  rw [Double.le_def] at h ⊢
  omega

/-- For two zeros it is their order. -/
theorem le_iff_rank_le_iff : (d ≤ x ↔ d.rank ≤ x.rank) ↔ (d.rank = 0 → x.rank = 0 → d ≤ x) := by
  constructor
  · intro h hd hx
    rw [h, hd, hx]
  · exact le_iff_rank_le

theorem rank_lt_of_not_le (h : d ≤ .maxValue) (hx : ¬ x ≤ .maxValue) : d.rank < x.rank := by
  have hd := d.rank_spec
  have hx' := x.rank_spec
  have hmax : d.ordinal ≤ 0x7fefffffffffffff := h
  have hgt : ¬ x.ordinal ≤ 0x7fefffffffffffff := hx
  omega

theorem nextUp_le_iff (h : d ≤ .maxValue) : d.nextUp ≤ x ↔ d.rank < x.rank := by
  have hd := d.rank_spec
  have hx := x.rank_spec
  have hmax : d.ordinal ≤ 0x7fefffffffffffff := h
  have hfinite : d.rank < Double.positiveInfinity.rank := by
    show d.rank < 0x7ff0000000000000
    omega
  rw [Double.nextUp, if_pos hfinite, Double.le_def]
  split_ifs with hzero
  · show 1 ≤ x.ordinal ↔ _
    omega
  · show d.ordinal + 1 ≤ x.ordinal ↔ _
    omega

theorem le_nextDown_iff (h : 0 < d.rank) : x ≤ d.nextDown ↔ x.rank < d.rank := by
  have hd := d.rank_spec
  have hx := x.rank_spec
  have hfinite : Double.negativeInfinity.rank < d.rank := Int.lt_trans (by decide) h
  rw [Double.nextDown, if_pos hfinite, if_neg (by omega), Double.le_def]
  show x.ordinal ≤ d.ordinal - 1 ↔ _
  omega

theorem minValue_le_iff : Double.minValue ≤ d ↔ 0 < d.rank := by
  have hd := d.rank_spec
  show 1 ≤ d.ordinal ↔ _
  omega

end

theorem rangeCompares_double_iff {d : Double} (h : NumericLiteral java right (.decimal d))
    {verb : ComparisonVerb} (hany : verb ≠ .any) (hall : verb ≠ .all) (field : String)
    (x : Double) :
    RangeCompares java field verb right (.decimal d) x ↔ SupportedDouble verb d x := by
  obtain ⟨hpoint, hd⟩ := h.value
  have hparse : parseNumber java right = some (java.double d) := by
    rw [parseNumber, if_pos hpoint, hd]
    rfl
  have hcreate := createRange_decimal hparse
  cases verb with
  | any => exact absurd rfl hany
  | all => exact absurd rfl hall
  | ne =>
      apply iff_of_false _ id
      apply not_rangeCompares
      intro r hr
      rw [hcreate] at hr
      cases hr
  | eq =>
      rw [rangeCompares_doubleRange rfl rfl (hcreate .eq)]
      show d ≤ d ∧ (d ≤ x ∧ x ≤ d ↔ x.rank = d.rank) ↔ (d.rank = 0 → x.rank = 0 → x = d)
      -- the two zeros have one rank and are still different bounds of a Lucene range
      have hd := d.rank_spec
      have hx := x.rank_spec
      rw [← Double.ordinal_inj, Double.le_def, Double.le_def, Double.le_def]
      omega
  | lt =>
      rw [rangeCompares_doubleRange rfl rfl (hcreate .lt)]
      show Double.minValue ≤ d ∧ (Double.minValue ≤ x ∧ x ≤ d.nextDown ↔ x.rank < d.rank) ↔
        0 < d.rank ∧ 0 < x.rank
      -- `Double.MIN_VALUE` is the least positive number, so these ranges leave out zero and below
      rw [minValue_le_iff, minValue_le_iff]
      apply and_congr_right
      intro hpos
      rw [le_nextDown_iff hpos]
      omega
  | le =>
      rw [rangeCompares_doubleRange rfl rfl (hcreate .le)]
      show Double.minValue ≤ d ∧ (Double.minValue ≤ x ∧ x ≤ d ↔ x.rank ≤ d.rank) ↔
        0 < d.rank ∧ 0 < x.rank
      rw [minValue_le_iff, minValue_le_iff]
      apply and_congr_right
      intro hpos
      rw [le_iff_rank_le (by omega)]
      omega
  | gt =>
      rw [rangeCompares_doubleRange rfl rfl (hcreate .gt)]
      show d ≤ .maxValue ∧ (d.nextUp ≤ x ∧ x ≤ .maxValue ↔ d.rank < x.rank) ↔
        d ≤ .maxValue ∧ x ≤ .maxValue
      apply and_congr_right
      intro hmax
      rw [nextUp_le_iff hmax]
      have hlt : ¬ x ≤ .maxValue → d.rank < x.rank := rank_lt_of_not_le hmax
      tauto
  | ge =>
      rw [rangeCompares_doubleRange rfl rfl (hcreate .ge)]
      show d ≤ .maxValue ∧ (d ≤ x ∧ x ≤ .maxValue ↔ d.rank ≤ x.rank) ↔
        d ≤ .maxValue ∧ x ≤ .maxValue ∧ (d.rank = 0 → x.rank = 0 → d ≤ x)
      apply and_congr_right
      intro hmax
      have hlt : ¬ x ≤ .maxValue → d.rank < x.rank := rank_lt_of_not_le hmax
      by_cases hx : x ≤ .maxValue
      · rw [and_iff_left hx, and_iff_right hx, le_iff_rank_le_iff]
      · exact iff_of_false (fun h => hx (h.mpr (Int.le_of_lt (hlt hx))).2) fun h => hx h.1

/-! ## All comparisons -/

/-- The literals, verbs and values for which the query is right. -/
def Literal.Supported (verb : ComparisonVerb) : (l : Literal) → l.Value → Prop
  | .integral n, _ => SupportedLong verb n
  | .decimal d, x => SupportedDouble verb d x

/-- **The comparisons of a field with a number.** -/
theorem compares_exactly_iff {names : Option (List String)} {field : String}
    {verb : ComparisonVerb} (hspace : java.isLetter ' ' = false) (hfield : FieldName java field)
    (h : NumericLiteral java right l) (hany : verb ≠ .any) (hall : verb ≠ .all)
    (maxClauseCount : ℕ) (context : Option QueryRuntimeContext) (x : l.Value) :
    ComparesExactly java names maxClauseCount context field verb right l x ↔
      l.Supported verb x := by
  rw [comparesExactly_iff hany hall hfield hspace h]
  cases l with
  | integral n => exact rangeCompares_long_iff h hany hall field x
  | decimal d => exact rangeCompares_double_iff h hany hall field x

/-- Java's library, as far as the literals `5` and `-1.5` need it. -/
def Java.numbers : Java where
  isLetter := Char.isAlpha
  parseDouble s :=
    if s = "5" then some ⟨0x4014000000000000⟩
    else if s = "-1.5" then some ⟨-1 - 0x3ff8000000000000⟩
    else none
  toDouble _ := ⟨0⟩
  toLong _ := 0

theorem numericLiteral_five : NumericLiteral .numbers "5" (.integral 5) := by
  refine ⟨?_, rfl, by decide, rfl⟩
  have hchars : "5".toList = ['5'] := rfl
  rw [hchars, List.forall_mem_singleton]
  decide

theorem numericLiteral_negative :
    NumericLiteral .numbers "-1.5" (.decimal ⟨-1 - 0x3ff8000000000000⟩) := by
  refine ⟨?_, rfl, by decide, rfl⟩
  have hchars : "-1.5".toList = ['-', '1', '.', '5'] := rfl
  intro c hc
  rw [hchars] at hc
  simp only [List.mem_cons, List.not_mem_nil, or_false] at hc
  rcases hc with rfl | rfl | rfl | rfl <;> decide

theorem compares_exactly_iff_five :
    ComparesExactly .numbers none 1024 none "a" .lt "5" (.integral 5) (3 : Int64) ↔
      Literal.Supported .lt (.integral 5) (3 : Int64) :=
  compares_exactly_iff rfl (fieldName_a rfl) numericLiteral_five (by decide) (by decide) 1024 none
    (3 : Int64)

/-- -2 is less than -1.5, but there is no range from the least positive double to -1.5. -/
theorem negative_not_compared :
    ¬ ComparesExactly .numbers none 1024 none "a" .lt "-1.5"
      (.decimal ⟨-1 - 0x3ff8000000000000⟩) (⟨-1 - 0x4000000000000000⟩ : Double) := by
  intro h
  have hrange := (comparesExactly_iff (by decide) (by decide) (fieldName_a rfl) rfl
    numericLiteral_negative _).mp h
  have hpos := ((rangeCompares_double_iff numericLiteral_negative (by decide) (by decide) _ _).mp
    hrange).1
  revert hpos
  decide

end Xenon.OData
