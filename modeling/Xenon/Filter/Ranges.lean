import Xenon.Foundation.FloatingPoint
import Xenon.Foundation.Long
import Xenon.Filter.Evaluator
import Xenon.Lucene.Converter

/-!
# Ranges of longs in the filter and in the index

The filter compares doubles, each inclusive bound for itself, and reads both bounds. The index looks
for a closed interval of longs: a bound that is not inclusive moves by one, and a missing one is the
least or the greatest long.
-/

namespace Xenon.Filter

open Xenon.QueryTask Xenon.Foundation
open Xenon.Lucene (LeafQuery createLongRangeQuery)

/-! ## Longs that are doubles -/

/-- The value of a double, in units of `Double.MIN_VALUE`. -/
def units (d : Double) : ℤ := FloatingPoint.value (2 ^ 52) d.rank

/-- The long is exactly representable as a double. -/
def Exact (n : Number) : Prop := units n.doubleValue = n.longValue.toInt * 2 ^ 1074

theorem units_lt_iff {a b : Double} : units a < units b ↔ a.rank < b.rank :=
  (FloatingPoint.value_strictMono (Nat.two_pow_pos 52)).lt_iff_lt

theorem units_inj {a b : Double} : units a = units b ↔ a.rank = b.rank :=
  (FloatingPoint.value_strictMono (Nat.two_pow_pos 52)).injective.eq_iff

section

variable {a b : Number}

theorem Exact.lt_iff (ha : Exact a) (hb : Exact b) :
    a.doubleValue.rank < b.doubleValue.rank ↔ a.longValue < b.longValue := by
  rw [← units_lt_iff, ha, hb, Int64.lt_iff_toInt_lt]
  exact Int.mul_lt_mul_right (by positivity)

theorem Exact.eq_iff (ha : Exact a) (hb : Exact b) :
    a.doubleValue.rank = b.doubleValue.rank ↔ a.longValue = b.longValue := by
  constructor
  · intro h
    rw [Exact, units_inj.mpr h, hb] at ha
    exact (Int64.toInt_inj.mp (Int.eq_of_mul_eq_mul_right (by positivity) ha)).symm
  · intro h
    rw [← units_inj, ha, hb, h]

/-- The doubles around the greatest long are next to each other: 2 ^ 63 and the one below it. -/
theorem Exact.ne_maxValue (ha : Exact a) : a.longValue ≠ Int64.maxValue := by
  intro h
  rw [Exact, h, Int64.toInt_maxValue] at ha
  have hunit : (0 : ℤ) < 2 ^ 1074 := by positivity
  have hbelow : units ⟨(1085 * 2 ^ 52 + (2 ^ 52 - 1) : ℕ)⟩ < units a.doubleValue := by
    rw [ha, units, Double.rank_natCast, FloatingPoint.value_normal (e := 1084) (by decide), pow_add 2 10 1074]
    generalize (2 : ℤ) ^ 1074 = u at hunit ⊢
    omega
  have habove : units a.doubleValue < units ⟨(1086 * 2 ^ 52 + 0 : ℕ)⟩ := by
    rw [ha, units, Double.rank_natCast, FloatingPoint.value_normal (e := 1085) (by decide), pow_add 2 11 1074]
    generalize (2 : ℤ) ^ 1074 = u at hunit ⊢
    omega
  rw [units_lt_iff, Double.rank_natCast] at hbelow habove
  omega

end

/-! ## The two sides -/

section

variable {r : NumericRange} {lo hi v : Number}

/-- What the index looks for, if no bound leaves the longs. -/
theorem createLongRangeQuery_eq (hmin : r.min = some lo) (hmax : r.max = some hi)
    (name : String) :
    createLongRangeQuery name r =
      if r.isMinInclusive = false ∧ lo.longValue = Int64.maxValue then .error .arithmetic
      else if r.isMaxInclusive = false ∧ hi.longValue = Int64.minValue then .error .arithmetic
      else .ok (.longRangeQuery name
        (if r.isMinInclusive then lo.longValue else lo.longValue + 1)
        (if r.isMaxInclusive then hi.longValue else hi.longValue - 1)) := by
  unfold createLongRangeQuery
  rw [hmin, hmax]
  cases r.isMinInclusive with
  | false =>
      cases r.isMaxInclusive with
      | false =>
          by_cases hlo : lo.longValue = Int64.maxValue
          · simp [hlo]
            rfl
          · by_cases hhi : hi.longValue = Int64.minValue
            · simp [hlo, hhi]
              rfl
            · simp [hlo, hhi]
              rfl
      | true =>
          by_cases hlo : lo.longValue = Int64.maxValue
          · simp [hlo]
            rfl
          · simp [hlo]
            rfl
  | true =>
      cases r.isMaxInclusive with
      | false =>
          by_cases hhi : hi.longValue = Int64.minValue
          · simp [hhi]
            rfl
          · simp [hhi]
            rfl
      | true => rfl

theorem evaluateNumber_eq (hmin : r.min = some lo) (hmax : r.max = some hi) {t : QueryTerm}
    (ht : t.range = some r) (v : Number) :
    evaluateNumber t v = .ok ((r.isMaxInclusive && v.doubleValue.rank = hi.doubleValue.rank) ||
      (r.isMinInclusive && v.doubleValue.rank = lo.doubleValue.rank) ||
      (lo.doubleValue.rank < v.doubleValue.rank && v.doubleValue.rank < hi.doubleValue.rank)) := by
  unfold evaluateNumber
  rw [ht]
  simp only [hmin, hmax]

/-- What `validate` checks of two bounds. -/
theorem not_lt_of_validate (hvalid : r.validate = .ok ()) (hmin : r.min = some lo)
    (hmax : r.max = some hi) : hi.compareTo lo ≠ .ok .lt := by
  intro h
  unfold NumericRange.validate at hvalid
  simp only [hmin, hmax, h] at hvalid
  cases hvalid

theorem isDouble_eq_of_validate (hvalid : r.validate = .ok ()) (hmin : r.min = some lo)
    (hmax : r.max = some hi) : hi.isDouble = lo.isDouble := by
  by_contra h
  unfold NumericRange.validate at hvalid
  simp only [hmin, hmax, Number.compareTo, if_neg h] at hvalid
  cases hvalid

theorem le_of_validate (hvalid : r.validate = .ok ()) (hmin : r.min = some lo)
    (hmax : r.max = some hi) (hlo : Exact lo) (hhi : Exact hi) :
    lo.longValue.toInt ≤ hi.longValue.toInt := by
  have hsame := isDouble_eq_of_validate hvalid hmin hmax
  have hne := not_lt_of_validate hvalid hmin hmax
  rw [Number.compareTo, if_pos hsame] at hne
  by_contra h
  rw [not_le] at h
  apply hne
  split_ifs
  · have hlt : hi.doubleValue < lo.doubleValue :=
      Double.lt_of_rank_lt ((hhi.lt_iff hlo).mpr (Int64.lt_iff_toInt_lt.mpr h))
    rw [compare_lt_iff_lt.mpr hlt]
  · rw [compare_lt_iff_lt.mpr h]

/-- The filter on longs. -/
theorem accepts_iff (hlo : Exact lo) (hhi : Exact hi) (hv : Exact v) (atMin atMax : Bool) :
    ((atMax && decide (v.doubleValue.rank = hi.doubleValue.rank)) ||
      (atMin && decide (v.doubleValue.rank = lo.doubleValue.rank)) ||
      (decide (lo.doubleValue.rank < v.doubleValue.rank) && decide (v.doubleValue.rank < hi.doubleValue.rank))) = true ↔
      (atMax = true ∧ v.longValue.toInt = hi.longValue.toInt) ∨
        (atMin = true ∧ v.longValue.toInt = lo.longValue.toInt) ∨
        (lo.longValue.toInt < v.longValue.toInt ∧ v.longValue.toInt < hi.longValue.toInt) := by
  simp only [Bool.or_eq_true, Bool.and_eq_true, decide_eq_true_eq, hv.eq_iff hhi, hv.eq_iff hlo,
    hlo.lt_iff hv, hv.lt_iff hhi, Int64.lt_iff_toInt_lt, Int64.toInt_inj, or_assoc]

/-- The interval of the index on longs. -/
theorem contained_iff {lo hi : Int64} (atMin atMax : Bool)
    (hlo : ¬(atMin = false ∧ lo = Int64.maxValue)) (hhi : ¬(atMax = false ∧ hi = Int64.minValue))
    (v : Int64) :
    ((if atMin then lo else lo + 1) ≤ v ∧ v ≤ if atMax then hi else hi - 1) ↔
      (lo.toInt < v.toInt ∨ atMin = true ∧ v.toInt = lo.toInt) ∧
        (v.toInt < hi.toInt ∨ atMax = true ∧ v.toInt = hi.toInt) := by
  apply and_congr
  · cases atMin with
    | false =>
        have hne : lo ≠ Int64.maxValue := fun heq => hlo ⟨rfl, heq⟩
        show lo + 1 ≤ v ↔ _
        rw [Long.add_one_le_iff hne, Int64.lt_iff_toInt_lt]
        simp
    | true =>
        show lo ≤ v ↔ _
        rw [Int64.le_iff_toInt_le, eq_self, true_and]
        omega
  · cases atMax with
    | false =>
        have hne : hi ≠ Int64.minValue := fun heq => hhi ⟨rfl, heq⟩
        show v ≤ hi - 1 ↔ _
        rw [Long.le_sub_one_iff hne, Int64.lt_iff_toInt_lt]
        simp
    | true =>
        show v ≤ hi ↔ _
        rw [Int64.le_iff_toInt_le, eq_self, true_and]
        omega

end

/-! ## Where they agree -/

/-- A range of longs as it is accepted, and a long, all of them doubles. -/
structure LongRange (r : NumericRange) (v : Number) : Prop where
  type : r.type = some .long
  valid : r.validate = .ok ()
  min : ∀ n ∈ r.min, Exact n
  max : ∀ n ∈ r.max, Exact n
  value : Exact v

/-- None of the two fails, and the filter accepts what the interval of the index contains. -/
def SameMeaning (propertyName : String) (r : NumericRange) (v : Number) : Prop :=
  ∃ b min max,
    evaluateNumber ⟨some propertyName, none, none, some r⟩ v = .ok b ∧
    createLongRangeQuery propertyName r = .ok (.longRangeQuery propertyName min max) ∧
    (b = true ↔ min ≤ v.longValue ∧ v.longValue ≤ max)

/-- Both bounds are there; and where they are the same, either both are inclusive, or the value is
not the bound or both are exclusive, and the upper bound can move down. -/
def Agreeing (r : NumericRange) (v : Int64) : Prop :=
  ∃ lo ∈ r.min, ∃ hi ∈ r.max,
    lo.longValue ≠ hi.longValue ∨
    (r.isMinInclusive = true ∧ r.isMaxInclusive = true) ∨
    ((v ≠ lo.longValue ∨ (r.isMinInclusive = false ∧ r.isMaxInclusive = false)) ∧
      (r.isMaxInclusive = true ∨ hi.longValue ≠ Int64.minValue))

theorem not_same_meaning_of_missing {r : NumericRange} (h : r.min = none ∨ r.max = none)
    (propertyName : String) (v : Number) : ¬ SameMeaning propertyName r v := by
  rintro ⟨b, min, max, hfilter, -, -⟩
  unfold evaluateNumber at hfilter
  rcases h with hmin | hmax
  · simp only [hmin] at hfilter
    cases hmax : r.max <;> rw [hmax] at hfilter <;> cases hfilter
  · simp only [hmax] at hfilter
    cases hfilter

/-- On integers the two differ only where the bounds are the same and one of them is inclusive. -/
theorem sides_agree_iff {lo hi : ℤ} (hle : lo ≤ hi) (v : ℤ) (atMin atMax : Bool) :
    (((atMax = true ∧ v = hi) ∨ (atMin = true ∧ v = lo) ∨ (lo < v ∧ v < hi)) ↔
      (lo < v ∨ atMin = true ∧ v = lo) ∧ (v < hi ∨ atMax = true ∧ v = hi)) ↔
    lo ≠ hi ∨ (atMin = true ∧ atMax = true) ∨ v ≠ lo ∨ (atMin = false ∧ atMax = false) := by
  cases atMin <;> cases atMax <;>
    simp only [Bool.false_eq_true, reduceCtorEq, false_and, true_and, and_self, or_false, false_or,
      and_false, or_true, true_or, iff_true] <;>
    omega

/-- Only two bounds that are the same can be the least long. -/
theorem agreeing_iff {r : NumericRange} {lo hi : Number} (hmin : r.min = some lo)
    (hmax : r.max = some hi) (hle : lo.longValue.toInt ≤ hi.longValue.toInt) (v : Int64) :
    Agreeing r v ↔
      ¬(r.isMaxInclusive = false ∧ hi.longValue = Int64.minValue) ∧
        (lo.longValue.toInt ≠ hi.longValue.toInt ∨
          (r.isMinInclusive = true ∧ r.isMaxInclusive = true) ∨
          v.toInt ≠ lo.longValue.toInt ∨
          (r.isMinInclusive = false ∧ r.isMaxInclusive = false)) := by
  have hleast : lo.longValue ≠ hi.longValue → hi.longValue ≠ Int64.minValue := by
    intro hne heq
    have hlo := Int64.le_toInt lo.longValue
    rw [heq, Int64.toInt_minValue] at hle
    apply hne
    rw [heq, ← Int64.toInt_inj, Int64.toInt_minValue]
    omega
  unfold Agreeing
  simp only [hmin, hmax, Option.mem_def, Option.some.injEq, exists_eq_left', ne_eq,
    Int64.toInt_inj]
  cases r.isMinInclusive <;> cases r.isMaxInclusive <;> simp only [] <;> tauto

theorem same_meaning_iff {r : NumericRange} {v : Number} (h : LongRange r v)
    (propertyName : String) :
    SameMeaning propertyName r v ↔ Agreeing r v.longValue := by
  cases hmin : r.min with
  | none =>
      apply iff_of_false (not_same_meaning_of_missing (Or.inl hmin) _ _)
      rintro ⟨lo, hlo, -⟩
      rw [hmin] at hlo
      cases hlo
  | some lo =>
      cases hmax : r.max with
      | none =>
          apply iff_of_false (not_same_meaning_of_missing (Or.inr hmax) _ _)
          rintro ⟨-, -, hi, hhi, -⟩
          rw [hmax] at hhi
          cases hhi
      | some hi =>
          have hlo := h.min lo hmin
          have hhi := h.max hi hmax
          have hle := le_of_validate h.valid hmin hmax hlo hhi
          have hlomax : ¬(r.isMinInclusive = false ∧ lo.longValue = Int64.maxValue) :=
            fun hand => hlo.ne_maxValue hand.2
          rw [agreeing_iff hmin hmax hle, ← sides_agree_iff hle]
          unfold SameMeaning
          rw [evaluateNumber_eq hmin hmax rfl, createLongRangeQuery_eq hmin hmax, if_neg hlomax]
          constructor
          · rintro ⟨b, min, max, hfilter, hindex, hsame⟩
            by_cases hhimin : r.isMaxInclusive = false ∧ hi.longValue = Int64.minValue
            · rw [if_pos hhimin] at hindex
              cases hindex
            rw [if_neg hhimin] at hindex
            cases hfilter
            cases hindex
            rw [accepts_iff hlo hhi h.value, contained_iff _ _ hlomax hhimin] at hsame
            exact ⟨hhimin, hsame⟩
          · rintro ⟨hhimin, hsame⟩
            rw [if_neg hhimin]
            refine ⟨_, _, _, rfl, rfl, ?_⟩
            rw [accepts_iff hlo hhi h.value, contained_iff _ _ hlomax hhimin]
            exact hsame

/-- The longs from 0 to 1, each of them a double. -/
def zeroToOne (atMin atMax : Bool) : NumericRange :=
  ⟨some .long, some ⟨false, 0, ⟨0⟩⟩, some ⟨false, 1, ⟨0x3ff0000000000000⟩⟩, atMin, atMax⟩

theorem exact_zero : Exact ⟨false, 0, ⟨0⟩⟩ := by
  rw [Exact, Int64.toInt_zero, Int.zero_mul]
  decide

theorem exact_one : Exact ⟨false, 1, ⟨0x3ff0000000000000⟩⟩ := by
  have hordinal : (0x3ff0000000000000 : ℤ) = ((1022 + 1) * 2 ^ 52 + 0 : ℕ) := by norm_num
  rw [Exact, units, hordinal, Double.rank_natCast, FloatingPoint.value_normal (by decide), pow_add 2 52 1022,
    Int64.toInt_one, Int.one_mul]
  generalize (2 : ℤ) ^ 1022 = u
  rfl

theorem same_meaning_iff_zero :
    SameMeaning "count" (zeroToOne true false) ⟨false, 0, ⟨0⟩⟩ ↔
      Agreeing (zeroToOne true false) 0 := by
  apply same_meaning_iff
  refine ⟨rfl, by decide, ?_, ?_, exact_zero⟩
  · rintro _ ⟨⟩
    exact exact_zero
  · rintro _ ⟨⟩
    exact exact_one

def atLeastZero : NumericRange := ⟨some .long, some ⟨false, 0, ⟨0⟩⟩, none, true, true⟩

/-- Without an upper bound the index accepts the range, and the filter throws. -/
theorem half_open_not_same_meaning :
    LongRange atLeastZero ⟨false, 0, ⟨0⟩⟩ ∧
      createLongRangeQuery "count" atLeastZero = .ok (.longRangeQuery "count" 0 Int64.maxValue) ∧
      ¬ SameMeaning "count" atLeastZero ⟨false, 0, ⟨0⟩⟩ := by
  refine ⟨⟨rfl, by decide, ?_, nofun, exact_zero⟩, rfl,
    not_same_meaning_of_missing (Or.inr rfl) _ _⟩
  rintro _ ⟨⟩
  exact exact_zero

end Xenon.Filter
