import Mathlib.Algebra.BigOperators.Group.List.Basic
import Mathlib.Algebra.Order.Field.Basic
import Mathlib.Algebra.Order.Ring.Rat
import Mathlib.Tactic.FieldSimp
import Mathlib.Tactic.LinearCombination
import Mathlib.Tactic.Ring
import Xenon.Foundation.Rotation

/-!
# Time series

`ServiceStats.TimeSeriesStats` keeps the data points of some last time bins, aggregated. A value is
a number of an ordered field. The id of a bin is a time in milliseconds, and a data point comes with
a time in microseconds.
-/

namespace Xenon.Common.ServiceStats

open Xenon.Foundation

/-- `AggregationType`. -/
inductive AggregationType where
  | AVG | MIN | MAX | SUM | LATEST
  deriving DecidableEq

/-- `TimeBin`. -/
structure TimeBin (K : Type*) where
  avg : Option K
  var : Option K
  min : Option K
  max : Option K
  sum : Option K
  latest : Option K
  count : K

/-- What a `TimeSeriesStats` is made with. Without bins, or with bins that take no time, `add`
throws. -/
structure Series where
  numBins : Nat
  binDurationMillis : Int
  aggregationType : Finset AggregationType
  numBins_pos : 0 < numBins
  binDurationMillis_pos : 0 < binDurationMillis

/-- The arguments of `add`. -/
structure Point (K : Type*) where
  timestampMicros : Int
  value : K
  delta : K

/-- `normalizeTimestamp`. -/
def normalizeTimestamp (timestampMicros binDurationMillis : Int) : Int :=
  let timeMillis := timestampMicros.tdiv 1000
  timeMillis - timeMillis.tmod binDurationMillis

section Model

variable {K : Type*} [Field K]

/-- `new TimeBin()`. -/
def TimeBin.new : TimeBin K := ⟨none, none, none, none, none, none, 0⟩

/-- The online average and variance, by Welford's algorithm. -/
def TimeBin.addAvg (dataBin : TimeBin K) (value : K) : TimeBin K :=
  match dataBin.avg with
  | none => { dataBin with avg := some value, var := some 0, count := 1 }
  | some avg =>
      let count := dataBin.count + 1
      let diff := value - avg
      let avg := avg + diff / count
      let diffAfter := value - avg
      { dataBin with
        count := count
        avg := some avg
        var := dataBin.var.map fun var => var + diff * diffAfter }

def TimeBin.addSum (dataBin : TimeBin K) (delta : K) : TimeBin K :=
  { dataBin with sum := some (match dataBin.sum with
      | none => delta
      | some sum => sum + delta) }

variable [LinearOrder K]

def TimeBin.addMax (dataBin : TimeBin K) (value : K) : TimeBin K :=
  { dataBin with max := some (match dataBin.max with
      | none => value
      | some max => if max < value then value else max) }

def TimeBin.addMin (dataBin : TimeBin K) (value : K) : TimeBin K :=
  { dataBin with min := some (match dataBin.min with
      | none => value
      | some min => if min > value then value else min) }

/-- What `add` does with the bin of a point. -/
def TimeBin.add (aggregationType : Finset AggregationType) (dataBin : TimeBin K) (value delta : K) :
    TimeBin K :=
  let dataBin := if .AVG ∈ aggregationType then dataBin.addAvg value else dataBin
  let dataBin := if .SUM ∈ aggregationType then dataBin.addSum delta else dataBin
  let dataBin := if .MAX ∈ aggregationType then dataBin.addMax value else dataBin
  let dataBin := if .MIN ∈ aggregationType then dataBin.addMin value else dataBin
  if .LATEST ∈ aggregationType then { dataBin with latest := some value } else dataBin

/-- The bins of a series. -/
abbrev Bins (K : Type*) := SortedMap Int (TimeBin K)

/-- `binId` of a point. -/
def Series.binId (series : Series) (p : Point K) : Int :=
  normalizeTimestamp p.timestampMicros series.binDurationMillis

/-- `add`. -/
def Series.add (series : Series) (bins : Bins K) (p : Point K) : Bins K :=
  let binId := series.binId p
  let put (bins : Bins K) (dataBin : TimeBin K) : Bins K :=
    bins.insert binId (dataBin.add series.aggregationType p.value p.delta)
  match bins.get binId with
  | some dataBin => put bins dataBin
  | none =>
      if bins.entries.length = series.numBins then
        match bins.firstEntry with
        | none => bins
        | some (firstKey, _) =>
            if firstKey > p.timestampMicros then bins
            else put (bins.remove firstKey) TimeBin.new
      else put bins TimeBin.new

/-- The bins after some calls. -/
def Series.run (series : Series) (ps : List (Point K)) : Bins K :=
  ps.foldl series.add SortedMap.empty

/-! ## What a series is for -/

/-- The bins there are points for. -/
def Series.ids (series : Series) (kept : List (Point K)) : Finset Int :=
  (kept.map series.binId).toFinset

/-- The series is full, and all its bins are for later points. -/
def Series.Late (series : Series) (kept : List (Point K)) (p : Point K) : Prop :=
  (highestKeys series.numBins (series.ids kept)).card = series.numBins ∧
    ∀ k ∈ highestKeys series.numBins (series.ids kept), series.binId p < k

instance (series : Series) (kept : List (Point K)) (p : Point K) :
    Decidable (series.Late kept p) := inferInstanceAs (Decidable (_ ∧ _))

/-- A point that is late is ignored. -/
def Series.keep (series : Series) (kept : List (Point K)) (p : Point K) : List (Point K) :=
  if series.Late kept p then kept else kept ++ [p]

/-- The points that are not ignored. -/
def Series.kept (series : Series) (ps : List (Point K)) : List (Point K) := ps.foldl series.keep []

/-- The mean of some values. -/
def mean (values : List K) : K := values.sum / values.length

/-- The sum of the squared deviations from the mean. -/
def deviations (values : List K) : K := (values.map fun v => (v - mean values) ^ 2).sum

/-- A bin is the aggregate of some points. -/
structure Aggregates (types : Finset AggregationType) (points : List (Point K)) (bin : TimeBin K) :
    Prop where
  avg : bin.avg = if .AVG ∈ types then some (mean (points.map Point.value)) else none
  var : bin.var = if .AVG ∈ types then some (deviations (points.map Point.value)) else none
  count : .AVG ∈ types → bin.count = points.length
  sum : bin.sum = if .SUM ∈ types then some (points.map Point.delta).sum else none
  max : if .MAX ∈ types then
    ∃ p ∈ points, bin.max = some p.value ∧ ∀ q ∈ points, q.value ≤ p.value else bin.max = none
  min : if .MIN ∈ types then
    ∃ p ∈ points, bin.min = some p.value ∧ ∀ q ∈ points, p.value ≤ q.value else bin.min = none
  latest : bin.latest = if .LATEST ∈ types then points.getLast?.map Point.value else none

/-- The bins are those of the highest ids, and have the points that were not ignored. -/
structure Series.Window (series : Series) (kept : List (Point K)) (bins : Bins K) : Prop where
  keys : bins.keys = highestKeys series.numBins (series.ids kept)
  bin : ∀ e ∈ bins.entries,
    Aggregates series.aggregationType (kept.filter (series.binId · = e.1)) e.2

/-- What is expected of a call of `add`. -/
structure Series.Correct (series : Series) (ps : List (Point K)) (p : Point K) : Prop where
  length_le : (series.run (ps ++ [p])).entries.length ≤ series.numBins
  ignored : (series.run ps).entries.length = series.numBins →
    (∀ k ∈ (series.run ps).keys, series.binId p < k) → series.run (ps ++ [p]) = series.run ps
  dropped : (series.run ps).entries.length = series.numBins →
    series.binId p ∉ (series.run ps).keys →
    ∀ oldest ∈ (series.run ps).firstEntry, oldest.1 < series.binId p →
      (series.run (ps ++ [p])).keys =
        insert (series.binId p) ((series.run ps).keys.erase oldest.1)
  window : series.Window (series.kept (ps ++ [p])) (series.run (ps ++ [p]))

/-- The test of `add` for a point that is too old, which compares milliseconds with microseconds,
says what it would for the bin of the point. -/
def Series.Timely (series : Series) (bins : Bins K) (p : Point K) : Prop :=
  bins.entries.length = series.numBins → series.binId p ∉ bins.keys →
    ∀ oldest ∈ bins.firstEntry, p.timestampMicros < oldest.1 ↔ series.binId p < oldest.1

end Model

/-! ## The fields of a bin -/

namespace TimeBin

variable {K : Type*} [Field K] (b : TimeBin K) (value delta : K)

@[simp] theorem addAvg_sum : (b.addAvg value).sum = b.sum := by
  unfold addAvg
  cases b.avg <;> rfl

@[simp] theorem addAvg_max : (b.addAvg value).max = b.max := by
  unfold addAvg
  cases b.avg <;> rfl

@[simp] theorem addAvg_min : (b.addAvg value).min = b.min := by
  unfold addAvg
  cases b.avg <;> rfl

@[simp] theorem addAvg_latest : (b.addAvg value).latest = b.latest := by
  unfold addAvg
  cases b.avg <;> rfl

variable [LinearOrder K] (types : Finset AggregationType)

theorem add_avg : (b.add types value delta).avg =
    if .AVG ∈ types then (b.addAvg value).avg else b.avg := by
  unfold add
  split_ifs <;> rfl

theorem add_var : (b.add types value delta).var =
    if .AVG ∈ types then (b.addAvg value).var else b.var := by
  unfold add
  split_ifs <;> rfl

theorem add_count : (b.add types value delta).count =
    if .AVG ∈ types then (b.addAvg value).count else b.count := by
  unfold add
  split_ifs <;> rfl

theorem add_sum : (b.add types value delta).sum =
    if .SUM ∈ types then (b.addSum delta).sum else b.sum := by
  unfold add
  split_ifs <;> simp [addSum, addMax, addMin]

theorem add_max : (b.add types value delta).max =
    if .MAX ∈ types then (b.addMax value).max else b.max := by
  unfold add
  split_ifs <;> simp [addSum, addMax, addMin]

theorem add_min : (b.add types value delta).min =
    if .MIN ∈ types then (b.addMin value).min else b.min := by
  unfold add
  split_ifs <;> simp [addSum, addMax, addMin]

theorem add_latest : (b.add types value delta).latest =
    if .LATEST ∈ types then some value else b.latest := by
  unfold add
  split_ifs <;> simp [addSum, addMax, addMin]

end TimeBin

/-! ## Online and batch aggregates -/

section Aggregation

variable {K : Type*} [Field K] [LinearOrder K] [IsStrictOrderedRing K] {values : List K}

theorem length_mul_mean (hne : values ≠ []) : (values.length : K) * mean values = values.sum := by
  have hlength : (values.length : K) ≠ 0 := by
    rw [Nat.cast_ne_zero]
    exact fun h => hne (List.length_eq_zero_iff.mp h)
  exact mul_div_cancel₀ _ hlength

theorem length_add_one_ne_zero (values : List K) : (values.length : K) + 1 ≠ 0 := by
  rw [← Nat.cast_succ, Nat.cast_ne_zero]
  exact Nat.succ_ne_zero _

/-- The mean with one more value. -/
theorem mean_concat (hne : values ≠ []) (x : K) :
    mean (values ++ [x]) = mean values + (x - mean values) / (values.length + 1) := by
  have hsum := length_mul_mean hne
  have hlength := length_add_one_ne_zero values
  have hmean : mean (values ++ [x]) = (values.sum + x) / (values.length + 1) := by
    unfold mean
    rw [List.sum_append, List.sum_singleton, List.length_append, List.length_singleton,
      Nat.cast_add, Nat.cast_one]
  rw [hmean, ← hsum]
  field_simp
  ring

omit [LinearOrder K] [IsStrictOrderedRing K] in
theorem sum_sq_sub (values : List K) (c : K) :
    (values.map fun v => (v - c) ^ 2).sum =
      (values.map (· ^ 2)).sum - 2 * c * values.sum + values.length * c ^ 2 := by
  induction values with
  | nil => simp
  | cons v values ih =>
      rw [List.map_cons, List.sum_cons, ih, List.map_cons, List.sum_cons, List.sum_cons,
        List.length_cons]
      push_cast
      ring

/-- The squared deviations with one more value. -/
theorem deviations_concat (hne : values ≠ []) (x : K) :
    deviations (values ++ [x]) =
      deviations values + (x - mean values) * (x - mean (values ++ [x])) := by
  have hsum := length_mul_mean hne
  have hsum' := length_mul_mean (List.append_ne_nil_of_left_ne_nil hne [x])
  rw [List.sum_append, List.sum_singleton, ← hsum, List.length_append,
    List.length_singleton] at hsum'
  unfold deviations
  rw [sum_sq_sub, sum_sq_sub, List.map_append, List.sum_append, List.sum_append, ← hsum]
  simp only [List.map_cons, List.map_nil, List.sum_singleton, List.length_append,
    List.length_singleton]
  push_cast at hsum' ⊢
  linear_combination (mean (values ++ [x]) - mean values) * hsum'

variable {types : Finset AggregationType} {points : List (Point K)} {bin : TimeBin K}

omit [IsStrictOrderedRing K] in
/-- A new bin is the aggregate of its first point. -/
theorem aggregates_new (types : Finset AggregationType) (p : Point K) :
    Aggregates types [p] (TimeBin.new.add types p.value p.delta) where
  avg := by
    rw [TimeBin.add_avg]
    simp [TimeBin.addAvg, TimeBin.new, mean]
  var := by
    rw [TimeBin.add_var]
    simp [TimeBin.addAvg, TimeBin.new, deviations, mean]
  count := by
    intro havg
    rw [TimeBin.add_count, if_pos havg]
    simp [TimeBin.addAvg, TimeBin.new]
  sum := by
    rw [TimeBin.add_sum]
    simp [TimeBin.addSum, TimeBin.new]
  max := by
    rw [TimeBin.add_max]
    split_ifs <;> simp [TimeBin.addMax, TimeBin.new]
  min := by
    rw [TimeBin.add_min]
    split_ifs <;> simp [TimeBin.addMin, TimeBin.new]
  latest := by
    rw [TimeBin.add_latest]
    rfl

omit [Field K] [LinearOrder K] [IsStrictOrderedRing K] in
theorem forall_mem_concat {P : Point K → Prop} (h : ∀ r ∈ points, P r) {p : Point K} (hp : P p) :
    ∀ r ∈ points ++ [p], P r := by
  intro r hr
  rcases List.mem_append.mp hr with hr | hr
  · exact h r hr
  · rw [List.mem_singleton.mp hr]
    exact hp

/-- A bin to which a point is added is the aggregate of one more point. -/
theorem Aggregates.add (h : Aggregates types points bin) (hne : points ≠ []) (p : Point K) :
    Aggregates types (points ++ [p]) (bin.add types p.value p.delta) where
  avg := by
    rw [TimeBin.add_avg]
    split_ifs with hAVG
    · have havg := h.avg
      have hcount := h.count hAVG
      rw [if_pos hAVG] at havg
      have hvalues : points.map Point.value ≠ [] := fun h => hne (List.map_eq_nil_iff.mp h)
      rw [List.map_append, List.map_singleton, mean_concat hvalues, List.length_map]
      simp [TimeBin.addAvg, havg, hcount]
    · rw [h.avg, if_neg hAVG]
  var := by
    rw [TimeBin.add_var]
    split_ifs with hAVG
    · have havg := h.avg
      have hvar := h.var
      have hcount := h.count hAVG
      rw [if_pos hAVG] at havg hvar
      have hvalues : points.map Point.value ≠ [] := fun h => hne (List.map_eq_nil_iff.mp h)
      have hmean := mean_concat hvalues p.value
      rw [List.length_map] at hmean
      rw [List.map_append, List.map_singleton, deviations_concat hvalues, hmean]
      simp [TimeBin.addAvg, havg, hvar, hcount]
    · rw [h.var, if_neg hAVG]
  count := by
    intro hAVG
    have havg := h.avg
    rw [if_pos hAVG] at havg
    rw [TimeBin.add_count, if_pos hAVG]
    simp [TimeBin.addAvg, havg, h.count hAVG]
  sum := by
    rw [TimeBin.add_sum]
    split_ifs with hSUM
    · have hsum := h.sum
      rw [if_pos hSUM] at hsum
      simp [TimeBin.addSum, hsum]
    · rw [h.sum, if_neg hSUM]
  max := by
    have hmax := h.max
    rw [TimeBin.add_max]
    split_ifs at hmax ⊢ with hMAX
    · obtain ⟨q, hq, hbin, hle⟩ := hmax
      -- the new value is the greatest, or the old one stays
      by_cases hlt : q.value < p.value
      · refine ⟨p, by simp, by simp [TimeBin.addMax, hbin, hlt], ?_⟩
        exact forall_mem_concat (fun r hr => (hle r hr).trans hlt.le) le_rfl
      · refine ⟨q, by simp [hq], by simp [TimeBin.addMax, hbin, hlt], ?_⟩
        exact forall_mem_concat hle (not_lt.mp hlt)
    · exact hmax
  min := by
    have hmin := h.min
    rw [TimeBin.add_min]
    split_ifs at hmin ⊢ with hMIN
    · obtain ⟨q, hq, hbin, hle⟩ := hmin
      by_cases hlt : p.value < q.value
      · refine ⟨p, by simp, by simp [TimeBin.addMin, hbin, hlt], ?_⟩
        exact forall_mem_concat (fun r hr => hlt.le.trans (hle r hr)) le_rfl
      · refine ⟨q, by simp [hq], by simp [TimeBin.addMin, hbin, hlt], ?_⟩
        exact forall_mem_concat hle (not_lt.mp hlt)
    · exact hmin
  latest := by
    rw [TimeBin.add_latest, h.latest]
    split_ifs <;> simp

end Aggregation

/-! ## One call -/

namespace Series

section Call

variable {K : Type*} [Field K] [LinearOrder K] {series : Series} {bins base : Bins K}
  {kept : List (Point K)} {p : Point K} {oldest : Int × TimeBin K}

theorem add_of_mem (h : series.binId p ∈ bins.keys) :
    ∃ dataBin, (series.binId p, dataBin) ∈ bins.entries ∧ series.add bins p =
      bins.insert (series.binId p) (dataBin.add series.aggregationType p.value p.delta) := by
  obtain ⟨dataBin, hmem⟩ := SortedMap.mem_keys.mp h
  refine ⟨dataBin, hmem, ?_⟩
  unfold add
  dsimp only
  rw [SortedMap.get_eq_some.mpr hmem]

omit [Field K] [LinearOrder K] in
theorem get_of_not_mem (h : series.binId p ∉ bins.keys) : bins.get (series.binId p) = none :=
  SortedMap.get_eq_none.mpr fun v hv => h (SortedMap.mem_keys.mpr ⟨v, hv⟩)

theorem add_of_room (h : series.binId p ∉ bins.keys)
    (hroom : bins.entries.length ≠ series.numBins) : series.add bins p =
      bins.insert (series.binId p) (TimeBin.new.add series.aggregationType p.value p.delta) := by
  unfold add
  dsimp only
  rw [get_of_not_mem h]
  exact if_neg hroom

theorem add_of_old (h : series.binId p ∉ bins.keys) (hfull : bins.entries.length = series.numBins)
    (hfirst : bins.firstEntry = some oldest) (hold : p.timestampMicros < oldest.1) :
    series.add bins p = bins := by
  unfold add
  dsimp only
  rw [get_of_not_mem h]
  dsimp only
  rw [if_pos hfull, hfirst]
  exact if_pos hold

theorem add_of_full (h : series.binId p ∉ bins.keys) (hfull : bins.entries.length = series.numBins)
    (hfirst : bins.firstEntry = some oldest) (hold : ¬p.timestampMicros < oldest.1) :
    series.add bins p = (bins.remove oldest.1).insert (series.binId p)
      (TimeBin.new.add series.aggregationType p.value p.delta) := by
  unfold add
  dsimp only
  rw [get_of_not_mem h]
  dsimp only
  rw [if_pos hfull, hfirst]
  exact if_neg hold

omit [Field K] [LinearOrder K] in
/-- A full series has an oldest bin. -/
theorem exists_firstEntry (hfull : bins.entries.length = series.numBins) :
    ∃ oldest, bins.firstEntry = some oldest := by
  cases hentries : bins.entries with
  | nil =>
      rw [hentries] at hfull
      exact absurd series.numBins_pos (by rw [← hfull]; exact lt_irrefl _)
  | cons e es =>
      unfold SortedMap.firstEntry
      rw [hentries]
      exact ⟨e, rfl⟩

/-! ## The invariant -/

/-- The bins are those of the highest ids of the points that were not ignored, and have them. -/
structure Inv (series : Series) (kept : List (Point K)) (bins : Bins K) : Prop where
  highest : Highest series.numBins (series.ids kept) bins.keys
  bin : ∀ e ∈ bins.entries,
    Aggregates series.aggregationType (kept.filter (series.binId · = e.1)) e.2

theorem Inv.window (h : Inv series kept bins) : series.Window kept bins :=
  ⟨h.highest.eq_highestKeys, h.bin⟩

theorem inv_empty (series : Series) : Inv (K := K) series [] SortedMap.empty :=
  ⟨Highest.empty _, fun e he => by cases he⟩

omit [Field K] [LinearOrder K] in
theorem ids_concat (series : Series) (kept : List (Point K)) (p : Point K) :
    series.ids (kept ++ [p]) = insert (series.binId p) (series.ids kept) := by
  ext k
  simp [ids]

theorem Inv.late_iff (h : Inv series kept bins) : series.Late kept p ↔
    bins.entries.length = series.numBins ∧ ∀ k ∈ bins.keys, series.binId p < k := by
  unfold Late
  rw [← h.highest.eq_highestKeys, SortedMap.card_keys]

/-- A new bin starts without points. -/
theorem Inv.not_mem_ids (h : Inv series kept bins) (hnew : series.binId p ∉ bins.keys)
    (hlate : ¬series.Late kept p) : series.binId p ∉ series.ids kept := by
  intro hmem
  rw [h.late_iff, not_and] at hlate
  by_cases hfull : bins.entries.length = series.numBins
  · exact hlate hfull (h.highest.above _ hmem hnew)
  · have hcard := h.highest.card_le
    rw [SortedMap.card_keys] at hcard
    have hall := h.highest.all (by rw [SortedMap.card_keys]; omega)
    exact hnew (hall ▸ hmem)

omit [Field K] [LinearOrder K] in
theorem filter_ne_nil_iff {k : Int} :
    kept.filter (series.binId · = k) ≠ [] ↔ k ∈ series.ids kept := by
  simp [ids, List.filter_eq_nil_iff]

/-- A point goes to its own bin. -/
theorem Inv.bin_insert (h : Inv series kept bins) (hbase : ∀ e ∈ base.entries, e ∈ bins.entries)
    {dataBin : TimeBin K} (hbin : Aggregates series.aggregationType
      (kept.filter (series.binId · = series.binId p) ++ [p]) dataBin) :
    ∀ e ∈ (base.insert (series.binId p) dataBin).entries, Aggregates series.aggregationType
      ((kept ++ [p]).filter (series.binId · = e.1)) e.2 := by
  intro e he
  rw [List.filter_append]
  rcases SortedMap.mem_insert.mp he with rfl | ⟨he, hne⟩
  · rwa [List.filter_cons_of_pos (by simp), List.filter_nil]
  · rw [List.filter_cons_of_neg (by simpa using Ne.symm hne), List.filter_nil, List.append_nil]
    exact h.bin e (hbase e he)

variable [IsStrictOrderedRing K]

/-- A call that tells late points from the others keeps the invariant. -/
theorem Inv.add (h : Inv series kept bins) (htimely : series.Timely bins p) :
    Inv series (series.keep kept p) (series.add bins p) := by
  by_cases hmem : series.binId p ∈ bins.keys
  · -- the bin is there
    have hlate : ¬series.Late kept p := fun hlate =>
      lt_irrefl _ ((h.late_iff.mp hlate).2 _ hmem)
    have hne := filter_ne_nil_iff.mpr (h.highest.subset hmem)
    obtain ⟨dataBin, hentry, hadd⟩ := add_of_mem hmem
    unfold keep
    rw [if_neg hlate, hadd]
    refine ⟨?_, h.bin_insert (fun e he => he) ((h.bin _ hentry).add hne p)⟩
    rw [ids_concat, SortedMap.keys_insert, Finset.insert_eq_of_mem hmem]
    exact h.highest.insert_of_mem hmem
  by_cases hlate : series.Late kept p
  · -- the point is late
    obtain ⟨hfull, hall⟩ := h.late_iff.mp hlate
    obtain ⟨oldest, hfirst⟩ := exists_firstEntry hfull
    have hlt := hall oldest.1 (SortedMap.mem_keys.mpr ⟨_, (SortedMap.mem_firstEntry hfirst).1⟩)
    unfold keep
    rw [if_pos hlate, add_of_old hmem hfull hfirst ((htimely hfull hmem oldest hfirst).mpr hlt)]
    exact h
  · -- the point gets a new bin
    have hnil : kept.filter (series.binId · = series.binId p) = [] :=
      not_not.mp fun hne => h.not_mem_ids hmem hlate (filter_ne_nil_iff.mp hne)
    have hnew : Aggregates series.aggregationType
        (kept.filter (series.binId · = series.binId p) ++ [p])
        (TimeBin.new.add series.aggregationType p.value p.delta) := by
      rw [hnil]
      exact aggregates_new series.aggregationType p
    unfold keep
    rw [if_neg hlate]
    by_cases hfull : bins.entries.length = series.numBins
    · obtain ⟨oldest, hfirst⟩ := exists_firstEntry hfull
      obtain ⟨hentry, hleast⟩ := SortedMap.mem_firstEntry hfirst
      have holdest : oldest.1 ∈ bins.keys := SortedMap.mem_keys.mpr ⟨_, hentry⟩
      -- a point that is not late is newer than the oldest bin, which is dropped for it
      have hlt : oldest.1 < series.binId p := by
        by_contra hle
        refine hlate (h.late_iff.mpr ⟨hfull, fun k hk => ?_⟩)
        have hne : series.binId p ≠ k := fun heq => hmem (heq ▸ hk)
        exact lt_of_le_of_ne ((not_lt.mp hle).trans (hleast k hk)) hne
      rw [add_of_full hmem hfull hfirst (mt (htimely hfull hmem oldest hfirst).mp (lt_asymm hlt))]
      refine ⟨?_, h.bin_insert (fun e he => (SortedMap.mem_remove.mp he).1) hnew⟩
      rw [ids_concat, SortedMap.keys_insert, SortedMap.keys_remove]
      exact h.highest.insert_of_lt (by rw [SortedMap.card_keys, hfull]) holdest hleast hmem hlt
    · have hcard := h.highest.card_le
      rw [SortedMap.card_keys] at hcard
      rw [add_of_room hmem hfull]
      refine ⟨?_, h.bin_insert (fun e he => he) hnew⟩
      rw [ids_concat, SortedMap.keys_insert]
      exact h.highest.insert_of_card_lt hmem (by rw [SortedMap.card_keys]; omega)

end Call

/-! ## Runs -/

section Run

variable {K : Type*} [Field K] [LinearOrder K] {series : Series} {ps : List (Point K)}
  {p : Point K}

theorem run_concat (series : Series) (ps : List (Point K)) (p : Point K) :
    series.run (ps ++ [p]) = series.add (series.run ps) p := by
  simp [run]

omit [Field K] [LinearOrder K] in
theorem kept_concat (series : Series) (ps : List (Point K)) (p : Point K) :
    series.kept (ps ++ [p]) = series.keep (series.kept ps) p := by
  simp [kept]

/-- A call that is as expected has told late points from the others. -/
theorem Correct.timely (h : series.Correct ps p) : series.Timely (series.run ps) p := by
  intro hfull hnew oldest hfirst
  have hkeys := SortedMap.mem_firstEntry hfirst
  constructor
  · intro hold
    by_contra hle
    -- the point was ignored
    have hne : oldest.1 ≠ series.binId p := fun heq =>
      hnew (heq ▸ SortedMap.mem_keys.mpr ⟨_, hkeys.1⟩)
    have hdropped := h.dropped hfull hnew oldest hfirst (lt_of_le_of_ne (not_lt.mp hle) hne)
    rw [run_concat, add_of_old hnew hfull hfirst hold] at hdropped
    exact hnew (hdropped ▸ Finset.mem_insert_self _ _)
  · intro hlt
    by_contra hold
    -- the oldest bin was dropped for an older one
    have hignored := h.ignored hfull fun k hk => lt_of_lt_of_le hlt (hkeys.2 k hk)
    rw [run_concat, add_of_full hnew hfull hfirst hold] at hignored
    have hkey : series.binId p ∈ (series.run ps).keys := by
      rw [← hignored, SortedMap.keys_insert]
      exact Finset.mem_insert_self _ _
    exact hnew hkey

variable [IsStrictOrderedRing K]

theorem Inv.correct (h : Inv series (series.kept ps) (series.run ps))
    (htimely : series.Timely (series.run ps) p) : series.Correct ps p := by
  have hnext := h.add htimely
  rw [← run_concat, ← kept_concat] at hnext
  constructor
  · have hcard := hnext.highest.card_le
    rwa [SortedMap.card_keys] at hcard
  · intro hfull hall
    have hnew : series.binId p ∉ (series.run ps).keys := fun hmem => lt_irrefl _ (hall _ hmem)
    obtain ⟨oldest, hfirst⟩ := exists_firstEntry hfull
    have hlt := hall oldest.1 (SortedMap.mem_keys.mpr ⟨_, (SortedMap.mem_firstEntry hfirst).1⟩)
    rw [run_concat, add_of_old hnew hfull hfirst ((htimely hfull hnew oldest hfirst).mpr hlt)]
  · intro hfull hnew oldest hfirst hlt
    rw [run_concat, add_of_full hnew hfull hfirst
      (mt (htimely hfull hnew oldest hfirst).mp (lt_asymm hlt)), SortedMap.keys_insert,
      SortedMap.keys_remove]
  · exact hnext.window

/-- The invariant holds as long as late points are told from the others. -/
theorem inv_run (h : ∀ qs p, qs ++ [p] <+: ps → series.Timely (series.run qs) p)
    {qs : List (Point K)} (hqs : qs <+: ps) : Inv series (series.kept qs) (series.run qs) := by
  induction qs using List.reverseRecOn with
  | nil => exact inv_empty series
  | append_singleton qs p ih =>
      rw [run_concat, kept_concat]
      exact (ih ((List.prefix_append _ _).trans hqs)).add (h qs p hqs)

/-- A series is what it is for in those runs in which it tells late points from the others. -/
theorem correct_iff (series : Series) (ps : List (Point K)) :
    (∀ qs p, qs ++ [p] <+: ps → series.Correct qs p) ↔
      ∀ qs p, qs ++ [p] <+: ps → series.Timely (series.run qs) p := by
  constructor
  · exact fun h qs p hqs => (h qs p hqs).timely
  · intro h qs p hqs
    exact (inv_run h ((List.prefix_append _ _).trans hqs)).correct (h qs p hqs)

end Run

/-- Sums of the last bin, of a second. -/
def lastSecond : Series := ⟨1, 1000, {.SUM}, by decide, by decide⟩

theorem correct_iff_lastSecond :
    (∀ qs p, qs ++ [p] <+: [(⟨1000000, 1, 1⟩ : Point ℚ)] → lastSecond.Correct qs p) ↔
      ∀ qs p, qs ++ [p] <+: [(⟨1000000, 1, 1⟩ : Point ℚ)] →
        lastSecond.Timely (lastSecond.run qs) p :=
  correct_iff lastSecond _

/-- A late point drops the only bin, which is for a later second. -/
theorem not_correct_lastSecond :
    ¬∀ qs p, qs ++ [p] <+: [(⟨5000000, 1, 1⟩ : Point ℚ), ⟨1000000, 1, 1⟩] →
      lastSecond.Correct qs p := by
  intro h
  have hcorrect := h [⟨5000000, 1, 1⟩] ⟨1000000, 1, 1⟩ (List.prefix_refl _)
  have hnew : lastSecond.binId (⟨1000000, 1, 1⟩ : Point ℚ) ∉
      (lastSecond.run [(⟨5000000, 1, 1⟩ : Point ℚ)]).keys := by decide
  have hold := hcorrect.timely rfl hnew _ rfl
  exact absurd (hold.mpr (by decide)) (by decide)

end Series

end Xenon.Common.ServiceStats
