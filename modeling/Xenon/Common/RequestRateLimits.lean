import Mathlib.Tactic.NormNum
import Xenon.Common.ProcessingChain
import Xenon.Common.TimeSeriesStats

/-!
# Request rate limits

`RequestRateLimitsFilter` counts the requests of a subject in a time series and fails those that are
too many. The host hands out its limits by `Utils.clone`, so the filter counts in a copy of the
series, and with `sum < limit` where the sum has the request itself.
-/

namespace Xenon.Common.RequestRateLimits

open Xenon.Foundation
open Xenon.Common.ServiceStats
open Xenon.Common.ProcessingChain (FilterReturnCode)

/-- `RequestRateInfo.Option`. -/
inductive RateOption where
  | FAIL | PAUSE_PROCESSING
  deriving DecidableEq

/-- `RequestRateInfo`, as it is given to `setRequestRateLimit`, with a time series that is new. -/
structure RequestRateSetting (K : Type*) where
  limit : K
  options : Option (Finset RateOption)
  timeSeries : Option Series

/-- `RequestRateInfo`, as the host keeps it. The bins of the series are an object. -/
structure RequestRateInfo (K : Type*) where
  limit : K
  options : Finset RateOption
  series : Series
  bins : Nat
  sum_mem : .SUM ∈ series.aggregationType

/-- The bins of all series that were made, by the numbers of the objects. -/
abbrev Heap (K : Type*) := List (Bins K)

/-- What `Utils.clone` does with the bins of a series: the heap, and the number of the copy. -/
abbrev Clone (K : Type*) := Heap K → Nat → Heap K × Nat

/-- The copy is a new object, of the same value. -/
structure DeepCopy {K : Type*} (clone : Clone K) : Prop where
  copied : ∀ {heap ref bins}, heap[ref]? = some bins →
    (clone heap ref).1[(clone heap ref).2]? = some bins
  fresh : ∀ heap ref, heap.length ≤ (clone heap ref).2
  kept : ∀ {heap ref i}, i < heap.length → (clone heap ref).1[i]? = heap[i]?

/-- `ServiceHost`, with the statistic of the operations that were limited. -/
structure Host (K : Type*) where
  requestRateLimits : String → Option (RequestRateInfo K)
  heap : Heap K
  rateLimitedOpCount : Nat

/-- `Operation.AuthorizationContext`, by the subject of its claims. -/
structure AuthorizationContext where
  claims : Option (Option String)

/-- `Operation.failLimitExceeded`. -/
structure Failure where
  statusCode : Nat
  errorCode : Nat
  retryAfter : String
  message : String
  deriving DecidableEq

structure Operation where
  fromReplication : Bool
  forwarded : Bool
  remote : Bool
  authorizationContext : Option AuthorizationContext
  path : String
  rateLimited : Bool
  failure : Option Failure

/-- The subject of an operation that has one. -/
def Operation.subject (op : Operation) : Option String := do
  let authCtx ← op.authorizationContext
  let claims ← authCtx.claims
  claims

/-- `failLimitExceeded` with `ERROR_CODE_HOST_RATE_LIMIT_EXCEEDED`. -/
def Operation.failLimitExceeded (op : Operation) (queueDescription : String) : Operation :=
  { op with
    failure := some ⟨503, 0x80000008, "1", "queue limit exceeded (" ++ queueDescription ++ ")"⟩ }

section Model

variable {K : Type*} [Field K] [LinearOrder K]

theorem defaultBinDuration_pos : (0 : Int) < 1000 := by decide

/-- The series of a limit that is given none. -/
def defaultSeries : Series := ⟨60, 1000, {.SUM}, by decide, defaultBinDuration_pos⟩

/-- `setRequestRateLimit`. -/
def Host.setRequestRateLimit (host : Host K) (key : String) (ri : RequestRateSetting K) :
    Except String (Host K) :=
  if ri.limit ≤ 0 then .error "limit must be a non zero positive number"
  else
    let series := ri.timeSeries.getD defaultSeries
    if h : .SUM ∈ series.aggregationType then
      let options := match ri.options with
        | none => {.FAIL}
        | some options => if options = ∅ then {.FAIL} else options
      .ok { host with
        requestRateLimits :=
          Function.update host.requestRateLimits key
            (some ⟨ri.limit, options, series, host.heap.length, h⟩)
        heap := host.heap ++ [SortedMap.empty] }
    else .error "time series must be of type SUM"

/-- `getRequestRateLimit`. -/
def Host.getRequestRateLimit (clone : Clone K) (host : Host K) (key : String) :
    Option (RequestRateInfo K) × Host K :=
  match host.requestRateLimits key with
  | none => (none, host)
  | some ri =>
      let (heap, bins) := clone host.heap ri.bins
      (some { ri with bins := bins }, { host with heap := heap })

/-- `timeSeries.add(now, 0, 1)`, and the sum of the most recent bin. -/
def Host.countRequest (host : Host K) (rateInfo : RequestRateInfo K) (now : Int) :
    Host K × Option K :=
  let bins := rateInfo.series.add (host.heap.getD rateInfo.bins SortedMap.empty) ⟨now, 0, 1⟩
  let mostRecentBin := bins.lastKey.bind bins.get
  ({ host with heap := host.heap.set rateInfo.bins bins }, mostRecentBin.bind TimeBin.sum)

/-- What becomes of a request that was counted. -/
def Host.checkLimit (host : Host K) (rateInfo : RequestRateInfo K) (sum : Option K)
    (op : Operation) : FilterReturnCode × Operation × Host K :=
  if sum.any (· < rateInfo.limit) then (.continueProcessing, op, host)
  else
    let host := { host with rateLimitedOpCount := host.rateLimitedOpCount + 1 }
    let op := if .PAUSE_PROCESSING ∈ rateInfo.options then { op with rateLimited := true } else op
    if .FAIL ∉ rateInfo.options then (.continueProcessing, op, host)
    else (.failedStopProcessing, op.failLimitExceeded ("rate limit for " ++ op.path), host)

/-- `RequestRateLimitsFilter.processRequest`. -/
def processRequest (clone : Clone K) (host : Host K) (now : Int) (op : Operation) :
    FilterReturnCode × Operation × Host K :=
  if op.fromReplication || op.forwarded then (.continueProcessing, op, host)
  else if !op.remote then (.continueProcessing, op, host)
  else
    match op.subject with
    | none => (.continueProcessing, op, host)
    | some subject =>
        match host.getRequestRateLimit clone subject with
        | (none, host) => (.continueProcessing, op, host)
        | (some rateInfo, host) =>
            let (host, sum) := host.countRequest rateInfo now
            host.checkLimit rateInfo sum op

/-! ## Runs -/

/-- A request, and the time at which it is processed. -/
structure Request where
  now : Int
  op : Operation

/-- A request, and what the filter returned. -/
structure Outcome where
  request : Request
  code : FilterReturnCode

/-- What the filter returns for some requests, one after the other. -/
def outcomes (clone : Clone K) (host : Host K) : List Request → List Outcome
  | [] => []
  | r :: rs =>
      ⟨r, (processRequest clone host r.now r.op).1⟩ ::
        outcomes clone (processRequest clone host r.now r.op).2.2 rs

/-- The limit of a subject applies to an operation. -/
def Operation.Counted (op : Operation) (subject : String) : Prop :=
  op.fromReplication = false ∧ op.forwarded = false ∧ op.remote = true ∧
    op.subject = some subject

instance (op : Operation) (subject : String) : Decidable (op.Counted subject) :=
  inferInstanceAs (Decidable (_ ∧ _ ∧ _ ∧ _))

/-- The bin of a request. -/
def Request.bin (r : Request) (series : Series) : Int :=
  normalizeTimestamp r.now series.binDurationMillis

/-- The number of requests of a subject in a bin. -/
def arrivals (subject : String) (series : Series) (bin : Int) (rs : List Request) : Nat :=
  rs.countP fun r => r.op.Counted subject ∧ r.bin series = bin

/-- The number of those that were let through. -/
def admitted (subject : String) (series : Series) (bin : Int) (outs : List Outcome) : Nat :=
  outs.countP fun o => o.request.op.Counted subject ∧ o.request.bin series = bin ∧
    o.code ≠ .failedStopProcessing

/-- A request is failed if and only if as many as the limit were let through in its bin. -/
def Exact (subject : String) (series : Series) (limit : K) (outs : List Outcome) : Prop :=
  ∀ before o after, outs = before ++ o :: after → o.request.op.Counted subject →
    (o.code = .failedStopProcessing ↔
      limit ≤ (admitted subject series (o.request.bin series) before : K))

end Model

section Counting

variable {K : Type*} [Field K] [LinearOrder K] {clone : Clone K} {host : Host K}
  {subject : String} {limit : K} {series : Series} {r : Request} {rs : List Request}

/-- The limit of a subject is on the host, to fail requests, and its series has no bins. -/
def Configured (host : Host K) (subject : String) (limit : K) (series : Series) : Prop :=
  ∃ ri, host.requestRateLimits subject = some ri ∧ ri.limit = limit ∧ .FAIL ∈ ri.options ∧
    ri.series = series ∧ host.heap[ri.bins]? = some SortedMap.empty

theorem configured_setRequestRateLimit {host' : Host K} {ri : RequestRateSetting K}
    (h : host.setRequestRateLimit subject ri = .ok host')
    (hfail : ∀ options ∈ ri.options, options = ∅ ∨ RateOption.FAIL ∈ options) :
    Configured host' subject ri.limit (ri.timeSeries.getD defaultSeries) := by
  unfold Host.setRequestRateLimit at h
  split_ifs at h with hlimit
  dsimp only at h
  split_ifs at h with hsum
  cases h
  refine ⟨_, Function.update_self _ _ _, rfl, ?_, rfl, List.getElem?_concat_length⟩
  show RateOption.FAIL ∈ (match ri.options with
    | none => {RateOption.FAIL}
    | some options => if options = ∅ then {RateOption.FAIL} else options)
  cases hoptions : ri.options with
  | none => exact Finset.mem_singleton_self _
  | some options =>
      dsimp only
      split_ifs with hempty
      · exact Finset.mem_singleton_self _
      · exact (hfail options hoptions).resolve_left hempty

/-! ## One request -/

/-- In an empty series a request is counted alone. -/
theorem sum_countRequest {rateInfo : RequestRateInfo K} (now : Int)
    (h : host.heap[rateInfo.bins]? = some SortedMap.empty) :
    (host.countRequest rateInfo now).2 = some 1 := by
  have hempty : host.heap.getD rateInfo.bins SortedMap.empty = SortedMap.empty := by
    rw [List.getD_eq_getElem?_getD, h]
    rfl
  have hadd : rateInfo.series.add SortedMap.empty (⟨now, 0, 1⟩ : Point K) =
      SortedMap.empty.insert (normalizeTimestamp now rateInfo.series.binDurationMillis)
        (TimeBin.new.add rateInfo.series.aggregationType 0 1) := by
    refine Series.add_of_room (fun hmem => ?_) rateInfo.series.numBins_pos.ne
    obtain ⟨v, hv⟩ := SortedMap.mem_keys.mp hmem
    cases hv
  have hlast : ∀ (key : Int) (value : TimeBin K),
      (SortedMap.empty.insert key value).lastKey = some key :=
    fun _ _ => rfl
  unfold Host.countRequest
  dsimp only
  rw [hempty, hadd, hlast, Option.bind_some, SortedMap.get_insert_self, Option.bind_some,
    TimeBin.add_sum, if_pos rateInfo.sum_mem]
  rfl

omit [Field K] in
theorem checkLimit_kept (host : Host K) (rateInfo : RequestRateInfo K) (sum : Option K)
    (op : Operation) :
    (host.checkLimit rateInfo sum op).2.2.requestRateLimits = host.requestRateLimits ∧
      (host.checkLimit rateInfo sum op).2.2.heap = host.heap := by
  unfold Host.checkLimit
  by_cases hsum : sum.any (· < rateInfo.limit) = true
  · rw [if_pos hsum]
    exact ⟨rfl, rfl⟩
  · rw [if_neg hsum]
    by_cases hfail : .FAIL ∉ rateInfo.options
    · rw [if_pos hfail]
      exact ⟨rfl, rfl⟩
    · rw [if_neg hfail]
      exact ⟨rfl, rfl⟩

/-- What the host keeps is not changed by the filter. -/
theorem processRequest_kept (hclone : DeepCopy clone) (host : Host K) (now : Int)
    (op : Operation) :
    (processRequest clone host now op).2.2.requestRateLimits = host.requestRateLimits ∧
      ∀ i < host.heap.length, (processRequest clone host now op).2.2.heap[i]? = host.heap[i]? := by
  unfold processRequest Host.getRequestRateLimit
  split_ifs
  · exact ⟨rfl, fun _ _ => rfl⟩
  · exact ⟨rfl, fun _ _ => rfl⟩
  · cases op.subject with
    | none => exact ⟨rfl, fun _ _ => rfl⟩
    | some subject =>
        dsimp only
        cases host.requestRateLimits subject with
        | none => exact ⟨rfl, fun _ _ => rfl⟩
        | some rateInfo =>
            dsimp only
            refine ⟨(checkLimit_kept _ _ _ op).1, fun i hi => ?_⟩
            -- the copy is not one of the old objects
            have hfresh := hclone.fresh host.heap rateInfo.bins
            have hne : (clone host.heap rateInfo.bins).2 ≠ i := by omega
            rw [(checkLimit_kept _ _ _ op).2]
            show (List.set _ (clone host.heap rateInfo.bins).2 _)[i]? = _
            rw [List.getElem?_set_ne hne]
            exact hclone.kept hi

theorem Configured.step (hclone : DeepCopy clone) (h : Configured host subject limit series)
    (now : Int) (op : Operation) :
    Configured (processRequest clone host now op).2.2 subject limit series := by
  obtain ⟨ri, hri, hlimit, hfail, hseries, hbins⟩ := h
  obtain ⟨hlimits, hheap⟩ := processRequest_kept hclone host now op
  have hlt : ri.bins < host.heap.length := (List.getElem?_eq_some_iff.mp hbins).1
  refine ⟨ri, ?_, hlimit, hfail, hseries, ?_⟩
  · rw [hlimits, hri]
  · rw [hheap _ hlt, hbins]

/-- A request is failed or not by the limit alone. -/
theorem Configured.code (hclone : DeepCopy clone) (h : Configured host subject limit series)
    (now : Int) {op : Operation} (hop : op.Counted subject) :
    (processRequest clone host now op).1 =
      if 1 < limit then .continueProcessing else .failedStopProcessing := by
  obtain ⟨ri, hri, rfl, hfail, -, hbins⟩ := h
  obtain ⟨hreplication, hforwarded, hremote, hsubject⟩ := hop
  have hcopied := hclone.copied hbins
  have hsum := @sum_countRequest K _ _ { host with heap := (clone host.heap ri.bins).1 }
    { ri with bins := (clone host.heap ri.bins).2 } now hcopied
  unfold processRequest Host.getRequestRateLimit
  simp only [hreplication, hforwarded, hremote, hsubject, hri, hsum, Bool.or_self, Bool.not_true,
    Bool.false_eq_true, if_false]
  unfold Host.checkLimit
  simp only [Option.any_some, decide_eq_true_eq, hfail, not_true, if_false]
  split_ifs <;> rfl

/-! ## All requests -/

theorem map_request_outcomes (clone : Clone K) (host : Host K) (rs : List Request) :
    (outcomes clone host rs).map Outcome.request = rs := by
  induction rs generalizing host with
  | nil => rfl
  | cons r rs ih =>
      unfold outcomes
      rw [List.map_cons, ih]

theorem Configured.code_outcomes (hclone : DeepCopy clone)
    (h : Configured host subject limit series) :
    ∀ o ∈ outcomes clone host rs, o.request.op.Counted subject →
      o.code = if 1 < limit then .continueProcessing else .failedStopProcessing := by
  induction rs generalizing host with
  | nil => exact fun o ho => by cases ho
  | cons r rs ih =>
      intro o ho hop
      rcases List.mem_cons.mp ho with rfl | ho
      · exact h.code hclone r.now hop
      · exact ih (h.step hclone r.now r.op) o ho hop

/-- Where requests pass, all of a bin do. -/
theorem Configured.admitted_eq (hclone : DeepCopy clone)
    (h : Configured host subject limit series) (hlimit : 1 < limit) {before after : List Outcome}
    (houts : outcomes clone host rs = before ++ after) (bin : Int) :
    admitted subject series bin before =
      arrivals subject series bin (before.map Outcome.request) := by
  unfold admitted arrivals
  rw [List.countP_map]
  refine List.countP_congr fun o ho => ?_
  have hcode := h.code_outcomes hclone o (houts ▸ List.mem_append_left _ ho)
  rw [if_pos hlimit] at hcode
  simp only [Function.comp_apply, decide_eq_true_eq]
  constructor
  · rintro ⟨hop, hbin, -⟩
    exact ⟨hop, hbin⟩
  · rintro ⟨hop, hbin⟩
    exact ⟨hop, hbin, by rw [hcode hop]; decide⟩

/-- Where none pass, none were let through. -/
theorem Configured.admitted_eq_zero (hclone : DeepCopy clone)
    (h : Configured host subject limit series) (hlimit : ¬1 < limit) {before after : List Outcome}
    (houts : outcomes clone host rs = before ++ after) (bin : Int) :
    admitted subject series bin before = 0 := by
  refine List.countP_eq_zero.mpr fun o ho => ?_
  have hcode := h.code_outcomes hclone o (houts ▸ List.mem_append_left _ ho)
  rw [if_neg hlimit] at hcode
  simp only [decide_eq_true_eq]
  rintro ⟨hop, -, hne⟩
  exact hne (hcode hop)

variable [IsStrictOrderedRing K]

/-- With a copy of the series for every request, no request is counted together with another. -/
theorem Configured.exact_iff_few (hclone : DeepCopy clone)
    (h : Configured host subject limit series) (hlimit : 1 ≤ limit) :
    Exact subject series limit (outcomes clone host rs) ↔
      ∀ before r after, rs = before ++ r :: after → r.op.Counted subject →
        1 < limit ∧ (arrivals subject series (r.bin series) before : K) < limit := by
  have hmap := map_request_outcomes clone host rs
  constructor
  · intro hexact before r after hrs hop
    obtain ⟨before', outs, houts, hbefore, hrest⟩ := List.map_eq_append_iff.mp (hmap.trans hrs)
    obtain ⟨o, after', rfl, rfl, -⟩ := List.map_eq_cons_iff.mp hrest
    have hcode := h.code_outcomes hclone o (by rw [houts]; simp) hop
    have hiff := hexact before' o after' houts hop
    by_cases hone : 1 < limit
    · rw [if_pos hone] at hcode
      rw [h.admitted_eq hclone hone houts, hbefore, hcode] at hiff
      exact ⟨hone, not_le.mp fun hle => absurd (hiff.mpr hle) (by decide)⟩
    · -- the first request of a bin is failed
      rw [if_neg hone] at hcode
      rw [h.admitted_eq_zero hclone hone houts, hcode, Nat.cast_zero] at hiff
      exact absurd (hlimit.trans (hiff.mp rfl)) (not_le.mpr one_pos)
  · intro hfew before o after houts hop
    rw [houts, List.map_append, List.map_cons] at hmap
    obtain ⟨hone, hlt⟩ := hfew _ o.request _ hmap.symm hop
    have hcode := h.code_outcomes hclone o (by rw [houts]; simp) hop
    rw [if_pos hone] at hcode
    rw [h.admitted_eq hclone hone houts, hcode]
    exact ⟨fun h => absurd h (by decide), fun hle => absurd hle (not_le.mpr hlt)⟩

/-- The limit is exact only above one, and only while it is not reached. -/
theorem exact_iff (hclone : DeepCopy clone) {host' : Host K} {ri : RequestRateSetting K}
    (hset : host.setRequestRateLimit subject ri = .ok host')
    (hfail : ∀ options ∈ ri.options, options = ∅ ∨ RateOption.FAIL ∈ options)
    (hlimit : 1 ≤ ri.limit) (rs : List Request) :
    Exact subject (ri.timeSeries.getD defaultSeries) ri.limit (outcomes clone host' rs) ↔
      ∀ before r after, rs = before ++ r :: after → r.op.Counted subject →
        1 < ri.limit ∧ (arrivals subject (ri.timeSeries.getD defaultSeries)
          (r.bin (ri.timeSeries.getD defaultSeries)) before : K) < ri.limit :=
  (configured_setRequestRateLimit hset hfail).exact_iff_few hclone hlimit

end Counting

/-! ## Two requests a second -/

/-- A copy is put behind the objects that are there. -/
def appendCopy (heap : Heap ℚ) (ref : Nat) : Heap ℚ × Nat :=
  (heap ++ [heap.getD ref SortedMap.empty], heap.length)

theorem deepCopy_appendCopy : DeepCopy appendCopy where
  copied := by
    intro heap ref bins h
    show (heap ++ [heap.getD ref SortedMap.empty])[heap.length]? = some bins
    rw [List.getElem?_concat_length, List.getD_eq_getElem?_getD, h]
    rfl
  fresh := fun _ _ => Nat.le_refl _
  kept := fun hi => List.getElem?_append_left hi

/-- A host that limits nobody. -/
def newHost : Host ℚ := ⟨fun _ => none, [], 0⟩

/-- At most two requests a second. -/
def twoASecond : RequestRateSetting ℚ := ⟨2, none, none⟩

/-- The host on which a user is limited. -/
def limitedHost : Host ℚ :=
  ⟨Function.update (fun _ => none) "user" (some ⟨2, {.FAIL}, defaultSeries, 0, by decide⟩),
    [SortedMap.empty], 0⟩

theorem setRequestRateLimit_newHost :
    newHost.setRequestRateLimit "user" twoASecond = .ok limitedHost := by
  have hlimit : ¬twoASecond.limit ≤ 0 := by
    show ¬(2 : ℚ) ≤ 0
    norm_num
  have hsum : AggregationType.SUM ∈ defaultSeries.aggregationType := by decide
  unfold Host.setRequestRateLimit
  rw [if_neg hlimit]
  exact dif_pos hsum

/-- A remote request of the user, at time zero. -/
def userRequest : Request := ⟨0, ⟨false, false, true, some ⟨some (some "user")⟩, "/", false, none⟩⟩

theorem exact_iff_twoASecond :
    Exact "user" defaultSeries (2 : ℚ) (outcomes appendCopy limitedHost [userRequest]) ↔
      ∀ before r after, [userRequest] = before ++ r :: after → r.op.Counted "user" →
        1 < (2 : ℚ) ∧ (arrivals "user" defaultSeries (r.bin defaultSeries) before : ℚ) < 2 :=
  exact_iff deepCopy_appendCopy setRequestRateLimit_newHost (fun _ h => by cases h)
    (by show (1 : ℚ) ≤ 2; norm_num) [userRequest]

/-- Three requests pass in one second. -/
theorem not_exact_twoASecond :
    ¬Exact "user" defaultSeries (2 : ℚ)
      (outcomes appendCopy limitedHost [userRequest, userRequest, userRequest]) := by
  have hconfigured := configured_setRequestRateLimit setRequestRateLimit_newHost
    fun _ h => by cases h
  have hone : (1 : ℚ) ≤ 2 := by norm_num
  intro hexact
  have hfew := (hconfigured.exact_iff_few deepCopy_appendCopy hone).mp hexact
  have hlt := (hfew [userRequest, userRequest] userRequest [] rfl (by decide)).2
  exact absurd hlt (by decide)

end Xenon.Common.RequestRateLimits
