import Xenon.Foundation.Run
import Xenon.Foundation.Until
import Xenon.Index.Pages

/-!
# Pagination

What is left for the pages after a page is what its own loop leaves: the results after
the last hit that it visited, less what is left of the offset. So the pages together have
the results of the query without a limit, as long as no hit count overflows and no link is
returned twice.

A page can be empty. The look-ahead does not know of `OWNER_SELECTION`, and the first page
is there whenever there is any hit. With a limit on hits below the result limit, a page
visits a bounded number of hits, and they may all be filtered out.
-/

namespace Xenon.Index.Pages

open Xenon.Foundation
open Xenon.QueryTask (Failure)

namespace Spec

variable (q : Spec)

/-! ## The filter -/

/-- Not older than the latest version of its link. -/
def isCurrent (h : Hit) : Bool := q.includeAllVersions || !decide (h.version < q.latestVersion h.link)

/-- What the look-ahead counts. -/
def isValid (h : Hit) : Bool :=
  q.isCurrent h && (q.includeAllVersions || !h.isDeleted || q.includeDeleted)

/-- What a page returns. -/
def isIncluded (h : Hit) : Bool := q.isValid h && (!q.ownerSelection || h.isOwner)

/-- The hits that a page returns, or that the look-ahead counts. -/
def passes (populateResponse : Bool) (h : Hit) : Bool :=
  if populateResponse then q.isIncluded h else q.isValid h

/-- The results among some hits. -/
def results (hits : List Hit) : List String := (hits.filter q.isIncluded).map q.key

/-- No two current hits are returned under the same link. -/
def Distinct (hits : List Hit) : Prop := ((hits.filter q.isCurrent).map q.key).Nodup

theorem isValid_of_isIncluded {h : Hit} (hh : q.isIncluded h = true) : q.isValid h = true :=
  (Bool.and_eq_true_iff.mp hh).1

theorem isCurrent_of_passes {populateResponse : Bool} {h : Hit}
    (hh : q.passes populateResponse h = true) : q.isCurrent h = true := by
  unfold passes at hh
  split at hh
  · exact (Bool.and_eq_true_iff.mp (q.isValid_of_isIncluded hh)).1
  · exact (Bool.and_eq_true_iff.mp hh).1

/-- One hit: it adds its link if it passes, and otherwise nothing changes, as the link of a
deleted document is not there. -/
theorem visit_eq (populateResponse : Bool) {uniques : List String} {h : Hit}
    (hnew : q.isCurrent h = true → q.key h ∉ uniques) :
    q.visit populateResponse uniques h =
      if q.passes populateResponse h then uniques ++ [q.key h] else uniques := by
  have hinsert : q.isCurrent h = true → insertLast uniques (q.key h) = uniques ++ [q.key h] :=
    fun hc => if_neg (hnew hc)
  unfold visit
  -- a version that is not current is skipped
  by_cases hstale : (!q.includeAllVersions && decide (h.version < q.latestVersion h.link)) = true
  · rw [if_pos hstale]
    have hcurrent : q.isCurrent h = false := by
      unfold isCurrent
      revert hstale
      cases q.includeAllVersions <;> simp
    have hpass : q.passes populateResponse h = false := by
      cases populateResponse <;> simp [passes, isIncluded, isValid, hcurrent]
    rw [hpass]
    rfl
  · rw [if_neg hstale]
    have hcurrent : q.isCurrent h = true := by
      unfold isCurrent
      revert hstale
      cases q.includeAllVersions <;> simp
    -- a deleted document takes its link out again, which nothing has put in
    by_cases hdeleted : (!q.includeAllVersions && h.isDeleted && !q.includeDeleted) = true
    · rw [if_pos hdeleted]
      have hvalid : q.isValid h = false := by
        unfold isValid
        revert hdeleted
        cases q.includeAllVersions <;> cases h.isDeleted <;> cases q.includeDeleted <;> simp
      have hpass : q.passes populateResponse h = false := by
        cases populateResponse <;> simp [passes, isIncluded, hvalid]
      have hkey : q.key h = h.link := by
        unfold key
        revert hdeleted
        cases q.includeAllVersions <;> simp
      rw [hpass, ← hkey, List.erase_of_not_mem (hnew hcurrent)]
      rfl
    · rw [if_neg hdeleted]
      have hvalid : q.isValid h = true := by
        unfold isValid
        rw [hcurrent]
        revert hdeleted
        cases q.includeAllVersions <;> cases h.isDeleted <;> cases q.includeDeleted <;> simp
      rw [hinsert hcurrent]
      cases populateResponse with
      | false => simp [passes, hvalid]
      | true =>
          by_cases howner : (q.ownerSelection && !h.isOwner) = true
          · have hpass : q.passes true h = false := by
              simp only [passes, isIncluded, hvalid, if_true]
              revert howner
              cases q.ownerSelection <;> cases h.isOwner <;> simp
            simp [howner, hpass]
          · have hpass : q.passes true h = true := by
              simp only [passes, isIncluded, hvalid, if_true]
              revert howner
              cases q.ownerSelection <;> cases h.isOwner <;> simp
            simp [howner, hpass]

/-- The links that are there are not those of the hits to come. -/
def Apart (uniques : List String) (hits : List Hit) : Prop :=
  ∀ h ∈ hits, q.isCurrent h = true → q.key h ∉ uniques

variable {q}

theorem Distinct.tail {h : Hit} {hits : List Hit} (hd : q.Distinct (h :: hits)) :
    q.Distinct hits := by
  refine hd.sublist (List.Sublist.map _ ?_)
  exact (List.sublist_cons_self h hits).filter _

theorem Distinct.sublist {hits hits' : List Hit} (hd : q.Distinct hits)
    (hs : hits'.Sublist hits) : q.Distinct hits' :=
  List.Nodup.sublist ((hs.filter _).map _) hd

theorem Apart.visit {uniques : List String} {h : Hit} {hits : List Hit}
    (ha : q.Apart uniques (h :: hits)) (hd : q.Distinct (h :: hits)) (populateResponse : Bool) :
    q.Apart (if q.passes populateResponse h then uniques ++ [q.key h] else uniques) hits := by
  intro h' hh' hc'
  have hold := ha h' (List.mem_cons_of_mem _ hh') hc'
  split_ifs with hpass
  · have hc := q.isCurrent_of_passes hpass
    intro hmem
    rcases List.mem_append.mp hmem with hmem | hmem
    · exact hold hmem
    · have hnd := hd
      rw [Distinct, List.filter_cons_of_pos hc, List.map_cons, List.nodup_cons] at hnd
      refine hnd.1 (List.mem_map.mpr ⟨h', List.mem_filter.mpr ⟨hh', hc'⟩, ?_⟩)
      exact List.mem_singleton.mp hmem
  · exact hold

/-- `processQueryResults` visits hits until it has enough links. -/
theorem processQueryResults_eq (populateResponse : Bool) (resultLimit : Nat) (hits : List Hit) :
    ∀ uniques : List String, q.Apart uniques hits → q.Distinct hits →
      q.processQueryResults resultLimit populateResponse uniques hits =
        (uniques ++ ((hits.filter (q.passes populateResponse)).take
            (resultLimit - uniques.length)).map q.key,
          countUntil (q.passes populateResponse) (resultLimit - uniques.length) hits) := by
  induction hits with
  | nil =>
      intro uniques _ _
      cases hn : resultLimit - uniques.length <;> simp [processQueryResults, countUntil]
  | cons h hits ih =>
      intro uniques ha hd
      rw [processQueryResults]
      split_ifs with hfull
      · have hzero : resultLimit - uniques.length = 0 := by omega
        simp [hzero, countUntil]
      · obtain ⟨n, hn⟩ : ∃ n, resultLimit - uniques.length = n + 1 :=
          ⟨resultLimit - uniques.length - 1, by omega⟩
        rw [q.visit_eq populateResponse (ha h List.mem_cons_self), hn, countUntil,
          ih _ (ha.visit hd populateResponse) hd.tail]
        cases hpass : q.passes populateResponse h with
        | true =>
            have hn' : resultLimit - (uniques ++ [q.key h]).length = n := by
              rw [List.length_append, List.length_singleton]
              omega
            rw [if_pos rfl, hn', if_pos rfl, List.filter_cons_of_pos hpass]
            simp
        | false => simp [hn, hpass]

/-- Without a limit. -/
theorem unpaginated_eq {hits : List Hit} (hd : q.Distinct hits) (offset : Nat) :
    q.unpaginated hits offset = (q.results hits).drop offset := by
  have hfold : ∀ (hits : List Hit) (uniques : List String), q.Apart uniques hits →
      q.Distinct hits → hits.foldl (q.visit true) uniques = uniques ++ q.results hits := by
    intro hits
    induction hits with
    | nil =>
        intro uniques _ _
        simp [results]
    | cons h hits ih =>
        intro uniques ha hd
        rw [List.foldl_cons, q.visit_eq true (ha h List.mem_cons_self),
          ih _ (ha.visit hd true) hd.tail]
        cases hpass : q.isIncluded h with
        | true => simp [passes, results, hpass]
        | false => simp [passes, results, hpass]
  rw [unpaginated, hfold hits [] (by simp [Apart]) hd, List.nil_append]

/-! ## Searching -/

theorem remaining_bottom (hits : List Hit) (after : Option Nat) {visited : Nat}
    (hv : 0 < visited) :
    remaining hits (bottom after visited) = (remaining hits after).drop visited := by
  unfold bottom
  rw [if_neg hv.ne']
  cases after with
  | none =>
      show hits.drop (visited - 1 + 1) = hits.drop visited
      rw [Nat.sub_add_cancel hv]
  | some n =>
      show hits.drop (n + visited + 1) = (hits.drop (n + 1)).drop visited
      rw [List.drop_drop]
      congr 1
      omega

theorem searchAfter_eq {hits : List Hit} {after : Option Nat} {numHits : Int} (h : 0 < numHits) :
    searchAfter hits after numHits = .ok ((remaining hits after).take numHits.toNat) :=
  if_neg (not_le.mpr h)

theorem remaining_sublist (hits : List Hit) (after : Option Nat) :
    (remaining hits after).Sublist hits := by
  cases after with
  | none => exact .refl _
  | some n => exact List.drop_sublist _ _

theorem distinct_take {hits : List Hit} (hd : q.Distinct hits) (after : Option Nat) (n : Nat) :
    q.Distinct ((remaining hits after).take n) :=
  hd.sublist ((List.take_sublist _ _).trans (remaining_sublist hits after))

/-- The look-ahead finds out whether a hit is left that is valid. -/
theorem checkNextPageHasEntry_eq {hits : List Hit} (hd : q.Distinct hits) {count : Int}
    (hcount : 0 < count) : ∀ fuel n : Nat, (remaining hits (some n)).length < fuel →
      q.checkNextPageHasEntry hits count fuel (some n) =
        .ok ((remaining hits (some n)).any q.isValid)
  | 0, n, hfuel => absurd hfuel (Nat.not_lt_zero _)
  | fuel + 1, n, hfuel => by
      have hpos : 0 < count.toNat := by omega
      set rest := remaining hits (some n) with hrest
      rw [checkNextPageHasEntry, searchAfter_eq hcount, ← hrest]
      show (if rest.take count.toNat = [] then _ else _) = _
      by_cases hnil : rest = []
      · simp [hnil]
        rfl
      · have hfound : rest.take count.toNat ≠ [] := by
          simpa [List.take_eq_nil_iff, hpos.ne'] using hnil
        rw [if_neg hfound]
        have hprocess := processQueryResults_eq (q := q) false 1 (rest.take count.toNat) []
          (by simp [Apart]) (distinct_take hd _ _)
        have hpasses : q.passes false = q.isValid := rfl
        rw [hpasses, List.nil_append, List.length_nil, Nat.sub_zero] at hprocess
        rw [hprocess]
        show (if (((rest.take count.toNat).filter q.isValid).take 1).map q.key ≠ [] then _
          else _) = _
        -- an entry is on this page of hits or behind it
        have hsplit : rest.any q.isValid = ((rest.take count.toNat).any q.isValid ||
            (rest.drop count.toNat).any q.isValid) := by
          rw [← List.any_append, List.take_append_drop]
        cases hany : (rest.take count.toNat).any q.isValid with
        | true =>
            have hne : (rest.take count.toNat).filter q.isValid ≠ [] := by
              obtain ⟨h, hmem, hvalid⟩ := List.any_eq_true.mp hany
              exact List.ne_nil_of_mem (List.mem_filter.mpr ⟨hmem, hvalid⟩)
            rw [if_pos (by simpa [List.map_eq_nil_iff, List.take_eq_nil_iff] using hne), hsplit,
              hany]
            rfl
        | false =>
            have hnone : (rest.take count.toNat).filter q.isValid = [] := by
              rw [List.filter_eq_nil_iff]
              exact fun h hmem hvalid => by simpa [hvalid] using List.any_eq_false.mp hany h hmem
            have hall : countUntil q.isValid 1 (rest.take count.toNat) =
                (rest.take count.toNat).length := countUntil_eq_length _ (by simp [hnone])
            have hlen : 0 < (rest.take count.toNat).length := List.length_pos_iff.mpr hfound
            rw [if_neg (by simp [hnone]), hall]
            have hbottom : bottom (some n) (rest.take count.toNat).length =
                some (n + (rest.take count.toNat).length) := if_neg hlen.ne'
            have hdrop : remaining hits (some (n + (rest.take count.toNat).length)) =
                rest.drop count.toNat := by
              rw [← hbottom, remaining_bottom hits (some n) hlen, ← hrest, List.length_take]
              rcases le_total count.toNat rest.length with hle | hle
              · rw [min_eq_left hle]
              · rw [min_eq_right hle, List.drop_length, List.drop_eq_nil_of_le hle]
            rw [hbottom, checkNextPageHasEntry_eq hd hcount _ _ (by
              rw [hdrop, List.length_drop]
              have := List.length_pos_iff.mpr hnil
              omega), hdrop, hsplit, hany, Bool.false_or]

/-! ## A page -/

theorem int_eq {x : Int} (h : 0 ≤ x) (h' : x < 2 ^ 31) : int x = x := by
  unfold int
  rw [Int.bmod_eq_of_le_mul_two] <;> omega

theorem skip_eq (links : List String) (offset : Nat) :
    skip links offset = (links.drop offset, offset - links.length) := by
  unfold skip
  split_ifs with h
  · rw [List.drop_eq_nil_of_le h.le]
  · rw [Nat.sub_eq_zero_of_le (not_lt.mp h)]

theorem results_append (hits hits' : List Hit) :
    q.results (hits ++ hits') = q.results hits ++ q.results hits' := by
  simp [results]

/-- No hit count overflows. -/
structure Bounded (q : Spec) (offset : Nat) : Prop where
  count_pos : 0 < q.count
  limit_pos : 0 < q.queryPageResultLimit
  count_lt : q.count < 2 ^ 30
  limit_lt : q.queryPageResultLimit < 2 ^ 30
  offset_lt : max q.count q.queryPageResultLimit + offset < 2 ^ 31

/-- How a page continues with the links and the offset that its loop has: `after'` and `offset'`
are what the next page gets. -/
structure Continues (q : Spec) (hits : List Hit) (after : Option Nat) (links : List String)
    (offset : Nat) (page : Page) (after' : Option Nat) (offset' : Nat) : Prop where
  accounts : page.links ++ (q.results (remaining hits after')).drop offset' =
    links ++ (q.results (remaining hits after)).drop offset
  length_le : page.links.length ≤ q.count
  next : page.next =
    if (remaining hits after').any q.isValid then some (after', offset') else none
  shorter : remaining hits after' = [] ∨
    (remaining hits after').length < (remaining hits after).length
  offset_le : offset' ≤ offset
  full : page.links.length = q.count → offset' = 0 ∧
    ∃ l h, remaining hits after = l ++ h :: remaining hits after' ∧ q.isIncluded h = true
  ends : q.count ≤ q.queryPageResultLimit →
    remaining hits after' = [] ∨ page.links.length = q.count

/-- What one iteration does to the links, the offset and the hits that are left. -/
structure Iterates (q : Spec) (hits : List Hit) (after : Option Nat) (links : List String)
    (offset : Nat) (numHits : Nat) (links' : List String) (offset' visited : Nat) : Prop where
  accounts : links' ++ (q.results ((remaining hits after).drop visited)).drop offset' =
    links ++ (q.results (remaining hits after)).drop offset
  length_le : links'.length ≤ q.count
  offset_le : offset' ≤ offset
  offset_eq : links' ≠ [] → offset' = 0
  visited_pos : remaining hits after ≠ [] → 0 < visited
  full : q.count ≤ links'.length → offset' = 0 ∧
    ∃ l h, remaining hits after = l ++ h :: (remaining hits after).drop visited ∧
      q.isIncluded h = true
  short : ((remaining hits after).take numHits).length < q.count - links.length →
    visited = ((remaining hits after).take numHits).length
  apart : q.Apart links' ((remaining hits after).drop visited)

/-- The results of hits that were visited are not those of hits to come. -/
theorem apart_drop {rest : List Hit} (hd : q.Distinct rest) {links : List String}
    (ha : q.Apart links rest) (visited : Nat) :
    q.Apart (links ++ q.results (rest.take visited)) (rest.drop visited) := by
  intro h hh hc hmem
  rcases List.mem_append.mp hmem with hmem | hmem
  · exact ha h (List.mem_of_mem_drop hh) hc hmem
  · obtain ⟨h', hh', hkey⟩ := List.mem_map.mp hmem
    obtain ⟨hh', hincluded⟩ := List.mem_filter.mp hh'
    have hpass : q.passes true h' = true := hincluded
    have hc' := q.isCurrent_of_passes hpass
    have hnd := hd
    rw [Distinct, ← List.take_append_drop visited rest, List.filter_append, List.map_append,
      List.nodup_append] at hnd
    exact hnd.2.2 _ (List.mem_map_of_mem (List.mem_filter.mpr ⟨hh', hc'⟩)) _
      (List.mem_map_of_mem (List.mem_filter.mpr ⟨hh, hc⟩)) hkey

theorem iterates {hits : List Hit} (hd : q.Distinct hits) (after : Option Nat)
    {links : List String} {offset numHits : Nat} (hlinks : links.length < q.count)
    (hoffset : links ≠ [] → offset = 0) (hnum : 0 < numHits)
    (ha : q.Apart links (remaining hits after)) :
    ∃ links' offset' visited,
      q.processQueryResults q.count true links ((remaining hits after).take numHits) =
        (links ++ q.results ((remaining hits after).take visited), visited) ∧
      skip (links ++ q.results ((remaining hits after).take visited)) offset = (links', offset') ∧
      Iterates q hits after links offset numHits links' offset' visited := by
  have hdrest := hd.sublist (remaining_sublist hits after)
  set rest := remaining hits after with hrest
  set found := rest.take numHits with hfound
  set visited := countUntil q.isIncluded (q.count - links.length) found with hvisited
  have hle : visited ≤ found.length := countUntil_le _ _ _
  have htake : found.take visited = rest.take visited := by
    rw [hfound, List.take_take, min_eq_left]
    exact hle.trans (List.length_take_le _ _)
  have hresults : ((found.filter q.isIncluded).take (q.count - links.length)).map q.key =
      q.results (rest.take visited) := by
    rw [← htake, results, filter_take_countUntil]
  have hlength : (q.results (rest.take visited)).length ≤ q.count - links.length := by
    rw [← hresults, List.length_map]
    exact List.length_take_le _ _
  -- what this iteration shows and what it leaves make up the results
  have hsplit : q.results rest = q.results (rest.take visited) ++ q.results (rest.drop visited) := by
    rw [← results_append, List.take_append_drop]
  have hprocess := processQueryResults_eq (q := q) true q.count found links
    (fun h hh => ha h (List.mem_of_mem_take hh)) (hdrest.sublist (List.take_sublist _ _))
  have hpasses : q.passes true = q.isIncluded := rfl
  rw [hpasses, hresults] at hprocess
  refine ⟨_, _, visited, hprocess, skip_eq _ _, ?_⟩
  set shown := links ++ q.results (rest.take visited) with hshown
  have hshown_le : shown.length ≤ q.count := by
    rw [hshown, List.length_append]
    omega
  refine
    { accounts := ?_
      length_le := by
        rw [List.length_drop]
        omega
      offset_le := Nat.sub_le _ _
      offset_eq := ?_
      visited_pos := fun hne => ?_
      full := fun hfull => ?_
      short := fun hshort => ?_
      apart := ?_ }
  · rw [hsplit]
    by_cases hnil : links = []
    · rw [hshown, hnil, List.nil_append, List.nil_append, List.drop_append]
    · rw [hoffset hnil, Nat.zero_sub, List.drop_zero, List.drop_zero, List.drop_zero, hshown,
        List.append_assoc]
  · intro hne
    have : offset < shown.length := by
      by_contra hge
      exact hne (List.drop_eq_nil_of_le (not_lt.mp hge))
    omega
  · refine countUntil_pos _ (by omega) ?_
    simpa [hfound, List.take_eq_nil_iff, hnum.ne'] using hne
  · -- a full page has skipped nothing in this iteration
    rw [List.length_drop] at hfull
    have hzero : offset = 0 := by omega
    have henough : q.count - links.length ≤ (found.filter q.isIncluded).length := by
      have hlen : (q.results (rest.take visited)).length = q.count - links.length := by
        rw [hshown, List.length_append] at hfull
        omega
      rw [← hresults, List.length_map, List.length_take] at hlen
      omega
    obtain ⟨l, h, hl, hh⟩ := exists_last_of_countUntil q.isIncluded (by omega) henough
    refine ⟨by omega, l, h, ?_, hh⟩
    have hdrop : rest.drop visited = found.drop visited ++ rest.drop numHits := by
      conv_lhs => rw [← List.take_append_drop numHits rest, ← hfound]
      rw [List.drop_append_of_le_length hle]
    rw [hdrop, ← List.cons_append, ← List.append_assoc, ← hl, hfound, List.take_append_drop]
  · refine countUntil_eq_length _ (lt_of_le_of_lt ?_ hshort)
    exact List.length_filter_le _ _
  · intro h hh hc hmem
    exact apart_drop hdrest ha visited h hh hc (List.mem_of_mem_drop hmem)

section

variable {hits : List Hit} {after : Option Nat} {links links' : List String}
  {offset offset' numHits visited : Nat}

theorem Iterates.shorter (hit : Iterates q hits after links offset numHits links' offset' visited)
    (hnil : remaining hits after ≠ []) :
    (remaining hits (bottom after visited)).length < (remaining hits after).length := by
  have hv := hit.visited_pos hnil
  rw [remaining_bottom hits after hv, List.length_drop]
  have := List.length_pos_iff.mpr hnil
  omega

/-- The loop ends because no hit is left. -/
theorem Iterates.continues_nil
    (hit : Iterates q hits after links offset numHits links' offset' visited)
    (hnil : remaining hits after = []) :
    Continues q hits after links offset ⟨links', none⟩ after offset' where
  accounts := by
    have haccounts := hit.accounts
    rw [hnil, List.drop_nil] at haccounts
    rw [hnil]
    exact haccounts
  length_le := hit.length_le
  next := by simp [hnil]
  shorter := Or.inl hnil
  offset_le := hit.offset_le
  full hfull := by
    obtain ⟨-, l, h, hl, -⟩ := hit.full hfull.ge
    rw [hnil] at hl
    simp at hl
  ends _ := Or.inl hnil

/-- The loop ends because the page is full, or because Lucene returned fewer hits than there is
room for. -/
theorem Iterates.continues_stop
    (hit : Iterates q hits after links offset numHits links' offset' visited)
    (hnil : remaining hits after ≠ [])
    (hregime : q.count ≤ q.queryPageResultLimit → q.count ≤ numHits)
    (hstop : q.count ≤ links'.length ∨
      ((remaining hits after).take numHits).length < q.count - links.length) :
    Continues q hits after links offset
      ⟨links', if (remaining hits (bottom after visited)).any q.isValid then
        some (bottom after visited, offset') else none⟩ (bottom after visited) offset' where
  accounts := by
    rw [remaining_bottom hits after (hit.visited_pos hnil)]
    exact hit.accounts
  length_le := hit.length_le
  next := rfl
  shorter := Or.inr (hit.shorter hnil)
  offset_le := hit.offset_le
  full := by
    intro hfull
    rw [remaining_bottom hits after (hit.visited_pos hnil)]
    exact hit.full hfull.ge
  ends := by
    intro hlimit
    by_cases hfull : q.count ≤ links'.length
    · exact Or.inr (le_antisymm hit.length_le hfull)
    · left
      have hshort := hstop.resolve_left hfull
      rw [remaining_bottom hits after (hit.visited_pos hnil), hit.short hshort,
        List.drop_eq_nil_iff]
      have := hregime hlimit
      rw [List.length_take] at hshort ⊢
      omega

/-- The loop goes on. -/
theorem Iterates.continues
    (hit : Iterates q hits after links offset numHits links' offset' visited)
    (hnil : remaining hits after ≠ []) {page : Page} {after'' : Option Nat} {offset'' : Nat}
    (h : Continues q hits (bottom after visited) links' offset' page after'' offset'') :
    Continues q hits after links offset page after'' offset'' := by
  have hbottom := remaining_bottom hits after (hit.visited_pos hnil)
  exact
    { accounts := by
        rw [h.accounts, hbottom]
        exact hit.accounts
      length_le := h.length_le
      next := h.next
      shorter := h.shorter.imp_right fun hlt => hlt.trans (hit.shorter hnil)
      offset_le := h.offset_le.trans hit.offset_le
      full := by
        intro hfull
        obtain ⟨hzero, l, b, hl, hb⟩ := h.full hfull
        refine ⟨hzero, (remaining hits after).take visited ++ l, b, ?_, hb⟩
        rw [List.append_assoc, ← hl, hbottom, List.take_append_drop]
      ends := h.ends }

end

/-- What the loop of a page has to do with its links, its offset and its hit count. -/
structure Running (q : Spec) (hits : List Hit) (offset₀ : Nat) (after : Option Nat)
    (links : List String) (offset : Nat) (hitCount : Int) : Prop where
  links_lt : links.length < q.count
  offset_eq : links ≠ [] → offset = 0
  offset_le : offset ≤ offset₀
  apart : q.Apart links (remaining hits after)
  pos : 0 < hitCount
  le_max : hitCount ≤ max q.count q.queryPageResultLimit
  enough : q.count ≤ q.queryPageResultLimit → q.count ≤ hitCount

theorem pageLoop_spec {hits : List Hit} (hd : q.Distinct hits) {offset₀ : Nat}
    (hb : q.Bounded offset₀) :
    ∀ (fuel : Nat) (after : Option Nat) (links : List String) (offset : Nat) (hitCount : Int),
      Running q hits offset₀ after links offset hitCount →
      (remaining hits after).length < fuel →
      ∃ page after' offset',
        q.pageLoop hits fuel after links offset (q.count - links.length) hitCount = .ok page ∧
          Continues q hits after links offset page after' offset'
  | 0, _, _, _, _, _, hfuel => absurd hfuel (Nat.not_lt_zero _)
  | fuel + 1, after, links, offset, hitCount, hrun, hfuel => by
      obtain ⟨hcount_pos, hlimit_pos, hcount_lt, hlimit_lt, hoffset_lt⟩ := hb
      obtain ⟨hlinks, hoffset, hle, ha, hpos, hmax, hregime⟩ := hrun
      have hnum : 0 < hitCount.toNat := by omega
      obtain ⟨links', offset', visited, hprocess, hskip, hit⟩ :=
        iterates hd after hlinks hoffset hnum ha
      have hoffset' := hit.offset_le
      rw [pageLoop, searchAfter_eq hpos]
      simp only [bind, Except.bind, hprocess, hskip]
      -- the search found nothing more, the page is full, or the loop goes on
      by_cases hnil : remaining hits after = []
      · exact ⟨_, after, offset', by simp [hnil, pure, Except.pure], hit.continues_nil hnil⟩
      · have hfound : (remaining hits after).take hitCount.toNat ≠ [] := by
          simpa [List.take_eq_nil_iff, hnum.ne'] using hnil
        have hv := hit.visited_pos hnil
        rw [if_neg hfound]
        by_cases hstop : q.count ≤ links'.length ∨
            ((remaining hits after).take hitCount.toNat).length < q.count - links.length
        · obtain ⟨n, hn⟩ : ∃ n, bottom after visited = some n := by
            unfold bottom
            rw [if_neg hv.ne']
            cases after <;> exact ⟨_, rfl⟩
          have hint : int (hitCount + offset') = hitCount + offset' :=
            int_eq (by omega) (by omega)
          have hcont := hit.continues_stop hnil (fun hlimit => by have := hregime hlimit; omega)
            hstop
          have hcheck := checkNextPageHasEntry_eq hd (show 0 < hitCount + offset' by omega)
            (hits.length + 1) n (Nat.lt_succ_of_le (remaining_sublist hits (some n)).length_le)
          rw [hn] at hcont
          rw [if_pos hstop, hint, hn, hcheck]
          exact ⟨_, some n, offset', rfl, hcont⟩
        · obtain ⟨hnotfull, hlong⟩ := not_or.mp hstop
          have hmore : 0 < q.count - links'.length := by omega
          -- by the bounds on the limits the hit count can be doubled without an overflow
          have hint : int (2 * hitCount) = 2 * hitCount := int_eq (by omega) (by omega)
          rw [if_neg hstop, if_pos hmore, hint]
          obtain ⟨page, after', offset'', hpage, hcont⟩ := pageLoop_spec hd
            ⟨hcount_pos, hlimit_pos, hcount_lt, hlimit_lt, hoffset_lt⟩ fuel (bottom after visited)
            links' offset' (min q.queryPageResultLimit (2 * hitCount))
            { links_lt := by omega
              offset_eq := hit.offset_eq
              offset_le := hoffset'.trans hle
              apart := by
                rw [remaining_bottom hits after hv]
                exact hit.apart
              pos := by omega
              le_max := by omega
              enough := by
                intro hlimit
                have := hregime hlimit
                omega }
            (Nat.lt_of_lt_of_le (hit.shorter hnil) (Nat.le_of_lt_succ hfuel))
          exact ⟨page, after', offset'', hpage, hit.continues hnil hcont⟩

theorem Bounded.mono {offset offset' : Nat} (h : q.Bounded offset) (hle : offset' ≤ offset) :
    q.Bounded offset' :=
  ⟨h.count_pos, h.limit_pos, h.count_lt, h.limit_lt, by have := h.offset_lt; omega⟩

theorem queryPage_spec {hits : List Hit} (hd : q.Distinct hits) {offset : Nat}
    (hb : q.Bounded offset) (after : Option Nat) :
    ∃ page after' offset', q.queryPage hits after offset = .ok page ∧
      Continues q hits after [] offset page after' offset' := by
  obtain ⟨hcount_pos, hlimit_pos, hcount_lt, hlimit_lt, -⟩ := id hb
  have hint : int (2 * q.count) = 2 * q.count := int_eq (by omega) (by omega)
  refine pageLoop_spec hd hb (hits.length + 1) after [] offset q.hitCount ?_
    (Nat.lt_succ_of_le (remaining_sublist hits after).length_le)
  refine ⟨hcount_pos, fun h => absurd rfl h, le_rfl, by simp [Apart], ?_, ?_, fun hlimit => ?_⟩
  all_goals
    unfold hitCount
    split_ifs
    · omega
    · omega

/-! ## All pages -/

variable (q)

/-- After the last result there is a hit that only the look-ahead counts. -/
def Trails (hits : List Hit) : Prop :=
  ∃ l, l <:+ hits ∧ q.results l = [] ∧ l.any q.isValid = true

variable {q}

theorem results_eq_nil_of_suffix {l l' : List Hit} (h : l <:+ l') (hnil : q.results l' = []) :
    q.results l = [] := by
  obtain ⟨t, rfl⟩ := h
  rw [results_append] at hnil
  exact (List.append_eq_nil_iff.mp hnil).2

theorem results_eq_nil_of_any {hits : List Hit} (h : hits.any q.isValid = false) :
    q.results hits = [] := by
  unfold results
  rw [List.map_eq_nil_iff, List.filter_eq_nil_iff]
  intro b hb hincluded
  exact List.any_eq_false.mp h b hb (q.isValid_of_isIncluded hincluded)

/-- Hits after the last result are after every result. -/
theorem Trails.suffix {hits rest : List Hit} (h : q.Trails hits) (hs : rest <:+ hits)
    (hne : q.results rest ≠ []) : q.Trails rest := by
  obtain ⟨l, hl, hnil, hany⟩ := h
  rcases List.suffix_or_suffix_of_suffix hl hs with hl' | hl'
  · exact ⟨l, hl', hnil, hany⟩
  · exact absurd (results_eq_nil_of_suffix hl' hnil) hne

/-- If a result comes just before the rest then hits after the last result are in the rest. -/
theorem Trails.any {hits l rest : List Hit} {b : Hit} (h : q.Trails hits)
    (hs : hits = l ++ b :: rest) (hb : q.isIncluded b = true) : rest.any q.isValid = true := by
  have hne : q.results (b :: rest) ≠ [] := by simp [results, hb]
  obtain ⟨l', hl', hnil, hany⟩ := h.suffix ⟨l, hs.symm⟩ hne
  rcases List.suffix_cons_iff.mp hl' with rfl | hl'
  · exact absurd hnil hne
  · obtain ⟨h', hh', hvalid⟩ := List.any_eq_true.mp hany
    exact List.any_eq_true.mpr ⟨h', hl'.subset hh', hvalid⟩

/-- The results of a page and of those after it. -/
theorem follow_spec {hits : List Hit} (hd : q.Distinct hits) :
    ∀ (fuel : Nat) (after : Option Nat) (offset : Nat), q.Bounded offset →
      (remaining hits after).length < fuel → ∃ pages, q.follow hits fuel after offset = .ok pages ∧
        pages ≠ [] ∧ pages.flatten = (q.results (remaining hits after)).drop offset ∧
        (∀ page ∈ pages, page.length ≤ q.count) ∧
        (q.count ≤ q.queryPageResultLimit → ((∀ page ∈ pages, page ≠ []) ↔ pages.flatten ≠ [] ∧
          ¬ (q.count ∣ pages.flatten.length ∧ q.Trails (remaining hits after))))
  | 0, _, _, _, hfuel => absurd hfuel (Nat.not_lt_zero _)
  | fuel + 1, after, offset, hb, hfuel => by
      obtain ⟨page, after', offset', hpage, hcont⟩ := queryPage_spec hd hb after
      have haccounts := hcont.accounts
      rw [List.nil_append] at haccounts
      rw [follow, hpage]
      simp only [bind, Except.bind, hcont.next]
      cases hany : (remaining hits after').any q.isValid with
      | false =>
          rw [results_eq_nil_of_any hany, List.drop_nil, List.append_nil] at haccounts
          refine ⟨[page.links], rfl, by simp, by simpa using haccounts, by simpa using hcont.length_le,
            fun hlimit => ?_⟩
          simp only [List.mem_singleton, forall_eq, List.flatten_singleton, ne_eq]
          refine ⟨fun hne => ⟨hne, ?_⟩, fun h => h.1⟩
          rintro ⟨hdvd, htrails⟩
          -- a single full page ends with a result
          have hpos := List.length_pos_iff.mpr hne
          have hlen := le_antisymm hcont.length_le (Nat.le_of_dvd hpos hdvd)
          obtain ⟨-, l, b, hl, hincluded⟩ := hcont.full hlen
          rw [htrails.any hl hincluded] at hany
          cases hany
      | true =>
          have hne : remaining hits after' ≠ [] := by
            intro hnil
            simp [hnil] at hany
          have hshorter := hcont.shorter.resolve_left hne
          obtain ⟨pages, hpages, hpages_ne, hflatten, hlength, hiff⟩ :=
            follow_spec hd fuel after' offset' (hb.mono hcont.offset_le)
              (Nat.lt_of_lt_of_le hshorter (Nat.le_of_lt_succ hfuel))
          rw [if_pos rfl]
          simp only [hpages]
          refine ⟨page.links :: pages, rfl, by simp, ?_, ?_, fun hlimit => ?_⟩
          · rw [List.flatten_cons, hflatten, haccounts]
          · simpa using ⟨hcont.length_le, hlength⟩
          · have hfull := (hcont.ends hlimit).resolve_left hne
            obtain ⟨rfl, l, b, hl, hincluded⟩ := hcont.full hfull
            rw [List.drop_zero] at hflatten
            have hpage_ne : page.links ≠ [] := by
              intro hnil
              rw [hnil] at hfull
              exact absurd hfull.symm hb.count_pos.ne'
            have hsuffix : remaining hits after' <:+ remaining hits after :=
              ⟨l ++ [b], by rw [hl]; simp⟩
            have hdvd : q.count ∣ (page.links :: pages).flatten.length ↔
                q.count ∣ pages.flatten.length := by
              rw [List.flatten_cons, List.length_append, hfull]
              exact Nat.dvd_add_right (dvd_refl _)
            have hflatten_ne : (page.links :: pages).flatten ≠ [] := by
              simp [hpage_ne]
            rw [List.forall_mem_cons, hiff hlimit, hdvd]
            constructor
            · rintro ⟨-, hrest_ne, hnot⟩
              refine ⟨hflatten_ne, fun ⟨hdvd', htrails⟩ => hnot ⟨hdvd', ?_⟩⟩
              rw [hflatten] at hrest_ne
              exact htrails.suffix hsuffix hrest_ne
            · rintro ⟨-, hnot⟩
              refine ⟨hpage_ne, fun hnil => ?_, fun ⟨hdvd', l', hl', hnil, hany'⟩ =>
                hnot ⟨hdvd', l', hl'.trans hsuffix, hnil, hany'⟩⟩
              -- nothing but hits that the look-ahead counts is left
              rw [hflatten] at hnil
              exact hnot ⟨by rw [hflatten, hnil]; exact dvd_zero _, _, hsuffix, hnil, hany⟩

/-- A result limit whose double is no `int`: the first page asks for a negative number of
hits. -/
theorem not_complete_of_large {hits : List Hit} {offset : Nat}
    (hall : q.includeAllVersions = false) (hlarge : 2 ^ 30 ≤ q.count)
    (hlt : q.count < 2 ^ 31 - 1) (hne : hits ≠ []) : ¬ q.Complete hits offset := by
  rintro ⟨pages, hpages, -, -⟩
  have hneg : q.hitCount ≤ 0 := by
    have hint : int (2 * q.count) = 2 * q.count - 2 ^ 32 := by
      unfold int
      rw [Int.bmod_def]
      omega
    unfold hitCount
    rw [hall, hint]
    simp only [Bool.false_eq_true, if_false]
    omega
  have hfound : (remaining hits none).take (1 : Int).toNat ≠ [] := by
    simpa [remaining, List.take_eq_nil_iff] using hne
  obtain ⟨found, hsearch, hpages⟩ := bind_eq_ok.mp hpages
  rw [searchAfter_eq (by omega)] at hsearch
  cases hsearch
  have hpages : q.follow hits (hits.length + 1) none offset = .ok pages := by
    rwa [if_neg hfound] at hpages
  obtain ⟨page, hpage, -⟩ := bind_eq_ok.mp hpages
  obtain ⟨found, hsearch, -⟩ := bind_eq_ok.mp hpage
  rw [searchAfter, if_pos hneg] at hsearch
  cases hsearch

theorem paginate_spec {hits : List Hit} {offset : Nat} (hb : q.Bounded offset)
    (hd : q.Distinct hits) :
    ∃ pages, q.paginate hits offset = .ok pages ∧
      pages.flatten = q.unpaginated hits offset ∧ (∀ page ∈ pages, page.length ≤ q.count) ∧
      (q.count ≤ q.queryPageResultLimit → ((∀ page ∈ pages, page ≠ []) ↔ hits = [] ∨
        q.unpaginated hits offset ≠ [] ∧
          ¬ (q.count ∣ (q.unpaginated hits offset).length ∧ q.Trails hits))) := by
  unfold paginate
  rw [searchAfter_eq (by omega), unpaginated_eq hd]
  simp only [bind, Except.bind]
  by_cases hnil : hits = []
  · exact ⟨[], by simp [hnil, remaining, pure, Except.pure], by simp [hnil, results], by simp,
      by simp [hnil]⟩
  · have hfound : (remaining hits none).take (1 : Int).toNat ≠ [] := by
      simpa [remaining, List.take_eq_nil_iff] using hnil
    obtain ⟨pages, hpages, -, hflatten, hlength, hiff⟩ :=
      follow_spec hd (hits.length + 1) none offset hb (Nat.lt_succ_self _)
    refine ⟨pages, by rw [if_neg hfound, hpages], hflatten, hlength, fun hlimit => ?_⟩
    have hempty := hiff hlimit
    rw [hflatten] at hempty
    simpa [hnil, remaining] using hempty

end Spec

end Xenon.Index.Pages
