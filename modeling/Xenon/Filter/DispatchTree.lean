import Xenon.Filter.Dispatch

/-!
# What the dispatch tree computes

Every term that can be dispatched on is peeled off at some depth, and every
other term is left to a `ConjunctionEvaluator`. So the tree computes the
disjunction of conjunctions with the verdict `judged` on each term, provided
that no conjunction object occurs twice in the normal form.
-/

namespace Xenon.Filter

open Xenon.QueryTask

/-! ## Peeling a term off -/

theorem unskipped_markTerm (t : Term QueryTerm) :
    ∀ (ts : List (Term QueryTerm)) (skip : List Bool), skip.length = ts.length →
      unskipped ts (markTerm t ts skip) = (unskipped ts skip).erase t
  | [], [], _ => rfl
  | u :: us, b :: bs, h => by
      have ih := unskipped_markTerm t us bs (Nat.succ.inj h)
      cases b with
      | true => simpa [markTerm, unskipped] using ih
      | false =>
          by_cases hu : u = t
          · simp [markTerm, unskipped, hu]
          · simp [markTerm, unskipped, hu, ih, List.erase_cons_tail]

theorem length_markTerm (t : Term QueryTerm) :
    ∀ (ts : List (Term QueryTerm)) (skip : List Bool),
      (markTerm t ts skip).length = skip.length
  | [], _ => rfl
  | _ :: _, [] => rfl
  | u :: us, b :: bs => by
      rw [markTerm]
      split_ifs
      · rfl
      · simp [length_markTerm t us bs]

theorem unskipped_replicate (ts : List (Term QueryTerm)) :
    unskipped ts (List.replicate ts.length false) = ts := by
  induction ts with
  | nil => rfl
  | cons t ts ih => simp [unskipped, List.replicate_succ, ih]

theorem unskipped_sublist : ∀ (ts : List (Term QueryTerm)) (skip : List Bool),
    (unskipped ts skip).Sublist ts
  | [], [] => .refl _
  | [], _ :: _ => .refl _
  | _ :: _, [] => .refl _
  | t :: ts, b :: bs => by
      have ih := unskipped_sublist ts bs
      cases b with
      | true => exact ih.cons t
      | false => exact ih.cons_cons t

/-- The `skip` array of a conjunction is as long as its terms. -/
def Heap.Fits (h : Heap) (c : Conj) : Prop :=
  ∀ skip, h c.id = some skip → skip.length = c.terms.length

theorem Heap.iterate_subset (h : Heap) (c : Conj) : h.iterate c ⊆ c.terms := by
  unfold Heap.iterate
  cases h c.id with
  | none => exact List.Subset.refl _
  | some skip => exact (unskipped_sublist c.terms skip).subset

theorem Heap.iterate_congr {h h' : Heap} {c : Conj} (heq : h' c.id = h c.id) :
    h'.iterate c = h.iterate c := by
  simp [Heap.iterate, heq]

theorem Heap.iterate_skipTerm {h : Heap} {c : Conj} (hfits : h.Fits c) (t : Term QueryTerm) :
    (h.skipTerm c t).iterate c = (h.iterate c).erase t := by
  simp only [Heap.iterate, Heap.skipTerm, Function.update_self]
  cases hskip : h c.id with
  | none =>
      rw [Option.getD_none, unskipped_markTerm t _ _ (by simp), unskipped_replicate]
  | some skip => exact unskipped_markTerm t _ _ (hfits skip hskip)

theorem Heap.fits_skipTerm {h : Heap} {c : Conj} (hfits : h.Fits c) (t : Term QueryTerm) :
    (h.skipTerm c t).Fits c := by
  intro skip hskip
  simp only [Heap.skipTerm, Function.update_self, Option.some.injEq] at hskip
  rw [← hskip, length_markTerm]
  cases h' : h c.id with
  | none => simp
  | some skip => exact hfits skip h'

theorem Heap.skipTerm_other {h : Heap} {c : Conj} {id : Nat} (hne : id ≠ c.id)
    (t : Term QueryTerm) : h.skipTerm c t id = h id :=
  Function.update_of_ne hne _ _

/-! ## Choosing a property -/

theorem mem_addElem {name n : String} (l : List (String × Nat)) :
    n ∈ (addElem name l).map Prod.fst ↔ n = name ∨ n ∈ l.map Prod.fst := by
  induction l with
  | nil => simp [addElem]
  | cons e l ih =>
      unfold addElem
      split_ifs with h
      · subst h
        simp
      · simp only [List.map_cons, List.mem_cons, ih]
        tauto

theorem mem_countElems {n : String} (names : List String) (l : List (String × Nat)) :
    n ∈ (names.foldl (fun l n => addElem n l) l).map Prod.fst ↔
      n ∈ names ∨ n ∈ l.map Prod.fst := by
  induction names generalizing l with
  | nil => simp
  | cons name names ih =>
      rw [List.foldl_cons, ih, mem_addElem, List.mem_cons]
      tauto

/-- The chosen property is one that can be dispatched on. -/
theorem mem_of_findTopPropertyForDispatch {o : HashOrder} {h : Heap} {dnf : List Conj}
    {key : String} (hkey : findTopPropertyForDispatch o h dnf = some key) :
    key ∈ eligibleNames h dnf := by
  obtain ⟨e, he, rfl⟩ := Option.map_eq_some_iff.mp hkey
  have hmem := List.mem_mergeSort.mp (List.mem_of_getLast? he)
  have hmem := (o.values_perm _).mem_iff.mp hmem
  simpa using (mem_countElems _ []).mp (List.mem_map_of_mem hmem)

theorem findTopPropertyForDispatch_eq_none {o : HashOrder} {h : Heap} {dnf : List Conj}
    (hnone : findTopPropertyForDispatch o h dnf = none) : eligibleNames h dnf = [] := by
  have hnil := List.getLast?_eq_none_iff.mp (Option.map_eq_none_iff.mp hnone)
  have hnil := List.length_eq_zero_iff.mpr hnil
  rw [List.length_mergeSort, (o.values_perm _).length_eq] at hnil
  rw [List.eq_nil_iff_forall_not_mem]
  intro n hn
  have := (mem_countElems (n := n) (eligibleNames h dnf) []).mpr (Or.inl hn)
  rw [List.length_eq_zero_iff.mp hnil] at this
  simp at this

/-! ## The table -/

/-- The conjunctions of a table. -/
def tableConjs (table : List (Option String × List Conj)) : List Conj :=
  table.flatMap Prod.snd

theorem perm_addEntry (key : Option String) (c : Conj)
    (table : List (Option String × List Conj)) :
    (tableConjs (addEntry key c table)).Perm (c :: tableConjs table) := by
  induction table with
  | nil => exact .refl _
  | cons e table ih =>
      unfold addEntry
      split_ifs with h
      · simp only [tableConjs, List.flatMap_cons, List.append_assoc]
        exact (List.perm_middle).trans (by simp)
      · simp only [tableConjs, List.flatMap_cons]
        exact (ih.append_left e.2).trans List.perm_middle

theorem keys_addEntry {key : Option String} {c : Conj}
    {table : List (Option String × List Conj)} {k : Option String} :
    k ∈ (addEntry key c table).map Prod.fst ↔ k = key ∨ k ∈ table.map Prod.fst := by
  induction table with
  | nil => simp [addEntry]
  | cons e table ih =>
      unfold addEntry
      split_ifs with h
      · subst h
        simp
      · simp only [List.map_cons, List.mem_cons, ih]
        tauto

theorem nodup_keys_addEntry {key : Option String} {c : Conj}
    {table : List (Option String × List Conj)} (h : (table.map Prod.fst).Nodup) :
    ((addEntry key c table).map Prod.fst).Nodup := by
  induction table with
  | nil => simp [addEntry]
  | cons e table ih =>
      obtain ⟨hnot, htail⟩ := List.nodup_cons.mp h
      unfold addEntry
      split_ifs with hkey
      · exact h
      · refine List.nodup_cons.mpr ⟨?_, ih htail⟩
        rw [keys_addEntry]
        exact not_or.mpr ⟨hkey, hnot⟩

/-- Where an entry of the extended table comes from. -/
theorem mem_addEntry {key : Option String} {c : Conj}
    {table : List (Option String × List Conj)} {e : Option String × List Conj} {c' : Conj}
    (he : e ∈ addEntry key c table) (hc : c' ∈ e.2) :
    (c' = c ∧ e.1 = key) ∨ ∃ e' ∈ table, e'.1 = e.1 ∧ c' ∈ e'.2 := by
  induction table with
  | nil =>
      obtain rfl := List.mem_singleton.mp he
      exact Or.inl ⟨List.mem_singleton.mp hc, rfl⟩
  | cons e₀ table ih =>
      unfold addEntry at he
      split_ifs at he with hkey
      · rcases List.mem_cons.mp he with rfl | he
        · rcases List.mem_append.mp hc with hc | hc
          · exact Or.inr ⟨e₀, List.mem_cons_self, rfl, hc⟩
          · exact Or.inl ⟨List.mem_singleton.mp hc, hkey⟩
        · exact Or.inr ⟨e, List.mem_cons_of_mem _ he, rfl, hc⟩
      · rcases List.mem_cons.mp he with rfl | he
        · exact Or.inr ⟨_, List.mem_cons_self, rfl, hc⟩
        · rcases ih he with h | ⟨e', he', h⟩
          · exact Or.inl h
          · exact Or.inr ⟨e', List.mem_cons_of_mem _ he', h⟩

/-- The loop of `DispatchEvaluator.create` on `key` has sorted the conjunctions
of `dnf` into the table, those it does not handle, and `rest`, which it has not
come to yet. -/
structure Buckets (key : String) (dnf : List Conj) (h₀ : Heap) (rest : List Conj) (h : Heap)
    (table : List (Option String × List Conj)) (unhandled : List Conj) : Prop where
  perm : (tableConjs table ++ unhandled ++ rest).Perm dnf
  keys : (table.map Prod.fst).Nodup
  handled : ∀ e ∈ table, ∀ c ∈ e.2, ∃ t, dispatchTerm key (h₀.iterate c) = some t ∧
    t.term.matchValue = e.1 ∧ h.iterate c = (h₀.iterate c).erase t ∧ h.Fits c
  left : ∀ c ∈ unhandled, dispatchTerm key (h₀.iterate c) = none
  same : ∀ c ∈ unhandled ++ rest, h c.id = h₀ c.id
  frame : ∀ id ∉ dnf.map Conj.id, h id = h₀ id

theorem Buckets.step {key : String} {dnf : List Conj} {h₀ : Heap} {c : Conj} {rest : List Conj}
    {h : Heap} {table : List (Option String × List Conj)} {unhandled : List Conj}
    (b : Buckets key dnf h₀ (c :: rest) h table unhandled)
    (hids : (dnf.map Conj.id).Nodup) (hfits : ∀ c ∈ dnf, h₀.Fits c) {t : Term QueryTerm}
    (ht : dispatchTerm key (h.iterate c) = some t) :
    Buckets key dnf h₀ rest (h.skipTerm c t) (addEntry t.term.matchValue c table) unhandled := by
  have hsame : h c.id = h₀ c.id := b.same c (by simp)
  have hiter : h.iterate c = h₀.iterate c := Heap.iterate_congr hsame
  have hmiddle : (tableConjs table ++ unhandled ++ c :: rest).Perm
      (c :: (tableConjs table ++ unhandled ++ rest)) := List.perm_middle
  have hperm : (tableConjs (addEntry t.term.matchValue c table) ++ unhandled ++ rest).Perm
      (tableConjs table ++ unhandled ++ c :: rest) :=
    (((perm_addEntry _ c table).append_right unhandled).append_right rest).trans hmiddle.symm
  have hmem : c ∈ dnf := b.perm.mem_iff.mp (by simp)
  -- the heap is written for this conjunction only, and no other shares its id
  have hother : ∀ c' ∈ tableConjs table ++ unhandled ++ rest, c'.id ≠ c.id := by
    have hn := ((hmiddle.symm.trans b.perm).map Conj.id).nodup_iff.mpr hids
    rw [List.map_cons, List.nodup_cons] at hn
    intro c' hc' heq
    exact hn.1 (heq ▸ List.mem_map_of_mem hc')
  refine ⟨hperm.trans b.perm, nodup_keys_addEntry b.keys, ?_, b.left, ?_, ?_⟩
  · intro e he c' hc'
    rcases mem_addEntry he hc' with ⟨rfl, hkey⟩ | ⟨e', he', hkey, hc'⟩
    · refine ⟨t, hiter ▸ ht, hkey.symm, ?_, Heap.fits_skipTerm ?_ t⟩
      · rw [Heap.iterate_skipTerm ?_ t, hiter]
        intro skip hskip
        exact hfits c' hmem skip (hsame ▸ hskip)
      · intro skip hskip
        exact hfits c' hmem skip (hsame ▸ hskip)
    · obtain ⟨u, hu, huv, hiter', hfits'⟩ := b.handled e' he' c' hc'
      have hne : c'.id ≠ c.id := hother c' (by
        simp only [tableConjs, List.mem_append, List.mem_flatMap]
        exact Or.inl (Or.inl ⟨e', he', hc'⟩))
      have hskip : h.skipTerm c t c'.id = h c'.id := Heap.skipTerm_other hne t
      refine ⟨u, hu, huv.trans hkey, (Heap.iterate_congr hskip).trans hiter', ?_⟩
      intro skip h'
      exact hfits' skip (hskip ▸ h')
  · intro c' hc'
    have hne : c'.id ≠ c.id := hother c' (by
      simp only [List.mem_append] at hc' ⊢
      tauto)
    rw [Heap.skipTerm_other hne]
    exact b.same c' (by
      simp only [List.mem_append, List.mem_cons] at hc' ⊢
      tauto)
  · intro id hid
    have hne : id ≠ c.id := by
      rintro rfl
      exact hid (List.mem_map_of_mem hmem)
    rw [Heap.skipTerm_other hne]
    exact b.frame id hid

theorem Buckets.skip {key : String} {dnf : List Conj} {h₀ : Heap} {c : Conj} {rest : List Conj}
    {h : Heap} {table : List (Option String × List Conj)} {unhandled : List Conj}
    (b : Buckets key dnf h₀ (c :: rest) h table unhandled)
    (hnone : dispatchTerm key (h.iterate c) = none) :
    Buckets key dnf h₀ rest h table (unhandled ++ [c]) := by
  refine ⟨by simpa using b.perm, b.keys, b.handled, ?_, by simpa using b.same, b.frame⟩
  intro c' hc'
  rcases List.mem_append.mp hc' with hc' | hc'
  · exact b.left c' hc'
  · obtain rfl := List.mem_singleton.mp hc'
    rwa [← Heap.iterate_congr (b.same c' (by simp))]

theorem buckets_bucket {key : String} {dnf : List Conj} {h₀ : Heap}
    (hids : (dnf.map Conj.id).Nodup) (hfits : ∀ c ∈ dnf, h₀.Fits c) :
    ∀ (rest : List Conj) (h : Heap) (table : List (Option String × List Conj))
      (unhandled : List Conj), Buckets key dnf h₀ rest h table unhandled →
        Buckets key dnf h₀ [] (bucket key rest h table unhandled).1
          (bucket key rest h table unhandled).2.1 (bucket key rest h table unhandled).2.2
  | [], _, _, _, b => b
  | c :: rest, h, table, unhandled, b => by
      unfold bucket
      cases ht : dispatchTerm key (h.iterate c) with
      | none => exact buckets_bucket hids hfits rest h table _ (b.skip ht)
      | some t => exact buckets_bucket hids hfits rest _ _ _ (b.step hids hfits ht)

/-! ## Verdicts -/

/-- The verdict of a dispatch table on a term: the text of the property's value is
the match value. -/
def dispatches (d : Described) (t : Term QueryTerm) : Bool :=
  match d.propertyDescriptions t.name with
  | none => false
  | some pd =>
      match toMatchValue (getPropertyValue pd d.document) with
      | none => false
      | some matchAs => t.term.matchValue = some matchAs

/-- The verdict of `ConjunctionEvaluator` on a term. -/
def checks (d : Described) (t : Term QueryTerm) : Bool :=
  match checkTerm d t with
  | .ok b => b
  | .error _ => false

/-- The verdict of the tree. -/
def judged (d : Described) (t : Term QueryTerm) : Bool :=
  if isTermEligibleForDispatch t then dispatches d t else checks d t

def judgedAll (d : Described) (h : Heap) (c : Conj) : Bool := (h.iterate c).all (judged d)

/-- No term that is left to `ConjunctionEvaluator` throws on the document. -/
def NoThrow (d : Described) (cs : List Conj) : Prop :=
  ∀ c ∈ cs, ∀ t ∈ c.terms, isTermEligibleForDispatch t = false → ∃ b, checkTerm d t = .ok b

theorem NoThrow.mono {d : Described} {cs cs' : List Conj} (h : NoThrow d cs)
    (hsub : ∀ c ∈ cs', c ∈ cs) : NoThrow d cs' :=
  fun c hc => h c (hsub c hc)

theorem checks_eq_true {d : Described} {t : Term QueryTerm} :
    checks d t = true ↔ checkTerm d t = .ok true := by
  unfold checks
  cases checkTerm d t <;> simp

/-- An evaluation returns `v` when nothing throws (`safe`), and nothing but `v` in
any case. -/
structure Settles (safe : Prop) (x : Except Failure Bool) (v : Bool) : Prop where
  returns : safe → x = .ok v
  only : ∀ b, x = .ok b → b = v

theorem Settles.of_eq {safe : Prop} {x : Except Failure Bool} {v : Bool} (h : x = .ok v) :
    Settles safe x v where
  returns _ := h
  only b hb := by
    rw [h] at hb
    exact (Except.ok.inj hb).symm

theorem Settles.mono {safe safe' : Prop} {x : Except Failure Bool} {v : Bool}
    (h : Settles safe x v) (hsafe : safe' → safe) : Settles safe' x v :=
  ⟨fun hs => h.returns (hsafe hs), h.only⟩

theorem settles_checkTerms {d : Described} (ts : List (Term QueryTerm)) :
    Settles (∀ t ∈ ts, ∃ b, checkTerm d t = .ok b) (checkTerms d ts) (ts.all (checks d)) := by
  induction ts with
  | nil => exact Settles.of_eq rfl
  | cons t ts ih =>
      cases ht : checkTerm d t with
      | error f =>
          refine ⟨fun hs => ?_, fun b hb => ?_⟩
          · obtain ⟨b, hb⟩ := hs t List.mem_cons_self
            rw [ht] at hb
            cases hb
          · simp [checkTerms, ht, bind, Except.bind] at hb
      | ok v =>
          have hchecks : checks d t = v := by simp [checks, ht]
          have hcons : checkTerms d (t :: ts) = if v then checkTerms d ts else .ok false := by
            simp [checkTerms, ht, bind, Except.bind, pure, Except.pure]
          rw [hcons, List.all_cons, hchecks]
          cases v with
          | false => exact Settles.of_eq rfl
          | true => exact ih.mono fun hs u hu => hs u (List.mem_cons_of_mem _ hu)

theorem evaluate_of_createConjunction {d : Described} {ts : List (Term QueryTerm)}
    {e : Evaluator} (h : createConjunction ts = .ok e) : e.evaluate d = checkTerms d ts := by
  unfold createConjunction at h
  split at h
  · cases h
  · cases ts with
    | nil =>
        cases h
        rfl
    | cons t ts =>
        cases h
        rfl

theorem Settles.cons {safe : Prop} {d : Described} {e : Evaluator} {es : List Evaluator}
    {a b : Bool} (ha : Settles safe (e.evaluate d) a) (hb : Settles safe (anyEvaluates d es) b) :
    Settles safe (anyEvaluates d (e :: es)) (a || b) := by
  cases he : e.evaluate d with
  | error f =>
      refine ⟨fun hs => ?_, fun v hv => ?_⟩
      · have := ha.returns hs
        rw [he] at this
        cases this
      · simp [anyEvaluates, he, bind, Except.bind] at hv
  | ok v =>
      have hcons : anyEvaluates d (e :: es) = if v then .ok true else anyEvaluates d es := by
        simp [anyEvaluates, he, bind, Except.bind, pure, Except.pure]
      rw [hcons, ← ha.only v he]
      cases v with
      | false => exact hb
      | true => exact Settles.of_eq rfl

/-! ## How much is left to peel off -/

/-- The number of terms that can be dispatched on. -/
def eligibleCount (h : Heap) (dnf : List Conj) : Nat :=
  (dnf.map fun c => (h.iterate c).countP isTermEligibleForDispatch).sum

theorem eligibleCount_append (h : Heap) (cs cs' : List Conj) :
    eligibleCount h (cs ++ cs') = eligibleCount h cs + eligibleCount h cs' := by
  simp [eligibleCount]

theorem eligibleCount_perm (h : Heap) {cs cs' : List Conj} (hperm : cs.Perm cs') :
    eligibleCount h cs = eligibleCount h cs' :=
  (hperm.map _).sum_eq

theorem eligibleCount_congr {h h' : Heap} {cs : List Conj}
    (heq : ∀ c ∈ cs, h'.iterate c = h.iterate c) : eligibleCount h' cs = eligibleCount h cs := by
  unfold eligibleCount
  rw [List.map_congr_left fun c hc => by rw [heq c hc]]

theorem eligibleCount_le_of_mem (h : Heap) {table : List (Option String × List Conj)}
    {e : Option String × List Conj} (he : e ∈ table) :
    eligibleCount h e.2 ≤ eligibleCount h (tableConjs table) := by
  obtain ⟨l₁, l₂, rfl⟩ := List.append_of_mem he
  simp only [tableConjs, List.flatMap_append, List.flatMap_cons, eligibleCount_append]
  omega

/-- What a search for a term to dispatch on finds. -/
theorem dispatchTerm_spec {key : String} {ts : List (Term QueryTerm)} {t : Term QueryTerm}
    (h : dispatchTerm key ts = some t) :
    t ∈ ts ∧ isTermEligibleForDispatch t = true ∧ t.name = key := by
  have hp := List.find?_some h
  simp only [Bool.and_eq_true, decide_eq_true_eq] at hp
  exact ⟨List.mem_of_find?_eq_some h, hp⟩

/-- Peeling off leaves strictly less in the table. -/
theorem Buckets.eligibleCount_lt {key : String} {dnf : List Conj} {h₀ h : Heap}
    {table : List (Option String × List Conj)} {unhandled : List Conj}
    (b : Buckets key dnf h₀ [] h table unhandled) (hkey : key ∈ eligibleNames h₀ dnf) :
    eligibleCount h (tableConjs table) + eligibleCount h unhandled < eligibleCount h₀ dnf := by
  have hunhandled : eligibleCount h unhandled = eligibleCount h₀ unhandled :=
    eligibleCount_congr fun c hc => Heap.iterate_congr (b.same c (by simpa using hc))
  have hlt : ∀ c ∈ tableConjs table, (h.iterate c).countP isTermEligibleForDispatch <
      (h₀.iterate c).countP isTermEligibleForDispatch := by
    intro c hc
    obtain ⟨e, he, hc⟩ := List.mem_flatMap.mp hc
    obtain ⟨t, ht, -, hiter, -⟩ := b.handled e he c hc
    obtain ⟨hmem, helig, -⟩ := dispatchTerm_spec ht
    rw [hiter, List.countP_erase, if_pos ⟨hmem, helig⟩]
    have : 0 < (h₀.iterate c).countP isTermEligibleForDispatch :=
      List.countP_pos_iff.mpr ⟨t, hmem, helig⟩
    omega
  have hsplit : eligibleCount h₀ dnf =
      eligibleCount h₀ (tableConjs table) + eligibleCount h₀ unhandled := by
    rw [← eligibleCount_append]
    exact eligibleCount_perm h₀ (by simpa using b.perm.symm)
  have hne : tableConjs table ≠ [] := by
    intro hnil
    obtain ⟨c, hc, hn⟩ := List.mem_flatMap.mp hkey
    obtain ⟨t, ht, hname⟩ := List.mem_map.mp hn
    obtain ⟨ht, helig⟩ := List.mem_filter.mp ht
    have hunh : c ∈ unhandled := by
      have := b.perm.mem_iff.mpr hc
      simpa [hnil] using this
    have hnone := List.find?_eq_none.mp (b.left c hunh) t ht
    simp [helig, hname] at hnone
  have hsum : eligibleCount h (tableConjs table) < eligibleCount h₀ (tableConjs table) := by
    unfold eligibleCount
    refine List.sum_lt_sum _ _ (fun c hc => (hlt c hc).le) ?_
    obtain ⟨c, hc⟩ := List.exists_mem_of_ne_nil _ hne
    exact ⟨c, hc, hlt c hc⟩
  omega

/-! ## The tree -/

/-- The evaluators built for the conjunctions `cs` compute their disjunction, and
no other object was touched. -/
def Built (d : Described) (h : Heap) (cs : List Conj) :
    Except Failure (List Evaluator × Heap) → Prop
  | .error f => f ≠ .outOfFuel
  | .ok (es, h') => Settles (NoThrow d cs) (anyEvaluates d es) (cs.any (judgedAll d h)) ∧
      ∀ id ∉ cs.map Conj.id, h' id = h id

/-- The entry of a table that a value is looked up in. -/
def entryHolds (d : Described) (h : Heap) (matchAs : String)
    (table : List (Option String × List Conj)) : Bool :=
  match table.find? fun e => e.1 = some matchAs with
  | none => false
  | some e => e.2.any (judgedAll d h)

def BuiltTable (d : Described) (h : Heap) (table : List (Option String × List Conj)) :
    Except Failure (List (Option String × Evaluator) × Heap) → Prop
  | .error f => f ≠ .outOfFuel
  | .ok (built, h') => (∀ matchAs, Settles (NoThrow d (tableConjs table))
      (evaluateEntry d matchAs built) (entryHolds d h matchAs table)) ∧
      ∀ id ∉ (tableConjs table).map Conj.id, h' id = h id

/-- What a builder needs to know about the objects it is given. -/
structure Ready (h : Heap) (cs : List Conj) (n : Nat) : Prop where
  ids : (cs.map Conj.id).Nodup
  fits : ∀ c ∈ cs, h.Fits c
  count : eligibleCount h cs < n

theorem Ready.congr {h h' : Heap} {cs : List Conj} {n : Nat} (r : Ready h cs n)
    (heq : ∀ c ∈ cs, h' c.id = h c.id) : Ready h' cs n where
  ids := r.ids
  fits c hc skip hskip := r.fits c hc skip (heq c hc ▸ hskip)
  count := by
    rw [eligibleCount_congr fun c hc => Heap.iterate_congr (heq c hc)]
    exact r.count

theorem judgedAll_congr {d : Described} {h h' : Heap} {cs : List Conj}
    (heq : ∀ c ∈ cs, h' c.id = h c.id) : cs.any (judgedAll d h') = cs.any (judgedAll d h) := by
  rw [Bool.eq_iff_iff, List.any_eq_true, List.any_eq_true]
  refine exists_congr fun c => and_congr_right fun hc => ?_
  rw [judgedAll, judgedAll, Heap.iterate_congr (heq c hc)]

theorem builtTable_createTable {d : Described} {n : Nat}
    {create : Heap → List Conj → Except Failure (List Evaluator × Heap)}
    (hcreate : ∀ h cs, Ready h cs n → Built d h cs (create h cs)) :
    ∀ (table : List (Option String × List Conj)) (h : Heap),
      ((tableConjs table).map Conj.id).Nodup → (∀ e ∈ table, Ready h e.2 n) →
        BuiltTable d h table (createTable create table h)
  | [], h, _, _ => ⟨fun _ => Settles.of_eq rfl, fun _ _ => rfl⟩
  | (key, cs) :: table, h, hids, hready => by
      have hcs := hcreate h cs (hready _ List.mem_cons_self)
      rw [tableConjs, List.flatMap_cons, List.map_append, List.nodup_append] at hids
      obtain ⟨-, htail, hdisj⟩ := hids
      unfold createTable
      cases hc : create h cs with
      | error f =>
          rw [hc] at hcs
          exact hcs
      | ok r =>
          obtain ⟨es, h₁⟩ := r
          rw [hc] at hcs
          obtain ⟨heval, hframe⟩ := hcs
          -- the objects of the other entries are untouched
          have hsame : ∀ c ∈ tableConjs table, h₁ c.id = h c.id := by
            intro c hc
            refine hframe c.id fun hmem => ?_
            exact hdisj _ hmem _ (List.mem_map_of_mem hc) rfl
          have hsame' : ∀ e ∈ table, ∀ c ∈ e.2, h₁ c.id = h c.id := fun e he c hc =>
            hsame c (List.mem_flatMap.mpr ⟨e, he, hc⟩)
          have ih := builtTable_createTable hcreate table h₁ htail fun e he =>
            (hready e (List.mem_cons_of_mem _ he)).congr (hsame' e he)
          simp only [bind, Except.bind]
          cases ht : createTable create table h₁ with
          | error f =>
              rw [ht] at ih
              exact ih
          | ok r =>
              obtain ⟨built, h₂⟩ := r
              rw [ht] at ih
              obtain ⟨ihEval, ihFrame⟩ := ih
              refine ⟨fun matchAs => ?_, fun id hid => ?_⟩
              · by_cases hkey : key = some matchAs
                · have heq : evaluateEntry d matchAs ((key, .disjunction es) :: built) =
                      anyEvaluates d es := by
                    simp [evaluateEntry, hkey, evaluateSnd, Evaluator.evaluate]
                  have hholds : entryHolds d h matchAs ((key, cs) :: table) =
                      cs.any (judgedAll d h) := by
                    simp [entryHolds, hkey]
                  rw [heq, hholds]
                  exact heval.mono fun hno => hno.mono fun c hc => by simp [tableConjs, hc]
                · have heq : evaluateEntry d matchAs ((key, .disjunction es) :: built) =
                      evaluateEntry d matchAs built := by
                    simp [evaluateEntry, hkey]
                  have hholds : entryHolds d h matchAs ((key, cs) :: table) =
                      entryHolds d h₁ matchAs table := by
                    simp only [entryHolds, hkey, List.find?_cons, decide_false]
                    cases hf : table.find? fun e => decide (e.1 = some matchAs) with
                    | none => rfl
                    | some e => exact (judgedAll_congr (hsame' e (List.mem_of_find?_eq_some hf))).symm
                  rw [heq, hholds]
                  refine (ihEval matchAs).mono fun hno => hno.mono fun c hc => ?_
                  simp only [tableConjs, List.flatMap_cons, List.mem_append]
                  exact Or.inr hc
              · simp only [tableConjs, List.flatMap_cons, List.map_append, List.mem_append,
                  not_or] at hid
                exact (ihFrame id hid.2).trans (hframe id hid.1)

theorem entryHolds_iff {d : Described} {h : Heap} {matchAs : String}
    {table : List (Option String × List Conj)} (hkeys : (table.map Prod.fst).Nodup) :
    entryHolds d h matchAs table = true ↔
      ∃ e ∈ table, e.1 = some matchAs ∧ ∃ c ∈ e.2, judgedAll d h c = true := by
  unfold entryHolds
  cases hf : table.find? fun e => decide (e.1 = some matchAs) with
  | none =>
      refine iff_of_false (by simp) ?_
      rintro ⟨e, he, hkey, -⟩
      have := List.find?_eq_none.mp hf e he
      simp [hkey] at this
  | some e =>
      have he := List.mem_of_find?_eq_some hf
      have hkey : e.1 = some matchAs := by simpa using List.find?_some hf
      simp only [List.any_eq_true]
      constructor
      · exact fun hany => ⟨e, he, hkey, hany⟩
      · rintro ⟨e', he', hkey', hany⟩
        rwa [List.inj_on_of_nodup_map hkeys he he' (hkey.trans hkey'.symm)]

/-- A conjunction of the table has the verdict on its peeled term as a factor. -/
theorem Buckets.peeled {key : String} {dnf : List Conj} {h₀ h : Heap}
    {table : List (Option String × List Conj)} {unhandled : List Conj}
    (b : Buckets key dnf h₀ [] h table unhandled) (d : Described)
    {e : Option String × List Conj} (he : e ∈ table) {c : Conj} (hc : c ∈ e.2) :
    ∃ t, t.name = key ∧ t.term.matchValue = e.1 ∧
      judgedAll d h₀ c = (dispatches d t && judgedAll d h c) := by
  obtain ⟨t, ht, hvalue, hiter, -⟩ := b.handled e he c hc
  obtain ⟨hmem, helig, hname⟩ := dispatchTerm_spec ht
  refine ⟨t, hname, hvalue, ?_⟩
  rw [judgedAll, judgedAll, hiter, (List.perm_cons_erase hmem).all_eq, List.all_cons]
  simp [judged, helig]

/-- The table finds what the conjunctions in it say. -/
theorem Buckets.dispatch {d : Described} {key : String} {dnf : List Conj} {h₀ h : Heap}
    {table table' : List (Option String × List Conj)} {unhandled : List Conj}
    (b : Buckets key dnf h₀ [] h table unhandled) (hperm : table'.Perm table)
    {built : List (Option String × Evaluator)} {safe : Prop}
    (hbuilt : ∀ matchAs,
      Settles safe (evaluateEntry d matchAs built) (entryHolds d h matchAs table')) :
    Settles safe ((Evaluator.dispatch key built).evaluate d)
      ((tableConjs table).any (judgedAll d h₀)) := by
  -- a document for which the key dispatches nothing satisfies no conjunction of the table
  have hfalse : (∀ t : Term QueryTerm, t.name = key → dispatches d t = false) →
      (tableConjs table).any (judgedAll d h₀) = false := by
    intro hno
    rw [List.any_eq_false]
    intro c hc
    obtain ⟨e, he, hc⟩ := List.mem_flatMap.mp hc
    obtain ⟨t, hname, -, hall⟩ := b.peeled d he hc
    simp [hall, hno t hname]
  unfold Evaluator.evaluate
  cases hpd : d.propertyDescriptions key with
  | none =>
      rw [hfalse]
      · exact Settles.of_eq rfl
      · intro t hname
        simp [dispatches, hname, hpd]
  | some pd =>
      cases hm : toMatchValue (getPropertyValue pd d.document) with
      | none =>
          rw [hfalse fun t hname => by simp [dispatches, hname, hpd, hm]]
          simp only [hm]
          exact Settles.of_eq rfl
      | some matchAs =>
          -- a peeled term holds where the lookup finds its value
          have hdispatch : ∀ t : Term QueryTerm, t.name = key →
              dispatches d t = decide (t.term.matchValue = some matchAs) := by
            intro t hname
            simp [dispatches, hname, hpd, hm]
          have hkeys : (table'.map Prod.fst).Nodup := (hperm.map _).nodup_iff.mpr b.keys
          have hentry : entryHolds d h matchAs table' =
              (tableConjs table).any (judgedAll d h₀) := ?_
          · simp only [hm]
            exact hentry ▸ hbuilt matchAs
          rw [Bool.eq_iff_iff, entryHolds_iff hkeys, List.any_eq_true]
          constructor
          · rintro ⟨e, he, hkey, c, hc, hall⟩
            have he := hperm.mem_iff.mp he
            obtain ⟨t, hname, hvalue, hpeeled⟩ := b.peeled d he hc
            refine ⟨c, List.mem_flatMap.mpr ⟨e, he, hc⟩, ?_⟩
            rw [hpeeled, hdispatch t hname, hall, hvalue, hkey]
            simp
          · rintro ⟨c, hc, hall⟩
            obtain ⟨e, he, hc⟩ := List.mem_flatMap.mp hc
            obtain ⟨t, hname, hvalue, hpeeled⟩ := b.peeled d he hc
            rw [hpeeled, hdispatch t hname, hvalue, Bool.and_eq_true, decide_eq_true_eq] at hall
            exact ⟨e, hperm.mem_iff.mpr he, hall.1, c, hc, hall.2⟩

/-- The conjunctions that are left when there is nothing to dispatch on. -/
theorem built_mapM {d : Described} {h : Heap} : ∀ {dnf : List Conj},
    (∀ c ∈ dnf, ∀ t ∈ h.iterate c, isTermEligibleForDispatch t = false) →
      match dnf.mapM fun c => createConjunction (h.iterate c) with
      | .error f => f ≠ .outOfFuel
      | .ok es => Settles (NoThrow d dnf) (anyEvaluates d es) (dnf.any (judgedAll d h))
  | [], _ => Settles.of_eq rfl
  | c :: dnf, hno => by
      have ih := built_mapM (d := d) (h := h) fun c hc => hno c (List.mem_cons_of_mem _ hc)
      rw [List.mapM_cons]
      cases hc : createConjunction (h.iterate c) with
      | error f =>
          show f ≠ .outOfFuel
          unfold createConjunction at hc
          split at hc
          · cases hc
            simp
          · cases hc
      | ok e =>
          simp only [bind, Except.bind]
          cases hes : dnf.mapM fun c => createConjunction (h.iterate c) with
          | error f =>
              rw [hes] at ih
              exact ih
          | ok es =>
              rw [hes] at ih
              have helig := hno c List.mem_cons_self
              have hcheck : Settles (NoThrow d (c :: dnf)) (checkTerms d (h.iterate c))
                  ((h.iterate c).all (checks d)) :=
                (settles_checkTerms _).mono fun hnothrow t ht =>
                  hnothrow c List.mem_cons_self t (h.iterate_subset c ht) (helig t ht)
              have hall : (h.iterate c).all (checks d) = judgedAll d h c := by
                rw [judgedAll, Bool.eq_iff_iff, List.all_eq_true, List.all_eq_true]
                refine forall₂_congr fun t ht => ?_
                simp [judged, helig t ht]
              rw [← evaluate_of_createConjunction hc, hall] at hcheck
              exact hcheck.cons
                (ih.mono fun hno => hno.mono fun c hc => List.mem_cons_of_mem _ hc)

/-- One dispatch evaluator and what is built after it. -/
theorem Buckets.built {d : Described} {key : String} {dnf : List Conj} {h₀ h : Heap}
    {table : List (Option String × List Conj)} {unhandled : List Conj}
    (b : Buckets key dnf h₀ [] h table unhandled) (o : HashOrder) {fuel : Nat}
    (hready : Ready h₀ dnf (fuel + 1)) (hkey : key ∈ eligibleNames h₀ dnf)
    {create : Heap → List Conj → Except Failure (List Evaluator × Heap)}
    (hcreate : ∀ h cs, Ready h cs fuel → Built d h cs (create h cs)) :
    Built d h₀ dnf (do
      let (built, h₁) ← createTable create (o.entrySet table) h
      let (es, h₂) ← create h₁ unhandled
      return (.dispatch key built :: es, h₂)) := by
  have hlt := b.eligibleCount_lt hkey
  have hcount := hready.count
  have hperm : (tableConjs table ++ unhandled).Perm dnf := by simpa using b.perm
  have hids := (hperm.map Conj.id).nodup_iff.mpr hready.ids
  rw [List.map_append, List.nodup_append] at hids
  obtain ⟨hidsTable, hidsUnhandled, hdisj⟩ := hids
  have hentries : (tableConjs (o.entrySet table)).Perm (tableConjs table) :=
    (o.entrySet_perm table).flatMap_right _
  -- every entry is ready: its objects were peeled
  have hreadyTable : ∀ e ∈ o.entrySet table, Ready h e.2 fuel := by
    intro e he
    have he := (o.entrySet_perm table).mem_iff.mp he
    have hle := eligibleCount_le_of_mem h he
    refine ⟨?_, fun c hc => ?_, by omega⟩
    · obtain ⟨l₁, l₂, rfl⟩ := List.append_of_mem he
      simp only [tableConjs, List.flatMap_append, List.flatMap_cons, List.map_append,
        List.nodup_append] at hidsTable
      exact hidsTable.2.1.1
    · obtain ⟨t, -, -, -, hfits⟩ := b.handled e he c hc
      exact hfits
  have htable := builtTable_createTable hcreate (o.entrySet table) h
    ((hentries.map Conj.id).nodup_iff.mpr hidsTable) hreadyTable
  cases ht : createTable create (o.entrySet table) h with
  | error f =>
      rw [ht] at htable
      exact htable
  | ok r =>
      obtain ⟨built, h₁⟩ := r
      rw [ht] at htable
      obtain ⟨heval, hframe⟩ := htable
      have hsame : ∀ c ∈ unhandled, h₁ c.id = h₀ c.id := by
        intro c hc
        rw [hframe c.id, b.same c (by simpa using hc)]
        rw [(hentries.map Conj.id).mem_iff]
        exact fun hmem => hdisj _ hmem _ (List.mem_map_of_mem hc) rfl
      have hsplit : eligibleCount h₁ unhandled = eligibleCount h unhandled :=
        eligibleCount_congr fun c hc => Heap.iterate_congr
          ((hsame c hc).trans (b.same c (by simpa using hc)).symm)
      have hreadyRest : Ready h₁ unhandled fuel := by
        refine ⟨hidsUnhandled, fun c hc skip hskip => ?_, by omega⟩
        exact hready.fits c (hperm.mem_iff.mp (List.mem_append_right _ hc)) skip
          (hsame c hc ▸ hskip)
      have hrest := hcreate h₁ unhandled hreadyRest
      simp only [bind, Except.bind]
      cases hr : create h₁ unhandled with
      | error f =>
          rw [hr] at hrest
          exact hrest
      | ok r =>
          obtain ⟨es, h₂⟩ := r
          rw [hr] at hrest
          obtain ⟨hevalRest, hframeRest⟩ := hrest
          refine ⟨?_, fun id hid => ?_⟩
          · have hnoTable : NoThrow d dnf → NoThrow d (tableConjs (o.entrySet table)) := fun hno =>
              hno.mono fun c hc =>
                hperm.mem_iff.mp (List.mem_append_left _ (hentries.mem_iff.mp hc))
            have hnoRest : NoThrow d dnf → NoThrow d unhandled := fun hno =>
              hno.mono fun c hc => hperm.mem_iff.mp (List.mem_append_right _ hc)
            have hdispatch := b.dispatch (o.entrySet_perm table) fun matchAs =>
              (heval matchAs).mono hnoTable
            have hunhandled := hevalRest.mono hnoRest
            rw [judgedAll_congr hsame] at hunhandled
            rw [← hperm.any_eq, List.any_append]
            exact hdispatch.cons hunhandled
          · have hid' : id ∉ (tableConjs table).map Conj.id ∧ id ∉ unhandled.map Conj.id := by
              rw [← (hperm.map Conj.id).mem_iff, List.map_append, List.mem_append, not_or] at hid
              exact hid
            have h₂eq := hframeRest id hid'.2
            have h₁eq := hframe id (by rw [(hentries.map Conj.id).mem_iff]; exact hid'.1)
            exact h₂eq.trans (h₁eq.trans (b.frame id hid))

/-- **What the tree computes.** With enough fuel the construction ends, and what
it builds is the disjunction of the conjunctions by the verdicts of the tree. -/
theorem built_createEvaluators (o : HashOrder) (d : Described) :
    ∀ (fuel : Nat) (h : Heap) (dnf : List Conj), Ready h dnf fuel →
      Built d h dnf (createEvaluators o fuel h dnf)
  | 0, h, dnf, hready => absurd hready.count (Nat.not_lt_zero _)
  | fuel + 1, h, dnf, hready => by
      unfold createEvaluators
      cases hkey : findTopPropertyForDispatch o h dnf with
      | none =>
          have hno : ∀ c ∈ dnf, ∀ t ∈ h.iterate c, isTermEligibleForDispatch t = false := by
            intro c hc t ht
            by_contra helig
            have hmem : t.name ∈ eligibleNames h dnf :=
              List.mem_flatMap.mpr ⟨c, hc, List.mem_map_of_mem
                (List.mem_filter.mpr ⟨ht, by simpa using helig⟩)⟩
            rw [findTopPropertyForDispatch_eq_none hkey] at hmem
            simp at hmem
          have hbuilt := built_mapM (d := d) hno
          simp only [bind, Except.bind]
          cases hes : dnf.mapM fun c => createConjunction (h.iterate c) with
          | error f =>
              rw [hes] at hbuilt
              exact hbuilt
          | ok es =>
              rw [hes] at hbuilt
              exact ⟨hbuilt, fun _ _ => rfl⟩
      | some key =>
          have b := buckets_bucket hready.ids hready.fits dnf h [] []
            (⟨by simp [tableConjs], by simp, by simp, by simp, by simp, by simp⟩ :
              Buckets key dnf h dnf h [] [])
          rcases hb : bucket key dnf h [] [] with ⟨h₁, table, unhandled⟩
          rw [hb] at b
          simp only [hb]
          exact b.built o hready (mem_of_findTopPropertyForDispatch hkey)
            (built_createEvaluators o d fuel)

end Xenon.Filter
