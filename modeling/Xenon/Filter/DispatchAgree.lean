import Xenon.Filter.DispatchTree

/-!
# Where the tree and the plain evaluation agree

A dispatch table compares the text of a property's value with the match value.
`ConjunctionEvaluator` does the same for string properties, compares numbers with
the range of the term, and accepts no other type of property. The tree agrees
with it exactly when no term that is peeled off falls between the two.
-/

namespace Xenon.Filter

open Xenon.QueryTask

/-! ## The normal form has no object twice -/

/-- Every term of the conjunctions has a property name. -/
def Named (cs : List Conj) : Prop :=
  ∀ c ∈ cs, ∀ t ∈ c.terms, t.term.propertyName ≠ none

/-- `r` extends `prefixes` and holds objects that were all created between `n` and
`n'`. -/
structure NewObjects (prefixes : List Conj) (n : Nat) (r : List Conj) (n' : Nat) : Prop where
  le : n ≤ n'
  bounds : ∀ c ∈ r, n ≤ c.id ∧ c.id < n'
  nodup : (r.map Conj.id).Nodup
  named : Named prefixes → Named r

theorem NewObjects.trans {n m n' : Nat} {p r r' : List Conj} (h : NewObjects p n r m)
    (h' : NewObjects r m r' n') : NewObjects p n r' n' where
  le := h.le.trans h'.le
  bounds c hc := ⟨h.le.trans (h'.bounds c hc).1, (h'.bounds c hc).2⟩
  nodup := h'.nodup
  named hp := h'.named (h.named hp)

theorem NewObjects.append {n m n' : Nat} {p r r' : List Conj} (h : NewObjects p n r m)
    (h' : NewObjects p m r' n') : NewObjects p n (r ++ r') n' where
  le := h.le.trans h'.le
  bounds c hc := by
    have hle := h.le
    have hle' := h'.le
    rcases List.mem_append.mp hc with hc | hc
    · have := h.bounds c hc
      omega
    · have := h'.bounds c hc
      omega
  nodup := by
    rw [List.map_append, List.nodup_append]
    refine ⟨h.nodup, h'.nodup, ?_⟩
    intro a ha b hb hab
    obtain ⟨c, hc, rfl⟩ := List.mem_map.mp ha
    obtain ⟨c', hc', rfl⟩ := List.mem_map.mp hb
    have := (h.bounds c hc).2
    have := (h'.bounds c' hc').1
    omega
  named hp c hc := by
    rcases List.mem_append.mp hc with hc | hc
    · exact h.named hp c hc
    · exact h'.named hp c hc

theorem newObjects_addTermObjects {t : Term QueryTerm} (ht : t.term.propertyName ≠ none)
    (prefixes : List Conj) (n : Nat) :
    NewObjects prefixes n (addTermObjects t prefixes n).1 (addTermObjects t prefixes n).2 := by
  unfold addTermObjects
  split_ifs with h
  · refine ⟨by simp, by simp, by simp, fun _ c hc u hu => ?_⟩
    obtain rfl := List.mem_singleton.mp hc
    obtain rfl := List.mem_singleton.mp hu
    exact ht
  · refine ⟨by simp, ?_, ?_, ?_⟩
    · intro c hc
      obtain ⟨i, hi, rfl⟩ := List.mem_mapIdx.mp hc
      show n ≤ n + i ∧ n + i < n + prefixes.length
      omega
    · rw [List.nodup_iff_injective_get]
      intro i j hij
      simp only [List.get_eq_getElem, List.getElem_map, List.getElem_mapIdx] at hij
      exact Fin.ext (by omega)
    · intro hp c hc u hu
      obtain ⟨i, hi, rfl⟩ := List.mem_mapIdx.mp hc
      rcases List.mem_append.mp hu with hu | hu
      · exact hp _ (List.getElem_mem hi) u hu
      · obtain rfl := List.mem_singleton.mp hu
        exact ht

theorem newObjects_dnfLoop {qs : List QueryTask.Query} {negate : Bool}
    (hqs : ∀ q ∈ qs, ∀ prefixes m n r n', dnfObjects q prefixes m n = .ok (r, n') →
      NewObjects prefixes n r n') :
    ∀ {prefixes : List Conj} {n : Nat} {r : List Conj} {n' : Nat},
      dnfLoop qs prefixes negate n = .ok (r, n') →
        (r = prefixes ∧ n' = n ∧ ∀ q ∈ qs, expandWith q.effective negate = none) ∨
          NewObjects prefixes n r n' := by
  induction qs with
  | nil =>
      intro prefixes n r n' h
      cases h
      exact Or.inl ⟨rfl, rfl, by simp⟩
  | cons q qs ih =>
      intro prefixes n r n' h
      have ih := @ih fun q' hq' => hqs q' (List.mem_cons_of_mem _ hq')
      unfold dnfLoop at h
      cases hm : expandWith q.effective negate with
      | none =>
          simp only [hm] at h
          exact (ih h).imp_left fun ⟨hr, hn, hall⟩ =>
            ⟨hr, hn, List.forall_mem_cons.mpr ⟨hm, hall⟩⟩
      | some m =>
          simp only [hm] at h
          cases hq : dnfObjects q prefixes m n with
          | error f =>
              rw [hq] at h
              cases h
          | ok p =>
              obtain ⟨p, n₁⟩ := p
              rw [hq] at h
              have hnew := hqs q List.mem_cons_self _ _ _ _ _ hq
              rcases ih h with ⟨rfl, rfl, -⟩ | hlater
              · exact Or.inr hnew
              · exact Or.inr (hnew.trans hlater)

theorem newObjects_dnfExpand {qs : List QueryTask.Query} {negate : Bool} {prefixes : List Conj}
    (hqs : ∀ q ∈ qs, ∀ prefixes m n r n', dnfObjects q prefixes m n = .ok (r, n') →
      NewObjects prefixes n r n') :
    ∀ {n : Nat} {r : List Conj} {n' : Nat},
      dnfExpand qs prefixes negate n = .ok (r, n') → NewObjects prefixes n r n' := by
  induction qs with
  | nil =>
      intro n r n' h
      cases h
      exact ⟨le_rfl, by simp, by simp, fun _ c hc => by simp at hc⟩
  | cons q qs ih =>
      intro n r n' h
      have ih := @ih fun q' hq' => hqs q' (List.mem_cons_of_mem _ hq')
      unfold dnfExpand at h
      simp only [bind, Except.bind] at h
      split at h
      · cases h
      · rename_i p hq
        obtain ⟨p, n₁⟩ := p
        simp only at h
        split at h
        · cases h
        · rename_i rest hrest
          obtain ⟨rest, n₂⟩ := rest
          cases h
          exact (hqs q List.mem_cons_self _ _ _ _ _ hq).append (ih hrest)

/-- A list of clauses that is no disjunction has a clause that the first loop
expands. -/
theorem exists_expanded {qs : List QueryTask.Query} {negate : Bool}
    (h : isDisjunctionOf qs negate = false) : ∃ q ∈ qs, expandWith q.effective negate ≠ none := by
  by_contra hnone
  push Not at hnone
  have hall : isDisjunctionOf qs negate = true := by
    cases negate with
    | false =>
        simp only [isDisjunctionOf, Bool.false_and, Bool.not_false, Bool.true_and, Bool.false_or,
          decide_eq_true_eq, List.countP_eq_length]
        intro q hq
        have := hnone q hq
        cases heff : q.effective <;> simp [expandWith, heff] at this ⊢
    | true =>
        simp only [isDisjunctionOf, Bool.true_and, Bool.not_true, Bool.false_and, Bool.or_false,
          decide_eq_true_eq, List.countP_eq_length]
        intro q hq
        have := hnone q hq
        cases heff : q.effective <;> simp [expandWith, heff] at this ⊢
  simp [hall] at h

theorem propertyName_of_newTerm {t : QueryTerm} {negate : Bool} {u : Term QueryTerm}
    (h : newTerm t negate = .ok u) : u.term.propertyName ≠ none := by
  unfold newTerm at h
  split_ifs at h with _ hname
  cases h
  exact hname

/-- Every call of `createDisjunctiveNormalForm` returns new objects only. -/
theorem newObjects_dnfObjects (q : QueryTask.Query) : ∀ prefixes negate n r n',
    dnfObjects q prefixes negate n = .ok (r, n') → NewObjects prefixes n r n' := by
  induction q using QueryTask.Query.ofAll with
  | h o t qs ih =>
      intro prefixes negate n r n' h
      cases t with
      | some t =>
          unfold dnfObjects at h
          simp only [bind, Except.bind] at h
          split at h
          · cases h
          · rename_i t' ht'
            have hnew := newObjects_addTermObjects (propertyName_of_newTerm ht') prefixes n
            rw [Except.ok.inj h] at hnew
            exact hnew
      | none =>
          cases qs with
          | none => cases h
          | some qs =>
              unfold dnfObjects dnfClauses at h
              simp only [bind, Except.bind] at h
              split at h
              · cases h
              · rename_i p hloop
                obtain ⟨p, n₁⟩ := p
                have hp := newObjects_dnfLoop ih hloop
                simp only at h
                split_ifs at h with hdisj
                · have hnew := newObjects_dnfExpand ih h
                  rcases hp with ⟨rfl, rfl, -⟩ | hp
                  · exact hnew
                  · exact hp.trans hnew
                · cases h
                  rcases hp with ⟨-, -, hnone⟩ | hp
                  · obtain ⟨q, hq, hexp⟩ := exists_expanded (by simpa using hdisj)
                    exact absurd (hnone q hq) hexp
                  · exact hp

theorem newObjects_createObjects {q : QueryTask.Query} {dnf : List Conj}
    (h : createObjects q = .ok dnf) : (dnf.map Conj.id).Nodup ∧ Named dnf := by
  unfold createObjects at h
  cases hd : dnfObjects q [] false 0 with
  | error f =>
      rw [hd] at h
      cases h
  | ok r =>
      rw [hd] at h
      cases h
      have hnew := newObjects_dnfObjects q [] false 0 r.1 r.2 hd
      exact ⟨hnew.nodup, hnew.named fun c hc => by simp at hc⟩

/-! ## Terms on which the two evaluations agree -/

/-- The text of a value of the given type is the match value exactly when
`ConjunctionEvaluator` accepts it: always for strings, for numbers when the text
says what the range says, and for every other type only if the text differs. -/
def AlikeValue (t : QueryTerm) : TypeName → Value → Prop
  | .string, .string _ => True
  | .string, .null => t.matchValue ≠ none
  | .long, .number n text | .double, .number n text =>
      t.matchValue = some text ↔ evaluateNumber t n = .ok true
  | _, v => toMatchValue v = none ∨ toMatchValue v ≠ t.matchValue

/-- The two evaluations say the same about a term. A name with dots at its end
names two different properties to them. -/
def Alike (d : Described) (t : Term QueryTerm) : Prop :=
  if t.propertyParts = [t.name] then
    match d.propertyDescriptions t.name with
    | none => True
    | some pd => AlikeValue t.term pd.typeName (getPropertyValue pd d.document)
  else dispatches d t = true ↔ checkTerm d t = .ok true

theorem isTermEligibleForDispatch_iff {t : Term QueryTerm} :
    isTermEligibleForDispatch t = true ↔
      t.negate = false ∧ t.term.matchType = some .term ∧ t.propertyParts.length ≤ 1 := by
  simp [isTermEligibleForDispatch, and_assoc]

/-- The verdict of a table, read off the value. -/
theorem dispatches_eq_true {d : Described} {t : Term QueryTerm} {pd : PropertyDescription}
    (hpd : d.propertyDescriptions t.name = some pd) :
    dispatches d t = true ↔ toMatchValue (getPropertyValue pd d.document) ≠ none ∧
      toMatchValue (getPropertyValue pd d.document) = t.term.matchValue := by
  unfold dispatches
  rw [hpd]
  cases hv : toMatchValue (getPropertyValue pd d.document) with
  | none => simp [hv]
  | some matchAs => simp [hv, eq_comm]

/-- What `ConjunctionEvaluator` says about an equality term on a property of the
document itself. -/
theorem evaluateTerm_nil {t : Term QueryTerm} (hneg : t.negate = false)
    (htype : t.term.matchType = some .term) (v : Value) (pd : PropertyDescription) :
    evaluateTerm t v pd [] = .ok true ↔
      match pd.typeName, v with
      | .string, .string s => t.term.matchValue = some s
      | .string, .null => t.term.matchValue = none
      | .long, .number n _ | .double, .number n _ => evaluateNumber t.term n = .ok true
      | _, _ => False := by
  unfold evaluateTerm
  cases pd.typeName <;> cases v <;>
    simp [hneg, evaluateString, htype, pure, Except.pure, bind, Except.bind, eq_comm]
  all_goals
    rename_i n text
    cases evaluateNumber t.term n <;> simp [eq_comm]

theorem alike_iff {d : Described} {t : Term QueryTerm}
    (helig : isTermEligibleForDispatch t = true) :
    Alike d t ↔ (dispatches d t = true ↔ checkTerm d t = .ok true) := by
  obtain ⟨hneg, htype, -⟩ := isTermEligibleForDispatch_iff.mp helig
  unfold Alike
  split_ifs with hparts
  · cases hpd : d.propertyDescriptions t.name with
    | none => simp [dispatches, checkTerm, hparts, hpd, hneg]
    | some pd =>
        have hcheck : checkTerm d t = evaluateTerm t (getPropertyValue pd d.document) pd [] := by
          simp [checkTerm, hparts, hpd]
        rw [hcheck, dispatches_eq_true hpd, evaluateTerm_nil hneg htype]
        simp only
        generalize pd.typeName = type
        generalize getPropertyValue pd d.document = v
        cases type <;> cases v <;> simp [AlikeValue, toMatchValue, eq_comm]
  · exact Iff.rfl

/-! ## Agreement -/

/-- The tree for `dnf` can be built, and decides about the document as the plain
evaluation does; it throws only if a term that is left to `ConjunctionEvaluator`
does. -/
def TreeAgrees (o : HashOrder) (d : Described) (dnf : List Conj) : Prop :=
  ∀ fuel, eligibleCount (fun _ => none) dnf < fuel →
    createDisjunction o fuel dnf ≠ .error .outOfFuel ∧
      ∀ e, createDisjunction o fuel dnf = .ok e →
        (NoThrow d dnf → ∃ b, e.evaluate d = .ok b) ∧
          ∀ b, e.evaluate d = .ok b →
            (b = true ↔ ∃ c ∈ dnf, ∀ t ∈ c.terms, checkTerm d t = .ok true)

theorem settles_createDisjunction (o : HashOrder) (d : Described) {dnf : List Conj}
    (hids : (dnf.map Conj.id).Nodup) {fuel : Nat}
    (hfuel : eligibleCount (fun _ => none) dnf < fuel) :
    createDisjunction o fuel dnf ≠ .error .outOfFuel ∧
      ∀ e, createDisjunction o fuel dnf = .ok e →
        Settles (NoThrow d dnf) (e.evaluate d) (dnf.any fun c => c.terms.all (judged d)) := by
  have hbuilt := built_createEvaluators o d fuel (fun _ => none) dnf
    ⟨hids, fun c _ skip hskip => (nomatch hskip), hfuel⟩
  unfold createDisjunction
  cases hr : createEvaluators o fuel (fun _ => none) dnf with
  | error f =>
      rw [hr] at hbuilt
      refine ⟨fun h => ?_, fun e he => by cases he⟩
      exact hbuilt (Except.error.inj h)
  | ok r =>
      obtain ⟨es, h'⟩ := r
      rw [hr] at hbuilt
      refine ⟨fun h => (nomatch h), fun e he => ?_⟩
      cases he
      exact hbuilt.1

theorem treeAgrees_of_alike {o : HashOrder} {d : Described} {dnf : List Conj}
    (hids : (dnf.map Conj.id).Nodup)
    (halike : ∀ c ∈ dnf, ∀ t ∈ c.terms, isTermEligibleForDispatch t = true → Alike d t) :
    TreeAgrees o d dnf := by
  intro fuel hfuel
  obtain ⟨hfueled, hsettles⟩ := settles_createDisjunction o d hids hfuel
  refine ⟨hfueled, fun e he => ⟨fun hno => ⟨_, (hsettles e he).returns hno⟩, fun b hb => ?_⟩⟩
  rw [(hsettles e he).only b hb, List.any_eq_true]
  refine exists_congr fun c => and_congr_right fun hc => ?_
  rw [List.all_eq_true]
  refine forall₂_congr fun t ht => ?_
  unfold judged
  split_ifs with helig
  · exact (alike_iff helig).mp (halike c hc t ht helig)
  · exact checks_eq_true

/-- The tree for one equality term is one dispatch table with one entry. -/
theorem createDisjunction_singleton (o : HashOrder) {t : Term QueryTerm}
    (helig : isTermEligibleForDispatch t = true) :
    createDisjunction o 2 [⟨0, [t]⟩] = .ok (.disjunction
      [.dispatch t.name [(t.term.matchValue, .disjunction [.static true])]]) := by
  have hvalues : ∀ a, o.values [a] = [a] := fun a => List.perm_singleton.mp (o.values_perm [a])
  have hentries : ∀ a, o.entrySet [a] = [a] := fun a =>
    List.perm_singleton.mp (o.entrySet_perm [a])
  have hnil : o.values [] = [] := List.perm_nil.mp (o.values_perm [])
  simp [createDisjunction, createEvaluators, findTopPropertyForDispatch, eligibleNames,
    Heap.iterate, Heap.skipTerm, bucket, dispatchTerm, addElem, addEntry, createTable, helig,
    hvalues, hentries, hnil, markTerm, unskipped, createConjunction, bind, Except.bind, pure,
    Except.pure]

theorem treeAgrees_singleton {o : HashOrder} {d : Described} {t : Term QueryTerm}
    (helig : isTermEligibleForDispatch t = true) :
    TreeAgrees o d [⟨0, [t]⟩] ↔ Alike d t := by
  constructor
  · intro h
    have hone := (h 2 (by simp [eligibleCount, Heap.iterate, helig])).2 _
      (createDisjunction_singleton o helig)
    have hnothrow : NoThrow d [⟨0, [t]⟩] := by
      intro c hc u hu hinel
      obtain rfl := List.mem_singleton.mp hc
      obtain rfl := List.mem_singleton.mp hu
      simp [helig] at hinel
    have hids : (([⟨0, [t]⟩] : List Conj).map Conj.id).Nodup := by simp
    have heval := ((settles_createDisjunction o d hids
      (by simp [eligibleCount, Heap.iterate, helig])).2 _
        (createDisjunction_singleton o helig)).returns hnothrow
    have hagree := hone.2 _ heval
    rw [alike_iff helig]
    simpa [judged, helig] using hagree
  · intro h
    apply treeAgrees_of_alike (by simp)
    intro c hc u hu _
    obtain rfl := List.mem_singleton.mp hc
    obtain rfl := List.mem_singleton.mp hu
    exact h

/-- Hash maps that keep the order in which their keys were added. -/
def HashOrder.inOrder : HashOrder := ⟨id, id, fun _ => .refl _, fun _ => .refl _⟩

/-- The long `10`. -/
def ten : Number := ⟨false, 10, ⟨0x4024000000000000⟩⟩

/-- `longValue` is in `[10, 10]`, with the match type that the conversion to Lucene
sets on a term that has none. -/
def longValueIsTen : QueryTerm where
  propertyName := some "longValue"
  matchValue := none
  matchType := some .term
  range := some ⟨some .long, some ten, some ten, true, true⟩

/-- A document with `longValue = 10`. -/
def documentWithTen : Described where
  document := .podo (fun name => if name = "longValue" then .number ten "10" else .null) "doc"
  propertyDescriptions := fun name =>
    if name = "longValue" then some (.mk .long "longValue" none none) else none

end Xenon.Filter
