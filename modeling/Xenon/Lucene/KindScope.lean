import Xenon.Index.Cache
import Xenon.Lucene.Agree

/-!
# The document kinds of a query

The conversion collects the document kinds that a query names in `kindScope`, and a
searcher is fresh enough for the query if it is newer than the last updates of these
kinds. The kinds are collected from every term that does not have `MUST_NOT`
occurance itself, whatever stands around it and whatever its match type is. They
bound the kinds that the query matches if every way to match it goes through an
equality term on the kind (`kindScoped`).
-/

namespace Xenon.Lucene

open Xenon.Foundation
open Xenon.Filter (Occurance)
open Xenon.QueryTask

/-- Every indexed document has one kind. -/
def Document.HasKind (d : Document) (kind : String) : Prop := d.terms fieldNameKind = [(0, kind)]

theorem hasTerm_kind {d : Document} {kind value : String} (h : d.HasKind kind) :
    d.hasTerm fieldNameKind value = true ↔ kind = value := by
  simp [hasTerm_iff, show d.terms fieldNameKind = _ from h]

/-! ## The kinds that are collected -/

mutual

/-- What the conversion adds to `kindScope`. -/
def kindsOf (maxClauseCount : Nat) : Query → List (Option String)
  | .mk _ (some _) (some _) => []
  | .mk o (some t) none =>
      if o ≠ some .mustNotOccur ∧ t.propertyName = some fieldNameKind then [t.matchValue] else []
  | .mk _ none qs => kindsOfClauses maxClauseCount qs

def kindsOfClauses (maxClauseCount : Nat) : Option (List Query) → List (Option String)
  | none => []
  | some qs =>
      match termInSetRewrite maxClauseCount qs with
      | some _ => []
      | none => kindsOfAll maxClauseCount qs

def kindsOfAll (maxClauseCount : Nat) : List Query → List (Option String)
  | [] => []
  | q :: qs => kindsOf maxClauseCount q ++ kindsOfAll maxClauseCount qs

end

/-- The context has the kinds and what it had before. -/
def Collects (kinds : List (Option String)) (before after : Option QueryRuntimeContext) : Prop :=
  ∀ c, before = some c → ∃ c', after = some c' ∧
    ∀ kind, (∃ scope, c'.kindScope = some scope ∧ kind ∈ scope) ↔
      kind ∈ kinds ∨ ∃ scope, c.kindScope = some scope ∧ kind ∈ scope

theorem Collects.refl (context : Option QueryRuntimeContext) : Collects [] context context := by
  intro c hc
  exact ⟨c, hc, fun kind => by simp⟩

theorem Collects.trans {ks ks' : List (Option String)} {a b c : Option QueryRuntimeContext}
    (h : Collects ks a b) (h' : Collects ks' b c) : Collects (ks ++ ks') a c := by
  intro ca hca
  obtain ⟨cb, hcb, hkinds⟩ := h ca hca
  obtain ⟨cc, hcc, hkinds'⟩ := h' cb hcb
  refine ⟨cc, hcc, fun kind => ?_⟩
  rw [hkinds', hkinds, List.mem_append]
  tauto

theorem collects_addKind (o : Option Occurance) (t : QueryTerm)
    (context : Option QueryRuntimeContext) :
    Collects (if o ≠ some .mustNotOccur ∧ t.propertyName = some fieldNameKind then [t.matchValue]
      else []) context (addKind o t context) := by
  unfold addKind
  split_ifs with h
  · rintro c rfl
    refine ⟨_, rfl, fun kind => ?_⟩
    cases hscope : c.kindScope with
    | none => simp [hscope]
    | some scope => simp [hscope]
  · exact Collects.refl context

theorem collects_build {maxClauseCount : Nat} {qs : List Query}
    (hqs : ∀ q ∈ qs, ∀ context lq context',
      convertToLuceneQuery maxClauseCount q context = .ok (lq, context') →
        Collects (kindsOf maxClauseCount q) context context') :
    ∀ {n context clauses context'},
      buildBooleanQuery maxClauseCount qs n context = .ok (clauses, context') →
        Collects (kindsOfAll maxClauseCount qs) context context' := by
  induction qs with
  | nil =>
      intro n context clauses context' h
      cases h
      exact Collects.refl _
  | cons q qs ih =>
      intro n context clauses context' h
      obtain ⟨⟨lq, context₁⟩, hq, h⟩ := bind_eq_ok.mp h
      dsimp only at h
      obtain ⟨_, -, h⟩ := bind_eq_ok.mp h
      obtain ⟨⟨rest, context₂⟩, hrest, h⟩ := bind_eq_ok.mp h
      cases h
      exact (hqs q List.mem_cons_self _ _ _ hq).trans
        (ih (fun q' hq' => hqs q' (List.mem_cons_of_mem _ hq')) hrest)

theorem collects_convert (maxClauseCount : Nat) (q : Query) : ∀ context lq context',
    convertToLuceneQuery maxClauseCount q context = .ok (lq, context') →
      Collects (kindsOf maxClauseCount q) context context' := by
  induction q using Query.ofAll with
  | h o t qs ih =>
      intro context lq context' h
      rcases t with _ | t <;> rcases qs with _ | qs
      · cases h
      · unfold convertToLuceneQuery convertToLuceneBooleanQuery at h
        obtain ⟨choice, hchoice, h⟩ := bind_eq_ok.mp h
        have hrewrite : termInSetRewrite maxClauseCount qs = choice := by
          simp [termInSetRewrite, hchoice]
        rw [kindsOf, kindsOfClauses, hrewrite]
        cases choice with
        | some p =>
            cases h
            exact Collects.refl _
        | none =>
            dsimp only at h
            obtain ⟨⟨clauses, context₁⟩, hbuild, h⟩ := bind_eq_ok.mp h
            cases h
            exact collects_build ih hbuild
      · obtain ⟨leaf, -, h⟩ := bind_eq_ok.mp h
        cases h
        rw [kindsOf]
        exact collects_addKind o t context
      · cases h

/-- A query with a fresh context: `kindScope` has the kinds of the query. -/
theorem mem_kindScope {maxClauseCount : Nat} {q : Query} {lq : LuceneQuery}
    {kindScope : Finset (Option String)}
    (h : convert maxClauseCount q (some ⟨none⟩) = .ok (lq, some ⟨some kindScope⟩))
    (kind : Option String) : kind ∈ kindScope ↔ kind ∈ kindsOf maxClauseCount q := by
  have hcollects : Collects (kindsOf maxClauseCount q) (some ⟨none⟩)
      (some ⟨some kindScope⟩) := by
    obtain ⟨o, t, qs⟩ := q
    cases qs with
    | none => exact collects_convert maxClauseCount _ _ _ _ h
    | some qs =>
        obtain ⟨⟨lq', context₁⟩, hlq, h⟩ := bind_eq_ok.mp h
        cases h
        exact collects_convert maxClauseCount _ _ _ _ hlq
  obtain ⟨c', hc', hkinds⟩ := hcollects _ rfl
  cases hc'
  simpa using hkinds kind

/-! ## The kinds that are matched -/

/-- An equality term on the kind. -/
def equalsKind (t : QueryTerm) : Bool :=
  t.propertyName = some fieldNameKind && t.range = none && t.matchType.getD .term = .term

/-- An equality term on one of the kinds. -/
def kindTerm (kinds : List (Option String)) (t : QueryTerm) : Bool :=
  equalsKind t && kinds.contains t.matchValue

mutual

/-- What matches the query has one of the kinds. -/
def bounded (maxClauseCount : Nat) (kinds : List (Option String)) : Query → Bool
  | .mk _ (some _) (some _) => false
  | .mk _ (some t) none => kindTerm kinds t
  | .mk _ none qs => boundedClauses maxClauseCount kinds qs

def boundedClauses (maxClauseCount : Nat) (kinds : List (Option String)) :
    Option (List Query) → Bool
  | none => false
  | some qs =>
      match termInSetRewrite maxClauseCount qs with
      | some (field, values) => field = fieldNameKind && values.all fun v => kinds.contains (some v)
      | none =>
          if qs.any fun q => q.effective = .mustOccur then
            (boundedAll maxClauseCount kinds qs).any fun c => c.1 = .mustOccur && c.2
          else (boundedAll maxClauseCount kinds qs).all fun c => c.1 ≠ .shouldOccur || c.2

def boundedAll (maxClauseCount : Nat) (kinds : List (Option String)) :
    List Query → List (Occurance × Bool)
  | [] => []
  | q :: qs => (q.effective, bounded maxClauseCount kinds q) :: boundedAll maxClauseCount kinds qs

end

/-- The kinds of the query bound what it matches. A list of clauses that must not occur
matches nothing. -/
def kindScoped (maxClauseCount : Nat) (q : Query) : Bool :=
  (q.booleanClauses.isSome && q.occurance = some .mustNotOccur) ||
    bounded maxClauseCount (kindsOf maxClauseCount q) q

theorem boundedAll_eq (maxClauseCount : Nat) (kinds : List (Option String)) (qs : List Query) :
    boundedAll maxClauseCount kinds qs =
      qs.map fun q => (q.effective, bounded maxClauseCount kinds q) := by
  induction qs with
  | nil => rfl
  | cons q qs ih => rw [boundedAll, ih, List.map_cons]

/-- A list that is not read as a set of values is bounded by one of its `MUST` clauses, or
by all its `SHOULD` clauses. -/
theorem bounded_clauses {maxClauseCount : Nat} {kinds : List (Option String)}
    {o : Option Occurance} {qs : List Query} (h : termInSetRewrite maxClauseCount qs = none) :
    bounded maxClauseCount kinds (.mk o none (some qs)) = true ↔
      if ∃ q ∈ qs, q.effective = .mustOccur then
        ∃ q ∈ qs, q.effective = .mustOccur ∧ bounded maxClauseCount kinds q = true
      else ∀ q ∈ qs, q.effective = .shouldOccur → bounded maxClauseCount kinds q = true := by
  rw [bounded, boundedClauses, h, boundedAll_eq]
  by_cases hmust : ∃ q ∈ qs, q.effective = .mustOccur
  · simp [hmust]
  · simp only [List.any_eq_true, decide_eq_true_eq, hmust, if_false]
    simp [imp_iff_not_or]

theorem bounded_inSet {maxClauseCount : Nat} {kinds : List (Option String)}
    {o : Option Occurance} {qs : List Query} {field : String} {values : List String}
    (h : termInSetRewrite maxClauseCount qs = some (field, values)) :
    bounded maxClauseCount kinds (.mk o none (some qs)) = true ↔
      field = fieldNameKind ∧ ∀ value ∈ values, some value ∈ kinds := by
  rw [bounded, boundedClauses, h]
  simp

/-- A reading that matches a bounded query goes through an equality term on a kind, or
through a set of kinds. -/
theorem bounded_spec {maxClauseCount : Nat} {kinds : List (Option String)} {r : Reading}
    {P : Prop} (hterm : ∀ t, kindTerm kinds t = true → r.ofTerm t = true → P)
    (hset : ∀ values, (∀ value ∈ values, some value ∈ kinds) →
      r.inSet fieldNameKind values = true → P) (q : Query) :
    bounded maxClauseCount kinds q = true →
      reads (termInSetRewrite maxClauseCount) r q = true → P := by
  induction q using Query.ofAll with
  | h o t qs ih =>
      intro hbounded hreads
      rcases t with _ | t <;> rcases qs with _ | qs
      · cases hbounded
      · cases hr : termInSetRewrite maxClauseCount qs with
        | some p =>
            obtain ⟨field, values⟩ := p
            obtain ⟨rfl, hvalues⟩ := (bounded_inSet hr).mp hbounded
            rw [reads_inSet hr] at hreads
            exact hset values hvalues hreads
        | none =>
            rw [bounded_clauses hr] at hbounded
            rw [reads_clauses hr, booleanMatches_map] at hreads
            obtain ⟨hall, -, hany⟩ := hreads
            split_ifs at hbounded with hmust
            · obtain ⟨q, hq, heff, hb⟩ := hbounded
              exact ih q hq hb (hall q hq heff)
            · rcases hany with hany | ⟨q, hq, heff, hread⟩
              · exact absurd hany hmust
              · exact ih q hq (hbounded q hq heff) hread
      · exact hterm t hbounded hreads
      · cases hbounded

/-! ## A query that is not bounded -/

mutual

/-- The terms of a query, with those that a set of values is read as. -/
def atoms (maxClauseCount : Nat) : Query → List QueryTerm
  | .mk _ t qs => t.toList ++ atomsOf maxClauseCount qs

def atomsOf (maxClauseCount : Nat) : Option (List Query) → List QueryTerm
  | none => []
  | some qs =>
      match termInSetRewrite maxClauseCount qs with
      | some (field, values) => values.map fun value => ⟨some field, some value, some .term, none⟩
      | none => atomsAll maxClauseCount qs

def atomsAll (maxClauseCount : Nat) : List Query → List QueryTerm
  | [] => []
  | q :: qs => atoms maxClauseCount q ++ atomsAll maxClauseCount qs

end

theorem atomsAll_eq (maxClauseCount : Nat) (qs : List Query) :
    atomsAll maxClauseCount qs = qs.flatMap (atoms maxClauseCount) := by
  induction qs with
  | nil => rfl
  | cons q qs ih => rw [atomsAll, ih, List.flatMap_cons]

theorem atoms_clauses {maxClauseCount : Nat} {o : Option Occurance} {qs : List Query}
    (h : termInSetRewrite maxClauseCount qs = none) :
    atoms maxClauseCount (.mk o none (some qs)) = qs.flatMap (atoms maxClauseCount) := by
  rw [atoms, atomsOf, h, atomsAll_eq]
  rfl

theorem atoms_inSet {maxClauseCount : Nat} {o : Option Occurance} {qs : List Query}
    {field : String} {values : List String}
    (h : termInSetRewrite maxClauseCount qs = some (field, values)) :
    atoms maxClauseCount (.mk o none (some qs)) =
      values.map fun value => ⟨some field, some value, some .term, none⟩ := by
  rw [atoms, atomsOf, h]
  rfl

/-- With all its atoms false a query matches nothing. -/
theorem reads_atoms_false {maxClauseCount : Nat} {v : QueryTerm → Bool} (q : Query) :
    (∀ t ∈ atoms maxClauseCount q, v t = false) →
      reads (termInSetRewrite maxClauseCount) (.ofTerms v) q = false := by
  induction q using Query.ofAll with
  | h o t qs ih =>
      intro hfalse
      rcases t with _ | t <;> rcases qs with _ | qs
      · rfl
      · cases hr : termInSetRewrite maxClauseCount qs with
        | some p =>
            obtain ⟨field, values⟩ := p
            rw [reads_inSet hr]
            rw [atoms_inSet hr] at hfalse
            exact List.any_eq_false.mpr fun value hvalue => by
              simp [hfalse _ (List.mem_map_of_mem hvalue)]
        | none =>
            rw [atoms_clauses hr] at hfalse
            rw [reads_clauses hr]
            apply booleanMatches_false
            intro q hq
            exact ih q hq fun t ht => hfalse t (List.mem_flatMap.mpr ⟨q, hq, ht⟩)
      · rw [reads, Reading.ofTerm]
        cases convertTerm t with
        | ok leaf => exact hfalse t (by simp [atoms])
        | error e => rfl
      · rfl

theorem values_of_termInSetLoop : ∀ {qs : List Query} {name key : Option String}
    {acc values : List String}, termInSetLoop qs name acc = .ok (some (key, values)) →
      acc ≠ [] ∨ name = none ∧ key ≠ none → values ≠ []
  | [], name, key, acc, values, h, hne => by
      cases h
      rcases hne with hne | ⟨hname, hkey⟩
      · exact hne
      · exact absurd hname hkey
  | q :: qs, name, key, acc, values, h, hne => by
      unfold termInSetLoop at h
      split at h
      · cases h
      · split_ifs at h
        · cases h
        · split at h
          · cases h
          · exact values_of_termInSetLoop h (Or.inl (by simp))

/-- A set of values is not empty. -/
theorem values_of_termInSetRewrite {maxClauseCount : Nat} {qs : List Query} {field : String}
    {values : List String} (h : termInSetRewrite maxClauseCount qs = some (field, values)) :
    values ≠ [] := by
  unfold termInSetRewrite termInSet at h
  split at h
  · rename_i r hr
    subst h
    split_ifs at hr
    · obtain ⟨found, hloop, hfound⟩ := bind_eq_ok.mp hr
      rcases found with _ | ⟨_ | key, vs⟩
      · cases hfound
      · cases hfound
      · cases hfound
        exact values_of_termInSetLoop hloop (Or.inr ⟨rfl, by simp⟩)
    · cases hr
  · cases h

/-- An atom belongs to one clause only. -/
theorem clause_of_atom {α β : Type*} {f : α → List β} {as : List α} (hnd : (as.flatMap f).Nodup)
    {a a' : α} (ha : a ∈ as) (ha' : a' ∈ as) {b : β} (hb : b ∈ f a) (hb' : b ∈ f a') :
    a = a' := by
  by_contra hne
  have : Std.Symm (Function.onFun List.Disjoint f) := ⟨fun _ _ h => h.symm⟩
  exact (List.nodup_flatMap.mp hnd).2.forall ha ha' hne hb hb'

/-- Atoms of a query that match it if the others are false, none of them an equality on
one of the kinds. -/
structure Escapes (maxClauseCount : Nat) (kinds : List (Option String)) (q : Query)
    (ts : List QueryTerm) : Prop where
  subset : ts ⊆ atoms maxClauseCount q
  not_kind : ∀ t ∈ ts, ¬ kindTerm kinds t = true
  matched : ∀ v : QueryTerm → Bool, (∀ t ∈ ts, v t = true) →
    (∀ t ∈ atoms maxClauseCount q, t ∉ ts → v t = false) →
      reads (termInSetRewrite maxClauseCount) (.ofTerms v) q = true

section

variable {maxClauseCount : Nat} {kinds : List (Option String)} {o : Option Occurance}
  {qs : List Query}

theorem escapes_inSet {field : String} {values : List String}
    (hr : termInSetRewrite maxClauseCount qs = some (field, values))
    (hbounded : ¬ bounded maxClauseCount kinds (.mk o none (some qs)) = true) :
    ∃ ts, Escapes maxClauseCount kinds (.mk o none (some qs)) ts := by
  rw [bounded_inSet hr] at hbounded
  obtain ⟨value, hvalue, hkind⟩ : ∃ value ∈ values,
      ¬ kindTerm kinds ⟨some field, some value, some .term, none⟩ = true := by
    by_cases hfield : field = fieldNameKind
    · obtain ⟨value, hvalue, hk⟩ : ∃ value ∈ values, some value ∉ kinds := by
        simpa [hfield] using hbounded
      exact ⟨value, hvalue, by simp [kindTerm, hk]⟩
    · obtain ⟨value, hvalue⟩ := List.exists_mem_of_ne_nil values (values_of_termInSetRewrite hr)
      exact ⟨value, hvalue, by simp [kindTerm, equalsKind, hfield]⟩
  refine ⟨[⟨some field, some value, some .term, none⟩], ?_, ?_, fun v htrue _ => ?_⟩
  · rw [atoms_inSet hr]
    simpa using hvalue
  · simpa using hkind
  · rw [reads_inSet hr]
    exact List.any_eq_true.mpr ⟨value, hvalue, htrue _ (List.mem_singleton_self _)⟩

/-- A `MUST_NOT` clause has none of the atoms of the other clauses. -/
theorem reads_other_false {v : QueryTerm → Bool} {ts : List QueryTerm}
    (hnd : (qs.flatMap (atoms maxClauseCount)).Nodup)
    (hfalse : ∀ t ∈ qs.flatMap (atoms maxClauseCount), t ∉ ts → v t = false)
    (hts : ∀ t ∈ ts, ∃ q ∈ qs, q.effective ≠ .mustNotOccur ∧ t ∈ atoms maxClauseCount q)
    {q : Query} (hq : q ∈ qs) (h : q.effective = .mustNotOccur) :
    reads (termInSetRewrite maxClauseCount) (.ofTerms v) q = false := by
  apply reads_atoms_false
  intro t ht
  refine hfalse t (List.mem_flatMap.mpr ⟨q, hq, ht⟩) fun hmem => ?_
  obtain ⟨q', hq', heff, ht'⟩ := hts t hmem
  rw [clause_of_atom hnd hq hq' ht ht'] at h
  exact heff h

/-- All `MUST` clauses are matched by atoms of their own. -/
theorem escapes_must (hr : termInSetRewrite maxClauseCount qs = none)
    (hnd : (qs.flatMap (atoms maxClauseCount)).Nodup)
    (hmust : ∃ q ∈ qs, q.effective = .mustOccur)
    (h : ∀ q ∈ qs, q.effective = .mustOccur → ∃ ts, Escapes maxClauseCount kinds q ts) :
    ∃ ts, Escapes maxClauseCount kinds (.mk o none (some qs)) ts := by
  have hpick : ∀ q, ∃ ts, q ∈ qs → q.effective = .mustOccur →
      Escapes maxClauseCount kinds q ts := by
    intro q
    by_cases hq : q ∈ qs ∧ q.effective = .mustOccur
    · obtain ⟨ts, hts⟩ := h q hq.1 hq.2
      exact ⟨ts, fun _ _ => hts⟩
    · exact ⟨[], fun h₁ h₂ => absurd ⟨h₁, h₂⟩ hq⟩
  choose pick hpick using hpick
  have hmem : ∀ t ∈ (qs.filter fun q => q.effective = .mustOccur).flatMap pick,
      ∃ q ∈ qs, q.effective = .mustOccur ∧ t ∈ pick q := by
    intro t ht
    simpa [and_assoc] using ht
  refine ⟨(qs.filter fun q => q.effective = .mustOccur).flatMap pick, ?_, ?_,
    fun v htrue hfalse => ?_⟩
  · intro t ht
    obtain ⟨q, hq, heff, ht⟩ := hmem t ht
    rw [atoms_clauses hr]
    exact List.mem_flatMap.mpr ⟨q, hq, (hpick q hq heff).subset ht⟩
  · intro t ht
    obtain ⟨q, hq, heff, ht⟩ := hmem t ht
    exact (hpick q hq heff).not_kind t ht
  · rw [atoms_clauses hr] at hfalse
    rw [reads_clauses hr, booleanMatches_must hmust]
    constructor
    · intro q hq heff
      refine (hpick q hq heff).matched v (fun t ht => htrue t ?_) fun t ht hnot => ?_
      · exact List.mem_flatMap.mpr ⟨q, by simp [hq, heff], ht⟩
      · refine hfalse t (List.mem_flatMap.mpr ⟨q, hq, ht⟩) fun hother => hnot ?_
        obtain ⟨q', hq', heff', ht'⟩ := hmem t hother
        rwa [clause_of_atom hnd hq hq' ht ((hpick q' hq' heff').subset ht')]
    · intro q hq heff
      refine reads_other_false hnd hfalse (fun t ht => ?_) hq heff
      obtain ⟨q', hq', heff', ht'⟩ := hmem t ht
      exact ⟨q', hq', by simp [heff'], (hpick q' hq' heff').subset ht'⟩

/-- Without a `MUST` clause one `SHOULD` clause is matched. -/
theorem escapes_should (hr : termInSetRewrite maxClauseCount qs = none)
    (hnd : (qs.flatMap (atoms maxClauseCount)).Nodup)
    (hmust : ¬ ∃ q ∈ qs, q.effective = .mustOccur) {q : Query} (hq : q ∈ qs)
    (heff : q.effective = .shouldOccur) {ts : List QueryTerm}
    (h : Escapes maxClauseCount kinds q ts) :
    Escapes maxClauseCount kinds (.mk o none (some qs)) ts := by
  refine ⟨?_, h.not_kind, fun v htrue hfalse => ?_⟩
  · rw [atoms_clauses hr]
    exact fun t ht => List.mem_flatMap.mpr ⟨q, hq, h.subset ht⟩
  · rw [atoms_clauses hr] at hfalse
    rw [reads_clauses hr, booleanMatches_map]
    refine ⟨fun q' hq' h' => absurd ⟨q', hq', h'⟩ hmust, fun q' hq' h' => ?_,
      Or.inr ⟨q, hq, heff, h.matched v htrue fun t ht => ?_⟩⟩
    · exact reads_other_false hnd hfalse
        (fun t ht => ⟨q, hq, by simp [heff], h.subset ht⟩) hq' h'
    · exact hfalse t (List.mem_flatMap.mpr ⟨q, hq, ht⟩)

end

theorem escapes_of_not_bounded {maxClauseCount : Nat} {kinds : List (Option String)} (q : Query) :
    (∃ context r, convertToLuceneQuery maxClauseCount q context = .ok r) →
      (atoms maxClauseCount q).Nodup → ¬ bounded maxClauseCount kinds q = true →
        ∃ ts, Escapes maxClauseCount kinds q ts := by
  induction q using Query.ofAll with
  | h o t qs ih =>
      intro haccepted hnd hbounded
      rcases t with _ | t
      · rcases qs with _ | qs
        · obtain ⟨_, _, h⟩ := haccepted
          cases h
        · cases hr : termInSetRewrite maxClauseCount qs with
          | some p => exact escapes_inSet hr hbounded
          | none =>
              rw [bounded_clauses hr] at hbounded
              rw [atoms_clauses hr] at hnd
              have hescapes : ∀ q ∈ qs, ¬ bounded maxClauseCount kinds q = true →
                  ∃ ts, Escapes maxClauseCount kinds q ts := fun q hq =>
                ih q hq (accepted_clauses hr haccepted q hq) ((List.nodup_flatMap.mp hnd).1 q hq)
              split_ifs at hbounded with hmust
              · refine escapes_must hr hnd hmust fun q hq heff => hescapes q hq fun hb => ?_
                exact hbounded ⟨q, hq, heff, hb⟩
              · obtain ⟨q, hq, heff, hb⟩ : ∃ q ∈ qs, q.effective = .shouldOccur ∧
                    ¬ bounded maxClauseCount kinds q = true := by simpa using hbounded
                obtain ⟨ts, hts⟩ := hescapes q hq hb
                exact ⟨ts, escapes_should hr hnd hmust hq heff hts⟩
      · obtain ⟨hqs, leaf, hleaf⟩ := accepted_term rfl haccepted
        obtain rfl : qs = none := hqs
        refine ⟨[t], by simp [atoms], ?_, fun v htrue _ => ?_⟩
        · rintro u hu hkind
          rw [List.mem_singleton.mp hu] at hkind
          exact hbounded hkind
        · rw [Lucene.reads, Reading.ofTerm, hleaf]
          exact htrue t (List.mem_singleton_self _)

/-! ## Soundness -/

theorem kindTerm_matches {kinds : List (Option String)} {t : QueryTerm} {d : Document}
    {kind : String} (hd : d.HasKind kind) (ht : kindTerm kinds t = true)
    (h : (Reading.ofDocument d).ofTerm t = true) : some kind ∈ kinds := by
  obtain ⟨hterm, hkinds⟩ : equalsKind t = true ∧ t.matchValue ∈ kinds := by
    simpa [kindTerm] using ht
  obtain ⟨⟨hname, hrange⟩, htype⟩ : (t.propertyName = some fieldNameKind ∧ t.range = none) ∧
      t.matchType.getD .term = .term := by simpa [equalsKind] using hterm
  unfold Reading.ofTerm at h
  split at h
  · rename_i q hq
    obtain ⟨_, hvalid, hq⟩ := bind_eq_ok.mp hq
    simp only [hname, hrange, htype, Option.getD_some] at hq
    cases hq
    obtain ⟨value, hvalue⟩ : ∃ value, t.matchValue = some value := by
      cases hv : t.matchValue with
      | some value => exact ⟨value, rfl⟩
      | none => simp [validateTerm, hrange, hv, bind, Except.bind, throw, throwThe,
          MonadExceptOf.throw] at hvalid
    rw [hvalue] at h hkinds
    rwa [(hasTerm_kind hd).mp h]
  · cases h

theorem readsAtTop_of_kindScoped {maxClauseCount : Nat} {q : Query} {r : Reading}
    (h : kindScoped maxClauseCount q = true)
    (hreads : readsAtTop (termInSetRewrite maxClauseCount) r q = true) :
    bounded maxClauseCount (kindsOf maxClauseCount q) q = true ∧
      reads (termInSetRewrite maxClauseCount) r q = true := by
  obtain ⟨o, t, qs⟩ := q
  cases qs with
  | none => exact ⟨by simpa [kindScoped] using h, hreads⟩
  | some qs =>
      rw [readsAtTop_clauses] at hreads
      obtain ⟨ho, hreads⟩ := Bool.and_eq_true_iff.mp hreads
      have ho : o ≠ some .mustNotOccur := of_decide_eq_true ho
      exact ⟨by simpa [kindScoped, ho] using h, hreads⟩

/-- Truth values that match a query whose kinds do not bound it, and that make no equality
on its kinds true. -/
theorem exists_of_not_kindScoped {maxClauseCount : Nat} {q : Query} {lq : LuceneQuery}
    {context context' : Option QueryRuntimeContext}
    (hconvert : convert maxClauseCount q context = .ok (lq, context'))
    (hnd : (atoms maxClauseCount q).Nodup) (h : ¬ kindScoped maxClauseCount q = true) :
    ∃ v : QueryTerm → Bool, lq.holds (.ofTerms v) = true ∧
      ∀ t, v t = true → ¬ kindTerm (kindsOf maxClauseCount q) t = true := by
  obtain ⟨htop, hbounded⟩ := not_or.mp (Bool.or_eq_true_iff.not.mp h)
  obtain ⟨ts, hts⟩ := escapes_of_not_bounded q (accepted_of_convert hconvert) hnd hbounded
  refine ⟨fun t => decide (t ∈ ts), ?_, fun t ht => hts.not_kind t (of_decide_eq_true ht)⟩
  have hreads := hts.matched (fun t => decide (t ∈ ts)) (fun t ht => decide_eq_true ht)
    fun t _ ht => decide_eq_false ht
  rw [holds_convert hconvert]
  obtain ⟨o, t, qs⟩ := q
  cases qs with
  | none => exact hreads
  | some qs =>
      have ho : o ≠ some .mustNotOccur := by
        rintro rfl
        exact htop rfl
      rw [readsAtTop_clauses, hreads, Bool.and_true]
      exact decide_eq_true ho

/-- **The kinds of a query bound what it matches if every way to match it goes through an
equality on a kind** (`kindScoped`); then a searcher that misses an update of a kind that
the query matches is not used again. For a query without repeated terms the condition is
necessary too: without it, some truth values for the terms match the query and make no
equality on a kind in `kindScope` true. -/
theorem kindScope_sound {maxClauseCount : Nat} {q : Query} {lq : LuceneQuery}
    {kindScope : Finset (Option String)}
    (hconvert : convert maxClauseCount q (some ⟨none⟩) = .ok (lq, some ⟨some kindScope⟩)) :
    (kindScoped maxClauseCount q = true → ∀ (d : Document) (kind : String), d.HasKind kind →
      lq.matches d = true → some kind ∈ kindScope ∧
        ∀ (c : Index.Cache) (interval now : Int) (selfLink : Option String)
          (resultLimit searcherUpdateTime updateTime : Int),
          selfLink = none ∨ resultLimit ≠ 1 →
          c.documentKindUpdateInfo kind = some updateTime → searcherUpdateTime < updateTime →
            c.documentNeedsNewSearcher interval now selfLink (some kindScope) resultLimit
              searcherUpdateTime false = true) ∧
    ((atoms maxClauseCount q).Nodup →
      (kindScoped maxClauseCount q = true ↔ ∀ v, lq.holds (.ofTerms v) = true →
        ∃ t, equalsKind t = true ∧ t.matchValue ∈ kindScope ∧ v t = true)) := by
  have hmem := mem_kindScope hconvert
  have hkindTerm : ∀ t, kindTerm (kindsOf maxClauseCount q) t = true ↔
      equalsKind t = true ∧ t.matchValue ∈ kindScope := by
    intro t
    simp [kindTerm, hmem]
  constructor
  · intro hscoped d kind hd hmatch
    rw [LuceneQuery.matches, holds_convert hconvert] at hmatch
    obtain ⟨hbounded, hreads⟩ := readsAtTop_of_kindScoped hscoped hmatch
    have hkind : some kind ∈ kindScope := by
      rw [hmem]
      refine bounded_spec (fun t ht h => kindTerm_matches hd ht h) (fun values hvalues h => ?_) q
        hbounded hreads
      obtain ⟨value, hvalue, hterm⟩ := List.any_eq_true.mp h
      rw [(hasTerm_kind hd).mp hterm]
      exact hvalues value hvalue
    refine ⟨hkind, fun c interval now selfLink resultLimit searcherUpdateTime updateTime hsingle
      htime hlt => ?_⟩
    have hle := Index.le_kindsUpdateTime hkind htime
    have hneeds : searcherUpdateTime < c.kindsUpdateTime kindScope := lt_of_lt_of_le hlt hle
    -- the cache is asked about the kinds unless the query is for one document
    rcases hsingle with rfl | hlimit
    · simp [Index.Cache.documentNeedsNewSearcher, hneeds]
    · cases selfLink with
      | none => simp [Index.Cache.documentNeedsNewSearcher, hneeds]
      | some selfLink => simp [Index.Cache.documentNeedsNewSearcher, hlimit, hneeds]
  · intro hnd
    constructor
    · intro hscoped v hv
      rw [holds_convert hconvert] at hv
      obtain ⟨hbounded, hreads⟩ := readsAtTop_of_kindScoped hscoped hv
      refine bounded_spec (fun t ht h => ?_) (fun values hvalues h => ?_) q hbounded hreads
      · obtain ⟨hequals, hvalue⟩ := (hkindTerm t).mp ht
        refine ⟨t, hequals, hvalue, ?_⟩
        unfold Reading.ofTerm at h
        split at h
        · exact h
        · cases h
      · obtain ⟨value, hvalue, hterm⟩ := List.any_eq_true.mp h
        exact ⟨_, rfl, (hmem _).mpr (hvalues value hvalue), hterm⟩
    · intro hall
      by_contra hscoped
      obtain ⟨v, hv, hfalse⟩ := exists_of_not_kindScoped hconvert hnd hscoped
      obtain ⟨t, hequals, hvalue, ht⟩ := hall v hv
      exact hfalse t ht ((hkindTerm t).mpr ⟨hequals, hvalue⟩)

/-- `name = x AND (kind = A OR kind = B)`. -/
theorem kindScope_sound_conjunction :
    let kind (value : String) : Query :=
      .ofTerm (some .shouldOccur) ⟨some "documentKind", some value, some .term, none⟩
    let q : Query := .ofClauses none
      [.ofTerm none ⟨some "name", some "x", some .term, none⟩,
        .ofClauses none [kind "A", kind "B"]]
    kindScoped 1024 q = true ∧ ∃ lq kindScope,
      convert 1024 q (some ⟨none⟩) = .ok (lq, some ⟨some kindScope⟩) ∧
        ∀ d kind, d.HasKind kind → lq.matches d = true → some kind ∈ kindScope := by
  intro kind q
  have h : kindScoped 1024 q = true := by decide +kernel
  obtain ⟨lq, kindScope, hconvert⟩ : ∃ lq kindScope,
      convert 1024 q (some ⟨none⟩) = .ok (lq, some ⟨some kindScope⟩) := ⟨_, _, rfl⟩
  exact ⟨h, lq, kindScope, hconvert, fun d kind hd hm =>
    ((kindScope_sound hconvert).1 h d kind hd hm).1⟩

/-- `kind = A OR name = x` matches a document of kind `B`. -/
theorem kindScope_misses_kind :
    ¬ ∀ (maxClauseCount : Nat) (q : Query) (lq : LuceneQuery) (kindScope : Finset (Option String)),
      convert maxClauseCount q (some ⟨none⟩) = .ok (lq, some ⟨some kindScope⟩) →
        ∀ (d : Document) (kind : String), d.HasKind kind → lq.matches d = true →
          some kind ∈ kindScope := by
  intro h
  have := h 1024 (.ofClauses none
    [.ofTerm (some .shouldOccur) ⟨some "documentKind", some "A", some .term, none⟩,
      .ofTerm (some .shouldOccur) ⟨some "name", some "x", some .term, none⟩]) _ _ rfl
    ⟨fun field => if field = "documentKind" then [(0, "B")] else [(0, "x")], fun _ => [],
      fun _ => []⟩ "B" rfl rfl
  revert this
  decide

end Xenon.Lucene
