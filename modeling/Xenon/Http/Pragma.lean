import Mathlib.Data.List.Induction
import Xenon.Http.Headers

/-!
# Pragma directives

The directives of an operation stand in one header value, with semicolons between them. A directive
is found wherever its text ends at a semicolon or at the end of the value: that it also begins
there is not checked.
-/

namespace Xenon.Http.Headers

open Xenon.Foundation Xenon.Foundation.Text Xenon.Http.ServiceClient

/-! ## Places of a directive -/

section Places

variable {α : Type*} {c : α}

/-- The parts of a text, with a separator after each of them. -/
def flat (c : α) (parts : List (List α)) : List α :=
  parts.flatMap (· ++ [c])

@[simp] theorem flat_nil : flat c [] = [] := rfl

@[simp] theorem flat_cons (s : List α) (parts : List (List α)) :
    flat c (s :: parts) = s ++ c :: flat c parts := by
  simp [flat]

@[simp] theorem flat_append (parts parts' : List (List α)) :
    flat c (parts ++ parts') = flat c parts ++ flat c parts' := by
  simp [flat]

/-- A text that ends before its first separator. -/
theorem prefix_separated_iff {a b t : List α} (ha : c ∉ a) (hb : c ∉ b) :
    a ++ [c] <+: b ++ c :: t ↔ a = b := by
  constructor
  · rintro ⟨z, hz⟩
    induction a generalizing b with
    | nil =>
        cases b with
        | nil => rfl
        | cons y b =>
            obtain ⟨rfl, -⟩ := List.cons.inj hz
            exact absurd List.mem_cons_self hb
    | cons x a ih =>
        cases b with
        | nil =>
            obtain ⟨rfl, -⟩ := List.cons.inj hz
            exact absurd List.mem_cons_self ha
        | cons y b =>
            obtain ⟨rfl, hrest⟩ := List.cons.inj hz
            rw [ih (fun h => ha (List.mem_cons_of_mem _ h)) (fun h => hb (List.mem_cons_of_mem _ h))
              hrest]
  · rintro rfl
    exact ⟨t, by simp⟩

/-- A text with a separator after it stands where a part ends with it. -/
theorem stands_iff {parts : List (List α)} {d : List α} (hparts : ∀ s ∈ parts, c ∉ s) (hd : c ∉ d)
    (p : Nat) :
    d ++ [c] <+: (flat c parts).drop p ↔
      ∃ l s r, parts = l ++ (s ++ d) :: r ∧ p = (flat c l).length + s.length := by
  induction parts generalizing p with
  | nil => simp
  | cons s₀ parts ih =>
      have hs₀ : c ∉ s₀ := hparts s₀ List.mem_cons_self
      have hrest : ∀ s ∈ parts, c ∉ s := fun s hs => hparts s (List.mem_cons_of_mem _ hs)
      rw [flat_cons]
      -- the index is within the first part, or behind its separator
      by_cases hp : p ≤ s₀.length
      · have hdrop : c ∉ s₀.drop p := fun h => hs₀ (List.mem_of_mem_drop h)
        rw [List.drop_append_of_le_length hp, prefix_separated_iff hd hdrop]
        constructor
        · rintro rfl
          refine ⟨[], s₀.take p, parts, ?_, ?_⟩
          · rw [List.take_append_drop, List.nil_append]
          · simp [hp]
        · rintro ⟨l, s, r, hsplit, rfl⟩
          cases l with
          | nil =>
              obtain ⟨rfl, -⟩ := List.cons.inj hsplit
              simp
          | cons s' l =>
              obtain ⟨rfl, -⟩ := List.cons.inj hsplit
              simp only [flat_cons, List.length_append, List.length_cons] at hp
              omega
      · obtain ⟨q, rfl⟩ : ∃ q, p = (s₀ ++ [c]).length + q := by
          refine ⟨p - (s₀.length + 1), ?_⟩
          simp only [List.length_append, List.length_singleton]
          omega
        have hassoc : s₀ ++ c :: flat c parts = (s₀ ++ [c]) ++ flat c parts := by simp
        rw [hassoc, List.drop_length_add_append, ih hrest]
        constructor
        · rintro ⟨l, s, r, rfl, rfl⟩
          refine ⟨s₀ :: l, s, r, rfl, ?_⟩
          simp only [flat_cons, List.length_append, List.length_cons, List.length_nil]
          omega
        · rintro ⟨l, s, r, hsplit, hq⟩
          cases l with
          | nil =>
              obtain ⟨rfl, -⟩ := List.cons.inj hsplit
              simp only [flat_nil, List.length_append, List.length_nil, List.length_cons] at hq
              omega
          | cons s' l =>
              obtain ⟨rfl, rfl⟩ := List.cons.inj hsplit
              refine ⟨l, s, r, rfl, ?_⟩
              simp only [flat_cons, List.length_append, List.length_cons, List.length_nil] at hq
              omega

/-- The first part that ends with the text is found, here one that is the text. -/
theorem indexOf_flat [DecidableEq α] {l r : List (List α)} {d : List α}
    (hparts : ∀ t ∈ l ++ d :: r, c ∉ t) (hfirst : ∀ t ∈ l, ¬ d <:+ t) :
    indexOf (flat c (l ++ d :: r)) (d ++ [c]) 0 = some (flat c l).length := by
  have hd : c ∉ d := hparts d (by simp)
  apply indexOf_eq_some.mpr
  refine ⟨Nat.zero_le _, ?_, ?_, ?_⟩
  · rw [flat_append, List.length_append]
    omega
  · exact (stands_iff hparts hd _).mpr ⟨l, [], r, rfl, rfl⟩
  · intro p _ hp hstart
    obtain ⟨l', s, r', hsplit, rfl⟩ := (stands_iff hparts hd p).mp hstart
    rcases List.append_eq_append_iff.mp hsplit with ⟨a, rfl, -⟩ | ⟨a, rfl, ha⟩
    · rw [flat_append, List.length_append] at hp
      omega
    · cases a with
      | nil =>
          rw [List.append_nil] at hp
          omega
      | cons t a =>
          obtain ⟨rfl, -⟩ := List.cons.inj ha
          exact hfirst (s ++ d) (by simp) (List.suffix_append s d)

theorem indexOf_flat_eq_none [DecidableEq α] {parts : List (List α)} {d : List α}
    (hparts : ∀ s ∈ parts, c ∉ s) (hd : c ∉ d) :
    indexOf (flat c parts) (d ++ [c]) 0 = none ↔ ∀ s ∈ parts, ¬ d <:+ s := by
  rw [indexOf_eq_none]
  constructor
  · rintro h t ht ⟨s, rfl⟩
    obtain ⟨l, r, rfl⟩ := List.append_of_mem ht
    apply h ((flat c l).length + s.length) (Nat.zero_le _)
    · simp only [flat_append, flat_cons, List.length_append]
      omega
    · exact (stands_iff hparts hd _).mpr ⟨l, s, r, rfl, rfl⟩
  · intro h p _ _ hstart
    obtain ⟨l, s, r, rfl, -⟩ := (stands_iff hparts hd p).mp hstart
    exact h (s ++ d) (by simp) (List.suffix_append s d)

end Places

/-! ## The search for a directive -/

/-- A place is accepted where the directive stands with a separator after it. -/
theorem accepted_iff {text directive : List Char} {i : Nat} (hi : i ≤ text.length) :
    directive ++ [separator] <+: (text ++ [separator]).drop i ↔
      directive <+: text.drop i ∧ (i + directive.length = text.length ∨
        text[i + directive.length]? = some separator) := by
  rw [List.drop_append_of_le_length hi, ← List.getElem?_drop]
  have hlength : i + directive.length = text.length ↔ directive.length = (text.drop i).length := by
    rw [List.length_drop]
    omega
  rw [hlength]
  generalize text.drop i = u
  constructor
  · rintro ⟨z, hz⟩
    rcases List.eq_nil_or_concat' z with rfl | ⟨z, e, rfl⟩
    · have hu : directive = u := by simpa using hz
      exact ⟨⟨[], by simp [hu]⟩, Or.inl (congrArg List.length hu)⟩
    · have hu : u = directive ++ separator :: z := by
        have hsplit : (directive ++ separator :: z) ++ [e] = u ++ [separator] := by simpa using hz
        exact (List.append_inj' hsplit rfl).1.symm
      rw [hu]
      exact ⟨⟨separator :: z, rfl⟩, Or.inr (by simp)⟩
  · rintro ⟨⟨z, rfl⟩, hend⟩
    rcases hend with hend | hend
    · obtain rfl : z = [] := by
        rw [List.length_append] at hend
        exact List.eq_nil_of_length_eq_zero (by omega)
      simp
    · rw [List.getElem?_append_right (le_refl _), Nat.sub_self] at hend
      cases z with
      | nil => cases hend
      | cons e z =>
          obtain rfl := Option.some.inj hend
          exact ⟨z ++ [separator], by simp⟩

theorem indexOfPragmaDirectiveFrom_eq {text directive : List Char}
    {rounds i : Nat} (hrounds : text.length + 1 < rounds + i) :
    indexOfPragmaDirectiveFrom text directive rounds i =
      indexOf (text ++ [separator]) (directive ++ [separator]) i := by
  -- behind the end of the text nothing is found
  have hafter : ∀ j, text.length < j →
      ¬ directive ++ [separator] <+: (text ++ [separator]).drop j := by
    intro j hj
    apply not_prefix_drop (by simp)
    rw [List.length_append, List.length_singleton]
    omega
  induction rounds generalizing i with
  | zero =>
      symm
      apply indexOf_eq_none.mpr
      intro j hj _
      exact hafter j (by omega)
  | succ rounds ih =>
      cases hfound : indexOf text directive i with
      | none =>
          rw [indexOfPragmaDirectiveFrom, hfound]
          symm
          apply indexOf_eq_none.mpr
          intro j hj _
          by_cases hlength : j ≤ text.length
          · rw [accepted_iff hlength]
            exact fun h => indexOf_eq_none.mp hfound j hj hlength h.1
          · exact hafter j (by omega)
      | some j =>
          obtain ⟨hj, hlength, hstart, hfirst⟩ := indexOf_eq_some.mp hfound
          -- the search for the bare directive passes no accepted index
          have hskip : ∀ k, i ≤ k → k < j →
              ¬ directive ++ [separator] <+: (text ++ [separator]).drop k := by
            intro k hk hlt
            rw [accepted_iff (by omega)]
            exact fun h => hfirst k hk hlt h.1
          rw [indexOfPragmaDirectiveFrom, hfound]
          dsimp only
          split_ifs with haccepted
          · symm
            apply indexOf_eq_some.mpr
            refine ⟨hj, ?_, (accepted_iff hlength).mpr ⟨hstart, haccepted⟩, hskip⟩
            rw [List.length_append]
            omega
          · rw [ih (by omega)]
            symm
            apply indexOf_eq_indexOf (by omega)
            intro k hk hlt
            rcases Nat.lt_or_eq_of_le (Nat.le_of_lt_succ hlt) with hlt | rfl
            · exact hskip k hk hlt
            · rw [accepted_iff hlength]
              exact fun h => haccepted h.2

theorem indexOfPragmaDirective_eq (text directive : List Char) :
    indexOfPragmaDirective text directive =
      indexOf (text ++ [separator]) (directive ++ [separator]) 0 :=
  indexOfPragmaDirectiveFrom_eq (by omega)

/-! ## Directives as a set -/

/-- A directive: not empty, without a separator and a carriage return, and without blanks around
it. -/
structure Directive where
  text : List Char
  nonempty : text ≠ []
  noSeparator : separator ∉ text
  noCr : '\r' ∉ text
  trimmed : trim text = text

/-- Calls with directives of a vocabulary. -/
inductive PragmaCall (δ : Type*) where
  | add (d : δ)
  | remove (d : δ)

variable {vocabulary : Set Directive}

def PragmaCall.directive : PragmaCall vocabulary → vocabulary
  | .add d | .remove d => d

def PragmaCall.apply (ctx : RemoteContext) : PragmaCall vocabulary → RemoteContext
  | .add d => ctx.addPragmaDirective d.1.text
  | .remove d => ctx.removePragmaDirective d.1.text

/-- The headers after some calls on an operation without directives. -/
def afterCalls (calls : List (PragmaCall vocabulary)) : RemoteContext :=
  calls.foldl PragmaCall.apply {}

def HasDirective (calls : List (PragmaCall vocabulary)) (d : vocabulary) : Prop :=
  (afterCalls calls).hasPragmaDirective d.1.text = true

/-- The directive was added after its last removal. -/
def Added (calls : List (PragmaCall vocabulary)) (d : vocabulary) : Prop :=
  ∃ before after, calls = before ++ .add d :: after ∧ .remove d ∉ after

/-- After every call, a directive of the vocabulary is found if and only if it was added after its
last removal, and a call changes this for its own directive only. -/
structure ActsAsSet (calls : List (PragmaCall vocabulary)) : Prop where
  found : ∀ before, before <+: calls → ∀ d, HasDirective before d ↔ Added before d
  frame : ∀ before call, before ++ [call] <+: calls → ∀ d ≠ call.directive,
    HasDirective (before ++ [call]) d ↔ HasDirective before d

/-- At no time a directive ends with another one that was not added. -/
def Separate (calls : List (PragmaCall vocabulary)) : Prop :=
  ∀ before, before <+: calls → ∀ d x, Added before x → d.1.text <:+ x.1.text → Added before d

theorem afterCalls_snoc (calls : List (PragmaCall vocabulary)) (call : PragmaCall vocabulary) :
    afterCalls (calls ++ [call]) = call.apply (afterCalls calls) := by
  rw [afterCalls, List.foldl_append]
  rfl

theorem not_added_nil (d : vocabulary) : ¬ Added [] d := by
  rintro ⟨before, after, h, -⟩
  simp at h

theorem added_snoc (calls : List (PragmaCall vocabulary)) (call : PragmaCall vocabulary)
    (d : vocabulary) :
    Added (calls ++ [call]) d ↔ call = .add d ∨ (call ≠ .remove d ∧ Added calls d) := by
  constructor
  · rintro ⟨before, after, hsplit, hafter⟩
    rcases List.eq_nil_or_concat' after with rfl | ⟨after, last, rfl⟩
    · left
      exact (List.append_inj' hsplit rfl).2 |> List.cons.inj |>.1
    · right
      have hsplit' : calls ++ [call] = (before ++ .add d :: after) ++ [last] := by
        rw [hsplit]; simp
      obtain ⟨rfl, hlast⟩ := List.append_inj' hsplit' rfl
      obtain rfl := (List.cons.inj hlast).1
      refine ⟨?_, before, after, rfl, ?_⟩
      · rintro rfl
        exact hafter (by simp)
      · intro hmem
        exact hafter (by simp [hmem])
  · rintro (rfl | ⟨hne, before, after, rfl, hafter⟩)
    · exact ⟨calls, [], rfl, List.not_mem_nil⟩
    · refine ⟨before, after ++ [call], by simp, ?_⟩
      rw [List.mem_append, List.mem_singleton]
      rintro (h | h)
      · exact hafter h
      · exact hne h.symm

theorem added_snoc_of_ne {calls : List (PragmaCall vocabulary)} {call : PragmaCall vocabulary}
    {d : vocabulary} (hd : d ≠ call.directive) : Added (calls ++ [call]) d ↔ Added calls d := by
  rw [added_snoc]
  cases call with
  | add e =>
      have hne : e ≠ d := fun h => hd h.symm
      simp [hne]
  | remove e =>
      have hne : e ≠ d := fun h => hd h.symm
      simp [hne]

theorem separator_visible : 32 < separator.toNat := by decide

theorem Directive.visible_head (d : Directive) {c : Char} (h : d.text.head? = some c) :
    32 < c.toNat := by
  rw [← d.trimmed] at h
  exact visible_of_head?_trim h

theorem Directive.visible_getLast (d : Directive) {c : Char} (h : d.text.getLast? = some c) :
    32 < c.toNat := by
  rw [← d.trimmed] at h
  exact visible_of_getLast?_trim h

/-- The parts of the header value are the directives that were added, in an order in which none
ends an earlier one; the first part may also be empty. -/
structure Holds (ctx : RemoteContext) (calls : List (PragmaCall vocabulary))
    (parts : List (List Char)) : Prop where
  value : ∀ text, ctx.requestHeaders pragmaHeader = some text →
    text ++ [separator] = flat separator parts
  absent : ctx.requestHeaders pragmaHeader = none → parts = []
  directives : ∀ s ∈ parts, s ≠ [] → ∃ d : vocabulary, d.1.text = s
  order : parts.Pairwise fun s t => t ≠ [] → ¬ t <:+ s
  members : ∀ d : vocabulary, d.1.text ∈ parts ↔ Added calls d

section Step

variable {ctx : RemoteContext} {calls : List (PragmaCall vocabulary)} {parts : List (List Char)}

theorem Holds.noSeparator (h : Holds ctx calls parts) : ∀ s ∈ parts, separator ∉ s := by
  intro s hs
  by_cases hne : s = []
  · rw [hne]
    exact List.not_mem_nil
  · obtain ⟨d, rfl⟩ := h.directives s hs hne
    exact d.1.noSeparator

theorem Holds.index_eq_none (h : Holds ctx calls parts) {text : List Char}
    (htext : ctx.requestHeaders pragmaHeader = some text) (d : vocabulary) :
    indexOfPragmaDirective text d.1.text = none ↔ ∀ s ∈ parts, ¬ d.1.text <:+ s := by
  rw [indexOfPragmaDirective_eq, h.value text htext,
    indexOf_flat_eq_none h.noSeparator d.1.noSeparator]

/-- A part that ends with a directive is itself one. -/
theorem Holds.exists_suffix_iff (h : Holds ctx calls parts) (d : vocabulary) :
    (∃ s ∈ parts, d.1.text <:+ s) ↔ ∃ x, Added calls x ∧ d.1.text <:+ x.1.text := by
  constructor
  · rintro ⟨s, hs, hsuffix⟩
    have hne : s ≠ [] := by
      rintro rfl
      exact d.1.nonempty (List.suffix_nil.mp hsuffix)
    obtain ⟨x, rfl⟩ := h.directives s hs hne
    exact ⟨x, (h.members x).mp hs, hsuffix⟩
  · rintro ⟨x, hx, hsuffix⟩
    exact ⟨x.1.text, (h.members x).mpr hx, hsuffix⟩

theorem Holds.has_iff (h : Holds ctx calls parts) (d : vocabulary) :
    ctx.hasPragmaDirective d.1.text = true ↔ ∃ x, Added calls x ∧ d.1.text <:+ x.1.text := by
  rw [← h.exists_suffix_iff]
  unfold RemoteContext.hasPragmaDirective
  cases htext : ctx.requestHeaders pragmaHeader with
  | none => simp [h.absent htext]
  | some text =>
      have hnone := h.index_eq_none htext d
      simp only [decide_eq_true_eq, ne_eq, hnone]
      push Not
      rfl

theorem holds_nil : Holds {} ([] : List (PragmaCall vocabulary)) [] where
  value _ h := by cases h
  absent _ := rfl
  directives _ hs := by cases hs
  order := List.Pairwise.nil
  members d := iff_of_false List.not_mem_nil (not_added_nil d)

/-- A value that is made of directives is stored as it is. -/
theorem normalized_eq {text : List Char} (htext : text ++ [separator] = flat separator parts)
    (hparts : ∀ s ∈ parts, s ≠ [] → ∃ d : vocabulary, d.1.text = s)
    (hlast : ∀ c, text.getLast? = some c → 32 < c.toNat) :
    trim (removeString text crLf) = text := by
  have hcr : '\r' ∉ text := by
    intro hmem
    have hflat : '\r' ∈ flat separator parts := by
      rw [← htext]
      exact List.mem_append_left _ hmem
    obtain ⟨s, hs, hcs⟩ := List.mem_flatMap.mp hflat
    rcases List.mem_append.mp hcs with hcs | hcs
    · obtain ⟨d, rfl⟩ := hparts s hs (List.ne_nil_of_mem hcs)
      exact d.1.noCr hcs
    · exact absurd (List.mem_singleton.mp hcs) (by decide)
  have habsent : ∀ i, ¬ crLf <+: text.drop i := by
    rintro i ⟨t, ht⟩
    apply hcr
    apply List.mem_of_mem_drop (i := i)
    rw [← ht]
    exact List.mem_cons_self
  rw [removeString_crLf, removeCrLf_of_absent habsent]
  apply trim_eq_self _ hlast
  intro c hc
  have hhead : (flat separator parts).head? = some c := by
    rw [← htext, List.head?_append, hc]
    rfl
  cases parts with
  | nil => cases hhead
  | cons s parts =>
      rw [flat_cons] at hhead
      cases s with
      | nil =>
          obtain rfl := Option.some.inj hhead
          exact separator_visible
      | cons e s =>
          obtain rfl := Option.some.inj hhead
          obtain ⟨d, hd⟩ := hparts (e :: s) List.mem_cons_self (List.cons_ne_nil e s)
          apply d.1.visible_head
          rw [hd]
          rfl

theorem text_injective {d e : vocabulary} (h : d.1.text = e.1.text) : d = e := by
  obtain ⟨⟨text, _⟩, _⟩ := d
  obtain ⟨⟨text', _⟩, _⟩ := e
  obtain rfl : text = text' := h
  rfl

/-- A directive that is not found is put after the others. -/
theorem Holds.append (h : Holds ctx calls parts) {d : vocabulary}
    (habsent : ∀ s ∈ parts, ¬ d.1.text <:+ s) :
    Holds (ctx.addPragmaDirective d.1.text) (calls ++ [.add d]) (parts ++ [d.1.text]) := by
  have hparts : ∀ s ∈ parts ++ [d.1.text], s ≠ [] → ∃ d : vocabulary, d.1.text = s := by
    intro s hs hne
    rcases List.mem_append.mp hs with hs | hs
    · exact h.directives s hs hne
    · exact ⟨d, (List.mem_singleton.mp hs).symm⟩
  obtain ⟨text, hwith, htext, hlast⟩ : ∃ text, ctx.withDirective d.1.text = some text ∧
      text ++ [separator] = flat separator (parts ++ [d.1.text]) ∧
        text.getLast? = d.1.text.getLast? := by
    unfold RemoteContext.withDirective
    cases hvalue : ctx.requestHeaders pragmaHeader with
    | none =>
        refine ⟨d.1.text, rfl, ?_, rfl⟩
        rw [h.absent hvalue]
        simp
    | some existing =>
        have hnone := (h.index_eq_none hvalue d).mpr habsent
        refine ⟨existing ++ separator :: d.1.text, ?_, ?_, ?_⟩
        · simp [hnone]
        · rw [flat_append, ← h.value existing hvalue]
          simp
        · rw [List.getLast?_append, List.getLast?_cons]
          cases hd : d.1.text.getLast? with
          | none => exact absurd (List.getLast?_eq_none_iff.mp hd) d.1.nonempty
          | some c => rfl
  have hstored : (ctx.addPragmaDirective d.1.text).requestHeaders pragmaHeader = some text := by
    unfold RemoteContext.addPragmaDirective
    rw [hwith]
    dsimp only
    rw [RemoteContext.putRequestHeader_self, normalized_eq htext hparts]
    rw [hlast]
    exact fun c => d.1.visible_getLast
  constructor
  case value =>
    intro text' htext'
    rw [hstored, Option.some.injEq] at htext'
    rw [← htext', htext]
  case absent =>
    intro hnone
    rw [hstored] at hnone
    cases hnone
  case directives => exact hparts
  case order =>
    apply List.pairwise_append.mpr
    refine ⟨h.order, List.pairwise_singleton _ _, ?_⟩
    intro s hs t ht _
    rw [List.mem_singleton.mp ht]
    exact habsent s hs
  case members =>
    intro e
    rw [added_snoc, List.mem_append, List.mem_singleton, h.members]
    constructor
    · rintro (he | he)
      · exact Or.inr ⟨by simp, he⟩
      · rw [text_injective he]
        exact Or.inl rfl
    · rintro (he | ⟨-, he⟩)
      · obtain rfl := PragmaCall.add.inj he
        exact Or.inr rfl
      · exact Or.inl he

/-- What stands before a separator at the end of the value is the value. -/
theorem exists_of_append_separator {text a b : List Char} (hb : b ≠ [])
    (h : text ++ [separator] = a ++ b) : ∃ w, text = a ++ w ∧ w ++ [separator] = b := by
  rcases List.eq_nil_or_concat' b with rfl | ⟨w, e, rfl⟩
  · exact absurd rfl hb
  · rw [← List.append_assoc] at h
    obtain ⟨rfl, he⟩ := List.append_inj' h rfl
    exact ⟨w, rfl, by rw [he]⟩

/-- The header without the directive at which it is cut: its parts are those that are left. Where
the directive is the first one, what follows it begins with a separator. -/
theorem exists_removed {d : List Char} {l r : List (List Char)} {text : List Char}
    (hvalue : ctx.requestHeaders pragmaHeader = some text)
    (htext : text ++ [separator] = flat separator (l ++ d :: r))
    (hindex : indexOfPragmaDirective text d = some (flat separator l).length) :
    ∃ parts value, (ctx.removePragmaDirective d).requestHeaders pragmaHeader = some value ∧
      value ++ [separator] = flat separator parts ∧
        ((l = [] ∧ parts = [] :: r) ∨ parts = l ++ r) := by
  obtain ⟨w, hw', hw⟩ : ∃ w, text = flat separator l ++ d ++ w ∧
      w ++ [separator] = separator :: flat separator r := by
    apply exists_of_append_separator (List.cons_ne_nil _ _)
    rw [htext]
    simp
  have hdrop : text.drop ((flat separator l).length + d.length) = w := by
    rw [hw', ← List.length_append, List.drop_left]
  unfold RemoteContext.removePragmaDirective
  rw [hvalue]
  dsimp only
  rw [hindex]
  dsimp only
  rcases List.eq_nil_or_concat' l with rfl | ⟨l, t, rfl⟩
  · refine ⟨[] :: r, w, ?_, ?_, Or.inl ⟨rfl, rfl⟩⟩
    · have hzero : (flat separator []).length = 0 := rfl
      rw [if_pos hzero, RemoteContext.putRequestHeader_self, hdrop]
    · rw [hw]
      simp
  · have hflat : flat separator (l ++ [t]) = (flat separator l ++ t) ++ [separator] := by simp
    have hpositive : (flat separator (l ++ [t])).length ≠ 0 := by
      rw [hflat]
      simp
    refine ⟨(l ++ [t]) ++ r, flat separator l ++ t ++ w, ?_, ?_, Or.inr rfl⟩
    · rw [if_neg hpositive, RemoteContext.putRequestHeader_self, hdrop, hw', hflat]
      congr 2
      rw [List.length_append, List.length_singleton, Nat.add_sub_cancel, List.append_assoc,
        List.append_assoc, List.take_left]
    · rw [List.append_assoc, hw, flat_append, hflat]
      simp

/-- A directive that was added is cut out, with the separator before it or else without one. -/
theorem Holds.remove (h : Holds ctx calls parts) {d : vocabulary} (hd : Added calls d) :
    ∃ parts', Holds (ctx.removePragmaDirective d.1.text) (calls ++ [.remove d]) parts' := by
  obtain ⟨l, r, rfl⟩ := List.append_of_mem ((h.members d).mpr hd)
  obtain ⟨-, hr, hlr⟩ := List.pairwise_append.mp h.order
  -- no earlier part ends with the directive, so the search stops at its own part
  have hl : ∀ t ∈ l, ¬ d.1.text <:+ t := fun t ht => hlr t ht d.1.text (by simp) d.1.nonempty
  obtain ⟨hdr, hr⟩ := List.pairwise_cons.mp hr
  obtain ⟨text, hvalue⟩ : ∃ text, ctx.requestHeaders pragmaHeader = some text := by
    apply Option.ne_none_iff_exists'.mp
    intro hnone
    exact absurd (h.absent hnone) (by simp)
  have hindex : indexOfPragmaDirective text d.1.text = some (flat separator l).length := by
    rw [indexOfPragmaDirective_eq, h.value text hvalue]
    exact indexOf_flat h.noSeparator hl
  obtain ⟨parts', value', hstored, hvalue', hparts'⟩ :=
    exists_removed hvalue (h.value text hvalue) hindex
  have hsubset : ∀ s ∈ parts', s ≠ [] → s ∈ l ++ d.1.text :: r := by
    intro s hs hne
    rcases hparts' with ⟨rfl, rfl⟩ | rfl
    · rcases List.mem_cons.mp hs with rfl | hs
      · exact absurd rfl hne
      · simp [hs]
    · rcases List.mem_append.mp hs with hs | hs
      · simp [hs]
      · simp [hs]
  refine ⟨parts', ?_⟩
  constructor
  case value =>
    intro text' htext'
    rw [hstored, Option.some.injEq] at htext'
    rw [← htext', hvalue']
  case absent =>
    intro hnone
    rw [hstored] at hnone
    cases hnone
  case directives =>
    intro s hs hne
    exact h.directives s (hsubset s hs hne) hne
  case order =>
    rcases hparts' with ⟨rfl, rfl⟩ | rfl
    · apply List.pairwise_cons.mpr
      refine ⟨?_, hr⟩
      intro t _ hne hsuffix
      exact hne (List.suffix_nil.mp hsuffix)
    · exact List.Pairwise.sublist
        (List.Sublist.append_left (List.sublist_cons_self d.1.text r) l) h.order
  case members =>
    intro e
    have hmem : e.1.text ∈ parts' ↔ e.1.text ∈ l ++ r := by
      rcases hparts' with ⟨rfl, rfl⟩ | rfl
      · rw [List.mem_cons, List.nil_append]
        exact or_iff_right e.1.nonempty
      · rfl
    have hnotl : d.1.text ∉ l := fun hdl => hl _ hdl (List.suffix_refl _)
    have hnotr : d.1.text ∉ r := fun hdr' => hdr _ hdr' d.1.nonempty (List.suffix_refl _)
    rw [hmem, added_snoc, ← h.members e, List.mem_append, List.mem_append, List.mem_cons]
    by_cases he : e = d
    · subst he
      simp [hnotl, hnotr]
    · have hne : e.1.text ≠ d.1.text := fun htext => he (text_injective htext)
      have hcall : PragmaCall.remove d ≠ .remove e := fun hcall =>
        he (PragmaCall.remove.inj hcall).symm
      simp [hne, hcall]

/-- A call that finds what it is to add, or nothing to remove, leaves the header. -/
theorem Holds.unchanged (h : Holds ctx calls parts) {call : PragmaCall vocabulary}
    (hcall : ∀ d, Added (calls ++ [call]) d ↔ Added calls d) :
    Holds ctx (calls ++ [call]) parts where
  value := h.value
  absent := h.absent
  directives := h.directives
  order := h.order
  members d := by rw [hcall, h.members]

/-- One call, while no directive that was added ends with one that was not. -/
theorem Holds.apply (h : Holds ctx calls parts) (call : PragmaCall vocabulary)
    (hseparate : ∀ d x, Added calls x → d.1.text <:+ x.1.text → Added calls d) :
    ∃ parts', Holds (call.apply ctx) (calls ++ [call]) parts' := by
  -- a part that only ends like `d` is found too; by `hseparate` `d` was added then
  have hhas : ∀ d, (∃ s ∈ parts, d.1.text <:+ s) ↔ Added calls d := by
    intro d
    rw [h.exists_suffix_iff]
    constructor
    · rintro ⟨x, hx, hsuffix⟩
      exact hseparate d x hx hsuffix
    · intro hd
      exact ⟨d, hd, List.suffix_refl _⟩
  cases call with
  | add d =>
      by_cases hd : Added calls d
      · have hsame : ctx.addPragmaDirective d.1.text = ctx := by
          unfold RemoteContext.addPragmaDirective RemoteContext.withDirective
          cases hvalue : ctx.requestHeaders pragmaHeader with
          | none =>
              obtain ⟨s, hs, -⟩ := (hhas d).mpr hd
              rw [h.absent hvalue] at hs
              cases hs
          | some text =>
              have hfound : indexOfPragmaDirective text d.1.text ≠ none := by
                rw [ne_eq, h.index_eq_none hvalue]
                intro hnone
                obtain ⟨s, hs, hsuffix⟩ := (hhas d).mpr hd
                exact hnone s hs hsuffix
              simp [hfound]
        show ∃ parts', Holds (ctx.addPragmaDirective d.1.text) _ parts'
        rw [hsame]
        refine ⟨parts, h.unchanged ?_⟩
        intro e
        rw [added_snoc]
        constructor
        · rintro (he | ⟨-, he⟩)
          · obtain rfl := PragmaCall.add.inj he
            exact hd
          · exact he
        · intro he
          exact Or.inr ⟨by simp, he⟩
      · refine ⟨parts ++ [d.1.text], h.append ?_⟩
        intro s hs hsuffix
        exact hd ((hhas d).mp ⟨s, hs, hsuffix⟩)
  | remove d =>
      by_cases hd : Added calls d
      · exact h.remove hd
      · have hsame : ctx.removePragmaDirective d.1.text = ctx := by
          unfold RemoteContext.removePragmaDirective
          cases hvalue : ctx.requestHeaders pragmaHeader with
          | none => rfl
          | some text =>
              have hnone : indexOfPragmaDirective text d.1.text = none := by
                rw [h.index_eq_none hvalue]
                intro s hs hsuffix
                exact hd ((hhas d).mp ⟨s, hs, hsuffix⟩)
              simp [hnone]
        show ∃ parts', Holds (ctx.removePragmaDirective d.1.text) _ parts'
        rw [hsame]
        refine ⟨parts, h.unchanged ?_⟩
        intro e
        rw [added_snoc]
        constructor
        · rintro (he | ⟨-, he⟩)
          · cases he
          · exact he
        · intro he
          refine Or.inr ⟨?_, he⟩
          rintro ⟨⟩
          exact hd he

end Step

/-! ## When the directives are a set -/

theorem Separate.holds {calls : List (PragmaCall vocabulary)} (h : Separate calls) :
    ∃ parts, Holds (afterCalls calls) calls parts := by
  induction calls using List.reverseRecOn with
  | nil => exact ⟨[], holds_nil⟩
  | append_singleton calls call ih =>
      have hbefore : Separate calls := fun before hstart =>
        h before (hstart.trans (List.prefix_append calls [call]))
      obtain ⟨parts, hholds⟩ := ih hbefore
      rw [afterCalls_snoc]
      exact hholds.apply call (h calls (List.prefix_append calls [call]))

/-- A directive that one in the header ends with is found as well. -/
theorem hasPragmaDirective_of_suffix {ctx : RemoteContext} {d x : List Char} (hsuffix : d <:+ x)
    (hx : ctx.hasPragmaDirective x = true) : ctx.hasPragmaDirective d = true := by
  unfold RemoteContext.hasPragmaDirective at hx ⊢
  cases hvalue : ctx.requestHeaders pragmaHeader with
  | none =>
      rw [hvalue] at hx
      cases hx
  | some text =>
      rw [hvalue] at hx
      simp only [decide_eq_true_eq, indexOfPragmaDirective_eq] at hx ⊢
      obtain ⟨i, hi⟩ := Option.ne_none_iff_exists'.mp hx
      obtain ⟨-, -, ⟨z, hz⟩, -⟩ := indexOf_eq_some.mp hi
      obtain ⟨y, rfl⟩ := hsuffix
      intro hnone
      have hdrop : (text ++ [separator]).drop (i + y.length) = d ++ [separator] ++ z := by
        rw [← List.drop_drop, ← hz]
        simp
      apply indexOf_eq_none.mp hnone (i + y.length) (Nat.zero_le _)
      · by_contra hlength
        rw [List.drop_eq_nil_of_le (by omega)] at hdrop
        simp at hdrop
      · rw [hdrop]
        exact List.prefix_append _ _

/-- Pragma directives act as a set exactly if at no time a directive that was added ends with one
that was not. -/
theorem acts_as_set_iff (calls : List (PragmaCall vocabulary)) :
    ActsAsSet calls ↔ Separate calls := by
  constructor
  · intro h before hstart d x hx hsuffix
    rw [← h.found before hstart] at hx ⊢
    exact hasPragmaDirective_of_suffix hsuffix hx
  · intro h
    have hfound : ∀ before, before <+: calls → ∀ d, HasDirective before d ↔ Added before d := by
      intro before hstart d
      have hbefore : Separate before := fun earlier hearlier => h earlier (hearlier.trans hstart)
      obtain ⟨parts, hholds⟩ := hbefore.holds
      unfold HasDirective
      rw [hholds.has_iff]
      constructor
      · rintro ⟨x, hx, hsuffix⟩
        exact h before hstart d x hx hsuffix
      · intro hd
        exact ⟨d, hd, List.suffix_refl _⟩
    refine ⟨hfound, ?_⟩
    intro before call hstart d hd
    rw [hfound _ hstart, hfound before ((List.prefix_append before [call]).trans hstart),
      added_snoc_of_ne hd]

/-- The directive of a cache that is not to be used, and what it ends with. -/
def cache : Directive := ⟨['c', 'a', 'c', 'h', 'e'], by decide, by decide, by decide, by decide⟩

def noCache : Directive :=
  ⟨['n', 'o', '-', 'c', 'a', 'c', 'h', 'e'], by decide, by decide, by decide, by decide⟩

/-- After `no-cache` alone was added, `cache` is found. -/
theorem cache_found_in_no_cache :
    ¬ ∀ (vocabulary : Set Directive) (calls : List (PragmaCall vocabulary)), ActsAsSet calls := by
  intro h
  obtain ⟨hfound, -⟩ := h Set.univ [.add ⟨noCache, Set.mem_univ noCache⟩]
  set added : (Set.univ : Set Directive) := ⟨noCache, Set.mem_univ noCache⟩
  have hholds : Holds _ [.add added] _ :=
    holds_nil.append (fun s hs => absurd hs List.not_mem_nil)
  have hadded : Added [.add added] added :=
    ⟨[], [], rfl, List.not_mem_nil⟩
  have hcache : HasDirective [.add added] ⟨cache, Set.mem_univ cache⟩ :=
    (hholds.has_iff ⟨cache, Set.mem_univ cache⟩).mpr ⟨_, hadded, ⟨['n', 'o', '-'], rfl⟩⟩
  obtain ⟨before, after, hsplit, -⟩ := (hfound _ (List.prefix_refl _) _).mp hcache
  have hlength := congrArg List.length hsplit
  simp only [List.length_append, List.length_cons, List.length_nil] at hlength
  obtain rfl : before = [] := List.eq_nil_of_length_eq_zero (by omega)
  have htext := congrArg (fun d => d.1.text) (PragmaCall.add.inj (List.cons.inj hsplit).1)
  exact absurd htext (by decide)

end Xenon.Http.Headers
