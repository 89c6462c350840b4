import Mathlib.Data.List.TakeWhile
import Xenon.Foundation.Text
import Xenon.Http.ServiceClient

/-!
# Header values

A header value is stored without the pairs of a carriage return and a line feed that it has, and
without the blanks around it. The pairs are taken out in one pass: what a pass brings together is
not looked at again.
-/

namespace Xenon.Http.Headers

open Xenon.Foundation Xenon.Foundation.Text Xenon.Http.ServiceClient

/-! ## `removeString` -/

/-- `Operation.CR_LF`. -/
def crLf : List Char := ['\r', '\n']

/-- The loop of `removeString`, from the place that was found last. Every round shortens the
value. -/
def removeLoop (delete : List Char) : Nat → List Char → Nat → List Char
  | 0, value, _ => value
  | rounds + 1, value, i =>
      match indexOf value delete i with
      | none => value
      | some i =>
          if i = 0 then removeLoop delete rounds (value.drop (i + delete.length)) i
          else if i + delete.length = value.length then removeLoop delete rounds (value.take i) i
          else
            removeLoop delete rounds (value.take i ++ value.drop (i + delete.length)) i

def removeString (value delete : List Char) : List Char :=
  removeLoop delete (value.length + 1) value 0

/-- The three branches put together what stands before the place and what stands after it. -/
theorem removeLoop_of_some {delete value : List Char} {rounds start i : Nat}
    (h : indexOf value delete start = some i) :
    removeLoop delete (rounds + 1) value start =
      removeLoop delete rounds (value.take i ++ value.drop (i + delete.length)) i := by
  rw [removeLoop, h]
  dsimp only
  split_ifs with hzero hlast
  · rw [hzero, List.take_zero, List.nil_append]
  · rw [hlast, List.drop_length, List.append_nil]
  · rfl

theorem removeCrLf_cons {c : Char} {s : List Char} (h : ¬ crLf <+: c :: s) :
    removeCrLf (c :: s) = c :: removeCrLf s := by
  rw [removeCrLf]
  rintro rest rfl rfl
  exact h ⟨rest, rfl⟩

theorem removeCrLf_of_absent {s : List Char} (h : ∀ i, ¬ crLf <+: s.drop i) :
    removeCrLf s = s := by
  induction s with
  | nil => rfl
  | cons c s ih => rw [removeCrLf_cons (h 0), ih fun i => h (i + 1)]

/-- What stands before the first pair is kept. -/
theorem removeCrLf_append {mid rest : List Char}
    (h : ∀ i < mid.length, ¬ crLf <+: (mid ++ (crLf ++ rest)).drop i) :
    removeCrLf (mid ++ (crLf ++ rest)) = mid ++ removeCrLf rest := by
  induction mid with
  | nil => rfl
  | cons c mid ih =>
      have hrest : ∀ i < mid.length, ¬ crLf <+: (mid ++ (crLf ++ rest)).drop i := by
        intro i hi
        exact h (i + 1) (Nat.succ_lt_succ hi)
      have hhead : ¬ crLf <+: c :: (mid ++ (crLf ++ rest)) := h 0 (Nat.zero_lt_succ _)
      rw [List.cons_append, removeCrLf_cons hhead, ih hrest, List.cons_append]

theorem removeLoop_crLf {rounds : Nat} {done rest : List Char} (hrounds : rest.length < rounds) :
    removeLoop crLf rounds (done ++ rest) done.length = done ++ removeCrLf rest := by
  -- `done` is what the loop has behind it, without a line break to remove
  induction rounds generalizing done rest with
  | zero => exact absurd hrounds (Nat.not_lt_zero _)
  | succ rounds ih =>
      cases hfound : indexOf (done ++ rest) crLf done.length with
      | none =>
          have habsent : ∀ i, ¬ crLf <+: rest.drop i := by
            intro i
            by_cases hi : i ≤ rest.length
            · have hnone := indexOf_eq_none.mp hfound (done.length + i) (by omega)
                (by rw [List.length_append]; omega)
              rwa [List.drop_length_add_append] at hnone
            · exact not_prefix_drop (by decide) (by omega)
          rw [removeLoop, hfound, removeCrLf_of_absent habsent]
      | some i =>
          obtain ⟨hle, -, hstart, hfirst⟩ := indexOf_eq_some.mp hfound
          obtain ⟨k, rfl⟩ := Nat.exists_eq_add_of_le hle
          rw [List.drop_length_add_append] at hstart
          obtain ⟨rest', hrest'⟩ := hstart
          obtain ⟨mid, rfl, rfl⟩ : ∃ mid, k = mid.length ∧ rest = mid ++ (crLf ++ rest') := by
            refine ⟨rest.take k, ?_, ?_⟩
            · have hlength := congrArg List.length hrest'
              rw [List.length_append, List.length_drop] at hlength
              rw [List.length_take]
              have htwo : crLf.length = 2 := rfl
              omega
            · rw [hrest', List.take_append_drop]
          -- before the line break that is found there is none
          have hmid : removeCrLf (mid ++ (crLf ++ rest')) = mid ++ removeCrLf rest' := by
            apply removeCrLf_append
            intro j hj
            have hnot := hfirst (done.length + j) (by omega) (by omega)
            rwa [List.drop_length_add_append] at hnot
          have htake : (done ++ (mid ++ (crLf ++ rest'))).take (done.length + mid.length) =
              done ++ mid := by
            rw [← List.append_assoc, ← List.length_append, List.take_left]
          have hdrop : (done ++ (mid ++ (crLf ++ rest'))).drop
              (done.length + mid.length + crLf.length) = rest' := by
            rw [← List.append_assoc, ← List.append_assoc, ← List.length_append,
              ← List.length_append, List.drop_left]
          have hless : rest'.length < rounds := by
            have htwo : crLf.length = 2 := rfl
            simp only [List.length_append] at hrounds
            omega
          rw [removeLoop_of_some hfound, htake, hdrop, ← List.length_append, ih hless, hmid,
            List.append_assoc]

/-- One pass takes out the pairs of the value, and no more. -/
theorem removeString_crLf (value : List Char) : removeString value crLf = removeCrLf value := by
  have hloop : removeLoop crLf (value.length + 1) ([] ++ value) ([] : List Char).length =
      [] ++ removeCrLf value := removeLoop_crLf (Nat.lt_succ_self value.length)
  exact hloop

/-! ## A pair that a pass brings together -/

/-- A character that `trim` leaves in its place. -/
def Visible (s : List Char) : Prop := ∃ c ∈ s, 32 < c.toNat

/-- `n` pairs. -/
def pairs (n : Nat) : List Char := (List.replicate n crLf).flatten

/-- Pairs stand inside a pair, in the midst of the text. -/
def Nested (s : List Char) : Prop :=
  ∃ before n after, s = before ++ '\r' :: (pairs n ++ '\n' :: after) ∧ 0 < n ∧
    Visible before ∧ Visible after

theorem removeCrLf_pairs (n : Nat) (s : List Char) :
    removeCrLf (pairs n ++ s) = removeCrLf s := by
  induction n with
  | zero => rfl
  | succ n ih =>
      have hsucc : pairs (n + 1) ++ s = '\r' :: '\n' :: (pairs n ++ s) := by
        simp [pairs, List.replicate_succ, crLf]
      rw [hsucc, removeCrLf, ih]

/-- What is left after a pass begins with the first character that is in no pair. -/
theorem exists_of_removeCrLf_cons {s u : List Char} {c : Char} (h : removeCrLf s = c :: u) :
    ∃ n t, s = pairs n ++ c :: t ∧ ¬ crLf <+: c :: t ∧ removeCrLf t = u := by
  induction s using removeCrLf.induct with
  | case1 rest ih =>
      rw [removeCrLf] at h
      obtain ⟨n, t, rfl, hnot, ht⟩ := ih h
      refine ⟨n + 1, t, ?_, hnot, ht⟩
      simp [pairs, List.replicate_succ, crLf]
  | case2 d rest hne ih =>
      have hnot : ¬ crLf <+: d :: rest := by
        rintro ⟨rest', hrest'⟩
        obtain ⟨rfl, rfl⟩ := List.cons.inj hrest'.symm
        exact hne rest' rfl rfl
      rw [removeCrLf_cons hnot] at h
      obtain ⟨rfl, rfl⟩ := List.cons.inj h
      exact ⟨0, rest, rfl, hnot, rfl⟩
  | case3 => cases h

theorem not_prefix_of_cons {d : Char} {s : List Char} (hne : ∀ t, d = '\r' → s = '\n' :: t → False) :
    ¬ crLf <+: d :: s := by
  rintro ⟨t, ht⟩
  obtain ⟨rfl, rfl⟩ := List.cons.inj ht.symm
  exact hne t rfl rfl

/-- No pair ends with a character that is no line feed. -/
theorem removeCrLf_append_cons {s t : List Char} {c : Char} (hc : c ≠ '\n') :
    removeCrLf (s ++ c :: t) = removeCrLf s ++ removeCrLf (c :: t) := by
  induction s using removeCrLf.induct with
  | case1 rest ih =>
      show removeCrLf (rest ++ c :: t) = removeCrLf rest ++ removeCrLf (c :: t)
      exact ih
  | case2 d rest hne ih =>
      have hnot : ¬ crLf <+: d :: (rest ++ c :: t) := by
        apply not_prefix_of_cons
        intro t' hd hrest
        cases rest with
        | nil => exact hc (List.cons.inj hrest).1
        | cons e rest => exact hne rest hd (by rw [(List.cons.inj hrest).1])
      rw [List.cons_append, removeCrLf_cons hnot, ih, removeCrLf_cons (not_prefix_of_cons hne),
        List.cons_append]
  | case3 => rfl

theorem visible_removeCrLf {s : List Char} : Visible (removeCrLf s) ↔ Visible s := by
  induction s using removeCrLf.induct with
  | case1 rest ih =>
      rw [removeCrLf, ih]
      simp [Visible]
  | case2 d rest hne ih =>
      rw [removeCrLf_cons (not_prefix_of_cons hne)]
      unfold Visible at ih ⊢
      simp only [List.mem_cons, exists_eq_or_imp, ih]
  | case3 => rfl

/-- A pass leaves a pair where pairs stand inside a pair. -/
theorem removeCrLf_nested (before after : List Char) {n : Nat} (hn : 0 < n) :
    removeCrLf (before ++ '\r' :: (pairs n ++ '\n' :: after)) =
      removeCrLf before ++ (crLf ++ removeCrLf after) := by
  obtain ⟨m, rfl⟩ := Nat.exists_eq_add_of_le' hn
  have hpairs : pairs (m + 1) ++ '\n' :: after = '\r' :: '\n' :: (pairs m ++ '\n' :: after) := by
    simp [pairs, List.replicate_succ, crLf]
  have hfirst : ¬ crLf <+: '\r' :: '\r' :: '\n' :: (pairs m ++ '\n' :: after) := by
    apply not_prefix_of_cons
    intro t _ ht
    exact absurd (List.cons.inj ht).1 (by decide)
  have hsecond : ¬ crLf <+: '\n' :: after := by
    apply not_prefix_of_cons
    intro t hnl _
    exact absurd hnl (by decide)
  rw [removeCrLf_append_cons (by decide), hpairs, removeCrLf_cons hfirst, ← hpairs,
    removeCrLf_pairs, removeCrLf_cons hsecond]
  rfl

theorem exists_nested_of_removeCrLf {s a b : List Char} (h : removeCrLf s = a ++ (crLf ++ b)) :
    ∃ before n after, s = before ++ '\r' :: (pairs n ++ '\n' :: after) ∧ 0 < n ∧
      removeCrLf before = a ∧ removeCrLf after = b := by
  induction a generalizing s with
  | nil =>
      obtain ⟨m, t, rfl, hnot, ht⟩ := exists_of_removeCrLf_cons h
      obtain ⟨n, after, rfl, -, hafter⟩ := exists_of_removeCrLf_cons ht
      refine ⟨pairs m, n, after, rfl, ?_, ?_, hafter⟩
      · rw [Nat.pos_iff_ne_zero]
        rintro rfl
        exact hnot ⟨after, rfl⟩
      · have hpairs := removeCrLf_pairs m []
        rwa [List.append_nil] at hpairs
  | cons x a ih =>
      obtain ⟨m, t, rfl, hnot, ht⟩ := exists_of_removeCrLf_cons h
      obtain ⟨before, n, after, rfl, hn, hbefore, hafter⟩ := ih ht
      refine ⟨pairs m ++ x :: before, n, after, ?_, hn, ?_, hafter⟩
      · rw [List.append_assoc, List.cons_append]
      · have hx : ¬ crLf <+: x :: before := by
          intro hstart
          apply hnot
          exact hstart.trans ⟨_, rfl⟩
        rw [removeCrLf_pairs, removeCrLf_cons hx, hbefore]

/-! ## `trim` -/

theorem visible_reverse {s : List Char} : Visible s.reverse ↔ Visible s := by
  unfold Visible
  simp only [List.mem_reverse]

theorem dropWhile_append_of_visible {a : List Char} (ha : Visible a) (s : List Char) :
    (a ++ s).dropWhile (·.toNat ≤ 32) = a.dropWhile (·.toNat ≤ 32) ++ s := by
  have hne : (a.dropWhile (·.toNat ≤ 32)).isEmpty ≠ true := by
    obtain ⟨c, hc, hvisible⟩ := ha
    rw [ne_eq, List.isEmpty_iff, List.dropWhile_eq_nil_iff]
    intro hall
    have hle := of_decide_eq_true (hall c hc)
    omega
  rw [List.dropWhile_append, if_neg hne]

theorem visible_of_dropWhile {s a t : List Char} {c : Char} (hc : c.toNat ≤ 32)
    (h : s.dropWhile (·.toNat ≤ 32) = a ++ c :: t) : Visible a := by
  have hhead := List.head?_dropWhile_not (fun c : Char => decide (c.toNat ≤ 32)) s
  rw [h] at hhead
  cases a with
  | nil =>
      have hlt := of_decide_eq_false hhead
      exact absurd hc hlt
  | cons d a =>
      have hlt := of_decide_eq_false hhead
      exact ⟨d, List.mem_cons_self, by omega⟩

/-- `trim` keeps what is between two visible characters. -/
theorem trim_append {a b : List Char} (ha : Visible a) (hb : Visible b) (s : List Char) :
    ∃ a' b', trim (a ++ (s ++ b)) = a' ++ (s ++ b') := by
  refine ⟨a.dropWhile (·.toNat ≤ 32), (b.reverse.dropWhile (·.toNat ≤ 32)).reverse, ?_⟩
  unfold trim
  rw [dropWhile_append_of_visible ha, List.reverse_append, List.reverse_append, List.append_assoc,
    dropWhile_append_of_visible (visible_reverse.mpr hb)]
  simp only [List.reverse_append, List.reverse_reverse, List.append_assoc]

/-- A pair in what `trim` leaves is between two visible characters. -/
theorem exists_of_trim_eq {s a b : List Char} (h : trim s = a ++ (crLf ++ b)) :
    ∃ a' b', s = a' ++ (crLf ++ b') ∧ Visible a' ∧ Visible b' := by
  have hback : (s.dropWhile (·.toNat ≤ 32)).reverse.dropWhile (·.toNat ≤ 32) =
      b.reverse ++ '\n' :: '\r' :: a.reverse := by
    rw [← List.reverse_reverse ((s.dropWhile (·.toNat ≤ 32)).reverse.dropWhile _)]
    rw [trim] at h
    rw [h]
    simp [crLf]
  obtain ⟨trail, htrail⟩ : ∃ trail, s.dropWhile (·.toNat ≤ 32) = a ++ (crLf ++ (b ++ trail)) := by
    obtain ⟨lead, hlead⟩ := List.dropWhile_suffix (l := (s.dropWhile (·.toNat ≤ 32)).reverse)
      fun c : Char => decide (c.toNat ≤ 32)
    refine ⟨lead.reverse, ?_⟩
    rw [← List.reverse_reverse (s.dropWhile (·.toNat ≤ 32)), ← hlead, hback]
    simp [crLf]
  refine ⟨s.takeWhile (·.toNat ≤ 32) ++ a, b ++ trail, ?_, ?_, ?_⟩
  · rw [List.append_assoc, ← htrail, List.takeWhile_append_dropWhile]
  · obtain ⟨c, hc, hvisible⟩ := visible_of_dropWhile (c := '\r') (by decide) htrail
    exact ⟨c, List.mem_append_right _ hc, hvisible⟩
  · obtain ⟨c, hc, hvisible⟩ := visible_of_dropWhile (c := '\n') (by decide) hback
    exact ⟨c, List.mem_append_left _ (List.mem_reverse.mp hc), hvisible⟩

theorem dropWhile_eq_self {s : List Char} (h : ∀ c, s.head? = some c → 32 < c.toNat) :
    s.dropWhile (·.toNat ≤ 32) = s := by
  cases s with
  | nil => rfl
  | cons c s =>
      have hc : ¬ c.toNat ≤ 32 := by
        have hlt := h c rfl
        omega
      rw [List.dropWhile_cons_of_neg (by simpa using hc)]

/-- A text between visible characters is trimmed. -/
theorem trim_eq_self {s : List Char} (hfirst : ∀ c, s.head? = some c → 32 < c.toNat)
    (hlast : ∀ c, s.getLast? = some c → 32 < c.toNat) : trim s = s := by
  unfold trim
  rw [dropWhile_eq_self hfirst, dropWhile_eq_self (by rwa [List.head?_reverse]),
    List.reverse_reverse]

theorem visible_of_head?_dropWhile {s : List Char} {c : Char}
    (h : (s.dropWhile (·.toNat ≤ 32)).head? = some c) : 32 < c.toNat := by
  have hhead := List.head?_dropWhile_not (fun c : Char => decide (c.toNat ≤ 32)) s
  rw [h] at hhead
  have hlt := of_decide_eq_false hhead
  omega

theorem visible_of_getLast?_trim {s : List Char} {c : Char} (h : (trim s).getLast? = some c) :
    32 < c.toNat := by
  unfold trim at h
  rw [List.getLast?_reverse] at h
  exact visible_of_head?_dropWhile h

theorem visible_of_head?_trim {s : List Char} {c : Char} (h : (trim s).head? = some c) :
    32 < c.toNat := by
  unfold trim at h
  rw [List.head?_reverse] at h
  obtain ⟨lead, hlead⟩ := List.dropWhile_suffix (l := (s.dropWhile (·.toNat ≤ 32)).reverse)
    fun c : Char => decide (c.toNat ≤ 32)
  have hlast : (s.dropWhile (·.toNat ≤ 32)).reverse.getLast? = some c := by
    rw [← hlead, List.getLast?_append, h]
    rfl
  rw [List.getLast?_reverse] at hlast
  exact visible_of_head?_dropWhile hlast

theorem infix_trim_removeCrLf_iff {s : List Char} :
    crLf <:+: trim (removeCrLf s) ↔ Nested s := by
  constructor
  · rintro ⟨a, b, hab⟩
    obtain ⟨a', b', hsplit, ha', hb'⟩ := exists_of_trim_eq (by rw [← hab, List.append_assoc])
    obtain ⟨before, n, after, rfl, hn, rfl, rfl⟩ := exists_nested_of_removeCrLf hsplit
    exact ⟨before, n, after, rfl, hn, visible_removeCrLf.mp ha', visible_removeCrLf.mp hb'⟩
  · rintro ⟨before, n, after, rfl, hn, hbefore, hafter⟩
    rw [removeCrLf_nested before after hn]
    obtain ⟨a', b', htrim⟩ := trim_append (visible_removeCrLf.mpr hbefore)
      (visible_removeCrLf.mpr hafter) crLf
    exact ⟨a', b', by rw [htrim, List.append_assoc]⟩

/-! ## Stored values -/

/-- `PRAGMA_HEADER`. -/
def pragmaHeader : String := "pragma"

/-- `DIRECTIVE_PRAGMA_VALUE_SEPARATOR_CHAR_CONST`. -/
def separator : Char := ';'

/-- The headers of an operation, by name. -/
structure RemoteContext where
  requestHeaders : String → Option (List Char) := fun _ => none
  responseHeaders : String → Option (List Char) := fun _ => none

/-- The loop of `indexOfPragmaDirective`, from a place on. -/
def indexOfPragmaDirectiveFrom (existingDirectives directive : List Char) : Nat → Nat → Option Nat
  | 0, _ => none
  | rounds + 1, i =>
      match indexOf existingDirectives directive i with
      | none => none
      | some i =>
          if i + directive.length = existingDirectives.length ∨
              existingDirectives[i + directive.length]? = some separator then some i
          else indexOfPragmaDirectiveFrom existingDirectives directive rounds (i + 1)

/-- Every round but the last one goes on at a later place of the text. -/
def indexOfPragmaDirective (existingDirectives directive : List Char) : Option Nat :=
  indexOfPragmaDirectiveFrom existingDirectives directive (existingDirectives.length + 2) 0

namespace RemoteContext

variable (toLowerCase : String → String) (ctx : RemoteContext)

def putRequestHeader (name : String) (value : List Char) : RemoteContext :=
  { ctx with requestHeaders := Function.update ctx.requestHeaders name (some value) }

def putResponseHeader (name : String) (value : List Char) : RemoteContext :=
  { ctx with responseHeaders := Function.update ctx.responseHeaders name (some value) }

@[simp] theorem putRequestHeader_self (name : String) (value : List Char) :
    (ctx.putRequestHeader name value).requestHeaders name = some value := by
  simp [putRequestHeader]

@[simp] theorem putResponseHeader_self (name : String) (value : List Char) :
    (ctx.putResponseHeader name value).responseHeaders name = some value := by
  simp [putResponseHeader]

def addRequestHeader (name : String) (value : List Char) : RemoteContext :=
  ctx.putRequestHeader (toLowerCase name) (trim (removeString value crLf))

def addResponseHeader (name : String) (value : List Char) : RemoteContext :=
  ctx.putResponseHeader (toLowerCase name) (trim (removeString value crLf))

/-- The text that `addPragmaDirective` stores but for its normalization; none if the directive is
there. -/
def withDirective (directive : List Char) : Option (List Char) :=
  match ctx.requestHeaders pragmaHeader with
  | none => some directive
  | some existingDirectives =>
      if indexOfPragmaDirective existingDirectives directive ≠ none then none
      else some (existingDirectives ++ separator :: directive)

def addPragmaDirective (directive : List Char) : RemoteContext :=
  match ctx.withDirective directive with
  | none => ctx
  | some directive => ctx.putRequestHeader pragmaHeader (trim (removeString directive crLf))

def hasPragmaDirective (directive : List Char) : Bool :=
  match ctx.requestHeaders pragmaHeader with
  | none => false
  | some existingDirectives => indexOfPragmaDirective existingDirectives directive ≠ none

def removePragmaDirective (directive : List Char) : RemoteContext :=
  match ctx.requestHeaders pragmaHeader with
  | none => ctx
  | some existingDirectives =>
      match indexOfPragmaDirective existingDirectives directive with
      | none => ctx
      | some i =>
          if i = 0 then
            ctx.putRequestHeader pragmaHeader (existingDirectives.drop (i + directive.length))
          else
            ctx.putRequestHeader pragmaHeader
              (existingDirectives.take (i - 1) ++ existingDirectives.drop (i + directive.length))

end RemoteContext

/-! ## Injection -/

/-- A call that stores a header value. -/
inductive Call where
  | addRequestHeader (name : String) (value : List Char)
  | addResponseHeader (name : String) (value : List Char)
  | addPragmaDirective (directive : List Char)

namespace Call

variable (toLowerCase : String → String) (ctx : RemoteContext)

def apply : Call → RemoteContext
  | .addRequestHeader name value => ctx.addRequestHeader toLowerCase name value
  | .addResponseHeader name value => ctx.addResponseHeader toLowerCase name value
  | .addPragmaDirective directive => ctx.addPragmaDirective directive

/-- The value of the header afterwards. -/
def stored (call : Call) : Option (List Char) :=
  match call with
  | .addRequestHeader name _ => (call.apply toLowerCase ctx).requestHeaders (toLowerCase name)
  | .addResponseHeader name _ => (call.apply toLowerCase ctx).responseHeaders (toLowerCase name)
  | .addPragmaDirective _ => (call.apply toLowerCase ctx).requestHeaders pragmaHeader

/-- The text that is stored but for its normalization; none if nothing is stored. -/
def text : Call → Option (List Char)
  | .addRequestHeader _ value | .addResponseHeader _ value => some value
  | .addPragmaDirective directive => ctx.withDirective directive

/-- No pairs stand inside a pair of the text; where nothing is stored, no pair stands in the
header. -/
def Harmless (call : Call) : Prop :=
  match call.text ctx with
  | some text => ¬ Nested text
  | none => ∀ value, ctx.requestHeaders pragmaHeader = some value → ¬ crLf <:+: value

theorem stored_of_text {call : Call} {text : List Char} (h : call.text ctx = some text) :
    call.stored toLowerCase ctx = some (trim (removeCrLf text)) := by
  rw [← removeString_crLf]
  cases call with
  | addRequestHeader name value =>
      obtain rfl := Option.some.inj h
      exact ctx.putRequestHeader_self (toLowerCase name) _
  | addResponseHeader name value =>
      obtain rfl := Option.some.inj h
      exact ctx.putResponseHeader_self (toLowerCase name) _
  | addPragmaDirective directive =>
      change ctx.withDirective directive = some text at h
      show (ctx.addPragmaDirective directive).requestHeaders pragmaHeader = _
      unfold RemoteContext.addPragmaDirective
      rw [h]
      exact ctx.putRequestHeader_self pragmaHeader _

theorem stored_of_unchanged {call : Call} (h : call.text ctx = none) :
    call.stored toLowerCase ctx = ctx.requestHeaders pragmaHeader := by
  cases call with
  | addRequestHeader name value => cases h
  | addResponseHeader name value => cases h
  | addPragmaDirective directive =>
      change ctx.withDirective directive = none at h
      show (ctx.addPragmaDirective directive).requestHeaders pragmaHeader = _
      unfold RemoteContext.addPragmaDirective
      rw [h]

/-- A stored header value has no pair exactly if no pairs stood inside a pair. -/
theorem no_injection_iff (call : Call) :
    (∀ value, call.stored toLowerCase ctx = some value → ¬ crLf <:+: value) ↔
      call.Harmless ctx := by
  unfold Harmless
  cases htext : call.text ctx with
  | some text =>
      rw [stored_of_text toLowerCase ctx htext]
      dsimp only
      rw [← infix_trim_removeCrLf_iff]
      constructor
      · intro h
        exact h _ rfl
      · rintro h _ ⟨⟩
        exact h
  | none => rw [stored_of_unchanged toLowerCase ctx htext]

/-- A pair around a pair: the outer one is stored. -/
theorem pair_injected : ¬ ∀ (toLowerCase : String → String) (ctx : RemoteContext) (call : Call)
    (value : List Char), call.stored toLowerCase ctx = some value → ¬ crLf <:+: value := by
  intro h
  have hnested : Nested ['a', '\r', '\r', '\n', '\n', 'b'] :=
    ⟨['a'], 1, ['b'], rfl, Nat.one_pos, ⟨'a', List.mem_singleton_self _, by decide⟩,
      ⟨'b', List.mem_singleton_self _, by decide⟩⟩
  exact h id {} (.addRequestHeader "x-name" ['a', '\r', '\r', '\n', '\n', 'b']) _
    (stored_of_text id {} rfl) (infix_trim_removeCrLf_iff.mpr hnested)

end Call

end Xenon.Http.Headers
