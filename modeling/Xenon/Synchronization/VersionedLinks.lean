import Xenon.Common.UriUtils
import Xenon.Replication.Service

/-!
# Versioned links

A link with a version asks the peers for this version, a plain link for the latest one. The two are
told apart by a question mark: what follows the last one is read as a query, whether or not it
holds a version. The link of a child of a factory has none, since the query of its URI is cut off.
A service that is started at a URI has the decoded path of the URI for its link, where a question
mark can stand.
-/

namespace Xenon.Synchronization

open Xenon.Common.UriUtils

/-! ## The self link of a service -/

/-- The self link of the child that a POST to a factory creates, `o.getUri().getPath()`. The
validity of the suffix is not checked for a migration task. `normalize` is what `URI.normalize`
makes of a path. -/
def childSelfLink (normalize : List Char → List Char) (factoryLink suffix : List Char)
    (fromMigrationTask : Bool) : Except (List Char) (List Char) :=
  if !fromMigrationTask && !isValidDocumentId suffix factoryLink then
    .error (suffix ++ " is an invalid id".toList)
  else if isChildPath suffix factoryLink then .ok (buildUri normalize suffix)
  else .ok (extendUri normalize factoryLink suffix)

/-- The self link of a service without one, that `ServiceHost.startService` starts at a URI with
this path. -/
def startSelfLink (uriPath : List Char) : Except (List Char) (List Char) :=
  let servicePath := normalizeUriPath uriPath
  if servicePath.getLast? = some '*' then
    .error ("service path must not end in wild card character: ".toList ++ servicePath)
  else .ok servicePath

/-! ## `createAndBroadcastGetQuery` -/

/-- The values of a `long`. -/
def longValue (v : Int) : Option Int := if -(2 ^ 63) ≤ v ∧ v < 2 ^ 63 then some v else none

/-- `Long.parseLong`. -/
def parseLong (s : List Char) : Option Int :=
  let value : Option Int :=
    match s with
    | '-' :: cs => (Replication.digits cs).map fun n : Nat => -(n : Int)
    | '+' :: cs => (Replication.digits cs).map Nat.cast
    | cs => (Replication.digits cs).map Nat.cast
  value.bind longValue

/-- The query that is broadcast for a link. -/
structure GetQuery where
  selfLink : List Char
  version : Option Int
deriving DecidableEq

def createAndBroadcastGetQuery (documentLink : List Char) : Except (List Char) GetQuery :=
  match lastIndexOf '?' documentLink with
  | none => .ok ⟨documentLink, none⟩
  | some queryPos =>
      let params := parseUriQueryParams (documentLink.drop (queryPos + 1))
      let selfLink := documentLink.take queryPos
      match params.lookup fieldNameVersion with
      | none => .ok ⟨selfLink, none⟩
      | some version =>
          match parseLong version with
          | some versionNum => .ok ⟨selfLink, some versionNum⟩
          | none => .error ("For input string: \"".toList ++ version ++ "\"".toList)

/-! ## Numbers -/

theorem digit_of_isDigit {c : Char} (hc : c.isDigit) :
    Replication.digit c = some (c.toNat - '0'.toNat) := by
  have hrange : 48 ≤ c.toNat ∧ c.toNat ≤ 57 := by
    simp only [Char.isDigit, Bool.and_eq_true, decide_eq_true_eq, ge_iff_le,
      UInt32.le_iff_toNat_le] at hc
    exact hc
  unfold Replication.digit Replication.digitZeros
  rw [List.find?_cons_of_pos]
  · rfl
  · simp only [decide_eq_true_eq]
    omega

theorem digits_of_isDigit {s : List Char} (hne : s ≠ []) (hs : ∀ c ∈ s, c.isDigit) :
    Replication.digits s = some (Nat.ofDigitChars 10 s 0) := by
  have hfold : ∀ (cs : List Char) (n : Nat), (∀ c ∈ cs, c.isDigit) →
      cs.foldl (fun acc c => (acc.bind fun n => (Replication.digit c).map (10 * n + ·))) (some n) =
        some (Nat.ofDigitChars 10 cs n) := by
    intro cs
    induction cs with
    | nil => exact fun n _ => rfl
    | cons c cs ih =>
        intro n hcs
        rw [List.foldl_cons, Nat.ofDigitChars_cons, Option.bind_some,
          digit_of_isDigit (hcs c (List.mem_cons_self ..)), Option.map_some]
        exact ih _ fun c hc => hcs c (List.mem_cons_of_mem _ hc)
  cases s with
  | nil => exact absurd rfl hne
  | cons c cs => exact hfold (c :: cs) 0 hs

theorem longValue_of_nonneg {v : Int} (hv : 0 ≤ v) (hlt : v < 2 ^ 63) : longValue v = some v :=
  if_pos ⟨by omega, hlt⟩

/-- What is written for a version is read back. -/
theorem parseLong_toString {v : Int} (hv : 0 ≤ v) (hlt : v < 2 ^ 63) :
    parseLong (toString v).toList = some v := by
  obtain ⟨n, rfl⟩ := Int.eq_ofNat_of_zero_le hv
  have htext : (toString (n : Int)).toList = Nat.toDigits 10 n := Nat.toList_repr
  have hdigits : ∀ c ∈ Nat.toDigits 10 n, c.isDigit := fun c hc =>
    Nat.isDigit_of_mem_toDigits (by decide) (by decide) hc
  have hread := digits_of_isDigit Nat.toDigits_ne_nil hdigits
  rw [Nat.ofDigitChars_ten_toDigits] at hread
  rw [htext]
  -- the first character is a digit, so it is not a sign
  cases hchars : Nat.toDigits 10 n with
  | nil => exact absurd hchars Nat.toDigits_ne_nil
  | cons c cs =>
      rw [hchars] at hread hdigits
      have hc := hdigits c (List.mem_cons_self ..)
      have hminus : c ≠ '-' := by
        rintro rfl
        exact absurd hc (by decide)
      have hplus : c ≠ '+' := by
        rintro rfl
        exact absurd hc (by decide)
      unfold parseLong
      split
      · rename_i heq
        exact absurd (List.cons.inj heq).1 hminus
      · rename_i heq
        exact absurd (List.cons.inj heq).1 hplus
      · dsimp only
        rw [hread, Option.map_some, Option.bind_some]
        exact longValue_of_nonneg hv hlt

/-! ## Decoding -/

/-- A versioned link is decoded, whatever characters it has. -/
theorem decode_buildPathWithVersion (link : List Char) {v : Int} (hv : 0 ≤ v) (hlt : v < 2 ^ 63) :
    createAndBroadcastGetQuery (buildPathWithVersion link v) = .ok ⟨link, some v⟩ := by
  obtain ⟨n, rfl⟩ := Int.eq_ofNat_of_zero_le hv
  have hdigits : ∀ c ∈ (toString (n : Int)).toList, c.isDigit := by
    intro c hc
    have htext : (toString (n : Int)).toList = Nat.toDigits 10 n := Nat.toList_repr
    rw [htext] at hc
    exact Nat.isDigit_of_mem_toDigits (by decide) (by decide) hc
  have hnot : ∀ c : Char, c.isDigit = false → c ∉ (toString (n : Int)).toList := by
    intro c hc hmem
    rw [hdigits c hmem] at hc
    cases hc
  have hpath : buildPathWithVersion link n =
      link ++ '?' :: (fieldNameVersion ++ '=' :: (toString (n : Int)).toList) := by
    simp [buildPathWithVersion]
  have hquery : '?' ∉ fieldNameVersion ++ '=' :: (toString (n : Int)).toList := by
    rw [List.mem_append, List.mem_cons, not_or, not_or]
    exact ⟨by decide, by decide, hnot _ (by decide)⟩
  have hne : fieldNameVersion ≠ [] := by decide
  have hplain : fieldNameVersion.all (fun c => c ≠ '&' ∧ c ≠ '=') = true := by decide
  have hkey : ∀ c ∈ fieldNameVersion, c ≠ '&' ∧ c ≠ '=' := fun c hc =>
    of_decide_eq_true (List.all_eq_true.mp hplain c hc)
  have hparams := parseUriQueryParams_single hne hkey (hnot '&' (by decide))
  unfold createAndBroadcastGetQuery
  rw [hpath, lastIndexOf_append_cons hquery]
  simp only [List.take_left]
  rw [← List.drop_drop, List.drop_left, List.drop_one, List.tail_cons, hparams,
    List.lookup_cons_self]
  simp only [parseLong_toString hv hlt]

/-- A plain link is decoded as such if it has no question mark. Otherwise it is cut. -/
theorem decode_plain (link : List Char) :
    createAndBroadcastGetQuery link = .ok ⟨link, none⟩ ↔ '?' ∉ link := by
  unfold createAndBroadcastGetQuery
  cases hpos : lastIndexOf '?' link with
  | none => exact iff_of_true rfl (lastIndexOf_eq_none.mp hpos)
  | some queryPos =>
      have hmem : '?' ∈ link := by
        by_contra hnot
        rw [lastIndexOf_eq_none.mpr hnot] at hpos
        cases hpos
      have hcut : link.take queryPos ≠ link := by
        intro heq
        have hlength := congrArg List.length heq
        have := lastIndexOf_lt hpos
        rw [List.length_take] at hlength
        omega
      apply iff_of_false _ (not_not.mpr hmem)
      intro heq
      dsimp only at heq
      split at heq
      · exact hcut (congrArg GetQuery.selfLink (Except.ok.inj heq))
      · split at heq
        · exact hcut (congrArg GetQuery.selfLink (Except.ok.inj heq))
        · cases heq

/-- The plain link and every versioned link are told apart. -/
def DecodesUniquely (link : List Char) : Prop :=
  (∀ v : Int, 0 ≤ v → v < 2 ^ 63 →
    createAndBroadcastGetQuery (buildPathWithVersion link v) = .ok ⟨link, some v⟩) ∧
    createAndBroadcastGetQuery link = .ok ⟨link, none⟩

theorem decodesUniquely_iff (link : List Char) : DecodesUniquely link ↔ '?' ∉ link := by
  constructor
  · intro h
    exact (decode_plain link).mp h.2
  · intro h
    exact ⟨fun v hv hlt => decode_buildPathWithVersion link hv hlt, (decode_plain link).mpr h⟩

/-- The link of a child of a factory has no question mark, even if the suffix has one. -/
theorem decodesUniquely_child {normalize : List Char → List Char}
    (hnormalize : ∀ path, normalize path ⊆ path) {factoryLink suffix link : List Char}
    {fromMigrationTask : Bool}
    (h : childSelfLink normalize factoryLink suffix fromMigrationTask = .ok link) :
    DecodesUniquely link := by
  apply (decodesUniquely_iff link).mpr
  unfold childSelfLink at h
  split_ifs at h
  · rw [← Except.ok.inj h]
    exact not_mem_buildUri hnormalize _
  · rw [← Except.ok.inj h]
    exact not_mem_buildUri hnormalize _

/-- A service that is started at `http://127.0.0.1:8000/core/examples/a%3Fb` is looked up as
`/core/examples/a`. -/
theorem startSelfLink_not_decodesUniquely : ¬ ∀ uriPath link : List Char,
    startSelfLink uriPath = .ok link → DecodesUniquely link := by
  intro h
  have hplain := (h "/core/examples/a?b".toList "/core/examples/a?b".toList (by decide)).2
  revert hplain
  decide

end Xenon.Synchronization
