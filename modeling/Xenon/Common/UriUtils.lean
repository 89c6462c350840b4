import Mathlib.Data.List.Basic
import Mathlib.Data.List.DropRight
import Xenon.Foundation.Text

/-!
# Paths and queries

The text functions of `UriUtils` that build the self link of a service and its versioned links. A
text is the list of its characters.
-/

namespace Xenon.Common.UriUtils

open Xenon.Foundation.Text

/-- `URI_LEGAL_CHARS`. -/
def uriLegalChars : List Char := "-_.~?#[]@!$&'()*+,;=:".toList

/-- `ServiceDocument.FIELD_NAME_VERSION`. -/
def fieldNameVersion : List Char := "documentVersion".toList

/-- `ServiceUriPaths.CORE`. -/
def core : List Char := "/core".toList

/-! ## `String` -/

/-- `String.lastIndexOf`. -/
def lastIndexOf (c : Char) : List Char → Option Nat
  | [] => none
  | x :: s =>
      match lastIndexOf c s with
      | some i => some (i + 1)
      | none => if x = c then some 0 else none

/-- `String.split` at a single character: the pieces, without the empty ones at the end, or the
whole text if the character does not occur. -/
def split (s : List Char) (sep : Char) : List (List Char) :=
  if sep ∈ s then (s.splitOn sep).rdropWhile (·.isEmpty) else [s]

theorem lastIndexOf_eq_none {c : Char} {s : List Char} : lastIndexOf c s = none ↔ c ∉ s := by
  induction s with
  | nil => simp [lastIndexOf]
  | cons x s ih =>
      unfold lastIndexOf
      cases hs : lastIndexOf c s with
      | some i =>
          have hmem : c ∈ s := by
            by_contra hnot
            rw [ih.mpr hnot] at hs
            cases hs
          simp [hmem]
      | none =>
          have hnot := ih.mp hs
          by_cases hx : x = c
          · simp [hx]
          · simp [hx, hnot, Ne.symm hx]

theorem lastIndexOf_append_cons {c : Char} {s : List Char} (hs : c ∉ s) (pre : List Char) :
    lastIndexOf c (pre ++ c :: s) = some pre.length := by
  induction pre with
  | nil =>
      show lastIndexOf c (c :: s) = some 0
      unfold lastIndexOf
      rw [lastIndexOf_eq_none.mpr hs]
      exact if_pos rfl
  | cons x pre ih =>
      show lastIndexOf c (x :: (pre ++ c :: s)) = some (pre.length + 1)
      unfold lastIndexOf
      rw [ih]

theorem lastIndexOf_lt {c : Char} {s : List Char} {i : Nat} (h : lastIndexOf c s = some i) :
    i < s.length := by
  induction s generalizing i with
  | nil => cases h
  | cons x s ih =>
      unfold lastIndexOf at h
      rw [List.length_cons]
      split at h
      · rename_i j hj
        have := ih hj
        have := Option.some.inj h
        omega
      · split_ifs at h
        have := Option.some.inj h
        omega

/-! ## Queries -/

/-- The parameters of a query, the last one that was put first. -/
abbrev Params := List (List Char × List Char)

/-- `java.net.URI`, by what its getters return. The constructor quotes the characters of a query
that may not stand in a URI, and `getQuery` decodes them. -/
structure Uri where
  scheme : List Char
  userInfo : Option (List Char)
  host : List Char
  port : Int
  path : List Char
  query : Option (List Char)
  fragment : Option (List Char)

/-- `parseUriQueryParams`. -/
def parseUriQueryParams (query : List Char) : Params :=
  if query.isEmpty then []
  else (split query '&').foldl (fun params kvPair =>
    let key := kvPair.takeWhile (· ≠ '=')
    let value := (kvPair.dropWhile (· ≠ '=')).drop 1
    if key.isEmpty then params else (key, value) :: params) []

/-- `parseUriQueryParams` of a URI. -/
def Uri.params (uri : Uri) : Params := parseUriQueryParams (uri.query.getD [])

/-- `buildPathWithVersion`. -/
def buildPathWithVersion (link : List Char) (latestVersion : Int) : List Char :=
  link ++ ['?'] ++ fieldNameVersion ++ ['='] ++ (toString latestVersion).toList

/-- The parameter of a piece of the query, if its key is not empty. -/
def parameter (kvPair : List Char) : Option (List Char × List Char) :=
  if (kvPair.takeWhile (· ≠ '=')).isEmpty then none
  else some (kvPair.takeWhile (· ≠ '='), (kvPair.dropWhile (· ≠ '=')).drop 1)

/-- The parameters of all pieces. -/
theorem parseUriQueryParams_eq (query : List Char) :
    parseUriQueryParams query = ((query.splitOn '&').filterMap parameter).reverse := by
  have hfold : ∀ (pieces : List (List Char)) (params : Params),
      pieces.foldl (fun params kvPair =>
        let key := kvPair.takeWhile (· ≠ '=')
        let value := (kvPair.dropWhile (· ≠ '=')).drop 1
        if key.isEmpty then params else (key, value) :: params) params =
      (pieces.filterMap parameter).reverse ++ params := by
    intro pieces
    induction pieces with
    | nil => exact fun _ => rfl
    | cons p pieces ih =>
        intro params
        rw [List.foldl_cons, ih]
        dsimp only
        cases hp : parameter p with
        | none =>
            unfold parameter at hp
            split_ifs at hp with hkey
            rw [if_pos hkey, List.filterMap_cons_none (by unfold parameter; rw [if_pos hkey])]
        | some kv =>
            rw [List.filterMap_cons_some hp, List.reverse_cons, List.append_assoc]
            unfold parameter at hp
            split_ifs at hp with hkey
            rw [if_neg hkey, Option.some.inj hp]
            rfl
  unfold parseUriQueryParams split
  split_ifs with hempty hmem
  · rw [List.isEmpty_iff.mp hempty]
    rfl
  · rw [hfold, List.append_nil, filterMap_rdropWhile rfl]
  · rw [hfold, List.append_nil, List.splitOn_eq_singleton hmem]

/-- A parameter is a key and a value of a piece. -/
theorem mem_parseUriQueryParams {query key value : List Char}
    (h : (key, value) ∈ parseUriQueryParams query) :
    ∃ piece ∈ query.splitOn '&', key = piece.takeWhile (· ≠ '=') ∧
      value = (piece.dropWhile (· ≠ '=')).drop 1 := by
  rw [parseUriQueryParams_eq, List.mem_reverse, List.mem_filterMap] at h
  obtain ⟨piece, hpiece, hparameter⟩ := h
  unfold parameter at hparameter
  split_ifs at hparameter
  cases hparameter
  exact ⟨piece, hpiece, rfl, rfl⟩

/-- No value that is read has a separator. -/
theorem not_mem_of_mem_parseUriQueryParams {query key value : List Char}
    (h : (key, value) ∈ parseUriQueryParams query) : '&' ∉ value := by
  obtain ⟨piece, hpiece, -, rfl⟩ := mem_parseUriQueryParams h
  intro hmem
  exact (of_mem_splitOn hpiece).1 ((List.dropWhile_suffix _).subset (List.mem_of_mem_drop hmem))

/-- A key that is read stands in the query. -/
theorem infix_of_mem_parseUriQueryParams {query key value : List Char}
    (h : (key, value) ∈ parseUriQueryParams query) : key <:+: query := by
  obtain ⟨piece, hpiece, rfl, -⟩ := mem_parseUriQueryParams h
  exact (List.takeWhile_prefix _).isInfix.trans (infix_of_mem_splitOn hpiece)

/-- A parameter that is looked up has been read. -/
theorem mem_of_lookup {params : Params} {key value : List Char}
    (h : params.lookup key = some value) : (key, value) ∈ params := by
  obtain ⟨before, after, rfl, -⟩ := List.lookup_eq_some_iff.mp h
  exact List.mem_append_right _ List.mem_cons_self

/-- A parameter is read as it is written. -/
theorem parameter_eq {key value : List Char} (hne : key ≠ []) (hkey : '=' ∉ key) :
    parameter (key ++ '=' :: value) = some (key, value) := by
  have hall : ∀ c ∈ key, decide (c ≠ '=') = true :=
    fun c hc => decide_eq_true fun heq => hkey (heq ▸ hc)
  unfold parameter
  rw [List.takeWhile_append_of_pos hall, List.dropWhile_append_of_pos hall]
  simp [hne]

/-- A query of one parameter. -/
theorem parseUriQueryParams_single {key value : List Char} (hne : key ≠ [])
    (hkey : ∀ c ∈ key, c ≠ '&' ∧ c ≠ '=') (hvalue : '&' ∉ value) :
    parseUriQueryParams (key ++ '=' :: value) = [(key, value)] := by
  have hnone : '&' ∉ key ++ '=' :: value := by
    simp only [List.mem_append, List.mem_cons, not_or]
    exact ⟨fun h => (hkey _ h).1 rfl, by decide, hvalue⟩
  rw [parseUriQueryParams_eq, List.splitOn_eq_singleton hnone,
    List.filterMap_cons_some (parameter_eq hne fun h => (hkey _ h).2 rfl)]
  rfl

/-! ## Paths -/

/-- `isChildPath`. -/
def isChildPath (path parentPath : List Char) : Bool :=
  parentPath.isPrefixOf path &&
    (parentPath.getLast? = some '/' || (path.drop parentPath.length).head? = some '/')

/-- `normalizeUriPath`. -/
def normalizeUriPath (path : List Char) : List Char :=
  if path.isEmpty then path
  else
    let path := if path.getLast? = some '/' then path.dropLast else path
    if path.head? = some '/' then path else '/' :: path

/-- `normalizeUriPathTo`, with the text appended to. -/
def normalizeUriPathTo (path sb : List Char) : List Char :=
  if path.isEmpty then sb
  else
    let sb := sb ++ (if path.head? = some '/' then path else '/' :: path)
    if sb.getLast? = some '/' then sb.dropLast else sb

/-- `buildUriPath` of two segments. -/
def buildUriPath (first second : List Char) : List Char :=
  normalizeUriPathTo second (normalizeUriPathTo first [])

/-- The path of `buildUri`: what stands before the query, normalized. -/
def buildUri (normalize : List Char → List Char) (path : List Char) : List Char :=
  normalize (normalizeUriPath (path.takeWhile (· ≠ '?')))

/-- The path of `extendUri`. -/
def extendUri (normalize : List Char → List Char) (uriPath path : List Char) : List Char :=
  buildUri normalize (buildUriPath uriPath (path.takeWhile (· ≠ '?')))

/-- `isValidDocumentId`. -/
def isValidDocumentId (suffix factoryLink : List Char) : Bool :=
  if (core ++ ['/']).isPrefixOf suffix then true
  else
    let index := if isChildPath suffix factoryLink then factoryLink.length + 1 else 0
    let index := if suffix[index]? = some '/' then index + 1 else index
    if index ≥ suffix.length then false
    else (suffix.drop index).all fun ch =>
      ('0' ≤ ch && ch ≤ '9') || ('a' ≤ ch && ch ≤ 'z') || ('A' ≤ ch && ch ≤ 'Z') ||
        uriLegalChars.contains ch

/-- `normalizeUriPath` adds nothing but a slash. -/
theorem mem_normalizeUriPath {c : Char} {path : List Char} (hc : c ≠ '/')
    (h : c ∈ normalizeUriPath path) : c ∈ path := by
  have hcut : ∀ path : List Char,
      c ∈ (if path.head? = some '/' then path else '/' :: path) → c ∈ path := by
    intro path hmem
    split_ifs at hmem
    · exact hmem
    · exact (List.mem_cons.mp hmem).resolve_left hc
  unfold normalizeUriPath at h
  split_ifs at h with hempty hlast
  · exact h
  · exact (List.dropLast_sublist path).subset (hcut _ h)
  · exact hcut _ h

/-- The query is cut off. -/
theorem not_mem_buildUri {normalize : List Char → List Char}
    (hnormalize : ∀ path, normalize path ⊆ path) (path : List Char) :
    '?' ∉ buildUri normalize path := by
  intro h
  have hmem := mem_normalizeUriPath (by decide) (hnormalize _ h)
  simpa using List.mem_takeWhile_imp hmem

end Xenon.Common.UriUtils
