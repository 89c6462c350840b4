import Mathlib.Data.List.Lex
import Mathlib.Data.Prod.Lex
import Mathlib.Order.WithBot
import Xenon.Common.UriUtils
import Xenon.Foundation.Rotation
import Xenon.Foundation.Text
import Xenon.Http.ServiceClient

/-!
# Cookies

`com.vmware.xenon.common.http.netty.CookieJar`. The jar keeps the cookies of an origin in a set
that is sorted by name, path and domain; the cookies of a request are one header, which is split
again where they are read. A text is the list of its characters.
-/

namespace Xenon.Http.CookieJar

open Foundation Foundation.Text Common.UriUtils
open ServiceClient (trim)

/-- A `HashMap<String, String>`, by what is stored under a key. -/
abbrev StringMap := List Char → Option (List Char)

/-! ## The header -/

/-- The loop of `encodeCookies`, after `i` entries. -/
def encodeFrom (i : Nat) : List (List Char × List Char) → List Char
  | [] => []
  | (key, value) :: entries =>
      (if i > 0 then [';', ' '] else []) ++ key ++ ['='] ++ value ++ encodeFrom (i + 1) entries

/-- `encodeCookies`, over the entries of the map in the order of its iterator. -/
def encodeCookies (entries : List (List Char × List Char)) : List Char := encodeFrom 0 entries

/-- What `decodeCookies` stores for a pair. -/
def decodePair (cookiePair : List Char) : Option (List Char × List Char) :=
  match split cookiePair '=' with
  | [key, value] => some (trim key, trim value)
  | _ => none

def putPair (cookies : StringMap) (cookiePair : List Char) : StringMap :=
  match decodePair cookiePair with
  | some (key, value) => Function.update cookies key (some value)
  | none => cookies

def decodeCookies (header : List Char) : StringMap :=
  (split header ';').foldl putPair fun _ => none

/-! ## The jar -/

/-- netty's `Cookie`. -/
structure Cookie where
  name : List Char
  value : List Char
  path : Option (List Char) := none
  domain : Option (List Char) := none
  isSecure : Bool := false

/-- What cookies are compared by: name, path and domain, where an absent one comes first. -/
abbrev CookieKey := List Char ×ₗ WithBot (List Char) ×ₗ WithBot (List Char)

def Cookie.key (c : Cookie) : CookieKey := toLex (c.name, toLex (c.path, c.domain))

/-- A `ConcurrentSkipListSet<Cookie>`. -/
abbrev CookieSet := SortedMap CookieKey Cookie

/-- `Set.add`, which leaves an equal cookie in its place. -/
def addCookie (byOrigin : CookieSet) (c : Cookie) : CookieSet :=
  if (byOrigin.get c.key).isSome then byOrigin else byOrigin.insert c.key c

structure URI where
  scheme : Option String
  host : Option String
  port : Int

def uriSchemeHttps : String := "https"

def buildOrigin (uri : URI) : List Char :=
  (uri.host.getD "null").toList ++ ':' :: (toString uri.port).toList

/-- `cookiesByOrigin`. -/
abbrev Jar := SortedMap (List Char) CookieSet

def add (uri : URI) (cookie : Cookie) (jar : Jar) : Jar :=
  let byOrigin := (jar.get (buildOrigin uri)).getD .empty
  jar.insert (buildOrigin uri) (addCookie byOrigin cookie)

/-- `cookie.isSecure() && !uri.getScheme().equals(URI_SCHEME_HTTPS)`, or a
`NullPointerException`. -/
def withheld (uri : URI) (cookie : Cookie) : Option Bool :=
  if cookie.isSecure then uri.scheme.map (· ≠ uriSchemeHttps) else some false

/-- The loop of `list`. -/
def listFrom (uri : URI) : List Cookie → StringMap → Option StringMap
  | [], result => some result
  | cookie :: cookies, result =>
      (withheld uri cookie).bind fun skip =>
        listFrom uri cookies
          (if skip then result else Function.update result cookie.name (some cookie.value))

def list (uri : URI) (jar : Jar) : Option StringMap :=
  match jar.get (buildOrigin uri) with
  | none => some fun _ => none
  | some byOrigin => listFrom uri (byOrigin.entries.map Prod.snd) fun _ => none

/-! ## Splitting -/

section Splitting

variable {s : List Char}

/-- A header is split into what it was put together from. -/
theorem split_intercalate {sep : Char} {pieces : List (List Char)} (hne : pieces ≠ [])
    (hpieces : ∀ p ∈ pieces, p ≠ [] ∧ sep ∉ p) : split ([sep].intercalate pieces) sep = pieces := by
  have hsplit := List.splitOn_intercalate sep (fun p hp => (hpieces p hp).2) hne
  have hkeep := rdropWhile_isEmpty_eq_self fun p hp => (hpieces p hp).1
  unfold split
  by_cases hsep : sep ∈ [sep].intercalate pieces
  · rw [if_pos hsep, hsplit, hkeep]
  · rw [if_neg hsep, ← hsplit, List.splitOn_eq_singleton hsep]
    simp

theorem trim_eq_self (h : ∀ c ∈ s, 32 < c.toNat) : trim s = s := by
  have hdrop : ∀ t : List Char, (∀ c ∈ t, 32 < c.toNat) → t.dropWhile (·.toNat ≤ 32) = t := by
    intro t ht
    rw [List.dropWhile_eq_self_iff]
    intro hlen
    simpa using ht _ (List.getElem_mem hlen)
  unfold trim
  rw [hdrop s h, hdrop s.reverse fun c hc => h c (List.mem_reverse.mp hc), List.reverse_reverse]

theorem trim_blank : trim (' ' :: s) = trim s := by
  unfold trim
  rw [List.dropWhile_cons_of_pos (by decide)]

end Splitting

/-! ## Names and values -/

/-- What a token does not contain. -/
def separators : List Char := "()<>@,;:\\\"/[]?=\x7b\x7d \t".toList

/-- The characters of a token. -/
def isTokenChar (c : Char) : Bool := 32 < c.toNat && c.toNat < 127 && !separators.contains c

def isToken (s : List Char) : Bool := !s.isEmpty && s.all isTokenChar

/-- `cookie-octet`: no control character, blank, quote, comma, semicolon or backslash. -/
def isCookieOctet (c : Char) : Bool :=
  32 < c.toNat && c.toNat < 127 && !("\",;\\".toList.contains c)

/-- `DQUOTE`. -/
def quote : Char := Char.ofNat 34

/-- `cookie-value`, which may be in quotes. -/
def isCookieValue (s : List Char) : Prop :=
  s.all isCookieOctet = true ∨ ∃ t, s = quote :: t ++ [quote] ∧ t.all isCookieOctet = true

/-- A map of names to values, by its entries in the order of its iterator. -/
structure Cookies where
  entries : List (List Char × List Char)
  nodup : (entries.map Prod.fst).Nodup
  names : ∀ e ∈ entries, isToken e.1 = true
  values : ∀ e ∈ entries, isCookieValue e.2

/-- The value of a name. -/
def Cookies.get (m : Cookies) : StringMap := fun name => m.entries.lookup name

section Decode

variable {k v : List Char}

theorem token_spec (h : isToken k = true) : k ≠ [] ∧ ∀ c ∈ k, 32 < c.toNat ∧ c ≠ ';' ∧ c ≠ '=' := by
  simp only [isToken, Bool.and_eq_true, Bool.not_eq_true', List.all_eq_true] at h
  refine ⟨by simpa using h.1, fun c hc => ?_⟩
  have hchar := h.2 c hc
  simp only [isTokenChar, Bool.and_eq_true, decide_eq_true_eq] at hchar
  refine ⟨hchar.1.1, ?_, ?_⟩
  · rintro rfl
    exact absurd hchar.2 (by decide)
  · rintro rfl
    exact absurd hchar.2 (by decide)

theorem octet_spec {c : Char} (h : isCookieOctet c = true) : 32 < c.toNat ∧ c ≠ ';' := by
  simp only [isCookieOctet, Bool.and_eq_true, decide_eq_true_eq] at h
  refine ⟨h.1.1, ?_⟩
  rintro rfl
  exact absurd h.2 (by decide)

theorem value_spec (h : isCookieValue v) : ∀ c ∈ v, 32 < c.toNat ∧ c ≠ ';' := by
  rcases h with h | ⟨t, rfl, h⟩
  · exact fun c hc => octet_spec (List.all_eq_true.mp h c hc)
  · intro c hc
    have hquote : 32 < quote.toNat ∧ quote ≠ ';' := by decide
    rw [List.cons_append, List.mem_cons, List.mem_append, List.mem_singleton] at hc
    rcases hc with rfl | hc | rfl
    · exact hquote
    · exact octet_spec (List.all_eq_true.mp h c hc)
    · exact hquote

/-- What is left of a value. -/
def decodedValue (value : List Char) : Option (List Char) :=
  match (value.splitOn '=').rdropWhile (·.isEmpty) with
  | [piece] => some (trim piece)
  | _ => none

theorem decodePair_eq {key : List Char} (hne : key ≠ []) (hkey : '=' ∉ key) (value : List Char) :
    decodePair (key ++ '=' :: value) = (decodedValue value).map fun piece => (trim key, piece) := by
  have hmem : '=' ∈ key ++ '=' :: value := List.mem_append_right _ List.mem_cons_self
  unfold decodePair decodedValue split
  rw [if_pos hmem, List.splitOn_append_cons_self_of_not_mem hkey, rdropWhile_cons hne]
  cases (value.splitOn '=').rdropWhile (·.isEmpty) with
  | nil => rfl
  | cons piece rest =>
      cases rest with
      | nil => rfl
      | cons _ _ => rfl

/-- A value survives unless it is empty or contains the separator. -/
theorem decodedValue_eq_some_iff (hv : ∀ c ∈ v, 32 < c.toNat) :
    decodedValue v = some v ↔ v ≠ [] ∧ '=' ∉ v := by
  by_cases hmem : '=' ∈ v
  · refine iff_of_false (fun h => ?_) fun h => h.2 hmem
    unfold decodedValue at h
    split at h
    · rename_i piece heq
      -- no piece contains the separator
      have hpiece : piece ∈ v.splitOn '=' :=
        (List.rdropWhile_prefix _ _).subset (by rw [heq]; exact List.mem_cons_self)
      refine (of_mem_splitOn hpiece).1 ?_
      rw [← trim_eq_self fun c hc => hv c ((of_mem_splitOn hpiece).2 c hc), Option.some.inj h]
      exact hmem
    · cases h
  · unfold decodedValue
    rw [List.splitOn_eq_singleton hmem]
    by_cases hempty : v = []
    · subst hempty
      simp [List.rdropWhile_singleton]
    · rw [rdropWhile_cons hempty]
      simp [trim_eq_self hv, hempty, hmem]

/-- The pieces of the header. -/
def pairs : List (List Char × List Char) → List (List Char)
  | [] => []
  | e :: entries =>
      (e.1 ++ '=' :: e.2) :: entries.map fun e => ' ' :: (e.1 ++ '=' :: e.2)

theorem encodeFrom_succ (i : Nat) (entries : List (List Char × List Char)) :
    encodeFrom (i + 1) entries =
      (entries.map fun e => ';' :: ' ' :: (e.1 ++ '=' :: e.2)).flatten := by
  induction entries generalizing i with
  | nil => rfl
  | cons e entries ih =>
      unfold encodeFrom
      rw [ih, if_pos (Nat.succ_pos i)]
      simp

theorem encodeCookies_eq (entries : List (List Char × List Char)) :
    encodeCookies entries = [';'].intercalate (pairs entries) := by
  cases entries with
  | nil => rfl
  | cons e entries =>
      unfold encodeCookies encodeFrom pairs
      rw [encodeFrom_succ, intercalate_cons, List.map_map]
      simp [Function.comp_def]

/-- A pair gives its name what is left of its value. -/
def Reads (piece : List Char) (e : List Char × List Char) : Prop :=
  decodePair piece = (decodedValue e.2).map fun value => (e.1, value)

/-- The pairs of different names do not disturb each other. -/
theorem foldl_putPair {entries : List (List Char × List Char)} {pieces : List (List Char)}
    (hnodup : (entries.map Prod.fst).Nodup) (hpieces : List.Forall₂ Reads pieces entries)
    (cookies : StringMap) (key : List Char) :
    pieces.foldl putPair cookies key =
      ((entries.lookup key).bind decodedValue).or (cookies key) := by
  induction hpieces generalizing cookies with
  | nil => rfl
  | cons hreads hrest ih =>
      rename_i piece e pieces entries
      obtain ⟨name, value⟩ := e
      obtain ⟨hnot, hnodup⟩ := List.nodup_cons.mp hnodup
      rw [List.foldl_cons, ih hnodup, List.lookup_cons]
      have hput : putPair cookies piece key =
          if key = name then (decodedValue value).or (cookies key) else cookies key := by
        unfold putPair
        rw [hreads]
        cases decodedValue value with
        | none => simp
        | some w => by_cases hkey : key = name <;> simp [hkey]
      rw [hput]
      by_cases hkey : key = name
      · subst hkey
        have hnone : entries.lookup key = none := by
          rw [List.lookup_eq_none_iff]
          intro e he
          simpa using fun heq => hnot (List.mem_map.mpr ⟨e, he, heq.symm⟩)
        simp [hnone]
      · have hne : (key == name) = false := by simpa using hkey
        simp [hne, hkey]

theorem reads_pair {e : List Char × List Char} (hname : isToken e.1 = true) :
    Reads (e.1 ++ '=' :: e.2) e ∧ Reads (' ' :: (e.1 ++ '=' :: e.2)) e := by
  obtain ⟨hne, hchars⟩ := token_spec hname
  have hsep : '=' ∉ e.1 := fun h => (hchars _ h).2.2 rfl
  have htrim : trim e.1 = e.1 := trim_eq_self fun c hc => (hchars c hc).1
  constructor
  · unfold Reads
    rw [decodePair_eq hne hsep, htrim]
  · have hsep' : '=' ∉ ' ' :: e.1 := fun h =>
      (List.mem_cons.mp h).elim (by decide) hsep
    unfold Reads
    rw [← List.cons_append, decodePair_eq (List.cons_ne_nil _ _) hsep', trim_blank, htrim]

theorem lookup_of_mem {entries : List (List Char × List Char)} {e : List Char × List Char}
    (hnodup : (entries.map Prod.fst).Nodup) (he : e ∈ entries) :
    entries.lookup e.1 = some e.2 := by
  obtain ⟨before, after, rfl⟩ := List.append_of_mem he
  rw [List.map_append, List.map_cons, List.nodup_append] at hnodup
  refine List.lookup_eq_some_iff.mpr ⟨before, after, rfl, fun p hp => ?_⟩
  simpa using Ne.symm (hnodup.2.2 p.1 (List.mem_map_of_mem hp) e.1 List.mem_cons_self)

theorem decode_encode (m : Cookies) (key : List Char) :
    decodeCookies (encodeCookies m.entries) key = (m.get key).bind decodedValue := by
  obtain ⟨entries, hnodup, hnames, hvalues⟩ := m
  show decodeCookies (encodeCookies entries) key = (entries.lookup key).bind decodedValue
  cases entries with
  | nil => rfl
  | cons e rest =>
      have hpair : ∀ e' ∈ e :: rest, ';' ∉ e'.1 ++ '=' :: e'.2 := by
        intro e' he' hmem
        rw [List.mem_append, List.mem_cons] at hmem
        rcases hmem with hmem | hmem | hmem
        · exact ((token_spec (hnames e' he')).2 _ hmem).2.1 rfl
        · exact absurd hmem (by decide)
        · exact (value_spec (hvalues e' he') _ hmem).2 rfl
      have hpieces : ∀ p ∈ pairs (e :: rest), p ≠ [] ∧ ';' ∉ p := by
        intro p hp
        rcases List.mem_cons.mp hp with rfl | hp
        · exact ⟨by simp, hpair e List.mem_cons_self⟩
        · obtain ⟨e', he', rfl⟩ := List.mem_map.mp hp
          refine ⟨List.cons_ne_nil _ _, fun hmem => ?_⟩
          rcases List.mem_cons.mp hmem with hmem | hmem
          · exact absurd hmem (by decide)
          · exact hpair e' (List.mem_cons_of_mem _ he') hmem
      have hreads : List.Forall₂ Reads (pairs (e :: rest)) (e :: rest) := by
        refine .cons (reads_pair (hnames e List.mem_cons_self)).1 ?_
        rw [List.forall₂_map_left_iff, List.forall₂_same]
        exact fun e' he' => (reads_pair (hnames e' (List.mem_cons_of_mem _ he'))).2
      have hne : pairs (e :: rest) ≠ [] := List.cons_ne_nil _ _
      unfold decodeCookies
      rw [encodeCookies_eq, split_intercalate hne hpieces,
        foldl_putPair hnodup hreads, Option.or_none]

/-- **Which maps survive their encoding.** Exactly those whose values are neither empty nor contain
the separator of a pair. -/
theorem decode_encode_iff (m : Cookies) :
    decodeCookies (encodeCookies m.entries) = m.get ↔ ∀ e ∈ m.entries, e.2 ≠ [] ∧ '=' ∉ e.2 := by
  have hvisible : ∀ e ∈ m.entries, ∀ c ∈ e.2, 32 < c.toNat := fun e he c hc =>
    (value_spec (m.values e he) c hc).1
  have hlookup : ∀ e ∈ m.entries, m.get e.1 = some e.2 := fun e he => lookup_of_mem m.nodup he
  constructor
  · intro h e he
    have hkey := congrFun h e.1
    rw [decode_encode, hlookup e he] at hkey
    exact (decodedValue_eq_some_iff (hvisible e he)).mp hkey
  · intro h
    funext key
    rw [decode_encode]
    cases hget : m.get key with
    | none => rfl
    | some value =>
        obtain ⟨before, after, heq, -⟩ := List.lookup_eq_some_iff.mp hget
        have he : (key, value) ∈ m.entries := by
          rw [heq]
          exact List.mem_append_right _ List.mem_cons_self
        exact (decodedValue_eq_some_iff (hvisible _ he)).mpr (h _ he)

end Decode

/-! ## Cookies of one path and domain -/

/-- What is added: a name, a value and whether the cookie is secure. -/
structure Added where
  name : List Char
  value : List Char
  isSecure : Bool := false

def Added.cookie (path domain : Option (List Char)) (a : Added) : Cookie :=
  { name := a.name, value := a.value, path, domain, isSecure := a.isSecure }

/-- The calls of `add` for a URI, on a new jar. -/
def addAll (uri : URI) (cookies : List Cookie) : Jar :=
  cookies.foldl (fun jar c => add uri c jar) .empty

/-- The value, if the cookie is sent to the URI. -/
def sent (uri : URI) (c : Cookie) : Option (List Char) :=
  if c.isSecure = true ∧ uri.scheme ≠ some uriSchemeHttps then none else some c.value

/-- The cookie of a name that was added first. -/
def firstNamed (cookies : List Cookie) (name : List Char) : Option Cookie :=
  cookies.find? fun c => c.name = name

def lastNamed (cookies : List Cookie) (name : List Char) : Option Cookie :=
  firstNamed cookies.reverse name

section Jar

variable {uri : URI} {path domain : Option (List Char)}

theorem get_addCookie (byOrigin : CookieSet) (c : Cookie) (k : CookieKey) :
    (addCookie byOrigin c).get k = (byOrigin.get k).or (if c.key = k then some c else none) := by
  unfold addCookie
  split_ifs with hpresent hkey hkey
  · subst hkey
    obtain ⟨c', hc'⟩ := Option.isSome_iff_exists.mp hpresent
    rw [hc', Option.some_or]
  · rw [Option.or_none]
  · subst hkey
    rw [SortedMap.get_insert_self, Option.not_isSome_iff_eq_none.mp hpresent, Option.none_or]
  · rw [SortedMap.get_insert_of_ne (Ne.symm hkey), Option.or_none]

/-- A set keeps the cookie of a key that was added first. -/
theorem get_foldl_addCookie (cookies : List Cookie) (byOrigin : CookieSet) (k : CookieKey) :
    (cookies.foldl addCookie byOrigin).get k =
      (byOrigin.get k).or (cookies.find? fun c => c.key = k) := by
  induction cookies generalizing byOrigin with
  | nil => rw [List.foldl_nil, List.find?_nil, Option.or_none]
  | cons c cookies ih =>
      rw [List.foldl_cons, ih, get_addCookie, Option.or_assoc, List.find?_cons]
      by_cases hkey : c.key = k
      · simp [hkey]
      · simp [hkey]

theorem get_addAll (uri : URI) (cookies : List Cookie) (jar : Jar) :
    ((cookies.foldl (fun jar c => add uri c jar) jar).get (buildOrigin uri)).getD .empty =
      cookies.foldl addCookie ((jar.get (buildOrigin uri)).getD .empty) := by
  induction cookies generalizing jar with
  | nil => rfl
  | cons c cookies ih =>
      rw [List.foldl_cons, ih, List.foldl_cons]
      unfold add
      rw [SortedMap.get_insert_self, Option.getD_some]

/-- The cookies of the set that the calls leave. -/
def stored (uri : URI) (cookies : List Cookie) : List Cookie :=
  (((addAll uri cookies).get (buildOrigin uri)).getD .empty).entries.map Prod.snd

theorem list_eq (uri : URI) (cookies : List Cookie) :
    list uri (addAll uri cookies) = listFrom uri (stored uri cookies) fun _ => none := by
  unfold list stored
  cases (addAll uri cookies).get (buildOrigin uri) <;> rfl

/-- The key of a name among cookies of one path and domain. -/
def keyOf (path domain : Option (List Char)) (name : List Char) : CookieKey :=
  toLex (name, toLex (path, domain))

theorem key_of_mem {adds : List Added} {c : Cookie}
    (hc : c ∈ adds.map (Added.cookie path domain)) : c.key = keyOf path domain c.name := by
  obtain ⟨a, -, rfl⟩ := List.mem_map.mp hc
  rfl

theorem keyOf_inj {name name' : List Char}
    (h : keyOf path domain name = keyOf path domain name') : name = name' :=
  congrArg (fun k => (ofLex k).1) h

theorem find?_key (adds : List Added) (name : List Char) :
    (adds.map (Added.cookie path domain)).find? (fun c => c.key = keyOf path domain name) =
      firstNamed (adds.map (Added.cookie path domain)) name := by
  unfold firstNamed
  induction adds with
  | nil => rfl
  | cons a adds ih =>
      have hiff : (a.cookie path domain).key = keyOf path domain name ↔
          (a.cookie path domain).name = name := ⟨keyOf_inj, fun h => h ▸ rfl⟩
      rw [List.map_cons, List.find?_cons, List.find?_cons, ih, decide_eq_decide.mpr hiff]

theorem mem_entries {adds : List Added} {p : CookieKey × Cookie} :
    p ∈ (((addAll uri (adds.map (Added.cookie path domain))).get (buildOrigin uri)).getD
        .empty).entries ↔
      (adds.map (Added.cookie path domain)).find? (fun c => c.key = p.1) = some p.2 := by
  have hempty : ((SortedMap.empty : Jar).get (buildOrigin uri)).getD .empty =
      (SortedMap.empty : CookieSet) := rfl
  have hnone : (SortedMap.empty : CookieSet).get p.1 = none := rfl
  rw [← Prod.mk.eta (p := p), ← SortedMap.get_eq_some, addAll, get_addAll, hempty,
    get_foldl_addCookie, hnone, Option.none_or]

theorem key_of_mem_entries {adds : List Added} {p : CookieKey × Cookie}
    (h : p ∈ (((addAll uri (adds.map (Added.cookie path domain))).get (buildOrigin uri)).getD
        .empty).entries) : p.1 = keyOf path domain p.2.name := by
  have hfind := mem_entries.mp h
  have hkey : p.2.key = p.1 := by simpa using List.find?_some hfind
  rw [← hkey, key_of_mem (List.mem_of_find?_eq_some hfind)]

theorem mem_stored {adds : List Added} {c : Cookie} :
    c ∈ stored uri (adds.map (Added.cookie path domain)) ↔
      firstNamed (adds.map (Added.cookie path domain)) c.name = some c := by
  unfold stored
  rw [← find?_key]
  constructor
  · intro h
    obtain ⟨p, hp, rfl⟩ := List.mem_map.mp h
    rw [← key_of_mem_entries hp]
    exact mem_entries.mp hp
  · intro h
    exact List.mem_map.mpr ⟨(keyOf path domain c.name, c), mem_entries.mpr h, rfl⟩

theorem nodup_stored (uri : URI) (adds : List Added) :
    ((stored uri (adds.map (Added.cookie path domain))).map Cookie.name).Nodup := by
  unfold stored
  rw [List.map_map, List.Nodup, List.pairwise_map]
  refine (SortedMap.sorted _).imp_of_mem fun hp hq hlt heq => ?_
  rw [key_of_mem_entries hp, key_of_mem_entries hq] at hlt
  exact absurd (congrArg _ heq) hlt.ne

theorem listFrom_eq_none {cookies : List Cookie} {c : Cookie} (hc : c ∈ cookies)
    (hsecure : c.isSecure = true) (hscheme : uri.scheme = none) (result : StringMap) :
    listFrom uri cookies result = none := by
  induction cookies generalizing result with
  | nil => cases hc
  | cons d cookies ih =>
      unfold listFrom
      rcases List.mem_cons.mp hc with rfl | hc
      · rw [withheld, if_pos hsecure, hscheme]
        rfl
      · cases withheld uri d with
        | none => rfl
        | some skip => exact ih hc _

theorem withheld_eq {c : Cookie} (h : c.isSecure = true → uri.scheme ≠ none) :
    withheld uri c = some (sent uri c).isNone := by
  unfold withheld sent
  by_cases hsecure : c.isSecure = true
  · obtain ⟨scheme, hscheme⟩ := Option.ne_none_iff_exists'.mp (h hsecure)
    rw [if_pos hsecure, hscheme]
    by_cases hhttps : scheme = uriSchemeHttps <;> simp [hsecure, hhttps]
  · simp [hsecure]

/-- A list of cookies with different names gives each name its value, if that is sent. -/
theorem listFrom_spec {cookies : List Cookie} (hnodup : (cookies.map Cookie.name).Nodup)
    (h : ∀ c ∈ cookies, c.isSecure = true → uri.scheme ≠ none) (result : StringMap) :
    ∃ result', listFrom uri cookies result = some result' ∧
      (∀ c ∈ cookies, result' c.name = (sent uri c).or (result c.name)) ∧
      ∀ name, name ∉ cookies.map Cookie.name → result' name = result name := by
  induction cookies generalizing result with
  | nil => exact ⟨result, rfl, nofun, fun _ _ => rfl⟩
  | cons c cookies ih =>
      obtain ⟨hnot, hnodup⟩ := List.nodup_cons.mp hnodup
      have hput : ∀ name, (if (sent uri c).isNone then result
          else Function.update result c.name (some c.value)) name =
            if name = c.name then (sent uri c).or (result name) else result name := by
        intro name
        unfold sent
        by_cases hsent : c.isSecure = true ∧ uri.scheme ≠ some uriSchemeHttps
        · simp [hsent]
        · by_cases hname : name = c.name <;> simp [hsent, hname]
      obtain ⟨result', hlist, hmem, hother⟩ := ih hnodup
        (fun d hd => h d (List.mem_cons_of_mem _ hd))
        (if (sent uri c).isNone then result
          else Function.update result c.name (some c.value))
      refine ⟨result', ?_, fun d hd => ?_, fun name hname => ?_⟩
      · unfold listFrom
        rw [withheld_eq (h c List.mem_cons_self)]
        exact hlist
      · rcases List.mem_cons.mp hd with rfl | hd
        · rw [hother _ hnot, hput, if_pos rfl]
        · have hne : d.name ≠ c.name := fun heq => hnot (List.mem_map.mpr ⟨d, hd, heq⟩)
          rw [hmem d hd, hput, if_neg hne]
      · rw [List.map_cons, List.mem_cons, not_or] at hname
        rw [hother name hname.2, hput, if_neg hname.1]

/-- What is listed are the cookies of each name that were added first. -/
theorem list_addAll (uri : URI) (adds : List Added)
    (h : uri.scheme ≠ none ∨ ∀ name c,
      firstNamed (adds.map (Added.cookie path domain)) name = some c → c.isSecure = false) :
    ∃ result, list uri (addAll uri (adds.map (Added.cookie path domain))) = some result ∧
      ∀ name, result name =
        (firstNamed (adds.map (Added.cookie path domain)) name).bind (sent uri) := by
  have hscheme : ∀ c ∈ stored uri (adds.map (Added.cookie path domain)),
      c.isSecure = true → uri.scheme ≠ none := by
    intro c hc hsecure
    refine h.resolve_right fun hfirst => ?_
    rw [hfirst _ _ (mem_stored.mp hc)] at hsecure
    cases hsecure
  obtain ⟨result, hlist, hmem, hother⟩ :=
    listFrom_spec (nodup_stored uri adds) hscheme fun _ => none
  rw [list_eq]
  refine ⟨result, hlist, fun name => ?_⟩
  cases hfirst : firstNamed (adds.map (Added.cookie path domain)) name with
  | none =>
      refine hother name fun hname => ?_
      obtain ⟨c, hc, rfl⟩ := List.mem_map.mp hname
      rw [mem_stored.mp hc] at hfirst
      cases hfirst
  | some c =>
      obtain rfl : c.name = name := by simpa using List.find?_some hfirst
      rw [hmem c (mem_stored.mpr hfirst), Option.or_none]
      rfl

/-- **What survives its encoding, and what is listed.** A map of cookies is decoded from its
encoding if and only if no value is empty or contains `=`; the cookies that are listed are those
added last if and only if these agree, as far as they are sent, with those added first (and no
cookie of a URI without a scheme is secure). -/
theorem encoded_and_listed_iff (m : Cookies) (uri : URI) (path domain : Option (List Char))
    (adds : List Added) :
    let cookies := adds.map (Added.cookie path domain)
    (decodeCookies (encodeCookies m.entries) = m.get ↔
      ∀ e ∈ m.entries, e.2 ≠ [] ∧ '=' ∉ e.2) ∧
    ((∃ result, list uri (addAll uri cookies) = some result ∧
        ∀ name, result name = (lastNamed cookies name).bind (sent uri)) ↔
      (uri.scheme ≠ none ∨ ∀ name c, firstNamed cookies name = some c → c.isSecure = false) ∧
        ∀ name, (firstNamed cookies name).bind (sent uri) =
          (lastNamed cookies name).bind (sent uri)) := by
  intro cookies
  refine ⟨decode_encode_iff m, ?_⟩
  constructor
  · rintro ⟨result, hlist, hlast⟩
    have hsecure : uri.scheme ≠ none ∨
        ∀ name c, firstNamed cookies name = some c → c.isSecure = false := by
      by_contra hnot
      push Not at hnot
      obtain ⟨hscheme, name, c, hfirst, hc⟩ := hnot
      obtain rfl : c.name = name := by simpa using List.find?_some hfirst
      rw [list_eq, listFrom_eq_none (mem_stored.mpr hfirst) (by simpa using hc) hscheme] at hlist
      cases hlist
    obtain ⟨result', hlist', hfirst⟩ := list_addAll uri adds hsecure
    rw [hlist] at hlist'
    cases hlist'
    exact ⟨hsecure, fun name => (hfirst name).symm.trans (hlast name)⟩
  · rintro ⟨hsecure, hagree⟩
    obtain ⟨result, hlist, hfirst⟩ := list_addAll uri adds hsecure
    exact ⟨result, hlist, fun name => (hfirst name).trans (hagree name)⟩

/-- A value in Base64 is lost, and a renewed cookie is sent with its old value. -/
theorem value_lost_and_stale :
    (¬ ∀ m : Cookies, decodeCookies (encodeCookies m.entries) = m.get) ∧
    ¬ ∀ (uri : URI) (path domain : Option (List Char)) (adds : List Added),
      ∃ result, list uri (addAll uri (adds.map (Added.cookie path domain))) = some result ∧
        ∀ name, result name =
          (lastNamed (adds.map (Added.cookie path domain)) name).bind (sent uri) := by
  constructor
  · intro h
    let m : Cookies :=
      { entries := [("auth".toList, "YQ==".toList)]
        nodup := by decide
        names := by decide
        values := fun e he => by
          rw [List.mem_singleton] at he
          subst he
          exact Or.inl (by decide) }
    exact absurd (congrFun (h m) "auth".toList) (by decide)
  · intro h
    let adds : List Added := [{ name := "auth".toList, value := "old".toList },
      { name := "auth".toList, value := "new".toList }]
    obtain ⟨result, hlist, hlast⟩ := h ⟨some "http", some "host", 8000⟩ none none adds
    obtain ⟨result', hlist', hfirst⟩ :=
      list_addAll ⟨some "http", some "host", 8000⟩ adds (Or.inl (by decide))
    rw [hlist] at hlist'
    cases hlist'
    exact absurd ((hfirst "auth".toList).symm.trans (hlast "auth".toList)) (by decide)

end Jar

end Xenon.Http.CookieJar
