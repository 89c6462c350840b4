import Xenon.Common.UriUtils

/-!
# Index queries

`UriUtils.buildIndexQueryUri` writes a link, a version, an option and two flags into the query of a
URI, and `parseUriQueryParams` reads the query. Nothing is escaped on the way.
-/

namespace Xenon.Common.UriUtils

open Xenon.Foundation.Text

/-- `Service.ServiceOption`. -/
inductive ServiceOption where
  | INSTRUMENTATION | PERIODIC_MAINTENANCE | PERSISTENCE | REPLICATION | OWNER_SELECTION
  | STRICT_UPDATE_CHECKING | HTML_USER_INTERFACE | CONCURRENT_UPDATE_HANDLING
  | CONCURRENT_GET_HANDLING | IDEMPOTENT_POST | ON_DEMAND_LOAD | IMMUTABLE | LIFO_QUEUE
  | URI_NAMESPACE_OWNER | CORE | UTILITY | FACTORY | FACTORY_ITEM | DOCUMENT_OWNER
  | TRANSACTION_PENDING | STATELESS | NONE
  deriving DecidableEq

/-- `toString` of an option, its name. -/
def ServiceOption.name : ServiceOption → List Char
  | INSTRUMENTATION => "INSTRUMENTATION".toList
  | PERIODIC_MAINTENANCE => "PERIODIC_MAINTENANCE".toList
  | PERSISTENCE => "PERSISTENCE".toList
  | REPLICATION => "REPLICATION".toList
  | OWNER_SELECTION => "OWNER_SELECTION".toList
  | STRICT_UPDATE_CHECKING => "STRICT_UPDATE_CHECKING".toList
  | HTML_USER_INTERFACE => "HTML_USER_INTERFACE".toList
  | CONCURRENT_UPDATE_HANDLING => "CONCURRENT_UPDATE_HANDLING".toList
  | CONCURRENT_GET_HANDLING => "CONCURRENT_GET_HANDLING".toList
  | IDEMPOTENT_POST => "IDEMPOTENT_POST".toList
  | ON_DEMAND_LOAD => "ON_DEMAND_LOAD".toList
  | IMMUTABLE => "IMMUTABLE".toList
  | LIFO_QUEUE => "LIFO_QUEUE".toList
  | URI_NAMESPACE_OWNER => "URI_NAMESPACE_OWNER".toList
  | CORE => "CORE".toList
  | UTILITY => "UTILITY".toList
  | FACTORY => "FACTORY".toList
  | FACTORY_ITEM => "FACTORY_ITEM".toList
  | DOCUMENT_OWNER => "DOCUMENT_OWNER".toList
  | TRANSACTION_PENDING => "TRANSACTION_PENDING".toList
  | STATELESS => "STATELESS".toList
  | NONE => "NONE".toList

/-- `ServiceDocument.FIELD_NAME_SELF_LINK`. -/
def fieldNameSelfLink : List Char := "documentSelfLink".toList

/-- `URI_PARAM_CAPABILITY`. -/
def uriParamCapability : List Char := "capability".toList

/-- `URI_PARAM_INCLUDE_DELETED`. -/
def uriParamIncludeDeleted : List Char := "includeDeleted".toList

/-- `URI_PARAM_ODATA_EXPAND`. -/
def uriParamODataExpand : List Char := "$expand".toList

/-- `ServiceDocumentQueryResult.FIELD_NAME_DOCUMENT_LINKS`. -/
def fieldNameDocumentLinks : List Char := "documentLinks".toList

/-- What the loop of `buildUriQuery` knows: `sb`, `doKey` and `isFirst`. -/
structure QueryText where
  sb : List Char
  doKey : Bool
  isFirst : Bool

/-- One turn of the loop of `buildUriQuery`. -/
def QueryText.add (t : QueryText) (s : List Char) : QueryText :=
  if t.doKey then
    ⟨(if t.isFirst then t.sb else t.sb ++ ['&']) ++ s ++ ['='], false, false⟩
  else ⟨t.sb ++ s, true, t.isFirst⟩

/-- `buildUriQuery`. -/
def buildUriQuery (keyValues : List (List Char)) : Except String (List Char) :=
  if keyValues.length % 2 ≠ 0 then
    .error "keyValues array length must be even, with key and value pairs interleaved"
  else .ok (keyValues.foldl QueryText.add ⟨[], true, true⟩).sb

/-- `extendUriWithQuery`. -/
def extendUriWithQuery (u : Uri) (keyValues : List (List Char)) : Except String Uri := do
  let query ←
    match u.query with
    | some (c :: query) => do
        let added ← buildUriQuery keyValues
        .ok ((c :: query) ++ ['&'] ++ added)
    | _ => buildUriQuery keyValues
  .ok { u with userInfo := none, query := some query, fragment := none }

/-- The `queryArgs` of `buildIndexQueryUri`. -/
def indexQueryArgs (selfLink : List Char) (version : Option Int) (doExpand includeDeleted : Bool)
    (cap : Option ServiceOption) : List (List Char) :=
  let cap := cap.getD .NONE
  let queryArgs := [fieldNameSelfLink, selfLink]
  let queryArgs := match version with
    | some version => queryArgs ++ [fieldNameVersion, (toString version).toList]
    | none => queryArgs
  let queryArgs := queryArgs ++ [uriParamCapability, cap.name]
  let queryArgs :=
    if includeDeleted then queryArgs ++ [uriParamIncludeDeleted, "true".toList] else queryArgs
  if doExpand then queryArgs ++ [uriParamODataExpand, fieldNameDocumentLinks] else queryArgs

/-- `buildIndexQueryUri`. -/
def buildIndexQueryUri (indexURI : Uri) (selfLink : List Char) (version : Option Int)
    (doExpand includeDeleted : Bool) (cap : Option ServiceOption) : Except String Uri :=
  extendUriWithQuery indexURI (indexQueryArgs selfLink version doExpand includeDeleted cap)

/-! ## What is written -/

/-- The parameters of an index query. -/
def indexQueryParams (selfLink : List Char) (version : Option Int) (doExpand includeDeleted : Bool)
    (cap : Option ServiceOption) : Params :=
  [(fieldNameSelfLink, selfLink)] ++
    (version.map fun version => (fieldNameVersion, (toString version).toList)).toList ++
    [(uriParamCapability, (cap.getD .NONE).name)] ++
    (if includeDeleted then [(uriParamIncludeDeleted, "true".toList)] else []) ++
    (if doExpand then [(uriParamODataExpand, fieldNameDocumentLinks)] else [])

/-- A parameter as the two arguments of `buildUriQuery`. -/
def keyValue (kv : List Char × List Char) : List (List Char) := [kv.1, kv.2]

/-- A parameter as text. -/
def pair (kv : List Char × List Char) : List Char := kv.1 ++ '=' :: kv.2

section Written

variable {selfLink : List Char} {version : Option Int} {doExpand includeDeleted : Bool}
  {cap : Option ServiceOption}

theorem indexQueryArgs_eq :
    indexQueryArgs selfLink version doExpand includeDeleted cap =
      (indexQueryParams selfLink version doExpand includeDeleted cap).flatMap keyValue := by
  cases version with
  | none => cases includeDeleted <;> cases doExpand <;> rfl
  | some version => cases includeDeleted <;> cases doExpand <;> rfl

theorem foldl_add (params : Params) (sb : List Char) :
    ((params.flatMap keyValue).foldl QueryText.add ⟨sb, true, false⟩).sb =
      sb ++ (params.map fun kv => '&' :: pair kv).flatten := by
  induction params generalizing sb with
  | nil => exact (List.append_nil sb).symm
  | cons kv params ih =>
      show ((params.flatMap keyValue).foldl QueryText.add
        ⟨sb ++ ['&'] ++ kv.1 ++ ['='] ++ kv.2, true, false⟩).sb = _
      rw [ih]
      simp [pair]

/-- The pieces, with a separator between them. -/
theorem buildUriQuery_eq (params : Params) :
    buildUriQuery (params.flatMap keyValue) = .ok (['&'].intercalate (params.map pair)) := by
  have hlength : (params.flatMap keyValue).length % 2 = 0 := by
    induction params with
    | nil => rfl
    | cons kv params ih =>
        rw [List.flatMap_cons, List.length_append]
        show (2 + _) % 2 = 0
        omega
  unfold buildUriQuery
  rw [if_neg (not_not.mpr hlength)]
  cases params with
  | nil => rfl
  | cons kv params =>
      have hfirst := foldl_add params ([] ++ kv.1 ++ ['='] ++ kv.2)
      rw [List.map_cons, intercalate_cons, List.map_map]
      show Except.ok ((params.flatMap keyValue).foldl QueryText.add
        ⟨[] ++ kv.1 ++ ['='] ++ kv.2, true, false⟩).sb = _
      rw [hfirst]
      simp [pair, Function.comp_def]

/-- The query of the URI that is built, with what the index URI asks for first. -/
theorem buildIndexQueryUri_eq (indexURI : Uri) : ∃ uri,
    buildIndexQueryUri indexURI selfLink version doExpand includeDeleted cap = .ok uri ∧
      uri.params = ((['&'].intercalate ((indexQueryParams selfLink version doExpand includeDeleted
        cap).map pair)).splitOn '&' |>.filterMap parameter).reverse ++ indexURI.params := by
  unfold buildIndexQueryUri extendUriWithQuery
  rw [indexQueryArgs_eq, buildUriQuery_eq]
  generalize ['&'].intercalate ((indexQueryParams selfLink version doExpand includeDeleted
    cap).map pair) = added
  unfold Uri.params
  cases hquery : indexURI.query with
  | none =>
      refine ⟨_, rfl, ?_⟩
      exact (parseUriQueryParams_eq added).trans (List.append_nil _).symm
  | some query =>
      cases query with
      | nil =>
          refine ⟨_, rfl, ?_⟩
          exact (parseUriQueryParams_eq added).trans (List.append_nil _).symm
      | cons c query =>
          refine ⟨_, rfl, ?_⟩
          show parseUriQueryParams ((c :: query) ++ ['&'] ++ added) = _ ++ parseUriQueryParams _
          rw [parseUriQueryParams_eq, parseUriQueryParams_eq, List.append_assoc,
            List.singleton_append, List.splitOn_append_cons_self, List.filterMap_append,
            List.reverse_append]
          rfl

end Written

/-! ## What is read -/

/-- Pieces without separators are read as they are written. -/
theorem parameters_intercalate {params : Params} (hne : params ≠ [])
    (hkey : ∀ kv ∈ params, kv.1 ≠ [] ∧ '&' ∉ kv.1 ∧ '=' ∉ kv.1)
    (hvalue : ∀ kv ∈ params, '&' ∉ kv.2) :
    ((['&'].intercalate (params.map pair)).splitOn '&').filterMap parameter = params := by
  have hpiece : ∀ piece ∈ params.map pair, '&' ∉ piece := by
    intro piece hmem
    obtain ⟨kv, hkv, rfl⟩ := List.mem_map.mp hmem
    simp only [pair, List.mem_append, List.mem_cons, not_or]
    exact ⟨(hkey kv hkv).2.1, by decide, hvalue kv hkv⟩
  rw [List.splitOn_intercalate _ hpiece (by simpa using hne), List.filterMap_map]
  have hread : ∀ kv ∈ params, (parameter ∘ pair) kv = some kv := fun kv hkv =>
    parameter_eq (hkey kv hkv).1 (hkey kv hkv).2.2
  rw [List.filterMap_congr hread, List.filterMap_some]

/-- With distinct keys the order does not matter. -/
theorem lookup_reverse {params : Params} (h : (params.map Prod.fst).Nodup) (key : List Char) :
    params.reverse.lookup key = params.lookup key := by
  induction params with
  | nil => rfl
  | cons kv params ih =>
      rw [List.map_cons, List.nodup_cons] at h
      rw [List.reverse_cons, List.lookup_append, ih h.2]
      by_cases heq : key = kv.1
      · have hnone : params.lookup key = none := by
          rw [List.lookup_eq_none_iff]
          rintro kv' hkv'
          rw [bne_iff_ne]
          rintro rfl
          exact h.1 (heq ▸ List.mem_map_of_mem hkv')
        have hbeq : (key == kv.1) = true := beq_iff_eq.mpr heq
        cases kv
        simp only [hnone, List.lookup_cons, hbeq]
        rfl
      · have hbeq : (key == kv.1) = false := beq_false_of_ne heq
        cases kv
        simp only [List.lookup_cons, List.lookup_nil, hbeq]
        cases params.lookup key <;> rfl

/-- A version is written with digits and a sign. -/
theorem not_mem_toString {c : Char} (hdigit : c.isDigit = false) (hsign : c ≠ '-') (v : Int) :
    c ∉ (toString v).toList := by
  have hnat : ∀ n : Nat, c ∉ (toString n).toList := by
    intro n hmem
    have htext : (toString n).toList = Nat.toDigits 10 n := Nat.toList_repr
    rw [htext] at hmem
    have := Nat.isDigit_of_mem_toDigits (by decide) (by decide) hmem
    rw [hdigit] at this
    cases this
  cases v with
  | ofNat n => exact hnat n
  | negSucc n =>
      have htext : toString (Int.negSucc n) = "-" ++ toString (n + 1) := rfl
      rw [htext, String.toList_append, List.mem_append, not_or]
      exact ⟨fun hmem => hsign (List.mem_singleton.mp hmem), hnat (n + 1)⟩

/-! ## The round trip -/

/-- The parameters are the link, the version, the option and the flags that were given, and no
others. -/
def Yields (params : Params) (selfLink : List Char) (version : Option Int)
    (doExpand includeDeleted : Bool) (cap : Option ServiceOption) : Prop :=
  ∀ key, params.lookup key =
    if key = fieldNameSelfLink then some selfLink
    else if key = fieldNameVersion then version.map fun version => (toString version).toList
    else if key = uriParamCapability then some (cap.getD .NONE).name
    else if key = uriParamIncludeDeleted then
      if includeDeleted then some "true".toList else none
    else if key = uriParamODataExpand then
      if doExpand then some fieldNameDocumentLinks else none
    else none

section RoundTrip

variable {selfLink : List Char} {version : Option Int} {doExpand includeDeleted : Bool}
  {cap : Option ServiceOption} {params : Params}

/-- The keys an index query can have. -/
def indexQueryKeys : List (List Char) :=
  [fieldNameSelfLink, fieldNameVersion, uriParamCapability, uriParamIncludeDeleted,
    uriParamODataExpand]

theorem keys_sublist : List.Sublist
    ((indexQueryParams selfLink version doExpand includeDeleted cap).map Prod.fst)
    indexQueryKeys := by
  cases version <;> cases includeDeleted <;> cases doExpand <;>
    simp [indexQueryParams, indexQueryKeys]

theorem nodup_indexQueryParams :
    ((indexQueryParams selfLink version doExpand includeDeleted cap).map Prod.fst).Nodup := by
  have hnodup : indexQueryKeys.Nodup := by decide
  exact hnodup.sublist keys_sublist

theorem key_indexQueryParams :
    ∀ kv ∈ indexQueryParams selfLink version doExpand includeDeleted cap,
      kv.1 ≠ [] ∧ '&' ∉ kv.1 ∧ '=' ∉ kv.1 := by
  have hall : indexQueryKeys.all
      (fun key => !key.isEmpty && !key.contains '&' && !key.contains '=') = true := by decide
  intro kv hkv
  have hkey := List.all_eq_true.mp hall kv.1 (keys_sublist.subset (List.mem_map_of_mem hkv))
  simpa [and_assoc] using hkey

/-- Only the link can have a separator. -/
theorem value_indexQueryParams (h : '&' ∉ selfLink) :
    ∀ kv ∈ indexQueryParams selfLink version doExpand includeDeleted cap, '&' ∉ kv.2 := by
  have hcap : '&' ∉ (cap.getD .NONE).name := by
    cases cap.getD .NONE <;> decide
  have htrue : '&' ∉ "true".toList := by decide
  have hlinks : '&' ∉ fieldNameDocumentLinks := by decide
  intro kv hkv
  unfold indexQueryParams at hkv
  simp only [List.mem_append, List.mem_singleton, Option.mem_toList, Option.map_eq_some_iff] at hkv
  rcases hkv with (((rfl | ⟨v, -, rfl⟩) | rfl) | hkv) | hkv
  · exact h
  · exact not_mem_toString (by decide) (by decide) v
  · exact hcap
  · split_ifs at hkv
    · rw [List.mem_singleton.mp hkv]
      exact htrue
    · cases hkv
  · split_ifs at hkv
    · rw [List.mem_singleton.mp hkv]
      exact hlinks
    · cases hkv

theorem yields_iff : Yields params selfLink version doExpand includeDeleted cap ↔
    ∀ key, params.lookup key =
      (indexQueryParams selfLink version doExpand includeDeleted cap).lookup key := by
  refine forall_congr' fun key => Eq.congr_right ?_
  by_cases hlink : key = fieldNameSelfLink
  · rw [if_pos hlink, hlink]
    rfl
  rw [if_neg hlink]
  by_cases hversion : key = fieldNameVersion
  · rw [if_pos hversion, hversion]
    cases version <;> cases includeDeleted <;> cases doExpand <;> rfl
  rw [if_neg hversion]
  by_cases hcap : key = uriParamCapability
  · rw [if_pos hcap, hcap]
    cases version <;> cases includeDeleted <;> cases doExpand <;> rfl
  rw [if_neg hcap]
  by_cases hdeleted : key = uriParamIncludeDeleted
  · rw [if_pos hdeleted, hdeleted]
    cases version <;> cases includeDeleted <;> cases doExpand <;> rfl
  rw [if_neg hdeleted]
  by_cases hexpand : key = uriParamODataExpand
  · rw [if_pos hexpand, hexpand]
    cases version <;> cases includeDeleted <;> cases doExpand <;> rfl
  rw [if_neg hexpand, eq_comm, List.lookup_eq_none_iff]
  intro kv hkv
  rw [bne_iff_ne]
  rintro rfl
  have hmem := keys_sublist.subset (List.mem_map_of_mem (f := Prod.fst) hkv)
  simp [indexQueryKeys, hlink, hversion, hcap, hdeleted, hexpand] at hmem

/-- What is written first is read only where nothing is written later. -/
theorem lookup_params (h : '&' ∉ selfLink) {indexURI uri : Uri}
    (hparams : uri.params = ((['&'].intercalate ((indexQueryParams selfLink version doExpand
      includeDeleted cap).map pair)).splitOn '&' |>.filterMap parameter).reverse ++
        indexURI.params) (key : List Char) :
    uri.params.lookup key =
      ((indexQueryParams selfLink version doExpand includeDeleted cap).lookup key).or
        (indexURI.params.lookup key) := by
  have hne : indexQueryParams selfLink version doExpand includeDeleted cap ≠ [] := by
    unfold indexQueryParams
    simp
  rw [hparams, parameters_intercalate hne key_indexQueryParams (value_indexQueryParams h),
    List.lookup_append, lookup_reverse nodup_indexQueryParams]

theorem mem_keys_iff {key : List Char} :
    key ∈ (indexQueryParams selfLink version doExpand includeDeleted cap).map Prod.fst ↔
      key = fieldNameSelfLink ∨ key = fieldNameVersion ∧ version.isSome ∨
        key = uriParamCapability ∨ key = uriParamIncludeDeleted ∧ includeDeleted ∨
        key = uriParamODataExpand ∧ doExpand := by
  cases version <;> cases includeDeleted <;> cases doExpand <;> simp [indexQueryParams]

theorem lookup_eq_none {key : List Char} :
    params.lookup key = none ↔ key ∉ params.map Prod.fst := by
  rw [List.lookup_eq_none_iff, List.mem_map]
  constructor
  · rintro h ⟨kv, hkv, rfl⟩
    exact bne_iff_ne.mp (h kv hkv) rfl
  · intro h kv hkv
    exact bne_iff_ne.mpr fun heq => h ⟨kv, hkv, heq.symm⟩

/-- A link that is read back has no separator. -/
theorem Yields.not_mem {uri : Uri}
    (h : Yields uri.params selfLink version doExpand includeDeleted cap) : '&' ∉ selfLink := by
  have hlink := h fieldNameSelfLink
  rw [if_pos rfl] at hlink
  exact not_mem_of_mem_parseUriQueryParams (mem_of_lookup hlink)

/-- The round trip holds for the links without separators, on an index URI that asks for nothing
that is not asked for anew. -/
theorem buildIndexQueryUri_yields_iff (indexURI : Uri) (selfLink : List Char)
    (version : Option Int) (doExpand includeDeleted : Bool) (cap : Option ServiceOption) :
    (∃ uri, buildIndexQueryUri indexURI selfLink version doExpand includeDeleted cap = .ok uri ∧
      Yields uri.params selfLink version doExpand includeDeleted cap) ↔
    '&' ∉ selfLink ∧ ∀ kv ∈ indexURI.params,
      kv.1 = fieldNameSelfLink ∨ kv.1 = fieldNameVersion ∧ version.isSome ∨
        kv.1 = uriParamCapability ∨ kv.1 = uriParamIncludeDeleted ∧ includeDeleted ∨
        kv.1 = uriParamODataExpand ∧ doExpand := by
  obtain ⟨uri, hbuilt, hparams⟩ :=
    @buildIndexQueryUri_eq selfLink version doExpand includeDeleted cap indexURI
  have hread := fun hlink : '&' ∉ selfLink => lookup_params hlink hparams
  constructor
  · rintro ⟨uri', hbuilt', hyields⟩
    have heq : uri' = uri := Except.ok.inj (hbuilt'.symm.trans hbuilt)
    subst heq
    refine ⟨hyields.not_mem, fun kv hkv =>
      (@mem_keys_iff selfLink version doExpand includeDeleted cap kv.1).mp ?_⟩
    by_contra hnot
    -- a parameter of the index URI that is not asked for anew is still there
    have hlookup := hread hyields.not_mem kv.1
    rw [yields_iff.mp hyields kv.1, lookup_eq_none.mpr hnot] at hlookup
    exact lookup_eq_none.mp hlookup.symm (List.mem_map_of_mem hkv)
  · rintro ⟨hlink, hcovered⟩
    refine ⟨uri, hbuilt, yields_iff.mpr fun key => ?_⟩
    rw [hread hlink]
    cases hadded : (indexQueryParams selfLink version doExpand includeDeleted cap).lookup key with
    | some value => rfl
    | none =>
        rw [Option.none_or, lookup_eq_none]
        intro hmem
        obtain ⟨kv, hkv, rfl⟩ := List.mem_map.mp hmem
        exact lookup_eq_none.mp hadded (mem_keys_iff.mpr (hcovered kv hkv))

/-- The document index of a host. -/
def documentIndex : Uri :=
  ⟨"http".toList, none, "127.0.0.1".toList, 8000, "/core/document-index".toList, none, none⟩

/-- A document id may have a separator, and then the link is cut short. -/
theorem buildIndexQueryUri_ampersand :
    isValidDocumentId "/examples/a&b".toList "/examples".toList = true ∧
      ¬∃ uri, buildIndexQueryUri documentIndex "/examples/a&b".toList none false false none =
          .ok uri ∧
        Yields uri.params "/examples/a&b".toList none false false none := by
  refine ⟨by decide, ?_⟩
  rintro ⟨uri, -, hyields⟩
  exact hyields.not_mem (by decide)

end RoundTrip

end Xenon.Common.UriUtils
