import Mathlib.Data.List.Basic
import Xenon.Http.ServiceClient

/-!
# The request of an operation

What `sendHttpRequest` writes is a function of the operation: its content is one of the body, of
how it is encoded and, for bytes, of the content length; its headers are listed with the part of
the operation that each comes from.
-/

namespace Xenon.Http.ServiceClient

open Xenon.Common

variable {O : Type*}

/-! ## Its content -/

section Written

variable (serializers : Serializers O) (client : Client O) (op : Operation O)

/-- The content type after `encodeBody`. -/
def encodedType : Option String :=
  match op.body with
  | some (.bytes _) => some (op.contentType.getD mediaTypeOctetStream)
  | some (.object _) =>
      if op.action ≠ .get ∧ op.contentType = none then some mediaTypeJson else op.contentType
  | _ => op.contentType

/-- The bytes of a body, before they are compressed. -/
def data : Body O → Option (List UInt8)
  | .text s => some s.toUTF8.toList
  | .bytes b => some b
  | .object o =>
      if op.contentType = some mediaTypeKryoOctetStream then serializers.serializeAsDocument o
      else serializers.toJson o

/-- How many of the bytes are written. Bytes may have a content length of their own. -/
def dataLength (data : List UInt8) : Body O → Nat
  | .bytes _ =>
      if op.contentLength = 0 ∨ op.contentLength > data.length then data.length
      else op.contentLength
  | _ => data.length

/-- The content of the request. -/
def content : Option (List UInt8) :=
  match op.body with
  | none => some []
  | some body => (data serializers op body).map fun data =>
      if op.gzip then serializers.compressGZip data else data.take (dataLength op data body)

/-- The request with some content type and content. -/
def request (contentType : String) (content : List UInt8) : Request where
  method := op.action
  uri := op.pathAndQuery client.httpProxy
  headers := httpHeaders client.userAgent op contentType content.length
  content := content

variable {serializers client op}

theorem dataLength_le (data : List UInt8) (body : Body O) :
    dataLength op data body ≤ data.length := by
  unfold dataLength
  split
  · split <;> omega
  · exact le_refl _

namespace Operation

/-- An operation with the content type and the content length of its encoded body. -/
def encoded (op : Operation O) (contentType : Option String) (contentLength : Nat) : Operation O :=
  { op with contentType := contentType, contentLength := contentLength }

variable (op : Operation O) (contentType : Option String) (contentLength : Nat)

@[simp] theorem encoded_gzip : (op.encoded contentType contentLength).gzip = op.gzip := rfl

@[simp] theorem encoded_contentType :
    (op.encoded contentType contentLength).contentType = contentType := rfl

@[simp] theorem encoded_contentLength :
    (op.encoded contentType contentLength).contentLength = contentLength := rfl

end Operation

/-- Each kind of body sets the content type and the content length. -/
theorem encodeData_spec {body : Body O} (hbody : op.body = some body) :
    encodeData serializers op body = (data serializers op body).map fun data =>
      (op.encoded (encodedType op) (dataLength op data body), data) := by
  obtain ⟨action, uri, referer, _, contentType, contentLength⟩ := op
  subst hbody
  cases body with
  | text s => rfl
  | bytes b =>
      simp only [encodeData, data, dataLength, encodedType, Operation.encoded, Option.map_some]
      by_cases hlength : contentLength = 0 ∨ b.length < contentLength
      · cases contentType <;> simp [hlength]
      · cases contentType <;> simp [hlength]
  | object o =>
      simp only [encodeData, data, dataLength, encodedType, Operation.encoded]
      by_cases hkryo : contentType = some mediaTypeKryoOctetStream
      · simp [hkryo]
      · rw [if_neg hkryo, if_neg hkryo]
        congr 1
        funext data
        split <;> rfl

theorem encodeGZip_encoded (contentType : Option String) (contentLength : Nat)
    (data : List UInt8) :
    encodeGZip serializers (op.encoded contentType contentLength) data =
      if op.gzip then
        (op.encoded contentType (serializers.compressGZip data).length,
          serializers.compressGZip data)
      else (op.encoded contentType contentLength, data) := rfl

/-- The content length afterwards is the length of what is written. -/
theorem encodeBody_spec (serializers : Serializers O) (op : Operation O) :
    (encodeBody serializers op = none ∧ content serializers op = none) ∨
      ∃ c data, content serializers op = some c ∧
        encodeBody serializers op = some (op.encoded (encodedType op) c.length, data) ∧
        (data.getD []).take c.length = c := by
  unfold encodeBody content
  cases hbody : op.body with
  | none =>
      refine Or.inr ⟨[], none, rfl, ?_, rfl⟩
      simp only [encodedType, Operation.encoded, hbody, List.length_nil]
  | some body =>
      simp only [encodeData_spec hbody]
      cases hdata : data serializers op body with
      | none => exact Or.inl ⟨rfl, rfl⟩
      | some whole =>
          right
          simp only [Option.map_some, encodeGZip_encoded]
          by_cases hgzip : op.gzip
          · simp only [hgzip, if_true]
            exact ⟨_, _, rfl, rfl, List.take_length⟩
          · simp only [hgzip, Bool.false_eq_true, if_false]
            refine ⟨whole.take (dataLength op whole body), some whole, rfl, ?_, ?_⟩
            · rw [List.length_take, Nat.min_eq_left (dataLength_le whole body)]
            · rw [Option.getD_some, List.length_take, Nat.min_eq_left (dataLength_le whole body)]

/-- The body can be encoded, its size is allowed, and there is a content type. -/
def Sendable (client : Client O) (op : Operation O) : Prop :=
  (∃ c, content client.serializers op = some c ∧ c.length ≤ client.requestPayloadSizeLimit) ∧
    asciiContentType (encodedType op) ≠ none

/-- One case for each way in which no request is written, and one for the request. -/
theorem sendHttpRequest_cases (client : Client O) (op : Operation O) :
    ((content client.serializers op = none ∧ sendHttpRequest client op = (op, none)) ∨
      ∃ c, content client.serializers op = some c ∧
        ((client.requestPayloadSizeLimit < c.length ∧
            sendHttpRequest client op = (op.encoded (encodedType op) c.length, none)) ∨
          (c.length ≤ client.requestPayloadSizeLimit ∧ asciiContentType (encodedType op) = none ∧
            sendHttpRequest client op =
              ((op.encoded (encodedType op) c.length).removeHeaders, none)) ∨
          ∃ contentType, c.length ≤ client.requestPayloadSizeLimit ∧
            asciiContentType (encodedType op) = some contentType ∧
            sendHttpRequest client op =
              ({ (op.encoded (encodedType op) c.length).removeHeaders with socketActive := true },
                some (request client op contentType c)))) := by
  rcases encodeBody_spec client.serializers op with
    ⟨hencode, hcontent⟩ | ⟨c, data, hcontent, hencode, hdata⟩
  · left
    refine ⟨hcontent, ?_⟩
    simp only [sendHttpRequest, hencode]
  · refine Or.inr ⟨c, hcontent, ?_⟩
    by_cases hlimit : client.requestPayloadSizeLimit < c.length
    · left
      refine ⟨hlimit, ?_⟩
      simp only [sendHttpRequest, hencode, Operation.encoded_contentLength, gt_iff_lt, hlimit,
        if_true]
    · right
      have hle : c.length ≤ client.requestPayloadSizeLimit := by omega
      cases hascii : asciiContentType (encodedType op) with
      | none =>
          left
          refine ⟨hle, rfl, ?_⟩
          simp only [sendHttpRequest, hencode, Operation.encoded_contentLength, gt_iff_lt, hlimit,
            if_false, Operation.encoded_contentType, hascii]
      | some contentType =>
          right
          refine ⟨contentType, hle, rfl, ?_⟩
          simp only [sendHttpRequest, hencode, Operation.encoded_contentLength, gt_iff_lt, hlimit,
            if_false, Operation.encoded_contentType, hascii, hdata]
          rfl

theorem sendHttpRequest_eq_some {r : Request} :
    (sendHttpRequest client op).2 = some r ↔
      ∃ c contentType, content client.serializers op = some c ∧
        c.length ≤ client.requestPayloadSizeLimit ∧
        asciiContentType (encodedType op) = some contentType ∧
        r = request client op contentType c := by
  constructor
  · intro h
    rcases sendHttpRequest_cases client op with
      ⟨-, hsend⟩ | ⟨c, hcontent, ⟨-, hsend⟩ | ⟨-, -, hsend⟩ | ⟨contentType, hle, hascii, hsend⟩⟩
    · simp [hsend] at h
    · simp [hsend] at h
    · simp [hsend] at h
    · rw [hsend] at h
      exact ⟨c, contentType, hcontent, hle, hascii, (Option.some.inj h).symm⟩
  · rintro ⟨c, contentType, hcontent, hle, hascii, rfl⟩
    rcases sendHttpRequest_cases client op with
      ⟨hnone, -⟩ | ⟨c', hcontent', ⟨hlt, -⟩ | ⟨-, hnone, -⟩ | ⟨contentType', -, hascii', hsend⟩⟩
    · simp [hnone] at hcontent
    · rw [hcontent, Option.some.injEq] at hcontent'
      subst hcontent'
      omega
    · simp [hnone] at hascii
    · rw [hcontent, Option.some.injEq] at hcontent'
      rw [hascii, Option.some.injEq] at hascii'
      rw [hsend, hcontent', hascii']

theorem sendable_iff : Sendable client op ↔ ∃ r, (sendHttpRequest client op).2 = some r := by
  constructor
  · rintro ⟨⟨c, hcontent, hlimit⟩, hascii⟩
    obtain ⟨contentType, hascii⟩ := Option.ne_none_iff_exists'.mp hascii
    exact ⟨_, sendHttpRequest_eq_some.mpr ⟨c, contentType, hcontent, hlimit, hascii, rfl⟩⟩
  · rintro ⟨r, hr⟩
    obtain ⟨c, contentType, hcontent, hlimit, hascii, -⟩ := sendHttpRequest_eq_some.mp hr
    exact ⟨⟨c, hcontent, hlimit⟩, by simp [hascii]⟩

/-- A request takes the headers off the operation. -/
theorem sendHttpRequest_fst {r : Request} (h : (sendHttpRequest client op).2 = some r) :
    ∃ contentLength, (sendHttpRequest client op).1 =
      { (op.encoded (encodedType op) contentLength).removeHeaders with socketActive := true } := by
  rcases sendHttpRequest_cases client op with
    ⟨-, hsend⟩ | ⟨c, -, ⟨-, hsend⟩ | ⟨-, -, hsend⟩ | ⟨contentType, -, -, hsend⟩⟩
  · simp [hsend] at h
  · simp [hsend] at h
  · simp [hsend] at h
  · exact ⟨c.length, by rw [hsend]⟩

/-- Whether or not a request is written, the operation keeps all but these four. -/
theorem sendHttpRequest_frame (client : Client O) (op : Operation O) :
    ∃ contentType contentLength headers socketActive,
      (sendHttpRequest client op).1 =
        { op with
          contentType := contentType
          contentLength := contentLength
          requestHeaders := headers
          socketActive := socketActive } ∧
      (contentType = op.contentType ∨ contentType = encodedType op) ∧
      (headers = op.requestHeaders ∨ headers = op.removeHeaders.requestHeaders) := by
  rcases sendHttpRequest_cases client op with
    ⟨-, hsend⟩ | ⟨c, -, ⟨-, hsend⟩ | ⟨-, -, hsend⟩ | ⟨contentType, -, -, hsend⟩⟩
  · exact ⟨_, _, _, _, by rw [hsend], Or.inl rfl, Or.inl rfl⟩
  · exact ⟨_, _, _, _, by rw [hsend]; rfl, Or.inr rfl, Or.inl rfl⟩
  · exact ⟨_, _, _, _, by rw [hsend]; rfl, Or.inr rfl, Or.inr rfl⟩
  · exact ⟨_, _, _, _, by rw [hsend]; rfl, Or.inr rfl, Or.inr rfl⟩

end Written

/-! ## Its headers -/

section Headers

/-- The values of a header. -/
def values (name : String) (headers : List (String × String)) : List String :=
  (headers.filter (·.1 = name)).map (·.2)

theorem values_append (name : String) (headers headers' : List (String × String)) :
    values name (headers ++ headers') = values name headers ++ values name headers' := by
  simp [values]

theorem values_singleton (name name' value : String) :
    values name [(name', value)] = if name' = name then [value] else [] := by
  by_cases h : name' = name
  · simp [values, h]
  · simp [values, h]

theorem values_add (name name' : String) (value : Option String) :
    values name (add name' value) = if name' = name then value.toList else [] := by
  cases value with
  | none => simp [add, values]
  | some value => exact values_singleton name name' value

theorem values_set {name name' : String} (hne : name' ≠ name) (headers : List (String × String))
    (value : String) : values name (set headers name' value) = values name headers := by
  rw [set, values_append, values_singleton, if_neg hne, List.append_nil]
  unfold values
  rw [List.filter_filter]
  congr 2
  funext header
  by_cases h : header.1 = name
  · simp [h, Ne.symm hne]
  · simp [h]

theorem values_removeHeaders {op : Operation O} {name : String}
    (hname : name ∈ op.removedHeaders) : values name op.removeHeaders.requestHeaders = [] := by
  unfold values Operation.removeHeaders
  simp only [List.map_eq_nil_iff, List.filter_eq_nil_iff, List.mem_filter, decide_eq_true_eq]
  rintro header ⟨-, hnot⟩ rfl
  exact hnot hname

variable (userAgent : String) (op : Operation O) (contentType : String) (contentLength : Nat)

/-- Of the headers that come from the operation's own, each has one source. -/
theorem values_httpHeaders {name : String}
    (hname : name ∈ ["pragma", "accept", "x-xenon-auth-token", "content-type"]) :
    values name (httpHeaders userAgent op contentType contentLength) =
      (if "pragma" = name then op.pragmaHeader.toList else []) ++
        (if "x-xenon-auth-token" = name then op.authTokenHeader.toList else []) ++
        (if "content-type" = name then [contentType] else []) ++
        (if "accept" = name then op.acceptHeader.toList else []) := by
  have hremoved : values name op.removeHeaders.requestHeaders = [] := by
    apply values_removeHeaders
    simp only [List.mem_cons, List.not_mem_nil, or_false] at hname
    rcases hname with rfl | rfl | rfl | rfl <;> simp [Operation.removedHeaders]
  have hdisjoint : ∀ other ∈ ["x-xenon-tx-id", "x-xenon-ctx-id", "content-length", "referer",
      "cookie", "user-agent", "host"],
      other ∉ ["pragma", "accept", "x-xenon-auth-token", "content-type"] := by decide
  have hother : ∀ other ∈ ["x-xenon-tx-id", "x-xenon-ctx-id", "content-length", "referer", "cookie",
      "user-agent", "host"], other ≠ name := by
    rintro other hother rfl
    exact hdisjoint other hother hname
  simp only [List.forall_mem_cons, List.not_mem_nil, false_implies, implies_true, and_true]
    at hother
  obtain ⟨htx, hctx, hlength, hreferer, hcookie, hagent, hhost⟩ := hother
  unfold httpHeaders
  by_cases hxenon : op.isXenonToXenon
  · simp only [hxenon, if_true, values_append, values_add, values_singleton, hremoved, htx, hctx,
      hlength, hreferer, if_false, List.append_nil]
  · cases op.cookies with
    | none =>
        simp only [hxenon, Bool.false_eq_true, if_false, values_set hagent, values_append,
          values_add, values_singleton, hremoved, htx, hctx, hlength, hreferer, hhost,
          List.append_nil]
    | some cookies =>
        simp only [hxenon, Bool.false_eq_true, if_false, values_set hagent, values_set hcookie,
          values_append, values_add, values_singleton, hremoved, htx, hctx, hlength, hreferer,
          hhost, List.append_nil]

/-- The header that a value comes from can be read off the request. -/
theorem httpHeaders_injective {op op' : Operation O} {contentType contentType' : String}
    {contentLength contentLength' : Nat}
    (h : httpHeaders userAgent op contentType contentLength =
      httpHeaders userAgent op' contentType' contentLength') :
    op.pragmaHeader = op'.pragmaHeader ∧ op.acceptHeader = op'.acceptHeader ∧
      op.authTokenHeader = op'.authTokenHeader ∧ contentType = contentType' := by
  have hvalues : ∀ name, values name (httpHeaders userAgent op contentType contentLength) =
      values name (httpHeaders userAgent op' contentType' contentLength') := by
    intro name
    rw [h]
  have htoList : ∀ a b : Option String, a.toList = b.toList → a = b := by
    intro a b hab
    cases a <;> cases b <;> simp_all
  have hpragma := hvalues "pragma"
  have haccept := hvalues "accept"
  have htoken := hvalues "x-xenon-auth-token"
  have htype := hvalues "content-type"
  rw [values_httpHeaders _ _ _ _ (by simp), values_httpHeaders _ _ _ _ (by simp)]
    at hpragma haccept htoken htype
  exact ⟨htoList _ _ (by simpa using hpragma), htoList _ _ (by simpa using haccept),
    htoList _ _ (by simpa using htoken), by simpa using htype⟩

end Headers

end Xenon.Http.ServiceClient
