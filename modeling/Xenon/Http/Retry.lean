import Mathlib.Data.List.Basic
import Xenon.Foundation.Run
import Xenon.Http.Request

/-!
# Retries of the HTTP client

A retry is to write the request of the first attempt once more. What of the operation is lost or
changed by a failure decides whether it does: the headers that a request takes off it, the content
type, the content length of bytes, and the body when it expires.
-/

namespace Xenon.Http.ServiceClient

open Xenon.Common Xenon.Foundation

variable {O : Type*}

/-! ## Equivalent retries -/

/-- Every retry, after whatever failures, writes the request of the first attempt. -/
def RetriesSame (client : Client O) (op : Operation O) : Prop :=
  ∀ r, (sendHttpRequest client op).2 = some r → ∀ failures op',
    Reach (retry client) (fun _ _ => True) op failures op' →
      (sendHttpRequest client op').2 = some r

/-- `Operation.fail` leaves the body as it is. -/
def survivesFail (serializers : Serializers O) : Option (Body O) → Bool
  | none => false
  | some (.text s) => serializers.hasErrorMessage s
  | some (.bytes _) => true
  | some (.object o) => serializers.isErrorResponse o

/-- The operation has nothing that a failure takes off it or sets. -/
structure KeepsRequest (serializers : Serializers O) (op : Operation O) : Prop where
  pragma : op.header "pragma" = none ∨
    (op.replicated = true ∧ op.header "pragma" = some pragmaDirectiveReplicated)
  accept : op.header "accept" = none ∨
    (op.isXenonToXenon = false ∧ op.header "accept" = some mediaTypeEverythingWildcards)
  token : op.header "x-xenon-auth-token" = none ∨ op.header "x-xenon-auth-token" = op.token
  contentType : asciiContentType (encodedType op) = some mediaTypeJson
  bytes : ∀ b, op.body = some (.bytes b) → b.length ≤ 1 ∨ op.gzip = true
  expires : (op.retriesRemaining ≤ 1 ∧ op.connectionSharing = false ∧ op.socketActive = false) ∨
    survivesFail serializers op.body = true

section Same

variable {client : Client O} {op : Operation O}

theorem lookup_filter_names (removed : List String) (name : String)
    (headers : List (String × String)) :
    (headers.filter (·.1 ∉ removed)).lookup name =
      if name ∈ removed then none else headers.lookup name := by
  induction headers with
  | nil => simp
  | cons header headers ih =>
      obtain ⟨name', value⟩ := header
      by_cases hname : name = name'
      · subst hname
        by_cases hmem : name ∈ removed
        · simpa [hmem] using ih
        · simp [hmem]
      · have hbeq : (name == name') = false := by simp [hname]
        by_cases hmem : name' ∈ removed
        · simpa [hmem, List.lookup_cons, hbeq] using ih
        · simpa [hmem, List.lookup_cons, hbeq] using ih

theorem header_removeHeaders (op : Operation O) (name : String) :
    op.removeHeaders.header name =
      if name ∈ op.removedHeaders then none else op.header name :=
  lookup_filter_names op.removedHeaders name op.requestHeaders

theorem gzip_removeHeaders (op : Operation O) : op.removeHeaders.gzip = op.gzip := by
  have hkept : "content-encoding" ∉ op.removedHeaders := by
    unfold Operation.removedHeaders
    cases op.connectionSharing <;> decide
  unfold Operation.gzip
  rw [header_removeHeaders, if_neg hkept]

theorem removeHeaders_removeHeaders (op : Operation O) :
    op.removeHeaders.removeHeaders = op.removeHeaders := by
  have hheaders : op.removeHeaders.requestHeaders.filter (·.1 ∉ op.removedHeaders) =
      op.removeHeaders.requestHeaders := by
    unfold Operation.removeHeaders
    rw [List.filter_filter]
    congr 1
    funext header
    simp
  calc op.removeHeaders.removeHeaders
      = { op.removeHeaders with requestHeaders :=
            op.removeHeaders.requestHeaders.filter (·.1 ∉ op.removedHeaders) } := rfl
    _ = op.removeHeaders := by rw [hheaders]

/-- An operation without these headers has the defaults. -/
theorem removeHeaders_defaults (op : Operation O) :
    op.removeHeaders.pragmaHeader =
        (if op.replicated then some pragmaDirectiveReplicated else none) ∧
      op.removeHeaders.acceptHeader =
        (if op.isXenonToXenon then none else some mediaTypeEverythingWildcards) ∧
      op.removeHeaders.authTokenHeader = op.token := by
  have hnone : ∀ name ∈ ["pragma", "accept", "x-xenon-auth-token"],
      op.removeHeaders.header name = none := by
    intro name hname
    rw [header_removeHeaders, if_pos]
    unfold Operation.removedHeaders
    simp only [List.mem_cons, List.not_mem_nil, or_false] at hname
    rcases hname with rfl | rfl | rfl <;> simp
  refine ⟨?_, ?_, ?_⟩
  · unfold Operation.pragmaHeader
    rw [hnone "pragma" (by simp)]
    cases hreplicated : op.replicated <;> simp [Operation.removeHeaders, hreplicated]
  · unfold Operation.acceptHeader
    rw [hnone "accept" (by simp)]
    rfl
  · unfold Operation.authTokenHeader
    rw [hnone "x-xenon-auth-token" (by simp)]
    rfl

/-- The headers that a failure loses are the defaults. -/
theorem removeHeaders_same_iff (op : Operation O) :
    (op.removeHeaders.pragmaHeader = op.pragmaHeader ∧
        op.removeHeaders.acceptHeader = op.acceptHeader ∧
        op.removeHeaders.authTokenHeader = op.authTokenHeader) ↔
      ((op.header "pragma" = none ∨
          (op.replicated = true ∧ op.header "pragma" = some pragmaDirectiveReplicated)) ∧
        (op.header "accept" = none ∨
          (op.isXenonToXenon = false ∧
            op.header "accept" = some mediaTypeEverythingWildcards)) ∧
        (op.header "x-xenon-auth-token" = none ∨
          op.header "x-xenon-auth-token" = op.token)) := by
  obtain ⟨hpragma, haccept, htoken⟩ := removeHeaders_defaults op
  rw [hpragma, haccept, htoken]
  unfold Operation.pragmaHeader Operation.acceptHeader Operation.authTokenHeader
  refine and_congr ?_ (and_congr ?_ ?_)
  · cases op.replicated <;> cases op.header "pragma" <;> simp [eq_comm]
  · cases op.isXenonToXenon <;> cases op.header "accept" <;> simp [eq_comm]
  · cases op.header "x-xenon-auth-token" <;> simp [eq_comm]

theorem asciiContentType_json : asciiContentType (some mediaTypeJson) = some mediaTypeJson := by
  decide

theorem ne_kryo {contentType : Option String}
    (h : asciiContentType contentType = some mediaTypeJson) :
    contentType ≠ some mediaTypeKryoOctetStream := by
  have hkryo : asciiContentType (some mediaTypeKryoOctetStream) ≠ some mediaTypeJson := by decide
  rintro rfl
  exact hkryo h

theorem encodedType_kryo (h : op.contentType = some mediaTypeKryoOctetStream) :
    encodedType op = some mediaTypeKryoOctetStream := by
  unfold encodedType
  split
  · rw [h]; rfl
  · rw [h]; simp
  · exact h

theorem encodedType_encodedType {op' : Operation O} (hbody : op'.body = op.body)
    (haction : op'.action = op.action) (htype : op'.contentType = encodedType op) :
    encodedType op' = encodedType op := by
  conv_lhs => unfold encodedType
  rw [hbody, haction, htype]
  unfold encodedType
  cases hb : op.body with
  | none => rfl
  | some body =>
      cases body with
      | text s => rfl
      | bytes b => rfl
      | object o =>
          by_cases hjson : op.action ≠ .get ∧ op.contentType = none
          · simp [hjson]
          · simp only [hjson, if_false]

theorem encodedType_json (h : op.contentType = some mediaTypeJson) :
    encodedType op = some mediaTypeJson := by
  unfold encodedType
  split
  · rw [h]; rfl
  · rw [h]; simp
  · exact h

/-- A content length that is not the data's own can only cut it short by a byte or more. -/
theorem take_dataLength_short {b : List UInt8} (h : b.length ≤ 1) (op : Operation O) :
    b.take (dataLength op b (.bytes b)) = b := by
  apply List.take_of_length_le
  unfold dataLength
  dsimp only
  split <;> omega

/-- The content depends on the body, on how it is encoded, and on a content length of bytes. -/
theorem content_congr {serializers : Serializers O} {op op' : Operation O}
    (hbody : op'.body = op.body) (hgzip : op'.gzip = op.gzip)
    (hkryo : op'.contentType = some mediaTypeKryoOctetStream ↔
      op.contentType = some mediaTypeKryoOctetStream)
    (hbytes : ∀ b, op.body = some (.bytes b) → b.length ≤ 1 ∨ op.gzip = true) :
    content serializers op' = content serializers op := by
  unfold content
  rw [hbody, hgzip]
  cases hb : op.body with
  | none => rfl
  | some body =>
      cases body with
      | text s => rfl
      | bytes b =>
          rcases hbytes b hb with hshort | hgzip
          · simp only [data, Option.map_some, take_dataLength_short hshort]
          · simp only [data, Option.map_some, hgzip, if_true]
      | object o => simp only [data, hkryo, dataLength]

namespace Operation

/-- The operation that is sent again after an error response with a content length. -/
def answered (op : Operation O) (contentLength : Nat) : Operation O :=
  { op.removeHeaders with
    contentType := some mediaTypeJson
    contentLength := contentLength
    socketActive := true
    retriesRemaining := op.retriesRemaining - 1 }

/-- The operation that is sent again after it expired. -/
def timedOut (serializers : Serializers O) (op : Operation O) (error : O) : Operation O :=
  { op with
    contentType := some mediaTypeJson
    body := op.failureBody serializers error
    retriesRemaining := op.retriesRemaining - 1 }

end Operation

/-- Everything a retry can do. -/
theorem retry_cases {failure : Failure O} {op' : Operation O}
    (h : retry client op failure = some op') :
    op.isRetryRequested = true ∧
      ((∃ contentLength, op' = op.answered contentLength) ∨
        (∃ error, (op.socketActive = true ∨ op.connectionSharing = true) ∧
          op' = op.timedOut client.serializers error) ∨
        op' = (sendHttpRequest client op).1.restart op.body) := by
  unfold retry at h
  split at h
  case isFalse => simp at h
  case isTrue hrequested =>
    refine ⟨hrequested, ?_⟩
    cases failure with
    | failed status contentLength =>
        left
        rcases hsend : sendHttpRequest client op with ⟨sent, _ | r⟩
        · simp [hsend] at h
        · have hwritten : (sendHttpRequest client op).2 = some r := by rw [hsend]
          obtain ⟨n, hsent⟩ := sendHttpRequest_fst hwritten
          simp only [hsend] at h hsent
          split at h
          case isFalse => simp at h
          case isTrue =>
            rw [hsent, Option.some.injEq] at h
            exact ⟨_, h.symm⟩
    | expired error =>
        right
        left
        dsimp only at h
        split at h
        case isFalse => simp at h
        case isTrue hactive =>
          rw [Option.some.injEq] at h
          exact ⟨error, hactive.1, h.symm⟩
    | threw =>
        right
        right
        exact (Option.some.inj h).symm

theorem failureBody_eq {serializers : Serializers O} (op : Operation O) (error : O)
    (h : survivesFail serializers op.body = true) :
    op.failureBody serializers error = op.body := by
  unfold Operation.failureBody
  unfold survivesFail at h
  cases hb : op.body with
  | none => simp [hb] at h
  | some body =>
      rw [hb] at h
      cases body with
      | text s => simp_all
      | bytes b => rfl
      | object o => simp_all

theorem timedOut_eq {serializers : Serializers O} (op : Operation O) (error : O)
    (h : survivesFail serializers op.body = true) :
    op.timedOut serializers error =
      { op with
        contentType := some mediaTypeJson
        retriesRemaining := op.retriesRemaining - 1 } := by
  unfold Operation.timedOut
  rw [failureBody_eq op error h]

/-- What an attempt can leave of the first operation. -/
def Later (op₀ op : Operation O) : Prop :=
  ∃ contentType contentLength headers socketActive retriesRemaining,
    op = { op₀ with
      contentType := contentType
      contentLength := contentLength
      requestHeaders := headers
      socketActive := socketActive
      retriesRemaining := retriesRemaining } ∧
    (contentType = op₀.contentType ∨ contentType = encodedType op₀ ∨
      contentType = some mediaTypeJson) ∧
    (headers = op₀.requestHeaders ∨ headers = op₀.removeHeaders.requestHeaders) ∧
    ((socketActive = op₀.socketActive ∧ retriesRemaining = op₀.retriesRemaining) ∨
      retriesRemaining < op₀.retriesRemaining)

theorem Later.refl (op : Operation O) : Later op op :=
  ⟨_, _, _, _, _, rfl, Or.inl rfl, Or.inl rfl, Or.inl ⟨rfl, rfl⟩⟩

/-- An operation that says the same without these headers is sent with the same request. -/
theorem request_removeHeaders (contentType : String) (c : List UInt8)
    (hpragma : op.removeHeaders.pragmaHeader = op.pragmaHeader)
    (haccept : op.removeHeaders.acceptHeader = op.acceptHeader)
    (htoken : op.removeHeaders.authTokenHeader = op.authTokenHeader) :
    request client op.removeHeaders contentType c = request client op contentType c := by
  have hheaders : httpHeaders client.userAgent op.removeHeaders contentType c.length =
      httpHeaders client.userAgent op contentType c.length := by
    unfold httpHeaders
    rw [hpragma, haccept, htoken, removeHeaders_removeHeaders]
    rfl
  calc request client op.removeHeaders contentType c
      = { request client op contentType c with
          headers := httpHeaders client.userAgent op.removeHeaders contentType c.length } := rfl
    _ = request client op contentType c := by rw [hheaders]; rfl

theorem Later.writes {op₀ op : Operation O} {r : Request}
    (hkeeps : KeepsRequest client.serializers op₀)
    (hr : (sendHttpRequest client op₀).2 = some r) (h : Later op₀ op) :
    (sendHttpRequest client op).2 = some r := by
  obtain ⟨c, contentType₀, hcontent, hlimit, hascii, rfl⟩ := sendHttpRequest_eq_some.mp hr
  rw [hkeeps.contentType, Option.some.injEq] at hascii
  subst hascii
  obtain ⟨hpragma, haccept, htoken⟩ :=
    (removeHeaders_same_iff op₀).mpr ⟨hkeeps.pragma, hkeeps.accept, hkeeps.token⟩
  obtain ⟨contentType, contentLength, headers, socketActive, retriesRemaining, hop, htype,
    hheaders, -⟩ := h
  have hgzip : op.gzip = op₀.gzip := by
    rcases hheaders with rfl | rfl
    · rw [hop]; rfl
    · rw [hop]; exact gzip_removeHeaders op₀
  have hkryo₀ : op₀.contentType ≠ some mediaTypeKryoOctetStream := fun hkryo =>
    ne_kryo hkeeps.contentType (encodedType_kryo hkryo)
  have hkryo : op.contentType ≠ some mediaTypeKryoOctetStream := by
    rw [hop]
    rcases htype with rfl | rfl | rfl
    · exact hkryo₀
    · exact ne_kryo hkeeps.contentType
    · exact ne_kryo asciiContentType_json
  apply sendHttpRequest_eq_some.mpr
  refine ⟨c, mediaTypeJson, ?_, hlimit, ?_, ?_⟩
  · rw [← hcontent]
    exact content_congr (by rw [hop]) hgzip (iff_of_false hkryo hkryo₀) hkeeps.bytes
  · rcases htype with rfl | rfl | rfl
    · rw [hop]; exact hkeeps.contentType
    · have hencoded : encodedType op = encodedType op₀ :=
        encodedType_encodedType (by rw [hop]) (by rw [hop]) (by rw [hop])
      rw [hencoded]
      exact hkeeps.contentType
    · rw [encodedType_json (by rw [hop])]
      exact asciiContentType_json
  · rcases hheaders with rfl | rfl
    · rw [hop]; rfl
    · rw [hop]
      exact (request_removeHeaders mediaTypeJson c hpragma haccept htoken).symm

/-- One attempt after another: a failure uses up a retry. -/
theorem Later.retry {op₀ op op' : Operation O} {failure : Failure O}
    (hexpires : (op₀.retriesRemaining ≤ 1 ∧ op₀.connectionSharing = false ∧
      op₀.socketActive = false) ∨ survivesFail client.serializers op₀.body = true)
    (h : Later op₀ op) (hretry : retry client op failure = some op') : Later op₀ op' := by
  obtain ⟨hrequested, hcases⟩ := retry_cases hretry
  obtain ⟨contentType, contentLength, headers, socketActive, retriesRemaining, rfl, htype,
    hheaders, hspent⟩ := h
  have hpositive : 0 < retriesRemaining := by
    simp only [Operation.isRetryRequested, decide_eq_true_eq] at hrequested
    exact hrequested.2
  have hless : retriesRemaining - 1 < op₀.retriesRemaining := by omega
  have hremoved : headers.filter (·.1 ∉ op₀.removedHeaders) = op₀.removeHeaders.requestHeaders := by
    rcases hheaders with rfl | rfl
    · rfl
    · exact congrArg Operation.requestHeaders (removeHeaders_removeHeaders op₀)
  rcases hcases with ⟨n, rfl⟩ | ⟨error, hactive, rfl⟩ | rfl
  · exact ⟨_, _, _, _, _, rfl, Or.inr (Or.inr rfl), Or.inr hremoved, Or.inr hless⟩
  · -- the operation was sent before, or the connection is shared
    have hsurvives : survivesFail client.serializers op₀.body = true := by
      rcases hexpires with ⟨hone, hsharing, hsocket⟩ | hsurvives
      · exfalso
        rcases hactive with hactive | hactive
        · rcases hspent with ⟨rfl, -⟩ | hspent
          · simp [hsocket] at hactive
          · omega
        · simp [hsharing] at hactive
      · exact hsurvives
    exact ⟨_, _, _, _, _, timedOut_eq _ error hsurvives, Or.inr (Or.inr rfl), hheaders,
      Or.inr hless⟩
  · obtain ⟨contentType', contentLength', headers', socketActive', hsent, htype', hheaders'⟩ :=
      sendHttpRequest_frame client { op₀ with
        contentType := contentType
        contentLength := contentLength
        requestHeaders := headers
        socketActive := socketActive
        retriesRemaining := retriesRemaining }
    rw [hsent]
    refine ⟨contentType', contentLength', headers', socketActive', retriesRemaining - 1, rfl,
      ?_, ?_, Or.inr hless⟩
    · rcases htype' with rfl | rfl
      · exact htype
      · rcases htype with rfl | rfl | rfl
        · exact Or.inr (Or.inl rfl)
        · exact Or.inr (Or.inl (encodedType_encodedType rfl rfl rfl))
        · exact Or.inr (Or.inr (encodedType_json rfl))
    · rcases hheaders' with rfl | rfl
      · exact hheaders
      · exact Or.inr hremoved

theorem KeepsRequest.retriesSame (hkeeps : KeepsRequest client.serializers op) :
    RetriesSame client op := by
  intro r hr failures op' hreach
  apply Later.writes hkeeps hr
  exact hreach.invariant (Later op) (Later.refl op)
    (fun _ hretry h => Later.retry hkeeps.expires h hretry)

/-! ## What a retry shows -/

theorem retry_answered {r : Request} (hr : (sendHttpRequest client op).2 = some r)
    (hrequested : op.isRetryRequested = true) (contentLength : Nat) :
    retry client op (.failed 400 (some contentLength)) = some (op.answered contentLength) := by
  obtain ⟨n, hsent⟩ := sendHttpRequest_fst hr
  unfold retry
  rw [if_pos hrequested]
  rcases hsend : sendHttpRequest client op with ⟨sent, _ | r'⟩
  · simp [hsend] at hr
  · have hretriable : 400 ≤ 400 ∧ isRetriable 400 = true := by decide
    rw [hsend] at hsent
    subst hsent
    dsimp only
    rw [if_pos hretriable]
    rfl

theorem retry_timedOut {error : O} (hrequested : op.isRetryRequested = true)
    (hactive : op.socketActive = true ∨ op.connectionSharing = true)
    (herror : client.serializers.isErrorResponse error = true) :
    retry client op (.expired error) = some (op.timedOut client.serializers error) := by
  unfold retry
  rw [if_pos hrequested]
  simp only [hactive, herror, and_self, if_true]
  rfl

/-- A request that an error response does not change. -/
theorem answered_same {r : Request} {contentLength : Nat}
    (hr : (sendHttpRequest client op).2 = some r)
    (hr' : (sendHttpRequest client (op.answered contentLength)).2 = some r) :
    content client.serializers (op.answered contentLength) = content client.serializers op ∧
      asciiContentType (encodedType op) = some mediaTypeJson ∧
      op.removeHeaders.pragmaHeader = op.pragmaHeader ∧
      op.removeHeaders.acceptHeader = op.acceptHeader ∧
      op.removeHeaders.authTokenHeader = op.authTokenHeader := by
  obtain ⟨c, contentType, hcontent, -, hascii, rfl⟩ := sendHttpRequest_eq_some.mp hr
  obtain ⟨c', contentType', hcontent', -, hascii', hrequest⟩ := sendHttpRequest_eq_some.mp hr'
  have hjson : contentType' = mediaTypeJson := by
    rw [encodedType_json rfl, asciiContentType_json, Option.some.injEq] at hascii'
    exact hascii'.symm
  have hc : c = c' := congrArg Request.content hrequest
  have hheaders : httpHeaders client.userAgent op contentType c.length =
      httpHeaders client.userAgent (op.answered contentLength) contentType' c'.length :=
    congrArg Request.headers hrequest
  obtain ⟨hpragma, haccept, htoken, htype⟩ := httpHeaders_injective client.userAgent hheaders
  refine ⟨?_, ?_, hpragma.symm, haccept.symm, htoken.symm⟩
  · rw [hcontent, hcontent', hc]
  · rw [hascii, htype, hjson]

theorem failureBody_object {serializers : Serializers O} (op : Operation O) (error : O)
    (h : survivesFail serializers op.body = false) :
    op.failureBody serializers error = some (.object error) := by
  unfold Operation.failureBody
  unfold survivesFail at h
  cases hb : op.body with
  | none => rfl
  | some body =>
      rw [hb] at h
      cases body with
      | text s => simp_all
      | bytes b => simp at h
      | object o => simp_all

theorem content_object {serializers : Serializers O} {o : O} (hbody : op.body = some (.object o))
    (htype : op.contentType = some mediaTypeJson) :
    content serializers op = (serializers.toJson o).map fun data =>
      if op.gzip then serializers.compressGZip data else data := by
  have hkryo : op.contentType ≠ some mediaTypeKryoOctetStream := by
    rw [htype]
    exact ne_kryo asciiContentType_json
  unfold content
  rw [hbody]
  simp only [data, hkryo, if_false, dataLength, List.take_length]

/-- Two errors are not written the same, so a body that they replace is not either. -/
theorem timedOut_same {r : Request}
    (hr : ∀ error, client.serializers.isErrorResponse error = true →
      (sendHttpRequest client (op.timedOut client.serializers error)).2 = some r) :
    survivesFail client.serializers op.body = true := by
  by_contra hlost
  rw [Bool.not_eq_true] at hlost
  obtain ⟨e, e', he, he', hne⟩ := client.serializers.errors
  have hwritten : ∀ error, client.serializers.isErrorResponse error = true →
      ((client.serializers.toJson error).map fun data =>
        if op.gzip then client.serializers.compressGZip data else data) = some r.content := by
    intro error herror
    obtain ⟨c, contentType, hcontent, -, -, rfl⟩ := sendHttpRequest_eq_some.mp (hr error herror)
    rw [content_object (failureBody_object op error hlost) rfl] at hcontent
    exact hcontent
  obtain ⟨d, hd, hdc⟩ := Option.map_eq_some_iff.mp (hwritten e he)
  obtain ⟨d', hd', hdc'⟩ := Option.map_eq_some_iff.mp (hwritten e' he')
  apply hne
  rw [hd, hd']
  by_cases hgzip : op.gzip = true
  · simp only [hgzip, if_true] at hdc hdc'
    rw [client.serializers.lossless (hdc.trans hdc'.symm)]
  · simp only [hgzip, Bool.false_eq_true, if_false] at hdc hdc'
    rw [hdc, hdc']

theorem content_bytes {serializers : Serializers O} {b : List UInt8}
    (hbody : op.body = some (.bytes b)) (hgzip : ¬ op.gzip = true) :
    content serializers op = some (b.take (dataLength op b (.bytes b))) := by
  unfold content
  rw [hbody]
  simp only [data, Option.map_some, hgzip, Bool.false_eq_true, if_false]

/-- Two bytes or more, not compressed, can be cut short in two ways. -/
theorem content_answered_ne {serializers : Serializers O} {b : List UInt8}
    (hbody : op.body = some (.bytes b)) (hlength : 2 ≤ b.length) (hgzip : ¬ op.gzip = true) :
    ∃ contentLength,
      content serializers (op.answered contentLength) ≠ content serializers op := by
  have hanswered : ∀ n, 1 ≤ n → n ≤ 2 →
      content serializers (op.answered n) = some (b.take n) := by
    intro n hpos hle
    have hbody' : (op.answered n).body = some (.bytes b) := hbody
    have hgzip' : ¬ (op.answered n).gzip = true := by
      rw [← gzip_removeHeaders op] at hgzip
      exact hgzip
    have hn : dataLength (op.answered n) b (.bytes b) = n := if_neg (by
      change ¬ (n = 0 ∨ n > b.length)
      omega)
    rw [content_bytes hbody' hgzip', hn]
  have hle : dataLength op b (.bytes b) ≤ b.length := dataLength_le b (.bytes b)
  rw [content_bytes hbody hgzip]
  by_cases hone : dataLength op b (.bytes b) = 1
  · refine ⟨2, ?_⟩
    rw [hanswered 2 (by omega) (by omega), hone]
    intro heq
    have := congrArg List.length (Option.some.inj heq)
    simp only [List.length_take] at this
    omega
  · refine ⟨1, ?_⟩
    rw [hanswered 1 (by omega) (by omega)]
    intro heq
    have := congrArg List.length (Option.some.inj heq)
    simp only [List.length_take] at this
    omega

theorem KeepsRequest.of_retriesSame (h : RetriesSame client op) (hsend : Sendable client op)
    (hrequested : op.isRetryRequested = true) : KeepsRequest client.serializers op := by
  obtain ⟨r, hr⟩ := sendable_iff.mp hsend
  have hanswered : ∀ n, (sendHttpRequest client (op.answered n)).2 = some r := by
    intro n
    exact h r hr _ _ (Reach.refl.snoc trivial (retry_answered hr hrequested n))
  obtain ⟨-, htype, hheaders⟩ := answered_same hr (hanswered 0)
  obtain ⟨hpragma, haccept, htoken⟩ := (removeHeaders_same_iff op).mp hheaders
  refine ⟨hpragma, haccept, htoken, htype, ?_, ?_⟩
  · intro b hbody
    by_contra hshort
    push Not at hshort
    obtain ⟨n, hne⟩ := content_answered_ne hbody hshort.1 hshort.2
    exact hne (answered_same hr (hanswered n)).1
  · have hactive : op.socketActive = true ∨ op.connectionSharing = true →
        survivesFail client.serializers op.body = true := by
      intro hactive
      apply timedOut_same
      intro error herror
      exact h r hr _ _ (Reach.refl.snoc trivial (retry_timedOut hrequested hactive herror))
    have htwice : 2 ≤ op.retriesRemaining → survivesFail client.serializers op.body = true := by
      intro htwo
      change survivesFail client.serializers (op.answered 0).body = true
      apply timedOut_same
      intro error herror
      have hrequested' : (op.answered 0).isRetryRequested = true := by
        simp only [Operation.isRetryRequested, decide_eq_true_eq] at hrequested ⊢
        refine ⟨hrequested.1, ?_⟩
        change 0 < op.retriesRemaining - 1
        omega
      exact h r hr _ _ ((Reach.refl.snoc trivial (retry_answered hr hrequested 0)).snoc trivial
        (retry_timedOut hrequested' (Or.inl rfl) herror))
    by_cases hsurvives : survivesFail client.serializers op.body = true
    · exact Or.inr hsurvives
    · left
      refine ⟨?_, ?_, ?_⟩
      · by_contra hmore
        exact hsurvives (htwice (by omega))
      · by_contra hsharing
        exact hsurvives (hactive (Or.inr (by simpa using hsharing)))
      · by_contra hsocket
        exact hsurvives (hactive (Or.inl (by simpa using hsocket)))

/-- Retries are equivalent exactly for an operation that nothing is sent for, that is not retried,
or that has nothing that a failure takes off it or sets. -/
theorem retries_same_iff (client : Client O) (op : Operation O) :
    RetriesSame client op ↔
      ¬ Sendable client op ∨ op.retryCount = 0 ∨ op.retriesRemaining = 0 ∨
        KeepsRequest client.serializers op := by
  have hrequested : op.isRetryRequested = true ↔ 0 < op.retryCount ∧ 0 < op.retriesRemaining := by
    simp only [Operation.isRetryRequested, decide_eq_true_eq]
  constructor
  · intro h
    by_cases hsend : Sendable client op
    · by_cases hretried : op.isRetryRequested = true
      · exact Or.inr (Or.inr (Or.inr (KeepsRequest.of_retriesSame h hsend hretried)))
      · rw [hrequested] at hretried
        omega
    · exact Or.inl hsend
  · have hnever : ¬ op.isRetryRequested = true → RetriesSame client op := by
      intro hretried r hr failures op' hreach
      have hsame : op' = op := by
        apply hreach.invariant (fun op' => op' = op) rfl
        rintro _ _ _ - hretry rfl
        exact absurd (retry_cases hretry).1 hretried
      rw [hsame]
      exact hr
    rintro (hsend | hcount | hremaining | hkeeps)
    · intro r hr
      exact absurd (sendable_iff.mpr ⟨r, hr⟩) hsend
    · exact hnever (by rw [hrequested]; omega)
    · exact hnever (by rw [hrequested]; omega)
    · exact hkeeps.retriesSame

end Same

/-! ## A directive that is sent once -/

namespace NoForwarding

/-- Two errors, one text for each. -/
def serializers : Serializers Bool where
  toJson o := some [if o then 49 else 48]
  serializeAsDocument o := some [if o then 1 else 0]
  compressGZip data := 31 :: 139 :: data
  isErrorResponse _ := true
  hasErrorMessage _ := false
  lossless := by
    intro data data' h
    simpa using h
  errors := ⟨true, false, rfl, rfl, by decide⟩

def client : Client Bool where
  serializers := serializers
  httpProxy := false
  userAgent := "xenon"
  requestPayloadSizeLimit := 1024

/-- A read of one document that must not be forwarded, retried once. -/
def operation : Operation Bool where
  action := .get
  uri := ⟨"http://host:8000/a", "host", some "/a", none, none⟩
  referer := none
  body := none
  contentType := some mediaTypeJson
  contentLength := 0
  requestHeaders := [("pragma", "xn-no-fwd")]
  cookies := none
  token := none
  transactionId := none
  contextId := none
  retryCount := 1
  retriesRemaining := 1
  replicated := false
  forwarded := false
  connectionSharing := false
  socketActive := false

/-- The first request has the directive, the second one does not. -/
theorem directive_lost : ¬ RetriesSame client operation := by
  intro h
  have hwritten : (sendHttpRequest client operation).2 =
      some (request client operation mediaTypeJson []) :=
    sendHttpRequest_eq_some.mpr
      ⟨[], mediaTypeJson, rfl, Nat.zero_le _, asciiContentType_json, rfl⟩
  have hretry : retry client operation (.failed 400 (some 0)) = some (operation.answered 0) :=
    retry_answered hwritten (by decide) 0
  have hsame := h _ hwritten _ _ (Reach.refl.snoc trivial hretry)
  obtain ⟨-, -, hpragma, -, -⟩ := answered_same hwritten hsame
  revert hpragma
  decide

end NoForwarding

end Xenon.Http.ServiceClient
