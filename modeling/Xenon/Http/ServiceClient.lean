import Mathlib.Data.List.Basic
import Xenon.Common.Operation

/-!
# The HTTP client

`sendHttpRequest` builds a request from an operation: it encodes the body, takes some headers off
the operation, and adds those that the operation's fields stand for. A failure may send the
operation again, after a delay: its body and its status code are then put back, nothing else.

A header is removed from the operation when it is read, the content type of a failed operation is
the one of an error response, and its content length is the response's.
-/

namespace Xenon.Http.ServiceClient

open Xenon.Common

variable {O : Type*}

/-! ## Operations -/

/-- The classes that `encodeBody` tells apart. -/
inductive Body (O : Type*) where
  | text (s : String)
  | bytes (b : List UInt8)
  | object (o : O)

/-- Gson, Kryo and GZIP. Compression is lossless, and there are error responses with different
texts. -/
structure Serializers (O : Type*) where
  toJson : O → Option (List UInt8)
  serializeAsDocument : O → Option (List UInt8)
  compressGZip : List UInt8 → List UInt8
  /-- The object is a `ServiceErrorResponse`. -/
  isErrorResponse : O → Bool
  /-- The text is a `ServiceErrorResponse` with a message. -/
  hasErrorMessage : String → Bool
  lossless : Function.Injective compressGZip
  errors : ∃ e e', isErrorResponse e = true ∧ isErrorResponse e' = true ∧ toJson e ≠ toJson e'

/-- `java.net.URI`, and the text of it. -/
structure Target where
  text : String
  host : String
  path : Option String
  rawQuery : Option String
  rawUserInfo : Option String

structure Operation (O : Type*) where
  action : Action
  uri : Target
  referer : Option String
  body : Option (Body O)
  contentType : Option String
  contentLength : Nat
  /-- A map, in the order in which it is enumerated. The names are in lower case. -/
  requestHeaders : List (String × String)
  /-- The cookies, encoded. -/
  cookies : Option String
  /-- `getAuthorizationContext().getToken()`. -/
  token : Option String
  transactionId : Option String
  contextId : Option String
  retryCount : Nat
  retriesRemaining : Nat
  -- the options
  replicated : Bool
  forwarded : Bool
  connectionSharing : Bool
  socketActive : Bool

/-- A client, with what it adds to each request. -/
structure Client (O : Type*) where
  serializers : Serializers O
  httpProxy : Bool
  userAgent : String
  requestPayloadSizeLimit : Nat

/-- What is written to the channel, but for the headers that manage the connection. -/
structure Request where
  method : Action
  uri : String
  headers : List (String × String)
  content : List UInt8
deriving DecidableEq

def mediaTypeJson : String := "application/json"
def mediaTypeKryoOctetStream : String := "application/kryo-octet-stream"
def mediaTypeOctetStream : String := "application/octet-stream"
def mediaTypeEverythingWildcards : String := "*/*"
def pragmaDirectiveReplicated : String := "xn-rpl"

/-! ## `Utils.encodeBody` -/

/-- `removeString(value, CR_LF)`. -/
def removeCrLf : List Char → List Char
  | '\r' :: '\n' :: cs => removeCrLf cs
  | c :: cs => c :: removeCrLf cs
  | [] => []

/-- `String.trim`. -/
def trim (cs : List Char) : List Char :=
  ((cs.dropWhile (·.toNat ≤ 32)).reverse.dropWhile (·.toNat ≤ 32)).reverse

namespace Operation

def header (op : Operation O) (name : String) : Option String :=
  op.requestHeaders.lookup name

/-- The content encoding of the request is `gzip`. -/
def gzip (op : Operation O) : Bool :=
  (op.header "content-encoding").map (fun value => removeCrLf (trim value.toList)) =
    some "gzip".toList

end Operation

/-- The bytes of a body, before they are compressed. -/
def encodeData (serializers : Serializers O) (op : Operation O) :
    Body O → Option (Operation O × List UInt8)
  | .text s =>
      let data := s.toUTF8.toList
      some ({ op with contentLength := data.length }, data)
  | .bytes data =>
      let op := if op.contentType = none then { op with contentType := some mediaTypeOctetStream }
        else op
      some (if op.contentLength = 0 ∨ op.contentLength > data.length then
        { op with contentLength := data.length } else op, data)
  | .object o =>
      if op.contentType = some mediaTypeKryoOctetStream then
        (serializers.serializeAsDocument o).map fun data =>
          ({ op with contentLength := data.length }, data)
      else
        (serializers.toJson o).map fun data =>
          let op := if op.action ≠ .get ∧ op.contentType = none then
            { op with contentType := some mediaTypeJson } else op
          ({ op with contentLength := data.length }, data)

/-- The data is compressed if the operation says so. -/
def encodeGZip (serializers : Serializers O) (op : Operation O) (data : List UInt8) :
    Operation O × List UInt8 :=
  if op.gzip then
    ({ op with contentLength := (serializers.compressGZip data).length },
      serializers.compressGZip data)
  else (op, data)

/-- The operation afterwards, and the encoded body; none if a serializer throws. -/
def encodeBody (serializers : Serializers O) (op : Operation O) :
    Option (Operation O × Option (List UInt8)) :=
  match op.body with
  | none => some ({ op with contentLength := 0 }, none)
  | some body =>
      (encodeData serializers op body).map fun (op, data) =>
        ((encodeGZip serializers op data).1, some (encodeGZip serializers op data).2)

/-! ## `sendHttpRequest` -/

/-- `String.hashCode`. -/
def hashCode (s : String) : Nat :=
  s.toList.foldl (fun h c => (31 * h + c.toNat) % 2 ^ 32) 0

/-- `setAsciiContentType`. It throws if there is no content type, and on one of twelve characters,
because it reads the one after them. -/
def asciiContentType (contentType : Option String) : Option String :=
  contentType.bind fun s =>
    if s.length < 12 then some s
    else
      s.toList[12]?.map fun c =>
        if c = 'k' ∧ hashCode mediaTypeKryoOctetStream = hashCode s then mediaTypeKryoOctetStream
        else if c = 'j' ∧ hashCode mediaTypeJson = hashCode s then mediaTypeJson
        else s

namespace Operation

/-- The headers that `sendHttpRequest` takes off the operation. -/
def removedHeaders (op : Operation O) : List String :=
  (if op.connectionSharing then ["x-http2-stream-id"] else []) ++
    ["pragma", "accept", "x-xenon-auth-token", "content-length", "content-type", "connection",
      "referer", "host", "user-agent"]

def removeHeaders (op : Operation O) : Operation O :=
  { op with requestHeaders := op.requestHeaders.filter (·.1 ∉ op.removedHeaders) }

def isXenonToXenon (op : Operation O) : Bool :=
  op.replicated || op.forwarded

/-- The directives of the operation; a replicated operation has one of its own. -/
def pragmaHeader (op : Operation O) : Option String :=
  if op.replicated ∧ op.header "pragma" = none then some pragmaDirectiveReplicated
  else op.header "pragma"

def acceptHeader (op : Operation O) : Option String :=
  if op.isXenonToXenon then op.header "accept"
  else some ((op.header "accept").getD mediaTypeEverythingWildcards)

def authTokenHeader (op : Operation O) : Option String :=
  (op.header "x-xenon-auth-token").or op.token

def pathAndQuery (httpProxy : Bool) (op : Operation O) : String :=
  if httpProxy ∨ op.connectionSharing ∨ op.uri.rawUserInfo ≠ none then op.uri.text
  else
    let path := match op.uri.path with
      | none => "/"
      | some path => if path = "" then "/" else path
    match op.uri.rawQuery with
    | none => path
    | some query => path ++ "?" ++ query

end Operation

/-- `httpHeaders.add`, if there is a value. -/
def add (name : String) (value : Option String) : List (String × String) :=
  value.toList.map (name, ·)

/-- `httpHeaders.set`. -/
def set (headers : List (String × String)) (name value : String) : List (String × String) :=
  headers.filter (·.1 ≠ name) ++ [(name, value)]

/-- The headers of the request for an operation with some content type and length. -/
def httpHeaders (userAgent : String) (op : Operation O) (contentType : String)
    (contentLength : Nat) : List (String × String) :=
  let headers := add "pragma" op.pragmaHeader ++ add "x-xenon-tx-id" op.transactionId ++
    add "x-xenon-ctx-id" op.contextId ++ op.removeHeaders.requestHeaders ++
    add "x-xenon-auth-token" op.authTokenHeader ++ [("content-type", contentType)] ++
    [("content-length", toString contentLength)] ++
    add "referer" (if op.replicated then none else op.referer)
  if op.isXenonToXenon then headers ++ add "accept" op.acceptHeader
  else
    let headers := match op.cookies with
      | none => headers
      | some cookies => set headers "cookie" cookies
    set headers "user-agent" userAgent ++ add "accept" op.acceptHeader ++ [("host", op.uri.host)]

/-- The operation afterwards, and the request that is written; none if the body is too large or
something throws. -/
def sendHttpRequest (client : Client O) (op : Operation O) : Operation O × Option Request :=
  match encodeBody client.serializers op with
  | none => (op, none)
  | some (op, data) =>
      if op.contentLength > client.requestPayloadSizeLimit then (op, none)
      else
        match asciiContentType op.contentType with
        | none => (op.removeHeaders, none)
        | some contentType =>
            ({ op.removeHeaders with socketActive := true },
              some
                { method := op.action
                  uri := op.pathAndQuery client.httpProxy
                  headers := httpHeaders client.userAgent op contentType op.contentLength
                  content := (data.getD []).take op.contentLength })

/-! ## `fail` -/

inductive Failure (O : Type*) where
  /-- The request is answered with an error, or not at all: `Operation.fail`. A response sets the
  content length. -/
  | failed (status : Nat) (contentLength : Option Nat)
  /-- The operation expires while it waits for a connection; the error response is made then. -/
  | expired (error : O)
  /-- `sendHttpRequest` throws. -/
  | threw

/-- A failure with the status may be retried. -/
def isRetriable (status : Nat) : Bool :=
  status < 500 ∧ status ≠ 409 ∧ status ≠ 401 ∧ status ≠ 404 ∧ status ≠ 403

namespace Operation

/-- `getRetryCount() > 0 && decrementRetriesRemaining() >= 0`. -/
def isRetryRequested (op : Operation O) : Bool :=
  0 < op.retryCount ∧ 0 < op.retriesRemaining

/-- The body is put back, and the operation sent again. -/
def restart (op : Operation O) (originalBody : Option (Body O)) : Operation O :=
  { op with body := originalBody, retriesRemaining := op.retriesRemaining - 1 }

/-- `Operation.fail` leaves a body that can be an error response. -/
def failureBody (serializers : Serializers O) (op : Operation O) (error : O) : Option (Body O) :=
  match op.body with
  | some (.text s) => some (if serializers.hasErrorMessage s then .text s else .object error)
  | some (.bytes b) => some (.bytes b)
  | some (.object o) => some (.object (if serializers.isErrorResponse o then o else error))
  | none => some (.object error)

end Operation

/-- The operation that is sent again after a failure; none if the failure cannot occur, or is not
retried. -/
def retry (client : Client O) (op : Operation O) (failure : Failure O) : Option (Operation O) :=
  if op.isRetryRequested then
    match failure with
    | .failed status contentLength =>
        match sendHttpRequest client op with
        | (_, none) => none
        | (sent, some _) =>
            -- below 400, `Operation.fail` sets a status that is not retried
            if 400 ≤ status ∧ isRetriable status then
              some (Operation.restart { sent with
                contentType := some mediaTypeJson
                contentLength := contentLength.getD sent.contentLength } op.body)
            else none
    | .expired error =>
        -- the body is read after `Operation.fail`
        if (op.socketActive ∨ op.connectionSharing) ∧ client.serializers.isErrorResponse error then
          some (Operation.restart { op with contentType := some mediaTypeJson }
            (op.failureBody client.serializers error))
        else none
    | .threw => some ((sendHttpRequest client op).1.restart op.body)
  else none

end Xenon.Http.ServiceClient
