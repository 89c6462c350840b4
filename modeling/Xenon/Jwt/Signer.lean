import Xenon.Foundation.Base64
import Xenon.Foundation.Text
import Xenon.Foundation.Utf8

/-!
# Signed tokens

`com.vmware.xenon.common.jwt`: what a token is made of, and `Signer`. A token is three segments with
dots between them: the header, the claims and the signature of both. Base64, Gson and the message
authentication codes are the platform's.
-/

namespace Xenon.Jwt

open Foundation Foundation.Text Foundation.Utf8

structure Header where
  type : Option (List Char) := none
  algorithm : Option (List Char) := none
  contentType : Option (List Char) := none
deriving DecidableEq

inductive Algorithm where
  | hs256
  | hs384
  | hs512
deriving DecidableEq

/-- `name()`. -/
def Algorithm.name : Algorithm → List Char
  | .hs256 => "HS256".toList
  | .hs384 => "HS384".toList
  | .hs512 => "HS512".toList

/-- `fromString`: none of `null`, or an `UnknownAlgorithmException` with its message. -/
def Algorithm.fromString : Option (List Char) → Except (List Char) (Option Algorithm)
  | none => .ok none
  | some name =>
      if name = "HS256".toList then .ok (some .hs256)
      else if name = "HS384".toList then .ok (some .hs384)
      else if name = "HS512".toList then .ok (some .hs512)
      else .error ("Unknown algorithm: ".toList ++ name)

def defaultAlgorithm : Algorithm := .hs256
def jwtType : List Char := "JWT".toList
def jwtSeparator : Char := '.'

/-- The header that `sign` writes. -/
def headerOf (algorithm : Algorithm) : Header :=
  { type := some jwtType, algorithm := some algorithm.name }

/-- Gson, for one class: a text is `null`, an object, or the message of a
`JsonSyntaxException`. What is written is read, for the objects that are written. -/
structure Gson (α : Type*) (written : α → Prop) where
  toJson : α → List Char
  fromJson : List Char → Except (List Char) (Option α)
  fromJson_nil : fromJson [] = .ok none
  fromJson_toJson : ∀ {a}, written a → fromJson (toJson a) = .ok (some a)

/-- What the tokens use of the platform, for claims of a class `T`. -/
structure Platform (T : Type*) where
  /-- `Base64.getUrlEncoder().withoutPadding()`. -/
  encoder : List UInt8 → List UInt8
  /-- `Base64.getUrlDecoder()`, none being an `IllegalArgumentException`. -/
  decoder : List UInt8 → Option (List UInt8)
  /-- `new String(bytes, UTF_8)`. -/
  newString : List UInt8 → List Char
  headers : Gson Header fun h => ∃ algorithm, h = headerOf algorithm
  claims : Gson T fun _ => True
  /-- `Mac.doFinal` after `Mac.init`, with the secret and the payload. -/
  mac : Algorithm → List UInt8 → List UInt8 → List UInt8
  decoder_encoder : ∀ bytes, decoder (encoder bytes) = some bytes
  encoder_nil : encoder [] = []
  alphabet : ∀ {bytes b}, b ∈ encoder bytes → Base64.inAlphabet b
  newString_getBytes : ∀ s, newString (getBytes s) = s

/-- How a call fails: with the exceptions that are declared, and with others. -/
inductive Failure where
  | invalidToken (message : List Char)
  | invalidSignature (message : List Char)
  | illegalArgument
  | nullPointer
deriving DecidableEq

/-- A `TokenException` or a `GeneralSecurityException`. -/
def Failure.declared : Failure → Bool
  | .invalidToken _ | .invalidSignature _ => true
  | .illegalArgument | .nullPointer => false

variable {T : Type*} (p : Platform T) (secret : List UInt8)

/-- `Algorithm.sign`. There is no `SecretKeySpec` without a key. -/
def Algorithm.sign (algorithm : Algorithm) (payload : List UInt8) :
    Except Failure (List UInt8) :=
  if secret.isEmpty then .error .illegalArgument else .ok (p.mac algorithm secret payload)

namespace Signer

/-- `encode(byte[])`. -/
def encode (payload : List UInt8) : List Char := p.newString (p.encoder payload)

/-- The two first segments. -/
def bytesToSign (claims : T) (algorithm : Algorithm) : List Char :=
  encode p (getBytes (p.headers.toJson (headerOf algorithm))) ++
    jwtSeparator :: encode p (getBytes (p.claims.toJson claims))

def sign (claims : T) (algorithm : Option Algorithm) : Except Failure (List Char) :=
  let algorithm := algorithm.getD defaultAlgorithm
  let builder := bytesToSign p claims algorithm
  (algorithm.sign p secret (getBytes builder)).map fun signature =>
    builder ++ jwtSeparator :: encode p signature

end Signer

/-! ## Segments -/

section Segments

variable {p} {secret}

/-- A segment is the characters of its encoding. -/
theorem getBytes_encode (bytes : List UInt8) : getBytes (Signer.encode p bytes) = p.encoder bytes := by
  have hascii : ∀ b ∈ p.encoder bytes, b.toNat < 128 := fun b hb => by
    have := p.alphabet hb
    unfold Base64.inAlphabet at this
    omega
  unfold Signer.encode
  rw [← getBytes_map_ofNat hascii, p.newString_getBytes]

theorem not_mem_encode (bytes : List UInt8) : jwtSeparator ∉ Signer.encode p bytes := by
  intro h
  have hbyte : 46 ∈ getBytes (Signer.encode p bytes) :=
    List.mem_flatMap.mpr ⟨jwtSeparator, h, by decide⟩
  rw [getBytes_encode] at hbyte
  exact absurd (p.alphabet hbyte) (by decide)

theorem encode_json_ne_nil (p : Platform T) {α : Type*} {written : α → Prop} (gson : Gson α written)
    (a : α) (ha : written a) : Signer.encode p (getBytes (gson.toJson a)) ≠ [] := by
  intro h
  -- the decoder gives the text back, and the empty text is `null`
  have hbytes := p.decoder_encoder (getBytes (gson.toJson a))
  rw [← getBytes_encode, h, show getBytes [] = p.encoder [] from p.encoder_nil.symm,
    p.decoder_encoder] at hbytes
  have hjson : gson.toJson a = [] := by
    by_contra hne
    exact getBytes_ne_nil hne (Option.some.inj hbytes).symm
  have hread := gson.fromJson_toJson ha
  rw [hjson, gson.fromJson_nil] at hread
  cases hread

end Segments

end Xenon.Jwt
