import Xenon.Jwt.Signer

/-!
# Verifying tokens

`com.vmware.xenon.common.jwt.Verifier`. A token is cut at its first two dots, its header names the
algorithm of the signature, and the claims are read after the signature has been compared. Malformed
JSON is reported as an invalid token, malformed Base64 is not.
-/

namespace Xenon.Jwt.Verifier

open Foundation Foundation.Text
open Foundation.Utf8 (getBytes decode_getBytes)

variable {T : Type*} (p : Platform T) (secret : List UInt8)

/-- The parts of a token: its segments, and what the signature is of. -/
structure Segments where
  encodedHeader : List Char
  encodedPayload : List Char
  encodedSignature : List Char
  signed : List Char
deriving DecidableEq

def segments (jwt : List Char) : Except Failure Segments :=
  match indexOf jwt [jwtSeparator] 0 with
  | none | some 0 => .error (.invalidToken "Separator for header not found".toList)
  | some headerIndex =>
      match indexOf jwt [jwtSeparator] (headerIndex + 1) with
      | none => .error (.invalidToken "Separator for payload not found".toList)
      | some payloadIndex =>
          if payloadIndex = headerIndex + 1 then
            .error (.invalidToken "Separator for payload not found".toList)
          else
            .ok {
              encodedHeader := jwt.take headerIndex
              encodedPayload := (jwt.drop (headerIndex + 1)).take (payloadIndex - (headerIndex + 1))
              encodedSignature := jwt.drop (payloadIndex + 1)
              signed := jwt.take payloadIndex }

/-- `decode(String)`. -/
def decode (payload : List Char) : Except Failure (List UInt8) :=
  match p.decoder (getBytes payload) with
  | none => .error .illegalArgument
  | some bytes => .ok bytes

/-- `decode(String, Class)`, with a `JsonSyntaxException` caught. -/
def decodeJson {α : Type*} {written : α → Prop} (gson : Gson α written) (format payload : List Char) :
    Except Failure (Option α) :=
  (decode p payload).bind fun bytes =>
    match gson.fromJson (p.newString bytes) with
    | .error message => .error (.invalidToken (format ++ message))
    | .ok a => .ok a

/-- The algorithm of a header, which may be `null`. -/
def algorithmOf : Option Header → Except Failure (Option Algorithm)
  | none => .error (.invalidToken "Invalid header: null".toList)
  | some header =>
      match header.type with
      | none => .error (.invalidToken "Invalid header: no type".toList)
      | some type =>
          if type ≠ jwtType then .error (.invalidToken ("Header type: ".toList ++ type))
          else
            match Algorithm.fromString header.algorithm with
            | .error message => .error (.invalidToken message)
            | .ok algorithm => .ok algorithm

/-- Whether the signature is that of the two first segments. -/
def checkSignature (s : Segments) : Option Algorithm → Except Failure Unit
  | none => .error .nullPointer
  | some algorithm =>
      (Algorithm.sign p secret algorithm (getBytes s.signed)).bind fun expectedSignature =>
        (decode p s.encodedSignature).bind fun actualSignature =>
          if expectedSignature = actualSignature then .ok ()
          else .error (.invalidSignature "Signature does not match".toList)

/-- The claims. -/
def payloadOf (s : Segments) : Except Failure T :=
  (decodeJson p p.claims "Invalid payload JSON: ".toList s.encodedPayload).bind fun
    | none => .error (.invalidToken "Invalid payload: null".toList)
    | some payload => .ok payload

/-- `verify`, after the token has been cut. -/
def verifySegments (s : Segments) : Except Failure T :=
  (decodeJson p p.headers "Invalid header JSON: ".toList s.encodedHeader).bind fun header =>
    (algorithmOf header).bind fun algorithm =>
      (checkSignature p secret s algorithm).bind fun _ => payloadOf p s

def verify (jwt : List Char) : Except Failure T := (segments jwt).bind (verifySegments p secret)

/-! ## What a call may answer -/

/-- The signature segment is the signature of the segments before it, by the algorithm that the
header names. -/
def Signed (s : Segments) : Prop :=
  ∃ (bytes : List UInt8) (header : Header) (algorithm : Algorithm),
    p.decoder (getBytes s.encodedHeader) = some bytes ∧
      p.headers.fromJson (p.newString bytes) = .ok (some header) ∧
      Algorithm.fromString header.algorithm = .ok (some algorithm) ∧
      p.decoder (getBytes s.encodedSignature) =
        some (p.mac algorithm secret (getBytes s.signed))

/-- Claims of a signed token, or an exception that is declared. -/
def SoundAnswer (s : Segments) : Except Failure T → Prop
  | .ok _ => Signed p secret s
  | .error failure => failure.declared = true

def Sound (jwt : List Char) : Prop :=
  match verify p secret jwt with
  | .ok _ => ∃ s, segments jwt = .ok s ∧ Signed p secret s
  | .error failure => failure.declared = true

/-- There is a key, and what is decoded of the signature and the claims is Base64. -/
def KeyedBy (s : Segments) (algorithm : Algorithm) : Prop :=
  secret ≠ [] ∧
    ∃ signature, p.decoder (getBytes s.encodedSignature) = some signature ∧
      (signature = p.mac algorithm secret (getBytes s.signed) →
        ∃ payload, p.decoder (getBytes s.encodedPayload) = some payload)

/-- The header is Base64; if it is that of a token, it names an algorithm. -/
def Decodable (s : Segments) : Prop :=
  ∃ bytes, p.decoder (getBytes s.encodedHeader) = some bytes ∧
    ∀ header, p.headers.fromJson (p.newString bytes) = .ok (some header) →
      header.type = some jwtType →
        header.algorithm ≠ none ∧
          ∀ algorithm, Algorithm.fromString header.algorithm = .ok (some algorithm) →
            KeyedBy p secret s algorithm

section Answers

variable {p} {secret} {s : Segments} {jwt : List Char} {failure : Failure} {claims : T}

theorem decodeJson_spec {α : Type*} {written : α → Prop} (gson : Gson α written)
    (format payload : List Char) :
    (p.decoder (getBytes payload) = none ∧
        decodeJson p gson format payload = .error .illegalArgument) ∨
      ∃ bytes, p.decoder (getBytes payload) = some bytes ∧
        ((∃ message message', gson.fromJson (p.newString bytes) = .error message ∧
            decodeJson p gson format payload = .error (.invalidToken message')) ∨
          ∃ a, gson.fromJson (p.newString bytes) = .ok a ∧
            decodeJson p gson format payload = .ok a) := by
  unfold decodeJson decode
  cases p.decoder (getBytes payload) with
  | none => exact Or.inl ⟨rfl, rfl⟩
  | some bytes =>
      refine Or.inr ⟨bytes, rfl, ?_⟩
      simp only [Except.bind]
      cases gson.fromJson (p.newString bytes) with
      | error message => exact Or.inl ⟨message, _, rfl, rfl⟩
      | ok a => exact Or.inr ⟨a, rfl, rfl⟩

/-- A header of a token passes if its algorithm is known, or absent. -/
theorem algorithmOf_spec (header : Option Header) :
    ((∃ message, algorithmOf header = .error (.invalidToken message)) ∧
        ∀ h, header = some h → h.type = some jwtType →
          ∃ message, Algorithm.fromString h.algorithm = .error message) ∨
      ∃ h, header = some h ∧ h.type = some jwtType ∧
        ∃ algorithm, Algorithm.fromString h.algorithm = .ok algorithm ∧
          algorithmOf header = .ok algorithm := by
  cases header with
  | none => exact Or.inl ⟨⟨_, rfl⟩, nofun⟩
  | some h =>
      unfold algorithmOf
      dsimp only
      cases htype : h.type with
      | none =>
          refine Or.inl ⟨⟨_, rfl⟩, fun h' heq htype' => ?_⟩
          cases heq
          rw [htype] at htype'
          cases htype'
      | some type =>
          by_cases hjwt : type = jwtType
          · subst hjwt
            simp only [ne_eq, not_true, if_false]
            cases halgorithm : Algorithm.fromString h.algorithm with
            | error message =>
                refine Or.inl ⟨⟨_, rfl⟩, fun h' heq _ => ?_⟩
                cases heq
                exact ⟨message, halgorithm⟩
            | ok algorithm => exact Or.inr ⟨h, rfl, htype, algorithm, halgorithm, rfl⟩
          · simp only [ne_eq, hjwt, not_false_iff, if_true]
            refine Or.inl ⟨⟨_, rfl⟩, fun h' heq htype' => ?_⟩
            cases heq
            rw [htype] at htype'
            exact absurd (Option.some.inj htype') hjwt

theorem checkSignature_spec (s : Segments) (algorithm : Algorithm) :
    (secret = [] ∧ checkSignature p secret s (some algorithm) = .error .illegalArgument) ∨
      (secret ≠ [] ∧ p.decoder (getBytes s.encodedSignature) = none ∧
        checkSignature p secret s (some algorithm) = .error .illegalArgument) ∨
      ∃ signature, secret ≠ [] ∧ p.decoder (getBytes s.encodedSignature) = some signature ∧
        ((signature ≠ p.mac algorithm secret (getBytes s.signed) ∧
            ∃ message, checkSignature p secret s (some algorithm) =
              .error (.invalidSignature message)) ∨
          (signature = p.mac algorithm secret (getBytes s.signed) ∧
            checkSignature p secret s (some algorithm) = .ok ())) := by
  unfold checkSignature Algorithm.sign decode
  dsimp only
  by_cases hsecret : secret = []
  · refine Or.inl ⟨hsecret, ?_⟩
    rw [if_pos (by simpa using hsecret)]
    rfl
  · rw [if_neg (by simpa using hsecret)]
    cases p.decoder (getBytes s.encodedSignature) with
    | none => exact Or.inr (Or.inl ⟨hsecret, rfl, rfl⟩)
    | some signature =>
        refine Or.inr (Or.inr ⟨signature, hsecret, rfl, ?_⟩)
        simp only [Except.bind]
        by_cases heq : p.mac algorithm secret (getBytes s.signed) = signature
        · rw [if_pos heq]
          exact Or.inr ⟨heq.symm, rfl⟩
        · rw [if_neg heq]
          exact Or.inl ⟨Ne.symm heq, _, rfl⟩

theorem payloadOf_spec (s : Segments) :
    (p.decoder (getBytes s.encodedPayload) = none ∧
        payloadOf p s = .error .illegalArgument) ∨
      ∃ payload, p.decoder (getBytes s.encodedPayload) = some payload ∧
        ((∃ message, payloadOf p s = .error (.invalidToken message)) ∨
          ∃ claims, payloadOf p s = .ok claims) := by
  unfold payloadOf
  rcases decodeJson_spec p.claims "Invalid payload JSON: ".toList s.encodedPayload with
    ⟨hnone, hread⟩ | ⟨payload, hsome, ⟨-, message, -, hread⟩ | ⟨o, -, hread⟩⟩
  · exact Or.inl ⟨hnone, by rw [hread]; rfl⟩
  · exact Or.inr ⟨payload, hsome, Or.inl ⟨message, by rw [hread]; rfl⟩⟩
  · refine Or.inr ⟨payload, hsome, ?_⟩
    rw [hread]
    cases o with
    | none => exact Or.inl ⟨_, rfl⟩
    | some claims => exact Or.inr ⟨claims, rfl⟩

theorem fromString_eq_none {name : Option (List Char)}
    (h : Algorithm.fromString name = .ok none) : name = none := by
  cases name with
  | none => rfl
  | some name =>
      unfold Algorithm.fromString at h
      dsimp only at h
      split_ifs at h <;> cases h

theorem soundAnswer_payloadOf (hsigned : Signed p secret s) :
    SoundAnswer p secret s (payloadOf p s) ↔
      ∃ payload, p.decoder (getBytes s.encodedPayload) = some payload := by
  rcases payloadOf_spec (p := p) s with
    ⟨hnone, hpayload⟩ | ⟨payload, hsome, ⟨message, hpayload⟩ | ⟨claims, hpayload⟩⟩
  · rw [hpayload, hnone]
    exact iff_of_false nofun nofun
  · rw [hpayload]
    exact iff_of_true rfl ⟨payload, hsome⟩
  · rw [hpayload]
    exact iff_of_true hsigned ⟨payload, hsome⟩

theorem soundAnswer_checkSignature {bytes : List UInt8} {header : Header} {algorithm : Algorithm}
    (hbytes : p.decoder (getBytes s.encodedHeader) = some bytes)
    (hheader : p.headers.fromJson (p.newString bytes) = .ok (some header))
    (halgorithm : Algorithm.fromString header.algorithm = .ok (some algorithm)) :
    SoundAnswer p secret s
        ((checkSignature p secret s (some algorithm)).bind fun _ => payloadOf p s) ↔
      KeyedBy p secret s algorithm := by
  unfold KeyedBy
  rcases checkSignature_spec s algorithm with
    ⟨hsecret, hcheck⟩ | ⟨-, hnone, hcheck⟩ |
      ⟨signature, hsecret, hsome, ⟨hne, message, hcheck⟩ | ⟨rfl, hcheck⟩⟩
  · rw [hcheck]
    exact iff_of_false nofun fun h => h.1 hsecret
  · rw [hcheck, hnone]
    exact iff_of_false nofun (by rintro ⟨-, signature, ⟨⟩, -⟩)
  · rw [hcheck]
    exact iff_of_true rfl ⟨hsecret, signature, hsome, fun heq => absurd heq hne⟩
  · rw [hcheck]
    show SoundAnswer p secret s (payloadOf p s) ↔ _
    rw [soundAnswer_payloadOf ⟨bytes, header, algorithm, hbytes, hheader, halgorithm, hsome⟩, hsome]
    simp [hsecret]

/-- What is answered once the token has been cut. -/
theorem soundAnswer_iff (s : Segments) :
    SoundAnswer p secret s (verifySegments p secret s) ↔ Decodable p secret s := by
  unfold verifySegments Decodable
  rcases decodeJson_spec p.headers "Invalid header JSON: ".toList s.encodedHeader with
    ⟨hnone, hread⟩ | ⟨bytes, hbytes, ⟨message, message', hjson, hread⟩ | ⟨header, hjson, hread⟩⟩
  · -- the header is not Base64
    rw [hread, hnone]
    exact iff_of_false nofun (by rintro ⟨bytes, ⟨⟩, -⟩)
  · rw [hread]
    refine iff_of_true rfl ⟨bytes, hbytes, fun h hh => ?_⟩
    rw [hjson] at hh
    cases hh
  rw [hread, hbytes]
  simp only [Option.some.injEq, exists_eq_left', hjson, Except.ok.injEq]
  show SoundAnswer p secret s ((algorithmOf header).bind fun algorithm =>
    (checkSignature p secret s algorithm).bind fun _ => payloadOf p s) ↔ _
  rcases algorithmOf_spec header with
    ⟨⟨message, hheader⟩, hunknown⟩ | ⟨h, rfl, htype, algorithm, halgorithm, hheader⟩
  · rw [hheader]
    refine iff_of_true rfl fun h hh htype => ?_
    obtain ⟨message, hmessage⟩ := hunknown h hh htype
    rw [hmessage]
    refine ⟨fun hnone => ?_, nofun⟩
    rw [hnone] at hmessage
    cases hmessage
  rw [hheader]
  show SoundAnswer p secret s
    ((checkSignature p secret s algorithm).bind fun _ => payloadOf p s) ↔ _
  cases algorithm with
  | none =>
      -- there is no algorithm to sign with
      exact iff_of_false nofun fun hall => (hall h rfl htype).1 (fromString_eq_none halgorithm)
  | some algorithm =>
      rw [soundAnswer_checkSignature hbytes hjson halgorithm]
      constructor
      · rintro hkeyed h' ⟨⟩ -
        rw [halgorithm]
        refine ⟨fun hnone => ?_, ?_⟩
        · rw [hnone] at halgorithm
          cases halgorithm
        · rintro _ ⟨⟩
          exact hkeyed
      · exact fun hall => (hall h rfl htype).2 algorithm halgorithm

/-- A token that cannot be cut is an invalid one. -/
theorem declared_of_segments (h : segments jwt = .error failure) : failure.declared = true := by
  unfold segments at h
  split at h
  · cases h
    rfl
  · cases h
    rfl
  · split at h
    · cases h
      rfl
    · split_ifs at h
      cases h
      rfl

theorem sound_iff (jwt : List Char) :
    Sound p secret jwt ↔ ∀ s, segments jwt = .ok s → Decodable p secret s := by
  unfold Sound verify
  cases hsegments : segments jwt with
  | error failure => exact iff_of_true (declared_of_segments hsegments) nofun
  | ok s =>
      simp only [Except.bind, Except.ok.injEq, exists_eq_left', forall_eq']
      rw [← soundAnswer_iff]
      cases verifySegments p secret s <;> exact Iff.rfl

end Answers

/-! ## Tokens that are signed -/

section Tokens

variable {p} {secret} {claims : T} {token : List Char}

/-- The first dot after a segment without dots. -/
theorem indexOf_append {done segment rest : List Char} (h : jwtSeparator ∉ segment) :
    indexOf (done ++ (segment ++ jwtSeparator :: rest)) [jwtSeparator] done.length =
      some (done.length + segment.length) := by
  rw [indexOf_eq_some]
  refine ⟨Nat.le_add_right _ _, by simp, ?_, fun j hj hlt hstart => ?_⟩
  · rw [List.drop_append, List.drop_of_length_le (Nat.le_add_right _ _), List.nil_append,
      Nat.add_sub_cancel_left, List.drop_left]
    exact ⟨rest, rfl⟩
  · obtain ⟨i, rfl⟩ := Nat.exists_eq_add_of_le hj
    have hi : i < segment.length := by omega
    rw [List.drop_append, List.drop_of_length_le (Nat.le_add_right _ _), List.nil_append,
      Nat.add_sub_cancel_left, List.drop_append_of_le_length (Nat.le_of_lt hi),
      List.drop_eq_getElem_cons hi] at hstart
    obtain ⟨t, ht⟩ := hstart
    exact h ((List.cons.inj ht).1 ▸ List.getElem_mem hi)

theorem segments_of {header payload : List Char} (signature : List Char) (hheader : header ≠ [])
    (hheader' : jwtSeparator ∉ header) (hpayload : payload ≠ []) (hpayload' : jwtSeparator ∉ payload) :
    segments (header ++ jwtSeparator :: (payload ++ jwtSeparator :: signature)) =
      .ok ⟨header, payload, signature, header ++ jwtSeparator :: payload⟩ := by
  obtain ⟨c, cs, rfl⟩ := List.exists_cons_of_ne_nil hheader
  have hfirst := @indexOf_append [] (c :: cs) (payload ++ jwtSeparator :: signature) hheader'
  have hsecond := @indexOf_append (c :: cs ++ [jwtSeparator]) payload signature hpayload'
  rw [List.length_nil, Nat.zero_add, List.nil_append] at hfirst
  rw [List.append_assoc, List.singleton_append, List.length_append, List.length_singleton]
    at hsecond
  have hlength : 0 < payload.length := List.length_pos_of_ne_nil hpayload
  unfold segments
  rw [hfirst]
  simp only [List.length_cons] at hsecond ⊢
  have hsplit : c :: cs ++ jwtSeparator :: (payload ++ jwtSeparator :: signature) =
      (c :: cs ++ jwtSeparator :: payload) ++ jwtSeparator :: signature := by simp
  have hsigned : (c :: cs ++ jwtSeparator :: (payload ++ jwtSeparator :: signature)).take
      (cs.length + 1 + 1 + payload.length) = c :: cs ++ jwtSeparator :: payload := by
    rw [hsplit]
    exact List.take_left' (by simp; omega)
  have hsignature : (c :: cs ++ jwtSeparator :: (payload ++ jwtSeparator :: signature)).drop
      (cs.length + 1 + 1 + payload.length + 1) = signature := by
    rw [hsplit, List.append_cons]
    exact List.drop_left' (by simp; omega)
  rw [hsecond]
  dsimp only
  rw [if_neg (by omega), hsigned, hsignature]
  simp

/-- With a key, signing succeeds. -/
theorem sign_of_ne_nil (hsecret : secret ≠ []) (claims : T) (algorithm : Option Algorithm) :
    Signer.sign p secret claims algorithm =
      .ok (Signer.bytesToSign p claims (algorithm.getD defaultAlgorithm) ++ jwtSeparator ::
        Signer.encode p (p.mac (algorithm.getD defaultAlgorithm) secret
          (getBytes (Signer.bytesToSign p claims (algorithm.getD defaultAlgorithm))))) := by
  have hempty : secret.isEmpty = false := by simpa using hsecret
  simp only [Signer.sign, Algorithm.sign, hempty]
  rfl

theorem decode_encode (bytes : List UInt8) : decode p (Signer.encode p bytes) = .ok bytes := by
  unfold decode
  rw [getBytes_encode, p.decoder_encoder]

theorem decodeJson_encode (p : Platform T) {α : Type*} {written : α → Prop} (gson : Gson α written)
    (a : α) (ha : written a) (format : List Char) :
    decodeJson p gson format (Signer.encode p (getBytes (gson.toJson a))) = .ok (some a) := by
  unfold decodeJson
  simp only [decode_encode, Except.bind, p.newString_getBytes, gson.fromJson_toJson ha]

theorem algorithmOf_headerOf (algorithm : Algorithm) :
    algorithmOf (some (headerOf algorithm)) = .ok (some algorithm) := by
  cases algorithm <;> rfl

theorem checkSignature_encode (hsecret : secret ≠ []) {s : Segments} {algorithm : Algorithm}
    (hs : s.encodedSignature = Signer.encode p (p.mac algorithm secret (getBytes s.signed))) :
    checkSignature p secret s (some algorithm) = .ok () := by
  have hempty : secret.isEmpty = false := by simpa using hsecret
  simp only [checkSignature, Algorithm.sign, hempty, hs, decode_encode, Except.bind]
  exact if_pos rfl

/-- A token is verified with the secret that it is signed with. -/
theorem verify_sign (hsecret : secret ≠ []) (claims : T) (algorithm : Option Algorithm) :
    (Signer.sign p secret claims algorithm).bind (verify p secret) = .ok claims := by
  have hheader : ∃ a, headerOf (algorithm.getD defaultAlgorithm) = headerOf a := ⟨_, rfl⟩
  rw [sign_of_ne_nil hsecret]
  generalize algorithm.getD defaultAlgorithm = algorithm at hheader
  show verify p secret _ = _
  have hread := decodeJson_encode p p.headers _ hheader "Invalid header JSON: ".toList
  have hpayload := decodeJson_encode p p.claims claims trivial "Invalid payload JSON: ".toList
  have hsegments := segments_of
    (Signer.encode p (p.mac algorithm secret (getBytes (Signer.bytesToSign p claims algorithm))))
    (encode_json_ne_nil p p.headers _ hheader) (not_mem_encode _)
    (encode_json_ne_nil p p.claims claims trivial) (not_mem_encode _)
  unfold verify
  rw [Signer.bytesToSign, List.append_assoc, List.cons_append, ← Signer.bytesToSign, hsegments]
  show verifySegments p secret _ = _
  unfold verifySegments
  rw [hread]
  show ((algorithmOf (some (headerOf algorithm))).bind _ : Except Failure T) = _
  rw [algorithmOf_headerOf]
  show ((checkSignature p secret _ (some algorithm)).bind _ : Except Failure T) = _
  rw [checkSignature_encode hsecret rfl]
  show payloadOf p _ = _
  unfold payloadOf
  rw [hpayload]
  rfl

/-- **Which tokens are verified.** A token that is signed is verified with the same claims, if and
only if there is a key; and an input is verified with claims that are signed, or fails with an
exception that is declared, if and only if it cannot be cut or what is decoded of it is Base64, its
header names an algorithm and there is a key for it. -/
theorem verified_iff (p : Platform T) (secret : List UInt8) :
    (∀ (claims : T) (algorithm : Option Algorithm),
      (Signer.sign p secret claims algorithm).bind (verify p secret) = .ok claims ↔
        secret ≠ []) ∧
    ∀ jwt, Sound p secret jwt ↔ ∀ s, segments jwt = .ok s → Decodable p secret s := by
  refine ⟨fun claims algorithm => ⟨?_, fun h => verify_sign h claims algorithm⟩, sound_iff⟩
  rintro h rfl
  cases h

end Tokens

/-! ## A platform -/

/-- The header of a token as JSON. -/
def headerJson (header : Header) : List Char :=
  "\x7b\"typ\":\"JWT\",\"alg\":\"".toList ++ header.algorithm.getD [] ++ "\"\x7d".toList

/-- Gson for headers of tokens. -/
def headerGson : Gson Header fun h => ∃ algorithm, h = headerOf algorithm where
  toJson := headerJson
  fromJson json :=
    if json = [] then .ok none
    else
      match [Algorithm.hs256, .hs384, .hs512].find? fun a => headerJson (headerOf a) = json with
      | some algorithm => .ok (some (headerOf algorithm))
      | none => .error json
  fromJson_nil := rfl
  fromJson_toJson := by
    rintro _ ⟨algorithm, rfl⟩
    cases algorithm <;> rfl

/-- Gson for claims without fields. -/
def emptyGson : Gson Unit fun _ => True where
  toJson _ := "\x7b\x7d".toList
  fromJson json :=
    if json = [] then .ok none
    else if json = "\x7b\x7d".toList then .ok (some ()) else .error json
  fromJson_nil := rfl
  fromJson_toJson _ := rfl

/-- Tokens whose signature begins the text that is signed. -/
def plain : Platform Unit where
  encoder := Base64.encode
  decoder := Base64.decode
  newString := Utf8.decode
  headers := headerGson
  claims := emptyGson
  mac _ _ payload := payload.take 32
  decoder_encoder := Base64.decode_encode
  encoder_nil := rfl
  alphabet := Base64.inAlphabet_of_mem
  newString_getBytes := decode_getBytes

/-- There is no signature without a key, and a header may have characters that are not Base64. -/
theorem undeclared_exceptions :
    (¬ ∀ (secret : List UInt8) (claims : Unit) (algorithm : Option Algorithm),
      (Signer.sign plain secret claims algorithm).bind (verify plain secret) = .ok claims) ∧
    ¬ ∀ (secret : List UInt8) (jwt : List Char), Sound plain secret jwt := by
  constructor
  · intro h
    exact absurd (h [] () none) (by simp [Signer.sign, Algorithm.sign, Except.map, Except.bind])
  · intro h
    have hsegments : segments "!.e.e".toList =
        .ok ⟨"!".toList, "e".toList, "e".toList, "!.e".toList⟩ := by rfl
    obtain ⟨bytes, hbytes, -⟩ := (sound_iff _).mp (h [1] "!.e.e".toList) _ hsegments
    have hnone : plain.decoder (getBytes "!".toList) = none := by decide
    rw [hnone] at hbytes
    cases hbytes

end Xenon.Jwt.Verifier
