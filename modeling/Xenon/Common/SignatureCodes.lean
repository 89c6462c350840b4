import Xenon.Common.HashingJsonWriter
import Xenon.Common.Signature
import Xenon.Foundation.Base64
import Xenon.Foundation.Concatenation
import Xenon.Foundation.SortedMap

/-!
# The codes of a signature

`Utils.computeSignature` mixes the fields of a document into one hash, one after the other. A field
that is `null` is one code, a string its characters, a byte array its bytes and any other value
what `HashingJsonWriter` makes of it. Nothing stands between the fields, so what can be moved from
the end of one field to the beginning of the next is lost.
-/

namespace Xenon.Common

open Foundation Foundation.Concatenation

/-- What is mixed into the hash: an `int`, or a byte of an array. -/
inductive Code where
  | int (code : Int32)
  | byte (b : Int8)
deriving DecidableEq

namespace Code

def mix (hash : Int64) : Code → Int64
  | .int code => FNVHash.computeCode code hash
  | .byte b => (hash ^^^ b.toInt64) * FNVHash.fnvPrime

def mixAll (codes : List Code) (hash : Int64) : Int64 := codes.foldl mix hash

/-- The characters of a text. -/
def text (s : String) : List Code := (Call.text s).map .int

theorem mixAll_append (codes codes' : List Code) (hash : Int64) :
    mixAll (codes ++ codes') hash = mixAll codes' (mixAll codes hash) :=
  List.foldl_append

theorem mixAll_int (codes : List Int32) (hash : Int64) :
    mixAll (codes.map .int) hash = FNVHash.computeCodes codes hash := by
  unfold mixAll FNVHash.computeCodes
  rw [List.foldl_map]
  rfl

theorem mixAll_byte (b : List Int8) (hash : Int64) :
    mixAll (b.map .byte) hash = FNVHash.computeBytes b hash := by
  unfold mixAll FNVHash.computeBytes
  rw [List.foldl_map]
  rfl

theorem int_injective : Function.Injective int := fun _ _ => Code.int.inj

theorem byte_injective : Function.Injective byte := fun _ _ => Code.byte.inj

theorem text_injective : Function.Injective text := fun _ _ h =>
  Call.text_injective (List.map_injective_iff.mpr int_injective h)

/-- No text has the code of a `null`. -/
theorem null_notMem_text (s : String) : int (-1) ∉ text s := by
  intro h
  obtain ⟨code, hcode, hint⟩ := List.mem_map.mp h
  obtain ⟨unit, -, rfl⟩ := List.mem_map.mp hcode
  have hchar := congrArg Int32.toInt (Code.int.inj hint)
  rw [FNVHash.toInt_char] at hchar
  have hnull : (-1 : Int32).toInt = -1 := by decide
  omega

end Code

/-! ## Values -/

/-- A map, by its entries in the order of iteration. -/
structure MapValue (κ ω : Type*) where
  entries : List (κ × ω)
  nodup : (entries.map Prod.fst).Nodup

/-- A value that is no string: a map by keys that are compared, or anything else. -/
inductive JsonValue (κ ω : Type*) where
  | map (m : MapValue κ ω)
  | other (value : ω)

/-- The adapters of `Gson`: of maps by their entries, and of anything else. -/
structure Gson (κ ω : Type*) where
  map : List (κ × ω) → List Call
  other : ω → List Call

variable {β κ ω : Type*}

/-- Equal in the sense of Java, where maps are equal in whatever order they are iterated. -/
inductive Equals :
    Option (FieldValue (JsonValue κ ω)) → Option (FieldValue (JsonValue κ ω)) → Prop
  | refl (v) : Equals v v
  | map {m m' : MapValue κ ω} (h : m.entries.Perm m'.entries) :
      Equals (some (.json (.map m))) (some (.json (.map m')))

theorem Equals.eq_of_string {t : String} {v : Option (FieldValue (JsonValue κ ω))}
    (h : Equals (some (.string t)) v) : v = some (.string t) := by
  cases h
  rfl

theorem equals_equivalence : Equivalence (Equals (κ := κ) (ω := ω)) where
  refl := .refl
  symm := by
    rintro _ _ (_ | h)
    · exact .refl _
    · exact .map h.symm
  trans := by
    rintro _ _ _ (_ | h) (_ | h')
    · exact .refl _
    · exact .map h'
    · exact .map h
    · exact .map (h.trans h')

namespace PropertyDescription

variable (pd : PropertyDescription β (JsonValue κ ω))

/-- The field is not part of the signature, or has equal values in two documents. -/
def SameIn (s s' : ServiceDocument β) : Prop :=
  pd.excludeFromSignature = true ∨ Equals (pd.getPropertyValue s) (pd.getPropertyValue s')

/-- A field of type `BYTES` is a byte array. -/
def HoldsBytes : Prop :=
  pd.isBytes = true → ∀ s, ∀ v ∈ pd.getPropertyValue s, ∃ b, v = .bytes b

/-- Every value of the field is a string. -/
def HoldsStrings : Prop := ∀ s, ∀ v ∈ pd.getPropertyValue s, ∃ t, v = .string t

variable {pd}

theorem sameIn_equivalence : Equivalence pd.SameIn where
  refl _ := .inr (.refl _)
  symm h := h.imp id equals_equivalence.symm
  trans h h' := by
    rcases h with h | h
    · exact .inl h
    · exact h'.imp id (equals_equivalence.trans h)

end PropertyDescription

/-! ## What is written -/

variable [LinearOrder κ]

/-- The entries in the order of `SortedKeysMapViewAdapterFactory`. -/
def MapValue.sortedKeysView (m : MapValue κ ω) : List (κ × ω) :=
  if m.entries.length ≤ 1 then m.entries else (SortedMap.ofPairs m.entries).entries

theorem MapValue.sortedKeysView_eq (m : MapValue κ ω) :
    m.sortedKeysView = (SortedMap.ofPairs m.entries).entries := by
  unfold sortedKeysView
  split
  next h =>
    match m.entries, h with
    | [], _ => rfl
    | [_], _ => rfl
  next => rfl

theorem MapValue.sortedKeysView_congr {m m' : MapValue κ ω} (h : m.entries.Perm m'.entries) :
    m.sortedKeysView = m'.sortedKeysView := by
  rw [sortedKeysView_eq, sortedKeysView_eq, SortedMap.ofPairs_congr m.nodup h]

/-- `ByteArrayToBase64TypeAdapter.serialize`. -/
def base64 (src : List Int8) : String :=
  let text := (Base64.encode (src.map Int8.toUInt8)).map fun b =>
    if b = 45 then '+' else if b = 95 then '/' else Char.ofNat b.toNat
  String.ofList (text ++ List.replicate ((4 - text.length % 4) % 4) '=')

namespace Gson

variable (gson : Gson κ ω)

/-- The calls for a value that is no string. -/
def calls : FieldValue (JsonValue κ ω) → List Call
  | .string s => [.string (some s)]
  | .bytes b => [.string (some (base64 b))]
  | .json (.map m) => gson.map m.sortedKeysView
  | .json (.other value) => gson.other value

/-- `JsonMapper.hashJson`. -/
def serializer (body : FieldValue (JsonValue κ ω)) (seed : Int64) : Except Thrown Int64 :=
  .ok (HashingJsonWriter.hashCalls (gson.calls body) seed)

/-- The codes of `GsonSerializers.hashJson`. -/
def codes : FieldValue (JsonValue κ ω) → List Code
  | .string s => Code.text s
  | value => ((gson.calls value).flatMap Call.codes).map .int

theorem hashJson_eq (value : FieldValue (JsonValue κ ω)) (hash : Int64) :
    hashJson gson.serializer value hash = .ok (Code.mixAll (gson.codes value) hash) := by
  cases value with
  | string s =>
      rw [codes, Code.text, Code.mixAll_int, ← HashingJsonWriter.computeFrom_eq]
      rfl
  | bytes b | json j =>
      rw [codes, Code.mixAll_int, ← HashingJsonWriter.hashCalls_eq]
      · rfl
      · nofun

end Gson

namespace PropertyDescription

variable (gson : Gson κ ω) (pd : PropertyDescription β (JsonValue κ ω))

/-- The codes of a value: those of the field's type, or of the value's. -/
def valueCodes (fieldValue : FieldValue (JsonValue κ ω)) : List Code :=
  match pd.isBytes, fieldValue with
  | true, .bytes b => b.map .byte
  | _, fieldValue => gson.codes fieldValue

/-- The codes of one round of the loop in `computeSignature`. -/
def codes (s : ServiceDocument β) : List Code :=
  if pd.excludeFromSignature then []
  else
    match pd.getPropertyValue s with
    | none => [.int (-1)]
    | some fieldValue => pd.valueCodes gson fieldValue

variable {gson pd} {s s' : ServiceDocument β} {hash : Int64}

theorem hashProperty_eq (hbytes : pd.HoldsBytes) :
    hashProperty gson.serializer s hash pd = .ok (Code.mixAll (pd.codes gson s) hash) := by
  unfold hashProperty codes valueCodes
  by_cases hexclude : pd.excludeFromSignature = true
  · rw [if_pos hexclude, if_pos hexclude]
    rfl
  · rw [if_neg hexclude, if_neg hexclude]
    cases hvalue : pd.getPropertyValue s with
    | none => rfl
    | some value =>
        cases htype : pd.isBytes with
        | false => exact gson.hashJson_eq value hash
        | true =>
            obtain ⟨b, rfl⟩ := hbytes htype s value hvalue
            exact congrArg Except.ok (Code.mixAll_byte b hash).symm

theorem codes_of_null (hexclude : pd.excludeFromSignature = false)
    (hnull : pd.getPropertyValue s = none) : pd.codes gson s = [.int (-1)] := by
  rw [codes, hexclude, hnull]
  rfl

theorem codes_of_value (hexclude : pd.excludeFromSignature = false)
    {v : FieldValue (JsonValue κ ω)} (hv : pd.getPropertyValue s = some v) :
    pd.codes gson s = pd.valueCodes gson v := by
  rw [codes, hexclude, hv]
  rfl

/-- Equal values are written alike, in whatever order a map is iterated. -/
theorem codes_congr (h : pd.SameIn s s') : pd.codes gson s = pd.codes gson s' := by
  unfold codes
  rcases h with h | h
  · rw [if_pos h, if_pos h]
  · generalize pd.getPropertyValue s = v, pd.getPropertyValue s' = v' at h
    cases h with
    | refl => rfl
    | map h =>
        unfold valueCodes
        cases pd.isBytes <;> simp only [Gson.codes, Gson.calls, MapValue.sortedKeysView_congr h]

/-- Values with codes of their own, of which none are those of `null`. -/
theorem toldApart_of_valueCodes
    (hnull : ∀ s, ∀ v ∈ pd.getPropertyValue s, pd.valueCodes gson v ≠ [.int (-1)])
    (hinj : ∀ s s', ∀ v ∈ pd.getPropertyValue s, ∀ v' ∈ pd.getPropertyValue s',
      pd.valueCodes gson v = pd.valueCodes gson v' → Equals (some v) (some v')) :
    ToldApart (codes gson) SameIn pd := by
  intro s s' h
  cases hexclude : pd.excludeFromSignature with
  | true => exact .inl hexclude
  | false =>
      refine .inr ?_
      cases hv : pd.getPropertyValue s with
      | none =>
          cases hv' : pd.getPropertyValue s' with
          | none => exact .refl _
          | some v' =>
              rw [codes_of_null hexclude hv, codes_of_value hexclude hv'] at h
              exact absurd h.symm (hnull s' v' hv')
      | some v =>
          cases hv' : pd.getPropertyValue s' with
          | none =>
              rw [codes_of_value hexclude hv, codes_of_null hexclude hv'] at h
              exact absurd h (hnull s v hv)
          | some v' =>
              rw [codes_of_value hexclude hv, codes_of_value hexclude hv'] at h
              exact hinj s s' v hv v' hv' h

/-- A byte array is told apart by its bytes. -/
theorem toldApart_of_isBytes (hbytes : pd.HoldsBytes) (htype : pd.isBytes = true) :
    ToldApart (codes gson) SameIn pd := by
  have hcodes : ∀ b, pd.valueCodes gson (.bytes b) = b.map Code.byte := fun b => by
    unfold valueCodes
    rw [htype]
  apply toldApart_of_valueCodes
  · intro s v hv
    obtain ⟨b, rfl⟩ := hbytes htype s v hv
    rw [hcodes]
    cases b <;> nofun
  · intro s s' v hv v' hv' h
    obtain ⟨b, rfl⟩ := hbytes htype s v hv
    obtain ⟨b', rfl⟩ := hbytes htype s' v' hv'
    rw [hcodes, hcodes] at h
    rw [List.map_injective_iff.mpr Code.byte_injective h]
    exact .refl _

/-- A string is told apart by its characters. -/
theorem toldApart_of_holdsStrings (hstrings : pd.HoldsStrings) :
    ToldApart (codes gson) SameIn pd := by
  have hcodes : ∀ t, pd.valueCodes gson (.string t) = Code.text t := fun t => by
    unfold valueCodes
    cases pd.isBytes <;> rfl
  apply toldApart_of_valueCodes
  · intro s v hv
    obtain ⟨t, rfl⟩ := hstrings s v hv
    intro h
    rw [hcodes] at h
    exact Code.null_notMem_text t (h ▸ List.mem_singleton_self _)
  · intro s s' v hv v' hv' h
    obtain ⟨t, rfl⟩ := hstrings s v hv
    obtain ⟨t', rfl⟩ := hstrings s' v' hv'
    rw [hcodes, hcodes] at h
    rw [Code.text_injective h]
    exact .refl _

end PropertyDescription

/-! ## Documents -/

/-- `ServiceDocumentDescription`, as far as a signature is concerned. Its fields are independent:
any values of the first ones go with any values of the others. -/
structure SignedDescription (β κ ω : Type*) where
  propertyDescriptions : List (PropertyDescription β (JsonValue κ ω))
  holdsBytes : ∀ pd ∈ propertyDescriptions, pd.HoldsBytes
  independent : ∀ pre post, propertyDescriptions = pre ++ post → ∀ s s', ∃ t,
    (∀ pd ∈ pre, pd.getPropertyValue t = pd.getPropertyValue s) ∧
      ∀ pd ∈ post, pd.getPropertyValue t = pd.getPropertyValue s'

namespace SignedDescription

variable (gson : Gson κ ω) (description : SignedDescription β κ ω)

/-- The codes that `computeSignature` feeds to the hash. -/
def codes (s : ServiceDocument β) : List Code :=
  read (PropertyDescription.codes gson) description.propertyDescriptions s

/-- `computeSignature`. -/
def signature (s : ServiceDocument β) : Except Thrown String :=
  computeSignature gson.serializer (some description.propertyDescriptions) s

/-- Equal values in all fields that are not excluded. -/
def SameValues (s s' : ServiceDocument β) : Prop :=
  ∀ pd ∈ description.propertyDescriptions, pd.SameIn s s'

/-- The values that are no byte arrays and no strings have codes of their own, and no codes can be
moved from the end of a field to the beginning of the fields after it. -/
structure Readable : Prop where
  toldApart : ∀ pd ∈ description.propertyDescriptions, pd.isBytes = false → ¬pd.HoldsStrings →
    ToldApart (PropertyDescription.codes gson) PropertyDescription.SameIn pd
  apart : ∀ pre pd post, description.propertyDescriptions = pre ++ pd :: post →
    ¬Overlaps (PropertyDescription.codes gson) pd post

variable {gson description} {s s' : ServiceDocument β}

theorem foldlM_hashProperty {pds : List (PropertyDescription β (JsonValue κ ω))} {hash : Int64}
    (h : ∀ pd ∈ pds, pd.HoldsBytes) : pds.foldlM (hashProperty gson.serializer s) hash =
      .ok (Code.mixAll (read (PropertyDescription.codes gson) pds s) hash) := by
  induction pds generalizing hash with
  | nil => rfl
  | cons pd pds ih =>
      obtain ⟨hpd, hpds⟩ := List.forall_mem_cons.mp h
      rw [List.foldlM_cons, PropertyDescription.hashProperty_eq hpd, read_cons,
        Code.mixAll_append, ← ih hpds]
      rfl

/-- The signature is the hash of the codes. -/
theorem signature_eq : description.signature gson s =
    .ok (toHexString (Code.mixAll (description.codes gson s) FNVHash.fnvOffsetMinusMsb)) := by
  unfold signature computeSignature
  simp only [foldlM_hashProperty description.holdsBytes]
  rfl

theorem codes_congr (h : description.SameValues s s') :
    description.codes gson s = description.codes gson s' :=
  read_congr fun pd hpd => PropertyDescription.codes_congr (h pd hpd)

theorem signature_congr (h : description.SameValues s s') :
    description.signature gson s = description.signature gson s' := by
  rw [signature_eq, signature_eq, codes_congr h]

theorem mixes : Mixes (PropertyDescription.codes gson) PropertyDescription.SameIn
    description.propertyDescriptions where
  equivalence _ := PropertyDescription.sameIn_equivalence
  encode_eq := PropertyDescription.codes_congr
  mix pre post h s s' := by
    obtain ⟨t, hpre, hpost⟩ := description.independent pre post h s s'
    have hsame : ∀ {t s : ServiceDocument β} {pd : PropertyDescription β (JsonValue κ ω)},
        pd.getPropertyValue t = pd.getPropertyValue s → pd.SameIn t s :=
      fun h => .inr (h ▸ .refl _)
    exact ⟨t, fun pd hpd => hsame (hpre pd hpd), fun pd hpd => hsame (hpost pd hpd)⟩

theorem readable_iff : description.Readable gson ↔
    ∀ pre pd post, description.propertyDescriptions = pre ++ pd :: post →
      ToldApart (PropertyDescription.codes gson) PropertyDescription.SameIn pd ∧
        ¬Overlaps (PropertyDescription.codes gson) pd post := by
  constructor
  · intro h pre pd post heq
    have hmem : pd ∈ description.propertyDescriptions := by simp [heq]
    refine ⟨?_, h.apart pre pd post heq⟩
    cases htype : pd.isBytes with
    | true => exact PropertyDescription.toldApart_of_isBytes (description.holdsBytes pd hmem) htype
    | false =>
        by_cases hstrings : pd.HoldsStrings
        · exact PropertyDescription.toldApart_of_holdsStrings hstrings
        · exact h.toldApart pd hmem htype hstrings
  · intro h
    refine ⟨fun pd hpd _ _ => ?_, fun pre pd post heq => (h pre pd post heq).2⟩
    obtain ⟨pre, post, heq⟩ := List.append_of_mem hpd
    exact (h pre pd post heq).1

/-- A document with two strings. -/
def keys : SignedDescription (Option String × Option String) κ ω where
  propertyDescriptions := [{ getPropertyValue := fun s => s.body.1.map .string },
    { getPropertyValue := fun s => s.body.2.map .string }]
  holdsBytes pd hpd := by
    simp only [List.mem_cons, List.not_mem_nil, or_false] at hpd
    rcases hpd with rfl | rfl <;> nofun
  independent pre post h s s' := by
    refine ⟨{ s with body := (if pre = [] then s'.body.1 else s.body.1,
      if pre.length ≤ 1 then s'.body.2 else s.body.2) }, ?_⟩
    match pre, h with
    | [], h =>
        obtain rfl := h
        simp
    | [_], h =>
        obtain ⟨rfl, rfl⟩ := List.cons.inj h
        simp
    | [_, _], h =>
        obtain ⟨rfl, hrest⟩ := List.cons.inj h
        obtain ⟨rfl, rfl⟩ := List.cons.inj hrest
        simp

end SignedDescription

/-- `Gson`, for Booleans. -/
def Gson.booleans : Gson String Bool where
  map entries :=
    .beginObject :: entries.flatMap (fun p => [.name p.1, .boolean (some p.2)]) ++ [.endObject]
  other b := [.boolean (some b)]

namespace SignedDescription

end SignedDescription

end Xenon.Common
