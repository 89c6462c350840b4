import Mathlib.Data.List.Chain
import Xenon.Common.FNVHash
import Xenon.Foundation.Concatenation

/-!
# Hashed JSON

`HashingJsonWriter` hashes what a `JsonWriter` would write. Each call feeds a code that tells its
kind, and then the characters of a text or the halves of a number.
-/

namespace Xenon.Common

open Foundation

/-- The calls of a `JsonWriter`. A `boolean` is a `Boolean` that is not `null`, a `double` is given
by its bits and a `Number` by its text. -/
inductive Call where
  | beginArray
  | endArray
  | beginObject
  | endObject
  | name (name : String)
  | string (value : Option String)
  | nullValue
  | boolean (value : Option Bool)
  | double (bits : Int64)
  | long (value : Int64)
  | number (value : Option String)
deriving DecidableEq

namespace HashingJsonWriter

def begArray : Int32 := 1

def endArray : Int32 := -1

def begObj : Int32 := 2

def endObj : Int32 := -2

def name : Int32 := 3

def string : Int32 := 4

def null : Int32 := 5

def number : Int32 := 6

def bool : Int32 := 7

/-- `Boolean.hashCode`. -/
def hashCode (value : Bool) : Int32 := if value then 1231 else 1237

/-- A call, on the running hash. -/
def call (hash : Int64) : Call → Int64
  | .beginArray => FNVHash.computeCode begArray hash
  | .endArray => FNVHash.computeCode endArray hash
  | .beginObject => FNVHash.computeCode begObj hash
  | .endObject => FNVHash.computeCode endObj hash
  | .name value =>
      let h := FNVHash.computeCode name hash
      FNVHash.computeFrom value h
  | .string value =>
      let h := FNVHash.computeCode string hash
      match value with
      | some value => FNVHash.computeFrom value h
      | none => FNVHash.computeCode null h
  | .nullValue => FNVHash.computeCode null hash
  | .boolean value =>
      let h := FNVHash.computeCode bool hash
      match value with
      | some value => FNVHash.computeCode (hashCode value) h
      | none => FNVHash.computeCode null h
  | .double bits =>
      let h := FNVHash.computeCode number hash
      let h := FNVHash.computeCode bits.toInt32 h
      FNVHash.computeCode (bits >>> 32).toInt32 h
  | .long value =>
      let h := FNVHash.computeCode number hash
      let h := FNVHash.computeCode value.toInt32 h
      FNVHash.computeCode (value >>> 32).toInt32 h
  | .number value =>
      let h := FNVHash.computeCode number hash
      match value with
      | some value => FNVHash.computeFrom value h
      | none => FNVHash.computeCode null h

/-- The hash of what is written after something was. -/
def hashCalls (calls : List Call) (hash : Int64) : Int64 := calls.foldl call hash

end HashingJsonWriter

/-! ## Codes -/

namespace Call

open HashingJsonWriter

/-- The characters of a text, as codes. -/
def text (s : String) : List Int32 :=
  (s.toList.flatMap FNVHash.codeUnits).map fun code => code.toUInt32.toInt32

/-- The first code of a call. -/
def token : Call → Int32
  | .beginArray => begArray
  | .endArray => HashingJsonWriter.endArray
  | .beginObject => begObj
  | .endObject => endObj
  | .name _ => HashingJsonWriter.name
  | .string _ => HashingJsonWriter.string
  | .nullValue => null
  | .boolean _ => bool
  | .double _ | .long _ | .number _ => HashingJsonWriter.number

/-- The codes after the first one. -/
def payload : Call → List Int32
  | .beginArray | .endArray | .beginObject | .endObject | .nullValue => []
  | .name s | .string (some s) | .number (some s) => text s
  | .string none | .boolean none | .number none => [null]
  | .boolean (some value) => [hashCode value]
  | .double value | .long value => [value.toInt32, (value >>> 32).toInt32]

def codes (c : Call) : List Int32 := c.token :: c.payload

end Call

namespace HashingJsonWriter

section

variable {hash : Int64}

theorem computeFrom_eq (s : String) :
    FNVHash.computeFrom s hash = FNVHash.computeCodes (Call.text s) hash := by
  rw [FNVHash.computeFrom_eq, FNVHash.computeChars_eq, Call.text]

/-- A call feeds its codes. -/
theorem call_eq (c : Call) : call hash c = FNVHash.computeCodes c.codes hash := by
  rw [Call.codes, FNVHash.computeCodes_cons]
  cases c with
  | name value => exact computeFrom_eq value
  | string value =>
      cases value with
      | some value => exact computeFrom_eq value
      | none => rfl
  | number value =>
      cases value with
      | some value => exact computeFrom_eq value
      | none => rfl
  | boolean value =>
      cases value with
      | some value => rfl
      | none => rfl
  | double bits =>
      rw [Call.payload, FNVHash.computeCodes_cons, FNVHash.computeCodes_cons,
        FNVHash.computeCodes_nil]
      rfl
  | long value =>
      rw [Call.payload, FNVHash.computeCodes_cons, FNVHash.computeCodes_cons,
        FNVHash.computeCodes_nil]
      rfl
  | _ => rfl

theorem hashCalls_eq (calls : List Call) :
    hashCalls calls hash = FNVHash.computeCodes (calls.flatMap Call.codes) hash := by
  induction calls generalizing hash with
  | nil => rfl
  | cons c calls ih =>
      rw [List.flatMap_cons, FNVHash.computeCodes_append, ← call_eq, ← ih]
      rfl

end

end HashingJsonWriter

/-! ## What the codes tell -/

namespace Call

open Concatenation

theorem text_injective : Function.Injective text := fun _ _ h =>
  String.toList_inj.mp (FNVHash.flatMap_codeUnits_inj
    (List.map_injective_iff.mpr FNVHash.char_injective h))

end Call

end Xenon.Common
