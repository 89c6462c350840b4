import Mathlib.Algebra.Group.Int.Defs
import Xenon.Foundation.SingleDifference

/-!
# FNV hashes

`com.vmware.xenon.common.FNVHash`, sixty-four bits wide. A string is hashed by
its UTF-16 code units. The product with the prime loses nothing, and neither does
the exclusive or. But the sum of a code with its shift is the shift of its double,
which loses the high bits of an `int`, and the loop over a slice of bytes ends at
the length of the slice and not at its end.
-/

namespace Xenon.Common.FNVHash

open Foundation

def fnvPrime : Int64 := 1099511628211

def fnvOffsetMinusMsb : Int64 := 4695981039346656037

/-- `compute(int, long)`. The code is doubled and shifted as an `int`. -/
def computeCode (code : Int32) (hash : Int64) : Int64 :=
  (hash ^^^ ((code + code) <<< 8).toInt64) * fnvPrime

/-- The UTF-16 code units of a character. -/
def codeUnits (c : Char) : List UInt16 :=
  if c.val < 0x10000 then [c.val.toUInt16]
  else
    let v := c.val - 0x10000
    [(0xD800 : UInt16) + (v >>> 10).toUInt16, (0xDC00 : UInt16) + (v &&& 0x3FF).toUInt16]

/-- `compute(CharSequence, long)`. -/
def computeFrom (data : String) (hash : Int64) : Int64 :=
  (data.toList.flatMap codeUnits).foldl
    (fun hash code => computeCode code.toUInt32.toInt32 hash) hash

/-- `compute(CharSequence)`. -/
def compute (data : String) : Int64 := computeFrom data fnvOffsetMinusMsb

/-- `compute(byte[], 0, data.length, long)`. -/
def computeBytes (data : List Int8) (hash : Int64) : Int64 :=
  data.foldl (fun hash code => (hash ^^^ code.toInt64) * fnvPrime) hash

/-- `compute(CharSequence, long)`, of any sequence of `char`s. -/
def computeChars (data : List UInt16) (hash : Int64) : Int64 :=
  data.foldl (fun hash code => computeCode code.toUInt32.toInt32 hash) hash

/-- `compute(int, long)`, once for each code. -/
def computeCodes (codes : List Int32) (hash : Int64) : Int64 :=
  codes.foldl (fun hash code => computeCode code hash) hash

@[simp] theorem computeCodes_nil (hash : Int64) : computeCodes [] hash = hash := rfl

@[simp] theorem computeCodes_cons (code : Int32) (codes : List Int32) (hash : Int64) :
    computeCodes (code :: codes) hash = computeCodes codes (computeCode code hash) := by
  unfold computeCodes
  rw [List.foldl_cons]

theorem computeCodes_append (codes codes' : List Int32) (hash : Int64) :
    computeCodes (codes ++ codes') hash = computeCodes codes' (computeCodes codes hash) :=
  List.foldl_append

theorem computeChars_eq (data : List UInt16) (hash : Int64) : computeChars data hash =
    computeCodes (data.map fun code => code.toUInt32.toInt32) hash := by
  unfold computeChars computeCodes
  rw [List.foldl_map]

/-- A string is the sequence of its code units. -/
theorem computeFrom_eq (data : String) (hash : Int64) :
    computeFrom data hash = computeChars (data.toList.flatMap codeUnits) hash := rfl

/-- `data[i]`, which throws outside of the array. -/
def byteAt (data : List Int8) (i : Int) : Option Int8 :=
  if i < 0 then none else data[i.toNat]?

/-- `compute(byte[], int, int, long)`. The index goes from the offset up to the length. -/
def computeSlice (data : List Int8) (offset length : Int) (hash : Int64) : Option Int64 :=
  (List.range (length - offset).toNat).foldlM (fun hash (n : Nat) => do
    let code ← byteAt data (offset + n)
    return (hash ^^^ code.toInt64) * fnvPrime) hash

/-! ## Code units -/

theorem codeUnits_spec (c : Char) :
    (∃ u, codeUnits c = [u] ∧ u.toNat = c.toNat ∧ (c.toNat < 0xD800 ∨ 0xDFFF < c.toNat)) ∨
      ∃ u u', codeUnits c = [u, u'] ∧ 0x10000 ≤ c.toNat ∧ c.toNat < 0x110000 ∧
        u.toNat = 0xD800 + (c.toNat - 0x10000) / 0x400 ∧
        u'.toNat = 0xDC00 + (c.toNat - 0x10000) % 0x400 := by
  have hvalid : c.toNat < 0xD800 ∨ 0xDFFF < c.toNat ∧ c.toNat < 0x110000 := c.valid
  unfold codeUnits
  by_cases hlow : c.val < 0x10000
  · have hlt : c.toNat < 0x10000 := UInt32.lt_iff_toNat_lt.mp hlow
    rw [if_pos hlow]
    refine Or.inl ⟨_, rfl, ?_, hvalid.imp id And.left⟩
    rw [UInt32.toNat_toUInt16]
    exact Nat.mod_eq_of_lt hlt
  · have hle : 0x10000 ≤ c.toNat := UInt32.le_iff_toNat_le.mp (UInt32.not_lt.mp hlow)
    have hsub : (c.val - 0x10000).toNat = c.toNat - 0x10000 :=
      UInt32.toNat_sub_of_le _ _ (UInt32.not_lt.mp hlow)
    have hshift : ((c.val - 0x10000) >>> 10).toNat = (c.toNat - 0x10000) / 0x400 := by
      rw [UInt32.toNat_shiftRight, hsub]
      exact Nat.shiftRight_eq_div_pow _ _
    have hand : ((c.val - 0x10000) &&& 0x3FF).toNat = (c.toNat - 0x10000) % 0x400 := by
      rw [UInt32.toNat_and, hsub]
      exact Nat.and_two_pow_sub_one_eq_mod _ 10
    have hhigh : (0xD800 : UInt16).toNat = 0xD800 := rfl
    have hlow' : (0xDC00 : UInt16).toNat = 0xDC00 := rfl
    rw [if_neg hlow]
    refine Or.inr ⟨_, _, rfl, hle, by omega, ?_, ?_⟩
    · rw [UInt16.toNat_add, UInt32.toNat_toUInt16, hshift, hhigh]
      omega
    · rw [UInt16.toNat_add, UInt32.toNat_toUInt16, hand, hlow']
      omega

/-- The code units of a character are not the first ones of another. -/
theorem codeUnits_append_inj {c c' : Char} {r r' : List UInt16}
    (h : codeUnits c ++ r = codeUnits c' ++ r') : c = c' ∧ r = r' := by
  rcases codeUnits_spec c with ⟨u, hu, hn, hc⟩ | ⟨u, v, hu, hge, hlt, hn, hm⟩ <;>
    rcases codeUnits_spec c' with ⟨u', hu', hn', hc'⟩ | ⟨u', v', hu', hge', hlt', hn', hm'⟩ <;>
    rw [hu, hu'] at h
  · obtain ⟨rfl, rfl⟩ := List.cons.inj h
    exact ⟨Char.toNat_inj.mp (hn.symm.trans hn'), rfl⟩
  · obtain ⟨rfl, -⟩ := List.cons.inj h
    omega
  · obtain ⟨rfl, -⟩ := List.cons.inj h
    omega
  · obtain ⟨rfl, hrest⟩ := List.cons.inj h
    obtain ⟨rfl, rfl⟩ := List.cons.inj hrest
    exact ⟨Char.toNat_inj.mp (by omega), rfl⟩

/-- Two texts with the same code units are the same. -/
theorem flatMap_codeUnits_inj {s s' : List Char}
    (h : s.flatMap codeUnits = s'.flatMap codeUnits) : s = s' := by
  have hne : ∀ c, codeUnits c ≠ [] := by
    intro c hnil
    rcases codeUnits_spec c with ⟨u, hu, -⟩ | ⟨u, v, hu, -⟩ <;> rw [hu] at hnil <;> cases hnil
  induction s generalizing s' with
  | nil =>
      cases s' with
      | nil => rfl
      | cons c' s' => exact absurd (List.append_eq_nil_iff.mp h.symm).1 (hne c')
  | cons c s ih =>
      cases s' with
      | nil => exact absurd (List.append_eq_nil_iff.mp h).1 (hne c)
      | cons c' s' =>
          obtain ⟨rfl, hrest⟩ := codeUnits_append_inj h
          rw [ih hrest]

/-! ## One code -/

section

variable {a b hash : Int64}

theorem mul_fnvPrime_injective : Function.Injective fun hash : Int64 => hash * fnvPrime := by
  have hunit : fnvPrime * -3560570117845248645 = 1 := by decide
  intro a b h
  have hmul := congrArg (· * (-3560570117845248645 : Int64)) h
  simpa only [Int64.mul_assoc, hunit, Int64.mul_one] using hmul

/-- What is mixed in leaves no state behind. -/
theorem mix_injective (a : Int64) :
    Function.Injective fun hash : Int64 => (hash ^^^ a) * fnvPrime := fun _ _ h =>
  (Int64.xor_left_inj a).mp (mul_fnvPrime_injective h)

theorem mix_eq_iff : (hash ^^^ a) * fnvPrime = (hash ^^^ b) * fnvPrime ↔ a = b :=
  mul_fnvPrime_injective.eq_iff.trans (Int64.xor_right_inj hash)

end

section

variable {hash : Int64}

/-- The sum is taken before the shift. -/
theorem shift_double (code : Int32) : (code + code) <<< 8 = code * 512 := by
  apply Int32.toBitVec_inj.mp
  show (code.toBitVec + code.toBitVec) <<< 8 = code.toBitVec * 512#32
  apply BitVec.eq_of_toNat_eq
  simp only [BitVec.toNat_shiftLeft, BitVec.toNat_add, BitVec.toNat_mul, Nat.shiftLeft_eq,
    BitVec.toNat_ofNat]
  omega

/-- Two codes are mixed in alike when they agree in their low twenty-three bits. -/
theorem computeCode_eq_iff {a b : Int32} :
    computeCode a hash = computeCode b hash ↔ 2 ^ 23 ∣ a.toInt - b.toInt := by
  have h512 : (512 : Int32).toInt = 512 := by decide
  have hdvd : (2 ^ 23 : Int) ∣ a.toInt - b.toInt ↔
      ((2 ^ 32 : Nat) : Int) ∣ a.toInt * 512 - b.toInt * 512 := by omega
  unfold computeCode
  rw [mix_eq_iff, shift_double, shift_double, ← Int64.toInt_inj, Int32.toInt_toInt64,
    Int32.toInt_toInt64, Int32.toInt_mul, Int32.toInt_mul, h512,
    Int.bmod_eq_bmod_iff_bmod_sub_eq_zero, ← Int.dvd_iff_bmod_eq_zero, hdvd]

theorem computeCode_injective (code : Int32) : Function.Injective (computeCode code) :=
  mix_injective _

theorem toInt_char (code : UInt16) : code.toUInt32.toInt32.toInt = code.toNat := by
  have hlt := code.toNat_lt
  have hnat : code.toUInt32.toInt32.toBitVec.toNat = code.toNat := UInt16.toNat_toUInt32 code
  rw [← Int32.toInt_toBitVec, BitVec.toInt_eq_toNat_of_lt (by rw [hnat]; omega), hnat]

theorem char_injective : Function.Injective fun code : UInt16 => code.toUInt32.toInt32 := by
  intro a b h
  have hint := congrArg Int32.toInt h
  rw [toInt_char, toInt_char] at hint
  exact UInt16.toNat_inj.mp (by exact_mod_cast hint)

/-- A `char` has no bits that are lost. -/
theorem computeChar_injective : Function.Injective fun code : UInt16 =>
    computeCode code.toUInt32.toInt32 hash := by
  intro a b h
  have ha := a.toNat_lt
  have hb := b.toNat_lt
  have hdvd := computeCode_eq_iff.mp h
  rw [toInt_char, toInt_char] at hdvd
  exact UInt16.toNat_inj.mp (by omega)

theorem computeByte_injective : Function.Injective fun code : Int8 =>
    (hash ^^^ code.toInt64) * fnvPrime := fun a b h => by
  have hlong := congrArg Int64.toInt (mix_eq_iff.mp h)
  rw [Int8.toInt_toInt64, Int8.toInt_toInt64] at hlong
  exact Int8.toInt_inj.mp hlong

end

/-! ## Sequences of codes -/

section

variable {i : Nat} {hash : Int64}

theorem computeChars_ne {xs ys : List UInt16} (h : DifferOnlyAt i xs ys) :
    computeChars xs hash ≠ computeChars ys hash :=
  h.foldl_ne (fun _ => computeCode_injective _) (fun _ => computeChar_injective) hash

theorem computeCodes_eq_iff {xs ys : List Int32} (h : DifferOnlyAt i xs ys) {a b : Int32}
    (ha : a ∈ xs[i]?) (hb : b ∈ ys[i]?) :
    computeCodes xs hash = computeCodes ys hash ↔ 2 ^ 23 ∣ a.toInt - b.toInt :=
  h.foldl_eq_iff computeCode_injective (fun _ _ _ => computeCode_eq_iff) ha hb hash

theorem computeBytes_ne {xs ys : List Int8} (h : DifferOnlyAt i xs ys) :
    computeBytes xs hash ≠ computeBytes ys hash :=
  h.foldl_ne (fun _ => mix_injective _) (fun _ => computeByte_injective) hash

end

/-! ## Slices -/

/-- The `length` bytes that start at `offset`. -/
def slice (data : List Int8) (offset length : Nat) : List Int8 := (data.drop offset).take length

section

variable {data data' : List Int8} {offset offset' length i : Nat} {hash : Int64}

/-- As many bytes are hashed as the length exceeds the offset. -/
theorem foldlM_byteAt (n : Nat) (h : offset + n ≤ data.length) :
    (List.range n).foldlM (fun hash (n : Nat) => do
      let code ← byteAt data (offset + n)
      return (hash ^^^ code.toInt64) * fnvPrime) hash =
        some (computeBytes (slice data offset n) hash) := by
  induction n with
  | zero => rfl
  | succ n ih =>
      have hlt : offset + n < data.length := by omega
      have hbyte : byteAt data (offset + n) = some data[offset + n] := by
        rw [byteAt, if_neg (by omega), show ((offset : Int) + n).toNat = offset + n by omega,
          List.getElem?_eq_getElem hlt]
      have hslice : slice data offset (n + 1) = slice data offset n ++ [data[offset + n]] := by
        unfold slice
        rw [List.take_add_one, List.getElem?_drop, List.getElem?_eq_getElem hlt]
        rfl
      have hconcat : computeBytes (slice data offset n ++ [data[offset + n]]) hash =
          (computeBytes (slice data offset n) hash ^^^ data[offset + n].toInt64) * fnvPrime :=
        List.foldl_concat _ _ _ _
      rw [List.range_succ, List.foldlM_append, ih (by omega), hslice, hconcat]
      simp [hbyte]

theorem computeSlice_eq (h : offset + length ≤ data.length) :
    computeSlice data offset length hash =
      some (computeBytes ((slice data offset length).take (length - offset)) hash) := by
  have hn : ((length : Int) - offset).toNat = length - offset := by omega
  rw [computeSlice, hn, foldlM_byteAt _ (by omega), slice, slice, List.take_take,
    Nat.min_eq_left (Nat.sub_le _ _)]

/-- A byte of the slice counts when its index in the array is below the length. -/
theorem computeSlice_ne_iff (h : offset + length ≤ data.length)
    (h' : offset + length ≤ data'.length)
    (hdiffer : DifferOnlyAt i (slice data offset length) (slice data' offset length)) :
    computeSlice data offset length hash ≠ computeSlice data' offset length hash ↔
      offset + i < length := by
  rw [computeSlice_eq h, computeSlice_eq h', ne_eq, Option.some_inj]
  constructor
  · intro hne
    by_contra hlt
    exact hne (congrArg (computeBytes · hash) (hdiffer.take_eq (by omega)))
  · exact fun hlt => computeBytes_ne (hdiffer.take (by omega))

/-- Two slices of one length are hashed by their bytes, wherever they are. -/
def KeepsSlices (hash : Int64) (offset offset' length : Nat) : Prop :=
  ∀ data data' : List Int8, offset + length ≤ data.length → offset' + length ≤ data'.length →
    (slice data offset length = slice data' offset' length →
      computeSlice data offset length hash = computeSlice data' offset' length hash) ∧
    ∀ i, DifferOnlyAt i (slice data offset length) (slice data' offset' length) →
      computeSlice data offset length hash ≠ computeSlice data' offset' length hash

theorem KeepsSlices.symm (h : KeepsSlices hash offset offset' length) :
    KeepsSlices hash offset' offset length := fun data data' hdata hdata' =>
  ⟨fun heq => ((h data' data hdata' hdata).1 heq.symm).symm,
    fun i hdiffer heq => (h data' data hdata' hdata).2 i hdiffer.symm heq.symm⟩

/-- Some array has these bytes at the offset. -/
theorem slice_replicate (offset : Nat) (bytes : List Int8) :
    slice (List.replicate offset 0 ++ bytes) offset bytes.length = bytes := by
  rw [slice, List.drop_left' List.length_replicate, List.take_length]

/-- For each of two offsets, the loop hashes a beginning of the slice. -/
theorem KeepsSlices.of_bytes (h : KeepsSlices hash offset offset' length) {xs ys : List Int8}
    (hxs : xs.length = length) (hys : ys.length = length) :
    (xs = ys → computeBytes (xs.take (length - offset)) hash =
        computeBytes (ys.take (length - offset')) hash) ∧
      ∀ i, DifferOnlyAt i xs ys → computeBytes (xs.take (length - offset)) hash ≠
        computeBytes (ys.take (length - offset')) hash := by
  have hfits : ∀ (offset : Nat) (bytes : List Int8), bytes.length = length →
      offset + length ≤ (List.replicate offset 0 ++ bytes).length := by
    rintro offset bytes rfl
    simp
  have hslice : ∀ (offset : Nat) (bytes : List Int8), bytes.length = length →
      slice (List.replicate offset 0 ++ bytes) offset length = bytes := by
    rintro offset bytes rfl
    exact slice_replicate offset bytes
  have hkeeps := h _ _ (hfits offset xs hxs) (hfits offset' ys hys)
  rw [computeSlice_eq (hfits offset xs hxs), computeSlice_eq (hfits offset' ys hys),
    hslice offset xs hxs, hslice offset' ys hys, ne_eq, Option.some_inj] at hkeeps
  exact hkeeps

/-- Two arrays of bytes that differ in one place. -/
theorem exists_differOnlyAt (i length : Nat) (hi : i < length) :
    ∃ xs ys : List Int8, xs.length = length ∧ ys.length = length ∧ DifferOnlyAt i xs ys := by
  have hdiffer : DifferOnlyAt (List.replicate i (0 : Int8)).length
      (List.replicate i (0 : Int8) ++ 0 :: List.replicate (length - i - 1) 0)
      (List.replicate i 0 ++ 1 :: List.replicate (length - i - 1) 0) :=
    differOnlyAt_split (by decide)
  rw [List.length_replicate] at hdiffer
  refine ⟨_, _, ?_, ?_, hdiffer⟩
  · simp only [List.length_append, List.length_replicate, List.length_cons]
    omega
  · simp only [List.length_append, List.length_replicate, List.length_cons]
    omega

/-- A byte that only one of the loops comes to tells equal slices apart. -/
theorem KeepsSlices.sub_le (h : KeepsSlices hash offset offset' length) :
    length - offset' ≤ length - offset := by
  by_contra hlt
  obtain ⟨xs, ys, hxs, hys, hdiffer⟩ :=
    exists_differOnlyAt (length - offset' - 1) length (by omega)
  have hx := (h.of_bytes hxs hxs).1 rfl
  have hy := (h.of_bytes hys hys).1 rfl
  rw [hdiffer.take_eq (by omega)] at hx
  exact computeBytes_ne (hdiffer.take (by omega)) (hx.symm.trans hy)

theorem keepsSlices_iff :
    KeepsSlices hash offset offset' length ↔ length = 0 ∨ offset = 0 ∧ offset' = 0 := by
  constructor
  · intro h
    have hsame : length - offset = length - offset' := Nat.le_antisymm h.symm.sub_le h.sub_le
    by_contra hcondition
    -- none of the loops comes to the last byte
    obtain ⟨xs, ys, hxs, hys, hdiffer⟩ :=
      exists_differOnlyAt (length - 1) length (by omega)
    refine (h.of_bytes hxs hys).2 _ hdiffer ?_
    rw [← hsame, hdiffer.take_eq (by omega)]
  · intro hcondition data data' hdata hdata'
    have hall : ∀ bytes : List Int8, bytes.length ≤ length →
        bytes.take (length - offset) = bytes ∧ bytes.take (length - offset') = bytes := by
      intro bytes hle
      exact ⟨List.take_of_length_le (by omega), List.take_of_length_le (by omega)⟩
    have hlength : ∀ (data : List Int8) (offset : Nat),
        (slice data offset length).length ≤ length := fun _ _ => List.length_take_le _ _
    rw [computeSlice_eq hdata, computeSlice_eq hdata', (hall _ (hlength data offset)).1,
      (hall _ (hlength data' offset')).2, ne_eq, Option.some_inj]
    exact ⟨fun heq => congrArg (computeBytes · hash) heq, fun i => computeBytes_ne⟩

end

/-! ## Single differences -/

/-- **Which single differences are kept.** Those of characters are. Those of `int` codes are unless
the two codes agree in their low twenty-three bits. Those of bytes are where the byte's index in
the array is below the length, so that slices are hashed by their bytes only where they are empty
or at the start of their arrays. -/
theorem keeps_single_differences_iff (hash : Int64) :
    (∀ (i : Nat) (xs ys : List UInt16), DifferOnlyAt i xs ys →
      computeChars xs hash ≠ computeChars ys hash) ∧
    (∀ (i : Nat) (xs ys : List Int32), DifferOnlyAt i xs ys → ∀ a ∈ xs[i]?, ∀ b ∈ ys[i]?,
      (computeCodes xs hash ≠ computeCodes ys hash ↔ ¬2 ^ 23 ∣ a.toInt - b.toInt)) ∧
    (∀ (i offset length : Nat) (data data' : List Int8), offset + length ≤ data.length →
      offset + length ≤ data'.length →
      DifferOnlyAt i (slice data offset length) (slice data' offset length) →
        (computeSlice data offset length hash ≠ computeSlice data' offset length hash ↔
          offset + i < length)) ∧
    ∀ offset offset' length : Nat,
      KeepsSlices hash offset offset' length ↔ length = 0 ∨ offset = 0 ∧ offset' = 0 :=
  ⟨fun _ _ _ => computeChars_ne,
    fun _ _ _ h _ ha _ hb => not_congr (computeCodes_eq_iff h ha hb),
    fun _ _ _ _ _ => computeSlice_ne_iff, fun _ _ _ => keepsSlices_iff⟩

theorem keeps_single_differences_iff_ab :
    computeChars [97, 98] 0 ≠ computeChars [97, 99] 0 ∧
      (computeCodes [6, 0, 0] 0 ≠ computeCodes [6, 1, 0] 0 ↔
        ¬2 ^ 23 ∣ (0 : Int32).toInt - (1 : Int32).toInt) ∧
      (computeSlice [1, 2, 3] 1 2 0 ≠ computeSlice [1, 9, 3] 1 2 0 ↔ 1 + 0 < 2) ∧
      KeepsSlices 0 0 0 2 := by
  obtain ⟨hchars, hcodes, hbytes, hslices⟩ := keeps_single_differences_iff 0
  refine ⟨hchars 1 _ _ (differOnlyAt_split (l := [97]) (by decide)),
    hcodes 1 _ _ (differOnlyAt_split (l := [6]) (by decide)) 0 rfl 1 rfl,
    hbytes 0 1 2 _ _ (by decide) (by decide) (differOnlyAt_split (l := []) (by decide)),
    (hslices 0 0 2).mpr (Or.inr ⟨rfl, rfl⟩)⟩

/-- The codes of the numbers 0 and 2^23, and a byte at the end of an array. -/
theorem single_differences_lost :
    (DifferOnlyAt 1 [6, 0, 0] [6, 8388608, 0] ∧
      computeCodes [6, 0, 0] fnvOffsetMinusMsb =
        computeCodes [6, 8388608, 0] fnvOffsetMinusMsb) ∧
    DifferOnlyAt 0 (slice [1, 2] 1 1) (slice [1, 3] 1 1) ∧
      computeSlice [1, 2] 1 1 fnvOffsetMinusMsb = computeSlice [1, 3] 1 1 fnvOffsetMinusMsb :=
  ⟨⟨differOnlyAt_split (l := [6]) (by decide), by decide⟩,
    differOnlyAt_split (l := []) (by decide), by decide⟩

end Xenon.Common.FNVHash
