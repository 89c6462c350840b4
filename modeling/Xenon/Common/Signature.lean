import Xenon.Common.FNVHash
import Xenon.Common.ServiceDocument
import Xenon.Foundation.Long
import Xenon.Foundation.Run

/-!
# Signatures of documents

`ServiceDocument.equals` compares two states by their signatures, which
`Utils.computeSignature` hashes from the properties of the description. Either
may throw, and then `compare` throws too. With the signatures in place `compare`
is a preference: what is preferred, in conflict or newer of two documents does
not depend on which of them is asked.
-/

namespace Xenon.Common

open Xenon.Foundation

/-- What computing a signature can throw. -/
inductive Thrown where
  | illegalArgument (message : String)
  /-- Any other exception: of the serializer, or of a cast. -/
  | other
deriving DecidableEq

/-- The value of a property. -/
inductive FieldValue (γ : Type*) where
  | string (s : String)
  | bytes (b : List Int8)
  | json (j : γ)

/-- `PropertyDescription`, as far as a signature is concerned. `getPropertyValue`
answers `null` when the reflection fails. -/
structure PropertyDescription (β γ : Type*) where
  isBytes : Bool := false
  excludeFromSignature : Bool := false
  getPropertyValue : ServiceDocument β → Option (FieldValue γ)

section Signature

variable {β γ : Type*} (serializer : FieldValue γ → Int64 → Except Thrown Int64)

/-- `GsonSerializers.hashJson`: everything but a string goes through the
serializer. -/
def hashJson (body : FieldValue γ) (hash : Int64) : Except Thrown Int64 :=
  match body with
  | .string s => .ok (FNVHash.computeFrom s hash)
  | body => serializer body hash

/-- One round of the loop in `computeSignature`. -/
def hashProperty (s : ServiceDocument β) (hash : Int64) (pd : PropertyDescription β γ) :
    Except Thrown Int64 :=
  if pd.excludeFromSignature then .ok hash
  else
    match pd.getPropertyValue s with
    | none => .ok (FNVHash.computeCode (-1) hash)
    | some fieldValue =>
        if pd.isBytes then
          match fieldValue with
          | .bytes b => .ok (FNVHash.computeBytes b hash)
          | _ => .error .other
        else hashJson serializer fieldValue hash

/-- `Long.toHexString`. -/
def toHexString (hash : Int64) : String :=
  String.ofList (Nat.toDigits 16 hash.toUInt64.toNat)

/-- `Utils.computeSignature`. -/
def computeSignature (description : Option (List (PropertyDescription β γ)))
    (s : ServiceDocument β) : Except Thrown String :=
  match description with
  | none => .error (.illegalArgument "description is required")
  | some propertyDescriptions => do
      let hash ← propertyDescriptions.foldlM (hashProperty serializer s)
        FNVHash.fnvOffsetMinusMsb
      return toHexString hash

end Signature

/-- Exactly one of three holds. -/
def ExactlyOne (p q r : Prop) : Prop := p ∧ ¬ q ∧ ¬ r ∨ ¬ p ∧ q ∧ ¬ r ∨ ¬ p ∧ ¬ q ∧ r

namespace ServiceDocument

variable {β : Type*}

/-- `equals`, of the signatures. An exception that is no
`IllegalArgumentException` counts as a difference. -/
def equals (signature : ServiceDocument β → Except Thrown String)
    (currentDocument newDocument : ServiceDocument β) : Except Thrown Bool :=
  let result := do
    let currentSignature ← signature currentDocument
    let newSignature ← signature newDocument
    return currentSignature == newSignature
  match result with
  | .error .other => .ok false
  | result => result

/-- The update times are too close to tell the states apart by them. -/
def isWithinEpsilon (timeEpsilon : Int64) (stateA stateB : ServiceDocument β) : Bool :=
  (stateA.documentUpdateTimeMicros - stateB.documentUpdateTimeMicros).abs < timeEpsilon

/-- `compare`, with the exception that `equals` throws. It is asked for states of
one version only, whose times are close. -/
def tryCompare (signature : ServiceDocument β → Except Thrown String)
    (stateA : ServiceDocument β) (stateB : Option (ServiceDocument β)) (timeEpsilon : Int64) :
    Except Thrown (List DocumentRelationship) :=
  match stateB with
  | none => .ok (compare (fun _ _ => true) stateA none timeEpsilon)
  | some stateB =>
      if stateA.epoch = stateB.epoch ∧ stateA.documentVersion = stateB.documentVersion ∧
          isWithinEpsilon timeEpsilon stateA stateB then do
        let same ← equals signature stateA stateB
        return compare (fun _ _ => same) stateA (some stateB) timeEpsilon
      else .ok (compare (fun _ _ => true) stateA (some stateB) timeEpsilon)

/-! ## When a relationship holds -/

section Relations

variable {equals : ServiceDocument β → ServiceDocument β → Bool} {timeEpsilon : Int64}
  {a b : ServiceDocument β}

theorem isWithinEpsilon_comm :
    isWithinEpsilon timeEpsilon a b = isWithinEpsilon timeEpsilon b a := by
  unfold isWithinEpsilon
  rw [← Int64.neg_sub, Long.abs_neg]

/-- The newer state is preferred, and of two states of one version the later
one, if the times tell. -/
theorem preferred_mem_compare : .preferred ∈ compare equals a (some b) timeEpsilon ↔
    b.stamp < a.stamp ∨ a.stamp = b.stamp ∧ isWithinEpsilon timeEpsilon a b = false ∧
      0 < a.documentUpdateTimeMicros - b.documentUpdateTimeMicros := by
  rw [stamp_lt_iff, stamp_eq_iff, @eq_comm _ b.epoch]
  by_cases hnewer : b.epoch < a.epoch ∨
      a.epoch = b.epoch ∧ b.documentVersion < a.documentVersion
  · simp [compare, hnewer]
  · by_cases hequal : a.epoch = b.epoch ∧ a.documentVersion = b.documentVersion
    · simp only [compare, gt_iff_lt, if_neg hnewer, if_pos hequal, isWithinEpsilon]
      split_ifs <;> simp_all
    · simp only [compare, gt_iff_lt, if_neg hnewer, if_neg hequal, if_neg List.not_mem_nil]
      split_ifs <;> simp_all

theorem inConflict_mem_compare : .inConflict ∈ compare equals a (some b) timeEpsilon ↔
    a.stamp = b.stamp ∧ isWithinEpsilon timeEpsilon a b = true ∧ equals a b = false := by
  rw [stamp_eq_iff]
  by_cases hequal : a.epoch = b.epoch ∧ a.documentVersion = b.documentVersion
  · have hnewer : ¬ (b.epoch < a.epoch ∨
        a.epoch = b.epoch ∧ b.documentVersion < a.documentVersion) := by
      rw [hequal.1, hequal.2]
      simp
    simp only [compare, gt_iff_lt, if_neg hnewer, if_pos hequal, isWithinEpsilon]
    split_ifs <;> simp_all
  · simp only [compare, gt_iff_lt, if_neg hequal]
    split_ifs <;> simp_all

theorem equalVersion_mem_compare :
    .equalVersion ∈ compare equals a (some b) timeEpsilon ↔ a.stamp = b.stamp := by
  rw [stamp_eq_iff]
  by_cases hequal : a.epoch = b.epoch ∧ a.documentVersion = b.documentVersion
  · have hnewer : ¬ (b.epoch < a.epoch ∨
        a.epoch = b.epoch ∧ b.documentVersion < a.documentVersion) := by
      rw [hequal.1, hequal.2]
      simp
    simp only [compare, gt_iff_lt, if_neg hnewer, if_pos hequal]
    split_ifs <;> simp [hequal]
  · simp only [compare, gt_iff_lt, if_neg hequal]
    split_ifs <;> simp_all

/-- Not both of two states are preferred to the other, whatever the signatures. -/
theorem not_preferred_both {equals' : ServiceDocument β → ServiceDocument β → Bool} :
    ¬ (.preferred ∈ compare equals a (some b) timeEpsilon ∧
      .preferred ∈ compare equals' b (some a) timeEpsilon) := by
  rw [preferred_mem_compare, preferred_mem_compare]
  rintro ⟨hab | ⟨heq, -, htime⟩, hba | ⟨heq', -, htime'⟩⟩
  · exact lt_asymm hab hba
  · exact hab.ne' heq'.symm
  · exact hba.ne' heq.symm
  · rw [← Int64.neg_sub] at htime'
    exact Long.not_pos_neg htime htime'

end Relations

section Laws

variable {signature : ServiceDocument β → Except Thrown String} {timeEpsilon : Int64}
  {a b c : ServiceDocument β} {r r' : List DocumentRelationship}

/-- The order in which the signatures are computed matters for an exception
only. -/
theorem equals_comm {x y : Bool} (h : equals signature a b = .ok x)
    (h' : equals signature b a = .ok y) : x = y := by
  rcases ha : signature a with (m | _) | sa <;> rcases hb : signature b with (m' | _) | sb <;>
    simp only [equals, ha, hb] at h h' <;> cases h <;> cases h'
  all_goals first | rfl | exact Bool.beq_comm

theorem tryCompare_spec (h : tryCompare signature a (some b) timeEpsilon = .ok r) :
    ∃ same, r = compare (fun _ _ => same) a (some b) timeEpsilon ∧
      (a.stamp = b.stamp → isWithinEpsilon timeEpsilon a b = true →
        equals signature a b = .ok same) := by
  simp only [tryCompare] at h
  split_ifs at h with hread
  · obtain ⟨same, hsame, h⟩ := bind_eq_ok.mp h
    cases h
    exact ⟨same, rfl, fun _ _ => hsame⟩
  · cases h
    refine ⟨true, rfl, fun heq hwithin => absurd ?_ hread⟩
    obtain ⟨hepoch, hversion⟩ := stamp_eq_iff.mp heq
    exact ⟨hepoch, hversion, hwithin⟩

theorem inConflict_symm (h : tryCompare signature a (some b) timeEpsilon = .ok r)
    (h' : tryCompare signature b (some a) timeEpsilon = .ok r') (hr : .inConflict ∈ r) :
    .inConflict ∈ r' := by
  obtain ⟨same, rfl, hsame⟩ := tryCompare_spec h
  obtain ⟨same', rfl, hsame'⟩ := tryCompare_spec h'
  rw [inConflict_mem_compare] at hr ⊢
  obtain ⟨heq, hwithin, hdiffer⟩ := hr
  have hwithin' := hwithin
  rw [isWithinEpsilon_comm] at hwithin'
  have := equals_comm (hsame heq hwithin) (hsame' heq.symm hwithin')
  exact ⟨heq.symm, hwithin', this ▸ hdiffer⟩

/-- Two states of one version with different signatures: the times tell them
apart, or they are in conflict. A difference of zero and the least one, which is
its own absolute value, are within every epsilon. -/
theorem one_of_signature_ne {sa sb : String} (hepsilon : 1 ≤ timeEpsilon)
    (ha : signature a = .ok sa) (hb : signature b = .ok sb) (hne : sa ≠ sb)
    (heq : a.stamp = b.stamp) : ∃ r r', tryCompare signature a (some b) timeEpsilon = .ok r ∧
      tryCompare signature b (some a) timeEpsilon = .ok r' ∧
        ExactlyOne (.preferred ∈ r) (.preferred ∈ r') (.inConflict ∈ r) := by
  have hequals : ∀ {x y sx sy}, signature x = .ok sx → signature y = .ok sy → sx ≠ sy →
      equals signature x y = .ok false := by
    intro x y sx sy hx hy hxy
    simp only [equals, hx, hy]
    exact congrArg Except.ok (beq_eq_false_iff_ne.mpr hxy)
  have hcompare : ∀ {x y : ServiceDocument β}, equals signature x y = .ok false →
      ∃ r, tryCompare signature x (some y) timeEpsilon = .ok r := by
    intro x y hxy
    simp only [tryCompare, hxy]
    split_ifs
    · exact ⟨_, rfl⟩
    · exact ⟨_, rfl⟩
  obtain ⟨r, hr⟩ := hcompare (hequals ha hb hne)
  obtain ⟨r', hr'⟩ := hcompare (hequals hb ha hne.symm)
  refine ⟨r, r', hr, hr', ?_⟩
  obtain ⟨same, rfl, hsame⟩ := tryCompare_spec hr
  obtain ⟨same', rfl, -⟩ := tryCompare_spec hr'
  unfold ExactlyOne
  rw [preferred_mem_compare, preferred_mem_compare, inConflict_mem_compare,
    isWithinEpsilon_comm (a := b), heq]
  cases hwithin : isWithinEpsilon timeEpsilon a b with
  | true =>
      have hdiffer : same = false :=
        Except.ok.inj ((hsame heq hwithin).symm.trans (hequals ha hb hne))
      simp [hdiffer]
  | false =>
      have hfar : ¬ (a.documentUpdateTimeMicros - b.documentUpdateTimeMicros).abs <
          timeEpsilon := by
        simpa [isWithinEpsilon] using hwithin
      rw [← Int64.neg_sub (a := a.documentUpdateTimeMicros)]
      generalize a.documentUpdateTimeMicros - b.documentUpdateTimeMicros = d at hfar
      rcases Long.pos_or_pos_neg_of_abs hepsilon hfar with hpos | hpos
      · have hneg := Long.not_pos_neg hpos
        simp only [hpos, hneg, lt_irrefl, and_false, and_true, false_or, true_and]
        simp
      · have hneg := Long.not_pos_neg hpos
        rw [Int64.neg_neg] at hneg
        simp only [hpos, hneg, lt_irrefl, and_false, and_true, false_or, true_and]
        simp

/-- A state with a newer version is preferred without a look at the signatures. -/
theorem tryCompare_of_gt (h : b.stamp < a.stamp) :
    ∃ r, tryCompare signature a (some b) timeEpsilon = .ok r ∧ .preferred ∈ r := by
  have hne : ¬ (a.epoch = b.epoch ∧ a.documentVersion = b.documentVersion ∧
      isWithinEpsilon timeEpsilon a b = true) :=
    fun ⟨hepoch, hversion, _⟩ => h.ne' (stamp_eq_iff.mpr ⟨hepoch, hversion⟩)
  refine ⟨_, if_neg hne, ?_⟩
  exact (compare_of_gt h).1

end Laws

/-- **Comparison is a coherent preference.** For every epsilon of at least one
microsecond, of two states not both are preferred, a conflict is one from both
sides, states of one version with different signatures are told apart or in
conflict, and newer versions are preferred transitively. The signatures are those
of any description, under any serializer; where one cannot be computed `compare`
throws and has no result. -/
theorem compare_coherent {γ : Type*} (serializer : FieldValue γ → Int64 → Except Thrown Int64)
    (description : Option (List (PropertyDescription β γ))) (timeEpsilon : Int64)
    (hepsilon : 1 ≤ timeEpsilon) (a b c : ServiceDocument β) :
    let signature := computeSignature serializer description
    let compare x y := tryCompare signature x (some y) timeEpsilon
    (∀ r r', compare a b = .ok r → compare b a = .ok r' →
      ¬ (.preferred ∈ r ∧ .preferred ∈ r') ∧ (.inConflict ∈ r ↔ .inConflict ∈ r')) ∧
    (∀ sa sb, signature a = .ok sa → signature b = .ok sb → sa ≠ sb → a.stamp = b.stamp →
      ∃ r r', compare a b = .ok r ∧ compare b a = .ok r' ∧
        ExactlyOne (.preferred ∈ r) (.preferred ∈ r') (.inConflict ∈ r)) ∧
    (∀ r r', compare a b = .ok r → .preferred ∈ r → b.stamp < a.stamp →
      compare b c = .ok r' → .preferred ∈ r' → c.stamp < b.stamp →
        ∃ r'', compare a c = .ok r'' ∧ .preferred ∈ r'') := by
  intro signature compare
  refine ⟨fun r r' hr hr' => ⟨?_, inConflict_symm hr hr', inConflict_symm hr' hr⟩, ?_, ?_⟩
  · obtain ⟨same, rfl, -⟩ := tryCompare_spec hr
    obtain ⟨same', rfl, -⟩ := tryCompare_spec hr'
    exact not_preferred_both
  · intro sa sb ha hb hne heq
    exact one_of_signature_ne hepsilon ha hb hne heq
  · intro r r' _ _ hab _ _ hbc
    exact tryCompare_of_gt (hbc.trans hab)

/-- A description with one property that counts, the owner. -/
def ownerDescription : List (PropertyDescription Unit Unit) :=
  [{ getPropertyValue := fun d => d.documentOwner.map .string }]

/-- Version 3 as `owner` changed it. -/
def changedBy (owner : String) (micros : Int64) : ServiceDocument Unit :=
  { documentVersion := 3
    documentUpdateTimeMicros := micros
    documentOwner := some owner
    body := () }

/-- Two owners change a state within the epsilon: the signatures differ, and the
states are in conflict. -/
theorem compare_coherent_two_owners :
    let signature := computeSignature (fun _ _ => .error .other) (some ownerDescription)
    let compare x y := tryCompare signature x (some y) 5
    (1 : Int64) ≤ 5 ∧ signature (changedBy "a" 10) ≠ signature (changedBy "b" 12) ∧
      compare (changedBy "a" 10) (changedBy "b" 12) = .ok [.equalVersion, .inConflict] ∧
        ∃ r r', compare (changedBy "a" 10) (changedBy "b" 12) = .ok r ∧
          compare (changedBy "b" 12) (changedBy "a" 10) = .ok r' ∧
            ExactlyOne (.preferred ∈ r) (.preferred ∈ r') (.inConflict ∈ r) := by
  intro signature compare
  have ha : signature (changedBy "a" 10) = .ok "f7c13c96320c91df" := by decide +kernel
  have hb : signature (changedBy "b" 12) = .ok "f7c73c963216c3df" := by decide +kernel
  refine ⟨by decide, by rw [ha, hb]; decide, by decide +kernel, ?_⟩
  exact (compare_coherent _ (some ownerDescription) 5 (by decide) (changedBy "a" 10)
    (changedBy "b" 12) (changedBy "b" 12)).2.1 _ _ ha hb (by decide) rfl

end ServiceDocument

end Xenon.Common
