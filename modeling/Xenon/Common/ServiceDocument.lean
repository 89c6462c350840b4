import Mathlib.Data.Prod.Lex
import Mathlib.Data.Int.Order.Basic
import Xenon.Common.Operation

/-!
# Service documents

The built in fields of `ServiceDocument` that versioning and synchronization
read, and `ServiceDocument.compare`. The fields of the service's own state are
one value `β`; `ServiceDocument.equals` compares signatures computed from them
under the document description and is a parameter.
-/

namespace Xenon.Common

/-- `com.vmware.xenon.common.ServiceDocument`. `className` stands for
`getClass()`. -/
structure ServiceDocument (β : Type*) where
  documentSelfLink : Option String := none
  documentEpoch : Option Int64 := none
  documentVersion : Int64 := 0
  documentUpdateTimeMicros : Int64 := 0
  documentUpdateAction : Option String := none
  documentOwner : Option String := none
  documentTransactionId : Option String := none
  className : String := "ServiceDocument"
  body : β
deriving DecidableEq

/-- `ServiceDocument.DocumentRelationship`. -/
inductive DocumentRelationship where
  | equalVersion | equalTime | newerVersion | newerUpdateTime | preferred | inConflict
deriving DecidableEq

namespace ServiceDocument

variable {β : Type*}

/-- A missing epoch counts as zero. -/
def epoch (d : ServiceDocument β) : Int64 := d.documentEpoch.getD 0

/-- The pair by which states are ordered. -/
def stamp (d : ServiceDocument β) : Int ×ₗ Int :=
  toLex (d.epoch.toInt, d.documentVersion.toInt)

/-- `compare`, of a state with another one that may be missing. The time
difference is a `long` and may wrap. -/
def compare (equals : ServiceDocument β → ServiceDocument β → Bool)
    (stateA : ServiceDocument β) (stateB : Option (ServiceDocument β))
    (timeEpsilon : Int64) : List DocumentRelationship :=
  match stateB with
  | none => [.preferred]
  | some stateB =>
      let newer := stateA.epoch > stateB.epoch ∨
        (stateA.epoch = stateB.epoch ∧ stateA.documentVersion > stateB.documentVersion)
      let equal := stateA.epoch = stateB.epoch ∧
        stateA.documentVersion = stateB.documentVersion
      let version :=
        if newer then [.newerVersion] else if equal then [.equalVersion] else []
      let timeDifference :=
        stateA.documentUpdateTimeMicros - stateB.documentUpdateTimeMicros
      let time :=
        if timeDifference = 0 then [.equalTime]
        else if timeDifference > 0 then [.newerUpdateTime] else []
      if .equalVersion ∈ version then
        if timeDifference.abs < timeEpsilon then
          version ++ time ++ if equals stateA stateB then [] else [.inConflict]
        else version ++ time ++ if .newerUpdateTime ∈ time then [.preferred] else []
      else version ++ time ++ if newer then [.preferred] else []

section Compare

variable {equals : ServiceDocument β → ServiceDocument β → Bool} {timeEpsilon : Int64}
  {a b : ServiceDocument β}

theorem stamp_lt_iff : a.stamp < b.stamp ↔ a.epoch < b.epoch ∨
    a.epoch = b.epoch ∧ a.documentVersion < b.documentVersion := by
  rw [stamp, stamp, Prod.Lex.lt_iff, Int64.lt_iff_toInt_lt, ← Int64.toInt_inj,
    Int64.lt_iff_toInt_lt]
  rfl

theorem stamp_eq_iff : a.stamp = b.stamp ↔
    a.epoch = b.epoch ∧ a.documentVersion = b.documentVersion := by
  rw [stamp, stamp, ← Int64.toInt_inj, ← Int64.toInt_inj]
  exact Prod.mk_inj

/-- A state with a greater stamp is preferred, without conflict. -/
theorem compare_of_gt (h : b.stamp < a.stamp) :
    .preferred ∈ compare equals a (some b) timeEpsilon ∧
      .inConflict ∉ compare equals a (some b) timeEpsilon := by
  have hnewer := stamp_lt_iff.mp h
  rw [@eq_comm _ b.epoch] at hnewer
  have hequal : DocumentRelationship.equalVersion ∉ [.newerVersion] := by decide
  simp only [compare, gt_iff_lt, if_pos hnewer, if_neg hequal]
  split_ifs <;> simp

/-- A preferred state has at least the stamp of the other. -/
theorem stamp_le_of_preferred
    (h : .preferred ∈ compare equals a (some b) timeEpsilon) : b.stamp ≤ a.stamp := by
  by_contra hlt
  rw [not_le, stamp_lt_iff] at hlt
  have hnewer : ¬ (b.epoch < a.epoch ∨
      (a.epoch = b.epoch ∧ b.documentVersion < a.documentVersion)) := by
    simp only [Int64.lt_iff_toInt_lt, ← Int64.toInt_inj] at hlt ⊢
    omega
  have hequal : ¬ (a.epoch = b.epoch ∧ a.documentVersion = b.documentVersion) := by
    simp only [Int64.lt_iff_toInt_lt, ← Int64.toInt_inj] at hlt ⊢
    omega
  simp only [compare, gt_iff_lt, if_neg hnewer, if_neg hequal,
    if_neg List.not_mem_nil] at h
  split_ifs at h <;> simp at h

end Compare

end ServiceDocument

end Xenon.Common
