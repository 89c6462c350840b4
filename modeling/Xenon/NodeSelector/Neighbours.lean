import Mathlib.RingTheory.Int.Basic
import Mathlib.Tactic.Linarith
import Mathlib.Tactic.Ring
import Xenon.Foundation.Long
import Xenon.NodeSelector.Selection

/-!
# Neighbours

The bounded map `ClosestNNeighbours` after any calls of `put`, and the distances that it is asked to
hold.
-/

namespace Xenon.NodeSelector

open Xenon.Foundation Xenon.NodeGroup

/-! ## The bounded map -/

/-- **The map holds the nearest.** After any calls of `put` its keys are the `maxN` smallest
distances of the calls, or all of them, each with a node of a call with that distance. -/
theorem putAll_nearest (maxN : Int32) (hn : 1 ≤ maxN.toInt) (puts : List (Int × NodeState)) :
    ∃ closest, putAll maxN puts = .ok closest ∧
      closest.keys = leastKeys maxN.toInt.toNat (puts.map Prod.fst).toFinset ∧
      closest.entries.length = min maxN.toInt.toNat (puts.map Prod.fst).toFinset.card ∧
      ∀ p ∈ closest.entries, p ∈ puts := by
  refine ⟨_, putAll_eq hn puts, ?_, ?_, fun p hp => ?_⟩
  · ext k
    rw [SortedMap.mem_keys, ← SortedMap.keys_ofPairs]
    constructor
    · rintro ⟨v, hv⟩
      exact (SortedMap.mem_take.mp hv).2
    · intro hk
      obtain ⟨v, hv⟩ := SortedMap.mem_keys.mp (mem_leastKeys.mp hk).1
      exact ⟨v, SortedMap.mem_take.mpr ⟨hv, hk⟩⟩
  · rw [← SortedMap.keys_ofPairs, SortedMap.card_keys]
    exact List.length_take
  · exact SortedMap.mem_of_mem_ofPairs (SortedMap.mem_take.mp hp).1

def neighbour (id : String) : NodeState := ⟨id, none, .available, {.peer}, 1, 1, 0, 0, 0⟩

/-- Two nodes at one distance, a node that is too far, and one that pushes another out. -/
theorem putAll_nearest_of_four :
    (1 : Int) ≤ (2 : Int32).toInt ∧ ∃ closest,
      putAll 2 [(5, neighbour "a"), (9, neighbour "b"), (3, neighbour "c"),
          (5, neighbour "d")] = .ok closest ∧
        closest.keys = {3, 5} ∧ closest.values.map NodeState.id = ["c", "d"] := by
  obtain ⟨closest, hput, -, -, -⟩ := putAll_nearest 2 (by decide)
    [(5, neighbour "a"), (9, neighbour "b"), (3, neighbour "c"), (5, neighbour "d")]
  refine ⟨by decide, closest, hput, ?_⟩
  cases hput
  decide

/-! ## Squares of longs -/

section Squares

variable {x : Int}

/-- A square that is divided by an odd power of two is divided by the next one as well. -/
theorem dvd_of_dvd_square (h : 2 ^ 63 ∣ x * x) : 2 ^ 32 ∣ x := by
  have hhalf : (2 : Int) ^ 31 ∣ x := by
    rw [← Int.pow_dvd_pow_iff two_ne_zero, ← pow_mul, sq]
    exact (pow_dvd_pow 2 (by decide)).trans h
  obtain ⟨y, rfl⟩ := hhalf
  have hsquare : (2 : Int) ∣ y * y := by
    have heq : (2 : Int) ^ 31 * y * (2 ^ 31 * y) = 2 ^ 62 * (y * y) := by ring
    rw [heq, pow_succ] at h
    exact (mul_dvd_mul_iff_left (by norm_num)).mp h
  have hy : (2 : Int) ∣ y := Int.prime_two.dvd_of_dvd_pow (sq y ▸ hsquare)
  rw [pow_succ]
  exact mul_dvd_mul_left _ hy

theorem square_dvd_of_dvd (h : 2 ^ 32 ∣ x) : 2 ^ 64 ∣ x * x := by
  have hmul := mul_dvd_mul h h
  rwa [← pow_add] at hmul

end Squares

theorem toInt_square (d : Int64) : (d * d).toInt = (d.toInt * d.toInt).bmod (2 ^ 64) :=
  Int64.toInt_mul d d

/-- The least long is no square. -/
theorem square_ne_minValue (d : Int64) : d * d ≠ Int64.minValue := by
  intro h
  have hmod := toInt_square d
  rw [h, show Int64.minValue.toInt = -2 ^ 63 by decide] at hmod
  have hdvd : (2 : Int) ^ 63 ∣ d.toInt * d.toInt := by
    generalize d.toInt * d.toInt = a at hmod
    rw [Int.bmod_def] at hmod
    split_ifs at hmod <;> omega
  have hsquare := square_dvd_of_dvd (dvd_of_dvd_square hdvd)
  rw [Int.bmod_eq_zero_of_dvd (by exact_mod_cast hsquare)] at hmod
  cases hmod

theorem square_eq_zero_iff (d : Int64) : d * d = 0 ↔ 2 ^ 32 ∣ d.toInt := by
  rw [← Int64.toInt_inj, toInt_square, Int64.toInt_zero]
  constructor
  · intro h
    refine dvd_of_dvd_square ?_
    generalize d.toInt * d.toInt = a at h
    rw [Int.bmod_def] at h
    split_ifs at h <;> omega
  · intro h
    exact Int.bmod_eq_zero_of_dvd (by exact_mod_cast square_dvd_of_dvd h)

/-! ## Distances -/

/-- **Distances are never negative**: the absolute value is not that of the least long. Nodes have
the distance zero if their hashes are those of the key modulo `2 ^ 32`. -/
theorem distance_nonneg (sel : Selector) (key id : String) :
    0 ≤ (sel.distance key id).toInt ∧
      (sel.distance key id = 0 ↔
        2 ^ 32 ∣ ((sel.hash id).toInt - (sel.hash key).toInt) % 2 ^ 64) ∧
      (sel.hash id = sel.hash key → sel.distance key id = 0) := by
  have habs : (sel.distance key id).toInt =
      ((sel.hash id - sel.hash key) * (sel.hash id - sel.hash key)).toInt.natAbs :=
    Long.toInt_abs (square_ne_minValue _)
  have hzero : sel.distance key id = 0 ↔ 2 ^ 32 ∣ (sel.hash id - sel.hash key).toInt := by
    rw [← square_eq_zero_iff, ← Int64.toInt_inj, ← Int64.toInt_inj, habs, Int64.toInt_zero]
    omega
  refine ⟨by rw [habs]; exact Int.natCast_nonneg _, ?_, fun heq => ?_⟩
  · rw [hzero, Int64.toInt_sub, Int.bmod_def]
    generalize (sel.hash id).toInt - (sel.hash key).toInt = a
    split_ifs <;> omega
  · rw [hzero, heq, Int64.sub_self]
    exact dvd_zero _

end Xenon.NodeSelector
