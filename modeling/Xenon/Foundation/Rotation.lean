import Mathlib.Algebra.BigOperators.Group.List.Basic
import Mathlib.Algebra.Ring.Nat
import Xenon.Foundation.SortedMap

/-!
# Going round a sorted map

From a key on the keys are visited upwards, and from the greatest one on from the least again.
`Ahead a b c` says that on the way up from `a` the key `b` is met before `c` or with it. What is met
first is ahead of every key of the map (`SortedMap.ahead_of_next`), so that a place which only moves
by such steps does not pass a key that stays in the map (`Within.step`).
-/

namespace Xenon.Foundation

/-! ## The way round -/

section Round

variable {κ : Type*} [LinearOrder κ] {a b c k : κ}

/-- On the way up from `a`, and round, `b` comes no later than `c`. -/
def Ahead (a b c : κ) : Prop := if a < c then a < b ∧ b ≤ c else a < b ∨ b ≤ c

/-- On the way up from `k`, and round, `a` comes before `c`, or it is `k` itself. -/
def Within (k a c : κ) : Prop := if k < c then k ≤ a ∧ a < c else k ≤ a ∨ a < c

theorem within_self (k c : κ) : Within k k c := by
  unfold Within
  split_ifs with hlt
  · exact ⟨le_rfl, hlt⟩
  · exact Or.inl le_rfl

/-- A step that does not pass `c` ends there, or behind `k` and before `c`. -/
theorem Within.step (h : Within k a c) (hahead : Ahead a b c) (hne : b ≠ c) :
    Within k b c ∧ b ≠ k := by
  unfold Within at h ⊢
  unfold Ahead at hahead
  grind

/-- Before `c` a key that is not `c` can be skipped. -/
theorem Ahead.trans (h : Ahead a b c) (hne : b ≠ c) (hahead : Ahead b k c) : Ahead a k c := by
  unfold Ahead at h hahead ⊢
  grind

end Round

/-! ## The entries of a sorted map -/

namespace SortedMap

variable {κ ν : Type*} [LinearOrder κ] {m : SortedMap κ ν} {key k a : κ} {value v : ν}
  {p : κ × ν}

def get (m : SortedMap κ ν) (key : κ) : Option ν :=
  (m.entries.find? fun p => p.1 = key).map Prod.snd

def remove (m : SortedMap κ ν) (key : κ) : SortedMap κ ν :=
  ⟨m.entries.filter fun p => p.1 ≠ key, m.sorted.filter _⟩

/-- The entry with the least key above `key`. -/
def higherEntry (m : SortedMap κ ν) (key : κ) : Option (κ × ν) :=
  m.entries.find? fun p => key < p.1

/-- The first entry above `key`, or the first entry of all. -/
def next (m : SortedMap κ ν) (key : κ) : Option (κ × ν) :=
  (m.higherEntry key).or m.firstEntry

theorem get_eq_some : m.get key = some v ↔ (key, v) ∈ m.entries := by
  constructor
  · intro h
    obtain ⟨⟨k, w⟩, hfind, rfl⟩ := Option.map_eq_some_iff.mp h
    obtain rfl : k = key := by simpa using List.find?_some hfind
    exact List.mem_of_find?_eq_some hfind
  · intro h
    obtain ⟨q, hq⟩ := Option.isSome_iff_exists.mp
      (List.find?_isSome (p := fun p : κ × ν => decide (p.1 = key)).mpr ⟨_, h, by simp⟩)
    have hkey : q.1 = key := by simpa using List.find?_some hq
    have heq := eq_of_key (List.mem_of_find?_eq_some hq) h hkey
    rw [get, hq, heq]
    rfl

theorem get_eq_none : m.get key = none ↔ ∀ v, (key, v) ∉ m.entries := by
  rw [Option.eq_none_iff_forall_ne_some]
  exact forall_congr' fun v => not_congr get_eq_some

theorem mem_remove : p ∈ (m.remove key).entries ↔ p ∈ m.entries ∧ p.1 ≠ key := by
  simp [remove]

theorem keys_remove : (m.remove key).keys = m.keys.erase key := by
  ext k
  rw [Finset.mem_erase, mem_keys, mem_keys]
  constructor
  · rintro ⟨v, hv⟩
    exact ⟨(mem_remove.mp hv).2, v, (mem_remove.mp hv).1⟩
  · rintro ⟨hne, v, hv⟩
    exact ⟨v, mem_remove.mpr ⟨hv, hne⟩⟩

theorem get_remove_self : (m.remove key).get key = none := by
  rw [get_eq_none]
  exact fun v hv => (mem_remove.mp hv).2 rfl

theorem get_remove_of_ne (hne : k ≠ key) : (m.remove key).get k = m.get k := by
  apply Option.ext
  intro v
  rw [get_eq_some, get_eq_some, mem_remove]
  exact and_iff_left hne

theorem get_insert_self : (m.insert key value).get key = some value :=
  get_eq_some.mpr (mem_insert_self m key value)

theorem get_insert_of_ne (hne : k ≠ key) : (m.insert key value).get k = m.get k := by
  apply Option.ext
  intro v
  rw [get_eq_some, get_eq_some, mem_insert]
  simp [hne]

theorem length_remove_lt (h : p ∈ m.entries) :
    (m.remove p.1).entries.length < m.entries.length :=
  List.length_filter_lt_length_iff_exists.mpr ⟨p, h, by simp⟩

/-! ### The next entry -/

theorem mem_higherEntry (h : m.higherEntry key = some p) : p ∈ m.entries ∧ key < p.1 := by
  unfold higherEntry at h
  have hlt := List.find?_some h
  exact ⟨List.mem_of_find?_eq_some h, by simpa using hlt⟩

theorem exists_higherEntry (hp : p ∈ m.entries) (hkey : key < p.1) :
    ∃ q, m.higherEntry key = some q ∧ q.1 ≤ p.1 := by
  obtain ⟨entries, hsorted⟩ := m
  change p ∈ entries at hp
  show ∃ q, entries.find? (fun q => key < q.1) = some q ∧ q.1 ≤ p.1
  induction entries with
  | nil => cases hp
  | cons r rs ih =>
      obtain ⟨hr, hrs⟩ := List.pairwise_cons.mp hsorted
      by_cases hlt : key < r.1
      · refine ⟨r, List.find?_cons_of_pos (decide_eq_true hlt), ?_⟩
        rcases List.mem_cons.mp hp with rfl | hp
        · exact le_refl _
        · exact le_of_lt (hr p hp)
      · rw [List.find?_cons_of_neg (by simpa using hlt)]
        refine ih hrs ((List.mem_cons.mp hp).resolve_left ?_)
        rintro rfl
        exact hlt hkey

theorem mem_of_next (h : m.next a = some p) : p ∈ m.entries := by
  rcases Option.or_eq_some_iff.mp h with h | ⟨-, h⟩
  · exact List.mem_of_find?_eq_some h
  · exact (mem_firstEntry h).1

theorem next_eq_none : m.next a = none ↔ m.entries = [] := by
  rw [next, Option.or_eq_none_iff, firstEntry, List.head?_eq_none_iff, higherEntry]
  exact and_iff_right_of_imp fun h => by rw [h, List.find?_nil]

/-- Nothing in the map is met before the next entry. -/
theorem ahead_of_next (h : m.next a = some p) (hv : (k, v) ∈ m.entries) : Ahead a p.1 k := by
  rcases Option.or_eq_some_iff.mp h with h | ⟨hnone, h⟩
  · -- the first of the keys above `a`
    have hlt := (mem_higherEntry h).2
    have hfirst : a < k → p.1 ≤ k := by
      intro hak
      obtain ⟨q, hq, hle⟩ := exists_higherEntry hv hak
      obtain rfl := Option.some.inj (h.symm.trans hq)
      exact hle
    unfold Ahead
    split_ifs with hak
    · exact ⟨hlt, hfirst hak⟩
    · exact Or.inl hlt
  · -- no key is above `a`
    have hle : ¬ a < k := by simpa using List.find?_eq_none.mp hnone _ hv
    rw [Ahead, if_neg hle]
    exact Or.inr ((mem_firstEntry h).2 k (mem_keys.mpr ⟨v, hv⟩))

/-! ### Sums over the entries -/

/-- What the values weigh together. -/
def weight (f : ν → Nat) (m : SortedMap κ ν) : Nat := (m.entries.map fun p => f p.2).sum

/-- A value in the place of another. -/
theorem weight_insert (f : ν → Nat) (m : SortedMap κ ν) (key : κ) (value : ν) :
    (m.insert key value).weight f + ((m.get key).map f).getD 0 = m.weight f + f value := by
  obtain ⟨ps, hsorted⟩ := m
  simp only [weight, insert, get]
  induction ps with
  | nil => simp [insertEntry]
  | cons p ps ih =>
      obtain ⟨hp, hps⟩ := List.pairwise_cons.mp hsorted
      unfold insertEntry
      split_ifs with hlt heq
      · have hnone : (p :: ps).find? (fun q => q.1 = key) = none := by
          rw [List.find?_eq_none]
          intro q hq
          have hle : key < q.1 := by
            rcases List.mem_cons.mp hq with rfl | hq
            · exact hlt
            · exact hlt.trans (hp q hq)
          simpa using hle.ne'
        rw [hnone]
        simp only [List.map_cons, List.sum_cons, Option.map_none, Option.getD_none]
        omega
      · rw [List.find?_cons_of_pos (by simpa using heq.symm)]
        simp only [List.map_cons, List.sum_cons, Option.map_some, Option.getD_some]
        omega
      · rw [List.find?_cons_of_neg (by simpa using Ne.symm heq)]
        have := ih hps
        simp only [List.map_cons, List.sum_cons]
        omega

/-- A value that weighs nothing can be removed. -/
theorem weight_remove (f : ν → Nat) (h : (key, value) ∈ m.entries) (hzero : f value = 0) :
    (m.remove key).weight f = m.weight f := by
  have hvalue : ∀ q ∈ m.entries, q.1 = key → f q.2 = 0 := by
    intro q hq hkey
    rw [eq_of_key hq h hkey]
    exact hzero
  show ((m.entries.filter fun p => p.1 ≠ key).map fun p => f p.2).sum =
    (m.entries.map fun p => f p.2).sum
  revert hvalue
  generalize m.entries = ps
  intro hvalue
  induction ps with
  | nil => rfl
  | cons q ps ih =>
      have hps := ih fun q' hq' => hvalue q' (List.mem_cons_of_mem _ hq')
      by_cases hkey : q.1 = key
      · rw [List.filter_cons_of_neg (by simpa using hkey), hps, List.map_cons, List.sum_cons,
          hvalue q List.mem_cons_self hkey, Nat.zero_add]
      · rw [List.filter_cons_of_pos (by simpa using hkey), List.map_cons, List.map_cons,
          List.sum_cons, List.sum_cons, hps]

end SortedMap

end Xenon.Foundation
