import Mathlib.Data.Finset.Card
import Mathlib.Data.Finset.Image
import Mathlib.Data.Finset.Sort
import Mathlib.Order.Lattice

/-!
# Sorted maps and their least keys

A map that is kept as the list of its entries, sorted by their keys, and what is
left when only its `n` first entries are kept. Which keys these are does not
depend on how the map came about: they are the `n` least ones (`leastKeys`).
Keeping the first entries after every insertion is the same as keeping them at
the end (`take_insert_take`), so a map of bounded size needs no induction of its
own.
-/

namespace Xenon.Foundation

/-! ## The least elements of a set -/

section LeastKeys

variable {κ : Type*} [LinearOrder κ]

/-- The elements of which fewer than `n` are below. -/
def leastKeys (n : Nat) (keys : Finset κ) : Finset κ :=
  keys.filter fun k => (keys.filter (· < k)).card < n

variable {n : Nat} {keys : Finset κ} {k k' : κ}

theorem mem_leastKeys : k ∈ leastKeys n keys ↔ k ∈ keys ∧ (keys.filter (· < k)).card < n :=
  Finset.mem_filter

theorem card_below_lt (hk : k ∈ keys) (hlt : k < k') :
    (keys.filter (· < k)).card < (keys.filter (· < k')).card := by
  apply Finset.card_lt_card
  refine (Finset.ssubset_iff_of_subset fun j hj => ?_).mpr ⟨k, ?_, ?_⟩
  · rw [Finset.mem_filter] at hj ⊢
    exact ⟨hj.1, hj.2.trans hlt⟩
  · exact Finset.mem_filter.mpr ⟨hk, hlt⟩
  · exact fun h => lt_irrefl k (Finset.mem_filter.mp h).2

/-- What is below one of the least elements is one of them. -/
theorem leastKeys_of_le (h : k ∈ leastKeys n keys) (hk' : k' ∈ keys) (hle : k' ≤ k) :
    k' ∈ leastKeys n keys := by
  rw [mem_leastKeys] at h ⊢
  refine ⟨hk', lt_of_le_of_lt (Finset.card_le_card fun j hj => ?_) h.2⟩
  rw [Finset.mem_filter] at hj ⊢
  exact ⟨hj.1, hj.2.trans_le hle⟩

/-- A new element pushes others out and lets none in. -/
theorem leastKeys_of_insert (h : k ∈ leastKeys n (insert k' keys)) (hk : k ∈ keys) :
    k ∈ leastKeys n keys := by
  rw [mem_leastKeys] at h ⊢
  refine ⟨hk, lt_of_le_of_lt (Finset.card_le_card ?_) h.2⟩
  exact Finset.filter_subset_filter _ (Finset.subset_insert _ _)

/-- A new element pushes at most one out. -/
theorem eq_of_pushed_out {j : κ} (hk : k ∈ leastKeys n keys)
    (hout : k ∉ leastKeys n (insert k' keys)) (hj : j ∈ leastKeys n keys)
    (hjout : j ∉ leastKeys n (insert k' keys)) : k = j := by
  -- both have `n - 1` elements below
  have hcount : ∀ {i}, i ∈ leastKeys n keys → i ∉ leastKeys n (insert k' keys) →
      (keys.filter (· < i)).card + 1 = n := by
    intro i hi hiout
    rw [mem_leastKeys] at hi hiout
    have hle : ((insert k' keys).filter (· < i)).card ≤ (keys.filter (· < i)).card + 1 := by
      rw [Finset.filter_insert]
      split_ifs
      · exact Finset.card_insert_le _ _
      · exact Nat.le_succ _
    have hge : n ≤ ((insert k' keys).filter (· < i)).card :=
      not_lt.mp fun hlt => hiout ⟨Finset.mem_insert_of_mem hi.1, hlt⟩
    have := hi.2
    omega
  have hkc := hcount hk hout
  have hjc := hcount hj hjout
  rcases lt_trichotomy k j with hlt | heq | hlt
  · have := card_below_lt (mem_leastKeys.mp hk).1 hlt
    omega
  · exact heq
  · have := card_below_lt (mem_leastKeys.mp hj).1 hlt
    omega

end LeastKeys

/-! ## The highest elements of a set -/

section HighestKeys

variable {κ : Type*} [LinearOrder κ]

/-- The elements of which fewer than `n` are above. -/
def highestKeys (n : Nat) (keys : Finset κ) : Finset κ :=
  keys.filter fun k => (keys.filter (k < ·)).card < n

/-- A set of at most `n` elements, with nothing left out before there are `n`, and nothing left out
above one of them. -/
structure Highest (n : Nat) (keys top : Finset κ) : Prop where
  subset : top ⊆ keys
  card_le : top.card ≤ n
  all : top.card < n → top = keys
  above : ∀ k ∈ keys, k ∉ top → ∀ j ∈ top, k < j

namespace Highest

variable {n : Nat} {keys top : Finset κ} {k oldest : κ}

/-- There is one such set. -/
theorem eq_highestKeys (h : Highest n keys top) : top = highestKeys n keys := by
  ext k
  rw [highestKeys, Finset.mem_filter]
  constructor
  · intro hk
    refine ⟨h.subset hk, ?_⟩
    have habove : keys.filter (k < ·) ⊆ top.erase k := by
      intro j hj
      obtain ⟨hj, hlt⟩ := Finset.mem_filter.mp hj
      refine Finset.mem_erase.mpr ⟨hlt.ne', ?_⟩
      by_contra hnot
      exact lt_asymm hlt (h.above j hj hnot k hk)
    have hcard := Finset.card_le_card habove
    rw [Finset.card_erase_of_mem hk] at hcard
    have := Finset.card_pos.mpr ⟨k, hk⟩
    have := h.card_le
    omega
  · rintro ⟨hk, hlt⟩
    by_contra hnot
    have hbelow : top ⊆ keys.filter (k < ·) := fun j hj =>
      Finset.mem_filter.mpr ⟨h.subset hj, h.above k hk hnot j hj⟩
    have hcard := Finset.card_le_card hbelow
    have hall := h.all (by omega)
    rw [hall] at hnot
    exact hnot hk

theorem empty (n : Nat) : Highest n (∅ : Finset κ) ∅ :=
  ⟨Finset.Subset.refl _, Nat.zero_le _, fun _ => rfl, fun _ _ _ _ hj => by cases hj⟩

/-- An element that is there makes no difference. -/
theorem insert_of_mem (h : Highest n keys top) (hk : k ∈ top) : Highest n (insert k keys) top := by
  rwa [Finset.insert_eq_of_mem (h.subset hk)]

/-- While there are few, nothing is left out. -/
theorem insert_of_card_lt (h : Highest n keys top) (hk : k ∉ top) (hlt : top.card < n) :
    Highest n (insert k keys) (insert k top) := by
  obtain rfl := h.all hlt
  refine ⟨Finset.Subset.refl _, ?_, fun _ => rfl, fun j hj hnot => absurd hj hnot⟩
  rw [Finset.card_insert_of_notMem hk]
  exact hlt

/-- A new element takes the place of the lowest one, if it is above. -/
theorem insert_of_lt (h : Highest n keys top) (hfull : top.card = n) (hmem : oldest ∈ top)
    (hleast : ∀ j ∈ top, oldest ≤ j) (hk : k ∉ top) (hlt : oldest < k) :
    Highest n (insert k keys) (insert k (top.erase oldest)) := by
  have hcard : (insert k (top.erase oldest)).card = n := by
    have hpos := Finset.card_pos.mpr ⟨oldest, hmem⟩
    rw [Finset.card_insert_of_notMem fun hmem => hk (Finset.mem_of_mem_erase hmem),
      Finset.card_erase_of_mem hmem]
    omega
  refine ⟨?_, hcard.le, fun hlt => absurd hcard hlt.ne, ?_⟩
  · exact Finset.insert_subset_insert k ((Finset.erase_subset oldest top).trans h.subset)
  · intro j hj hnot i hi
    rw [Finset.mem_insert, Finset.mem_erase, not_or] at hnot
    have hj := (Finset.mem_insert.mp hj).resolve_left hnot.1
    -- what is left out is not above the one that was the lowest
    have hle : j ≤ oldest := by
      by_cases htop : j ∈ top
      · by_contra hgt
        exact hnot.2 ⟨fun heq => hgt (heq ▸ le_refl j), htop⟩
      · exact (h.above j hj htop oldest hmem).le
    rcases Finset.mem_insert.mp hi with rfl | hi
    · exact lt_of_le_of_lt hle hlt
    · obtain ⟨hne, hi⟩ := Finset.mem_erase.mp hi
      exact lt_of_le_of_lt hle (lt_of_le_of_ne (hleast i hi) (Ne.symm hne))

end Highest

end HighestKeys

/-! ## Ties -/

section Ties

variable {α κ : Type*} [LinearOrder κ]

/-- Two elements with one key have `n` elements before them. -/
def Untied (n : Nat) (key : α → κ) (s : Finset α) : Prop :=
  ∀ a ∈ s, ∀ b ∈ s, a ≠ b → key a = key b → n ≤ (s.filter fun c => key c < key a).card

variable {n : Nat} {key : α → κ} {s t : Finset α}

/-- As far as the first `n` go, an untied set has as many keys as elements. -/
theorem Untied.card_image (h : Untied n key s) (hsub : t ⊆ s)
    (hdown : ∀ a ∈ t, ∀ c ∈ s, key c < key a → c ∈ t) (hn : n ≤ t.card) :
    n ≤ (t.image key).card := by
  classical
  by_cases hinj : Set.InjOn key t
  · rwa [Finset.card_image_of_injOn hinj]
  · -- before the first tie there are `n` elements, with as many keys
    have htied : (t.filter fun a => ∃ b ∈ t, a ≠ b ∧ key a = key b).Nonempty := by
      unfold Set.InjOn at hinj
      push Not at hinj
      obtain ⟨a, ha, b, hb, heq, hne⟩ := hinj
      exact ⟨a, Finset.mem_filter.mpr ⟨ha, b, hb, hne, heq⟩⟩
    obtain ⟨a, ha, hmin⟩ := Finset.exists_min_image _ key htied
    obtain ⟨hat, b, hbt, hne, heq⟩ := Finset.mem_filter.mp ha
    have hbefore : (s.filter fun c => key c < key a) ⊆ t := by
      intro c hc
      obtain ⟨hcs, hlt⟩ := Finset.mem_filter.mp hc
      exact hdown a hat c hcs hlt
    have hinj' : Set.InjOn key (s.filter fun c => key c < key a) := by
      intro c hc c' hc' hkey
      by_contra hcc
      have hle := hmin c (Finset.mem_filter.mpr ⟨hbefore hc, c', hbefore hc', hcc, hkey⟩)
      exact absurd hle (not_le.mpr (Finset.mem_filter.mp (Finset.mem_coe.mp hc)).2)
    calc n ≤ (s.filter fun c => key c < key a).card := h a (hsub hat) b (hsub hbt) hne heq
      _ = ((s.filter fun c => key c < key a).image key).card :=
          (Finset.card_image_of_injOn hinj').symm
      _ ≤ (t.image key).card := Finset.card_le_card (Finset.image_subset_image hbefore)

/-- The elements before a key have the keys below it. -/
theorem image_filter_lt (k : κ) :
    (s.filter fun c => key c < k).image key = (s.image key).filter (· < k) := by
  ext j
  simp only [Finset.mem_image, Finset.mem_filter]
  constructor
  · rintro ⟨c, ⟨hc, hlt⟩, rfl⟩
    exact ⟨⟨c, hc, rfl⟩, hlt⟩
  · rintro ⟨⟨c, hc, rfl⟩, hlt⟩
    exact ⟨c, ⟨hc, hlt⟩, rfl⟩

/-- In an untied set one of the first `n` keys belongs to one element. -/
theorem Untied.unique (h : Untied n key s) {a b : α} (ha : a ∈ s) (hb : b ∈ s)
    (hkey : key a = key b) (hleast : key a ∈ leastKeys n (s.image key)) : a = b := by
  by_contra hne
  have hcard := h a ha b hb hne hkey
  have himage := h.card_image (Finset.filter_subset _ s)
    (fun c hc d hd hlt => Finset.mem_filter.mpr
      ⟨hd, hlt.trans (Finset.mem_filter.mp hc).2⟩) hcard
  rw [image_filter_lt] at himage
  exact absurd (mem_leastKeys.mp hleast).2 (not_lt.mpr himage)

theorem Untied.min_card_image (h : Untied n key s) :
    min n (s.image key).card = min n s.card := by
  have hle : (s.image key).card ≤ s.card := Finset.card_image_le
  by_cases hn : n ≤ s.card
  · have := h.card_image (Finset.Subset.refl s) (fun _ _ _ hc _ => hc) hn
    omega
  · -- a tie would have `n` elements before it
    have hinj : Set.InjOn key s := by
      intro a ha b hb hkey
      by_contra hne
      have hcard := h a ha b hb hne hkey
      have := Finset.card_le_card (Finset.filter_subset (fun c => key c < key a) s)
      omega
    rw [Finset.card_image_of_injOn hinj]

end Ties

/-! ## Sorted maps -/

/-- A map as the sorted list of its entries. -/
structure SortedMap (κ ν : Type*) [LinearOrder κ] where
  entries : List (κ × ν)
  sorted : entries.Pairwise fun p q => p.1 < q.1

namespace SortedMap

variable {κ ν : Type*} [LinearOrder κ]

def empty : SortedMap κ ν := ⟨[], .nil⟩

/-- The entries with one more, which replaces the one with the same key. -/
def insertEntry (key : κ) (value : ν) : List (κ × ν) → List (κ × ν)
  | [] => [(key, value)]
  | p :: ps =>
      if key < p.1 then (key, value) :: p :: ps
      else if key = p.1 then (key, value) :: ps
      else p :: insertEntry key value ps

theorem mem_insertEntry_of_ne {key : κ} {value : ν} {ps : List (κ × ν)} {q : κ × ν}
    (hne : q.1 ≠ key) : q ∈ insertEntry key value ps ↔ q ∈ ps := by
  have hq : q ≠ (key, value) := fun h => hne (congrArg Prod.fst h)
  induction ps with
  | nil => simp [insertEntry, hq]
  | cons p ps ih =>
      unfold insertEntry
      split_ifs with hlt heq
      · simp [hq]
      · have hp : q ≠ p := fun h => hne (h ▸ heq.symm)
        simp [hq, hp]
      · simp [ih]

theorem fst_mem_insertEntry {key : κ} {value : ν} {ps : List (κ × ν)} {q : κ × ν}
    (hq : q ∈ insertEntry key value ps) : q.1 = key ∨ q ∈ ps := by
  by_cases hne : q.1 = key
  · exact Or.inl hne
  · exact Or.inr ((mem_insertEntry_of_ne hne).mp hq)

theorem pairwise_insertEntry {key : κ} {value : ν} {ps : List (κ × ν)}
    (h : ps.Pairwise fun p q => p.1 < q.1) :
    (insertEntry key value ps).Pairwise fun p q => p.1 < q.1 := by
  induction ps with
  | nil => exact List.pairwise_singleton _ _
  | cons p ps ih =>
      obtain ⟨hp, hps⟩ := List.pairwise_cons.mp h
      unfold insertEntry
      split_ifs with hlt heq
      · refine List.pairwise_cons.mpr ⟨fun q hq => ?_, h⟩
        rcases List.mem_cons.mp hq with rfl | hq
        · exact hlt
        · exact hlt.trans (hp q hq)
      · exact List.pairwise_cons.mpr ⟨fun q hq => heq ▸ hp q hq, hps⟩
      · refine List.pairwise_cons.mpr ⟨fun q hq => ?_, ih hps⟩
        rcases fst_mem_insertEntry hq with hkey | hq
        · rw [hkey]
          exact lt_of_le_of_ne (not_lt.mp hlt) (Ne.symm heq)
        · exact hp q hq

def insert (m : SortedMap κ ν) (key : κ) (value : ν) : SortedMap κ ν :=
  ⟨insertEntry key value m.entries, pairwise_insertEntry m.sorted⟩

/-- Keep the first entries. -/
def take (n : Nat) (m : SortedMap κ ν) : SortedMap κ ν :=
  ⟨m.entries.take n, m.sorted.sublist (List.take_sublist _ _)⟩

def keys (m : SortedMap κ ν) : Finset κ := (m.entries.map Prod.fst).toFinset

def firstEntry (m : SortedMap κ ν) : Option (κ × ν) := m.entries.head?

def lastKey (m : SortedMap κ ν) : Option κ := m.entries.getLast?.map Prod.fst

def containsKey (m : SortedMap κ ν) (key : κ) : Bool := m.entries.any fun p => p.1 = key

def values (m : SortedMap κ ν) : List ν := m.entries.map Prod.snd

/-- `remove(lastKey())`. -/
def removeLast (m : SortedMap κ ν) : SortedMap κ ν :=
  ⟨m.entries.dropLast, m.sorted.sublist (List.dropLast_sublist _)⟩

variable {m : SortedMap κ ν} {key : κ} {value : ν} {p q : κ × ν} {n : Nat}

@[ext] theorem ext {m m' : SortedMap κ ν} (h : m.entries = m'.entries) : m = m' := by
  cases m
  cases m'
  simpa using h

/-! ### Entries -/

theorem nodup_keys (m : SortedMap κ ν) : (m.entries.map Prod.fst).Nodup := by
  refine List.Pairwise.imp (fun h => ne_of_lt h) (List.pairwise_map.mpr m.sorted)

theorem eq_of_key (hp : p ∈ m.entries) (hq : q ∈ m.entries) (h : p.1 = q.1) : p = q :=
  List.inj_on_of_nodup_map m.nodup_keys hp hq h

theorem mem_insert_self (m : SortedMap κ ν) (key : κ) (value : ν) :
    (key, value) ∈ (m.insert key value).entries := by
  show (key, value) ∈ insertEntry key value m.entries
  induction m.entries with
  | nil => exact List.mem_singleton_self _
  | cons p ps ih =>
      unfold insertEntry
      split_ifs
      · exact List.mem_cons_self
      · exact List.mem_cons_self
      · exact List.mem_cons_of_mem _ ih

theorem mem_insert : p ∈ (m.insert key value).entries ↔
    p = (key, value) ∨ p ∈ m.entries ∧ p.1 ≠ key := by
  by_cases hkey : p.1 = key
  · constructor
    · exact fun hp => Or.inl (eq_of_key hp (mem_insert_self m key value) hkey)
    · rintro (rfl | ⟨-, hne⟩)
      · exact mem_insert_self m key value
      · exact absurd hkey hne
  · have hne : p ≠ (key, value) := fun h => hkey (congrArg Prod.fst h)
    simp only [hne, false_or, hkey, ne_eq, not_false_eq_true, and_true]
    exact mem_insertEntry_of_ne hkey

theorem mem_keys {k : κ} : k ∈ m.keys ↔ ∃ v, (k, v) ∈ m.entries := by
  simp [keys]

theorem card_keys (m : SortedMap κ ν) : m.keys.card = m.entries.length := by
  rw [keys, List.toFinset_card_of_nodup m.nodup_keys, List.length_map]

theorem keys_insert : (m.insert key value).keys = Insert.insert key m.keys := by
  ext k
  rw [Finset.mem_insert, mem_keys, mem_keys]
  constructor
  · rintro ⟨v, hv⟩
    rcases mem_insert.mp hv with h | ⟨h, -⟩
    · exact Or.inl (congrArg Prod.fst h)
    · exact Or.inr ⟨v, h⟩
  · rintro (rfl | ⟨v, hv⟩)
    · exact ⟨value, mem_insert_self m _ _⟩
    · by_cases hk : k = key
      · exact ⟨value, hk ▸ mem_insert_self m key value⟩
      · exact ⟨v, mem_insert.mpr (Or.inr ⟨hv, hk⟩)⟩

/-! ### The first entries -/

/-- The keys below that of an entry are those of the entries before it. -/
theorem card_keys_below {ps qs : List (κ × ν)} (h : m.entries = ps ++ p :: qs) :
    (m.keys.filter (· < p.1)).card = ps.length := by
  have hsorted := m.sorted
  rw [h, List.pairwise_append, List.pairwise_cons] at hsorted
  obtain ⟨-, ⟨hqs, -⟩, hps⟩ := hsorted
  have hbelow : m.keys.filter (· < p.1) = (ps.map Prod.fst).toFinset := by
    ext k
    simp only [keys, h, Finset.mem_filter, List.mem_toFinset, List.map_append, List.map_cons,
      List.mem_append, List.mem_cons, List.mem_map]
    constructor
    · rintro ⟨⟨q, hq, rfl⟩ | rfl | ⟨q, hq, rfl⟩, hlt⟩
      · exact ⟨q, hq, rfl⟩
      · exact absurd hlt (lt_irrefl _)
      · exact absurd (hqs q hq) (lt_asymm hlt)
    · rintro ⟨q, hq, rfl⟩
      exact ⟨Or.inl ⟨q, hq, rfl⟩, hps q hq p List.mem_cons_self⟩
  have hnodup := m.nodup_keys
  rw [h, List.map_append] at hnodup
  rw [hbelow, List.toFinset_card_of_nodup (List.nodup_append.mp hnodup).1, List.length_map]

/-- The first entries are those of the least keys. -/
theorem mem_take : p ∈ (m.take n).entries ↔ p ∈ m.entries ∧ p.1 ∈ leastKeys n m.keys := by
  rw [mem_leastKeys]
  constructor
  · intro hp
    have hmem : p ∈ m.entries := List.mem_of_mem_take hp
    obtain ⟨ps, qs, h⟩ := List.append_of_mem hmem
    refine ⟨hmem, mem_keys.mpr ⟨p.2, hmem⟩, ?_⟩
    rw [card_keys_below h]
    by_contra hle
    -- the entries before it are too many
    have htake : p ∈ ps.take n := by
      have : p ∈ m.entries.take n := hp
      rwa [h, List.take_append_of_le_length (not_lt.mp hle)] at this
    have hnodup := m.nodup_keys
    rw [h, List.map_append, List.nodup_append] at hnodup
    exact hnodup.2.2 p.1 (List.mem_map_of_mem (List.mem_of_mem_take htake)) p.1
      List.mem_cons_self rfl
  · rintro ⟨hmem, -, hlt⟩
    obtain ⟨ps, qs, h⟩ := List.append_of_mem hmem
    rw [card_keys_below h] at hlt
    show p ∈ m.entries.take n
    rw [h, List.take_append, List.mem_append]
    right
    obtain ⟨k, hk⟩ := Nat.exists_eq_succ_of_ne_zero (Nat.sub_ne_zero_of_lt hlt)
    rw [hk]
    exact List.mem_cons_self

theorem take_insertEntry_take (ps : List (κ × ν)) (n : Nat) :
    (insertEntry key value (ps.take n)).take n = (insertEntry key value ps).take n := by
  induction ps generalizing n with
  | nil => simp
  | cons p ps ih =>
      cases n with
      | zero => simp
      | succ n =>
          simp only [List.take_succ_cons, insertEntry]
          split_ifs
          · cases n with
            | zero => simp
            | succ n => simp [List.take_take]
          · simp
          · simp [ih]

/-- Keeping the first entries before an insertion changes nothing. -/
theorem take_insert_take : ((m.take n).insert key value).take n = (m.insert key value).take n :=
  ext (take_insertEntry_take m.entries n)

theorem take_of_length_le (h : m.entries.length ≤ n) : m.take n = m :=
  ext (List.take_of_length_le h)

theorem removeLast_eq_take (m : SortedMap κ ν) : m.removeLast = m.take (m.entries.length - 1) :=
  ext List.dropLast_eq_take

theorem containsKey_iff : m.containsKey key = true ↔ key ∈ m.keys := by
  simp [containsKey, keys]

theorem length_insert : (m.insert key value).entries.length =
    if m.containsKey key then m.entries.length else m.entries.length + 1 := by
  rw [← card_keys, keys_insert, ← card_keys]
  split_ifs with h
  · rw [Finset.insert_eq_of_mem (containsKey_iff.mp h)]
  · exact Finset.card_insert_of_notMem fun hkey => h (containsKey_iff.mpr hkey)

theorem lastKey_eq_none : m.lastKey = none ↔ m.entries = [] := by
  simp [lastKey]

/-- An entry behind the last one is not kept. -/
theorem take_insert_of_lastKey_lt {last : κ} (hlast : m.lastKey = some last) (hlt : last < key) :
    (m.insert key value).take m.entries.length = m := by
  have hlt' : ∀ q ∈ m.entries, q.1 < key := by
    obtain ⟨r, hr, rfl⟩ := Option.map_eq_some_iff.mp hlast
    obtain ⟨ps, h⟩ := List.getLast?_eq_some_iff.mp hr
    have hsorted := m.sorted
    rw [h, List.pairwise_append] at hsorted
    intro q hq
    rw [h, List.mem_append, List.mem_singleton] at hq
    rcases hq with hq | rfl
    · exact (hsorted.2.2 q hq r (List.mem_singleton_self r)).trans hlt
    · exact hlt
  have hinsert : ∀ ps : List (κ × ν), (∀ q ∈ ps, q.1 < key) →
      insertEntry key value ps = ps ++ [(key, value)] := by
    intro ps hps
    induction ps with
    | nil => rfl
    | cons p ps ih =>
        have hp := hps p List.mem_cons_self
        rw [insertEntry, if_neg (lt_asymm hp), if_neg hp.ne', ih fun q hq => hps q
          (List.mem_cons_of_mem _ hq), List.cons_append]
  apply ext
  show (insertEntry key value m.entries).take m.entries.length = m.entries
  rw [hinsert _ hlt', List.take_left]

/-! ### The map of a list -/

/-- The map of some entries, of which a later one replaces an earlier one. -/
def ofPairs (ps : List (κ × ν)) : SortedMap κ ν :=
  ps.foldl (fun m p => m.insert p.1 p.2) empty

variable {ps : List (κ × ν)}

theorem ofPairs_snoc (ps : List (κ × ν)) (p : κ × ν) :
    ofPairs (ps ++ [p]) = (ofPairs ps).insert p.1 p.2 := by
  simp [ofPairs]

theorem mem_of_mem_ofPairs (h : p ∈ (ofPairs ps).entries) : p ∈ ps := by
  induction ps using List.reverseRecOn with
  | nil => cases h
  | append_singleton ps q ih =>
      rw [ofPairs_snoc, mem_insert] at h
      rcases h with rfl | ⟨h, -⟩
      · simp
      · exact List.mem_append_left _ (ih h)

theorem keys_ofPairs : (ofPairs ps).keys = (ps.map Prod.fst).toFinset := by
  induction ps using List.reverseRecOn with
  | nil => rfl
  | append_singleton ps q ih =>
      rw [ofPairs_snoc, keys_insert, ih]
      ext k
      simp

/-- Entries with distinct keys are all in the map. -/
theorem mem_ofPairs (h : (ps.map Prod.fst).Nodup) : p ∈ (ofPairs ps).entries ↔ p ∈ ps := by
  refine ⟨mem_of_mem_ofPairs, fun hp => ?_⟩
  have hkey : p.1 ∈ (ofPairs ps).keys := by
    rw [keys_ofPairs, List.mem_toFinset]
    exact List.mem_map_of_mem hp
  obtain ⟨v, hv⟩ := mem_keys.mp hkey
  have hsame : (p.1, v) = p := List.inj_on_of_nodup_map h (mem_of_mem_ofPairs hv) hp rfl
  rwa [hsame] at hv

/-- The order of such entries does not matter. -/
theorem ofPairs_congr {qs : List (κ × ν)} (h : (ps.map Prod.fst).Nodup) (hperm : ps.Perm qs) :
    ofPairs ps = ofPairs qs := by
  have hirrefl : Std.Irrefl fun p q : κ × ν => p.1 < q.1 := ⟨fun p => lt_irrefl p.1⟩
  refine ext ((ofPairs ps).sorted.eq_of_mem_iff (ofPairs qs).sorted fun p => ?_)
  rw [mem_ofPairs h, mem_ofPairs ((hperm.map Prod.fst).nodup h), hperm.mem_iff]

/-- The map of some values by their keys, where a later value replaces an earlier
one. -/
def ofList (keyOf : ν → κ) (vs : List ν) : SortedMap κ ν :=
  vs.foldl (fun m v => m.insert (keyOf v) v) empty

variable {keyOf : ν → κ} {vs : List ν}

theorem ofList_snoc (keyOf : ν → κ) (vs : List ν) (v : ν) :
    ofList keyOf (vs ++ [v]) = (ofList keyOf vs).insert (keyOf v) v := by
  simp [ofList]

theorem ofList_eq : ofList keyOf vs = ofPairs (vs.map fun v => (keyOf v, v)) := by
  rw [ofPairs, List.foldl_map]
  rfl

theorem mem_of_mem_ofList (h : p ∈ (ofList keyOf vs).entries) : p.2 ∈ vs ∧ p.1 = keyOf p.2 := by
  rw [ofList_eq] at h
  obtain ⟨v, hv, rfl⟩ := List.mem_map.mp (mem_of_mem_ofPairs h)
  exact ⟨hv, rfl⟩

theorem mem_keys_ofList {k : κ} : k ∈ (ofList keyOf vs).keys ↔ ∃ v ∈ vs, keyOf v = k := by
  rw [ofList_eq, keys_ofPairs]
  simp

theorem firstEntry_isSome_take {k : κ} (hn : 0 < n) (hk : k ∈ m.keys) :
    ∃ p, (m.take n).firstEntry = some p := by
  obtain ⟨v, hv⟩ := mem_keys.mp hk
  obtain ⟨p, ps, h⟩ := List.exists_cons_of_ne_nil (List.ne_nil_of_mem hv)
  obtain ⟨n, rfl⟩ := Nat.exists_eq_succ_of_ne_zero hn.ne'
  exact ⟨p, by simp [firstEntry, take, h]⟩

theorem mem_firstEntry (h : m.firstEntry = some p) :
    p ∈ m.entries ∧ ∀ k ∈ m.keys, p.1 ≤ k := by
  obtain ⟨ps, hps⟩ := List.head?_eq_some_iff.mp h
  have hsorted := m.sorted
  rw [hps, List.pairwise_cons] at hsorted
  refine ⟨hps ▸ List.mem_cons_self, fun k hk => ?_⟩
  obtain ⟨v, hv⟩ := mem_keys.mp hk
  rw [hps, List.mem_cons] at hv
  rcases hv with rfl | hv
  · exact le_refl _
  · exact le_of_lt (hsorted.1 _ hv)

theorem exists_firstEntry (hp : p ∈ m.entries) : ∃ q, m.firstEntry = some q ∧ q.1 ≤ p.1 := by
  obtain ⟨q, qs, hqs⟩ := List.exists_cons_of_ne_nil (List.ne_nil_of_mem hp)
  have hfirst : m.firstEntry = some q := by rw [firstEntry, hqs, List.head?_cons]
  exact ⟨q, hfirst, (mem_firstEntry hfirst).2 p.1 (mem_keys.mpr ⟨p.2, hp⟩)⟩

end SortedMap

end Xenon.Foundation
