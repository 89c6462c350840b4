import Mathlib.Data.List.Basic

/-!
# Reading a list behind a cursor

Hits come with increasing positions. A reader that asks for the hits behind the position of
the last one it was given, a page at a time, is given the pages of the list one after the
other.
-/

namespace Xenon.Foundation.Cursor

variable {α : Type*}

/-- The hits behind a position. -/
def behind (hits : List (α × Nat)) (after : Option Nat) : List (α × Nat) :=
  hits.filter fun hit => after.all (· < hit.2)

/-- The position of the last one of the first `n` hits. -/
def cursor (hits : List (α × Nat)) (n : Nat) : Option Nat :=
  (hits.take n).getLast?.map Prod.snd

/-- The `k`-th page of a list. -/
def page (size : Nat) (hits : List (α × Nat)) (k : Nat) : List (α × Nat) :=
  (hits.drop (k * size)).take size

variable {hits : List (α × Nat)} {size : Nat}

theorem behind_cursor (h : hits.Pairwise fun a b => a.2 < b.2) (n : Nat) :
    behind hits (cursor hits n) = hits.drop n := by
  unfold behind cursor
  rw [← List.take_append_drop n hits, List.pairwise_append] at h
  obtain ⟨htake, -, hacross⟩ := h
  cases hlast : (hits.take n).getLast? with
  | none =>
      have hnil : hits.take n = [] := List.getLast?_eq_none_iff.mp hlast
      have hall : hits.drop n = hits := by
        conv_rhs => rw [← List.take_append_drop n hits, hnil, List.nil_append]
      simp [hall]
  | some last =>
      have hmem : last ∈ hits.take n := List.mem_of_getLast? hlast
      have hle : ∀ hit ∈ hits.take n, hit.2 ≤ last.2 := by
        obtain ⟨init, hinit⟩ := List.getLast?_eq_some_iff.mp hlast
        rw [hinit, List.pairwise_append] at htake
        intro hit hhit
        rw [hinit] at hhit
        rcases List.mem_append.mp hhit with hhit | hhit
        · exact Nat.le_of_lt (htake.2.2 hit hhit last List.mem_cons_self)
        · exact Nat.le_of_eq (by rw [List.mem_singleton.mp hhit])
      conv_lhs => rw [← List.take_append_drop n hits, List.filter_append]
      have hbefore : ((hits.take n).filter fun hit => ((some last).map Prod.snd).all (· < hit.2)) = [] := by
        rw [List.filter_eq_nil_iff]
        intro hit hhit
        simpa using hle hit hhit
      have hafter : ((hits.drop n).filter fun hit => ((some last).map Prod.snd).all (· < hit.2)) =
          hits.drop n := by
        rw [List.filter_eq_self]
        intro hit hhit
        simpa using hacross last hmem hit hhit
      rw [hbefore, hafter, List.nil_append]

/-- The next page is what is read behind the pages before it. -/
theorem take_behind (h : hits.Pairwise fun a b => a.2 < b.2) (k : Nat) :
    (behind hits (cursor hits (k * size))).take size = page size hits k := by
  rw [behind_cursor h]
  rfl

theorem take_succ (k : Nat) :
    hits.take ((k + 1) * size) = hits.take (k * size) ++ page size hits k := by
  rw [Nat.succ_mul, List.take_add]
  rfl

/-- The cursor behind a page is the position of its last hit. -/
theorem cursor_succ {k : Nat} {last : α × Nat} (h : (page size hits k).getLast? = some last) :
    cursor hits ((k + 1) * size) = some last.2 := by
  unfold cursor
  rw [take_succ, List.getLast?_append, h]
  rfl

theorem page_eq_nil_iff {k : Nat} (hsize : 0 < size) :
    page size hits k = [] ↔ hits.length ≤ k * size := by
  unfold page
  rw [List.take_eq_nil_iff, List.drop_eq_nil_iff]
  omega

/-- A page that is not full is the last one. -/
theorem length_le_of_page_lt {k : Nat} (h : (page size hits k).length < size) :
    hits.length ≤ (k + 1) * size := by
  unfold page at h
  rw [List.length_take, List.length_drop] at h
  rw [Nat.add_mul, Nat.one_mul]
  omega

end Xenon.Foundation.Cursor
