import Mathlib.Data.List.Sort
import Mathlib.Data.UInt

/-!
# Order statistics

The `r`-th smallest element of a list, from 1 on. Everything about it follows
from `le_of_rank`: it is at most `y` exactly if `r` elements are.
-/
namespace Katas.Rank

variable {α : Type} [LinearOrder α]

/-- The `r`-th smallest of `l`. -/
def smallest (l : List α) : Nat → Option α
  | 0 => none
  | r + 1 => (l.mergeSort (· ≤ ·))[r]?

/-- In an ascending list, the elements up to `y` come first. -/
theorem sorted_le_iff {l : List α} (hl : l.Pairwise (· ≤ ·)) {k : Nat} {s y : α}
    (hs : l[k]? = some s) : s ≤ y ↔ k < l.countP (· ≤ y) := by
  induction l generalizing k with
  | nil => cases hs
  | cons a l ih =>
    rw [List.pairwise_cons] at hl
    rw [List.countP_cons]
    cases k with
    | zero =>
      obtain rfl : a = s := by simpa using hs
      by_cases ha : a ≤ y
      · simp [ha]
      · have hnone : l.countP (· ≤ y) = 0 :=
          List.countP_eq_zero.mpr fun b hb => by
            simpa using lt_of_lt_of_le (not_le.mp ha) (hl.1 b hb)
        simp [ha, hnone]
    | succ k =>
      have hs : l[k]? = some s := by simpa using hs
      have hmem : s ∈ l := List.mem_of_getElem? hs
      rw [ih hl.2 hs]
      by_cases ha : a ≤ y
      · simp [ha]
      · have hnone : l.countP (· ≤ y) = 0 :=
          List.countP_eq_zero.mpr fun b hb => by
            simpa using lt_of_lt_of_le (not_le.mp ha) (hl.1 b hb)
        simp [ha, hnone]

theorem le_of_rank {l : List α} {r : Nat} {s : α} (hs : smallest l r = some s) (y : α) :
    s ≤ y ↔ r ≤ l.countP (· ≤ y) := by
  cases r with
  | zero => cases hs
  | succ r =>
    have h := sorted_le_iff (List.pairwise_mergeSort' (· ≤ ·) l) (y := y) hs
    rw [h, (List.mergeSort_perm l _).countP_eq]
    exact Nat.succ_le_iff.symm

theorem smallest_mem {l : List α} {r : Nat} {s : α} (hs : smallest l r = some s) : s ∈ l := by
  cases r with
  | zero => cases hs
  | succ r => exact List.mem_mergeSort.mp (List.mem_of_getElem? hs)

/-- Ranks from 1 to the length are taken. -/
theorem smallest_isSome {l : List α} {r : Nat} (h0 : 1 ≤ r) (h : r ≤ l.length) :
    ∃ s, smallest l r = some s := by
  obtain ⟨k, rfl⟩ : ∃ k, r = k + 1 := ⟨r - 1, by omega⟩
  have hk : k < (l.mergeSort (· ≤ ·)).length := by
    rw [List.length_mergeSort]
    omega
  exact ⟨_, List.getElem?_eq_getElem hk⟩

end Katas.Rank
