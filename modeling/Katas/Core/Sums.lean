import Katas.Core.Prog
import Mathlib.Algebra.GroupWithZero.Nat

/-!
# Sums over the first numbers

`sumTo n f` is what `f` gives on the numbers below `n` together: the total of
the counters of `n` slots, or of `n` records, of which a step changes one.
-/
namespace Katas.Conc

def sumTo (n : Nat) (f : Nat → Nat) : Nat := ((List.range n).map f).sum

variable {n : Nat} {f g : Nat → Nat}

theorem sumTo_succ : sumTo (n + 1) f = sumTo n f + f n := by
  unfold sumTo
  rw [List.range_succ, List.map_append, List.sum_append]
  rfl

theorem sumTo_congr (h : ∀ i, i < n → f i = g i) : sumTo n f = sumTo n g := by
  unfold sumTo
  rw [List.map_congr_left fun i hi => h i (List.mem_range.mp hi)]

theorem sumTo_add : sumTo n (fun i => f i + g i) = sumTo n f + sumTo n g := by
  induction n with
  | zero => rfl
  | succ n ih =>
    rw [sumTo_succ, sumTo_succ, sumTo_succ, ih]
    omega

theorem sumTo_le (h : ∀ i, i < n → f i ≤ g i) : sumTo n f ≤ sumTo n g := by
  induction n with
  | zero => exact Nat.le_refl 0
  | succ n ih =>
    rw [sumTo_succ, sumTo_succ]
    exact Nat.add_le_add (ih fun i hi => h i (Nat.lt_succ_of_lt hi)) (h n (Nat.lt_succ_self n))

theorem sumTo_eq_zero : sumTo n f = 0 ↔ ∀ i, i < n → f i = 0 := by
  induction n with
  | zero => exact ⟨fun _ i hi => absurd hi (Nat.not_lt_zero i), fun _ => rfl⟩
  | succ n ih =>
    rw [sumTo_succ, Nat.add_eq_zero_iff, ih]
    refine ⟨fun h i hi => ?_, fun h => ⟨fun i hi => h i (by omega), h n (by omega)⟩⟩
    obtain hi | rfl := Nat.lt_succ_iff_lt_or_eq.mp hi
    · exact h.1 i hi
    · exact h.2

/-- One of the counters is changed. -/
theorem sumTo_off {i : Nat} (hi : i < n) (h : ∀ j, j ≠ i → g j = f j) :
    sumTo n g + f i = sumTo n f + g i := by
  induction n with
  | zero => exact absurd hi (Nat.not_lt_zero i)
  | succ n ih =>
    rw [sumTo_succ, sumTo_succ]
    obtain hlt | rfl := Nat.lt_succ_iff_lt_or_eq.mp hi
    · have := ih hlt
      rw [h n (Nat.ne_of_gt hlt)]
      omega
    · rw [sumTo_congr fun j hj => h j (Nat.ne_of_lt hj)]
      omega

theorem sumTo_upd {α : Type} (p : α → Nat) (m : Nat → α) (c : α) {i : Nat} (hi : i < n) :
    sumTo n (fun j => p (upd m i c j)) + p (m i) = sumTo n (fun j => p (m j)) + p c := by
  have h := sumTo_off (f := fun j => p (m j)) (g := fun j => p (upd m i c j)) hi
    fun j hj => by rw [upd_ne _ _ hj]
  simpa only [upd_self] using h

/-- A list, counted by a key below `n` that its elements have. -/
theorem sumTo_filter {α : Type} (key : α → Nat) {l : List α} (h : ∀ x ∈ l, key x < n) :
    sumTo n (fun k => (l.filter fun x => key x = k).length) = l.length := by
  induction l with
  | nil => exact sumTo_eq_zero.mpr fun _ _ => rfl
  | cons a l ih =>
    have hoff : ∀ j, j ≠ key a → ((a :: l).filter fun x => key x = j).length =
        (l.filter fun x => key x = j).length := by
      intro j hj
      rw [List.filter_cons_of_neg (by simpa using Ne.symm hj)]
    have hat : ((a :: l).filter fun x => key x = key a).length =
        (l.filter fun x => key x = key a).length + 1 := by
      rw [List.filter_cons_of_pos (by simp), List.length_cons]
    have hsum := sumTo_off (h a (List.mem_cons_self ..)) hoff
    rw [ih fun x hx => h x (List.mem_cons_of_mem a hx), hat] at hsum
    rw [List.length_cons]
    omega

end Katas.Conc
