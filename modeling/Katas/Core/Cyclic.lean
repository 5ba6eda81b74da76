/-!
# Distance round a cycle

How many steps forward lead from one index to another, round a cycle of `n`.
-/
namespace Katas

/-- The steps forward from `i` to `j`, round `n`. -/
def ahead (n j i : Nat) : Nat := if i % n ≤ j then j - i % n else n + j - i % n

variable {n i j : Nat}

theorem ahead_lt (hj : j < n) : ahead n j i < n := by
  have hlt := Nat.mod_lt i (Nat.zero_lt_of_lt hj)
  unfold ahead
  split <;> omega

theorem ahead_le (hj : j < n) : ahead n j i ≤ n - 1 :=
  Nat.le_sub_one_of_lt (ahead_lt hj)

@[simp] theorem ahead_mod : ahead n j (i % n) = ahead n j i := by
  rw [ahead, ahead, Nat.mod_mod]

theorem succ_mod_cases (hn : 0 < n) :
    (i % n + 1 < n ∧ (i + 1) % n = i % n + 1) ∨ (i % n + 1 = n ∧ (i + 1) % n = 0) := by
  have hlt := Nat.mod_lt i hn
  have hstep : (i + 1) % n = (i % n + 1) % n := (Nat.mod_add_mod i n 1).symm
  rcases Nat.lt_or_eq_of_le hlt with h | h
  · exact .inl ⟨h, by rw [hstep, Nat.mod_eq_of_lt h]⟩
  · exact .inr ⟨h, by rw [hstep, show i % n + 1 = n from h, Nat.mod_self]⟩

/-- A step from anywhere else comes nearer by one. -/
theorem ahead_succ (hj : j < n) (hi : i % n ≠ j) : ahead n j (i + 1) + 1 = ahead n j i := by
  have hlt := Nat.mod_lt i (Nat.zero_lt_of_lt hj)
  unfold ahead
  rcases succ_mod_cases (i := i) (Nat.zero_lt_of_lt hj) with ⟨-, h⟩ | ⟨hlast, h⟩
  · rw [h]
    split <;> split <;> omega
  · rw [h, if_pos (Nat.zero_le j), Nat.sub_zero]
    split <;> omega

end Katas
