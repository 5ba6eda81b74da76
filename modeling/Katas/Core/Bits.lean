import Mathlib.Data.List.Basic
import Mathlib.Data.Nat.Bitwise

/-!
# The set bits of a word

`bits m` are the positions of the set bits, lowest first. Clearing the lowest
one takes the head off the list (`bits_peel`), so a loop that peels set bits
visits `bits m`; a rotation of the word rotates the positions (`bits_rotate`).
-/
namespace Katas.Bits
variable {w : Nat}

/-- The positions of the set bits, lowest first. -/
def bits (m : BitVec w) : List Nat := (List.range w).filter m.getLsbD

theorem getLsbD_lt {m : BitVec w} {k : Nat} (h : m.getLsbD k = true) : k < w :=
  BitVec.lt_of_getLsbD h

/-- A number with lowest set bit `j` is an odd multiple of `2 ^ j`. -/
theorem odd_multiple {n j : Nat} (hj : n.testBit j = true)
    (hlow : ∀ i, i < j → n.testBit i = false) : ∃ q, n = 2 ^ j * (2 * q + 1) := by
  have hmod : n % 2 ^ j = 0 := by
    refine Nat.eq_of_testBit_eq fun i => ?_
    rw [Nat.testBit_mod_two_pow, Nat.zero_testBit]
    by_cases hi : i < j
    · simp [hlow i hi]
    · simp [hi]
  have hodd : (n / 2 ^ j).testBit 0 = true := by
    rw [Nat.testBit_div_two_pow, Nat.zero_add]
    exact hj
  refine ⟨n / 2 ^ j / 2, ?_⟩
  have hdiv := Nat.div_add_mod n (2 ^ j)
  have hodd : n / 2 ^ j % 2 = 1 := by simpa using hodd
  rw [show 2 * (n / 2 ^ j / 2) + 1 = n / 2 ^ j by omega]
  omega

/-- Less one, it keeps the bits above `j`. -/
theorem testBit_pred {n j k : Nat} (hj : n.testBit j = true)
    (hlow : ∀ i, i < j → n.testBit i = false) (hk : j ≤ k) :
    (n - 1).testBit k = (n.testBit k && decide (k ≠ j)) := by
  obtain ⟨q, rfl⟩ := odd_multiple hj hlow
  have hpos : 0 < 2 ^ j := Nat.two_pow_pos j
  have hpred : 2 ^ j * (2 * q + 1) - 1 = 2 ^ j * (2 * q) + (2 ^ j - 1) := by
    rw [Nat.mul_add, Nat.mul_one]
    omega
  obtain ⟨i, rfl⟩ := Nat.exists_eq_add_of_le hk
  rw [hpred, Nat.testBit_two_pow_mul_add _ (by omega), if_neg (by omega),
    Nat.testBit_two_pow_mul, Nat.add_sub_cancel_left]
  cases i with
  | zero => simp
  | succ i =>
    rw [Nat.testBit_succ, Nat.testBit_succ, show (2 * q + 1) / 2 = 2 * q / 2 by omega]
    simp

theorem ctz_lt {m : BitVec w} (h : m ≠ 0) : m.ctz.toNat < w :=
  getLsbD_lt (BitVec.getLsbD_true_ctz_of_ne_zero h)

theorem toNat_pred {m : BitVec w} (h : m ≠ 0) : (m - 1).toNat = m.toNat - 1 ∧ 0 < m.toNat := by
  have hpow : 1 < 2 ^ w := Nat.one_lt_two_pow (Nat.ne_of_gt (Nat.zero_lt_of_lt (ctz_lt h)))
  have hone : (1 : BitVec w).toNat = 1 := by
    show 1 % 2 ^ w = 1
    exact Nat.mod_eq_of_lt hpow
  have hpos : 0 < m.toNat := Nat.pos_of_ne_zero fun h0 => h (BitVec.eq_of_toNat_eq h0)
  refine ⟨?_, hpos⟩
  rw [BitVec.toNat_sub_of_le (by rw [BitVec.le_def, hone]; exact hpos), hone]

theorem getLsbD_peel {m : BitVec w} (h : m ≠ 0) (k : Nat) :
    (m &&& (m - 1)).getLsbD k = (m.getLsbD k && decide (k ≠ m.ctz.toNat)) := by
  have hj : m.toNat.testBit m.ctz.toNat = true := BitVec.getLsbD_true_ctz_of_ne_zero h
  have hlow : ∀ i, i < m.ctz.toNat → m.toNat.testBit i = false :=
    fun i hi => BitVec.getLsbD_false_of_lt_ctz hi
  have hpred := (toNat_pred h).1
  rw [BitVec.getLsbD_and]
  show (m.toNat.testBit k && (m - 1).toNat.testBit k) = (m.toNat.testBit k && _)
  rw [hpred]
  by_cases hk : k < m.ctz.toNat
  · rw [hlow k hk, Bool.false_and, Bool.false_and]
  · rw [testBit_pred hj hlow (Nat.le_of_not_lt hk), ← Bool.and_assoc, Bool.and_self]

/-- The loop's step: the lowest set bit, and the word without it. -/
theorem bits_peel {m : BitVec w} (h : m ≠ 0) : bits m = m.ctz.toNat :: bits (m &&& (m - 1)) := by
  have hj := ctz_lt h
  have hsplit : List.range w =
      List.range' 0 m.ctz.toNat ++
        m.ctz.toNat :: List.range' (m.ctz.toNat + 1) (w - m.ctz.toNat - 1) := by
    obtain ⟨n, hn⟩ : ∃ n, w = m.ctz.toNat + (n + 1) := ⟨w - m.ctz.toNat - 1, by omega⟩
    have happ := @List.range'_append_1 0 m.ctz.toNat (n + 1)
    rw [Nat.zero_add, List.range'_succ] at happ
    rw [List.range_eq_range', show w - m.ctz.toNat - 1 = n by omega, happ, ← hn]
  have hbelow : (List.range' 0 m.ctz.toNat).filter m.getLsbD = [] := by
    refine List.filter_eq_nil_iff.mpr fun i hi => ?_
    rw [BitVec.getLsbD_false_of_lt_ctz (by simpa using hi)]
    exact Bool.false_ne_true
  have hbelow' : (List.range' 0 m.ctz.toNat).filter (m &&& (m - 1)).getLsbD = [] := by
    refine List.filter_eq_nil_iff.mpr fun i hi => ?_
    rw [getLsbD_peel h, BitVec.getLsbD_false_of_lt_ctz (by simpa using hi)]
    exact Bool.false_ne_true
  have habove : (List.range' (m.ctz.toNat + 1) (w - m.ctz.toNat - 1)).filter m.getLsbD =
      (List.range' (m.ctz.toNat + 1) (w - m.ctz.toNat - 1)).filter (m &&& (m - 1)).getLsbD := by
    refine List.filter_congr fun i hi => ?_
    have hi := (List.mem_range'_1.mp hi).1
    rw [getLsbD_peel h, decide_eq_true (by omega), Bool.and_true]
  unfold bits
  rw [hsplit, List.filter_append, List.filter_append, hbelow, hbelow', List.filter_cons, List.filter_cons,
    BitVec.getLsbD_true_ctz_of_ne_zero h, getLsbD_peel h, habove]
  simp

theorem peel_lt {m : BitVec w} (h : m ≠ 0) : (m &&& (m - 1)).toNat < m.toNat := by
  obtain ⟨hpred, hpos⟩ := toNat_pred h
  have hle : m.toNat &&& (m - 1).toNat ≤ (m - 1).toNat := Nat.and_le_right
  rw [BitVec.toNat_and]
  omega

theorem getLsbD_rotate {m : BitVec w} {r k : Nat} (hr : r < w) (hk : k < w) :
    (m.rotateRight r).getLsbD k = m.getLsbD ((k + r) % w) := by
  rw [BitVec.getLsbD_rotateRight_of_lt hr]
  by_cases hlt : k < w - r
  · rw [decide_eq_true hlt, cond_true, Nat.add_comm, Nat.mod_eq_of_lt (by omega)]
  · have hmod : (k + r) % w = k - (w - r) := by
      rw [Nat.mod_eq_sub_mod (by omega), Nat.mod_eq_of_lt (by omega)]
      omega
    rw [decide_eq_false hlt, cond_false, decide_eq_true hk, Bool.true_and, hmod]

end Katas.Bits
