import Mathlib.Data.Nat.ModEq

/-!
# Free-running counters in machine words

A counter that began at the word `start` and was moved `p` times is `wrap start p`,
modulo 2^w. Equality and subtraction of two counters are those of
the numbers of moves as long as these are less than 2^w apart, and the low `k`
bits, which choose the slot of a ring of 2^k, are the number of moves modulo
2^k, shifted by where the counter began.
-/
namespace Katas.Counter
variable {w : Nat}

/-- The counter that began at `start`, after `p` moves. -/
def wrap (start : BitVec w) (p : Nat) : BitVec w := start + BitVec.ofNat w p

variable {start : BitVec w} {p q n k : Nat}

theorem wrap_zero (start : BitVec w) : wrap start 0 = start := by simp [wrap]

theorem wrap_add (start : BitVec w) (p n : Nat) :
    wrap start p + BitVec.ofNat w n = wrap start (p + n) := by
  unfold wrap
  rw [BitVec.add_assoc, BitVec.ofNat_add]

theorem wrap_add_word (start : BitVec w) (p : Nat) (n : BitVec w) :
    wrap start p + n = wrap start (p + n.toNat) := by
  rw [← wrap_add, BitVec.ofNat_toNat, BitVec.setWidth_eq]

/-- The difference of two counters is the number of moves between them. -/
theorem wrap_sub (h : q ≤ p) (hlt : p - q < 2 ^ w) :
    (wrap start p - wrap start q).toNat = p - q := by
  obtain ⟨d, rfl⟩ := Nat.exists_eq_add_of_le h
  rw [← wrap_add, BitVec.add_comm, BitVec.add_sub_cancel, BitVec.toNat_ofNat]
  rw [Nat.add_sub_cancel_left] at hlt ⊢
  exact Nat.mod_eq_of_lt hlt

theorem wrap_inj (h : q ≤ p) (hlt : p - q < 2 ^ w) : wrap start p = wrap start q ↔ p = q := by
  refine ⟨fun he => ?_, fun he => he ▸ rfl⟩
  have hs : (wrap start p - wrap start q).toNat = p - q := wrap_sub h hlt
  rw [he, BitVec.sub_self, BitVec.toNat_zero] at hs
  omega

/-! ## Slots -/

/-- The slot of a word in a ring of 2^k slots: its low `k` bits. -/
def slotOf (k : Nat) (t : BitVec w) : Fin (2 ^ k) :=
  ⟨(t &&& BitVec.ofNat w (2 ^ k - 1)).toNat, by
    rw [BitVec.toNat_and, BitVec.toNat_ofNat]
    have h1 : t.toNat &&& ((2 ^ k - 1) % 2 ^ w) ≤ (2 ^ k - 1) % 2 ^ w := Nat.and_le_right
    have h2 : (2 ^ k - 1) % 2 ^ w ≤ 2 ^ k - 1 := Nat.mod_le _ _
    have h3 : 0 < 2 ^ k := Nat.two_pow_pos k
    omega⟩

theorem slotOf_val (hk : k ≤ w) (t : BitVec w) : (slotOf k t).val = t.toNat % 2 ^ k := by
  have hpos : 0 < 2 ^ k := Nat.two_pow_pos k
  have hle : 2 ^ k ≤ 2 ^ w := Nat.pow_le_pow_right (by omega) hk
  show (t &&& BitVec.ofNat w (2 ^ k - 1)).toNat = _
  rw [BitVec.toNat_and, BitVec.toNat_ofNat, Nat.mod_eq_of_lt (by omega),
    Nat.and_two_pow_sub_one_eq_mod]

/-- Two positions have one slot if they are whole laps apart. -/
theorem slotOf_wrap (hk : k ≤ w) :
    slotOf k (wrap start p) = slotOf k (wrap start q) ↔ p % 2 ^ k = q % 2 ^ k := by
  have hval : ∀ p, (slotOf k (wrap start p)).val = (start.toNat + p) % 2 ^ k := by
    intro p
    rw [slotOf_val hk, wrap, BitVec.toNat_add, BitVec.toNat_ofNat, Nat.add_mod_mod,
      Nat.mod_mod_of_dvd _ (Nat.pow_dvd_pow 2 hk)]
  rw [Fin.ext_iff, hval, hval]
  exact ⟨fun h => Nat.ModEq.add_left_cancel' _ h, fun h => Nat.ModEq.add_left _ h⟩

end Katas.Counter
