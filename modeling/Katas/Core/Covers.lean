import Mathlib.Data.List.Nodup

/-!
# As many holders as there are units

`Covers p n`: at least `n` distinct indices meet `p`. With threads for the
indices, "notified or about to notify" for `p`, and the units of a bounded
resource for `n`, this is what a condition variable that wakes one waiter for
each unit keeps: the rules say how a holder appears, leaves, or passes what it
holds to another. `Counts p n`: exactly `n` indices meet `p`.
-/
namespace Katas

def Covers {ι : Type} (p : ι → Prop) (n : Nat) : Prop :=
  ∃ l : List ι, l.Nodup ∧ n ≤ l.length ∧ ∀ i ∈ l, p i

namespace Covers
variable {ι : Type} {p q : ι → Prop} {n m : Nat} {i j : ι}

theorem zero (p : ι → Prop) : Covers p 0 :=
  ⟨[], .nil, Nat.le_refl 0, by simp⟩

theorem le (h : Covers p n) (hm : m ≤ n) : Covers p m := by
  obtain ⟨l, hl, hn, hp⟩ := h
  exact ⟨l, hl, Nat.le_trans hm hn, hp⟩

theorem mono (h : Covers p n) (hq : ∀ i, p i → q i) : Covers q n := by
  obtain ⟨l, hl, hn, hp⟩ := h
  exact ⟨l, hl, hn, fun i hi => hq i (hp i hi)⟩

/-- Nobody holds, so there is no unit. -/
theorem eq_zero (h : Covers p n) (hp : ∀ i, ¬p i) : n = 0 := by
  obtain ⟨l, -, hn, hl⟩ := h
  cases l with
  | nil => exact Nat.le_zero.mp hn
  | cons i l => exact absurd (hl i List.mem_cons_self) (hp i)

/-- `i` begins to hold. -/
theorem gain (h : Covers p n) (hi : ¬p i) (hq : q i) (hpq : ∀ j, j ≠ i → p j → q j) :
    Covers q (n + 1) := by
  obtain ⟨l, hl, hn, hp⟩ := h
  have hil : i ∉ l := fun hm => hi (hp i hm)
  refine ⟨i :: l, List.nodup_cons.mpr ⟨hil, hl⟩, Nat.succ_le_succ hn, fun j hj => ?_⟩
  obtain rfl | hj := List.mem_cons.mp hj
  · exact hq
  · exact hpq j (fun hji => hil (hji ▸ hj)) (hp j hj)

/-- `i` may end to hold, and one unit goes. -/
theorem spend [DecidableEq ι] (h : Covers p n) (hpq : ∀ j, j ≠ i → p j → q j) :
    Covers q (n - 1) := by
  obtain ⟨l, hl, hn, hp⟩ := h
  refine ⟨l.erase i, hl.erase i, ?_, fun j hj => ?_⟩
  · have hlen := List.length_erase (a := i) (l := l)
    split at hlen
    · omega
    · omega
  · have hne : j ≠ i := fun hji => (hl.mem_erase_iff.mp hj).1 hji
    exact hpq j hne (hp j (List.mem_of_mem_erase hj))

/-- `i` passes what it holds to `j`. -/
theorem pass [DecidableEq ι] (h : Covers p n) (hj : ¬p j) (hq : q j)
    (hpq : ∀ k, k ≠ i → k ≠ j → p k → q k) : Covers q n := by
  have hspent : Covers (fun k => k ≠ j ∧ q k) (n - 1) := by
    refine h.spend (i := i) fun k hk hp => ?_
    have hkj : k ≠ j := fun hkj => hj (hkj ▸ hp)
    exact ⟨hkj, hpq k hk hkj hp⟩
  exact (hspent.gain (i := j) (fun h => h.1 rfl) hq fun k _ h => h.2).le (by omega)

end Covers

def Counts {ι : Type} (p : ι → Prop) (n : Nat) : Prop :=
  ∃ l : List ι, l.Nodup ∧ l.length = n ∧ ∀ i, i ∈ l ↔ p i

namespace Counts
variable {ι : Type} {p q : ι → Prop} {n : Nat} {i : ι}

theorem zero (h : ∀ i, ¬p i) : Counts p 0 :=
  ⟨[], .nil, rfl, fun i => ⟨nofun, fun hi => absurd hi (h i)⟩⟩

theorem eq_zero (h : Counts p n) (hp : ∀ i, ¬p i) : n = 0 := by
  obtain ⟨l, -, rfl, hl⟩ := h
  refine List.length_eq_zero_iff.mpr (List.eq_nil_iff_forall_not_mem.mpr fun i hi => ?_)
  exact hp i ((hl i).mp hi)

theorem congr (h : Counts p n) (hq : ∀ i, q i ↔ p i) : Counts q n := by
  obtain ⟨l, hl, hn, hp⟩ := h
  exact ⟨l, hl, hn, fun i => (hp i).trans (hq i).symm⟩

/-- `i` joins. -/
theorem join (h : Counts p n) (hi : ¬p i) (hq : ∀ j, q j ↔ j = i ∨ p j) : Counts q (n + 1) := by
  obtain ⟨l, hl, hn, hp⟩ := h
  have hil : i ∉ l := fun hm => hi ((hp i).mp hm)
  refine ⟨i :: l, List.nodup_cons.mpr ⟨hil, hl⟩, congrArg Nat.succ hn, fun j => ?_⟩
  rw [List.mem_cons, hp, hq]

/-- `i` leaves. -/
theorem leave [DecidableEq ι] (h : Counts p n) (hi : p i) (hq : ∀ j, q j ↔ j ≠ i ∧ p j) :
    ∃ m, n = m + 1 ∧ Counts q m := by
  obtain ⟨l, hl, rfl, hp⟩ := h
  have hil : i ∈ l := (hp i).mpr hi
  refine ⟨l.length - 1, ?_, l.erase i, hl.erase i, List.length_erase_of_mem hil, fun j => ?_⟩
  · have := List.length_pos_of_mem hil
    omega
  · rw [hl.mem_erase_iff, hp, hq]

end Counts
end Katas
