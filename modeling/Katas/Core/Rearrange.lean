import Mathlib.Algebra.BigOperators.Group.List.Basic
import Mathlib.Algebra.Order.BigOperators.Group.List
import Mathlib.Algebra.Order.Monoid.Canonical.Defs
import Mathlib.Data.List.Perm.Subperm

/-!
# Rearrangements of a list

The first elements of a list in descending order have the largest sum that as
many of its elements can have (`sum_le_take`). So among the rearrangements of a
list, the descending one has the largest sums of first elements, each of them
(`take_sum_le`) and together (`prefixes_le`).
-/
namespace Katas.Rearrange

section
variable {M : Type} [AddCommMonoid M]

/-- The sum of the sums of the first elements, of all but the whole list. -/
def prefixes (l : List M) : M := ((List.range l.length).map fun j => (l.take j).sum).sum

theorem prefixes_cons (a : M) (l : List M) : prefixes (a :: l) = l.length • a + prefixes l := by
  unfold prefixes
  rw [List.length_cons, List.range_succ_eq_map, List.map_cons, List.sum_cons, List.take_zero,
    List.sum_nil, zero_add, List.map_map]
  have hstep : (fun j => ((a :: l).take j).sum) ∘ Nat.succ = fun j => a + (l.take j).sum := by
    funext j
    simp only [Function.comp_apply, List.take_succ_cons, List.sum_cons]
  rw [hstep, List.sum_map_add, List.map_const', List.sum_replicate, List.length_range]

end

variable {M : Type} [AddCommMonoid M] [PartialOrder M] [IsOrderedAddMonoid M]
  [CanonicallyOrderedAdd M] {l l' m : List M}

theorem sum_le_take (hl : l.Pairwise (· ≥ ·)) (hm : m.Sublist l) {j : Nat} (hj : m.length ≤ j) :
    m.sum ≤ (l.take j).sum := by
  induction l generalizing m j with
  | nil => rw [List.sublist_nil.mp hm, List.take_nil]
  | cons a l ih =>
    obtain ⟨ha, hl⟩ := List.pairwise_cons.mp hl
    cases m with
    | nil => exact zero_le
    | cons b m =>
      obtain ⟨j, rfl⟩ : ∃ i, j = i + 1 := ⟨j - 1, by rw [List.length_cons] at hj; omega⟩
      have hlen : m.length ≤ j := by simpa using hj
      rw [List.take_succ_cons, List.sum_cons, List.sum_cons]
      -- the first of them is the list's first, or comes later and is no greater
      cases hm with
      | cons_cons _ hm => exact add_le_add_right (ih hl hm hlen) a
      | cons _ hm =>
        have hb : b ∈ l := hm.subset List.mem_cons_self
        exact add_le_add (ha b hb) (ih hl ((List.sublist_cons_self b m).trans hm) hlen)

/-- The descending order has the largest sums. -/
theorem take_sum_le (hl : l.Pairwise (· ≥ ·)) (hp : l'.Perm l) (j : Nat) :
    (l'.take j).sum ≤ (l.take j).sum := by
  obtain ⟨m, hperm, hm⟩ := (List.take_sublist j l').subperm.trans hp.subperm
  rw [← hperm.sum_eq]
  exact sum_le_take hl hm (hperm.length_eq.trans_le (List.length_take_le j l'))

theorem prefixes_le (hl : l.Pairwise (· ≥ ·)) (hp : l'.Perm l) : prefixes l' ≤ prefixes l := by
  unfold prefixes
  rw [hp.length_eq]
  exact List.sum_le_sum fun j _ => take_sum_le hl hp j

end Katas.Rearrange
