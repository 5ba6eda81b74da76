import Katas.Core.Prog
import Katas.Core.SeqRing

/-!
# A ring with one producer and one consumer

Free-running positions, a slot for each position modulo the size, and on each
side a private copy of the other side's index. The producer writes the slot
at `tail` and then publishes it; the consumer reads the slots below `tail`
and then moves `head`. `log` is the history of what was published.

`Inv` is what the two sides keep between them; there is one lemma for each
operation, with what its side must know when it does it.
-/
namespace Katas.Spsc
open Katas.Conc

structure Ring (α : Type) where
  slot : Nat → α
  tail : Nat
  head : Nat
  cachedHead : Nat
  cachedTail : Nat
  log : List α

namespace Ring
variable {α : Type}

def init (a : α) : Ring α := ⟨fun _ => a, 0, 0, 0, 0, []⟩

def write (n : Nat) (r : Ring α) (pos : Nat) (a : α) : Ring α :=
  { r with slot := upd r.slot (pos % n) a }

/-- Publishes `a`, which is in the slot at `tail`. -/
def publish (r : Ring α) (a : α) : Ring α := { r with tail := r.tail + 1, log := r.log ++ [a] }

def seeHead (r : Ring α) (h : Nat) : Ring α := { r with cachedHead := h }

def seeTail (r : Ring α) (t : Nat) : Ring α := { r with cachedTail := t }

def take (r : Ring α) (h : Nat) : Ring α := { r with head := h }

structure Inv (n : Nat) (r : Ring α) : Prop where
  seenHead : r.cachedHead ≤ r.head
  seenTail : r.head ≤ r.cachedTail ∧ r.cachedTail ≤ r.tail
  room : r.tail ≤ r.cachedHead + n
  length : r.log.length = r.tail
  stored : ∀ p, r.head ≤ p → p < r.tail → r.log[p]? = some (r.slot (p % n))

variable {n : Nat} {r : Ring α}

theorem init_inv (n : Nat) (a : α) : Inv n (init a) :=
  ⟨Nat.le_refl _, ⟨Nat.le_refl _, Nat.le_refl _⟩, Nat.zero_le _, rfl, fun p _ h => absurd h (Nat.not_lt_zero p)⟩

theorem Inv.head_le_tail (h : Inv n r) : r.head ≤ r.tail :=
  Nat.le_trans h.seenTail.1 h.seenTail.2

/-- The slot at `tail` is no position's that is still to be read. -/
theorem Inv.tail_free (h : Inv n r) (hroom : r.tail < r.cachedHead + n) {p : Nat}
    (hp : r.head ≤ p) (hlt : p < r.tail) : r.tail % n ≠ p % n := by
  intro he
  have hgap := SeqRing.Lanes.lane_gap he.symm hlt
  have hseen := h.seenHead
  omega

theorem Inv.write (h : Inv n r) (hroom : r.tail < r.cachedHead + n) (a : α) :
    Inv n (r.write n r.tail a) := by
  refine ⟨h.seenHead, h.seenTail, h.room, h.length, fun p hp hlt => ?_⟩
  show r.log[p]? = some (upd r.slot (r.tail % n) a (p % n))
  rw [upd_ne _ _ (h.tail_free hroom hp hlt).symm]
  exact h.stored p hp hlt

theorem Inv.publish (h : Inv n r) (hroom : r.tail < r.cachedHead + n) :
    Inv n (r.publish (r.slot (r.tail % n))) := by
  obtain ⟨h1, h2⟩ := h.seenTail
  refine ⟨h.seenHead, ⟨h1, Nat.le_succ_of_le h2⟩, hroom, ?_, fun p hp hlt => ?_⟩
  · simp [Ring.publish, h.length]
  · have hlt : p < r.tail + 1 := hlt
    simp only [Ring.publish]
    by_cases he : p = r.tail
    · subst he
      rw [List.getElem?_append_right (Nat.le_of_eq h.length), h.length, Nat.sub_self]
      rfl
    · rw [List.getElem?_append_left (by rw [h.length]; omega)]
      exact h.stored p hp (by omega)

theorem Inv.seeHead (h : Inv n r) {k : Nat} (h1 : r.cachedHead ≤ k) (h2 : k ≤ r.head) :
    Inv n (r.seeHead k) :=
  ⟨h2, h.seenTail, Nat.le_trans h.room (Nat.add_le_add_right h1 n), h.length, h.stored⟩

theorem Inv.seeTail (h : Inv n r) {k : Nat} (h1 : r.cachedTail ≤ k) (h2 : k ≤ r.tail) :
    Inv n (r.seeTail k) :=
  ⟨h.seenHead, ⟨Nat.le_trans h.seenTail.1 h1, h2⟩, h.room, h.length, h.stored⟩

theorem Inv.take (h : Inv n r) {k : Nat} (h1 : r.head ≤ k) (h2 : k ≤ r.cachedTail) :
    Inv n (r.take k) :=
  ⟨Nat.le_trans h.seenHead h1, ⟨h2, h.seenTail.2⟩, h.room, h.length,
    fun p hp hlt => h.stored p (Nat.le_trans h1 hp) hlt⟩

/-- The consumer's next position, when there is one. -/
theorem Inv.next (h : Inv n r) (hlt : r.head < r.cachedTail) :
    r.log[r.head]? = some (r.slot (r.head % n)) :=
  h.stored r.head (Nat.le_refl _) (Nat.lt_of_lt_of_le hlt h.seenTail.2)

/-- What was taken, and one more. -/
theorem take_succ_log (h : Inv n r) (hlt : r.head < r.cachedTail) :
    r.log.take (r.head + 1) = r.log.take r.head ++ [r.slot (r.head % n)] := by
  rw [List.take_add_one, h.next hlt]; rfl

end Ring
end Katas.Spsc
