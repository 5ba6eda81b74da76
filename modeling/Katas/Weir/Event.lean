import Mathlib.Data.List.Basic
import Mathlib.Algebra.Group.Int.Defs
import Mathlib.Algebra.Group.Nat.Defs

/-!
# The wire format of an event

The 32 bytes of `EVENT_STRUCT` (`<IIq16s`): producer id and sequence number as
unsigned 32-bit integers, the stamp as a signed 64-bit one, all little-endian,
and 16 bytes of payload. `pack` raises where an integer does not fit its field;
a payload is cut off or filled up with zeros. A sink's blob is a concatenation
of such records, and `records` takes it apart again.
-/
namespace Katas.Weir

abbrev Bytes := List UInt8

/-- The `k` bytes of `n` modulo `256 ^ k`, least significant first. -/
def leBytes : Nat → Nat → Bytes
  | 0, _ => []
  | k + 1, n => UInt8.ofNat (n % 256) :: leBytes k (n / 256)

def leNat : Bytes → Nat
  | [] => 0
  | b :: bs => b.toNat + 256 * leNat bs

@[simp] theorem length_leBytes (k n : Nat) : (leBytes k n).length = k := by
  induction k generalizing n with
  | zero => rfl
  | succ k ih => rw [leBytes, List.length_cons, ih]

theorem leNat_leBytes (k n : Nat) (h : n < 256 ^ k) : leNat (leBytes k n) = n := by
  induction k generalizing n with
  | zero =>
    rw [Nat.pow_zero] at h
    simp only [leBytes, leNat]
    omega
  | succ k ih =>
    rw [Nat.pow_succ] at h
    have hd : n / 256 < 256 ^ k := by
      apply (Nat.div_lt_iff_lt_mul (by decide)).mpr
      exact h
    simp only [leBytes, leNat, ih _ hd, UInt8.toNat_ofNat']
    omega

namespace Event

/-- mirrors mpsc-event-pipeline-kata/python/src/weir/event.py:19 -/
def EVENT_SIZE : Nat := 32

/-- The last field, `16s`. -/
def payload16 (payload : Bytes) : Bytes :=
  payload.take 16 ++ List.replicate (16 - payload.length) 0

/-- `none`: `struct.error`.
mirrors mpsc-event-pipeline-kata/python/src/weir/event.py:13-18 -/
def pack (producer_id seq stamp_ns : Int) (payload : Bytes) : Option Bytes :=
  if (0 ≤ producer_id ∧ producer_id < 2 ^ 32) ∧ (0 ≤ seq ∧ seq < 2 ^ 32) ∧
      -2 ^ 63 ≤ stamp_ns ∧ stamp_ns < 2 ^ 63 then
    some (leBytes 4 producer_id.toNat ++ leBytes 4 seq.toNat ++
      leBytes 8 (stamp_ns % 2 ^ 64).toNat ++ payload16 payload)
  else none

/-- The first field of a record. -/
def producer_id (record : Bytes) : Nat := leNat (record.take 4)

/-- The records of a concatenation of them. -/
def records (blob : Bytes) : List Bytes :=
  (List.range (blob.length / EVENT_SIZE)).map fun i => (blob.drop (EVENT_SIZE * i)).take EVENT_SIZE

theorem length_payload16 (payload : Bytes) : (payload16 payload).length = 16 := by
  simp only [payload16, List.length_append, List.length_take, List.length_replicate]
  omega

variable {p q t : Int} {payload r : Bytes}

theorem length_of_pack (h : pack p q t payload = some r) : r.length = EVENT_SIZE := by
  unfold pack at h
  split at h
  · cases h
    simp [length_payload16, EVENT_SIZE]
  · cases h

theorem producer_id_of_pack (h : pack p q t payload = some r) : (producer_id r : Int) = p := by
  unfold pack at h
  split at h
  · rename_i hc
    have hid : p.toNat < 256 ^ 4 := by omega
    cases h
    unfold producer_id
    rw [List.append_assoc, List.append_assoc, List.take_left' (length_leBytes 4 p.toNat)]
    rw [leNat_leBytes 4 _ hid]
    omega
  · cases h

theorem records_cons (hr : r.length = EVENT_SIZE) (blob : Bytes) :
    records (r ++ blob) = r :: records blob := by
  have hlen : (r ++ blob).length / EVENT_SIZE = blob.length / EVENT_SIZE + 1 := by
    rw [List.length_append, hr, Nat.add_comm]
    exact Nat.add_div_right _ (by decide)
  unfold records
  rw [hlen, List.range_succ_eq_map, List.map_cons, List.map_map]
  congr 1
  · rw [Nat.mul_zero, List.drop_zero]
    exact List.take_left' hr
  · refine List.map_congr_left fun i _ => ?_
    have hi : EVENT_SIZE * (i + 1) = r.length + EVENT_SIZE * i := by
      rw [hr, Nat.mul_succ, Nat.add_comm]
    rw [Function.comp_apply, hi, ← List.drop_drop, List.drop_left]

theorem records_flatten {l : List Bytes} (h : ∀ r ∈ l, r.length = EVENT_SIZE) :
    records l.flatten = l := by
  induction l with
  | nil => rfl
  | cons r l ih =>
    rw [List.flatten_cons, records_cons (h r List.mem_cons_self)]
    rw [ih fun r hr => h r (List.mem_cons_of_mem _ hr)]

end Event
end Katas.Weir
