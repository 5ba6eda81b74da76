import Mathlib.Data.Nat.Bitwise
import Mathlib.Logic.Function.Basic

/-!
# Mixing words

The steps that hash functions of words are made of, each of which loses
nothing: a word xored with its own right shift, a product with a word that has
an inverse, an xor and a sum with a fixed word; and the word that holds two half
words side by side.
-/
namespace Katas.Mixing
open Function

/-- The top bits are kept, and from the top down each bit is found from the
ones above it. -/
theorem xor_shift_injective {w k : Nat} (hk : 0 < k) :
    Injective fun x : BitVec w => x ^^^ x >>> k := by
  intro x y h
  have hbit : ∀ i, (x.getLsbD i ^^ x.getLsbD (k + i)) = (y.getLsbD i ^^ y.getLsbD (k + i)) := by
    intro i
    simpa only [BitVec.getLsbD_xor, BitVec.getLsbD_ushiftRight] using
      congrArg (fun z : BitVec w => z.getLsbD i) h
  have hall : ∀ d i, w ≤ i + d → x.getLsbD i = y.getLsbD i := by
    intro d
    induction d with
    | zero =>
      intro i hi
      rw [BitVec.getLsbD_of_ge x i hi, BitVec.getLsbD_of_ge y i hi]
    | succ d ih =>
      intro i hi
      have habove := ih (k + i) (by omega)
      have hb := hbit i
      rw [habove] at hb
      exact Bool.xor_left_inj.mp hb
  exact BitVec.eq_of_getLsbD_eq fun i _ => hall w i (by omega)

theorem xorShift_injective {k : UInt64} (hk : 0 < k.toNat % 64) :
    Injective fun x : UInt64 => x ^^^ x >>> k := by
  intro x y h
  refine UInt64.toBitVec_inj.mp (xor_shift_injective hk ?_)
  have hb := congrArg UInt64.toBitVec h
  simpa [UInt64.toBitVec_shiftRight] using hb

theorem mul_injective {c d : UInt64} (h : c * d = 1) : Injective fun x : UInt64 => x * c := by
  intro x y he
  have hd := congrArg (· * d) he
  simpa only [UInt64.mul_assoc, h, UInt64.mul_one] using hd

theorem xor_injective (c : UInt64) : Injective fun x : UInt64 => x ^^^ c := by
  intro x y h
  exact UInt64.toBitVec_inj.mp
    ((BitVec.xor_left_inj c.toBitVec).mp (congrArg UInt64.toBitVec h))

theorem add_injective (c : UInt64) : Injective fun x : UInt64 => x + c :=
  fun _ _ h => UInt64.add_left_inj c |>.mp h

/-- The word with `a` in the upper half and `b` in the lower. -/
def pair (a b : UInt32) : UInt64 := a.toUInt64 <<< 32 ||| b.toUInt64

theorem pair_toNat (a b : UInt32) : (pair a b).toNat = a.toNat * 2 ^ 32 + b.toNat := by
  have ha := a.toNat_lt
  have hb := b.toNat_lt
  have hshift : a.toNat <<< 32 % 2 ^ 64 = 2 ^ 32 * a.toNat := by
    rw [Nat.shiftLeft_eq, Nat.mod_eq_of_lt (by omega), Nat.mul_comm]
  unfold pair
  rw [UInt64.toNat_or, UInt64.toNat_shiftLeft, UInt32.toNat_toUInt64, UInt32.toNat_toUInt64,
    show (32 : UInt64).toNat % 64 = 32 from rfl, hshift, ← Nat.two_pow_add_eq_or_of_lt hb,
    Nat.mul_comm]

theorem pair_inj {a b c d : UInt32} : pair a b = pair c d ↔ a = c ∧ b = d := by
  refine ⟨fun h => ?_, fun h => by rw [h.1, h.2]⟩
  have hn := congrArg UInt64.toNat h
  rw [pair_toNat, pair_toNat] at hn
  have hb := b.toNat_lt
  have hd := d.toNat_lt
  exact ⟨UInt32.toNat_inj.mp (by omega), UInt32.toNat_inj.mp (by omega)⟩

/-! ## Words absorbed one after another -/

/-- A multiplicative hash takes a word in. -/
def absorb (c h x : UInt64) : UInt64 := (h ^^^ x) * c

variable {c d : UInt64}

theorem absorb_state (hc : c * d = 1) (x : UInt64) : Injective fun h => absorb c h x :=
  (mul_injective hc).comp (xor_injective x)

theorem absorb_word (hc : c * d = 1) (h : UInt64) : Injective (absorb c h) := by
  intro x y he
  have hx := mul_injective hc he
  rw [UInt64.xor_comm, UInt64.xor_comm h] at hx
  exact xor_injective h hx

/-- Two states stay apart while the same words are taken in. -/
theorem foldl_absorb (hc : c * d = 1) (l : List UInt64) : Injective fun h => l.foldl (absorb c) h := by
  induction l with
  | nil => exact fun _ _ h => h
  | cons x l ih => exact ih.comp (absorb_state hc x)

/-- One word in another's place changes the hash. -/
theorem foldl_absorb_replaced (hc : c * d = 1) (l m : List UInt64) (h : UInt64) {x y : UInt64} :
    (l ++ x :: m).foldl (absorb c) h = (l ++ y :: m).foldl (absorb c) h ↔ x = y := by
  refine ⟨fun he => ?_, fun he => by rw [he]⟩
  rw [List.foldl_append, List.foldl_append, List.foldl_cons, List.foldl_cons] at he
  exact absorb_word hc _ (foldl_absorb hc m he)

theorem absorb_state_surjective (hc : c * d = 1) (x : UInt64) :
    Surjective fun h => absorb c h x := by
  intro y
  refine ⟨y * d ^^^ x, ?_⟩
  show (y * d ^^^ x ^^^ x) * c = y
  rw [UInt64.xor_assoc, UInt64.xor_self, UInt64.xor_zero, UInt64.mul_assoc, UInt64.mul_comm d, hc,
    UInt64.mul_one]

theorem absorb_word_surjective (hc : c * d = 1) (h : UInt64) : Surjective (absorb c h) := by
  intro y
  obtain ⟨x, hx⟩ := absorb_state_surjective hc h y
  refine ⟨x, ?_⟩
  unfold absorb at hx ⊢
  rwa [UInt64.xor_comm]

/-- The multiplier of 64-bit FNV-1a. -/
def fnv : UInt64 := 0x100000001b3

theorem fnv_inv : fnv * 0xce965057aff6957b = 1 := by decide

end Katas.Mixing
