import Katas.Turnstile.Api
import Mathlib.Data.Nat.Bitwise
import Mathlib.Data.UInt

/-!
# The ring's words

`turnstile.Ring` on its 64-bit words, its calls run one after another: the tail
word keeps 63 bits of position beside the closed bit, the head word 64, and a
sequence word gives its top bit to the tombstones. `try_push`, `try_pop` and
`close` of the C++ `Queue` do the same on the same words.

Run alone, a compare-and-swap succeeds if the word is the one last loaded, and
a loop that goes round without a store goes round forever: the loops take fuel,
and `none` is a call that has not returned.

Left out are the wake-ups, the counters of `OpStats`, the hooks, `Bug`, and
`closedAt`, which none of these calls loads.
-/
namespace Katas.Turnstile.Words
open Katas.Conc Katas.SeqRing

/-! ## The program -/

def closedBit : UInt64 := 1

def dead : UInt64 := (1 : UInt64) <<< 63

/-- mirrors mpmc-work-queue-kata/go/internal/turnstile/ring.go:42-61 and
cpp/src/mpmc_queue.hpp:151-154,458-459 -/
structure Ring (V : Type) where
  tail : UInt64
  head : UInt64
  seq : Nat → UInt64
  val : Nat → V

/-- `int64((seq &^ dead) - pos)`
mirrors mpmc-work-queue-kata/go/internal/turnstile/ring.go:264,337 and
cpp/src/mpmc_queue.hpp:194,266 -/
def dif (seq pos : UInt64) : Int64 := ((seq &&& ~~~dead) - pos).toInt64

section
variable {V : Type} (cap : Capacity)

/-- mirrors mpmc-work-queue-kata/go/internal/turnstile/ring.go:133-157 -/
def NewRing [Inhabited V] : Ring V := ⟨0, 0, .ofNat, fun _ => default⟩

/-- `&r.slots[pos&r.mask]` -/
def slot (pos : UInt64) : Nat := (pos &&& .ofNat (cap.n - 1)).toNat

/-- The position reserved, or why none is.
mirrors mpmc-work-queue-kata/go/internal/turnstile/ring.go:254-278 and
cpp/src/mpmc_queue.hpp:187-212 -/
def claim (r : Ring V) : Nat → Option (Except Push UInt64 × Ring V)
  | 0 => none
  | fuel + 1 =>
    let word := r.tail
    if word &&& closedBit ≠ 0 then some (.error .closed, r)
    else
      let pos := word >>> 1
      let dif := dif (r.seq (slot cap pos)) pos
      if dif = 0 then some (.ok pos, { r with tail := word + 2 })
      else if dif < 0 then some (.error .full, r)
      else claim r fuel

/-- mirrors mpmc-work-queue-kata/go/internal/turnstile/ring.go:282-297 and
cpp/src/mpmc_queue.hpp:384-394 -/
def publish (r : Ring V) (pos : UInt64) (v : V) : Ring V :=
  { r with val := upd r.val (slot cap pos) v, seq := upd r.seq (slot cap pos) (pos + 1) }

/-- What the deferred function of `TryPushFunc` publishes for a panicked fill.
mirrors mpmc-work-queue-kata/go/internal/turnstile/ring.go:231-241 -/
def tombstone [Inhabited V] (r : Ring V) (pos : UInt64) : Ring V :=
  { r with val := upd r.val (slot cap pos) default,
           seq := upd r.seq (slot cap pos) ((pos + 1) ||| dead) }

/-- mirrors mpmc-work-queue-kata/go/internal/turnstile/ring.go:162-168 and
cpp/src/mpmc_queue.hpp:187-212 -/
def TryPush (fuel : Nat) (r : Ring V) (v : V) : Option (Result V × Ring V) :=
  match claim cap r fuel with
  | none => none
  | some (.error res, r) => some (.push res, r)
  | some (.ok pos, r) => some (.push .ok, publish cap r pos v)

/-- `fill` is the value it leaves in its slot, none if it panics.
mirrors mpmc-work-queue-kata/go/internal/turnstile/ring.go:226-249 -/
def TryPushFunc [Inhabited V] (fuel : Nat) (r : Ring V) (fill : Option V) :
    Option (Result V × Ring V) :=
  match claim cap r fuel with
  | none => none
  | some (.error res, r) => some (.push res, r)
  | some (.ok pos, r) =>
    match fill with
    | some v => some (.push .ok, publish cap r pos v)
    | none => some (.panicked, tombstone cap r pos)

/-- mirrors mpmc-work-queue-kata/go/internal/turnstile/ring.go:462-467 and
cpp/src/mpmc_queue.hpp:406-419 -/
def release (r : Ring V) (pos : UInt64) : Ring V :=
  { r with seq := upd r.seq (slot cap pos) (pos + .ofNat cap.n) }

/-- mirrors mpmc-work-queue-kata/go/internal/turnstile/ring.go:448-460 and
cpp/src/mpmc_queue.hpp:396-404 -/
def consume [Inhabited V] (retain : Bool) (r : Ring V) (pos : UInt64) : V × Ring V :=
  let val := if retain then r.val else upd r.val (slot cap pos) default
  (r.val (slot cap pos), release cap { r with val := val } pos)

/-- From the load of the head, or from the position after a tombstone.
mirrors mpmc-work-queue-kata/go/internal/turnstile/ring.go:334-356 and
cpp/src/mpmc_queue.hpp:262-284 -/
def popFrom [Inhabited V] (retain : Bool) (r : Ring V) (pos : UInt64) :
    Nat → Option (Pop V × Ring V)
  | 0 => none
  | fuel + 1 =>
    let raw := r.seq (slot cap pos)
    let dif := dif raw (pos + 1)
    if dif = 0 then
      if r.head = pos then
        let r := { r with head := pos + 1 }
        if raw &&& dead = 0 then
          let (v, r) := consume cap retain r pos
          some (.ok v, r)
        else popFrom retain (release cap r pos) (pos + 1) fuel
      else popFrom retain r r.head fuel
    else if dif < 0 then some (.empty, r)
    else popFrom retain r r.head fuel

/-- mirrors mpmc-work-queue-kata/go/internal/turnstile/ring.go:332-357 and
cpp/src/mpmc_queue.hpp:261-284 -/
def TryPop [Inhabited V] (retain : Bool) (fuel : Nat) (r : Ring V) : Option (Pop V × Ring V) :=
  popFrom cap retain r r.head fuel

/-- mirrors mpmc-work-queue-kata/go/internal/turnstile/ring.go:479-485 and
cpp/src/mpmc_queue.hpp:357-361 -/
def Close (r : Ring V) : Ring V := { r with tail := r.tail ||| closedBit }

/-- The calls of the ring that do not block. -/
inductive Call (V : Type) where
  | tryPush (v : V)
  | tryPushFunc (fill : Option V)
  | tryPop
  | close
  deriving DecidableEq, Repr

/-- The two calls both languages have. -/
def Call.plain : Call V → Bool
  | .tryPush _ | .tryPop => true
  | _ => false

def call [Inhabited V] (retain : Bool) (fuel : Nat) (r : Ring V) :
    Call V → Option (Result V × Ring V)
  | .tryPush v => TryPush cap fuel r v
  | .tryPushFunc fill => TryPushFunc cap fuel r fill
  | .tryPop =>
    match TryPop cap retain fuel r with
    | none => none
    | some (res, r) => some (.pop res, r)
  | .close => some (.closed, Close r)

/-- The results of calls run one after another, none if one does not return. -/
def results [Inhabited V] (retain : Bool) (fuel : Nat) (r : Ring V) :
    List (Call V) → Option (List (Result V))
  | [] => some []
  | c :: cs =>
    match call cap retain fuel r c with
    | none => none
    | some (res, r) => (results retain fuel r cs).map (res :: ·)

end

/-! ## The reference queue -/

/-- A queue of values and of tombstones. `first` is the position of its first
entry; no result depends on it. -/
structure Fifo (V : Type) where
  first : Nat
  entries : List (Option V)
  closed : Bool
  deriving DecidableEq, Repr

namespace Fifo
variable {V : Type}

/-- The position after its last entry. -/
def next (q : Fifo V) : Nat := q.first + q.entries.length

def push (n : Nat) (q : Fifo V) (e : Option V) (done : Result V) : Result V × Fifo V :=
  if q.closed then (.push .closed, q)
  else if q.entries.length = n then (.push .full, q)
  else (done, { q with entries := q.entries ++ [e] })

/-- Past the tombstones to the first value. -/
def popOf (first : Nat) (closed : Bool) : List (Option V) → Pop V × Fifo V
  | [] => (.empty, ⟨first, [], closed⟩)
  | none :: es => popOf (first + 1) closed es
  | some v :: es => (.ok v, ⟨first + 1, es, closed⟩)

def pop (q : Fifo V) : Pop V × Fifo V := popOf q.first q.closed q.entries

def call (n : Nat) (q : Fifo V) : Call V → Result V × Fifo V
  | .tryPush v => q.push n (some v) (.push .ok)
  | .tryPushFunc (some v) => q.push n (some v) (.push .ok)
  | .tryPushFunc none => q.push n none .panicked
  | .tryPop => (.pop q.pop.1, q.pop.2)
  | .close => (.closed, { q with closed := true })

def results (n : Nat) (q : Fifo V) : List (Call V) → List (Result V)
  | [] => []
  | c :: cs => (q.call n c).1 :: results n (q.call n c).2 cs

/-- The queue after the calls. -/
def after (n : Nat) (q : Fifo V) : List (Call V) → Fifo V
  | [] => q
  | c :: cs => after n (q.call n c).2 cs

end Fifo

/-! ## The words -/

/-- `(next position << 1) | closed` -/
def tailOf (w : TailWord) : UInt64 := .ofNat (2 * w.pos + w.closed.toNat)

/-- A stamp, and the tombstone's bit. -/
def seqOf (s : SeqWord) : UInt64 := if s.dead then .ofNat s.stamp ||| dead else .ofNat s.stamp

theorem toNat_ofNat {n : Nat} (h : n < 2 ^ 64) : (UInt64.ofNat n).toNat = n :=
  UInt64.toNat_ofNat_of_lt' h

theorem toNat_dead : dead.toNat = 2 ^ 63 := by rfl

theorem toNat_live (w : UInt64) : (w &&& ~~~dead).toNat = w.toNat % 2 ^ 63 := by
  rw [UInt64.toNat_and, show (~~~dead).toNat = 2 ^ 63 - 1 by rfl]
  exact Nat.and_two_pow_sub_one_eq_mod _ _

theorem live_iff (w : UInt64) : w &&& dead = 0 ↔ w.toNat < 2 ^ 63 := by
  have hw : w.toNat < 2 ^ 64 := w.toNat_lt
  have hand : (w &&& dead).toNat = (w.toNat.testBit 63).toNat * 2 ^ 63 := by
    rw [UInt64.toNat_and, toNat_dead, Nat.and_two_pow]
  rw [← UInt64.toNat_inj, hand, Nat.testBit_eq_decide_div_mod_eq, UInt64.toNat_zero]
  by_cases hbit : w.toNat / 2 ^ 63 % 2 = 1
  · rw [decide_eq_true hbit]
    simp only [Bool.toNat_true]
    omega
  · rw [decide_eq_false hbit]
    simp only [Bool.toNat_false]
    omega

theorem toNat_or_dead {w : UInt64} (h : w.toNat < 2 ^ 63) :
    (w ||| dead).toNat = w.toNat + 2 ^ 63 := by
  have hor := Nat.two_pow_add_eq_or_of_lt h 1
  rw [Nat.mul_one] at hor
  rw [UInt64.toNat_or, toNat_dead, Nat.or_comm, ← hor, Nat.add_comm]

/-- The difference of a masked word and a position is exact. -/
theorem dif_toInt {seq pos : UInt64} (h : pos.toNat ≤ 2 ^ 63) :
    (dif seq pos).toInt = (seq.toNat % 2 ^ 63 : Nat) - (pos.toNat : Int) := by
  have hsub : ((seq &&& ~~~dead) - pos).toNat = (2 ^ 64 - pos.toNat + seq.toNat % 2 ^ 63) % 2 ^ 64 := by
    rw [UInt64.toNat_sub, toNat_live]
  show ((seq &&& ~~~dead) - pos).toBitVec.toInt = _
  rw [BitVec.toInt_eq_toNat_cond]
  show (if 2 * ((seq &&& ~~~dead) - pos).toNat < 2 ^ 64 then (((seq &&& ~~~dead) - pos).toNat : Int)
    else ((seq &&& ~~~dead) - pos).toNat - (2 ^ 64 : Nat)) = _
  rw [hsub]
  split <;> omega

theorem dif_eq_zero {seq pos : UInt64} (h : pos.toNat ≤ 2 ^ 63) :
    dif seq pos = 0 ↔ seq.toNat % 2 ^ 63 = pos.toNat := by
  rw [← Int64.toInt_inj, dif_toInt h, show (0 : Int64).toInt = 0 by rfl]
  omega

theorem dif_neg {seq pos : UInt64} (h : pos.toNat ≤ 2 ^ 63) :
    dif seq pos < 0 ↔ seq.toNat % 2 ^ 63 < pos.toNat := by
  rw [Int64.lt_iff_toInt_lt, dif_toInt h, show (0 : Int64).toInt = 0 by rfl]
  omega

theorem toNat_tailOf {w : TailWord} (h : w.pos < 2 ^ 63) :
    (tailOf w).toNat = 2 * w.pos + w.closed.toNat := by
  have hbit := Bool.toNat_le w.closed
  exact toNat_ofNat (by omega)

theorem tailOf_closed {w : TailWord} (h : w.pos < 2 ^ 63) :
    tailOf w &&& closedBit = 0 ↔ w.closed = false := by
  rw [← UInt64.toNat_inj, UInt64.toNat_and, show closedBit.toNat = 1 by rfl, Nat.and_one_is_mod,
    toNat_tailOf h, UInt64.toNat_zero, Nat.mul_add_mod]
  cases w.closed <;> decide

theorem tailOf_pos {w : TailWord} (h : w.pos < 2 ^ 63) : (tailOf w >>> 1).toNat = w.pos := by
  have hbit := Bool.toNat_le w.closed
  rw [UInt64.toNat_shiftRight, toNat_tailOf h, show (1 : UInt64).toNat % 64 = 1 by rfl,
    Nat.shiftRight_eq_div_pow]
  omega

/-- The position wraps with the word. -/
theorem tailOf_next (t : Nat) :
    tailOf ⟨t % 2 ^ 63, false⟩ + 2 = tailOf ⟨(t + 1) % 2 ^ 63, false⟩ := by
  have h1 : t % 2 ^ 63 < 2 ^ 63 := Nat.mod_lt _ (by decide)
  have h2 : (t + 1) % 2 ^ 63 < 2 ^ 63 := Nat.mod_lt _ (by decide)
  rw [← UInt64.toNat_inj, UInt64.toNat_add, toNat_tailOf h1, toNat_tailOf h2,
    show (2 : UInt64).toNat = 2 by rfl]
  simp only [Bool.toNat_false]
  omega

theorem tailOf_close {t : Nat} (h : t < 2 ^ 63) (c : Bool) :
    tailOf ⟨t, c⟩ ||| closedBit = tailOf ⟨t, true⟩ := by
  have hor : 2 * t ||| 1 = 2 * t + 1 := (Nat.two_pow_add_eq_or_of_lt (i := 1) (by decide) t).symm
  rw [← UInt64.toNat_inj, UInt64.toNat_or, toNat_tailOf h, toNat_tailOf h,
    show closedBit.toNat = 1 by rfl]
  cases c
  · exact hor
  · show 2 * t + 1 ||| 1 = 2 * t + 1
    rw [← hor, Nat.or_assoc, Nat.or_self]

/-- A stamp below the dead bit is read back, with the bit masked or not. -/
theorem seqOf_live {s : SeqWord} (h : s.stamp < 2 ^ 63) : (seqOf s).toNat % 2 ^ 63 = s.stamp := by
  have hn : (UInt64.ofNat s.stamp).toNat = s.stamp := toNat_ofNat (by omega)
  unfold seqOf
  split
  · rw [toNat_or_dead (by omega)]
    omega
  · omega

theorem seqOf_dead {s : SeqWord} (h : s.stamp < 2 ^ 63) : seqOf s &&& dead = 0 ↔ s.dead = false := by
  have hn : (UInt64.ofNat s.stamp).toNat = s.stamp := toNat_ofNat (by omega)
  rw [live_iff]
  unfold seqOf
  cases s.dead with
  | true =>
    rw [if_pos rfl, toNat_or_dead (by omega)]
    simp
  | false =>
    rw [if_neg (by decide), hn]
    simpa using h

/-- The stamp that is the dead bit reads as zero. -/
theorem seqOf_wrapped (d : Bool) : (seqOf ⟨2 ^ 63, d⟩).toNat % 2 ^ 63 = 0 := by
  cases d <;> rfl

theorem seqOf_first {x : Nat} (hx : x < 2 ^ 63) (d : Bool) :
    (seqOf ⟨x + 1, d⟩).toNat % 2 ^ 63 = (x + 1) % 2 ^ 63 := by
  by_cases hlast : x + 1 < 2 ^ 63
  · rw [seqOf_live hlast, Nat.mod_eq_of_lt hlast]
  · rw [show x + 1 = 2 ^ 63 by omega, seqOf_wrapped, Nat.mod_self]

/-- Below 2^63 the test of the words is the test of the pairs. -/
theorem dif_seqOf {s : SeqWord} {pos : Nat} (hs : s.stamp < 2 ^ 63) (hp : pos < 2 ^ 63) :
    (dif (seqOf s) (.ofNat pos)).toInt = Turnstile.dif s pos := by
  have hpos : (UInt64.ofNat pos).toNat = pos := toNat_ofNat (by omega)
  rw [dif_toInt (by omega), seqOf_live hs, hpos]
  rfl

/-- What the sources read off the words of a ring is what the pairs hold. -/
def Exact (N : Nat) (r : Lanes) (closed : Bool) : Prop :=
  (tailOf ⟨r.tail, closed⟩ >>> 1).toNat = r.tail ∧
  (tailOf ⟨r.tail, closed⟩ &&& closedBit = 0 ↔ closed = false) ∧
  ∀ i, i < N → (seqOf (r.seq i) &&& dead = 0 ↔ (r.seq i).dead = false) ∧
    ∀ pos, pos < 2 ^ 63 →
      (dif (seqOf (r.seq i)) (.ofNat pos)).toInt = Turnstile.dif (r.seq i) pos

/-- So it is while no stamp can reach the dead bit. -/
theorem words_exact {N : Nat} {r : Lanes} (h : r.Inv N) (hb : r.tail + N ≤ 2 ^ 63)
    (closed : Bool) : Exact N r closed := by
  have h2 := h.two_le
  have htail : r.tail < 2 ^ 63 := by omega
  refine ⟨tailOf_pos (w := ⟨r.tail, closed⟩) htail, tailOf_closed (w := ⟨r.tail, closed⟩) htail,
    fun i hi => ?_⟩
  have hs : (r.seq i).stamp < 2 ^ 63 := Nat.lt_of_lt_of_le (h.stamp_lt_lap hi) hb
  exact ⟨seqOf_dead hs, fun pos hp => dif_seqOf hs hp⟩

end Katas.Turnstile.Words
