import Katas.Core.SeqRing

/-!
# What the turnstile queues share

How a push and a pop end, the two reservation disciplines, and the two words
every operation of the ring works on: the tail word, which carries the next
position and the closed bit, and a slot's sequence word, which carries a
stamp and the dead bit.

The words are read as pairs with an unbounded position. `Words.tailOf` and
`Words.seqOf` are the source's 64-bit words. In every state whose tail is a lap
below 2^63 the tests the sources make on the words are the ones made here on
the pairs (`ring_words`, `queue_words`, `sharded_words`), and what the words do
beyond is in `Words`.
-/
namespace Katas.Turnstile
open Katas.SeqRing (SeqWord)

/-- mirrors mpmc-work-queue-kata/go/internal/turnstile/api.go:8-13 and
cpp/src/queue_api.hpp:12 -/
inductive Push where
  | ok
  | full
  | timeout
  | closed
  deriving DecidableEq, Repr

/-- How a pop ended; `ok` carries the value written to `out`.
mirrors mpmc-work-queue-kata/go/internal/turnstile/api.go:18-23 and
cpp/src/queue_api.hpp:13 -/
inductive Pop (V : Type) where
  | ok (v : V)
  | empty
  | drained
  | timeout
  deriving DecidableEq, Repr

/-- How a call ended. `panicked`: the `fill` of a `TryPushFunc` panicked and the
panic went on to the caller (Go only); `closed`: the call was a close. -/
inductive Result (V : Type) where
  | push (r : Push)
  | pop (r : Pop V)
  | panicked
  | closed
  deriving DecidableEq, Repr

/-- mirrors mpmc-work-queue-kata/go/internal/turnstile/ring.go:76-85 and
cpp/src/mpmc_queue.hpp:65 -/
inductive Reserve where
  | cas
  | ticket
  deriving DecidableEq, Repr

/-- `(next position << 1) | closed` -/
structure TailWord where
  pos : Nat
  closed : Bool
  deriving DecidableEq, Repr

/-- A capacity `NewRing` and `Queue` accept: a power of two, at least 2.
mirrors mpmc-work-queue-kata/go/internal/turnstile/ring.go:134-136 and
cpp/src/mpmc_queue.hpp:102 -/
structure Capacity where
  n : Nat
  two_le : 2 ≤ n
  pow : n &&& (n - 1) = 0

abbrev Capacity.two : Capacity := ⟨2, by decide, by decide⟩

abbrev Capacity.four : Capacity := ⟨4, by decide, by decide⟩

/-- A call: the goroutine or thread that made it, and how many it had made
before. -/
abbrev CallId (Tid : Type) := Tid × Nat

/-- `int64((seq &^ dead) - pos)`: how far the slot is ahead of `pos`.
mirrors mpmc-work-queue-kata/go/internal/turnstile/ring.go:264,337 and
cpp/src/mpmc_queue.hpp:194,266 -/
def dif (seq : SeqWord) (pos : Nat) : Int := (seq.stamp : Int) - pos

theorem dif_eq_zero {seq : SeqWord} {pos : Nat} : dif seq pos = 0 ↔ seq.stamp = pos := by
  unfold dif; omega

theorem dif_neg {seq : SeqWord} {pos : Nat} : dif seq pos < 0 ↔ seq.stamp < pos := by
  unfold dif; omega

end Katas.Turnstile
