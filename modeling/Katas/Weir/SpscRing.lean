import Katas.Core.Counter
import Katas.Core.Object
import Katas.Core.Spsc

/-!
# The single-producer single-consumer ring

`try_push` on one side, `pop_batch` and `empty_now` on the other, one load or
store of the shared ring at a time. The four indices are free-running 64-bit
words that begin at any common value, and the slots are chosen by their low
bits. A load of the other side's index and the store of its private copy are
one operation: the copy belongs to the thread.

`pushed`, `copied` and `released` are the history: what was published, what
was read out of a slot, and how much of that a store of `head` has released.
-/
namespace Katas.Weir.SpscRing
open Katas.Conc Katas.Counter

/-- mirrors mpsc-event-pipeline-kata/cpp/src/spsc_ring.hpp:25-26: a power of
two, at least 2, that fits a `size_t`. `RingCapacity` is one in Go. -/
structure Capacity where
  log : Nat
  two_le : 1 ≤ log
  fits : log < 64

abbrev Capacity.two : Capacity := ⟨1, by decide, by decide⟩

def Capacity.size (c : Capacity) : Nat := 2 ^ c.log

inductive Side where
  | producer
  | consumer
  deriving DecidableEq, Repr

/-- mirrors mpsc-event-pipeline-kata/cpp/src/spsc_ring.hpp:94-100 and
go/internal/weir/spsc_ring.go:42-54 -/
structure Ring (T : Type) (c : Capacity) where
  tail : BitVec 64
  cachedHead : BitVec 64
  head : BitVec 64
  cachedTail : BitVec 64
  slots : Fin (2 ^ c.log) → T

/-- The ring and its history. -/
structure State (T : Type) (c : Capacity) where
  ring : Ring T c
  pushed : List T
  copied : List T
  released : Nat

section
variable {T : Type} {c : Capacity}

def State.init [Inhabited T] (start : BitVec 64) : State T c :=
  ⟨⟨start, start, start, start, fun _ => default⟩, [], [], 0⟩

/-- What was published and not yet released. -/
def State.held (s : State T c) : List T := s.pushed.drop s.released

/-- `headSee` and `tailSee` load the other side's index into the private copy;
`tailStore` records `v` as published. -/
inductive Act (T : Type) (c : Capacity) where
  | tailLoad
  | cachedHeadLoad
  | headSee
  | slotStore (i : Fin (2 ^ c.log)) (v : T)
  | tailStore (t : BitVec 64) (v : T)
  | headLoad
  | cachedTailLoad
  | tailSee
  | slotLoad (i : Fin (2 ^ c.log))
  | headStore (h : BitVec 64)

@[reducible] def Resp : Act T c → Type
  | .slotStore _ _ | .tailStore _ _ | .headStore _ => Unit
  | .slotLoad _ => T
  | _ => BitVec 64

def sem (_ : Side) (a : Act T c) (_ : Nat) (s : State T c) : Option (State T c × Resp a) :=
  match a with
  | .tailLoad => some (s, s.ring.tail)
  | .cachedHeadLoad => some (s, s.ring.cachedHead)
  | .headSee => some ({ s with ring := { s.ring with cachedHead := s.ring.head } }, s.ring.head)
  | .slotStore i v => some ({ s with ring := { s.ring with slots := upd s.ring.slots i v } }, ())
  | .tailStore t v =>
    some ({ s with ring := { s.ring with tail := t }, pushed := s.pushed ++ [v] }, ())
  | .headLoad => some (s, s.ring.head)
  | .cachedTailLoad => some (s, s.ring.cachedTail)
  | .tailSee => some ({ s with ring := { s.ring with cachedTail := s.ring.tail } }, s.ring.tail)
  | .slotLoad i =>
    some ({ s with copied := s.copied ++ [s.ring.slots i] }, s.ring.slots i)
  | .headStore h =>
    some ({ s with ring := { s.ring with head := h }, released := s.copied.length }, ())

inductive Call (T : Type) where
  | tryPush (v : T)
  | popBatch (max : BitVec 64)
  | emptyNow

inductive Result (T : Type) where
  | pushed (ok : Bool)
  | popped (out : List T)
  | empty (b : Bool)
  deriving DecidableEq

/-- The copy loop of a `popBatch` at head `h` with `n` items to copy, `i` of
them copied. -/
inductive Proc (T : Type) where
  | copyLoop (h n i : BitVec 64) (out : List T)

abbrev sig (T : Type) (c : Capacity) : Sig where
  Act := Act T c
  Resp := Resp
  Proc := Proc T
  Ret := fun _ => List T

abbrev M (T : Type) (c : Capacity) (α : Type) := Prog (sig T c) α

abbrev op (a : Act T c) : M T c (Resp a) := Prog.op (S := sig T c) a

abbrev proc (p : Proc T) : M T c (List T) := Prog.proc (S := sig T c) p

/-- `Capacity` as the word the indices are compared with. -/
def Capacity.word (c : Capacity) : BitVec 64 := BitVec.ofNat 64 c.size

/-- mirrors mpsc-event-pipeline-kata/cpp/src/spsc_ring.hpp:41-44 and
go/internal/weir/spsc_ring.go:78-84 -/
def store (v : T) (t : BitVec 64) : M T c Bool := do
  op (.slotStore (slotOf c.log t) v)
  op (.tailStore (t + 1) v)
  return true

/-- mirrors mpsc-event-pipeline-kata/cpp/src/spsc_ring.hpp:32-45 and
go/internal/weir/spsc_ring.go:66-85 -/
def tryPush (v : T) : M T c Bool := do
  let t ← op .tailLoad
  let cached ← op .cachedHeadLoad
  if t - cached = c.word then
    let h ← op .headSee
    if t - h = c.word then
      return false
    else
      store v t
  else
    store v t

/-- How many are copied of `avail`.
mirrors mpsc-event-pipeline-kata/cpp/src/spsc_ring.hpp:64 and
go/internal/weir/spsc_ring.go:110-113 -/
def batch (max avail : BitVec 64) : BitVec 64 := if avail < max then avail else max

/-- mirrors mpsc-event-pipeline-kata/cpp/src/spsc_ring.hpp:64-70 and
go/internal/weir/spsc_ring.go:110-131 -/
def popFrom (max h t : BitVec 64) : M T c (List T) := do
  let out ← proc (.copyLoop h (batch max (t - h)) 0 [])
  op (.headStore (h + batch max (t - h)))
  return out

/-- mirrors mpsc-event-pipeline-kata/cpp/src/spsc_ring.hpp:58-71 and
go/internal/weir/spsc_ring.go:102-132; the items returned are those written
to `out`. -/
def popBatch (max : BitVec 64) : M T c (List T) := do
  let h ← op .headLoad
  let cached ← op .cachedTailLoad
  if h = cached then
    let t ← op .tailSee
    if h = t then
      return []
    else
      popFrom max h t
  else
    popFrom max h cached

/-- mirrors mpsc-event-pipeline-kata/cpp/src/spsc_ring.hpp:65 and
go/internal/weir/spsc_ring.go:114-116 -/
def copyLoop (h n i : BitVec 64) (out : List T) : M T c (List T) :=
  if i < n then do
    let v ← op (.slotLoad (slotOf c.log (h + i)))
    proc (.copyLoop h n (i + 1) (out ++ [v]))
  else
    return out

/-- mirrors mpsc-event-pipeline-kata/cpp/src/spsc_ring.hpp:75-78 and
go/internal/weir/spsc_ring.go:137-140 -/
def emptyNow : M T c Bool := do
  let t ← op .tailSee
  let h ← op .headLoad
  return h == t

def code : Call T → M T c (Result T)
  | .tryPush v => do return .pushed (← tryPush v)
  | .popBatch max => do return .popped (← popBatch max)
  | .emptyNow => do return .empty (← emptyNow)

def body : (p : Proc T) → M T c (List T)
  | .copyLoop h n i out => copyLoop h n i out

/-- One producer and one consumer. -/
def enabled (_ : State T c) : Side → Call T → Bool
  | .producer, .tryPush _ => true
  | .consumer, .popBatch _ => true
  | .consumer, .emptyNow => true
  | _, _ => false

end

abbrev ring (T : Type) [Inhabited T] (c : Capacity) (start : BitVec 64) : System where
  sig := sig T c
  State := State T c
  Tid := Side
  Call := Call T
  Result := Result T
  decTid := inferInstance
  init := .init start
  enabled := enabled
  begin _ _ s := s
  finish _ _ _ s := s
  code := code
  body := body
  sem := sem

end Katas.Weir.SpscRing
