import Katas.Core.Flow
import Katas.Core.Spsc
import Katas.Turnstile.Cpp.Queue

/-!
# The sharded queue

`turnstile::ShardedQueue` as a `System`: one operation for every access to an
atomic, to the private fields of a ring or of a consumer, and to a slot, and
the operations of the event counts (`EventCount`). Positions are unbounded
naturals (`Katas.Turnstile.Api`); the environment decides when a wait times
out, which thread a wake reaches, and whether the clock has passed a deadline.

An event carries the producer and the call that pushed it, which nothing
reads. Left out, because nothing here reads them: the counters of `OpStats`,
the hooks, the padding, the pauses and yields, and the three readers
`closed`, `reserved` and `claimed`, which change nothing.

The histories (`busy`, `begun`, `taken`, `delivered`, `gone`, `results`, and
each ring's `log`) are written by the operations they record. Only `busy` is
read, by `enabled`: one thread for each producer id and each consumer id.
-/
namespace Katas.Turnstile.Sharded
open Katas.Conc
open Katas.Turnstile.Cpp (EventCount kSpins)

/-- mirrors mpmc-work-queue-kata/cpp/src/sharded_queue.hpp:52-61 -/
structure Shape where
  P : Nat
  C : Nat
  ring : Capacity
  P_pos : 0 < P
  C_pos : 0 < C
  divides : C ∣ P

namespace Shape

/-- mirrors mpmc-work-queue-kata/cpp/src/sharded_queue.hpp:61 -/
def kOwned (g : Shape) : Nat := g.P / g.C

/-- mirrors mpmc-work-queue-kata/cpp/src/sharded_queue.hpp:64 -/
def kFullWakeEvery (g : Shape) : Nat := if 128 ≤ g.ring.n then 64 else g.ring.n / 2

/-- mirrors mpmc-work-queue-kata/cpp/src/sharded_queue.hpp:218 -/
def ring_of (g : Shape) (consumer k : Nat) : Nat := consumer + g.C * k

end Shape

/-- A producer id or a consumer id, and the event count its thread waits on:
a ring's `not_full`, a consumer's `not_empty`. -/
inductive Side where
  | producer (p : Nat)
  | consumer (c : Nat)
  deriving DecidableEq, Repr

structure Item (V Tid : Type) where
  producer : Nat
  call : CallId Tid
  value : V
  deriving DecidableEq, Inhabited

inductive Call (V : Type) where
  | try_push (p : Nat) (v : V)
  | push (p : Nat) (v : V)
  | try_pop (c : Nat)
  | pop (c : Nat)
  | close
  deriving DecidableEq, Repr

/-- An operation of an event count. -/
inductive CountAct where
  | epochLoad
  | epochAdd
  | waitersLoad
  | waitersAdd
  | waitersSub
  | pendingLoad
  | pendingClear
  | pendingExchange
  | waitOn (key : Nat)
  | blocked
  | wakeOne
  | wakeAll
  deriving DecidableEq, Repr

@[reducible] def CountAct.Resp : CountAct → Type
  | .epochLoad | .waitersLoad => Nat
  | .pendingLoad | .pendingExchange => Bool
  | _ => Unit

inductive Act (V : Type) where
  | tailLoad (p : Nat)
  | tailCas (p : Nat) (word : TailWord)
  | tailOr (p : Nat)
  | headLoad (p : Nat)
  | headStore (p pos : Nat)
  | cachedHeadLoad (p : Nat)
  | cachedHeadStore (p h : Nat)
  | cachedTailLoad (p : Nat)
  | cachedTailStore (p t : Nat)
  | slotWrite (p pos : Nat) (v : V)
  | slotRead (p pos : Nat)
  | nextLoad (c : Nat)
  | nextStore (c i : Nat)
  | count (w : Side) (a : CountAct)
  | expired
  deriving DecidableEq, Repr

@[reducible] def Resp {V : Type} (Tid : Type) : Act V → Type
  | .tailLoad _ => TailWord
  | .tailCas _ _ | .expired => Bool
  | .headLoad _ | .cachedHeadLoad _ | .cachedTailLoad _ | .nextLoad _ => Nat
  | .slotRead _ _ => Item V Tid
  | .count _ a => a.Resp
  | .tailOr _ | .headStore _ _ | .cachedHeadStore _ _ | .cachedTailStore _ _ | .slotWrite _ _ _
  | .nextStore _ _ => Unit

/-- The loops without a bound of their own. -/
inductive Proc (V : Type) where
  | pushLoop (p : Nat) (v : V)
  | popLoop (c : Nat)
  | waitLoop (w : Side) (key : Nat)

@[reducible] def Ret {V : Type} (Tid : Type) : Proc V → Type
  | .pushLoop _ _ => Push
  | .popLoop _ => Pop (Item V Tid)
  | .waitLoop _ _ => Bool

abbrev sig (V Tid : Type) : Sig := ⟨Act V, Resp Tid, Proc V, Ret Tid⟩

abbrev M (V Tid α : Type) := Prog (sig V Tid) α

section code
variable {V Tid : Type} (g : Shape)

abbrev op (a : Act V) : M V Tid (Resp Tid a) := Prog.op (S := sig V Tid) a

abbrev proc (p : Proc V) : M V Tid (Ret Tid p) := Prog.proc (S := sig V Tid) p

/-! ## The event counts -/

/-- mirrors mpmc-work-queue-kata/cpp/src/eventcount.hpp:55-65 -/
def prepare_wait (w : Side) : M V Tid Nat := do
  let key ← op (.count w .epochLoad)
  op (.count w .waitersAdd)
  op (.count w .pendingClear)
  pure key

/-- mirrors mpmc-work-queue-kata/cpp/src/eventcount.hpp:68 -/
def cancel_wait (w : Side) : M V Tid Unit := op (.count w .waitersSub)

/-- mirrors mpmc-work-queue-kata/cpp/src/eventcount.hpp:75-83 -/
def waitLoop (w : Side) (key : Nat) : M V Tid Bool := do
  let e ← op (.count w .epochLoad)
  if e = key then do
    let late ← op .expired
    if late then pure false
    else do
      op (.count w (.waitOn key))
      op (.count w .blocked)
      proc (.waitLoop w key)
  else pure true

/-- mirrors mpmc-work-queue-kata/cpp/src/eventcount.hpp:74-88 -/
def wait (w : Side) (key : Nat) : M V Tid Bool := do
  let woke ← proc (.waitLoop w key)
  op (.count w .waitersSub)
  op (.count w .pendingClear)
  pure woke

/-- mirrors mpmc-work-queue-kata/cpp/src/eventcount.hpp:94-105 -/
def notify_one (w : Side) : M V Tid Bool := do
  let n ← op (.count w .waitersLoad)
  if n = 0 then pure false
  else do
    let pending ← op (.count w .pendingLoad)
    if pending then pure false
    else do
      let pending ← op (.count w .pendingExchange)
      if pending then pure false
      else do
        op (.count w .epochAdd)
        op (.count w .wakeOne)
        pure true

/-- mirrors mpmc-work-queue-kata/cpp/src/eventcount.hpp:120-124 -/
def notify_all (w : Side) : M V Tid Unit := do
  op (.count w .epochAdd)
  op (.count w .wakeAll)

/-! ## The producers -/

/-- From the slot on.
mirrors mpmc-work-queue-kata/cpp/src/sharded_queue.hpp:108-116 -/
def publish (p : Nat) (word : TailWord) (v : V) : M V Tid Push := do
  op (.slotWrite p word.pos v)
  let won ← op (.tailCas p word)
  if won then do
    let _ ← notify_one (.consumer (p % g.C))
    pure .ok
  else pure .closed

/-- mirrors mpmc-work-queue-kata/cpp/src/sharded_queue.hpp:96-117 -/
def try_push (p : Nat) (v : V) : M V Tid Push := do
  let word ← op (.tailLoad p)
  if word.closed then pure .closed
  else do
    let cached ← op (.cachedHeadLoad p)
    if word.pos - cached = g.ring.n then do
      let head ← op (.headLoad p)
      op (.cachedHeadStore p head)
      if word.pos - head = g.ring.n then pure .full else publish g p word v
    else publish g p word v

/-- mirrors mpmc-work-queue-kata/cpp/src/sharded_queue.hpp:122-139 -/
def pushLoop (p : Nat) (v : V) : M V Tid Push := do
  let r ← try_push g p v
  if r ≠ .full then pure r
  else do
    let key ← prepare_wait (.producer p)
    let r ← try_push g p v
    if r ≠ .full then do
      cancel_wait (.producer p)
      pure r
    else do
      let late ← op .expired
      if late then do
        cancel_wait (.producer p)
        pure .timeout
      else do
        let _ ← wait (.producer p) key
        proc (.pushLoop p v)

/-! ## The consumers -/

/-- From the slot on.
mirrors mpmc-work-queue-kata/cpp/src/sharded_queue.hpp:241-247 -/
def takeOne (p h : Nat) : M V Tid (Option (Item V Tid)) := do
  let e ← op (.slotRead p h)
  op (.headStore p h)
  if h % g.kFullWakeEvery = 0 then do
    let _ ← notify_one (.producer p)
    pure (some e)
  else pure (some e)

/-- mirrors mpmc-work-queue-kata/cpp/src/sharded_queue.hpp:233-248 -/
def pop_ring (p : Nat) : M V Tid (Option (Item V Tid)) := do
  let h ← op (.headLoad p)
  let cached ← op (.cachedTailLoad p)
  if h = cached then do
    let word ← op (.tailLoad p)
    op (.cachedTailStore p word.pos)
    if h = word.pos then pure none else takeOne g p h
  else takeOne g p h

/-- The rings from the `k`-th last of the round on.
mirrors mpmc-work-queue-kata/cpp/src/sharded_queue.hpp:223-230 -/
def tryFrom (c next : Nat) : Nat → M V Tid (Option (Item V Tid))
  | 0 => pure none
  | k + 1 => do
    let i := (next + (g.kOwned - (k + 1))) % g.kOwned
    match ← pop_ring g (g.ring_of c i) with
    | some e => do
      op (.nextStore c ((i + 1) % g.kOwned))
      pure (some e)
    | none => tryFrom c next k

/-- mirrors mpmc-work-queue-kata/cpp/src/sharded_queue.hpp:222-231 -/
def tryPop (c : Nat) : M V Tid (Option (Item V Tid)) := do
  let next ← op (.nextLoad c)
  tryFrom g c next g.kOwned

/-- mirrors mpmc-work-queue-kata/cpp/src/sharded_queue.hpp:144-147 -/
def try_pop (c : Nat) : M V Tid (Pop (Item V Tid)) := do
  match ← tryPop g c with
  | some e => pure (.ok e)
  | none => pure .empty

/-- mirrors mpmc-work-queue-kata/cpp/src/sharded_queue.hpp:250-256 -/
def any_published (c : Nat) : Nat → M V Tid Bool
  | 0 => pure false
  | k + 1 => do
    let p := g.ring_of c (g.kOwned - (k + 1))
    let word ← op (.tailLoad p)
    let h ← op (.headLoad p)
    if word.pos ≠ h then pure true else any_published c k

/-- mirrors mpmc-work-queue-kata/cpp/src/sharded_queue.hpp:258-262 -/
def any_closed (c : Nat) : Nat → M V Tid Bool
  | 0 => pure false
  | k + 1 => do
    let word ← op (.tailLoad (g.ring_of c (g.kOwned - (k + 1))))
    if word.closed then pure true else any_closed c k

/-- mirrors mpmc-work-queue-kata/cpp/src/sharded_queue.hpp:266-273 -/
def drained (c : Nat) : Nat → M V Tid Bool
  | 0 => pure true
  | k + 1 => do
    let p := g.ring_of c (g.kOwned - (k + 1))
    let word ← op (.tailLoad p)
    if !word.closed then pure false
    else do
      let h ← op (.headLoad p)
      if h ≠ word.pos then pure false else drained c k

/-- mirrors mpmc-work-queue-kata/cpp/src/sharded_queue.hpp:156 -/
def spinPop (c : Nat) : Nat → M V Tid Unit
  | 0 => pure ()
  | n + 1 => do
    let seen ← any_published g c g.kOwned
    if seen then pure () else spinPop c n

/-- From the announcement on.
mirrors mpmc-work-queue-kata/cpp/src/sharded_queue.hpp:169-187 -/
def popSleep (c : Nat) : M V Tid (Pop (Item V Tid)) := do
  let key ← prepare_wait (.consumer c)
  match ← tryPop g c with
  | some e => do
    cancel_wait (.consumer c)
    pure (.ok e)
  | none => do
    let shut ← any_closed g c g.kOwned
    if shut then do
      cancel_wait (.consumer c)
      proc (.popLoop c)
    else do
      let late ← op .expired
      if late then do
        cancel_wait (.consumer c)
        pure .timeout
      else do
        let _ ← wait (.consumer c) key
        proc (.popLoop c)

/-- mirrors mpmc-work-queue-kata/cpp/src/sharded_queue.hpp:151-187 -/
def popLoop (c : Nat) : M V Tid (Pop (Item V Tid)) := do
  match ← tryPop g c with
  | some e => pure (.ok e)
  | none => do
    spinPop g c kSpins
    match ← tryPop g c with
    | some e => pure (.ok e)
    | none => do
      let shut ← any_closed g c g.kOwned
      if shut then do
        let done ← drained g c g.kOwned
        if done then pure .drained
        else do
          let late ← op .expired
          if late then pure .timeout else proc (.popLoop c)
      else popSleep g c

/-! ## The close -/

/-- mirrors mpmc-work-queue-kata/cpp/src/sharded_queue.hpp:194 -/
def closeRings : Nat → M V Tid Unit
  | 0 => pure ()
  | k + 1 => do
    op (.tailOr (g.P - (k + 1)))
    closeRings k

/-- mirrors mpmc-work-queue-kata/cpp/src/sharded_queue.hpp:195-196 -/
def notifyEach (side : Nat → Side) (n : Nat) : Nat → M V Tid Unit
  | 0 => pure ()
  | k + 1 => do
    notify_all (side (n - (k + 1)))
    notifyEach side n k

/-- mirrors mpmc-work-queue-kata/cpp/src/sharded_queue.hpp:193-197 -/
def close : M V Tid Unit := do
  closeRings g g.P
  notifyEach .consumer g.C g.C
  notifyEach .producer g.P g.P

def body : (p : Proc V) → M V Tid (Ret Tid p)
  | .pushLoop p v => pushLoop g p v
  | .popLoop c => popLoop g c
  | .waitLoop w key => waitLoop w key

def code : Call V → M V Tid (Result (Item V Tid))
  | .try_push p v => do pure (.push (← try_push g p v))
  | .push p v => do pure (.push (← proc (.pushLoop p v)))
  | .try_pop c => do pure (.pop (← try_pop g c))
  | .pop c => do pure (.pop (← proc (.popLoop c)))
  | .close => do
    close g
    pure .closed

end code

/-! ## State -/

/-- A ring and its closed bit. -/
structure Shard (V Tid : Type) extends Spsc.Ring (Item V Tid) where
  closed : Bool

/-- `begun p`: the pushes producer `p` has begun. `taken c`: what consumer
`c` has taken out of its rings; `delivered c`: what its calls have returned.
`gone c`: a pop of it has returned `drained`. -/
structure State (V Tid : Type) where
  shard : Nat → Shard V Tid
  next : Nat → Nat
  count : Side → EventCount Tid
  calls : Tid → Nat
  results : CallId Tid → Option (Result (Item V Tid))
  busy : Side → Option Tid
  begun : Nat → List (Item V Tid)
  taken : Nat → List (Item V Tid)
  delivered : Nat → List (Item V Tid)
  gone : Nat → Bool

section system
variable {V Tid : Type} [Inhabited V] [Inhabited Tid] [DecidableEq Tid] (g : Shape)

def State.init : State V Tid where
  shard _ := ⟨.init default, false⟩
  next _ := 0
  count _ := .init
  calls _ := 0
  results _ := none
  busy _ := none
  begun _ := []
  taken _ := []
  delivered _ := []
  gone _ := false

namespace State

/-- The call `t` is in. -/
def me (s : State V Tid) (t : Tid) : CallId Tid := (t, s.calls t)

def setShard (s : State V Tid) (p : Nat) (r : Shard V Tid) : State V Tid :=
  { s with shard := upd s.shard p r }

def setRing (s : State V Tid) (p : Nat) (r : Spsc.Ring (Item V Tid)) : State V Tid :=
  s.setShard p { s.shard p with toRing := r }

def tailWord (s : State V Tid) (p : Nat) : TailWord := ⟨(s.shard p).tail, (s.shard p).closed⟩

/-- What is in the slot of `pos`. -/
def item (s : State V Tid) (p pos : Nat) : Item V Tid := (s.shard p).slot (pos % g.ring.n)

end State

/-- What an operation does to the event count. Choice 1 ends a wait by its
timeout; in `wakeOne` the choice picks the thread. -/
def countSem (t : Tid) :
    (a : CountAct) → Nat → EventCount Tid → Option (EventCount Tid × a.Resp)
  | .epochLoad, _, e => some (e, e.epoch)
  | .epochAdd, _, e => some ({ e with epoch := e.epoch + 1 }, ())
  | .waitersLoad, _, e => some (e, e.waiters)
  | .waitersAdd, _, e => some ({ e with waiters := e.waiters + 1 }, ())
  | .waitersSub, _, e => some ({ e with waiters := e.waiters - 1 }, ())
  | .pendingLoad, _, e => some (e, e.pending)
  | .pendingClear, _, e => some ({ e with pending := false }, ())
  | .pendingExchange, _, e => some ({ e with pending := true }, e.pending)
  | .waitOn key, _, e => some (e.block t key, ())
  | .blocked, n, e =>
    if t ∈ e.blocked then if n = 1 then some (e.unblock t, ()) else none else some (e, ())
  | .wakeOne, n, e => some (e.wake_one n, ())
  | .wakeAll, _, e => some (e.wake_all, ())

/-- What an operation does. Choice 1 says that a deadline has passed. -/
def sem (t : Tid) : (a : Act V) → Nat → State V Tid → Option (State V Tid × Resp Tid a)
  | .tailLoad p, _, s => some (s, s.tailWord p)
  | .tailCas p word, _, s =>
    if s.tailWord p = word then
      some (s.setRing p ((s.shard p).publish (s.item g p word.pos)), true)
    else some (s, false)
  | .tailOr p, _, s => some (s.setShard p { s.shard p with closed := true }, ())
  | .headLoad p, _, s => some (s, (s.shard p).head)
  | .headStore p pos, _, s =>
    some ({ s.setRing p ((s.shard p).take (pos + 1)) with
      taken := upd s.taken (p % g.C) (s.taken (p % g.C) ++ [s.item g p pos]) }, ())
  | .cachedHeadLoad p, _, s => some (s, (s.shard p).cachedHead)
  | .cachedHeadStore p h, _, s => some (s.setRing p ((s.shard p).seeHead h), ())
  | .cachedTailLoad p, _, s => some (s, (s.shard p).cachedTail)
  | .cachedTailStore p k, _, s => some (s.setRing p ((s.shard p).seeTail k), ())
  | .slotWrite p pos v, _, s =>
    some (s.setRing p ((s.shard p).write g.ring.n pos ⟨p, s.me t, v⟩), ())
  | .slotRead p pos, _, s => some (s, s.item g p pos)
  | .nextLoad c, _, s => some (s, s.next c)
  | .nextStore c i, _, s => some ({ s with next := upd s.next c i }, ())
  | .count w a, n, s =>
    (countSem t a n (s.count w)).map fun o => ({ s with count := upd s.count w o.1 }, o.2)
  | .expired, n, s => some (s, n == 1)

/-- Whose id a call uses. -/
def side : Call V → Option Side
  | .try_push p _ | .push p _ => some (.producer p)
  | .try_pop c | .pop c => some (.consumer c)
  | .close => none

/-- The id exists, and nobody uses it. -/
def enabled (s : State V Tid) (c : Call V) : Bool :=
  match side c with
  | some (.producer p) => p < g.P && (s.busy (.producer p)).isNone
  | some (.consumer c) => c < g.C && (s.busy (.consumer c)).isNone
  | none => true

def setBusy (s : State V Tid) (w : Option Side) (t : Option Tid) : State V Tid :=
  match w with
  | some w => { s with busy := upd s.busy w t }
  | none => s

def begin (t : Tid) (k : Call V) (s : State V Tid) : State V Tid :=
  let s := setBusy { s with calls := upd s.calls t (s.calls t + 1) } (side k) (some t)
  match k with
  | .try_push p v | .push p v => { s with begun := upd s.begun p (s.begun p ++ [⟨p, s.me t, v⟩]) }
  | _ => s

def finish (t : Tid) (k : Call V) (r : Result (Item V Tid)) (s : State V Tid) : State V Tid :=
  let s := setBusy { s with results := upd s.results (s.me t) (some r) } (side k) none
  match side k, r with
  | some (.consumer c), .pop (.ok e) =>
    { s with delivered := upd s.delivered c (s.delivered c ++ [e]) }
  | some (.consumer c), .pop .drained => { s with gone := upd s.gone c true }
  | _, _ => s

variable (V Tid) in
/-- Any thread makes any call, one at a time.
mirrors mpmc-work-queue-kata/cpp/src/sharded_queue.hpp:87-88 -/
abbrev queue : System where
  sig := sig V Tid
  State := State V Tid
  Tid := Tid
  Call := Call V
  Result := Result (Item V Tid)
  decTid := inferInstance
  init := .init
  enabled s _ k := enabled g s k
  begin := begin
  finish := finish
  code := code g
  body := body g
  sem := sem g

end system
end Katas.Turnstile.Sharded
