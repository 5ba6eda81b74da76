import Katas.Turnstile.Ledger

/-!
# The C++ queue and its event counts

`turnstile::Queue` and `turnstile::BasicEventCount` as a `System`: one
operation for every access to an atomic, every construction, move and
destruction in a slot's storage, and every wait and wake of the operating
system. Positions, epochs and counts are unbounded naturals
(`Katas.Turnstile.Api`), fences order nothing between sequentially
consistent steps, and the environment decides which weak compare-exchange
fails, which thread a wake reaches, and whether the clock has passed a
deadline.

`O.bug` is `Bug::none` throughout. Left out, because nothing here reads
them: the counters of `OpStats`, the padding, the hooks, the pauses and the
length of a wait (a wait may time out at any moment). A move leaves the
object it moves from alive; what that still holds is not read again, and is
modelled as the old value.

The histories (`ledger`, `built`, `razed`, `openAt`) are written by the
operations they record and read by none.
-/
namespace Katas.Turnstile.Cpp
open Katas.Conc Katas.SeqRing

/-- mirrors mpmc-work-queue-kata/cpp/src/mpmc_queue.hpp:74 -/
inductive Wake where
  | event_count
  | epoch
  deriving DecidableEq, Repr

/-- mirrors mpmc-work-queue-kata/cpp/src/mpmc_queue.hpp:76-90 -/
structure Options where
  reserve : Reserve
  coalesce_wakes : Bool
  batch_full_wakes : Bool
  wake : Wake
  park : Bool
  deriving DecidableEq, Repr

/-- The two event counts of a queue. -/
inductive Side where
  | not_empty
  | not_full
  deriving DecidableEq, Repr

/-- The three words, and who is blocked on the last.
mirrors mpmc-work-queue-kata/cpp/src/eventcount.hpp:133-135 -/
structure EventCount (Tid : Type) where
  waiters : Nat
  pending : Bool
  epoch : Nat
  blocked : List Tid

namespace EventCount
variable {Tid : Type} [DecidableEq Tid]

def init : EventCount Tid := ⟨0, false, 0, []⟩

/-- `t` blocks if the epoch is still `key`. -/
def block (e : EventCount Tid) (t : Tid) (key : Nat) : EventCount Tid :=
  if e.epoch = key then { e with blocked := t :: e.blocked } else e

/-- `t` blocks no longer. -/
def unblock (e : EventCount Tid) (t : Tid) : EventCount Tid :=
  { e with blocked := e.blocked.filter fun u => u ≠ t }

/-- Wakes one of the blocked, by choice `n`. -/
def wake_one (e : EventCount Tid) (n : Nat) : EventCount Tid :=
  match e.blocked[n % e.blocked.length]? with
  | some u => e.unblock u
  | none => e

def wake_all (e : EventCount Tid) : EventCount Tid := { e with blocked := [] }

end EventCount

inductive Call (V : Type) where
  | try_push (v : V)
  | push (v : V)
  | try_pop
  | pop
  | close
  deriving DecidableEq, Repr

/-- Who loads a sequence word; only `handOff` is told apart by the proofs. -/
inductive Site where
  | try_push
  | await_turn
  | chain_full_wake
  | try_pop
  | spin
  | handOff
  deriving DecidableEq, Repr

/-- How a weak compare-exchange ended: not done, it leaves what it found. -/
inductive Exchange (α : Type) where
  | done
  | found (actual : α)
  deriving DecidableEq, Repr

inductive Act (V : Type) where
  | tailLoad
  | tailCas (word : TailWord)
  | tailAdd
  | tailOr
  | headLoad
  | headCas (pos : Nat)
  | seqLoad (site : Site) (pos : Nat)
  | seqStore (pos : Nat)
  | seqStoreDead (pos : Nat)
  | seqRelease (pos : Nat)
  | construct (pos : Nat) (v : V)
  | moveOut (pos : Nat)
  | destroy (pos : Nat)
  | epochLoad (w : Side)
  | epochAdd (w : Side)
  | waitersLoad (w : Side)
  | waitersAdd (w : Side)
  | waitersSub (w : Side)
  | pendingLoad (w : Side)
  | pendingClear (w : Side)
  | pendingExchange (w : Side)
  | waitOn (w : Side) (key : Nat)
  | blocked (w : Side)
  | wakeOne (w : Side)
  | wakeAll (w : Side)
  | expired
  deriving DecidableEq, Repr

@[reducible] def Resp {V : Type} : Act V → Type
  | .tailLoad | .tailAdd => TailWord
  | .tailCas _ => Exchange TailWord
  | .headCas _ => Exchange Nat
  | .headLoad | .epochLoad _ | .waitersLoad _ => Nat
  | .seqLoad _ _ => SeqWord
  | .moveOut _ => V
  | .pendingLoad _ | .pendingExchange _ | .expired => Bool
  | .tailOr | .seqStore _ | .seqStoreDead _ | .seqRelease _ | .construct _ _ | .destroy _
  | .epochAdd _ | .waitersAdd _ | .waitersSub _ | .pendingClear _ | .waitOn _ _ | .blocked _
  | .wakeOne _ | .wakeAll _ => Unit

/-- The loops without a bound of their own. -/
inductive Proc (V : Type) where
  | tryPushLoop (v : V) (word : TailWord)
  | pushLoop (v : V) (parked : Bool)
  | awaitPoll (pos : Nat)
  | tryPopLoop (pos : Nat)
  | popLoop
  | waitLoop (w : Side) (key : Nat)

@[reducible] def Ret {V : Type} : Proc V → Type
  | .tryPushLoop _ _ | .pushLoop _ _ => Push
  | .awaitPoll _ => Unit
  | .tryPopLoop _ | .popLoop => Pop V
  | .waitLoop _ _ => Bool

abbrev sig (V : Type) : Sig := ⟨Act V, Resp, Proc V, Ret⟩

abbrev M (V α : Type) := Prog (sig V) α

section code
variable {V : Type} (N : Nat) (o : Options)

abbrev op (a : Act V) : M V (Resp a) := Prog.op (S := sig V) a

abbrev proc (p : Proc V) : M V (Ret p) := Prog.proc (S := sig V) p

/-- mirrors mpmc-work-queue-kata/cpp/src/mpmc_queue.hpp:119,137 -/
def kSpins : Nat := 128
def kYields : Nat := 64

/-- mirrors mpmc-work-queue-kata/cpp/src/mpmc_queue.hpp:130 -/
def kFullWakeEvery : Nat := if !o.batch_full_wakes then 1 else if 128 ≤ N then 64 else N / 2

/-- Is this side an `EpochWake`?
mirrors mpmc-work-queue-kata/cpp/src/mpmc_queue.hpp:466 -/
def epochWake : Side → Bool
  | .not_empty => o.wake == .epoch
  | .not_full => false

/-! ## The event counts -/

/-- mirrors mpmc-work-queue-kata/cpp/src/eventcount.hpp:55-65,162 -/
def prepare_wait (w : Side) : M V Nat := do
  let key ← op (.epochLoad w)
  if epochWake o w then pure key
  else do
    op (.waitersAdd w)
    op (.pendingClear w)
    pure key

/-- mirrors mpmc-work-queue-kata/cpp/src/eventcount.hpp:68,163 -/
def cancel_wait (w : Side) : M V Unit :=
  if epochWake o w then pure () else op (.waitersSub w)

/-- mirrors mpmc-work-queue-kata/cpp/src/eventcount.hpp:75-83,166-170 -/
def waitLoop (w : Side) (key : Nat) : M V Bool := do
  let e ← op (.epochLoad w)
  if e = key then do
    let late ← op .expired
    if late then pure false
    else do
      op (.waitOn w key)
      op (.blocked w)
      proc (.waitLoop w key)
  else pure true

/-- mirrors mpmc-work-queue-kata/cpp/src/eventcount.hpp:74-88,165-172 -/
def wait (w : Side) (key : Nat) : M V Bool := do
  let woke ← proc (.waitLoop w key)
  if epochWake o w then pure woke
  else do
    op (.waitersSub w)
    op (.pendingClear w)
    pure woke

/-- mirrors mpmc-work-queue-kata/cpp/src/eventcount.hpp:102-104,176-178 -/
def bump_one (w : Side) : M V Bool := do
  op (.epochAdd w)
  op (.wakeOne w)
  pure true

/-- mirrors mpmc-work-queue-kata/cpp/src/eventcount.hpp:94-105,175-179 -/
def notify_one (w : Side) : M V Bool :=
  if epochWake o w then bump_one w
  else do
    let n ← op (.waitersLoad w)
    if n = 0 then pure false
    else if o.coalesce_wakes then do
      let p ← op (.pendingLoad w)
      if p then pure false
      else do
        let p ← op (.pendingExchange w)
        if p then pure false else bump_one w
    else bump_one w

/-- mirrors mpmc-work-queue-kata/cpp/src/eventcount.hpp:120-124 -/
def notify_all (w : Side) : M V Unit := do
  op (.epochAdd w)
  op (.wakeAll w)

/-- mirrors mpmc-work-queue-kata/cpp/src/eventcount.hpp:111-117 -/
def notify_all_if_waiting (w : Side) : M V Bool := do
  let n ← op (.waitersLoad w)
  if n = 0 then pure false
  else do
    notify_all w
    pure true

/-! ## The queue -/

/-- mirrors mpmc-work-queue-kata/cpp/src/mpmc_queue.hpp:384-394 -/
def publish (pos : Nat) (v : V) : M V Push := do
  op (.construct pos v)
  op (.seqStore pos)
  let _ ← notify_one o .not_empty
  pure .ok

/-- mirrors mpmc-work-queue-kata/cpp/src/mpmc_queue.hpp:406-419 -/
def release (pos : Nat) : M V Unit := do
  op (.seqRelease pos)
  if pos % kFullWakeEvery N o ≠ 0 then pure ()
  else if o.reserve = .ticket then do
    let _ ← notify_all_if_waiting .not_full
    pure ()
  else do
    let _ ← notify_one o .not_full
    pure ()

/-- mirrors mpmc-work-queue-kata/cpp/src/mpmc_queue.hpp:396-404 -/
def consume (pos : Nat) : M V (Pop V) := do
  let v ← op (.moveOut pos)
  op (.destroy pos)
  release N o pos
  pure (.ok v)

/-- mirrors mpmc-work-queue-kata/cpp/src/mpmc_queue.hpp:190-211 -/
def tryPushLoop (v : V) (word : TailWord) : M V Push :=
  if word.closed then pure .closed
  else do
    let seq ← op (.seqLoad .try_push word.pos)
    if dif seq word.pos = 0 then do
      match ← op (.tailCas word) with
      | .done => publish o word.pos v
      | .found word => proc (.tryPushLoop v word)
    else if dif seq word.pos < 0 then pure .full
    else do
      let word ← op .tailLoad
      proc (.tryPushLoop v word)

/-- mirrors mpmc-work-queue-kata/cpp/src/mpmc_queue.hpp:187-212 -/
def try_push (v : V) : M V Push := do
  let word ← op .tailLoad
  proc (.tryPushLoop v word)

/-- mirrors mpmc-work-queue-kata/cpp/src/mpmc_queue.hpp:424-428 -/
def chain_full_wake : M V Unit := do
  let t ← op .tailLoad
  let seq ← op (.seqLoad .chain_full_wake t.pos)
  if seq.stamp = t.pos then do
    let _ ← notify_one o .not_full
    pure ()
  else pure ()

/-- `n` looks at the slot before the first sleep.
mirrors mpmc-work-queue-kata/cpp/src/mpmc_queue.hpp:438-445 -/
def awaitLook (pos : Nat) : Nat → M V Unit
  | 0 => proc (.awaitPoll pos)
  | n + 1 => do
    let seq ← op (.seqLoad .await_turn pos)
    if seq = ⟨pos, false⟩ then pure () else awaitLook pos n

/-- mirrors mpmc-work-queue-kata/cpp/src/mpmc_queue.hpp:446-454 -/
def awaitPoll (pos : Nat) : M V Unit := do
  let seq ← op (.seqLoad .await_turn pos)
  if seq = ⟨pos, false⟩ then pure ()
  else do
    let key ← prepare_wait o .not_full
    let seq ← op (.seqLoad .await_turn pos)
    if seq = ⟨pos, false⟩ then cancel_wait o .not_full
    else do
      let _ ← wait o .not_full key
      proc (.awaitPoll pos)

/-- mirrors mpmc-work-queue-kata/cpp/src/mpmc_queue.hpp:436-455 -/
def await_turn (pos : Nat) : M V Unit := awaitLook pos (kSpins + kYields)

/-- The ticket discipline.
mirrors mpmc-work-queue-kata/cpp/src/mpmc_queue.hpp:217-230 -/
def pushTicket (v : V) : M V Push := do
  let word ← op .tailLoad
  if word.closed then pure .closed
  else do
    let word ← op .tailAdd
    await_turn word.pos
    if word.closed then do
      op (.seqStoreDead word.pos)
      pure .closed
    else publish o word.pos v

/-- mirrors mpmc-work-queue-kata/cpp/src/mpmc_queue.hpp:232-254 -/
def pushLoop (v : V) (parked : Bool) : M V Push := do
  let r ← try_push v
  if r ≠ .full then
    if parked = true ∧ r = .ok then do
      chain_full_wake o
      pure r
    else pure r
  else do
    let key ← prepare_wait o .not_full
    let r ← try_push v
    if r ≠ .full then do
      cancel_wait o .not_full
      if parked = true ∧ r = .ok then do
        chain_full_wake o
        pure r
      else pure r
    else do
      let late ← op .expired
      if late then do
        cancel_wait o .not_full
        pure .timeout
      else do
        let _ ← wait o .not_full key
        proc (.pushLoop v true)

/-- mirrors mpmc-work-queue-kata/cpp/src/mpmc_queue.hpp:216-256 -/
def push (v : V) : M V Push :=
  if o.reserve = .ticket then pushTicket o v else proc (.pushLoop v false)

/-- mirrors mpmc-work-queue-kata/cpp/src/mpmc_queue.hpp:264-283 -/
def tryPopLoop (pos : Nat) : M V (Pop V) := do
  let raw ← op (.seqLoad .try_pop pos)
  if dif raw (pos + 1) = 0 then do
    match ← op (.headCas pos) with
    | .done =>
      if !raw.dead then consume N o pos
      else do
        release N o pos
        proc (.tryPopLoop (pos + 1))
    | .found pos => proc (.tryPopLoop pos)
  else if dif raw (pos + 1) < 0 then pure .empty
  else do
    let pos ← op .headLoad
    proc (.tryPopLoop pos)

/-- mirrors mpmc-work-queue-kata/cpp/src/mpmc_queue.hpp:261-284 -/
def try_pop : M V (Pop V) := do
  let pos ← op .headLoad
  proc (.tryPopLoop pos)

/-- mirrors mpmc-work-queue-kata/cpp/src/mpmc_queue.hpp:376-379 -/
def head_published (site : Site) : M V Bool := do
  let h ← op .headLoad
  let seq ← op (.seqLoad site h)
  pure (seq.stamp == h + 1)

/-- mirrors mpmc-work-queue-kata/cpp/src/mpmc_queue.hpp:294 -/
def spinPop : Nat → M V Unit
  | 0 => pure ()
  | n + 1 => do
    let seen ← head_published .spin
    if seen then pure () else spinPop n

/-- mirrors mpmc-work-queue-kata/cpp/src/mpmc_queue.hpp:344-347 -/
def handOff (v : V) : M V (Pop V) := do
  let more ← head_published .handOff
  if more then do
    let _ ← notify_one o .not_empty
    pure (.ok v)
  else pure (.ok v)

/-- Out of time, or once more from the top. -/
def popAgain : M V (Pop V) := do
  let late ← op .expired
  if late then pure .timeout else proc .popLoop

/-- From the announcement on.
mirrors mpmc-work-queue-kata/cpp/src/mpmc_queue.hpp:314-348 -/
def popSleep : M V (Pop V) := do
  let key ← prepare_wait o .not_empty
  match ← try_pop with
  | .ok v => do
    cancel_wait o .not_empty
    pure (.ok v)
  | _ => do
    let word ← op .tailLoad
    if word.closed then do
      cancel_wait o .not_empty
      proc .popLoop
    else do
      let late ← op .expired
      if late then do
        cancel_wait o .not_empty
        pure .timeout
      else do
        let _ ← wait o .not_empty key
        match ← try_pop with
        | .ok v => handOff o v
        | _ => proc .popLoop

/-- mirrors mpmc-work-queue-kata/cpp/src/mpmc_queue.hpp:288-349 -/
def popLoop : M V (Pop V) := do
  match ← try_pop with
  | .ok v => pure (.ok v)
  | _ => do
    spinPop kSpins
    match ← try_pop with
    | .ok v => pure (.ok v)
    | _ => do
      let word ← op .tailLoad
      if word.closed then do
        let h ← op .headLoad
        if h = word.pos then pure .drained else popAgain
      else if !o.park then popAgain
      else popSleep o

/-- mirrors mpmc-work-queue-kata/cpp/src/mpmc_queue.hpp:357-361 -/
def close : M V Unit := do
  op .tailOr
  notify_all .not_empty
  notify_all .not_full

def body : (p : Proc V) → M V (Ret p)
  | .tryPushLoop v word => tryPushLoop o v word
  | .pushLoop v parked => pushLoop o v parked
  | .awaitPoll pos => awaitPoll o pos
  | .tryPopLoop pos => tryPopLoop N o pos
  | .popLoop => popLoop o
  | .waitLoop w key => waitLoop w key

def code : Call V → M V (Result V)
  | .try_push v => do pure (.push (← try_push v))
  | .push v => do pure (.push (← push o v))
  | .try_pop => do pure (.pop (← try_pop))
  | .pop => do pure (.pop (← proc .popLoop))
  | .close => do
    close
    pure .closed

end code

/-! ## State -/

/-- The words and the history (`Ledger`), and the slots' storage: an object,
or none. `built`, `razed`: how many objects were constructed and destroyed
for a position; `openAt`: was it reserved with the closed bit clear? -/
structure Core (V Tid : Type) where
  ledger : Ledger V (Call V) Tid
  storage : Nat → Option V
  built : Nat → Nat
  razed : Nat → Nat
  openAt : Nat → Bool

structure State (V Tid : Type) where
  core : Core V Tid
  count : Side → EventCount Tid

section system
variable {V Tid : Type} [Inhabited V] [DecidableEq Tid] (N : Capacity) (o : Options)

def State.init : State V Tid :=
  ⟨⟨.init, fun _ => none, fun _ => 0, fun _ => 0, fun _ => false⟩, fun _ => .init⟩

namespace Core

def seq (c : Core V Tid) (pos : Nat) : SeqWord := c.ledger.lanes.seq (pos % N.n)

def object (c : Core V Tid) (pos : Nat) : Option V := c.storage (pos % N.n)

def setLedger (c : Core V Tid) (l : Ledger V (Call V) Tid) : Core V Tid := { c with ledger := l }

def reserve (c : Core V Tid) (t : Tid) : Core V Tid :=
  { c with
    ledger := c.ledger.reserve t
    openAt := upd c.openAt c.ledger.lanes.tail (!c.ledger.closed) }

def construct (c : Core V Tid) (pos : Nat) (v : V) : Core V Tid :=
  { c with
    storage := upd c.storage (pos % N.n) (some v)
    built := upd c.built pos (c.built pos + 1) }

def destroy (c : Core V Tid) (pos : Nat) : Core V Tid :=
  { c with
    storage := upd c.storage (pos % N.n) none
    razed := upd c.razed pos (c.razed pos + 1) }

/-- The positions whose objects the destructor destroys, in order.
mirrors mpmc-work-queue-kata/cpp/src/mpmc_queue.hpp:170-179 -/
def destructor (c : Core V Tid) : List Nat :=
  (List.range' c.ledger.lanes.head (c.ledger.lanes.tail - c.ledger.lanes.head)).filter
    fun pos => c.seq N pos == ⟨pos + 1, false⟩

end Core

namespace State

def setCore (s : State V Tid) (c : Core V Tid) : State V Tid := { s with core := c }

def setLedger (s : State V Tid) (l : Ledger V (Call V) Tid) : State V Tid :=
  s.setCore (s.core.setLedger l)

def setCount (s : State V Tid) (w : Side) (e : EventCount Tid) : State V Tid :=
  { s with count := upd s.count w e }

end State

/-- What an operation does. Choice 1 makes a weak compare-exchange fail for
no reason, ends a wait by its timeout, and says that a deadline has passed;
in `wakeOne` the choice picks the thread. -/
def sem (t : Tid) : (a : Act V) → Nat → State V Tid → Option (State V Tid × Resp a)
  | .tailLoad, _, s => some (s, s.core.ledger.tailWord)
  | .tailCas word, n, s =>
    if s.core.ledger.tailWord = word ∧ n ≠ 1 then some (s.setCore (s.core.reserve t), .done)
    else some (s, .found s.core.ledger.tailWord)
  | .tailAdd, _, s => some (s.setCore (s.core.reserve t), s.core.ledger.tailWord)
  | .tailOr, _, s => some (s.setLedger s.core.ledger.setClosed, ())
  | .headLoad, _, s => some (s, s.core.ledger.lanes.head)
  | .headCas pos, n, s =>
    if s.core.ledger.lanes.head = pos ∧ n ≠ 1 then
      some (s.setLedger (s.core.ledger.claim t pos (s.core.seq N pos).dead), .done)
    else some (s, .found s.core.ledger.lanes.head)
  | .seqLoad _ pos, _, s => some (s, s.core.seq N pos)
  | .seqStore pos, _, s =>
    some (s.setLedger (s.core.ledger.publish N.n pos ((s.core.object N pos).getD default)), ())
  | .seqStoreDead pos, _, s => some (s.setLedger (s.core.ledger.bury N.n pos), ())
  | .seqRelease pos, _, s => some (s.setLedger (s.core.ledger.release N.n pos), ())
  | .construct pos v, _, s => some (s.setCore (s.core.construct N pos v), ())
  | .moveOut pos, _, s =>
    some (s.setLedger (s.core.ledger.copy pos ((s.core.object N pos).getD default)),
      (s.core.object N pos).getD default)
  | .destroy pos, _, s => some (s.setCore (s.core.destroy N pos), ())
  | .epochLoad w, _, s => some (s, (s.count w).epoch)
  | .epochAdd w, _, s =>
    some (s.setCount w { s.count w with epoch := (s.count w).epoch + 1 }, ())
  | .waitersLoad w, _, s => some (s, (s.count w).waiters)
  | .waitersAdd w, _, s =>
    some (s.setCount w { s.count w with waiters := (s.count w).waiters + 1 }, ())
  | .waitersSub w, _, s =>
    some (s.setCount w { s.count w with waiters := (s.count w).waiters - 1 }, ())
  | .pendingLoad w, _, s => some (s, (s.count w).pending)
  | .pendingClear w, _, s => some (s.setCount w { s.count w with pending := false }, ())
  | .pendingExchange w, _, s =>
    some (s.setCount w { s.count w with pending := true }, (s.count w).pending)
  | .waitOn w key, _, s => some (s.setCount w ((s.count w).block t key), ())
  | .blocked w, n, s =>
    if t ∈ (s.count w).blocked then
      if n = 1 then some (s.setCount w ((s.count w).unblock t), ()) else none
    else some (s, ())
  | .wakeOne w, n, s => some (s.setCount w ((s.count w).wake_one n), ())
  | .wakeAll w, _, s => some (s.setCount w (s.count w).wake_all, ())
  | .expired, n, s => some (s, n == 1)

variable (V Tid) in
/-- Any thread makes any call, one at a time.
mirrors mpmc-work-queue-kata/cpp/src/mpmc_queue.hpp:161-168 -/
abbrev queue : System where
  sig := sig V
  State := State V Tid
  Tid := Tid
  Call := Call V
  Result := Result V
  decTid := inferInstance
  init := .init
  enabled _ _ _ := true
  begin t k s := s.setLedger (s.core.ledger.begin t k)
  finish t _ r s := s.setLedger (s.core.ledger.finish t r)
  code := code o
  body := body N.n o
  sem := sem N

end system

end Katas.Turnstile.Cpp
