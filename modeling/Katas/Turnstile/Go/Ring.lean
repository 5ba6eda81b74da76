import Katas.Turnstile.Ledger

/-!
# The Go ring and its waiters

`turnstile.Ring` and `turnstile.Waiter` as a `System`: one operation for
every `sync/atomic` access, every channel operation and every plain access
to a slot's `val`. Positions are unbounded naturals (`Katas.Turnstile.Api`),
a channel of capacity 1 is the flag "holds a token", and the environment
decides which ready case a `select` takes and whether the clock has passed
`until`.

`Bug` is `BugNone` throughout. Left out, because nothing here reads them:
the counters of `OpStats`, the padding, the hooks, `Yield` and the time a
park lasts (a timer may fire at any moment).

The ledger's history is written by the operations it records and read by
none.
-/
namespace Katas.Turnstile.Go
open Katas.Conc Katas.SeqRing

/-- mirrors mpmc-work-queue-kata/go/internal/turnstile/ring.go:105-118 -/
structure Options where
  reserve : Reserve
  spin : Bool
  sharedToken : Bool
  retain : Bool
  deriving DecidableEq, Repr

/-- The two waiters of a ring. -/
inductive Side where
  | notEmpty
  | notFull
  deriving DecidableEq, Repr

/-- mirrors mpmc-work-queue-kata/go/internal/turnstile/wake.go:37-48 -/
structure Waiter where
  asleep : Nat → Bool
  count : Int
  n : Nat
  closing : Bool
  tokens : Nat → Bool
  token : Bool
  closed : Bool

def Waiter.init : Waiter := ⟨fun _ => false, 0, 0, false, fun _ => false, false, false⟩

/-- mirrors mpmc-work-queue-kata/go/internal/turnstile/wake.go:52 -/
def maxSleepers : Nat := 64

/-- `bits.TrailingZeros64`, none for 0. -/
def lowest (m : Nat → Bool) : Option Nat := (List.range maxSleepers).find? fun i => m i

/-- Which waiter the goroutine's `OpStats` has an index on, and the index.
mirrors mpmc-work-queue-kata/go/internal/turnstile/api.go:35-37 -/
structure OpStats where
  waiter : Option Side
  slot : Nat
  deriving DecidableEq, Repr

/-- What a `fill` does to the slot: the values it stores, in order, and
whether it then panics. -/
structure Fill (V : Type) where
  writes : List V
  panics : Bool
  deriving Repr

inductive Call (V : Type) where
  | tryPush (v : V)
  | tryPushFunc (fill : Fill V)
  | push (v : V)
  | pushTicket (v : V)
  | tryPop
  | pop
  | close

/-- Who loads a sequence word; only `handOff` is told apart by the proofs. -/
inductive Site where
  | claim
  | awaitTurn
  | chainFullWake
  | tryPop
  | spin
  | handOff
  deriving DecidableEq, Repr

/-- What ended a `select`. -/
inductive Woken where
  | token
  | closed
  | timer
  deriving DecidableEq, Repr

inductive Act (V : Type) where
  | tailLoad
  | tailCas (word : TailWord)
  | tailAdd
  | tailOr
  | headLoad
  | headCas (pos : Nat)
  | closedAtLoad
  | closedAtStore (n : Nat)
  | seqLoad (site : Site) (pos : Nat)
  | publish (pos : Nat)
  | tombstone (pos : Nat)
  | release (pos : Nat)
  | valStore (pos : Nat) (v : V)
  | valLoad (pos : Nat)
  | stats
  | indexAdd (w : Side)
  | tokenMake (w : Side) (i : Nat)
  | countAdd (w : Side) (d : Int)
  | countLoad (w : Side)
  | asleepOr (w : Side) (i : Nat)
  | asleepAnd (w : Side) (i : Nat)
  | asleepLoad (w : Side)
  | asleepSwap (w : Side)
  | tokenSend (w : Side) (i : Nat)
  | tokenDrain (w : Side) (i : Nat)
  | sharedSend (w : Side)
  | closingCas (w : Side)
  | closeChan (w : Side)
  | select (w : Side) (i : Nat)
  | selectLast (w : Side) (i : Nat)
  | expired
  | crash

@[reducible] def Resp {V : Type} : Act V → Type
  | .tailLoad | .tailAdd | .tailOr => TailWord
  | .tailCas _ | .headCas _ => Bool
  | .headLoad | .closedAtLoad | .indexAdd _ => Nat
  | .seqLoad _ _ => SeqWord
  | .valLoad _ => V
  | .stats => OpStats
  | .countLoad _ => Int
  | .asleepAnd _ _ | .sharedSend _ | .closingCas _ | .selectLast _ _ | .expired => Bool
  | .asleepLoad _ | .asleepSwap _ => Nat → Bool
  | .select _ _ => Woken
  | .crash => Empty
  | .closedAtStore _ | .publish _ | .tombstone _ | .release _ | .valStore _ _ | .tokenMake _ _
  | .countAdd _ _ | .asleepOr _ _ | .tokenSend _ _ | .tokenDrain _ _ | .closeChan _ => Unit

/-- How `claim` ended: a position, or why not. -/
inductive Claim where
  | pos (p : Nat)
  | no (r : Push)

/-- The loops without a bound of their own. -/
inductive Proc (V : Type) where
  | claimLoop (word : TailWord)
  | awaitPoll (pos : Nat)
  | pushLoop (v : V) (parked : Bool)
  | tryPopLoop (pos : Nat)
  | popLoop
  | notifyLoop (w : Side)
  | closeLoop (w : Side) (m : Nat → Bool)

@[reducible] def Ret {V : Type} : Proc V → Type
  | .claimLoop _ => Claim
  | .awaitPoll _ => Unit
  | .pushLoop _ _ => Push
  | .tryPopLoop _ => Pop V
  | .popLoop => Pop V
  | .notifyLoop _ => Bool
  | .closeLoop _ _ => Unit

abbrev sig (V : Type) : Sig := ⟨Act V, Resp, Proc V, Ret⟩

abbrev M (V α : Type) := Prog (sig V) α

section code
variable {V : Type} [Inhabited V] (N : Nat) (o : Options)

abbrev op (a : Act V) : M V (Resp a) := Prog.op (S := sig V) a

abbrev proc (p : Proc V) : M V (Ret p) := Prog.proc (S := sig V) p

/-- mirrors mpmc-work-queue-kata/go/internal/turnstile/ring.go:125-131 -/
def spins : Nat := 128
def yields : Nat := 64

/-- mirrors mpmc-work-queue-kata/go/internal/turnstile/ring.go:144-147 -/
def fullWake : Nat := if N < 128 then N / 2 else 64

/-- mirrors mpmc-work-queue-kata/go/internal/turnstile/wake.go:62-68 and
ring.go:154-155 -/
def shared : Side → Bool
  | .notEmpty => o.sharedToken
  | .notFull => false

/-- mirrors mpmc-work-queue-kata/go/internal/turnstile/wake.go:73-85
(`crash`: more than 64 goroutines sleep on one side) -/
def slot (w : Side) : M V Nat := do
  let st ← op .stats
  if st.waiter = some w then pure st.slot else do
    let i ← op (.indexAdd w)
    if maxSleepers ≤ i then do
      let e ← op .crash
      nomatch e
    else do
      op (.tokenMake w i)
      pure i

/-- mirrors mpmc-work-queue-kata/go/internal/turnstile/wake.go:120-125 -/
def own (w : Side) : M V Nat := do
  let st ← op .stats
  if st.waiter = some w then pure st.slot else do
    let e ← op .crash
    nomatch e

/-- mirrors mpmc-work-queue-kata/go/internal/turnstile/wake.go:143-169 -/
def notify (w : Side) : M V Bool :=
  if shared o w then do
    let c ← op (.countLoad w)
    if c = 0 then pure false else op (.sharedSend w)
  else proc (.notifyLoop w)

def notifyLoop (w : Side) : M V Bool := do
  let m ← op (.asleepLoad w)
  match lowest m with
  | none => pure false
  | some i =>
    let mine ← op (.asleepAnd w i)
    if mine then do
      op (.tokenSend w i)
      pure true
    else proc (.notifyLoop w)

/-- mirrors mpmc-work-queue-kata/go/internal/turnstile/wake.go:88-94 -/
def prepare (w : Side) : M V Unit :=
  if shared o w then op (.countAdd w 1)
  else do
    let i ← slot w
    op (.asleepOr w i)

/-- mirrors mpmc-work-queue-kata/go/internal/turnstile/wake.go:102-115 -/
def cancel (w : Side) : M V Unit :=
  if shared o w then op (.countAdd w (-1))
  else do
    let i ← own w
    let mine ← op (.asleepAnd w i)
    if mine then pure ()
    else do
      op (.tokenDrain w i)
      let _ ← notify o w
      pure ()

/-- mirrors mpmc-work-queue-kata/go/internal/turnstile/api.go:56-77 -/
def sleep (w : Side) (i : Nat) : M V Bool := do
  match ← op (.select w i) with
  | .token => pure true
  | .closed => pure true
  | .timer => op (.selectLast w i)

/-- mirrors mpmc-work-queue-kata/go/internal/turnstile/wake.go:128-140 -/
def wait (w : Side) : M V Bool :=
  if shared o w then do
    let woken ← sleep w 0
    op (.countAdd w (-1))
    pure woken
  else do
    let i ← own w
    let woken ← sleep w i
    let _ ← op (.asleepAnd w i)
    pure woken

/-- mirrors mpmc-work-queue-kata/go/internal/turnstile/wake.go:174-188 -/
def closeWaiter (w : Side) : M V Unit := do
  let won ← op (.closingCas w)
  if won then
    if shared o w then op (.closeChan w)
    else do
      let m ← op (.asleepSwap w)
      proc (.closeLoop w m)
  else pure ()

def closeLoop (w : Side) (m : Nat → Bool) : M V Unit :=
  match lowest m with
  | none => pure ()
  | some i => do
    op (.tokenSend w i)
    proc (.closeLoop w (upd m i false))

/-- mirrors mpmc-work-queue-kata/go/internal/turnstile/ring.go:254-278 -/
def claim : M V Claim := do
  let word ← op .tailLoad
  proc (.claimLoop word)

def claimLoop (word : TailWord) : M V Claim :=
  if word.closed then pure (.no .closed)
  else do
    let seq ← op (.seqLoad .claim word.pos)
    if dif seq word.pos = 0 then do
      let won ← op (.tailCas word)
      if won then pure (.pos word.pos)
      else do
        let word ← op .tailLoad
        proc (.claimLoop word)
    else if dif seq word.pos < 0 then pure (.no .full)
    else do
      let word ← op .tailLoad
      proc (.claimLoop word)

/-- mirrors mpmc-work-queue-kata/go/internal/turnstile/ring.go:282-297 -/
def publish (pos : Nat) (v : V) : M V Push := do
  op (.valStore pos v)
  op (.publish pos)
  let _ ← notify o .notEmpty
  pure .ok

/-- mirrors mpmc-work-queue-kata/go/internal/turnstile/ring.go:162-168 -/
def tryPush (v : V) : M V Push := do
  match ← claim with
  | .no r => pure r
  | .pos pos => publish o pos v

/-- The stores of a `fill`. -/
def fillSlot (pos : Nat) : List V → M V Unit
  | [] => pure ()
  | v :: vs => do
    op (.valStore pos v)
    fillSlot pos vs

/-- The deferred function runs its body when `fill` did not return.
mirrors mpmc-work-queue-kata/go/internal/turnstile/ring.go:226-249 -/
def tryPushFunc (fill : Fill V) : M V (Result V) := do
  match ← claim with
  | .no r => pure (.push r)
  | .pos pos => do
    fillSlot pos fill.writes
    if fill.panics then do
      op (.valStore pos default)
      op (.tombstone pos)
      let _ ← notify o .notEmpty
      pure .panicked
    else do
      op (.publish pos)
      let _ ← notify o .notEmpty
      pure (.push .ok)

/-- `n` looks at the slot before the timer.
mirrors mpmc-work-queue-kata/go/internal/turnstile/ring.go:301-318 -/
def awaitLook (pos : Nat) : Nat → M V Unit
  | 0 => proc (.awaitPoll pos)
  | n + 1 => do
    let seq ← op (.seqLoad .awaitTurn pos)
    if seq = ⟨pos, false⟩ then pure () else awaitLook pos n

def awaitTurn (pos : Nat) : M V Unit := awaitLook pos (spins + yields)

def awaitPoll (pos : Nat) : M V Unit := do
  let seq ← op (.seqLoad .awaitTurn pos)
  if seq = ⟨pos, false⟩ then pure () else proc (.awaitPoll pos)

/-- mirrors mpmc-work-queue-kata/go/internal/turnstile/ring.go:210-219 -/
def pushTicket (v : V) : M V Push := do
  let word ← op .tailAdd
  if word.closed then pure .closed
  else do
    awaitTurn word.pos
    publish o word.pos v

/-- mirrors mpmc-work-queue-kata/go/internal/turnstile/ring.go:322-327 -/
def chainFullWake : M V Unit := do
  let t ← op .tailLoad
  let seq ← op (.seqLoad .chainFullWake t.pos)
  if seq.stamp = t.pos then do
    let _ ← notify o .notFull
    pure ()
  else pure ()

/-- mirrors mpmc-work-queue-kata/go/internal/turnstile/ring.go:172-206 -/
def push (v : V) : M V Push :=
  if o.reserve = .ticket then do
    let word ← op .tailLoad
    if word.closed then pure .closed else pushTicket o v
  else proc (.pushLoop v false)

def pushLoop (v : V) (parked : Bool) : M V Push := do
  let res ← tryPush o v
  let res ← if res = .full then do
      prepare o .notFull
      let res ← tryPush o v
      if res = .full then pure res else do
        cancel o .notFull
        pure res
    else pure res
  if res = .full then do
    let late ← op .expired
    if late then do
      cancel o .notFull
      pure .timeout
    else do
      let _ ← wait o .notFull
      proc (.pushLoop v true)
  else if parked = true ∧ res = .ok then do
    chainFullWake o
    pure res
  else pure res

/-- mirrors mpmc-work-queue-kata/go/internal/turnstile/ring.go:462-467 -/
def release (pos : Nat) : M V Unit := do
  op (.release pos)
  if pos % fullWake N = 0 then do
    let _ ← notify o .notFull
    pure ()
  else pure ()

/-- mirrors mpmc-work-queue-kata/go/internal/turnstile/ring.go:448-460 -/
def consume (pos : Nat) : M V V := do
  let v ← op (.valLoad pos)
  if o.retain then do
    release N o pos
    pure v
  else do
    op (.valStore pos default)
    release N o pos
    pure v

/-- mirrors mpmc-work-queue-kata/go/internal/turnstile/ring.go:332-357 -/
def tryPop : M V (Pop V) := do
  let pos ← op .headLoad
  proc (.tryPopLoop pos)

def tryPopLoop (pos : Nat) : M V (Pop V) := do
  let raw ← op (.seqLoad .tryPop pos)
  if dif raw (pos + 1) = 0 then do
    let won ← op (.headCas pos)
    if won then
      if raw.dead then do
        release N o pos
        proc (.tryPopLoop (pos + 1))
      else do
        let v ← consume N o pos
        pure (.ok v)
    else do
      let pos ← op .headLoad
      proc (.tryPopLoop pos)
  else if dif raw (pos + 1) < 0 then pure .empty
  else do
    let pos ← op .headLoad
    proc (.tryPopLoop pos)

/-- mirrors mpmc-work-queue-kata/go/internal/turnstile/ring.go:469-472 -/
def headPublished (site : Site) : M V Bool := do
  let h ← op .headLoad
  let seq ← op (.seqLoad site h)
  pure (seq.stamp == h + 1)

/-- mirrors mpmc-work-queue-kata/go/internal/turnstile/ring.go:368-370 -/
def spinPop : Nat → M V Unit
  | 0 => pure ()
  | n + 1 => do
    let seen ← headPublished .spin
    if seen then pure () else spinPop n

/-- mirrors mpmc-work-queue-kata/go/internal/turnstile/ring.go:378-384 -/
def drainedTest : M V Bool := do
  let e ← op .closedAtLoad
  if e = 0 then pure false
  else do
    let h ← op .headLoad
    pure (h == e - 1)

/-- mirrors mpmc-work-queue-kata/go/internal/turnstile/ring.go:439-445 -/
def handOff (v : V) : M V (Pop V) := do
  let more ← headPublished .handOff
  if more then do
    let _ ← notify o .notEmpty
    pure (.ok v)
  else pure (.ok v)

/-- From the announcement on.
mirrors mpmc-work-queue-kata/go/internal/turnstile/ring.go:401-445 -/
def popSleep : M V (Pop V) := do
  prepare o .notEmpty
  match ← tryPop with
  | .ok v => do
    cancel o .notEmpty
    pure (.ok v)
  | _ => do
    let word ← op .tailLoad
    if word.closed then do
      cancel o .notEmpty
      proc .popLoop
    else do
      let late ← op .expired
      if late then do
        cancel o .notEmpty
        pure .timeout
      else do
        let _ ← wait o .notEmpty
        match ← tryPop with
        | .ok v => handOff o v
        | _ => proc .popLoop

/-- mirrors mpmc-work-queue-kata/go/internal/turnstile/ring.go:361-446 -/
def popLoop : M V (Pop V) := do
  match ← tryPop with
  | .ok v => pure (.ok v)
  | _ => do
    spinPop spins
    match ← tryPop with
    | .ok v => pure (.ok v)
    | _ => do
      let word ← op .tailLoad
      if word.closed then do
        let drained ← drainedTest
        if drained then pure .drained
        else do
          let late ← op .expired
          if late then pure .timeout else proc .popLoop
      else if o.spin then do
        let late ← op .expired
        if late then pure .timeout else proc .popLoop
      else popSleep o

/-- mirrors mpmc-work-queue-kata/go/internal/turnstile/ring.go:479-485 -/
def close : M V Unit := do
  let old ← op .tailOr
  if old.closed then do
    closeWaiter o .notEmpty
    closeWaiter o .notFull
  else do
    op (.closedAtStore (old.pos + 1))
    closeWaiter o .notEmpty
    closeWaiter o .notFull

def body : (p : Proc V) → M V (Ret p)
  | .claimLoop word => claimLoop word
  | .awaitPoll pos => awaitPoll pos
  | .pushLoop v parked => pushLoop o v parked
  | .tryPopLoop pos => tryPopLoop N o pos
  | .popLoop => popLoop o
  | .notifyLoop w => notifyLoop w
  | .closeLoop w m => closeLoop w m

def code : Call V → M V (Result V)
  | .tryPush v => do pure (.push (← tryPush o v))
  | .tryPushFunc fill => tryPushFunc o fill
  | .push v => do pure (.push (← push o v))
  | .pushTicket v => do pure (.push (← pushTicket o v))
  | .tryPop => do pure (.pop (← tryPop))
  | .pop => do pure (.pop (← proc .popLoop))
  | .close => do
    close o
    pure .closed

end code

/-! ## State -/

/-- The ring: the words and the history (`Ledger`), `closedAt`, and what the
slots hold. -/
structure Core (V Tid : Type) where
  ledger : Ledger V (Call V) Tid
  closedAt : Nat
  val : Nat → V

structure State (V Tid : Type) where
  core : Core V Tid
  waiter : Side → Waiter
  stats : Tid → OpStats

section system
variable {V Tid : Type} [Inhabited V] [DecidableEq Tid] (N : Capacity) (o : Options)

def State.init : State V Tid := ⟨⟨.init, 0, fun _ => default⟩, fun _ => .init, fun _ => ⟨none, 0⟩⟩

namespace Core

def seq (c : Core V Tid) (pos : Nat) : SeqWord := c.ledger.lanes.seq (pos % N.n)

def slotVal (c : Core V Tid) (pos : Nat) : V := c.val (pos % N.n)

def store (c : Core V Tid) (pos : Nat) (v : V) : Core V Tid :=
  { c with val := upd c.val (pos % N.n) v }

end Core

namespace State

def setLedger (s : State V Tid) (l : Ledger V (Call V) Tid) : State V Tid :=
  { s with core := { s.core with ledger := l } }

def setWaiter (s : State V Tid) (w : Side) (x : Waiter) : State V Tid :=
  { s with waiter := upd s.waiter w x }

/-- Is there a token for sleeper `i`? -/
def hasToken (s : State V Tid) (w : Side) (i : Nat) : Bool :=
  if shared o w then (s.waiter w).token else (s.waiter w).tokens i

def takeToken (s : State V Tid) (w : Side) (i : Nat) : State V Tid :=
  if shared o w then s.setWaiter w { s.waiter w with token := false }
  else s.setWaiter w { s.waiter w with tokens := upd (s.waiter w).tokens i false }

/-- Has the broadcast of a shared waiter's `Close` been made? -/
def chanClosed (s : State V Tid) (w : Side) : Bool := shared o w && (s.waiter w).closed

end State

/-- What an operation does. In `select`, choice 0 takes the token, 1 the
closed channel, and any other the timer; in `expired` the choice says
whether `until` has passed. -/
def sem (t : Tid) : (a : Act V) → Nat → State V Tid → Option (State V Tid × Resp a)
  | .tailLoad, _, s => some (s, s.core.ledger.tailWord)
  | .tailCas word, _, s =>
    if s.core.ledger.tailWord = word then some (s.setLedger (s.core.ledger.reserve t), true)
    else some (s, false)
  | .tailAdd, _, s =>
    some (s.setLedger (if s.core.ledger.closed then s.core.ledger.refuse
      else s.core.ledger.reserve t), s.core.ledger.tailWord)
  | .tailOr, _, s => some (s.setLedger s.core.ledger.setClosed, s.core.ledger.tailWord)
  | .headLoad, _, s => some (s, s.core.ledger.lanes.head)
  | .headCas pos, _, s =>
    if s.core.ledger.lanes.head = pos then
      some (s.setLedger (s.core.ledger.claim t pos (s.core.seq N pos).dead), true)
    else some (s, false)
  | .closedAtLoad, _, s => some (s, s.core.closedAt)
  | .closedAtStore n, _, s => some ({ s with core := { s.core with closedAt := n } }, ())
  | .seqLoad _ pos, _, s => some (s, s.core.seq N pos)
  | .publish pos, _, s =>
    some (s.setLedger (s.core.ledger.publish N.n pos (s.core.slotVal N pos)), ())
  | .tombstone pos, _, s => some (s.setLedger (s.core.ledger.bury N.n pos), ())
  | .release pos, _, s => some (s.setLedger (s.core.ledger.release N.n pos), ())
  | .valStore pos v, _, s => some ({ s with core := s.core.store N pos v }, ())
  | .valLoad pos, _, s =>
    some (s.setLedger (s.core.ledger.copy pos (s.core.slotVal N pos)), s.core.slotVal N pos)
  | .stats, _, s => some (s, s.stats t)
  | .indexAdd w, _, s =>
    some (s.setWaiter w { s.waiter w with n := (s.waiter w).n + 1 }, (s.waiter w).n)
  | .tokenMake w i, _, s =>
    some ({ s.setWaiter w { s.waiter w with tokens := upd (s.waiter w).tokens i false } with
      stats := upd s.stats t ⟨some w, i⟩ }, ())
  | .countAdd w d, _, s =>
    some (s.setWaiter w { s.waiter w with count := (s.waiter w).count + d }, ())
  | .countLoad w, _, s => some (s, (s.waiter w).count)
  | .asleepOr w i, _, s =>
    some (s.setWaiter w { s.waiter w with asleep := upd (s.waiter w).asleep i true }, ())
  | .asleepAnd w i, _, s =>
    some (s.setWaiter w { s.waiter w with asleep := upd (s.waiter w).asleep i false },
      (s.waiter w).asleep i)
  | .asleepLoad w, _, s => some (s, (s.waiter w).asleep)
  | .asleepSwap w, _, s =>
    some (s.setWaiter w { s.waiter w with asleep := fun _ => false }, (s.waiter w).asleep)
  | .tokenSend w i, _, s =>
    some (s.setWaiter w { s.waiter w with tokens := upd (s.waiter w).tokens i true }, ())
  | .tokenDrain w i, _, s =>
    some (s.setWaiter w { s.waiter w with tokens := upd (s.waiter w).tokens i false }, ())
  | .sharedSend w, _, s =>
    some (s.setWaiter w { s.waiter w with token := true }, !(s.waiter w).token)
  | .closingCas w, _, s =>
    if (s.waiter w).closing then some (s, false)
    else some (s.setWaiter w { s.waiter w with closing := true }, true)
  | .closeChan w, _, s => some (s.setWaiter w { s.waiter w with closed := true }, ())
  | .select w i, 0, s =>
    if s.hasToken o w i then some (s.takeToken o w i, .token) else none
  | .select w _, 1, s => if s.chanClosed o w then some (s, .closed) else none
  | .select _ _, _, s => some (s, .timer)
  | .selectLast w i, 0, s =>
    if s.hasToken o w i then some (s.takeToken o w i, true) else some (s, s.chanClosed o w)
  | .selectLast w i, _, s =>
    if s.chanClosed o w then some (s, true)
    else if s.hasToken o w i then some (s.takeToken o w i, true)
    else some (s, false)
  | .expired, n, s => some (s, n == 0)
  | .crash, _, _ => none

variable (V Tid) in
/-- Any goroutine makes any call, one at a time.
mirrors mpmc-work-queue-kata/go/internal/turnstile/ring.go:133-157 -/
abbrev ring : System where
  sig := sig V
  State := State V Tid
  Tid := Tid
  Call := Call V
  Result := Result V
  decTid := inferInstance
  init := .init
  enabled _ _ _ := true
  begin t k s := s.setLedger (s.core.ledger.begin t k)
  finish t _ r s := s.setLedger (s.core.ledger.finish t r)
  code := code o
  body := body N.n o
  sem := sem N o

end system

end Katas.Turnstile.Go
