import Katas.Core.Flow

/-!
# The channel pipeline

`weir.ChannelPipeline` as a `System`: one operation for every `sync/atomic`
access, every channel operation, every plain access to a field that another
goroutine may touch, and the lock. A goroutine that a `go` statement starts
is a call that becomes possible there (`consume`, `release`). A buffered
channel is the list of what it holds; the environment decides which ready
case a `select` takes, and whether a timer has fired.

An event carries the call that pushed it, which nothing reads. Left out,
because nothing here reads them: the counters `passes` and `probes`, and the
time a sleep lasts.

The histories (`shut`, `sent`, `opened`, `results`, `last`) are written by the
operations they record and read by none.
-/
namespace Katas.Weir.Channel
open Katas.Conc

/-- mirrors mpsc-event-pipeline-kata/go/internal/weir/chanpipe.go:91-96 -/
structure Config where
  producers : Nat
  capacity : Nat
  batch : Nat
  deriving DecidableEq, Repr

/-- A call: the goroutine that made it, and how many it had made before. -/
abbrev CallId (Tid : Type) := Tid × Nat

/-- An event, and the call that pushed it. -/
abbrev Item (V Tid : Type) := CallId Tid × V

/-- mirrors mpsc-event-pipeline-kata/go/internal/weir/chanpipe.go:78-87 -/
structure ChanSlot (V Tid : Type) where
  ch : List (Item V Tid)
  inUse : Bool
  closed : Bool
  pushed : Nat
  dropped : Nat
  highWater : Nat

def ChanSlot.init {V Tid : Type} : ChanSlot V Tid := ⟨[], false, false, 0, 0, 0⟩

/-- `consume` and `release` are the goroutines that `Start` and
`ChannelProducer.Close` start; `cancel` is the caller's, of its context. -/
inductive Call (V : Type) where
  | start
  | cancel
  | close
  | producer
  | push (h : Nat) (v : V)
  | closeProducer (h : Nat)
  | consume
  | release (i : Nat)
  deriving DecidableEq, Repr

inductive Result where
  | done
  | err
  | producer (h : Nat)
  | registryFull
  | pushed (ok : Bool)
  deriving DecidableEq, Repr

/-- Who asks for a channel's length. -/
inductive Site where
  | push
  | release
  | drain
  deriving DecidableEq, Repr

inductive Act (V : Type) where
  | startedCas
  | cancelSet
  | goConsume
  | cancelCall
  | closedCas
  | cancelLoad
  | doneWait
  | lock
  | unlock
  | nextLoad
  | nextStore (n : Nat)
  | inUseCas (i : Nat)
  | pushedStore (i : Nat)
  | droppedStore (i : Nat)
  | highStore (i : Nat) (d : Nat)
  | newProducer (i : Nat)
  | slotOf (h : Nat)
  | closedLoad
  | send (i : Nat) (v : V)
  | pushedAdd (i : Nat)
  | droppedAdd (i : Nat)
  | chLen (site : Site) (i : Nat)
  | highLoad (i : Nat)
  | slotClosedCas (i h : Nat)
  | goRelease (i : Nat)
  | slotClosedStore (i : Nat)
  | inUseStore (i : Nat)
  | inUseLoad (i : Nat)
  | recv (i : Nat)
  | batchLen
  | consumedAdd
  | sinkWrite
  | ctxDone
  | doneClose
  deriving DecidableEq, Repr

@[reducible] def Resp {V : Type} : Act V → Type
  | .startedCas | .closedCas | .cancelLoad | .doneWait | .inUseCas _ | .closedLoad | .send _ _
  | .slotClosedCas _ _ | .inUseLoad _ | .recv _ | .ctxDone => Bool
  | .nextLoad | .newProducer _ | .slotOf _ | .chLen _ _ | .highLoad _ | .batchLen => Nat
  | .cancelSet | .goConsume | .cancelCall | .lock | .unlock | .nextStore _ | .pushedStore _
  | .droppedStore _ | .highStore _ _ | .pushedAdd _ | .droppedAdd _ | .goRelease _
  | .slotClosedStore _ | .inUseStore _ | .consumedAdd | .sinkWrite | .doneClose => Unit

/-- The loops without a bound of their own. -/
inductive Proc where
  | releaseLoop (i : Nat)
  | consumeLoop
  | finalLoop
  | recvLoop (i : Nat) (got : Nat)

@[reducible] def Ret : Proc → Type
  | .releaseLoop _ | .consumeLoop | .finalLoop => Unit
  | .recvLoop _ _ => Nat

abbrev sig (V : Type) : Sig := ⟨Act V, Resp, Proc, Ret⟩

abbrev M (V α : Type) := Prog (sig V) α

section code
variable {V : Type} (cfg : Config)

abbrev op (a : Act V) : M V (Resp a) := Prog.op (S := sig V) a

abbrev proc (p : Proc) : M V (Ret p) := Prog.proc (S := sig V) p

/-- mirrors mpsc-event-pipeline-kata/go/internal/weir/chanpipe.go:151-158 -/
def start : M V Result := do
  let won ← op .startedCas
  if won then do
    op .cancelSet
    op .goConsume
    pure .done
  else pure .err

/-- mirrors mpsc-event-pipeline-kata/go/internal/weir/chanpipe.go:162-175 -/
def close : M V Result := do
  let won ← op .closedCas
  if won then do
    let set ← op .cancelLoad
    if set then op .cancelCall else pure ()
    let done ← op .doneWait
    pure (if done then .done else .err)
  else pure .done

/-- The slots from the `n`-th last of the round on.
mirrors mpsc-event-pipeline-kata/go/internal/weir/chanpipe.go:183-193 -/
def scan (next : Nat) : Nat → M V Result
  | 0 => pure .registryFull
  | n + 1 => do
    let idx := (next + (cfg.producers - (n + 1))) % cfg.producers
    let won ← op (.inUseCas idx)
    if won then do
      op (.nextStore (idx + 1))
      op (.pushedStore idx)
      op (.droppedStore idx)
      op (.highStore idx 0)
      let h ← op (.newProducer idx)
      pure (.producer h)
    else scan next n

/-- mirrors mpsc-event-pipeline-kata/go/internal/weir/chanpipe.go:180-195 -/
def producer : M V Result := do
  op .lock
  let next ← op .nextLoad
  let r ← scan cfg next cfg.producers
  op .unlock
  pure r

/-- mirrors mpsc-event-pipeline-kata/go/internal/weir/chanpipe.go:289-304 -/
def push (h : Nat) (v : V) : M V Result := do
  let closed ← op .closedLoad
  if closed then pure (.pushed false)
  else do
    let i ← op (.slotOf h)
    let sent ← op (.send i v)
    if sent then do
      op (.pushedAdd i)
      let d ← op (.chLen .push i)
      let hw ← op (.highLoad i)
      if hw < d then op (.highStore i d) else pure ()
      pure (.pushed true)
    else do
      op (.droppedAdd i)
      pure (.pushed false)

/-- mirrors mpsc-event-pipeline-kata/go/internal/weir/chanpipe.go:307-320 -/
def closeProducer (h : Nat) : M V Result := do
  let i ← op (.slotOf h)
  let won ← op (.slotClosedCas i h)
  if won then do
    op (.goRelease i)
    pure .done
  else pure .done

/-- mirrors mpsc-event-pipeline-kata/go/internal/weir/chanpipe.go:312-315 -/
def releaseLoop (i : Nat) : M V Unit := do
  let len ← op (.chLen .release i)
  if 0 < len then proc (.releaseLoop i) else pure ()

/-- mirrors mpsc-event-pipeline-kata/go/internal/weir/chanpipe.go:311-317 -/
def release (i : Nat) : M V Result := do
  proc (.releaseLoop i)
  op (.slotClosedStore i)
  op (.inUseStore i)
  pure .done

/-- mirrors mpsc-event-pipeline-kata/go/internal/weir/chanpipe.go:264-271 -/
def flush : M V Unit := do
  let len ← op .batchLen
  if len = 0 then pure ()
  else do
    op .consumedAdd
    op .sinkWrite

/-- mirrors mpsc-event-pipeline-kata/go/internal/weir/chanpipe.go:228-236 -/
def recvLoop (i : Nat) (got : Nat) : M V Nat := do
  let len ← op .batchLen
  if len < cfg.batch then do
    let e ← op (.recv i)
    if e then proc (.recvLoop i (got + 1)) else pure got
  else pure got

/-- The slots from the `n`-th last on.
mirrors mpsc-event-pipeline-kata/go/internal/weir/chanpipe.go:217-244 -/
def drainFrom : Nat → Nat → M V Nat
  | 0, total => do
    flush
    pure total
  | n + 1, total => do
    let i := cfg.producers - (n + 1)
    let used ← op (.inUseLoad i)
    let len ← if used then pure 1 else op (.chLen .drain i)
    if used = false ∧ len = 0 then drainFrom n total
    else do
      let got ← proc (.recvLoop i 0)
      let len ← op .batchLen
      if len = cfg.batch then flush else pure ()
      drainFrom n (total + got)

def drain : M V Nat := drainFrom cfg cfg.producers 0

/-- mirrors mpsc-event-pipeline-kata/go/internal/weir/chanpipe.go:246-260 -/
def consumeLoop : M V Unit := do
  let n ← drain cfg
  if 0 < n then proc .consumeLoop
  else do
    let done ← op .ctxDone
    if done then proc .finalLoop else proc .consumeLoop

/-- mirrors mpsc-event-pipeline-kata/go/internal/weir/chanpipe.go:256-258 -/
def finalLoop : M V Unit := do
  let n ← drain cfg
  if 0 < n then proc .finalLoop else pure ()

/-- mirrors mpsc-event-pipeline-kata/go/internal/weir/chanpipe.go:213-262 -/
def consume : M V Result := do
  proc .consumeLoop
  op .doneClose
  pure .done

def body : (p : Proc) → M V (Ret p)
  | .releaseLoop i => releaseLoop i
  | .consumeLoop => consumeLoop cfg
  | .finalLoop => finalLoop cfg
  | .recvLoop i got => recvLoop cfg i got

def code : Call V → M V Result
  | .start => start
  | .cancel => do
    op .cancelCall
    pure .done
  | .close => close
  | .producer => producer cfg
  | .push h v => push h v
  | .closeProducer h => closeProducer h
  | .consume => consume
  | .release i => release i

end code

/-! ## State -/

/-- `spawned`, `releases i`: goroutines started and not yet running. `handles`
are the slots of the producers made. `shut h`: a `Close` of `h` has come to
its compare-and-swap. `opened` counts the pushes that found the pipeline open.
`last`: in the final drain, how many channels the pass has looked at, and has
it received anything? -/
structure State (V Tid : Type) where
  slot : Nat → ChanSlot V Tid
  started : Bool
  cancelSet : Bool
  cancelled : Bool
  closed : Bool
  done : Bool
  spawned : Bool
  releases : Nat → Nat
  mu : Option Tid
  nextSlot : Nat
  handles : List Nat
  batch : List (Item V Tid)
  sink : List (Item V Tid)
  consumed : Nat
  calls : Tid → Nat
  results : CallId Tid → Option Result
  shut : Nat → Bool
  sent : List (Item V Tid)
  opened : Nat
  last : Option (Nat × Bool)

section system
variable {V Tid : Type} [DecidableEq Tid] (cfg : Config)

def State.init : State V Tid where
  slot _ := .init
  started := false
  cancelSet := false
  cancelled := false
  closed := false
  done := false
  spawned := false
  releases _ := 0
  mu := none
  nextSlot := 0
  handles := []
  batch := []
  sink := []
  consumed := 0
  calls _ := 0
  results _ := none
  shut _ := false
  sent := []
  opened := 0
  last := none

namespace State

def setSlot (s : State V Tid) (i : Nat) (c : ChanSlot V Tid) : State V Tid :=
  { s with slot := upd s.slot i c }

/-- The call `t` is in. -/
def me (s : State V Tid) (t : Tid) : CallId Tid := (t, s.calls t)

/-- The final drain has looked at channel `i`, found it empty, and found
nothing else. -/
def passed (s : State V Tid) (i : Nat) : Prop := ∃ k, s.last = some (k, false) ∧ i < k

instance (s : State V Tid) (i : Nat) : Decidable (s.passed i) :=
  match h : s.last with
  | some (k, false) => decidable_of_iff (i < k) (by simp [passed, h])
  | some (k, true) => isFalse (by simp [passed, h])
  | none => isFalse (by simp [passed, h])

def send (s : State V Tid) (t : Tid) (i : Nat) (v : V) : State V Tid :=
  { s.setSlot i { s.slot i with ch := (s.slot i).ch ++ [(s.me t, v)] } with
    sent := s.sent ++ [(s.me t, v)] }

end State

/-- What an operation does. Choice 1 ends a wait by its timer. -/
def sem (t : Tid) : (a : Act V) → Nat → State V Tid → Option (State V Tid × Resp a)
  | .startedCas, _, s => some ({ s with started := true }, !s.started)
  | .cancelSet, _, s => some ({ s with cancelSet := true }, ())
  | .goConsume, _, s => some ({ s with spawned := true }, ())
  | .cancelCall, _, s => some ({ s with cancelled := true }, ())
  | .closedCas, _, s => some ({ s with closed := true }, !s.closed)
  | .cancelLoad, _, s => some (s, s.cancelSet)
  | .doneWait, n, s => if n = 1 then some (s, false) else if s.done then some (s, true) else none
  | .lock, _, s => if s.mu = none then some ({ s with mu := some t }, ()) else none
  | .unlock, _, s => some ({ s with mu := none }, ())
  | .nextLoad, _, s => some (s, s.nextSlot)
  | .nextStore n, _, s => some ({ s with nextSlot := n }, ())
  | .inUseCas i, _, s =>
    some (s.setSlot i { s.slot i with inUse := true }, !(s.slot i).inUse)
  | .pushedStore i, _, s => some (s.setSlot i { s.slot i with pushed := 0 }, ())
  | .droppedStore i, _, s => some (s.setSlot i { s.slot i with dropped := 0 }, ())
  | .highStore i d, _, s => some (s.setSlot i { s.slot i with highWater := d }, ())
  | .newProducer i, _, s => some ({ s with handles := s.handles ++ [i] }, s.handles.length)
  | .slotOf h, _, s => some (s, s.handles.getD h 0)
  | .closedLoad, _, s =>
    some ({ s with opened := s.opened + if s.closed then 0 else 1 }, s.closed)
  | .send i v, _, s =>
    if (s.slot i).ch.length < cfg.capacity then some (s.send t i v, true) else some (s, false)
  | .pushedAdd i, _, s =>
    some (s.setSlot i { s.slot i with pushed := (s.slot i).pushed + 1 }, ())
  | .droppedAdd i, _, s =>
    some (s.setSlot i { s.slot i with dropped := (s.slot i).dropped + 1 }, ())
  | .chLen .drain i, _, s =>
    if (s.slot i).ch.length = 0 then
      some ({ s with last := s.last.map fun l => (i + 1, l.2) }, (s.slot i).ch.length)
    else some (s, (s.slot i).ch.length)
  | .chLen _ i, _, s => some (s, (s.slot i).ch.length)
  | .highLoad i, _, s => some (s, (s.slot i).highWater)
  | .slotClosedCas i h, _, s =>
    some ({ s.setSlot i { s.slot i with closed := true } with shut := upd s.shut h true },
      !(s.slot i).closed)
  | .goRelease i, _, s => some ({ s with releases := upd s.releases i (s.releases i + 1) }, ())
  | .slotClosedStore i, _, s => some (s.setSlot i { s.slot i with closed := false }, ())
  | .inUseStore i, _, s => some (s.setSlot i { s.slot i with inUse := false }, ())
  | .inUseLoad i, _, s =>
    some ({ s with last := s.last.map fun l => (i, if i = 0 then false else l.2) },
      (s.slot i).inUse)
  | .recv i, _, s =>
    match (s.slot i).ch with
    | [] => some ({ s with last := s.last.map fun l => (i + 1, l.2) }, false)
    | e :: rest =>
      some ({ s.setSlot i { s.slot i with ch := rest } with
        batch := s.batch ++ [e]
        last := s.last.map fun l => (l.1, true) }, true)
  | .batchLen, _, s => some (s, s.batch.length)
  | .consumedAdd, _, s => some ({ s with consumed := s.consumed + s.batch.length }, ())
  | .sinkWrite, _, s => some ({ s with sink := s.sink ++ s.batch, batch := [] }, ())
  | .ctxDone, n, s =>
    if n = 1 then some (s, false)
    else if s.cancelled then some ({ s with last := some (0, false) }, true) else none
  | .doneClose, _, s => some ({ s with done := true }, ())

/-- May the call begin now? A goroutine runs once it was started, and a
method needs a producer that was returned. -/
def enabled (s : State V Tid) : Call V → Bool
  | .consume => s.spawned
  | .release i => 0 < s.releases i
  | .push h _ | .closeProducer h => h < s.handles.length
  | _ => true

def begin (t : Tid) (c : Call V) (s : State V Tid) : State V Tid :=
  let s := { s with calls := upd s.calls t (s.calls t + 1) }
  match c with
  | .consume => { s with spawned := false }
  | .release i => { s with releases := upd s.releases i (s.releases i - 1) }
  | _ => s

variable (V Tid) in
/-- Any goroutine makes any call, one at a time.
mirrors mpsc-event-pipeline-kata/go/internal/weir/chanpipe.go:127-142 -/
abbrev pipeline : System where
  sig := sig V
  State := State V Tid
  Tid := Tid
  Call := Call V
  Result := Result
  decTid := inferInstance
  init := .init
  enabled s _ c := enabled s c
  begin := begin
  finish t _ r s := { s with results := upd s.results (s.me t) (some r) }
  code := code cfg
  body := body cfg
  sem := sem cfg

end system
end Katas.Weir.Channel
