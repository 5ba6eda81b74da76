import Katas.Core.Flow
import Katas.Core.Spsc

/-!
# The event pipeline

`weir::EventPipeline` and its Go and Python ports as one `System`: where the
three differ, the code asks `port`. There is one operation for every access to
what another thread may touch (an atomic, a field, a ring's slot, a lock, the
condition variable or the token channel); what is a thread's own (a cached
index, the staging buffer) changes with the operation beside it. The
environment decides when a wait times out and whether a deadline has passed.

The active word is given by its bits, Python's list of flags likewise, and the
indices are unbounded naturals. An event carries the handle and the call that
pushed it, which nothing reads. Left out, because nothing here reads them: the
counters of probes, passes, bitmap writes, notifies and parks, the hooks, the
padding, and the pauses, yields and sleeps.

The histories (from `inCall` on) are written by the operations they record;
`enabled` alone reads one, `use`: a handle has one thread at a time, and is
given up once.
-/
namespace Katas.Weir.Pipeline
open Katas.Conc

inductive Port where
  | cpp
  | go
  | python
  deriving DecidableEq, Repr

inductive FullPolicy where
  | dropNewest
  | spinThenDrop
  deriving DecidableEq, Repr

inductive ScanPolicy where
  | fullScan
  | bitmap
  deriving DecidableEq, Repr

inductive StopMode where
  | drain
  | abort
  deriving DecidableEq, Repr

inductive SlotState where
  | free
  | active
  | retiring
  deriving DecidableEq, Repr

/-- The policies and the sizes. `spin` is `spin_before_park`,
`SpinBeforeYield` and `yields_before_poll`; `yields` is `YieldBeforePark`.
mirrors mpsc-event-pipeline-kata/cpp/src/config.hpp:24-71 -/
structure Config where
  port : Port
  full : FullPolicy
  scan : ScanPolicy
  spin : Nat
  yields : Nat
  pushSpin : Nat
  producers : Nat
  capacity : Nat
  drainBatch : Nat
  stageEvents : Nat
  producers_pos : 0 < producers
  drainBatch_pos : 0 < drainBatch
  stageEvents_pos : 0 < stageEvents

/-- The sizes of the source.
mirrors mpsc-event-pipeline-kata/cpp/src/config.hpp:37-40 -/
def Config.standard (port : Port) (scan : ScanPolicy) : Config where
  port := port
  full := .dropNewest
  scan := scan
  spin := 0
  yields := 0
  pushSpin := 0
  producers := 64
  capacity := 4096
  drainBatch := 512
  stageEvents := 2048
  producers_pos := by decide
  drainBatch_pos := by decide
  stageEvents_pos := by decide

/-- A handle: its slot, and how many were given out before it. -/
structure Handle where
  serial : Nat
  id : Nat
  deriving DecidableEq, Repr, Inhabited

/-- A call: the thread that made it, and how many it had made before. -/
abbrev CallId (Tid : Type) := Tid × Nat

structure Item (V Tid : Type) where
  handle : Handle
  call : CallId Tid
  value : V
  deriving DecidableEq, Inhabited

/-- `consume` is the thread that `start` creates. -/
inductive Call (V : Type) where
  | start
  | stop (mode : StopMode)
  | register
  | push (h : Handle) (v : V)
  | retire (h : Handle)
  | consume
  deriving DecidableEq, Repr

/-- `stopped`: the stop that did it; any other is `done`. -/
inductive Result where
  | done
  | stopped
  | registered (i : Option Nat)
  | pushed (ok : Bool)
  deriving DecidableEq, Repr

/-- From where an operation is done, for the histories. -/
inductive Site where
  | push
  | retire
  | scan
  | pass
  | last
  | clear (retiring : Bool)
  | reclaim
  | halt
  | other
  deriving DecidableEq, Repr

inductive Act (V Tid : Type) where
  | runningLoad
  | runningStore (b : Bool)
  | acceptingLoad (h : Handle)
  | acceptingStore (b : Bool)
  | threadStart
  | joinableLoad
  | onceDo
  | onceDone
  | stopLock
  | stopUnlock
  | stoppedLoad
  | stoppedStore
  | beforeDeadline
  | drainMetStore (b : Bool)
  | join
  | regLock
  | regUnlock
  | stateLoad (site : Site) (i : Nat)
  | stateCas (i : Nat)
  | stateStore (i : Nat) (st : SlotState)
  | registeredLoad
  | registeredStore (ids : List Nat)
  | pushedAdd (h : Handle)
  | droppedAdd (h : Handle)
  | pushedLoad (i : Nat)
  | droppedLoad (i : Nat)
  | pushedStore (i : Nat)
  | droppedStore (i : Nat)
  | pushedSwap (i : Nat)
  | droppedSwap (i : Nat)
  | retiredPushedAdd (n : Nat)
  | retiredDroppedAdd (n : Nat)
  | consumedAdd (n : Nat)
  | highLoad (i : Nat)
  | highStore (i d : Nat)
  | tailLoad (i : Nat)
  | tailStore (i pos : Nat)
  | tailSee (site : Site) (i : Nat)
  | headLoad (site : Site) (i : Nat)
  | headStore (i pos : Nat) (out : List (Item V Tid))
  | headSee (i : Nat)
  | cachedHeadLoad (i : Nat)
  | cachedTailLoad (i : Nat)
  | slotStore (h : Handle) (pos : Nat) (v : V)
  | slotLoad (i pos : Nat)
  | stagedLoad
  | sinkWrite
  | bitLoad (site : Site) (i : Nat)
  | bitSet (site : Site) (i : Nat)
  | bitClear (site : Site) (i : Nat)
  | wordLoad
  | wordZero
  | pendingLoad
  | pendingStore (b : Bool)
  | pendingSwap
  | parkedLoad
  | parkedStore (b : Bool)
  | parkLock
  | parkUnlock
  | notify (site : Site)
  | cvWait
  | cvReturn
  | tokenSend
  | select
  deriving DecidableEq

/-- `bitSet`: was the whole word zero? -/
@[reducible] def Resp {V Tid : Type} : Act V Tid → Type
  | .runningLoad | .acceptingLoad _ | .joinableLoad | .onceDo | .stoppedLoad | .beforeDeadline
  | .stateCas _ | .bitLoad _ _ | .bitSet _ _ | .wordZero | .pendingLoad | .pendingSwap
  | .parkedLoad => Bool
  | .stateLoad _ _ => SlotState
  | .registeredLoad => List Nat
  | .pushedLoad _ | .droppedLoad _ | .pushedSwap _ | .droppedSwap _ | .highLoad _ | .tailLoad _
  | .tailSee _ _ | .headLoad _ _ | .headSee _ | .cachedHeadLoad _ | .cachedTailLoad _
  | .stagedLoad => Nat
  | .slotLoad _ _ => Item V Tid
  | .wordLoad => Nat → Bool
  | .runningStore _ | .acceptingStore _ | .threadStart | .onceDone | .stopLock | .stopUnlock
  | .stoppedStore | .drainMetStore _ | .join | .regLock | .regUnlock | .stateStore _ _
  | .registeredStore _ | .pushedAdd _ | .droppedAdd _ | .pushedStore _ | .droppedStore _
  | .retiredPushedAdd _ | .retiredDroppedAdd _ | .consumedAdd _ | .highStore _ _ | .tailStore _ _
  | .headStore _ _ _ | .slotStore _ _ _ | .sinkWrite | .bitClear _ _ | .pendingStore _
  | .parkedStore _ | .parkLock | .parkUnlock | .notify _ | .cvWait | .cvReturn | .tokenSend
  | .select => Unit

/-- The loops without a bound of their own. -/
inductive Proc where
  | quiesceLoop
  | registerLoop
  | drainLoop (site : Site) (i got : Nat)
  | consumeLoop (idle rotate : Nat)
  | finalLoop (site : Site) (rotate : Nat)

@[reducible] def Ret : Proc → Type
  | .quiesceLoop | .consumeLoop _ _ | .finalLoop _ _ => Unit
  | .registerLoop => Option Nat
  | .drainLoop _ _ _ => Nat

abbrev sig (V Tid : Type) : Sig := ⟨Act V Tid, Resp, Proc, Ret⟩

abbrev M (V Tid α : Type) := Prog (sig V Tid) α

section code
variable {V Tid : Type} (cfg : Config)

abbrev op (a : Act V Tid) : M V Tid (Resp a) := Prog.op (S := sig V Tid) a

abbrev proc (p : Proc) : M V Tid (Ret p) := Prog.proc (S := sig V Tid) p

/-- The slots, from `rotate` on.
mirrors mpsc-event-pipeline-kata/cpp/src/event_pipeline.hpp:321-322 -/
def order (rotate : Nat) : List Nat :=
  (List.range cfg.producers).map fun k => (k + rotate) % cfg.producers

/-! ## Parking -/

/-- mirrors mpsc-event-pipeline-kata/cpp/src/event_pipeline.hpp:459-462,
mpsc-event-pipeline-kata/go/internal/weir/notify.go:10-19,
mpsc-event-pipeline-kata/python/src/weir/active_set.py:157-159 -/
def wake (site : Site) : M V Tid Unit :=
  match cfg.port with
  | .go => op .tokenSend
  | _ => do
    op .parkLock
    op (.notify site)
    op .parkUnlock

/-- The timed wait. -/
def wait : M V Tid Unit :=
  match cfg.port with
  | .go => op .select
  | _ => do
    op .cvWait
    op .cvReturn

/-- The wait of an armed consumer, unless there is work.
mirrors mpsc-event-pipeline-kata/cpp/src/event_pipeline.hpp:449-455 -/
def doze : M V Tid Unit := do
  let zero ← op .wordZero
  if zero then do
    let running ← op .runningLoad
    if running then wait cfg else pure ()
  else pure ()

/-- As `doze`, told whether the pipeline runs.
mirrors mpsc-event-pipeline-kata/python/src/weir/active_set.py:152-154 -/
def dozeIf (running : Bool) : M V Tid Unit :=
  if running then do
    let zero ← op .wordZero
    if zero then wait cfg else pure ()
  else pure ()

/-- mirrors mpsc-event-pipeline-kata/cpp/src/event_pipeline.hpp:443-457,
mpsc-event-pipeline-kata/go/internal/weir/notify.go:43-65,
mpsc-event-pipeline-kata/python/src/weir/active_set.py:144-155 -/
def park : M V Tid Unit :=
  match cfg.port with
  | .cpp => do
    op .parkLock
    op (.parkedStore true)
    doze cfg
    op (.parkedStore false)
    op .parkUnlock
  | .go => do
    op (.parkedStore true)
    doze cfg
    op (.parkedStore false)
  | .python => do
    let running ← op .runningLoad
    op .parkLock
    op (.parkedStore true)
    dozeIf cfg running
    op (.parkedStore false)
    op .parkUnlock

/-! ## Producers -/

/-- mirrors mpsc-event-pipeline-kata/cpp/src/event_pipeline.hpp:209-245,
mpsc-event-pipeline-kata/go/internal/weir/bitmap.go:44-75,
mpsc-event-pipeline-kata/python/src/weir/active_set.py:84-102 -/
def signal (site : Site) (i : Nat) : M V Tid Unit := do
  let set ← op (.bitLoad site i)
  if set then pure ()
  else do
    let zero ← op (.bitSet site i)
    if cfg.port = .python ∨ zero then do
      let parked ← op .parkedLoad
      if parked then wake cfg site else pure ()
    else pure ()

/-- mirrors mpsc-event-pipeline-kata/cpp/src/spsc_ring.hpp:41-44 -/
def store (h : Handle) (v : V) (t : Nat) : M V Tid Bool := do
  op (.slotStore h t v)
  op (.tailStore h.id (t + 1))
  pure true

/-- mirrors mpsc-event-pipeline-kata/cpp/src/spsc_ring.hpp:32-45,
mpsc-event-pipeline-kata/go/internal/weir/spsc_ring.go:66-85,
mpsc-event-pipeline-kata/python/src/weir/spsc_ring.py:111-136 -/
def tryPush (h : Handle) (v : V) : M V Tid Bool := do
  let t ← op (.tailLoad h.id)
  let c ← op (.cachedHeadLoad h.id)
  if t - c = cfg.capacity then do
    let c ← op (.headSee h.id)
    if t - c = cfg.capacity then pure false else store h v t
  else store h v t

/-- `n` more attempts.
mirrors mpsc-event-pipeline-kata/cpp/src/event_pipeline.hpp:184-187 -/
def retry (h : Handle) (v : V) : Nat → M V Tid Bool
  | 0 => pure false
  | n + 1 => do
    let ok ← tryPush cfg h v
    if ok then pure true else retry h v n

/-- The first attempt, and with `spinThenDrop` the others.
mirrors mpsc-event-pipeline-kata/cpp/src/event_pipeline.hpp:181-188 -/
def attempt (h : Handle) (v : V) : M V Tid Bool := do
  let ok ← tryPush cfg h v
  if ok = false ∧ cfg.full = .spinThenDrop then retry cfg h v cfg.pushSpin else pure ok

/-- mirrors mpsc-event-pipeline-kata/cpp/src/event_pipeline.hpp:195-197 -/
def highWater (i : Nat) : M V Tid Unit := do
  let t ← op (.tailLoad i)
  let c ← op (.cachedHeadLoad i)
  let hw ← op (.highLoad i)
  if hw < t - c then op (.highStore i (t - c)) else pure ()

/-- mirrors mpsc-event-pipeline-kata/cpp/src/event_pipeline.hpp:176-201,
mpsc-event-pipeline-kata/go/internal/weir/pipeline.go:260-289,
mpsc-event-pipeline-kata/python/src/weir/event_pipeline.py:240-267 -/
def push (h : Handle) (v : V) : M V Tid Result := do
  let accepting ← op (.acceptingLoad h)
  if accepting then do
    let ok ← attempt cfg h v
    if ok then do
      op (.pushedAdd h)
      highWater h.id
      if cfg.scan = .bitmap then signal cfg .push h.id else pure ()
      pure (.pushed true)
    else do
      op (.droppedAdd h)
      pure (.pushed false)
  else pure (.pushed false)

/-- mirrors mpsc-event-pipeline-kata/cpp/src/event_pipeline.hpp:247-254,
mpsc-event-pipeline-kata/go/internal/weir/pipeline.go:291-299,
mpsc-event-pipeline-kata/python/src/weir/event_pipeline.py:269-274 -/
def retire (h : Handle) : M V Tid Result := do
  op (.stateStore h.id .retiring)
  op (.pendingStore true)
  if cfg.scan = .bitmap then signal cfg .retire h.id else pure ()
  wake cfg .other
  pure .done

/-! ## The registry -/

/-- mirrors mpsc-event-pipeline-kata/cpp/src/event_pipeline.hpp:116-129,
mpsc-event-pipeline-kata/go/internal/weir/pipeline.go:217-230 -/
def claim : List Nat → M V Tid (Option Nat)
  | [] => pure none
  | i :: rest => do
    let won ← op (.stateCas i)
    if won then do
      op (.pushedStore i)
      op (.droppedStore i)
      op (.highStore i 0)
      pure (some i)
    else claim rest

/-- The slots that are not free.
mirrors mpsc-event-pipeline-kata/python/src/weir/event_pipeline.py:218 -/
def scan : List Nat → List Nat → M V Tid (List Nat)
  | [], ids => pure ids
  | i :: rest, ids => do
    let st ← op (.stateLoad .scan i)
    scan rest (if st = .free then ids else ids ++ [i])

/-- mirrors mpsc-event-pipeline-kata/python/src/weir/event_pipeline.py:216-218 -/
def refresh : M V Tid Unit := do
  let ids ← scan (List.range cfg.producers) []
  op (.registeredStore ids)

/-- mirrors mpsc-event-pipeline-kata/python/src/weir/event_pipeline.py:202-210 -/
def claimFree : List Nat → M V Tid (Option Nat)
  | [] => pure none
  | i :: rest => do
    let st ← op (.stateLoad .other i)
    if st = .free then do
      op (.pushedStore i)
      op (.droppedStore i)
      op (.highStore i 0)
      op (.stateStore i .active)
      refresh cfg
      pure (some i)
    else claimFree rest

/-- mirrors mpsc-event-pipeline-kata/python/src/weir/event_pipeline.py:200-214 -/
def registerLoop : M V Tid (Option Nat) := do
  op .regLock
  let i ← claimFree cfg (List.range cfg.producers)
  op .regUnlock
  if i.isSome then pure i
  else do
    let before ← op .beforeDeadline
    if before then do
      let running ← op .runningLoad
      if running then do
        wake cfg .other
        proc .registerLoop
      else pure none
    else pure none

/-- mirrors mpsc-event-pipeline-kata/cpp/src/event_pipeline.hpp:115-130,
mpsc-event-pipeline-kata/go/internal/weir/pipeline.go:214-231,
mpsc-event-pipeline-kata/python/src/weir/event_pipeline.py:179-214 -/
def register : M V Tid Result :=
  match cfg.port with
  | .cpp => do
    let i ← claim (List.range cfg.producers)
    pure (.registered i)
  | .go => do
    op .regLock
    let i ← claim (List.range cfg.producers)
    op .regUnlock
    pure (.registered i)
  | .python => do
    let i ← proc .registerLoop
    pure (.registered i)

/-! ## Starting and stopping -/

/-- mirrors mpsc-event-pipeline-kata/cpp/src/event_pipeline.hpp:85-89,
mpsc-event-pipeline-kata/go/internal/weir/pipeline.go:175-179,
mpsc-event-pipeline-kata/python/src/weir/event_pipeline.py:144-151 -/
def start : M V Tid Result := do
  op (.runningStore true)
  op (.acceptingStore true)
  op .threadStart
  pure .done

/-- mirrors mpsc-event-pipeline-kata/cpp/src/event_pipeline.hpp:435-441,
mpsc-event-pipeline-kata/go/internal/weir/pipeline.go:472-482,
mpsc-event-pipeline-kata/python/src/weir/event_pipeline.py:420-425 -/
def quiesced : List Nat → M V Tid Bool
  | [] => pure true
  | i :: rest => do
    let st ← op (.stateLoad .other i)
    if st = .free then quiesced rest
    else do
      let t ← op (.tailLoad i)
      let h ← op (.headLoad .other i)
      if t = h then quiesced rest else pure false

/-- mirrors mpsc-event-pipeline-kata/cpp/src/event_pipeline.hpp:101-104 -/
def quiesceLoop : M V Tid Unit := do
  let before ← op .beforeDeadline
  if before then do
    let q ← quiesced (List.range cfg.producers)
    if q then pure ()
    else do
      wake cfg .other
      proc .quiesceLoop
  else pure ()

/-- Is this the call that stops?
mirrors mpsc-event-pipeline-kata/cpp/src/event_pipeline.hpp:93,
mpsc-event-pipeline-kata/go/internal/weir/pipeline.go:187,
mpsc-event-pipeline-kata/python/src/weir/event_pipeline.py:155-158 -/
def enter : M V Tid Bool :=
  match cfg.port with
  | .cpp => op .joinableLoad
  | .go => op .onceDo
  | .python => do
    op .stopLock
    let stopped ← op .stoppedLoad
    let joinable ← op .joinableLoad
    if stopped = false ∧ joinable then do
      op .stoppedStore
      pure true
    else do
      op .stopUnlock
      pure false

def leave : M V Tid Unit :=
  match cfg.port with
  | .cpp => pure ()
  | .go => op .onceDone
  | .python => op .stopUnlock

/-- mirrors mpsc-event-pipeline-kata/cpp/src/event_pipeline.hpp:98-106 -/
def quiesce (mode : StopMode) : M V Tid Unit :=
  if mode = .drain then do
    proc .quiesceLoop
    let q ← quiesced (List.range cfg.producers)
    op (.drainMetStore q)
  else pure ()

/-- mirrors mpsc-event-pipeline-kata/cpp/src/event_pipeline.hpp:92-110,
mpsc-event-pipeline-kata/go/internal/weir/pipeline.go:186-206,
mpsc-event-pipeline-kata/python/src/weir/event_pipeline.py:153-174 -/
def stop (mode : StopMode) : M V Tid Result := do
  let first ← enter cfg
  if first then do
    op (.acceptingStore false)
    quiesce cfg mode
    op (.runningStore false)
    wake cfg .halt
    op .join
    leave cfg
    pure .stopped
  else pure .done

/-! ## The consumer -/

/-- mirrors mpsc-event-pipeline-kata/cpp/src/event_pipeline.hpp:407-412,
mpsc-event-pipeline-kata/go/internal/weir/pipeline.go:439-445,
mpsc-event-pipeline-kata/python/src/weir/event_pipeline.py:384-391 -/
def flush : M V Tid Unit := do
  let staged ← op .stagedLoad
  if staged = 0 then pure () else op .sinkWrite

/-- The items at `n` positions.
mirrors mpsc-event-pipeline-kata/cpp/src/spsc_ring.hpp:65 -/
def copy (i pos : Nat) : Nat → M V Tid (List (Item V Tid))
  | 0 => pure []
  | n + 1 => do
    let e ← op (.slotLoad i pos)
    let rest ← copy i (pos + 1) n
    pure (e :: rest)

/-- mirrors mpsc-event-pipeline-kata/cpp/src/spsc_ring.hpp:64-70 -/
def copyOut (i h n : Nat) : M V Tid Nat := do
  let out ← copy i h n
  op (.headStore i (h + n) out)
  pure n

/-- Stages what it takes.
mirrors mpsc-event-pipeline-kata/cpp/src/spsc_ring.hpp:58-71,
mpsc-event-pipeline-kata/go/internal/weir/spsc_ring.go:102-132,
mpsc-event-pipeline-kata/python/src/weir/spsc_ring.py:144-197 -/
def popBatch (site : Site) (i room : Nat) : M V Tid Nat := do
  let h ← op (.headLoad site i)
  let c ← op (.cachedTailLoad i)
  if h = c then do
    let c ← op (.tailSee site i)
    if h = c then pure 0 else copyOut i h (min room (c - h))
  else copyOut i h (min room (c - h))

/-- mirrors mpsc-event-pipeline-kata/cpp/src/spsc_ring.hpp:75-78,
mpsc-event-pipeline-kata/go/internal/weir/spsc_ring.go:137-140,
mpsc-event-pipeline-kata/python/src/weir/spsc_ring.py:199-201 -/
def emptyNow (site : Site) (i : Nat) : M V Tid Bool := do
  let c ← op (.tailSee site i)
  let h ← op (.headLoad site i)
  pure (decide (h = c))

/-- What is staged, after a flush if the buffer is full.
mirrors mpsc-event-pipeline-kata/cpp/src/event_pipeline.hpp:388 -/
def makeRoom : M V Tid Nat := do
  let staged ← op .stagedLoad
  if staged = cfg.stageEvents then do
    flush
    pure 0
  else pure staged

/-- mirrors mpsc-event-pipeline-kata/cpp/src/event_pipeline.hpp:387-397 -/
def drainLoop (site : Site) (i got : Nat) : M V Tid Nat :=
  if got < cfg.drainBatch then do
    let staged ← makeRoom cfg
    let n ← popBatch site i (min (cfg.stageEvents - staged) (cfg.drainBatch - got))
    if n = 0 then pure got else proc (.drainLoop site i (got + n))
  else pure got

/-- mirrors mpsc-event-pipeline-kata/cpp/src/event_pipeline.hpp:385-400,
mpsc-event-pipeline-kata/go/internal/weir/pipeline.go:405-433,
mpsc-event-pipeline-kata/python/src/weir/event_pipeline.py:368-382 -/
def drainRing (site : Site) (i : Nat) : M V Tid Nat := do
  let got ← proc (.drainLoop site i 0)
  op (.consumedAdd got)
  pure got

/-- The end of a pass that took `total`. -/
def flushPass (total : Nat) : M V Tid Nat := do
  if 0 < total then flush else pure ()
  pure total

/-- mirrors mpsc-event-pipeline-kata/cpp/src/event_pipeline.hpp:321-328 -/
def drainUsed (site : Site) : List Nat → Nat → M V Tid Nat
  | [], total => flushPass total
  | i :: rest, total => do
    let st ← op (.stateLoad site i)
    if st = .free then drainUsed site rest total
    else do
      let n ← drainRing site i
      drainUsed site rest (total + n)

/-- mirrors mpsc-event-pipeline-kata/cpp/src/event_pipeline.hpp:319-331,
mpsc-event-pipeline-kata/go/internal/weir/pipeline.go:385-403,
mpsc-event-pipeline-kata/python/src/weir/event_pipeline.py:331-345 -/
def drainFull (site : Site) (rotate : Nat) : M V Tid Nat :=
  drainUsed site (order cfg rotate) 0

/-- mirrors mpsc-event-pipeline-kata/cpp/src/event_pipeline.hpp:342-351 -/
def drainEach : List Nat → Nat → M V Tid Nat
  | [], total => flushPass total
  | i :: rest, total => do
    let n ← drainRing .pass i
    drainEach rest (total + n)

/-- mirrors mpsc-event-pipeline-kata/python/src/weir/active_set.py:113 -/
def flagged : List Nat → List Nat → M V Tid (List Nat)
  | [], ids => pure ids
  | i :: rest, ids => do
    let set ← op (.bitLoad .other i)
    flagged rest (if set then ids ++ [i] else ids)

/-- mirrors mpsc-event-pipeline-kata/python/src/weir/active_set.py:106-113 -/
def activeIds : M V Tid (List Nat) := do
  let ids ← op .registeredLoad
  flagged ids []

/-- mirrors mpsc-event-pipeline-kata/python/src/weir/event_pipeline.py:354-356 -/
def turn (rotate : Nat) (ids : List Nat) : List Nat :=
  if rotate ≠ 0 ∧ 1 < ids.length then
    ids.drop (rotate % ids.length) ++ ids.take (rotate % ids.length)
  else ids

/-- mirrors mpsc-event-pipeline-kata/cpp/src/event_pipeline.hpp:337-354,
mpsc-event-pipeline-kata/go/internal/weir/bitmap.go:128-147,
mpsc-event-pipeline-kata/python/src/weir/event_pipeline.py:347-366 -/
def drainBitmap (rotate : Nat) : M V Tid Nat :=
  match cfg.port with
  | .python => do
    let ids ← activeIds
    drainEach (turn rotate ids) 0
  | _ => do
    let word ← op .wordLoad
    drainEach ((order cfg rotate).filter word) 0

/-- mirrors mpsc-event-pipeline-kata/cpp/src/event_pipeline.hpp:367-380 -/
def clearBit (i : Nat) : M V Tid Unit := do
  let empty ← emptyNow .other i
  if empty then do
    op (.bitClear (.clear false) i)
    let empty ← emptyNow (.clear false) i
    if empty then do
      let st ← op (.stateLoad (.clear false) i)
      if st = .retiring then do
        let _ ← op (.bitSet (.clear false) i)
        pure ()
      else pure ()
    else do
      let _ ← op (.bitSet (.clear false) i)
      pure ()
  else pure ()

/-- mirrors mpsc-event-pipeline-kata/python/src/weir/active_set.py:115-134 -/
def clearIfEmpty (i : Nat) (retiring : Bool) : M V Tid Unit := do
  let empty ← emptyNow .other i
  if empty then do
    op (.bitClear (.clear retiring) i)
    let empty ← emptyNow (.clear retiring) i
    if empty = false ∨ retiring then do
      let _ ← op (.bitSet (.clear retiring) i)
      pure ()
    else pure ()
  else pure ()

/-- One bit, or one flag. -/
def clearOne (i : Nat) : M V Tid Unit :=
  match cfg.port with
  | .python => do
    let st ← op (.stateLoad .other i)
    clearIfEmpty i (decide (st = .retiring))
  | _ => clearBit i

def clearEach : List Nat → M V Tid Unit
  | [] => pure ()
  | i :: rest => do
    clearOne cfg i
    clearEach rest

/-- mirrors mpsc-event-pipeline-kata/cpp/src/event_pipeline.hpp:361-382,
mpsc-event-pipeline-kata/go/internal/weir/bitmap.go:91-119,
mpsc-event-pipeline-kata/python/src/weir/event_pipeline.py:393-397 -/
def clearEmpty : M V Tid Unit :=
  match cfg.port with
  | .python => do
    let ids ← activeIds
    clearEach cfg ids
  | _ => do
    let word ← op .wordLoad
    clearEach cfg ((List.range cfg.producers).filter word)

/-- mirrors mpsc-event-pipeline-kata/cpp/src/event_pipeline.hpp:423-426,
mpsc-event-pipeline-kata/python/src/weir/event_pipeline.py:410-413 -/
def fold (i : Nat) : M V Tid Unit :=
  match cfg.port with
  | .python => do
    let p ← op (.pushedLoad i)
    op (.retiredPushedAdd p)
    let d ← op (.droppedLoad i)
    op (.retiredDroppedAdd d)
    op (.pushedStore i)
    op (.droppedStore i)
  | _ => do
    let p ← op (.pushedSwap i)
    op (.retiredPushedAdd p)
    let d ← op (.droppedSwap i)
    op (.retiredDroppedAdd d)

/-- Has any slot changed? -/
def reclaimEach : List Nat → Bool → M V Tid Bool
  | [], changed => pure changed
  | i :: rest, changed => do
    let st ← op (.stateLoad .reclaim i)
    if st = .retiring then do
      let empty ← emptyNow .reclaim i
      if empty then do
        fold cfg i
        op (.bitClear .reclaim i)
        op (.stateStore i .free)
        reclaimEach rest true
      else reclaimEach rest changed
    else reclaimEach rest changed

/-- mirrors mpsc-event-pipeline-kata/cpp/src/event_pipeline.hpp:415-430,
mpsc-event-pipeline-kata/go/internal/weir/pipeline.go:449-466,
mpsc-event-pipeline-kata/python/src/weir/event_pipeline.py:399-418 -/
def reclaim : M V Tid Unit := do
  let changed ← reclaimEach cfg (List.range cfg.producers) false
  if cfg.port = .python ∧ changed then refresh cfg else pure ()

/-- mirrors mpsc-event-pipeline-kata/cpp/src/event_pipeline.hpp:275,
mpsc-event-pipeline-kata/python/src/weir/event_pipeline.py:293-295 -/
def reclaimAsked : M V Tid Unit :=
  match cfg.port with
  | .python => do
    let pending ← op .pendingLoad
    if pending then do
      op (.pendingStore false)
      reclaim cfg
    else pure ()
  | _ => do
    let pending ← op .pendingSwap
    if pending then reclaim cfg else pure ()

/-- Does the consumer only pause, after that many idle passes?
mirrors mpsc-event-pipeline-kata/cpp/src/event_pipeline.hpp:277-278,
mpsc-event-pipeline-kata/go/internal/weir/pipeline.go:333-340,
mpsc-event-pipeline-kata/python/src/weir/event_pipeline.py:298 -/
def pauses (idle : Nat) : Bool :=
  match cfg.port with
  | .cpp => idle < cfg.spin || idle < cfg.spin * 2
  | .go => idle < cfg.spin || idle < cfg.spin + cfg.yields
  | .python => idle < cfg.spin

/-- On the way to sleep.
mirrors mpsc-event-pipeline-kata/cpp/src/event_pipeline.hpp:289-299 -/
def settle (rotate : Nat) : M V Tid Unit := do
  if cfg.scan = .bitmap then clearEmpty cfg else pure ()
  let n ← drainFull cfg .pass rotate
  if 0 < n then proc (.consumeLoop 0 rotate)
  else do
    park cfg
    proc (.consumeLoop 0 rotate)

/-- mirrors mpsc-event-pipeline-kata/cpp/src/event_pipeline.hpp:337-338 -/
def drainPass (rotate : Nat) : M V Tid Nat :=
  if cfg.scan = .bitmap then drainBitmap cfg rotate else drainFull cfg .pass rotate

/-- mirrors mpsc-event-pipeline-kata/cpp/src/event_pipeline.hpp:263-300,
mpsc-event-pipeline-kata/go/internal/weir/pipeline.go:309-365,
mpsc-event-pipeline-kata/python/src/weir/event_pipeline.py:283-319 -/
def consumeLoop (idle rotate : Nat) : M V Tid Unit := do
  let running ← op .runningLoad
  if running then do
    let n ← drainPass cfg rotate
    if 0 < n then proc (.consumeLoop 0 ((rotate + 1) % cfg.producers))
    else do
      reclaimAsked cfg
      if pauses cfg (idle + 1) then proc (.consumeLoop (idle + 1) ((rotate + 1) % cfg.producers))
      else settle cfg ((rotate + 1) % cfg.producers)
  else pure ()

/-- mirrors mpsc-event-pipeline-kata/cpp/src/event_pipeline.hpp:306-307 -/
def finalLoop (site : Site) (rotate : Nat) : M V Tid Unit := do
  let n ← drainFull cfg site rotate
  if 0 < n then proc (.finalLoop site ((rotate + 1) % cfg.producers)) else pure ()

/-- mirrors mpsc-event-pipeline-kata/cpp/src/event_pipeline.hpp:259-313,
mpsc-event-pipeline-kata/go/internal/weir/pipeline.go:303-380,
mpsc-event-pipeline-kata/python/src/weir/event_pipeline.py:278-329 -/
def consume : M V Tid Result := do
  proc (.consumeLoop 0 0)
  proc (.finalLoop .pass 0)
  proc (.finalLoop .last 0)
  flush
  reclaim cfg
  pure .done

def body : (p : Proc) → M V Tid (Ret p)
  | .quiesceLoop => quiesceLoop cfg
  | .registerLoop => registerLoop cfg
  | .drainLoop site i got => drainLoop cfg site i got
  | .consumeLoop idle rotate => consumeLoop cfg idle rotate
  | .finalLoop site rotate => finalLoop cfg site rotate

def code : Call V → M V Tid Result
  | .start => start
  | .stop mode => stop cfg mode
  | .register => register cfg
  | .push h v => push cfg h v
  | .retire h => retire cfg h
  | .consume => consume cfg

end code

end Katas.Weir.Pipeline
