import Katas.Weir.Transport

/-!
# The two baselines

`weir.ChanTransport` and `weir.MutexTransport` as one `System`: where the two
differ, the code asks `kind`. There is one operation for every `sync/atomic`
access and every channel operation; the section that the mutex guards is one
operation as well, since nothing outside it reads what it works on. What the
channel, or the guarded buffer, holds is a list.

A send finds a receiver that waits (`waiting`) before it finds room, and hands
it the event (`handed`). A send on a closed channel, and a close of one, have
no successor: there the program panics. `Start` is called once, and `Stop`
after it has returned.

The histories (from `ready` on) are written by the operations they record;
`enabled` alone reads one, `ready`. Left out, because nothing here reads them:
the producers' ids and the hooks.
-/
namespace Katas.Weir.Baseline
open Katas.Conc

inductive Kind where
  | chan
  | mutex
  deriving DecidableEq, Repr

/-- `stageEvents` is `StageEvents`.
mirrors mpsc-event-pipeline-kata/go/internal/weir/baseline.go:79-99 -/
structure Config where
  kind : Kind
  capacity : Nat
  stageEvents : Nat

/-- A call: the goroutine that made it, and how many it had made before. -/
abbrev CallId (Tid : Type) := Tid × Nat

/-- An event, and the call that pushed it. -/
abbrev Item (V Tid : Type) := CallId Tid × V

/-- `consume` is the goroutine that `Start` starts. -/
inductive Call (V : Type) where
  | start
  | stop
  | register
  | push (v : V)
  | consume
  deriving DecidableEq, Repr

inductive Result where
  | done
  | stopped
  | pushed (ok : Bool)
  deriving DecidableEq, Repr

inductive Act (V : Type) where
  | acceptLoad
  | acceptStore (b : Bool)
  | runningLoad
  | runningStore (b : Bool)
  | goConsume
  | onceDo
  | onceDone
  | nextAdd
  | send (v : V)
  | put (v : V)
  | pushedAdd
  | droppedAdd
  | recv
  | wake
  | recvNow
  | batchLen
  | take
  | consumedAdd
  | sinkWrite
  | closeCh
  | doneWait
  | doneClose
  deriving DecidableEq, Repr

/-- What a receive that may wait answers. -/
inductive Received where
  | got
  | closed
  | waits
  deriving DecidableEq, Repr

@[reducible] def Resp {V : Type} : Act V → Type
  | .acceptLoad | .runningLoad | .onceDo | .send _ | .put _ | .wake | .recvNow => Bool
  | .recv => Received
  | .batchLen | .take => Nat
  | .acceptStore _ | .runningStore _ | .goConsume | .onceDone | .nextAdd | .pushedAdd
  | .droppedAdd | .consumedAdd | .sinkWrite | .closeCh | .doneWait | .doneClose => Unit

inductive Proc where
  | consumeLoop
  | fillLoop

@[reducible] def Ret : Proc → Type := fun _ => Unit

abbrev sig (V : Type) : Sig := ⟨Act V, Resp, Proc, Ret⟩

abbrev M (V α : Type) := Prog (sig V) α

section code
variable {V : Type} (cfg : Config)

abbrev op (a : Act V) : M V (Resp a) := Prog.op (S := sig V) a

abbrev proc (p : Proc) : M V (Ret p) := Prog.proc (S := sig V) p

/-- mirrors mpsc-event-pipeline-kata/go/internal/weir/baseline.go:109-146,228-259 -/
def start : M V Result := do
  op (.acceptStore true)
  if cfg.kind = .mutex then op (.runningStore true) else pure ()
  op .goConsume
  pure .done

/-- The stopping itself. -/
def halt : M V Unit :=
  match cfg.kind with
  | .chan => op .closeCh
  | .mutex => op (.runningStore false)

/-- mirrors mpsc-event-pipeline-kata/go/internal/weir/baseline.go:148-154,261-267 -/
def stop : M V Result := do
  let first ← op .onceDo
  if first then do
    op (.acceptStore false)
    halt cfg
    op .doneWait
    op .onceDone
    pure .stopped
  else pure .stopped

/-- mirrors mpsc-event-pipeline-kata/go/internal/weir/baseline.go:105-107,224-226 -/
def register : M V Result := do
  op .nextAdd
  pure .done

/-- Did the event find a place? -/
def offer (v : V) : M V Bool :=
  match cfg.kind with
  | .chan => op (.send v)
  | .mutex => op (.put v)

/-- mirrors mpsc-event-pipeline-kata/go/internal/weir/baseline.go:172-184,285-301 -/
def push (v : V) : M V Result := do
  let accept ← op .acceptLoad
  if accept then do
    let ok ← offer cfg v
    if ok then do
      op .pushedAdd
      pure (.pushed true)
    else do
      op .droppedAdd
      pure (.pushed false)
  else pure (.pushed false)

/-- mirrors mpsc-event-pipeline-kata/go/internal/weir/baseline.go:124-135 -/
def fillLoop : M V Unit := do
  let len ← op .batchLen
  if len < cfg.stageEvents then do
    let got ← op .recvNow
    if got then proc .fillLoop else pure ()
  else pure ()

/-- An event, unless the channel is closed and empty.
mirrors mpsc-event-pipeline-kata/go/internal/weir/baseline.go:119-122 -/
def receive : M V Bool := do
  let r ← op .recv
  match r with
  | .got => pure true
  | .closed => pure false
  | .waits => op .wake

def write : M V Unit := do
  op .consumedAdd
  op .sinkWrite

/-- mirrors mpsc-event-pipeline-kata/go/internal/weir/baseline.go:114-144,234-257 -/
def consumeLoop : M V Unit :=
  match cfg.kind with
  | .chan => do
    let got ← receive
    if got then do
      proc .fillLoop
      write
      proc .consumeLoop
    else pure ()
  | .mutex => do
    let running ← op .runningLoad
    if running then do
      let n ← op .take
      if n = 0 then proc .consumeLoop
      else do
        write
        proc .consumeLoop
    else pure ()

/-- mirrors mpsc-event-pipeline-kata/go/internal/weir/baseline.go:111-112,231-232 -/
def consume : M V Result := do
  proc .consumeLoop
  op .doneClose
  pure .done

def body : (p : Proc) → M V (Ret p)
  | .consumeLoop => consumeLoop cfg
  | .fillLoop => fillLoop cfg

def code : Call V → M V Result
  | .start => start cfg
  | .stop => stop cfg
  | .register => register
  | .push v => push cfg v
  | .consume => consume

end code

/-! ## State -/

/-- Go's `sync.Once`. -/
inductive Once (Tid : Type) where
  | fresh
  | doing (t : Tid)
  | done

/-- The consumer: `Start` is not called, is in progress, has started it; it
runs, it has ended. -/
inductive Life (Tid : Type) where
  | fresh
  | starting (t : Tid)
  | spawned
  | consuming (t : Tid)
  | over

/-- `queue`: what the channel, or the guarded buffer, holds. `closed`, `waiting`
and `handed` are the channel's.

The histories: `ready`, `Start` has returned; `between t`, a push of `t` has
found the transport accepting and has offered nothing yet; `accepted`, what
pushes returned true for; `before`, what they had when `Stop` was first
called. -/
structure State (V Tid : Type) where
  queue : List (Item V Tid)
  closed : Bool
  waiting : Bool
  handed : Option (Item V Tid)
  accept : Bool
  running : Bool
  once : Once Tid
  done : Bool
  nextID : Nat
  batch : List (Item V Tid)
  sink : List (Item V Tid)
  pushed : Nat
  dropped : Nat
  consumed : Nat
  life : Life Tid
  calls : Tid → Nat
  ready : Bool
  between : Tid → Bool
  accepted : List (Item V Tid)
  before : Option (List (Item V Tid))
  stopped : Bool

section system
variable {V Tid : Type} [DecidableEq Tid] (cfg : Config)

def State.init : State V Tid where
  queue := []
  closed := false
  waiting := false
  handed := none
  accept := false
  running := false
  once := .fresh
  done := false
  nextID := 0
  batch := []
  sink := []
  pushed := 0
  dropped := 0
  consumed := 0
  life := .fresh
  calls _ := 0
  ready := false
  between _ := false
  accepted := []
  before := none
  stopped := false

namespace State

/-- The call `t` is in. -/
def me (s : State V Tid) (t : Tid) : CallId Tid := (t, s.calls t)

/-- What is somewhere between a push and the sink. -/
def all (s : State V Tid) : List (Item V Tid) := s.sink ++ s.batch ++ s.handed.toList ++ s.queue

end State

def sem (t : Tid) : (a : Act V) → Nat → State V Tid → Option (State V Tid × Resp a)
  | .acceptLoad, _, s => some ({ s with between := upd s.between t s.accept }, s.accept)
  | .acceptStore b, _, s => some ({ s with accept := b }, ())
  | .runningLoad, _, s => some (s, s.running)
  | .runningStore b, _, s => some ({ s with running := b }, ())
  | .goConsume, _, s => some ({ s with life := .spawned }, ())
  | .onceDo, _, s =>
    match s.once with
    | .fresh => some ({ s with once := .doing t }, true)
    | .doing _ => none
    | .done => some (s, false)
  | .onceDone, _, s => some ({ s with once := .done }, ())
  | .nextAdd, _, s => some ({ s with nextID := s.nextID + 1 }, ())
  | .send v, _, s =>
    let s' := { s with between := upd s.between t false }
    if s.closed then none
    else if s.waiting then some ({ s' with handed := some (s.me t, v), waiting := false }, true)
    else if s.queue.length < cfg.capacity then
      some ({ s' with queue := s.queue ++ [(s.me t, v)] }, true)
    else some (s', false)
  | .put v, _, s =>
    let s' := { s with between := upd s.between t false }
    if s.queue.length = cfg.capacity then some (s', false)
    else some ({ s' with queue := s.queue ++ [(s.me t, v)] }, true)
  | .pushedAdd, _, s => some ({ s with pushed := s.pushed + 1 }, ())
  | .droppedAdd, _, s => some ({ s with dropped := s.dropped + 1 }, ())
  | .recv, _, s =>
    match s.queue with
    | e :: rest => some ({ s with queue := rest, batch := s.batch ++ [e] }, .got)
    | [] => if s.closed then some (s, .closed) else some ({ s with waiting := true }, .waits)
  | .wake, _, s =>
    match s.handed with
    | some e => some ({ s with handed := none, batch := s.batch ++ [e] }, true)
    | none => if s.closed then some ({ s with waiting := false }, false) else none
  | .recvNow, _, s =>
    match s.queue with
    | e :: rest => some ({ s with queue := rest, batch := s.batch ++ [e] }, true)
    | [] => some (s, false)
  | .batchLen, _, s => some (s, s.batch.length)
  | .take, _, s =>
    some ({ s with
      queue := s.queue.drop cfg.stageEvents
      batch := s.queue.take cfg.stageEvents }, (s.queue.take cfg.stageEvents).length)
  | .consumedAdd, _, s => some ({ s with consumed := s.consumed + s.batch.length }, ())
  | .sinkWrite, _, s => some ({ s with sink := s.sink ++ s.batch, batch := [] }, ())
  | .closeCh, _, s => if s.closed then none else some ({ s with closed := true }, ())
  | .doneWait, _, s => if s.done then some (s, ()) else none
  | .doneClose, _, s => if s.done then none else some ({ s with done := true }, ())

/-- May the call begin now? -/
def enabled (s : State V Tid) : Call V → Bool
  | .start => match s.life with
    | .fresh => true
    | _ => false
  | .stop => s.ready
  | .consume => match s.life with
    | .spawned => true
    | _ => false
  | .register => true
  | .push _ => 0 < s.nextID

def begin (t : Tid) (c : Call V) (s : State V Tid) : State V Tid :=
  let s := { s with calls := upd s.calls t (s.calls t + 1) }
  match c with
  | .start => { s with life := .starting t }
  | .stop => { s with before := s.before.or (some s.accepted) }
  | .consume => { s with life := .consuming t }
  | _ => s

def finish (t : Tid) (c : Call V) (r : Result) (s : State V Tid) : State V Tid :=
  match c, r with
  | .start, _ => { s with ready := true }
  | .stop, _ => { s with stopped := true }
  | .consume, _ => { s with life := .over }
  | .push v, .pushed true => { s with accepted := s.accepted ++ [(s.me t, v)] }
  | _, _ => s

variable (V Tid) in
/-- Any goroutine makes any call it may, one at a time.
mirrors mpsc-event-pipeline-kata/go/internal/weir/baseline.go:79-99,194-219 -/
abbrev baseline : System where
  sig := sig V
  State := State V Tid
  Tid := Tid
  Call := Call V
  Result := Result
  decTid := inferInstance
  init := .init
  enabled s _ c := enabled s c
  begin := begin
  finish := finish
  code := code cfg
  body := body cfg
  sem := sem cfg

/-- A send on a closed channel, and a close of one. -/
def Panics (a : Act V) (s : State V Tid) : Prop :=
  match a with
  | .send _ | .closeCh => s.closed = true
  | .doneClose => s.done = true
  | _ => False

variable (V Tid) in
/-- mirrors mpsc-event-pipeline-kata/go/internal/weir/baseline.go:303-306 -/
def transport : Transport where
  system := baseline V Tid cfg
  Item := Item V Tid
  panics := Panics
  crashes _ _ := False
  before s e := ∃ l, s.before = some l ∧ e ∈ l
  written s e := e ∈ s.sink
  stopped s := s.stopped = true

end system
end Katas.Weir.Baseline
