import Katas.Core.LTS
import Katas.Weir.Event
import Mathlib.Algebra.GroupWithZero.Nat

/-!
# The asyncio pipeline

`AsyncEventPipeline`: per-producer buffers on one event loop, a consumer task
that flushes them into a sink, and `stop`, which waits for the task and flushes
what is left. Coroutines run one at a time, from one suspension to the next, so
one step is such a segment. A flush can suspend where it has handed a blob to
the sink and nowhere else; a sink that does not suspend is one whose next step
comes at once, and a push from within the sink is one made while the sink has
the blob.

Any coroutine may register producers and push at any time. One `start` and one
`stop` are called. The consumer's wait is over when it is woken or its timer
runs out, hence at any moment. The sink does not raise. Left out is
`drain_pressure`, which only sets the event and yields.
-/
namespace Katas.Weir.Async

/-- mirrors mpsc-event-pipeline-kata/python/src/weir/aio.py:46-50 -/
structure ProducerStats where
  pushed : Nat
  dropped : Nat
  high_water : Nat
  deriving DecidableEq, Repr

/-- `accepted` is the history of the records that `push` has appended.
mirrors mpsc-event-pipeline-kata/python/src/weir/aio.py:53-66 -/
structure Producer where
  name : String
  pid : Nat
  capacity : Nat
  buf : List Bytes
  stats : ProducerStats
  accepted : List Bytes
  deriving DecidableEq, Repr

/-- `_Producer(name, pid, capacity)` -/
def Producer.new (name : String) (pid capacity : Nat) : Producer :=
  ⟨name, pid, capacity, [], ⟨0, 0, 0⟩, []⟩

/-- The producer afterwards, and what is returned; `none` if `pack` raises.
mirrors mpsc-event-pipeline-kata/python/src/weir/aio.py:68-76 -/
def Producer.push (p : Producer) (seq stamp_ns : Int) (payload : Bytes) : Producer × Option Bool :=
  if p.buf.length ≥ p.capacity then
    ({ p with stats.dropped := p.stats.dropped + 1 }, some false)
  else
    match Event.pack p.pid seq stamp_ns payload with
    | none => (p, none)
    | some r =>
      let buf := p.buf ++ [r]
      let high_water := if buf.length > p.stats.high_water then buf.length else p.stats.high_water
      ({ p with
          buf := buf
          stats.pushed := p.stats.pushed + 1
          stats.high_water := high_water
          accepted := p.accepted ++ [r] }, some true)

/-- mirrors mpsc-event-pipeline-kata/python/src/weir/aio.py:78-83 -/
def Producer.take (p : Producer) : Producer × List Bytes :=
  if p.buf = [] then (p, []) else ({ p with buf := [] }, p.buf)

/-- The constructor's arguments that matter; a batch has at least one record. -/
structure Config where
  batch : Nat
  capacity : Nat
  batch_pos : 0 < batch

/-- A `_flush_all` that awaits the sink: `handed` records of producer `i` are
with the sink, `chunks` are taken and not yet handed over, `rest` are the
producers still to visit, and `total` counts those the sink is done with. -/
structure Flush where
  i : Nat
  chunks : List Bytes
  handed : Nat
  rest : List Nat
  total : Nat
  deriving DecidableEq, Repr

/-- Where the consumer task is: not created, at the head of its loop, in a
flush, in its wait, or at its end. -/
inductive Task where
  | unborn
  | ready
  | sink (f : Flush)
  | waiting
  | done
  deriving DecidableEq, Repr

/-- Where the call of `stop` is: not made, awaiting the task, in the final
flush, or returned. -/
inductive Stop where
  | uncalled
  | joining (drain : Bool)
  | sink (f : Flush)
  | returned (drain : Bool)
  deriving DecidableEq, Repr

/-- `producers` are the values of the dict, in the order of insertion; `sunk` is
the history of the blobs handed to the sink. -/
structure State where
  producers : List Producer
  wake : Bool
  running : Bool
  consumed : Nat
  passes : Nat
  task : Task
  stop : Stop
  sunk : List Bytes
  deriving DecidableEq, Repr

/-- mirrors mpsc-event-pipeline-kata/python/src/weir/aio.py:107-112 -/
def State.init : State := ⟨[], false, false, 0, 0, .unborn, .uncalled, []⟩

/-- mirrors mpsc-event-pipeline-kata/python/src/weir/aio.py:116-121 -/
def producer (cfg : Config) (name : String) (s : State) : State :=
  match s.producers.find? (·.name = name) with
  | some _ => s
  | none =>
    { s with producers := s.producers ++ [.new name s.producers.length cfg.capacity] }

/-- `push` on the producer object `i`. -/
def push (i : Nat) (seq stamp_ns : Int) (payload : Bytes) (s : State) : Option State :=
  s.producers[i]?.map fun p =>
    { s with producers := s.producers.set i (p.push seq stamp_ns payload).1 }

/-- `take` on the producer object `i`. -/
def take (i : Nat) (s : State) : State × List Bytes :=
  match s.producers[i]? with
  | none => (s, [])
  | some p => ({ s with producers := s.producers.set i p.take.1 }, p.take.2)

/-- How a segment of a flush ends: with a blob handed to the sink, or with the
flush, which returns its total. -/
inductive Flushed where
  | sink (f : Flush)
  | total (n : Nat)

/-- The next slice goes to the sink. -/
def hand (cfg : Config) (i : Nat) (chunks : List Bytes) (rest : List Nat) (total : Nat)
    (s : State) : State × Flushed :=
  let slice := chunks.take cfg.batch
  ({ s with sunk := s.sunk ++ [slice.flatten] },
    .sink ⟨i, chunks.drop cfg.batch, slice.length, rest, total⟩)

/-- The outer loop of `_flush_all`.
mirrors mpsc-event-pipeline-kata/python/src/weir/aio.py:185-199 -/
def visit (cfg : Config) : List Nat → Nat → State → State × Flushed
  | [], total, s => ({ s with consumed := s.consumed + total }, .total total)
  | i :: rest, total, s =>
    let (s, chunks) := take i s
    if chunks = [] then visit cfg rest total s else hand cfg i chunks rest total s

/-- mirrors mpsc-event-pipeline-kata/python/src/weir/aio.py:183-199 -/
def flush_all (cfg : Config) (s : State) : State × Flushed :=
  visit cfg (List.range s.producers.length) 0 s

/-- The sink is done with the blob: the inner loop of `_flush_all`.
mirrors mpsc-event-pipeline-kata/python/src/weir/aio.py:192-197 -/
def resume (cfg : Config) (f : Flush) (s : State) : State × Flushed :=
  let total := f.total + f.handed
  if f.chunks = [] then visit cfg f.rest total s else hand cfg f.i f.chunks f.rest total s

/-- The consumer from the head of its loop on. The last case does not occur: a
flush that hands nothing to the sink returns 0.
mirrors mpsc-event-pipeline-kata/python/src/weir/aio.py:168-181 -/
def head (cfg : Config) (s : State) : State :=
  if s.running then
    match flush_all cfg { s with passes := s.passes + 1 } with
    | (s, .sink f) => { s with task := .sink f }
    | (s, .total 0) => { s with wake := false, task := .waiting }
    | (s, .total _) => { s with task := .ready }
  else { s with task := .done }

/-- The consumer from a return of the sink on. -/
def drained (cfg : Config) (f : Flush) (s : State) : State :=
  match resume cfg f s with
  | (s, .sink f) => { s with task := .sink f }
  | (s, .total 0) => { s with wake := false, task := .waiting }
  | (s, .total _) => head cfg s

/-- mirrors mpsc-event-pipeline-kata/python/src/weir/aio.py:145-147 -/
def start (s : State) : State := { s with running := true, task := .ready }

/-- `stop` up to its first suspension.
mirrors mpsc-event-pipeline-kata/python/src/weir/aio.py:149-154 -/
def stop (drain : Bool) (s : State) : State :=
  match s.task with
  | .unborn => { s with stop := .returned drain }
  | _ => { s with running := false, wake := true, stop := .joining drain }

/-- A segment of the final flush has ended.
mirrors mpsc-event-pipeline-kata/python/src/weir/aio.py:155-157 -/
def stopped : State × Flushed → State
  | (s, .sink f) => { s with stop := .sink f }
  | (s, .total _) => { s with stop := .returned true }

/-- mirrors mpsc-event-pipeline-kata/python/src/weir/aio.py:206-212 -/
def totals (s : State) : ProducerStats :=
  s.producers.foldl
    (fun t p => ⟨t.pushed + p.stats.pushed, t.dropped + p.stats.dropped,
      max t.high_water p.stats.high_water⟩) ⟨0, 0, 0⟩

/-- What runs next: a coroutine that registers or pushes, `start`, `stop`, the
consumer task, or `stop` after a suspension. -/
inductive Act where
  | producer (name : String)
  | push (i : Nat) (seq stamp_ns : Int) (payload : Bytes)
  | start
  | stop (drain : Bool)
  | consumer
  | stopper
  deriving DecidableEq

def step (cfg : Config) (s : State) : Act → Option State
  | .producer name => some (producer cfg name s)
  | .push i seq stamp_ns payload => push i seq stamp_ns payload s
  | .start => if s.task = .unborn then some (start s) else none
  | .stop drain => if s.stop = .uncalled then some (stop drain s) else none
  | .consumer =>
    match s.task with
    | .ready | .waiting => some (head cfg s)
    | .sink f => some (drained cfg f s)
    | .unborn | .done => none
  | .stopper =>
    match s.stop with
    | .joining drain =>
      if s.task = .done then
        some (if drain then stopped (flush_all cfg s) else { s with stop := .returned false })
      else none
    | .sink f => some (stopped (resume cfg f s))
    | .uncalled | .returned _ => none

def loop (cfg : Config) : LTS State Act where
  init s := s = .init
  step s a s' := step cfg s a = some s'

end Katas.Weir.Async
