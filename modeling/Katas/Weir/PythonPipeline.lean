import Katas.Core.Prog
import Katas.Weir.PythonRings

/-!
# The Python pipeline on either ring

The pushes and the consumer's drains of a pipeline, one after another, on any
ring that keeps a queue of records. What the pipeline is for is said by `Queues`:
a bounded queue for each producer, and what is taken out goes into batches. A
drain takes as much from a ring as that says, however many pops it needs
(`drain_ring_refines`), so rings that pop differently fill the same batches.

Left out are the flags of the active set and the counters of the scans: which
rings a scan visits is given.
-/
namespace Katas.Weir.PythonPipeline
open Katas.Conc Katas.Records Katas.Weir.Event Katas.Weir.PythonRings

/-- mirrors mpsc-event-pipeline-kata/python/src/weir/config.py:41 -/
def MAX_PRODUCERS : Nat := 64

instance : NeZero MAX_PRODUCERS := ⟨by decide⟩

/-- mirrors mpsc-event-pipeline-kata/python/src/weir/config.py:44 -/
def DRAIN_BATCH : Nat := 512

/-- mirrors mpsc-event-pipeline-kata/python/src/weir/config.py:9-26 -/
inductive FullPolicy where
  | DROP_NEWEST
  | SPIN_THEN_DROP
  deriving DecidableEq, Repr

/-- mirrors mpsc-event-pipeline-kata/python/src/weir/config.py:73,93,99 -/
structure Config where
  full : FullPolicy
  push_spin : Nat
  stage_events : Nat

/-- mirrors mpsc-event-pipeline-kata/python/src/weir/event_pipeline.py:48-60 -/
structure Slot (R : Type) where
  ring : R
  pushed : Nat
  dropped : Nat
  high_water : Nat

/-- `written` is what the sink was given, `hooked` what `on_batch` was, if it is
set.
mirrors mpsc-event-pipeline-kata/python/src/weir/event_pipeline.py:108-140 -/
structure Pipe (R : Type) where
  slots : Fin MAX_PRODUCERS → Slot R
  accepting : Bool
  stage : Bytes
  staged : Nat
  consumed : Nat
  on_batch : Bool
  written : List Bytes
  hooked : List Bytes

section code
variable {R : Type} (B : Backend R) (cfg : Config)

/-- The pipeline on rings like `r`, `accepting` if it has been started. -/
def Pipe.new (r : R) (accepting on_batch : Bool) : Pipe R :=
  ⟨fun _ => ⟨r, 0, 0, 0⟩, accepting, List.replicate (cfg.stage_events * EVENT_SIZE) 0, 0, 0,
    on_batch, [], []⟩

def Pipe.setSlot (p : Pipe R) (i : Fin MAX_PRODUCERS) (s : Slot R) : Pipe R :=
  { p with slots := upd p.slots i s }

/-- `n` more tries.
mirrors mpsc-event-pipeline-kata/python/src/weir/event_pipeline.py:247-252 -/
def spin : Nat → R → Fields → Option Bool × R
  | 0, r, _ => (some false, r)
  | n + 1, r, e =>
    match B.try_push r e with
    | (some false, r) => spin n r e
    | x => x

/-- mirrors mpsc-event-pipeline-kata/python/src/weir/event_pipeline.py:246-252 -/
def tryPush (r : R) (e : Fields) : Option Bool × R :=
  match B.try_push r e with
  | (some false, r) => if cfg.full = .SPIN_THEN_DROP then spin B cfg.push_spin r e else (some false, r)
  | x => x

/-- mirrors mpsc-event-pipeline-kata/python/src/weir/event_pipeline.py:240-267 -/
def push (pid : Fin MAX_PRODUCERS) (seq stamp_ns : Int) (payload : Bytes) (p : Pipe R) :
    Option Bool × Pipe R :=
  if !p.accepting then (some false, p)
  else
    let slot := p.slots pid
    match tryPush B cfg slot.ring ⟨pid.val, seq, stamp_ns, payload⟩ with
    | (none, r) => (none, p.setSlot pid { slot with ring := r })
    | (some false, r) =>
      (some false, p.setSlot pid { slot with ring := r, dropped := slot.dropped + 1 })
    | (some true, r) =>
      let depth := B.producer_size_hint r
      let high_water := if depth > slot.high_water then depth else slot.high_water
      (some true, p.setSlot pid ⟨r, slot.pushed + 1, slot.dropped, high_water⟩)

/-- mirrors mpsc-event-pipeline-kata/python/src/weir/event_pipeline.py:384-391 -/
def flush (p : Pipe R) : Pipe R :=
  if p.staged = 0 then p
  else
    let batch := slice p.stage 0 (p.staged * EVENT_SIZE)
    { p with
      written := p.written ++ [batch]
      hooked := if p.on_batch then p.hooked ++ [batch] else p.hooked
      staged := 0 }

/-- The loop of `_drain_ring`, `got` events taken; `none` if a pop raises.
mirrors mpsc-event-pipeline-kata/python/src/weir/event_pipeline.py:372-380 -/
def drainLoop (i : Fin MAX_PRODUCERS) (p : Pipe R) (got : Nat) : Option Nat × Pipe R :=
  if got < DRAIN_BATCH then
    let p := if p.staged = cfg.stage_events then flush p else p
    let room := min (cfg.stage_events - p.staged) (DRAIN_BATCH - got)
    match B.pop_into (p.slots i).ring p.stage p.staged room with
    | (n, stage, r) =>
      let p := { p.setSlot i { p.slots i with ring := r } with stage := stage }
      match n with
      | none => (none, p)
      | some 0 => (some got, p)
      | some (n + 1) => drainLoop i { p with staged := p.staged + (n + 1) } (got + (n + 1))
  else (some got, p)
termination_by DRAIN_BATCH - got

/-- mirrors mpsc-event-pipeline-kata/python/src/weir/event_pipeline.py:368-382 -/
def drain_ring (i : Fin MAX_PRODUCERS) (p : Pipe R) : Option Nat × Pipe R :=
  match drainLoop B cfg i p 0 with
  | (none, p) => (none, p)
  | (some got, p) => (some got, { p with consumed := p.consumed + got })

/-- A scan that has taken `total` events and visits the rings `ids`; which these
are, and in what order, tells `_drain_full` and `_drain_bitmap` apart.
mirrors mpsc-event-pipeline-kata/python/src/weir/event_pipeline.py:331-366 -/
def drainFrom (total : Nat) : List (Fin MAX_PRODUCERS) → Pipe R → Option Nat × Pipe R
  | [], p => (some total, if 0 < total then flush p else p)
  | i :: ids, p =>
    match drain_ring B cfg i p with
    | (none, p) => (none, p)
    | (some n, p) => drainFrom (total + n) ids p

/-! ## Runs -/

inductive Op where
  | push (pid : Fin MAX_PRODUCERS) (seq stamp_ns : Int) (payload : Bytes)
  | drain (ids : List (Fin MAX_PRODUCERS))
  | flush

/-- What a push returns and how many events a drain takes; `none` if it raises. -/
inductive Outcome where
  | pushed (r : Option Bool)
  | drained (n : Option Nat)
  | flushed
  deriving DecidableEq, Repr

def step (op : Op) (p : Pipe R) : Outcome × Pipe R :=
  match op with
  | .push pid seq stamp_ns payload =>
    let (r, p) := push B cfg pid seq stamp_ns payload p
    (.pushed r, p)
  | .drain ids =>
    let (n, p) := drainFrom B cfg 0 ids p
    (.drained n, p)
  | .flush => (.flushed, flush p)

def run : List Op → Pipe R → List Outcome × Pipe R
  | [], p => ([], p)
  | op :: ops, p =>
    let (o, p) := step B cfg op p
    let (os, p) := run ops p
    (o :: os, p)

end code

/-! ## What the pipeline is for -/

/-- A queue of records for each producer, the counters, the records staged, and
the batches written. -/
structure Queues where
  accepting : Bool
  queue : Fin MAX_PRODUCERS → List Bytes
  pushed : Fin MAX_PRODUCERS → Nat
  dropped : Fin MAX_PRODUCERS → Nat
  consumed : Nat
  staged : List Bytes
  batches : List (List Bytes)

namespace Queues

def init (accepting : Bool) : Queues := ⟨accepting, fun _ => [], fun _ => 0, fun _ => 0, 0, [], []⟩

def put (a : Queues) (i : Fin MAX_PRODUCERS) (b : Bytes) : Queues :=
  { a with queue := upd a.queue i (a.queue i ++ [b]), pushed := upd a.pushed i (a.pushed i + 1) }

def drop (a : Queues) (i : Fin MAX_PRODUCERS) : Queues :=
  { a with dropped := upd a.dropped i (a.dropped i + 1) }

def flush (a : Queues) : Queues :=
  if a.staged = [] then a else { a with staged := [], batches := a.batches ++ [a.staged] }

/-- A batch is written when it is full and there is more to stage. -/
def settle (size : Nat) (a : Queues) : Queues := if a.staged.length = size then a.flush else a

/-- The `n` oldest records of a queue are staged. -/
def move (a : Queues) (i : Fin MAX_PRODUCERS) (n : Nat) : Queues :=
  { a with queue := upd a.queue i ((a.queue i).drop n), staged := a.staged ++ (a.queue i).take n }

/-- Records are taken from a queue, one at a time, until there is none or `n`
have been taken. -/
def take (size : Nat) (i : Fin MAX_PRODUCERS) : Nat → Queues → Nat × Queues
  | 0, a => (0, a)
  | n + 1, a =>
    let a := a.settle size
    if a.queue i = [] ∨ size = 0 then (0, a)
    else
      let (k, a) := take size i n (a.move i 1)
      (k + 1, a)

def drainRing (size : Nat) (i : Fin MAX_PRODUCERS) (a : Queues) : Nat × Queues :=
  let (k, a) := take size i DRAIN_BATCH a
  (k, { a with consumed := a.consumed + k })

def drainFrom (size total : Nat) : List (Fin MAX_PRODUCERS) → Queues → Nat × Queues
  | [], a => (total, if 0 < total then a.flush else a)
  | i :: ids, a =>
    let (k, a) := a.drainRing size i
    drainFrom size (total + k) ids a

/-- What has been taken out, in order. -/
def out (a : Queues) : List Bytes := a.batches.flatten ++ a.staged

variable {size : Nat} {i : Fin MAX_PRODUCERS} {a : Queues}

theorem out_flush : a.flush.out = a.out := by
  unfold flush
  split
  · rfl
  · simp [out]

theorem out_settle : (a.settle size).out = a.out := by
  unfold settle
  split
  · exact out_flush
  · rfl

theorem queue_flush : a.flush.queue = a.queue := by
  unfold flush
  split <;> rfl

theorem queue_settle : (a.settle size).queue = a.queue := by
  unfold settle
  split
  · exact queue_flush
  · rfl

theorem staged_flush : a.flush.staged = [] := by
  unfold flush
  split
  · assumption
  · rfl

theorem settle_room (h : a.staged.length ≤ size) :
    (a.settle size).staged.length < size ∨ size = 0 := by
  unfold settle
  split
  · rw [staged_flush]
    exact (Nat.eq_zero_or_pos size).symm
  · exact .inl (by omega)

theorem settle_of_lt (h : a.staged.length < size) : a.settle size = a := if_neg (Nat.ne_of_lt h)

theorem settle_settle : (a.settle size).settle size = a.settle size := by
  by_cases h : a.staged.length = size
  · have hs : a.settle size = a.flush := if_pos h
    rw [hs]
    unfold settle
    split
    · exact if_pos staged_flush
    · rfl
  · have hs : a.settle size = a := if_neg h
    rw [hs, hs]

theorem move_move (m n : Nat) : (a.move i m).move i n = a.move i (m + n) := by
  simp [move, List.take_add, List.drop_drop]

theorem take_settle (n : Nat) : take size i (n + 1) (a.settle size) = take size i (n + 1) a := by
  rw [take, take, settle_settle]

/-- Several records at once, if there is room for them. -/
theorem take_chunk (n k : Nat) (hroom : a.staged.length + (n + 1) ≤ size)
    (hq : n + 1 ≤ (a.queue i).length) :
    take size i (n + 1 + k) a =
      ((take size i k (a.move i (n + 1))).1 + (n + 1), (take size i k (a.move i (n + 1))).2) := by
  have hne : ∀ {a : Queues}, 0 < (a.queue i).length → a.staged.length < size →
      ¬(a.queue i = [] ∨ size = 0) := by
    rintro a hq hs (h | h)
    · rw [h] at hq
      exact absurd hq (Nat.lt_irrefl 0)
    · omega
  induction n generalizing a with
  | zero =>
    rw [Nat.zero_add, Nat.add_comm, take, settle_of_lt (by omega), if_neg (hne (by omega) (by omega))]
  | succ n ih =>
    have hturns : n + 1 + 1 + k = n + 1 + k + 1 := by omega
    have hqueue : ((a.move i 1).queue i).length = (a.queue i).length - 1 := by
      simp [move]
    have hstaged : (a.move i 1).staged.length = a.staged.length + 1 := by
      simp only [move, List.length_append, List.length_take]
      omega
    rw [hturns, take, settle_of_lt (by omega), if_neg (hne (by omega) (by omega)),
      ih (by omega) (by omega), move_move, Nat.add_comm 1 (n + 1)]
    rfl

end Queues

/-! ## A pipeline keeps its queues -/

section refines
variable {R : Type} {B : Backend R} {cfg : Config} {cap : Nat} {Holds : R → List Bytes → Prop}

/-- The pipeline keeps the queues `a`. -/
structure Refines (size : Nat) (Holds : R → List Bytes → Prop) (p : Pipe R) (a : Queues) :
    Prop where
  accepting : p.accepting = a.accepting
  ring : ∀ i, Holds (p.slots i).ring (a.queue i)
  pushed : ∀ i, (p.slots i).pushed = a.pushed i
  dropped : ∀ i, (p.slots i).dropped = a.dropped i
  consumed : p.consumed = a.consumed
  length : p.stage.length = size * EVENT_SIZE
  staged : p.staged = a.staged.length
  fits : a.staged.length ≤ size
  stage : p.stage.take (p.staged * EVENT_SIZE) = a.staged.flatten
  written : p.written = a.batches.map List.flatten
  uniform : Uniform EVENT_SIZE a.out

variable {p : Pipe R} {a : Queues} {i : Fin MAX_PRODUCERS}

theorem Refines.new {r : R} (hr : Holds r []) (accepting on_batch : Bool) :
    Refines cfg.stage_events Holds (Pipe.new cfg r accepting on_batch) (.init accepting) where
  accepting := rfl
  ring _ := hr
  pushed _ := rfl
  dropped _ := rfl
  consumed := rfl
  length := List.length_replicate
  staged := rfl
  fits := Nat.zero_le _
  stage := by
    show List.take (0 * EVENT_SIZE) _ = []
    rw [Nat.zero_mul, List.take_zero]
  written := rfl
  uniform := .nil

theorem Refines.flush {size : Nat} (h : Refines size Holds p a) :
    Refines size Holds (flush p) a.flush := by
  unfold PythonPipeline.flush Queues.flush
  have hstaged := h.staged
  by_cases hs : a.staged = []
  · rw [if_pos hs, if_pos (by rw [hstaged, hs]; rfl)]
    exact h
  · have hne : p.staged ≠ 0 := by
      rw [hstaged]
      exact fun h0 => hs (List.length_eq_zero_iff.mp h0)
    rw [if_neg hs, if_neg hne]
    refine { h with
      staged := rfl
      fits := Nat.zero_le _
      stage := ?_
      written := ?_
      uniform := ?_ }
    · dsimp only
      rw [Nat.zero_mul, List.take_zero, List.flatten_nil]
    · dsimp only
      rw [List.map_append, h.written, List.map_singleton, ← h.stage]
      rfl
    · have hu := h.uniform
      unfold Queues.out at hu ⊢
      dsimp only
      rwa [List.flatten_concat, List.append_nil]

theorem Refines.settle {size : Nat} (h : Refines size Holds p a) :
    Refines size Holds (if p.staged = size then PythonPipeline.flush p else p)
      (a.settle size) := by
  unfold Queues.settle
  rw [h.staged]
  split
  · exact h.flush
  · exact h

/-- A pop, whose records are staged. -/
theorem Refines.move {size n : Nat} {stage : Bytes} {r : R} (h : Refines size Holds p a)
    (hr : Holds r ((a.queue i).drop n)) (hu : Uniform EVENT_SIZE (a.queue i))
    (hb : blit p.stage (p.staged * EVENT_SIZE) ((a.queue i).take n).flatten = some stage)
    (hn : n ≤ (a.queue i).length) (hroom : a.staged.length + n ≤ size) :
    Refines size Holds { p.setSlot i { p.slots i with ring := r } with
      stage := stage, staged := p.staged + n } (a.move i n) := by
  have hlen := (hu.take n).length_flatten
  rw [List.length_take_of_le hn] at hlen
  have hslot : ∀ {A : Type} (f : Slot R → A), f { p.slots i with ring := r } = f (p.slots i) →
      ∀ j, f (upd p.slots i { p.slots i with ring := r } j) = f (p.slots j) := by
    intro A f hf j
    by_cases hj : j = i
    · subst hj
      rw [upd_self, hf]
    · rw [upd_ne _ _ hj]
  refine { h with
    ring := fun j => ?_
    pushed := fun j => (hslot Slot.pushed rfl j).trans (h.pushed j)
    dropped := fun j => (hslot Slot.dropped rfl j).trans (h.dropped j)
    length := (length_blit hb).trans h.length
    staged := ?_
    fits := ?_
    stage := ?_
    uniform := ?_ }
  · dsimp only [Pipe.setSlot, Queues.move]
    by_cases hj : j = i
    · subst hj
      rwa [upd_self, upd_self]
    · rw [upd_ne _ _ hj, upd_ne _ _ hj]
      exact h.ring j
  · dsimp only [Queues.move]
    rw [List.length_append, List.length_take_of_le hn, h.staged]
  · dsimp only [Queues.move]
    rwa [List.length_append, List.length_take_of_le hn]
  · dsimp only [Queues.move]
    rw [Nat.add_mul, ← hlen, take_blit hb, h.stage, List.flatten_append]
  · have hout := h.uniform
    unfold Queues.out at hout ⊢
    dsimp only [Queues.move]
    rw [← List.append_assoc]
    exact uniform_append.mpr ⟨hout, hu.take n⟩

/-- The loop takes what is to be taken, in any number of pops. -/
theorem drainLoop_refines (hk : Keeps B cap Holds) (n : Nat) (got : Nat)
    (hgot : DRAIN_BATCH - got = n) (h : Refines cfg.stage_events Holds p a) :
    ∃ p', drainLoop B cfg i p got = (some (got + (Queues.take cfg.stage_events i n a).1), p') ∧
      Refines cfg.stage_events Holds p' (Queues.take cfg.stage_events i n a).2 := by
  induction n using Nat.strongRecOn generalizing p a got with
  | ind n ih =>
    rw [drainLoop]
    cases n with
    | zero =>
      rw [if_neg (by omega)]
      exact ⟨p, rfl, h⟩
    | succ n =>
      rw [if_pos (by omega), ← Queues.take_settle]
      have hs := h.settle
      have hroom := Queues.settle_room h.fits
      generalize (if p.staged = cfg.stage_events then flush p else p) = p₁ at hs
      have hsettle : (a.settle cfg.stage_events).settle cfg.stage_events = a.settle cfg.stage_events :=
        Queues.settle_settle
      generalize a.settle cfg.stage_events = a₁ at hs hroom hsettle
      have hfit := hs.fits
      have hstaged := hs.staged
      obtain ⟨room, hroom'⟩ : ∃ room, room = min (cfg.stage_events - p₁.staged)
        (DRAIN_BATCH - got) := ⟨_, rfl⟩
      have hbytes : (p₁.staged + room) * EVENT_SIZE ≤ p₁.stage.length := by
        rw [hs.length]
        exact Nat.mul_le_mul_right _ (by omega)
      obtain ⟨k, stage, r, hpop, hblit, hkq, hkroom, hk0, hr⟩ := hk.pop (hs.ring i) hbytes
      have hq := hk.uniform (hs.ring i)
      have hnext := hs.move hr hq hblit hkq (by omega)
      simp only [← hroom', hpop]
      cases k with
      | zero =>
        have hnone : a₁.queue i = [] ∨ cfg.stage_events = 0 := by
          obtain hq | h0 := hk0 rfl
          · exact .inl hq
          · exact .inr (by omega)
        refine ⟨{ p₁.setSlot i { p₁.slots i with ring := r } with stage := stage }, ?_, ?_⟩
        · rw [Queues.take, hsettle, if_pos hnone]
          rfl
        · rw [Queues.take, hsettle, if_pos hnone]
          have hsame : a₁.move i 0 = a₁ := by
            simp [Queues.move, upd_eq_self]
          rw [← hsame]
          exact hnext
      | succ k =>
        obtain ⟨m, rfl⟩ : ∃ m, n = k + m := ⟨n - k, by omega⟩
        obtain ⟨p', hp', h'⟩ := ih m (by omega) (got + (k + 1)) (by omega) hnext
        have hturns : k + m + 1 = k + 1 + m := by omega
        rw [hturns, Queues.take_chunk k m (by omega) hkq]
        refine ⟨p', hp'.trans ?_, h'⟩
        rw [Nat.add_assoc, Nat.add_comm (k + 1)]

/-- A drain of a ring takes as much as is to be taken. -/
theorem drain_ring_refines (hk : Keeps B cap Holds) (h : Refines cfg.stage_events Holds p a) :
    ∃ p', drain_ring B cfg i p = (some (a.drainRing cfg.stage_events i).1, p') ∧
      Refines cfg.stage_events Holds p' (a.drainRing cfg.stage_events i).2 := by
  obtain ⟨p', hp', h'⟩ := drainLoop_refines hk DRAIN_BATCH 0 rfl h
  unfold drain_ring Queues.drainRing
  rw [hp', Nat.zero_add]
  exact ⟨_, rfl, { h' with consumed := congrArg (· + _) (h'.consumed) }⟩

theorem drainFrom_refines (hk : Keeps B cap Holds) (total : Nat)
    (ids : List (Fin MAX_PRODUCERS)) (h : Refines cfg.stage_events Holds p a) :
    ∃ p', drainFrom B cfg total ids p = (some (a.drainFrom cfg.stage_events total ids).1, p') ∧
      Refines cfg.stage_events Holds p' (a.drainFrom cfg.stage_events total ids).2 := by
  induction ids generalizing total p a with
  | nil =>
    refine ⟨_, rfl, ?_⟩
    unfold Queues.drainFrom
    split
    · exact h.flush
    · exact h
  | cons i ids ih =>
    obtain ⟨p₁, hp₁, h₁⟩ := drain_ring_refines hk (i := i) h
    obtain ⟨p', hp', h'⟩ := ih (total + (a.drainRing cfg.stage_events i).1) h₁
    refine ⟨p', ?_, h'⟩
    rw [drainFrom, hp₁]
    exact hp'

/-! ## Pushes -/

section ring
variable {r : R} {q : List Bytes} {e : Fields} {b : Bytes}

theorem tryPush_of_ne {o : Option Bool} {r' : R} (h : B.try_push r e = (o, r'))
    (ho : o ≠ some false) : tryPush B cfg r e = (o, r') := by
  unfold tryPush
  rw [h]
  match o, ho with
  | none, _ => rfl
  | some true, _ => rfl
  | some false, ho => exact absurd rfl ho

theorem spin_full (hk : Keeps B cap Holds) (e : Fields) (n : Nat) (h : Holds r q)
    (hq : q.length = cap) : ∃ r', spin B n r e = (some false, r') ∧ Holds r' q := by
  induction n generalizing r with
  | zero => exact ⟨r, rfl, h⟩
  | succ n ih =>
    obtain ⟨r₁, hr₁, h₁⟩ := hk.full e h hq
    unfold spin
    rw [hr₁]
    exact ih h₁

theorem tryPush_full (cfg : Config) (hk : Keeps B cap Holds) (e : Fields) (h : Holds r q)
    (hq : q.length = cap) :
    ∃ r', tryPush B cfg r e = (some false, r') ∧ Holds r' q := by
  obtain ⟨r₁, hr₁, h₁⟩ := hk.full e h hq
  unfold tryPush
  rw [hr₁]
  dsimp only
  split
  · exact spin_full hk e cfg.push_spin h₁ hq
  · exact ⟨r₁, rfl, h₁⟩

theorem tryPush_room (cfg : Config) (hk : Keeps B cap Holds) (h : Holds r q) (hq : q.length < cap)
    (he : e.pack = some b) :
    ∃ r', tryPush B cfg r e = (some true, r') ∧ Holds r' (q ++ [b]) := by
  obtain ⟨r', hr', h'⟩ := hk.room h hq he
  exact ⟨r', tryPush_of_ne hr' nofun, h'⟩

end ring

theorem Refines.setSlot {size : Nat} (h : Refines size Holds p a) {s : Slot R} {q : List Bytes}
    (hr : Holds s.ring q) : Refines size Holds (p.setSlot i s)
      { a with
        queue := upd a.queue i q
        pushed := upd a.pushed i s.pushed
        dropped := upd a.dropped i s.dropped } := by
  refine { h with ring := fun j => ?_, pushed := fun j => ?_, dropped := fun j => ?_ }
  all_goals
    dsimp only [Pipe.setSlot]
    by_cases hj : j = i
  · subst hj
    rwa [upd_self, upd_self]
  · rw [upd_ne _ _ hj, upd_ne _ _ hj]
    exact h.ring j
  · subst hj
    rw [upd_self, upd_self]
  · rw [upd_ne _ _ hj, upd_ne _ _ hj]
    exact h.pushed j
  · subst hj
    rw [upd_self, upd_self]
  · rw [upd_ne _ _ hj, upd_ne _ _ hj]
    exact h.dropped j

section push
variable {seq stamp_ns : Int} {payload b : Bytes}

theorem push_closed (h : p.accepting = false) :
    push B cfg i seq stamp_ns payload p = (some false, p) := by
  unfold push
  rw [h]
  rfl

theorem push_open (h : p.accepting = true) :
    push B cfg i seq stamp_ns payload p =
      match tryPush B cfg (p.slots i).ring ⟨i.val, seq, stamp_ns, payload⟩ with
      | (none, r) => (none, p.setSlot i { p.slots i with ring := r })
      | (some false, r) =>
        (some false, p.setSlot i
          { p.slots i with ring := r, dropped := (p.slots i).dropped + 1 })
      | (some true, r) =>
        let depth := B.producer_size_hint r
        let high_water := if depth > (p.slots i).high_water then depth else (p.slots i).high_water
        (some true, p.setSlot i ⟨r, (p.slots i).pushed + 1, (p.slots i).dropped, high_water⟩) := by
  unfold push
  rw [h]
  rfl

theorem push_full (seq stamp_ns : Int) (payload : Bytes) (hk : Keeps B cap Holds)
    (h : Refines cfg.stage_events Holds p a)
    (ha : p.accepting = true) (hq : (a.queue i).length = cap) :
    ∃ p', push B cfg i seq stamp_ns payload p = (some false, p') ∧
      Refines cfg.stage_events Holds p' (a.drop i) := by
  obtain ⟨r, hr, h'⟩ := tryPush_full cfg hk ⟨i.val, seq, stamp_ns, payload⟩ (h.ring i) hq
  have hset := h.setSlot (i := i)
    (s := { p.slots i with ring := r, dropped := (p.slots i).dropped + 1 }) h'
  have hdrop : { a with
      queue := upd a.queue i (a.queue i)
      pushed := upd a.pushed i (p.slots i).pushed
      dropped := upd a.dropped i ((p.slots i).dropped + 1) } = a.drop i := by
    rw [upd_eq_self, h.pushed, upd_eq_self, h.dropped]
    rfl
  rw [push_open ha, hr]
  exact ⟨_, rfl, hdrop ▸ hset⟩

theorem push_room (hk : Keeps B cap Holds) (h : Refines cfg.stage_events Holds p a)
    (ha : p.accepting = true) (hq : (a.queue i).length < cap)
    (he : Fields.pack ⟨i.val, seq, stamp_ns, payload⟩ = some b) :
    ∃ p', push B cfg i seq stamp_ns payload p = (some true, p') ∧
      Refines cfg.stage_events Holds p' (a.put i b) := by
  obtain ⟨r, hr, h'⟩ := tryPush_room cfg hk (h.ring i) hq he
  have hset := fun w => h.setSlot (i := i)
    (s := ⟨r, (p.slots i).pushed + 1, (p.slots i).dropped, w⟩) h'
  have hput : { a with
      queue := upd a.queue i (a.queue i ++ [b])
      pushed := upd a.pushed i ((p.slots i).pushed + 1)
      dropped := upd a.dropped i (p.slots i).dropped } = a.put i b := by
    rw [h.pushed, h.dropped, upd_eq_self]
    rfl
  rw [push_open ha, hr]
  exact ⟨_, rfl, hput ▸ hset _⟩

theorem push_refused (hb : Refuses B cap Holds) (h : Refines cfg.stage_events Holds p a)
    (ha : p.accepting = true) (hq : (a.queue i).length < cap)
    (he : Fields.pack ⟨i.val, seq, stamp_ns, payload⟩ = none) :
    ∃ p', push B cfg i seq stamp_ns payload p = (none, p') ∧
      Refines cfg.stage_events Holds p' a := by
  obtain ⟨r, hr, h'⟩ := hb (h.ring i) hq he
  have hset := h.setSlot (i := i) (s := { p.slots i with ring := r }) h'
  have hsame : { a with
      queue := upd a.queue i (a.queue i)
      pushed := upd a.pushed i (p.slots i).pushed
      dropped := upd a.dropped i (p.slots i).dropped } = a := by
    rw [upd_eq_self, h.pushed, upd_eq_self, h.dropped, upd_eq_self]
  rw [push_open ha, tryPush_of_ne hr nofun]
  exact ⟨_, rfl, hsame ▸ hset⟩

theorem push_taken (hb : Takes B cap Holds) (h : Refines cfg.stage_events Holds p a)
    (ha : p.accepting = true) (hq : (a.queue i).length < cap)
    (he : Fields.pack ⟨i.val, seq, stamp_ns, payload⟩ = none) :
    ∃ p', push B cfg i seq stamp_ns payload p = (some true, p') := by
  obtain ⟨r, hr⟩ := hb (h.ring i) hq he
  rw [push_open ha, tryPush_of_ne hr nofun]
  exact ⟨_, rfl⟩

end push

/-! ## Every operation -/

/-- What an operation does to the queues, where arguments that do not fit are
refused. -/
def Queues.step (cap size : Nat) (op : Op) (a : Queues) : Outcome × Queues :=
  match op with
  | .push pid seq stamp_ns payload =>
    if !a.accepting then (.pushed (some false), a)
    else if (a.queue pid).length = cap then (.pushed (some false), a.drop pid)
    else
      match Fields.pack ⟨pid.val, seq, stamp_ns, payload⟩ with
      | none => (.pushed none, a)
      | some b => (.pushed (some true), a.put pid b)
  | .drain ids =>
    let (k, a) := a.drainFrom size 0 ids
    (.drained (some k), a)
  | .flush => (.flushed, a.flush)

/-- A push whose arguments do not fit, and which is not refused for want of room. -/
def Queues.Odd (cap : Nat) (op : Op) (a : Queues) : Prop :=
  match op with
  | .push pid seq stamp_ns payload => a.accepting = true ∧ (a.queue pid).length < cap ∧
    Fields.pack ⟨pid.val, seq, stamp_ns, payload⟩ = none
  | _ => False

theorem step_refines (hk : Keeps B cap Holds) (h : Refines cfg.stage_events Holds p a) {op : Op}
    (hop : ¬a.Odd cap op) :
    ∃ p', step B cfg op p = ((a.step cap cfg.stage_events op).1, p') ∧
      Refines cfg.stage_events Holds p' (a.step cap cfg.stage_events op).2 := by
  cases op with
  | push pid seq stamp_ns payload =>
    unfold step Queues.step
    dsimp only
    cases ha : a.accepting with
    | false =>
      rw [push_closed (h.accepting.trans ha)]
      exact ⟨p, rfl, h⟩
    | true =>
      have hp := h.accepting.trans ha
      have hle := hk.fits (h.ring pid)
      by_cases hq : (a.queue pid).length = cap
      · obtain ⟨p', hp', h'⟩ := push_full seq stamp_ns payload hk h hp hq
        rw [hp', if_neg (by decide), if_pos hq]
        exact ⟨p', rfl, h'⟩
      · have hlt : (a.queue pid).length < cap := by omega
        cases he : Fields.pack ⟨pid.val, seq, stamp_ns, payload⟩ with
        | none => exact absurd ⟨ha, hlt, he⟩ hop
        | some b =>
          obtain ⟨p', hp', h'⟩ := push_room hk h hp hlt he
          rw [hp', if_neg (by decide), if_neg hq]
          exact ⟨p', rfl, h'⟩
  | drain ids =>
    obtain ⟨p', hp', h'⟩ := drainFrom_refines hk 0 ids h
    unfold step Queues.step
    dsimp only
    rw [hp']
    exact ⟨p', rfl, h'⟩
  | flush => exact ⟨_, rfl, h.flush⟩

theorem step_refused (hb : Refuses B cap Holds) (h : Refines cfg.stage_events Holds p a)
    {op : Op} (hop : a.Odd cap op) :
    ∃ p', step B cfg op p = (.pushed none, p') ∧ Refines cfg.stage_events Holds p' a := by
  cases op with
  | push pid seq stamp_ns payload =>
    obtain ⟨ha, hq, he⟩ := hop
    obtain ⟨p', hp', h'⟩ := push_refused hb h (h.accepting.trans ha) hq he
    unfold step
    dsimp only
    rw [hp']
    exact ⟨p', rfl, h'⟩
  | _ => exact hop.elim

theorem step_taken (hb : Takes B cap Holds) (h : Refines cfg.stage_events Holds p a) {op : Op}
    (hop : a.Odd cap op) : ∃ p', step B cfg op p = (.pushed (some true), p') := by
  cases op with
  | push pid seq stamp_ns payload =>
    obtain ⟨ha, hq, he⟩ := hop
    obtain ⟨p', hp'⟩ := push_taken hb h (h.accepting.trans ha) hq he
    unfold step
    dsimp only
    rw [hp']
    exact ⟨p', rfl⟩
  | _ => exact hop.elim

/-! ## Runs of events that fit -/

/-- Do the integers of a push fit a record? -/
def Op.Fits : Op → Prop
  | .push pid seq stamp_ns payload => Fields.Fits ⟨pid.val, seq, stamp_ns, payload⟩
  | _ => True

instance : (op : Op) → Decidable op.Fits
  | .push pid seq stamp_ns payload =>
    inferInstanceAs (Decidable (Fields.Fits ⟨pid.val, seq, stamp_ns, payload⟩))
  | .drain _ | .flush => inferInstanceAs (Decidable True)

def Queues.run (cap size : Nat) : List Op → Queues → List Outcome × Queues
  | [], a => ([], a)
  | op :: ops, a =>
    let (o, a) := a.step cap size op
    let (os, a) := run cap size ops a
    (o :: os, a)

theorem run_refines (hk : Keeps B cap Holds) (ops : List Op) (hops : ∀ op ∈ ops, op.Fits)
    (h : Refines cfg.stage_events Holds p a) :
    ∃ p', run B cfg ops p = ((a.run cap cfg.stage_events ops).1, p') ∧
      Refines cfg.stage_events Holds p' (a.run cap cfg.stage_events ops).2 := by
  induction ops generalizing p a with
  | nil => exact ⟨p, rfl, h⟩
  | cons op ops ih =>
    have hop : ¬a.Odd cap op := by
      intro hodd
      cases op with
      | push pid seq stamp_ns payload =>
        obtain ⟨b, hb⟩ := exists_pack (hops _ List.mem_cons_self)
        exact Option.some_ne_none b (hb.symm.trans hodd.2.2)
      | _ => exact hodd.elim
    obtain ⟨p₁, hp₁, h₁⟩ := step_refines hk h hop
    obtain ⟨p', hp', h'⟩ := ih (fun op ho => hops op (List.mem_cons_of_mem _ ho)) h₁
    refine ⟨p', ?_, h'⟩
    unfold run
    rw [hp₁]
    dsimp only
    rw [hp']
    rfl

end refines
end Katas.Weir.PythonPipeline
