import Katas.Weir.Pipeline
import Mathlib.Algebra.GroupWithZero.Nat

/-!
# The state of the event pipeline

What the threads share, what each operation does to it, and the histories.
-/
namespace Katas.Weir.Pipeline
open Katas.Conc

/-- mirrors mpsc-event-pipeline-kata/cpp/src/event_pipeline.hpp:164-172 -/
structure Slot (V Tid : Type) where
  ring : Spsc.Ring (Item V Tid)
  state : SlotState
  pushed : Nat
  dropped : Nat
  highWater : Nat

/-- Go's `sync.Once`. -/
inductive Once where
  | fresh
  | doing
  | done
  deriving DecidableEq, Repr

/-- Who may use a handle: nobody is, `t` pushes, `t` retires it, it is gone. -/
inductive Use (Tid : Type) where
  | ready
  | pushing (t : Tid)
  | retiring (t : Tid)
  | gone
  deriving DecidableEq

/-- Whose a slot is: of the thread that registers, or of a handle. -/
inductive Owner (Tid : Type) where
  | claim (t : Tid)
  | handle (serial : Nat)
  deriving DecidableEq

/-- What became of a handle's pushes: how many began, what those that
returned true had pushed, how many returned false; how many found the
pipeline not accepting, and how many were counted as pushed and as
dropped. -/
structure Record (V Tid : Type) where
  begun : Nat
  accepted : List (Item V Tid)
  rejected : Nat
  refused : Nat
  credited : Nat
  debited : Nat

def Record.init {V Tid : Type} : Record V Tid := ⟨0, [], 0, 0, 0, 0⟩

/-- `spawned`: the consumer is created and has not begun. `asleep`: it waits
on the condition variable, and `notified`: a notification has reached it.
`token`: what the channel `wake` holds. `life`: who is in `start`, or in the
C++ `stop`.

The histories: `consumer`, the thread that consumes; `shut i`, the last drain's latest look at ring `i` found it
empty, and it has taken nothing since; `returned`, the stop that stops has
returned; `looked i`, the retirement of slot `i` has looked at its bit;
`woke`, a stop has notified after clearing `running`; `owed i`, who changed
slot `i` from or to free and has not published the registry since; `fresh t
i`, the scan of `t` has read slot `i`, which has not changed so since. -/
structure State (V Tid : Type) where
  slot : Nat → Slot V Tid
  active : Nat → Bool
  accepting : Bool
  running : Bool
  parked : Bool
  pending : Bool
  registered : List Nat
  started : Bool
  joinable : Bool
  spawned : Bool
  exited : Bool
  life : Option Tid
  once : Once
  stopMu : Option Tid
  stopped : Bool
  drainMet : Bool
  regMu : Option Tid
  parkMu : Option Tid
  asleep : Bool
  notified : Bool
  token : Bool
  stage : List (Item V Tid)
  sink : List (Item V Tid)
  consumed : Nat
  retiredPushed : Nat
  retiredDropped : Nat
  inCall : Tid → Option (Call V)
  calls : Tid → Nat
  consumer : Option Tid
  handles : List Nat
  use : Nat → Use Tid
  owner : Nat → Option (Owner Tid)
  record : Nat → Record V Tid
  shut : Nat → Bool
  returned : Bool
  looked : Nat → Bool
  woke : Bool
  owed : Nat → Option Tid
  fresh : Tid → Nat → Bool

section system
variable {V Tid : Type} [DecidableEq Tid] [Inhabited V] [Inhabited Tid] (cfg : Config)

def Slot.init : Slot V Tid where
  ring := .init default
  state := .free
  pushed := 0
  dropped := 0
  highWater := 0

def State.init : State V Tid where
  slot _ := .init
  active _ := false
  accepting := false
  running := false
  parked := false
  pending := false
  registered := []
  started := false
  joinable := false
  spawned := false
  exited := false
  life := none
  once := .fresh
  stopMu := none
  stopped := false
  drainMet := false
  regMu := none
  parkMu := none
  asleep := false
  notified := false
  token := false
  stage := []
  sink := []
  consumed := 0
  retiredPushed := 0
  retiredDropped := 0
  inCall _ := none
  calls _ := 0
  consumer := none
  handles := []
  use _ := .ready
  owner _ := none
  record _ := .init
  shut _ := false
  returned := false
  looked _ := false
  woke := false
  owed _ := none
  fresh _ _ := false

namespace State

def setSlot (s : State V Tid) (i : Nat) (c : Slot V Tid) : State V Tid :=
  { s with slot := upd s.slot i c }

def setRing (s : State V Tid) (i : Nat) (r : Spsc.Ring (Item V Tid)) : State V Tid :=
  s.setSlot i { s.slot i with ring := r }

def setRecord (s : State V Tid) (h : Nat) (r : Record V Tid) : State V Tid :=
  { s with record := upd s.record h r }

/-- The call `t` is in. -/
def me (s : State V Tid) (t : Tid) : CallId Tid := (t, s.calls t)

/-- `t` changes slot `i` to or from free. -/
def turn (s : State V Tid) (t : Tid) (i : Nat) (st : SlotState) (o : Option (Owner Tid)) :
    State V Tid :=
  { s.setSlot i { s.slot i with state := st } with
    owner := upd s.owner i o
    owed := upd s.owed i (some t)
    fresh := fun u => upd (s.fresh u) i false }

/-- `shut`, after a look at ring `i`. -/
def shutAfter (s : State V Tid) (site : Site) (i : Nat) (empty : Bool) : Nat → Bool :=
  if site = .last ∧ empty then upd s.shut i true else s.shut

/-- No bit of the active word is set. -/
def quiet (s : State V Tid) : Bool := (List.range cfg.producers).all fun i => !s.active i

/-- `stats().pushed`.
mirrors mpsc-event-pipeline-kata/cpp/src/event_pipeline.hpp:134-138 -/
def pushedTotal (s : State V Tid) : Nat :=
  s.retiredPushed + ((List.range cfg.producers).map fun i => (s.slot i).pushed).sum

/-- `stats().dropped`.
mirrors mpsc-event-pipeline-kata/cpp/src/event_pipeline.hpp:135-139 -/
def droppedTotal (s : State V Tid) : Nat :=
  s.retiredDropped + ((List.range cfg.producers).map fun i => (s.slot i).dropped).sum

end State

/-- May the operation be done now? Choice 1 ends a wait by its timer. -/
def ready (a : Act V Tid) (n : Nat) (s : State V Tid) : Bool :=
  match a with
  | .onceDo => s.once ≠ .doing
  | .stopLock => s.stopMu.isNone
  | .regLock => s.regMu.isNone
  | .parkLock => s.parkMu.isNone
  | .join => s.exited || (cfg.port = .python && n = 1)
  | .cvReturn => s.parkMu.isNone && (s.notified || n = 1)
  | .select => s.token || n = 1
  | _ => true

/-- What the operation leaves. -/
def apply (t : Tid) (a : Act V Tid) (n : Nat) (s : State V Tid) : State V Tid :=
  match a with
  | .runningStore b => { s with running := b }
  | .acceptingLoad h =>
    let r := s.record h.serial
    s.setRecord h.serial { r with refused := if s.accepting then r.refused else r.refused + 1 }
  | .acceptingStore b => { s with accepting := b }
  | .threadStart =>
    { s with started := true, joinable := true, spawned := true, exited := false
             shut := fun _ => false }
  | .onceDo => { s with once := if s.once = .fresh then .doing else s.once }
  | .onceDone => { s with once := .done }
  | .stopLock => { s with stopMu := some t }
  | .stopUnlock => { s with stopMu := none }
  | .stoppedStore => { s with stopped := true }
  | .drainMetStore b => { s with drainMet := b }
  | .join => { s with joinable := s.joinable && (cfg.port ≠ .cpp) }
  | .regLock => { s with regMu := some t }
  | .regUnlock => { s with regMu := none }
  | .stateLoad site i =>
    { s with
      shut := s.shutAfter site i (decide ((s.slot i).state = .free))
      fresh := if site = .scan then upd s.fresh t (upd (s.fresh t) i true) else s.fresh }
  | .stateCas i =>
    if (s.slot i).state = .free then s.turn t i .active (some (.claim t)) else s
  | .stateStore i .free => { s.turn t i .free none with looked := upd s.looked i false }
  | .stateStore i .active => s.turn t i .active (some (.claim t))
  | .stateStore i .retiring => s.setSlot i { s.slot i with state := .retiring }
  | .registeredStore ids =>
    { s with
      registered := ids
      owed := fun i => if s.owed i = some t then none else s.owed i
      fresh := upd s.fresh t fun _ => false }
  | .pushedAdd h =>
    let r := s.record h.serial
    (s.setSlot h.id { s.slot h.id with pushed := (s.slot h.id).pushed + 1 }).setRecord h.serial
      { r with credited := r.credited + 1 }
  | .droppedAdd h =>
    let r := s.record h.serial
    (s.setSlot h.id { s.slot h.id with dropped := (s.slot h.id).dropped + 1 }).setRecord h.serial
      { r with debited := r.debited + 1 }
  | .pushedStore i | .pushedSwap i => s.setSlot i { s.slot i with pushed := 0 }
  | .droppedStore i | .droppedSwap i => s.setSlot i { s.slot i with dropped := 0 }
  | .retiredPushedAdd n => { s with retiredPushed := s.retiredPushed + n }
  | .retiredDroppedAdd n => { s with retiredDropped := s.retiredDropped + n }
  | .consumedAdd n => { s with consumed := s.consumed + n }
  | .highStore i d => s.setSlot i { s.slot i with highWater := d }
  | .tailStore i pos =>
    let r := (s.slot i).ring
    s.setRing i { r.publish (r.slot (r.tail % cfg.capacity)) with tail := pos }
  | .tailSee site i =>
    let r := (s.slot i).ring
    { s.setRing i (r.seeTail r.tail) with shut := s.shutAfter site i (decide (r.tail = r.head)) }
  | .headStore i pos out =>
    { s.setRing i ((s.slot i).ring.take pos) with
      stage := s.stage ++ out
      shut := fun _ => false }
  | .headSee i => s.setRing i ((s.slot i).ring.seeHead (s.slot i).ring.head)
  | .slotStore h pos v =>
    s.setRing h.id ((s.slot h.id).ring.write cfg.capacity pos ⟨h, s.me t, v⟩)
  | .sinkWrite => { s with sink := s.sink ++ s.stage, stage := [] }
  | .bitLoad site i => { s with looked := if site = .retire then upd s.looked i true else s.looked }
  | .bitSet _ i => { s with active := upd s.active i true }
  | .bitClear _ i => { s with active := upd s.active i false }
  | .pendingStore b => { s with pending := b }
  | .pendingSwap => { s with pending := false }
  | .parkedStore b => { s with parked := b }
  | .parkLock => { s with parkMu := some t }
  | .parkUnlock => { s with parkMu := none }
  | .notify site =>
    { s with notified := s.notified || s.asleep, woke := s.woke || decide (site = .halt) }
  | .cvWait => { s with parkMu := none, asleep := true, notified := false }
  | .cvReturn => { s with parkMu := some t, asleep := false, notified := false }
  | .tokenSend => { s with token := true }
  | .select => { s with token := s.token && (n = 1) }
  | _ => s

/-- What the operation answers. Choice 1 says that a deadline has passed. -/
def reply (n : Nat) (s : State V Tid) : (a : Act V Tid) → Resp a
  | .runningLoad => s.running
  | .acceptingLoad _ => s.accepting
  | .joinableLoad => s.joinable
  | .onceDo => s.once = .fresh
  | .stoppedLoad => s.stopped
  | .beforeDeadline => n ≠ 1
  | .stateLoad _ i => (s.slot i).state
  | .stateCas i => (s.slot i).state = .free
  | .registeredLoad => s.registered
  | .pushedLoad i | .pushedSwap i => (s.slot i).pushed
  | .droppedLoad i | .droppedSwap i => (s.slot i).dropped
  | .highLoad i => (s.slot i).highWater
  | .tailLoad i | .tailSee _ i => (s.slot i).ring.tail
  | .headLoad _ i | .headSee i => (s.slot i).ring.head
  | .cachedHeadLoad i => (s.slot i).ring.cachedHead
  | .cachedTailLoad i => (s.slot i).ring.cachedTail
  | .slotLoad i pos => (s.slot i).ring.slot (pos % cfg.capacity)
  | .stagedLoad => s.stage.length
  | .bitLoad _ i => s.active i
  | .bitSet _ _ | .wordZero => s.quiet cfg
  | .wordLoad => s.active
  | .pendingLoad | .pendingSwap => s.pending
  | .parkedLoad => s.parked
  | .runningStore _ | .acceptingStore _ | .threadStart | .onceDone | .stopLock | .stopUnlock
  | .stoppedStore | .drainMetStore _ | .join | .regLock | .regUnlock | .stateStore _ _
  | .registeredStore _ | .pushedAdd _ | .droppedAdd _ | .pushedStore _ | .droppedStore _
  | .retiredPushedAdd _ | .retiredDroppedAdd _ | .consumedAdd _ | .highStore _ _ | .tailStore _ _
  | .headStore _ _ _ | .slotStore _ _ _ | .sinkWrite | .bitClear _ _ | .pendingStore _
  | .parkedStore _ | .parkLock | .parkUnlock | .notify _ | .cvWait | .cvReturn | .tokenSend
  | .select => ()

def sem (t : Tid) (a : Act V Tid) (n : Nat) (s : State V Tid) :
    Option (State V Tid × Resp a) :=
  if ready cfg a n s then some (apply cfg t a n s, reply cfg n s a) else none

omit [Inhabited V] [Inhabited Tid] in
theorem sem_some {t : Tid} {a : Act V Tid} {n : Nat} {s s' : State V Tid} {r : Resp a}
    (h : sem cfg t a n s = some (s', r)) :
    ready cfg a n s = true ∧ s' = apply cfg t a n s ∧ r = reply cfg n s a := by
  unfold sem at h
  split at h
  · rename_i hr
    cases h
    exact ⟨hr, rfl, rfl⟩
  · cases h

/-- A handle that was given out, with nobody at it. -/
def usable (s : State V Tid) (h : Handle) : Bool :=
  s.handles[h.serial]? = some h.id ∧ s.use h.serial = .ready

/-- May the call begin now? A C++ thread object is used by one thread at a
time; the Go and Python pipelines are started once. -/
def enabled (s : State V Tid) : Call V → Bool
  | .start =>
    match cfg.port with
    | .cpp => s.life.isNone && !s.joinable
    | _ => s.life.isNone && !s.started
  | .stop _ => cfg.port ≠ .cpp || s.life.isNone
  | .register => true
  | .push h _ | .retire h => usable s h
  | .consume => s.spawned

def begin (t : Tid) (c : Call V) (s : State V Tid) : State V Tid :=
  let s := { s with calls := upd s.calls t (s.calls t + 1), inCall := upd s.inCall t (some c) }
  match c with
  | .start => { s with life := some t, returned := false }
  | .stop _ => { s with life := if cfg.port = .cpp then some t else s.life }
  | .push h _ =>
    let r := s.record h.serial
    { s.setRecord h.serial { r with begun := r.begun + 1 } with
      use := upd s.use h.serial (.pushing t) }
  | .retire h => { s with use := upd s.use h.serial (.retiring t) }
  | .consume => { s with spawned := false, consumer := some t }
  | .register => s

def finish (t : Tid) (c : Call V) (r : Result) (s : State V Tid) : State V Tid :=
  let s := { s with inCall := upd s.inCall t none }
  match c, r with
  | .start, _ => { s with life := none }
  | .stop _, .stopped =>
    { s with returned := true, life := if cfg.port = .cpp then none else s.life }
  | .stop _, _ => { s with life := if cfg.port = .cpp then none else s.life }
  | .register, .registered (some i) =>
    { s with
      handles := s.handles ++ [i]
      owner := upd s.owner i (some (.handle s.handles.length)) }
  | .push h v, .pushed true =>
    let k := s.record h.serial
    { s.setRecord h.serial { k with accepted := k.accepted ++ [⟨h, s.me t, v⟩] } with
      use := upd s.use h.serial .ready }
  | .push h _, _ =>
    let k := s.record h.serial
    { s.setRecord h.serial { k with rejected := k.rejected + 1 } with
      use := upd s.use h.serial .ready }
  | .retire h, _ => { s with use := upd s.use h.serial .gone }
  | .consume, _ => { s with exited := true, consumer := none }
  | .register, _ => s

variable (V Tid) in
/-- Any thread makes any call it may, one at a time.
mirrors mpsc-event-pipeline-kata/cpp/src/event_pipeline.hpp:68-82 -/
abbrev pipeline : System where
  sig := sig V Tid
  State := State V Tid
  Tid := Tid
  Call := Call V
  Result := Result
  decTid := inferInstance
  init := .init
  enabled s _ c := enabled cfg s c
  begin := begin cfg
  finish := finish cfg
  code := code cfg
  body := body cfg
  sem := sem cfg

/-! ## What an operation leaves alone -/

section frame
variable {cfg} {t : Tid} {a : Act V Tid} {n : Nat} {s : State V Tid}
omit [Inhabited V] [Inhabited Tid]

omit [DecidableEq Tid] in
@[simp] theorem State.setSlot_slot (i j : Nat) (c : Slot V Tid) :
    (s.setSlot i c).slot j = if j = i then c else s.slot j := rfl

/-- What `begin` and `finish` alone change. -/
theorem apply_calls : (apply cfg t a n s).inCall = s.inCall ∧ (apply cfg t a n s).calls = s.calls ∧
    (apply cfg t a n s).consumer = s.consumer ∧ (apply cfg t a n s).handles = s.handles ∧
    (apply cfg t a n s).use = s.use ∧ (apply cfg t a n s).life = s.life ∧
    (apply cfg t a n s).returned = s.returned := by
  cases a with
  | stateCas i => unfold apply; dsimp only; split <;> exact ⟨rfl, rfl, rfl, rfl, rfl, rfl, rfl⟩
  | stateStore i st => cases st <;> exact ⟨rfl, rfl, rfl, rfl, rfl, rfl, rfl⟩
  | _ => exact ⟨rfl, rfl, rfl, rfl, rfl, rfl, rfl⟩

@[simp] theorem apply_inCall : (apply cfg t a n s).inCall = s.inCall := apply_calls.1

@[simp] theorem apply_callNumber : (apply cfg t a n s).calls = s.calls := apply_calls.2.1

@[simp] theorem apply_consumer : (apply cfg t a n s).consumer = s.consumer := apply_calls.2.2.1

@[simp] theorem apply_handles : (apply cfg t a n s).handles = s.handles := apply_calls.2.2.2.1

@[simp] theorem apply_use : (apply cfg t a n s).use = s.use := apply_calls.2.2.2.2.1

@[simp] theorem apply_life : (apply cfg t a n s).life = s.life := apply_calls.2.2.2.2.2.1

@[simp] theorem apply_returned : (apply cfg t a n s).returned = s.returned :=
  apply_calls.2.2.2.2.2.2

/-- Changes a slot's state. -/
def Act.turns : Act V Tid → Bool
  | .stateCas _ | .stateStore _ _ => true
  | _ => false

/-- Works on a ring. -/
def Act.rings : Act V Tid → Bool
  | .tailStore _ _ | .tailSee _ _ | .headStore _ _ _ | .headSee _ | .slotStore _ _ _ => true
  | _ => false

theorem apply_owner (h : a.turns = false) : (apply cfg t a n s).owner = s.owner := by
  cases a with
  | stateCas i => cases h
  | stateStore i st => cases h
  | _ => rfl

omit [DecidableEq Tid] in
theorem setSlot_comp {β : Type} (p : Slot V Tid → β) (i j : Nat) (c : Slot V Tid)
    (h : p c = p (s.slot i)) : p ((s.setSlot i c).slot j) = p (s.slot j) := by
  simp only [State.setSlot_slot]
  split
  · rename_i hj
    rw [hj, h]
  · rfl

theorem apply_state (h : a.turns = false) (i : Nat) :
    ((apply cfg t a n s).slot i).state = (s.slot i).state := by
  cases a with
  | stateCas i => cases h
  | stateStore i st => cases h
  | pushedAdd h | droppedAdd h | slotStore h pos v => exact setSlot_comp Slot.state _ _ _ rfl
  | pushedStore j | pushedSwap j | droppedStore j | droppedSwap j | highStore j d | tailStore j pos
    | tailSee site j | headStore j pos out | headSee j =>
    exact setSlot_comp Slot.state _ _ _ rfl
  | _ => rfl

theorem apply_ring (h : a.rings = false) (i : Nat) :
    ((apply cfg t a n s).slot i).ring = (s.slot i).ring := by
  cases a with
  | stateCas j =>
    unfold apply
    dsimp only
    split
    · exact setSlot_comp Slot.ring _ _ _ rfl
    · rfl
  | stateStore j st => cases st <;> exact setSlot_comp Slot.ring _ _ _ rfl
  | pushedAdd h | droppedAdd h => exact setSlot_comp Slot.ring _ _ _ rfl
  | pushedStore j | pushedSwap j | droppedStore j | droppedSwap j | highStore j d =>
    exact setSlot_comp Slot.ring _ _ _ rfl
  | tailStore j pos | tailSee site j | headStore j pos out | headSee j | slotStore h' pos v => cases h
  | _ => rfl

variable {c : Call V} {r : Result}

theorem begin_eq : begin cfg t c s =
    { s with
      calls := (begin cfg t c s).calls
      inCall := upd s.inCall t (some c)
      life := (begin cfg t c s).life
      returned := (begin cfg t c s).returned
      record := (begin cfg t c s).record
      use := (begin cfg t c s).use
      spawned := (begin cfg t c s).spawned
      consumer := (begin cfg t c s).consumer } := by
  cases c <;> rfl

theorem finish_eq : finish cfg t c r s =
    { s with
      inCall := upd s.inCall t none
      life := (finish cfg t c r s).life
      returned := (finish cfg t c r s).returned
      handles := (finish cfg t c r s).handles
      owner := (finish cfg t c r s).owner
      record := (finish cfg t c r s).record
      use := (finish cfg t c r s).use
      exited := (finish cfg t c r s).exited
      consumer := (finish cfg t c r s).consumer } := by
  unfold finish
  split <;> rfl

@[simp] theorem begin_slot : (begin cfg t c s).slot = s.slot := by rw [begin_eq]

@[simp] theorem begin_regMu : (begin cfg t c s).regMu = s.regMu := by rw [begin_eq]

@[simp] theorem begin_owner : (begin cfg t c s).owner = s.owner := by rw [begin_eq]

@[simp] theorem begin_handles : (begin cfg t c s).handles = s.handles := by rw [begin_eq]

theorem begin_calls {u : Tid} (hu : u ≠ t) : (begin cfg t c s).calls u = s.calls u := by
  cases c <;> exact upd_ne _ _ hu

@[simp] theorem finish_calls : (finish cfg t c r s).calls = s.calls := by rw [finish_eq]

@[simp] theorem finish_slot : (finish cfg t c r s).slot = s.slot := by rw [finish_eq]

@[simp] theorem finish_regMu : (finish cfg t c r s).regMu = s.regMu := by rw [finish_eq]

end frame

end system

/-! ## Schedules -/

/-- One slot, with a ring of two. -/
def Config.tiny (port : Port) (scan : ScanPolicy) : Config where
  port := port
  full := .dropNewest
  scan := scan
  spin := 0
  yields := 0
  pushSpin := 0
  producers := 1
  capacity := 2
  drainBatch := 2
  stageEvents := 2
  producers_pos := Nat.one_pos
  drainBatch_pos := Nat.two_pos
  stageEvents_pos := Nat.two_pos

/-- The pipeline of the source, with three threads. -/
abbrev three (port : Port) : System := pipeline Nat (Fin 3) (.standard port .bitmap)

section
variable {Tid : Type} [DecidableEq Tid] [Inhabited Tid]

/-- `n` operations of `t`, no timer fired. -/
def ops (cfg : Config) (t : Tid) (n : Nat) : List (System.Label (pipeline Nat Tid cfg)) :=
  List.replicate n (.step t 0)

/-- `t` makes a call, and does `n` operations of it. -/
def does (cfg : Config) (t : Tid) (c : Call Nat) (n : Nat) :
    List (System.Label (pipeline Nat Tid cfg)) :=
  .invoke t c :: ops cfg t n

end

end Katas.Weir.Pipeline
