import Katas.Weir.PipelineState

/-!
# Where a thread of the event pipeline stands

The flow of the pipeline's programs: which operation comes where. The moves
are grouped by what they work on: a producer's, the wakes, the registry, the
starting and stopping, and the consumer's passes, clearing, reclaiming and
parking. A pass of the consumer is at a slot (`Spot`), with the slots still to
come and what it has taken so far.
-/
namespace Katas.Weir.Pipeline
open Katas.Conc Flow

/-- Which drain a pass is of: the loop's own, the one before sleeping, or one
of the two at the end. -/
inductive Drain where
  | main
  | settle
  | final
  | last
  deriving DecidableEq

def Drain.site : Drain → Site
  | .last => .last
  | _ => .pass

structure Spot where
  drain : Drain
  i : Nat
  rest : List Nat
  total : Nat
  deriving DecidableEq

/-- Who signals. -/
inductive Who (V : Type) where
  | pushed (h : Handle) (v : V)
  | retired (h : Handle)

def Who.handle {V : Type} : Who V → Handle
  | .pushed h _ | .retired h => h

def Who.site {V : Type} : Who V → Site
  | .pushed _ _ => .push
  | .retired _ => .retire

/-- What a wake is part of. -/
inductive Waker (V : Type) where
  | signal (w : Who V)
  | retire (h : Handle)
  | register
  | stop
  | halt

/-- Who publishes the registry: a thread that registers slot `i`, or the
consumer after reclaiming, in its loop or at its end. -/
inductive Scanner where
  | register (i : Nat)
  | reclaim (fin : Bool)

inductive ClearStep where
  | judge
  | tail
  | head (c : Nat)
  | unset
  | tailAgain
  | headAgain (c : Nat)
  | state
  | restore

inductive FoldStep where
  | state
  | tail
  | head (c : Nat)
  | pushed
  | addPushed (n : Nat)
  | dropped
  | addDropped (n : Nat)
  | zeroPushed
  | zeroDropped
  | unset
  | free

/-- The slots after `i` in a reclaim, whether any slot has changed, and
whether the consumer is at its end. -/
structure Lot where
  i : Nat
  rest : List Nat
  changed : Bool
  fin : Bool

inductive ParkStep where
  | eval
  | lock
  | arm
  | word
  | run
  | sleep
  | asleep
  | disarm
  | unlock

/-- `claimed`: the slot is the thread's, and the lock too, where there is one;
`given`: without the lock. `vacant`: found free under the lock. -/
inductive Place (V Tid : Type) where
  | idle
  | out
  | starting
  | started
  | stopping
  | halted
  | joining
  | stopped
  | locked
  | vacant (i : Nat)
  | claimed (i : Nat)
  | given (i : Nat)
  | scans (w : Scanner) (rest ids : List Nat)
  | asks (h : Handle) (v : V)
  | refused (h : Handle) (v : V)
  | tries (h : Handle) (v : V)
  | room (h : Handle) (v : V) (pos : Nat)
  | full (h : Handle) (v : V) (pos : Nat)
  | writes (h : Handle) (v : V) (pos : Nat)
  | publishes (h : Handle) (v : V) (pos : Nat)
  | published (h : Handle) (v : V)
  | dropped (h : Handle) (v : V)
  | leaves (h : Handle)
  | leaving (h : Handle)
  | left (h : Handle)
  | tests (w : Who V)
  | sets (w : Who V)
  | minds (w : Who V)
  | wakes (w : Who V)
  | signalled (w : Who V)
  | notifies (k : Waker V)
  | unlocks (k : Waker V)
  | top
  | word
  | ids (clear : Bool)
  | flags (clear : Bool) (i : Nat) (rest ids : List Nat)
  | probe (k : Spot)
  | makes (k : Spot) (got : Nat)
  | spill (k : Spot) (got : Nat)
  | spills (k : Spot) (got : Nat)
  | head (k : Spot) (got room : Nat)
  | cached (k : Spot) (got room h : Nat)
  | look (k : Spot) (got room h : Nat)
  | copies (k : Spot) (got h n : Nat) (out : List (Item V Tid))
  | drained (k : Spot) (got : Nat)
  | flush (d : Drain) (total : Nat)
  | write (d : Drain) (total : Nat)
  | asked
  | takes
  | reclaims (p : FoldStep) (l : Lot)
  | clearWord
  | clears (p : ClearStep) (i : Nat) (rest : List Nat) (retiring : Bool)
  | parks (p : ParkStep) (told : Bool)
  | lastFlush
  | lastWrite
  | exit

section
variable {V Tid : Type} (cfg : Config)

/-! ## What comes next -/

/-- Does the drain look at the slots' states? -/
def checks (d : Drain) : Prop := d ≠ .main ∨ cfg.scan = .fullScan

instance (d : Drain) : Decidable (checks cfg d) := by unfold checks; infer_instance

def loopAt (k : Spot) (got : Nat) : Place V Tid :=
  if got < cfg.drainBatch then .makes k got else .drained k got

def spotAt (k : Spot) : Place V Tid := if checks cfg k.drain then .probe k else loopAt cfg k 0

/-- The first slot of a full drain. -/
def first (d : Drain) (rotate : Nat) : Place V Tid :=
  .probe ⟨d, rotate % cfg.producers, (order cfg rotate).tail, 0⟩

def parkAt : Place V Tid :=
  match cfg.port with
  | .cpp => .parks .lock true
  | .go => .parks .arm true
  | .python => .parks .eval true

/-- After a drain that took `total`. -/
def PassEnds (d : Drain) (total : Nat) (g : Place V Tid) : Prop :=
  match d with
  | .main => g = if 0 < total then .top else .asked
  | .settle => g = if 0 < total then .top else parkAt cfg
  | .final => if 0 < total then ∃ r, g = first cfg .final r else g = first cfg .last 0
  | .last => if 0 < total then ∃ r, g = first cfg .last r else g = .lastFlush

/-- Before the rest of a pass. -/
def Enters (d : Drain) (rest : List Nat) (total : Nat) (g : Place V Tid) : Prop :=
  match rest with
  | [] => if 0 < total then g = .flush d total else PassEnds cfg d total g
  | i :: rest => g = spotAt cfg ⟨d, i, rest, total⟩

/-- On the way to sleep. -/
def Settles (g : Place V Tid) : Prop :=
  match cfg.scan with
  | .fullScan => ∃ r, g = first cfg .settle r
  | .bitmap => g = if cfg.port = .python then .ids true else .clearWord

/-- After the reclaiming of an idle pass. -/
def Rung (g : Place V Tid) : Prop := g = .top ∨ Settles cfg g

def ClearAt (rest : List Nat) (g : Place V Tid) : Prop :=
  match rest with
  | [] => ∃ r, g = first cfg .settle r
  | i :: rest => g = if cfg.port = .python then .clears .judge i rest false
      else .clears .tail i rest false

def FlagsAt (clear : Bool) (rest ids : List Nat) (g : Place V Tid) : Prop :=
  match rest with
  | [] => if clear then ClearAt cfg ids g else ∃ r, Enters cfg .main (turn r ids) 0 g
  | i :: rest => g = .flags clear i rest ids

def ReclaimEnds (fin : Bool) (g : Place V Tid) : Prop := if fin then g = .exit else Rung cfg g

def ReclaimAt (rest : List Nat) (changed fin : Bool) (g : Place V Tid) : Prop :=
  match rest with
  | [] => if cfg.port = .python ∧ changed then
      g = .scans (.reclaim fin) (List.range cfg.producers) [] else ReclaimEnds cfg fin g
  | i :: rest => g = .reclaims .state ⟨i, rest, changed, fin⟩

/-- Where a wake starts. -/
def wakeFrom : Waker V → Place V Tid
  | .signal w => .wakes w
  | .retire h => .signalled (.retired h)
  | .register => .out
  | .stop => .stopping
  | .halt => .halted

def wakeTo : Waker V → Place V Tid
  | .signal w => .signalled w
  | .retire h => .left h
  | .register => .out
  | .stop => .stopping
  | .halt => .joining

def Waker.site : Waker V → Site
  | .signal w => w.site
  | .halt => .halt
  | _ => .other

/-! ## The moves -/

/-- What a stop does before it clears `running`. -/
def halting : Act V Tid → Bool
  | .joinableLoad | .onceDo | .stopLock | .stopUnlock | .stoppedLoad | .stoppedStore
  | .beforeDeadline | .drainMetStore _ | .stateLoad .other _ | .tailLoad _ | .headLoad .other _
  | .acceptingStore false => true
  | _ => false

inductive LifeMove : Place V Tid → (a : Act V Tid) → Resp a → Place V Tid → Prop
  | running : LifeMove .starting (.runningStore true) () .starting
  | accepting : LifeMove .starting (.acceptingStore true) () .starting
  | thread : LifeMove .starting .threadStart () .started
  | waits {a : Act V Tid} {r : Resp a} : halting a = true → LifeMove .stopping a r .stopping
  | halt : LifeMove .stopping (.runningStore false) () .halted
  | join : LifeMove .joining .join () .stopped
  | onceDone : LifeMove .stopped .onceDone () .stopped
  | unlock : LifeMove .stopped .stopUnlock () .stopped

inductive WakeMove : Place V Tid → (a : Act V Tid) → Resp a → Place V Tid → Prop
  | lock (k : Waker V) : cfg.port ≠ .go → WakeMove (wakeFrom k) .parkLock () (.notifies k)
  | notify (k : Waker V) : WakeMove (.notifies k) (.notify k.site) () (.unlocks k)
  | unlock (k : Waker V) : WakeMove (.unlocks k) .parkUnlock () (wakeTo k)
  | send (k : Waker V) : cfg.port = .go → WakeMove (wakeFrom k) .tokenSend () (wakeTo k)

inductive RegisterMove : Place V Tid → (a : Act V Tid) → Resp a → Place V Tid → Prop
  | lock : cfg.port ≠ .cpp → RegisterMove .out .regLock () .locked
  | unlock : RegisterMove .locked .regUnlock () .out
  | cas (i : Nat) (won : Bool) : i < cfg.producers → cfg.port = .cpp →
      RegisterMove .out (.stateCas i) won (if won then .claimed i else .out)
  | casLocked (i : Nat) (won : Bool) : i < cfg.producers → cfg.port = .go →
      RegisterMove .locked (.stateCas i) won (if won then .claimed i else .locked)
  | finds (i : Nat) (st : SlotState) : i < cfg.producers → cfg.port = .python →
      RegisterMove .locked (.stateLoad .other i) st (if st = .free then .vacant i else .locked)
  | vacantPushed (i : Nat) : RegisterMove (.vacant i) (.pushedStore i) () (.vacant i)
  | vacantDropped (i : Nat) : RegisterMove (.vacant i) (.droppedStore i) () (.vacant i)
  | vacantHigh (i : Nat) : RegisterMove (.vacant i) (.highStore i 0) () (.vacant i)
  | activates (i : Nat) : RegisterMove (.vacant i) (.stateStore i .active) ()
      (.scans (.register i) (List.range cfg.producers) [])
  | pushed (i : Nat) : RegisterMove (.claimed i) (.pushedStore i) () (.claimed i)
  | dropped (i : Nat) : RegisterMove (.claimed i) (.droppedStore i) () (.claimed i)
  | high (i : Nat) : RegisterMove (.claimed i) (.highStore i 0) () (.claimed i)
  | release (i : Nat) : cfg.port ≠ .cpp → RegisterMove (.claimed i) .regUnlock () (.given i)
  | deadline (b : Bool) : RegisterMove .out .beforeDeadline b .out
  | runs (b : Bool) : RegisterMove .out .runningLoad b .out

inductive ScanMove : Place V Tid → (a : Act V Tid) → Resp a → Place V Tid → Prop
  | load (w : Scanner) (i : Nat) (rest ids : List Nat) (st : SlotState) :
      ScanMove (.scans w (i :: rest) ids) (.stateLoad .scan i) st
        (.scans w rest (if st = .free then ids else ids ++ [i]))
  | register (i : Nat) (ids : List Nat) :
      ScanMove (.scans (.register i) [] ids) (.registeredStore ids) () (.claimed i)
  | reclaim (fin : Bool) (ids : List Nat) {g : Place V Tid} : ReclaimEnds cfg fin g →
      ScanMove (.scans (.reclaim fin) [] ids) (.registeredStore ids) () g

inductive PushMove : Place V Tid → (a : Act V Tid) → Resp a → Place V Tid → Prop
  | accepting (h : Handle) (v : V) (b : Bool) : PushMove (.asks h v) (.acceptingLoad h) b
      (if b then .tries h v else .refused h v)
  | tail (h : Handle) (v : V) (t : Nat) : PushMove (.tries h v) (.tailLoad h.id) t (.room h v t)
  | cached (h : Handle) (v : V) (t c : Nat) : PushMove (.room h v t) (.cachedHeadLoad h.id) c
      (if t - c = cfg.capacity then .full h v t else .writes h v t)
  | see (h : Handle) (v : V) (t c : Nat) : PushMove (.full h v t) (.headSee h.id) c
      (if t - c = cfg.capacity then .tries h v else .writes h v t)
  | write (h : Handle) (v : V) (t : Nat) :
      PushMove (.writes h v t) (.slotStore h t v) () (.publishes h v t)
  | publish (h : Handle) (v : V) (t : Nat) :
      PushMove (.publishes h v t) (.tailStore h.id (t + 1)) () (.published h v)
  | count (h : Handle) (v : V) :
      PushMove (.published h v) (.pushedAdd h) () (.tests (.pushed h v))
  | drop (h : Handle) (v : V) : PushMove (.tries h v) (.droppedAdd h) () (.dropped h v)
  | hintTail (h : Handle) (v : V) (n : Nat) :
      PushMove (.tests (.pushed h v)) (.tailLoad h.id) n (.tests (.pushed h v))
  | hintHead (h : Handle) (v : V) (n : Nat) :
      PushMove (.tests (.pushed h v)) (.cachedHeadLoad h.id) n (.tests (.pushed h v))
  | hintHigh (h : Handle) (v : V) (n : Nat) :
      PushMove (.tests (.pushed h v)) (.highLoad h.id) n (.tests (.pushed h v))
  | high (h : Handle) (v : V) (d : Nat) :
      PushMove (.tests (.pushed h v)) (.highStore h.id d) () (.tests (.pushed h v))
  | retires (h : Handle) : PushMove (.leaves h) (.stateStore h.id .retiring) () (.leaving h)
  | pending (h : Handle) : PushMove (.leaving h) (.pendingStore true) ()
      (if cfg.scan = .bitmap then .tests (.retired h) else .signalled (.retired h))
  | test (w : Who V) (b : Bool) : cfg.scan = .bitmap →
      PushMove (.tests w) (.bitLoad w.site w.handle.id) b (if b then .signalled w else .sets w)
  | set (w : Who V) (zero : Bool) : PushMove (.sets w) (.bitSet w.site w.handle.id) zero
      (if cfg.port = .python ∨ zero then .minds w else .signalled w)
  | mind (w : Who V) (b : Bool) : PushMove (.minds w) .parkedLoad b
      (if b then .wakes w else .signalled w)

inductive DrainMove : Place V Tid → (a : Act V Tid) → Resp a → Place V Tid → Prop
  | stops : DrainMove .top .runningLoad false (first cfg .final 0)
  | runsFull (r : Nat) : cfg.scan = .fullScan → DrainMove .top .runningLoad true (first cfg .main r)
  | runsWord : cfg.scan = .bitmap → cfg.port ≠ .python → DrainMove .top .runningLoad true .word
  | runsIds : cfg.scan = .bitmap → cfg.port = .python →
      DrainMove .top .runningLoad true (.ids false)
  | word (w : Nat → Bool) (r : Nat) {g : Place V Tid} :
      Enters cfg .main ((order cfg r).filter w) 0 g → DrainMove .word .wordLoad w g
  | ids (clear : Bool) (l : List Nat) {g : Place V Tid} : FlagsAt cfg clear l [] g →
      DrainMove (.ids clear) .registeredLoad l g
  | flag (clear : Bool) (i : Nat) (rest ids : List Nat) (b : Bool) {g : Place V Tid} :
      FlagsAt cfg clear rest (if b then ids ++ [i] else ids) g →
      DrainMove (.flags clear i rest ids) (.bitLoad .other i) b g
  | free (k : Spot) {g : Place V Tid} : Enters cfg k.drain k.rest k.total g →
      DrainMove (.probe k) (.stateLoad k.drain.site k.i) .free g
  | used (k : Spot) {st : SlotState} : st ≠ .free →
      DrainMove (.probe k) (.stateLoad k.drain.site k.i) st (loopAt cfg k 0)
  | staged (k : Spot) (got n : Nat) : DrainMove (.makes k got) .stagedLoad n
      (if n = cfg.stageEvents then .spill k got
        else .head k got (min (cfg.stageEvents - n) (cfg.drainBatch - got)))
  | spill (k : Spot) (got n : Nat) : DrainMove (.spill k got) .stagedLoad n
      (if n = 0 then .head k got (min cfg.stageEvents (cfg.drainBatch - got)) else .spills k got)
  | spills (k : Spot) (got : Nat) : DrainMove (.spills k got) .sinkWrite ()
      (.head k got (min cfg.stageEvents (cfg.drainBatch - got)))
  | head (k : Spot) (got room h : Nat) :
      DrainMove (.head k got room) (.headLoad k.drain.site k.i) h (.cached k got room h)
  | cached (k : Spot) (got room h c : Nat) :
      DrainMove (.cached k got room h) (.cachedTailLoad k.i) c
        (if h = c then .look k got room h else .copies k got h (min room (c - h)) [])
  | look (k : Spot) (got room h c : Nat) :
      DrainMove (.look k got room h) (.tailSee k.drain.site k.i) c
        (if h = c then .drained k got else .copies k got h (min room (c - h)) [])
  | copy (k : Spot) (got h n : Nat) (out : List (Item V Tid)) (e : Item V Tid) : out.length < n →
      DrainMove (.copies k got h n out) (.slotLoad k.i (h + out.length)) e
        (.copies k got h n (out ++ [e]))
  | copied (k : Spot) (got h n : Nat) (out : List (Item V Tid)) : out.length = n →
      DrainMove (.copies k got h n out) (.headStore k.i (h + n) out) ()
        (if n = 0 then .drained k got else loopAt cfg k (got + n))
  | drained (k : Spot) (got : Nat) {g : Place V Tid} :
      Enters cfg k.drain k.rest (k.total + got) g →
      DrainMove (.drained k got) (.consumedAdd got) () g
  | flushed (d : Drain) (total : Nat) {g : Place V Tid} : PassEnds cfg d total g →
      DrainMove (.flush d total) .stagedLoad 0 g
  | flush (d : Drain) (total n : Nat) : n ≠ 0 →
      DrainMove (.flush d total) .stagedLoad n (.write d total)
  | write (d : Drain) (total : Nat) {g : Place V Tid} : PassEnds cfg d total g →
      DrainMove (.write d total) .sinkWrite () g
  | lastFlushed {g : Place V Tid} : ReclaimAt cfg (List.range cfg.producers) false true g →
      DrainMove .lastFlush .stagedLoad 0 g
  | lastFlush (n : Nat) : n ≠ 0 → DrainMove .lastFlush .stagedLoad n .lastWrite
  | lastWrite {g : Place V Tid} : ReclaimAt cfg (List.range cfg.producers) false true g →
      DrainMove .lastWrite .sinkWrite () g

inductive ReclaimMove : Place V Tid → (a : Act V Tid) → Resp a → Place V Tid → Prop
  | skip {g : Place V Tid} : cfg.port ≠ .python → Rung cfg g →
      ReclaimMove .asked .pendingSwap false g
  | take {g : Place V Tid} : cfg.port ≠ .python →
      ReclaimAt cfg (List.range cfg.producers) false false g →
      ReclaimMove .asked .pendingSwap true g
  | skips {g : Place V Tid} : cfg.port = .python → Rung cfg g →
      ReclaimMove .asked .pendingLoad false g
  | finds : cfg.port = .python → ReclaimMove .asked .pendingLoad true .takes
  | takes {g : Place V Tid} : ReclaimAt cfg (List.range cfg.producers) false false g →
      ReclaimMove .takes (.pendingStore false) () g
  | retiring (l : Lot) : ReclaimMove (.reclaims .state l) (.stateLoad .reclaim l.i) .retiring
      (.reclaims .tail l)
  | other (l : Lot) {st : SlotState} {g : Place V Tid} : st ≠ .retiring →
      ReclaimAt cfg l.rest l.changed l.fin g →
      ReclaimMove (.reclaims .state l) (.stateLoad .reclaim l.i) st g
  | tail (l : Lot) (c : Nat) : ReclaimMove (.reclaims .tail l) (.tailSee .reclaim l.i) c
      (.reclaims (.head c) l)
  | empty (l : Lot) (c : Nat) :
      ReclaimMove (.reclaims (.head c) l) (.headLoad .reclaim l.i) c (.reclaims .pushed l)
  | filled (l : Lot) {c h : Nat} {g : Place V Tid} : h ≠ c →
      ReclaimAt cfg l.rest l.changed l.fin g →
      ReclaimMove (.reclaims (.head c) l) (.headLoad .reclaim l.i) h g
  | swapPushed (l : Lot) (n : Nat) : cfg.port ≠ .python →
      ReclaimMove (.reclaims .pushed l) (.pushedSwap l.i) n (.reclaims (.addPushed n) l)
  | loadPushed (l : Lot) (n : Nat) : cfg.port = .python →
      ReclaimMove (.reclaims .pushed l) (.pushedLoad l.i) n (.reclaims (.addPushed n) l)
  | addPushed (l : Lot) (n : Nat) :
      ReclaimMove (.reclaims (.addPushed n) l) (.retiredPushedAdd n) () (.reclaims .dropped l)
  | swapDropped (l : Lot) (n : Nat) : cfg.port ≠ .python →
      ReclaimMove (.reclaims .dropped l) (.droppedSwap l.i) n (.reclaims (.addDropped n) l)
  | loadDropped (l : Lot) (n : Nat) : cfg.port = .python →
      ReclaimMove (.reclaims .dropped l) (.droppedLoad l.i) n (.reclaims (.addDropped n) l)
  | addDropped (l : Lot) (n : Nat) :
      ReclaimMove (.reclaims (.addDropped n) l) (.retiredDroppedAdd n) ()
        (if cfg.port = .python then .reclaims .zeroPushed l else .reclaims .unset l)
  | zeroPushed (l : Lot) :
      ReclaimMove (.reclaims .zeroPushed l) (.pushedStore l.i) () (.reclaims .zeroDropped l)
  | zeroDropped (l : Lot) :
      ReclaimMove (.reclaims .zeroDropped l) (.droppedStore l.i) () (.reclaims .unset l)
  | unset (l : Lot) :
      ReclaimMove (.reclaims .unset l) (.bitClear .reclaim l.i) () (.reclaims .free l)
  | free (l : Lot) {g : Place V Tid} : ReclaimAt cfg l.rest true l.fin g →
      ReclaimMove (.reclaims .free l) (.stateStore l.i .free) () g

inductive ClearMove : Place V Tid → (a : Act V Tid) → Resp a → Place V Tid → Prop
  | word (w : Nat → Bool) {g : Place V Tid} :
      ClearAt cfg ((List.range cfg.producers).filter w) g → ClearMove .clearWord .wordLoad w g
  | judge (i : Nat) (rest : List Nat) (b : Bool) (st : SlotState) :
      ClearMove (.clears .judge i rest b) (.stateLoad .other i) st
        (.clears .tail i rest (decide (st = .retiring)))
  | tail (i : Nat) (rest : List Nat) (b : Bool) (c : Nat) :
      ClearMove (.clears .tail i rest b) (.tailSee .other i) c (.clears (.head c) i rest b)
  | empty (i : Nat) (rest : List Nat) (b : Bool) (c : Nat) :
      ClearMove (.clears (.head c) i rest b) (.headLoad .other i) c (.clears .unset i rest b)
  | filled (i : Nat) (rest : List Nat) (b : Bool) {c h : Nat} {g : Place V Tid} : h ≠ c →
      ClearAt cfg rest g → ClearMove (.clears (.head c) i rest b) (.headLoad .other i) h g
  | unset (i : Nat) (rest : List Nat) (b : Bool) :
      ClearMove (.clears .unset i rest b) (.bitClear (.clear b) i) () (.clears .tailAgain i rest b)
  | tailAgain (i : Nat) (rest : List Nat) (b : Bool) (c : Nat) :
      ClearMove (.clears .tailAgain i rest b) (.tailSee (.clear b) i) c
        (.clears (.headAgain c) i rest b)
  | emptyAgain (i : Nat) (rest : List Nat) (b : Bool) (c : Nat) {g : Place V Tid} :
      (if cfg.port = .python then (if b then g = .clears .restore i rest b else ClearAt cfg rest g)
        else g = .clears .state i rest b) →
      ClearMove (.clears (.headAgain c) i rest b) (.headLoad (.clear b) i) c g
  | filledAgain (i : Nat) (rest : List Nat) (b : Bool) {c h : Nat} : h ≠ c →
      ClearMove (.clears (.headAgain c) i rest b) (.headLoad (.clear b) i) h (.clears .restore i rest b)
  | retiring (i : Nat) (rest : List Nat) (b : Bool) :
      ClearMove (.clears .state i rest b) (.stateLoad (.clear b) i) .retiring
        (.clears .restore i rest b)
  | other (i : Nat) (rest : List Nat) (b : Bool) {st : SlotState} {g : Place V Tid} :
      st ≠ .retiring → ClearAt cfg rest g →
      ClearMove (.clears .state i rest b) (.stateLoad (.clear b) i) st g
  | restore (i : Nat) (rest : List Nat) (b zero : Bool) {g : Place V Tid} : ClearAt cfg rest g →
      ClearMove (.clears .restore i rest b) (.bitSet (.clear b) i) zero g

inductive ParkMove : Place V Tid → (a : Act V Tid) → Resp a → Place V Tid → Prop
  | eval (b told : Bool) : ParkMove (.parks .eval told) .runningLoad b (.parks .lock b)
  | lock (told : Bool) : ParkMove (.parks .lock told) .parkLock () (.parks .arm told)
  | arm (told : Bool) : ParkMove (.parks .arm told) (.parkedStore true) ()
      (if told then .parks .word told else .parks .disarm told)
  | word (told zero : Bool) : ParkMove (.parks .word told) .wordZero zero
      (if zero then (if cfg.port = .python then .parks .sleep told else .parks .run told)
        else .parks .disarm told)
  | run (told b : Bool) : ParkMove (.parks .run told) .runningLoad b
      (if b then (if cfg.port = .go then .parks .asleep told else .parks .sleep told)
        else .parks .disarm told)
  | sleep (told : Bool) : ParkMove (.parks .sleep told) .cvWait () (.parks .asleep told)
  | wakes (told : Bool) : cfg.port ≠ .go →
      ParkMove (.parks .asleep told) .cvReturn () (.parks .disarm told)
  | select (told : Bool) : cfg.port = .go →
      ParkMove (.parks .asleep told) .select () (.parks .disarm told)
  | disarm (told : Bool) : ParkMove (.parks .disarm told) (.parkedStore false) ()
      (if cfg.port = .go then .top else .parks .unlock told)
  | unlock (told : Bool) : ParkMove (.parks .unlock told) .parkUnlock () .top

inductive Move : Place V Tid → (a : Act V Tid) → Resp a → Place V Tid → Prop
  | life {g a r g'} : LifeMove g a r g' → Move g a r g'
  | wake {g a r g'} : WakeMove cfg g a r g' → Move g a r g'
  | register {g a r g'} : RegisterMove cfg g a r g' → Move g a r g'
  | scan {g a r g'} : ScanMove cfg g a r g' → Move g a r g'
  | push {g a r g'} : PushMove cfg g a r g' → Move g a r g'
  | drain {g a r g'} : DrainMove cfg g a r g' → Move g a r g'
  | reclaim {g a r g'} : ReclaimMove cfg g a r g' → Move g a r g'
  | clear {g a r g'} : ClearMove cfg g a r g' → Move g a r g'
  | park {g a r g'} : ParkMove cfg g a r g' → Move g a r g'

/-! ## Calls and procedures -/

def startPlace : Call V → Place V Tid
  | .start => .starting
  | .stop _ => .stopping
  | .register => .out
  | .push h v => .asks h v
  | .retire h => .leaves h
  | .consume => .top

def endPlace (c : Call V) (r : Result) (g : Place V Tid) : Prop :=
  match c with
  | .start => r = .done ∧ g = .started
  | .stop _ => r = .stopped ∧ g = .stopped ∨ r = .done ∧ g = .stopping
  | .register => r = .registered none ∧ g = .out ∨
      ∃ i, r = .registered (some i) ∧ (g = .given i ∨ cfg.port = .cpp ∧ g = .claimed i)
  | .push h v => r = .pushed false ∧ (g = .refused h v ∨ g = .dropped h v) ∨
      r = .pushed true ∧ (g = .signalled (.pushed h v) ∨
        cfg.scan = .fullScan ∧ g = .tests (.pushed h v))
  | .retire h => r = .done ∧ g = .left h
  | .consume => r = .done ∧ g = .exit

def procPre : Proc → Place V Tid → Prop
  | .quiesceLoop, g => g = .stopping
  | .registerLoop, g => cfg.port = .python ∧ g = .out
  | .drainLoop site i got, g => ∃ k, site = k.drain.site ∧ i = k.i ∧ g = loopAt cfg k got
  | .consumeLoop _ _, g => g = .top
  | .finalLoop site r, g => site = .pass ∧ g = first cfg .final r ∨
      site = .last ∧ g = first cfg .last r

def procPost : (p : Proc) → Place V Tid → Ret p → Place V Tid → Prop
  | .quiesceLoop, _, _, g' => g' = .stopping
  | .registerLoop, _, r, g' => r = none ∧ g' = .out ∨ ∃ i, r = some i ∧ g' = .given i
  | .drainLoop _ _ got, g, n, g' => ∀ k, g = loopAt cfg k got → g' = .drained k n
  | .consumeLoop _ _, _, _, g' => g' = first cfg .final 0
  | .finalLoop site _, _, _, g' => site = .pass ∧ g' = first cfg .last 0 ∨
      site = .last ∧ g' = .lastFlush

end
end Katas.Weir.Pipeline
