import Katas.Core.Object
import Katas.Turnstile.Api

/-!
# The channel queue

`ChanQueue`: a buffered channel behind the queue's interface, one load, store or
channel operation at a time. A send to a closed channel panics, so `Close` closes
another channel, `done`, and `ProducersDone` closes the data channel once every
producer has returned from its last push: the client makes no such call before,
nor a push after (`enabled`).

A value that the runtime hands to a waiting receiver goes through the buffer
here. Left out are `Parks`, the timer's fields and capacity 0.
-/
namespace Katas.Turnstile.Chan
open Katas.Conc

/-- mirrors mpmc-work-queue-kata/go/internal/turnstile/chan.go:28-43 -/
inductive Send where
  | fast
  | select
  | plain
  deriving DecidableEq, Repr

/-- mirrors mpmc-work-queue-kata/go/internal/turnstile/chan.go:20-25,45-47; `ch` is a
channel of the capacity `cap`. -/
structure Config where
  cap : Nat
  pos : 0 < cap
  send : Send

/-- How a call ended.
mirrors mpmc-work-queue-kata/go/internal/turnstile/chan.go -/
inductive Result (V : Type) where
  | push (r : Push)
  | pop (r : Pop V)
  | closed
  | producersDone
  | isClosed (b : Bool)
  | occupancy (n : Nat)
  | panicked
  deriving DecidableEq, Repr

inductive Call (V : Type) where
  | tryPush (v : V)
  | push (v : V)
  | tryPop
  | pop
  | close
  | producersDone
  | isClosed
  | occupancy
  deriving DecidableEq

/-- The shared fields, and what is noted of the run: who is in a push, whether
`ProducersDone` was called and a `Close` has returned, which pushes began after
that, and which of these were accepted (`AfterClose` of the driver). -/
structure State (V Tid : Type) where
  buf : List V
  chClosed : Bool
  done : Bool
  closing : Bool
  pushing : List Tid
  ended : Bool
  told : Bool
  late : Tid → Bool
  afterClose : List (Call V)

def State.init {V Tid : Type} : State V Tid :=
  ⟨[], false, false, false, [], false, false, fun _ => false, []⟩

/-- Which case of a `select` was taken, or that the send panicked. -/
inductive Case where
  | send
  | done
  | timer
  | other
  | panics
  deriving DecidableEq, Repr

/-- What a receive got. -/
inductive Recv (V : Type) where
  | got (v : V)
  | closed
  | empty

/-- `trySend` and `tryRecv` are a `select` with a default, `selectSend` one with
`done`, and with a timer or without. -/
inductive Act (V : Type) where
  | closingLoad
  | closingCas
  | closeDone
  | closeCh
  | trySend (v : V)
  | send (v : V)
  | selectSend (v : V) (timer : Bool)
  | nowBefore
  | tryRecv
  | recv
  | len

/-- The close of a channel answers whether it was open. -/
@[reducible] def Resp {V : Type} : Act V → Type
  | .closingLoad | .closingCas | .closeDone | .closeCh | .nowBefore => Bool
  | .trySend _ | .send _ | .selectSend _ _ => Case
  | .tryRecv | .recv => Recv V
  | .len => Nat

section
variable {V Tid : Type} (cfg : Config)

/-- The send of a value, if there is room. -/
def sendSem (v : V) (s : State V Tid) : Option (State V Tid × Case) :=
  if s.chClosed then some (s, .panics)
  else if s.buf.length < cfg.cap then some ({ s with buf := s.buf ++ [v] }, .send)
  else none

def recvSem (s : State V Tid) : Option (State V Tid × Recv V) :=
  match s.buf with
  | v :: rest => some ({ s with buf := rest }, .got v)
  | [] => if s.chClosed then some (s, .closed) else none

def sem (_ : Tid) (a : Act V) (n : Nat) (s : State V Tid) : Option (State V Tid × Resp a) :=
  match a with
  | .closingLoad => some (s, s.closing)
  | .closingCas => some ({ s with closing := true }, !s.closing)
  | .closeDone => some ({ s with done := true }, !s.done)
  | .closeCh => some ({ s with chClosed := true }, !s.chClosed)
  | .trySend v => some ((sendSem cfg v s).getD (s, .other))
  | .send v => sendSem cfg v s
  | .selectSend v timer =>
    match n with
    | 0 => sendSem cfg v s
    | 1 => if s.done then some (s, .done) else none
    | _ => if timer then some (s, .timer) else none
  | .nowBefore => some (s, n == 0)
  | .tryRecv => some ((recvSem s).getD (s, .empty))
  | .recv => recvSem s
  | .len => some (s, s.buf.length)

abbrev sig (V : Type) : Sig where
  Act := Act V
  Resp := Resp
  Proc := Empty
  Ret := fun _ => Empty

abbrev M (V α : Type) := Prog (sig V) α

abbrev op (a : Act V) : M V (Resp a) := Prog.op (S := sig V) a

/-! ## The calls -/

/-- What a push returns after a `select` with a default. -/
def tried : Case → Result V
  | .send => .push .ok
  | .panics => .panicked
  | _ => .push .full

/-- What a push returns after a send, or a `select` without a default. -/
def sent : Case → Result V
  | .panics => .panicked
  | .done => .push .closed
  | .timer => .push .timeout
  | _ => .push .ok

/-- What a pop returns. -/
def received : Recv V → Result V
  | .got v => .pop (.ok v)
  | .closed => .pop .drained
  | .empty => .pop .empty

/-- mirrors mpmc-work-queue-kata/go/internal/turnstile/chan.go:51-61 -/
def tryPush (v : V) : M V (Result V) := do
  let closing ← op .closingLoad
  if closing then
    return .push .closed
  else
    let c ← op (.trySend v)
    return tried c

/-- mirrors mpmc-work-queue-kata/go/internal/turnstile/chan.go:63-104 -/
def push (v : V) : M V (Result V) :=
  match cfg.send with
  | .plain => do
    let c ← op (.send v)
    return sent c
  | .select => do
    let c ← op (.selectSend v false)
    return sent c
  | .fast => do
    let closing ← op .closingLoad
    if closing then
      return .push .closed
    else
      let c ← op (.trySend v)
      match c with
      | .send => return .push .ok
      | .panics => return .panicked
      | _ =>
        let early ← op .nowBefore
        if early then
          let c ← op (.selectSend v true)
          return sent c
        else
          return .push .timeout

/-- mirrors mpmc-work-queue-kata/go/internal/turnstile/chan.go:106-117 -/
def tryPop : M V (Result V) := do
  let r ← op .tryRecv
  return received r

/-- mirrors mpmc-work-queue-kata/go/internal/turnstile/chan.go:121-128 -/
def pop : M V (Result V) := do
  let r ← op .recv
  return received r

/-- mirrors mpmc-work-queue-kata/go/internal/turnstile/chan.go:131-135 -/
def close : M V (Result V) := do
  let won ← op .closingCas
  if won then
    let open_ ← op .closeDone
    if open_ then
      return .closed
    else
      return .panicked
  else
    return .closed

/-- mirrors mpmc-work-queue-kata/go/internal/turnstile/chan.go:140 -/
def producersDone : M V (Result V) := do
  let open_ ← op .closeCh
  if open_ then
    return .producersDone
  else
    return .panicked

/-- mirrors mpmc-work-queue-kata/go/internal/turnstile/chan.go:142 -/
def isClosed : M V (Result V) := do
  let b ← op .closingLoad
  return .isClosed b

/-- mirrors mpmc-work-queue-kata/go/internal/turnstile/chan.go:144 -/
def occupancy : M V (Result V) := do
  let n ← op .len
  return .occupancy n

def code : Call V → M V (Result V)
  | .tryPush v => tryPush v
  | .push v => push cfg v
  | .tryPop => tryPop
  | .pop => pop
  | .close => close
  | .producersDone => producersDone
  | .isClosed => isClosed
  | .occupancy => occupancy

def Call.pushes : Call V → Bool
  | .tryPush _ | .push _ => true
  | _ => false

variable [DecidableEq Tid]

/-- The client's promise. -/
def enabled (s : State V Tid) (_ : Tid) : Call V → Bool
  | .tryPush _ | .push _ => !s.ended
  | .producersDone => s.pushing.isEmpty && !s.ended
  | _ => true

def begin_ (t : Tid) (c : Call V) (s : State V Tid) : State V Tid :=
  match c with
  | .tryPush _ | .push _ =>
    { s with pushing := t :: s.pushing, late := upd s.late t s.told }
  | .producersDone => { s with ended := true }
  | _ => s

def finish (t : Tid) (c : Call V) (r : Result V) (s : State V Tid) : State V Tid :=
  match c with
  | .tryPush _ | .push _ =>
    { s with
      pushing := s.pushing.erase t
      afterClose := match r with
        | .push .ok => if s.late t then s.afterClose ++ [c] else s.afterClose
        | _ => s.afterClose }
  | .close => { s with told := true }
  | _ => s

end

/-- The queue, and the goroutines `Tid` that use it. -/
@[reducible] def queue (V Tid : Type) [DecidableEq Tid] (cfg : Config) : System where
  sig := sig V
  State := State V Tid
  Tid := Tid
  Call := Call V
  Result := Result V
  decTid := inferInstance
  init := .init
  enabled := enabled
  begin := begin_
  finish := finish
  code := code cfg
  body := fun p => p.elim
  sem := sem cfg

/-! ## Places -/

/-- Where a goroutine stands: in a `TryPush`, before its load and its send; in a
`Push` of each kind; in a pop; in a `Close`, before it claims and before it
closes `done`; in the others; and before it returns. -/
inductive Place (V : Type) where
  | idle
  | asks (v : V)
  | tries (v : V)
  | sends (v : V)
  | selects (v : V)
  | fastAsks (v : V)
  | fastTries (v : V)
  | clock (v : V)
  | waits (v : V)
  | tryRecv
  | recv
  | claims
  | closesDone
  | closesCh
  | looks
  | counts
  | answers (c : Call V) (r : Result V)

section
variable {V Tid : Type} (cfg : Config)

def startPlace : Call V → Place V
  | .tryPush v => .asks v
  | .push v =>
    match cfg.send with
    | .plain => .sends v
    | .select => .selects v
    | .fast => .fastAsks v
  | .tryPop => .tryRecv
  | .pop => .recv
  | .close => .claims
  | .producersDone => .closesCh
  | .isClosed => .looks
  | .occupancy => .counts

/-- What a `Push` does after its first try. -/
def afterTry (v : V) : Case → Place V
  | .send => .answers (.push v) (.push .ok)
  | .panics => .answers (.push v) .panicked
  | _ => .clock v

inductive Move : Place V → (a : Act V) → Resp a → Place V → Prop
  | asks (v : V) (b : Bool) : Move (.asks v) .closingLoad b
      (if b then .answers (.tryPush v) (.push .closed) else .tries v)
  | tries (v : V) (c : Case) : Move (.tries v) (.trySend v) c (.answers (.tryPush v) (tried c))
  | sends (v : V) (c : Case) : Move (.sends v) (.send v) c (.answers (.push v) (sent c))
  | selects (v : V) (c : Case) :
      Move (.selects v) (.selectSend v false) c (.answers (.push v) (sent c))
  | fastAsks (v : V) (b : Bool) : Move (.fastAsks v) .closingLoad b
      (if b then .answers (.push v) (.push .closed) else .fastTries v)
  | fastTries (v : V) (c : Case) : Move (.fastTries v) (.trySend v) c (afterTry v c)
  | clock (v : V) (b : Bool) : Move (.clock v) .nowBefore b
      (if b then .waits v else .answers (.push v) (.push .timeout))
  | waits (v : V) (c : Case) :
      Move (.waits v) (.selectSend v true) c (.answers (.push v) (sent c))
  | tryRecv (r : Recv V) : Move .tryRecv .tryRecv r (.answers .tryPop (received r))
  | recv (r : Recv V) : Move .recv .recv r (.answers .pop (received r))
  | claims (b : Bool) : Move .claims .closingCas b
      (if b then .closesDone else .answers .close .closed)
  | closesDone (b : Bool) : Move .closesDone .closeDone b
      (.answers .close (if b then .closed else .panicked))
  | closesCh (b : Bool) : Move .closesCh .closeCh b
      (.answers .producersDone (if b then .producersDone else .panicked))
  | looks (b : Bool) : Move .looks .closingLoad b (.answers .isClosed (.isClosed b))
  | counts (n : Nat) : Move .counts .len n (.answers .occupancy (.occupancy n))

variable [DecidableEq Tid]

variable (V Tid) in
def flow : Flow (queue V Tid cfg) where
  G := Place V
  idle := .idle
  start _ := startPlace cfg
  move _ := Move
  ends _ c r g := g = .answers c r
  pre _ _ _ := False
  post _ _ _ _ _ := False

variable {cfg}

theorem wp_push {t : Tid} {v : V} : (flow V Tid cfg).wp t (push cfg v)
    (fun r g => g = .answers (.push v) r) (startPlace cfg (.push v)) := by
  unfold push startPlace
  dsimp only
  cases cfg.send with
  | plain => exact fun c => ⟨_, .sends v c, rfl⟩
  | select => exact fun c => ⟨_, .selects v c, rfl⟩
  | fast =>
    refine Flow.wp_move_seq fun b => ⟨_, .fastAsks v b, ?_⟩
    cases b with
    | true => exact rfl
    | false =>
      refine Flow.wp_move_seq fun c => ⟨_, .fastTries v c, ?_⟩
      have hclock : (flow V Tid cfg).wp t (do
          let early ← op .nowBefore
          if early then
            let c ← op (.selectSend v true)
            return sent c
          else
            return .push .timeout) (fun r g => g = .answers (.push v) r) (.clock v) := by
        refine Flow.wp_move_seq fun b => ⟨_, .clock v b, ?_⟩
        cases b with
        | true => exact fun c => ⟨_, .waits v c, rfl⟩
        | false => exact rfl
      cases c with
      | send | panics => exact rfl
      | done | timer | other => exact hclock

theorem follows : (flow V Tid cfg).Follows where
  code t c := by
    cases c with
    | tryPush v =>
      refine Flow.wp_move_seq fun b => ⟨_, .asks v b, ?_⟩
      cases b with
      | true => exact rfl
      | false => exact fun c => ⟨_, .tries v c, rfl⟩
    | push v => exact wp_push
    | tryPop => exact fun r => ⟨_, .tryRecv r, rfl⟩
    | pop => exact fun r => ⟨_, .recv r, rfl⟩
    | close =>
      refine Flow.wp_move_seq fun b => ⟨_, .claims b, ?_⟩
      cases b with
      | true =>
        refine Flow.wp_move_seq fun b => ⟨_, .closesDone b, ?_⟩
        cases b <;> exact rfl
      | false => exact rfl
    | producersDone =>
      refine Flow.wp_move_seq fun b => ⟨_, .closesCh b, ?_⟩
      cases b <;> exact rfl
    | isClosed => exact fun b => ⟨_, .looks b, rfl⟩
    | occupancy => exact fun n => ⟨_, .counts n, rfl⟩
  body _ p := p.elim

end
end Katas.Turnstile.Chan
