import Katas.Core.Covers
import Katas.Core.LTS
import Katas.Core.Prog
import Katas.Turnstile.Api

/-!
# The mutex queue

`turnstile::MutexQueue`: a ring under one mutex with two condition variables.
A critical section, from the moment the thread has the mutex to the moment it
releases it, waits or returns, is one step: a function of the fields and of
whether the wait that ended had timed out. What it leaves to be done without
the mutex, the notifications and the return, are steps of their own, so any
thread may come between.

A wait may end at any moment, notified or not, and with either status.
`notify_one` reaches one of the waiting threads, any of them. Left out is the
count of parks in `OpStats`, which nothing here reads. An element that was
moved from is modelled as the old value.
-/
namespace Katas.Turnstile.MutexQueue
open Katas.Conc (upd)

/-- mirrors mpmc-work-queue-kata/cpp/src/mutex_queue.hpp:148-151 (`ring_`,
`head_`, `size_`, `closed_`) -/
structure Fields (T : Type) where
  ring : Nat → T
  head : Nat
  size : Nat
  closed : Bool

/-- mirrors mpmc-work-queue-kata/cpp/src/mutex_queue.hpp:146-147 -/
inductive Cv where
  | not_empty
  | not_full
  deriving DecidableEq, Repr

/-- A call that may wait, as it goes on after the wait. `push_batch` holds the
items it has not put yet, the first apart, and how many are done. -/
inductive Waiter (T : Type) where
  | push (v : T)
  | push_batch (v : T) (items : List T) (done : Nat)
  | pop
  | pop_batch (max : Nat)

/-- What it waits for. -/
def Waiter.cv {T : Type} : Waiter T → Cv
  | .push _ | .push_batch .. => .not_full
  | .pop | .pop_batch _ => .not_empty

/-- A thread's next critical section. -/
inductive Section (T : Type) where
  | try_push (v : T)
  | push_batch (items : List T) (done : Nat)
  | try_pop
  | close
  | closed
  | waiter (w : Waiter T)

inductive Result (T : Type) where
  | push (r : Push)
  | pushed (done : Nat)
  | pop (r : Pop T)
  | popped (out : List T)
  | close
  | closed (b : Bool)
  deriving DecidableEq

inductive Notify where
  | one (cv : Cv)
  | all (cv : Cv)
  deriving DecidableEq, Repr

/-- Where a thread goes after its notifications. -/
inductive Then (T : Type) where
  | ret (r : Result T)
  | again (items : List T) (done : Nat)

/-- How a critical section ends: in a wait, or out of the mutex. -/
inductive Next (T : Type) where
  | wait (w : Waiter T)
  | leave (ns : List Notify) (k : Then T)

/-! ## The critical sections -/

section code
variable {T : Type} (N : Nat)

/-- mirrors mpmc-work-queue-kata/cpp/src/mutex_queue.hpp:135-138 -/
def put (v : T) (q : Fields T) : Fields T :=
  { q with ring := upd q.ring ((q.head + q.size) % N) v, size := q.size + 1 }

/-- mirrors mpmc-work-queue-kata/cpp/src/mutex_queue.hpp:139-143 -/
def take (q : Fields T) : Fields T × T :=
  ({ q with head := (q.head + 1) % N, size := q.size - 1 }, q.ring q.head)

/-- mirrors mpmc-work-queue-kata/cpp/src/mutex_queue.hpp:30-39 -/
def try_push (v : T) (q : Fields T) : Fields T × Next T :=
  if q.closed then (q, .leave [] (.ret (.push .closed)))
  else if q.size = N then (q, .leave [] (.ret (.push .full)))
  else (put N v q, .leave [.one .not_empty] (.ret (.push .ok)))

/-- mirrors mpmc-work-queue-kata/cpp/src/mutex_queue.hpp:41-54 -/
def push (v : T) (timeout : Bool) (q : Fields T) : Fields T × Next T :=
  if timeout ∧ q.size = N ∧ !q.closed then (q, .leave [] (.ret (.push .timeout)))
  else if !q.closed ∧ q.size = N then (q, .wait (.push v))
  else if q.closed then (q, .leave [] (.ret (.push .closed)))
  else (put N v q, .leave [.one .not_empty] (.ret (.push .ok)))

/-- The inner loop of `push_batch`: the fields, the items left, and how many are
done.
mirrors mpmc-work-queue-kata/cpp/src/mutex_queue.hpp:71 -/
def fill : List T → Nat → Fields T → Fields T × List T × Nat
  | [], done, q => (q, [], done)
  | v :: items, done, q =>
    if q.size < N then fill items (done + 1) (put N v q) else (q, v :: items, done)

/-- One turn of the outer loop; `items` are those from `done` on.
mirrors mpmc-work-queue-kata/cpp/src/mutex_queue.hpp:58-77 -/
def push_batch (items : List T) (done : Nat) (timeout : Bool) (q : Fields T) :
    Fields T × Next T :=
  match items with
  | [] => (q, .leave [] (.ret (.pushed done)))
  | v :: rest =>
    if timeout ∧ q.size = N ∧ !q.closed then
      (q, .leave [.all .not_empty] (.ret (.pushed done)))
    else if !q.closed ∧ q.size = N then (q, .wait (.push_batch v rest done))
    else if q.closed then (q, .leave [] (.ret (.pushed done)))
    else
      let (q, items, done) := fill N items done q
      (q, .leave [.all .not_empty] (.again items done))

/-- mirrors mpmc-work-queue-kata/cpp/src/mutex_queue.hpp:79-87 -/
def try_pop (q : Fields T) : Fields T × Next T :=
  if q.size = 0 then (q, .leave [] (.ret (.pop .empty)))
  else
    let (q, v) := take N q
    (q, .leave [.one .not_full] (.ret (.pop (.ok v))))

/-- mirrors mpmc-work-queue-kata/cpp/src/mutex_queue.hpp:89-102 -/
def pop (timeout : Bool) (q : Fields T) : Fields T × Next T :=
  if timeout ∧ q.size = 0 then
    (q, .leave [] (.ret (.pop (if q.closed then .drained else .timeout))))
  else if q.size = 0 then
    if q.closed then (q, .leave [] (.ret (.pop .drained))) else (q, .wait .pop)
  else
    let (q, v) := take N q
    (q, .leave [.one .not_full] (.ret (.pop (.ok v))))

/-- The inner loop of `pop_batch`: the fields and the items taken.
mirrors mpmc-work-queue-kata/cpp/src/mutex_queue.hpp:114 -/
def drain : Nat → Fields T → Fields T × List T
  | 0, q => (q, [])
  | n + 1, q =>
    if q.size > 0 then
      let (q, v) := take N q
      let (q, out) := drain n q
      (q, v :: out)
    else (q, [])

/-- mirrors mpmc-work-queue-kata/cpp/src/mutex_queue.hpp:105-118 -/
def pop_batch (max : Nat) (timeout : Bool) (q : Fields T) : Fields T × Next T :=
  if timeout ∧ q.size = 0 then (q, .leave [] (.ret (.popped [])))
  else if q.size = 0 then
    if q.closed then (q, .leave [] (.ret (.popped []))) else (q, .wait (.pop_batch max))
  else
    let (q, out) := drain N max q
    (q, .leave [.all .not_full] (.ret (.popped out)))

/-- mirrors mpmc-work-queue-kata/cpp/src/mutex_queue.hpp:120-127 -/
def close (q : Fields T) : Fields T × Next T :=
  ({ q with closed := true }, .leave [.all .not_empty, .all .not_full] (.ret .close))

/-- mirrors mpmc-work-queue-kata/cpp/src/mutex_queue.hpp:129-132 -/
def closed (q : Fields T) : Fields T × Next T :=
  (q, .leave [] (.ret (.closed q.closed)))

/-- The critical section of a thread whose last wait, if there was one, ended
with the status `timeout`. -/
def run (timeout : Bool) (q : Fields T) : Section T → Fields T × Next T
  | .try_push v => try_push N v q
  | .push_batch items done => push_batch N items done timeout q
  | .try_pop => try_pop N q
  | .close => close q
  | .closed => closed q
  | .waiter (.push v) => push N v timeout q
  | .waiter (.push_batch v items done) => push_batch N (v :: items) done timeout q
  | .waiter .pop => pop N timeout q
  | .waiter (.pop_batch max) => pop_batch N max timeout q

end code

/-! ## The threads -/

/-- Where a thread is: outside all calls (`idle`, with what the last one
returned), before a critical section, in a wait, out of the wait and in need of
the mutex, or out of the mutex with `ns` still to be notified. -/
inductive Place (T : Type) where
  | idle (r : Option (Result T))
  | wants (c : Section T)
  | waits (w : Waiter T)
  | woken (w : Waiter T)
  | leaves (ns : List Notify) (k : Then T)

/-- `shut`: a `close` has returned. -/
structure State (T Tid : Type) where
  q : Fields T
  loc : Tid → Place T
  shut : Bool

/-- A call of the queue begins with a critical section. -/
inductive Called {T : Type} : Section T → Prop
  | try_push (v : T) : Called (.try_push v)
  | push (v : T) : Called (.waiter (.push v))
  | push_batch (items : List T) : Called (.push_batch items 0)
  | try_pop : Called .try_pop
  | pop : Called (.waiter .pop)
  | pop_batch (max : Nat) : Called (.waiter (.pop_batch max))
  | close : Called .close
  | closed : Called .closed

section machine
variable {T Tid : Type} [DecidableEq Tid]

/-- In a wait on `cv`, not notified. -/
def Place.WaitsOn (cv : Cv) (p : Place T) : Prop := ∃ w, p = .waits w ∧ w.cv = cv

def Next.place : Next T → Place T
  | .wait w => .waits w
  | .leave ns k => .leaves ns k

/-- Every thread that waits on `cv` is notified. -/
def Place.notified (cv : Cv) : Place T → Place T
  | .waits w => if w.cv = cv then .woken w else .waits w
  | p => p

def State.move (s : State T Tid) (t : Tid) (p : Place T) : State T Tid :=
  { s with loc := upd s.loc t p }

/-- The thread is before the critical section `c`. -/
def State.Before (s : State T Tid) (t : Tid) (c : Section T) : Prop :=
  s.loc t = .wants c ∨ ∃ w, c = .waiter w ∧ s.loc t = .woken w

/-- A thread's steps. `wakes` is a spurious wakeup or a deadline; the status of
a wait that ended is the environment's choice. -/
inductive Step (N : Nat) : State T Tid → Tid → State T Tid → Prop
  | calls {s : State T Tid} {t : Tid} {r : Option (Result T)} {c : Section T}
      (h : s.loc t = .idle r) (hc : Called c) : Step N s t (s.move t (.wants c))
  | enters {s : State T Tid} {t : Tid} {c : Section T} {q : Fields T} {x : Next T}
      (h : s.loc t = .wants c) (hr : run N false s.q c = (q, x)) :
      Step N s t { s.move t x.place with q := q }
  | resumes {s : State T Tid} {t : Tid} {w : Waiter T} {timeout : Bool} {q : Fields T}
      {x : Next T} (h : s.loc t = .woken w) (hr : run N timeout s.q (.waiter w) = (q, x)) :
      Step N s t { s.move t x.place with q := q }
  | wakes {s : State T Tid} {t : Tid} {w : Waiter T} (h : s.loc t = .waits w) :
      Step N s t (s.move t (.woken w))
  | notify_one {s : State T Tid} {t u : Tid} {cv : Cv} {ns : List Notify} {k : Then T}
      {w : Waiter T} (h : s.loc t = .leaves (.one cv :: ns) k) (hu : s.loc u = .waits w)
      (hw : w.cv = cv) : Step N s t ((s.move t (.leaves ns k)).move u (.woken w))
  | notify_none {s : State T Tid} {t : Tid} {cv : Cv} {ns : List Notify} {k : Then T}
      (h : s.loc t = .leaves (.one cv :: ns) k) (hn : ∀ u, ¬(s.loc u).WaitsOn cv) :
      Step N s t (s.move t (.leaves ns k))
  | notify_all {s : State T Tid} {t : Tid} {cv : Cv} {ns : List Notify} {k : Then T}
      (h : s.loc t = .leaves (.all cv :: ns) k) :
      Step N s t { s with loc := upd (fun u => (s.loc u).notified cv) t (.leaves ns k) }
  | again {s : State T Tid} {t : Tid} {items : List T} {done : Nat}
      (h : s.loc t = .leaves [] (.again items done)) :
      Step N s t (s.move t (.wants (.push_batch items done)))
  | returns {s : State T Tid} {t : Tid} {r : Result T} (h : s.loc t = .leaves [] (.ret r)) :
      Step N s t { s.move t (.idle (some r)) with shut := s.shut || r matches .close }

variable (T Tid) [Inhabited T]

/-- mirrors mpmc-work-queue-kata/cpp/src/mutex_queue.hpp:28,148-151 -/
def State.init : State T Tid := ⟨⟨fun _ => default, 0, 0, false⟩, fun _ => .idle none, false⟩

def machine (N : Nat) : LTS (State T Tid) Tid where
  init s := s = .init T Tid
  step := Step N

end machine
end Katas.Turnstile.MutexQueue
