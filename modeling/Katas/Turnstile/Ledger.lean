import Katas.Turnstile.Api

/-!
# The ledger of a queue

What both rings keep, said once: the lap-stamped slots, the closed bit, and
the history of every position: whose call reserved it, what the slot held
when it was published, whose call claimed it and what was copied out. Each
operation of a ring that touches a shared word is one operation here.

A thread inside a call is at a `Stage`: the last thing it did that matters
to the positions. `Fits` says what a stage tells about the ledger.
-/
namespace Katas.Turnstile
open Katas.Conc (upd upd_self upd_ne upd_apply)
open Katas.SeqRing

/-- `calls t` calls begun by `t`, `called` what they were and `results` how
they ended; `closePos` is the tail's position when the closed bit went in. -/
structure Ledger (V K Tid : Type) where
  lanes : Lanes
  closed : Bool
  calls : Tid → Nat
  called : CallId Tid → Option K
  results : CallId Tid → Option (Result V)
  reservedBy : Nat → Option (CallId Tid)
  claimedBy : Nat → Option (CallId Tid)
  pushed : Nat → Option V
  popped : Nat → Option V
  closePos : Option Nat

namespace Ledger
variable {V K Tid : Type} [DecidableEq Tid]

def init : Ledger V K Tid where
  lanes := .init
  closed := false
  calls _ := 0
  called _ := none
  results _ := none
  reservedBy _ := none
  claimedBy _ := none
  pushed _ := none
  popped _ := none
  closePos := none

def tailWord (l : Ledger V K Tid) : TailWord := ⟨l.lanes.tail, l.closed⟩

/-- The call `t` is in. -/
def me (l : Ledger V K Tid) (t : Tid) : CallId Tid := (t, l.calls t)

def reserve (l : Ledger V K Tid) (t : Tid) : Ledger V K Tid :=
  { l with
    lanes := l.lanes.reserve .reserved
    reservedBy := upd l.reservedBy l.lanes.tail (some (l.me t)) }

/-- A ticket taken after the close, by a ring that never uses its position. -/
def refuse (l : Ledger V K Tid) : Ledger V K Tid := { l with lanes := l.lanes.reserve .refused }

def setClosed (l : Ledger V K Tid) : Ledger V K Tid :=
  { l with
    closed := true
    closePos := if l.closed then l.closePos else some l.lanes.tail }

def publish (N : Nat) (l : Ledger V K Tid) (pos : Nat) (v : V) : Ledger V K Tid :=
  { l with lanes := l.lanes.publish N pos false, pushed := upd l.pushed pos (some v) }

/-- Publish a tombstone. -/
def bury (N : Nat) (l : Ledger V K Tid) (pos : Nat) : Ledger V K Tid :=
  { l with lanes := l.lanes.publish N pos true }

def claim (l : Ledger V K Tid) (t : Tid) (pos : Nat) (dead : Bool) : Ledger V K Tid :=
  { l with
    lanes := l.lanes.claim dead
    claimedBy := upd l.claimedBy pos (some (l.me t)) }

def copy (l : Ledger V K Tid) (pos : Nat) (v : V) : Ledger V K Tid :=
  { l with popped := upd l.popped pos (some v) }

def release (N : Nat) (l : Ledger V K Tid) (pos : Nat) : Ledger V K Tid :=
  { l with lanes := l.lanes.release N pos (l.lanes.phase pos).isDead }

def begin (t : Tid) (k : K) (l : Ledger V K Tid) : Ledger V K Tid :=
  { l with
    calls := upd l.calls t (l.calls t + 1)
    called := upd l.called (t, l.calls t + 1) (some k) }

def finish (t : Tid) (r : Result V) (l : Ledger V K Tid) : Ledger V K Tid :=
  { l with results := upd l.results (l.me t) (some r) }

end Ledger

/-! ## Stages -/

/-- `sawFree`, `sawPub`: what a sequence word said of `pos`. `waits`: reserved,
the slot may still be in use a lap back; `late`, after the close. `copied`,
`cleared`: the claimed value was copied out, and its slot emptied. `closing`:
set the closed bit, at `pos`. `sawEnd`, `atEnd`: what a pop knows of the end
before and after it compared the head with it. -/
inductive Stage (V : Type) where
  | none
  | sawFree (pos : Nat)
  | waits (pos : Nat) (late : Bool)
  | holds (pos : Nat) (late : Bool)
  | filled (pos : Nat) (v : V)
  | pushed (pos : Nat) (v : V)
  | buried (pos : Nat) (late : Bool)
  | sawPub (pos : Nat) (dead : Bool)
  | skipping (pos : Nat)
  | claimed (pos : Nat)
  | copied (pos : Nat) (v : V)
  | cleared (pos : Nat) (v : V)
  | took (pos : Nat) (v : V)
  | closing (pos : Nat)
  | sawEnd (pos : Nat)
  | atEnd

namespace Stage
variable {V : Type}

/-- The position this call has reserved. -/
def resv : Stage V → Option Nat
  | waits p _ | holds p _ | filled p _ | pushed p _ | buried p _ => some p
  | _ => Option.none

/-- The position this call owes a publication. -/
def owes : Stage V → Option Nat
  | waits p _ | holds p _ | filled p _ => some p
  | _ => Option.none

/-- The position this call has claimed with a value. -/
def claim : Stage V → Option Nat
  | claimed p | copied p _ | cleared p _ | took p _ => some p
  | _ => Option.none

/-- The position this call has to release. -/
def opens : Stage V → Option Nat
  | skipping p | claimed p | copied p _ | cleared p _ => some p
  | _ => Option.none

/-- Nothing reserved, nothing claimed. -/
def idle : Stage V → Bool
  | none | sawFree _ | sawPub _ _ | closing _ | sawEnd _ | atEnd => true
  | _ => false

theorem idle_iff {st : Stage V} : st.idle = true ↔ st.resv = Option.none ∧
    st.owes = Option.none ∧ st.claim = Option.none ∧ st.opens = Option.none := by
  cases st <;> simp [idle, resv, owes, claim, opens]

theorem resv_of_owes {st : Stage V} {p : Nat} (h : st.owes = some p) : st.resv = some p := by
  cases st <;> simp_all [owes, resv]

/-- A call works at one end. -/
theorem claim_of_resv {st : Stage V} {p : Nat} (h : st.resv = some p) :
    st.claim = Option.none ∧ st.opens = Option.none := by
  cases st <;> simp_all [claim, opens, resv]

end Stage

/-- A thread between calls has no call and stage `none`. -/
structure Role (V K : Type) where
  call : Option K
  stage : Stage V

namespace Role
variable {V K : Type}

def into (g : Role V K) (st : Stage V) : Role V K := { g with stage := st }

@[simp] theorem into_call (g : Role V K) (st : Stage V) : (g.into st).call = g.call := rfl

@[simp] theorem into_stage (g : Role V K) (st : Stage V) : (g.into st).stage = st := rfl

@[simp] theorem into_into (g : Role V K) (st st' : Stage V) : (g.into st).into st' = g.into st' := rfl

theorem into_self {g : Role V K} {st : Stage V} (h : g.stage = st) : g.into st = g := by
  subst h; rfl

end Role

end Katas.Turnstile
