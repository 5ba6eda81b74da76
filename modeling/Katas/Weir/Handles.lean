import Katas.Core.Extend
import Katas.Weir.PipelineOwners

/-!
# Producer handles

A handle of the Go and the Python pipeline: a slot number and a closed flag.
`Push` does not look at the flag, so a handle that is closed still leads to its
slot, and the pipeline is entered as from the handle's owner. `Close` retires
the slot the first time. One goroutine at a time uses a handle; it may push and
close in any order and as often as it likes.

`base` is the pipeline, whose history tells of the pushes on handles that are
not closed, and of the first `Close` of each as its retirement.
-/
namespace Katas.Weir.Handles
open Katas.Conc

/-- `busy h`: who is in a call on handle `h`. `late t`: `t` pushes on a handle
that is closed. -/
structure State (V Tid : Type) where
  base : Pipeline.State V Tid
  closed : Nat → Bool
  busy : Nat → Option Tid
  late : Tid → Bool

/-- A call of the pipeline, a push among them, or a close. -/
inductive Call (V : Type) where
  | base (c : Pipeline.Call V)
  | close (h : Pipeline.Handle)

/-- The operations on the flag. -/
inductive Flag where
  | load (h : Pipeline.Handle)
  | cas (h : Pipeline.Handle)
  | store (h : Pipeline.Handle)

@[reducible] def Flag.Resp : Flag → Type
  | .load _ | .cas _ => Bool
  | .store _ => Unit

abbrev sig (V Tid : Type) : Sig := (Pipeline.sig V Tid).extend Flag Flag.Resp

abbrev M (V Tid α : Type) := Prog (sig V Tid) α

section system
variable {V Tid : Type} (cfg : Pipeline.Config)

abbrev op (b : Flag) : M V Tid (Flag.Resp b) := Prog.op (S := sig V Tid) (.inr b)

/-- mirrors mpsc-event-pipeline-kata/go/internal/weir/handle.go:65-72 and
python/src/weir/event_pipeline.py:98-101 -/
def close (h : Pipeline.Handle) : M V Tid Pipeline.Result :=
  match cfg.port with
  | .go => do
    let won ← op (.cas h)
    if won then (Pipeline.retire cfg h).lift else pure .done
  | _ => do
    let closed ← op (.load h)
    if closed then pure .done
    else do
      op (.store h)
      (Pipeline.retire cfg h).lift

/-- `Push` goes to the pipeline.
mirrors mpsc-event-pipeline-kata/go/internal/weir/handle.go:54-59 and
python/src/weir/event_pipeline.py:92-98 -/
def code : Call V → M V Tid Pipeline.Result
  | .base c => (Pipeline.code cfg c).lift
  | .close h => close cfg h

variable [DecidableEq Tid] [Inhabited V] [Inhabited Tid]

/-- The handle was given out, and nobody is in a call on it. -/
def usable (s : State V Tid) (h : Pipeline.Handle) : Bool :=
  s.base.handles[h.serial]? = some h.id ∧ (s.busy h.serial).isNone

def enabled (s : State V Tid) : Call V → Bool
  | .base (.push h _) | .close h => usable s h
  | .base (.retire _) => false
  | .base c => Pipeline.enabled cfg s.base c

/-- The handle is closed, and its slot's retirement begins. -/
def shut (t : Tid) (h : Pipeline.Handle) (s : State V Tid) : State V Tid :=
  { s with
    closed := upd s.closed h.serial true
    base := Pipeline.begin cfg t (.retire h) s.base }

def begin (t : Tid) (c : Call V) (s : State V Tid) : State V Tid :=
  match c with
  | .base (.push h v) =>
    let s := { s with busy := upd s.busy h.serial (some t) }
    if s.closed h.serial then { s with late := upd s.late t true }
    else { s with base := Pipeline.begin cfg t (.push h v) s.base }
  | .base c => { s with base := Pipeline.begin cfg t c s.base }
  | .close h => { s with busy := upd s.busy h.serial (some t) }

def finish (t : Tid) (c : Call V) (r : Pipeline.Result) (s : State V Tid) : State V Tid :=
  match c with
  | .base (.push h v) =>
    let s := { s with busy := upd s.busy h.serial none }
    if s.late t then { s with late := upd s.late t false }
    else { s with base := Pipeline.finish cfg t (.push h v) r s.base }
  | .base c => { s with base := Pipeline.finish cfg t c r s.base }
  | .close h =>
    let s := { s with busy := upd s.busy h.serial none }
    if (s.base.inCall t).isSome then { s with base := Pipeline.finish cfg t (.retire h) r s.base }
    else s

/-- The pipeline's operations, those of a push on a closed handle without its
records. -/
def sem (t : Tid) (a : (sig V Tid).Act) (n : Nat) (s : State V Tid) :
    Option (State V Tid × (sig V Tid).Resp a) :=
  match a with
  | .inl a =>
    (Pipeline.sem cfg t a n s.base).map fun o =>
      ({ s with base := if s.late t then { o.1 with record := s.base.record } else o.1 }, o.2)
  | .inr (.load h) => some (s, s.closed h.serial)
  | .inr (.cas h) =>
    if s.closed h.serial then some (s, false) else some (shut cfg t h s, true)
  | .inr (.store h) => some (shut cfg t h s, ())

variable (V Tid) in
abbrev handles : System where
  sig := sig V Tid
  State := State V Tid
  Tid := Tid
  Call := Call V
  Result := Pipeline.Result
  decTid := inferInstance
  init := ⟨.init, fun _ => false, fun _ => none, fun _ => false⟩
  enabled s _ c := enabled cfg s c
  begin := begin cfg
  finish := finish cfg
  code := code cfg
  body p := (Pipeline.body cfg p).lift
  sem := sem cfg

end system
end Katas.Weir.Handles
