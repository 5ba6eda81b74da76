import Katas.Weir.Baseline

/-!
# Where a goroutine of a baseline stands

The flow of the two baselines' programs: what a `Start`, a `Stop`, a push and
the consumer do, one place after the other.
-/
namespace Katas.Weir.Baseline
open Katas.Conc Flow

inductive Place (V : Type) where
  | idle
  | out
  | starting
  | arming
  | armed
  | started
  | stopping
  | halting
  | refusing
  | joining
  | joined
  | ended
  | asks (v : V)
  | offers (v : V)
  | told (v : V)
  | pushed (v : V)
  | missed
  | top
  | waits
  | fill
  | room
  | full
  | write
  | takes
  | exit
  | exited

section flow
variable {V : Type} (cfg : Config)

/-- After a receive that may wait. -/
def Received.place : Received → Place V
  | .got => .fill
  | .closed => .exit
  | .waits => .waits

inductive Move : Place V → (a : Act V) → Resp a → Place V → Prop
  | nextAdd : Move .out .nextAdd () .out
  | accepting : Move .starting (.acceptStore true) ()
      (if cfg.kind = .mutex then .arming else .armed)
  | running : Move .arming (.runningStore true) () .armed
  | goConsume : Move .armed .goConsume () .started
  | onceDo (won : Bool) : Move .stopping .onceDo won (if won then .halting else .ended)
  | refuse : Move .halting (.acceptStore false) () .refusing
  | close : cfg.kind = .chan → Move .refusing .closeCh () .joining
  | halt : cfg.kind = .mutex → Move .refusing (.runningStore false) () .joining
  | join : Move .joining .doneWait () .joined
  | onceDone : Move .joined .onceDone () .ended
  | accept (v : V) (b : Bool) : Move (.asks v) .acceptLoad b (if b then .offers v else .missed)
  | send (v : V) (ok : Bool) : cfg.kind = .chan →
      Move (.offers v) (.send v) ok (if ok then .told v else .missed)
  | put (v : V) (ok : Bool) : cfg.kind = .mutex →
      Move (.offers v) (.put v) ok (if ok then .told v else .missed)
  | pushedAdd (v : V) : Move (.told v) .pushedAdd () (.pushed v)
  | droppedAdd : Move .missed .droppedAdd () .missed
  | recv (r : Received) : cfg.kind = .chan → Move .top .recv r r.place
  | wake (got : Bool) : Move .waits .wake got (if got then .fill else .exit)
  | batchLen (n : Nat) : Move .fill .batchLen n (if n < cfg.stageEvents then .room else .full)
  | recvNow (got : Bool) : Move .room .recvNow got (if got then .fill else .full)
  | consumedAdd : Move .full .consumedAdd () .write
  | sinkWrite : Move .write .sinkWrite () .top
  | runs : cfg.kind = .mutex → Move .top .runningLoad true .takes
  | ends : cfg.kind = .mutex → Move .top .runningLoad false .exit
  | take (n : Nat) : Move .takes .take n (if n = 0 then .top else .full)
  | doneClose : Move .exit .doneClose () .exited

def startPlace : Call V → Place V
  | .start => .starting
  | .stop => .stopping
  | .register => .out
  | .push v => .asks v
  | .consume => .top

def endPlace (c : Call V) (r : Result) (g : Place V) : Prop :=
  match c with
  | .start => g = .started
  | .stop => g = .ended
  | .push v => r = .pushed true ∧ g = .pushed v ∨ r = .pushed false ∧ g = .missed
  | .consume => g = .exited
  | .register => g = .out

def procPre : Proc → Place V → Prop
  | .consumeLoop, g => g = .top
  | .fillLoop, g => g = .fill

def procPost : Proc → Place V → Prop
  | .consumeLoop, g => g = .exit
  | .fillLoop, g => g = .full

variable {Tid : Type} [DecidableEq Tid]

abbrev flow (V Tid : Type) [DecidableEq Tid] (cfg : Config) : Flow (baseline V Tid cfg) where
  G := Place V
  idle := .idle
  start _ c := startPlace c
  move _ := Move cfg
  ends _ c r g := endPlace c r g
  pre p _ g := procPre p g
  post p _ _ _ g' := procPost p g'

variable {cfg} {t : Tid}

theorem wp_start : (flow V Tid cfg).wp t (start cfg)
    (fun r g => endPlace (.start : Call V) r g) (.starting : Place V) := by
  refine wp_move_seq fun _ => ⟨_, .accepting, ?_⟩
  have hrest : (flow V Tid cfg).wp t (do op .goConsume; pure .done)
      (fun r g => endPlace (.start : Call V) r g) (.armed : Place V) :=
    wp_move_seq fun _ => ⟨_, .goConsume, rfl⟩
  split
  · exact wp_move_seq fun _ => ⟨_, .running, hrest⟩
  · exact hrest

theorem wp_halt : (flow V Tid cfg).wp t (halt cfg) (fun _ g => g = .joining)
    (.refusing : Place V) := by
  unfold halt
  split
  · rename_i hk
    exact wp_move fun _ => ⟨_, .close hk, rfl⟩
  · rename_i hk
    exact wp_move fun _ => ⟨_, .halt hk, rfl⟩

theorem wp_stop : (flow V Tid cfg).wp t (stop cfg)
    (fun r g => endPlace (.stop : Call V) r g) (.stopping : Place V) := by
  refine wp_move_seq fun won => ⟨_, .onceDo won, ?_⟩
  cases won with
  | false => rfl
  | true =>
    refine wp_move_seq fun _ => ⟨_, .refuse, ?_⟩
    refine wp_seq (wp_mono wp_halt fun _ g hg => ?_)
    subst hg
    refine wp_move_seq fun _ => ⟨_, .join, ?_⟩
    exact wp_move_seq fun _ => ⟨_, .onceDone, rfl⟩

theorem wp_offer (v : V) : (flow V Tid cfg).wp t (offer cfg v)
    (fun ok g => g = if ok then .told v else .missed) (.offers v : Place V) := by
  unfold offer
  split
  · rename_i hk
    exact wp_move fun ok => ⟨_, .send v ok hk, rfl⟩
  · rename_i hk
    exact wp_move fun ok => ⟨_, .put v ok hk, rfl⟩

theorem wp_push (v : V) : (flow V Tid cfg).wp t (push cfg v)
    (fun r g => endPlace (.push v) r g) (.asks v : Place V) := by
  refine wp_move_seq fun b => ⟨_, .accept v b, ?_⟩
  cases b with
  | false => exact .inr ⟨rfl, rfl⟩
  | true =>
    refine wp_seq (wp_mono (wp_offer v) fun ok g hg => ?_)
    subst hg
    cases ok with
    | false => exact wp_move_seq fun _ => ⟨_, .droppedAdd, .inr ⟨rfl, rfl⟩⟩
    | true => exact wp_move_seq fun _ => ⟨_, .pushedAdd v, .inl ⟨rfl, rfl⟩⟩

theorem wp_fillLoop : (flow V Tid cfg).wp t (fillLoop cfg) (fun _ g => g = .full)
    (.fill : Place V) := by
  refine wp_move_seq fun n => ⟨_, .batchLen n, ?_⟩
  split
  · refine wp_move_seq fun got => ⟨_, .recvNow got, ?_⟩
    cases got with
    | false => rfl
    | true => exact wp_proc rfl fun _ _ h => h
  · rfl

theorem wp_receive (hk : cfg.kind = .chan) : (flow V Tid cfg).wp t receive
    (fun got g => g = if got then .fill else .exit) (.top : Place V) := by
  refine wp_move_seq fun r => ⟨_, .recv r hk, ?_⟩
  cases r with
  | got | closed => rfl
  | waits => exact wp_move fun got => ⟨_, .wake got, rfl⟩

/-- From a full batch on. -/
theorem wp_write : (flow V Tid cfg).wp t (do write; proc .consumeLoop) (fun _ g => g = .exit)
    (.full : Place V) := by
  refine wp_move_seq fun _ => ⟨_, .consumedAdd, ?_⟩
  exact wp_move_seq fun _ => ⟨_, .sinkWrite, wp_proc rfl fun _ _ h => h⟩

theorem wp_consumeLoop : (flow V Tid cfg).wp t (consumeLoop cfg) (fun _ g => g = .exit)
    (.top : Place V) := by
  unfold consumeLoop
  split
  · rename_i hk
    refine wp_seq (wp_mono (wp_receive hk) fun got g hg => ?_)
    subst hg
    cases got with
    | false => rfl
    | true =>
      refine wp_proc_seq rfl fun _ g hg => ?_
      obtain rfl : g = .full := hg
      exact wp_write
  · rename_i hk
    refine wp_move_seq fun running => ?_
    cases running with
    | false => exact ⟨_, .ends hk, rfl⟩
    | true =>
      refine ⟨_, .runs hk, wp_move_seq fun n => ⟨_, .take n, ?_⟩⟩
      split
      · exact wp_proc rfl fun _ _ h => h
      · exact wp_write

theorem follows : (flow V Tid cfg).Follows where
  code t c := by
    cases c with
    | start => exact wp_start
    | stop => exact wp_stop
    | register => exact wp_move_seq fun _ => ⟨_, .nextAdd, rfl⟩
    | push v => exact wp_push v
    | consume =>
      refine wp_proc_seq rfl fun _ g hg => ?_
      obtain rfl : g = .exit := hg
      exact wp_move_seq fun _ => ⟨_, .doneClose, rfl⟩
  body t p g h := by
    cases p with
    | consumeLoop =>
      obtain rfl : g = .top := h
      exact wp_consumeLoop
    | fillLoop =>
      obtain rfl : g = .fill := h
      exact wp_fillLoop

end flow

end Katas.Weir.Baseline
