import Katas.Turnstile.Go.ChanSteps

/-!
# The channel queue is a bounded queue

What a client sees of `ChanQueue` is what it may see of a bounded queue with a
shutdown (`fifo`). A push that begins in time may be accepted after a `Close`;
one that begins after a `Close` has returned is refused, unless it selects over
its send and `done`, or sends without asking.
-/
namespace Katas.Turnstile.Chan
open Katas.Conc

section
variable {V Tid : Type} {cfg : Config} [DecidableEq Tid]
variable {s s' : State V Tid} {g g' : Place V} {t : Tid}

/-! ## The bounded queue -/

/-- What the queue holds, and which of its two ends is shut. -/
structure Fifo (V : Type) where
  items : List V
  closing : Bool
  ended : Bool

variable (V Tid cfg) in
/-- The bounded queue. A push fails only if the queue is full, shut or, for the
push that may wait, out of time; only a pop of an empty queue fails, which is
drained once the producers are done. -/
def fifo : Object (queue V Tid cfg) where
  Q := Fifo V
  init := ⟨[], false, false⟩
  does _ c r q q' :=
    match c, r with
    | .tryPush v, .push .ok | .push v, .push .ok =>
      q.items.length < cfg.cap ∧ q.ended = false ∧ q' = { q with items := q.items ++ [v] }
    | .tryPush _, .push .full => q.items.length = cfg.cap ∧ q' = q
    | .tryPush _, .push .closed => q.closing = true ∧ q' = q
    | .push _, .push .closed => cfg.send ≠ .plain ∧ q.closing = true ∧ q' = q
    | .push _, .push .timeout => cfg.send = .fast ∧ q' = q
    | .tryPop, .pop (.ok w) | .pop, .pop (.ok w) =>
      q.items = w :: q'.items ∧ q' = { q with items := q'.items }
    | .tryPop, .pop .drained | .pop, .pop .drained =>
      q.items = [] ∧ q.ended = true ∧ q' = q
    | .tryPop, .pop .empty => q.items = [] ∧ q.ended = false ∧ q' = q
    | .close, .closed => q' = { q with closing := true }
    | .producersDone, .producersDone => q' = { q with ended := true }
    | .isClosed, .isClosed b => b = q.closing ∧ q' = q
    | .occupancy, .occupancy n => n = q.items.length ∧ q' = q
    | _, _ => False

def State.fifo (s : State V Tid) : Fifo V := ⟨s.buf, s.closing, s.chClosed⟩

variable (V Tid cfg) in
/-- How far the call is at a place; a `Close` that has claimed is done. -/
def Place.status : Place V → Status (queue V Tid cfg)
  | .idle => .idle
  | .asks v | .tries v => .asked (.tryPush v)
  | .sends v | .selects v | .fastAsks v | .fastTries v | .clock v | .waits v => .asked (.push v)
  | .tryRecv => .asked .tryPop
  | .recv => .asked .pop
  | .claims => .asked .close
  | .closesDone => .answered .closed
  | .closesCh => .asked .producersDone
  | .looks => .asked .isClosed
  | .counts => .asked .occupancy
  | .answers _ r => .answered r

variable (cfg) in
/-- What a step does of its call: nothing, or all of it. -/
def Effect (s s' : State V Tid) (t : Tid) (g g' : Place V) : Prop :=
  g'.status V Tid cfg = g.status V Tid cfg ∧ s'.fifo = s.fifo ∨
    ∃ c r, g.status V Tid cfg = .asked c ∧ (fifo V Tid cfg).does t c r s.fifo s'.fifo ∧
      g'.status V Tid cfg = .answered r

theorem Sender.does {v : V} {c : Call V} (hg : Sender g v c) (hch : s.chClosed = false)
    (hroom : s.buf.length < cfg.cap) :
    (fifo V Tid cfg).does t c (.push .ok) s.fifo { s with buf := s.buf ++ [v] }.fifo := by
  cases hg <;> exact ⟨hroom, hch, rfl⟩

theorem Sender.status {v : V} {c : Call V} (hg : Sender g v c) :
    g.status V Tid cfg = .asked c := by
  cases hg <;> rfl

theorem Effect.all {c : Call V} {r : Result V} (hask : g.status V Tid cfg = .asked c)
    (hdo : (fifo V Tid cfg).does t c r s.fifo s'.fifo) : Effect cfg s s' t g (.answers c r) :=
  .inr ⟨c, r, hask, hdo, rfl⟩

/-- Every step does nothing of its call, or all of it. -/
theorem Step.effect {γ : Tid → Place V} (h : Step cfg s g s' g') (hi : Inv cfg s γ)
    (hg : γ t = g) : Effect cfg s s' t g g' := by
  have hat := hi.at_ t
  rw [hg] at hat
  cases h with
  | puts hs hch hroom => exact .all hs.status (hs.does hch hroom)
  | panics hs hch =>
    have := (hi.open_ (hs.at_ hat).1).2
    exact absurd (this.symm.trans hch) Bool.false_ne_true
  | full ht hch hfull =>
    cases ht with
    | tries v => exact .all rfl ⟨Nat.le_antisymm hi.room hfull, rfl⟩
    | fastTries v => exact .inl ⟨rfl, rfl⟩
  | goesOn ha hc => cases ha <;> exact .inl ⟨rfl, rfl⟩
  | refuses ha hc =>
    cases ha with
    | asks v => exact .all rfl ⟨hc, rfl⟩
    | fastAsks v => exact .all rfl ⟨by rw [hat.2]; decide, hc, rfl⟩
  | hears hl hd =>
    have hc := hi.doneClosing hd
    cases hl with
    | selects v => exact .all rfl ⟨by rw [hat.2]; decide, hc, rfl⟩
    | waits v => exact .all rfl ⟨by rw [hat.2.2]; decide, hc, rfl⟩
  | expires ht => cases ht <;> exact .all rfl ⟨hat.2.2, rfl⟩
  | early v => exact .inl ⟨rfl, rfl⟩
  | takes hr hb => cases hr <;> exact .all rfl ⟨hb, rfl⟩
  | drained hr hb hch => cases hr <;> exact .all rfl ⟨hb, hch, rfl⟩
  | empty hb hch => exact .all rfl ⟨hb, hch, rfl⟩
  | wins hc => exact .inr ⟨.close, .closed, rfl, rfl, rfl⟩
  | loses hc =>
    refine .all rfl ?_
    show s.fifo = { s.fifo with closing := true }
    rw [← hc]
    rfl
  | closesDone hd => exact .inl ⟨rfl, rfl⟩
  | closesTwice hd => exact absurd (hat.2.symm.trans hd) Bool.false_ne_true
  | closesCh hch => exact .all rfl rfl
  | closesChTwice hd => exact absurd (hat.2.symm.trans hd) Bool.false_ne_true
  | looks => exact .all rfl ⟨rfl, rfl⟩
  | counts => exact .all rfl ⟨rfl, rfl⟩

theorem status_start (c : Call V) :
    (startPlace cfg c).status V Tid cfg = .asked c := by
  cases c with
  | push v =>
    unfold startPlace
    dsimp only
    cases cfg.send <;> rfl
  | _ => rfl

theorem status_upd {γ : Tid → Place V} {st : Tid → Status (queue V Tid cfg)}
    (h : ∀ u, st u = (γ u).status V Tid cfg) {x : Status (queue V Tid cfg)}
    (hg : x = g.status V Tid cfg) (u : Tid) : upd st t x u = (upd γ t g u).status V Tid cfg := by
  by_cases hu : u = t
  · subst hu
    rw [upd_self, upd_self]
    exact hg
  · rw [upd_ne _ _ hu, upd_ne _ _ hu]
    exact h u

theorem simulates : (flow V Tid cfg).Simulates (fun _ _ _ => True) (fifo V Tid cfg)
    fun s γ q st => q = State.fifo s ∧ ∀ u, st u = Place.status V Tid cfg (γ u) where
  init := ⟨rfl, fun _ => rfl⟩
  begin := by
    rintro s γ q st - ⟨hq, hst⟩ t c hidle -
    refine ⟨by rw [hst, hidle]; rfl, ?_, status_upd hst (status_start c).symm⟩
    rw [hq]
    cases c <;> rfl
  move := by
    rintro s γ q st hr ⟨rfl, hst⟩ t a n s' r g - hs hm
    have hi := inv_keeps.reach hr
    obtain ⟨hsame, hq⟩ | ⟨c, r', hask, hdo, hans⟩ :=
      (move_step (t := t) (n := n) hs hm).effect hi rfl
    · refine .inl ⟨hq.symm, fun u => ?_⟩
      have h := status_upd (t := t) hst ((hst t).trans hsame.symm) u
      rwa [upd_eq_self] at h
    · exact .inr ⟨c, r', s'.fifo, (hst t).trans hask, hdo, rfl, status_upd hst hans.symm⟩
  finish := by
    rintro s γ q st - ⟨hq, hst⟩ t c r he
    have hg : γ t = .answers c r := he
    refine ⟨by rw [hst, hg]; rfl, ?_, status_upd hst rfl⟩
    rw [hq]
    cases c <;> rfl

/-- **The channel queue is a bounded queue with a shutdown**, however its calls
are interleaved, if the client calls `ProducersDone` once and after the last push.
No send panics and no channel is closed twice, and a pop is told that the queue
is drained only when it is empty and nobody pushes any more. -/
theorem chan_refines_fifo {es : List (Conc.Event (queue V Tid cfg))}
    {x : System.Config (queue V Tid cfg)} (hx : System.Trace es x) :
    (∃ st, (fifo V Tid cfg).Trace es x.state.fifo st) ∧ x.state.buf.length ≤ cfg.cap ∧
      (∀ t c r, x.thread t = .run c (.ret r) → r ≠ .panicked) ∧
      ∀ t c, x.thread t = .run c (.ret (.pop .drained)) →
        x.state.buf = [] ∧ x.state.pushing = [] := by
  obtain ⟨γ, q, st, hr, hst, ⟨rfl, -⟩, htrace⟩ := follows.refines simulates hx
  have hi := inv_keeps.reach hr
  have hat : ∀ t c r, x.thread t = .run c (.ret r) → (Place.answers c r).At cfg x.state t := by
    intro t c r hth
    have hg : γ t = .answers c r := by
      have := hst t
      rw [hth] at this
      exact this
    exact hg ▸ hi.at_ t
  refine ⟨⟨st, htrace⟩, hi.room, fun t c r hth => (hat t c r hth).1, fun t c hth => ?_⟩
  obtain ⟨hch, hb⟩ := (hat t c _ hth).2.2.1 rfl
  exact ⟨hb, hi.ended (hi.chEnded hch)⟩

/-- A push that begins after a `Close` has returned is refused, and so none is
accepted, but for a `Push` that selects over its send and `done`, or that sends
without asking. -/
theorem late_push_refused {x : System.Config (queue V Tid cfg)}
    (hx : (queue V Tid cfg).Reachable x) :
    (∀ t c r, x.thread t = .run c (.ret r) → c.pushes = true → x.state.late t = true →
      r = .push .closed ∨ cfg.send ≠ .fast ∧ ∃ v, c = .push v) ∧
      ∀ c ∈ x.state.afterClose, cfg.send ≠ .fast ∧ ∃ v, c = .push v := by
  obtain ⟨γ, hr, hst⟩ := follows.stands hx.reachableIf
  have hi := inv_keeps.reach hr
  refine ⟨fun t c r hth hc hl => ?_, hi.afterClose⟩
  have hg : γ t = .answers c r := by
    have := hst t
    rw [hth] at this
    exact this
  have hat := hi.at_ t
  rw [hg] at hat
  exact (hat.2.2.2 hc).2 hl

/-- Who stands before the close of a channel is about to do it. -/
theorem closes_next {γ : Tid → Place V} {x : System.Config (queue V Tid cfg)}
    (hst : ∀ t, (flow V Tid cfg).Stands t (γ t) (x.thread t)) (t : Tid) :
    (γ t = .closesDone → System.AtOp (Y := queue V Tid cfg) x t .closeDone) ∧
      (γ t = .closesCh → System.AtOp (Y := queue V Tid cfg) x t .closeCh) := by
  have hact : (γ t = .closesDone ∨ γ t = .closesCh) → ∃ a, System.AtOp x t a ∧
      ∀ r, ∃ g', Move (γ t) a r g' := by
    intro hg
    refine (hst t).act ?_ (fun c r h => ?_) fun p h => h
    · rintro h
      obtain hg | hg := hg <;> (rw [hg] at h; cases h)
    · have h : γ t = .answers c r := h
      obtain hg | hg := hg <;> (rw [hg] at h; cases h)
  refine ⟨fun hg => ?_, fun hg => ?_⟩
  · obtain ⟨a, hat, hm⟩ := hact (.inl hg)
    rw [hg] at hm
    cases a with
    | closeDone => exact hat
    | closingLoad | closingCas | closeCh | nowBefore => obtain ⟨_, hm⟩ := hm true; cases hm
    | trySend | send | selectSend => obtain ⟨_, hm⟩ := hm .send; cases hm
    | tryRecv | recv => obtain ⟨_, hm⟩ := hm .empty; cases hm
    | len => obtain ⟨_, hm⟩ := hm 0; cases hm
  · obtain ⟨a, hat, hm⟩ := hact (.inr hg)
    rw [hg] at hm
    cases a with
    | closeCh => exact hat
    | closingLoad | closingCas | closeDone | nowBefore => obtain ⟨_, hm⟩ := hm true; cases hm
    | trySend | send | selectSend => obtain ⟨_, hm⟩ := hm .send; cases hm
    | tryRecv | recv => obtain ⟨_, hm⟩ := hm .empty; cases hm
    | len => obtain ⟨_, hm⟩ := hm 0; cases hm

omit [DecidableEq Tid] in
theorem sendSem_none {v : V} (h : sendSem cfg v s = none) (hr : s.buf.length ≤ cfg.cap) :
    s.chClosed = false ∧ s.buf.length = cfg.cap := by
  obtain ⟨-, he⟩ | ⟨-, -, he⟩ | ⟨hch, hfull, -⟩ := sendSem_cases cfg v s
  · rw [he] at h; cases h
  · rw [he] at h; cases h
  · exact ⟨hch, Nat.le_antisymm hr hfull⟩

/-- Who cannot go on: a `Push` without a deadline, at a full queue, and then if it
selects, no `Close` has claimed or one is about to close `done`; or a `Pop` at an
empty queue, and `ProducersDone` was not called or is about to close the channel. -/
theorem nobody_stranded {x : System.Config (queue V Tid cfg)}
    (hx : (queue V Tid cfg).Reachable x) {t : Tid} {a : Act V}
    (hat : System.AtOp (Y := queue V Tid cfg) x t a) (hstuck : ∀ n, sem cfg t a n x.state = none) :
    (∃ v, a = .send v ∧ x.state.buf.length = cfg.cap) ∨
      (∃ v, a = .selectSend v false ∧ x.state.buf.length = cfg.cap ∧
        (x.state.closing = false ∨ ∃ u, System.AtOp (Y := queue V Tid cfg) x u .closeDone)) ∨
      a = .recv ∧ x.state.buf = [] ∧
        (x.state.ended = false ∨ ∃ u, System.AtOp (Y := queue V Tid cfg) x u .closeCh) := by
  obtain ⟨γ, hr, hst⟩ := follows.stands hx.reachableIf
  have hi := inv_keeps.reach hr
  cases a with
  | send v => exact .inl ⟨v, rfl, (sendSem_none (hstuck 0) hi.room).2⟩
  | selectSend v timer =>
    have hfull := (sendSem_none (v := v) (hstuck 0) hi.room).2
    have hdone : x.state.done = false := by
      cases hd : x.state.done with
      | false => rfl
      | true =>
        have h : (if x.state.done then some (x.state, Case.done) else none) = none := hstuck 1
        rw [hd] at h
        cases h
    have htimer : timer = false := by
      cases timer with
      | false => rfl
      | true => cases hstuck 2
    subst htimer
    refine .inr (.inl ⟨v, rfl, hfull, ?_⟩)
    cases hc : x.state.closing with
    | false => exact .inl rfl
    | true =>
      obtain hd | ⟨u, hu⟩ := hi.owesDone hc
      · exact absurd (hdone.symm.trans hd) Bool.false_ne_true
      · exact .inr ⟨u, (closes_next hst u).1 hu⟩
  | recv =>
    have h : recvSem x.state = none := hstuck 0
    obtain ⟨w, rest, -, he⟩ | ⟨-, -, he⟩ | ⟨hb, hch, -⟩ := recvSem_cases x.state
    · rw [he] at h; cases h
    · rw [he] at h; cases h
    · refine .inr (.inr ⟨rfl, hb, ?_⟩)
      cases ho : x.state.ended with
      | false => exact .inl rfl
      | true =>
        obtain hc | ⟨u, hu⟩ := hi.owesCh ho
        · exact absurd (hch.symm.trans hc) Bool.false_ne_true
        · exact .inr ⟨u, (closes_next hst u).2 hu⟩
  | _ => cases hstuck 0

end

/-! ## Two goroutines -/

abbrev two (send : Send) : System := queue Nat (Fin 2) ⟨1, by decide, send⟩

/-- `t` begins `c` and does `n` steps. -/
def does {send : Send} (t : Fin 2) (c : Call Nat) (n : Nat) : List (System.Label (two send)) :=
  .invoke t c :: List.replicate n (.step t 0)

/-- The call that `t` is about to return from, and its result. -/
def ends {send : Send} (x : System.Config (two send)) (t : Fin 2) : Option (Call Nat × Result Nat) :=
  match x.thread t with
  | .run c (.ret r) => some (c, r)
  | _ => none

theorem of_ends {send : Send} {x : System.Config (two send)} {t : Fin 2} {c : Call Nat}
    {r : Result Nat} (h : ends x t = some (c, r)) : x.thread t = .run c (.ret r) := by
  unfold ends at h
  split at h
  · rename_i c' r' hth
    cases h
    exact hth
  · cases h

/-- A value is pushed, the queue is shut, and the value is popped; the next pop
is told that there are no more. -/
def shutsDown : List (System.Label (two .fast)) :=
  does 0 (.push 7) 3 ++ does 1 .close 3 ++ does 1 .producersDone 2 ++ does 0 .pop 2 ++ does 0 .pop 1

theorem chan_refines_fifo_two : ∃ es, ∃ x : System.Config (two .fast), System.Trace es x ∧
    x.thread 0 = .run .pop (.ret (.pop .drained)) ∧ x.state.buf = [] ∧ x.state.pushing = [] := by
  obtain ⟨x, hx, hp⟩ := System.reachable_of_test shutsDown
    (fun x => decide (ends x 0 = some (.pop, .pop .drained))) (by decide +kernel)
  obtain ⟨es, htrace⟩ := hx.trace
  have hc := of_ends (of_decide_eq_true hp)
  exact ⟨es, x, htrace, hc, (chan_refines_fifo htrace).2.2.2 0 .pop hc⟩

/-- A push that begins after a `Close` has returned. -/
def pushesLate (send : Send) (n : Nat) : List (System.Label (two send)) :=
  does 1 .close 3 ++ does 0 (.push 7) n

theorem late_push_refused_two : ∃ x : System.Config (two .fast), (two .fast).Reachable x ∧
    ∃ r, x.thread 0 = .run (.push 7) (.ret r) ∧ r = .push .closed := by
  obtain ⟨x, hx, hp⟩ := System.reachable_of_test (pushesLate .fast 1)
    (fun x => decide ((ends x 0).map Prod.fst = some (.push 7)) && x.state.late 0)
    (by decide +kernel)
  rw [Bool.and_eq_true, decide_eq_true_eq, Option.map_eq_some_iff] at hp
  obtain ⟨⟨⟨c, r⟩, hends, rfl⟩, hlate⟩ := hp
  have hth := of_ends hends
  obtain h | h := (late_push_refused hx).1 0 _ r hth rfl hlate
  · exact ⟨x, hx, r, hth, h⟩
  · exact absurd rfl h.1

/-- The two other kinds of `Push` accept it. -/
theorem late_push_accepted :
    (∃ x : System.Config (two .select), (two .select).Reachable x ∧ x.state.afterClose = [.push 7]) ∧
      ∃ x : System.Config (two .plain), (two .plain).Reachable x ∧
        x.state.afterClose = [.push 7] := by
  obtain ⟨x, hx, hp⟩ := System.reachable_of_test (pushesLate .select 2)
    (fun x => decide (x.state.afterClose = [.push 7])) (by decide +kernel)
  obtain ⟨y, hy, hq⟩ := System.reachable_of_test (pushesLate .plain 2)
    (fun x => decide (x.state.afterClose = [.push 7])) (by decide +kernel)
  exact ⟨⟨x, hx, of_decide_eq_true hp⟩, y, hy, of_decide_eq_true hq⟩

/-- A `Push` that finds the queue full. -/
def fills : List (System.Label (two .select)) := does 0 (.push 7) 2 ++ does 1 (.push 8) 0

/-- Does `t` stand before the select of `v`? -/
def waits (x : System.Config (two .select)) (t : Fin 2) (v : Nat) : Bool :=
  match System.next x t with
  | some (.selectSend w false) => w == v
  | _ => false

theorem of_waits {x : System.Config (two .select)} {t : Fin 2} {v : Nat} (h : waits x t v = true) :
    System.AtOp x t (.selectSend v false) := by
  rw [System.atOp_iff]
  unfold waits at h
  split at h
  · rename_i w hw
    rw [hw, eq_of_beq h]
  · cases h

theorem nobody_stranded_two : ∃ x : System.Config (two .select), (two .select).Reachable x ∧
    System.AtOp x 1 (.selectSend 8 false) ∧
      (x.state.closing = false ∨ ∃ u, System.AtOp x u .closeDone) := by
  obtain ⟨x, hx, hp⟩ := System.reachable_of_test fills (fun x => waits x 1 8 &&
    decide (x.state.chClosed = false ∧ x.state.buf.length = 1 ∧ x.state.done = false))
    (by decide +kernel)
  rw [Bool.and_eq_true, decide_eq_true_eq] at hp
  obtain ⟨hw, hch, hfull, hdone⟩ := hp
  have hat := of_waits hw
  have hstuck : ∀ n, sem ⟨1, by decide, .select⟩ (1 : Fin 2) (.selectSend 8 false) n x.state =
      none := by
    intro n
    match n with
    | 0 =>
      show sendSem _ 8 x.state = none
      unfold sendSem
      rw [hch, if_neg Bool.false_ne_true, if_neg (by rw [hfull]; decide)]
    | 1 =>
      show (if x.state.done then some (x.state, Case.done) else none) = none
      rw [hdone]
      rfl
    | n + 2 => rfl
  obtain ⟨v, h, -⟩ | ⟨v, -, -, h⟩ | ⟨h, -⟩ := nobody_stranded hx hat hstuck
  · cases h
  · exact ⟨x, hx, hat, h⟩
  · cases h

end Katas.Turnstile.Chan
