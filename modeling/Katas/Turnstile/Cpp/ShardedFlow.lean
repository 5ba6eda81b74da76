import Katas.Turnstile.Cpp.ShardedQueue

/-!
# Where a thread of the sharded queue stands

The flow of the queue's programs: which operation comes where. A producer
carries the position it has read in the tail word and what it knows about
the room there; a consumer the ring of its it looks at, and how many of them
it has found closed and empty.
-/
namespace Katas.Turnstile.Sharded
open Katas.Conc Flow
open Katas.Turnstile.Cpp (kSpins)

/-- `tailed`: the tail word was open at `pos`. `seen`: the head was `h`.
`heads`, `stale`, `fresh`, `ready`, `holds`: of ring `i` of the consumer.
`checks`: the first `k` rings are closed and empty (0: nothing is known). -/
inductive Place (V Tid : Type) where
  | idle
  | out
  | pushing (p : Nat) (v : V)
  | tailed (p : Nat) (v : V) (pos : Nat)
  | full (p : Nat) (v : V) (pos : Nat)
  | seen (p : Nat) (v : V) (pos h : Nat)
  | room (p : Nat) (v : V) (pos : Nat)
  | wrote (p : Nat) (v : V) (pos : Nat)
  | pushed (p : Nat) (v : V)
  | heads (c i h : Nat)
  | stale (c i h : Nat)
  | fresh (c i h pos : Nat)
  | ready (c i h : Nat)
  | holds (c i h : Nat) (e : Item V Tid)
  | took (c : Nat) (e : Item V Tid)
  | checks (c k : Nat)
  | checked (c k pos : Nat)

section
variable {V Tid : Type} (g : Shape)

inductive Move : Place V Tid → (a : Act V) → Resp Tid a → Place V Tid → Prop
  | count (w : Side) (a : CountAct) (r : a.Resp) {x : Place V Tid} : Move x (.count w a) r x
  | expired (r : Bool) {x : Place V Tid} : Move x .expired r x
  | tailOr (p : Nat) : Move .out (.tailOr p) () .out
  | tailLoad (p : Nat) (v : V) (pos : Nat) (closed : Bool) :
      Move (.pushing p v) (.tailLoad p) ⟨pos, closed⟩
        (if closed then .pushing p v else .tailed p v pos)
  | cachedHeadLoad (p : Nat) (v : V) (pos h : Nat) : Move (.tailed p v pos) (.cachedHeadLoad p) h
      (if pos - h = g.ring.n then .full p v pos else .room p v pos)
  | headLoad (p : Nat) (v : V) (pos h : Nat) :
      Move (.full p v pos) (.headLoad p) h (.seen p v pos h)
  | cachedHeadStore (p : Nat) (v : V) (pos h : Nat) :
      Move (.seen p v pos h) (.cachedHeadStore p h) ()
        (if pos - h = g.ring.n then .pushing p v else .room p v pos)
  | slotWrite (p : Nat) (v : V) (pos : Nat) :
      Move (.room p v pos) (.slotWrite p pos v) () (.wrote p v pos)
  | tailCas (p : Nat) (v : V) (pos : Nat) (won : Bool) :
      Move (.wrote p v pos) (.tailCas p ⟨pos, false⟩) won
        (if won then .pushed p v else .pushing p v)
  | nextLoad (c i : Nat) : Move (.checks c 0) (.nextLoad c) i (.checks c 0)
  | lookTail (c p : Nat) (word : TailWord) : Move (.checks c 0) (.tailLoad p) word (.checks c 0)
  | lookHead (c p h : Nat) : Move (.checks c 0) (.headLoad p) h (.checks c 0)
  | popHead (c i h : Nat) : i < g.kOwned →
      Move (.checks c 0) (.headLoad (g.ring_of c i)) h (.heads c i h)
  | cachedTailLoad (c i h k : Nat) : Move (.heads c i h) (.cachedTailLoad (g.ring_of c i)) k
      (if h = k then .stale c i h else .ready c i h)
  | popTail (c i h : Nat) (word : TailWord) :
      Move (.stale c i h) (.tailLoad (g.ring_of c i)) word (.fresh c i h word.pos)
  | cachedTailStore (c i h pos : Nat) :
      Move (.fresh c i h pos) (.cachedTailStore (g.ring_of c i) pos) ()
        (if h = pos then .checks c 0 else .ready c i h)
  | slotRead (c i h : Nat) (e : Item V Tid) :
      Move (.ready c i h) (.slotRead (g.ring_of c i) h) e (.holds c i h e)
  | headStore (c i h : Nat) (e : Item V Tid) :
      Move (.holds c i h e) (.headStore (g.ring_of c i) h) () (.took c e)
  | nextStore (c i : Nat) (e : Item V Tid) : Move (.took c e) (.nextStore c i) () (.took c e)
  | checkTail (c k pos : Nat) (closed : Bool) : k < g.kOwned →
      Move (.checks c k) (.tailLoad (g.ring_of c k)) ⟨pos, closed⟩
        (if closed then .checked c k pos else .checks c 0)
  | checkHead (c k pos h : Nat) : Move (.checked c k pos) (.headLoad (g.ring_of c k)) h
      (if h = pos then .checks c (k + 1) else .checks c 0)

def startPlace : Call V → Place V Tid
  | .try_push p v | .push p v => .pushing p v
  | .try_pop c | .pop c => .checks c 0
  | .close => .out

/-- Where a push ends. -/
def pushEnd (p : Nat) (v : V) (r : Push) (x : Place V Tid) : Prop :=
  if r = .ok then x = .pushed p v else x = .pushing p v

/-- Where a pop ends. -/
def popEnd (c : Nat) (r : Pop (Item V Tid)) (x : Place V Tid) : Prop :=
  match r with
  | .ok e => x = .took c e
  | .drained => x = .checks c g.kOwned
  | _ => x = .checks c 0

def endPlace (k : Call V) (r : Result (Item V Tid)) (x : Place V Tid) : Prop :=
  match k with
  | .try_push p v | .push p v => ∃ q, r = .push q ∧ pushEnd p v q x
  | .try_pop c | .pop c => ∃ q, r = .pop q ∧ popEnd g c q x
  | .close => r = .closed ∧ x = .out

def procPre : Proc V → Place V Tid → Prop
  | .pushLoop p v, x => x = .pushing p v
  | .popLoop c, x => x = .checks c 0
  | .waitLoop _ _, _ => True

def procPost : (p : Proc V) → Place V Tid → Ret Tid p → Place V Tid → Prop
  | .pushLoop p v, _, r, y => pushEnd p v r y
  | .popLoop c, _, r, y => popEnd g c r y
  | .waitLoop _ _, x, _, y => y = x

variable [Inhabited V] [Inhabited Tid] [DecidableEq Tid]

abbrev flow (V Tid : Type) [Inhabited V] [Inhabited Tid] [DecidableEq Tid] (g : Shape) :
    Flow (queue V Tid g) where
  G := Place V Tid
  idle := .idle
  start _ k := startPlace k
  move _ := Move g
  ends _ k r x := endPlace g k r x
  pre p _ x := procPre p x
  post p _ x r y := procPost g p x r y

variable {g} {t : Tid} {x : Place V Tid}

/-! ## The event counts -/

theorem wp_count {w : Side} {a : CountAct} {α : Type} {f : a.Resp → M V Tid α}
    {Q : α → Place V Tid → Prop} (h : ∀ r, (flow V Tid g).wp t (f r) Q x) :
    (flow V Tid g).wp t (op (.count w a) >>= f) Q x :=
  wp_move_seq fun r => ⟨x, .count w a r, h r⟩

theorem wp_expired {α : Type} {f : Bool → M V Tid α} {Q : α → Place V Tid → Prop}
    (h : ∀ r, (flow V Tid g).wp t (f r) Q x) :
    (flow V Tid g).wp t (op .expired >>= f) Q x :=
  wp_move_seq fun r => ⟨x, .expired r, h r⟩

theorem wp_prepare_wait {w : Side} : (flow V Tid g).wp t (prepare_wait w) (fun _ y => y = x) x :=
  wp_count fun _ => wp_count fun _ => wp_count fun _ => rfl

theorem wp_cancel_wait {w : Side} : (flow V Tid g).wp t (cancel_wait w) (fun _ y => y = x) x :=
  fun r => ⟨x, .count w .waitersSub r, rfl⟩

theorem wp_waitLoop {w : Side} {key : Nat} :
    (flow V Tid g).wp t (waitLoop w key) (fun _ y => y = x) x := by
  refine wp_count fun e => ?_
  split
  · refine wp_expired fun late => ?_
    cases late with
    | true => rfl
    | false =>
      refine wp_count fun _ => wp_count fun _ => ?_
      exact wp_proc trivial fun _ _ h => h
  · rfl

theorem wp_wait {w : Side} {key : Nat} :
    (flow V Tid g).wp t (wait w key) (fun _ y => y = x) x := by
  refine wp_proc_seq trivial fun woke y h => ?_
  obtain rfl : y = x := h
  exact wp_count fun _ => wp_count fun _ => rfl

theorem wp_notify_one {w : Side} : (flow V Tid g).wp t (notify_one w) (fun _ y => y = x) x := by
  refine wp_count fun n => ?_
  split
  · rfl
  · refine wp_count fun pending => ?_
    cases pending with
    | true => rfl
    | false =>
      refine wp_count fun pending => ?_
      cases pending with
      | true => rfl
      | false => exact wp_count fun _ => wp_count fun _ => rfl

theorem wp_notify_all {w : Side} : (flow V Tid g).wp t (notify_all w) (fun _ y => y = x) x :=
  wp_count fun _ r => ⟨x, .count w .wakeAll r, rfl⟩

/-- A program that leads nowhere else, and what follows it. -/
theorem wp_same {α β : Type} {p : M V Tid α} {f : α → M V Tid β} {Q : β → Place V Tid → Prop}
    (hp : (flow V Tid g).wp t p (fun _ y => y = x) x) (h : ∀ a, (flow V Tid g).wp t (f a) Q x) :
    (flow V Tid g).wp t (p >>= f) Q x :=
  wp_seq (wp_mono hp fun a _ he => he ▸ h a)

/-! ## The producers -/

theorem wp_publish {p pos : Nat} {v : V} : (flow V Tid g).wp t (publish g p ⟨pos, false⟩ v)
    (fun r y => r ≠ .full ∧ pushEnd p v r y) (.room p v pos) := by
  refine wp_move_seq fun _ => ⟨_, .slotWrite p v pos, ?_⟩
  refine wp_move_seq fun won => ⟨_, .tailCas p v pos won, ?_⟩
  cases won with
  | false => exact ⟨nofun, rfl⟩
  | true => exact wp_same wp_notify_one fun _ => ⟨nofun, rfl⟩

theorem wp_try_push {p : Nat} {v : V} : (flow V Tid g).wp t (try_push g p v)
    (fun r y => pushEnd p v r y) (.pushing p v) := by
  refine wp_move_seq fun word => ?_
  obtain ⟨pos, closed⟩ := word
  refine ⟨_, .tailLoad p v pos closed, ?_⟩
  cases closed with
  | true => exact rfl
  | false =>
    have hpub : (flow V Tid g).wp t (publish g p ⟨pos, false⟩ v) (fun r y => pushEnd p v r y)
        (.room p v pos) := wp_mono wp_publish fun _ _ h => h.2
    refine wp_move_seq fun cached => ⟨_, .cachedHeadLoad p v pos cached, ?_⟩
    dsimp only
    split
    · refine wp_move_seq fun h => ⟨_, .headLoad p v pos h, ?_⟩
      refine wp_move_seq fun _ => ⟨_, .cachedHeadStore p v pos h, ?_⟩
      split
      · exact rfl
      · exact hpub
    · exact hpub

theorem wp_pushLoop {p : Nat} {v : V} : (flow V Tid g).wp t (pushLoop g p v)
    (fun r y => pushEnd p v r y) (.pushing p v) := by
  refine wp_seq (wp_mono wp_try_push fun r y h => ?_)
  dsimp only
  split
  · exact h
  · rename_i hr
    obtain rfl : r = .full := Classical.not_not.mp hr
    obtain rfl : y = .pushing p v := h
    refine wp_same wp_prepare_wait fun key => ?_
    refine wp_seq (wp_mono wp_try_push fun r y h => ?_)
    split
    · exact wp_same wp_cancel_wait fun _ => h
    · rename_i hr
      obtain rfl : r = .full := Classical.not_not.mp hr
      obtain rfl : y = .pushing p v := h
      refine wp_expired fun late => ?_
      cases late with
      | true => exact wp_same wp_cancel_wait fun _ => rfl
      | false => exact wp_same wp_wait fun _ => wp_proc rfl fun _ _ h => h

/-! ## The consumers -/

/-- Where an attempt to pop ends. -/
def attempt (c : Nat) (r : Option (Item V Tid)) (x : Place V Tid) : Prop :=
  match r with
  | some e => x = .took c e
  | none => x = .checks c 0

theorem wp_takeOne {c i h : Nat} : (flow V Tid g).wp t (takeOne g (g.ring_of c i) h)
    (fun r y => ∃ e, r = some e ∧ y = .took c e) (.ready c i h) := by
  refine wp_move_seq fun e => ⟨_, .slotRead c i h e, ?_⟩
  refine wp_move_seq fun _ => ⟨_, .headStore c i h e, ?_⟩
  split
  · exact wp_same wp_notify_one fun _ => ⟨e, rfl, rfl⟩
  · exact ⟨e, rfl, rfl⟩

theorem wp_pop_ring {c i : Nat} (hi : i < g.kOwned) :
    (flow V Tid g).wp t (pop_ring g (g.ring_of c i)) (attempt c) (.checks c 0) := by
  have htake : ∀ h, (flow V Tid g).wp t (takeOne g (g.ring_of c i) h) (attempt c) (.ready c i h) := by
    intro h
    refine wp_mono wp_takeOne fun r y hr => ?_
    obtain ⟨e, rfl, rfl⟩ := hr
    exact rfl
  refine wp_move_seq fun h => ⟨_, .popHead c i h hi, ?_⟩
  refine wp_move_seq fun k => ⟨_, .cachedTailLoad c i h k, ?_⟩
  split
  · refine wp_move_seq fun word => ⟨_, .popTail c i h word, ?_⟩
    refine wp_move_seq fun _ => ⟨_, .cachedTailStore c i h word.pos, ?_⟩
    split
    · exact rfl
    · exact htake h
  · exact htake h

theorem wp_tryFrom {c next : Nat} (k : Nat) (hk : k ≤ g.kOwned) :
    (flow V Tid g).wp t (tryFrom g c next k) (attempt c) (.checks c 0) := by
  induction k with
  | zero => exact rfl
  | succ k ih =>
    have hlt := Nat.mod_lt (next + (g.kOwned - (k + 1))) (show 0 < g.kOwned by omega)
    refine wp_seq (wp_mono (wp_pop_ring hlt) fun r y h => ?_)
    cases r with
    | some e =>
      obtain rfl : y = .took c e := h
      exact wp_move_seq fun _ => ⟨_, .nextStore c _ e, rfl⟩
    | none =>
      obtain rfl : y = .checks c 0 := h
      exact ih (by omega)

theorem wp_tryPop {c : Nat} : (flow V Tid g).wp t (tryPop g c) (attempt c) (.checks c 0) :=
  wp_move_seq fun next => ⟨_, .nextLoad c next, wp_tryFrom _ (Nat.le_refl _)⟩

theorem wp_try_pop {c : Nat} :
    (flow V Tid g).wp t (try_pop g c) (fun r y => popEnd g c r y) (.checks c 0) := by
  refine wp_seq (wp_mono wp_tryPop fun r y h => ?_)
  cases r <;> exact h

theorem wp_any_published {c : Nat} (k : Nat) :
    (flow V Tid g).wp t (any_published g c k) (fun _ y => y = .checks c 0) (.checks c 0) := by
  induction k with
  | zero => rfl
  | succ k ih =>
    refine wp_move_seq fun word => ⟨_, .lookTail c _ word, ?_⟩
    refine wp_move_seq fun h => ⟨_, .lookHead c _ h, ?_⟩
    split
    · rfl
    · exact ih

theorem wp_any_closed {c : Nat} (k : Nat) :
    (flow V Tid g).wp t (any_closed g c k) (fun _ y => y = .checks c 0) (.checks c 0) := by
  induction k with
  | zero => rfl
  | succ k ih =>
    refine wp_move_seq fun word => ⟨_, .lookTail c _ word, ?_⟩
    split
    · rfl
    · exact ih

theorem wp_drained {c : Nat} (k : Nat) (hk : k ≤ g.kOwned) :
    (flow V Tid g).wp t (drained g c k)
      (fun r y => y = if r = true then .checks c g.kOwned else .checks c 0)
      (.checks c (g.kOwned - k)) := by
  induction k with
  | zero => rfl
  | succ k ih =>
    have hnext : g.kOwned - (k + 1) + 1 = g.kOwned - k := by omega
    refine wp_move_seq fun word => ?_
    obtain ⟨pos, closed⟩ := word
    refine ⟨_, .checkTail c _ pos closed (by omega), ?_⟩
    cases closed with
    | false => rfl
    | true =>
      refine wp_move_seq fun h => ⟨_, .checkHead c _ pos h, ?_⟩
      by_cases he : h = pos
      · simpa [he, hnext] using ih (by omega)
      · simpa [he] using show (flow V Tid g).wp t (pure false : M V Tid Bool)
          (fun r y => y = if r = true then .checks c g.kOwned else .checks c 0) (.checks c 0) from rfl

theorem wp_spinPop {c : Nat} (n : Nat) :
    (flow V Tid g).wp t (spinPop g c n) (fun _ y => y = .checks c 0) (.checks c 0) := by
  induction n with
  | zero => rfl
  | succ n ih =>
    refine wp_same (wp_any_published _) fun seen => ?_
    split
    · rfl
    · exact ih

theorem wp_popSleep {c : Nat} :
    (flow V Tid g).wp t (popSleep g c) (fun r y => popEnd g c r y) (.checks c 0) := by
  refine wp_same wp_prepare_wait fun key => ?_
  refine wp_seq (wp_mono wp_tryPop fun r y h => ?_)
  cases r with
  | some e => exact wp_same wp_cancel_wait fun _ => h
  | none =>
    obtain rfl : y = .checks c 0 := h
    refine wp_same (wp_any_closed _) fun shut => ?_
    cases shut with
    | true => exact wp_same wp_cancel_wait fun _ => wp_proc rfl fun _ _ h => h
    | false =>
      refine wp_expired fun late => ?_
      cases late with
      | true => exact wp_same wp_cancel_wait fun _ => rfl
      | false => exact wp_same wp_wait fun _ => wp_proc rfl fun _ _ h => h

theorem wp_popLoop {c : Nat} :
    (flow V Tid g).wp t (popLoop g c) (fun r y => popEnd g c r y) (.checks c 0) := by
  refine wp_seq (wp_mono wp_tryPop fun r y h => ?_)
  cases r with
  | some e => exact h
  | none =>
    obtain rfl : y = .checks c 0 := h
    refine wp_same (wp_spinPop kSpins) fun _ => ?_
    refine wp_seq (wp_mono wp_tryPop fun r y h => ?_)
    cases r with
    | some e => exact h
    | none =>
      obtain rfl : y = .checks c 0 := h
      refine wp_same (wp_any_closed _) fun shut => ?_
      cases shut with
      | false => exact wp_popSleep
      | true =>
        have hd : (flow V Tid g).wp t (drained g c g.kOwned)
            (fun r y => y = if r = true then .checks c g.kOwned else .checks c 0)
            (.checks c (g.kOwned - g.kOwned)) := wp_drained _ (Nat.le_refl _)
        rw [Nat.sub_self] at hd
        refine wp_seq (wp_mono hd fun done y h => ?_)
        cases done with
        | true => exact h
        | false =>
          obtain rfl : y = .checks c 0 := h
          refine wp_expired fun late => ?_
          cases late with
          | true => exact rfl
          | false => exact wp_proc rfl fun _ _ h => h

/-! ## The close -/

theorem wp_closeRings (k : Nat) :
    (flow V Tid g).wp t (closeRings g k) (fun _ y => y = .out) .out := by
  induction k with
  | zero => rfl
  | succ k ih => exact wp_move_seq fun _ => ⟨_, .tailOr _, ih⟩

theorem wp_notifyEach {side : Nat → Side} {n : Nat} (k : Nat) :
    (flow V Tid g).wp t (notifyEach side n k) (fun _ y => y = x) x := by
  induction k with
  | zero => rfl
  | succ k ih => exact wp_same wp_notify_all fun _ => ih

theorem follows : (flow V Tid g).Follows where
  code t k := by
    cases k with
    | try_push p v => exact wp_seq (wp_mono wp_try_push fun r y h => ⟨r, rfl, h⟩)
    | push p v => exact wp_proc_seq rfl fun r y h => ⟨r, rfl, h⟩
    | try_pop c => exact wp_seq (wp_mono wp_try_pop fun r y h => ⟨r, rfl, h⟩)
    | pop c => exact wp_proc_seq rfl fun r y h => ⟨r, rfl, h⟩
    | close =>
      refine wp_seq (wp_same (wp_closeRings _) fun _ => ?_)
      exact wp_same (wp_notifyEach _) fun _ => wp_mono (wp_notifyEach _) fun _ y h => ⟨rfl, h⟩
  body t p x h := by
    cases p with
    | pushLoop p v =>
      obtain rfl : x = .pushing p v := h
      exact wp_pushLoop
    | popLoop c =>
      obtain rfl : x = .checks c 0 := h
      exact wp_popLoop
    | waitLoop w key => exact wp_waitLoop

end
end Katas.Turnstile.Sharded
