import Katas.Core.Client
import Katas.Core.Cyclic
import Katas.Turnstile.Cpp.ShardedSafety

/-!
# No ring is starved

A consumer's scan starts after the ring it last took from. `Turn` says where
a consumer's thread stands in its scan, and `away` how many rings lie between
that place and a given one: a ring that was not empty when the count began is
skipped by no probe, so every event taken from another ring brings the scan
nearer by one.
-/
namespace Katas.Turnstile.Sharded
open Katas.Conc Flow
open Katas.Turnstile.Cpp (kSpins)

/-! ## The scans -/

/-- The ring looked at in a scan from `next`, with `m` still to look at.
mirrors mpmc-work-queue-kata/cpp/src/sharded_queue.hpp:223 -/
def Shape.spot (g : Shape) (next m : Nat) : Nat := (next + (g.kOwned - m)) % g.kOwned

/-- `out`: no consumer's. `rest`: between its scans. The others are in the
scan from `n`, with `m` rings still to look at, the first of them the one
looked at; `took`: its event is taken. -/
inductive Turn where
  | out
  | rest (c : Nat)
  | scan (c n m : Nat)
  | heads (c n m h : Nat)
  | stale (c n m h : Nat)
  | fresh (c n m h pos : Nat)
  | ready (c n m h : Nat)
  | took (c n m : Nat)

/-- The scan goes on with `m` rings. -/
def pass (c n : Nat) : Nat → Turn
  | 0 => .rest c
  | m + 1 => .scan c n (m + 1)

/-- The operations a scan does not count. -/
def plain {V : Type} : Act V → Bool
  | .headStore _ _ | .nextStore _ _ => false
  | _ => true

section
variable {V Tid : Type} (g : Shape)

inductive TurnMove : Turn → (a : Act V) → Resp Tid a → Turn → Prop
  | plain {x : Turn} (a : Act V) (r : Resp Tid a) : plain a = true → TurnMove x a r x
  | nextLoad (c n : Nat) : TurnMove (.rest c) (.nextLoad c) n (pass c n g.kOwned)
  | headLoad (c n m h : Nat) :
      TurnMove (.scan c n m) (.headLoad (g.ring_of c (g.spot n m))) h (.heads c n m h)
  | cachedTailLoad (c n m h k : Nat) :
      TurnMove (.heads c n m h) (.cachedTailLoad (g.ring_of c (g.spot n m))) k
        (if h = k then .stale c n m h else .ready c n m h)
  | tailLoad (c n m h : Nat) (word : TailWord) :
      TurnMove (.stale c n m h) (.tailLoad (g.ring_of c (g.spot n m))) word
        (.fresh c n m h word.pos)
  | cachedTailStore (c n m h pos : Nat) :
      TurnMove (.fresh c n m h pos) (.cachedTailStore (g.ring_of c (g.spot n m)) pos) ()
        (if h = pos then pass c n (m - 1) else .ready c n m h)
  | headStore (c n m h : Nat) :
      TurnMove (.ready c n m h) (.headStore (g.ring_of c (g.spot n m)) h) () (.took c n m)
  | nextStore (c n m : Nat) :
      TurnMove (.took c n m) (.nextStore c ((g.spot n m + 1) % g.kOwned)) () (.rest c)

def startTurn : Call V → Turn
  | .try_pop c | .pop c => .rest c
  | _ => .out

variable [Inhabited V] [Inhabited Tid] [DecidableEq Tid] (first : Nat → Nat)

variable (V Tid) in
/-- The queue, consumer `c`'s first scan from ring `first c`. -/
abbrev queueFrom : System :=
  { queue V Tid g with init := { (State.init : State V Tid) with next := first } }

variable (V Tid) in
abbrev turns : Flow (queueFrom V Tid g first) where
  G := Turn
  idle := .out
  start _ k := startTurn k
  move _ := TurnMove g
  ends _ k _ x := x = startTurn k
  pre p _ x := match p with
    | .popLoop c => x = .rest c
    | _ => True
  post _ _ x _ y := y = x

variable {g} {first} {t : Tid} {x : Turn}

/-! ## The programs keep to it -/

/-- A program that takes nothing and stores no `next`. -/
abbrev Plain {α : Type} (p : M V Tid α) : Prop :=
  p.Silent (fun a : Act V => plain a = true) fun p : Proc V => ∀ c, p ≠ .popLoop c

section
omit [Inhabited V] [Inhabited Tid] [DecidableEq Tid]

theorem plain_prepare_wait {w : Side} : Plain (prepare_wait w : M V Tid Nat) :=
  .op rfl fun _ => .op rfl fun _ => .op rfl fun _ => Prog.silent_ret _

theorem plain_cancel_wait {w : Side} : Plain (cancel_wait w : M V Tid Unit) := Prog.silent_op rfl

theorem plain_waitLoop {w : Side} {key : Nat} : Plain (waitLoop w key : M V Tid Bool) := by
  refine .op rfl fun e => ?_
  split
  · refine .op rfl fun late => ?_
    split
    · exact Prog.silent_ret _
    · exact .op rfl fun _ => .op rfl fun _ => Prog.silent_proc nofun
  · exact Prog.silent_ret _

theorem plain_wait {w : Side} {key : Nat} : Plain (wait w key : M V Tid Bool) :=
  .proc nofun fun _ => .op rfl fun _ => .op rfl fun _ => Prog.silent_ret _

theorem plain_notify_one {w : Side} : Plain (notify_one w : M V Tid Bool) := by
  refine .op rfl fun n => ?_
  split
  · exact Prog.silent_ret _
  · refine .op rfl fun pending => ?_
    split
    · exact Prog.silent_ret _
    · refine .op rfl fun pending => ?_
      split
      · exact Prog.silent_ret _
      · exact .op rfl fun _ => .op rfl fun _ => Prog.silent_ret _

theorem plain_publish {p : Nat} {word : TailWord} {v : V} :
    Plain (publish g p word v : M V Tid Push) := by
  refine .op rfl fun _ => .op rfl fun won => ?_
  split
  · exact plain_notify_one.seq fun _ => Prog.silent_ret _
  · exact Prog.silent_ret _

theorem plain_try_push {p : Nat} {v : V} : Plain (try_push g p v : M V Tid Push) := by
  refine .op rfl fun word => ?_
  split
  · exact Prog.silent_ret _
  · refine .op rfl fun cached => ?_
    split
    · refine .op rfl fun head => .op rfl fun _ => ?_
      split
      · exact Prog.silent_ret _
      · exact plain_publish
    · exact plain_publish

theorem plain_pushLoop {p : Nat} {v : V} : Plain (pushLoop g p v : M V Tid Push) := by
  refine plain_try_push.seq fun r => ?_
  split
  · exact Prog.silent_ret _
  · refine plain_prepare_wait.seq fun key => plain_try_push.seq fun r => ?_
    split
    · exact plain_cancel_wait.seq fun _ => Prog.silent_ret _
    · refine .op rfl fun late => ?_
      split
      · exact plain_cancel_wait.seq fun _ => Prog.silent_ret _
      · exact plain_wait.seq fun _ => Prog.silent_proc nofun

theorem plain_any_published {c : Nat} (k : Nat) : Plain (any_published g c k : M V Tid Bool) := by
  induction k with
  | zero => exact Prog.silent_ret _
  | succ k ih =>
    refine .op rfl fun word => .op rfl fun h => ?_
    split
    · exact Prog.silent_ret _
    · exact ih

theorem plain_any_closed {c : Nat} (k : Nat) : Plain (any_closed g c k : M V Tid Bool) := by
  induction k with
  | zero => exact Prog.silent_ret _
  | succ k ih =>
    refine .op rfl fun word => ?_
    split
    · exact Prog.silent_ret _
    · exact ih

theorem plain_drained {c : Nat} (k : Nat) : Plain (drained g c k : M V Tid Bool) := by
  induction k with
  | zero => exact Prog.silent_ret _
  | succ k ih =>
    refine .op rfl fun word => ?_
    split
    · exact Prog.silent_ret _
    · refine .op rfl fun h => ?_
      split
      · exact Prog.silent_ret _
      · exact ih

theorem plain_spinPop {c : Nat} (n : Nat) : Plain (spinPop g c n : M V Tid Unit) := by
  induction n with
  | zero => exact Prog.silent_ret _
  | succ n ih =>
    refine (plain_any_published _).seq fun seen => ?_
    split
    · exact Prog.silent_ret _
    · exact ih

theorem plain_closeRings (k : Nat) : Plain (closeRings g k : M V Tid Unit) := by
  induction k with
  | zero => exact Prog.silent_ret _
  | succ k ih => exact .op rfl fun _ => ih

theorem plain_notifyEach {side : Nat → Side} {n : Nat} (k : Nat) :
    Plain (notifyEach side n k : M V Tid Unit) := by
  induction k with
  | zero => exact Prog.silent_ret _
  | succ k ih =>
    exact .seq (.op rfl fun _ => Prog.silent_op rfl) fun _ => ih

theorem plain_close : Plain (close g : M V Tid Unit) :=
  (plain_closeRings _).seq fun _ => (plain_notifyEach _).seq fun _ => plain_notifyEach _

end

theorem wp_plain {α : Type} {p : M V Tid α} (h : Plain p) :
    (turns V Tid g first).wp t p (fun _ y => y = x) x := by
  refine wp_silent (fun a r hq => TurnMove.plain a r hq) (fun p hp => ⟨?_, fun _ _ h => h⟩) h
  cases p with
  | popLoop c => exact absurd rfl (hp c)
  | _ => trivial

/-- A plain program, and what follows it. -/
theorem wp_past {α β : Type} {p : M V Tid α} {f : α → M V Tid β} {Q : β → Turn → Prop}
    (hp : Plain p) (h : ∀ a, (turns V Tid g first).wp t (f a) Q x) :
    (turns V Tid g first).wp t (p >>= f) Q x :=
  wp_seq (wp_mono (wp_plain hp) fun a _ he => he ▸ h a)

theorem turns_takeOne {c n m h : Nat} :
    (turns V Tid g first).wp t (takeOne g (g.ring_of c (g.spot n m)) h)
      (fun r y => r.isSome ∧ y = .took c n m) (.ready c n m h) := by
  refine wp_past (Prog.silent_op rfl) fun e => wp_move_seq fun _ => ⟨_, .headStore c n m h, ?_⟩
  split
  · exact wp_past plain_notify_one fun _ => ⟨rfl, rfl⟩
  · exact ⟨rfl, rfl⟩

theorem turns_pop_ring {c n m : Nat} :
    (turns V Tid g first).wp t (pop_ring g (g.ring_of c (g.spot n m)))
      (fun r y => y = if r.isSome then .took c n m else pass c n (m - 1)) (.scan c n m) := by
  have htake : ∀ h, (turns V Tid g first).wp t (takeOne g (g.ring_of c (g.spot n m)) h)
      (fun r y => y = if r.isSome then .took c n m else pass c n (m - 1)) (.ready c n m h) := by
    intro h
    refine wp_mono turns_takeOne fun r y hr => ?_
    rw [if_pos hr.1]; exact hr.2
  refine wp_move_seq fun h => ⟨_, .headLoad c n m h, ?_⟩
  refine wp_move_seq fun k => ⟨_, .cachedTailLoad c n m h k, ?_⟩
  split
  · refine wp_move_seq fun word => ⟨_, .tailLoad c n m h word, ?_⟩
    refine wp_move_seq fun _ => ⟨_, .cachedTailStore c n m h word.pos, ?_⟩
    split
    · exact rfl
    · exact htake h
  · exact htake h

theorem turns_tryFrom {c n : Nat} (m : Nat) :
    (turns V Tid g first).wp t (tryFrom g c n m) (fun _ y => y = .rest c) (pass c n m) := by
  induction m with
  | zero => exact rfl
  | succ m ih =>
    refine wp_seq (wp_mono turns_pop_ring fun r y h => ?_)
    cases r with
    | some e =>
      obtain rfl : y = .took c n (m + 1) := h
      exact wp_move_seq fun _ => ⟨_, .nextStore c n (m + 1), rfl⟩
    | none =>
      obtain rfl : y = pass c n m := h
      exact ih

theorem turns_tryPop {c : Nat} :
    (turns V Tid g first).wp t (tryPop g c) (fun _ y => y = .rest c) (.rest c) :=
  wp_move_seq fun n => ⟨_, .nextLoad c n, turns_tryFrom _⟩

theorem turns_try_pop {c : Nat} :
    (turns V Tid g first).wp t (try_pop g c) (fun _ y => y = .rest c) (.rest c) := by
  refine wp_seq (wp_mono turns_tryPop fun r y h => ?_)
  cases r <;> exact h

theorem turns_popSleep {c : Nat} :
    (turns V Tid g first).wp t (popSleep g c) (fun _ y => y = .rest c) (.rest c) := by
  refine wp_past plain_prepare_wait fun key => wp_seq (wp_mono turns_tryPop fun r y h => ?_)
  obtain rfl : y = .rest c := h
  cases r with
  | some e => exact wp_past plain_cancel_wait fun _ => rfl
  | none =>
    refine wp_past (plain_any_closed _) fun shut => ?_
    cases shut with
    | true => exact wp_past plain_cancel_wait fun _ => wp_proc rfl fun _ _ h => h
    | false =>
      refine wp_past (Prog.silent_op rfl) fun late => ?_
      cases late with
      | true => exact wp_past plain_cancel_wait fun _ => rfl
      | false => exact wp_past plain_wait fun _ => wp_proc rfl fun _ _ h => h

theorem turns_popLoop {c : Nat} :
    (turns V Tid g first).wp t (popLoop g c) (fun _ y => y = .rest c) (.rest c) := by
  refine wp_seq (wp_mono turns_tryPop fun r y h => ?_)
  obtain rfl : y = .rest c := h
  cases r with
  | some e => exact rfl
  | none =>
    refine wp_past (plain_spinPop kSpins) fun _ => wp_seq (wp_mono turns_tryPop fun r y h => ?_)
    obtain rfl : y = .rest c := h
    cases r with
    | some e => exact rfl
    | none =>
      refine wp_past (plain_any_closed _) fun shut => ?_
      cases shut with
      | false => exact turns_popSleep
      | true =>
        refine wp_past (plain_drained _) fun done => ?_
        cases done with
        | true => exact rfl
        | false =>
          refine wp_past (Prog.silent_op rfl) fun late => ?_
          cases late with
          | true => exact rfl
          | false => exact wp_proc rfl fun _ _ h => h

theorem turns_follows : (turns V Tid g first).Follows where
  code t k := by
    cases k with
    | try_push p v => exact wp_plain (plain_try_push.seq fun r => Prog.silent_ret _)
    | push p v => exact wp_plain (.proc nofun fun r => Prog.silent_ret _)
    | try_pop c => exact wp_seq (wp_mono turns_try_pop fun _ _ h => h)
    | pop c => exact wp_proc_seq rfl fun _ _ h => h
    | close => exact wp_plain (plain_close.seq fun _ => Prog.silent_ret _)
  body t p x h := by
    cases p with
    | pushLoop p v => exact wp_plain plain_pushLoop
    | popLoop c =>
      obtain rfl : x = .rest c := h
      exact turns_popLoop
    | waitLoop w key => exact wp_plain plain_waitLoop

/-! ## Whose thread it is -/

/-- The consumer whose thread stands here. -/
def Turn.consumer : Turn → Option Nat
  | .out => none
  | .rest c | .scan c _ _ | .heads c _ _ _ | .stale c _ _ _ | .fresh c _ _ _ _ | .ready c _ _ _
  | .took c _ _ => some c

@[simp] theorem pass_consumer {c n : Nat} (m : Nat) : (pass c n m).consumer = some c := by
  cases m <;> rfl

omit [Inhabited V] [Inhabited Tid] [DecidableEq Tid] in
theorem TurnMove.consumer {a : Act V} {r : Resp Tid a} {y : Turn} (h : TurnMove g x a r y) :
    y.consumer = x.consumer := by
  cases h with
  | cachedTailLoad c n m h k => split <;> rfl
  | cachedTailStore c n m h pos =>
    split
    · exact pass_consumer _
    · rfl
  | nextLoad c n => exact pass_consumer _
  | _ => rfl

omit [Inhabited V] in
theorem startTurn_side (k : Call V) {c : Nat} :
    (startTurn k).consumer = some c ↔ side k = some (.consumer c) := by
  cases k <;> simp [startTurn, Turn.consumer, side]

/-- In a scan, `m` rings are left, and the next one starts where this did. -/
def InScan (g : Shape) (s : State V Tid) (c n m : Nat) : Prop :=
  s.next c = n ∧ 0 < m ∧ m ≤ g.kOwned

/-- What a thread's place says. -/
def AtTurn (g : Shape) (s : State V Tid) : Turn → Prop
  | .scan c n m | .took c n m => InScan g s c n m
  | .heads c n m h | .stale c n m h | .fresh c n m h _ | .ready c n m h =>
    InScan g s c n m ∧ (s.shard (g.ring_of c (g.spot n m))).head = h
  | _ => True

/-- One thread for each consumer. -/
structure Turns (g : Shape) (s : State V Tid) (γ : Tid → Turn) : Prop where
  busy : ∀ t c, (γ t).consumer = some c → s.busy (.consumer c) = some t ∧ c < g.C
  at_ : ∀ t, AtTurn g s (γ t)

variable {s s' : State V Tid} {γ : Tid → Turn}

omit [Inhabited V] [Inhabited Tid] [DecidableEq Tid] in
theorem Turns.one (h : Turns g s γ) {u : Tid} {c : Nat} (ht : (γ t).consumer = some c)
    (hu : (γ u).consumer = some c) : u = t := by
  have := (h.busy u c hu).1
  rw [(h.busy t c ht).1] at this
  exact (Option.some.inj this).symm

/-! ## What an operation leaves -/

/-- Consumer `c`'s own: its `next`, the heads of its rings, what it has taken. -/
structure Spared (g : Shape) (s s' : State V Tid) (c : Nat) : Prop where
  next : s'.next c = s.next c
  taken : s'.taken c = s.taken c
  head : ∀ i, (s'.shard (g.ring_of c i)).head = (s.shard (g.ring_of c i)).head

omit [Inhabited V] [Inhabited Tid] in
/-- No operation takes a ring's tail back, and a plain one leaves its head. -/
theorem ring_left {a : Act V} {k : Nat} {r : Resp Tid a} (hs : sem g t a k s = some (s', r))
    (p : Nat) : (s.shard p).tail ≤ (s'.shard p).tail ∧
      (plain a = true → (s'.shard p).head = (s.shard p).head) := by
  by_cases ha : touches a = some p
  · cases a with
    | tailCas q word =>
      cases ha
      rcases tailCas_cases hs with ⟨-, -, rfl⟩ | ⟨-, -, rfl⟩
      · rw [setRing_self]; exact ⟨Nat.le_succ _, fun _ => rfl⟩
      · exact ⟨Nat.le_refl _, fun _ => rfl⟩
    | tailOr q => cases ha; cases hs; rw [setShard_self]; exact ⟨Nat.le_refl _, fun _ => rfl⟩
    | headStore q pos =>
      cases ha; cases hs
      refine ⟨?_, nofun⟩
      simp only [setRing_self]; exact Nat.le_refl _
    | cachedHeadStore q h | cachedTailStore q h | slotWrite q pos v =>
      cases ha; cases hs; rw [setRing_self]; exact ⟨Nat.le_refl _, fun _ => rfl⟩
    | _ => cases ha
  · rw [shard_eq hs ha]; exact ⟨Nat.le_refl _, fun _ => rfl⟩

omit [Inhabited V] [Inhabited Tid] in
theorem plain_spares {a : Act V} {k : Nat} {r : Resp Tid a} (ha : plain a = true)
    (hs : sem g t a k s = some (s', r)) (c : Nat) : Spared g s s' c := by
  have hown : s'.next = s.next ∧ s'.taken = s.taken := by
    cases a with
    | headStore q pos | nextStore d i => cases ha
    | tailCas q word => rcases tailCas_cases hs with ⟨-, -, rfl⟩ | ⟨-, -, rfl⟩ <;> exact ⟨rfl, rfl⟩
    | count w b =>
      simp only [sem, Option.map_eq_some_iff] at hs
      obtain ⟨o, -, he⟩ := hs
      cases he
      exact ⟨rfl, rfl⟩
    | _ => cases hs; exact ⟨rfl, rfl⟩
  exact ⟨by rw [hown.1], by rw [hown.2], fun i => (ring_left hs _).2 ha⟩

theorem ring_of_ne {c d : Nat} (hc : c < g.C) (hd : d < g.C) (h : d ≠ c) (i j : Nat) :
    g.ring_of d i ≠ g.ring_of c j := by
  intro he
  rw [← ring_of_mod hd i, he, ring_of_mod hc] at h
  exact h rfl

omit [Inhabited V] [Inhabited Tid] in
/-- A thread that is not the consumer's leaves what is its own. -/
theorem others_spare {a : Act V} {k c : Nat} {r : Resp Tid a} {y : Turn} (hc : c < g.C)
    (hs : sem g t a k s = some (s', r)) (hm : TurnMove g x a r y)
    (hx : ∀ d, x.consumer = some d → d ≠ c ∧ d < g.C) : Spared g s s' c := by
  cases hm with
  | plain a r ha => exact plain_spares ha hs c
  | headStore d n m h =>
    obtain ⟨hne, hd⟩ := hx d rfl
    have hshard : ∀ i, s'.shard (g.ring_of c i) = s.shard (g.ring_of c i) := by
      intro i
      refine shard_eq hs fun he => ?_
      exact ring_of_ne hc hd hne _ _ (Option.some.inj he)
    cases hs
    refine ⟨rfl, ?_, fun i => by rw [hshard]⟩
    show upd s.taken _ _ c = _
    rw [ring_of_mod hd, upd_ne _ _ hne.symm]
  | nextStore d n m =>
    cases hs
    exact ⟨upd_ne _ _ (hx d rfl).1.symm, rfl, fun _ => rfl⟩
  | _ => exact plain_spares rfl hs c

/-! ## One thread for each consumer -/

section
omit [Inhabited V] [Inhabited Tid] [DecidableEq Tid]

theorem InScan.spared {c n m : Nat} (h : InScan g s c n m) (hs : Spared g s s' c) :
    InScan g s' c n m :=
  ⟨hs.next.trans h.1, h.2⟩

theorem AtTurn.of_out (hx : x.consumer = none) : AtTurn g s x := by
  cases x <;> trivial

theorem AtTurn.spared {c : Nat} (h : AtTurn g s x) (hx : x.consumer = some c)
    (hs : Spared g s s' c) : AtTurn g s' x := by
  cases x <;> cases hx
  case rest => trivial
  case scan | took => exact InScan.spared h hs
  case heads | stale | fresh | ready => exact ⟨h.1.spared hs, (hs.head _).trans h.2⟩

theorem AtTurn.same (h : AtTurn g s x) (hs : ∀ c, Spared g s s' c) : AtTurn g s' x := by
  cases hx : x.consumer with
  | none => exact .of_out hx
  | some c => exact h.spared hx (hs c)

theorem atTurn_pass {c n m : Nat} (hn : s.next c = n) (hm : m ≤ g.kOwned) :
    AtTurn g s (pass c n m) := by
  cases m with
  | zero => trivial
  | succ m => exact ⟨hn, Nat.succ_pos m, hm⟩

end

section
omit [Inhabited V] [Inhabited Tid]

theorem atTurn_step {a : Act V} {k : Nat} {r : Resp Tid a} {y : Turn}
    (hs : sem g t a k s = some (s', r)) (hm : TurnMove g x a r y) (hat : AtTurn g s x) :
    AtTurn g s' y := by
  cases hm with
  | plain a r ha => exact hat.same (plain_spares ha hs)
  | nextLoad c n => cases hs; exact atTurn_pass rfl (Nat.le_refl _)
  | headLoad c n m h => cases hs; exact ⟨hat, rfl⟩
  | cachedTailLoad c n m h k => cases hs; split <;> exact hat
  | tailLoad c n m h word => cases hs; exact hat
  | cachedTailStore c n m h pos =>
    obtain ⟨⟨hn, -, hle⟩, hh⟩ := hat.spared rfl (plain_spares rfl hs c)
    split
    · exact atTurn_pass hn (Nat.le_trans (Nat.sub_le m 1) hle)
    · exact hat.spared rfl (plain_spares rfl hs c)
  | headStore c n m h => cases hs; exact hat.1
  | nextStore c n m => trivial

theorem turns_step (h : Turns g s γ) {a : Act V} {k : Nat} {r : Resp Tid a} {y : Turn}
    (hs : sem g t a k s = some (s', r)) (hm : TurnMove g (γ t) a r y) :
    Turns g s' (upd γ t y) := by
  refine ⟨fun u c hu => ?_, fun u => ?_⟩
  · rw [(sameHistory hs).busy]
    rw [upd_apply] at hu
    split at hu
    · rename_i he
      rw [he]; exact h.busy t c (hm.consumer ▸ hu)
    · exact h.busy u c hu
  · by_cases hut : u = t
    · subst hut; rw [upd_self]; exact atTurn_step hs hm (h.at_ u)
    · rw [upd_ne _ _ hut]
      cases hx : (γ u).consumer with
      | none => exact .of_out hx
      | some c =>
        refine (h.at_ u).spared hx (others_spare (h.busy u c hx).2 hs hm fun d hd => ?_)
        refine ⟨?_, (h.busy t d hd).2⟩
        rintro rfl
        exact hut (h.one hd hx)

theorem begin_spares (k : Call V) (c : Nat) : Spared g s (begin t k s) c := by
  obtain ⟨hsh, -, -, htk, -, -⟩ := begin_fields (t := t) (s := s) k
  exact ⟨by cases k <;> rfl, by rw [htk], fun i => by rw [hsh]⟩

theorem finish_spares (k : Call V) (r : Result (Item V Tid)) (c : Nat) :
    Spared g s (finish t k r s) c := by
  obtain ⟨hsh, -, -, -, htk⟩ := finish_fields (t := t) (s := s) k r
  refine ⟨?_, by rw [htk], fun i => by rw [hsh]⟩
  cases k with
  | try_pop d | pop d =>
    cases r with
    | pop q => cases q <;> rfl
    | _ => rfl
  | _ => rfl

end

theorem turns_keeps (ok : Tid → Act V → State V Tid → Prop) :
    (turns V Tid g first).Keeps ok (Turns g) where
  init := ⟨nofun, fun _ => trivial⟩
  begin := by
    intro s γ _ h t k hi he
    refine ⟨fun u c hu => ?_, fun u => ?_⟩
    · rw [upd_apply] at hu
      show (begin t k s).busy (.consumer c) = some u ∧ c < g.C
      rw [begin_busy]
      split at hu
      · rename_i hut
        have hk := (startTurn_side k).mp hu
        rw [if_pos hk, hut]
        refine ⟨rfl, ?_⟩
        have he : enabled g s k = true := he
        simp only [enabled, hk, Bool.and_eq_true, decide_eq_true_eq] at he
        exact he.1
      · obtain ⟨h1, h2⟩ := h.busy u c hu
        refine ⟨?_, h2⟩
        rw [if_neg, h1]
        intro hk
        rw [enabled_free he hk] at h1; cases h1
    · rw [upd_apply]
      split
      · cases k <;> trivial
      · exact (h.at_ u).same fun c => begin_spares k c
  move := fun _ h _ _ _ _ _ _ _ hs hm => turns_step h hs hm
  finish := by
    intro s γ _ h t k r hend
    refine ⟨fun u c hu => ?_, fun u => ?_⟩
    · rw [upd_apply] at hu
      show (finish t k r s).busy (.consumer c) = some u ∧ c < g.C
      split at hu
      · cases hu
      · rename_i hut
        obtain ⟨h1, h2⟩ := h.busy u c hu
        rw [finish_busy, if_neg]
        · exact ⟨h1, h2⟩
        · intro hk
          refine hut (h.one ?_ hu)
          rw [show γ t = startTurn k from hend]
          exact (startTurn_side k).mpr hk
    · rw [upd_apply]
      split
      · trivial
      · exact (h.at_ u).same fun c => finish_spares k r c

/-! ## The rings between -/

theorem spot_mod (n m : Nat) : g.spot n m % g.kOwned = g.spot n m :=
  Nat.mod_mod _ _

theorem spot_succ {n m : Nat} (hm : m < g.kOwned) :
    (g.spot n (m + 1) + 1) % g.kOwned = g.spot n m := by
  rw [Shape.spot, Nat.mod_add_mod, Shape.spot]
  congr 1
  omega

theorem spot_first (n : Nat) : g.spot n g.kOwned = n % g.kOwned := by
  rw [Shape.spot, Nat.sub_self, Nat.add_zero]

theorem spot_zero (n : Nat) : g.spot n 0 = n % g.kOwned := by
  rw [Shape.spot, Nat.sub_zero, Nat.add_mod_right]

/-- How many rings a thread at this place comes to before ring `j`. At `j`
itself it is all the others if the probe has seen it empty. -/
def away (g : Shape) (s : State V Tid) (j : Nat) : Turn → Nat
  | .out => 0
  | .rest c => ahead g.kOwned j (s.next c)
  | .scan _ n m | .heads _ n m _ | .stale _ n m _ | .ready _ n m _ =>
    ahead g.kOwned j (g.spot n m)
  | .fresh _ n m h pos =>
    if g.spot n m = j ∧ h = pos then g.kOwned - 1 else ahead g.kOwned j (g.spot n m)
  | .took _ n m => ahead g.kOwned j (g.spot n m + 1)

section
omit [Inhabited V] [Inhabited Tid] [DecidableEq Tid]

@[simp] theorem away_fresh {c n m h pos j : Nat} : away g s j (.fresh c n m h pos) =
    if g.spot n m = j ∧ h = pos then g.kOwned - 1 else ahead g.kOwned j (g.spot n m) := rfl

theorem away_le {j : Nat} (hj : j < g.kOwned) : away g s j x ≤ g.kOwned - 1 := by
  cases x with
  | out => exact Nat.zero_le _
  | fresh c n m h pos =>
    rw [away_fresh]
    split
    · exact Nat.le_refl _
    · exact ahead_le hj
  | _ => exact ahead_le hj

theorem away_spared {c j : Nat} (hx : x.consumer = some c) (hs : Spared g s s' c) :
    away g s' j x = away g s j x := by
  cases x <;> cases hx
  case rest => exact congrArg (ahead g.kOwned j) hs.next
  all_goals rfl

theorem away_pass {c n m j : Nat} (hn : s.next c = n) :
    away g s j (pass c n m) = ahead g.kOwned j (g.spot n m) := by
  cases m with
  | zero =>
    rw [spot_zero, ahead_mod]
    exact congrArg (ahead g.kOwned j) hn
  | succ m => rfl

end

/-- A probe that has failed leads no further away. -/
theorem ahead_next {n m j : Nat} (hj : j < g.kOwned) (hm : 0 < m) (hle : m ≤ g.kOwned)
    (hne : g.spot n m ≠ j) :
    ahead g.kOwned j (g.spot n (m - 1)) + 1 = ahead g.kOwned j (g.spot n m) := by
  obtain ⟨m, rfl⟩ : ∃ k, m = k + 1 := ⟨m - 1, by omega⟩
  rw [Nat.add_sub_cancel, ← spot_succ (by omega), ahead_mod]
  exact ahead_succ hj (by rwa [spot_mod])

omit [Inhabited V] [Inhabited Tid] in
/-- The consumer's own step: where ring `j` is not empty, either it takes
from `j`, or what it has taken and the way to `j` together do not grow. -/
theorem away_step {a : Act V} {k c j : Nat} {r : Resp Tid a} {y : Turn} (hc : c < g.C)
    (hj : j < g.kOwned) (hs : sem g t a k s = some (s', r)) (hm : TurnMove g x a r y)
    (hat : AtTurn g s x) (hx : x.consumer = some c)
    (hne : (s.shard (g.ring_of c j)).head < (s.shard (g.ring_of c j)).tail)
    (hsame : (s'.shard (g.ring_of c j)).head = (s.shard (g.ring_of c j)).head) :
    (s'.taken c).length + away g s' j y ≤ (s.taken c).length + away g s j x := by
  cases hm with
  | plain a r ha =>
    have hsp := plain_spares ha hs c
    exact Nat.le_of_eq (by rw [away_spared hx hsp, hsp.taken])
  | nextLoad d n =>
    cases hx; cases hs
    rw [away_pass rfl, spot_first, ahead_mod]
    exact Nat.le_refl _
  | headLoad d n m h => cases hs; exact Nat.le_refl _
  | cachedTailLoad d n m h k => cases hs; split <;> exact Nat.le_refl _
  | tailLoad d n m h word =>
    cases hx; cases hs
    refine Nat.add_le_add_left (Nat.le_of_eq (if_neg ?_)) _
    rintro ⟨hi, hpos⟩
    have hh : (s.shard (g.ring_of c (g.spot n m))).head = h := hat.2
    rw [hi] at hh hpos
    exact Nat.ne_of_lt hne (hh.trans hpos)
  | cachedTailStore d n m h pos =>
    cases hx
    have hsp := plain_spares (a := .cachedTailStore (g.ring_of c (g.spot n m)) pos) rfl hs c
    obtain ⟨⟨hn, hm0, hmk⟩, -⟩ := hat
    rw [hsp.taken]
    refine Nat.add_le_add_left ?_ _
    by_cases hp : h = pos
    · rw [if_pos hp, away_pass (hsp.next.trans hn), away_fresh]
      split
      · exact ahead_le hj
      · rename_i hno
        have := ahead_next hj hm0 hmk fun hi => hno ⟨hi, hp⟩
        omega
    · rw [if_neg hp, away_fresh, if_neg fun h => hp h.2]
      exact Nat.le_refl _
  | headStore d n m h =>
    cases hx; cases hs
    have hi : g.spot n m ≠ j := by
      rintro rfl
      have hh : (s.shard (g.ring_of c (g.spot n m))).head = h := hat.2
      simp only [setRing_self, Spsc.Ring.take] at hsame
      omega
    have hlen : (upd s.taken (g.ring_of c (g.spot n m) % g.C)
        (s.taken (g.ring_of c (g.spot n m) % g.C) ++ [s.item g (g.ring_of c (g.spot n m)) h]) c).length
        = (s.taken c).length + 1 := by
      rw [ring_of_mod hc, upd_self, List.length_append]; rfl
    have hstep := ahead_succ hj (i := g.spot n m) (by rwa [spot_mod])
    unfold away
    dsimp only
    rw [hlen]
    omega
  | nextStore d n m =>
    cases hx; cases hs
    refine Nat.add_le_add_left (Nat.le_of_eq ?_) _
    show ahead _ _ (upd s.next c _ c) = _
    rw [upd_self, ahead_mod]
    rfl

/-! ## Whole runs -/

/-- Ring `j` of consumer `c` is not empty, and what `c` has taken since `old`
and the way to `j` make at most one less than its rings. -/
structure Waits (g : Shape) (s : State V Tid) (γ : Tid → Turn) (c j : Nat)
    (old : List (Item V Tid)) : Prop where
  filled : (s.shard (g.ring_of c j)).head < (s.shard (g.ring_of c j)).tail
  taken : old <+: s.taken c
  rest : (∀ t, (γ t).consumer ≠ some c) →
    (s.taken c).length + ahead g.kOwned j (s.next c) ≤ old.length + (g.kOwned - 1)
  at_ : ∀ t, (γ t).consumer = some c →
    (s.taken c).length + away g s j (γ t) ≤ old.length + (g.kOwned - 1)

omit [Inhabited V] [Inhabited Tid] [DecidableEq Tid] in
theorem Waits.start {c j : Nat} (hj : j < g.kOwned)
    (hne : (s.shard (g.ring_of c j)).head < (s.shard (g.ring_of c j)).tail) :
    Waits g s γ c j (s.taken c) :=
  ⟨hne, List.prefix_refl _, fun _ => Nat.add_le_add_left (ahead_le hj) _,
    fun _ _ => Nat.add_le_add_left (away_le hj) _⟩

omit [Inhabited V] [Inhabited Tid] in
theorem head_le {a : Act V} {k : Nat} {r : Resp Tid a} {y : Turn}
    (hs : sem g t a k s = some (s', r)) (hm : TurnMove g x a r y) (hat : AtTurn g s x) (p : Nat) :
    (s.shard p).head ≤ (s'.shard p).head := by
  cases hm with
  | plain a r ha => exact Nat.le_of_eq ((ring_left hs p).2 ha).symm
  | headStore d n m h =>
    by_cases hp : p = g.ring_of d (g.spot n m)
    · have hh : (s.shard (g.ring_of d (g.spot n m))).head = h := hat.2
      rw [hp, hh]
      cases hs
      simp only [setRing_self]
      exact Nat.le_succ h
    · have hne : touches (Act.headStore (g.ring_of d (g.spot n m)) h : Act V) ≠ some p :=
        fun he => hp (Option.some.inj he).symm
      exact Nat.le_of_eq (by rw [shard_eq hs hne])
  | nextStore d n m => exact Nat.le_of_eq (by rw [shard_eq hs nofun])
  | _ => exact Nat.le_of_eq ((ring_left hs p).2 rfl).symm

omit [Inhabited V] [Inhabited Tid] in
theorem taken_grows {a : Act V} {k : Nat} {r : Resp Tid a}
    (hs : sem g t a k s = some (s', r)) (c : Nat) : s.taken c <+: s'.taken c := by
  by_cases ha : plain a = true
  · exact (plain_spares ha hs c).taken ▸ List.prefix_refl _
  · cases a with
    | headStore p pos =>
      cases hs
      show _ <+: upd s.taken _ _ c
      rw [upd_apply]
      split
      · rename_i hc
        rw [hc]; exact List.prefix_append _ _
      · exact List.prefix_refl _
    | nextStore d i => cases hs; exact List.prefix_refl _
    | _ => exact absurd rfl ha

variable {c j : Nat} {old : List (Item V Tid)}

section
omit [Inhabited V] [Inhabited Tid]

theorem Waits.move (h : Waits g s γ c j old) (hT : Turns g s γ) (hc : c < g.C)
    (hj : j < g.kOwned) {a : Act V} {k : Nat} {r : Resp Tid a} {y : Turn}
    (hs : sem g t a k s = some (s', r)) (hm : TurnMove g (γ t) a r y)
    (hsame : (s'.shard (g.ring_of c j)).head = (s.shard (g.ring_of c j)).head) :
    Waits g s' (upd γ t y) c j old := by
  have hothers : (γ t).consumer ≠ some c → Spared g s s' c := fun ht =>
    others_spare hc hs hm fun d hd => ⟨fun he => ht (he ▸ hd), (hT.busy t d hd).2⟩
  refine ⟨?_, h.taken.trans (taken_grows hs c), fun hno => ?_, fun u hu => ?_⟩
  · rw [hsame]
    exact Nat.lt_of_lt_of_le h.filled (ring_left hs _).1
  · have hnone : ∀ u, (γ u).consumer ≠ some c := by
      intro u hu
      by_cases hut : u = t
      · refine hno t ?_
        rw [upd_self, hm.consumer, ← hut]; exact hu
      · exact hno u (by rw [upd_ne _ _ hut]; exact hu)
    have hsp := hothers (hnone t)
    rw [hsp.taken, hsp.next]
    exact h.rest hnone
  · by_cases hut : u = t
    · subst hut
      rw [upd_self] at hu ⊢
      rw [hm.consumer] at hu
      exact Nat.le_trans (away_step hc hj hs hm (hT.at_ u) hu h.filled hsame) (h.at_ u hu)
    · rw [upd_ne _ _ hut] at hu ⊢
      have hsp := hothers fun ht => hut (hT.one ht hu)
      rw [hsp.taken, away_spared hu hsp]
      exact h.at_ u hu

theorem Waits.begin (h : Waits g s γ c j old) (hT : Turns g s γ) {k : Call V}
    (hi : γ t = .out) (he : enabled g s k = true) :
    Waits g (begin t k s) (upd γ t (startTurn k)) c j old := by
  have hsp := begin_spares (g := g) (s := s) (t := t) k c
  obtain ⟨hsh, -, -, -, -, -⟩ := begin_fields (t := t) (s := s) k
  refine ⟨by rw [hsh]; exact h.filled, by rw [hsp.taken]; exact h.taken, fun hno => ?_, fun u hu => ?_⟩
  · rw [hsp.taken, hsp.next]
    refine h.rest fun u hu => ?_
    by_cases hut : u = t
    · rw [hut, hi] at hu; cases hu
    · exact hno u (by rw [upd_ne _ _ hut]; exact hu)
  · rw [away_spared hu hsp, hsp.taken]
    rw [upd_apply] at hu ⊢
    split at hu
    · rename_i hut
      rw [if_pos hut]
      -- nobody was in a pop of this consumer's
      have hside := (startTurn_side k).mp hu
      have hrest := h.rest fun v hv => by
        have := (hT.busy v c hv).1
        rw [enabled_free he hside] at this
        cases this
      cases k <;> cases hside <;> exact hrest
    · rename_i hut
      rw [if_neg hut]; exact h.at_ u hu

theorem Waits.finish (h : Waits g s γ c j old) {k : Call V} {r : Result (Item V Tid)}
    (hend : γ t = startTurn k) : Waits g (finish t k r s) (upd γ t .out) c j old := by
  have hsp := finish_spares (g := g) (s := s) (t := t) k r c
  obtain ⟨hsh, -⟩ := finish_fields (t := t) (s := s) k r
  refine ⟨by rw [hsh]; exact h.filled, by rw [hsp.taken]; exact h.taken, fun hno => ?_, fun u hu => ?_⟩
  · rw [hsp.taken, hsp.next]
    by_cases ht : (γ t).consumer = some c
    · have hat := h.at_ t ht
      rw [hend] at hat ht
      cases k <;> cases ht <;> exact hat
    · refine h.rest fun u hu => ?_
      by_cases hut : u = t
      · exact ht (hut ▸ hu)
      · exact hno u (by rw [upd_ne _ _ hut]; exact hu)
  · rw [away_spared hu hsp, hsp.taken]
    rw [upd_apply] at hu ⊢
    split at hu
    · cases hu
    · rename_i hut
      rw [if_neg hut]; exact h.at_ u hu

end

/-- Ring `j` has been taken from since its head was at `h`, or it waits. -/
def Watched (g : Shape) (s : State V Tid) (γ : Tid → Turn) (c j h : Nat)
    (old : List (Item V Tid)) : Prop :=
  h < (s.shard (g.ring_of c j)).head ∨
    h = (s.shard (g.ring_of c j)).head ∧ Waits g s γ c j old

theorem Watched.step {h : Nat} (hw : Watched g s γ c j h old) (hT : Turns g s γ) (hc : c < g.C)
    (hj : j < g.kOwned) {ok : Tid → Act V → State V Tid → Prop} {o : Option (Tid × Act V)}
    {γ' : Tid → Turn} (hstep : (turns V Tid g first).Step ok s γ o s' γ') :
    Watched g s' γ' c j h old := by
  match hstep with
  | .rest => exact hw
  | .begin t k hi he =>
    have hhead := (begin_spares (g := g) (s := s) (t := t) k c).head j
    unfold Watched
    rw [show ((begin t k s).shard _).head = _ from hhead]
    exact hw.imp id fun h => ⟨h.1, h.2.begin hT hi he⟩
  | .finish t k r hend =>
    have hhead := (finish_spares (g := g) (s := s) (t := t) k r c).head j
    unfold Watched
    rw [show ((finish t k r s).shard _).head = _ from hhead]
    exact hw.imp id fun h => ⟨h.1, h.2.finish hend⟩
  | .move t a n _ hs hm =>
    have hle := head_le hs hm (hT.at_ t) (g.ring_of c j)
    rcases hw with hlt | ⟨heq, hw⟩
    · exact .inl (Nat.lt_of_lt_of_le hlt hle)
    · rcases Nat.lt_or_eq_of_le hle with hlt | hsame
      · exact .inl (heq ▸ hlt)
      · exact .inr ⟨heq.trans hsame, hw.move hT hc hj hs hm hsame.symm⟩

theorem watched_run {x y : System.Config (queueFrom V Tid g first)}
    {ls : List (System.Label (queueFrom V Tid g first))}
    (hrun : (queueFrom V Tid g first).lts.Run x ls y) (hc : c < g.C) (hj : j < g.kOwned) {h : Nat}
    {γ : Tid → Turn} (hr : (turns V Tid g first).Reach (fun _ _ _ => True) x.state γ)
    (hst : ∀ u, (turns V Tid g first).Stands u (γ u) (x.thread u))
    (hw : Watched g x.state γ c j h old) : ∃ γ', Watched g y.state γ' c j h old := by
  induction hrun generalizing γ with
  | nil => exact ⟨γ, hw⟩
  | @cons x z y l ls hs _ ih =>
    obtain ⟨γ', o, hstep, hst', -⟩ := turns_follows.next hst (System.meets_true x l) hs
    exact ih (hr.step hstep) hst' (hw.step ((turns_keeps _).reach hr) hc hj hstep)

/-- **No ring is starved.** Whatever ring each consumer's first scan begins
at: if ring `j` of consumer `c` is not empty, then as long as nothing is taken
from it, the consumer takes at most one event less than it owns rings. -/
theorem no_ring_starved {x y : System.Config (queueFrom V Tid g first)}
    {ls : List (System.Label (queueFrom V Tid g first))}
    (hx : (queueFrom V Tid g first).Reachable x) (hrun : (queueFrom V Tid g first).lts.Run x ls y)
    {c j : Nat} (hc : c < g.C) (hj : j < g.kOwned)
    (hne : (x.state.shard (g.ring_of c j)).head < (x.state.shard (g.ring_of c j)).tail)
    (hkept : (y.state.shard (g.ring_of c j)).head = (x.state.shard (g.ring_of c j)).head) :
    ∃ l, y.state.taken c = x.state.taken c ++ l ∧ l.length ≤ g.kOwned - 1 := by
  obtain ⟨γ, hr, hst⟩ := turns_follows.stands (System.Reachable.reachableIf hx)
  obtain ⟨γ', hw⟩ := watched_run hrun hc hj hr hst (.inr ⟨rfl, .start hj hne⟩)
  rw [Watched, hkept] at hw
  obtain ⟨-, hw⟩ := hw.resolve_left (Nat.lt_irrefl _)
  obtain ⟨l, hl⟩ := hw.taken
  refine ⟨l, hl.symm, ?_⟩
  have hlen : (y.state.taken c).length ≤ (x.state.taken c).length + (g.kOwned - 1) := by
    by_cases ht : ∃ t, (γ' t).consumer = some c
    · obtain ⟨t, ht⟩ := ht
      exact Nat.le_trans (Nat.le_add_right _ _) (hw.at_ t ht)
    · exact Nat.le_trans (Nat.le_add_right _ _) (hw.rest fun t h => ht ⟨t, h⟩)
  rw [← hl, List.length_append] at hlen
  omega

end

/-- Two events on two rings, and a consumer that begins at the second. -/
theorem no_ring_starved_tiny : ∃ (x y : System.Config (queueFrom Nat (Fin 3) tiny fun _ => 1))
    (ls : List (System.Label (queueFrom Nat (Fin 3) tiny fun _ => 1))),
    (queueFrom Nat (Fin 3) tiny fun _ => 1).lts.Run x ls y ∧
    (x.state.shard 0).head < (x.state.shard 0).tail ∧
    (y.state.shard 0).head = (x.state.shard 0).head ∧
    y.state.taken 0 = [⟨1, (1, 1), 8⟩] ∧
    ∃ l, y.state.taken 0 = x.state.taken 0 ++ l ∧ l.length ≤ 1 := by
  let pushes : List (System.Label (queueFrom Nat (Fin 3) tiny fun _ => 1)) :=
    .invoke (0 : Fin 3) (.push 0 7) :: List.replicate 7 (.step (0 : Fin 3) 0) ++
      .invoke (1 : Fin 3) (.try_push 1 8) :: List.replicate 6 (.step (1 : Fin 3) 0)
  let pop : List (System.Label (queueFrom Nat (Fin 3) tiny fun _ => 1)) :=
    .invoke (2 : Fin 3) (.try_pop 0) :: List.replicate 10 (.step (2 : Fin 3) 0)
  obtain ⟨x, y, hx, hr, hp⟩ := System.run_of_test pushes pop
    (fun x y => decide ((x.state.shard 0).head < (x.state.shard 0).tail ∧
      (y.state.shard 0).head = (x.state.shard 0).head ∧
      y.state.taken 0 = [⟨1, (1, 1), 8⟩])) (by decide +kernel)
  obtain ⟨h1, h2, h3⟩ := of_decide_eq_true hp
  exact ⟨x, y, pop, hr, h1, h2, h3,
    no_ring_starved hx hr (c := 0) (j := 0) (by decide) (by decide) h1 h2⟩

end Katas.Turnstile.Sharded
