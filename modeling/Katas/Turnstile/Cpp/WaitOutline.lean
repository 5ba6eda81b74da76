import Katas.Turnstile.Cpp.WaitSteps

/-!
# The outline of the consumers' event count

From the steps of `WaitSteps` to the functions of the event count and the
queue, and to `waitOutline_valid`.
-/
namespace Katas.Turnstile.Cpp
open Katas.Conc Katas.SeqRing Outline

section
variable {V Tid : Type} [Inhabited V] [DecidableEq Tid] {N : Capacity} {o : Options}
  {t : Tid} {g : Nap}

/-! ## What does not concern the sleepers -/

/-- Blocks on `not_full_`. -/
def blocksFull : Act V → Bool
  | .blocked .not_full => true
  | _ => false

def idleProc : Proc V → Bool
  | .waitLoop .not_full _ | .awaitPoll _ => true
  | _ => false

/-- Leaves the role as it is; with `b`, one that rests, and it may sleep on
`not_full_`. -/
abbrev Still (b : Bool) {α : Type} (p : M V α) : Prop :=
  p.Silent (fun a => still a = true ∨ b = true ∧ blocksFull a = true)
    fun p => b = true ∧ idleProc p = true

theorem wp_still {b : Bool} {α : Type} {p : M V α} {Q : α → Nap → Prop}
    (hg : b = true → Resting g) (hp : Still b p) (hQ : ∀ a, Q a g) :
    (waitOutline N o).wp t p Q g := by
  refine wp_silent (fun a ha => ?_) (fun p hp => ?_) hp hQ
  · rcases ha with ha | ⟨hr, ha⟩
    · exact napAtom_still ha
    · match a with
      | .blocked .not_full => exact napAtom_blockedFull (hg hr)
  · obtain ⟨hr, hp⟩ := hp
    match p with
    | .waitLoop .not_full _ => exact ⟨hg hr, fun r g' h => h⟩
    | .awaitPoll _ => exact ⟨hg hr, fun r g' h => h⟩

section still
variable {b : Bool}

omit [Inhabited V]

theorem still_op {a : Act V} (h : still a = true) : Still b (op a) := Prog.silent_op (.inl h)

theorem still_bump_one : Still (V := V) b (bump_one .not_full) :=
  .seq (still_op rfl) fun _ => .seq (still_op rfl) fun _ => trivial

theorem still_notify_one : Still (V := V) b (notify_one o .not_full) := by
  unfold notify_one
  split
  · exact still_bump_one
  · refine .seq (still_op rfl) fun n => ?_
    split
    · trivial
    · split
      · refine .seq (still_op rfl) fun p => ?_
        split
        · trivial
        · refine .seq (still_op rfl) fun p => ?_
          split
          · trivial
          · exact still_bump_one
      · exact still_bump_one

theorem still_notify_all : Still (V := V) b (notify_all .not_full) :=
  .seq (still_op rfl) fun _ => still_op rfl

theorem still_notify_all_if_waiting : Still (V := V) b (notify_all_if_waiting .not_full) := by
  refine .seq (still_op rfl) fun n => ?_
  split
  · trivial
  · exact .seq still_notify_all fun _ => trivial

theorem still_prepare_wait : Still (V := V) b (prepare_wait o .not_full) := by
  refine .seq (still_op rfl) fun key => ?_
  split
  · trivial
  · exact .seq (still_op rfl) fun _ => .seq (still_op rfl) fun _ => trivial

theorem still_cancel_wait : Still (V := V) b (cancel_wait o .not_full) := by
  unfold cancel_wait
  split
  · trivial
  · exact still_op rfl

theorem still_waitLoop (key : Nat) : Still (V := V) true (waitLoop .not_full key) := by
  refine .seq (still_op rfl) fun e => ?_
  split
  · refine .seq (still_op rfl) fun late => ?_
    split
    · trivial
    · exact .seq (still_op rfl) fun _ => .seq (Prog.silent_op (.inr ⟨rfl, rfl⟩)) fun _ =>
        Prog.silent_proc ⟨rfl, rfl⟩
  · trivial

theorem still_wait (key : Nat) : Still (V := V) true (wait o .not_full key) := by
  refine .seq (Prog.silent_proc ⟨rfl, rfl⟩) fun woke => ?_
  split
  · trivial
  · exact .seq (still_op rfl) fun _ => .seq (still_op rfl) fun _ => trivial

theorem still_release (pos : Nat) : Still (V := V) b (release N.n o pos) := by
  refine .seq (still_op rfl) fun _ => ?_
  split
  · trivial
  · split
    · exact .seq still_notify_all_if_waiting fun _ => trivial
    · exact .seq still_notify_one fun _ => trivial

theorem still_chain_full_wake : Still (V := V) b (chain_full_wake o) := by
  refine .seq (still_op rfl) fun w => .seq (still_op rfl) fun seq => ?_
  split
  · exact .seq still_notify_one fun _ => trivial
  · trivial

theorem still_awaitPoll (pos : Nat) : Still (V := V) true (awaitPoll o pos) := by
  refine .seq (still_op rfl) fun seq => ?_
  split
  · trivial
  · refine .seq still_prepare_wait fun key => .seq (still_op rfl) fun seq => ?_
    split
    · exact still_cancel_wait
    · exact .seq (still_wait key) fun _ => Prog.silent_proc ⟨rfl, rfl⟩

theorem still_awaitLook (pos n : Nat) : Still (V := V) true (awaitLook pos n) := by
  induction n with
  | zero => exact Prog.silent_proc ⟨rfl, rfl⟩
  | succ n ih =>
    refine .seq (still_op rfl) fun seq => ?_
    split
    · trivial
    · exact ih

theorem still_spinPop (n : Nat) : Still (V := V) b (spinPop n) := by
  induction n with
  | zero => trivial
  | succ n ih =>
    refine .seq (.seq (still_op rfl) fun _ => .seq (still_op rfl) fun _ => trivial) fun seen => ?_
    split
    · trivial
    · exact ih

end still

/-! ## The event count -/

theorem not_epochWake (ho : o.wake = .event_count) : epochWake o .not_empty = false := by
  simp [epochWake, ho]

theorem wp_bump_one {α : Type} {b : α} (hsl : g.sleep = .out) (hd : g.duty ≠ .closer) :
    (waitOutline N o).wp t (do
      op (V := V) (.epochAdd .not_empty)
      op (.wakeOne .not_empty)
      pure b) (fun _ g' => Resting g') g := by
  refine wp_op_seq (napAtom_bump hsl hd) fun _ g' he => ?_
  obtain ⟨m, rfl⟩ := he
  exact wp_op_seq (napAtom_wakeOne rfl) fun _ _ he => he ▸ ⟨rfl, rfl⟩

theorem wp_notify_one (ho : o.wake = .event_count) (hsl : g.sleep = .out)
    (hd : g.duty = .looking) :
    (waitOutline N o).wp t (notify_one (V := V) o .not_empty) (fun _ g' => Resting g') g := by
  unfold notify_one
  rw [not_epochWake ho, if_neg (by simp)]
  refine wp_op_seq (napAtom_waitersLoad hsl hd) fun n g' h => ?_
  rcases h with ⟨rfl, rfl⟩ | ⟨hn, rfl⟩
  · exact ⟨rfl, rfl⟩
  · rw [if_neg hn]
    split
    · refine wp_op_seq (napAtom_pendingLoad hsl hd) fun p g' h => ?_
      rcases h with ⟨rfl, rfl⟩ | ⟨rfl, rfl⟩
      · exact ⟨rfl, rfl⟩
      · refine wp_op_seq (napAtom_pendingExchange hsl hd) fun p g' h => ?_
        rcases h with ⟨rfl, rfl⟩ | ⟨rfl, rfl⟩
        · exact ⟨rfl, rfl⟩
        · exact wp_bump_one rfl (by simp)
    · exact wp_bump_one hsl (by simp [hd])

theorem wp_prepare_wait (ho : o.wake = .event_count) (hg : Resting g) :
    (waitOutline N o).wp t (prepare_wait (V := V) o .not_empty)
      (fun k g' => g'.sleep = .up k false ∧ g'.duty = .none) g := by
  refine wp_op_seq (napAtom_key hg) fun k g' he => ?_
  subst he
  rw [not_epochWake ho, if_neg (by simp)]
  refine wp_op_seq (napAtom_enter rfl rfl) fun _ g' he => ?_
  subst he
  exact wp_op_seq (napAtom_arm rfl rfl) fun _ g' he => he ▸ ⟨rfl, rfl⟩

theorem wp_cancel_wait {k : Nat} {re : Bool} (ho : o.wake = .event_count)
    (hsl : g.sleep = .up k re) (hd : g.duty = .none) :
    (waitOutline N o).wp t (cancel_wait (V := V) o .not_empty) (fun _ g' => Resting g') g := by
  unfold cancel_wait
  rw [not_epochWake ho, if_neg (by simp)]
  exact wp_op ((napAtom_cancel hsl hd).mono fun _ g' he => he ▸ ⟨rfl, rfl⟩)

theorem wp_waitLoop {k : Nat} (hg : Waiting k g) :
    (waitOutline N o).wp t (waitLoop (V := V) .not_empty k)
      (fun _ g' => g'.sleep = .leaving ∧ g'.duty = .none) g := by
  refine wp_op_seq (napAtom_waitLook hg) fun e g' h => ?_
  rcases h with ⟨rfl, rfl⟩ | ⟨hne, rfl⟩
  · rw [if_pos rfl]
    refine wp_op_seq (napAtom_late ⟨rfl, .inr rfl⟩) fun late g' h => ?_
    rcases h with ⟨rfl, rfl⟩ | ⟨rfl, rfl⟩
    · exact ⟨rfl, rfl⟩
    · rw [if_neg (by simp)]
      refine wp_op_seq (napAtom_waitOn rfl rfl) fun _ g' he => ?_
      subst he
      refine wp_op_seq (napAtom_blocked rfl rfl) fun _ g' he => ?_
      subst he
      exact wp_proc ⟨rfl, .inr rfl⟩ fun _ _ h => h
  · rw [if_neg hne]
    exact ⟨rfl, rfl⟩

theorem wp_wait {k : Nat} (ho : o.wake = .event_count) (hsl : g.sleep = .up k true)
    (hd : g.duty = .none) :
    (waitOutline N o).wp t (wait (V := V) o .not_empty k)
      (fun _ g' => g'.sleep = .awake ∧ g'.duty = .none) g := by
  refine wp_proc_seq ⟨hd, .inl hsl⟩ fun woke g' h => ?_
  obtain ⟨hs, hd'⟩ := h
  rw [not_epochWake ho, if_neg (by simp)]
  refine wp_op_seq (napAtom_leave hs hd') fun _ g' he => ?_
  subst he
  exact wp_op_seq (napAtom_rise rfl rfl) fun _ g' he => he ▸ ⟨rfl, rfl⟩

/-! ## Producers -/

theorem wp_notified (ho : o.wake = .event_count) (hsl : g.sleep = .out) (hd : g.duty = .looking)
    {α : Type} {b : α} :
    (waitOutline N o).wp t (do
      let _ ← notify_one (V := V) o .not_empty
      pure b) (fun _ g' => Resting g') g :=
  wp_seq (wp_mono (wp_notify_one ho hsl hd) fun _ _ h => h)

theorem napPublish {pos : Nat} {v : V} (ho : o.wake = .event_count) (hg : Resting g) :
    (waitOutline N o).wp t (publish o pos v) (fun _ g' => Resting g') g := by
  refine wp_op_seq (napAtom_still rfl) fun _ g' he => ?_
  subst he
  refine wp_op_seq (napAtom_publish hg) fun _ g' he => ?_
  subst he
  exact wp_notified ho rfl rfl

theorem napTryPushLoop {v : V} {word : TailWord} (ho : o.wake = .event_count) (hg : Resting g) :
    (waitOutline N o).wp t (tryPushLoop o v word) (fun _ g' => Resting g') g := by
  unfold tryPushLoop
  split
  · exact hg
  · refine wp_op_seq (napAtom_still rfl) fun seq g' he => ?_
    subst he
    split
    · refine wp_op_seq (napAtom_still rfl) fun won g' he => ?_
      subst he
      cases won with
      | done => exact napPublish ho hg
      | found word => exact wp_proc hg fun _ _ h => h
    · split
      · exact hg
      · refine wp_op_seq (napAtom_still rfl) fun word g' he => ?_
        subst he
        exact wp_proc hg fun _ _ h => h

theorem napTryPush {v : V} (hg : Resting g) :
    (waitOutline N o).wp t (try_push v) (fun _ g' => Resting g') g := by
  refine wp_op_seq (napAtom_still rfl) fun word g' he => ?_
  subst he
  exact wp_proc hg fun _ _ h => h

theorem napPushTicket {v : V} (ho : o.wake = .event_count) (hg : Resting g) :
    (waitOutline N o).wp t (pushTicket o v) (fun _ g' => Resting g') g := by
  refine wp_op_seq (napAtom_still rfl) fun word g' he => ?_
  subst he
  split
  · exact hg
  · refine wp_op_seq (napAtom_still rfl) fun word g' he => ?_
    subst he
    refine wp_seq (wp_still (fun _ => hg) (still_awaitLook _ _) fun _ => ?_)
    split
    · refine wp_op_seq (napAtom_bury hg) fun _ g' he => ?_
      subst he
      exact hg
    · exact napPublish ho hg

theorem napPushLoop {v : V} {parked : Bool} (hg : Resting g) :
    (waitOutline N o).wp t (pushLoop o v parked) (fun _ g' => Resting g') g := by
  -- the end of an attempt that was not refused as full
  have tail : ∀ {r : Push} {g' : Nap}, Resting g' →
      (waitOutline N o).wp t (if parked = true ∧ r = .ok then (do
          chain_full_wake (V := V) o
          pure r)
        else pure r) (fun _ g' => Resting g') g' := by
    intro r g' hg'
    split
    · exact wp_seq (wp_still (fun _ => hg') (still_chain_full_wake (b := true)) fun _ => hg')
    · exact hg'
  refine wp_seq (wp_mono (napTryPush hg) fun r g' hg' => ?_)
  split
  · exact tail hg'
  · refine wp_seq (wp_still (fun _ => hg') (still_prepare_wait (b := true)) fun key =>
      wp_seq (wp_mono (napTryPush hg') fun r g'' hg'' => ?_))
    split
    · exact wp_seq (wp_still (fun _ => hg'') (still_cancel_wait (b := true)) fun _ => tail hg'')
    · refine wp_op_seq (napAtom_still rfl) fun late g' he => ?_
      subst he
      split
      · exact wp_seq (wp_still (fun _ => hg'') (still_cancel_wait (b := true)) fun _ => hg'')
      · exact wp_seq (wp_still (fun _ => hg'') (still_wait key) fun _ => wp_proc hg'' fun _ _ h => h)

theorem napPush {v : V} (ho : o.wake = .event_count) (hg : Resting g) :
    (waitOutline N o).wp t (push o v) (fun _ g' => Resting g') g := by
  unfold push
  split
  · exact napPushTicket ho hg
  · exact wp_proc hg fun _ _ h => h

/-! ## Consumers -/

theorem Resting.trying (hg : Resting g) : Trying g := ⟨hg.2, .inl hg.1⟩

omit [Inhabited V] in
theorem Tried.resting {r : Pop V} {g' : Nap} (h : Tried g r g') (hg : Resting g) :
    Resting g' := by
  obtain ⟨hd, ⟨-, hs⟩ | ⟨-, hs⟩⟩ := h
  · exact ⟨hs.trans hg.1, hd.trans hg.2⟩
  · exact ⟨by rw [hs, hg.1]; rfl, hd.trans hg.2⟩

theorem napConsume {pos : Nat} :
    (waitOutline N o).wp t (consume (V := V) N.n o pos)
      (fun r g' => (∃ v, r = .ok v) ∧ g' = g) g := by
  refine wp_op_seq (napAtom_still rfl) fun v g' he => ?_
  subst he
  refine wp_op_seq (napAtom_still rfl) fun _ g' he => ?_
  subst he
  exact wp_seq (wp_still (b := false) nofun (still_release pos) fun _ => ⟨⟨v, rfl⟩, rfl⟩)

theorem napTryPopLoop {pos : Nat} (hg : Trying g) (hpos : g.seen = pos) :
    (waitOutline N o).wp t (tryPopLoop (V := V) N.n o pos) (Tried g) g := by
  refine wp_op_seq (napAtom_tryLook hg hpos) fun raw g' hraw => ?_
  rcases hraw with ⟨hlt, rfl⟩ | ⟨hge, rfl⟩
  · -- unpublished: the pop ends empty, and a sleeper has re-checked
    have hne : dif raw (pos + 1) ≠ 0 := fun h => by have := dif_eq_zero.mp h; omega
    rw [if_neg hne, if_pos (dif_neg.mpr hlt)]
    exact ⟨hg.1.symm, .inr ⟨rfl, rfl⟩⟩
  · split
    · refine wp_op_seq napAtom_headCas fun won g'' hwon => ?_
      rcases hwon with ⟨rfl, rfl⟩ | ⟨p, rfl, rfl⟩
      · dsimp only
        split
        · refine wp_mono napConsume fun r g'' h => ?_
          obtain ⟨hv, rfl⟩ := h
          exact ⟨rfl, .inl ⟨hv, rfl⟩⟩
        · exact wp_seq (wp_still (b := false) nofun (still_release pos) fun _ =>
            wp_proc ⟨hg, rfl⟩ fun _ _ h => h)
      · exact wp_proc ⟨hg, rfl⟩ fun _ _ h => h
    · rw [if_neg (mt dif_neg.mp hge)]
      exact wp_op_seq napAtom_headLook fun w g' he => by
        subst he; exact wp_proc ⟨hg, rfl⟩ fun _ _ h => h

theorem napTryPop (hg : Trying g) : (waitOutline N o).wp t (try_pop (V := V)) (Tried g) g :=
  wp_op_seq napAtom_headLook fun _ g' he => by subst he; exact wp_proc ⟨hg, rfl⟩ fun _ _ h => h

theorem napHandOff {v : V} (ho : o.wake = .event_count) (hsl : g.sleep = .awake)
    (hd : g.duty = .none) :
    (waitOutline N o).wp t (handOff o v) (fun _ g' => Resting g') g := by
  refine wp_seq (wp_op_seq napAtom_headLook fun h g' he => ?_)
  subst he
  refine wp_op_seq (napAtom_handLook hsl hd) fun seq g' hseq => ?_
  rcases hseq with ⟨hs, rfl⟩ | ⟨hs, rfl⟩
  · show (waitOutline N o).wp t (if (seq.stamp == h + 1) = true then _ else _) _ _
    rw [if_pos (by simp [hs])]
    exact wp_notified ho rfl rfl
  · show (waitOutline N o).wp t (if (seq.stamp == h + 1) = true then _ else _) _ _
    rw [if_neg (by simp [hs])]
    exact ⟨rfl, rfl⟩

theorem napPopAgain (hg : Resting g) :
    (waitOutline N o).wp t (popAgain (V := V)) (fun _ g' => Resting g') g := by
  refine wp_op_seq (napAtom_still rfl) fun late g' he => ?_
  subst he
  split
  · exact hg
  · exact wp_proc hg fun _ _ h => h

theorem napPopSleep (ho : o.wake = .event_count) (hg : Resting g) :
    (waitOutline N o).wp t (popSleep (V := V) o) (fun _ g' => Resting g') g := by
  refine wp_seq (wp_mono (wp_prepare_wait ho hg) fun key g' hup => ?_)
  obtain ⟨hsl, hd⟩ := hup
  refine wp_seq (wp_mono (napTryPop ⟨hd, .inr (.inr ⟨key, hsl⟩)⟩) fun r g'' h => ?_)
  obtain ⟨hd', ⟨⟨v, rfl⟩, hs⟩ | ⟨rfl, hs⟩⟩ := h
  · exact wp_seq (wp_mono (wp_cancel_wait ho (hs.trans hsl) (hd'.trans hd)) fun _ _ h => h)
  have hsl' : g''.sleep = .up key true := by rw [hs, hsl]; rfl
  have hd'' := hd'.trans hd
  refine wp_op_seq (napAtom_still rfl) fun word g' he => ?_
  subst he
  split
  · exact wp_seq (wp_mono (wp_cancel_wait ho hsl' hd'') fun _ _ h => wp_proc h fun _ _ h => h)
  · refine wp_op_seq (napAtom_still rfl) fun late g' he => ?_
    subst he
    split
    · exact wp_seq (wp_mono (wp_cancel_wait ho hsl' hd'') fun _ _ h => h)
    · refine wp_seq (wp_mono (wp_wait ho hsl' hd'') fun _ g' h => ?_)
      obtain ⟨hs, hd⟩ := h
      refine wp_seq (wp_mono (napTryPop ⟨hd, .inr (.inl hs)⟩) fun r g'' h => ?_)
      obtain ⟨hd', ⟨⟨v, rfl⟩, hs'⟩ | ⟨rfl, hs'⟩⟩ := h
      · exact napHandOff ho (hs'.trans hs) (hd'.trans hd)
      · exact wp_proc ⟨by rw [hs', hs]; rfl, hd'.trans hd⟩ fun _ _ h => h

theorem napPopLoop (ho : o.wake = .event_count) (hg : Resting g) :
    (waitOutline N o).wp t (popLoop (V := V) o) (fun _ g' => Resting g') g := by
  refine wp_seq (wp_mono (napTryPop hg.trying) fun r g' h => ?_)
  have hg' := h.resting hg
  obtain ⟨-, ⟨⟨v, rfl⟩, -⟩ | ⟨rfl, -⟩⟩ := h
  · exact hg'
  refine wp_seq (wp_still (fun _ => hg') (still_spinPop (b := true) _) fun _ => ?_)
  refine wp_seq (wp_mono (napTryPop hg'.trying) fun r g'' h => ?_)
  have hg'' := h.resting hg'
  obtain ⟨-, ⟨⟨v, rfl⟩, -⟩ | ⟨rfl, -⟩⟩ := h
  · exact hg''
  refine wp_op_seq (napAtom_still rfl) fun word g' he => ?_
  subst he
  split
  · refine wp_op_seq (napAtom_headLook) fun h g' he => ?_
    subst he
    split
    · exact hg''
    · exact napPopAgain hg''
  · split
    · exact napPopAgain hg''
    · exact napPopSleep ho hg''

theorem napClose (hg : Resting g) :
    (waitOutline N o).wp t (close (V := V)) (fun _ g' => Resting g') g := by
  refine wp_op_seq (napAtom_close hg) fun _ g' he => ?_
  subst he
  refine wp_seq (wp_op_seq (napAtom_bumpAll rfl) fun _ g' he => ?_)
  subst he
  refine wp_op ((napAtom_wakeAll rfl).mono fun _ g' he => ?_)
  subst he
  exact wp_still (fun _ => ⟨rfl, rfl⟩) (still_notify_all (b := true)) fun _ => ⟨rfl, rfl⟩

/-! ## The outline -/

theorem nap_body (ho : o.wake = .event_count) (p : Proc V) (h : napPre p g) :
    (waitOutline N o).wp t (body N.n o p) (napPost p g) g := by
  cases p with
  | tryPushLoop v word => exact napTryPushLoop ho h
  | pushLoop v parked => exact napPushLoop h
  | awaitPoll pos => exact wp_still (fun _ => h) (still_awaitPoll pos) fun _ => rfl
  | tryPopLoop pos => exact napTryPopLoop h.1 h.2
  | popLoop => exact napPopLoop ho h
  | waitLoop w key =>
    cases w with
    | not_empty => exact wp_waitLoop h
    | not_full => exact wp_still (fun _ => h) (still_waitLoop key) fun _ => rfl

theorem nap_code (ho : o.wake = .event_count) (k : Call V) (hg : Resting g) :
    (waitOutline N o).wp t (code o k) (fun _ g' => Resting g') g := by
  cases k with
  | try_push v => exact wp_seq (wp_mono (napTryPush hg) fun _ _ h => h)
  | push v => exact wp_seq (wp_mono (napPush ho hg) fun _ _ h => h)
  | try_pop => exact wp_seq (wp_mono (napTryPop hg.trying) fun _ _ h => h.resting hg)
  | pop => exact wp_seq (wp_proc hg fun _ _ h => h)
  | close => exact wp_seq (wp_mono (napClose hg) fun _ _ h => h)

omit [Inhabited V] [DecidableEq Tid] in
theorem init_napInv : NapInv (State.init : State V Tid) fun _ => ⟨.out, .none, 0⟩ := by
  refine ⟨fun _ => Nat.le_refl _, nofun, ⟨⟨[], ?_⟩, ?_, ?_, ?_, ?_⟩, ⟨?_, ?_⟩⟩ <;>
    simp [State.init, EventCount.init, Sleep.isCounted, Sleep.key, Ledger.init, Stuck]

theorem waitOutline_valid (ho : o.wake = .event_count) :
    (waitOutline N o : Outline (queue V Tid N o)).Valid where
  init := ⟨_, init_napInv, fun _ => ⟨rfl, rfl⟩⟩
  body t p g h := nap_body ho p h
  call t k s γ hI hr _ := by
    refine ⟨γ t, ?_, wp_mono (nap_code ho k hr) fun r g' hg s γ hI hγ => ⟨γ t, ?_, hγ ▸ hg⟩⟩
    · rw [upd_eq_self]; exact NapInv.unmoved hI ⟨rfl, rfl, rfl, id⟩
    · rw [upd_eq_self]; exact NapInv.unmoved hI ⟨rfl, rfl, rfl, id⟩

end
end Katas.Turnstile.Cpp
