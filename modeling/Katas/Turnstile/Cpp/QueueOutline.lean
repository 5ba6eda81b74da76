import Katas.Turnstile.Cpp.QueueInv

/-!
# The outline of the C++ queue's entry points

From the operations of `QueueInv` to the functions of the queue, in the
order of the source, and from them to `queueOutline_valid`.
-/
namespace Katas.Turnstile.Cpp
open Katas.Conc Katas.SeqRing Outline

section
variable {V Tid : Type} [Inhabited V] [DecidableEq Tid] {N : Capacity} {o : Options}
  {t : Tid} {g : QueueRole V}

/-! ## The event counts -/

def quietProc : Proc V → Bool
  | .waitLoop _ _ => true
  | _ => false

abbrev Quiet {α : Type} (p : M V α) : Prop :=
  p.Silent (fun a => quiet a = true) fun p => quietProc p = true

theorem wp_quiet {α : Type} {p : M V α} {Q : α → QueueRole V → Prop} (hg : Running g)
    (hp : Quiet p) (hQ : ∀ a, Q a g) : (queueOutline N o).wp t p Q g := by
  refine wp_silent (fun a ha => atom_quiet ha hg) (fun p hp => ?_) hp hQ
  cases p with
  | waitLoop w key => exact ⟨hg, fun r g' h => h⟩
  | _ => cases hp

section
omit [Inhabited V]

theorem quiet_prepare_wait (w : Side) : Quiet (V := V) (prepare_wait o w) := by
  refine .op rfl fun key => ?_
  split
  · trivial
  · exact .op rfl fun _ => .op rfl fun _ => trivial

theorem quiet_cancel_wait (w : Side) : Quiet (V := V) (cancel_wait o w) := by
  unfold cancel_wait
  split
  · trivial
  · exact Prog.silent_op rfl

theorem quiet_waitLoop (w : Side) (key : Nat) : Quiet (V := V) (waitLoop w key) := by
  refine .op rfl fun e => ?_
  split
  · refine .op rfl fun late => ?_
    split
    · trivial
    · exact .op rfl fun _ => .op rfl fun _ => Prog.silent_proc rfl
  · trivial

theorem quiet_wait (w : Side) (key : Nat) : Quiet (V := V) (wait o w key) := by
  refine .proc rfl fun woke => ?_
  split
  · trivial
  · exact .op rfl fun _ => .op rfl fun _ => trivial

theorem quiet_bump_one (w : Side) : Quiet (V := V) (bump_one w) :=
  .op rfl fun _ => .op rfl fun _ => trivial

theorem quiet_notify_one (w : Side) : Quiet (V := V) (notify_one o w) := by
  unfold notify_one
  split
  · exact quiet_bump_one w
  · refine .op rfl fun n => ?_
    split
    · trivial
    · split
      · refine .op rfl fun p => ?_
        split
        · trivial
        · refine .op rfl fun p => ?_
          split
          · trivial
          · exact quiet_bump_one w
      · exact quiet_bump_one w

theorem quiet_notify_all (w : Side) : Quiet (V := V) (notify_all w) :=
  .op rfl fun _ => Prog.silent_op rfl

theorem quiet_notify_all_if_waiting (w : Side) : Quiet (V := V) (notify_all_if_waiting w) := by
  refine .op rfl fun n => ?_
  split
  · trivial
  · exact .seq (quiet_notify_all w) fun _ => trivial

theorem quiet_chain_full_wake : Quiet (V := V) (chain_full_wake o) := by
  refine .op rfl fun w => .op rfl fun seq => ?_
  split
  · exact .seq (quiet_notify_one _) fun _ => trivial
  · trivial

theorem quiet_head_published {site : Site} (h : site ≠ .await_turn) :
    Quiet (V := V) (head_published site) :=
  .op rfl fun _ => .seq
    (Prog.silent_op (by cases site <;> first | rfl | exact absurd rfl h)) fun _ => trivial

theorem quiet_spinPop (n : Nat) : Quiet (V := V) (spinPop n) := by
  induction n with
  | zero => trivial
  | succ n ih =>
    refine .seq (quiet_head_published nofun) fun seen => ?_
    split
    · trivial
    · exact ih

end

/-! ## Producers -/

omit [Inhabited V] in
theorem Running.into (hg : Running g) (st : Stage V) : Running (g.into st) := hg

omit [Inhabited V] in
theorem Stores.running {v : V} (h : Stores g v) : Running g := by
  obtain ⟨k, hk, -⟩ := h; exact ⟨k, hk⟩

theorem wp_publish {pos : Nat} {v : V} (hst : g.stage = .holds pos false) (hv : Stores g v) :
    (queueOutline N o).wp t (publish o pos v)
      (fun r g' => r = .ok ∧ g' = g.into (.pushed pos v)) g := by
  have hg := hv.running
  refine wp_op_seq (atom_construct hg hst hv) fun _ g' he => ?_
  subst he
  refine wp_op_seq (atom_seqStore (hg.into _) rfl) fun _ g' he => ?_
  subst he
  exact wp_seq (wp_quiet (hg.into _) (quiet_notify_one _) fun _ => ⟨rfl, rfl⟩)

theorem wp_tryPushLoop {v : V} {word : TailWord} (hst : g.stage = .none) (hv : Stores g v) :
    (queueOutline N o).wp t (tryPushLoop o v word) (TryPushed g) g := by
  have hg := hv.running
  unfold tryPushLoop
  split
  · exact .inr ⟨.inr rfl, rfl⟩
  · rename_i hw
    refine wp_op_seq (atom_lookFree hg hst) fun seq g' hseq => ?_
    rcases hseq with ⟨hs, rfl⟩ | ⟨hs, rfl⟩
    · rw [if_pos (dif_eq_zero.mpr hs)]
      refine wp_op_seq (atom_tailCas (hg.into _) rfl (by simpa using hw)) fun won g'' hwon => ?_
      rcases hwon with ⟨rfl, rfl⟩ | ⟨⟨word', rfl⟩, rfl⟩
      · refine wp_mono (wp_publish rfl hv) fun r g' h => ?_
        obtain ⟨rfl, rfl⟩ := h
        exact .inl ⟨rfl, _, v, rfl⟩
      · rw [Role.into_into, Role.into_self hst]
        exact wp_proc ⟨hv, hst⟩ fun _ _ h => h
    · rw [if_neg (mt dif_eq_zero.mp hs)]
      split
      · exact .inr ⟨.inl rfl, rfl⟩
      · refine wp_op_seq (atom_quiet rfl hg) fun word' g'' he => ?_
        subst he
        exact wp_proc ⟨hv, hst⟩ fun _ _ h => h

theorem wp_try_push {v : V} (hst : g.stage = .none) (hv : Stores g v) :
    (queueOutline N o).wp t (try_push v) (TryPushed g) g := by
  refine wp_op_seq (atom_quiet rfl hv.running) fun word g' he => ?_
  subst he
  exact wp_proc ⟨hv, hst⟩ fun _ _ h => h

omit [Inhabited V] in
theorem TryPushed.returns {r : Push} {g' : QueueRole V} (h : TryPushed g r g')
    (hst : g.stage = .none) : g'.call = g.call ∧ Ledger.Returns g'.stage (.push r) := by
  rcases h with ⟨rfl, p, v, rfl⟩ | ⟨rfl | rfl, rfl⟩
  · exact ⟨rfl, trivial⟩
  · exact ⟨rfl, by rw [hst]; trivial⟩
  · exact ⟨rfl, by rw [hst]; trivial⟩

omit [Inhabited V] in
/-- A push that was refused as full has reserved nothing. -/
theorem TryPushed.full {g' : QueueRole V} (h : TryPushed g .full g') : g' = g := by
  rcases h with ⟨h, -⟩ | ⟨-, h⟩
  · cases h
  · exact h

theorem wp_awaitPoll {pos : Nat} {late : Bool} (hg : Running g) (hst : g.stage = .waits pos late) :
    (queueOutline N o).wp t (awaitPoll o pos) (fun _ g' => g' = g.into (.holds pos late)) g := by
  refine wp_op_seq (atom_lookTurn hg hst) fun r g' h => ?_
  rcases h with ⟨rfl, rfl⟩ | ⟨hr, rfl⟩
  · rw [if_pos rfl]; rfl
  · rw [if_neg hr]
    refine wp_seq (wp_quiet hg (quiet_prepare_wait _) fun key => ?_)
    refine wp_op_seq (atom_lookTurn hg hst) fun r g'' h => ?_
    rcases h with ⟨rfl, rfl⟩ | ⟨hr, rfl⟩
    · rw [if_pos rfl]
      exact wp_quiet (hg.into _) (quiet_cancel_wait _) fun _ => rfl
    · rw [if_neg hr]
      exact wp_seq (wp_quiet hg (quiet_wait _ _) fun _ =>
        wp_proc ⟨hg, late, hst⟩ fun _ g' h => h late hst)

theorem wp_awaitLook {pos : Nat} {late : Bool} (n : Nat) (hg : Running g)
    (hst : g.stage = .waits pos late) :
    (queueOutline N o).wp t (awaitLook pos n) (fun _ g' => g' = g.into (.holds pos late)) g := by
  induction n with
  | zero => exact wp_proc ⟨hg, late, hst⟩ fun _ g' h => h late hst
  | succ n ih =>
    refine wp_op_seq (atom_lookTurn hg hst) fun r g' h => ?_
    rcases h with ⟨rfl, rfl⟩ | ⟨hr, rfl⟩
    · rw [if_pos rfl]; rfl
    · rw [if_neg hr]; exact ih

/-- What a push owes its caller. -/
abbrev Pushed (g : QueueRole V) (r : Push) (g' : QueueRole V) : Prop :=
  g'.call = g.call ∧ Ledger.Returns g'.stage (.push r)

theorem wp_pushTicket {v : V} (hst : g.stage = .none) (hv : Stores g v) :
    (queueOutline N o).wp t (pushTicket o v) (Pushed g) g := by
  have hg := hv.running
  refine wp_op_seq (atom_quiet rfl hg) fun word g' he => ?_
  subst he
  split
  · exact ⟨rfl, by rw [hst]; trivial⟩
  · refine wp_op_seq (atom_tailAdd hg hst) fun word g' he => ?_
    subst he
    refine wp_seq (wp_mono (wp_awaitLook _ (hg.into _) rfl) fun _ g' he => ?_)
    subst he
    cases hw : word.closed with
    | true =>
      rw [if_pos rfl]
      refine wp_op_seq (atom_seqStoreDead (hg.into _) rfl) fun _ g' he => ?_
      subst he
      exact ⟨rfl, trivial⟩
    | false =>
      rw [if_neg (by simp)]
      refine wp_mono (wp_publish rfl hv) fun r g' h => ?_
      obtain ⟨rfl, rfl⟩ := h
      exact ⟨rfl, trivial⟩

theorem wp_pushLoop {v : V} {parked : Bool} (hst : g.stage = .none) (hv : Stores g v) :
    (queueOutline N o).wp t (pushLoop o v parked) (Pushed g) g := by
  have hg := hv.running
  -- the end of an attempt that was not refused as full
  have tail : ∀ {r g'}, TryPushed g r g' →
      (queueOutline N o).wp t (if parked = true ∧ r = .ok then (do
          chain_full_wake o
          pure r)
        else pure r) (Pushed g) g' := by
    intro r g' h
    have hg' : Running g' := by
      obtain ⟨k, hk⟩ := hg
      exact ⟨k, (h.returns hst).1.trans hk⟩
    split
    · exact wp_seq (wp_quiet hg' quiet_chain_full_wake fun _ => h.returns hst)
    · exact h.returns hst
  refine wp_seq (wp_mono (wp_try_push hst hv) fun r g' h => ?_)
  split
  · exact tail h
  · rename_i hr
    obtain rfl := Decidable.not_not.mp hr
    obtain rfl := h.full
    refine wp_seq (wp_quiet hg (quiet_prepare_wait _) fun key => wp_seq (wp_mono
      (wp_try_push hst hv) fun r g'' h => ?_))
    split
    · have hg'' : Running g'' := by
        obtain ⟨k, hk⟩ := hg
        exact ⟨k, (h.returns hst).1.trans hk⟩
      exact wp_seq (wp_quiet hg'' (quiet_cancel_wait _) fun _ => tail h)
    · rename_i hr
      obtain rfl := Decidable.not_not.mp hr
      obtain rfl := h.full
      refine wp_op_seq (atom_quiet rfl hg) fun late g' he => ?_
      subst he
      split
      · exact wp_seq (wp_quiet hg (quiet_cancel_wait _) fun _ => ⟨rfl, by rw [hst]; trivial⟩)
      · exact wp_seq (wp_quiet hg (quiet_wait _ _) fun _ => wp_proc ⟨hv, hst⟩ fun _ _ h => h)

theorem wp_push {v : V} (hst : g.stage = .none) (hv : Stores g v) :
    (queueOutline N o).wp t (push o v) (Pushed g) g := by
  unfold push
  split
  · exact wp_pushTicket hst hv
  · exact wp_proc ⟨hv, hst⟩ fun _ _ h => h

/-! ## Consumers -/

omit [Inhabited V] in
theorem quiet_releaseWake (pos : Nat) : Quiet (V := V) (if pos % kFullWakeEvery N.n o ≠ 0 then pure ()
    else if o.reserve = .ticket then (do
      let _ ← notify_all_if_waiting .not_full
      pure ())
    else (do
      let _ ← notify_one o .not_full
      pure ())) := by
  split
  · trivial
  · split
    · exact .seq (quiet_notify_all_if_waiting _) fun _ => trivial
    · exact .seq (quiet_notify_one _) fun _ => trivial

theorem wp_consume {pos : Nat} (hg : Running g) (hst : g.stage = .claimed pos) :
    (queueOutline N o).wp t (consume N.n o pos)
      (fun r g' => ∃ v, r = .ok v ∧ g' = g.into (.took pos v)) g := by
  refine wp_op_seq (atom_moveOut hg hst) fun v g' he => ?_
  subst he
  refine wp_op_seq (atom_destroy (hg.into _) rfl) fun _ g' he => ?_
  subst he
  refine wp_seq (wp_op_seq (atom_release (hg.into _) rfl) fun _ g' he => ?_)
  subst he
  exact wp_quiet (hg.into _) (quiet_releaseWake pos) fun _ => ⟨v, rfl, rfl⟩

theorem wp_tryPopLoop {pos : Nat} (hg : Running g) (hst : g.stage = .none) :
    (queueOutline N o).wp t (tryPopLoop N.n o pos) (TryPopped g) g := by
  refine wp_op_seq (atom_lookPub hg hst) fun raw g' hraw => ?_
  rcases hraw with ⟨hs, rfl⟩ | ⟨hs, rfl⟩
  · rw [if_pos (dif_eq_zero.mpr hs)]
    refine wp_op_seq (atom_headCas (hg.into _) rfl) fun won g' hwon => ?_
    rcases hwon with ⟨rfl, rfl⟩ | ⟨⟨pos', rfl⟩, rfl⟩
    · cases hd : raw.dead with
      | true =>
        show (queueOutline N o).wp t (do
          release N.n o pos
          proc (.tryPopLoop (pos + 1))) _ _
        refine wp_seq (wp_op_seq (atom_releaseDead (hg.into _) rfl) fun _ g' he => ?_)
        subst he
        refine wp_quiet (hg.into _) (quiet_releaseWake pos) fun _ => wp_proc ⟨hg.into _, rfl⟩
          fun r g' h => ?_
        have h' : TryPopped ((g.into (.sawPub pos raw.dead)).into (Ledger.claimStage pos true) |>.into
          .none) r g' := h
        simpa only [Role.into_into, Role.into_self hst] using h'
      | false =>
        show (queueOutline N o).wp t (consume N.n o pos) _ _
        refine wp_mono (wp_consume (hg.into _) rfl) fun r g' h => ?_
        obtain ⟨v, rfl, rfl⟩ := h
        exact .inl ⟨pos, v, rfl, rfl⟩
    · rw [Role.into_into, Role.into_self hst]
      exact wp_proc ⟨hg, hst⟩ fun _ _ h => h
  · rw [if_neg (mt dif_eq_zero.mp hs)]
    split
    · exact .inr ⟨rfl, rfl⟩
    · refine wp_op_seq (atom_quiet rfl hg) fun w g' he => ?_
      subst he
      exact wp_proc ⟨hg, hst⟩ fun _ _ h => h

theorem wp_try_pop (hg : Running g) (hst : g.stage = .none) :
    (queueOutline N o).wp t try_pop (TryPopped g) g :=
  wp_op_seq (atom_quiet rfl hg) fun _ g' he => wp_proc (by subst he; exact ⟨hg, hst⟩)
    fun _ _ h => by subst he; exact h

omit [Inhabited V] in
theorem TryPopped.returns {r : Pop V} {g' : QueueRole V} (h : TryPopped g r g')
    (hst : g.stage = .none) : g'.call = g.call ∧ Ledger.Returns g'.stage (.pop r) := by
  rcases h with ⟨p, v, rfl, rfl⟩ | ⟨rfl, rfl⟩
  · exact ⟨rfl, rfl⟩
  · exact ⟨rfl, by rw [hst]; trivial⟩

/-- What `pop` owes its caller. -/
abbrev Popped (g : QueueRole V) (r : Pop V) (g' : QueueRole V) : Prop :=
  g'.call = g.call ∧ Ledger.Returns g'.stage (.pop r)

theorem wp_handOff {v : V} {pos : Nat} (hg : Running g) (hst : g.stage = .took pos v) :
    (queueOutline N o).wp t (handOff o v) (Popped g) g := by
  have hp : Popped g (.ok v) g := ⟨rfl, by rw [hst]; rfl⟩
  refine wp_seq (wp_quiet hg (quiet_head_published nofun) fun more => ?_)
  split
  · exact wp_seq (wp_quiet hg (quiet_notify_one _) fun _ => hp)
  · exact hp

theorem wp_popFromTop (hg : Running g) (hst : g.stage = .none) :
    (queueOutline N o).wp t (proc .popLoop) (Popped g) g :=
  wp_proc ⟨hg, hst⟩ fun _ _ h => h

theorem wp_popAgain (hg : Running g) (hst : g.stage = .none) :
    (queueOutline N o).wp t popAgain (Popped g) g := by
  refine wp_op_seq (atom_quiet rfl hg) fun late g' he => ?_
  subst he
  split
  · exact ⟨rfl, by rw [hst]; trivial⟩
  · exact wp_popFromTop hg hst

theorem wp_popSleep (hg : Running g) (hst : g.stage = .none) :
    (queueOutline N o).wp t (popSleep o) (Popped g) g := by
  refine wp_seq (wp_quiet hg (quiet_prepare_wait _) fun key => wp_seq (wp_mono
    (wp_try_pop hg hst) fun r g' h => ?_))
  rcases h with ⟨p, v, rfl, rfl⟩ | ⟨rfl, rfl⟩
  · exact wp_seq (wp_quiet (hg.into _) (quiet_cancel_wait _) fun _ => ⟨rfl, rfl⟩)
  · refine wp_op_seq (atom_quiet rfl hg) fun word g' he => ?_
    subst he
    split
    · exact wp_seq (wp_quiet hg (quiet_cancel_wait _) fun _ => wp_popFromTop hg hst)
    · refine wp_op_seq (atom_quiet rfl hg) fun late g' he => ?_
      subst he
      split
      · exact wp_seq (wp_quiet hg (quiet_cancel_wait _) fun _ => ⟨rfl, by rw [hst]; trivial⟩)
      · refine wp_seq (wp_quiet hg (quiet_wait _ _) fun _ => wp_seq (wp_mono (wp_try_pop hg hst)
          fun r g'' h => ?_))
        rcases h with ⟨p, v, rfl, rfl⟩ | ⟨rfl, rfl⟩
        · exact wp_handOff (hg.into _) rfl
        · exact wp_popFromTop hg hst

theorem wp_popLoop (hg : Running g) (hst : g.stage = .none) :
    (queueOutline N o).wp t (popLoop o) (Popped g) g := by
  refine wp_seq (wp_mono (wp_try_pop hg hst) fun r g' h => ?_)
  rcases h with ⟨p, v, rfl, rfl⟩ | ⟨rfl, rfl⟩
  · exact ⟨rfl, rfl⟩
  refine wp_seq (wp_quiet hg (quiet_spinPop _) fun _ => wp_seq (wp_mono (wp_try_pop hg hst)
    fun r g'' h => ?_))
  rcases h with ⟨p, v, rfl, rfl⟩ | ⟨rfl, rfl⟩
  · exact ⟨rfl, rfl⟩
  refine wp_op_seq (atom_lookEnd hg hst) fun word g' he => ?_
  rcases he with ⟨hw, rfl⟩ | ⟨hw, rfl⟩
  · rw [if_neg (by simp [hw])]
    split
    · exact wp_popAgain hg hst
    · exact wp_popSleep hg hst
  · rw [if_pos hw]
    refine wp_op_seq (atom_lookHead (hg.into _) rfl) fun h g' hh => ?_
    rcases hh with ⟨rfl, rfl⟩ | ⟨hh, rfl⟩
    · rw [if_pos rfl]; exact ⟨rfl, trivial⟩
    · rw [if_neg hh, Role.into_into, Role.into_self hst]
      exact wp_popAgain hg hst

/-! ## Shutdown -/

theorem wp_close (hg : Running g) (hst : g.stage = .none) :
    (queueOutline N o).wp t close (fun _ g' => g' = g) g := by
  refine wp_op_seq (atom_tailOr hg hst) fun old g' he => ?_
  subst he
  exact wp_seq (wp_quiet hg (quiet_notify_all _) fun _ => wp_quiet hg (quiet_notify_all _)
    fun _ => rfl)

/-! ## The outline -/

theorem wp_body (p : Proc V) (h : queuePre p g) :
    (queueOutline N o).wp t (body N.n o p) (queuePost p g) g := by
  cases p with
  | tryPushLoop v word => exact wp_tryPushLoop h.2 h.1
  | pushLoop v parked => exact wp_pushLoop h.2 h.1
  | awaitPoll pos =>
    obtain ⟨hg, late, hst⟩ := h
    refine wp_mono (wp_awaitPoll hg hst) fun _ g' he late' hst' => ?_
    rw [hst] at hst'
    cases hst'
    exact he
  | tryPopLoop pos => exact wp_tryPopLoop h.1 h.2
  | popLoop => exact wp_popLoop h.1 h.2
  | waitLoop w key => exact wp_quiet h (quiet_waitLoop w key) fun _ => rfl

theorem wp_code (k : Call V) (hc : g.call = some k) (hst : g.stage = .none) :
    (queueOutline N o).wp t (code o k)
      (fun r g' => g'.call = g.call ∧ Ledger.Returns g'.stage r) g := by
  have hg : Running g := ⟨k, hc⟩
  cases k with
  | try_push v =>
    exact wp_seq (wp_mono (wp_try_push hst ⟨_, hc, rfl⟩) fun r g' h => h.returns hst)
  | push v => exact wp_seq (wp_mono (wp_push hst ⟨_, hc, rfl⟩) fun r g' h => h)
  | try_pop => exact wp_seq (wp_mono (wp_try_pop hg hst) fun r g' h => h.returns hst)
  | pop => exact wp_seq (wp_popFromTop hg hst)
  | close =>
    exact wp_seq (wp_mono (wp_close hg hst) fun _ g' h => ⟨by rw [h], by rw [h, hst]; trivial⟩)

omit [DecidableEq Tid] in
theorem init_queueInv : QueueInv N (State.init : State V Tid).core fun _ => ⟨none, .none⟩ := by
  refine ⟨Ledger.init_inv N.two_le rfl, ⟨fun p => .inr ?_, fun p => .inr ?_⟩, ?_, ?_, ?_⟩ <;>
    simp [State.init, Ledger.init, Lanes.init, Built, Razed, Phase.isDead]

omit [Inhabited V] in
/-- A call begins and ends with nothing in its hands. -/
theorem Lives.turn {l l' : Ledger V (Call V) Tid} {built razed : Nat → Nat}
    {ρ : Tid → QueueRole V} (h : Lives l built razed ρ) (hp : l'.pushed = l.pushed)
    (hl : l'.lanes = l.lanes) (h0 : between (ρ t).stage = false) (h1 : between g.stage = false) :
    Lives l' built razed (upd ρ t g) := by
  have h2 : Lives l' built razed (upd ρ t ((ρ t).into g.stage)) :=
    h.keep (fun p => by rw [hp]) (fun p => by rw [hl]) h0 h1
  have hsame : ∀ u, (upd ρ t ((ρ t).into g.stage) u).stage = (upd ρ t g u).stage := by
    intro u; simp only [upd_apply]; split <;> rfl
  refine ⟨fun p => ?_, fun p => ?_⟩
  · simpa only [Built, hsame] using h2.built p
  · simpa only [Razed, hsame] using h2.razed p

omit [Inhabited V] in
theorem returns_between {st : Stage V} {r : Result V} (h : Ledger.Returns st r) :
    between st = false := by
  cases st <;> first | rfl | simp [Ledger.Returns] at h

theorem queueOutline_valid : (queueOutline N o : Outline (queue V Tid N o)).Valid where
  init := ⟨_, init_queueInv, fun _ => rfl⟩
  body t p g h := wp_body p h
  call t k s γ hI hr _ := by
    have h : QueueInv N s.core γ := hI
    have he : γ t = ⟨none, .none⟩ := hr
    refine ⟨⟨some k, .none⟩, ?_, ?_⟩
    · exact ⟨Ledger.inv_begin h.base (by rw [he]) k, h.lives.turn rfl rfl (by rw [he]; rfl) rfl,
        h.openAt, h.dead, h.used⟩
    · refine wp_mono (wp_code k rfl rfl) fun r g' hret s γ hI hγ => ?_
      have h : QueueInv N s.core γ := hI
      obtain ⟨hcall, hst⟩ := hret
      rw [← hγ] at hcall hst
      exact ⟨⟨none, .none⟩, ⟨Ledger.inv_finish h.base hcall hst,
        h.lives.turn rfl rfl (returns_between hst) rfl, h.openAt, h.dead, h.used⟩, rfl⟩

end
end Katas.Turnstile.Cpp
