import Katas.Turnstile.Go.RingInv

/-!
# The outline of the Go ring's entry points

From the operations of `RingInv` to the functions of the ring, in the order
of the source, and from them to `ringOutline_valid`.
-/
namespace Katas.Turnstile.Go
open Katas.Conc Katas.SeqRing Outline

section
variable {V Tid : Type} [Inhabited V] [DecidableEq Tid] {N : Capacity} {o : Options}
  {t : Tid} {g : RingRole V}

/-! ## The waiters' functions -/

def quietProc : Proc V → Bool
  | .notifyLoop _ | .closeLoop _ _ => true
  | _ => false

abbrev Quiet {α : Type} (p : M V α) : Prop :=
  p.Silent (fun a => quiet a = true) fun p => quietProc p = true

theorem wp_quiet {α : Type} {p : M V α} {Q : α → RingRole V → Prop} (hg : Running g)
    (hp : Quiet p) (hQ : ∀ a, Q a g) : (ringOutline N o).wp t p Q g := by
  refine wp_silent (fun a ha => atom_quiet ha hg) (fun p hp => ?_) hp hQ
  cases p with
  | notifyLoop w => exact ⟨hg, fun r g' h => h⟩
  | closeLoop w m => exact ⟨hg, fun r g' h => h⟩
  | _ => cases hp

section
omit [Inhabited V]

theorem quiet_notify (w : Side) : Quiet (V := V) (notify o w) := by
  unfold notify
  split
  · refine .op rfl fun c => ?_
    split
    · trivial
    · exact Prog.silent_op rfl
  · exact Prog.silent_proc rfl

theorem quiet_notifyLoop (w : Side) : Quiet (V := V) (notifyLoop w) := by
  refine .op rfl fun m => ?_
  split
  · trivial
  · refine .op rfl fun mine => ?_
    split
    · exact .op rfl fun _ => trivial
    · exact Prog.silent_proc rfl

theorem quiet_slot (w : Side) : Quiet (V := V) (slot w) := by
  refine .op rfl fun st => ?_
  split
  · trivial
  · refine .op rfl fun i => ?_
    split
    · exact .op rfl fun e => nomatch e
    · exact .op rfl fun _ => trivial

theorem quiet_own (w : Side) : Quiet (V := V) (own w) := by
  refine .op rfl fun st => ?_
  split
  · trivial
  · exact .op rfl fun e => nomatch e

theorem quiet_prepare (w : Side) : Quiet (V := V) (prepare o w) := by
  unfold prepare
  split
  · exact Prog.silent_op rfl
  · exact .seq (quiet_slot w) fun i => Prog.silent_op rfl

theorem quiet_cancel (w : Side) : Quiet (V := V) (cancel o w) := by
  unfold cancel
  split
  · exact Prog.silent_op rfl
  · refine .seq (quiet_own w) fun i => .op rfl fun mine => ?_
    split
    · trivial
    · exact .op rfl fun _ => .seq (quiet_notify w) fun _ => trivial

theorem quiet_sleep (w : Side) (i : Nat) : Quiet (V := V) (sleep w i) := by
  refine .op rfl fun r => ?_
  split
  · trivial
  · trivial
  · exact Prog.silent_op rfl

theorem quiet_wait (w : Side) : Quiet (V := V) (wait o w) := by
  unfold wait
  split
  · exact .seq (quiet_sleep w 0) fun _ => .op rfl fun _ => trivial
  · exact .seq (quiet_own w) fun i => .seq (quiet_sleep w i) fun _ =>
      .op rfl fun _ => trivial

theorem quiet_closeLoop (w : Side) (m : Nat → Bool) : Quiet (V := V) (closeLoop w m) := by
  unfold closeLoop
  split
  · trivial
  · exact .op rfl fun _ => Prog.silent_proc rfl

theorem quiet_closeWaiter (w : Side) : Quiet (V := V) (closeWaiter o w) := by
  refine .op rfl fun won => ?_
  split
  · split
    · exact Prog.silent_op rfl
    · exact .op rfl fun m => Prog.silent_proc rfl
  · trivial

theorem quiet_chainFullWake : Quiet (V := V) (chainFullWake o) := by
  refine .op rfl fun w => .op rfl fun seq => ?_
  split
  · exact .seq (quiet_notify _) fun _ => trivial
  · trivial

theorem quiet_headPublished {site : Site} (h : site ≠ .awaitTurn) :
    Quiet (V := V) (headPublished site) :=
  .op rfl fun _ => .seq
    (Prog.silent_op (by cases site <;> first | rfl | exact absurd rfl h)) fun _ => trivial

theorem quiet_spinPop (n : Nat) : Quiet (V := V) (spinPop n) := by
  induction n with
  | zero => trivial
  | succ n ih =>
    refine .seq (quiet_headPublished nofun) fun seen => ?_
    split
    · trivial
    · exact ih

end

/-! ## Producers -/

theorem wp_claimLoop {word : TailWord} (hg : Running g) (hst : g.stage = .none) :
    (ringOutline N o).wp t (claimLoop word) (Claimed g) g := by
  have again : (ringOutline N o).wp t (do
      let word ← op .tailLoad
      proc (.claimLoop word)) (Claimed g) g :=
    wp_op_seq (atom_quiet rfl hg) fun w g' he => wp_proc (by subst he; exact ⟨hg, hst⟩)
      fun r g'' h => by subst he; exact h
  unfold claimLoop
  split
  · exact ⟨rfl, .inr rfl⟩
  · rename_i hw
    refine wp_op_seq (atom_lookFree hg hst) fun seq g' hseq => ?_
    rcases hseq with ⟨hs, rfl⟩ | ⟨hs, rfl⟩
    · rw [if_pos (dif_eq_zero.mpr hs)]
      refine wp_op_seq (atom_tailCas hg rfl (by simpa using hw)) fun won g'' hwon => ?_
      rcases hwon with ⟨rfl, rfl⟩ | ⟨rfl, rfl⟩
      · rfl
      · simpa [Role.into_self hst] using again
    · rw [if_neg (mt dif_eq_zero.mp hs)]
      split
      · exact ⟨rfl, .inl rfl⟩
      · exact again

theorem wp_claim (hg : Running g) (hst : g.stage = .none) :
    (ringOutline N o).wp t claim (Claimed g) g :=
  wp_op_seq (atom_quiet rfl hg) fun _ g' he => wp_proc (by subst he; exact ⟨hg, hst⟩)
    fun _ _ h => by subst he; exact h

omit [Inhabited V] in
theorem Running.into (hg : Running g) (st : Stage V) : Running (g.into st) := hg

theorem wp_publish {pos : Nat} {v : V} (hg : Running g) (hst : g.stage = .holds pos false)
    (hv : Stores g v) :
    (ringOutline N o).wp t (publish o pos v)
      (fun r g' => r = .ok ∧ ∃ w, g' = g.into (.pushed pos w)) g := by
  refine wp_op_seq (atom_valStore hg (.inl hst) (.inr ⟨rfl, hv⟩)) fun _ g' hg' => ?_
  subst hg'
  refine wp_op_seq (atom_publish (hg.into _) (.inr ⟨v, rfl⟩)) fun _ g' hg' => ?_
  obtain ⟨w, rfl⟩ := hg'
  exact wp_seq (wp_quiet (hg.into _) (quiet_notify _) fun _ => ⟨rfl, w, rfl⟩)

/-- How a try to push leaves its caller. -/
def TryPushed (g : RingRole V) (r : Push) (g' : RingRole V) : Prop :=
  r = .ok ∧ (∃ p v, g' = g.into (.pushed p v)) ∨ (r = .full ∨ r = .closed) ∧ g' = g

omit [Inhabited V] in
theorem TryPushed.returns {r : Push} {g' : RingRole V} (h : TryPushed g r g')
    (hst : g.stage = .none) : g'.call = g.call ∧ Ledger.Returns g'.stage (.push r) := by
  rcases h with ⟨rfl, p, v, rfl⟩ | ⟨rfl | rfl, rfl⟩
  · exact ⟨rfl, trivial⟩
  · exact ⟨rfl, by rw [hst]; trivial⟩
  · exact ⟨rfl, by rw [hst]; trivial⟩

theorem wp_tryPush {v : V} (hst : g.stage = .none) (hv : Stores g v) :
    (ringOutline N o).wp t (tryPush o v) (TryPushed g) g := by
  have hg : Running g := by obtain ⟨k, hk, -⟩ := hv; exact ⟨k, hk⟩
  refine wp_seq (wp_mono (wp_claim hg hst) fun c g' hc => ?_)
  cases c with
  | no r => exact .inr hc.symm
  | pos p =>
    obtain rfl : g' = g.into (.holds p false) := hc
    refine wp_mono (wp_publish (hg.into _) rfl hv) fun r g'' h => ?_
    obtain ⟨rfl, w, rfl⟩ := h
    exact .inl ⟨rfl, p, w, rfl⟩

/-- What the stores of a `fill` leave: the last one counts. -/
def filledWith (g : RingRole V) (pos : Nat) (vs : List V) : RingRole V :=
  match vs.getLast? with
  | none => g
  | some v => g.into (.filled pos v)

theorem wp_fillSlot {pos : Nat} {vs : List V} (hg : Running g) (hst : AtSlot g pos)
    (hv : ∀ v, vs.getLast? = some v → Stores g v) :
    (ringOutline N o).wp t (fillSlot pos vs) (fun _ g' => g' = filledWith g pos vs) g := by
  induction vs generalizing g with
  | nil => rfl
  | cons v vs ih =>
    cases vs with
    | nil => exact wp_op_seq (atom_valStore hg hst (.inr ⟨rfl, hv v rfl⟩)) fun _ g' he => he
    | cons w ws =>
      refine wp_op_seq (atom_valStore hg hst (.inl rfl)) fun _ g' he => ?_
      subst he
      refine wp_mono (ih (hg.into _) (.inl rfl) hv) fun _ g' he => ?_
      rw [he]
      unfold filledWith
      rw [List.getLast?_cons_cons]
      cases h : (w :: ws).getLast? with
      | none => simp at h
      | some u => rfl

omit [Inhabited V] in
theorem filledWith_at {pos : Nat} {vs : List V} (hst : g.stage = .holds pos false) :
    AtSlot (filledWith g pos vs) pos := by
  unfold filledWith
  split
  · exact .inl hst
  · exact .inr ⟨_, rfl⟩

theorem wp_tryPushFunc {fill : Fill V} (hst : g.stage = .none)
    (hc : g.call = some (.tryPushFunc fill)) :
    (ringOutline N o).wp t (tryPushFunc o fill)
      (fun r g' => g'.call = g.call ∧ Ledger.Returns g'.stage r) g := by
  have hg : Running g := ⟨_, hc⟩
  refine wp_seq (wp_mono (wp_claim hg hst) fun c g' hcl => ?_)
  cases c with
  | no r =>
    obtain ⟨rfl, rfl | rfl⟩ := hcl <;> exact ⟨rfl, by rw [hst]; trivial⟩
  | pos p =>
    obtain rfl : g' = g.into (.holds p false) := hcl
    have hlast : ∀ v, fill.writes.getLast? = some v → Stores (g.into (.holds p false)) v :=
      fun v hv => ⟨_, hc, fun w hw => Option.some.inj (hv.symm.trans hw)⟩
    refine wp_seq (wp_mono (wp_fillSlot (hg.into _) (.inl rfl) hlast) fun _ g' he => ?_)
    subst he
    have hat : AtSlot (filledWith (g.into (.holds p false)) p fill.writes) p := filledWith_at rfl
    have hcall : (filledWith (g.into (.holds p false)) p fill.writes).call = g.call := by
      unfold filledWith; split <;> rfl
    have hrun : Running (filledWith (g.into (.holds p false)) p fill.writes) := by
      obtain ⟨k, hk⟩ := hg; exact ⟨k, hcall.trans hk⟩
    split
    · refine wp_op_seq (atom_valStore hrun hat (.inl rfl)) fun _ g' he => ?_
      subst he
      refine wp_op_seq (atom_tombstone (hrun.into _) (.inl rfl)) fun _ g' he => ?_
      subst he
      exact wp_seq (wp_quiet (hrun.into _) (quiet_notify _) fun _ => ⟨hcall, trivial⟩)
    · refine wp_op_seq (atom_publish hrun ?_) fun _ g' he => ?_
      · unfold filledWith
        split
        · rename_i hl
          exact .inl ⟨rfl, fun v => ⟨_, hc, fun w hw => by rw [hl] at hw; cases hw⟩⟩
        · exact .inr ⟨_, rfl⟩
      · obtain ⟨w, rfl⟩ := he
        exact wp_seq (wp_quiet (hrun.into _) (quiet_notify _) fun _ => ⟨hcall, trivial⟩)

theorem wp_awaitPoll {pos : Nat} (hg : Awaiting g pos) :
    (ringOutline N o).wp t (awaitPoll pos) (fun _ g' => g' = g.into (.holds pos false)) g := by
  refine wp_op_seq (atom_lookTurn hg) fun r g' h => ?_
  rcases h with ⟨rfl, rfl⟩ | ⟨hr, rfl⟩
  · rw [if_pos rfl]; rfl
  · rw [if_neg hr]; exact wp_proc hg fun _ _ h => h

theorem wp_awaitLook {pos : Nat} (n : Nat) (hg : Awaiting g pos) :
    (ringOutline N o).wp t (awaitLook pos n) (fun _ g' => g' = g.into (.holds pos false)) g := by
  induction n with
  | zero => exact wp_proc hg fun _ _ h => h
  | succ n ih =>
    refine wp_op_seq (atom_lookTurn hg) fun r g' h => ?_
    rcases h with ⟨rfl, rfl⟩ | ⟨hr, rfl⟩
    · rw [if_pos rfl]; rfl
    · rw [if_neg hr]; exact ih

theorem wp_pushTicket {v : V} (hst : g.stage = .none) (hv : Stores g v) :
    (ringOutline N o).wp t (pushTicket o v) (TryPushed g) g := by
  have hg : Running g := by obtain ⟨k, hk, -⟩ := hv; exact ⟨k, hk⟩
  refine wp_op_seq (atom_tailAdd hg hst) fun word g' h => ?_
  rcases h with ⟨hw, rfl⟩ | ⟨hw, rfl⟩
  · rw [if_pos hw]; exact .inr ⟨.inr rfl, rfl⟩
  · rw [if_neg (by simp [hw])]
    refine wp_seq (wp_mono (wp_awaitLook _ ⟨⟨v, hv⟩, rfl⟩) fun _ g' he => ?_)
    subst he
    refine wp_mono (wp_publish (hg.into _) rfl hv) fun r g' h => ?_
    obtain ⟨rfl, w, rfl⟩ := h
    exact .inl ⟨rfl, _, w, rfl⟩

theorem wp_pushLoop {v : V} {parked : Bool} (hst : g.stage = .none) (hv : Stores g v) :
    (ringOutline N o).wp t (pushLoop o v parked)
      (fun r g' => g'.call = g.call ∧ Ledger.Returns g'.stage (.push r)) g := by
  have hg : Running g := by obtain ⟨k, hk, -⟩ := hv; exact ⟨k, hk⟩
  -- the end of an attempt that was not refused as full
  have tail : ∀ {r g'}, TryPushed g r g' → r ≠ .full →
      (ringOutline N o).wp t (if r = .full then (do
          let late ← op .expired
          if late then do
            cancel o .notFull
            pure .timeout
          else do
            let _ ← wait o .notFull
            proc (.pushLoop v true))
        else if parked = true ∧ r = .ok then do
          chainFullWake o
          pure r
        else pure r) (fun r g' => g'.call = g.call ∧ Ledger.Returns g'.stage (.push r)) g' := by
    intro r g' h hr
    rw [if_neg hr]
    have hg' : Running g' := by
      obtain ⟨k, hk⟩ := hg
      exact ⟨k, (h.returns hst).1.trans hk⟩
    split
    · exact wp_seq (wp_quiet hg' quiet_chainFullWake fun _ => h.returns hst)
    · exact h.returns hst
  unfold pushLoop
  refine wp_seq (wp_mono (wp_tryPush hst hv) fun r g' h => ?_)
  by_cases hr : r = .full
  · subst hr
    obtain rfl : g' = g := by
      rcases h with ⟨h, -⟩ | ⟨-, h⟩
      · cases h
      · exact h
    rw [if_pos rfl]
    refine wp_seq (wp_quiet hg (quiet_prepare _) fun _ => wp_seq (wp_mono
      (wp_tryPush hst hv) fun r g'' h => ?_))
    by_cases hr : r = .full
    · subst hr
      obtain rfl : g'' = g' := by
        rcases h with ⟨h, -⟩ | ⟨-, h⟩
        · cases h
        · exact h
      rw [if_pos rfl]
      simp only [Prog.pure_eq]
      refine wp_op_seq (atom_quiet rfl hg) fun late g' he => ?_
      subst he
      split
      · exact wp_seq (wp_quiet hg (quiet_cancel _) fun _ => ⟨rfl, by rw [hst]; trivial⟩)
      · exact wp_seq (wp_quiet hg (quiet_wait _) fun _ => wp_proc ⟨hv, hst⟩ fun _ _ h => h)
    · rw [if_neg hr]
      have hg'' : Running g'' := by
        obtain ⟨k, hk⟩ := hg
        exact ⟨k, (h.returns hst).1.trans hk⟩
      exact wp_seq (wp_quiet hg'' (quiet_cancel _) fun _ => tail h hr)
  · rw [if_neg hr]
    exact wp_seq (tail h hr)

theorem wp_push {v : V} (hst : g.stage = .none) (hv : Stores g v) :
    (ringOutline N o).wp t (push o v)
      (fun r g' => g'.call = g.call ∧ Ledger.Returns g'.stage (.push r)) g := by
  have hg : Running g := by obtain ⟨k, hk, -⟩ := hv; exact ⟨k, hk⟩
  unfold push
  split
  · refine wp_op_seq (atom_quiet rfl hg) fun word g' he => ?_
    subst he
    split
    · exact ⟨rfl, by rw [hst]; trivial⟩
    · exact wp_mono (wp_pushTicket hst hv) fun r g' h => h.returns hst
  · exact wp_proc ⟨hv, hst⟩ fun _ _ h => h

/-! ## Consumers -/

omit [Inhabited V] in
theorem quiet_releaseWake (pos : Nat) : Quiet (V := V) (if pos % fullWake N.n = 0 then (do
    let _ ← notify o .notFull
    pure ()) else pure ()) := by
  split
  · exact .seq (quiet_notify _) fun _ => trivial
  · trivial

theorem wp_consume {pos : Nat} (hg : Running g) (hst : g.stage = .claimed pos) :
    (ringOutline N o).wp t (consume N.n o pos) (fun v g' => g' = g.into (.took pos v)) g := by
  refine wp_op_seq (atom_valLoad hg hst) fun v g' he => ?_
  subst he
  split
  · refine wp_seq (wp_op_seq (atom_release (hg.into _) (.inl rfl)) fun _ g' he => ?_)
    subst he
    exact wp_quiet (hg.into _) (quiet_releaseWake pos) fun _ => rfl
  · refine wp_op_seq (atom_valZero (hg.into _) rfl) fun _ g' he => ?_
    subst he
    refine wp_seq (wp_op_seq (atom_release (hg.into _) (.inr rfl)) fun _ g' he => ?_)
    subst he
    exact wp_quiet (hg.into _) (quiet_releaseWake pos) fun _ => rfl

theorem wp_tryPopLoop {pos : Nat} (hg : Running g) (hst : g.stage = .none) :
    (ringOutline N o).wp t (tryPopLoop N.n o pos) (TryPopped g) g := by
  have again : (ringOutline N o).wp t (do
      let pos ← op .headLoad
      proc (.tryPopLoop pos)) (TryPopped g) g :=
    wp_op_seq (atom_quiet rfl hg) fun w g' he => wp_proc (by subst he; exact ⟨hg, hst⟩)
      fun r g'' h => by subst he; exact h
  refine wp_op_seq (atom_lookPub hg hst) fun raw g' hraw => ?_
  rcases hraw with ⟨hs, rfl⟩ | ⟨hs, rfl⟩
  · rw [if_pos (dif_eq_zero.mpr hs)]
    refine wp_op_seq (atom_headCas (hg.into _) rfl) fun won g' hwon => ?_
    rcases hwon with ⟨rfl, rfl⟩ | ⟨rfl, rfl⟩
    · rw [if_pos rfl]
      cases hd : raw.dead with
      | true =>
        rw [if_pos rfl]
        refine wp_seq (wp_op_seq (atom_releaseDead (hg.into _) rfl) fun _ g' he => ?_)
        subst he
        refine wp_quiet (hg.into _) (quiet_releaseWake pos) fun _ => wp_proc ⟨hg.into _, rfl⟩
          fun r g' h => ?_
        have h' : TryPopped ((g.into (.sawPub pos raw.dead)).into (Ledger.claimStage pos true) |>.into
          .none) r g' := h
        simpa only [Role.into_into, Role.into_self hst] using h'
      | false =>
        rw [if_neg (by simp)]
        refine wp_seq (wp_mono (wp_consume (hg.into _) rfl) fun v g' he => ?_)
        subst he
        exact .inl ⟨pos, v, rfl, rfl⟩
    · simpa [Role.into_self hst] using again
  · rw [if_neg (mt dif_eq_zero.mp hs)]
    split
    · exact .inr ⟨rfl, rfl⟩
    · exact again

theorem wp_tryPop (hg : Running g) (hst : g.stage = .none) :
    (ringOutline N o).wp t tryPop (TryPopped g) g :=
  wp_op_seq (atom_quiet rfl hg) fun _ g' he => wp_proc (by subst he; exact ⟨hg, hst⟩)
    fun _ _ h => by subst he; exact h

omit [Inhabited V] in
theorem TryPopped.returns {r : Pop V} {g' : RingRole V} (h : TryPopped g r g')
    (hst : g.stage = .none) : g'.call = g.call ∧ Ledger.Returns g'.stage (.pop r) := by
  rcases h with ⟨p, v, rfl, rfl⟩ | ⟨rfl, rfl⟩
  · exact ⟨rfl, rfl⟩
  · exact ⟨rfl, by rw [hst]; trivial⟩

theorem wp_drainedTest (hg : Running g) (hst : g.stage = .none) :
    (ringOutline N o).wp t drainedTest
      (fun b g' => b = true ∧ g' = g.into .atEnd ∨ b = false ∧ g' = g) g := by
  refine wp_op_seq (atom_lookEnd hg hst) fun e g' he => ?_
  rcases he with ⟨rfl, rfl⟩ | ⟨he, rfl⟩
  · rw [if_pos rfl]; exact .inr ⟨rfl, rfl⟩
  · rw [if_neg he]
    refine wp_op_seq (atom_lookHead (hg.into _) rfl) fun h g' hh => ?_
    rcases hh with ⟨rfl, rfl⟩ | ⟨hh, rfl⟩
    · exact .inl ⟨by simp, rfl⟩
    · exact .inr ⟨by simp [hh], by simp [Role.into_self hst]⟩

/-- What `Pop` owes its caller. -/
abbrev Popped (g : RingRole V) (r : Pop V) (g' : RingRole V) : Prop :=
  g'.call = g.call ∧ Ledger.Returns g'.stage (.pop r)

theorem wp_handOff {v : V} {pos : Nat} (hg : Running g) (hst : g.stage = .took pos v) :
    (ringOutline N o).wp t (handOff o v) (Popped g) g := by
  have hp : Popped g (.ok v) g := ⟨rfl, by rw [hst]; rfl⟩
  refine wp_seq (wp_quiet hg (quiet_headPublished nofun) fun more => ?_)
  split
  · exact wp_seq (wp_quiet hg (quiet_notify _) fun _ => hp)
  · exact hp

theorem wp_popAgain (hg : Running g) (hst : g.stage = .none) :
    (ringOutline N o).wp t (proc .popLoop) (Popped g) g :=
  wp_proc ⟨hg, hst⟩ fun _ _ h => h

theorem wp_popSleep (hg : Running g) (hst : g.stage = .none) :
    (ringOutline N o).wp t (popSleep o) (Popped g) g := by
  refine wp_seq (wp_quiet hg (quiet_prepare _) fun _ => wp_seq (wp_mono (wp_tryPop hg hst)
    fun r g' h => ?_))
  rcases h with ⟨p, v, rfl, rfl⟩ | ⟨rfl, rfl⟩
  · exact wp_seq (wp_quiet (hg.into _) (quiet_cancel _) fun _ => ⟨rfl, rfl⟩)
  · refine wp_op_seq (atom_quiet rfl hg) fun word g' he => ?_
    subst he
    split
    · exact wp_seq (wp_quiet hg (quiet_cancel _) fun _ => wp_popAgain hg hst)
    · refine wp_op_seq (atom_quiet rfl hg) fun late g' he => ?_
      subst he
      split
      · exact wp_seq (wp_quiet hg (quiet_cancel _) fun _ => ⟨rfl, by rw [hst]; trivial⟩)
      · refine wp_seq (wp_quiet hg (quiet_wait _) fun _ => wp_seq (wp_mono (wp_tryPop hg hst)
          fun r g'' h => ?_))
        rcases h with ⟨p, v, rfl, rfl⟩ | ⟨rfl, rfl⟩
        · exact wp_handOff (hg.into _) rfl
        · exact wp_popAgain hg hst

theorem wp_popLoop (hg : Running g) (hst : g.stage = .none) :
    (ringOutline N o).wp t (popLoop o) (Popped g) g := by
  refine wp_seq (wp_mono (wp_tryPop hg hst) fun r g' h => ?_)
  rcases h with ⟨p, v, rfl, rfl⟩ | ⟨rfl, rfl⟩
  · exact ⟨rfl, rfl⟩
  refine wp_seq (wp_quiet hg (quiet_spinPop _) fun _ => wp_seq (wp_mono (wp_tryPop hg hst)
    fun r g'' h => ?_))
  rcases h with ⟨p, v, rfl, rfl⟩ | ⟨rfl, rfl⟩
  · exact ⟨rfl, rfl⟩
  -- an expiry leaves the loop, anything else goes round it
  have late : (ringOutline N o).wp t (do
      let late ← op .expired
      if late then pure .timeout else proc .popLoop) (Popped g'') g'' := by
    refine wp_op_seq (atom_quiet rfl hg) fun late g' he => ?_
    subst he
    split
    · exact ⟨rfl, by rw [hst]; trivial⟩
    · exact wp_popAgain hg hst
  refine wp_op_seq (atom_quiet rfl hg) fun word g' he => ?_
  subst he
  split
  · refine wp_seq (wp_mono (wp_drainedTest hg hst) fun d g'' h => ?_)
    rcases h with ⟨rfl, rfl⟩ | ⟨rfl, rfl⟩
    · exact ⟨rfl, trivial⟩
    · exact late
  · split
    · exact late
    · exact wp_popSleep hg hst

/-! ## Shutdown -/

theorem wp_close (hg : Running g) (hst : g.stage = .none) :
    (ringOutline N o).wp t (close o) (fun _ g' => g'.call = g.call ∧ g'.stage = .none) g := by
  have waiters : ∀ {g' : RingRole V}, Running g' → g'.call = g.call → g'.stage = .none →
      (ringOutline N o).wp t (do
        closeWaiter o .notEmpty
        closeWaiter o .notFull) (fun _ g' => g'.call = g.call ∧ g'.stage = .none) g' :=
    fun hg' hc hs => wp_seq (wp_quiet hg' (quiet_closeWaiter _) fun _ =>
      wp_quiet hg' (quiet_closeWaiter _) fun _ => ⟨hc, hs⟩)
  refine wp_op_seq (atom_tailOr hg hst) fun old g' h => ?_
  rcases h with ⟨hc, rfl⟩ | ⟨hc, rfl⟩
  · rw [if_pos hc]; exact waiters hg rfl hst
  · rw [if_neg (by simp [hc])]
    refine wp_op_seq (atom_closedAtStore (hg.into _) rfl) fun _ g' he => ?_
    subst he
    exact waiters (hg.into _) rfl rfl

/-! ## The outline -/

theorem wp_body (p : Proc V) (h : ringPre p g) :
    (ringOutline N o).wp t (body N.n o p) (ringPost p g) g := by
  cases p with
  | claimLoop word => exact wp_claimLoop h.1 h.2
  | awaitPoll pos => exact wp_awaitPoll h
  | pushLoop v parked => exact wp_pushLoop h.2 h.1
  | tryPopLoop pos => exact wp_tryPopLoop h.1 h.2
  | popLoop => exact wp_popLoop h.1 h.2
  | notifyLoop w => exact wp_quiet h (quiet_notifyLoop w) fun _ => rfl
  | closeLoop w m => exact wp_quiet h (quiet_closeLoop w m) fun _ => rfl

theorem wp_code (k : Call V) (hc : g.call = some k) (hst : g.stage = .none) :
    (ringOutline N o).wp t (code o k)
      (fun r g' => g'.call = g.call ∧ Ledger.Returns g'.stage r) g := by
  have hg : Running g := ⟨k, hc⟩
  cases k with
  | tryPush v =>
    exact wp_seq (wp_mono (wp_tryPush hst ⟨_, hc, rfl⟩) fun r g' h => h.returns hst)
  | tryPushFunc fill => exact wp_tryPushFunc hst hc
  | push v => exact wp_seq (wp_mono (wp_push hst ⟨_, hc, rfl⟩) fun r g' h => h)
  | pushTicket v =>
    exact wp_seq (wp_mono (wp_pushTicket hst ⟨_, hc, rfl⟩) fun r g' h => h.returns hst)
  | tryPop => exact wp_seq (wp_mono (wp_tryPop hg hst) fun r g' h => h.returns hst)
  | pop => exact wp_seq (wp_popAgain hg hst)
  | close =>
    exact wp_seq (wp_mono (wp_close hg hst) fun _ g' h => ⟨h.1, by rw [h.2]; trivial⟩)

omit [DecidableEq Tid] in
theorem init_ringInv : RingInv N (State.init : State V Tid).core fun _ => ⟨none, .none⟩ :=
  ⟨Ledger.init_inv N.two_le trivial, .inl rfl, fun _ _ he => by cases he⟩

theorem ringOutline_valid : (ringOutline N o : Outline (ring V Tid N o)).Valid where
  init := ⟨_, init_ringInv, fun _ => rfl⟩
  body t p g h := wp_body p h
  call t k s γ hI hr _ := by
    have h : RingInv N s.core γ := hI
    have hc : (γ t).call = none := by rw [show γ t = ⟨none, .none⟩ from hr]
    refine ⟨⟨some k, .none⟩, ?_, ?_⟩
    · exact ⟨Ledger.inv_begin h.base hc k, h.closedAt, h.past⟩
    · refine wp_mono (wp_code k rfl rfl) fun r g' hret s γ hI hγ => ?_
      have h : RingInv N s.core γ := hI
      obtain ⟨hcall, hst⟩ := hret
      rw [← hγ] at hcall hst
      exact ⟨⟨none, .none⟩, ⟨Ledger.inv_finish h.base hcall hst, h.closedAt, h.past⟩, rfl⟩

end
end Katas.Turnstile.Go
