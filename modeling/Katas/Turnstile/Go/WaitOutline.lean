import Katas.Turnstile.Go.WaitSteps

/-!
# The outline of the consumers' waiter

From the steps of `WaitSteps` to the functions of the waiter and the ring,
and to `waitOutline_valid`.
-/
namespace Katas.Turnstile.Go
open Katas.Conc Katas.SeqRing Outline

section
variable {V Tid : Type} [Inhabited V] [DecidableEq Tid] {N : Capacity} {o : Options}
  {t : Tid} {g : Nap}

/-! ## What does not concern the sleepers -/

def stillProc : Proc V → Bool
  | .claimLoop _ | .awaitPoll _ | .notifyLoop .notFull | .closeLoop .notFull _ => true
  | _ => false

abbrev Still {α : Type} (p : M V α) : Prop :=
  p.Silent (fun a => still a = true) fun p => stillProc p = true

theorem wp_still {α : Type} {p : M V α} {Q : α → Nap → Prop} (hp : Still p) (hQ : ∀ a, Q a g) :
    (waitOutline N o).wp t p Q g := by
  refine wp_silent (fun a ha => napAtom_still ha) (fun p hp => ?_) hp hQ
  match p with
  | .claimLoop _ => exact ⟨trivial, fun r g' h => h⟩
  | .awaitPoll _ => exact ⟨trivial, fun r g' h => h⟩
  | .notifyLoop .notFull => exact ⟨trivial, fun r g' h => h⟩
  | .closeLoop .notFull _ => exact ⟨trivial, fun r g' h => h⟩
  | .pushLoop _ _ | .tryPopLoop _ | .popLoop | .notifyLoop .notEmpty | .closeLoop .notEmpty _ =>
    cases hp

section
omit [Inhabited V]

theorem still_notify : Still (V := V) (notify o .notFull) := by
  unfold notify
  split
  · refine .op rfl fun c => ?_
    split
    · trivial
    · exact Prog.silent_op rfl
  · exact Prog.silent_proc rfl

theorem still_notifyLoop : Still (V := V) (notifyLoop .notFull) := by
  refine .op rfl fun m => ?_
  split
  · trivial
  · refine .op rfl fun mine => ?_
    split
    · exact .op rfl fun _ => trivial
    · exact Prog.silent_proc rfl

theorem still_own (w : Side) : Still (V := V) (own w) := by
  refine .op rfl fun st => ?_
  split
  · trivial
  · exact .op rfl fun e => nomatch e

theorem still_cancel : Still (V := V) (cancel o .notFull) := by
  unfold cancel
  split
  · exact Prog.silent_op rfl
  · refine .seq (still_own _) fun i => .op rfl fun mine => ?_
    split
    · trivial
    · exact .op rfl fun _ => .seq still_notify fun _ => trivial

theorem still_closeLoop (m : Nat → Bool) : Still (V := V) (closeLoop .notFull m) := by
  unfold closeLoop
  split
  · trivial
  · exact .op rfl fun _ => Prog.silent_proc rfl

theorem still_closeWaiter : Still (V := V) (closeWaiter o .notFull) := by
  refine .op rfl fun won => ?_
  split
  · split
    · exact Prog.silent_op rfl
    · exact .op rfl fun m => Prog.silent_proc rfl
  · trivial

theorem still_claimLoop (word : TailWord) : Still (V := V) (claimLoop word) := by
  unfold claimLoop
  split
  · trivial
  · refine .op rfl fun seq => ?_
    have again : Still (V := V) (do
        let word ← op .tailLoad
        proc (.claimLoop word)) := .op rfl fun _ => Prog.silent_proc rfl
    split
    · refine .op rfl fun won => ?_
      split
      · trivial
      · exact again
    · split
      · trivial
      · exact again

theorem still_claim : Still (V := V) claim :=
  .op rfl fun _ => Prog.silent_proc rfl

theorem still_fillSlot (pos : Nat) (vs : List V) : Still (fillSlot pos vs) := by
  induction vs with
  | nil => trivial
  | cons v vs ih => exact .op rfl fun _ => ih

theorem still_awaitPoll (pos : Nat) : Still (V := V) (awaitPoll pos) := by
  refine .op rfl fun seq => ?_
  split
  · trivial
  · exact Prog.silent_proc rfl

theorem still_awaitLook (pos n : Nat) : Still (V := V) (awaitLook pos n) := by
  induction n with
  | zero => exact Prog.silent_proc rfl
  | succ n ih =>
    refine .op rfl fun seq => ?_
    split
    · trivial
    · exact ih

theorem still_chainFullWake : Still (V := V) (chainFullWake o) := by
  refine .op rfl fun w => .op rfl fun seq => ?_
  split
  · exact .seq still_notify fun _ => trivial
  · trivial

theorem still_release (pos : Nat) : Still (V := V) (release N.n o pos) := by
  refine .op rfl fun _ => ?_
  split
  · exact .seq still_notify fun _ => trivial
  · trivial

end

theorem still_consume (pos : Nat) : Still (V := V) (consume N.n o pos) := by
  refine .op rfl fun v => ?_
  split
  · exact .seq (still_release pos) fun _ => trivial
  · exact .op rfl fun _ => .seq (still_release pos) fun _ => trivial

omit [Inhabited V] in
theorem still_spinPop (n : Nat) : Still (V := V) (spinPop n) := by
  induction n with
  | zero => trivial
  | succ n ih =>
    refine .seq (.op rfl fun _ => .op rfl fun _ => trivial)
      fun seen => ?_
    split
    · trivial
    · exact ih

omit [Inhabited V] in
theorem still_drainedTest : Still (V := V) drainedTest := by
  refine .op rfl fun e => ?_
  split
  · trivial
  · exact .op rfl fun _ => trivial

/-! ## The waiter -/

/-- The role after a wake has been passed on, or a duty done. -/
def Nap.rested (g : Nap) : Nap := ⟨.out, .none, g.seen, g.slot⟩

theorem rested_resting (g : Nap) : Resting g.rested := ⟨rfl, rfl⟩

theorem wp_notifyLoop (hsh : o.sharedToken = false) (hsl : g.sleep = .out)
    (hd : g.duty = .looking) :
    (waitOutline N o).wp t (notifyLoop (V := V) .notEmpty) (fun _ g' => g' = g.rested) g := by
  refine wp_op_seq (napAtom_asleepLoad hsh hsl hd) fun m g' hm => ?_
  rcases hm with ⟨hm, rfl⟩ | ⟨hm, rfl⟩
  · rw [hm]; exact rfl
  · cases hl : lowest m with
    | none => exact absurd hl hm
    | some i =>
      refine wp_op_seq (napAtom_takeBit hsh hsl hd) fun mine g'' hb => ?_
      rcases hb with ⟨rfl, rfl⟩ | ⟨rfl, rfl⟩
      · rw [if_pos rfl]
        exact wp_op_seq (napAtom_tokenSend rfl rfl) fun _ g' he => he
      · rw [if_neg (by simp)]
        exact wp_proc ⟨hsh, hsl, hd⟩ fun _ _ h => h

theorem wp_notify (hsl : g.sleep = .out) (hd : g.duty = .looking) :
    (waitOutline N o).wp t (notify (V := V) o .notEmpty) (fun _ g' => g' = g.rested) g := by
  unfold notify
  cases hsh : o.sharedToken with
  | false =>
    rw [if_neg (by simp [shared, hsh])]
    exact wp_proc ⟨hsh, hsl, hd⟩ fun _ _ h => h
  | true =>
    rw [if_pos (by simp [shared, hsh])]
    refine wp_op_seq (napAtom_countLoad hsh hsl hd) fun c g' hc => ?_
    rcases hc with ⟨rfl, rfl⟩ | ⟨hc, rfl⟩
    · rw [if_pos rfl]; exact rfl
    · rw [if_neg hc]; exact wp_op (napAtom_sharedSend hsh hsl hd)

/-- The role between the announcement and the end of the wait. -/
def Up (o : Options) (c : Check) (g : Nap) : Prop :=
  ∃ i, g.sleep = .up i c ∧ g.duty = .none ∧ (o.sharedToken = true → i = 0)

theorem wp_slot (hg : Resting g) :
    (waitOutline N o).wp t (slot (V := V) .notEmpty)
      (fun i g' => Resting g' ∧ g'.slot = some i) g := by
  refine wp_op_seq napAtom_stats fun st g' h => ?_
  obtain ⟨rfl, hst, -⟩ := h
  split
  · rename_i hw
    exact ⟨hg, (hst _).mpr (by rw [← hw])⟩
  · refine wp_op_seq (napAtom_indexAdd hg) fun i g' he => ?_
    subst he
    split
    · exact wp_op_seq (napAtom_still rfl) fun e => nomatch e
    · rename_i hi
      refine wp_op_seq (napAtom_tokenMake rfl rfl (Nat.lt_of_not_le hi)) fun _ g' he => ?_
      subst he
      exact ⟨⟨rfl, rfl⟩, rfl⟩

theorem wp_prepare (hg : Resting g) :
    (waitOutline N o).wp t (prepare (V := V) o .notEmpty) (fun _ g' => Up o .fresh g') g := by
  unfold prepare
  cases hsh : o.sharedToken with
  | true =>
    rw [if_pos (by simp [shared, hsh])]
    exact wp_op ((napAtom_countUp hsh hg).mono fun _ g' he => ⟨0, by rw [he], by rw [he],
      fun _ => rfl⟩)
  | false =>
    rw [if_neg (by simp [shared, hsh])]
    refine wp_seq (wp_mono (wp_slot hg) fun i g' h => ?_)
    obtain ⟨hg', hs⟩ := h
    exact wp_op ((napAtom_asleepOr hsh hg' hs).mono fun _ g'' he => ⟨i, by rw [he], by rw [he],
      fun h => by rw [hsh] at h; cases h⟩)

theorem wp_own {i : Nat} (hsh : o.sharedToken = false) (ha : g.sleep.announced = some i) :
    (waitOutline N o).wp t (own (V := V) .notEmpty) (fun j g' => j = i ∧ g' = g) g := by
  refine wp_op_seq napAtom_stats fun st g' h => ?_
  obtain ⟨rfl, hst, hann⟩ := h
  obtain rfl := (hst i).mp (hann hsh i ha)
  rw [if_pos rfl]
  exact ⟨rfl, rfl⟩

theorem wp_cancel {c : Check} (hg : Up o c g) :
    (waitOutline N o).wp t (cancel (V := V) o .notEmpty) (fun _ g' => Resting g') g := by
  obtain ⟨i, hsl, hd, -⟩ := hg
  unfold cancel
  cases hsh : o.sharedToken with
  | true =>
    rw [if_pos (by simp [shared, hsh])]
    exact wp_op ((napAtom_countDown hsh hd (.inl ⟨⟨i, c, hsl⟩, rfl⟩)).mono fun _ g' he => by
      rw [he]; exact ⟨rfl, rfl⟩)
  | false =>
    rw [if_neg (by simp [shared, hsh])]
    refine wp_seq (wp_mono (wp_own hsh (by rw [hsl]; rfl)) fun j g' h => ?_)
    obtain ⟨rfl, rfl⟩ := h
    refine wp_op_seq (napAtom_cancel hsh hsl hd) fun mine g'' h => ?_
    obtain ⟨hs, rfl⟩ := h
    cases mine with
    | true => exact ⟨rfl, rfl⟩
    | false =>
      refine wp_op_seq (napAtom_tokenDrain rfl hs) fun _ g' he => ?_
      subst he
      refine wp_seq (wp_mono (wp_notify rfl rfl) fun _ g' he => ?_)
      subst he
      exact rested_resting _

theorem wp_sleep {i : Nat} (hsl : g.sleep = .up i .passed) (hd : g.duty = .none) :
    (waitOutline N o).wp t (sleep (V := V) .notEmpty i)
      (fun _ g' => g' = ⟨.leaving i, .none, g.seen, g.slot⟩) g := by
  refine wp_op_seq (napAtom_select hsl hd) fun w g' he => ?_
  subst he
  cases w with
  | token => exact rfl
  | closed => exact rfl
  | timer => exact wp_op (napAtom_selectLast rfl rfl)

theorem wp_wait (hg : Up o .passed g) :
    (waitOutline N o).wp t (wait (V := V) o .notEmpty)
      (fun _ g' => g'.sleep = .awake ∧ g'.duty = .none) g := by
  obtain ⟨i, hsl, hd, hi⟩ := hg
  unfold wait
  cases hsh : o.sharedToken with
  | true =>
    obtain rfl := hi hsh
    rw [if_pos (by simp [shared, hsh])]
    refine wp_seq (wp_mono (wp_sleep hsl hd) fun w g' he => ?_)
    subst he
    refine wp_op_seq (napAtom_countDown hsh rfl (.inr ⟨⟨0, rfl⟩, rfl⟩)) fun _ g' he => ?_
    subst he
    exact ⟨rfl, rfl⟩
  | false =>
    rw [if_neg (by simp [shared, hsh])]
    refine wp_seq (wp_mono (wp_own hsh (by rw [hsl]; rfl)) fun j g' h => ?_)
    obtain ⟨rfl, rfl⟩ := h
    refine wp_seq (wp_mono (wp_sleep hsl hd) fun w g' he => ?_)
    subst he
    refine wp_op_seq (napAtom_wake hsh rfl rfl) fun _ g' he => ?_
    subst he
    exact ⟨rfl, rfl⟩

/-! The other waiter, which takes the goroutine's index but moves it nowhere. -/

theorem wp_prepareFull (hg : Resting g) :
    (waitOutline N o).wp t (prepare (V := V) o .notFull) (fun _ g' => Resting g') g := by
  refine wp_seq (wp_op_seq (napAtom_still rfl) fun st g' he => ?_)
  subst he
  split
  · exact wp_op ((napAtom_still rfl).mono fun _ _ he => he ▸ hg)
  · refine wp_op_seq (napAtom_still rfl) fun i g' he => ?_
    subst he
    split
    · exact wp_op_seq (napAtom_still rfl) fun e => nomatch e
    · refine wp_op_seq (napAtom_tokenMakeFull hg) fun _ g' he => ?_
      subst he
      exact wp_op ((napAtom_still rfl).mono fun _ _ he => he ▸ ⟨rfl, rfl⟩)

theorem wp_waitFull (hg : Resting g) :
    (waitOutline N o).wp t (wait (V := V) o .notFull) (fun _ g' => Resting g') g := by
  have tail : ∀ i (b : Bool), (waitOutline N o).wp t (do
      let _ ← op (V := V) (.asleepAnd .notFull i)
      pure b) (fun _ g' => Resting g') g := fun i b =>
    wp_op_seq (napAtom_still rfl) fun _ _ he => he ▸ hg
  refine wp_seq (wp_still (still_own _) fun i => wp_seq ?_)
  refine wp_op_seq (napAtom_selectFull hg) fun w g' he => ?_
  subst he
  cases w with
  | token => exact tail i true
  | closed => exact tail i true
  | timer =>
    refine wp_op ((napAtom_still rfl).mono fun b _ he => ?_)
    subst he
    exact tail i b

theorem wp_closeLoop {m : Nat → Bool} (hsh : o.sharedToken = false) (hsl : g.sleep = .out)
    (hd : g.duty = sendingOf m) :
    (waitOutline N o).wp t (closeLoop (V := V) .notEmpty m) (fun _ g' => g' = g.rested) g := by
  unfold closeLoop
  cases hm : lowest m with
  | none =>
    show g = g.rested
    unfold sendingOf at hd
    rw [if_pos hm] at hd
    rw [Nap.rested, ← hsl, ← hd]
  | some i =>
    refine wp_op_seq (napAtom_closeSend hsh hsl hd hm) fun _ g' he => ?_
    subst he
    exact wp_proc ⟨hsh, rfl, rfl⟩ fun _ _ h => h

theorem wp_closeWaiter (hsl : g.sleep = .out) (hd : g.duty = .closer) :
    (waitOutline N o).wp t (closeWaiter (V := V) o .notEmpty) (fun _ g' => Resting g') g := by
  refine wp_op_seq (napAtom_closingCas hsl hd) fun won g' he => ?_
  subst he
  cases won with
  | false => exact ⟨rfl, rfl⟩
  | true =>
    rw [if_pos rfl]
    cases hsh : o.sharedToken with
    | true =>
      rw [if_pos (by simp [shared, hsh])]
      exact wp_op ((napAtom_closeChan hsh rfl rfl).mono fun _ _ he => he ▸ ⟨rfl, rfl⟩)
    | false =>
      rw [if_neg (by simp [shared, hsh])]
      refine wp_op_seq (napAtom_asleepSwap hsh rfl rfl) fun m g' he => ?_
      subst he
      exact wp_proc ⟨hsh, rfl, rfl⟩ fun _ _ h => by rw [h]; exact ⟨rfl, rfl⟩

/-! ## Producers -/

theorem wp_notified (hsl : g.sleep = .out) (hd : g.duty = .looking) {α : Type} {b : α} :
    (waitOutline N o).wp t (do
      let _ ← notify (V := V) o .notEmpty
      pure b) (fun _ g' => Resting g') g :=
  wp_seq (wp_mono (wp_notify hsl hd) fun _ _ he => he ▸ rested_resting g)

theorem napPublish {pos : Nat} {v : V} (hg : Resting g) :
    (waitOutline N o).wp t (publish o pos v) (fun _ g' => Resting g') g := by
  refine wp_op_seq (napAtom_still rfl) fun _ g' he => ?_
  subst he
  refine wp_op_seq (napAtom_publish (.inl rfl) hg) fun _ g' he => ?_
  subst he
  exact wp_notified rfl rfl

theorem napTryPush {v : V} (hg : Resting g) :
    (waitOutline N o).wp t (tryPush o v) (fun _ g' => Resting g') g := by
  refine wp_seq (wp_still still_claim fun c => ?_)
  cases c with
  | no r => exact hg
  | pos p => exact napPublish hg

theorem napTryPushFunc {fill : Fill V} (hg : Resting g) :
    (waitOutline N o).wp t (tryPushFunc o fill) (fun _ g' => Resting g') g := by
  refine wp_seq (wp_still still_claim fun c => ?_)
  cases c with
  | no r => exact hg
  | pos p =>
    refine wp_seq (wp_still (still_fillSlot p fill.writes) fun _ => ?_)
    split
    · refine wp_op_seq (napAtom_still rfl) fun _ g' he => ?_
      subst he
      refine wp_op_seq (napAtom_publish (.inr rfl) hg) fun _ g' he => ?_
      subst he
      exact wp_notified rfl rfl
    · refine wp_op_seq (napAtom_publish (.inl rfl) hg) fun _ g' he => ?_
      subst he
      exact wp_notified rfl rfl

theorem napPushTicket {v : V} (hg : Resting g) :
    (waitOutline N o).wp t (pushTicket o v) (fun _ g' => Resting g') g := by
  refine wp_op_seq (napAtom_still rfl) fun word g' he => ?_
  subst he
  split
  · exact hg
  · exact wp_seq (wp_still (still_awaitLook _ _) fun _ => napPublish hg)

theorem napPushLoop {v : V} {parked : Bool} (hg : Resting g) :
    (waitOutline N o).wp t (pushLoop o v parked) (fun _ g' => Resting g') g := by
  have tail : ∀ {r : Push} {g' : Nap}, Resting g' →
      (waitOutline N o).wp t (if r = .full then (do
          let late ← op .expired
          if late then do
            cancel o .notFull
            pure .timeout
          else do
            let _ ← wait o .notFull
            proc (.pushLoop v true))
        else if parked = true ∧ r = .ok then do
          chainFullWake o
          pure r
        else pure r) (fun _ g' => Resting g') g' := by
    intro r g' hg'
    split
    · refine wp_op_seq (napAtom_still rfl) fun late g'' he => ?_
      subst he
      split
      · exact wp_seq (wp_still still_cancel fun _ => hg')
      · exact wp_seq (wp_mono (wp_waitFull hg') fun _ _ h => wp_proc h fun _ _ h => h)
    · split
      · exact wp_seq (wp_still still_chainFullWake fun _ => hg')
      · exact hg'
  refine wp_seq (wp_mono (napTryPush hg) fun r g' hg' => ?_)
  split
  · refine wp_seq (wp_mono (wp_prepareFull hg') fun _ g' hg' => ?_)
    refine wp_seq (wp_mono (napTryPush hg') fun r g' hg' => ?_)
    split
    · exact wp_seq (tail hg')
    · exact wp_seq (wp_still still_cancel fun _ => wp_seq (tail hg'))
  · exact wp_seq (tail hg')

theorem napPush {v : V} (hg : Resting g) :
    (waitOutline N o).wp t (push o v) (fun _ g' => Resting g') g := by
  unfold push
  split
  · refine wp_op_seq (napAtom_still rfl) fun word g' he => ?_
    subst he
    split
    · exact hg
    · exact napPushTicket hg
  · exact wp_proc hg fun _ _ h => h

/-! ## Consumers -/

theorem Resting.trying (hg : Resting g) : Trying g := ⟨hg.2, .inl hg.1⟩

omit [Inhabited V] in
theorem Tried.resting {r : Pop V} {g' : Nap} (h : Tried g r g') (hg : Resting g) :
    Resting g' := by
  obtain ⟨hd, -, ⟨-, hs⟩ | ⟨-, hs⟩⟩ := h
  · exact ⟨hs.trans hg.1, hd.trans hg.2⟩
  · exact ⟨by rw [hs, hg.1]; rfl, hd.trans hg.2⟩

theorem napTryPopLoop {pos : Nat} (hg : Trying g) (hpos : g.seen = pos) :
    (waitOutline N o).wp t (tryPopLoop (V := V) N.n o pos) (Tried g) g := by
  have again : (waitOutline N o).wp t (do
      let pos ← op (V := V) .headLoad
      proc (.tryPopLoop pos)) (Tried g) g :=
    wp_op_seq napAtom_headLook fun w g' he => by subst he; exact wp_proc ⟨hg, rfl⟩ fun _ _ h => h
  refine wp_op_seq (napAtom_tryLook hg hpos) fun raw g' hraw => ?_
  rcases hraw with ⟨hlt, rfl⟩ | ⟨hge, rfl⟩
  · -- unpublished: the pop ends empty, and a sleeper has re-checked
    have hne : dif raw (pos + 1) ≠ 0 := fun h => by have := dif_eq_zero.mp h; omega
    rw [if_neg hne, if_pos (dif_neg.mpr hlt)]
    exact ⟨hg.1.symm, rfl, .inr ⟨rfl, rfl⟩⟩
  · split
    · refine wp_op_seq napAtom_headCas fun won g'' hwon => ?_
      rcases hwon with ⟨rfl, rfl⟩ | ⟨rfl, rfl⟩
      · rw [if_pos rfl]
        split
        · exact wp_seq (wp_still (still_release pos) fun _ => wp_proc ⟨hg, rfl⟩ fun _ _ h => h)
        · exact wp_seq (wp_still (still_consume pos) fun v => ⟨rfl, rfl, .inl ⟨⟨v, rfl⟩, rfl⟩⟩)
      · rw [if_neg (by simp)]; exact again
    · rw [if_neg (mt dif_neg.mp hge)]
      exact again

theorem napTryPop (hg : Trying g) : (waitOutline N o).wp t (tryPop (V := V)) (Tried g) g :=
  wp_op_seq napAtom_headLook fun _ g' he => by subst he; exact wp_proc ⟨hg, rfl⟩ fun _ _ h => h

theorem napHandOff {v : V} (hsl : g.sleep = .awake) (hd : g.duty = .none) :
    (waitOutline N o).wp t (handOff o v) (fun _ g' => Resting g') g := by
  refine wp_seq (wp_op_seq napAtom_headLook fun h g' he => ?_)
  subst he
  refine wp_op_seq (napAtom_handLook hsl hd) fun seq g' hseq => ?_
  rcases hseq with ⟨hs, rfl⟩ | ⟨hs, rfl⟩
  · show (waitOutline N o).wp t (if (seq.stamp == h + 1) = true then _ else _) _ _
    rw [if_pos (by simp [hs])]
    exact wp_notified rfl rfl
  · show (waitOutline N o).wp t (if (seq.stamp == h + 1) = true then _ else _) _ _
    rw [if_neg (by simp [hs])]
    exact ⟨rfl, rfl⟩

theorem napPopSleep (hg : Resting g) :
    (waitOutline N o).wp t (popSleep (V := V) o) (fun _ g' => Resting g') g := by
  refine wp_seq (wp_mono (wp_prepare hg) fun _ g' hup => ?_)
  obtain ⟨i, hsl, hd, hi⟩ := hup
  refine wp_seq (wp_mono (napTryPop ⟨hd, .inr (.inr ⟨i, hsl⟩)⟩) fun r g'' h => ?_)
  obtain ⟨hd', -, ⟨⟨v, rfl⟩, hs⟩ | ⟨rfl, hs⟩⟩ := h
  · exact wp_seq (wp_mono (wp_cancel ⟨i, hs.trans hsl, hd'.trans hd, hi⟩) fun _ _ h => h)
  have hre : Up o .rechecked g'' := ⟨i, by rw [hs, hsl]; rfl, hd'.trans hd, hi⟩
  refine wp_op_seq (napAtom_tailLook hre.choose_spec.1 hre.choose_spec.2.1) fun word g' h => ?_
  rcases h with ⟨hw, rfl⟩ | ⟨hw, rfl⟩
  · rw [if_pos hw]
    exact wp_seq (wp_mono (wp_cancel hre) fun _ _ h => wp_proc h fun _ _ h => h)
  · rw [if_neg (by simp [hw])]
    have hup : Up o .passed ⟨.up hre.choose .passed, .none, g''.seen, g''.slot⟩ :=
      ⟨_, rfl, rfl, hre.choose_spec.2.2⟩
    refine wp_op_seq (napAtom_still rfl) fun late g' he => ?_
    subst he
    split
    · exact wp_seq (wp_mono (wp_cancel hup) fun _ _ h => h)
    · refine wp_seq (wp_mono (wp_wait hup) fun _ g' h => ?_)
      obtain ⟨hs, hd⟩ := h
      refine wp_seq (wp_mono (napTryPop ⟨hd, .inr (.inl hs)⟩) fun r g'' h => ?_)
      obtain ⟨hd', -, ⟨⟨v, rfl⟩, hs'⟩ | ⟨rfl, hs'⟩⟩ := h
      · exact napHandOff (hs'.trans hs) (hd'.trans hd)
      · exact wp_proc ⟨by rw [hs', hs]; rfl, hd'.trans hd⟩ fun _ _ h => h

theorem napPopLoop (hg : Resting g) :
    (waitOutline N o).wp t (popLoop (V := V) o) (fun _ g' => Resting g') g := by
  refine wp_seq (wp_mono (napTryPop hg.trying) fun r g' h => ?_)
  have hg' := h.resting hg
  obtain ⟨-, -, ⟨⟨v, rfl⟩, -⟩ | ⟨rfl, -⟩⟩ := h
  · exact hg'
  refine wp_seq (wp_still (still_spinPop _) fun _ => ?_)
  refine wp_seq (wp_mono (napTryPop hg'.trying) fun r g'' h => ?_)
  have hg'' := h.resting hg'
  obtain ⟨-, -, ⟨⟨v, rfl⟩, -⟩ | ⟨rfl, -⟩⟩ := h
  · exact hg''
  have late : (waitOutline N o).wp t (do
      let late ← op (V := V) .expired
      if late then pure .timeout else proc .popLoop) (fun _ g' => Resting g') g'' := by
    refine wp_op_seq (napAtom_still rfl) fun late g' he => ?_
    subst he
    split
    · exact hg''
    · exact wp_proc hg'' fun _ _ h => h
  refine wp_op_seq (napAtom_still rfl) fun word g' he => ?_
  subst he
  split
  · refine wp_seq (wp_still still_drainedTest fun d => ?_)
    split
    · exact hg''
    · exact late
  · split
    · exact late
    · exact napPopSleep hg''

theorem napClose (hg : Resting g) :
    (waitOutline N o).wp t (close (V := V) o) (fun _ g' => Resting g') g := by
  have waiters : (waitOutline N o).wp t (do
      closeWaiter (V := V) o .notEmpty
      closeWaiter o .notFull) (fun _ g' => Resting g') ⟨.out, .closer, g.seen, g.slot⟩ :=
    wp_seq (wp_mono (wp_closeWaiter rfl rfl) fun _ _ h => wp_still still_closeWaiter fun _ => h)
  refine wp_op_seq (napAtom_close hg) fun old g' he => ?_
  subst he
  split
  · exact waiters
  · refine wp_op_seq (napAtom_still rfl) fun _ g' he => ?_
    subst he
    exact waiters

/-! ## The outline -/

theorem nap_body (p : Proc V) (h : napPre o p g) :
    (waitOutline N o).wp t (body N.n o p) (napPost p g) g := by
  cases p with
  | claimLoop word => exact wp_still (still_claimLoop word) fun _ => rfl
  | awaitPoll pos => exact wp_still (still_awaitPoll pos) fun _ => rfl
  | pushLoop v parked => exact napPushLoop h
  | tryPopLoop pos => exact napTryPopLoop h.1 h.2
  | popLoop => exact napPopLoop h
  | notifyLoop w =>
    cases w with
    | notEmpty => exact wp_notifyLoop h.1 h.2.1 h.2.2
    | notFull => exact wp_still still_notifyLoop fun _ => rfl
  | closeLoop w m =>
    cases w with
    | notEmpty => exact wp_closeLoop h.1 h.2.1 h.2.2
    | notFull => exact wp_still (still_closeLoop m) fun _ => rfl

theorem nap_code (k : Call V) (hg : Resting g) :
    (waitOutline N o).wp t (code o k) (fun _ g' => Resting g') g := by
  cases k with
  | tryPush v => exact wp_seq (wp_mono (napTryPush hg) fun _ _ h => h)
  | tryPushFunc fill => exact napTryPushFunc hg
  | push v => exact wp_seq (wp_mono (napPush hg) fun _ _ h => h)
  | pushTicket v => exact wp_seq (wp_mono (napPushTicket hg) fun _ _ h => h)
  | tryPop => exact wp_seq (wp_mono (napTryPop hg.trying) fun _ _ h => h.resting hg)
  | pop => exact wp_seq (wp_proc hg fun _ _ h => h)
  | close => exact wp_seq (wp_mono (napClose hg) fun _ _ h => h)

omit [DecidableEq Tid] in
theorem init_napInv : NapInv o (State.init : State V Tid) fun _ => ⟨.out, .none, 0, none⟩ := by
  refine ⟨fun _ => Nat.le_refl _, fun t i => by simp [State.init], by simp [State.init, Waiter.init],
    ⟨?_, ?_, ?_, ?_, ?_, ?_, fun _ => ⟨[], ?_⟩⟩, ⟨?_, ?_, ?_, ?_⟩⟩ <;>
    simp [State.init, Waiter.init, Sleep.announced, Ledger.init]

theorem waitOutline_valid : (waitOutline N o : Outline (ring V Tid N o)).Valid where
  init := ⟨_, init_napInv, fun _ => ⟨rfl, rfl⟩⟩
  body t p g h := nap_body p h
  call t k s γ hI hr _ := by
    refine ⟨γ t, ?_, wp_mono (nap_code k hr) fun r g' hg s γ hI hγ => ⟨γ t, ?_, hγ ▸ hg⟩⟩
    · rw [upd_eq_self]; exact NapInv.unmoved hI ⟨rfl, rfl, rfl, rfl, id⟩
    · rw [upd_eq_self]; exact NapInv.unmoved hI ⟨rfl, rfl, rfl, rfl, id⟩

end
end Katas.Turnstile.Go
