import Mathlib.Data.Fintype.Card
import Mathlib.Order.Interval.Finset.Nat
import Katas.Turnstile.Cpp.QueueSafety

/-!
# No ticket of the C++ queue is stuck

A ticket taken after the close is paid with a tombstone, into a slot that
nobody need release once the consumers have left. A thread takes at most one
such ticket: it looked at the closed bit before, and its next push sees it
set. So with at most `N` producers the late tickets are on distinct slots,
and none waits for another.
-/
namespace Katas.Turnstile.Cpp
open Katas.Conc Katas.SeqRing Outline

section
variable {V Tid : Type} [Inhabited V] [DecidableEq Tid] (N : Capacity) (o : Options)

/-! ## One late ticket a thread -/

/-- The call a thread is in, and has it seen the closed bit clear since its
last ticket? -/
structure Pass (V : Type) where
  call : Option (Call V)
  passed : Bool

def Call.pushes {V : Type} : Call V → Prop
  | .try_push _ | .push _ => True
  | _ => False

structure PassInv (c : Core V Tid) (γ : Tid → Pass V) : Prop where
  called : ∀ t k, (γ t).call = some k → c.ledger.called (c.ledger.me t) = some k
  begun : ∀ p t n, c.ledger.reservedBy p = some (t, n) → n ≤ c.ledger.calls t
  byPush : ∀ p id, c.ledger.reservedBy p = some id → ∃ k, c.ledger.called id = some k ∧ k.pushes
  opens : c.ledger.closed = false → ∀ p, c.ledger.reservedBy p ≠ none → c.openAt p = true
  passed : ∀ t, (γ t).passed = true → ∀ p n, c.ledger.reservedBy p = some (t, n) →
    c.openAt p = true
  once : ∀ p q t n m, c.ledger.reservedBy p = some (t, n) → c.ledger.reservedBy q = some (t, m) →
    c.openAt p = false → c.openAt q = false → p = q

def Pushing (g : Pass V) : Prop := ∃ k, g.call = some k ∧ k.pushes

def passPre : Proc V → Pass V → Prop
  | .tryPushLoop _ _, g | .pushLoop _ _, g => Pushing g
  | _, _ => True

abbrev passOutline : Outline (queue V Tid N o) where
  G := Pass V
  Inv s γ := PassInv s.core γ
  need _ _ _ _ := True
  ok _ _ _ := True
  rest _ g := g.call = none
  pre p _ g := passPre p g
  post _ _ g _ g' := g' = g

variable {N o} {t : Tid} {g : Pass V}

theorem passAtom_of {a : Act V} {R : Resp a → Pass V → Prop}
    (h : ∀ (s : State V Tid) (γ : Tid → Pass V), PassInv s.core γ → γ t = g →
      ∀ n s' r, sem N t a n s = some (s', r) → ∃ g', PassInv s'.core (upd γ t g') ∧ R r g') :
    (passOutline N o).Atom t g a R :=
  fun s γ hI hγ => ⟨trivial, fun _ => h s γ hI hγ⟩

/-- Reserves nothing. -/
def plain : Act V → Bool
  | .tailCas _ | .tailAdd => false
  | _ => true

/-- What a plain operation leaves to the tickets. -/
structure Plainly (c c' : Core V Tid) : Prop where
  reservedBy : c'.ledger.reservedBy = c.ledger.reservedBy
  called : c'.ledger.called = c.ledger.called
  calls : c'.ledger.calls = c.ledger.calls
  openAt : c'.openAt = c.openAt
  closed : c'.ledger.closed = false → c.ledger.closed = false

theorem plainly_of_plain {a : Act V} (ha : plain a = true) {n : Nat} {s s' : State V Tid}
    {r : Resp a} (h : sem N t a n s = some (s', r)) : Plainly s.core s'.core := by
  unfold sem at h
  split at h <;> simp only [plain, Bool.false_eq_true] at ha
  case h_4 => cases h; exact ⟨rfl, rfl, rfl, rfl, nofun⟩
  all_goals
    (repeat' split at h) <;> cases h <;> exact ⟨rfl, rfl, rfl, rfl, id⟩

omit [Inhabited V] [DecidableEq Tid] in
theorem PassInv.plainly {c c' : Core V Tid} {γ : Tid → Pass V} (h : PassInv c γ)
    (hc : Plainly c c') : PassInv c' γ := by
  refine ⟨?_, ?_, ?_, fun hcl => ?_, ?_, ?_⟩
  · simpa only [Ledger.me, hc.called, hc.calls] using h.called
  · simpa only [hc.reservedBy, hc.calls] using h.begun
  · simpa only [hc.reservedBy, hc.called] using h.byPush
  · simpa only [hc.reservedBy, hc.openAt] using h.opens (hc.closed hcl)
  · simpa only [hc.reservedBy, hc.openAt] using h.passed
  · simpa only [hc.reservedBy, hc.openAt] using h.once

omit [Inhabited V] in
/-- A thread passes the check, or forgets that it has. -/
theorem PassInv.see {c : Core V Tid} {γ : Tid → Pass V} (h : PassInv c γ) {b : Bool}
    (hb : b = true → c.ledger.closed = false ∨ (γ t).passed = true) :
    PassInv c (upd γ t ⟨(γ t).call, b⟩) := by
  refine ⟨fun u k hk => ?_, h.begun, h.byPush, h.opens, fun u hu p n hp => ?_, h.once⟩
  · simp only [upd_apply] at hk
    split at hk
    · rename_i he; subst he; exact h.called u k hk
    · exact h.called u k hk
  · simp only [upd_apply] at hu
    split at hu
    · rename_i he
      subst he
      rcases hb hu with hcl | hps
      · exact h.opens hcl p (by rw [hp]; simp)
      · exact h.passed u hps p n hp
    · exact h.passed u hu p n hp

theorem passAtom_plain {a : Act V} (ha : plain a = true) :
    (passOutline N o).Atom t g a fun _ g' => g' = g := by
  refine passAtom_of fun s γ hI hγ n s' r hs => ⟨g, ?_, rfl⟩
  rw [← hγ, upd_eq_self]
  exact hI.plainly (plainly_of_plain ha hs)

/-- The check before a ticket. -/
theorem passAtom_check :
    (passOutline N o).Atom t g .tailLoad fun r g' => g' = ⟨g.call, !r.closed⟩ := by
  refine passAtom_of fun s γ hI hγ n s' r hs => ⟨_, ?_, rfl⟩
  subst hγ
  cases hs
  exact hI.see fun hb => .inl (by simpa [Ledger.tailWord] using hb)

omit [Inhabited V] in
/-- A reservation by a push: with the bit clear, or the thread's first since
it passed the check. -/
theorem PassInv.reserve {c : Core V Tid} {γ : Tid → Pass V} (h : PassInv c γ)
    (hg : Pushing (γ t)) (hp : c.ledger.closed = true → (γ t).passed = true) {b : Bool}
    (hb : b = true → c.ledger.closed = false ∧ (γ t).passed = true) :
    PassInv (c.reserve t) (upd γ t ⟨(γ t).call, b⟩) := by
  obtain ⟨k, hk, hpush⟩ := hg
  -- who has passed has no late ticket
  have hfresh : ∀ q m, c.ledger.closed = true → c.ledger.reservedBy q = some (t, m) →
      c.openAt q = true := fun q m hcl => h.passed t (hp hcl) q m
  refine ⟨fun u k' hk' => ?_, fun q u n hq => ?_, fun q id hq => ?_, fun hcl q hq => ?_,
    fun u hu q n hq => ?_, fun q q' u n m hq hq' ho ho' => ?_⟩
  · simp only [upd_apply] at hk'
    split at hk'
    · rename_i he; subst he; exact h.called u k' hk'
    · exact h.called u k' hk'
  · simp only [Core.reserve, Ledger.reserve, upd_apply] at hq ⊢
    split at hq
    · simp only [Ledger.me, Option.some.injEq, Prod.mk.injEq] at hq
      obtain ⟨rfl, rfl⟩ := hq
      exact Nat.le_refl _
    · exact h.begun q u n hq
  · simp only [Core.reserve, Ledger.reserve, upd_apply] at hq ⊢
    split at hq
    · cases hq; exact ⟨k, h.called t k hk, hpush⟩
    · exact h.byPush q id hq
  · have hcl : c.ledger.closed = false := hcl
    simp only [Core.reserve, Ledger.reserve, upd_apply, hcl] at hq ⊢
    split
    · rfl
    · rename_i hne; rw [if_neg hne] at hq; exact h.opens hcl q hq
  · simp only [Core.reserve, Ledger.reserve, upd_apply] at hu hq ⊢
    by_cases hut : u = t
    · subst hut
      obtain ⟨hcl, hps⟩ := hb (by simpa using hu)
      split
      · simp [hcl]
      · rename_i hne; rw [if_neg hne] at hq; exact h.passed u hps q n hq
    · rw [if_neg hut] at hu
      split at hq
      · cases hq; exact absurd rfl hut
      · rename_i hne; rw [if_neg hne]; exact h.passed u hu q n hq
  · simp only [Core.reserve, Ledger.reserve, upd_apply] at hq hq' ho ho'
    by_cases h1 : q = c.ledger.lanes.tail <;> by_cases h2 : q' = c.ledger.lanes.tail
    · rw [h1, h2]
    · rw [if_pos h1] at hq ho
      rw [if_neg h2] at hq' ho'
      cases hq
      have := hfresh q' m (by simpa using ho) hq'
      rw [ho'] at this; cases this
    · rw [if_neg h1] at hq ho
      rw [if_pos h2] at hq' ho'
      cases hq'
      have := hfresh q n (by simpa using ho') hq
      rw [ho] at this; cases this
    · rw [if_neg h1] at hq ho
      rw [if_neg h2] at hq' ho'
      exact h.once q q' u n m hq hq' ho ho'

theorem passAtom_tailAdd (hg : Pushing g) (hp : g.passed = true) :
    (passOutline N o).Atom t g .tailAdd fun _ g' => g' = ⟨g.call, false⟩ := by
  refine passAtom_of fun s γ hI hγ n s' r hs => ⟨_, ?_, rfl⟩
  subst hγ
  cases hs
  exact hI.reserve hg (fun _ => hp) nofun

theorem passAtom_tailCas {word : TailWord} (hg : Pushing g) (hw : word.closed = false) :
    (passOutline N o).Atom t g (.tailCas word) fun _ g' => g' = g := by
  refine passAtom_of fun s γ hI hγ n s' r hs => ⟨_, ?_, rfl⟩
  subst hγ
  simp only [sem] at hs
  split at hs <;> cases hs
  · rename_i hword
    have hcl : s.core.ledger.closed = false := by rw [← hw, ← hword.1]; rfl
    exact hI.reserve hg (by simp [hcl]) fun hb => ⟨hcl, hb⟩
  · rw [upd_eq_self]; exact hI

/-! ## The functions -/

def plainProc : Proc V → Bool
  | .tryPushLoop _ _ | .pushLoop _ _ => false
  | _ => true

abbrev Plain {α : Type} (p : M V α) : Prop :=
  p.Silent (fun a => plain a = true) fun p => plainProc p = true

theorem wp_plain {α : Type} {p : M V α} {Q : α → Pass V → Prop} (hp : Plain p)
    (hQ : ∀ a, Q a g) : (passOutline N o).wp t p Q g := by
  refine wp_silent (fun a ha => passAtom_plain ha) (fun p hp => ?_) hp hQ
  refine ⟨?_, fun _ _ h => h⟩
  cases p with
  | tryPushLoop v word | pushLoop v parked => cases hp
  | _ => trivial

section
omit [Inhabited V]

theorem plain_of_quiet {α : Type} {p : M V α} (h : Quiet p) : Plain p := by
  refine h.mono (fun a ha => ?_) fun p hp => ?_
  · cases a <;> first | rfl | cases ha
  · cases p <;> first | rfl | cases hp

theorem plain_publish (pos : Nat) (v : V) : Plain (publish o pos v) :=
  .op rfl fun _ => .op rfl fun _ => .seq (plain_of_quiet (quiet_notify_one _)) fun _ => trivial

theorem plain_release (pos : Nat) : Plain (V := V) (release N.n o pos) :=
  .op rfl fun _ => plain_of_quiet (quiet_releaseWake pos)

theorem plain_consume (pos : Nat) : Plain (V := V) (consume N.n o pos) :=
  .op rfl fun _ => .op rfl fun _ => .seq (plain_release pos) fun _ => trivial

theorem plain_awaitPoll (pos : Nat) : Plain (V := V) (awaitPoll o pos) := by
  refine .op rfl fun seq => ?_
  split
  · trivial
  · refine .seq (plain_of_quiet (quiet_prepare_wait _)) fun key => .op rfl fun seq => ?_
    split
    · exact plain_of_quiet (quiet_cancel_wait _)
    · exact .seq (plain_of_quiet (quiet_wait _ key)) fun _ => Prog.silent_proc rfl

theorem plain_awaitLook (pos n : Nat) : Plain (V := V) (awaitLook pos n) := by
  induction n with
  | zero => exact Prog.silent_proc rfl
  | succ n ih =>
    refine .op rfl fun seq => ?_
    split
    · trivial
    · exact ih

theorem plain_tryPopLoop (pos : Nat) : Plain (V := V) (tryPopLoop N.n o pos) := by
  refine .op rfl fun raw => ?_
  split
  · refine .op rfl fun won => ?_
    cases won with
    | done =>
      dsimp only
      split
      · exact plain_consume pos
      · exact .seq (plain_release pos) fun _ => Prog.silent_proc rfl
    | found p => exact Prog.silent_proc rfl
  · split
    · trivial
    · exact .op rfl fun _ => Prog.silent_proc rfl

theorem plain_try_pop : Plain (V := V) try_pop :=
  .op rfl fun _ => Prog.silent_proc rfl

theorem plain_handOff (v : V) : Plain (handOff o v) := by
  refine .seq (plain_of_quiet (quiet_head_published nofun)) fun more => ?_
  split
  · exact .seq (plain_of_quiet (quiet_notify_one _)) fun _ => trivial
  · trivial

theorem plain_popAgain : Plain (V := V) popAgain := by
  refine .op rfl fun late => ?_
  split
  · trivial
  · exact Prog.silent_proc rfl

theorem plain_popSleep : Plain (V := V) (popSleep o) := by
  refine .seq (plain_of_quiet (quiet_prepare_wait _)) fun key => .seq plain_try_pop fun r => ?_
  have cancel : Plain (V := V) (cancel_wait o .not_empty) := plain_of_quiet (quiet_cancel_wait _)
  split
  · exact .seq cancel fun _ => trivial
  · refine .op rfl fun word => ?_
    split
    · exact .seq cancel fun _ => Prog.silent_proc rfl
    · refine .op rfl fun late => ?_
      split
      · exact .seq cancel fun _ => trivial
      · refine .seq (plain_of_quiet (quiet_wait _ key)) fun _ => .seq plain_try_pop fun r => ?_
        split
        · exact plain_handOff _
        · exact Prog.silent_proc rfl

theorem plain_popLoop : Plain (V := V) (popLoop o) := by
  refine .seq plain_try_pop fun r => ?_
  split
  · trivial
  · refine .seq (plain_of_quiet (quiet_spinPop _)) fun _ => .seq plain_try_pop fun r => ?_
    split
    · trivial
    · refine .op rfl fun word => ?_
      split
      · refine .op rfl fun h => ?_
        split
        · trivial
        · exact plain_popAgain
      · split
        · exact plain_popAgain
        · exact plain_popSleep

theorem plain_close : Plain (V := V) close :=
  .op rfl fun _ => .seq (plain_of_quiet (quiet_notify_all _)) fun _ =>
    plain_of_quiet (quiet_notify_all _)

end

theorem pass_tryPushLoop {v : V} {word : TailWord} (hg : Pushing g) :
    (passOutline N o).wp t (tryPushLoop o v word) (fun _ g' => g' = g) g := by
  unfold tryPushLoop
  split
  · rfl
  · rename_i hw
    refine wp_op_seq (passAtom_plain rfl) fun seq g' he => ?_
    subst he
    split
    · refine wp_op_seq (passAtom_tailCas hg (by simpa using hw)) fun won g' he => ?_
      subst he
      cases won with
      | done => exact wp_plain (plain_publish _ _) fun _ => rfl
      | found word' => exact wp_proc hg fun _ _ h => h
    · split
      · rfl
      · refine wp_op_seq (passAtom_plain rfl) fun word' g' he => ?_
        subst he
        exact wp_proc hg fun _ _ h => h

theorem pass_try_push {v : V} (hg : Pushing g) :
    (passOutline N o).wp t (try_push v) (fun _ g' => g' = g) g := by
  refine wp_op_seq (passAtom_plain rfl) fun word g' he => ?_
  subst he
  exact wp_proc hg fun _ _ h => h

theorem pass_pushTicket {v : V} (hg : Pushing g) :
    (passOutline N o).wp t (pushTicket o v) (fun _ g' => g'.call = g.call) g := by
  refine wp_op_seq passAtom_check fun word g' he => ?_
  subst he
  split
  · rfl
  · rename_i hw
    refine wp_op_seq (passAtom_tailAdd hg (by simpa using hw)) fun word g' he => ?_
    subst he
    refine wp_seq (wp_plain (plain_awaitLook _ _) fun _ => ?_)
    split
    · exact wp_plain (.op rfl fun _ => trivial) fun _ => rfl
    · exact wp_plain (plain_publish _ _) fun _ => rfl

theorem pass_pushLoop {v : V} {parked : Bool} (hg : Pushing g) :
    (passOutline N o).wp t (pushLoop o v parked) (fun _ g' => g' = g) g := by
  have tail : ∀ r : Push, Plain (V := V) (if parked = true ∧ r = .ok then (do
      chain_full_wake o
      pure r)
    else pure r) := by
    intro r
    split
    · exact .seq (plain_of_quiet quiet_chain_full_wake) fun _ => trivial
    · trivial
  refine wp_seq (wp_mono (pass_try_push hg) fun r g' he => ?_)
  subst he
  split
  · exact wp_plain (tail r) fun _ => rfl
  · refine wp_seq (wp_plain (plain_of_quiet (quiet_prepare_wait _)) fun key =>
      wp_seq (wp_mono (pass_try_push hg) fun r g' he => ?_))
    subst he
    split
    · exact wp_plain (.seq (plain_of_quiet (quiet_cancel_wait _)) fun _ => tail r) fun _ => rfl
    · refine wp_op_seq (passAtom_plain rfl) fun late g' he => ?_
      subst he
      split
      · exact wp_plain (.seq (plain_of_quiet (quiet_cancel_wait _)) fun _ => trivial) fun _ => rfl
      · exact wp_seq (wp_plain (plain_of_quiet (quiet_wait _ key)) fun _ => wp_proc hg fun _ _ h => h)

theorem pass_body (p : Proc V) (h : passPre p g) :
    (passOutline N o).wp t (body N.n o p) (fun _ g' => g' = g) g := by
  cases p with
  | tryPushLoop v word => exact pass_tryPushLoop h
  | pushLoop v parked => exact pass_pushLoop h
  | awaitPoll pos => exact wp_plain (plain_awaitPoll pos) fun _ => rfl
  | tryPopLoop pos => exact wp_plain (plain_tryPopLoop pos) fun _ => rfl
  | popLoop => exact wp_plain plain_popLoop fun _ => rfl
  | waitLoop w key => exact wp_plain (plain_of_quiet (quiet_waitLoop w key)) fun _ => rfl

theorem pass_code (k : Call V) (hk : g.call = some k) :
    (passOutline N o).wp t (code o k) (fun _ g' => g'.call = g.call) g := by
  cases k with
  | try_push v =>
    exact wp_seq (wp_mono (pass_try_push ⟨_, hk, trivial⟩) fun _ _ h => congrArg Pass.call h)
  | push v =>
    have hg : Pushing g := ⟨_, hk, trivial⟩
    refine wp_seq ?_
    unfold push
    split
    · exact wp_mono (pass_pushTicket hg) fun _ _ h => h
    · exact wp_proc hg fun _ _ h => congrArg Pass.call h
  | try_pop => exact wp_plain (.seq plain_try_pop fun _ => trivial) fun _ => rfl
  | pop => exact wp_plain (.proc rfl fun _ => trivial) fun _ => rfl
  | close => exact wp_plain (.seq plain_close fun _ => trivial) fun _ => rfl

theorem passOutline_valid : (passOutline N o : Outline (queue V Tid N o)).Valid where
  init := ⟨fun _ => ⟨none, false⟩, ⟨nofun, nofun, nofun, fun _ _ h => absurd rfl h, nofun, nofun⟩,
    fun _ => rfl⟩
  body t p g h := pass_body p h
  call t k s γ hI hr _ := by
    have h : PassInv s.core γ := hI
    refine ⟨⟨some k, false⟩, ?_, wp_mono (pass_code k rfl) fun r g' hc s γ hI hγ => ?_⟩
    · refine ⟨fun u k' hk' => ?_, fun p u n hp => ?_, fun p id hp => ?_, h.opens,
        fun u hu => ?_, h.once⟩
      · simp only [State.setLedger, State.setCore, Core.setLedger, Ledger.begin, Ledger.me,
          upd_apply] at hk' ⊢
        by_cases hu : u = t
        · subst hu; simpa using hk'
        · rw [if_neg hu] at hk' ⊢
          rw [if_neg (by simp [hu])]
          exact h.called u k' hk'
      · have := h.begun p u n hp
        simp only [State.setLedger, State.setCore, Core.setLedger, Ledger.begin, upd_apply]
        split
        · rename_i he; subst he; omega
        · exact this
      · obtain ⟨u, n⟩ := id
        obtain ⟨k', hk', hpush⟩ := h.byPush p (u, n) hp
        refine ⟨k', ?_, hpush⟩
        simp only [State.setLedger, State.setCore, Core.setLedger, Ledger.begin, upd_apply]
        rw [if_neg]
        · exact hk'
        · -- the new call has reserved nothing
          intro he
          cases he
          have := h.begun p _ _ hp
          omega
      · by_cases hut : u = t
        · subst hut; simp at hu
        · exact h.passed u (by simpa [hut] using hu)
    · have h : PassInv s.core γ := hI
      refine ⟨⟨none, false⟩, ⟨fun u k' hk' => ?_, h.begun, h.byPush, h.opens, fun u hu => ?_,
        h.once⟩, rfl⟩
      · by_cases hut : u = t
        · subst hut; simp at hk'
        · exact h.called u k' (by simpa [hut] using hk')
      · by_cases hut : u = t
        · subst hut; simp at hu
        · exact h.passed u (by simpa [hut] using hu)

/-! ## Nobody is stuck -/

variable {x : System.Config (queue V Tid N o)} {u : Tid} {pos q : Nat}

/-- `t` holds a ticket for `pos`, and has not published it. -/
def HoldsTicket (s : State V Tid) (t : Tid) (pos : Nat) : Prop :=
  s.core.ledger.reservedBy pos = some (s.core.ledger.me t) ∧
    s.core.ledger.lanes.phase pos = .reserved

/-- A pop of `c` has returned drained. -/
def Left (s : State V Tid) (c : Tid) : Prop :=
  ∃ n, s.core.ledger.results (c, n) = some (.pop .drained)

/-- `u` has an operation to do, and may do it now. -/
def Enabled (x : System.Config (queue V Tid N o)) (u : Tid) : Prop :=
  ∃ n x', System.step x (.step u n) = some x'

/-- Somebody else can go on to the release of a position before `pos`: the
holder of a ready slot, a consumer between its claim and its release, or a
consumer that has not left while the head is published. -/
def Progress (consumers : Tid → Prop) (x : System.Config (queue V Tid N o)) (t : Tid)
    (pos : Nat) : Prop :=
  ∃ u q, u ≠ t ∧ q < pos ∧
    ((x.state.core.ledger.Ready N.n u q ∨ x.state.core.ledger.Releasing u q) ∧ Enabled x u ∨
      q = x.state.core.ledger.lanes.head ∧ x.state.core.ledger.lanes.headPub ∧ consumers u ∧
        ¬ Left x.state u ∧ (Enabled x u ∨ ∃ x', System.step x (.invoke u .pop) = some x'))

/-- No operation waits for ever: a wait may time out. -/
theorem sem_enabled (t : Tid) (a : Act V) (s : State V Tid) : (sem N t a 1 s).isSome = true := by
  cases a <;> simp only [sem] <;> (repeat' split) <;> first | rfl | simp_all

theorem enabled_of_run (h : x.thread u ≠ .idle) : Enabled x u := by
  cases hth : x.thread u with
  | idle => exact absurd hth h
  | run c p =>
    cases p with
    | ret r => exact ⟨0, _, by simp only [System.step, hth, System.stepThread]; rfl⟩
    | call p k => exact ⟨0, _, by simp only [System.step, hth, System.stepThread]; rfl⟩
    | act a k =>
      obtain ⟨⟨s', r⟩, hs⟩ := Option.isSome_iff_exists.mp (sem_enabled (N := N) u a x.state)
      exact ⟨1, _, by simp only [System.step, hth, System.stepThread, hs]; rfl⟩

theorem enabled_or_pop (x : System.Config (queue V Tid N o)) (u : Tid) :
    Enabled x u ∨ ∃ x', System.step x (.invoke u .pop) = some x' := by
  cases hth : x.thread u with
  | idle => exact .inr ⟨_, by simp only [System.step, hth, System.invoke]; rfl⟩
  | run c p => exact .inl (enabled_of_run (by rw [hth]; intro h; cases h))

omit [DecidableEq Tid] [Inhabited V] in
/-- An unpublished ticket whose slot does not show it is awaited. -/
theorem QueueInv.awaits {c : Core V Tid} {ρ : Tid → QueueRole V} (h : QueueInv N c ρ)
    (hr : c.ledger.reservedBy pos = some (c.ledger.me t))
    (hp : c.ledger.lanes.phase pos = .reserved) (hs : c.seq N pos ≠ ⟨pos, false⟩) :
    ∃ late, (ρ t).stage = .waits pos late := by
  have ho := h.base.owned.owing pos t _ hp hr
  obtain ⟨k, -, -, hsit⟩ := h.base.in_call (t := t) fun he => by rw [he] at ho; cases ho
  have shown : ∀ {late}, c.ledger.Holds N.n t pos late → c.seq N pos = ⟨pos, false⟩ :=
    fun hh => h.base.lanes.word_eq (by rw [hp]; rfl) hh.turn
  cases hst : (ρ t).stage <;> rw [hst] at ho hsit <;> cases ho
  · exact ⟨_, rfl⟩
  · exact absurd (shown hsit.1) hs
  · exact absurd (shown hsit.1) hs

omit [Inhabited V] [DecidableEq Tid] in
/-- The tickets from the close on are of different threads. -/
theorem PassInv.late_lt {c : Core V Tid} {γ : Tid → Pass V} (h : PassInv c γ)
    {producers : Finset Tid}
    (hprod : ∀ id k, c.ledger.called id = some k → k.pushes → id.1 ∈ producers) {e d : Nat}
    (hlate : ∀ p, e ≤ p → p < e + d → c.ledger.reservedBy p ≠ none ∧ c.openAt p = false) :
    d ≤ producers.card := by
  have hby : ∀ p, e ≤ p → p < e + d → ∃ t, t ∈ producers ∧ ∃ n,
      c.ledger.reservedBy p = some (t, n) := by
    intro p h1 h2
    obtain ⟨⟨t, n⟩, hid⟩ := Option.ne_none_iff_exists'.mp (hlate p h1 h2).1
    obtain ⟨k, hk, hpush⟩ := h.byPush p _ hid
    exact ⟨t, hprod _ k hk hpush, n, hid⟩
  refine Nat.le_of_not_lt fun hlt => ?_
  have hcard : (producers.map .some).card < (Finset.Ico e (e + d)).card := by simpa using hlt
  obtain ⟨p, hp, q, hq, hne, heq⟩ := Finset.exists_ne_map_eq_of_card_lt_of_maps_to hcard
    (f := fun p => (c.ledger.reservedBy p).map Prod.fst) fun p hp => by
      have hp := Finset.mem_Ico.mp hp
      obtain ⟨t, ht, n, hn⟩ := hby p hp.1 hp.2
      simpa [hn] using ht
  rw [Finset.mem_Ico] at hp hq
  obtain ⟨t, -, n, hn⟩ := hby p hp.1 hp.2
  obtain ⟨u, -, m, hm⟩ := hby q hq.1 hq.2
  obtain rfl : t = u := by simpa [hn, hm] using heq
  exact hne (h.once p q t n m hn hm (hlate p hp.1 hp.2).2 (hlate q hq.1 hq.2).2)

/-- **No stuck ticket.** With at most `N` producers, and consumers that make
no call but `pop`, whenever a ticket's slot does not show its position,
somebody else has an enabled step towards the release of an earlier one; so
also when every consumer has returned drained. A call whose ticket was taken
after the close returns closed, and its position is a tombstone. -/
theorem tickets_never_stuck (hx : (queue V Tid N o).Reachable x) (producers : Finset Tid)
    (hcard : producers.card ≤ N.n)
    (hprod : ∀ id k, x.state.core.ledger.called id = some k → k.pushes → id.1 ∈ producers)
    (consumers : Tid → Prop) (hne : ∃ c, consumers c)
    (hpop : ∀ c, consumers c → ∀ k,
      x.state.core.ledger.called (x.state.core.ledger.me c) = some k → k = .pop) :
    (∀ t pos, System.AtOp x t (.seqLoad .await_turn pos) → HoldsTicket x.state t pos) ∧
    (∀ t pos, HoldsTicket x.state t pos → x.state.core.seq N pos ≠ ⟨pos, false⟩ →
      Progress consumers x t pos) ∧
    (∀ id pos r, x.state.core.ledger.reservedBy pos = some id → x.state.core.openAt pos = false →
      x.state.core.ledger.results id = some r →
      r = .push .closed ∧ (x.state.core.ledger.lanes.phase pos).isDead = true) := by
  obtain ⟨γ, hI, hst⟩ := Outline.sound (queueOutline_valid (o := o)) hx.reachableIf
  obtain ⟨γ', hP, -⟩ := Outline.sound (passOutline_valid (o := o)) hx.reachableIf
  have hI : QueueInv N x.state.core γ := hI
  have hP : PassInv x.state.core γ' := hP
  have hrun : ∀ u, (γ u).call ≠ none → Enabled x u := fun u hu => enabled_of_run fun hth => by
    have h := hst u
    rw [hth] at h
    exact hu (congrArg Role.call h)
  refine ⟨fun t pos ha => ?_, fun t pos ht hs => ?_, fun id pos r hr ho hres => ?_⟩
  · obtain ⟨⟨k, hk⟩, late, hstage⟩ := (hst t).need hI ha
    have hsit := (hI.base.sits hk).2
    rw [hstage] at hsit
    exact ⟨hsit.mine, hsit.phase⟩
  · obtain ⟨late, hstage⟩ := hI.awaits ht.1 ht.2 hs
    rcases hI.base.stalled hstage hs fun q _ => hI.used q with
      ⟨u, q, hne, hlt, hu, hcall⟩ | ⟨hlt, hpub, q, d, hq, hl, hqp⟩
    · exact ⟨u, q, hne, hlt, .inl ⟨hu, hrun u hcall⟩⟩
    · by_cases hstay : ∃ c, consumers c ∧ ¬ Left x.state c
      · obtain ⟨c, hc, hleft⟩ := hstay
        refine ⟨c, _, ?_, hlt, .inr ⟨rfl, hpub, hc, hleft, enabled_or_pop x c⟩⟩
        rintro rfl
        obtain ⟨k, hk, hpush⟩ := hP.byPush pos _ ht.1
        rw [hpop c hc k hk] at hpush
        exact hpush
      · -- all have left: a lap of late tickets would need a producer too many
        exfalso
        obtain ⟨c, hc⟩ := hne
        obtain ⟨n, hd⟩ : Left x.state c := Classical.not_not.mp fun h => hstay ⟨c, hc, h⟩
        obtain ⟨e, he, hle⟩ := hI.base.shut.drained _ hd
        have hqh : x.state.core.ledger.lanes.head ≤ q := Nat.le_of_not_lt fun h => by
          have := (hI.base.lanes.head q).mpr h
          rw [hqp] at this; cases this
        have hge : q + N.n ≤ pos := Lanes.lane_gap hl hq
        have htail : pos < x.state.core.ledger.lanes.tail := Nat.lt_of_not_le fun h => by
          have := (hI.base.lanes.tail pos).mpr h
          rw [ht.2] at this; cases this
        have := hP.late_lt hprod (e := e) (d := pos + 1 - e) fun p h1 h2 => by
          have hres : x.state.core.ledger.reservedBy p ≠ none := fun hno => by
            rcases (hI.base.owned.unowned p).mp hno with h | h
            · have := (hI.base.lanes.tail p).mp h
              omega
            · exact hI.used p h
          refine ⟨hres, ?_⟩
          cases ho : x.state.core.openAt p with
          | false => rfl
          | true =>
            have := (hI.open_iff hres).mp ho e he
            omega
        omega
  · have hlate := hI.openAt pos (by rw [hr]; simp)
    rw [ho] at hlate
    rcases hI.base.booked.paid id r pos hres hr with ⟨-, hl⟩ | ⟨-, -, hl⟩ | ⟨rfl, hd, -⟩
    · obtain ⟨e, he, hle⟩ := hlate
      rw [hI.base.shut.after e pos he hle] at hl; cases hl
    · exact absurd hl (late_iff.mp hlate)
    · exact ⟨rfl, hd⟩

end

/-- The ring is full, a ticket holder waits a lap behind, and a consumer has
claimed the first position. -/
def ticketWaits : List (System.Label ticketQueue) :=
  .invoke (0 : Fin 4) (.push 1) :: ops 0 7 ++ .invoke (0 : Fin 4) (.push 2) :: ops 0 7 ++
  .invoke (0 : Fin 4) (.push 3) :: ops 0 7 ++ .invoke (0 : Fin 4) (.push 4) :: ops 0 7 ++
  .invoke (1 : Fin 4) (.push 5) :: ops 1 2 ++ .invoke (2 : Fin 4) .pop :: ops 2 5

theorem tickets_never_stuck_waiting : ∃ x : System.Config ticketQueue, ticketQueue.Reachable x ∧
    HoldsTicket x.state (1 : Fin 4) 4 ∧
    Progress (fun c : Fin 4 => c = 2) x (1 : Fin 4) 4 := by
  obtain ⟨x, hx, hp⟩ := System.reachable_of_test ticketWaits
    (fun x => decide (x.state.core.ledger.reservedBy 4 = some ((1 : Fin 4), 1) ∧
      x.state.core.ledger.calls (1 : Fin 4) = 1 ∧
      x.state.core.ledger.lanes.phase 4 = .reserved ∧
      x.state.core.seq fourSlots 4 ≠ ⟨4, false⟩ ∧
      x.state.core.ledger.called (x.state.core.ledger.me (2 : Fin 4)) = some .pop))
    (by decide +kernel)
  simp only [decide_eq_true_eq] at hp
  obtain ⟨hr, hcalls, hph, hs, hc⟩ := hp
  have ht : HoldsTicket x.state (1 : Fin 4) 4 := ⟨by rw [hr, Ledger.me, hcalls], hph⟩
  refine ⟨x, hx, ht, (tickets_never_stuck hx Finset.univ (by simp) (fun _ _ _ _ => Finset.mem_univ _)
    (fun c : Fin 4 => c = 2) ⟨2, rfl⟩ ?_).2.1 _ _ ht hs⟩
  rintro c rfl k hk
  exact Option.some.inj (hk.symm.trans hc)

end Katas.Turnstile.Cpp
