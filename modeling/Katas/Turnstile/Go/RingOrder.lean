import Katas.Turnstile.Go.RingSafety
import Katas.Core.Object

/-!
# Order and truthful refusals of the Go ring

A consumer takes one producer's values in the order they were pushed. A
`TryPop` that returns empty and a `TryPush` that returns full each load two
words, at two moments; `Place` keeps what the first load said. The head never
goes back, so at the second load of a `TryPop` the head is still the position
it looks at. A slot's stamp never goes back either, so what a `TryPush` reads
there was so when it loaded the tail.
-/
namespace Katas.Turnstile.Go
open Katas.Conc Katas.SeqRing

section
variable {V Tid : Type} [Inhabited V] [DecidableEq Tid] {N : Capacity} {o : Options}
  {t : Tid}

/-! ## Order -/

omit [Inhabited V] in
theorem sorted_sem {s s' : State V Tid} {ρ : Tid → RingRole V} (h : RingInv N s.core ρ)
    (hs : s.core.ledger.Sorted) {a : Act V} {n : Nat} {r : Resp a}
    (hsem : sem N o t a n s = some (s', r)) : s'.core.ledger.Sorted := by
  by_cases hq : quiet a = true
  · rw [core_of_quiet hq hsem]
    exact hs
  · cases a <;> simp only [quiet, not_true_eq_false] at hq <;> simp only [sem] at hsem
    case tailCas word =>
      split at hsem <;> cases hsem
      · exact h.base.sorted_reserve hs t
      · exact hs
    case tailAdd =>
      cases hsem
      simp only [State.setLedger]
      split
      · exact ⟨hs.reserved, hs.claimed⟩
      · exact h.base.sorted_reserve hs t
    case headCas pos =>
      split at hsem <;> cases hsem
      · rename_i hp
        subst hp
        exact h.base.sorted_claim hs t _
      · exact hs
    all_goals
      cases hsem
      exact ⟨hs.reserved, hs.claimed⟩

theorem ring_sorted {x : System.Config (ring V Tid N o)} (hx : (ring V Tid N o).Reachable x) :
    x.state.core.ledger.Sorted := by
  have hind : (ring V Tid N o).lts.Inductive fun x =>
      (ring V Tid N o).Reachable x ∧ x.state.core.ledger.Sorted := by
    refine ⟨?_, fun x l x' ⟨hx, hs⟩ hst => ⟨hx.step hst, ?_⟩⟩
    · rintro x rfl
      exact ⟨⟨_, [], rfl, .nil _⟩, Ledger.init_sorted⟩
    obtain ⟨γ, hI, -⟩ := ring_holds hx
    rcases System.step_cases hst with he | ⟨t, c, he⟩ | ⟨t, c, r, he⟩ | ⟨t, a, n, r, hsem⟩
    · rw [he]
      exact hs
    · rw [he]
      exact ⟨hs.reserved, hs.claimed⟩
    · rw [he]
      exact ⟨hs.reserved, hs.claimed⟩
    · exact sorted_sem hI hs hsem
  exact (hind.reachable x hx).2

/-! ## The words only grow -/

omit [Inhabited V] in
theorem behind_sem {s s' : State V Tid} {ρ ρ' : Tid → RingRole V} (h : RingInv N s.core ρ)
    (h' : RingInv N s'.core ρ') {a : Act V} {n : Nat} {r : Resp a}
    (hsem : sem N o t a n s = some (s', r)) :
    s.core.ledger.lanes.Behind s'.core.ledger.lanes := by
  by_cases hq : quiet a = true
  · rw [core_of_quiet hq hsem]
    exact .rfl
  · cases a <;> simp only [quiet, not_true_eq_false] at hq <;> simp only [sem] at hsem
    case tailCas word =>
      split at hsem <;> cases hsem
      · exact Lanes.behind_reserve _
      · exact .rfl
    case tailAdd =>
      cases hsem
      simp only [State.setLedger]
      split
      · exact Lanes.behind_reserve _
      · exact Lanes.behind_reserve _
    case headCas pos =>
      split at hsem <;> cases hsem
      · exact Lanes.behind_claim _
      · exact .rfl
    case publish pos =>
      cases hsem
      exact h.base.lanes.behind_publish h'.base.lanes
    case tombstone pos =>
      cases hsem
      exact h.base.lanes.behind_publish h'.base.lanes
    case release pos =>
      cases hsem
      exact h.base.lanes.behind_release h'.base.lanes
    all_goals
      cases hsem
      exact .rfl

/-! ## Places -/

/-- What the last load said: the tail was at `pos`; the slot of that position
was behind it; the head had come to `pos`; that position was not published. -/
inductive Place where
  | out
  | tail (pos : Nat)
  | full
  | head (pos : Nat)
  | empty

/-- Any operation may be of no interest. -/
inductive Move : Place → (a : Act V) → Resp a → Place → Prop
  | stay (g : Place) (a : Act V) (r : Resp a) : Move g a r g
  | tail (g : Place) (word : TailWord) : Move g .tailLoad word (.tail word.pos)
  | full (pos : Nat) (seq : SeqWord) : seq.stamp < pos →
      Move (.tail pos) (.seqLoad .claim pos) seq .full
  | head (g : Place) (pos : Nat) : Move g .headLoad pos (.head pos)
  | won (pos : Nat) : Move (.head pos) (.headCas pos) true (.head (pos + 1))
  | empty (pos : Nat) (raw : SeqWord) : raw.stamp < pos + 1 →
      Move (.head pos) (.seqLoad .tryPop pos) raw .empty

def endPlace : Call V → Result V → Place → Prop
  | .tryPush _, r, g | .tryPushFunc _, r, g => r = .push .full → g = .full
  | .tryPop, r, g => r = .pop .empty → g = .empty
  | _, _, _ => True

def placePre : Proc V → Place → Prop
  | .claimLoop word, g => g = .tail word.pos
  | .tryPopLoop pos, g => g = .head pos
  | _, _ => True

def placePost : (p : Proc V) → Place → Ret p → Place → Prop
  | .claimLoop _, _, r, g' => r = .no .full → g' = .full
  | .tryPopLoop _, _, r, g' => r = .empty → g' = .empty
  | .pushLoop _ _, _, _, _ | .popLoop, _, _, _ => True
  | .awaitPoll _, g, _, g' | .notifyLoop _, g, _, g' | .closeLoop _ _, g, _, g' => g' = g

variable (V Tid N o) in
abbrev tryFlow : Flow (ring V Tid N o) where
  G := Place
  idle := .out
  start _ _ := .out
  move _ := Move
  ends _ := endPlace
  pre p _ := placePre p
  post p _ := placePost p

def plainProc : Proc V → Bool
  | .awaitPoll _ | .notifyLoop _ | .closeLoop _ _ => true
  | _ => false

/-- Calls nothing but the loops that leave the place alone. -/
abbrev Plain {α : Type} (p : M V α) : Prop :=
  p.Silent (fun _ => True) fun p => plainProc p = true

omit [Inhabited V] in
theorem Quiet.plain {α : Type} {p : M V α} (h : Quiet p) : Plain p :=
  h.mono (fun _ _ => trivial) fun p hp => by cases p <;> first | rfl | cases hp

variable {g : Place}

theorem wp_plain {α : Type} {p : M V α} {Q : α → Place → Prop} (hp : Plain p)
    (hQ : ∀ a, Q a g) : (tryFlow V Tid N o).wp t p Q g := by
  induction p with
  | ret a => exact hQ a
  | act a k ih => exact fun r => ⟨g, .stay g a r, ih r (hp.2 r)⟩
  | call p k ih =>
    cases p with
    | awaitPoll _ | notifyLoop _ | closeLoop _ _ =>
      refine ⟨trivial, fun r g' he => ?_⟩
      obtain rfl : g' = g := he
      exact ih r (hp.2 r)
    | claimLoop _ | pushLoop _ _ | tryPopLoop _ | popLoop => cases hp.1

theorem wp_plain_seq {α β : Type} {p : M V α} {f : α → M V β} {Q : β → Place → Prop}
    (hp : Plain p) (hf : ∀ a, (tryFlow V Tid N o).wp t (f a) Q g) :
    (tryFlow V Tid N o).wp t (p >>= f) Q g :=
  Flow.wp_seq (wp_plain hp hf)

theorem wp_stay_seq {a : Act V} {β : Type} {f : Resp a → M V β} {Q : β → Place → Prop}
    (hf : ∀ r, (tryFlow V Tid N o).wp t (f r) Q g) :
    (tryFlow V Tid N o).wp t (op a >>= f) Q g :=
  Flow.wp_move_seq fun r => ⟨g, .stay g a r, hf r⟩

/-! ### Producers -/

theorem follows_claim :
    (tryFlow V Tid N o).wp t claim (fun r g' => r = .no .full → g' = .full) g :=
  Flow.wp_move_seq fun word => ⟨_, .tail g word, Flow.wp_proc rfl fun _ _ h => h⟩

theorem follows_claimLoop {word : TailWord} :
    (tryFlow V Tid N o).wp t (claimLoop word) (fun r g' => r = .no .full → g' = .full)
      (.tail word.pos) := by
  unfold claimLoop
  split
  · nofun
  · refine Flow.wp_move_seq fun seq => ?_
    by_cases hlt : dif seq word.pos < 0
    · refine ⟨_, .full word.pos seq (dif_neg.mp hlt), ?_⟩
      rw [if_neg (by omega), if_pos hlt]
      exact fun _ => rfl
    · refine ⟨_, .stay _ _ _, ?_⟩
      rw [if_neg hlt]
      split
      · refine wp_stay_seq fun won => ?_
        split
        · nofun
        · exact follows_claim
      · exact follows_claim

omit [Inhabited V] in
theorem plain_publish (pos : Nat) (v : V) : Plain (publish o pos v) :=
  .seq (Prog.silent_op trivial) fun _ => .seq (Prog.silent_op trivial) fun _ =>
    .seq (quiet_notify _).plain fun _ => trivial

theorem follows_publish {pos : Nat} {v : V} :
    (tryFlow V Tid N o).wp t (publish o pos v) (fun r g' => r = .full → g' = .full) g :=
  wp_stay_seq fun _ => wp_stay_seq fun _ => wp_plain_seq (quiet_notify _).plain fun _ => nofun

theorem follows_tryPush {v : V} :
    (tryFlow V Tid N o).wp t (tryPush o v) (fun r g' => r = .full → g' = .full) g := by
  refine Flow.wp_seq (Flow.wp_mono follows_claim fun c g' hc => ?_)
  cases c with
  | no r => exact fun hr => hc (by rw [hr])
  | pos p => exact follows_publish

omit [Inhabited V] in
theorem plain_fillSlot (pos : Nat) (vs : List V) : Plain (fillSlot pos vs) := by
  induction vs with
  | nil => trivial
  | cons v vs ih => exact .seq (Prog.silent_op trivial) fun _ => ih

theorem follows_tryPushFunc {fill : Fill V} :
    (tryFlow V Tid N o).wp t (tryPushFunc o fill) (fun r g' => r = .push .full → g' = .full) g := by
  refine Flow.wp_seq (Flow.wp_mono follows_claim fun c g' hc => ?_)
  cases c with
  | no r =>
    intro hr
    cases hr
    exact hc rfl
  | pos p =>
    refine wp_plain_seq (plain_fillSlot _ _) fun _ => ?_
    split
    · exact wp_stay_seq fun _ => wp_stay_seq fun _ =>
        wp_plain_seq (quiet_notify _).plain fun _ => nofun
    · exact wp_stay_seq fun _ => wp_plain_seq (quiet_notify _).plain fun _ => nofun

section
omit [Inhabited V]

theorem plain_awaitLook (pos n : Nat) : Plain (V := V) (awaitLook pos n) := by
  induction n with
  | zero => exact Prog.silent_proc rfl
  | succ n ih =>
    refine .seq (Prog.silent_op trivial) fun seq => ?_
    split
    · trivial
    · exact ih

theorem plain_awaitPoll (pos : Nat) : Plain (V := V) (awaitPoll pos) := by
  refine .seq (Prog.silent_op trivial) fun seq => ?_
  split
  · trivial
  · exact Prog.silent_proc rfl

theorem plain_pushTicket (v : V) : Plain (pushTicket o v) := by
  refine .seq (Prog.silent_op trivial) fun word => ?_
  split
  · trivial
  · exact .seq (plain_awaitLook _ _) fun _ => plain_publish _ _

end

theorem follows_pushLoop {v : V} {parked : Bool} :
    (tryFlow V Tid N o).wp t (pushLoop o v parked) (fun _ _ => True) g := by
  -- the end of an attempt
  have last : ∀ {r : Push} {g' : Place}, (tryFlow V Tid N o).wp t (if r = .full then (do
        let late ← op .expired
        if late then do
          cancel o .notFull
          pure .timeout
        else do
          let _ ← wait o .notFull
          proc (.pushLoop v true))
      else if parked = true ∧ r = .ok then do
        chainFullWake o
        pure r
      else pure r) (fun _ _ => True) g' := by
    intro r g'
    split
    · refine wp_stay_seq fun late => ?_
      split
      · exact wp_plain_seq (quiet_cancel _).plain fun _ => trivial
      · exact wp_plain_seq (quiet_wait _).plain fun _ => Flow.wp_proc trivial fun _ _ _ => trivial
    · split
      · exact wp_plain_seq quiet_chainFullWake.plain fun _ => trivial
      · trivial
  unfold pushLoop
  refine Flow.wp_seq (Flow.wp_mono follows_tryPush fun r g' _ => ?_)
  split
  · refine wp_plain_seq (quiet_prepare _).plain fun _ =>
      Flow.wp_seq (Flow.wp_mono follows_tryPush fun r g'' _ => ?_)
    split
    · exact last
    · exact wp_plain_seq (quiet_cancel _).plain fun _ => last
  · exact last

theorem follows_push {v : V} : (tryFlow V Tid N o).wp t (push o v) (fun _ _ => True) g := by
  unfold push
  split
  · refine wp_stay_seq fun word => ?_
    split
    · trivial
    · exact wp_plain (plain_pushTicket v) fun _ => trivial
  · exact Flow.wp_proc trivial fun _ _ _ => trivial

/-! ### Consumers -/

omit [Inhabited V] in
theorem plain_release (pos : Nat) : Plain (V := V) (release N.n o pos) :=
  .seq (Prog.silent_op trivial) fun _ => (quiet_releaseWake pos).plain

theorem plain_consume (pos : Nat) : Plain (V := V) (consume N.n o pos) := by
  refine .seq (Prog.silent_op trivial) fun v => ?_
  split
  · exact .seq (plain_release pos) fun _ => trivial
  · exact .seq (Prog.silent_op trivial) fun _ => .seq (plain_release pos) fun _ => trivial

theorem follows_tryPop :
    (tryFlow V Tid N o).wp t tryPop (fun r g' => r = .empty → g' = .empty) g :=
  Flow.wp_move_seq fun pos => ⟨_, .head g pos, Flow.wp_proc rfl fun _ _ h => h⟩

theorem follows_tryPopLoop {pos : Nat} :
    (tryFlow V Tid N o).wp t (tryPopLoop N.n o pos) (fun r g' => r = .empty → g' = .empty)
      (.head pos) := by
  unfold tryPopLoop
  refine Flow.wp_move_seq fun raw => ?_
  by_cases hlt : dif raw (pos + 1) < 0
  · refine ⟨_, .empty pos raw (dif_neg.mp hlt), ?_⟩
    rw [if_neg (by omega), if_pos hlt]
    exact fun _ => rfl
  · refine ⟨_, .stay _ _ _, ?_⟩
    rw [if_neg hlt]
    split
    · refine Flow.wp_move_seq fun won => ?_
      cases won with
      | true =>
        refine ⟨_, .won pos, ?_⟩
        rw [if_pos rfl]
        split
        · -- a tombstone: on to the next position
          exact wp_plain_seq (plain_release pos) fun _ => Flow.wp_proc rfl fun _ _ h => h
        · exact wp_plain_seq (plain_consume pos) fun v => nofun
      | false =>
        refine ⟨_, .stay _ _ _, ?_⟩
        rw [if_neg (by decide)]
        exact follows_tryPop
    · exact follows_tryPop

omit [Inhabited V] in
theorem plain_drainedTest : Plain (V := V) drainedTest := by
  refine .seq (Prog.silent_op trivial) fun e => ?_
  split
  · trivial
  · exact .seq (Prog.silent_op trivial) fun _ => trivial

omit [Inhabited V] in
theorem plain_handOff (v : V) : Plain (handOff o v) := by
  refine .seq (quiet_headPublished (show Site.handOff ≠ .awaitTurn by decide)).plain fun more => ?_
  split
  · exact .seq (quiet_notify _).plain fun _ => trivial
  · trivial

theorem follows_popAgain : (tryFlow V Tid N o).wp t (proc .popLoop) (fun _ _ => True) g :=
  Flow.wp_proc trivial fun _ _ _ => trivial

theorem follows_popSleep : (tryFlow V Tid N o).wp t (popSleep o) (fun _ _ => True) g := by
  refine wp_plain_seq (quiet_prepare _).plain fun _ =>
    Flow.wp_seq (Flow.wp_mono follows_tryPop fun r g' _ => ?_)
  split
  · exact wp_plain_seq (quiet_cancel _).plain fun _ => trivial
  · refine wp_stay_seq fun word => ?_
    split
    · exact wp_plain_seq (quiet_cancel _).plain fun _ => follows_popAgain
    · refine wp_stay_seq fun late => ?_
      split
      · exact wp_plain_seq (quiet_cancel _).plain fun _ => trivial
      · refine wp_plain_seq (quiet_wait _).plain fun _ =>
          Flow.wp_seq (Flow.wp_mono follows_tryPop fun r g' _ => ?_)
        split
        · exact wp_plain (plain_handOff _) fun _ => trivial
        · exact follows_popAgain

theorem follows_popLoop : (tryFlow V Tid N o).wp t (popLoop o) (fun _ _ => True) g := by
  have late : ∀ {g' : Place}, (tryFlow V Tid N o).wp t (do
      let late ← op .expired
      if late then pure .timeout else proc .popLoop) (fun _ _ => True) g' := by
    intro g'
    refine wp_stay_seq fun late => ?_
    split
    · trivial
    · exact follows_popAgain
  refine Flow.wp_seq (Flow.wp_mono follows_tryPop fun r g' _ => ?_)
  split
  · trivial
  refine wp_plain_seq (quiet_spinPop _).plain fun _ =>
    Flow.wp_seq (Flow.wp_mono follows_tryPop fun r g' _ => ?_)
  split
  · trivial
  refine wp_stay_seq fun word => ?_
  split
  · refine wp_plain_seq plain_drainedTest fun d => ?_
    split
    · trivial
    · exact late
  · split
    · exact late
    · exact follows_popSleep

omit [Inhabited V] in
theorem plain_close : Plain (V := V) (close o) := by
  refine .seq (Prog.silent_op trivial) fun old => ?_
  split
  · exact .seq (quiet_closeWaiter _).plain fun _ => (quiet_closeWaiter _).plain
  · exact .seq (Prog.silent_op trivial) fun _ =>
      .seq (quiet_closeWaiter _).plain fun _ => (quiet_closeWaiter _).plain

theorem try_follows : (tryFlow V Tid N o).Follows where
  code t k := by
    cases k with
    | tryPush v =>
      exact Flow.wp_seq (Flow.wp_mono follows_tryPush fun r g h hr => h (by cases hr; rfl))
    | tryPushFunc fill => exact follows_tryPushFunc
    | push v => exact Flow.wp_seq (Flow.wp_mono follows_push fun _ _ _ => trivial)
    | pushTicket v => exact wp_plain_seq (plain_pushTicket v) fun _ => trivial
    | tryPop =>
      exact Flow.wp_seq (Flow.wp_mono follows_tryPop fun r g h hr => h (by cases hr; rfl))
    | pop => exact Flow.wp_seq (Flow.wp_mono follows_popAgain fun _ _ _ => trivial)
    | close => exact wp_plain_seq plain_close fun _ => trivial
  body t p g h := by
    cases p with
    | claimLoop word =>
      obtain rfl : g = .tail word.pos := h
      exact follows_claimLoop
    | tryPopLoop pos =>
      obtain rfl : g = .head pos := h
      exact follows_tryPopLoop
    | awaitPoll pos => exact wp_plain (plain_awaitPoll pos) fun _ => rfl
    | pushLoop v parked => exact follows_pushLoop
    | popLoop => exact follows_popLoop
    | notifyLoop w => exact wp_plain (quiet_notifyLoop w).plain fun _ => rfl
    | closeLoop w m => exact wp_plain (quiet_closeLoop w m).plain fun _ => rfl

/-! ## Instants -/

/-- What an operation finds, and that it takes nothing back. -/
theorem occurs_behind {a : Act V} {n : Nat} {s s' : State V Tid} {r : Resp a}
    (h : System.Occurs (Y := ring V Tid N o) t a s) (hs : sem N o t a n s = some (s', r)) :
    s.core.ledger.lanes.Inv N.n ∧ s.core.ledger.lanes.Behind s'.core.ledger.lanes := by
  obtain ⟨y', hy', hs'⟩ := h.after hs
  obtain ⟨y, hy, -, rfl⟩ := h
  obtain ⟨ρ, hI, -⟩ := ring_holds hy
  obtain ⟨ρ', hI', -⟩ := ring_holds hy'
  rw [hs'] at hI'
  exact ⟨hI.base.lanes, behind_sem hI hI' hs⟩

theorem behind_step {s s' : State V Tid} {γ γ' : (tryFlow V Tid N o).Places}
    {l : Option ((ring V Tid N o).Tid × (ring V Tid N o).sig.Act)}
    (h : (tryFlow V Tid N o).Step System.Occurs s γ l s' γ') :
    s.core.ledger.lanes.Behind s'.core.ledger.lanes := by
  cases h with
  | rest => exact .rfl
  | begin t c => exact .rfl
  | move t a n hok hs hm => exact (occurs_behind hok hs).2
  | finish t c r => exact .rfl

/-- Since the tail was loaded, its slot was not behind. -/
def TailFree (N : Capacity) (s : State V Tid) : Place → Prop
  | .tail pos => pos ≤ (s.core.seq N pos).stamp
  | .full => False
  | _ => True

/-- Since the head was loaded, it has not gone back. -/
def HeadAt (s : State V Tid) : Place → Prop
  | .head pos => pos ≤ s.core.ledger.lanes.head
  | .empty => False
  | _ => True

omit [Inhabited V] [DecidableEq Tid] in
theorem TailFree.mono {s s' : State V Tid} (h : TailFree N s g)
    (hb : s.core.ledger.lanes.Behind s'.core.ledger.lanes) : TailFree N s' g := by
  cases g with
  | tail pos => exact Nat.le_trans h (hb.stamp _)
  | full => exact h
  | out | head _ | empty => trivial

omit [Inhabited V] [DecidableEq Tid] in
theorem HeadAt.mono {s s' : State V Tid} (h : HeadAt s g)
    (hb : s.core.ledger.lanes.Behind s'.core.ledger.lanes) : HeadAt s' g := by
  cases g with
  | head pos => exact Nat.le_trans h hb.head
  | empty => exact h
  | out | tail _ | full => trivial

theorem full_until : (tryFlow V Tid N o).Until System.Occurs t
    (fun s => s.core.ledger.lanes.tailHeld N.n) (TailFree N) where
  idle _ := trivial
  begin _ _ := trivial
  others _ hstep _ h := .inl (h.mono (behind_step hstep))
  move := by
    intro s γ _ a n s' r g hok hs hm h
    obtain ⟨hinv, hb⟩ := occurs_behind hok hs
    generalize hg : γ t = g₀ at hm h
    cases hm with
    | stay => exact .inl (h.mono hb)
    | tail g₀ word =>
      cases hs
      by_cases hle : s.core.ledger.lanes.tail ≤ (s.core.seq N s.core.ledger.lanes.tail).stamp
      · exact .inl hle
      · exact .inr (.inl (hinv.tailHeld (by simp only [Core.seq] at hle; omega)))
    | full pos seq hlt =>
      cases hs
      have hle : pos ≤ (s.core.seq N pos).stamp := h
      omega
    | head g₀ pos => exact .inl trivial
    | won pos => exact .inl trivial
    | empty pos raw hlt => exact .inl trivial

theorem empty_until : (tryFlow V Tid N o).Until System.Occurs t
    (fun s => ¬ s.core.ledger.lanes.headPub) HeadAt where
  idle _ := trivial
  begin _ _ := trivial
  others _ hstep _ h := .inl (h.mono (behind_step hstep))
  move := by
    intro s γ _ a n s' r g hok hs hm h
    obtain ⟨hinv, hb⟩ := occurs_behind hok hs
    generalize hg : γ t = g₀ at hm h
    cases hm with
    | stay => exact .inl (h.mono hb)
    | tail g₀ word => exact .inl trivial
    | full pos seq hlt => exact .inl trivial
    | head g₀ pos =>
      cases hs
      exact .inl (Nat.le_refl _)
    | won pos =>
      simp only [sem] at hs
      split at hs
      · rename_i hp
        cases hs
        exact .inl (by simp [HeadAt, State.setLedger, Ledger.claim, Lanes.claim, hp])
      · cases hs
    | empty pos raw hlt =>
      cases hs
      exact .inr (.inl (hinv.not_headPub h hlt))

/-- **Order and truthful refusals.** In every run, what one consumer takes of one
producer's values it takes in the order of the pushes. A `TryPop` that is about
to return empty has been at an instant, in this run and since it began, at which
the position at the head was not published; a `TryPush` or `TryPushFunc` that is
about to return full, at one at which the slot of the position at the tail was
not released by the position a lap back. -/
theorem order_and_refusals {x : System.Config (ring V Tid N o)}
    {ls : List (System.Label (ring V Tid N o))}
    (hx : (ring V Tid N o).lts.Run (ring V Tid N o).start ls x) :
    (∀ t u n₁ n₂ m₁ m₂ v₁ v₂, Delivered x.state.core (t, n₁) (u, m₁) v₁ →
      Delivered x.state.core (t, n₂) (u, m₂) v₂ → (n₁ < n₂ ↔ m₁ < m₂)) ∧
    (∀ t, x.thread t = .run .tryPop (.ret (.pop .empty)) →
      System.Since t (fun s => ¬ s.core.ledger.lanes.headPub) ls x) ∧
    (∀ t k, (∃ v, k = .tryPush v) ∨ (∃ fill, k = .tryPushFunc fill) →
      x.thread t = .run k (.ret (.push .full)) →
      System.Since t (fun s => s.core.ledger.lanes.tailHeld N.n) ls x) := by
  refine ⟨fun t u n₁ n₂ m₁ m₂ v₁ v₂ h₁ h₂ => ?_, fun t ht => ?_, fun t k hk ht => ?_⟩
  · have hr : (ring V Tid N o).Reachable x := ⟨_, ls, rfl, hx⟩
    obtain ⟨γ, hI, -⟩ := ring_holds hr
    exact hI.base.in_order (ring_sorted hr) h₁ h₂
  · obtain ⟨γ, -, hst, hd⟩ := try_follows.since empty_until (System.run_occurs hx)
    refine hd.resolve_left fun hI => ?_
    have hend := hst t
    rw [ht] at hend
    rw [show γ t = .empty from hend rfl] at hI
    exact hI
  · obtain ⟨γ, -, hst, hd⟩ := try_follows.since full_until (System.run_occurs hx)
    refine hd.resolve_left fun hI => ?_
    have hend := hst t
    rw [ht] at hend
    have hfull : γ t = .full := by
      rcases hk with ⟨v, rfl⟩ | ⟨fill, rfl⟩
      · exact hend rfl
      · exact hend rfl
    rw [hfull] at hI
    exact hI

end

/-! Two values taken in order, an empty ring, and a ring full of tickets. -/

/-- Two pushes and two pops; a third pop finds nothing; four tickets fill the
slots, and a push loads the tail, which a fifth ticket moves before the push
looks at the slot. -/
def refusedRun : List (System.Label casRing) :=
  .invoke (0 : Fin 5) (.pushTicket 8) :: ops 0 7 ++ .invoke (0 : Fin 5) (.pushTicket 9) :: ops 0 7 ++
  .invoke (1 : Fin 5) .tryPop :: ops 1 10 ++ .invoke (1 : Fin 5) .tryPop :: ops 1 8 ++
  .invoke (2 : Fin 5) .tryPop :: ops 2 3 ++
  .invoke (0 : Fin 5) (.pushTicket 10) :: ops 0 7 ++
  .invoke (0 : Fin 5) (.pushTicket 11) :: ops 0 7 ++
  .invoke (0 : Fin 5) (.pushTicket 12) :: ops 0 7 ++
  .invoke (0 : Fin 5) (.pushTicket 13) :: ops 0 7 ++
  .invoke (4 : Fin 5) (.tryPush 15) :: ops 4 2 ++
  .invoke (3 : Fin 5) (.pushTicket 14) :: ops 3 1 ++ ops 4 1

/-- One goroutine is about to return empty, another full. -/
def refused (x : System.Config casRing) : Bool :=
  (match x.thread (2 : Fin 5) with
    | .run .tryPop (.ret (.pop .empty)) => true
    | _ => false) &&
  (match x.thread (4 : Fin 5) with
    | .run (.tryPush 15) (.ret (.push .full)) => true
    | _ => false)

theorem refused_threads {x : System.Config casRing} (h : refused x = true) :
    x.thread (2 : Fin 5) = .run .tryPop (.ret (.pop .empty)) ∧
      x.thread (4 : Fin 5) = .run (.tryPush 15) (.ret (.push .full)) := by
  simp only [refused, Bool.and_eq_true] at h
  obtain ⟨h2, h4⟩ := h
  constructor
  · split at h2
    · assumption
    · cases h2
  · split at h4
    · assumption
    · cases h4

/-- `v` went from call `id'` to call `id` by position `p`. -/
def Passed (x : System.Config casRing) (p : Nat) (id id' : Fin 5 × Nat) (v : Nat) : Prop :=
  x.state.core.ledger.claimedBy p = some id ∧ x.state.core.ledger.popped p = some v ∧
    x.state.core.ledger.reservedBy p = some id'

instance (x : System.Config casRing) (p : Nat) (id id' : Fin 5 × Nat) (v : Nat) :
    Decidable (Passed x p id id' v) :=
  inferInstanceAs (Decidable (_ ∧ _ ∧ _))

theorem Passed.delivered {x : System.Config casRing} (hx : casRing.Reachable x) {p v : Nat}
    {id id' : Fin 5 × Nat} (h : Passed x p id id' v) : Delivered x.state.core id id' v := by
  obtain ⟨hc, hv, hr⟩ := h
  obtain ⟨γ, hI, -⟩ := ring_holds hx
  obtain ⟨hpush, -⟩ := hI.base.stocked.popped_pushed p v hv
  obtain ⟨k, hk, hs⟩ := hI.base.stocked.pushed_by p v id' hpush hr
  exact ⟨p, k, hc, hv, hr, hk, hs⟩

theorem order_and_refusals_run : ∃ (ls : List (System.Label casRing)) (x : System.Config casRing),
    casRing.lts.Run casRing.start ls x ∧ x.state.core.ledger.lanes.tail = 7 ∧
    (∀ n m v, Delivered x.state.core ((1 : Fin 5), n) ((0 : Fin 5), m) v → (1 < n ↔ 1 < m)) ∧
    Delivered x.state.core ((1 : Fin 5), 2) ((0 : Fin 5), 2) 9 ∧
    System.Since (Y := casRing) (2 : Fin 5) (fun s => ¬ s.core.ledger.lanes.headPub) ls x ∧
    System.Since (Y := casRing) (4 : Fin 5) (fun s => s.core.ledger.lanes.tailHeld 4) ls x := by
  obtain ⟨x, hx, hp⟩ := System.reachable_of_test refusedRun
    (fun x => refused x && decide (x.state.core.ledger.lanes.tail = 7 ∧
      Passed x 0 (1, 1) (0, 1) 8 ∧ Passed x 1 (1, 2) (0, 2) 9)) (by decide +kernel)
  rw [Bool.and_eq_true, decide_eq_true_eq] at hp
  obtain ⟨hr, htail, hfirst, hsecond⟩ := hp
  obtain ⟨h2, h4⟩ := refused_threads hr
  obtain ⟨_, ls, rfl, hrun⟩ := id hx
  obtain ⟨horder, hempty, hfull⟩ := order_and_refusals hrun
  refine ⟨ls, x, hrun, htail, fun n m v hd => ?_, hsecond.delivered hx, hempty _ h2,
    hfull _ _ (.inl ⟨15, rfl⟩) h4⟩
  exact horder _ _ _ _ _ _ _ _ (hfirst.delivered hx) hd

end Katas.Turnstile.Go
