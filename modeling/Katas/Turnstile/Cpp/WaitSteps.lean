import Katas.Turnstile.Cpp.QueueSafety
import Katas.Turnstile.Cpp.WaitInv

/-!
# The steps of the consumers' event count

The operations of the queue and of `not_empty_` as steps of `WaitInv`, one
by one: the role a thread has before and after. What an operation may assume
about the queue comes from `queueOutline`.
-/
namespace Katas.Turnstile.Cpp
open Katas.Conc Katas.SeqRing

section
variable {V Tid : Type} [Inhabited V] [DecidableEq Tid] (N : Capacity) (o : Options)

/-- The position at the head is published. -/
def HeadPublished (s : State V Tid) : Prop :=
  (s.core.seq N s.core.ledger.lanes.head).stamp = s.core.ledger.lanes.head + 1

instance (s : State V Tid) : Decidable (HeadPublished N s) :=
  inferInstanceAs (Decidable (_ = _))

/-- A hand-off that finds the position it loaded unpublished is right about
the head: nobody has claimed that position in between and left a published
one at the head. -/
def HandOffSound (_ : Tid) (a : Act V) (s : State V Tid) : Prop :=
  ∀ pos, a = .seqLoad .handOff pos → (s.core.seq N pos).stamp ≠ pos + 1 → ¬ HeadPublished N s

def Sound (t : Tid) (a : Act V) (s : State V Tid) : Prop :=
  HandOffSound N t a s ∧ ∃ ρ, QueueInv N s.core ρ ∧ queueNeed N t a s (ρ t)

def NapInv (s : State V Tid) (γ : Tid → Nap) : Prop :=
  WaitInv (s.count .not_empty) s.core.ledger.closed s.core.ledger.lanes.head
    s.core.ledger.lanes.headPub γ

def Resting (g : Nap) : Prop := g.sleep = .out ∧ g.duty = .none

/-- Who is blocked. -/
def napNeed (_ : Tid) (a : Act V) (_ : State V Tid) (g : Nap) : Prop :=
  match a with
  | .blocked .not_empty => (∃ k, g.sleep = .inside k true) ∧ g.duty = .none
  | .blocked .not_full => Resting g
  | _ => True

/-- A pop finds nothing. -/
def Sleep.settle : Sleep → Sleep
  | up k false => up k true
  | awake => out
  | s => s

theorem Sleep.settle_seat (s : Sleep) :
    s.settle.isCounted = s.isCounted ∧ s.settle.key = s.key := by
  cases s <;> try exact ⟨rfl, rfl⟩
  case up k re => cases re <;> exact ⟨rfl, rfl⟩

omit [DecidableEq Tid] in
theorem Stuck.of_settle {e : EventCount Tid} {t : Tid} {k : Nat} {s : Sleep}
    (h : Stuck e t k s.settle) : Stuck e t k s := by
  cases s <;> try exact h
  case up j re => cases re <;> simpa [Stuck, Sleep.settle] using h
  case awake => simp [Stuck, Sleep.settle] at h

/-- Fit to try a pop. -/
def Trying (g : Nap) : Prop :=
  g.duty = .none ∧ (g.sleep = .out ∨ g.sleep = .awake ∨ ∃ k, g.sleep = .up k false)

omit [DecidableEq Tid] in
theorem Trying.idle {g : Nap} (h : Trying g) (e : EventCount Tid) (t : Tid) (k : Nat) :
    ¬ Covers e t k g ∧ ∀ k b, g.sleep ≠ .inside k b := by
  obtain ⟨hd, hs | hs | ⟨j, hs⟩⟩ := h <;> simp [Covers, hd, hs]

/-- In the wait, not blocked. -/
def Waiting (k : Nat) (g : Nap) : Prop :=
  g.duty = .none ∧ (g.sleep = .up k true ∨ g.sleep = .inside k false)

def napPre : Proc V → Nap → Prop
  | .tryPushLoop _ _, g => Resting g
  | .pushLoop _ _, g => Resting g
  | .awaitPoll _, g => Resting g
  | .tryPopLoop pos, g => Trying g ∧ g.seen = pos
  | .popLoop, g => Resting g
  | .waitLoop .not_empty k, g => Waiting k g
  | .waitLoop .not_full _, g => Resting g

/-- How a try to pop leaves its caller. -/
def Tried (g : Nap) (r : Pop V) (g' : Nap) : Prop :=
  g'.duty = g.duty ∧
    ((∃ v, r = .ok v) ∧ g'.sleep = g.sleep ∨ r = .empty ∧ g'.sleep = g.sleep.settle)

def napPost : (p : Proc V) → Nap → Ret p → Nap → Prop
  | .tryPopLoop _, g, r, g' => Tried g r g'
  | .waitLoop .not_empty _, _, _, g' => g'.sleep = .leaving ∧ g'.duty = .none
  | .waitLoop .not_full _, g, _, g' => g' = g
  | .awaitPoll _, g, _, g' => g' = g
  | _, _, _, g' => Resting g'

abbrev waitOutline : Outline (queue V Tid N o) where
  G := Nap
  Inv := NapInv
  need := napNeed
  ok := Sound N
  rest _ g := Resting g
  pre p _ g := napPre p g
  post p _ g r g' := napPost p g r g'

variable {N o} {t : Tid} {g : Nap}

theorem napAtom_of {a : Act V} {R : Resp a → Nap → Prop}
    (h : ∀ (s : State V Tid) (γ : Tid → Nap), NapInv s γ → γ t = g → napNeed t a s g ∧
      (Sound N t a s → ∀ n s' r, sem N t a n s = some (s', r) →
        ∃ g', NapInv s' (upd γ t g') ∧ R r g')) : (waitOutline N o).Atom t g a R :=
  fun s γ hI hγ => h s γ hI hγ

/-! ## Operations that do not concern the sleepers -/

/-- Leaves every role as it is. -/
def still : Act V → Bool
  | .tailOr | .headCas _ | .seqStore _ | .seqStoreDead _ | .epochAdd .not_empty
  | .waitersAdd .not_empty | .waitersSub .not_empty | .pendingClear .not_empty
  | .pendingExchange .not_empty | .waitOn .not_empty _ | .blocked _ | .wakeOne .not_empty
  | .wakeAll .not_empty => false
  | _ => true

/-- What a still operation may change. -/
structure Unmoved (s s' : State V Tid) : Prop where
  count : s'.count .not_empty = s.count .not_empty
  closed : s'.core.ledger.closed = s.core.ledger.closed
  head : s'.core.ledger.lanes.head = s.core.ledger.lanes.head
  pub : s'.core.ledger.lanes.headPub → s.core.ledger.lanes.headPub

omit [Inhabited V] [DecidableEq Tid] in
theorem Unmoved.refl (s : State V Tid) : Unmoved s s := ⟨rfl, rfl, rfl, id⟩

omit [Inhabited V] [DecidableEq Tid] in
/-- The other event count. -/
theorem unmoved_setFull (s : State V Tid) (e : EventCount Tid) :
    Unmoved s (s.setCount .not_full e) :=
  ⟨by simp [State.setCount], rfl, rfl, id⟩

theorem unmoved_of_still {a : Act V} (ha : still a = true) {n : Nat} {s s' : State V Tid}
    {r : Resp a} (h : sem N t a n s = some (s', r)) : Unmoved s s' := by
  cases a
  case tailCas w =>
    simp only [sem] at h
    split at h <;> cases h
    · exact ⟨rfl, rfl, rfl, Lanes.headPub_reserve rfl⟩
    · exact .refl s
  case tailAdd => cases h; exact ⟨rfl, rfl, rfl, Lanes.headPub_reserve rfl⟩
  case seqRelease pos => cases h; exact ⟨rfl, rfl, rfl, Lanes.headPub_release⟩
  case construct pos v => cases h; exact ⟨rfl, rfl, rfl, id⟩
  case moveOut pos => cases h; exact ⟨rfl, rfl, rfl, id⟩
  case destroy pos => cases h; exact ⟨rfl, rfl, rfl, id⟩
  case epochAdd w | waitersAdd w | waitersSub w | pendingClear w | pendingExchange w |
      waitOn w key | wakeOne w | wakeAll w =>
    cases w
    · cases ha
    · cases h; exact unmoved_setFull s _
  case tailLoad | headLoad | seqLoad | epochLoad | waitersLoad | pendingLoad | expired =>
    cases h; exact .refl s
  all_goals cases ha

omit [DecidableEq Tid] [Inhabited V] in
theorem NapInv.unmoved {s s' : State V Tid} {γ : Tid → Nap} (h : NapInv s γ)
    (hu : Unmoved s s') : NapInv s' γ := by
  have h' := WaitInv.frame h (Nat.le_of_eq hu.head.symm) hu.pub
  unfold NapInv
  rw [hu.count, hu.closed]
  exact h'

theorem napAtom_still {a : Act V} (ha : still a = true) :
    (waitOutline N o).Atom t g a fun _ g' => g' = g := by
  refine napAtom_of fun s γ hI hγ => ⟨?_, fun _ n s' r hs => ⟨g, ?_, rfl⟩⟩
  · cases a <;> trivial
  · rw [← hγ, upd_eq_self]
    exact hI.unmoved (unmoved_of_still ha hs)

/-- A producer's sleep. -/
theorem napAtom_blockedFull (hg : Resting g) :
    (waitOutline N o).Atom t g (.blocked .not_full : Act V) fun _ g' => g' = g := by
  refine napAtom_of fun s γ hI hγ => ⟨hg, fun _ n s' r hs => ⟨g, ?_, rfl⟩⟩
  rw [← hγ, upd_eq_self]
  simp only [sem] at hs
  split at hs
  · split at hs <;> cases hs
    exact hI.unmoved (unmoved_setFull s _)
  · cases hs; exact hI

/-! ## The queue's operations -/

theorem napAtom_headLook : (waitOutline N o).Atom t g (.headLoad : Act V) fun r g' =>
    g' = ⟨g.sleep, g.duty, r⟩ := by
  refine napAtom_of fun s γ hI hγ => ⟨trivial, fun _ n s' r hs => ?_⟩
  subst hγ
  cases hs
  exact ⟨_, WaitInv.see hI (Nat.le_refl _), rfl⟩

theorem napAtom_headCas {pos : Nat} : (waitOutline N o).Atom t g (.headCas pos : Act V) fun r g' =>
    r = .done ∧ g' = ⟨g.sleep, g.duty, pos + 1⟩ ∨
      ∃ p, r = .found p ∧ g' = ⟨g.sleep, g.duty, p⟩ := by
  refine napAtom_of fun s γ hI hγ => ⟨trivial, fun hok n s' r hs => ?_⟩
  subst hγ
  obtain ⟨-, ρ, hR, hneed⟩ := hok
  simp only [sem] at hs
  split at hs <;> cases hs
  · rename_i hp
    obtain ⟨rfl, -⟩ := hp
    obtain ⟨d, hd⟩ := hneed rfl
    have h1 : NapInv (s.setLedger (s.core.ledger.claim t s.core.ledger.lanes.head
        (s.core.seq N s.core.ledger.lanes.head).dead)) γ :=
      WaitInv.frame hI (Nat.le_succ _) fun _ => ⟨d, hd⟩
    exact ⟨_, WaitInv.see h1 (Nat.le_refl _), .inl ⟨rfl, rfl⟩⟩
  · exact ⟨_, WaitInv.see hI (Nat.le_refl _), .inr ⟨_, rfl, rfl⟩⟩

/-- A try to pop looks at a position that was the head: if it is unpublished,
so is the head, and the pop ends empty. -/
theorem napAtom_tryLook {pos : Nat} (hg : Trying g) (hpos : g.seen = pos) :
    (waitOutline N o).Atom t g (.seqLoad .try_pop pos : Act V) fun r g' =>
      r.stamp < pos + 1 ∧ g' = ⟨g.sleep.settle, .none, g.seen⟩ ∨
        ¬ r.stamp < pos + 1 ∧ g' = g := by
  refine napAtom_of fun s γ hI hγ => ⟨trivial, fun hok n s' r hs => ?_⟩
  subst hγ
  obtain ⟨-, ρ, hR, -⟩ := hok
  cases hs
  by_cases hlt : (s.core.seq N pos).stamp < pos + 1
  · refine ⟨_, ?_, .inl ⟨hlt, rfl⟩⟩
    have hle := WaitInv.seen hI t
    have hnp := hR.base.lanes.not_headPub (by rw [hpos] at hle; exact hle) hlt
    obtain ⟨hcount, hkey⟩ := (γ t).sleep.settle_seat
    have hidle := hg.idle (s.count .not_empty) t
    have hb := hI.seats.unblocked (t := t) fun k => (hidle k).2 k true
    exact WaitInv.move hI hle id nofun
      (hI.seats.turn hcount (fun h => absurd h hb) (fun k h => hI.seats.key_le t k (hkey ▸ h))
        nofun fun h => absurd rfl h)
      (hI.covered.keep rfl (fun _ => .inr .rfl) id (fun _ _ => .of_settle)
        (fun _ k hk => absurd hk (hidle k).1) (fun h => absurd h hnp) fun _ h => absurd h hnp)
  · exact ⟨_, by rw [upd_eq_self]; exact hI, .inr ⟨hlt, rfl⟩⟩

/-- The look of the hand-off, which settles what a woken pop owes. -/
theorem napAtom_handLook {pos : Nat} (hsl : g.sleep = .awake) (hd : g.duty = .none) :
    (waitOutline N o).Atom t g (.seqLoad .handOff pos : Act V) fun r g' =>
      r.stamp = pos + 1 ∧ g' = ⟨.out, .looking, g.seen⟩ ∨
        r.stamp ≠ pos + 1 ∧ g' = ⟨.out, .none, g.seen⟩ := by
  refine napAtom_of fun s γ hI hγ => ⟨trivial, fun hok n s' r hs => ?_⟩
  subst hγ
  obtain ⟨hsound, ρ, hR, -⟩ := hok
  cases hs
  have hb := hI.seats.unblocked (t := t) (by simp [hsl])
  have hcov : ∀ k, ¬ Covers (s.count .not_empty) t k (γ t) := by simp [Covers, hsl, hd]
  by_cases he : (s.core.seq N pos).stamp = pos + 1
  · refine ⟨_, ?_, .inl ⟨he, rfl⟩⟩
    exact WaitInv.move hI (hI.seen t) id (fun h => by cases h)
      (hI.seats.turn (by rw [hsl]; rfl) (fun h => absurd h hb) (fun _ h => by cases h)
        (fun _ h => by cases h) fun _ => rfl)
      (hI.covered.look rfl (by simp [Stuck]) hcov _)
  · refine ⟨_, ?_, .inr ⟨he, rfl⟩⟩
    have hnp : ¬ s.core.ledger.lanes.headPub := fun hp =>
      hsound pos rfl he (hR.base.lanes.headPub_iff.mp hp)
    exact WaitInv.move hI (hI.seen t) id (fun h => by cases h)
      (hI.seats.turn (by rw [hsl]; rfl) (fun h => absurd h hb) (fun _ h => by cases h)
        (fun _ h => by cases h) fun h => absurd rfl h)
      (hI.covered.keep rfl (fun _ => .inr .rfl) id (fun _ k hk => by simp [Stuck] at hk)
        (fun _ k hk => absurd hk (hcov k)) (fun h => absurd h hnp) fun _ h => absurd h hnp)

/-- A role without sleep or duty takes on a duty. -/
theorem WaitInv.engage {e : EventCount Tid} {closed : Bool} {head : Nat} {pub : Prop}
    {γ : Tid → Nap} (h : WaitInv e closed head pub γ) (hg : Resting (γ t)) {d : Duty}
    (hm : ∀ m, d ≠ .bumped m) {closed' : Bool} {pub' : Prop} (hc : closed = true → closed' = true)
    (hcl : d = .closer → closed' = true)
    (hcov : Covered e closed' pub' (upd γ t ⟨.out, d, (γ t).seen⟩)) :
    WaitInv e closed' head pub' (upd γ t ⟨.out, d, (γ t).seen⟩) :=
  h.move (h.seen t) hc hcl
    (h.seats.turn (by rw [hg.1]) (fun hb => absurd hb (h.seats.unblocked (by simp [hg.1]))) nofun
      (fun m he => absurd he (hm m)) fun _ => rfl) hcov

omit [DecidableEq Tid] in
theorem Resting.carries (hg : Resting g) (e : EventCount Tid) (k : Nat) : ¬ Carries e t k g := by
  simp [Carries, Covers, hg.1, hg.2]

theorem napAtom_publish {pos : Nat} (hg : Resting g) :
    (waitOutline N o).Atom t g (.seqStore pos : Act V) fun _ g' =>
      g' = ⟨.out, .looking, g.seen⟩ := by
  refine napAtom_of fun s γ hI hγ => ⟨trivial, fun _ n s' r hs => ⟨_, ?_, rfl⟩⟩
  subst hγ
  cases hs
  exact WaitInv.engage hI hg (d := .looking) nofun id nofun
    (hI.covered.look rfl (by simp [Stuck]) (fun k hk => hg.carries _ k (.inl hk)) _)

/-- A tombstone, which only a late ticket publishes: nobody is told, since the
close wakes everybody. -/
theorem napAtom_bury {pos : Nat} (hg : Resting g) :
    (waitOutline N o).Atom t g (.seqStoreDead pos : Act V) fun _ g' => g' = g := by
  refine napAtom_of fun s γ hI hγ => ⟨trivial, fun hok n s' r hs => ⟨g, ?_, rfl⟩⟩
  subst hγ
  obtain ⟨-, ρ, hR, ⟨hw, -⟩, -⟩ := hok
  have hcl : s.core.ledger.closed = true := by
    obtain ⟨e, he, -⟩ := hw.late
    rw [hR.base.shut.closed, he]; rfl
  cases hs
  rw [upd_eq_self]
  refine ⟨hI.seen, hI.closing, hI.seats, ?_⟩
  show Covered _ s.core.ledger.closed _ _
  rw [hcl]
  exact .shut _ _

theorem napAtom_close (hg : Resting g) : (waitOutline N o).Atom t g (.tailOr : Act V) fun _ g' =>
    g' = ⟨.out, .closer, g.seen⟩ := by
  refine napAtom_of fun s γ hI hγ => ⟨trivial, fun _ n s' r hs => ⟨_, ?_, rfl⟩⟩
  subst hγ
  cases hs
  exact WaitInv.engage hI hg (d := .closer) nofun (fun _ => rfl) (fun _ => rfl) (.shut _ _)

/-! ## The event count's operations -/

omit [Inhabited V] in
/-- An operation that touches `not_empty_` and nothing else. -/
theorem NapInv.move {s : State V Tid} {γ : Tid → Nap} (h : NapInv s γ) {e : EventCount Tid}
    (hs : g.seen = (γ t).seen) (hcl : g.duty = .closer → (γ t).duty = .closer)
    (hseats : Seats e (upd γ t g))
    (hcov : Covered e s.core.ledger.closed s.core.ledger.lanes.headPub (upd γ t g)) :
    NapInv (s.setCount .not_empty e) (upd γ t g) := by
  have h' := WaitInv.move h (hs ▸ h.seen t) id (fun he => h.closing t (hcl he)) hseats hcov
  simpa [NapInv, State.setCount] using h'

omit [Inhabited V] in
/-- One that leaves it as it is. -/
theorem NapInv.turn {s : State V Tid} {γ : Tid → Nap} (h : NapInv s γ)
    (hs : g.seen = (γ t).seen) (hcl : g.duty = .closer → (γ t).duty = .closer)
    (hseats : Seats (s.count .not_empty) (upd γ t g))
    (hcov : Covered (s.count .not_empty) s.core.ledger.closed s.core.ledger.lanes.headPub
      (upd γ t g)) : NapInv s (upd γ t g) :=
  WaitInv.move h (hs ▸ h.seen t) id (fun he => h.closing t (hcl he)) hseats hcov

/-! ### Falling asleep -/

theorem napAtom_key (hg : Resting g) :
    (waitOutline N o).Atom t g (.epochLoad .not_empty : Act V) fun r g' =>
      g' = ⟨.keyed r, .none, g.seen⟩ := by
  refine napAtom_of fun s γ hI hγ => ⟨trivial, fun _ n s' r hs => ⟨_, ?_, rfl⟩⟩
  subst hγ
  cases hs
  have hb := hI.seats.unblocked (t := t) (by simp [hg.1])
  refine NapInv.turn hI rfl nofun
    (hI.seats.turn (by rw [hg.1]; rfl) (fun h => absurd h hb) ?_ nofun fun h => absurd rfl h)
    (hI.covered.turn rfl rfl id (by simp [Stuck]) (hg.carries _))
  rintro k ⟨⟩
  exact Nat.le_refl _

theorem napAtom_enter {k : Nat} (hsl : g.sleep = .keyed k) (hd : g.duty = .none) :
    (waitOutline N o).Atom t g (.waitersAdd .not_empty : Act V) fun _ g' =>
      g' = ⟨.counted k, .none, g.seen⟩ := by
  refine napAtom_of fun s γ hI hγ => ⟨trivial, fun _ n s' r hs => ⟨_, ?_, rfl⟩⟩
  subst hγ
  cases hs
  exact hI.move rfl nofun (hI.seats.enter hsl rfl rfl)
    (hI.covered.turn rfl rfl id (by simp [Stuck]) (by simp [Carries, Covers, hsl, hd]))

/-- An entrant clears the flag: it has not looked at the head yet. -/
theorem napAtom_arm {k : Nat} (hsl : g.sleep = .counted k) (hd : g.duty = .none) :
    (waitOutline N o).Atom t g (.pendingClear .not_empty : Act V) fun _ g' =>
      g' = ⟨.up k false, .none, g.seen⟩ := by
  refine napAtom_of fun s γ hI hγ => ⟨trivial, fun _ n s' r hs => ⟨_, ?_, rfl⟩⟩
  subst hγ
  cases hs
  have hb := hI.seats.unblocked (t := t) (by simp [hsl])
  refine hI.move rfl nofun
    (hI.seats.keep rfl (Nat.le_refl _) (fun _ h => h) (by rw [hsl]; rfl) (fun h => absurd h hb) ?_
      nofun fun h => absurd rfl h)
    (hI.covered.keep rfl (fun _ => .inr .rfl) nofun nofun nofun ?_ ?_)
  · rintro j ⟨⟩
    exact hI.seats.key_le t k (by rw [hsl]; rfl)
  · rintro - j hj hne
    simp only [Stuck, Sleep.up.injEq, reduceCtorEq, exists_false, false_and, or_false] at hj
    obtain ⟨⟨re, rfl, -⟩, -⟩ := hj
    exact absurd rfl hne
  · rintro - - j hj
    simp [Carries, Covers, hsl, hd] at hj

/-- Out of the count: as it cancels, or after its wait. -/
theorem napAtom_cancel {k : Nat} {re : Bool} (hsl : g.sleep = .up k re) (hd : g.duty = .none) :
    (waitOutline N o).Atom t g (.waitersSub .not_empty : Act V) fun _ g' =>
      g' = ⟨.out, .none, g.seen⟩ := by
  refine napAtom_of fun s γ hI hγ => ⟨trivial, fun _ n s' r hs => ⟨_, ?_, rfl⟩⟩
  subst hγ
  cases hs
  exact hI.move rfl nofun
    (hI.seats.leave (by rw [hsl]; rfl) (hI.seats.unblocked (by simp [hsl])) (.inl rfl) rfl)
    (hI.covered.turn rfl rfl id (by simp [Stuck]) (by simp [Carries, Covers, hsl, hd]))

theorem napAtom_leave (hsl : g.sleep = .leaving) (hd : g.duty = .none) :
    (waitOutline N o).Atom t g (.waitersSub .not_empty : Act V) fun _ g' =>
      g' = ⟨.left, .none, g.seen⟩ := by
  refine napAtom_of fun s γ hI hγ => ⟨trivial, fun _ n s' r hs => ⟨_, ?_, rfl⟩⟩
  subst hγ
  cases hs
  exact hI.move rfl nofun
    (hI.seats.leave (by rw [hsl]; rfl) (hI.seats.unblocked (by simp [hsl])) (.inr rfl) rfl)
    (hI.covered.keep rfl (fun _ => .inr .rfl) id (fun _ k hk => by simp [Stuck] at hk)
      (fun _ _ _ => by simp [Covers]) (fun _ k hk => by simp [Stuck] at hk)
      fun _ _ _ _ => by simp [Carries, Covers])

/-- A thread clears the flag as it leaves: from here on it only looks. -/
theorem napAtom_rise (hsl : g.sleep = .left) (hd : g.duty = .none) :
    (waitOutline N o).Atom t g (.pendingClear .not_empty : Act V) fun _ g' =>
      g' = ⟨.awake, .none, g.seen⟩ := by
  refine napAtom_of fun s γ hI hγ => ⟨trivial, fun _ n s' r hs => ⟨_, ?_, rfl⟩⟩
  subst hγ
  cases hs
  have hb := hI.seats.unblocked (t := t) (by simp [hsl])
  exact hI.move rfl nofun
    (hI.seats.keep rfl (Nat.le_refl _) (fun _ h => h) (by rw [hsl]; rfl) (fun h => absurd h hb)
      nofun nofun fun h => absurd rfl h)
    (hI.covered.keep rfl (fun _ => .inr .rfl) nofun nofun nofun
      (fun _ k hk => by simp [Stuck] at hk) fun _ _ _ _ => by simp [Carries])

/-! ### The wait -/

omit [DecidableEq Tid] in
theorem Waiting.stuck {k : Nat} (hg : Waiting k g) (e : EventCount Tid) (hb : t ∉ e.blocked) :
    (∀ j, Stuck e t j (.inside k false) → Stuck e t j g.sleep ∧ g.sleep ≠ .up j false) ∧
      ∀ j, Covers e t j g → Covers e t j ⟨.inside k false, .none, g.seen⟩ := by
  obtain ⟨hd, hs | hs⟩ := hg <;> simp [Stuck, Covers, hs, hd, hb]

theorem Waiting.seated {k : Nat} (hg : Waiting k g) :
    g.sleep.isCounted = true ∧ g.sleep.key = some k ∧ ∀ j, g.sleep ≠ .inside j true := by
  obtain ⟨-, hs | hs⟩ := hg <;> simp [hs, Sleep.isCounted, Sleep.key]

omit [Inhabited V] in
/-- Out of the wait, for whatever reason, a thread will clear the flag. -/
theorem NapInv.quit {s : State V Tid} {γ : Tid → Nap} (h : NapInv s γ) {k : Nat}
    (hg : Waiting k (γ t)) : NapInv s (upd γ t ⟨.leaving, .none, (γ t).seen⟩) := by
  obtain ⟨hc, -, hin⟩ := hg.seated
  have hb := h.seats.unblocked hin
  exact h.turn rfl nofun
    (h.seats.turn (by rw [hc]; rfl) (fun h => absurd h hb) nofun nofun fun h => absurd rfl h)
    (h.covered.keep rfl (fun _ => .inr .rfl) id (fun _ k hk => by simp [Stuck] at hk)
      (fun _ _ _ => by simp [Covers]) (fun _ k hk => by simp [Stuck] at hk)
      fun _ _ _ _ => by simp [Carries, Covers])

theorem napAtom_waitLook {k : Nat} (hg : Waiting k g) :
    (waitOutline N o).Atom t g (.epochLoad .not_empty : Act V) fun r g' =>
      r = k ∧ g' = ⟨.inside k false, .none, g.seen⟩ ∨
        r ≠ k ∧ g' = ⟨.leaving, .none, g.seen⟩ := by
  refine napAtom_of fun s γ hI hγ => ⟨trivial, fun _ n s' r hs => ?_⟩
  subst hγ
  cases hs
  by_cases hk : (s.count .not_empty).epoch = k
  · obtain ⟨hc, hkey, hin⟩ := hg.seated
    have hb := hI.seats.unblocked hin
    obtain ⟨hst, hcov⟩ := hg.stuck (t := t) _ hb
    refine ⟨_, NapInv.turn (g := ⟨.inside k false, .none, (γ t).seen⟩) hI rfl nofun
      (hI.seats.turn (by rw [hc]; rfl) (fun h => absurd h hb) ?_ nofun fun h => absurd rfl h)
      (hI.covered.keep rfl (fun _ => .inr .rfl) id (fun _ j hj => (hst j hj).1)
        (fun _ => hcov) (fun _ j hj _ => hst j hj) fun _ _ j hj => hj.imp (hcov j) ?_),
      .inl ⟨hk, rfl⟩⟩
    · rintro j ⟨⟩
      exact hI.seats.key_le t k hkey
    · obtain ⟨hd, hs | hs⟩ := hg <;> simp [hs, hd]
  · exact ⟨_, hI.quit hg, .inr ⟨hk, rfl⟩⟩

theorem napAtom_late {k : Nat} (hg : Waiting k g) :
    (waitOutline N o).Atom t g (.expired : Act V) fun r g' =>
      r = true ∧ g' = ⟨.leaving, .none, g.seen⟩ ∨ r = false ∧ g' = g := by
  refine napAtom_of fun s γ hI hγ => ⟨trivial, fun _ n s' r hs => ?_⟩
  subst hγ
  cases hs
  cases hn : n == 1
  · exact ⟨_, by rw [upd_eq_self]; exact hI, .inr ⟨rfl, rfl⟩⟩
  · exact ⟨_, hI.quit hg, .inl ⟨rfl, rfl⟩⟩

theorem napAtom_waitOn {k : Nat} (hsl : g.sleep = .inside k false) (hd : g.duty = .none) :
    (waitOutline N o).Atom t g (.waitOn .not_empty k : Act V) fun _ g' =>
      g' = ⟨.inside k true, .none, g.seen⟩ := by
  refine napAtom_of fun s γ hI hγ => ⟨trivial, fun _ n s' r hs => ⟨_, ?_, rfl⟩⟩
  subst hγ
  cases hs
  exact hI.move rfl nofun (hI.seats.block hsl rfl rfl)
    (hI.covered.block hsl (hI.seats.unblocked (by simp [hsl])) (by rw [hd]))

theorem napAtom_blocked {k : Nat} (hsl : g.sleep = .inside k true) (hd : g.duty = .none) :
    (waitOutline N o).Atom t g (.blocked .not_empty : Act V) fun _ g' =>
      g' = ⟨.inside k false, .none, g.seen⟩ := by
  refine napAtom_of fun s γ hI hγ => ⟨⟨⟨k, hsl⟩, hd⟩, fun _ n s' r hs => ⟨_, ?_, rfl⟩⟩
  subst hγ
  have h1 : NapInv (s.setCount .not_empty ((s.count .not_empty).unblock t))
      (upd γ t ⟨.inside k false, .none, (γ t).seen⟩) := by
    refine hI.move rfl nofun (hI.seats.keep rfl (Nat.le_refl _) (fun _ h => (mem_unblock.mp h).1)
      (by rw [hsl]; rfl) (fun h => absurd rfl (mem_unblock.mp h).2) ?_ nofun
      fun h => absurd rfl h) (hI.covered.unblock hsl rfl (by rw [hd]))
    rintro j ⟨⟩
    exact hI.seats.key_le t k (by rw [hsl]; rfl)
  simp only [sem] at hs
  split at hs
  · split at hs <;> cases hs
    exact h1
  · rename_i hb
    cases hs
    rwa [show (s.count .not_empty).unblock t = s.count .not_empty by
        unfold EventCount.unblock
        rw [List.filter_eq_self.mpr fun u hu => by
          simpa using fun he : u = t => hb (he ▸ hu)],
      show s.setCount .not_empty (s.count .not_empty) = s by
        simp [State.setCount, upd_eq_self]] at h1

/-! ### Waking -/

omit [Inhabited V] in
theorem NapInv.rest {s : State V Tid} {γ : Tid → Nap} (h : NapInv s γ) (hsl : (γ t).sleep = .out)
    (hcov : Covered (s.count .not_empty) s.core.ledger.closed s.core.ledger.lanes.headPub
      (upd γ t ⟨.out, .none, (γ t).seen⟩)) : NapInv s (upd γ t ⟨.out, .none, (γ t).seen⟩) :=
  h.turn rfl nofun
    (h.seats.turn (by rw [hsl]) (fun hb => absurd hb (h.seats.unblocked (by simp [hsl]))) nofun
      nofun fun h => absurd rfl h) hcov

theorem napAtom_waitersLoad (hsl : g.sleep = .out) (hd : g.duty = .looking) :
    (waitOutline N o).Atom t g (.waitersLoad .not_empty : Act V) fun r g' =>
      r = 0 ∧ g' = ⟨.out, .none, g.seen⟩ ∨ r ≠ 0 ∧ g' = g := by
  refine napAtom_of fun s γ hI hγ => ⟨trivial, fun _ n s' r hs => ?_⟩
  subst hγ
  cases hs
  by_cases hw : (s.count .not_empty).waiters = 0
  · have hseats := hI.seats.turn (t := t) (g := ⟨.out, .none, (γ t).seen⟩) (by rw [hsl])
      (fun hb => absurd hb (hI.seats.unblocked (by simp [hsl]))) nofun nofun fun h => absurd rfl h
    exact ⟨_, NapInv.rest hI hsl (.nobody hseats hw), .inl ⟨hw, rfl⟩⟩
  · exact ⟨_, by rw [upd_eq_self]; exact hI, .inr ⟨hw, rfl⟩⟩

theorem napAtom_pendingLoad (hsl : g.sleep = .out) (hd : g.duty = .looking) :
    (waitOutline N o).Atom t g (.pendingLoad .not_empty : Act V) fun r g' =>
      r = true ∧ g' = ⟨.out, .none, g.seen⟩ ∨ r = false ∧ g' = g := by
  refine napAtom_of fun s γ hI hγ => ⟨trivial, fun _ n s' r hs => ?_⟩
  subst hγ
  cases hs
  cases hp : (s.count .not_empty).pending
  · exact ⟨_, by rw [upd_eq_self]; exact hI, .inr ⟨rfl, rfl⟩⟩
  · exact ⟨_, NapInv.rest hI hsl (hI.covered.giveUp hp hsl hd rfl), .inl ⟨rfl, rfl⟩⟩

theorem napAtom_pendingExchange (hsl : g.sleep = .out) (hd : g.duty = .looking) :
    (waitOutline N o).Atom t g (.pendingExchange .not_empty : Act V) fun r g' =>
      r = true ∧ g' = ⟨.out, .none, g.seen⟩ ∨ r = false ∧ g' = ⟨.out, .won, g.seen⟩ := by
  refine napAtom_of fun s γ hI hγ => ⟨trivial, fun _ n s' r hs => ?_⟩
  subst hγ
  cases hs
  have hb := hI.seats.unblocked (t := t) (by simp [hsl])
  cases hp : (s.count .not_empty).pending
  · refine ⟨⟨.out, .won, (γ t).seen⟩, hI.move rfl nofun ?_ (.win rfl), .inr ⟨rfl, rfl⟩⟩
    exact hI.seats.keep rfl (Nat.le_refl _) (fun _ h => h) (by rw [hsl]) (fun h => absurd h hb)
      nofun nofun fun _ => rfl
  · refine ⟨⟨.out, .none, (γ t).seen⟩, hI.move rfl nofun ?_ ?_, .inl ⟨rfl, rfl⟩⟩
    · exact hI.seats.keep rfl (Nat.le_refl _) (fun _ h => h) (by rw [hsl]) (fun h => absurd h hb)
        nofun nofun fun h => absurd rfl h
    · rw [show { s.count .not_empty with pending := true } = s.count .not_empty by rw [← hp]]
      exact hI.covered.giveUp hp hsl hd rfl

theorem napAtom_bump (hsl : g.sleep = .out) (hd : g.duty ≠ .closer) :
    (waitOutline N o).Atom t g (.epochAdd .not_empty : Act V) fun _ g' =>
      ∃ m, g' = ⟨.out, .bumped m, g.seen⟩ := by
  refine napAtom_of fun s γ hI hγ => ⟨trivial, fun _ n s' r hs =>
    ⟨⟨.out, .bumped ((s.count .not_empty).epoch + 1), g.seen⟩, ?_, _, rfl⟩⟩
  subst hγ
  cases hs
  refine hI.move rfl nofun ?_ (.bump hI.seats rfl rfl)
  refine hI.seats.keep rfl (Nat.le_succ _) (fun _ h => h) (by rw [hsl])
    (fun h => absurd h (hI.seats.unblocked (by simp [hsl]))) nofun ?_ fun _ => rfl
  rintro m ⟨⟩
  exact Nat.le_refl _

theorem napAtom_wakeOne {m : Nat} (hd : g.duty = .bumped m) :
    (waitOutline N o).Atom t g (.wakeOne .not_empty : Act V) fun _ g' =>
      g' = ⟨.out, .none, g.seen⟩ := by
  refine napAtom_of fun s γ hI hγ => ⟨trivial, fun _ n s' r hs => ⟨_, ?_, rfl⟩⟩
  subst hγ
  cases hs
  have hsl : (γ t).sleep = .out := hI.seats.busy t (by simp [hd])
  obtain ⟨h1, h2, h3⟩ := wake_one_frame (s.count .not_empty) n
  refine NapInv.move hI rfl nofun ?_ (hI.covered.wake hI.seats hd rfl)
  exact hI.seats.keep h1 (Nat.le_of_eq h2.symm) h3 (by rw [hsl])
    (fun h => absurd (h3 t h) (hI.seats.unblocked (by simp [hsl]))) nofun nofun
    fun h => absurd rfl h

/-! ### The close -/

theorem napAtom_bumpAll (hd : g.duty = .closer) :
    (waitOutline N o).Atom t g (.epochAdd .not_empty : Act V) fun _ g' => g' = g := by
  refine napAtom_of fun s γ hI hγ => ⟨trivial, fun _ n s' r hs => ⟨g, ?_, rfl⟩⟩
  subst hγ
  cases hs
  have hsl : (γ t).sleep = .out := hI.seats.busy t (by simp [hd])
  refine NapInv.move hI rfl id ?_ (by rw [hI.closing t hd]; exact .shut _ _)
  exact hI.seats.keep rfl (Nat.le_succ _) (fun _ h => h) rfl
    (fun h => absurd h (hI.seats.unblocked (by simp [hsl]))) (by simp [hsl, Sleep.key])
    (by simp [hd]) fun _ => hsl

theorem napAtom_wakeAll (hd : g.duty = .closer) :
    (waitOutline N o).Atom t g (.wakeAll .not_empty : Act V) fun _ g' =>
      g' = ⟨.out, .none, g.seen⟩ := by
  refine napAtom_of fun s γ hI hγ => ⟨trivial, fun _ n s' r hs => ⟨_, ?_, rfl⟩⟩
  subst hγ
  cases hs
  have hsl : (γ t).sleep = .out := hI.seats.busy t (by simp [hd])
  refine NapInv.move hI rfl nofun ?_ (by rw [hI.closing t hd]; exact .shut _ _)
  exact hI.seats.keep rfl (Nat.le_refl _) (fun u h => by cases h) (by rw [hsl])
    (fun h => by cases h) nofun nofun fun h => absurd rfl h

end
end Katas.Turnstile.Cpp
