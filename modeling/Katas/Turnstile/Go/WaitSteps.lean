import Katas.Turnstile.Go.RingSafety
import Katas.Turnstile.Go.WaitInv

/-!
# The steps of the consumers' waiter

The operations of the ring and of its waiters as steps of `WaitInv`, one by
one: the role a goroutine has before and after. What an operation may assume
about the ring comes from `ringOutline`.
-/
namespace Katas.Turnstile.Go
open Katas.Conc Katas.SeqRing

section
variable {V Tid : Type} [Inhabited V] [DecidableEq Tid] (N : Capacity) (o : Options)

/-- The position at the head is published. -/
def HeadPublished (s : State V Tid) : Prop :=
  (s.core.seq N s.core.ledger.lanes.head).stamp = s.core.ledger.lanes.head + 1

instance (s : State V Tid) : Decidable (HeadPublished N s) :=
  inferInstanceAs (Decidable (_ = _))

/-- A hand-off that finds the position it loaded unpublished is right about
the head: nobody has claimed that position in between and left a published
one at the head. -/
def HandOffSound (_ : Tid) (a : Act V) (s : State V Tid) : Prop :=
  ∀ pos, a = .seqLoad .handOff pos → (s.core.seq N pos).stamp ≠ pos + 1 → ¬ HeadPublished N s

def Sound (t : Tid) (a : Act V) (s : State V Tid) : Prop :=
  HandOffSound N t a s ∧ ∃ ρ, RingInv N s.core ρ ∧ ringNeed N t a s (ρ t)

def NapInv (s : State V Tid) (γ : Tid → Nap) : Prop :=
  WaitInv o.sharedToken (s.waiter .notEmpty) s.stats s.core.ledger.closed
    s.core.ledger.lanes.head s.core.ledger.lanes.headPub γ

def Resting (g : Nap) : Prop := g.sleep = .out ∧ g.duty = .none

/-- Who is in a `select`. -/
def napNeed (_ : Tid) (a : Act V) (_ : State V Tid) (g : Nap) : Prop :=
  match a with
  | .select .notEmpty i => g.sleep = .up i .passed ∧ g.duty = .none
  | .select .notFull _ => Resting g
  | _ => True

/-- A pop finds nothing. -/
def Sleep.settle : Sleep → Sleep
  | up i .fresh => up i .rechecked
  | awake => out
  | s => s

/-- Fit to try a pop. -/
def Trying (g : Nap) : Prop :=
  g.duty = .none ∧ (g.sleep = .out ∨ g.sleep = .awake ∨ ∃ i, g.sleep = .up i .fresh)

def napPre : Proc V → Nap → Prop
  | .pushLoop _ _, g => Resting g
  | .tryPopLoop pos, g => Trying g ∧ g.seen = pos
  | .popLoop, g => Resting g
  | .notifyLoop .notEmpty, g => o.sharedToken = false ∧ g.sleep = .out ∧ g.duty = .looking
  | .closeLoop .notEmpty m, g => o.sharedToken = false ∧ g.sleep = .out ∧ g.duty = sendingOf m
  | _, _ => True

/-- How a try to pop leaves its caller. -/
def Tried (g : Nap) (r : Pop V) (g' : Nap) : Prop :=
  g'.duty = g.duty ∧ g'.slot = g.slot ∧
    ((∃ v, r = .ok v) ∧ g'.sleep = g.sleep ∨ r = .empty ∧ g'.sleep = g.sleep.settle)

def napPost : (p : Proc V) → Nap → Ret p → Nap → Prop
  | .pushLoop _ _, _, _, g' => Resting g'
  | .tryPopLoop _, g, r, g' => Tried g r g'
  | .popLoop, _, _, g' => Resting g'
  | .notifyLoop .notEmpty, g, _, g' => g' = ⟨.out, .none, g.seen, g.slot⟩
  | .closeLoop .notEmpty _, g, _, g' => g' = ⟨.out, .none, g.seen, g.slot⟩
  | _, g, _, g' => g' = g

abbrev waitOutline : Outline (ring V Tid N o) where
  G := Nap
  Inv s γ := NapInv o s γ
  need := napNeed
  ok := Sound N
  rest _ g := Resting g
  pre p _ g := napPre o p g
  post p _ g r g' := napPost p g r g'

variable {N o} {t : Tid} {g : Nap}

theorem napAtom_of {a : Act V} {R : Resp a → Nap → Prop}
    (h : ∀ (s : State V Tid) (γ : Tid → Nap), NapInv o s γ → γ t = g → napNeed t a s g ∧
      (Sound N t a s → ∀ n s' r, sem N o t a n s = some (s', r) →
        ∃ g', NapInv o s' (upd γ t g') ∧ R r g')) : (waitOutline N o).Atom t g a R :=
  fun s γ hI hγ => h s γ hI hγ

/-! ## Operations that do not concern the sleepers -/

/-- Leaves every role as it is. -/
def still : Act V → Bool
  | .tailOr | .headCas _ | .publish _ | .tombstone _ | .tokenMake _ _ | .indexAdd .notEmpty
  | .countAdd .notEmpty _ | .asleepOr .notEmpty _ | .asleepAnd .notEmpty _ | .asleepSwap .notEmpty
  | .tokenSend .notEmpty _ | .tokenDrain .notEmpty _ | .sharedSend .notEmpty
  | .closingCas .notEmpty | .closeChan .notEmpty | .select _ _ | .selectLast .notEmpty _ => false
  | _ => true

/-- What a still operation may change. -/
structure Unmoved (s s' : State V Tid) : Prop where
  waiter : s'.waiter .notEmpty = s.waiter .notEmpty
  stats : s'.stats = s.stats
  closed : s'.core.ledger.closed = s.core.ledger.closed
  head : s'.core.ledger.lanes.head = s.core.ledger.lanes.head
  pub : s'.core.ledger.lanes.headPub → s.core.ledger.lanes.headPub

section
omit [Inhabited V] [DecidableEq Tid]

theorem Unmoved.refl (s : State V Tid) : Unmoved s s := ⟨rfl, rfl, rfl, rfl, id⟩

/-- The other waiter. -/
theorem unmoved_setFull (s : State V Tid) (x : Waiter) : Unmoved s (s.setWaiter .notFull x) :=
  ⟨by simp [State.setWaiter], rfl, rfl, rfl, id⟩

theorem unmoved_takeFull (s : State V Tid) (i : Nat) : Unmoved s (s.takeToken o .notFull i) := by
  unfold State.takeToken
  split <;> exact unmoved_setFull s _

end

omit [Inhabited V] in
theorem unmoved_of_still {a : Act V} (ha : still a = true) {n : Nat} {s s' : State V Tid}
    {r : Resp a} (h : sem N o t a n s = some (s', r)) : Unmoved s s' := by
  cases a
  case tailCas w =>
    simp only [sem] at h
    split at h <;> cases h
    · exact ⟨rfl, rfl, rfl, rfl, Lanes.headPub_reserve rfl⟩
    · exact .refl s
  case tailAdd =>
    cases h
    show Unmoved s (s.setLedger (if s.core.ledger.closed then _ else _))
    split <;> exact ⟨rfl, rfl, rfl, rfl, Lanes.headPub_reserve rfl⟩
  case release pos => cases h; exact ⟨rfl, rfl, rfl, rfl, Lanes.headPub_release⟩
  case selectLast w i =>
    cases w
    case notEmpty => cases ha
    case notFull =>
      cases n <;> simp only [sem] at h <;> repeat' split at h
      all_goals cases h
      all_goals first | exact .refl s | exact unmoved_takeFull s i
  case closingCas w =>
    cases w
    case notEmpty => cases ha
    case notFull =>
      simp only [sem] at h
      split at h <;> cases h
      · exact .refl s
      · exact unmoved_setFull s _
  case valStore pos v => cases h; exact ⟨rfl, rfl, rfl, rfl, id⟩
  case valLoad pos => cases h; exact ⟨rfl, rfl, rfl, rfl, id⟩
  case closedAtStore e => cases h; exact ⟨rfl, rfl, rfl, rfl, id⟩
  case crash => cases h
  case indexAdd w | countAdd w d | asleepOr w i | asleepAnd w i | asleepSwap w | tokenSend w i |
      tokenDrain w i | sharedSend w | closeChan w =>
    cases w
    · cases ha
    · cases h; exact unmoved_setFull s _
  case tailLoad | headLoad | closedAtLoad | seqLoad | stats | countLoad | asleepLoad | expired =>
    cases h; exact .refl s
  all_goals cases ha

omit [DecidableEq Tid] [Inhabited V] in
theorem NapInv.unmoved {s s' : State V Tid} {γ : Tid → Nap} (h : NapInv o s γ)
    (hu : Unmoved s s') : NapInv o s' γ := by
  have h' := WaitInv.frame h (Nat.le_of_eq hu.head.symm) hu.pub
  unfold NapInv
  rw [hu.waiter, hu.stats, hu.closed]
  exact h'

theorem napAtom_still {a : Act V} (ha : still a = true) :
    (waitOutline N o).Atom t g a fun _ g' => g' = g := by
  refine napAtom_of fun s γ hI hγ => ⟨?_, fun _ n s' r hs => ⟨g, ?_, rfl⟩⟩
  · cases a <;> trivial
  · rw [← hγ, upd_eq_self]
    exact hI.unmoved (unmoved_of_still ha hs)

/-! ## The ring's operations -/

theorem napAtom_headLook : (waitOutline N o).Atom t g (.headLoad : Act V) fun r g' =>
    g' = ⟨g.sleep, g.duty, r, g.slot⟩ := by
  refine napAtom_of fun s γ hI hγ => ⟨trivial, fun _ n s' r hs => ?_⟩
  subst hγ
  cases hs
  exact ⟨_, WaitInv.see hI (Nat.le_refl _), rfl⟩

theorem napAtom_headCas {pos : Nat} : (waitOutline N o).Atom t g (.headCas pos : Act V) fun r g' =>
    r = true ∧ g' = ⟨g.sleep, g.duty, pos + 1, g.slot⟩ ∨ r = false ∧ g' = g := by
  refine napAtom_of fun s γ hI hγ => ⟨trivial, fun hok n s' r hs => ?_⟩
  subst hγ
  obtain ⟨-, ρ, hR, hneed⟩ := hok
  simp only [sem] at hs
  split at hs <;> cases hs
  · rename_i hp
    subst hp
    obtain ⟨d, hd⟩ := hneed rfl
    have h1 : NapInv o (s.setLedger (s.core.ledger.claim t s.core.ledger.lanes.head
        (s.core.seq N s.core.ledger.lanes.head).dead)) γ :=
      WaitInv.frame hI (Nat.le_succ _) fun _ => ⟨d, hd⟩
    exact ⟨_, WaitInv.see h1 (Nat.le_refl _), .inl ⟨rfl, rfl⟩⟩
  · exact ⟨_, by rw [upd_eq_self]; exact hI, .inr ⟨rfl, rfl⟩⟩

/-- A try to pop looks at a position that was the head: if it is unpublished,
so is the head, and the pop ends empty. -/
theorem napAtom_tryLook {pos : Nat} (hg : Trying g) (hpos : g.seen = pos) :
    (waitOutline N o).Atom t g (.seqLoad .tryPop pos : Act V) fun r g' =>
      r.stamp < pos + 1 ∧ g' = ⟨g.sleep.settle, .none, g.seen, g.slot⟩ ∨
        ¬ r.stamp < pos + 1 ∧ g' = g := by
  refine napAtom_of fun s γ hI hγ => ⟨trivial, fun hok n s' r hs => ?_⟩
  subst hγ
  obtain ⟨-, ρ, hR, -⟩ := hok
  cases hs
  by_cases hlt : (s.core.seq N pos).stamp < pos + 1
  · refine ⟨_, ?_, .inl ⟨hlt, rfl⟩⟩
    have hle := WaitInv.seen hI t
    have hnp := hR.base.lanes.not_headPub (by rw [hpos] at hle; exact hle) hlt
    obtain ⟨hd, hsl⟩ := hg
    refine WaitInv.turn hI hle rfl ?_ ?_ (hI.duties.keep hd.symm ?_ (fun _ _ _ _ => .inr (.inr hnp))
      (fun _ => .inr (.inr hnp)) ?_)
    all_goals rcases hsl with hsl | hsl | ⟨i, hsl⟩ <;> rw [hsl] <;>
      simp [Sleep.settle, Sleep.announced]
  · exact ⟨_, by rw [upd_eq_self]; exact hI, .inr ⟨hlt, rfl⟩⟩

/-- The look of the hand-off, which settles what a woken pop owes. -/
theorem napAtom_handLook {pos : Nat} (hsl : g.sleep = .awake) (hd : g.duty = .none) :
    (waitOutline N o).Atom t g (.seqLoad .handOff pos : Act V) fun r g' =>
      r.stamp = pos + 1 ∧ g' = ⟨.out, .looking, g.seen, g.slot⟩ ∨
        r.stamp ≠ pos + 1 ∧ g' = ⟨.out, .none, g.seen, g.slot⟩ := by
  refine napAtom_of fun s γ hI hγ => ⟨trivial, fun hok n s' r hs => ?_⟩
  subst hγ
  obtain ⟨hsound, ρ, hR, -⟩ := hok
  cases hs
  by_cases he : (s.core.seq N pos).stamp = pos + 1
  · refine ⟨_, ?_, .inl ⟨he, rfl⟩⟩
    exact WaitInv.turn hI (hI.seen t) rfl (by rw [hsl]; rfl) (by simp)
      (hI.duties.look hd rfl (by simp) _)
  · refine ⟨_, ?_, .inr ⟨he, rfl⟩⟩
    have hnp : ¬ s.core.ledger.lanes.headPub := fun hp =>
      hsound pos rfl he (hR.base.lanes.headPub_iff.mp hp)
    exact WaitInv.turn hI (hI.seen t) rfl (by rw [hsl]; rfl) (by simp)
      (hI.duties.keep hd.symm (by simp) (by simp) (fun _ => .inr (.inr hnp)) (by simp))

/-- A publication, or a tombstone. -/
theorem napAtom_publish {a : Act V} {pos : Nat} (ha : a = .publish pos ∨ a = .tombstone pos)
    (hg : Resting g) :
    (waitOutline N o).Atom t g a fun _ g' => g' = ⟨.out, .looking, g.seen, g.slot⟩ := by
  refine napAtom_of fun s γ hI hγ => ⟨by rcases ha with rfl | rfl <;> trivial,
    fun _ n s' r hs => ?_⟩
  subst hγ
  refine ⟨_, ?_, rfl⟩
  have h1 : ∀ pub' : Prop, WaitInv o.sharedToken (s.waiter .notEmpty) s.stats
      s.core.ledger.closed s.core.ledger.lanes.head pub'
      (upd γ t ⟨.out, .looking, (γ t).seen, (γ t).slot⟩) := fun pub' =>
    WaitInv.turn hI (hI.seen t) rfl (by rw [hg.1]) (by simp) (hI.duties.look hg.2 rfl (by simp) _)
  rcases ha with rfl | rfl <;> cases hs <;> exact h1 _

theorem napAtom_close (hg : Resting g) : (waitOutline N o).Atom t g (.tailOr : Act V) fun _ g' =>
    g' = ⟨.out, .closer, g.seen, g.slot⟩ := by
  refine napAtom_of fun s γ hI hγ => ⟨trivial, fun _ n s' r hs => ?_⟩
  subst hγ
  cases hs
  refine ⟨_, ?_, rfl⟩
  exact WaitInv.move hI (hI.seen t) rfl (fun _ => rfl)
    (hI.seats.keep (by rw [hg.1]) (by simp) rfl rfl (fun _ h => h) rfl)
    (hI.duties.setClosed hg.1.symm hg.2 rfl hI.closing)

/-- The tail of an announced sleeper's re-check. -/
theorem napAtom_tailLook {i : Nat} (hsl : g.sleep = .up i .rechecked) (hd : g.duty = .none) :
    (waitOutline N o).Atom t g (.tailLoad : Act V) fun r g' =>
      r.closed = true ∧ g' = g ∨
        r.closed = false ∧ g' = ⟨.up i .passed, .none, g.seen, g.slot⟩ := by
  refine napAtom_of fun s γ hI hγ => ⟨trivial, fun _ n s' r hs => ?_⟩
  subst hγ
  cases hs
  cases hcl : s.core.ledger.closed with
  | true => exact ⟨_, by rw [upd_eq_self]; exact hI, .inl ⟨hcl, rfl⟩⟩
  | false =>
    refine ⟨_, ?_, .inr ⟨hcl, rfl⟩⟩
    refine WaitInv.turn hI (hI.seen t) rfl (by rw [hsl]; rfl) (by simp)
      (hI.duties.keep hd.symm ?_ ?_ ?_ fun _ _ => .inr hcl)
    · rintro - j c he; cases he; exact ⟨_, hsl⟩
    · rintro j c he -; cases he; exact .inl ⟨_, hsl, by simp⟩
    · intro hc
      refine .inl ?_
      simpa [Carries, hsl, hd] using hc

/-! ## The waiter's operations -/

omit [Inhabited V] [DecidableEq Tid] in
theorem napInv_setWaiter {s : State V Tid} {x : Waiter} {γ : Tid → Nap} :
    NapInv o (s.setWaiter .notEmpty x) γ ↔ WaitInv o.sharedToken x s.stats
      s.core.ledger.closed s.core.ledger.lanes.head s.core.ledger.lanes.headPub γ := by
  simp [NapInv, State.setWaiter]

/-- A goroutine reads its own index. -/
theorem napAtom_stats : (waitOutline N o).Atom t g (.stats : Act V) fun r g' => g' = g ∧
    (∀ i, g.slot = some i ↔ r = ⟨some .notEmpty, i⟩) ∧
    (o.sharedToken = false → ∀ i, g.sleep.announced = some i → g.slot = some i) := by
  refine napAtom_of fun s γ hI hγ => ⟨trivial, fun _ n s' r hs => ?_⟩
  subst hγ
  cases hs
  exact ⟨_, by rw [upd_eq_self]; exact hI, rfl, hI.stats t, fun h i => hI.seats.slot h t i⟩

theorem napAtom_indexAdd (hg : Resting g) :
    (waitOutline N o).Atom t g (.indexAdd .notEmpty : Act V) fun r g' =>
      g' = ⟨.indexed r, .none, g.seen, g.slot⟩ := by
  refine napAtom_of fun s γ hI hγ => ⟨trivial, fun _ n s' r hs => ?_⟩
  subst hγ
  cases hs
  refine ⟨_, napInv_setWaiter.mpr ?_, rfl⟩
  have hd := hI.duties.keep (t := t)
    (g := ⟨.indexed (s.waiter .notEmpty).n, .none, (γ t).seen, (γ t).slot⟩) hg.2.symm (by simp)
    (by simp) (by simp [Carries, hg.1, hg.2]) (by simp)
  exact WaitInv.move hI (hI.seen t) rfl hI.closing (hI.seats.index hg.1)
    ⟨hd.begun, hd.sent, hd.woken, hd.shut⟩

/-- Binding an index on the consumers' waiter. -/
theorem napAtom_tokenMake {i : Nat} (hsl : g.sleep = .indexed i) (hd : g.duty = .none)
    (hi : i < maxSleepers) :
    (waitOutline N o).Atom t g (.tokenMake .notEmpty i : Act V) fun _ g' =>
      g' = ⟨.out, .none, g.seen, some i⟩ := by
  refine napAtom_of fun s γ hI hγ => ⟨trivial, fun _ n s' r hs => ?_⟩
  subst hγ
  cases hs
  refine ⟨_, ?_, rfl⟩
  have h1 := WaitInv.bind hI (t := t) (x := some i) (y := ⟨some .notEmpty, i⟩) (.inr ⟨i, hsl⟩) hd
    (fun j hj => by cases hj; exact ⟨hsl, hi⟩) (fun j => by simp)
  have h2 := WaitInv.untoken h1 (t := t) (i := i) (by simp) (by simp)
  simpa [NapInv, State.setWaiter] using h2

/-- Binding one on the producers' gives up the other. -/
theorem napAtom_tokenMakeFull {i : Nat} (hg : Resting g) :
    (waitOutline N o).Atom t g (.tokenMake .notFull i : Act V) fun _ g' =>
      g' = ⟨.out, .none, g.seen, none⟩ := by
  refine napAtom_of fun s γ hI hγ => ⟨trivial, fun _ n s' r hs => ?_⟩
  subst hγ
  cases hs
  refine ⟨_, ?_, rfl⟩
  have h1 := WaitInv.bind hI (t := t) (x := none) (y := ⟨some .notFull, i⟩) (.inl hg.1) hg.2
    (fun j hj => by cases hj) (fun j => by simp)
  simpa [NapInv, State.setWaiter] using h1

theorem napAtom_asleepOr {i : Nat} (hsh : o.sharedToken = false) (hg : Resting g)
    (hs : g.slot = some i) :
    (waitOutline N o).Atom t g (.asleepOr .notEmpty i : Act V) fun _ g' =>
      g' = ⟨.up i .fresh, .none, g.seen, g.slot⟩ := by
  refine napAtom_of fun s γ hI hγ => ⟨trivial, fun _ n s' r hr => ?_⟩
  subst hγ
  cases hr
  refine ⟨_, napInv_setWaiter.mpr ?_, rfl⟩
  unfold NapInv at hI
  rw [hsh] at hI ⊢
  refine WaitInv.move hI (hI.seen t) rfl hI.closing (hI.seats.announce hg.1 hs)
    (hI.duties.announce hg.2.symm hg.1 rfl fun u => ?_)
  by_cases hu : u = t
  · rw [hu, hg.1]; simp [Sleep.announced]
  · exact hI.alone hs u hu

/-- A sleeper clears its bit as it cancels. -/
theorem napAtom_cancel {i : Nat} {c : Check} (hsh : o.sharedToken = false)
    (hsl : g.sleep = .up i c) (hd : g.duty = .none) :
    (waitOutline N o).Atom t g (.asleepAnd .notEmpty i : Act V) fun r g' => g.slot = some i ∧
      g' = ⟨.out, if r then .none else .looking, g.seen, g.slot⟩ := by
  refine napAtom_of fun s γ hI hγ => ⟨trivial, fun _ n s' r hs => ?_⟩
  subst hγ
  cases hs
  unfold NapInv at hI
  have hslot := hI.seats.slot hsh t i (by rw [hsl]; rfl)
  refine ⟨_, napInv_setWaiter.mpr ?_, hslot, rfl⟩
  rw [hsh] at hI ⊢
  exact WaitInv.move hI (hI.seen t) rfl hI.closing
    (hI.seats.withdraw (by rw [hsl]; rfl) (.inl rfl) rfl)
    (hI.duties.withdraw hd (.inl ⟨rfl, ⟨c, hsl⟩, rfl⟩) (hI.alone hslot))

/-- A sleeper clears its bit after its select. -/
theorem napAtom_wake {i : Nat} (hsh : o.sharedToken = false) (hsl : g.sleep = .leaving i)
    (hd : g.duty = .none) :
    (waitOutline N o).Atom t g (.asleepAnd .notEmpty i : Act V) fun _ g' =>
      g' = ⟨.awake, .none, g.seen, g.slot⟩ := by
  refine napAtom_of fun s γ hI hγ => ⟨trivial, fun _ n s' r hs => ?_⟩
  subst hγ
  cases hs
  unfold NapInv at hI
  have hslot := hI.seats.slot hsh t i (by rw [hsl]; rfl)
  refine ⟨_, napInv_setWaiter.mpr ?_, rfl⟩
  rw [hsh] at hI ⊢
  exact WaitInv.move hI (hI.seen t) rfl hI.closing
    (hI.seats.withdraw (by rw [hsl]; rfl) (.inr rfl) rfl)
    (hI.duties.withdraw hd (.inr ⟨rfl, rfl⟩) (hI.alone hslot))

/-- A waker clears the bit it saw. -/
theorem napAtom_takeBit {i : Nat} (hsh : o.sharedToken = false) (hsl : g.sleep = .out)
    (hd : g.duty = .looking) :
    (waitOutline N o).Atom t g (.asleepAnd .notEmpty i : Act V) fun r g' =>
      r = true ∧ g' = ⟨.out, .claimedBit i, g.seen, g.slot⟩ ∨ r = false ∧ g' = g := by
  refine napAtom_of fun s γ hI hγ => ⟨trivial, fun _ n s' r hs => ?_⟩
  subst hγ
  cases hs
  unfold NapInv at hI
  cases hb : (s.waiter .notEmpty).asleep i with
  | false =>
    refine ⟨γ t, napInv_setWaiter.mpr ?_, .inr ⟨rfl, rfl⟩⟩
    rw [upd_eq_self, show upd (s.waiter .notEmpty).asleep i false = (s.waiter .notEmpty).asleep by
      rw [← hb, upd_eq_self]]
    exact hI
  | true =>
    refine ⟨_, napInv_setWaiter.mpr ?_, .inl ⟨rfl, rfl⟩⟩
    rw [hsh] at hI ⊢
    refine WaitInv.move hI (hI.seen t) rfl hI.closing
      (hI.seats.keep (by rw [hsl]) (by simp) rfl rfl (fun j hj => ?_) rfl)
      (hI.duties.takeBit hsl hd rfl rfl (hI.seats.owner rfl i hb))
    simp only [upd_apply] at hj
    split at hj
    · cases hj
    · exact hj

theorem napAtom_tokenSend {i : Nat} (hsl : g.sleep = .out) (hd : g.duty = .claimedBit i) :
    (waitOutline N o).Atom t g (.tokenSend .notEmpty i : Act V) fun _ g' =>
      g' = ⟨.out, .none, g.seen, g.slot⟩ := by
  refine napAtom_of fun s γ hI hγ => ⟨trivial, fun _ n s' r hs => ?_⟩
  subst hγ
  cases hs
  refine ⟨_, napInv_setWaiter.mpr ?_, rfl⟩
  exact WaitInv.move hI (hI.seen t) rfl hI.closing
    (hI.seats.keep (by rw [hsl]) (by simp) rfl rfl (fun _ h => h) rfl)
    (hI.duties.sendToken hsl.symm (by simp [hd]) (by simp) fun j c u _ hj => .inl (by simpa [hd, Duty.sends] using hj))

/-- A closer sends the lowest of its tokens. -/
theorem napAtom_closeSend {i : Nat} {m : Nat → Bool} (hsh : o.sharedToken = false)
    (hsl : g.sleep = .out) (hd : g.duty = sendingOf m) (hm : lowest m = some i) :
    (waitOutline N o).Atom t g (.tokenSend .notEmpty i : Act V) fun _ g' =>
      g' = ⟨.out, sendingOf (upd m i false), g.seen, g.slot⟩ := by
  refine napAtom_of fun s γ hI hγ => ⟨trivial, fun _ n s' r hs => ?_⟩
  subst hγ
  cases hs
  have hd' : (γ t).duty = .sending m := by rw [hd]; simp [sendingOf, hm]
  refine ⟨_, napInv_setWaiter.mpr ?_, rfl⟩
  unfold NapInv at hI
  refine WaitInv.move hI (hI.seen t) rfl hI.closing
    (hI.seats.keep (by rw [hsl]) (by simp) rfl rfl (fun _ h => h) rfl)
    (hI.duties.sendToken hsl.symm (by simp [hd']) (sendingOf_ne _) fun j c u hu hj => ?_)
  by_cases he : j = i
  · exact .inl he
  · refine .inr (sendingOf_sends ?_ (by simpa [he, hd', Duty.sends] using hj))
    have h1 := hI.seats.slot hsh u j (by rw [hu]; rfl)
    exact (hI.seats.lt u j h1).2

theorem napAtom_tokenDrain {i : Nat} (hsl : g.sleep = .out) (hs : g.slot = some i) :
    (waitOutline N o).Atom t g (.tokenDrain .notEmpty i : Act V) fun _ g' => g' = g := by
  refine napAtom_of fun s γ hI hγ => ⟨trivial, fun _ n s' r hr => ?_⟩
  subst hγ
  cases hr
  exact ⟨_, napInv_setWaiter.mpr (by rw [upd_eq_self]; exact WaitInv.untoken hI hs hsl), rfl⟩

/-- A waker finds no announcement. -/
theorem napAtom_asleepLoad (hsh : o.sharedToken = false) (hsl : g.sleep = .out)
    (hd : g.duty = .looking) :
    (waitOutline N o).Atom t g (.asleepLoad .notEmpty : Act V) fun r g' =>
      lowest r = none ∧ g' = ⟨.out, .none, g.seen, g.slot⟩ ∨ lowest r ≠ none ∧ g' = g := by
  refine napAtom_of fun s γ hI hγ => ⟨trivial, fun _ n s' r hr => ?_⟩
  subst hγ
  cases hr
  by_cases hl : lowest (s.waiter .notEmpty).asleep = none
  · refine ⟨_, ?_, .inl ⟨hl, rfl⟩⟩
    refine WaitInv.turn hI (hI.seen t) rfl (by rw [hsl]) (by simp)
      (hI.duties.giveUp hsl.symm hd rfl fun u i c hu => ⟨hsh, lowest_none hl ?_⟩)
    exact (hI.seats.lt u i (hI.seats.slot hsh u i (by rw [hu]; rfl))).2
  · exact ⟨_, by rw [upd_eq_self]; exact hI, .inr ⟨hl, rfl⟩⟩

/-! ## The shared mode -/

theorem napAtom_countUp (hsh : o.sharedToken = true) (hg : Resting g) :
    (waitOutline N o).Atom t g (.countAdd .notEmpty 1 : Act V) fun _ g' =>
      g' = ⟨.up 0 .fresh, .none, g.seen, g.slot⟩ := by
  refine napAtom_of fun s γ hI hγ => ⟨trivial, fun _ n s' r hr => ?_⟩
  subst hγ
  cases hr
  refine ⟨_, napInv_setWaiter.mpr ?_, rfl⟩
  unfold NapInv at hI
  rw [hsh] at hI ⊢
  have hd := hI.duties.keep (t := t) (g := ⟨.up 0 .fresh, .none, (γ t).seen, (γ t).slot⟩)
    hg.2.symm (by simp) (by simp) (by simp [Carries, hg.1, hg.2]) (by simp)
  exact WaitInv.move hI (hI.seen t) rfl hI.closing (hI.seats.countUp hg.1 rfl rfl)
    ⟨hd.begun, hd.sent, hd.woken, hd.shut⟩

/-- A shared sleeper withdraws: as it cancels, or after its select. -/
theorem napAtom_countDown (hsh : o.sharedToken = true) (hd : g.duty = .none) {sl : Sleep}
    (hsl : (∃ i c, g.sleep = .up i c) ∧ sl = .out ∨ (∃ i, g.sleep = .leaving i) ∧ sl = .awake) :
    (waitOutline N o).Atom t g (.countAdd .notEmpty (-1) : Act V) fun _ g' =>
      g' = ⟨sl, .none, g.seen, g.slot⟩ := by
  refine napAtom_of fun s γ hI hγ => ⟨trivial, fun _ n s' r hr => ?_⟩
  subst hγ
  cases hr
  refine ⟨_, napInv_setWaiter.mpr ?_, rfl⟩
  unfold NapInv at hI
  rw [hsh] at hI ⊢
  have hne : (γ t).sleep.announced ≠ none := by
    rcases hsl with ⟨⟨i, c, h⟩, -⟩ | ⟨⟨i, h⟩, -⟩ <;> rw [h] <;> simp [Sleep.announced]
  have hout : sl = .out ∨ sl = .awake := hsl.imp And.right And.right
  have hup : ∀ i c, sl ≠ .up i c := by rcases hout with rfl | rfl <;> simp
  have hk := hI.duties.keep (t := t) (g := ⟨sl, .none, (γ t).seen, (γ t).slot⟩)
    hd.symm (by simp) (fun i c h => absurd h (hup i c))
    (by rcases hsl with ⟨⟨i, c, h⟩, rfl⟩ | ⟨⟨i, h⟩, rfl⟩ <;> simp [Carries, h, hd])
    (fun i h => absurd h (hup i _))
  exact WaitInv.move hI (hI.seen t) rfl hI.closing (hI.seats.countDown hne hout rfl)
    ⟨hk.begun, hk.sent, hk.woken, hk.shut⟩

theorem napAtom_countLoad (hsh : o.sharedToken = true) (hsl : g.sleep = .out)
    (hd : g.duty = .looking) :
    (waitOutline N o).Atom t g (.countLoad .notEmpty : Act V) fun r g' =>
      r = 0 ∧ g' = ⟨.out, .none, g.seen, g.slot⟩ ∨ r ≠ 0 ∧ g' = g := by
  refine napAtom_of fun s γ hI hγ => ⟨trivial, fun _ n s' r hr => ?_⟩
  subst hγ
  cases hr
  by_cases hc : (s.waiter .notEmpty).count = 0
  · refine ⟨_, ?_, .inl ⟨hc, rfl⟩⟩
    refine WaitInv.turn hI (hI.seen t) rfl (by rw [hsl]) (by simp)
      (hI.duties.giveUp hsl.symm hd rfl fun u i c hu => ?_)
    obtain ⟨l, -, hm, hlen⟩ := hI.seats.count hsh
    have hmem := (hm u).mpr (by simp [hu, Sleep.announced])
    have := List.length_pos_of_mem hmem
    omega
  · exact ⟨_, by rw [upd_eq_self]; exact hI, .inr ⟨hc, rfl⟩⟩

theorem napAtom_sharedSend (hsh : o.sharedToken = true) (hsl : g.sleep = .out)
    (hd : g.duty = .looking) :
    (waitOutline N o).Atom t g (.sharedSend .notEmpty : Act V) fun _ g' =>
      g' = ⟨.out, .none, g.seen, g.slot⟩ := by
  refine napAtom_of fun s γ hI hγ => ⟨trivial, fun _ n s' r hr => ?_⟩
  subst hγ
  cases hr
  refine ⟨_, napInv_setWaiter.mpr ?_, rfl⟩
  unfold NapInv at hI
  rw [hsh] at hI ⊢
  exact WaitInv.move hI (hI.seen t) rfl hI.closing
    (hI.seats.keep (by rw [hsl]) (by simp) rfl rfl (fun _ h => h) rfl)
    (hI.duties.sharedSend hsl.symm hd rfl)

/-! ## The close's operations -/

theorem napAtom_closingCas (hsl : g.sleep = .out) (hd : g.duty = .closer) :
    (waitOutline N o).Atom t g (.closingCas .notEmpty : Act V) fun r g' =>
      g' = ⟨.out, if r then .closerWon else .none, g.seen, g.slot⟩ := by
  refine napAtom_of fun s γ hI hγ => ⟨trivial, fun _ n s' r hr => ?_⟩
  subst hγ
  unfold NapInv at hI
  have hcl := hI.duties.begun t hd
  have h1 : WaitInv o.sharedToken { s.waiter .notEmpty with closing := true } s.stats
      s.core.ledger.closed s.core.ledger.lanes.head s.core.ledger.lanes.headPub
      (upd γ t ⟨.out, if (s.waiter .notEmpty).closing then .none else .closerWon, (γ t).seen,
        (γ t).slot⟩) :=
    WaitInv.move hI (hI.seen t) rfl (fun _ => hcl)
      (hI.seats.keep (by rw [hsl]) (by simp) rfl rfl (fun _ h => h) rfl)
      (hI.duties.closing hsl.symm hd hcl rfl)
  simp only [sem] at hr
  cases hc : (s.waiter .notEmpty).closing with
  | true =>
    rw [hc, if_pos rfl] at hr
    cases hr
    have he : { s.waiter .notEmpty with closing := true } = s.waiter .notEmpty := by rw [← hc]
    rw [he, hc, if_pos rfl] at h1
    exact ⟨_, h1, rfl⟩
  | false =>
    rw [hc, if_neg (by simp)] at hr
    cases hr
    rw [hc, if_neg (by simp)] at h1
    exact ⟨_, napInv_setWaiter.mpr h1, rfl⟩

theorem napAtom_asleepSwap (hsh : o.sharedToken = false) (hsl : g.sleep = .out)
    (hd : g.duty = .closerWon) :
    (waitOutline N o).Atom t g (.asleepSwap .notEmpty : Act V) fun r g' =>
      g' = ⟨.out, sendingOf r, g.seen, g.slot⟩ := by
  refine napAtom_of fun s γ hI hγ => ⟨trivial, fun _ n s' r hr => ?_⟩
  subst hγ
  cases hr
  refine ⟨_, napInv_setWaiter.mpr ?_, rfl⟩
  unfold NapInv at hI
  rw [hsh] at hI ⊢
  exact WaitInv.move hI (hI.seen t) rfl hI.closing
    (hI.seats.keep (by rw [hsl]) (by simp) rfl rfl (by simp) rfl)
    (hI.duties.swap hsl.symm hd rfl fun u i c hu =>
      (hI.seats.lt u i (hI.seats.slot rfl u i (by rw [hu]; rfl))).2)

theorem napAtom_closeChan (hsh : o.sharedToken = true) (hsl : g.sleep = .out)
    (hd : g.duty = .closerWon) :
    (waitOutline N o).Atom t g (.closeChan .notEmpty : Act V) fun _ g' =>
      g' = ⟨.out, .none, g.seen, g.slot⟩ := by
  refine napAtom_of fun s γ hI hγ => ⟨trivial, fun _ n s' r hr => ?_⟩
  subst hγ
  cases hr
  refine ⟨_, napInv_setWaiter.mpr ?_, rfl⟩
  unfold NapInv at hI
  rw [hsh] at hI ⊢
  exact WaitInv.move hI (hI.seen t) rfl hI.closing
    (hI.seats.keep (by rw [hsl]) (by simp) rfl rfl (fun _ h => h) rfl)
    (hI.duties.closeChan hsl.symm hd rfl)

/-! ## The select -/

omit [Inhabited V] in
/-- A goroutine out of its select may have taken its token. -/
theorem NapInv.left {s : State V Tid} {γ : Tid → Nap} (hI : NapInv o s γ) {i : Nat}
    (hsl : (∃ c, (γ t).sleep = .up i c) ∨ (γ t).sleep = .leaving i) (hd : (γ t).duty = .none) :
    NapInv o s (upd γ t ⟨.leaving i, .none, (γ t).seen, (γ t).slot⟩) ∧
      NapInv o (s.takeToken o .notEmpty i)
        (upd γ t ⟨.leaving i, .none, (γ t).seen, (γ t).slot⟩) := by
  have hann : (γ t).sleep.announced = some i := by
    rcases hsl with ⟨c, h⟩ | h <;> rw [h] <;> rfl
  have h1 : NapInv o s (upd γ t ⟨.leaving i, .none, (γ t).seen, (γ t).slot⟩) :=
    WaitInv.turn hI (hI.seen t) rfl hann.symm (by simp)
      (hI.duties.keep hd.symm (by simp) (by simp) (fun _ => .inl (by simp [Carries])) (by simp))
  refine ⟨h1, ?_⟩
  unfold State.takeToken
  cases hsh : o.sharedToken with
  | true =>
    rw [if_pos (by simp [shared, hsh]), napInv_setWaiter]
    unfold NapInv at hI
    rw [hsh] at hI ⊢
    exact WaitInv.move hI (hI.seen t) rfl hI.closing
      (hI.seats.keep hann.symm (by simp) rfl rfl (fun _ h => h) rfl)
      (hI.duties.takeToken hd.symm ⟨i, rfl⟩)
  | false =>
    rw [if_neg (by simp [shared, hsh]), napInv_setWaiter]
    unfold NapInv at h1
    have hslot := hI.seats.slot hsh t i hann
    refine WaitInv.move hI (hI.seen t) rfl hI.closing
      (hI.seats.keep hann.symm (by simp) rfl rfl (fun _ h => h) rfl)
      (h1.duties.untoken fun _ u c hu => ?_)
    by_cases he : u = t
    · subst he; simp at hu
    · rw [upd_ne _ _ he] at hu
      unfold NapInv at hI
      rw [hsh] at hI
      exact hI.alone hslot u he (by rw [hu]; rfl)

theorem napAtom_select {i : Nat} (hsl : g.sleep = .up i .passed) (hd : g.duty = .none) :
    (waitOutline N o).Atom t g (.select .notEmpty i : Act V) fun _ g' =>
      g' = ⟨.leaving i, .none, g.seen, g.slot⟩ := by
  refine napAtom_of fun s γ hI hγ => ⟨⟨hsl, hd⟩, fun _ n s' r hr => ⟨_, ?_, rfl⟩⟩
  subst hγ
  obtain ⟨h1, h2⟩ := hI.left (.inl ⟨_, hsl⟩) hd
  match n with
  | 0 =>
    simp only [sem] at hr
    split at hr <;> cases hr
    exact h2
  | 1 =>
    simp only [sem] at hr
    split at hr <;> cases hr
    exact h1
  | n + 2 => cases hr; exact h1

theorem napAtom_selectLast {i : Nat} (hsl : g.sleep = .leaving i) (hd : g.duty = .none) :
    (waitOutline N o).Atom t g (.selectLast .notEmpty i : Act V) fun _ g' =>
      g' = ⟨.leaving i, .none, g.seen, g.slot⟩ := by
  refine napAtom_of fun s γ hI hγ => ⟨trivial, fun _ n s' r hr => ⟨_, ?_, rfl⟩⟩
  subst hγ
  obtain ⟨h1, h2⟩ := hI.left (.inr hsl) hd
  match n with
  | 0 =>
    simp only [sem] at hr
    split at hr <;> cases hr
    · exact h2
    · exact h1
  | n + 1 =>
    simp only [sem] at hr
    split at hr
    · cases hr; exact h1
    · split at hr <;> cases hr
      · exact h2
      · exact h1

/-- A producer's select. -/
theorem napAtom_selectFull {i : Nat} (hg : Resting g) :
    (waitOutline N o).Atom t g (.select .notFull i : Act V) fun _ g' => g' = g := by
  refine napAtom_of fun s γ hI hγ => ⟨hg, fun _ n s' r hr => ⟨g, ?_, rfl⟩⟩
  rw [← hγ, upd_eq_self]
  match n with
  | 0 =>
    simp only [sem] at hr
    split at hr <;> cases hr
    exact hI.unmoved (unmoved_takeFull s i)
  | 1 =>
    simp only [sem] at hr
    split at hr <;> cases hr
    exact hI
  | n + 2 => cases hr; exact hI

end
end Katas.Turnstile.Go
