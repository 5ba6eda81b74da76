import Katas.Core.Outline
import Katas.Turnstile.Cpp.CloseWake
import Katas.Turnstile.Cpp.WaitInv

/-!
# The outline of the close

The operations of the queue as steps of `CloseInv` for one of its event
counts, and from them the functions of the queue, to `closeOutline_valid`.
-/
namespace Katas.Turnstile.Cpp
open Katas.Conc Katas.SeqRing Outline

section
variable {V Tid : Type} [Inhabited V] [DecidableEq Tid] (N : Capacity) (o : Options) (w : Side)

/-- Everybody who waits on `w` has looked at the tail. -/
def Strict : Prop := w = .not_empty ∨ o.reserve = .cas

def VigilInv (s : State V Tid) (γ : Tid → Vigil) : Prop :=
  CloseInv (s.count w) s.core.ledger.closed
    (∃ id, s.core.ledger.results id = some .closed) γ

def Free (g : Vigil) : Prop := g.free = true

/-- In the wait on `w` with key `k`, not blocked. -/
def Passing (k : Nat) (g : Vigil) : Prop := g = .passed k ∨ g = .inside k false

/-- Who is blocked. -/
def vigilNeed (_ : Tid) (a : Act V) (_ : State V Tid) (g : Vigil) : Prop :=
  match a with
  | .blocked w' => if w' = w then ∃ k, g = .inside k true else Free g
  | _ => True

def vigilPre : Proc V → Vigil → Prop
  | .tryPushLoop _ word, g => Free g ∧ (word.closed = false → g.see = g)
  | .pushLoop _ _, g => Free g
  | .awaitPoll _, g => Free g ∧ w = .not_empty
  | .tryPopLoop _, g => Free g
  | .popLoop, g => Free g
  | .waitLoop w' k, g => if w' = w then Passing k g else Free g

def vigilPost : (p : Proc V) → Vigil → Ret p → Vigil → Prop
  | .tryPushLoop _ _, g, r, g' => g' = g ∧ (r = .full → g.see = g)
  | .awaitPoll _, g, _, g' => g' = g
  | .tryPopLoop _, g, _, g' => g' = g
  | .pushLoop _ _, _, _, g' => Free g'
  | .popLoop, _, _, g' => Free g'
  | .waitLoop w' _, g, _, g' => if w' = w then Free g' else g' = g

abbrev closeOutline : Outline (queue V Tid N o) where
  G := Vigil
  Inv := VigilInv w
  need := vigilNeed w
  ok _ _ _ := True
  rest _ g := Free g
  pre p _ g := vigilPre w p g
  post p _ g r g' := vigilPost w p g r g'

variable {N o w} {t : Tid} {g : Vigil}

theorem vigilAtom_of {a : Act V} {R : Resp a → Vigil → Prop}
    (h : ∀ (s : State V Tid) (γ : Tid → Vigil), VigilInv w s γ → γ t = g → vigilNeed w t a s g ∧
      ∀ n s' r, sem N t a n s = some (s', r) → ∃ g', VigilInv w s' (upd γ t g') ∧ R r g') :
    (closeOutline N o w).Atom t g a R := by
  intro s γ hI hγ
  obtain ⟨h1, h2⟩ := h s γ hI hγ
  exact ⟨h1, fun _ => h2⟩

/-- Keeps every role. -/
def calm (w : Side) : Act V → Bool
  | .tailOr | .blocked _ => false
  | .waitOn w' _ => decide (w' ≠ w)
  | _ => true

/-- What a calm operation may do to the event count. -/
structure Calmed (w : Side) (s s' : State V Tid) : Prop where
  epoch : (s.count w).epoch ≤ (s'.count w).epoch
  blocked : ∀ u, u ∈ (s'.count w).blocked → u ∈ (s.count w).blocked
  closed : s'.core.ledger.closed = s.core.ledger.closed
  results : s'.core.ledger.results = s.core.ledger.results

section
omit [Inhabited V] [DecidableEq Tid]

theorem Calmed.refl (s : State V Tid) : Calmed w s s :=
  ⟨Nat.le_refl _, fun _ h => h, rfl, rfl⟩

theorem calmed_setCount (s : State V Tid) {w' : Side} {e : EventCount Tid}
    (he : (s.count w').epoch ≤ e.epoch) (hb : ∀ u, u ∈ e.blocked → u ∈ (s.count w').blocked) :
    Calmed w s (s.setCount w' e) := by
  by_cases h : w = w'
  · subst h
    exact ⟨by simpa [State.setCount] using he, by simpa [State.setCount] using hb, rfl, rfl⟩
  · exact ⟨by simp [State.setCount, h], by simp [State.setCount, h], rfl, rfl⟩

theorem calmed_setOther (s : State V Tid) {w' : Side} (h : w' ≠ w) {e : EventCount Tid} :
    Calmed w s (s.setCount w' e) :=
  ⟨by simp [State.setCount, h.symm], by simp [State.setCount, h.symm], rfl, rfl⟩

end

theorem calmed_of_calm {a : Act V} (ha : calm w a = true) {n : Nat} {s s' : State V Tid}
    {r : Resp a} (h : sem N t a n s = some (s', r)) : Calmed w s s' := by
  cases a
  case tailCas word =>
    simp only [sem] at h
    split at h <;> cases h
    · exact ⟨Nat.le_refl _, fun _ h => h, rfl, rfl⟩
    · exact .refl s
  case headCas pos =>
    simp only [sem] at h
    split at h <;> cases h
    · exact ⟨Nat.le_refl _, fun _ h => h, rfl, rfl⟩
    · exact .refl s
  case tailAdd | seqStore | seqStoreDead | seqRelease | construct | moveOut | destroy =>
    cases h; exact ⟨Nat.le_refl _, fun _ h => h, rfl, rfl⟩
  case tailLoad | headLoad | seqLoad | epochLoad | waitersLoad | pendingLoad | expired =>
    cases h; exact .refl s
  case epochAdd w' => cases h; exact calmed_setCount s (Nat.le_succ _) fun _ h => h
  case waitersAdd | waitersSub | pendingClear | pendingExchange =>
    cases h; exact calmed_setCount s (Nat.le_refl _) fun _ h => h
  case waitOn w' k =>
    cases h
    exact calmed_setOther s (by simpa [calm] using ha)
  case wakeOne w' =>
    cases h
    obtain ⟨-, h1, h2⟩ := wake_one_frame (s.count w') n
    exact calmed_setCount s (Nat.le_of_eq h1.symm) h2
  case wakeAll w' => cases h; exact calmed_setCount s (Nat.le_refl _) nofun
  case tailOr => cases ha
  case blocked => cases ha

omit [DecidableEq Tid] [Inhabited V] in
theorem VigilInv.calmed {s s' : State V Tid} {γ : Tid → Vigil} (h : VigilInv w s γ)
    (hu : Calmed w s s') : VigilInv w s' γ := by
  have h' := CloseInv.frame h hu.epoch hu.blocked
  unfold VigilInv
  rw [hu.closed, hu.results]
  exact h'

theorem vigilAtom_calm {a : Act V} (ha : calm w a = true) :
    (closeOutline N o w).Atom t g a fun _ g' => g' = g := by
  refine vigilAtom_of fun s γ hI hγ => ⟨?_, fun n s' r hs => ⟨g, ?_, rfl⟩⟩
  · cases a <;> trivial
  · rw [← hγ, upd_eq_self]
    exact hI.calmed (calmed_of_calm ha hs)

/-- Sleeping on the other event count. -/
theorem vigilAtom_blockedOther {w' : Side} (hw : w' ≠ w) (hg : Free g) :
    (closeOutline N o w).Atom t g (.blocked w' : Act V) fun _ g' => g' = g := by
  refine vigilAtom_of fun s γ hI hγ => ⟨?_, fun n s' r hs => ⟨g, ?_, rfl⟩⟩
  · show if w' = w then _ else _
    rw [if_neg hw]
    exact hg
  · rw [← hγ, upd_eq_self]
    simp only [sem] at hs
    split at hs
    · split at hs <;> cases hs
      exact hI.calmed (calmed_setOther s hw)
    · cases hs; exact hI

omit [Inhabited V] in
theorem VigilInv.step {s : State V Tid} {γ : Tid → Vigil} (h : VigilInv w s γ)
    (hf : Free (γ t)) (hg : Free g) (hk : ∀ k, g.key = some k → k ≤ (s.count w).epoch)
    (hp : ∀ k, g.pass = some k → (γ t).pass = some k ∨ s.core.ledger.closed = false)
    (hfin : g = .finished → γ t = .finished) : VigilInv w s (upd γ t g) :=
  CloseInv.step h hf hg hk hp hfin

/-- The epoch read before a wait. -/
theorem vigilAtom_key (hg : Free g) :
    (closeOutline N o w).Atom t g (.epochLoad w : Act V) fun r g' => g' = .keyed r := by
  refine vigilAtom_of fun s γ hI hγ => ⟨trivial, fun n s' r hs => ⟨_, ?_, rfl⟩⟩
  subst hγ
  cases hs
  refine hI.step hg rfl ?_ nofun nofun
  rintro k ⟨⟩
  exact Nat.le_refl _

omit [Inhabited V] in
/-- Seeing the tail open. -/
theorem VigilInv.see {s : State V Tid} {γ : Tid → Vigil} (h : VigilInv w s γ) (hf : Free (γ t))
    (hc : s.core.ledger.closed = false) : VigilInv w s (upd γ t (γ t).see) := by
  have hk := h.key_le t
  refine h.step hf (Vigil.free_see hf) (fun k hk' => hk k ?_) (fun _ _ => .inr hc) fun he => ?_
  · cases hγ : γ t <;> rw [hγ] at hk' <;> exact hk'
  · cases hγ : γ t <;> rw [hγ] at he <;> first | rfl | cases he

theorem vigilAtom_tailLoad (hg : Free g) :
    (closeOutline N o w).Atom t g (.tailLoad : Act V) fun r g' =>
      g' = if r.closed then g else g.see := by
  refine vigilAtom_of fun s γ hI hγ => ⟨trivial, fun n s' r hs => ⟨_, ?_, rfl⟩⟩
  subst hγ
  cases hs
  cases hc : s.core.ledger.closed with
  | true => simpa [Ledger.tailWord, hc, upd_eq_self] using hI
  | false => simpa [Ledger.tailWord, hc] using hI.see hg hc

/-! ### The wait -/

theorem vigilAtom_waitLook {k : Nat} (hg : Passing k g) :
    (closeOutline N o w).Atom t g (.epochLoad w : Act V) fun r g' =>
      r = k ∧ g' = .inside k false ∨ r ≠ k ∧ g' = .out := by
  refine vigilAtom_of fun s γ hI hγ => ⟨trivial, fun n s' r hs => ?_⟩
  subst hγ
  cases hs
  have hnb := hI.unblocked (t := t) (by rcases hg with h | h <;> simp [h])
  have hkey : (γ t).key = some k ∧ (γ t).pass = some k ∧ (γ t).closer = false := by
    rcases hg with h | h <;> simp [h, Vigil.key, Vigil.pass, Vigil.closer]
  by_cases hk : (s.count w).epoch = k
  · refine ⟨.inside k false, CloseInv.turn hI rfl (fun _ h => .inl h) (fun h => absurd h hnb) ?_ ?_ ?_
      (fun _ h => by cases h) (fun h => by cases h), .inl ⟨hk, rfl⟩⟩
    · rintro j ⟨⟩; exact hI.key_le t k hkey.1
    · rintro j ⟨⟩; exact .inl hkey.2.1
    · exact hkey.2.2.symm
  · exact ⟨.out, CloseInv.turn hI rfl (fun _ h => .inl h) (fun h => absurd h hnb)
      (fun _ h => by cases h) (fun _ h => by cases h) hkey.2.2.symm (fun _ h => by cases h)
      (fun h => by cases h), .inr ⟨hk, rfl⟩⟩

theorem vigilAtom_late {k : Nat} (hg : g = .inside k false) :
    (closeOutline N o w).Atom t g (.expired : Act V) fun r g' =>
      r = true ∧ g' = .out ∨ r = false ∧ g' = g := by
  refine vigilAtom_of fun s γ hI hγ => ⟨trivial, fun n s' r hs => ?_⟩
  subst hγ
  cases hs
  cases hn : n == 1
  · exact ⟨_, by rw [upd_eq_self]; exact hI, .inr ⟨rfl, rfl⟩⟩
  · have hnb := hI.unblocked (t := t) (by simp [hg])
    exact ⟨.out, CloseInv.turn hI rfl (fun _ h => .inl h) (fun h => absurd h hnb) nofun nofun
      (by rw [hg]; rfl) nofun nofun, .inl ⟨rfl, rfl⟩⟩

omit [Inhabited V] [DecidableEq Tid] in
theorem vigilInv_setCount {s : State V Tid} {e : EventCount Tid} {γ : Tid → Vigil} :
    VigilInv w (s.setCount w e) γ ↔ CloseInv e s.core.ledger.closed
      (∃ id, s.core.ledger.results id = some .closed) γ := by
  simp [VigilInv, State.setCount]

theorem vigilAtom_waitOn {k : Nat} (hg : g = .inside k false) :
    (closeOutline N o w).Atom t g (.waitOn w k : Act V) fun _ g' => g' = .inside k true := by
  refine vigilAtom_of fun s γ hI hγ => ⟨trivial, fun n s' r hs => ⟨_, ?_, rfl⟩⟩
  subst hγ
  cases hs
  have hkey := hI.key_le t k (by rw [hg]; rfl)
  refine vigilInv_setCount.mpr (CloseInv.turn hI ?_ (fun u hu => ?_) (fun _ => ⟨k, rfl⟩) ?_ ?_
    (by rw [hg]; rfl) nofun nofun)
  · unfold EventCount.block; split <;> rfl
  · unfold EventCount.block at hu
    split at hu
    · rename_i he
      rcases List.mem_cons.mp hu with rfl | hu
      · exact .inr ⟨rfl, k, rfl, he.symm⟩
      · exact .inl hu
    · exact .inl hu
  · rintro j ⟨⟩; exact hkey
  · rintro j ⟨⟩; exact .inl (by rw [hg]; rfl)

theorem vigilAtom_blocked {k : Nat} (hg : g = .inside k true) :
    (closeOutline N o w).Atom t g (.blocked w : Act V) fun _ g' => g' = .inside k false := by
  refine vigilAtom_of fun s γ hI hγ => ⟨?_, fun n s' r hs => ?_⟩
  · show if w = w then _ else _
    rw [if_pos rfl]
    exact ⟨k, hg⟩
  subst hγ
  have hkey := hI.key_le t k (by rw [hg]; rfl)
  have h1 : ∀ e : EventCount Tid, e.epoch = (s.count w).epoch →
      (∀ u, u ∈ e.blocked → u ∈ (s.count w).blocked) → t ∉ e.blocked →
      CloseInv e s.core.ledger.closed (∃ id, s.core.ledger.results id = some .closed)
        (upd γ t (.inside k false)) := by
    intro e he hb hnb
    refine CloseInv.turn hI he (fun u hu => .inl (hb u hu)) (fun h => absurd h hnb) ?_ ?_
      (by rw [hg]; rfl) nofun nofun
    · rintro j ⟨⟩; exact hkey
    · rintro j ⟨⟩; exact .inl (by rw [hg]; rfl)
  simp only [sem] at hs
  split at hs
  · split at hs <;> cases hs
    exact ⟨_, vigilInv_setCount.mpr (h1 _ rfl (fun u hu => (mem_unblock.mp hu).1)
      (by simp [EventCount.unblock])), rfl⟩
  · rename_i hnb
    cases hs
    exact ⟨_, h1 _ rfl (fun _ h => h) hnb, rfl⟩

/-! ### The close -/

theorem vigilAtom_close (hg : Free g) :
    (closeOutline N o w).Atom t g (.tailOr : Act V) fun _ g' => g' = .closing := by
  refine vigilAtom_of fun s γ hI hγ => ⟨trivial, fun n s' r hs => ⟨_, ?_, rfl⟩⟩
  subst hγ
  cases hs
  exact CloseInv.close hI hg

theorem vigilAtom_bump (hg : g = .closing) :
    (closeOutline N o w).Atom t g (.epochAdd w : Act V) fun _ g' => ∃ m, g' = .bumped m := by
  refine vigilAtom_of fun s γ hI hγ => ⟨trivial, fun n s' r hs =>
    ⟨.bumped ((s.count w).epoch + 1), ?_, _, rfl⟩⟩
  subst hγ
  cases hs
  exact vigilInv_setCount.mpr (CloseInv.bump hI hg)

theorem vigilAtom_finish {m : Nat} (hg : g = .bumped m) :
    (closeOutline N o w).Atom t g (.wakeAll w : Act V) fun _ g' => g' = .finished := by
  refine vigilAtom_of fun s γ hI hγ => ⟨trivial, fun n s' r hs => ⟨_, ?_, rfl⟩⟩
  subst hγ
  cases hs
  exact vigilInv_setCount.mpr (CloseInv.finish hI hg)

/-! ## What does not concern the close -/

/-- Keeps a free role. -/
def restful (w : Side) : Act V → Bool
  | .blocked w' => decide (w' ≠ w)
  | a => calm w a

def restfulProc (w : Side) : Proc V → Bool
  | .tryPopLoop _ => true
  | .awaitPoll _ => decide (w = .not_empty)
  | .waitLoop w' _ => decide (w' ≠ w)
  | _ => false

abbrev Restful (w : Side) {α : Type} (p : M V α) : Prop :=
  p.Silent (fun a => restful w a = true) fun p => restfulProc w p = true

theorem wp_restful {α : Type} {p : M V α} {Q : α → Vigil → Prop} (hg : Free g)
    (hp : Restful w p) (hQ : ∀ a, Q a g) : (closeOutline N o w).wp t p Q g := by
  refine wp_silent (fun a ha => ?_) (fun p hp => ?_) hp hQ
  · cases a
    case blocked w' => exact vigilAtom_blockedOther (by simpa [restful] using ha) hg
    all_goals exact vigilAtom_calm ha
  · cases p with
    | tryPopLoop pos => exact ⟨hg, fun r g' h => h⟩
    | awaitPoll pos => exact ⟨⟨hg, by simpa [restfulProc] using hp⟩, fun r g' h => h⟩
    | waitLoop w' k =>
      have hne : w' ≠ w := by simpa [restfulProc] using hp
      refine ⟨?_, fun r g' h => ?_⟩
      · show if w' = w then _ else _
        rw [if_neg hne]; exact hg
      · have h' : if w' = w then Free g' else g' = g := h
        rwa [if_neg hne] at h'
    | _ => cases hp

section
omit [Inhabited V]

theorem restful_notify_one (w' : Side) : Restful (V := V) w (notify_one o w') := by
  have bump : Restful (V := V) w (bump_one w') :=
    .op rfl fun _ => .op rfl fun _ => trivial
  unfold notify_one
  split
  · exact bump
  · refine .op rfl fun n => ?_
    split
    · trivial
    · split
      · refine .op rfl fun p => ?_
        split
        · trivial
        · refine .op rfl fun p => ?_
          split
          · trivial
          · exact bump
      · exact bump

theorem restful_notify_all (w' : Side) : Restful (V := V) w (notify_all w') :=
  .op rfl fun _ => Prog.silent_op rfl

theorem restful_cancel_wait (w' : Side) : Restful (V := V) w (cancel_wait o w') := by
  unfold cancel_wait
  split
  · trivial
  · exact Prog.silent_op rfl

/-- After the epoch. -/
theorem restful_announce (w' : Side) (key : Nat) :
    Restful (V := V) w (if epochWake o w' then pure key
      else do
        op (.waitersAdd w')
        op (.pendingClear w')
        pure key) := by
  split
  · trivial
  · exact .op rfl fun _ => .op rfl fun _ => trivial

/-- After the wait. -/
theorem restful_depart (w' : Side) (woke : Bool) :
    Restful (V := V) w (if epochWake o w' then pure woke
      else do
        op (.waitersSub w')
        op (.pendingClear w')
        pure woke) := by
  split
  · trivial
  · exact .op rfl fun _ => .op rfl fun _ => trivial

theorem restful_waitLoop {w' : Side} (hw : w' ≠ w) (key : Nat) :
    Restful (V := V) w (waitLoop w' key) := by
  refine .op rfl fun e => ?_
  split
  · refine .op rfl fun late => ?_
    split
    · trivial
    · exact .seq (Prog.silent_op (by simp [restful, calm, hw])) fun _ =>
        .seq (Prog.silent_op (by simp [restful, hw])) fun _ =>
          Prog.silent_proc (by simp [restfulProc, hw])
  · trivial

theorem restful_wait {w' : Side} (hw : w' ≠ w) (key : Nat) :
    Restful (V := V) w (wait o w' key) :=
  .seq (Prog.silent_proc (by simp [restfulProc, hw])) fun woke => restful_depart w' woke

theorem restful_publish (pos : Nat) (v : V) : Restful w (publish o pos v) :=
  .op rfl fun _ => .op rfl fun _ => .seq (restful_notify_one _) fun _ => trivial

theorem restful_release (pos : Nat) : Restful (V := V) w (release N.n o pos) := by
  refine .op rfl fun _ => ?_
  split
  · trivial
  · split
    · refine .seq (.op rfl fun n => ?_) fun _ => trivial
      split
      · trivial
      · exact .seq (restful_notify_all _) fun _ => trivial
    · exact .seq (restful_notify_one _) fun _ => trivial

theorem restful_tryPopLoop (pos : Nat) : Restful (V := V) w (tryPopLoop N.n o pos) := by
  refine .op rfl fun raw => ?_
  split
  · refine .op rfl fun won => ?_
    cases won with
    | done =>
      dsimp only
      split
      · exact .op rfl fun _ => .op rfl fun _ => .seq (restful_release pos) fun _ => trivial
      · exact .seq (restful_release pos) fun _ => Prog.silent_proc rfl
    | found pos => exact Prog.silent_proc rfl
  · split
    · trivial
    · exact .op rfl fun _ => Prog.silent_proc rfl

theorem restful_try_pop : Restful (V := V) w try_pop :=
  .op rfl fun _ => Prog.silent_proc rfl

theorem restful_head_published (site : Site) : Restful (V := V) w (head_published site) :=
  .op rfl fun _ => .op rfl fun _ => trivial

theorem restful_spinPop (n : Nat) : Restful (V := V) w (spinPop n) := by
  induction n with
  | zero => trivial
  | succ n ih =>
    refine .seq (restful_head_published _) fun seen => ?_
    split
    · trivial
    · exact ih

theorem restful_handOff (v : V) : Restful w (handOff o v) := by
  refine .seq (restful_head_published _) fun more => ?_
  split
  · exact .seq (restful_notify_one _) fun _ => trivial
  · trivial

theorem restful_chain_full_wake : Restful (V := V) w (chain_full_wake o) := by
  refine .op rfl fun t => .op rfl fun seq => ?_
  split
  · exact .seq (restful_notify_one _) fun _ => trivial
  · trivial

/-- A ticket holder waits on `not_full_` only. -/
theorem restful_awaitPoll (hw : w = .not_empty) (pos : Nat) :
    Restful (V := V) w (awaitPoll o pos) := by
  subst hw
  refine .op rfl fun seq => ?_
  split
  · trivial
  · refine .seq (.op rfl fun key => restful_announce _ key) fun key =>
      .op rfl fun seq => ?_
    split
    · exact restful_cancel_wait _
    · exact .seq (restful_wait (by simp) key) fun _ => Prog.silent_proc rfl

theorem restful_awaitLook (hw : w = .not_empty) (pos n : Nat) :
    Restful (V := V) w (awaitLook pos n) := by
  subst hw
  induction n with
  | zero => exact Prog.silent_proc rfl
  | succ n ih =>
    refine .op rfl fun seq => ?_
    split
    · trivial
    · exact ih

end

/-! ## The event counts -/

theorem vigil_prepare_wait (w' : Side) (hg : Free g) :
    (closeOutline N o w).wp t (prepare_wait (V := V) o w')
      (fun k g' => Free g' ∧ (w' = w → g' = .keyed k)) g := by
  by_cases hw : w' = w
  · subst hw
    refine wp_op_seq (vigilAtom_key hg) fun k g' he => ?_
    subst he
    split
    · exact ⟨rfl, fun _ => rfl⟩
    · refine wp_op_seq (vigilAtom_calm rfl) fun _ g' he => ?_
      subst he
      refine wp_op_seq (vigilAtom_calm rfl) fun _ g' he => ?_
      subst he
      exact ⟨rfl, fun _ => rfl⟩
  · exact wp_restful hg (.op rfl fun key => restful_announce w' key)
      fun _ => ⟨hg, fun h => absurd h hw⟩

theorem vigil_waitLoop {k : Nat} (hg : Passing k g) :
    (closeOutline N o w).wp t (waitLoop (V := V) w k) (fun _ g' => Free g') g := by
  refine wp_op_seq (vigilAtom_waitLook hg) fun e g' h => ?_
  rcases h with ⟨rfl, rfl⟩ | ⟨hne, rfl⟩
  · rw [if_pos rfl]
    refine wp_op_seq (vigilAtom_late rfl) fun late g' h => ?_
    rcases h with ⟨rfl, rfl⟩ | ⟨rfl, rfl⟩
    · exact rfl
    · rw [if_neg (by simp)]
      refine wp_op_seq (vigilAtom_waitOn rfl) fun _ g' he => ?_
      subst he
      refine wp_op_seq (vigilAtom_blocked rfl) fun _ g' he => ?_
      subst he
      refine wp_proc ?_ fun _ g' h => ?_
      · show if w = w then _ else _
        rw [if_pos rfl]; exact .inr rfl
      · have h' : if w = w then Free g' else _ := h
        rwa [if_pos rfl] at h'
  · rw [if_neg hne]
    exact rfl

theorem vigil_wait {w' : Side} {k : Nat} (hg : Free g) (hp : w' = w → g = .passed k) :
    (closeOutline N o w).wp t (wait (V := V) o w' k) (fun _ g' => Free g') g := by
  by_cases hw : w' = w
  · subst hw
    refine wp_proc_seq ?_ fun woke g' h => ?_
    · show if w' = w' then _ else _
      rw [if_pos rfl]; exact .inl (hp rfl)
    · have h' : if w' = w' then Free g' else _ := h
      rw [if_pos rfl] at h'
      exact wp_restful h' (restful_depart w' woke) fun _ => h'
  · exact wp_restful hg (restful_wait hw k) fun _ => hg

/-! ## Producers -/

/-- What an attempt leaves: it may have seen the tail open, and did if it was
refused as full. -/
def Attempted (g : Vigil) (r : Push) (g' : Vigil) : Prop :=
  (g' = g ∨ g' = g.see) ∧ (r = .full → g' = g.see)

theorem Attempted.free {r : Push} {g' : Vigil} (h : Attempted g r g') (hg : Free g) :
    Free g' := by
  rcases h.1 with rfl | rfl
  · exact hg
  · exact Vigil.free_see hg

theorem vigil_tryPushLoop {v : V} {word : TailWord} (hg : Free g)
    (hw : word.closed = false → g.see = g) :
    (closeOutline N o w).wp t (tryPushLoop o v word)
      (fun r g' => g' = g ∧ (r = .full → g.see = g)) g := by
  unfold tryPushLoop
  cases hc : word.closed with
  | true => exact ⟨rfl, nofun⟩
  | false =>
    have hs := hw hc
    rw [if_neg (by simp)]
    refine wp_op_seq (vigilAtom_calm rfl) fun seq g' he => ?_
    subst he
    split
    · refine wp_op_seq (vigilAtom_calm rfl) fun won g' he => ?_
      subst he
      cases won with
      | done => exact wp_restful hg (restful_publish _ v) fun _ => ⟨rfl, fun _ => hs⟩
      | found word => exact wp_proc ⟨hg, fun _ => hs⟩ fun _ _ h => h
    · split
      · exact ⟨rfl, fun _ => hs⟩
      · refine wp_op_seq (vigilAtom_calm rfl) fun word g' he => ?_
        subst he
        exact wp_proc ⟨hg, fun _ => hs⟩ fun _ _ h => h

theorem vigil_try_push {v : V} (hg : Free g) :
    (closeOutline N o w).wp t (try_push v) (Attempted g) g := by
  refine wp_op_seq (vigilAtom_tailLoad hg) fun word g' he => ?_
  subst he
  cases hc : word.closed with
  | true =>
    refine wp_proc ⟨hg, by simp [hc]⟩ fun r g' h => ?_
    obtain ⟨rfl, hf⟩ := h
    exact ⟨.inl rfl, fun hr => (hf hr).symm⟩
  | false =>
    refine wp_proc ⟨Vigil.free_see hg, fun _ => g.see_see⟩ fun r g' h => ?_
    obtain ⟨rfl, -⟩ := h
    exact ⟨.inr rfl, fun _ => rfl⟩

theorem vigil_pushTicket {v : V} (hw : w = .not_empty) (hg : Free g) :
    (closeOutline N o w).wp t (pushTicket o v) (fun _ g' => Free g') g := by
  refine wp_restful hg (.op rfl fun word => ?_) fun _ => hg
  split
  · trivial
  · refine .op rfl fun word => .seq (restful_awaitLook hw _ _) fun _ => ?_
    split
    · exact .op rfl fun _ => trivial
    · exact restful_publish _ v

theorem vigil_pushLoop {v : V} {parked : Bool} (hg : Free g) :
    (closeOutline N o w).wp t (pushLoop o v parked) (fun _ g' => Free g') g := by
  -- the end of an attempt that was not refused as full
  have tail : ∀ {r : Push} {g' : Vigil}, Free g' →
      (closeOutline N o w).wp t (if parked = true ∧ r = .ok then (do
          chain_full_wake (V := V) o
          pure r)
        else pure r) (fun _ g' => Free g') g' := by
    intro r g' hg'
    split
    · exact wp_restful hg' (.seq restful_chain_full_wake fun _ => trivial) fun _ => hg'
    · exact hg'
  refine wp_seq (wp_mono (vigil_try_push hg) fun r g' h => ?_)
  have hg' := h.free hg
  split
  · exact tail hg'
  · refine wp_seq (wp_mono (vigil_prepare_wait .not_full hg') fun key g₁ h₁ => ?_)
    obtain ⟨hf, hk⟩ := h₁
    refine wp_seq (wp_mono (vigil_try_push hf) fun r g₂ h₂ => ?_)
    have hf₂ := h₂.free hf
    split
    · exact wp_seq (wp_restful hf₂ (restful_cancel_wait _) fun _ => tail hf₂)
    · rename_i hr
      obtain rfl := Decidable.not_not.mp hr
      refine wp_op_seq (vigilAtom_calm rfl) fun late g' he => ?_
      subst he
      split
      · exact wp_seq (wp_restful hf₂ (restful_cancel_wait _) fun _ => hf₂)
      · refine wp_seq (wp_mono (vigil_wait hf₂ fun hw => ?_) fun _ g' h => wp_proc h fun _ _ h => h)
        -- the attempt saw the tail open after the key
        rw [h₂.2 rfl, hk hw]
        rfl

theorem vigil_push {v : V} (hw : Strict o w) (hg : Free g) :
    (closeOutline N o w).wp t (push o v) (fun _ g' => Free g') g := by
  unfold push
  split
  · rename_i hr
    exact vigil_pushTicket (hw.resolve_right (by simp [hr])) hg
  · exact wp_proc hg fun _ _ h => h

/-! ## Consumers -/

theorem vigil_popAgain (hg : Free g) :
    (closeOutline N o w).wp t (popAgain (V := V)) (fun _ g' => Free g') g := by
  refine wp_op_seq (vigilAtom_calm rfl) fun late g' he => ?_
  subst he
  split
  · exact hg
  · exact wp_proc hg fun _ _ h => h

theorem vigil_popSleep (hg : Free g) :
    (closeOutline N o w).wp t (popSleep (V := V) o) (fun _ g' => Free g') g := by
  refine wp_seq (wp_mono (vigil_prepare_wait .not_empty hg) fun key g₁ h₁ => ?_)
  obtain ⟨hf, hk⟩ := h₁
  refine wp_seq (wp_restful hf restful_try_pop fun r => ?_)
  cases r with
  | ok v => exact wp_seq (wp_restful hf (restful_cancel_wait _) fun _ => hf)
  | _ =>
    refine wp_op_seq (vigilAtom_tailLoad hf) fun word g' he => ?_
    subst he
    cases hc : word.closed with
    | true =>
      exact wp_seq (wp_restful hf (restful_cancel_wait _) fun _ => wp_proc hf fun _ _ h => h)
    | false =>
      have hf' : Free g₁.see := Vigil.free_see hf
      refine wp_op_seq (vigilAtom_calm rfl) fun late g' he => ?_
      subst he
      split
      · exact wp_seq (wp_restful hf' (restful_cancel_wait _) fun _ => hf')
      · refine wp_seq (wp_mono (vigil_wait hf' fun hw => by rw [hk hw]; rfl) fun _ g' h => ?_)
        refine wp_seq (wp_restful h restful_try_pop fun r => ?_)
        cases r with
        | ok v => exact wp_restful h (restful_handOff v) fun _ => h
        | _ => exact wp_proc h fun _ _ h => h

theorem vigil_popLoop (hg : Free g) :
    (closeOutline N o w).wp t (popLoop (V := V) o) (fun _ g' => Free g') g := by
  have look : (closeOutline N o w).wp t (do
      let word ← op (V := V) .tailLoad
      if word.closed then do
        let h ← op .headLoad
        if h = word.pos then pure .drained else popAgain
      else if !o.park then popAgain
      else popSleep o) (fun _ g' => Free g') g := by
    refine wp_op_seq (vigilAtom_calm rfl) fun word g' he => ?_
    subst he
    split
    · refine wp_op_seq (vigilAtom_calm rfl) fun h g' he => ?_
      subst he
      split
      · exact hg
      · exact vigil_popAgain hg
    · split
      · exact vigil_popAgain hg
      · exact vigil_popSleep hg
  refine wp_seq (wp_restful hg restful_try_pop fun r => ?_)
  cases r with
  | ok v => exact hg
  | _ =>
    refine wp_seq (wp_restful hg (restful_spinPop _) fun _ => ?_)
    refine wp_seq (wp_restful hg restful_try_pop fun r => ?_)
    cases r with
    | ok v => exact hg
    | _ => exact look

/-! ## The close -/

theorem vigil_close (hg : Free g) :
    (closeOutline N o w).wp t (close (V := V)) (fun _ g' => g' = .finished) g := by
  refine wp_op_seq (vigilAtom_close hg) fun _ g' he => ?_
  subst he
  cases w with
  | not_empty =>
    refine wp_seq (wp_op_seq (vigilAtom_bump rfl) fun _ g' he => ?_)
    obtain ⟨m, rfl⟩ := he
    refine wp_op ((vigilAtom_finish rfl).mono fun _ g' he => ?_)
    subst he
    exact wp_restful rfl (restful_notify_all _) fun _ => rfl
  | not_full =>
    refine wp_seq (wp_op_seq (vigilAtom_calm rfl) fun _ g' he => ?_)
    subst he
    refine wp_op ((vigilAtom_calm rfl).mono fun _ g' he => ?_)
    subst he
    refine wp_op_seq (vigilAtom_bump rfl) fun _ g' he => ?_
    obtain ⟨m, rfl⟩ := he
    exact wp_op (vigilAtom_finish rfl)

/-! ## The outline -/

theorem vigil_body (p : Proc V) (h : vigilPre w p g) :
    (closeOutline N o w).wp t (body N.n o p) (vigilPost w p g) g := by
  cases p with
  | tryPushLoop v word => exact vigil_tryPushLoop h.1 h.2
  | pushLoop v parked => exact vigil_pushLoop h
  | awaitPoll pos => exact wp_restful h.1 (restful_awaitPoll h.2 pos) fun _ => rfl
  | tryPopLoop pos => exact wp_restful h (restful_tryPopLoop pos) fun _ => rfl
  | popLoop => exact vigil_popLoop h
  | waitLoop w' k =>
    by_cases hw : w' = w
    · subst hw
      simp only [vigilPre, if_pos] at h
      exact wp_mono (vigil_waitLoop h) fun _ _ h => by simpa only [vigilPost, if_pos] using h
    · simp only [vigilPre, if_neg hw] at h
      exact wp_restful h (restful_waitLoop hw k) fun _ => by simp only [vigilPost, if_neg hw]

theorem vigil_code (hw : Strict o w) (k : Call V) (hg : Free g) :
    (closeOutline N o w).wp t (code o k)
      (fun r g' => Free g' ∧ (r = .closed → g' = .finished)) g := by
  cases k with
  | try_push v => exact wp_seq (wp_mono (vigil_try_push hg) fun _ _ h => ⟨h.free hg, nofun⟩)
  | push v => exact wp_seq (wp_mono (vigil_push hw hg) fun _ _ h => ⟨h, nofun⟩)
  | try_pop => exact wp_seq (wp_restful hg restful_try_pop fun _ => ⟨hg, nofun⟩)
  | pop => exact wp_seq (wp_proc hg fun _ _ h => ⟨h, nofun⟩)
  | close => exact wp_seq (wp_mono (vigil_close hg) fun _ g' h => ⟨by rw [h]; rfl, fun _ => h⟩)

omit [Inhabited V] [DecidableEq Tid] in
theorem init_vigilInv : VigilInv w (State.init : State V Tid) fun _ => .out := by
  refine ⟨?_, nofun, nofun, nofun, ?_, ?_⟩ <;>
    simp [State.init, EventCount.init, Ledger.init]

theorem closeOutline_valid (hw : Strict o w) :
    (closeOutline N o w : Outline (queue V Tid N o)).Valid where
  init := ⟨_, init_vigilInv, fun _ => rfl⟩
  body t p g h := vigil_body p h
  call t k s γ hI hr _ := by
    refine ⟨γ t, ?_, wp_mono (vigil_code hw k hr) fun r g' hg s γ hI hγ => ⟨γ t, ?_, hγ ▸ hg.1⟩⟩
    · rw [upd_eq_self]; exact hI
    · rw [upd_eq_self]
      refine CloseInv.report hI ?_
      rintro ⟨id, hid⟩
      simp only [State.setLedger, State.setCore, Core.setLedger, Ledger.finish, upd_apply] at hid
      split at hid
      · cases hid
        exact .inr ⟨t, hγ.trans (hg.2 rfl)⟩
      · exact .inl ⟨id, hid⟩

end
end Katas.Turnstile.Cpp
