import Katas.Turnstile.Go.Ring
import Katas.Turnstile.LedgerSteps
import Katas.Core.Outline

/-!
# The Go ring keeps its ledger

The ledger's invariant at the Go ring, and the outline of every entry point
over it: what each operation of the ring needs of the stage of the goroutine
that does it, and the stage it leaves. The waiter's operations do not concern
it (`quiet`).
-/
namespace Katas.Turnstile.Go
open Katas.Conc Katas.SeqRing

/-- A slot's `val` always holds something. -/
def contents (V : Type) : Contents V V := ⟨fun x v => x = v, fun _ => True⟩

/-- May the call leave `v` in the slot it publishes? A `fill` that stores
nothing leaves what was there. -/
def Call.stores {V : Type} : Call V → V → Prop
  | .tryPush w, v | .push w, v | .pushTicket w, v => v = w
  | .tryPushFunc fill, v => ∀ w, fill.writes.getLast? = some w → v = w
  | _, _ => False

section
variable {V Tid : Type} [Inhabited V] [DecidableEq Tid] (N : Capacity) (o : Options)

abbrev RingRole (V : Type) := Role V (Call V)

structure RingInv (c : Core V Tid) (ρ : Tid → RingRole V) : Prop where
  base : c.ledger.Inv N.n (contents V) Call.stores c.val ρ
  closedAt : c.closedAt = 0 ∨ c.ledger.closePos = some (c.closedAt - 1)
  past : ∀ e p, c.ledger.closePos = some e → e ≤ p →
    c.ledger.lanes.phase p = .vacant ∨ c.ledger.lanes.phase p = .refused

/-- `t` holds the slot of `pos` to publish it. -/
def Writes (c : Core V Tid) (t : Tid) (pos : Nat) : Prop := c.ledger.Holds N.n t pos false

/-- `t` has claimed `pos`, published with a value, and not released it. -/
def Reads (c : Core V Tid) (t : Tid) (pos : Nat) : Prop :=
  c.ledger.Took t pos (.claimed false) ∧ c.seq N pos = ⟨pos + 1, false⟩

def Running (g : RingRole V) : Prop := ∃ k, g.call = some k

def Stores (g : RingRole V) (v : V) : Prop := ∃ k, g.call = some k ∧ k.stores v

/-- A push that holds a ticket for `pos`. -/
def Awaiting (g : RingRole V) (pos : Nat) : Prop :=
  (∃ v, Stores g v) ∧ g.stage = .waits pos false

/-- What a goroutine that does an operation has. -/
def ringNeed (t : Tid) (a : Act V) (s : State V Tid) (g : RingRole V) : Prop :=
  match a with
  | .valStore pos v => Writes N s.core t pos ∨
      Reads N s.core t pos ∧ v = default ∧ s.core.ledger.popped pos ≠ none
  | .valLoad pos => Reads N s.core t pos
  | .headCas pos => s.core.ledger.lanes.head = pos →
      ∃ d, s.core.ledger.lanes.phase pos = .published d
  | .seqLoad .awaitTurn pos => Awaiting g pos
  | _ => g.call ≠ none

def ringPre : Proc V → RingRole V → Prop
  | .claimLoop _, g => Running g ∧ g.stage = .none
  | .awaitPoll pos, g => Awaiting g pos
  | .pushLoop v _, g => Stores g v ∧ g.stage = .none
  | .tryPopLoop _, g => Running g ∧ g.stage = .none
  | .popLoop, g => Running g ∧ g.stage = .none
  | .notifyLoop _, g => Running g
  | .closeLoop _ _, g => Running g

/-- How `claim` leaves its caller. -/
def Claimed (g : RingRole V) : Claim → RingRole V → Prop
  | .pos p, g' => g' = g.into (.holds p false)
  | .no r, g' => g' = g ∧ (r = .full ∨ r = .closed)

/-- How `TryPop` leaves its caller. -/
def TryPopped (g : RingRole V) (r : Pop V) (g' : RingRole V) : Prop :=
  (∃ p v, r = .ok v ∧ g' = g.into (.took p v)) ∨ r = .empty ∧ g' = g

def ringPost : (p : Proc V) → RingRole V → Ret p → RingRole V → Prop
  | .claimLoop _, g, r, g' => Claimed g r g'
  | .awaitPoll pos, g, _, g' => g' = g.into (.holds pos false)
  | .pushLoop _ _, g, r, g' => g'.call = g.call ∧ Ledger.Returns g'.stage (.push r)
  | .tryPopLoop _, g, r, g' => TryPopped g r g'
  | .popLoop, g, r, g' => g'.call = g.call ∧ Ledger.Returns g'.stage (.pop r)
  | .notifyLoop _, g, _, g' => g' = g
  | .closeLoop _ _, g, _, g' => g' = g

abbrev ringOutline : Outline (ring V Tid N o) where
  G := RingRole V
  Inv s γ := RingInv N s.core γ
  need := ringNeed N
  ok _ _ _ := True
  rest _ g := g = ⟨none, .none⟩
  pre p _ g := ringPre p g
  post p _ g r g' := ringPost p g r g'

variable {N o} {t : Tid} {g : RingRole V}

/-! ## Operations that do not concern the ring -/

/-- Leaves the ring alone. -/
def quiet : Act V → Bool
  | .tailCas _ | .tailAdd | .tailOr | .headCas _ | .closedAtStore _ | .publish _ | .tombstone _
  | .release _ | .valStore _ _ | .valLoad _ | .seqLoad .awaitTurn _ => false
  | _ => true

omit [Inhabited V] in
theorem core_of_quiet {a : Act V} (ha : quiet a = true) {n : Nat} {s s' : State V Tid}
    {r : Resp a} (h : sem N o t a n s = some (s', r)) : s'.core = s.core := by
  unfold sem at h
  split at h <;> simp only [quiet, Bool.false_eq_true] at ha <;>
    grind [State.setWaiter, State.takeToken]

omit [Inhabited V] in
theorem Running.ne (h : Running g) : g.call ≠ none := by
  obtain ⟨k, hk⟩ := h; simp [hk]

/-- The rule for one operation, with the types written out. -/
theorem atom_of {a : Act V} {R : Resp a → RingRole V → Prop} (hg : Running g)
    (h : ∀ (s : State V Tid) (γ : Tid → RingRole V) k, RingInv N s.core γ → γ t = g →
      (γ t).call = some k → ringNeed N t a s g ∧ ∀ n s' r, sem N o t a n s = some (s', r) →
        ∃ g', RingInv N s'.core (upd γ t g') ∧ R r g') :
    (ringOutline N o).Atom t g a R := by
  intro s γ hI hγ
  obtain ⟨k, hk⟩ := hg
  obtain ⟨h1, h2⟩ := h s γ k hI hγ (by rw [← hk, ← hγ])
  exact ⟨h1, fun _ => h2⟩

theorem atom_quiet {a : Act V} (ha : quiet a = true) (hg : Running g) :
    (ringOutline N o).Atom t g a fun _ g' => g' = g := by
  refine atom_of hg fun s γ k hI hγ hk => ⟨?_, fun n s' r hs => ⟨g, ?_, rfl⟩⟩
  · cases a
    case seqLoad site pos => cases site <;> first | exact hg.ne | cases ha
    all_goals first | exact hg.ne | cases ha
  · rw [← hγ, upd_eq_self, core_of_quiet ha hs]
    exact hI

omit [Inhabited V] [DecidableEq Tid] in
/-- The stages change, the ring does not. -/
theorem RingInv.of_base {c : Core V Tid} {ρ ρ' : Tid → RingRole V} (h : RingInv N c ρ)
    (hb : c.ledger.Inv N.n (contents V) Call.stores c.val ρ') : RingInv N c ρ' :=
  ⟨hb, h.closedAt, h.past⟩

omit [Inhabited V] [DecidableEq Tid] in
/-- After an operation on a position reserved before the close, or on none. -/
theorem RingInv.of_step {c : Core V Tid} {ρ ρ' : Tid → RingRole V} (h : RingInv N c ρ)
    {l : Ledger V (Call V) Tid} {val : Nat → V}
    (hb : l.Inv N.n (contents V) Call.stores val ρ') (hc : l.closePos = c.ledger.closePos)
    (hp : ∀ p, l.lanes.phase p = c.ledger.lanes.phase p ∨ l.lanes.phase p = .refused ∨
      ∀ e, c.ledger.closePos = some e → p < e) : RingInv N ⟨l, c.closedAt, val⟩ ρ' := by
  refine ⟨hb, by simpa only [hc] using h.closedAt, fun e p he hle => ?_⟩
  rw [hc] at he
  rcases hp p with hp | hp | hp
  · simp only [hp]; exact h.past e p he hle
  · exact .inr hp
  · have := hp e he; omega

/-! ## Looking at a word -/

theorem atom_lookFree {pos : Nat} (hg : Running g) (hst : g.stage = .none) :
    (ringOutline N o).Atom t g (.seqLoad .claim pos) fun r g' =>
      r.stamp = pos ∧ g' = g.into (.sawFree pos) ∨ r.stamp ≠ pos ∧ g' = g := by
  refine atom_of hg fun s γ k hI hγ hk => ⟨hg.ne, fun n s' r hs => ?_⟩
  subst hγ
  simp only [sem, Option.some.injEq, Prod.mk.injEq] at hs
  obtain ⟨rfl, rfl⟩ := hs
  by_cases hp : (s.core.seq N pos).stamp = pos
  · refine ⟨_, ?_, .inl ⟨hp, rfl⟩⟩
    exact hI.of_base (Ledger.inv_sight hI.base hk (by rw [hst]; rfl) rfl fun _ => hp)
  · exact ⟨_, by rw [upd_eq_self]; exact hI, .inr ⟨hp, rfl⟩⟩

omit [Inhabited V] [DecidableEq Tid] in
/-- A word that shows `pos` published: it is, or someone has claimed it. -/
theorem RingInv.seen {c : Core V Tid} {ρ : Tid → RingRole V} (h : RingInv N c ρ) {pos : Nat}
    (hs : (c.seq N pos).stamp = pos + 1) :
    c.ledger.lanes.phase pos = .published (c.seq N pos).dead ∨ pos < c.ledger.lanes.head := by
  rcases h.base.lanes.stamp_succ hs with hp | hp
  · exact .inl hp
  · exact .inr ((h.base.lanes.head pos).mp (by rw [hp]; rfl))

theorem atom_lookPub {pos : Nat} (hg : Running g) (hst : g.stage = .none) :
    (ringOutline N o).Atom t g (.seqLoad .tryPop pos) fun r g' =>
      r.stamp = pos + 1 ∧ g' = g.into (.sawPub pos r.dead) ∨ r.stamp ≠ pos + 1 ∧ g' = g := by
  refine atom_of hg fun s γ k hI hγ hk => ⟨hg.ne, fun n s' r hs => ?_⟩
  subst hγ
  simp only [sem, Option.some.injEq, Prod.mk.injEq] at hs
  obtain ⟨rfl, rfl⟩ := hs
  by_cases hp : (s.core.seq N pos).stamp = pos + 1
  · refine ⟨_, ?_, .inl ⟨hp, rfl⟩⟩
    exact hI.of_base (Ledger.inv_sight hI.base hk (by rw [hst]; rfl) rfl (hI.seen hp))
  · exact ⟨_, by rw [upd_eq_self]; exact hI, .inr ⟨hp, rfl⟩⟩

omit [Inhabited V] in
theorem Stores.running {v : V} (h : Stores g v) : Running g := by
  obtain ⟨k, hk, -⟩ := h; exact ⟨k, hk⟩

theorem atom_lookTurn {pos : Nat} (hg : Awaiting g pos) :
    (ringOutline N o).Atom t g (.seqLoad .awaitTurn pos) fun r g' =>
      r = ⟨pos, false⟩ ∧ g' = g.into (.holds pos false) ∨ r ≠ ⟨pos, false⟩ ∧ g' = g := by
  obtain ⟨⟨v, hv⟩, hst⟩ := hg
  refine atom_of hv.running fun s γ k hI hγ hk => ⟨⟨⟨v, hv⟩, hst⟩, fun n s' r hs => ?_⟩
  subst hγ
  simp only [sem, Option.some.injEq, Prod.mk.injEq] at hs
  obtain ⟨rfl, rfl⟩ := hs
  by_cases hp : s.core.seq N pos = ⟨pos, false⟩
  · refine ⟨_, ?_, .inl ⟨hp, rfl⟩⟩
    exact hI.of_base (Ledger.inv_arrive hI.base hk hst (congrArg SeqWord.stamp hp))
  · exact ⟨_, by rw [upd_eq_self]; exact hI, .inr ⟨hp, rfl⟩⟩

theorem atom_lookEnd (hg : Running g) (hst : g.stage = .none) :
    (ringOutline N o).Atom t g .closedAtLoad fun r g' =>
      r = 0 ∧ g' = g ∨ r ≠ 0 ∧ g' = g.into (.sawEnd (r - 1)) := by
  refine atom_of hg fun s γ k hI hγ hk => ⟨hg.ne, fun n s' r hs => ?_⟩
  subst hγ
  simp only [sem, Option.some.injEq, Prod.mk.injEq] at hs
  obtain ⟨rfl, rfl⟩ := hs
  by_cases hp : s.core.closedAt = 0
  · exact ⟨_, by rw [upd_eq_self]; exact hI, .inl ⟨hp, rfl⟩⟩
  · refine ⟨_, ?_, .inr ⟨hp, rfl⟩⟩
    have he := hI.closedAt.resolve_left hp
    exact hI.of_base (Ledger.inv_sight hI.base hk (by rw [hst]; rfl) rfl ⟨_, he, Nat.le_refl _⟩)

theorem atom_lookHead {e : Nat} (hg : Running g) (hst : g.stage = .sawEnd e) :
    (ringOutline N o).Atom t g .headLoad fun r g' =>
      r = e ∧ g' = g.into .atEnd ∨ r ≠ e ∧ g' = g.into .none := by
  refine atom_of hg fun s γ k hI hγ hk => ⟨hg.ne, fun n s' r hs => ?_⟩
  subst hγ
  simp only [sem, Option.some.injEq, Prod.mk.injEq] at hs
  obtain ⟨rfl, rfl⟩ := hs
  by_cases hp : s.core.ledger.lanes.head = e
  · refine ⟨_, hI.of_base (Ledger.inv_sight hI.base hk (by rw [hst]; rfl) rfl ?_),
      .inl ⟨hp, rfl⟩⟩
    have hsit := (hI.base.sits hk).2
    rw [hst] at hsit
    obtain ⟨e', h1, h2⟩ := hsit
    exact ⟨e', h1, by omega⟩
  · exact ⟨_, hI.of_base (Ledger.inv_forget hI.base hk (by rw [hst]; rfl)),
      .inr ⟨hp, rfl⟩⟩

/-! ## The tail -/

theorem atom_tailCas {word : TailWord} (hg : Running g) (hst : g.stage = .sawFree word.pos)
    (hw : word.closed = false) :
    (ringOutline N o).Atom t g (.tailCas word) fun r g' =>
      r = true ∧ g' = g.into (.holds word.pos false) ∨ r = false ∧ g' = g.into .none := by
  refine atom_of hg fun s γ k hI hγ hk => ⟨hg.ne, fun n s' r hs => ?_⟩
  subst hγ
  simp only [sem] at hs
  split at hs <;> simp only [Option.some.injEq, Prod.mk.injEq] at hs <;> obtain ⟨rfl, rfl⟩ := hs
  · rename_i hword
    refine ⟨_, ?_, .inl ⟨rfl, rfl⟩⟩
    have hpos : word.pos = s.core.ledger.lanes.tail := by rw [← hword]; rfl
    have hcl : s.core.ledger.closed = false := by rw [← hw, ← hword]; rfl
    have hsit := (hI.base.sits hk).2
    rw [hst, hpos] at hsit
    have hv := (hI.base.lanes.tail _).mpr (Nat.le_refl s.core.ledger.lanes.tail)
    have h1 := Ledger.inv_reserve hI.base hk (by rw [hst]; rfl)
    rw [hcl] at h1
    have hst1 : (upd γ t ((γ t).into (.waits s.core.ledger.lanes.tail false)) t).stage =
        .waits s.core.ledger.lanes.tail false := by simp
    have h2 := Ledger.inv_arrive h1 (by simpa using hk) hst1 (hsit hv)
    simp only [upd_self, upd_upd, Role.into_into] at h2
    rw [hpos]
    refine hI.of_step h2 rfl fun p => ?_
    by_cases hp : p = s.core.ledger.lanes.tail
    · exact .inr (.inr fun e he => by simp [hI.base.end_of_open hcl] at he)
    · exact .inl (by simp [Ledger.reserve, Lanes.reserve, hp])
  · exact ⟨_, hI.of_base (Ledger.inv_forget hI.base hk (by rw [hst]; rfl)),
      .inr ⟨rfl, rfl⟩⟩

theorem atom_tailAdd (hg : Running g) (hst : g.stage = .none) :
    (ringOutline N o).Atom t g .tailAdd fun r g' =>
      r.closed = true ∧ g' = g ∨ r.closed = false ∧ g' = g.into (.waits r.pos false) := by
  refine atom_of hg fun s γ k hI hγ hk => ⟨hg.ne, fun n s' r hs => ?_⟩
  subst hγ
  simp only [sem, Option.some.injEq, Prod.mk.injEq] at hs
  obtain ⟨rfl, rfl⟩ := hs
  cases hcl : s.core.ledger.closed with
  | true =>
    refine ⟨_, ?_, .inl ⟨hcl, rfl⟩⟩
    rw [upd_eq_self, if_pos rfl]
    refine hI.of_step (Ledger.inv_refuse hI.base hcl) rfl fun p => ?_
    by_cases hp : p = s.core.ledger.lanes.tail
    · exact .inr (.inl (by simp [Ledger.refuse, Lanes.reserve, hp]))
    · exact .inl (by simp [Ledger.refuse, Lanes.reserve, hp])
  | false =>
    refine ⟨_, ?_, .inr ⟨hcl, rfl⟩⟩
    have h1 := Ledger.inv_reserve hI.base hk (by rw [hst]; rfl)
    rw [hcl] at h1
    simp only [Bool.false_eq_true, if_false]
    refine hI.of_step h1 rfl fun p => ?_
    by_cases hp : p = s.core.ledger.lanes.tail
    · exact .inr (.inr fun e he => by simp [hI.base.end_of_open hcl] at he)
    · exact .inl (by simp [Ledger.reserve, Lanes.reserve, hp])

theorem atom_tailOr (hg : Running g) (hst : g.stage = .none) :
    (ringOutline N o).Atom t g .tailOr fun r g' =>
      r.closed = true ∧ g' = g ∨ r.closed = false ∧ g' = g.into (.closing r.pos) := by
  refine atom_of hg fun s γ k hI hγ hk => ⟨hg.ne, fun n s' r hs => ?_⟩
  subst hγ
  simp only [sem, Option.some.injEq, Prod.mk.injEq] at hs
  obtain ⟨rfl, rfl⟩ := hs
  have h1 := Ledger.inv_setClosed hI.base hk (by rw [hst]; rfl)
  cases hcl : s.core.ledger.closed with
  | true =>
    refine ⟨_, ⟨h1, ?_, ?_⟩, .inl ⟨hcl, by simp [hcl, Role.into_self hst]⟩⟩
    · simpa [State.setLedger, Ledger.setClosed, hcl] using hI.closedAt
    · simpa [State.setLedger, Ledger.setClosed, hcl] using hI.past
  | false =>
    refine ⟨_, ⟨h1, ?_, ?_⟩, .inr ⟨hcl, by simp [hcl, Ledger.tailWord]⟩⟩
    · exact hI.closedAt.imp id fun he => by simp [hI.base.end_of_open hcl] at he
    · intro e p he hle
      simp only [State.setLedger, Ledger.setClosed, hcl] at he
      exact .inl ((hI.base.lanes.tail p).mpr (by simp at he; omega))

theorem atom_closedAtStore {e : Nat} (hg : Running g) (hst : g.stage = .closing e) :
    (ringOutline N o).Atom t g (.closedAtStore (e + 1)) fun _ g' => g' = g.into .none := by
  refine atom_of hg fun s γ k hI hγ hk => ⟨hg.ne, fun n s' r hs => ?_⟩
  subst hγ
  simp only [sem, Option.some.injEq, Prod.mk.injEq] at hs
  obtain ⟨rfl, -⟩ := hs
  have hsit := (hI.base.sits hk).2
  rw [hst] at hsit
  exact ⟨_, ⟨Ledger.inv_forget hI.base hk (by rw [hst]; rfl), .inr hsit, hI.past⟩, rfl⟩

/-! ## A slot -/

/-- Holding the slot of `pos`, whatever is in it. -/
def AtSlot (g : RingRole V) (pos : Nat) : Prop :=
  g.stage = .holds pos false ∨ ∃ v, g.stage = .filled pos v

omit [DecidableEq Tid] [Inhabited V] in
theorem AtSlot.holds {c : Core V Tid} {ρ : Tid → RingRole V} {k : Call V} {pos : Nat}
    (h : RingInv N c ρ) (hk : (ρ t).call = some k) (hst : AtSlot (ρ t) pos) : Writes N c t pos := by
  have hsit := (h.base.sits hk).2
  rcases hst with hst | ⟨v, hst⟩ <;> rw [hst] at hsit <;> exact hsit.1

omit [Inhabited V] in
theorem AtSlot.owes {pos : Nat} (hst : AtSlot g pos) : g.stage.owes = some pos := by
  rcases hst with hst | ⟨v, hst⟩ <;> rw [hst] <;> rfl

omit [Inhabited V] [DecidableEq Tid] in
/-- A position `t` holds was reserved before the close. -/
theorem Writes.phase_eq {c : Core V Tid} {pos : Nat} (h : Writes N c t pos) {d : Bool} (p : Nat) :
    (c.ledger.lanes.publish N.n pos d).phase p = c.ledger.lanes.phase p ∨
      (c.ledger.lanes.publish N.n pos d).phase p = .refused ∨
      ∀ e, c.ledger.closePos = some e → p < e := by
  by_cases hp : p = pos
  · subst hp; exact .inr (.inr h.late)
  · exact .inl (by simp [Lanes.publish, hp])

/-- A store by the goroutine that is to publish the slot. `st` is what it
knows of it afterwards. -/
theorem atom_valStore {pos : Nat} {v : V} {st : Stage V} (hg : Running g) (hst : AtSlot g pos)
    (hst' : st = .holds pos false ∨ st = .filled pos v ∧ Stores g v) :
    (ringOutline N o).Atom t g (.valStore pos v) fun _ g' => g' = g.into st := by
  refine atom_of hg fun s γ k hI hγ hk => ?_
  subst hγ
  have hw := hst.holds hI hk
  refine ⟨.inl hw, fun n s' r hs => ?_⟩
  simp only [sem, Option.some.injEq, Prod.mk.injEq] at hs
  obtain ⟨rfl, -⟩ := hs
  refine ⟨_, hI.of_step (Ledger.inv_fill hI.base hk hw hst.owes ?_ ?_ (.inl trivial)) rfl
    fun p => .inl rfl, rfl⟩
  · rcases hst' with rfl | ⟨rfl, -⟩ <;> rfl
  · rcases hst' with rfl | ⟨rfl, hv⟩
    · exact ⟨hw, trivial⟩
    · obtain ⟨k', hk', hv⟩ := hv
      rw [hk] at hk'
      cases hk'
      exact ⟨hw, by simp [contents], hv⟩

/-- What a call that stores nothing finds in the slot is what it leaves. -/
theorem atom_publish {pos : Nat} (hg : Running g)
    (hst : g.stage = .holds pos false ∧ (∀ v, Stores g v) ∨ ∃ v, g.stage = .filled pos v) :
    (ringOutline N o).Atom t g (.publish pos) fun _ g' => ∃ v, g' = g.into (.pushed pos v) := by
  refine atom_of hg fun s γ k hI hγ hk => ⟨hg.ne, fun n s' r hs => ?_⟩
  subst hγ
  simp only [sem, Option.some.injEq, Prod.mk.injEq] at hs
  obtain ⟨rfl, -⟩ := hs
  have hat : AtSlot (γ t) pos := hst.imp And.left id
  have hw := hat.holds hI hk
  have hfill : s.core.ledger.Inv N.n (contents V) Call.stores s.core.val
      (upd γ t ((γ t).into (.filled pos (s.core.slotVal N pos)))) := by
    refine Ledger.inv_restage hI.base hk ?_ ?_ ?_ ?_ ⟨hw, rfl, ?_⟩ fun _ _ _ => trivial
    any_goals rcases hst with ⟨hst, -⟩ | ⟨v, hst⟩ <;> rw [hst] <;> rfl
    rcases hst with ⟨-, hv⟩ | ⟨v, hst⟩
    · obtain ⟨k', hk', hv⟩ := hv (s.core.slotVal N pos)
      rw [hk] at hk'
      cases hk'; exact hv
    · have hsit := (hI.base.sits hk).2
      rw [hst] at hsit
      obtain ⟨-, hf, hv⟩ := hsit
      have : s.core.slotVal N pos = v := hf
      rw [this]; exact hv
  have hst1 : (upd γ t ((γ t).into (.filled pos (s.core.slotVal N pos))) t).stage =
      .filled pos (s.core.slotVal N pos) := by simp
  have h2 := Ledger.inv_publish hfill (by simpa using hk) hst1
  simp only [upd_self, upd_upd, Role.into_into] at h2
  exact ⟨_, hI.of_step h2 rfl fun p => hw.phase_eq p, _, rfl⟩

theorem atom_tombstone {pos : Nat} (hg : Running g) (hst : AtSlot g pos) :
    (ringOutline N o).Atom t g (.tombstone pos) fun _ g' => g' = g.into (.buried pos false) := by
  refine atom_of hg fun s γ k hI hγ hk => ⟨hg.ne, fun n s' r hs => ?_⟩
  subst hγ
  simp only [sem, Option.some.injEq, Prod.mk.injEq] at hs
  obtain ⟨rfl, -⟩ := hs
  have hw := hst.holds hI hk
  have hhold : s.core.ledger.Inv N.n (contents V) Call.stores s.core.val
      (upd γ t ((γ t).into (.holds pos false))) := by
    refine Ledger.inv_restage hI.base hk ?_ ?_ ?_ ?_ ⟨hw, trivial⟩ fun _ _ _ => trivial
    all_goals rcases hst with hst | ⟨v, hst⟩ <;> rw [hst] <;> rfl
  have hst1 : (upd γ t ((γ t).into (.holds pos false)) t).stage = .holds pos false := by simp
  have h2 := Ledger.inv_bury hhold (by simpa using hk) hst1
  simp only [upd_self, upd_upd, Role.into_into] at h2
  exact ⟨_, hI.of_step h2 rfl fun p => hw.phase_eq p, rfl⟩

/-! ## The head -/

omit [Inhabited V] [DecidableEq Tid] in
/-- A position in use was reserved before the close. -/
theorem RingInv.before {c : Core V Tid} {ρ : Tid → RingRole V} (h : RingInv N c ρ) {pos : Nat}
    (hv : c.ledger.lanes.phase pos ≠ .vacant) (hr : c.ledger.lanes.phase pos ≠ .refused) (e : Nat)
    (he : c.ledger.closePos = some e) : pos < e :=
  Nat.lt_of_not_le fun hle => (h.past e pos he hle).elim hv hr

theorem atom_headCas {pos : Nat} {d : Bool} (hg : Running g) (hst : g.stage = .sawPub pos d) :
    (ringOutline N o).Atom t g (.headCas pos) fun r g' =>
      r = true ∧ g' = g.into (Ledger.claimStage pos d) ∨ r = false ∧ g' = g.into .none := by
  refine atom_of hg fun s γ k hI hγ hk => ?_
  subst hγ
  have hsit := (hI.base.sits hk).2
  rw [hst] at hsit
  refine ⟨fun hp => ⟨d, hsit.resolve_right (by omega)⟩, fun n s' r hs => ?_⟩
  simp only [sem] at hs
  split at hs <;> simp only [Option.some.injEq, Prod.mk.injEq] at hs <;> obtain ⟨rfl, rfl⟩ := hs
  · rename_i hp
    subst hp
    have hph := hsit.resolve_right (by omega)
    have hw := hI.base.lanes.shown _ d (.inl hph)
    have hd : (s.core.seq N s.core.ledger.lanes.head).dead = d := by simp [Core.seq, hw]
    rw [hd]
    refine ⟨_, hI.of_step (Ledger.inv_claim hI.base hk hst) rfl fun p => ?_, .inl ⟨rfl, rfl⟩⟩
    by_cases hp : p = s.core.ledger.lanes.head
    · subst hp
      exact .inr (.inr (hI.before (by simp [hph]) (by simp [hph])))
    · exact .inl (by simp [Ledger.claim, Lanes.claim, hp])
  · exact ⟨_, hI.of_base (Ledger.inv_forget hI.base hk (by rw [hst]; rfl)), .inr ⟨rfl, rfl⟩⟩

omit [Inhabited V] [DecidableEq Tid] in
/-- A claimed position was published, so it was reserved before the close. -/
theorem RingInv.release_phase {c : Core V Tid} {ρ : Tid → RingRole V} (h : RingInv N c ρ)
    {pos : Nat} {d : Bool} (hp : c.ledger.lanes.phase pos = .claimed d) (p : Nat) :
    (c.ledger.release N.n pos).lanes.phase p = c.ledger.lanes.phase p ∨
      (c.ledger.release N.n pos).lanes.phase p = .refused ∨
      ∀ e, c.ledger.closePos = some e → p < e := by
  by_cases hpp : p = pos
  · subst hpp
    exact .inr (.inr (h.before (by simp [hp]) (by simp [hp])))
  · exact .inl (by simp [Ledger.release, Lanes.release, hpp])

theorem atom_releaseDead {pos : Nat} (hg : Running g) (hst : g.stage = .skipping pos) :
    (ringOutline N o).Atom t g (.release pos) fun _ g' => g' = g.into .none := by
  refine atom_of hg fun s γ k hI hγ hk => ⟨hg.ne, fun n s' r hs => ?_⟩
  subst hγ
  simp only [sem, Option.some.injEq, Prod.mk.injEq] at hs
  obtain ⟨rfl, -⟩ := hs
  have hsit := (hI.base.sits hk).2
  rw [hst] at hsit
  exact ⟨_, hI.of_step (Ledger.inv_release hI.base hk hsit.1 trivial (.inl ⟨hst, rfl, rfl⟩)) rfl
    (hI.release_phase hsit.1.phase), rfl⟩

theorem atom_release {pos : Nat} {v : V} (hg : Running g)
    (hst : g.stage = .copied pos v ∨ g.stage = .cleared pos v) :
    (ringOutline N o).Atom t g (.release pos) fun _ g' => g' = g.into (.took pos v) := by
  refine atom_of hg fun s γ k hI hγ hk => ⟨hg.ne, fun n s' r hs => ?_⟩
  subst hγ
  simp only [sem, Option.some.injEq, Prod.mk.injEq] at hs
  obtain ⟨rfl, -⟩ := hs
  have htook : s.core.ledger.Took t pos (.claimed false) ∧ s.core.ledger.popped pos = some v := by
    have hsit := (hI.base.sits hk).2
    rcases hst with hst | hst <;> rw [hst] at hsit <;> exact ⟨hsit.1, hsit.2.1⟩
  have hclear : s.core.ledger.Inv N.n (contents V) Call.stores s.core.val
      (upd γ t ((γ t).into (.cleared pos v))) := by
    refine Ledger.inv_restage hI.base hk ?_ ?_ ?_ ?_ ⟨htook.1, htook.2, trivial⟩
      fun _ _ _ => trivial
    all_goals rcases hst with hst | hst <;> rw [hst] <;> rfl
  have hst1 : (upd γ t ((γ t).into (.cleared pos v)) t).stage = .cleared pos v := by simp
  have h2 := Ledger.inv_release hclear (by simpa using hk) htook.1 trivial
    (.inr ⟨v, hst1, rfl, rfl, htook.2⟩)
  simp only [upd_self, upd_upd, Role.into_into] at h2
  exact ⟨_, hI.of_step h2 rfl (hI.release_phase htook.1.phase), rfl⟩

omit [Inhabited V] [DecidableEq Tid] in
theorem RingInv.reads {c : Core V Tid} {ρ : Tid → RingRole V} (h : RingInv N c ρ) {pos : Nat}
    (ht : c.ledger.Took t pos (.claimed false)) : Reads N c t pos :=
  ⟨ht, h.base.lanes.shown pos false (.inr ht.phase)⟩

theorem atom_valLoad {pos : Nat} (hg : Running g) (hst : g.stage = .claimed pos) :
    (ringOutline N o).Atom t g (.valLoad pos) fun r g' => g' = g.into (.copied pos r) := by
  refine atom_of hg fun s γ k hI hγ hk => ?_
  subst hγ
  have hsit := (hI.base.sits hk).2
  rw [hst] at hsit
  obtain ⟨ht, v, hv, hf⟩ := hsit
  have hval : s.core.slotVal N pos = v := hf
  refine ⟨hI.reads ht, fun n s' r hs => ?_⟩
  simp only [sem, Option.some.injEq, Prod.mk.injEq] at hs
  obtain ⟨rfl, rfl⟩ := hs
  exact ⟨_, hI.of_step (Ledger.inv_copy hI.base hk hst (by rw [hval]; exact hv) rfl) rfl
    fun p => .inl rfl, rfl⟩

/-- A consumer zeroes the slot it has copied. -/
theorem atom_valZero {pos : Nat} {v : V} (hg : Running g) (hst : g.stage = .copied pos v) :
    (ringOutline N o).Atom t g (.valStore pos default) fun _ g' => g' = g.into (.cleared pos v) := by
  refine atom_of hg fun s γ k hI hγ hk => ?_
  subst hγ
  have hsit := (hI.base.sits hk).2
  rw [hst] at hsit
  obtain ⟨ht, hv, hf⟩ := hsit
  refine ⟨.inr ⟨hI.reads ht, rfl, by simp [hv]⟩, fun n s' r hs => ?_⟩
  simp only [sem, Option.some.injEq, Prod.mk.injEq] at hs
  obtain ⟨rfl, -⟩ := hs
  exact ⟨_, hI.of_step (Ledger.inv_clear hI.base hk hst trivial) rfl fun p => .inl rfl, rfl⟩

end
end Katas.Turnstile.Go
