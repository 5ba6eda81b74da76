import Katas.Turnstile.Cpp.Queue
import Katas.Turnstile.LedgerSteps
import Katas.Core.Outline

/-!
# The C++ queue keeps its ledger

The ledger's invariant at the C++ queue, with what it adds: the lifetimes of
the objects, and which positions were reserved with the closed bit clear.
Then what each operation of the queue needs of the stage of the thread that
does it, and the stage it leaves. The event counts do not concern it
(`quiet`).
-/
namespace Katas.Turnstile.Cpp
open Katas.Conc Katas.SeqRing

/-- A slot's storage holds an object or none. -/
def contents (V : Type) : Contents (Option V) V := ⟨fun x v => x = some v, fun x => x = none⟩

def Call.stores {V : Type} : Call V → V → Prop
  | .try_push w, v | .push w, v => v = w
  | _, _ => False

section
variable {V Tid : Type} [Inhabited V] [DecidableEq Tid] (N : Capacity) (o : Options)

abbrev QueueRole (V : Type) := Role V (Call V)

/-! ## Lifetimes -/

/-- An object was constructed for `p`. -/
def Built (l : Ledger V (Call V) Tid) (ρ : Tid → QueueRole V) (p : Nat) : Prop :=
  (l.pushed p).isSome = true ∨ ∃ t v, (ρ t).stage = .filled p v

/-- The object constructed for `p` was destroyed. -/
def Razed (l : Ledger V (Call V) Tid) (ρ : Tid → QueueRole V) (p : Nat) : Prop :=
  l.lanes.phase p = .released false ∨ ∃ t v, (ρ t).stage = .cleared p v

structure Lives (l : Ledger V (Call V) Tid) (built razed : Nat → Nat) (ρ : Tid → QueueRole V) :
    Prop where
  built : ∀ p, Built l ρ p ∧ built p = 1 ∨ ¬ Built l ρ p ∧ built p = 0
  razed : ∀ p, Razed l ρ p ∧ razed p = 1 ∨ ¬ Razed l ρ p ∧ razed p = 0

/-- Between the construction and the publication, or the destruction and the
release. -/
def between : Stage V → Bool
  | .filled _ _ | .cleared _ _ => true
  | _ => false

variable {l l' : Ledger V (Call V) Tid} {built razed : Nat → Nat} {ρ : Tid → QueueRole V}
  {t : Tid} {p : Nat} {v : V} {st : Stage V}

section
omit [Inhabited V]

theorem Lives.keep (h : Lives l built razed ρ)
    (hp : ∀ p, (l'.pushed p).isSome = (l.pushed p).isSome)
    (hr : ∀ p, l'.lanes.phase p = .released false ↔ l.lanes.phase p = .released false)
    (h0 : between (ρ t).stage = false) (h1 : between st = false) :
    Lives l' built razed (upd ρ t ((ρ t).into st)) := by
  obtain ⟨ρ', hρ', e1, e2, e3⟩ := upd_spec ρ t ((ρ t).into st)
  rw [hρ']
  have hb : ∀ p, Built l' ρ' p ↔ Built l ρ p := by
    intro p
    unfold Built
    rw [hp]
    grind [between, Role.into_stage]
  have hz : ∀ p, Razed l' ρ' p ↔ Razed l ρ p := by
    intro p
    unfold Razed
    rw [hr]
    grind [between, Role.into_stage]
  exact ⟨fun p => by rw [hb]; exact h.built p, fun p => by rw [hz]; exact h.razed p⟩

theorem Lives.construct (h : Lives l built razed ρ) (hst : (ρ t).stage = .holds p false)
    (hno : ¬ Built l ρ p) :
    Lives l (upd built p (built p + 1)) razed (upd ρ t ((ρ t).into (.filled p v))) := by
  obtain ⟨ρ', hρ', e1, e2, e3⟩ := upd_spec ρ t ((ρ t).into (.filled p v))
  rw [hρ']
  have h1 := h.built
  have h2 := h.razed
  refine ⟨fun q => ?_, fun q => ?_⟩
  · have := h1 q
    simp only [Built, upd_apply] at *
    grind [Role.into_stage]
  · have := h2 q
    simp only [Razed] at *
    grind [Role.into_stage]

theorem Lives.publish (h : Lives l built razed ρ) (hst : (ρ t).stage = .filled p v)
    (hno : l.lanes.phase p ≠ .released false) :
    Lives (l.publish N.n p v) built razed (upd ρ t ((ρ t).into (.pushed p v))) := by
  obtain ⟨ρ', hρ', e1, e2, e3⟩ := upd_spec ρ t ((ρ t).into (.pushed p v))
  rw [hρ']
  have h1 := h.built
  have h2 := h.razed
  refine ⟨fun q => ?_, fun q => ?_⟩
  · have := h1 q
    simp only [Built, Ledger.publish, upd_apply] at *
    grind [Role.into_stage]
  · have := h2 q
    simp only [Razed, Ledger.publish, Lanes.publish, upd_apply] at *
    grind [Role.into_stage]

theorem Lives.destroy (h : Lives l built razed ρ) (hst : (ρ t).stage = .copied p v)
    (hno : ¬ Razed l ρ p) :
    Lives l built (upd razed p (razed p + 1)) (upd ρ t ((ρ t).into (.cleared p v))) := by
  obtain ⟨ρ', hρ', e1, e2, e3⟩ := upd_spec ρ t ((ρ t).into (.cleared p v))
  rw [hρ']
  have h1 := h.built
  have h2 := h.razed
  refine ⟨fun q => ?_, fun q => ?_⟩
  · have := h1 q
    simp only [Built] at *
    grind [Role.into_stage]
  · have := h2 q
    simp only [Razed, upd_apply] at *
    grind [Role.into_stage]

theorem Lives.release (h : Lives l built razed ρ) (hst : (ρ t).stage = .cleared p v)
    (hp : l.lanes.phase p = .claimed false) :
    Lives (l.release N.n p) built razed (upd ρ t ((ρ t).into (.took p v))) := by
  obtain ⟨ρ', hρ', e1, e2, e3⟩ := upd_spec ρ t ((ρ t).into (.took p v))
  rw [hρ']
  have h1 := h.built
  have h2 := h.razed
  refine ⟨fun q => ?_, fun q => ?_⟩
  · have := h1 q
    simp only [Built, Ledger.release] at *
    grind [Role.into_stage]
  · have := h2 q
    simp only [Razed, Ledger.release, Lanes.release, upd_apply] at *
    grind [Role.into_stage, Phase.isDead]

end

/-! ## The invariant -/

structure QueueInv (c : Core V Tid) (ρ : Tid → QueueRole V) : Prop where
  base : c.ledger.Inv N.n (contents V) Call.stores c.storage ρ
  lives : Lives c.ledger c.built c.razed ρ
  openAt : ∀ p, c.ledger.reservedBy p ≠ none → Turnstile.Late c.ledger.closePos p (!c.openAt p)
  dead : ∀ p, (c.ledger.lanes.phase p).isDead = true → c.openAt p = false
  used : ∀ p, c.ledger.lanes.phase p ≠ .refused

/-- `t` holds the slot of `pos` to publish it. -/
def Writes (c : Core V Tid) (t : Tid) (pos : Nat) (late : Bool) : Prop :=
  c.ledger.Holds N.n t pos late ∧ c.object N pos = none

/-- `t` has claimed `pos`, published with an object, which lives. -/
def Reads (c : Core V Tid) (t : Tid) (pos : Nat) : Prop :=
  c.ledger.Took t pos (.claimed false) ∧ ∃ v, c.ledger.pushed pos = some v ∧
    c.object N pos = some v

def Running (g : QueueRole V) : Prop := ∃ k, g.call = some k

def Stores (g : QueueRole V) (v : V) : Prop := ∃ k, g.call = some k ∧ k.stores v

/-- A push that holds a ticket for `pos`. -/
def Awaiting (g : QueueRole V) (pos : Nat) : Prop :=
  Running g ∧ ∃ late, g.stage = .waits pos late

/-- What a thread that does an operation has. -/
def queueNeed (t : Tid) (a : Act V) (s : State V Tid) (g : QueueRole V) : Prop :=
  match a with
  | .construct pos _ => Writes N s.core t pos false ∧ s.core.openAt pos = true
  | .seqStoreDead pos => Writes N s.core t pos true ∧ s.core.openAt pos = false
  | .moveOut pos => Reads N s.core t pos
  | .destroy pos => Reads N s.core t pos ∧ s.core.ledger.popped pos ≠ none
  | .seqRelease pos => ∃ d, s.core.ledger.Took t pos (.claimed d) ∧
      s.core.object N pos = none ∧ (d = false → s.core.ledger.popped pos ≠ none)
  | .headCas pos => s.core.ledger.lanes.head = pos →
      ∃ d, s.core.ledger.lanes.phase pos = .published d
  | .seqLoad .await_turn pos => Awaiting g pos
  | _ => g.call ≠ none

/-- How a push leaves its caller. -/
def TryPushed (g : QueueRole V) (r : Push) (g' : QueueRole V) : Prop :=
  r = .ok ∧ (∃ p v, g' = g.into (.pushed p v)) ∨ (r = .full ∨ r = .closed) ∧ g' = g

/-- How a try to pop leaves its caller. -/
def TryPopped (g : QueueRole V) (r : Pop V) (g' : QueueRole V) : Prop :=
  (∃ p v, r = .ok v ∧ g' = g.into (.took p v)) ∨ r = .empty ∧ g' = g

def queuePre : Proc V → QueueRole V → Prop
  | .tryPushLoop v _, g => Stores g v ∧ g.stage = .none
  | .pushLoop v _, g => Stores g v ∧ g.stage = .none
  | .awaitPoll pos, g => Awaiting g pos
  | .tryPopLoop _, g => Running g ∧ g.stage = .none
  | .popLoop, g => Running g ∧ g.stage = .none
  | .waitLoop _ _, g => Running g

def queuePost : (p : Proc V) → QueueRole V → Ret p → QueueRole V → Prop
  | .tryPushLoop _ _, g, r, g' => TryPushed g r g'
  | .pushLoop _ _, g, r, g' => g'.call = g.call ∧ Ledger.Returns g'.stage (.push r)
  | .awaitPoll pos, g, _, g' => ∀ late, g.stage = .waits pos late → g' = g.into (.holds pos late)
  | .tryPopLoop _, g, r, g' => TryPopped g r g'
  | .popLoop, g, r, g' => g'.call = g.call ∧ Ledger.Returns g'.stage (.pop r)
  | .waitLoop _ _, g, _, g' => g' = g

abbrev queueOutline : Outline (queue V Tid N o) where
  G := QueueRole V
  Inv s γ := QueueInv N s.core γ
  need := queueNeed N
  ok _ _ _ := True
  rest _ g := g = ⟨none, .none⟩
  pre p _ g := queuePre p g
  post p _ g r g' := queuePost p g r g'

variable {N o} {g : QueueRole V}

/-! ## Operations that do not concern the queue -/

/-- Leaves the ring alone. -/
def quiet : Act V → Bool
  | .tailCas _ | .tailAdd | .tailOr | .headCas _ | .seqStore _ | .seqStoreDead _ | .seqRelease _
  | .construct _ _ | .moveOut _ | .destroy _ | .seqLoad .await_turn _ => false
  | _ => true

theorem core_of_quiet {a : Act V} (ha : quiet a = true) {n : Nat} {s s' : State V Tid}
    {r : Resp a} (h : sem N t a n s = some (s', r)) : s'.core = s.core := by
  unfold sem at h
  split at h <;> simp only [quiet, Bool.false_eq_true] at ha <;> (repeat' split at h) <;>
    cases h <;> rfl

omit [Inhabited V] in
theorem Running.ne (h : Running g) : g.call ≠ none := by
  obtain ⟨k, hk⟩ := h; simp [hk]

/-- The rule for one operation, with the types written out. -/
theorem atom_of {a : Act V} {R : Resp a → QueueRole V → Prop} (hg : Running g)
    (h : ∀ (s : State V Tid) (γ : Tid → QueueRole V) k, QueueInv N s.core γ → γ t = g →
      (γ t).call = some k → queueNeed N t a s g ∧ ∀ n s' r, sem N t a n s = some (s', r) →
        ∃ g', QueueInv N s'.core (upd γ t g') ∧ R r g') :
    (queueOutline N o).Atom t g a R := by
  intro s γ hI hγ
  obtain ⟨k, hk⟩ := hg
  obtain ⟨h1, h2⟩ := h s γ k hI hγ (by rw [← hk, ← hγ])
  exact ⟨h1, fun _ => h2⟩

theorem atom_quiet {a : Act V} (ha : quiet a = true) (hg : Running g) :
    (queueOutline N o).Atom t g a fun _ g' => g' = g := by
  refine atom_of hg fun s γ k hI hγ hk => ⟨?_, fun n s' r hs => ⟨g, ?_, rfl⟩⟩
  · cases a with
    | seqLoad site pos => cases site <;> first | exact hg.ne | cases ha
    | _ => first | exact hg.ne | cases ha
  · rw [← hγ, upd_eq_self, core_of_quiet ha hs]
    exact hI

omit [Inhabited V] in
/-- A thread sees something and nothing else changes. -/
theorem QueueInv.sight {c : Core V Tid} {ρ : Tid → QueueRole V} (h : QueueInv N c ρ)
    (st : Stage V) {k : Call V} (hk : (ρ t).call = some k) (hi : (ρ t).stage.idle = true) (hi' : st.idle = true)
    (hs : c.ledger.Sits N.n (contents V) Call.stores c.storage t k st) :
    QueueInv N c (upd ρ t ((ρ t).into st)) := by
  refine ⟨Ledger.inv_sight h.base hk hi hi' hs, h.lives.keep (fun _ => rfl) (fun _ => .rfl) ?_ ?_,
    h.openAt, h.dead, h.used⟩
  · cases hst : (ρ t).stage <;> rw [hst] at hi <;> first | rfl | cases hi
  · cases st <;> first | rfl | cases hi'

omit [Inhabited V] in
theorem QueueInv.forget {c : Core V Tid} {ρ : Tid → QueueRole V} (h : QueueInv N c ρ) {k : Call V}
    (hk : (ρ t).call = some k) (hi : (ρ t).stage.idle = true) :
    QueueInv N c (upd ρ t ((ρ t).into .none)) :=
  h.sight .none hk hi rfl trivial

/-! ## Looking at a word -/

theorem atom_lookFree {pos : Nat} (hg : Running g) (hst : g.stage = .none) :
    (queueOutline N o).Atom t g (.seqLoad .try_push pos) fun r g' =>
      r.stamp = pos ∧ g' = g.into (.sawFree pos) ∨ r.stamp ≠ pos ∧ g' = g := by
  refine atom_of hg fun s γ k hI hγ hk => ⟨hg.ne, fun n s' r hs => ?_⟩
  subst hγ
  cases hs
  by_cases hp : (s.core.seq N pos).stamp = pos
  · exact ⟨_, hI.sight (.sawFree pos) hk (by rw [hst]; rfl) rfl fun _ => hp, .inl ⟨hp, rfl⟩⟩
  · exact ⟨_, by rw [upd_eq_self]; exact hI, .inr ⟨hp, rfl⟩⟩

omit [Inhabited V] [DecidableEq Tid] in
/-- A word that shows `pos` published: it is, or someone has claimed it. -/
theorem QueueInv.seen {c : Core V Tid} {ρ : Tid → QueueRole V} (h : QueueInv N c ρ) {pos : Nat}
    (hs : (c.seq N pos).stamp = pos + 1) :
    c.ledger.lanes.phase pos = .published (c.seq N pos).dead ∨ pos < c.ledger.lanes.head := by
  rcases h.base.lanes.stamp_succ hs with hp | hp
  · exact .inl hp
  · exact .inr ((h.base.lanes.head pos).mp (by rw [hp]; rfl))

theorem atom_lookPub {pos : Nat} (hg : Running g) (hst : g.stage = .none) :
    (queueOutline N o).Atom t g (.seqLoad .try_pop pos) fun r g' =>
      r.stamp = pos + 1 ∧ g' = g.into (.sawPub pos r.dead) ∨ r.stamp ≠ pos + 1 ∧ g' = g := by
  refine atom_of hg fun s γ k hI hγ hk => ⟨hg.ne, fun n s' r hs => ?_⟩
  subst hγ
  cases hs
  by_cases hp : (s.core.seq N pos).stamp = pos + 1
  · exact ⟨_, hI.sight (.sawPub pos _) hk (by rw [hst]; rfl) rfl (hI.seen hp), .inl ⟨hp, rfl⟩⟩
  · exact ⟨_, by rw [upd_eq_self]; exact hI, .inr ⟨hp, rfl⟩⟩

theorem atom_lookTurn {pos : Nat} {late : Bool} (hg : Running g) (hst : g.stage = .waits pos late) :
    (queueOutline N o).Atom t g (.seqLoad .await_turn pos) fun r g' =>
      r = ⟨pos, false⟩ ∧ g' = g.into (.holds pos late) ∨ r ≠ ⟨pos, false⟩ ∧ g' = g := by
  refine atom_of hg fun s γ k hI hγ hk => ⟨⟨hg, late, hst⟩, fun n s' r hs => ?_⟩
  subst hγ
  cases hs
  by_cases hp : s.core.seq N pos = ⟨pos, false⟩
  · refine ⟨_, ⟨Ledger.inv_arrive hI.base hk hst (congrArg SeqWord.stamp hp), ?_, hI.openAt,
      hI.dead, hI.used⟩, .inl ⟨hp, rfl⟩⟩
    exact hI.lives.keep (fun _ => rfl) (fun _ => .rfl) (by rw [hst]; rfl) rfl
  · exact ⟨_, by rw [upd_eq_self]; exact hI, .inr ⟨hp, rfl⟩⟩

/-- The tail of a pop that has found nothing. -/
theorem atom_lookEnd (hg : Running g) (hst : g.stage = .none) :
    (queueOutline N o).Atom t g .tailLoad fun r g' =>
      r.closed = false ∧ g' = g ∨ r.closed = true ∧ g' = g.into (.sawEnd r.pos) := by
  refine atom_of hg fun s γ k hI hγ hk => ⟨hg.ne, fun n s' r hs => ?_⟩
  subst hγ
  cases hs
  cases hcl : s.core.ledger.closed with
  | false => exact ⟨_, by rw [upd_eq_self]; exact hI, .inl ⟨hcl, rfl⟩⟩
  | true =>
    exact ⟨_, hI.sight (.sawEnd _) hk (by rw [hst]; rfl) rfl (hI.base.end_of_closed hcl),
      .inr ⟨hcl, rfl⟩⟩

theorem atom_lookHead {e : Nat} (hg : Running g) (hst : g.stage = .sawEnd e) :
    (queueOutline N o).Atom t g .headLoad fun r g' =>
      r = e ∧ g' = g.into .atEnd ∨ r ≠ e ∧ g' = g.into .none := by
  refine atom_of hg fun s γ k hI hγ hk => ⟨hg.ne, fun n s' r hs => ?_⟩
  subst hγ
  cases hs
  by_cases hp : s.core.ledger.lanes.head = e
  · refine ⟨_, hI.sight .atEnd hk (by rw [hst]; rfl) rfl ?_, .inl ⟨hp, rfl⟩⟩
    have hsit := (hI.base.sits hk).2
    rw [hst] at hsit
    obtain ⟨e', h1, h2⟩ := hsit
    exact ⟨e', h1, by omega⟩
  · exact ⟨_, hI.forget hk (by rw [hst]; rfl), .inr ⟨hp, rfl⟩⟩

/-! ## The tail -/

theorem late_iff {e : Option Nat} : Turnstile.Late e p true ↔ ¬ Turnstile.Late e p false := by
  simp [Turnstile.Late]

omit [Inhabited V] in
/-- A reservation, which records the closed bit. -/
theorem QueueInv.reserve {c : Core V Tid} {ρ : Tid → QueueRole V} (h : QueueInv N c ρ)
    {k : Call V} (hk : (ρ t).call = some k) (hi : (ρ t).stage.idle = true) :
    QueueInv N (c.reserve t)
      (upd ρ t ((ρ t).into (.waits c.ledger.lanes.tail c.ledger.closed))) := by
  have hb := Ledger.inv_reserve h.base hk hi
  have hv := (h.base.lanes.tail c.ledger.lanes.tail).mpr (Nat.le_refl _)
  refine ⟨hb, ?_, fun p hp => ?_, fun p hp => ?_, fun p hp => ?_⟩
  · refine h.lives.keep (fun p => rfl) (fun p => ?_) ?_ rfl
    · simp only [Core.reserve, Ledger.reserve, Lanes.reserve, upd_apply]
      split
      · rename_i he; subst he; simp [hv]
      · rfl
    · cases hst : (ρ t).stage <;> rw [hst] at hi <;> first | rfl | cases hi
  · simp only [Core.reserve, upd_apply] at hp ⊢
    split
    · rename_i he
      subst he
      have ho := hb.sits (t := t) (k := k) (by simpa using hk)
      have hlate := (show c.ledger.reserve t |>.Owed t c.ledger.lanes.tail c.ledger.closed by
        simpa [Ledger.Sits] using ho.2).late
      simpa using hlate
    · rename_i he
      exact h.openAt p (by simpa [Ledger.reserve, upd_apply, he] using hp)
  · simp only [Core.reserve, Ledger.reserve, Lanes.reserve, upd_apply] at hp ⊢
    split at hp
    · cases hp
    · rename_i he; rw [if_neg he]; exact h.dead p hp
  · simp only [Core.reserve, Ledger.reserve, Lanes.reserve, upd_apply] at hp
    split at hp
    · cases hp
    · exact h.used p hp

omit [Inhabited V] in
theorem QueueInv.arrive {c : Core V Tid} {ρ : Tid → QueueRole V} (h : QueueInv N c ρ)
    {k : Call V} {late : Bool} (hk : (ρ t).call = some k) (hst : (ρ t).stage = .waits p late)
    (hs : (c.ledger.lanes.seq (p % N.n)).stamp = p) :
    QueueInv N c (upd ρ t ((ρ t).into (.holds p late))) :=
  ⟨Ledger.inv_arrive h.base hk hst hs,
    h.lives.keep (fun _ => rfl) (fun _ => .rfl) (by rw [hst]; rfl) rfl, h.openAt, h.dead, h.used⟩

theorem atom_tailCas {word : TailWord} (hg : Running g) (hst : g.stage = .sawFree word.pos)
    (hw : word.closed = false) :
    (queueOutline N o).Atom t g (.tailCas word) fun r g' =>
      r = .done ∧ g' = g.into (.holds word.pos false) ∨ (∃ w, r = .found w) ∧ g' = g.into .none := by
  refine atom_of hg fun s γ k hI hγ hk => ⟨hg.ne, fun n s' r hs => ?_⟩
  subst hγ
  simp only [sem] at hs
  split at hs <;> cases hs
  · rename_i hword
    refine ⟨_, ?_, .inl ⟨rfl, rfl⟩⟩
    have hpos : word.pos = s.core.ledger.lanes.tail := by rw [← hword.1]; rfl
    have hcl : s.core.ledger.closed = false := by rw [← hw, ← hword.1]; rfl
    have hsit := (hI.base.sits hk).2
    rw [hst, hpos] at hsit
    have hv := (hI.base.lanes.tail _).mpr (Nat.le_refl s.core.ledger.lanes.tail)
    have h1 := hI.reserve hk (by rw [hst]; rfl)
    rw [hcl] at h1
    have h2 := h1.arrive (t := t) (k := k) (by simpa using hk)
      (show _ = Stage.waits s.core.ledger.lanes.tail false by simp) (hsit hv)
    simp only [upd_self, upd_upd, Role.into_into] at h2
    rw [hpos]
    exact h2
  · exact ⟨_, hI.forget hk (by rw [hst]; rfl), .inr ⟨⟨_, rfl⟩, rfl⟩⟩

theorem atom_tailAdd (hg : Running g) (hst : g.stage = .none) :
    (queueOutline N o).Atom t g .tailAdd fun r g' => g' = g.into (.waits r.pos r.closed) := by
  refine atom_of hg fun s γ k hI hγ hk => ⟨hg.ne, fun n s' r hs => ?_⟩
  subst hγ
  cases hs
  exact ⟨_, hI.reserve hk (by rw [hst]; rfl), rfl⟩

theorem atom_tailOr (hg : Running g) (hst : g.stage = .none) :
    (queueOutline N o).Atom t g .tailOr fun _ g' => g' = g := by
  refine atom_of hg fun s γ k hI hγ hk => ⟨hg.ne, fun n s' r hs => ⟨_, ?_, rfl⟩⟩
  subst hγ
  cases hs
  have h1 := Ledger.inv_setClosed hI.base hk (by rw [hst]; rfl)
  have h2 := Ledger.inv_forget h1 (t := t) (k := k) (by simpa using hk)
    (by cases s.core.ledger.closed <;> simp [Stage.idle])
  simp only [upd_self, upd_upd, Role.into_into, Role.into_self hst] at h2
  have hl : Lives s.core.ledger.setClosed s.core.built s.core.razed (upd γ t ((γ t).into .none)) :=
    hI.lives.keep (fun _ => rfl) (fun _ => .rfl) (by rw [hst]; rfl) rfl
  rw [Role.into_self hst] at hl
  refine ⟨h2, hl, fun p hp => ?_, hI.dead, hI.used⟩
  have h3 := hI.openAt p hp
  cases hcl : s.core.ledger.closed with
  | true => simpa [State.setLedger, State.setCore, Core.setLedger, Ledger.setClosed, hcl] using h3
  | false =>
    -- everything reserved so far was reserved with the bit clear
    rw [hI.base.end_of_open hcl] at h3
    have hopen : s.core.openAt p = true := by
      cases ho : s.core.openAt p with
      | true => rfl
      | false => rw [ho] at h3; obtain ⟨n, hn, -⟩ := h3; cases hn
    have hlt : p < s.core.ledger.lanes.tail := Nat.lt_of_not_le fun hle =>
      hp ((hI.base.owned.unowned p).mpr (.inl ((hI.base.lanes.tail p).mpr hle)))
    simp [State.setLedger, State.setCore, Core.setLedger, Ledger.setClosed, hcl, hopen, Turnstile.Late, hlt]

/-! ## A slot -/

omit [Inhabited V] [DecidableEq Tid] in
/-- After an operation that changes the phase of one position at most. -/
theorem QueueInv.of_step {c : Core V Tid} {ρ ρ' : Tid → QueueRole V} (h : QueueInv N c ρ)
    {storage : Nat → Option V}
    (hb : l.Inv N.n (contents V) Call.stores storage ρ') (hl : Lives l built razed ρ')
    (hr : l.reservedBy = c.ledger.reservedBy) (hc : l.closePos = c.ledger.closePos) {ph : Phase}
    (hp : l.lanes.phase = upd c.ledger.lanes.phase p ph) (hu : ph ≠ .refused)
    (hd : ph.isDead = true → c.openAt p = false) :
    QueueInv N ⟨l, storage, built, razed, c.openAt⟩ ρ' := by
  refine ⟨hb, hl, fun q hq => ?_, fun q hq => ?_, fun q => ?_⟩
  · rw [hc]; rw [hr] at hq; exact h.openAt q hq
  · simp only [hp, upd_apply] at hq
    split at hq
    · rename_i he; subst he; exact hd hq
    · exact h.dead q hq
  · simp only [hp, upd_apply]
    split
    · exact hu
    · exact h.used q

/-- A phase that is not of an object's end changes. -/
theorem released_upd {f : Nat → Phase} {ph : Phase} (h0 : f p ≠ .released false)
    (h1 : ph ≠ .released false) (q : Nat) :
    upd f p ph q = .released false ↔ f q = .released false := by
  simp only [upd_apply]
  split
  · rename_i he; subst he; simp [h0, h1]
  · rfl

omit [DecidableEq Tid] [Inhabited V] in
theorem QueueInv.holds {c : Core V Tid} {ρ : Tid → QueueRole V} {k : Call V} {late : Bool}
    (h : QueueInv N c ρ) (hk : (ρ t).call = some k) (hst : (ρ t).stage = .holds p late) :
    Writes N c t p late ∧ c.openAt p = !late := by
  have hsit := (h.base.sits hk).2
  rw [hst] at hsit
  obtain ⟨ho, hb⟩ := hsit
  refine ⟨⟨ho, hb⟩, ?_⟩
  have h1 := h.openAt p (by rw [ho.mine]; simp)
  have h2 := ho.late
  cases hopen : c.openAt p <;> cases late <;> rw [hopen] at h1 <;>
    first | rfl | exact absurd h2 (late_iff.mp h1) | exact absurd h1 (late_iff.mp h2)

omit [Inhabited V] [DecidableEq Tid] in
/-- No object was constructed for a position whose holder has not done so. -/
theorem QueueInv.unbuilt {c : Core V Tid} {ρ : Tid → QueueRole V} {late : Bool}
    (h : QueueInv N c ρ) (ho : c.ledger.Holds N.n t p late)
    (hst : ∀ v, (ρ t).stage ≠ .filled p v) : ¬ Built c.ledger ρ p := by
  rintro (hb | ⟨u, v, hu⟩)
  · rw [h.base.stocked.pushed_live, ho.phase] at hb; cases hb
  · have hf := h.base.fits u
    unfold Ledger.Fits at hf
    split at hf
    · rw [hf] at hu; cases hu
    · have hsit := hf.2
      rw [hu] at hsit
      have he := hsit.1.mine.symm.trans ho.mine
      simp only [Ledger.me, Option.some.injEq, Prod.mk.injEq] at he
      exact hst v (he.1 ▸ hu)

theorem atom_construct {pos : Nat} {v : V} (hg : Running g) (hst : g.stage = .holds pos false)
    (hv : Stores g v) :
    (queueOutline N o).Atom t g (.construct pos v) fun _ g' => g' = g.into (.filled pos v) := by
  refine atom_of hg fun s γ k hI hγ hk => ?_
  subst hγ
  obtain ⟨hw, hopen⟩ := hI.holds hk hst
  refine ⟨⟨hw, hopen⟩, fun n s' r hs => ?_⟩
  cases hs
  obtain ⟨k', hk', hv⟩ := hv
  rw [hk] at hk'
  cases hk'
  refine ⟨_, ⟨Ledger.inv_fill hI.base hk hw.1 (by rw [hst]; rfl) rfl ?_ (.inr ⟨v, rfl⟩), ?_,
    hI.openAt, hI.dead, hI.used⟩, rfl⟩
  · exact ⟨hw.1, by simp [contents], hv⟩
  · exact hI.lives.construct hst (hI.unbuilt hw.1 (by simp [hst]))

theorem atom_seqStore {pos : Nat} {v : V} (hg : Running g) (hst : g.stage = .filled pos v) :
    (queueOutline N o).Atom t g (.seqStore pos) fun _ g' => g' = g.into (.pushed pos v) := by
  refine atom_of hg fun s γ k hI hγ hk => ⟨hg.ne, fun n s' r hs => ?_⟩
  subst hγ
  have hsit := (hI.base.sits hk).2
  rw [hst] at hsit
  obtain ⟨ho, hfull, -⟩ := hsit
  have hval : (s.core.object N pos).getD default = v := by
    rw [show s.core.object N pos = some v from hfull]; rfl
  cases hs
  rw [hval]
  exact ⟨_, hI.of_step (Ledger.inv_publish hI.base hk hst)
    (hI.lives.publish N hst (by rw [ho.phase]; simp)) rfl rfl rfl (by simp)
    (by simp [Phase.isDead]), rfl⟩

/-- A late ticket is paid with a tombstone. -/
theorem atom_seqStoreDead {pos : Nat} (hg : Running g) (hst : g.stage = .holds pos true) :
    (queueOutline N o).Atom t g (.seqStoreDead pos) fun _ g' => g' = g.into (.buried pos true) := by
  refine atom_of hg fun s γ k hI hγ hk => ?_
  subst hγ
  obtain ⟨hw, hopen⟩ := hI.holds hk hst
  refine ⟨⟨hw, hopen⟩, fun n s' r hs => ?_⟩
  cases hs
  refine ⟨_, hI.of_step (Ledger.inv_bury hI.base hk hst) ?_ rfl rfl rfl (by simp)
    (fun _ => hopen), rfl⟩
  exact hI.lives.keep (fun _ => rfl) (released_upd (by simp [hw.1.phase]) (by simp))
    (by rw [hst]; rfl) rfl

/-! ## The head -/

theorem atom_headCas {pos : Nat} {d : Bool} (hg : Running g) (hst : g.stage = .sawPub pos d) :
    (queueOutline N o).Atom t g (.headCas pos) fun r g' =>
      r = .done ∧ g' = g.into (Ledger.claimStage pos d) ∨
        (∃ p, r = .found p) ∧ g' = g.into .none := by
  refine atom_of hg fun s γ k hI hγ hk => ?_
  subst hγ
  have hsit := (hI.base.sits hk).2
  rw [hst] at hsit
  refine ⟨fun hp => ⟨d, hsit.resolve_right (by omega)⟩, fun n s' r hs => ?_⟩
  simp only [sem] at hs
  split at hs <;> cases hs
  · rename_i hp
    obtain ⟨hp, -⟩ := hp
    subst hp
    have hph := hsit.resolve_right (by omega)
    have hw := hI.base.lanes.shown _ d (.inl hph)
    have hd : (s.core.seq N s.core.ledger.lanes.head).dead = d := by simp [Core.seq, hw]
    rw [hd]
    refine ⟨_, hI.of_step (Ledger.inv_claim hI.base hk hst) ?_ rfl rfl rfl (by simp)
      (fun hd => hI.dead _ (by rw [hph]; exact hd)), .inl ⟨rfl, rfl⟩⟩
    exact hI.lives.keep (fun _ => rfl) (released_upd (by simp [hph]) (by simp))
      (by rw [hst]; rfl) (by cases d <;> rfl)
  · exact ⟨_, hI.forget hk (by rw [hst]; rfl), .inr ⟨⟨_, rfl⟩, rfl⟩⟩

omit [DecidableEq Tid] [Inhabited V] in
theorem QueueInv.reads {c : Core V Tid} {ρ : Tid → QueueRole V} (h : QueueInv N c ρ)
    {k : Call V} (hk : (ρ t).call = some k)
    (hst : (ρ t).stage = .claimed p ∨ ∃ v, (ρ t).stage = .copied p v) : Reads N c t p := by
  have hsit := (h.base.sits hk).2
  rcases hst with hst | ⟨v, hst⟩ <;> rw [hst] at hsit
  · exact hsit
  · obtain ⟨h1, h2, h3⟩ := hsit
    exact ⟨h1, v, (h.base.stocked.popped_pushed p v h2).1, h3⟩

theorem atom_moveOut {pos : Nat} (hg : Running g) (hst : g.stage = .claimed pos) :
    (queueOutline N o).Atom t g (.moveOut pos) fun r g' => g' = g.into (.copied pos r) := by
  refine atom_of hg fun s γ k hI hγ hk => ?_
  subst hγ
  have hread := hI.reads hk (.inl hst)
  refine ⟨hread, fun n s' r hs => ?_⟩
  obtain ⟨-, v, hv, hobj⟩ := hread
  have hval : (s.core.object N pos).getD default = v := by rw [hobj]; rfl
  cases hs
  rw [hval]
  exact ⟨_, ⟨Ledger.inv_copy hI.base hk hst hv hobj,
    hI.lives.keep (fun _ => rfl) (fun _ => .rfl) (by rw [hst]; rfl) rfl, hI.openAt, hI.dead,
    hI.used⟩, rfl⟩

omit [Inhabited V] [DecidableEq Tid] in
/-- A claimed position's object is not destroyed twice. -/
theorem QueueInv.unrazed {c : Core V Tid} {ρ : Tid → QueueRole V} (h : QueueInv N c ρ)
    (ho : c.ledger.Took t p (.claimed false)) (hst : ∀ v, (ρ t).stage ≠ .cleared p v) :
    ¬ Razed c.ledger ρ p := by
  rintro (hb | ⟨u, v, hu⟩)
  · rw [ho.phase] at hb; cases hb
  · have hf := h.base.fits u
    unfold Ledger.Fits at hf
    split at hf
    · rw [hf] at hu; cases hu
    · have hsit := hf.2
      rw [hu] at hsit
      have he := hsit.1.mine.symm.trans ho.mine
      simp only [Ledger.me, Option.some.injEq, Prod.mk.injEq] at he
      exact hst v (he.1 ▸ hu)

theorem atom_destroy {pos : Nat} {v : V} (hg : Running g) (hst : g.stage = .copied pos v) :
    (queueOutline N o).Atom t g (.destroy pos) fun _ g' => g' = g.into (.cleared pos v) := by
  refine atom_of hg fun s γ k hI hγ hk => ?_
  subst hγ
  have hread := hI.reads hk (.inr ⟨v, hst⟩)
  have hsit := (hI.base.sits hk).2
  rw [hst] at hsit
  refine ⟨⟨hread, by rw [hsit.2.1]; simp⟩, fun n s' r hs => ?_⟩
  cases hs
  exact ⟨_, ⟨Ledger.inv_clear hI.base hk hst rfl,
    hI.lives.destroy hst (hI.unrazed hsit.1 (by simp [hst])), hI.openAt, hI.dead, hI.used⟩, rfl⟩

theorem atom_releaseDead {pos : Nat} (hg : Running g) (hst : g.stage = .skipping pos) :
    (queueOutline N o).Atom t g (.seqRelease pos) fun _ g' => g' = g.into .none := by
  refine atom_of hg fun s γ k hI hγ hk => ?_
  subst hγ
  have hsit := (hI.base.sits hk).2
  rw [hst] at hsit
  obtain ⟨ho, hb⟩ := hsit
  refine ⟨⟨true, ho, hb, by simp⟩, fun n s' r hs => ?_⟩
  cases hs
  refine ⟨_, hI.of_step (Ledger.inv_release hI.base hk ho hb (.inl ⟨hst, rfl, rfl⟩)) ?_ rfl rfl rfl
    (by simp) (fun hd => hI.dead pos hd), rfl⟩
  exact hI.lives.keep (fun _ => rfl)
    (released_upd (by simp [ho.phase]) (by simp [ho.phase, Phase.isDead])) (by rw [hst]; rfl) rfl

theorem atom_release {pos : Nat} {v : V} (hg : Running g) (hst : g.stage = .cleared pos v) :
    (queueOutline N o).Atom t g (.seqRelease pos) fun _ g' => g' = g.into (.took pos v) := by
  refine atom_of hg fun s γ k hI hγ hk => ?_
  subst hγ
  have hsit := (hI.base.sits hk).2
  rw [hst] at hsit
  obtain ⟨ho, hv, hb⟩ := hsit
  refine ⟨⟨false, ho, hb, by simp [hv]⟩, fun n s' r hs => ?_⟩
  cases hs
  exact ⟨_, hI.of_step (Ledger.inv_release hI.base hk ho hb (.inr ⟨v, hst, rfl, rfl, hv⟩))
    (hI.lives.release N hst ho.phase) rfl rfl rfl (by simp) (fun hd => hI.dead pos hd), rfl⟩

end
end Katas.Turnstile.Cpp
