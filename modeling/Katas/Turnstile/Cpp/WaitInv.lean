import Katas.Turnstile.Cpp.Queue

/-!
# Nobody sleeps through a publication

The invariant of the consumers' event count. A thread's `Nap` is its part in
the protocol: how far it has got with falling asleep, and what it owes
others. While the queue is open, `Covered.woken` gives every sleeper behind a
published head somebody who will look at the head or wake it, and
`Covered.flag` gives a sleeper the same while a wake is pending, which is
what lets a notifier that finds `pending_` set give up.

A wake reaches an arbitrary sleeper. One whose key is the current epoch
blocks again; but then somebody whose wake is still to come covers that
sleeper, and so every other.
-/
namespace Katas.Turnstile.Cpp
open Katas.Conc

/-- `keyed`: read the epoch; `counted`: in `waiters_`; `up`: cleared
`pending_`, and `re`: after that saw the head unpublished; `inside`: in the
wait, `b`: after its compare-and-block; `leaving`: out of the wait; `left`: no
longer in `waiters_`; `awake`: cleared `pending_`, on the way to the next
pop and its hand-off. -/
inductive Sleep where
  | out
  | keyed (k : Nat)
  | counted (k : Nat)
  | up (k : Nat) (re : Bool)
  | inside (k : Nat) (b : Bool)
  | leaving
  | left
  | awake
  deriving DecidableEq

namespace Sleep

def isCounted : Sleep → Bool
  | counted _ | up _ _ | inside _ _ | leaving => true
  | _ => false

def key : Sleep → Option Nat
  | keyed k | counted k | up k _ | inside k _ => some k
  | _ => none

end Sleep

/-- `looking`: about to read `waiters_`; `won`: set `pending_`, before the
epoch; `bumped m`: made the epoch `m`, before the wake; `closer`: set the
closed bit. -/
inductive Duty where
  | none
  | looking
  | won
  | bumped (m : Nat)
  | closer
  deriving DecidableEq

/-- `seen`: a head position seen earlier. -/
structure Nap where
  sleep : Sleep
  duty : Duty
  seen : Nat

section
variable {Tid : Type} [DecidableEq Tid]

theorem mem_unblock {e : EventCount Tid} {t u : Tid} :
    t ∈ (e.unblock u).blocked ↔ t ∈ e.blocked ∧ t ≠ u := by
  simp [EventCount.unblock]

/-- A wake reaches one of the blocked, if there is one. -/
theorem wake_one_spec (e : EventCount Tid) (n : Nat) :
    (e.blocked = [] ∧ e.wake_one n = e) ∨ ∃ u, u ∈ e.blocked ∧ e.wake_one n = e.unblock u := by
  unfold EventCount.wake_one
  cases he : e.blocked with
  | nil => exact .inl ⟨rfl, rfl⟩
  | cons u l =>
    have hlt : n % (u :: l).length < (u :: l).length := Nat.mod_lt _ (by simp)
    rw [List.getElem?_eq_getElem hlt]
    exact .inr ⟨_, List.getElem_mem hlt, rfl⟩

theorem wake_one_frame (e : EventCount Tid) (n : Nat) :
    (e.wake_one n).waiters = e.waiters ∧ (e.wake_one n).epoch = e.epoch ∧
      ∀ u, u ∈ (e.wake_one n).blocked → u ∈ e.blocked := by
  rcases wake_one_spec e n with ⟨-, he⟩ | ⟨u, -, he⟩ <;> rw [he]
  · exact ⟨rfl, rfl, fun _ h => h⟩
  · exact ⟨rfl, rfl, fun _ h => (mem_unblock.mp h).1⟩

/-- `t` of key `k` may sleep on until the epoch moves. -/
def Stuck (e : EventCount Tid) (t : Tid) (k : Nat) (s : Sleep) : Prop :=
  (∃ re, s = .up k re) ∧ k = e.epoch ∨
    (∃ b, s = .inside k b) ∧ (t ∈ e.blocked ∨ k = e.epoch)

/-- Will wake whoever sleeps with key `k`, or is awake before it cleared
`pending_`. -/
def Covers (e : EventCount Tid) (t : Tid) (k : Nat) (g : Nap) : Prop :=
  g.duty = .won ∨ (∃ m, g.duty = .bumped m ∧ k < m) ∨ g.sleep = .leaving ∨ g.sleep = .left ∨
    ∃ j b, g.sleep = .inside j b ∧ t ∉ e.blocked ∧ j ≠ e.epoch

/-- Will look at the head, or wake whoever sleeps with key `k`. -/
def Carries (e : EventCount Tid) (t : Tid) (k : Nat) (g : Nap) : Prop :=
  Covers e t k g ∨ g.duty = .looking ∨ g.sleep = .awake

/-- Who sits where. -/
structure Seats (e : EventCount Tid) (γ : Tid → Nap) : Prop where
  count : ∃ l : List Tid, l.Nodup ∧ (∀ t, t ∈ l ↔ (γ t).sleep.isCounted = true) ∧
    e.waiters = l.length
  blocked : ∀ t, t ∈ e.blocked → ∃ k, (γ t).sleep = .inside k true
  key_le : ∀ t k, (γ t).sleep.key = some k → k ≤ e.epoch
  bump_le : ∀ t m, (γ t).duty = .bumped m → m ≤ e.epoch
  busy : ∀ t, (γ t).duty ≠ .none → (γ t).sleep = .out

structure Covered (e : EventCount Tid) (closed : Bool) (pub : Prop) (γ : Tid → Nap) : Prop where
  flag : closed = false → e.pending = true → ∀ t k, Stuck e t k (γ t).sleep →
    ∃ u, Covers e u k (γ u)
  woken : closed = false → pub → ∀ t k, Stuck e t k (γ t).sleep → (γ t).sleep ≠ .up k false →
    ∃ u, Carries e u k (γ u)

/-- `pub`: the head is published. -/
structure WaitInv (e : EventCount Tid) (closed : Bool) (head : Nat) (pub : Prop)
    (γ : Tid → Nap) : Prop where
  seen : ∀ t, (γ t).seen ≤ head
  closing : ∀ t, (γ t).duty = .closer → closed = true
  seats : Seats e γ
  covered : Covered e closed pub γ

variable {e : EventCount Tid} {closed : Bool} {pub : Prop} {γ : Tid → Nap} {t : Tid} {g : Nap}

/-! ## The seats -/

/-- Counted as before. -/
theorem Seats.keep (h : Seats e γ) {e' : EventCount Tid} (hw : e'.waiters = e.waiters)
    (he : e.epoch ≤ e'.epoch) (hb : ∀ u, u ∈ e'.blocked → u ∈ e.blocked)
    (hc : g.sleep.isCounted = (γ t).sleep.isCounted)
    (ht : t ∈ e'.blocked → ∃ k, g.sleep = .inside k true)
    (hk : ∀ k, g.sleep.key = some k → k ≤ e'.epoch)
    (hm : ∀ m, g.duty = .bumped m → m ≤ e'.epoch) (hd : g.duty ≠ .none → g.sleep = .out) :
    Seats e' (upd γ t g) := by
  obtain ⟨γ', hγ', e1, e2, e3⟩ := upd_spec γ t g
  rw [hγ']
  obtain ⟨h1, h2, h3, h4, h5⟩ := h
  have hcount : ∀ u, (γ' u).sleep.isCounted = (γ u).sleep.isCounted := by grind
  constructor
  · simpa only [hcount, hw] using h1
  · grind
  · intro u k hu
    rcases e2 u with rfl | he2
    · rw [e1] at hu; exact hk k hu
    · rw [he2] at hu; exact Nat.le_trans (h3 u k hu) he
  · intro u m hu
    rcases e2 u with rfl | he2
    · rw [e1] at hu; exact hm m hu
    · rw [he2] at hu; exact Nat.le_trans (h4 u m hu) he
  · grind

/-- Only the role changes. -/
theorem Seats.turn (h : Seats e γ) (hc : g.sleep.isCounted = (γ t).sleep.isCounted)
    (ht : t ∈ e.blocked → ∃ k, g.sleep = .inside k true)
    (hk : ∀ k, g.sleep.key = some k → k ≤ e.epoch)
    (hm : ∀ m, g.duty = .bumped m → m ≤ e.epoch) (hd : g.duty ≠ .none → g.sleep = .out) :
    Seats e (upd γ t g) :=
  h.keep rfl (Nat.le_refl _) (fun _ h => h) hc ht hk hm hd

omit [DecidableEq Tid] in
theorem Seats.unblocked (h : Seats e γ) (hs : ∀ k, (γ t).sleep ≠ .inside k true) :
    t ∉ e.blocked := fun hb => by
  obtain ⟨k, hk⟩ := h.blocked t hb
  exact hs k hk

/-- One more waiter. -/
theorem Seats.enter (h : Seats e γ) {k : Nat} (hs : (γ t).sleep = .keyed k)
    (hg : g.sleep = .counted k) (hd : g.duty = .none) :
    Seats { e with waiters := e.waiters + 1 } (upd γ t g) := by
  have hk := h.key_le t k (by rw [hs]; rfl)
  have hb := h.unblocked (t := t) (by simp [hs])
  obtain ⟨γ', hγ', e1, e2, e3⟩ := upd_spec γ t g
  rw [hγ']
  obtain ⟨⟨l, hl, hm, hc⟩, h2, h3, h4, h5⟩ := h
  have ht : t ∉ l := by rw [hm]; simp [hs, Sleep.isCounted]
  refine ⟨⟨t :: l, List.nodup_cons.mpr ⟨ht, hl⟩, fun u => ?_, by simp [hc]⟩, by grind,
    by grind [Sleep.key], by grind, by grind⟩
  by_cases hu : u = t
  · subst hu; simp [e1, hg, Sleep.isCounted]
  · simp [hu, (e2 u).resolve_left hu, hm]

/-- One less. -/
theorem Seats.leave (h : Seats e γ) (hs : (γ t).sleep.isCounted = true)
    (hb : t ∉ e.blocked) (hg : g.sleep = .out ∨ g.sleep = .left) (hd : g.duty = .none) :
    Seats { e with waiters := e.waiters - 1 } (upd γ t g) := by
  obtain ⟨γ', hγ', e1, e2, e3⟩ := upd_spec γ t g
  rw [hγ']
  obtain ⟨⟨l, hl, hm, hc⟩, h2, h3, h4, h5⟩ := h
  have ht : t ∈ l := by rw [hm]; exact hs
  refine ⟨⟨l.erase t, hl.erase t, fun u => ?_, ?_⟩, by grind, by grind [Sleep.key], by grind,
    by grind⟩
  · rw [hl.mem_erase_iff]
    by_cases hu : u = t
    · subst hu; rcases hg with hg | hg <;> simp [e1, hg, Sleep.isCounted]
    · simp [hu, (e2 u).resolve_left hu, hm]
  · rw [List.length_erase_of_mem ht]
    simp only [hc]

/-- Blocking, if the epoch is still the key. -/
theorem Seats.block (h : Seats e γ) {k : Nat} (hs : (γ t).sleep = .inside k false)
    (hg : g.sleep = .inside k true) (hd : g.duty = .none) :
    Seats (e.block t k) (upd γ t g) := by
  have hk := h.key_le t k (by rw [hs]; rfl)
  obtain ⟨γ', hγ', e1, e2, e3⟩ := upd_spec γ t g
  rw [hγ']
  obtain ⟨h1, h2, h3, h4, h5⟩ := h
  have hcount : ∀ u, (γ' u).sleep.isCounted = (γ u).sleep.isCounted := by grind [Sleep.isCounted]
  have hepoch : (e.block t k).epoch = e.epoch := by unfold EventCount.block; split <;> rfl
  have hwait : (e.block t k).waiters = e.waiters := by unfold EventCount.block; split <;> rfl
  have hmem : ∀ u, u ∈ (e.block t k).blocked → u = t ∨ u ∈ e.blocked := by
    intro u hu
    unfold EventCount.block at hu
    split at hu
    · exact List.mem_cons.mp hu
    · exact .inr hu
  refine ⟨by simpa only [hcount, hwait] using h1, by grind, ?_, ?_, by grind⟩
  · rw [hepoch]; grind [Sleep.key]
  · rw [hepoch]; grind

/-! ## Who is covered -/

section
variable {e' : EventCount Tid} {k : Nat} {s : Sleep}

omit [DecidableEq Tid]

theorem Stuck.congr (he : e'.epoch = e.epoch) (hb : t ∈ e'.blocked ↔ t ∈ e.blocked) :
    Stuck e' t k s ↔ Stuck e t k s := by
  unfold Stuck; rw [he, hb]

theorem Covers.congr (he : e'.epoch = e.epoch) (hb : t ∈ e'.blocked ↔ t ∈ e.blocked) :
    Covers e' t k g ↔ Covers e t k g := by
  unfold Covers; rw [he, hb]

theorem Carries.congr (he : e'.epoch = e.epoch) (hb : t ∈ e'.blocked ↔ t ∈ e.blocked) :
    Carries e' t k g ↔ Carries e t k g := by
  unfold Carries; rw [Covers.congr he hb]

theorem Stuck.counted (h : Stuck e t k s) : s.isCounted = true ∧ s.key = some k := by
  rcases h with ⟨⟨re, rfl⟩, -⟩ | ⟨⟨b, rfl⟩, -⟩ <;> exact ⟨rfl, rfl⟩

/-- A coverer of a sleeper with the current key covers any. -/
theorem Covers.current (h : Covers e t e.epoch g) (hm : ∀ m, g.duty = .bumped m → m ≤ e.epoch) :
    Covers e t k g := by
  rcases h with h | ⟨m, h, hlt⟩ | h
  · exact .inl h
  · exact absurd hlt (Nat.not_lt_of_le (hm m h))
  · exact .inr (.inr h)

/-- Fewer blocked, as good a cover. -/
theorem Covers.shrink (h : Covers e t k g) (he : e'.epoch = e.epoch)
    (hb : t ∈ e'.blocked → t ∈ e.blocked) : Covers e' t k g := by
  rcases h with h | h | h | h | ⟨j, b, hs, hnb, hne⟩
  · exact .inl h
  · exact .inr (.inl h)
  · exact .inr (.inr (.inl h))
  · exact .inr (.inr (.inr (.inl h)))
  · exact .inr (.inr (.inr (.inr ⟨j, b, hs, fun h => hnb (hb h), by rwa [he]⟩)))

end

/-- A step that lets nobody down: `t` is no more stuck than before, and covers
whom it covered. -/
theorem Covered.keep (h : Covered e closed pub γ) {e' : EventCount Tid}
    (he : e'.epoch = e.epoch) (hb : ∀ u, u = t ∨ (u ∈ e'.blocked ↔ u ∈ e.blocked))
    (hp : e'.pending = true → e.pending = true)
    (hflag : e'.pending = true → ∀ k, Stuck e' t k g.sleep → Stuck e t k (γ t).sleep)
    (hcov : e'.pending = true → ∀ k, Covers e t k (γ t) → Covers e' t k g)
    (hwoken : pub → ∀ k, Stuck e' t k g.sleep → g.sleep ≠ .up k false →
      Stuck e t k (γ t).sleep ∧ (γ t).sleep ≠ .up k false)
    (hcar : closed = false → pub → ∀ k, Carries e t k (γ t) → Carries e' t k g) :
    Covered e' closed pub (upd γ t g) := by
  obtain ⟨γ', hγ', e1, e2, e3⟩ := upd_spec γ t g
  rw [hγ']
  have other : ∀ u, u ≠ t → γ' u = γ u ∧ (u ∈ e'.blocked ↔ u ∈ e.blocked) :=
    fun u hu => ⟨(e2 u).resolve_left hu, (hb u).resolve_left hu⟩
  constructor
  · intro hc hp' u k hu
    have hu' : Stuck e u k (γ u).sleep := by
      by_cases hut : u = t
      · subst hut; rw [e1] at hu; exact hflag hp' k hu
      · rwa [(other u hut).1, Stuck.congr he (other u hut).2] at hu
    obtain ⟨w, hw⟩ := h.flag hc (hp hp') u k hu'
    refine ⟨w, ?_⟩
    by_cases hwt : w = t
    · subst hwt; rw [e1]; exact hcov hp' k hw
    · rwa [(other w hwt).1, Covers.congr he (other w hwt).2]
  · intro hc hpub u k hu hne
    have hu' : Stuck e u k (γ u).sleep ∧ (γ u).sleep ≠ .up k false := by
      by_cases hut : u = t
      · subst hut; rw [e1] at hu hne; exact hwoken hpub k hu hne
      · rw [(other u hut).1] at hne
        rw [(other u hut).1, Stuck.congr he (other u hut).2] at hu
        exact ⟨hu, hne⟩
    obtain ⟨w, hw⟩ := h.woken hc hpub u k hu'.1 hu'.2
    refine ⟨w, ?_⟩
    by_cases hwt : w = t
    · subst hwt; rw [e1]; exact hcar hc hpub k hw
    · rwa [(other w hwt).1, Carries.congr he (other w hwt).2]

/-- A thread that is nowhere in the wait and carries nothing is free to move. -/
theorem Covered.turn (h : Covered e closed pub γ) {e' : EventCount Tid}
    (he : e'.epoch = e.epoch) (hb : e'.blocked = e.blocked)
    (hp : e'.pending = true → e.pending = true)
    (hst : ∀ k, ¬ Stuck e' t k g.sleep) (hcar : ∀ k, ¬ Carries e t k (γ t)) :
    Covered e' closed pub (upd γ t g) :=
  h.keep he (fun _ => .inr (by rw [hb])) hp (fun _ k hk => absurd hk (hst k))
    (fun _ k hk => absurd (.inl hk) (hcar k)) (fun _ k hk => absurd hk (hst k))
    fun _ _ k hk => absurd hk (hcar k)

/-- A thread that will look at the waiters covers whatever becomes published. -/
theorem Covered.look (h : Covered e closed pub γ) (hg : g.duty = .looking)
    (hst : ∀ k, ¬ Stuck e t k g.sleep) (hcov : ∀ k, ¬ Covers e t k (γ t)) (pub' : Prop) :
    Covered e closed pub' (upd γ t g) := by
  refine ⟨?_, fun _ _ u k _ _ => ⟨t, .inr (.inl (by simp [hg]))⟩⟩
  have hf : Covered e closed False γ := ⟨h.flag, fun _ h => h.elim⟩
  exact (hf.keep rfl (fun _ => .inr .rfl) id (fun _ k hk => absurd hk (hst k))
    (fun _ k hk => absurd hk (hcov k)) (fun h => h.elim) fun _ h => h.elim).flag

/-- A notifier that finds `pending_` set leaves the sleepers to whom it is
set for. -/
theorem Covered.giveUp (h : Covered e closed pub γ) (hp : e.pending = true)
    (hs : (γ t).sleep = .out) (hd : (γ t).duty = .looking) (hg : g.sleep = .out) :
    Covered e closed pub (upd γ t g) := by
  have hcov : ∀ k, ¬ Covers e t k (γ t) := fun k hk => by simp [Covers, hs, hd] at hk
  have cover : ∀ {u k}, closed = false → Stuck e u k (upd γ t g u).sleep →
      ∃ w, Covers e w k (upd γ t g w) := by
    intro u k hc hu
    by_cases he : u = t
    · subst he; simp [Stuck, hg] at hu
    · rw [upd_ne _ _ he] at hu
      obtain ⟨w, hw⟩ := h.flag hc hp u k hu
      by_cases hw' : w = t
      · subst hw'; exact absurd hw (hcov k)
      · exact ⟨w, by rwa [upd_ne _ _ hw']⟩
  refine ⟨fun hc _ u k hu => cover hc hu, fun hc _ u k hu _ => ?_⟩
  obtain ⟨w, hw⟩ := cover hc hu
  exact ⟨w, .inl hw⟩

/-- The notifier that sets `pending_` covers everybody. -/
theorem Covered.win (hg : g.duty = .won) :
    Covered { e with pending := true } closed pub (upd γ t g) :=
  ⟨fun _ _ _ _ _ => ⟨t, .inl (by simp [hg])⟩, fun _ _ _ _ _ _ => ⟨t, .inl (.inl (by simp [hg]))⟩⟩

omit [DecidableEq Tid] in
/-- Nobody is counted. -/
theorem Covered.nobody (h : Seats e γ) (hw : e.waiters = 0) : Covered e closed pub γ := by
  have hno : ∀ u k, ¬ Stuck e u k (γ u).sleep := by
    intro u k hu
    obtain ⟨l, -, hm, hc⟩ := h.count
    have := List.length_pos_of_mem ((hm u).mpr hu.counted.1)
    omega
  exact ⟨fun _ _ u k hu => absurd hu (hno u k), fun _ _ u k hu => absurd hu (hno u k)⟩

/-- The epoch moves past every key: the notifier covers everybody. -/
theorem Covered.bump (h : Seats e γ) (hg : g.duty = .bumped (e.epoch + 1)) (hs : g.sleep = .out) :
    Covered { e with epoch := e.epoch + 1 } closed pub (upd γ t g) := by
  have cover : ∀ {u k}, Stuck { e with epoch := e.epoch + 1 } u k (upd γ t g u).sleep →
      Covers { e with epoch := e.epoch + 1 } t k (upd γ t g t) := by
    intro u k hu
    refine .inr (.inl ⟨e.epoch + 1, by simp [hg], ?_⟩)
    by_cases he : u = t
    · subst he; simp [Stuck, hs] at hu
    · rw [upd_ne _ _ he] at hu
      have := h.key_le u k hu.counted.2
      omega
  exact ⟨fun _ _ u k hu => ⟨t, cover hu⟩, fun _ _ u k hu _ => ⟨t, .inl (cover hu)⟩⟩

omit [DecidableEq Tid] in
/-- Nothing is owed once the queue is closed. -/
theorem Covered.shut (pub : Prop) (γ : Tid → Nap) : Covered e true pub γ :=
  ⟨nofun, nofun⟩

omit [DecidableEq Tid] in
theorem mem_block {u : Tid} {k : Nat} :
    u ∈ (e.block t k).blocked ↔ u = t ∧ e.epoch = k ∨ u ∈ e.blocked := by
  unfold EventCount.block
  split
  · rename_i h; simp [h]
  · rename_i h; simp [h]

/-- Blocking: whoever blocks had the epoch for a key. -/
theorem Covered.block (h : Covered e closed pub γ) {k : Nat} (hs : (γ t).sleep = .inside k false)
    (hb : t ∉ e.blocked) (hg : g = ⟨.inside k true, (γ t).duty, (γ t).seen⟩) :
    Covered (e.block t k) closed pub (upd γ t g) := by
  have hepoch : (e.block t k).epoch = e.epoch := by unfold EventCount.block; split <;> rfl
  have hpend : (e.block t k).pending = e.pending := by unfold EventCount.block; split <;> rfl
  have hst : ∀ j, Stuck (e.block t k) t j g.sleep → Stuck e t j (γ t).sleep := by
    intro j hj
    rw [hg] at hj
    simp only [Stuck, hepoch, mem_block, hb, hs, Sleep.inside.injEq, reduceCtorEq] at hj ⊢
    grind
  have hcov : ∀ j, Covers e t j (γ t) → Covers (e.block t k) t j g := by
    intro j hj
    simp only [Covers, hg, hepoch, mem_block, hs, Sleep.inside.injEq, reduceCtorEq] at hj ⊢
    grind
  refine h.keep hepoch (fun u => ?_) (by rw [hpend]; exact id) (fun _ => hst) (fun _ => hcov)
    (fun _ j hj _ => ⟨hst j hj, by rw [hs]; simp⟩) fun _ _ j hj => hj.imp (hcov j) fun hj => ?_
  · by_cases hu : u = t
    · exact .inl hu
    · exact .inr (by simp [mem_block, hu])
  · rw [hs] at hj; simpa [hg] using hj

/-- Out of the compare-and-block, woken or not. -/
theorem Covered.unblock (h : Covered e closed pub γ) {e' : EventCount Tid} {k : Nat}
    (hs : (γ t).sleep = .inside k true) (he : e' = e.unblock t)
    (hg : g = ⟨.inside k false, (γ t).duty, (γ t).seen⟩) :
    Covered e' closed pub (upd γ t g) := by
  subst he
  have hst : ∀ j, Stuck (e.unblock t) t j g.sleep → Stuck e t j (γ t).sleep := by
    intro j hj
    rw [hg] at hj
    simp only [Stuck, mem_unblock, hs, Sleep.inside.injEq, reduceCtorEq,
      show (e.unblock t).epoch = e.epoch from rfl] at hj ⊢
    grind
  have hcov : ∀ j, Covers e t j (γ t) → Covers (e.unblock t) t j g := by
    intro j hj
    simp only [Covers, hg, mem_unblock, hs, Sleep.inside.injEq, reduceCtorEq,
      show (e.unblock t).epoch = e.epoch from rfl] at hj ⊢
    grind
  refine h.keep rfl (fun u => ?_) id (fun _ => hst) (fun _ => hcov)
    (fun _ j hj _ => ⟨hst j hj, by rw [hs]; simp⟩) fun _ _ j hj => hj.imp (hcov j) fun hj => ?_
  · by_cases hu : u = t
    · exact .inl hu
    · exact .inr (by simp [mem_unblock, hu])
  · rw [hs] at hj; simpa [hg] using hj

/-- The wake goes out. Whom it covered and left blocked, either the thread it
reached covers now, or whoever covers that thread. -/
theorem Covered.wake (h : Covered e closed pub γ) (hseat : Seats e γ) {m n : Nat}
    (hd : (γ t).duty = .bumped m) (hg : g.sleep = .out) :
    Covered (e.wake_one n) closed pub (upd γ t g) := by
  have hs : (γ t).sleep = .out := hseat.busy t (by simp [hd])
  have hm : m ≤ e.epoch := hseat.bump_le t m hd
  obtain ⟨-, he, hsub⟩ := wake_one_frame e n
  have hpend : (e.wake_one n).pending = e.pending := by
    rcases wake_one_spec e n with ⟨-, hw⟩ | ⟨u, -, hw⟩ <;> rw [hw]
    rfl
  have hcur : ¬ Covers e t e.epoch (γ t) := by
    rintro (h | ⟨m', h, hlt⟩ | h | h | ⟨j, b, h, -⟩) <;> simp_all
    omega
  -- another thread covers as before
  have stay : ∀ {w k}, w ≠ t → Covers e w k (γ w) → Covers (e.wake_one n) w k (upd γ t g w) :=
    fun hw hc => by rw [upd_ne _ _ hw]; exact hc.shrink he (hsub _)
  -- a sleeper of `t` is blocked still, so the wake reached another thread
  have reach : ∀ {u k}, Stuck (e.wake_one n) u k (γ u).sleep → Covers e t k (γ t) →
      (∃ w, w ≠ t ∧ Covers (e.wake_one n) w k (upd γ t g w)) ∨
        ∃ w, Stuck e w e.epoch (γ w).sleep ∧ (γ w).sleep ≠ .up e.epoch false := by
    intro u k hu hc
    have hk : k < e.epoch := by
      rcases hc with h | ⟨m', h, hlt⟩ | h | h | ⟨j, b, h, -⟩
      · rw [hd] at h; cases h
      · rw [hd] at h; cases h; omega
      all_goals rw [hs] at h; cases h
    have hub : u ∈ (e.wake_one n).blocked := by
      rcases hu with ⟨-, hu⟩ | ⟨-, hu | hu⟩
      · omega
      · exact hu
      · omega
    rcases wake_one_spec e n with ⟨hnil, hw⟩ | ⟨w, hwb, hw⟩
    · rw [hw, hnil] at hub; cases hub
    · obtain ⟨j, hj⟩ := hseat.blocked w hwb
      by_cases hje : j = e.epoch
      · subst hje
        exact .inr ⟨w, .inr ⟨⟨true, hj⟩, .inl hwb⟩, by rw [hj]; simp⟩
      · have hwt : w ≠ t := fun h => by subst h; rw [hs] at hj; cases hj
        refine .inl ⟨w, hwt, ?_⟩
        rw [upd_ne _ _ hwt]
        exact .inr (.inr (.inr (.inr ⟨j, true, hj, by simp [hw, mem_unblock], by rwa [he]⟩)))
  have before : ∀ {u k}, Stuck (e.wake_one n) u k (upd γ t g u).sleep →
      Stuck (e.wake_one n) u k (γ u).sleep ∧ Stuck e u k (γ u).sleep ∧
        (upd γ t g u).sleep = (γ u).sleep := by
    intro u k hu
    by_cases hut : u = t
    · subst hut; rw [upd_self, hg] at hu; simp [Stuck] at hu
    · rw [upd_ne _ _ hut] at hu ⊢
      refine ⟨hu, ?_, rfl⟩
      simp only [Stuck, he] at hu ⊢
      exact hu.imp id fun ⟨h1, h2⟩ => ⟨h1, h2.imp (hsub u) id⟩
  constructor
  · intro hc hp u k hu
    rw [hpend] at hp
    obtain ⟨hu', hue, -⟩ := before hu
    obtain ⟨w, hw⟩ := h.flag hc hp u k hue
    by_cases hwt : w = t
    · subst hwt
      rcases reach hu' hw with ⟨v, -, hv⟩ | ⟨v, hv, -⟩
      · exact ⟨v, hv⟩
      · obtain ⟨x, hx⟩ := h.flag hc hp v _ hv
        have hxt : x ≠ w := fun h => hcur (h ▸ hx)
        exact ⟨x, stay hxt (hx.current (hseat.bump_le x))⟩
    · exact ⟨w, stay hwt hw⟩
  · intro hc hp u k hu hne
    obtain ⟨hu', hue, hsl⟩ := before hu
    rw [hsl] at hne
    obtain ⟨w, hw⟩ := h.woken hc hp u k hue hne
    have hcar : ∀ {k}, Carries e t k (γ t) → Covers e t k (γ t) := by
      rintro k (h | h | h)
      · exact h
      · rw [hd] at h; cases h
      · rw [hs] at h; cases h
    by_cases hwt : w = t
    · subst hwt
      rcases reach hu' (hcar hw) with ⟨v, -, hv⟩ | ⟨v, hv, hvne⟩
      · exact ⟨v, .inl hv⟩
      · obtain ⟨x, hx⟩ := h.woken hc hp v _ hv hvne
        have hxt : x ≠ w := fun h => hcur (hcar (h ▸ hx))
        refine ⟨x, hx.imp (fun hx => stay hxt (hx.current (hseat.bump_le x))) fun hx => ?_⟩
        rwa [upd_ne _ _ hxt]
    · refine ⟨w, hw.imp (stay hwt) fun hw => ?_⟩
      rwa [upd_ne _ _ hwt]

/-! ## The invariant -/

variable {head : Nat}

omit [DecidableEq Tid] in
/-- The head moves on and nothing becomes published at it. -/
theorem WaitInv.frame (h : WaitInv e closed head pub γ) {head' : Nat} {pub' : Prop}
    (hh : head ≤ head') (hp : pub' → pub) : WaitInv e closed head' pub' γ :=
  { h with
    seen := fun t => Nat.le_trans (h.seen t) hh
    covered := ⟨h.covered.flag, fun hc hp' => h.covered.woken hc (hp hp')⟩ }

/-- One thread's step. -/
theorem WaitInv.move (h : WaitInv e closed head pub γ) {e' : EventCount Tid} {closed' : Bool}
    {pub' : Prop} (hs : g.seen ≤ head) (hc : closed = true → closed' = true)
    (hcl : g.duty = .closer → closed' = true) (hseats : Seats e' (upd γ t g))
    (hcov : Covered e' closed' pub' (upd γ t g)) : WaitInv e' closed' head pub' (upd γ t g) := by
  refine ⟨fun u => ?_, fun u hu => ?_, hseats, hcov⟩
  · simp only [upd_apply]; split
    · exact hs
    · exact h.seen u
  · simp only [upd_apply] at hu; split at hu
    · exact hcl hu
    · exact hc (h.closing u hu)

/-- `t` sees the head. -/
theorem WaitInv.see (h : WaitInv e closed head pub γ) {n : Nat} (hn : n ≤ head) :
    WaitInv e closed head pub (upd γ t ⟨(γ t).sleep, (γ t).duty, n⟩) :=
  h.move hn id (h.closing t)
    (h.seats.turn rfl (h.seats.blocked t) (h.seats.key_le t) (h.seats.bump_le t) (h.seats.busy t))
    (h.covered.keep rfl (fun _ => .inr .rfl) id (fun _ _ h => h) (fun _ _ h => h)
      (fun _ _ h h' => ⟨h, h'⟩) fun _ _ _ h => h)

end
end Katas.Turnstile.Cpp
