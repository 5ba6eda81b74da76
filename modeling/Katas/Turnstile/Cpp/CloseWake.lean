import Katas.Turnstile.Cpp.Queue

/-!
# The close wakes every sleeper

The invariant of one event count against `close`, for any run. A thread that
reads the epoch and after that the open tail (`passed`) has a key below the
epoch that the close makes; so it is woken by the close, or does not block.
The consumers' event count is waited on by such threads only, and so is the
producers' under `Reserve::cas`. A ticket holder waits on `not_full_` without
a look at the tail, which is why `Strict` leaves that case out.
-/
namespace Katas.Turnstile.Cpp
open Katas.Conc

/-- `keyed k`: read the epoch; `passed k`: after that saw the tail open;
`inside k b`: in the wait, `b`: after its compare-and-block; `closing`: set the
closed bit; `bumped m`: made the epoch `m`, before its `wake_all`; `finished`:
after it. -/
inductive Vigil where
  | out
  | keyed (k : Nat)
  | passed (k : Nat)
  | inside (k : Nat) (b : Bool)
  | closing
  | bumped (m : Nat)
  | finished
  deriving DecidableEq

namespace Vigil

def key : Vigil → Option Nat
  | keyed k | passed k | inside k _ => some k
  | _ => none

/-- The key of a thread that may go to sleep, or sleeps. -/
def pass : Vigil → Option Nat
  | passed k | inside k _ => some k
  | _ => none

def closer : Vigil → Bool
  | closing | bumped _ => true
  | _ => false

/-- Neither in the wait nor closing. -/
def free : Vigil → Bool
  | out | keyed _ | passed _ | finished => true
  | _ => false

/-- Sees the tail open. -/
def see : Vigil → Vigil
  | keyed k => passed k
  | g => g

@[simp] theorem see_see (g : Vigil) : g.see.see = g.see := by cases g <;> rfl

theorem closer_of_free {g : Vigil} (h : g.free = true) : g.closer = false := by
  cases g <;> first | rfl | cases h

theorem free_see {g : Vigil} (h : g.free = true) : g.see.free = true := by
  cases g <;> exact h

end Vigil

section
variable {Tid : Type} [DecidableEq Tid]

/-- Nobody who saw the tail open sleeps, or will. -/
def Late (e : EventCount Tid) (γ : Tid → Vigil) : Prop :=
  ∀ t k, (γ t).pass = some k → k < e.epoch ∧ t ∉ e.blocked

/-- `done`: some close has returned. -/
structure CloseInv (e : EventCount Tid) (closed : Bool) (done : Prop) (γ : Tid → Vigil) :
    Prop where
  blocked : ∀ t, t ∈ e.blocked → ∃ k, γ t = .inside k true
  key_le : ∀ t k, (γ t).key = some k → k ≤ e.epoch
  began : ∀ t, (γ t).closer = true → closed = true
  bumped : ∀ t m, γ t = .bumped m → m ≤ e.epoch ∧ ∀ u k, (γ u).pass = some k → k < m
  shut : closed = true → (∃ t, (γ t).closer = true) ∨ Late e γ
  done : done ∨ (∃ t, γ t = .finished) → closed = true ∧ Late e γ

variable {e : EventCount Tid} {closed : Bool} {done : Prop} {γ : Tid → Vigil} {t : Tid} {g : Vigil}

/-! ## The invariant -/

theorem pass_key {k : Nat} (h : g.pass = some k) : g.key = some k := by
  cases g <;> first | exact h | cases h

omit [DecidableEq Tid] in
/-- The epoch moves on, and fewer are blocked. -/
theorem CloseInv.frame (h : CloseInv e closed done γ) {e' : EventCount Tid}
    (he : e.epoch ≤ e'.epoch) (hb : ∀ u, u ∈ e'.blocked → u ∈ e.blocked) :
    CloseInv e' closed done γ := by
  have late : Late e γ → Late e' γ := fun hl u k hu =>
    ⟨Nat.lt_of_lt_of_le (hl u k hu).1 he, fun hm => (hl u k hu).2 (hb u hm)⟩
  exact ⟨fun u hu => h.blocked u (hb u hu), fun u k hu => Nat.le_trans (h.key_le u k hu) he,
    h.began, fun u m hu => ⟨Nat.le_trans (h.bumped u m hu).1 he, (h.bumped u m hu).2⟩,
    fun hc => (h.shut hc).imp id late, fun hd => ⟨(h.done hd).1, late (h.done hd).2⟩⟩

/-- One thread moves: a key it may newly sleep on comes with an open tail. -/
theorem CloseInv.turn (h : CloseInv e closed done γ) {e' : EventCount Tid}
    (he : e'.epoch = e.epoch) (hb : ∀ u, u ∈ e'.blocked → u ∈ e.blocked ∨ u = t ∧
      ∃ k, g = .inside k true ∧ k = e.epoch)
    (hin : t ∈ e'.blocked → ∃ k, g = .inside k true) (hk : ∀ k, g.key = some k → k ≤ e.epoch)
    (hp : ∀ k, g.pass = some k → (γ t).pass = some k ∨ closed = false)
    (hc : g.closer = (γ t).closer) (hm : ∀ m, g = .bumped m → γ t = .bumped m)
    (hf : g = .finished → γ t = .finished) :
    CloseInv e' closed done (upd γ t g) := by
  obtain ⟨γ', hγ', e1, e2, e3⟩ := upd_spec γ t g
  rw [hγ']
  have hcl : ∀ u, (γ' u).closer = (γ u).closer := fun u => by
    rcases e2 u with rfl | he2
    · rw [e1, hc]
    · rw [he2]
  have pass : closed = true → ∀ {u k}, (γ' u).pass = some k → (γ u).pass = some k := by
    intro hcl u k hu
    rcases e2 u with rfl | he2
    · rw [e1] at hu; exact (hp k hu).resolve_right (by simp [hcl])
    · rwa [he2] at hu
  have late : closed = true → Late e γ → Late e' γ' := by
    intro hcl hl u k hu
    obtain ⟨h1, h2⟩ := hl u k (pass hcl hu)
    refine ⟨he ▸ h1, fun hm => (hb u hm).elim h2 ?_⟩
    rintro ⟨rfl, j, rfl, rfl⟩
    rw [e1] at hu
    cases hu
    omega
  refine ⟨fun u hu => ?_, fun u k hu => ?_, fun u hu => h.began u (hcl u ▸ hu), fun u m hu => ?_,
    fun hc => (h.shut hc).imp (fun ⟨u, hu⟩ => ⟨u, (hcl u).trans hu⟩) (late hc), fun hd => ?_⟩
  · rcases e2 u with rfl | he2
    · rw [e1]; exact hin hu
    · rcases hb u hu with hu | ⟨rfl, k, hg, -⟩
      · rw [he2]; exact h.blocked u hu
      · exact ⟨k, e1.trans hg⟩
  · rw [he]
    rcases e2 u with rfl | he2
    · rw [e1] at hu; exact hk k hu
    · rw [he2] at hu; exact h.key_le u k hu
  · have hu' : γ u = .bumped m := by
      rcases e2 u with rfl | he2
      · rw [e1] at hu; exact hm m hu
      · rwa [he2] at hu
    obtain ⟨h1, h2⟩ := h.bumped u m hu'
    exact ⟨he ▸ h1, fun v k hv => h2 v k (pass (h.began u (by rw [hu']; rfl)) hv)⟩
  · obtain ⟨h1, h2⟩ := h.done <| hd.imp id fun ⟨u, hu⟩ => by
      rcases e2 u with rfl | he2
      · rw [e1] at hu; exact ⟨u, hf hu⟩
      · exact ⟨u, he2 ▸ hu⟩
    exact ⟨h1, late h1 h2⟩

/-- A free thread moves. -/
theorem CloseInv.step (h : CloseInv e closed done γ) (hf : (γ t).free = true)
    (hg : g.free = true) (hk : ∀ k, g.key = some k → k ≤ e.epoch)
    (hp : ∀ k, g.pass = some k → (γ t).pass = some k ∨ closed = false)
    (hfin : g = .finished → γ t = .finished) : CloseInv e closed done (upd γ t g) := by
  have hnb : t ∉ e.blocked := fun hb => by
    obtain ⟨k, hk⟩ := h.blocked t hb
    rw [hk] at hf; cases hf
  refine h.turn rfl (fun u hu => .inl hu) (fun hb => absurd hb hnb) hk hp ?_ ?_ hfin
  · rw [Vigil.closer_of_free hf, Vigil.closer_of_free hg]
  · rintro m rfl; cases hg

/-- A thread that gives up its key. -/
theorem CloseInv.shed (h : CloseInv e closed done γ) (hg : g.key = none) (hb : t ∉ e.blocked) :
    (∀ u, u ∈ e.blocked → ∃ k, upd γ t g u = .inside k true) ∧
      (∀ u k, (upd γ t g u).key = some k → k ≤ e.epoch) ∧
      ∀ u k, (upd γ t g u).pass = some k → (γ u).pass = some k := by
  refine ⟨fun u hu => ?_, fun u k hu => ?_, fun u k hu => ?_⟩ <;> by_cases he : u = t
  · subst he; exact absurd hu hb
  · rw [upd_ne _ _ he]; exact h.blocked u hu
  · subst he; rw [upd_self, hg] at hu; cases hu
  · rw [upd_ne _ _ he] at hu; exact h.key_le u k hu
  · subst he; rw [upd_self] at hu; have := pass_key hu; rw [hg] at this; cases this
  · rwa [upd_ne _ _ he] at hu

omit [DecidableEq Tid] in
theorem CloseInv.unblocked (h : CloseInv e closed done γ) (hg : ∀ k, γ t ≠ .inside k true) :
    t ∉ e.blocked := fun hb => by
  obtain ⟨k, hk⟩ := h.blocked t hb
  exact hg k hk

/-- The closer gets to work. -/
theorem CloseInv.close (h : CloseInv e closed done γ) (hf : (γ t).free = true) :
    CloseInv e true done (upd γ t .closing) := by
  obtain ⟨hb, hk, hp⟩ := h.shed (t := t) (g := .closing) rfl
    (h.unblocked fun k he => by rw [he] at hf; cases hf)
  refine ⟨hb, hk, fun _ _ => rfl, fun u m hu => ?_, fun _ => .inl ⟨t, by simp [Vigil.closer]⟩,
    fun hd => ⟨rfl, fun u k hu => ?_⟩⟩
  · by_cases he : u = t
    · subst he; simp at hu
    · rw [upd_ne _ _ he] at hu
      exact ⟨(h.bumped u m hu).1, fun v k hv => (h.bumped u m hu).2 v k (hp v k hv)⟩
  · refine (h.done ?_).2 u k (hp u k hu)
    obtain hd | ⟨v, hv⟩ := hd
    · exact .inl hd
    · refine .inr ⟨v, ?_⟩
      by_cases he : v = t
      · subst he; simp at hv
      · rwa [upd_ne _ _ he] at hv

/-- Its epoch is past every key. -/
theorem CloseInv.bump (h : CloseInv e closed done γ) (hg : γ t = .closing) :
    CloseInv { e with epoch := e.epoch + 1 } closed done (upd γ t (.bumped (e.epoch + 1))) := by
  have hcl := h.began t (by rw [hg]; rfl)
  have h' : CloseInv { e with epoch := e.epoch + 1 } closed done γ :=
    h.frame (Nat.le_succ _) fun _ h => h
  obtain ⟨hb, hk, hp⟩ := h'.shed (t := t) (g := .bumped (e.epoch + 1)) rfl
    (h'.unblocked fun k he => by rw [hg] at he; cases he)
  refine ⟨hb, hk, fun _ _ => hcl, fun u m hu => ?_, fun _ => .inl ⟨t, by simp [Vigil.closer]⟩,
    fun hd => ⟨hcl, fun u k hu => ?_⟩⟩
  · by_cases he : u = t
    · subst he
      rw [upd_self] at hu
      cases hu
      exact ⟨Nat.le_refl _, fun v k hv =>
        Nat.lt_succ_of_le (h.key_le v k (pass_key (hp v k hv)))⟩
    · rw [upd_ne _ _ he] at hu
      exact ⟨(h'.bumped u m hu).1, fun v k hv => (h'.bumped u m hu).2 v k (hp v k hv)⟩
  · refine (h'.done ?_).2 u k (hp u k hu)
    obtain hd | ⟨v, hv⟩ := hd
    · exact .inl hd
    · refine .inr ⟨v, ?_⟩
      by_cases he : v = t
      · subst he; simp at hv
      · rwa [upd_ne _ _ he] at hv

/-- It wakes them all. -/
theorem CloseInv.finish (h : CloseInv e closed done γ) {m : Nat} (hg : γ t = .bumped m) :
    CloseInv e.wake_all closed done (upd γ t .finished) := by
  have hcl := h.began t (by rw [hg]; rfl)
  obtain ⟨hm, hlt⟩ := h.bumped t m hg
  have h' : CloseInv e.wake_all closed done γ := h.frame (Nat.le_refl _) fun _ h => nomatch h
  obtain ⟨hb, hk, hp⟩ := h'.shed (t := t) (g := .finished) rfl nofun
  have late : Late e.wake_all (upd γ t .finished) := fun u k hu =>
    ⟨Nat.lt_of_lt_of_le (hlt u k (hp u k hu)) hm, nofun⟩
  refine ⟨hb, hk, fun _ _ => hcl, fun u m hu => ?_, fun _ => .inr late, fun _ => ⟨hcl, late⟩⟩
  by_cases he : u = t
  · subst he; simp at hu
  · rw [upd_ne _ _ he] at hu
    exact ⟨(h.bumped u m hu).1, fun v k hv => (h.bumped u m hu).2 v k (hp v k hv)⟩

omit [DecidableEq Tid] in
/-- A close returns. -/
theorem CloseInv.report (h : CloseInv e closed done γ) {done' : Prop}
    (hd : done' → done ∨ ∃ t, γ t = .finished) : CloseInv e closed done' γ :=
  ⟨h.blocked, h.key_le, h.began, h.bumped, h.shut, fun hd' => h.done <|
    hd'.elim hd .inr⟩

end
end Katas.Turnstile.Cpp
