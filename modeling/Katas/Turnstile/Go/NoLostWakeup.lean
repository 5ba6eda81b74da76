import Katas.Turnstile.Go.WaitOutline

/-!
# Sleeping consumers

`no_lost_wakeup`: nobody sleeps while the head is published or the ring is
closed, in every run in which the hand-off of a woken `Pop` is never wrong
about the head. `lost_wakeup`: it can be wrong, because `headPublished`
loads the head and its sequence one after the other, and then a consumer
sleeps on.
-/
namespace Katas.Turnstile.Go
open Katas.Conc Katas.SeqRing

section
variable {V Tid : Type} [Inhabited V] [DecidableEq Tid] {N : Capacity} {o : Options}
  {x : System.Config (ring V Tid N o)}

/-- Outside all calls, or blocked in a `select` with nothing to receive. -/
def atRest (s : State V Tid) : System.Thread (ring V Tid N o) → Bool
  | .idle => true
  | .run _ (.act (.select w i) _) => !s.hasToken o w i && !s.chanClosed o w
  | _ => false

/-- In the `select` of a `Pop`. -/
def inPopSelect : System.Thread (ring V Tid N o) → Bool
  | .run _ (.act (.select .notEmpty _) _) => true
  | _ => false

/-- Everybody is at rest, and some consumer sleeps. -/
def AllAsleep (x : System.Config (ring V Tid N o)) : Prop :=
  (∀ t, atRest x.state (x.thread t) = true) ∧ ∃ t, inPopSelect (x.thread t) = true

/-- Asleep on the consumers' waiter with nothing to receive. -/
def Parked (s : State V Tid) (g : Nap) (i : Nat) : Prop :=
  g.sleep = .up i .passed ∧ s.hasToken o .notEmpty i = false ∧ s.chanClosed o .notEmpty = false

/-- Where a goroutine at rest stands: it owes nothing, and if it is not out of
the waiter it is parked there. -/
theorem stands_atRest {γ : Tid → Nap} {t : Tid} (hI : NapInv o x.state γ)
    (hst : (waitOutline N o).Stands γ t (x.thread t))
    (hr : atRest x.state (x.thread t) = true) :
    (γ t).duty = .none ∧ (inPopSelect (x.thread t) = false ∧ (γ t).sleep = .out ∨
      ∃ i, Parked (o := o) x.state (γ t) i) := by
  cases hth : x.thread t with
  | idle =>
    rw [hth] at hst
    exact ⟨hst.2, .inl ⟨rfl, hst.1⟩⟩
  | run c p =>
    cases p with
    | ret r => rw [hth] at hr; cases hr
    | call p k => rw [hth] at hr; cases hr
    | act a k =>
      have hn := hst.need hI ⟨c, k, hth⟩
      rw [hth] at hr
      cases a <;> try cases hr
      rename_i w i
      simp only [atRest, Bool.and_eq_true, Bool.not_eq_true'] at hr
      cases w with
      | notFull => exact ⟨hn.2, .inl ⟨rfl, hn.1⟩⟩
      | notEmpty => exact ⟨hn.2, .inr ⟨i, hn.1, hr.1, hr.2⟩⟩

/-- **No lost wakeup.** In every run whose hand-offs are sound, a consumer
sleeps with nobody left to wake it only while the head is unpublished and
the ring open. -/
theorem no_lost_wakeup (hx : System.ReachableIf (HandOffSound N) x) (hq : AllAsleep x) :
    ¬ HeadPublished N x.state ∧ x.state.core.ledger.closed = false := by
  obtain ⟨ρ, hR, -⟩ := ring_holds hx.reachable
  obtain ⟨γ, hI, hst⟩ := Outline.sound waitOutline_valid
    (Outline.reachableIf_and ringOutline_valid (fun _ _ _ _ => trivial) hx)
  have hI : NapInv o x.state γ := hI
  have hrest := fun u => stands_atRest hI (hst u) (hq.1 u)
  obtain ⟨t, ht⟩ := hq.2
  obtain ⟨i, hsl, htok, hch⟩ : ∃ i, Parked (o := o) x.state (γ t) i :=
    (hrest t).2.resolve_left fun h => by rw [h.1] at ht; cases ht
  -- nobody is about to send anything, and nobody is on its way to the head
  have hidle : ∀ u, (γ u).duty = .none := fun u => (hrest u).1
  have hbit : ∀ u j, Parked (o := o) x.state (γ u) j → o.sharedToken = false →
      (x.state.waiter .notEmpty).asleep j = true := by
    intro u j hp hsh
    cases hb : (x.state.waiter .notEmpty).asleep j with
    | true => rfl
    | false =>
      rcases hI.duties.sent hsh u j _ hp.1 hb with h | ⟨v, h⟩
      · have := hp.2.1
        simp [State.hasToken, shared, hsh, h] at this
      · rw [hidle v] at h; cases h
  have hopen : x.state.core.ledger.closed = false := by
    cases hcl : x.state.core.ledger.closed with
    | false => rfl
    | true =>
      rcases hI.duties.shut hcl t i hsl (hbit t i ⟨hsl, htok, hch⟩) (fun hsh => by
        simpa [State.chanClosed, shared, hsh] using hch) with ⟨u, hu⟩ | ⟨-, u, hu⟩ <;>
      · rw [hidle u] at hu; cases hu
  refine ⟨fun hp => ?_, hopen⟩
  rcases hI.duties.woken hopen (hR.base.lanes.headPub_iff.mpr hp) t i _ hsl (by simp)
    (hbit t i ⟨hsl, htok, hch⟩) with ⟨u, hc⟩ | ⟨hsh, h⟩
  · rcases (hrest u).2 with ⟨-, hout⟩ | ⟨j, hj⟩
    · simp [Carries, hidle u, hout] at hc
    · simp only [Carries, hidle u, hj.1, reduceCtorEq, false_or, exists_false, Sleep.up.injEq]
        at hc
      obtain ⟨j', c, ⟨rfl, -⟩, hsh, hb⟩ := hc
      rw [hbit u j hj hsh] at hb
      cases hb
  · simp [State.hasToken, shared, hsh, h] at htok

end

/-! ## The hand-off that is wrong

Positions 1 and 2 are published before 0, so two consumers sleep when 0 is.
One is woken and takes 0; its hand-off loads the head, 1; another consumer
takes 1 and releases it; the hand-off finds 1 unpublished and returns. The
head is 2, published, and the other sleeper stays. -/

def straddle : List (System.Label casRing) :=
  .invoke (2 : Fin 5) (.tryPush 7) :: ops 2 4 ++
  .invoke (3 : Fin 5) (.tryPush 8) :: ops 3 9 ++ .invoke (3 : Fin 5) (.tryPush 9) :: ops 3 9 ++
  .invoke (0 : Fin 5) .pop :: ops 0 274 ++ .invoke (1 : Fin 5) .pop :: ops 1 274 ++
  ops 2 7 ++ .step (0 : Fin 5) 0 :: ops 0 11 ++
  .invoke (4 : Fin 5) .tryPop :: ops 4 8 ++ ops 0 2

def sleepers (x : System.Config casRing) : Bool :=
  (∀ t : Fin 5, atRest x.state (x.thread t) = true) ∧
    ∃ t : Fin 5, inPopSelect (x.thread t) = true

theorem lost_wakeup : ¬ ∀ x, casRing.Reachable x → AllAsleep x →
    ¬ HeadPublished fourSlots x.state ∧ x.state.core.ledger.closed = false := by
  intro h
  obtain ⟨x, hx, hp⟩ := System.reachable_of_test straddle
    (fun x => sleepers x && decide (HeadPublished fourSlots x.state)) (by decide +kernel)
  simp only [sleepers, Bool.and_eq_true, decide_eq_true_eq] at hp
  exact (h x hx hp.1).1 hp.2

/-- The test for `HandOffSound`. -/
def handOffSound (x : System.Config casRing) : System.Label casRing → Bool
  | .invoke _ _ => true
  | .step t _ =>
    match x.thread t with
    | .run _ (.act (.seqLoad .handOff pos) _) =>
      (x.state.core.seq fourSlots pos).stamp == pos + 1 || !decide (HeadPublished fourSlots x.state)
    | _ => true

theorem handOffSound_meets (x : System.Config casRing) (l : System.Label casRing)
    (h : handOffSound x l = true) : System.Meets (HandOffSound fourSlots) x l := by
  cases l with
  | invoke t c => trivial
  | step t n =>
    rintro a ⟨c, k, ha⟩ pos rfl hne
    simp only [handOffSound, ha] at h
    simpa [hne] using h

/-- A sleeper that is woken, takes the value, hands off and sleeps again. -/
def wokenOnce : List (System.Label casRing) :=
  .invoke (0 : Fin 5) .pop :: ops 0 274 ++ .invoke (2 : Fin 5) (.tryPush 7) :: ops 2 11 ++
  .step (0 : Fin 5) 0 :: ops 0 13 ++ .invoke (0 : Fin 5) .pop :: ops 0 272

theorem no_lost_wakeup_woken : ∃ x : System.Config casRing,
    System.ReachableIf (HandOffSound fourSlots) x ∧ AllAsleep x ∧
      ¬ HeadPublished fourSlots x.state ∧ x.state.core.ledger.closed = false := by
  obtain ⟨x, hx, hp⟩ := System.reachableIf_of_test handOffSound_meets wokenOnce sleepers
    (by decide +kernel)
  simp only [sleepers, decide_eq_true_eq] at hp
  exact ⟨x, hx, hp, no_lost_wakeup hx hp⟩

end Katas.Turnstile.Go
