import Katas.Turnstile.Cpp.WaitOutline
import Katas.Turnstile.Cpp.CloseOutline

/-!
# Sleeping threads

`queue_no_lost_wakeup`: nobody sleeps while the head is published, in every run in
which the hand-off of a woken `pop` is never wrong about the head; and after
a close has returned nobody sleeps, except ticket holders that await their
turn. `queue_lost_wakeup`: the hand-off can be wrong, because `head_published`
loads the head and its sequence one after the other; and a ticket holder
that the close wakes finds its slot as it was and sleeps again.
-/
namespace Katas.Turnstile.Cpp
open Katas.Conc Katas.SeqRing

section
variable {V Tid : Type} [Inhabited V] [DecidableEq Tid] {N : Capacity} {o : Options}
  {x : System.Config (queue V Tid N o)} {t : Tid}

/-- Blocked in a wait, with no wake delivered. -/
def asleep (s : State V Tid) (w : Side) (t : Tid) : System.Thread (queue V Tid N o) → Bool
  | .run _ (.act (.blocked w') _) => decide (w' = w ∧ t ∈ (s.count w).blocked)
  | _ => false

/-- Outside all calls, or blocked in a wait. -/
def atRest (x : System.Config (queue V Tid N o)) (t : Tid) : Bool :=
  match x.thread t with
  | .idle => true
  | th => asleep x.state .not_empty t th || asleep x.state .not_full t th

/-- Everybody is at rest, and some consumer sleeps. -/
def AllAsleep (x : System.Config (queue V Tid N o)) : Prop :=
  (∀ t, atRest x t = true) ∧ ∃ t, asleep x.state .not_empty t (x.thread t) = true

/-- Some close has returned. -/
def CloseReturned (s : State V Tid) : Prop := ∃ id, s.core.ledger.results id = some .closed

theorem asleep_iff {w : Side} : asleep x.state w t (x.thread t) = true ↔
    System.AtOp x t (.blocked w) ∧ t ∈ (x.state.count w).blocked := by
  constructor
  · intro h
    unfold asleep at h
    split at h
    · rename_i c w' k hth
      simp only [decide_eq_true_eq] at h
      obtain ⟨rfl, hb⟩ := h
      exact ⟨⟨c, k, hth⟩, hb⟩
    · cases h
  · rintro ⟨⟨c, k, hth⟩, hb⟩
    rw [hth]
    simp [asleep, hb]

/-- Who is at rest is between calls, or asleep on one of the two sides. -/
theorem atRest_cases (h : atRest x t = true) : x.thread t = .idle ∨
    ∃ w, System.AtOp x t (.blocked w) ∧ t ∈ (x.state.count w).blocked := by
  unfold atRest at h
  split at h
  · rename_i hth; exact .inl hth
  · rcases Bool.or_eq_true_iff.mp h with h | h
    · exact .inr ⟨_, asleep_iff.mp h⟩
    · exact .inr ⟨_, asleep_iff.mp h⟩

/-- A thread at rest owes nothing, and if it is in the consumers' wait it is
blocked there. -/
theorem nap_atRest {γ : Tid → Nap} (hI : NapInv x.state γ)
    (hst : (waitOutline N o).Stands γ t (x.thread t)) (hr : atRest x t = true) :
    (γ t).duty = .none ∧ ((γ t).sleep = .out ∨
      (∃ k, (γ t).sleep = .inside k true) ∧ t ∈ (x.state.count .not_empty).blocked) := by
  rcases atRest_cases hr with hth | ⟨w, hat, hb⟩
  · rw [hth] at hst
    exact ⟨hst.2, .inl hst.1⟩
  · have hn := hst.need hI hat
    cases w with
    | not_empty => exact ⟨hn.2, .inr ⟨hn.1, hb⟩⟩
    | not_full => exact ⟨hn.2, .inl hn.1⟩

/-- Nobody sleeps on a side whose sleepers have all looked at the tail, once a
close has returned, or at rest in a closed queue. -/
theorem none_asleep {w : Side} (hw : Strict o w) (hx : (queue V Tid N o).Reachable x)
    (h : CloseReturned x.state ∨
      x.state.core.ledger.closed = true ∧ ∀ t, atRest x t = true) (t : Tid) :
    asleep x.state w t (x.thread t) = false := by
  obtain ⟨γ, hI, hst⟩ := Outline.sound (closeOutline_valid hw) hx.reachableIf
  have hI : CloseInv (x.state.count w) x.state.core.ledger.closed (CloseReturned x.state) γ := hI
  have late : Late (x.state.count w) γ := by
    rcases h with h | ⟨hcl, hrest⟩
    · exact (hI.done (.inl h)).2
    · refine (hI.shut hcl).resolve_left ?_
      rintro ⟨u, hu⟩
      rcases atRest_cases (hrest u) with hth | ⟨w', hat, -⟩
      · have hf : Free (γ u) := by
          have hu' := hst u
          rw [hth] at hu'
          exact hu'
        rw [Vigil.closer_of_free hf] at hu; cases hu
      · have hn : if w' = w then ∃ k, γ u = .inside k true else Free (γ u) :=
          (hst u).need hI hat
        split at hn
        · obtain ⟨k, hk⟩ := hn
          rw [hk] at hu; cases hu
        · rw [Vigil.closer_of_free hn] at hu; cases hu
  refine Bool.eq_false_iff.mpr fun ha => ?_
  obtain ⟨-, hb⟩ := asleep_iff.mp ha
  obtain ⟨k, hk⟩ := hI.blocked t hb
  exact (late t k (by rw [hk]; rfl)).2 hb

/-- **No lost wakeup.** In every run whose hand-offs are sound, a consumer
sleeps with nobody left to wake it only while the head is unpublished. Once a
close has returned nobody sleeps on `not_empty_`, nor on `not_full_` under
`Reserve::cas`. -/
theorem queue_no_lost_wakeup (ho : o.wake = .event_count) (x : System.Config (queue V Tid N o)) :
    (System.ReachableIf (HandOffSound N) x → AllAsleep x → ¬ HeadPublished N x.state) ∧
    ((queue V Tid N o).Reachable x → CloseReturned x.state →
      (∀ t, asleep x.state .not_empty t (x.thread t) = false) ∧
      (o.reserve = .cas → ∀ t, asleep x.state .not_full t (x.thread t) = false)) := by
  refine ⟨fun hx hq hp => ?_, fun hx hc => ⟨none_asleep (.inl rfl) hx (.inl hc),
    fun hr => none_asleep (.inr hr) hx (.inl hc)⟩⟩
  obtain ⟨ρ, hR, -⟩ := queue_holds hx.reachable
  obtain ⟨γ, hI, hst⟩ := Outline.sound (waitOutline_valid ho)
    (Outline.reachableIf_and queueOutline_valid (fun _ _ _ _ => trivial) hx)
  have hI : NapInv x.state γ := hI
  have hrest := fun u => nap_atRest hI (hst u) (hq.1 u)
  obtain ⟨t, ht⟩ := hq.2
  have hopen : x.state.core.ledger.closed = false := by
    cases hcl : x.state.core.ledger.closed with
    | false => rfl
    | true =>
      rw [none_asleep (.inl rfl) hx.reachable (.inr ⟨hcl, hq.1⟩) t] at ht
      cases ht
  obtain ⟨-, hb⟩ := asleep_iff.mp ht
  obtain ⟨k, hk⟩ := hI.seats.blocked t hb
  -- whoever is responsible for the sleeper is not at rest
  obtain ⟨u, hu⟩ := hI.covered.woken hopen (hR.base.lanes.headPub_iff.mpr hp) t k
    (.inr ⟨⟨true, hk⟩, .inl hb⟩) (by rw [hk]; simp)
  obtain ⟨hd, hs | ⟨⟨j, hj⟩, hbu⟩⟩ := hrest u
  · simp [Carries, Covers, hd, hs] at hu
  · simp [Carries, Covers, hd, hj, hbu] at hu

end

/-! ## The hand-off that is wrong, and the ticket that sleeps again

Positions 1 and 2 are published before 0, so two consumers sleep when 0 is.
One is woken and takes 0; its hand-off loads the head, 1; another consumer
takes 1 and releases it; the hand-off finds 1 unpublished and returns. The
head is 2, published, and the other sleeper stays. -/

abbrev casQueue : System := queue Nat (Fin 5) fourSlots ⟨.cas, true, true, .event_count, true⟩

/-- `n` operations of `t`. -/
def steps (t : Fin 5) (n : Nat) : List (System.Label casQueue) := List.replicate n (.step t 0)

def straddle : List (System.Label casQueue) :=
  .invoke (2 : Fin 5) (.try_push 7) :: steps 2 4 ++
  .invoke (3 : Fin 5) (.try_push 8) :: steps 3 8 ++ .invoke (3 : Fin 5) (.try_push 9) :: steps 3 8 ++
  .invoke (0 : Fin 5) .pop :: steps 0 276 ++ .invoke (1 : Fin 5) .pop :: steps 1 276 ++
  steps 2 8 ++ steps 1 14 ++ .invoke (4 : Fin 5) .try_pop :: steps 4 8 ++ steps 1 2

/-- Four values fill the ring, a ticket holder sleeps, and a close wakes it. -/
def ticketSleeps : List (System.Label ticketQueue) :=
  .invoke (0 : Fin 4) (.try_push 1) :: ops 0 8 ++ .invoke (0 : Fin 4) (.try_push 2) :: ops 0 8 ++
  .invoke (0 : Fin 4) (.try_push 3) :: ops 0 8 ++ .invoke (0 : Fin 4) (.try_push 4) :: ops 0 8 ++
  .invoke (1 : Fin 4) (.push 5) :: ops 1 204 ++ .invoke (2 : Fin 4) .close :: ops 2 6 ++ ops 1 15

def allAsleep (x : System.Config casQueue) : Bool :=
  (∀ t : Fin 5, atRest x t = true) ∧
    ∃ t : Fin 5, asleep x.state .not_empty t (x.thread t) = true

theorem queue_lost_wakeup :
    (¬ ∀ x, casQueue.Reachable x → AllAsleep x → ¬ HeadPublished fourSlots x.state) ∧
    ¬ ∀ x, ticketQueue.Reachable x → CloseReturned x.state → ∀ w (t : Fin 4),
      asleep x.state w t (x.thread t) = false := by
  refine ⟨fun h => ?_, fun h => ?_⟩
  · obtain ⟨x, hx, hp⟩ := System.reachable_of_test straddle
      (fun x => allAsleep x && decide (HeadPublished fourSlots x.state)) (by decide +kernel)
    simp only [allAsleep, Bool.and_eq_true, decide_eq_true_eq] at hp
    exact h x hx hp.1 hp.2
  · obtain ⟨x, hx, hp⟩ := System.reachable_of_test ticketSleeps
      (fun x => decide (x.state.core.ledger.results ((2 : Fin 4), 1) = some .closed) &&
        asleep x.state .not_full (1 : Fin 4) (x.thread (1 : Fin 4))) (by decide +kernel)
    simp only [Bool.and_eq_true, decide_eq_true_eq] at hp
    have := h x hx ⟨_, hp.1⟩ .not_full (1 : Fin 4)
    rw [hp.2] at this
    cases this

/-- The test for `HandOffSound`. -/
def handOffSound (x : System.Config casQueue) : System.Label casQueue → Bool
  | .invoke _ _ => true
  | .step t _ =>
    match x.thread t with
    | .run _ (.act (.seqLoad .handOff pos) _) =>
      (x.state.core.seq fourSlots pos).stamp == pos + 1 || !decide (HeadPublished fourSlots x.state)
    | _ => true

theorem handOffSound_meets (x : System.Config casQueue) (l : System.Label casQueue)
    (h : handOffSound x l = true) : System.Meets (HandOffSound fourSlots) x l := by
  cases l with
  | invoke t c => trivial
  | step t n =>
    rintro a ⟨c, k, ha⟩ pos rfl hne
    simp only [handOffSound, ha] at h
    simpa [hne] using h

/-- A sleeper that is woken, takes the value, hands off and sleeps again. -/
def wokenOnce : List (System.Label casQueue) :=
  .invoke (0 : Fin 5) .pop :: steps 0 276 ++ .invoke (2 : Fin 5) (.try_push 7) :: steps 2 12 ++
  steps 0 16 ++ .invoke (0 : Fin 5) .pop :: steps 0 276

theorem queue_no_lost_wakeup_woken : ∃ x : System.Config casQueue,
    System.ReachableIf (HandOffSound fourSlots) x ∧ AllAsleep x ∧
      ¬ HeadPublished fourSlots x.state := by
  obtain ⟨x, hx, hp⟩ := System.reachableIf_of_test handOffSound_meets wokenOnce allAsleep
    (by decide +kernel)
  simp only [allAsleep, decide_eq_true_eq] at hp
  exact ⟨x, hx, hp, (queue_no_lost_wakeup rfl x).1 hx hp⟩

end Katas.Turnstile.Cpp
