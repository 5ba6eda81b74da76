import Katas.Turnstile.Go.WaitSteps

/-!
# No ticket is stranded

A goroutine in `awaitTurn` waits for the release of an earlier position, and
there is always another goroutine whose next steps lead to one: the producer
of an earlier position whose slot is ready, a consumer between its claim and
its release, or a consumer that has not left while the head is published.
-/
namespace Katas.Turnstile.Go
open Katas.Conc Katas.SeqRing

section
variable {V Tid : Type} [Inhabited V] [DecidableEq Tid] {N : Capacity} {o : Options}
  {x : System.Config (ring V Tid N o)} {t : Tid} {pos : Nat}

/-- In `awaitTurn` for `pos`. -/
def inAwaitTurn (pos : Nat) : System.Thread (ring V Tid N o) → Bool
  | .run _ (.act (.seqLoad .awaitTurn p) _) => p == pos
  | .run _ (.call (.awaitPoll p) _) => p == pos
  | _ => false

/-- A pop of `c` has returned drained. -/
def Left (s : State V Tid) (c : Tid) : Prop :=
  ∃ n, s.core.ledger.results (c, n) = some (.pop .drained)

/-- Somebody else can make progress towards the release of a position before
`pos`. -/
def Progress (consumers : Tid → Prop) (x : System.Config (ring V Tid N o)) (t : Tid) (pos : Nat) :
    Prop :=
  ∃ u q, u ≠ t ∧ q < pos ∧
    ((x.state.core.ledger.Ready N.n u q ∨ x.state.core.ledger.Releasing u q) ∧
        x.thread u ≠ .idle ∨
      q = x.state.core.ledger.lanes.head ∧ HeadPublished N x.state ∧ consumers u ∧
        ¬ Left x.state u)

theorem awaiting_of_stands {γ : Tid → RingRole V}
    (hst : (ringOutline N o).Stands γ t (x.thread t)) (hI : RingInv N x.state.core γ)
    (hw : inAwaitTurn pos (x.thread t) = true) : Awaiting (γ t) pos := by
  cases hth : x.thread t with
  | idle => rw [hth] at hw; cases hw
  | run c p =>
    rw [hth] at hw hst
    cases p with
    | ret r => cases hw
    | act a k =>
      have hn := (hst x.state γ hI rfl).1
      cases a <;> try cases hw
      rename_i site p
      cases site <;> try cases hw
      obtain rfl : p = pos := by simpa [inAwaitTurn] using hw
      exact hn
    | call p k =>
      have hn := hst.1
      cases p <;> try cases hw
      rename_i p
      obtain rfl : p = pos := by simpa [inAwaitTurn] using hw
      exact hn

/-- **No stranded ticket.** Some consumers only ever call `Pop`. Whenever a
goroutine in `awaitTurn` finds its slot at an earlier lap, somebody else can
make progress towards the release of an earlier position, and once any pop
has returned drained nobody is in `awaitTurn`. -/
theorem tickets_never_strand (hx : (ring V Tid N o).Reachable x) (consumers : Tid → Prop)
    (hne : ∃ c, consumers c)
    (hpop : ∀ c, consumers c → ∀ k, x.state.core.ledger.called (x.state.core.ledger.me c) = some k →
      k = .pop) :
    (∀ t pos, inAwaitTurn pos (x.thread t) = true → x.state.core.seq N pos ≠ ⟨pos, false⟩ →
      Progress consumers x t pos) ∧
    (∀ c, Left x.state c → ∀ t pos, inAwaitTurn pos (x.thread t) = false) := by
  obtain ⟨γ, hI, hst⟩ := Outline.sound (ringOutline_valid (o := o)) hx.reachableIf
  have hI : RingInv N x.state.core γ := hI
  have hrun : ∀ u, (γ u).call ≠ none → x.thread u ≠ .idle := fun u hu hth => by
    have h := hst u
    rw [hth] at h
    exact hu (congrArg Role.call h)
  -- who waits holds an unpublished position reserved before the close
  have owed : ∀ t pos, inAwaitTurn pos (x.thread t) = true →
      x.state.core.ledger.Owed t pos false ∧ ¬ consumers t := by
    intro t pos hw
    obtain ⟨⟨v, k, hk, hv⟩, hstage⟩ := awaiting_of_stands (hst t) hI hw
    obtain ⟨hcalled, hsit⟩ := hI.base.sits hk
    rw [hstage] at hsit
    refine ⟨hsit, fun hc => ?_⟩
    rw [hpop t hc k hcalled] at hv
    exact hv
  refine ⟨fun t pos hw hs => ?_, fun c hc t pos => Bool.eq_false_iff.mpr fun hw => ?_⟩
  · obtain ⟨-, hstage⟩ := awaiting_of_stands (hst t) hI hw
    obtain ⟨ho, hnc⟩ := owed t pos hw
    have hno : ∀ q, q < pos → x.state.core.ledger.lanes.phase q ≠ .refused := fun q hlt hq => by
      obtain ⟨e, he, hle⟩ := hI.base.shut.refused q hq
      have := ho.late e he
      omega
    rcases hI.base.stalled hstage hs hno with ⟨u, q, hne, hlt, hu, hcall⟩ | ⟨hlt, hpub, -⟩
    · exact ⟨u, q, hne, hlt, .inl ⟨hu, hrun u hcall⟩⟩
    · obtain ⟨c, hc⟩ := hne
      refine ⟨c, _, fun he => hnc (he ▸ hc), hlt, .inr ⟨rfl, ?_, hc, ?_⟩⟩
      · exact hI.base.lanes.headPub_iff.mp hpub
      · -- a drained queue has nothing published at its head
        rintro ⟨n, hd⟩
        obtain ⟨e, he, hle⟩ := hI.base.shut.drained _ hd
        obtain ⟨d, hd⟩ := hpub
        rcases hI.past e _ he hle with h | h <;> rw [h] at hd <;> cases hd
  · obtain ⟨ho, -⟩ := owed t pos hw
    obtain ⟨n, hd⟩ := hc
    obtain ⟨e, he, hle⟩ := hI.base.shut.drained _ hd
    have hlt := ho.late e he
    have := (hI.base.lanes.head pos).mpr (by omega)
    rw [ho.phase] at this
    cases this

end

/-- The ring is full, a ticket holder waits a lap behind, and a consumer has
claimed the first position. -/
def ticketWaits : List (System.Label casRing) :=
  .invoke (0 : Fin 5) (.tryPush 1) :: ops 0 9 ++ .invoke (0 : Fin 5) (.tryPush 2) :: ops 0 9 ++
  .invoke (0 : Fin 5) (.tryPush 3) :: ops 0 9 ++ .invoke (0 : Fin 5) (.tryPush 4) :: ops 0 9 ++
  .invoke (1 : Fin 5) (.pushTicket 5) :: ops 1 1 ++ .invoke (2 : Fin 5) .pop :: ops 2 5

def isPop : Option (Call Nat) → Bool
  | some .pop => true
  | _ => false

theorem tickets_never_strand_waiting : ∃ x : System.Config casRing, casRing.Reachable x ∧
    inAwaitTurn 4 (x.thread (1 : Fin 5)) = true ∧
    Progress (fun c : Fin 5 => c = 2) x (1 : Fin 5) 4 := by
  obtain ⟨x, hx, hp⟩ := System.reachable_of_test ticketWaits
    (fun x => inAwaitTurn 4 (x.thread (1 : Fin 5)) &&
      decide (x.state.core.seq fourSlots 4 ≠ ⟨4, false⟩) &&
      isPop (x.state.core.ledger.called (x.state.core.ledger.me (2 : Fin 5))))
    (by decide +kernel)
  simp only [Bool.and_eq_true, decide_eq_true_eq] at hp
  obtain ⟨⟨hw, hs⟩, hc⟩ := hp
  refine ⟨x, hx, hw, (tickets_never_strand hx (fun c : Fin 5 => c = 2) ⟨2, rfl⟩ ?_).1 _ _ hw hs⟩
  rintro c rfl k hk
  rw [hk] at hc
  revert hc
  cases k <;> simp [isPop]

end Katas.Turnstile.Go
