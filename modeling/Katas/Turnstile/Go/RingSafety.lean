import Katas.Turnstile.Go.RingOutline
import Katas.Turnstile.LedgerFacts

/-!
# What the Go ring promises

`slots_exclusive`: a slot's `val` is only ever accessed by the goroutine that
holds the slot's current position, and so values are delivered one to one.
`shutdown`: what is known once `Close` has recorded where the queue ends, and
once a pop has returned drained.
-/
namespace Katas.Turnstile.Go
open Katas.Conc Katas.SeqRing

section
variable {V Tid : Type} [Inhabited V] [DecidableEq Tid] {N : Capacity} {o : Options}
  {x : System.Config (ring V Tid N o)}

theorem ring_holds (hx : (ring V Tid N o).Reachable x) :
    ∃ γ : Tid → RingRole V, RingInv N x.state.core γ ∧
      ∀ t a, System.AtOp x t a → ringNeed N t a x.state (γ t) := by
  obtain ⟨γ, hI, hst⟩ := Outline.sound (ringOutline_valid (o := o)) hx.reachableIf
  exact ⟨γ, hI, fun t a ha => (hst t).need hI ha⟩

/-! ## Slots -/

/-- The position whose slot's `val` the operation accesses. -/
def Act.touches : Act V → Option Nat
  | .valStore pos _ | .valLoad pos => some pos
  | _ => none

/-- `t` holds `pos`, and the slot stands at it: to publish it, or claimed. -/
def Holder (N : Capacity) (c : Core V Tid) (t : Tid) (pos : Nat) : Prop :=
  Writes N c t pos ∨ Reads N c t pos

omit [Inhabited V] [DecidableEq Tid] in
/-- A slot has one holder. -/
theorem Holder.unique {c : Core V Tid} {t u : Tid}
    {p q : Nat} (hp : Holder N c t p) (hq : Holder N c u q) (hl : p % N.n = q % N.n) :
    t = u ∧ p = q := by
  have h2 := N.two_le
  have apart : ∀ {p q : Nat}, p % N.n = q % N.n → p ≠ q + 1 := fun hl he => by
    have := Lanes.lane_gap hl.symm (by omega); omega
  rcases hp with hp | hp <;> rcases hq with hq | hq
  · have hs := hp.turn
    rw [hl, hq.turn] at hs
    subst hs
    have := hp.mine.symm.trans hq.mine
    simp only [Ledger.me, Option.some.injEq, Prod.mk.injEq] at this
    exact ⟨this.1, rfl⟩
  · have hs := hp.turn
    have hw : c.ledger.lanes.seq (q % N.n) = ⟨q + 1, false⟩ := hq.2
    rw [hl, hw] at hs
    exact absurd hs.symm (apart hl)
  · have hs := hq.turn
    have hw : c.ledger.lanes.seq (p % N.n) = ⟨p + 1, false⟩ := hp.2
    rw [← hl, hw] at hs
    exact absurd hs.symm (apart hl.symm)
  · have hw : c.ledger.lanes.seq (p % N.n) = ⟨p + 1, false⟩ := hp.2
    have hw' : c.ledger.lanes.seq (q % N.n) = ⟨q + 1, false⟩ := hq.2
    rw [hl, hw'] at hw
    simp only [SeqWord.mk.injEq, and_true] at hw
    obtain rfl : q = p := by omega
    have := hp.1.mine.symm.trans hq.1.mine
    simp only [Ledger.me, Option.some.injEq, Prod.mk.injEq] at this
    exact ⟨this.1, rfl⟩

omit [DecidableEq Tid] in
theorem holder_of_need {t : Tid} {a : Act V} {s : State V Tid} {g : RingRole V} {pos : Nat}
    (h : ringNeed N t a s g) (ha : a.touches = some pos) : Holder N s.core t pos := by
  cases a with
  | valStore p v => cases ha; exact h.imp id And.left
  | valLoad p => cases ha; exact .inr h
  | _ => cases ha

abbrev Delivered (c : Core V Tid) (id id' : CallId Tid) (v : V) : Prop :=
  c.ledger.Delivered Call.stores id id' v

/-- **Exclusive slots, exact delivery.** In every interleaving each store to
a slot is by the goroutine that is to publish its current position, or is
the zeroing by the one that claimed and copied it; each load is by the one
that claimed it after its publication; and no two goroutines are ever at one
slot. Hence a value popped comes from one push, which returns ok, a push is
popped at most once, a published value stays in its slot until it is copied
out, and a position whose `fill` panicked is never returned. -/
theorem slots_exclusive (hx : (ring V Tid N o).Reachable x) :
    (∀ t pos v, System.AtOp x t (.valStore pos v) → Writes N x.state.core t pos ∨
      Reads N x.state.core t pos ∧ v = default ∧ x.state.core.ledger.popped pos ≠ none) ∧
    (∀ t pos, System.AtOp x t (.valLoad pos) → Reads N x.state.core t pos) ∧
    (∀ t u a b p q, System.AtOp x t a → System.AtOp x u b → Act.touches a = some p →
      Act.touches b = some q → p % N.n = q % N.n → t = u ∧ p = q) ∧
    (∀ id v, x.state.core.ledger.results id = some (.pop (.ok v)) →
      ∃ id', Delivered x.state.core id id' v ∧
        (∀ id'' w, Delivered x.state.core id id'' w → id'' = id' ∧ w = v) ∧
        ∀ r, x.state.core.ledger.results id' = some r → r = .push .ok) ∧
    (∀ id₁ id₂ id' v w, Delivered x.state.core id₁ id' v → Delivered x.state.core id₂ id' w →
      id₁ = id₂) ∧
    (∀ pos v, x.state.core.ledger.pushed pos = some v → x.state.core.ledger.popped pos = none →
      x.state.core.slotVal N pos = v) ∧
    (∀ id id' v, x.state.core.ledger.results id' = some .panicked →
      ¬ Delivered x.state.core id id' v) := by
  obtain ⟨γ, hI, hneed⟩ := ring_holds hx
  refine ⟨fun t pos v ha => hneed t _ ha, fun t pos ha => hneed t _ ha, ?_,
    fun id v hr => hI.base.delivered hr, fun _ _ _ _ _ h1 h2 => hI.base.delivered_once h1 h2,
    fun pos v hp hn => hI.base.kept hp hn, fun _ _ _ hr => hI.base.panicked_undelivered hr⟩
  intro t u a b p q ha hb hp hq hl
  exact (holder_of_need (hneed t a ha) hp).unique (holder_of_need (hneed u b hb) hq) hl

end

/-! A run of a small ring. -/

abbrev fourSlots : Capacity := .four

abbrev casRing : System := ring Nat (Fin 5) fourSlots ⟨.cas, false, false, false⟩

/-- `n` operations of `t`, the clock not past `until`. -/
def ops (t : Fin 5) (n : Nat) : List (System.Label casRing) := List.replicate n (.step t 1)

/-- A `fill` panics, a ticket is pushed behind it, and a pop skips the one and
returns the other. -/
def skipPanicked : List (System.Label casRing) :=
  .invoke (0 : Fin 5) (.tryPushFunc ⟨[7], true⟩) :: ops 0 10 ++
  .invoke (1 : Fin 5) (.pushTicket 8) :: ops 1 7 ++ .invoke (2 : Fin 5) .tryPop :: ops 2 14

theorem slots_exclusive_popped : ∃ x : System.Config casRing, casRing.Reachable x ∧
    x.state.core.ledger.results ((0 : Fin 5), 1) = some .panicked ∧
    x.state.core.ledger.results ((2 : Fin 5), 1) = some (.pop (.ok 8)) ∧
    ∃ id', Delivered x.state.core ((2 : Fin 5), 1) id' 8 := by
  obtain ⟨x, hx, hp⟩ := System.reachable_of_test skipPanicked
    (fun x => decide (x.state.core.ledger.results ((0 : Fin 5), 1) = some .panicked ∧
      x.state.core.ledger.results ((2 : Fin 5), 1) = some (.pop (.ok 8)))) (by decide +kernel)
  simp only [decide_eq_true_eq] at hp
  obtain ⟨id', h, -⟩ := (slots_exclusive hx).2.2.2.1 _ _ hp.2
  exact ⟨x, hx, hp.1, hp.2, id', h⟩

section
variable {V Tid : Type} [Inhabited V] [DecidableEq Tid] {N : Capacity} {o : Options}
  {x : System.Config (ring V Tid N o)}

/-! ## Shutdown -/

omit [Inhabited V] in
theorem grows_sem {s s' : State V Tid} {ρ : Tid → RingRole V} (h : RingInv N s.core ρ) {t : Tid}
    {a : Act V} {n : Nat} {r : Resp a} (hs : sem N o t a n s = some (s', r)) : s.core.ledger.Grows s'.core.ledger := by
  by_cases hq : quiet a = true
  · rw [core_of_quiet hq hs]; exact .rfl
  · cases a <;> simp only [quiet, not_true_eq_false] at hq <;> simp only [sem] at hs
    case tailCas word =>
      split at hs <;> cases hs
      · exact h.base.grows_reserve t
      · exact .rfl
    case tailAdd =>
      cases hs
      simp only [State.setLedger]
      split
      · exact ⟨fun _ _ h => h, fun _ _ h => h, fun _ h => h⟩
      · exact h.base.grows_reserve t
    case tailOr => cases hs; exact h.base.grows_setClosed
    case headCas pos =>
      split at hs <;> cases hs
      · rename_i hp; subst hp; exact h.base.grows_claim t _
      · exact .rfl
    all_goals cases hs; exact ⟨fun _ _ h => h, fun _ _ h => h, fun _ h => h⟩

theorem grows_run (hx : (ring V Tid N o).Reachable x) {x' : System.Config (ring V Tid N o)}
    {ls : List (System.Label (ring V Tid N o))} (hr : (ring V Tid N o).lts.Run x ls x') :
    x.state.core.ledger.Grows x'.state.core.ledger := by
  refine LTS.Reachable.lift (R := fun x x' : System.Config (ring V Tid N o) =>
    x.state.core.ledger.Grows x'.state.core.ledger) (fun _ => .rfl) .trans ?_ hx hr
  intro x lb x' hx hs
  obtain ⟨γ, hI, -⟩ := ring_holds hx
  rcases System.step_cases hs with he | ⟨t, c, he⟩ | ⟨t, c, r, he⟩ | ⟨t, a, n, r, hsem⟩
  · rw [he]; exact .rfl
  · rw [he]; exact ⟨fun _ _ h => h, fun _ _ h => h, fun _ h => h⟩
  · rw [he]; exact ⟨fun _ _ h => h, fun _ _ h => h, fun _ h => h⟩
  · exact grows_sem hI hsem

omit [Inhabited V] [DecidableEq Tid] in
theorem RingInv.head_le {c : Core V Tid} {ρ : Tid → RingRole V} (h : RingInv N c ρ) {e : Nat}
    (he : c.ledger.closePos = some e) : c.ledger.lanes.head ≤ e := by
  refine Nat.le_of_not_lt fun hlt => ?_
  have ht := (h.base.lanes.head e).mpr hlt
  rcases h.past e e he (Nat.le_refl _) with hp | hp <;> rw [hp] at ht <;> cases ht

/-- **Shutdown.** Once `closedAt` says `e + 1`, the closed bit went in at
`e`: the positions below `e` are the reserved ones, none from `e` on is ever
published, and the head stays at `e` or below. Once a pop has returned
drained, the head is at `e` and every position below is claimed, among them
that of every push that returns ok in any continuation, and no call that
begins later returns a value. -/
theorem shutdown (hx : (ring V Tid N o).Reachable x) :
    (∀ e, x.state.core.closedAt = e + 1 → x.state.core.ledger.closePos = some e ∧
      (∀ pos, pos < e ↔ x.state.core.ledger.reservedBy pos ≠ none) ∧
      (∀ pos, e ≤ pos → (x.state.core.ledger.lanes.phase pos).unpublished = true) ∧
      x.state.core.ledger.lanes.head ≤ e) ∧
    (∀ id, x.state.core.ledger.results id = some (.pop .drained) →
      ∃ e, x.state.core.ledger.closePos = some e ∧ x.state.core.ledger.lanes.head = e ∧
        (∀ pos, pos < e → x.state.core.ledger.claimedBy pos ≠ none) ∧
        ∀ ls x', (ring V Tid N o).lts.Run x ls x' →
          (∀ id', x'.state.core.ledger.results id' = some (.push .ok) →
            ∃ pos, x.state.core.ledger.reservedBy pos = some id' ∧
              x.state.core.ledger.claimedBy pos ≠ none) ∧
          ∀ t n v, x.state.core.ledger.calls t < n →
            x'.state.core.ledger.results (t, n) ≠ some (.pop (.ok v))) := by
  obtain ⟨γ, hI, -⟩ := ring_holds hx
  constructor
  · intro e he
    have hce : x.state.core.ledger.closePos = some e := by
      have := hI.closedAt.resolve_left (by omega)
      rwa [he] at this
    refine ⟨hce, fun pos => ⟨fun hp => hI.base.reserved_before hce hp, fun hp => ?_⟩,
      fun pos hp => ?_, hI.head_le hce⟩
    · refine Nat.lt_of_not_le fun hle => hp ((hI.base.owned.unowned pos).mpr ?_)
      exact hI.past e pos hce hle
    · rcases hI.past e pos hce hp with h | h <;> rw [h] <;> rfl
  · intro id hd
    obtain ⟨e, he, hle⟩ := hI.base.shut.drained id hd
    have hhead : x.state.core.ledger.lanes.head = e := Nat.le_antisymm (hI.head_le he) hle
    refine ⟨e, he, hhead, fun pos hp => hI.base.claimed_below (by omega), fun ls x' hr => ?_⟩
    obtain ⟨γ', hI', -⟩ := ring_holds (hx.run hr)
    have hgrow := grows_run hx hr
    refine ⟨fun id' hid => ?_, fun t n v hn => hI.base.drained_final hd hI'.base hgrow hn v⟩
    obtain ⟨pos, hp, -, hbefore⟩ := hI'.base.ok_before hid
    have hlt := hbefore e (hgrow.close e he)
    refine ⟨pos, ?_, hI.base.claimed_below (by omega)⟩
    cases hres : x.state.core.ledger.reservedBy pos with
    | none => exact absurd hres (hI.base.reserved_before he hlt)
    | some id₀ => rw [hgrow.reserved pos id₀ hres] at hp; exact hp

end

/-- A push, the close, a refused ticket, and two pops. -/
def drainedRun : List (System.Label casRing) :=
  .invoke (0 : Fin 5) (.pushTicket 8) :: ops 0 7 ++ .invoke (0 : Fin 5) .close :: ops 0 9 ++
  .invoke (1 : Fin 5) (.pushTicket 9) :: ops 1 2 ++ .invoke (2 : Fin 5) .pop :: ops 2 11 ++
  .invoke (2 : Fin 5) .pop :: ops 2 267

theorem shutdown_drained : ∃ x : System.Config casRing, casRing.Reachable x ∧
    x.state.core.ledger.results ((2 : Fin 5), 2) = some (.pop .drained) ∧
    x.state.core.closedAt = 2 ∧ x.state.core.ledger.lanes.tail = 2 ∧
    x.state.core.ledger.lanes.head = 1 ∧ x.state.core.ledger.claimedBy 0 ≠ none := by
  obtain ⟨x, hx, hp⟩ := System.reachable_of_test drainedRun
    (fun x => decide (x.state.core.ledger.results ((2 : Fin 5), 2) = some (.pop .drained) ∧
      x.state.core.closedAt = 2 ∧ x.state.core.ledger.lanes.tail = 2)) (by decide +kernel)
  simp only [decide_eq_true_eq] at hp
  obtain ⟨hr, hc, ht⟩ := hp
  obtain ⟨hclose, -⟩ := (shutdown hx).1 1 hc
  obtain ⟨e, he, hh, hcl, -⟩ := (shutdown hx).2 _ hr
  obtain rfl : 1 = e := Option.some.inj (hclose.symm.trans he)
  exact ⟨x, hx, hr, hc, ht, hh, hcl 0 (by omega)⟩

end Katas.Turnstile.Go
