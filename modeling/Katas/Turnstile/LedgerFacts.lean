import Katas.Turnstile.LedgerSteps

/-!
# What the ledger's invariant says of a history

Values are delivered one to one, a drained queue has handed out every
position reserved before the close, and what the history says of a position
stays said.
-/
namespace Katas.Turnstile.Ledger
open Katas.Conc (upd upd_self upd_ne upd_apply)
open Katas.SeqRing

section
variable {V K Tid X : Type} [DecidableEq Tid] {N : Nat} {D : Contents X V}
  {stores : K → V → Prop} {l : Ledger V K Tid} {cell : Nat → X} {ρ : Tid → Role V K}
  {t u : Tid} {p : Nat}

/-! ## Deliveries -/

/-- Pop `id` took the value that push `id'` stored. -/
def Delivered (stores : K → V → Prop) (l : Ledger V K Tid) (id id' : CallId Tid) (v : V) : Prop :=
  ∃ p k, l.claimedBy p = some id ∧ l.popped p = some v ∧ l.reservedBy p = some id' ∧
    l.called id' = some k ∧ stores k v

section
omit [DecidableEq Tid]

/-- A pop's value comes from one push, which returns ok if it has returned. -/
theorem Inv.delivered (h : l.Inv N D stores cell ρ) {id : CallId Tid} {v : V}
    (hr : l.results id = some (.pop (.ok v))) :
    ∃ id', l.Delivered stores id id' v ∧
      (∀ id'' w, l.Delivered stores id id'' w → id'' = id' ∧ w = v) ∧
      ∀ r, l.results id' = some r → r = .push .ok := by
  obtain ⟨p, hc, hv⟩ := h.booked.pop id v hr
  obtain ⟨hpush, -⟩ := h.stocked.popped_pushed p v hv
  have hlive : live (l.lanes.phase p) = true := by rw [← h.stocked.pushed_live, hpush]; rfl
  cases hres : l.reservedBy p with
  | none =>
    rcases (h.owned.unowned p).mp hres with he | he <;> rw [he] at hlive <;> cases hlive
  | some id' =>
    obtain ⟨k, hk, hs⟩ := h.stocked.pushed_by p v id' hpush hres
    refine ⟨id', ⟨p, k, hc, hv, hres, hk, hs⟩, fun id'' w hd => ?_, fun r hr' => ?_⟩
    · obtain ⟨q, k', hc', hv', hres', -, -⟩ := hd
      obtain ⟨hpush', -⟩ := h.stocked.popped_pushed q w hv'
      have hlive' : live (l.lanes.phase q) = true := by rw [← h.stocked.pushed_live, hpush']; rfl
      obtain rfl := h.owned.claim_inj q p id hc' hc hlive' hlive
      rw [hres] at hres'; rw [hv] at hv'
      exact ⟨(Option.some.inj hres').symm, (Option.some.inj hv').symm⟩
    · rcases h.booked.paid id' r p hr' hres with ⟨hr', -⟩ | ⟨-, hd, -⟩ | ⟨-, hd, -⟩
      · exact hr'
      all_goals cases hp : l.lanes.phase p <;> rw [hp] at hd hlive <;>
        simp_all [live, Phase.isDead]

/-- No push is delivered twice. -/
theorem Inv.delivered_once (h : l.Inv N D stores cell ρ) {id₁ id₂ id' : CallId Tid} {v w : V}
    (h1 : l.Delivered stores id₁ id' v) (h2 : l.Delivered stores id₂ id' w) : id₁ = id₂ := by
  obtain ⟨p, k, hc, -, hr, -⟩ := h1
  obtain ⟨q, k', hc', -, hr', -⟩ := h2
  obtain rfl := h.owned.resv_inj p q id' hr hr'
  exact Option.some.inj (hc.symm.trans hc')

theorem Inv.dead_unpopped (h : l.Inv N D stores cell ρ) (hp : (l.lanes.phase p).isDead = true) :
    l.pushed p = none ∧ l.popped p = none := by
  have hn : l.pushed p = none := by
    have hl := h.stocked.pushed_live p
    cases he : l.pushed p with
    | none => rfl
    | some v => rw [he] at hl; cases hq : l.lanes.phase p <;> simp_all [live, Phase.isDead]
  refine ⟨hn, ?_⟩
  cases he : l.popped p with
  | none => rfl
  | some v => have := (h.stocked.popped_pushed p v he).1; rw [hn] at this; cases this

/-- The position of a push that panicked is never returned. -/
theorem Inv.panicked_undelivered (h : l.Inv N D stores cell ρ) {id id' : CallId Tid} {v : V}
    (hr : l.results id' = some .panicked) : ¬ l.Delivered stores id id' v := by
  rintro ⟨p, k, -, hv, hres, -⟩
  obtain ⟨q, hq, hd⟩ := h.booked.panicked id' hr
  obtain rfl := h.owned.resv_inj p q id' hres hq
  rw [(h.dead_unpopped hd).2] at hv
  cases hv

/-- A published value stays in its slot until it is copied out. -/
theorem Inv.kept (h : l.Inv N D stores cell ρ) {v : V} (hv : l.pushed p = some v)
    (hn : l.popped p = none) : D.full (cell (p % N)) v := by
  have hlive : live (l.lanes.phase p) = true := by rw [← h.stocked.pushed_live, hv]; rfl
  cases hph : l.lanes.phase p with
  | vacant | reserved | refused => rw [hph] at hlive; cases hlive
  | published d =>
    cases d with
    | true => rw [hph] at hlive; cases hlive
    | false =>
      obtain ⟨w, hw, hf⟩ := h.stocked.shown p hph
      rw [hv] at hw; cases hw; exact hf
  | claimed d =>
    cases d with
    | true => rw [hph] at hlive; cases hlive
    | false =>
      cases hc : l.claimedBy p with
      | none =>
        have := (h.owned.unclaimed p).mp hc
        rw [hph] at this; cases this
      | some id =>
        obtain ⟨t, n⟩ := id
        have ho := h.owned.claiming p false t n hph hc
        have hf := h.fits t
        unfold Fits at hf
        split at hf
        · rw [hf] at ho; cases ho
        · revert ho
          have hsit := hf.2
          cases hst : (ρ t).stage <;> rw [hst] at hsit <;>
            simp only [Stage.opens, Option.some.injEq, reduceCtorEq, false_implies] <;>
            rintro rfl
          · have := hsit.1.phase; rw [hph] at this; cases this
          · obtain ⟨-, w, hw, hf⟩ := hsit
            rw [hv] at hw; cases hw; exact hf
          · rw [hsit.2.1] at hn; cases hn
          · rw [hsit.2.1] at hn; cases hn
  | released d =>
    cases d with
    | true => rw [hph] at hlive; cases hlive
    | false =>
      obtain ⟨w, hw⟩ := h.stocked.gone p hph
      rw [hw] at hn; cases hn

end

/-! ## Order -/

/-- A thread's later call reserves, and claims, later positions. -/
structure Sorted (l : Ledger V K Tid) : Prop where
  reserved : ∀ p q t n m, p < q → l.reservedBy p = some (t, n) → l.reservedBy q = some (t, m) →
    n ≤ m
  claimed : ∀ p q t n m, p < q → l.claimedBy p = some (t, n) → l.claimedBy q = some (t, m) →
    n ≤ m

section
omit [DecidableEq Tid]

theorem init_sorted : (init : Ledger V K Tid).Sorted :=
  ⟨fun _ _ _ _ _ _ h => (nomatch h), fun _ _ _ _ _ _ h => (nomatch h)⟩

theorem Inv.unreserved (h : l.Inv N D stores cell ρ) (hp : l.lanes.tail ≤ p) :
    l.reservedBy p = none :=
  (h.owned.unowned p).mpr (.inl ((h.lanes.tail p).mpr hp))

theorem Inv.not_claimed (h : l.Inv N D stores cell ρ) (hp : l.lanes.head ≤ p) :
    l.claimedBy p = none := by
  refine (h.owned.unclaimed p).mpr ?_
  cases ht : (l.lanes.phase p).taken with
  | false => rfl
  | true =>
    have := (h.lanes.head p).mp ht
    omega

theorem Inv.sorted_reserve (h : l.Inv N D stores cell ρ) (hs : l.Sorted) (t : Tid) :
    (l.reserve t).Sorted := by
  refine ⟨fun p q u n m hlt hp hq => ?_, hs.claimed⟩
  simp only [reserve, upd_apply] at hp hq
  split at hq
  · rename_i he
    cases hq
    rw [if_neg (by omega)] at hp
    exact h.owned.resv_old p _ n hp
  · by_cases he : p = l.lanes.tail
    · rw [h.unreserved (by omega)] at hq
      cases hq
    · rw [if_neg he] at hp
      exact hs.reserved p q u n m hlt hp hq

theorem Inv.sorted_claim (h : l.Inv N D stores cell ρ) (hs : l.Sorted) (t : Tid) (d : Bool) :
    (l.claim t l.lanes.head d).Sorted := by
  refine ⟨hs.reserved, fun p q u n m hlt hp hq => ?_⟩
  simp only [claim, upd_apply] at hp hq
  split at hq
  · rename_i he
    cases hq
    rw [if_neg (by omega)] at hp
    exact h.owned.claim_old p _ n hp
  · by_cases he : p = l.lanes.head
    · rw [h.not_claimed (by omega)] at hq
      cases hq
    · rw [if_neg he] at hp
      exact hs.claimed p q u n m hlt hp hq

theorem Inv.popped_live (h : l.Inv N D stores cell ρ) {v : V} (hv : l.popped p = some v) :
    live (l.lanes.phase p) = true := by
  obtain ⟨hpush, -⟩ := h.stocked.popped_pushed p v hv
  rw [← h.stocked.pushed_live, hpush]
  rfl

/-- What `t` takes of `u`'s values, it takes in the order of `u`'s pushes. -/
theorem Inv.in_order (h : l.Inv N D stores cell ρ) (hs : l.Sorted) {n₁ n₂ m₁ m₂ : Nat} {v₁ v₂ : V}
    (h₁ : l.Delivered stores (t, n₁) (u, m₁) v₁) (h₂ : l.Delivered stores (t, n₂) (u, m₂) v₂) :
    n₁ < n₂ ↔ m₁ < m₂ := by
  obtain ⟨p, -, hc₁, hv₁, hr₁, -⟩ := h₁
  obtain ⟨q, -, hc₂, hv₂, hr₂, -⟩ := h₂
  -- two values of one call would be at one position
  have hn : n₁ = n₂ → p = q := fun he => by
    subst he
    exact h.owned.claim_inj p q _ hc₁ hc₂ (h.popped_live hv₁) (h.popped_live hv₂)
  have hm : m₁ = m₂ → p = q := fun he => by
    subst he
    exact h.owned.resv_inj p q _ hr₁ hr₂
  rcases Nat.lt_trichotomy p q with hlt | rfl | hlt
  · have h1 := hs.claimed p q t n₁ n₂ hlt hc₁ hc₂
    have h2 := hs.reserved p q u m₁ m₂ hlt hr₁ hr₂
    omega
  · rw [hc₁] at hc₂
    rw [hr₁] at hr₂
    cases hc₂
    cases hr₂
    omega
  · have h1 := hs.claimed q p t n₂ n₁ hlt hc₂ hc₁
    have h2 := hs.reserved q p u m₂ m₁ hlt hr₂ hr₁
    omega

end

/-! ## Shutdown -/

section
omit [DecidableEq Tid]

/-- A push that returned ok has a position reserved before the close. -/
theorem Inv.ok_before (h : l.Inv N D stores cell ρ) {id : CallId Tid}
    (hr : l.results id = some (.push .ok)) :
    ∃ p, l.reservedBy p = some id ∧ live (l.lanes.phase p) = true ∧
      ∀ e, l.closePos = some e → p < e := by
  obtain ⟨p, v, hp, hv⟩ := h.booked.push id hr
  have hlive : live (l.lanes.phase p) = true := by rw [← h.stocked.pushed_live, hv]; rfl
  refine ⟨p, hp, hlive, fun e he => Nat.lt_of_not_le fun hle => ?_⟩
  rw [h.shut.after e p he hle] at hlive
  cases hlive

/-- Below the close every position was reserved. -/
theorem Inv.reserved_before (h : l.Inv N D stores cell ρ) {e : Nat} (he : l.closePos = some e)
    (hp : p < e) : l.reservedBy p ≠ none := by
  intro hn
  rcases (h.owned.unowned p).mp hn with hv | hv
  · have h1 := (h.lanes.tail p).mp hv
    have h2 := h.shut.end_le e he
    omega
  · obtain ⟨e', he', hle⟩ := h.shut.refused p hv
    rw [he] at he'; cases he'; omega

theorem Inv.claimed_below (h : l.Inv N D stores cell ρ) (hp : p < l.lanes.head) :
    l.claimedBy p ≠ none := by
  intro hn
  have := (h.owned.unclaimed p).mp hn
  rw [(h.lanes.head p).mpr hp] at this
  cases this

end

/-! ## What stays -/

/-- Reservations, claims and the close are for good. -/
structure Grows (l l' : Ledger V K Tid) : Prop where
  reserved : ∀ p id, l.reservedBy p = some id → l'.reservedBy p = some id
  claimed : ∀ p id, l.claimedBy p = some id → l'.claimedBy p = some id
  close : ∀ e, l.closePos = some e → l'.closePos = some e

section
omit [DecidableEq Tid]

theorem Grows.rfl : l.Grows l := ⟨fun _ _ h => h, fun _ _ h => h, fun _ h => h⟩

theorem Grows.trans {l₁ l₂ l₃ : Ledger V K Tid} (h : l₁.Grows l₂) (h' : l₂.Grows l₃) :
    l₁.Grows l₃ :=
  ⟨fun p id hp => h'.reserved p id (h.reserved p id hp),
    fun p id hp => h'.claimed p id (h.claimed p id hp), fun e he => h'.close e (h.close e he)⟩

theorem Inv.grows_reserve (h : l.Inv N D stores cell ρ) (t : Tid) : l.Grows (l.reserve t) := by
  refine ⟨fun p id hp => ?_, fun _ _ h => h, fun e he => he⟩
  have hn := h.unreserved (Nat.le_refl l.lanes.tail)
  by_cases he : p = l.lanes.tail
  · subst he; rw [hn] at hp; cases hp
  · simpa [reserve, upd_apply, he] using hp

theorem Inv.grows_setClosed (h : l.Inv N D stores cell ρ) : l.Grows l.setClosed := by
  refine ⟨fun p id hp => hp, fun p id hp => hp, fun e he => ?_⟩
  cases hcl : l.closed with
  | true => simpa [setClosed, hcl] using he
  | false => rw [h.end_of_open hcl] at he; cases he

theorem Inv.grows_claim (h : l.Inv N D stores cell ρ) (t : Tid) (d : Bool) :
    l.Grows (l.claim t l.lanes.head d) := by
  refine ⟨fun _ _ h => h, fun p id hp => ?_, fun _ h => h⟩
  have hn := h.not_claimed (Nat.le_refl l.lanes.head)
  by_cases he : p = l.lanes.head
  · subst he; rw [hn] at hp; cases hp
  · simpa [claim, upd_apply, he] using hp

/-- Once a pop has returned drained, every position reserved before the close
is claimed, whatever comes later. -/
theorem Inv.drained_claimed (h : l.Inv N D stores cell ρ) {id : CallId Tid}
    (hd : l.results id = some (.pop .drained)) {l' : Ledger V K Tid} {cell' : Nat → X}
    {ρ' : Tid → Role V K} (h' : l'.Inv N D stores cell' ρ') (hg : l.Grows l')
    (hl : live (l'.lanes.phase p) = true) : ∃ id', l.claimedBy p = some id' := by
  obtain ⟨e, he, hle⟩ := h.shut.drained id hd
  have hlt : p < e := Nat.lt_of_not_le fun hle' => by
    rw [h'.shut.after e p (hg.close e he) hle'] at hl; cases hl
  exact Option.ne_none_iff_exists'.mp (h.claimed_below (by omega))

/-- No call that begins after a pop returned drained returns a value. -/
theorem Inv.drained_final (h : l.Inv N D stores cell ρ) {id : CallId Tid}
    (hd : l.results id = some (.pop .drained)) {l' : Ledger V K Tid} {cell' : Nat → X}
    {ρ' : Tid → Role V K} (h' : l'.Inv N D stores cell' ρ') (hg : l.Grows l') {n : Nat}
    (hn : l.calls t < n) (v : V) : l'.results (t, n) ≠ some (.pop (.ok v)) := by
  intro hr
  obtain ⟨p, hc, hv⟩ := h'.booked.pop _ v hr
  have hlive : live (l'.lanes.phase p) = true := by
    rw [← h'.stocked.pushed_live, (h'.stocked.popped_pushed p v hv).1]; rfl
  obtain ⟨id', hid⟩ := h.drained_claimed hd h' hg hlive
  have hc' := hg.claimed p id' hid
  rw [hc] at hc'
  cases hc'
  have := h.owned.claim_old p t n hid
  omega

end

/-! ## Who waits for whom -/

/-- `t` is to publish `q`, and the slot is ready. -/
def Ready (N : Nat) (l : Ledger V K Tid) (t : Tid) (q : Nat) : Prop :=
  l.reservedBy q = some (l.me t) ∧ l.lanes.phase q = .reserved ∧ l.lanes.seq (q % N) = ⟨q, false⟩

/-- `t` is between the claim of `q` and its release. -/
def Releasing (l : Ledger V K Tid) (t : Tid) (q : Nat) : Prop := ∃ d, l.Took t q (.claimed d)

omit [DecidableEq Tid]

/-- A thread with a stage is in a call. -/
theorem Inv.in_call (h : l.Inv N D stores cell ρ) (hst : (ρ t).stage ≠ .none) :
    ∃ k, (ρ t).call = some k ∧ l.called (l.me t) = some k ∧
      l.Sits N D stores cell t k (ρ t).stage := by
  have hf := h.fits t
  unfold Fits at hf
  split at hf
  · exact absurd hf hst
  · rename_i k hk
    exact ⟨k, hk, hf⟩

/-- Who reserved a position that is not yet published. -/
theorem Inv.reserver (h : l.Inv N D stores cell ρ) (hp : l.lanes.phase p = .reserved) :
    ∃ t, l.reservedBy p = some (l.me t) ∧ (ρ t).stage.owes = some p := by
  cases hr : l.reservedBy p with
  | none =>
    have := (h.owned.unowned p).mp hr
    rw [hp] at this
    simp at this
  | some id =>
    obtain ⟨t, n⟩ := id
    have ho := h.owned.owing p t n hp hr
    obtain ⟨k, -, -, hs⟩ := h.in_call (t := t) fun he => by rw [he] at ho; cases ho
    refine ⟨t, ?_, ho⟩
    revert ho
    cases hst : (ρ t).stage <;> rw [hst] at hs <;>
      simp only [Stage.owes, Option.some.injEq, reduceCtorEq, false_implies] <;> rintro rfl
    · exact Option.some.inj (hr.symm.trans hs.mine)
    · exact Option.some.inj (hr.symm.trans hs.1.mine)
    · exact Option.some.inj (hr.symm.trans hs.1.mine)

/-- Who claimed a position that is not yet released. -/
theorem Inv.claimer (h : l.Inv N D stores cell ρ) {d : Bool}
    (hp : l.lanes.phase p = .claimed d) : ∃ t, l.Releasing t p ∧ (ρ t).stage.opens = some p := by
  cases hc : l.claimedBy p with
  | none =>
    have := (h.owned.unclaimed p).mp hc
    rw [hp] at this; cases this
  | some id =>
    obtain ⟨t, n⟩ := id
    have ho := h.owned.claiming p d t n hp hc
    obtain ⟨k, -, -, hs⟩ := h.in_call (t := t) fun he => by rw [he] at ho; cases ho
    refine ⟨t, ?_, ho⟩
    revert ho
    cases hst : (ρ t).stage <;> rw [hst] at hs <;>
      simp only [Stage.opens, Option.some.injEq, reduceCtorEq, false_implies] <;> rintro rfl
    all_goals exact ⟨_, hs.1⟩

/-- A ticket holder whose slot does not show its position waits for an earlier
one, which another thread is to publish or release, or which is published at
the head. -/
theorem Inv.stalled (h : l.Inv N D stores cell ρ) {late : Bool}
    (hst : (ρ t).stage = .waits p late) (hs : l.lanes.seq (p % N) ≠ ⟨p, false⟩)
    (hno : ∀ q, q < p → l.lanes.phase q ≠ .refused) :
    (∃ u q, u ≠ t ∧ q < p ∧ (l.Ready N u q ∨ l.Releasing u q) ∧ (ρ u).call ≠ none) ∨
    l.lanes.head < p ∧ l.lanes.headPub ∧
      ∃ q d, q < p ∧ q % N = p % N ∧ l.lanes.phase q = .published d := by
  obtain ⟨k, -, -, hsit⟩ := h.in_call (t := t) (by rw [hst]; simp)
  rw [hst] at hsit
  have ho : l.Owed t p late := hsit
  have other : ∀ {u q}, (ρ u).stage.owes = some q ∨ (ρ u).stage.opens = some q → q < p →
      u ≠ t ∧ (ρ u).call ≠ none := by
    intro u q hu hlt
    refine ⟨?_, fun hn => ?_⟩
    · rintro rfl
      rw [hst] at hu
      rcases hu with hu | hu <;> cases hu
      omega
    · have hf := h.fits u
      rw [Fits, hn] at hf
      rw [show (ρ u).stage = .none from hf] at hu
      rcases hu with hu | hu <;> cases hu
  rcases h.lanes.stalled ho.phase hs with ⟨q, hlt, hq, hw⟩ | ⟨q, d, hlt, hq⟩ | hhead
  · have hq := hq.resolve_right (hno q hlt)
    obtain ⟨u, hu, howes⟩ := h.reserver hq
    obtain ⟨hne, hcall⟩ := other (.inl howes) hlt
    exact .inl ⟨u, q, hne, hlt, .inl ⟨hu, hq, hw⟩, hcall⟩
  · obtain ⟨u, hu, hopens⟩ := h.claimer hq
    obtain ⟨hne, hcall⟩ := other (.inr hopens) hlt
    exact .inl ⟨u, q, hne, hlt, .inr hu, hcall⟩
  · exact .inr hhead

end
end Katas.Turnstile.Ledger
