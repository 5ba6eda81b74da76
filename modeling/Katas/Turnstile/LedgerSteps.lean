import Katas.Turnstile.LedgerInv

/-!
# The ledger's operations keep its invariant

One lemma for each operation: what the stage of the thread that does it must
be, and what it becomes. `sits_*` are the frame lemmas: what every other
thread's stage says still holds after the operation.
-/
namespace Katas.Turnstile.Ledger
open Katas.Conc (upd upd_self upd_ne upd_apply)
open Katas.SeqRing
open Katas.SeqRing.Lanes (lane_gap)

section
variable {V K Tid X : Type} [DecidableEq Tid] {N : Nat} {D : Contents X V}
  {stores : K → V → Prop} {l : Ledger V K Tid} {cell : Nat → X} {ρ : Tid → Role V K}
  {t u : Tid} {k : K} {st : Stage V} {p : Nat}

/-- The fits of all threads, from those of `t` and of the others. -/
theorem fits_upd {l' : Ledger V K Tid} {cell' : Nat → X} (h : ∀ u, l.Fits N D stores cell u (ρ u))
    (hk : (ρ t).call = some k) (hcalls : l'.calls = l.calls) (hcalled : l'.called = l.called)
    (ht : l'.Sits N D stores cell' t k st)
    (hu : ∀ u k st, u ≠ t → l.Sits N D stores cell u k st → l'.Sits N D stores cell' u k st) :
    ∀ u, l'.Fits N D stores cell' u (upd ρ t ((ρ t).into st) u) := by
  intro u
  have h1 := h u
  by_cases he : u = t
  · subst he
    simp only [Fits, hk] at h1
    simp only [upd_self, Fits, Role.into, hk]
    exact ⟨by simpa only [me, hcalls, hcalled] using h1.1, ht⟩
  · rw [upd_ne _ _ he]
    unfold Fits at h1 ⊢
    split at h1
    · exact h1
    · exact ⟨by simpa only [me, hcalls, hcalled] using h1.1, hu u _ _ he h1.2⟩

/-- A slot filled by its holder still is, or `t` held it and left it bare. -/
theorem filled_upd {x : X} {g : Role V K} (h : D.bare x ∨ ∃ u v, (ρ u).stage = .filled p v)
    (hf : ∀ v, (ρ t).stage = .filled p v → D.bare x) :
    D.bare x ∨ ∃ u v, (upd ρ t g u).stage = .filled p v := by
  obtain hx | ⟨u, v, hu⟩ := h
  · exact .inl hx
  · by_cases he : u = t
    · subst he; exact .inl (hf v hu)
    · exact .inr ⟨u, v, by rw [upd_ne _ _ he]; exact hu⟩

/-! ## Calls that have returned -/

/-- What the calls that have returned did stays as it was. -/
structure Keeps (l l' : Ledger V K Tid) : Prop where
  reserved : ∀ q id, l.reservedBy q = some id → l'.reservedBy q = some id
  claimed : ∀ q id, l.claimedBy q = some id → l'.claimedBy q = some id
  pushed : ∀ q v, l.pushed q = some v → l'.pushed q = some v
  popped : ∀ q v, l.popped q = some v → l'.popped q = some v
  paid : ∀ q id, l'.reservedBy q = some id → l.results id ≠ none → l.reservedBy q = some id ∧
    live (l'.lanes.phase q) = live (l.lanes.phase q) ∧
    (l'.lanes.phase q).isDead = (l.lanes.phase q).isDead ∧
    ∀ late, Late l.closePos q late → Late l'.closePos q late
  taken : ∀ q id, l'.claimedBy q = some id → l.results id ≠ none → l.claimedBy q = some id ∧
    live (l'.lanes.phase q) = live (l.lanes.phase q)

omit [DecidableEq Tid] in
theorem Booked.keep {l' : Ledger V K Tid} {ρ' : Tid → Role V K} (h : l.Booked ρ)
    (hcalls : l'.calls = l.calls) (hres : l'.results = l.results)
    (hcall : ∀ u, (ρ' u).call = (ρ u).call) (hk : l.Keeps l') : l'.Booked ρ' where
  old t n r hr := by
    rw [hcalls, hcall]
    exact h.old t n r (hres ▸ hr)
  push id hr := by
    obtain ⟨q, v, hq, hv⟩ := h.push id (hres ▸ hr)
    exact ⟨q, v, hk.reserved q id hq, hk.pushed q v hv⟩
  panicked id hr := by
    rw [hres] at hr
    obtain ⟨q, hq, hd⟩ := h.panicked id hr
    have hq' := hk.reserved q id hq
    obtain ⟨-, -, hdead, -⟩ := hk.paid q id hq' (by rw [hr]; nofun)
    exact ⟨q, hq', hdead ▸ hd⟩
  paid id r q hr hq := by
    rw [hres] at hr
    obtain ⟨hq', hlive, hdead, hlate⟩ := hk.paid q id hq (by rw [hr]; nofun)
    unfold Paid
    rw [hlive, hdead]
    rcases h.paid id r q hr hq' with hp | ⟨hr, hd, hl⟩ | ⟨hr, hd, hl⟩
    · exact .inl hp
    · exact .inr (.inl ⟨hr, hd, hlate _ hl⟩)
    · exact .inr (.inr ⟨hr, hd, hlate _ hl⟩)
  pop id v hr := by
    obtain ⟨q, hq, hv⟩ := h.pop id v (hres ▸ hr)
    exact ⟨q, hk.claimed q id hq, hk.popped q v hv⟩
  claimed id r q hr hq hl := by
    rw [hres] at hr
    obtain ⟨hq', hlive⟩ := hk.taken q id hq (by rw [hr]; nofun)
    obtain ⟨v, hv, hpop⟩ := h.claimed id r q hr hq' (hlive ▸ hl)
    exact ⟨v, hv, hk.popped q v hpop⟩

omit [DecidableEq Tid] in
/-- A call in progress has no record. -/
theorem Booked.unreturned (h : l.Booked ρ) (hk : (ρ t).call = some k) :
    l.results (l.me t) = none := by
  cases hr : l.results (l.me t) with
  | none => rfl
  | some r => exact absurd ((h.old t _ r hr).2 (by rw [hk]; nofun)) (Nat.lt_irrefl _)

/-- A new stage is no new call. -/
theorem call_into (ρ : Tid → Role V K) (t : Tid) (st : Stage V) (u : Tid) :
    (upd ρ t ((ρ t).into st) u).call = (ρ u).call := by
  by_cases hu : u = t
  · subst hu
    rw [upd_self]
    rfl
  · rw [upd_ne _ _ hu]

/-! ## A thread learns something -/

/-- Only the stage changes, and its owner still owes and has what it did. -/
theorem inv_restage (h : l.Inv N D stores cell ρ) (hk : (ρ t).call = some k)
    (hr : st.resv = (ρ t).stage.resv) (ho : st.owes = (ρ t).stage.owes)
    (hc : st.claim = (ρ t).stage.claim) (hp : st.opens = (ρ t).stage.opens)
    (hs : l.Sits N D stores cell t k st)
    (hf : ∀ p v, (ρ t).stage = .filled p v → D.bare (cell (p % N))) :
    l.Inv N D stores cell (upd ρ t ((ρ t).into st)) := by
  obtain ⟨h1, h2, h3, h4, h5, h6, h7, h8, h9, h10⟩ := h.owned
  refine ⟨h.lanes, fits_upd h.fits hk rfl rfl hs fun _ _ _ _ hs => hs, ?_, ?_, h.shut, ?_⟩
  · exact ⟨h1, h2, h3, by grind [Role.into, upd_apply], by grind [Role.into, upd_apply], h6, h7, h8,
      by grind [Role.into, upd_apply], by grind [Role.into, upd_apply]⟩
  · obtain ⟨s1, s2, s3, s4, s5, s7, s6⟩ := h.stocked
    refine ⟨s1, s2, fun p hp hq => ?_, s4, s5, s7, s6⟩
    exact filled_upd (s3 p hp hq) (hf p)
  · obtain ⟨b1, b2, b3, b4, b5, b6⟩ := h.booked
    exact ⟨by simpa only [call_into] using b1, b2, b3, b4, b5, b6⟩

theorem inv_sight (h : l.Inv N D stores cell ρ) (hk : (ρ t).call = some k)
    (hi : (ρ t).stage.idle = true) (hi' : st.idle = true)
    (hs : l.Sits N D stores cell t k st) : l.Inv N D stores cell (upd ρ t ((ρ t).into st)) := by
  obtain ⟨h1, h2, h3, h4⟩ := Stage.idle_iff.mp hi
  obtain ⟨h1', h2', h3', h4'⟩ := Stage.idle_iff.mp hi'
  refine inv_restage h hk (h1'.trans h1.symm) (h2'.trans h2.symm) (h3'.trans h3.symm)
    (h4'.trans h4.symm) hs fun p v he => ?_
  rw [he] at hi; cases hi

theorem inv_forget (h : l.Inv N D stores cell ρ) (hk : (ρ t).call = some k)
    (hi : (ρ t).stage.idle = true) : l.Inv N D stores cell (upd ρ t ((ρ t).into .none)) :=
  inv_sight h hk hi rfl trivial

omit [DecidableEq Tid] in
/-- A reserved position's slot, when it is there, is bare. -/
theorem bare_of_turn (h : l.Inv N D stores cell ρ) {late : Bool} (ho : l.Owed t p late)
    (hst : ∀ v, (ρ t).stage ≠ .filled p v) (hs : (l.lanes.seq (p % N)).stamp = p) :
    D.bare (cell (p % N)) := by
  rcases h.stocked.free p (by simp [ho.phase, Phase.unpublished]) hs with hb | ⟨u, v, hu⟩
  · exact hb
  · have hf := h.fits u
    unfold Fits at hf
    split at hf
    · rw [hu] at hf; cases hf
    · rw [hu] at hf
      have hm := hf.2.1.mine
      rw [ho.mine] at hm
      simp only [me, Option.some.injEq, Prod.mk.injEq] at hm
      rw [← hm.1] at hu
      exact absurd hu (hst v)

omit [DecidableEq Tid] in
theorem Inv.sits (h : l.Inv N D stores cell ρ) (hk : (ρ t).call = some k) :
    l.called (l.me t) = some k ∧ l.Sits N D stores cell t k (ρ t).stage := by
  simpa only [Fits, hk] using h.fits t

/-- A ticket holder sees its turn. -/
theorem inv_arrive (h : l.Inv N D stores cell ρ) {late : Bool} (hk : (ρ t).call = some k)
    (hst : (ρ t).stage = .waits p late) (hs : (l.lanes.seq (p % N)).stamp = p) :
    l.Inv N D stores cell (upd ρ t ((ρ t).into (.holds p late))) := by
  have ho : l.Owed t p late := by have := (h.sits hk).2; rwa [hst] at this
  refine inv_restage h hk (by rw [hst]; rfl) (by rw [hst]; rfl) (by rw [hst]; rfl)
    (by rw [hst]; rfl) ⟨⟨ho, hs⟩, bare_of_turn h ho (by simp [hst]) hs⟩ (by simp [hst])

/-! ## The tail -/

section
omit [DecidableEq Tid]

theorem Inv.end_of_closed (h : l.Inv N D stores cell ρ) (hcl : l.closed = true) :
    ∃ e, l.closePos = some e ∧ e ≤ l.lanes.tail := by
  have hc := h.shut.closed
  rw [hcl] at hc
  obtain ⟨e, he⟩ := Option.isSome_iff_exists.mp hc.symm
  exact ⟨e, he, h.shut.end_le e he⟩

theorem Inv.end_of_open (h : l.Inv N D stores cell ρ) (hcl : l.closed = false) :
    l.closePos = none := by
  simpa [hcl] using h.shut.closed.symm

theorem sits_reserve (h : l.Inv N D stores cell ρ) (t : Tid)
    (hs : l.Sits N D stores cell u k st) : (l.reserve t).Sits N D stores cell u k st := by
  have hv := (h.lanes.tail l.lanes.tail).mpr (Nat.le_refl _)
  have hn := (h.owned.unowned l.lanes.tail).mpr (.inl hv)
  have hp := h.stocked.pushed_live l.lanes.tail
  have hc := (h.owned.unclaimed l.lanes.tail).mpr (by rw [hv]; rfl)
  cases st <;> simp only [Sits, reserve, Lanes.reserve, upd_apply, owed_iff, holds_iff, took_iff,
    me] at * <;> grind [Phase.isDead]

theorem keeps_reserve (hn : l.reservedBy l.lanes.tail = none)
    (hv : l.lanes.phase l.lanes.tail = .vacant) (hr : l.results (l.me t) = none) :
    l.Keeps (l.reserve t) := by
  constructor <;> simp only [reserve, Lanes.reserve, upd_apply] <;> grind [live, Phase.isDead]

end

/-- A ticket, or a reservation by compare-and-swap: `late` once closed. -/
theorem inv_reserve (h : l.Inv N D stores cell ρ) (hk : (ρ t).call = some k)
    (hi : (ρ t).stage.idle = true) :
    (l.reserve t).Inv N D stores cell (upd ρ t ((ρ t).into (.waits l.lanes.tail l.closed))) := by
  have hv := (h.lanes.tail l.lanes.tail).mpr (Nat.le_refl _)
  have ht := h.lanes.tail
  have hc := h.shut.closed
  have hn := (h.owned.unowned l.lanes.tail).mpr (.inl hv)
  have hcl := (h.owned.unclaimed l.lanes.tail).mpr (by rw [hv]; rfl)
  refine ⟨Lanes.inv_reserve h.lanes rfl (by simp),
    fits_upd h.fits hk rfl rfl ⟨by simp [reserve, me], by simp [reserve, Lanes.reserve], ?_⟩
      fun u k st _ hs => sits_reserve h t hs, ?_, ?_, ?_, ?_⟩
  · cases hcl : l.closed with
    | false => simp [reserve, Late, h.end_of_open hcl]
    | true => exact h.end_of_closed hcl
  · rw [Stage.idle_iff] at hi
    obtain ⟨h1, h2, h3, h4, h5, h6, h7, h8, h9, h10⟩ := h.owned
    constructor <;> simp only [reserve, Lanes.reserve, upd_apply] <;>
      grind [me, Role.into, Stage.resv, Stage.owes, Stage.claim, Stage.opens, Phase.taken, live,
        Stage.resv_of_owes]
  · obtain ⟨s1, s2, s3, s4, s5, s7, s6⟩ := h.stocked
    refine ⟨?_, ?_, fun p hp hq => ?_, ?_, ?_, ?_, ?_⟩
    · simp only [reserve, Lanes.reserve, upd_apply]; grind
    · simp only [reserve, Lanes.reserve, upd_apply]; grind
    · have hpub : (l.lanes.phase p).unpublished = true := by
        by_cases he : p = l.lanes.tail
        · rw [he, hv]; rfl
        · simpa [reserve, Lanes.reserve, upd_apply, he] using hp
      refine filled_upd (s3 p hpub hq) fun v he => ?_
      rw [he] at hi; cases hi
    · simp only [reserve, Lanes.reserve, upd_apply]; grind [live]
    · simp only [reserve, Lanes.reserve, upd_apply]; grind [Phase.taken]
    · simp only [reserve, Lanes.reserve, upd_apply]; grind
    · simp only [reserve, Lanes.reserve, upd_apply]; grind [live]
  · obtain ⟨c1, c2, c3, c4, c5⟩ := h.shut
    constructor <;> simp only [reserve, Lanes.reserve, upd_apply] <;> grind [live]
  · exact h.booked.keep rfl rfl (call_into ρ t _) (keeps_reserve hn hv (h.booked.unreturned hk))

section
omit [DecidableEq Tid]

theorem sits_refuse (h : l.Inv N D stores cell ρ) (hs : l.Sits N D stores cell u k st) :
    l.refuse.Sits N D stores cell u k st := by
  have hv := (h.lanes.tail l.lanes.tail).mpr (Nat.le_refl _)
  have hn := (h.owned.unowned l.lanes.tail).mpr (.inl hv)
  have hc := (h.owned.unclaimed l.lanes.tail).mpr (by rw [hv]; rfl)
  cases st <;> simp only [Sits, refuse, Lanes.reserve, upd_apply, owed_iff, holds_iff, took_iff,
    me] at * <;> grind [Phase.isDead]

theorem keeps_refuse (hv : l.lanes.phase l.lanes.tail = .vacant) : l.Keeps l.refuse := by
  constructor <;> simp only [refuse, Lanes.reserve, upd_apply] <;> grind [live, Phase.isDead]

theorem inv_refuse (h : l.Inv N D stores cell ρ) (hcl : l.closed = true) :
    l.refuse.Inv N D stores cell ρ := by
  have hv := (h.lanes.tail l.lanes.tail).mpr (Nat.le_refl _)
  have hn := (h.owned.unowned l.lanes.tail).mpr (.inl hv)
  refine ⟨Lanes.inv_reserve h.lanes rfl (by simp), fun u => ?_, ?_, ?_, ?_, ?_⟩
  · have hu := h.fits u
    unfold Fits at hu ⊢
    split at hu
    · exact hu
    · exact ⟨hu.1, sits_refuse h hu.2⟩
  · obtain ⟨h1, h2, h3, h4, h5, h6, h7, h8, h9, h10⟩ := h.owned
    constructor <;> simp only [refuse, Lanes.reserve, upd_apply] <;>
      grind [me, Phase.taken, live]
  · obtain ⟨s1, s2, s3, s4, s5, s7, s6⟩ := h.stocked
    constructor <;> simp only [refuse, Lanes.reserve, upd_apply] <;>
      grind [Phase.unpublished, Phase.taken, live]
  · obtain ⟨e, he⟩ := h.end_of_closed hcl
    obtain ⟨c1, c2, c3, c4, c5⟩ := h.shut
    constructor <;> simp only [refuse, Lanes.reserve, upd_apply] <;> grind [live]
  · exact h.booked.keep rfl rfl (fun _ => rfl) (keeps_refuse hv)

theorem sits_setClosed (h : l.Inv N D stores cell ρ) (hs : l.Sits N D stores cell u k st) :
    l.setClosed.Sits N D stores cell u k st := by
  have hc := h.shut.closed
  have ht := h.lanes.tail
  have hn := h.owned.unowned
  cases hcl : l.closed with
  | true =>
    cases st <;> simp only [Sits, setClosed, owed_iff, holds_iff, took_iff, me, hcl] at * <;>
      simpa using hs
  | false =>
    have he : l.closePos = none := by simpa [hcl] using hc.symm
    cases st with
    | waits p late | holds p late | buried p late =>
      cases late <;> simp only [Sits, setClosed, owed_iff, holds_iff, me, hcl, he, Late] at * <;>
        grind
    | filled p v => simp only [Sits, setClosed, holds_iff, owed_iff, me, hcl, Late] at *; grind
    | _ => simp only [Sits, setClosed, took_iff, me, hcl, he] at * <;> grind

theorem keeps_setClosed (hcl : l.closed = false) (he : l.closePos = none)
    (hn : ∀ q, l.lanes.tail ≤ q → l.reservedBy q = none) : l.Keeps l.setClosed := by
  refine ⟨fun _ _ h => h, fun _ _ h => h, fun _ _ h => h, fun _ _ h => h, fun q id hq _ => ?_,
    fun _ _ h _ => ⟨h, rfl⟩⟩
  refine ⟨hq, rfl, rfl, fun late hl => ?_⟩
  have hlt : q < l.lanes.tail := by
    refine Nat.lt_of_not_le fun hle => ?_
    have hnone := hn q hle
    rw [show l.reservedBy q = some id from hq] at hnone
    cases hnone
  cases late with
  | true =>
    obtain ⟨e, h, -⟩ := hl
    rw [he] at h
    cases h
  | false =>
    intro e h
    simp only [setClosed, hcl, Bool.false_eq_true, if_false, Option.some.injEq] at h
    omega

end

theorem inv_setClosed (h : l.Inv N D stores cell ρ) (hk : (ρ t).call = some k)
    (hi : (ρ t).stage.idle = true) :
    l.setClosed.Inv N D stores cell
      (upd ρ t ((ρ t).into (if l.closed then .none else .closing l.lanes.tail))) := by
  cases hcl : l.closed with
  | true =>
    have he : l.setClosed = l := by simp only [setClosed, hcl, if_true]; rw [← hcl]
    rw [he]
    exact inv_forget h hk hi
  | false =>
    have he := h.end_of_open hcl
    have ht := h.lanes.tail
    rw [Stage.idle_iff] at hi
    refine ⟨h.lanes, fits_upd h.fits hk rfl rfl ?_ fun _ _ _ _ hs => sits_setClosed h hs,
      ?_, ?_, ?_, ?_⟩
    · simp [Sits, setClosed, hcl]
    · obtain ⟨h1, h2, h3, h4, h5, h6, h7, h8, h9, h10⟩ := h.owned
      constructor <;> simp only [setClosed, upd_apply] <;>
        grind [me, Role.into, Stage.resv, Stage.owes, Stage.claim, Stage.opens]
    · obtain ⟨s1, s2, s3, s4, s5, s7, s6⟩ := h.stocked
      refine ⟨s1, s2, fun p hp hq => ?_, s4, s5, s7, s6⟩
      refine filled_upd (s3 p hp hq) fun v he => ?_
      rw [he] at hi; cases hi.2.1
    · obtain ⟨c1, c2, c3, c4, c5⟩ := h.shut
      constructor <;> simp only [setClosed, hcl] <;> grind [live]
    · have hkeep := keeps_setClosed hcl he fun q hq => by
        have hv := (h.owned.unowned q).mpr (.inl ((ht q).mpr hq))
        exact hv
      exact h.booked.keep rfl rfl (call_into ρ t _) hkeep

/-! ## A reserved slot -/

omit [DecidableEq Tid] in
/-- Another thread's stage does not see into the slot `t` holds. -/
theorem sits_fill (h : l.Inv N D stores cell ρ) {late : Bool} (ho : l.Holds N t p late)
    (hu : u ≠ t) (x : X) (hs : l.Sits N D stores cell u k st) :
    l.Sits N D stores (upd cell (p % N) x) u k st := by
  obtain ⟨⟨h1, h2, h3⟩, h4⟩ := ho
  have hl := fun q => h.lanes.lane_at (q := q) h4
  cases st <;> simp only [Sits, upd_apply, owed_iff, holds_iff, took_iff, me] at * <;>
    grind [Phase.unpublished]

/-- `t` stores into the slot it holds. -/
theorem inv_fill (h : l.Inv N D stores cell ρ) (hk : (ρ t).call = some k) {late : Bool}
    (ho : l.Holds N t p late) (hst : (ρ t).stage.owes = some p) {x : X}
    (hst' : st.owes = some p) (hs : l.Sits N D stores (upd cell (p % N) x) t k st)
    (hx : D.bare x ∨ ∃ v, st = .filled p v) :
    l.Inv N D stores (upd cell (p % N) x) (upd ρ t ((ρ t).into st)) := by
  have ho' := ho
  obtain ⟨⟨h1, h2, h3⟩, h4⟩ := ho
  have hl := fun q => h.lanes.lane_at (q := q) h4
  have hr := Stage.resv_of_owes hst
  have hr' := Stage.resv_of_owes hst'
  have hc := Stage.claim_of_resv hr
  refine ⟨h.lanes, fits_upd h.fits hk rfl rfl hs fun _ _ _ hu hs => sits_fill h ho' hu x hs,
    ?_, ?_, h.shut, ?_⟩
  · obtain ⟨h1, h2, h3, h4, h5, h6, h7, h8, h9, h10⟩ := h.owned
    constructor <;>
      grind [upd_apply, me, Role.into, Stage.resv, Stage.owes, Stage.claim, Stage.opens]
  · obtain ⟨s1, s2, s3, s4, s5, s7, s6⟩ := h.stocked
    refine ⟨fun q hq => ?_, fun q hq => ?_, fun q hq hs => ?_, s4, s5, s7, s6⟩
    · simp only [upd_apply]; grind [Phase.unpublished]
    · simp only [upd_apply]; grind [Phase.unpublished]
    · by_cases he : q % N = p % N
      · have hqp : p = q := by rw [← h4, ← he, hs]
        subst hqp
        rw [upd_self]
        obtain hx | ⟨v, hv⟩ := hx
        · exact .inl hx
        · exact .inr ⟨t, v, by simp [Role.into, hv]⟩
      · simp only [upd_ne _ _ he]
        refine filled_upd (s3 q hq hs) fun w hf => ?_
        rw [hf] at hst
        simp only [Stage.owes, Option.some.injEq] at hst
        exact absurd (by rw [hst]) he
  · obtain ⟨b1, b2, b3, b4, b5, b6⟩ := h.booked
    exact ⟨by simpa only [call_into] using b1, b2, b3, b4, b5, b6⟩

/-- A free slot stays bare when another one is published. -/
theorem free_publish (h : l.Inv N D stores cell ρ) {d : Bool} {q : Nat} {g : Role V K}
    (hst : (ρ t).stage.owes = some p)
    (hq : ((l.lanes.publish N p d).phase q).unpublished = true)
    (hs : ((l.lanes.publish N p d).seq (q % N)).stamp = q) :
    D.bare (cell (q % N)) ∨ ∃ u v, (upd ρ t g u).stage = .filled q v := by
  simp only [Lanes.publish, upd_apply] at hq hs
  have h2 := h.lanes.two_le
  by_cases hl : q % N = p % N
  · rw [if_pos hl] at hs
    have := lane_gap hl.symm (show p < q by simp only at hs; omega)
    simp only at hs; omega
  · have hne : q ≠ p := fun he => hl (by rw [he])
    rw [if_neg hne] at hq
    rw [if_neg hl] at hs
    refine filled_upd (h.stocked.free q hq hs) fun w hf => ?_
    rw [hf] at hst
    simp only [Stage.owes, Option.some.injEq] at hst
    exact absurd hst hne

omit [DecidableEq Tid] in
theorem sits_publish (h : l.Inv N D stores cell ρ) {late : Bool} (ho : l.Holds N t p late)
    (hu : u ≠ t) (v : V) (hs : l.Sits N D stores cell u k st) :
    (l.publish N p v).Sits N D stores cell u k st := by
  obtain ⟨⟨h1, h2, h3⟩, h4⟩ := ho
  have hl := fun q => h.lanes.lane_at (q := q) h4
  have hp := h.stocked.pushed_live
  cases st <;> simp only [Sits, publish, Lanes.publish, upd_apply, owed_iff, holds_iff, took_iff,
    me] at * <;> grind

omit [DecidableEq Tid] in
theorem keeps_publish {id : CallId Tid} (hp : l.reservedBy p = some id)
    (hc : l.claimedBy p = none) (hv : l.pushed p = none) (hr : l.results id = none) {v : V} :
    l.Keeps (l.publish N p v) := by
  constructor <;> simp only [publish, Lanes.publish, upd_apply] <;> grind

theorem inv_publish (h : l.Inv N D stores cell ρ) (hk : (ρ t).call = some k) {v : V}
    (hst : (ρ t).stage = .filled p v) :
    (l.publish N p v).Inv N D stores cell (upd ρ t ((ρ t).into (.pushed p v))) := by
  have hsit := (h.sits hk).2
  rw [hst] at hsit
  obtain ⟨ho, hfull, hv⟩ := hsit
  have ho' := ho
  obtain ⟨⟨h1, h2, h3⟩, h4⟩ := ho
  have hl := fun q => h.lanes.lane_at (q := q) h4
  have hc := (h.owned.unclaimed p).mpr (by rw [h2]; rfl)
  refine ⟨Lanes.inv_publish h.lanes false h2 h4, fits_upd h.fits hk rfl rfl ?_
    fun _ _ _ hu hs => sits_publish h ho' hu v hs, ?_, ?_, ?_, ?_⟩
  · exact ⟨h1, by simp [publish]⟩
  · obtain ⟨h1, h2, h3, h4, h5, h6, h7, h8, h9, h10⟩ := h.owned
    constructor <;> simp only [publish, Lanes.publish, upd_apply] <;>
      grind [me, Role.into, Stage.resv, Stage.owes, Stage.claim, Stage.opens, Phase.taken, live]
  · obtain ⟨s1, s2, s3, s4, s5, s7, s6⟩ := h.stocked
    refine ⟨?_, ?_, fun q hq hs => ?_, ?_, ?_, ?_, ?_⟩
    · simp only [publish, Lanes.publish, upd_apply]; grind
    · simp only [publish, Lanes.publish, upd_apply]; grind
    · exact free_publish h (by rw [hst]; rfl) hq hs
    · simp only [publish, Lanes.publish, upd_apply]; grind [live]
    · simp only [publish, Lanes.publish, upd_apply]; grind [Phase.taken]
    · simp only [publish, Lanes.publish, upd_apply]; grind
    · have hcalled := (h.sits hk).1
      simp only [publish, Lanes.publish, upd_apply]; grind
  · obtain ⟨c1, c2, c3, c4, c5⟩ := h.shut
    constructor <;> simp only [publish, Lanes.publish, upd_apply] <;> grind [live, Late]
  · have hpush : l.pushed p = none := by
      have := h.stocked.pushed_live p
      rw [h2] at this
      simpa [live] using this
    exact h.booked.keep rfl rfl (call_into ρ t _)
      (keeps_publish h1 hc hpush (h.booked.unreturned hk))

omit [DecidableEq Tid] in
theorem sits_bury (h : l.Inv N D stores cell ρ) {late : Bool} (ho : l.Holds N t p late)
    (hu : u ≠ t) (hs : l.Sits N D stores cell u k st) :
    (l.bury N p).Sits N D stores cell u k st := by
  obtain ⟨⟨h1, h2, h3⟩, h4⟩ := ho
  have hl := fun q => h.lanes.lane_at (q := q) h4
  have hp := h.stocked.pushed_live
  cases st <;> simp only [Sits, bury, Lanes.publish, upd_apply, owed_iff, holds_iff, took_iff,
    me] at * <;> grind [Phase.isDead]

omit [DecidableEq Tid] in
theorem keeps_bury {id : CallId Tid} (hp : l.reservedBy p = some id)
    (hc : l.claimedBy p = none) (hr : l.results id = none) : l.Keeps (l.bury N p) := by
  constructor <;> simp only [bury, Lanes.publish, upd_apply] <;> grind

theorem inv_bury (h : l.Inv N D stores cell ρ) (hk : (ρ t).call = some k) {late : Bool}
    (hst : (ρ t).stage = .holds p late) :
    (l.bury N p).Inv N D stores cell (upd ρ t ((ρ t).into (.buried p late))) := by
  have hsit := (h.sits hk).2
  rw [hst] at hsit
  obtain ⟨ho, hbare⟩ := hsit
  have ho' := ho
  obtain ⟨⟨h1, h2, h3⟩, h4⟩ := ho
  have hc := (h.owned.unclaimed p).mpr (by rw [h2]; rfl)
  refine ⟨Lanes.inv_publish h.lanes true h2 h4, fits_upd h.fits hk rfl rfl ?_
    fun _ _ _ hu hs => sits_bury h ho' hu hs, ?_, ?_, ?_, ?_⟩
  · exact ⟨h1, by simp [bury, Lanes.publish, Phase.isDead], h3⟩
  · obtain ⟨h1, h2, h3, h4, h5, h6, h7, h8, h9, h10⟩ := h.owned
    constructor <;> simp only [bury, Lanes.publish, upd_apply] <;>
      grind [me, Role.into, Stage.resv, Stage.owes, Stage.claim, Stage.opens, Phase.taken, live]
  · obtain ⟨s1, s2, s3, s4, s5, s7, s6⟩ := h.stocked
    refine ⟨?_, ?_, fun q hq hs => free_publish h (by rw [hst]; rfl) hq hs, ?_, ?_, ?_,
      s6⟩
    · simp only [bury, Lanes.publish, upd_apply]; grind
    · simp only [bury, Lanes.publish, upd_apply]; grind
    · simp only [bury, Lanes.publish, upd_apply]; grind [live]
    · simp only [bury, Lanes.publish, upd_apply]; grind [Phase.taken]
    · simp only [bury, Lanes.publish, upd_apply]; grind
  · obtain ⟨c1, c2, c3, c4, c5⟩ := h.shut
    constructor <;> simp only [bury, Lanes.publish, upd_apply] <;> grind [live]
  · exact h.booked.keep rfl rfl (call_into ρ t _) (keeps_bury h1 hc (h.booked.unreturned hk))

/-! ## The head -/

omit [DecidableEq Tid] in
theorem sits_claim (h : l.Inv N D stores cell ρ) {d : Bool}
    (hp : l.lanes.phase l.lanes.head = .published d)
    (hs : l.Sits N D stores cell u k st) :
    (l.claim t l.lanes.head d).Sits N D stores cell u k st := by
  have hc := (h.owned.unclaimed l.lanes.head).mpr (by rw [hp]; rfl)
  cases st <;> simp only [Sits, claim, Lanes.claim, upd_apply, owed_iff, holds_iff, took_iff,
    me] at * <;> grind [Phase.isDead]

/-- The stage of a fresh claim. -/
def claimStage (p : Nat) : Bool → Stage V
  | true => .skipping p
  | false => .claimed p

omit [DecidableEq Tid] in
theorem keeps_claim {d : Bool} (hp : l.lanes.phase l.lanes.head = .published d)
    (hc : l.claimedBy l.lanes.head = none) (hr : l.results (l.me t) = none) :
    l.Keeps (l.claim t l.lanes.head d) := by
  constructor <;> simp only [claim, Lanes.claim, upd_apply] <;> grind [live, Phase.isDead]

theorem inv_claim (h : l.Inv N D stores cell ρ) (hk : (ρ t).call = some k) {d : Bool}
    (hst : (ρ t).stage = .sawPub l.lanes.head d) :
    (l.claim t l.lanes.head d).Inv N D stores cell
      (upd ρ t ((ρ t).into (claimStage l.lanes.head d))) := by
  have hsit := (h.sits hk).2
  rw [hst] at hsit
  have hp : l.lanes.phase l.lanes.head = .published d := by
    rcases hsit with hp | hp
    · exact hp
    · omega
  have hc := (h.owned.unclaimed l.lanes.head).mpr (by rw [hp]; rfl)
  have hh := h.lanes.head
  refine ⟨Lanes.inv_claim h.lanes hp, fits_upd h.fits hk rfl rfl ?_
    fun _ _ _ _ hs => sits_claim h hp hs, ?_, ?_, ?_, ?_⟩
  · have htook : (l.claim t l.lanes.head d).Took t l.lanes.head (.claimed d) :=
      ⟨by simp [claim, me], by simp [claim, Lanes.claim]⟩
    cases d with
    | true => exact ⟨htook, h.stocked.dark _ hp⟩
    | false => exact ⟨htook, h.stocked.shown _ hp⟩
  · obtain ⟨h1, h2, h3, h4, h5, h6, h7, h8, h9, h10⟩ := h.owned
    cases d <;> constructor <;> simp only [claim, Lanes.claim, upd_apply, claimStage] <;>
      grind [me, Role.into, Stage.resv, Stage.owes, Stage.claim, Stage.opens, Phase.taken, live]
  · obtain ⟨s1, s2, s3, s4, s5, s7, s6⟩ := h.stocked
    refine ⟨?_, ?_, fun q hq hs => ?_, ?_, ?_, ?_, s6⟩
    · simp only [claim, Lanes.claim, upd_apply]; grind
    · simp only [claim, Lanes.claim, upd_apply]; grind
    · have hq' : (l.lanes.phase q).unpublished = true := by
        simp only [claim, Lanes.claim, upd_apply] at hq
        split at hq
        · cases hq
        · exact hq
      refine filled_upd (s3 q hq' hs) fun v hf => ?_
      rw [hf] at hst; cases hst
    · simp only [claim, Lanes.claim, upd_apply]; grind [live]
    · simp only [claim, Lanes.claim, upd_apply]; grind [Phase.taken]
    · simp only [claim, Lanes.claim, upd_apply]; grind
  · obtain ⟨c1, c2, c3, c4, c5⟩ := h.shut
    constructor <;> simp only [claim, Lanes.claim, upd_apply] <;> grind [live, me]
  · exact h.booked.keep rfl rfl (call_into ρ t _) (keeps_claim hp hc (h.booked.unreturned hk))

/-! ## A claimed slot -/

omit [DecidableEq Tid] in
theorem sits_copy (h : l.Inv N D stores cell ρ) (ho : l.Took t p (.claimed false)) (hu : u ≠ t)
    (v : V) (hs : l.Sits N D stores cell u k st) :
    (l.copy p v).Sits N D stores cell u k st := by
  obtain ⟨h1, h2⟩ := ho
  cases st <;> simp only [Sits, copy, upd_apply, owed_iff, holds_iff, took_iff, me] at * <;> grind

omit [DecidableEq Tid] in
theorem keeps_copy {v : V} (hp : ∀ w, l.popped p = some w → w = v) : l.Keeps (l.copy p v) := by
  constructor <;> simp only [copy, upd_apply] <;> grind

theorem inv_copy (h : l.Inv N D stores cell ρ) (hk : (ρ t).call = some k)
    (hst : (ρ t).stage = .claimed p) {v : V} (hv : l.pushed p = some v)
    (hx : D.full (cell (p % N)) v) :
    (l.copy p v).Inv N D stores cell (upd ρ t ((ρ t).into (.copied p v))) := by
  have hsit := (h.sits hk).2
  rw [hst] at hsit
  obtain ⟨ho, -⟩ := hsit
  have ho' := ho
  obtain ⟨h1, h2⟩ := ho
  refine ⟨h.lanes, fits_upd h.fits hk rfl rfl ⟨⟨h1, h2⟩, by simp [copy], hx⟩
    fun _ _ _ hu hs => sits_copy h ho' hu v hs, ?_, ?_, ?_, ?_⟩
  · obtain ⟨h1, h2, h3, h4, h5, h6, h7, h8, h9, h10⟩ := h.owned
    constructor <;> simp only [copy] <;>
      grind [upd_apply, me, Role.into, Stage.resv, Stage.owes, Stage.claim, Stage.opens]
  · obtain ⟨s1, s2, s3, s4, s5, s7, s6⟩ := h.stocked
    refine ⟨s1, s2, fun q hq hs => ?_, s4, ?_, ?_, s6⟩
    · refine filled_upd (s3 q hq hs) fun w hf => ?_
      rw [hf] at hst; cases hst
    · simp only [copy, upd_apply]; grind [Phase.taken]
    · simp only [copy, upd_apply]; grind
  · obtain ⟨c1, c2, c3, c4, c5⟩ := h.shut
    exact ⟨c1, c2, c3, c4, c5⟩
  · refine h.booked.keep rfl rfl (call_into ρ t _) (keeps_copy fun w hw => ?_)
    obtain ⟨hpush, -⟩ := h.stocked.popped_pushed p w hw
    exact Option.some.inj (hpush.symm.trans hv)

omit [DecidableEq Tid] in
/-- No other thread's stage sees into a slot that `t` has claimed. -/
theorem sits_clear (h : l.Inv N D stores cell ρ) (ho : l.Took t p (.claimed false)) (hu : u ≠ t)
    (x : X) (hs : l.Sits N D stores cell u k st) :
    l.Sits N D stores (upd cell (p % N) x) u k st := by
  obtain ⟨h1, h2⟩ := ho
  have hl := fun q d hq => h.lanes.shown_unique (p := p) (q := q) (e := d) (.inr h2) (.inr hq)
  have hlane := fun q => h.lanes.lane_at (p := q) (q := p)
  cases st <;> simp only [Sits, upd_apply, owed_iff, holds_iff, took_iff, me] at * <;>
    grind [Phase.unpublished]

/-- `t` empties the slot it has copied. -/
theorem inv_clear (h : l.Inv N D stores cell ρ) (hk : (ρ t).call = some k) {v : V}
    (hst : (ρ t).stage = .copied p v) {x : X} (hx : D.bare x) :
    l.Inv N D stores (upd cell (p % N) x) (upd ρ t ((ρ t).into (.cleared p v))) := by
  have hsit := (h.sits hk).2
  rw [hst] at hsit
  obtain ⟨ho, hv, -⟩ := hsit
  have ho' := ho
  obtain ⟨h1, h2⟩ := ho
  have hl := fun q d hq => h.lanes.shown_unique (p := p) (q := q) (e := d) (.inr h2) (.inl hq)
  have hl' := fun q d hq => h.lanes.shown_unique (p := p) (q := q) (e := d) (.inr h2) (.inr hq)
  have hlane := fun q => h.lanes.lane_at (p := q) (q := p)
  refine ⟨h.lanes, fits_upd h.fits hk rfl rfl ⟨ho', hv, by simpa using hx⟩
    fun _ _ _ hu hs => sits_clear h ho' hu x hs, ?_, ?_, h.shut, ?_⟩
  · obtain ⟨h1, h2, h3, h4, h5, h6, h7, h8, h9, h10⟩ := h.owned
    constructor <;>
      grind [upd_apply, me, Role.into, Stage.resv, Stage.owes, Stage.claim, Stage.opens]
  · obtain ⟨s1, s2, s3, s4, s5, s7, s6⟩ := h.stocked
    refine ⟨fun q hq => ?_, fun q hq => ?_, fun q hq hs => ?_, s4, s5, s7, s6⟩
    · simp only [upd_apply]; grind
    · simp only [upd_apply]; grind
    · by_cases he : q % N = p % N
      · left; rw [he, upd_self]; exact hx
      · simp only [upd_ne _ _ he]
        refine filled_upd (s3 q hq hs) fun w hf => ?_
        rw [hf] at hst; cases hst
  · obtain ⟨b1, b2, b3, b4, b5, b6⟩ := h.booked
    exact ⟨by simpa only [call_into] using b1, b2, b3, b4, b5, b6⟩

omit [DecidableEq Tid] in
theorem sits_release (h : l.Inv N D stores cell ρ) {d : Bool} (ho : l.Took t p (.claimed d))
    (hu : u ≠ t) (hs : l.Sits N D stores cell u k st) :
    (l.release N p).Sits N D stores cell u k st := by
  obtain ⟨h1, h2⟩ := ho
  have hl := fun q d => h.lanes.shown_unique (p := p) (q := q) (e := d) (.inr h2)
  have hw := h.lanes.shown p d (.inr h2)
  have hlane := fun q => h.lanes.lane_at (p := q) (q := p)
  have hh := (h.lanes.head p).mp (by rw [h2]; rfl)
  cases st <;> simp only [Sits, release, Lanes.release, upd_apply, owed_iff, holds_iff, took_iff,
    me] at * <;> grind [Phase.unpublished, Phase.isDead]

/-- A slot of another position stays as bare as it was. -/
theorem free_release (h : l.Inv N D stores cell ρ) {q : Nat} {g : Role V K}
    (hb : D.bare (cell (p % N))) (hst : (ρ t).stage.owes = none)
    (hq : ((l.release N p).lanes.phase q).unpublished = true)
    (hs : ((l.release N p).lanes.seq (q % N)).stamp = q) :
    D.bare (cell (q % N)) ∨ ∃ u v, (upd ρ t g u).stage = .filled q v := by
  simp only [release, Lanes.release, upd_apply] at hq hs
  by_cases hl : q % N = p % N
  · left; rw [hl]; exact hb
  · have hne : q ≠ p := fun he => hl (by rw [he])
    rw [if_neg hne] at hq
    rw [if_neg hl] at hs
    refine filled_upd (h.stocked.free q hq hs) fun w hf => ?_
    rw [hf] at hst; cases hst

omit [DecidableEq Tid] in
theorem keeps_release {d : Bool} (hp : l.lanes.phase p = .claimed d) : l.Keeps (l.release N p) := by
  constructor <;> simp only [release, Lanes.release, upd_apply] <;> grind [live, Phase.isDead]

/-- The slot goes back. The stage is `took` for a value, none for a tombstone. -/
theorem inv_release (h : l.Inv N D stores cell ρ) (hk : (ρ t).call = some k) {d : Bool}
    (ho : l.Took t p (.claimed d)) (hb : D.bare (cell (p % N)))
    (hst : (ρ t).stage = .skipping p ∧ d = true ∧ st = .none ∨
      ∃ v, (ρ t).stage = .cleared p v ∧ d = false ∧ st = .took p v ∧ l.popped p = some v) :
    (l.release N p).Inv N D stores cell (upd ρ t ((ρ t).into st)) := by
  have ho' := ho
  obtain ⟨h1, h2⟩ := ho
  have hd : (l.lanes.phase p).isDead = d := by rw [h2]; rfl
  have howes : (ρ t).stage.owes = none := by grind [Stage.owes]
  refine ⟨?_, fits_upd h.fits hk rfl rfl ?_ fun _ _ _ hu hs => sits_release h ho' hu hs,
    ?_, ?_, ?_, ?_⟩
  · simp only [release, hd]; exact Lanes.inv_release h.lanes h2
  · rcases hst with ⟨-, -, rfl⟩ | ⟨v, -, rfl, rfl, hv⟩
    · trivial
    · exact ⟨⟨h1, by simp [release, Lanes.release, h2, Phase.isDead]⟩, hv⟩
  · obtain ⟨h1, h2, h3, h4, h5, h6, h7, h8, h9, h10⟩ := h.owned
    constructor <;> simp only [release, hd, Lanes.release, upd_apply] <;>
      grind [me, Role.into, Stage.resv, Stage.owes, Stage.claim, Stage.opens, Phase.taken, live]
  · obtain ⟨s1, s2, s3, s4, s5, s7, s6⟩ := h.stocked
    refine ⟨?_, ?_, fun q hq hs => free_release h hb howes hq hs, ?_, ?_, ?_,
      s6⟩
    · simp only [release, Lanes.release, upd_apply]; grind
    · simp only [release, Lanes.release, upd_apply]; grind
    · simp only [release, hd, Lanes.release, upd_apply]; grind [live]
    · simp only [release, Lanes.release, upd_apply]; grind [Phase.taken]
    · simp only [release, hd, Lanes.release, upd_apply]; grind
  · obtain ⟨c1, c2, c3, c4, c5⟩ := h.shut
    constructor <;> simp only [release, hd, Lanes.release, upd_apply] <;> grind [live]
  · exact h.booked.keep rfl rfl (call_into ρ t _) (keeps_release h2)

/-! ## Calls -/

/-- What a call may return at each stage. -/
def Returns : Stage V → Result V → Prop
  | .none, .push .full | .none, .push .timeout | .none, .push .closed | .none, .pop .empty
  | .none, .pop .timeout | .none, .closed => True
  | .pushed _ _, .push .ok => True
  | .buried _ true, .push .closed => True
  | .buried _ false, .panicked => True
  | .took _ v, .pop (.ok w) => v = w
  | .atEnd, .pop .drained => True
  | _, _ => False

theorem returns_ok {st : Stage V} (h : Returns st (.push .ok)) : ∃ p v, st = .pushed p v := by
  cases st <;> simp_all [Returns]

theorem returns_panicked {st : Stage V} (h : Returns st .panicked) : ∃ p, st = .buried p false := by
  cases st with
  | buried p late => cases late <;> simp_all [Returns]
  | _ => simp_all [Returns]

theorem returns_pop {st : Stage V} {v : V} (h : Returns st (.pop (.ok v))) :
    ∃ p, st = .took p v := by
  cases st <;> simp_all [Returns]

theorem returns_resv {st : Stage V} {r : Result V} {p : Nat} (h : Returns st r)
    (hp : st.resv = some p) : (∃ v, st = .pushed p v ∧ r = .push .ok) ∨
      (st = .buried p false ∧ r = .panicked) ∨ (st = .buried p true ∧ r = .push .closed) := by
  unfold Returns at h
  split at h <;> simp_all [Stage.resv]

theorem returns_claim {st : Stage V} {r : Result V} {p : Nat} (h : Returns st r)
    (hp : st.claim = some p) : ∃ v, st = .took p v ∧ r = .pop (.ok v) := by
  unfold Returns at h
  split at h <;> simp_all [Stage.claim]

theorem sits_begin (h : l.Inv N D stores cell ρ) (hu : u ≠ t) (k' : K)
    (hs : l.Sits N D stores cell u k st) :
    (l.begin t k').Sits N D stores cell u k st := by
  cases st <;> simp only [Sits, begin, upd_apply, owed_iff, holds_iff, took_iff, me, if_neg hu]
    at * <;> exact hs

theorem inv_begin (h : l.Inv N D stores cell ρ) (hc : (ρ t).call = none) (k : K) :
    (l.begin t k).Inv N D stores cell (upd ρ t ⟨some k, .none⟩) := by
  have hf := h.fits t
  simp only [Fits, hc] at hf
  refine ⟨h.lanes, fun u => ?_, ?_, ?_, ?_, ?_⟩
  · by_cases he : u = t
    · subst he; simp [Fits, begin, me, Sits]
    · have hu := h.fits u
      rw [upd_ne _ _ he]
      unfold Fits at hu ⊢
      split at hu
      · exact hu
      · exact ⟨by simpa [begin, me, upd_apply, he] using hu.1, sits_begin h he k hu.2⟩
  · obtain ⟨h1, h2, h3, h4, h5, h6, h7, h8, h9, h10⟩ := h.owned
    constructor <;> simp only [begin, me, upd_apply] at * <;>
      grind [Stage.resv, Stage.owes, Stage.claim, Stage.opens]
  · have hro := h.owned.resv_old
    obtain ⟨s1, s2, s3, s4, s5, s7, s6⟩ := h.stocked
    refine ⟨s1, s2, fun q hq hs => ?_, s4, s5, s7, ?_⟩
    · refine filled_upd (s3 q hq hs) fun w he => ?_
      rw [he] at hf; cases hf
    · simp only [begin, upd_apply]; grind
  · obtain ⟨c1, c2, c3, c4, c5⟩ := h.shut
    exact ⟨c1, c2, c3, c4, c5⟩
  · obtain ⟨b1, b2, b3, b4, b5, b6⟩ := h.booked
    exact ⟨by simp only [begin, upd_apply]; grind, b2, b3, b4, b5, b6⟩

theorem sits_finish (t : Tid) (r : Result V) (hs : l.Sits N D stores cell u k st) :
    (l.finish t r).Sits N D stores cell u k st := by
  cases st <;> simp only [Sits, finish, owed_iff, holds_iff, took_iff, me] at * <;> exact hs

/-- A call's record: what its stage shows is what it returns. -/
theorem booked_finish (h : l.Inv N D stores cell ρ) (hk : (ρ t).call = some k) {r : Result V}
    (hr : Returns (ρ t).stage r) : (l.finish t r).Booked (upd ρ t ⟨none, .none⟩) := by
  have hsit := (h.sits hk).2
  have hrn := fun p hp => h.owned.resv_now p t hp (by simp [hk])
  have hcn := fun p hp hl => h.owned.claim_now p t hp hl (by simp [hk])
  obtain ⟨b1, b2, b3, b4, b5, b6⟩ := h.booked
  have hpl := h.stocked.pushed_live
  refine ⟨?_, fun id hid => ?_, fun id hid => ?_, fun id r' p hid hp => ?_, fun id v hid => ?_,
    fun id r' p hid hp hl => ?_⟩
  · simp only [finish, me, upd_apply]; grind
  all_goals simp only [finish, upd_apply] at hid
  all_goals by_cases he : id = l.me t
  all_goals simp only [he, if_true, if_false, Option.some.injEq] at hid
  · subst hid
    obtain ⟨p, v, hst⟩ := returns_ok hr
    rw [hst] at hsit
    exact ⟨p, v, he ▸ hsit.1, hsit.2⟩
  · exact b2 id hid
  · subst hid
    obtain ⟨p, hst⟩ := returns_panicked hr
    rw [hst] at hsit
    exact ⟨p, he ▸ hsit.1, hsit.2.1⟩
  · exact b3 id hid
  · subst hid he
    rcases returns_resv hr (hrn p hp) with ⟨v, hst, rfl⟩ | ⟨hst, rfl⟩ | ⟨hst, rfl⟩
    · rw [hst] at hsit
      have := hpl p
      rw [hsit.2] at this
      exact .inl ⟨rfl, this.symm⟩
    · rw [hst] at hsit
      exact .inr (.inl ⟨rfl, hsit.2⟩)
    · rw [hst] at hsit
      exact .inr (.inr ⟨rfl, hsit.2⟩)
  · exact b4 id r' p hid hp
  · subst hid
    obtain ⟨p, hst⟩ := returns_pop hr
    rw [hst] at hsit
    exact ⟨p, he ▸ hsit.1.mine, hsit.2⟩
  · exact b5 id v hid
  · subst hid he
    obtain ⟨v, hst, rfl⟩ := returns_claim hr (hcn p hp hl)
    rw [hst] at hsit
    exact ⟨v, rfl, hsit.2⟩
  · exact b6 id r' p hid hp hl

theorem inv_finish (h : l.Inv N D stores cell ρ) (hk : (ρ t).call = some k) {r : Result V}
    (hr : Returns (ρ t).stage r) :
    (l.finish t r).Inv N D stores cell (upd ρ t ⟨none, .none⟩) := by
  have hsit := (h.sits hk).2
  refine ⟨h.lanes, fun u => ?_, ?_, ?_, ?_, ?_⟩
  · by_cases he : u = t
    · subst he; simp [Fits]
    · have hu := h.fits u
      rw [upd_ne _ _ he]
      unfold Fits at hu ⊢
      split at hu
      · exact hu
      · exact ⟨hu.1, sits_finish t r hu.2⟩
  · obtain ⟨h1, h2, h3, h4, h5, h6, h7, h8, h9, h10⟩ := h.owned
    have ho : (ρ t).stage.owes = none ∧ (ρ t).stage.opens = none := by
      revert hr
      cases (ρ t).stage <;> cases r <;> simp [Returns, Stage.owes, Stage.opens]
    constructor <;> simp only [finish, me, upd_apply] at * <;> grind
  · obtain ⟨s1, s2, s3, s4, s5, s7, s6⟩ := h.stocked
    refine ⟨s1, s2, fun q hq hs => ?_, s4, s5, s7, s6⟩
    refine filled_upd (s3 q hq hs) fun w he => ?_
    rw [he] at hr; cases r <;> cases hr
  · obtain ⟨c1, c2, c3, c4, c5⟩ := h.shut
    refine ⟨c1, c2, c3, c4, fun id hid => ?_⟩
    simp only [finish, upd_apply] at hid
    split at hid
    · cases hid
      have hat : (ρ t).stage = .atEnd := by
        revert hr; cases (ρ t).stage <;> simp [Returns]
      rw [hat] at hsit
      exact hsit
    · exact c5 id hid
  · exact booked_finish h hk hr

omit [DecidableEq Tid] in
theorem init_inv {x : X} (h2 : 2 ≤ N) (hx : D.bare x) :
    (init : Ledger V K Tid).Inv N D stores (fun _ => x) fun _ => ⟨none, .none⟩ := by
  refine ⟨Lanes.init_inv h2, fun _ => rfl, ?_, ?_, ?_, ?_⟩
  · constructor <;> simp [init, Lanes.init, Phase.taken]
  · constructor <;> simp [init, Lanes.init, live, hx]
  · constructor <;> simp [init, Lanes.init]
  · constructor <;> simp [init]

end
end Katas.Turnstile.Ledger
