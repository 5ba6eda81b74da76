import Katas.Turnstile.Cpp.QueueOutline
import Katas.Turnstile.LedgerFacts

/-!
# What the C++ queue promises

`objects_once`: every object constructed in the ring is destroyed exactly
once, by the consumer that claimed it or by the destructor, and values are
delivered one to one. `queue_shutdown`: who is accepted around a close, what
a drained pop knows, and what tombstones are for.
-/
namespace Katas.Turnstile.Cpp
open Katas.Conc Katas.SeqRing

section
variable {V Tid : Type} [Inhabited V] [DecidableEq Tid] {N : Capacity} {o : Options}
  {x : System.Config (queue V Tid N o)} {c : Core V Tid} {ρ : Tid → QueueRole V} {p : Nat}

theorem queue_holds (hx : (queue V Tid N o).Reachable x) :
    ∃ γ : Tid → QueueRole V, QueueInv N x.state.core γ ∧
      (∀ t a, System.AtOp x t a → queueNeed N t a x.state (γ t)) ∧
      ∀ t, x.thread t = .idle → γ t = ⟨none, .none⟩ := by
  obtain ⟨γ, hI, hst⟩ := Outline.sound (queueOutline_valid (o := o)) hx.reachableIf
  refine ⟨γ, hI, fun t a ha => (hst t).need hI ha, fun t ht => ?_⟩
  have := hst t
  rwa [ht] at this

/-! ## At rest -/

/-- Nobody is in a call. -/
abbrev Idle (ρ : Tid → QueueRole V) : Prop := ∀ t, ρ t = ⟨none, .none⟩

section
omit [Inhabited V] [DecidableEq Tid]

/-- At rest nobody is between a claim and a release. -/
theorem QueueInv.unclaimed (h : QueueInv N c ρ) (hid : Idle ρ) (d : Bool) :
    c.ledger.lanes.phase p ≠ .claimed d := by
  intro hp
  cases hc : c.ledger.claimedBy p with
  | none =>
    have := (h.base.owned.unclaimed p).mp hc
    rw [hp] at this; cases this
  | some id =>
    have := h.base.owned.claiming p d id.1 id.2 hp hc
    rw [hid id.1] at this
    cases this

theorem QueueInv.mem_destructor (h : QueueInv N c ρ) (hid : Idle ρ) :
    p ∈ c.destructor N ↔ c.ledger.lanes.phase p = .published false := by
  have hle := h.base.lanes.head_le_tail
  simp only [Core.destructor, List.mem_filter, List.mem_range'_1, beq_iff_eq]
  constructor
  · rintro ⟨⟨hge, -⟩, hs⟩
    have hd : (c.ledger.lanes.seq (p % N.n)).dead = false := congrArg SeqWord.dead hs
    rcases h.base.lanes.stamp_succ (congrArg SeqWord.stamp hs) with hp | hp
    · rw [hp, hd]
    · exact absurd hp (h.unclaimed hid _)
  · intro hp
    have h1 := h.base.lanes.head p
    have h2 := h.base.lanes.tail p
    rw [hp] at h1 h2
    simp only [Phase.taken, Bool.false_eq_true, false_iff, reduceCtorEq] at h1 h2
    exact ⟨by omega, h.base.lanes.shown p false (.inl hp)⟩

theorem destructor_nodup (c : Core V Tid) : (c.destructor N).Nodup :=
  List.Pairwise.filter _ List.nodup_range'

/-- The destructor destroys what lives, each object once. -/
theorem QueueInv.destructor_exact (h : QueueInv N c ρ) (hid : Idle ρ) :
    (∀ p, p ∈ c.destructor N → c.object N p ≠ none) ∧
    (∀ p q, p ∈ c.destructor N → q ∈ c.destructor N → p % N.n = q % N.n → p = q) ∧
    ∀ i, i < N.n → c.storage i ≠ none → ∃ p, p ∈ c.destructor N ∧ p % N.n = i := by
  refine ⟨fun p hp => ?_, fun p q hp hq hl => ?_, fun i hi hs => ?_⟩
  · obtain ⟨v, -, hf⟩ := h.base.stocked.shown p ((h.mem_destructor hid).mp hp)
    rw [show c.object N p = some v from hf]; simp
  · exact h.base.lanes.shown_unique (.inl ((h.mem_destructor hid).mp hq))
      (.inl ((h.mem_destructor hid).mp hp)) hl
  · obtain ⟨p, rfl, ⟨hst, hu⟩ | ⟨d, hp | hp⟩⟩ := h.base.lanes.stands hi
    · -- a free slot is bare
      rcases h.base.stocked.free p hu hst with hb | ⟨t, v, ht⟩
      · exact absurd hb hs
      · rw [hid t] at ht; cases ht
    · cases d with
      | true => exact absurd (h.base.stocked.dark p hp) hs
      | false => exact ⟨p, (h.mem_destructor hid).mpr hp, rfl⟩
    · exact absurd hp (h.unclaimed hid d)

/-- At rest the objects constructed are those destroyed and those that the
destructor destroys. -/
theorem QueueInv.built_razed (h : QueueInv N c ρ) (hid : Idle ρ) :
    c.built p = c.razed p + (c.destructor N).count p ∧ c.built p ≤ 1 := by
  have hb : Built c.ledger ρ p ↔ live (c.ledger.lanes.phase p) = true := by
    unfold Built
    rw [h.base.stocked.pushed_live]
    refine or_iff_left fun ⟨t, v, ht⟩ => ?_
    rw [hid t] at ht; cases ht
  have hr : Razed c.ledger ρ p ↔ c.ledger.lanes.phase p = .released false := by
    refine or_iff_left fun ⟨t, v, ht⟩ => ?_
    rw [hid t] at ht; cases ht
  have hc := (destructor_nodup (N := N) c).count (a := p)
  simp only [h.mem_destructor hid] at hc
  have h1 := h.lives.built p
  have h2 := h.lives.razed p
  rw [hb] at h1
  rw [hr] at h2
  cases hp : c.ledger.lanes.phase p with
  | claimed d => exact absurd hp (h.unclaimed hid d)
  | published d | released d => cases d <;> simp [hp, live] at h1 h2 hc <;> omega
  | vacant | reserved | refused => simp [hp, live] at h1 h2 hc; omega

end

abbrev Delivered (c : Core V Tid) (id id' : CallId Tid) (v : V) : Prop :=
  c.ledger.Delivered Call.stores id id' v

/-- **Objects live once.** In every interleaving an object is constructed
only in storage without one, moved from and destroyed only where one was
published with a value and claimed, and when nobody is in a call the
destructor's test selects exactly the live objects, each once; so for every
position what was constructed is destroyed once. A value popped comes from
one push, which returns ok, and no push is delivered twice. -/
theorem objects_once (hx : (queue V Tid N o).Reachable x) :
    (∀ t pos v, System.AtOp x t (.construct pos v) → x.state.core.object N pos = none) ∧
    (∀ t pos, System.AtOp x t (.moveOut pos) ∨ System.AtOp x t (.destroy pos) →
      x.state.core.object N pos ≠ none ∧ (x.state.core.ledger.lanes.phase pos).isDead = false) ∧
    ((∀ t, x.thread t = .idle) →
      (∀ pos, pos ∈ x.state.core.destructor N → x.state.core.object N pos ≠ none) ∧
      (∀ pos q, pos ∈ x.state.core.destructor N → q ∈ x.state.core.destructor N →
        pos % N.n = q % N.n → pos = q) ∧
      (∀ i, i < N.n → x.state.core.storage i ≠ none →
        ∃ pos, pos ∈ x.state.core.destructor N ∧ pos % N.n = i) ∧
      ∀ pos, x.state.core.built pos =
          x.state.core.razed pos + (x.state.core.destructor N).count pos ∧
        x.state.core.built pos ≤ 1) ∧
    (∀ id v, x.state.core.ledger.results id = some (.pop (.ok v)) →
      ∃ id', Delivered x.state.core id id' v ∧
        (∀ id'' w, Delivered x.state.core id id'' w → id'' = id' ∧ w = v) ∧
        ∀ r, x.state.core.ledger.results id' = some r → r = .push .ok) ∧
    (∀ id₁ id₂ id' v w, Delivered x.state.core id₁ id' v → Delivered x.state.core id₂ id' w →
      id₁ = id₂) := by
  obtain ⟨γ, hI, hneed, hrest⟩ := queue_holds hx
  have reads : ∀ {t pos}, Reads N x.state.core t pos → x.state.core.object N pos ≠ none ∧
      (x.state.core.ledger.lanes.phase pos).isDead = false := by
    rintro t pos ⟨ht, v, -, hobj⟩
    exact ⟨by rw [hobj]; simp, by rw [ht.phase]; rfl⟩
  refine ⟨fun t pos v ha => (hneed t _ ha).1.2, ?_, fun hidle => ?_,
    fun id v hr => hI.base.delivered hr, fun _ _ _ _ _ h1 h2 => hI.base.delivered_once h1 h2⟩
  · rintro t pos (ha | ha)
    · exact reads (hneed t _ ha)
    · exact reads (hneed t _ ha).1
  · have hid : Idle γ := fun t => hrest t (hidle t)
    obtain ⟨h1, h2, h3⟩ := hI.destructor_exact hid
    exact ⟨h1, h2, h3, fun pos => hI.built_razed hid⟩

end

/-! A run of a small queue. -/

abbrev fourSlots : Capacity := .four

abbrev ticketQueue : System := queue Nat (Fin 4) fourSlots ⟨.ticket, true, true, .event_count, true⟩

/-- `n` operations of `t`. -/
def ops (t : Fin 4) (n : Nat) : List (System.Label ticketQueue) := List.replicate n (.step t 0)

/-- A ticket, a compare-exchange and a pop. -/
def twoPushed : List (System.Label ticketQueue) :=
  .invoke (0 : Fin 4) (.push 7) :: ops 0 7 ++ .invoke (1 : Fin 4) (.try_push 8) :: ops 1 8 ++
  .invoke (2 : Fin 4) .try_pop :: ops 2 9

/-- The test that nobody is in a call. -/
def allIdle (x : System.Config ticketQueue) : Bool :=
  ∀ t : Fin 4, (match x.thread t with
    | .idle => true
    | .run _ _ => false) = true

theorem allIdle_idle {x : System.Config ticketQueue} (h : allIdle x = true) (t : Fin 4) :
    x.thread t = .idle := by
  simp only [allIdle, decide_eq_true_eq] at h
  have := h t
  split at this
  · assumption
  · cases this

theorem objects_once_two : ∃ x : System.Config ticketQueue, ticketQueue.Reachable x ∧
    x.state.core.ledger.results ((2 : Fin 4), 1) = some (.pop (.ok 7)) ∧
    (∃ id', Delivered x.state.core ((2 : Fin 4), 1) id' 7) ∧
    x.state.core.destructor fourSlots = [1] ∧ x.state.core.object fourSlots 1 ≠ none ∧
    x.state.core.built 0 = x.state.core.razed 0 := by
  obtain ⟨x, hx, hp⟩ := System.reachable_of_test twoPushed
    (fun x => allIdle x && decide (
      x.state.core.ledger.results ((2 : Fin 4), 1) = some (.pop (.ok 7)) ∧
      x.state.core.destructor fourSlots = [1])) (by decide +kernel)
  simp only [Bool.and_eq_true, decide_eq_true_eq] at hp
  obtain ⟨hidle, hr, hd⟩ := hp
  obtain ⟨-, -, hrest, hpop, -⟩ := objects_once hx
  obtain ⟨hsel, -, -, hcount⟩ := hrest (allIdle_idle hidle)
  obtain ⟨id', h, -⟩ := hpop _ _ hr
  refine ⟨x, hx, hr, ⟨id', h⟩, hd, hsel 1 (by simp [hd]), ?_⟩
  simpa [hd] using (hcount 0).1

section
variable {V Tid : Type} [Inhabited V] [DecidableEq Tid] {N : Capacity} {o : Options}
  {x : System.Config (queue V Tid N o)} {c : Core V Tid} {ρ : Tid → QueueRole V} {p : Nat}

/-! ## Shutdown -/

theorem grows_sem {s s' : State V Tid} (h : QueueInv N s.core ρ) {t : Tid} {a : Act V} {n : Nat}
    {r : Resp a} (hs : sem N t a n s = some (s', r)) :
    s.core.ledger.Grows s'.core.ledger := by
  by_cases hq : quiet a = true
  · rw [core_of_quiet hq hs]; exact .rfl
  · cases a <;> simp only [quiet, not_true_eq_false] at hq <;> simp only [sem] at hs
    case tailCas word =>
      split at hs <;> cases hs
      · exact h.base.grows_reserve t
      · exact .rfl
    case tailAdd => cases hs; exact h.base.grows_reserve t
    case tailOr => cases hs; exact h.base.grows_setClosed
    case headCas pos =>
      split at hs <;> cases hs
      · rename_i hp; obtain ⟨rfl, -⟩ := hp; exact h.base.grows_claim t _
      · exact .rfl
    all_goals cases hs; exact ⟨fun _ _ h => h, fun _ _ h => h, fun _ h => h⟩

theorem grows_run (hx : (queue V Tid N o).Reachable x) {x' : System.Config (queue V Tid N o)}
    {ls : List (System.Label (queue V Tid N o))} (hr : (queue V Tid N o).lts.Run x ls x') :
    x.state.core.ledger.Grows x'.state.core.ledger := by
  refine LTS.Reachable.lift (R := fun x x' : System.Config (queue V Tid N o) =>
    x.state.core.ledger.Grows x'.state.core.ledger) (fun _ => .rfl) .trans ?_ hx hr
  intro x lb x' hx hs
  obtain ⟨γ, hI, -⟩ := queue_holds hx
  rcases System.step_cases hs with he | ⟨t, c, he⟩ | ⟨t, c, r, he⟩ | ⟨t, a, n, r, hsem⟩
  · rw [he]; exact .rfl
  · rw [he]; exact ⟨fun _ _ h => h, fun _ _ h => h, fun _ h => h⟩
  · rw [he]; exact ⟨fun _ _ h => h, fun _ _ h => h, fun _ h => h⟩
  · exact grows_sem hI hsem

omit [Inhabited V] [DecidableEq Tid] in
/-- A position was reserved with the closed bit clear exactly when the close
came at a later one. -/
theorem QueueInv.open_iff (h : QueueInv N c ρ) (hp : c.ledger.reservedBy p ≠ none) :
    c.openAt p = true ↔ ∀ e, c.ledger.closePos = some e → p < e := by
  have hl := h.openAt p hp
  cases ho : c.openAt p <;> rw [ho] at hl
  · exact iff_of_false (by simp) (late_iff.mp hl)
  · exact iff_of_true rfl hl

omit [Inhabited V] [DecidableEq Tid] in
/-- What a call that reserved `p` returns. -/
theorem QueueInv.paid (h : QueueInv N c ρ) {id : CallId Tid} {r : Result V}
    (hp : c.ledger.reservedBy p = some id) (hr : c.ledger.results id = some r) :
    r = .push .ok ∧ c.openAt p = true ∨ r = .push .closed ∧ c.openAt p = false := by
  have hopen := h.open_iff (p := p) (by simp [hp])
  rcases h.base.booked.paid id r p hr hp with ⟨rfl, hl⟩ | ⟨-, hd, hl⟩ | ⟨rfl, hd, -⟩
  · refine .inl ⟨rfl, hopen.mpr fun e he => Nat.lt_of_not_le fun hle => ?_⟩
    rw [h.base.shut.after e p he hle] at hl; cases hl
  · -- nothing but a late ticket is paid with a tombstone
    have := hopen.mpr hl
    rw [h.dead p hd] at this; cases this
  · exact .inr ⟨rfl, h.dead p hd⟩

/-- **Shutdown.** A push returns ok exactly when its position was reserved
with the closed bit clear. Once a pop has returned drained, every position so
reserved is claimed and no call that begins later returns a value, in any
continuation. A tombstone goes to a position reserved with the bit set, whose
push returns closed; its storage stays empty, whoever claims it releases it
without a value, and when nobody is in a call every claimed one has been
released. -/
theorem queue_shutdown (hx : (queue V Tid N o).Reachable x) :
    (∀ id r, x.state.core.ledger.results id = some r →
      (r = .push .ok ↔ ∃ pos, x.state.core.ledger.reservedBy pos = some id ∧
        x.state.core.openAt pos = true)) ∧
    (∀ id, x.state.core.ledger.results id = some (.pop .drained) →
      (∀ pos, x.state.core.ledger.reservedBy pos ≠ none → x.state.core.openAt pos = true →
        x.state.core.ledger.claimedBy pos ≠ none) ∧
      ∀ ls x', (queue V Tid N o).lts.Run x ls x' → ∀ t n v, x.state.core.ledger.calls t < n →
        x'.state.core.ledger.results (t, n) ≠ some (.pop (.ok v))) ∧
    (∀ t pos, System.AtOp x t (.seqStoreDead pos) →
      x.state.core.ledger.reservedBy pos = some (x.state.core.ledger.me t) ∧
        x.state.core.openAt pos = false ∧ x.state.core.object N pos = none) ∧
    (∀ pos, (x.state.core.ledger.lanes.phase pos).isDead = true →
      (∀ id r, x.state.core.ledger.reservedBy pos = some id →
        x.state.core.ledger.results id = some r → r = .push .closed) ∧
      x.state.core.ledger.pushed pos = none ∧ x.state.core.ledger.popped pos = none ∧
      (∀ t, System.AtOp x t (.seqRelease pos) → x.state.core.object N pos = none ∧
        x.state.core.ledger.claimedBy pos = some (x.state.core.ledger.me t)) ∧
      ((∀ t, x.thread t = .idle) → pos < x.state.core.ledger.lanes.head →
        x.state.core.ledger.lanes.phase pos = .released true)) := by
  obtain ⟨γ, hI, hneed, hrest⟩ := queue_holds hx
  refine ⟨fun id r hr => ⟨?_, ?_⟩, fun id hd => ⟨fun pos hp hopen => ?_, ?_⟩, fun t pos ha => ?_,
    fun pos hdead => ⟨fun id r hp hr => ?_, ?_, ?_, fun t ha => ?_, fun hidle hlt => ?_⟩⟩
  · rintro rfl
    obtain ⟨pos, hp, -, hlt⟩ := hI.base.ok_before hr
    exact ⟨pos, hp, (hI.open_iff (by simp [hp])).mpr hlt⟩
  · rintro ⟨pos, hp, hopen⟩
    rcases hI.paid hp hr with ⟨h, -⟩ | ⟨-, h⟩
    · exact h
    · rw [hopen] at h; cases h
  · obtain ⟨e, he, hle⟩ := hI.base.shut.drained id hd
    have := (hI.open_iff hp).mp hopen e he
    exact hI.base.claimed_below (by omega)
  · intro ls x' hr t n v hn
    obtain ⟨γ', hI', -⟩ := queue_holds (hx.run hr)
    exact hI.base.drained_final hd hI'.base (grows_run hx hr) hn v
  · obtain ⟨hw, hopen⟩ := hneed t _ ha
    exact ⟨hw.1.mine, hopen, hw.2⟩
  · rcases hI.paid hp hr with ⟨-, h⟩ | ⟨h, -⟩
    · rw [hI.dead pos hdead] at h; cases h
    · exact h
  · exact (hI.base.dead_unpopped hdead).1
  · exact (hI.base.dead_unpopped hdead).2
  · obtain ⟨d, ht, hobj, -⟩ := hneed t _ ha
    exact ⟨hobj, ht.mine⟩
  · have hid : Idle γ := fun t => hrest t (hidle t)
    have htaken := (hI.base.lanes.head pos).mpr hlt
    cases hp : x.state.core.ledger.lanes.phase pos with
    | released d => rw [hp] at hdead; rw [show d = true from hdead]
    | claimed d => exact absurd hp (hI.unclaimed hid d)
    | vacant | reserved | refused | published d => rw [hp] at htaken; cases htaken

end

/-- A ticket taken after the close, and a pop that skips its tombstone. -/
def lateTicket : List (System.Label ticketQueue) :=
  .invoke (0 : Fin 4) (.push 7) :: ops 0 1 ++ .invoke (1 : Fin 4) .close :: ops 1 6 ++ ops 0 4 ++
  .invoke (2 : Fin 4) .pop :: ops 2 271

theorem queue_shutdown_late : ∃ x : System.Config ticketQueue, ticketQueue.Reachable x ∧
    x.state.core.ledger.results ((2 : Fin 4), 1) = some (.pop .drained) ∧
    x.state.core.ledger.results ((0 : Fin 4), 1) = some (.push .closed) ∧
    x.state.core.openAt 0 = false ∧ x.state.core.ledger.lanes.phase 0 = .released true ∧
    x.state.core.ledger.popped 0 = none := by
  obtain ⟨x, hx, hp⟩ := System.reachable_of_test lateTicket
    (fun x => allIdle x && decide (
      x.state.core.ledger.results ((2 : Fin 4), 1) = some (.pop .drained) ∧
      x.state.core.ledger.results ((0 : Fin 4), 1) = some (.push .closed) ∧
      x.state.core.ledger.reservedBy 0 = some ((0 : Fin 4), 1) ∧
      (x.state.core.ledger.lanes.phase 0).isDead = true ∧ x.state.core.ledger.lanes.head = 1))
    (by decide +kernel)
  simp only [Bool.and_eq_true, decide_eq_true_eq] at hp
  obtain ⟨hidle, hr, hc, hres, hdead, hhead⟩ := hp
  obtain ⟨hok, -, -, htomb⟩ := queue_shutdown hx
  obtain ⟨-, -, hpop, -, hrel⟩ := htomb 0 hdead
  refine ⟨x, hx, hr, hc, ?_, hrel (allIdle_idle hidle) (by omega), hpop⟩
  cases ho : x.state.core.openAt 0 with
  | false => rfl
  | true => have := (hok _ _ hc).mpr ⟨0, hres, ho⟩; cases this

end Katas.Turnstile.Cpp
