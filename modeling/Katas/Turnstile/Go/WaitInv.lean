import Katas.Turnstile.Go.Ring

/-!
# Nobody sleeps through a publication

The invariant of the consumers' waiter, in both modes. A goroutine's `Nap`
is its part in the protocol: how far it has got with falling asleep, and
what it still owes others. `WaitInv.woken` is the heart: while the ring is
open, the head is published and somebody waits, somebody is responsible
(`Carried`) for the wake. `WaitInv.shut` is its counterpart for the close.
-/
namespace Katas.Turnstile.Go
open Katas.Conc

/-- How far an announced sleeper's re-check has got. `rechecked`: after the
announcement the head was seen unpublished; `passed`: after that the tail
was seen open. -/
inductive Check where
  | fresh
  | rechecked
  | passed
  deriving DecidableEq

/-- `leaving`: out of the select, still announced; `awake`: on the way to
the next pop and its hand-off. -/
inductive Sleep where
  | out
  | indexed (i : Nat)
  | up (i : Nat) (c : Check)
  | leaving (i : Nat)
  | awake
  deriving DecidableEq

def Sleep.announced : Sleep → Option Nat
  | up i _ | leaving i => some i
  | _ => none

theorem Sleep.of_announced {s : Sleep} {i : Nat} (h : s.announced = some i) :
    (∃ c, s = .up i c) ∨ s = .leaving i := by
  cases s <;> simp_all [announced]

/-- `looking`: about to read the announcements after a publication, or for a
wake it passes on; `claimedBit i`: cleared sleeper `i`'s bit and has not sent
the token; `closer`, `closerWon`: before and after its `closing` swap
succeeded; `sending m`: sending the close's tokens. -/
inductive Duty where
  | none
  | looking
  | claimedBit (i : Nat)
  | closer
  | closerWon
  | sending (m : Nat → Bool)

/-- Sleeper `i` will get a token from here. -/
def Duty.sends : Duty → Nat → Prop
  | claimedBit j, i => i = j
  | sending m, i => m i = true
  | _, _ => False

/-- `seen`: a head position seen earlier; `slot`: the index it has on the
waiter. -/
structure Nap where
  sleep : Sleep
  duty : Duty
  seen : Nat
  slot : Option Nat

section
variable {Tid : Type} [DecidableEq Tid]

/-- `g` will look at the head, or see to it that somebody does. -/
def Carries (sh : Bool) (w : Waiter) (g : Nap) : Prop :=
  g.duty = .looking ∨ (∃ i, g.sleep = .leaving i) ∨ g.sleep = .awake ∨
    ∃ i c, g.sleep = .up i c ∧ sh = false ∧ w.asleep i = false

def Carried (sh : Bool) (w : Waiter) (γ : Tid → Nap) : Prop :=
  (∃ t, Carries sh w (γ t)) ∨ sh = true ∧ w.token = true

/-- Who sits where: indices belong to one goroutine each, and an announced one
to its sleeper; shared, the count is that of the announced. -/
structure Seats (sh : Bool) (w : Waiter) (γ : Tid → Nap) : Prop where
  slot : sh = false → ∀ t i, (γ t).sleep.announced = some i → (γ t).slot = some i
  lt : ∀ t i, (γ t).slot = some i → i < w.n ∧ i < maxSleepers
  inj : ∀ t u i, (γ t).slot = some i → (γ u).slot = some i → t = u
  idx : ∀ t i, (γ t).sleep = .indexed i → i < w.n ∧ ∀ u, (γ u).slot ≠ some i
  idx_inj : ∀ t u i, (γ t).sleep = .indexed i → (γ u).sleep = .indexed i → t = u
  owner : sh = false → ∀ i, w.asleep i = true → ∃ t, (γ t).sleep.announced = some i
  count : sh = true → ∃ l : List Tid, l.Nodup ∧ (∀ t, t ∈ l ↔ (γ t).sleep.announced ≠ none) ∧
    w.count = l.length

/-- Who owes what. `sent`: a sleeper whose bit was cleared gets a token;
`woken`: while the ring is open and its head published, somebody is
responsible for those who have found nothing and wait; `shut`: once it is
closed, a closer for those who saw it open. -/
structure Duties (sh : Bool) (w : Waiter) (closed : Bool) (pub : Prop) (γ : Tid → Nap) : Prop where
  begun : ∀ t, (γ t).duty = .closer → closed = true
  sent : sh = false → ∀ t i c, (γ t).sleep = .up i c → w.asleep i = false →
    w.tokens i = true ∨ ∃ u, (γ u).duty.sends i
  woken : closed = false → pub → ∀ t i c, (γ t).sleep = .up i c → c ≠ .fresh →
    (sh = false → w.asleep i = true) → Carried sh w γ
  shut : closed = true → ∀ t i, (γ t).sleep = .up i .passed →
    (sh = false → w.asleep i = true) → (sh = true → w.closed = false) →
    (∃ u, (γ u).duty = .closerWon) ∨ w.closing = false ∧ ∃ u, (γ u).duty = .closer

/-- The duty of a closer that has to send the tokens `m`. -/
def sendingOf (m : Nat → Bool) : Duty := if lowest m = none then .none else .sending m

/-- `sh`: the shared mode; `w` the waiter; `pub`: the head is published. -/
structure WaitInv (sh : Bool) (w : Waiter) (stats : Tid → OpStats) (closed : Bool) (head : Nat)
    (pub : Prop) (γ : Tid → Nap) : Prop where
  seen : ∀ t, (γ t).seen ≤ head
  stats : ∀ t i, (γ t).slot = some i ↔ stats t = ⟨some .notEmpty, i⟩
  closing : w.closing = true → closed = true
  seats : Seats sh w γ
  duties : Duties sh w closed pub γ

variable {sh closed : Bool} {w : Waiter} {stats : Tid → OpStats} {head : Nat} {pub : Prop}
  {γ : Tid → Nap} {t : Tid}

/-! ## The seats -/

/-- Announced as before. -/
theorem Seats.keep (h : Seats sh w γ) {g : Nap} {w' : Waiter}
    (hg : g.sleep.announced = (γ t).sleep.announced) (hi : ∀ i, g.sleep ≠ .indexed i)
    (hs : g.slot = (γ t).slot) (hn : w'.n = w.n) (ha : ∀ i, w'.asleep i = true → w.asleep i = true)
    (hc : w'.count = w.count) : Seats sh w' (upd γ t g) := by
  obtain ⟨γ', hγ', e1, e2, e3⟩ := upd_spec γ t g
  rw [hγ']
  have hann : ∀ u, (γ' u).sleep.announced = (γ u).sleep.announced := by grind
  have hslot : ∀ u, (γ' u).slot = (γ u).slot := by grind
  obtain ⟨h1, h2, h3, h4, h5, h6, h7⟩ := h
  constructor
  · simpa only [hann, hslot] using h1
  · simpa only [hn, hslot] using h2
  · simpa only [hslot] using h3
  · grind
  · grind
  · simp only [hann]; exact fun hsh i hi => h6 hsh i (ha i hi)
  · simpa only [hann, hc] using h7

/-- What `t` has seen does not matter. -/
theorem Seats.see (h : Seats sh w γ) {g : Nap} (hg : g.sleep = (γ t).sleep)
    (hs : g.slot = (γ t).slot) : Seats sh w (upd γ t g) := by
  have hsl : ∀ u, (upd γ t g u).sleep = (γ u).sleep := congrFun (upd_comp Nap.sleep γ t g hg)
  have hslot : ∀ u, (upd γ t g u).slot = (γ u).slot := congrFun (upd_comp Nap.slot γ t g hs)
  obtain ⟨h1, h2, h3, h4, h5, h6, h7⟩ := h
  constructor <;> simpa only [hsl, hslot]

/-- Taking a new index. -/
theorem Seats.index (h : Seats sh w γ) {d : Duty} {n : Nat} (hsl : (γ t).sleep = .out) :
    Seats sh { w with n := w.n + 1 } (upd γ t ⟨.indexed w.n, d, n, (γ t).slot⟩) := by
  obtain ⟨γ', hγ', e1, e2, e3⟩ := upd_spec γ t ⟨.indexed w.n, d, n, (γ t).slot⟩
  rw [hγ']
  obtain ⟨h1, h2, h3, h4, h5, h6, h7⟩ := h
  have hann : ∀ u, (γ' u).sleep.announced = (γ u).sleep.announced := by grind [Sleep.announced]
  have hslot : ∀ u, (γ' u).slot = (γ u).slot := by grind
  constructor
  · simpa only [hann, hslot] using h1
  · simp only [hslot]; grind
  · simpa only [hslot] using h3
  · grind
  · grind
  · simpa only [hann] using h6
  · simpa only [hann] using h7

/-- Binding the new index, or one on the other waiter. -/
theorem Seats.bind (h : Seats sh w γ) {d : Duty} {n : Nat} {x : Option Nat}
    (hsl : (γ t).sleep.announced = none)
    (hx : ∀ i, x = some i → (γ t).sleep = .indexed i ∧ i < maxSleepers) :
    Seats sh w (upd γ t ⟨.out, d, n, x⟩) := by
  obtain ⟨γ', hγ', e1, e2, e3⟩ := upd_spec γ t ⟨.out, d, n, x⟩
  rw [hγ']
  obtain ⟨h1, h2, h3, h4, h5, h6, h7⟩ := h
  have hann : ∀ u, (γ' u).sleep.announced = (γ u).sleep.announced := by grind [Sleep.announced]
  constructor
  · grind [Sleep.announced]
  · grind
  · grind
  · grind
  · grind
  · simpa only [hann] using h6
  · simpa only [hann] using h7

/-- A sleeper announces itself. -/
theorem Seats.announce (h : Seats false w γ) {d : Duty} {n i : Nat} (hsl : (γ t).sleep = .out)
    (hs : (γ t).slot = some i) :
    Seats false { w with asleep := upd w.asleep i true }
      (upd γ t ⟨.up i .fresh, d, n, (γ t).slot⟩) := by
  obtain ⟨γ', hγ', e1, e2, e3⟩ := upd_spec γ t ⟨.up i .fresh, d, n, (γ t).slot⟩
  rw [hγ']
  obtain ⟨h1, h2, h3, h4, h5, h6, h7⟩ := h
  have hslot : ∀ u, (γ' u).slot = (γ u).slot := by grind
  constructor
  · grind [Sleep.announced]
  · simpa only [hslot] using h2
  · simpa only [hslot] using h3
  · grind
  · grind
  · simp only [upd_apply]; grind [Sleep.announced]
  · simp

/-- A sleeper withdraws, clearing its bit. -/
theorem Seats.withdraw (h : Seats false w γ) {g : Nap} {i : Nat}
    (hsl : (γ t).sleep.announced = some i) (hg : g.sleep = .out ∨ g.sleep = .awake)
    (hs : g.slot = (γ t).slot) :
    Seats false { w with asleep := upd w.asleep i false } (upd γ t g) := by
  obtain ⟨γ', hγ', e1, e2, e3⟩ := upd_spec γ t g
  rw [hγ']
  obtain ⟨h1, h2, h3, h4, h5, h6, h7⟩ := h
  have hslot : ∀ u, (γ' u).slot = (γ u).slot := by grind
  constructor
  · grind [Sleep.announced]
  · simpa only [hslot] using h2
  · simpa only [hslot] using h3
  · grind
  · grind
  · simp only [upd_apply]; grind [Sleep.announced]
  · simp

/-- The shared count follows the announcements. -/
theorem Seats.countUp (h : Seats true w γ) {g : Nap} (hsl : (γ t).sleep = .out)
    (hg : g.sleep = .up 0 .fresh) (hs : g.slot = (γ t).slot) :
    Seats true { w with count := w.count + 1 } (upd γ t g) := by
  obtain ⟨γ', hγ', e1, e2, e3⟩ := upd_spec γ t g
  rw [hγ']
  obtain ⟨h1, h2, h3, h4, h5, h6, h7⟩ := h
  have hslot : ∀ u, (γ' u).slot = (γ u).slot := by grind
  refine ⟨by simp, by simpa only [hslot] using h2, by simpa only [hslot] using h3, by grind,
    by grind, by simp, fun _ => ?_⟩
  obtain ⟨l, hl, hm, hc⟩ := h7 rfl
  have ht : t ∉ l := by rw [hm]; simp [hsl, Sleep.announced]
  refine ⟨t :: l, List.nodup_cons.mpr ⟨ht, hl⟩, fun u => ?_, by simp [hc]⟩
  rcases e2 u with rfl | he
  · simp [e1, hg, Sleep.announced]
  · by_cases hu : u = t
    · subst hu; simp [e1, hg, Sleep.announced]
    · simp [hu, he, hm]

theorem Seats.countDown (h : Seats true w γ) {g : Nap} (hsl : (γ t).sleep.announced ≠ none)
    (hg : g.sleep = .out ∨ g.sleep = .awake) (hs : g.slot = (γ t).slot) :
    Seats true { w with count := w.count + -1 } (upd γ t g) := by
  obtain ⟨γ', hγ', e1, e2, e3⟩ := upd_spec γ t g
  rw [hγ']
  obtain ⟨h1, h2, h3, h4, h5, h6, h7⟩ := h
  have hslot : ∀ u, (γ' u).slot = (γ u).slot := by grind
  refine ⟨by simp, by simpa only [hslot] using h2, by simpa only [hslot] using h3, by grind,
    by grind, by simp, fun _ => ?_⟩
  obtain ⟨l, hl, hm, hc⟩ := h7 rfl
  have ht : t ∈ l := by rw [hm]; exact hsl
  refine ⟨l.erase t, hl.erase t, fun u => ?_, ?_⟩
  · rw [hl.mem_erase_iff]
    by_cases hu : u = t
    · subst hu; rcases hg with hg | hg <;> simp [e1, hg, Sleep.announced]
    · simp [hu, (e2 u).resolve_left hu, hm]
  · have := List.length_pos_of_mem ht
    rw [List.length_erase_of_mem ht]
    simp only [hc]; omega

/-! ## The duties -/

/-- A goroutine that owes nothing and sleeps nowhere takes on a wake, which
covers whatever becomes published. -/
theorem Duties.look (h : Duties sh w closed pub γ) {g : Nap} (hd : (γ t).duty = .none)
    (hg : g.duty = .looking) (hs : ∀ i c, g.sleep ≠ .up i c) (pub' : Prop) :
    Duties sh w closed pub' (upd γ t g) := by
  obtain ⟨γ', hγ', e1, e2, e3⟩ := upd_spec γ t g
  rw [hγ']
  refine ⟨by have := h.begun; grind, ?_, ?_, ?_⟩
  · have := h.sent; grind [Duty.sends]
  · grind [Carried, Carries]
  · have := h.shut; grind

/-- A step that lets nobody down: `t` gives up no duty and is no more waiting
or stuck than before. -/
theorem Duties.keep (h : Duties sh w closed pub γ) {g : Nap} (hd : g.duty = (γ t).duty)
    (hup : sh = false → ∀ i c, g.sleep = .up i c → ∃ c', (γ t).sleep = .up i c')
    (hw : ∀ i c, g.sleep = .up i c → c ≠ .fresh →
      (∃ c', (γ t).sleep = .up i c' ∧ c' ≠ .fresh) ∨ closed = true ∨ ¬ pub)
    (hc : Carries sh w (γ t) → Carries sh w g ∨ closed = true ∨ ¬ pub)
    (hs : ∀ i, g.sleep = .up i .passed → (γ t).sleep = .up i .passed ∨ closed = false) :
    Duties sh w closed pub (upd γ t g) := by
  obtain ⟨γ', hγ', e1, e2, e3⟩ := upd_spec γ t g
  rw [hγ']
  refine ⟨by have := h.begun; grind, ?_, ?_, ?_⟩
  · have := h.sent; grind
  · have := h.woken; grind [Carried]
  · have := h.shut; grind

omit [DecidableEq Tid] in
/-- An empty channel that no sleeper waits on. -/
theorem Duties.untoken (h : Duties sh w closed pub γ) {i : Nat}
    (hno : sh = false → ∀ u c, (γ u).sleep ≠ .up i c) :
    Duties sh { w with tokens := upd w.tokens i false } closed pub γ := by
  refine ⟨by have := h.begun; grind, ?_, ?_, ?_⟩
  · have := h.sent; simp only [upd_apply]; grind
  · exact h.woken
  · exact h.shut

/-- A new sleeper, its bit set. -/
theorem Duties.announce (h : Duties false w closed pub γ) {g : Nap} {i : Nat}
    (hd : g.duty = (γ t).duty) (hsl : (γ t).sleep = .out) (hg : g.sleep = .up i .fresh)
    (hno : ∀ u, (γ u).sleep.announced ≠ some i) :
    Duties false { w with asleep := upd w.asleep i true } closed pub (upd γ t g) := by
  obtain ⟨γ', hγ', e1, e2, e3⟩ := upd_spec γ t g
  rw [hγ']
  refine ⟨by have := h.begun; grind, ?_, ?_, ?_⟩
  · have := h.sent; simp only [upd_apply]; grind
  · have := h.woken; grind [upd_apply, Carried, Carries, Sleep.announced]
  · have := h.shut; grind [upd_apply, Sleep.announced]

/-- A sleeper goes, clearing its bit: if a waker had cleared it before, it
takes on the wake. -/
theorem Duties.withdraw (h : Duties false w closed pub γ) {g : Nap} {i : Nat}
    (hd : (γ t).duty = .none)
    (hg : g.sleep = .out ∧ (∃ c, (γ t).sleep = .up i c) ∧
        g.duty = (if w.asleep i then .none else .looking) ∨ g.sleep = .awake ∧ g.duty = .none)
    (hno : ∀ u, u ≠ t → (γ u).sleep.announced ≠ some i) :
    Duties false { w with asleep := upd w.asleep i false } closed pub (upd γ t g) := by
  obtain ⟨γ', hγ', e1, e2, e3⟩ := upd_spec γ t g
  rw [hγ']
  refine ⟨by have := h.begun; grind, ?_, ?_, ?_⟩
  · have := h.sent; simp only [upd_apply]; grind [Duty.sends, Sleep.announced]
  · have := h.woken; grind [upd_apply, Carried, Carries, Sleep.announced]
  · have := h.shut; grind [upd_apply, Sleep.announced]

/-- A waker clears a bit: its sleeper now carries the wake, and will get a
token. -/
theorem Duties.takeBit (h : Duties false w closed pub γ) {g : Nap} {i : Nat}
    (hsl : (γ t).sleep = .out) (hd : (γ t).duty = .looking) (hg : g.duty = .claimedBit i)
    (hsl' : g.sleep = .out) (howner : ∃ u, (γ u).sleep.announced = some i) :
    Duties false { w with asleep := upd w.asleep i false } closed pub (upd γ t g) := by
  obtain ⟨γ', hγ', e1, e2, e3⟩ := upd_spec γ t g
  rw [hγ']
  refine ⟨by have := h.begun; grind, ?_, fun _ _ _ _ _ _ _ _ => ?_, ?_⟩
  · have := h.sent; simp only [upd_apply]; grind [Duty.sends]
  · obtain ⟨u, hu⟩ := howner
    have hup := Sleep.of_announced hu
    refine .inl ⟨u, ?_⟩
    simp only [Carries, upd_apply]; grind
  · have := h.shut; grind [upd_apply, Sleep.announced]

theorem lowest_none {m : Nat → Bool} (h : lowest m = none) {i : Nat} (hi : i < maxSleepers) :
    m i = false := by
  have := List.find?_eq_none.mp h i (List.mem_range.mpr hi)
  simpa using this

theorem sendingOf_ne (m : Nat → Bool) : sendingOf m ≠ .closer := by
  unfold sendingOf; split <;> simp

theorem sendingOf_sends {m : Nat → Bool} {i : Nat} (hi : i < maxSleepers) (hm : m i = true) :
    (sendingOf m).sends i := by
  unfold sendingOf
  split
  · rename_i h; rw [lowest_none h hi] at hm; cases hm
  · exact hm

/-- The token goes out. `g` still sends what else `t` was to send. -/
theorem Duties.sendToken (h : Duties sh w closed pub γ) {g : Nap} {i : Nat}
    (hsl : g.sleep = (γ t).sleep) (hd : (γ t).duty ≠ .looking ∧ (γ t).duty ≠ .closer ∧
      (γ t).duty ≠ .closerWon)
    (hg' : g.duty ≠ .closer)
    (hg : ∀ j c u, (γ u).sleep = .up j c → (γ t).duty.sends j → j = i ∨ g.duty.sends j) :
    Duties sh { w with tokens := upd w.tokens i true } closed pub (upd γ t g) := by
  obtain ⟨γ', hγ', e1, e2, e3⟩ := upd_spec γ t g
  rw [hγ']
  refine ⟨by have := h.begun; grind, ?_, ?_, ?_⟩
  · have := h.sent; simp only [upd_apply]; grind
  · have := h.woken; grind [upd_apply, Carried, Carries, Sleep.announced]
  · have := h.shut; grind [upd_apply, Sleep.announced]

/-- Nobody waits, so there is nothing to pass on. -/
theorem Duties.giveUp (h : Duties sh w closed pub γ) {g : Nap} (hsl : g.sleep = (γ t).sleep)
    (hd : (γ t).duty = .looking) (hg : g.duty = .none) (hno : ∀ u i c, (γ u).sleep = .up i c → sh = false ∧ w.asleep i = false) :
    Duties sh w closed pub (upd γ t g) := by
  obtain ⟨γ', hγ', e1, e2, e3⟩ := upd_spec γ t g
  rw [hγ']
  refine ⟨by have := h.begun; grind, ?_, ?_, ?_⟩
  · have := h.sent; grind [Duty.sends]
  · grind
  · have := h.shut; grind [upd_apply, Sleep.announced]

theorem Duties.sharedSend (h : Duties true w closed pub γ) {g : Nap} (hsl : g.sleep = (γ t).sleep)
    (hd : (γ t).duty = .looking) (hg : g.duty = .none) :
    Duties true { w with token := true } closed pub (upd γ t g) := by
  obtain ⟨γ', hγ', e1, e2, e3⟩ := upd_spec γ t g
  rw [hγ']
  refine ⟨by have := h.begun; grind, by simp, fun _ _ _ _ _ _ _ _ => .inr ⟨rfl, rfl⟩, ?_⟩
  have := h.shut; grind [upd_apply, Sleep.announced]

/-- The shared token is taken by a sleeper that leaves. -/
theorem Duties.takeToken (h : Duties true w closed pub γ) {g : Nap}
    (hd : g.duty = (γ t).duty) (hg : ∃ i, g.sleep = .leaving i) :
    Duties true { w with token := false } closed pub (upd γ t g) := by
  obtain ⟨γ', hγ', e1, e2, e3⟩ := upd_spec γ t g
  rw [hγ']
  refine ⟨by have := h.begun; grind, by simp, fun _ _ _ _ _ _ _ _ => .inl ⟨t, ?_⟩, ?_⟩
  · exact .inr (.inl (by rw [e1]; exact hg))
  · have := h.shut; grind [upd_apply, Sleep.announced]

/-! ## The close -/

theorem Duties.setClosed (h : Duties sh w closed pub γ) {g : Nap} (hsl : g.sleep = (γ t).sleep)
    (hd : (γ t).duty = .none) (hg : g.duty = .closer) (hcl : w.closing = true → closed = true) :
    Duties sh w true pub (upd γ t g) := by
  obtain ⟨γ', hγ', e1, e2, e3⟩ := upd_spec γ t g
  rw [hγ']
  refine ⟨by have := h.begun; grind, ?_, by simp, ?_⟩
  · have := h.sent; grind [Duty.sends]
  · have := h.shut; grind [upd_apply, Sleep.announced]

theorem Duties.closing (h : Duties sh w closed pub γ) {g : Nap} (hsl : g.sleep = (γ t).sleep)
    (hd : (γ t).duty = .closer) (hcl : closed = true)
    (hg : g.duty = if w.closing then .none else .closerWon) :
    Duties sh { w with closing := true } closed pub (upd γ t g) := by
  obtain ⟨γ', hγ', e1, e2, e3⟩ := upd_spec γ t g
  rw [hγ']
  refine ⟨by have := h.begun; grind, ?_, by simp [hcl], ?_⟩
  · have := h.sent; grind [Duty.sends]
  · have := h.shut; grind [upd_apply, Sleep.announced]

/-- The winner clears every bit, and owes their sleepers a token. -/
theorem Duties.swap (h : Duties false w closed pub γ) {g : Nap} (hsl : g.sleep = (γ t).sleep)
    (hd : (γ t).duty = .closerWon) (hg : g.duty = sendingOf w.asleep)
    (hlt : ∀ u i c, (γ u).sleep = .up i c → i < maxSleepers) :
    Duties false { w with asleep := fun _ => false } closed pub (upd γ t g) := by
  obtain ⟨γ', hγ', e1, e2, e3⟩ := upd_spec γ t g
  rw [hγ']
  refine ⟨by have := h.begun; grind [sendingOf], ?_, ?_, ?_⟩
  · have := h.sent
    have := fun i => sendingOf_sends (m := w.asleep) (i := i)
    grind [Duty.sends]
  · simp
  · simp

theorem Duties.closeChan (h : Duties true w closed pub γ) {g : Nap} (hsl : g.sleep = (γ t).sleep)
    (hd : (γ t).duty = .closerWon) (hg : g.duty = .none) :
    Duties true { w with closed := true } closed pub (upd γ t g) := by
  obtain ⟨γ', hγ', e1, e2, e3⟩ := upd_spec γ t g
  rw [hγ']
  refine ⟨by have := h.begun; grind, by simp, ?_, by simp⟩
  have := h.woken; grind [upd_apply, Carried, Carries, Sleep.announced]

/-! ## The invariant -/

omit [DecidableEq Tid] in
/-- The head moves on and nothing becomes published at it. -/
theorem WaitInv.frame (h : WaitInv sh w stats closed head pub γ) {head' : Nat} {pub' : Prop}
    (hh : head ≤ head') (hp : pub' → pub) : WaitInv sh w stats closed head' pub' γ :=
  { h with
    seen := fun t => Nat.le_trans (h.seen t) hh
    duties := ⟨h.duties.begun, h.duties.sent, fun hc hp' => h.duties.woken hc (hp hp'), h.duties.shut⟩ }

/-- One goroutine's step. -/
theorem WaitInv.move (h : WaitInv sh w stats closed head pub γ) {g : Nap} {w' : Waiter}
    {closed' : Bool} {pub' : Prop} (hs : g.seen ≤ head) (hslot : g.slot = (γ t).slot)
    (hcl : w'.closing = true → closed' = true) (hseats : Seats sh w' (upd γ t g))
    (hd : Duties sh w' closed' pub' (upd γ t g)) :
    WaitInv sh w' stats closed' head pub' (upd γ t g) := by
  refine ⟨fun u => ?_, fun u i => ?_, hcl, hseats, hd⟩
  · simp only [upd_apply]; split
    · exact hs
    · exact h.seen u
  · have : (upd γ t g u).slot = (γ u).slot := congrFun (upd_comp Nap.slot γ t g hslot) u
    rw [this]
    exact h.stats u i

/-- Only the role changes. -/
theorem WaitInv.turn (h : WaitInv sh w stats closed head pub γ) {g : Nap} {pub' : Prop}
    (hs : g.seen ≤ head) (hslot : g.slot = (γ t).slot)
    (ha : g.sleep.announced = (γ t).sleep.announced) (hi : ∀ i, g.sleep ≠ .indexed i)
    (hd : Duties sh w closed pub' (upd γ t g)) :
    WaitInv sh w stats closed head pub' (upd γ t g) :=
  h.move hs hslot h.closing (h.seats.keep ha hi hslot rfl (fun _ h => h) rfl) hd

/-- `t` sees the head. -/
theorem WaitInv.see (h : WaitInv sh w stats closed head pub γ) {n : Nat} (hn : n ≤ head) :
    WaitInv sh w stats closed head pub
      (upd γ t ⟨(γ t).sleep, (γ t).duty, n, (γ t).slot⟩) :=
  h.move hn rfl h.closing (h.seats.see rfl rfl) <| h.duties.keep rfl (fun _ _ c h => ⟨c, h⟩)
    (fun _ c h hc => .inl ⟨c, h, hc⟩) .inl fun _ h => .inl h

/-- `t` gets an index, here (`x`) or on the other waiter. -/
theorem WaitInv.bind (h : WaitInv sh w stats closed head pub γ) {x : Option Nat} {y : OpStats}
    (hsl : (γ t).sleep = .out ∨ ∃ i, (γ t).sleep = .indexed i) (hd : (γ t).duty = .none)
    (hx : ∀ i, x = some i → (γ t).sleep = .indexed i ∧ i < maxSleepers)
    (hst : ∀ i, x = some i ↔ y = ⟨some .notEmpty, i⟩) :
    WaitInv sh w (upd stats t y) closed head pub (upd γ t ⟨.out, .none, (γ t).seen, x⟩) := by
  have hnone : (γ t).sleep.announced = none := by rcases hsl with h | ⟨i, h⟩ <;> rw [h] <;> rfl
  have hc : ¬ Carries sh w (γ t) := by
    rcases hsl with h | ⟨i, h⟩ <;> simp [Carries, h, hd]
  refine ⟨fun u => ?_, fun u i => ?_, h.closing, h.seats.bind hnone hx,
    h.duties.keep hd.symm (by simp) (by simp) (fun h => absurd h hc) (by simp)⟩
  · have := h.seen u
    simp only [upd_apply]; split
    · rename_i he; subst he; exact this
    · exact this
  · have := h.stats u i
    simp only [upd_apply]; split
    · exact hst i
    · exact this

omit [DecidableEq Tid] in
/-- The channel of an index that was just bound is new. -/
theorem WaitInv.untoken (h : WaitInv sh w stats closed head pub γ) {i : Nat}
    (hs : (γ t).slot = some i) (hsl : (γ t).sleep = .out) :
    WaitInv sh { w with tokens := upd w.tokens i false } stats closed head pub γ := by
  refine ⟨h.seen, h.stats, h.closing, ?_, h.duties.untoken ?_⟩
  · obtain ⟨h1, h2, h3, h4, h5, h6, h7⟩ := h.seats
    exact ⟨h1, h2, h3, h4, h5, h6, h7⟩
  · intro hsh u c hu
    have h1 := h.seats.slot hsh u i (by rw [hu]; rfl)
    rw [h.seats.inj u t i h1 hs, hsl] at hu
    cases hu

omit [DecidableEq Tid] in
/-- An announced sleeper is alone on its index. -/
theorem WaitInv.alone (h : WaitInv false w stats closed head pub γ) {i : Nat}
    (ht : (γ t).slot = some i) (u : Tid) (hu : u ≠ t) : (γ u).sleep.announced ≠ some i :=
  fun he => hu (h.seats.inj u t i (h.seats.slot rfl u i he) ht)

end
end Katas.Turnstile.Go
