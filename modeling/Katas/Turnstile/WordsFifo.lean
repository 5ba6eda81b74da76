import Katas.Turnstile.Cpp.QueueSafety
import Katas.Turnstile.Cpp.ShardedSafety
import Katas.Turnstile.Go.RingSafety
import Katas.Turnstile.Words

/-!
# The ring on its words is a queue

`Holds` relates the words to the reference queue by positions: an entry's
sequence word is one past its position modulo 2^63, a free slot's is the
position it is free for. A call that the words can tell apart (`Clear`)
returns what the queue returns and keeps the relation.

At position 2^63 - 1 they can not: one past it is the dead bit. The entry there
is never found, and a full ring that has passed it looks like a stale read.

The concurrent queues stay below it for as long as their tail does, and there
the words are the pairs those are modelled with.
-/
namespace Katas.Turnstile.Words
open Katas.Conc Katas.SeqRing

/-! ## What the words have to tell -/

section
variable {V : Type}

/-- The words of a full ring tell that it is full. -/
def FullClear (n : Nat) (q : Fifo V) : Prop :=
  q.entries.length = n → q.first + n < 2 ^ 63 ∨ q.first + 1 = 2 ^ 63

/-- The words of the entries a pop reaches tell that they are published. -/
def PopClear (first : Nat) : List (Option V) → Prop
  | [] => True
  | none :: es => first + 1 < 2 ^ 63 ∧ PopClear (first + 1) es
  | some _ :: _ => first + 1 < 2 ^ 63

/-- The words tell what the call has to know. -/
def CallClear (n : Nat) (q : Fifo V) : Call V → Prop
  | .tryPush _ | .tryPushFunc _ => q.closed = false → FullClear n q
  | .tryPop => PopClear q.first q.entries
  | .close => True

/-- The words tell what each call has to know. -/
def Clear (n : Nat) (q : Fifo V) : List (Call V) → Prop
  | [] => True
  | c :: cs => CallClear n q c ∧ Clear n (q.call n c).2 cs

/-- How often a pop goes round before its last round. -/
def tombstones (es : List (Option V)) : Nat := (es.takeWhile Option.isNone).length

theorem popOf_next (first : Nat) (closed : Bool) (es : List (Option V)) :
    (Fifo.popOf first closed es).2.next = first + es.length := by
  induction es generalizing first with
  | nil => rfl
  | cons e es ih =>
    cases e with
    | none =>
      show (Fifo.popOf (first + 1) closed es).2.next = _
      rw [ih, List.length_cons]
      omega
    | some v =>
      show first + 1 + es.length = _
      rw [List.length_cons]
      omega

theorem push_next (n : Nat) (q : Fifo V) (e : Option V) (done : Result V) :
    q.next ≤ (q.push n e done).2.next := by
  unfold Fifo.push Fifo.next
  split
  · exact Nat.le_refl _
  · split
    · exact Nat.le_refl _
    · simp

theorem call_next (n : Nat) (q : Fifo V) (c : Call V) : q.next ≤ (q.call n c).2.next := by
  cases c with
  | tryPush v => exact push_next n q _ _
  | tryPushFunc fill => cases fill <;> exact push_next n q _ _
  | tryPop => exact (popOf_next q.first q.closed q.entries).ge
  | close => exact Nat.le_refl _

theorem next_le_after (n : Nat) (q : Fifo V) (calls : List (Call V)) :
    q.next ≤ (q.after n calls).next := by
  induction calls generalizing q with
  | nil => exact Nat.le_refl _
  | cons c cs ih => exact (call_next n q c).trans (ih _)

theorem popClear_of_lt {first : Nat} {es : List (Option V)} (h : first + es.length < 2 ^ 63) :
    PopClear first es := by
  induction es generalizing first with
  | nil => trivial
  | cons e es ih =>
    rw [List.length_cons] at h
    cases e with
    | none => exact ⟨by omega, ih (by omega)⟩
    | some v => exact show first + 1 < 2 ^ 63 by omega

/-- While no position reaches the dead bit, the words tell everything. -/
theorem clear_of_after {n : Nat} {q : Fifo V} {calls : List (Call V)}
    (h : (q.after n calls).next < 2 ^ 63) : Clear n q calls := by
  induction calls generalizing q with
  | nil => trivial
  | cons c cs ih =>
    have hq : q.next < 2 ^ 63 := lt_of_le_of_lt (next_le_after n q (c :: cs)) h
    have hfull : FullClear n q := fun hn => .inl (by rw [← hn]; exact hq)
    refine ⟨?_, ih h⟩
    cases c with
    | tryPush v => exact fun _ => hfull
    | tryPushFunc fill => exact fun _ => hfull
    | tryPop => exact popClear_of_lt hq
    | close => trivial

/-- Open, and without a tombstone. -/
def Live (q : Fifo V) : Prop := q.closed = false ∧ ∀ e ∈ q.entries, e ≠ none

theorem Live.push {n : Nat} {q : Fifo V} (h : Live q) (v : V) (done : Result V) :
    Live (q.push n (some v) done).2 := by
  unfold Fifo.push
  split
  · exact h
  · split
    · exact h
    · refine ⟨h.1, fun e he => ?_⟩
      rcases List.mem_append.mp he with he | he
      · exact h.2 e he
      · rw [List.mem_singleton.mp he]
        exact Option.some_ne_none v

theorem Live.call {n : Nat} {q : Fifo V} (h : Live q) {c : Call V} (hc : c.plain = true) :
    Live (q.call n c).2 := by
  cases c with
  | tryPush v => exact h.push v (.push .ok)
  | tryPop =>
    obtain ⟨first, es, closed⟩ := q
    cases es with
    | nil => exact h
    | cons e es =>
      cases e with
      | none => exact absurd rfl (h.2 none (List.mem_cons_self ..))
      | some v => exact ⟨h.1, fun e he => h.2 e (List.mem_cons_of_mem _ he)⟩
  | tryPushFunc fill => cases hc
  | close => cases hc

theorem Live.tombstones {q : Fifo V} (h : Live q) : tombstones q.entries = 0 := by
  unfold Words.tombstones
  cases hq : q.entries with
  | nil => rfl
  | cons e es =>
    have he := h.2 e (by rw [hq]; exact List.mem_cons_self ..)
    cases e with
    | none => exact absurd rfl he
    | some v => rfl

end

/-! ## The relation -/

section
variable {V : Type} (cap : Capacity)

/-- What the words of an entry at `x` are. -/
def Entry (r : Ring V) (x : Nat) (e : Option V) : Prop :=
  r.seq (x % cap.n) = seqOf ⟨x % 2 ^ 63 + 1, e.isNone⟩ ∧ ∀ v, e = some v → r.val (x % cap.n) = v

/-- The ring holds the entries of the queue. -/
structure Holds (r : Ring V) (q : Fifo V) : Prop where
  first_lt : q.first < 2 ^ 63
  room : q.entries.length ≤ cap.n
  head : r.head.toNat = q.first
  tail : r.tail = tailOf ⟨q.next % 2 ^ 63, q.closed⟩
  entry : ∀ i e, q.entries[i]? = some e → Entry cap r (q.first + i) e
  free : ∀ x, q.next ≤ x → x < q.first + cap.n → (r.seq (x % cap.n)).toNat = x

variable {cap}

/-! ## Slots -/

theorem two_pow (hcap : cap.n < 2 ^ 63) : ∃ k, k ≤ 62 ∧ cap.n = 2 ^ k := by
  have h2 := cap.two_le
  obtain ⟨k, hk⟩ := (Nat.and_sub_one_eq_zero_iff_isPowerOfTwo (by omega)).mp cap.pow
  refine ⟨k, ?_, hk⟩
  rw [hk] at hcap
  have := (Nat.pow_lt_pow_iff_right (by decide)).mp hcap
  omega

theorem slot_eq (hcap : cap.n < 2 ^ 63) (pos : UInt64) : slot cap pos = pos.toNat % cap.n := by
  obtain ⟨k, hk, hn⟩ := two_pow hcap
  unfold slot
  rw [UInt64.toNat_and, toNat_ofNat (by omega), hn]
  exact Nat.and_two_pow_sub_one_eq_mod _ _

/-- The slot of a wrapped position. -/
theorem mod_slot (hcap : cap.n < 2 ^ 63) (x : Nat) : x % 2 ^ 63 % cap.n = x % cap.n := by
  obtain ⟨k, hk, hn⟩ := two_pow hcap
  rw [hn]
  exact Nat.mod_mod_of_dvd _ (Nat.pow_dvd_pow 2 (by omega))

/-- Positions of one lap have slots of their own. -/
theorem slot_ne {a x y : Nat} (hx : a ≤ x) (hx' : x < a + cap.n) (hy : a ≤ y)
    (hy' : y < a + cap.n) (hne : x ≠ y) : x % cap.n ≠ y % cap.n := by
  intro h
  rcases Nat.lt_or_gt_of_ne hne with hlt | hlt
  · have := Lanes.lane_gap h hlt
    omega
  · have := Lanes.lane_gap h.symm hlt
    omega

theorem capacity_le (hcap : cap.n < 2 ^ 63) : cap.n ≤ 2 ^ 62 := by
  obtain ⟨k, hk, hn⟩ := two_pow hcap
  rw [hn]
  exact Nat.pow_le_pow_right (by decide) hk

/-! ## Pushes -/

variable {r : Ring V} {q : Fifo V}

theorem next_mod_lt (q : Fifo V) : q.next % 2 ^ 63 < 2 ^ 63 := Nat.mod_lt _ (by decide)

/-- The position a push works at. -/
theorem Holds.pos (h : Holds cap r q) : (r.tail >>> 1).toNat = q.next % 2 ^ 63 := by
  rw [h.tail]
  exact tailOf_pos (next_mod_lt q)

theorem Holds.slot_pos (hcap : cap.n < 2 ^ 63) (h : Holds cap r q) :
    slot cap (r.tail >>> 1) = q.next % cap.n := by
  rw [slot_eq hcap, h.pos, mod_slot hcap]

theorem Holds.closed (h : Holds cap r q) : r.tail &&& closedBit = 0 ↔ q.closed = false := by
  rw [h.tail]
  exact tailOf_closed (next_mod_lt q)

theorem claim_closed (h : Holds cap r q) (hq : q.closed = true) (fuel : Nat) :
    claim cap r (fuel + 1) = some (.error .closed, r) := by
  have hne : r.tail &&& closedBit ≠ 0 := by
    rw [ne_eq, h.closed, hq]
    decide
  unfold claim
  exact if_pos hne

theorem claim_ok (hcap : cap.n < 2 ^ 63) (h : Holds cap r q) (hq : q.closed = false)
    (hroom : q.entries.length ≠ cap.n) (fuel : Nat) :
    claim cap r (fuel + 1) = some (.ok (r.tail >>> 1), { r with tail := r.tail + 2 }) := by
  have hlt := next_mod_lt q
  have hr := h.room
  have hfree := h.free q.next (Nat.le_refl _) (by unfold Fifo.next; omega)
  have hdif : dif (r.seq (slot cap (r.tail >>> 1))) (r.tail >>> 1) = 0 := by
    rw [dif_eq_zero (by rw [h.pos]; omega), h.slot_pos hcap, hfree, h.pos]
  unfold claim
  simp only [h.closed.mpr hq, hdif, ne_eq, not_true_eq_false, if_false, if_true]

/-- The words of the oldest entry. -/
theorem Holds.oldest (h : Holds cap r q) {e : Option V} (he : q.entries[0]? = some e) :
    r.seq (q.first % cap.n) = seqOf ⟨q.first + 1, e.isNone⟩ ∧
    ∀ v, e = some v → r.val (q.first % cap.n) = v := by
  obtain ⟨h1, h2⟩ := h.entry 0 e he
  rw [Nat.add_zero q.first] at h1 h2
  rw [Nat.mod_eq_of_lt h.first_lt] at h1
  exact ⟨h1, h2⟩

/-- What a push to a full ring loads: the word of the oldest entry. -/
theorem Holds.full_dif (hcap : cap.n < 2 ^ 63) (h : Holds cap r q)
    (hfull : q.entries.length = cap.n) :
    (r.seq (slot cap (r.tail >>> 1))).toNat % 2 ^ 63 = (q.first + 1) % 2 ^ 63 := by
  have h2 := cap.two_le
  obtain ⟨e, he⟩ : ∃ e, q.entries[0]? = some e := ⟨_, List.getElem?_eq_getElem (by omega)⟩
  have hslot : q.next % cap.n = q.first % cap.n := by
    unfold Fifo.next
    rw [hfull, Nat.add_mod_right]
  rw [h.slot_pos hcap, hslot, (h.oldest he).1]
  exact seqOf_first h.first_lt _

theorem claim_full (hcap : cap.n < 2 ^ 63) (h : Holds cap r q) (hq : q.closed = false)
    (hfull : q.entries.length = cap.n) (hclear : FullClear cap.n q) (fuel : Nat) :
    claim cap r (fuel + 1) = some (.error .full, r) := by
  have h2 := cap.two_le
  have hle := capacity_le hcap
  have hword := h.full_dif hcap hfull
  have hpos := h.pos
  have hclear := hclear hfull
  unfold Fifo.next at hpos
  rw [hfull] at hpos
  have hdif : dif (r.seq (slot cap (r.tail >>> 1))) (r.tail >>> 1) < 0 := by
    rw [dif_neg (by omega), hword, hpos]
    omega
  have hne : dif (r.seq (slot cap (r.tail >>> 1))) (r.tail >>> 1) ≠ 0 := by
    rw [ne_eq, dif_eq_zero (by omega), hword, hpos]
    omega
  unfold claim
  simp only [h.closed.mpr hq, hdif, hne, ne_eq, not_true_eq_false, if_false, if_true]

/-- A full ring whose words do not: the push goes round forever. -/
theorem claim_stuck (hcap : cap.n < 2 ^ 63) (h : Holds cap r q) (hq : q.closed = false)
    (hfull : q.entries.length = cap.n) (hclear : ¬ FullClear cap.n q) (fuel : Nat) :
    claim cap r fuel = none := by
  have h2 := cap.two_le
  have hle := capacity_le hcap
  have hword := h.full_dif hcap hfull
  have hpos := h.pos
  have hfirst := h.first_lt
  have hclear : ¬ (q.first + cap.n < 2 ^ 63 ∨ q.first + 1 = 2 ^ 63) := fun hc => hclear fun _ => hc
  unfold Fifo.next at hpos
  rw [hfull] at hpos
  have hge : ¬ dif (r.seq (slot cap (r.tail >>> 1))) (r.tail >>> 1) < 0 := by
    rw [dif_neg (by omega), hword, hpos]
    omega
  have hne : dif (r.seq (slot cap (r.tail >>> 1))) (r.tail >>> 1) ≠ 0 := by
    rw [ne_eq, dif_eq_zero (by omega), hword, hpos]
    omega
  induction fuel with
  | zero => rfl
  | succ fuel ih =>
    unfold claim
    simp only [h.closed.mpr hq, hge, hne, ne_eq, not_true_eq_false, if_false]
    exact ih

theorem pos_succ (h : Holds cap r q) :
    r.tail >>> 1 + 1 = .ofNat (q.next % 2 ^ 63 + 1) := by
  have hlt := next_mod_lt q
  rw [← UInt64.toNat_inj, UInt64.toNat_add, h.pos, toNat_ofNat (by omega), UInt64.toNat_one]
  omega

/-- The entry is appended, whatever else its slot is given. -/
theorem Holds.append (hcap : cap.n < 2 ^ 63) (h : Holds cap r q) (hq : q.closed = false)
    (hroom : q.entries.length ≠ cap.n) (e : Option V) {r' : Ring V} {w : V}
    (hhead : r'.head = r.head) (htail : r'.tail = r.tail + 2)
    (hseq : r'.seq = upd r.seq (q.next % cap.n) (seqOf ⟨q.next % 2 ^ 63 + 1, e.isNone⟩))
    (hval : r'.val = upd r.val (q.next % cap.n) w) (hw : ∀ v, e = some v → w = v) :
    Holds cap r' { q with entries := q.entries ++ [e] } := by
  have hr := h.room
  have hnext : ({ q with entries := q.entries ++ [e] } : Fifo V).next = q.next + 1 := by
    unfold Fifo.next
    simp only [List.length_append, List.length_singleton]
    omega
  refine ⟨h.first_lt, ?_, by rw [hhead]; exact h.head, ?_, fun i e' he' => ?_, fun x h1 h2 => ?_⟩
  · simp only [List.length_append, List.length_singleton]
    omega
  · rw [htail, hnext, h.tail, hq]
    exact tailOf_next q.next
  · by_cases hi : i = q.entries.length
    · subst hi
      obtain rfl : e = e' := by simpa using he'
      unfold Entry
      dsimp only
      rw [hseq, hval, show q.first + q.entries.length = q.next from rfl, upd_self, upd_self]
      exact ⟨rfl, hw⟩
    · have hlt : i < q.entries.length := by
        have := (List.getElem?_eq_some_iff.mp he').1
        simp only [List.length_append, List.length_singleton] at this
        omega
      have hne : (q.first + i) % cap.n ≠ q.next % cap.n := by
        unfold Fifo.next
        exact slot_ne (Nat.le_add_right _ _) (by omega) (Nat.le_add_right _ _) (by omega) (by omega)
      rw [List.getElem?_append_left hlt] at he'
      unfold Entry
      dsimp only
      rw [hseq, hval, upd_ne _ _ hne, upd_ne _ _ hne]
      exact h.entry i e' he'
  · rw [hnext] at h1
    have hne : x % cap.n ≠ q.next % cap.n := by
      unfold Fifo.next at h1 ⊢
      dsimp only at h2
      exact slot_ne (a := q.first) (by omega) (by omega) (by omega) (by omega) (by omega)
    rw [hseq, upd_ne _ _ hne]
    exact h.free x (by omega) h2

theorem publish_holds (hcap : cap.n < 2 ^ 63) (h : Holds cap r q) (hq : q.closed = false)
    (hroom : q.entries.length ≠ cap.n) (v : V) :
    Holds cap (publish cap { r with tail := r.tail + 2 } (r.tail >>> 1) v)
      { q with entries := q.entries ++ [some v] } := by
  refine h.append hcap hq hroom (some v) (w := v) rfl rfl ?_ ?_ fun v' hv => Option.some.inj hv
  · unfold publish
    dsimp only
    rw [h.slot_pos hcap, pos_succ h]
    rfl
  · unfold publish
    dsimp only
    rw [h.slot_pos hcap]

theorem tryPush_spec (hcap : cap.n < 2 ^ 63) (h : Holds cap r q)
    (hclear : q.closed = false → FullClear cap.n q) (fuel : Nat) (v : V) :
    ∃ r', TryPush cap (fuel + 1) r v = some ((q.push cap.n (some v) (.push .ok)).1, r') ∧
      Holds cap r' (q.push cap.n (some v) (.push .ok)).2 := by
  unfold TryPush Fifo.push
  cases hq : q.closed with
  | true => exact ⟨r, by rw [claim_closed h hq]; rfl, h⟩
  | false =>
    by_cases hfull : q.entries.length = cap.n
    · simp only [Bool.false_eq_true, if_false, if_pos hfull]
      exact ⟨r, by rw [claim_full hcap h hq hfull (hclear hq)], h⟩
    · simp only [Bool.false_eq_true, if_false, if_neg hfull]
      refine ⟨_, by rw [claim_ok hcap h hq hfull], ?_⟩
      rw [← hq]
      exact publish_holds hcap h hq hfull v

theorem close_holds (h : Holds cap r q) : Holds cap (Close r) { q with closed := true } where
  first_lt := h.first_lt
  room := h.room
  head := h.head
  tail := by
    show r.tail ||| closedBit = _
    rw [h.tail]
    exact tailOf_close (next_mod_lt q) q.closed
  entry := h.entry
  free := h.free

theorem tombstones_lt (h : Holds cap r q) {fuel : Nat} (hfuel : cap.n < fuel) :
    tombstones q.entries < fuel := by
  have h1 : tombstones q.entries ≤ q.entries.length := (List.takeWhile_sublist _).length_le
  have h2 := h.room
  omega

/-! ## Pops -/

/-- The oldest entry is gone and its slot is free one lap on. -/
theorem Holds.drop {first : Nat} {e : Option V} {es : List (Option V)} {closed : Bool}
    (h : Holds cap r ⟨first, e :: es, closed⟩) (hlast : first + 1 < 2 ^ 63)
    {r' : Ring V} {w : UInt64} (hhead : r'.head = r.head + 1) (htail : r'.tail = r.tail)
    (hseq : r'.seq = upd r.seq (first % cap.n) w) (hw : w.toNat = first + cap.n)
    (hval : ∀ i, i ≠ first % cap.n → r'.val i = r.val i) :
    Holds cap r' ⟨first + 1, es, closed⟩ := by
  have h2 := cap.two_le
  have hroom := h.room
  have hnext : (⟨first + 1, es, closed⟩ : Fifo V).next =
      (⟨first, e :: es, closed⟩ : Fifo V).next := by
    unfold Fifo.next
    simp only [List.length_cons]
    omega
  have hhead0 : r.head.toNat = first := h.head
  simp only [List.length_cons] at hroom
  refine ⟨hlast, by dsimp only; omega, ?_, ?_, fun i e' he' => ?_, fun x h1 h3 => ?_⟩
  · rw [hhead, UInt64.toNat_add, hhead0, UInt64.toNat_one]
    dsimp only
    omega
  · rw [htail, hnext]
    exact h.tail
  · have hi : i < es.length := (List.getElem?_eq_some_iff.mp he').1
    have hentry := h.entry (i + 1) e' he'
    have hne : (first + 1 + i) % cap.n ≠ first % cap.n :=
      slot_ne (a := first) (by omega) (by omega) (by omega) (by omega) (by omega)
    dsimp only at hentry ⊢
    rw [show first + (i + 1) = first + 1 + i by omega] at hentry
    unfold Entry at hentry ⊢
    rw [hseq, upd_ne _ _ hne, hval _ hne]
    exact hentry
  · rw [hnext] at h1
    dsimp only at h3
    by_cases hx : x = first + cap.n
    · subst hx
      rw [hseq, Nat.add_mod_right, upd_self, hw]
    · have hne : x % cap.n ≠ first % cap.n := by
        unfold Fifo.next at h1
        simp only [List.length_cons] at h1
        exact slot_ne (a := first) (by omega) (by omega) (by omega) (by omega) (by omega)
      rw [hseq, upd_ne _ _ hne]
      exact h.free x h1 (by dsimp only; omega)

theorem head_succ (h : Holds cap r q) : (r.head + 1).toNat = q.first + 1 := by
  have hlt := h.first_lt
  rw [UInt64.toNat_add, h.head, UInt64.toNat_one]
  omega

theorem Holds.slot_head (hcap : cap.n < 2 ^ 63) (h : Holds cap r q) :
    slot cap r.head = q.first % cap.n := by
  rw [slot_eq hcap, h.head]

theorem toNat_lap (hcap : cap.n < 2 ^ 63) (h : Holds cap r q) :
    (r.head + .ofNat cap.n).toNat = q.first + cap.n := by
  have hlt := h.first_lt
  rw [UInt64.toNat_add, h.head, toNat_ofNat (by omega)]
  omega

variable [Inhabited V] (retain : Bool)

theorem popFrom_empty (hcap : cap.n < 2 ^ 63) (h : Holds cap r q) (he : q.entries = [])
    (fuel : Nat) : popFrom cap retain r r.head (fuel + 1) = some (.empty, r) := by
  have h2 := cap.two_le
  have hlt := h.first_lt
  have hnext : q.next = q.first := by
    unfold Fifo.next
    rw [he]
    rfl
  have hfree := h.free q.first (by omega) (by omega)
  have hsucc := head_succ h
  have hdif : dif (r.seq (slot cap r.head)) (r.head + 1) < 0 := by
    rw [dif_neg (by omega), h.slot_head hcap, hfree, hsucc]
    omega
  have hne : dif (r.seq (slot cap r.head)) (r.head + 1) ≠ 0 := by
    rw [ne_eq, dif_eq_zero (by omega), h.slot_head hcap, hfree, hsucc]
    omega
  unfold popFrom
  simp only [hdif, hne, if_false, if_true]

/-- The oldest entry at the position before the dead bit is not found. -/
theorem popFrom_lost (hcap : cap.n < 2 ^ 63) (h : Holds cap r q) {e : Option V}
    (he : q.entries[0]? = some e) (hlast : q.first + 1 = 2 ^ 63) (fuel : Nat) :
    popFrom cap retain r r.head (fuel + 1) = some (.empty, r) := by
  have hsucc := head_succ h
  have hword : (r.seq (slot cap r.head)).toNat % 2 ^ 63 = 0 := by
    rw [h.slot_head hcap, (h.oldest he).1, hlast, seqOf_wrapped]
  have hdif : dif (r.seq (slot cap r.head)) (r.head + 1) < 0 := by
    rw [dif_neg (by omega), hword, hsucc]
    omega
  have hne : dif (r.seq (slot cap r.head)) (r.head + 1) ≠ 0 := by
    rw [ne_eq, dif_eq_zero (by omega), hword, hsucc]
    omega
  unfold popFrom
  simp only [hdif, hne, if_false, if_true]

theorem popFrom_spec (hcap : cap.n < 2 ^ 63) {first : Nat} {es : List (Option V)} {closed : Bool}
    (h : Holds cap r ⟨first, es, closed⟩) (hclear : PopClear first es) {fuel : Nat}
    (hfuel : tombstones es < fuel) :
    ∃ r', popFrom cap retain r r.head fuel = some ((Fifo.popOf first closed es).1, r') ∧
      Holds cap r' (Fifo.popOf first closed es).2 := by
  -- one round for each tombstone, and one more
  induction es generalizing first r fuel with
  | nil =>
    obtain ⟨fuel, rfl⟩ : ∃ n, fuel = n + 1 := ⟨fuel - 1, by omega⟩
    exact ⟨r, popFrom_empty retain hcap h rfl fuel, h⟩
  | cons e es ih =>
    obtain ⟨fuel, rfl⟩ : ∃ n, fuel = n + 1 := ⟨fuel - 1, by omega⟩
    have hlast : first + 1 < 2 ^ 63 := by
      cases e with
      | none => exact hclear.1
      | some v => exact hclear
    obtain ⟨hword, hval⟩ := h.oldest (e := e) rfl
    have hsucc : (r.head + 1).toNat = first + 1 := head_succ h
    have hslot : slot cap r.head = first % cap.n := h.slot_head hcap
    have hlap : (r.head + .ofNat cap.n).toNat = first + cap.n := toNat_lap hcap h
    have hdif : dif (r.seq (slot cap r.head)) (r.head + 1) = 0 := by
      rw [dif_eq_zero (by omega), hslot, hword, seqOf_live hlast, hsucc]
    have hdead := seqOf_dead (s := ⟨first + 1, e.isNone⟩) hlast
    unfold popFrom
    cases e with
    | none =>
      have hd : ¬ r.seq (slot cap r.head) &&& dead = 0 := by
        rw [hslot, hword, hdead]
        exact Bool.noConfusion
      simp only [hdif, hd, if_true, if_false]
      have hdrop : Holds cap (release cap { r with head := r.head + 1 } r.head)
          ⟨first + 1, es, closed⟩ :=
        h.drop hlast rfl rfl (by rw [← hslot]; rfl) hlap fun _ _ => rfl
      refine ih hdrop hclear.2 ?_
      unfold tombstones at hfuel ⊢
      simp only [Option.isNone_none, List.takeWhile_cons_of_pos, List.length_cons] at hfuel
      omega
    | some v =>
      have hd : r.seq (slot cap r.head) &&& dead = 0 := by
        rw [hslot, hword, hdead]
        rfl
      simp only [hdif, hd, if_true]
      refine ⟨(consume cap retain { r with head := r.head + 1 } r.head).2, ?_, ?_⟩
      · rw [show (consume cap retain { r with head := r.head + 1 } r.head).1 = v by
          rw [← hval v rfl, ← hslot]
          rfl]
        rfl
      · refine h.drop hlast rfl rfl (by rw [← hslot]; rfl) hlap fun i hi => ?_
        unfold consume release
        dsimp only
        split
        · rfl
        · rw [hslot, upd_ne _ _ hi]

/-! ## Calls -/

theorem tombstone_holds (hcap : cap.n < 2 ^ 63) (h : Holds cap r q) (hq : q.closed = false)
    (hroom : q.entries.length ≠ cap.n) :
    Holds cap (tombstone cap { r with tail := r.tail + 2 } (r.tail >>> 1))
      { q with entries := q.entries ++ [none] } := by
  refine h.append hcap hq hroom none (w := default) rfl rfl ?_ ?_ nofun
  · unfold tombstone
    dsimp only
    rw [h.slot_pos hcap, pos_succ h]
    rfl
  · unfold tombstone
    dsimp only
    rw [h.slot_pos hcap]

theorem tryPushFunc_spec (hcap : cap.n < 2 ^ 63) (h : Holds cap r q)
    (hclear : q.closed = false → FullClear cap.n q) (fuel : Nat) (fill : Option V) :
    ∃ r', TryPushFunc cap (fuel + 1) r fill = some ((q.call cap.n (.tryPushFunc fill)).1, r') ∧
      Holds cap r' (q.call cap.n (.tryPushFunc fill)).2 := by
  cases fill with
  | some v =>
    obtain ⟨r', h1, h2⟩ := tryPush_spec hcap h hclear fuel v
    refine ⟨r', ?_, h2⟩
    rw [show (q.call cap.n (.tryPushFunc (some v))).1 =
      (q.push cap.n (some v) (.push .ok)).1 from rfl, ← h1]
    rfl
  | none =>
    unfold TryPushFunc Fifo.call Fifo.push
    cases hq : q.closed with
    | true => exact ⟨r, by rw [claim_closed h hq]; rfl, h⟩
    | false =>
      by_cases hfull : q.entries.length = cap.n
      · simp only [Bool.false_eq_true, if_false, if_pos hfull]
        exact ⟨r, by rw [claim_full hcap h hq hfull (hclear hq)], h⟩
      · simp only [Bool.false_eq_true, if_false, if_neg hfull]
        refine ⟨_, by rw [claim_ok hcap h hq hfull], ?_⟩
        rw [← hq]
        exact tombstone_holds hcap h hq hfull

/-- A call that the words can tell apart returns what the queue returns. -/
theorem call_spec (hcap : cap.n < 2 ^ 63) (h : Holds cap r q) {c : Call V}
    (hclear : CallClear cap.n q c) {fuel : Nat} (hfuel : tombstones q.entries < fuel) :
    ∃ r', call cap retain fuel r c = some ((q.call cap.n c).1, r') ∧
      Holds cap r' (q.call cap.n c).2 := by
  obtain ⟨fuel, rfl⟩ : ∃ n, fuel = n + 1 := ⟨fuel - 1, by omega⟩
  cases c with
  | tryPush v => exact tryPush_spec hcap h hclear fuel v
  | tryPushFunc fill => exact tryPushFunc_spec hcap h hclear fuel fill
  | tryPop =>
    obtain ⟨r', h1, h2⟩ := popFrom_spec retain hcap h hclear hfuel
    refine ⟨r', ?_, h2⟩
    unfold call TryPop
    dsimp only
    rw [h1]
    rfl
  | close => exact ⟨_, rfl, close_holds h⟩

theorem results_spec (hcap : cap.n < 2 ^ 63) (h : Holds cap r q) {calls : List (Call V)}
    (hclear : Clear cap.n q calls) {fuel : Nat} (hfuel : cap.n < fuel) :
    results cap retain fuel r calls = some (q.results cap.n calls) := by
  induction calls generalizing r q with
  | nil => rfl
  | cons c cs ih =>
    obtain ⟨r', h1, h2⟩ := call_spec retain hcap h hclear.1 (tombstones_lt h hfuel)
    unfold results Fifo.results
    rw [h1]
    dsimp only
    rw [ih h2 hclear.2]
    rfl

/-! ## Runs below the dead bit -/

theorem newRing_holds (hcap : cap.n < 2 ^ 63) :
    Holds cap (NewRing : Ring V) ⟨0, [], false⟩ where
  first_lt := Nat.two_pow_pos 63
  room := Nat.zero_le _
  head := rfl
  tail := rfl
  entry _ _ he := nomatch he
  free x _ hx := by
    have hx : x < cap.n := by simpa using hx
    show (UInt64.ofNat (x % cap.n)).toNat = x
    rw [Nat.mod_eq_of_lt hx, toNat_ofNat (by omega)]

/-- From a new ring, calls run one after another return what the reference queue
of the capacity returns, tombstones and close included, as long as no position
reaches 2^63. -/
theorem ring_is_bounded_fifo (hcap : cap.n < 2 ^ 63) (calls : List (Call V))
    (hpos : ((⟨0, [], false⟩ : Fifo V).after cap.n calls).next < 2 ^ 63) {fuel : Nat}
    (hfuel : cap.n < fuel) :
    results cap retain fuel NewRing calls =
      some ((⟨0, [], false⟩ : Fifo V).results cap.n calls) :=
  results_spec retain hcap (newRing_holds hcap) (clear_of_after hpos) hfuel

abbrev twoSlots : Capacity := .two

/-- A panicked fill takes a slot of two until a pop has skipped it. -/
theorem ring_is_bounded_fifo_two :
    results twoSlots false 3 NewRing
      [.tryPushFunc none, .tryPush 5, .tryPush 6, .tryPop, .tryPop, .close, .tryPush 7] =
    some [.panicked, .push .ok, .push .full, .pop (.ok 5), .pop .empty, .closed, .push .closed] :=
  ring_is_bounded_fifo false (by decide) _ (by decide) (by decide)

/-! ## Runs across the wrap -/

/-- The empty ring stands at `p`: each slot holds the one position of
`p .. p+N-1` that is its own. -/
structure Stands (cap : Capacity) (r : Ring V) (p : Nat) : Prop where
  tail : r.tail = .ofNat (2 * p)
  head : r.head = .ofNat p
  seq : ∀ x, p ≤ x → x < p + cap.n → (r.seq (x % cap.n)).toNat = x

omit [Inhabited V] in
theorem Stands.holds {p : Nat} (hp : p < 2 ^ 63) (h : Stands cap r p) :
    Holds cap r ⟨p, [], false⟩ where
  first_lt := hp
  room := Nat.zero_le _
  head := by rw [h.head, toNat_ofNat (by omega)]
  tail := by
    rw [h.tail]
    show _ = tailOf ⟨p % 2 ^ 63, false⟩
    rw [Nat.mod_eq_of_lt hp]
    rfl
  entry _ _ he := nomatch he
  free x h1 h2 := h.seq x h1 h2

/-- A call that they do not tell apart does not return what the queue returns. -/
theorem call_differs (hcap : cap.n < 2 ^ 63) (h : Holds cap r q) (hl : Live q) {c : Call V}
    (hc : c.plain = true) (hclear : ¬ CallClear cap.n q c) (fuel : Nat) :
    ∀ r', call cap retain fuel r c ≠ some ((q.call cap.n c).1, r') := by
  cases c with
  | tryPush v =>
    intro r' he
    have hfull : ¬ FullClear cap.n q := fun hf => hclear fun _ => hf
    have hn : q.entries.length = cap.n := by
      by_contra hn
      exact hfull fun he => absurd he hn
    unfold call TryPush at he
    rw [claim_stuck hcap h hl.1 hn hfull] at he
    cases he
  | tryPop =>
    intro r' he
    obtain ⟨first, es, closed⟩ := q
    cases es with
    | nil => exact hclear trivial
    | cons e es =>
      cases e with
      | none => exact absurd rfl (hl.2 none (List.mem_cons_self ..))
      | some v =>
        have hlast : first + 1 = 2 ^ 63 := by
          have h1 : ¬ first + 1 < 2 ^ 63 := hclear
          have h2 : first < 2 ^ 63 := h.first_lt
          omega
        cases fuel with
        | zero => cases he
        | succ fuel =>
          unfold call TryPop at he
          rw [popFrom_lost retain hcap h rfl hlast fuel] at he
          cases he
  | tryPushFunc fill => cases hc
  | close => cases hc

theorem call_zero {c : Call V} (hc : c.plain = true) : call cap retain 0 r c = none := by
  cases c with
  | tryPush v => rfl
  | tryPop => rfl
  | tryPushFunc fill => cases hc
  | close => cases hc

theorem results_differ (hcap : cap.n < 2 ^ 63) (h : Holds cap r q) (hl : Live q)
    {calls : List (Call V)} (hc : ∀ c ∈ calls, c.plain = true) (hclear : ¬ Clear cap.n q calls)
    (fuel : Nat) : results cap retain fuel r calls ≠ some (q.results cap.n calls) := by
  induction calls generalizing r q with
  | nil => exact absurd trivial hclear
  | cons c cs ih =>
    intro he
    have hc1 := hc c (List.mem_cons_self ..)
    unfold results Fifo.results at he
    cases hcall : call cap retain fuel r c with
    | none =>
      rw [hcall] at he
      cases he
    | some res =>
      obtain ⟨res, r1⟩ := res
      rw [hcall] at he
      dsimp only at he
      obtain ⟨rest, hrest, heq⟩ := Option.map_eq_some_iff.mp he
      obtain ⟨rfl, rfl⟩ := List.cons.inj heq
      by_cases hcc : CallClear cap.n q c
      · have hpos : 0 < fuel := by
          refine Nat.pos_of_ne_zero fun hz => ?_
          rw [hz, call_zero retain hc1] at hcall
          cases hcall
        obtain ⟨r2, h1, h2⟩ := call_spec retain hcap h hcc (by rw [hl.tombstones]; exact hpos)
        rw [hcall] at h1
        obtain rfl : r1 = r2 := congrArg Prod.snd (Option.some.inj h1)
        exact ih h2 (hl.call hc1) (fun c hm => hc c (List.mem_cons_of_mem _ hm))
          (fun hcs => hclear ⟨hcc, hcs⟩) hrest
      · exact call_differs retain hcap h hl hc1 hcc fuel r1 hcall

/-- Pushes and pops from any position behave as a queue of the capacity exactly
if no pop comes while the oldest value is the one of position 2^63 - 1, and no
push to a full ring while that value is held and is not the oldest. -/
theorem fifo_iff_clear (hcap : cap.n < 2 ^ 63) {p : Nat} (hp : p < 2 ^ 63) (hr : Stands cap r p)
    {calls : List (Call V)} (hc : ∀ c ∈ calls, c.plain = true) :
    (∃ fuel, results cap retain fuel r calls =
      some ((⟨p, [], false⟩ : Fifo V).results cap.n calls)) ↔
    Clear cap.n ⟨p, [], false⟩ calls := by
  have h := hr.holds hp
  constructor
  · rintro ⟨fuel, he⟩
    by_contra hclear
    exact results_differ retain hcap h ⟨rfl, nofun⟩ hc hclear fuel he
  · intro hclear
    exact ⟨cap.n + 1, results_spec retain hcap h hclear (Nat.lt_succ_self _)⟩

/-- Two slots, empty three positions before the dead bit. -/
def beforeWrap : Ring Nat where
  tail := .ofNat (2 * (2 ^ 63 - 3))
  head := .ofNat (2 ^ 63 - 3)
  seq i := if i = 1 then .ofNat (2 ^ 63 - 3) else .ofNat (2 ^ 63 - 2)
  val _ := 0

/-- The last of the pushes has the position 2^63, for which the tail stands at
zero, and finds the ring full after it. -/
def acrossWrap : List (Call Nat) :=
  [.tryPush 5, .tryPush 6, .tryPush 7, .tryPop, .tryPush 7, .tryPop, .tryPush 8, .tryPush 9]

theorem fifo_iff_clear_wrap : ∃ fuel, results twoSlots false fuel beforeWrap acrossWrap =
    some [.push .ok, .push .ok, .push .full, .pop (.ok 5), .push .ok, .pop (.ok 6), .push .ok,
      .push .full] := by
  have hs : Stands twoSlots beforeWrap (2 ^ 63 - 3) := by
    refine ⟨rfl, rfl, fun x h1 h2 => ?_⟩
    obtain rfl | rfl : x = 2 ^ 63 - 3 ∨ x = 2 ^ 63 - 2 := by
      have h2 : x < 2 ^ 63 - 3 + 2 := h2
      omega
    · rfl
    · rfl
  refine (fifo_iff_clear false (by decide) (by decide) hs (by decide)).mpr ?_
  exact ⟨fun _ => nofun, fun _ => nofun, fun _ _ => .inl (by decide),
    show 2 ^ 63 - 3 + 1 < 2 ^ 63 by decide, fun _ => nofun,
    show 2 ^ 63 - 2 + 1 < 2 ^ 63 by decide, fun _ => nofun, fun _ _ => .inr (by decide), trivial⟩

/-- Two slots, empty at the last position before the dead bit. -/
def lastPosition : Ring Nat where
  tail := .ofNat (2 * (2 ^ 63 - 1))
  head := .ofNat (2 ^ 63 - 1)
  seq i := if i = 1 then .ofNat (2 ^ 63 - 1) else .ofNat (2 ^ 63)
  val _ := 0

/-- The value pushed there is not popped. -/
theorem last_position_lost :
    Stands twoSlots lastPosition (2 ^ 63 - 1) ∧
    (∀ fuel, results twoSlots false fuel lastPosition [.tryPush 7, .tryPop] ≠
      some ((⟨2 ^ 63 - 1, [], false⟩ : Fifo Nat).results 2 [.tryPush 7, .tryPop])) ∧
    results twoSlots false 1 lastPosition [.tryPush 7, .tryPop] =
      some [.push .ok, .pop .empty] := by
  have hs : Stands twoSlots lastPosition (2 ^ 63 - 1) := by
    refine ⟨rfl, rfl, fun x h1 h2 => ?_⟩
    obtain rfl | rfl : x = 2 ^ 63 - 1 ∨ x = 2 ^ 63 := by
      have h2 : x < 2 ^ 63 - 1 + 2 := h2
      omega
    · rfl
    · rfl
  refine ⟨hs, fun fuel => results_differ false (by decide) (hs.holds (by decide)) ⟨rfl, nofun⟩
    (by decide) (fun hc => ?_) fuel, by rfl⟩
  have hlt : 2 ^ 63 - 1 + 1 < 2 ^ 63 := hc.2.1
  omega

end

/-! ## The concurrent queues -/

section
variable {V Tid : Type} [Inhabited V] [DecidableEq Tid] {N : Capacity}

theorem ring_words {o : Go.Options} {x : System.Config (Go.ring V Tid N o)}
    (hx : (Go.ring V Tid N o).Reachable x)
    (hb : x.state.core.ledger.lanes.tail + N.n ≤ 2 ^ 63) :
    Exact N.n x.state.core.ledger.lanes x.state.core.ledger.closed := by
  obtain ⟨γ, h, -⟩ := Go.ring_holds hx
  exact words_exact h.base.lanes hb _

theorem queue_words {o : Cpp.Options} {x : System.Config (Cpp.queue V Tid N o)}
    (hx : (Cpp.queue V Tid N o).Reachable x)
    (hb : x.state.core.ledger.lanes.tail + N.n ≤ 2 ^ 63) :
    Exact N.n x.state.core.ledger.lanes x.state.core.ledger.closed := by
  obtain ⟨γ, h, -⟩ := Cpp.queue_holds hx
  exact words_exact h.base.lanes hb _

/-- A difference of positions below 2^63 is the difference of the words. -/
theorem toNat_sub {a b : Nat} (ha : a < 2 ^ 63) (hb : b ≤ a) :
    (UInt64.ofNat a - .ofNat b).toNat = a - b := by
  have hna : (UInt64.ofNat a).toNat = a := toNat_ofNat (by omega)
  have hnb : (UInt64.ofNat b).toNat = b := toNat_ofNat (by omega)
  rw [UInt64.toNat_sub_of_le _ _ (UInt64.le_iff_toNat_le.mpr (by omega)), hna, hnb]

/-- The indices of a sharded ring below 2^63: the tail is read back, the slots
are those of the positions, and the producer and the consumer compare the
indices as the words do. -/
theorem sharded_words [Inhabited Tid] {g : Sharded.Shape}
    {x : System.Config (Sharded.queue V Tid g)} (hx : (Sharded.queue V Tid g).Reachable x)
    (hcap : g.ring.n < 2 ^ 63) {p : Nat} (hb : (x.state.shard p).tail < 2 ^ 63) :
    (tailOf (x.state.tailWord p) >>> 1).toNat = (x.state.shard p).tail ∧
    (tailOf (x.state.tailWord p) &&& closedBit = 0 ↔ (x.state.shard p).closed = false) ∧
    (∀ pos, pos ≤ (x.state.shard p).tail → slot g.ring (.ofNat pos) = pos % g.ring.n) ∧
    (∀ seen, seen = (x.state.shard p).cachedHead ∨ seen = (x.state.shard p).head →
      (UInt64.ofNat (x.state.shard p).tail - .ofNat seen = .ofNat g.ring.n ↔
        (x.state.shard p).tail - seen = g.ring.n)) ∧
    ∀ seen, seen = (x.state.shard p).cachedTail ∨ seen = (x.state.shard p).tail →
      (UInt64.ofNat (x.state.shard p).head = .ofNat seen ↔ (x.state.shard p).head = seen) := by
  obtain ⟨γ, hr, -⟩ := Sharded.follows.places (System.Reachable.reachableIf hx)
  have h := ((Sharded.shard_keeps g _).reach hr).rings p
  have hle := Nat.le_trans h.seenTail.1 h.seenTail.2
  refine ⟨tailOf_pos (w := x.state.tailWord p) hb, tailOf_closed (w := x.state.tailWord p) hb,
    fun pos hp => ?_, fun seen hs => ?_, fun seen hs => ?_⟩
  · rw [slot_eq hcap, toNat_ofNat (by omega)]
  · have hseen : seen ≤ (x.state.shard p).tail := by
      rcases hs with rfl | rfl
      · exact Nat.le_trans h.seenHead hle
      · exact hle
    rw [← UInt64.toNat_inj, toNat_sub hb hseen, toNat_ofNat (by omega)]
  · have hseen : seen ≤ (x.state.shard p).tail := by
      rcases hs with rfl | rfl
      · exact h.seenTail.2
      · exact Nat.le_refl _
    rw [← UInt64.toNat_inj, toNat_ofNat (by omega), toNat_ofNat (by omega)]

end
end Katas.Turnstile.Words
