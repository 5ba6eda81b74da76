import Katas.Core.Bits
import Katas.Weir.Pipeline
import Katas.Weir.SpscRing

/-!
# The consumer's scans

`drain_ring`, `drain_full` and `drain_bitmap` on the real words: the rings'
64-bit indices with the private copy of the tail, the active word, the staging
buffer and what is written to the sink. Nothing is pushed meanwhile, so a scan
is a function of the state it starts in.

A write is given by the events whose bytes are handed over. Which rings a scan
looked into is recorded, in order (`probed`); the counter of it is the length.
-/
namespace Katas.Weir.Drain
open Katas.Conc Katas.Counter Katas.Weir.SpscRing
open Katas.Weir.Pipeline (SlotState)

/-! ## The program -/

/-- mirrors mpsc-event-pipeline-kata/cpp/src/config.hpp:37 -/
def kMaxProducers : Nat := 64

/-- mirrors mpsc-event-pipeline-kata/cpp/src/config.hpp:39 -/
def kDrainBatch : Nat := 512

/-- What the consumer works on. `hook` is whether `on_event_` is set; `written`
and `hooked` are the calls of the sink and of the hook.
mirrors mpsc-event-pipeline-kata/cpp/src/event_pipeline.hpp:465-501 and
go/internal/weir/pipeline.go:64-113 -/
structure Consumer (T : Type) (c : Capacity) where
  ring : Nat → Ring T c
  state : Nat → SlotState
  active : BitVec 64
  staged : List T
  hook : Bool
  written : List (List T)
  hooked : List T
  consumed : UInt64

section
variable {T : Type} {c : Capacity}

/-- The `n` slots from `h` on. -/
def copied (r : Ring T c) (h n : BitVec 64) : List T :=
  (List.range n.toNat).map fun i => r.slots (slotOf c.log (h + .ofNat 64 i))

/-- mirrors mpsc-event-pipeline-kata/cpp/src/spsc_ring.hpp:58-71 and
go/internal/weir/spsc_ring.go:102-132 -/
def popBatch (r : Ring T c) (max : BitVec 64) : List T × Ring T c :=
  let h := r.head
  let r := if h = r.cachedTail then { r with cachedTail := r.tail } else r
  if h = r.cachedTail then ([], r)
  else
    let n := batch max (r.cachedTail - h)
    (copied r h n, { r with head := h + n })

/-- `size` is the staging buffer's.
mirrors mpsc-event-pipeline-kata/cpp/src/event_pipeline.hpp:407-412 and
go/internal/weir/pipeline.go:439-445 -/
def flush (p : Consumer T c) : Consumer T c :=
  if p.staged = [] then p else { p with written := p.written ++ [p.staged], staged := [] }

/-- The loop of `drain_ring`, `got` events taken; `size` is the staging buffer's.
mirrors mpsc-event-pipeline-kata/cpp/src/event_pipeline.hpp:387-398 and
go/internal/weir/pipeline.go:407-429 -/
def drainLoop (size i : Nat) (p : Consumer T c) (got : Nat) : Consumer T c × Nat :=
  if got < kDrainBatch then
    let p := if p.staged.length = size then flush p else p
    let room := min (size - p.staged.length) (kDrainBatch - got)
    let (out, r) := popBatch (p.ring i) (.ofNat 64 room)
    let p := { p with ring := upd p.ring i r }
    if out.length = 0 then (p, got)
    else
      let p := { p with hooked := if p.hook then p.hooked ++ out else p.hooked }
      drainLoop size i { p with staged := p.staged ++ out } (got + out.length)
  else (p, got)
termination_by kDrainBatch - got

/-- mirrors mpsc-event-pipeline-kata/cpp/src/event_pipeline.hpp:385-400 and
go/internal/weir/pipeline.go:405-433 -/
def drainRing (size i : Nat) (p : Consumer T c) : Consumer T c × Nat :=
  let (p, got) := drainLoop size i p 0
  ({ p with consumed := p.consumed + .ofNat got }, got)

/-- A scan under way: `total` events taken from the rings `probed`, of which
`empty` gave none. -/
structure Scan (T : Type) (c : Capacity) where
  pipe : Consumer T c
  total : Nat
  probed : List Nat
  empty : Nat

/-- What both scans do with a ring.
mirrors mpsc-event-pipeline-kata/cpp/src/event_pipeline.hpp:324-327,347-350 and
go/internal/weir/pipeline.go:392-397, bitmap.go:136-141 -/
def visit (size : Nat) (x : Scan T c) (i : Nat) : Scan T c :=
  let (p, n) := drainRing size i x.pipe
  ⟨p, x.total + n, x.probed ++ [i], if n = 0 then x.empty + 1 else x.empty⟩

/-- `if (total > 0) flush(sink)` -/
def finish (x : Scan T c) : Scan T c := if 0 < x.total then { x with pipe := flush x.pipe } else x

/-- mirrors mpsc-event-pipeline-kata/cpp/src/event_pipeline.hpp:319-331 and
go/internal/weir/pipeline.go:385-403 -/
def drainFull (size rotate : Nat) (p : Consumer T c) : Scan T c :=
  finish ((List.range kMaxProducers).foldl (fun x k =>
    let i := (k + rotate) &&& (kMaxProducers - 1)
    if x.pipe.state i = .free then x else visit size x i) ⟨p, 0, [], 0⟩)

/-- The loop over the set bits that are left.
mirrors mpsc-event-pipeline-kata/cpp/src/event_pipeline.hpp:343-351 and
go/internal/weir/bitmap.go:131-142 -/
def bitmapLoop (size rotate : Nat) (m : BitVec 64) (x : Scan T c) : Scan T c :=
  if h : m = 0 then x
  else
    let off := m.ctz.toNat
    bitmapLoop size rotate (m &&& (m - 1))
      (visit size x ((off + rotate) &&& (kMaxProducers - 1)))
termination_by m.toNat
decreasing_by exact Bits.peel_lt h

/-- mirrors mpsc-event-pipeline-kata/cpp/src/event_pipeline.hpp:337-354 and
go/internal/weir/bitmap.go:128-147 -/
def drainBitmap (size rotate : Nat) (p : Consumer T c) : Scan T c :=
  finish (bitmapLoop size rotate (p.active.rotateRight rotate) ⟨p, 0, [], 0⟩)

/-! ## Rings -/

/-- The ring holds `xs`, whatever its indices, and the private copy of the tail
is not ahead of the tail. -/
structure Holds (r : Ring T c) (xs : List T) : Prop where
  room : xs.length ≤ c.size
  tail : r.tail = r.head + .ofNat 64 xs.length
  cached : ∃ k, k ≤ xs.length ∧ r.cachedTail = r.head + .ofNat 64 k
  slots : ∀ j x, xs[j]? = some x → r.slots (slotOf c.log (r.head + .ofNat 64 j)) = x

theorem size_lt (c : Capacity) : c.size < 2 ^ 64 := by
  have := c.fits
  exact Nat.pow_lt_pow_right (by decide) this

theorem toNat_ofNat {k : Nat} (h : k < 2 ^ 64) : (BitVec.ofNat 64 k).toNat = k := by
  rw [BitVec.toNat_ofNat]
  exact Nat.mod_eq_of_lt h

theorem copied_eq {r : Ring T c} {xs : List T} (h : Holds r xs) {n : BitVec 64}
    (hn : n.toNat ≤ xs.length) : copied r r.head n = xs.take n.toNat := by
  refine List.ext_getElem? fun j => ?_
  unfold copied
  rw [List.getElem?_map, List.getElem?_take]
  by_cases hj : j < n.toNat
  · have hx : xs[j]? = some xs[j] := List.getElem?_eq_getElem (by omega)
    rw [if_pos hj, hx, List.getElem?_range hj, Option.map_some, h.slots j _ hx]
  · rw [if_neg hj, List.getElem?_eq_none (by simpa using hj)]
    rfl

theorem toNat_batch (max : BitVec 64) {k : Nat} (hk : k < 2 ^ 64) :
    (batch max (.ofNat 64 k)).toNat = min max.toNat k := by
  have hof : (BitVec.ofNat 64 k).toNat = k := toNat_ofNat hk
  unfold batch
  split
  · rename_i hlt
    rw [BitVec.lt_def, hof] at hlt
    omega
  · rename_i hlt
    rw [BitVec.lt_def, hof] at hlt
    omega

/-- The first `n` events are gone. -/
theorem Holds.advance {r : Ring T c} {xs : List T} (h : Holds r xs) {n k : Nat}
    (hn : n ≤ k) (hk : k ≤ xs.length) (hcached : r.cachedTail = r.head + .ofNat 64 k) :
    Holds { r with head := r.head + .ofNat 64 n } (xs.drop n) where
  room := by
    have := h.room
    rw [List.length_drop]
    omega
  tail := by
    show r.tail = r.head + .ofNat 64 n + .ofNat 64 (xs.drop n).length
    rw [BitVec.add_assoc, ← BitVec.ofNat_add, List.length_drop, Nat.add_sub_cancel' (by omega)]
    exact h.tail
  cached := by
    refine ⟨k - n, by rw [List.length_drop]; omega, ?_⟩
    show r.cachedTail = r.head + .ofNat 64 n + .ofNat 64 (k - n)
    rw [BitVec.add_assoc, ← BitVec.ofNat_add, Nat.add_sub_cancel' hn]
    exact hcached
  slots j x hx := by
    rw [List.getElem?_drop] at hx
    show r.slots (slotOf c.log (r.head + .ofNat 64 n + .ofNat 64 j)) = x
    rw [BitVec.add_assoc, ← BitVec.ofNat_add]
    exact h.slots (n + j) x hx

/-- What is copied of the `k` events up to the private copy of the tail. -/
theorem taken_spec {r : Ring T c} {xs : List T} (h : Holds r xs) {k : Nat} (hk : k ≤ xs.length)
    (hcached : r.cachedTail = r.head + .ofNat 64 k) (max : BitVec 64) :
    copied r r.head (batch max (r.cachedTail - r.head)) = xs.take (min max.toNat k) ∧
    Holds { r with head := r.head + batch max (r.cachedTail - r.head) }
      (xs.drop (min max.toNat k)) := by
  have hroom := h.room
  have hsize := size_lt c
  have hbatch : batch max (r.cachedTail - r.head) = .ofNat 64 (min max.toNat k) := by
    refine BitVec.eq_of_toNat_eq ?_
    rw [hcached, BitVec.add_comm, BitVec.add_sub_cancel, toNat_batch max (by omega),
      toNat_ofNat (by omega)]
  rw [hbatch]
  refine ⟨?_, h.advance (Nat.min_le_right _ _) hk hcached⟩
  have htoNat : (BitVec.ofNat 64 (min max.toNat k)).toNat = min max.toNat k :=
    toNat_ofNat (by omega)
  rw [copied_eq h (by omega), htoNat]

/-- The copy of the tail is the head only if it is stale or the ring is empty. -/
theorem head_eq_iff {h : BitVec 64} {k : Nat} (hk : k < 2 ^ 64) : h = h + .ofNat 64 k ↔ k = 0 := by
  have hinj : wrap h k = wrap h 0 ↔ k = 0 := wrap_inj (Nat.zero_le k) (by omega)
  rw [wrap_zero] at hinj
  exact eq_comm.trans hinj

theorem Holds.refresh {r : Ring T c} {xs : List T} (h : Holds r xs) :
    Holds { r with cachedTail := r.tail } xs :=
  ⟨h.room, h.tail, ⟨xs.length, Nat.le_refl _, h.tail⟩, h.slots⟩

/-- A pop takes the oldest events, and none only if there is no room or no event. -/
theorem popBatch_spec {r : Ring T c} {xs : List T} (h : Holds r xs) (max : BitVec 64) :
    ∃ n r', popBatch r max = (xs.take n, r') ∧ n ≤ max.toNat ∧ n ≤ xs.length ∧
      Holds r' (xs.drop n) ∧ (n = 0 → max.toNat = 0 ∨ xs = []) := by
  have hroom := h.room
  have hsize := size_lt c
  obtain ⟨k, hk, hcached⟩ := h.cached
  by_cases hstale : r.head = r.cachedTail
  · have hk0 : r.head = r.tail ↔ xs.length = 0 := by
      rw [h.tail]
      exact head_eq_iff (by omega)
    unfold popBatch
    simp only [if_pos hstale]
    by_cases hempty : r.head = r.tail
    · rw [if_pos hempty]
      have hxs : xs = [] := List.length_eq_zero_iff.mp (hk0.mp hempty)
      exact ⟨0, _, rfl, Nat.zero_le _, Nat.zero_le _, h.refresh, fun _ => .inr hxs⟩
    · rw [if_neg hempty]
      obtain ⟨h1, h2⟩ := taken_spec h.refresh (Nat.le_refl _) h.tail max
      refine ⟨_, _, by rw [← h1], Nat.min_le_left _ _, Nat.min_le_right _ _, h2, fun h0 => ?_⟩
      have : xs.length ≠ 0 := mt hk0.mpr hempty
      omega
  · have hk0 : k ≠ 0 := by
      rw [hcached] at hstale
      exact mt (head_eq_iff (by omega)).mpr hstale
    unfold popBatch
    simp only [if_neg hstale]
    obtain ⟨h1, h2⟩ := taken_spec h hk hcached max
    refine ⟨_, _, by rw [← h1], Nat.min_le_left _ _, by omega, h2, fun h0 => ?_⟩
    omega

/-- An empty ring gives nothing and stays as it is. -/
theorem popBatch_empty {r : Ring T c} (h : Holds r []) (max : BitVec 64) :
    popBatch r max = ([], r) := by
  obtain ⟨k, hk, hcached⟩ := h.cached
  have htail : r.tail = r.head := by
    rw [h.tail]
    exact BitVec.add_zero _
  have hstale : r.cachedTail = r.head := by
    rw [hcached, Nat.le_zero.mp hk]
    exact BitVec.add_zero _
  obtain ⟨tail, cachedHead, head, cachedTail, slots⟩ := r
  obtain rfl : tail = head := htail
  obtain rfl : cachedTail = tail := hstale
  unfold popBatch
  simp only [if_true]

/-! ## One ring -/

/-- What has changed when `n` of the events `xs` of ring `i` have been drained. -/
structure Drained (size i : Nat) (p p' : Consumer T c) (xs : List T) (n : Nat) : Prop where
  ring : Holds (p'.ring i) (xs.drop n)
  others : ∀ j, j ≠ i → p'.ring j = p.ring j
  state : p'.state = p.state
  active : p'.active = p.active
  hook : p'.hook = p.hook
  written : ∃ ws, p'.written = p.written ++ ws ∧ ws.flatten ++ p'.staged = p.staged ++ xs.take n
  hooked : p'.hooked = p.hooked ++ if p.hook then xs.take n else []
  room : p'.staged.length ≤ size

variable {size i : Nat} {p p' p'' : Consumer T c} {xs : List T} {n n' : Nat}

theorem Drained.trans (h : Drained size i p p' xs n) (h' : Drained size i p' p'' (xs.drop n) n') :
    Drained size i p p'' xs (n + n') := by
  have htake : xs.take n ++ (xs.drop n).take n' = xs.take (n + n') := List.take_add.symm
  refine ⟨?_, fun j hj => (h'.others j hj).trans (h.others j hj), h'.state.trans h.state,
    h'.active.trans h.active, h'.hook.trans h.hook, ?_, ?_, h'.room⟩
  · rw [← List.drop_drop]
    exact h'.ring
  · obtain ⟨ws, hw, hs⟩ := h.written
    obtain ⟨ws', hw', hs'⟩ := h'.written
    refine ⟨ws ++ ws', by rw [hw', hw, List.append_assoc], ?_⟩
    rw [List.flatten_append, List.append_assoc, hs', ← List.append_assoc, hs, List.append_assoc,
      htake]
  · rw [h'.hooked, h.hooked, h.hook, List.append_assoc]
    cases p.hook with
    | true => simp only [if_true, htake]
    | false => simp

/-- `if (staged_ == stage_.size()) flush(sink)` -/
def makeRoom (size : Nat) (p : Consumer T c) : Consumer T c :=
  if p.staged.length = size then flush p else p

theorem flush_drained (hr : Holds (p.ring i) xs) : Drained size i p (flush p) xs 0 := by
  unfold flush
  split
  · rename_i hst
    refine ⟨hr, fun _ _ => rfl, rfl, rfl, rfl, ⟨[], by simp, by simp⟩, by simp, by simp [hst]⟩
  · exact ⟨hr, fun _ _ => rfl, rfl, rfl, rfl, ⟨[p.staged], rfl, by simp⟩, by simp, Nat.zero_le _⟩

theorem makeRoom_drained (hstage : p.staged.length ≤ size) (hr : Holds (p.ring i) xs) :
    Drained size i p (makeRoom size p) xs 0 := by
  unfold makeRoom
  split
  · exact flush_drained hr
  · exact ⟨hr, fun _ _ => rfl, rfl, rfl, rfl, ⟨[], by simp, by simp⟩, by simp, hstage⟩

theorem flush_staged (p : Consumer T c) : (flush p).staged = [] := by
  unfold flush
  split
  · assumption
  · rfl

theorem makeRoom_lt (hs : 1 ≤ size) (hstage : p.staged.length ≤ size) :
    (makeRoom size p).staged.length < size := by
  unfold makeRoom
  split
  · rw [flush_staged]
    exact hs
  · omega

/-- One round of the loop that gets events. -/
theorem popped_drained {r' : Ring T c} (hn : n ≤ xs.length)
    (hroom : p.staged.length + n ≤ size) (hr' : Holds r' (xs.drop n)) :
    Drained size i p
      { p with ring := upd p.ring i r',
               hooked := if p.hook then p.hooked ++ xs.take n else p.hooked,
               staged := p.staged ++ xs.take n } xs n where
  ring := by
    show Holds (upd p.ring i r' i) _
    rw [upd_self]
    exact hr'
  others j hj := upd_ne _ _ hj
  state := rfl
  active := rfl
  hook := rfl
  written := ⟨[], by simp, rfl⟩
  hooked := by
    show (if p.hook then p.hooked ++ xs.take n else p.hooked) = _
    cases p.hook <;> simp
  room := by
    show (p.staged ++ xs.take n).length ≤ size
    rw [List.length_append, List.length_take]
    omega

theorem Drained.refl (hstage : p.staged.length ≤ size) (hr : Holds (p.ring i) xs) :
    Drained size i p p xs 0 :=
  ⟨hr, fun _ _ => rfl, rfl, rfl, rfl, ⟨[], by simp, by simp⟩, by simp, hstage⟩

/-- One round, with what it pops. -/
theorem drainLoop_round {got : Nat} (hgot : got < kDrainBatch) {out : List T} {r' : Ring T c}
    (hpop : popBatch ((makeRoom size p).ring i)
      (.ofNat 64 (min (size - (makeRoom size p).staged.length) (kDrainBatch - got))) = (out, r')) :
    drainLoop size i p got =
      if out.length = 0 then
        ({ makeRoom size p with ring := upd (makeRoom size p).ring i r' }, got)
      else
        drainLoop size i
          { makeRoom size p with
            ring := upd (makeRoom size p).ring i r',
            hooked := if (makeRoom size p).hook then (makeRoom size p).hooked ++ out
              else (makeRoom size p).hooked,
            staged := (makeRoom size p).staged ++ out } (got + out.length) := by
  rw [drainLoop, if_pos hgot]
  unfold makeRoom at *
  dsimp only
  rw [hpop]

/-- The loop on an empty ring makes room, and that is all. -/
theorem drainLoop_empty (hr : Holds ((makeRoom size p).ring i) []) {got : Nat}
    (hgot : got < kDrainBatch) : drainLoop size i p got = (makeRoom size p, got) := by
  rw [drainLoop_round hgot (popBatch_empty hr _), if_pos List.length_nil, upd_eq_self]

/-- The loop takes what the batch still allows, whatever the private copy of the
tail and the staging buffer were. -/
theorem drainLoop_spec (hs : 1 ≤ size) (hstage : p.staged.length ≤ size) (hr : Holds (p.ring i) xs)
    {got : Nat} (hgot : got ≤ kDrainBatch) :
    ∃ p', drainLoop size i p got = (p', got + min (kDrainBatch - got) xs.length) ∧
      Drained size i p p' xs (min (kDrainBatch - got) xs.length) ∧ p'.consumed = p.consumed := by
  induction hm : kDrainBatch - got using Nat.strongRecOn generalizing p xs got with
  | ind m ih =>
    subst hm
    by_cases hlt : got < kDrainBatch
    · have hfirst := makeRoom_drained hstage hr
      have hless := makeRoom_lt hs hstage
      have hr1 : Holds ((makeRoom size p).ring i) xs := hfirst.ring
      have hconsumed : (makeRoom size p).consumed = p.consumed := by
        unfold makeRoom flush
        split
        · split <;> rfl
        · rfl
      by_cases hxs : xs = []
      · subst hxs
        rw [drainLoop_empty hr1 hlt, List.length_nil, Nat.min_zero]
        exact ⟨_, rfl, hfirst, hconsumed⟩
      · -- the ring has events and the buffer has room: at least one is copied
        obtain ⟨n, r', hpop, hn1, hn2, hr', hz⟩ := popBatch_spec hr1
          (.ofNat 64 (min (size - (makeRoom size p).staged.length) (kDrainBatch - got)))
        have hbatch : kDrainBatch = 512 := rfl
        rw [toNat_ofNat (by omega)] at hn1 hz
        have hpos : n ≠ 0 := fun h0 => by
          rcases hz h0 with h | h
          · omega
          · exact hxs h
        have hlen : (xs.take n).length = n := by
          rw [List.length_take]
          omega
        have hfit : (makeRoom size p).staged.length + n ≤ size := by omega
        have hround := popped_drained (i := i) hn2 hfit hr'
        rw [drainLoop_round hlt hpop, if_neg (by omega), hlen]
        obtain ⟨p', h1, h2, h3⟩ := ih (kDrainBatch - (got + n)) (by omega) hround.room hround.ring
          (by omega) rfl
        have hsum : n + min (kDrainBatch - (got + n)) (xs.drop n).length =
            min (kDrainBatch - got) xs.length := by
          rw [List.length_drop]
          omega
        have hall := hfirst.trans (hround.trans h2)
        rw [Nat.zero_add, hsum] at hall
        refine ⟨p', ?_, hall, h3.trans hconsumed⟩
        rw [h1, ← hsum, Nat.add_assoc]
    · have hz : min (kDrainBatch - got) xs.length = 0 := by omega
      rw [drainLoop, if_neg hlt, hz]
      exact ⟨p, rfl, .refl hstage hr, rfl⟩

/-- `drain_ring` is exact: whatever the indices, the private copy of the tail and
the staging buffer, it takes the oldest 512 events or all, writes and stages
them in order behind what was staged, and calls the hook on each. -/
theorem drainRing_exact (hs : 1 ≤ size) (hstage : p.staged.length ≤ size)
    (hr : Holds (p.ring i) xs) :
    ∃ p', drainRing size i p = (p', min 512 xs.length) ∧
      Drained size i p p' xs (min 512 xs.length) ∧
      p'.consumed = p.consumed + .ofNat (min 512 xs.length) := by
  obtain ⟨p', h1, h2, h3⟩ := drainLoop_spec hs hstage hr (Nat.zero_le _)
  have hmin : 0 + min (kDrainBatch - 0) xs.length = min 512 xs.length := Nat.zero_add _
  rw [hmin] at h1
  refine ⟨{ p' with consumed := p'.consumed + .ofNat (min 512 xs.length) }, ?_, ?_, ?_⟩
  · unfold drainRing
    rw [h1]
  · exact ⟨h2.ring, h2.others, h2.state, h2.active, h2.hook, h2.written, h2.hooked, h2.room⟩
  · show p'.consumed + _ = _
    rw [h3]

end

abbrev twoSlots : Capacity := .two

/-- Two events across the wrap, of which the private copy of the tail knows one,
and a buffer of one event that is full. -/
def acrossWrap : Consumer Nat twoSlots where
  ring _ := ⟨1, 0, -1, 0, fun i => i.val⟩
  state _ := .active
  active := 1
  staged := [7]
  hook := true
  written := []
  hooked := []
  consumed := 0

theorem drainRing_exact_two : ∃ p', drainRing 1 0 acrossWrap = (p', 2) ∧ p'.hooked = [1, 0] ∧
    ∃ ws, p'.written = ws ∧ ws.flatten ++ p'.staged = [7, 1, 0] := by
  have hr : Holds (acrossWrap.ring 0) [1, 0] := by
    refine ⟨by decide, rfl, ⟨1, by decide, rfl⟩, fun j x hx => ?_⟩
    match j, hx with
    | 0, rfl => rfl
    | 1, rfl => rfl
    | j + 2, hx => cases hx
  have hstage : acrossWrap.staged.length ≤ 1 := Nat.le_refl 1
  obtain ⟨p', h1, h2, -⟩ := drainRing_exact (Nat.le_refl 1) hstage hr
  obtain ⟨ws, hw, hs⟩ := h2.written
  exact ⟨p', h1, h2.hooked, ws, hw, hs⟩

end Katas.Weir.Drain
