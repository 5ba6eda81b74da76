import Katas.Weir.Wire
import Mathlib.Data.Nat.ModEq

/-!
# The two Python rings

`BytesRing`, which packs a record into a flat buffer when it is pushed, and
`DequeRing`, which keeps the arguments and packs them when they are popped. The
calls come one after another.

Both keep a bounded queue of records (`Keeps`), but not the same calls raise: a
`BytesRing` with room raises on arguments that do not fit the record, and a
`DequeRing` takes them.
-/
namespace Katas.Weir.PythonRings
open Katas.Records Katas.Weir.Event

/-- What the pipeline uses of a ring. A push returns `none` if it raises, and so
does a pop, which also returns the staging buffer.
mirrors mpsc-event-pipeline-kata/python/src/weir/spsc_ring.py:58-65 (`Ring`) -/
structure Backend (R : Type) where
  try_push : R → Fields → Option Bool × R
  producer_size_hint : R → Nat
  pop_into : R → Bytes → Nat → Nat → Option Nat × Bytes × R
  size_now : R → Nat

/-- `m[i:j]` -/
def slice (m : Bytes) (i j : Nat) : Bytes := (m.drop i).take (j - i)

/-! ## BytesRing -/

/-- mirrors mpsc-event-pipeline-kata/python/src/weir/spsc_ring.py:90-103 -/
structure BytesRing where
  buf : Bytes
  cap : Nat
  mask : Nat
  head : Nat
  tail : Nat
  cached_head : Nat
  cached_tail : Nat
  deriving DecidableEq, Repr

/-- `none`: `ValueError`.
mirrors mpsc-event-pipeline-kata/python/src/weir/spsc_ring.py:93-103 -/
def BytesRing.new (capacity : Nat) : Option BytesRing :=
  if capacity < 2 ∨ capacity &&& (capacity - 1) ≠ 0 then none
  else some ⟨List.replicate (capacity * EVENT_SIZE) 0, capacity, capacity - 1, 0, 0, 0, 0⟩

/-- What `pack_into` leaves in the slot when it raises is not modelled: nobody
reads the slot before it is written again.
mirrors mpsc-event-pipeline-kata/python/src/weir/spsc_ring.py:111-136 -/
def BytesRing.try_push (r : BytesRing) (e : Fields) : Option Bool × BytesRing :=
  let t := r.tail
  let r := if t - r.cached_head = r.cap then { r with cached_head := r.head } else r
  if t - r.cached_head = r.cap then (some false, r)
  else
    match e.pack.bind (blit r.buf ((t &&& r.mask) * EVENT_SIZE)) with
    | none => (none, r)
    | some buf => (some true, { r with buf := buf, tail := t + 1 })

/-- mirrors mpsc-event-pipeline-kata/python/src/weir/spsc_ring.py:138-140 -/
def BytesRing.producer_size_hint (r : BytesRing) : Nat := r.tail - r.cached_head

/-- mirrors mpsc-event-pipeline-kata/python/src/weir/spsc_ring.py:144-197 -/
def BytesRing.pop_into (r : BytesRing) (stage : Bytes) (offset_events max_items : Nat) :
    Option Nat × Bytes × BytesRing :=
  let h := r.head
  let r := if h = r.cached_tail then { r with cached_tail := r.tail } else r
  if h = r.cached_tail then (some 0, stage, r)
  else
    let n := if max_items < r.cached_tail - h then max_items else r.cached_tail - h
    let start := h &&& r.mask
    let run := r.cap - start
    let dst := offset_events * EVENT_SIZE
    if n ≤ run then
      match blit stage dst (slice r.buf (start * EVENT_SIZE) ((start + n) * EVENT_SIZE)) with
      | none => (none, stage, r)
      | some stage => (some n, stage, { r with head := h + n })
    else
      let first := run * EVENT_SIZE
      match blit stage dst (slice r.buf (start * EVENT_SIZE) (r.cap * EVENT_SIZE)) with
      | none => (none, stage, r)
      | some stage =>
        match blit stage (dst + first) (slice r.buf 0 ((n - run) * EVENT_SIZE)) with
        | none => (none, stage, r)
        | some stage => (some n, stage, { r with head := h + n })

/-- mirrors mpsc-event-pipeline-kata/python/src/weir/spsc_ring.py:205-214 -/
def BytesRing.size_now (r : BytesRing) : Nat := r.tail - r.head

def bytes : Backend BytesRing :=
  ⟨BytesRing.try_push, BytesRing.producer_size_hint, BytesRing.pop_into, BytesRing.size_now⟩

/-! ## DequeRing -/

/-- mirrors mpsc-event-pipeline-kata/python/src/weir/spsc_ring.py:235-240 -/
structure DequeRing where
  d : List Fields
  cap : Nat
  deriving DecidableEq, Repr

/-- mirrors mpsc-event-pipeline-kata/python/src/weir/spsc_ring.py:237-240 -/
def DequeRing.new (capacity : Nat) : DequeRing := ⟨[], capacity⟩

/-- mirrors mpsc-event-pipeline-kata/python/src/weir/spsc_ring.py:242-247 -/
def DequeRing.try_push (r : DequeRing) (e : Fields) : Option Bool × DequeRing :=
  if r.d.length ≥ r.cap then (some false, r) else (some true, { r with d := r.d ++ [e] })

/-- mirrors mpsc-event-pipeline-kata/python/src/weir/spsc_ring.py:249-250 -/
def DequeRing.producer_size_hint (r : DequeRing) : Nat := r.d.length

/-- The loop from `i` on, with `n` turns to go.
mirrors mpsc-event-pipeline-kata/python/src/weir/spsc_ring.py:264-269 -/
def DequeRing.popFrom (stage : Bytes) (base i : Nat) :
    Nat → List Fields → Option Nat × Bytes × List Fields
  | 0, d => (some i, stage, d)
  | _ + 1, [] => (some i, stage, [])
  | n + 1, e :: d =>
    match e.pack.bind (blit stage (base + i * EVENT_SIZE)) with
    | none => (none, stage, d)
    | some stage => DequeRing.popFrom stage base (i + 1) n d

/-- mirrors mpsc-event-pipeline-kata/python/src/weir/spsc_ring.py:252-270 -/
def DequeRing.pop_into (r : DequeRing) (stage : Bytes) (offset_events max_items : Nat) :
    Option Nat × Bytes × DequeRing :=
  let n := if max_items < r.d.length then max_items else r.d.length
  let (k, stage, d) := DequeRing.popFrom stage (offset_events * EVENT_SIZE) 0 n r.d
  (k, stage, { r with d := d })

/-- mirrors mpsc-event-pipeline-kata/python/src/weir/spsc_ring.py:275-276 -/
def DequeRing.size_now (r : DequeRing) : Nat := r.d.length

def deque : Backend DequeRing :=
  ⟨DequeRing.try_push, DequeRing.producer_size_hint, DequeRing.pop_into, DequeRing.size_now⟩

/-! ## A bounded queue of records -/

/-- The ring keeps a queue of at most `cap` records; `Holds r q`: it holds those
of `q`. A pop may take fewer records than there are, but takes one if it can. -/
structure Keeps {R : Type} (B : Backend R) (cap : Nat) (Holds : R → List Bytes → Prop) : Prop where
  fits : ∀ {r q}, Holds r q → q.length ≤ cap
  uniform : ∀ {r q}, Holds r q → Uniform EVENT_SIZE q
  size : ∀ {r q}, Holds r q → B.size_now r = q.length
  full : ∀ {r q} (e : Fields), Holds r q → q.length = cap →
    ∃ r', B.try_push r e = (some false, r') ∧ Holds r' q
  room : ∀ {r q} {e : Fields} {b : Bytes}, Holds r q → q.length < cap → e.pack = some b →
    ∃ r', B.try_push r e = (some true, r') ∧ Holds r' (q ++ [b])
  pop : ∀ {r q} {stage : Bytes} {offset max : Nat}, Holds r q →
    (offset + max) * EVENT_SIZE ≤ stage.length →
    ∃ n stage' r', B.pop_into r stage offset max = (some n, stage', r') ∧
      blit stage (offset * EVENT_SIZE) (q.take n).flatten = some stage' ∧
      n ≤ q.length ∧ n ≤ max ∧ (n = 0 → q = [] ∨ max = 0) ∧ Holds r' (q.drop n)

/-- A ring with room raises on arguments that do not fit a record, and keeps what
it holds. -/
def Refuses {R : Type} (B : Backend R) (cap : Nat) (Holds : R → List Bytes → Prop) : Prop :=
  ∀ {r q} {e : Fields}, Holds r q → q.length < cap → e.pack = none →
    ∃ r', B.try_push r e = (none, r') ∧ Holds r' q

/-- A ring with room takes them. -/
def Takes {R : Type} (B : Backend R) (cap : Nat) (Holds : R → List Bytes → Prop) : Prop :=
  ∀ {r q} {e : Fields}, Holds r q → q.length < cap → e.pack = none →
    ∃ r', B.try_push r e = (some true, r')

variable {cap : Nat} {q : List Bytes} {e : Fields} {b : Bytes}

/-- The indices are in order, and the slots from `head` on are the records. -/
structure BytesRing.Cells (cap : Nat) (r : BytesRing) (q cells : List Bytes) : Prop where
  capacity : r.cap = cap
  mask : r.mask = cap - 1
  buf : r.buf = cells.flatten
  count : cells.length = cap
  uniform : Uniform EVENT_SIZE cells
  cached_head : r.cached_head ≤ r.head
  head : r.head ≤ r.cached_tail
  cached_tail : r.cached_tail ≤ r.tail
  tail : r.tail ≤ r.cached_head + cap
  size : q.length = r.tail - r.head
  held : ∀ i < q.length, q[i]? = cells[(r.head + i) % cap]?

def BytesRing.Holds (cap : Nat) (r : BytesRing) (q : List Bytes) : Prop :=
  ∃ cells, BytesRing.Cells cap r q cells

/-- A capacity that `BytesRing` accepts. -/
structure Capacity (cap : Nat) : Prop where
  two_le : 2 ≤ cap
  pow : cap &&& (cap - 1) = 0

theorem Capacity.and_mask (hc : Capacity cap) (i : Nat) : i &&& (cap - 1) = i % cap := by
  have hne : cap ≠ 0 := fun h => absurd hc.two_le (by omega)
  obtain ⟨k, rfl⟩ := (Nat.and_sub_one_eq_zero_iff_isPowerOfTwo hne).mp hc.pow
  exact Nat.and_two_pow_sub_one_eq_mod _ _

section bytes
variable {r : BytesRing} {cells : List Bytes}

theorem BytesRing.Cells.see_head (h : BytesRing.Cells cap r q cells) :
    BytesRing.Cells cap { r with cached_head := r.head } q cells := by
  have := h.cached_head
  have := h.tail
  exact { h with cached_head := Nat.le_refl _, tail := by dsimp only; omega }

theorem BytesRing.Cells.see_tail (h : BytesRing.Cells cap r q cells) :
    BytesRing.Cells cap { r with cached_tail := r.tail } q cells :=
  { h with head := Nat.le_trans h.head h.cached_tail, cached_tail := Nat.le_refl _ }

/-- A record published in the slot at `tail`. -/
theorem BytesRing.Cells.publish (h : BytesRing.Cells cap r q cells) (hb : b.length = EVENT_SIZE)
    (hs : r.tail - r.cached_head < cap) :
    BytesRing.Cells cap { r with buf := (cells.set (r.tail % cap) b).flatten, tail := r.tail + 1 }
      (q ++ [b]) (cells.set (r.tail % cap) b) := by
  have hch := h.cached_head
  have hh := h.head
  have hct := h.cached_tail
  have hsize := h.size
  refine { h with
    buf := rfl
    count := by rw [List.length_set, h.count]
    uniform := h.uniform.set _ hb
    cached_tail := by dsimp only; omega
    tail := by dsimp only; omega
    size := by dsimp only; rw [List.length_append, List.length_singleton]; omega
    held := fun i hi => ?_ }
  rw [List.length_append, List.length_singleton] at hi
  dsimp only
  by_cases hlast : i = q.length
  · subst hlast
    have hat : r.head + q.length = r.tail := by omega
    rw [hat, List.getElem?_concat_length, List.getElem?_set_self]
    rw [h.count]
    exact Nat.mod_lt _ (by omega)
  · have hne : r.tail % cap ≠ (r.head + i) % cap := by
      intro heq
      have hdvd := (Nat.modEq_iff_dvd' (by omega)).mp (Nat.ModEq.symm heq)
      have := Nat.le_of_dvd (by omega) hdvd
      omega
    rw [List.getElem?_append_left (by omega), List.getElem?_set_ne hne]
    exact h.held i (by omega)

theorem BytesRing.Cells.length_le (h : BytesRing.Cells cap r q cells) : q.length ≤ cap := by
  have := h.cached_head
  have := h.tail
  have := h.size
  omega

theorem BytesRing.Cells.records (h : BytesRing.Cells cap r q cells) : Uniform EVENT_SIZE q := by
  intro b hb
  obtain ⟨i, hi⟩ := List.mem_iff_getElem?.mp hb
  obtain ⟨hlt, -⟩ := List.getElem?_eq_some_iff.mp hi
  exact h.uniform b (List.mem_of_getElem? ((h.held i hlt).symm.trans hi))

/-- The oldest records lie in one piece, up to the end of the buffer. -/
theorem BytesRing.Cells.take_plain (h : BytesRing.Cells cap r q cells) {n : Nat}
    (hn : n ≤ q.length) (hrun : n ≤ cap - r.head % cap) :
    (cells.drop (r.head % cap)).take n = q.take n := by
  refine List.ext_getElem? fun i => ?_
  rw [List.getElem?_take, List.getElem?_take]
  split
  · rename_i hi
    have hmod : (r.head + i) % cap = r.head % cap + i := by
      rw [← Nat.mod_add_mod, Nat.mod_eq_of_lt (by omega)]
    rw [List.getElem?_drop, h.held i (by omega), hmod]
  · rfl

/-- Or in two, the second from the beginning of the buffer. -/
theorem BytesRing.Cells.take_wrapped (h : BytesRing.Cells cap r q cells) {n : Nat}
    (hn : n ≤ q.length) (hrun : cap - r.head % cap < n) :
    cells.drop (r.head % cap) ++ cells.take (n - (cap - r.head % cap)) = q.take n := by
  have hpos : 0 < cap := Nat.lt_of_lt_of_le (by omega : 0 < q.length) h.length_le
  have hstart := Nat.mod_lt r.head hpos
  have hle := h.length_le
  refine List.ext_getElem? fun i => ?_
  rw [List.getElem?_append, List.length_drop, h.count, List.getElem?_take]
  split
  · have hmod : (r.head + i) % cap = r.head % cap + i := by
      rw [← Nat.mod_add_mod, Nat.mod_eq_of_lt (by omega)]
    rw [List.getElem?_take, if_pos (by omega), List.getElem?_drop, h.held i (by omega), hmod]
  · rw [List.getElem?_take]
    split
    · have hmod : (r.head + i) % cap = i - (cap - r.head % cap) := by
        rw [← Nat.mod_add_mod, Nat.mod_eq_sub_mod (by omega), Nat.mod_eq_of_lt (by omega)]
        omega
      rw [if_pos (by omega), h.held i (by omega), hmod]
    · rw [if_neg (by omega)]

/-- The oldest records are released. -/
theorem BytesRing.Cells.release (h : BytesRing.Cells cap r q cells) {n : Nat}
    (hn : n ≤ r.cached_tail - r.head) :
    BytesRing.Cells cap { r with head := r.head + n } (q.drop n) cells := by
  have hch := h.cached_head
  have hh := h.head
  have hct := h.cached_tail
  have hsize := h.size
  refine { h with
    cached_head := by dsimp only; omega
    head := by dsimp only; omega
    size := by dsimp only; rw [List.length_drop]; omega
    held := fun i hi => ?_ }
  rw [List.length_drop] at hi
  rw [List.getElem?_drop, h.held _ (by omega), Nat.add_assoc]

theorem slice_flatten {l : List Bytes} (h : Uniform EVENT_SIZE l) (i j : Nat) :
    slice l.flatten (i * EVENT_SIZE) (j * EVENT_SIZE) = ((l.drop i).take (j - i)).flatten := by
  unfold slice
  rw [h.drop_flatten, ← Nat.sub_mul, (h.drop i).take_flatten]

theorem BytesRing.try_push_full (e : Fields) (h : BytesRing.Cells cap r q cells)
    (hq : q.length = cap) :
    ∃ r', r.try_push e = (some false, r') ∧ BytesRing.Cells cap r' q cells := by
  have hch := h.cached_head
  have htail := h.tail
  have hsize := h.size
  have hcap := h.capacity
  have hfull : r.tail - r.cached_head = r.cap := by omega
  refine ⟨_, ?_, h.see_head⟩
  unfold BytesRing.try_push
  simp only [if_pos hfull]
  rw [if_pos (by omega)]

/-- What a push with room works on: the index it sees is not a lap behind. -/
theorem BytesRing.try_push_room (e : Fields) (h : BytesRing.Cells cap r q cells)
    (hq : q.length < cap) :
    ∃ r', r.tail = r'.tail ∧ r'.tail - r'.cached_head < cap ∧ BytesRing.Cells cap r' q cells ∧
      r.try_push e = match e.pack.bind (blit r'.buf ((r'.tail &&& r'.mask) * EVENT_SIZE)) with
        | none => (none, r')
        | some buf => (some true, { r' with buf := buf, tail := r'.tail + 1 }) := by
  have htail := h.tail
  have hsize := h.size
  have hcap := h.capacity
  by_cases hfull : r.tail - r.cached_head = r.cap
  · refine ⟨{ r with cached_head := r.head }, rfl, by dsimp only; omega, h.see_head, ?_⟩
    unfold BytesRing.try_push
    simp only [if_pos hfull]
    rw [if_neg (by omega)]
  · refine ⟨r, rfl, by omega, h, ?_⟩
    unfold BytesRing.try_push
    simp only [if_neg hfull]

theorem BytesRing.try_push_fits (hc : Capacity cap) (h : BytesRing.Cells cap r q cells)
    (hq : q.length < cap) (he : e.pack = some b) :
    ∃ r', r.try_push e = (some true, r') ∧ BytesRing.Holds cap r' (q ++ [b]) := by
  obtain ⟨r', -, hroom, h', heq⟩ := BytesRing.try_push_room e h hq
  have hb := length_pack he
  have hslot : r'.tail % cap < cells.length := by
    rw [h'.count]
    exact Nat.mod_lt _ (by omega)
  have hbuf : e.pack.bind (blit r'.buf ((r'.tail &&& r'.mask) * EVENT_SIZE)) =
      some (cells.set (r'.tail % cap) b).flatten := by
    rw [he, Option.bind_some, h'.mask, hc.and_mask, h'.buf, h'.uniform.blit_set hb hslot]
  rw [hbuf] at heq
  exact ⟨_, heq, _, h'.publish hb hroom⟩

theorem bytes_refuses : Refuses bytes cap (BytesRing.Holds cap) := by
  rintro r q e ⟨cells, h⟩ hq he
  obtain ⟨r', -, -, h', heq⟩ := BytesRing.try_push_room e h hq
  rw [he] at heq
  exact ⟨r', heq, cells, h'⟩

/-- What a pop with something to take works on. -/
theorem BytesRing.pop_into_sees (h : BytesRing.Cells cap r q cells) (hq : q ≠ []) :
    ∃ r', r.head = r'.head ∧ r'.head < r'.cached_tail ∧ BytesRing.Cells cap r' q cells ∧
      (if r.head = r.cached_tail then { r with cached_tail := r.tail } else r) = r' := by
  have hh := h.head
  have hct := h.cached_tail
  have hlen := List.length_pos_iff.mpr hq
  have hsize := h.size
  by_cases hempty : r.head = r.cached_tail
  · exact ⟨{ r with cached_tail := r.tail }, rfl, by dsimp only; omega, h.see_tail, if_pos hempty⟩
  · exact ⟨r, rfl, by omega, h, if_neg hempty⟩

theorem BytesRing.pop_into_empty (h : BytesRing.Cells cap r [] cells) (stage : Bytes)
    (offset max : Nat) :
    ∃ r', r.pop_into stage offset max = (some 0, stage, r') ∧ BytesRing.Cells cap r' [] cells := by
  have hh := h.head
  have hct := h.cached_tail
  have hsize : 0 = r.tail - r.head := h.size
  have hempty : r.head = r.cached_tail := by omega
  refine ⟨_, ?_, h.see_tail⟩
  unfold BytesRing.pop_into
  simp only [if_pos hempty]
  rw [if_pos (by omega)]

theorem BytesRing.pop_into_spec (hc : Capacity cap) (h : BytesRing.Cells cap r q cells)
    {stage : Bytes} {offset max : Nat} (hfit : (offset + max) * EVENT_SIZE ≤ stage.length) :
    ∃ n stage' r', r.pop_into stage offset max = (some n, stage', r') ∧
      blit stage (offset * EVENT_SIZE) (q.take n).flatten = some stage' ∧
      n ≤ q.length ∧ n ≤ max ∧ (n = 0 → q = [] ∨ max = 0) ∧ BytesRing.Holds cap r' (q.drop n) := by
  rw [Nat.add_mul] at hfit
  by_cases hq : q = []
  · subst hq
    obtain ⟨r', hr, h'⟩ := BytesRing.pop_into_empty h stage offset max
    exact ⟨0, stage, r', hr, blit_nil (by omega), Nat.le_refl _, Nat.zero_le _, fun _ => .inl rfl,
      cells, h'⟩
  obtain ⟨r', hhead, hlt, h', hsee⟩ := BytesRing.pop_into_sees h hq
  obtain ⟨n, hn⟩ : ∃ n, n = if max < r'.cached_tail - r'.head then max
    else r'.cached_tail - r'.head := ⟨_, rfl⟩
  have hnmax : n ≤ max ∧ n ≤ r'.cached_tail - r'.head ∧ (n = 0 → max = 0) := by
    split at hn <;> omega
  obtain ⟨hnm, hnt, hn0⟩ := hnmax
  have hct := h'.cached_tail
  have hsize := h'.size
  have hnq : n ≤ q.length := by omega
  have hlen := (h.records.take n).length_flatten
  rw [List.length_take_of_le hnq] at hlen
  have hle : n * EVENT_SIZE ≤ max * EVENT_SIZE := Nat.mul_le_mul_right _ hnm
  obtain ⟨stage', hstage⟩ := exists_blit (m := stage) (i := offset * EVENT_SIZE)
    (b := (q.take n).flatten) (by omega)
  refine ⟨n, stage', { r' with head := r'.head + n }, ?_, hstage, hnq, hnm,
    fun h0 => .inr (hn0 h0), cells, h'.release hnt⟩
  unfold BytesRing.pop_into
  dsimp only
  rw [hsee, hhead, if_neg (Nat.ne_of_lt hlt), ← hn, h'.capacity, h'.mask, hc.and_mask, h'.buf]
  split
  · rename_i hrun
    rw [slice_flatten h'.uniform, Nat.add_sub_cancel_left, h'.take_plain hnq hrun, hstage]
  · rename_i hrun
    have hwrap := h'.take_wrapped hnq (Nat.lt_of_not_le hrun)
    have hfirst : slice cells.flatten (r'.head % cap * EVENT_SIZE) (cap * EVENT_SIZE) =
        (cells.drop (r'.head % cap)).flatten := by
      rw [slice_flatten h'.uniform, List.take_of_length_le]
      rw [List.length_drop, h'.count]
    have hsecond : slice cells.flatten 0 ((n - (cap - r'.head % cap)) * EVENT_SIZE) =
        (cells.take (n - (cap - r'.head % cap))).flatten := by
      rw [← Nat.zero_mul EVENT_SIZE, slice_flatten h'.uniform, List.drop_zero, Nat.sub_zero]
    have hrunlen := (h'.uniform.drop (r'.head % cap)).length_flatten
    rw [List.length_drop, h'.count] at hrunlen
    have hrunle : (cap - r'.head % cap) * EVENT_SIZE ≤ n * EVENT_SIZE :=
      Nat.mul_le_mul_right _ (by omega)
    obtain ⟨stage₁, hstage₁⟩ := exists_blit (m := stage) (i := offset * EVENT_SIZE)
      (b := (cells.drop (r'.head % cap)).flatten) (by omega)
    rw [hfirst, hstage₁]
    dsimp only
    rw [← hrunlen, blit_blit hstage₁, hsecond, ← List.flatten_append, hwrap, hstage]

theorem bytes_keeps (hc : Capacity cap) : Keeps bytes cap (BytesRing.Holds cap) where
  fits := fun ⟨_, h⟩ => h.length_le
  uniform := fun ⟨_, h⟩ => h.records
  size := fun ⟨_, h⟩ => h.size.symm
  full := fun e ⟨cells, h⟩ hq =>
    let ⟨r', hr, h'⟩ := BytesRing.try_push_full e h hq
    ⟨r', hr, cells, h'⟩
  room := fun ⟨_, h⟩ hq he => BytesRing.try_push_fits hc h hq he
  pop := fun ⟨_, h⟩ hfit => BytesRing.pop_into_spec hc h hfit

theorem BytesRing.new_spec {r : BytesRing} (h : BytesRing.new cap = some r) :
    Capacity cap ∧ BytesRing.Holds cap r [] := by
  unfold BytesRing.new at h
  split at h
  · cases h
  · rename_i hcap
    have hcap : 2 ≤ cap ∧ cap &&& (cap - 1) = 0 := by
      rw [not_or, not_not] at hcap
      exact ⟨by omega, hcap.2⟩
    cases h
    refine ⟨⟨hcap.1, hcap.2⟩, List.replicate cap (List.replicate EVENT_SIZE 0), ?_⟩
    exact {
      capacity := rfl
      mask := rfl
      buf := List.flatten_replicate_replicate.symm
      count := List.length_replicate
      uniform := fun r hr => by rw [List.eq_of_mem_replicate hr, List.length_replicate]
      cached_head := Nat.le_refl _
      head := Nat.le_refl _
      cached_tail := Nat.le_refl _
      tail := Nat.zero_le _
      size := rfl
      held := fun i hi => absurd hi (Nat.not_lt_zero i) }

end bytes

section deque
variable {r : DequeRing}

/-- What has been pushed packs to the records. -/
structure DequeRing.Holds (cap : Nat) (r : DequeRing) (q : List Bytes) : Prop where
  capacity : r.cap = cap
  fits : r.d.length ≤ cap
  packs : r.d.map Fields.pack = q.map some

theorem DequeRing.Holds.size (h : DequeRing.Holds cap r q) : r.d.length = q.length := by
  have hlen := congrArg List.length h.packs
  rwa [List.length_map, List.length_map] at hlen

theorem DequeRing.popFrom_spec (stage : Bytes) (base i : Nat) {n : Nat} {d : List Fields}
    (hd : d.map Fields.pack = q.map some) (hn : n ≤ q.length)
    (hfit : base + (i + n) * EVENT_SIZE ≤ stage.length) :
    ∃ stage', DequeRing.popFrom stage base i n d = (some (i + n), stage', d.drop n) ∧
      blit stage (base + i * EVENT_SIZE) (q.take n).flatten = some stage' := by
  induction n generalizing stage i d q with
  | zero => exact ⟨stage, rfl, blit_nil hfit⟩
  | succ n ih =>
    cases q with
    | nil => exact absurd hn (Nat.not_succ_le_zero n)
    | cons b q =>
      obtain ⟨e, d, rfl, he, hd⟩ := List.map_eq_cons_iff.mp hd
      have hb := length_pack he
      have hnext : base + i * EVENT_SIZE + b.length = base + (i + 1) * EVENT_SIZE := by
        rw [hb, Nat.add_assoc, ← Nat.succ_mul]
      have hle : (i + 1) * EVENT_SIZE ≤ (i + (n + 1)) * EVENT_SIZE :=
        Nat.mul_le_mul_right _ (by omega)
      obtain ⟨stage₁, h₁⟩ := exists_blit (m := stage) (i := base + i * EVENT_SIZE) (b := b)
        (by omega)
      have hturns : i + 1 + n = i + (n + 1) := by omega
      obtain ⟨stage', hpop, hblit⟩ := ih stage₁ (i + 1) hd
        (Nat.le_of_succ_le_succ hn) (by rwa [length_blit h₁, hturns])
      refine ⟨stage', ?_, ?_⟩
      · unfold DequeRing.popFrom
        rw [he, Option.bind_some, h₁]
        dsimp only
        rw [hpop, hturns, List.drop_succ_cons]
      · rw [List.take_succ_cons, List.flatten_cons, ← blit_blit h₁, hnext, hblit]

theorem deque_takes : Takes deque cap (DequeRing.Holds cap) := by
  intro r q e h hq _
  have hcap := h.capacity
  have hsize := h.size
  exact ⟨_, if_neg (by omega)⟩

theorem deque_keeps : Keeps deque cap (DequeRing.Holds cap) where
  fits h := h.size ▸ h.fits
  uniform h := uniform_pack h.packs
  size h := h.size
  full {r} _ _ h hq := by
    have hcap := h.capacity
    have hsize := h.size
    exact ⟨r, if_pos (by omega), h⟩
  room {r} _ e _ h hq he := by
    have hcap := h.capacity
    have hsize := h.size
    refine ⟨{ r with d := r.d ++ [e] }, if_neg (by omega), hcap, ?_, ?_⟩
    · dsimp only
      rw [List.length_append, List.length_singleton]
      omega
    · dsimp only
      rw [List.map_append, List.map_append, h.packs, List.map_singleton, he, List.map_singleton]
  pop {r q stage offset max} h hfit := by
    have hsize := h.size
    obtain ⟨n, hn⟩ : ∃ n, n = if max < r.d.length then max else r.d.length := ⟨_, rfl⟩
    have hle : n ≤ max ∧ n ≤ q.length ∧ (n = 0 → q.length = 0 ∨ max = 0) := by
      split at hn <;> omega
    obtain ⟨hnm, hnq, hn0⟩ := hle
    rw [Nat.add_mul] at hfit
    have hmul : (0 + n) * EVENT_SIZE ≤ max * EVENT_SIZE := Nat.mul_le_mul_right _ (by omega)
    obtain ⟨stage', hpop, hblit⟩ := DequeRing.popFrom_spec stage (offset * EVENT_SIZE) 0 h.packs hnq
      (by omega)
    rw [Nat.zero_add] at hpop
    rw [Nat.zero_mul, Nat.add_zero] at hblit
    refine ⟨n, stage', { r with d := r.d.drop n }, ?_, hblit, hnq, hnm,
      fun h0 => (hn0 h0).imp_left List.length_eq_zero_iff.mp, h.capacity, ?_, ?_⟩
    · show DequeRing.pop_into r stage offset max = _
      unfold DequeRing.pop_into
      dsimp only
      rw [← hn, hpop]
    · dsimp only
      rw [List.length_drop]
      have := h.fits
      omega
    · dsimp only
      rw [List.map_drop, List.map_drop, h.packs]

theorem DequeRing.new_spec : DequeRing.Holds cap (DequeRing.new cap) [] :=
  ⟨rfl, Nat.zero_le _, rfl⟩

end deque
end Katas.Weir.PythonRings
