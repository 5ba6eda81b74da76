import Katas.Core.Mixing
import Katas.Weir.Drain
import Katas.Weir.Wire

/-!
# The counting sink

What `CountingSink` makes of the batches that the consumer's scans hand it: its
byte count is what the accounting is verified by, and its checksum is there so
that the batch has to be produced. `sink_accounts`: whatever is pushed between
the scans, the bytes are those of the events consumed and of those the hook saw.
`checksum_samples`: the checksum looks at no more than 63 words of a batch, and
tells a change in one word if it is one of these, and only then.

`write` is the same in C++ and in Go; on a little-endian host, so is a word.
-/
namespace Katas.Weir
open Katas.Mixing

/-! ## The sink -/

/-- mirrors mpsc-event-pipeline-kata/cpp/src/sink.hpp:75-77 and
go/internal/weir/sink.go:66-70 -/
structure CountingSink where
  checksum_ : UInt64
  bytes_ : UInt64
  batches_ : UInt64

namespace CountingSink

def init : CountingSink := ⟨0xcbf29ce484222325, 0, 0⟩

/-- mirrors mpsc-event-pipeline-kata/cpp/src/sink.hpp:62-63 and
go/internal/weir/sink.go:84 -/
def word (b : Bytes) (i : Nat) : UInt64 := .ofNat (leNat ((b.drop (i * 8)).take 8))

/-- mirrors mpsc-event-pipeline-kata/cpp/src/sink.hpp:60 and
go/internal/weir/sink.go:79-82 -/
def stride (words : Nat) : Nat := max 1 (words / 32)

theorem stride_pos (words : Nat) : 0 < stride words :=
  Nat.lt_of_lt_of_le Nat.one_pos (Nat.le_max_left ..)

/-- The loop from the word `i` on.
mirrors mpsc-event-pipeline-kata/cpp/src/sink.hpp:61-65 and
go/internal/weir/sink.go:83-85 -/
def loop (b : Bytes) (words i : Nat) (h : UInt64) : UInt64 :=
  if i < words then loop b words (i + stride words) ((h ^^^ word b i) * fnv) else h
termination_by words - i
decreasing_by
  have := stride_pos words
  omega

/-- mirrors mpsc-event-pipeline-kata/cpp/src/sink.hpp:57-69 and
go/internal/weir/sink.go:76-89 -/
def write (s : CountingSink) (b : Bytes) : CountingSink :=
  ⟨loop b (b.length / 8) 0 (s.checksum_ ^^^ .ofNat b.length), s.bytes_ + .ofNat b.length,
    s.batches_ + 1⟩

/-- The sink after the batches that were handed to it. -/
def after (batches : List Bytes) : CountingSink := batches.foldl write init

end CountingSink

/-! ## What is handed over between the scans -/

namespace Drain
open SpscRing Katas.Conc
open Katas.Weir.Pipeline (SlotState)

section
variable {T : Type} {c : Capacity}

/-- What the consumer has been given, written or staged. -/
def Consumer.given (p : Consumer T c) : List T := p.written.flatten ++ p.staged

/-- The counts of the consumer, in a `drain_ring` that has taken `got` events. -/
structure Accounted (size got : Nat) (p : Consumer T c) : Prop where
  room : p.staged.length ≤ size
  consumed : p.consumed + .ofNat got = .ofNat p.given.length
  hooked : p.hook = true → p.hooked = p.given
  batches : ∀ b ∈ p.written, 0 < b.length ∧ b.length ≤ size

variable {size got i : Nat} {p : Consumer T c}

theorem flush_given (p : Consumer T c) : (flush p).given = p.given := by
  unfold flush Consumer.given
  split
  · rfl
  · rw [List.flatten_append, List.flatten_singleton, List.append_nil]

theorem Accounted.flush (h : Accounted size got p) : Accounted size got (flush p) := by
  have hgiven := flush_given p
  unfold Drain.flush at hgiven ⊢
  split
  · exact h
  · rename_i hne
    rw [if_neg hne] at hgiven
    refine ⟨Nat.zero_le _, ?_, fun hh => (h.hooked hh).trans hgiven.symm, fun b hb => ?_⟩
    · rw [hgiven]
      exact h.consumed
    · obtain hb | hb := List.mem_append.mp hb
      · exact h.batches b hb
      · rw [List.mem_singleton.mp hb]
        exact ⟨List.length_pos_iff.mpr hne, h.room⟩

theorem Accounted.makeRoom (h : Accounted size got p) : Accounted size got (makeRoom size p) := by
  unfold Drain.makeRoom
  split
  · exact h.flush
  · exact h

theorem popBatch_le (r : Ring T c) (max : BitVec 64) : (popBatch r max).1.length ≤ max.toNat := by
  have hcopied : ∀ (r : Ring T c) (h avail : BitVec 64),
      (copied r h (batch max avail)).length ≤ max.toNat := by
    intro r h avail
    unfold copied
    rw [List.length_map, List.length_range]
    unfold batch
    split
    · rename_i hlt
      exact Nat.le_of_lt (BitVec.lt_def.mp hlt)
    · exact Nat.le_refl _
  unfold popBatch
  dsimp only
  split
  · split
    · exact Nat.zero_le _
    · exact hcopied ..
  · exact hcopied ..

theorem Accounted.take (h : Accounted size got p) (r : Nat → Ring T c) (out : List T)
    (hroom : p.staged.length + out.length ≤ size) :
    Accounted size (got + out.length) { p with
      ring := r, hooked := if p.hook then p.hooked ++ out else p.hooked,
      staged := p.staged ++ out } := by
  have hgiven : Consumer.given { p with
      ring := r, hooked := if p.hook then p.hooked ++ out else p.hooked,
      staged := p.staged ++ out } = p.given ++ out := (List.append_assoc ..).symm
  refine ⟨?_, ?_, fun hh => ?_, h.batches⟩
  · show (p.staged ++ out).length ≤ size
    rwa [List.length_append]
  · rw [hgiven, List.length_append, UInt64.ofNat_add, UInt64.ofNat_add, ← UInt64.add_assoc,
      h.consumed]
  · have hh : p.hook = true := hh
    rw [hgiven]
    show (if p.hook then p.hooked ++ out else p.hooked) = _
    rw [if_pos hh, h.hooked hh]

theorem makeRoom_nil (hs : p.staged = []) : (makeRoom size p).staged = [] := by
  unfold Drain.makeRoom
  split
  · exact flush_staged p
  · exact hs

/-- The loop keeps the books, and takes nothing only if it leaves nothing staged
that was not. -/
theorem Accounted.loop (h : Accounted size got p) :
    Accounted size (drainLoop size i p got).2 (drainLoop size i p got).1 ∧
      got ≤ (drainLoop size i p got).2 ∧
      ((drainLoop size i p got).2 = got → p.staged = [] → (drainLoop size i p got).1.staged =
        []) := by
  induction hm : kDrainBatch - got using Nat.strongRecOn generalizing p got with
  | ind m ih =>
    subst hm
    by_cases hlt : got < kDrainBatch
    · obtain ⟨out, r', hpop⟩ : ∃ out r', popBatch ((Drain.makeRoom size p).ring i)
          (.ofNat 64 (min (size - (Drain.makeRoom size p).staged.length) (kDrainBatch - got))) =
            (out, r') := ⟨_, _, rfl⟩
      have hmake := h.makeRoom
      have hbatch : kDrainBatch = 512 := rfl
      have hlen := popBatch_le ((Drain.makeRoom size p).ring i)
        (.ofNat 64 (min (size - (Drain.makeRoom size p).staged.length) (kDrainBatch - got)))
      rw [hpop, toNat_ofNat (by omega)] at hlen
      dsimp only at hlen
      rw [drainLoop_round hlt hpop]
      by_cases hz : out.length = 0
      · rw [if_pos hz]
        exact ⟨⟨hmake.room, hmake.consumed, hmake.hooked, hmake.batches⟩, Nat.le_refl _,
          fun _ hs => makeRoom_nil hs⟩
      · rw [if_neg hz]
        have hroom := hmake.room
        obtain ⟨h1, h2, -⟩ := ih (kDrainBatch - (got + out.length)) (by omega)
          (hmake.take (upd (Drain.makeRoom size p).ring i r') out (by omega)) rfl
        exact ⟨h1, Nat.le_trans (Nat.le_add_right ..) h2,
          fun he => absurd (Nat.le_trans h2 (Nat.le_of_eq he)) (by omega)⟩
    · rw [drainLoop, if_neg hlt]
      exact ⟨h, Nat.le_refl _, fun _ hs => hs⟩

theorem Accounted.drainRing (h : Accounted size 0 p) (i : Nat) :
    Accounted size 0 (drainRing size i p).1 ∧
      ((drainRing size i p).2 = 0 → p.staged = [] → (drainRing size i p).1.staged = []) := by
  obtain ⟨h1, -, h3⟩ := h.loop (i := i)
  unfold Drain.drainRing
  generalize drainLoop size i p 0 = out at h1 h3
  refine ⟨⟨h1.room, ?_, h1.hooked, h1.batches⟩, h3⟩
  show out.1.consumed + .ofNat out.2 + 0 = _
  rw [UInt64.add_zero]
  exact h1.consumed

/-! ## Whole scans -/

/-- The books of a scan: one that has taken nothing leaves nothing staged. -/
def Scan.Accounted (size : Nat) (x : Scan T c) : Prop :=
  Drain.Accounted size 0 x.pipe ∧ (x.total = 0 → x.pipe.staged = [])

variable {x : Scan T c}

theorem Scan.Accounted.visit (h : x.Accounted size) (i : Nat) :
    (visit size x i).Accounted size := by
  obtain ⟨h1, h2⟩ := h.1.drainRing i
  refine ⟨h1, fun h0 => ?_⟩
  have h0 : x.total + (Drain.drainRing size i x.pipe).2 = 0 := h0
  exact h2 (by omega) (h.2 (by omega))

theorem Scan.Accounted.finish (h : x.Accounted size) :
    Drain.Accounted size 0 (finish x).pipe ∧ (finish x).pipe.staged = [] := by
  unfold Drain.finish
  split
  · exact ⟨h.1.flush, flush_staged _⟩
  · rename_i h0
    exact ⟨h.1, h.2 (by omega)⟩

theorem Accounted.start (h : Accounted size 0 p) (hs : p.staged = []) :
    Scan.Accounted size (⟨p, 0, [], 0⟩ : Scan T c) := ⟨h, fun _ => hs⟩

theorem fold_accounted {f : Scan T c → Nat → Scan T c}
    (hf : ∀ x k, Scan.Accounted size x → (f x k).Accounted size) (l : List Nat)
      (h : x.Accounted size) :
    (l.foldl f x).Accounted size := by
  induction l generalizing x with
  | nil => exact h
  | cons k l ih => exact ih (hf x k h)

theorem Accounted.drainFull (h : Accounted size 0 p) (hs : p.staged = []) (rotate : Nat) :
    Accounted size 0 (drainFull size rotate p).pipe ∧ (drainFull size rotate p).pipe.staged =
      [] := by
  unfold Drain.drainFull
  refine (fold_accounted (fun x k hx => ?_) _ (h.start hs)).finish
  dsimp only
  split
  · exact hx
  · exact hx.visit _

theorem bitmapLoop_accounted (rotate : Nat) (m : BitVec 64) (h : x.Accounted size) :
    (bitmapLoop size rotate m x).Accounted size := by
  induction m, x using bitmapLoop.induct size rotate with
  | case1 x =>
    rw [bitmapLoop, dif_pos rfl]
    exact h
  | case2 m x hm off ih =>
    rw [bitmapLoop, dif_neg hm]
    exact ih (h.visit _)

theorem Accounted.drainBitmap (h : Accounted size 0 p) (hs : p.staged = []) (rotate : Nat) :
    Accounted size 0 (drainBitmap size rotate p).pipe ∧
      (drainBitmap size rotate p).pipe.staged = [] :=
  (bitmapLoop_accounted rotate _ (h.start hs)).finish

/-- Scans, and what happens between them: the producers push and raise bits, and
slots are registered and retired. -/
inductive DrainPass (T : Type) (c : Capacity) where
  | between (ring : Nat → Ring T c) (state : Nat → SlotState) (active : BitVec 64)
  | full (rotate : Nat)
  | bitmap (rotate : Nat)

def passes (T : Type) (c : Capacity) (size : Nat) : LTS (Consumer T c) (DrainPass T c) where
  init p := p.staged = [] ∧ p.written = [] ∧ p.hooked = [] ∧ p.consumed = 0
  step p pass p' :=
    match pass with
    | .between ring state active => p' = { p with ring := ring, state := state, active := active }
    | .full rotate => p' = (drainFull size rotate p).pipe
    | .bitmap rotate => p' = (drainBitmap size rotate p).pipe

theorem accounted_between (hp : (passes T c size).Reachable p) :
    Accounted size 0 p ∧ p.staged = [] := by
  have hind : (passes T c size).Inductive fun p => Accounted size 0 p ∧ p.staged = [] := by
    refine ⟨?_, fun p pass p' h hstep => ?_⟩
    · rintro p ⟨hs, hw, hh, hc⟩
      have hgiven : p.given = [] := by
        unfold Consumer.given
        rw [hw, hs]
        rfl
      refine ⟨⟨?_, ?_, fun _ => by rw [hh, hgiven], fun b hb => ?_⟩, hs⟩
      · rw [hs]
        exact Nat.zero_le _
      · rw [hgiven, hc]
        rfl
      · rw [hw] at hb
        cases hb
    · cases pass with
      | between ring state active =>
        obtain rfl := hstep
        exact ⟨⟨h.1.room, h.1.consumed, h.1.hooked, h.1.batches⟩, h.2⟩
      | full rotate =>
        rw [show p' = (drainFull size rotate p).pipe from hstep]
        exact h.1.drainFull h.2 rotate
      | bitmap rotate =>
        rw [show p' = (drainBitmap size rotate p).pipe from hstep]
        exact h.1.drainBitmap h.2 rotate
  exact hind.reachable p hp

end

end Drain

/-! ## The bytes -/

open Drain SpscRing Event

theorem Event.GoEvent.length_bytes (e : GoEvent) : e.bytes.length = 32 := by
  unfold GoEvent.bytes
  simp

theorem length_eventsAsBytes (ev : List GoEvent) : (EventsAsBytes ev).length = 32 * ev.length := by
  have hu : Records.Uniform 32 (ev.map GoEvent.bytes) := by
    intro r hr
    obtain ⟨e, -, rfl⟩ := List.mem_map.mp hr
    exact e.length_bytes
  rw [eventsAsBytes_eq, hu.length_flatten, List.length_map, Nat.mul_comm]

namespace CountingSink

theorem foldl_write (bs : List Bytes) (s : CountingSink) :
    (bs.foldl write s).bytes_ = s.bytes_ + .ofNat (bs.map List.length).sum ∧
      (bs.foldl write s).batches_ = s.batches_ + .ofNat bs.length := by
  induction bs generalizing s with
  | nil => exact ⟨(UInt64.add_zero _).symm, (UInt64.add_zero _).symm⟩
  | cons b bs ih =>
    obtain ⟨h1, h2⟩ := ih (s.write b)
    rw [List.foldl_cons, h1, h2, List.map_cons, List.sum_cons, List.length_cons, Nat.add_comm _ 1,
      UInt64.ofNat_add, UInt64.ofNat_add, ← UInt64.add_assoc, ← UInt64.add_assoc]
    exact ⟨rfl, rfl⟩

end CountingSink

theorem sum_eventsAsBytes (bs : List (List GoEvent)) :
    ((bs.map EventsAsBytes).map List.length).sum = 32 * bs.flatten.length := by
  induction bs with
  | nil => rfl
  | cons b bs ih =>
    rw [List.map_cons, List.map_cons, List.sum_cons, ih, length_eventsAsBytes, List.flatten_cons,
      List.length_append, Nat.mul_add]

/-- Between any two scans nothing is staged, and the sink has counted 32 bytes for
each event that the consumer has consumed, in as many batches as there were
writes, none of them empty or longer than the staging buffer, and so for each
that the hook has seen. -/
theorem sink_accounts {c : Capacity} {size : Nat} {p : Consumer GoEvent c}
    (hp : (passes GoEvent c size).Reachable p) :
    (CountingSink.after (p.written.map EventsAsBytes)).bytes_ = 32 * p.consumed ∧
      (CountingSink.after (p.written.map EventsAsBytes)).batches_ = .ofNat p.written.length ∧
      (∀ b ∈ p.written, 0 < b.length ∧ b.length ≤ size) ∧ p.staged = [] ∧
      p.consumed = .ofNat p.written.flatten.length ∧
      (p.hook = true → p.hooked = p.written.flatten) := by
  obtain ⟨hb, hs⟩ := accounted_between hp
  have hgiven : p.given = p.written.flatten := by
    unfold Consumer.given
    rw [hs, List.append_nil]
  have hc : p.consumed = .ofNat p.written.flatten.length := by
    rw [← hgiven, ← hb.consumed]
    exact (UInt64.add_zero _).symm
  obtain ⟨h1, h2⟩ := CountingSink.foldl_write (p.written.map EventsAsBytes) .init
  refine ⟨?_, ?_, hb.batches, hs, hc, fun hh => (hb.hooked hh).trans hgiven⟩
  · unfold CountingSink.after
    rw [h1, sum_eventsAsBytes, hc, UInt64.ofNat_mul]
    exact UInt64.zero_add _
  · unfold CountingSink.after
    rw [h2, List.length_map]
    exact UInt64.zero_add _

/-- One event is in each ring, and nothing has been consumed. -/
def full : Consumer GoEvent .two :=
  ⟨fun _ => ⟨1, 0, 0, 0, fun _ => ⟨1, 2, 3, .replicate 16 0⟩⟩, fun _ => .active, 0, [], true,
    [], [],
    0⟩

theorem sink_accounts_one :
    (CountingSink.after ((drainFull 4 0 full).pipe.written.map EventsAsBytes)).bytes_ =
      32 * (drainFull 4 0 full).pipe.consumed := by
  have hstep : (passes GoEvent .two 4).step full (.full 0) (drainFull 4 0 full).pipe := Eq.refl _
  exact (sink_accounts ⟨full, [.full 0], ⟨rfl, rfl, rfl, rfl⟩, .cons hstep (.nil _)⟩).1

/-! ## What the checksum looks at -/

namespace CountingSink

/-- The words that are looked at, from `i` on. -/
def sampled (words i : Nat) : List Nat :=
  if i < words then i :: sampled words (i + stride words) else []
termination_by words - i
decreasing_by
  have := stride_pos words
  omega

theorem loop_eq (b : Bytes) (words i : Nat) (h : UInt64) :
    loop b words i h = ((sampled words i).map (word b)).foldl (absorb fnv) h := by
  induction i, h using loop.induct b words with
  | case1 i h hlt ih =>
    rw [loop, if_pos hlt, sampled, if_pos hlt, ih]
    rfl
  | case2 i h hlt =>
    rw [loop, if_neg hlt, sampled, if_neg hlt]
    rfl

theorem mem_sampled {words i j : Nat} :
    j ∈ sampled words i ↔ i ≤ j ∧ j < words ∧ stride words ∣ j - i := by
  induction i using sampled.induct words with
  | case1 i hlt ih =>
    have hpos := stride_pos words
    rw [sampled, if_pos hlt, List.mem_cons, ih]
    constructor
    · rintro (rfl | ⟨hle, hj, hd⟩)
      · exact ⟨Nat.le_refl _, hlt, by rw [Nat.sub_self]; exact Nat.dvd_zero _⟩
      · refine ⟨by omega, hj, ?_⟩
        rw [show j - i = j - (i + stride words) + stride words by omega]
        exact Nat.dvd_add hd (Nat.dvd_refl _)
    · rintro ⟨hle, hj, hd⟩
      by_cases he : j = i
      · exact .inl he
      · have hge := Nat.le_of_dvd (by omega) hd
        refine .inr ⟨by omega, hj, ?_⟩
        rw [show j - (i + stride words) = j - i - stride words by omega]
        exact Nat.dvd_sub hd (Nat.dvd_refl _)
  | case2 i hlt =>
    rw [sampled, if_neg hlt]
    refine ⟨fun h => (by cases h), fun h => absurd (Nat.lt_of_le_of_lt h.1 h.2.1) hlt⟩

theorem sampled_nodup (words i : Nat) : (sampled words i).Nodup := by
  induction i using sampled.induct words with
  | case1 i hlt ih =>
    rw [sampled, if_pos hlt, List.nodup_cons]
    refine ⟨fun h => ?_, ih⟩
    have := (mem_sampled.mp h).1
    have := stride_pos words
    omega
  | case2 i hlt =>
    rw [sampled, if_neg hlt]
    exact List.nodup_nil

theorem sampled_le (words i : Nat) :
    (sampled words i).length * stride words ≤ words - i + (stride words - 1) := by
  induction i using sampled.induct words with
  | case1 i hlt ih =>
    have hpos := stride_pos words
    rw [sampled, if_pos hlt, List.length_cons, Nat.succ_mul]
    by_cases hnext : i + stride words < words
    · omega
    · have hnil : sampled words (i + stride words) = [] := by rw [sampled, if_neg hnext]
      rw [hnil]
      simp only [List.length_nil, Nat.zero_mul]
      omega
  | case2 i hlt =>
    rw [sampled, if_neg hlt, List.length_nil, Nat.zero_mul]
    exact Nat.zero_le _

theorem sampled_few (words : Nat) : (sampled words 0).length ≤ 63 := by
  have h := sampled_le words 0
  by_contra hgt
  have hmul := Nat.mul_le_mul_right (stride words) (Nat.lt_of_not_le hgt)
  unfold stride at *
  omega

/-- The checksum of one more batch tells the sinks apart that it found apart. -/
theorem write_injective (b : Bytes) :
    Function.Injective fun h : UInt64 => loop b (b.length / 8) 0 (h ^^^ .ofNat b.length) := by
  have h := (foldl_absorb fnv_inv ((sampled (b.length / 8) 0).map (word b))).comp
    (xor_injective (.ofNat b.length))
  refine fun x y he => h ?_
  show ((sampled (b.length / 8) 0).map (word b)).foldl (absorb fnv) _ =
    ((sampled (b.length / 8) 0).map (word b)).foldl (absorb fnv) _
  rw [← loop_eq, ← loop_eq]
  exact he

theorem foldl_checksum (bs : List Bytes) (s t : CountingSink) :
    (bs.foldl write s).checksum_ = (bs.foldl write t).checksum_ ↔ s.checksum_ = t.checksum_ := by
  induction bs generalizing s t with
  | nil => exact Iff.rfl
  | cons b bs ih =>
    rw [List.foldl_cons, List.foldl_cons, ih]
    exact (write_injective b).eq_iff

/-- **The checksum is a sample.** Of a batch of any length it takes in no more than
63 words, and if one word of the batch is changed, whatever is written after, it
is changed just if the word's index is a multiple of the stride. -/
theorem checksum_samples (s : CountingSink) (b : Bytes) :
    ((s.write b).checksum_ = ((sampled (b.length / 8) 0).map (word b)).foldl (absorb fnv)
        (s.checksum_ ^^^ .ofNat b.length) ∧
      (sampled (b.length / 8) 0).length ≤ 63) ∧
    ∀ (b' : Bytes) (j : Nat), b'.length = b.length → j < b.length / 8 →
      (∀ i, i < b.length / 8 → i ≠ j → word b' i = word b i) → word b' j ≠ word b j →
      ∀ bs : List Bytes,
        ((bs.foldl write (s.write b')).checksum_ ≠ (bs.foldl write (s.write b)).checksum_ ↔
          stride (b.length / 8) ∣ j) := by
  refine ⟨⟨loop_eq .., sampled_few _⟩, fun b' j hlen hj hsame hne bs => ?_⟩
  have hother : ∀ l : List Nat, (∀ i ∈ l, i ∈ sampled (b.length / 8) 0) → j ∉ l →
      l.map (word b') = l.map (word b) := by
    refine fun l hl hjl => List.map_congr_left fun i hi => ?_
    exact hsame i (mem_sampled.mp (hl i hi)).2.1 fun he => hjl (he ▸ hi)
  rw [Ne, foldl_checksum]
  unfold write
  dsimp only
  rw [hlen, loop_eq, loop_eq]
  by_cases hmem : j ∈ sampled (b.length / 8) 0
  · obtain ⟨l, m, hlm⟩ := List.append_of_mem hmem
    have hnodup := sampled_nodup (b.length / 8) 0
    rw [hlm, List.nodup_append, List.nodup_cons] at hnodup
    have hl := hother l (fun i hi => hlm ▸ List.mem_append_left _ hi)
      fun hjl => hnodup.2.2 j hjl j List.mem_cons_self rfl
    have hm := hother m (fun i hi => hlm ▸ List.mem_append_right _ (List.mem_cons_of_mem _ hi))
      hnodup.2.1.1
    rw [hlm, List.map_append, List.map_append, List.map_cons, List.map_cons, hl, hm,
      foldl_absorb_replaced fnv_inv]
    exact iff_of_true hne (mem_sampled.mp hmem).2.2
  · rw [hother _ (fun _ hi => hi) hmem]
    exact iff_of_false (fun h => h rfl) fun hd => hmem (mem_sampled.mpr ⟨Nat.zero_le _, hj, hd⟩)

/-- Of 64 words every other one is looked at; the second is not. -/
theorem checksum_samples_two : ¬
    (CountingSink.init.write (.replicate 8 1 ++ .replicate 8 0 ++ .replicate 496 1)).checksum_ ≠
      (CountingSink.init.write (.replicate 512 1)).checksum_ := by
  have h := (checksum_samples .init (.replicate 512 1)).2
    (.replicate 8 1 ++ .replicate 8 0 ++ .replicate 496 1) 1 (by decide +kernel)
    (by decide +kernel) (by decide +kernel) (by decide +kernel) []
  exact fun hne => absurd (h.mp hne) (by decide +kernel)

end CountingSink

end Katas.Weir
