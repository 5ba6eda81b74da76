import Katas.Weir.Drain
import Mathlib.Data.List.Nodup

/-!
# The two scans agree

Both scans are a fold of `visit` over rings in cyclic order from `rotate` on:
`drain_full` over those whose slot is not free, `drain_bitmap` over those whose
bit is set. A visit of an empty ring flushes a full staging buffer and does
nothing else, and a visit begins with that flush: leaving out empty rings
changes nothing up to it (`fold_skip`).
-/
namespace Katas.Weir.Drain
open Katas.Conc Katas.Weir.SpscRing
open Katas.Weir.Pipeline (SlotState)

section
variable {T : Type} {c : Capacity} {size : Nat}

/-- The rings, from `rotate` on. -/
def cyclic (rotate : Nat) : List Nat :=
  (List.range kMaxProducers).map fun k => (k + rotate) % kMaxProducers

theorem index_eq (k rotate : Nat) :
    (k + rotate) &&& (kMaxProducers - 1) = (k + rotate) % kMaxProducers :=
  Nat.and_two_pow_sub_one_eq_mod (k + rotate) 6

theorem cyclic_lt {rotate i : Nat} (h : i ∈ cyclic rotate) : i < kMaxProducers := by
  obtain ⟨k, -, rfl⟩ := List.mem_map.mp h
  exact Nat.mod_lt _ (by decide)

theorem mem_cyclic (rotate : Nat) {i : Nat} (h : i < kMaxProducers) : i ∈ cyclic rotate := by
  have h64 : kMaxProducers = 64 := rfl
  rw [h64] at h
  refine List.mem_map.mpr ⟨(i + (64 - rotate % 64)) % 64, List.mem_range.mpr ?_, ?_⟩
  · omega
  · rw [h64]
    omega

theorem cyclic_nodup (rotate : Nat) : (cyclic rotate).Nodup := by
  refine (List.nodup_map_iff_inj_on List.nodup_range).mpr fun a ha b hb hab => ?_
  have ha := List.mem_range.mp ha
  have hb := List.mem_range.mp hb
  have h64 : kMaxProducers = 64 := rfl
  rw [h64] at ha hb hab
  omega

/-! ## Scans as folds -/

theorem makeRoom_state (p : Consumer T c) : (makeRoom size p).state = p.state := by
  unfold makeRoom flush
  split
  · split <;> rfl
  · rfl

theorem drainLoop_state (i : Nat) (p : Consumer T c) (got : Nat) :
    (drainLoop size i p got).1.state = p.state := by
  induction hm : kDrainBatch - got using Nat.strongRecOn generalizing p got with
  | ind m ih =>
    by_cases hlt : got < kDrainBatch
    · obtain ⟨out, r', hpop⟩ : ∃ out r', popBatch ((makeRoom size p).ring i) (.ofNat 64
          (min (size - (makeRoom size p).staged.length) (kDrainBatch - got))) = (out, r') :=
        ⟨_, _, rfl⟩
      rw [drainLoop_round hlt hpop]
      split
      · exact makeRoom_state p
      · rename_i hn
        refine (ih _ ?_ _ _ rfl).trans (makeRoom_state p)
        omega
    · rw [drainLoop, if_neg hlt]

theorem visit_state (x : Scan T c) (i : Nat) : (visit size x i).pipe.state = x.pipe.state :=
  drainLoop_state i x.pipe 0

theorem fold_if {st : Nat → SlotState} (l : List Nat) (x : Scan T c) (hx : x.pipe.state = st) :
    l.foldl (fun x i => if x.pipe.state i = .free then x else visit size x i) x =
      (l.filter fun i => st i ≠ .free).foldl (visit size) x := by
  induction l generalizing x with
  | nil => rfl
  | cons i l ih =>
    rw [List.foldl_cons, List.filter_cons, hx]
    by_cases hi : st i = .free
    · rw [if_pos hi, if_neg (by simpa using hi), ih x hx]
    · rw [if_neg hi, if_pos (by simpa using hi), List.foldl_cons,
        ih _ ((visit_state x i).trans hx)]

theorem drainFull_eq (rotate : Nat) (p : Consumer T c) :
    drainFull size rotate p = finish
      (((cyclic rotate).filter fun i => p.state i ≠ .free).foldl (visit size) ⟨p, 0, [], 0⟩) := by
  unfold drainFull cyclic
  simp only [index_eq]
  rw [← fold_if _ ⟨p, 0, [], 0⟩ rfl, List.foldl_map]

theorem bitmapLoop_eq (rotate : Nat) (m : BitVec 64) (x : Scan T c) :
    bitmapLoop size rotate m x =
      ((Bits.bits m).map fun off => (off + rotate) % kMaxProducers).foldl (visit size) x := by
  induction hn : m.toNat using Nat.strongRecOn generalizing m x with
  | ind n ih =>
    subst hn
    rw [bitmapLoop]
    by_cases hm : m = 0
    · rw [dif_pos hm, hm]
      rfl
    · rw [dif_neg hm, Bits.bits_peel hm, List.map_cons, List.foldl_cons, ← index_eq]
      exact ih _ (Bits.peel_lt hm) _ _ rfl

theorem drainBitmap_eq {rotate : Nat} (hr : rotate < kMaxProducers) (p : Consumer T c) :
    drainBitmap size rotate p = finish
      (((cyclic rotate).filter p.active.getLsbD).foldl (visit size) ⟨p, 0, [], 0⟩) := by
  have hbits : (Bits.bits (p.active.rotateRight rotate)).map
      (fun off => (off + rotate) % kMaxProducers) = (cyclic rotate).filter p.active.getLsbD := by
    unfold Bits.bits cyclic
    rw [List.filter_map]
    refine congrArg _ (List.filter_congr fun k hk => ?_)
    exact Bits.getLsbD_rotate hr (List.mem_range.mp hk)
  unfold drainBitmap
  rw [bitmapLoop_eq, hbits]

/-! ## Leaving out empty rings -/

/-- The rings hold `contents`. -/
structure Hold (size : Nat) (p : Consumer T c) (contents : Nat → List T) : Prop where
  room : p.staged.length ≤ size
  ring : ∀ i, i < kMaxProducers → Holds (p.ring i) (contents i)

/-- Equal up to the flush of a full staging buffer. -/
def Same (size : Nat) (x y : Scan T c) : Prop :=
  makeRoom size x.pipe = makeRoom size y.pipe ∧ x.total = y.total

variable {p : Consumer T c} {x y : Scan T c} {contents : Nat → List T} {i : Nat}

theorem makeRoom_idem (hs : 1 ≤ size) (hstage : p.staged.length ≤ size) :
    makeRoom size (makeRoom size p) = makeRoom size p := by
  have hlt := makeRoom_lt hs hstage
  rw [makeRoom, if_neg (by omega)]

/-- A visit begins with the flush of a full buffer. -/
theorem drainRing_makeRoom (hs : 1 ≤ size) (hstage : p.staged.length ≤ size) :
    drainRing size i (makeRoom size p) = drainRing size i p := by
  have hloop : drainLoop size i (makeRoom size p) 0 = drainLoop size i p 0 := by
    obtain ⟨out, r', hpop⟩ : ∃ out r', popBatch ((makeRoom size p).ring i) (.ofNat 64
        (min (size - (makeRoom size p).staged.length) (kDrainBatch - 0))) = (out, r') :=
      ⟨_, _, rfl⟩
    have hpop' := hpop
    rw [← makeRoom_idem hs hstage] at hpop'
    rw [drainLoop_round (by decide) hpop, drainLoop_round (by decide) hpop',
      makeRoom_idem hs hstage]
  unfold drainRing
  rw [hloop]

theorem drop_min (n : Nat) (xs : List T) : xs.drop (min n xs.length) = xs.drop n := by
  by_cases h : n ≤ xs.length
  · rw [Nat.min_eq_left h]
  · rw [Nat.min_eq_right (by omega), List.drop_length, List.drop_eq_nil_of_le (by omega)]

theorem take_min (n : Nat) (xs : List T) : xs.take (min n xs.length) = xs.take n := by
  by_cases h : n ≤ xs.length
  · rw [Nat.min_eq_left h]
  · rw [Nat.min_eq_right (by omega), List.take_length, List.take_of_length_le (by omega)]

/-- What a visit does to a ring that holds `contents i`. -/
theorem visit_spec (hs : 1 ≤ size) (hx : Hold size x.pipe contents) (hi : i < kMaxProducers) :
    Drained size i x.pipe (visit size x i).pipe (contents i) (min 512 (contents i).length) ∧
    (visit size x i).total = x.total + min 512 (contents i).length := by
  obtain ⟨p', h1, h2, -⟩ := drainLoop_spec hs hx.room (hx.ring i hi) (Nat.zero_le _)
  have hmin : 0 + min (kDrainBatch - 0) (contents i).length = min 512 (contents i).length :=
    Nat.zero_add _
  rw [hmin] at h1
  unfold visit drainRing
  rw [h1]
  exact ⟨⟨h2.ring, h2.others, h2.state, h2.active, h2.hook, h2.written, h2.hooked, h2.room⟩, rfl⟩

theorem visit_hold (hs : 1 ≤ size) (hx : Hold size x.pipe contents) (hi : i < kMaxProducers) :
    Hold size (visit size x i).pipe (upd contents i ((contents i).drop 512)) := by
  obtain ⟨h1, -⟩ := visit_spec hs hx hi
  refine ⟨h1.room, fun j hj => ?_⟩
  by_cases hji : j = i
  · subst hji
    rw [upd_self, ← drop_min]
    exact h1.ring
  · rw [upd_ne _ _ hji, h1.others j hji]
    exact hx.ring j hj

theorem visit_empty (hx : Hold size x.pipe contents) (hi : i < kMaxProducers)
    (hc : contents i = []) : (visit size x i).pipe = makeRoom size x.pipe ∧
      (visit size x i).total = x.total := by
  have hr := (makeRoom_drained hx.room (hx.ring i hi)).ring
  rw [hc] at hr
  have hring : drainRing size i x.pipe = (makeRoom size x.pipe, 0) := by
    unfold drainRing
    rw [drainLoop_empty hr (by decide)]
    show ({ makeRoom size x.pipe with consumed := (makeRoom size x.pipe).consumed + 0 }, 0) = _
    rw [UInt64.add_zero]
  unfold visit
  rw [hring]
  exact ⟨rfl, rfl⟩

theorem visit_same (hs : 1 ≤ size) (hx : x.pipe.staged.length ≤ size)
    (hy : y.pipe.staged.length ≤ size) (h : Same size x y) (i : Nat) :
    (visit size x i).pipe = (visit size y i).pipe ∧
      (visit size x i).total = (visit size y i).total := by
  have hring : drainRing size i x.pipe = drainRing size i y.pipe := by
    rw [← drainRing_makeRoom hs hx, h.1, drainRing_makeRoom hs hy]
  unfold visit
  rw [hring, h.2]
  exact ⟨rfl, rfl⟩

/-- A fold may leave out empty rings. -/
theorem fold_skip (hs : 1 ≤ size) {l : List Nat} {keep : Nat → Bool} {contents : Nat → List T}
    (hl : ∀ i ∈ l, i < kMaxProducers) (hkeep : ∀ i ∈ l, keep i = false → contents i = [])
    {x y : Scan T c} (hx : Hold size x.pipe contents) (hy : Hold size y.pipe contents)
    (h : Same size x y) :
    Same size ((l.filter keep).foldl (visit size) x) (l.foldl (visit size) y) := by
  induction l generalizing x y contents with
  | nil => exact h
  | cons i l ih =>
    have hi := hl i (List.mem_cons_self ..)
    have hl' : ∀ j ∈ l, j < kMaxProducers := fun j hj => hl j (List.mem_cons_of_mem _ hj)
    rw [List.filter_cons, List.foldl_cons]
    cases hk : keep i with
    | true =>
      obtain ⟨h1, h2⟩ := visit_same hs hx.room hy.room h i
      rw [if_pos rfl, List.foldl_cons]
      refine ih hl' (fun j hj hf => ?_) (visit_hold hs hx hi) (visit_hold hs hy hi)
        ⟨by rw [h1], h2⟩
      by_cases hji : j = i
      · rw [hji, hk] at hf
        cases hf
      · rw [upd_ne _ _ hji]
        exact hkeep j (List.mem_cons_of_mem _ hj) hf
    | false =>
      have hc := hkeep i (List.mem_cons_self ..) hk
      obtain ⟨h1, h2⟩ := visit_empty hy hi hc
      have hy' := visit_hold hs hy hi
      rw [hc, List.drop_nil, ← hc, upd_eq_self] at hy'
      rw [if_neg Bool.false_ne_true]
      refine ih hl' (fun j hj => hkeep j (List.mem_cons_of_mem _ hj)) hx hy' ⟨?_, ?_⟩
      · rw [h1, makeRoom_idem hs hy.room, h.1]
      · rw [h2, h.2]

/-- What a fold over distinct rings delivers. -/
theorem fold_delivers (hs : 1 ≤ size) {l : List Nat} (hl : ∀ i ∈ l, i < kMaxProducers)
    (hnodup : l.Nodup) {contents : Nat → List T} {x : Scan T c}
    (hx : Hold size x.pipe contents) :
    (l.foldl (visit size) x).total =
      x.total + (l.map fun i => min 512 (contents i).length).sum ∧
    Hold size (l.foldl (visit size) x).pipe
      (fun i => if i ∈ l then (contents i).drop 512 else contents i) ∧
    ∃ ws, (l.foldl (visit size) x).pipe.written = x.pipe.written ++ ws ∧
      ws.flatten ++ (l.foldl (visit size) x).pipe.staged =
        x.pipe.staged ++ l.flatMap fun i => (contents i).take 512 := by
  induction l generalizing x contents with
  | nil => exact ⟨rfl, by simpa using hx, [], by simp, by simp⟩
  | cons i l ih =>
    obtain ⟨hil, hnodup⟩ := List.nodup_cons.mp hnodup
    have hi := hl i (List.mem_cons_self ..)
    obtain ⟨h1, h2⟩ := visit_spec hs hx hi
    obtain ⟨ws, hw, hws⟩ := h1.written
    obtain ⟨h3, h4, ws', hw', hws'⟩ := ih (fun j hj => hl j (List.mem_cons_of_mem _ hj)) hnodup
      (visit_hold hs hx hi)
    have hother : ∀ j ∈ l, upd contents i ((contents i).drop 512) j = contents j :=
      fun j hj => upd_ne _ _ fun he => hil (he ▸ hj)
    rw [List.foldl_cons]
    refine ⟨?_, ⟨h4.room, fun j hj => ?_⟩, ws ++ ws', ?_, ?_⟩
    · rw [h3, h2, List.map_cons, List.sum_cons, Nat.add_assoc,
        List.map_congr_left fun j hj => by rw [hother j hj]]
    · have hring := h4.ring j hj
      by_cases hji : j = i
      · rw [hji] at hring ⊢
        rw [if_neg hil, upd_self] at hring
        rwa [if_pos (List.mem_cons_self ..)]
      · rw [upd_ne _ _ hji] at hring
        simpa [hji] using hring
    · rw [hw', hw, List.append_assoc]
    · rw [List.flatten_append, List.append_assoc, hws', ← List.append_assoc, hws, take_min,
        List.append_assoc, List.flatMap_cons, List.flatMap_congr fun j hj => by rw [hother j hj]]

/-- A fold over empty rings does no more than make room. -/
theorem fold_empty (hs : 1 ≤ size) {l : List Nat} (hl : ∀ i ∈ l, i < kMaxProducers)
    {contents : Nat → List T} {x : Scan T c} (hx : Hold size x.pipe contents)
    (hc : ∀ i ∈ l, contents i = []) :
    (l.foldl (visit size) x).pipe = if l = [] then x.pipe else makeRoom size x.pipe := by
  induction l generalizing x with
  | nil => rfl
  | cons i l ih =>
    have hi := hl i (List.mem_cons_self ..)
    have hci := hc i (List.mem_cons_self ..)
    obtain ⟨h1, -⟩ := visit_empty hx hi hci
    have hx' := visit_hold hs hx hi
    rw [hci, List.drop_nil, ← hci, upd_eq_self] at hx'
    rw [List.foldl_cons, ih (fun j hj => hl j (List.mem_cons_of_mem _ hj)) hx'
      (fun j hj => hc j (List.mem_cons_of_mem _ hj)), if_neg (List.cons_ne_nil i l), h1,
      makeRoom_idem hs hx.room, ite_self]

theorem fold_probed (l : List Nat) (x : Scan T c) :
    (l.foldl (visit size) x).probed = x.probed ++ l := by
  induction l generalizing x with
  | nil => exact (List.append_nil _).symm
  | cons i l ih =>
    rw [List.foldl_cons, ih]
    show x.probed ++ [i] ++ l = _
    rw [List.append_assoc]
    rfl

/-! ## The scans -/

theorem flush_makeRoom (p : Consumer T c) : flush (makeRoom size p) = flush p := by
  unfold makeRoom
  split
  · rw [flush, if_pos (flush_staged p)]
  · rfl

theorem finish_total (x : Scan T c) : (finish x).total = x.total := by
  unfold finish
  split <;> rfl

theorem finish_probed (x : Scan T c) : (finish x).probed = x.probed := by
  unfold finish
  split <;> rfl

theorem finish_ring (x : Scan T c) : (finish x).pipe.ring = x.pipe.ring := by
  unfold finish flush
  split
  · dsimp only
    split <;> rfl
  · rfl

/-- The last flush makes equal what was equal up to a flush. -/
theorem finish_same (h : Same size x y) (hp : x.total = 0 → x.pipe = y.pipe) :
    (finish x).pipe = (finish y).pipe := by
  unfold finish
  rw [← h.2]
  by_cases h0 : 0 < x.total
  · rw [if_pos h0, if_pos h0]
    show flush x.pipe = flush y.pipe
    have hx : flush (makeRoom size x.pipe) = flush x.pipe := flush_makeRoom x.pipe
    rw [← hx, h.1, flush_makeRoom]
  · rw [if_neg h0, if_neg h0]
    exact hp (by omega)

theorem finish_delivers {old : List (List T)} {out : List T}
    (h : ∃ ws, x.pipe.written = old ++ ws ∧ ws.flatten ++ x.pipe.staged = out) :
    ∃ ws, (finish x).pipe.written = old ++ ws ∧ ws.flatten ++ (finish x).pipe.staged = out := by
  obtain ⟨ws, hw, hs⟩ := h
  unfold finish flush
  split
  · dsimp only
    split
    · exact ⟨ws, hw, hs⟩
    · refine ⟨ws ++ [x.pipe.staged], ?_, ?_⟩
      · rw [← List.append_assoc, ← hw]
      · rw [List.flatten_append, ← hs]
        simp
  · exact ⟨ws, hw, hs⟩

theorem makeRoom_ring (size : Nat) (p : Consumer T c) : (makeRoom size p).ring = p.ring := by
  unfold makeRoom flush
  split
  · split <;> rfl
  · rfl

/-- What is empty may be left out. -/
theorem flatMap_filter {l : List Nat} {keep : Nat → Bool} {f : Nat → List T}
    (h : ∀ i ∈ l, keep i = false → f i = []) : (l.filter keep).flatMap f = l.flatMap f := by
  induction l with
  | nil => rfl
  | cons i l ih =>
    have ih := ih fun j hj => h j (List.mem_cons_of_mem _ hj)
    cases hk : keep i with
    | true => rw [List.filter_cons_of_pos hk, List.flatMap_cons, List.flatMap_cons, ih]
    | false =>
      rw [List.filter_cons_of_neg (by rw [hk]; exact Bool.false_ne_true), ih, List.flatMap_cons,
        h i (List.mem_cons_self ..) hk, List.nil_append]

/-- A scan that leaves out empty rings only, and the scan of all. -/
theorem scan_same (hs : 1 ≤ size) (hp : Hold size p contents) (rotate : Nat) (keep : Nat → Bool)
    (hkeep : ∀ i, i < kMaxProducers → contents i ≠ [] → keep i = true) :
    Same size (((cyclic rotate).filter keep).foldl (visit size) ⟨p, 0, [], 0⟩)
      ((cyclic rotate).foldl (visit size) ⟨p, 0, [], 0⟩) := by
  refine fold_skip hs (fun i => cyclic_lt) (fun i hi hk => ?_) (x := ⟨p, 0, [], 0⟩) hp hp ⟨rfl, rfl⟩
  by_contra hne
  rw [hkeep i (cyclic_lt hi) hne] at hk
  cases hk

/-- What such a scan delivers. -/
theorem scan_delivers (hs : 1 ≤ size) (hp : Hold size p contents) (rotate : Nat)
    (keep : Nat → Bool)
    (hkeep : ∀ i, i < kMaxProducers → contents i ≠ [] → keep i = true) :
    let x := ((cyclic rotate).filter keep).foldl (visit size) ⟨p, 0, [], 0⟩
    x.total = ((cyclic rotate).map fun i => min 512 (contents i).length).sum ∧
    (∀ i, i < kMaxProducers → Holds (x.pipe.ring i) ((contents i).drop 512)) ∧
    ∃ ws, x.pipe.written = p.written ++ ws ∧
      ws.flatten ++ x.pipe.staged = p.staged ++ (cyclic rotate).flatMap fun i => (contents i).take 512 := by
  obtain ⟨hsame, htotal⟩ := scan_same hs hp rotate keep hkeep
  obtain ⟨h1, h2, -⟩ :=
    fold_delivers hs (fun i => cyclic_lt) (cyclic_nodup rotate) (x := ⟨p, 0, [], 0⟩) hp
  obtain ⟨-, -, h3⟩ := fold_delivers hs (l := (cyclic rotate).filter keep)
    (fun i hi => cyclic_lt (List.mem_of_mem_filter hi)) ((cyclic_nodup rotate).filter _)
    (x := ⟨p, 0, [], 0⟩) hp
  rw [flatMap_filter fun i hi hk => ?_] at h3
  · refine ⟨by rw [htotal, h1, Nat.zero_add], fun i hi => ?_, h3⟩
    have hring := h2.ring i hi
    rw [if_pos (mem_cyclic rotate hi), ← makeRoom_ring size, ← hsame, makeRoom_ring] at hring
    exact hring
  · have hc : contents i = [] := by
      by_contra hne
      rw [hkeep i (cyclic_lt hi) hne] at hk
      cases hk
    rw [hc, List.take_nil]

/-- Two such scans do the same, if with a full buffer and empty rings both look
into a ring, or neither does. -/
theorem scans_agree (hs : 1 ≤ size) (hp : Hold size p contents) (rotate : Nat)
    {keep keep' : Nat → Bool}
    (hkeep : ∀ i, i < kMaxProducers → contents i ≠ [] → keep i = true)
    (hkeep' : ∀ i, i < kMaxProducers → contents i ≠ [] → keep' i = true)
    (hroom : p.staged.length < size ∨ (∃ i, i < kMaxProducers ∧ contents i ≠ []) ∨
      ((∃ i, i < kMaxProducers ∧ keep i = true) ↔ ∃ i, i < kMaxProducers ∧ keep' i = true)) :
    (finish (((cyclic rotate).filter keep).foldl (visit size) ⟨p, 0, [], 0⟩)).pipe =
      (finish (((cyclic rotate).filter keep').foldl (visit size) ⟨p, 0, [], 0⟩)).pipe := by
  obtain ⟨h1, h2⟩ := scan_same hs hp rotate keep hkeep
  obtain ⟨h1', h2'⟩ := scan_same hs hp rotate keep' hkeep'
  refine finish_same ⟨h1.trans h1'.symm, h2.trans h2'.symm⟩ fun h0 => ?_
  -- nothing was taken: all rings are empty
  rw [(scan_delivers hs hp rotate keep hkeep).1] at h0
  have hempty : ∀ i, i < kMaxProducers → contents i = [] := fun i hi => by
    have := List.sum_eq_zero_iff_forall_eq_nat.mp h0 _ (List.mem_map.mpr ⟨i, mem_cyclic rotate hi, rfl⟩)
    exact List.length_eq_zero_iff.mp (by omega)
  have hnil : ∀ k : Nat → Bool, (cyclic rotate).filter k = [] ↔
      ¬ ∃ i, i < kMaxProducers ∧ k i = true := fun k => by
    rw [List.filter_eq_nil_iff]
    exact ⟨fun h ⟨i, hi, hk⟩ => h i (mem_cyclic rotate hi) hk,
      fun h i hi hk => h ⟨i, cyclic_lt hi, hk⟩⟩
  have hfold : ∀ k : Nat → Bool, (((cyclic rotate).filter k).foldl (visit size) ⟨p, 0, [], 0⟩).pipe =
      if (cyclic rotate).filter k = [] then p else makeRoom size p := fun k =>
    fold_empty hs (fun i hi => cyclic_lt (List.mem_of_mem_filter hi)) (x := ⟨p, 0, [], 0⟩) hp
      fun i hi => hempty i (cyclic_lt (List.mem_of_mem_filter hi))
  rw [hfold, hfold]
  rcases hroom with hlt | ⟨i, hi, hne⟩ | hiff
  · rw [makeRoom, if_neg (Nat.ne_of_lt hlt), ite_self, ite_self]
  · exact absurd (hempty i hi) hne
  · simp only [hnil, hiff]

/-- With the bit of every ring that has events set and its slot not free, the two
scans do the same: the same writes, the same total, the same rings. Only with the
staging buffer full and all rings empty, and one of the scans looking into a ring
and the other into none, do they not. -/
theorem bitmap_scan_is_full_scan (hs : 1 ≤ size) (hp : Hold size p contents) {rotate : Nat}
    (hrotate : rotate < kMaxProducers)
    (hbits : ∀ i, i < kMaxProducers → contents i ≠ [] →
      p.active.getLsbD i = true ∧ p.state i ≠ .free)
    (hroom : p.staged.length < size ∨ (∃ i, i < kMaxProducers ∧ contents i ≠ []) ∨
      ((∃ i, i < kMaxProducers ∧ p.active.getLsbD i = true) ↔
        ∃ i, i < kMaxProducers ∧ p.state i ≠ .free)) :
    (drainBitmap size rotate p).pipe = (drainFull size rotate p).pipe ∧
    (drainBitmap size rotate p).total = (drainFull size rotate p).total ∧
    (drainBitmap size rotate p).probed.Sublist (cyclic rotate) ∧
    (drainFull size rotate p).probed.Sublist (cyclic rotate) ∧ (cyclic rotate).Nodup ∧
    (∀ i, i < kMaxProducers →
      Holds ((drainBitmap size rotate p).pipe.ring i) ((contents i).drop 512)) ∧
    (drainBitmap size rotate p).total =
      ((cyclic rotate).map fun i => min 512 (contents i).length).sum ∧
    ∃ ws, (drainBitmap size rotate p).pipe.written = p.written ++ ws ∧
      ws.flatten ++ (drainBitmap size rotate p).pipe.staged =
        p.staged ++ (cyclic rotate).flatMap fun i => (contents i).take 512 := by
  have hkeep : ∀ i, i < kMaxProducers → contents i ≠ [] → p.active.getLsbD i = true :=
    fun i hi hne => (hbits i hi hne).1
  have hkeep' : ∀ i, i < kMaxProducers → contents i ≠ [] → decide (p.state i ≠ .free) = true :=
    fun i hi hne => decide_eq_true (hbits i hi hne).2
  rw [drainFull_eq, drainBitmap_eq hrotate]
  obtain ⟨htotal, hring, hout⟩ := scan_delivers hs hp rotate _ hkeep
  refine ⟨scans_agree hs hp rotate hkeep hkeep' (by simpa using hroom), ?_, ?_, ?_,
    cyclic_nodup rotate, fun i hi => ?_, ?_, finish_delivers hout⟩
  · rw [finish_total, finish_total, htotal, (scan_delivers hs hp rotate _ hkeep').1]
  · rw [finish_probed, fold_probed]
    exact List.filter_sublist
  · rw [finish_probed, fold_probed]
    exact List.filter_sublist
  · rw [finish_ring]
    exact hring i hi
  · rw [finish_total, htotal]

end

/-! ## Three rings -/

/-- The tail of ring 1 has wrapped, ring 63 is full and its consumer has not looked
yet, the bit of ring 0 is stale, and the buffer of two holds an event. -/
def threeEvents : Consumer Nat twoSlots where
  ring i :=
    if i = 1 then ⟨0, 0, -1, -1, fun _ => 7⟩
    else if i = 63 then ⟨6, 4, 4, 4, fun j => 8 + j⟩
    else ⟨0, 0, 0, 0, fun _ => 7⟩
  state i := if i = 1 then .retiring else if i = 0 ∨ i = 63 then .active else .free
  active := 0x8000000000000003
  staged := [5]
  hook := true
  written := []
  hooked := []
  consumed := 0

def threeContents (i : Nat) : List Nat := if i = 1 then [7] else if i = 63 then [8, 9] else []

theorem threeEvents_hold : Hold 2 threeEvents threeContents := by
  refine ⟨by decide, fun i _ => ?_⟩
  by_cases h1 : i = 1
  · subst h1
    refine ⟨by decide, rfl, ⟨0, by decide, rfl⟩, fun j x hx => ?_⟩
    obtain ⟨rfl, rfl⟩ : j = 0 ∧ 7 = x := by
      match j with
      | 0 => exact ⟨rfl, Option.some.inj hx⟩
    rfl
  by_cases h63 : i = 63
  · subst h63
    refine ⟨by decide, rfl, ⟨0, by decide, rfl⟩, fun j x hx => ?_⟩
    match j with
    | 0 | 1 =>
      obtain rfl := Option.some.inj hx
      rfl
  · unfold threeEvents threeContents
    simp only [if_neg h1, if_neg h63]
    exact ⟨Nat.zero_le _, rfl, ⟨0, Nat.le_refl _, rfl⟩, nofun⟩

/-- From ring 63 on. -/
theorem bitmap_scan_is_full_scan_three :
    (drainBitmap 2 63 threeEvents).pipe = (drainFull 2 63 threeEvents).pipe ∧
    (drainBitmap 2 63 threeEvents).total = 3 ∧
    Holds ((drainBitmap 2 63 threeEvents).pipe.ring 63) [] ∧
    ∃ ws, (drainBitmap 2 63 threeEvents).pipe.written = ws ∧
      ws.flatten ++ (drainBitmap 2 63 threeEvents).pipe.staged = [5, 8, 9, 7] := by
  obtain ⟨h1, -, -, -, -, hring, htotal, ws, h2, h3⟩ :=
    bitmap_scan_is_full_scan (by decide) threeEvents_hold (show 63 < kMaxProducers by decide)
      (fun i hi hne => by
        revert i
        decide) (.inl (by decide))
  exact ⟨h1, htotal.trans (by decide), hring 63 (by decide), ws, h2, h3.trans (by decide)⟩

/-- All rings empty, a registered producer, and the buffer of one event full. -/
def fullStage : Consumer Nat twoSlots where
  ring _ := ⟨0, 0, 0, 0, fun _ => 0⟩
  state i := if i = 0 then .active else .free
  active := 0
  staged := [7]
  hook := false
  written := []
  hooked := []
  consumed := 0

/-- The full scan looks into the empty ring and flushes, the other does not. -/
theorem scans_differ_on_full_stage :
    Hold 1 fullStage (fun _ => []) ∧
    (drainBitmap 1 0 fullStage).pipe.written = [] ∧
    (drainFull 1 0 fullStage).pipe.written = [[7]] := by
  have hhold : Hold 1 fullStage fun _ => [] :=
    ⟨Nat.le_refl _, fun i _ => ⟨Nat.zero_le _, rfl, ⟨0, Nat.le_refl _, rfl⟩, nofun⟩⟩
  refine ⟨hhold, ?_, ?_⟩
  · rw [drainBitmap_eq (by decide), show (cyclic 0).filter fullStage.active.getLsbD = [] by decide]
    rfl
  · rw [drainFull_eq,
      show ((cyclic 0).filter fun i => fullStage.state i ≠ .free) = [0] by decide,
      List.foldl_cons, List.foldl_nil]
    obtain ⟨h1, h2⟩ := visit_empty (x := ⟨fullStage, 0, [], 0⟩) hhold
      (i := 0) (by decide) rfl
    unfold finish
    rw [h2, if_neg (by decide), h1]
    rfl

end Katas.Weir.Drain
