import Katas.Core.Rank
import Katas.Core.Prog
import Mathlib.Data.Nat.Size
import Mathlib.Algebra.Order.Floor.Semiring
import Mathlib.Data.Rat.Floor

/-!
# The latency histogram

Log-linear buckets over all 64-bit values, 16 to each power of two. `index` and
`upper` are a Galois pair: a value's bucket is at most the `i`-th exactly if
the value is at most `upper i` (`index_le_iff`). With it, the cumulative counts
are the counts of the values up to an upper edge, and the scan of `quantile`
stops at the bucket of the value of the rank it looks for.

The counters are 64 bits wide: a histogram merged with itself 64 times has
counted its values 2^64 times, and stands at zero.
-/
namespace Katas.Turnstile.Histogram
open Katas.Conc

/-! ## The program -/

def kBuckets : Nat := 976

/-- mirrors mpmc-work-queue-kata/cpp/src/histogram.hpp:55,69-71 -/
structure Histogram where
  counts : Nat → UInt64
  n : UInt64
  max : UInt64

def init : Histogram := ⟨fun _ => 0, 0, 0⟩

/-- `std::bit_width` -/
def bitWidth (v : UInt64) : Nat := v.toNat.size

/-- mirrors mpmc-work-queue-kata/cpp/src/histogram.hpp:57-61 -/
def index (v : UInt64) : Nat :=
  if v < 32 then v.toNat
  else
    let e := bitWidth v - 5
    16 * e + (v >>> .ofNat e).toNat

/-- mirrors mpmc-work-queue-kata/cpp/src/histogram.hpp:62-67 -/
def upper (i : Nat) : UInt64 :=
  if i < 32 then .ofNat i
  else
    let e := i / 16 - 1
    let m := UInt64.ofNat (i - 16 * e)
    ((m + 1) <<< .ofNat e) - 1

/-- mirrors mpmc-work-queue-kata/cpp/src/histogram.hpp:16-20 -/
def record (h : Histogram) (v : UInt64) : Histogram where
  counts := upd h.counts (index v) (h.counts (index v) + 1)
  n := h.n + 1
  max := Max.max h.max v

/-- mirrors mpmc-work-queue-kata/cpp/src/histogram.hpp:22-26 -/
def merge (h o : Histogram) : Histogram where
  counts i := h.counts i + o.counts i
  n := h.n + o.n
  max := Max.max h.max o.max

/-- The bucket the scan stops at, from the `i`-th of `k` on.
mirrors mpmc-work-queue-kata/cpp/src/histogram.hpp:38-40 -/
def stop (h : Histogram) (rank : UInt64) (i : Nat) (seen : UInt64) : Nat → Option Nat
  | 0 => none
  | k + 1 =>
    let seen := seen + h.counts i
    if rank ≤ seen then some i else stop h rank (i + 1) seen k

/-- mirrors mpmc-work-queue-kata/cpp/src/histogram.hpp:37-42 -/
def report (h : Histogram) (rank : UInt64) : UInt64 :=
  match stop h rank 0 0 kBuckets with
  | some i => min (upper i) h.max
  | none => h.max

/-- The rank of a quantile, its product exact.
mirrors mpmc-work-queue-kata/cpp/src/histogram.hpp:36 -/
def rank (n : UInt64) (q : ℚ) : UInt64 := .ofNat ⌊q * (n - 1).toNat⌋₊ + 1

/-- mirrors mpmc-work-queue-kata/cpp/src/histogram.hpp:34-43,
mpmc-work-queue-kata/go/internal/bench/histogram.go:55-68 -/
def quantile (h : Histogram) (q : ℚ) : UInt64 :=
  if h.n = 0 then 0 else report h (rank h.n q)

/-- From the `i`-th of `k` buckets on. -/
def aboveFrom (h : Histogram) (i : Nat) (above : UInt64) : Nat → UInt64
  | 0 => above
  | k + 1 => aboveFrom h (i + 1) (above + h.counts i) k

/-- mirrors mpmc-work-queue-kata/cpp/src/histogram.hpp:46-50 -/
def countAbove (h : Histogram) (v : UInt64) : UInt64 :=
  aboveFrom h (index v + 1) 0 (kBuckets - (index v + 1))

/-- What a histogram has recorded, by the calls that made it. -/
inductive Recorded : Histogram → List UInt64 → Prop
  | init : Recorded init []
  | record {h : Histogram} {l : List UInt64} (v : UInt64) : Recorded h l →
      Recorded (record h v) (l ++ [v])
  | merge {h o : Histogram} {l l' : List UInt64} : Recorded h l → Recorded o l' →
      Recorded (merge h o) (l ++ l')

/-! ## The buckets, as natural numbers -/

/-- The bucket of `v`: 16 to each power of two. -/
def bucket (v : Nat) : Nat := 16 * (v.size - 5) + v / 2 ^ (v.size - 5)

theorem bucket_of {v m e : Nat} (hm : m < 32) (he : 16 ≤ m ∨ e = 0) (h1 : m * 2 ^ e ≤ v)
    (h2 : v < (m + 1) * 2 ^ e) : bucket v = 16 * e + m := by
  have hsize : v.size - 5 = e := by
    have hle : v.size ≤ e + 5 := by
      rw [Nat.size_le, Nat.pow_add]
      calc v < (m + 1) * 2 ^ e := h2
        _ ≤ 32 * 2 ^ e := Nat.mul_le_mul_right _ hm
        _ = 2 ^ e * 2 ^ 5 := Nat.mul_comm _ _
    obtain hm' | rfl := he
    · have hlt : e + 4 < v.size := by
        rw [Nat.lt_size, Nat.pow_add]
        calc 2 ^ e * 2 ^ 4 = 16 * 2 ^ e := Nat.mul_comm _ _
          _ ≤ m * 2 ^ e := Nat.mul_le_mul_right _ hm'
          _ ≤ v := h1
      omega
    · omega
  unfold bucket
  rw [hsize, Nat.div_eq_of_lt_le h1 h2]

theorem quotient_lt (v : Nat) : v / 2 ^ (v.size - 5) < 32 := by
  rw [Nat.div_lt_iff_lt_mul (Nat.two_pow_pos _)]
  calc v < 2 ^ v.size := Nat.lt_size_self v
    _ ≤ 2 ^ (5 + (v.size - 5)) := Nat.pow_le_pow_right (by decide) (by omega)
    _ = 32 * 2 ^ (v.size - 5) := Nat.pow_add _ _ _

theorem le_quotient {v : Nat} (h : v.size - 5 ≠ 0) : 16 ≤ v / 2 ^ (v.size - 5) := by
  rw [Nat.le_div_iff_mul_le (Nat.two_pow_pos _)]
  calc 16 * 2 ^ (v.size - 5) = 2 ^ (4 + (v.size - 5)) := (Nat.pow_add 2 4 _).symm
    _ ≤ 2 ^ (v.size - 1) := Nat.pow_le_pow_right (by decide) (by omega)
    _ ≤ v := Nat.lt_size.mp (by omega)

theorem bucket_mono {v w : Nat} (h : v ≤ w) : bucket v ≤ bucket w := by
  have hs : v.size ≤ w.size := Nat.size_le_size h
  unfold bucket
  by_cases he : v.size - 5 = w.size - 5
  · rw [he]
    have := Nat.div_le_div_right (c := 2 ^ (w.size - 5)) h
    omega
  · have h1 := quotient_lt v
    have h2 := le_quotient (v := w) (by omega)
    omega

/-- The quotient and the exponent of the `i`-th bucket. -/
def quot (i : Nat) : Nat := i - 16 * (i / 16 - 1)

/-- One past the greatest value of the `i`-th bucket. -/
def edge (i : Nat) : Nat := (quot i + 1) * 2 ^ (i / 16 - 1)

theorem quot_spec (i : Nat) : quot i < 32 ∧ (16 ≤ quot i ∨ i / 16 - 1 = 0) ∧
    16 * (i / 16 - 1) + quot i = i := by
  unfold quot
  omega

theorem bucket_pred_edge (i : Nat) : bucket (edge i - 1) = i := by
  obtain ⟨h1, h2, h3⟩ := quot_spec i
  have hpos : 0 < 2 ^ (i / 16 - 1) := Nat.two_pow_pos _
  have hmul : edge i = quot i * 2 ^ (i / 16 - 1) + 2 ^ (i / 16 - 1) := Nat.succ_mul _ _
  have hle : edge i - 1 < (quot i + 1) * 2 ^ (i / 16 - 1) := by
    show edge i - 1 < edge i
    omega
  have hb : bucket (edge i - 1) = 16 * (i / 16 - 1) + quot i := bucket_of h1 h2 (by omega) hle
  omega

theorem bucket_edge (i : Nat) : bucket (edge i) = i + 1 := by
  obtain ⟨h1, h2, h3⟩ := quot_spec i
  by_cases hm : quot i = 31
  · have he : edge i = 16 * 2 ^ (i / 16 - 1 + 1) := by
      unfold edge
      rw [hm, Nat.pow_succ]
      omega
    have hpos : 0 < 2 ^ (i / 16 - 1 + 1) := Nat.two_pow_pos _
    rw [he, bucket_of (m := 16) (e := i / 16 - 1 + 1) (by decide) (.inl (le_refl _)) (le_refl _)
      (by omega)]
    omega
  · have hpos : 0 < 2 ^ (i / 16 - 1) := Nat.two_pow_pos _
    have hmul : (quot i + 1 + 1) * 2 ^ (i / 16 - 1) =
        (quot i + 1) * 2 ^ (i / 16 - 1) + 2 ^ (i / 16 - 1) := Nat.succ_mul _ _
    have hb : bucket (edge i) = 16 * (i / 16 - 1) + (quot i + 1) :=
      bucket_of (by omega) (by omega) (le_refl _) (by rw [hmul]; unfold edge; omega)
    omega

/-- The buckets up to the `i`-th are those of the values below its edge. -/
theorem bucket_le_iff {v i : Nat} : bucket v ≤ i ↔ v < edge i := by
  constructor
  · intro h
    by_contra hge
    have := bucket_mono (Nat.le_of_not_lt hge)
    rw [bucket_edge] at this
    omega
  · intro h
    have := bucket_mono (v := v) (w := edge i - 1) (by omega)
    rwa [bucket_pred_edge] at this

theorem edge_pos (i : Nat) : 0 < edge i :=
  Nat.mul_pos (Nat.succ_pos _) (Nat.two_pow_pos _)

/-- A bucket is a sixteenth of its values wide, or one. -/
theorem edge_le (v : Nat) : edge (bucket v) - 1 ≤ v + v / 16 := by
  have hlt := quotient_lt v
  have hdiv := Nat.div_add_mod v (2 ^ (v.size - 5))
  have hq : bucket v / 16 - 1 = v.size - 5 ∧ quot (bucket v) = v / 2 ^ (v.size - 5) := by
    unfold quot bucket
    by_cases he : v.size - 5 = 0
    · rw [he] at hlt ⊢
      omega
    · have := le_quotient he
      omega
  have hedge : edge (bucket v) =
      2 ^ (v.size - 5) * (v / 2 ^ (v.size - 5)) + 2 ^ (v.size - 5) := by
    unfold edge
    rw [hq.1, hq.2, Nat.succ_mul, Nat.mul_comm]
  by_cases he : v.size - 5 = 0
  · rw [he] at hedge hdiv
    omega
  · have h16 : 16 * 2 ^ (v.size - 5) ≤ v :=
      (Nat.le_div_iff_mul_le (Nat.two_pow_pos _)).mp (le_quotient he)
    omega

theorem edge_lt {i : Nat} (h : i < kBuckets) : edge i ≤ 2 ^ 64 := by
  obtain ⟨hq, -, -⟩ := quot_spec i
  have he : i / 16 - 1 ≤ 59 := by
    unfold kBuckets at h
    omega
  calc edge i ≤ 32 * 2 ^ (i / 16 - 1) := Nat.mul_le_mul_right _ hq
    _ ≤ 32 * 2 ^ 59 := Nat.mul_le_mul_left _ (Nat.pow_le_pow_right (by decide) he)
    _ = 2 ^ 64 := by decide

/-! ## The buckets of the program -/

theorem index_eq (v : UInt64) : index v = bucket v.toNat := by
  unfold index
  split
  · rename_i hv
    have hlt : v.toNat < 32 := hv
    have hs : v.toNat.size ≤ 5 := Nat.size_le.mpr hlt
    unfold bucket
    rw [show v.toNat.size - 5 = 0 by omega]
    simp
  · have hs : v.toNat.size ≤ 64 := Nat.size_le.mpr v.toNat_lt
    show 16 * (v.toNat.size - 5) + (v >>> .ofNat (v.toNat.size - 5)).toNat = _
    have he : (UInt64.ofNat (v.toNat.size - 5)).toNat % 64 = v.toNat.size - 5 := by
      rw [UInt64.toNat_ofNat']
      omega
    rw [UInt64.toNat_shiftRight, he, Nat.shiftRight_eq_div_pow]
    rfl

theorem upper_eq {i : Nat} (h : i < kBuckets) : (upper i).toNat = edge i - 1 := by
  have hle := edge_lt h
  have hpos := edge_pos i
  have hlt : i < 976 := h
  unfold upper
  split
  · have he : i / 16 - 1 = 0 := by omega
    unfold edge quot
    rw [he, UInt64.toNat_ofNat']
    omega
  · have he : (UInt64.ofNat (i / 16 - 1)).toNat % 64 = i / 16 - 1 := by
      rw [UInt64.toNat_ofNat']
      omega
    have hm : (UInt64.ofNat (i - 16 * (i / 16 - 1)) + 1).toNat = quot i + 1 := by
      have := (quot_spec i).1
      rw [UInt64.toNat_add, UInt64.toNat_ofNat']
      unfold quot at *
      simp only [UInt64.toNat_one]
      omega
    have hs : (((UInt64.ofNat (i - 16 * (i / 16 - 1)) + 1) <<<
        UInt64.ofNat (i / 16 - 1))).toNat = edge i % 2 ^ 64 := by
      rw [UInt64.toNat_shiftLeft, he, hm, Nat.shiftLeft_eq]
      rfl
    show (_ - 1 : UInt64).toNat = _
    rw [UInt64.toNat_sub, hs]
    simp only [UInt64.toNat_one]
    -- the last edge is 2^64, which wraps to zero
    omega

/-- A value's bucket is at most the `i`-th if the value is at most its upper edge. -/
theorem index_le_iff {v : UInt64} {i : Nat} (h : i < kBuckets) : index v ≤ i ↔ v ≤ upper i := by
  rw [index_eq, bucket_le_iff, UInt64.le_iff_toNat_le, upper_eq h]
  have := edge_pos i
  omega

theorem index_lt (v : UInt64) : index v < kBuckets := by
  have h : edge 975 = 2 ^ 64 := by decide
  rw [index_eq]
  refine Nat.lt_succ_of_le (bucket_le_iff.mpr ?_)
  rw [h]
  exact v.toNat_lt

theorem index_mono {v w : UInt64} (h : v ≤ w) : index v ≤ index w := by
  rw [index_eq, index_eq]
  exact bucket_mono (UInt64.le_iff_toNat_le.mp h)

theorem index_upper {i : Nat} (h : i < kBuckets) : index (upper i) = i := by
  rw [index_eq, upper_eq h, bucket_pred_edge]

theorem upper_le (v : UInt64) : (upper (index v)).toNat ≤ v.toNat + v.toNat / 16 := by
  rw [upper_eq (index_lt v), index_eq]
  exact edge_le v.toNat

/-! ## What is recorded -/

/-- The 64-bit values, in their order. -/
instance linearOrder : LinearOrder UInt64 where
  le_refl := UInt64.le_refl
  le_trans _ _ _ := UInt64.le_trans
  le_antisymm _ _ := UInt64.le_antisymm
  le_total := UInt64.le_total
  lt_iff_le_not_ge a b := by
    rw [UInt64.not_le]
    exact ⟨fun h => ⟨UInt64.le_of_lt h, h⟩, And.right⟩
  toDecidableLE := inferInstance
  toDecidableLT := inferInstance
  toDecidableEq := inferInstance

/-- The greatest of a list of values. -/
def greatest (l : List UInt64) : UInt64 := l.foldr max 0

theorem greatest_append (l l' : List UInt64) :
    greatest (l ++ l') = max (greatest l) (greatest l') := by
  induction l with
  | nil => exact (max_eq_right UInt64.zero_le).symm
  | cons a l ih =>
    show max a (greatest (l ++ l')) = max (max a (greatest l)) (greatest l')
    rw [ih, max_assoc]

theorem le_greatest {l : List UInt64} {v : UInt64} (h : v ∈ l) : v ≤ greatest l := by
  induction l with
  | nil => cases h
  | cons a l ih =>
    obtain rfl | h := List.mem_cons.mp h
    · exact le_max_left _ _
    · exact (ih h).trans (le_max_right _ _)

/-- The histogram of a list of values. -/
def ofList (l : List UInt64) : Histogram where
  counts i := .ofNat (l.countP fun v => index v = i)
  n := .ofNat l.length
  max := greatest l

theorem merge_ofList (l l' : List UInt64) : merge (ofList l) (ofList l') = ofList (l ++ l') := by
  unfold merge ofList
  rw [greatest_append, List.length_append, UInt64.ofNat_add]
  congr
  funext i
  rw [List.countP_append, UInt64.ofNat_add]

theorem record_ofList (l : List UInt64) (v : UInt64) : record (ofList l) v = ofList (l ++ [v]) := by
  rw [← merge_ofList]
  unfold record merge ofList
  congr
  · funext i
    by_cases hi : i = index v
    · subst hi
      simp
    · rw [upd_ne _ _ hi]
      simp [Ne.symm hi]
  · exact (max_eq_left UInt64.zero_le).symm

theorem Recorded.eq {h : Histogram} {l : List UInt64} (hr : Recorded h l) : h = ofList l := by
  induction hr with
  | init => rfl
  | record v _ ih => rw [ih, record_ofList]
  | merge _ _ ih ih' => rw [ih, ih', merge_ofList]

/-! ## The scan -/

/-- A value of rank `r` lies in the first bucket with `r` values up to it. -/
theorem index_le_rank {l : List UInt64} {r i : Nat} {s : UInt64} (hs : Rank.smallest l r = some s)
    (hi : i < kBuckets) : index s ≤ i ↔ r ≤ l.countP fun v => index v < i + 1 := by
  have hp : (fun v => decide (index v < i + 1)) = fun v => decide (v ≤ upper i) := by
    funext v
    exact decide_eq_decide.mpr (Nat.lt_succ_iff.trans (index_le_iff hi))
  rw [hp, index_le_iff hi]
  exact Rank.le_of_rank hs (upper i)

/-- One more bucket. -/
theorem countP_succ (l : List UInt64) (i : Nat) :
    (l.countP fun v => index v < i) + (l.countP fun v => index v = i) =
      l.countP fun v => index v < i + 1 := by
  induction l with
  | nil => rfl
  | cons a l ih =>
    simp only [List.countP_cons, decide_eq_true_eq]
    split <;> split <;> split <;> omega

/-- The scan stops at the bucket of the value of its rank. -/
theorem stop_from {l : List UInt64} (hl : l.length < 2 ^ 64) {r : Nat} {s : UInt64}
    (hr : r ≤ l.length) (hs : Rank.smallest l r = some s) {i k : Nat} (hk : i + k = kBuckets)
    (hi : i ≤ index s) :
    stop (ofList l) (.ofNat r) i (.ofNat (l.countP fun v => index v < i)) k = some (index s) := by
  induction k generalizing i with
  | zero =>
    have := index_lt s
    omega
  | succ k ih =>
    have hseen : UInt64.ofNat (l.countP fun v => index v < i) + (ofList l).counts i =
        .ofNat (l.countP fun v => index v < i + 1) := by
      rw [← countP_succ, UInt64.ofNat_add]
      rfl
    have hc : (l.countP fun v => index v < i + 1) ≤ l.length := List.countP_le_length
    have hle : UInt64.ofNat r ≤ .ofNat (l.countP fun v => index v < i + 1) ↔ index s ≤ i := by
      rw [index_le_rank hs (by omega), UInt64.le_iff_toNat_le,
        UInt64.toNat_ofNat_of_lt' (lt_of_le_of_lt hr hl),
        UInt64.toNat_ofNat_of_lt' (lt_of_le_of_lt hc hl)]
    unfold stop
    dsimp only
    rw [hseen]
    by_cases hsi : index s ≤ i
    · rw [if_pos (hle.mpr hsi), Nat.le_antisymm hi hsi]
    · rw [if_neg (mt hle.mp hsi)]
      exact ih (by omega) (by omega)

theorem stop_spec {l : List UInt64} (hl : l.length < 2 ^ 64) {r : Nat} {s : UInt64}
    (hr : r ≤ l.length) (hs : Rank.smallest l r = some s) :
    stop (ofList l) (.ofNat r) 0 0 kBuckets = some (index s) := by
  have h := stop_from hl hr hs (Nat.zero_add kBuckets) (Nat.zero_le _)
  simpa using h

/-- What is reported for a value of the list lies in its bucket, and not below it. -/
theorem report_spec {l : List UInt64} {s : UInt64} (hs : s ∈ l) :
    s ≤ min (upper (index s)) (greatest l) ∧
    (min (upper (index s)) (greatest l)).toNat ≤ s.toNat + s.toNat / 16 := by
  constructor
  · exact le_min ((index_le_iff (index_lt s)).mp (le_refl _)) (le_greatest hs)
  · exact (UInt64.le_iff_toNat_le.mp (min_le_left _ _)).trans (upper_le s)

theorem aboveFrom_spec (l : List UInt64) {i k : Nat} (hk : i + k = kBuckets) (above : UInt64) :
    aboveFrom (ofList l) i above k = above + .ofNat (l.countP fun v => i ≤ index v) := by
  induction k generalizing i above with
  | zero =>
    have hz : (l.countP fun v => i ≤ index v) = 0 :=
      List.countP_eq_zero.mpr fun v _ => by
        have := index_lt v
        simp only [decide_eq_true_eq]
        omega
    rw [hz]
    exact (UInt64.add_zero above).symm
  | succ k ih =>
    have hc : (l.countP fun v => i ≤ index v) =
        (l.countP fun v => index v = i) + l.countP fun v => i + 1 ≤ index v := by
      clear ih
      induction l with
      | nil => rfl
      | cons a l ihl =>
        simp only [List.countP_cons, decide_eq_true_eq]
        split <;> split <;> split <;> omega
    unfold aboveFrom
    rw [ih (by omega), hc, UInt64.ofNat_add, UInt64.add_assoc]
    rfl

theorem countAbove_spec {l : List UInt64} (v : UInt64) :
    countAbove (ofList l) v = .ofNat (l.countP fun w => upper (index v) < w) := by
  have hv := index_lt v
  have hp : (fun w => decide (index v + 1 ≤ index w)) = fun w => decide (upper (index v) < w) := by
    funext w
    refine decide_eq_decide.mpr ?_
    rw [← not_le, ← index_le_iff hv, Nat.succ_le_iff, not_le]
  unfold countAbove
  rw [aboveFrom_spec l (by omega), hp]
  exact UInt64.zero_add _

/-- Only the values count, not their order. -/
theorem ofList_perm {l l' : List UInt64} (h : l.Perm l') : ofList l = ofList l' := by
  have hmax : greatest l = greatest l' := h.foldr_eq (f := max) 0
  unfold ofList
  rw [h.length_eq, hmax]
  congr
  funext i
  rw [h.countP_eq]

/-! ## The buckets and the ranks -/

/-- `index` is monotone and `upper` the greatest value of its bucket; below 2^64
samples the scan stops at the bucket of the value of its rank and `count_above`
counts the values above the bucket of its argument. A merge is a recording of both. -/
theorem scan_stops_at_rank {h : Histogram} {l : List UInt64} (hr : Recorded h l)
    (hl : l.length < 2 ^ 64) :
    (∀ v w : UInt64, v ≤ w → index v ≤ index w) ∧
    (∀ v, index v < 976) ∧
    (∀ v, index (upper (index v)) = index v ∧ (∀ w, index w = index v → w ≤ upper (index v)) ∧
      v ≤ upper (index v) ∧ (upper (index v)).toNat ≤ v.toNat + v.toNat / 16) ∧
    h.n.toNat = l.length ∧
    (∀ r, 1 ≤ r → r ≤ h.n.toNat → ∃ s i, Rank.smallest l r = some s ∧
      stop h (.ofNat r) 0 0 kBuckets = some i ∧ s ≤ min (upper i) h.max ∧
      (min (upper i) h.max).toNat ≤ s.toNat + s.toNat / 16) ∧
    (∀ h' l' g l'', Recorded h' l' → Recorded g l'' → l''.Perm (l ++ l') → merge h h' = g) ∧
    ∀ v, (countAbove h v).toNat = l.countP fun w => upper (index v) < w := by
  obtain rfl := hr.eq
  have hn : (ofList l).n.toNat = l.length := UInt64.toNat_ofNat_of_lt' hl
  refine ⟨fun v w => index_mono, index_lt, fun v => ⟨index_upper (index_lt v), fun w hw => ?_,
    (index_le_iff (index_lt v)).mp (le_refl _), upper_le v⟩, hn, fun r h1 h2 => ?_,
    fun h' l' g l'' hr' hg hp => ?_, fun v => ?_⟩
  · exact (index_le_iff (index_lt v)).mp hw.le
  · rw [hn] at h2
    obtain ⟨s, hs⟩ := Rank.smallest_isSome h1 h2
    exact ⟨s, index s, hs, stop_spec hl h2 hs, report_spec (Rank.smallest_mem hs)⟩
  · rw [hr'.eq, hg.eq, merge_ofList, ofList_perm hp]
  · rw [countAbove_spec]
    exact UInt64.toNat_ofNat_of_lt' (lt_of_le_of_lt List.countP_le_length hl)

theorem scan_stops_at_rank_two :
    let h := record (record init 3) 1000
    (∃ s i, Rank.smallest [3, 1000] 2 = some s ∧ stop h 2 0 0 kBuckets = some i ∧
      s ≤ min (upper i) h.max ∧ (min (upper i) h.max).toNat ≤ s.toNat + s.toNat / 16) ∧
    merge h init = h ∧ (countAbove h 5).toNat = 1 := by
  have hr : Recorded (record (record init 3) 1000) [3, 1000] := .record 1000 (.record 3 .init)
  obtain ⟨-, -, -, -, hrank, hmerge, habove⟩ := scan_stops_at_rank hr (by decide)
  exact ⟨hrank 2 (by decide) (by decide), hmerge init [] _ [3, 1000] .init hr (.refl _), habove 5⟩

/-- A value recorded `2 ^ k` times, by merging a histogram with itself. -/
def doubled (v : UInt64) : Nat → Histogram
  | 0 => record init v
  | k + 1 => merge (doubled v k) (doubled v k)

theorem doubled_recorded (v : UInt64) (k : Nat) :
    Recorded (doubled v k) (.replicate (2 ^ k) v) := by
  induction k with
  | zero => exact .record v .init
  | succ k ih =>
    have h := Recorded.merge ih ih
    rwa [← List.replicate_add, ← Nat.two_mul, ← Nat.pow_succ'] at h

/-- With 2^64 samples the counters have wrapped to zero. -/
theorem count_above_wraps :
    Recorded (doubled 1000 64) (.replicate (2 ^ 64) 1000) ∧
    (countAbove (doubled 1000 64) 5).toNat ≠
      (List.replicate (2 ^ 64) 1000).countP fun w => upper (index 5) < w := by
  have hr := doubled_recorded 1000 64
  refine ⟨hr, ?_⟩
  have hc : ((List.replicate (2 ^ 64) 1000).countP fun w => upper (index 5) < w) = 2 ^ 64 := by
    rw [List.countP_replicate, if_pos (by decide)]
  rw [hr.eq, countAbove_spec, hc]
  decide

/-! ## The quantiles -/

theorem rank_of_quantile {n : Nat} (h0 : 0 < n) (hn : n < 2 ^ 64) {q : ℚ} (hq : q ≤ 1) :
    ⌊q * ((n - 1 : Nat) : ℚ)⌋₊ + 1 ≤ n ∧
    rank (.ofNat n) q = .ofNat (⌊q * ((n - 1 : Nat) : ℚ)⌋₊ + 1) := by
  have hfloor : ⌊q * ((n - 1 : Nat) : ℚ)⌋₊ ≤ n - 1 := by
    refine Nat.floor_le_of_le ?_
    have hpos : (0 : ℚ) ≤ ((n - 1 : Nat) : ℚ) := Nat.cast_nonneg _
    exact mul_le_of_le_one_left hpos hq
  have hpred : (UInt64.ofNat n - 1).toNat = n - 1 := by
    rw [UInt64.toNat_sub, UInt64.toNat_ofNat_of_lt' hn]
    simp only [UInt64.toNat_one]
    omega
  refine ⟨by omega, ?_⟩
  unfold rank
  rw [hpred, UInt64.ofNat_add]
  rfl

/-- A quantile covers its share exactly if the value that completes the share
lies in no later bucket than the value of the rank that is computed. -/
theorem quantile_covers_iff {h : Histogram} {l : List UInt64} (hr : Recorded h l) (h0 : l ≠ [])
    (hn : l.length < 2 ^ 53) {q : ℚ} (hq0 : 0 ≤ q) (hq1 : q ≤ 1) :
    q * l.length ≤ ((l.countP fun v => v ≤ quantile h q : Nat) : ℚ) ↔
    ∀ a b, Rank.smallest l (⌊q * ((l.length - 1 : Nat) : ℚ)⌋₊ + 1) = some a →
      Rank.smallest l ⌈q * l.length⌉₊ = some b → index b ≤ index a := by
  obtain rfl := hr.eq
  have hpos : 0 < l.length := List.length_pos_iff.mpr h0
  have hlt : l.length < 2 ^ 64 := hn.trans (by decide)
  obtain ⟨hle, hrank⟩ := rank_of_quantile hpos hlt hq1
  obtain ⟨a, ha⟩ := Rank.smallest_isSome (Nat.succ_pos _) hle
  have hnz : (ofList l).n ≠ 0 := by
    intro hz
    have := congrArg UInt64.toNat hz
    rw [show (ofList l).n.toNat = l.length from UInt64.toNat_ofNat_of_lt' hlt] at this
    simp only [UInt64.toNat_zero] at this
    omega
  have hquantile : quantile (ofList l) q = min (upper (index a)) (greatest l) := by
    unfold quantile report
    rw [if_neg hnz, show (ofList l).n = .ofNat l.length from rfl, hrank, stop_spec hlt hle ha]
    rfl
  -- no value is above the maximum, so the upper edge of the bucket decides
  have hcount : (l.countP fun v => v ≤ quantile (ofList l) q) =
      l.countP fun v => v ≤ upper (index a) := by
    refine List.countP_congr fun v hv => ?_
    simp only [decide_eq_true_eq, hquantile, le_min_iff, le_greatest hv, and_true]
  rw [hcount, ← Nat.ceil_le]
  constructor
  · intro hc a' b ha' hb
    rw [ha] at ha'
    obtain rfl := Option.some.inj ha'
    exact (index_le_iff (index_lt a)).mpr ((Rank.le_of_rank hb _).mpr hc)
  · intro hc
    by_cases hz : 1 ≤ ⌈q * l.length⌉₊
    · have hceil : ⌈q * (l.length : ℚ)⌉₊ ≤ l.length :=
        Nat.ceil_le.mpr (mul_le_of_le_one_left (Nat.cast_nonneg _) hq1)
      obtain ⟨b, hb⟩ := Rank.smallest_isSome hz hceil
      exact (Rank.le_of_rank hb _).mp ((index_le_iff (index_lt a)).mp (hc a b ha hb))
    · omega

/-- The median of two. -/
theorem quantile_covers_iff_two :
    let h := record (record init 1) 1000
    (1 / 2 : ℚ) * 2 ≤ (([1, 1000].countP fun v => v ≤ quantile h (1 / 2) : Nat) : ℚ) := by
  have hr : Recorded (record (record init 1) 1000) [1, 1000] := .record 1000 (.record 1 .init)
  refine (quantile_covers_iff hr (by decide) (by decide) (q := 1 / 2) (by norm_num)
    (by norm_num)).mpr fun a b ha hb => ?_
  have hfloor : ⌊(1 / 2 : ℚ) * ((2 - 1 : Nat) : ℚ)⌋₊ + 1 = 1 := by norm_num
  have hceil : ⌈(1 / 2 : ℚ) * (2 : Nat)⌉₊ = 1 := by norm_num
  have hab : some a = some b := by
    rw [← ha, ← hb]
    exact congrArg _ (hfloor.trans hceil.symm)
  rw [Option.some.inj hab]

/-- Nine tenths of two samples are both, and the smaller one is reported. -/
theorem quantile_under_reports :
    Recorded (record (record init 1) 1000) [1, 1000] ∧
    ¬ (9 / 10 : ℚ) * 2 ≤
      (([1, 1000].countP fun v => v ≤ quantile (record (record init 1) 1000) (9 / 10) : Nat) : ℚ) := by
  refine ⟨.record 1000 (.record 1 .init), ?_⟩
  have hrank : rank (record (record init 1) 1000).n (9 / 10) = 1 := by
    have hfloor : ⌊(9 / 10 : ℚ) * ((2 - 1 : Nat) : ℚ)⌋₊ = 0 := by norm_num
    show UInt64.ofNat ⌊(9 / 10 : ℚ) * ((2 - 1 : Nat) : ℚ)⌋₊ + 1 = 1
    rw [hfloor]
    rfl
  have hquantile : quantile (record (record init 1) 1000) (9 / 10) = 1 := by
    unfold quantile
    rw [hrank]
    decide
  rw [hquantile, show ([1, 1000].countP fun v : UInt64 => v ≤ 1) = 1 by decide]
  norm_num

end Katas.Turnstile.Histogram
