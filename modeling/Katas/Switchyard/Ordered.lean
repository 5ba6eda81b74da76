import Katas.Core.Rearrange
import Katas.Switchyard.Reorder
import Mathlib.Algebra.Order.Ring.Nat

/-!
# The best static order

How many handlers the scans ask for a stream of packets. A packet that the
`j`-th handler matches costs `j + 1`, one that none matches costs them all. If
no two handlers match the same packet, the scan asks its `j`-th handler for all
the packets that the handlers before do not match (`cost_prefixes`), and those
are fewest when the handlers come by frequency.
-/
namespace Katas.Switchyard
open Katas.Rearrange

/-- The scan, which counts the handlers it asks. `probes_` is taken as unbounded;
`probes_le` says how far it gets.
mirrors plugin-dispatch-kata/cpp/src/strategy.hpp:40-47 (`ScanUnordered::run<true>`) -/
def scanCounted (p : Packet) (probes : Nat) : List Declaring → Option Declaring × Nat
  | [] => (none, probes)
  | h :: hs => if h.matches_ p then (some h, probes + 1) else scanCounted p (probes + 1) hs

/-- mirrors plugin-dispatch-kata/cpp/src/strategy.hpp:33 -/
def ScanUnordered.dispatchCounted {W : Type} (process : Declaring → Packet → W → Result × W)
    (p : Packet) : List Declaring × Nat × W → Result × List Declaring × Nat × W
  | (hs, probes, w) =>
    match scanCounted p probes hs with
    | (none, probes) => (.unsupported, hs, probes, w)
    | (some h, probes) => ((process h p w).1, hs, probes, (process h p w).2)

variable {hs hs' : List Declaring} {p : Packet} {ps : List Packet}

/-! ## What a scan costs -/

/-- How many handlers the scan asks. -/
def asked (p : Packet) : List Declaring → Nat
  | [] => 0
  | h :: hs => if h.matches_ p then 1 else asked p hs + 1

theorem asked_le (p : Packet) (hs : List Declaring) : asked p hs ≤ hs.length := by
  induction hs with
  | nil => exact Nat.le_refl 0
  | cons h hs ih =>
    unfold asked
    rw [List.length_cons]
    split <;> omega

theorem scanCounted_eq (probes : Nat) :
    scanCounted p probes hs = (scan p hs, probes + asked p hs) := by
  induction hs generalizing probes with
  | nil => rfl
  | cons h hs ih =>
    unfold scanCounted scan asked
    split
    · rfl
    · rw [ih, Nat.add_assoc, Nat.add_comm 1]

def cost (hs : List Declaring) (ps : List Packet) : Nat := (ps.map fun p => asked p hs).sum

theorem stream_probes {W : Type} (process : Declaring → Packet → W → Result × W)
    (ps : List Packet) (probes : Nat) (w : W) :
    (stream (ScanUnordered.dispatchCounted process) ps (hs, probes, w)).2.2.1 =
      probes + cost hs ps := by
  induction ps generalizing probes w with
  | nil => rfl
  | cons p ps ih =>
    have hstep : ∃ r w', ScanUnordered.dispatchCounted process p (hs, probes, w) =
        (r, hs, probes + asked p hs, w') := by
      unfold ScanUnordered.dispatchCounted
      dsimp only
      rw [scanCounted_eq]
      cases scan p hs <;> exact ⟨_, _, rfl⟩
    obtain ⟨r, w', hstep⟩ := hstep
    show (stream _ ps (ScanUnordered.dispatchCounted process p (hs, probes, w)).2).2.2.1 = _
    rw [hstep, ih, cost, cost, List.map_cons, List.sum_cons, Nat.add_assoc]

theorem cost_le (hs : List Declaring) (ps : List Packet) : cost hs ps ≤ ps.length * hs.length := by
  have h := List.sum_le_card_nsmul (ps.map fun p => asked p hs) hs.length fun n hn => by
    obtain ⟨p, -, rfl⟩ := List.mem_map.mp hn
    exact asked_le p hs
  rwa [List.length_map, Nat.nsmul_eq_mul] at h

/-- A packet is asked of no handler twice: `probes_`, which has 64 bits in the
source, does not wrap while packets times handlers are below 2^64. -/
theorem probes_le {W : Type} (process : Declaring → Packet → W → Result × W)
    (hs : List Declaring) (ps : List Packet) (w : W) :
    (stream (ScanUnordered.dispatchCounted process) ps (hs, 0, w)).2.2.1 ≤
      ps.length * hs.length := by
  rw [stream_probes, Nat.zero_add]
  exact cost_le hs ps

/-- The first handler is asked for every packet, the others for those it does
not match. -/
theorem cost_cons (h : Declaring) (ps : List Packet) :
    cost (h :: hs) ps = ps.length + cost hs (ps.filter fun p => !h.matches_ p) := by
  induction ps with
  | nil => rfl
  | cons p ps ih =>
    have hhead : cost (h :: hs) (p :: ps) = asked p (h :: hs) + cost (h :: hs) ps := rfl
    rw [hhead, ih, asked, List.length_cons]
    cases hp : h.matches_ p with
    | true =>
      rw [List.filter_cons_of_neg (by simp [hp]), if_pos rfl]
      omega
    | false =>
      have hrest : ∀ ps, cost hs (p :: ps) = asked p hs + cost hs ps := fun _ => rfl
      rw [List.filter_cons_of_pos (by simp [hp]), if_neg Bool.false_ne_true, hrest]
      omega

/-- How many of the packets the handler matches. -/
def hits (ps : List Packet) (h : Declaring) : Nat := ps.countP h.matches_

theorem hits_filter {a h : Declaring} (hd : h.Disjoint a) :
    hits (ps.filter fun p => !h.matches_ p) a = hits ps a := by
  unfold hits
  rw [List.countP_filter]
  refine List.countP_congr fun p _ => ?_
  cases ha : a.matches_ p with
  | false => simp
  | true =>
    have hh : h.matches_ p = false := Bool.eq_false_iff.mpr fun hh => hd p ⟨hh, ha⟩
    simp [hh]

theorem length_filter_not (h : Declaring) (ps : List Packet) :
    hits ps h + (ps.filter fun p => !h.matches_ p).length = ps.length := by
  rw [← List.countP_eq_length_filter, List.length_eq_countP_add_countP h.matches_]
  simp [hits]

/-- A handler is not asked for the packets that the ones before it match. -/
theorem cost_prefixes (hd : hs.Pairwise Declaring.Disjoint) (ps : List Packet) :
    cost hs ps + prefixes (hs.map (hits ps)) = hs.length * ps.length := by
  induction hs generalizing ps with
  | nil => simp [cost, asked, prefixes]
  | cons h hs ih =>
    obtain ⟨hh, hd⟩ := List.pairwise_cons.mp hd
    have hmap : hs.map (hits (ps.filter fun p => !h.matches_ p)) = hs.map (hits ps) :=
      List.map_congr_left fun a ha => hits_filter (hh a ha)
    have ih := ih hd (ps.filter fun p => !h.matches_ p)
    rw [hmap] at ih
    rw [cost_cons, List.map_cons, prefixes_cons, List.length_map, Nat.nsmul_eq_mul,
      List.length_cons]
    have hlen := length_filter_not h ps
    calc ps.length + cost hs (ps.filter fun p => !h.matches_ p) +
          (hs.length * hits ps h + prefixes (hs.map (hits ps)))
        = ps.length + hs.length * hits ps h +
            (cost hs (ps.filter fun p => !h.matches_ p) + prefixes (hs.map (hits ps))) := by omega
      _ = ps.length + hs.length *
            (hits ps h + (ps.filter fun p => !h.matches_ p).length) := by
          rw [ih, Nat.mul_add, Nat.add_assoc]
      _ = (hs.length + 1) * ps.length := by rw [hlen, Nat.add_mul, Nat.one_mul, Nat.add_comm]

/-! ## By frequency -/

/-- `freq` holds, for each handler, how many of the packets it matches. -/
def Frequencies (hs : List Declaring) (freq : List UInt64) (ps : List Packet) : Prop :=
  ∀ (i : Nat) (h : Declaring), hs[i]? = some h →
    ∃ f : UInt64, freq[i]? = some f ∧ f.toNat = hits ps h

theorem order_pairwise (n : Nat) (freq : List UInt64) :
    (ScanOrdered.order n freq).Pairwise fun a b => freq.getD b 0 ≤ freq.getD a 0 := by
  have hle : ∀ a b, (!decide (freq.getD b 0 > freq.getD a 0)) = true ↔
      freq.getD b 0 ≤ freq.getD a 0 := fun a b => by simp
  refine (List.pairwise_mergeSort ?_ ?_ (List.range n)).imp fun {a b} h => (hle a b).mp h
  · intro a b c hab hbc
    exact (hle a c).mpr (UInt64.le_trans ((hle b c).mp hbc) ((hle a b).mp hab))
  · intro a b
    simp only [Bool.or_eq_true, hle]
    exact UInt64.le_total _ _

theorem ScanOrdered.hits_pairwise {freq : List UInt64} (hf : Frequencies hs freq ps) :
    ((ScanOrdered.handlers hs freq).map (hits ps)).Pairwise (· ≥ ·) := by
  rw [List.pairwise_map]
  unfold ScanOrdered.handlers
  rw [List.pairwise_filterMap]
  refine (order_pairwise hs.length freq).imp fun {a b} hab h hh h' hh' => ?_
  obtain ⟨f, hfa, hfn⟩ := hf a h hh
  obtain ⟨f', hfb, hfn'⟩ := hf b h' hh'
  rw [List.getD, List.getD, hfa, hfb] at hab
  rw [← hfn, ← hfn']
  exact UInt64.le_iff_toNat_le.mp hab

/-- If no two handlers match the same packet, no order of the handlers asks
fewer of them for a stream than the one by their frequencies in it. -/
theorem ordered_is_best {W : Type} (process : Declaring → Packet → W → Result × W)
    (hs : List Declaring) (hd : hs.Pairwise Declaring.Disjoint) (ps : List Packet)
    (freq : List UInt64) (hf : Frequencies hs freq ps) (hs' : List Declaring) (hp : hs'.Perm hs)
    (w : W) :
    (stream (ScanUnordered.dispatchCounted process) ps
        (ScanOrdered.handlers hs freq, 0, w)).2.2.1 ≤
      (stream (ScanUnordered.dispatchCounted process) ps (hs', 0, w)).2.2.1 := by
  have hperm := ScanOrdered.handlers_perm hs freq
  have hpair : ∀ {l : List Declaring}, l.Perm hs → l.Pairwise Declaring.Disjoint :=
    fun hl => (hl.pairwise_iff fun {_ _} h => h.symm).mpr hd
  have hord := cost_prefixes (hpair hperm) ps
  have hany := cost_prefixes (hpair hp) ps
  have hbest : prefixes (hs'.map (hits ps)) ≤
      prefixes ((ScanOrdered.handlers hs freq).map (hits ps)) :=
    prefixes_le (ScanOrdered.hits_pairwise hf) ((hp.trans hperm.symm).map _)
  rw [hperm.length_eq] at hord
  rw [hp.length_eq] at hany
  rw [stream_probes, stream_probes]
  omega

theorem ordered_is_best_two :
    let hs := [pure_ 0 10, pure_ 1 20]
    let ps := [packetOf 20, packetOf 7, packetOf 20]
    (stream (ScanUnordered.dispatchCounted counting) ps
        (ScanOrdered.handlers hs [0, 2], 0, fun _ => 0)).2.2.1 ≤
      (stream (ScanUnordered.dispatchCounted counting) ps (hs, 0, fun _ => 0)).2.2.1 := by
  refine ordered_is_best counting _ ?_ _ _ ?_ _ (.refl _) _
  · rw [List.pairwise_cons]
    refine ⟨fun a ha p hp => ?_, List.pairwise_singleton _ _⟩
    obtain rfl := List.mem_singleton.mp ha
    exact absurd ((of_decide_eq_true hp.1).symm.trans (of_decide_eq_true hp.2)) (by decide)
  · intro i h hi
    match i, hi with
    | 0, hi => cases hi; exact ⟨0, rfl, by decide⟩
    | 1, hi => cases hi; exact ⟨2, rfl, by decide⟩
    | i + 2, hi => cases hi

end Katas.Switchyard
