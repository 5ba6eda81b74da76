import Katas.Switchyard.Compact
import Katas.Switchyard.Direct16
import Katas.Switchyard.Ordered

/-!
# What the tables ask

The counting dispatch of the two tables: one probe for the slot, and one for
each candidate it asks. A key with one handler that is not residual costs no
candidate, and another no more than the scan asks, as the candidates are the
scan's handlers of that key in the scan's order. `probes_` is taken as
unbounded, and grows by no more than the packets and what the scan asks.
-/
namespace Katas.Switchyard
open Katas.Conc

/-- mirrors plugin-dispatch-kata/cpp/src/strategy.hpp:182-186 (`run<true>`) -/
def walkCounted (cand : List Declaring) (p : Packet) (s : Slot) (i probes : Nat) :
    Nat → Option Declaring × Nat
  | 0 => (none, probes)
  | n + 1 =>
    match cand[(s.begin + .ofNat i).toNat]? with
    | none => (none, probes + 1)
    | some h => if h.matches_ p then (some h, probes + 1) else walkCounted cand p s (i + 1) (probes + 1) n

/-- mirrors plugin-dispatch-kata/cpp/src/strategy.hpp:180-187,257-265 (`run<true>`) -/
def Slot.runCounted (s : Slot) (cand : List Declaring) (p : Packet) (probes : Nat) :
    Option Declaring × Nat :=
  match s.only with
  | some h => (some h, probes)
  | none => walkCounted cand p s 0 probes s.count.toNat

/-- mirrors plugin-dispatch-kata/cpp/src/strategy.hpp:177-188 (`run<true>`) -/
def TableDirect16.findCounted (t : TableDirect16) (p : Packet) (probes : Nat) :
    Option Declaring × Nat :=
  (t.tbl p.protocol).runCounted t.cand p (probes + 1)

/-- mirrors plugin-dispatch-kata/cpp/src/strategy.hpp:254-266 (`run<true>`) -/
def TableCompact.findCounted (t : TableCompact) (p : Packet) (probes : Nat) :
    Option Declaring × Nat :=
  let c := t.tbl (p.protocol &&& kMask)
  if c.key ≠ p.protocol then (none, probes + 1) else c.slot.runCounted t.cand p (probes + 1)

section
variable {W : Type} (process : Declaring → Packet → W → Result × W)

/-- A counting dispatch that looks the handler up with `find`.
mirrors plugin-dispatch-kata/cpp/src/strategy.hpp:169,238 -/
def dispatchCounted (find : Packet → Nat → Option Declaring × Nat) (p : Packet) :
    Nat × W → Result × Nat × W
  | (probes, w) =>
    match find p probes with
    | (none, probes) => (.unsupported, probes, w)
    | (some h, probes) => ((process h p w).1, probes, (process h p w).2)

end

/-! ## One packet -/

/-- The candidates that are asked of the handlers `l` of the packet's key. -/
def asks (p : Packet) : List Declaring → Nat
  | [h] => if h.declare.residual then 1 else 0
  | l => asked p l

variable {hs : List Declaring} {k : UInt16} {cand : List Declaring} {s : Slot} {p : Packet}

theorem asks_le (p : Packet) (l : List Declaring) : asks p l ≤ asked p l := by
  unfold asks
  split
  · unfold asked
    split <;> split <;> simp
  · exact Nat.le_refl _

/-- The handlers that cannot match need not be asked. -/
theorem asked_filter {q : Declaring → Bool} {l : List Declaring}
    (h : ∀ d ∈ l, d.matches_ p = true → q d = true) : asked p (l.filter q) ≤ asked p l := by
  induction l with
  | nil => exact Nat.le_refl 0
  | cons d l ih =>
    have ih := ih fun x hx => h x (List.mem_cons_of_mem _ hx)
    cases hq : q d with
    | true =>
      rw [List.filter_cons_of_pos hq]
      unfold asked
      split
      · exact Nat.le_refl 1
      · exact Nat.succ_le_succ ih
    | false =>
      rw [List.filter_cons_of_neg (by rw [hq]; exact Bool.false_ne_true)]
      conv_rhs => unfold asked
      split
      · rename_i hm
        rw [h d List.mem_cons_self hm] at hq
        cases hq
      · exact Nat.le_succ_of_le ih

theorem Registered.asked_ofKey (hr : Registered hs) (p : Packet) :
    asked p (ofKey hs p.protocol) ≤ asked p hs :=
  asked_filter fun d hd hm => decide_eq_true ((hr.honest d hd).key p hm).symm

theorem walkCounted_eq {l : List Declaring} (p : Packet) (i probes : Nat)
    (hf : s.begin.toNat + i + l.length < 2 ^ 32)
    (hl : (cand.drop (s.begin.toNat + i)).take l.length = l) :
    walkCounted cand p s i probes l.length =
      (walk cand p s i l.length, probes + asked p l) := by
  induction l generalizing i probes with
  | nil => rfl
  | cons h l ih =>
    rw [List.length_cons] at hf hl ⊢
    have hidx : (s.begin + UInt32.ofNat i).toNat = s.begin.toNat + i := by
      rw [UInt32.toNat_add, UInt32.toNat_ofNat', Nat.mod_eq_of_lt (by omega : i < 2 ^ 32)]
      exact Nat.mod_eq_of_lt (by omega)
    have hlen : s.begin.toNat + i < cand.length := by
      by_contra hge
      rw [List.drop_eq_nil_of_le (by omega), List.take_nil] at hl
      cases hl
    rw [List.drop_eq_getElem_cons hlen, List.take_succ_cons] at hl
    obtain ⟨hhead, htail⟩ := List.cons.inj hl
    unfold walkCounted walk asked
    rw [hidx, List.getElem?_eq_getElem hlen, hhead]
    dsimp only
    split
    · rfl
    · rw [ih (i + 1) (probes + 1) (by omega) htail, Nat.add_assoc, Nat.add_comm 1]

theorem Slot.Ranges.runCounted (h : s.Ranges cand hs k) (ho : s.only = none) (p : Packet)
    (probes : Nat) :
    s.runCounted cand p probes = (s.run cand p, probes + asked p (ofKey hs k)) := by
  unfold Slot.runCounted Slot.run
  rw [ho, h.count]
  exact walkCounted_eq p 0 probes (by rw [Nat.add_zero]; exact h.fits) h.range

theorem asks_eq (h : ¬ Sole hs k) : asks p (ofKey hs k) = asked p (ofKey hs k) := by
  unfold asks
  split
  · rename_i d hd
    have hres : d.declare.residual = true := by
      cases hres : d.declare.residual with
      | true => rfl
      | false => exact absurd ⟨d, hd, hres⟩ h
    rw [hd, if_pos hres]
    unfold asked
    split <;> rfl
  · rfl

/-- What a slot costs that serves key `k`. -/
theorem runCounted_sole {d : Declaring} (h1 : ofKey hs k = [d]) (h2 : d.declare.residual = false)
    (h3 : s.only = some d) (probes : Nat) :
    s.runCounted cand p probes = (s.run cand p, probes + asks p (ofKey hs k)) := by
  unfold Slot.runCounted Slot.run asks
  rw [h3, h1]
  dsimp only
  rw [h2]
  rfl

/-- Entered, a key with one handler that is not residual has it as its owner. -/
theorem enter_sole (h : Sole hs k) :
    (s.enter cand (gather (entries hs) k)).1.only.isSome = true := by
  obtain ⟨d, hd, hres⟩ := h
  rw [gather_eq, hd]
  unfold Slot.enter
  simp [hres]

namespace TableDirect16

theorem sole_owned : ∀ k ∈ distinctKeys (entries hs), Sole hs k →
    ((build hs).tbl k).only.isSome = true := by
  have hfold : ∀ (ks done : List UInt16) (t : TableDirect16),
      (∀ k ∈ done, Sole hs k → (t.tbl k).only.isSome = true) →
      ∀ k ∈ done ++ ks, Sole hs k → ((ks.foldl (enter (entries hs)) t).tbl k).only.isSome = true := by
    intro ks
    induction ks with
    | nil => intro done t h; rwa [List.append_nil]
    | cons j ks ih =>
      intro done t h
      rw [List.append_cons]
      refine ih (done ++ [j]) _ fun k hk hs' => ?_
      unfold enter
      dsimp only
      by_cases he : k = j
      · subst he
        rw [upd_self]
        exact enter_sole hs'
      · rw [upd_ne _ _ he]
        obtain hk | hk := List.mem_append.mp hk
        · exact h k hk hs'
        · exact absurd (List.mem_singleton.mp hk) he
  exact hfold (distinctKeys (entries hs)) [] _ fun k hk => absurd hk List.not_mem_nil

/-- The counting lookup finds what the scan finds, at the cost of the slot and
of the candidates. -/
theorem findCounted_eq (hr : Registered hs) (p : Packet) (probes : Nat) :
    (build hs).findCounted p probes =
      (scan p hs, probes + (1 + asks p (ofKey hs p.protocol))) := by
  have h := built hr
  rw [← Nat.add_assoc]
  unfold findCounted
  by_cases hk : p.protocol ∈ distinctKeys (entries hs)
  · have hserved := h.served _ hk
    rw [← hserved.run hr]
    obtain ⟨d, h1, h2, h3⟩ | ⟨h1, h2⟩ := hserved
    · exact runCounted_sole h1 h2 h3 _
    · rw [h2.runCounted h1, asks_eq]
      intro hsole
      have := sole_owned _ hk hsole
      rw [h1] at this
      cases this
  · have hnil := ofKey_eq_nil fun d hd he => hk (mem_distinctKeys.mpr ⟨d, hd, he⟩)
    rw [hr.scan_ofKey, hnil, h.other _ hk]
    rfl

end TableDirect16

namespace TableCompact

theorem sole_owned : ∀ k ∈ distinctKeys (entries hs), Sole hs k →
    ((build hs).tbl (k &&& kMask)).key = k →
    ((build hs).tbl (k &&& kMask)).slot.only.isSome = true := by
  have hfold : ∀ (ks done : List UInt16) (t : TableCompact),
      (∀ k ∈ done, Sole hs k → (t.tbl (k &&& kMask)).key = k →
        (t.tbl (k &&& kMask)).slot.only.isSome = true) →
      ∀ k ∈ done ++ ks, Sole hs k →
        ((ks.foldl (enter (entries hs)) t).tbl (k &&& kMask)).key = k →
        ((ks.foldl (enter (entries hs)) t).tbl (k &&& kMask)).slot.only.isSome = true := by
    intro ks
    induction ks with
    | nil => intro done t h; rwa [List.append_nil]
    | cons j ks ih =>
      intro done t h
      rw [List.append_cons]
      refine ih (done ++ [j]) _ fun k hk hs' hkey => ?_
      have hnew : k ≠ j → k ∈ done := fun hne => by
        obtain hk | hk := List.mem_append.mp hk
        · exact hk
        · exact absurd (List.mem_singleton.mp hk) hne
      unfold enter at hkey ⊢
      dsimp only at hkey ⊢
      by_cases hc : (t.tbl (j &&& kMask)).key ≠ kEmpty ∧ (t.tbl (j &&& kMask)).key ≠ j
      · rw [if_pos hc] at hkey ⊢
        by_cases he : k = j
        · subst he
          exact absurd hkey hc.2
        · exact h k (hnew he) hs' hkey
      · rw [if_neg hc] at hkey ⊢
        by_cases he : k &&& kMask = j &&& kMask
        · dsimp only at hkey ⊢
          rw [he, upd_self] at hkey
          have hkj : j = k := hkey
          subst hkj
          rw [upd_self]
          exact enter_sole hs'
        · dsimp only at hkey ⊢
          rw [upd_ne _ _ he] at hkey ⊢
          exact h k (hnew fun hkj => he (congrArg (· &&& kMask) hkj)) hs' hkey
  exact hfold (distinctKeys (entries hs)) [] _ fun k hk => absurd hk List.not_mem_nil

/-- An owner that is left in a slot would clash. -/
theorem not_stale (hr : Registered hs) (hno : ¬ Clash hs) (hk : k ∈ distinctKeys (entries hs)) :
    ¬ Stale hs (distinctKeys (entries hs)) k := by
  rintro ⟨hne, hm, -, d, hd, hres⟩
  obtain ⟨hdm, hdk⟩ := ofKey_mem (hd ▸ List.mem_singleton.mpr rfl : d ∈ ofKey hs kEmpty)
  refine hno ⟨⟨d, hdm, hdk, packetOf kEmpty, ?_⟩, overwritten_iff.mp ⟨_, hk, hne, hm⟩⟩
  exact (hr.honest d hdm).all hres _ hdk.symm

/-- A key that its slot does not have has no handler that matches. -/
theorem scan_none (hr : Registered hs) (hi : (build hs).injective = true) (hno : ¬ Clash hs)
    (hkey : ((build hs).tbl (p.protocol &&& kMask)).key ≠ p.protocol) : scan p hs = none := by
  rw [scan_eq, List.find?_eq_none]
  intro d hd hm
  have hdk : d.declare.key = p.protocol := ((hr.honest d hd).key p hm).symm
  obtain hkey' | ⟨he, hover⟩ := (built hr hi).kept _ (mem_distinctKeys.mpr ⟨d, hd, hdk⟩)
  · exact hkey hkey'
  · exact hno ⟨⟨d, hd, hdk.trans he, p, hm⟩, overwritten_iff.mp hover⟩

/-- The counting lookup finds what the scan finds, and costs no more than that
of the other table. -/
theorem findCounted_eq (hr : Registered hs) (hi : (build hs).injective = true) (hno : ¬ Clash hs)
    (p : Packet) : ∃ c ≤ 1 + asks p (ofKey hs p.protocol), ∀ probes,
      (build hs).findCounted p probes = (scan p hs, probes + c) := by
  have h := built hr hi
  unfold findCounted
  dsimp only
  by_cases hkey : ((build hs).tbl (p.protocol &&& kMask)).key = p.protocol
  · refine ⟨_, Nat.le_refl _, fun probes => ?_⟩
    rw [if_neg (not_not.mpr hkey), ← Nat.add_assoc]
    by_cases hk : p.protocol ∈ distinctKeys (entries hs)
    · have hserved := h.served _ hk hkey
      have hfresh := not_stale hr hno hk
      rw [← hserved.run hr hfresh]
      obtain ⟨d, h1, h2, h3⟩ | ⟨h1, h2⟩ := hserved
      · exact runCounted_sole h1 h2 h3 _
      · have hnone := h1.resolve_right hfresh
        rw [h2.runCounted hnone, asks_eq]
        intro hsole
        have := sole_owned _ hk hsole hkey
        rw [hnone] at this
        cases this
    · -- the slot of key 0xFFFF, which nobody declares, looks like its own
      have he : p.protocol = kEmpty := by
        by_contra hne
        exact hk (hkey ▸ (h.keyed _ (by rw [hkey]; exact hne)).1)
      have hnil := ofKey_eq_nil fun d hd he => hk (mem_distinctKeys.mpr ⟨d, hd, he⟩)
      obtain hinit | ⟨hmem, -⟩ := h.of_empty (hkey.trans he)
      · rw [hr.scan_ofKey, hnil, hinit]
        rfl
      · exact absurd (he ▸ hmem) hk
  · refine ⟨1, Nat.le_add_right _ _, fun probes => ?_⟩
    rw [if_pos hkey, scan_none hr hi hno hkey]

end TableCompact

/-! ## A stream of packets -/

section
variable {W : Type} (process : Declaring → Packet → W → Result × W)

/-- A lookup that finds what the scan finds serves a stream as the scan does. -/
theorem stream_lookup {find : Packet → Nat → Option Declaring × Nat} {c : Packet → Nat}
    (hf : ∀ p probes, find p probes = (scan p hs, probes + c p)) (ps : List Packet)
    (n m : Nat) (w : W) :
    (stream (dispatchCounted process find) ps (n, w)).1 =
        (stream (ScanUnordered.dispatchCounted process) ps (hs, m, w)).1 ∧
      (stream (dispatchCounted process find) ps (n, w)).2.2 =
        (stream (ScanUnordered.dispatchCounted process) ps (hs, m, w)).2.2.2 ∧
      (stream (dispatchCounted process find) ps (n, w)).2.1 = n + (ps.map c).sum := by
  induction ps generalizing n m w with
  | nil => exact ⟨rfl, rfl, rfl⟩
  | cons p ps ih =>
    obtain ⟨r, w', h1, h2⟩ : ∃ r w', dispatchCounted process find p (n, w) = (r, n + c p, w') ∧
        ScanUnordered.dispatchCounted process p (hs, m, w) = (r, hs, m + asked p hs, w') := by
      unfold dispatchCounted ScanUnordered.dispatchCounted
      dsimp only
      rw [hf, scanCounted_eq]
      cases scan p hs <;> exact ⟨_, _, rfl, rfl⟩
    unfold stream
    rw [h1, h2]
    obtain ⟨h3, h4, h5⟩ := ih (n + c p) (m + asked p hs) w'
    refine ⟨congrArg (r :: ·) h3, h4, ?_⟩
    dsimp only
    rw [h5, List.map_cons, List.sum_cons, Nat.add_assoc]

/-- Both tables serve a stream of packets as the scan does. The table of all
keys looks once at a slot for each packet, and asks no handler twice nor one
that the scan does not ask; the table of the low bits, if its keys do not
collide, costs no more. -/
theorem tables_probe_less (hr : Registered hs) (ps : List Packet) (w : W) :
    let scanned := stream (ScanUnordered.dispatchCounted process) ps (hs, 0, w)
    let direct := stream (dispatchCounted process (TableDirect16.build hs).findCounted) ps (0, w)
    let compact := stream (dispatchCounted process (TableCompact.build hs).findCounted) ps (0, w)
    (direct.1 = scanned.1 ∧ direct.2.2 = scanned.2.2.2 ∧
      direct.2.1 = (ps.map fun p => 1 + asks p (ofKey hs p.protocol)).sum ∧
      direct.2.1 ≤ ps.length + scanned.2.2.1) ∧
    ((TableCompact.build hs).injective = true → ¬ TableCompact.Clash hs →
      compact.1 = scanned.1 ∧ compact.2.2 = scanned.2.2.2 ∧ compact.2.1 ≤ direct.2.1) := by
  obtain ⟨d1, d2, d3⟩ :=
    stream_lookup process (TableDirect16.findCounted_eq hr) ps 0 0 w
  rw [Nat.zero_add] at d3
  refine ⟨⟨d1, d2, d3, ?_⟩, fun hi hno => ?_⟩
  · rw [d3, stream_probes, Nat.zero_add]
    calc (ps.map fun p => 1 + asks p (ofKey hs p.protocol)).sum
        ≤ (ps.map fun p => 1 + asked p hs).sum :=
          List.sum_le_sum fun p _ => Nat.add_le_add_left ((asks_le p _).trans (hr.asked_ofKey p)) 1
      _ = ps.length + cost hs ps := by
          rw [List.sum_map_add, List.map_const', List.sum_replicate, Nat.nsmul_eq_mul, Nat.mul_one]
          rfl
  · obtain ⟨c, hc⟩ := Classical.axiomOfChoice (TableCompact.findCounted_eq hr hi hno)
    obtain ⟨c1, c2, c3⟩ := stream_lookup process (fun p => (hc p).2) ps 0 0 w
    rw [Nat.zero_add] at c3
    refine ⟨c1, c2, ?_⟩
    rw [c3, d3]
    exact List.sum_le_sum fun p _ => (hc p).1

end

/-- A packet for each handler, one that none matches, and one of no key. -/
def fivePackets : List Packet :=
  [{ packetOf 7 with flags := 2 }, packetOf 5, { packetOf 7 with flags := 1 }, packetOf 7, packetOf 9]

theorem tables_probe_less_five :
    let scanned := stream (ScanUnordered.dispatchCounted counting) fivePackets
      (threeHandlers, 0, fun _ => 0)
    let direct := stream (dispatchCounted counting (TableDirect16.build threeHandlers).findCounted)
      fivePackets (0, fun _ => 0)
    let compact := stream (dispatchCounted counting (TableCompact.build threeHandlers).findCounted)
      fivePackets (0, fun _ => 0)
    compact.1 = scanned.1 ∧ scanned.2.2.1 = 12 ∧ direct.2.1 = 10 ∧ compact.2.1 ≤ direct.2.1 := by
  have hno : ¬ TableCompact.Clash threeHandlers := by
    rintro ⟨⟨h, hh, he, -⟩, -⟩
    revert h
    decide
  obtain ⟨⟨-, -, hprobes, -⟩, hcompact⟩ := tables_probe_less counting threeHandlers_registered
    fivePackets fun _ => 0
  obtain ⟨h1, -, h3⟩ := hcompact (by decide +kernel) hno
  exact ⟨h1, by decide +kernel, hprobes.trans (by decide), h3⟩

end Katas.Switchyard
