import Katas.Core.Mixing
import Katas.Switchyard.PacketStream
import Katas.Switchyard.TableProbes

/-!
# The arms agree

The benchmark compares its arms by a checksum of what they return: phase 1 on
one stream, phase 2 for each number of handlers, phase 3 for each distribution.
The generated handlers match disjoint sets of packets and have keys below 1024,
so each arm returns what the scan returns for whatever packets it is given. And
the checksum tells: one result that is changed in one field changes it.
-/
namespace Katas.Switchyard
open Katas.Mixing

/-! ## The checksum -/

/-- mirrors plugin-dispatch-kata/cpp/src/packet.hpp:47 -/
def Checksum.init : UInt64 := 0xcbf29ce484222325

/-- mirrors plugin-dispatch-kata/cpp/src/packet.hpp:48-51 -/
def Checksum.feed (h : UInt64) (r : Result) : UInt64 :=
  let h := (h ^^^ r.value) * fnv
  (h ^^^ r.handler.toUInt64) * fnv

def checksum (rs : List Result) : UInt64 := rs.foldl Checksum.feed Checksum.init

/-! ## The generated handlers at work -/

/-- mirrors plugin-dispatch-kata/cpp/src/generated.hpp:53-64 -/
def mix (n rounds : Nat) (p : Packet) : UInt64 :=
  (List.range rounds).foldl (fun h i =>
    (h ^^^ (p.payload.get (.ofNat 24 (i * 7 + n)) |>.toUInt64) + .ofNat (n + i)) *
      (0x100000001b3 + 2 * .ofNat i))
    (0xcbf29ce484222325 ^^^ .ofNat n * 0x9E3779B97F4A7C15)

/-- The handler `n` has the address `n`.
mirrors plugin-dispatch-kata/cpp/src/generated.hpp:86-88 (`GeneratedT::process`) -/
def generatedProcess (rounds : Nat) (h : Declaring) (p : Packet) (w : Unit) : Result × Unit :=
  (⟨mix h.address rounds p, keyOf h.address⟩, w)

/-! ## The arms -/

/-- mirrors plugin-dispatch-kata/cpp/src/strategy.hpp:28-272 -/
inductive Arm where
  | scanUnordered
  | scanOrdered
  | scanMoveToFront
  | tableDirect16
  | tableCompact
  deriving DecidableEq

section
variable {W : Type} (process : Declaring → Packet → W → Result × W)

/-- mirrors plugin-dispatch-kata/cpp/src/strategy.hpp:168,177-188,237,254-266 -/
def lookup (find : Packet → Option Declaring) (p : Packet) (w : W) : Result × W :=
  match find p with
  | none => (.unsupported, w)
  | some h => process h p w

/-- What an arm returns, and how it leaves the handlers. -/
def Arm.stream (hs : List Declaring) (freq : List UInt64) (ps : List Packet) (w : W) :
    Arm → List Result × W
  | scanUnordered =>
    let s := Switchyard.stream (ScanUnordered.dispatch process) ps (hs, w)
    (s.1, s.2.2)
  | scanOrdered =>
    let s := Switchyard.stream (ScanUnordered.dispatch process) ps (ScanOrdered.handlers hs freq, w)
    (s.1, s.2.2)
  | scanMoveToFront =>
    let s := Switchyard.stream (ScanMoveToFront.dispatch process) ps (hs, w)
    (s.1, s.2.2)
  | tableDirect16 => Switchyard.stream (lookup process (TableDirect16.build hs).dispatch) ps w
  | tableCompact => Switchyard.stream (lookup process (TableCompact.build hs).dispatch) ps w

end

/-! ## The checks -/

/-- mirrors plugin-dispatch-kata/cpp/src/config.hpp:44 -/
def kDispatchesPerRun : Nat := 1 <<< 18

/-- mirrors plugin-dispatch-kata/cpp/src/generated.hpp:32 -/
def kFatRounds : Nat := 48

/-- The checksum of a timed pass, which replays the packets.
mirrors plugin-dispatch-kata/cpp/bench/harness.hpp:53-68 (`run_arm`) -/
def runArm (hs : List Declaring) (freq : List UInt64) (ps : List Packet) (a : Arm) : UInt64 :=
  checksum (a.stream (generatedProcess kFatRounds) hs freq
    (List.replicate ((kDispatchesPerRun + ps.length - 1) / ps.length) ps).flatten ()).1

/-- mirrors plugin-dispatch-kata/cpp/bench/invariants.cpp:32-37 -/
def checksumOf (hs : List Declaring) (freq : List UInt64) (ps : List Packet) (a : Arm) : UInt64 :=
  checksum (a.stream (generatedProcess kFatRounds) hs freq ps ()).1

/-- mirrors plugin-dispatch-kata/cpp/bench/invariants.cpp:42-48 -/
def overlapping (id : Nat) : Declaring := ⟨id, ⟨3000, true⟩, fun p => p.protocol = 3000⟩

def overlappingProcess (h : Declaring) (_ : Packet) (w : Unit) : Result × Unit :=
  (⟨.ofNat h.address, .ofNat h.address⟩, w)

/-- mirrors plugin-dispatch-kata/cpp/bench/invariants.cpp:52-106 -/
def phase_invariants (s : PacketStream) : List Bool :=
  let hs := first kHandlers
  let sum := checksumOf hs s.frequencies s.packets
  let want := sum .scanUnordered
  let forward := ScanUnordered.dispatch overlappingProcess (packetOf 3000)
    ([overlapping 1, overlapping 2], ())
  let reverse := ScanUnordered.dispatch overlappingProcess (packetOf 3000)
    ([overlapping 2, overlapping 1], ())
  [sum .scanOrdered = want, sum .scanMoveToFront = want, sum .tableDirect16 = want,
    sum .tableCompact = want, (TableCompact.build hs).injective,
    forward.1.handler = 1 ∧ reverse.1.handler = 2]

/-- mirrors plugin-dispatch-kata/cpp/bench/scan.cpp:23-60 -/
def phase_scan (n : Nat) (s : PacketStream) : Bool :=
  let run := runArm (first n) s.frequencies s.packets
  run .scanUnordered = run .tableCompact

/-- mirrors plugin-dispatch-kata/cpp/bench/distribution.cpp:39-91 -/
def phase_distribution (s : PacketStream) : Bool :=
  let run := runArm (first kHandlers) s.frequencies s.packets
  run .scanOrdered = run .scanUnordered ∧ run .scanMoveToFront = run .scanUnordered ∧
    run .tableDirect16 = run .scanUnordered ∧ run .tableCompact = run .scanUnordered

/-! ## Counting changes nothing -/

variable {hs : List Declaring} {p : Packet}

theorem walkCounted_fst (cand : List Declaring) (p : Packet) (s : Slot) (i probes n : Nat) :
    (walkCounted cand p s i probes n).1 = walk cand p s i n := by
  induction n generalizing i probes with
  | zero => rfl
  | succ n ih =>
    unfold walkCounted walk
    cases cand[(s.begin + UInt32.ofNat i).toNat]? with
    | none => rfl
    | some h =>
      dsimp only
      split
      · rfl
      · exact ih _ _

theorem Slot.runCounted_fst (s : Slot) (cand : List Declaring) (p : Packet) (probes : Nat) :
    (s.runCounted cand p probes).1 = s.run cand p := by
  unfold Slot.runCounted Slot.run
  cases s.only with
  | some h => rfl
  | none => exact walkCounted_fst ..

theorem TableDirect16.finds (hr : Registered hs) : (build hs).dispatch = (scan · hs) := by
  funext p
  have h := congrArg Prod.fst (findCounted_eq hr p 0)
  exact (Slot.runCounted_fst ..).symm.trans h

theorem TableCompact.finds (hr : Registered hs) (hi : (build hs).injective = true)
    (hno : ¬ Clash hs) : (build hs).dispatch = (scan · hs) := by
  funext p
  obtain ⟨c, -, hc⟩ := findCounted_eq hr hi hno p
  refine Eq.trans ?_ (congrArg Prod.fst (hc 0))
  unfold dispatch findCounted
  dsimp only
  split
  · rfl
  · exact (Slot.runCounted_fst ..).symm

/-! ## What each arm returns -/

section
variable {W : Type} {process : Declaring → Packet → W → Result × W}

/-- An arm that gives each packet to the handler that the scan finds, whatever
order its own list is in. -/
theorem stream_scan {A : Type} {dispatch : Packet → A × W → Result × A × W} {R : A → Prop}
    (h : ∀ p a w, R a → R (dispatch p (a, w)).2.1 ∧
      ((dispatch p (a, w)).1, (dispatch p (a, w)).2.2) = lookup process (scan · hs) p w)
    (ps : List Packet) {a : A} (w : W) (hr : R a) :
    ((stream dispatch ps (a, w)).1, (stream dispatch ps (a, w)).2.2) =
      stream (lookup process (scan · hs)) ps w := by
  induction ps generalizing a w with
  | nil => rfl
  | cons p ps ih =>
    obtain ⟨hkeep, hout⟩ := h p a w hr
    generalize hd : dispatch p (a, w) = out at hkeep hout
    obtain ⟨r, a', w'⟩ := out
    unfold stream
    rw [hd, ← hout]
    dsimp only
    rw [← ih w' hkeep]

variable (process) in
theorem scan_stream (hd : hs.Pairwise Declaring.Disjoint) {l : List Declaring} (hl : l.Perm hs)
    (ps : List Packet) (w : W) :
    ((stream (ScanUnordered.dispatch process) ps (l, w)).1,
        (stream (ScanUnordered.dispatch process) ps (l, w)).2.2) =
      stream (lookup process (scan · hs)) ps w := by
  refine stream_scan (R := fun a => a.Perm hs) (fun p a w ha => ?_) ps w hl
  unfold ScanUnordered.dispatch lookup
  dsimp only
  rw [scan_perm hd ha]
  cases scan p hs <;> exact ⟨ha, rfl⟩

theorem moveToFront_stream (hd : hs.Pairwise Declaring.Disjoint) (ps : List Packet) (w : W) :
    ((stream (ScanMoveToFront.dispatch process) ps (hs, w)).1,
        (stream (ScanMoveToFront.dispatch process) ps (hs, w)).2.2) =
      stream (lookup process (scan · hs)) ps w := by
  refine stream_scan (R := fun a => a.Perm hs) (fun p a w ha => ?_) ps w (.refl hs)
  obtain ⟨hperm, hout⟩ := ScanMoveToFront.runFrom_spec process w 0 a.length (Nat.zero_add _)
  rw [List.drop_zero, scan_perm hd ha] at hout
  exact ⟨hperm.trans ha, hout⟩

variable (process) in
/-- Every arm returns what the scan returns, and leaves the handlers as the scan
leaves them. -/
theorem Arm.stream_eq (hr : Registered hs) (hd : hs.Pairwise Declaring.Disjoint)
    (hi : (TableCompact.build hs).injective = true) (hno : ¬ TableCompact.Clash hs)
    (freq : List UInt64) (ps : List Packet) (w : W) (a : Arm) :
    a.stream process hs freq ps w = Switchyard.stream (lookup process (scan · hs)) ps w := by
  cases a with
  | scanUnordered => exact scan_stream process hd (.refl hs) ps w
  | scanOrdered => exact scan_stream process hd (ScanOrdered.handlers_perm hs freq) ps w
  | scanMoveToFront => exact moveToFront_stream hd ps w
  | tableDirect16 =>
    unfold Arm.stream
    rw [TableDirect16.finds hr]
  | tableCompact =>
    unfold Arm.stream
    rw [TableCompact.finds hr hi hno]

end

/-! ## Keys apart -/

namespace TableCompact

/-- Each key has an entry of the compact table to itself. -/
def Apart (hs : List Declaring) : Prop :=
  ∀ d ∈ hs, d.declare.key ≠ kEmpty ∧
    ∀ e ∈ hs, e.declare.key &&& kMask = d.declare.key &&& kMask → e.declare.key = d.declare.key

theorem Apart.injective (h : Apart hs) : (build hs).injective = true := by
  have hfold : ∀ (ks : List UInt16) (t : TableCompact), (∀ k ∈ ks, ∃ d ∈ hs, d.declare.key = k) →
      (∀ j, (t.tbl j).key = kEmpty ∨ (t.tbl j).key &&& kMask = j ∧
        ∃ d ∈ hs, d.declare.key = (t.tbl j).key) → t.injective = true →
      (ks.foldl (enter (entries hs)) t).injective = true := by
    intro ks
    induction ks with
    | nil => exact fun _ _ _ h => h
    | cons k ks ih =>
      intro t hks hkey hinj
      obtain ⟨d, hd, hdk⟩ := hks k List.mem_cons_self
      have hfree : ¬ ((t.tbl (k &&& kMask)).key ≠ kEmpty ∧ (t.tbl (k &&& kMask)).key ≠ k) := by
        rintro ⟨h1, h2⟩
        obtain he | ⟨hm, e, he, hek⟩ := hkey (k &&& kMask)
        · exact h1 he
        · refine h2 (hek.symm.trans (Eq.trans ((h d hd).2 e he ?_) hdk))
          rw [hek, hdk]
          exact hm
      refine ih _ (fun j hj => hks j (List.mem_cons_of_mem _ hj)) (fun j => ?_) ?_
      · unfold enter
        dsimp only
        rw [if_neg hfree]
        dsimp only
        by_cases hj : j = k &&& kMask
        · subst hj
          rw [Conc.upd_self]
          exact .inr ⟨rfl, d, hd, hdk⟩
        · rw [Conc.upd_ne _ _ hj]
          exact hkey j
      · unfold enter
        dsimp only
        rw [if_neg hfree]
        exact hinj
  exact hfold _ _ (fun k hk => mem_distinctKeys.mp hk) (fun _ => .inl rfl) rfl

theorem Apart.not_clash (h : Apart hs) : ¬ Clash hs := by
  rintro ⟨⟨d, hd, hkey, -⟩, -⟩
  exact (h d hd).1 hkey

theorem low_mask {k : UInt16} (h : k < 1024) : k &&& kMask = k := by
  refine UInt16.toNat_inj.mp ?_
  rw [UInt16.toNat_and]
  exact Nat.and_two_pow_sub_one_of_lt_two_pow (n := 10) (UInt16.lt_iff_toNat_lt.mp h)

end TableCompact

/-- Over handlers of which no two match a packet, and whose keys have entries to
themselves, all arms return the same. -/
theorem Arm.agrees {W : Type} (process : Declaring → Packet → W → Result × W)
    (hr : Registered hs) (hd : hs.Pairwise Declaring.Disjoint) (ha : TableCompact.Apart hs)
    (freq : List UInt64) (ps : List Packet) (w : W) (a b : Arm) :
    a.stream process hs freq ps w = b.stream process hs freq ps w := by
  have h := Arm.stream_eq process hr hd ha.injective ha.not_clash freq ps w
  rw [h a, h b]

/-! ## The generated handlers -/

theorem generated_honest (n : Nat) : (generated n).Honest := by
  refine ⟨fun p h => (generatedMatches_iff.mp h).1, fun hres p hp => ?_⟩
  exact generatedMatches_iff.mpr ⟨hp, fun hr => absurd (hres.symm.trans hr) (by decide)⟩

theorem first_registered {n : Nat} (hn : n ≤ kHandlers) : Registered (first n) := by
  refine ⟨fun d hd => ?_, fun k => ?_⟩
  · obtain ⟨i, -, rfl⟩ := List.mem_map.mp hd
    exact generated_honest i
  · refine Nat.lt_of_le_of_lt (List.length_filter_le _ _) ?_
    rw [first, List.length_map, List.length_range]
    exact hn.trans_lt (by decide)

theorem keyOf_low {n : Nat} (h : n < kHandlers) : keyOf n < 1024 := by
  have hall : ∀ i : Fin kHandlers, keyOf i < 1024 := by decide +kernel
  exact hall ⟨n, h⟩

theorem first_apart {n : Nat} (hn : n ≤ kHandlers) : TableCompact.Apart (first n) := by
  have hlow : ∀ d ∈ first n, d.declare.key < 1024 := by
    intro d hd
    obtain ⟨i, hi, rfl⟩ := List.mem_map.mp hd
    exact keyOf_low ((List.mem_range.mp hi).trans_le hn)
  refine fun d hd => ⟨fun he => ?_, fun e hm h => ?_⟩
  · have := hlow d hd
    rw [he] at this
    exact absurd this (by decide)
  · rwa [TableCompact.low_mask (hlow d hd), TableCompact.low_mask (hlow e hm)] at h

theorem runArm_eq {n : Nat} (hn : n ≤ kHandlers) (freq : List UInt64) (ps : List Packet)
    (a b : Arm) : runArm (first n) freq ps a = runArm (first n) freq ps b := by
  unfold runArm
  rw [Arm.agrees _ (first_registered hn) (first_disjoint hn) (first_apart hn) freq _ () a b]

theorem checksumOf_eq {n : Nat} (hn : n ≤ kHandlers) (freq : List UInt64) (ps : List Packet)
    (a b : Arm) : checksumOf (first n) freq ps a = checksumOf (first n) freq ps b := by
  unfold checksumOf
  rw [Arm.agrees _ (first_registered hn) (first_disjoint hn) (first_apart hn) freq _ () a b]

/-- The checks of phases 1, 2 and 3 hold for every stream of packets and every
frequencies that come with it. -/
theorem checks_pass (n : Nat) (hn : n ≤ kHandlers) (s : PacketStream) :
    (∀ b ∈ phase_invariants s, b = true) ∧ phase_scan n s = true ∧ phase_distribution s = true := by
  have hall : kHandlers ≤ kHandlers := Nat.le_refl _
  have hsum := checksumOf_eq hall s.frequencies s.packets
  have hrun := runArm_eq hall s.frequencies s.packets
  refine ⟨?_, decide_eq_true (runArm_eq hn ..),
    decide_eq_true ⟨hrun .., hrun .., hrun .., hrun ..⟩⟩
  refine List.forall_mem_cons.mpr ⟨decide_eq_true (hsum ..), ?_⟩
  refine List.forall_mem_cons.mpr ⟨decide_eq_true (hsum ..), ?_⟩
  refine List.forall_mem_cons.mpr ⟨decide_eq_true (hsum ..), ?_⟩
  refine List.forall_mem_cons.mpr ⟨decide_eq_true (hsum ..), ?_⟩
  refine List.forall_mem_cons.mpr ⟨(first_apart hall).injective, ?_⟩
  exact List.forall_mem_singleton.mpr (by decide)

theorem checks_pass_ten : phase_scan 10 ⟨[packetOf 3, packetOf 901], [0]⟩ = true :=
  (checks_pass 10 (by decide) _).2.1

/-! ## What the checksum tells -/

/-- The words that a result is fed as. -/
def Result.words (r : Result) : List UInt64 := [r.value, r.handler.toUInt64]

theorem foldl_feed (rs : List Result) (h : UInt64) :
    rs.foldl Checksum.feed h = (rs.flatMap Result.words).foldl (absorb fnv) h := by
  induction rs generalizing h with
  | nil => rfl
  | cons r rs ih =>
    rw [List.foldl_cons, List.flatMap_cons, List.foldl_append, ih]
    rfl

theorem checksum_inj {r r' : Result} (l m : List Result) :
    checksum (l ++ r :: m) = checksum (l ++ r' :: m) ↔
      Checksum.feed (checksum l) r = Checksum.feed (checksum l) r' := by
  unfold checksum
  rw [List.foldl_append, List.foldl_append, List.foldl_cons, List.foldl_cons, foldl_feed m,
    foldl_feed m]
  exact (foldl_absorb fnv_inv _).eq_iff

/-- Of the results that can stand in another's place, the checksum is the same
for one value of each handler, and for none of the same value. -/
theorem checksum_tells (l m : List Result) (r : Result) :
    (∀ k, ∃! v, checksum (l ++ ⟨v, k⟩ :: m) = checksum (l ++ r :: m)) ∧
      ∀ k, checksum (l ++ ⟨r.value, k⟩ :: m) = checksum (l ++ r :: m) ↔ k = r.handler := by
  refine ⟨fun k => ?_, fun k => ?_⟩
  · have hinj : Function.Injective fun v => Checksum.feed (checksum l) ⟨v, k⟩ :=
      (absorb_state fnv_inv k.toUInt64).comp (absorb_word fnv_inv _)
    have hsurj : Function.Surjective fun v => Checksum.feed (checksum l) ⟨v, k⟩ :=
      (absorb_state_surjective fnv_inv k.toUInt64).comp (absorb_word_surjective fnv_inv _)
    obtain ⟨v, hv⟩ := hsurj (Checksum.feed (checksum l) r)
    refine ⟨v, (checksum_inj l m).mpr hv, fun v' hv' => hinj ?_⟩
    exact ((checksum_inj l m).mp hv').trans hv.symm
  · rw [checksum_inj]
    refine ⟨fun h => ?_, fun h => by rw [h]⟩
    have := absorb_word fnv_inv _ h
    exact UInt16.toNat_inj.mp (congrArg UInt64.toNat this)

end Katas.Switchyard
