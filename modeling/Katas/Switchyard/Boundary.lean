import Katas.Switchyard.Invariants
import Katas.Switchyard.Plugin

/-!
# Across the boundary

Phase 6 hands packets to the plugin one by one, and in batches of 64 with what is
left over dropped, and checks the results against an internal handler that does
the same arithmetic. And the plugin's handlers in the dispatch arms: the keys that
the plugin claims have entries of the compact table to themselves, so with the
generated handlers and the plugin's registered in any order all arms still return
what the scan returns, and each instance counts the packets of its own key.
-/
namespace Katas.Switchyard.Plugin
open Katas.Conc

/-! ## Phase 6 -/

/-- A call on the plugin's heap, if nothing dead was touched before. -/
def guarded (call : Heap → Option (Result × Heap)) (w : Option Heap) : Result × Option Heap :=
  match w.bind call with
  | none => (.unsupported, none)
  | some (r, w) => (r, some w)

/-- mirrors plugin-dispatch-kata/cpp/bench/boundary.cpp:69-72 -/
def OneHandler.dispatch (self_ : Option Nat) (p : Packet) : Option Heap → Result × Option Heap :=
  guarded (PluginBackedHandler.process self_ p)

/-- mirrors plugin-dispatch-kata/cpp/bench/boundary.cpp:146 -/
def kBatch : Nat := 64

/-- mirrors plugin-dispatch-kata/cpp/bench/boundary.cpp:155-161 -/
def batched (self : Option Nat) (ps : List Packet) (outs : List SwyResult) (sum : UInt64)
    (w : Heap) : Option (UInt64 × Heap) :=
  if kBatch ≤ ps.length then
    match process_batch self (some ((ps.take kBatch).map view)) kBatch (some outs) w with
    | some (_, some outs, w) =>
      batched self (ps.drop kBatch) outs
        (outs.foldl (fun sum out => Checksum.feed sum ⟨out.value, out.handler⟩) sum) w
    | _ => none
  else some (sum, w)
termination_by ps.length
decreasing_by
  rw [List.length_drop]
  exact Nat.sub_lt (Nat.lt_of_lt_of_le (by decide) ‹kBatch ≤ ps.length›) (by decide)

/-- What is checked of the plugin that allocates; `new` is what its allocation
gives.
mirrors plugin-dispatch-kata/cpp/bench/boundary.cpp:102-134 -/
def phase_boundary (new : Option Nat) (ps : List Packet) (w : Heap) : List Bool :=
  let keys := LoadedPlugin.claimed_keys
  let (self_, w) := create new w
  let qs := (ps.take 4096).map fun p => { p with protocol := keys.getD 0 0 }
  let a := checksum (stream (OneHandler.dispatch self_) qs (some w)).1
  let b := checksum (qs.map InternalEquivalent.process)
  [!keys.isEmpty, self_.isSome, a = b]

variable {w : Heap} {a : Nat} {c : UInt64}

theorem across (ps : List Packet) (hw : w a = some c) :
    stream (OneHandler.dispatch (some a)) ps (some w) =
      (ps.map InternalEquivalent.process, some (upd w a (some (c + .ofNat ps.length)))) := by
  induction ps generalizing w c with
  | nil =>
    show ([], some w) = ([], some (upd w a (some (c + 0))))
    rw [UInt64.add_zero, ← hw, upd_eq_self]
  | cons p ps ih =>
    have hone : OneHandler.dispatch (some a) p (some w) =
        (InternalEquivalent.process p, some (upd w a (some (c + 1)))) := by
      unfold OneHandler.dispatch guarded
      rw [Option.bind_some, process_live hw]
    unfold stream
    rw [hone]
    dsimp only
    rw [ih (upd_self ..), upd_upd, List.length_cons, UInt64.ofNat_add, UInt64.add_assoc,
      UInt64.add_comm 1]
    rfl

theorem batched_live (ps : List Packet) {outs : List SwyResult} (ho : outs.length = kBatch)
    (sum : UInt64) (hw : w a = some c) :
    batched (some a) ps outs sum w =
      some (((ps.take (ps.length / kBatch * kBatch)).map InternalEquivalent.process).foldl
          Checksum.feed sum,
        upd w a (some (c + .ofNat (ps.length / kBatch * kBatch)))) := by
  induction hn : ps.length / kBatch generalizing ps outs sum w c with
  | zero =>
    have hlt : ¬ kBatch ≤ ps.length := fun h => by
      have := Nat.div_pos h (by decide)
      omega
    unfold batched
    rw [if_neg hlt, Nat.zero_mul]
    show some (sum, w) = some (sum, upd w a (some (c + 0)))
    rw [UInt64.add_zero, ← hw, upd_eq_self]
  | succ n ih =>
    have hle : kBatch ≤ ps.length := by
      by_contra hlt
      rw [Nat.div_eq_of_lt (Nat.lt_of_not_le hlt)] at hn
      cases hn
    have htake : (ps.take kBatch).length = kBatch := List.length_take_of_le hle
    have hrest : (ps.drop kBatch).length / kBatch = n := by
      rw [List.length_drop]
      have := Nat.sub_mul_div ps.length kBatch 1
      rw [Nat.mul_one] at this
      omega
    have hbatch := process_batch_live hw (ps.take kBatch) (ho.trans htake.symm)
    rw [htake] at hbatch
    unfold batched
    rw [if_pos hle, hbatch]
    dsimp only
    rw [ih (ps.drop kBatch) ((List.length_map ..).trans htake) _ (upd_self ..) hrest, upd_upd]
    have hfeed : ((ps.take kBatch).map fun p => answer (view p)).foldl
        (fun sum out => Checksum.feed sum ⟨out.value, out.handler⟩) sum =
          ((ps.take kBatch).map InternalEquivalent.process).foldl Checksum.feed sum := by
      rw [List.foldl_map, List.foldl_map]
      refine List.foldl_ext _ _ _ fun sum p _ => ?_
      rw [← mix_view]
      rfl
    have hsplit : ps.take ((n + 1) * kBatch) =
        ps.take kBatch ++ (ps.drop kBatch).take (n * kBatch) := by
      rw [Nat.succ_mul, Nat.add_comm, List.take_add]
    rw [hfeed, hsplit, List.map_append, List.foldl_append, UInt64.add_assoc, ← UInt64.ofNat_add,
      Nat.succ_mul, Nat.add_comm (n * kBatch)]

/-- Of a live instance the calls one by one and those in batches give what the
internal handler gives, the batches for all but the packets that do not fill one,
and the instance counts them; and the checks of phase 6 hold of whatever instance
the plugin's allocation gives. -/
theorem crossing_same (ps : List Packet) :
    (∀ (w : Heap) (a : Nat) (c : UInt64), w a = some c →
      stream (OneHandler.dispatch (some a)) ps (some w) =
          (ps.map InternalEquivalent.process, some (upd w a (some (c + .ofNat ps.length)))) ∧
        ∀ (outs : List SwyResult) (sum : UInt64), outs.length = kBatch →
          batched (some a) ps outs sum w =
            some (((ps.take (ps.length / kBatch * kBatch)).map InternalEquivalent.process).foldl
                Checksum.feed sum,
              upd w a (some (c + .ofNat (ps.length / kBatch * kBatch))))) ∧
      ∀ (w : Heap) (a : Nat), ∀ b ∈ phase_boundary (some a) ps w, b = true := by
  refine ⟨fun w a c hw => ⟨across ps hw, fun outs sum ho => batched_live ps ho sum hw⟩,
    fun w a => ?_⟩
  refine List.forall_mem_cons.mpr ⟨by decide, List.forall_mem_cons.mpr ⟨rfl, ?_⟩⟩
  refine List.forall_mem_singleton.mpr (decide_eq_true ?_)
  exact congrArg (fun out => checksum out.1) (across _ (upd_self w a (some 0)))

/-- A live instance takes a packet; and of an allocation from an empty heap the
checks hold. -/
theorem crossing_same_one : stream (OneHandler.dispatch (some 7)) [⟨2001, 64, 0, .replicate 24 0⟩]
      (some (upd (fun _ => none) 7 (some 4))) =
    ([InternalEquivalent.process ⟨2001, 64, 0, .replicate 24 0⟩],
      some (upd (upd (fun _ => none) 7 (some 4)) 7 (some (4 + 1)))) ∧
    ∀ b ∈ phase_boundary (some 7) [⟨2001, 64, 0, .replicate 24 0⟩] (fun _ => none), b = true :=
  ⟨((crossing_same [⟨2001, 64, 0, .replicate 24 0⟩]).1 _ 7 4 (upd_self ..)).1,
    (crossing_same [⟨2001, 64, 0, .replicate 24 0⟩]).2 _ 7⟩

/-! ## The plugin's handlers registered -/

/-- mirrors plugin-dispatch-kata/cpp/src/host.hpp:130-131,141,156 (`PluginBackedHandler`) -/
def backed (address : Nat) (key_ : UInt16) : Declaring :=
  ⟨address, ⟨key_, false⟩, fun p => p.protocol = key_⟩

/-- A handler of each key that the plugin claims, behind the generated ones. -/
def plugged : List Declaring :=
  LoadedPlugin.claimed_keys.mapIdx fun j k => backed (kHandlers + j) k

section
variable (rounds : Nat) (selves : Nat → Option Nat)

/-- `selves` are the instances of the plugin's handlers, by address. -/
def processPlugged (h : Declaring) (p : Packet) (w : Option Heap) : Result × Option Heap :=
  if h.address < kHandlers then ((generatedProcess rounds h p ()).1, w)
  else guarded (PluginBackedHandler.process (selves h.address) p) w

/-- The same with internal handlers in the plugin's place; one without an instance
supports nothing. -/
def processInternal (h : Declaring) (p : Packet) (w : Unit) : Result × Unit :=
  if h.address < kHandlers then generatedProcess rounds h p w
  else (if (selves h.address).isSome then InternalEquivalent.process p else .unsupported, w)

end

theorem plugged_eq : plugged =
    [backed 100 2000, backed 101 2001, backed 102 2002, backed 103 2003] := rfl

theorem mem_plugged {d : Declaring} (h : d ∈ plugged) :
    ∃ j : Fin 4, d = backed (kHandlers + j) (2000 + .ofNat j) := by
  rw [plugged_eq] at h
  simp only [List.mem_cons, List.not_mem_nil, or_false] at h
  obtain rfl | rfl | rfl | rfl := h
  · exact ⟨0, rfl⟩
  · exact ⟨1, rfl⟩
  · exact ⟨2, rfl⟩
  · exact ⟨3, rfl⟩

theorem backed_honest (i : Nat) (k : UInt16) : (backed i k).Honest :=
  ⟨fun _ h => of_decide_eq_true h, fun _ _ h => decide_eq_true h⟩

/-- The plugin's keys share no entry of the compact table with the generated
ones. -/
theorem plugged_keys (i : Fin kHandlers) (j : Fin 4) :
    keyOf i &&& TableCompact.kMask ≠ (2000 + .ofNat j : UInt16) &&& TableCompact.kMask ∧
      keyOf i ≠ 2000 + .ofNat j := by
  revert i j
  decide +kernel

variable {n : Nat} {hs : List Declaring}

theorem registered (hn : n ≤ kHandlers) (hp : hs.Perm (first n ++ plugged)) : Registered hs := by
  refine ⟨fun d hd => ?_, fun k => ?_⟩
  · obtain hd | hd := List.mem_append.mp (hp.mem_iff.mp hd)
    · exact (first_registered hn).honest d hd
    · obtain ⟨j, rfl⟩ := mem_plugged hd
      exact backed_honest ..
  · refine Nat.lt_of_le_of_lt (List.length_filter_le _ _) ?_
    rw [hp.length_eq, List.length_append, first, List.length_map, List.length_range]
    exact (Nat.add_le_add_right hn 4).trans_lt (by decide)

theorem disjoint (hn : n ≤ kHandlers) (hp : hs.Perm (first n ++ plugged)) :
    hs.Pairwise Declaring.Disjoint := by
  refine (hp.pairwise_iff fun h => h.symm).mpr (List.pairwise_append.mpr ⟨first_disjoint hn, ?_, ?_⟩)
  · rw [plugged_eq]
    have hne : ∀ {i j : Nat} {k l : UInt16}, k ≠ l → (backed i k).Disjoint (backed j l) :=
      fun hkl p hp => hkl ((of_decide_eq_true hp.1).symm.trans (of_decide_eq_true hp.2))
    simp only [List.pairwise_cons, List.mem_cons, List.not_mem_nil, or_false, forall_eq_or_imp,
      forall_eq]
    refine ⟨⟨hne ?_, hne ?_, hne ?_⟩, ⟨hne ?_, hne ?_⟩, hne ?_, ?_⟩ <;> first | decide | simp
  · intro d hd e he p hp
    obtain ⟨i, hi, rfl⟩ := List.mem_map.mp hd
    obtain ⟨j, rfl⟩ := mem_plugged he
    have hlt := (List.mem_range.mp hi).trans_le hn
    refine (plugged_keys ⟨i, hlt⟩ j).2 ?_
    exact ((generated_honest i).key p hp.1).symm.trans (of_decide_eq_true hp.2)

theorem apart (hn : n ≤ kHandlers) (hp : hs.Perm (first n ++ plugged)) : TableCompact.Apart hs := by
  have hplug : ∀ j k : Fin 4, (2000 + .ofNat j : UInt16) ≠ TableCompact.kEmpty ∧
      ((2000 + .ofNat k : UInt16) &&& TableCompact.kMask = (2000 + .ofNat j) &&& TableCompact.kMask →
        (2000 + .ofNat k : UInt16) = 2000 + .ofNat j) := by decide
  have hfirst := first_apart hn
  refine fun d hd => ⟨?_, fun e he hm => ?_⟩
  · obtain hd | hd := List.mem_append.mp (hp.mem_iff.mp hd)
    · exact (hfirst d hd).1
    · obtain ⟨j, rfl⟩ := mem_plugged hd
      exact (hplug j j).1
  · obtain hd | hd := List.mem_append.mp (hp.mem_iff.mp hd) <;>
      obtain he | he := List.mem_append.mp (hp.mem_iff.mp he)
    · exact (hfirst d hd).2 e he hm
    · obtain ⟨i, hi, rfl⟩ := List.mem_map.mp hd
      obtain ⟨j, rfl⟩ := mem_plugged he
      exact absurd hm.symm (plugged_keys ⟨i, (List.mem_range.mp hi).trans_le hn⟩ j).1
    · obtain ⟨j, rfl⟩ := mem_plugged hd
      obtain ⟨i, hi, rfl⟩ := List.mem_map.mp he
      exact absurd hm (plugged_keys ⟨i, (List.mem_range.mp hi).trans_le hn⟩ j).1
    · obtain ⟨j, rfl⟩ := mem_plugged hd
      obtain ⟨k, rfl⟩ := mem_plugged he
      exact (hplug j k).2 hm

section
variable {W : Type} {process : Declaring → Packet → W → Result × W}
  {find : Packet → Option Declaring} {p : Packet}

theorem lookup_none (h : find p = none) (w : W) : lookup process find p w = (.unsupported, w) := by
  unfold lookup
  rw [h]

theorem lookup_some {d : Declaring} (h : find p = some d) (w : W) :
    lookup process find p w = process d p w := by
  unfold lookup
  rw [h]

end

/-- The instance that is called for a packet. -/
def called (selves : Nat → Option Nat) (hs : List Declaring) (p : Packet) : Option Nat :=
  (scan p hs).bind fun h => if h.address < kHandlers then none else selves h.address

/-- The heap after the instances were called for the packets. -/
def countedUp (selves : Nat → Option Nat) (hs : List Declaring) (ps : List Packet) (w : Heap) :
    Heap :=
  fun a => (w a).map (· + .ofNat (ps.countP fun p => called selves hs p = some a))

/-- The instances of the handlers are live. -/
def Live (selves : Nat → Option Nat) (w : Heap) : Prop :=
  ∀ d ∈ plugged, ∀ a, selves d.address = some a → (w a).isSome = true

variable {selves : Nat → Option Nat} {w : Heap}

theorem address_lt (hn : n ≤ kHandlers) (hp : hs.Perm (first n ++ plugged)) {d : Declaring}
    (hd : d ∈ hs) : d.address < kHandlers ∨ d ∈ plugged ∧ ¬ d.address < kHandlers := by
  obtain hd | hd := List.mem_append.mp (hp.mem_iff.mp hd)
  · obtain ⟨i, hi, rfl⟩ := List.mem_map.mp hd
    exact .inl ((List.mem_range.mp hi).trans_le hn)
  · obtain ⟨j, rfl⟩ := mem_plugged hd
    exact .inr ⟨hd, Nat.not_lt.mpr (Nat.le_add_right ..)⟩

/-- One packet. -/
theorem lookup_one (rounds : Nat) (hn : n ≤ kHandlers) (hp : hs.Perm (first n ++ plugged))
    (hlive : Live selves w) (p : Packet) :
    ∃ w', lookup (processPlugged rounds selves) (scan · hs) p (some w) =
      ((lookup (processInternal rounds selves) (scan · hs) p ()).1, some w') ∧
        Live selves w' ∧
        ∀ b, w' b = (w b).map (· + if called selves hs p = some b then 1 else 0) := by
  have hsame : called selves hs p = none →
      ∀ b, w b = (w b).map (· + if called selves hs p = some b then 1 else 0) := by
    intro hc b
    rw [hc]
    cases w b <;> simp
  cases hscan : scan p hs with
  | none =>
    rw [lookup_none hscan, lookup_none hscan]
    exact ⟨w, rfl, hlive, hsame (by rw [called, hscan]; rfl)⟩
  | some h =>
    have hcalled : called selves hs p =
        if h.address < kHandlers then none else selves h.address := by rw [called, hscan]; rfl
    have hh : h ∈ hs := List.mem_of_find?_eq_some ((scan_eq p hs).symm.trans hscan)
    rw [lookup_some hscan, lookup_some hscan]
    unfold processPlugged processInternal
    obtain hlow | ⟨hplug, hhigh⟩ := address_lt hn hp hh
    · rw [if_pos hlow, if_pos hlow]
      exact ⟨w, rfl, hlive, hsame (by rw [hcalled, if_pos hlow])⟩
    · rw [if_neg hhigh, if_neg hhigh]
      rw [if_neg hhigh] at hcalled
      cases hself : selves h.address with
      | none => exact ⟨w, rfl, hlive, hsame (hcalled.trans hself)⟩
      | some a =>
        obtain ⟨c, hc⟩ := Option.isSome_iff_exists.mp (hlive h hplug a hself)
        refine ⟨upd w a (some (c + 1)), ?_, fun d hd b hb => ?_, fun b => ?_⟩
        · unfold guarded
          rw [Option.bind_some, process_live hc]
          rfl
        · by_cases hab : b = a
          · rw [hab, upd_self]
            rfl
          · rw [upd_ne _ _ hab]
            exact hlive d hd b hb
        · rw [hcalled, hself]
          by_cases hab : b = a
          · rw [hab, upd_self, hc, if_pos rfl]
            rfl
          · rw [upd_ne _ _ hab, if_neg fun he => hab (Option.some.inj he).symm]
            cases w b <;> simp

theorem lookup_stream (rounds : Nat) (hn : n ≤ kHandlers) (hp : hs.Perm (first n ++ plugged))
    (ps : List Packet) (hlive : Live selves w) :
    stream (lookup (processPlugged rounds selves) (scan · hs)) ps (some w) =
      ((stream (lookup (processInternal rounds selves) (scan · hs)) ps ()).1,
        some (countedUp selves hs ps w)) := by
  induction ps generalizing w with
  | nil =>
    have : countedUp selves hs [] w = w := by
      funext a
      unfold countedUp
      cases w a <;> simp
    unfold stream
    rw [this]
  | cons p ps ih =>
    obtain ⟨w', hone, hlive', hcount⟩ := lookup_one rounds hn hp hlive p
    unfold stream
    rw [hone]
    dsimp only
    rw [ih hlive']
    refine Prod.ext rfl (congrArg some ?_)
    funext b
    unfold countedUp
    rw [hcount, Option.map_map, List.countP_cons, Nat.add_comm, UInt64.ofNat_add]
    refine congrArg (fun f => (w b).map f) (funext fun c => ?_)
    show c + _ + _ = c + (_ + _)
    rw [UInt64.add_assoc]
    by_cases hc : called selves hs p = some b <;> simp [hc]

/-- Which packets an instance is called for. -/
theorem called_iff (hn : n ≤ kHandlers) (hp : hs.Perm (first n ++ plugged)) {p : Packet} {a : Nat} :
    called selves hs p = some a ↔
      ∃ d ∈ plugged, d.matches_ p = true ∧ selves d.address = some a := by
  constructor
  · intro h
    obtain ⟨d, hscan, hd⟩ := Option.bind_eq_some_iff.mp h
    obtain ⟨hmem, hm⟩ := (scan_some (disjoint hn hp)).mp hscan
    obtain hlow | ⟨hplug, hhigh⟩ := address_lt hn hp hmem
    · rw [if_pos hlow] at hd
      cases hd
    · rw [if_neg hhigh] at hd
      exact ⟨d, hplug, hm, hd⟩
  · rintro ⟨d, hplug, hm, hd⟩
    have hmem : d ∈ hs := hp.mem_iff.mpr (List.mem_append_right _ hplug)
    have hhigh : ¬ d.address < kHandlers := by
      obtain ⟨j, rfl⟩ := mem_plugged hplug
      exact Nat.not_lt.mpr (Nat.le_add_right ..)
    rw [called, (scan_some (disjoint hn hp)).mpr ⟨hmem, hm⟩, Option.bind_some, if_neg hhigh]
    exact hd

theorem plugged_address {d e : Declaring} (hd : d ∈ plugged) (he : e ∈ plugged)
    (h : d.address = e.address) : d = e := by
  obtain ⟨j, rfl⟩ := mem_plugged hd
  obtain ⟨k, rfl⟩ := mem_plugged he
  rw [Fin.ext (Nat.add_left_cancel h)]

/-- **The plugin behind the dispatch arms.** With the generated handlers and the
plugin's registered in any order, whatever the packets, every arm returns what the
scan returns with internal handlers in the plugin's place, touches no dead
instance, and leaves each instance with the packets of its key counted. -/
theorem plugged_arms_agree (rounds : Nat) (hn : n ≤ kHandlers) (hp : hs.Perm (first n ++ plugged))
    (hlive : Live selves w) (freq : List UInt64) (ps : List Packet) (arm : Arm) :
    ∃ w', arm.stream (processPlugged rounds selves) hs freq ps (some w) =
        ((stream (ScanUnordered.dispatch (processInternal rounds selves)) ps
          (first n ++ plugged, ())).1, some w') ∧
      (∀ d ∈ plugged, ∀ a, selves d.address = some a →
        (∀ e ∈ plugged, selves e.address = some a → e.address = d.address) →
          w' a = (w a).map (· + .ofNat (ps.countP d.matches_))) ∧
      ∀ a, (∀ d ∈ plugged, selves d.address ≠ some a) → w' a = w a := by
  have harm := Arm.stream_eq (processPlugged rounds selves) (registered hn hp) (disjoint hn hp)
    (apart hn hp).injective (apart hn hp).not_clash freq ps (some w) arm
  have hscan := congrArg Prod.fst (scan_stream (processInternal rounds selves)
    (disjoint hn hp) hp.symm ps ())
  refine ⟨countedUp selves hs ps w, ?_, fun d hd a ha hone => ?_, fun a ha => ?_⟩
  · rw [harm, lookup_stream rounds hn hp ps hlive]
    exact Prod.ext hscan.symm rfl
  · refine congrArg (fun m => (w a).map (· + UInt64.ofNat m)) (List.countP_congr fun p _ => ?_)
    rw [decide_eq_true_eq, called_iff hn hp]
    refine ⟨?_, fun hm => ⟨d, hd, hm, ha⟩⟩
    rintro ⟨e, he, hm, hea⟩
    rwa [plugged_address he hd (hone e he hea)] at hm
  · have hzero : ps.countP (fun p => called selves hs p = some a) = 0 := by
      refine List.countP_eq_zero.mpr fun p _ hc => ?_
      obtain ⟨d, hd, -, hda⟩ := (called_iff hn hp).mp (of_decide_eq_true hc)
      exact ha d hd hda
    unfold countedUp
    rw [hzero]
    cases w a <;> simp

/-- One handler has an instance, and is registered before the others. -/
theorem plugged_arms_agree_one : ∃ w', Arm.tableCompact.stream
    (processPlugged 2 fun i => if i = 101 then some 7 else none) (plugged ++ first 10) []
      [⟨2001, 64, 0, .replicate 24 0⟩] (some (upd (fun _ => none) 7 (some 0))) =
    ((stream (ScanUnordered.dispatch (processInternal 2 fun i => if i = 101 then some 7 else none))
      [⟨2001, 64, 0, .replicate 24 0⟩] (first 10 ++ plugged, ())).1, some w') := by
  have hlive : Live (fun i => if i = 101 then some 7 else none) (upd (fun _ => none) 7 (some 0)) := by
    intro d _ a ha
    dsimp only at ha
    split at ha
    · cases ha
      rfl
    · cases ha
  obtain ⟨w', h, -⟩ := plugged_arms_agree (n := 10) 2 (by decide) List.perm_append_comm hlive []
    [⟨2001, 64, 0, .replicate 24 0⟩] .tableCompact
  exact ⟨w', h⟩

end Katas.Switchyard.Plugin
