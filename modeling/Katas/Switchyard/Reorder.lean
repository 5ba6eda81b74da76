import Katas.Switchyard.Dispatch
import Mathlib.Data.List.Perm.Basic

/-!
# Scans that reorder the handlers

`ScanOrdered` sorts the handler list by observed frequency before any traffic,
and `ScanMoveToFront` moves a handler one place forward each time it is hit.
What `process` does is a parameter here: it may read and change the state `W`
of all the handlers, which no predicate reads.

If no two handlers match the same packet, the first match is the only one, and
no order of the list matters: over every stream of packets each scan gives the
results of the plain scan of the original list, and leaves the handlers in the
same state.
-/
namespace Katas.Switchyard

/-- mirrors plugin-dispatch-kata/cpp/src/packet.hpp:28-38 -/
structure Result where
  value : UInt64
  handler : UInt16
  deriving DecidableEq

def Result.kNone : UInt16 := 0xFFFF

def Result.unsupported : Result := ⟨0, Result.kNone⟩

section arms
variable {W : Type} (process : Declaring → Packet → W → Result × W)

/-- mirrors plugin-dispatch-kata/cpp/src/strategy.hpp:32,40-47 -/
def ScanUnordered.dispatch (p : Packet) : List Declaring × W → Result × List Declaring × W
  | (hs, w) =>
    match scan p hs with
    | none => (.unsupported, hs, w)
    | some h => ((process h p w).1, hs, (process h p w).2)

/-- The indices, the most frequent first; past the end of `freq` the read is
undefined.
mirrors plugin-dispatch-kata/cpp/src/strategy.hpp:62-65 -/
def ScanOrdered.order (n : Nat) (freq : List UInt64) : List Nat :=
  (List.range n).mergeSort fun a b => !decide (freq.getD b 0 > freq.getD a 0)

/-- mirrors plugin-dispatch-kata/cpp/src/strategy.hpp:60-70 -/
def ScanOrdered.handlers (hs : List Declaring) (freq : List UInt64) : List Declaring :=
  (ScanOrdered.order hs.length freq).filterMap fun i => hs[i]?

/-- `std::swap(handlers_[i], handlers_[j])` -/
def swap (hs : List Declaring) (i j : Nat) : List Declaring :=
  match hs[i]?, hs[j]? with
  | some a, some b => (hs.set i b).set j a
  | _, _ => hs

/-- The loop from index `i` on, with `n` indices to go.
mirrors plugin-dispatch-kata/cpp/src/strategy.hpp:88-95 -/
def ScanMoveToFront.runFrom (p : Packet) (hs : List Declaring) (w : W) (i : Nat) :
    Nat → Result × List Declaring × W
  | 0 => (.unsupported, hs, w)
  | n + 1 =>
    match hs[i]? with
    | none => (.unsupported, hs, w)
    | some h =>
      if h.matches_ p then
        ((process h p w).1, if 0 < i then swap hs i (i - 1) else hs, (process h p w).2)
      else runFrom p hs w (i + 1) n

/-- mirrors plugin-dispatch-kata/cpp/src/strategy.hpp:81,86-97 -/
def ScanMoveToFront.dispatch (p : Packet) : List Declaring × W → Result × List Declaring × W
  | (hs, w) => ScanMoveToFront.runFrom process p hs w 0 hs.length

/-- The packets one after another: the results, and what they leave. -/
def stream {A : Type} (dispatch : Packet → A → Result × A) : List Packet → A → List Result × A
  | [], s => ([], s)
  | p :: ps, s =>
    let (r, s) := dispatch p s
    let (rs, s) := stream dispatch ps s
    (r :: rs, s)

end arms

/-- No packet is matched by both. -/
def Declaring.Disjoint (a b : Declaring) : Prop :=
  ∀ p, ¬ (a.matches_ p = true ∧ b.matches_ p = true)

variable {hs hs' : List Declaring} {p : Packet}

theorem Declaring.Disjoint.symm {a b : Declaring} (h : a.Disjoint b) : b.Disjoint a :=
  fun p hp => h p hp.symm

/-! ## The first match is the only one -/

theorem scan_some (hd : hs.Pairwise Declaring.Disjoint) {h : Declaring} :
    scan p hs = some h ↔ h ∈ hs ∧ h.matches_ p = true := by
  rw [scan_eq]
  constructor
  · intro hf
    exact ⟨List.mem_of_find?_eq_some hf, by simpa using List.find?_some hf⟩
  · rintro ⟨hm, hp⟩
    induction hs with
    | nil => cases hm
    | cons d hs ih =>
      rw [List.pairwise_cons] at hd
      rw [List.find?_cons]
      obtain rfl | hm := List.mem_cons.mp hm
      · rw [hp]
      · have hdp : d.matches_ p = false := by
          cases hdm : d.matches_ p with
          | false => rfl
          | true => exact absurd ⟨hdm, hp⟩ (hd.1 h hm p)
        rw [hdp]
        exact ih hd.2 hm

/-- No order of disjoint handlers matters. -/
theorem scan_perm (hd : hs.Pairwise Declaring.Disjoint) (hp : hs'.Perm hs) :
    scan p hs' = scan p hs := by
  have hd' : hs'.Pairwise Declaring.Disjoint :=
    (hp.pairwise_iff fun {_ _} h => h.symm).mpr hd
  apply Option.ext
  intro h
  rw [scan_some hd', scan_some hd, hp.mem_iff]

/-! ## The orders are permutations -/

theorem filterMap_range (hs : List Declaring) :
    ((List.range hs.length).filterMap fun i => hs[i]?) = hs := by
  induction hs with
  | nil => rfl
  | cons a hs ih =>
    rw [List.length_cons, List.range_succ_eq_map, List.filterMap_cons, List.filterMap_map]
    simpa using ih

theorem ScanOrdered.handlers_perm (hs : List Declaring) (freq : List UInt64) :
    (ScanOrdered.handlers hs freq).Perm hs := by
  have h := (List.mergeSort_perm (List.range hs.length)
    fun a b => !decide (freq.getD b 0 > freq.getD a 0)).filterMap fun i => hs[i]?
  rwa [filterMap_range] at h

theorem swap_perm (hs : List Declaring) (i : Nat) : (swap hs (i + 1) i).Perm hs := by
  induction hs generalizing i with
  | nil => exact .nil
  | cons a hs ih =>
    cases i with
    | zero =>
      cases hs with
      | nil => exact .refl _
      | cons b hs => exact .swap _ _ _
    | succ i =>
      have hs' : swap (a :: hs) (i + 1 + 1) (i + 1) = a :: swap hs (i + 1) i := by
        simp only [swap, List.getElem?_cons_succ]
        cases hs[i + 1]? with
        | none => rfl
        | some b => cases hs[i]? <;> rfl
      rw [hs']
      exact (ih i).cons a

/-- What `ScanMoveToFront` does with a packet: the plain scan's result, and the
handlers in some order. -/
theorem ScanMoveToFront.runFrom_spec {W : Type} (process : Declaring → Packet → W → Result × W)
    (w : W) (i n : Nat) (hn : i + n = hs.length) :
    let out := ScanMoveToFront.runFrom process p hs w i n
    out.2.1.Perm hs ∧ (out.1, out.2.2) =
      match scan p (hs.drop i) with
      | none => (.unsupported, w)
      | some h => process h p w := by
  induction n generalizing i with
  | zero =>
    rw [List.drop_eq_nil_of_le (by omega)]
    exact ⟨.refl _, rfl⟩
  | succ n ih =>
    have hi : i < hs.length := by omega
    rw [List.drop_eq_getElem_cons hi]
    unfold ScanMoveToFront.runFrom scan
    rw [List.getElem?_eq_getElem hi]
    dsimp only
    cases hm : hs[i].matches_ p with
    | true =>
      refine ⟨?_, rfl⟩
      show (if 0 < i then swap hs i (i - 1) else hs).Perm hs
      split
      · obtain ⟨j, rfl⟩ : ∃ j, i = j + 1 := ⟨i - 1, by omega⟩
        exact swap_perm hs j
      · exact .refl _
    | false =>
      simpa using ih (i + 1) (by omega)

theorem ScanMoveToFront.dispatch_spec {W : Type}
    (process : Declaring → Packet → W → Result × W) (hd : hs.Pairwise Declaring.Disjoint)
    (hp : hs'.Perm hs) (w : W) :
    let out := ScanMoveToFront.dispatch process p (hs', w)
    let ref := ScanUnordered.dispatch process p (hs, w)
    out.2.1.Perm hs ∧ out.1 = ref.1 ∧ out.2.2 = ref.2.2 := by
  obtain ⟨hperm, hout⟩ := ScanMoveToFront.runFrom_spec process w 0 hs'.length (Nat.zero_add _)
  rw [List.drop_zero, scan_perm hd hp] at hout
  refine ⟨hperm.trans hp, ?_⟩
  simp only [ScanUnordered.dispatch, ScanMoveToFront.dispatch]
  cases hs : scan p hs with
  | none =>
    rw [hs] at hout
    exact Prod.mk.inj hout
  | some h =>
    rw [hs] at hout
    exact Prod.mk.inj hout

/-! ## Streams -/

/-- Two scans step by step: what they return is the same, and so is the state of
the handlers. -/
theorem stream_eq {W A B : Type} {f : Packet → A × W → Result × A × W}
    {g : Packet → B × W → Result × B × W} {R : A → B → Prop}
    (h : ∀ p a b w, R a b → R (f p (a, w)).2.1 (g p (b, w)).2.1 ∧
      (f p (a, w)).1 = (g p (b, w)).1 ∧ (f p (a, w)).2.2 = (g p (b, w)).2.2)
    (ps : List Packet) {a : A} {b : B} (w : W) (hr : R a b) :
    R (stream f ps (a, w)).2.1 (stream g ps (b, w)).2.1 ∧
      (stream f ps (a, w)).1 = (stream g ps (b, w)).1 ∧
      (stream f ps (a, w)).2.2 = (stream g ps (b, w)).2.2 := by
  induction ps generalizing a b w with
  | nil => exact ⟨hr, rfl, rfl⟩
  | cons p ps ih =>
    obtain ⟨h1, h2, h3⟩ := h p a b w hr
    obtain ⟨ih1, ih2, ih3⟩ := ih (g p (b, w)).2.2 h1
    have hf : (f p (a, w)).2 = ((f p (a, w)).2.1, (g p (b, w)).2.2) := Prod.ext rfl h3
    refine ⟨?_, ?_, ?_⟩
    · show R (stream f ps (f p (a, w)).2).2.1 (stream g ps (g p (b, w)).2).2.1
      rw [hf]
      exact ih1
    · show (f p (a, w)).1 :: (stream f ps (f p (a, w)).2).1 =
        (g p (b, w)).1 :: (stream g ps (g p (b, w)).2).1
      rw [hf, h2, ih2]
    · show (stream f ps (f p (a, w)).2).2.2 = (stream g ps (g p (b, w)).2).2.2
      rw [hf]
      exact ih3

/-- If no two handlers match the same packet, then over every stream of packets
the scan of the handlers by frequency, and the one that moves them forward,
return what the scan of the original list returns. Their handlers are a
permutation of it. -/
theorem reordering_keeps_dispatch {W : Type} (process : Declaring → Packet → W → Result × W)
    (hs : List Declaring) (hd : hs.Pairwise Declaring.Disjoint) (freq : List UInt64)
    (ps : List Packet) (w : W) :
    let ref := stream (ScanUnordered.dispatch process) ps (hs, w)
    let ordered := stream (ScanUnordered.dispatch process) ps (ScanOrdered.handlers hs freq, w)
    let mtf := stream (ScanMoveToFront.dispatch process) ps (hs, w)
    (ordered.1 = ref.1 ∧ ordered.2.1.Perm hs ∧ ordered.2.2 = ref.2.2) ∧
      mtf.1 = ref.1 ∧ mtf.2.1.Perm hs ∧ mtf.2.2 = ref.2.2 := by
  refine ⟨?_, ?_⟩
  · obtain ⟨⟨hperm, -⟩, h1, h2⟩ := stream_eq (f := ScanUnordered.dispatch process)
      (g := ScanUnordered.dispatch process)
      (R := fun a b => a.Perm hs ∧ b = hs) (fun p a b w ⟨ha, hb⟩ => by
        subst hb
        simp only [ScanUnordered.dispatch, scan_perm hd ha]
        cases scan p b <;> exact ⟨⟨ha, rfl⟩, rfl, rfl⟩) ps w
      ⟨ScanOrdered.handlers_perm hs freq, rfl⟩
    exact ⟨h1, hperm, h2⟩
  · obtain ⟨⟨hperm, -⟩, h1, h2⟩ := stream_eq (f := ScanMoveToFront.dispatch process)
      (g := ScanUnordered.dispatch process)
      (R := fun a b => a.Perm hs ∧ b = hs) (fun p a b w ⟨ha, hb⟩ => by
        subst hb
        obtain ⟨h1, h2, h3⟩ := ScanMoveToFront.dispatch_spec process hd ha w
        refine ⟨⟨h1, ?_⟩, h2, h3⟩
        simp only [ScanUnordered.dispatch]
        cases scan p b <;> rfl) ps w ⟨.refl hs, rfl⟩
    exact ⟨h1, hperm, h2⟩

/-- Three handlers of three keys, each of which counts its packets. -/
def counting (h : Declaring) (_ : Packet) (w : Nat → Nat) : Result × (Nat → Nat) :=
  (⟨.ofNat (w h.address + 1), .ofNat h.address⟩,
    fun a => if a = h.address then w a + 1 else w a)

theorem reordering_keeps_dispatch_three :
    let hs := [pure_ 0 10, pure_ 1 20, pure_ 2 30]
    let ps := [packetOf 30, packetOf 20, packetOf 30, packetOf 7]
    (stream (ScanMoveToFront.dispatch counting) ps (hs, fun _ => 0)).1 =
      (stream (ScanUnordered.dispatch counting) ps (hs, fun _ => 0)).1 := by
  refine (reordering_keeps_dispatch counting _ ?_ [1, 2, 3] _ _).2.1
  have hne : ∀ {a b : Nat} {k l : UInt16}, k ≠ l → (pure_ a k).Disjoint (pure_ b l) := by
    rintro a b k l hkl p ⟨h1, h2⟩
    exact hkl ((of_decide_eq_true h1).symm.trans (of_decide_eq_true h2))
  simp only [List.pairwise_cons, List.mem_cons, List.not_mem_nil, or_false, forall_eq_or_imp,
    forall_eq, IsEmpty.forall_iff, implies_true, List.Pairwise.nil, and_true]
  exact ⟨⟨hne (by decide), hne (by decide)⟩, hne (by decide)⟩

end Katas.Switchyard
