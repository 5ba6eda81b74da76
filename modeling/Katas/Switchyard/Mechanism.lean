import Katas.Switchyard.Invariants

/-!
# The mechanisms

The arms of phase 4, which select a handler by one masked index and differ in how
they call it: `virtual`, `erasure` and `variant`. Selection looks at the key only:
the first handler that claims a key has it, whatever its predicate says.
`mechanisms_agree`: the arms give the same results on all packets, and they select
the handler that the scan finds, except for the packets of a residual key whose
payload is not of the first handler's range.
-/
namespace Katas.Switchyard
open Katas.Conc

/-! ## Selection -/

/-- mirrors plugin-dispatch-kata/cpp/src/mechanism.hpp:54-55 -/
structure Selector where
  idx_ : UInt16 → UInt16
  key_ : UInt16 → UInt16

namespace Selector

/-- mirrors plugin-dispatch-kata/cpp/src/mechanism.hpp:28-30 -/
def kMask : UInt16 := 1023

def kNone : UInt16 := 0xFFFF

/-- mirrors plugin-dispatch-kata/cpp/src/mechanism.hpp:39-44 -/
def enter (s : Selector) (n : Nat) : Selector :=
  let k := keyOf n
  let b := k &&& kMask
  if s.idx_ b = kNone then ⟨upd s.idx_ b (.ofNat n), upd s.key_ b k⟩ else s

/-- mirrors plugin-dispatch-kata/cpp/src/mechanism.hpp:33-46 -/
def build : Selector := (List.range kHandlers).foldl enter ⟨fun _ => kNone, fun _ => 0xFFFF⟩

/-- mirrors plugin-dispatch-kata/cpp/src/mechanism.hpp:48-51 -/
def select (s : Selector) (p : Packet) : UInt16 :=
  let b := p.protocol &&& kMask
  if s.key_ b = p.protocol then s.idx_ b else kNone

end Selector

/-! ## The arms -/

/-- An arm with a table, which calls what the table has at the index selected;
past the table's end the read is undefined.
mirrors plugin-dispatch-kata/cpp/src/mechanism.hpp:80-84,113-116,156-158 -/
def selected {A : Type} (table : List A) (call : A → Packet → Result) (sel : Selector)
    (p : Packet) : Result :=
  let i := sel.select p
  if i = Selector.kNone then .unsupported
  else
    match table[i.toNat]? with
    | none => .unsupported
    | some a => call a p

/-- mirrors plugin-dispatch-kata/cpp/src/mechanism.hpp:74-92 -/
def MechVirtual.dispatch (rounds : Nat) : Selector → Packet → Result :=
  selected (first kHandlers) fun h p => (generatedProcess rounds h p ()).1

/-- The function of an erased handler.
mirrors plugin-dispatch-kata/cpp/src/mechanism.hpp:126-128 -/
def MechErasure.thunk (rounds n : Nat) (p : Packet) : Result := ⟨mix n rounds p, keyOf n⟩

/-- mirrors plugin-dispatch-kata/cpp/src/mechanism.hpp:101-132 -/
def MechErasure.dispatch (rounds : Nat) : Selector → Packet → Result :=
  selected ((List.range kHandlers).map (MechErasure.thunk rounds)) fun fn p => fn p

/-- A variant is which of its alternatives it holds, for they have no fields.
mirrors plugin-dispatch-kata/cpp/src/mechanism.hpp:145-146 -/
abbrev HVariant := Fin kHandlers

/-- mirrors plugin-dispatch-kata/cpp/src/mechanism.hpp:149-170 -/
def MechVariant.dispatch (rounds : Nat) : Selector → Packet → Result :=
  selected (List.finRange kHandlers : List HVariant) fun h p =>
    (generatedProcess rounds (generated h.val) p ()).1

/-! ## Who has a key -/

/-- The first of the generated handlers that claims the key. -/
def claimant (k : UInt16) : Option Nat := (List.range kHandlers).find? fun n => keyOf n == k

namespace Selector

/-- After the first `m` handlers. -/
def Built (m : Nat) (s : Selector) : Prop :=
  ∀ b, (∃ n, (List.range m).find? (fun n => keyOf n == b) = some n ∧ s.idx_ b = .ofNat n ∧
      s.key_ b = b) ∨
    (List.range m).find? (fun n => keyOf n == b) = none ∧ s.idx_ b = kNone ∧ s.key_ b = 0xFFFF

theorem Built.enter {m : Nat} {s : Selector} (h : Built m s) (hm : m < kHandlers) :
    Built (m + 1) (s.enter m) := by
  have hmask : keyOf m &&& kMask = keyOf m := TableCompact.low_mask (keyOf_low hm)
  have hfind : ∀ b, (List.range (m + 1)).find? (fun n => keyOf n == b) =
      ((List.range m).find? fun n => keyOf n == b).or (if keyOf m == b then some m else none) := by
    intro b
    rw [List.range_succ, List.find?_append, List.find?_singleton]
  have hsome : ∀ {b n}, (List.range m).find? (fun n => keyOf n == b) = some n →
      (UInt16.ofNat n : UInt16) ≠ kNone := by
    intro b n hn he
    have hlt := List.mem_range.mp (List.mem_of_find?_eq_some hn)
    have h1 := congrArg UInt16.toNat he
    rw [UInt16.toNat_ofNat', Nat.mod_eq_of_lt] at h1
    · have : n = 65535 := h1
      unfold kHandlers at hm
      omega
    · unfold kHandlers at hm
      omega
  intro b
  rw [hfind]
  unfold Selector.enter
  dsimp only
  rw [hmask]
  by_cases hb : b = keyOf m
  · subst hb
    obtain ⟨n, hn, hidx, hkey⟩ | ⟨hn, hidx, -⟩ := h (keyOf m)
    · rw [if_neg fun he => hsome hn (hidx.symm.trans he), hn]
      exact .inl ⟨n, rfl, hidx, hkey⟩
    · rw [if_pos hidx, hn]
      dsimp only
      rw [upd_self, upd_self, if_pos (beq_self_eq_true _)]
      exact .inl ⟨m, rfl, rfl, rfl⟩
  · have hne : (keyOf m == b) = false := beq_false_of_ne fun he => hb he.symm
    have hsame : ∀ t : Selector, t.idx_ b = s.idx_ b → t.key_ b = s.key_ b →
        (∃ n, ((List.range m).find? fun n => keyOf n == b) = some n ∧ t.idx_ b = .ofNat n ∧
          t.key_ b = b) ∨ (List.range m).find? (fun n => keyOf n == b) = none ∧
            t.idx_ b = kNone ∧ t.key_ b = 0xFFFF := by
      intro t h1 h2
      rw [h1, h2]
      exact h b
    rw [hne, if_neg Bool.false_ne_true, Option.or_none]
    split
    · exact hsame _ (upd_ne _ _ hb) (upd_ne _ _ hb)
    · exact hsame s rfl rfl

theorem built : Built kHandlers build := by
  have hall : ∀ m, m ≤ kHandlers →
      Built m ((List.range m).foldl enter ⟨fun _ => kNone, fun _ => 0xFFFF⟩) := by
    intro m
    induction m with
    | zero => exact fun _ _ => .inr ⟨rfl, rfl, rfl⟩
    | succ m ih =>
      intro hm
      rw [List.range_succ, List.foldl_append]
      exact (ih (Nat.le_of_succ_le hm)).enter hm
  exact hall kHandlers (Nat.le_refl _)

theorem claimant_lt {k : UInt16} {n : Nat} (h : claimant k = some n) : n < kHandlers :=
  List.mem_range.mp (List.mem_of_find?_eq_some h)

theorem claimant_key {k : UInt16} {n : Nat} (h : claimant k = some n) : keyOf n = k :=
  eq_of_beq (List.find?_some (p := fun n => keyOf n == k) h)

/-- Selection is by the key. -/
theorem select_eq (p : Packet) :
    build.select p = ((claimant p.protocol).map UInt16.ofNat).getD kNone := by
  unfold select
  dsimp only
  cases hc : claimant p.protocol with
  | some n =>
    have hb : p.protocol &&& kMask = p.protocol := by
      rw [← claimant_key hc]
      exact TableCompact.low_mask (keyOf_low (claimant_lt hc))
    rw [hb]
    obtain ⟨m, hm, hidx, hkey⟩ | ⟨hm, -⟩ := built p.protocol
    · have hmn : m = n := Option.some.inj (hm.symm.trans hc)
      rw [if_pos hkey, hidx, hmn]
      rfl
    · rw [show claimant p.protocol = none from hm] at hc
      cases hc
  | none =>
    split
    · rename_i hkey
      obtain ⟨m, hm, -, hkey'⟩ | ⟨-, hidx, -⟩ := built (p.protocol &&& kMask)
      · rw [← hkey', hkey] at hm
        rw [show claimant p.protocol = some m from hm] at hc
        cases hc
      · exact hidx
    · rfl

end Selector

/-! ## The results -/

theorem toNat_claimant {k : UInt16} {n : Nat} (h : claimant k = some n) :
    (UInt16.ofNat n).toNat = n ∧ UInt16.ofNat n ≠ Selector.kNone := by
  have hlt : n < 100 := Selector.claimant_lt h
  have hn : (UInt16.ofNat n).toNat = n := by
    rw [UInt16.toNat_ofNat', Nat.mod_eq_of_lt (by omega)]
  refine ⟨hn, fun he => ?_⟩
  have h1 := congrArg UInt16.toNat he
  rw [hn] at h1
  have : n = 65535 := h1
  omega

/-- What an arm returns whose table has at `n` what calls the handler `n`. -/
theorem selected_eq {A : Type} (rounds : Nat) (table : List A) (call : A → Packet → Result)
    (ht : ∀ n, n < kHandlers → ∃ a, table[n]? = some a ∧
      ∀ p, call a p = ⟨mix n rounds p, keyOf n⟩) (p : Packet) :
    selected table call .build p =
      (claimant p.protocol).elim .unsupported fun n => (⟨mix n rounds p, keyOf n⟩ : Result) := by
  unfold selected
  rw [Selector.select_eq]
  cases hc : claimant p.protocol with
  | none => rfl
  | some n =>
    obtain ⟨hn, hne⟩ := toNat_claimant hc
    obtain ⟨a, ha, hcall⟩ := ht n (Selector.claimant_lt hc)
    show (if UInt16.ofNat n = Selector.kNone then _ else _) = _
    rw [if_neg hne]
    show (match table[(UInt16.ofNat n).toNat]? with | none => _ | some a => _) = _
    rw [hn, ha]
    exact hcall p

theorem MechVirtual.dispatch_eq (rounds : Nat) (p : Packet) :
    dispatch rounds .build p =
      (claimant p.protocol).elim .unsupported fun n => ⟨mix n rounds p, keyOf n⟩ := by
  refine selected_eq rounds _ _ (fun n hn => ⟨generated n, ?_, fun _ => rfl⟩) p
  rw [first, List.getElem?_map, List.getElem?_range hn]
  rfl

theorem MechErasure.dispatch_eq (rounds : Nat) (p : Packet) :
    dispatch rounds .build p =
      (claimant p.protocol).elim .unsupported fun n => ⟨mix n rounds p, keyOf n⟩ := by
  refine selected_eq rounds _ _ (fun n hn => ⟨thunk rounds n, ?_, fun _ => rfl⟩) p
  rw [List.getElem?_map, List.getElem?_range hn]
  rfl

theorem MechVariant.dispatch_eq (rounds : Nat) (p : Packet) :
    dispatch rounds .build p =
      (claimant p.protocol).elim .unsupported fun n => ⟨mix n rounds p, keyOf n⟩ := by
  refine selected_eq rounds _ _ (fun n hn => ⟨⟨n, hn⟩, ?_, fun _ => rfl⟩) p
  rw [List.getElem?_eq_getElem (by rwa [List.length_finRange]), List.getElem_finRange]
  rfl

/-- If all of `p` are of `q`, the first of `p` is the first of `q` just if that is
of `p`. -/
theorem find?_eq_iff {A : Type} {p q : A → Bool} (h : ∀ a, p a = true → q a = true) (l : List A) :
    l.find? p = l.find? q ↔ ∀ a, l.find? q = some a → p a = true := by
  constructor
  · intro he a ha
    exact List.find?_some (he.trans ha)
  · intro hq
    induction l with
    | nil => rfl
    | cons x l ih =>
      rw [List.find?_cons, List.find?_cons] at *
      cases hqx : q x with
      | true =>
        rw [hqx] at hq
        rw [hq x rfl]
      | false =>
        have hpx : p x = false := by
          cases hpx : p x with
          | false => rfl
          | true => rw [h x hpx] at hqx; cases hqx
        rw [hpx]
        rw [hqx] at hq
        exact ih hq

/-- The residual keys' first handlers. -/
theorem claimant_residual {k : UInt16} {n : Nat} (h : claimant k = some n) :
    residualOf n = true ↔ k = 900 ∧ n = 27 ∨ k = 901 ∧ n = 7 ∨ k = 902 ∧ n = 17 := by
  have hall : ∀ n : Fin kHandlers, residualOf n = true → claimant (keyOf n) = some n.val →
      keyOf n = 900 ∧ n.val = 27 ∨ keyOf n = 901 ∧ n.val = 7 ∨ keyOf n = 902 ∧ n.val = 17 := by
    decide +kernel
  have hk := Selector.claimant_key h
  constructor
  · intro hres
    rw [← hk] at h ⊢
    exact hall ⟨n, Selector.claimant_lt h⟩ hres h
  · rintro (⟨-, rfl⟩ | ⟨-, rfl⟩ | ⟨-, rfl⟩) <;> rfl

theorem inRange_iff {n : Nat} {b : UInt8} :
    inRange n b = true ↔ (b &&& 3).toNat = n / 10 &&& 3 := by
  unfold inRange
  rw [beq_iff_eq, UInt8.toNat_and]
  rfl

theorem firstMatch_eq (p : Packet) :
    firstMatch kHandlers p = (List.range kHandlers).find? fun n => generatedMatches n p := by
  unfold firstMatch first
  rw [scan_eq, List.find?_map, Option.map_map]
  exact Option.map_id'

/-- **The mechanisms agree**, on what the first handler of the packet's key makes
of it; and that is the handler which the scan finds, but for the packets of a
residual key whose first byte is not of that handler's range. -/
theorem mechanisms_agree (rounds : Nat) (p : Packet) :
    (∀ dispatch ∈ [MechVirtual.dispatch, MechErasure.dispatch, MechVariant.dispatch],
      dispatch rounds .build p =
        (claimant p.protocol).elim .unsupported fun n => ⟨mix n rounds p, keyOf n⟩) ∧
      (claimant p.protocol = firstMatch kHandlers p ↔
        (p.protocol = 900 → p.payload.get (.ofNat 24 0) &&& 3 = 2) ∧
          (p.protocol = 901 → p.payload.get (.ofNat 24 0) &&& 3 = 0) ∧
            (p.protocol = 902 → p.payload.get (.ofNat 24 0) &&& 3 = 1)) := by
  constructor
  · intro dispatch hd
    simp only [List.mem_cons, List.not_mem_nil, or_false] at hd
    obtain rfl | rfl | rfl := hd
    · exact MechVirtual.dispatch_eq rounds p
    · exact MechErasure.dispatch_eq rounds p
    · exact MechVariant.dispatch_eq rounds p
  · have hmatch : ∀ n, claimant p.protocol = some n →
        (generatedMatches n p = true ↔
          (residualOf n = true → inRange n (p.payload.get (.ofNat 24 0)) = true)) := by
      intro n hn
      rw [generatedMatches_iff, Selector.claimant_key hn]
      exact and_iff_right rfl
    have hkey : ∀ n, generatedMatches n p = true → (keyOf n == p.protocol) = true :=
      fun n h => beq_iff_eq.mpr (generatedMatches_iff.mp h).1.symm
    rw [firstMatch_eq, eq_comm, claimant, find?_eq_iff hkey]
    have h900 : claimant 900 = some 27 := by decide +kernel
    have h901 : claimant 901 = some 7 := by decide +kernel
    have h902 : claimant 902 = some 17 := by decide +kernel
    constructor
    · intro h
      refine ⟨fun hk => ?_, fun hk => ?_, fun hk => ?_⟩
      · have hn : claimant p.protocol = some 27 := hk ▸ h900
        exact UInt8.toNat_inj.mp (inRange_iff.mp ((hmatch 27 hn).mp (h 27 hn) (by decide)))
      · have hn : claimant p.protocol = some 7 := hk ▸ h901
        exact UInt8.toNat_inj.mp (inRange_iff.mp ((hmatch 7 hn).mp (h 7 hn) (by decide)))
      · have hn : claimant p.protocol = some 17 := hk ▸ h902
        exact UInt8.toNat_inj.mp (inRange_iff.mp ((hmatch 17 hn).mp (h 17 hn) (by decide)))
    · rintro ⟨h0, h1, h2⟩ n hn
      refine (hmatch n hn).mpr fun hres => inRange_iff.mpr ?_
      obtain ⟨hk, rfl⟩ | ⟨hk, rfl⟩ | ⟨hk, rfl⟩ := (claimant_residual hn).mp hres
      · rw [h0 hk]
        rfl
      · rw [h1 hk]
        rfl
      · rw [h2 hk]
        rfl

end Katas.Switchyard
