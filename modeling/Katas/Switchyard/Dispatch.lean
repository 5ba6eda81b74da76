import Katas.Core.Prog
import Mathlib.Algebra.Group.Nat.Defs
import Mathlib.Data.List.Find
import Mathlib.Data.List.Nodup

/-!
# Dispatch by scan and by table

`switchyard`'s dispatch arms: the scan of the handler list, and the two tables
built from what the handlers declare. A dispatch is the handler whose `process`
it calls; `none` is `Result::unsupported()`. A handler is an object: its
address is its identity, and what `process` does is not modelled. The counting
dispatches, with their `probes_`, are in `Ordered` and `TableProbes`.
-/
namespace Katas.Switchyard
open Katas.Conc

/-- mirrors plugin-dispatch-kata/cpp/src/packet.hpp:20-25 -/
structure Packet where
  protocol : UInt16
  length : UInt16
  flags : UInt32
  payload : Vector UInt8 24

/-- mirrors plugin-dispatch-kata/cpp/src/handler.hpp:31-38 -/
structure Registration where
  key : UInt16
  residual : Bool

/-- mirrors plugin-dispatch-kata/cpp/src/handler.hpp:40-42 -/
structure Declaring where
  address : Nat
  declare : Registration
  matches_ : Packet → Bool

/-- mirrors plugin-dispatch-kata/cpp/src/strategy.hpp:40-47 (`ScanUnordered::run`) -/
def scan (p : Packet) : List Declaring → Option Declaring
  | [] => none
  | h :: hs => if h.matches_ p then some h else scan p hs

/-- mirrors plugin-dispatch-kata/cpp/src/strategy.hpp:110-114 -/
structure Slot where
  only : Option Declaring
  begin : UInt32
  count : UInt16

def Slot.init : Slot := ⟨none, 0, 0⟩

/-- mirrors plugin-dispatch-kata/cpp/src/strategy.hpp:127 (`TableBuilder::Entry`) -/
structure Entry where
  key : UInt16
  residual : Bool
  h : Declaring

/-- mirrors plugin-dispatch-kata/cpp/src/strategy.hpp:120-125 -/
def entries (hs : List Declaring) : List Entry :=
  hs.map fun h => ⟨h.declare.key, h.declare.residual, h⟩

/-- mirrors plugin-dispatch-kata/cpp/src/strategy.hpp:130-135 -/
def distinctKeys (es : List Entry) : List UInt16 :=
  es.foldl (fun ks e => if e.key ∈ ks then ks else ks ++ [e.key]) []

/-- A key's candidates, and whether all of them match by the key alone.
mirrors plugin-dispatch-kata/cpp/src/strategy.hpp:150-156 -/
def gather (es : List Entry) (k : UInt16) : List Declaring × Bool :=
  es.foldl (fun (cands, pure) e =>
    if e.key = k then (cands ++ [e.h], pure && !e.residual) else (cands, pure)) ([], true)

/-- Enters a key's candidates: the sole owner of the slot, or a range of
`cand_`.
mirrors plugin-dispatch-kata/cpp/src/strategy.hpp:157-164 -/
def Slot.enter (s : Slot) (cand : List Declaring) : List Declaring × Bool → Slot × List Declaring
  | ([h], true) => ({ s with only := some h }, cand)
  | (cands, _) =>
    ({ s with begin := .ofNat cand.length, count := .ofNat cands.length }, cand ++ cands)

/-- The first of the next `n` candidates that matches, from the `i`-th on; past
the end of `cand_` the read is undefined.
mirrors plugin-dispatch-kata/cpp/src/strategy.hpp:182-186 -/
def walk (cand : List Declaring) (p : Packet) (s : Slot) (i : Nat) : Nat → Option Declaring
  | 0 => none
  | n + 1 =>
    match cand[(s.begin + .ofNat i).toNat]? with
    | none => none
    | some h => if h.matches_ p then some h else walk cand p s (i + 1) n

/-- mirrors plugin-dispatch-kata/cpp/src/strategy.hpp:181-187 -/
def Slot.run (s : Slot) (cand : List Declaring) (p : Packet) : Option Declaring :=
  match s.only with
  | some h => some h
  | none => walk cand p s 0 s.count.toNat

/-! ## What the handlers promise -/

/-- A handler matches no packet of another key, and a handler that is not
residual matches every packet of its key. -/
structure Declaring.Honest (h : Declaring) : Prop where
  key : ∀ p, h.matches_ p = true → p.protocol = h.declare.key
  all : h.declare.residual = false → ∀ p, p.protocol = h.declare.key → h.matches_ p = true

/-- The handlers of a key, in the order they were registered. -/
def ofKey (hs : List Declaring) (k : UInt16) : List Declaring :=
  hs.filter fun h => h.declare.key = k

/-- Honest handlers, fewer than 65536 of each key. -/
structure Registered (hs : List Declaring) : Prop where
  honest : ∀ h ∈ hs, h.Honest
  few : ∀ k, (ofKey hs k).length < 65536

/-- Does one handler own the key? -/
def Sole (hs : List Declaring) (k : UInt16) : Prop :=
  ∃ h, ofKey hs k = [h] ∧ h.declare.residual = false

variable {hs : List Declaring} {k : UInt16} {p : Packet}

/-! ## The scan -/

theorem scan_eq (p : Packet) (hs : List Declaring) :
    scan p hs = hs.find? fun h => h.matches_ p := by
  induction hs with
  | nil => rfl
  | cons h hs ih =>
    unfold scan
    rw [List.find?_cons]
    cases h.matches_ p with
    | true => rfl
    | false => exact ih

/-- The scan finds what it would find among the handlers of the packet's key. -/
theorem Registered.scan_ofKey (hr : Registered hs) (p : Packet) :
    scan p hs = (ofKey hs p.protocol).find? fun h => h.matches_ p := by
  rw [scan_eq, ofKey, List.find?_filter]
  refine List.find?_congr fun h hh => ?_
  cases hm : h.matches_ p with
  | false => simp
  | true => simp [(hr.honest h hh).key p hm]

theorem ofKey_mem {h : Declaring} (hh : h ∈ ofKey hs k) : h ∈ hs ∧ h.declare.key = k := by
  simpa [ofKey] using hh

theorem ofKey_eq_nil (h : ∀ d ∈ hs, d.declare.key ≠ k) : ofKey hs k = [] :=
  List.filter_eq_nil_iff.mpr fun d hd => by simpa using h d hd

/-! ## Gathering -/

theorem gather_aux (es : List Entry) (k : UInt16) (c : List Declaring) (b : Bool) :
    es.foldl (fun (cands, pure) e =>
      if e.key = k then (cands ++ [e.h], pure && !e.residual) else (cands, pure)) (c, b) =
      (c ++ (es.filter fun e => e.key = k).map Entry.h,
        b && (es.filter fun e => e.key = k).all fun e => !e.residual) := by
  induction es generalizing c b with
  | nil => simp
  | cons e es ih =>
    rw [List.foldl_cons]
    by_cases he : e.key = k
    · simp only [he, if_true]
      rw [ih]
      simp [he, Bool.and_assoc]
    · simp only [he, if_false]
      rw [ih]
      simp [he]

theorem gather_eq (hs : List Declaring) (k : UInt16) :
    gather (entries hs) k = (ofKey hs k, (ofKey hs k).all fun h => !h.declare.residual) := by
  unfold gather
  rw [gather_aux, List.nil_append, Bool.true_and]
  have hmap : ((entries hs).filter fun e => e.key = k) =
      (ofKey hs k).map fun h => ⟨h.declare.key, h.declare.residual, h⟩ := by
    rw [entries, List.filter_map]
    rfl
  rw [hmap, List.map_map, List.all_map]
  refine Prod.ext ?_ rfl
  exact List.map_id _

theorem distinct_aux (es : List Entry) (ks : List UInt16) (hk : ks.Nodup) :
    (es.foldl (fun ks e => if e.key ∈ ks then ks else ks ++ [e.key]) ks).Nodup ∧
      ∀ k, k ∈ es.foldl (fun ks e => if e.key ∈ ks then ks else ks ++ [e.key]) ks ↔
        k ∈ ks ∨ ∃ e ∈ es, e.key = k := by
  induction es generalizing ks with
  | nil => simpa using hk
  | cons e es ih =>
    rw [List.foldl_cons]
    by_cases he : e.key ∈ ks
    · rw [if_pos he]
      obtain ⟨h1, h2⟩ := ih ks hk
      refine ⟨h1, fun k => ?_⟩
      rw [h2]
      constructor
      · rintro (h | ⟨e', he', rfl⟩)
        · exact .inl h
        · exact .inr ⟨e', List.mem_cons_of_mem _ he', rfl⟩
      · rintro (h | ⟨e', he', rfl⟩)
        · exact .inl h
        · obtain rfl | he' := List.mem_cons.mp he'
          · exact .inl he
          · exact .inr ⟨e', he', rfl⟩
    · rw [if_neg he]
      have hn : (ks ++ [e.key]).Nodup := by
        rw [List.nodup_append]
        refine ⟨hk, List.nodup_singleton _, fun a ha b hb => ?_⟩
        rw [List.mem_singleton.mp hb]
        rintro rfl
        exact he ha
      obtain ⟨h1, h2⟩ := ih _ hn
      refine ⟨h1, fun k => ?_⟩
      rw [h2]
      constructor
      · rintro (h | ⟨e', he', rfl⟩)
        · obtain h | h := List.mem_append.mp h
          · exact .inl h
          · exact .inr ⟨e, List.mem_cons_self, (List.mem_singleton.mp h).symm⟩
        · exact .inr ⟨e', List.mem_cons_of_mem _ he', rfl⟩
      · rintro (h | ⟨e', he', rfl⟩)
        · exact .inl (List.mem_append_left _ h)
        · obtain rfl | he' := List.mem_cons.mp he'
          · exact .inl (List.mem_append_right _ (List.mem_singleton.mpr rfl))
          · exact .inr ⟨e', he', rfl⟩

theorem distinctKeys_nodup (es : List Entry) : (distinctKeys es).Nodup :=
  (distinct_aux es [] List.nodup_nil).1

theorem mem_distinctKeys : k ∈ distinctKeys (entries hs) ↔ ∃ h ∈ hs, h.declare.key = k := by
  rw [distinctKeys, (distinct_aux _ [] List.nodup_nil).2]
  simp [entries]

/-- There are no more distinct keys than there are keys. -/
theorem length_le_keys {ks : List UInt16} (h : ks.Nodup) : ks.length ≤ 65536 := by
  have hinj : (ks.map UInt16.toNat).Nodup := h.map fun a b hab => UInt16.toNat_inj.mp hab
  have hsub : ks.map UInt16.toNat ⊆ List.range 65536 := by
    intro n hn
    obtain ⟨a, -, rfl⟩ := List.mem_map.mp hn
    exact List.mem_range.mpr a.toNat_lt
  have hle := List.Nodup.length_le_of_subset hinj hsub
  simpa using hle

/-! ## Ranges of candidates -/

/-- The slot's range holds the candidates of key `k`. -/
structure Slot.Ranges (s : Slot) (cand : List Declaring) (hs : List Declaring) (k : UInt16) :
    Prop where
  count : s.count.toNat = (ofKey hs k).length
  fits : s.begin.toNat + (ofKey hs k).length < 2 ^ 32
  range : (cand.drop s.begin.toNat).take (ofKey hs k).length = ofKey hs k

theorem walk_eq {s : Slot} {cand l : List Declaring} (p : Packet) (i : Nat)
    (hf : s.begin.toNat + i + l.length < 2 ^ 32)
    (hl : (cand.drop (s.begin.toNat + i)).take l.length = l) :
    walk cand p s i l.length = l.find? fun h => h.matches_ p := by
  induction l generalizing i with
  | nil => rfl
  | cons h l ih =>
    rw [List.length_cons] at hf hl ⊢
    have hidx : (s.begin + UInt32.ofNat i).toNat = s.begin.toNat + i := by
      rw [UInt32.toNat_add, UInt32.toNat_ofNat', Nat.mod_eq_of_lt (by omega : i < 2 ^ 32)]
      exact Nat.mod_eq_of_lt (by omega)
    have hlen : s.begin.toNat + i < cand.length := by
      by_contra hge
      rw [List.drop_eq_nil_of_le (by omega), List.take_nil] at hl
      cases hl
    rw [List.drop_eq_getElem_cons hlen, List.take_succ_cons] at hl
    obtain ⟨hhead, htail⟩ := List.cons.inj hl
    unfold walk
    rw [hidx, List.getElem?_eq_getElem hlen, hhead, List.find?_cons]
    dsimp only
    cases h.matches_ p with
    | true => rfl
    | false => exact ih (i + 1) (by omega) htail

theorem Slot.Ranges.run {s : Slot} {cand : List Declaring} (h : s.Ranges cand hs k)
    (ho : s.only = none) (p : Packet) :
    s.run cand p = (ofKey hs k).find? fun d => d.matches_ p := by
  unfold Slot.run
  rw [ho, h.count]
  exact walk_eq p 0 (by rw [Nat.add_zero]; exact h.fits) h.range

/-- More candidates come behind. -/
theorem Slot.Ranges.append {s : Slot} {cand : List Declaring} (h : s.Ranges cand hs k)
    (l : List Declaring) : s.Ranges (cand ++ l) hs k := by
  refine ⟨h.count, h.fits, ?_⟩
  have hr := h.range
  by_cases hn : (ofKey hs k).length = 0
  · rw [hn, List.take_zero] at hr ⊢; exact hr
  · have hle : s.begin.toNat + (ofKey hs k).length ≤ cand.length := by
      have := congrArg List.length hr
      rw [List.length_take, List.length_drop] at this
      omega
    rw [List.drop_append_of_le_length (by omega),
      List.take_append_of_le_length (by rw [List.length_drop]; omega)]
    exact hr

/-- What entering a key does to its slot. -/
theorem enter_cases (hr : Registered hs) (s : Slot) {cand : List Declaring}
    (hc : cand.length + (ofKey hs k).length < 2 ^ 32) :
    (∃ h, ofKey hs k = [h] ∧ h.declare.residual = false ∧
        s.enter cand (gather (entries hs) k) = ({ s with only := some h }, cand)) ∨
      ¬ Sole hs k ∧ ∃ s', s.enter cand (gather (entries hs) k) = (s', cand ++ ofKey hs k) ∧
        s'.only = s.only ∧ s'.Ranges (cand ++ ofKey hs k) hs k := by
  have hranges : Slot.Ranges { s with
      begin := .ofNat cand.length
      count := .ofNat (ofKey hs k).length } (cand ++ ofKey hs k) hs k := by
    have hb : (UInt32.ofNat cand.length).toNat = cand.length := by
      rw [UInt32.toNat_ofNat', Nat.mod_eq_of_lt (by omega)]
    refine ⟨?_, ?_, ?_⟩
    · show (UInt16.ofNat _).toNat = _
      rw [UInt16.toNat_ofNat', Nat.mod_eq_of_lt (hr.few k)]
    · show (UInt32.ofNat cand.length).toNat + _ < _
      rw [hb]; exact hc
    · show ((cand ++ ofKey hs k).drop (UInt32.ofNat cand.length).toNat).take _ = _
      rw [hb, List.drop_left, List.take_length]
  rw [gather_eq]
  by_cases hsole : Sole hs k
  · obtain ⟨h, he, hres⟩ := hsole
    refine .inl ⟨h, he, hres, ?_⟩
    rw [he]
    simp [Slot.enter, hres]
  · refine .inr ⟨hsole, _, ?_, ?_, hranges⟩
    · unfold Slot.enter
      split
      · rename_i h heq
        obtain ⟨h1, h2⟩ := Prod.mk.inj heq
        rw [h1] at h2
        exact absurd ⟨h, h1, by simpa using h2⟩ hsole
      · rename_i cands b hne heq
        obtain ⟨h1, -⟩ := Prod.mk.inj heq
        rw [← h1]
    · rfl

/-! ## Handlers that match by the key alone -/

/-- A packet with the protocol `k`. -/
def packetOf (k : UInt16) : Packet := ⟨k, 0, 0, .replicate 24 0⟩

/-- mirrors plugin-dispatch-kata/cpp/src/host.hpp:141,156 (`PluginBackedHandler`) -/
def pure_ (address : Nat) (key : UInt16) : Declaring where
  address := address
  declare := ⟨key, false⟩
  matches_ p := p.protocol = key

theorem pure_honest (address : Nat) (key : UInt16) : (pure_ address key).Honest :=
  ⟨fun _ hp => of_decide_eq_true hp, fun _ _ hp => decide_eq_true hp⟩

theorem registered_of_pure (l : List (Nat × UInt16)) (hl : l.length < 65536) :
    Registered (l.map fun (a, k) => pure_ a k) := by
  refine ⟨fun h hh => ?_, fun k => ?_⟩
  · obtain ⟨⟨a, k⟩, -, rfl⟩ := List.mem_map.mp hh
    exact pure_honest a k
  · refine Nat.lt_of_le_of_lt (List.length_filter_le _ _) ?_
    rwa [List.length_map]

/-- Asks for the packet's flags besides its key. -/
def tested (address : Nat) (key : UInt16) (flags : UInt32) : Declaring where
  address := address
  declare := ⟨key, true⟩
  matches_ p := p.protocol = key && p.flags = flags

/-- Two residual handlers of one key, and one that owns its key between them. -/
def threeHandlers : List Declaring := [tested 0 7 1, pure_ 1 5, tested 2 7 2]

theorem threeHandlers_registered : Registered threeHandlers := by
  refine ⟨fun h hh => ?_, fun k => Nat.lt_of_le_of_lt (List.length_filter_le _ _) (by decide)⟩
  have htested : ∀ a k f, (tested a k f).Honest := fun a k f =>
    ⟨fun p hp => of_decide_eq_true (Bool.and_eq_true_iff.mp hp).1, nofun⟩
  obtain rfl | rfl | rfl : h = tested 0 7 1 ∨ h = pure_ 1 5 ∨ h = tested 2 7 2 := by
    simpa [threeHandlers] using hh
  · exact htested ..
  · exact pure_honest ..
  · exact htested ..

end Katas.Switchyard
