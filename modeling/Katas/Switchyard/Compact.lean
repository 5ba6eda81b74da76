import Katas.Switchyard.Dispatch

/-!
# The table of the low bits

`TableCompact` indexes by the low ten bits of the key and keeps the key beside
the slot; `0xFFFF` there means that the slot is empty. Key `0xFFFF` itself can
be declared: its slot then looks empty, and a later key with the same low bits
is entered over it with no collision reported.
-/
namespace Katas.Switchyard
open Katas.Conc

/-- mirrors plugin-dispatch-kata/cpp/src/strategy.hpp:247-252 -/
structure CSlot where
  key : UInt16
  slot : Slot

/-- mirrors plugin-dispatch-kata/cpp/src/strategy.hpp:268-270 -/
structure TableCompact where
  tbl : UInt16 → CSlot
  cand : List Declaring
  injective : Bool

namespace TableCompact

/-- mirrors plugin-dispatch-kata/cpp/src/strategy.hpp:204 -/
def kMask : UInt16 := 1023

/-- mirrors plugin-dispatch-kata/cpp/src/strategy.hpp:246 -/
def kEmpty : UInt16 := 0xFFFF

/-- mirrors plugin-dispatch-kata/cpp/src/strategy.hpp:211-227 -/
def enter (es : List Entry) (t : TableCompact) (k : UInt16) : TableCompact :=
  let c := t.tbl (k &&& kMask)
  if c.key ≠ kEmpty ∧ c.key ≠ k then { t with injective := false }
  else
    let (s, cand) := c.slot.enter t.cand (gather es k)
    { t with tbl := upd t.tbl (k &&& kMask) ⟨k, s⟩, cand := cand }

/-- mirrors plugin-dispatch-kata/cpp/src/strategy.hpp:206-229 -/
def build (hs : List Declaring) : TableCompact :=
  (distinctKeys (entries hs)).foldl (enter (entries hs)) ⟨fun _ => ⟨kEmpty, .init⟩, [], true⟩

/-- mirrors plugin-dispatch-kata/cpp/src/strategy.hpp:237,254-266 -/
def dispatch (t : TableCompact) (p : Packet) : Option Declaring :=
  let c := t.tbl (p.protocol &&& kMask)
  if c.key ≠ p.protocol then none else c.slot.run t.cand p

/-! ## The key that means empty -/

variable (hs : List Declaring)

/-- Another key has the low bits of `0xFFFF`. -/
def Overwritten (ks : List UInt16) : Prop := ∃ k ∈ ks, k ≠ kEmpty ∧ k &&& kMask = kEmpty &&& kMask

/-- Key `0xFFFF` is overwritten while one of its handlers matches a packet. -/
def Clash : Prop :=
  (∃ h ∈ hs, h.declare.key = kEmpty ∧ ∃ p, h.matches_ p = true) ∧
    ∃ h ∈ hs, h.declare.key ≠ kEmpty ∧ h.declare.key &&& kMask = kEmpty &&& kMask

/-- The owner that was left in the slot of `k` is that of `0xFFFF`. -/
def Stale (ks : List UInt16) (k : UInt16) : Prop :=
  k ≠ kEmpty ∧ k &&& kMask = kEmpty &&& kMask ∧ kEmpty ∈ ks ∧ Sole hs kEmpty

/-- The slot serves key `k`, if no owner was left in it. -/
inductive Served (ks : List UInt16) (s : Slot) (cand : List Declaring) (k : UInt16) : Prop
  | sole (h : Declaring) : ofKey hs k = [h] → h.declare.residual = false → s.only = some h →
      Served ks s cand k
  | range : (s.only = none ∨ Stale hs ks k) → s.Ranges cand hs k → Served ks s cand k

/-- The keys of `ks` are entered, with no collision reported. -/
structure Built (ks : List UInt16) (t : TableCompact) : Prop where
  served : ∀ k ∈ ks, (t.tbl (k &&& kMask)).key = k →
    Served hs ks (t.tbl (k &&& kMask)).slot t.cand k
  kept : ∀ k ∈ ks, (t.tbl (k &&& kMask)).key = k ∨ k = kEmpty ∧ Overwritten ks
  other : ∀ j, (∀ k ∈ ks, k &&& kMask ≠ j) → t.tbl j = ⟨kEmpty, .init⟩
  keyed : ∀ j, (t.tbl j).key ≠ kEmpty → (t.tbl j).key ∈ ks ∧ (t.tbl j).key &&& kMask = j
  length : t.cand.length ≤ ks.length * 65535

variable {hs} {k : UInt16} {t : TableCompact} {cand : List Declaring} {s : Slot}

theorem Served.append {ks : List UInt16} (h : Served hs ks s cand k) (l : List Declaring)
    (j : UInt16) : Served hs (ks ++ [j]) s (cand ++ l) k := by
  cases h with
  | sole d h1 h2 h3 => exact .sole d h1 h2 h3
  | range h1 h2 =>
    refine .range (h1.imp_right ?_) (h2.append l)
    exact fun ⟨a, b, c, d⟩ => ⟨a, b, List.mem_append_left _ c, d⟩

/-- A slot that looks empty is, or holds the entry of key `0xFFFF`. -/
theorem Built.of_empty {ks : List UInt16} (h : Built hs ks t) {j : UInt16}
    (he : (t.tbl j).key = kEmpty) :
    t.tbl j = ⟨kEmpty, .init⟩ ∨ kEmpty ∈ ks ∧ j = kEmpty &&& kMask := by
  by_cases hno : ∀ k ∈ ks, k &&& kMask ≠ j
  · exact .inl (h.other j hno)
  · obtain ⟨k, hk, rfl⟩ : ∃ k ∈ ks, k &&& kMask = j := by
      simpa only [not_forall, not_not, exists_prop] using hno
    obtain hkey | ⟨rfl, -⟩ := h.kept k hk
    · rw [he] at hkey
      subst hkey
      exact .inr ⟨hk, rfl⟩
    · exact .inr ⟨hk, rfl⟩

/-- What was left in a slot that looks empty. -/
theorem Built.left {ks : List UInt16} (h : Built hs ks t) {k : UInt16} (hk : k ∉ ks)
    (he : (t.tbl (k &&& kMask)).key = kEmpty) :
    (t.tbl (k &&& kMask)).slot.only = none ∨ Stale hs (ks ++ [k]) k := by
  obtain hinit | ⟨hmem, hj⟩ := h.of_empty he
  · rw [hinit]; exact .inl rfl
  · have hserved := h.served kEmpty hmem (by rw [← hj]; exact he)
    rw [← hj] at hserved
    cases hserved with
    | sole d h1 h2 h3 =>
      refine .inr ⟨?_, hj, List.mem_append_left _ hmem, d, h1, h2⟩
      rintro rfl
      exact hk hmem
    | range h1 h2 =>
      obtain h1 | h1 := h1
      · exact .inl h1
      · exact absurd rfl h1.1

theorem Built.enter (hr : Registered hs) {ks : List UInt16} (h : Built hs ks t)
    (hn : (ks ++ [k]).Nodup) (hi : (t.enter (entries hs) k).injective = true) :
    Built hs (ks ++ [k]) (t.enter (entries hs) k) := by
  have hk : k ∉ ks := fun hd =>
    (List.nodup_append.mp hn).2.2 k hd k (List.mem_singleton.mpr rfl) rfl
  have hlen := length_le_keys hn
  rw [List.length_append, List.length_singleton] at hlen
  have hfew := hr.few k
  have hcand := h.length
  have hfits : t.cand.length + (ofKey hs k).length < 2 ^ 32 := by
    have : ks.length * 65535 ≤ 65535 * 65535 := Nat.mul_le_mul_right _ (by omega)
    omega
  have hne : ¬ ((t.tbl (k &&& kMask)).key ≠ kEmpty ∧ (t.tbl (k &&& kMask)).key ≠ k) := by
    intro hc
    unfold TableCompact.enter at hi
    dsimp only at hi
    rw [if_pos hc] at hi
    cases hi
  -- the slot looks empty
  have hempty : (t.tbl (k &&& kMask)).key = kEmpty := by
    by_contra he
    have hkey : (t.tbl (k &&& kMask)).key = k := by
      by_contra hne'
      exact hne ⟨he, hne'⟩
    exact hk (hkey ▸ (h.keyed _ he).1)
  have hleft := h.left hk hempty
  have hnew : ∀ {l : List Declaring} {x : Slot}, Served hs (ks ++ [k]) x (t.cand ++ l) k →
      l.length ≤ 65535 → Built hs (ks ++ [k])
        { t with tbl := upd t.tbl (k &&& kMask) ⟨k, x⟩, cand := t.cand ++ l } := by
    intro l x hserved hl
    refine ⟨fun j hj hkey => ?_, fun j hj => ?_, fun j hj => ?_, fun j hj => ?_, ?_⟩
    · dsimp only at hkey ⊢
      by_cases he : j &&& kMask = k &&& kMask
      · rw [he, upd_self] at hkey ⊢
        obtain rfl : k = j := hkey
        exact hserved
      · rw [upd_ne _ _ he] at hkey ⊢
        obtain hj | hj := List.mem_append.mp hj
        · exact (h.served j hj hkey).append l k
        · rw [List.mem_singleton.mp hj] at he
          exact absurd rfl he
    · dsimp only
      obtain hj' | hj' := List.mem_append.mp hj
      · by_cases he : j &&& kMask = k &&& kMask
        · -- `j` had the slot, so it is the key that means empty
          obtain hkey | ⟨rfl, k', hk', hover⟩ := h.kept j hj'
          · rw [he, hempty] at hkey
            subst hkey
            refine .inr ⟨rfl, k, List.mem_append_right _ (List.mem_singleton.mpr rfl), ?_, he.symm⟩
            rintro rfl
            exact hk hj'
          · exact .inr ⟨rfl, k', List.mem_append_left _ hk', hover⟩
        · rw [upd_ne _ _ he]
          obtain hkey | ⟨rfl, k', hk', hover⟩ := h.kept j hj'
          · exact .inl hkey
          · exact .inr ⟨rfl, k', List.mem_append_left _ hk', hover⟩
      · rw [List.mem_singleton.mp hj', upd_self]
        exact .inl rfl
    · dsimp only
      have he : j ≠ k &&& kMask := fun he =>
        hj k (List.mem_append_right _ (List.mem_singleton.mpr rfl)) he.symm
      rw [upd_ne _ _ he]
      exact h.other j fun k' hk' => hj k' (List.mem_append_left _ hk')
    · dsimp only at hj ⊢
      by_cases he : j = k &&& kMask
      · subst he
        rw [upd_self]
        exact ⟨List.mem_append_right _ (List.mem_singleton.mpr rfl), rfl⟩
      · rw [upd_ne _ _ he] at hj ⊢
        obtain ⟨h1, h2⟩ := h.keyed j hj
        exact ⟨List.mem_append_left _ h1, h2⟩
    · simp only [List.length_append, List.length_singleton]
      omega
  unfold TableCompact.enter
  dsimp only
  rw [if_neg hne]
  obtain ⟨d, h1, h2, h3⟩ | ⟨-, s', h1, h2, h3⟩ :=
    enter_cases hr (t.tbl (k &&& kMask)).slot hfits
  · rw [h3]
    have := hnew (l := []) (x := { (t.tbl (k &&& kMask)).slot with only := some d })
      (.sole d h1 h2 rfl) (Nat.zero_le _)
    rwa [List.append_nil] at this
  · rw [h1]
    exact hnew (.range (by rw [h2]; exact hleft) h3) (by omega)

/-- A collision that is reported stays reported. -/
theorem enter_injective (es : List Entry) (h : (t.enter es k).injective = true) :
    t.injective = true := by
  unfold enter at h
  dsimp only at h
  split at h
  · cases h
  · exact h

theorem foldl_injective (es : List Entry) (ks : List UInt16)
    (h : (ks.foldl (enter es) t).injective = true) : t.injective = true := by
  induction ks generalizing t with
  | nil => exact h
  | cons k ks ih => exact enter_injective es (ih h)

theorem built (hr : Registered hs) (hi : (build hs).injective = true) :
    Built hs (distinctKeys (entries hs)) (build hs) := by
  have hfold : ∀ ks done t, Built hs done t → (done ++ ks).Nodup →
      (ks.foldl (TableCompact.enter (entries hs)) t).injective = true →
      Built hs (done ++ ks) (ks.foldl (TableCompact.enter (entries hs)) t) := by
    intro ks
    induction ks with
    | nil => intro done t h _ _; rwa [List.append_nil]
    | cons k ks ih =>
      intro done t h hn hi
      rw [List.append_cons] at hn
      have := ih (done ++ [k]) _
        (h.enter hr (List.nodup_append.mp hn).1 (foldl_injective _ ks hi)) hn hi
      rwa [← List.append_cons] at this
  have := hfold (distinctKeys (entries hs)) [] ⟨fun _ => ⟨kEmpty, .init⟩, [], true⟩
    ⟨nofun, nofun, fun _ _ => rfl, fun _ h => absurd rfl h, Nat.zero_le _⟩
    (distinctKeys_nodup _) hi
  rwa [List.nil_append] at this

/-! ## Agreement with the scan -/

theorem overwritten_iff : Overwritten (distinctKeys (entries hs)) ↔
    ∃ h ∈ hs, h.declare.key ≠ kEmpty ∧ h.declare.key &&& kMask = kEmpty &&& kMask := by
  constructor
  · rintro ⟨k, hk, hne, hm⟩
    obtain ⟨h, hh, rfl⟩ := mem_distinctKeys.mp hk
    exact ⟨h, hh, hne, hm⟩
  · rintro ⟨h, hh, hne, hm⟩
    exact ⟨_, mem_distinctKeys.mpr ⟨h, hh, rfl⟩, hne, hm⟩

/-- The slot of the overwritten key has the other key. -/
theorem Built.overwritten {ks : List UInt16} (h : Built hs ks t) (ho : Overwritten ks) :
    (t.tbl (kEmpty &&& kMask)).key ≠ kEmpty := by
  obtain ⟨k, hk, hne, hm⟩ := ho
  obtain hkey | ⟨he, -⟩ := h.kept k hk
  · rw [← hm, hkey]; exact hne
  · exact absurd he hne

/-- Where the slot has the packet's key, the table finds what the scan finds,
unless it finds the owner that was left there. -/
theorem Served.run (hr : Registered hs) {p : Packet} {ks : List UInt16}
    (h : Served hs ks s cand p.protocol) (hs' : ¬ Stale hs ks p.protocol) :
    s.run cand p = scan p hs := by
  rw [hr.scan_ofKey]
  cases h with
  | sole d h1 h2 h3 =>
    obtain ⟨hmem, hkey⟩ := ofKey_mem (h1 ▸ List.mem_singleton.mpr rfl : d ∈ ofKey hs p.protocol)
    have hm := (hr.honest d hmem).all h2 p hkey.symm
    unfold Slot.run
    rw [h3, h1, List.find?_cons, hm]
  | range h1 h2 => exact h2.run (h1.resolve_right hs') p

/-- When the table says that its keys do not collide, it finds what the scan
finds for every packet, unless key `0xFFFF` is overwritten while one of its
handlers matches a packet. -/
theorem dispatch_scan_iff (hr : Registered hs) (hi : (build hs).injective = true) :
    (∀ p, (build hs).dispatch p = scan p hs) ↔ ¬ Clash hs := by
  have h := built hr hi
  constructor
  · rintro hall ⟨⟨d, hd, hkey, p, hp⟩, hover⟩
    have hproto : p.protocol = kEmpty := ((hr.honest d hd).key p hp).trans hkey
    have hnone : (build hs).dispatch p = none := by
      unfold dispatch
      dsimp only
      rw [hproto, if_pos (h.overwritten (overwritten_iff.mpr hover))]
    have hsome : scan p hs ≠ none := by
      rw [scan_eq, ne_eq, List.find?_eq_none]
      exact fun hno => hno d hd hp
    exact hsome ((hall p).symm.trans hnone)
  · intro hno p
    unfold dispatch
    dsimp only
    by_cases hk : p.protocol ∈ distinctKeys (entries hs)
    · by_cases hkey : ((build hs).tbl (p.protocol &&& kMask)).key = p.protocol
      · rw [if_neg (not_not.mpr hkey)]
        refine (h.served _ hk hkey).run hr ?_
        rintro ⟨hne, hm, hmem, d, hd, hres⟩
        -- the owner of key 0xFFFF matches a packet of that key
        obtain ⟨hdm, hdk⟩ := ofKey_mem (hd ▸ List.mem_singleton.mpr rfl : d ∈ ofKey hs kEmpty)
        refine hno ⟨⟨d, hdm, hdk, packetOf kEmpty, ?_⟩, overwritten_iff.mp ⟨_, hk, hne, hm⟩⟩
        exact (hr.honest d hdm).all hres _ hdk.symm
      · rw [if_pos hkey]
        obtain hkey' | ⟨he, hover⟩ := h.kept _ hk
        · exact absurd hkey' hkey
        · symm
          rw [scan_eq, List.find?_eq_none]
          intro d hd hm
          have hdk : d.declare.key = kEmpty := (((hr.honest d hd).key p hm).symm).trans he
          exact hno ⟨⟨d, hd, hdk, p, hm⟩, overwritten_iff.mp hover⟩
    · have hnone : scan p hs = none := by
        rw [hr.scan_ofKey, ofKey_eq_nil fun d hd he => hk (mem_distinctKeys.mpr ⟨d, hd, he⟩)]
        rfl
      rw [hnone]
      split
      · rfl
      · rename_i hkey
        have hkey := not_not.mp hkey
        by_cases he : p.protocol = kEmpty
        · rw [he] at hkey hk ⊢
          obtain hinit | ⟨hmem, -⟩ := h.of_empty hkey
          · rw [hinit]; rfl
          · exact absurd hmem hk
        · have := (h.keyed (p.protocol &&& kMask) (by rw [hkey]; exact he)).1
          rw [hkey] at this
          exact absurd this hk

/-- Key `0xFFFF`, and then a key with its low bits. -/
def twoKeys : List Declaring := [pure_ 0 kEmpty, pure_ 1 1023]

/-- The table says that the two keys do not collide, and finds nothing for a
packet that the scan gives to the first handler. -/
theorem not_dispatch_scan : ¬ ∀ hs : List Declaring, Registered hs →
    (build hs).injective = true → ∀ p, (build hs).dispatch p = scan p hs := by
  intro h
  have hr : Registered twoKeys := registered_of_pure [(0, kEmpty), (1, 1023)] (by decide)
  have hp := h twoKeys hr (by decide +kernel) (packetOf kEmpty)
  have hsome : (scan (packetOf kEmpty) twoKeys).isSome = true := by decide +kernel
  have hnone : ((build twoKeys).dispatch (packetOf kEmpty)).isSome = false := by decide +kernel
  rw [hp, hsome] at hnone
  cases hnone

theorem dispatch_scan_iff_three :
    (∀ p, (build threeHandlers).dispatch p = scan p threeHandlers) ↔ ¬ Clash threeHandlers :=
  dispatch_scan_iff threeHandlers_registered (by decide +kernel)

end TableCompact
end Katas.Switchyard
