import Katas.Switchyard.Dispatch

/-!
# The table of all keys

`TableDirect16` has a slot for each value of the protocol field. After some of
the distinct keys are entered, the slots of those keys serve what the scan
would find (`Served`), and the others are as they were.
-/
namespace Katas.Switchyard
open Katas.Conc

/-- mirrors plugin-dispatch-kata/cpp/src/strategy.hpp:190-191 -/
structure TableDirect16 where
  tbl : UInt16 → Slot
  cand : List Declaring

namespace TableDirect16

/-- mirrors plugin-dispatch-kata/cpp/src/strategy.hpp:150-164 -/
def enter (es : List Entry) (t : TableDirect16) (k : UInt16) : TableDirect16 :=
  let (s, cand) := (t.tbl k).enter t.cand (gather es k)
  ⟨upd t.tbl k s, cand⟩

/-- mirrors plugin-dispatch-kata/cpp/src/strategy.hpp:146-166 -/
def build (hs : List Declaring) : TableDirect16 :=
  (distinctKeys (entries hs)).foldl (enter (entries hs)) ⟨fun _ => .init, []⟩

/-- mirrors plugin-dispatch-kata/cpp/src/strategy.hpp:168,177-188 -/
def dispatch (t : TableDirect16) (p : Packet) : Option Declaring :=
  (t.tbl p.protocol).run t.cand p

/-- The slot serves key `k`: by its sole owner, or by its range. -/
inductive Served (s : Slot) (cand hs : List Declaring) (k : UInt16) : Prop
  | sole (h : Declaring) : ofKey hs k = [h] → h.declare.residual = false → s.only = some h →
      Served s cand hs k
  | range : s.only = none → s.Ranges cand hs k → Served s cand hs k

variable {hs : List Declaring} {k : UInt16} {t : TableDirect16} {cand : List Declaring} {s : Slot}

theorem Served.append (h : Served s cand hs k) (l : List Declaring) :
    Served s (cand ++ l) hs k := by
  cases h with
  | sole d h1 h2 h3 => exact .sole d h1 h2 h3
  | range h1 h2 => exact .range h1 (h2.append l)

theorem Served.run (hr : Registered hs) {p : Packet} (h : Served s cand hs p.protocol) :
    s.run cand p = scan p hs := by
  rw [hr.scan_ofKey]
  cases h with
  | sole d h1 h2 h3 =>
    obtain ⟨hmem, hkey⟩ := ofKey_mem (h1 ▸ List.mem_singleton.mpr rfl : d ∈ ofKey hs p.protocol)
    have hm := (hr.honest d hmem).all h2 p hkey.symm
    unfold Slot.run
    rw [h3, h1, List.find?_cons, hm]
  | range h1 h2 => exact h2.run h1 p

/-- The keys of `done` are entered. -/
structure Built (hs : List Declaring) (done : List UInt16) (t : TableDirect16) : Prop where
  served : ∀ k ∈ done, Served (t.tbl k) t.cand hs k
  other : ∀ k, k ∉ done → t.tbl k = .init
  length : t.cand.length ≤ done.length * 65535

theorem Built.enter (hr : Registered hs) {done : List UInt16} (h : Built hs done t)
    (hn : (done ++ [k]).Nodup) : Built hs (done ++ [k]) (t.enter (entries hs) k) := by
  have hk : k ∉ done := fun hd =>
    (List.nodup_append.mp hn).2.2 k hd k (List.mem_singleton.mpr rfl) rfl
  have hlen := length_le_keys hn
  rw [List.length_append, List.length_singleton] at hlen
  have hfew := hr.few k
  have hcand := h.length
  have hfits : t.cand.length + (ofKey hs k).length < 2 ^ 32 := by
    have : done.length * 65535 ≤ 65535 * 65535 := Nat.mul_le_mul_right _ (by omega)
    omega
  -- the slots of the other keys are as they were
  have hoff : ∀ {l : List Declaring} {x : Slot}, Served x (t.cand ++ l) hs k →
      l.length ≤ 65535 → Built hs (done ++ [k]) ⟨upd t.tbl k x, t.cand ++ l⟩ := by
    intro l x hserved hl
    refine ⟨fun j hj => ?_, fun j hj => ?_, ?_⟩
    · by_cases he : j = k
      · subst he; simpa using hserved
      · simp only [upd_ne _ _ he]
        obtain hj | hj := List.mem_append.mp hj
        · exact (h.served j hj).append l
        · exact absurd (List.mem_singleton.mp hj) he
    · rw [List.mem_append, List.mem_singleton, not_or] at hj
      simp only [upd_ne _ _ hj.2]
      exact h.other j hj.1
    · simp only [List.length_append, List.length_singleton]
      omega
  unfold TableDirect16.enter
  obtain ⟨d, h1, h2, h3⟩ | ⟨-, s', h1, h2, h3⟩ := enter_cases hr (t.tbl k) hfits
  · rw [h3]
    have := hoff (l := []) (x := { t.tbl k with only := some d })
      (.sole d h1 h2 rfl) (Nat.zero_le _)
    rwa [List.append_nil] at this
  · rw [h1]
    refine hoff (.range ?_ h3) (by omega)
    rw [h2, h.other k hk]
    rfl

theorem built (hr : Registered hs) : Built hs (distinctKeys (entries hs)) (build hs) := by
  have hfold : ∀ ks done t, Built hs done t → (done ++ ks).Nodup →
      Built hs (done ++ ks) (ks.foldl (TableDirect16.enter (entries hs)) t) := by
    intro ks
    induction ks with
    | nil => intro done t h _; rwa [List.append_nil]
    | cons k ks ih =>
      intro done t h hn
      rw [List.append_cons] at hn
      have := ih (done ++ [k]) _ (h.enter hr (List.nodup_append.mp hn).1) hn
      rwa [← List.append_cons] at this
  have := hfold (distinctKeys (entries hs)) [] ⟨fun _ => .init, []⟩
    ⟨nofun, fun _ _ => rfl, Nat.zero_le _⟩ (distinctKeys_nodup _)
  rwa [List.nil_append] at this

/-- The table finds what the scan finds. -/
theorem dispatch_scan (hr : Registered hs) (p : Packet) :
    (build hs).dispatch p = scan p hs := by
  have h := built hr
  by_cases hk : p.protocol ∈ distinctKeys (entries hs)
  · exact (h.served _ hk).run hr
  · have hno : ∀ d ∈ hs, d.declare.key ≠ p.protocol := by
      intro d hd he
      exact hk (mem_distinctKeys.mpr ⟨d, hd, he⟩)
    rw [hr.scan_ofKey, ofKey_eq_nil hno, dispatch, h.other _ hk]
    rfl

theorem dispatch_scan_three : let p := { packetOf 7 with flags := 2 }
    (build threeHandlers).dispatch p = scan p threeHandlers ∧
    scan p threeHandlers = some (tested 2 7 2) :=
  ⟨dispatch_scan threeHandlers_registered _, rfl⟩

end TableDirect16
end Katas.Switchyard
