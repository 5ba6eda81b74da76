import Mathlib.Data.List.Basic

/-!
# Records of one width

A list cut into pieces that all have `n` elements: parts of it between two
pieces are parts of the list of the pieces. `blit` writes over a part of a list.
-/
namespace Katas.Records

variable {A : Type} {n : Nat} {l : List (List A)} {m m' b c : List A} {i : Nat}

def Uniform (n : Nat) (l : List (List A)) : Prop := ∀ r ∈ l, r.length = n

theorem Uniform.nil : Uniform n ([] : List (List A)) := nofun

theorem uniform_cons {r : List A} : Uniform n (r :: l) ↔ r.length = n ∧ Uniform n l :=
  List.forall_mem_cons

theorem uniform_append {l' : List (List A)} :
    Uniform n (l ++ l') ↔ Uniform n l ∧ Uniform n l' :=
  List.forall_mem_append

theorem Uniform.take (h : Uniform n l) (k : Nat) : Uniform n (l.take k) :=
  fun r hr => h r (List.mem_of_mem_take hr)

theorem Uniform.drop (h : Uniform n l) (k : Nat) : Uniform n (l.drop k) :=
  fun r hr => h r (List.mem_of_mem_drop hr)

theorem Uniform.set (h : Uniform n l) (i : Nat) {r : List A} (hr : r.length = n) :
    Uniform n (l.set i r) := by
  intro x hx
  obtain hx | rfl := List.mem_or_eq_of_mem_set hx
  · exact h x hx
  · exact hr

theorem Uniform.length_flatten (h : Uniform n l) : l.flatten.length = l.length * n := by
  induction l with
  | nil => exact (Nat.zero_mul n).symm
  | cons r l ih =>
    obtain ⟨hr, hl⟩ := uniform_cons.mp h
    rw [List.flatten_cons, List.length_append, hr, ih hl, List.length_cons, Nat.succ_mul,
      Nat.add_comm]

theorem Uniform.drop_flatten (h : Uniform n l) (k : Nat) :
    l.flatten.drop (k * n) = (l.drop k).flatten := by
  induction k generalizing l with
  | zero => rw [Nat.zero_mul, List.drop_zero, List.drop_zero]
  | succ k ih =>
    cases l with
    | nil => simp
    | cons r l =>
      obtain ⟨hr, hl⟩ := uniform_cons.mp h
      rw [List.flatten_cons, List.drop_succ_cons, ← ih hl, Nat.succ_mul, Nat.add_comm,
        ← List.drop_drop, List.drop_left' hr]

theorem Uniform.take_flatten (h : Uniform n l) (k : Nat) :
    l.flatten.take (k * n) = (l.take k).flatten := by
  induction k generalizing l with
  | zero => rw [Nat.zero_mul, List.take_zero, List.take_zero, List.flatten_nil]
  | succ k ih =>
    cases l with
    | nil => simp
    | cons r l =>
      obtain ⟨hr, hl⟩ := uniform_cons.mp h
      have hlen : (k + 1) * n = r.length + k * n := by rw [hr, Nat.succ_mul, Nat.add_comm]
      rw [List.flatten_cons, List.take_succ_cons, List.flatten_cons, ← ih hl, hlen,
        List.take_length_add_append]

/-! ## Writing over a part -/

/-- `b` written over `m` from the index `i` on; `none` if it does not fit. -/
def blit (m : List A) (i : Nat) (b : List A) : Option (List A) :=
  if i + b.length ≤ m.length then some (m.take i ++ b ++ m.drop (i + b.length)) else none

theorem exists_blit (h : i + b.length ≤ m.length) : ∃ m', blit m i b = some m' :=
  ⟨_, if_pos h⟩

theorem length_blit (h : blit m i b = some m') : m'.length = m.length := by
  unfold blit at h
  split at h
  · cases h
    simp only [List.length_append, List.length_take, List.length_drop]
    omega
  · cases h

theorem take_blit (h : blit m i b = some m') :
    m'.take (i + b.length) = m.take i ++ b := by
  unfold blit at h
  split at h
  · cases h
    refine List.take_left' ?_
    simp only [List.length_append, List.length_take]
    omega
  · cases h

theorem drop_blit (h : blit m i b = some m') :
    m'.drop (i + b.length) = m.drop (i + b.length) := by
  unfold blit at h
  split at h
  · cases h
    refine List.drop_left' ?_
    simp only [List.length_append, List.length_take]
    omega
  · cases h

/-- Two parts, one after the other. -/
theorem blit_blit (h : blit m i b = some m') :
    blit m' (i + b.length) c = blit m i (b ++ c) := by
  unfold blit
  rw [length_blit h, take_blit h, ← List.drop_drop, drop_blit h, List.drop_drop,
    List.length_append, Nat.add_assoc, List.append_assoc (m.take i) b c]

theorem blit_nil (h : i ≤ m.length) : blit m i [] = some m := by
  unfold blit
  rw [if_pos (by simpa using h)]
  simp

/-- A piece written over a piece. -/
theorem Uniform.blit_set (h : Uniform n l) (hb : b.length = n) (hi : i < l.length) :
    blit l.flatten (i * n) b = some (l.set i b).flatten := by
  have hend : i * n + b.length = (i + 1) * n := by rw [hb, Nat.succ_mul]
  have hle : (i + 1) * n ≤ l.length * n := Nat.mul_le_mul_right n hi
  unfold blit
  rw [hend, if_pos (by rwa [h.length_flatten]), h.take_flatten, h.drop_flatten,
    List.set_eq_take_append_cons_drop, if_pos hi, List.flatten_append, List.flatten_cons,
    List.append_assoc]

end Katas.Records
