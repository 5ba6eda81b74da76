import Katas.Core.Prog

/-!
# A ring of lap-stamped slots

`N` slots, each with a sequence word: a stamp, and a flag that marks a
publication without a value. Position `p` belongs to slot `p % N`, and for
the position the slot stands at, the stamp is `p` (free for whoever reserves
`p`), `p + 1` (published) or `p + N` (released, free one lap on).

`Lanes` keeps the two counters, the words, and for each position its phase:
what has become of it so far. `Lanes.Inv` says what the words and the
counters tell about the phases; each of `reserve`, `publish`, `claim` and
`release` keeps it. The conclusions a reader of a word may draw are
`stamp_succ` (published, or claimed and not yet released), `stamp_lt` (not
yet published) and `stamp_ge` (not behind `p`).
-/
namespace Katas.SeqRing
open Katas.Conc (upd upd_self upd_ne upd_apply)

structure SeqWord where
  stamp : Nat
  dead : Bool
  deriving DecidableEq, Repr

/-- `refused`: reserved by someone who will never use it. -/
inductive Phase where
  | vacant
  | reserved
  | refused
  | published (dead : Bool)
  | claimed (dead : Bool)
  | released (dead : Bool)
  deriving DecidableEq, Repr

def Phase.unpublished : Phase → Bool
  | .vacant | .reserved | .refused => true
  | _ => false

def Phase.taken : Phase → Bool
  | .claimed _ | .released _ => true
  | _ => false

/-- Published without a value. -/
def Phase.isDead : Phase → Bool
  | .published d | .claimed d | .released d => d
  | _ => false

structure Lanes where
  tail : Nat
  head : Nat
  seq : Nat → SeqWord
  phase : Nat → Phase

namespace Lanes

def init : Lanes := ⟨0, 0, fun i => ⟨i, false⟩, fun _ => .vacant⟩

/-- The next position is reserved (or, with `refused`, passed over). -/
def reserve (r : Lanes) (ph : Phase) : Lanes :=
  { r with tail := r.tail + 1, phase := upd r.phase r.tail ph }

def publish (N : Nat) (r : Lanes) (p : Nat) (dead : Bool) : Lanes :=
  { r with seq := upd r.seq (p % N) ⟨p + 1, dead⟩, phase := upd r.phase p (.published dead) }

def claim (r : Lanes) (dead : Bool) : Lanes :=
  { r with head := r.head + 1, phase := upd r.phase r.head (.claimed dead) }

def release (N : Nat) (r : Lanes) (p : Nat) (dead : Bool) : Lanes :=
  { r with seq := upd r.seq (p % N) ⟨p + N, false⟩, phase := upd r.phase p (.released dead) }

structure Inv (N : Nat) (r : Lanes) : Prop where
  two_le : 2 ≤ N
  tail : ∀ p, r.phase p = .vacant ↔ r.tail ≤ p
  head : ∀ p, (r.phase p).taken = true ↔ p < r.head
  seed : ∀ i, i < N → i ≤ (r.seq i).stamp
  unpub : ∀ p, (r.phase p).unpublished = true → (r.seq (p % N)).stamp ≤ p
  shown : ∀ p d, r.phase p = .published d ∨ r.phase p = .claimed d → r.seq (p % N) = ⟨p + 1, d⟩
  freed : ∀ p d, r.phase p = .released d → p + N ≤ (r.seq (p % N)).stamp
  clear : ∀ p, (r.phase p).unpublished = true → (r.seq (p % N)).stamp = p →
    (r.seq (p % N)).dead = false

theorem init_inv {N : Nat} (h : 2 ≤ N) : Inv N init where
  two_le := h
  tail p := by simp [init]
  head p := by simp [init, Phase.taken]
  seed i _ := by simp [init]
  unpub p _ := by simpa [init] using Nat.mod_le p N
  shown p d h := by rcases h with h | h <;> cases h
  freed p d h := by cases h
  clear p _ _ := rfl

/-- Two positions of one slot are at least a lap apart. -/
theorem lane_gap {N p q : Nat} (h : q % N = p % N) (hlt : q < p) : q + N ≤ p := by
  have hd : N ∣ p - q := Nat.dvd_of_mod_eq_zero (Nat.sub_mod_eq_zero_of_mod_eq h.symm)
  have := Nat.le_of_dvd (by omega) hd
  omega

variable {N : Nat} {r : Lanes}

theorem Inv.head_le_tail (h : Inv N r) : r.head ≤ r.tail := by
  refine Nat.le_of_not_lt fun hc => ?_
  have h1 := (h.head r.tail).mpr hc
  rw [(h.tail r.tail).mpr (Nat.le_refl _)] at h1
  cases h1

/-! ## What a word tells -/

theorem Inv.stamp_succ (h : Inv N r) {p : Nat} (hs : (r.seq (p % N)).stamp = p + 1) :
    r.phase p = .published (r.seq (p % N)).dead ∨ r.phase p = .claimed (r.seq (p % N)).dead := by
  have h2 := h.two_le
  cases hp : r.phase p with
  | vacant => have := h.unpub p (by simp [hp, Phase.unpublished]); omega
  | reserved => have := h.unpub p (by simp [hp, Phase.unpublished]); omega
  | refused => have := h.unpub p (by simp [hp, Phase.unpublished]); omega
  | published d => have := h.shown p d (.inl hp); simp [this]
  | claimed d => have := h.shown p d (.inr hp); simp [this]
  | released d => have := h.freed p d hp; omega

theorem Inv.stamp_lt (h : Inv N r) {p : Nat} (hs : (r.seq (p % N)).stamp < p + 1) :
    (r.phase p).unpublished = true := by
  have h2 := h.two_le
  cases hp : r.phase p with
  | vacant => rfl
  | reserved => rfl
  | refused => rfl
  | published d => have := h.shown p d (.inl hp); rw [this] at hs; simp at hs
  | claimed d => have := h.shown p d (.inr hp); rw [this] at hs; simp at hs
  | released d => have := h.freed p d hp; omega

/-- An unpublished position whose slot is not behind it has the slot to
itself. -/
theorem Inv.stamp_ge (h : Inv N r) {p : Nat} (hu : (r.phase p).unpublished = true)
    (hs : p ≤ (r.seq (p % N)).stamp) : (r.seq (p % N)).stamp = p :=
  Nat.le_antisymm (h.unpub p hu) hs

/-- While a slot stands at `p`, every other position of it is settled or
still to come. -/
theorem Inv.lane_at (h : Inv N r) {p q : Nat} (hp : (r.seq (p % N)).stamp = p)
    (hq : q % N = p % N) :
    (r.phase q).unpublished = true ∨ ∃ d, r.phase q = .released d := by
  have h2 := h.two_le
  cases he : r.phase q with
  | vacant => simp [Phase.unpublished]
  | reserved => simp [Phase.unpublished]
  | refused => simp [Phase.unpublished]
  | released d => exact .inr ⟨d, rfl⟩
  | published d | claimed d =>
    exfalso
    have hs := h.shown q d (by simp [he])
    rw [hq] at hs
    rw [hs] at hp
    simp only at hp
    rcases Nat.lt_or_gt_of_ne (show q ≠ p by omega) with hlt | hlt
    · have := lane_gap hq hlt; omega
    · omega

/-- A slot whose position is shown holds no other shown position. -/
theorem Inv.shown_unique (h : Inv N r) {p q : Nat} {d e : Bool}
    (hp : r.phase p = .published d ∨ r.phase p = .claimed d)
    (hq : r.phase q = .published e ∨ r.phase q = .claimed e) (hl : q % N = p % N) : q = p := by
  have h1 := h.shown p d hp
  have h2 := h.shown q e hq
  rw [hl, h1] at h2
  simp only [SeqWord.mk.injEq] at h2
  omega

/-- Every slot stands at a position: it is free for it, or shows it. -/
theorem Inv.stands (h : Inv N r) {i : Nat} (hi : i < N) : ∃ p, p % N = i ∧
    ((r.seq i).stamp = p ∧ (r.phase p).unpublished = true ∨
      ∃ d, r.phase p = .published d ∨ r.phase p = .claimed d) := by
  have hmod : ∀ k, (i + k * N) % N = i := fun k => by
    rw [Nat.add_mul_mod_self_right, Nat.mod_eq_of_lt hi]
  -- the first position of the slot that is not released
  have first : ∀ k, (∃ p, p % N = i ∧ ((r.seq i).stamp = p ∧ (r.phase p).unpublished = true ∨
      ∃ d, r.phase p = .published d ∨ r.phase p = .claimed d)) ∨
      ∀ j, j < k → ∃ d, r.phase (i + j * N) = .released d := by
    intro k
    induction k with
    | zero => exact .inr fun j hj => by omega
    | succ k ih =>
      rcases ih with ih | ih
      · exact .inl ih
      · by_cases hu : (r.phase (i + k * N)).unpublished = true
        · refine .inl ⟨i + k * N, hmod k, .inl ⟨?_, hu⟩⟩
          have hge : i + k * N ≤ (r.seq ((i + k * N) % N)).stamp := by
            rw [hmod]
            cases k with
            | zero => simpa using h.seed i hi
            | succ k =>
              obtain ⟨d, hd⟩ := ih k (by omega)
              have := h.freed _ d hd
              rw [hmod] at this
              rw [Nat.succ_mul]; omega
          have := h.stamp_ge hu hge
          rwa [hmod] at this
        · cases hp : r.phase (i + k * N) with
          | vacant | reserved | refused => rw [hp] at hu; exact absurd rfl hu
          | published d => exact .inl ⟨_, hmod k, .inr ⟨d, .inl hp⟩⟩
          | claimed d => exact .inl ⟨_, hmod k, .inr ⟨d, .inr hp⟩⟩
          | released d =>
            refine .inr fun j hj => ?_
            rcases Nat.lt_or_eq_of_le (Nat.le_of_lt_succ hj) with hj | rfl
            · exact ih j hj
            · exact ⟨d, hp⟩
  refine (first (r.tail + 1)).resolve_right fun hall => ?_
  obtain ⟨d, hd⟩ := hall r.tail (by omega)
  have hle : r.tail ≤ i + r.tail * N :=
    Nat.le_trans (Nat.le_mul_of_pos_right _ (by have := h.two_le; omega)) (Nat.le_add_left _ _)
  rw [(h.tail _).mpr hle] at hd
  cases hd

/-- No stamp is a lap ahead of the tail. -/
theorem Inv.stamp_lt_lap (h : Inv N r) {i : Nat} (hi : i < N) : (r.seq i).stamp < r.tail + N := by
  have h2 := h.two_le
  obtain ⟨p, hp, ⟨hs, hu⟩ | ⟨d, hd⟩⟩ := h.stands hi
  · -- a slot that stands at `p` is free for no earlier position
    refine Nat.lt_of_not_le fun hge => ?_
    have hvacant := (h.tail (p - N)).mpr (by omega)
    have hle := h.unpub (p - N) (by rw [hvacant]; rfl)
    rw [← Nat.mod_eq_sub_mod (by omega), hp] at hle
    omega
  · have hlt : p < r.tail := Nat.lt_of_not_le fun hge => by
      rw [(h.tail p).mpr hge] at hd
      rcases hd with hd | hd <;> cases hd
    have hshown := h.shown p d hd
    rw [hp] at hshown
    rw [hshown]
    show p + 1 < _
    omega

theorem Inv.published_of_head (h : Inv N r) {d : Bool}
    (hs : r.phase r.head = .published d ∨ r.phase r.head = .claimed d) :
    r.phase r.head = .published d := by
  rcases hs with hs | hs
  · exact hs
  · have := (h.head r.head).mp (by simp [hs, Phase.taken]); omega

/-- The position at the head is published. -/
def headPub (r : Lanes) : Prop := ∃ d, r.phase r.head = .published d

theorem Inv.headPub_iff (h : Inv N r) : r.headPub ↔ (r.seq (r.head % N)).stamp = r.head + 1 := by
  constructor
  · rintro ⟨d, hd⟩
    rw [h.shown _ d (.inl hd)]
  · intro hs
    exact ⟨_, h.published_of_head (h.stamp_succ hs)⟩

/-- A position that was the head or before, and is seen unpublished, is the
head, so the head is unpublished. -/
theorem Inv.not_headPub (h : Inv N r) {p : Nat} (hp : p ≤ r.head)
    (hs : (r.seq (p % N)).stamp < p + 1) : ¬ r.headPub := by
  have hu := h.stamp_lt hs
  have hnt : ¬ p < r.head := fun hlt => by
    have := (h.head p).mpr hlt
    cases hph : r.phase p <;> rw [hph] at hu this <;> cases hu <;> cases this
  obtain rfl : p = r.head := by omega
  rw [h.headPub_iff]
  omega

/-- A slot that stands free shows the position it stands at. -/
theorem Inv.word_eq (h : Inv N r) {p : Nat} (hu : (r.phase p).unpublished = true)
    (hs : (r.seq (p % N)).stamp = p) : r.seq (p % N) = ⟨p, false⟩ := by
  have hd := h.clear p hu hs
  cases hw : r.seq (p % N) with
  | mk stamp dead => rw [hw] at hs hd; simp only at hs hd; rw [hs, hd]

/-- Positions below the tail, not taken and not published, are reserved. -/
theorem Inv.pending (h : Inv N r) {p : Nat} (hlt : p < r.tail)
    (hu : (r.phase p).unpublished = true) : r.phase p = .reserved ∨ r.phase p = .refused := by
  have hv := (not_congr (h.tail p)).mpr (by omega)
  cases hp : r.phase p with
  | vacant => exact absurd hp hv
  | reserved => exact .inl rfl
  | refused => exact .inr rfl
  | published d | claimed d | released d => rw [hp] at hu; cases hu

/-- **Who waits for whom.** A reserved position whose slot does not show it
waits for an earlier one: one whose slot is ready for its publication, or one
claimed and not yet released, or the head, which is published. The last is so
only while an earlier position of the slot itself is published. -/
theorem Inv.stalled (h : Inv N r) {p : Nat} (hp : r.phase p = .reserved)
    (hs : r.seq (p % N) ≠ ⟨p, false⟩) :
    (∃ q, q < p ∧ (r.phase q = .reserved ∨ r.phase q = .refused) ∧ r.seq (q % N) = ⟨q, false⟩) ∨
    (∃ q d, q < p ∧ r.phase q = .claimed d) ∨
    r.head < p ∧ r.headPub ∧ ∃ q d, q < p ∧ q % N = p % N ∧ r.phase q = .published d := by
  have h2 := h.two_le
  have hup : (r.phase p).unpublished = true := by rw [hp]; rfl
  have htail : p < r.tail := by
    have := (not_congr (h.tail p)).mp (by simp [hp]); omega
  -- what a slot stands at, when it does not show `q`
  have behind : ∀ q, (r.phase q).unpublished = true → q < r.tail → r.seq (q % N) ≠ ⟨q, false⟩ →
      ∃ q', q' < q ∧ q' % N = q % N ∧ ((r.phase q').unpublished = true ∧
        (r.seq (q' % N)).stamp = q' ∨ ∃ d, r.phase q' = .published d ∨ r.phase q' = .claimed d) := by
    intro q hq hqt hne
    obtain ⟨q', hl, hst⟩ := h.stands (Nat.mod_lt q (show 0 < N by omega))
    have hle := h.unpub q hq
    have hlt : q' < q := by
      rcases hst with ⟨hst, hu⟩ | ⟨d, hd⟩
      · refine Nat.lt_of_le_of_ne (by omega) ?_
        rintro rfl
        exact hne (h.word_eq hu hst)
      · have := h.shown q' d hd
        rw [hl] at this
        rw [this] at hle
        simp only at hle; omega
    exact ⟨q', hlt, hl, hst.imp (fun ⟨h1, h2⟩ => ⟨h2, by rw [hl]; exact h1⟩) id⟩
  obtain ⟨q, hqp, hl, ⟨hu, hst⟩ | ⟨d, hd | hd⟩⟩ := behind p hup htail hs
  · exact .inl ⟨q, hqp, h.pending (by omega) hu, h.word_eq hu hst⟩
  · -- a published position is not before the head
    have hge : ¬ q < r.head := fun hlt => by
      have := (h.head q).mpr hlt; rw [hd] at this; cases this
    by_cases hpub : r.headPub
    · exact .inr (.inr ⟨by omega, hpub, q, d, hqp, hl, hd⟩)
    · have huh : (r.phase r.head).unpublished = true := by
        have hnt := (not_congr (h.head r.head)).mpr (Nat.lt_irrefl _)
        cases hph : r.phase r.head with
        | vacant | reserved | refused => rfl
        | published d => exact absurd ⟨d, hph⟩ hpub
        | claimed d | released d => rw [hph] at hnt; exact absurd rfl hnt
      by_cases hw : r.seq (r.head % N) = ⟨r.head, false⟩
      · exact .inl ⟨r.head, by omega, h.pending (by omega) huh, hw⟩
      · obtain ⟨q', hlt, hl', ⟨hu', -⟩ | ⟨d', hd' | hd'⟩⟩ := behind r.head huh (by omega) hw
        · have := (h.head q').mpr hlt
          cases hph : r.phase q' <;> rw [hph] at hu' this <;> cases hu' <;> cases this
        · have := (h.head q').mpr hlt
          rw [hd'] at this; cases this
        · exact .inr (.inl ⟨q', d', by omega, hd'⟩)
  · exact .inr (.inl ⟨q, d, hqp, hd⟩)

/-- Neither a reservation nor a release publishes the head. -/
theorem headPub_reserve {ph : Phase} (hu : ph.unpublished = true)
    (h : (r.reserve ph).headPub) : r.headPub := by
  obtain ⟨d, hd⟩ := h
  simp only [reserve, upd_apply] at hd
  split at hd
  · subst hd; cases hu
  · exact ⟨d, hd⟩

theorem headPub_release {p : Nat} {d : Bool} (h : (r.release N p d).headPub) : r.headPub := by
  obtain ⟨e, he⟩ := h
  simp only [release, upd_apply] at he
  split at he
  · cases he
  · exact ⟨e, he⟩

/-! ## The operations keep the invariant -/

theorem inv_reserve (h : Inv N r) {ph : Phase} (hu : ph.unpublished = true) (hv : ph ≠ .vacant) :
    Inv N (r.reserve ph) where
  two_le := h.two_le
  tail p := by
    simp only [reserve, upd_apply]
    split
    · rename_i hp; simp [hv]; omega
    · rename_i hp; rw [h.tail p]; omega
  head p := by
    have h1 := (h.tail r.tail).mpr (Nat.le_refl _)
    simp only [reserve, upd_apply]
    split
    · rename_i hp; subst hp
      have := h.head_le_tail
      cases ph <;> simp_all [Phase.unpublished, Phase.taken]
    · exact h.head p
  seed := h.seed
  unpub p hp := by
    simp only [reserve, upd_apply] at hp ⊢
    split at hp
    · rename_i he; subst he
      exact h.unpub _ (by rw [(h.tail r.tail).mpr (Nat.le_refl _)]; rfl)
    · exact h.unpub p hp
  shown p d hp := by
    simp only [reserve, upd_apply] at hp ⊢
    split at hp
    · rcases hp with hp | hp <;> subst hp <;> cases hu
    · exact h.shown p d hp
  freed p d hp := by
    simp only [reserve, upd_apply] at hp ⊢
    split at hp
    · subst hp; cases hu
    · exact h.freed p d hp
  clear p hp hs := by
    simp only [reserve, upd_apply] at hp hs ⊢
    split at hp
    · rename_i he; subst he
      exact h.clear _ (by rw [(h.tail r.tail).mpr (Nat.le_refl _)]; rfl) hs
    · exact h.clear p hp hs

theorem inv_publish (h : Inv N r) {p : Nat} (d : Bool) (hp : r.phase p = .reserved)
    (hs : (r.seq (p % N)).stamp = p) : Inv N (r.publish N p d) where
  two_le := h.two_le
  tail q := by
    simp only [publish, upd_apply]
    split
    · rename_i hq; subst hq
      have := (not_congr (h.tail q)).mp (by simp [hp])
      simp; omega
    · exact h.tail q
  head q := by
    simp only [publish, upd_apply]
    split
    · rename_i hq; subst hq
      have := (not_congr (h.head q)).mp (by simp [hp, Phase.taken])
      simp [Phase.taken]; omega
    · exact h.head q
  seed i hi := by
    simp only [publish, upd_apply]
    split
    · rename_i he; subst he
      have := h.seed _ hi
      simp only; omega
    · exact h.seed i hi
  unpub q hq := by
    simp only [publish, upd_apply] at hq ⊢
    split at hq
    · cases hq
    · rename_i hne
      split
      · rename_i hl
        have h1 := h.unpub q hq
        rw [hl, hs] at h1
        have := lane_gap hl.symm (by omega)
        have := h.two_le
        simp only; omega
      · exact h.unpub q hq
  shown q e hq := by
    simp only [publish, upd_apply] at hq ⊢
    split at hq
    · rename_i he; subst he
      rcases hq with hq | hq <;> cases hq
      simp
    · split
      · rename_i hl
        rcases h.lane_at hs hl with hu | ⟨d', hr⟩
        · rcases hq with hq | hq <;> simp [hq, Phase.unpublished] at hu
        · rcases hq with hq | hq <;> simp [hq] at hr
      · exact h.shown q e hq
  freed q e hq := by
    simp only [publish, upd_apply] at hq ⊢
    split at hq
    · cases hq
    · split
      · rename_i hl
        have := h.freed q e hq
        rw [hl, hs] at this
        simp only; omega
      · exact h.freed q e hq
  clear q hq hq' := by
    simp only [publish, upd_apply] at hq hq' ⊢
    split at hq
    · cases hq
    · rename_i hne
      split at hq'
      · rename_i hl
        have h1 := h.unpub q hq
        rw [hl, hs] at h1
        have := lane_gap hl.symm (by omega)
        have := h.two_le
        simp only at hq'; omega
      · rename_i hl
        rw [if_neg hl]
        exact h.clear q hq hq'

theorem inv_claim (h : Inv N r) {d : Bool} (hp : r.phase r.head = .published d) :
    Inv N (r.claim d) where
  two_le := h.two_le
  tail q := by
    simp only [claim, upd_apply]
    split
    · rename_i hq; subst hq
      have := (not_congr (h.tail r.head)).mp (by simp [hp])
      simp; omega
    · exact h.tail q
  head q := by
    simp only [claim, upd_apply]
    split
    · rename_i hq; subst hq; simp [Phase.taken]
    · rw [h.head q]; omega
  seed := h.seed
  unpub q hq := by
    simp only [claim, upd_apply] at hq ⊢
    split at hq
    · cases hq
    · exact h.unpub q hq
  shown q e hq := by
    simp only [claim, upd_apply] at hq ⊢
    split at hq
    · rename_i he; subst he
      rcases hq with hq | hq <;> cases hq
      exact h.shown _ d (.inl hp)
    · exact h.shown q e hq
  freed q e hq := by
    simp only [claim, upd_apply] at hq ⊢
    split at hq
    · cases hq
    · exact h.freed q e hq
  clear q hq hs := by
    simp only [claim, upd_apply] at hq hs ⊢
    split at hq
    · cases hq
    · exact h.clear q hq hs

theorem inv_release (h : Inv N r) {p : Nat} {d : Bool} (hp : r.phase p = .claimed d) :
    Inv N (r.release N p d) := by
  have hs := h.shown p d (.inr hp)
  have h2 := h.two_le
  refine ⟨h2, fun q => ?_, fun q => ?_, fun i hi => ?_, fun q hq => ?_, fun q e hq => ?_,
    fun q e hq => ?_, fun q hq hq' => ?_⟩
  · simp only [release, upd_apply]
    split
    · rename_i hq; subst hq
      have := (not_congr (h.tail q)).mp (by simp [hp])
      simp; omega
    · exact h.tail q
  · simp only [release, upd_apply]
    split
    · rename_i hq; subst hq
      have := (h.head q).mp (by simp [hp, Phase.taken])
      simp [Phase.taken]; omega
    · exact h.head q
  · simp only [release, upd_apply]
    split
    · rename_i he; subst he
      have := Nat.mod_lt p (show 0 < N by omega)
      simp only; omega
    · exact h.seed i hi
  · simp only [release, upd_apply] at hq ⊢
    split at hq
    · cases hq
    · split
      · rename_i hl
        have h1 := h.unpub q hq
        rw [hl, hs] at h1
        have := lane_gap hl.symm (show p < q by simp at h1; omega)
        exact this
      · exact h.unpub q hq
  · simp only [release, upd_apply] at hq ⊢
    split at hq
    · rcases hq with hq | hq <;> cases hq
    · rename_i hne
      split
      · rename_i hl
        exact absurd (h.shown_unique (.inr hp) hq hl) hne
      · exact h.shown q e hq
  · simp only [release, upd_apply] at hq ⊢
    split
    · rename_i hl
      split at hq
      · rename_i he; subst he; exact Nat.le_refl _
      · rename_i hne
        have h1 := h.freed q e hq
        rw [hl, hs] at h1
        simp only at h1 ⊢; omega
    · rename_i hl
      split at hq
      · rename_i he; subst he; exact absurd rfl hl
      · exact h.freed q e hq
  · simp only [release, upd_apply] at hq hq' ⊢
    split at hq
    · cases hq
    · split
      · rfl
      · rename_i hl
        rw [if_neg hl] at hq'
        exact h.clear q hq hq'

/-! ## What only grows -/

/-- Neither the head nor a stamp goes back. -/
structure Behind (r r' : Lanes) : Prop where
  head : r.head ≤ r'.head
  stamp : ∀ i, (r.seq i).stamp ≤ (r'.seq i).stamp

theorem Behind.rfl : r.Behind r := ⟨Nat.le_refl _, fun _ => Nat.le_refl _⟩

theorem behind_reserve (ph : Phase) : r.Behind (r.reserve ph) :=
  ⟨Nat.le_refl _, fun _ => Nat.le_refl _⟩

theorem behind_claim (d : Bool) : r.Behind (r.claim d) :=
  ⟨Nat.le_succ _, fun _ => Nat.le_refl _⟩

/-- A publication that leaves the ring in order was of a position not taken. -/
theorem Inv.behind_publish (h : Inv N r) {p : Nat} {d : Bool} (h' : Inv N (r.publish N p d)) :
    r.Behind (r.publish N p d) := by
  have hph : (r.publish N p d).phase p = .published d := upd_self _ _ _
  have hvacant : r.phase p ≠ .vacant := by
    intro hv
    have h1 := (h.tail p).mp hv
    have h2 := (h'.tail p).mpr h1
    rw [hph] at h2
    cases h2
  have htaken : (r.phase p).taken ≠ true := by
    intro ht
    have h1 := (h.head p).mp ht
    have h2 := (h'.head p).mpr h1
    rw [hph] at h2
    cases h2
  have hle : (r.seq (p % N)).stamp ≤ p + 1 := by
    cases hp : r.phase p with
    | vacant => exact absurd hp hvacant
    | reserved | refused =>
      have := h.unpub p (by rw [hp]; rfl)
      omega
    | published e => exact Nat.le_of_eq (congrArg SeqWord.stamp (h.shown p e (.inl hp)))
    | claimed e | released e => rw [hp] at htaken; exact absurd rfl htaken
  refine ⟨Nat.le_refl _, fun i => ?_⟩
  simp only [publish, upd_apply]
  split
  · rename_i hi
    subst hi
    exact hle
  · exact Nat.le_refl _

/-- A release that leaves the ring in order did not take the slot back. -/
theorem Inv.behind_release (h : Inv N r) {p : Nat} {d : Bool} (h' : Inv N (r.release N p d)) :
    r.Behind (r.release N p d) := by
  have h2 := h.two_le
  have hlane : (p + N) % N = p % N := Nat.add_mod_right p N
  have hword : (r.release N p d).seq (p % N) = ⟨p + N, false⟩ := upd_self _ _ _
  have hph : (r.release N p d).phase (p + N) = r.phase (p + N) := upd_ne _ _ (by omega)
  have hle : (r.seq (p % N)).stamp ≤ p + N := by
    cases hp : r.phase (p + N) with
    | vacant | reserved | refused =>
      have := h.unpub (p + N) (by rw [hp]; rfl)
      rwa [hlane] at this
    | published e | claimed e =>
      -- the slot would still show the next lap's position
      have := h'.shown (p + N) e (by rw [hph, hp]; simp)
      rw [hlane, hword] at this
      simp only [SeqWord.mk.injEq] at this
      omega
    | released e =>
      have := h'.freed (p + N) e (by rw [hph, hp])
      rw [hlane, hword] at this
      simp only at this
      omega
  refine ⟨Nat.le_refl _, fun i => ?_⟩
  simp only [release, upd_apply]
  split
  · rename_i hi
    subst hi
    exact hle
  · exact Nat.le_refl _

/-- The slot of the position at the tail is not yet released by the position
one lap back. -/
def tailHeld (N : Nat) (r : Lanes) : Prop :=
  ∃ p, r.tail = p + N ∧ ∀ d, r.phase p ≠ .released d

theorem Inv.tailHeld (h : Inv N r) (hs : (r.seq (r.tail % N)).stamp < r.tail) : r.tailHeld N := by
  have h2 := h.two_le
  have hge : N ≤ r.tail := by
    refine Nat.le_of_not_lt fun hlt => ?_
    have := h.seed (r.tail % N) (Nat.mod_lt _ (by omega))
    rw [Nat.mod_eq_of_lt hlt] at this hs
    omega
  refine ⟨r.tail - N, by omega, fun d hd => ?_⟩
  have hlane : (r.tail - N) % N = r.tail % N := (Nat.mod_eq_sub_mod hge).symm
  have := h.freed _ d hd
  rw [hlane] at this
  omega

end Lanes
end Katas.SeqRing
