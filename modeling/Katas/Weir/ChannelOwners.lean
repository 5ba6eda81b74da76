import Katas.Weir.ChannelFlow

/-!
# Who owns a slot of the channel pipeline

A slot is owned by the goroutine that makes its producer, by that producer
until its first `Close`, and then by the release that the `Close` starts,
until it stores `inUse`. A repeated `Close` is absorbed only while the
slot's closed flag is still up: after the release has cleared it, the same
swap succeeds again and starts a second release, which frees the slot under
its next producer.
-/
namespace Katas.Weir.Channel
open Katas.Conc

/-- Who owns a slot. `pending`: a release that has not begun. -/
inductive Owner (Tid : Type) where
  | none
  | maker (t : Tid)
  | handle (h : Nat)
  | closer (t : Tid)
  | pending
  | releaser (t : Tid)
  | freer (t : Tid)

section
variable {V Tid : Type} [DecidableEq Tid] {cfg : Config}

/-- What a goroutine's place says about the owner of a slot. -/
def Place.claims (t : Tid) : Place V → Option (Nat × Owner Tid)
  | .got i => some (i, .maker t)
  | .closing i => some (i, .closer t)
  | .releasing i => some (i, .releaser t)
  | .released i => some (i, .freer t)
  | _ => none

/-- The goroutine that owns the slot. -/
def Owner.by : Owner Tid → Option Tid
  | .maker t | .closer t | .releaser t | .freer t => some t
  | _ => Option.none

/-- The closed flag is up. -/
def Owner.shuts : Owner Tid → Prop
  | .closer _ | .pending | .releaser _ => True
  | _ => False

/-- `h` was returned and not yet closed. -/
def Live (s : State V Tid) (h i : Nat) : Prop := s.handles[h]? = some i ∧ s.shut h = false

instance (s : State V Tid) (h i : Nat) : Decidable (Live s h i) :=
  inferInstanceAs (Decidable (_ ∧ _))

structure OwnInv (s : State V Tid) (γ : Tid → Place V) (own : Nat → Owner Tid) : Prop where
  inUse : ∀ i, (s.slot i).inUse = false ↔ own i = .none
  closed : ∀ i, (s.slot i).closed = true ↔ (own i).shuts
  places : ∀ t i w, (γ t).claims t = some (i, w) → own i = w
  handles : ∀ h i, Live s h i → own i = .handle h
  pending : ∀ i, s.releases i = 0 ∨ s.releases i = 1 ∧ own i = .pending
  closes : ∀ t h, γ t = .closes h → h < s.handles.length
  sees : ∀ t h i, γ t = .sees h i → s.handles[h]? = some i
  shut : ∀ h, s.shut h = true → h < s.handles.length

/-- A repeated `Close` comes to the swap while the flag is still up. -/
def absorbed (_ : Tid) (a : Act V) (s : State V Tid) : Prop :=
  match a with
  | .slotClosedCas i h => s.shut h = true → (s.slot i).closed = true
  | _ => True

/-! ## Operations that leave the owners alone -/

/-- Changes who owns a slot. -/
def owns : Act V → Bool
  | .inUseCas _ | .newProducer _ | .slotClosedCas _ _ | .goRelease _ | .slotClosedStore _
  | .inUseStore _ => true
  | _ => false

/-- What an operation that changes no owner leaves as it is. -/
structure SameOwners (s s' : State V Tid) : Prop where
  inUse : ∀ i, (s'.slot i).inUse = (s.slot i).inUse
  closed : ∀ i, (s'.slot i).closed = (s.slot i).closed
  handles : s'.handles = s.handles
  shut : s'.shut = s.shut
  releases : s'.releases = s.releases

variable {s s' : State V Tid} {γ : Tid → Place V} {own : Nat → Owner Tid} {t : Tid}
  {g g' : Place V}

omit [DecidableEq Tid] in
theorem SameOwners.of_slot {i : Nat} {c : ChanSlot V Tid} (h : s'.slot = upd s.slot i c)
    (hu : c.inUse = (s.slot i).inUse) (hc : c.closed = (s.slot i).closed)
    (hh : s'.handles = s.handles) (hs : s'.shut = s.shut) (hr : s'.releases = s.releases) :
    SameOwners s s' := by
  refine ⟨fun j => ?_, fun j => ?_, hh, hs, hr⟩ <;> rw [h, upd_apply] <;> split <;> simp_all

omit [DecidableEq Tid] in
theorem sameOwners {a : Act V} (ha : owns a = false) {n : Nat} {r : Resp a}
    (h : sem cfg t a n s = some (s', r)) : SameOwners s s' := by
  unfold sem at h
  split at h <;> simp only [owns, Bool.true_eq_false] at ha <;> (repeat' split at h) <;> cases h <;>
    first
    | exact ⟨fun _ => rfl, fun _ => rfl, rfl, rfl, rfl⟩
    | exact .of_slot rfl rfl rfl rfl rfl rfl

theorem OwnInv.keep (h : OwnInv s γ own) (hs : SameOwners s s')
    (hc : g'.claims t = none ∨ g'.claims t = (γ t).claims t)
    (hcl : ∀ k, g' = .closes k → k < s.handles.length)
    (hse : ∀ k i, g' = .sees k i → s.handles[k]? = some i) : OwnInv s' (upd γ t g') own := by
  refine ⟨fun i => by rw [hs.inUse]; exact h.inUse i, fun i => by rw [hs.closed]; exact h.closed i,
    fun u i w hu => ?_, fun k i hk => h.handles k i ?_, fun i => by rw [hs.releases]; exact h.pending i,
    fun u k hu => ?_, fun u k i hu => ?_, by rw [hs.shut, hs.handles]; exact h.shut⟩
  · by_cases he : u = t
    · subst he
      rw [upd_self] at hu
      rcases hc with hc | hc <;> rw [hc] at hu
      · cases hu
      · exact h.places u i w hu
    · exact h.places u i w (by rwa [upd_ne _ _ he] at hu)
  · unfold Live at hk ⊢
    rwa [hs.handles, hs.shut] at hk
  · rw [hs.handles]
    by_cases he : u = t
    · subst he; exact hcl k (by rwa [upd_self] at hu)
    · exact h.closes u k (by rwa [upd_ne _ _ he] at hu)
  · rw [hs.handles]
    by_cases he : u = t
    · subst he; exact hse k i (by rwa [upd_self] at hu)
    · exact h.sees u k i (by rwa [upd_ne _ _ he] at hu)

section
omit [DecidableEq Tid]

@[simp] theorem passAt_claims (fin : Bool) (i total : Nat) :
    (passAt cfg fin i total : Place V).claims t = none := by
  unfold passAt; split <;> rfl

@[simp] theorem passEnd_claims (fin : Bool) (total : Nat) :
    (passEnd cfg fin total : Place V).claims t = none := by
  unfold passEnd; split
  · exact passAt_claims fin 0 0
  · cases fin <;> rfl

/-- Where a move that changes no owner leads. -/
theorem Move.claims {a : Act V} {r : Resp a} (hm : Move cfg g a r g') (ha : owns a = false) :
    g'.claims t = none ∨ g'.claims t = g.claims t := by
  cases hm <;> simp only [owns, Bool.true_eq_false] at ha <;> (try split) <;>
    first
    | exact .inl (passAt_claims _ _ _)
    | exact .inl (passEnd_claims _ _)
    | simp [Place.claims]

end

/-- Nobody comes to close a handle but by a call. -/
def Place.closer : Place V → Prop
  | .closes _ | .sees _ _ => True
  | _ => False

theorem passAt_closer (fin : Bool) (i total : Nat) : ¬ (passAt cfg fin i total : Place V).closer := by
  unfold passAt; split <;> exact id

theorem passEnd_closer (fin : Bool) (total : Nat) : ¬ (passEnd cfg fin total : Place V).closer := by
  unfold passEnd; split
  · exact passAt_closer fin 0 0
  · cases fin <;> exact id

omit [DecidableEq Tid] in
theorem Move.closer {a : Act V} {n : Nat} {r : Resp a} (hm : Move cfg g a r g')
    (hs : sem cfg t a n s = some (s', r)) (hg : g'.closer) :
    ∃ k, g = .closes k ∧ g' = .sees k (s.handles.getD k 0) := by
  cases hm with
  | closeSlot k i => cases hs; exact ⟨k, rfl, rfl⟩
  | _ =>
    revert hg
    (try split) <;>
      first
      | exact fun hg => absurd hg (passAt_closer _ _ _)
      | exact fun hg => absurd hg (passEnd_closer _ _)
      | exact False.elim

/-! ## The owners, kept -/

/-- The owner of a slot changes hands. -/
theorem OwnInv.pass (h : OwnInv s γ own) {i : Nat} {w : Owner Tid}
    (hu : ∀ j, (s'.slot j).inUse = false ↔ upd own i w j = .none)
    (hc : ∀ j, (s'.slot j).closed = true ↔ (upd own i w j).shuts)
    (hg : ∀ j w', g'.claims t = some (j, w') → j = i ∧ w' = w)
    (hold : ∀ u, u ≠ t → ∀ w', (γ u).claims u ≠ some (i, w'))
    (hh : ∀ k j, Live s' k j → upd own i w j = .handle k)
    (hp : ∀ j, s'.releases j = 0 ∨ s'.releases j = 1 ∧ upd own i w j = .pending)
    (hl : s.handles <+: s'.handles) (hso : ∀ k, s'.shut k = true → k < s'.handles.length)
    (hcl : ¬ g'.closer) : OwnInv s' (upd γ t g') (upd own i w) := by
  refine ⟨hu, hc, fun u j w' huj => ?_, hh, hp, fun u k hk => ?_, fun u k j hk => ?_, hso⟩
  · by_cases he : u = t
    · subst he
      rw [upd_self] at huj
      obtain ⟨rfl, rfl⟩ := hg j w' huj
      rw [upd_self]
    · rw [upd_ne _ _ he] at huj
      have hne : j ≠ i := by
        rintro rfl
        exact hold u he w' huj
      rw [upd_ne _ _ hne]
      exact h.places u j w' huj
  · by_cases he : u = t
    · subst he; rw [upd_self] at hk; rw [hk] at hcl; exact absurd trivial hcl
    · exact Nat.lt_of_lt_of_le (h.closes u k (by rwa [upd_ne _ _ he] at hk)) hl.length_le
  · by_cases he : u = t
    · subst he; rw [upd_self] at hk; rw [hk] at hcl; exact absurd trivial hcl
    · have := h.sees u k j (by rwa [upd_ne _ _ he] at hk)
      obtain ⟨rest, hr⟩ := hl
      rw [← hr, List.getElem?_append_left (List.getElem?_eq_some_iff.mp this).1, this]

section
omit [DecidableEq Tid]

theorem claims_by {w : Owner Tid} {i : Nat} (h : g.claims t = some (i, w)) : w.by = some t := by
  cases g <;> simp only [Place.claims, Option.some.injEq, Prod.mk.injEq, reduceCtorEq] at h <;>
    (obtain ⟨-, rfl⟩ := h; rfl)

/-- A slot that no other goroutine owns is in no other goroutine's place. -/
theorem OwnInv.others (h : OwnInv s γ own) {i : Nat}
    (hw : (own i).by = none ∨ (own i).by = some t) :
    ∀ u, u ≠ t → ∀ w', (γ u).claims u ≠ some (i, w') := by
  intro u hu w' hc
  have hby := claims_by hc
  rw [← h.places u i w' hc] at hby
  rcases hw with hw | hw <;> rw [hby] at hw <;> cases hw
  exact hu rfl

/-- A slot's flags change together with its owner. -/
theorem flag_upd {p : ChanSlot V Tid → Bool} {b : Bool} {q : Owner Tid → Prop} {i : Nat}
    {c : ChanSlot V Tid} {w : Owner Tid} (h : ∀ j, p (s.slot j) = b ↔ q (own j))
    (hi : p c = b ↔ q w) (j : Nat) : p (upd s.slot i c j) = b ↔ q (upd own i w j) := by
  simp only [upd_apply]
  split
  · exact hi
  · exact h j

theorem OwnInv.live_ne (h : OwnInv s γ own) {i : Nat} (hw : ∀ k, own i ≠ .handle k) {k j : Nat}
    (hl : Live s k j) : j ≠ i := by
  rintro rfl
  exact hw k (h.handles k j hl)

theorem OwnInv.pending_ne (h : OwnInv s γ own) {i : Nat} (hw : own i ≠ .pending) :
    s.releases i = 0 :=
  (h.pending i).resolve_right fun hp => hw hp.2

end

/-- The slot goes from one owner to another, neither a handle nor a pending
release. -/
theorem OwnInv.hand (h : OwnInv s γ own) {i : Nat} {c : ChanSlot V Tid} {w : Owner Tid}
    (hold : (own i).by = none ∨ (own i).by = some t) (hne : ∀ k, own i ≠ .handle k)
    (hnp : own i ≠ .pending) (hu : c.inUse = false ↔ w = .none) (hc : c.closed = true ↔ w.shuts)
    (hg : ∀ j w', g'.claims t = some (j, w') → j = i ∧ w' = w) (hcl : ¬ g'.closer) :
    OwnInv (s.setSlot i c) (upd γ t g') (upd own i w) := by
  refine h.pass (flag_upd (p := ChanSlot.inUse) (q := fun w => w = .none) h.inUse hu)
    (flag_upd (p := ChanSlot.closed) (q := Owner.shuts) h.closed hc) hg (h.others hold)
    (fun k j hl => ?_) (fun j => ?_) (List.prefix_refl _) h.shut hcl
  · have hl : Live s k j := hl
    rw [upd_ne _ _ (h.live_ne hne hl)]
    exact h.handles k j hl
  · by_cases hj : j = i
    · subst hj; exact .inl (h.pending_ne hnp)
    · rw [upd_ne _ _ hj]; exact h.pending j

theorem OwnInv.take (h : OwnInv s γ own) {i : Nat} (hi : (s.slot i).inUse = false) :
    OwnInv (s.setSlot i { s.slot i with inUse := true }) (upd γ t (.got i))
      (upd own i (.maker t)) := by
  have hn := (h.inUse i).mp hi
  have hc := h.closed i
  rw [hn] at hc
  exact h.hand (by simp [hn, Owner.by]) (by simp [hn]) (by simp [hn]) (by simp)
    (by simpa [Owner.shuts] using hc) (by simp [Place.claims]) id

theorem OwnInv.clear (h : OwnInv s γ own) {i : Nat} (hg : γ t = .releasing i) :
    OwnInv (s.setSlot i { s.slot i with closed := false }) (upd γ t (.released i))
      (upd own i (.freer t)) := by
  have hw := h.places t i _ (by rw [hg]; rfl)
  have hu := h.inUse i
  rw [hw] at hu
  exact h.hand (by simp [hw, Owner.by]) (by simp [hw]) (by simp [hw]) (by simpa using hu)
    (by simp [Owner.shuts]) (by simp [Place.claims]) id

theorem OwnInv.free (h : OwnInv s γ own) {i : Nat} (hg : γ t = .released i) :
    OwnInv (s.setSlot i { s.slot i with inUse := false }) (upd γ t .out) (upd own i .none) := by
  have hw := h.places t i _ (by rw [hg]; rfl)
  have hc := h.closed i
  rw [hw] at hc
  exact h.hand (by simp [hw, Owner.by]) (by simp [hw]) (by simp [hw]) (by simp)
    (by simpa [Owner.shuts] using hc) (by simp [Place.claims]) id

/-- The producer is made: its handle owns the slot. -/
theorem OwnInv.make (h : OwnInv s γ own) {i : Nat} (hg : γ t = .got i) :
    OwnInv { s with handles := s.handles ++ [i] } (upd γ t .out)
      (upd own i (.handle s.handles.length)) := by
  have hw := h.places t i _ (by rw [hg]; rfl)
  have hu := h.inUse i
  have hc := h.closed i
  rw [hw] at hu hc
  refine h.pass (fun j => ?_) (fun j => ?_) nofun (h.others (by simp [hw, Owner.by]))
    (fun k j hl => ?_) (fun j => ?_) (List.prefix_append _ _) (fun k hk => ?_) id
  · by_cases hj : j = i
    · subst hj; simpa using hu
    · rw [upd_ne _ _ hj]; exact h.inUse j
  · by_cases hj : j = i
    · subst hj; simpa [Owner.shuts] using hc
    · rw [upd_ne _ _ hj]; exact h.closed j
  · obtain ⟨hk, hs⟩ := hl
    simp only [List.getElem?_append, List.getElem?_singleton] at hk
    split at hk
    · have hl : Live s k j := ⟨hk, hs⟩
      rw [upd_ne _ _ (h.live_ne (by simp [hw]) hl)]
      exact h.handles k j hl
    · split at hk
      · cases hk
        have hk : k = s.handles.length := by omega
        rw [upd_self, hk]
      · cases hk
  · by_cases hj : j = i
    · subst hj; exact .inl (h.pending_ne (by simp [hw]))
    · rw [upd_ne _ _ hj]; exact h.pending j
  · have := h.shut k hk
    simp only [List.length_append]; omega

/-- A `Close` wins the swap: its handle was live. -/
theorem OwnInv.close (h : OwnInv s γ own) {i k : Nat} (hg : γ t = .sees k i)
    (hok : s.shut k = true → (s.slot i).closed = true) (hc : (s.slot i).closed = false) :
    OwnInv { s.setSlot i { s.slot i with closed := true } with shut := upd s.shut k true }
      (upd γ t (.closing i)) (upd own i (.closer t)) := by
  have hlive : Live s k i := by
    refine ⟨h.sees t k i hg, ?_⟩
    cases hs : s.shut k with
    | false => rfl
    | true => rw [hok hs] at hc; cases hc
  have hw := h.handles k i hlive
  have hu := h.inUse i
  rw [hw] at hu
  refine h.pass (flag_upd (p := ChanSlot.inUse) (q := fun w => w = .none) h.inUse (by simpa using hu))
    (flag_upd (p := ChanSlot.closed) (q := Owner.shuts) h.closed (by simp [Owner.shuts]))
    (by simp [Place.claims]) (h.others (by simp [hw, Owner.by])) (fun k' j hl => ?_) (fun j => ?_)
    (List.prefix_refl _) (fun k' hk' => ?_) id
  · obtain ⟨hk', hs⟩ := hl
    have hne : k' ≠ k := by rintro rfl; simp at hs
    have hl : Live s k' j := ⟨hk', by simpa [hne] using hs⟩
    have hj : j ≠ i := by
      rintro rfl
      have := hw.symm.trans (h.handles k' j hl)
      simp only [Owner.handle.injEq] at this
      exact hne this.symm
    rw [upd_ne _ _ hj]
    exact h.handles k' j hl
  · by_cases hj : j = i
    · subst hj; exact .inl (h.pending_ne (by simp [hw]))
    · rw [upd_ne _ _ hj]; exact h.pending j
  · simp only [upd_apply] at hk'
    split at hk'
    · rename_i he; subst he; exact (List.getElem?_eq_some_iff.mp hlive.1).1
    · exact h.shut k' hk'

theorem OwnInv.spawn (h : OwnInv s γ own) {i : Nat} (hg : γ t = .closing i) :
    OwnInv { s with releases := upd s.releases i (s.releases i + 1) } (upd γ t .out)
      (upd own i .pending) := by
  have hw := h.places t i _ (by rw [hg]; rfl)
  have hu := h.inUse i
  have hc := h.closed i
  rw [hw] at hu hc
  refine h.pass (fun j => ?_) (fun j => ?_) nofun (h.others (by simp [hw, Owner.by]))
    (fun k j hl => ?_) (fun j => ?_) (List.prefix_refl _) h.shut id
  · by_cases hj : j = i
    · subst hj; simpa using hu
    · rw [upd_ne _ _ hj]; exact h.inUse j
  · by_cases hj : j = i
    · subst hj; simpa [Owner.shuts] using hc
    · rw [upd_ne _ _ hj]; exact h.closed j
  · have hl : Live s k j := hl
    rw [upd_ne _ _ (h.live_ne (by simp [hw]) hl)]
    exact h.handles k j hl
  · by_cases hj : j = i
    · subst hj
      have := h.pending_ne (i := j) (by simp [hw])
      exact .inr ⟨by simp [this], by simp⟩
    · simp only [upd_ne _ _ hj]; exact h.pending j

omit [DecidableEq Tid] in
/-- A handle that comes too late to its slot's flag is closed all the same. -/
theorem OwnInv.shutOne (h : OwnInv s γ own) {k : Nat} (hk : k < s.handles.length) :
    OwnInv { s with shut := upd s.shut k true } γ own := by
  refine ⟨h.inUse, h.closed, h.places, fun k' j hl => h.handles k' j ⟨hl.1, ?_⟩, h.pending, h.closes,
    h.sees, fun k' hk' => ?_⟩
  · have := hl.2
    simp only [upd_apply] at this
    split at this
    · cases this
    · exact this
  · simp only [upd_apply] at hk'
    split at hk'
    · rename_i he; subst he; exact hk
    · exact h.shut k' hk'

theorem owns_of_free {a : Act V} (h : Channel.free a = true) : owns a = false := by
  cases a <;> first | rfl | cases h

theorem owns_of_readies {a : Act V} (h : readies a = true) : owns a = false := by
  cases a <;> first | rfl | cases h

theorem owns_of_counts {a : Act V} (h : counts a = true) : owns a = false := by
  cases a <;> first | rfl | cases h

theorem own_step (h : OwnInv s γ own) {a : Act V} {n : Nat} {r : Resp a}
    (hok : absorbed t a s) (hs : sem cfg t a n s = some (s', r)) (hm : Move cfg (γ t) a r g') :
    ∃ own', OwnInv s' (upd γ t g') own' := by
  by_cases ha : owns a = false
  · refine ⟨own, h.keep (sameOwners ha hs) (hm.claims ha) (fun k hk => ?_) fun k i hk => ?_⟩
    · obtain ⟨k', -, he⟩ := hm.closer hs (by rw [hk]; trivial)
      rw [hk] at he; cases he
    · obtain ⟨k', hg, he⟩ := hm.closer hs (by rw [hk]; trivial)
      rw [hk] at he
      cases he
      have hlt := h.closes t k hg
      simp [List.getD, List.getElem?_eq_getElem hlt]
  · generalize hg : γ t = g at hm
    cases hm with
    | inUseCas i won hi =>
      cases hs
      cases hu : (s.slot i).inUse with
      | false => exact ⟨_, h.take hu⟩
      | true => exact ⟨own, h.keep (.of_slot rfl hu.symm rfl rfl rfl rfl) (.inl rfl) nofun nofun⟩
    | newProducer i k => cases hs; exact ⟨_, h.make hg⟩
    | slotClosedCas k i won =>
      cases hs
      cases hc : (s.slot i).closed with
      | false => exact ⟨_, h.close hg hok hc⟩
      | true =>
        have hk := (List.getElem?_eq_some_iff.mp (h.sees t k i hg)).1
        have hkeep : OwnInv (s.setSlot i { s.slot i with closed := true }) (upd γ t .out) own :=
          h.keep (.of_slot rfl rfl hc.symm rfl rfl rfl) (.inl rfl) nofun nofun
        exact ⟨own, hkeep.shutOne hk⟩
    | goRelease i => cases hs; exact ⟨_, h.spawn hg⟩
    | slotClosedStore i => cases hs; exact ⟨_, h.clear hg⟩
    | inUseStore i => cases hs; exact ⟨_, h.free hg⟩
    | free hf => exact absurd (owns_of_free hf) ha
    | ready hr => exact absurd (owns_of_readies hr) ha
    | count hc => exact absurd (owns_of_counts hc) ha
    | _ => exact absurd rfl ha

theorem own_begin (h : OwnInv s γ own) {c : Call V} (he : enabled s c = true) :
    ∃ own', OwnInv (begin t c s) (upd γ t (startPlace cfg c)) own' := by
  cases c with
  | release i =>
    have hp : s.releases i = 1 ∧ own i = .pending :=
      (h.pending i).resolve_left (by simp only [enabled, decide_eq_true_eq] at he; omega)
    have hu := h.inUse i
    have hc := h.closed i
    rw [hp.2] at hu hc
    refine ⟨upd own i (.releaser t), h.pass (fun j => ?_) (fun j => ?_) (by simp [startPlace, Place.claims])
      (h.others (by simp [hp.2, Owner.by])) (fun k j hl => ?_) (fun j => ?_) (List.prefix_refl _)
      h.shut id⟩
    · by_cases hj : j = i
      · subst hj; simpa [begin] using hu
      · rw [upd_ne _ _ hj]; exact h.inUse j
    · by_cases hj : j = i
      · subst hj; simpa [begin, Owner.shuts] using hc
      · rw [upd_ne _ _ hj]; exact h.closed j
    · have hl : Live s k j := hl
      rw [upd_ne _ _ (h.live_ne (by simp [hp.2]) hl)]
      exact h.handles k j hl
    · by_cases hj : j = i
      · subst hj; simp [begin, hp.1]
      · simp only [begin, upd_ne _ _ hj]; exact h.pending j
  | closeProducer k =>
    refine ⟨own, h.keep ⟨fun _ => rfl, fun _ => rfl, rfl, rfl, rfl⟩ (.inl rfl) (fun k' hk' => ?_) nofun⟩
    cases hk'
    simpa [enabled] using he
  | consume =>
    refine ⟨own, h.keep ⟨fun _ => rfl, fun _ => rfl, rfl, rfl, rfl⟩ (.inl (passAt_claims _ _ _))
      (fun k hk => ?_) fun k i hk => ?_⟩
    · exact absurd (show (startPlace cfg .consume : Place V).closer by rw [hk]; trivial)
        (passAt_closer _ _ _)
    · exact absurd (show (startPlace cfg .consume : Place V).closer by rw [hk]; trivial)
        (passAt_closer _ _ _)
  | _ => exact ⟨own, h.keep ⟨fun _ => rfl, fun _ => rfl, rfl, rfl, rfl⟩ (.inl rfl) nofun nofun⟩

theorem own_keeps :
    (flow V Tid cfg).Keeps absorbed fun s γ => ∃ own : Nat → Owner Tid, OwnInv s γ own where
  init := ⟨fun _ => .none, fun _ => by simp [State.init, ChanSlot.init],
    fun _ => by simp [State.init, ChanSlot.init, Owner.shuts], nofun, nofun, fun _ => .inl rfl, nofun,
    nofun, nofun⟩
  begin := fun _ ⟨_, h⟩ _ _ _ he => own_begin h he
  move := fun _ ⟨_, h⟩ _ _ _ _ _ _ hok hs hm => own_step h hok hs hm
  finish := by
    rintro s γ - ⟨own, h⟩ t c r -
    exact ⟨own, h.keep ⟨fun _ => rfl, fun _ => rfl, rfl, rfl, rfl⟩ (.inl rfl) nofun nofun⟩

/-- **A slot has one live producer.** In every run whose repeated `Close`
calls come to the swap while the slot's closed flag is still up, two
producers that were returned and not yet closed have different slots. -/
theorem live_producers_apart {x : System.Config (pipeline V Tid cfg)}
    (hx : System.ReachableIf absorbed x) {h h' i : Nat} (hl : Live x.state h i)
    (hl' : Live x.state h' i) : h = h' := by
  obtain ⟨γ, hr, -⟩ := follows.places hx
  obtain ⟨own, hI⟩ := own_keeps.reach hr
  have := (hI.handles h i hl).symm.trans (hI.handles h' i hl')
  simpa using this

end

/-! Runs of a pipeline with one slot. -/

abbrev oneSlot : System := pipeline Nat (Fin 4) ⟨1, 2, 4⟩

/-- `n` operations of `t`, no timer fired. -/
def ops (t : Fin 4) (n : Nat) : List (System.Label oneSlot) := List.replicate n (.step t 0)

/-- A producer is made and closed, and its release runs. -/
def closedOnce : List (System.Label oneSlot) :=
  .invoke (0 : Fin 4) .producer :: ops 0 10 ++ .invoke (0 : Fin 4) (.closeProducer 0) :: ops 0 4 ++
  .invoke (1 : Fin 4) (.release 0) :: ops 1 5

/-- The test that a step meets `absorbed`. -/
def absorbs (x : System.Config oneSlot) : System.Label oneSlot → Bool
  | .invoke _ _ => true
  | .step t _ =>
    match x.thread t with
    | .run _ (.act (.slotClosedCas i h) _) => !x.state.shut h || (x.state.slot i).closed
    | _ => true

theorem absorbs_meets (x : System.Config oneSlot) (l : System.Label oneSlot)
    (h : absorbs x l = true) : System.Meets absorbed x l := by
  cases l with
  | invoke => trivial
  | step t n =>
    rintro a ⟨c, k, hth⟩
    simp only [absorbs, hth] at h
    cases a <;> first | trivial | skip
    intro hs
    simpa [hs] using h

/-- Made, closed twice before the release clears the flag, and made again. -/
def closedInTime : List (System.Label oneSlot) :=
  .invoke (0 : Fin 4) .producer :: ops 0 10 ++ .invoke (0 : Fin 4) (.closeProducer 0) :: ops 0 4 ++
  .invoke (0 : Fin 4) (.closeProducer 0) :: ops 0 3 ++ .invoke (1 : Fin 4) (.release 0) :: ops 1 5 ++
  .invoke (2 : Fin 4) .producer :: ops 2 10

theorem live_producers_apart_closed : ∃ x : System.Config oneSlot,
    System.ReachableIf absorbed x ∧ Live x.state 1 0 ∧ ¬ Live x.state 0 0 := by
  obtain ⟨x, hx, hp⟩ := System.reachableIf_of_test absorbs_meets closedInTime
    (fun x => decide (Live x.state 1 0)) (by decide +kernel)
  have hl := of_decide_eq_true hp
  refine ⟨x, hx, hl, fun h => ?_⟩
  have := live_producers_apart hx h hl
  cases this

/-- The slot's next producer is made, the first is closed again, and a third
one is made. -/
def closedTwice : List (System.Label oneSlot) :=
  closedOnce ++ .invoke (2 : Fin 4) .producer :: ops 2 10 ++
  .invoke (0 : Fin 4) (.closeProducer 0) :: ops 0 4 ++ .invoke (1 : Fin 4) (.release 0) :: ops 1 5 ++
  .invoke (3 : Fin 4) .producer :: ops 3 10

/-- Two live producers share the slot: a `Close` was repeated after the
release had cleared the flag. -/
theorem shared_slot : ∃ x : System.Config oneSlot, oneSlot.Reachable x ∧
    Live x.state 1 0 ∧ Live x.state 2 0 := by
  obtain ⟨x, hx, hp⟩ := System.reachable_of_test closedTwice
    (fun x => decide (Live x.state 1 0 ∧ Live x.state 2 0)) (by decide +kernel)
  exact ⟨x, hx, of_decide_eq_true hp⟩

end Katas.Weir.Channel
