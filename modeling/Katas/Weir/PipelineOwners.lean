import Katas.Weir.PipelineCalls

/-!
# Who owns a slot

Free, then claimed by the thread that registers, then a handle's, until the
consumer frees it: a slot that is free has no owner, a slot of a handle that
is still to be used is active, and a slot is retiring only once its handle is
given up.
-/
namespace Katas.Weir.Pipeline
open Katas.Conc Flow

section
variable {V Tid : Type} (cfg : Config)

/-- What a thread knows of slots by its place. -/
def OwnAt (s : State V Tid) (t : Tid) : Place V Tid → Prop
  | .leaves h => s.owner h.id = some (.handle h.serial) ∧ (s.slot h.id).state = .active
  | .locked => s.regMu = some t
  | .vacant i => cfg.port = .python ∧ s.regMu = some t ∧ (s.slot i).state = .free
  | .claimed i | .scans (.register i) _ _ =>
    s.owner i = some (.claim t) ∧ (cfg.port ≠ .cpp → s.regMu = some t)
  | .given i => s.owner i = some (.claim t)
  | .reclaims .state _ => True
  | .reclaims _ l => (s.slot l.i).state = .retiring
  | _ => True

structure Owners (s : State V Tid) (γ : Tid → Place V Tid) : Prop where
  free : ∀ i, (s.slot i).state = .free ↔ s.owner i = none
  claim : ∀ i t, s.owner i = some (.claim t) → (s.slot i).state = .active
  handle : ∀ i k, s.owner i = some (.handle k) → s.handles[k]? = some i
  retiring : ∀ i, (s.slot i).state = .retiring →
    ∃ k, s.owner i = some (.handle k) ∧ (s.use k = .gone ∨ ∃ t, s.use k = .retiring t)
  live : ∀ (k i : Nat), s.handles[k]? = some i → (s.use k = .ready ∨ ∃ t, s.use k = .pushing t) →
    s.owner i = some (.handle k) ∧ (s.slot i).state = .active
  at_ : ∀ t, OwnAt cfg s t (γ t)

/-- Takes or releases the registry's lock. -/
def Act.registers : Act V Tid → Bool
  | .regLock | .regUnlock => true
  | _ => false

variable {cfg} {s s' : State V Tid} {t : Tid} {g : Place V Tid}

theorem OwnAt.congr (h : OwnAt cfg s t g) (ho : s'.owner = s.owner) (hm : s'.regMu = s.regMu)
    (hs : ∀ i, (s'.slot i).state = (s.slot i).state) : OwnAt cfg s' t g := by
  cases g with
  | scans w rest ids => cases w <;> first | trivial | simpa [OwnAt, ho, hm] using h
  | reclaims p l => cases p <;> first | trivial | simpa [OwnAt, hs] using h
  | _ => first
    | trivial
    | simpa only [OwnAt, ho, hm, hs] using h

theorem Entry.ownAt (h : Entry cfg g) : OwnAt cfg s t g := by
  cases h <;> trivial

end

section
variable {V Tid : Type} [DecidableEq Tid] [Inhabited V] [Inhabited Tid] {cfg : Config}
  {s s' : State V Tid} {γ : Tid → Place V Tid} {t : Tid} {g : Place V Tid} {a : Act V Tid} {n : Nat}

omit [Inhabited V] [Inhabited Tid] in
theorem apply_regMu (h : a.registers = false) : (apply cfg t a n s).regMu = s.regMu := by
  cases a with
  | regLock | regUnlock => cases h
  | stateCas i => unfold apply; dsimp only; split <;> rfl
  | stateStore i st => cases st <;> rfl
  | _ => rfl

omit [DecidableEq Tid] [Inhabited V] [Inhabited Tid] in
/-- The place an operation that changes no slot's state leads to. -/
theorem OwnAt.moves {r : Resp a} (h : OwnAt cfg s t g) {g' : Place V Tid} (ht : a.turns = false)
    (hl : a.registers = false) (hr : r = reply cfg n s a) (hm : Move cfg g a r g') :
    OwnAt cfg s t g' := by
  cases hm with
  | life hm => cases hm <;> trivial
  | wake hm =>
    cases hm with
    | lock k | notify k => trivial
    | unlock k | send k => cases k <;> trivial
  | register hm =>
    cases hm with
    | lock | unlock | release => cases hl
    | cas | casLocked | activates => cases ht
    | finds i st hi hp =>
      split
      · rename_i hst
        exact ⟨hp, h, hr.symm.trans hst⟩
      · exact h
    | _ => exact h
  | scan hm =>
    cases hm with
    | load w i rest ids st => cases w <;> exact h
    | register i ids => exact h
    | reclaim fin ids hg => exact hg.entry.ownAt
  | push hm =>
    cases hm with
    | retires => cases ht
    | accepting h v b => cases b <;> trivial
    | cached | see | pending | set => split <;> trivial
    | test w b | mind w b => cases b <;> trivial
    | _ => trivial
  | drain hm =>
    cases hm with
    | word w r hg => exact hg.entry.ownAt
    | ids clear l hg => exact hg.entry.ownAt
    | flag clear i rest ids b hg => exact hg.entry.ownAt
    | free k hg => exact hg.entry.ownAt
    | used k hst => exact (loopAt_entry cfg k 0).ownAt
    | staged | spill | cached | look => split <;> trivial
    | copied k got h n out hn =>
      split
      · trivial
      · exact (loopAt_entry cfg k _).ownAt
    | drained k got hg => exact hg.entry.ownAt
    | flushed d total hg => exact hg.entry.ownAt
    | write d total hg => exact hg.entry.ownAt
    | lastFlushed hg => exact hg.entry.ownAt
    | lastWrite hg => exact hg.entry.ownAt
    | _ => trivial
  | reclaim hm =>
    cases hm with
    | skip hp hg => exact hg.entry.ownAt
    | take hp hg => exact hg.entry.ownAt
    | skips hp hg => exact hg.entry.ownAt
    | finds => trivial
    | takes hg => exact hg.entry.ownAt
    | retiring l => exact hr.symm
    | other l hst hg => exact hg.entry.ownAt
    | filled l hc hg => exact hg.entry.ownAt
    | addDropped l n => split <;> exact h
    | free => cases ht
    | _ => exact h
  | clear hm =>
    cases hm with
    | word w hg => exact hg.entry.ownAt
    | filled i rest b hc hg => exact hg.entry.ownAt
    | emptyAgain i rest b c hg =>
      split at hg
      · split at hg
        · subst hg; trivial
        · exact hg.entry.ownAt
      · subst hg; trivial
    | other i rest b hst hg => exact hg.entry.ownAt
    | restore i rest b zero hg => exact hg.entry.ownAt
    | _ => trivial
  | park hm =>
    cases hm with
    | arm told => cases told <;> trivial
    | word | run => split <;> (try split) <;> trivial
    | disarm told => split <;> trivial
    | _ => trivial

/-! ## A slot changes hands -/

/-- Is `OwnAt` about slot `i`? -/
def Place.speaksOf : Place V Tid → Nat → Prop
  | .leaves h, i => h.id = i
  | .vacant j, i | .claimed j, i | .given j, i | .scans (.register j) _ _, i => j = i
  | .reclaims .state _, _ => False
  | .reclaims _ l, i => l.i = i
  | _, _ => False

section
omit [DecidableEq Tid] [Inhabited V] [Inhabited Tid]

theorem OwnAt.off (h : OwnAt cfg s t g) {i : Nat} (hg : ¬ g.speaksOf i)
    (ho : ∀ j, j ≠ i → s'.owner j = s.owner j) (hm : s'.regMu = s.regMu)
    (hs : ∀ j, j ≠ i → (s'.slot j).state = (s.slot j).state) : OwnAt cfg s' t g := by
  cases g with
  | leaves k => exact ⟨(ho _ hg).trans h.1, (hs _ hg).trans h.2⟩
  | locked => exact hm.trans h
  | vacant j => exact ⟨h.1, hm.trans h.2.1, (hs _ hg).trans h.2.2⟩
  | claimed j => exact ⟨(ho _ hg).trans h.1, fun hp => hm.trans (h.2 hp)⟩
  | given j => exact (ho _ hg).trans h
  | scans w rest ids =>
    cases w with
    | register j => exact ⟨(ho _ hg).trans h.1, fun hp => hm.trans (h.2 hp)⟩
    | reclaim fin => trivial
  | reclaims p l =>
    cases p with
    | state => trivial
    | _ => exact (hs _ hg).trans h
  | _ => trivial

/-- Nobody else speaks of a slot that was free, unless it is vacant. -/
theorem OwnAt.not_free (h : OwnAt cfg s t g) {i : Nat} (hf : (s.slot i).state = .free)
    (ho : s.owner i = none) (hv : g ≠ .vacant i) : ¬ g.speaksOf i := by
  intro hi
  cases g with
  | leaves k => obtain rfl := hi; cases hf.symm.trans h.2
  | vacant j => obtain rfl := hi; exact hv rfl
  | claimed j => obtain rfl := hi; cases ho.symm.trans h.1
  | given j => obtain rfl := hi; cases ho.symm.trans h
  | scans w rest ids =>
    cases w with
    | register j => obtain rfl := hi; cases ho.symm.trans h.1
    | reclaim fin => exact hi
  | reclaims p l =>
    cases p with
    | state => exact hi
    | _ => obtain rfl := hi; cases hf.symm.trans h
  | _ => exact hi

/-- What speaks of a slot that a handle owns. -/
theorem OwnAt.of_handle (h : OwnAt cfg s t g) {i k : Nat} (ho : s.owner i = some (.handle k))
    (hf : (s.slot i).state ≠ .free) (hi : g.speaksOf i) :
    (∃ h', g = .leaves h' ∧ h'.serial = k ∧ (s.slot i).state = .active) ∨
      ∃ p l, g = .reclaims p l ∧ (s.slot i).state = .retiring := by
  cases g with
  | leaves k' =>
    obtain rfl := hi
    have hk : k = k'.serial := by simpa using ho.symm.trans h.1
    exact .inl ⟨k', rfl, hk.symm, h.2⟩
  | vacant j => obtain rfl := hi; exact absurd h.2.2 hf
  | claimed j => obtain rfl := hi; cases ho.symm.trans h.1
  | given j => obtain rfl := hi; cases ho.symm.trans h
  | scans w rest ids =>
    cases w with
    | register j => obtain rfl := hi; cases ho.symm.trans h.1
    | reclaim fin => cases hi
  | reclaims p l =>
    cases p with
    | state => cases hi
    | _ => obtain rfl := hi; exact .inr ⟨_, l, rfl, h⟩
  | _ => cases hi

end

section
omit [Inhabited V] [Inhabited Tid]

theorem at_upd {P : Tid → Place V Tid → Prop} {g : Place V Tid} (ht : P t g)
    (ho : ∀ u, u ≠ t → P u (γ u)) : ∀ u, P u (upd γ t g u) := by
  intro u
  by_cases hu : u = t
  · subst hu; rw [upd_self]; exact ht
  · rw [upd_ne _ _ hu]; exact ho u hu

theorem Owners.takes (h : Owners cfg s γ) {i : Nat} (hf : (s.slot i).state = .free)
    (ho : ∀ u, u ≠ t → γ u ≠ .vacant i)
    (hg : OwnAt cfg (s.turn t i .active (some (.claim t))) t g) :
    Owners cfg (s.turn t i .active (some (.claim t))) (upd γ t g) := by
  have hnone := (h.free i).mp hf
  have hoff : ∀ {j}, j ≠ i → (s.turn t i .active (some (.claim t))).owner j = s.owner j ∧
      ((s.turn t i .active (some (.claim t))).slot j).state = (s.slot j).state := by
    intro j hj
    refine ⟨upd_ne _ _ hj, ?_⟩
    simp only [State.turn, State.setSlot_slot, if_neg hj]
  have hat : (s.turn t i .active (some (.claim t))).owner i = some (.claim t) ∧
      ((s.turn t i .active (some (.claim t))).slot i).state = .active := by
    refine ⟨upd_self _ _ _, ?_⟩
    simp only [State.turn, State.setSlot_slot, if_true]
  refine ⟨fun j => ?_, fun j u hj => ?_, fun j k hj => ?_, fun j hj => ?_, fun k j hk hu => ?_,
    at_upd hg fun u hu => (h.at_ u).off ((h.at_ u).not_free hf hnone (ho u hu))
      (fun j hj => (hoff hj).1) rfl fun j hj => (hoff hj).2⟩ <;> by_cases he : j = i
  · subst he; rw [hat.1, hat.2]; exact ⟨fun h => (by cases h), fun h => (by cases h)⟩
  · rw [(hoff he).1, (hoff he).2]; exact h.free j
  · subst he; exact hat.2
  · rw [(hoff he).1] at hj; rw [(hoff he).2]; exact h.claim j u hj
  · subst he; rw [hat.1] at hj; cases hj
  · rw [(hoff he).1] at hj; exact h.handle j k hj
  · subst he; rw [hat.2] at hj; cases hj
  · rw [(hoff he).2] at hj; rw [(hoff he).1]; exact h.retiring j hj
  · subst he; rw [(h.live k j hk hu).1] at hnone; cases hnone
  · rw [(hoff he).1, (hoff he).2]; exact h.live k j hk hu

theorem Owners.retires (h : Owners cfg s γ) (hc : Calls cfg s γ) {k : Handle} (hγ : γ t = .leaves k) :
    Owners cfg (s.setSlot k.id { s.slot k.id with state := .retiring })
      (upd γ t (.leaving k : Place V Tid)) := by
  have hown : s.owner k.id = some (.handle k.serial) ∧ (s.slot k.id).state = .active := by
    have := h.at_ t
    rw [hγ] at this
    exact this
  have huse := (hc.retiring t k (hc.retire (by rw [hγ]; rfl))).1
  have hoff : ∀ {j}, j ≠ k.id →
      ((s.setSlot k.id { s.slot k.id with state := .retiring }).slot j).state =
        (s.slot j).state := by
    intro j hj
    simp only [State.setSlot_slot, if_neg hj]
  have hat : ((s.setSlot k.id { s.slot k.id with state := .retiring }).slot k.id).state =
      .retiring := by
    simp only [State.setSlot_slot, if_true]
  refine ⟨fun j => ?_, fun j u hj => ?_, h.handle, fun j hj => ?_, fun k' j hk hu => ?_,
    at_upd trivial fun u hu => ?_⟩
  · by_cases he : j = k.id
    · subst he
      show _ ↔ s.owner k.id = none
      rw [hat, hown.1]
      exact ⟨nofun, nofun⟩
    · rw [hoff he]; exact h.free j
  · by_cases he : j = k.id
    · subst he
      have hj : s.owner k.id = _ := hj
      rw [hown.1] at hj; cases hj
    · rw [hoff he]; exact h.claim j u hj
  · by_cases he : j = k.id
    · subst he
      exact ⟨k.serial, hown.1, .inr ⟨t, huse⟩⟩
    · rw [hoff he] at hj; exact h.retiring j hj
  · by_cases he : j = k.id
    · subst he
      have hk' : k.serial = k' := by simpa using hown.1.symm.trans (h.live k' k.id hk hu).1
      subst hk'
      have hu : s.use k.serial = .ready ∨ ∃ u, s.use k.serial = .pushing u := hu
      obtain hu | ⟨u, hu⟩ := hu <;> cases huse.symm.trans hu
    · rw [hoff he]; exact h.live k' j hk hu
  · refine (h.at_ u).off (fun hs => ?_) (fun _ _ => rfl) rfl fun j hj => hoff hj
    -- only the thread that retires the handle is at its slot
    obtain ⟨k', hγu, hk, -⟩ | ⟨p, l, -, hr⟩ :=
      (h.at_ u).of_handle hown.1 (by rw [hown.2]; nofun) hs
    · have := (hc.retiring u k' (hc.retire (by rw [hγu]; rfl))).1
      rw [hk, huse] at this
      cases this
      exact hu rfl
    · rw [hown.2] at hr; cases hr

theorem Owners.frees (h : Owners cfg s γ) (hc : Calls cfg s γ) {l : Lot}
    (hγ : γ t = .reclaims .free l) {f : Nat → Bool} (hg : Entry cfg g) :
    Owners cfg { s.turn t l.i .free none with looked := f } (upd γ t g) := by
  have hret : (s.slot l.i).state = .retiring := by
    have := h.at_ t
    rw [hγ] at this
    exact this
  obtain ⟨k, hk, -⟩ := h.retiring l.i hret
  have hoff : ∀ {j}, j ≠ l.i → (s.turn t l.i .free none).owner j = s.owner j ∧
      ((s.turn t l.i .free none).slot j).state = (s.slot j).state := by
    intro j hj
    refine ⟨upd_ne _ _ hj, ?_⟩
    simp only [State.turn, State.setSlot_slot, if_neg hj]
  have hat : (s.turn t l.i .free none).owner l.i = none ∧
      ((s.turn t l.i .free none).slot l.i).state = .free := by
    refine ⟨upd_self _ _ _, ?_⟩
    simp only [State.turn, State.setSlot_slot, if_true]
  refine ⟨fun j => ?_, fun j u hj => ?_, fun j k hj => ?_, fun j hj => ?_, fun k j hk hu => ?_,
    at_upd hg.ownAt fun u hu => ?_⟩
  · show ((s.turn t l.i .free none).slot j).state = _ ↔ (s.turn t l.i .free none).owner j = none
    by_cases he : j = l.i
    · subst he; rw [hat.1, hat.2]; exact ⟨fun _ => rfl, fun _ => rfl⟩
    · rw [(hoff he).1, (hoff he).2]; exact h.free j
  · have hj : (s.turn t l.i .free none).owner j = _ := hj
    show ((s.turn t l.i .free none).slot j).state = _
    by_cases he : j = l.i
    · subst he; rw [hat.1] at hj; cases hj
    · rw [(hoff he).1] at hj; rw [(hoff he).2]; exact h.claim j u hj
  · have hj : (s.turn t l.i .free none).owner j = _ := hj
    by_cases he : j = l.i
    · subst he; rw [hat.1] at hj; cases hj
    · rw [(hoff he).1] at hj; exact h.handle j k hj
  · have hj : ((s.turn t l.i .free none).slot j).state = _ := hj
    by_cases he : j = l.i
    · subst he; rw [hat.2] at hj; cases hj
    · rw [(hoff he).2] at hj
      obtain ⟨k, h1, h2⟩ := h.retiring j hj
      exact ⟨k, (hoff he).1.trans h1, h2⟩
  · have hl := h.live k j hk hu
    by_cases he : j = l.i
    · subst he; rw [hret] at hl; cases hl.2
    · exact ⟨(hoff he).1.trans hl.1, (hoff he).2.trans hl.2⟩
  · refine (h.at_ u).off (fun hs => ?_) (fun j hj => (hoff hj).1) rfl fun j hj => (hoff hj).2
    obtain ⟨k', hγu, -, ha⟩ | ⟨p, l', hγu, -⟩ :=
      (h.at_ u).of_handle hk (by rw [hret]; intro h; cases h) hs
    · rw [hret] at ha; cases ha
    · exact hu (hc.one_consumer (by rw [hγu]; rfl) (by rw [hγ]; rfl))

end

/-! ## The invariant -/

omit [DecidableEq Tid] [Inhabited V] [Inhabited Tid] in
/-- What a thread without the lock knows does not depend on it. -/
theorem OwnAt.unlocked (h : OwnAt cfg s t g) (hm : s.regMu ≠ some t) (m : Option Tid) :
    OwnAt cfg { s with regMu := m } t g := by
  cases g with
  | locked => exact absurd h hm
  | vacant i => exact absurd h.2.1 hm
  | claimed i => exact ⟨h.1, fun hp => absurd (h.2 hp) hm⟩
  | scans w rest ids =>
    cases w with
    | register i => exact ⟨h.1, fun hp => absurd (h.2 hp) hm⟩
    | reclaim fin => trivial
  | reclaims p l => cases p <;> exact h
  | _ => exact h

section
omit [Inhabited V] [Inhabited Tid]

theorem Owners.relocks (h : Owners cfg s γ) {m : Option Tid} (hm : ∀ u, u ≠ t → s.regMu ≠ some u)
    (hg : OwnAt cfg { s with regMu := m } t g) :
    Owners cfg { s with regMu := m } (upd γ t g) :=
  ⟨h.free, h.claim, h.handle, h.retiring, h.live,
    at_upd hg fun u hu => (h.at_ u).unlocked (hm u hu) m⟩

theorem Owners.move (h : Owners cfg s γ) (hc : Calls cfg s γ) {r : Resp a} {g : Place V Tid}
    (hready : ready cfg a n s = true) (hr : r = reply cfg n s a) (hm : Move cfg (γ t) a r g) :
    Owners cfg (apply cfg t a n s) (upd γ t g) := by
  have hat := h.at_ t
  have hvac : cfg.port ≠ .python → ∀ u i, γ u ≠ .vacant i := by
    intro hp u i hu
    have := h.at_ u
    rw [hu] at this
    exact hp this.1
  by_cases hq : a.turns = false ∧ a.registers = false
  · -- nothing that this is about changes
    have ho : (apply cfg t a n s).owner = s.owner := apply_owner hq.1
    have hs : ∀ i, ((apply cfg t a n s).slot i).state = (s.slot i).state := apply_state hq.1
    have hl : (apply cfg t a n s).regMu = s.regMu := apply_regMu hq.2
    refine ⟨?_, ?_, ?_, ?_, ?_, at_upd ((hat.moves hq.1 hq.2 hr hm).congr ho hl hs)
      fun u _ => (h.at_ u).congr ho hl hs⟩
    · simpa only [ho, hs] using h.free
    · simpa only [ho, hs] using h.claim
    · simpa only [ho, apply_handles] using h.handle
    · simpa only [ho, hs, apply_use] using h.retiring
    · simpa only [ho, hs, apply_use, apply_handles] using h.live
  · generalize hγ : γ t = g₀ at hm hat
    cases hm with
    | register hm =>
      cases hm with
      | lock hp =>
        refine h.relocks (fun u _ hu => ?_) rfl
        have : s.regMu = none := by simpa [ready] using hready
        rw [this] at hu; cases hu
      | unlock =>
        exact h.relocks (fun u hne hu => hne (Option.some.inj (hu.symm.trans hat))) trivial
      | release i hp =>
        exact h.relocks (fun u hne hu => hne (Option.some.inj (hu.symm.trans (hat.2 hp)))) hat.1
      | cas i won hi hp =>
        unfold apply
        by_cases hf : (s.slot i).state = .free
        · rw [hr]
          simp only [reply, hf, decide_true, if_true]
          refine h.takes hf (fun u _ => hvac (by rw [hp]; intro h; cases h) u i)
            ⟨upd_self _ _ _, ?_⟩
          exact fun hne => absurd hp hne
        · rw [hr]
          simp only [reply, hf, decide_false, if_false]
          exact ⟨h.free, h.claim, h.handle, h.retiring, h.live, at_upd trivial fun u _ => h.at_ u⟩
      | casLocked i won hi hp =>
        unfold apply
        by_cases hf : (s.slot i).state = .free
        · rw [hr]
          simp only [reply, hf, decide_true, if_true]
          exact h.takes hf (fun u _ => hvac (by rw [hp]; intro h; cases h) u i)
            ⟨upd_self _ _ _, fun _ => hat⟩
        · rw [hr]
          simp only [reply, hf, decide_false, if_false]
          exact ⟨h.free, h.claim, h.handle, h.retiring, h.live, at_upd hat fun u _ => h.at_ u⟩
      | activates i =>
        refine h.takes hat.2.2 (fun u hne hu => ?_) ⟨upd_self _ _ _, fun _ => hat.2.1⟩
        have := h.at_ u
        rw [hu] at this
        exact hne (Option.some.inj (this.2.1.symm.trans hat.2.1))
      | _ => exact absurd ⟨rfl, rfl⟩ hq
    | push hm =>
      cases hm with
      | retires k => exact h.retires hc hγ
      | _ => exact absurd ⟨rfl, rfl⟩ hq
    | reclaim hm =>
      cases hm with
      | free l hg => exact h.frees hc hγ hg.entry
      | _ => exact absurd ⟨rfl, rfl⟩ hq
    | life hm =>
      cases hm with
      | @waits a _ hw =>
        cases a <;> first | exact absurd ⟨rfl, rfl⟩ hq | cases hw
      | _ => exact absurd ⟨rfl, rfl⟩ hq
    | _ hm => cases hm <;> exact absurd ⟨rfl, rfl⟩ hq

/-- A call that begins takes a handle that was ready, or none. -/
theorem begin_use {c : Call V} (he : enabled cfg s c = true) (k : Nat) :
    (begin cfg t c s).use k = s.use k ∨
      s.use k = .ready ∧ ((begin cfg t c s).use k = .pushing t ∨
        (begin cfg t c s).use k = .retiring t) := by
  cases c with
  | push h v | retire h =>
    obtain ⟨-, hu⟩ : s.handles[h.serial]? = some h.id ∧ s.use h.serial = .ready := by
      simpa [enabled, usable] using he
    by_cases hk : k = h.serial
    · subst hk
      refine .inr ⟨hu, ?_⟩
      first
        | exact .inl (upd_self _ _ _)
        | exact .inr (upd_self _ _ _)
    · exact .inl (upd_ne _ _ hk)
  | _ => exact .inl rfl

theorem Owners.begins (h : Owners cfg s γ) {c : Call V} (he : enabled cfg s c = true) :
    Owners cfg (begin cfg t c s) (upd γ t (startPlace c)) := by
  have hat : ∀ {u g}, OwnAt cfg s u g → OwnAt cfg (begin cfg t c s) u g := fun hu =>
    hu.congr begin_owner begin_regMu fun _ => by rw [begin_slot]
  refine ⟨?_, ?_, ?_, fun i hi => ?_, fun k i hk hu => ?_, at_upd ?_ fun u _ => hat (h.at_ u)⟩
  · simpa only [begin_slot, begin_owner] using h.free
  · simpa only [begin_slot, begin_owner] using h.claim
  · simpa only [begin_handles, begin_owner] using h.handle
  · rw [begin_slot] at hi
    rw [begin_owner]
    obtain ⟨k, hk, hu⟩ := h.retiring i hi
    refine ⟨k, hk, ?_⟩
    obtain hb | ⟨hb, -⟩ := begin_use (t := t) he k
    · rwa [hb]
    · rw [hb] at hu
      obtain hu | ⟨u, hu⟩ := hu <;> cases hu
  · rw [begin_handles] at hk
    rw [begin_slot, begin_owner]
    obtain hb | ⟨hb, -⟩ := begin_use (t := t) he k
    · rw [hb] at hu; exact h.live k i hk hu
    · exact h.live k i hk (.inl hb)
  · apply hat
    cases c with
    | retire k =>
      obtain ⟨hk, hu⟩ : s.handles[k.serial]? = some k.id ∧ s.use k.serial = .ready := by
        simpa [enabled, usable] using he
      exact h.live k.serial k.id hk (.inl hu)
    | _ => trivial

end

omit [DecidableEq Tid] [Inhabited V] [Inhabited Tid] in
/-- What speaks of a slot that a thread has claimed. -/
theorem OwnAt.of_claim {u : Tid} (h : OwnAt cfg s u g) {i : Nat} (ho : s.owner i = some (.claim t))
    (ha : (s.slot i).state = .active) (hi : g.speaksOf i) : u = t := by
  cases g with
  | leaves k => obtain rfl := hi; cases ho.symm.trans h.1
  | vacant j => obtain rfl := hi; cases ha.symm.trans h.2.2
  | claimed j => obtain rfl := hi; cases ho.symm.trans h.1; rfl
  | given j => obtain rfl := hi; cases ho.symm.trans h; rfl
  | scans w rest ids =>
    cases w with
    | register j => obtain rfl := hi; cases ho.symm.trans h.1; rfl
    | reclaim fin => cases hi
  | reclaims p l =>
    cases p with
    | state => cases hi
    | _ => obtain rfl := hi; cases ha.symm.trans h
  | _ => cases hi

section
omit [Inhabited V] [Inhabited Tid]

/-- A slot is given to a new handle. -/
theorem Owners.gives (h : Owners cfg s γ) {i : Nat} (hi : s.owner i = some (.claim t)) :
    Owners cfg (finish cfg t (.register : Call V) (.registered (some i)) s) (upd γ t .idle) := by
  have hoff : ∀ {j}, j ≠ i → upd s.owner i (some (.handle s.handles.length)) j = s.owner j :=
    fun hj => upd_ne _ _ hj
  have hact := h.claim i t hi
  have hnot : ∀ {k : Nat}, s.owner i ≠ some (.handle k) := by
    intro k hk
    rw [hi] at hk; cases hk
  refine ⟨fun j => ?_, fun j u hj => ?_, fun j k hj => ?_, fun j hj => ?_, fun k j hk hu => ?_,
    at_upd trivial fun u hu => ?_⟩
  · show _ ↔ upd s.owner i _ j = none
    by_cases he : j = i
    · subst he
      rw [upd_self]
      exact ⟨fun hf => absurd (hact.symm.trans hf) (by nofun), nofun⟩
    · rw [hoff he]; exact h.free j
  · have hj : upd s.owner i _ j = _ := hj
    by_cases he : j = i
    · subst he; rw [upd_self] at hj; cases hj
    · rw [hoff he] at hj; exact h.claim j u hj
  · have hj : upd s.owner i _ j = _ := hj
    show (s.handles ++ [i])[k]? = some j
    by_cases he : j = i
    · subst he
      rw [upd_self] at hj
      cases hj
      rw [List.getElem?_append_right (Nat.le_refl _), Nat.sub_self]
      rfl
    · rw [hoff he] at hj
      have := h.handle j k hj
      obtain ⟨hlt, -⟩ := List.getElem?_eq_some_iff.mp this
      rwa [List.getElem?_append_left hlt]
  · obtain ⟨k, hk, hu⟩ := h.retiring j hj
    refine ⟨k, ?_, hu⟩
    show upd s.owner i _ j = _
    rw [hoff]
    · exact hk
    · rintro rfl; exact hnot hk
  · have hk : (s.handles ++ [i])[k]? = some j := hk
    show upd s.owner i _ j = _ ∧ _
    by_cases hlt : k < s.handles.length
    · rw [List.getElem?_append_left hlt] at hk
      obtain ⟨h1, h2⟩ := h.live k j hk hu
      rw [hoff]
      · exact ⟨h1, h2⟩
      · rintro rfl; exact hnot h1
    · obtain ⟨hlen, hi'⟩ := List.getElem?_eq_some_iff.mp hk
      have hke : k = s.handles.length := by simp at hlen; omega
      subst hke
      obtain rfl : i = j := by simpa using hk
      rw [upd_self]
      exact ⟨rfl, hact⟩
  · refine (h.at_ u).off (i := i) (fun hs => ?_) (fun j hj => hoff hj) rfl fun _ _ => rfl
    exact hu ((h.at_ u).of_claim hi hact hs)

/-- Only a registration gives a handle out. -/
theorem finish_frame {c : Call V} {r : Result} (hc : c ≠ .register ∨ r = .registered none) :
    (finish cfg t c r s).owner = s.owner ∧ (finish cfg t c r s).handles = s.handles := by
  cases c with
  | register =>
    obtain hc | rfl := hc
    · exact absurd rfl hc
    · exact ⟨rfl, rfl⟩
  | push k v =>
    cases r with
    | pushed ok => cases ok <;> exact ⟨rfl, rfl⟩
    | _ => exact ⟨rfl, rfl⟩
  | stop m => cases r <;> exact ⟨rfl, rfl⟩
  | _ => exact ⟨rfl, rfl⟩

/-- A handle's call ends: the slots are as they were. -/
theorem Owners.leaves (h : Owners cfg s γ) {c : Call V} {r : Result} (hc : c ≠ .register ∨ r = .registered none)
    (hu : ∀ k, (finish cfg t c r s).use k = s.use k ∨
      ((finish cfg t c r s).use k = .ready ∧ s.use k = .pushing t) ∨
      ((finish cfg t c r s).use k = .gone ∧ s.use k = .retiring t)) :
    Owners cfg (finish cfg t c r s) (upd γ t .idle) := by
  obtain ⟨ho, hh⟩ := @finish_frame V Tid _ cfg s t c r hc
  refine ⟨?_, ?_, ?_, fun i hi => ?_, fun k i hk hk' => ?_, at_upd trivial fun u _ =>
    (h.at_ u).congr ho finish_regMu fun _ => by rw [finish_slot]⟩
  · simpa only [finish_slot, ho] using h.free
  · simpa only [finish_slot, ho] using h.claim
  · simpa only [hh, ho] using h.handle
  · rw [finish_slot] at hi
    rw [ho]
    obtain ⟨k, hk, hk'⟩ := h.retiring i hi
    refine ⟨k, hk, ?_⟩
    obtain he | ⟨-, he⟩ | ⟨he, -⟩ := hu k
    · rwa [he]
    · rw [he] at hk'
      obtain hk' | ⟨u, hk'⟩ := hk' <;> cases hk'
    · exact .inl he
  · rw [hh] at hk
    rw [finish_slot, ho]
    obtain he | ⟨-, he⟩ | ⟨he, -⟩ := hu k
    · rw [he] at hk'; exact h.live k i hk hk'
    · exact h.live k i hk (.inr ⟨t, he⟩)
    · rw [he] at hk'
      obtain hk' | ⟨u, hk'⟩ := hk' <;> cases hk'

/-- What a call that ends leaves of the handles. -/
theorem Calls.finish_use (hc : Calls cfg s γ) {c : Call V} {r : Result}
    (he : endPlace cfg c r (γ t)) (k : Nat) : (finish cfg t c r s).use k = s.use k ∨
      ((finish cfg t c r s).use k = .ready ∧ s.use k = .pushing t) ∨
      ((finish cfg t c r s).use k = .gone ∧ s.use k = .retiring t) := by
  have hrole := endPlace_role he
  cases c with
  | push h v =>
    have hp := (hc.pushing t h v (hc.push hrole)).1
    have hu : (finish cfg t (.push h v) r s).use = upd s.use h.serial .ready := by
      cases r with
      | pushed ok => cases ok <;> rfl
      | _ => rfl
    rw [hu]
    by_cases hk : k = h.serial
    · subst hk; exact .inr (.inl ⟨upd_self _ _ _, hp⟩)
    · exact .inl (upd_ne _ _ hk)
  | retire h =>
    have hp := (hc.retiring t h (hc.retire hrole)).1
    by_cases hk : k = h.serial
    · subst hk; exact .inr (.inr ⟨upd_self _ _ _, hp⟩)
    · exact .inl (upd_ne _ _ hk)
  | register =>
    cases r with
    | registered i => cases i <;> exact .inl rfl
    | _ => exact .inl rfl
  | stop m => cases r <;> exact .inl rfl
  | _ => exact .inl rfl

theorem Owners.finishes (h : Owners cfg s γ) (hc : Calls cfg s γ) {c : Call V} {r : Result}
    (he : endPlace cfg c r (γ t)) : Owners cfg (finish cfg t c r s) (upd γ t .idle) := by
  by_cases hreg : c ≠ .register ∨ r = .registered none
  · exact h.leaves hreg (hc.finish_use he)
  · obtain ⟨rfl, hr⟩ : c = .register ∧ r ≠ .registered none := by
      simpa only [not_or, not_not] using hreg
    have hat := h.at_ t
    obtain ⟨hn, -⟩ | ⟨i, rfl, hg | ⟨-, hg⟩⟩ := he
    · exact absurd hn hr
    · rw [hg] at hat; exact h.gives hat
    · rw [hg] at hat; exact h.gives hat.1

end

variable (V Tid cfg) in
theorem owners_keeps (ok : Tid → Act V Tid → State V Tid → Prop) :
    (flow V Tid cfg).Keeps ok (Owners cfg) where
  init := by
    refine ⟨fun i => ⟨fun _ => rfl, fun _ => rfl⟩, nofun, nofun, nofun, nofun, fun _ => trivial⟩
  begin _ h t c _ he := h.begins he
  move hr h t a n s' r g _ hs hm := by
    obtain ⟨h1, rfl, h2⟩ := sem_some cfg hs
    exact h.move ((calls_keeps V Tid cfg _).reach hr) h1 h2 hm
  finish hr h t c r he := h.finishes ((calls_keeps V Tid cfg _).reach hr) he

end
end Katas.Weir.Pipeline
