import Katas.Weir.PipelineOwners

/-!
# What became of a handle's pushes

A push is counted before it returns: as pushed or as dropped, in the handle's
slot, unless it found the pipeline not accepting. So between its pushes, a
handle's record adds up.
-/
namespace Katas.Weir.Pipeline
open Katas.Conc Flow

section
variable {V Tid : Type} {cfg : Config}

def Who.outcome : Who V → Option Bool
  | .pushed _ _ => some true
  | .retired _ => none

def Waker.outcome : Waker V → Option Bool
  | .signal w => w.outcome
  | _ => none

/-- What a push is going to return, once it is counted or refused. -/
def Place.outcome : Place V Tid → Option Bool
  | .refused _ _ | .dropped _ _ => some false
  | .tests w | .sets w | .minds w | .wakes w | .signalled w => w.outcome
  | .notifies k | .unlocks k => k.outcome
  | _ => none

/-- A record, of whose pushes `n` have not returned, with outcome `o`. -/
structure Record.Tallies (r : Record V Tid) (n : Nat) (o : Option Bool) : Prop where
  begun : r.begun = r.accepted.length + r.rejected + n
  credited : r.credited = r.accepted.length + if o = some true then 1 else 0
  debited : r.debited + r.refused = r.rejected + if o = some false then 1 else 0

structure Tallies (s : State V Tid) (γ : Tid → Place V Tid) : Prop where
  fresh : ∀ k, s.handles.length ≤ k → s.record k = .init
  still : ∀ k, (∀ t, s.use k ≠ .pushing t) → (s.record k).Tallies 0 none
  pushing : ∀ t h v, (γ t).role = .push h v → (s.record h.serial).Tallies 1 (γ t).outcome

variable {g g' : Place V Tid}

theorem Entry.outcome (h : Entry cfg g) : g.outcome = none := by
  cases h <;> rfl

theorem wakeFrom_outcome (k : Waker V) : (wakeFrom k : Place V Tid).outcome = k.outcome := by
  cases k <;> rfl

theorem wakeTo_outcome (k : Waker V) : (wakeTo k : Place V Tid).outcome = k.outcome := by
  cases k <;> rfl

/-- Writes in the record of a handle. -/
def Act.records : Act V Tid → Bool
  | .acceptingLoad _ | .pushedAdd _ | .droppedAdd _ => true
  | _ => false

theorem Move.outcome {a : Act V Tid} {r : Resp a} (hm : Move cfg g a r g')
    (ha : a.records = false) : g'.outcome = g.outcome := by
  cases hm with
  | life hm => cases hm <;> rfl
  | wake hm =>
    cases hm with
    | lock k => exact (wakeFrom_outcome k).symm
    | notify k => rfl
    | unlock k => exact wakeTo_outcome k
    | send k => rw [wakeTo_outcome, wakeFrom_outcome]
  | register hm => cases hm <;> first | rfl | (split <;> rfl)
  | scan hm =>
    cases hm with
    | reclaim fin ids h => exact h.entry.outcome
    | _ => rfl
  | push hm =>
    cases hm with
    | accepting | count | drop => cases ha
    | test w b hs | mind w b => cases b <;> rfl
    | set | cached | see | pending => split <;> rfl
    | _ => rfl
  | drain hm =>
    cases hm with
    | word w r h => exact h.entry.outcome
    | ids clear l h => exact h.entry.outcome
    | flag clear i rest ids b h => exact h.entry.outcome
    | free k h => exact h.entry.outcome
    | used k h => exact (loopAt_entry cfg k 0).outcome
    | staged | spill | cached | look => split <;> rfl
    | copied k got h n out hn =>
      split
      · rfl
      · exact (loopAt_entry cfg k _).outcome
    | drained k got h => exact h.entry.outcome
    | flushed d total h => exact h.entry.outcome
    | write d total h => exact h.entry.outcome
    | lastFlushed h => exact h.entry.outcome
    | lastWrite h => exact h.entry.outcome
    | _ => rfl
  | reclaim hm =>
    cases hm with
    | skip hp h => exact h.entry.outcome
    | take hp h => exact h.entry.outcome
    | skips hp h => exact h.entry.outcome
    | takes h => exact h.entry.outcome
    | other l hst h => exact h.entry.outcome
    | filled l hc h => exact h.entry.outcome
    | addDropped l n => split <;> rfl
    | free l h => exact h.entry.outcome
    | _ => rfl
  | clear hm =>
    cases hm with
    | word w h => exact h.entry.outcome
    | filled i rest b hc h => exact h.entry.outcome
    | emptyAgain i rest b c h =>
      split at h
      · split at h
        · subst h; rfl
        · exact h.entry.outcome
      · subst h; rfl
    | other i rest b hst h => exact h.entry.outcome
    | restore i rest b zero h => exact h.entry.outcome
    | _ => rfl
  | park hm =>
    cases hm with
    | arm told => cases told <;> rfl
    | word | run => split <;> (try split) <;> rfl
    | disarm told => split <;> rfl
    | _ => rfl

end

section
variable {V Tid : Type} [DecidableEq Tid] [Inhabited V] [Inhabited Tid] {cfg : Config}
  {s s' : State V Tid} {γ : Tid → Place V Tid} {t : Tid} {g : Place V Tid} {a : Act V Tid} {n : Nat}

section
omit [Inhabited V] [Inhabited Tid]

theorem apply_record (h : a.records = false) : (apply cfg t a n s).record = s.record := by
  cases a with
  | acceptingLoad | pushedAdd | droppedAdd => cases h
  | stateCas i => unfold apply; dsimp only; split <;> rfl
  | stateStore i st => cases st <;> rfl
  | _ => rfl

/-- A step of a push, or of one that begins: it writes the record of its
handle. -/
theorem Tallies.writes (h : Tallies s γ) (hc : Calls cfg s γ) {k : Handle} {v : V}
    (hrole : (γ t).role = .push k v) (hg : g.role = .push k v) {r : Record V Tid}
    (hr : r.Tallies 1 g.outcome) (hh : s'.handles = s.handles) (hu : s'.use = s.use)
    (hrec : s'.record = upd s.record k.serial r) : Tallies s' (upd γ t g) := by
  obtain ⟨huse, hk⟩ := hc.pushing t k v (hc.push hrole)
  refine ⟨fun j hj => ?_, fun j hj => ?_, fun u k' v' hu' => ?_⟩
  · rw [hh] at hj
    rw [hrec, upd_ne]
    · exact h.fresh j hj
    · rintro rfl
      obtain ⟨hlt, -⟩ := List.getElem?_eq_some_iff.mp hk
      omega
  · rw [hu] at hj
    rw [hrec, upd_ne]
    · exact h.still j hj
    · rintro rfl
      exact hj t huse
  · by_cases ht : u = t
    · subst ht
      rw [upd_self] at hu' ⊢
      rw [hg] at hu'
      cases hu'
      rw [hrec, upd_self]
      exact hr
    · rw [upd_ne _ _ ht] at hu' ⊢
      rw [hrec, upd_ne]
      · exact h.pushing u k' v' hu'
      · intro hs
        have := (hc.pushing u k' v' (hc.push hu')).1
        rw [hs, huse] at this
        cases this
        exact ht rfl

/-- A step of another call. -/
theorem Tallies.same (h : Tallies s γ) (hh : s'.handles = s.handles) (hr : s'.record = s.record)
    (hu : ∀ k, (∀ w, s'.use k ≠ .pushing w) → ∀ w, s.use k ≠ .pushing w)
    (hg : ∀ k v, g.role ≠ .push k v) : Tallies s' (upd γ t g) := by
  refine ⟨by rw [hh, hr]; exact h.fresh, fun k hk => by rw [hr]; exact h.still k (hu k hk),
    fun u k v hrole => ?_⟩
  rw [hr]
  by_cases ht : u = t
  · subst ht
    rw [upd_self] at hrole
    exact absurd hrole (hg k v)
  · rw [upd_ne _ _ ht] at hrole ⊢
    exact h.pushing u k v hrole

theorem Tallies.move (h : Tallies s γ) (hc : Calls cfg s γ) {r : Resp a}
    (hr : r = reply cfg n s a) (hm : Move cfg (γ t) a r g) :
    Tallies (apply cfg t a n s) (upd γ t g) := by
  by_cases ha : a.records = false
  · refine ⟨?_, ?_, fun u k v hu => ?_⟩
    · rw [apply_handles, apply_record ha]; exact h.fresh
    · rw [apply_use, apply_record ha]; exact h.still
    · rw [apply_record ha]
      by_cases ht : u = t
      · subst ht
        rw [upd_self] at hu ⊢
        rw [hm.outcome ha]
        exact h.pushing u k v (hm.role.symm.trans hu)
      · rw [upd_ne _ _ ht] at hu ⊢
        exact h.pushing u k v hu
  · have hold := h.pushing t
    generalize hγ : γ t = g₀ at hm hold
    cases hm with
    | push hm =>
      cases hm with
      | accepting k v b =>
        obtain ⟨h1, h2, h3⟩ := hold k v rfl
        refine h.writes hc (k := k) (v := v) (by rw [hγ]; rfl) (by cases b <;> rfl) ?_ rfl rfl rfl
        have hb : b = s.accepting := hr
        subst hb
        refine ⟨h1, ?_, ?_⟩
        · cases s.accepting <;> exact h2
        · cases hacc : s.accepting with
          | false => exact congrArg (· + 1) h3
          | true => exact h3
      | count k v =>
        obtain ⟨h1, h2, h3⟩ := hold k v rfl
        refine h.writes hc (k := k) (v := v) (by rw [hγ]; rfl) rfl ?_ rfl rfl rfl
        exact ⟨h1, congrArg (· + 1) h2, h3⟩
      | drop k v =>
        obtain ⟨h1, h2, h3⟩ := hold k v rfl
        refine h.writes hc (k := k) (v := v) (by rw [hγ]; rfl) rfl ?_ rfl rfl rfl
        refine ⟨h1, h2, ?_⟩
        show (s.record k.serial).debited + 1 + (s.record k.serial).refused = _ + 1
        rw [Nat.add_right_comm]
        exact congrArg (· + 1) h3
      | _ => exact absurd rfl ha
    | life hm =>
      cases hm with
      | @waits a _ hw => cases a <;> first | exact absurd rfl ha | cases hw
      | _ => exact absurd rfl ha
    | _ hm => cases hm <;> exact absurd rfl ha

theorem Tallies.begins (h : Tallies s γ) (hc : Calls cfg s γ) {c : Call V} (hi : γ t = .idle)
    (he : enabled cfg s c = true) : Tallies (begin cfg t c s) (upd γ t (startPlace c)) := by
  cases c with
  | push k v =>
    obtain ⟨hk, hready⟩ : s.handles[k.serial]? = some k.id ∧ s.use k.serial = .ready := by
      simpa [enabled, usable] using he
    obtain ⟨h1, h2, h3⟩ := h.still k.serial fun w hw => by rw [hready] at hw; cases hw
    refine ⟨fun j hj => ?_, fun j hj => ?_, fun u k' v' hu => ?_⟩
    · refine (upd_ne _ _ ?_).trans (h.fresh j hj)
      rintro rfl
      obtain ⟨hlt, -⟩ := List.getElem?_eq_some_iff.mp hk
      exact absurd hj (Nat.not_le.mpr hlt)
    · have hj : ∀ w, upd s.use k.serial (.pushing t) j ≠ .pushing w := hj
      show (upd s.record k.serial _ j).Tallies 0 none
      by_cases hs : j = k.serial
      · subst hs
        exact absurd (upd_self _ _ _) (hj t)
      · rw [upd_ne _ _ hs] at hj ⊢
        exact h.still j hj
    · show (upd s.record k.serial _ k'.serial).Tallies 1 _
      by_cases ht : u = t
      · subst ht
        rw [upd_self] at hu ⊢
        cases hu
        rw [upd_self]
        exact ⟨congrArg (· + 1) h1, h2, h3⟩
      · rw [upd_ne _ _ ht] at hu ⊢
        rw [upd_ne]
        · exact h.pushing u k' v' hu
        · intro hs
          have := (hc.pushing u k' v' (hc.push hu)).1
          rw [hs, hready] at this
          cases this
  | retire k =>
    obtain ⟨-, hready⟩ : s.handles[k.serial]? = some k.id ∧ s.use k.serial = .ready := by
      simpa [enabled, usable] using he
    refine h.same rfl rfl (fun j hj w hw => ?_) fun _ _ h => by cases h
    by_cases hs : j = k.serial
    · subst hs
      rw [hready] at hw; cases hw
    · exact hj w ((upd_ne _ _ hs).trans hw)
  | _ => exact h.same rfl rfl (fun _ hj => hj) fun _ _ h => by cases h

/-- The end of a push. -/
theorem Tallies.returns (h : Tallies s γ) (hc : Calls cfg s γ) {k : Handle} {v : V} {r : Result}
    (he : endPlace cfg (.push k v) r (γ t)) :
    Tallies (finish cfg t (.push k v) r s) (upd γ t .idle) := by
  have hrole : (γ t).role = .push k v := endPlace_role he
  obtain ⟨huse, hk⟩ := hc.pushing t k v (hc.push hrole)
  have hold := h.pushing t k v hrole
  obtain ⟨r', hr', hrec, hu, hh⟩ : ∃ r' : Record V Tid, r'.Tallies 0 none ∧
      (finish cfg t (.push k v) r s).record = upd s.record k.serial r' ∧
      (finish cfg t (.push k v) r s).use = upd s.use k.serial .ready ∧
      (finish cfg t (.push k v) r s).handles = s.handles := by
    obtain ⟨rfl, hg⟩ | ⟨rfl, hg⟩ := he
    · have ho : (γ t).outcome = some false := by obtain hg | hg := hg <;> rw [hg] <;> rfl
      rw [ho] at hold
      obtain ⟨h1, h2, h3⟩ := hold
      refine ⟨_, ?_, rfl, rfl, rfl⟩
      exact ⟨h1, h2, h3⟩
    · have ho : (γ t).outcome = some true := by obtain hg | ⟨-, hg⟩ := hg <;> rw [hg] <;> rfl
      rw [ho] at hold
      obtain ⟨h1, h2, h3⟩ := hold
      refine ⟨_, ?_, rfl, rfl, rfl⟩
      refine ⟨?_, ?_, h3⟩
      · rw [List.length_append]
        show (s.record k.serial).begun =
          (s.record k.serial).accepted.length + 1 + (s.record k.serial).rejected
        omega
      · rw [List.length_append]
        exact h2
  refine ⟨fun j hj => ?_, fun j hj => ?_, fun u k' v' hu' => ?_⟩
  · rw [hh] at hj
    rw [hrec, upd_ne]
    · exact h.fresh j hj
    · rintro rfl
      obtain ⟨hlt, -⟩ := List.getElem?_eq_some_iff.mp hk
      omega
  · rw [hu] at hj
    rw [hrec]
    by_cases hs : j = k.serial
    · subst hs
      rw [upd_self]
      exact hr'
    · rw [upd_ne _ _ hs]
      refine h.still j fun w hw => hj w ?_
      rw [upd_ne _ _ hs]
      exact hw
  · by_cases ht : u = t
    · subst ht
      rw [upd_self] at hu'
      cases hu'
    · rw [upd_ne _ _ ht] at hu' ⊢
      rw [hrec, upd_ne]
      · exact h.pushing u k' v' hu'
      · intro hs
        have := (hc.pushing u k' v' (hc.push hu')).1
        rw [hs, huse] at this
        cases this
        exact ht rfl

theorem Tallies.finishes (h : Tallies s γ) (hc : Calls cfg s γ) {c : Call V} {r : Result}
    (he : endPlace cfg c r (γ t)) : Tallies (finish cfg t c r s) (upd γ t .idle) := by
  have hidle : ∀ k v, (Place.idle : Place V Tid).role ≠ .push k v := by
    intro k v hk
    cases hk
  cases c with
  | push k v => exact h.returns hc he
  | register =>
    obtain ⟨rfl, -⟩ | ⟨i, rfl, -⟩ := he
    · exact h.same rfl rfl (fun _ hj => hj) hidle
    · have hsame : Tallies { s with handles := s.handles ++ [i] } (upd γ t .idle) := by
        have h' : Tallies s (upd γ t .idle) := h.same rfl rfl (fun _ hj => hj) hidle
        refine ⟨fun k hk => h'.fresh k ?_, h'.still, h'.pushing⟩
        have hk : (s.handles ++ [i]).length ≤ k := hk
        rw [List.length_append] at hk
        omega
      exact ⟨hsame.fresh, hsame.still, hsame.pushing⟩
  | retire k =>
    refine h.same rfl rfl (fun j hj w hw => ?_) hidle
    by_cases hs : j = k.serial
    · subst hs
      have := (hc.retiring t k (hc.retire (endPlace_role he))).1
      rw [hw] at this
      cases this
    · exact hj w ((upd_ne _ _ hs).trans hw)
  | stop m => obtain ⟨rfl, -⟩ | ⟨rfl, -⟩ := he <;> exact h.same rfl rfl (fun _ hj => hj) hidle
  | start | consume => exact h.same rfl rfl (fun _ hj => hj) hidle

end

variable (V Tid cfg) in
theorem tallies_keeps (ok : Tid → Act V Tid → State V Tid → Prop) :
    (flow V Tid cfg).Keeps ok Tallies where
  init := ⟨fun _ _ => rfl, fun _ _ => ⟨rfl, rfl, rfl⟩, fun _ _ _ h => by cases h⟩
  begin hr h t c hi he := h.begins ((calls_keeps V Tid cfg _).reach hr) hi he
  move hr h t a n s' r g _ hs hm := by
    obtain ⟨-, rfl, h2⟩ := sem_some cfg hs
    exact h.move ((calls_keeps V Tid cfg _).reach hr) h2 hm
  finish hr h t c r he := h.finishes ((calls_keeps V Tid cfg _).reach hr) he

end
end Katas.Weir.Pipeline
