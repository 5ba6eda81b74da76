import Katas.Weir.PipelineBits
import Katas.Weir.PipelineLandings
import Katas.Weir.PipelineReclaim

/-!
# The registry of the Python pipeline

`active_ids` looks at the flags of the slots in a tuple, which is rebuilt from a
scan of all slots after each change: by a registration, under the lock, and by
the consumer, without it. A tuple that is stored after another thread has
changed a slot that its scan had read is out of date. In a run whose tuples
(`storesCurrent`) are not, the tuple has the slots in use.
-/
namespace Katas.Weir.Pipeline
open Katas.Conc Flow

section
variable {V Tid : Type} (cfg : Config)

/-- A slot is changed, and the tuple with the change is on its way. -/
def Place.rebuilds : Place V Tid → Prop
  | .scans _ _ _ => True
  | .reclaims _ l => l.changed = true
  | _ => False

/-- What a scan has read and not seen changed. -/
def ReadAt (s : State V Tid) (t : Tid) : Place V Tid → Prop
  | .scans _ rest ids => ∃ done, List.range cfg.producers = done ++ rest ∧ ∀ i,
      (i ∈ ids → i ∈ done) ∧
        (s.fresh t i = true → i ∈ done ∧ (i ∈ ids ↔ (s.slot i).state ≠ .free))
  | _ => ∀ i, s.fresh t i = false

structure Registry (s : State V Tid) (γ : Tid → Place V Tid) : Prop where
  kept : ∀ i, i < cfg.producers → s.owed i = none →
    (i ∈ s.registered ↔ (s.slot i).state ≠ .free)
  owes : ∀ i t, s.owed i = some t → (γ t).rebuilds
  at_ : ∀ t, ReadAt cfg s t (γ t)

/-- A tuple is stored while what its scan has read still holds, but for changes
whose own tuple is still to come. -/
def storesCurrent (t : Tid) (a : Act V Tid) (s : State V Tid) : Prop :=
  match a with
  | .registeredStore _ => ∀ i, i < cfg.producers →
      s.fresh t i = true ∨ ∃ u, u ≠ t ∧ s.owed i = some u
  | _ => True

/-- Reads a slot in a scan, or stores the tuple. -/
def Act.scans : Act V Tid → Bool
  | .stateLoad .scan _ | .registeredStore _ => true
  | _ => false

/-- Changes a slot from or to free. -/
def Act.claimsOrFrees : Act V Tid → Bool
  | .stateCas _ | .stateStore _ .active | .stateStore _ .free => true
  | _ => false

/-- No scan, or one that begins. -/
def Place.begins : Place V Tid → Prop
  | .scans _ rest l => rest = List.range cfg.producers ∧ l = []
  | _ => True

variable {cfg} {g g' : Place V Tid}

theorem Landing.begins (h : Landing cfg g) : g.begins cfg := by
  unfold Place.begins
  split
  · cases h
    exact ⟨rfl, rfl⟩
  · trivial

theorem loopAt_begins (k : Spot) (got : Nat) : (loopAt cfg k got : Place V Tid).begins cfg := by
  unfold loopAt
  split <;> trivial

/-- After a change, the reclaim ends in a scan. -/
theorem ReclaimAt.rebuilds {rest : List Nat} {fin : Bool} (hp : cfg.port = .python)
    (h : ReclaimAt cfg rest true fin g) : g.rebuilds := by
  unfold ReclaimAt at h
  cases rest with
  | cons i rest => subst h; rfl
  | nil =>
    dsimp only at h
    rw [if_pos ⟨hp, rfl⟩] at h
    subst h
    trivial

/-- Outside a scan, a move goes on, begins a scan, and keeps what is to be
rebuilt. -/
theorem Move.rebuilds {a : Act V Tid} {r : Resp a} (hp : cfg.port = .python)
    (hm : Move cfg g a r g') (ha : a.scans = false) :
    (∀ w rest ids, g ≠ .scans w rest ids) ∧ g'.begins cfg ∧ (g.rebuilds → g'.rebuilds) ∧
      (a.claimsOrFrees = true → g'.rebuilds) := by
  have hout : ∀ {g g' : Place V Tid} {a : Act V Tid}, (∀ w rest ids, g ≠ .scans w rest ids) →
      ¬ g.rebuilds → a.claimsOrFrees = false → g'.begins cfg →
      (∀ w rest ids, g ≠ .scans w rest ids) ∧ g'.begins cfg ∧ (g.rebuilds → g'.rebuilds) ∧
        (a.claimsOrFrees = true → g'.rebuilds) :=
    fun h1 h2 h3 h4 => ⟨h1, h4, fun h => absurd h h2, fun h => by rw [h3] at h; cases h⟩
  cases hm with
  | life hm =>
    cases hm with
    | @waits a _ hw =>
      refine hout (fun _ _ _ h => by cases h) id ?_ trivial
      cases a <;> first | rfl | cases hw
    | _ => exact hout (fun _ _ _ h => by cases h) id rfl trivial
  | wake hm =>
    cases hm with
    | lock k | notify k | unlock k | send k =>
      cases k <;> exact hout (fun _ _ _ h => by cases h) id rfl trivial
  | register hm =>
    cases hm with
    | cas i won hi hc | casLocked i won hi hc => rw [hp] at hc; cases hc
    | finds i st => refine hout (fun _ _ _ h => by cases h) id rfl ?_; split <;> trivial
    | activates i =>
      exact ⟨fun _ _ _ h => (by cases h), ⟨rfl, rfl⟩, fun h => (by cases h), fun _ => trivial⟩
    | _ => exact hout (fun _ _ _ h => by cases h) id rfl trivial
  | scan hm => cases hm <;> cases ha
  | push hm =>
    cases hm with
    | test w b hs | mind w b | accepting h v b =>
      cases b <;> exact hout (fun _ _ _ h => by cases h) id rfl trivial
    | set | cached | see | pending =>
      refine hout (fun _ _ _ h => by cases h) id rfl ?_; split <;> trivial
    | _ => exact hout (fun _ _ _ h => by cases h) id rfl trivial
  | drain hm =>
    cases hm with
    | free k h =>
      refine hout (fun _ _ _ h => by cases h) id ?_ h.landing.begins
      cases k.drain <;> rfl
    | used k h =>
      refine hout (fun _ _ _ h => by cases h) id ?_ (loopAt_begins k 0)
      cases k.drain <;> rfl
    | staged | spill | cached | look =>
      refine hout (fun _ _ _ h => by cases h) id rfl ?_; split <;> trivial
    | copied k got h n out hn =>
      refine hout (fun _ _ _ h => by cases h) id rfl ?_
      split
      · trivial
      · exact loopAt_begins k _
    | word w r h => exact hout (fun _ _ _ h => by cases h) id rfl h.landing.begins
    | ids clear l h => exact hout (fun _ _ _ h => by cases h) id rfl h.landing.begins
    | flag clear i rest ids b h => exact hout (fun _ _ _ h => by cases h) id rfl h.landing.begins
    | drained k got h => exact hout (fun _ _ _ h => by cases h) id rfl h.landing.begins
    | flushed d total h => exact hout (fun _ _ _ h => by cases h) id rfl h.landing.begins
    | write d total h => exact hout (fun _ _ _ h => by cases h) id rfl h.landing.begins
    | lastFlushed h => exact hout (fun _ _ _ h => by cases h) id rfl h.landing.begins
    | lastWrite h => exact hout (fun _ _ _ h => by cases h) id rfl h.landing.begins
    | _ => exact hout (fun _ _ _ h => by cases h) id rfl trivial
  | reclaim hm =>
    cases hm with
    | skip hq h => exact absurd hp hq
    | take hq h => exact absurd hp hq
    | skips hq h => exact hout (fun _ _ _ h => by cases h) id rfl h.landing.begins
    | takes h => exact hout (fun _ _ _ h => by cases h) id rfl h.landing.begins
    | finds => exact hout (fun _ _ _ h => by cases h) id rfl trivial
    | other l hst h | filled l hc h =>
      refine ⟨fun _ _ _ h => (by cases h), h.landing.begins, fun hl => ?_, fun h => by cases h⟩
      have hl : l.changed = true := hl
      rw [hl] at h
      exact h.rebuilds hp
    | addDropped l n =>
      rw [if_pos hp]
      exact ⟨fun _ _ _ h => (by cases h), trivial, id, fun h => by cases h⟩
    | free l h =>
      exact ⟨fun _ _ _ h => (by cases h), h.landing.begins, fun _ => h.rebuilds hp,
        fun _ => h.rebuilds hp⟩
    | _ => exact ⟨fun _ _ _ h => (by cases h), trivial, id, fun h => by cases h⟩
  | clear hm =>
    cases hm with
    | word w h => exact hout (fun _ _ _ h => by cases h) id rfl h.landing.begins
    | filled i rest b hc h => exact hout (fun _ _ _ h => by cases h) id rfl h.landing.begins
    | emptyAgain i rest b c h =>
      refine hout (fun _ _ _ h => by cases h) id rfl ?_
      rw [if_pos hp] at h
      split at h
      · subst h; trivial
      · exact h.landing.begins
    | other i rest b hst h => exact hout (fun _ _ _ h => by cases h) id rfl h.landing.begins
    | restore i rest b zero h => exact hout (fun _ _ _ h => by cases h) id rfl h.landing.begins
    | _ => exact hout (fun _ _ _ h => by cases h) id rfl trivial
  | park hm =>
    cases hm with
    | arm told => cases told <;> exact hout (fun _ _ _ h => by cases h) id rfl trivial
    | word | run =>
      refine hout (fun _ _ _ h => by cases h) id rfl ?_; split <;> (try split) <;> trivial
    | disarm told => refine hout (fun _ _ _ h => by cases h) id rfl ?_; split <;> trivial
    | _ => exact hout (fun _ _ _ h => by cases h) id rfl trivial

end

section
variable {V Tid : Type} [DecidableEq Tid] [Inhabited V] [Inhabited Tid] {cfg : Config}
  {s s' : State V Tid} {γ : Tid → Place V Tid} {t : Tid} {g : Place V Tid} {a : Act V Tid} {n : Nat}

omit [Inhabited V] [Inhabited Tid] in
variable (cfg s t n) in
theorem apply_registry (hs : a.scans = false) (ha : a.claimsOrFrees = false) :
    (apply cfg t a n s).registered = s.registered ∧ (apply cfg t a n s).owed = s.owed ∧
      (apply cfg t a n s).fresh = s.fresh ∧ (apply cfg t a n s).owner = s.owner := by
  cases a with
  | stateLoad site i => cases site <;> first | exact ⟨rfl, rfl, rfl, rfl⟩ | cases hs
  | stateStore i st => cases st <;> first | exact ⟨rfl, rfl, rfl, rfl⟩ | cases ha
  | registeredStore => cases hs
  | stateCas => cases ha
  | _ => exact ⟨rfl, rfl, rfl, rfl⟩

section
omit [DecidableEq Tid] [Inhabited V] [Inhabited Tid]

theorem ReadAt.congr (h : ReadAt cfg s t g)
    (hf : ∀ i, s'.fresh t i = true → s.fresh t i = true ∧
      ((s'.slot i).state = .free ↔ (s.slot i).state = .free)) : ReadAt cfg s' t g := by
  cases g with
  | scans w rest ids =>
    obtain ⟨done, hd, hread⟩ := h
    refine ⟨done, hd, fun i => ⟨(hread i).1, fun hi => ?_⟩⟩
    obtain ⟨hi, hs⟩ := hf i hi
    obtain ⟨h1, h2⟩ := (hread i).2 hi
    exact ⟨h1, h2.trans (not_congr hs.symm)⟩
  | _ =>
    intro i
    cases hi : s'.fresh t i with
    | false => rfl
    | true => exact absurd (hf i hi).1 (by rw [h i]; exact Bool.false_ne_true)

theorem ReadAt.of_begins (h : g.begins cfg) (hf : ∀ i, s.fresh t i = false) :
    ReadAt cfg s t g := by
  cases g with
  | scans w rest ids =>
    obtain ⟨rfl, rfl⟩ := h
    refine ⟨[], rfl, fun i => ⟨id, fun hi => ?_⟩⟩
    rw [hf i] at hi
    cases hi
  | _ => exact hf

/-- Outside a scan nothing is read. -/
theorem ReadAt.fresh (h : ReadAt cfg s t g) (hg : ∀ w rest ids, g ≠ .scans w rest ids) (i : Nat) :
    s.fresh t i = false := by
  cases g with
  | scans w rest ids => exact absurd rfl (hg w rest ids)
  | _ => exact h i

end

section
omit [Inhabited V] [Inhabited Tid]

/-- A step that neither reads in a scan, nor stores the tuple, nor changes who
is free. -/
theorem Registry.same (h : Registry cfg s γ) (hr : s'.registered = s.registered)
    (ho : s'.owed = s.owed) (hf : s'.fresh = s.fresh)
    (hs : ∀ i, (s'.slot i).state = .free ↔ (s.slot i).state = .free)
    (hg : (∀ i, s.fresh t i = false) ∧ g.begins cfg) (hb : (γ t).rebuilds → g.rebuilds) :
    Registry cfg s' (upd γ t g) := by
  refine ⟨fun i hi how => ?_, fun i u how => ?_, fun u => ?_⟩
  · rw [ho] at how
    rw [hr]
    exact (h.kept i hi how).trans (not_congr (hs i).symm)
  · rw [ho] at how
    by_cases hu : u = t
    · subst hu
      rw [upd_self]
      exact hb (h.owes i u how)
    · rw [upd_ne _ _ hu]
      exact h.owes i u how
  · by_cases hu : u = t
    · subst hu
      rw [upd_self]
      exact .of_begins hg.2 fun i => by rw [hf]; exact hg.1 i
    · rw [upd_ne _ _ hu]
      exact (h.at_ u).congr fun i hi => ⟨congrFun (congrFun hf u) i ▸ hi, hs i⟩

/-- A slot is claimed, or freed. -/
theorem Registry.turns (h : Registry cfg s γ) {i : Nat}
    (hr : s'.registered = s.registered) (ho : s'.owed = upd s.owed i (some t))
    (hf : ∀ u, s'.fresh u = upd (s.fresh u) i false)
    (hs : ∀ j, j ≠ i → (s'.slot j).state = (s.slot j).state)
    (hfresh : ∀ j, s.fresh t j = false) (hg : g.begins cfg) (hb : g.rebuilds) :
    Registry cfg s' (upd γ t g) := by
  refine ⟨fun j hj how => ?_, fun j u how => ?_, fun u => ?_⟩
  · rw [ho] at how
    by_cases hi : j = i
    · subst hi
      rw [upd_self] at how
      cases how
    · rw [upd_ne _ _ hi] at how
      rw [hr, hs j hi]
      exact h.kept j hj how
  · rw [ho] at how
    by_cases hu : u = t
    · subst hu
      rw [upd_self]
      exact hb
    · rw [upd_ne _ _ hu]
      by_cases hi : j = i
      · subst hi
        rw [upd_self] at how
        cases how
        exact absurd rfl hu
      · rw [upd_ne _ _ hi] at how
        exact h.owes j u how
  · by_cases hu : u = t
    · subst hu
      rw [upd_self]
      refine .of_begins hg fun j => ?_
      rw [hf]
      by_cases hi : j = i
      · subst hi; exact upd_self _ _ _
      · exact (upd_ne _ _ hi).trans (hfresh j)
    · rw [upd_ne _ _ hu]
      refine (h.at_ u).congr fun j hj => ?_
      rw [hf] at hj
      by_cases hi : j = i
      · subst hi
        rw [upd_self] at hj
        cases hj
      · rw [upd_ne _ _ hi] at hj
        exact ⟨hj, by rw [hs j hi]⟩

/-- A scan reads its next slot. -/
theorem Registry.reads (h : Registry cfg s γ) {w : Scanner} {i : Nat} {rest ids : List Nat}
    {st : SlotState} (hγ : γ t = .scans w (i :: rest) ids) (hst : st = (s.slot i).state)
    (hr : s'.registered = s.registered) (ho : s'.owed = s.owed)
    (hf : s'.fresh = upd s.fresh t (upd (s.fresh t) i true))
    (hs : ∀ j, (s'.slot j).state = (s.slot j).state) :
    Registry cfg s' (upd γ t (.scans w rest (if st = .free then ids else ids ++ [i]))) := by
  refine ⟨fun j hj how => ?_, fun j u how => ?_, fun u => ?_⟩
  · rw [ho] at how
    rw [hr, hs]
    exact h.kept j hj how
  · rw [ho] at how
    by_cases hu : u = t
    · subst hu
      rw [upd_self]
      trivial
    · rw [upd_ne _ _ hu]
      exact h.owes j u how
  · by_cases hu : u = t
    · subst hu
      rw [upd_self]
      have hat := h.at_ u
      rw [hγ] at hat
      obtain ⟨done, hd, hread⟩ := hat
      have hnew : i ∉ done := by
        have hnd : (done ++ i :: rest).Nodup := by rw [← hd]; exact List.nodup_range
        exact fun hi => (List.nodup_append.mp hnd).2.2 i hi i List.mem_cons_self rfl
      have hids : ∀ j, j ∈ (if st = .free then ids else ids ++ [i]) ↔
          j ∈ ids ∨ j = i ∧ st ≠ .free := by
        intro j
        split
        · rename_i hfree
          simp [hfree]
        · rename_i hfree
          simp [hfree]
      refine ⟨done ++ [i], by rw [List.append_assoc]; exact hd, fun j => ⟨fun hj => ?_, fun hj => ?_⟩⟩
      · obtain hj | ⟨rfl, -⟩ := (hids j).mp hj
        · exact List.mem_append_left _ ((hread j).1 hj)
        · simp
      · rw [hf, upd_self] at hj
        rw [hs, hids]
        by_cases hi : j = i
        · subst hi
          refine ⟨by simp, ?_⟩
          rw [hst]
          exact ⟨fun h => h.elim (fun h => absurd ((hread j).1 h) hnew) And.right,
            fun h => .inr ⟨rfl, h⟩⟩
        · rw [upd_ne _ _ hi] at hj
          obtain ⟨hdone, hmem⟩ := (hread j).2 hj
          refine ⟨List.mem_append_left _ hdone, ?_⟩
          rw [← hmem]
          exact ⟨fun h => h.elim id fun h => absurd h.1 hi, .inl⟩
    · rw [upd_ne _ _ hu]
      exact (h.at_ u).congr fun j hj => ⟨by rwa [hf, upd_ne _ _ hu] at hj, by rw [hs]⟩

/-- A tuple that is current is stored. -/
theorem Registry.stores (h : Registry cfg s γ) {w : Scanner} {ids : List Nat}
    (hγ : γ t = .scans w [] ids)
    (hok : ∀ i, i < cfg.producers → s.fresh t i = true ∨ ∃ u, u ≠ t ∧ s.owed i = some u)
    (hr : s'.registered = ids) (ho : s'.owed = fun i => if s.owed i = some t then none else s.owed i)
    (hf : s'.fresh = upd s.fresh t fun _ => false)
    (hs : ∀ j, (s'.slot j).state = (s.slot j).state) (hg : g.begins cfg) :
    Registry cfg s' (upd γ t g) := by
  have hat := h.at_ t
  rw [hγ] at hat
  obtain ⟨done, -, hread⟩ := hat
  refine ⟨fun i hi how => ?_, fun i u how => ?_, fun u => ?_⟩
  · rw [ho] at how
    rw [hr, hs]
    obtain hi | ⟨u, hu, hi⟩ := hok i hi
    · exact ((hread i).2 hi).2
    · dsimp only at how
      rw [hi, if_neg fun h => hu (Option.some.inj h)] at how
      cases how
  · rw [ho] at how
    dsimp only at how
    split at how
    · cases how
    · rename_i hne
      have hu : u ≠ t := by
        rintro rfl
        exact hne how
      rw [upd_ne _ _ hu]
      exact h.owes i u how
  · by_cases hu : u = t
    · subst hu
      rw [upd_self]
      exact .of_begins hg fun i => by rw [hf, upd_self]
    · rw [upd_ne _ _ hu]
      exact (h.at_ u).congr fun j hj => ⟨by rwa [hf, upd_ne _ _ hu] at hj, by rw [hs]⟩

theorem Registry.move (h : Registry cfg s γ) (hp : cfg.port = .python) (ho : Owners cfg s γ)
    (ho' : Owners cfg (apply cfg t a n s) (upd γ t g)) (hok : storesCurrent cfg t a s)
    {r : Resp a} (hr : r = reply cfg n s a) (hm : Move cfg (γ t) a r g) :
    Registry cfg (apply cfg t a n s) (upd γ t g) := by
  by_cases hs : a.scans = false
  · obtain ⟨hout, hbegins, hkeep, hturn⟩ := hm.rebuilds hp hs
    have hfresh := (h.at_ t).fresh hout
    by_cases ha : a.claimsOrFrees = false
    · obtain ⟨h1, h2, h3, h4⟩ := apply_registry cfg s t n hs ha
      refine h.same h1 h2 h3 (fun i => ?_) ⟨hfresh, hbegins⟩ hkeep
      rw [ho'.free, ho.free, h4]
    · have hb := hturn (Bool.not_eq_false _ ▸ ha)
      generalize γ t = g₀ at hm
      cases hm with
      | register hm =>
        cases hm with
        | cas i won hi hc | casLocked i won hi hc => rw [hp] at hc; cases hc
        | activates i =>
          exact h.turns rfl rfl (fun _ => rfl)
            (fun j hj => congrArg Slot.state (if_neg hj)) hfresh hbegins hb
        | _ => exact absurd rfl ha
      | reclaim hm =>
        cases hm with
        | free l hl =>
          exact h.turns rfl rfl (fun _ => rfl)
            (fun j hj => congrArg Slot.state (if_neg hj)) hfresh hbegins hb
        | _ => exact absurd rfl ha
      | life hm =>
        cases hm with
        | @waits a _ hw => cases a <;> first | exact absurd rfl ha | cases hw
        | _ => exact absurd rfl ha
      | _ hm => cases hm <;> exact absurd rfl ha
  · generalize hγ : γ t = g₀ at hm
    cases hm with
    | scan hm =>
      cases hm with
      | load w i rest ids st =>
        exact h.reads hγ hr rfl rfl rfl fun j => rfl
      | register i ids => exact h.stores hγ hok rfl rfl rfl (fun _ => rfl) trivial
      | reclaim fin ids hl => exact h.stores hγ hok rfl rfl rfl (fun _ => rfl) hl.landing.begins
    | drain hm =>
      cases hm with
      | free k | used k => cases hk : k.drain <;> rw [hk] at hs <;> exact absurd rfl hs
      | _ => exact absurd rfl hs
    | life hm =>
      cases hm with
      | @waits a _ hw =>
        cases a with
        | stateLoad site i => cases site <;> first | exact absurd rfl hs | cases hw
        | _ => first | exact absurd rfl hs | cases hw
      | _ => exact absurd rfl hs
    | _ hm => cases hm <;> exact absurd rfl hs

end

omit [DecidableEq Tid] [Inhabited V] [Inhabited Tid] in
theorem endPlace_rebuilds {c : Call V} {r : Result} (h : endPlace cfg c r g) :
    (∀ w rest ids, g ≠ .scans w rest ids) ∧ ¬ g.rebuilds := by
  cases c with
  | stop m => obtain ⟨-, rfl⟩ | ⟨-, rfl⟩ := h <;> exact ⟨fun _ _ _ h => (by cases h), id⟩
  | register =>
    obtain ⟨-, rfl⟩ | ⟨i, -, rfl | ⟨-, rfl⟩⟩ := h <;> exact ⟨fun _ _ _ h => (by cases h), id⟩
  | push k v =>
    obtain ⟨-, rfl | rfl⟩ | ⟨-, rfl | ⟨-, rfl⟩⟩ := h <;> exact ⟨fun _ _ _ h => (by cases h), id⟩
  | start | retire | consume => obtain ⟨-, rfl⟩ := h; exact ⟨fun _ _ _ h => (by cases h), id⟩

variable (V Tid cfg) in
theorem registry_keeps (hp : cfg.port = .python) :
    (flow V Tid cfg).Keeps (storesCurrent cfg) (Registry cfg) where
  init := ⟨fun i _ _ => ⟨fun h => (by cases h), fun h => absurd rfl h⟩, fun _ _ h => (by cases h),
    fun _ _ => rfl⟩
  begin {s γ} _ h t c hi _ := by
    have hi : γ t = .idle := hi
    have hfresh := (h.at_ t).fresh (by rw [hi]; exact fun _ _ _ h => by cases h)
    refine h.same ?_ ?_ ?_ ?_ ⟨hfresh, ?_⟩ fun hb => ?_
    · show (begin cfg t c s).registered = _
      rw [begin_eq]
    · show (begin cfg t c s).owed = _
      rw [begin_eq]
    · show (begin cfg t c s).fresh = _
      rw [begin_eq]
    · intro i
      show ((begin cfg t c s).slot i).state = _ ↔ _
      rw [begin_eq]
    · cases c <;> trivial
    · rw [hi] at hb
      cases hb
  move hr h t a n s' r g ha hs hm := by
    have ho' := (owners_keeps V Tid cfg _).reach (hr.step (.move t a n ha hs hm))
    obtain ⟨-, rfl, h2⟩ := sem_some cfg hs
    exact h.move hp ((owners_keeps V Tid cfg _).reach hr) ho' ha h2 hm
  finish {s γ} _ h t c r he := by
    obtain ⟨hout, hnot⟩ := endPlace_rebuilds he
    refine h.same ?_ ?_ ?_ ?_ ⟨(h.at_ t).fresh hout, trivial⟩ fun hb => absurd hb hnot
    · show (finish cfg t c r s).registered = _
      rw [finish_eq]
    · show (finish cfg t c r s).owed = _
      rw [finish_eq]
    · show (finish cfg t c r s).fresh = _
      rw [finish_eq]
    · intro i
      show ((finish cfg t c r s).slot i).state = _ ↔ _
      rw [finish_eq]

/-! ## The tuple has the slots in use -/

omit [DecidableEq Tid] [Inhabited V] [Inhabited Tid] in
theorem Calls.register (h : Calls cfg s γ) (hr : (γ t).role = .register) :
    s.inCall t = some .register := by
  rw [h.roles t] at hr
  cases hc : s.inCall t with
  | none => rw [hc] at hr; cases hr
  | some c => rw [hc] at hr; cases c <;> cases hr; rfl

omit [DecidableEq Tid] [Inhabited V] [Inhabited Tid] in
theorem Move.reclaims_scan {r : Resp a} (hm : Move cfg (γ t) a r g) {fin : Bool}
    {rest ids : List Nat} (h : γ t = .scans (.reclaim fin) rest ids) : a.reclaims = true := by
  generalize γ t = g₀ at hm h
  cases hm with
  | scan hm => cases hm <;> rfl
  | wake hm =>
    cases hm with
    | lock k | send k => cases k <;> cases h
    | notify k | unlock k => cases h
  | life hm | register hm | reclaim hm | drain hm | push hm | clear hm | park hm =>
    cases hm <;> cases h

/-- A change whose tuple is on its way is of a registration, or of a reclaim. -/
theorem rebuilding {x : System.Config (pipeline V Tid cfg)}
    (hst : (flow V Tid cfg).Stands t (γ t) (x.thread t)) (hc : Calls cfg x.state γ)
    (h : (γ t).rebuilds) : x.state.inCall t = some .register ∨ Reclaiming x := by
  cases hγ : γ t with
  | scans w rest ids =>
    cases w with
    | register i => exact .inl (hc.register (by rw [hγ]; rfl))
    | reclaim fin =>
      obtain ⟨a, hat, hmove⟩ := inside_acts hst (by rw [hγ]; trivial)
      obtain ⟨g', hm⟩ := hmove (reply cfg 0 x.state a)
      exact .inr ⟨t, a, hc.consume (by rw [hγ]; rfl), hat, hm.reclaims_scan hγ⟩
  | reclaims p l =>
    refine .inr (reclaiming_of_comes (i := l.i) hst (hc.consume (by rw [hγ]; rfl)) ?_)
    rw [hγ]
    exact .inl rfl
  | _ => rw [hγ] at h; cases h

/-- In the Python port, while no thread is in `register_producer` and the consumer
is not in `reclaim_retired`, the tuple has the slots that are not free, and no
other, if every tuple was current when it was stored. -/
theorem registered_are_used (hp : cfg.port = .python) {x : System.Config (pipeline V Tid cfg)}
    (hx : System.ReachableIf (storesCurrent cfg) x)
    (hreg : ∀ t, x.state.inCall t ≠ some .register) (hrec : ¬ Reclaiming x) {i : Nat}
    (hi : i < cfg.producers) : i ∈ x.state.registered ↔ (x.state.slot i).state ≠ .free := by
  obtain ⟨γ, hγ, hst⟩ := (follows V Tid cfg).stands hx
  have hc := (calls_keeps V Tid cfg _).reach hγ
  have hr := (registry_keeps V Tid cfg hp).reach hγ
  refine hr.kept i hi ?_
  cases howed : x.state.owed i with
  | none => rfl
  | some t =>
    obtain h | h := rebuilding (hst t) hc (hr.owes i t howed)
    · exact absurd h (hreg t)
    · exact absurd h hrec

end

/-! ## Three threads -/

def storesTest (t : Fin 3) (s : State Nat (Fin 3)) : Act Nat (Fin 3) → Bool
  | .registeredStore _ => decide (∀ i, i < (Config.standard .python .bitmap).producers →
      s.fresh t i = true ∨ ∃ u, u ≠ t ∧ s.owed i = some u)
  | _ => true

theorem storesTest_iff (t : Fin 3) (s : State Nat (Fin 3)) (a : Act Nat (Fin 3)) :
    storesTest t s a = true ↔ storesCurrent (.standard .python .bitmap) t a s := by
  unfold storesTest storesCurrent
  split
  · exact decide_eq_true_iff
  · simp

instance decidableStoresCurrent (t : Fin 3) (a : Act Nat (Fin 3)) (s : State Nat (Fin 3)) :
    Decidable (storesCurrent (.standard .python .bitmap) t a s) :=
  decidable_of_iff _ (storesTest_iff t s a)

/-- The test that nobody registers. -/
def registersNothing (x : System.Config (three .python)) : Bool :=
  decide (∀ t, x.state.inCall t ≠ some .register)

/-- A producer registers and retires, the consumer reclaims its slot, and the
slot is registered again. -/
def registersAgain : List (System.Label (three .python)) :=
  does _ 0 .start 4 ++ does _ 1 .register 74 ++ does _ 1 (.retire ⟨0, 0⟩) 9 ++
  does _ 2 .consume 151 ++ does _ 1 .register 74

theorem registered_are_used_again : ∃ x : System.Config (three .python),
    System.ReachableIf (storesCurrent (.standard .python .bitmap)) x ∧
      x.state.handles = [0, 0] ∧ (0 ∈ x.state.registered ↔ (x.state.slot 0).state ≠ .free) := by
  obtain ⟨x, hx, hp⟩ := System.reachableIf_of_test
    (@System.of_meets _ (storesCurrent (.standard .python .bitmap)) _) registersAgain
    (fun x => reclaimsNothing x && (registersNothing x && decide (x.state.handles = [0, 0])))
    (by decide +kernel)
  rw [Bool.and_eq_true, Bool.and_eq_true, decide_eq_true_eq] at hp
  obtain ⟨-, hrec⟩ := of_reclaimsNothing hp.1
  exact ⟨x, hx, hp.2.2, registered_are_used rfl hx (of_decide_eq_true hp.2.1) hrec (by decide)⟩

/-- The same, but the slot is registered between the consumer's scan, which has
found it free, and the consumer's store. -/
def registersBetween : List (System.Label (three .python)) :=
  does _ 0 .start 4 ++ does _ 1 .register 74 ++ does _ 1 (.retire ⟨0, 0⟩) 9 ++
  does _ 2 .consume 150 ++ does _ 1 .register 74 ++ ops _ 2 1

/-- The slot is in use, and `active_ids` does not look at it. -/
theorem registration_lost : ∃ x : System.Config (three .python), (three .python).Reachable x ∧
    (∀ t, x.state.inCall t ≠ some .register) ∧ ¬ Reclaiming x ∧ x.state.handles = [0, 0] ∧
      (x.state.slot 0).state = .active ∧ x.state.registered = [] := by
  obtain ⟨x, hx, hp⟩ := System.reachable_of_test registersBetween
    (fun x => reclaimsNothing x && (registersNothing x && decide (x.state.handles = [0, 0] ∧
      (x.state.slot 0).state = .active ∧ x.state.registered = []))) (by decide +kernel)
  rw [Bool.and_eq_true, Bool.and_eq_true, decide_eq_true_eq] at hp
  obtain ⟨-, hrec⟩ := of_reclaimsNothing hp.1
  exact ⟨x, hx, of_decide_eq_true hp.2.1, hrec, hp.2.2⟩

end Katas.Weir.Pipeline
