import Katas.Weir.PipelineBits

/-!
# Parking

The consumer arms `parked`, looks at the active word again, and sleeps if no
bit is set. From then on, whoever sets the first bit finds it armed and wakes
it, and so does a stop after it has cleared `running`: while the consumer
sleeps, no bit is set and the pipeline runs, or somebody is on the way to wake
it, or has. The Python port is told before it arms whether the pipeline runs,
and there this needs `sleepsInTime`.
-/
namespace Katas.Weir.Pipeline
open Katas.Conc Flow

section
variable {V Tid : Type} (cfg : Config)

/-- With the parking lock. -/
def Place.locks : Place V Tid → Prop
  | .notifies _ | .unlocks _ => True
  | .parks .arm _ | .parks .word _ | .parks .run _ | .parks .sleep _ | .parks .disarm _
  | .parks .unlock _ => True
  | _ => False

def Place.sleeps : Place V Tid → Prop
  | .parks .asleep _ => True
  | _ => False

/-- The consumer has armed. -/
def Place.armed : Place V Tid → Prop
  | .parks .word _ | .parks .run _ | .parks .sleep _ | .parks .asleep _ => True
  | _ => False

/-- The consumer has armed, and then found no bit set. -/
def Place.dozes : Place V Tid → Prop
  | .parks .run _ | .parks .sleep _ | .parks .asleep _ => True
  | _ => False

/-- The consumer has armed, and then found the pipeline running. -/
def Place.trusts : Place V Tid → Prop
  | .parks .sleep _ => cfg.port ≠ .python
  | .parks .asleep _ => True
  | _ => False

/-- The consumer was told that the pipeline runs. -/
def Place.told : Place V Tid → Prop
  | .parks .lock b | .parks .arm b => b = true
  | g => g.armed

/-- A thread that has set the first bit, and is to wake the consumer. -/
def Place.rouses : Place V Tid → Prop
  | .minds _ | .wakes _ => True
  | .notifies (.signal _) => cfg.port ≠ .go
  | _ => False

/-- A stop that has cleared `running`, and is to wake the consumer. -/
def Place.halts : Place V Tid → Prop
  | .halted => True
  | .notifies .halt => cfg.port ≠ .go
  | _ => False

/-- A notification, or Go's token, is there for the sleeping consumer. -/
def State.poked (s : State V Tid) : Bool := if cfg.port = .go then s.token else s.notified

def LockAt (s : State V Tid) (t : Tid) (g : Place V Tid) : Prop :=
  (g.locks → s.parkMu = some t) ∧ (g.sleeps → s.asleep = true)

/-- Who holds the parking lock, and who sleeps. Go has no such lock. -/
structure Locks (s : State V Tid) (γ : Tid → Place V Tid) : Prop where
  at_ : ∀ t, LockAt s t (γ t)
  sleeper : s.asleep = true → ∃ t, (γ t).sleeps
  notified : s.notified = true → s.asleep = true

structure Parked (s : State V Tid) (γ : Tid → Place V Tid) : Prop where
  armed : ∀ t, (γ t).armed → s.parked = true
  quiet : ∀ t, (γ t).dozes →
    s.quiet cfg = true ∨ (∃ u, (γ u).rouses cfg) ∨ s.poked cfg = true
  running : ∀ t, (γ t).trusts cfg →
    s.running = true ∨ (∃ u, (γ u).halts cfg) ∨ s.poked cfg = true
  told : cfg.port = .python → ∀ t, (γ t).told →
    s.running = true ∨ (∃ u, (γ u).halts cfg) ∨ s.woke = true

/-- Python's `park` does not begin to wait, told that the pipeline runs, once a
stop has notified in vain. -/
def sleepsInTime (s : State V Tid) : Act V Tid → Prop
  | .cvWait => ¬ (cfg.port = .python ∧ s.running = false ∧ s.woke = true)
  | _ => True

/-- Of a push, a retirement or a stop. -/
def Role.disturbs : Role V → Prop
  | .push _ _ | .retire _ | .stop => True
  | _ => False

variable {cfg} {g : Place V Tid} {i : Nat}

theorem Place.sleeps_role (h : g.sleeps) : g.role = .consume := by
  cases g with
  | parks => rfl
  | _ => cases h

theorem Place.armed_role (h : g.armed) : g.role = .consume := by
  cases g with
  | parks => rfl
  | _ => cases h

theorem Place.dozes_role (h : g.dozes) : g.role = .consume := by
  cases g with
  | parks => rfl
  | _ => cases h

theorem Place.trusts_role (h : g.trusts cfg) : g.role = .consume := by
  cases g with
  | parks => rfl
  | _ => cases h

theorem Place.told_role (h : g.told) : g.role = .consume := by
  cases g with
  | parks => rfl
  | _ => cases h

theorem Place.rouses_role (h : g.rouses cfg) : g.role.disturbs := by
  cases g with
  | minds w | wakes w => cases w <;> trivial
  | notifies k =>
    cases k with
    | signal w => cases w <;> trivial
    | _ => cases h
  | _ => cases h

theorem Place.halts_role (h : g.halts cfg) : g.role.disturbs := by
  cases g with
  | halted => trivial
  | notifies k =>
    cases k with
    | halt => trivial
    | _ => cases h
  | _ => cases h

theorem Place.owes_role (h : g.owes i) : g.role.disturbs := by
  obtain ⟨k, v, hitem, -⟩ := Place.owes_item h
  rw [Place.item_role hitem]
  trivial

theorem Place.leadsTo_role (h : g.leadsTo i) : g.role.disturbs := by
  cases g with
  | leaving k => trivial
  | tests w | sets w =>
    cases w with
    | retired k => trivial
    | pushed k v => cases h
  | _ => cases h

/-- One that sleeps, or holds the lock. -/
theorem Place.dozes_or (h : g.dozes) : g.sleeps ∨ g.locks := by
  cases g with
  | parks p b =>
    cases p with
    | run | sleep => exact .inr trivial
    | asleep => exact .inl trivial
    | _ => cases h
  | _ => cases h

theorem Place.trusts_dozes (h : g.trusts cfg) : g.dozes := by
  cases g with
  | parks p b => cases p <;> trivial
  | _ => cases h

theorem Place.dozes_armed (h : g.dozes) : g.armed := by
  cases g with
  | parks p b => cases p <;> trivial
  | _ => cases h

/-- Where a pass or a clearing leads to, the consumer has not armed. -/
theorem Entry.plain (h : Entry cfg g) : ¬ g.armed ∧ (cfg.port ≠ .go → ¬ g.locks) ∧
    (cfg.port = .python → ¬ g.told) := by
  cases h with
  | lock told hp => exact ⟨id, fun _ => id, fun hpy => absurd (hp.symm.trans hpy) nofun⟩
  | arm told hp => exact ⟨id, fun hgo => absurd hp hgo, fun hpy => absurd (hp.symm.trans hpy) nofun⟩
  | _ => exact ⟨id, fun _ => id, fun _ => id⟩

end

section
variable {V Tid : Type} [DecidableEq Tid] [Inhabited V] [Inhabited Tid] {cfg : Config}
  {s s' : State V Tid} {γ : Tid → Place V Tid} {t : Tid} {g g' : Place V Tid} {a : Act V Tid}
  {n i : Nat}

/-- Is of a wake or of the parking. -/
def Act.parks : Act V Tid → Bool
  | .parkedStore _ | .parkLock | .parkUnlock | .notify _ | .cvWait | .cvReturn | .tokenSend
  | .select => true
  | _ => false

omit [Inhabited V] [Inhabited Tid] in
theorem apply_parks (h : a.parks = false) : (apply cfg t a n s).parkMu = s.parkMu ∧
    (apply cfg t a n s).asleep = s.asleep ∧ (apply cfg t a n s).notified = s.notified ∧
    (apply cfg t a n s).parked = s.parked ∧ (apply cfg t a n s).token = s.token ∧
    (apply cfg t a n s).woke = s.woke := by
  cases a with
  | stateCas i => unfold apply; dsimp only; split <;> exact ⟨rfl, rfl, rfl, rfl, rfl, rfl⟩
  | stateStore i st => cases st <;> exact ⟨rfl, rfl, rfl, rfl, rfl, rfl⟩
  | parkedStore | parkLock | parkUnlock | notify | cvWait | cvReturn | tokenSend | select =>
    cases h
  | _ => exact ⟨rfl, rfl, rfl, rfl, rfl, rfl⟩

variable (cfg) in
/-- Nothing of a wake or of the parking, but for the way to it. -/
structure Aside (g : Place V Tid) (a : Act V Tid) (g' : Place V Tid) : Prop where
  act : a.parks = false
  armed : ¬ g.armed
  armed' : ¬ g'.armed
  locks : ¬ g.locks
  locks' : cfg.port ≠ .go → ¬ g'.locks
  told' : cfg.port = .python → ¬ g'.told

omit [DecidableEq Tid] [Inhabited V] [Inhabited Tid] in
theorem Entry.aside (h : Entry cfg g') (hb : a.parks = false) (ha : ¬ g.armed) (hl : ¬ g.locks) :
    Aside cfg g a g' :=
  ⟨hb, ha, h.plain.1, hl, h.plain.2.1, h.plain.2.2⟩

omit [DecidableEq Tid] [Inhabited V] [Inhabited Tid] in
theorem Move.aside {r : Resp a} (hm : Move cfg g a r g') :
    WakeMove cfg g a r g' ∨ ParkMove cfg g a r g' ∨ Aside cfg g a g' := by
  cases hm with
  | wake hm => exact .inl hm
  | park hm => exact .inr (.inl hm)
  | life hm =>
    refine .inr (.inr ?_)
    cases hm with
    | @waits a r hw => cases a <;> first | exact ⟨rfl, id, id, id, fun _ => id, fun _ => id⟩ | cases hw
    | _ => exact ⟨rfl, id, id, id, fun _ => id, fun _ => id⟩
  | register hm =>
    refine .inr (.inr ?_)
    cases hm with
    | cas i won | casLocked i won => cases won <;> exact ⟨rfl, id, id, id, fun _ => id, fun _ => id⟩
    | finds i st => cases st <;> exact ⟨rfl, id, id, id, fun _ => id, fun _ => id⟩
    | _ => exact ⟨rfl, id, id, id, fun _ => id, fun _ => id⟩
  | push hm =>
    refine .inr (.inr ?_)
    cases hm with
    | accepting k v b => cases b <;> exact ⟨rfl, id, id, id, fun _ => id, fun _ => id⟩
    | cached k v pos c | see k v pos c =>
      split <;> exact ⟨rfl, id, id, id, fun _ => id, fun _ => id⟩
    | pending k => split <;> exact ⟨rfl, id, id, id, fun _ => id, fun _ => id⟩
    | test w b hs => cases b <;> exact ⟨rfl, id, id, id, fun _ => id, fun _ => id⟩
    | set w zero => split <;> exact ⟨rfl, id, id, id, fun _ => id, fun _ => id⟩
    | mind w b => cases b <;> exact ⟨rfl, id, id, id, fun _ => id, fun _ => id⟩
    | _ => exact ⟨rfl, id, id, id, fun _ => id, fun _ => id⟩
  | scan hm =>
    refine .inr (.inr ?_)
    cases hm with
    | reclaim fin ids hg => exact hg.entry.aside rfl id id
    | _ => exact ⟨rfl, id, id, id, fun _ => id, fun _ => id⟩
  | drain hm =>
    refine .inr (.inr ?_)
    cases hm with
    | word w r hg | ids clear l hg | flag clear i rest ids b hg | free k hg | drained k got hg
      | flushed d total hg | write d total hg | lastFlushed hg | lastWrite hg =>
      exact hg.entry.aside rfl id id
    | used k hst => exact (loopAt_entry cfg k 0).aside rfl id id
    | staged k got m | spill k got m | cached k got room c d | look k got room c d =>
      split <;> exact ⟨rfl, id, id, id, fun _ => id, fun _ => id⟩
    | copied k got c m out hn =>
      split
      · exact ⟨rfl, id, id, id, fun _ => id, fun _ => id⟩
      · exact (loopAt_entry cfg k (got + m)).aside rfl id id
    | _ => exact ⟨rfl, id, id, id, fun _ => id, fun _ => id⟩
  | reclaim hm =>
    refine .inr (.inr ?_)
    cases hm with
    | skip hp hg | take hp hg | skips hp hg | takes hg | other l hne hg | filled l hne hg
      | free l hg => exact hg.entry.aside rfl id id
    | addDropped l m => split <;> exact ⟨rfl, id, id, id, fun _ => id, fun _ => id⟩
    | _ => exact ⟨rfl, id, id, id, fun _ => id, fun _ => id⟩
  | clear hm =>
    refine .inr (.inr ?_)
    cases hm with
    | word w hg | filled i rest b hne hg | other i rest b hne hg | restore i rest b zero hg =>
      exact hg.entry.aside rfl id id
    | emptyAgain i rest b c hg =>
      split at hg
      · split at hg
        · subst hg; exact ⟨rfl, id, id, id, fun _ => id, fun _ => id⟩
        · exact hg.entry.aside rfl id id
      · subst hg; exact ⟨rfl, id, id, id, fun _ => id, fun _ => id⟩
    | _ => exact ⟨rfl, id, id, id, fun _ => id, fun _ => id⟩

/-! ## Who sleeps, and who holds the lock -/

section
omit [DecidableEq Tid] [Inhabited V] [Inhabited Tid]

theorem Place.not_sleeps (h : ¬ g.armed) : ¬ g.sleeps := by
  intro hs
  cases g with
  | parks p b => cases p <;> trivial
  | _ => cases hs

theorem Locks.locked (h : Locks s γ) (hl : (γ t).locks) : s.parkMu = some t := (h.at_ t).1 hl

/-- One thread at a time. -/
theorem Locks.one (h : Locks s γ) {u : Tid} (ht : (γ t).locks) (hu : (γ u).locks) : u = t :=
  (Option.some.inj ((h.locked ht).symm.trans (h.locked hu))).symm

end

section
omit [Inhabited V] [Inhabited Tid]

/-- A step that leaves the lock to whom it has, and wakes nobody up. -/
theorem Locks.stays (h : Locks s γ)
    (hs : s'.parkMu = s.parkMu ∧ s'.asleep = s.asleep ∧ s'.notified = s.notified)
    (hl : g.locks → s.parkMu = some t) (hg : ¬ g.sleeps) (ht : ¬ (γ t).sleeps) :
    Locks s' (upd γ t g) := by
  obtain ⟨h1, h2, h3⟩ := hs
  refine ⟨at_upd ⟨?_, fun hg' => absurd hg' hg⟩ fun u _ => ?_,
    fun ha => other_place (h.sleeper (h2 ▸ ha)) ht, fun hn => ?_⟩
  · rw [h1]; exact hl
  · unfold LockAt
    rw [h1, h2]
    exact h.at_ u
  · rw [h3] at hn
    rw [h2]
    exact h.notified hn

/-- A step that takes the lock when nobody has it. -/
theorem Locks.takes (h : Locks s γ) (hn : s.parkMu = none) (hg : ¬ g.sleeps)
    (ht : ¬ (γ t).sleeps) : Locks { s with parkMu := some t } (upd γ t g) := by
  refine ⟨at_upd ⟨fun _ => rfl, fun hg' => absurd hg' hg⟩ fun u _ => ⟨fun hu => ?_, (h.at_ u).2⟩,
    fun ha => other_place (h.sleeper ha) ht, h.notified⟩
  rw [h.locked hu] at hn
  cases hn

/-- A step that gives back the lock. -/
theorem Locks.drops (h : Locks s γ) (ht : (γ t).locks) (hl : ¬ g.locks) (hg : ¬ g.sleeps)
    (hs : ¬ (γ t).sleeps) : Locks { s with parkMu := none } (upd γ t g) := by
  refine ⟨at_upd ⟨fun hg' => absurd hg' hl, fun hg' => absurd hg' hg⟩ fun u hu =>
    ⟨fun hlu => absurd (h.one ht hlu) hu, (h.at_ u).2⟩,
    fun ha => other_place (h.sleeper ha) hs, h.notified⟩

theorem Locks.move (hp : cfg.port ≠ .go) (h : Locks s γ) (hc : Calls cfg s γ) {r : Resp a}
    (hready : ready cfg a n s = true) (hm : Move cfg (γ t) a r g) :
    Locks (apply cfg t a n s) (upd γ t g) := by
  obtain hm | hm | hm := hm.aside
  · generalize hγ : γ t = g₀ at hm
    cases hm with
    | lock k _ =>
      have hn : s.parkMu = none := by simpa [ready] using hready
      exact h.takes hn id (by rw [hγ]; cases k <;> exact id)
    | notify k =>
      have hl : s.parkMu = some t := h.locked (by rw [hγ]; trivial)
      refine ⟨at_upd ⟨fun _ => hl, fun hs => False.elim hs⟩ fun u _ => h.at_ u,
        fun ha => other_place (h.sleeper ha) (by rw [hγ]; exact id), fun hn => ?_⟩
      have hn : (s.notified || s.asleep) = true := hn
      obtain hn | hn := Bool.or_eq_true_iff.mp hn
      · exact h.notified hn
      · exact hn
    | unlock k =>
      exact h.drops (by rw [hγ]; trivial) (by cases k <;> exact id) (by cases k <;> exact id)
        (by rw [hγ]; exact id)
    | send k hgo => exact absurd hgo hp
  · generalize hγ : γ t = g₀ at hm
    have hlock : g₀.locks → s.parkMu = some t := fun hl => h.locked (by rw [hγ]; exact hl)
    cases hm with
    | eval b told =>
      exact h.stays ⟨rfl, rfl, rfl⟩ (fun hl => by exact False.elim hl) id (by rw [hγ]; exact id)
    | lock told =>
      have hn : s.parkMu = none := by simpa [ready] using hready
      exact h.takes hn id (by rw [hγ]; exact id)
    | arm told =>
      exact h.stays ⟨rfl, rfl, rfl⟩ (fun _ => hlock trivial) (by cases told <;> exact id)
        (by rw [hγ]; exact id)
    | word told zero =>
      refine h.stays ⟨rfl, rfl, rfl⟩ (fun _ => hlock trivial) ?_ (by rw [hγ]; exact id)
      cases zero with
      | false => exact id
      | true => split <;> (try split) <;> exact id
    | run told b =>
      refine h.stays ⟨rfl, rfl, rfl⟩ (fun _ => hlock trivial) ?_ (by rw [hγ]; exact id)
      cases b with
      | false => exact id
      | true =>
        rw [if_pos rfl, if_neg hp]
        exact id
    | sleep told =>
      refine ⟨at_upd ⟨fun hl => False.elim hl, fun _ => rfl⟩ fun u hu => ⟨fun hlu => ?_, fun _ => rfl⟩,
        fun _ => ⟨t, by rw [upd_self]; trivial⟩, fun hn => by cases hn⟩
      exact absurd (h.one (by rw [hγ]; trivial) hlu) hu
    | wakes told _ =>
      have hn : s.parkMu = none := by
        have := (Bool.and_eq_true_iff.mp hready).1
        simpa using this
      have hrole : (γ t).role = .consume := by rw [hγ]; rfl
      refine ⟨at_upd ⟨fun _ => rfl, fun hs => False.elim hs⟩ fun u hu =>
        ⟨fun hlu => ?_, fun hsu => ?_⟩, fun ha => (by cases ha), fun hn => (by cases hn)⟩
      · rw [h.locked hlu] at hn; cases hn
      · exact absurd (hc.one_consumer (Place.sleeps_role hsu) hrole) hu
    | select told hgo => exact absurd hgo hp
    | disarm told =>
      refine h.stays ⟨rfl, rfl, rfl⟩ (fun _ => hlock trivial) ?_ (by rw [hγ]; exact id)
      rw [if_neg hp]
      exact id
    | unlock told =>
      exact h.drops (by rw [hγ]; trivial) id id (by rw [hγ]; exact id)
  · have hs : (apply cfg t a n s).parkMu = s.parkMu ∧ (apply cfg t a n s).asleep = s.asleep ∧
        (apply cfg t a n s).notified = s.notified := by
      have h := @apply_parks V Tid _ cfg s t a n hm.act
      exact ⟨h.1, h.2.1, h.2.2.1⟩
    exact h.stays hs (fun hl => absurd hl (hm.locks' hp)) (Place.not_sleeps hm.armed')
      (Place.not_sleeps hm.armed)

end

variable (V Tid cfg) in
theorem locks_keeps (hp : cfg.port ≠ .go) (ok : Tid → Act V Tid → State V Tid → Prop) :
    (flow V Tid cfg).Keeps ok Locks where
  init := ⟨fun _ => ⟨nofun, nofun⟩, nofun, nofun⟩
  begin {s γ} _ h t c hi he := by
    have hi : γ t = .idle := hi
    show Locks (begin cfg t c s) (upd γ t (startPlace c))
    refine h.stays ?_ (fun hl => ?_) (fun hs => ?_) (by rw [hi]; exact id)
    · rw [begin_eq]; exact ⟨rfl, rfl, rfl⟩
    · cases c <;> cases hl
    · cases c <;> cases hs
  move hr h t a n s' r g ha hs hm := by
    obtain ⟨hready, rfl, -⟩ := sem_some cfg hs
    exact h.move hp ((calls_keeps V Tid cfg _).reach hr) hready hm
  finish {s γ} _ h t c r he := by
    have he : endPlace cfg c r (γ t) := he
    show Locks (finish cfg t c r s) (upd γ t .idle)
    refine h.stays ?_ nofun id (fun hs => ?_)
    · rw [finish_eq]; exact ⟨rfl, rfl, rfl⟩
    · have hrole := endPlace_role he
      rw [Place.sleeps_role hs] at hrole
      cases c with
      | consume =>
        obtain ⟨-, he⟩ := he
        rw [he] at hs
        cases hs
      | _ => cases hrole

/-! ## What a step does about the sleeping consumer -/

variable (cfg) in
/-- Wakes the consumer, if it sleeps. -/
def Act.pokes (a : Act V Tid) : Prop :=
  cfg.port ≠ .go ∧ (∃ site, a = .notify site) ∨ cfg.port = .go ∧ a = .tokenSend

omit [Inhabited V] [Inhabited Tid] in
theorem Act.pokes.poked (h : a.pokes cfg) (ha : cfg.port ≠ .go → s.asleep = true) :
    (apply cfg t a n s).poked cfg = true := by
  obtain ⟨hp, site, rfl⟩ | ⟨hp, rfl⟩ := h
  · simp [State.poked, apply, hp, ha hp]
  · simp [State.poked, apply, hp]

omit [Inhabited V] [Inhabited Tid] in
/-- The first bit is set by a thread that looks whether the consumer has armed. -/
theorem Move.disturbs {r : Resp a} (hm : Move cfg g a r g') (hr : r = reply cfg n s a)
    (hrole : g.role ≠ .consume) (hq : s.quiet cfg = true) :
    (apply cfg t a n s).quiet cfg = true ∨ g'.rouses cfg := by
  cases a with
  | bitSet site i =>
    cases hm with
    | push hm =>
      cases hm with
      | set w zero =>
        obtain rfl : zero = true := hr.trans hq
        rw [if_pos (.inr rfl)]
        exact .inr trivial
    | clear hm => cases hm with | restore => exact absurd rfl hrole
    | life hm => cases hm with | waits hw => cases hw
    | wake hm | register hm | scan hm | drain hm | reclaim hm | park hm => cases hm
  | bitClear site i =>
    left
    simp only [State.quiet, List.all_eq_true, List.mem_range, Bool.not_eq_eq_eq_not, Bool.not_true]
      at hq ⊢
    intro j hj
    show upd s.active i false j = false
    rw [upd_apply]
    split
    · rfl
    · exact hq j hj
  | stateCas i => left; unfold apply; dsimp only; split <;> exact hq
  | stateStore i st => left; cases st <;> exact hq
  | _ => exact .inl hq

omit [DecidableEq Tid] [Inhabited V] [Inhabited Tid] in
theorem Move.rouses {r : Resp a} (hm : Move cfg g a r g') (hr : r = reply cfg n s a)
    (hpk : s.parked = true) (h : g.rouses cfg) : g'.rouses cfg ∨ a.pokes cfg := by
  cases hm with
  | push hm =>
    cases hm with
    | mind w b =>
      obtain rfl : b = true := hr.trans hpk
      exact .inl trivial
    | _ => cases h
  | wake hm =>
    cases hm with
    | lock k hp =>
      cases k with
      | signal w => exact .inl hp
      | _ => cases h
    | notify k =>
      cases k with
      | signal w => exact .inr (.inl ⟨h, _, rfl⟩)
      | _ => cases h
    | unlock k => cases h
    | send k hp => exact .inr (.inr ⟨hp, rfl⟩)
  | life hm | register hm | scan hm | drain hm | reclaim hm | clear hm | park hm =>
    cases hm <;> cases h

omit [DecidableEq Tid] [Inhabited V] [Inhabited Tid] in
theorem Move.halts {r : Resp a} (hm : Move cfg g a r g') (h : g.halts cfg) :
    g'.halts cfg ∨ a.pokes cfg ∧ (cfg.port ≠ .go → a = .notify .halt) := by
  cases hm with
  | wake hm =>
    cases hm with
    | lock k hp =>
      cases k with
      | halt => exact .inl hp
      | _ => cases h
    | notify k =>
      cases k with
      | halt => exact .inr ⟨.inl ⟨h, _, rfl⟩, fun _ => rfl⟩
      | _ => cases h
    | unlock k => cases h
    | send k hp => exact .inr ⟨.inr ⟨hp, rfl⟩, fun hne => absurd hp hne⟩
  | life hm | register hm | scan hm | drain hm | reclaim hm | clear hm | park hm | push hm =>
    cases hm <;> cases h

section
omit [Inhabited V] [Inhabited Tid]

theorem Move.stops {r : Resp a} (hm : Move cfg g a r g') (h : s.running = true) :
    (apply cfg t a n s).running = true ∨ g'.halts cfg := by
  cases a with
  | runningStore b =>
    cases hm with
    | life hm =>
      cases hm with
      | running => exact .inl rfl
      | halt => exact .inr trivial
      | waits hw => cases hw
    | wake hm | register hm | scan hm | drain hm | reclaim hm | park hm | push hm | clear hm =>
      cases hm
  | stateCas i => left; unfold apply; dsimp only; split <;> exact h
  | stateStore i st => left; cases st <;> exact h
  | _ => exact .inl h

/-- Only the consumer takes what wakes it, and disarms. -/
theorem Move.leaves_poke {r : Resp a} (hm : Move cfg g a r g') (hrole : g.role ≠ .consume) :
    (apply cfg t a n s).parked = s.parked ∧
      (s.poked cfg = true → (apply cfg t a n s).poked cfg = true) := by
  cases a with
  | parkedStore b | cvWait | cvReturn | select =>
    cases hm with
    | park hm => cases hm <;> exact absurd rfl hrole
    | life hm => cases hm with | waits hw => cases hw
    | wake hm | register hm | scan hm | drain hm | reclaim hm | push hm | clear hm => cases hm
  | notify site =>
    refine ⟨rfl, fun h => ?_⟩
    by_cases hp : cfg.port = .go
    · simpa [State.poked, apply, hp] using h
    · have hn : s.notified = true := by simpa [State.poked, hp] using h
      simp [State.poked, apply, hp, hn]
  | tokenSend =>
    refine ⟨rfl, fun h => ?_⟩
    by_cases hp : cfg.port = .go
    · simp [State.poked, apply, hp]
    · simpa [State.poked, apply, hp] using h
  | stateCas i => unfold apply; dsimp only; split <;> exact ⟨rfl, id⟩
  | stateStore i st => cases st <;> exact ⟨rfl, id⟩
  | _ => exact ⟨rfl, id⟩

theorem apply_woke (h : s.woke = true) : (apply cfg t a n s).woke = true := by
  cases a with
  | notify site => exact Bool.or_eq_true_iff.mpr (.inl h)
  | stateCas i => unfold apply; dsimp only; split <;> exact h
  | stateStore i st => cases st <;> exact h
  | _ => exact h

end

omit [DecidableEq Tid] [Inhabited V] [Inhabited Tid] in
theorem Move.pokes_locks {r : Resp a} (hm : Move cfg g a r g') (h : a.pokes cfg)
    (hp : cfg.port ≠ .go) : g.locks := by
  obtain ⟨-, site, rfl⟩ | ⟨hgo, -⟩ := h
  · cases hm with
    | wake hm => cases hm with | notify k => trivial
    | life hm => cases hm with | waits hw => cases hw
    | register hm | scan hm | drain hm | reclaim hm | push hm | clear hm | park hm => cases hm
  · exact absurd hgo hp

/-! ## The invariant -/

section
omit [Inhabited V] [Inhabited Tid]

/-- A poke finds the consumer that dozes asleep: it holds the lock until then. -/
theorem Locks.poked (h : cfg.port ≠ .go → Locks s γ) {u : Tid} (hu : (γ u).dozes) (hut : u ≠ t)
    {r : Resp a} (hm : Move cfg (γ t) a r g) (ha : a.pokes cfg) :
    (apply cfg t a n s).poked cfg = true := by
  refine ha.poked fun hp => ?_
  obtain hs | hlu := Place.dozes_or hu
  · exact ((h hp).at_ u).2 hs
  · exact absurd ((h hp).one (hm.pokes_locks ha hp) hlu) hut

/-- A step of another thread. -/
theorem Parked.others (h : Parked cfg s γ) (hl : cfg.port ≠ .go → Locks s γ)
    (hrole : (γ t).role ≠ .consume) {r : Resp a} (hr : r = reply cfg n s a)
    (hm : Move cfg (γ t) a r g) : Parked cfg (apply cfg t a n s) (upd γ t g) := by
  have hrole' : g.role ≠ .consume := by rw [hm.role]; exact hrole
  obtain ⟨hparked, hpoked⟩ := hm.leaves_poke (t := t) (n := n) (s := s) hrole
  -- the thread that parks is another
  have hother : ∀ {P : Place V Tid → Prop}, (∀ {g}, P g → g.role = .consume) → ∀ u,
      P (upd γ t g u) → u ≠ t ∧ P (γ u) := by
    intro P hP u hu
    by_cases hut : u = t
    · subst hut
      rw [upd_self] at hu
      exact absurd (hP hu) hrole'
    · rw [upd_ne _ _ hut] at hu
      exact ⟨hut, hu⟩
  refine ⟨fun u hu => ?_, fun u hu => ?_, fun u hu => ?_, fun hp u hu => ?_⟩
  · rw [hparked]
    exact h.armed u (hother Place.armed_role u hu).2
  · obtain ⟨hut, hu⟩ := hother Place.dozes_role u hu
    obtain hq | hrouse | hp := h.quiet u hu
    · obtain hq | hg := hm.disturbs hr hrole hq
      · exact .inl hq
      · exact .inr (.inl ⟨t, by rw [upd_self]; exact hg⟩)
    · obtain hrouse | ha := some_place hrouse (hm.rouses hr (h.armed u (Place.dozes_armed hu)))
        fun v _ hv => hv
      · exact .inr (.inl hrouse)
      · exact .inr (.inr (Locks.poked hl hu hut hm ha))
    · exact .inr (.inr (hpoked hp))
  · obtain ⟨hut, hu⟩ := hother Place.trusts_role u hu
    obtain hrun | hhalt | hp := h.running u hu
    · obtain hrun | hg := hm.stops (t := t) (n := n) hrun
      · exact .inl hrun
      · exact .inr (.inl ⟨t, by rw [upd_self]; exact hg⟩)
    · obtain hhalt | ha := some_place hhalt hm.halts fun v _ hv => hv
      · exact .inr (.inl hhalt)
      · exact .inr (.inr (Locks.poked hl (Place.trusts_dozes hu) hut hm ha.1))
    · exact .inr (.inr (hpoked hp))
  · obtain ⟨hut, hu⟩ := hother Place.told_role u hu
    obtain hrun | hhalt | hw := h.told hp u hu
    · obtain hrun | hg := hm.stops (t := t) (n := n) hrun
      · exact .inl hrun
      · exact .inr (.inl ⟨t, by rw [upd_self]; exact hg⟩)
    · obtain hhalt | ⟨-, ha⟩ := some_place hhalt hm.halts fun v _ hv => hv
      · exact .inr (.inl hhalt)
      · obtain rfl := ha (by rw [hp]; nofun)
        exact .inr (.inr (Bool.or_eq_true_iff.mpr (.inr rfl)))
    · exact .inr (.inr (apply_woke hw))

/-- A step of the consumer. -/
theorem Parked.parks (h : Parked cfg s γ) (hl : cfg.port ≠ .go → Locks s γ) (hc : Calls cfg s γ)
    (hok : sleepsInTime cfg s a) (hrole : (γ t).role = .consume) {r : Resp a}
    (hr : r = reply cfg n s a) (hm : Move cfg (γ t) a r g) :
    Parked cfg (apply cfg t a n s) (upd γ t g) := by
  -- nobody else is at a place of the consumer
  have hmine : ∀ {P : Place V Tid → Prop}, (∀ {g}, P g → g.role = .consume) → ∀ u,
      P (upd γ t g u) → P g := by
    intro P hP u hu
    by_cases hut : u = t
    · subst hut
      rwa [upd_self] at hu
    · rw [upd_ne _ _ hut] at hu
      exact absurd (hc.one_consumer (hP hu) hrole) hut
  have hbuild : (g.armed → (apply cfg t a n s).parked = true) →
      (g.dozes → (apply cfg t a n s).quiet cfg = true ∨ (∃ u, (upd γ t g u).rouses cfg) ∨
        (apply cfg t a n s).poked cfg = true) →
      (g.trusts cfg → (apply cfg t a n s).running = true ∨ (∃ u, (upd γ t g u).halts cfg) ∨
        (apply cfg t a n s).poked cfg = true) →
      (cfg.port = .python → g.told → (apply cfg t a n s).running = true ∨
        (∃ u, (upd γ t g u).halts cfg) ∨ (apply cfg t a n s).woke = true) →
      Parked cfg (apply cfg t a n s) (upd γ t g) := fun h1 h2 h3 h4 =>
    ⟨fun u hu => h1 (hmine Place.armed_role u hu), fun u hu => h2 (hmine Place.dozes_role u hu),
      fun u hu => h3 (hmine Place.trusts_role u hu), fun hp u hu => h4 hp (hmine Place.told_role u hu)⟩
  have hrouse : (∃ u, (γ u).rouses cfg) → ∃ u, (upd γ t g u).rouses cfg := fun he =>
    other_place he fun hg => by simpa [hrole, Role.disturbs] using Place.rouses_role hg
  have hhalt : (∃ u, (γ u).halts cfg) → ∃ u, (upd γ t g u).halts cfg := fun he =>
    other_place he fun hg => by simpa [hrole, Role.disturbs] using Place.halts_role hg
  obtain hm | hm | hm := hm.aside
  · obtain ⟨k, hk⟩ := hm.role
    exact absurd (hk.symm.trans hrole) k.role_ne.2.1
  · generalize hγ : γ t = g₀ at hm
    have harmed := h.armed t
    have hquiet := h.quiet t
    have hrunning := h.running t
    rw [hγ] at harmed hquiet hrunning
    have htold : cfg.port = .python → g₀.told → s.running = true ∨ (∃ u, (upd γ t g u).halts cfg) ∨
        s.woke = true := fun hp hg => by
      rw [← hγ] at hg
      exact (h.told hp t hg).imp_right (Or.imp_left hhalt)
    cases hm with
    | eval b told =>
      exact hbuild (fun h => by cases h) (fun h => by cases h) (fun h => by cases h) fun _ hb => .inl (hr.symm.trans hb)
    | lock told =>
      exact hbuild (fun h => by cases h) (fun h => by cases h) (fun h => by cases h) htold
    | arm told =>
      cases told with
      | true =>
        exact hbuild (fun _ => rfl) (fun h => by cases h) (fun h => by cases h) fun hp _ => htold hp rfl
      | false =>
        exact hbuild (fun h => by cases h) (fun h => by cases h) (fun h => by cases h) fun _ hg => by cases hg
    | word told zero =>
      cases zero with
      | true =>
        refine hbuild (fun _ => harmed trivial) (fun _ => .inl hr.symm) (fun hg => ?_)
          fun hp _ => htold hp trivial
        rw [if_pos rfl] at hg
        split at hg
        · rename_i hp
          exact absurd hp hg
        · cases hg
      | false =>
        exact hbuild (fun h => by cases h) (fun h => by cases h) (fun h => by cases h) fun _ hg => by cases hg
    | run told b =>
      cases b with
      | true =>
        exact hbuild (fun _ => harmed trivial)
          (fun _ => (hquiet trivial).imp_right (Or.imp_left hrouse)) (fun _ => .inl hr.symm)
          fun hp _ => htold hp trivial
      | false =>
        exact hbuild (fun h => by cases h) (fun h => by cases h) (fun h => by cases h) fun _ hg => by cases hg
    | sleep told =>
      -- what is there already is a token: a notification finds nobody asleep
      have hpoked : s.poked cfg = true → (apply cfg t .cvWait n s).poked cfg = true := fun hp => by
        by_cases hgo : cfg.port = .go
        · simpa [State.poked, apply, hgo] using hp
        · have hn : s.notified = true := by simpa [State.poked, hgo] using hp
          obtain ⟨u, hu⟩ := (hl hgo).sleeper ((hl hgo).notified hn)
          obtain rfl := hc.one_consumer (Place.sleeps_role hu) hrole
          rw [hγ] at hu
          cases hu
      refine hbuild (fun _ => harmed trivial)
        (fun _ => (hquiet trivial).imp_right (Or.imp hrouse hpoked)) (fun _ => ?_)
        fun hp _ => htold hp trivial
      by_cases hp : cfg.port = .python
      · by_cases hrun : s.running = true
        · exact .inl hrun
        · obtain hr' | hh | hw := htold hp trivial
          · exact absurd hr' hrun
          · exact .inr (.inl hh)
          · exact absurd ⟨hp, by simpa using hrun, hw⟩ hok
      · exact (hrunning hp).imp_right (Or.imp hhalt hpoked)
    | wakes told | select told =>
      exact hbuild (fun h => by cases h) (fun h => by cases h) (fun h => by cases h) fun _ hg => by cases hg
    | disarm told =>
      by_cases hp : cfg.port = .go
      · rw [if_pos hp] at hbuild ⊢
        exact hbuild (fun h => by cases h) (fun h => by cases h) (fun h => by cases h) (fun _ h => False.elim h)
      · rw [if_neg hp] at hbuild ⊢
        exact hbuild (fun h => by cases h) (fun h => by cases h) (fun h => by cases h) (fun _ h => False.elim h)
    | unlock told =>
      exact hbuild (fun h => by cases h) (fun h => by cases h) (fun h => by cases h) fun _ hg => by cases hg
  · exact hbuild (fun hg => absurd hg hm.armed')
      (fun hg => absurd (Place.dozes_armed hg) hm.armed')
      (fun hg => absurd (Place.dozes_armed (Place.trusts_dozes hg)) hm.armed')
      (fun hp hg => absurd hg (hm.told' hp))

end

omit [DecidableEq Tid] [Inhabited V] [Inhabited Tid] in
theorem startPlace_plain (c : Call V) : ¬ (startPlace c : Place V Tid).armed ∧
    ¬ (startPlace c : Place V Tid).told := by
  cases c <;> exact ⟨id, id⟩

omit [DecidableEq Tid] [Inhabited V] [Inhabited Tid] in
theorem endPlace_plain {c : Call V} {r : Result} (h : endPlace cfg c r g) :
    ¬ g.rouses cfg ∧ ¬ g.halts cfg := by
  cases c with
  | start => obtain ⟨-, rfl⟩ := h; exact ⟨id, id⟩
  | stop m => obtain ⟨-, rfl⟩ | ⟨-, rfl⟩ := h <;> exact ⟨id, id⟩
  | register => obtain ⟨-, rfl⟩ | ⟨i, -, rfl | ⟨-, rfl⟩⟩ := h <;> exact ⟨id, id⟩
  | push k v => obtain ⟨-, rfl | rfl⟩ | ⟨-, rfl | ⟨-, rfl⟩⟩ := h <;> exact ⟨id, id⟩
  | retire k => obtain ⟨-, rfl⟩ := h; exact ⟨id, id⟩
  | consume => obtain ⟨-, rfl⟩ := h; exact ⟨id, id⟩

omit [Inhabited V] [Inhabited Tid] in
/-- A call begins, or returns. -/
theorem Parked.turns (h : Parked cfg s γ)
    (hs : s'.parked = s.parked ∧ s'.active = s.active ∧ s'.token = s.token ∧
      s'.notified = s.notified ∧ s'.running = s.running ∧ s'.woke = s.woke)
    (hg : ¬ g.armed ∧ ¬ g.told) (ht : ¬ (γ t).rouses cfg ∧ ¬ (γ t).halts cfg) :
    Parked cfg s' (upd γ t g) := by
  obtain ⟨h1, h2, h3, h4, h5, h6⟩ := hs
  have hother : ∀ {P : Place V Tid → Prop}, ¬ P g → ∀ u, P (upd γ t g u) → P (γ u) := by
    intro P hP u hu
    by_cases hut : u = t
    · subst hut
      rw [upd_self] at hu
      exact absurd hu hP
    · rwa [upd_ne _ _ hut] at hu
  have hpoked : s'.poked cfg = s.poked cfg := by unfold State.poked; rw [h3, h4]
  have hquiet : s'.quiet cfg = s.quiet cfg := by unfold State.quiet; rw [h2]
  have hdoze : ¬ g.dozes := fun hd => hg.1 (Place.dozes_armed hd)
  refine ⟨fun u hu => ?_, fun u hu => ?_, fun u hu => ?_, fun hp u hu => ?_⟩
  · rw [h1]
    exact h.armed u (hother hg.1 u hu)
  · rw [hquiet, hpoked]
    exact (h.quiet u (hother hdoze u hu)).imp_right (Or.imp_left fun he => other_place he ht.1)
  · rw [h5, hpoked]
    exact (h.running u (hother (fun hd => hdoze (Place.trusts_dozes hd)) u hu)).imp_right
      (Or.imp_left fun he => other_place he ht.2)
  · rw [h5, h6]
    exact (h.told hp u (hother hg.2 u hu)).imp_right (Or.imp_left fun he => other_place he ht.2)

variable (V Tid cfg) in
theorem parked_keeps (ok : Tid → Act V Tid → State V Tid → Prop)
    (hok : ∀ t a s, ok t a s → sleepsInTime cfg s a) : (flow V Tid cfg).Keeps ok (Parked cfg) where
  init := ⟨nofun, nofun, nofun, nofun⟩
  begin {s γ} _ h t c hi he := by
    have hi : γ t = .idle := hi
    show Parked cfg (begin cfg t c s) (upd γ t (startPlace c))
    refine h.turns ?_ (startPlace_plain c) (by rw [hi]; exact ⟨id, id⟩)
    rw [begin_eq]
    exact ⟨rfl, rfl, rfl, rfl, rfl, rfl⟩
  move {s γ} hr h t a n s' r g ha hs hm := by
    obtain ⟨-, rfl, h2⟩ := sem_some cfg hs
    have hl : cfg.port ≠ .go → Locks s γ := fun hp => (locks_keeps V Tid cfg hp _).reach hr
    by_cases hrole : (γ t).role = .consume
    · exact h.parks hl ((calls_keeps V Tid cfg _).reach hr) (hok t a s ha) hrole h2 hm
    · exact h.others hl hrole h2 hm
  finish {s γ} _ h t c r he := by
    show Parked cfg (finish cfg t c r s) (upd γ t .idle)
    refine h.turns ?_ ⟨id, id⟩ (endPlace_plain he)
    rw [finish_eq]
    exact ⟨rfl, rfl, rfl, rfl, rfl, rfl⟩

/-! ## The sleeping consumer -/

/-- `t` is blocked in `park`. -/
def Blocked (x : System.Config (pipeline V Tid cfg)) (t : Tid) : Prop :=
  System.AtOp x t .cvReturn ∨ System.AtOp x t .select

/-- No thread is inside `push`, `retire` or `stop`. -/
def Undisturbed (s : State V Tid) : Prop :=
  ∀ t c, s.inCall t = some c → c = .start ∨ c = .register ∨ c = .consume

variable (cfg) in
/-- The active word is zero, the rings are empty, no slot is retiring, and the
pipeline runs. -/
structure Idle (s : State V Tid) : Prop where
  active : ∀ i < cfg.producers, s.active i = false
  empty : ∀ i < cfg.producers, (s.slot i).ring.head = (s.slot i).ring.tail
  retiring : ∀ i < cfg.producers, (s.slot i).state ≠ .retiring
  running : s.running = true

omit [DecidableEq Tid] [Inhabited V] [Inhabited Tid] in
theorem Move.blocked {r : Resp a} (hm : Move cfg g a r g') (ha : a = .cvReturn ∨ a = .select) :
    g.sleeps := by
  obtain rfl | rfl := ha
  all_goals
    cases hm with
    | park hm => cases hm <;> trivial
    | life hm => cases hm with | waits hw => cases hw
    | wake hm | register hm | scan hm | drain hm | reclaim hm | push hm | clear hm => cases hm

omit [DecidableEq Tid] [Inhabited V] [Inhabited Tid] in
theorem Undisturbed.role (h : Undisturbed s) (hc : Calls cfg s γ) (t : Tid) :
    ¬ (γ t).role.disturbs := by
  rw [hc.roles t]
  cases hin : s.inCall t with
  | none => exact id
  | some c => obtain rfl | rfl | rfl := h t c hin <;> exact id

theorem idle_when_blocked (hb : cfg.scan = .bitmap)
    {ok : Tid → Act V Tid → State V Tid → Prop} (hclear : ∀ t a s, ok t a s → clearsInTime cfg s a)
    (hsleep : ∀ t a s, ok t a s → sleepsInTime cfg s a) {x : System.Config (pipeline V Tid cfg)}
    (hx : System.ReachableIf ok x) (ht : Blocked x t) (hn : x.state.poked cfg = false)
    (hd : Undisturbed x.state) : Idle cfg x.state := by
  obtain ⟨γ, hγ, hst⟩ := (follows V Tid cfg).stands hx
  have hc := (calls_keeps V Tid cfg _).reach hγ
  have hbits := (bits_keeps V Tid cfg hb _ hclear).reach hγ
  have hpark := (parked_keeps V Tid cfg _ hsleep).reach hγ
  have hs : (γ t).sleeps := by
    obtain ha | ha := ht
    · obtain ⟨g, hm⟩ := (hst t).move ha ()
      exact Move.blocked hm (.inl rfl)
    · obtain ⟨g, hm⟩ := (hst t).move ha ()
      exact Move.blocked hm (.inr rfl)
  have hdoze : (γ t).dozes ∧ (γ t).trusts cfg := by
    cases hγt : γ t with
    | parks p b => rw [hγt] at hs; cases p <;> first | exact ⟨trivial, trivial⟩ | cases hs
    | _ => rw [hγt] at hs; cases hs
  have hnone : ∀ {P : Place V Tid → Prop}, (∀ {g}, P g → g.role.disturbs) → ¬ ∃ u, P (γ u) :=
    fun hP ⟨u, hu⟩ => hd.role hc u (hP hu)
  -- whoever is at a place of the consumer sleeps
  have hsleeps : ∀ u, (γ u).role = .consume → (γ u).sleeps := fun u hu => by
    obtain rfl := hc.one_consumer hu (Place.sleeps_role hs)
    exact hs
  have hpoked : ¬ x.state.poked cfg = true := by rw [hn]; nofun
  have hquiet : x.state.quiet cfg = true := by
    obtain hq | he | hp := hpark.quiet t hdoze.1
    · exact hq
    · exact absurd he (hnone Place.rouses_role)
    · exact absurd hp hpoked
  have hactive : ∀ i < cfg.producers, x.state.active i = false := fun i hi => by
    have := List.all_eq_true.mp hquiet i (List.mem_range.mpr hi)
    simpa using this
  refine ⟨hactive, fun i hi => ?_, fun i hi hst => ?_, ?_⟩
  · by_contra hne
    obtain ha | he | ⟨u, hu⟩ := hbits.filled i hne
    · rw [hactive i hi] at ha; cases ha
    · exact hnone Place.owes_role he
    · have := hsleeps u (Place.mends_role hu)
      cases hγu : γ u with
      | parks p b => rw [hγu] at hu; cases hu
      | _ => rw [hγu] at this; cases this
  · obtain ha | he | ⟨u, hu⟩ := hbits.retiring i hst
    · rw [hactive i hi] at ha; cases ha
    · exact hnone Place.leadsTo_role he
    · have := hsleeps u (Place.restores_role hu)
      cases hγu : γ u with
      | parks p b => rw [hγu] at hu; cases hu
      | _ => rw [hγu] at this; cases this
  · obtain hr | he | hp := hpark.running t hdoze.2
    · exact hr
    · exact absurd he (hnone Place.halts_role)
    · exact absurd hp hpoked

omit [DecidableEq Tid] [Inhabited V] [Inhabited Tid] in
/-- Only the Python port is told beforehand whether the pipeline runs. -/
theorem sleeps_of_port (hp : cfg.port ≠ .python) (s : State V Tid) (a : Act V Tid) :
    sleepsInTime cfg s a := by
  cases a with
  | cvWait => exact fun h => hp h.1
  | _ => trivial

/-- While the consumer of the C++ or of the Go pipeline is blocked in `park`
with nothing there to wake it, and nobody pushes, retires or stops, there is
nothing to do, and the pipeline runs. -/
theorem parked_is_idle (hp : cfg.port ≠ .python) (hb : cfg.scan = .bitmap)
    {x : System.Config (pipeline V Tid cfg)} (hx : (pipeline V Tid cfg).Reachable x)
    (ht : Blocked x t) (hn : x.state.poked cfg = false) (hd : Undisturbed x.state) :
    Idle cfg x.state :=
  idle_when_blocked hb (fun _ a s _ => clears_of_port hp s a) (fun _ a s _ => sleeps_of_port hp s a)
    hx.reachableIf ht hn hd

variable (cfg) in
/-- `clear_if_empty` and `park` act on what they were told in time. -/
def toldInTime (_ : Tid) (a : Act V Tid) (s : State V Tid) : Prop :=
  clearsInTime cfg s a ∧ sleepsInTime cfg s a

/-- The same of the Python pipeline, where `clear_if_empty` and `park` are told
in time. -/
theorem parked_is_idle_if_told (hb : cfg.scan = .bitmap) {x : System.Config (pipeline V Tid cfg)}
    (hx : System.ReachableIf (toldInTime cfg) x) (ht : Blocked x t)
    (hn : x.state.poked cfg = false) (hd : Undisturbed x.state) : Idle cfg x.state :=
  idle_when_blocked hb (fun _ _ _ h => h.1) (fun _ _ _ h => h.2) hx ht hn hd

end

/-! ## Three threads -/

/-- The test that the last thread is blocked with nothing there to wake it, and
that nobody disturbs it. -/
def sleepsAlone {port : Port} (x : System.Config (three port)) : Bool :=
  decide (System.next x 2 = some .cvReturn) && !x.state.poked (.standard port .bitmap) &&
    (List.finRange 3).all fun t => (x.state.inCall t).all (· = .consume)

theorem of_sleepsAlone {port : Port} {x : System.Config (three port)} (h : sleepsAlone x = true) :
    Blocked x 2 ∧ x.state.poked (.standard port .bitmap) = false ∧ Undisturbed x.state := by
  simp only [sleepsAlone, Bool.and_eq_true, decide_eq_true_eq, Bool.not_eq_true', List.all_eq_true,
    List.mem_finRange, forall_const] at h
  obtain ⟨⟨hnext, hpoked⟩, hcalls⟩ := h
  refine ⟨.inl (System.atOp_iff.mpr hnext), hpoked, fun t c hc => ?_⟩
  have := hcalls t
  rw [hc] at this
  exact .inr (.inr (of_decide_eq_true this))

/-- An event is pushed; the consumer takes it, and goes to sleep. -/
def takesThenSleeps : List (System.Label (three .cpp)) :=
  does _ 0 .start 4 ++ does _ 1 .register 5 ++ does _ 1 (.push ⟨0, 0⟩ 7) 14 ++ does _ 2 .consume 110

theorem parked_is_idle_after_one : ∃ x : System.Config (three .cpp),
    (three .cpp).Reachable x ∧ Blocked x 2 ∧ Idle (.standard .cpp .bitmap) x.state := by
  obtain ⟨x, hx, hp⟩ := System.reachable_of_test takesThenSleeps sleepsAlone (by decide +kernel)
  obtain ⟨ht, hn, hd⟩ := of_sleepsAlone hp
  exact ⟨x, hx, ht, parked_is_idle (by decide) rfl hx ht hn hd⟩

/-- The same of the Python pipeline. -/
def takesThenWaits : List (System.Label (three .python)) :=
  does _ 0 .start 4 ++ does _ 1 .register 74 ++ does _ 1 (.push ⟨0, 0⟩ 7) 14 ++ does _ 2 .consume 113

def clearsTest (s : State Nat (Fin 3)) (cfg : Config) : Act Nat (Fin 3) → Bool
  | .bitClear (.clear false) i =>
    decide ¬ (cfg.port = .python ∧ (s.slot i).state = .retiring ∧ s.looked i = true)
  | _ => true

theorem clearsTest_iff (s : State Nat (Fin 3)) (cfg : Config) (a : Act Nat (Fin 3)) :
    clearsTest s cfg a = true ↔ clearsInTime cfg s a := by
  unfold clearsTest clearsInTime
  split
  · exact decide_eq_true_iff
  · simp

instance (s : State Nat (Fin 3)) (cfg : Config) (a : Act Nat (Fin 3)) :
    Decidable (clearsInTime cfg s a) :=
  decidable_of_iff _ (clearsTest_iff s cfg a)

def sleepsTest (s : State Nat (Fin 3)) (cfg : Config) : Act Nat (Fin 3) → Bool
  | .cvWait => decide ¬ (cfg.port = .python ∧ s.running = false ∧ s.woke = true)
  | _ => true

theorem sleepsTest_iff (s : State Nat (Fin 3)) (cfg : Config) (a : Act Nat (Fin 3)) :
    sleepsTest s cfg a = true ↔ sleepsInTime cfg s a := by
  unfold sleepsTest sleepsInTime
  split
  · exact decide_eq_true_iff
  · simp

instance (s : State Nat (Fin 3)) (cfg : Config) (a : Act Nat (Fin 3)) :
    Decidable (sleepsInTime cfg s a) :=
  decidable_of_iff _ (sleepsTest_iff s cfg a)

instance (cfg : Config) (t : Fin 3) (a : Act Nat (Fin 3)) (s : State Nat (Fin 3)) :
    Decidable (toldInTime cfg t a s) :=
  inferInstanceAs (Decidable (_ ∧ _))

theorem parked_is_idle_if_told_one : ∃ x : System.Config (three .python),
    System.ReachableIf (toldInTime (.standard .python .bitmap)) x ∧ Blocked x 2 ∧
      Idle (.standard .python .bitmap) x.state := by
  obtain ⟨x, hx, hp⟩ := System.reachableIf_of_test
    (@System.of_meets _ (toldInTime (.standard .python .bitmap)) _) takesThenWaits sleepsAlone
    (by decide +kernel)
  obtain ⟨ht, hn, hd⟩ := of_sleepsAlone hp
  exact ⟨x, hx, ht, parked_is_idle_if_told rfl hx ht hn hd⟩

/-- A producer retires between the consumer's look at the slot's state and its
clearing of the flag: it finds the flag set, and its wake finds nobody. -/
def retiresUnseen : List (System.Label (three .python)) :=
  does _ 0 .start 4 ++ does _ 1 .register 74 ++ does _ 1 (.push ⟨0, 0⟩ 7) 14 ++
  does _ 2 .consume 35 ++ does _ 1 (.retire ⟨0, 0⟩) 7 ++ ops _ 2 78

/-- The Python consumer sleeps on a retiring slot. -/
theorem sleeps_on_retiring : ∃ x : System.Config (three .python),
    (three .python).Reachable x ∧ Blocked x 2 ∧
      x.state.poked (.standard .python .bitmap) = false ∧ Undisturbed x.state ∧
      ¬ Idle (.standard .python .bitmap) x.state := by
  obtain ⟨x, hx, hp⟩ := System.reachable_of_test retiresUnseen
    (fun x => sleepsAlone x && decide ((x.state.slot 0).state = .retiring)) (by decide +kernel)
  rw [Bool.and_eq_true, decide_eq_true_eq] at hp
  obtain ⟨ht, hn, hd⟩ := of_sleepsAlone hp.1
  exact ⟨x, hx, ht, hn, hd, fun h => h.retiring 0 (by decide) hp.2⟩

end Katas.Weir.Pipeline
