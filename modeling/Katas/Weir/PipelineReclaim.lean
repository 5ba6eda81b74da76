import Katas.Weir.PipelineBits

/-!
# Retirement requests

A slot is retiring until the consumer frees it, and the consumer looks for such
slots only when `retire_pending` says so. It takes the flag before it looks,
and skips a slot whose ring it has not drained; nothing raises the flag again
for that slot. As long as it skips none so (`reclaimsDrained`), a retiring slot
has its request pending, but for the thread that is about to raise the flag and
for the consumer that has taken it and is still to come to the slot.
-/
namespace Katas.Weir.Pipeline
open Katas.Conc Flow

section
variable {V Tid : Type} (cfg : Config)

/-- Found free at slot `i`, under the lock. -/
def Place.vacantAt (i : Nat) : Place V Tid → Prop
  | .vacant j => j = i
  | _ => False

/-- The slots in use and the slots of handles are among the pipeline's. -/
structure Bounds (s : State V Tid) (γ : Tid → Place V Tid) : Prop where
  used : ∀ i, (s.slot i).state ≠ .free → i < cfg.producers
  vacant : ∀ t i, (γ t).vacantAt i → i < cfg.producers
  handles : ∀ (k i : Nat), s.handles[k]? = some i → i < cfg.producers

/-- A thread that has made slot `i` retiring, and is to raise the flag. -/
def Place.asksFor (i : Nat) : Place V Tid → Prop
  | .leaving h => h.id = i
  | _ => False

/-- The consumer that reclaims, at slot `i` or still to come to it. -/
def Place.comesTo (i : Nat) : Place V Tid → Prop
  | .reclaims _ l => l.i = i ∨ i ∈ l.rest
  | _ => False

/-- The consumer has looked at the tail of the ring of a retiring slot: the ring
is empty, or another request is pending. -/
def SeenAt (s : State V Tid) : Place V Tid → Prop
  | .reclaims (.head _) l =>
    (s.slot l.i).ring.head = (s.slot l.i).ring.tail ∨ s.pending = true
  | _ => True

structure Asked (s : State V Tid) (γ : Tid → Place V Tid) : Prop where
  retiring : ∀ i, (s.slot i).state = .retiring →
    s.pending = true ∨ (∃ t, (γ t).asksFor i) ∨ ∃ t, (γ t).comesTo i
  seen : ∀ t, SeenAt s (γ t)

/-- `reclaim_retired` comes to no retiring slot whose ring holds events while no
request is pending. -/
def reclaimsDrained (_ : Tid) (a : Act V Tid) (s : State V Tid) : Prop :=
  match a with
  | .tailSee .reclaim i => (s.slot i).ring.head = (s.slot i).ring.tail ∨ s.pending = true
  | _ => True

end

section
variable {V Tid : Type} [DecidableEq Tid] [Inhabited V] [Inhabited Tid] {cfg : Config}
  {s s' : State V Tid} {γ : Tid → Place V Tid} {t : Tid} {g g' : Place V Tid} {a : Act V Tid}
  {n i : Nat}

/-! ## The slots in use -/

omit [DecidableEq Tid] [Inhabited V] [Inhabited Tid] in
theorem Move.to_vacant {r : Resp a} (hm : Move cfg g a r g') (h : g'.vacantAt i) :
    g.vacantAt i ∨ i < cfg.producers := by
  have hrole : g.role = .register := by
    rw [← hm.role]
    cases g' with
    | vacant j => rfl
    | _ => cases h
  cases hm with
  | register hm =>
    cases hm with
    | finds j st hj hp =>
      split at h
      · obtain rfl : j = i := h
        exact .inr hj
      · cases h
    | vacantPushed j | vacantDropped j | vacantHigh j => exact .inl h
    | cas j won | casLocked j won => cases won <;> cases h
    | _ => cases h
  | wake hm =>
    cases hm with
    | notify k | lock k => cases h
    | unlock k | send k => cases k <;> cases h
  | scan hm => cases hm <;> first | cases h | cases hrole
  | push hm =>
    cases hm with
    | test w b | set w zero | mind w b => cases w <;> cases hrole
    | _ => cases hrole
  | life hm | drain hm | reclaim hm | clear hm | park hm => cases hm <;> cases hrole

omit [Inhabited V] [Inhabited Tid] in
theorem Bounds.move (h : Bounds cfg s γ) (ho : Owners cfg s γ) {r : Resp a}
    (hm : Move cfg (γ t) a r g) : Bounds cfg (apply cfg t a n s) (upd γ t g) := by
  refine ⟨fun i hi => ?_, fun u i hu => ?_, fun k i hk => ?_⟩
  · have hupd : ∀ {j : Nat} {c : Slot V Tid}, (i = j → i < cfg.producers) →
        ((s.setSlot j c).slot i).state ≠ .free → i < cfg.producers := by
      intro j c hj hne
      rw [State.setSlot_slot] at hne
      split at hne
      · rename_i hij
        exact hj hij
      · exact h.used i hne
    by_cases ht : a.turns = false
    · rw [apply_state ht] at hi
      exact h.used i hi
    · obtain ⟨j, rfl, hj⟩ | ⟨j, rfl, hγ⟩ | ⟨k, rfl, hγ, -⟩ | ⟨l, rfl, hγ⟩ :=
        hm.turn_cases (by simpa using ht)
      · unfold apply at hi
        dsimp only at hi
        split at hi
        · exact hupd (fun hij => hij ▸ hj) hi
        · exact h.used i hi
      · exact hupd (fun hij => hij ▸ h.vacant t j (by rw [hγ]; rfl)) hi
      · refine hupd (fun hij => hij ▸ h.used k.id ?_) hi
        have hat := ho.at_ t
        rw [hγ] at hat
        rw [hat.2]
        nofun
      · by_cases hl : i = l.i
        · subst hl
          simp only [apply, State.turn, State.setSlot_slot, if_true] at hi
          exact absurd rfl hi
        · exact hupd (fun hij => absurd hij hl) hi
  · by_cases hut : u = t
    · subst hut
      rw [upd_self] at hu
      obtain hu | hi := hm.to_vacant hu
      · exact h.vacant u i hu
      · exact hi
    · rw [upd_ne _ _ hut] at hu
      exact h.vacant u i hu
  · rw [apply_handles] at hk
    exact h.handles k i hk

variable (V Tid cfg) in
theorem bounds_keeps (ok : Tid → Act V Tid → State V Tid → Prop) :
    (flow V Tid cfg).Keeps ok (Bounds cfg) where
  init := ⟨fun _ h => absurd rfl h, nofun, nofun⟩
  begin {s γ} _ h t c hi he := by
    refine ⟨fun i hi => ?_, fun u i hu => ?_, fun k i hk => ?_⟩
    · rw [begin_slot] at hi
      exact h.used i hi
    · by_cases hut : u = t
      · subst hut
        rw [upd_self] at hu
        cases c <;> cases hu
      · rw [upd_ne _ _ hut] at hu
        exact h.vacant u i hu
    · rw [begin_handles] at hk
      exact h.handles k i hk
  move hr h t a n s' r g ha hs hm := by
    obtain ⟨-, rfl, -⟩ := sem_some cfg hs
    exact h.move ((owners_keeps V Tid cfg _).reach hr) hm
  finish {s γ} hr h t c r he := by
    have ho := (owners_keeps V Tid cfg _).reach hr
    refine ⟨fun i hi => ?_, fun u i hu => ?_, fun k i hk => ?_⟩
    · rw [finish_slot] at hi
      exact h.used i hi
    · by_cases hut : u = t
      · subst hut
        rw [upd_self] at hu
        cases hu
      · rw [upd_ne _ _ hut] at hu
        exact h.vacant u i hu
    · by_cases hreg : c ≠ .register ∨ r = .registered none
      · rw [(finish_frame hreg).2] at hk
        exact h.handles k i hk
      · obtain ⟨rfl, hr⟩ : c = .register ∧ r ≠ .registered none := by
          simpa only [not_or, not_not] using hreg
        have hnew : ∀ j, r = .registered (some j) → s.owner j = some (.claim t) → i < cfg.producers := by
          rintro j rfl hown
          have hk : (s.handles ++ [j])[k]? = some i := hk
          rw [List.getElem?_append] at hk
          split at hk
          · exact h.handles k i hk
          · obtain rfl : j = i := by
              obtain ⟨_, hji⟩ := List.getElem?_eq_some_iff.mp hk
              simpa using hji
            exact h.used j (by rw [ho.claim j t hown]; nofun)
        have hat := ho.at_ t
        obtain ⟨hn, -⟩ | ⟨j, hj, hg | ⟨-, hg⟩⟩ := he
        · exact absurd hn hr
        · rw [hg] at hat
          exact hnew j hj hat
        · rw [hg] at hat
          exact hnew j hj hat.1

/-! ## What a step does about a request -/

omit [DecidableEq Tid] [Inhabited V] [Inhabited Tid] in
theorem ReclaimAt.comesTo {rest : List Nat} {changed fin : Bool}
    (h : ReclaimAt cfg rest changed fin g) (hi : i ∈ rest) : g.comesTo i := by
  cases rest with
  | nil => cases hi
  | cons j rest =>
    have h : g = .reclaims .state ⟨j, rest, changed, fin⟩ := h
    subst h
    obtain rfl | hi := List.mem_cons.mp hi
    · exact .inl rfl
    · exact .inr hi

section
omit [Inhabited V] [Inhabited Tid]

/-- Whoever has made a slot retiring raises the flag next. -/
theorem Move.asksFor {r : Resp a} (hm : Move cfg g a r g') (h : g.asksFor i) :
    (apply cfg t a n s).pending = true := by
  cases hm with
  | push hm =>
    cases hm with
    | pending k => rfl
    | _ => cases h
  | wake hm =>
    cases hm with
    | lock k | send k => cases k <;> cases h
    | notify k | unlock k => cases h
  | life hm | register hm | scan hm | drain hm | reclaim hm | clear hm | park hm =>
    cases hm <;> cases h

/-- The consumer takes the flag, and comes to every slot. -/
theorem Move.takes_request {r : Resp a} (hm : Move cfg g a r g') (hr : r = reply cfg n s a)
    (h : s.pending = true) : (apply cfg t a n s).pending = true ∨
      g.role = .consume ∧ ∀ i < cfg.producers, g'.comesTo i := by
  cases a with
  | pendingStore b =>
    cases hm with
    | push hm => cases hm with | pending k => exact .inl rfl
    | reclaim hm =>
      cases hm with
      | takes hg => exact .inr ⟨rfl, fun i hi => hg.comesTo (List.mem_range.mpr hi)⟩
    | life hm => cases hm with | waits hw => cases hw
    | wake hm | register hm | scan hm | drain hm | clear hm | park hm => cases hm
  | pendingSwap =>
    cases hm with
    | reclaim hm =>
      cases hm with
      | skip hp hg => exact absurd (hr.trans h) nofun
      | take hp hg => exact .inr ⟨rfl, fun i hi => hg.comesTo (List.mem_range.mpr hi)⟩
    | life hm => cases hm with | waits hw => cases hw
    | wake hm | register hm | scan hm | drain hm | push hm | clear hm | park hm => cases hm
  | stateCas i => left; unfold apply; dsimp only; split <;> exact h
  | stateStore i st => left; cases st <;> exact h
  | _ => exact .inl h

/-- The consumer passes by a retiring slot only if a request is pending. -/
theorem Move.comesTo {r : Resp a} (hm : Move cfg g a r g') (hr : r = reply cfg n s a)
    (hat : RingAt cfg s t g) (hseen : SeenAt s g) (hst : (s.slot i).state = .retiring)
    (hst' : ((apply cfg t a n s).slot i).state = .retiring) (h : g.comesTo i) :
    g'.comesTo i ∨ s.pending = true := by
  cases hm with
  | reclaim hm =>
    cases hm with
    | retiring l | tail l c | empty l c | swapPushed l m | loadPushed l m | addPushed l m
      | swapDropped l m | loadDropped l m | zeroPushed l | zeroDropped l | unset l => exact .inl h
    | addDropped l m => split <;> exact .inl h
    | other l hne hg =>
      obtain rfl | hi := h
      · exact absurd (hr.trans hst) hne
      · exact .inl (hg.comesTo hi)
    | @filled l c d g hne hg =>
      obtain rfl | hi := h
      · obtain he | hp := hseen
        · have hc : c = (s.slot l.i).ring.tail := hat
          have hd : d = (s.slot l.i).ring.head := hr
          omega
        · exact .inr hp
      · exact .inl (hg.comesTo hi)
    | free l hg =>
      obtain rfl | hi := h
      · simp only [apply, State.turn, State.setSlot_slot, if_true] at hst'
        cases hst'
      · exact .inl (hg.comesTo hi)
    | _ => cases h
  | wake hm =>
    cases hm with
    | lock k | send k => cases k <;> cases h
    | notify k | unlock k => cases h
  | life hm | register hm | scan hm | drain hm | push hm | clear hm | park hm => cases hm <;> cases h

end

omit [DecidableEq Tid] [Inhabited V] [Inhabited Tid] in
theorem Entry.seenAt (h : Entry cfg g) : SeenAt s g := by
  cases h <;> trivial

omit [Inhabited V] [Inhabited Tid] in
/-- Where the consumer goes on to the ring's head. -/
theorem Move.sees {r : Resp a} (hm : Move cfg g a r g') (hok : reclaimsDrained t a s) :
    SeenAt (apply cfg t a n s) g' := by
  cases hm with
  | life hm => cases hm <;> trivial
  | wake hm =>
    cases hm with
    | lock k | notify k => trivial
    | unlock k | send k => cases k <;> trivial
  | register hm =>
    cases hm with
    | cas i won | casLocked i won => cases won <;> trivial
    | finds i st => split <;> trivial
    | _ => trivial
  | scan hm =>
    cases hm with
    | reclaim fin ids hg => exact hg.entry.seenAt
    | _ => trivial
  | push hm =>
    cases hm with
    | accepting k v b => cases b <;> trivial
    | cached k v pos c | see k v pos c | pending k | set w zero => split <;> trivial
    | test w b | mind w b => cases b <;> trivial
    | _ => trivial
  | drain hm =>
    cases hm with
    | word w r hg | ids clear l hg | flag clear i rest ids b hg | free k hg | drained k got hg
      | flushed d total hg | write d total hg | lastFlushed hg | lastWrite hg => exact hg.entry.seenAt
    | used k hst => exact (loopAt_entry cfg k 0).seenAt
    | staged k got m | spill k got m | cached k got room c d | look k got room c d =>
      split <;> trivial
    | copied k got c m out hn =>
      split
      · trivial
      · exact (loopAt_entry cfg k (got + m)).seenAt
    | _ => trivial
  | reclaim hm =>
    cases hm with
    | skip hp hg | take hp hg | skips hp hg | takes hg | other l hne hg | filled l hne hg
      | free l hg => exact hg.entry.seenAt
    | tail l c =>
      have hh : ((apply cfg t (.tailSee .reclaim l.i) n s).slot l.i).ring.head =
          (s.slot l.i).ring.head := setSlot_comp (fun c => c.ring.head) _ _ _ rfl
      have ht : ((apply cfg t (.tailSee .reclaim l.i) n s).slot l.i).ring.tail =
          (s.slot l.i).ring.tail := setSlot_comp (fun c => c.ring.tail) _ _ _ rfl
      show _ = _ ∨ _
      rw [hh, ht]
      exact hok
    | addDropped l m => split <;> trivial
    | _ => trivial
  | clear hm =>
    cases hm with
    | word w hg | filled i rest b hne hg | other i rest b hne hg | restore i rest b zero hg =>
      exact hg.entry.seenAt
    | emptyAgain i rest b c hg =>
      split at hg
      · split at hg
        · subst hg; trivial
        · exact hg.entry.seenAt
      · subst hg; trivial
    | _ => trivial
  | park hm =>
    cases hm with
    | arm told => cases told <;> trivial
    | word told zero | run told b => split <;> (try split) <;> trivial
    | disarm told => split <;> trivial
    | _ => trivial

/-! ## The invariant -/

omit [DecidableEq Tid] [Inhabited V] [Inhabited Tid] in
/-- What the consumer has seen, the steps of the others leave. -/
theorem SeenAt.kept (h : SeenAt s g) (hg : RingAt cfg s t g) (hg' : RingAt cfg s' t g)
    (hhead : g.role = .consume → ∀ i, (s'.slot i).ring.head = (s.slot i).ring.head)
    (hp : g.role = .consume → s.pending = true → s'.pending = true) : SeenAt s' g := by
  cases g with
  | reclaims p l =>
    cases p with
    | head c =>
      have h1 : c = (s.slot l.i).ring.tail := hg
      have h2 : c = (s'.slot l.i).ring.tail := hg'
      have h3 := hhead rfl l.i
      obtain he | hpe := h
      · left
        omega
      · exact .inr (hp rfl hpe)
    | _ => trivial
  | _ => trivial

omit [Inhabited V] [Inhabited Tid] in
theorem Asked.move (h : Asked s γ) (hc : Calls cfg s γ) (hb : Bounds cfg s γ)
    (hring : Rings cfg s γ) (hring' : Rings cfg (apply cfg t a n s) (upd γ t g))
    (hok : reclaimsDrained t a s) {r : Resp a} (hr : r = reply cfg n s a)
    (hm : Move cfg (γ t) a r g) : Asked (apply cfg t a n s) (upd γ t g) := by
  refine ⟨fun i hst => ?_, fun u => ?_⟩
  · by_cases hold : (s.slot i).state = .retiring
    · have hpend : s.pending = true → (apply cfg t a n s).pending = true ∨
          (∃ u, (upd γ t g u).asksFor i) ∨ ∃ u, (upd γ t g u).comesTo i := fun hp => by
        obtain hp | ⟨-, hall⟩ := hm.takes_request (t := t) hr hp
        · exact .inl hp
        · refine .inr (.inr ⟨t, ?_⟩)
          rw [upd_self]
          exact hall i (hb.used i (by rw [hold]; nofun))
      obtain hp | ha | hcome := h.retiring i hold
      · exact hpend hp
      · obtain ha | hp := some_place ha (fun hg => .inr (hm.asksFor hg)) fun u _ hu => hu
        · exact .inr (.inl ha)
        · exact .inl hp
      · obtain hcome | hp := some_place hcome
          (hm.comesTo hr (hring.at_ t) (h.seen t) hold hst) fun u _ hu => hu
        · exact .inr (.inr hcome)
        · exact hpend hp
    · obtain ⟨k, rfl, hk⟩ := hm.retires hold hst
      exact .inr (.inl ⟨t, by rw [upd_self]; exact hk⟩)
  · by_cases hut : u = t
    · subst hut
      rw [upd_self]
      exact hm.sees hok
    · have hat := hring'.at_ u
      rw [upd_ne _ _ hut] at hat ⊢
      refine (h.seen u).kept (hring.at_ u) hat (fun hrole i => hc.head_kept hm hut hrole)
        fun hrole hp => ?_
      obtain hp | ⟨hcons, -⟩ := hm.takes_request (t := t) hr hp
      · exact hp
      · exact absurd (hc.one_consumer hrole hcons) hut

omit [Inhabited V] [Inhabited Tid] in
/-- A call begins, or returns. -/
theorem Asked.turns (h : Asked s γ) (hs : s'.slot = s.slot ∧ s'.pending = s.pending)
    (hg : SeenAt s g) (ht : ∀ i, ¬ (γ t).asksFor i ∧ ¬ (γ t).comesTo i) :
    Asked s' (upd γ t g) := by
  obtain ⟨h1, h2⟩ := hs
  have hseen : ∀ {g : Place V Tid}, SeenAt s g → SeenAt s' g := fun {g} hg => by
    cases g with
    | reclaims p l =>
      cases p with
      | head c =>
        show _ = _ ∨ _
        rw [h1, h2]
        exact hg
      | _ => trivial
    | _ => trivial
  refine ⟨fun i hst => ?_, at_upd (P := fun _ => SeenAt s') (hseen hg) fun u _ => hseen (h.seen u)⟩
  rw [h1] at hst
  rw [h2]
  exact (h.retiring i hst).imp_right
    (Or.imp (fun he => other_place he (ht i).1) fun he => other_place he (ht i).2)

omit [DecidableEq Tid] [Inhabited V] [Inhabited Tid] in
theorem endPlace_asks {c : Call V} {r : Result} (h : endPlace cfg c r g) (i : Nat) :
    ¬ g.asksFor i ∧ ¬ g.comesTo i := by
  cases c with
  | start => obtain ⟨-, rfl⟩ := h; exact ⟨id, id⟩
  | stop m => obtain ⟨-, rfl⟩ | ⟨-, rfl⟩ := h <;> exact ⟨id, id⟩
  | register => obtain ⟨-, rfl⟩ | ⟨i, -, rfl | ⟨-, rfl⟩⟩ := h <;> exact ⟨id, id⟩
  | push k v => obtain ⟨-, rfl | rfl⟩ | ⟨-, rfl | ⟨-, rfl⟩⟩ := h <;> exact ⟨id, id⟩
  | retire k => obtain ⟨-, rfl⟩ := h; exact ⟨id, id⟩
  | consume => obtain ⟨-, rfl⟩ := h; exact ⟨id, id⟩

variable (V Tid cfg) in
theorem asked_keeps (ok : Tid → Act V Tid → State V Tid → Prop)
    (hok : ∀ t a s, ok t a s → reclaimsDrained t a s) : (flow V Tid cfg).Keeps ok Asked where
  init := ⟨nofun, fun _ => trivial⟩
  begin {s γ} _ h t c hi he := by
    have hi : γ t = .idle := hi
    show Asked (begin cfg t c s) (upd γ t (startPlace c))
    refine h.turns ?_ (by cases c <;> trivial) fun i => by rw [hi]; exact ⟨id, id⟩
    rw [begin_eq]
    exact ⟨rfl, rfl⟩
  move hr h t a n s' r g ha hs hm := by
    obtain ⟨-, rfl, h2⟩ := sem_some cfg hs
    have hrings := rings_keeps V Tid cfg ok
    exact h.move ((calls_keeps V Tid cfg _).reach hr) ((bounds_keeps V Tid cfg _).reach hr)
      (hrings.reach hr) (hrings.reach (hr.step (.move t a n ha hs hm))) (hok t a _ ha) h2 hm
  finish {s γ} hr h t c r he := by
    show Asked (finish cfg t c r s) (upd γ t .idle)
    refine h.turns ?_ trivial (endPlace_asks he)
    rw [finish_eq]
    exact ⟨rfl, rfl⟩

/-! ## No request is forgotten -/

/-- Of `reclaim_retired`, when the consumer does it. -/
def Act.reclaims : Act V Tid → Bool
  | .stateLoad .reclaim _ | .tailSee .reclaim _ | .headLoad .reclaim _ | .pushedSwap _
  | .droppedSwap _ | .pushedLoad _ | .droppedLoad _ | .retiredPushedAdd _ | .retiredDroppedAdd _
  | .pushedStore _ | .droppedStore _ | .bitClear .reclaim _ | .stateStore _ _ | .stateLoad .scan _
  | .registeredStore _ => true
  | _ => false

/-- The consumer is inside `reclaim_retired`. -/
def Reclaiming (x : System.Config (pipeline V Tid cfg)) : Prop :=
  ∃ t a, x.state.consumer = some t ∧ System.AtOp x t a ∧ a.reclaims = true

omit [DecidableEq Tid] [Inhabited V] [Inhabited Tid] in
theorem Move.reclaims {r : Resp a} (hm : Move cfg g a r g') (h : g.comesTo i) :
    a.reclaims = true := by
  cases hm with
  | reclaim hm => cases hm <;> first | rfl | cases h
  | wake hm =>
    cases hm with
    | lock k | send k => cases k <;> cases h
    | notify k | unlock k => cases h
  | life hm | register hm | scan hm | drain hm | push hm | clear hm | park hm => cases hm <;> cases h

theorem reclaiming_of_comes {x : System.Config (pipeline V Tid cfg)}
    (hst : (flow V Tid cfg).Stands t g (x.thread t)) (hc : x.state.consumer = some t)
    (h : g.comesTo i) : Reclaiming x := by
  have hin : g.inside := by
    cases g with
    | reclaims p l => trivial
    | _ => cases h
  obtain ⟨a, hat, hmove⟩ := inside_acts hst hin
  obtain ⟨g', hm⟩ := hmove (reply cfg 0 x.state a)
  exact ⟨t, a, hc, hat, hm.reclaims h⟩

/-- While no thread is in `retire` and the consumer is not in `reclaim_retired`,
a retiring slot has its request pending. -/
theorem retiring_is_pending {x : System.Config (pipeline V Tid cfg)}
    (hx : System.ReachableIf reclaimsDrained x)
    (hret : ∀ t k, x.state.inCall t ≠ some (.retire k)) (hrec : ¬ Reclaiming x)
    (hi : (x.state.slot i).state = .retiring) : x.state.pending = true := by
  obtain ⟨γ, hγ, hst⟩ := (follows V Tid cfg).stands hx
  have hc := (calls_keeps V Tid cfg _).reach hγ
  obtain hp | ⟨t, ht⟩ | ⟨t, ht⟩ := ((asked_keeps V Tid cfg _ fun _ _ _ h => h).reach hγ).retiring i hi
  · exact hp
  · have hrole : ∃ k, (γ t).role = .retire k := by
      cases hγt : γ t with
      | leaving k => exact ⟨k, rfl⟩
      | _ => rw [hγt] at ht; cases ht
    obtain ⟨k, hk⟩ := hrole
    exact absurd (hc.retire hk) (hret t k)
  · have hrole : (γ t).role = .consume := by
      cases hγt : γ t with
      | reclaims p l => rfl
      | _ => rw [hγt] at ht; cases ht
    exact absurd (reclaiming_of_comes (hst t) (hc.consume hrole) ht) hrec

end

/-! ## Three threads -/

/-- The test that the last thread consumes, is not reclaiming, and nobody retires. -/
def reclaimsNothing {port : Port} (x : System.Config (three port)) : Bool :=
  decide (x.state.consumer = some 2) && (System.next x 2).all (fun a => !a.reclaims) &&
    (List.finRange 3).all fun t => (x.state.inCall t).all fun c => decide (c = .consume)

theorem of_reclaimsNothing {port : Port} {x : System.Config (three port)}
    (h : reclaimsNothing x = true) :
    (∀ t k, x.state.inCall t ≠ some (.retire k)) ∧ ¬ Reclaiming x := by
  simp only [reclaimsNothing, Bool.and_eq_true, decide_eq_true_eq, List.all_eq_true,
    List.mem_finRange, forall_const] at h
  obtain ⟨⟨hcons, hnext⟩, hcalls⟩ := h
  refine ⟨fun t k hk => ?_, ?_⟩
  · have := hcalls t
    rw [hk, Option.all_some] at this
    exact absurd (of_decide_eq_true this) nofun
  · rintro ⟨t, a, hc, hat, ha⟩
    obtain rfl := Option.some.inj (hcons.symm.trans hc)
    rw [System.atOp_iff.mp hat] at hnext
    have hnext : (!a.reclaims) = true := hnext
    rw [ha] at hnext
    cases hnext

def drainedTest (s : State Nat (Fin 3)) : Act Nat (Fin 3) → Bool
  | .tailSee .reclaim i => decide ((s.slot i).ring.head = (s.slot i).ring.tail ∨ s.pending = true)
  | _ => true

theorem drainedTest_iff (t : Fin 3) (s : State Nat (Fin 3)) (a : Act Nat (Fin 3)) :
    drainedTest s a = true ↔ reclaimsDrained t a s := by
  unfold drainedTest reclaimsDrained
  split
  · exact decide_eq_true_iff
  · simp

instance (t : Fin 3) (a : Act Nat (Fin 3)) (s : State Nat (Fin 3)) :
    Decidable (reclaimsDrained t a s) :=
  decidable_of_iff _ (drainedTest_iff t s a)

/-- An event is pushed and taken; then its producer retires. -/
def retiresDrained : List (System.Label (three .cpp)) :=
  does _ 0 .start 4 ++ does _ 1 .register 5 ++ does _ 1 (.push ⟨0, 0⟩ 7) 14 ++
  does _ 2 .consume 20 ++ does _ 1 (.retire ⟨0, 0⟩) 7

theorem retiring_is_pending_one : ∃ x : System.Config (three .cpp),
    System.ReachableIf reclaimsDrained x ∧ (x.state.slot 0).state = .retiring ∧
      x.state.pending = true := by
  obtain ⟨x, hx, hp⟩ := System.reachableIf_of_test (@System.of_meets _ reclaimsDrained _)
    retiresDrained (fun x => reclaimsNothing x && decide ((x.state.slot 0).state = .retiring))
    (by decide +kernel)
  rw [Bool.and_eq_true, decide_eq_true_eq] at hp
  obtain ⟨hret, hrec⟩ := of_reclaimsNothing hp.1
  exact ⟨x, hx, hp.2, retiring_is_pending hx hret hrec hp.2⟩

/-- A producer pushes and retires between the consumer's empty pass and its look
at the flag; the consumer takes the flag, and skips the slot. -/
def retiresFilled : List (System.Label (three .cpp)) :=
  does _ 0 .start 4 ++ does _ 1 .register 5 ++ does _ 2 .consume 3 ++
  does _ 1 (.push ⟨0, 0⟩ 7) 14 ++ does _ 1 (.retire ⟨0, 0⟩) 7 ++ ops _ 2 67

/-- A slot is retiring, and its request is forgotten. -/
theorem request_forgotten : ∃ x : System.Config (three .cpp), (three .cpp).Reachable x ∧
    (∀ t k, x.state.inCall t ≠ some (.retire k)) ∧ ¬ Reclaiming x ∧
      (x.state.slot 0).state = .retiring ∧ x.state.pending = false := by
  obtain ⟨x, hx, hp⟩ := System.reachable_of_test retiresFilled (fun x => reclaimsNothing x &&
    (decide ((x.state.slot 0).state = .retiring) && decide (x.state.pending = false)))
    (by decide +kernel)
  rw [Bool.and_eq_true, Bool.and_eq_true, decide_eq_true_eq, decide_eq_true_eq] at hp
  obtain ⟨hret, hrec⟩ := of_reclaimsNothing hp.1
  exact ⟨x, hx, hret, hrec, hp.2⟩

end Katas.Weir.Pipeline
