import Katas.Weir.PipelineFollows

/-!
# Who is in which call

Every place belongs to one call (`Place.role`), and a move stays in it. So a
thread stands where its call says, there is one consumer at a time, one thread
starts the pipeline, and a handle is used by the thread that the history names.
-/
namespace Katas.Weir.Pipeline
open Katas.Conc Flow

/-- The call a place belongs to, a stop without its mode. -/
inductive Role (V : Type) where
  | idle
  | start
  | stop
  | register
  | push (h : Handle) (v : V)
  | retire (h : Handle)
  | consume

section
variable {V Tid : Type}

def Who.role : Who V → Role V
  | .pushed h v => .push h v
  | .retired h => .retire h

def Waker.role : Waker V → Role V
  | .signal w => w.role
  | .retire h => .retire h
  | .register => .register
  | .stop | .halt => .stop

def Place.role : Place V Tid → Role V
  | .idle => .idle
  | .starting | .started => .start
  | .stopping | .halted | .joining | .stopped => .stop
  | .out | .locked | .vacant _ | .claimed _ | .given _ | .scans (.register _) _ _ => .register
  | .asks h v | .refused h v | .tries h v | .room h v _ | .full h v _ | .writes h v _
  | .publishes h v _ | .published h v | .dropped h v => .push h v
  | .leaves h | .leaving h | .left h => .retire h
  | .tests w | .sets w | .minds w | .wakes w | .signalled w => w.role
  | .notifies k | .unlocks k => k.role
  | _ => .consume

def Call.role : Call V → Role V
  | .start => .start
  | .stop _ => .stop
  | .register => .register
  | .push h v => .push h v
  | .retire h => .retire h
  | .consume => .consume

variable (cfg : Config) {d : Drain} {total : Nat} {rest : List Nat} {g g' : Place V Tid}

/-! ## A move stays in its call -/

/-- The places a pass, a clearing or a reclaim can lead to when it is done
with a slot. -/
inductive Entry : Place V Tid → Prop
  | top : Entry .top
  | word : Entry .word
  | ids (clear : Bool) : Entry (.ids clear)
  | flags (clear : Bool) (i : Nat) (rest ids : List Nat) : Entry (.flags clear i rest ids)
  | probe (k : Spot) : Entry (.probe k)
  | makes (k : Spot) (got : Nat) : Entry (.makes k got)
  | drained (k : Spot) (got : Nat) : Entry (.drained k got)
  | flush (d : Drain) (total : Nat) : Entry (.flush d total)
  | asked : Entry .asked
  | reclaims (l : Lot) : Entry (.reclaims .state l)
  | scans (fin : Bool) (rest ids : List Nat) : Entry (.scans (.reclaim fin) rest ids)
  | clearWord : Entry .clearWord
  | judge (i : Nat) (rest : List Nat) (b : Bool) : Entry (.clears .judge i rest b)
  | clear (i : Nat) (rest : List Nat) (b : Bool) : Entry (.clears .tail i rest b)
  | eval (told : Bool) : Entry (.parks .eval told)
  | lock (told : Bool) : cfg.port = .cpp → Entry (.parks .lock told)
  | arm (told : Bool) : cfg.port = .go → Entry (.parks .arm told)
  | lastFlush : Entry .lastFlush
  | exit : Entry .exit

theorem loopAt_entry (k : Spot) (got : Nat) : Entry cfg (loopAt cfg k got : Place V Tid) := by
  unfold loopAt
  split
  · exact .makes k got
  · exact .drained k got

theorem spotAt_entry (k : Spot) : Entry cfg (spotAt cfg k : Place V Tid) := by
  unfold spotAt
  split
  · exact .probe k
  · exact loopAt_entry cfg k 0

theorem parkAt_entry : Entry cfg (parkAt cfg : Place V Tid) := by
  unfold parkAt
  split
  · rename_i hp
    exact .lock true hp
  · rename_i hp
    exact .arm true hp
  · exact .eval true

variable {cfg}

theorem PassEnds.entry (h : PassEnds cfg d total g) : Entry cfg g := by
  unfold PassEnds at h
  cases d with
  | main =>
    subst h
    split
    · exact .top
    · exact .asked
  | settle =>
    subst h
    split
    · exact .top
    · exact parkAt_entry cfg
  | final =>
    dsimp only at h
    split at h
    · obtain ⟨r, rfl⟩ := h; exact .probe _
    · subst h; exact .probe _
  | last =>
    dsimp only at h
    split at h
    · obtain ⟨r, rfl⟩ := h; exact .probe _
    · subst h; exact .lastFlush

theorem Enters.entry (h : Enters cfg d rest total g) : Entry cfg g := by
  unfold Enters at h
  cases rest with
  | cons i rest => subst h; exact spotAt_entry cfg _
  | nil =>
    dsimp only at h
    split at h
    · subst h; exact .flush _ _
    · exact h.entry

theorem Settles.entry (h : Settles cfg g) : Entry cfg g := by
  unfold Settles at h
  split at h
  · obtain ⟨r, rfl⟩ := h; exact .probe _
  · subst h
    split
    · exact .ids true
    · exact .clearWord

theorem Rung.entry (h : Rung cfg g) : Entry cfg g := by
  obtain rfl | h := h
  · exact .top
  · exact h.entry

theorem ClearAt.entry (h : ClearAt cfg rest g) : Entry cfg g := by
  unfold ClearAt at h
  cases rest with
  | nil => obtain ⟨r, rfl⟩ := h; exact .probe _
  | cons i rest =>
    subst h
    split
    · exact .judge _ _ _
    · exact .clear _ _ _

theorem FlagsAt.entry {clear : Bool} {ids : List Nat} (h : FlagsAt cfg clear rest ids g) :
    Entry cfg g := by
  unfold FlagsAt at h
  cases rest with
  | cons i rest => subst h; exact .flags _ _ _ _
  | nil =>
    dsimp only at h
    split at h
    · exact h.entry
    · obtain ⟨r, h⟩ := h; exact h.entry

theorem ReclaimEnds.entry {fin : Bool} (h : ReclaimEnds cfg fin g) : Entry cfg g := by
  unfold ReclaimEnds at h
  split at h
  · subst h; exact .exit
  · exact h.entry

theorem ReclaimAt.entry {changed fin : Bool} (h : ReclaimAt cfg rest changed fin g) :
    Entry cfg g := by
  unfold ReclaimAt at h
  cases rest with
  | cons i rest => subst h; exact .reclaims _
  | nil =>
    dsimp only at h
    split at h
    · subst h; exact .scans _ _ _
    · exact h.entry

theorem Entry.role (h : Entry cfg g) : g.role = .consume := by
  cases h <;> rfl

theorem wakeFrom_role (k : Waker V) : (wakeFrom k : Place V Tid).role = k.role := by
  cases k <;> rfl

theorem wakeTo_role (k : Waker V) : (wakeTo k : Place V Tid).role = k.role := by
  cases k <;> rfl

theorem Move.role {a : Act V Tid} {r : Resp a} (hm : Move cfg g a r g') : g'.role = g.role := by
  cases hm with
  | life hm => cases hm <;> rfl
  | wake hm =>
    cases hm with
    | lock k => exact (wakeFrom_role k).symm
    | notify k => rfl
    | unlock k => exact wakeTo_role k
    | send k => rw [wakeTo_role, wakeFrom_role]
  | register hm => cases hm <;> first | rfl | (split <;> rfl)
  | scan hm =>
    cases hm with
    | load w i rest ids st => cases w <;> rfl
    | register i ids => rfl
    | reclaim fin ids h => exact h.entry.role
  | push hm =>
    cases hm with
    | test w b hs => cases b <;> rfl
    | set w zero => split <;> rfl
    | mind w b => cases b <;> rfl
    | accepting h v b => cases b <;> rfl
    | cached h v t c => split <;> rfl
    | see h v t c => split <;> rfl
    | pending h => split <;> rfl
    | _ => rfl
  | drain hm =>
    cases hm with
    | word w r h => exact h.entry.role
    | ids clear l h => exact h.entry.role
    | flag clear i rest ids b h => exact h.entry.role
    | free k h => exact h.entry.role
    | used k h => exact (loopAt_entry cfg k 0).role
    | staged k got n => split <;> rfl
    | spill k got n => split <;> rfl
    | cached k got room h c => split <;> rfl
    | look k got room h c => split <;> rfl
    | copied k got h n out hn =>
      split
      · rfl
      · exact (loopAt_entry cfg k _).role
    | drained k got h => exact h.entry.role
    | flushed d total h => exact h.entry.role
    | write d total h => exact h.entry.role
    | lastFlushed h => exact h.entry.role
    | lastWrite h => exact h.entry.role
    | _ => rfl
  | reclaim hm =>
    cases hm with
    | skip hp h => exact h.entry.role
    | take hp h => exact h.entry.role
    | skips hp h => exact h.entry.role
    | takes h => exact h.entry.role
    | other l hst h => exact h.entry.role
    | filled l hc h => exact h.entry.role
    | addDropped l n => split <;> rfl
    | free l h => exact h.entry.role
    | _ => rfl
  | clear hm =>
    cases hm with
    | word w h => exact h.entry.role
    | filled i rest b hc h => exact h.entry.role
    | emptyAgain i rest b c h =>
      split at h
      · split at h
        · subst h; rfl
        · exact h.entry.role
      · subst h; rfl
    | other i rest b hst h => exact h.entry.role
    | restore i rest b zero h => exact h.entry.role
    | _ => rfl
  | park hm =>
    cases hm with
    | arm told => cases told <;> rfl
    | word told zero => split <;> (try split) <;> rfl
    | run told b => split <;> (try split) <;> rfl
    | disarm told => split <;> rfl
    | _ => rfl

/-! ## The histories of the calls -/

/-- A handle is used by the thread whose call is at it. -/
structure HandleUse (inCall : Tid → Option (Call V)) (use : Nat → Use Tid) (handles : List Nat) :
    Prop where
  pushing : ∀ t h v, inCall t = some (.push h v) →
    use h.serial = .pushing t ∧ handles[h.serial]? = some h.id
  retiring : ∀ t h, inCall t = some (.retire h) →
    use h.serial = .retiring t ∧ handles[h.serial]? = some h.id
  pusher : ∀ k t, use k = .pushing t → ∃ h v, h.serial = k ∧ inCall t = some (.push h v)
  fresh : ∀ k, handles.length ≤ k → use k = .ready

/-- `joined`: a C++ pipeline that cannot be joined has no consumer. -/
structure Calls (cfg : Config) (s : State V Tid) (γ : Tid → Place V Tid) : Prop
    extends HandleUse s.inCall s.use s.handles where
  roles : ∀ t, (γ t).role = match s.inCall t with
    | none => .idle
    | some c => c.role
  consumer : ∀ t, s.consumer = some t ↔ s.inCall t = some .consume
  starts : ∀ t, s.inCall t = some .start → s.life = some t
  stops : cfg.port = .cpp → ∀ t m, s.inCall t = some (.stop m) → s.life = some t
  spawned : s.spawned = true → s.consumer = none
  alive : s.spawned = true ∨ s.consumer ≠ none → s.started = true ∧ s.exited = false
  ended : s.exited = true → s.started = true
  joined : cfg.port = .cpp → s.joinable = false → s.started = false ∨ s.exited = true
  starting : ∀ t, γ t = .starting → s.started = false ∨ cfg.port = .cpp ∧ s.exited = true

end

section
variable {V Tid : Type} [DecidableEq Tid] [Inhabited V] [Inhabited Tid] {cfg : Config}
  {s : State V Tid} {γ : Tid → Place V Tid} {t : Tid}

section
omit [DecidableEq Tid] [Inhabited V] [Inhabited Tid]

theorem Calls.idle (h : Calls cfg s γ) (hi : γ t = .idle) : s.inCall t = none := by
  have := h.roles t
  rw [hi] at this
  cases hc : s.inCall t with
  | none => rfl
  | some c => rw [hc] at this; cases c <;> cases this

theorem Calls.role_eq (h : Calls cfg s γ) {c : Call V} (hc : s.inCall t = some c) :
    (γ t).role = c.role := by
  rw [h.roles t, hc]

/-- The call of a thread that stands at a place of a push. -/
theorem Calls.push (h : Calls cfg s γ) {k : Handle} {v : V} (hr : (γ t).role = .push k v) :
    s.inCall t = some (.push k v) := by
  rw [h.roles t] at hr
  cases hc : s.inCall t with
  | none => rw [hc] at hr; cases hr
  | some c => rw [hc] at hr; cases c <;> cases hr; rfl

theorem Calls.retire (h : Calls cfg s γ) {k : Handle} (hr : (γ t).role = .retire k) :
    s.inCall t = some (.retire k) := by
  rw [h.roles t] at hr
  cases hc : s.inCall t with
  | none => rw [hc] at hr; cases hr
  | some c => rw [hc] at hr; cases c <;> cases hr; rfl

theorem Calls.consume (h : Calls cfg s γ) (hr : (γ t).role = .consume) : s.consumer = some t := by
  rw [h.consumer t]
  rw [h.roles t] at hr
  cases hc : s.inCall t with
  | none => rw [hc] at hr; cases hr
  | some c => rw [hc] at hr; cases c <;> cases hr; rfl

theorem Calls.start (h : Calls cfg s γ) (hr : (γ t).role = .start) : s.inCall t = some .start := by
  rw [h.roles t] at hr
  cases hc : s.inCall t with
  | none => rw [hc] at hr; cases hr
  | some c => rw [hc] at hr; cases c <;> cases hr; rfl

theorem Calls.stop (h : Calls cfg s γ) (hr : (γ t).role = .stop) :
    ∃ m, s.inCall t = some (.stop m) := by
  rw [h.roles t] at hr
  cases hc : s.inCall t with
  | none => rw [hc] at hr; cases hr
  | some c => rw [hc] at hr; cases c <;> cases hr; exact ⟨_, rfl⟩

theorem Calls.one_consumer (h : Calls cfg s γ) {u : Tid} (ht : (γ t).role = .consume)
    (hu : (γ u).role = .consume) : t = u :=
  Option.some.inj ((h.consume ht).symm.trans (h.consume hu))

end

/-! ## They are kept -/

variable {c : Call V} {r : Result} {a : Act V Tid} {n : Nat}

omit [Inhabited V] [Inhabited Tid] in
@[simp] theorem begin_inCall : (begin cfg t c s).inCall = upd s.inCall t (some c) := by
  cases c <;> rfl

omit [Inhabited V] [Inhabited Tid] in
@[simp] theorem finish_inCall : (finish cfg t c r s).inCall = upd s.inCall t none := by
  unfold finish
  split <;> rfl

omit [DecidableEq Tid] [Inhabited V] [Inhabited Tid] in
theorem endPlace_role {g : Place V Tid} (h : endPlace cfg c r g) : g.role = c.role := by
  cases c with
  | start => obtain ⟨-, rfl⟩ := h; rfl
  | stop m => obtain ⟨-, rfl⟩ | ⟨-, rfl⟩ := h <;> rfl
  | register => obtain ⟨-, rfl⟩ | ⟨i, -, rfl | ⟨-, rfl⟩⟩ := h <;> rfl
  | push k v => obtain ⟨-, rfl | rfl⟩ | ⟨-, rfl | ⟨-, rfl⟩⟩ := h <;> rfl
  | retire k => obtain ⟨-, rfl⟩ := h; rfl
  | consume => obtain ⟨-, rfl⟩ := h; rfl

omit [DecidableEq Tid] [Inhabited V] [Inhabited Tid] in
theorem WakeMove.role {g g' : Place V Tid} {r : Resp a} (hm : WakeMove cfg g a r g') :
    ∃ k : Waker V, g.role = k.role := by
  cases hm with
  | lock k | send k => exact ⟨k, wakeFrom_role k⟩
  | notify k | unlock k => exact ⟨k, rfl⟩

omit [Inhabited V] in
theorem Waker.role_ne (k : Waker V) :
    k.role ≠ .start ∧ k.role ≠ .consume ∧ k.role ≠ .idle := by
  cases k with
  | signal w => cases w <;> exact ⟨nofun, nofun, nofun⟩
  | _ => exact ⟨nofun, nofun, nofun⟩

omit [Inhabited V] [DecidableEq Tid] [Inhabited Tid] in
theorem role_start {g : Place V Tid} (h : g.role = .start) : g = .starting ∨ g = .started := by
  cases g with
  | starting => exact .inl rfl
  | started => exact .inr rfl
  | tests w | sets w | minds w | wakes w | signalled w => cases w <;> cases h
  | notifies k | unlocks k => exact absurd h k.role_ne.1
  | scans w rest ids => cases w <;> cases h
  | _ => cases h

omit [Inhabited V] [DecidableEq Tid] [Inhabited Tid] in
/-- Before it creates the consumer, `start` only gets there from itself. -/
theorem Move.to_starting {g : Place V Tid} {r : Resp a} (hm : Move cfg g a r .starting) :
    g = .starting ∧ a ≠ .threadStart := by
  have hno : ∀ k : Waker V, g.role ≠ k.role := fun k h => k.role_ne.1 (h.symm.trans hm.role.symm)
  obtain rfl | rfl := role_start hm.role.symm
  · refine ⟨rfl, ?_⟩
    rintro rfl
    cases hm with
    | life hm => cases hm
    | wake hm => obtain ⟨k, hk⟩ := hm.role; exact hno k hk
    | _ hm => cases hm
  · cases hm with
    | life hm => cases hm
    | wake hm => obtain ⟨k, hk⟩ := hm.role; exact absurd hk (hno k)
    | _ hm => cases hm

/-- Starts or ends the consumer. -/
def Act.lives : Act V Tid → Bool
  | .threadStart | .join => true
  | _ => false

section
omit [Inhabited V] [Inhabited Tid]

theorem apply_lives (h : a.lives = false) : (apply cfg t a n s).spawned = s.spawned ∧
    (apply cfg t a n s).started = s.started ∧ (apply cfg t a n s).exited = s.exited ∧
    (apply cfg t a n s).joinable = s.joinable := by
  cases a with
  | threadStart | join => cases h
  | stateCas i => unfold apply; dsimp only; split <;> exact ⟨rfl, rfl, rfl, rfl⟩
  | stateStore i st => cases st <;> exact ⟨rfl, rfl, rfl, rfl⟩
  | _ => exact ⟨rfl, rfl, rfl, rfl⟩

theorem Calls.move (h : Calls cfg s γ) {r : Resp a} {g : Place V Tid}
    (hr : ready cfg a n s = true) (hm : Move cfg (γ t) a r g) :
    Calls cfg (apply cfg t a n s) (upd γ t g) := by
  have hstart : ∀ u, upd γ t g u = .starting → γ u = .starting ∧ (u = t → a ≠ .threadStart) := by
    intro u hu
    by_cases ht : u = t
    · subst ht
      rw [upd_self] at hu
      subst hu
      exact ⟨hm.to_starting.1, fun _ => hm.to_starting.2⟩
    · rw [upd_ne _ _ ht] at hu
      exact ⟨hu, fun h => absurd h ht⟩
  have hroles : ∀ u, (upd γ t g u).role = (γ u).role := by
    intro u
    by_cases ht : u = t
    · subst ht; rw [upd_self, hm.role]
    · rw [upd_ne _ _ ht]
  have hcalls := fun u => (hroles u).trans (h.roles u)
  by_cases hl : a.lives = false
  · obtain ⟨h1, h2, h3, h4⟩ := apply_lives (s := s) (t := t) (n := n) hl
    refine ⟨?_, ?_, ?_, ?_, ?_, ?_, ?_, ?_, ?_, ?_⟩
    · simpa using h.toHandleUse
    · simpa using hcalls
    · simpa using h.consumer
    · simpa using h.starts
    · simpa using h.stops
    · rw [h1, apply_consumer]; exact h.spawned
    · rw [h1, h2, h3, apply_consumer]; exact h.alive
    · rw [h2, h3]; exact h.ended
    · rw [h2, h3, h4]; exact h.joined
    · intro u hu
      rw [h2, h3]
      exact h.starting u (hstart u hu).1
  · cases a with
    | threadStart =>
      have hg : γ t = .starting := by
        generalize γ t = g₀ at hm
        cases hm with
        | life hm =>
          cases hm with
          | thread => rfl
          | waits h => cases h
        | wake hm => cases hm
        | _ hm => cases hm
      have hdead : s.consumer = none := by
        by_contra hne
        obtain ⟨h1, h2⟩ := h.alive (.inr hne)
        rcases h.starting t hg with hs | ⟨-, hs⟩
        · exact Bool.false_ne_true (hs.symm.trans h1)
        · exact Bool.false_ne_true (h2.symm.trans hs)
      have hlife := h.starts t (h.start (by rw [hg]; rfl))
      refine { h with
        roles := hcalls, spawned := fun _ => hdead, alive := fun _ => ⟨rfl, rfl⟩
        ended := fun _ => rfl, joined := fun _ hj => absurd hj.symm Bool.false_ne_true
        starting := fun u hu => ?_ }
      -- another thread that starts the pipeline would be the one in `life`
      obtain ⟨hu, hne⟩ := hstart u hu
      have hut := h.starts u (h.start (by rw [hu]; rfl))
      exact absurd rfl (hne (Option.some.inj (hut.symm.trans hlife)))
    | join =>
      refine { h with
        roles := hcalls, joined := fun hp hj => ?_
        starting := fun u hu => h.starting u (hstart u hu).1 }
      have hr : s.exited = true := by simpa [ready, hp] using hr
      exact .inr hr
    | _ => exact absurd rfl hl

/-- After thread `t`, which was in no call, begins `c`. -/
theorem upd_none {f : Tid → Option (Call V)} (hf : f t = none) {u : Tid} {d : Call V}
    (hd : d ≠ c) : upd f t (some c) u = some d ↔ f u = some d := by
  by_cases hu : u = t
  · subst hu
    rw [upd_self, hf]
    exact ⟨fun h => absurd (Option.some.inj h).symm hd, nofun⟩
  · rw [upd_ne _ _ hu]

theorem upd_some {f : Tid → Option (Call V)} {u : Tid} {o : Option (Call V)} {d : Call V}
    (h : upd f t o u = some d) : u = t ∧ o = some d ∨ u ≠ t ∧ f u = some d := by
  by_cases hu : u = t
  · subst hu
    rw [upd_self] at h
    exact .inl ⟨rfl, h⟩
  · rw [upd_ne _ _ hu] at h
    exact .inr ⟨hu, h⟩

/-! ## Who is at a handle -/

section handles
variable {f : Tid → Option (Call V)} {use : Nat → Use Tid} {hs : List Nat}

theorem HandleUse.begins (h : HandleUse f use hs) (hf : f t = none) (hp : ∀ k v, c ≠ .push k v)
    (hr : ∀ k, c ≠ .retire k) : HandleUse (upd f t (some c)) use hs where
  pushing u k v hu := h.pushing u k v ((upd_none hf (hp k v).symm).mp hu)
  retiring u k hu := h.retiring u k ((upd_none hf (hr k).symm).mp hu)
  pusher k u hu := by
    obtain ⟨k', v, hk, hu⟩ := h.pusher k u hu
    exact ⟨k', v, hk, (upd_none hf (hp k' v).symm).mpr hu⟩
  fresh := h.fresh

theorem HandleUse.ends (h : HandleUse f use hs) {d : Call V} (hd : f t = some d)
    (hp : ∀ k v, d ≠ .push k v) : HandleUse (upd f t none) use hs where
  pushing u k v hu := by
    obtain ⟨-, hu⟩ | ⟨-, hu⟩ := upd_some hu
    · cases hu
    · exact h.pushing u k v hu
  retiring u k hu := by
    obtain ⟨-, hu⟩ | ⟨-, hu⟩ := upd_some hu
    · cases hu
    · exact h.retiring u k hu
  pusher k u hu := by
    obtain ⟨k', v, hk, hu⟩ := h.pusher k u hu
    refine ⟨k', v, hk, (upd_ne _ _ ?_).trans hu⟩
    rintro rfl
    exact hp k' v (Option.some.inj (hd.symm.trans hu))
  fresh := h.fresh

omit [DecidableEq Tid] in
/-- A handle is given out. -/
theorem HandleUse.gives (h : HandleUse f use hs) (i : Nat) : HandleUse f use (hs ++ [i]) := by
  have hget : ∀ {j id : Nat}, hs[j]? = some id → (hs ++ [i])[j]? = some id := by
    intro j id hj
    obtain ⟨hlt, -⟩ := List.getElem?_eq_some_iff.mp hj
    rw [List.getElem?_append_left hlt]
    exact hj
  refine ⟨fun u k v hu => ?_, fun u k hu => ?_, h.pusher, fun k hk => h.fresh k ?_⟩
  · exact ⟨(h.pushing u k v hu).1, hget (h.pushing u k v hu).2⟩
  · exact ⟨(h.retiring u k hu).1, hget (h.retiring u k hu).2⟩
  · rw [List.length_append] at hk
    omega

/-- `t` comes to handle `k`, or leaves it, and nobody else is at it. -/
theorem HandleUse.turns (h : HandleUse f use hs) {k : Handle} {o : Option (Call V)} {w : Use Tid}
    (hk : hs[k.serial]? = some k.id)
    (hown : ∀ u, u ≠ t → use k.serial ≠ .pushing u ∧ use k.serial ≠ .retiring u)
    (hleft : ∀ k' v, f t = some (.push k' v) → k' = k)
    (hpush : ∀ k' v, o = some (.push k' v) → k' = k ∧ w = .pushing t)
    (hretire : ∀ k', o = some (.retire k') → k' = k ∧ w = .retiring t)
    (hw : ∀ u, w = .pushing u → u = t ∧ ∃ v, o = some (.push k v)) :
    HandleUse (upd f t o) (upd use k.serial w) hs where
  pushing u k' v hu := by
    obtain ⟨rfl, ho⟩ | ⟨hne, hu⟩ := upd_some hu
    · obtain ⟨rfl, rfl⟩ := hpush k' v ho
      exact ⟨upd_self _ _ _, hk⟩
    · obtain ⟨h1, h2⟩ := h.pushing u k' v hu
      exact ⟨(upd_ne _ _ fun he => (hown u hne).1 (by rw [← he]; exact h1)).trans h1, h2⟩
  retiring u k' hu := by
    obtain ⟨rfl, ho⟩ | ⟨hne, hu⟩ := upd_some hu
    · obtain ⟨rfl, rfl⟩ := hretire k' ho
      exact ⟨upd_self _ _ _, hk⟩
    · obtain ⟨h1, h2⟩ := h.retiring u k' hu
      exact ⟨(upd_ne _ _ fun he => (hown u hne).2 (by rw [← he]; exact h1)).trans h1, h2⟩
  pusher j u hu := by
    by_cases hj : j = k.serial
    · subst hj
      rw [upd_self] at hu
      obtain ⟨rfl, v, rfl⟩ := hw u hu
      exact ⟨k, v, rfl, upd_self _ _ _⟩
    · rw [upd_ne _ _ hj] at hu
      obtain ⟨k', v, hk', hu⟩ := h.pusher j u hu
      refine ⟨k', v, hk', (upd_ne _ _ ?_).trans hu⟩
      rintro rfl
      exact hj (hk' ▸ hleft k' v hu ▸ rfl)
  fresh j hj := by
    refine (upd_ne _ _ ?_).trans (h.fresh j hj)
    rintro rfl
    rw [List.getElem?_eq_none_iff.mpr hj] at hk
    cases hk

/-- A handle that is ready is at nobody's. -/
theorem HandleUse.comes (h : HandleUse f use hs) (hf : f t = none) {k : Handle} {w : Use Tid}
    (hk : hs[k.serial]? = some k.id) (huse : use k.serial = .ready)
    (hpush : ∀ k' v, c = .push k' v → k' = k ∧ w = .pushing t)
    (hretire : ∀ k', c = .retire k' → k' = k ∧ w = .retiring t)
    (hw : ∀ u, w = .pushing u → u = t ∧ ∃ v, c = .push k v) :
    HandleUse (upd f t (some c)) (upd use k.serial w) hs := by
  refine h.turns hk (fun u _ => ?_) (fun k' v hu => nomatch hf.symm.trans hu)
    (fun k' v ho => hpush k' v (Option.some.inj ho)) (fun k' ho => hretire k' (Option.some.inj ho))
    fun u hu => ?_
  · rw [huse]
    exact ⟨nofun, nofun⟩
  · obtain ⟨rfl, v, rfl⟩ := hw u hu
    exact ⟨rfl, v, rfl⟩

end handles

theorem Calls.begins (h : Calls cfg s γ) (hi : γ t = .idle) (he : enabled cfg s c = true) :
    Calls cfg (begin cfg t c s) (upd γ t (startPlace c)) := by
  have hid := h.idle hi
  have hroles : ∀ u, (upd γ t (startPlace c : Place V Tid) u).role =
      match upd s.inCall t (some c) u with
      | none => .idle
      | some d => d.role := by
    intro u
    by_cases hu : u = t
    · subst hu
      rw [upd_self, upd_self]
      cases c <;> rfl
    · rw [upd_ne _ _ hu, upd_ne _ _ hu]; exact h.roles u
  have hstart : ∀ u, c ≠ .start → upd γ t (startPlace c : Place V Tid) u = .starting →
      s.started = false ∨ cfg.port = .cpp ∧ s.exited = true := by
    intro u hc hu
    by_cases ht : u = t
    · subst ht
      rw [upd_self] at hu
      cases c <;> first | exact absurd rfl hc | cases hu
    · rw [upd_ne _ _ ht] at hu
      exact h.starting u hu
  have hcons : ∀ u, c ≠ .consume →
      (s.consumer = some u ↔ upd s.inCall t (some c) u = some .consume) := by
    intro u hc
    rw [upd_none hid (Ne.symm hc)]
    exact h.consumer u
  have hstarts : c ≠ .start → ∀ u, upd s.inCall t (some c) u = some .start → s.life = some u :=
    fun hc u hu => h.starts u ((upd_none hid (Ne.symm hc)).mp hu)
  have hstops : (∀ m, c ≠ .stop m) → cfg.port = .cpp → ∀ u m,
      upd s.inCall t (some c) u = some (.stop m) → s.life = some u :=
    fun hc hp u m hu => h.stops hp u m ((upd_none hid (hc m).symm).mp hu)
  cases c with
  | start =>
    have hlife : s.life = none := by
      cases hp : cfg.port <;> simp [enabled, hp] at he <;> exact he.1
    refine { h with
      toHandleUse := h.toHandleUse.begins hid nofun nofun
      roles := hroles, consumer := fun u => hcons u nofun, starts := fun u hu => ?_
      stops := fun hp u m hu => nomatch (hstops nofun hp u m hu).symm.trans hlife
      starting := fun u hu => ?_ }
    · obtain ⟨rfl, -⟩ | ⟨-, hu⟩ := upd_some hu
      · rfl
      · rw [h.starts u hu] at hlife; cases hlife
    · by_cases ht : u = t
      · show s.started = false ∨ _
        cases hp : cfg.port with
        | cpp =>
          simp [enabled, hp] at he
          rcases h.joined hp he.2 with hs | hs
          · exact .inl hs
          · exact .inr ⟨rfl, hs⟩
        | go => simp [enabled, hp] at he; exact .inl he.2
        | python => simp [enabled, hp] at he; exact .inl he.2
      · rw [upd_ne _ _ ht] at hu
        exact h.starting u hu
  | stop m =>
    refine { h with
      toHandleUse := h.toHandleUse.begins hid nofun nofun
      roles := hroles, consumer := fun u => hcons u nofun, starts := fun u hu => ?_
      stops := fun hp u m' hu => ?_, starting := fun u => hstart u nofun }
    · have hl := hstarts nofun u hu
      show (if cfg.port = .cpp then some t else s.life) = some u
      split
      · rename_i hp
        simp [enabled, hp, hl] at he
      · exact hl
    · show (if cfg.port = .cpp then some t else s.life) = some u
      rw [if_pos hp]
      obtain ⟨rfl, -⟩ | ⟨-, hu⟩ := upd_some hu
      · rfl
      · simp [enabled, hp, h.stops hp u m' hu] at he
  | register =>
    exact { h with
      toHandleUse := h.toHandleUse.begins hid nofun nofun
      roles := hroles, consumer := fun u => hcons u nofun, starts := hstarts nofun
      stops := hstops nofun, starting := fun u => hstart u nofun }
  | push k v =>
    obtain ⟨hk, huse⟩ : s.handles[k.serial]? = some k.id ∧ s.use k.serial = .ready := by
      simpa [enabled, usable] using he
    refine { h with
      toHandleUse := h.toHandleUse.comes hid hk huse ?_ nofun ?_
      roles := hroles, consumer := fun u => hcons u nofun, starts := hstarts nofun
      stops := hstops nofun, starting := fun u => hstart u nofun }
    · rintro _ _ ⟨⟩
      exact ⟨rfl, rfl⟩
    · rintro _ ⟨⟩
      exact ⟨rfl, v, rfl⟩
  | retire k =>
    obtain ⟨hk, huse⟩ : s.handles[k.serial]? = some k.id ∧ s.use k.serial = .ready := by
      simpa [enabled, usable] using he
    refine { h with
      toHandleUse := h.toHandleUse.comes hid hk huse nofun ?_ nofun
      roles := hroles, consumer := fun u => hcons u nofun, starts := hstarts nofun
      stops := hstops nofun, starting := fun u => hstart u nofun }
    rintro _ ⟨⟩
    exact ⟨rfl, rfl⟩
  | consume =>
    have hsp : s.spawned = true := he
    refine { h with
      toHandleUse := h.toHandleUse.begins hid nofun nofun
      roles := hroles, consumer := fun u => ⟨fun hu => ?_, fun hu => ?_⟩, starts := hstarts nofun
      stops := hstops nofun, spawned := nofun, alive := fun _ => h.alive (.inl hsp)
      starting := fun u => hstart u nofun }
    · obtain rfl : t = u := Option.some.inj hu
      exact upd_self _ _ _
    · obtain ⟨rfl, -⟩ | ⟨-, hu⟩ := upd_some hu
      · rfl
      · have := (h.consumer u).mpr hu
        rw [h.spawned hsp] at this
        cases this

end

omit [DecidableEq Tid] [Inhabited V] [Inhabited Tid] in
/-- The call that ends at a place of `c` is `c`, a stop's mode apart. -/
theorem Calls.ending (h : Calls cfg s γ) (he : endPlace cfg c r (γ t)) :
    ∃ d, s.inCall t = some d ∧ d.role = c.role := by
  have hr := h.roles t
  rw [endPlace_role he] at hr
  cases hc : s.inCall t with
  | none => rw [hc] at hr; cases c <;> cases hr
  | some d => rw [hc] at hr; exact ⟨d, rfl, hr.symm⟩

section
omit [Inhabited V] [Inhabited Tid]

/-- A push leaves its handle. -/
theorem Calls.pushed (h : Calls cfg s γ) {k : Handle} {v : V} (hd : s.inCall t = some (.push k v)) :
    HandleUse (upd s.inCall t none) (upd s.use k.serial .ready) s.handles := by
  obtain ⟨hmine, hk⟩ := h.pushing t k v hd
  refine h.toHandleUse.turns hk (fun u hu => ?_) (fun k' v' hu => ?_) nofun nofun nofun
  · rw [hmine]
    exact ⟨fun he => hu (by cases he; rfl), nofun⟩
  · cases hd.symm.trans hu
    rfl

/-- A retirement ends its handle. -/
theorem Calls.retired (h : Calls cfg s γ) {k : Handle} (hd : s.inCall t = some (.retire k)) :
    HandleUse (upd s.inCall t none) (upd s.use k.serial .gone) s.handles := by
  obtain ⟨hmine, hk⟩ := h.retiring t k hd
  refine h.toHandleUse.turns hk (fun u hu => ?_) (fun k' v' hu => nomatch hd.symm.trans hu) nofun
    nofun nofun
  rw [hmine]
  exact ⟨nofun, fun he => hu (by cases he; rfl)⟩

theorem Calls.finishes (h : Calls cfg s γ) (he : endPlace cfg c r (γ t)) :
    Calls cfg (finish cfg t c r s) (upd γ t .idle) := by
  obtain ⟨d, hd, hrole⟩ := h.ending he
  have hroles : ∀ u, (upd γ t (.idle : Place V Tid) u).role = match upd s.inCall t none u with
      | none => .idle
      | some d => d.role := by
    intro u
    by_cases hu : u = t
    · subst hu
      rw [upd_self, upd_self]
      rfl
    · rw [upd_ne _ _ hu, upd_ne _ _ hu]; exact h.roles u
  have hstart : ∀ u, upd γ t (.idle : Place V Tid) u = .starting →
      s.started = false ∨ cfg.port = .cpp ∧ s.exited = true := by
    intro u hu
    by_cases ht : u = t
    · subst ht
      rw [upd_self] at hu
      cases hu
    · rw [upd_ne _ _ ht] at hu
      exact h.starting u hu
  have hin : ∀ {u e}, upd s.inCall t none u = some e → u ≠ t ∧ s.inCall u = some e := by
    intro u e hu
    obtain ⟨-, hu⟩ | hu := upd_some hu
    · cases hu
    · exact hu
  have hcons : d ≠ .consume → ∀ u,
      (s.consumer = some u ↔ upd s.inCall t none u = some .consume) := by
    refine fun hne u => ⟨fun hu => ?_, fun hu => (h.consumer u).mpr (hin hu).2⟩
    have hu := (h.consumer u).mp hu
    refine (upd_ne _ _ ?_).trans hu
    rintro rfl
    exact hne (Option.some.inj (hd.symm.trans hu))
  have hstarts : ∀ u, upd s.inCall t none u = some .start → s.life = some u :=
    fun u hu => h.starts u (hin hu).2
  have hstops : cfg.port = .cpp → ∀ u m, upd s.inCall t none u = some (.stop m) → s.life = some u :=
    fun hp u m hu => h.stops hp u m (hin hu).2
  cases c with
  | start =>
    obtain ⟨rfl, -⟩ := he
    obtain rfl : d = .start := by cases d <;> cases hrole; rfl
    have hl := h.starts t hd
    have hlone : ∀ {u}, u ≠ t → s.life ≠ some u := fun hne hu =>
      hne (Option.some.inj (hu.symm.trans hl))
    exact { h with
      toHandleUse := h.toHandleUse.ends hd nofun
      roles := hroles, consumer := hcons nofun
      starts := fun u hu => absurd (hstarts u hu) (hlone (hin hu).1)
      stops := fun hp u m hu => absurd (hstops hp u m hu) (hlone (hin hu).1), starting := hstart }
  | stop m =>
    obtain ⟨m', rfl⟩ : ∃ m', d = .stop m' := by cases d <;> cases hrole; exact ⟨_, rfl⟩
    -- in the C++ pipeline nobody else is in `life`
    have hlife : ∀ {u}, u ≠ t → s.life = some u →
        (if cfg.port = .cpp then none else s.life) = some u := by
      intro u hne hu
      split
      · rename_i hp
        exact absurd (Option.some.inj (hu.symm.trans (h.stops hp t m' hd))) hne
      · exact hu
    obtain ⟨rfl, -⟩ | ⟨rfl, -⟩ := he <;>
    · exact { h with
        toHandleUse := h.toHandleUse.ends hd nofun
        roles := hroles, consumer := hcons nofun
        starts := fun u hu => hlife (hin hu).1 (hstarts u hu)
        stops := fun hp u m hu => hlife (hin hu).1 (hstops hp u m hu), starting := hstart }
  | register =>
    obtain rfl : d = .register := by cases d <;> cases hrole; rfl
    have huse := h.toHandleUse.ends hd nofun
    obtain ⟨rfl, -⟩ | ⟨i, rfl, -⟩ := he
    · exact { h with
        toHandleUse := huse, roles := hroles, consumer := hcons nofun, starts := hstarts
        stops := hstops, starting := hstart }
    · exact { h with
        toHandleUse := huse.gives i, roles := hroles, consumer := hcons nofun, starts := hstarts
        stops := hstops, starting := hstart }
  | push k v =>
    obtain rfl : d = .push k v := by cases d <;> cases hrole; rfl
    obtain ⟨rfl, -⟩ | ⟨rfl, -⟩ := he <;>
    · exact { h with
        toHandleUse := h.pushed hd, roles := hroles, consumer := hcons nofun, starts := hstarts
        stops := hstops, starting := hstart }
  | retire k =>
    obtain ⟨rfl, -⟩ := he
    obtain rfl : d = .retire k := by cases d <;> cases hrole; rfl
    exact { h with
      toHandleUse := h.retired hd, roles := hroles, consumer := hcons nofun, starts := hstarts
      stops := hstops, starting := hstart }
  | consume =>
    obtain ⟨rfl, -⟩ := he
    obtain rfl : d = .consume := by cases d <;> cases hrole; rfl
    have hmine := (h.consumer t).mpr hd
    have halive := h.alive (.inr (by rw [hmine]; nofun))
    refine { h with
      toHandleUse := h.toHandleUse.ends hd nofun
      roles := hroles, consumer := fun u => ⟨nofun, fun hu => ?_⟩, starts := hstarts
      stops := hstops, spawned := fun _ => rfl, alive := fun hs => ?_, ended := fun _ => halive.1
      joined := fun _ _ => .inr rfl, starting := fun u hu => ?_ }
    · have := (h.consumer u).mpr (hin hu).2
      exact absurd (Option.some.inj (this.symm.trans hmine)) (hin hu).1
    · obtain hs | hs := hs
      · rw [h.spawned hs] at hmine; cases hmine
      · exact absurd rfl hs
    · obtain hs | ⟨hp, -⟩ := hstart u hu
      · exact .inl hs
      · exact .inr ⟨hp, rfl⟩

end

variable (V Tid cfg) in
theorem calls_keeps (ok : Tid → Act V Tid → State V Tid → Prop) :
    (flow V Tid cfg).Keeps ok (Calls cfg) where
  init := by
    refine ⟨⟨nofun, nofun, nofun, fun _ _ => rfl⟩, fun _ => rfl, fun t => ⟨nofun, nofun⟩, nofun,
      nofun, nofun, ?_, nofun, fun _ _ => .inl rfl, nofun⟩
    rintro (h | h)
    · cases h
    · exact absurd rfl h
  begin _ h t c hi he := h.begins hi he
  move _ h t a n s' r g _ hs hm := by
    obtain ⟨hr, rfl, -⟩ := sem_some cfg hs
    exact h.move hr hm
  finish _ h t c r he := h.finishes he

end
end Katas.Weir.Pipeline
