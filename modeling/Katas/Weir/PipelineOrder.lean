import Katas.Weir.PipelineRings

/-!
# Every accepted event, once and in order

What a handle publishes in its slot's ring is what its pushes were accepted
with, in their order, and the one that has been published and has not
returned. A slot's owners follow each other in its ring, and what was taken
of a ring is what the sink has, or the staging buffer, of that slot.
-/
namespace Katas.Weir.Pipeline
open Katas.Conc Flow Spsc

section
variable {V Tid : Type} (cfg : Config)

def Who.item : Who V → Option (Handle × V × Bool)
  | .pushed h v => some (h, v, true)
  | .retired _ => none

def Waker.item : Waker V → Option (Handle × V × Bool)
  | .signal w => w.item
  | _ => none

/-- What a thread pushes, and whether it has published it. -/
def Place.item : Place V Tid → Option (Handle × V × Bool)
  | .asks h v | .refused h v | .tries h v | .room h v _ | .full h v _ | .writes h v _
  | .publishes h v _ | .dropped h v => some (h, v, false)
  | .published h v => some (h, v, true)
  | .tests w | .sets w | .minds w | .wakes w | .signalled w => w.item
  | .notifies k | .unlocks k => k.item
  | _ => none

/-- What was published under handle `k` in slot `i`. -/
def State.told (s : State V Tid) (i k : Nat) : List (Item V Tid) :=
  (s.slot i).ring.log.filter fun x => x.handle.serial = k

/-- What has left the rings, in the order it did. -/
def State.out (s : State V Tid) : List (Item V Tid) := s.sink ++ s.stage

/-- What of handle `k` the sink has, and the staging buffer. -/
def State.delivered (s : State V Tid) (k : Nat) : List (Item V Tid) :=
  s.out.filter fun x => x.handle.serial = k

def State.deliveredOf (s : State V Tid) (i : Nat) : List (Item V Tid) :=
  s.out.filter fun x => x.handle.id = i

structure Order (s : State V Tid) (γ : Tid → Place V Tid) : Prop where
  own : ∀ i, ∀ x ∈ (s.slot i).ring.log,
    s.handles[x.handle.serial]? = some i ∧ x.handle.id = i
  turns : ∀ i, (s.slot i).ring.log.Pairwise fun x y => x.handle.serial ≤ y.handle.serial
  latest : ∀ i k, s.owner i = some (.handle k) → ∀ x ∈ (s.slot i).ring.log, x.handle.serial ≤ k
  pushing : ∀ t h v b, (γ t).item = some (h, v, b) →
    s.told h.id h.serial = (s.record h.serial).accepted ++ if b then [⟨h, s.me t, v⟩] else []
  still : ∀ (k i : Nat), s.handles[k]? = some i → (∀ t, s.use k ≠ .pushing t) →
    s.told i k = (s.record k).accepted
  fresh : ∀ k, s.handles.length ≤ k → (s.record k).accepted = []
  taken : ∀ i, s.deliveredOf i = (s.slot i).ring.log.take (s.slot i).ring.head

variable {cfg} {g g' : Place V Tid}

theorem Entry.item (h : Entry cfg g) : g.item = none := by
  cases h <;> rfl

theorem wakeFrom_item (k : Waker V) : (wakeFrom k : Place V Tid).item = k.item := by
  cases k <;> rfl

theorem wakeTo_item (k : Waker V) : (wakeTo k : Place V Tid).item = k.item := by
  cases k <;> rfl

/-- A push publishes its item where it stores the tail. -/
theorem Move.item {a : Act V Tid} {r : Resp a} (hm : Move cfg g a r g') :
    g'.item = g.item ∨ ∃ h v pos, g = .publishes h v pos ∧ g' = .published h v ∧
      a = .tailStore h.id (pos + 1) := by
  cases hm with
  | life hm => cases hm <;> exact .inl rfl
  | wake hm =>
    cases hm with
    | lock k => exact .inl (wakeFrom_item k).symm
    | notify k => exact .inl rfl
    | unlock k => exact .inl (wakeTo_item k)
    | send k => exact .inl (by rw [wakeTo_item, wakeFrom_item])
  | register hm => cases hm <;> first | exact .inl rfl | (split <;> exact .inl rfl)
  | scan hm =>
    cases hm with
    | reclaim fin ids h => exact .inl h.entry.item
    | _ => exact .inl rfl
  | push hm =>
    cases hm with
    | publish h v pos => exact .inr ⟨h, v, pos, rfl, rfl, rfl⟩
    | test w b hs | mind w b => cases b <;> exact .inl rfl
    | accepting h v b => cases b <;> exact .inl rfl
    | set | cached | see | pending => split <;> exact .inl rfl
    | _ => exact .inl rfl
  | drain hm =>
    cases hm with
    | word w r h => exact .inl h.entry.item
    | ids clear l h => exact .inl h.entry.item
    | flag clear i rest ids b h => exact .inl h.entry.item
    | free k h => exact .inl h.entry.item
    | used k h => exact .inl (loopAt_entry cfg k 0).item
    | staged | spill | cached | look => split <;> exact .inl rfl
    | copied k got h n out hn =>
      split
      · exact .inl rfl
      · exact .inl (loopAt_entry cfg k _).item
    | drained k got h => exact .inl h.entry.item
    | flushed d total h => exact .inl h.entry.item
    | write d total h => exact .inl h.entry.item
    | lastFlushed h => exact .inl h.entry.item
    | lastWrite h => exact .inl h.entry.item
    | _ => exact .inl rfl
  | reclaim hm =>
    cases hm with
    | skip hp h => exact .inl h.entry.item
    | take hp h => exact .inl h.entry.item
    | skips hp h => exact .inl h.entry.item
    | takes h => exact .inl h.entry.item
    | other l hst h => exact .inl h.entry.item
    | filled l hc h => exact .inl h.entry.item
    | addDropped l n => split <;> exact .inl rfl
    | free l h => exact .inl h.entry.item
    | _ => exact .inl rfl
  | clear hm =>
    cases hm with
    | word w h => exact .inl h.entry.item
    | filled i rest b hc h => exact .inl h.entry.item
    | emptyAgain i rest b c h =>
      split at h
      · split at h
        · subst h; exact .inl rfl
        · exact .inl h.entry.item
      · subst h; exact .inl rfl
    | other i rest b hst h => exact .inl h.entry.item
    | restore i rest b zero h => exact .inl h.entry.item
    | _ => exact .inl rfl
  | park hm =>
    cases hm with
    | arm told => cases told <;> exact .inl rfl
    | word | run => split <;> (try split) <;> exact .inl rfl
    | disarm told => split <;> exact .inl rfl
    | _ => exact .inl rfl

theorem Who.item_role {w : Who V} {h : Handle} {v : V} {b : Bool} (hi : w.item = some (h, v, b)) :
    w.role = .push h v := by
  cases w <;> cases hi
  rfl

theorem Place.role_item {h : Handle} {v : V} (hr : g.role = .push h v) :
    ∃ b, g.item = some (h, v, b) := by
  cases g with
  | asks | refused | tries | room | full | writes | publishes | dropped | published =>
    cases hr; exact ⟨_, rfl⟩
  | tests w | sets w | minds w | wakes w | signalled w => cases w <;> cases hr; exact ⟨_, rfl⟩
  | notifies k | unlocks k =>
    cases k with
    | signal w => cases w <;> cases hr; exact ⟨_, rfl⟩
    | _ => cases hr
  | scans w rest ids => cases w <;> cases hr
  | _ => cases hr

theorem Place.item_role {h : Handle} {v : V} {b : Bool} (hi : g.item = some (h, v, b)) :
    g.role = .push h v := by
  cases g with
  | asks | refused | tries | room | full | writes | publishes | dropped | published =>
    cases hi; rfl
  | tests w | sets w | minds w | wakes w | signalled w => exact Who.item_role hi
  | notifies k | unlocks k =>
    cases k with
    | signal w => exact Who.item_role hi
    | _ => cases hi
  | _ => cases hi

end

section
variable {V Tid : Type} [DecidableEq Tid] [Inhabited V] [Inhabited Tid] {cfg : Config}
  {s s' : State V Tid} {γ : Tid → Place V Tid} {t : Tid} {g : Place V Tid} {a : Act V Tid} {n : Nat}

/-! ## What an operation leaves alone -/

/-- Where something leaves a ring, or is published in one. -/
def Act.passes : Act V Tid → Bool
  | .tailStore _ _ | .headStore _ _ _ => true
  | _ => false

section
omit [Inhabited V] [Inhabited Tid]

theorem apply_passes (h : a.passes = false) (i : Nat) :
    ((apply cfg t a n s).slot i).ring.log = (s.slot i).ring.log ∧
      ((apply cfg t a n s).slot i).ring.head = (s.slot i).ring.head := by
  by_cases ha : a.rings = false
  · rw [apply_ring ha]; exact ⟨rfl, rfl⟩
  · cases a with
    | tailStore | headStore => cases h
    | tailSee site j | headSee j =>
      refine ⟨?_, ?_⟩
      · exact setSlot_comp (fun c => c.ring.log) _ _ _ rfl
      · exact setSlot_comp (fun c => c.ring.head) _ _ _ rfl
    | slotStore k pos v =>
      refine ⟨?_, ?_⟩
      · exact setSlot_comp (fun c => c.ring.log) _ _ _ rfl
      · exact setSlot_comp (fun c => c.ring.head) _ _ _ rfl
    | _ => exact absurd rfl ha

theorem apply_out (h : a.passes = false) : (apply cfg t a n s).out = s.out := by
  cases a with
  | tailStore | headStore => cases h
  | sinkWrite => exact List.append_nil _
  | stateCas i => unfold apply; dsimp only; split <;> rfl
  | stateStore i st => cases st <;> rfl
  | _ => rfl

/-- The pushes that returned true are recorded as they return. -/
theorem apply_accepted (k : Nat) :
    ((apply cfg t a n s).record k).accepted = (s.record k).accepted := by
  cases a with
  | acceptingLoad h | pushedAdd h | droppedAdd h =>
    by_cases hk : k = h.serial
    · subst hk; simp only [apply, State.setRecord, upd_self]
    · simp only [apply, State.setRecord, upd_ne _ _ hk]; try rfl
  | stateCas i => unfold apply; dsimp only; split <;> rfl
  | stateStore i st => cases st <;> rfl
  | _ => rfl

/-- Slots are given to handles by the calls that register them. -/
theorem apply_owner_handle {i k : Nat} (h : (apply cfg t a n s).owner i = some (.handle k)) :
    s.owner i = some (.handle k) := by
  have hupd : ∀ {j : Nat} {o : Option (Owner Tid)}, (∀ m, o ≠ some (.handle m)) →
      upd s.owner j o i = some (.handle k) → s.owner i = some (.handle k) := by
    intro j o ho hu
    by_cases hi : i = j
    · subst hi
      rw [upd_self] at hu
      exact absurd hu (ho k)
    · rwa [upd_ne _ _ hi] at hu
  by_cases ht : a.turns = false
  · rwa [apply_owner ht] at h
  · cases a with
    | stateCas j =>
      unfold apply at h
      dsimp only at h
      split at h
      · exact hupd (by nofun) h
      · exact h
    | stateStore j st =>
      cases st with
      | free => exact hupd (by nofun) h
      | active => exact hupd (by nofun) h
      | retiring => exact h
    | _ => exact absurd rfl ht

end

omit [DecidableEq Tid] [Inhabited V] [Inhabited Tid] in
theorem State.told_congr (h : ∀ i, (s'.slot i).ring.log = (s.slot i).ring.log) (i k : Nat) :
    s'.told i k = s.told i k := by
  unfold State.told; rw [h i]

omit [DecidableEq Tid] [Inhabited V] [Inhabited Tid] in
theorem State.me_congr (h : s'.calls t = s.calls t) : s'.me t = s.me t := by
  unfold State.me; rw [h]

/-! ## The steps -/

omit [Inhabited V] [Inhabited Tid] in
/-- A step after which the logs, and what was taken of them, are the same. -/
theorem Order.same (h : Order s γ) (hl : ∀ i, (s'.slot i).ring.log = (s.slot i).ring.log ∧
      (s'.slot i).ring.head = (s.slot i).ring.head) (hout : s'.out = s.out)
    (hh : s'.handles = s.handles) (hu : s'.use = s.use) (hme : s'.calls = s.calls)
    (hrec : ∀ k, (s'.record k).accepted = (s.record k).accepted)
    (ho : ∀ i k, s'.owner i = some (.handle k) → s.owner i = some (.handle k))
    (hg : ∀ h v b, g.item = some (h, v, b) → (γ t).item = some (h, v, b)) :
    Order s' (upd γ t g) := by
  have hlog := fun i => (hl i).1
  have hme' : ∀ u, s'.me u = s.me u := fun u => State.me_congr (by rw [hme])
  refine ⟨fun i x hx => ?_, fun i => ?_, fun i k hk x hx => ?_, fun u h' v b hi => ?_,
    fun k i hk hu' => ?_, fun k hk => ?_, fun i => ?_⟩
  · rw [hlog] at hx; rw [hh]; exact h.own i x hx
  · rw [hlog]; exact h.turns i
  · rw [hlog] at hx; exact h.latest i k (ho i k hk) x hx
  · rw [State.told_congr hlog, hrec, hme']
    by_cases ht : u = t
    · subst ht
      rw [upd_self] at hi
      exact h.pushing u h' v b (hg h' v b hi)
    · rw [upd_ne _ _ ht] at hi
      exact h.pushing u h' v b hi
  · rw [hh] at hk
    rw [hu] at hu'
    rw [State.told_congr hlog, hrec]
    exact h.still k i hk hu'
  · rw [hh] at hk
    rw [hrec]
    exact h.fresh k hk
  · unfold State.deliveredOf
    rw [hout, hlog, (hl i).2]
    exact h.taken i

omit [DecidableEq Tid] [Inhabited V] [Inhabited Tid] in
theorem told_append {i k : Nat} {x : Item V Tid}
    (hlog : (s'.slot i).ring.log = (s.slot i).ring.log ++ [x]) :
    s'.told i k = s.told i k ++ if x.handle.serial = k then [x] else [] := by
  unfold State.told
  rw [hlog, List.filter_append]
  congr 1
  by_cases hx : x.handle.serial = k
  · rw [if_pos hx, List.filter_cons_of_pos (by simpa using hx), List.filter_nil]
  · rw [if_neg hx, List.filter_cons_of_neg (by simpa using hx), List.filter_nil]

section
omit [Inhabited V] [Inhabited Tid]

theorem Order.publishes (h : Order s γ) (hc : Calls cfg s γ) (ho : Owners cfg s γ)
    (hr : Rings cfg s γ) {k : Handle} {v : V} {pos : Nat} (hγ : γ t = .publishes k v pos) :
    Order (apply cfg t (.tailStore k.id (pos + 1)) n s) (upd γ t (.published k v)) := by
  have hrole : (γ t).role = .push k v := by rw [hγ]; rfl
  obtain ⟨huse, hown, -⟩ := ho.pushing hc hrole
  have hhandle := (hc.pushing t k v (hc.push hrole)).2
  obtain ⟨hpos, -, hslot⟩ : RingAt cfg s t (.publishes k v pos) := by
    rw [← hγ]; exact hr.at_ t
  generalize hs' : apply cfg t (.tailStore k.id (pos + 1)) n s = s'
  have hring : ∀ j, (s'.slot j).ring = if j = k.id then
      { (s.slot k.id).ring.publish ⟨k, s.me t, v⟩ with tail := pos + 1 } else (s.slot j).ring := by
    intro j
    rw [← hs', ← hslot]
    exact State.setRing_ring _ j _
  have hat : (s'.slot k.id).ring.log = (s.slot k.id).ring.log ++ [⟨k, s.me t, v⟩] := by
    rw [hring, if_pos rfl]; rfl
  have hoff : ∀ {j}, j ≠ k.id → (s'.slot j).ring = (s.slot j).ring := by
    intro j hj
    rw [hring, if_neg hj]
  have hfr : s'.handles = s.handles ∧ s'.owner = s.owner ∧ s'.use = s.use ∧ s'.calls = s.calls ∧
      s'.record = s.record ∧ s'.out = s.out := by
    subst hs'
    exact ⟨rfl, rfl, rfl, rfl, rfl, rfl⟩
  obtain ⟨hh, hw, hu, hme, hrec, hout⟩ := hfr
  have hme' : ∀ u, s'.me u = s.me u := fun u => State.me_congr (by rw [hme])
  have hmem : ∀ {i x}, x ∈ (s'.slot i).ring.log →
      x ∈ (s.slot i).ring.log ∨ i = k.id ∧ x = ⟨k, s.me t, v⟩ := by
    intro i x hx
    by_cases hi : i = k.id
    · subst hi
      rw [hat] at hx
      obtain hx | hx := List.mem_append.mp hx
      · exact .inl hx
      · exact .inr ⟨rfl, List.mem_singleton.mp hx⟩
    · rw [hoff hi] at hx; exact .inl hx
  -- another handle's items are not in the way
  have htold : ∀ i j, (i = k.id → j ≠ k.serial) → s'.told i j = s.told i j := by
    intro i j hne
    by_cases hi : i = k.id
    · subst hi
      rw [told_append hat, if_neg (Ne.symm (hne rfl)), List.append_nil]
    · unfold State.told; rw [hoff hi]
  refine ⟨fun i x hx => ?_, fun i => ?_, fun i j hj x hx => ?_, fun u h' v' b hi => ?_,
    fun j i hj hu' => ?_, fun j hj => ?_, fun i => ?_⟩
  · rw [hh]
    obtain hx | ⟨rfl, rfl⟩ := hmem hx
    · exact h.own i x hx
    · exact ⟨hhandle, rfl⟩
  · by_cases hi : i = k.id
    · subst hi
      rw [hat]
      refine List.pairwise_append.mpr ⟨h.turns _, List.pairwise_singleton _ _, fun x hx y hy => ?_⟩
      rw [List.mem_singleton.mp hy]
      exact h.latest _ _ hown x hx
    · rw [hoff hi]; exact h.turns i
  · rw [hw] at hj
    obtain hx | ⟨rfl, rfl⟩ := hmem hx
    · exact h.latest i j hj x hx
    · rw [hown] at hj
      cases hj
      exact Nat.le_refl _
  · rw [hrec, hme']
    by_cases ht : u = t
    · subst ht
      rw [upd_self] at hi
      cases hi
      have hold := h.pushing u k v false (by rw [hγ]; rfl)
      rw [told_append hat, hold]
      simp
    · rw [upd_ne _ _ ht] at hi
      rw [htold h'.id h'.serial fun hid hser => ?_]
      · exact h.pushing u h' v' b hi
      · exact ht (ho.one_pusher hc hrole (Place.item_role hi) hid)
  · rw [hh] at hj
    rw [hu] at hu'
    rw [hrec, htold i j fun _ hj' => ?_]
    · exact h.still j i hj hu'
    · subst hj'; exact hu' t huse
  · rw [hh] at hj
    rw [hrec]; exact h.fresh j hj
  · have hhead : (s'.slot i).ring.head = (s.slot i).ring.head := by
      rw [hring]
      split
      · rename_i hi; subst hi; rfl
      · rfl
    unfold State.deliveredOf
    rw [hout, hhead]
    by_cases hi : i = k.id
    · subst hi
      rw [hat, List.take_append_of_le_length]
      · exact h.taken _
      · rw [(hr.inv _).length]; exact (hr.inv _).head_le_tail
    · rw [hoff hi]; exact h.taken i

theorem Order.takes (h : Order s γ) (hr : Rings cfg s γ) {k : Spot} {got c m : Nat}
    {out : List (Item V Tid)} (hγ : γ t = .copies k got c m out) (hlen : out.length = m)
    (hg : g.item = none) :
    Order (apply cfg t (.headStore k.i (c + m) out) n s) (upd γ t g) := by
  obtain ⟨hc, -, -, hout⟩ : RingAt cfg s t (.copies k got c m out) := by
    rw [← hγ]; exact hr.at_ t
  have hring : ∀ j, ((apply cfg t (.headStore k.i (c + m) out) n s).slot j).ring =
      if j = k.i then (s.slot k.i).ring.take (c + m) else (s.slot j).ring := fun j =>
    State.setRing_ring k.i j _
  have hlog : ∀ j, ((apply cfg t (.headStore k.i (c + m) out) n s).slot j).ring.log =
      (s.slot j).ring.log := by
    intro j
    rw [hring]
    split
    · rename_i hj; subst hj; rfl
    · rfl
  have hmem : ∀ x ∈ out, x.handle.id = k.i := by
    intro x hx
    rw [hout] at hx
    exact (h.own k.i x (List.mem_of_mem_drop (List.mem_of_mem_take hx))).2
  have htold := State.told_congr hlog
  refine ⟨fun i x hx => ?_, fun i => ?_, fun i j hj x hx => ?_, fun u h' v b hi => ?_,
    fun j i hj hu => ?_, h.fresh, fun i => ?_⟩
  · rw [hlog] at hx; exact h.own i x hx
  · rw [hlog]; exact h.turns i
  · rw [hlog] at hx; exact h.latest i j hj x hx
  · rw [htold]
    by_cases ht : u = t
    · subst ht
      rw [upd_self, hg] at hi
      cases hi
    · rw [upd_ne _ _ ht] at hi
      exact h.pushing u h' v b hi
  · rw [htold]; exact h.still j i hj hu
  · have happ : (apply cfg t (.headStore k.i (c + m) out) n s).out = s.out ++ out :=
      (List.append_assoc _ _ _).symm
    unfold State.deliveredOf
    rw [happ, List.filter_append, hlog, hring]
    have hold := h.taken i
    unfold State.deliveredOf at hold
    rw [hold]
    by_cases hi : i = k.i
    · subst hi
      rw [if_pos rfl]
      show _ = (s.slot k.i).ring.log.take (c + m)
      rw [List.filter_eq_self.mpr (by simpa using hmem), ← hc, List.take_add, ← hlen, ← hout]
    · rw [if_neg hi, List.filter_eq_nil_iff.mpr, List.append_nil]
      intro x hx
      rw [hmem x hx]
      simpa using Ne.symm hi

theorem Order.move (h : Order s γ) (hc : Calls cfg s γ) (ho : Owners cfg s γ) (hr : Rings cfg s γ)
    {r : Resp a} {g : Place V Tid} (hm : Move cfg (γ t) a r g) :
    Order (apply cfg t a n s) (upd γ t g) := by
  by_cases hp : a.passes = false
  · refine h.same (fun i => apply_passes hp i) (apply_out hp) apply_handles apply_use
      apply_callNumber apply_accepted (fun i k => apply_owner_handle) fun h' v b hi => ?_
    obtain he | ⟨h₁, v₁, pos, -, -, rfl⟩ := hm.item
    · rwa [← he]
    · cases hp
  · have hitem := hm.item
    generalize hγ : γ t = g₀ at hm hitem
    cases hm with
    | push hm =>
      cases hm with
      | publish k v pos => exact h.publishes hc ho hr hγ
      | _ => exact absurd rfl hp
    | drain hm =>
      cases hm with
      | copied k got c m out hn =>
        refine h.takes hr hγ hn ?_
        obtain he | ⟨_, _, _, he, -⟩ := hitem
        · exact he
        · cases he
      | _ => exact absurd rfl hp
    | life hm =>
      cases hm with
      | @waits a _ hw => cases a <;> first | exact absurd rfl hp | cases hw
      | _ => exact absurd rfl hp
    | _ hm => cases hm <;> exact absurd rfl hp

theorem begin_accepted {c : Call V} (k : Nat) :
    ((begin cfg t c s).record k).accepted = (s.record k).accepted := by
  cases c with
  | push h v =>
    show (upd s.record h.serial _ k).accepted = _
    by_cases hk : k = h.serial
    · subst hk; rw [upd_self]
    · rw [upd_ne _ _ hk]
  | _ => rfl

theorem Order.begins (h : Order s γ) {c : Call V} (hi : γ t = .idle)
    (he : enabled cfg s c = true) : Order (begin cfg t c s) (upd γ t (startPlace c)) := by
  have htold : ∀ i k, (begin cfg t c s).told i k = s.told i k :=
    State.told_congr fun i => by rw [begin_slot]
  refine ⟨?_, ?_, ?_, fun u h' v b hu => ?_, fun k i hk hu => ?_, fun k hk => ?_, ?_⟩
  · rw [begin_slot, begin_handles]; exact h.own
  · rw [begin_slot]; exact h.turns
  · rw [begin_slot, begin_owner]; exact h.latest
  · rw [htold, begin_accepted]
    by_cases ht : u = t
    · subst ht
      rw [upd_self] at hu
      cases c with
      | push k v' =>
        cases hu
        obtain ⟨hk, hready⟩ : s.handles[h'.serial]? = some h'.id ∧ s.use h'.serial = .ready := by
          simpa [enabled, usable] using he
        rw [h.still h'.serial h'.id hk fun w => by rw [hready]; intro h; cases h]
        exact (List.append_nil _).symm
      | _ => cases hu
    · rw [upd_ne _ _ ht] at hu
      rw [State.me_congr (begin_calls ht)]
      exact h.pushing u h' v b hu
  · rw [begin_handles] at hk
    rw [htold, begin_accepted]
    refine h.still k i hk fun w hw => ?_
    obtain hb | ⟨hb, -⟩ := begin_use (t := t) he k
    · exact hu w (hb.trans hw)
    · rw [hb] at hw; cases hw
  · rw [begin_handles] at hk
    rw [begin_accepted]; exact h.fresh k hk
  · unfold State.deliveredOf State.out
    rw [begin_slot, begin_eq]
    exact h.taken

/-- The end of a push. -/
theorem Order.returns (h : Order s γ) (hc : Calls cfg s γ) {k : Handle} {v : V} {r : Result}
    (he : endPlace cfg (.push k v) r (γ t)) :
    Order (finish cfg t (.push k v) r s) (upd γ t .idle) := by
  have hrole : (γ t).role = .push k v := endPlace_role he
  obtain ⟨huse, hk⟩ := hc.pushing t k v (hc.push hrole)
  have hfr : (finish cfg t (.push k v) r s).use = upd s.use k.serial .ready ∧
      (finish cfg t (.push k v) r s).handles = s.handles ∧
      (finish cfg t (.push k v) r s).owner = s.owner := by
    cases r with
    | pushed ok => cases ok <;> exact ⟨rfl, rfl, rfl⟩
    | _ => exact ⟨rfl, rfl, rfl⟩
  -- what it published, it returns
  have hacc : ((finish cfg t (.push k v) r s).record k.serial).accepted = s.told k.id k.serial := by
    obtain ⟨rfl, hg⟩ | ⟨rfl, hg⟩ := he
    · rw [h.pushing t k v false (by obtain hg | hg := hg <;> rw [hg] <;> rfl)]
      show (upd s.record k.serial _ k.serial).accepted = _
      rw [upd_self]
      exact (List.append_nil _).symm
    · rw [h.pushing t k v true (by obtain hg | ⟨-, hg⟩ := hg <;> rw [hg] <;> rfl)]
      show (upd s.record k.serial _ k.serial).accepted = _
      rw [upd_self]
      rfl
  have hoff : ∀ {j}, j ≠ k.serial →
      ((finish cfg t (.push k v) r s).record j).accepted = (s.record j).accepted := by
    intro j hj
    have hrec : (finish cfg t (.push k v) r s).record j = s.record j := by
      cases r with
      | pushed ok => cases ok <;> exact upd_ne _ _ hj
      | _ => exact upd_ne _ _ hj
    rw [hrec]
  have htold : ∀ i j, (finish cfg t (.push k v) r s).told i j = s.told i j :=
    State.told_congr fun i => by rw [finish_slot]
  refine ⟨?_, ?_, ?_, fun u h' v' b hu => ?_, fun j i hj hu => ?_, fun j hj => ?_, ?_⟩
  · rw [finish_slot, hfr.2.1]; exact h.own
  · rw [finish_slot]; exact h.turns
  · rw [finish_slot, hfr.2.2]; exact h.latest
  · by_cases ht : u = t
    · subst ht
      rw [upd_self] at hu
      cases hu
    · rw [upd_ne _ _ ht] at hu
      have hme : (finish cfg t (.push k v) r s).me u = s.me u :=
        State.me_congr (by rw [finish_calls])
      rw [htold, hme, hoff fun hs => ?_]
      · exact h.pushing u h' v' b hu
      · have := (hc.pushing u h' v' (hc.push (Place.item_role hu))).1
        rw [hs, huse] at this
        cases this
        exact ht rfl
  · rw [hfr.2.1] at hj
    rw [htold]
    by_cases hs : j = k.serial
    · subst hs
      obtain rfl : i = k.id := by simpa using hj.symm.trans hk
      exact hacc.symm
    · rw [hoff hs]
      refine h.still j i hj fun w hw => hu w ?_
      rw [hfr.1, upd_ne _ _ hs]; exact hw
  · rw [hfr.2.1] at hj
    rw [hoff]
    · exact h.fresh j hj
    · rintro rfl
      obtain ⟨hlt, -⟩ := List.getElem?_eq_some_iff.mp hk
      omega
  · unfold State.deliveredOf State.out
    rw [finish_slot, finish_eq]
    exact h.taken

/-- A slot is given to a handle, which has pushed nothing. -/
theorem Order.gives (h : Order s γ) {i : Nat} :
    Order (finish cfg t (.register : Call V) (.registered (some i)) s) (upd γ t .idle) := by
  have hlt : ∀ {j}, ∀ x ∈ (s.slot j).ring.log, x.handle.serial < s.handles.length := by
    intro j x hx
    obtain ⟨hl, -⟩ := List.getElem?_eq_some_iff.mp (h.own j x hx).1
    exact hl
  refine ⟨fun j x hx => ?_, h.turns, fun j k hk x hx => ?_, fun u h' v b hu => ?_,
    fun k j hk hu => ?_, fun k hk => ?_, h.taken⟩
  · show (s.handles ++ [i])[_]? = _ ∧ _
    rw [List.getElem?_append_left (hlt x hx)]
    exact h.own j x hx
  · have hk : upd s.owner i _ j = _ := hk
    by_cases hj : j = i
    · subst hj
      rw [upd_self] at hk
      cases hk
      exact Nat.le_of_lt (hlt x hx)
    · rw [upd_ne _ _ hj] at hk
      exact h.latest j k hk x hx
  · by_cases ht : u = t
    · subst ht
      rw [upd_self] at hu
      cases hu
    · rw [upd_ne _ _ ht] at hu
      exact h.pushing u h' v b hu
  · have hk : (s.handles ++ [i])[k]? = some j := hk
    by_cases hl : k < s.handles.length
    · rw [List.getElem?_append_left hl] at hk
      exact h.still k j hk hu
    · show s.told j k = (s.record k).accepted
      rw [h.fresh k (by omega)]
      refine List.filter_eq_nil_iff.mpr fun x hx => ?_
      have := hlt x hx
      simp only [decide_eq_true_eq]
      omega
  · have hk : (s.handles ++ [i]).length ≤ k := hk
    rw [List.length_append] at hk
    exact h.fresh k (by omega)

theorem Order.finishes (h : Order s γ) (hc : Calls cfg s γ) {c : Call V} {r : Result}
    (he : endPlace cfg c r (γ t)) : Order (finish cfg t c r s) (upd γ t .idle) := by
  have hstill : ∀ {s' : State V Tid}, s'.slot = s.slot → s'.handles = s.handles →
      s'.owner = s.owner → s'.record = s.record → s'.out = s.out → s'.calls = s.calls →
      (∀ k, (∀ w, s'.use k ≠ .pushing w) → ∀ w, s.use k ≠ .pushing w) →
      Order s' (upd γ t .idle) := by
    intro s' hs hh ho hr hout hme hu
    have htold : ∀ i j, s'.told i j = s.told i j := State.told_congr fun i => by rw [hs]
    refine ⟨by rw [hs, hh]; exact h.own, by rw [hs]; exact h.turns, by rw [hs, ho]; exact h.latest,
      fun u h' v b hi => ?_, fun k i hk hu' => ?_, by rw [hh, hr]; exact h.fresh, ?_⟩
    · by_cases ht : u = t
      · subst ht
        rw [upd_self] at hi
        cases hi
      · rw [upd_ne _ _ ht] at hi
        have hme' : s'.me u = s.me u := State.me_congr (by rw [hme])
        rw [htold, hr, hme']
        exact h.pushing u h' v b hi
    · rw [hh] at hk
      rw [htold, hr]
      exact h.still k i hk (hu k hu')
    · unfold State.deliveredOf
      rw [hs, hout]
      exact h.taken
  cases c with
  | push k v => exact h.returns hc he
  | register =>
    obtain ⟨rfl, -⟩ | ⟨i, rfl, -⟩ := he
    · exact hstill rfl rfl rfl rfl rfl rfl fun k hk => hk
    · exact h.gives
  | retire k =>
    refine hstill rfl rfl rfl rfl rfl rfl fun j hj w hw => ?_
    by_cases hs : j = k.serial
    · subst hs
      have := (hc.retiring t k (hc.retire (endPlace_role he))).1
      rw [hw] at this
      cases this
    · exact hj w ((upd_ne _ _ hs).trans hw)
  | stop m =>
    obtain ⟨rfl, -⟩ | ⟨rfl, -⟩ := he <;>
      exact hstill rfl rfl rfl rfl rfl rfl fun k hk => hk
  | start | consume => exact hstill rfl rfl rfl rfl rfl rfl fun k hk => hk

end

variable (V Tid cfg) in
theorem order_keeps (ok : Tid → Act V Tid → State V Tid → Prop) :
    (flow V Tid cfg).Keeps ok Order where
  init := ⟨nofun, fun _ => List.Pairwise.nil, nofun, nofun, nofun, fun _ _ => rfl, fun _ => rfl⟩
  begin _ h t c hi he := h.begins hi he
  move hr h t a n s' r g _ hs hm := by
    obtain ⟨-, rfl, -⟩ := sem_some cfg hs
    exact h.move ((calls_keeps V Tid cfg _).reach hr) ((owners_keeps V Tid cfg _).reach hr)
      ((rings_keeps V Tid cfg _).reach hr) hm
  finish hr h t c r he := h.finishes ((calls_keeps V Tid cfg _).reach hr) he

/-! ## What the sink has of a handle -/

section
omit [DecidableEq Tid] [Inhabited V] [Inhabited Tid]

/-- What left the rings left its slot's. -/
theorem Order.of_out (h : Order s γ) {x : Item V Tid} (hx : x ∈ s.out) :
    x ∈ (s.slot x.handle.id).ring.log := by
  have hmem : x ∈ s.deliveredOf x.handle.id := List.mem_filter.mpr ⟨hx, by simp⟩
  rw [h.taken] at hmem
  exact List.mem_of_mem_take hmem

theorem Order.delivered_eq (h : Order s γ) {i k : Nat} (hk : s.handles[k]? = some i) :
    s.delivered k = (s.deliveredOf i).filter fun x => x.handle.serial = k := by
  unfold State.delivered State.deliveredOf
  rw [List.filter_filter]
  refine List.filter_congr fun x hx => ?_
  have hown := (h.own _ x (h.of_out hx)).1
  by_cases hs : x.handle.serial = k
  · subst hs
    have : x.handle.id = i := by simpa using hown.symm.trans hk
    simp [this]
  · simp [hs]

/-- What is delivered of a handle is a prefix of what it published. -/
theorem Order.delivered_told (h : Order s γ) {i k : Nat} (hk : s.handles[k]? = some i) :
    s.delivered k <+: s.told i k := by
  rw [h.delivered_eq hk, h.taken]
  exact List.IsPrefix.filter _ (List.take_prefix _ _)

theorem Order.delivered_fresh (h : Order s γ) {k : Nat} (hk : s.handles.length ≤ k) :
    s.delivered k = [] := by
  refine List.filter_eq_nil_iff.mpr fun x hx => ?_
  obtain ⟨hlt, -⟩ := List.getElem?_eq_some_iff.mp (h.own _ x (h.of_out hx)).1
  simp only [decide_eq_true_eq]
  omega

/-- An item that is published, of a push that has not returned. -/
def Returning (s : State V Tid) (x : Item V Tid) : Prop :=
  ∃ t, s.inCall t = some (.push x.handle x.value) ∧ x.call = s.me t

/-- What a handle published: what its pushes returned true for, and the item of
one that has not returned. -/
theorem Order.told_eq (h : Order s γ) (hc : Calls cfg s γ) {k i : Nat}
    (hk : s.handles[k]? = some i) : s.told i k = (s.record k).accepted ∨
      ∃ x, x.handle.serial = k ∧ Returning s x ∧ s.told i k = (s.record k).accepted ++ [x] := by
  by_cases hu : ∀ t, s.use k ≠ .pushing t
  · exact .inl (h.still k i hk hu)
  · obtain ⟨t, hu⟩ := not_forall.mp hu
    obtain ⟨h', v, rfl, hin⟩ := hc.pusher k t (not_not.mp hu)
    obtain rfl : i = h'.id := by simpa using hk.symm.trans (hc.pushing t h' v hin).2
    have hrole := hc.role_eq hin
    obtain ⟨b, hb⟩ : ∃ b, (γ t).item = some (h', v, b) := Place.role_item hrole
    have htold := h.pushing t h' v b hb
    cases b with
    | false => exact .inl (htold.trans (List.append_nil _))
    | true => exact .inr ⟨⟨h', s.me t, v⟩, rfl, ⟨t, hin, rfl⟩, htold⟩

end

/-- What the sink has of a handle, and then the staging buffer, is a prefix of
what its pushes were accepted with, the one that is published and has not
returned last; a slot's owners come one after the other; and a slot is freed
with its ring empty and its owner retired. -/
theorem delivered_in_order {x : System.Config (pipeline V Tid cfg)}
    (hx : (pipeline V Tid cfg).Reachable x) :
    (∀ k, x.state.delivered k <+: (x.state.record k).accepted ∨
      ∃ e, e.handle.serial = k ∧ Returning x.state e ∧
        x.state.delivered k <+: (x.state.record k).accepted ++ [e]) ∧
    (∀ i, (x.state.deliveredOf i).Pairwise fun e e' => e.handle.serial ≤ e'.handle.serial) ∧
    ∀ t i, System.AtOp x t (.stateStore i .free) →
      (x.state.slot i).ring.head = (x.state.slot i).ring.tail ∧
        (x.state.slot i).state = .retiring ∧ ∃ k, x.state.owner i = some (.handle k) ∧
          (x.state.use k = .gone ∨ ∃ u, x.state.use k = .retiring u) := by
  obtain ⟨γ, hγ, -, hmoves⟩ := (follows V Tid cfg).places hx.reachableIf
  have hc := (calls_keeps V Tid cfg _).reach hγ
  have ho := (owners_keeps V Tid cfg _).reach hγ
  have hr := (rings_keeps V Tid cfg _).reach hγ
  have h := (order_keeps V Tid cfg _).reach hγ
  refine ⟨fun k => ?_, fun i => ?_, fun t i hop => ?_⟩
  · by_cases hlt : k < x.state.handles.length
    · have hk : x.state.handles[k]? = some x.state.handles[k] := List.getElem?_eq_getElem hlt
      have hd := h.delivered_told hk
      obtain he | ⟨e, he, hret, heq⟩ := h.told_eq hc hk
      · exact .inl (he ▸ hd)
      · exact .inr ⟨e, he, hret, heq ▸ hd⟩
    · rw [h.delivered_fresh (Nat.le_of_not_lt hlt)]
      exact .inl List.nil_prefix
  · rw [h.taken]
    exact (h.turns i).sublist (List.take_sublist _ _)
  · obtain ⟨g, hm⟩ := hmoves t _ hop ()
    obtain ⟨l, hl, rfl⟩ := hm.frees
    have hring := hr.at_ t
    have hown := ho.at_ t
    rw [hl] at hring hown
    exact ⟨hring, hown, ho.retiring _ hown⟩

end

/-- Two events of a producer go to the sink, it retires, and its slot is freed. -/
def firstOwner : List (System.Label (pipeline Nat Nat (.tiny .cpp .bitmap))) :=
  does _ 0 .start 4 ++ does _ 1 .register 5 ++ does _ 1 (.push ⟨0, 0⟩ 7) 14 ++
  does _ 1 (.push ⟨0, 0⟩ 8) 12 ++ does _ 1 (.retire ⟨0, 0⟩) 7 ++ does _ 2 .consume 33

/-- Another registers, has the slot, and pushes an event of its own. -/
def secondOwner : List (System.Label (pipeline Nat Nat (.tiny .cpp .bitmap))) :=
  firstOwner ++ ops _ 2 3 ++ does _ 3 .register 5 ++ does _ 3 (.push ⟨1, 0⟩ 9) 13 ++ ops _ 2 20

/-- The test that `t` is about to free the slot `i`. -/
def frees (t i : Nat) (x : System.Config (pipeline Nat Nat (.tiny .cpp .bitmap))) : Bool :=
  match x.thread t with
  | .run _ (.act (.stateStore j .free) _) => i == j
  | _ => false

theorem frees_atOp {t i : Nat} {x : System.Config (pipeline Nat Nat (.tiny .cpp .bitmap))}
    (h : frees t i x = true) : System.AtOp x t (.stateStore i .free) := by
  unfold frees at h
  split at h
  · obtain rfl := beq_iff_eq.mp h
    exact ⟨_, _, by assumption⟩
  · cases h

theorem delivered_in_order_recycled :
    (∃ x : System.Config (pipeline Nat Nat (.tiny .cpp .bitmap)),
      System.AtOp x 2 (.stateStore 0 .free) ∧
      (x.state.slot 0).ring.head = (x.state.slot 0).ring.tail ∧ (x.state.slot 0).ring.tail = 2) ∧
    ∃ x : System.Config (pipeline Nat Nat (.tiny .cpp .bitmap)),
      x.state.deliveredOf 0 =
        [⟨⟨0, 0⟩, (1, 2), 7⟩, ⟨⟨0, 0⟩, (1, 3), 8⟩, ⟨⟨1, 0⟩, (3, 2), 9⟩] ∧
      (x.state.deliveredOf 0).Pairwise (fun e e' => e.handle.serial ≤ e'.handle.serial) ∧
      ∀ k, x.state.delivered k <+: (x.state.record k).accepted ∨
        ∃ e, e.handle.serial = k ∧ Returning x.state e ∧
          x.state.delivered k <+: (x.state.record k).accepted ++ [e] := by
  obtain ⟨x, hx, hp⟩ := System.reachable_of_test firstOwner
    (fun x => frees 2 0 x && decide ((x.state.slot 0).ring.tail = 2)) (by decide +kernel)
  obtain ⟨y, hy, hq⟩ := System.reachable_of_test secondOwner
    (fun x => decide (x.state.deliveredOf 0 =
      [⟨⟨0, 0⟩, (1, 2), 7⟩, ⟨⟨0, 0⟩, (1, 3), 8⟩, ⟨⟨1, 0⟩, (3, 2), 9⟩])) (by decide +kernel)
  rw [Bool.and_eq_true, decide_eq_true_eq] at hp
  have hfree := frees_atOp hp.1
  exact ⟨⟨x, hfree, ((delivered_in_order hx).2.2 2 0 hfree).1, hp.2⟩,
    y, of_decide_eq_true hq, (delivered_in_order hy).2.1 0, (delivered_in_order hy).1⟩

end Katas.Weir.Pipeline
