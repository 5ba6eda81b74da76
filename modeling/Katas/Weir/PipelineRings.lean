import Katas.Weir.PipelineOwners

/-!
# The rings of the event pipeline

Each slot's ring has the producer that owns the slot on one side and the
consumer on the other, and each side hands its private index to the next
owner. `RingAt` is what a thread knows of a ring by its place. The ring of a
retiring slot has no producer any more, so what the consumer sees of it when
it reclaims the slot stays true until the slot is free.
-/
namespace Katas.Weir.Pipeline
open Katas.Conc Flow Spsc

section
variable {V Tid : Type} (cfg : Config)

/-- There is room in the ring for one more. -/
def Room (r : Spsc.Ring (Item V Tid)) : Prop := r.tail < r.cachedHead + cfg.capacity

/-- What a thread knows of a ring by its place. -/
def RingAt (s : State V Tid) (t : Tid) : Place V Tid → Prop
  | .room h _ pos | .full h _ pos => pos = (s.slot h.id).ring.tail
  | .writes h _ pos => pos = (s.slot h.id).ring.tail ∧ Room cfg (s.slot h.id).ring
  | .publishes h v pos =>
    pos = (s.slot h.id).ring.tail ∧ Room cfg (s.slot h.id).ring ∧
      (s.slot h.id).ring.slot ((s.slot h.id).ring.tail % cfg.capacity) = ⟨h, s.me t, v⟩
  | .cached k _ _ h | .look k _ _ h => h = (s.slot k.i).ring.head
  | .copies k _ h n out =>
    h = (s.slot k.i).ring.head ∧ h + n ≤ (s.slot k.i).ring.cachedTail ∧ out.length ≤ n ∧
      out = ((s.slot k.i).ring.log.drop h).take out.length
  | .reclaims .state _ | .reclaims .tail _ => True
  | .reclaims (.head c) l => c = (s.slot l.i).ring.tail
  | .reclaims _ l => (s.slot l.i).ring.head = (s.slot l.i).ring.tail
  | _ => True

structure Rings (s : State V Tid) (γ : Tid → Place V Tid) : Prop where
  inv : ∀ i, (s.slot i).ring.Inv cfg.capacity
  free : ∀ i, (s.slot i).state = .free → (s.slot i).ring.head = (s.slot i).ring.tail
  at_ : ∀ t, RingAt cfg s t (γ t)

variable {cfg} {s s' : State V Tid} {t : Tid} {g : Place V Tid}

theorem Entry.ringAt (h : Entry cfg g) : RingAt cfg s t g := by
  cases h <;> trivial

theorem RingAt.congr (h : RingAt cfg s t g) (hme : s'.calls t = s.calls t)
    (hr : ∀ i, (s'.slot i).ring = (s.slot i).ring) : RingAt cfg s' t g := by
  have hme' : s'.me t = s.me t := by unfold State.me; rw [hme]
  cases g with
  | reclaims p l => cases p <;> first | trivial | simpa only [RingAt, hr] using h
  | _ => first
    | trivial
    | simpa only [RingAt, hr, hme'] using h

/-- Is it a place of a push into slot `i`, before the item is published? -/
def Place.pushesTo : Place V Tid → Nat → Prop
  | .room h _ _, i | .full h _ _, i | .writes h _ _, i | .publishes h _ _, i => h.id = i
  | _, _ => False

/-- Is the consumer reclaiming slot `i`? -/
def Place.reclaimsAt : Place V Tid → Nat → Prop
  | .reclaims .state _, _ => False
  | .reclaims _ l, i => l.i = i
  | _, _ => False

/-- A step of a producer of slot `i`, seen by the others. -/
theorem RingAt.produced (h : RingAt cfg s t g) {i : Nat} (hp : ¬ g.pushesTo i)
    (hc : ¬ g.reclaimsAt i) (hi : (s.slot i).ring.Inv cfg.capacity)
    (hme : s'.calls t = s.calls t) (hoff : ∀ j, j ≠ i → (s'.slot j).ring = (s.slot j).ring)
    (hhead : (s'.slot i).ring.head = (s.slot i).ring.head)
    (htail : (s'.slot i).ring.cachedTail = (s.slot i).ring.cachedTail)
    (hlog : (s.slot i).ring.log <+: (s'.slot i).ring.log) : RingAt cfg s' t g := by
  have hme' : s'.me t = s.me t := by unfold State.me; rw [hme]
  have hhead' : ∀ j, (s'.slot j).ring.head = (s.slot j).ring.head := by
    intro j
    by_cases hj : j = i
    · subst hj; exact hhead
    · rw [hoff j hj]
  cases g with
  | room k v pos | full k v pos => exact h.trans (by rw [hoff _ hp])
  | writes k v pos => simpa only [RingAt, hoff k.id hp] using h
  | publishes k v pos => simpa only [RingAt, hoff k.id hp, hme'] using h
  | cached k got room c | look k got room c => exact h.trans (hhead' _).symm
  | copies k got c n out =>
    by_cases hj : k.i = i
    · subst hj
      obtain ⟨h1, h2, h3, h4⟩ := h
      refine ⟨h1.trans hhead.symm, by rw [htail]; exact h2, h3, ?_⟩
      obtain ⟨l, hl⟩ := hlog
      have hlen : c + out.length ≤ (s.slot k.i).ring.log.length := by
        have := hi.length
        have := hi.seenTail.2
        omega
      rw [← hl, List.drop_append_of_le_length (by omega),
        List.take_append_of_le_length (by rw [List.length_drop]; omega)]
      exact h4
    · simpa only [RingAt, hoff k.i hj] using h
  | reclaims p l =>
    cases p with
    | state | tail => trivial
    | _ => simpa only [RingAt, hoff l.i hc] using h
  | _ => trivial

/-- A step of the consumer, seen by the others. -/
theorem RingAt.consumed (h : RingAt cfg s t g) (hr : g.role ≠ .consume)
    (hme : s'.calls t = s.calls t) (hp : ∀ i, (s'.slot i).ring.tail = (s.slot i).ring.tail ∧
      (s'.slot i).ring.cachedHead = (s.slot i).ring.cachedHead ∧
      (s'.slot i).ring.slot = (s.slot i).ring.slot) : RingAt cfg s' t g := by
  have hme' : s'.me t = s.me t := by unfold State.me; rw [hme]
  cases g with
  | room k v pos | full k v pos => exact h.trans (hp _).1.symm
  | writes k v pos =>
    obtain ⟨h1, h2, -⟩ := hp k.id
    simpa only [RingAt, Room, h1, h2] using h
  | publishes k v pos =>
    obtain ⟨h1, h2, h3⟩ := hp k.id
    simpa only [RingAt, Room, h1, h2, h3, hme'] using h
  | cached | look | copies | reclaims => exact absurd rfl hr
  | _ => trivial

end

section
variable {V Tid : Type} [DecidableEq Tid] [Inhabited V] [Inhabited Tid] {cfg : Config}
  {s s' : State V Tid} {γ : Tid → Place V Tid} {t : Tid} {g : Place V Tid} {a : Act V Tid} {n : Nat}

omit [DecidableEq Tid] [Inhabited V] [Inhabited Tid] in
/-- The place an operation that works on no ring leads to. -/
theorem RingAt.moves {r : Resp a} (h : RingAt cfg s t g)
    (hi : ∀ i, (s.slot i).ring.Inv cfg.capacity) {g' : Place V Tid} (ha : a.rings = false)
    (hr : r = reply cfg n s a) (hm : Move cfg g a r g') : RingAt cfg s t g' := by
  cases hm with
  | life hm => cases hm <;> trivial
  | wake hm =>
    cases hm with
    | lock k | notify k => trivial
    | unlock k | send k => cases k <;> trivial
  | register hm =>
    cases hm with
    | cas | casLocked | finds => split <;> trivial
    | _ => trivial
  | scan hm =>
    cases hm with
    | reclaim fin ids hg => exact hg.entry.ringAt
    | _ => trivial
  | push hm =>
    cases hm with
    | accepting k v b => cases b <;> trivial
    | tail k v c => exact hr
    | cached k v pos c =>
      split
      · exact h
      · rename_i hne
        refine ⟨h, ?_⟩
        have hroom := (hi k.id).room
        have hseen := (hi k.id).seenHead
        have hle := (hi k.id).head_le_tail
        have hc : c = (s.slot k.id).ring.cachedHead := hr
        have hpos : pos = (s.slot k.id).ring.tail := h
        unfold Room
        omega
    | see | write | publish => cases ha
    | pending | set => split <;> trivial
    | test w b | mind w b => cases b <;> trivial
    | _ => trivial
  | drain hm =>
    cases hm with
    | word w r hg => exact hg.entry.ringAt
    | ids clear l hg => exact hg.entry.ringAt
    | flag clear i rest ids b hg => exact hg.entry.ringAt
    | free k hg => exact hg.entry.ringAt
    | used k hst => exact (loopAt_entry cfg k 0).ringAt
    | staged | spill => split <;> trivial
    | head k got room c => exact hr
    | cached k got room c d =>
      have hd : d = (s.slot k.i).ring.cachedTail := hr
      have hc : c = (s.slot k.i).ring.head := h
      split
      · exact hc
      · have := (hi k.i).seenTail.1
        refine ⟨hc, ?_, Nat.zero_le _, rfl⟩
        omega
    | look | copied => cases ha
    | copy k got c m out e hlt =>
      obtain ⟨h1, h2, h3, h4⟩ := h
      refine ⟨h1, h2, by rw [List.length_append]; exact hlt, ?_⟩
      have hst := (hi k.i).stored (c + out.length) (by omega)
        (by have := (hi k.i).seenTail.2; omega)
      have he : e = (s.slot k.i).ring.slot ((c + out.length) % cfg.capacity) := hr
      rw [List.length_append, List.length_singleton, List.take_add_one, ← h4,
        List.getElem?_drop, hst, he]
      rfl
    | drained k got hg => exact hg.entry.ringAt
    | flushed d total hg => exact hg.entry.ringAt
    | write d total hg => exact hg.entry.ringAt
    | lastFlushed hg => exact hg.entry.ringAt
    | lastWrite hg => exact hg.entry.ringAt
    | _ => trivial
  | reclaim hm =>
    cases hm with
    | skip hp hg => exact hg.entry.ringAt
    | take hp hg => exact hg.entry.ringAt
    | skips hp hg => exact hg.entry.ringAt
    | takes hg => exact hg.entry.ringAt
    | finds | retiring => trivial
    | other l hst hg => exact hg.entry.ringAt
    | tail => cases ha
    | empty l c => exact hr.symm.trans h
    | filled l hc hg => exact hg.entry.ringAt
    | addDropped l m => split <;> exact h
    | free l hg => exact hg.entry.ringAt
    | _ => exact h
  | clear hm =>
    cases hm with
    | word w hg => exact hg.entry.ringAt
    | tail | tailAgain => cases ha
    | filled i rest b hc hg => exact hg.entry.ringAt
    | emptyAgain i rest b c hg =>
      split at hg
      · split at hg
        · subst hg; trivial
        · exact hg.entry.ringAt
      · subst hg; trivial
    | other i rest b hst hg => exact hg.entry.ringAt
    | restore i rest b zero hg => exact hg.entry.ringAt
    | _ => trivial
  | park hm =>
    cases hm with
    | arm told => cases told <;> trivial
    | word | run => split <;> (try split) <;> trivial
    | disarm told => split <;> trivial
    | _ => trivial

/-! ## One producer for each ring -/

section
omit [DecidableEq Tid] [Inhabited V] [Inhabited Tid]

theorem pushesTo_role {i : Nat} (h : g.pushesTo i) :
    ∃ k v, g.role = .push k v ∧ k.id = i := by
  cases g with
  | room k v pos | full k v pos | writes k v pos | publishes k v pos => exact ⟨k, v, rfl, h⟩
  | _ => cases h

/-- What holds of a slot that is pushed into. -/
theorem Owners.pushing (h : Owners cfg s γ) (hc : Calls cfg s γ) {k : Handle} {v : V}
    (hr : (γ t).role = .push k v) : s.use k.serial = .pushing t ∧
      s.owner k.id = some (.handle k.serial) ∧ (s.slot k.id).state = .active := by
  obtain ⟨hu, hk⟩ := hc.pushing t k v (hc.push hr)
  exact ⟨hu, h.live k.serial k.id hk (.inr ⟨t, hu⟩)⟩

/-- Two pushes into one slot are one thread's. -/
theorem Owners.one_pusher (h : Owners cfg s γ) (hc : Calls cfg s γ) {k k' : Handle} {v v' : V}
    {u : Tid} (ht : (γ t).role = .push k v) (hu : (γ u).role = .push k' v') (hi : k'.id = k.id) :
    u = t := by
  obtain ⟨h1, h2, -⟩ := h.pushing hc ht
  obtain ⟨h3, h4, -⟩ := h.pushing hc hu
  rw [hi, h2] at h4
  have hs : k.serial = k'.serial := by simpa using h4
  rw [← hs, h1] at h3
  simpa using h3.symm

/-- A slot that is pushed into is not being reclaimed. -/
theorem Owners.not_reclaimed (h : Owners cfg s γ) (hc : Calls cfg s γ) {k : Handle} {v : V}
    {u : Tid} (hr : (γ t).role = .push k v) : ¬ (γ u).reclaimsAt k.id := by
  obtain ⟨-, -, hst⟩ := h.pushing hc hr
  intro hu
  have hat := h.at_ u
  cases hg : γ u with
  | reclaims p l =>
    rw [hg] at hu hat
    cases p with
    | state => cases hu
    | _ =>
      have hi : l.i = k.id := hu
      have hat : (s.slot l.i).state = .retiring := hat
      rw [hi, hst] at hat
      cases hat
  | _ => rw [hg] at hu; cases hu

end

/-! ## The invariant -/

omit [DecidableEq Tid] [Inhabited V] [Inhabited Tid] in
/-- Where a slot's state is changed. -/
theorem Move.turn_cases {r : Resp a} {g g' : Place V Tid} (hm : Move cfg g a r g')
    (h : a.turns = true) :
    (∃ i, a = .stateCas i ∧ i < cfg.producers) ∨
      (∃ i, a = .stateStore i .active ∧ g = .vacant i) ∨
      (∃ k, a = .stateStore k.id .retiring ∧ g = .leaves k ∧ g' = .leaving k) ∨
      ∃ l, a = .stateStore l.i .free ∧ g = .reclaims .free l := by
  cases hm with
  | register hm =>
    cases hm with
    | cas i won hi | casLocked i won hi => exact .inl ⟨i, rfl, hi⟩
    | activates i => exact .inr (.inl ⟨i, rfl, rfl⟩)
    | _ => cases h
  | push hm =>
    cases hm with
    | retires k => exact .inr (.inr (.inl ⟨k, rfl, rfl, rfl⟩))
    | _ => cases h
  | reclaim hm =>
    cases hm with
    | free l hg => exact .inr (.inr (.inr ⟨l, rfl, rfl⟩))
    | _ => cases h
  | life hm =>
    cases hm with
    | @waits a r hw => cases a <;> simp_all [Act.turns, halting]
    | _ => cases h
  | wake hm | scan hm | drain hm | clear hm | park hm => cases hm <;> cases h

omit [DecidableEq Tid] [Inhabited V] [Inhabited Tid] in
/-- The consumer alone frees a slot, at the end of its reclaiming. -/
theorem Move.frees {i : Nat} {r : Unit} {g g' : Place V Tid}
    (hm : Move cfg g (.stateStore i .free) r g') :
    ∃ l : Lot, g = .reclaims .free l ∧ i = l.i := by
  cases hm with
  | reclaim hm => cases hm with | free l hg => exact ⟨l, rfl, rfl⟩
  | life hm => cases hm with | waits hw => cases hw
  | wake hm | register hm | scan hm | push hm | drain hm | clear hm | park hm => cases hm

omit [Inhabited V] [Inhabited Tid] in
theorem to_free {r : Resp a} {g g' : Place V Tid} (hm : Move cfg g a r g') {i : Nat}
    (hi : ((apply cfg t a n s).slot i).state = .free) :
    (s.slot i).state = .free ∨ ∃ l : Lot, g = .reclaims .free l ∧ i = l.i := by
  have hupd : ∀ {j : Nat} {st : SlotState}, st ≠ .free →
      (if i = j then { s.slot j with state := st } else s.slot i).state = .free →
        (s.slot i).state = .free := by
    intro j st hst hif
    split at hif
    · exact absurd hif hst
    · exact hif
  by_cases ht : a.turns = false
  · rw [apply_state ht] at hi; exact .inl hi
  · cases a with
    | stateCas j =>
      unfold apply at hi
      dsimp only at hi
      split at hi
      · exact .inl (hupd (fun h => by cases h) hi)
      · exact .inl hi
    | stateStore j st =>
      cases st with
      | free =>
        obtain ⟨l, hg, rfl⟩ := hm.frees
        by_cases hl : i = l.i
        · exact .inr ⟨l, hg, hl⟩
        · simp only [apply, State.turn, State.setSlot_slot, if_neg hl] at hi
          exact .inl hi
      | active => exact .inl (hupd (fun h => by cases h) hi)
      | retiring => exact .inl (hupd (fun h => by cases h) hi)
    | _ => exact absurd rfl ht

omit [DecidableEq Tid] [Inhabited V] [Inhabited Tid] in
@[simp] theorem State.setRing_ring (i j : Nat) (r : Spsc.Ring (Item V Tid)) :
    ((s.setRing i r).slot j).ring = if j = i then r else (s.slot j).ring := by
  unfold State.setRing
  rw [State.setSlot_slot]
  split <;> rfl

section
omit [Inhabited V] [Inhabited Tid]

/-- After a step of the thread that pushes into slot `i`. -/
theorem Rings.produces (h : Rings cfg s γ) (hc : Calls cfg s γ) (ho : Owners cfg s γ)
    {k : Handle} {v : V} (hrole : (γ t).role = .push k v) {r : Spsc.Ring (Item V Tid)}
    (hs : ∀ j, (s'.slot j).ring = if j = k.id then r else (s.slot j).ring)
    (hst : ∀ j, (s'.slot j).state = (s.slot j).state) (hme : s'.calls = s.calls)
    (hinv : r.Inv cfg.capacity) (hhead : r.head = (s.slot k.id).ring.head)
    (htail : r.cachedTail = (s.slot k.id).ring.cachedTail) (hlog : (s.slot k.id).ring.log <+: r.log)
    (hg : RingAt cfg s' t g) : Rings cfg s' (upd γ t g) := by
  have hat : (s'.slot k.id).ring = r := by rw [hs, if_pos rfl]
  have hoff : ∀ j, j ≠ k.id → (s'.slot j).ring = (s.slot j).ring := by
    intro j hj
    rw [hs, if_neg hj]
  refine ⟨fun j => ?_, fun j hj => ?_, at_upd hg fun u hu => ?_⟩
  · by_cases hk : j = k.id
    · subst hk; rw [hat]; exact hinv
    · rw [hoff j hk]; exact h.inv j
  · rw [hst] at hj
    by_cases hk : j = k.id
    · subst hk
      cases hj.symm.trans (ho.pushing hc hrole).2.2
    · rw [hoff j hk]; exact h.free j hj
  · refine (h.at_ u).produced (fun hp => ?_) (ho.not_reclaimed hc hrole) (h.inv k.id)
      (by rw [hme]) hoff (by rw [hat, hhead]) (by rw [hat, htail]) (by rw [hat]; exact hlog)
    obtain ⟨k', v', hr, hi⟩ := pushesTo_role hp
    exact hu (ho.one_pusher hc hrole hr hi)

/-- After a step of the consumer at ring `i`. -/
theorem Rings.consumes (h : Rings cfg s γ) (hc : Calls cfg s γ) (hrole : (γ t).role = .consume)
    {i : Nat} {r : Spsc.Ring (Item V Tid)}
    (hs : ∀ j, (s'.slot j).ring = if j = i then r else (s.slot j).ring)
    (hst : ∀ j, (s'.slot j).state = (s.slot j).state) (hme : s'.calls = s.calls)
    (hinv : r.Inv cfg.capacity) (hhead : (s.slot i).ring.head ≤ r.head)
    (hp : r.tail = (s.slot i).ring.tail ∧ r.cachedHead = (s.slot i).ring.cachedHead ∧
      r.slot = (s.slot i).ring.slot)
    (hg : RingAt cfg s' t g) : Rings cfg s' (upd γ t g) := by
  have hat : (s'.slot i).ring = r := by rw [hs, if_pos rfl]
  have hoff : ∀ j, j ≠ i → (s'.slot j).ring = (s.slot j).ring := by
    intro j hj
    rw [hs, if_neg hj]
  refine ⟨fun j => ?_, fun j hj => ?_, at_upd hg fun u hu => ?_⟩
  · by_cases hk : j = i
    · subst hk; rw [hat]; exact hinv
    · rw [hoff j hk]; exact h.inv j
  · rw [hst] at hj
    have hf := h.free j hj
    by_cases hk : j = i
    · subst hk
      rw [hat]
      have hle := hinv.head_le_tail
      have htail := hp.1
      omega
    · rw [hoff j hk]; exact hf
  · refine (h.at_ u).consumed (fun hr => hu (hc.one_consumer hr hrole)) (by rw [hme]) fun j => ?_
    by_cases hk : j = i
    · subst hk; rw [hat]; exact hp
    · rw [hoff j hk]; exact ⟨rfl, rfl, rfl⟩

/-- A look at a ring's tail. -/
theorem Rings.sees (h : Rings cfg s γ) (hc : Calls cfg s γ) (hrole : (γ t).role = .consume)
    (site : Site) (i : Nat) (hg : RingAt cfg (apply cfg t (.tailSee site i) n s) t g) :
    Rings cfg (apply cfg t (.tailSee site i) n s) (upd γ t g) :=
  h.consumes hc hrole (fun j => State.setRing_ring i j _) (fun j => apply_state rfl j) rfl
    ((h.inv i).seeTail (h.inv i).seenTail.2 (Nat.le_refl _)) (Nat.le_refl _) ⟨rfl, rfl, rfl⟩ hg

theorem Rings.move (h : Rings cfg s γ) (hc : Calls cfg s γ) (ho : Owners cfg s γ) {r : Resp a}
    {g : Place V Tid} (hr : r = reply cfg n s a) (hm : Move cfg (γ t) a r g) :
    Rings cfg (apply cfg t a n s) (upd γ t g) := by
  have hat := h.at_ t
  by_cases ha : a.rings = false
  · have hs : ∀ i, ((apply cfg t a n s).slot i).ring = (s.slot i).ring := apply_ring ha
    refine ⟨fun i => by rw [hs]; exact h.inv i, fun i hi => ?_,
      at_upd ((hat.moves h.inv ha hr hm).congr (by rw [apply_callNumber]) hs)
        fun u _ => (h.at_ u).congr (by rw [apply_callNumber]) hs⟩
    rw [hs]
    obtain hf | ⟨l, hγ, rfl⟩ := to_free hm hi
    · exact h.free i hf
    · rw [hγ] at hat; exact hat
  · generalize hγ : γ t = g₀ at hm hat
    cases hm with
    | push hm =>
      cases hm with
      | see k v pos c =>
        have hrole : (γ t).role = .push k v := by rw [hγ]; rfl
        have hc' : c = (s.slot k.id).ring.head := hr
        refine h.produces hc ho hrole (fun j => State.setRing_ring _ j _)
          (fun j => apply_state rfl j) rfl
          ((h.inv k.id).seeHead (h.inv k.id).seenHead (Nat.le_refl _)) rfl rfl
          (List.prefix_refl _) ?_
        split
        · trivial
        · rename_i hne
          have hle := (h.inv k.id).head_le_tail
          have hroom := (h.inv k.id).room
          have hseen := (h.inv k.id).seenHead
          have hpos : pos = (s.slot k.id).ring.tail := hat
          have hring : ((apply cfg t (.headSee k.id) n s).slot k.id).ring =
              (s.slot k.id).ring.seeHead (s.slot k.id).ring.head := by
            simp only [apply, State.setRing_ring, if_true]
          simp only [RingAt, Room, hring]
          refine ⟨hpos, ?_⟩
          show (s.slot k.id).ring.tail < (s.slot k.id).ring.head + cfg.capacity
          omega
      | write k v pos =>
        have hrole : (γ t).role = .push k v := by rw [hγ]; rfl
        obtain ⟨rfl, hroom⟩ := hat
        refine h.produces hc ho hrole (fun j => State.setRing_ring _ j _)
          (fun j => apply_state rfl j) rfl ((h.inv k.id).write hroom _) rfl rfl
          (List.prefix_refl _) ?_
        have hring : ((apply cfg t (.slotStore k (s.slot k.id).ring.tail v) n s).slot k.id).ring =
            (s.slot k.id).ring.write cfg.capacity (s.slot k.id).ring.tail ⟨k, s.me t, v⟩ := by
          simp only [apply, State.setRing_ring, if_true]
        simp only [RingAt, Room, hring]
        exact ⟨rfl, hroom, upd_self _ _ _⟩
      | publish k v pos =>
        have hrole : (γ t).role = .push k v := by rw [hγ]; rfl
        obtain ⟨rfl, hroom, -⟩ := hat
        exact h.produces hc ho hrole (fun j => State.setRing_ring _ j _)
          (fun j => apply_state rfl j) rfl ((h.inv k.id).publish hroom) rfl rfl
          (List.prefix_append _ _) trivial
      | _ => exact absurd rfl ha
    | drain hm =>
      cases hm with
      | look k got room c d =>
        have hrole : (γ t).role = .consume := by rw [hγ]; rfl
        refine h.sees hc hrole _ _ ?_
        have hd : d = (s.slot k.i).ring.tail := hr
        have hc' : c = (s.slot k.i).ring.head := hat
        split
        · trivial
        · have hle := (h.inv k.i).head_le_tail
          have hring : ((apply cfg t (.tailSee k.drain.site k.i) n s).slot k.i).ring =
              (s.slot k.i).ring.seeTail (s.slot k.i).ring.tail := by
            simp only [apply]
            exact (State.setRing_ring _ _ _).trans (if_pos rfl)
          simp only [RingAt, hring]
          refine ⟨hc', ?_, Nat.zero_le _, rfl⟩
          show c + min room (d - c) ≤ (s.slot k.i).ring.tail
          omega
      | copied k got c m out hn =>
        have hrole : (γ t).role = .consume := by rw [hγ]; rfl
        obtain ⟨h1, h2, -, -⟩ := hat
        refine h.consumes hc hrole (fun j => State.setRing_ring k.i j _)
          (fun j => apply_state rfl j) rfl ((h.inv k.i).take (by omega) h2) ?_
          ⟨rfl, rfl, rfl⟩ ?_
        · show (s.slot k.i).ring.head ≤ c + m
          omega
        · split
          · trivial
          · exact (loopAt_entry cfg k _).ringAt
      | _ => exact absurd rfl ha
    | reclaim hm =>
      cases hm with
      | tail l c =>
        refine h.sees hc (by rw [hγ]; rfl) _ _ ?_
        have hring : ((apply cfg t (.tailSee .reclaim l.i) n s).slot l.i).ring =
            (s.slot l.i).ring.seeTail (s.slot l.i).ring.tail := by
          simp only [apply]
          exact (State.setRing_ring _ _ _).trans (if_pos rfl)
        simp only [RingAt, hring]
        exact hr
      | _ => exact absurd rfl ha
    | clear hm =>
      cases hm with
      | tail | tailAgain => exact h.sees hc (by rw [hγ]; rfl) _ _ trivial
      | _ => exact absurd rfl ha
    | life hm =>
      cases hm with
      | @waits a _ hw => cases a <;> first | exact absurd rfl ha | cases hw
      | _ => exact absurd rfl ha
    | _ hm => cases hm <;> exact absurd rfl ha

end

variable (V Tid cfg) in
theorem rings_keeps (ok : Tid → Act V Tid → State V Tid → Prop) :
    (flow V Tid cfg).Keeps ok (Rings cfg) where
  init := ⟨fun i => Ring.init_inv _ _, fun i _ => rfl, fun _ => trivial⟩
  begin _ h t c hi he := by
    refine ⟨by rw [begin_slot]; exact h.inv, by rw [begin_slot]; exact h.free,
      at_upd ?_ fun u hu => (h.at_ u).congr (begin_calls hu) fun i => by rw [begin_slot]⟩
    cases c <;> trivial
  move hr h t a n s' r g _ hs hm := by
    obtain ⟨-, rfl, h2⟩ := sem_some cfg hs
    exact h.move ((calls_keeps V Tid cfg _).reach hr) ((owners_keeps V Tid cfg _).reach hr) h2 hm
  finish _ h t c r he := by
    exact ⟨by rw [finish_slot]; exact h.inv, by rw [finish_slot]; exact h.free,
      at_upd trivial fun u _ => (h.at_ u).congr (by rw [finish_calls]) fun i => by rw [finish_slot]⟩

end
end Katas.Weir.Pipeline
