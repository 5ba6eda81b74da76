import Katas.Turnstile.Cpp.MutexWakeups
import Mathlib.Data.Nat.ModEq

/-!
# The mutex queue is a bounded fifo

What the calls tell of the items, in the order of the critical sections: the
accepted ones, by the pushes that return `ok` and by what a batch counts as
done, and the removed ones, by the pops. The accepted are the removed and then
those the ring holds, from `head_` on. A batch leaves the mutex between two
fills, so its items need not be adjacent, but those of it that are accepted are
the first ones of its array.

A `pop_batch` that asks for nothing returns nothing, also from a queue that holds
something, and one that asks for something returns nothing only when it has
timed out, or after a close, and the queue is empty.
-/
namespace Katas.Turnstile.MutexQueue
open Katas.Conc (upd upd_self upd_ne)

variable {T Tid : Type} {N : Nat} {q q' : Fields T}

/-- The items in the ring, the oldest first. -/
def Fields.held (N : Nat) (q : Fields T) : List T :=
  (List.range q.size).map fun i => q.ring ((q.head + i) % N)

/-! ## What is told -/

/-- The items that a critical section has accepted, as it tells by its end. -/
def Section.accepted : Section T → Then T → List T
  | .try_push v, .ret (.push .ok) => [v]
  | .waiter (.push v), .ret (.push .ok) => [v]
  | .push_batch items done, .again _ done' => items.take (done' - done)
  | .waiter (.push_batch v items done), .again _ done' => (v :: items).take (done' - done)
  | _, _ => []

/-- The items that a critical section has removed, as it tells by its end. -/
def Then.removed : Then T → List T
  | .ret (.pop (.ok v)) => [v]
  | .ret (.popped out) => out
  | _ => []

/-- `closed`: a `close` has done its critical section. `array t` is what the
thread's last `push_batch` was given, and `mine t` is what has been accepted of
its last call. -/
structure History (T Tid : Type) where
  accepted : List T
  removed : List T
  closed : Bool
  array : Tid → List T
  mine : Tid → List T

/-- The array that a call comes with. -/
def Section.items : Section T → List T
  | .push_batch items _ => items
  | _ => []

def Section.closes : Section T → Bool
  | .close => true
  | _ => false

section history
variable [DecidableEq Tid]

def History.calls (h : History T Tid) (t : Tid) (c : Section T) : History T Tid :=
  { h with array := upd h.array t c.items, mine := upd h.mine t [] }

def History.tells (h : History T Tid) (t : Tid) (c : Section T) (k : Then T) : History T Tid :=
  { h with
    accepted := h.accepted ++ c.accepted k
    removed := h.removed ++ k.removed
    closed := h.closed || c.closes
    mine := upd h.mine t (h.mine t ++ c.accepted k) }

/-- The thread goes from one place to another. -/
def History.record (h : History T Tid) (t : Tid) : Place T → Place T → History T Tid
  | .idle _, .wants c => h.calls t c
  | .wants c, .leaves _ k => h.tells t c k
  | .woken w, .leaves _ k => h.tells t (.waiter w) k
  | _, _ => h

variable (T Tid) [Inhabited T]

def History.init : History T Tid := ⟨[], [], false, fun _ => [], fun _ => []⟩

/-- The queue, and what its calls have told. -/
def recorded (N : Nat) : LTS (State T Tid × History T Tid) Tid where
  init x := x = (State.init T Tid, History.init T Tid)
  step x t y := Step N x.1 t y.1 ∧ y.2 = x.2.record t (x.1.loc t) (y.1.loc t)

end history

/-! ## The ring -/

theorem held_length : (q.held N).length = q.size := by
  rw [Fields.held, List.length_map, List.length_range]

theorem held_put (v : T) (hs : q.size < N) : (put N v q).held N = q.held N ++ [v] := by
  unfold Fields.held
  rw [put_size, List.range_succ, List.map_append]
  have hlast : (put N v q).ring ((q.head + q.size) % N) = v := upd_self ..
  have hrest : ∀ i ∈ List.range q.size,
      (put N v q).ring ((q.head + i) % N) = q.ring ((q.head + i) % N) := by
    intro i hi
    have hi := List.mem_range.mp hi
    refine upd_ne _ _ fun heq => ?_
    have hmod : i % N = q.size % N := Nat.ModEq.add_left_cancel' q.head heq
    rw [Nat.mod_eq_of_lt (hi.trans hs), Nat.mod_eq_of_lt hs] at hmod
    omega
  exact congrArg₂ _ (List.map_congr_left hrest) (congrArg (fun x => [x]) hlast)

theorem held_take (hh : q.head < N) (hs : 0 < q.size) :
    q.held N = (take N q).2 :: (take N q).1.held N := by
  obtain ⟨n, hn⟩ := Nat.exists_eq_succ_of_ne_zero (Nat.ne_of_gt hs)
  unfold Fields.held
  rw [take_size, hn, Nat.succ_sub_one, List.range_succ_eq_map, List.map_cons, List.map_map]
  have hfirst : q.ring ((q.head + 0) % N) = (take N q).2 := by
    rw [Nat.add_zero, Nat.mod_eq_of_lt hh]
    rfl
  have hrest : ∀ i, q.ring ((q.head + i.succ) % N) =
      (take N q).1.ring (((take N q).1.head + i) % N) := by
    intro i
    show _ = q.ring (((q.head + 1) % N + i) % N)
    rw [Nat.mod_add_mod, Nat.add_assoc, Nat.add_comm 1]
  exact congrArg₂ _ hfirst (List.map_congr_left fun i _ => hrest i)

theorem take_head (hh : q.head < N) : (take N q).1.head < N :=
  Nat.mod_lt _ (Nat.zero_lt_of_lt hh)

/-- A fill puts the first items. -/
theorem fill_held (items : List T) (done : Nat) :
    ∃ first, items = first ++ (fill N items done q).2.1 ∧
      (fill N items done q).2.2 = done + first.length ∧
      (fill N items done q).1.held N = q.held N ++ first ∧
      (fill N items done q).1.head = q.head := by
  induction items generalizing done q with
  | nil => exact ⟨[], rfl, rfl, (List.append_nil _).symm, rfl⟩
  | cons v items ih =>
    unfold fill
    split
    · rename_i hs
      obtain ⟨first, hi, hd, hh, he⟩ := ih (q := put N v q) (done + 1)
      refine ⟨v :: first, congrArg (v :: ·) hi, ?_, ?_, he⟩
      · rw [hd, List.length_cons, Nat.add_assoc, Nat.add_comm 1]
      · rw [hh, held_put v hs, List.append_assoc, List.singleton_append]
    · exact ⟨[], rfl, rfl, (List.append_nil _).symm, rfl⟩

/-- A drain takes the oldest items. -/
theorem drain_held (n : Nat) (hh : q.head < N) :
    q.held N = (drain N n q).2 ++ (drain N n q).1.held N ∧ (drain N n q).1.head < N := by
  induction n generalizing q with
  | zero => exact ⟨rfl, hh⟩
  | succ n ih =>
    unfold drain
    split
    · rename_i hs
      obtain ⟨hq, hd⟩ := ih (take_head hh)
      refine ⟨?_, hd⟩
      show _ = (take N q).2 :: (drain N n (take N q).1).2 ++ _
      rw [held_take hh hs, hq]
      rfl
    · exact ⟨rfl, hh⟩

theorem held_nil : q.held N = [] ↔ q.size = 0 := by
  rw [← List.length_eq_zero_iff, held_length]

theorem drain_take (n : Nat) (hh : q.head < N) : (drain N n q).2 = (q.held N).take n := by
  induction n generalizing q with
  | zero => rfl
  | succ n ih =>
    unfold drain
    split
    · rename_i hs
      show (take N q).2 :: (drain N n (take N q).1).2 = _
      rw [held_take hh hs, List.take_succ_cons, ih (take_head hh)]
    · rename_i hs
      rw [held_nil.mpr (by omega), List.take_nil]

/-! ## What a critical section does -/

/-- What has been accepted of a batch's array is its first items, as many as are
done. -/
def Place.Batch (array mine : List T) : Place T → Prop
  | .wants (.push_batch items done) | .leaves _ (.again items done) =>
    array = mine ++ items ∧ mine.length = done
  | .wants (.waiter (.push_batch v items done)) | .waits (.push_batch v items done)
  | .woken (.push_batch v items done) => array = mine ++ v :: items ∧ mine.length = done
  | .leaves _ (.ret (.pushed done)) | .idle (some (.pushed done)) =>
    mine <+: array ∧ mine.length = done
  | _ => True

/-- The section `c`, whose thread's wait ended with the status `timeout`, has
turned `q` into `q'` and goes on with `k`. -/
structure Done (N : Nat) (timeout : Bool) (c : Section T) (q q' : Fields T) (ns : List Notify)
    (k : Then T) : Prop where
  head : q'.head < N
  held : q.held N ++ c.accepted k = k.removed ++ q'.held N
  batch : ∀ array mine, (Place.wants c).Batch array mine →
    (Place.leaves ns k).Batch array (mine ++ c.accepted k)
  closed : q.closed = true → c.accepted k = []
  shuts : q'.closed = (q.closed || c.closes)
  popped : ∀ max out, c = .waiter (.pop_batch max) → k = .ret (.popped out) →
    out = (q.held N).take max ∧ (q.size = 0 → q.closed = true ∨ timeout = true)
  drained : k = .ret (.pop .drained) → q.closed = true ∧ q.size = 0

def Next.Does (N : Nat) (timeout : Bool) (c : Section T) (q q' : Fields T) : Next T → Prop
  | .wait w => q' = q ∧ ∀ array mine, (Place.wants c).Batch array mine →
    (Place.waits w).Batch array mine
  | .leave ns k => Done N timeout c q q' ns k

section does
variable {c : Section T} {x : Next T} {ns : List Notify} {k : Then T} {timeout : Bool}

/-- A section that accepts and removes nothing. -/
theorem Done.nothing (hh : q.head < N) (ha : c.accepted k = []) (hr : k.removed = [])
    (hc : c ≠ .close)
    (hb : ∀ array mine, (Place.wants c).Batch array mine → (Place.leaves ns k).Batch array mine)
    (hp : ∀ out, k = .ret (.popped out) → q.size = 0 ∧ (q.closed = true ∨ timeout = true))
    (hd : k = .ret (.pop .drained) → q.closed = true ∧ q.size = 0) :
    Done N timeout c q q ns k where
  head := hh
  held := by rw [ha, hr, List.append_nil, List.nil_append]
  batch array mine h := by
    rw [ha, List.append_nil]
    exact hb array mine h
  closed _ := ha
  shuts := by
    cases c with
    | close => exact absurd rfl hc
    | _ => exact (Bool.or_false _).symm
  popped max out _ hk := by
    obtain ⟨hs, hw⟩ := hp out hk
    rw [hk] at hr
    exact ⟨by rw [held_nil.mpr hs, List.take_nil]; exact hr, fun _ => hw⟩
  drained := hd

theorem Done.push {v : T} (hc : c = .try_push v ∨ c = .waiter (.push v)) (hh : q.head < N)
    (hs : q.size < N) (ho : q.closed = false) :
    Done N timeout c q (put N v q) ns (.ret (.push .ok)) where
  head := hh
  held := by
    rw [held_put v hs]
    obtain rfl | rfl := hc <;> rfl
  batch _ _ _ := trivial
  closed h := absurd (ho.symm.trans h) nofun
  shuts := by obtain rfl | rfl := hc <;> exact (Bool.or_false _).symm
  popped := nofun
  drained := nofun

theorem Done.pop (hc : c = .try_pop ∨ c = .waiter .pop) (hh : q.head < N) (hs : 0 < q.size) :
    Done N timeout c q (take N q).1 ns (.ret (.pop (.ok (take N q).2))) where
  head := take_head hh
  held := by
    rw [held_take hh hs]
    obtain rfl | rfl := hc <;> exact List.append_nil _
  batch _ _ _ := trivial
  closed _ := by obtain rfl | rfl := hc <;> rfl
  shuts := by obtain rfl | rfl := hc <;> exact (Bool.or_false _).symm
  popped := nofun
  drained := nofun

theorem try_push_does (v : T) (hh : q.head < N) (hb : q.size ≤ N)
    (h : try_push N v q = (q', x)) : x.Does N timeout (.try_push v) q q' := by
  unfold try_push at h
  split at h
  · cases h
    exact .nothing hh rfl rfl nofun (fun _ _ _ => trivial) nofun nofun
  rename_i hc
  split at h
  · cases h
    exact .nothing hh rfl rfl nofun (fun _ _ _ => trivial) nofun nofun
  · rename_i hn
    cases h
    exact .push (.inl rfl) hh (by omega) (by simpa using hc)

theorem push_does (v : T) (hh : q.head < N) (hb : q.size ≤ N)
    (h : push N v timeout q = (q', x)) : x.Does N timeout (.waiter (.push v)) q q' := by
  unfold push at h
  split at h
  · cases h
    exact .nothing hh rfl rfl nofun (fun _ _ _ => trivial) nofun nofun
  split at h
  · cases h
    exact ⟨rfl, fun _ _ _ => trivial⟩
  rename_i hn
  split at h
  · cases h
    exact .nothing hh rfl rfl nofun (fun _ _ _ => trivial) nofun nofun
  · rename_i hc
    have hne : q.size ≠ N := fun he => hn ⟨by simpa using hc, he⟩
    cases h
    exact .push (.inr rfl) hh (by omega) (by simpa using hc)

theorem try_pop_does (hh : q.head < N) (h : try_pop N q = (q', x)) :
    x.Does N timeout .try_pop q q' := by
  unfold try_pop at h
  split at h
  · cases h
    exact .nothing hh rfl rfl nofun (fun _ _ _ => trivial) nofun nofun
  · rename_i hs
    cases h
    exact .pop (.inl rfl) hh (by omega)

theorem pop_does (hh : q.head < N) (h : pop N timeout q = (q', x)) :
    x.Does N timeout (.waiter .pop) q q' := by
  unfold pop at h
  split at h
  · rename_i hc
    cases h
    refine .nothing hh rfl ?_ nofun (fun _ _ _ => trivial) nofun fun hd => ?_
    · cases q.closed <;> rfl
    · cases ho : q.closed with
      | true => exact ⟨rfl, hc.2⟩
      | false => simp [ho] at hd
  split at h
  · rename_i hs
    split at h
    · rename_i ho
      cases h
      exact .nothing hh rfl rfl nofun (fun _ _ _ => trivial) nofun fun _ => ⟨ho, hs⟩
    · cases h
      exact ⟨rfl, fun _ _ _ => trivial⟩
  · rename_i hs
    cases h
    exact .pop (.inr rfl) hh (by omega)

theorem pop_batch_does (max : Nat) (hh : q.head < N)
    (h : pop_batch N max timeout q = (q', x)) :
    x.Does N timeout (.waiter (.pop_batch max)) q q' := by
  unfold pop_batch at h
  split at h
  · rename_i hc
    cases h
    exact .nothing hh rfl rfl nofun (fun _ _ _ => trivial) (fun _ _ => ⟨hc.2, .inr hc.1⟩) nofun
  split at h
  · rename_i hs
    split at h
    · rename_i ho
      cases h
      exact .nothing hh rfl rfl nofun (fun _ _ _ => trivial) (fun _ _ => ⟨hs, .inl ho⟩) nofun
    · cases h
      exact ⟨rfl, fun _ _ _ => trivial⟩
  · rename_i hs
    cases h
    obtain ⟨hheld, hhead⟩ := drain_held max hh
    refine ⟨hhead, (List.append_nil _).trans hheld, fun _ _ _ => trivial, fun _ => rfl, ?_,
      fun max' out hc hp => ?_, nofun⟩
    · exact (drain_closed max).trans (Bool.or_false _).symm
    · cases hc
      cases hp
      exact ⟨drain_take max hh, fun h => absurd h hs⟩

/-- A turn of `push_batch`, by either of the sections that make it. -/
theorem push_batch_does (items : List T) (done : Nat) (hh : q.head < N)
    (hc : c = .push_batch items done ∨ ∃ v rest, items = v :: rest ∧
      c = .waiter (.push_batch v rest done))
    (h : push_batch N items done timeout q = (q', x)) : x.Does N timeout c q q' := by
  have hagain : ∀ items' done', c.accepted (.again items' done') = items.take (done' - done) := by
    obtain rfl | ⟨v, rest, rfl, rfl⟩ := hc <;> exact fun _ _ => rfl
  have hret : ∀ r, c.accepted (.ret (.pushed r)) = [] := by
    obtain rfl | ⟨v, rest, rfl, rfl⟩ := hc <;> exact fun _ => rfl
  have hbatch : ∀ array mine, (Place.wants c).Batch array mine →
      array = mine ++ items ∧ mine.length = done := by
    obtain rfl | ⟨v, rest, rfl, rfl⟩ := hc <;> exact fun _ _ hm => hm
  have hopen : c ≠ .close := by
    obtain rfl | ⟨v, rest, rfl, rfl⟩ := hc <;> nofun
  have hstop : ∀ ns, Done N timeout c q q ns (.ret (.pushed done)) := by
    intro ns
    refine .nothing hh (hret _) rfl hopen (fun array mine hm => ?_) nofun nofun
    obtain ⟨rfl, hlen⟩ := hbatch array mine hm
    exact ⟨List.prefix_append _ _, hlen⟩
  unfold push_batch at h
  split at h
  · cases h
    exact hstop _
  split at h
  · cases h
    exact hstop _
  split at h
  · cases h
    exact ⟨rfl, hbatch⟩
  split at h
  · cases h
    exact hstop _
  · rename_i v rest _ _ hcl
    obtain ⟨first, hi, hd, hheld, hhead⟩ := fill_held (N := N) (q := q) (v :: rest) done
    have hclosed := fill_closed (N := N) (q := q) (v :: rest) done
    generalize fill N (v :: rest) done q = f at h hi hd hheld hhead hclosed
    obtain ⟨qf, items', done'⟩ := f
    dsimp only at h hi hd hheld hhead hclosed
    cases h
    have hacc : c.accepted (.again items' done') = first := by
      rw [hagain, hd, Nat.add_sub_cancel_left, hi]
      exact List.take_left
    refine ⟨hhead.trans_lt hh, ?_, fun array mine hm => ?_, fun hcl' => absurd hcl' hcl, ?_, nofun,
      nofun⟩
    · rw [hacc]
      exact hheld.symm
    · obtain ⟨rfl, rfl⟩ := hbatch array mine hm
      rw [hacc]
      refine ⟨?_, ?_⟩
      · rw [hi, List.append_assoc]
      · rw [List.length_append]
        exact hd.symm
    · rw [hclosed]
      obtain rfl | ⟨v, rest, -, rfl⟩ := hc <;> exact (Bool.or_false _).symm

theorem run_does (hh : q.head < N) (hb : q.size ≤ N)
    (h : run N timeout q c = (q', x)) : x.Does N timeout c q q' := by
  cases c with
  | try_push v => exact try_push_does v hh hb h
  | push_batch items done => exact push_batch_does items done hh (.inl rfl) h
  | try_pop => exact try_pop_does hh h
  | close =>
    cases h
    exact ⟨hh, List.append_nil _, fun _ _ _ => trivial, fun _ => rfl, (Bool.or_true _).symm, nofun,
      nofun⟩
  | closed =>
    cases h
    exact .nothing hh rfl rfl nofun (fun _ _ _ => trivial) nofun nofun
  | waiter w =>
    cases w with
    | push v => exact push_does v hh hb h
    | push_batch v items done =>
      exact push_batch_does (v :: items) done hh (.inr ⟨v, items, rfl, rfl⟩) h
    | pop => exact pop_does hh h
    | pop_batch max => exact pop_batch_does max hh h

end does

/-! ## Every run -/

structure Held (N : Nat) (x : State T Tid × History T Tid) : Prop where
  bound : x.1.q.size ≤ N
  head : x.1.q.head < N
  held : x.2.accepted = x.2.removed ++ x.1.q.held N
  closed : x.2.closed = x.1.q.closed
  batch : ∀ t, (x.1.loc t).Batch (x.2.array t) (x.2.mine t)

section steps
variable [DecidableEq Tid] {s s' : State T Tid} {h h' : History T Tid} {t : Tid} {c : Section T}

omit [DecidableEq Tid] in
theorem State.Before.batch (hb : s.Before t c) {array mine : List T} :
    (s.loc t).Batch array mine → (Place.wants c).Batch array mine := by
  obtain hl | ⟨w, rfl, hl⟩ := hb
  · rw [hl]
    exact id
  · rw [hl]
    cases w <;> exact id

theorem State.Before.record_wait (hb : s.Before t c) (w : Waiter T) :
    h.record t (s.loc t) (.waits w) = h := by
  obtain hl | ⟨w', -, hl⟩ := hb <;> rw [hl] <;> rfl

theorem State.Before.record_leave (hb : s.Before t c) (ns : List Notify) (k : Then T) :
    h.record t (s.loc t) (.leaves ns k) = h.tells t c k := by
  obtain hl | ⟨w, rfl, hl⟩ := hb <;> rw [hl] <;> rfl

omit [DecidableEq Tid] in
theorem batch_leaves {ns ns' : List Notify} {k : Then T} {array mine : List T}
    (hb : (Place.leaves ns k).Batch array mine) : (Place.leaves ns' k).Batch array mine := by
  cases k with
  | ret r => cases r <;> exact hb
  | again => exact hb

/-- A step is a call, a critical section, or one that touches neither the fields
nor what is told. -/
theorem step_split (hs : Step N s t s') :
    (∃ r c, s.loc t = .idle r ∧ Called c ∧ s' = s.move t (.wants c)) ∨
    (∃ c timeout q x, s.Before t c ∧ run N timeout s.q c = (q, x) ∧
      s' = { s.move t x.place with q := q }) ∨
    (s'.q = s.q ∧ (∀ h : History T Tid, h.record t (s.loc t) (s'.loc t) = h) ∧
      ∀ u array mine, (s.loc u).Batch array mine → (s'.loc u).Batch array mine) := by
  have hmove : ∀ {p : Place T}, (∀ array mine, (s.loc t).Batch array mine → p.Batch array mine) →
      ∀ u array mine, (s.loc u).Batch array mine → ((s.move t p).loc u).Batch array mine := by
    intro p hp u array mine hu
    by_cases hut : u = t
    · subst hut
      rw [move_loc_self]
      exact hp _ _ hu
    · rwa [move_loc_ne _ hut]
  cases hs with
  | calls hl hc => exact .inl ⟨_, _, hl, hc, rfl⟩
  | enters hl hr => exact .inr (.inl ⟨_, _, _, _, .inl hl, hr, rfl⟩)
  | resumes hl hr => exact .inr (.inl ⟨_, _, _, _, .inr ⟨_, rfl, hl⟩, hr, rfl⟩)
  | @wakes w hl =>
    refine .inr (.inr ⟨rfl, fun h => ?_, hmove ?_⟩)
    · rw [hl, move_loc_self]
      rfl
    · rw [hl]
      cases w <;> exact fun _ _ => id
  | @notify_one u cv ns k w hl hu hw =>
    have hut : u ≠ t := by
      rintro rfl
      rw [hl] at hu
      cases hu
    refine .inr (.inr ⟨rfl, fun h => ?_, fun v array mine hv => ?_⟩)
    · rw [hl, move_loc_ne _ hut.symm, move_loc_self]
      rfl
    · by_cases hvu : v = u
      · subst hvu
        rw [move_loc_self]
        rw [hu] at hv
        cases w <;> exact hv
      · rw [move_loc_ne _ hvu]
        refine hmove ?_ v array mine hv
        rw [hl]
        exact fun _ _ => batch_leaves
  | @notify_none cv ns k hl hn =>
    refine .inr (.inr ⟨rfl, fun h => ?_, hmove ?_⟩)
    · rw [hl, move_loc_self]
      rfl
    · rw [hl]
      exact fun _ _ => batch_leaves
  | @notify_all cv ns k hl =>
    refine .inr (.inr ⟨rfl, fun h => ?_, fun v array mine hv => ?_⟩)
    · rw [hl]
      dsimp only
      rw [upd_self]
      rfl
    · dsimp only
      by_cases hvt : v = t
      · subst hvt
        rw [upd_self]
        rw [hl] at hv
        exact batch_leaves hv
      · rw [upd_ne _ _ hvt]
        unfold Place.notified
        split
        · rename_i w hw
          rw [hw] at hv
          split
          · cases w <;> exact hv
          · exact hv
        · exact hv
  | again hl =>
    refine .inr (.inr ⟨rfl, fun h => ?_, hmove ?_⟩)
    · rw [hl, move_loc_self]
      rfl
    · rw [hl]
      exact fun _ _ => id
  | @returns r hl =>
    refine .inr (.inr ⟨rfl, fun h => ?_, hmove ?_⟩)
    · show h.record t (s.loc t) ((s.move t (.idle (some r))).loc t) = h
      rw [hl, move_loc_self]
      rfl
    · rw [hl]
      cases r <;> exact fun _ _ => id

theorem held_step {x y : State T Tid × History T Tid} [Inhabited T] (hx : Held N x)
    (hs : (recorded T Tid N).step x t y) : Held N y := by
  obtain ⟨s, h⟩ := x
  obtain ⟨s', h'⟩ := y
  obtain ⟨hs, rfl⟩ : Step N s t s' ∧ h' = h.record t (s.loc t) (s'.loc t) := hs
  obtain ⟨r, c, hl, hc, rfl⟩ | ⟨c, timeout, q, x, hb, hr, rfl⟩ | ⟨hq, hh, hbatch⟩ := step_split hs
  · have hrec : h.record t (s.loc t) ((s.move t (.wants c)).loc t) = h.calls t c := by
      rw [hl, move_loc_self]
      rfl
    refine ⟨hx.bound, hx.head, ?_, ?_, fun u => ?_⟩
    · rw [hrec]
      exact hx.held
    · rw [hrec]
      exact hx.closed
    · rw [hrec]
      by_cases hut : u = t
      · subst hut
        dsimp only [History.calls]
        rw [move_loc_self, upd_self, upd_self]
        cases hc with
        | push_batch items => exact ⟨rfl, rfl⟩
        | _ => trivial
      · dsimp only [History.calls]
        rw [move_loc_ne _ hut, upd_ne _ _ hut, upd_ne _ _ hut]
        exact hx.batch u
  · have hd := run_does hx.head hx.bound hr
    have hbound := bound_step hx.bound hs
    dsimp only [State.move]
    rw [upd_self]
    cases x with
    | wait w =>
      obtain ⟨rfl, hw⟩ := hd
      refine ⟨hx.bound, hx.head, ?_, ?_, fun u => ?_⟩
      · rw [Next.place, hb.record_wait]
        exact hx.held
      · rw [Next.place, hb.record_wait]
        exact hx.closed
      · rw [Next.place, hb.record_wait]
        dsimp only
        by_cases hut : u = t
        · subst hut
          rw [upd_self]
          exact hw _ _ (hb.batch (hx.batch u))
        · rw [upd_ne _ _ hut]
          exact hx.batch u
    | leave ns k =>
      have hd : Done N timeout c s.q q ns k := hd
      refine ⟨hbound, hd.head, ?_, ?_, fun u => ?_⟩
      · rw [Next.place, hb.record_leave]
        show h.accepted ++ c.accepted k = h.removed ++ k.removed ++ q.held N
        rw [hx.held, List.append_assoc, hd.held, List.append_assoc]
      · rw [Next.place, hb.record_leave]
        show (h.closed || c.closes) = q.closed
        rw [hx.closed, hd.shuts]
      · rw [Next.place, hb.record_leave]
        dsimp only [History.tells]
        by_cases hut : u = t
        · subst hut
          rw [upd_self, upd_self]
          exact hd.batch _ _ (hb.batch (hx.batch u))
        · rw [upd_ne _ _ hut, upd_ne _ _ hut]
          exact hx.batch u
  · refine ⟨?_, ?_, ?_, ?_, fun u => ?_⟩
    · rw [hq]
      exact hx.bound
    · rw [hq]
      exact hx.head
    · rw [hh, hq]
      exact hx.held
    · rw [hh, hq]
      exact hx.closed
    · rw [hh]
      exact hbatch u _ _ (hx.batch u)

theorem held_reachable [Inhabited T] (hN : 0 < N) {x : State T Tid × History T Tid}
    (hr : (recorded T Tid N).Reachable x) : Held N x := by
  have hind : (recorded T Tid N).Inductive (Held N) := by
    refine ⟨?_, fun x t y hx hs => held_step hx hs⟩
    rintro x rfl
    exact ⟨Nat.zero_le N, hN, rfl, rfl, fun t => trivial⟩
  exact hind.reachable x hr

theorem recorded_step [Inhabited T] (hs : Step N s t s') :
    (recorded T Tid N).step (s, h) t (s', h.record t (s.loc t) (s'.loc t)) :=
  ⟨hs, rfl⟩

theorem recorded_next [Inhabited T] (t : Tid) (hr : (recorded T Tid N).Reachable (s, h))
    (hs : Step N s t s') :
    (recorded T Tid N).Reachable (s', h.record t (s.loc t) (s'.loc t)) :=
  hr.step (recorded_step hs)

/-! ## A bounded fifo -/

/-- The step goes on from a wait that ended with the status `timeout`. -/
def State.TimesOut (N : Nat) (s : State T Tid) (t : Tid) (s' : State T Tid) : Prop :=
  ∃ w q x, s.loc t = .woken w ∧ run N true s.q (.waiter w) = (q, x) ∧
    s' = { s.move t x.place with q := q }

omit [DecidableEq Tid] in
theorem Held.empty_iff (hx : Held N (s, h)) : h.removed = h.accepted ↔ s.q.size = 0 := by
  have hacc : h.accepted = h.removed ++ s.q.held N := hx.held
  rw [hacc, ← held_nil (N := N)]
  exact ⟨fun he => List.self_eq_append_right.mp he, fun he => by rw [he, List.append_nil]⟩

theorem State.Before.runs (hb : s.Before t c) (hs : Step N s t s') :
    ∃ timeout q x, run N timeout s.q c = (q, x) ∧ s'.loc t = x.place ∧
      (timeout = true → s.TimesOut N t s') := by
  obtain hl | ⟨w, rfl, hl⟩ := hb
  · cases hs with
    | enters hl' hr =>
      cases hl.symm.trans hl'
      exact ⟨_, _, _, hr, upd_self .., nofun⟩
    | calls hl' | resumes hl' | wakes hl' | notify_one hl' | notify_none hl' | notify_all hl'
    | again hl' | returns hl' => cases hl.symm.trans hl'
  · cases hs with
    | @resumes w' timeout q x hl' hr =>
      cases hl.symm.trans hl'
      refine ⟨timeout, q, x, hr, upd_self .., ?_⟩
      rintro rfl
      exact ⟨w, q, x, hl, hr, rfl⟩
    | calls hl' | enters hl' | wakes hl' | notify_one hl' | notify_none hl' | notify_all hl'
    | again hl' | returns hl' => cases hl.symm.trans hl'

/-- A critical section that ends out of the mutex. -/
theorem Held.leave [Inhabited T] (hx : Held N (s, h)) (hb : s.Before t c) {ns : List Notify}
    {k : Then T} (hs : (recorded T Tid N).step (s, h) t (s', h')) (hl : s'.loc t = .leaves ns k) :
    h' = h.tells t c k ∧ ∃ timeout q, Done N timeout c s.q q ns k ∧
      (timeout = true → s.TimesOut N t s') := by
  obtain ⟨hs, rfl⟩ : Step N s t s' ∧ h' = h.record t (s.loc t) (s'.loc t) := hs
  obtain ⟨timeout, q, x, hr, hp, ht⟩ := hb.runs hs
  have hd := run_does hx.head hx.bound hr
  rw [hl] at hp
  rw [hl, hb.record_leave]
  cases x with
  | wait w => cases hp
  | leave ns' k' =>
    cases hp
    exact ⟨rfl, timeout, q, hd, ht⟩

theorem closed_accepts [Inhabited T] (hx : Held N (s, h)) (hc : h.closed = true)
    (hs : (recorded T Tid N).step (s, h) t (s', h')) :
    h'.closed = true ∧ h'.accepted = h.accepted := by
  obtain ⟨hs, rfl⟩ : Step N s t s' ∧ h' = h.record t (s.loc t) (s'.loc t) := hs
  obtain ⟨r, c, hl, -, rfl⟩ | ⟨c, timeout, q, x, hb, hr, rfl⟩ | ⟨-, hh, -⟩ := step_split hs
  · rw [hl, move_loc_self]
    exact ⟨hc, rfl⟩
  · have hd := run_does hx.head hx.bound hr
    dsimp only [State.move]
    rw [upd_self]
    cases x with
    | wait w =>
      rw [Next.place, hb.record_wait]
      exact ⟨hc, rfl⟩
    | leave ns k =>
      have hd : Done N timeout c s.q q ns k := hd
      rw [Next.place, hb.record_leave]
      show (h.closed || c.closes) = true ∧ h.accepted ++ c.accepted k = h.accepted
      rw [hd.closed (hx.closed.symm.trans hc), hc, List.append_nil]
      exact ⟨rfl, rfl⟩
  · rw [hh]
    exact ⟨hc, rfl⟩

/-- After a close nothing is accepted any more. -/
theorem closed_run [Inhabited T] {x y : State T Tid × History T Tid} {ts : List Tid}
    (hx : Held N x) (hc : x.2.closed = true) (hr : (recorded T Tid N).Run x ts y) :
    y.2.accepted = x.2.accepted := by
  induction hr with
  | nil => rfl
  | cons hs _ ih =>
    obtain ⟨hc', hacc⟩ := closed_accepts hx hc hs
    exact (ih (held_step hx hs) hc').trans hacc

/-- For single and batch operations together: the items come out in the order
they went in, and at most `N` are held; of a batch the first `done` items are
accepted and no other; nothing is accepted after a close, and a `pop` returns
that the queue is drained only after one and when every accepted item has been
removed. What a `pop_batch` returns is at most what it asks for and comes next;
and it is exactly when it asks for something, or finds the queue empty, that it
returns nothing only if every accepted item has been removed and it has timed
out, or there was a close. -/
theorem mutex_bounded_fifo [Inhabited T] (hN : 0 < N)
    (hr : (recorded T Tid N).Reachable (s, h)) :
    h.removed <+: h.accepted ∧ h.accepted.length ≤ h.removed.length + N ∧
    (∀ t done, s.loc t = .idle (some (.pushed done)) →
      done ≤ (h.array t).length ∧ h.mine t = (h.array t).take done) ∧
    (h.closed = true → ∀ ts s' h', (recorded T Tid N).Run (s, h) ts (s', h') →
      h'.accepted = h.accepted) ∧
    ∀ t s' h', (recorded T Tid N).step (s, h) t (s', h') → ∀ ns,
      (∀ c, s.Before t c → s'.loc t = .leaves ns (.ret (.pop .drained)) →
        h.closed = true ∧ h.removed = h.accepted) ∧
      ∀ max out, s.Before t (.waiter (.pop_batch max)) →
        s'.loc t = .leaves ns (.ret (.popped out)) →
        h'.removed = h.removed ++ out ∧ out.length ≤ max ∧
        ((out = [] → h.removed = h.accepted ∧ (h.closed = true ∨ s.TimesOut N t s')) ↔
          (0 < max ∨ s.q.size = 0)) := by
  have hx := held_reachable hN hr
  have hacc : h.accepted = h.removed ++ s.q.held N := hx.held
  have hclosed : h.closed = s.q.closed := hx.closed
  refine ⟨⟨_, hacc.symm⟩, ?_, fun t done hl => ?_, fun hc ts s' h' hrun => closed_run hx hc hrun,
    fun t s' h' hs ns => ⟨fun c hb hl => ?_, fun max out hb hl => ?_⟩⟩
  · have hbound : s.q.size ≤ N := hx.bound
    rw [hacc, List.length_append, held_length]
    omega
  · have hb := hx.batch t
    dsimp only at hb
    rw [hl] at hb
    obtain ⟨hpre, rfl⟩ := hb
    exact ⟨hpre.length_le, List.prefix_iff_eq_take.mp hpre⟩
  · obtain ⟨-, timeout, q, hd, -⟩ := hx.leave hb hs hl
    obtain ⟨hc, hs⟩ := hd.drained rfl
    exact ⟨hclosed.trans hc, hx.empty_iff.mpr hs⟩
  · obtain ⟨rfl, timeout, q, hd, ht⟩ := hx.leave hb hs hl
    obtain ⟨hout, hwhy⟩ := hd.popped max out rfl rfl
    have hlen : out.length = min max s.q.size := by
      rw [hout, List.length_take, held_length]
    refine ⟨rfl, by omega, fun hnil => ?_, fun hask hnil => ?_⟩
    · by_cases hmax : 0 < max
      · exact .inl hmax
      · have hempty : out = [] := List.length_eq_zero_iff.mp (by omega)
        exact .inr (hx.empty_iff.mp (hnil hempty).1)
    · rw [hnil, List.length_nil] at hlen
      have hsize : s.q.size = 0 := by omega
      refine ⟨hx.empty_iff.mpr hsize, ?_⟩
      rw [hclosed]
      exact (hwhy hsize).imp_right ht

/-- A batch of two on a queue for one item: it puts the first, waits for room,
and times out; a `pop_batch` of two takes what there is. -/
theorem mutex_bounded_fifo_one : ∃ x y : State Nat Nat × History Nat Nat,
    (recorded Nat Nat 1).Reachable x ∧ x.1.loc 0 = .idle (some (.pushed 1)) ∧
      x.2.mine 0 = (x.2.array 0).take 1 ∧ (recorded Nat Nat 1).step x 1 y ∧
      y.1.loc 1 = .leaves [.all .not_full] (.ret (.popped [5])) ∧
      y.2.removed = x.2.removed ++ [5] ∧ y.2.removed <+: y.2.accepted := by
  have r₀ : (recorded Nat Nat 1).Reachable (.init Nat Nat, .init Nat Nat) := ⟨_, [], rfl, .nil _⟩
  have r₁ := recorded_next 0 r₀ (.calls rfl (.push_batch [5, 6]))
  have r₂ := recorded_next 0 r₁ (.enters rfl rfl)
  have r₃ := recorded_next 0 r₂ (.notify_all rfl)
  have r₄ := recorded_next 0 r₃ (.again rfl)
  have r₅ := recorded_next 0 r₄ (.enters rfl rfl)
  have r₆ := recorded_next 0 r₅ (.wakes rfl)
  have r₇ := recorded_next 0 r₆ (@Step.resumes _ _ _ _ _ _ _ true _ _ rfl rfl)
  have r₈ := recorded_next 0 r₇ (.notify_all rfl)
  have r₉ := recorded_next 0 r₈ (.returns rfl)
  have r₁₀ := recorded_next 1 r₉ (.calls rfl (.pop_batch 2))
  have r₁₁ := recorded_next 1 r₁₀ (.enters rfl rfl)
  obtain ⟨-, -, hpushed, -, hstep⟩ := mutex_bounded_fifo Nat.one_pos r₁₀
  obtain ⟨-, hpop⟩ := hstep 1 _ _ (recorded_step (.enters rfl rfl)) [.all .not_full]
  exact ⟨_, _, r₁₀, rfl, (hpushed 0 1 rfl).2, recorded_step (.enters rfl rfl), rfl,
    (hpop 2 [5] (.inl rfl) rfl).1, (mutex_bounded_fifo Nat.one_pos r₁₁).1⟩

/-- A `pop_batch` that asks for nothing returns nothing from an open queue that
holds an item, and nothing has timed out. -/
theorem pop_batch_of_none : ∃ x y : State Nat Nat × History Nat Nat,
    (recorded Nat Nat 1).Reachable x ∧ (recorded Nat Nat 1).step x 1 y ∧
      x.1.Before 1 (.waiter (.pop_batch 0)) ∧
      y.1.loc 1 = .leaves [.all .not_full] (.ret (.popped [])) ∧ x.2.accepted = [5] ∧
      x.2.removed = [] ∧ x.2.closed = false ∧ ¬ x.1.TimesOut 1 1 y.1 := by
  have r₀ : (recorded Nat Nat 1).Reachable (.init Nat Nat, .init Nat Nat) := ⟨_, [], rfl, .nil _⟩
  have r₁ := recorded_next 0 r₀ (.calls rfl (.try_push 5))
  have r₂ := recorded_next 0 r₁ (.enters rfl rfl)
  have r₃ := recorded_next 1 r₂ (.calls rfl (.pop_batch 0))
  refine ⟨_, _, r₃, recorded_step (.enters rfl rfl), .inl rfl, rfl, rfl, rfl, rfl, ?_⟩
  rintro ⟨w, q, x, hl, -⟩
  cases hl

end steps
end Katas.Turnstile.MutexQueue
