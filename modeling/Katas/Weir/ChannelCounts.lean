import Katas.Core.Covers
import Katas.Core.Sums
import Katas.Weir.ChannelDrain
import Katas.Weir.ChannelOwners
import Mathlib.Algebra.GroupWithZero.Nat

/-!
# What the channel pipeline counts

`Stats` sums the slots' counters, and `consumed` is a running total. Each
accepted event is counted once in its slot and, when its batch goes out, once
in `consumed`; each push that found the pipeline open is counted as pushed or
dropped. So the books balance whenever nothing is on its way, as long as no
counter is thrown away: `Producer` sets a slot's counters to zero as it claims
the slot, and what an earlier owner had counted there is lost while `consumed`
keeps it.
-/
namespace Katas.Weir.Channel
open Katas.Conc

/-- mirrors mpsc-event-pipeline-kata/go/internal/weir/config.go:79-85 -/
structure Stats where
  Pushed : Nat
  Dropped : Nat
  HighWater : Nat
  Consumed : Nat
  deriving DecidableEq, Repr

section
variable {V Tid : Type} [DecidableEq Tid] {cfg : Config}

/-- mirrors mpsc-event-pipeline-kata/go/internal/weir/chanpipe.go:201-205 -/
def Stats.add (n : Stats) (c : ChanSlot V Tid) : Stats :=
  { n with
    Pushed := n.Pushed + c.pushed
    Dropped := n.Dropped + c.dropped
    HighWater := if c.highWater > n.HighWater then c.highWater else n.HighWater }

/-- mirrors mpsc-event-pipeline-kata/go/internal/weir/chanpipe.go:198-211 -/
def stats (cfg : Config) (s : State V Tid) : Stats :=
  let n := (List.range cfg.producers).foldl (fun (n : Stats) i => n.add (s.slot i)) ⟨0, 0, 0, 0⟩
  { n with Consumed := s.consumed }

/-- A claim of a slot finds its counters at zero. -/
def unspent (_ : Tid) (a : Act V) (s : State V Tid) : Prop :=
  match a with
  | .pushedStore i => (s.slot i).pushed = 0
  | .droppedStore i => (s.slot i).dropped = 0
  | _ => True

/-! ## Sums over the slots -/

/-- The sum of `f` over the slots. -/
def total (cfg : Config) (f : ChanSlot V Tid → Nat) (s : State V Tid) : Nat :=
  ((List.range cfg.producers).map fun i => f (s.slot i)).sum

variable {s s' : State V Tid} {γ : Tid → Place V} {t : Tid} {g g' : Place V}

section
omit [DecidableEq Tid]

theorem total_congr {f : ChanSlot V Tid → Nat} (h : ∀ i, f (s'.slot i) = f (s.slot i)) :
    total cfg f s' = total cfg f s := by
  unfold total
  simp only [h]

theorem total_upd {i : Nat} {c : ChanSlot V Tid} (f : ChanSlot V Tid → Nat)
    (h : s'.slot = upd s.slot i c) (hi : i < cfg.producers) :
    total cfg f s' + f (s.slot i) = total cfg f s + f c := by
  unfold total
  rw [h]
  exact sumTo_upd f s.slot c hi

/-- A counter to which each slot adds its own is the sum of theirs. -/
theorem foldl_add {f : Stats → Nat} {c : ChanSlot V Tid → Nat}
    (hadd : ∀ (n : Stats) (k : ChanSlot V Tid), f (n.add k) = f n + c k) (l : List Nat)
    (n : Stats) : f (l.foldl (fun (n : Stats) i => n.add (s.slot i)) n) =
      f n + (l.map fun i => c (s.slot i)).sum := by
  induction l generalizing n with
  | nil => rfl
  | cons i l ih => rw [List.foldl_cons, ih, hadd, List.map_cons, List.sum_cons, Nat.add_assoc]

theorem stats_pushed : (stats cfg s).Pushed = total cfg (·.pushed) s :=
  (foldl_add (f := Stats.Pushed) (fun _ _ => rfl) _ _).trans (Nat.zero_add _)

theorem stats_dropped : (stats cfg s).Dropped = total cfg (·.dropped) s :=
  (foldl_add (f := Stats.Dropped) (fun _ _ => rfl) _ _).trans (Nat.zero_add _)

end

/-! ## What is on its way -/

/-- Has sent, and not counted it. -/
def Place.sent : Place V → Prop
  | .counting _ _ true => True
  | _ => False

/-- Has found the pipeline open, and counted nothing. -/
def Place.undecided : Place V → Prop
  | .opened _ _ | .offers _ _ | .counting _ _ _ => True
  | _ => False

/-- Has counted the batch, and not written it. -/
def Place.writing : Place V → Prop
  | .write _ _ _ | .writeLast _ _ => True
  | _ => False

/-- Changes a count, or what is counted. -/
def tallies : Act V → Bool
  | .closedLoad | .send _ _ | .pushedAdd _ | .droppedAdd _ | .pushedStore _ | .droppedStore _
  | .recv _ | .consumedAdd | .sinkWrite => true
  | _ => false

structure SameCounts (s s' : State V Tid) : Prop where
  slot : ∀ i, (s'.slot i).ch = (s.slot i).ch ∧ (s'.slot i).pushed = (s.slot i).pushed ∧
    (s'.slot i).dropped = (s.slot i).dropped
  sent : s'.sent = s.sent
  batch : s'.batch = s.batch
  consumed : s'.consumed = s.consumed
  opened : s'.opened = s.opened

omit [DecidableEq Tid] in
theorem SameCounts.of_slot {i : Nat} {c : ChanSlot V Tid} (h : s'.slot = upd s.slot i c)
    (hc : c.ch = (s.slot i).ch) (hp : c.pushed = (s.slot i).pushed)
    (hd : c.dropped = (s.slot i).dropped) (hs : s'.sent = s.sent) (hb : s'.batch = s.batch)
    (hn : s'.consumed = s.consumed) (ho : s'.opened = s.opened) : SameCounts s s' := by
  refine ⟨fun j => ?_, hs, hb, hn, ho⟩
  rw [h, upd_apply]
  split
  · rename_i he
    rw [he]
    exact ⟨hc, hp, hd⟩
  · exact ⟨rfl, rfl, rfl⟩

omit [DecidableEq Tid] in
theorem sameCounts {a : Act V} {n : Nat} {r : Resp a} (ha : tallies a = false)
    (hs : sem cfg t a n s = some (s', r)) : SameCounts s s' := by
  unfold sem at hs
  split at hs <;> (try exact absurd ha.symm Bool.false_ne_true) <;> (repeat' split at hs) <;>
    cases hs <;>
    first
    | exact ⟨fun _ => ⟨rfl, rfl, rfl⟩, rfl, rfl, rfl, rfl⟩
    | exact .of_slot rfl rfl rfl rfl rfl rfl rfl rfl

theorem tallies_of_free {a : Act V} (h : Channel.free a = true) :
    tallies a = false := by
  cases a <;> first | rfl | cases h

theorem tallies_of_counts {a : Act V} (h : counts a = true) : tallies a = false := by
  cases a <;> first | rfl | cases h

/-- At slot `i`, from which it may be about to receive. -/
def Place.receives (i : Nat) : Place V → Prop
  | .length _ j _ | .top _ j _ _ | .take _ j _ _ => j = i
  | _ => False

/-- The books: what is consumed, counting the batch unless it has just been
counted; what is pushed, but for the sends not yet counted; and the pushes that
found the pipeline open, but for those not yet decided. -/
structure Books (cfg : Config) (s : State V Tid) (γ : Tid → Place V) : Prop where
  one : OneConsumer s γ
  holdings : Holdings cfg s γ
  bound : ∀ t i, (γ t).receives i → i < cfg.producers
  consumed : (∃ t, (γ t).writing) ∧ s.consumed + total cfg (·.ch.length) s = s.sent.length ∨
    (∀ t, ¬(γ t).writing) ∧
      s.consumed + s.batch.length + total cfg (·.ch.length) s = s.sent.length
  pushed : ∃ n, Counts (fun t => (γ t).sent) n ∧ total cfg (·.pushed) s + n = s.sent.length
  opened : ∃ n, Counts (fun t => (γ t).undecided) n ∧
    total cfg (·.pushed) s + total cfg (·.dropped) s + n = s.opened

/-! ## The threads on their way -/

section places
variable {P : Place V → Prop} {n : Nat}

theorem counts_same (h : Counts (fun u => P (γ u)) n) (hP : P g' ↔ P (γ t)) :
    Counts (fun u => P (upd γ t g' u)) n := by
  refine h.congr fun u => ?_
  by_cases hu : u = t
  · subst hu
    rwa [upd_self]
  · rw [upd_ne _ _ hu]

theorem counts_join (h : Counts (fun u => P (γ u)) n) (ht : ¬P (γ t)) (hP : P g') :
    Counts (fun u => P (upd γ t g' u)) (n + 1) := by
  refine h.join ht fun u => ?_
  by_cases hu : u = t
  · subst hu
    simp [hP]
  · simp [hu]

theorem counts_leave (h : Counts (fun u => P (γ u)) n) (ht : P (γ t)) (hP : ¬P g') :
    ∃ m, n = m + 1 ∧ Counts (fun u => P (upd γ t g' u)) m := by
  refine h.leave ht fun u => ?_
  by_cases hu : u = t
  · subst hu
    simp [hP]
  · simp [hu]

end places

/-- Nothing of it is on its way. -/
structure Place.Quiet (g : Place V) : Prop where
  sent : ¬g.sent
  undecided : ¬g.undecided
  writing : ¬g.writing

theorem passAt_quiet (fin : Bool) (i n : Nat) : (passAt cfg fin i n : Place V).Quiet := by
  unfold passAt
  split <;> exact ⟨id, id, id⟩

theorem passEnd_quiet (fin : Bool) (n : Nat) : (passEnd cfg fin n : Place V).Quiet := by
  unfold passEnd
  split
  · exact passAt_quiet fin 0 0
  · cases fin <;> exact ⟨id, id, id⟩

/-- As much of `g'` is on its way as of `g`. -/
structure Place.Like (g g' : Place V) : Prop where
  sent : g'.sent ↔ g.sent
  undecided : g'.undecided ↔ g.undecided
  writing : g'.writing ↔ g.writing

theorem Place.Quiet.like (h : g.Quiet) (h' : g'.Quiet) : g.Like g' :=
  ⟨iff_of_false h'.sent h.sent, iff_of_false h'.undecided h.undecided,
    iff_of_false h'.writing h.writing⟩

/-- An operation that changes no count leaves its thread as far on its way. -/
theorem Move.like {a : Act V} {r : Resp a} (hm : Move cfg g a r g') (ha : tallies a = false) :
    g.Like g' := by
  cases hm with
  | free | ready | count => exact ⟨Iff.rfl, Iff.rfl, Iff.rfl⟩
  | _ =>
    first
    | exact absurd ha.symm Bool.false_ne_true
    | exact ⟨Iff.rfl, Iff.rfl, Iff.rfl⟩
    | ((try split) <;>
        first
        | exact ⟨Iff.rfl, Iff.rfl, Iff.rfl⟩
        | exact Place.Quiet.like ⟨id, id, id⟩ (passAt_quiet _ _ _)
        | exact Place.Quiet.like ⟨id, id, id⟩ (passEnd_quiet _ _))

theorem passAt_receives (fin : Bool) (i n j : Nat) :
    ¬(passAt cfg fin i n : Place V).receives j := by
  unfold passAt
  split <;> exact id

theorem passEnd_receives (fin : Bool) (n j : Nat) :
    ¬(passEnd cfg fin n : Place V).receives j := by
  unfold passEnd
  split
  · exact passAt_receives fin 0 0 j
  · cases fin <;> exact id

theorem Move.receives {a : Act V} {r : Resp a} (hm : Move cfg g a r g')
    (h : ∀ i, g.receives i → i < cfg.producers) {i : Nat} (hi : g'.receives i) :
    i < cfg.producers := by
  cases hm with
  | free | ready | count => exact h i hi
  | inUseLoad fin j n used hj =>
    cases used with
    | true =>
      obtain rfl : j = i := hi
      exact hj
    | false =>
      obtain rfl : j = i := hi
      exact hj
  | drainLen fin j n m =>
    split at hi
    · exact absurd hi (passAt_receives _ _ _ _)
    · exact h i hi
  | top fin j got n m =>
    split at hi
    · exact h i hi
    · exact hi.elim
  | recv fin j got n e =>
    cases e with
    | true => exact h i hi
    | false => exact hi.elim
  | _ =>
    first
    | exact hi.elim
    | exact absurd hi (passAt_receives _ _ _ _)
    | exact absurd hi (passEnd_receives _ _ _)
    | (split at hi <;>
        first
        | exact hi.elim
        | exact absurd hi (passAt_receives _ _ _ _)
        | exact absurd hi (passEnd_receives _ _ _))

/-- Whether anybody is between the two steps of a flush. -/
theorem writing_upd (h : g'.writing ↔ (γ t).writing) (u : Tid) :
    (upd γ t g' u).writing ↔ (γ u).writing := by
  by_cases hu : u = t
  · subst hu
    rwa [upd_self]
  · rw [upd_ne _ _ hu]

/-- The books when only counts of slots have changed. -/
theorem Books.consumed_eq (h : Books cfg s γ) (hw : g'.writing ↔ (γ t).writing)
    (hb : s'.batch.length = s.batch.length) (hn : s'.consumed = s.consumed)
    (hs : s'.sent.length + total cfg (·.ch.length) s =
      s.sent.length + total cfg (·.ch.length) s') :
    (∃ u, (upd γ t g' u).writing) ∧
        s'.consumed + total cfg (·.ch.length) s' = s'.sent.length ∨
      (∀ u, ¬(upd γ t g' u).writing) ∧
        s'.consumed + s'.batch.length + total cfg (·.ch.length) s' = s'.sent.length := by
  obtain ⟨⟨u, hu⟩, he⟩ | ⟨hno, he⟩ := h.consumed
  · refine .inl ⟨⟨u, (writing_upd hw u).mpr hu⟩, ?_⟩
    omega
  · refine .inr ⟨fun u hu => hno u ((writing_upd hw u).mp hu), ?_⟩
    omega

/-- What every operation leaves: one consumer, where the events are, and a
consumer at a slot that is there. -/
theorem books_rest (h : Books cfg s γ) {a : Act V} {n : Nat} {r : Resp a}
    (hs : sem cfg t a n s = some (s', r)) (hm : Move cfg (γ t) a r g') :
    OneConsumer s' (upd γ t g') ∧ Holdings cfg s' (upd γ t g') ∧
      ∀ u i, (upd γ t g' u).receives i → i < cfg.producers := by
  refine ⟨one_step h.one hs hm, holdings_step h.holdings hs hm, fun u i hu => ?_⟩
  by_cases hut : u = t
  · subst hut
    rw [upd_self] at hu
    exact hm.receives (h.bound u) hu
  · rw [upd_ne _ _ hut] at hu
    exact h.bound u i hu

/-- A step that changes no count. -/
theorem books_same (h : Books cfg s γ)
    (hr : OneConsumer s' (upd γ t g') ∧ Holdings cfg s' (upd γ t g') ∧
      ∀ u i, (upd γ t g' u).receives i → i < cfg.producers)
    (hc : SameCounts s s') (hg : (γ t).Like g') : Books cfg s' (upd γ t g') := by
  obtain ⟨hone, hhold, hbound⟩ := hr
  have hch : total cfg (·.ch.length) s' = total cfg (·.ch.length) s :=
    total_congr fun i => congrArg List.length (hc.slot i).1
  have hp : total cfg (·.pushed) s' = total cfg (·.pushed) s :=
    total_congr fun i => (hc.slot i).2.1
  have hd : total cfg (·.dropped) s' = total cfg (·.dropped) s :=
    total_congr fun i => (hc.slot i).2.2
  obtain ⟨n, hn, hsent⟩ := h.pushed
  obtain ⟨m, hm, hopen⟩ := h.opened
  refine ⟨hone, hhold, hbound, ?_, ⟨n, counts_same hn hg.sent, ?_⟩,
    ⟨m, counts_same hm hg.undecided, ?_⟩⟩
  · refine h.consumed_eq hg.writing ?_ hc.consumed ?_
    · rw [hc.batch]
    · rw [hc.sent, hch]
  · rw [hp, hc.sent]
    exact hsent
  · rw [hp, hd, hc.opened]
    exact hopen

/-! ## The operations that count -/

/-- A push has found the pipeline open or closed. -/
theorem books_closedLoad (h : Books cfg s γ) {k n : Nat} {v : V} {closed : Bool}
    (hg : γ t = .pushing k v) (hs : sem cfg t .closedLoad n s = some (s', closed)) :
    Books cfg s' (upd γ t (if closed then .answered v false else .opened k v)) := by
  obtain ⟨hone, hhold, hbound⟩ := books_rest h hs (by rw [hg]; exact .closedLoad k v closed)
  have hsum : ∀ f : ChanSlot V Tid → Nat, total cfg f s' = total cfg f s := by
    cases hs
    exact fun f => rfl
  have hopened : s'.opened = s.opened + if closed then 0 else 1 := by
    cases hs
    rfl
  obtain ⟨hsent, hbatch, hcons⟩ : s'.sent = s.sent ∧ s'.batch = s.batch ∧
      s'.consumed = s.consumed := by
    cases hs
    exact ⟨rfl, rfl, rfl⟩
  obtain ⟨p, hp, hps⟩ := h.pushed
  obtain ⟨m, hm, hms⟩ := h.opened
  rw [← hsum, ← hsent] at hps
  refine ⟨hone, hhold, hbound, h.consumed_eq ?_ (by rw [hbatch]) hcons (by rw [hsent, hsum]),
    ⟨p, counts_same hp ?_, hps⟩, ?_⟩
  · rw [hg]
    cases closed <;> exact Iff.rfl
  · rw [hg]
    cases closed <;> exact Iff.rfl
  · rw [hopened, hsum, hsum]
    cases closed with
    | true => exact ⟨m, counts_same hm (by rw [hg]; exact Iff.rfl), hms⟩
    | false =>
      refine ⟨m + 1, counts_join hm (by rw [hg]; exact id) trivial, ?_⟩
      simp only [Bool.false_eq_true, if_false]
      omega

/-- What an operation on slot `i` leaves there, and elsewhere as it was. -/
structure SlotTo (s s' : State V Tid) (i : Nat) (c : ChanSlot V Tid) : Prop where
  slot : s'.slot = upd s.slot i c
  batch : s'.batch = s.batch
  consumed : s'.consumed = s.consumed
  opened : s'.opened = s.opened

omit [DecidableEq Tid] in
theorem SlotTo.totals {i : Nat} {c : ChanSlot V Tid} (h : SlotTo s s' i c)
    (hi : i < cfg.producers) :
    total cfg (·.ch.length) s' + (s.slot i).ch.length = total cfg (·.ch.length) s + c.ch.length ∧
    total cfg (·.pushed) s' + (s.slot i).pushed = total cfg (·.pushed) s + c.pushed ∧
    total cfg (·.dropped) s' + (s.slot i).dropped = total cfg (·.dropped) s + c.dropped :=
  ⟨total_upd (·.ch.length) h.slot hi, total_upd (·.pushed) h.slot hi,
    total_upd (·.dropped) h.slot hi⟩

/-- A push has sent, or found the channel full. -/
theorem books_send (h : Books cfg s γ) {i n : Nat} {v : V} {sent : Bool}
    (hg : γ t = .offers i v) (hs : sem cfg t (.send i v) n s = some (s', sent)) :
    Books cfg s' (upd γ t (.counting i v sent)) := by
  obtain ⟨hone, hhold, hbound⟩ := books_rest h hs (by rw [hg]; exact .send i v sent)
  have hi : i < cfg.producers := by
    have := h.holdings.facts t
    rwa [hg] at this
  obtain ⟨p, hp, hps⟩ := h.pushed
  obtain ⟨m, hm, hms⟩ := h.opened
  have hopen : Counts (fun u => (upd γ t (.counting i v sent) u).undecided) m :=
    counts_same hm (by rw [hg]; exact Iff.rfl)
  have hwrite : (Place.counting i v sent : Place V).writing ↔ (γ t).writing := by
    rw [hg]
    exact Iff.rfl
  rcases send_cases hs with ⟨-, he, rfl⟩ | ⟨rfl, rfl⟩
  · obtain ⟨c, hto, hch, hpu, hdr, hsent⟩ : ∃ c, SlotTo s s' i c ∧
        c.ch.length = (s.slot i).ch.length + 1 ∧ c.pushed = (s.slot i).pushed ∧
        c.dropped = (s.slot i).dropped ∧ s'.sent.length = s.sent.length + 1 := by
      subst he
      exact ⟨_, ⟨rfl, rfl, rfl, rfl⟩, by simp, rfl, rfl, by simp [State.send]⟩
    obtain ⟨h1, h2, h3⟩ := hto.totals hi
    refine ⟨hone, hhold, hbound, h.consumed_eq hwrite (by rw [hto.batch]) hto.consumed (by omega),
      ⟨p + 1, counts_join hp (by rw [hg]; exact id) trivial, by omega⟩, ⟨m, hopen, ?_⟩⟩
    rw [hto.opened]
    omega
  · refine ⟨hone, hhold, hbound, h.consumed_eq hwrite rfl rfl rfl,
      ⟨p, counts_same hp (by rw [hg]; exact Iff.rfl), hps⟩, ⟨m, hopen, hms⟩⟩

/-- A push is counted as pushed. -/
theorem books_pushedAdd (h : Books cfg s γ) {i n : Nat} {v : V} {r : Unit}
    (hg : γ t = .counting i v true) (hs : sem cfg t (.pushedAdd i) n s = some (s', r)) :
    Books cfg s' (upd γ t (.answered v true)) := by
  obtain ⟨hone, hhold, hbound⟩ := books_rest h hs (by rw [hg]; exact .pushedAdd i v)
  have hi : i < cfg.producers := by
    have := h.holdings.facts t
    rw [hg] at this
    exact this.1
  obtain ⟨p, hp, hps⟩ := h.pushed
  obtain ⟨m, hm, hms⟩ := h.opened
  obtain ⟨p, rfl, hp'⟩ : ∃ q, p = q + 1 ∧ Counts (fun u => (upd γ t (.answered v true) u).sent) q :=
    counts_leave hp (by rw [hg]; trivial) id
  obtain ⟨m, rfl, hm'⟩ :
      ∃ q, m = q + 1 ∧ Counts (fun u => (upd γ t (.answered v true) u).undecided) q :=
    counts_leave hm (by rw [hg]; trivial) id
  obtain ⟨c, hto, hch, hpu, hdr, hsent⟩ : ∃ c, SlotTo s s' i c ∧
      c.ch.length = (s.slot i).ch.length ∧ c.pushed = (s.slot i).pushed + 1 ∧
      c.dropped = (s.slot i).dropped ∧ s'.sent = s.sent := by
    cases hs
    exact ⟨_, ⟨rfl, rfl, rfl, rfl⟩, rfl, rfl, rfl, rfl⟩
  obtain ⟨h1, h2, h3⟩ := hto.totals hi
  refine ⟨hone, hhold, hbound, h.consumed_eq ?_ (by rw [hto.batch]) hto.consumed ?_,
    ⟨p, hp', ?_⟩, ⟨m, hm', ?_⟩⟩
  · rw [hg]
    exact Iff.rfl
  · rw [hsent]
    omega
  · rw [hsent]
    omega
  · rw [hto.opened]
    omega

/-- A push is counted as dropped. -/
theorem books_droppedAdd (h : Books cfg s γ) {i n : Nat} {v : V} {r : Unit}
    (hg : γ t = .counting i v false) (hs : sem cfg t (.droppedAdd i) n s = some (s', r)) :
    Books cfg s' (upd γ t (.answered v false)) := by
  obtain ⟨hone, hhold, hbound⟩ := books_rest h hs (by rw [hg]; exact .droppedAdd i v)
  have hi : i < cfg.producers := by
    have := h.holdings.facts t
    rwa [hg] at this
  obtain ⟨p, hp, hps⟩ := h.pushed
  obtain ⟨m, hm, hms⟩ := h.opened
  obtain ⟨m, rfl, hm'⟩ :
      ∃ q, m = q + 1 ∧ Counts (fun u => (upd γ t (.answered v false) u).undecided) q :=
    counts_leave hm (by rw [hg]; trivial) id
  obtain ⟨c, hto, hch, hpu, hdr, hsent⟩ : ∃ c, SlotTo s s' i c ∧
      c.ch.length = (s.slot i).ch.length ∧ c.pushed = (s.slot i).pushed ∧
      c.dropped = (s.slot i).dropped + 1 ∧ s'.sent = s.sent := by
    cases hs
    exact ⟨_, ⟨rfl, rfl, rfl, rfl⟩, rfl, rfl, rfl, rfl⟩
  obtain ⟨h1, h2, h3⟩ := hto.totals hi
  refine ⟨hone, hhold, hbound, h.consumed_eq ?_ (by rw [hto.batch]) hto.consumed ?_,
    ⟨p, counts_same hp (by rw [hg]; exact Iff.rfl), ?_⟩, ⟨m, hm', ?_⟩⟩
  · rw [hg]
    exact Iff.rfl
  · rw [hsent]
    omega
  · rw [hsent]
    omega
  · rw [hto.opened]
    omega

omit [DecidableEq Tid] in
/-- While one thread is at a place of the consumer's that does not write, nobody
writes. -/
theorem Books.nobody (h : Books cfg s γ) (hc : (γ t).consumer) (hw : ¬(γ t).writing) (u : Tid) :
    ¬(γ u).writing := by
  intro hu
  have hcu : (γ u).consumer := by
    generalize γ u = g at hu
    cases g <;> trivial
  obtain rfl := h.one.uniq u t hcu hc
  exact hw hu

/-- The consumer receives, or finds the channel empty. -/
theorem books_recv (h : Books cfg s γ) {fin : Bool} {i got m n : Nat} {e : Bool}
    (hg : γ t = .take fin i got m) (hs : sem cfg t (.recv i) n s = some (s', e)) :
    Books cfg s' (upd γ t (if e then .top fin i (got + 1) m else .full fin i (m + got))) := by
  have hm : Move cfg (γ t) (.recv i) e
      (if e then .top fin i (got + 1) m else .full fin i (m + got)) := by
    rw [hg]
    exact .recv fin i got m e
  obtain ⟨hone, hhold, hbound⟩ := books_rest h hs hm
  have hi : i < cfg.producers := h.bound t i (by rw [hg]; rfl)
  rcases recv_cases hs with ⟨-, rfl, rfl⟩ | ⟨x, rest, hx, rfl, he⟩
  · exact books_same h (books_rest h hs hm) ⟨fun _ => ⟨rfl, rfl, rfl⟩, rfl, rfl, rfl, rfl⟩
      (by rw [hg]; exact ⟨Iff.rfl, Iff.rfl, Iff.rfl⟩)
  · obtain ⟨p, hp, hps⟩ := h.pushed
    obtain ⟨k, hk, hks⟩ := h.opened
    have hno := h.nobody (t := t) (by rw [hg]; trivial) (by rw [hg]; exact id)
    have hcons := (h.consumed.resolve_left fun ⟨⟨u, hu⟩, _⟩ => hno u hu).2
    obtain ⟨c, hslot, hch, hpu, hdr, hb, hn, ho, hsent⟩ : ∃ c, s'.slot = upd s.slot i c ∧
        c.ch.length + 1 = (s.slot i).ch.length ∧ c.pushed = (s.slot i).pushed ∧
        c.dropped = (s.slot i).dropped ∧ s'.batch.length = s.batch.length + 1 ∧
        s'.consumed = s.consumed ∧ s'.opened = s.opened ∧ s'.sent = s.sent := by
      subst he
      exact ⟨_, rfl, by simp [hx], rfl, rfl, by simp, rfl, rfl, rfl⟩
    have h1 := total_upd (·.ch.length) hslot hi
    have h2 := total_upd (·.pushed) hslot hi
    have h3 := total_upd (·.dropped) hslot hi
    refine ⟨hone, hhold, hbound, .inr ⟨fun u hu => ?_, ?_⟩,
      ⟨p, counts_same hp (by rw [hg]; exact Iff.rfl), ?_⟩,
      ⟨k, counts_same hk (by rw [hg]; exact Iff.rfl), ?_⟩⟩
    · exact hno u ((writing_upd (by rw [hg]; exact Iff.rfl) u).mp hu)
    · rw [hn, hb, hsent]
      omega
    · rw [hsent]
      omega
    · rw [ho]
      omega

/-- The consumer counts its batch. -/
theorem books_consumedAdd (h : Books cfg s γ) {n : Nat} {r : Unit}
    (hg : (γ t).consumer ∧ (γ t).Quiet) (hg' : g'.writing ∧ ¬g'.sent ∧ ¬g'.undecided)
    (hs : sem cfg t .consumedAdd n s = some (s', r)) (hm : Move cfg (γ t) (.consumedAdd : Act V) r g') :
    Books cfg s' (upd γ t g') := by
  obtain ⟨hone, hhold, hbound⟩ := books_rest h hs hm
  obtain ⟨p, hp, hps⟩ := h.pushed
  obtain ⟨k, hk, hks⟩ := h.opened
  have hno := h.nobody hg.1 hg.2.writing
  have hcons := (h.consumed.resolve_left fun ⟨⟨u, hu⟩, _⟩ => hno u hu).2
  cases hs
  refine ⟨hone, hhold, hbound, .inl ⟨⟨t, by rw [upd_self]; exact hg'.1⟩, hcons⟩,
    ⟨p, counts_same hp (iff_of_false hg'.2.1 hg.2.sent), hps⟩,
    ⟨k, counts_same hk (iff_of_false hg'.2.2 hg.2.undecided), hks⟩⟩

/-- The batch goes to the sink. -/
theorem books_sinkWrite (h : Books cfg s γ) {n : Nat} {r : Unit}
    (hg : (γ t).writing ∧ ¬(γ t).sent ∧ ¬(γ t).undecided) (hg' : g'.Quiet)
    (hs : sem cfg t .sinkWrite n s = some (s', r)) (hm : Move cfg (γ t) (.sinkWrite : Act V) r g') :
    Books cfg s' (upd γ t g') := by
  obtain ⟨hone, hhold, hbound⟩ := books_rest h hs hm
  obtain ⟨p, hp, hps⟩ := h.pushed
  obtain ⟨k, hk, hks⟩ := h.opened
  have hcons := (h.consumed.resolve_right fun ⟨hno, _⟩ => hno t hg.1).2
  cases hs
  refine ⟨hone, hhold, hbound, .inr ⟨fun u hu => ?_, hcons⟩,
    ⟨p, counts_same hp (iff_of_false hg'.sent hg.2.1), hps⟩,
    ⟨k, counts_same hk (iff_of_false hg'.undecided hg.2.2), hks⟩⟩
  by_cases hut : u = t
  · subst hut
    rw [upd_self] at hu
    exact hg'.writing hu
  · rw [upd_ne _ _ hut] at hu
    have hcu : ∀ {w}, (γ w).writing → (γ w).consumer := by
      intro w hw
      generalize γ w = g at hw
      cases g <;> trivial
    exact hut (h.one.uniq u t (hcu hu) (hcu hg.1))

/-! ## Every step -/

theorem books_step (h : Books cfg s γ) {a : Act V} {n : Nat} {r : Resp a}
    (hok : unspent t a s) (hs : sem cfg t a n s = some (s', r)) (hm : Move cfg (γ t) a r g') :
    Books cfg s' (upd γ t g') := by
  cases ha : tallies a with
  | false => exact books_same h (books_rest h hs hm) (sameCounts ha hs) (hm.like ha)
  | true =>
    have hm' := hm
    generalize hg : γ t = g at hm
    cases hm with
    | closedLoad k v closed => exact books_closedLoad h hg hs
    | send i v sent => exact books_send h hg hs
    | pushedAdd i => exact books_pushedAdd h hg hs
    | droppedAdd i => exact books_droppedAdd h hg hs
    | recv fin i got m e => exact books_recv h hg hs
    | adds fin i m =>
      exact books_consumedAdd h (by rw [hg]; exact ⟨trivial, id, id, id⟩) ⟨trivial, id, id⟩ hs hm'
    | addsLast fin m =>
      exact books_consumedAdd h (by rw [hg]; exact ⟨trivial, id, id, id⟩) ⟨trivial, id, id⟩ hs hm'
    | write fin i m =>
      exact books_sinkWrite h (by rw [hg]; exact ⟨trivial, id, id⟩) (passAt_quiet _ _ _) hs hm'
    | writeLast fin m =>
      exact books_sinkWrite h (by rw [hg]; exact ⟨trivial, id, id⟩) (passEnd_quiet _ _) hs hm'
    | @ready i a r hr =>
      have hlike : (γ t).Like (.got i) := by
        rw [hg]
        exact ⟨Iff.rfl, Iff.rfl, Iff.rfl⟩
      refine books_same h (books_rest h hs hm') ?_ hlike
      cases a with
      | pushedStore j =>
        cases hs
        exact .of_slot rfl rfl (Eq.symm hok) rfl rfl rfl rfl rfl
      | droppedStore j =>
        cases hs
        exact .of_slot rfl rfl rfl (Eq.symm hok) rfl rfl rfl rfl
      | nextStore | highStore => cases ha
      | _ => cases hr
    | free hf => rw [tallies_of_free hf] at ha; cases ha
    | count hc => rw [tallies_of_counts hc] at ha; cases ha
    | _ => cases ha

theorem books_begin (h : Books cfg s γ) {c : Call V} (hi : γ t = .idle)
    (he : enabled s c = true) : Books cfg (begin t c s) (upd γ t (startPlace cfg c)) := by
  have hq : (startPlace cfg c : Place V).Quiet ∧ ∀ i, ¬(startPlace cfg c : Place V).receives i := by
    cases c with
    | consume => exact ⟨passAt_quiet _ _ _, passAt_receives _ _ _⟩
    | _ => exact ⟨⟨id, id, id⟩, fun _ => id⟩
  refine books_same h ⟨one_begin h.one he, holdings_begin h.holdings he, fun u i hu => ?_⟩ ?_ ?_
  · by_cases hut : u = t
    · subst hut
      rw [upd_self] at hu
      exact absurd hu (hq.2 i)
    · rw [upd_ne _ _ hut] at hu
      exact h.bound u i hu
  · cases c <;> exact ⟨fun _ => ⟨rfl, rfl, rfl⟩, rfl, rfl, rfl, rfl⟩
  · rw [hi]
    exact Place.Quiet.like ⟨id, id, id⟩ hq.1

/-- No call ends with something on its way. -/
theorem endPlace_quiet {c : Call V} {r : Result} (h : endPlace c r g) : g.Quiet := by
  cases c with
  | push k v =>
    obtain ⟨b, -, rfl⟩ := h
    exact ⟨id, id, id⟩
  | _ =>
    rw [h.1]
    exact ⟨id, id, id⟩

theorem books_finish (h : Books cfg s γ) {c : Call V} {r : Result} (he : endPlace c r (γ t)) :
    Books cfg { s with results := upd s.results (s.me t) (some r) } (upd γ t .idle) := by
  refine books_same h ⟨h.one.keep (fun hc => hc.elim) rfl id rfl, holdings_finish h.holdings he,
    fun u i hu => ?_⟩ ⟨fun _ => ⟨rfl, rfl, rfl⟩, rfl, rfl, rfl, rfl⟩ ?_
  · by_cases hut : u = t
    · subst hut
      rw [upd_self] at hu
      exact hu.elim
    · rw [upd_ne _ _ hut] at hu
      exact h.bound u i hu
  · exact (endPlace_quiet he).like ⟨id, id, id⟩

theorem books_keeps : (flow V Tid cfg).Keeps unspent (Books cfg) where
  init := by
    have hzero : ∀ f : ChanSlot V Tid → Nat, f .init = 0 → total cfg f .init = 0 := by
      intro f hf
      unfold total
      simp [State.init, hf]
    refine ⟨⟨fun _ _ h => h.elim, fun h => (by cases h), fun h => ?_, fun h => (by cases h)⟩,
      ⟨fun _ h => (by cases h), fun _ h => (by cases h), fun _ h => (by cases h), fun _ => trivial⟩,
      fun _ _ h => h.elim, .inr ⟨fun _ => id, ?_⟩, ⟨0, .zero fun _ => id, ?_⟩,
      ⟨0, .zero fun _ => id, ?_⟩⟩
    · rcases h with h | ⟨_, h⟩
      · cases h
      · exact h.elim
    · rw [hzero _ rfl]
      rfl
    · rw [hzero _ rfl]
      rfl
    · rw [hzero _ rfl, hzero _ rfl]
      rfl
  begin := fun _ h _ _ hi he => books_begin h hi he
  move := fun _ h _ _ _ _ _ _ hok hs hm => books_step h hok hs hm
  finish := fun _ h _ _ _ he => books_finish h he

/-! ## The books balance -/

/-- Past the look at the closed flag of a push. -/
def Place.pushes : Place V → Prop
  | .opened _ _ | .offers _ _ | .counting _ _ _ | .answered _ _ => True
  | _ => False

theorem Move.pushes {a : Act V} {r : Resp a} (hm : Move cfg g a r g') (hg : g.pushes) :
    g'.pushes := by
  cases hm <;> trivial

theorem not_pushes_of_pre {p : Proc} (h : procPre cfg p g) : ¬g.pushes := by
  have hpass : ∀ fin, ¬(passAt cfg fin 0 0 : Place V).pushes := by
    intro fin
    unfold passAt
    split <;> exact id
  cases p with
  | releaseLoop i =>
    rw [show g = .releasing i from h]
    exact id
  | consumeLoop =>
    rw [show g = passAt cfg false 0 0 from h]
    exact hpass false
  | finalLoop =>
    rw [show g = passAt cfg true 0 0 from h]
    exact hpass true
  | recvLoop i got =>
    obtain ⟨-, fin, n, rfl⟩ := h
    exact id

/-- Only a push is past its look. -/
theorem push_of_pushes {c : Call V} {p : M V Result}
    (h : (flow V Tid cfg).wp t p (fun r g => endPlace c r g) g) (hg : g.pushes) :
    ∃ k v, c = .push k v := by
  induction p generalizing g with
  | ret r =>
    cases c with
    | push k v => exact ⟨k, v, rfl⟩
    | _ =>
      have he := And.left h
      subst he
      exact hg.elim
  | act a k ih =>
    have hr : Nonempty (Resp a) := by
      cases a <;> exact ⟨default⟩
    obtain ⟨r⟩ := hr
    obtain ⟨g', hm, h'⟩ := h r
    exact ih r h' (hm.pushes hg)
  | call q k ih => exact absurd hg (not_pushes_of_pre h.1)

theorem pushes_of_undecided (h : g.undecided) : g.pushes := by
  cases g <;> trivial

theorem undecided_of_sent (h : g.sent) : g.undecided := by
  cases g <;> trivial

/-- No push is in progress, and nothing waits in a channel or the batch. -/
structure Settled (cfg : Config) (x : System.Config (pipeline V Tid cfg)) : Prop where
  pushes : ∀ t k v p, x.thread t ≠ .run (.push k v) p
  channels : ∀ i, i < cfg.producers → (x.state.slot i).ch = []
  batch : x.state.batch = []

/-- **The books balance.** In every run in which each claim of a slot finds the
slot's counters at zero: when no push is in progress and no event is on its
way, as many events were consumed as were pushed, and each push that found the
pipeline open was counted as pushed or dropped. -/
theorem books_balance {x : System.Config (pipeline V Tid cfg)}
    (hx : System.ReachableIf unspent x) (hs : Settled cfg x) :
    (stats cfg x.state).Consumed = (stats cfg x.state).Pushed ∧
      (stats cfg x.state).Pushed + (stats cfg x.state).Dropped = x.state.opened := by
  obtain ⟨γ, hr, hst⟩ := follows.stands hx
  have hI := books_keeps.reach hr
  have hno : ∀ t, ¬(γ t).undecided := by
    intro t hu
    have ht := hst t
    cases hth : x.thread t with
    | idle =>
      rw [hth] at ht
      rw [show γ t = .idle from ht] at hu
      exact hu
    | run c p =>
      rw [hth] at ht
      obtain ⟨k, v, rfl⟩ := push_of_pushes ht (pushes_of_undecided hu)
      exact hs.pushes t k v p hth
  obtain ⟨p, hp, hps⟩ := hI.pushed
  obtain ⟨m, hm, hms⟩ := hI.opened
  have hp0 : p = 0 := hp.eq_zero fun t ht => hno t (undecided_of_sent ht)
  have hm0 : m = 0 := hm.eq_zero hno
  have hch : total cfg (·.ch.length) x.state = 0 := by
    have hz : (List.range cfg.producers).map (fun i => (x.state.slot i).ch.length) =
        (List.range cfg.producers).map fun _ => 0 :=
      List.map_congr_left fun i hi => by rw [hs.channels i (List.mem_range.mp hi), List.length_nil]
    unfold total
    rw [hz, List.map_const', List.sum_replicate_nat, Nat.mul_zero]
  have hb : x.state.batch.length = 0 := by rw [hs.batch, List.length_nil]
  have hc : x.state.consumed = x.state.sent.length := by
    rcases hI.consumed with ⟨-, h⟩ | ⟨-, h⟩ <;> omega
  rw [stats_pushed, stats_dropped]
  refine ⟨?_, by omega⟩
  show x.state.consumed = _
  omega

end

/-! Runs of a pipeline with one slot. -/

/-- The test that a step meets `unspent`. -/
def claimsUnspent (x : System.Config oneSlot) : System.Label oneSlot → Bool
  | .invoke _ _ => true
  | .step t _ =>
    match x.thread t with
    | .run _ (.act (.pushedStore i) _) => (x.state.slot i).pushed == 0
    | .run _ (.act (.droppedStore i) _) => (x.state.slot i).dropped == 0
    | _ => true

theorem claimsUnspent_meets (x : System.Config oneSlot) (l : System.Label oneSlot)
    (h : claimsUnspent x l = true) : System.Meets unspent x l := by
  cases l with
  | invoke => trivial
  | step t n =>
    rintro a ⟨c, k, hth⟩
    simp only [claimsUnspent, hth] at h
    cases a <;> first | trivial | exact beq_iff_eq.mp h

/-- The test of `Settled`. -/
def settles (x : System.Config oneSlot) : Bool :=
  (List.finRange 4).all (fun t =>
    match x.thread t with
    | .run (.push _ _) _ => false
    | _ => true) &&
  (x.state.slot 0).ch.isEmpty && x.state.batch.isEmpty

theorem settled_of_settles {x : System.Config oneSlot} (h : settles x = true) :
    Settled ⟨1, 2, 4⟩ x := by
  simp only [settles, Bool.and_eq_true, List.isEmpty_iff] at h
  obtain ⟨⟨hpush, hch⟩, hb⟩ := h
  refine ⟨fun t k v p hth => ?_, fun i hi => ?_, hb⟩
  · have := List.all_eq_true.mp hpush t (List.mem_finRange t)
    rw [hth] at this
    cases this
  · obtain rfl : i = 0 := Nat.lt_one_iff.mp hi
    exact hch

/-- A producer closes without a push, and the next one to have its slot pushes
three events to a channel of two, which the consumer takes. -/
def pushedAfterReuse : List (System.Label oneSlot) :=
  .invoke (0 : Fin 4) .start :: ops 0 4 ++ .invoke (1 : Fin 4) .producer :: ops 1 10 ++
  .invoke (0 : Fin 4) (.closeProducer 0) :: ops 0 4 ++ .invoke (1 : Fin 4) (.release 0) :: ops 1 5 ++
  .invoke (3 : Fin 4) .producer :: ops 3 10 ++ .invoke (3 : Fin 4) (.push 0 7) :: ops 3 8 ++
  .invoke (1 : Fin 4) (.push 0 8) :: ops 1 8 ++ .invoke (3 : Fin 4) (.push 0 9) :: ops 3 5 ++
  .invoke (2 : Fin 4) .consume :: ops 2 22

theorem books_balance_reuse : ∃ x : System.Config oneSlot, System.ReachableIf unspent x ∧
    Settled ⟨1, 2, 4⟩ x ∧ (stats ⟨1, 2, 4⟩ x.state).Consumed = 2 ∧ x.state.opened = 3 ∧
    (stats ⟨1, 2, 4⟩ x.state).Pushed = 2 ∧ (stats ⟨1, 2, 4⟩ x.state).Dropped = 1 := by
  obtain ⟨x, hx, hp⟩ := System.reachableIf_of_test claimsUnspent_meets pushedAfterReuse
    (fun x => settles x && decide ((stats ⟨1, 2, 4⟩ x.state).Consumed = 2 ∧ x.state.opened = 3))
    (by decide +kernel)
  simp only [Bool.and_eq_true, decide_eq_true_eq] at hp
  obtain ⟨hs, hc, ho⟩ := hp
  have hs := settled_of_settles hs
  obtain ⟨hpushed, hall⟩ := books_balance hx hs
  exact ⟨x, hx, hs, hc, ho, by omega, by omega⟩

/-- The consumer is started, and an event pushed and consumed. -/
def pushedOne : List (System.Label oneSlot) :=
  .invoke (0 : Fin 4) .start :: ops 0 4 ++ .invoke (1 : Fin 4) .producer :: ops 1 10 ++
  .invoke (1 : Fin 4) (.push 0 7) :: ops 1 8 ++ .invoke (2 : Fin 4) .consume :: ops 2 19

/-- The producer is closed, and its slot claimed again. -/
def pushedAndReclaimed : List (System.Label oneSlot) :=
  pushedOne ++ .invoke (0 : Fin 4) (.closeProducer 0) :: ops 0 4 ++
  .invoke (1 : Fin 4) (.release 0) :: ops 1 5 ++ .invoke (3 : Fin 4) .producer :: ops 3 10

/-- An event was consumed, and the claim of its slot has thrown away that it
was pushed. -/
theorem books_lost : ∃ x : System.Config oneSlot, oneSlot.Reachable x ∧ Settled ⟨1, 2, 4⟩ x ∧
    (stats ⟨1, 2, 4⟩ x.state).Consumed = 1 ∧ (stats ⟨1, 2, 4⟩ x.state).Pushed = 0 ∧
    (stats ⟨1, 2, 4⟩ x.state).Dropped = 0 ∧ x.state.opened = 1 := by
  obtain ⟨x, hx, hp⟩ := System.reachable_of_test pushedAndReclaimed
    (fun x => settles x && decide ((stats ⟨1, 2, 4⟩ x.state).Consumed = 1 ∧
      (stats ⟨1, 2, 4⟩ x.state).Pushed = 0 ∧ (stats ⟨1, 2, 4⟩ x.state).Dropped = 0 ∧
      x.state.opened = 1)) (by decide +kernel)
  simp only [Bool.and_eq_true, decide_eq_true_eq] at hp
  exact ⟨x, hx, settled_of_settles hp.1, hp.2⟩

end Katas.Weir.Channel
