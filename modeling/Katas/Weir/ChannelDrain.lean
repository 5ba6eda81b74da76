import Katas.Weir.ChannelFlow

/-!
# What the channel pipeline delivers

An event a `Push` has sent is in its slot's channel, in the consumer's batch
or in the sink. `Close` sets the flag that `Push` looks at; a cancelled
context does not, and either way a `Push` that has looked may send after the
final drain has seen its channel empty. Runs in which no send comes so late
lose nothing: when the consumer has exited every channel is empty, and until
then each event is as many operations of the consumer from the sink as
`Within` says.
-/
namespace Katas.Weir.Channel
open Katas.Conc

section
variable {V Tid : Type} [DecidableEq Tid] {cfg : Config}

/-- No send succeeds on a channel that the final drain has passed. -/
def inTime (cfg : Config) (_ : Tid) (a : Act V) (s : State V Tid) : Prop :=
  match a with
  | .send i _ => (s.slot i).ch.length < cfg.capacity → ¬ s.passed i
  | _ => True

/-- The consumer, from before it is started to its end. -/
def Place.consumer : Place V → Prop
  | .starting | .probe .. | .length .. | .top .. | .take .. | .full .. | .flush .. | .adds ..
  | .write .. | .flushLast .. | .addsLast .. | .writeLast .. | .select | .exit => True
  | _ => False

/-- In the final drain. -/
def Place.final : Place V → Bool
  | .probe fin _ _ | .length fin _ _ | .top fin _ _ _ | .take fin _ _ _ | .full fin _ _
  | .flush fin _ _ | .adds fin _ _ | .write fin _ _ | .flushLast fin _ | .addsLast fin _
  | .writeLast fin _ => fin
  | _ => false

/-- There is one consumer. -/
structure OneConsumer (s : State V Tid) (γ : Tid → Place V) : Prop where
  uniq : ∀ t u, (γ t).consumer → (γ u).consumer → t = u
  spawned : s.spawned = true → ∀ t, ¬ (γ t).consumer
  running : (s.spawned = true ∨ ∃ t, (γ t).consumer) → s.started = true ∧ s.done = false
  done : s.done = true → s.started = true

/-- The channels before `k` are empty, and the final drain has passed them. -/
def Clear (s : State V Tid) (k : Nat) : Prop := ∀ j, j < k → (s.slot j).ch = [] ∧ s.passed j

/-- What the consumer's place says of the batch and, in the final drain, of
the channels it has passed. -/
def At (cfg : Config) (s : State V Tid) : Place V → Prop
  | .probe fin i total => i < cfg.producers ∧ s.batch.length < cfg.batch ∧
      (fin = true → total = 0 → Clear s i)
  | .length fin i total => i < cfg.producers ∧ s.batch.length < cfg.batch ∧
      (fin = true → total = 0 → Clear s i ∧ s.last = some (i, false))
  | .top fin i got total => i < cfg.producers ∧ s.batch.length ≤ cfg.batch ∧
      (got = 0 → s.batch.length < cfg.batch) ∧
      (fin = true → total = 0 → got = 0 → Clear s i ∧ s.last = some (i, false))
  | .take fin i got total => i < cfg.producers ∧ s.batch.length < cfg.batch ∧
      (fin = true → total = 0 → got = 0 → Clear s i ∧ s.last = some (i, false))
  | .full fin i total => i < cfg.producers ∧ s.batch.length ≤ cfg.batch ∧
      (fin = true → total = 0 → Clear s (i + 1))
  | .flush fin i total | .adds fin i total | .write fin i total => i < cfg.producers ∧
      (fin = true → total = 0 → Clear s (i + 1))
  | .flushLast fin total | .addsLast fin total | .writeLast fin total =>
    fin = true → total = 0 → Clear s cfg.producers
  | .starting | .select => s.batch = []
  | .exit => s.batch = [] ∧ Clear s cfg.producers
  | _ => True

/-- What the other places say. -/
def Fact (cfg : Config) (s : State V Tid) (t : Tid) : Place V → Prop
  | .got i | .offers i _ | .counting i _ false => i < cfg.producers
  | .pushing h _ | .opened h _ => h < s.handles.length
  | .counting i v true => i < cfg.producers ∧ (s.me t, v) ∈ s.sent
  | .answered v true => (s.me t, v) ∈ s.sent
  | _ => True

/-- Where the sent events are, and which calls sent them. -/
structure Holdings (cfg : Config) (s : State V Tid) (γ : Tid → Place V) : Prop where
  sent : ∀ e, e ∈ s.sent →
    e ∈ s.sink ∨ e ∈ s.batch ∨ ∃ i, i < cfg.producers ∧ e ∈ (s.slot i).ch
  results : ∀ id, s.results id = some (.pushed true) → ∃ v, (id, v) ∈ s.sent
  handles : ∀ i, i ∈ s.handles → i < cfg.producers
  facts : ∀ t, Fact cfg s t (γ t)

structure DrainInv (cfg : Config) (s : State V Tid) (γ : Tid → Place V) : Prop where
  one : OneConsumer s γ
  at_ : ∀ t, At cfg s (γ t)
  final : ∀ t, (γ t).final = true → s.last ≠ none
  fresh : s.started = false ∨ s.spawned = true → s.batch = []
  done : s.done = true → s.batch = [] ∧ Clear s cfg.producers
  holdings : Holdings cfg s γ

variable {s s' : State V Tid} {γ : Tid → Place V} {t : Tid} {g g' : Place V}

/-! ## The consumer's operations and the others -/

/-- Done by the consumer. -/
def consumes : Act V → Bool
  | .inUseLoad _ | .chLen .drain _ | .recv _ | .batchLen | .consumedAdd | .sinkWrite
  | .ctxDone | .doneClose => true
  | _ => false

omit [DecidableEq Tid] in
theorem At.of_not (h : ¬ g.consumer) : At cfg s g := by
  cases g <;> first | trivial | exact absurd trivial h

theorem final_of_not (h : ¬ g.consumer) : g.final = false := by
  cases g <;> first | rfl | exact absurd trivial h

theorem passAt_consumer (fin : Bool) (i total : Nat) :
    (passAt cfg fin i total : Place V).consumer := by
  unfold passAt; split <;> trivial

theorem passEnd_consumer (fin : Bool) (total : Nat) : (passEnd cfg fin total : Place V).consumer := by
  unfold passEnd; split
  · exact passAt_consumer fin 0 0
  · cases fin <;> trivial

theorem passAt_final (fin : Bool) (i total : Nat) :
    (passAt cfg fin i total : Place V).final = fin := by
  unfold passAt; split <;> rfl

theorem passEnd_final (fin : Bool) (total : Nat) (h : (passEnd cfg fin total : Place V).final = true) :
    fin = true := by
  unfold passEnd at h
  split at h
  · rwa [passAt_final] at h
  · cases fin <;> first | rfl | cases h

theorem consumes_of_free {a : Act V} (h : Channel.free a = true) : consumes a = false := by
  cases a <;> first | rfl | cases h

theorem consumes_of_readies {a : Act V} (h : readies a = true) : consumes a = false := by
  cases a <;> first | rfl | cases h

theorem consumes_of_counts {a : Act V} (h : counts a = true) : consumes a = false := by
  cases a with
  | chLen site i => cases site <;> first | rfl | cases h
  | _ => first | rfl | cases h

/-- Where a consumer's operation leads. -/
theorem Move.of_consumes {a : Act V} {r : Resp a} (hm : Move cfg g a r g') (ha : consumes a = true) :
    g.consumer ∧ (g'.consumer ∨ a = .doneClose ∧ g' = .exited) := by
  cases hm with
  | free hf => rw [consumes_of_free hf] at ha; cases ha
  | ready hr => rw [consumes_of_readies hr] at ha; cases ha
  | count hc => rw [consumes_of_counts hc] at ha; cases ha
  | doneClose => exact ⟨trivial, .inr ⟨rfl, rfl⟩⟩
  | _ =>
    first
    | exact absurd ha Bool.false_ne_true
    | (try split) <;>
        first
        | exact ⟨trivial, .inl trivial⟩
        | exact ⟨trivial, .inl (passAt_consumer _ _ _)⟩
        | exact ⟨trivial, .inl (passEnd_consumer _ _)⟩

/-- The other operations bring nobody to the consumer's places, but for the
one that starts it. -/
theorem Move.of_not_consumes {a : Act V} {r : Resp a} (hm : Move cfg g a r g')
    (ha : consumes a = false) (hg : g'.consumer) :
    g' = .starting ∧ (g.consumer ∨ a = .startedCas) := by
  cases hm with
  | startedCas won =>
    cases won with
    | true => exact ⟨rfl, .inr rfl⟩
    | false => exact hg.elim
  | cancelSet => exact ⟨rfl, .inl trivial⟩
  | _ =>
    first
    | exact hg.elim
    | exact absurd ha.symm Bool.false_ne_true
    | (exfalso; revert hg; split <;> exact id)

/-! ## One consumer -/

/-- What a step may do to the consumer of another thread's business. -/
theorem OneConsumer.keep (h : OneConsumer s γ) (hg : g'.consumer → (γ t).consumer)
    (hsp : s'.spawned = s.spawned) (hst : s.started = true → s'.started = true)
    (hd : s'.done = s.done) : OneConsumer s' (upd γ t g') := by
  have hc : ∀ u, (upd γ t g' u).consumer → (γ u).consumer := by
    intro u hu
    by_cases he : u = t
    · subst he; rw [upd_self] at hu; exact hg hu
    · rwa [upd_ne _ _ he] at hu
  refine ⟨fun u w hu hw => h.uniq u w (hc u hu) (hc w hw), fun hs u hu => ?_, fun hr => ?_, ?_⟩
  · exact h.spawned (hsp ▸ hs) u (hc u hu)
  · rw [hd, hsp] at *
    obtain ⟨h1, h2⟩ := h.running (hr.imp id fun ⟨u, hu⟩ => ⟨u, hc u hu⟩)
    exact ⟨hst h1, h2⟩
  · rw [hd]; exact fun hdone => hst (h.done hdone)

omit [DecidableEq Tid] in
/-- What an operation leaves of the consumer's start and end. -/
theorem runs_eq {a : Act V} {n : Nat} {r : Resp a} (hs : sem cfg t a n s = some (s', r)) :
    (a = .goConsume ∨ s'.spawned = s.spawned) ∧ (s.started = true → s'.started = true) ∧
      (a = .doneClose ∨ s'.done = s.done) := by
  unfold sem at hs
  split at hs <;> (repeat' split at hs) <;> cases hs <;>
    exact ⟨by first | exact .inl rfl | exact .inr rfl, by first | exact id | exact fun _ => rfl,
      by first | exact .inl rfl | exact .inr rfl⟩

/-- The consumer is started: there was none. -/
theorem OneConsumer.starts (h : OneConsumer s γ) (hs : s.started = false) :
    OneConsumer { s with started := true } (upd γ t .starting) := by
  have hno : ∀ u, ¬ (γ u).consumer := by
    intro u hu
    have := (h.running (.inr ⟨u, hu⟩)).1
    rw [hs] at this; cases this
  have honly : ∀ u, (upd γ t .starting u).consumer → u = t := by
    intro u hu
    by_cases he : u = t
    · exact he
    · rw [upd_ne _ _ he] at hu; exact absurd hu (hno u)
  refine ⟨fun u w hu hw => (honly u hu).trans (honly w hw).symm, fun hsp => ?_, fun _ => ⟨rfl, ?_⟩,
    fun _ => rfl⟩
  · have := (h.running (.inl hsp)).1
    rw [hs] at this; cases this
  · cases hd : s.done with
    | false => rfl
    | true => have := h.done hd; rw [hs] at this; cases this

/-- The consumer leaves the place it had. -/
theorem OneConsumer.leaves (h : OneConsumer s γ) (hg : (γ t).consumer) (hn : ¬ g'.consumer)
    (u : Tid) : ¬ (upd γ t g' u).consumer := by
  by_cases he : u = t
  · subst he; rwa [upd_self]
  · rw [upd_ne _ _ he]; exact fun hu => he (h.uniq u t hu hg)

theorem one_step (h : OneConsumer s γ) {a : Act V} {n : Nat} {r : Resp a}
    (hs : sem cfg t a n s = some (s', r)) (hm : Move cfg (γ t) a r g') :
    OneConsumer s' (upd γ t g') := by
  obtain ⟨hsp, hst, hd⟩ := runs_eq hs
  generalize hg : γ t = g at hm
  by_cases ha : a = .startedCas ∨ a = .goConsume ∨ a = .doneClose
  · cases hm with
    | startedCas won =>
      cases hs
      cases hst : s.started with
      | false => exact h.starts hst
      | true => exact h.keep (fun hc => hc.elim) rfl (fun _ => rfl) rfl
    | goConsume =>
      cases hs
      have hc : (γ t).consumer := by rw [hg]; trivial
      have hno : ∀ u, ¬ (upd γ t .out u).consumer := h.leaves hc id
      exact ⟨fun u _ hu => absurd hu (hno u), fun _ => hno, fun _ => h.running (.inr ⟨t, hc⟩), h.done⟩
    | doneClose =>
      cases hs
      have hc : (γ t).consumer := by rw [hg]; trivial
      have hno : ∀ u, ¬ (upd γ t .exited u).consumer := h.leaves hc id
      refine ⟨fun u _ hu => absurd hu (hno u), fun _ => hno, ?_,
        fun _ => (h.running (.inr ⟨t, hc⟩)).1⟩
      rintro (hsp | ⟨u, hu⟩)
      · exact absurd hc (h.spawned hsp t)
      · exact absurd hu (hno u)
    | free hf => rcases ha with rfl | rfl | rfl <;> exact nomatch hf
    | ready hr => rcases ha with rfl | rfl | rfl <;> exact nomatch hr
    | count hc => rcases ha with rfl | rfl | rfl <;> exact nomatch hc
    | _ => simp at ha
  · simp only [not_or] at ha
    refine h.keep (fun hc => ?_) (hsp.resolve_left ha.2.1) hst (hd.resolve_left ha.2.2)
    rw [hg]
    cases hcon : consumes a with
    | true => exact (hm.of_consumes hcon).1
    | false => exact (hm.of_not_consumes hcon hc).2.resolve_right ha.1

theorem one_begin (h : OneConsumer s γ) {c : Call V} (he : enabled s c = true) :
    OneConsumer (begin t c s) (upd γ t (startPlace cfg c)) := by
  cases c with
  | consume =>
    have hsp : s.spawned = true := he
    have honly : ∀ u, (upd γ t (startPlace cfg .consume) u).consumer → u = t := by
      intro u hu
      by_cases he : u = t
      · exact he
      · rw [upd_ne _ _ he] at hu; exact absurd hu (h.spawned hsp u)
    exact ⟨fun u w hu hw => (honly u hu).trans (honly w hw).symm, nofun,
      fun _ => h.running (.inl hsp), h.done⟩
  | _ => exact h.keep (fun hc => hc.elim) rfl id rfl

/-! ## What an operation does -/

section
omit [DecidableEq Tid]

theorem send_cases {i : Nat} {v : V} {n : Nat} {r : Bool}
    (hs : sem cfg t (.send i v) n s = some (s', r)) :
    ((s.slot i).ch.length < cfg.capacity ∧ s' = s.send t i v ∧ r = true) ∨ (s' = s ∧ r = false) := by
  simp only [sem] at hs
  split at hs
  · cases hs; exact .inl ⟨by assumption, rfl, rfl⟩
  · cases hs; exact .inr ⟨rfl, rfl⟩

theorem drainLen_cases {i n m : Nat} (hs : sem cfg t (.chLen .drain i) n s = some (s', m)) :
    ((s.slot i).ch = [] ∧ m = 0 ∧ s' = { s with last := s.last.map fun l => (i + 1, l.2) }) ∨
      ((s.slot i).ch ≠ [] ∧ m ≠ 0 ∧ s' = s) := by
  simp only [sem] at hs
  split at hs
  · rename_i h0
    cases hs
    exact .inl ⟨List.length_eq_zero_iff.mp h0, h0, rfl⟩
  · rename_i h0
    cases hs
    exact .inr ⟨fun h => h0 (by rw [h]; rfl), h0, rfl⟩

theorem recv_cases {i n : Nat} {e : Bool} (hs : sem cfg t (.recv i) n s = some (s', e)) :
    ((s.slot i).ch = [] ∧ e = false ∧ s' = { s with last := s.last.map fun l => (i + 1, l.2) }) ∨
      ∃ x rest, (s.slot i).ch = x :: rest ∧ e = true ∧
        s' = { s.setSlot i { s.slot i with ch := rest } with
          batch := s.batch ++ [x]
          last := s.last.map fun l => (l.1, true) } := by
  simp only [sem] at hs
  split at hs
  · rename_i hc
    cases hs
    exact .inl ⟨hc, rfl, rfl⟩
  · rename_i x rest hc
    cases hs
    exact .inr ⟨x, rest, hc, rfl, rfl⟩

theorem ctxDone_cases {n : Nat} {d : Bool} (hs : sem cfg t .ctxDone n s = some (s', d)) :
    (d = false ∧ s' = s) ∨ (d = true ∧ s' = { s with last := some (0, false) }) := by
  simp only [sem] at hs
  split at hs
  · cases hs; exact .inl ⟨rfl, rfl⟩
  · split at hs
    · cases hs; exact .inr ⟨rfl, rfl⟩
    · cases hs

end

/-! ## The others' operations leave the consumer's knowledge -/

/-- What another goroutine's operation leaves of the events. -/
structure Aside (s s' : State V Tid) : Prop where
  batch : s'.batch = s.batch
  last : s'.last = s.last
  sink : s'.sink = s.sink
  ch : ∀ j, (s.slot j).ch <+: (s'.slot j).ch
  passed : ∀ j, s.passed j → (s'.slot j).ch = (s.slot j).ch

section
omit [DecidableEq Tid]

theorem Aside.of_slot {i : Nat} {c : ChanSlot V Tid} (h : s'.slot = upd s.slot i c)
    (hc : c.ch = (s.slot i).ch) (hb : s'.batch = s.batch) (hl : s'.last = s.last)
    (hk : s'.sink = s.sink) : Aside s s' := by
  have he : ∀ j, (s'.slot j).ch = (s.slot j).ch := by
    intro j
    rw [h, upd_apply]
    split
    · rename_i he; rw [he, hc]
    · rfl
  exact ⟨hb, hl, hk, fun j => he j ▸ List.prefix_refl _, fun j _ => he j⟩

theorem Aside.of_eq (hs : s'.slot = s.slot) (hb : s'.batch = s.batch) (hl : s'.last = s.last)
    (hk : s'.sink = s.sink) : Aside s s' :=
  ⟨hb, hl, hk, fun _ => hs ▸ List.prefix_refl _, fun _ _ => hs ▸ rfl⟩

theorem aside {a : Act V} {n : Nat} {r : Resp a} (ha : consumes a = false)
    (hok : inTime cfg t a s) (hs : sem cfg t a n s = some (s', r)) : Aside s s' := by
  by_cases hsend : ∃ i v, a = .send i v
  · obtain ⟨i, v, rfl⟩ := hsend
    rcases send_cases hs with ⟨hroom, rfl, -⟩ | ⟨rfl, -⟩
    · refine ⟨rfl, rfl, rfl, fun j => ?_, fun j hj => ?_⟩
      · simp only [State.send, State.setSlot, upd_apply]
        split
        · rename_i he; rw [he]; exact List.prefix_append _ _
        · exact List.prefix_refl _
      · have hne : j ≠ i := by
          rintro rfl
          exact hok hroom hj
        simp [State.send, State.setSlot, hne]
    · exact .of_eq rfl rfl rfl rfl
  · unfold sem at hs
    split at hs <;> (try exact absurd ha.symm Bool.false_ne_true) <;>
      (try exact absurd ⟨_, _, rfl⟩ hsend) <;> (repeat' split at hs) <;> cases hs <;>
      first
      | exact .of_eq rfl rfl rfl rfl
      | exact .of_slot rfl rfl rfl rfl rfl

theorem Clear.aside {k : Nat} (h : Clear s k) (ha : Aside s s') : Clear s' k := by
  intro j hj
  obtain ⟨h1, h2⟩ := h j hj
  refine ⟨by rw [ha.passed j h2, h1], ?_⟩
  unfold State.passed
  rwa [ha.last]

end

/-! ## A pass -/

/-- What the consumer's place says of the batch and, in the final drain, of the
channels it has passed: `clear k` of those before `k`, `here i` as it looks at
`i`. -/
def Pass (cfg : Config) (batch : List (Item V Tid)) (clear here : Nat → Prop) : Place V → Prop
  | .probe fin i total => i < cfg.producers ∧ batch.length < cfg.batch ∧
      (fin = true → total = 0 → clear i)
  | .length fin i total => i < cfg.producers ∧ batch.length < cfg.batch ∧
      (fin = true → total = 0 → clear i ∧ here i)
  | .top fin i got total => i < cfg.producers ∧ batch.length ≤ cfg.batch ∧
      (got = 0 → batch.length < cfg.batch) ∧
      (fin = true → total = 0 → got = 0 → clear i ∧ here i)
  | .take fin i got total => i < cfg.producers ∧ batch.length < cfg.batch ∧
      (fin = true → total = 0 → got = 0 → clear i ∧ here i)
  | .full fin i total => i < cfg.producers ∧ batch.length ≤ cfg.batch ∧
      (fin = true → total = 0 → clear (i + 1))
  | .flush fin i total | .adds fin i total | .write fin i total => i < cfg.producers ∧
      (fin = true → total = 0 → clear (i + 1))
  | .flushLast fin total | .addsLast fin total | .writeLast fin total =>
    fin = true → total = 0 → clear cfg.producers
  | .starting | .select => batch = []
  | .exit => batch = [] ∧ clear cfg.producers
  | _ => True

omit [DecidableEq Tid] in
theorem at_iff : At cfg s g ↔ Pass cfg s.batch (Clear s) (fun i => s.last = some (i, false)) g := by
  cases g <;> exact Iff.rfl

section pass
variable {batch : List (Item V Tid)} {clear here clear' here' : Nat → Prop}

omit [DecidableEq Tid]

theorem Pass.of_not (h : ¬ g.consumer) : Pass cfg batch clear here g := by
  cases g <;> first | trivial | exact absurd trivial h

theorem Pass.imp (h : Pass cfg batch clear here g) (hc : ∀ k, clear k → clear' k)
    (hh : ∀ i, here i → here' i) : Pass cfg batch clear' here' g := by
  cases g
  case probe => exact ⟨h.1, h.2.1, fun hf ht => hc _ (h.2.2 hf ht)⟩
  case length => exact ⟨h.1, h.2.1, fun hf ht => (h.2.2 hf ht).imp (hc _) (hh _)⟩
  case top =>
    exact ⟨h.1, h.2.1, h.2.2.1, fun hf ht hg => (h.2.2.2 hf ht hg).imp (hc _) (hh _)⟩
  case take => exact ⟨h.1, h.2.1, fun hf ht hg => (h.2.2 hf ht hg).imp (hc _) (hh _)⟩
  case full => exact ⟨h.1, h.2.1, fun hf ht => hc _ (h.2.2 hf ht)⟩
  case flush | adds | write => exact ⟨h.1, fun hf ht => hc _ (h.2 hf ht)⟩
  case flushLast | addsLast | writeLast => exact fun hf ht => hc _ (h hf ht)
  case exit => exact ⟨h.1, hc _ h.2⟩
  all_goals exact h

theorem Pass.at {fin : Bool} {i total : Nat} (hi : i ≤ cfg.producers)
    (hb : batch.length < cfg.batch) (hc : fin = true → total = 0 → clear i) :
    Pass cfg batch clear here (passAt cfg fin i total) := by
  unfold Channel.passAt
  split
  · exact ⟨by assumption, hb, hc⟩
  · have : i = cfg.producers := by omega
    subst this
    exact hc

theorem Pass.end {fin : Bool} {total : Nat} (hB : 0 < cfg.batch) (hb : batch = []) (h0 : clear 0)
    (hc : fin = true → total = 0 → clear cfg.producers) :
    Pass cfg batch clear here (passEnd cfg fin total) := by
  unfold Channel.passEnd
  split
  · exact Pass.at (Nat.zero_le _) (by rwa [hb]) fun _ _ => h0
  · cases fin with
    | false => exact hb
    | true => exact ⟨hb, hc rfl (by omega)⟩

end pass

/-- What the consumer's looks at the channels tell it. -/
structure Looks (clear here : State V Tid → Nat → Prop) (s : State V Tid) (g : Place V) : Prop where
  zero : ∀ s, clear s 0
  same : ∀ s', s'.slot = s.slot → s'.last = s.last → ∀ k, clear s k → clear s' k
  probe : g.final = true → ∀ i, clear s i →
    clear { s with last := s.last.map fun l => (i, if i = 0 then false else l.2) } i ∧
      here { s with last := s.last.map fun l => (i, if i = 0 then false else l.2) } i
  empty : ∀ i, (s.slot i).ch = [] → clear s i → here s i →
    clear { s with last := s.last.map fun l => (i + 1, l.2) } (i + 1)

omit [DecidableEq Tid] in
theorem Pass.step {clear here : State V Tid → Nat → Prop} (hB : 0 < cfg.batch)
    (hl : Looks clear here s g) {a : Act V} {n : Nat} {r : Resp a} (ha : consumes a = true)
    (hs : sem cfg t a n s = some (s', r)) (hm : Move cfg g a r g')
    (h : Pass cfg s.batch (clear s) (here s) g) : Pass cfg s'.batch (clear s') (here s') g' := by
  have hcount := hl.same { s with consumed := s.consumed + s.batch.length } rfl rfl
  have hwrite := hl.same { s with sink := s.sink ++ s.batch, batch := [] } rfl rfl
  cases hm with
  | free hq => rw [consumes_of_free hq] at ha; cases ha
  | ready hq => rw [consumes_of_readies hq] at ha; cases ha
  | count hq => rw [consumes_of_counts hq] at ha; cases ha
  | inUseLoad fin i total used hi =>
    cases hs
    obtain ⟨h1, h2, h3⟩ := h
    have hclear := fun hfin htot => hl.probe hfin i (h3 hfin htot)
    cases (s.slot i).inUse with
    | true => exact ⟨h1, Nat.le_of_lt h2, fun _ => h2, fun hfin htot _ => hclear hfin htot⟩
    | false => exact ⟨h1, h2, hclear⟩
  | drainLen fin i total m =>
    obtain ⟨h1, h2, h3⟩ := h
    rcases drainLen_cases hs with ⟨hc, rfl, rfl⟩ | ⟨-, hm, rfl⟩
    · rw [if_pos rfl]
      exact Pass.at h1 h2 fun hfin htot => hl.empty i hc (h3 hfin htot).1 (h3 hfin htot).2
    · rw [if_neg hm]
      exact ⟨h1, Nat.le_of_lt h2, fun _ => h2, fun hfin htot _ => h3 hfin htot⟩
  | top fin i got total m =>
    cases hs
    obtain ⟨h1, h2, h3, h4⟩ := h
    split
    · exact ⟨h1, by assumption, h4⟩
    · rename_i hfull
      refine ⟨h1, h2, fun _ htot => ?_⟩
      exact absurd (h3 (by omega)) hfull
  | recv fin i got total e =>
    obtain ⟨h1, h2, h3⟩ := h
    rcases recv_cases hs with ⟨hc, rfl, rfl⟩ | ⟨x, rest, hc, rfl, rfl⟩
    · refine ⟨h1, Nat.le_of_lt h2, fun hfin htot => ?_⟩
      have h3 := h3 hfin (by omega) (by omega)
      exact hl.empty i hc h3.1 h3.2
    · refine ⟨h1, ?_, fun h0 => absurd h0 (Nat.succ_ne_zero got),
        fun _ _ h0 => absurd h0 (Nat.succ_ne_zero got)⟩
      simp only [List.length_append, List.length_singleton]; omega
  | full fin i total m =>
    cases hs
    obtain ⟨h1, h2, h3⟩ := h
    split
    · exact ⟨h1, h3⟩
    · exact Pass.at h1 (by omega) h3
  | flush fin i total m =>
    cases hs
    obtain ⟨h1, h3⟩ := h
    split
    · exact Pass.at h1 (by omega) h3
    · exact ⟨h1, h3⟩
  | adds fin i total =>
    cases hs
    exact ⟨h.1, fun hfin htot => hcount _ (h.2 hfin htot)⟩
  | write fin i total =>
    cases hs
    exact Pass.at h.1 hB fun hfin htot => hwrite _ (h.2 hfin htot)
  | flushLast fin total m =>
    cases hs
    split
    · exact Pass.end hB (List.length_eq_zero_iff.mp (by assumption)) (hl.zero _) h
    · exact h
  | addsLast fin total =>
    cases hs
    exact fun hfin htot => hcount _ (h hfin htot)
  | writeLast fin total =>
    cases hs
    exact Pass.end hB rfl (hl.zero _) fun hfin htot => hwrite _ (h hfin htot)
  | ctxDone done =>
    have hb : s.batch = [] := h
    rcases ctxDone_cases hs with ⟨rfl, rfl⟩ | ⟨rfl, rfl⟩
    · exact Pass.at (Nat.zero_le _) (by rwa [hb]) nofun
    · exact Pass.at (Nat.zero_le _) (by rwa [hb]) fun _ _ => hl.zero _
  | doneClose => trivial
  | _ => exact absurd ha Bool.false_ne_true

/-! ## What the consumer learns -/

section
omit [DecidableEq Tid]

theorem At.aside (h : At cfg s g) (ha : Aside s s') : At cfg s' g := by
  rw [at_iff] at h ⊢
  rw [ha.batch]
  exact h.imp (fun k hk => hk.aside ha) fun i hi => ha.last.trans hi

theorem Clear.last {k : Nat} {l : Option (Nat × Bool)} (h : Clear s k)
    (hl : ∀ j, j < k → s.passed j → ∃ m, l = some (m, false) ∧ j < m) :
    Clear { s with last := l } k :=
  fun j hj => ⟨(h j hj).1, hl j hj (h j hj).2⟩

/-- One more channel is seen to be empty. -/
theorem Clear.next {i : Nat} (h : Clear s i) (hl : s.last = some (i, false))
    (he : (s.slot i).ch = []) :
    Clear { s with last := s.last.map fun l => (i + 1, l.2) } (i + 1) := by
  intro j hj
  refine ⟨?_, i + 1, by simp [hl], hj⟩
  by_cases hji : j = i
  · rw [hji]; exact he
  · exact (h j (by omega)).1

theorem clear_zero (s : State V Tid) : Clear s 0 := fun j hj => absurd hj (Nat.not_lt_zero j)

theorem clear_looks (hf : g.final = true → s.last ≠ none) :
    Looks Clear (fun s i => s.last = some (i, false)) s g where
  zero := clear_zero
  same _ hs hl k h j hj := by
    obtain ⟨h1, h2⟩ := h j hj
    exact ⟨by rwa [hs], by unfold State.passed; rwa [hl]⟩
  probe hfin i h := by
    obtain ⟨l, hl⟩ := Option.ne_none_iff_exists'.mp (hf hfin)
    have hl2 : (if i = 0 then false else l.2) = false := by
      split
      · rfl
      · obtain ⟨-, k, hk, -⟩ := h 0 (by omega)
        rw [hl] at hk; cases hk; rfl
    have he : s.last.map (fun l => (i, if i = 0 then false else l.2)) = some (i, false) := by
      rw [hl, Option.map_some, hl2]
    exact ⟨h.last fun j hj _ => ⟨i, he, hj⟩, he⟩
  empty i he h hl := h.next hl he

theorem at_step (hB : 0 < cfg.batch) {a : Act V} {n : Nat} {r : Resp a} (ha : consumes a = true)
    (hs : sem cfg t a n s = some (s', r)) (hm : Move cfg g a r g') (h : At cfg s g)
    (hf : g.final = true → s.last ≠ none) : At cfg s' g' :=
  at_iff.mpr ((at_iff.mp h).step hB (clear_looks hf) ha hs hm)

/-- The final drain does not end before the consumer. -/
theorem last_some {a : Act V} {n : Nat} {r : Resp a} (hs : sem cfg t a n s = some (s', r))
    (hl : s.last ≠ none) : s'.last ≠ none := by
  unfold sem at hs
  split at hs <;> (repeat' split at hs) <;> cases hs <;>
    first
    | exact hl
    | simpa using hl

theorem final_step {a : Act V} {n : Nat} {r : Resp a} (ha : consumes a = true)
    (hs : sem cfg t a n s = some (s', r)) (hm : Move cfg g a r g')
    (h : g.final = true → s.last ≠ none) (hf : g'.final = true) : s'.last ≠ none := by
  have hlast := last_some hs
  cases hm with
  | free hq => rw [consumes_of_free hq] at ha; cases ha
  | ready hq => rw [consumes_of_readies hq] at ha; cases ha
  | count hq => rw [consumes_of_counts hq] at ha; cases ha
  | ctxDone done =>
    rcases ctxDone_cases hs with ⟨rfl, -⟩ | ⟨-, rfl⟩
    · rw [passAt_final] at hf; cases hf
    · exact Option.some_ne_none _
  | _ =>
    refine hlast (h ?_)
    first
    | exact absurd ha Bool.false_ne_true
    | (revert hf; (try split) <;>
        first
        | exact id
        | exact fun hf => (passAt_final _ _ _).symm.trans hf
        | exact fun hf => passEnd_final _ _ hf)

end

/-! ## What the other places say, kept -/

/-- What every operation leaves. -/
structure Grows (s s' : State V Tid) : Prop where
  handles : s.handles <+: s'.handles
  sent : s.sent ⊆ s'.sent
  calls : s'.calls = s.calls
  results : s'.results = s.results

section
omit [DecidableEq Tid]

theorem grows {a : Act V} {n : Nat} {r : Resp a} (hs : sem cfg t a n s = some (s', r)) :
    Grows s s' := by
  unfold sem at hs
  split at hs <;> (repeat' split at hs) <;> cases hs <;>
    first
    | exact ⟨List.prefix_refl _, fun _ h => h, rfl, rfl⟩
    | exact ⟨List.prefix_append _ _, fun _ h => h, rfl, rfl⟩
    | exact ⟨List.prefix_refl _, fun _ h => List.mem_append_left _ h, rfl, rfl⟩

theorem Fact.grows {u : Tid} (h : Fact cfg s u g) (hg : Grows s s') : Fact cfg s' u g := by
  cases g with
  | pushing k v | opened k v => exact Nat.lt_of_lt_of_le h hg.handles.length_le
  | counting i v b =>
    cases b with
    | false => exact h
    | true =>
      obtain ⟨hi, hv⟩ := h
      refine ⟨hi, hg.sent ?_⟩
      rwa [State.me, hg.calls]
  | answered v b =>
    cases b with
    | false => trivial
    | true =>
      refine hg.sent ?_
      rw [State.me, hg.calls]
      exact h
  | _ => exact h

theorem Fact.of_passAt (fin : Bool) (i total : Nat) : Fact cfg s t (passAt cfg fin i total) := by
  unfold passAt; split <;> trivial

theorem Fact.of_passEnd (fin : Bool) (total : Nat) : Fact cfg s t (passEnd cfg fin total) := by
  unfold passEnd; split
  · exact .of_passAt fin 0 0
  · cases fin <;> trivial

/-- A sent event's call is the one its sender is in. -/
theorem fact_step (h : Holdings cfg s γ) {a : Act V} {n : Nat} {r : Resp a}
    (hs : sem cfg t a n s = some (s', r)) (hm : Move cfg (γ t) a r g') : Fact cfg s' t g' := by
  have hold := (h.facts t).grows (grows hs)
  generalize γ t = g at hm hold
  cases hm with
  | free | ready | count => exact hold
  | inUseCas i won hi => split <;> first | exact hi | trivial
  | closedLoad k v closed => split <;> first | exact hold | trivial
  | pushSlot k i v =>
    cases hs
    have hk : k < s.handles.length := hold
    refine h.handles _ ?_
    rw [List.getD, List.getElem?_eq_getElem hk]
    exact List.getElem_mem hk
  | send i v sent =>
    rcases send_cases hs with ⟨-, rfl, rfl⟩ | ⟨rfl, rfl⟩
    · exact ⟨hold, List.mem_append_right _ (List.mem_singleton.mpr rfl)⟩
    · exact hold
  | pushedAdd i v => exact hold.2
  | _ =>
    (try split) <;>
      first
      | trivial
      | exact .of_passAt _ _ _
      | exact .of_passEnd _ _

end

/-! ## Where the events are -/

/-- Moves an event. -/
def carries : Act V → Bool
  | .send _ _ | .recv _ | .sinkWrite => true
  | _ => false

structure SameEvents (s s' : State V Tid) : Prop where
  sent : s'.sent = s.sent
  sink : s'.sink = s.sink
  batch : s'.batch = s.batch
  ch : ∀ j, (s'.slot j).ch = (s.slot j).ch

section
omit [DecidableEq Tid]

theorem batch_eq {a : Act V} {n : Nat} {r : Resp a} (ha : consumes a = false)
    (hs : sem cfg t a n s = some (s', r)) : s'.batch = s.batch := by
  unfold sem at hs
  split at hs <;> (try exact absurd ha.symm Bool.false_ne_true) <;> (repeat' split at hs) <;>
    cases hs <;> rfl

theorem sameEvents {a : Act V} {n : Nat} {r : Resp a} (ha : carries a = false)
    (hs : sem cfg t a n s = some (s', r)) : SameEvents s s' := by
  unfold sem at hs
  split at hs <;> (try exact absurd ha.symm Bool.false_ne_true) <;> (repeat' split at hs) <;>
    cases hs <;> refine ⟨rfl, rfl, rfl, fun j => ?_⟩ <;>
    first
    | rfl
    | (simp only [State.setSlot, upd_apply]; split <;> simp_all)

/-- Where an event is. -/
def Held (cfg : Config) (s : State V Tid) (e : Item V Tid) : Prop :=
  e ∈ s.sink ∨ e ∈ s.batch ∨ ∃ i, i < cfg.producers ∧ e ∈ (s.slot i).ch

theorem Held.of_ch {e : Item V Tid} (h : Held cfg s e) (hk : s.sink ⊆ s'.sink)
    (hb : s.batch ⊆ s'.batch)
    (hc : ∀ i, e ∈ (s.slot i).ch → e ∈ s'.batch ∨ e ∈ (s'.slot i).ch) : Held cfg s' e := by
  rcases h with h | h | ⟨i, hi, h⟩
  · exact .inl (hk h)
  · exact .inr (.inl (hb h))
  · rcases hc i h with h | h
    · exact .inr (.inl h)
    · exact .inr (.inr ⟨i, hi, h⟩)

theorem held_step (h : Holdings cfg s γ) {a : Act V} {n : Nat} {r : Resp a}
    (hs : sem cfg t a n s = some (s', r)) (hm : Move cfg (γ t) a r g') :
    ∀ e, e ∈ s'.sent → Held cfg s' e := by
  intro e he
  cases ha : carries a with
  | false =>
    have hsame := sameEvents ha hs
    rw [hsame.sent] at he
    exact (show Held cfg s e from h.sent e he).of_ch (by rw [hsame.sink]; exact fun _ h => h)
      (by rw [hsame.batch]; exact fun _ h => h) fun i hi => .inr (by rwa [hsame.ch])
  | true =>
    have hfact := h.facts t
    generalize γ t = g at hm hfact
    cases a <;> (try exact absurd ha Bool.false_ne_true)
    case send i v =>
      cases hm with
      | free hq => exact absurd hq Bool.false_ne_true
      | ready hq => exact absurd hq Bool.false_ne_true
      | count hq => exact absurd hq Bool.false_ne_true
      | send =>
        rcases send_cases hs with ⟨-, rfl, -⟩ | ⟨rfl, -⟩
        · have hin : ∀ e, e ∈ (s.slot i).ch ++ [(s.me t, v)] → e ∈ ((s.send t i v).slot i).ch := by
            intro e he; simpa [State.send, State.setSlot] using he
          rcases List.mem_append.mp he with he | he
          · refine (show Held cfg s e from h.sent e he).of_ch (fun _ h => h) (fun _ h => h)
              fun j hj => .inr ?_
            by_cases hji : j = i
            · subst hji; exact hin e (List.mem_append_left _ hj)
            · simpa [State.send, State.setSlot, hji] using hj
          · exact .inr (.inr ⟨i, hfact, hin e (List.mem_append_right _ he)⟩)
        · exact h.sent e he
    case recv i =>
      rcases recv_cases hs with ⟨-, -, rfl⟩ | ⟨x, rest, hc, -, rfl⟩
      · exact h.sent e he
      · refine (show Held cfg s e from h.sent e he).of_ch (fun _ h => h)
          (List.subset_append_left _ _) fun j hj => ?_
        by_cases hji : j = i
        · subst hji
          rw [hc] at hj
          rcases List.mem_cons.mp hj with rfl | hj
          · exact .inl (List.mem_append_right _ (List.mem_singleton.mpr rfl))
          · exact .inr (by simpa [State.setSlot] using hj)
        · exact .inr (by simpa [State.setSlot, hji] using hj)
    case sinkWrite =>
      cases hs
      rcases h.sent e he with h | h | h
      · exact .inl (List.mem_append_left _ h)
      · exact .inl (List.mem_append_right _ h)
      · exact .inr (.inr h)

theorem handles_eq {a : Act V} {n : Nat} {r : Resp a} (hs : sem cfg t a n s = some (s', r)) :
    (∃ i, a = .newProducer i) ∨ s'.handles = s.handles := by
  unfold sem at hs
  split at hs <;> (repeat' split at hs) <;> cases hs <;>
    first
    | exact .inr rfl
    | exact .inl ⟨_, rfl⟩

theorem handles_step (h : Holdings cfg s γ) {a : Act V} {n : Nat} {r : Resp a}
    (hs : sem cfg t a n s = some (s', r)) (hm : Move cfg (γ t) a r g') :
    ∀ i, i ∈ s'.handles → i < cfg.producers := by
  rcases handles_eq hs with ⟨i, rfl⟩ | he
  · have hfact := h.facts t
    generalize γ t = g at hm hfact
    cases hm with
    | free hq => exact absurd hq Bool.false_ne_true
    | ready hq => exact absurd hq Bool.false_ne_true
    | count hq => exact absurd hq Bool.false_ne_true
    | newProducer =>
      cases hs
      intro j hj
      rcases List.mem_append.mp hj with hj | hj
      · exact h.handles j hj
      · rw [List.mem_singleton.mp hj]; exact hfact
  · rw [he]; exact h.handles

end

theorem holdings_step (h : Holdings cfg s γ) {a : Act V} {n : Nat} {r : Resp a}
    (hs : sem cfg t a n s = some (s', r)) (hm : Move cfg (γ t) a r g') :
    Holdings cfg s' (upd γ t g') := by
  have hg := grows hs
  refine ⟨held_step h hs hm, fun id hid => ?_, handles_step h hs hm, fun u => ?_⟩
  · rw [hg.results] at hid
    obtain ⟨v, hv⟩ := h.results id hid
    exact ⟨v, hg.sent hv⟩
  · by_cases he : u = t
    · subst he; rw [upd_self]; exact fact_step h hs hm
    · rw [upd_ne _ _ he]; exact (h.facts u).grows hg

omit [DecidableEq Tid] in
/-- Nothing is in the batch before the consumer runs. -/
theorem fresh_step (h : s.started = false ∨ s.spawned = true → s.batch = [])
    (hat : g = .starting → s.batch = []) {a : Act V} {n : Nat} {r : Resp a}
    (ha : consumes a = false) (hs : sem cfg t a n s = some (s', r)) (hm : Move cfg g a r g') :
    (g' = .starting → s.batch = []) ∧ (s'.started = false ∨ s'.spawned = true → s.batch = []) := by
  obtain ⟨hsp, hst, -⟩ := runs_eq hs
  have hkeep : s'.spawned = s.spawned → s'.started = false ∨ s'.spawned = true → s.batch = [] := by
    intro he hor
    refine h (hor.imp (fun hf => ?_) fun hf => he ▸ hf)
    cases hb : s.started with
    | false => rfl
    | true => rw [hst hb] at hf; cases hf
  cases hm with
  | startedCas won =>
    cases hs
    refine ⟨fun hg => h (.inl ?_), hkeep rfl⟩
    cases hb : s.started with
    | false => rfl
    | true => rw [hb] at hg; cases hg
  | cancelSet => cases hs; exact ⟨fun _ => hat rfl, hkeep rfl⟩
  | goConsume => exact ⟨nofun, fun _ => hat rfl⟩
  | free hq =>
    exact ⟨nofun, hkeep (hsp.resolve_left (by rintro rfl; cases hq))⟩
  | ready hq =>
    exact ⟨nofun, hkeep (hsp.resolve_left (by rintro rfl; cases hq))⟩
  | count hq =>
    exact ⟨nofun, hkeep (hsp.resolve_left (by rintro rfl; cases hq))⟩
  | _ =>
    first
    | exact absurd ha.symm Bool.false_ne_true
    | exact ⟨by (try split) <;> nofun, hkeep (hsp.resolve_left nofun)⟩

theorem drain_step (hB : 0 < cfg.batch) (h : DrainInv cfg s γ) {a : Act V} {n : Nat} {r : Resp a}
    (hok : inTime cfg t a s) (hs : sem cfg t a n s = some (s', r)) (hm : Move cfg (γ t) a r g') :
    DrainInv cfg s' (upd γ t g') := by
  have hone := one_step h.one hs hm
  have hhold := holdings_step h.holdings hs hm
  cases ha : consumes a with
  | false =>
    have haside := aside ha hok hs
    obtain ⟨hstarting, hfresh⟩ := fresh_step h.fresh
      (fun hg => by simpa only [hg, At] using h.at_ t) ha hs hm
    -- whoever is at a consumer's place was there, or has just won the start
    have hplace : ∀ u, At cfg s (upd γ t g' u) ∧ ((upd γ t g' u).final = true → s.last ≠ none) := by
      intro u
      by_cases he : u = t
      · subst he
        rw [upd_self]
        by_cases hc : g'.consumer
        · have he := hm.of_not_consumes ha hc
          rw [he.1]
          exact ⟨hstarting he.1, nofun⟩
        · exact ⟨.of_not hc, fun hf => by rw [final_of_not hc] at hf; cases hf⟩
      · rw [upd_ne _ _ he]; exact ⟨h.at_ u, h.final u⟩
    refine ⟨hone, fun u => (hplace u).1.aside haside, fun u hf => last_some hs ((hplace u).2 hf),
      fun hf => haside.batch ▸ hfresh hf, fun hd => ?_, hhold⟩
    rw [(runs_eq hs).2.2.resolve_left (by rintro rfl; cases ha)] at hd
    exact ⟨haside.batch ▸ (h.done hd).1, (h.done hd).2.aside haside⟩
  | true =>
    obtain ⟨hc, hc'⟩ := hm.of_consumes ha
    obtain ⟨hstarted, hndone⟩ := h.one.running (.inr ⟨t, hc⟩)
    obtain ⟨hsp, hst, hd⟩ := runs_eq hs
    refine ⟨hone, fun u => ?_, fun u hf => ?_, fun hf => ?_, fun hd' => ?_, hhold⟩
    · by_cases he : u = t
      · subst he; rw [upd_self]; exact at_step hB ha hs hm (h.at_ u) (h.final u)
      · rw [upd_ne _ _ he]
        exact .of_not fun hu => he (h.one.uniq u t hu hc)
    · by_cases he : u = t
      · subst he; rw [upd_self] at hf; exact final_step ha hs hm (h.final u) hf
      · rw [upd_ne _ _ he] at hf
        exact last_some hs (h.final u hf)
    · rcases hf with hf | hf
      · rw [hst hstarted] at hf; cases hf
      · rw [hsp.resolve_left (by rintro rfl; cases ha)] at hf
        exact absurd hc (h.one.spawned hf t)
    · rcases hd with rfl | he
      · have hat := h.at_ t
        generalize γ t = g at hm hat
        cases hm with
        | free hq => exact absurd hq Bool.false_ne_true
        | ready hq => exact absurd hq Bool.false_ne_true
        | count hq => exact absurd hq Bool.false_ne_true
        | doneClose => cases hs; exact hat
      · rw [he, hndone] at hd'; cases hd'

theorem begin_slot (c : Call V) : (begin t c s).slot = s.slot := by cases c <;> rfl

theorem begin_aside (c : Call V) : Aside s (begin t c s) := by
  cases c <;> exact .of_eq rfl rfl rfl rfl

omit [DecidableEq Tid] in
/-- A place's fact is about its thread's call. -/
theorem Fact.of_eq {u : Tid} (h : Fact cfg s u g) (hh : s'.handles = s.handles)
    (hs : s'.sent = s.sent) (hc : s'.calls u = s.calls u) : Fact cfg s' u g := by
  cases g with
  | answered v b | counting i v b =>
    cases b <;> first | trivial | simpa only [Fact, State.me, hs, hc] using h
  | _ => first | trivial | simpa only [Fact, hh] using h

theorem holdings_begin (h : Holdings cfg s γ) {c : Call V} (he : enabled s c = true) :
    Holdings cfg (begin t c s) (upd γ t (startPlace cfg c)) := by
  have hsame : (begin t c s).handles = s.handles ∧ (begin t c s).sent = s.sent ∧
      (begin t c s).sink = s.sink ∧ (begin t c s).batch = s.batch ∧
      (begin t c s).results = s.results ∧
      ∀ u, u ≠ t → (begin t c s).calls u = s.calls u := by
    cases c <;> exact ⟨rfl, rfl, rfl, rfl, rfl, fun u hu => upd_ne _ _ hu⟩
  obtain ⟨hh, hs, hk, hb, hr, hc⟩ := hsame
  refine ⟨?_, ?_, ?_, fun u => ?_⟩
  · rw [hs, hk, hb, begin_slot]; exact h.sent
  · rw [hr, hs]; exact h.results
  · rw [hh]; exact h.handles
  · by_cases hu : u = t
    · subst hu
      rw [upd_self]
      cases c with
      | push k v => exact show k < s.handles.length by simpa [enabled] using he
      | consume => exact .of_passAt _ _ _
      | _ => trivial
    · rw [upd_ne _ _ hu]; exact (h.facts u).of_eq hh hs (hc u hu)

theorem drain_begin (hB : 0 < cfg.batch) (h : DrainInv cfg s γ) {c : Call V}
    (he : enabled s c = true) : DrainInv cfg (begin t c s) (upd γ t (startPlace cfg c)) := by
  have haside : Aside s (begin t c s) := begin_aside c
  have hdone : (begin t c s).done = s.done := by cases c <;> rfl
  have hstart : At cfg s (startPlace cfg c) ∧ (startPlace cfg c).final = false := by
    cases c with
    | consume =>
      refine ⟨at_iff.mpr (Pass.at (Nat.zero_le _) ?_ nofun), passAt_final _ _ _⟩
      rwa [h.fresh (.inr he)]
    | _ => exact ⟨trivial, rfl⟩
  refine ⟨one_begin h.one he, fun u => ?_, fun u hf => ?_, fun hf => ?_, fun hd => ?_, holdings_begin h.holdings he⟩
  · by_cases hu : u = t
    · subst hu; rw [upd_self]; exact hstart.1.aside haside
    · rw [upd_ne _ _ hu]; exact (h.at_ u).aside haside
  · rw [haside.last]
    by_cases hu : u = t
    · subst hu; rw [upd_self, hstart.2] at hf; cases hf
    · rw [upd_ne _ _ hu] at hf; exact h.final u hf
  · rw [haside.batch]
    refine h.fresh ?_
    cases c <;> first | exact hf | exact hf.imp id nofun
  · rw [hdone] at hd
    exact ⟨haside.batch ▸ (h.done hd).1, (h.done hd).2.aside haside⟩

theorem holdings_finish (h : Holdings cfg s γ) {c : Call V} {r : Result}
    (he : endPlace c r (γ t)) :
    Holdings cfg { s with results := upd s.results (s.me t) (some r) } (upd γ t .idle) := by
  refine ⟨h.sent, fun id hid => ?_, h.handles, fun u => ?_⟩
  · simp only [upd_apply] at hid
    split at hid
    · rename_i heq
      cases hid
      have hfact := h.facts t
      cases c with
      | push k v =>
        obtain ⟨b, hb, hg⟩ := he
        cases hb
        rw [hg] at hfact
        rw [heq]; exact ⟨v, hfact⟩
      | _ => exact absurd rfl (he.2 true)
    · exact h.results id hid
  · by_cases hu : u = t
    · subst hu; rw [upd_self]; trivial
    · rw [upd_ne _ _ hu]; exact (h.facts u).of_eq rfl rfl rfl

theorem drain_finish (h : DrainInv cfg s γ) {c : Call V} {r : Result} (he : endPlace c r (γ t)) :
    DrainInv cfg { s with results := upd s.results (s.me t) (some r) } (upd γ t .idle) := by
  have haside : Aside s { s with results := upd s.results (s.me t) (some r) } :=
    .of_eq rfl rfl rfl rfl
  refine ⟨h.one.keep (fun hc => hc.elim) rfl id rfl, fun u => ?_, fun u hf => ?_, h.fresh, fun hd => ?_,
    holdings_finish h.holdings he⟩
  · by_cases hu : u = t
    · subst hu; rw [upd_self]; trivial
    · rw [upd_ne _ _ hu]; exact (h.at_ u).aside haside
  · by_cases hu : u = t
    · subst hu; rw [upd_self] at hf; cases hf
    · rw [upd_ne _ _ hu] at hf; exact h.final u hf
  · exact ⟨(h.done hd).1, (h.done hd).2.aside haside⟩

theorem drain_keeps (hB : 0 < cfg.batch) :
    (flow V Tid cfg).Keeps (inTime cfg) (DrainInv cfg) where
  init := by
    refine ⟨⟨fun _ _ h => h.elim, nofun, fun h => ?_, nofun⟩, fun _ => trivial, nofun, fun _ => rfl,
      nofun, ⟨nofun, nofun, nofun, fun _ => trivial⟩⟩
    rcases h with h | ⟨_, h⟩
    · cases h
    · exact h.elim
  begin := fun _ h _ _ _ he => drain_begin hB h he
  move := fun _ h _ _ _ _ _ _ hok hs hm => drain_step hB h hok hs hm
  finish := fun _ h _ _ _ he => drain_finish h he

end
end Katas.Weir.Channel
