import Katas.Core.Client
import Katas.Weir.PipelineCounts
import Katas.Weir.PipelineLandings
import Katas.Weir.PipelineOrder

/-!
# The books of the event pipeline

`stats` adds the lifetime totals and the slots' counters. While no push is on
its way and no slot is being folded, it has counted every push that found the
pipeline accepting, and no other. The consumer counts what it takes at the end
of each `drain_ring`.
-/
namespace Katas.Weir.Pipeline
open Katas.Conc Flow

section
variable {V Tid : Type} (cfg : Config)

/-! ## The pushes -/

/-- The calls of `push`, over all handles. -/
def State.begun (s : State V Tid) : Nat := sumTo s.handles.length fun k => (s.record k).begun

/-- Those that returned true. -/
def State.accepted (s : State V Tid) : Nat :=
  sumTo s.handles.length fun k => (s.record k).accepted.length

/-- Those that returned false. -/
def State.rejected (s : State V Tid) : Nat := sumTo s.handles.length fun k => (s.record k).rejected

/-- Those that found the pipeline not accepting. -/
def State.refused (s : State V Tid) : Nat := sumTo s.handles.length fun k => (s.record k).refused

/-- In the middle of a fold, when the consumer does it. -/
def Act.folds : Act V Tid → Bool
  | .retiredPushedAdd _ | .droppedSwap _ | .droppedLoad _ | .retiredDroppedAdd _ | .pushedStore _
  | .droppedStore _ => true
  | _ => false

/-! ## The drains -/

/-- What the consumer has taken in a `drain_ring`, and not counted. -/
def Place.got : Place V Tid → Nat
  | .makes _ got | .spill _ got | .spills _ got | .head _ got _ | .cached _ got _ _
  | .look _ got _ _ | .copies _ got _ _ _ | .drained _ got => got
  | _ => 0

variable {cfg} {g g' : Place V Tid}

theorem loopAt_got (k : Spot) (got : Nat) : (loopAt cfg k got : Place V Tid).got = got := by
  unfold loopAt
  split <;> rfl

theorem Landing.got (h : Landing cfg g) : g.got = 0 := by
  cases h <;> rfl

/-- Takes from a ring, or counts. -/
def Act.takes : Act V Tid → Bool
  | .headStore _ _ _ | .consumedAdd _ => true
  | _ => false

theorem Move.got {a : Act V Tid} {r : Resp a} (hm : Move cfg g a r g') (ha : a.takes = false) :
    g'.got = g.got := by
  cases hm with
  | life hm => cases hm <;> rfl
  | wake hm =>
    cases hm with
    | lock k | notify k | unlock k | send k => cases k <;> rfl
  | register hm => cases hm <;> first | rfl | (split <;> rfl)
  | scan hm =>
    cases hm with
    | reclaim fin ids h => exact h.landing.got
    | _ => rfl
  | push hm =>
    cases hm with
    | test w b hs | mind w b | accepting h v b => cases b <;> rfl
    | set | cached | see | pending => split <;> rfl
    | _ => rfl
  | drain hm =>
    cases hm with
    | word w r h => exact h.landing.got
    | ids clear l h => exact h.landing.got
    | flag clear i rest ids b h => exact h.landing.got
    | free k h => exact h.landing.got
    | used k h => exact loopAt_got k 0
    | staged | spill | cached | look => split <;> rfl
    | copied | drained => cases ha
    | flushed d total h => exact h.landing.got
    | write d total h => exact h.landing.got
    | lastFlushed h => exact h.landing.got
    | lastWrite h => exact h.landing.got
    | _ => rfl
  | reclaim hm =>
    cases hm with
    | skip hp h => exact h.landing.got
    | take hp h => exact h.landing.got
    | skips hp h => exact h.landing.got
    | takes h => exact h.landing.got
    | other l hst h => exact h.landing.got
    | filled l hc h => exact h.landing.got
    | addDropped l n => split <;> rfl
    | free l h => exact h.landing.got
    | _ => rfl
  | clear hm =>
    cases hm with
    | word w h => exact h.landing.got
    | filled i rest b hc h => exact h.landing.got
    | emptyAgain i rest b c h =>
      split at h
      · split at h
        · subst h; rfl
        · exact h.landing.got
      · subst h; rfl
    | other i rest b hst h => exact h.landing.got
    | restore i rest b zero h => exact h.landing.got
    | _ => rfl
  | park hm =>
    cases hm with
    | arm told => cases told <;> rfl
    | word | run => split <;> (try split) <;> rfl
    | disarm told => split <;> rfl
    | _ => rfl

/-- The events that the consumer has taken since it last counted. -/
def draw (_ : Tid) (a : Act V Tid) (_ _ : State V Tid) (w : Nat) : Nat :=
  match a with
  | .headStore _ _ out => w + out.length
  | .consumedAdd _ => 0
  | _ => w

end

section
variable (V Tid : Type) [DecidableEq Tid] [Inhabited V] [Inhabited Tid] (cfg : Config)

/-- The pipeline, and what is taken and not counted. -/
abbrev drawing : System := (pipeline V Tid cfg).client (.watch _ 0 draw)

abbrev drawingFlow : Flow (drawing V Tid cfg) := (flow V Tid cfg).client _

end

section
variable {V Tid : Type} [DecidableEq Tid] [Inhabited V] [Inhabited Tid] {cfg : Config}
  {s s' : State V Tid} {γ : Tid → Place V Tid} {t : Tid} {g : Place V Tid} {a : Act V Tid}
  {n w w' : Nat}

/-- What is counted as consumed, and what the drain in progress has taken, is
what has left the rings. -/
structure Drawn (s : State V Tid × Nat) (γ : Tid → Place V Tid) : Prop where
  taken : s.1.consumed + s.2 = s.1.out.length
  got : s.1.atConsumer γ Place.got = s.2

omit [Inhabited V] [Inhabited Tid] in
variable (cfg t n s) in
theorem apply_takes (h : a.takes = false) : (apply cfg t a n s).consumed = s.consumed ∧
    (apply cfg t a n s).out = s.out := by
  cases a with
  | headStore | consumedAdd => cases h
  | sinkWrite => exact ⟨rfl, List.append_nil _⟩
  | stateCas i => unfold apply; dsimp only; split <;> exact ⟨rfl, rfl⟩
  | stateStore i st => cases st <;> exact ⟨rfl, rfl⟩
  | _ => exact ⟨rfl, rfl⟩

omit [DecidableEq Tid] [Inhabited V] [Inhabited Tid] in
theorem draw_takes (h : a.takes = false) : draw t a s s' w = w := by
  cases a with
  | headStore | consumedAdd => cases h
  | _ => rfl

omit [Inhabited V] [Inhabited Tid] in
theorem Drawn.move (h : Drawn (s, w) γ) (hc : Calls cfg s γ) {r : Resp a}
    (hm : Move cfg (γ t) a r g) :
    Drawn (apply cfg t a n s, draw t a s (apply cfg t a n s) w) (upd γ t g) := by
  have htaken : s.consumed + w = s.out.length := h.taken
  have hgot : s.atConsumer γ Place.got = w := h.got
  by_cases ha : a.takes = false
  · obtain ⟨h1, h2⟩ := apply_takes cfg s t n ha
    rw [draw_takes ha]
    refine ⟨?_, ?_⟩
    · rw [h1, h2]; exact htaken
    · by_cases ht : s.consumer = some t
      · rw [State.atConsumer_upd (apply_consumer.trans ht), hm.got ha]
        rwa [State.atConsumer_of ht] at hgot
      · rw [State.atConsumer_off (f := Place.got) ht apply_consumer fun _ _ => rfl]
        exact hgot
  · generalize hγ : γ t = g₀ at hm
    cases hm with
    | drain hm =>
      have ht : s.consumer = some t := hc.consume (by rw [hγ]; cases hm <;> rfl)
      rw [State.atConsumer_of ht, hγ] at hgot
      cases hm with
      | copied k got c m out hlen =>
        have hout : (apply cfg t (.headStore k.i (c + m) out) n s).out = s.out ++ out :=
          (List.append_assoc _ _ _).symm
        refine ⟨?_, ?_⟩
        · rw [hout, List.length_append]
          show s.consumed + (w + out.length) = _
          omega
        · rw [State.atConsumer_upd (apply_consumer.trans ht)]
          show _ = w + out.length
          rw [hlen, ← show got = w from hgot]
          split
          · rename_i hm0
            rw [hm0]
            rfl
          · exact loopAt_got k _
      | drained k got hg =>
        refine ⟨?_, ?_⟩
        · show s.consumed + got + 0 = s.out.length
          rw [show got = w from hgot]
          exact htaken
        · exact (State.atConsumer_upd (apply_consumer.trans ht)).trans hg.landing.got
      | _ => exact absurd rfl ha
    | life hm =>
      cases hm with
      | @waits a _ hw => cases a <;> first | exact absurd rfl ha | cases hw
      | _ => exact absurd rfl ha
    | _ hm => cases hm <;> exact absurd rfl ha

omit [DecidableEq Tid] [Inhabited V] [Inhabited Tid] in
theorem endPlace_got {c : Call V} {r : Result} (h : endPlace cfg c r g) : g.got = 0 := by
  cases c with
  | stop m => obtain ⟨-, rfl⟩ | ⟨-, rfl⟩ := h <;> rfl
  | register => obtain ⟨-, rfl⟩ | ⟨i, -, rfl | ⟨-, rfl⟩⟩ := h <;> rfl
  | push k v => obtain ⟨-, rfl | rfl⟩ | ⟨-, rfl | ⟨-, rfl⟩⟩ := h <;> rfl
  | start | retire | consume => obtain ⟨-, rfl⟩ := h; rfl

variable (V Tid cfg) in
theorem drawn_keeps (ok : Tid → Act V Tid → State V Tid × Nat → Prop) :
    (drawingFlow V Tid cfg).Keeps ok Drawn where
  init := ⟨rfl, rfl⟩
  begin {s γ} hr h t c hi he := by
    have hc := (calls_keeps V Tid cfg _).reach hr.of_client
    refine ⟨?_, ?_⟩
    · show (begin cfg t c s.1).consumed + s.2 = (begin cfg t c s.1).out.length
      unfold State.out
      rw [begin_eq]
      exact h.taken
    · refine (State.atConsumer_same (hc.begin_consumer he) (fun _ => rfl) ?_ ?_).trans h.got
      · rw [hi]; rfl
      · cases c <;> rfl
  move hr h t a n s' r g _ hs hm := by
    obtain ⟨o, ho, he⟩ := Option.map_eq_some_iff.mp hs
    cases he
    obtain ⟨-, h1, -⟩ := sem_some cfg ho
    rw [h1]
    exact h.move ((calls_keeps V Tid cfg _).reach hr.of_client) hm
  finish {s γ} hr h t c r he := by
    have hc := (calls_keeps V Tid cfg _).reach hr.of_client
    refine ⟨?_, ?_⟩
    · show (finish cfg t c r s.1).consumed + s.2 = (finish cfg t c r s.1).out.length
      unfold State.out
      rw [finish_eq]
      exact h.taken
    · refine (State.atConsumer_same (hc.finish_consumer he) (fun _ => rfl) ?_ rfl).trans h.got
      exact endPlace_got he

/-! ## The books balance -/

/-- No thread is in a push. -/
def State.still (s : State V Tid) : Prop := ∀ t h v, s.inCall t ≠ some (.push h v)

/-- The consumer is in the middle of a fold: `next` is what the threads do
next. -/
def State.midFold (s : State V Tid) (next : Tid → Option (Act V Tid)) : Prop :=
  ∃ t a, s.consumer = some t ∧ next t = some a ∧ a.folds = true

section
omit [DecidableEq Tid] [Inhabited V] [Inhabited Tid]

theorem Calls.not_pushing (h : Calls cfg s γ) (hs : s.still) (k : Nat) (t : Tid) :
    s.use k ≠ .pushing t := by
  intro hu
  obtain ⟨h', v, -, hc⟩ := h.pusher k t hu
  exact hs t h' v hc

theorem Move.folds {g' : Place V Tid} {r : Resp a} (hm : Move cfg g a r g')
    (h : g.folding = true) : a.folds = true := by
  cases hm with
  | reclaim hm => cases hm <;> first | rfl | cases h
  | wake hm =>
    cases hm with
    | lock k | send k => cases k <;> cases h
    | notify k | unlock k => cases h
  | life hm | register hm | scan hm | drain hm | push hm | clear hm | park hm => cases hm <;> cases h

theorem Place.inside_of_folding (h : g.folding = true) : g.inside := by
  cases g with
  | reclaims p l => trivial
  | _ => cases h

/-- A consumer that is not in the middle of a fold. -/
theorem not_folding {next : Tid → Option (Act V Tid)} (hc : Calls cfg s γ)
    (hact : ∀ t, (γ t).inside → ∃ a, next t = some a ∧ ∀ r, ∃ g', Move cfg (γ t) a r g')
    (h : ¬ s.midFold next) (t : Tid) : (γ t).folding = false := by
  cases hf : (γ t).folding with
  | false => rfl
  | true =>
    obtain ⟨a, hat, hmove⟩ := hact t (Place.inside_of_folding hf)
    obtain ⟨g', hm⟩ := hmove (reply cfg 0 s a)
    exact absurd ⟨t, a, hc.consume (Place.folding_role hf), hat, hm.folds hf⟩ h

/-- Outside a fold, `stats` has what the pushes have counted. -/
theorem Counts.total_eq (h : Counts cfg s γ) (hf : ∀ t, (γ t).folding = false) (m : Meter) :
    s.total cfg m = s.counted m := by
  have hzero : ∀ f : Place V Tid → Nat, (∀ g, g.folding = false → f g = 0) →
      s.atConsumer γ f = 0 := by
    intro f h0
    unfold State.atConsumer
    cases s.consumer with
    | none => rfl
    | some t => exact h0 _ (hf t)
  have := h.balance m
  rwa [hzero _ fun g hg => Place.lent_of hg m, hzero _ fun g hg => Place.twice_of hg m,
    Nat.add_zero, Nat.add_zero] at this

/-- Between the pushes, each has been counted, or refused. -/
theorem Tallies.sums (h : Tallies s γ) (hidle : ∀ k t, s.use k ≠ .pushing t) :
    s.counted .pushed = s.accepted ∧ s.counted .dropped + s.refused = s.rejected ∧
      s.begun = s.accepted + s.rejected := by
  refine ⟨?_, ?_, ?_⟩
  · exact sumTo_congr fun k _ => (h.still k (hidle k)).credited
  · unfold State.counted State.refused
    rw [← sumTo_add]
    exact sumTo_congr fun k _ => (h.still k (hidle k)).debited
  · unfold State.accepted State.rejected
    rw [← sumTo_add]
    exact sumTo_congr fun k _ => (h.still k (hidle k)).begun

/-- What has left the rings was accepted. -/
theorem Order.out_le (h : Order s γ) (hidle : ∀ k t, s.use k ≠ .pushing t) :
    s.out.length ≤ s.accepted := by
  have hlt : ∀ x ∈ s.out, x.handle.serial < s.handles.length := by
    intro x hx
    obtain ⟨hlt, -⟩ := List.getElem?_eq_some_iff.mp (h.own _ x (h.of_out hx)).1
    exact hlt
  rw [← sumTo_filter (fun x : Item V Tid => x.handle.serial) hlt]
  refine sumTo_le fun k hk => ?_
  have hget : s.handles[k]? = some s.handles[k] := List.getElem?_eq_getElem hk
  rw [← h.still k _ hget (hidle k)]
  exact (h.delivered_told hget).length_le

theorem State.total_pushed : s.total cfg .pushed = s.pushedTotal cfg := rfl

theorem State.total_dropped : s.total cfg .dropped = s.droppedTotal cfg := rfl

end

/-- While no push is on its way, and the consumer is not in the middle of a fold:
`pushed` is the number of pushes that returned true, over all handles there have
been; `dropped`, of those that returned false, but for those that found the
pipeline not accepting; and `consumed`, of the events taken from the rings, but
for those of the `drain_ring` in progress. -/
theorem stats_balance {x : System.Config (drawing V Tid cfg)}
    (hx : (drawing V Tid cfg).Reachable x) (hs : x.state.1.still)
    (hf : ¬ x.state.1.midFold (System.next x)) :
    x.state.1.pushedTotal cfg = x.state.1.accepted ∧
      x.state.1.droppedTotal cfg + x.state.1.refused = x.state.1.rejected ∧
      x.state.1.consumed + x.state.2 = x.state.1.out.length ∧
      x.state.1.consumed ≤ x.state.1.pushedTotal cfg := by
  obtain ⟨γ, hγ, hst⟩ := (follows V Tid cfg).client.stands hx.reachableIf
  have hc := (calls_keeps V Tid cfg _).reach hγ.of_client
  have hidle := hc.not_pushing hs
  have hplace := not_folding hc (fun t ht => by
    obtain ⟨h1, h2, h3⟩ := ht.acts cfg
    obtain ⟨a, hat, hm⟩ := (hst t).act h1 h2 h3
    exact ⟨a, System.atOp_iff.mp hat, hm⟩) hf
  have htotal := ((counts_keeps V Tid cfg _).reach hγ.of_client).total_eq hplace
  obtain ⟨hp, hd, -⟩ := ((tallies_keeps V Tid cfg _).reach hγ.of_client).sums hidle
  have hout := ((order_keeps V Tid cfg _).reach hγ.of_client).out_le hidle
  have htaken := ((drawn_keeps V Tid cfg _).reach hγ).taken
  rw [← State.total_pushed, ← State.total_dropped, htotal, htotal]
  refine ⟨hp, hd, htaken, ?_⟩
  calc x.state.1.consumed ≤ x.state.1.consumed + x.state.2 := Nat.le_add_right _ _
    _ = x.state.1.out.length := htaken
    _ ≤ x.state.1.accepted := hout
    _ = _ := hp.symm

/-- While no push is on its way, and the consumer is not in the middle of a fold,
`pushed` and `dropped` miss those calls of `push`, in every port, that found the
pipeline not accepting, and no other: they add up to the calls if and only if
there was none such. -/
theorem counted_iff_accepting {x : System.Config (pipeline V Tid cfg)}
    (hx : (pipeline V Tid cfg).Reachable x) (hs : x.state.still)
    (hf : ¬ x.state.midFold (System.next x)) :
    x.state.pushedTotal cfg + x.state.droppedTotal cfg + x.state.refused = x.state.begun ∧
      (x.state.pushedTotal cfg + x.state.droppedTotal cfg = x.state.begun ↔
        x.state.refused = 0) := by
  obtain ⟨γ, hγ, hst⟩ := (follows V Tid cfg).stands hx.reachableIf
  have hc := (calls_keeps V Tid cfg _).reach hγ
  have hplace := not_folding hc (fun t ht => by
    obtain ⟨a, hat, hm⟩ := inside_acts (hst t) ht
    exact ⟨a, System.atOp_iff.mp hat, hm⟩) hf
  have htotal := ((counts_keeps V Tid cfg _).reach hγ).total_eq hplace
  obtain ⟨hp, hd, hb⟩ := ((tallies_keeps V Tid cfg _).reach hγ).sums (hc.not_pushing hs)
  rw [← State.total_pushed, ← State.total_dropped, htotal, htotal]
  have hsum : x.state.counted .pushed + x.state.counted .dropped + x.state.refused =
      x.state.begun := by omega
  exact ⟨hsum, by omega⟩

end

/-! ## Three threads -/

/-- No thread is in a call but the consumer's, and none is to fold. -/
def atRest (s : State Nat (Fin 3)) (next : Fin 3 → Option (Act Nat (Fin 3))) : Bool :=
  decide (∀ t, s.inCall t = none ∨ s.inCall t = some .consume) &&
    decide (∀ t, (next t).all (fun a => !a.folds) = true)

theorem atRest_spec {s : State Nat (Fin 3)} {next : Fin 3 → Option (Act Nat (Fin 3))}
    (h : atRest s next = true) : s.still ∧ ¬ s.midFold next := by
  unfold atRest at h
  rw [Bool.and_eq_true, decide_eq_true_eq, decide_eq_true_eq] at h
  obtain ⟨hcall, hnext⟩ := h
  constructor
  · intro t k v ht
    obtain h | h := hcall t <;> rw [ht] at h <;> cases h
  · rintro ⟨t, a, -, ha, hf⟩
    have := hnext t
    rw [ha, Option.all_some, hf] at this
    cases this

/-- A handle pushes and retires, its slot is reclaimed and registered again, and
the next handle pushes there. -/
def pushesTwice : List (System.Label (drawing Nat (Fin 3) (.standard .cpp .bitmap))) :=
  (does (.standard .cpp .bitmap) (0 : Fin 3) .start 4 ++ does _ 1 .register 5 ++
    does _ 1 (.push ⟨0, 0⟩ 7) 14 ++ does _ 1 (.retire ⟨0, 0⟩) 7 ++ does _ 2 .consume 64 ++
    does _ 1 .register 5 ++ does _ 1 (.push ⟨1, 0⟩ 8) 14).map .client

theorem stats_balance_two :
    ∃ x : System.Config (drawing Nat (Fin 3) (.standard .cpp .bitmap)),
      System.Reachable _ x ∧ x.state.1.retiredPushed = 1 ∧ x.state.1.accepted = 2 ∧
        x.state.1.pushedTotal (.standard .cpp .bitmap) = x.state.1.accepted := by
  obtain ⟨x, hx, hp⟩ := System.reachable_of_test pushesTwice
    (fun x => atRest x.state.1 (System.next x) &&
      decide (x.state.1.retiredPushed = 1 ∧ x.state.1.accepted = 2)) (by decide +kernel)
  rw [Bool.and_eq_true, decide_eq_true_eq] at hp
  obtain ⟨hs, hf⟩ := atRest_spec hp.1
  exact ⟨x, hx, hp.2.1, hp.2.2, (stats_balance hx hs hf).1⟩

/-- A push returns false before the pipeline is started. -/
def pushesEarly : List (System.Label (three .go)) :=
  does _ 1 .register 7 ++ does _ 1 (.push ⟨0, 0⟩ 7) 2

/-- It is in neither count. -/
theorem counted_iff_accepting_early : ∃ x : System.Config (three .go), (three .go).Reachable x ∧
    x.state.still ∧ x.state.begun = 1 ∧ x.state.rejected = 1 ∧
      x.state.pushedTotal (.standard .go .bitmap) + x.state.droppedTotal (.standard .go .bitmap) =
        0 := by
  obtain ⟨x, hx, hp⟩ := System.reachable_of_test pushesEarly
    (fun x => atRest x.state (System.next x) &&
      decide (x.state.begun = 1 ∧ x.state.rejected = 1 ∧ x.state.refused = 1)) (by decide +kernel)
  rw [Bool.and_eq_true, decide_eq_true_eq] at hp
  obtain ⟨hrest, hb, hr, hrefused⟩ := hp
  obtain ⟨hs, hf⟩ := atRest_spec hrest
  have hsum := (counted_iff_accepting hx hs hf).1
  exact ⟨x, hx, hs, hb, hr, by omega⟩

end Katas.Weir.Pipeline
