import Katas.Core.Log
import Katas.Turnstile.Driver
import Katas.Turnstile.Go.ChanFifo
import Mathlib.Data.List.FinRange

/-!
# A run of the driver over the channel queue

The producers push the events that they number, each consumer pops until it is
told that the queue is drained, and the driver shuts the queue and says when the
producers are done. `Ran` is what the goroutines of such a run have seen of their
calls. However these were interleaved, each accepted event was consumed once, by
one consumer, and `CheckRun` finds no fault but that a producer did not finish.
-/
namespace Katas.Turnstile.Driver
open Katas.Conc Katas.Turnstile Katas.Turnstile.Chan

/-! ## The goroutines -/

inductive Worker (P C : Nat) where
  | producer (i : Fin P)
  | consumer (i : Fin C)
  | main
  deriving DecidableEq, Repr

/-- mirrors mpmc-work-queue-kata/go/internal/bench/driver.go:27-33 -/
inductive Mode where
  | Block
  | Reject
  | Mixed
  deriving DecidableEq, Repr

/-- Does the producer push without waiting?
mirrors mpmc-work-queue-kata/go/internal/bench/driver.go:181-187 -/
def Mode.rejects (m : Mode) (id : Nat) : Bool :=
  match m with
  | Block => false
  | Reject => true
  | Mixed => id % 2 != 1

/-- What of the run's specification decides which calls are made.
mirrors mpmc-work-queue-kata/go/internal/bench/driver.go:45-69 -/
structure Spec where
  Producers : Nat
  Consumers : Nat
  Events : Nat
  paced : Bool
  mode : Mode

/-- The push of an event, at the clock's reading `t0`.
mirrors mpmc-work-queue-kata/go/internal/bench/driver.go:192-201 -/
def pushTimed (m : Mode) (id : Nat) (seq : UInt32) (t0 : UInt64) : Chan.Call Event :=
  let e := makeEvent (.ofNat id) seq t0
  if m.rejects id then .tryPush e else .push e

/-- What a producer does, by what its pushes are answered. -/
def Spec.load (s : Spec) (answers : List (Push × UInt64)) : Load :=
  if s.paced then .paced answers else .saturated 1 s.Events (answers.map fun a => .one a.1 a.2)

/-- The event that a call has put into the queue. -/
def pushedBy : Chan.Call Event × Chan.Result Event → Option Event
  | (.tryPush e, .push .ok) | (.push e, .push .ok) => some e
  | _ => none

/-- The event that a call has taken. -/
def poppedBy : Chan.Call Event × Chan.Result Event → Option Event
  | (_, .pop (.ok e)) => some e
  | _ => none

/-- A producer's push, and how it ended. -/
def Pushes (m : Mode) (id : Nat) (x : Chan.Call Event × Chan.Result Event) (a : Attempt) : Prop :=
  ∃ t0, x = (pushTimed m id a.seq t0, .push a.ended)

abbrev runQueue (s : Spec) (cfg : Chan.Config) : System :=
  queue Event (Worker s.Producers s.Consumers) cfg

/-- What a goroutine has seen of its calls. -/
abbrev seenBy {s : Spec} {cfg : Chan.Config} (es : List (Conc.Event (runQueue s cfg)))
    (w : Worker s.Producers s.Consumers) : View (runQueue s cfg) :=
  view (Y := runQueue s cfg) w es

/-- What the goroutines have seen when all calls have returned. -/
structure Ran (s : Spec) (cfg : Chan.Config) (es : List (Conc.Event (runQueue s cfg)))
    (answers : Fin s.Producers → List (Push × UInt64)) (handed : Fin s.Consumers → List Event) :
    Prop where
  returned : ∀ w, (seenBy es w).asked = none
  produced : ∀ i : Fin s.Producers, List.Forall₂ (Pushes s.mode i) (seenBy es (.producer i)).told
    (s.load (answers i)).attempts
  consumed : ∀ i, ∃ pops, (seenBy es (.consumer i)).told = pops ++ [(.pop, .pop .drained)] ∧
    (∀ x ∈ pops, x.1 = .pop ∧ x.2 ≠ .pop .drained) ∧ handed i = pops.filterMap poppedBy
  closed : ∃ backlog, (seenBy es .main).told =
    [(.occupancy, .occupancy backlog), (.close, .closed), (.producersDone, .producersDone)]

def Spec.run (s : Spec) (answers : Fin s.Producers → List (Push × UInt64))
    (handed : Fin s.Consumers → List Event) : Run :=
  ⟨List.ofFn fun i => s.load (answers i), List.ofFn handed⟩

/-! ## The numbers of the events -/

theorem seq_attempts (quota i : Nat) (l : List (Push × UInt64)) : ∃ k ≤ l.length,
    (attempts 1 quota i (l.map fun a => .one a.1 a.2)).map Attempt.seq =
      (List.range' i k).map UInt32.ofNat := by
  induction l generalizing i with
  | nil => exact ⟨0, Nat.le_refl 0, rfl⟩
  | cons a l ih =>
    rw [List.map_cons]
    unfold attempts
    by_cases hi : i < quota
    · rw [if_pos hi]
      dsimp only
      by_cases hc : a.1 = .closed
      · rw [if_pos hc]
        exact ⟨1, Nat.succ_le_succ (Nat.zero_le _), rfl⟩
      · rw [if_neg hc, List.map_cons]
        obtain ⟨k, hk, hs⟩ := ih (i + 1)
        refine ⟨k + 1, Nat.succ_le_succ hk, ?_⟩
        rw [hs, List.range'_succ, List.map_cons]
    · rw [if_neg hi]
      exact ⟨0, Nat.zero_le _, rfl⟩

theorem seq_paced (i : Nat) (l : List (Push × UInt64)) : ∃ k ≤ l.length,
    (paced (.ofNat i) l).map Attempt.seq = (List.range' i k).map UInt32.ofNat := by
  induction l generalizing i with
  | nil => exact ⟨0, Nat.le_refl 0, rfl⟩
  | cons a l ih =>
    obtain ⟨r, now⟩ := a
    unfold paced
    by_cases hc : r = .closed
    · rw [if_pos hc]
      exact ⟨1, Nat.succ_le_succ (Nat.zero_le _), rfl⟩
    · rw [if_neg hc, List.map_cons]
      have hsucc : UInt32.ofNat i + 1 = .ofNat (i + 1) := (UInt32.ofNat_add i 1).symm
      obtain ⟨k, hk, hs⟩ := ih (i + 1)
      refine ⟨k + 1, Nat.succ_le_succ hk, ?_⟩
      rw [hsucc, hs, List.range'_succ, List.map_cons]

/-- A producer numbers its events upwards. -/
theorem Spec.load_rising (s : Spec) {l : List (Push × UInt64)} (hl : l.length ≤ 2 ^ 32) :
    ((s.load l).attempts.map Attempt.seq).Pairwise (· < ·) := by
  have hseq : ∃ k ≤ l.length,
      (s.load l).attempts.map Attempt.seq = (List.range' 0 k).map UInt32.ofNat := by
    unfold load
    split
    · exact seq_paced 0 l
    · exact seq_attempts _ 0 l
  obtain ⟨k, hk, hs⟩ := hseq
  rw [hs, List.pairwise_map]
  refine (List.pairwise_lt_range' (s := 0) (n := k)).imp_of_mem ?_
  intro a b ha hb hab
  have hb : b < k := by simpa using List.mem_range'_1.mp hb
  rw [UInt32.lt_iff_toNat_lt, UInt32.toNat_ofNat', UInt32.toNat_ofNat', Nat.mod_eq_of_lt (by omega),
    Nat.mod_eq_of_lt (by omega)]
  exact hab

/-! ## What a producer's pushes put into the queue -/

variable {m : Mode} {id : Nat} {x : Chan.Call Event × Chan.Result Event} {a : Attempt}

theorem Pushes.popped (h : Pushes m id x a) : poppedBy x = none := by
  obtain ⟨t0, rfl⟩ := h
  rfl

theorem Pushes.pushed (h : Pushes m id x a) :
    pushedBy x = none ∧ a.ended ≠ .ok ∨
      ∃ t0, pushedBy x = some (makeEvent (.ofNat id) a.seq t0) ∧ a.ended = .ok := by
  obtain ⟨t0, rfl⟩ := h
  obtain ⟨seq, ended, now⟩ := a
  unfold pushTimed
  dsimp only
  cases ended with
  | ok => exact .inr ⟨t0, by split <;> rfl, rfl⟩
  | full | timeout | closed => exact .inl ⟨by split <;> rfl, fun h => by cases h⟩

/-- They are the accepted ones, in their order. -/
theorem ids_pushed {l : List (Chan.Call Event × Chan.Result Event)} {as : List Attempt}
    (h : List.Forall₂ (Pushes m id) l as) :
    (l.filterMap pushedBy).map (fun e => (e.producer, e.seq)) = taken (.ofNat id) as := by
  induction h with
  | nil => rfl
  | @cons x a l as hx _ ih =>
    unfold taken at ih ⊢
    rcases hx.pushed with ⟨hp, hne⟩ | ⟨t0, hp, he⟩
    · rw [List.filterMap_cons_none hp, List.filter_cons_of_neg (by simpa using hne), ih]
    · rw [List.filterMap_cons_some hp, List.filter_cons_of_pos (by simpa using he), List.map_cons,
        List.map_cons, ih]
      rfl

theorem rising_pushed {l : List (Chan.Call Event × Chan.Result Event)} {as : List Attempt}
    (h : List.Forall₂ (Pushes m id) l as) (hr : (as.map Attempt.seq).Pairwise (· < ·)) :
    (l.filterMap pushedBy).Pairwise fun x y => x.seq < y.seq := by
  have hseq : (l.filterMap pushedBy).map Event.seq = (taken (.ofNat id) as).map Prod.snd := by
    rw [← ids_pushed h, List.map_map]
    rfl
  rw [← List.pairwise_map (f := Event.seq) (R := (· < ·)), hseq]
  unfold taken
  rw [List.map_map]
  exact hr.sublist ((List.filter_sublist).map _)

theorem pushes_of_mem {l : List (Chan.Call Event × Chan.Result Event)} {as : List Attempt}
    (h : List.Forall₂ (Pushes m id) l as) (hx : x ∈ l) : ∃ a, Pushes m id x a := by
  induction h with
  | nil => exact absurd hx List.not_mem_nil
  | @cons y a l as hy _ ih =>
    obtain rfl | hx := List.mem_cons.mp hx
    · exact ⟨a, hy⟩
    · exact ih hx

theorem mem_pushed {l : List (Chan.Call Event × Chan.Result Event)} {as : List Attempt}
    (h : List.Forall₂ (Pushes m id) l as) (hx : x ∈ l) {e : Event} (he : pushedBy x = some e) :
    ∃ seq t0, e = makeEvent (.ofNat id) seq t0 := by
  obtain ⟨a, hp⟩ := pushes_of_mem h hx
  rcases hp.pushed with ⟨hn, -⟩ | ⟨t0, hs, -⟩
  · rw [hn] at he
    cases he
  · rw [hs] at he
    exact ⟨a.seq, t0, (Option.some.inj he).symm⟩

/-! ## The channel queue as a queue -/

section
variable {Tid : Type} [DecidableEq Tid] {cfg : Chan.Config} {t : Tid} {c : Chan.Call Event}
  {r : Chan.Result Event} {q q' : Fifo Event}

/-- A call appends, takes, or leaves the list alone. -/
theorem does_cases (h : (fifo Event Tid cfg).does t c r q q') :
    (∃ e, pushedBy (c, r) = some e ∧ poppedBy (c, r) = none ∧ q.ended = false ∧
        q' = { q with items := q.items ++ [e] }) ∨
      (∃ e, pushedBy (c, r) = none ∧ poppedBy (c, r) = some e ∧ q.items = e :: q'.items ∧
        q'.ended = q.ended) ∨
      (pushedBy (c, r) = none ∧ poppedBy (c, r) = none ∧ q'.items = q.items ∧
        (q.ended = true → q'.ended = true) ∧
        (r = .pop .drained → q'.items = [] ∧ q'.ended = true)) := by
  unfold fifo at h
  dsimp only at h
  split at h
  · obtain ⟨-, he, rfl⟩ := h
    exact .inl ⟨_, rfl, rfl, he, rfl⟩
  · obtain ⟨-, he, rfl⟩ := h
    exact .inl ⟨_, rfl, rfl, he, rfl⟩
  · obtain ⟨-, rfl⟩ := h
    exact .inr (.inr ⟨rfl, rfl, rfl, id, fun h => by cases h⟩)
  · obtain ⟨-, rfl⟩ := h
    exact .inr (.inr ⟨rfl, rfl, rfl, id, fun h => by cases h⟩)
  · obtain ⟨-, -, rfl⟩ := h
    exact .inr (.inr ⟨rfl, rfl, rfl, id, fun h => by cases h⟩)
  · obtain ⟨-, rfl⟩ := h
    exact .inr (.inr ⟨rfl, rfl, rfl, id, fun h => by cases h⟩)
  · exact .inr (.inl ⟨_, rfl, rfl, h.1, by rw [h.2]⟩)
  · exact .inr (.inl ⟨_, rfl, rfl, h.1, by rw [h.2]⟩)
  · obtain ⟨hnil, he, rfl⟩ := h
    exact .inr (.inr ⟨rfl, rfl, rfl, id, fun _ => ⟨hnil, he⟩⟩)
  · obtain ⟨hnil, he, rfl⟩ := h
    exact .inr (.inr ⟨rfl, rfl, rfl, id, fun _ => ⟨hnil, he⟩⟩)
  · obtain ⟨-, -, rfl⟩ := h
    exact .inr (.inr ⟨rfl, rfl, rfl, id, fun h => by cases h⟩)
  · subst h
    exact .inr (.inr ⟨rfl, rfl, rfl, id, fun h => by cases h⟩)
  · subst h
    exact .inr (.inr ⟨rfl, rfl, rfl, fun _ => rfl, fun h => by cases h⟩)
  · obtain ⟨-, rfl⟩ := h
    exact .inr (.inr ⟨rfl, rfl, rfl, id, fun h => by cases h⟩)
  · obtain ⟨-, rfl⟩ := h
    exact .inr (.inr ⟨rfl, rfl, rfl, id, fun h => by cases h⟩)
  · exact absurd h id

variable (Tid cfg) in
def isQueue : (fifo Event Tid cfg).IsQueue Event where
  items := Fifo.items
  ended := fun q => q.ended = true
  pushed := pushedBy
  popped := poppedBy
  drained := fun x => x.2 = .pop .drained
  init := rfl
  does := by
    intro t c r q q' h
    obtain ⟨e, hp, hn, -, rfl⟩ | ⟨e, hn, hp, hi, -⟩ | ⟨hn, hp, hi, -⟩ := does_cases h
    · rw [hp, hn]
      rfl
    · rw [hp, hn, hi]
      exact List.append_nil _
    · rw [hp, hn, hi]
      exact List.append_nil _
  closed := by
    intro t c r q q' h he
    obtain ⟨e, -, -, ho, -⟩ | ⟨e, hn, -, -, hs⟩ | ⟨hn, -, -, hs, -⟩ := does_cases h
    · exact absurd (he.symm.trans ho) Bool.noConfusion
    · exact ⟨hs.trans he, hn⟩
    · exact ⟨hs he, hn⟩
  empty := by
    intro t c r q q' h hd
    obtain ⟨e, hp, -⟩ | ⟨e, -, hp, -⟩ | ⟨-, -, -, -, hs⟩ := does_cases h
    · have hd : r = .pop .drained := hd
      subst hd
      cases c <;> cases hp
    · have hd : r = .pop .drained := hd
      subst hd
      cases hp
    · exact hs hd

end

/-! ## The run -/

variable {s : Spec} {cfg : Chan.Config} {es : List (Conc.Event (runQueue s cfg))}
  {answers : Fin s.Producers → List (Push × UInt64)} {handed : Fin s.Consumers → List Event}

/-- Only producers put events into the queue, and their own. -/
theorem Ran.pushes (h : Ran s cfg es answers handed) {w : Worker s.Producers s.Consumers}
    {x : Chan.Call Event × Chan.Result Event} (hx : x ∈ (seenBy es w).told) {e : Event}
    (he : pushedBy x = some e) :
    ∃ i, w = .producer i ∧ ∃ seq t0, e = makeEvent (.ofNat i) seq t0 := by
  cases w with
  | producer i => exact ⟨i, rfl, mem_pushed (h.produced i) hx he⟩
  | consumer i =>
    obtain ⟨pops, htold, hpops, -⟩ := h.consumed i
    have hpop : x.1 = .pop := by
      rw [htold, List.mem_append, List.mem_singleton] at hx
      obtain hx | rfl := hx
      · exact (hpops x hx).1
      · rfl
    obtain ⟨c, r⟩ := x
    dsimp only at hpop
    subst hpop
    cases he
  | main =>
    obtain ⟨backlog, htold⟩ := h.closed
    rw [htold] at hx
    simp only [List.mem_cons, List.not_mem_nil, or_false] at hx
    obtain rfl | rfl | rfl := hx <;> cases he

/-- Only consumers take events out. -/
theorem Ran.pops (h : Ran s cfg es answers handed) {w : Worker s.Producers s.Consumers}
    {x : Chan.Call Event × Chan.Result Event} (hx : x ∈ (seenBy es w).told)
    (he : poppedBy x ≠ none) : ∃ i, w = .consumer i := by
  cases w with
  | producer i =>
    obtain ⟨a, hp⟩ := pushes_of_mem (h.produced i) hx
    exact absurd hp.popped he
  | consumer i => exact ⟨i, rfl⟩
  | main =>
    obtain ⟨backlog, htold⟩ := h.closed
    rw [htold] at hx
    simp only [List.mem_cons, List.not_mem_nil, or_false] at hx
    obtain rfl | rfl | rfl := hx <;> exact absurd rfl he

theorem Ran.handed_eq (h : Ran s cfg es answers handed) (i : Fin s.Consumers) :
    ((seenBy es (.consumer i)).told).filterMap poppedBy = handed i := by
  obtain ⟨pops, htold, -, hh⟩ := h.consumed i
  rw [htold, List.filterMap_append, hh]
  exact List.append_nil _

/-- The calls in the order in which the queue did them. -/
theorem Ran.log (h : Ran s cfg es answers handed) {x : System.Config (runQueue s cfg)}
    (hx : System.Trace es x) : ∃ ds q, (fifo Event (Worker s.Producers s.Consumers) cfg).Runs ds q ∧
      ∀ w, ofThread w ds = (seenBy es w).told := by
  obtain ⟨γ, q, st, -, -, -, htrace⟩ := follows.refines simulates hx
  obtain ⟨ds, hlog⟩ := htrace.log
  exact ⟨ds, q, hlog.runs, fun w => (hlog.told (h.returned w)).symm⟩

section
variable {ds : List (Done (runQueue s cfg))} {q : Fifo Event}

theorem Ran.told_of_mem (hds : ∀ w, ofThread w ds = (seenBy es w).told)
    {d : Done (runQueue s cfg)} (hd : d ∈ ds) : (d.call, d.result) ∈ (seenBy es d.thread).told := by
  rw [← hds]
  exact mem_ofThread.mpr ⟨d, hd, rfl, rfl⟩

/-- All that was put into the queue was taken out, in the same order. -/
theorem Ran.all_taken (h : Ran s cfg es answers handed) (hC : 0 < s.Consumers)
    (hruns : (fifo Event (Worker s.Producers s.Consumers) cfg).Runs ds q)
    (hds : ∀ w, ofThread w ds = (seenBy es w).told) :
    (isQueue (Worker s.Producers s.Consumers) cfg).allPushed ds =
      (isQueue (Worker s.Producers s.Consumers) cfg).allPopped ds := by
  refine Object.IsQueue.all_taken hruns ?_
  obtain ⟨pops, htold, -⟩ := h.consumed ⟨0, hC⟩
  have hmem : (.pop, .pop .drained) ∈ ofThread (Worker.consumer ⟨0, hC⟩) ds := by
    rw [hds, htold]
    exact List.mem_append_right _ (List.mem_singleton.mpr rfl)
  obtain ⟨d, hd, -, heq⟩ := mem_ofThread.mp hmem
  exact ⟨d, hd, congrArg Prod.snd heq⟩

/-- The events of one producer are those that it has pushed. -/
theorem Ran.of_producer (h : Ran s cfg es answers handed) (hP : s.Producers ≤ 128)
    (hds : ∀ w, ofThread w ds = (seenBy es w).told) (i : Fin s.Producers) :
    ((isQueue (Worker s.Producers s.Consumers) cfg).allPushed ds).filter
        (fun e => e.producer = .ofNat i) =
      ((seenBy es (.producer i)).told).filterMap pushedBy := by
  rw [← hds]
  refine Eq.trans ?_ (filterMap_ofThread (Y := runQueue s cfg) pushedBy (.producer i) ds).symm
  unfold Object.IsQueue.allPushed
  rw [List.filter_filterMap]
  refine List.filterMap_congr fun d hd => ?_
  show (pushedBy (d.call, d.result)).filter _ = if d.thread = .producer i then _ else none
  cases hp : pushedBy (d.call, d.result) with
  | none => split <;> rfl
  | some e =>
    obtain ⟨j, hj, seq, t0, rfl⟩ := h.pushes (told_of_mem hds hd) hp
    rw [hj]
    by_cases hij : j = i
    · subst hij
      rw [if_pos rfl]
      simp [makeEvent]
    · have hne : UInt32.ofNat j ≠ UInt32.ofNat i := by
        intro heq
        have := congrArg UInt32.toNat heq
        rw [UInt32.toNat_ofNat', UInt32.toNat_ofNat', Nat.mod_eq_of_lt (by omega),
          Nat.mod_eq_of_lt (by omega)] at this
        exact hij (Fin.ext this)
      rw [if_neg fun h => hij (by injection h)]
      simp [makeEvent, hne]

theorem pairwise_of_filter {B K : Type} [DecidableEq K] {key : B → K} {R : B → B → Prop} {l : List B}
    (h : ∀ k, (l.filter fun x => key x = k).Pairwise R) :
    l.Pairwise fun x y => key x = key y → R x y := by
  induction l with
  | nil => exact .nil
  | cons x l ih =>
    refine .cons (fun y hy hxy => ?_) (ih fun k => ?_)
    · have hx := h (key x)
      rw [List.filter_cons_of_pos (by simp)] at hx
      exact (List.pairwise_cons.mp hx).1 y (List.mem_filter.mpr ⟨hy, decide_eq_true hxy.symm⟩)
    · exact (h k).sublist ((List.sublist_cons_self x l).filter _)

/-- Each producer's events go into the queue in the order of their numbers. -/
theorem Ran.rising (h : Ran s cfg es answers handed) (hP : s.Producers ≤ 128)
    (hn : ∀ i, (answers i).length ≤ 2 ^ 32) (hds : ∀ w, ofThread w ds = (seenBy es w).told) :
    Rising ((isQueue (Worker s.Producers s.Consumers) cfg).allPushed ds) := by
  refine pairwise_of_filter fun p => ?_
  by_cases hp : ∃ i : Fin s.Producers, p = .ofNat i
  · obtain ⟨i, rfl⟩ := hp
    rw [h.of_producer hP hds i]
    exact rising_pushed (h.produced i) (s.load_rising (hn i))
  · have hnil : ((isQueue (Worker s.Producers s.Consumers) cfg).allPushed ds).filter
        (fun e => e.producer = p) = [] := by
      refine List.filter_eq_nil_iff.mpr fun e he hpe => hp ?_
      obtain ⟨d, hd, hpush⟩ := List.mem_filterMap.mp he
      obtain ⟨i, -, seq, t0, rfl⟩ := h.pushes (told_of_mem hds hd) hpush
      exact ⟨i, (of_decide_eq_true hpe).symm⟩
    rw [hnil]
    exact .nil

/-- Each consumer was handed whole events, each producer's in order. -/
theorem Ran.in_order (h : Ran s cfg es answers handed) (hP : s.Producers ≤ 128)
    (hn : ∀ i, (answers i).length ≤ 2 ^ 32)
    (hruns : (fifo Event (Worker s.Producers s.Consumers) cfg).Runs ds q)
    (hds : ∀ w, ofThread w ds = (seenBy es w).told) (i : Fin s.Consumers) : InOrder (handed i) := by
  have htaken := h.all_taken (Nat.lt_of_le_of_lt (Nat.zero_le _) i.isLt) hruns hds
  have hsub : (handed i).Sublist
      ((isQueue (Worker s.Producers s.Consumers) cfg).allPushed ds) := by
    rw [htaken, ← h.handed_eq i, ← hds]
    exact ofThread_sublist poppedBy _ ds
  refine ⟨fun e he => ?_, (h.rising hP hn hds).sublist hsub⟩
  obtain ⟨d, hd, hpush⟩ := List.mem_filterMap.mp (hsub.subset he)
  obtain ⟨j, -, seq, t0, rfl⟩ := h.pushes (told_of_mem hds hd) hpush
  unfold readable
  rw [Bool.and_eq_true, decide_eq_true_eq, decide_eq_true_eq]
  refine ⟨⟨rfl, rfl⟩, ?_⟩
  show UInt32.ofNat j < 128
  rw [UInt32.lt_iff_toNat_lt, UInt32.toNat_ofNat', Nat.mod_eq_of_lt (by omega)]
  exact Nat.lt_of_lt_of_le j.isLt hP

theorem nodup_workers {n : Nat} {W : Type} {f : Fin n → W} (hf : Function.Injective f) :
    ((List.finRange n).map f).Nodup := (List.nodup_finRange n).map hf

/-- The consumers were handed what was taken out. -/
theorem Ran.handed_perm (h : Ran s cfg es answers handed)
    (hds : ∀ w, ofThread w ds = (seenBy es w).told) :
    ((isQueue (Worker s.Producers s.Consumers) cfg).allPopped ds).Perm (List.ofFn handed).flatten := by
  have hperm := perm_ofThread (Y := runQueue s cfg) poppedBy
    (nodup_workers (f := Worker.consumer) fun i j hij => by injection hij) ds fun d hd hp => by
      obtain ⟨i, hi⟩ := h.pops (told_of_mem hds hd) hp
      rw [hi]
      exact List.mem_map_of_mem (List.mem_finRange i)
  refine hperm.trans (.of_eq ?_)
  rw [List.flatMap_map, List.ofFn_eq_map, ← List.flatMap_def]
  refine List.flatMap_congr fun i _ => ?_
  rw [hds]
  exact h.handed_eq i

/-- The accepted events are those that were put in. -/
theorem Ran.accepted_perm (h : Ran s cfg es answers handed)
    (hds : ∀ w, ofThread w ds = (seenBy es w).told) :
    (((isQueue (Worker s.Producers s.Consumers) cfg).allPushed ds).map
      fun e => (e.producer, e.seq)).Perm (s.run answers handed).accepted := by
  have hperm := perm_ofThread (Y := runQueue s cfg) pushedBy
    (nodup_workers (f := Worker.producer) fun i j hij => by injection hij) ds fun d hd hp => by
      obtain ⟨e, he⟩ := Option.ne_none_iff_exists'.mp hp
      obtain ⟨i, hi, -⟩ := h.pushes (told_of_mem hds hd) he
      rw [hi]
      exact List.mem_map_of_mem (List.mem_finRange i)
  refine (hperm.map _).trans (.of_eq ?_)
  have hacc : (s.run answers handed).accepted =
      (List.finRange s.Producers).flatMap fun i : Fin s.Producers =>
        taken (.ofNat i) (s.load (answers i)).attempts := by
    have hidx : ((List.ofFn fun i => s.load (answers i)).mapIdx fun id l =>
        taken (.ofNat id) l.attempts) =
        (List.finRange s.Producers).map fun i : Fin s.Producers =>
          taken (.ofNat i) (s.load (answers i)).attempts := by
      refine List.ext_getElem (by simp) fun i h1 h2 => ?_
      simp
    unfold Run.accepted Spec.run
    rw [hidx, ← List.flatMap_def]
  rw [hacc, List.flatMap_map, List.map_flatMap]
  refine List.flatMap_congr fun i _ => ?_
  rw [hds]
  exact ids_pushed (h.produced i)

end

/-- **Every run of the driver over the channel queue passes**, however its
goroutines are interleaved: each accepted event is consumed once, and `CheckRun`
finds at most that a producer did not finish. -/
theorem chan_run_passes {x : System.Config (runQueue s cfg)} (hx : System.Trace es x)
    (h : Ran s cfg es answers handed) (hC : 0 < s.Consumers) (hP : s.Producers ≤ 128)
    (hn : ∀ i, (answers i).length ≤ 2 ^ 32) :
    (s.run answers handed).consumed.Perm (s.run answers handed).accepted ∧
      ∀ closedEarly, CheckRun closedEarly (s.run answers handed).result =
        (closedEarly || decide ((s.run answers handed).result.producers_unfinished = 0)) := by
  obtain ⟨ds, q, hruns, hds⟩ := h.log hx
  have hperm : (s.run answers handed).consumed.Perm (s.run answers handed).accepted := by
    refine List.Perm.trans ?_ (h.accepted_perm hds)
    rw [h.all_taken hC hruns hds]
    exact ((h.handed_perm hds).map _).symm
  refine ⟨hperm, fun closedEarly => ?_⟩
  have hpass : check_run (s.run answers handed).result = true := by
    refine Run.pass _ (fun hnil => ?_) (fun l hl => ?_) (tallyOf_perm hperm).symm
    · have hlen : (List.ofFn handed).length = 0 := congrArg List.length hnil
      rw [List.length_ofFn] at hlen
      omega
    · obtain ⟨i, rfl⟩ := List.mem_ofFn.mp hl
      exact h.in_order hP hn hruns hds i
  unfold CheckRun
  rw [hpass, Bool.true_and]

/-! ## Two producers, two consumers -/

/-- Two events from each producer, and one slot. -/
abbrev twoEach : Spec := ⟨2, 2, 2, false, .Reject⟩

abbrev oneSlot : Chan.Config := ⟨1, Nat.one_pos, .fast⟩

/-- `w` does `n` steps. -/
def steps (w : Worker 2 2) (n : Nat) : List (System.Label (runQueue twoEach oneSlot)) :=
  List.replicate n (.step w 0)

/-- `w` makes the call `c`, which takes `n` steps. -/
def turn (w : Worker 2 2) (c : Chan.Call Event) (n : Nat) :
    List (System.Label (runQueue twoEach oneSlot)) :=
  .invoke w c :: steps w n

/-- A consumer waits for the first event, a push finds the channel full, and one
is let in by a pop that comes between its steps. -/
def crossing : List (System.Label (runQueue twoEach oneSlot)) :=
  .invoke (.consumer 1) .pop :: turn (.producer 0) (.tryPush (makeEvent 0 0 4)) 3 ++
    turn (.producer 1) (.tryPush (makeEvent 1 0 5)) 3 ++ steps (.consumer 1) 2 ++
    .invoke (.producer 0) (.tryPush (makeEvent 0 1 6)) ::
      turn (.producer 1) (.tryPush (makeEvent 1 1 7)) 3 ++
    turn (.consumer 0) .pop 2 ++ steps (.producer 0) 3 ++ turn .main .occupancy 2 ++
    turn .main .close 3 ++ turn .main .producersDone 2 ++ turn (.consumer 0) .pop 2 ++
    turn (.consumer 0) .pop 2 ++ turn (.consumer 1) .pop 2

/-- What the producers are answered, with the time. -/
def crossed (i : Fin 2) : List (Push × UInt64) :=
  if i = 0 then [(.ok, 8), (.ok, 9)] else [(.full, 8), (.ok, 9)]

/-- What the consumers are given. -/
def given (i : Fin 2) : List Event :=
  if i = 0 then [makeEvent 1 1 7, makeEvent 0 1 6] else [makeEvent 0 0 4]

theorem crossing_ran : ∃ es x, System.Trace (Y := runQueue twoEach oneSlot) es x ∧
    Ran twoEach oneSlot es crossed given := by
  obtain ⟨es, x, hx, hp⟩ := System.trace_of_test crossing (fun es =>
    decide (((seenBy es (.producer 0)).asked = none ∧ (seenBy es (.producer 1)).asked = none ∧
        (seenBy es (.consumer 0)).asked = none ∧ (seenBy es (.consumer 1)).asked = none ∧
        (seenBy es .main).asked = none) ∧
      (seenBy es (.producer 0)).told = [(.tryPush (makeEvent 0 0 4), .push .ok),
        (.tryPush (makeEvent 0 1 6), .push .ok)] ∧
      (seenBy es (.producer 1)).told = [(.tryPush (makeEvent 1 0 5), .push .full),
        (.tryPush (makeEvent 1 1 7), .push .ok)] ∧
      (seenBy es (.consumer 0)).told = [(.pop, .pop (.ok (makeEvent 1 1 7))),
        (.pop, .pop (.ok (makeEvent 0 1 6))), (.pop, .pop .drained)] ∧
      (seenBy es (.consumer 1)).told = [(.pop, .pop (.ok (makeEvent 0 0 4))),
        (.pop, .pop .drained)] ∧
      (seenBy es .main).told =
        [(.occupancy, .occupancy 1), (.close, .closed), (.producersDone, .producersDone)]))
    (by decide +kernel)
  obtain ⟨⟨ha0, ha1, hb0, hb1, hm⟩, hp0, hp1, hc0, hc1, hmain⟩ := of_decide_eq_true hp
  refine ⟨es, x, hx, ⟨fun w => ?_, fun i => ?_, fun i => ?_, 1, hmain⟩⟩
  · match w with
    | .producer 0 => exact ha0
    | .producer 1 => exact ha1
    | .consumer 0 => exact hb0
    | .consumer 1 => exact hb1
    | .main => exact hm
  · match i with
    | 0 =>
      rw [hp0]
      exact .cons ⟨4, rfl⟩ (.cons ⟨6, rfl⟩ .nil)
    | 1 =>
      rw [hp1]
      exact .cons ⟨5, rfl⟩ (.cons ⟨7, rfl⟩ .nil)
  · match i with
    | 0 =>
      refine ⟨[(.pop, .pop (.ok (makeEvent 1 1 7))), (.pop, .pop (.ok (makeEvent 0 1 6)))], hc0, ?_, rfl⟩
      simp
    | 1 =>
      refine ⟨[(.pop, .pop (.ok (makeEvent 0 0 4)))], hc1, ?_, rfl⟩
      simp

theorem chan_run_passes_two :
    (twoEach.run crossed given).consumed.Perm (twoEach.run crossed given).accepted ∧
    (twoEach.run crossed given).accepted = [(0, 0), (0, 1), (1, 1)] ∧
    CheckRun false (twoEach.run crossed given).result = true := by
  obtain ⟨es, x, hx, hran⟩ := crossing_ran
  obtain ⟨hperm, hpass⟩ := chan_run_passes hx hran (by decide) (by decide) fun i => by
    revert i
    decide
  exact ⟨hperm, by decide +kernel, (hpass false).trans (by decide +kernel)⟩

end Katas.Turnstile.Driver
