import Katas.Turnstile.Api
import Katas.Turnstile.Event
import Mathlib.Algebra.Order.BigOperators.Group.List
import Mathlib.Algebra.Order.Ring.Nat

/-!
# The driver's verdict

The driver releases producers and consumers together. Each counts into its own
state, the states are merged, and the run is checked: no event was torn, each
consumer saw each producer's events in order, and the tally of what was
accepted is the tally of what was consumed.
-/
namespace Katas.Turnstile.Driver
open Katas.Turnstile Katas.Mixing

/-! ## The producers -/

/-- mirrors mpmc-work-queue-kata/cpp/bench/driver.hpp:96-104 and
go/internal/bench/driver.go:99-108 -/
structure ProducerState where
  accepted : Tally
  offered : UInt64
  rejected : UInt64
  refused_closed : UInt64
  first_full : UInt64
  finished_quota : Bool

def ProducerState.init : ProducerState := ⟨.empty, 0, 0, 0, 0, false⟩

/-- mirrors mpmc-work-queue-kata/cpp/bench/driver.hpp:157-168 and
go/internal/bench/driver.go:120-133 -/
def ProducerState.account (s : ProducerState) (r : Push) (id seq : UInt32) (now : UInt64) :
    ProducerState :=
  let s := { s with offered := s.offered + 1 }
  match r with
  | .ok => { s with accepted := s.accepted.add id seq }
  | .closed => { s with refused_closed := s.refused_closed + 1 }
  | .full | .timeout =>
    { s with rejected := s.rejected + 1
             first_full := if s.first_full = 0 then now else s.first_full }

/-- What the queue answers: to one push; or to a batch, of which it takes `got`
events, `closed k` as event `k` is accounted for, and after the last. -/
inductive Answer where
  | one (r : Push) (now : UInt64)
  | batch (got : Nat) (closed : Nat → Bool) (now : UInt64)

/-- How event `k` of a batch ended.
mirrors mpmc-work-queue-kata/cpp/bench/driver.hpp:251-253 -/
def ofBatch (got : Nat) (closed : Nat → Bool) (k : Nat) : Push :=
  if k < got then .ok else if closed k then .closed else .timeout

/-- The loop of a saturated producer, from event `i`.
mirrors mpmc-work-queue-kata/cpp/bench/driver.hpp:240-262 and
go/internal/bench/driver.go:220-227 -/
def pushLoop (pid : UInt32) (batch quota : Nat) : Nat → List Answer → ProducerState → ProducerState
  | _, [], s => s
  | i, a :: rest, s =>
    if i < quota then
      match a with
      | .one r now =>
        let s := s.account r pid (.ofNat i) now
        if r = .closed then s else pushLoop pid batch quota (i + 1) rest s
      | .batch got closed now =>
        let n := min batch (quota - i)
        let s := (List.range n).foldl
          (fun s k => s.account (ofBatch got closed k) pid (.ofNat (i + k)) now) s
        if got < n ∧ closed n then s else pushLoop pid batch quota (i + n) rest s
    else s

/-- A saturated producer; without `events` it pushes until the queue refuses.
mirrors mpmc-work-queue-kata/cpp/bench/driver.hpp:238-263 and
go/internal/bench/driver.go:215-228 -/
def saturate (pid : UInt32) (batch events : Nat) (answers : List Answer) : ProducerState :=
  let quota := if events = 0 then 2 ^ 32 - 1 else events
  let s := pushLoop pid batch quota 0 answers .init
  { s with finished_quota := events ≠ 0 ∧ s.offered = .ofNat events }

/-- A paced producer, from event `seq`: what comes due it pushes, until the end
or until the queue refuses.
mirrors mpmc-work-queue-kata/cpp/bench/driver.hpp:269-287 and
go/internal/bench/driver.go:234-256 -/
def pace (pid seq : UInt32) : List (Push × UInt64) → ProducerState → ProducerState
  | [], s => { s with finished_quota := true }
  | (r, now) :: rest, s =>
    let s := s.account r pid seq now
    if r = .closed then { s with finished_quota := false } else pace pid (seq + 1) rest s

/-- What a producer does, and what the queue answers. -/
inductive Load where
  | saturated (batch events : Nat) (answers : List Answer)
  | paced (answers : List (Push × UInt64))

def Load.produce (pid : UInt32) : Load → ProducerState
  | saturated batch events answers => saturate pid batch events answers
  | paced answers => pace pid 0 answers .init

/-! ## The consumers -/

/-- mirrors mpmc-work-queue-kata/cpp/bench/driver.hpp:106-112 and
go/internal/bench/driver.go:110-118 -/
structure ConsumerState where
  consumed : Tally
  torn : UInt64
  disorder : UInt64
  last_seq : UInt32 → Int

def ConsumerState.init : ConsumerState := ⟨.empty, 0, 0, fun _ => -1⟩

/-- What the order check can follow: `last_seq` has 128 entries. -/
def readable (e : Event) : Bool := decide (intact e) && decide (e.producer < 128)

/-- mirrors mpmc-work-queue-kata/cpp/bench/driver.hpp:301-316 and
go/internal/bench/driver.go:286-300 -/
def ConsumerState.take (s : ConsumerState) (e : Event) : ConsumerState :=
  if readable e then
    { s with
      consumed := s.consumed.add e.producer e.seq
      disorder := if (e.seq.toNat : Int) ≤ s.last_seq e.producer then s.disorder + 1 else s.disorder
      last_seq := fun p => if p = e.producer then e.seq.toNat else s.last_seq p }
  else { s with torn := s.torn + 1 }

def consume (l : List Event) : ConsumerState := l.foldl .take .init

/-! ## The report -/

/-- mirrors mpmc-work-queue-kata/cpp/bench/driver.hpp:66-92 and
go/internal/bench/driver.go:71-97 -/
structure RunResult where
  offered : UInt64
  accepted : UInt64
  rejected : UInt64
  refused_closed : UInt64
  consumed : UInt64
  torn : UInt64
  disorder : UInt64
  exactly_once : Bool
  producers_unfinished : Nat
  producers_refused : Nat

/-- mirrors mpmc-work-queue-kata/cpp/bench/driver.hpp:364-399 and
go/internal/bench/driver.go:343-375 -/
def merge (ps : List ProducerState) (cs : List ConsumerState) : RunResult :=
  let accepted := ps.foldl (fun t s => Tally.merge t s.accepted) .empty
  let consumed := cs.foldl (fun t s => Tally.merge t s.consumed) .empty
  let torn := cs.foldl (fun n s => n + s.torn) 0
  { offered := ps.foldl (fun n s => n + s.offered) 0
    accepted := accepted.n
    rejected := ps.foldl (fun n s => n + s.rejected) 0
    refused_closed := ps.foldl (fun n s => n + s.refused_closed) 0
    consumed := consumed.n
    torn := torn
    disorder := cs.foldl (fun n s => n + s.disorder) 0
    exactly_once := 0 < cs.length && decide (accepted = consumed) && decide (torn = 0)
    producers_unfinished := ps.countP fun s => !s.finished_quota
    producers_refused := ps.countP fun s => s.rejected ≠ 0 }

/-- mirrors mpmc-work-queue-kata/cpp/bench/driver.hpp:451-458 -/
def check_run (r : RunResult) : Bool :=
  decide (r.offered = r.accepted + r.rejected + r.refused_closed) && decide (r.torn = 0) &&
    r.exactly_once && decide (r.disorder = 0)

/-- mirrors mpmc-work-queue-kata/go/internal/bench/driver.go:389-398 -/
def CheckRun (closedEarly : Bool) (r : RunResult) : Bool :=
  check_run r && (closedEarly || decide (r.producers_unfinished = 0))

/-- A run: what each producer did, and what each consumer was handed. -/
structure Run where
  loads : List Load
  handed : List (List Event)

def Run.producers (x : Run) : List ProducerState :=
  x.loads.mapIdx fun id l => l.produce (.ofNat id)

def Run.result (x : Run) : RunResult := merge x.producers (x.handed.map consume)

/-! ## What the producers are told -/

/-- An event that is pushed, and how that ended. -/
structure Attempt where
  seq : UInt32
  ended : Push
  now : UInt64

/-- The events of `pushLoop`. -/
def attempts (batch quota : Nat) : Nat → List Answer → List Attempt
  | _, [] => []
  | i, a :: rest =>
    if i < quota then
      match a with
      | .one r now =>
        ⟨.ofNat i, r, now⟩ :: if r = .closed then [] else attempts batch quota (i + 1) rest
      | .batch got closed now =>
        let n := min batch (quota - i)
        (List.range n).map (fun k => ⟨.ofNat (i + k), ofBatch got closed k, now⟩) ++
          if got < n ∧ closed n then [] else attempts batch quota (i + n) rest
    else []

/-- The events of `pace`. -/
def paced (seq : UInt32) : List (Push × UInt64) → List Attempt
  | [] => []
  | (r, now) :: rest => ⟨seq, r, now⟩ :: if r = .closed then [] else paced (seq + 1) rest

def Load.attempts : Load → List Attempt
  | saturated batch events answers =>
    Driver.attempts batch (if events = 0 then 2 ^ 32 - 1 else events) 0 answers
  | paced answers => Driver.paced 0 answers

def ProducerState.log (pid : UInt32) (s : ProducerState) (l : List Attempt) : ProducerState :=
  l.foldl (fun s a => s.account a.ended pid a.seq a.now) s

/-- What of it the queue took. -/
def taken (pid : UInt32) (l : List Attempt) : List Id :=
  (l.filter fun a => a.ended = .ok).map fun a => (pid, a.seq)

/-- All that the queue took. -/
def Run.accepted (x : Run) : List Id :=
  (x.loads.mapIdx fun id l => taken (.ofNat id) l.attempts).flatten

/-- What the consumers were handed, as the producers' identities. -/
def Run.consumed (x : Run) : List Id := x.handed.flatten.map fun e => (e.producer, e.seq)

def tallyOf (l : List Id) : Tally := l.foldl (fun t x => t.add x.1 x.2) .empty

theorem foldl_add (l : List Id) (t : Tally) :
    l.foldl (fun t x => t.add x.1 x.2) t = (l.map Tally.one).sum + t := by
  induction l generalizing t with
  | nil => exact (zero_add t).symm
  | cons x l ih =>
    rw [List.foldl_cons, ih, Tally.add_eq, List.map_cons, List.sum_cons, ← add_assoc,
      add_comm _ (Tally.one x)]

theorem tallyOf_eq (l : List Id) : tallyOf l = (l.map Tally.one).sum :=
  (foldl_add l .empty).trans (add_zero _)

theorem tallyOf_append (l m : List Id) : tallyOf (l ++ m) = tallyOf l + tallyOf m := by
  rw [tallyOf_eq, tallyOf_eq, tallyOf_eq, List.map_append, List.sum_append]

theorem tallyOf_flatten (l : List (List Id)) : tallyOf l.flatten = (l.map tallyOf).sum := by
  induction l with
  | nil => rfl
  | cons x l ih => rw [List.flatten_cons, tallyOf_append, ih, List.map_cons, List.sum_cons]

/-- The offered are the accepted, the rejected and the refused. -/
def ProducerState.Balanced (s : ProducerState) : Prop :=
  s.offered = s.accepted.n + s.rejected + s.refused_closed

theorem ProducerState.Balanced.account {s : ProducerState} (h : s.Balanced) (r : Push)
    (id seq : UInt32) (now : UInt64) : (s.account r id seq now).Balanced := by
  unfold Balanced at h
  cases r with
  | ok =>
    show s.offered + 1 = s.accepted.n + 1 + s.rejected + s.refused_closed
    rw [h]
    ac_rfl
  | full | timeout =>
    show s.offered + 1 = s.accepted.n + (s.rejected + 1) + s.refused_closed
    rw [h]
    ac_rfl
  | closed =>
    show s.offered + 1 = s.accepted.n + s.rejected + (s.refused_closed + 1)
    rw [h]
    ac_rfl

variable {pid : UInt32}

variable (pid) in
theorem ProducerState.Balanced.log {s : ProducerState} (h : s.Balanced) (l : List Attempt) :
    (s.log pid l).Balanced := by
  induction l generalizing s with
  | nil => exact h
  | cons a l ih => exact ih (h.account ..)

theorem log_accepted (s : ProducerState) (l : List Attempt) :
    (s.log pid l).accepted = (taken pid l).foldl (fun t x => t.add x.1 x.2) s.accepted := by
  induction l generalizing s with
  | nil => rfl
  | cons a l ih =>
    refine (ih _).trans ?_
    obtain ⟨seq, ended, now⟩ := a
    cases ended <;> rfl

theorem pushLoop_eq (batch quota : Nat) (i : Nat) (l : List Answer) (s : ProducerState) :
    pushLoop pid batch quota i l s = s.log pid (attempts batch quota i l) := by
  induction l generalizing i s with
  | nil => rfl
  | cons a l ih =>
    unfold pushLoop attempts
    by_cases hi : i < quota
    · rw [if_pos hi, if_pos hi]
      cases a with
      | one r now =>
        dsimp only
        by_cases hr : r = .closed
        · rw [if_pos hr, if_pos hr]
          rfl
        · rw [if_neg hr, if_neg hr]
          exact ih _ _
      | batch got closed now =>
        dsimp only
        rw [ProducerState.log, List.foldl_append, List.foldl_map]
        by_cases hg : got < min batch (quota - i) ∧ closed (min batch (quota - i)) = true
        · rw [if_pos hg, if_pos hg]
          rfl
        · rw [if_neg hg, if_neg hg]
          exact ih _ _
    · rw [if_neg hi, if_neg hi]
      rfl

theorem pace_eq (seq : UInt32) (l : List (Push × UInt64)) (s : ProducerState) : ∃ b,
    pace pid seq l s = { s.log pid (paced seq l) with finished_quota := b } := by
  induction l generalizing seq s with
  | nil => exact ⟨true, rfl⟩
  | cons a l ih =>
    obtain ⟨r, now⟩ := a
    unfold pace paced
    by_cases hr : r = .closed
    · dsimp only
      rw [if_pos hr, if_pos hr]
      exact ⟨false, rfl⟩
    · dsimp only
      rw [if_neg hr, if_neg hr]
      exact ih _ _

variable (pid) in
/-- What a producer has counted, but for whether it finished. -/
theorem Load.produce_eq (x : Load) : ∃ b,
    x.produce pid = { ProducerState.init.log pid x.attempts with finished_quota := b } := by
  cases x with
  | saturated batch events answers =>
    unfold produce saturate
    dsimp only
    rw [pushLoop_eq]
    exact ⟨_, rfl⟩
  | paced answers => exact pace_eq ..

theorem Load.produce_accepted (x : Load) :
    (x.produce pid).accepted = tallyOf (taken pid x.attempts) := by
  obtain ⟨b, h⟩ := x.produce_eq pid
  rw [h]
  exact log_accepted _ _

theorem Load.produce_balanced (x : Load) : (x.produce pid).Balanced := by
  obtain ⟨b, h⟩ := x.produce_eq pid
  rw [h]
  have hinit : ProducerState.init.Balanced := rfl
  exact hinit.log pid x.attempts

/-! ## What a consumer sees -/

/-- Each producer's events, in the order of their numbers. -/
def Rising (l : List Event) : Prop :=
  l.Pairwise fun x y => x.producer = y.producer → x.seq < y.seq

/-- What a consumer that has been handed `l`, all of it readable, knows. -/
structure Seen (l : List Event) (s : ConsumerState) : Prop where
  consumed : s.consumed = tallyOf (l.map fun e => (e.producer, e.seq))
  torn : s.torn = 0
  disorder : ∃ d ≤ l.length, s.disorder = .ofNat d ∧ (d = 0 ↔ Rising l)
  last : Rising l → ∀ p : UInt32, (s.last_seq p = -1 ∧ ∀ e ∈ l, e.producer ≠ p) ∨
    ∃ e ∈ l, e.producer = p ∧ s.last_seq p = e.seq.toNat ∧
      ∀ x ∈ l, x.producer = p → x.seq ≤ e.seq

theorem rising_concat {l : List Event} {e : Event} : Rising (l ++ [e]) ↔
    Rising l ∧ ∀ x ∈ l, x.producer = e.producer → x.seq < e.seq := by
  simp [Rising, List.pairwise_append]

/-- An event is in order if its number is greater than the last. -/
theorem Seen.in_order {l : List Event} {s : ConsumerState} (h : Seen l s) (hr : Rising l)
    (e : Event) : s.last_seq e.producer < e.seq.toNat ↔
      ∀ x ∈ l, x.producer = e.producer → x.seq < e.seq := by
  obtain ⟨hlast, hnone⟩ | ⟨y, hy, hp, hlast, hmax⟩ := h.last hr e.producer
  · rw [hlast]
    exact ⟨fun _ x hx hxp => absurd hxp (hnone x hx), fun _ => by omega⟩
  · rw [hlast, Int.ofNat_lt]
    refine ⟨fun hlt x hx hxp => ?_, fun hall => UInt32.lt_iff_toNat_lt.mp (hall y hy hp)⟩
    exact UInt32.lt_of_le_of_lt (hmax x hx hxp) (UInt32.lt_iff_toNat_lt.mpr hlt)

theorem Seen.take {l : List Event} {s : ConsumerState} (h : Seen l s) {e : Event}
    (he : readable e = true) : Seen (l ++ [e]) (s.take e) := by
  unfold ConsumerState.take
  rw [if_pos he]
  refine ⟨?_, h.torn, ?_, fun hr p => ?_⟩
  · rw [List.map_append, tallyOf_append, ← h.consumed, tallyOf_eq]
    refine (Tally.add_eq s.consumed (e.producer, e.seq)).trans ((add_comm _ _).trans ?_)
    exact congrArg (s.consumed + ·) (add_zero _).symm
  · obtain ⟨d, hd, hdis, hzero⟩ := h.disorder
    rw [List.length_append]
    by_cases hle : (e.seq.toNat : Int) ≤ s.last_seq e.producer
    · refine ⟨d + 1, Nat.succ_le_succ hd, ?_, ?_⟩
      · dsimp only
        rw [if_pos hle, hdis]
        exact (UInt64.ofNat_add d 1).symm
      · rw [rising_concat]
        refine ⟨fun h => (by omega), fun hr => ?_⟩
        have := (h.in_order hr.1 e).mpr hr.2
        omega
    · refine ⟨d, Nat.le_succ_of_le hd, ?_, ?_⟩
      · dsimp only
        rw [if_neg hle, hdis]
      · rw [hzero, rising_concat]
        refine ⟨fun hr => ⟨hr, (h.in_order hr e).mp (by omega)⟩, And.left⟩
  · obtain ⟨hr, hlt⟩ := rising_concat.mp hr
    dsimp only
    by_cases hp : p = e.producer
    · subst hp
      rw [if_pos rfl]
      refine .inr ⟨e, by simp, rfl, rfl, fun x hx hxp => ?_⟩
      obtain hx | hx := List.mem_append.mp hx
      · exact UInt32.le_of_lt (hlt x hx hxp)
      · rw [List.mem_singleton.mp hx]
        exact UInt32.le_refl _
    · rw [if_neg hp]
      obtain ⟨hlast, hnone⟩ | ⟨y, hy, hyp, hlast, hmax⟩ := h.last hr p
      · refine .inl ⟨hlast, fun x hx hxp => ?_⟩
        obtain hx | hx := List.mem_append.mp hx
        · exact hnone x hx hxp
        · rw [List.mem_singleton.mp hx] at hxp
          exact hp hxp.symm
      · refine .inr ⟨y, List.mem_append_left _ hy, hyp, hlast, fun x hx hxp => ?_⟩
        obtain hx | hx := List.mem_append.mp hx
        · exact hmax x hx hxp
        · rw [List.mem_singleton.mp hx] at hxp
          exact absurd hxp.symm hp

theorem consume_seen {l : List Event} (h : ∀ e ∈ l, readable e = true) : Seen l (consume l) := by
  induction l using List.reverseRecOn with
  | nil =>
    refine ⟨rfl, rfl, ⟨0, Nat.le_refl 0, rfl, fun _ => .nil, fun _ => rfl⟩, fun _ p => .inl ⟨rfl, ?_⟩⟩
    exact fun _ he => absurd he List.not_mem_nil
  | append_singleton l e ih =>
    unfold consume
    rw [List.foldl_concat]
    exact (ih fun x hx => h x (List.mem_append_left _ hx)).take (h e (by simp))

/-- The torn ones are counted. -/
theorem consume_torn (l : List Event) :
    (consume l).torn = .ofNat (l.countP fun e => !readable e) := by
  induction l using List.reverseRecOn with
  | nil => rfl
  | append_singleton l e ih =>
    unfold consume at ih ⊢
    rw [List.foldl_concat, List.countP_append, List.countP_singleton, UInt64.ofNat_add, ← ih]
    unfold ConsumerState.take
    cases readable e with
    | true => exact (UInt64.add_zero _).symm
    | false => rfl

/-! ## The verdict -/

theorem sum_ofNat {A : Type} (f : A → UInt64) (g : A → Nat) (l : List A)
    (h : ∀ x ∈ l, f x = .ofNat (g x)) (n : Nat) :
    l.foldl (fun n x => n + f x) (.ofNat n) = .ofNat (n + (l.map g).sum) := by
  induction l generalizing n with
  | nil => rfl
  | cons x l ih =>
    rw [List.foldl_cons, h x List.mem_cons_self, ← UInt64.ofNat_add,
      ih (fun y hy => h y (List.mem_cons_of_mem _ hy)), List.map_cons, List.sum_cons, Nat.add_assoc]

theorem ofNat_eq_zero {n : Nat} (h : n < 2 ^ 64) : UInt64.ofNat n = 0 ↔ n = 0 := by
  rw [← UInt64.toNat_inj, UInt64.toNat_ofNat', Nat.mod_eq_of_lt h]
  rfl

theorem merge_foldl {A : Type} (f : A → Tally) (l : List A) (t : Tally) :
    l.foldl (fun t x => t.merge (f x)) t = t + (l.map f).sum := by
  induction l generalizing t with
  | nil => exact (add_zero t).symm
  | cons x l ih =>
    rw [List.foldl_cons, ih, List.map_cons, List.sum_cons, ← add_assoc]
    rfl

/-- The first check cannot fail. -/
theorem merge_balanced (ps : List ProducerState) (h : ∀ s ∈ ps, s.Balanced) (t : Tally)
    (n r c : UInt64) (hn : n = t.n + r + c) :
    ps.foldl (fun n s => n + s.offered) n =
      (ps.foldl (fun t s => Tally.merge t s.accepted) t).n +
        ps.foldl (fun n s => n + s.rejected) r + ps.foldl (fun n s => n + s.refused_closed) c := by
  induction ps generalizing t n r c with
  | nil => exact hn
  | cons s ps ih =>
    refine ih (fun x hx => h x (List.mem_cons_of_mem _ hx)) _ _ _ _ ?_
    have hs : s.offered = s.accepted.n + s.rejected + s.refused_closed := h s List.mem_cons_self
    show n + s.offered = t.n + s.accepted.n + (r + s.rejected) + (c + s.refused_closed)
    rw [hn, hs]
    ac_rfl

theorem Run.mem_producers {x : Run} {s : ProducerState} (h : s ∈ x.producers) : s.Balanced := by
  obtain ⟨i, hi, rfl⟩ := List.mem_mapIdx.mp h
  exact Load.produce_balanced _

/-- The merged tally of the producers. -/
theorem Run.tally_accepted (x : Run) :
    x.producers.foldl (fun t s => Tally.merge t s.accepted) .empty = tallyOf x.accepted := by
  unfold producers accepted
  rw [merge_foldl, tallyOf_flatten, List.mapIdx_eq_zipIdx_map, List.mapIdx_eq_zipIdx_map,
    List.map_map, List.map_map]
  refine (zero_add _).trans (congrArg List.sum (List.map_congr_left fun l _ => ?_))
  exact l.1.produce_accepted

theorem Run.tally_consumed (x : Run) (h : ∀ l ∈ x.handed, ∀ e ∈ l, readable e = true) :
    (x.handed.map consume).foldl (fun t s => Tally.merge t s.consumed) .empty =
      tallyOf x.consumed := by
  unfold consumed
  rw [merge_foldl, List.map_flatten, tallyOf_flatten, List.map_map, List.map_map]
  refine (zero_add _).trans (congrArg List.sum (List.map_congr_left fun l hl => ?_))
  exact (consume_seen (h l hl)).consumed

/-- What a consumer is handed is whole, of a producer that it can follow, and in
its producer's order. -/
def InOrder (l : List Event) : Prop := (∀ e ∈ l, readable e = true) ∧ Rising l

theorem Run.torn_eq_zero (x : Run) (hn : x.handed.flatten.length < 2 ^ 64) :
    x.result.torn = 0 ↔ ∀ l ∈ x.handed, ∀ e ∈ l, readable e = true := by
  have hsum := sum_ofNat (fun l => (consume l).torn) (fun l => l.countP fun e => !readable e)
    x.handed (fun l _ => consume_torn l) 0
  have hle : (x.handed.map fun l => l.countP fun e => !readable e).sum < 2 ^ 64 := by
    refine Nat.lt_of_le_of_lt (List.sum_le_sum fun l _ => List.countP_le_length) ?_
    rwa [List.length_flatten] at hn
  show (x.handed.map consume).foldl (fun n s => n + s.torn) 0 = 0 ↔ _
  rw [List.foldl_map]
  refine (Eq.congr_left (hsum.trans (by rw [Nat.zero_add]))).trans ?_
  rw [ofNat_eq_zero hle, List.sum_eq_zero_iff, List.forall_mem_map]
  simp only [List.countP_eq_zero, Bool.not_eq_true', Bool.not_eq_false]

theorem Run.disorder_eq_zero (x : Run) (hn : x.handed.flatten.length < 2 ^ 64)
    (h : ∀ l ∈ x.handed, ∀ e ∈ l, readable e = true) :
    x.result.disorder = 0 ↔ ∀ l ∈ x.handed, Rising l := by
  classical
  have hex : ∀ l, ∃ d, l ∈ x.handed → d ≤ l.length ∧ (consume l).disorder = .ofNat d ∧
      (d = 0 ↔ Rising l) := by
    intro l
    by_cases hl : l ∈ x.handed
    · obtain ⟨d, hd⟩ := (consume_seen (h l hl)).disorder
      exact ⟨d, fun _ => hd⟩
    · exact ⟨0, fun h => absurd h hl⟩
  choose d hd using hex
  have hsum := sum_ofNat (fun l => (consume l).disorder) d x.handed (fun l hl => (hd l hl).2.1) 0
  have hle : (x.handed.map d).sum < 2 ^ 64 := by
    refine Nat.lt_of_le_of_lt (List.sum_le_sum fun l hl => (hd l hl).1) ?_
    rwa [List.length_flatten] at hn
  show (x.handed.map consume).foldl (fun n s => n + s.disorder) 0 = 0 ↔ _
  rw [List.foldl_map]
  refine (Eq.congr_left (hsum.trans (by rw [Nat.zero_add]))).trans ?_
  rw [ofNat_eq_zero hle, List.sum_eq_zero_iff, List.forall_mem_map]
  exact forall₂_congr fun l hl => (hd l hl).2.2

theorem Run.offered_eq (x : Run) :
    x.result.offered = x.result.accepted + x.result.rejected + x.result.refused_closed :=
  merge_balanced x.producers (fun _ hs => x.mem_producers hs) .empty 0 0 0 rfl

theorem Run.exactly_once_iff (x : Run) (hC : x.handed ≠ [])
    (hread : ∀ l ∈ x.handed, ∀ e ∈ l, readable e = true) : x.result.exactly_once = true ↔
      tallyOf x.accepted = tallyOf x.consumed ∧ x.result.torn = 0 := by
  have hlen : 0 < (x.handed.map consume).length := by
    rw [List.length_map]
    exact List.length_pos_iff.mpr hC
  rw [← x.tally_accepted, ← x.tally_consumed hread]
  show (decide (0 < (x.handed.map consume).length) && _ && decide (x.result.torn = 0)) = true ↔ _
  rw [decide_eq_true hlen, Bool.true_and, Bool.and_eq_true, decide_eq_true_eq, decide_eq_true_eq]

/-- A run passes if each consumer was handed whole events in order, and the tallies
agree. -/
theorem Run.pass (x : Run) (hC : x.handed ≠ []) (hin : ∀ l ∈ x.handed, InOrder l)
    (heq : tallyOf x.accepted = tallyOf x.consumed) : check_run x.result = true := by
  have hread := fun l hl => (hin l hl).1
  have hzero : ∀ f : ConsumerState → UInt64, (∀ l ∈ x.handed, f (consume l) = 0) →
      (x.handed.map consume).foldl (fun n s => n + f s) 0 = 0 := by
    intro f hf
    rw [List.foldl_map]
    refine (sum_ofNat (fun l => f (consume l)) (fun _ => 0) x.handed hf 0).trans ?_
    simp
  have htorn : x.result.torn = 0 :=
    hzero ConsumerState.torn fun l hl => (consume_seen (hread l hl)).torn
  have hdis : x.result.disorder = 0 := by
    refine hzero ConsumerState.disorder fun l hl => ?_
    obtain ⟨d, -, hd, hiff⟩ := (consume_seen (hread l hl)).disorder
    rw [hd, hiff.mpr (hin l hl).2]
    rfl
  have honce : x.result.exactly_once = true := (x.exactly_once_iff hC hread).mpr ⟨heq, htorn⟩
  unfold check_run
  rw [decide_eq_true x.offered_eq, decide_eq_true htorn, honce, decide_eq_true hdis]
  rfl

/-- The tallies of a run that passes agree. -/
theorem Run.tallies (x : Run) (hC : x.handed ≠ [])
    (hread : ∀ l ∈ x.handed, ∀ e ∈ l, readable e = true) (h : check_run x.result = true) :
    tallyOf x.accepted = tallyOf x.consumed := by
  unfold check_run at h
  rw [Bool.and_eq_true, Bool.and_eq_true] at h
  exact ((x.exactly_once_iff hC hread).mp h.1.2).1

/-- What a run's verdict says: each consumer was handed whole events, each
producer's in order, and the tally of what was handed is that of what was
accepted. That what was offered was accepted, rejected or refused holds of every
run. -/
theorem check_run_iff (x : Run) (hC : x.handed ≠ [])
    (hn : x.handed.flatten.length < 2 ^ 64) :
    x.result.offered = x.result.accepted + x.result.rejected + x.result.refused_closed ∧
    (check_run x.result = true ↔
      (∀ l ∈ x.handed, InOrder l) ∧ tallyOf x.accepted = tallyOf x.consumed) := by
  refine ⟨x.offered_eq, ?_, ?_⟩
  · intro h
    have hall := h
    unfold check_run at hall
    rw [Bool.and_eq_true, Bool.and_eq_true, Bool.and_eq_true, decide_eq_true_eq, decide_eq_true_eq,
      decide_eq_true_eq, x.torn_eq_zero hn] at hall
    obtain ⟨⟨⟨-, hread⟩, -⟩, hdis⟩ := hall
    rw [x.disorder_eq_zero hn hread] at hdis
    exact ⟨fun l hl => ⟨hread l hl, hdis l hl⟩, x.tallies hC hread h⟩
  · rintro ⟨hin, heq⟩
    exact x.pass hC hin heq

theorem tallyOf_perm {l m : List Id} (h : l.Perm m) : tallyOf l = tallyOf m := by
  rw [tallyOf_eq, tallyOf_eq, (h.map Tally.one).sum_eq]

theorem tallyOf_n (l : List Id) : (tallyOf l).n = .ofNat l.length := by
  induction l using List.reverseRecOn with
  | nil => rfl
  | append_singleton l x ih =>
    rw [tallyOf_append, Tally.add_n, ih, List.length_append, UInt64.ofNat_add]
    rfl

/-- An event in another's place moves the tally. -/
theorem tallyOf_replaced {l : List Id} {a b : Id} (ha : a ∈ l) (hne : b ≠ a) :
    tallyOf (b :: l.erase a) ≠ tallyOf l := by
  intro h
  rw [tallyOf_perm (List.perm_cons_erase ha), tallyOf_eq, tallyOf_eq, List.map_cons, List.map_cons,
    List.sum_cons, List.sum_cons] at h
  exact hne (Tally.one_a (add_injective _ (congrArg Tally.a h)))

/-- Of the runs in which each consumer sees each producer's events in order, one
passes that delivers every accepted event once. One fails that delivers more or
fewer, or one event in another's place. -/
theorem check_run_tells (x : Run) (hC : x.handed ≠ [])
    (hn : x.handed.flatten.length < 2 ^ 64) (ha : x.accepted.length < 2 ^ 64)
    (hin : ∀ l ∈ x.handed, InOrder l) :
    (x.consumed.Perm x.accepted → check_run x.result = true) ∧
      (x.consumed.length ≠ x.accepted.length → check_run x.result = false) ∧
      ∀ a b, a ∈ x.accepted → b ≠ a → x.consumed.Perm (b :: x.accepted.erase a) →
        check_run x.result = false := by
  have hiff : check_run x.result = true ↔ tallyOf x.accepted = tallyOf x.consumed :=
    ⟨x.tallies hC fun l hl => (hin l hl).1, x.pass hC hin⟩
  refine ⟨fun h => hiff.mpr (tallyOf_perm h.symm), fun h => ?_, fun a b hmem hne hp => ?_⟩
  · refine Bool.eq_false_iff.mpr fun hok => h ?_
    have hlen := congrArg Tally.n (hiff.mp hok)
    rw [tallyOf_n, tallyOf_n, ← UInt64.toNat_inj, UInt64.toNat_ofNat', UInt64.toNat_ofNat',
      Nat.mod_eq_of_lt ha, Nat.mod_eq_of_lt] at hlen
    · exact hlen.symm
    · unfold Run.consumed
      rwa [List.length_map]
  · refine Bool.eq_false_iff.mpr fun hok => ?_
    exact tallyOf_replaced hmem hne ((tallyOf_perm hp.symm).trans (hiff.mp hok).symm)

/-! ## Two threads -/

/-- Of a producer's three events the queue takes the first and the last. -/
def twoTaken : Run where
  loads := [.saturated 1 3 [.one .ok 5, .one .full 6, .one .ok 7]]
  handed := [[makeEvent 0 0 4, makeEvent 0 2 6]]

theorem check_run_iff_two : InOrder [makeEvent 0 0 4, makeEvent 0 2 6] :=
  ((check_run_iff twoTaken (by decide) (by decide)).2.mp (by decide)).1 _ (by decide)

/-- The second is handed out in the last one's place. -/
theorem check_run_tells_two : check_run { twoTaken with
    handed := [[makeEvent 0 0 4, makeEvent 0 1 6]] }.result = false :=
  (check_run_tells { twoTaken with handed := [[makeEvent 0 0 4, makeEvent 0 1 6]] } (by decide)
    (by decide) (by decide) (by unfold InOrder Rising; decide)).2.2 (0, 2) (0, 1) (by decide)
    (by decide) (by decide)

end Katas.Turnstile.Driver
