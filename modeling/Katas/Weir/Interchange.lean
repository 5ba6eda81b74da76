import Katas.Weir.PythonPipeline

/-!
# Either ring will do

The same pushes and drains on a pipeline of `BytesRing`s and on one of
`DequeRing`s. Both keep the same queues, as long as no push with arguments that
do not fit a record finds room. Such a push raises on a `BytesRing`; a
`DequeRing` accepts it, and raises in the consumer.
-/
namespace Katas.Weir.PythonPipeline
open Katas.Records Katas.Weir.Event Katas.Weir.PythonRings

/-- What the pushes of a run have returned. -/
def decisions (os : List Outcome) : List (Option Bool) :=
  os.filterMap fun
    | .pushed r => some r
    | _ => none

/-- The same decision on every push, the same counters, the same batches, and no
drain has raised. -/
structure Same (x : List Outcome × Pipe BytesRing) (y : List Outcome × Pipe DequeRing) : Prop where
  decisions : decisions x.1 = decisions y.1
  pushed : ∀ i, (x.2.slots i).pushed = (y.2.slots i).pushed
  dropped : ∀ i, (x.2.slots i).dropped = (y.2.slots i).dropped
  consumed : x.2.consumed = y.2.consumed
  written : x.2.written = y.2.written
  quiet : .drained none ∉ x.1 ∧ .drained none ∉ y.1

/-- If the operation is a push on a pipeline that accepts, and its ring has room,
the integers fit a record. -/
def InRange (p : Pipe BytesRing) : Op → Prop
  | .push pid seq stamp_ns _ => p.accepting = true →
    (p.slots pid).ring.size_now < (p.slots pid).ring.cap →
      (0 ≤ seq ∧ seq < 2 ^ 32) ∧ -2 ^ 63 ≤ stamp_ns ∧ stamp_ns < 2 ^ 63
  | _ => True

/-- Every operation of the run is in range, where it is made. -/
def AllInRange (cfg : Config) : List Op → Pipe BytesRing → Prop
  | [], _ => True
  | op :: ops, p => InRange p op ∧ AllInRange cfg ops (step bytes cfg op p).2

variable {cfg : Config} {cap : Nat} {p : Pipe BytesRing} {d : Pipe DequeRing} {a : Queues}

theorem fits_iff (pid : Fin MAX_PRODUCERS) {seq stamp_ns : Int} (payload : Bytes) :
    Fields.Fits ⟨pid.val, seq, stamp_ns, payload⟩ ↔
      (0 ≤ seq ∧ seq < 2 ^ 32) ∧ -2 ^ 63 ≤ stamp_ns ∧ stamp_ns < 2 ^ 63 := by
  have hpid : pid.val < 64 := pid.isLt
  exact ⟨And.right, fun h => ⟨⟨Int.natCast_nonneg _, by dsimp only; omega⟩, h⟩⟩

theorem inRange_iff (h : Refines cfg.stage_events (BytesRing.Holds cap) p a) (op : Op) :
    InRange p op ↔ ¬a.Odd cap op := by
  cases op with
  | push pid seq stamp_ns payload =>
    obtain ⟨cells, hc⟩ := h.ring pid
    have hsize : (p.slots pid).ring.size_now = (a.queue pid).length := hc.size.symm
    unfold InRange Queues.Odd
    dsimp only
    rw [hsize, hc.capacity, h.accepting, ← fits_iff pid payload]
    constructor
    · rintro hr ⟨ha, hq, he⟩
      obtain ⟨r, hr⟩ := exists_pack (hr ha hq)
      rw [hr] at he
      cases he
    · intro hodd ha hq
      by_contra hf
      exact hodd ⟨ha, hq, pack_none hf⟩
  | _ => exact ⟨fun _ h => h, fun _ => trivial⟩

theorem Same.nil (hp : Refines cfg.stage_events (BytesRing.Holds cap) p a)
    (hd : Refines cfg.stage_events (DequeRing.Holds cap) d a) : Same ([], p) ([], d) where
  decisions := rfl
  pushed i := (hp.pushed i).trans (hd.pushed i).symm
  dropped i := (hp.dropped i).trans (hd.dropped i).symm
  consumed := hp.consumed.trans hd.consumed.symm
  written := hp.written.trans hd.written.symm
  quiet := ⟨nofun, nofun⟩

/-- The same outcome on both, and then the rest. -/
theorem same_cons {o : Outcome} {os os' : List Outcome} (ho : o ≠ .drained none) :
    Same (o :: os, p) (o :: os', d) ↔ Same (os, p) (os', d) := by
  have hdec : decisions (o :: os) = decisions (o :: os') ↔ decisions os = decisions os' := by
    unfold decisions
    cases o <;> simp
  constructor
  · intro h
    exact { h with
      decisions := hdec.mp h.decisions
      quiet := ⟨fun hm => h.quiet.1 (List.mem_cons_of_mem _ hm),
        fun hm => h.quiet.2 (List.mem_cons_of_mem _ hm)⟩ }
  · intro h
    exact { h with
      decisions := hdec.mpr h.decisions
      quiet := ⟨fun hm => (List.mem_cons.mp hm).elim (fun he => ho he.symm) h.quiet.1,
        fun hm => (List.mem_cons.mp hm).elim (fun he => ho he.symm) h.quiet.2⟩ }

theorem step_quiet (op : Op) (size : Nat) : (a.step cap size op).1 ≠ .drained none := by
  cases op with
  | push pid seq stamp_ns payload =>
    unfold Queues.step
    dsimp only
    repeat' split
    all_goals nofun
  | _ => nofun

theorem same_run_iff (hc : Capacity cap) (ops : List Op)
    (hp : Refines cfg.stage_events (BytesRing.Holds cap) p a)
    (hd : Refines cfg.stage_events (DequeRing.Holds cap) d a) :
    Same (run bytes cfg ops p) (run deque cfg ops d) ↔ AllInRange cfg ops p := by
  induction ops generalizing p d a with
  | nil => exact ⟨fun _ => trivial, fun _ => .nil hp hd⟩
  | cons op ops ih =>
    unfold run AllInRange
    rw [inRange_iff hp]
    by_cases hop : a.Odd cap op
    · obtain ⟨p', hp', -⟩ := step_refused bytes_refuses hp hop
      obtain ⟨d', hd'⟩ := step_taken deque_takes hd hop
      rw [hp', hd']
      refine ⟨fun h => ?_, fun h => absurd hop h.1⟩
      have hdec := h.decisions
      unfold decisions at hdec
      rw [List.filterMap_cons, List.filterMap_cons] at hdec
      cases hdec
    · obtain ⟨p', hp', hpa⟩ := step_refines (bytes_keeps hc) hp hop
      obtain ⟨d', hd', hda⟩ := step_refines deque_keeps hd hop
      rw [hp', hd']
      dsimp only
      rw [same_cons (step_quiet op _), ih hpa hda]
      exact ⟨fun h => ⟨hop, h⟩, And.right⟩

/-- The two pipelines do the same if and only if every push that is made on a
ring with room has integers that fit a record. -/
theorem same_iff_in_range (cfg : Config) (cap : Nat) (r : BytesRing)
    (hr : BytesRing.new cap = some r) (accepting on_batch : Bool) (ops : List Op) :
    Same (run bytes cfg ops (Pipe.new cfg r accepting on_batch))
        (run deque cfg ops (Pipe.new cfg (DequeRing.new cap) accepting on_batch)) ↔
      AllInRange cfg ops (Pipe.new cfg r accepting on_batch) := by
  obtain ⟨hc, hholds⟩ := BytesRing.new_spec hr
  exact same_run_iff hc ops (.new hholds accepting on_batch)
    (.new DequeRing.new_spec accepting on_batch)

/-- Rings for two events, and a staging buffer for one. -/
def small : Config := ⟨.DROP_NEWEST, 4, 1⟩

/-- Two producers, a push to a full ring, whose number does not fit a record, and
pushes that wrap. -/
def pushesWrap : List Op :=
  [.push 3 7 (-1) [1], .push 5 1 (2 ^ 63 - 1) [2, 3], .push 3 8 0 [], .push 3 (-1) 0 [4],
    .drain [5, 3], .push 3 (2 ^ 32 - 1) (-2 ^ 63) [6], .drain [3], .push 3 10 0 [7], .drain [3]]

theorem same_iff_in_range_wrap : ∃ r, BytesRing.new 2 = some r ∧
    Same (run bytes small pushesWrap (Pipe.new small r true false))
      (run deque small pushesWrap (Pipe.new small (DequeRing.new 2) true false)) := by
  refine ⟨_, rfl, (same_iff_in_range small 2 _ rfl true false _).mpr ?_⟩
  refine ⟨?_, ?_, ?_, ?_, trivial, ?_, trivial, ?_, trivial, trivial⟩
  · exact fun _ _ => ⟨by decide, by decide⟩
  · exact fun _ _ => ⟨by decide, by decide⟩
  · exact fun _ _ => ⟨by decide, by decide⟩
  · exact fun _ h => absurd h (by decide +kernel)
  · exact fun _ _ => ⟨by decide, by decide⟩
  · exact fun _ _ => ⟨by decide, by decide⟩

/-- A sequence number of -1 raises on the one and is accepted on the other. -/
theorem not_same : ¬ ∀ (cfg : Config) (cap : Nat) (r : BytesRing), BytesRing.new cap = some r →
    ∀ (accepting on_batch : Bool) (ops : List Op),
      Same (run bytes cfg ops (Pipe.new cfg r accepting on_batch))
        (run deque cfg ops (Pipe.new cfg (DequeRing.new cap) accepting on_batch)) := by
  intro h
  have hdec := (h small 2 _ rfl true false [.push 0 (-1) 0 []]).decisions
  exact absurd hdec (by decide)

end Katas.Weir.PythonPipeline
