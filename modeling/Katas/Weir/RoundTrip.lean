import Katas.Weir.PythonPipeline

/-!
# What the sink is given decodes to what was pushed

The accepted pushes of a producer are, in order, what has been taken from its
ring and what is still there. What has been taken is written in batches, so the
blob of all batches decodes to the accepted events of each producer, in order,
with their payloads filled up; how the batches are cut does not matter. Between
producers the order is that of the drains.
-/
namespace Katas.Weir.PythonPipeline
open Katas.Conc Katas.Records Katas.Weir.Event Katas.Weir.PythonRings

/-- The pushes that returned `True`. -/
def accepted : List Op → List Outcome → List Fields
  | .push pid seq stamp_ns payload :: ops, .pushed (some true) :: os =>
    ⟨pid.val, seq, stamp_ns, payload⟩ :: accepted ops os
  | _ :: ops, _ :: os => accepted ops os
  | _, _ => []

/-- The events of a producer. -/
def ofProducer (pid : Fin MAX_PRODUCERS) (es : List Fields) : List Fields :=
  es.filter fun e => e.producer_id == pid.val

/-- The records of a producer. -/
def recordsOf (pid : Fin MAX_PRODUCERS) (l : List Bytes) : List Bytes :=
  l.filter fun r => Event.producer_id r == pid.val

/-- The queues hold what has been accepted and not yet been taken out. -/
structure Kept (a : Queues) (acc : List Fields) : Prop where
  packed : ∀ pid, (ofProducer pid acc).map Fields.pack =
    (recordsOf pid a.out ++ a.queue pid).map some
  own : ∀ pid, ∀ r ∈ a.queue pid, Event.producer_id r = pid.val
  known : ∀ r ∈ a.out, ∃ pid : Fin MAX_PRODUCERS, Event.producer_id r = pid.val

variable {a : Queues} {acc : List Fields} {size cap : Nat} {i : Fin MAX_PRODUCERS}

theorem recordsOf_own {l : List Bytes} (h : ∀ r ∈ l, Event.producer_id r = i.val) :
    recordsOf i l = l := by
  unfold recordsOf
  rw [List.filter_eq_self]
  exact fun r hr => beq_iff_eq.mpr (h r hr)

theorem recordsOf_other {l : List Bytes} {j : Fin MAX_PRODUCERS}
    (h : ∀ r ∈ l, Event.producer_id r = i.val) (hj : j ≠ i) : recordsOf j l = [] := by
  unfold recordsOf
  rw [List.filter_eq_nil_iff]
  intro r hr heq
  exact hj (Fin.ext ((beq_iff_eq.mp heq).symm.trans (h r hr)))

/-! ## What keeps them -/

theorem Kept.of_eq {a' : Queues} (h : Kept a acc) (hout : a'.out = a.out)
    (hqueue : a'.queue = a.queue) : Kept a' acc where
  packed pid := by rw [hout, hqueue]; exact h.packed pid
  own pid := by rw [hqueue]; exact h.own pid
  known := by rw [hout]; exact h.known

theorem Kept.init {accepting : Bool} : Kept (.init accepting) [] :=
  ⟨fun _ => rfl, nofun, nofun⟩

theorem Kept.flush (h : Kept a acc) : Kept a.flush acc := h.of_eq Queues.out_flush Queues.queue_flush

theorem Kept.move (h : Kept a acc) (n : Nat) : Kept (a.move i n) acc := by
  have hout : (a.move i n).out = a.out ++ (a.queue i).take n := (List.append_assoc ..).symm
  have htaken : ∀ r ∈ (a.queue i).take n, Event.producer_id r = i.val :=
    fun r hr => h.own i r (List.mem_of_mem_take hr)
  refine ⟨fun pid => ?_, fun pid r hr => ?_, fun r hr => ?_⟩
  · rw [h.packed pid, hout]
    unfold recordsOf
    rw [List.filter_append]
    dsimp only [Queues.move]
    by_cases hp : pid = i
    · subst hp
      have := recordsOf_own htaken
      unfold recordsOf at this
      rw [this, upd_self, List.append_assoc, List.take_append_drop]
    · have := recordsOf_other htaken hp
      unfold recordsOf at this
      rw [this, upd_ne _ _ hp, List.append_nil]
  · dsimp only [Queues.move] at hr
    by_cases hp : pid = i
    · subst hp
      rw [upd_self] at hr
      exact h.own pid r (List.mem_of_mem_drop hr)
    · rw [upd_ne _ _ hp] at hr
      exact h.own pid r hr
  · rw [hout] at hr
    obtain hr | hr := List.mem_append.mp hr
    · exact h.known r hr
    · exact ⟨i, htaken r hr⟩

theorem Kept.take (n : Nat) (h : Kept a acc) : Kept (Queues.take size i n a).2 acc := by
  induction n generalizing a with
  | zero => exact h
  | succ n ih =>
    have hs : Kept (a.settle size) acc := h.of_eq Queues.out_settle Queues.queue_settle
    unfold Queues.take
    dsimp only
    split
    · exact hs
    · exact ih (hs.move 1)

theorem Kept.drainFrom (total : Nat) (ids : List (Fin MAX_PRODUCERS)) (h : Kept a acc) :
    Kept (a.drainFrom size total ids).2 acc := by
  induction ids generalizing total a with
  | nil =>
    unfold Queues.drainFrom
    dsimp only
    split
    · exact h.flush
    · exact h
  | cons i ids ih =>
    refine ih (total + (a.drainRing size i).1) ?_
    exact (h.take DRAIN_BATCH).of_eq rfl rfl

/-- A push that is accepted. -/
theorem Kept.put {e : Fields} {b : Bytes} (h : Kept a acc) (hid : e.producer_id = i.val)
    (hb : e.pack = some b) : Kept (a.put i b) (acc ++ [e]) := by
  have hown : Event.producer_id b = i.val := by
    have := producer_id_of_pack hb
    omega
  refine ⟨fun pid => ?_, fun pid r hr => ?_, h.known⟩
  · have hout : (a.put i b).out = a.out := rfl
    unfold ofProducer
    rw [List.filter_append, List.map_append, hout]
    have hpacked := h.packed pid
    unfold ofProducer at hpacked
    rw [hpacked]
    dsimp only [Queues.put]
    by_cases hp : pid = i
    · subst hp
      have hone : [e].filter (fun e => e.producer_id == (pid.val : Int)) = [e] := by simp [hid]
      rw [upd_self, hone, List.map_singleton, hb]
      simp only [List.map_append, List.map_cons, List.map_nil, List.append_assoc]
    · have hne : (e.producer_id == (pid.val : Int)) = false := by
        rw [hid, beq_eq_false_iff_ne]
        exact fun heq => hp (Fin.ext (by omega))
      have hnone : [e].filter (fun e => e.producer_id == (pid.val : Int)) = [] := by simp [hne]
      rw [upd_ne _ _ hp, hnone]
      exact List.append_nil _
  · dsimp only [Queues.put] at hr
    by_cases hp : pid = i
    · subst hp
      rw [upd_self] at hr
      obtain hr | hr := List.mem_append.mp hr
      · exact h.own pid r hr
      · rw [List.mem_singleton.mp hr]
        exact hown
    · rw [upd_ne _ _ hp] at hr
      exact h.own pid r hr

/-! ## Runs -/

theorem accepted_cons {o : Outcome} (op : Op) (ops : List Op) (os : List Outcome) :
    accepted (op :: ops) (o :: os) = accepted [op] [o] ++ accepted ops os := by
  cases op <;> cases o with
  | pushed r => cases r with
    | none => rfl
    | some b => cases b <;> rfl
  | _ => rfl

theorem accepted_none (op : Op) : accepted [op] [.pushed none] = [] := by
  cases op <;> rfl

/-- An odd push that is accepted brings in an event that does not fit. -/
theorem not_fits_of_odd {op : Op} (hop : a.Odd cap op) (es : List Fields) :
    ¬∀ e ∈ accepted [op] [.pushed (some true)] ++ es, e.Fits := by
  intro hf
  cases op with
  | push pid seq stamp_ns payload =>
    obtain ⟨b, hb⟩ := exists_pack (hf _ List.mem_cons_self)
    exact Option.some_ne_none b (hb.symm.trans hop.2.2)
  | _ => exact hop.elim

theorem Kept.step (h : Kept a acc) (op : Op) :
    Kept (a.step cap size op).2 (acc ++ accepted [op] [(a.step cap size op).1]) := by
  cases op with
  | push pid seq stamp_ns payload =>
    unfold Queues.step
    dsimp only
    split
    · exact (List.append_nil acc).symm ▸ h
    split
    · exact (List.append_nil acc).symm ▸ h.of_eq rfl rfl
    split
    · exact (List.append_nil acc).symm ▸ h
    · rename_i b hb
      exact h.put rfl hb
  | drain ids => exact (List.append_nil acc).symm ▸ h.drainFrom 0 ids
  | flush => exact (List.append_nil acc).symm ▸ h.flush

section run
variable {R : Type} {B : Backend R} {cfg : Config} {Holds : R → List Bytes → Prop} {p : Pipe R}

/-- A ring that takes what does not fit a record keeps its queue as long as it is
not given such. -/
def Sound (B : Backend R) (cap : Nat) (Holds : R → List Bytes → Prop) (acc : List Fields) : Prop :=
  Refuses B cap Holds ∨ Takes B cap Holds ∧ ∀ e ∈ acc, e.Fits

theorem kept_run (hk : Keeps B cap Holds) (ops : List Op)
    (hs : Sound B cap Holds (accepted ops (run B cfg ops p).1))
    (h : Refines cfg.stage_events Holds p a) (ha : Kept a acc) :
    ∃ a', Refines cfg.stage_events Holds (run B cfg ops p).2 a' ∧
      Kept a' (acc ++ accepted ops (run B cfg ops p).1) := by
  induction ops generalizing p a acc with
  | nil => exact ⟨a, h, (List.append_nil acc).symm ▸ ha⟩
  | cons op ops ih =>
    have hrun : run B cfg (op :: ops) p = ((step B cfg op p).1 :: (run B cfg ops (step B cfg op p).2).1,
      (run B cfg ops (step B cfg op p).2).2) := rfl
    rw [hrun] at hs ⊢
    dsimp only at hs ⊢
    rw [accepted_cons] at hs ⊢
    rw [← List.append_assoc]
    have hrest : Sound B cap Holds
        (accepted ops (run B cfg ops (step B cfg op p).2).1) :=
      hs.imp_right fun ⟨ht, hf⟩ => ⟨ht, fun e he => hf e (List.mem_append_right _ he)⟩
    by_cases hop : a.Odd cap op
    · obtain hr | ⟨ht, hf⟩ := hs
      · obtain ⟨p', hp', h'⟩ := step_refused hr h hop
        rw [hp'] at hrest ⊢
        rw [accepted_none, List.append_nil]
        exact ih hrest h' ha
      · obtain ⟨p', hp'⟩ := step_taken ht h hop
        rw [hp'] at hf
        exact absurd hf (not_fits_of_odd hop _)
    · obtain ⟨p', hp', h'⟩ := step_refines hk h hop
      rw [hp'] at hrest ⊢
      exact ih hrest h' (ha.step op)

/-! ## The round trip -/

/-- A run of the pipeline has `written` its batches: they decode, to events of
accepted pushes; for each producer, these are the first of its accepted pushes,
and all of them once its ring is empty and nothing is staged; and they are the
bytes of Go's events with the same fields. -/
structure RoundTrip (B : Backend R) (acc : List Fields) (p : Pipe R) (es : List Fields) : Prop where
  decodes : iter_events p.written.flatten = some es
  known : ∀ e ∈ es, ∃ pid : Fin MAX_PRODUCERS, e.producer_id = pid.val
  order : ∀ pid, ofProducer pid es <+: (ofProducer pid acc).map Fields.padded
  all : ∀ pid, p.staged = 0 → B.size_now (p.slots pid).ring = 0 →
    ofProducer pid es = (ofProducer pid acc).map Fields.padded
  go : ∃ ev : List GoEvent, es = ev.map GoEvent.fields ∧ p.written.flatten = EventsAsBytes ev

theorem ofProducer_unpack (pid : Fin MAX_PRODUCERS) (l : List Bytes) :
    ofProducer pid (l.map unpack) = (recordsOf pid l).map unpack := by
  unfold ofProducer recordsOf
  rw [List.filter_map]
  refine congrArg _ (List.filter_congr fun r _ => ?_)
  rw [Function.comp_apply, Bool.eq_iff_iff, beq_iff_eq, beq_iff_eq]
  exact Int.ofNat_inj

theorem Kept.roundTrip (hk : Keeps B cap Holds) (h : Refines cfg.stage_events Holds p a)
    (ha : Kept a acc) : RoundTrip B acc p (a.batches.flatten.map unpack) := by
  have hblob : p.written.flatten = a.batches.flatten.flatten := by
    rw [h.written, List.flatten_flatten]
  have hu : Uniform EVENT_SIZE a.batches.flatten := (uniform_append.mp h.uniform).1
  have hsplit : ∀ pid, (ofProducer pid acc).map Fields.padded =
      ofProducer pid (a.batches.flatten.map unpack) ++
        (recordsOf pid a.staged ++ a.queue pid).map unpack := by
    intro pid
    rw [← map_unpack_pack (ha.packed pid), ofProducer_unpack, ← List.map_append,
      ← List.append_assoc]
    unfold Queues.out recordsOf
    rw [List.filter_append]
  obtain ⟨ev, hev, hflat⟩ := exists_goEvents hu
  refine ⟨?_, ?_, fun pid => ?_, fun pid hs hr => ?_, ev, hev, hblob.trans hflat⟩
  · rw [hblob, iter_events_flatten hu]
  · intro e he
    obtain ⟨r, hr, rfl⟩ := List.mem_map.mp he
    obtain ⟨pid, hpid⟩ := ha.known r (List.mem_append_left _ hr)
    exact ⟨pid, congrArg Int.ofNat hpid⟩
  · rw [hsplit pid]
    exact List.prefix_append _ _
  · have hstaged : a.staged = [] := List.length_eq_zero_iff.mp (h.staged.symm.trans hs)
    have hqueue : a.queue pid = [] := List.length_eq_zero_iff.mp ((hk.size (h.ring pid)).symm.trans hr)
    rw [hsplit pid, hstaged, hqueue]
    exact (List.append_nil _).symm

end run

/-- Every run's blob decodes to the accepted events of each producer, on either
ring, if the integers of what a `DequeRing` accepts fit a record; every blob of
whole records packs to the same bytes after decoding; and a blob that decodes to
the fields of Go's events is their bytes. -/
theorem wire_round_trip :
    (∀ (cfg : Config) (cap : Nat) (r : BytesRing), BytesRing.new cap = some r →
      ∀ (accepting on_batch : Bool) (ops : List Op),
        let x := run bytes cfg ops (Pipe.new cfg r accepting on_batch)
        ∃ es, RoundTrip bytes (accepted ops x.1) x.2 es) ∧
    (∀ (cfg : Config) (cap : Nat) (accepting on_batch : Bool) (ops : List Op),
      let x := run deque cfg ops (Pipe.new cfg (DequeRing.new cap) accepting on_batch)
      (∀ e ∈ accepted ops x.1, e.Fits) → ∃ es, RoundTrip deque (accepted ops x.1) x.2 es) ∧
    (∀ blob : Bytes, blob.length % EVENT_SIZE = 0 → ∃ (es : List Fields) (rs : List Bytes),
      iter_events blob = some es ∧ es.map Fields.pack = rs.map some ∧ rs.flatten = blob) ∧
    ∀ (blob : Bytes) (ev : List GoEvent),
      iter_events blob = some (ev.map GoEvent.fields) → blob = EventsAsBytes ev := by
  refine ⟨fun cfg cap r hr accepting on_batch ops => ?_,
    fun cfg cap accepting on_batch ops hf => ?_, fun blob => repack, fun blob ev => eq_eventsAsBytes⟩
  · obtain ⟨hc, hholds⟩ := BytesRing.new_spec hr
    obtain ⟨a, h, ha⟩ := kept_run (bytes_keeps hc) ops (.inl bytes_refuses)
      (Refines.new hholds accepting on_batch) Kept.init
    exact ⟨_, ha.roundTrip (bytes_keeps hc) h⟩
  · obtain ⟨a, h, ha⟩ := kept_run deque_keeps ops (.inr ⟨deque_takes, hf⟩)
      (Refines.new DequeRing.new_spec accepting on_batch) Kept.init
    exact ⟨_, ha.roundTrip deque_keeps h⟩

/-- Rings and a staging buffer for two events. -/
def paired : Config := ⟨.DROP_NEWEST, 4, 2⟩

/-- Two producers, the second of which pushes first; then its ring is full. -/
def crossed : List Op :=
  [.push 1 5 (-2) [7], .push 0 6 3 [8], .push 1 6 0 [], .push 1 7 0 [9], .drain [0, 1]]

theorem crossed_rests : ∃ r p, BytesRing.new 2 = some r ∧
    (run bytes paired crossed (Pipe.new paired r true false)).2 = p ∧ p.staged = 0 ∧
    (∀ i, (p.slots i).ring.size_now = 0) ∧
    accepted crossed (run bytes paired crossed (Pipe.new paired r true false)).1 =
      [⟨1, 5, -2, [7]⟩, ⟨0, 6, 3, [8]⟩, ⟨1, 6, 0, []⟩] := by
  obtain ⟨hc, hholds⟩ : Capacity 2 ∧ BytesRing.Holds 2 _ [] := BytesRing.new_spec rfl
  have hr : Refines paired.stage_events (BytesRing.Holds 2) (Pipe.new paired _ true false)
      (.init true) := .new hholds true false
  obtain ⟨p, hp, hpa⟩ := run_refines (bytes_keeps hc) crossed (by decide) hr
  refine ⟨_, p, rfl, congrArg Prod.snd hp, hpa.staged.trans (by decide +kernel), fun i => ?_, ?_⟩
  · refine ((bytes_keeps hc).size (hpa.ring i)).trans ?_
    revert i
    decide +kernel
  · rw [hp]
    show accepted crossed (Queues.run 2 paired.stage_events crossed (Queues.init true)).1 = _
    decide +kernel

theorem wire_round_trip_two : ∃ r, BytesRing.new 2 = some r ∧ ∃ es,
    iter_events (run bytes paired crossed (Pipe.new paired r true false)).2.written.flatten =
      some es ∧
    ofProducer 0 es = [Fields.padded ⟨0, 6, 3, [8]⟩] ∧
    ofProducer 1 es = [Fields.padded ⟨1, 5, -2, [7]⟩, Fields.padded ⟨1, 6, 0, []⟩] := by
  obtain ⟨r, p, hnew, hp, hstaged, hempty, hacc⟩ := crossed_rests
  obtain ⟨es, h⟩ := wire_round_trip.1 paired 2 r hnew true false crossed
  rw [hacc, hp] at h
  refine ⟨r, hnew, es, hp ▸ h.decodes, (h.all 0 hstaged (hempty 0)).trans ?_,
    (h.all 1 hstaged (hempty 1)).trans ?_⟩
  · decide
  · decide

/-- The drain takes the rings in turn, so the events do not come back in the
order of the pushes. -/
theorem not_in_push_order : ¬ ∀ (cfg : Config) (cap : Nat) (r : BytesRing),
    BytesRing.new cap = some r → ∀ ops : List Op,
      let x := run bytes cfg ops (Pipe.new cfg r true false)
      x.2.staged = 0 → (∀ i, (x.2.slots i).ring.size_now = 0) →
        iter_events x.2.written.flatten = some ((accepted ops x.1).map Fields.padded) := by
  intro h
  obtain ⟨hc, hholds⟩ : Capacity 2 ∧ BytesRing.Holds 2 _ [] := BytesRing.new_spec rfl
  have hr : Refines paired.stage_events (BytesRing.Holds 2) (Pipe.new paired _ true false)
      (.init true) := .new hholds true false
  obtain ⟨p, hp, hpa⟩ := run_refines (bytes_keeps hc) crossed (by decide) hr
  have hx := h paired 2 _ rfl crossed
  rw [hp] at hx
  have hsize : ∀ i, (p.slots i).ring.size_now = 0 := by
    intro i
    refine ((bytes_keeps hc).size (hpa.ring i)).trans ?_
    revert i
    decide +kernel
  have hdec := hx (hpa.staged.trans (by decide +kernel)) hsize
  rw [hpa.written] at hdec
  dsimp only at hdec
  clear hx hpa hsize hp
  revert hdec
  decide +kernel

end Katas.Weir.PythonPipeline
