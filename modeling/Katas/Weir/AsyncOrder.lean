import Katas.Weir.Async

/-!
# What the asyncio pipeline delivers

`Good`: for each producer the records handed to the sink, then those a flush
has taken and not handed over, then its buffer, are the accepted pushes in
order. Each segment keeps it, so it holds at every suspension, wherever in a
flush that is (`async_in_order`). The final flush passes each buffer once, so
what a later push puts there is left undelivered; where no push does, nothing
is (`async_all_delivered`).
-/
namespace Katas.Weir.Async
open Event (records producer_id)

variable {c : Config} {s s' : State} {p p' : Producer} {i j : Nat} {chunks : List Bytes}

/-! ## What has been handed over, and what is taken -/

/-- The records that the sink was given. -/
def State.sent (s : State) : List Bytes := s.sunk.flatMap records

/-- Those of one producer id. -/
def State.delivered (s : State) (pid : Nat) : List Bytes :=
  s.sent.filter fun r => producer_id r = pid

def Flush.held (f : Flush) (i : Nat) : List Bytes := if f.i = i then f.chunks else []

/-- The chunks of producer `i` that a flush has taken and not handed over. -/
def State.taken (s : State) (i : Nat) : List Bytes :=
  (match s.task with
    | .sink f => f.held i
    | _ => []) ++
  match s.stop with
  | .sink f => f.held i
  | _ => []

/-! ## The producers -/

theorem mem_set {l : List Producer} {q : Producer} (h : (l.set i p')[j]? = some q) :
    j = i ∧ q = p' ∨ j ≠ i ∧ l[j]? = some q := by
  rw [List.getElem?_set] at h
  by_cases hij : i = j
  · subst hij
    rw [if_pos rfl] at h
    split at h
    · cases h
      exact .inl ⟨rfl, rfl⟩
    · cases h
  · rw [if_neg hij] at h
    exact .inr ⟨Ne.symm hij, h⟩

theorem sum_set {l : List Producer} (f : Producer → Nat) (q : Producer) (h : l[i]? = some p) :
    ((l.set i q).map f).sum + f p = (l.map f).sum + f q := by
  induction l generalizing i with
  | nil => cases h
  | cons a l ih =>
    cases i with
    | zero =>
      cases h
      simp only [List.set_cons_zero, List.map_cons, List.sum_cons]
      omega
    | succ i =>
      have := ih (i := i) h
      simp only [List.set_cons_succ, List.map_cons, List.sum_cons]
      omega

/-- A push appends the record it packs and counts it, or changes neither the
buffer nor that count. -/
theorem push_cases (p : Producer) (seq stamp_ns : Int) (payload : Bytes) :
    (∃ r, Event.pack p.pid seq stamp_ns payload = some r ∧ p.buf.length < p.capacity ∧
        (p.push seq stamp_ns payload).1.buf = p.buf ++ [r] ∧
        (p.push seq stamp_ns payload).1.accepted = p.accepted ++ [r] ∧
        (p.push seq stamp_ns payload).1.stats.pushed = p.stats.pushed + 1) ∨
      (p.push seq stamp_ns payload).1.buf = p.buf ∧
        (p.push seq stamp_ns payload).1.accepted = p.accepted ∧
        (p.push seq stamp_ns payload).1.stats.pushed = p.stats.pushed := by
  unfold Producer.push
  split
  · exact .inr ⟨rfl, rfl, rfl⟩
  · rename_i hc
    cases hr : Event.pack p.pid seq stamp_ns payload with
    | none => exact .inr ⟨rfl, rfl, rfl⟩
    | some r => exact .inl ⟨r, rfl, Nat.lt_of_not_le hc, rfl, rfl, rfl⟩

theorem push_pid (p : Producer) (seq stamp_ns : Int) (payload : Bytes) :
    (p.push seq stamp_ns payload).1.pid = p.pid ∧
      (p.push seq stamp_ns payload).1.capacity = p.capacity := by
  unfold Producer.push
  split
  · exact ⟨rfl, rfl⟩
  · split <;> exact ⟨rfl, rfl⟩

@[simp] theorem take_buf (p : Producer) : p.take.1.buf = [] := by
  unfold Producer.take
  split
  · rename_i h
    exact h
  · rfl

@[simp] theorem take_chunks (p : Producer) : p.take.2 = p.buf := by
  unfold Producer.take
  split
  · rename_i h
    exact h.symm
  · rfl

theorem take_same (p : Producer) : p.take.1.pid = p.pid ∧ p.take.1.capacity = p.capacity ∧
    p.take.1.accepted = p.accepted ∧ p.take.1.stats = p.stats := by
  unfold Producer.take
  split <;> exact ⟨rfl, rfl, rfl, rfl⟩

/-! ## The invariant -/

/-- What one producer has accepted is where it should be; `held` of it is taken. -/
structure Producer.Good (p : Producer) (i : Nat) (delivered held : List Bytes) : Prop where
  pid : p.pid = i
  bound : p.buf.length ≤ p.capacity
  whole : delivered ++ held ++ p.buf = p.accepted
  form : ∀ r ∈ p.accepted, r.length = Event.EVENT_SIZE ∧ producer_id r = i

/-- What has been accepted is where it should be; `chunks` of producer `j` are
taken and not handed over. -/
structure Good (s : State) (j : Nat) (chunks : List Bytes) : Prop where
  each : ∀ (i : Nat) (p : Producer), s.producers[i]? = some p →
    p.Good i (s.delivered i) (if j = i then chunks else [])
  ids : ∀ r ∈ s.sent, producer_id r < s.producers.length
  real : chunks ≠ [] → j < s.producers.length
  count : s.sent.length + chunks.length + (s.producers.map (·.buf.length)).sum =
    (s.producers.map (·.stats.pushed)).sum

theorem Good.of_nil (h : Good s j []) (k : Nat) : Good s k [] where
  each i p hp := by
    have := h.each i p hp
    rw [ite_self] at this ⊢
    exact this
  ids := h.ids
  real := nofun
  count := h.count

/-- The pipeline's other fields say nothing of this. -/
theorem Good.congr (h : Good s j chunks) (hp : s'.producers = s.producers)
    (hs : s'.sunk = s.sunk) : Good s' j chunks := by
  have hsent : s'.sent = s.sent := by
    unfold State.sent
    rw [hs]
  have hdel : s'.delivered = s.delivered := by
    unfold State.delivered
    rw [hsent]
  refine ⟨?_, ?_, ?_, ?_⟩
  · rw [hp, hdel]
    exact h.each
  · rw [hp, hsent]
    exact h.ids
  · rw [hp]
    exact h.real
  · rw [hp, hsent]
    exact h.count

/-- No record of a producer that is not there yet was delivered. -/
theorem Good.delivered_new (h : Good s j chunks) : s.delivered s.producers.length = [] := by
  unfold State.delivered
  refine List.filter_eq_nil_iff.mpr fun r hr => ?_
  have := h.ids r hr
  simp only [decide_eq_true_eq]
  omega

theorem Good.producer (h : Good s j chunks) (name : String) :
    Good (producer c name s) j chunks := by
  unfold Async.producer
  split
  · exact h
  have hlen : ∀ q, (s.producers ++ [q]).length = s.producers.length + 1 := by simp
  refine ⟨fun i p hp => ?_, fun r hr => ?_, fun hc => ?_, ?_⟩
  · obtain hi | hi := Nat.lt_or_ge i s.producers.length
    · exact h.each i p (by rwa [List.getElem?_append_left hi] at hp)
    · have hin : i = s.producers.length := by
        have := (List.getElem?_eq_some_iff.mp hp).1
        rw [hlen] at this
        omega
      subst hin
      rw [List.getElem?_concat_length] at hp
      cases hp
      have hj : (if j = s.producers.length then chunks else []) = [] := by
        split
        · rename_i hj
          by_contra hc
          exact absurd (h.real hc) (by omega)
        · rfl
      refine ⟨rfl, Nat.zero_le _, ?_, nofun⟩
      rw [hj]
      show s.delivered s.producers.length ++ [] ++ [] = []
      rw [h.delivered_new]
      rfl
  · rw [hlen]
    exact Nat.lt_succ_of_lt (h.ids r hr)
  · rw [hlen]
    exact Nat.lt_succ_of_lt (h.real hc)
  · have := h.count
    simpa [Producer.new, State.sent] using this

/-- The producer `i` becomes `p'`, and now `held` is taken from `m`. -/
theorem Good.set {m : Nat} {held : List Bytes} (h : Good s j chunks)
    (hp : s.producers[i]? = some p)
    (hk : ∀ k, k ≠ i → (if m = k then held else []) = if j = k then chunks else [])
    (hg : p'.Good i (s.delivered i) (if m = i then held else []))
    (hm : held ≠ [] → m < s.producers.length)
    (hn : held.length + p'.buf.length + p.stats.pushed =
      chunks.length + p.buf.length + p'.stats.pushed) :
    Good { s with producers := s.producers.set i p' } m held := by
  refine ⟨fun k q hq => ?_, fun r hr => ?_, fun hc => ?_, ?_⟩
  · obtain ⟨rfl, rfl⟩ | ⟨hki, hq⟩ := mem_set hq
    · exact hg
    · rw [hk k hki]
      exact h.each k q hq
  · simpa using h.ids r hr
  · simpa using hm hc
  · have h1 := sum_set (·.buf.length) p' hp
    have h2 := sum_set (·.stats.pushed) p' hp
    have h3 := h.count
    have h4 : State.sent { s with producers := s.producers.set i p' } = s.sent := rfl
    rw [h4]
    dsimp only at h1 h2 h3 ⊢
    omega

theorem Good.push {q t : Int} {payload : Bytes} (h : Good s j chunks)
    (hs : push i q t payload s = some s') : Good s' j chunks := by
  obtain ⟨p, hp, rfl⟩ := Option.map_eq_some_iff.mp hs
  have hg := h.each i p hp
  obtain ⟨hpid, hcap⟩ := push_pid p q t payload
  obtain ⟨r, hr, hlt, hbuf, hacc, hst⟩ | ⟨hbuf, hacc, hst⟩ := push_cases p q t payload
  · refine h.set hp (fun k _ => rfl) ⟨hpid.trans hg.pid, ?_, ?_, ?_⟩ h.real ?_
    · rw [hbuf, hcap, List.length_append]
      exact hlt
    · rw [hbuf, hacc, ← List.append_assoc, hg.whole]
    · rw [hacc]
      intro x hx
      obtain hx | hx := List.mem_append.mp hx
      · exact hg.form x hx
      · cases List.mem_singleton.mp hx
        have hid := Event.producer_id_of_pack hr
        rw [hg.pid] at hid
        exact ⟨Event.length_of_pack hr, Int.ofNat_inj.mp hid⟩
    · rw [hbuf, hst, List.length_append, List.length_singleton]
      omega
  · refine h.set hp (fun k _ => rfl) ⟨hpid.trans hg.pid, ?_, ?_, ?_⟩ h.real ?_
    · rw [hbuf, hcap]
      exact hg.bound
    · rw [hbuf, hacc]
      exact hg.whole
    · rw [hacc]
      exact hg.form
    · rw [hbuf, hst]

/-- A flush takes the buffer of `i`. -/
theorem Good.take (h : Good s j []) : Good (take i s).1 i (take i s).2 := by
  unfold Async.take
  cases hp : s.producers[i]? with
  | none => exact h.of_nil i
  | some p =>
    have hg := h.each i p hp
    rw [ite_self] at hg
    obtain ⟨hpid, hcap, hacc, hst⟩ := take_same p
    refine h.set hp (fun k hk => ?_) ⟨hpid.trans hg.pid, ?_, ?_, ?_⟩ (fun _ => ?_) ?_
    · rw [if_neg (Ne.symm hk), ite_self]
    · rw [take_buf]
      exact Nat.zero_le _
    · rw [hacc, take_chunks, take_buf, List.append_nil, if_pos rfl, ← hg.whole, List.append_nil]
    · rw [hacc]
      exact hg.form
    · exact (List.getElem?_eq_some_iff.mp hp).1
    · rw [hst, take_chunks, take_buf, List.length_nil]
      omega

/-- The records of the next slice are handed over. -/
theorem Good.hand {rest : List Nat} {total : Nat} (h : Good s j chunks) (hj : chunks ≠ []) :
    Good (hand c j chunks rest total s).1 j (chunks.drop c.batch) := by
  obtain ⟨p, hp⟩ : ∃ p, s.producers[j]? = some p :=
    ⟨_, List.getElem?_eq_getElem (h.real hj)⟩
  have hg := h.each j p hp
  rw [if_pos rfl] at hg
  have hform : ∀ r ∈ chunks, r.length = Event.EVENT_SIZE ∧ producer_id r = j := by
    intro r hr
    refine hg.form r ?_
    rw [← hg.whole]
    simp [hr]
  have hrec : records (chunks.take c.batch).flatten = chunks.take c.batch :=
    Event.records_flatten fun r hr => (hform r (List.mem_of_mem_take hr)).1
  have hsent : (Async.hand c j chunks rest total s).1.sent = s.sent ++ chunks.take c.batch := by
    unfold Async.hand State.sent
    rw [List.flatMap_append, List.flatMap_singleton, hrec]
  refine ⟨fun i q hq => ?_, fun r hr => ?_, fun _ => h.real hj, ?_⟩
  · have hi := h.each i q hq
    have hdel : (Async.hand c j chunks rest total s).1.delivered i ++
        (if j = i then chunks.drop c.batch else []) =
          s.delivered i ++ if j = i then chunks else [] := by
      unfold State.delivered
      rw [hsent, List.filter_append]
      by_cases hji : j = i
      · subst hji
        have hall : (chunks.take c.batch).filter (fun r => producer_id r = j) =
            chunks.take c.batch := by
          refine List.filter_eq_self.mpr fun r hr => ?_
          simpa using (hform r (List.mem_of_mem_take hr)).2
        rw [hall, if_pos rfl, if_pos rfl, List.append_assoc, List.take_append_drop]
      · have hnone : (chunks.take c.batch).filter (fun r => producer_id r = i) = [] := by
          refine List.filter_eq_nil_iff.mpr fun r hr => ?_
          have := (hform r (List.mem_of_mem_take hr)).2
          simp only [decide_eq_true_eq]
          omega
        rw [hnone, if_neg hji, if_neg hji, List.append_nil]
    exact ⟨hi.pid, hi.bound, by rw [hdel]; exact hi.whole, hi.form⟩
  · rw [hsent] at hr
    obtain hr | hr := List.mem_append.mp hr
    · exact h.ids r hr
    · rw [(hform r (List.mem_of_mem_take hr)).2]
      exact h.real hj
  · have := h.count
    have hlen := congrArg List.length (List.take_append_drop c.batch chunks)
    rw [List.length_append] at hlen
    rw [hsent, List.length_append]
    show _ + _ + (s.producers.map (·.buf.length)).sum = (s.producers.map (·.stats.pushed)).sum
    omega

/-! ## A flush -/

/-- What a segment leaves taken, and of whom. -/
def Flushed.held : Flushed → Nat × List Bytes
  | .sink f => (f.i, f.chunks)
  | .total _ => (0, [])

theorem Good.visit {rest : List Nat} {total : Nat} (h : Good s j []) :
    Good (visit c rest total s).1 (visit c rest total s).2.held.1
      (visit c rest total s).2.held.2 := by
  induction rest generalizing s j with
  | nil => exact (h.of_nil 0).congr rfl rfl
  | cons i rest ih =>
    have ht := h.take (i := i)
    unfold Async.visit
    dsimp only
    split
    · rename_i hc
      rw [hc] at ht
      exact ih ht
    · rename_i hc
      exact ht.hand hc

theorem Good.resume {f : Flush} (h : Good s f.i f.chunks) :
    Good (resume c f s).1 (resume c f s).2.held.1 (resume c f s).2.held.2 := by
  unfold Async.resume
  dsimp only
  split
  · rename_i hc
    rw [hc] at h
    exact h.visit
  · rename_i hc
    exact h.hand hc

/-- A flush leaves the tasks where they are. -/
theorem take_frame : (take i s).1.task = s.task ∧ (take i s).1.stop = s.stop := by
  unfold take
  split <;> exact ⟨rfl, rfl⟩

theorem visit_frame (rest : List Nat) (total : Nat) :
    (visit c rest total s).1.task = s.task ∧ (visit c rest total s).1.stop = s.stop := by
  induction rest generalizing s with
  | nil => exact ⟨rfl, rfl⟩
  | cons i rest ih =>
    obtain ⟨ht, hs⟩ := take_frame (i := i) (s := s)
    unfold visit
    dsimp only
    split
    · exact ⟨ih.1.trans ht, ih.2.trans hs⟩
    · exact ⟨ht, hs⟩

theorem resume_frame (f : Flush) :
    (resume c f s).1.task = s.task ∧ (resume c f s).1.stop = s.stop := by
  unfold resume
  dsimp only
  split
  · exact visit_frame _ _
  · exact ⟨rfl, rfl⟩

/-! ## Every step -/

/-- What is taken, and of whom: a flush of the consumer's or of `stop`. -/
def State.holding (s : State) : Nat × List Bytes :=
  match s.stop, s.task with
  | .sink f, _ | _, .sink f => (f.i, f.chunks)
  | _, _ => (0, [])

/-- `stop` flushes when the task is at its end. -/
structure Inv (s : State) : Prop where
  good : Good s s.holding.1 s.holding.2
  done : ∀ f, s.stop = .sink f → s.task = .done

theorem Inv.taken (h : Inv s) (i : Nat) :
    s.taken i = if s.holding.1 = i then s.holding.2 else [] := by
  have hd := h.done
  unfold State.taken State.holding
  cases hs : s.stop with
  | sink f => simp [hd f hs, Flush.held]
  | _ => cases s.task <;> simp [Flush.held]

def Task.held : Task → Nat × List Bytes
  | .sink f => (f.i, f.chunks)
  | _ => (0, [])

/-- No flush of `stop` is under way. -/
theorem holding_task (hs : ∀ f, s.stop ≠ .sink f) : s.holding = s.task.held := by
  unfold State.holding Task.held
  cases h : s.stop with
  | sink f => exact absurd h (hs f)
  | _ => cases s.task <;> rfl

theorem Inv.of_task (h : Good s s.task.held.1 s.task.held.2) (hs : ∀ f, s.stop ≠ .sink f) :
    Inv s := by
  refine ⟨?_, fun f hf => absurd hf (hs f)⟩
  rw [holding_task hs]
  exact h

theorem Inv.task (h : Inv s) (hs : ∀ f, s.stop ≠ .sink f) :
    Good s s.task.held.1 s.task.held.2 := by
  have hg := h.good
  rwa [holding_task hs] at hg

theorem good_flush {r : State × Flushed} (h : Good s j []) (hr : flush_all c s = r) :
    Good r.1 r.2.held.1 r.2.held.2 ∧ r.1.task = s.task ∧ r.1.stop = s.stop := by
  subst hr
  exact ⟨h.visit, visit_frame _ _⟩

theorem good_resume {f : Flush} {r : State × Flushed} (h : Good s f.i f.chunks)
    (hr : resume c f s = r) :
    Good r.1 r.2.held.1 r.2.held.2 ∧ r.1.task = s.task ∧ r.1.stop = s.stop := by
  subst hr
  exact ⟨h.resume, resume_frame f⟩

theorem inv_head (h : Good s j []) (hs : ∀ f, s.stop ≠ .sink f) : Inv (head c s) := by
  have h1 : Good { s with passes := s.passes + 1 } j [] := h.congr rfl rfl
  unfold head
  split
  · split
    all_goals
      rename_i heq
      obtain ⟨hg, -, hst⟩ := good_flush h1 heq
      exact .of_task (hg.congr rfl rfl) fun f hf => hs f (hst.symm.trans hf)
  · exact .of_task ((h.of_nil 0).congr rfl rfl) hs

theorem inv_drained {f : Flush} (h : Good s f.i f.chunks) (hs : ∀ f, s.stop ≠ .sink f) :
    Inv (drained c f s) := by
  unfold drained
  split
  all_goals
    rename_i heq
    obtain ⟨hg, -, hst⟩ := good_resume h heq
  · exact .of_task (hg.congr rfl rfl) fun f hf => hs f (hst.symm.trans hf)
  · exact .of_task (hg.congr rfl rfl) fun f hf => hs f (hst.symm.trans hf)
  · exact inv_head hg fun f hf => hs f (hst.symm.trans hf)

/-- A segment of the final flush. -/
theorem inv_stopped {r : State × Flushed} (h : Good r.1 r.2.held.1 r.2.held.2)
    (hd : r.1.task = .done) : Inv (stopped r) := by
  obtain ⟨s, x⟩ := r
  cases x with
  | sink f => exact ⟨h.congr rfl rfl, fun _ _ => hd⟩
  | total n =>
    refine .of_task ?_ nofun
    show Good _ s.task.held.1 s.task.held.2
    rw [show s.task = .done from hd]
    exact h.congr rfl rfl

theorem Inv.not_sink (h : Inv s) (ht : s.task ≠ .done) (f : Flush) : s.stop ≠ .sink f :=
  fun hf => ht (h.done f hf)

/-- A step that leaves both tasks where they are. -/
theorem Inv.frame (h : Inv s) (hg : Good s' s.holding.1 s.holding.2) (ht : s'.task = s.task)
    (hs : s'.stop = s.stop) : Inv s' := by
  refine ⟨?_, fun f hf => ht.trans (h.done f (hs.symm.trans hf))⟩
  have hh : s'.holding = s.holding := by
    unfold State.holding
    rw [ht, hs]
  rw [hh]
  exact hg

theorem producer_frame (name : String) :
    (producer c name s).task = s.task ∧ (producer c name s).stop = s.stop := by
  unfold producer
  split <;> exact ⟨rfl, rfl⟩

theorem push_frame {q t : Int} {payload : Bytes} (hs : push i q t payload s = some s') :
    s'.task = s.task ∧ s'.stop = s.stop := by
  obtain ⟨p, -, rfl⟩ := Option.map_eq_some_iff.mp hs
  exact ⟨rfl, rfl⟩

theorem inv_start (h : Inv s) (ht : s.task = .unborn) : Inv (start s) := by
  have hns : ∀ f, s.stop ≠ .sink f := h.not_sink (by rw [ht]; nofun)
  have hg := h.task hns
  rw [ht] at hg
  exact .of_task (hg.congr rfl rfl) hns

theorem inv_stop (h : Inv s) (hs : s.stop = .uncalled) (drain : Bool) : Inv (stop drain s) := by
  have hg := h.task fun f hf => by rw [hs] at hf; cases hf
  unfold stop
  split
  · exact .of_task (hg.congr rfl rfl) nofun
  · exact .of_task (hg.congr rfl rfl) nofun

theorem inv_consumer (h : Inv s) (hs : step c s .consumer = some s') : Inv s' := by
  simp only [step] at hs
  cases ht : s.task with
  | ready | waiting =>
    have hns := h.not_sink (by rw [ht]; nofun)
    have hg := h.task hns
    rw [ht] at hs hg
    cases hs
    exact inv_head hg hns
  | sink f =>
    have hns := h.not_sink (by rw [ht]; nofun)
    have hg := h.task hns
    rw [ht] at hs hg
    cases hs
    exact inv_drained hg hns
  | unborn | done =>
    rw [ht] at hs
    cases hs

theorem inv_stopper (h : Inv s) (hs : step c s .stopper = some s') : Inv s' := by
  have hh := h.good
  unfold State.holding at hh
  simp only [step] at hs
  cases hst : s.stop with
  | joining drain =>
    rw [hst] at hs hh
    dsimp only at hs
    split at hs
    · rename_i hd
      rw [hd] at hh
      cases hs
      split
      · obtain ⟨hg, ht, -⟩ := good_flush (c := c) hh rfl
        exact inv_stopped hg (ht.trans hd)
      · refine .of_task ?_ nofun
        show Good _ s.task.held.1 s.task.held.2
        rw [hd]
        exact hh.congr rfl rfl
    · cases hs
  | sink f =>
    rw [hst] at hs hh
    cases hs
    obtain ⟨hg, ht, -⟩ := good_resume (c := c) hh rfl
    exact inv_stopped hg (ht.trans (h.done f hst))
  | uncalled | returned drain =>
    rw [hst] at hs
    cases hs

theorem inv_step {a : Act} (h : Inv s) (hs : step c s a = some s') : Inv s' := by
  cases a with
  | producer name =>
    cases hs
    obtain ⟨ht, hst⟩ := producer_frame (c := c) (s := s) name
    exact h.frame (h.good.producer name) ht hst
  | push i q t payload =>
    obtain ⟨ht, hst⟩ := push_frame hs
    exact h.frame (h.good.push hs) ht hst
  | start =>
    obtain ⟨ht, hs⟩ := Option.ite_none_right_eq_some.mp hs
    cases hs
    exact inv_start h ht
  | stop drain =>
    obtain ⟨hst, hs⟩ := Option.ite_none_right_eq_some.mp hs
    cases hs
    exact inv_stop h hst drain
  | consumer => exact inv_consumer h hs
  | stopper => exact inv_stopper h hs

theorem inv_init : Inv .init :=
  .of_task ⟨nofun, nofun, nofun, rfl⟩ nofun

theorem inv_reachable (h : (loop c).Reachable s) : Inv s := by
  have hind : (loop c).Inductive Inv := by
    refine ⟨?_, fun s a s' hi hs => inv_step hi hs⟩
    rintro s rfl
    exact inv_init
  exact hind.reachable s h

/-- At every suspension: the records handed to the sink under a producer's id,
then the chunks taken and not handed over, then its buffer, are what it has
accepted, in order; its buffer is within its capacity; and producers of
different names have different ids. -/
theorem async_in_order (h : (loop c).Reachable s) :
    (∀ (i : Nat) (p : Producer), s.producers[i]? = some p →
      s.delivered p.pid ++ s.taken i ++ p.buf = p.accepted ∧ p.buf.length ≤ p.capacity) ∧
    ∀ p ∈ s.producers, ∀ q ∈ s.producers, p.name ≠ q.name → p.pid ≠ q.pid := by
  have hi := inv_reachable h
  refine ⟨fun i p hp => ?_, fun p hp q hq hne he => ?_⟩
  · have hg := hi.good.each i p hp
    rw [hi.taken i, hg.pid]
    exact ⟨hg.whole, hg.bound⟩
  · obtain ⟨i, hi'⟩ := List.mem_iff_getElem?.mp hp
    obtain ⟨j, hj⟩ := List.mem_iff_getElem?.mp hq
    have h1 := (hi.good.each i p hi').pid
    have h2 := (hi.good.each j q hj).pid
    obtain rfl : i = j := by omega
    rw [hi'] at hj
    cases hj
    exact hne rfl

def slices : Config := ⟨1, 8, Nat.one_pos⟩

/-- One producer, two events, and a consumer that has handed over the first. -/
def halfway : List Act :=
  [.producer "a", .push 0 0 0 [], .push 0 1 0 [], .start, .consumer]

theorem async_in_order_halfway : ∃ s, halfway.foldlM (step slices) .init = some s ∧
    (s.taken 0).length = 1 ∧
      ∀ (i : Nat) (p : Producer), s.producers[i]? = some p →
        s.delivered p.pid ++ s.taken i ++ p.buf = p.accepted ∧ p.buf.length ≤ p.capacity := by
  refine ⟨_, rfl, rfl, ?_⟩
  refine (async_in_order (c := slices) ⟨.init, halfway, rfl, ?_⟩).1
  exact .of_foldlM (fun _ _ _ h => h) rfl

/-! ## After `stop` -/

/-- The final flush has passed producer `i`: it has taken the buffer, or began
before the producer was there. -/
def Passed (s : State) (i : Nat) : Prop :=
  match s.stop with
  | .sink f => i ∉ f.rest
  | .returned drain => drain = true
  | _ => False

/-- No push is accepted into a buffer that the final flush has passed, and a
`stop` that has no task to wait for finds every buffer empty. -/
def InTime (s : State) : Act → Prop
  | .push i seq stamp_ns payload => ∀ p, s.producers[i]? = some p →
      (p.push seq stamp_ns payload).2 = some true → ¬Passed s i
  | .stop drain => drain = true → s.task = .unborn → ∀ p ∈ s.producers, p.buf = []
  | _ => True

/-- The buffers of all but `rest` are empty. -/
def Emptied (s : State) (rest : List Nat) : Prop :=
  ∀ (i : Nat) (p : Producer), s.producers[i]? = some p → i ∉ rest → p.buf = []

theorem Emptied.take {rest : List Nat} (h : Emptied s (i :: rest)) :
    Emptied (take i s).1 rest := by
  intro k q hq hk
  unfold Async.take at hq
  split at hq
  · rename_i hn
    refine h k q hq fun hm => ?_
    obtain rfl | hm := List.mem_cons.mp hm
    · dsimp only at hq
      rw [hn] at hq
      cases hq
    · exact hk hm
  · obtain ⟨-, rfl⟩ | ⟨hki, hq⟩ := mem_set hq
    · exact take_buf _
    · refine h k q hq fun hm => ?_
      obtain rfl | hm := List.mem_cons.mp hm
      · exact hki rfl
      · exact hk hm

def Flushed.rest : Flushed → List Nat
  | .sink f => f.rest
  | .total _ => []

theorem Emptied.visit {rest : List Nat} {t : Nat} (h : Emptied s rest) :
    Emptied (visit c rest t s).1 (visit c rest t s).2.rest := by
  induction rest generalizing s with
  | nil => exact h
  | cons i rest ih =>
    unfold Async.visit
    dsimp only
    split
    · exact ih h.take
    · exact h.take

theorem Emptied.resume {f : Flush} (h : Emptied s f.rest) :
    Emptied (resume c f s).1 (resume c f s).2.rest := by
  unfold Async.resume
  dsimp only
  split
  · exact h.visit
  · exact h

/-- With nothing there, a flush hands nothing over. -/
theorem Emptied.total {rest : List Nat} {total : Nat} (h : Emptied s []) :
    (Async.visit c rest total s).2 = .total total := by
  induction rest generalizing s with
  | nil => rfl
  | cons i rest ih =>
    have hc : (Async.take i s).2 = [] := by
      unfold Async.take
      split
      · rfl
      · rename_i p hp
        rw [take_chunks]
        exact h i p hp nofun
    have hr : Emptied (Async.take i s).1 [] := by
      have h1 : Emptied s [i] := fun k q hq _ => h k q hq nofun
      exact h1.take
    unfold Async.visit
    dsimp only
    rw [if_pos hc]
    exact ih hr

/-- What the final flush has passed is empty, and after it nothing is taken. -/
structure Finished (s : State) : Prop where
  sink : ∀ f, s.stop = .sink f → Emptied s f.rest
  empty : s.stop = .returned true → Emptied s []
  idle : s.stop = .returned true → ∀ f, s.task ≠ .sink f

theorem Emptied.producer {rest : List Nat} (h : Emptied s rest) (name : String) :
    Emptied (producer c name s) rest := by
  unfold Async.producer
  split
  · exact h
  · intro i p hp hi
    obtain hlt | hge := Nat.lt_or_ge i s.producers.length
    · exact h i p (by rwa [List.getElem?_append_left hlt] at hp) hi
    · have hmem := List.mem_of_getElem? hp
      rw [List.getElem?_append_right hge] at hp
      obtain rfl := List.mem_singleton.mp (List.mem_of_getElem? hp)
      rfl

/-- A push into a buffer that must stay empty is refused. -/
theorem Emptied.push {rest : List Nat} {q t : Int} {payload : Bytes} (h : Emptied s rest)
    (hs : push i q t payload s = some s')
    (hok : ∀ p, s.producers[i]? = some p → (p.push q t payload).2 = some true → i ∈ rest) :
    Emptied s' rest := by
  obtain ⟨p, hp, rfl⟩ := Option.map_eq_some_iff.mp hs
  intro k r hr hk
  obtain ⟨rfl, rfl⟩ | ⟨hki, hr⟩ := mem_set hr
  · have hb := h k p hp hk
    have hr : (p.push q t payload).2 ≠ some true := fun he => hk (hok p hp he)
    unfold Producer.push at hr ⊢
    split
    · exact hb
    · rename_i hc
      rw [if_neg hc] at hr
      split
      · exact hb
      · rename_i hpack
        rw [hpack] at hr
        exact absurd rfl hr
  · exact h k r hr hk

theorem head_stop : (head c s).stop = s.stop := by
  have hv := (visit_frame (c := c) (s := { s with passes := s.passes + 1 })
    (List.range s.producers.length) 0).2
  unfold head
  split
  · split
    all_goals
      rename_i heq
      unfold flush_all at heq
      rw [heq] at hv
      exact hv
  · rfl

theorem drained_stop (f : Flush) : (drained c f s).stop = s.stop := by
  have hv := (resume_frame (c := c) (s := s) f).2
  unfold drained
  split
  all_goals
    rename_i heq
    rw [heq] at hv
  · exact hv
  · exact hv
  · exact head_stop.trans hv

/-- With nothing there, the consumer goes to its wait, or to its end. -/
theorem Emptied.head (h : Emptied s []) :
    Emptied (head c s) [] ∧ ∀ f, (head c s).task ≠ .sink f := by
  have h1 : Emptied { s with passes := s.passes + 1 } [] := h
  have hall : Emptied { s with passes := s.passes + 1 } (List.range s.producers.length) :=
    fun i p hp _ => h1 i p hp nofun
  have ht : (Async.visit c (List.range s.producers.length) 0
      { s with passes := s.passes + 1 }).2 = .total 0 := h1.total
  have hv := hall.visit (c := c) (t := 0)
  rw [ht] at hv
  unfold Async.head
  split
  · split
    all_goals
      rename_i heq
      unfold flush_all at heq
      rw [heq] at ht hv
    · cases ht
    · exact ⟨hv, nofun⟩
    · exact ⟨hv, nofun⟩
  · exact ⟨h, nofun⟩

theorem finished_consumer (h : Finished s) (hi : Inv s) (hs : step c s .consumer = some s') :
    Finished s' := by
  have hns : ∀ f, s.stop ≠ .sink f := by
    refine hi.not_sink fun hd => ?_
    simp only [step, hd] at hs
    cases hs
  have hstop : s'.stop = s.stop := by
    simp only [step] at hs
    split at hs
    · cases hs
      exact head_stop
    · cases hs
      exact head_stop
    · cases hs
      exact drained_stop _
    · cases hs
    · cases hs
  have hend : s.stop = .returned true → Emptied s' [] ∧ ∀ f, s'.task ≠ .sink f := by
    intro hr
    simp only [step] at hs
    split at hs
    · cases hs
      exact (h.empty hr).head
    · cases hs
      exact (h.empty hr).head
    · rename_i f hf
      exact absurd hf (h.idle hr f)
    · cases hs
    · cases hs
  refine ⟨fun f hf => absurd (hstop.symm.trans hf) (hns f), fun hf => ?_, fun hf => ?_⟩
  · exact (hend (hstop.symm.trans hf)).1
  · exact (hend (hstop.symm.trans hf)).2

theorem finished_stopped {r : State × Flushed} (h : Emptied r.1 r.2.rest)
    (hd : r.1.task = .done) : Finished (stopped r) := by
  obtain ⟨s, x⟩ := r
  cases x with
  | sink f =>
    refine ⟨fun g hg => ?_, nofun, nofun⟩
    cases hg
    exact h
  | total n =>
    refine ⟨nofun, fun _ => h, fun _ f hf => ?_⟩
    have hf : s.task = .sink f := hf
    rw [show s.task = .done from hd] at hf
    cases hf

theorem finished_stopper (h : Finished s) (hi : Inv s) (hs : step c s .stopper = some s') :
    Finished s' := by
  simp only [step] at hs
  cases hst : s.stop with
  | joining drain =>
    rw [hst] at hs
    dsimp only at hs
    split at hs
    · rename_i hd
      cases hs
      split
      · have he : Emptied s (List.range s.producers.length) := by
          intro i p hp hi
          exact absurd (List.mem_range.mpr (List.getElem?_eq_some_iff.mp hp).1) hi
        exact finished_stopped he.visit ((visit_frame _ _).1.trans hd)
      · exact ⟨nofun, nofun, nofun⟩
    · cases hs
  | sink f =>
    rw [hst] at hs
    cases hs
    exact finished_stopped (h.sink f hst).resume ((resume_frame f).1.trans (hi.done f hst))
  | uncalled | returned drain =>
    rw [hst] at hs
    cases hs

theorem finished_step {a : Act} (h : Finished s) (hi : Inv s) (hok : InTime s a)
    (hs : step c s a = some s') : Finished s' := by
  cases a with
  | producer name =>
    cases hs
    obtain ⟨ht, hst⟩ := producer_frame (c := c) (s := s) name
    refine ⟨fun f hf => ?_, fun hf => ?_, fun hf => ?_⟩
    · exact (h.sink f (hst.symm.trans hf)).producer name
    · exact (h.empty (hst.symm.trans hf)).producer name
    · rw [ht]
      exact h.idle (hst.symm.trans hf)
  | push i q t payload =>
    obtain ⟨ht, hst⟩ := push_frame hs
    refine ⟨fun f hf => ?_, fun hf => ?_, fun hf => ?_⟩
    · have hf := hst.symm.trans hf
      refine (h.sink f hf).push hs fun p hp he => ?_
      have := hok p hp he
      unfold Passed at this
      rw [hf] at this
      exact Decidable.not_not.mp this
    · have hf := hst.symm.trans hf
      refine (h.empty hf).push hs fun p hp he => ?_
      have := hok p hp he
      unfold Passed at this
      rw [hf] at this
      exact absurd rfl this
    · rw [ht]
      exact h.idle (hst.symm.trans hf)
  | start =>
    obtain ⟨ht, hs⟩ := Option.ite_none_right_eq_some.mp hs
    cases hs
    exact ⟨h.sink, h.empty, nofun⟩
  | stop drain =>
    obtain ⟨hst, hs⟩ := Option.ite_none_right_eq_some.mp hs
    cases hs
    unfold stop
    split
    · rename_i ht
      refine ⟨nofun, fun hf => ?_, fun _ => ?_⟩
      · have hd : drain = true := by simpa using hf
        exact fun i p hp _ => hok hd ht p (List.mem_of_getElem? hp)
      · intro f
        show s.task ≠ .sink f
        rw [ht]
        nofun
    · exact ⟨nofun, nofun, nofun⟩
  | consumer => exact finished_consumer h hi hs
  | stopper => exact finished_stopper h hi hs

theorem finished_reachable (h : ((loop c).restrict InTime).Reachable s) :
    Inv s ∧ Finished s := by
  have hind : ((loop c).restrict InTime).Inductive fun s => Inv s ∧ Finished s := by
    refine ⟨?_, fun s a s' ⟨hi, hf⟩ ⟨hok, hs⟩ => ⟨inv_step hi hs, finished_step hf hi hok hs⟩⟩
    rintro s rfl
    exact ⟨inv_init, nofun, nofun, nofun⟩
  exact hind.reachable s h

theorem totals_pushed : (totals s).pushed = (s.producers.map (·.stats.pushed)).sum := by
  have hgen : ∀ (l : List Producer) (t : ProducerStats), (l.foldl
      (fun t p => ⟨t.pushed + p.stats.pushed, t.dropped + p.stats.dropped,
        max t.high_water p.stats.high_water⟩) t).pushed =
      t.pushed + (l.map (·.stats.pushed)).sum := by
    intro l
    induction l with
    | nil => exact fun t => rfl
    | cons p l ih =>
      intro t
      rw [List.foldl_cons, ih, List.map_cons, List.sum_cons, Nat.add_assoc]
  exact (hgen _ _).trans (Nat.zero_add _)

/-- In a run in which every push is in time: once `stop(drain=True)` has
returned, all that was accepted has been handed to the sink, of every producer
and in number. -/
theorem async_all_delivered (h : ((loop c).restrict InTime).Reachable s)
    (hs : s.stop = .returned true) :
    s.sent.length = (totals s).pushed ∧
      ∀ (i : Nat) (p : Producer), s.producers[i]? = some p → s.delivered p.pid = p.accepted := by
  obtain ⟨hi, hf⟩ := finished_reachable h
  have hg := hi.good
  have hh : s.holding.2 = [] := by
    unfold State.holding
    rw [hs]
    cases ht : s.task with
    | sink f => exact absurd ht (hf.idle hs f)
    | _ => rfl
  have hb : ∀ p ∈ s.producers, p.buf = [] := by
    intro p hp
    obtain ⟨i, hi⟩ := List.mem_iff_getElem?.mp hp
    exact hf.empty hs i p hi nofun
  have hsum : (s.producers.map (·.buf.length)).sum = 0 := by
    have hz : s.producers.map (·.buf.length) = s.producers.map fun _ => 0 :=
      List.map_congr_left fun p hp => by rw [hb p hp, List.length_nil]
    rw [hz, List.map_const', List.sum_replicate_nat, Nat.mul_zero]
  rw [hh] at hg
  refine ⟨?_, fun i p hp => ?_⟩
  · have hc := hg.count
    rw [hsum] at hc
    rw [totals_pushed]
    exact hc
  · have hw := (hg.each i p hp).whole
    rw [ite_self, hb p (List.mem_of_getElem? hp), List.append_nil, List.append_nil] at hw
    rw [(hg.each i p hp).pid]
    exact hw

/-- One event, and `stop` after it. -/
def intime : List Act :=
  [.producer "a", .push 0 0 0 [], .start, .stop true, .consumer, .stopper, .stopper]

theorem async_all_delivered_one : ∃ s, intime.foldlM (step slices) .init = some s ∧
    (totals s).pushed = 1 ∧ s.sent.length = (totals s).pushed := by
  have hr : ∃ s, intime.foldlM (step slices) .init = some s ∧ s.stop = .returned true ∧
      (totals s).pushed = 1 ∧ ((loop slices).restrict InTime).Reachable s := by
    refine ⟨_, rfl, rfl, rfl, .init, intime, rfl, ?_⟩
    refine .cons ⟨trivial, rfl⟩ (.cons ⟨fun _ _ _ h => h, rfl⟩ (.cons ⟨trivial, rfl⟩ ?_))
    refine .cons ⟨fun _ ht => ?_, rfl⟩ (.cons ⟨trivial, rfl⟩ (.cons ⟨trivial, rfl⟩ ?_))
    · cases ht
    · exact .cons ⟨trivial, rfl⟩ (.nil _)
  obtain ⟨s, hs, hst, hp, hr⟩ := hr
  exact ⟨s, hs, hp, (async_all_delivered hr hst).1⟩

/-- One event before `stop`, one while the final flush awaits the sink. -/
def late : List Act :=
  [.producer "a", .push 0 0 0 [], .start, .stop true, .consumer, .stopper, .push 0 1 0 [],
    .stopper]

theorem not_async_all_delivered : ¬∀ s, (loop slices).Reachable s → s.stop = .returned true →
    s.sent.length = (totals s).pushed := by
  intro h
  have hr : ∃ s, late.foldlM (step slices) .init = some s ∧ s.stop = .returned true ∧
      s.sent.length = 1 ∧ (totals s).pushed = 2 := ⟨_, rfl, rfl, rfl, rfl⟩
  obtain ⟨s, hs, hst, hone, htwo⟩ := hr
  have := h s ⟨.init, late, rfl, .of_foldlM (fun _ _ _ h => h) hs⟩ hst
  omega

end Katas.Weir.Async
