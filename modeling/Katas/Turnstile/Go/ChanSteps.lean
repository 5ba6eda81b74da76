import Katas.Turnstile.Go.Chan

/-!
# What the goroutines of a channel queue do

`Step` says once what a step from each place does, and `Inv` is what holds of
every state: nobody closes a channel twice, or sends to a closed one.
-/
namespace Katas.Turnstile.Chan
open Katas.Conc

section
variable {V Tid : Type} {cfg : Config} [DecidableEq Tid]

/-! ## What a step can do -/

/-- A send, of the value and in the call. -/
inductive Sender : Place V → V → Call V → Prop
  | tries (v : V) : Sender (.tries v) v (.tryPush v)
  | sends (v : V) : Sender (.sends v) v (.push v)
  | selects (v : V) : Sender (.selects v) v (.push v)
  | fastTries (v : V) : Sender (.fastTries v) v (.push v)
  | waits (v : V) : Sender (.waits v) v (.push v)

inductive Receiver : Place V → Call V → Prop
  | tryRecv : Receiver .tryRecv .tryPop
  | recv : Receiver .recv .pop

/-- Loads `closing`, and goes on if it is not set. -/
inductive Asker : Place V → Call V → Place V → Prop
  | asks (v : V) : Asker (.asks v) (.tryPush v) (.tries v)
  | fastAsks (v : V) : Asker (.fastAsks v) (.push v) (.fastTries v)

/-- Selects over `done` too. -/
inductive Listener : Place V → Call V → Prop
  | selects (v : V) : Listener (.selects v) (.push v)
  | waits (v : V) : Listener (.waits v) (.push v)

/-- Runs out of time. -/
inductive Timed : Place V → Call V → Prop
  | clock (v : V) : Timed (.clock v) (.push v)
  | waits (v : V) : Timed (.waits v) (.push v)

/-- Finds no room, and does not wait. -/
inductive Trier : Place V → Place V → Prop
  | tries (v : V) : Trier (.tries v) (.answers (.tryPush v) (.push .full))
  | fastTries (v : V) : Trier (.fastTries v) (.clock v)

variable (cfg) in
/-- What a step from a place does. -/
inductive Step (s : State V Tid) : Place V → State V Tid → Place V → Prop
  | puts {g : Place V} {v : V} {c : Call V} : Sender g v c → s.chClosed = false →
      s.buf.length < cfg.cap → Step s g { s with buf := s.buf ++ [v] } (.answers c (.push .ok))
  | panics {g : Place V} {v : V} {c : Call V} : Sender g v c → s.chClosed = true →
      Step s g s (.answers c .panicked)
  | full {g g' : Place V} : Trier g g' → s.chClosed = false → cfg.cap ≤ s.buf.length →
      Step s g s g'
  | goesOn {g g' : Place V} {c : Call V} : Asker g c g' → s.closing = false → Step s g s g'
  | refuses {g g' : Place V} {c : Call V} : Asker g c g' → s.closing = true →
      Step s g s (.answers c (.push .closed))
  | hears {g : Place V} {c : Call V} : Listener g c → s.done = true →
      Step s g s (.answers c (.push .closed))
  | expires {g : Place V} {c : Call V} : Timed g c → Step s g s (.answers c (.push .timeout))
  | early (v : V) : Step s (.clock v) s (.waits v)
  | takes {g : Place V} {c : Call V} {w : V} {rest : List V} : Receiver g c → s.buf = w :: rest →
      Step s g { s with buf := rest } (.answers c (.pop (.ok w)))
  | drained {g : Place V} {c : Call V} : Receiver g c → s.buf = [] → s.chClosed = true →
      Step s g s (.answers c (.pop .drained))
  | empty : s.buf = [] → s.chClosed = false → Step s .tryRecv s (.answers .tryPop (.pop .empty))
  | wins : s.closing = false → Step s .claims { s with closing := true } .closesDone
  | loses : s.closing = true → Step s .claims s (.answers .close .closed)
  | closesDone : s.done = false →
      Step s .closesDone { s with done := true } (.answers .close .closed)
  | closesTwice : s.done = true → Step s .closesDone s (.answers .close .panicked)
  | closesCh : s.chClosed = false →
      Step s .closesCh { s with chClosed := true } (.answers .producersDone .producersDone)
  | closesChTwice : s.chClosed = true → Step s .closesCh s (.answers .producersDone .panicked)
  | looks : Step s .looks s (.answers .isClosed (.isClosed s.closing))
  | counts : Step s .counts s (.answers .occupancy (.occupancy s.buf.length))

variable {s s' : State V Tid} {g g' : Place V} {t : Tid}

section
omit [DecidableEq Tid]

variable (cfg) in
theorem sendSem_cases (v : V) (s : State V Tid) :
    s.chClosed = true ∧ sendSem cfg v s = some (s, .panics) ∨
      s.chClosed = false ∧ s.buf.length < cfg.cap ∧
        sendSem cfg v s = some ({ s with buf := s.buf ++ [v] }, .send) ∨
      s.chClosed = false ∧ cfg.cap ≤ s.buf.length ∧ sendSem cfg v s = none := by
  unfold sendSem
  cases s.chClosed with
  | true => exact .inl ⟨rfl, rfl⟩
  | false =>
    by_cases h : s.buf.length < cfg.cap
    · exact .inr (.inl ⟨rfl, h, by simp [h]⟩)
    · exact .inr (.inr ⟨rfl, Nat.le_of_not_lt h, by simp [h]⟩)

theorem recvSem_cases (s : State V Tid) :
    (∃ w rest, s.buf = w :: rest ∧ recvSem s = some ({ s with buf := rest }, .got w)) ∨
      s.buf = [] ∧ s.chClosed = true ∧ recvSem s = some (s, .closed) ∨
      s.buf = [] ∧ s.chClosed = false ∧ recvSem s = none := by
  unfold recvSem
  cases s.buf with
  | cons w rest => exact .inl ⟨w, rest, rfl, rfl⟩
  | nil =>
    cases s.chClosed with
    | true => exact .inr (.inl ⟨rfl, rfl, rfl⟩)
    | false => exact .inr (.inr ⟨rfl, rfl, rfl⟩)

/-- A send that is not passed over. -/
theorem step_send {v : V} {c : Call V} {k : Case} (h : sendSem cfg v s = some (s', k))
    (hg : Sender g v c) : Step cfg s g s' (.answers c (sent k)) ∧ (k = .send ∨ k = .panics) := by
  obtain ⟨hch, he⟩ | ⟨hch, hroom, he⟩ | ⟨-, -, he⟩ := sendSem_cases cfg v s
  · rw [he] at h; cases h
    exact ⟨.panics hg hch, .inr rfl⟩
  · rw [he] at h; cases h
    exact ⟨.puts hg hch hroom, .inl rfl⟩
  · rw [he] at h; cases h

theorem step_recv {c : Call V} {r : Recv V} (h : recvSem s = some (s', r)) (hg : Receiver g c) :
    Step cfg s g s' (.answers c (received r)) := by
  obtain ⟨w, rest, hb, he⟩ | ⟨hb, hch, he⟩ | ⟨-, -, he⟩ := recvSem_cases s
  · rw [he] at h; cases h
    exact .takes hg hb
  · rw [he] at h; cases h
    exact .drained hg hb hch
  · rw [he] at h; cases h

theorem step_select {v : V} {c : Call V} {timer : Bool} {n : Nat} {k : Case}
    (h : sem cfg t (.selectSend v timer) n s = some (s', k)) (hg : Sender g v c)
    (hl : Listener g c) (ht : timer = true → Timed g c) :
    Step cfg s g s' (.answers c (sent k)) := by
  match n, h with
  | 0, h => exact (step_send h hg).1
  | 1, h =>
    have h : (if s.done then some (s, Case.done) else none) = some (s', k) := h
    by_cases hd : s.done = true
    · rw [if_pos hd] at h; cases h
      exact .hears hl hd
    · rw [if_neg hd] at h; cases h
  | n + 2, h =>
    have h : (if timer then some (s, Case.timer) else none) = some (s', k) := h
    by_cases hd : timer = true
    · rw [if_pos hd] at h; cases h
      exact .expires (ht hd)
    · rw [if_neg hd] at h; cases h

theorem step_try {v : V} {n : Nat} {k : Case} (h : sem cfg t (.trySend v) n s = some (s', k)) :
    (∀ c, Sender g v c → k = .send ∨ k = .panics → Step cfg s g s' (.answers c (sent k))) ∧
      (k = .send ∨ k = .panics ∨ k = .other ∧ s' = s ∧ s.chClosed = false ∧
        cfg.cap ≤ s.buf.length) := by
  have h : some ((sendSem cfg v s).getD (s, .other)) = some (s', k) := h
  obtain ⟨hch, he⟩ | ⟨hch, hroom, he⟩ | ⟨hch, hfull, he⟩ := sendSem_cases cfg v s
  · rw [he] at h; cases h
    exact ⟨fun c hg _ => .panics hg hch, .inr (.inl rfl)⟩
  · rw [he] at h; cases h
    exact ⟨fun c hg _ => .puts hg hch hroom, .inl rfl⟩
  · rw [he] at h; cases h
    refine ⟨fun c _ hk => ?_, .inr (.inr ⟨rfl, rfl, hch, hfull⟩)⟩
    obtain hk | hk := hk <;> cases hk

/-- Every move is such a step. -/
theorem move_step {a : Act V} {n : Nat} {r : Resp a} (hs : sem cfg t a n s = some (s', r))
    (hm : Move g a r g') : Step cfg s g s' g' := by
  cases hm with
  | asks v b =>
    cases hs
    cases hc : s.closing with
    | true => exact .refuses (.asks v) hc
    | false => exact .goesOn (.asks v) hc
  | fastAsks v b =>
    cases hs
    cases hc : s.closing with
    | true => exact .refuses (.fastAsks v) hc
    | false => exact .goesOn (.fastAsks v) hc
  | tries v k =>
    obtain ⟨hstep, rfl | rfl | ⟨rfl, rfl, hch, hfull⟩⟩ := step_try (g := .tries v) hs
    · exact hstep _ (.tries v) (.inl rfl)
    · exact hstep _ (.tries v) (.inr rfl)
    · exact .full (.tries v) hch hfull
  | fastTries v k =>
    obtain ⟨hstep, rfl | rfl | ⟨rfl, rfl, hch, hfull⟩⟩ := step_try (g := .fastTries v) hs
    · exact hstep _ (.fastTries v) (.inl rfl)
    · exact hstep _ (.fastTries v) (.inr rfl)
    · exact .full (.fastTries v) hch hfull
  | sends v k => exact (step_send hs (.sends v)).1
  | selects v k => exact step_select hs (.selects v) (.selects v) fun h => by cases h
  | waits v k => exact step_select hs (.waits v) (.waits v) fun _ => .waits v
  | clock v b =>
    cases hs
    cases n == 0 with
    | true => exact .early v
    | false => exact .expires (.clock v)
  | tryRecv r =>
    have hs : some ((recvSem s).getD (s, .empty)) = some (s', r) := hs
    obtain ⟨w, rest, hb, he⟩ | ⟨hb, hch, he⟩ | ⟨hb, hch, he⟩ := recvSem_cases s
    · rw [he] at hs; cases hs
      exact .takes .tryRecv hb
    · rw [he] at hs; cases hs
      exact .drained .tryRecv hb hch
    · rw [he] at hs; cases hs
      exact .empty hb hch
  | recv r => exact step_recv hs .recv
  | claims b =>
    cases hs
    cases hc : s.closing with
    | true =>
      have hsame : { s with closing := true } = s := by rw [← hc]
      rw [hsame]
      exact .loses hc
    | false => exact .wins hc
  | closesDone b =>
    cases hs
    cases hc : s.done with
    | true =>
      have hsame : { s with done := true } = s := by rw [← hc]
      rw [hsame]
      exact .closesTwice hc
    | false => exact .closesDone hc
  | closesCh b =>
    cases hs
    cases hc : s.chClosed with
    | true =>
      have hsame : { s with chClosed := true } = s := by rw [← hc]
      rw [hsame]
      exact .closesChTwice hc
    | false => exact .closesCh hc
  | looks b => cases hs; exact .looks
  | counts n => cases hs; exact .counts

end

/-! ## What holds of every state -/

variable (cfg) in
/-- How a push may end that began after a `Close` had returned. -/
def LateEnd (c : Call V) (r : Result V) : Prop :=
  r = .push .closed ∨ cfg.send ≠ .fast ∧ ∃ v, c = .push v

variable (cfg) in
/-- What holds of a goroutine at its place. -/
def Place.At (s : State V Tid) (t : Tid) : Place V → Prop
  | .asks _ => t ∈ s.pushing
  | .tries _ => t ∈ s.pushing ∧ s.late t = false
  | .fastAsks _ => t ∈ s.pushing ∧ cfg.send = .fast
  | .fastTries _ | .clock _ | .waits _ => t ∈ s.pushing ∧ s.late t = false ∧ cfg.send = .fast
  | .sends _ => t ∈ s.pushing ∧ cfg.send = .plain
  | .selects _ => t ∈ s.pushing ∧ cfg.send = .select
  | .closesDone => s.closing = true ∧ s.done = false
  | .closesCh => s.ended = true ∧ s.chClosed = false
  | .answers c r => r ≠ .panicked ∧ (c = .close → s.closing = true) ∧
      (r = .pop .drained → s.chClosed = true ∧ s.buf = []) ∧
      (c.pushes = true → t ∈ s.pushing ∧ (s.late t = true → LateEnd cfg c r))
  | _ => True

variable (cfg) in
structure Inv (s : State V Tid) (γ : Tid → Place V) : Prop where
  at_ : ∀ t, (γ t).At cfg s t
  oneDone : ∀ t u, γ t = .closesDone → γ u = .closesDone → t = u
  oneCh : ∀ t u, γ t = .closesCh → γ u = .closesCh → t = u
  room : s.buf.length ≤ cfg.cap
  ended : s.ended = true → s.pushing = []
  chEnded : s.chClosed = true → s.ended = true
  doneClosing : s.done = true → s.closing = true
  told : s.told = true → s.closing = true
  late : ∀ t, s.late t = true → s.told = true
  owesDone : s.closing = true → s.done = true ∨ ∃ t, γ t = .closesDone
  owesCh : s.ended = true → s.chClosed = true ∨ ∃ t, γ t = .closesCh
  afterClose : ∀ c ∈ s.afterClose, cfg.send ≠ .fast ∧ ∃ v, c = .push v

section
omit [DecidableEq Tid]

/-- What another goroutine's step must keep. -/
theorem Place.At.mono (h : g.At cfg s t) (hclosing : s.closing = true → s'.closing = true)
    (hdone : g = .closesDone → s'.done = s.done) (hch : g = .closesCh → s'.chClosed = s.chClosed)
    (hended : s.ended = true → s'.ended = true) (hpush : t ∈ s.pushing → t ∈ s'.pushing)
    (hlate : s'.late t = s.late t)
    (hdrained : s.chClosed = true → s.buf = [] → s'.chClosed = true ∧ s'.buf = []) :
    g.At cfg s' t := by
  cases g with
  | asks => exact hpush h
  | tries => exact ⟨hpush h.1, hlate.trans h.2⟩
  | fastAsks | sends | selects => exact ⟨hpush h.1, h.2⟩
  | fastTries | clock | waits => exact ⟨hpush h.1, hlate.trans h.2.1, h.2.2⟩
  | closesDone => exact ⟨hclosing h.1, (hdone rfl).trans h.2⟩
  | closesCh => exact ⟨hended h.1, (hch rfl).trans h.2⟩
  | answers c r =>
    obtain ⟨h1, h2, h3, h4⟩ := h
    refine ⟨h1, fun hc => hclosing (h2 hc), fun hr => ?_, fun hc => ?_⟩
    · obtain ⟨hch, hb⟩ := h3 hr
      exact hdrained hch hb
    · obtain ⟨hp, hl⟩ := h4 hc
      exact ⟨hpush hp, fun ht => hl (hlate ▸ ht)⟩
  | _ => trivial

theorem Sender.at_ {v : V} {c : Call V} (hg : Sender g v c) (h : g.At cfg s t) :
    t ∈ s.pushing ∧ c.pushes = true ∧ (s.late t = true → cfg.send ≠ .fast ∧ ∃ v, c = .push v) := by
  cases hg with
  | tries => exact ⟨h.1, rfl, fun hl => absurd (h.2.symm.trans hl) Bool.false_ne_true⟩
  | fastTries | waits =>
    exact ⟨h.1, rfl, fun hl => absurd (h.2.1.symm.trans hl) Bool.false_ne_true⟩
  | sends | selects =>
    refine ⟨h.1, rfl, fun _ => ⟨?_, _, rfl⟩⟩
    rw [h.2]
    decide

/-- Nobody closes the data channel while a push is in progress. -/
theorem Inv.open_ {γ : Tid → Place V} (h : Inv cfg s γ) (ht : t ∈ s.pushing) :
    s.ended = false ∧ s.chClosed = false := by
  have hended : s.ended = false := by
    cases hended : s.ended with
    | false => rfl
    | true =>
      rw [h.ended hended] at ht
      exact absurd ht List.not_mem_nil
  refine ⟨hended, ?_⟩
  cases hch : s.chClosed with
  | false => rfl
  | true => exact absurd (hended.symm.trans (h.chEnded hch)) Bool.false_ne_true

theorem at_answer {c : Call V} {r : Result V} (h1 : r ≠ .panicked)
    (h2 : c = .close → s.closing = true) (h3 : r ≠ .pop .drained)
    (h4 : c.pushes = true → t ∈ s.pushing ∧ (s.late t = true → LateEnd cfg c r)) :
    (Place.answers c r).At cfg s t :=
  ⟨h1, h2, fun hr => absurd hr h3, h4⟩

/-- Where the step leads, holds. -/
theorem Step.at_ {γ : Tid → Place V} (h : Step cfg s g s' g') (hi : Inv cfg s γ) (hg : γ t = g) :
    g'.At cfg s' t := by
  have hat := hi.at_ t
  rw [hg] at hat
  cases h with
  | puts hs hch hroom =>
    obtain ⟨hp, hc, hl⟩ := hs.at_ hat
    exact at_answer (fun h => by cases h) (fun h => by subst h; cases hc) (fun h => by cases h)
      fun _ => ⟨hp, fun ht => .inr (hl ht)⟩
  | panics hs hch =>
    have := (hi.open_ (hs.at_ hat).1).2
    exact absurd (this.symm.trans hch) Bool.false_ne_true
  | full ht hch hfull =>
    cases ht with
    | tries v =>
      refine at_answer (fun h => by cases h) (fun h => by cases h) (fun h => by cases h)
        fun _ => ⟨hat.1, fun hl => ?_⟩
      exact absurd (hat.2.symm.trans hl) Bool.false_ne_true
    | fastTries v => exact hat
  | goesOn ha hc =>
    have hlate : s.late t = false := by
      cases hl : s.late t with
      | false => rfl
      | true => exact absurd (hc.symm.trans (hi.told (hi.late t hl))) Bool.false_ne_true
    cases ha with
    | asks v => exact ⟨hat, hlate⟩
    | fastAsks v => exact ⟨hat.1, hlate, hat.2⟩
  | refuses ha hc =>
    cases ha with
    | asks v =>
      exact at_answer (fun h => by cases h) (fun h => by cases h) (fun h => by cases h)
        fun _ => ⟨hat, fun _ => .inl rfl⟩
    | fastAsks v =>
      exact at_answer (fun h => by cases h) (fun h => by cases h) (fun h => by cases h)
        fun _ => ⟨hat.1, fun _ => .inl rfl⟩
  | hears hl hd =>
    cases hl with
    | selects v | waits v =>
      exact at_answer (fun h => by cases h) (fun h => by cases h) (fun h => by cases h)
        fun _ => ⟨hat.1, fun _ => .inl rfl⟩
  | expires ht =>
    cases ht with
    | clock v | waits v =>
      refine at_answer (fun h => by cases h) (fun h => by cases h) (fun h => by cases h)
        fun _ => ⟨hat.1, fun hl => ?_⟩
      exact absurd (hat.2.1.symm.trans hl) Bool.false_ne_true
  | early v => exact hat
  | takes hr hb =>
    cases hr <;> exact at_answer (fun h => by cases h) (fun h => by cases h)
      (fun h => by cases h) fun h => by cases h
  | drained hr hb hch =>
    cases hr <;> exact ⟨fun h => (by cases h), fun h => (by cases h), fun _ => ⟨hch, hb⟩,
      fun h => (by cases h)⟩
  | wins hc =>
    refine ⟨rfl, ?_⟩
    cases hd : s.done with
    | false => rfl
    | true => exact absurd (hc.symm.trans (hi.doneClosing hd)) Bool.false_ne_true
  | loses hc =>
    exact at_answer (fun h => by cases h) (fun _ => hc) (fun h => by cases h) fun h => by cases h
  | closesDone hd =>
    exact at_answer (fun h => by cases h) (fun _ => hat.1) (fun h => by cases h)
      fun h => by cases h
  | closesTwice hd => exact absurd (hat.2.symm.trans hd) Bool.false_ne_true
  | closesChTwice hd => exact absurd (hat.2.symm.trans hd) Bool.false_ne_true
  | empty | closesCh | looks | counts =>
    exact at_answer (fun h => by cases h) (fun h => by cases h) (fun h => by cases h)
      fun h => by cases h

/-- What a step leaves of the state to the others. -/
theorem Step.others {γ : Tid → Place V} (h : Step cfg s g s' g') (hi : Inv cfg s γ) (hg : γ t = g)
    {u : Tid} (hu : u ≠ t) : (γ u).At cfg s' u := by
  have hat := hi.at_ u
  cases h with
  | puts hs hch hroom =>
    refine hat.mono id (fun _ => rfl) (fun _ => rfl) id id rfl fun h _ => ?_
    exact absurd (hch.symm.trans h) Bool.false_ne_true
  | takes hr hb =>
    refine hat.mono id (fun _ => rfl) (fun _ => rfl) id id rfl fun _ he => ?_
    rw [hb] at he
    cases he
  | wins hc =>
    exact hat.mono (fun _ => rfl) (fun _ => rfl) (fun _ => rfl) id id rfl fun h1 h2 => ⟨h1, h2⟩
  | closesDone hd =>
    exact hat.mono id (fun hu' => absurd (hi.oneDone u t hu' hg) hu) (fun _ => rfl) id id rfl
      fun h1 h2 => ⟨h1, h2⟩
  | closesCh hd =>
    exact hat.mono id (fun _ => rfl) (fun hu' => absurd (hi.oneCh u t hu' hg) hu) id id rfl
      fun _ h2 => ⟨rfl, h2⟩
  | _ => exact hat

/-- What a step leaves of the fields. -/
theorem Step.fields (h : Step cfg s g s' g') : s'.pushing = s.pushing ∧ s'.ended = s.ended ∧
    s'.told = s.told ∧ s'.late = s.late ∧ s'.afterClose = s.afterClose := by
  cases h <;> exact ⟨rfl, rfl, rfl, rfl, rfl⟩

theorem Step.room (h : Step cfg s g s' g') (hr : s.buf.length ≤ cfg.cap) :
    s'.buf.length ≤ cfg.cap := by
  cases h with
  | puts hs hch hroom =>
    rw [List.length_append, List.length_singleton]
    exact hroom
  | takes hg hb =>
    rw [hb, List.length_cons] at hr
    exact Nat.le_of_succ_le hr
  | _ => exact hr

theorem Step.closed (h : Step cfg s g s' g') (hg : g.At cfg s t)
    (hch : s.chClosed = true → s.ended = true) (hd : s.done = true → s.closing = true)
    (ht : s.told = true → s.closing = true) :
    (s'.chClosed = true → s'.ended = true) ∧ (s'.done = true → s'.closing = true) ∧
      (s'.told = true → s'.closing = true) := by
  cases h with
  | wins hc => exact ⟨hch, fun _ => rfl, fun _ => rfl⟩
  | closesDone => exact ⟨hch, fun _ => hg.1, ht⟩
  | closesCh => exact ⟨fun _ => hg.1, hd, ht⟩
  | _ => exact ⟨hch, hd, ht⟩

/-- Where a step ends in the middle of a close, no other is. -/
theorem Step.alone {γ : Tid → Place V} (h : Step cfg s g s' g') (hi : Inv cfg s γ) (u : Tid) :
    (g' = .closesDone → γ u ≠ .closesDone) ∧ g' ≠ .closesCh := by
  cases h with
  | wins hc =>
    refine ⟨fun _ hu => ?_, fun h => by cases h⟩
    have hat := hi.at_ u
    rw [hu] at hat
    exact absurd (hc.symm.trans hat.1) Bool.false_ne_true
  | full ht => cases ht <;> exact ⟨fun h => (by cases h), fun h => (by cases h)⟩
  | goesOn ha => cases ha <;> exact ⟨fun h => (by cases h), fun h => (by cases h)⟩
  | _ => exact ⟨fun h => (by cases h), fun h => (by cases h)⟩

end

/-- At most one of the goroutines stands at `p`, after one moved there from elsewhere. -/
theorem one_upd {γ : Tid → Place V} {p : Place V} (h : ∀ t u, γ t = p → γ u = p → t = u)
    (hg : g' = p → ∀ u, γ u ≠ p) (a b : Tid) (ha : upd γ t g' a = p) (hb : upd γ t g' b = p) :
    a = b := by
  rw [upd_apply] at ha hb
  split at ha <;> split at hb
  · rename_i h1 h2
    rw [h1, h2]
  · exact absurd hb (hg ha b)
  · exact absurd ha (hg hb a)
  · exact h a b ha hb

omit [DecidableEq Tid] in
/-- Who closes a channel, closes it. -/
theorem Step.owes (h : Step cfg s g s' g') :
    (s.done = true → s'.done = true) ∧ (s.chClosed = true → s'.chClosed = true) ∧
      (s'.closing = true →
        g' = .closesDone ∨ s'.done = true ∨ s.closing = true ∧ g ≠ .closesDone) ∧
      (s'.chClosed = true ∨ g ≠ .closesCh) := by
  cases h with
  | puts hg | panics hg | full hg | goesOn hg | refuses hg | hears hg | expires hg | takes hg
  | drained hg =>
    refine ⟨id, id, fun hc => .inr (.inr ⟨hc, ?_⟩), .inr ?_⟩ <;> (rintro rfl; cases hg)
  | early | empty | loses | looks | counts =>
    exact ⟨id, id, fun hc => .inr (.inr ⟨hc, fun h => (by cases h)⟩), .inr fun h => (by cases h)⟩
  | wins => exact ⟨id, id, fun _ => .inl rfl, .inr fun h => (by cases h)⟩
  | closesDone => exact ⟨fun _ => rfl, id, fun _ => .inr (.inl rfl), .inr fun h => (by cases h)⟩
  | closesTwice hd => exact ⟨id, id, fun _ => .inr (.inl hd), .inr fun h => (by cases h)⟩
  | closesCh =>
    exact ⟨id, fun _ => rfl, fun hc => .inr (.inr ⟨hc, fun h => (by cases h)⟩), .inl rfl⟩
  | closesChTwice hd =>
    exact ⟨id, id, fun hc => .inr (.inr ⟨hc, fun h => (by cases h)⟩), .inl hd⟩

theorem owed_upd {γ : Tid → Place V} {p : Place V} {b : Prop} (h : b ∨ ∃ u, γ u = p)
    (hp : γ t ≠ p) : b ∨ ∃ u, upd γ t g u = p := by
  obtain h | ⟨u, hu⟩ := h
  · exact .inl h
  · refine .inr ⟨u, ?_⟩
    rwa [upd_ne]
    rintro rfl
    exact hp hu

theorem Step.inv {γ : Tid → Place V} (h : Step cfg s (γ t) s' g') (hi : Inv cfg s γ) :
    Inv cfg s' (upd γ t g') := by
  obtain ⟨h1, h2, h3, h4, h5⟩ := h.fields
  obtain ⟨hch, hdone, htold⟩ := h.closed (hi.at_ t) hi.chEnded hi.doneClosing hi.told
  obtain ⟨hkeepDone, hkeepCh, howes, howes'⟩ := h.owes
  refine ⟨fun u => ?_, ?_, ?_, h.room hi.room, ?_, hch, hdone, htold, ?_, fun hc => ?_,
    fun ho => ?_, ?_⟩
  · by_cases hu : u = t
    · subst hu
      rw [upd_self]
      exact h.at_ hi rfl
    · rw [upd_ne _ _ hu]
      exact h.others hi rfl hu
  · exact one_upd hi.oneDone fun hg u => (h.alone hi u).1 hg
  · exact one_upd hi.oneCh fun hg u => absurd hg (h.alone hi u).2
  · rw [h2, h1]; exact hi.ended
  · rw [h4, h3]; exact hi.late
  · obtain rfl | hd | ⟨hc, hne⟩ := howes hc
    · exact .inr ⟨t, upd_self _ _ _⟩
    · exact .inl hd
    · exact (owed_upd (hi.owesDone hc) hne).imp_left hkeepDone
  · rw [h2] at ho
    obtain hd | hne := howes'
    · exact .inl hd
    · exact (owed_upd (hi.owesCh ho) hne).imp_left hkeepCh
  · rw [h5]; exact hi.afterClose

theorem begins_push {γ : Tid → Place V} (hi : Inv cfg s γ) (hidle : γ t = .idle)
    (hended : s.ended = false)
    (hg : ∀ s' : State V Tid, t ∈ s'.pushing → g.At cfg s' t) (hne : g ≠ .closesDone)
    (hne' : g ≠ .closesCh) :
    Inv cfg { s with pushing := t :: s.pushing, late := upd s.late t s.told } (upd γ t g) := by
  refine ⟨fun u => ?_, ?_, ?_, hi.room, fun ho => ?_, hi.chEnded, hi.doneClosing, hi.told,
    fun u hu => ?_, fun hc => owed_upd (hi.owesDone hc) ?_, fun ho => owed_upd (hi.owesCh ho) ?_,
    hi.afterClose⟩
  · by_cases hu : u = t
    · subst hu
      rw [upd_self]
      exact hg _ List.mem_cons_self
    · rw [upd_ne _ _ hu]
      exact (hi.at_ u).mono id (fun _ => rfl) (fun _ => rfl) id (List.mem_cons_of_mem _)
        (upd_ne _ _ hu) fun h1 h2 => ⟨h1, h2⟩
  · exact one_upd hi.oneDone fun hg => absurd hg hne
  · exact one_upd hi.oneCh fun hg => absurd hg hne'
  · exact absurd (hended.symm.trans ho) Bool.false_ne_true
  · by_cases hut : u = t
    · subst hut
      have hu : upd s.late u s.told u = true := hu
      rwa [upd_self] at hu
    · have hu : upd s.late t s.told u = true := hu
      rw [upd_ne _ _ hut] at hu
      exact hi.late u hu
  · rw [hidle]
    exact fun h => by cases h
  · rw [hidle]
    exact fun h => by cases h

/-- Where no channel is being closed before or after, only places change. -/
theorem begins_other {γ : Tid → Place V} (hi : Inv cfg s γ)
    (hfrom : γ t ≠ .closesDone ∧ γ t ≠ .closesCh) (hg : g.At cfg s t)
    (hne : g ≠ .closesDone) (hne' : g ≠ .closesCh) : Inv cfg s (upd γ t g) := by
  refine ⟨fun u => ?_, one_upd hi.oneDone fun hg => absurd hg hne,
    one_upd hi.oneCh fun hg => absurd hg hne', hi.room, hi.ended, hi.chEnded, hi.doneClosing,
    hi.told, hi.late, fun hc => owed_upd (hi.owesDone hc) hfrom.1,
    fun ho => owed_upd (hi.owesCh ho) hfrom.2, hi.afterClose⟩
  by_cases hu : u = t
  · subst hu
    rw [upd_self]
    exact hg
  · rw [upd_ne _ _ hu]
    exact hi.at_ u

theorem begins_producersDone {γ : Tid → Place V} (hi : Inv cfg s γ) (hidle : γ t = .idle)
    (hp : s.pushing = []) (hended : s.ended = false) : Inv cfg { s with ended := true } (upd γ t .closesCh) := by
  have hch : s.chClosed = false := by
    cases hch : s.chClosed with
    | false => rfl
    | true => exact absurd (hended.symm.trans (hi.chEnded hch)) Bool.false_ne_true
  refine ⟨fun u => ?_, one_upd hi.oneDone fun hg => (by cases hg), one_upd hi.oneCh fun _ u hu => ?_,
    hi.room, fun _ => hp, fun _ => rfl, hi.doneClosing, hi.told, hi.late,
    fun hc => owed_upd (hi.owesDone hc) (by rw [hidle]; exact fun h => by cases h),
    fun _ => .inr ⟨t, upd_self _ _ _⟩, hi.afterClose⟩
  · by_cases hu : u = t
    · subst hu
      rw [upd_self]
      exact ⟨rfl, hch⟩
    · rw [upd_ne _ _ hu]
      exact (hi.at_ u).mono id (fun _ => rfl) (fun _ => rfl) (fun _ => rfl) id rfl
        fun h1 h2 => ⟨h1, h2⟩
  · have hat := hi.at_ u
    rw [hu] at hat
    exact absurd (hended.symm.trans hat.1) Bool.false_ne_true

theorem ends_push {γ : Tid → Place V} {c : Call V} {r : Result V} (hi : Inv cfg s γ)
    (hg : γ t = .answers c r) (hc : c.pushes = true) {l : List (Call V)}
    (hl : ∀ x ∈ l, x ∈ s.afterClose ∨ x = c ∧ r = .push .ok ∧ s.late t = true) :
    Inv cfg { s with pushing := s.pushing.erase t, afterClose := l } (upd γ t .idle) := by
  refine ⟨fun u => ?_, one_upd hi.oneDone fun hg => (by cases hg),
    one_upd hi.oneCh fun hg => (by cases hg), hi.room, fun ho => ?_, hi.chEnded, hi.doneClosing,
    hi.told, hi.late, fun hc => owed_upd (hi.owesDone hc) (by rw [hg]; exact fun h => by cases h),
    fun ho => owed_upd (hi.owesCh ho) (by rw [hg]; exact fun h => by cases h), fun x hx => ?_⟩
  · by_cases hu : u = t
    · subst hu
      rw [upd_self]
      trivial
    · rw [upd_ne _ _ hu]
      exact (hi.at_ u).mono id (fun _ => rfl) (fun _ => rfl) id
        (List.mem_erase_of_ne hu).mpr rfl fun h1 h2 => ⟨h1, h2⟩
  · dsimp only
    rw [hi.ended ho]
    rfl
  · obtain hx | ⟨rfl, rfl, hlate⟩ := hl x hx
    · exact hi.afterClose x hx
    · have hat := hi.at_ t
      rw [hg] at hat
      obtain hend | hend := (hat.2.2.2 hc).2 hlate
      · cases hend
      · exact hend

theorem inv_keeps : (flow V Tid cfg).Keeps (fun _ _ _ => True) (Inv cfg) where
  init := ⟨fun _ => trivial, fun _ _ h => (by cases h), fun _ _ h => (by cases h), Nat.zero_le _,
    fun h => (by cases h), fun h => (by cases h), fun h => (by cases h), fun h => (by cases h),
    fun _ h => (by cases h), fun h => (by cases h), fun h => (by cases h),
    fun _ h => absurd h List.not_mem_nil⟩
  begin := by
    rintro s γ - hi t c hidle he
    have hidle : γ t = .idle := hidle
    cases c with
    | tryPush v =>
      exact begins_push hi hidle (by simpa [enabled] using he) (fun _ h => h) (fun h => by cases h)
        fun h => by cases h
    | push v =>
      have hended : s.ended = false := by simpa [enabled] using he
      show Inv cfg { s with pushing := t :: s.pushing, late := upd s.late t s.told }
        (upd γ t (startPlace cfg (.push v)))
      unfold startPlace
      dsimp only
      cases hm : cfg.send with
      | fast | select | plain =>
        exact begins_push hi hidle hended (fun _ h => ⟨h, hm⟩) (fun h => by cases h) fun h => by cases h
    | producersDone =>
      have he : s.pushing = [] ∧ s.ended = false := by simpa [enabled] using he
      exact begins_producersDone hi hidle he.1 he.2
    | tryPop | pop | close | isClosed | occupancy =>
      refine begins_other hi ?_ trivial (fun h => by cases h) fun h => by cases h
      rw [hidle]
      exact ⟨fun h => (by cases h), fun h => (by cases h)⟩
  move := by
    rintro s γ - hi t a n s' r g - hs hm
    exact (move_step (t := t) (n := n) hs hm).inv hi
  finish := by
    rintro s γ - hi t c r he
    have hg : γ t = .answers c r := he
    have hfrom : γ t ≠ .closesDone ∧ γ t ≠ .closesCh := by
      rw [hg]
      exact ⟨fun h => (by cases h), fun h => (by cases h)⟩
    cases c with
    | tryPush v | push v =>
      refine ends_push hi hg rfl fun x hx => ?_
      split at hx
      · split at hx
        · obtain hx | hx := List.mem_append.mp hx
          · exact .inl hx
          · exact .inr ⟨List.mem_singleton.mp hx, rfl, ‹_›⟩
        · exact .inl hx
      · exact .inl hx
    | close =>
      have hat := hi.at_ t
      rw [hg] at hat
      have hidle := begins_other hi hfrom (g := .idle) trivial (fun h => by cases h)
        fun h => by cases h
      exact ⟨fun u => (hidle.at_ u).mono id (fun _ => rfl) (fun _ => rfl) id id rfl
          fun h1 h2 => ⟨h1, h2⟩, hidle.oneDone, hidle.oneCh, hidle.room, hidle.ended, hidle.chEnded,
        hidle.doneClosing, fun _ => hat.2.1 rfl, fun _ _ => rfl, hidle.owesDone, hidle.owesCh,
        hidle.afterClose⟩
    | tryPop | pop | producersDone | isClosed | occupancy =>
      exact begins_other hi hfrom trivial (fun h => by cases h) fun h => by cases h

end
end Katas.Turnstile.Chan
