import Katas.Core.Client
import Katas.Weir.ChannelDrain
import Katas.Weir.Transport

/-!
# The channel pipeline as a transport

The adapter's `Start` passes a context that nobody cancels, so `Close` alone
does, and ignores the sink it is given: what is written goes to the pipeline's
own. `Close` closes no channel, so a push that has looked at `closed` may still
send; it is a push that had not returned when `Close` was called. The final
drain ends with a pass that finds no event of those before.
-/
namespace Katas.Weir.Channel
open Katas.Conc Flow

/-! ## Who cancels, and who holds the lock -/

/-- A call of `Close`, or one of `Producer` that does not hold the lock, or
does. -/
inductive Errand where
  | other
  | stop
  | register
  | locked
  deriving DecidableEq

/-- Neither cancels nor takes or leaves the lock. -/
def plain {V : Type} : Act V → Bool
  | .cancelCall | .lock | .unlock => false
  | _ => true

section
variable {V Tid : Type} [DecidableEq Tid] {cfg : Config}

inductive ErrandMove : Errand → (a : Act V) → Resp a → Errand → Prop
  | plain (e : Errand) {a : Act V} (r : Resp a) : plain a = true → ErrandMove e a r e
  | cancel : ErrandMove .stop .cancelCall () .stop
  | lock : ErrandMove .register .lock () .locked
  | unlock : ErrandMove .locked .unlock () .register

def Call.errand : Call V → Errand
  | .close | .cancel => .stop
  | .producer => .register
  | _ => .other

variable (V Tid cfg) in
abbrev errandFlow : Flow (pipeline V Tid cfg) where
  G := Errand
  idle := .other
  start _ c := c.errand
  move _ := ErrandMove
  ends _ _ _ _ := True
  pre _ _ g := g = .other
  post _ _ g _ g' := g' = g

abbrev Plain {α : Type} (p : M V α) : Prop := p.Silent (fun a => plain a = true) fun _ => True

theorem plain_start : Plain (start : M V Result) := by
  refine .op rfl fun won => ?_
  split
  · exact .op rfl fun _ => .op rfl fun _ => Prog.silent_ret _
  · exact Prog.silent_ret _

theorem plain_scan (next n : Nat) :
    (scan cfg next n : M V Result).Silent (fun a => plain a = true) fun _ => False := by
  induction n with
  | zero => trivial
  | succ n ih =>
    refine .op rfl fun won => ?_
    split
    · exact .op rfl fun _ => .op rfl fun _ => .op rfl fun _ => .op rfl fun _ =>
          .op rfl fun _ => Prog.silent_ret _
    · exact ih

theorem plain_push (h : Nat) (v : V) : Plain (push h v) := by
  refine .op rfl fun closed => ?_
  split
  · exact Prog.silent_ret _
  · refine .op rfl fun i => .op rfl fun sent => ?_
    split
    · refine .op rfl fun _ => .op rfl fun d => .op rfl fun hw => ?_
      dsimp only
      split
      · exact .op rfl fun _ => Prog.silent_ret _
      · exact Prog.silent_ret _
    · exact .op rfl fun _ => Prog.silent_ret _

theorem plain_closeProducer (h : Nat) : Plain (closeProducer h : M V Result) := by
  refine .op rfl fun i => .op rfl fun won => ?_
  split
  · exact .op rfl fun _ => Prog.silent_ret _
  · exact Prog.silent_ret _

theorem plain_flush : Plain (flush : M V Unit) := by
  refine .op rfl fun len => ?_
  split
  · exact Prog.silent_ret _
  · exact .op rfl fun _ => Prog.silent_op rfl

theorem plain_drainFrom (n total : Nat) : Plain (drainFrom cfg n total : M V Nat) := by
  induction n generalizing total with
  | zero => exact plain_flush.seq fun _ => Prog.silent_ret _
  | succ n ih =>
    have rest (got : Nat) : Plain (do
        let len ← op .batchLen
        if len = cfg.batch then flush else pure ()
        drainFrom cfg n (total + got) : M V Nat) := by
      refine .op rfl fun len => ?_
      dsimp only
      split
      · exact plain_flush.seq fun _ => ih _
      · exact ih _
    refine .op rfl fun used => ?_
    have next (len : Nat) : Plain (if used = false ∧ len = 0 then drainFrom cfg n total
        else proc (.recvLoop (cfg.producers - (n + 1)) 0) >>= fun got => do
          let len ← op .batchLen
          if len = cfg.batch then flush else pure ()
          drainFrom cfg n (total + got) : M V Nat) := by
      split
      · exact ih total
      · exact .seq (Prog.silent_proc trivial) rest
    dsimp only
    split
    · exact .seq (Prog.silent_ret 1) next
    · exact .seq (Prog.silent_op rfl) next

theorem plain_body (p : Proc) : Plain (body cfg p : M V (Ret p)) := by
  cases p with
  | releaseLoop i =>
    refine .op rfl fun len => ?_
    split
    · exact Prog.silent_proc trivial
    · exact Prog.silent_ret _
  | consumeLoop =>
    refine (plain_drainFrom _ _).seq fun n => ?_
    split
    · exact Prog.silent_proc trivial
    · refine .op rfl fun done => ?_
      split <;> exact Prog.silent_proc trivial
  | finalLoop =>
    refine (plain_drainFrom _ _).seq fun n => ?_
    split
    · exact Prog.silent_proc trivial
    · exact Prog.silent_ret _
  | recvLoop i got =>
    refine .op rfl fun len => ?_
    split
    · refine .op rfl fun e => ?_
      split
      · exact Prog.silent_proc trivial
      · exact Prog.silent_ret _
    · exact Prog.silent_ret _

theorem errand_plain {t : Tid} {α : Type} {p : M V α} (hp : Plain p) :
    (errandFlow V Tid cfg).wp t p (fun _ g => g = .other) .other :=
  wp_silent (fun _ r hq => ErrandMove.plain _ r hq) (fun _ _ => ⟨rfl, fun _ _ h => h⟩) hp

theorem errand_follows : (errandFlow V Tid cfg).Follows where
  code t c := by
    have hother : ∀ {p : M V Result}, Plain p →
        (errandFlow V Tid cfg).wp t p (fun _ _ => True) .other :=
      fun hp => wp_mono (errand_plain hp) fun _ _ _ => trivial
    cases c with
    | start => exact hother plain_start
    | cancel => exact wp_move_seq fun _ => ⟨_, .cancel, trivial⟩
    | close =>
      refine wp_move_seq fun won => ⟨_, .plain _ _ rfl, ?_⟩
      split
      · refine wp_move_seq fun set => ⟨_, .plain _ _ rfl, ?_⟩
        have tail : (errandFlow V Tid cfg).wp t (do
            let done ← op .doneWait
            pure (if done then Result.done else .err)) (fun _ _ => True) .stop :=
          wp_move_seq fun done => ⟨_, .plain _ _ rfl, trivial⟩
        dsimp only
        split
        · exact wp_move_seq fun _ => ⟨_, .cancel, tail⟩
        · exact tail
      · trivial
    | producer =>
      refine wp_move_seq fun _ => ⟨_, .lock, ?_⟩
      refine wp_move_seq fun next => ⟨_, .plain _ _ rfl, ?_⟩
      have hscan : (errandFlow V Tid cfg).wp t (scan cfg next cfg.producers)
          (fun _ g => g = .locked) .locked :=
        wp_silent (c := fun _ => False) (fun _ r hq => ErrandMove.plain _ r hq) nofun (plain_scan _ _)
      refine wp_seq (wp_mono hscan fun r g hg => ?_)
      subst hg
      exact wp_move_seq fun _ => ⟨_, .unlock, trivial⟩
    | push h v => exact hother (plain_push h v)
    | closeProducer h => exact hother (plain_closeProducer h)
    | consume => exact hother (.proc trivial fun _ => .op rfl fun _ => Prog.silent_ret _)
    | release i =>
      exact hother (.proc trivial fun _ => .op rfl fun _ => .seq (Prog.silent_op rfl)
        fun _ => Prog.silent_ret _)
  body t p g h := by
    obtain rfl : g = .other := h
    exact errand_plain (plain_body p)

/-! ## The client -/

/-- The events whose push has returned true. -/
def State.accepted (s : State V Tid) : List (Item V Tid) :=
  s.sent.filter fun e => s.results e.1 = some (.pushed true)

def notesClose (c : Call V) (s : State V Tid) (o : Option (List (Item V Tid))) :
    Option (List (Item V Tid)) :=
  match c with
  | .close => o.or (some s.accepted)
  | _ => o

/-- `before`: what had been accepted when `Stop` was first called. `stopped`: it
has seen the consumer's end. -/
structure Notes (V Tid : Type) where
  before : Option (List (Item V Tid))
  stopped : Bool

variable (V Tid cfg) in
/-- The adapter.
mirrors mpsc-event-pipeline-kata/go/internal/weir/chanpipe_transport.go:8-29 -/
@[reducible] def adapter : Client (pipeline V Tid cfg) where
  H := Notes V Tid
  start := ⟨none, false⟩
  makes
    | .cancel => false
    | _ => true
  begins _ c s o := { o with before := notesClose c s o.before }
  notes _ a s _ o :=
    match a with
    | .doneWait => { o with stopped := o.stopped || s.done }
    | _ => o

variable (V Tid cfg) in
abbrev adapterFlow : Flow ((pipeline V Tid cfg).client (adapter V Tid cfg)) :=
  ((flow V Tid cfg).prod (errandFlow V Tid cfg)).client _

theorem adapter_follows : (adapterFlow V Tid cfg).Follows :=
  (follows.prod errand_follows).client

variable {s s' : State V Tid} {o : Notes V Tid} {γ : Tid → Place V} {t : Tid} {g g' : Place V}
  {a : Act V} {n : Nat} {r : Resp a} {c : Call V}

/-! ## Who cancels -/

/-- The context is cancelled by a `Stop` alone. -/
structure Errands (s : State V Tid) (o : Notes V Tid) (ε : Tid → Errand) : Prop where
  stop : ∀ t, ε t = .stop → o.before ≠ none
  cancelled : s.cancelled = true → o.before ≠ none
  locked : ∀ t, ε t = .locked → s.mu = some t
  stopped : o.stopped = true → s.done = true

omit [DecidableEq Tid] in
/-- What an operation leaves of the context and the lock. -/
theorem plain_eq (ha : plain a = true) (hs : sem cfg t a n s = some (s', r)) :
    s'.cancelled = s.cancelled ∧ s'.mu = s.mu := by
  unfold sem at hs
  split at hs <;> (try exact absurd ha Bool.false_ne_true) <;> (repeat' split at hs) <;> cases hs <;>
    exact ⟨rfl, rfl⟩

theorem Errands.move {ε : Tid → Errand} {e : Errand} (h : Errands s o ε)
    (hs : sem cfg t a n s = some (s', r)) (hm : ErrandMove (ε t) a r e) :
    Errands s' ((adapter V Tid cfg).notes t a s s' o) (upd ε t e) := by
  have hbefore : ((adapter V Tid cfg).notes t a s s' o).before = o.before := by
    cases a <;> rfl
  have hdone : s.done = true → s'.done = true := by
    intro hd
    obtain rfl | he := (runs_eq hs).2.2
    · cases hs
      rfl
    · exact he.trans hd
  have hstopped : ((adapter V Tid cfg).notes t a s s' o).stopped = true → s'.done = true := by
    intro hst
    by_cases ha : a = .doneWait
    · subst ha
      obtain hst | hst := Bool.or_eq_true_iff.mp hst
      · exact hdone (h.stopped hst)
      · exact hdone hst
    · refine hdone (h.stopped ?_)
      cases a <;> first | exact hst | exact absurd rfl ha
  obtain ⟨hstop, hcancel, htaken, hheld⟩ : (e = .stop → ε t = .stop) ∧
      (s'.cancelled = true → s.cancelled = true ∨ ε t = .stop) ∧
      (e = .locked → s'.mu = some t) ∧ ∀ u, u ≠ t → s.mu = some u → s'.mu = some u := by
    have hlocked := h.locked t
    generalize ε t = e₀ at hm hlocked
    cases hm with
    | plain _ _ ha =>
      obtain ⟨h1, h2⟩ := plain_eq ha hs
      rw [h1, h2]
      exact ⟨id, .inl, hlocked, fun _ _ => id⟩
    | cancel =>
      cases hs
      exact ⟨id, fun _ => .inr rfl, fun h => (by cases h), fun _ _ => id⟩
    | lock =>
      simp only [sem] at hs
      split at hs
      · rename_i hfree
        cases hs
        exact ⟨fun h => (by cases h), .inl, fun _ => rfl, fun u _ hu => by cases hfree.symm.trans hu⟩
      · cases hs
    | unlock =>
      cases hs
      refine ⟨fun h => (by cases h), .inl, fun h => (by cases h), fun u hne hu => ?_⟩
      cases (hlocked rfl).symm.trans hu
      exact absurd rfl hne
  refine ⟨fun u hu => ?_, fun hc => ?_, fun u hu => ?_, hstopped⟩
  · rw [hbefore]
    by_cases ht : u = t
    · subst ht
      rw [upd_self] at hu
      exact h.stop u (hstop hu)
    · rw [upd_ne _ _ ht] at hu
      exact h.stop u hu
  · rw [hbefore]
    exact (hcancel hc).elim h.cancelled (h.stop t)
  · by_cases ht : u = t
    · subst ht
      rw [upd_self] at hu
      exact htaken hu
    · rw [upd_ne _ _ ht] at hu
      exact hheld u ht (h.locked u hu)

theorem begin_same (c : Call V) : (begin t c s).cancelled = s.cancelled ∧
    (begin t c s).mu = s.mu ∧ (begin t c s).done = s.done := by
  cases c <;> exact ⟨rfl, rfl, rfl⟩

theorem Errands.begins {ε : Tid → Errand} (h : Errands s o ε)
    (hmakes : (adapter V Tid cfg).makes c = true) :
    Errands (begin t c s) ((adapter V Tid cfg).begins t c s o) (upd ε t c.errand) := by
  obtain ⟨h1, h2, h3⟩ := begin_same (s := s) (t := t) c
  have hbefore : o.before ≠ none → ((adapter V Tid cfg).begins t c s o).before ≠ none := by
    intro ho
    cases c with
    | close =>
      obtain ⟨l, hl⟩ := Option.ne_none_iff_exists'.mp ho
      show o.before.or _ ≠ none
      rw [hl]
      nofun
    | _ => exact ho
  have hstopped : ((adapter V Tid cfg).begins t c s o).stopped = o.stopped := by cases c <;> rfl
  refine ⟨fun u hu => ?_, fun hc => hbefore (h.cancelled (h1 ▸ hc)), fun u hu => ?_, fun hst => ?_⟩
  · by_cases ht : u = t
    · subst ht
      rw [upd_self] at hu
      cases c with
      | close =>
        show o.before.or _ ≠ none
        cases o.before <;> nofun
      | cancel => exact absurd hmakes Bool.false_ne_true
      | _ => cases hu
    · rw [upd_ne _ _ ht] at hu
      exact hbefore (h.stop u hu)
  · by_cases ht : u = t
    · subst ht
      rw [upd_self] at hu
      cases c <;> cases hu
    · rw [upd_ne _ _ ht] at hu
      exact h2.trans (h.locked u hu)
  · rw [hstopped] at hst
    exact h3.trans (h.stopped hst)

variable (V Tid cfg) in
theorem errands_keeps {ok : Tid → Act V → State V Tid × Notes V Tid → Prop} :
    (adapterFlow V Tid cfg).Keeps ok fun s γ => Errands s.1 s.2 fun t => (γ t).2 where
  init := ⟨nofun, nofun, nofun, nofun⟩
  begin _ h t c _ he := by
    rw [upd_places (Y := pipeline V Tid cfg) Prod.snd]
    exact h.begins (Bool.and_eq_true _ _ ▸ he).1
  move _ h t a n s' r g _ hs hm := by
    obtain ⟨q, hq, he⟩ := Option.map_eq_some_iff.mp hs
    cases he
    rw [upd_places (Y := pipeline V Tid cfg) Prod.snd]
    exact h.move hq hm.2
  finish _ h t c r he := by
    rw [upd_places (Y := pipeline V Tid cfg) Prod.snd]
    refine ⟨fun u hu => ?_, h.cancelled, fun u hu => ?_, h.stopped⟩
    · by_cases ht : u = t
      · subst ht
        rw [upd_self] at hu
        cases hu
      · rw [upd_ne _ _ ht] at hu
        exact h.stop u hu
    · by_cases ht : u = t
      · subst ht
        rw [upd_self] at hu
        cases hu
      · rw [upd_ne _ _ ht] at hu
        exact h.locked u hu

/-! ## The calls -/

/-- A call has an answer when it has returned, and its name is new when it
begins. -/
structure Answers (s : State V Tid) (γ : Tid → Place V) : Prop where
  busy : ∀ t, γ t ≠ .idle → s.results (s.me t) = none
  past : ∀ id x, s.results id = some x → id.2 ≤ s.calls id.1

theorem Move.busy (hm : Move cfg g a r g') : g ≠ .idle := by
  cases hm <;> nofun

variable (V Tid cfg) in
theorem answers_keeps {ok : Tid → Act V → State V Tid → Prop} :
    (flow V Tid cfg).Keeps ok Answers where
  init := ⟨fun _ h => absurd rfl h, nofun⟩
  begin {s γ} _ h t c _ _ := by
    have hr : (begin t c s).results = s.results := by cases c <;> rfl
    have hc : (begin t c s).calls = upd s.calls t (s.calls t + 1) := by cases c <;> rfl
    refine ⟨fun u hu => ?_, fun id x hx => ?_⟩
    · show (begin t c s).results (u, (begin t c s).calls u) = none
      rw [hr, hc]
      by_cases ht : u = t
      · subst ht
        rw [upd_self]
        cases hx : s.results (u, s.calls u + 1) with
        | none => rfl
        | some x => exact absurd (h.past _ x hx) (Nat.not_succ_le_self _)
      · rw [upd_ne _ _ ht] at hu ⊢
        exact h.busy u hu
    · show id.2 ≤ (begin t c s).calls id.1
      rw [hc]
      have hle := h.past id x (hr ▸ hx)
      by_cases ht : id.1 = t
      · rw [ht, upd_self]
        rw [ht] at hle
        omega
      · rwa [upd_ne _ _ ht]
  move {s γ} _ h t a n s' r g _ hs hm := by
    have hg := grows hs
    refine ⟨fun u hu => ?_, fun id x hx => ?_⟩
    · show s'.results (u, s'.calls u) = none
      rw [hg.results, hg.calls]
      by_cases ht : u = t
      · rw [ht]
        exact h.busy t hm.busy
      · rw [upd_ne _ _ ht] at hu
        exact h.busy u hu
    · rw [hg.results] at hx
      rw [hg.calls]
      exact h.past id x hx
  finish {s γ} _ h t c r _ := by
    refine ⟨fun u hu => ?_, fun id x hx => ?_⟩
    · by_cases ht : u = t
      · subst ht
        rw [upd_self] at hu
        exact absurd rfl hu
      · rw [upd_ne _ _ ht] at hu
        show upd s.results (s.me t) (some r) (s.me u) = none
        rw [upd_ne _ _ fun he => ht (congrArg Prod.fst he)]
        exact h.busy u hu
    · have hx : upd s.results (s.me t) (some r) id = some x := hx
      show id.2 ≤ s.calls id.1
      rw [upd_apply] at hx
      split at hx
      · rename_i he
        rw [he]
        exact Nat.le_refl _
      · exact h.past id x hx

variable (V Tid cfg) in
theorem holdings_keeps {ok : Tid → Act V → State V Tid → Prop} :
    (flow V Tid cfg).Keeps ok (Holdings cfg) where
  init := ⟨nofun, nofun, nofun, fun _ => trivial⟩
  begin _ h _ _ _ he := holdings_begin h he
  move _ h _ _ _ _ _ _ _ hs hm := holdings_step h hs hm
  finish _ h _ _ _ he := holdings_finish h he

variable (V Tid cfg) in
theorem one_keeps {ok : Tid → Act V → State V Tid → Prop} :
    (flow V Tid cfg).Keeps ok OneConsumer where
  init := by
    refine ⟨fun _ _ h => h.elim, nofun, fun h => ?_, nofun⟩
    obtain h | ⟨_, h⟩ := h
    · cases h
    · exact h.elim
  begin _ h _ _ _ he := one_begin h he
  move _ h _ _ _ _ _ _ _ hs hm := one_step h hs hm
  finish _ h _ _ _ _ := h.keep (fun hc => hc.elim) rfl id rfl

/-! ## The final drain -/

/-- The consumer has seen the context cancelled. -/
def Place.ending (g : Place V) : Prop := g.final = true ∨ g = .exit

theorem passAt_ending {fin : Bool} {i total : Nat}
    (h : (passAt cfg fin i total : Place V).ending) : fin = true := by
  obtain h | h := h
  · rwa [passAt_final] at h
  · unfold passAt at h
    split at h <;> cases h

theorem passEnd_ending {fin : Bool} {total : Nat}
    (h : (passEnd cfg fin total : Place V).ending) : fin = true := by
  obtain h | h := h
  · exact passEnd_final fin total h
  · unfold passEnd at h
    split at h
    · exact passAt_ending (.inr h)
    · cases fin with
      | true => rfl
      | false => cases h

omit [DecidableEq Tid] in
theorem Move.ending (hs : sem cfg t a n s = some (s', r)) (hm : Move cfg g a r g')
    (hg : g'.ending) : g.ending ∨ s.cancelled = true := by
  cases hm with
  | ctxDone done =>
    simp only [sem] at hs
    split at hs
    · cases hs
      cases passAt_ending hg
    · split at hs
      · exact .inr (by assumption)
      · cases hs
  | doneClose => exact .inl (.inr rfl)
  | _ =>
    left
    revert hg
    (try split) <;>
      first
      | exact id
      | exact fun hg => .inl (passAt_ending hg)
      | exact fun hg => .inl (passEnd_ending hg)
      | (rintro (hg | hg) <;> first | exact .inl hg | cases hg)

/-! ## What was accepted before -/

/-- The channels before `k` hold no event of `l`. -/
def Past (l : List (Item V Tid)) (s : State V Tid) (k : Nat) : Prop :=
  ∀ j, j < k → ∀ e ∈ (s.slot j).ch, e ∉ l

omit [DecidableEq Tid] in
theorem past_looks (l : List (Item V Tid)) : Looks (Past l) (fun _ _ => True) s g where
  zero _ j hj := absurd hj (Nat.not_lt_zero j)
  same _ hs _ k h j hj := by
    rw [hs]
    exact h j hj
  probe _ i h := ⟨h, trivial⟩
  empty i he h _ j hj e hin := by
    by_cases hji : j = i
    · subst hji
      exact absurd (he ▸ hin) List.not_mem_nil
    · exact h j (by omega) e hin

omit [DecidableEq Tid] in
/-- What is sent now had not been accepted before. -/
theorem Past.step {l : List (Item V Tid)} {k : Nat} (h : Past l s k) (ha : consumes a = false)
    (hs : sem cfg t a n s = some (s', r)) (hme : ∀ v, (s.me t, v) ∉ l) : Past l s' k := by
  by_cases hsend : ∃ i v, a = .send i v
  · obtain ⟨i, v, rfl⟩ := hsend
    obtain ⟨-, rfl, -⟩ | ⟨rfl, -⟩ := send_cases hs
    · intro j hj e he
      by_cases hji : j = i
      · subst hji
        have he : e ∈ (s.slot j).ch ++ [(s.me t, v)] := by
          simpa [State.send, State.setSlot] using he
        obtain he | he := List.mem_append.mp he
        · exact h j hj e he
        · rw [List.mem_singleton.mp he]
          exact hme v
      · exact h j hj e (by simpa [State.send, State.setSlot, hji] using he)
    · exact h
  · have hcarry : carries a = false := by
      cases a <;> first | rfl | exact absurd ⟨_, _, rfl⟩ hsend | cases ha
    intro j hj
    rw [(sameEvents hcarry hs).ch]
    exact h j hj

/-- What was accepted before the stop is not behind the final drain. -/
structure Handed (cfg : Config) (s : State V Tid) (o : Option (List (Item V Tid))) (γ : Tid → Place V) :
    Prop where
  pass : ∀ t, Pass cfg s.batch (Past (o.getD []) s) (fun _ => True) (γ t)
  ending : ∀ t, (γ t).ending → o ≠ none
  fresh : s.started = false ∨ s.spawned = true → s.batch = []
  done : s.done = true → o ≠ none ∧ s.batch = [] ∧
    Past (o.getD []) s cfg.producers
  noted : ∀ e ∈ o.getD [], e ∈ s.sent ∧ s.results e.1 = some (.pushed true)

variable {o : Option (List (Item V Tid))}

theorem Handed.move (h : Handed cfg s o γ) (hB : 0 < cfg.batch) (hone : OneConsumer s γ)
    (hans : Answers s γ) (hcan : s.cancelled = true → o ≠ none)
    (hs : sem cfg t a n s = some (s', r)) (hm : Move cfg (γ t) a r g') :
    Handed cfg s' o (upd γ t g') := by
  have hg := grows hs
  have hnoted : ∀ e ∈ o.getD [], e ∈ s'.sent ∧ s'.results e.1 = some (.pushed true) := by
    intro e he
    rw [hg.results]
    exact (h.noted e he).imp_left fun hin => hg.sent hin
  have hending : ∀ u, (upd γ t g' u).ending → o ≠ none := by
    intro u hu
    by_cases ht : u = t
    · subst ht
      rw [upd_self] at hu
      exact (hm.ending hs hu).elim (h.ending u) hcan
    · rw [upd_ne _ _ ht] at hu
      exact h.ending u hu
  obtain ⟨hsp, hst, hd⟩ := runs_eq hs
  cases ha : consumes a with
  | false =>
    have hpast : ∀ k, Past (o.getD []) s k → Past (o.getD []) s' k := by
      intro k hk
      refine hk.step ha hs fun v hv => ?_
      cases (hans.busy t hm.busy).symm.trans (h.noted _ hv).2
    have hbatch : s'.batch = s.batch := batch_eq ha hs
    obtain ⟨hstarting, hfresh⟩ := fresh_step h.fresh
      (fun hg => by simpa only [hg, Pass] using h.pass t) ha hs hm
    refine ⟨fun u => ?_, hending, fun hf => hbatch ▸ hfresh hf, fun hdone => ?_, hnoted⟩
    · rw [hbatch]
      by_cases ht : u = t
      · subst ht
        rw [upd_self]
        by_cases hc : g'.consumer
        · rw [(hm.of_not_consumes ha hc).1]
          exact hstarting (hm.of_not_consumes ha hc).1
        · exact .of_not hc
      · rw [upd_ne _ _ ht]
        exact (h.pass u).imp hpast fun _ => id
    · rw [hd.resolve_left (by rintro rfl; cases ha)] at hdone
      obtain ⟨h1, h2, h3⟩ := h.done hdone
      exact ⟨h1, hbatch ▸ h2, hpast _ h3⟩
  | true =>
    obtain ⟨hc, -⟩ := hm.of_consumes ha
    obtain ⟨hstarted, hndone⟩ := hone.running (.inr ⟨t, hc⟩)
    refine ⟨fun u => ?_, hending, fun hf => ?_, fun hdone => ?_, hnoted⟩
    · by_cases ht : u = t
      · subst ht
        rw [upd_self]
        exact (h.pass u).step hB (past_looks _) ha hs hm
      · rw [upd_ne _ _ ht]
        exact .of_not fun hu => ht (hone.uniq u t hu hc)
    · obtain hf | hf := hf
      · rw [hst hstarted] at hf
        cases hf
      · rw [hsp.resolve_left (by rintro rfl; cases ha)] at hf
        exact absurd hc (hone.spawned hf t)
    · obtain rfl | he := hd
      · have hpass := h.pass t
        have hcl := h.ending t
        generalize γ t = g at hm hpass hcl
        cases hm with
        | free hq => exact absurd hq Bool.false_ne_true
        | ready hq => exact absurd hq Bool.false_ne_true
        | count hq => exact absurd hq Bool.false_ne_true
        | doneClose =>
          cases hs
          exact ⟨hcl (.inr rfl), hpass⟩
      · rw [he, hndone] at hdone
        cases hdone

omit [DecidableEq Tid] in
theorem Pass.of_not_ending {batch : List (Item V Tid)} {clear here clear' here' : Nat → Prop}
    (h : Pass cfg batch clear here g) (hg : ¬ g.ending) : Pass cfg batch clear' here' g := by
  have hfin : ∀ {P : Prop}, g.final = true → P := fun hf => absurd (.inl hf) hg
  cases g
  case probe | length | take | full => exact ⟨h.1, h.2.1, fun hf => hfin hf⟩
  case top => exact ⟨h.1, h.2.1, h.2.2.1, fun hf => hfin hf⟩
  case flush | adds | write => exact ⟨h.1, fun hf => hfin hf⟩
  case flushLast | addsLast | writeLast => exact fun hf => hfin hf
  case exit => exact absurd (.inr rfl) hg
  all_goals exact h

theorem Handed.begins (h : Handed cfg s o γ) (hB : 0 < cfg.batch) (he : enabled s c = true) :
    Handed cfg (begin t c s) (notesClose c s o) (upd γ t (startPlace cfg c)) := by
  have hsame : (begin t c s).slot = s.slot ∧ (begin t c s).batch = s.batch ∧
      (begin t c s).sent = s.sent ∧ (begin t c s).results = s.results ∧
      (begin t c s).started = s.started ∧ (begin t c s).done = s.done ∧
      ((begin t c s).spawned = true → s.spawned = true) := by
    cases c <;> exact ⟨rfl, rfl, rfl, rfl, rfl, rfl, by first | exact id | nofun⟩
  obtain ⟨hslot, hbatch, hsent, hres, hst, hd, hsp⟩ := hsame
  generalize ho : notesClose c s o = o'
  -- a first `Stop` takes note while the consumer is in its loop
  have hnote : o' = o ∨ o = none ∧ o' = some s.accepted := by
    subst ho
    cases c with
    | close =>
      show o.or (some s.accepted) = _ ∨ _ ∧ o.or (some s.accepted) = _
      cases o with
      | none => exact .inr ⟨rfl, rfl⟩
      | some l => exact .inl rfl
    | _ => exact .inl rfl
  have hsome : o ≠ none → o' = o := by
    intro hne
    exact hnote.resolve_right fun hn => hne hn.1
  have hpast : ∀ k, Past (o'.getD []) s k →
      Past (o'.getD []) (begin t c s) k := by
    intro k hk
    unfold Past
    rwa [hslot]
  have hpass : ∀ u, Pass cfg s.batch (Past (o'.getD []) s) (fun _ => True) (γ u) := by
    intro u
    by_cases hne : o = none
    · exact (h.pass u).of_not_ending fun hg => h.ending u hg hne
    · rw [hsome hne]
      exact h.pass u
  refine ⟨fun u => ?_, fun u hu => ?_, fun hf => ?_, fun hdone => ?_, fun e hin => ?_⟩
  · rw [hbatch]
    by_cases ht : u = t
    · subst ht
      rw [upd_self]
      cases c with
      | consume => exact Pass.at (Nat.zero_le _) (by rwa [h.fresh (.inr he)]) nofun
      | _ => trivial
    · rw [upd_ne _ _ ht]
      exact (hpass u).imp hpast fun _ => id
  · have hno : ¬ (startPlace cfg c).ending := by
      cases c with
      | consume => exact fun hc => Bool.false_ne_true (passAt_ending hc)
      | _ => rintro (hc | hc) <;> cases hc
    by_cases ht : u = t
    · subst ht
      rw [upd_self] at hu
      exact absurd hu hno
    · rw [upd_ne _ _ ht] at hu
      rw [hsome (h.ending u hu)]
      exact h.ending u hu
  · rw [hbatch]
    rw [hst] at hf
    exact h.fresh (hf.imp_right hsp)
  · rw [hd] at hdone
    obtain ⟨h1, h2, h3⟩ := h.done hdone
    refine ⟨by rwa [hsome h1], hbatch.trans h2, hpast _ ?_⟩
    rwa [hsome h1]
  · rw [hsent, hres]
    obtain hn | ⟨-, hn⟩ := hnote
    · exact h.noted e (hn ▸ hin)
    · rw [hn] at hin
      obtain ⟨h1, h2⟩ := List.mem_filter.mp hin
      exact ⟨h1, of_decide_eq_true h2⟩

theorem Handed.finishes {x : Result} (h : Handed cfg s o γ) (hans : Answers s γ)
    (hbusy : γ t ≠ .idle) :
    Handed cfg { s with results := upd s.results (s.me t) (some x) } o (upd γ t .idle) := by
  refine ⟨fun u => ?_, fun u hu => ?_, h.fresh, h.done, fun e he => ?_⟩
  · by_cases ht : u = t
    · subst ht
      rw [upd_self]
      trivial
    · rw [upd_ne _ _ ht]
      exact h.pass u
  · by_cases ht : u = t
    · subst ht
      rw [upd_self] at hu
      obtain hu | hu := hu <;> cases hu
    · rw [upd_ne _ _ ht] at hu
      exact h.ending u hu
  · obtain ⟨h1, h2⟩ := h.noted e he
    refine ⟨h1, ?_⟩
    show upd s.results (s.me t) (some x) e.1 = _
    rw [upd_ne _ _ fun heq => ?_]
    · exact h2
    · rw [heq] at h2
      cases (hans.busy t hbusy).symm.trans h2

theorem endPlace_busy {x : Result} (h : endPlace c x g) : g ≠ .idle := by
  cases c with
  | push k v =>
    obtain ⟨b, -, rfl⟩ := h
    nofun
  | _ => rw [h.1]; nofun

variable (V Tid) in
theorem handed_keeps (hB : 0 < cfg.batch)
    {ok : Tid → Act V → State V Tid × Notes V Tid → Prop} :
    (adapterFlow V Tid cfg).Keeps ok fun s γ => Handed cfg s.1 s.2.before fun t => (γ t).1 where
  init := by
    refine ⟨fun _ => trivial, fun _ h => ?_, fun _ => rfl, nofun, nofun⟩
    obtain h | h := h <;> cases h
  begin _ h t c _ he := by
    rw [upd_places (Y := pipeline V Tid cfg) Prod.fst]
    exact h.begins hB (Bool.and_eq_true _ _ ▸ he).2
  move {s γ} hr h t a n s' r g _ hs hm := by
    obtain ⟨q, hq, he⟩ := Option.map_eq_some_iff.mp hs
    cases he
    have hr' := hr.of_client.left
    rw [upd_places (Y := pipeline V Tid cfg) Prod.fst]
    have hnotes : ∀ {o : Notes V Tid}, ((adapter V Tid cfg).notes t a s.1 q.1 o).before = o.before := by
      cases a <;> exact rfl
    rw [hnotes]
    exact h.move hB ((one_keeps V Tid cfg).reach hr') ((answers_keeps V Tid cfg).reach hr')
      ((errands_keeps V Tid cfg).reach hr).cancelled hq hm.1
  finish hr h t c r he := by
    rw [upd_places (Y := pipeline V Tid cfg) Prod.fst]
    exact h.finishes ((answers_keeps V Tid cfg).reach hr.of_client.left) (endPlace_busy he.1)

/-! ## The contract -/

/-- A mutex unlocked while nobody holds it, a channel closed twice, or a slot
that is none of the pipeline's. -/
def Panics (cfg : Config) (a : Act V) (s : State V Tid) : Prop :=
  match a with
  | .unlock => s.mu = none
  | .doneClose => s.done = true
  | .inUseCas i | .inUseLoad i => cfg.producers ≤ i
  | _ => False

variable (V Tid cfg) in
/-- The adapter of the channel pipeline; what is written goes to the pipeline's
sink.
mirrors mpsc-event-pipeline-kata/go/internal/weir/chanpipe_transport.go:8-29 -/
@[reducible] def transport : Transport where
  system := (pipeline V Tid cfg).client (adapter V Tid cfg)
  Item := Item V Tid
  panics a s := Panics cfg a s.1
  crashes _ _ := False
  before s e := ∃ l, s.2.before = some l ∧ e ∈ l
  written s e := e ∈ s.1.sink
  stopped s := s.2.stopped = true

omit [DecidableEq Tid] in
theorem not_panics {o : Notes V Tid} {γ : Tid → Place V × Errand} (hone : OneConsumer s fun u => (γ u).1)
    (her : Errands s o fun u => (γ u).2)
    (hm : ∀ r, ∃ g, Move cfg (γ t).1 a r g ∧ ∃ e, ErrandMove (γ t).2 a r e) : ¬ Panics cfg a s := by
  intro hp
  cases a with
  | unlock =>
    obtain ⟨g, -, e, hm⟩ := hm ()
    have hmu := her.locked t
    generalize (γ t).2 = e₀ at hm hmu
    cases hm with
    | plain _ _ ha => cases ha
    | unlock => cases (show s.mu = none from hp).symm.trans (hmu rfl)
  | doneClose =>
    obtain ⟨g, hm, -⟩ := hm ()
    have hrun := hone.running (.inr ⟨t, (hm.of_consumes rfl).1⟩)
    cases (show s.done = true from hp).symm.trans hrun.2
  | inUseCas i =>
    obtain ⟨g, hm, -⟩ := hm true
    have hp : cfg.producers ≤ i := hp
    generalize (γ t).1 = g₀ at hm
    cases hm with
    | free hq => cases hq
    | ready hq => cases hq
    | count hq => cases hq
    | inUseCas _ _ hi => omega
  | inUseLoad i =>
    obtain ⟨g, hm, -⟩ := hm true
    have hp : cfg.producers ≤ i := hp
    generalize (γ t).1 = g₀ at hm
    cases hm with
    | free hq => cases hq
    | ready hq => cases hq
    | count hq => cases hq
    | inUseLoad _ _ _ _ hi => omega
  | _ => exact hp

variable (V Tid cfg) in
/-- Nothing panics, and what was accepted before a stop is written when the stop
has seen the consumer's end. -/
theorem meets_contract (hB : 0 < cfg.batch) : Contract (transport V Tid cfg) fun _ _ _ => True := by
  refine .of_follows (T := transport V Tid cfg) (F := adapterFlow V Tid cfg) adapter_follows
    (fun hr t a hm => ?_) (fun _ _ _ _ _ => id) fun {s γ} hr hstop e he => ?_
  · refine not_panics (t := t) ((one_keeps V Tid cfg).reach hr.of_client.left)
      ((errands_keeps V Tid cfg).reach hr) fun r => ?_
    obtain ⟨g, hm⟩ := hm r
    exact ⟨g.1, hm.1, g.2, hm.2⟩
  · obtain ⟨l, hl, he⟩ := he
    have h := (handed_keeps V Tid hB).reach hr
    have hdone := ((errands_keeps V Tid cfg).reach hr).stopped hstop
    obtain ⟨-, hbatch, hpast⟩ := h.done hdone
    have hin : e ∈ s.2.before.getD [] := by rwa [hl]
    -- it is not in the batch, nor in a channel
    obtain hsink | hb | ⟨i, hi, hch⟩ :=
      ((holdings_keeps V Tid cfg).reach hr.of_client.left).sent e (h.noted e hin).1
    · exact hsink
    · rw [hbatch] at hb
      cases hb
    · exact absurd hin (hpast i hi e hch)

end
end Katas.Weir.Channel
