import Katas.Weir.Handles

/-!
# One handle to a ring

As long as no push on a closed handle finds the pipeline accepting, handles add
nothing to the pipeline: a run with handles is, beside the flags, a run of the
pipeline in which every handle is retired once and then left alone (`Rel`).
There a slot has one handle that may be used. A push on a closed handle that
does find the pipeline accepting goes to a slot that is somebody else's by
then.
-/
namespace Katas.Weir.Handles
open Katas.Conc

/-- A push on a closed handle finds the pipeline not accepting. -/
def refusedLate {V Tid : Type} (t : Tid) (a : (sig V Tid).Act) (s : State V Tid) : Prop :=
  match a with
  | .inl (.acceptingLoad _) => s.late t = true → s.base.accepting = false
  | _ => True

section
variable {V Tid : Type} [DecidableEq Tid] [Inhabited V] [Inhabited Tid] {cfg : Pipeline.Config}

/-! ## The pipeline beside it -/

/-- A thread is in the call the history names. -/
theorem inCall_thread {y : System.Config (Pipeline.pipeline V Tid cfg)}
    (hy : (Pipeline.pipeline V Tid cfg).Reachable y) (t : Tid) :
    y.state.inCall t = match y.thread t with
      | .idle => none
      | .run c _ => some c := by
  have hind : (Pipeline.pipeline V Tid cfg).lts.Inductive fun y => ∀ t, y.state.inCall t =
      match y.thread t with
      | .idle => none
      | .run c _ => some c := by
    refine ⟨?_, fun y l y' h hs t => ?_⟩
    · rintro y rfl t
      rfl
    -- what the step does to the call and to the thread of `u`
    obtain ⟨u, o, th, hin, hth, hmatch⟩ : ∃ u o th, y'.state.inCall = upd y.state.inCall u o ∧
        y'.thread = upd y.thread u th ∧ o = match th with
          | .idle => none
          | .run c _ => some c := by
      cases l with
      | invoke u c =>
        simp only [System.lts, System.step] at hs
        cases hth : y.thread u with
        | run c' p => rw [hth] at hs; cases hs
        | idle =>
          simp only [hth, System.invoke] at hs
          split at hs
          · cases hs
            exact ⟨u, _, _, Pipeline.begin_inCall, rfl, rfl⟩
          · cases hs
      | step u n =>
        simp only [System.lts, System.step] at hs
        cases hth : y.thread u with
        | idle => rw [hth] at hs; cases hs
        | run c p =>
          have hu := h u
          rw [hth] at hs hu
          cases p with
          | ret r =>
            cases hs
            exact ⟨u, _, _, Pipeline.finish_inCall, rfl, rfl⟩
          | call q k =>
            cases hs
            refine ⟨u, _, _, ?_, rfl, hu⟩
            exact (upd_eq_self _ _).symm
          | act a k =>
            simp only [System.stepThread, Option.map_eq_some_iff] at hs
            obtain ⟨⟨s', r⟩, hsem, rfl⟩ := hs
            obtain ⟨-, rfl, -⟩ := Pipeline.sem_some cfg hsem
            refine ⟨u, _, _, ?_, rfl, hu⟩
            rw [upd_eq_self]
            exact Pipeline.apply_inCall
    rw [hin, hth]
    by_cases hu : t = u
    · subst hu
      rw [upd_self, upd_self]
      exact hmatch
    · rw [upd_ne _ _ hu, upd_ne _ _ hu]
      exact h t
  exact hind.reachable y hy t

omit [Inhabited V] [Inhabited Tid] in
/-- What a call that begins does to the handles. -/
theorem begin_handles (t : Tid) (c : Pipeline.Call V) (s : Pipeline.State V Tid) :
    (Pipeline.begin cfg t c s).handles = s.handles ∧ (Pipeline.begin cfg t c s).use =
      match c with
      | .push h _ => upd s.use h.serial (.pushing t)
      | .retire h => upd s.use h.serial (.retiring t)
      | _ => s.use := by
  cases c <;> exact ⟨rfl, rfl⟩

omit [Inhabited V] [Inhabited Tid] in
/-- What a call that ends does to the handles. -/
theorem finish_handles (t : Tid) (c : Pipeline.Call V) (r : Pipeline.Result)
    (s : Pipeline.State V Tid) :
    s.handles <+: (Pipeline.finish cfg t c r s).handles ∧ (Pipeline.finish cfg t c r s).use =
      match c with
      | .push h _ => upd s.use h.serial .ready
      | .retire h => upd s.use h.serial .gone
      | _ => s.use := by
  cases c with
  | push h v =>
    cases r with
    | pushed ok => cases ok <;> exact ⟨List.prefix_refl _, rfl⟩
    | _ => exact ⟨List.prefix_refl _, rfl⟩
  | register =>
    cases r with
    | registered i => cases i <;> first | exact ⟨List.prefix_refl _, rfl⟩ | exact ⟨⟨_, rfl⟩, rfl⟩
    | _ => exact ⟨List.prefix_refl _, rfl⟩
  | stop m => cases r <;> exact ⟨List.prefix_refl _, rfl⟩
  | _ => exact ⟨List.prefix_refl _, rfl⟩

/-- A call on handle `k`. -/
def Call.on (k : Nat) : Call V → Prop
  | .base (.push h _) | .close h => h.serial = k
  | _ => False

/-- In a call on handle `k`. -/
def At (k : Nat) : System.Thread (handles V Tid cfg) → Prop
  | .run c _ => c.on k
  | .idle => False

/-- A call with handles, and the call of the pipeline it makes. -/
inductive Makes (s : State V Tid) : Call V → Pipeline.Call V → Prop
  | base {c : Pipeline.Call V} : (∀ h, c ≠ .retire h) → Makes s (.base c) c
  | close {h : Pipeline.Handle} : s.closed h.serial = true → Makes s (.close h) (.retire h)

/-- A thread with handles, and the same thread of the pipeline. -/
inductive Beside (s : State V Tid) (t : Tid) :
    System.Thread (handles V Tid cfg) → System.Thread (Pipeline.pipeline V Tid cfg) → Prop
  | idle : s.late t = false → Beside s t .idle .idle
  | runs {d : Call V} {c : Pipeline.Call V} {p : Pipeline.M V Tid Pipeline.Result} : Makes s d c →
      s.late t = false → Beside s t (.run d p.lift) (.run c p)
  | late {h : Pipeline.Handle} {v : V} {p : M V Tid Pipeline.Result} : s.late t = true →
      s.closed h.serial = true → p = (Pipeline.push cfg h v).lift ∨ p = .ret (.pushed false) →
      Beside s t (.run (.base (.push h v)) p) .idle
  | asks {h : Pipeline.Handle} : s.late t = false → s.base.handles[h.serial]? = some h.id →
      Beside s t (.run (.close h) (close cfg h)) .idle
  | stores {h : Pipeline.Handle} : s.late t = false → s.base.handles[h.serial]? = some h.id →
      s.closed h.serial = false →
      Beside s t (.run (.close h) (.act (.inr (.store h)) fun _ => (Pipeline.retire cfg h).lift)) .idle
  | lost {h : Pipeline.Handle} {r : Pipeline.Result} : s.late t = false →
      s.closed h.serial = true → Beside s t (.run (.close h) (.ret r)) .idle

/-- What the flag of a handle says of its use. -/
def Standing : Bool → Pipeline.Use Tid → Prop
  | false, w => w = .ready ∨ ∃ t, w = .pushing t
  | true, w => w = .gone ∨ ∃ t, w = .retiring t

structure Rel (x : System.Config (handles V Tid cfg))
    (y : System.Config (Pipeline.pipeline V Tid cfg)) : Prop where
  state : y.state = x.state.base
  threads : ∀ t, Beside x.state t (x.thread t) (y.thread t)
  busy : ∀ t k, At k (x.thread t) → x.state.busy k = some t
  live : ∀ k, Standing (x.state.closed k) (x.state.base.use k)

variable {s s' : State V Tid} {t u : Tid} {a : System.Thread (handles V Tid cfg)}
  {b : System.Thread (Pipeline.pipeline V Tid cfg)} {x x' : System.Config (handles V Tid cfg)}
  {y : System.Config (Pipeline.pipeline V Tid cfg)}

omit [DecidableEq Tid] [Inhabited V] [Inhabited Tid] in
theorem Makes.keep {d : Call V} {c : Pipeline.Call V} (h : Makes s d c)
    (hc : ∀ k, d.on k → s'.closed k = s.closed k) : Makes s' d c := by
  cases h with
  | base h1 => exact .base h1
  | close h1 => exact .close ((hc _ rfl).trans h1)

theorem Beside.keep (h : Beside s u a b) (hl : s'.late u = s.late u)
    (hc : ∀ k, At k a → s'.closed k = s.closed k) (hh : s.base.handles <+: s'.base.handles) :
    Beside s' u a b := by
  have hgiven : ∀ k i : Nat, s.base.handles[k]? = some i → s'.base.handles[k]? = some i := by
    obtain ⟨l, hl⟩ := hh
    intro k i hk
    rw [← hl, List.getElem?_append_left (List.getElem?_eq_some_iff.mp hk).1]
    exact hk
  cases h with
  | idle h1 => exact .idle (hl.trans h1)
  | runs h1 h2 => exact .runs (h1.keep hc) (hl.trans h2)
  | late h1 h2 h3 => exact .late (hl.trans h1) ((hc _ rfl).trans h2) h3
  | asks h1 h2 => exact .asks (hl.trans h1) (hgiven _ _ h2)
  | stores h1 h2 h3 => exact .stores (hl.trans h1) (hgiven _ _ h2) ((hc _ rfl).trans h3)
  | lost h1 h2 => exact .lost (hl.trans h1) ((hc _ rfl).trans h2)

/-- A step of `t`, on both sides. -/
theorem Rel.both (h : Rel x y) (ht : Beside s' t a b) (hl : ∀ u, u ≠ t → s'.late u = x.state.late u)
    (hc : ∀ u, u ≠ t → ∀ k, At k (x.thread u) → s'.closed k = x.state.closed k)
    (hh : x.state.base.handles <+: s'.base.handles)
    (hb : ∀ k, At k a → s'.busy k = some t)
    (hb' : ∀ u, u ≠ t → ∀ k, At k (x.thread u) → s'.busy k = x.state.busy k)
    (hlive : ∀ k, Standing (s'.closed k) (s'.base.use k)) :
    Rel ⟨s', upd x.thread t a⟩ ⟨s'.base, upd y.thread t b⟩ := by
  refine ⟨rfl, fun u => ?_, fun u k hu => ?_, hlive⟩
  · by_cases hut : u = t
    · subst hut
      simpa using ht
    · simp only [upd_ne _ _ hut]
      exact (h.threads u).keep (hl u hut) (hc u hut) hh
  · by_cases hut : u = t
    · subst hut
      simp only [upd_self] at hu
      exact hb k hu
    · simp only [upd_ne _ _ hut] at hu
      exact (hb' u hut k hu).trans (h.busy u k hu)

/-- A step of `t` that the pipeline does not take. -/
theorem Rel.alone (h : Rel x y) (hbase : s'.base = x.state.base) (ht : Beside s' t a (y.thread t))
    (hl : ∀ u, u ≠ t → s'.late u = x.state.late u) (hc : s'.closed = x.state.closed)
    (hb : ∀ k, At k a → s'.busy k = some t)
    (hb' : ∀ u, u ≠ t → ∀ k, At k (x.thread u) → s'.busy k = x.state.busy k) :
    Rel ⟨s', upd x.thread t a⟩ y := by
  have hup := h.both ht hl (fun _ _ _ _ => by rw [hc]) (hbase ▸ List.prefix_refl _) hb hb'
    (by rw [hc, hbase]; exact h.live)
  rw [hbase, ← h.state, upd_eq_self] at hup
  exact hup

/-- Nobody else is in a call on the handle. -/
theorem Rel.other (h : Rel x y) {k : Nat} (ht : x.state.busy k = some t ∨ x.state.busy k = none)
    (hu : u ≠ t) : ¬At k (x.thread u) := by
  intro hk
  have hb := h.busy u k hk
  rcases ht with ht | ht
  · exact hu (Option.some.inj (hb.symm.trans ht))
  · cases hb.symm.trans ht

/-- A thread in a push of the pipeline pushes with the handle. -/
theorem Beside.pushes {hd : Pipeline.Handle} {v : V} {p : Pipeline.M V Tid Pipeline.Result}
    (h : Beside s u a b) (hb : b = .run (.push hd v) p) : At hd.serial a := by
  cases h with
  | runs h1 h2 =>
    cases hb
    cases h1
    rfl
  | _ => cases hb

/-- A handle that is not closed, and on which the pipeline has no push, is ready. -/
theorem Rel.ready (h : Rel x y) (hy : (Pipeline.pipeline V Tid cfg).Reachable y) {k : Nat}
    (hc : x.state.closed k = false) (hno : ∀ u, At k (x.thread u) → y.thread u = .idle) :
    x.state.base.use k = .ready := by
  have hlive := h.live k
  rw [hc] at hlive
  obtain hu | ⟨u, hu⟩ := hlive
  · exact hu
  · obtain ⟨γ, hr, -⟩ := (Pipeline.follows V Tid cfg).stands hy.reachableIf
    have hcalls := (Pipeline.calls_keeps V Tid cfg _).reach hr
    rw [← h.state] at hu
    obtain ⟨hd, v, rfl, hin⟩ := hcalls.pusher k u hu
    have hcall := inCall_thread hy u
    cases hth : y.thread u with
    | idle =>
      rw [hin, hth] at hcall
      cases hcall
    | run c p =>
      rw [hin, hth] at hcall
      cases hcall
      have hidle := hno u ((h.threads u).pushes hth)
      cases hth.symm.trans hidle

/-! ## Every step -/

theorem Beside.of_idle (h : Beside s t a b) (ha : a = .idle) : b = .idle ∧ s.late t = false := by
  cases h with
  | idle hl => exact ⟨rfl, hl⟩
  | _ => cases ha

/-- The pipeline's thread begins the call. -/
theorem Rel.begins (h : Rel x y) (hy : (Pipeline.pipeline V Tid cfg).Reachable y)
    (ht : y.thread t = .idle) {c : Pipeline.Call V}
    (he : Pipeline.enabled cfg x.state.base c = true) :
    (Pipeline.pipeline V Tid cfg).Reachable ⟨Pipeline.begin cfg t c x.state.base,
      upd y.thread t (.run c (Pipeline.code cfg c))⟩ := by
  refine hy.step (l := .invoke t c) ?_
  show System.invoke y t c (y.thread t) = _
  rw [ht, ← h.state]
  rw [← h.state] at he
  exact if_pos he

/-- The flags `f` tell of the uses when a call of the pipeline begins. -/
theorem Rel.live_begin (h : Rel x y) {c : Pipeline.Call V} {f : Nat → Bool}
    (hf : ∀ k, f k = x.state.closed k ∨ ∃ hd, c = .retire hd ∧ hd.serial = k)
    (hr : ∀ hd, c = .retire hd → f hd.serial = true)
    (hp : ∀ hd v, c = .push hd v → x.state.closed hd.serial = false) (k : Nat) :
    Standing (f k) ((Pipeline.begin cfg t c x.state.base).use k) := by
  rw [(begin_handles t c x.state.base).2]
  cases c with
  | push hd v =>
    rw [(hf k).resolve_right (fun h => by simp at h)]
    by_cases hk : k = hd.serial
    · subst hk
      rw [hp hd v rfl]
      exact .inr ⟨t, upd_self _ _ _⟩
    · simp only [upd_ne _ _ hk]
      exact h.live k
  | retire hd =>
    by_cases hk : k = hd.serial
    · subst hk
      rw [hr hd rfl]
      exact .inr ⟨t, upd_self _ _ _⟩
    · have hno : ¬ ∃ hd', Pipeline.Call.retire (V := V) hd = .retire hd' ∧ hd'.serial = k := by
        rintro ⟨hd', he, hk'⟩
        cases he
        exact hk hk'.symm
      rw [(hf k).resolve_right hno]
      simp only [upd_ne _ _ hk]
      exact h.live k
  | _ =>
    rw [(hf k).resolve_right (fun h => by simp at h)]
    exact h.live k

/-- A call begins. -/
theorem Rel.invoke (h : Rel x y) (hy : (Pipeline.pipeline V Tid cfg).Reachable y) {d : Call V}
    (hth : x.thread t = .idle) (he : enabled cfg x.state d = true) :
    ∃ y', (Pipeline.pipeline V Tid cfg).Reachable y' ∧
      Rel ⟨begin cfg t d x.state, upd x.thread t (.run d (code cfg d))⟩ y' := by
  obtain ⟨hyt, hlate⟩ := (h.threads t).of_idle hth
  -- a call on a handle nobody is in a call on
  have hfree : ∀ {k u}, x.state.busy k = none → u ≠ t → ∀ j, At j (x.thread u) → j ≠ k := by
    rintro k u hk hu j hj rfl
    exact h.other (.inr hk) hu hj
  have hnobody : ∀ {k}, x.state.busy k = none → ∀ u, ¬At k (x.thread u) := by
    intro k hk u hat
    have := h.busy u k hat
    rw [hk] at this
    cases this
  cases d with
  | close hd =>
    simp only [enabled, usable, Bool.decide_and, Bool.and_eq_true, decide_eq_true_eq,
      Option.isNone_iff_eq_none] at he
    refine ⟨y, hy, h.alone rfl ?_ (fun _ _ => rfl) rfl (fun k hk => ?_) fun u hu k hk => ?_⟩
    · rw [hyt]
      exact .asks hlate he.1
    · obtain rfl : hd.serial = k := hk
      exact upd_self _ _ _
    · exact upd_ne _ _ (hfree he.2 hu k hk)
  | base c =>
    have hsame : Beside x.state t (.run (.base c) (Pipeline.code cfg c).lift)
        (.run c (Pipeline.code cfg c) : System.Thread (Pipeline.pipeline V Tid cfg)) := by
      refine .runs (.base fun hd hc => ?_) hlate
      subst hc
      cases he
    have hlive : (∀ hd v, c = .push hd v → x.state.closed hd.serial = false) →
        ∀ k, Standing (x.state.closed k) ((Pipeline.begin cfg t c x.state.base).use k) :=
      h.live_begin (fun _ => .inl rfl) fun hd hc => by subst hc; cases he
    have hhandles : x.state.base.handles <+: (Pipeline.begin cfg t c x.state.base).handles :=
      (begin_handles t c x.state.base).1 ▸ List.prefix_refl _
    have hen : Pipeline.enabled cfg x.state.base c = true ∨ ∃ hd v, c = .push hd v := by
      cases c with
      | push hd v => exact .inr ⟨hd, v, rfl⟩
      | retire hd => cases he
      | _ => exact .inl he
    cases c with
    | push hd v =>
      simp only [enabled, usable, Bool.decide_and, Bool.and_eq_true, decide_eq_true_eq,
        Option.isNone_iff_eq_none] at he
      obtain ⟨hgiven, hbusy⟩ := he
      cases hc : x.state.closed hd.serial with
      | true =>
        have hbegin : begin cfg t (.base (.push hd v)) x.state = { x.state with
            busy := upd x.state.busy hd.serial (some t), late := upd x.state.late t true } := by
          simp only [begin, hc, if_true]
        rw [hbegin]
        refine ⟨y, hy, h.alone rfl ?_ (fun u hu => upd_ne _ _ hu) rfl (fun k hk => ?_)
          fun u hu k hk => ?_⟩
        · rw [hyt]
          exact .late (upd_self _ _ _) hc (.inl rfl)
        · obtain rfl : hd.serial = k := hk
          exact upd_self _ _ _
        · exact upd_ne _ _ (hfree hbusy hu k hk)
      | false =>
        have hready := h.ready hy hc fun u hat => absurd hat (hnobody hbusy u)
        have hreach := h.begins hy hyt (c := .push hd v) (by
          simp only [Pipeline.enabled, Pipeline.usable, hgiven, hready]
          rfl)
        have hbegin : begin cfg t (.base (.push hd v)) x.state = { x.state with
            busy := upd x.state.busy hd.serial (some t)
            base := Pipeline.begin cfg t (.push hd v) x.state.base } := by
          simp only [begin, hc]
          rfl
        rw [hbegin]
        refine ⟨_, hreach, h.both (hsame.keep rfl (fun _ _ => rfl) hhandles) (fun _ _ => rfl)
          (fun _ _ _ _ => rfl) hhandles (fun k hk => ?_) (fun u hu k hk => ?_) (hlive ?_)⟩
        · obtain rfl : hd.serial = k := hk
          exact upd_self _ _ _
        · exact upd_ne _ _ (hfree hbusy hu k hk)
        · intro hd' v' he
          cases he
          exact hc
    | retire hd => cases he
    | _ =>
      have hreach := h.begins hy hyt (hen.resolve_right (fun h => by simp at h))
      exact ⟨_, hreach, h.both (hsame.keep rfl (fun _ _ => rfl) hhandles) (fun _ _ => rfl)
        (fun _ _ _ _ => rfl) hhandles (fun _ h => False.elim h) (fun _ _ _ _ => rfl)
        (hlive fun _ _ h => by cases h)⟩

omit [Inhabited V] [Inhabited Tid] in
variable (cfg) in
/-- A call of the pipeline ends with the call that makes it. -/
theorem Makes.finish {d : Call V} {c : Pipeline.Call V} (h : Makes s d c) (hl : s.late t = false)
    (hin : s.base.inCall t = some c) (r : Pipeline.Result) : ∃ f : Nat → Option Tid,
      finish cfg t d r s = { s with busy := f, base := Pipeline.finish cfg t c r s.base } ∧
      ∀ k, ¬d.on k → f k = s.busy k := by
  cases h with
  | @close hd hc =>
    refine ⟨upd s.busy hd.serial none, ?_, fun k hk => upd_ne _ _ (Ne.symm hk)⟩
    simp only [Handles.finish, hin, Option.isSome_some, if_true]
  | @base c hne =>
    cases c with
    | push hd v =>
      refine ⟨upd s.busy hd.serial none, ?_, fun k hk => upd_ne _ _ (Ne.symm hk)⟩
      simp only [Handles.finish, hl]
      rfl
    | _ => exact ⟨s.busy, rfl, fun _ _ => rfl⟩

/-- The flags tell of the uses when a call ends. -/
theorem Rel.live_finish (h : Rel x y) {d : Call V} {c : Pipeline.Call V} (hm : Makes x.state d c)
    (hp : ∀ hd v, c = .push hd v → x.state.closed hd.serial = false) (r : Pipeline.Result)
    (k : Nat) :
    Standing (x.state.closed k) ((Pipeline.finish cfg t c r x.state.base).use k) := by
  rw [(finish_handles t c r x.state.base).2]
  cases hm with
  | @close hd hc =>
    by_cases hk : k = hd.serial
    · subst hk
      rw [hc]
      exact .inl (upd_self _ _ _)
    · simp only [upd_ne _ _ hk]
      exact h.live k
  | @base c hne =>
    cases c with
    | push hd v =>
      by_cases hk : k = hd.serial
      · subst hk
        rw [hp hd v rfl]
        exact .inl (upd_self _ _ _)
      · simp only [upd_ne _ _ hk]
        exact h.live k
    | retire hd => exact absurd rfl (hne hd)
    | _ => exact h.live k

/-- A handle the pipeline has a push on is not closed. -/
theorem Rel.open_of_push (h : Rel x y) (hy : (Pipeline.pipeline V Tid cfg).Reachable y)
    {hd : Pipeline.Handle} {v : V} {p : Pipeline.M V Tid Pipeline.Result}
    (hyt : y.thread t = .run (.push hd v) p) :
    x.state.closed hd.serial = false ∧ x.state.base.handles[hd.serial]? = some hd.id := by
  obtain ⟨γ, hr, -⟩ := (Pipeline.follows V Tid cfg).stands hy.reachableIf
  have hin : y.state.inCall t = some (.push hd v) := by rw [inCall_thread hy t, hyt]
  obtain ⟨huse, hgiven⟩ := ((Pipeline.calls_keeps V Tid cfg _).reach hr).pushing t hd v hin
  have hlive := h.live hd.serial
  rw [← h.state, huse] at hlive
  rw [h.state] at hgiven
  refine ⟨?_, hgiven⟩
  cases hc : x.state.closed hd.serial with
  | false => rfl
  | true =>
    rw [hc] at hlive
    obtain hl | ⟨u, hl⟩ := hlive <;> cases hl

omit [Inhabited V] [Inhabited Tid] in
/-- An operation of the pipeline. -/
theorem sem_base {a : Pipeline.Act V Tid} {n : Nat} {r : Pipeline.Resp a} (hl : s.late t = false)
    (hs : sem cfg t (.inl a) n s = some (s', r)) :
    ∃ z, Pipeline.sem cfg t a n s.base = some (z, r) ∧ s' = { s with base := z } := by
  unfold sem at hs
  obtain ⟨⟨z, r'⟩, hz, he⟩ := Option.map_eq_some_iff.mp hs
  cases he
  refine ⟨z, hz, ?_⟩
  simp only [hl]
  rfl

/-- A thread that runs a call of the pipeline. -/
theorem Rel.runs (h : Rel x y) (hy : (Pipeline.pipeline V Tid cfg).Reachable y) {n : Nat}
    {d : Call V} {c : Pipeline.Call V} {p : Pipeline.M V Tid Pipeline.Result}
    (hx : x.thread t = .run d p.lift) (hyt : y.thread t = .run c p) (hm : Makes x.state d c)
    (hl : x.state.late t = false) (hs : System.step x (.step t n) = some x') :
    ∃ y', (Pipeline.pipeline V Tid cfg).Reachable y' ∧ Rel x' y' := by
  have hnext : ∀ {z}, System.stepThread y t n (.run c p) = some z →
      (Pipeline.pipeline V Tid cfg).Reachable z := by
    intro z hz
    refine hy.step (l := .step t n) ?_
    show System.stepThread y t n (y.thread t) = _
    rw [hyt]
    exact hz
  have hbusy : ∀ k, d.on k → x.state.busy k = some t := by
    intro k hk
    refine h.busy t k ?_
    rw [hx]
    exact hk
  simp only [System.step, hx] at hs
  cases p with
  | ret r =>
    have hin : x.state.base.inCall t = some c := by
      rw [← h.state, inCall_thread hy t, hyt]
    obtain ⟨f, hfin, hf⟩ := hm.finish cfg hl hin r
    cases hs
    rw [show (handles V Tid cfg).finish t d r x.state = _ from hfin]
    have hreach := hnext rfl
    rw [h.state] at hreach
    refine ⟨_, hreach, h.both (.idle hl) (fun _ _ => rfl) (fun _ _ _ _ => rfl)
      (finish_handles t c r x.state.base).1 (fun _ h => False.elim h)
      (fun u hu k hk => hf k fun hd => ?_)
      (h.live_finish hm (fun hd v hc => ?_) r)⟩
    · exact h.other (.inl (hbusy k hd)) hu hk
    · subst hc
      exact (h.open_of_push hy hyt).1
  | call q k =>
    cases hs
    have hreach := hnext rfl
    rw [h.state] at hreach
    refine ⟨_, hreach, h.both ?_ (fun _ _ => rfl) (fun _ _ _ _ => rfl) (List.prefix_refl _) hbusy
      (fun _ _ _ _ => rfl) h.live⟩
    have hbody : (Prog.lift ((Pipeline.body cfg q).bind k) : M V Tid Pipeline.Result) =
        (Pipeline.body cfg q).lift.bind fun r => (k r).lift := Prog.lift_bind _ _
    rw [← hbody]
    exact .runs hm hl
  | act a k =>
    simp only [Prog.lift_act, System.stepThread, Option.map_eq_some_iff] at hs
    obtain ⟨⟨s', r⟩, hsem, rfl⟩ := hs
    obtain ⟨z, hz, rfl⟩ := sem_base hl hsem
    have hreach : (Pipeline.pipeline V Tid cfg).Reachable ⟨z, upd y.thread t (.run c (k r))⟩ := by
      refine hnext ?_
      simp only [System.stepThread]
      rw [h.state, hz]
      rfl
    obtain ⟨-, rfl, -⟩ := Pipeline.sem_some cfg hz
    have hhandles : (Pipeline.apply cfg t a n x.state.base).handles = x.state.base.handles :=
      Pipeline.apply_handles
    have huse : (Pipeline.apply cfg t a n x.state.base).use = x.state.base.use := Pipeline.apply_use
    refine ⟨_, hreach, h.both (.runs (hm.keep fun _ _ => rfl) hl) (fun _ _ => rfl)
      (fun _ _ _ _ => rfl) ?_ hbusy (fun _ _ _ _ => rfl) fun k => ?_⟩
    · exact hhandles ▸ List.prefix_refl _
    · rw [huse]
      exact h.live k

/-- A push on a closed handle. -/
theorem Rel.late (h : Rel x y) {n : Nat}
    {hd : Pipeline.Handle} {v : V} {p : M V Tid Pipeline.Result}
    (hx : x.thread t = .run (.base (.push hd v)) p) (hyt : y.thread t = .idle)
    (hl : x.state.late t = true) (hc : x.state.closed hd.serial = true)
    (hp : p = (Pipeline.push cfg hd v).lift ∨ p = .ret (.pushed false))
    (hok : System.Meets refusedLate x (.step t n)) (hs : System.step x (.step t n) = some x') :
    Rel x' y := by
  have hbusy : x.state.busy hd.serial = some t := by
    refine h.busy t _ ?_
    rw [hx]
    exact rfl
  simp only [System.step, hx] at hs
  rcases hp with rfl | rfl
  · have hacc : x.state.base.accepting = false := hok (.inl (.acceptingLoad hd)) ⟨_, _, hx⟩ hl
    have hsem : sem cfg t (.inl (.acceptingLoad hd)) n x.state = some (x.state, false) := by
      simp only [sem, Pipeline.sem, Pipeline.ready, Pipeline.reply, hacc, hl, if_true,
        Option.map_some]
      rfl
    obtain ⟨k, hk, hk0⟩ : ∃ k : Bool → M V Tid Pipeline.Result,
        ((Pipeline.push cfg hd v).lift : M V Tid Pipeline.Result) =
          .act (.inl (.acceptingLoad hd)) k ∧ k false = .ret (.pushed false) := ⟨_, rfl, rfl⟩
    rw [hk] at hs
    simp only [System.stepThread, hsem] at hs
    cases hs
    refine h.alone rfl ?_ (fun _ _ => rfl) rfl (fun k hk => ?_) fun _ _ _ _ => rfl
    · rw [hyt]
      exact .late hl hc (.inr hk0)
    · obtain rfl : hd.serial = k := hk
      exact hbusy
  · cases hs
    have hfin : finish cfg t (.base (.push hd v)) (.pushed false) x.state = { x.state with
        busy := upd x.state.busy hd.serial none, late := upd x.state.late t false } := by
      simp only [Handles.finish, hl, if_true]
    rw [show (handles V Tid cfg).finish t _ _ x.state = _ from hfin]
    refine h.alone rfl ?_ (fun u hu => upd_ne _ _ hu) rfl (fun _ h => False.elim h)
      fun u hu k hk => ?_
    · rw [hyt]
      exact .idle (upd_self _ _ _)
    · refine upd_ne _ _ fun hk' => ?_
      subst hk'
      exact h.other (.inl hbusy) hu hk

/-- The pipeline begins to retire the slot of a handle that has just been closed. -/
theorem Rel.shuts (h : Rel x y) (hy : (Pipeline.pipeline V Tid cfg).Reachable y)
    {hd : Pipeline.Handle} (hat : At hd.serial (x.thread t)) (hyt : y.thread t = .idle)
    (hl : x.state.late t = false) (hg : x.state.base.handles[hd.serial]? = some hd.id)
    (hc : x.state.closed hd.serial = false) :
    ∃ y', (Pipeline.pipeline V Tid cfg).Reachable y' ∧
      Rel ⟨shut cfg t hd x.state,
        upd x.thread t (.run (.close hd) (Pipeline.retire cfg hd).lift)⟩ y' := by
  have hbusy := h.busy t _ hat
  have hready := h.ready hy hc fun u hu => by
    by_cases hut : u = t
    · rw [hut, hyt]
    · exact absurd hu (h.other (.inl hbusy) hut)
  have hreach := h.begins hy hyt (c := .retire hd) (by
    simp only [Pipeline.enabled, Pipeline.usable, hg, hready]
    rfl)
  refine ⟨_, hreach, h.both ?_ (fun _ _ => rfl) (fun u hu k hk => ?_) ?_ (fun k hk => ?_)
    (fun _ _ _ _ => rfl) ?_⟩
  · exact .runs (.close (upd_self _ _ _)) hl
  · refine upd_ne _ _ fun hk' => ?_
    subst hk'
    exact h.other (.inl hbusy) hu hk
  · have hhandles : (Pipeline.begin cfg t (.retire hd) x.state.base).handles =
        x.state.base.handles := (begin_handles t _ _).1
    exact hhandles ▸ List.prefix_refl _
  · obtain rfl : hd.serial = k := hk
    exact hbusy
  · refine h.live_begin (t := t) (c := .retire hd) (f := (shut cfg t hd x.state).closed)
      (fun k => ?_) (fun hd' he => ?_) fun _ _ h => by cases h
    · by_cases hk : hd.serial = k
      · exact .inr ⟨hd, rfl, hk⟩
      · exact .inl (upd_ne _ _ (Ne.symm hk))
    · cases he
      exact upd_self _ _ _

/-- Every step of a thread in a call. -/
theorem Rel.step (h : Rel x y) (hy : (Pipeline.pipeline V Tid cfg).Reachable y) {n : Nat}
    (hok : System.Meets refusedLate x (.step t n)) (hs : System.step x (.step t n) = some x') :
    ∃ y', (Pipeline.pipeline V Tid cfg).Reachable y' ∧ Rel x' y' := by
  have hb := h.threads t
  generalize hx : x.thread t = a at hb
  generalize hyt : y.thread t = b at hb
  have hbusy : ∀ k, At k a → x.state.busy k = some t := fun k hk => h.busy t k (hx ▸ hk)
  cases hb with
  | idle =>
    simp only [System.step, hx] at hs
    cases hs
  | runs hm hl => exact h.runs hy hx hyt hm hl hs
  | late hl hc hp => exact ⟨y, hy, h.late hx hyt hl hc hp hok hs⟩
  | @asks hd hl hg =>
    have hat : At hd.serial (x.thread t) := by rw [hx]; exact rfl
    -- the flag is up: nothing is left to do
    have hlost : x.state.closed hd.serial = true →
        Rel ⟨x.state, upd x.thread t (.run (.close hd) (.ret .done))⟩ y := by
      intro hc
      refine h.alone rfl ?_ (fun _ _ => rfl) rfl (fun k hk => hbusy k hk) fun _ _ _ _ => rfl
      rw [hyt]
      exact .lost hl hc
    simp only [System.step, hx] at hs
    by_cases hp : cfg.port = .go
    · obtain ⟨k, hk, hk1, hk0⟩ : ∃ k : Bool → M V Tid Pipeline.Result,
          close cfg hd = .act (.inr (.cas hd)) k ∧ k true = (Pipeline.retire cfg hd).lift ∧
            k false = .ret .done := by
        unfold close
        rw [hp]
        exact ⟨_, rfl, rfl, rfl⟩
      rw [hk] at hs
      cases hc : x.state.closed hd.serial with
      | true =>
        simp only [System.stepThread, sem, hc, if_true, Option.map_some] at hs
        cases hs
        exact ⟨y, hy, hk0 ▸ hlost hc⟩
      | false =>
        simp only [System.stepThread, sem, hc] at hs
        cases hs
        have hshuts := h.shuts hy hat hyt hl hg hc
        rw [← hk1] at hshuts
        exact hshuts
    · obtain ⟨k, hk, hk1, hk0⟩ : ∃ k : Bool → M V Tid Pipeline.Result,
          close cfg hd = .act (.inr (.load hd)) k ∧ k true = .ret .done ∧
            k false = .act (.inr (.store hd)) fun _ => (Pipeline.retire cfg hd).lift := by
        unfold close
        split
        · contradiction
        · exact ⟨_, rfl, rfl, rfl⟩
      rw [hk] at hs
      simp only [System.stepThread, sem, Option.map_some] at hs
      cases hs
      cases hc : x.state.closed hd.serial with
      | true => exact ⟨y, hy, hk1 ▸ hlost hc⟩
      | false =>
        refine ⟨y, hy, h.alone rfl ?_ (fun _ _ => rfl) rfl (fun k hk => hbusy k hk)
          fun _ _ _ _ => rfl⟩
        rw [hyt, hk0]
        exact .stores hl hg hc
  | @stores hd hl hg hc =>
    simp only [System.step, hx, System.stepThread] at hs
    cases hs
    exact h.shuts hy (by rw [hx]; exact rfl) hyt hl hg hc
  | @lost hd r hl hc =>
    simp only [System.step, hx] at hs
    cases hs
    have hin : x.state.base.inCall t = none := by
      rw [← h.state, inCall_thread hy t, hyt]
    have hfin : finish cfg t (.close hd) r x.state = { x.state with
        busy := upd x.state.busy hd.serial none } := by
      simp only [Handles.finish, hin]
      rfl
    rw [show (handles V Tid cfg).finish t _ _ x.state = _ from hfin]
    refine ⟨y, hy, h.alone rfl ?_ (fun _ _ => rfl) rfl (fun _ h => False.elim h)
      fun u hu k hk => ?_⟩
    · rw [hyt]
      exact .idle hl
    · refine upd_ne _ _ fun hk' => ?_
      subst hk'
      exact h.other (.inl (hbusy _ rfl)) hu hk

/-- Beside every run with handles there is a run of the pipeline. -/
theorem beside (hx : System.ReachableIf refusedLate x) :
    ∃ y, (Pipeline.pipeline V Tid cfg).Reachable y ∧ Rel x y := by
  have hind : ((handles V Tid cfg).lts.restrict (System.Meets refusedLate)).Inductive fun x =>
      ∃ y, (Pipeline.pipeline V Tid cfg).Reachable y ∧ Rel x y := by
    refine ⟨?_, fun x l x' ⟨y, hy, h⟩ hs => ?_⟩
    · rintro x rfl
      exact ⟨_, ⟨_, [], rfl, .nil _⟩, rfl, fun _ => .idle rfl, nofun, fun _ => .inl rfl⟩
    · obtain ⟨hok, hs⟩ := hs
      cases l with
      | step t n => exact h.step hy hok hs
      | invoke t d =>
        simp only [System.lts, System.step] at hs
        cases hth : x.thread t with
        | run c p => rw [hth] at hs; cases hs
        | idle =>
          simp only [hth, System.invoke] at hs
          split at hs
          · rename_i he
            cases hs
            exact h.invoke hy hth he
          · cases hs
  exact hind.reachable x hx

/-! ## One handle to a ring -/

/-- Writes ring `i` from the producer's side, or counts a push into it. -/
def writes (i : Nat) : (sig V Tid).Act → Prop
  | .inl (.slotStore h _ _) | .inl (.pushedAdd h) | .inl (.droppedAdd h) => h.id = i
  | .inl (.tailStore j _) | .inl (.headSee j) => j = i
  | _ => False

/-- The handle was given out for slot `i`, and is not closed. -/
def Open (s : State V Tid) (h i : Nat) : Prop :=
  s.base.handles[h]? = some i ∧ s.closed h = false

omit [DecidableEq Tid] [Inhabited V] [Inhabited Tid] in
theorem role_of_writes {g g' : Pipeline.Place V Tid} {a : Pipeline.Act V Tid} {r : Pipeline.Resp a}
    {i : Nat} (hm : Pipeline.Move cfg g a r g') (hw : writes i (.inl a : (sig V Tid).Act)) :
    ∃ h v, g.role = .push h v ∧ h.id = i := by
  cases hm with
  | push hm =>
    cases hm with
    | see h v | write h v | publish h v | count h v | drop h v => exact ⟨h, v, rfl, hw⟩
    | _ => exact hw.elim
  | life hm =>
    cases hm with
    | waits hh => cases a <;> first | exact hw.elim | cases hh
    | _ => exact hw.elim
  | wake hm | register hm | scan hm | drain hm | reclaim hm | clear hm | park hm =>
    cases hm <;> exact hw.elim

omit [DecidableEq Tid] [Inhabited V] [Inhabited Tid] in
variable (V Tid cfg) in
theorem close_act (hd : Pipeline.Handle) :
    ∃ b k, (close cfg hd : M V Tid Pipeline.Result) = .act (.inr b) k := by
  unfold close
  split <;> exact ⟨_, _, rfl⟩

/-- Who writes a ring pushes with an open handle of its slot. -/
theorem Rel.writer (h : Rel x y) (hy : (Pipeline.pipeline V Tid cfg).Reachable y)
    {w : (sig V Tid).Act} {i : Nat} (hat : System.AtOp x t w) (hw : writes i w) :
    ∃ hd v p, x.thread t = .run (.base (.push hd v)) p ∧ hd.id = i ∧ Open x.state hd.serial i := by
  obtain ⟨d, k, hx⟩ := hat
  have hb := h.threads t
  generalize hyt : y.thread t = b at hb
  rw [hx] at hb
  generalize hp : (.run d (.act w k) : System.Thread (handles V Tid cfg)) = a at hb
  cases hb with
  | @runs d c p hm hl =>
    cases p with
    | act a k' =>
      cases hp
      obtain ⟨γ, hr, hst⟩ := (Pipeline.follows V Tid cfg).stands hy.reachableIf
      have hcalls := (Pipeline.calls_keeps V Tid cfg _).reach hr
      have hresp : Nonempty (Pipeline.Resp a) := by
        cases a <;> first | exact hw.elim | exact ⟨default⟩
      obtain ⟨r⟩ := hresp
      obtain ⟨g', hmove⟩ := (hst t).move ⟨c, k', hyt⟩ r
      obtain ⟨hd, v, hrole, hi⟩ := role_of_writes hmove hw
      have hin := inCall_thread hy t
      rw [hcalls.push hrole, hyt] at hin
      cases hin
      cases hm
      obtain ⟨hc, hgiven⟩ := h.open_of_push hy hyt
      exact ⟨hd, v, _, hx, hi, hi ▸ hgiven, hc⟩
    | ret r => cases hp
    | call q k' => cases hp
  | late hl hc hlate =>
    rcases hlate with rfl | rfl
    · cases hp
      exact hw.elim
    · cases hp
  | @asks hd hl hg =>
    obtain ⟨b, k', hk⟩ := close_act V Tid cfg hd
    rw [hk] at hp
    cases hp
    exact hw.elim
  | stores =>
    cases hp
    exact hw.elim
  | idle | lost => cases hp

/-- Two open handles have different slots. -/
theorem Rel.apart (h : Rel x y) (hy : (Pipeline.pipeline V Tid cfg).Reachable y) {k k' i : Nat}
    (hk : Open x.state k i) (hk' : Open x.state k' i) : k = k' := by
  obtain ⟨γ, hr, -⟩ := (Pipeline.follows V Tid cfg).stands hy.reachableIf
  have howners := (Pipeline.owners_keeps V Tid cfg _).reach hr
  have hown : ∀ j, Open x.state j i → y.state.owner i = some (.handle j) := by
    intro j hj
    have hlive := h.live j
    rw [hj.2, ← h.state] at hlive
    exact (howners.live j i (by rw [h.state]; exact hj.1) hlive).1
  have := (hown k hk).symm.trans (hown k' hk')
  simpa using this

/-- A push on a closed handle does nothing to the pipeline. -/
theorem Rel.push_closed (h : Rel x y) (hy : (Pipeline.pipeline V Tid cfg).Reachable y)
    {hd : Pipeline.Handle} {v : V} {p : M V Tid Pipeline.Result} {n : Nat}
    (hx : x.thread t = .run (.base (.push hd v)) p) (hc : x.state.closed hd.serial = true)
    (hok : System.Meets refusedLate x (.step t n)) (hs : System.step x (.step t n) = some x') :
    x'.state.base = x.state.base := by
  have hb := h.threads t
  generalize hyt : y.thread t = b at hb
  rw [hx] at hb
  generalize ha : (.run (.base (.push hd v)) p : System.Thread (handles V Tid cfg)) = a at hb
  cases hb with
  | @runs d c p hm hl =>
    cases ha
    cases hm
    rw [(h.open_of_push hy hyt).1] at hc
    cases hc
  | late hl hc' hp =>
    cases ha
    rw [← (h.late hx hyt hl hc hp hok hs).state, h.state]
  | _ => cases ha

/-- A close that returns has closed the handle. -/
theorem Rel.close_closed (h : Rel x y) {hd : Pipeline.Handle} {r : Pipeline.Result}
    (hx : x.thread t = .run (.close hd) (.ret r)) : x.state.closed hd.serial = true := by
  have hb := h.threads t
  generalize y.thread t = b at hb
  rw [hx] at hb
  generalize ha : (.run (.close hd) (.ret r) : System.Thread (handles V Tid cfg)) = a at hb
  cases hb with
  | @runs d c p hm hl =>
    cases p with
    | ret r' =>
      cases ha
      cases hm
      assumption
    | act | call => cases ha
  | lost hl hc =>
    cases ha
    exact hc
  | @asks hd' hl hg =>
    obtain ⟨b, k, hk⟩ := close_act V Tid cfg hd'
    rw [hk] at ha
    cases ha
  | _ => cases ha

section
omit [Inhabited V] [Inhabited Tid]

theorem begin_closed (t : Tid) (c : Call V) (s : State V Tid) :
    (begin cfg t c s).closed = s.closed := by
  unfold begin
  split
  · dsimp only
    split <;> rfl
  · rfl
  · rfl

theorem finish_closed (t : Tid) (c : Call V) (r : Pipeline.Result) (s : State V Tid) :
    (finish cfg t c r s).closed = s.closed := by
  unfold finish
  split
  · dsimp only
    split <;> rfl
  · rfl
  · dsimp only
    split <;> rfl

theorem sem_closed {t : Tid} {a : (sig V Tid).Act} {n : Nat} {s s' : State V Tid}
    {r : (sig V Tid).Resp a} (hs : sem cfg t a n s = some (s', r)) {k : Nat}
    (hc : s.closed k = true) : s'.closed k = true := by
  have hshut : ∀ h : Pipeline.Handle, (shut cfg t h s).closed k = true := fun h => by
    show upd s.closed h.serial true k = true
    rw [upd_apply]
    split
    · rfl
    · exact hc
  cases a with
  | inl a =>
    obtain ⟨o, -, he⟩ := Option.map_eq_some_iff.mp hs
    cases he
    exact hc
  | inr a =>
    cases a with
    | load h =>
      cases hs
      exact hc
    | cas h =>
      unfold sem at hs
      dsimp only at hs
      split at hs
      · cases hs
        exact hc
      · cases hs
        exact hshut h
    | store h =>
      cases hs
      exact hshut h

end

/-- Nothing opens a closed handle. -/
theorem closed_run {y : System.Config (handles V Tid cfg)}
    {ls : List (System.Label (handles V Tid cfg))} (hr : (handles V Tid cfg).lts.Run x ls y)
    {k : Nat} (hc : x.state.closed k = true) : y.state.closed k = true := by
  induction hr with
  | nil => exact hc
  | cons hs _ ih =>
    refine ih ?_
    obtain hs | ⟨t, c, hs⟩ | ⟨t, c, r, hs⟩ | ⟨t, a, n, r, hs⟩ := System.step_cases hs
    · rwa [hs]
    · rwa [hs, begin_closed]
    · rwa [hs, finish_closed]
    · exact sem_closed hs hc

/-- **One handle to a ring.** In every run in which no push on a closed handle
finds the pipeline accepting, whatever the goroutines do with their handles
otherwise: two handles that are not closed have different slots; whoever writes
a ring or counts a push into it is in a push with the open handle of its slot,
and is the only one; and a handle on which a close has returned is closed and
stays so, and a push on a closed handle changes nothing of the pipeline. -/
theorem one_handle_per_ring (hx : System.ReachableIf refusedLate x) :
    (∀ k k' i, Open x.state k i → Open x.state k' i → k = k') ∧
      (∀ t w i, System.AtOp x t w → writes i w → (∃ hd v p,
        x.thread t = .run (.base (.push hd v)) p ∧ hd.id = i ∧ Open x.state hd.serial i) ∧
        ∀ u w', System.AtOp x u w' → writes i w' → u = t) ∧
      (∀ t hd r, x.thread t = .run (.close hd) (.ret r) → x.state.closed hd.serial = true) ∧
      (∀ k ls y, x.state.closed k = true → (handles V Tid cfg).lts.Run x ls y →
        y.state.closed k = true) ∧
      ∀ t hd v p n x', x.thread t = .run (.base (.push hd v)) p →
        x.state.closed hd.serial = true → System.Meets refusedLate x (.step t n) →
        System.step x (.step t n) = some x' → x'.state.base = x.state.base := by
  obtain ⟨y, hy, h⟩ := beside hx
  refine ⟨fun k k' i => h.apart hy, fun t w i hat hw => ⟨h.writer hy hat hw, ?_⟩,
    fun t hd r => h.close_closed, fun k ls y hc hr => closed_run hr hc,
    fun t hd v p n x' hth hc hok hs => h.push_closed hy hth hc hok hs⟩
  intro u w' hat' hw'
  obtain ⟨hd, v, p, hth, -, hopen⟩ := h.writer hy hat hw
  obtain ⟨hd', v', p', hth', -, hopen'⟩ := h.writer hy hat' hw'
  have hk := h.apart hy hopen hopen'
  have hb := h.busy t hd.serial (by rw [hth]; exact rfl)
  have hb' := h.busy u hd'.serial (by rw [hth']; exact rfl)
  rw [hk, hb'] at hb
  exact Option.some.inj hb

end
/-! Runs of the Go pipeline with the sizes of the source. -/

abbrev goHandles : System := handles Nat Nat (.standard .go .fullScan)

/-- `t` makes a call, and does `n` operations of it. -/
def does (t : Nat) (c : Call Nat) (n : Nat) : List (System.Label goHandles) :=
  .invoke t c :: List.replicate n (.step t 0)

/-- The test that a step meets `refusedLate`. -/
def refuses (x : System.Config goHandles) : System.Label goHandles → Bool
  | .invoke _ _ => true
  | .step t _ =>
    match x.thread t with
    | .run _ (.act (.inl (.acceptingLoad _)) _) => !x.state.late t || !x.state.base.accepting
    | _ => true

theorem refuses_meets (x : System.Config goHandles) (l : System.Label goHandles)
    (h : refuses x l = true) : System.Meets refusedLate x l := by
  cases l with
  | invoke => trivial
  | step t n =>
    rintro a ⟨c, k, hth⟩
    simp only [refuses, hth] at h
    rcases a with a | b
    · cases a <;> first | trivial | skip
      intro hl
      simpa [hl] using h
    · trivial

/-- Who is about to write which slot's ring. -/
def writer (x : System.Config goHandles) (t : Nat) : Option Pipeline.Handle :=
  match x.thread t with
  | .run _ (.act (.inl (.slotStore h _ _)) _) => some h
  | _ => none

theorem atOp_of_writer {x : System.Config goHandles} {t : Nat} {h : Pipeline.Handle}
    (hw : writer x t = some h) : ∃ w, System.AtOp x t w ∧ writes h.id w := by
  unfold writer at hw
  split at hw
  · rename_i c h' pos v k hth
    cases hw
    exact ⟨_, ⟨c, k, hth⟩, rfl⟩
  · cases hw

/-- A handle is closed and pushed on before the pipeline is started; then
another producer pushes. -/
def closedBeforeStart : List (System.Label goHandles) :=
  does 1 (.base .register) 7 ++ does 1 (.close ⟨0, 0⟩) 5 ++ does 1 (.base (.push ⟨0, 0⟩ 7)) 2 ++
  does 0 (.base .start) 4 ++ does 2 (.base .register) 8 ++ does 2 (.base (.push ⟨1, 1⟩ 8)) 3

theorem one_handle_per_ring_two : ∃ x : System.Config goHandles, System.ReachableIf refusedLate x ∧
    x.state.closed 0 = true ∧ writer x 2 = some ⟨1, 1⟩ ∧
    ∃ hd v p, x.thread 2 = .run (.base (.push hd v)) p ∧ hd.id = 1 ∧
      Open x.state hd.serial 1 := by
  obtain ⟨x, hx, hp⟩ := System.reachableIf_of_test refuses_meets closedBeforeStart
    (fun x => x.state.closed 0 && decide (writer x 2 = some ⟨1, 1⟩)) (by decide +kernel)
  simp only [Bool.and_eq_true, decide_eq_true_eq] at hp
  obtain ⟨w, hat, hw⟩ := atOp_of_writer hp.2
  exact ⟨x, hx, hp.1, hp.2, ((one_handle_per_ring hx).2.1 2 w 1 hat hw).1⟩

/-- A handle is closed, its slot reclaimed and given to another producer, and
both push. -/
def pushedAfterClose : List (System.Label goHandles) :=
  does 0 (.base .start) 4 ++ does 1 (.base .register) 7 ++ does 1 (.close ⟨0, 0⟩) 5 ++
  does 2 (.base .consume) 95 ++ does 1 (.base .register) 7 ++
  does 1 (.base (.push ⟨1, 0⟩ 8)) 3 ++ does 3 (.base (.push ⟨0, 0⟩ 7)) 3

/-- Two handles write one ring at once: one of them was closed, and its slot is
the other's. -/
theorem two_writers : ∃ x : System.Config goHandles, goHandles.Reachable x ∧
    x.state.closed 0 = true ∧ Open x.state 1 0 ∧ writer x 3 = some ⟨0, 0⟩ ∧
    writer x 1 = some ⟨1, 0⟩ := by
  obtain ⟨x, hx, hp⟩ := System.reachable_of_test pushedAfterClose
    (fun x => decide (x.state.closed 0 = true ∧ (x.state.base.handles[1]? = some 0 ∧
      x.state.closed 1 = false) ∧ writer x 3 = some ⟨0, 0⟩ ∧ writer x 1 = some ⟨1, 0⟩))
    (by decide +kernel)
  obtain ⟨hc, hopen, hw, hw'⟩ := of_decide_eq_true hp
  exact ⟨x, hx, hc, hopen, hw, hw'⟩

end Katas.Weir.Handles
