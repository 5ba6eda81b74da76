import Katas.Turnstile.Cpp.MutexQueue

/-!
# The mutex queue loses no wakeup

While a thread waits on a condition variable and the queue is open, there are
as many threads notified, or about to notify one, as there are units of what
it waits for (items, or free cells), or somebody is about to notify all:
`Served`. A section that adds a unit leaves with a notification; a thread that
resumes uses up a unit or finds none, if it asks for any; a thread begins to
wait only when there is none. Closing is a sweep over both variables, after
which no thread begins to wait.
-/
namespace Katas.Turnstile.MutexQueue
open Katas.Conc (upd upd_self upd_ne)

variable {T Tid : Type} {N : Nat} {q q' : Fields T} {cv : Cv}

/-- What the waiters on `cv` wait for, how much of it there is. -/
def stock (N : Nat) (q : Fields T) : Cv → Nat
  | .not_empty => q.size
  | .not_full => N - q.size

/-! ## What a critical section does -/

@[simp] theorem put_size (v : T) : (put N v q).size = q.size + 1 := rfl

@[simp] theorem put_closed (v : T) : (put N v q).closed = q.closed := rfl

@[simp] theorem take_size : (take N q).1.size = q.size - 1 := rfl

theorem fill_closed (items : List T) (done : Nat) :
    (fill N items done q).1.closed = q.closed := by
  induction items generalizing done q with
  | nil => rfl
  | cons v items ih =>
    unfold fill
    split
    · rw [ih, put_closed]
    · rfl

theorem fill_le (items : List T) (done : Nat) : q.size ≤ (fill N items done q).1.size := by
  induction items generalizing done q with
  | nil => exact Nat.le_refl _
  | cons v items ih =>
    unfold fill
    split
    · exact Nat.le_trans (Nat.le_succ _) (ih (q := put N v q) (done + 1))
    · exact Nat.le_refl _

theorem fill_bound (items : List T) (done : Nat) (h : q.size ≤ N) :
    (fill N items done q).1.size ≤ N := by
  induction items generalizing done q with
  | nil => exact h
  | cons v items ih =>
    unfold fill
    split
    · rename_i hlt
      exact ih _ hlt
    · exact h

theorem fill_cons (v : T) (items : List T) (done : Nat) (h : q.size < N) :
    q.size < (fill N (v :: items) done q).1.size := by
  unfold fill
  rw [if_pos h]
  exact fill_le (q := put N v q) items (done + 1)

theorem drain_closed (n : Nat) : (drain N n q).1.closed = q.closed := by
  induction n generalizing q with
  | zero => rfl
  | succ n ih =>
    unfold drain
    split
    · exact ih (q := (take N q).1)
    · rfl

theorem drain_le (n : Nat) : (drain N n q).1.size ≤ q.size := by
  induction n generalizing q with
  | zero => exact Nat.le_refl _
  | succ n ih =>
    unfold drain
    split
    · exact Nat.le_trans (ih (q := (take N q).1)) (Nat.sub_le _ _)
    · exact Nat.le_refl _

theorem drain_pos {n : Nat} (hn : 0 < n) : (drain N n q).1.size ≤ q.size - 1 := by
  obtain ⟨m, rfl⟩ := Nat.exists_eq_succ_of_ne_zero (Nat.ne_of_gt hn)
  unfold drain
  split
  · exact drain_le (q := (take N q).1) m
  · rename_i hq
    show q.size ≤ q.size - 1
    omega

/-- How a section ends that has turned `q` into `q'` and leaves `ns` to be
notified; `on cv`: the thread came out of a wait on `cv`. While the queue is
open, what the section added of a unit is notified, and such a thread has used
up a unit, if there was one. -/
structure Left (N : Nat) (on : Cv → Prop) (q q' : Fields T) (ns : List Notify) (k : Then T) :
    Prop where
  bound : q'.size ≤ N
  keeps : q.closed = true → q'.closed = true
  shuts : q'.closed = true → q.closed = true ∨ ∀ cv, .all cv ∈ ns
  close : k = .ret .close → q'.closed = true ∧ ∀ cv, .all cv ∈ ns
  settles : q'.closed = false → ∀ cv, .all cv ∈ ns ∨
    (¬on cv ∧ .one cv ∈ ns ∧ stock N q' cv ≤ stock N q cv + 1) ∨
    stock N q' cv ≤ stock N q cv ∧ (on cv → stock N q' cv ≤ stock N q cv - 1)

/-- A section that begins a wait has changed nothing, and there was none of what
it waits for. -/
structure Blocked (N : Nat) (on : Cv → Prop) (q q' : Fields T) (w : Waiter T) : Prop where
  same : q' = q
  open_ : q.closed = false
  none : stock N q w.cv = 0
  on : ∀ cv, on cv → w.cv = cv

def Next.Ends (N : Nat) (on : Cv → Prop) (q q' : Fields T) : Next T → Prop
  | .wait w => Blocked N on q q' w
  | .leave ns k => Left N on q q' ns k

/-- Does it ask for anything? -/
def Waiter.Asks : Waiter T → Prop
  | .pop_batch max => 0 < max
  | _ => True

/-- The variable that the section's thread, which asks for something, has waited
on. -/
def Section.on (cv : Cv) : Section T → Prop
  | .waiter w => w.cv = cv ∧ w.Asks
  | _ => False

section ends
variable {on : Cv → Prop} {ns : List Notify} {k : Then T}

theorem Left.same (hb : q.size ≤ N) (hk : k ≠ .ret .close)
    (hon : q.closed = false → ∀ cv, on cv → stock N q cv = 0) : Left N on q q ns k where
  bound := hb
  keeps := id
  shuts := .inl
  close h := absurd h hk
  settles ho cv := by
    refine .inr (.inr ⟨Nat.le_refl _, fun h => ?_⟩)
    have := hon ho cv h
    omega

theorem Left.put (v : T) (hb : q.size < N) (hk : k ≠ .ret .close) (hon : ¬on .not_empty) :
    Left N on q (put N v q) [.one .not_empty] k where
  bound := hb
  keeps := id
  shuts := .inl
  close h := absurd h hk
  settles _ cv := by
    cases cv with
    | not_empty => exact .inr (.inl ⟨hon, by simp, by simp [stock]⟩)
    | not_full =>
      refine .inr (.inr ?_)
      simp only [stock, put_size]
      omega

theorem Left.take (hb : q.size ≤ N) (hk : k ≠ .ret .close)
    (hon : ¬on .not_full) : Left N on q (take N q).1 [.one .not_full] k where
  bound := Nat.le_trans (Nat.sub_le _ _) hb
  keeps := id
  shuts := .inl
  close h := absurd h hk
  settles _ cv := by
    cases cv with
    | not_full =>
      refine .inr (.inl ⟨hon, by simp, ?_⟩)
      simp only [stock, take_size]
      omega
    | not_empty =>
      refine .inr (.inr ?_)
      simp only [stock, take_size]
      omega

theorem Left.fill (v : T) (items : List T) (done : Nat) (hb : q.size < N)
    (hk : k ≠ .ret .close) :
    Left N on q (fill N (v :: items) done q).1 [.all .not_empty] k where
  bound := fill_bound _ done (Nat.le_of_lt hb)
  keeps h := (fill_closed _ done).trans h
  shuts h := .inl ((fill_closed _ done).symm.trans h)
  close h := absurd h hk
  settles _ cv := by
    cases cv with
    | not_empty => exact .inl (by simp)
    | not_full =>
      have hlt := fill_cons v items done hb
      refine .inr (.inr ?_)
      simp only [stock]
      omega

theorem Left.drain {n : Nat} (hon : on .not_empty → 0 < n) (hb : q.size ≤ N)
    (hk : k ≠ .ret .close) : Left N on q (drain N n q).1 [.all .not_full] k where
  bound := Nat.le_trans (drain_le n) hb
  keeps h := (drain_closed n).trans h
  shuts h := .inl ((drain_closed n).symm.trans h)
  close h := absurd h hk
  settles _ cv := by
    cases cv with
    | not_full => exact .inl (by simp)
    | not_empty =>
      exact .inr (.inr ⟨drain_le n, fun h => drain_pos (hon h)⟩)

end ends

/-- Fewer threads have waited. -/
theorem Next.Ends.mono {on on' : Cv → Prop} {x : Next T} (h : x.Ends N on q q')
    (hon : ∀ cv, on' cv → on cv) : x.Ends N on' q q' := by
  cases x with
  | wait w =>
    obtain ⟨h1, h2, h3, h4⟩ := h
    exact ⟨h1, h2, h3, fun cv hcv => h4 cv (hon cv hcv)⟩
  | leave ns k =>
    obtain ⟨h1, h2, h3, h4, h5⟩ := h
    refine ⟨h1, h2, h3, h4, fun ho cv => ?_⟩
    obtain hall | ⟨hnot, hone⟩ | ⟨hle, hsub⟩ := h5 ho cv
    · exact .inl hall
    · exact .inr (.inl ⟨fun h => hnot (hon cv h), hone⟩)
    · exact .inr (.inr ⟨hle, fun h => hsub (hon cv h)⟩)

/-! ## Each section -/

section sections
variable {x : Next T}

theorem try_push_ends (v : T) (hb : q.size ≤ N) (h : try_push N v q = (q', x)) :
    x.Ends N (fun _ => False) q q' := by
  unfold try_push at h
  split at h
  · cases h
    exact .same hb nofun (by simp)
  split at h
  · cases h
    exact .same hb nofun (by simp)
  · rename_i hn
    cases h
    exact .put v (by omega) nofun id

theorem push_ends (v : T) (timeout : Bool) (hb : q.size ≤ N) (h : push N v timeout q = (q', x)) :
    x.Ends N (.not_full = ·) q q' := by
  unfold push at h
  split at h
  · rename_i hc
    cases h
    exact .same hb nofun fun _ cv hcv => by subst hcv; simp [stock, hc.2.1]
  split at h
  · rename_i hc
    cases h
    exact ⟨rfl, by simpa using hc.1, by simp [Waiter.cv, stock, hc.2], fun cv hcv => hcv⟩
  split at h
  · rename_i hc
    cases h
    exact .same hb nofun fun ho => by simp [hc] at ho
  · rename_i hn hc
    have hne : q.size ≠ N := fun he => hn ⟨by simpa using hc, he⟩
    cases h
    exact .put v (by omega) nofun nofun

theorem push_batch_ends (items : List T) (done : Nat) (timeout : Bool) (hb : q.size ≤ N)
    {on : Cv → Prop} (hon : ∀ cv, on cv → cv = .not_full ∧ items ≠ [])
    (h : push_batch N items done timeout q = (q', x)) : x.Ends N on q q' := by
  unfold push_batch at h
  split at h
  · cases h
    exact .same hb nofun fun _ cv hcv => absurd rfl (hon cv hcv).2
  have hfull : q.size = N → ∀ cv, on cv → stock N q cv = 0 := by
    intro he cv hcv
    rw [(hon cv hcv).1]
    simp [stock, he]
  split at h
  · rename_i hc
    cases h
    exact .same hb nofun fun _ => hfull hc.2.1
  split at h
  · rename_i hc
    cases h
    exact ⟨rfl, by simpa using hc.1, by simp [Waiter.cv, stock, hc.2],
      fun cv hcv => (hon cv hcv).1.symm⟩
  split at h
  · rename_i hc
    cases h
    exact .same hb nofun fun ho => by simp [hc] at ho
  · rename_i hn hc
    have hne : q.size ≠ N := fun he => hn ⟨by simpa using hc, he⟩
    cases h
    exact .fill _ _ _ (by omega) nofun

theorem try_pop_ends (hb : q.size ≤ N) (h : try_pop N q = (q', x)) :
    x.Ends N (fun _ => False) q q' := by
  unfold try_pop at h
  split at h
  · cases h
    exact .same hb nofun (by simp)
  · cases h
    exact .take hb nofun id

theorem pop_ends (timeout : Bool) (hb : q.size ≤ N) (h : pop N timeout q = (q', x)) :
    x.Ends N (.not_empty = ·) q q' := by
  unfold pop at h
  have hempty : q.size = 0 → ∀ cv, .not_empty = cv → stock N q cv = 0 := by
    rintro he _ rfl
    exact he
  split at h
  · rename_i hc
    cases h
    exact .same hb nofun fun _ => hempty hc.2
  split at h
  · rename_i hc
    split at h
    · cases h
      exact .same hb nofun fun _ => hempty hc
    · rename_i ho
      cases h
      exact ⟨rfl, by simpa using ho, hc, fun cv hcv => hcv⟩
  · cases h
    exact .take hb nofun nofun

theorem pop_batch_ends (max : Nat) (timeout : Bool) (hb : q.size ≤ N)
    (h : pop_batch N max timeout q = (q', x)) :
    x.Ends N (fun cv => .not_empty = cv ∧ 0 < max) q q' := by
  unfold pop_batch at h
  have hempty : q.size = 0 → ∀ cv, .not_empty = cv ∧ 0 < max → stock N q cv = 0 := by
    rintro he _ ⟨rfl, -⟩
    exact he
  split at h
  · rename_i hc
    cases h
    exact .same hb nofun fun _ => hempty hc.2
  split at h
  · rename_i hc
    split at h
    · cases h
      exact .same hb nofun fun _ => hempty hc
    · rename_i ho
      cases h
      exact ⟨rfl, by simpa using ho, hc, fun cv hcv => hcv.1⟩
  · cases h
    exact .drain And.right hb nofun

theorem close_ends (hb : q.size ≤ N) (h : close q = (q', x)) :
    x.Ends N (fun _ => False) q q' := by
  cases h
  have hall : ∀ cv, Notify.all cv ∈ [.all .not_empty, .all .not_full] := by
    intro cv
    cases cv <;> simp
  exact ⟨hb, fun _ => rfl, fun _ => .inr hall, fun _ => ⟨rfl, hall⟩, nofun⟩

theorem run_ends {c : Section T} {timeout : Bool} (hb : q.size ≤ N)
    (h : run N timeout q c = (q', x)) : x.Ends N (c.on ·) q q' := by
  cases c with
  | try_push v => exact try_push_ends v hb h
  | push_batch items done => exact push_batch_ends items done timeout hb nofun h
  | try_pop => exact try_pop_ends hb h
  | close => exact close_ends hb h
  | closed =>
    cases h
    exact .same hb nofun nofun
  | waiter w =>
    cases w with
    | push v => exact (push_ends v timeout hb h).mono fun cv hcv => hcv.1
    | push_batch v items done =>
      exact push_batch_ends (v :: items) done timeout hb (fun cv hcv => ⟨hcv.1.symm, nofun⟩) h
    | pop => exact (pop_ends timeout hb h).mono fun cv hcv => hcv.1
    | pop_batch max => exact pop_batch_ends max timeout hb h

end sections

/-! ## Who is notified -/

/-- Notified on `cv`, or about to notify one there: it is out of a wait on `cv`
or has a `notify_one` left. -/
def Place.Owes (cv : Cv) : Place T → Prop
  | .woken w => w.cv = cv
  | .leaves ns _ => .one cv ∈ ns
  | _ => False

/-- About to notify all on `cv`. -/
def Place.Sweeps (cv : Cv) : Place T → Prop
  | .leaves ns _ => .all cv ∈ ns
  | _ => False

def Served (N : Nat) (cv : Cv) (s : State T Tid) : Prop :=
  (∃ u, (s.loc u).WaitsOn cv) → (∃ u, (s.loc u).Sweeps cv) ∨
    s.q.closed = false ∧ Covers (fun u => (s.loc u).Owes cv) (stock N s.q cv)

variable {s s' : State T Tid} {t u : Tid}

theorem not_waitsOn_notified (p : Place T) : ¬(p.notified cv).WaitsOn cv := by
  rintro ⟨w, hw, hcv⟩
  unfold Place.notified at hw
  split at hw
  · split at hw
    · cases hw
    · rename_i hne
      cases hw
      exact hne hcv
  · rename_i hn
    exact hn w hw

section other
variable {cv' : Cv} (p : Place T)

theorem waitsOn_notified : (p.notified cv').WaitsOn cv → p.WaitsOn cv := by
  rintro ⟨w, hw, hcv⟩
  unfold Place.notified at hw
  split at hw
  · split at hw
    · cases hw
    · exact ⟨w, hw, hcv⟩
  · exact ⟨w, hw, hcv⟩

theorem owes_notified : p.Owes cv → (p.notified cv').Owes cv := by
  intro h
  unfold Place.notified
  split
  · exact h.elim
  · exact h

theorem sweeps_notified : p.Sweeps cv → (p.notified cv').Sweeps cv := by
  intro h
  unfold Place.notified
  split
  · exact h.elim
  · exact h

end other

section steps
variable [DecidableEq Tid]

@[simp] theorem move_loc_self (p : Place T) : (s.move t p).loc t = p := upd_self ..

@[simp] theorem move_loc_ne (p : Place T) (h : u ≠ t) : (s.move t p).loc u = s.loc u :=
  upd_ne _ _ h

theorem not_waitsOn {p : Place T} (h : ∀ w, p ≠ .waits w) : ¬ p.WaitsOn cv := by
  rintro ⟨w, hw, -⟩
  exact h w hw

/-- A step of `t` that neither takes it into a wait on `cv`, nor ends what it
owes and sweeps there, nor adds to the stock. -/
theorem Served.move {p : Place T} (h : Served N cv s) (hw : p.WaitsOn cv → (s.loc t).WaitsOn cv)
    (ho : (s.loc t).Owes cv → p.Owes cv) (ha : (s.loc t).Sweeps cv → p.Sweeps cv)
    (hc : q.closed = s.q.closed) (hq : stock N q cv ≤ stock N s.q cv) :
    Served N cv { s.move t p with q := q } := by
  have hloc : ∀ P : Place T → Prop, (P (s.loc t) → P p) → ∀ u, P (s.loc u) → P (upd s.loc t p u) := by
    intro P hP u hu
    by_cases hut : u = t
    · subst hut
      rw [upd_self]
      exact hP hu
    · rw [upd_ne _ _ hut]
      exact hu
  rintro ⟨u, hu⟩
  have hwait : ∃ u, (s.loc u).WaitsOn cv := by
    by_cases hut : u = t
    · subst hut
      exact ⟨u, hw (by simpa using hu)⟩
    · exact ⟨u, by simpa [hut] using hu⟩
  obtain ⟨v, hv⟩ | ⟨ho', hcov⟩ := h hwait
  · exact .inl ⟨v, hloc _ ha v hv⟩
  · exact .inr ⟨hc.trans ho', (hcov.mono (hloc _ ho)).le hq⟩

/-- `t` ends a section that leaves the mutex. -/
theorem Served.leaves {on : Cv → Prop} {ns : List Notify} {k : Then T} (h : Served N cv s)
    (hl : Left N on s.q q ns k) (hon : (s.loc t).Owes cv → on cv)
    (ha : ¬(s.loc t).Sweeps cv) : Served N cv { s.move t (.leaves ns k) with q := q } := by
  by_cases hall : .all cv ∈ ns
  · refine fun _ => .inl ⟨t, ?_⟩
    simpa [Place.Sweeps] using hall
  rintro ⟨u, hu⟩
  have hut : u ≠ t := by
    rintro rfl
    obtain ⟨w, hw, -⟩ := hu
    simp at hw
  have hwait : ∃ u, (s.loc u).WaitsOn cv := ⟨u, by simpa [hut] using hu⟩
  have hne : ∀ v, v ≠ t → (s.loc v).Owes cv → (upd s.loc t (.leaves ns k) v).Owes cv := by
    intro v hv hp
    rw [upd_ne _ _ hv]
    exact hp
  obtain ⟨v, hv⟩ | ⟨ho, hcov⟩ := h hwait
  · have hvt : v ≠ t := by
      rintro rfl
      exact ha hv
    exact .inl ⟨v, by simpa [hvt] using hv⟩
  have hopen : q.closed = false := by
    cases hcl : q.closed with
    | false => rfl
    | true =>
      obtain hcl | hcl := hl.shuts hcl
      · rw [ho] at hcl
        cases hcl
      · exact absurd (hcl cv) hall
  refine .inr ⟨hopen, ?_⟩
  obtain hin | ⟨hnot, hone, hle⟩ | ⟨hle, hsub⟩ := hl.settles hopen cv
  · exact absurd hin hall
  · refine (hcov.gain (i := t) (fun hp => hnot (hon hp)) ?_ hne).le hle
    simpa [Place.Owes] using hone
  · by_cases hp : (s.loc t).Owes cv
    · exact (hcov.spend (i := t) hne).le (hsub (hon hp))
    · refine (hcov.mono fun v hv => hne v ?_ hv).le hle
      rintro rfl
      exact hp hv

/-- `t` begins a wait. -/
theorem Served.blocks {on : Cv → Prop} {w : Waiter T} (h : Served N cv s)
    (hl : Blocked N on s.q q w) (hon : (s.loc t).Owes cv → on cv)
    (ha : ¬(s.loc t).Sweeps cv) : Served N cv { s.move t (.waits w) with q := q } := by
  obtain ⟨rfl, hopen, hnone, hcv⟩ := hl
  by_cases hw : w.cv = cv
  · subst hw
    refine fun _ => .inr ⟨hopen, ?_⟩
    rw [hnone]
    exact .zero _
  · refine h.move ?_ (fun hp => absurd (hcv cv (hon hp)) hw) (fun hs => absurd hs ha) rfl
      (Nat.le_refl _)
    rintro ⟨v, hv, hvcv⟩
    cases hv
    exact absurd hvcv hw

/-- What holds at every moment. -/
structure Inv (N : Nat) (s : State T Tid) : Prop where
  bound : s.q.size ≤ N
  served : ∀ cv, Served N cv s

theorem Served.enters {c : Section T} {x : Next T} (h : Served N cv s)
    (hx : x.Ends N (c.on ·) s.q q) (hon : (s.loc t).Owes cv → c.on cv)
    (ha : ¬(s.loc t).Sweeps cv) : Served N cv { s.move t x.place with q := q } := by
  cases x with
  | wait w => exact h.blocks hx hon ha
  | leave ns k => exact h.leaves hx hon ha

theorem Next.Ends.bound {on : Cv → Prop} {x : Next T} (h : x.Ends N on q q')
    (hb : q.size ≤ N) : q'.size ≤ N := by
  cases x with
  | wait w =>
    obtain ⟨rfl, -⟩ := h
    exact hb
  | leave ns k => exact Left.bound h

/-! ## Notifications -/

/-- The notification of one on `cv` reaches `u`: what `t` owed, `u` owes. -/
theorem Served.notify_one {ns : List Notify} {k : Then T} {w : Waiter T}
    (h : Served N w.cv s) (ht : s.loc t = .leaves (.one w.cv :: ns) k) (hu : s.loc u = .waits w) :
    Served N w.cv ((s.move t (.leaves ns k)).move u (.woken w)) := by
  have htu : u ≠ t := by
    rintro rfl
    rw [ht] at hu
    cases hu
  intro _
  obtain ⟨v, hv⟩ | ⟨ho, hcov⟩ := h ⟨u, w, hu, rfl⟩
  · have hvu : v ≠ u := by
      rintro rfl
      simp [hu, Place.Sweeps] at hv
    refine .inl ⟨v, ?_⟩
    rw [move_loc_ne _ hvu]
    by_cases hvt : v = t
    · subst hvt
      simpa [ht, Place.Sweeps] using hv
    · rwa [move_loc_ne _ hvt]
  · refine .inr ⟨ho, hcov.pass (i := t) (j := u) ?_ ?_ fun v hvt hvu hv => ?_⟩
    · simp [hu, Place.Owes]
    · simp [Place.Owes]
    · rwa [move_loc_ne _ hvu, move_loc_ne _ hvt]

theorem Served.notify_all {ns : List Notify} {k : Then T} {cv' : Cv} (h : Served N cv s)
    (ht : s.loc t = .leaves (.all cv' :: ns) k) :
    Served N cv { s with loc := upd (fun u => (s.loc u).notified cv') t (.leaves ns k) } := by
  by_cases hcv : cv' = cv
  · subst hcv
    rintro ⟨u, hu⟩
    by_cases hut : u = t
    · subst hut
      obtain ⟨w, hw, -⟩ := hu
      simp at hw
    · simp only [upd_ne _ _ hut] at hu
      exact absurd hu (not_waitsOn_notified _)
  have hn : Served N cv { s with loc := fun u => (s.loc u).notified cv' } := by
    rintro ⟨u, hu⟩
    obtain ⟨v, hv⟩ | ⟨ho, hcov⟩ := h ⟨u, waitsOn_notified _ hu⟩
    · exact .inl ⟨v, sweeps_notified _ hv⟩
    · exact .inr ⟨ho, hcov.mono fun v => owes_notified _⟩
  refine hn.move (fun hw => absurd hw (not_waitsOn fun w h => by cases h)) ?_ ?_ rfl
    (Nat.le_refl _)
  · simp [ht, Place.notified, Place.Owes]
  · simp [ht, Place.notified, Place.Sweeps, Ne.symm hcv]

theorem Served.pop_one {ns : List Notify} {k : Then T} {cv' : Cv} (h : Served N cv s)
    (ht : s.loc t = .leaves (.one cv' :: ns) k) (hcv : cv' ≠ cv) :
    Served N cv (s.move t (.leaves ns k)) := by
  refine h.move nofun ?_ ?_ rfl (Nat.le_refl _)
  · simp [ht, Place.Owes, Ne.symm hcv]
  · simp [ht, Place.Sweeps]

/-! ## Every step -/

/-- Batches of at least one item. -/
def State.Asks (s : State T Tid) (t : Tid) : Prop := ∀ w, s.Before t (.waiter w) → w.Asks

theorem served_step (h : Inv N s) (ha : s.Asks t) (hs : Step N s t s') : Served N cv s' := by
  have hc := h.served cv
  cases hs with
  | calls ht _ =>
    exact hc.move nofun (by simp [ht, Place.Owes]) (by simp [ht, Place.Sweeps]) rfl (Nat.le_refl _)
  | enters ht hr =>
    exact hc.enters (run_ends h.bound hr) (by simp [ht, Place.Owes]) (by simp [ht, Place.Sweeps])
  | resumes ht hr =>
    refine hc.enters (run_ends h.bound hr) ?_ (by simp [ht, Place.Sweeps])
    rw [ht]
    exact fun hcv => ⟨hcv, ha _ (.inr ⟨_, rfl, ht⟩)⟩
  | wakes ht =>
    exact hc.move nofun (by simp [ht, Place.Owes]) (by simp [ht, Place.Sweeps]) rfl (Nat.le_refl _)
  | @notify_one u _ ns k w ht hu hw =>
    subst hw
    by_cases hcv : w.cv = cv
    · subst hcv
      exact hc.notify_one ht hu
    · have hut : u ≠ t := by
        rintro rfl
        rw [ht] at hu
        cases hu
      have h1 := hc.pop_one ht hcv
      refine h1.move nofun ?_ ?_ rfl (Nat.le_refl _)
      · simp [hut, hu, Place.Owes]
      · simp [hut, hu, Place.Sweeps]
  | notify_none ht hn =>
    rename_i cv' ns k
    by_cases hcv : cv' = cv
    · subst hcv
      rintro ⟨u, hu⟩
      by_cases hut : u = t
      · subst hut
        obtain ⟨w, hw, -⟩ := hu
        simp at hw
      · exact absurd (by simpa [hut] using hu) (hn u)
    · exact hc.pop_one ht hcv
  | notify_all ht => exact hc.notify_all ht
  | again ht =>
    exact hc.move nofun (by simp [ht, Place.Owes]) (by simp [ht, Place.Sweeps]) rfl (Nat.le_refl _)
  | returns ht =>
    exact hc.move nofun (by simp [ht, Place.Owes]) (by simp [ht, Place.Sweeps]) rfl (Nat.le_refl _)

theorem bound_step (h : s.q.size ≤ N) (hs : Step N s t s') : s'.q.size ≤ N := by
  cases hs with
  | enters _ hr | resumes _ hr => exact (run_ends h hr).bound h
  | _ => exact h

theorem inv_reachable [Inhabited T]
    (h : ((machine T Tid N).restrict State.Asks).Reachable s) : Inv N s := by
  have hind : ((machine T Tid N).restrict State.Asks).Inductive (Inv N) := by
    refine ⟨?_, fun s t s' h ⟨ha, hs⟩ =>
      ⟨bound_step h.bound hs, fun cv => served_step h ha hs⟩⟩
    rintro s rfl
    refine ⟨Nat.zero_le N, fun cv => ?_⟩
    rintro ⟨u, w, hw, -⟩
    cases hw
  exact hind.reachable s h

/-! ## Closing -/

theorem closed_step (hb : s.q.size ≤ N) (h : s.q.closed = true) (hs : Step N s t s') :
    s'.q.closed = true := by
  cases hs with
  | @enters c q x ht hr | @resumes c _ q x ht hr =>
    have hx := run_ends hb hr
    cases x with
    | wait w =>
      have hsame : q = s.q := hx.same
      exact (congrArg Fields.closed hsame).trans h
    | leave ns k => exact Left.keeps hx h
  | _ => exact h

/-- Once closed, no thread begins to wait. -/
theorem swept_step (hb : s.q.size ≤ N) (h : s.q.closed = true)
    (hw : ∀ u, ¬(s.loc u).WaitsOn cv) (hs : Step N s t s') : ∀ u, ¬(s'.loc u).WaitsOn cv := by
  have hmove : ∀ (p : Place T), ¬p.WaitsOn cv → ∀ u, ¬(upd s.loc t p u).WaitsOn cv := by
    intro p hp u
    by_cases hut : u = t
    · subst hut
      rwa [upd_self]
    · rw [upd_ne _ _ hut]
      exact hw u
  have hleaves : ∀ ns (k : Then T), ¬ (Place.leaves ns k).WaitsOn cv := fun ns k =>
    not_waitsOn fun w h => by cases h
  cases hs with
  | @enters c q x ht hr | @resumes c _ q x ht hr =>
    have hx := run_ends hb hr
    cases x with
    | wait w =>
      have hopen := hx.open_
      rw [h] at hopen
      cases hopen
    | leave ns k => exact hmove (.leaves ns k) (hleaves ns k)
  | @notify_one u _ ns k w ht hu hcv =>
    intro v
    by_cases hvu : v = u
    · subst hvu
      rw [move_loc_self]
      exact not_waitsOn fun w h => by cases h
    · rw [move_loc_ne _ hvu]
      exact hmove (.leaves ns k) (hleaves ns k) v
  | @notify_all cv' ns k ht =>
    intro v
    by_cases hvt : v = t
    · subst hvt
      simp only [upd_self]
      exact hleaves ns k
    · simp only [upd_ne _ _ hvt]
      intro hv
      by_cases hcv : cv' = cv
      · subst hcv
        exact not_waitsOn_notified _ hv
      · exact hw v (waitsOn_notified _ hv)
  | _ => exact hmove _ (not_waitsOn fun w h => by cases h)

/-- A `close` that is past its critical section, and one that has returned. -/
structure Closing (s : State T Tid) : Prop where
  leaving : ∀ t ns, s.loc t = .leaves ns (.ret .close) →
    s.q.closed = true ∧ ∀ cv, .all cv ∈ ns ∨ ∀ u, ¬(s.loc u).WaitsOn cv
  shut : s.shut = true → s.q.closed = true ∧ ∀ cv u, ¬(s.loc u).WaitsOn cv

/-- A `close` on its way out either was on its way before the step, or it has
just left its critical section. -/
theorem leaving_step {v : Tid} {ns : List Notify} (hb : s.q.size ≤ N) (hs : Step N s t s')
    (hv : s'.loc v = .leaves ns (.ret .close)) :
    (s'.q.closed = true ∧ ∀ cv, .all cv ∈ ns) ∨
      ∃ ns', s.loc v = .leaves ns' (.ret .close) ∧
        ∀ cv, .all cv ∈ ns' → .all cv ∈ ns ∨ ∀ u, ¬(s'.loc u).WaitsOn cv := by
  have hmove : ∀ p : Place T, upd s.loc t p v = .leaves ns (.ret .close) →
      v = t ∧ p = .leaves ns (.ret .close) ∨ s.loc v = .leaves ns (.ret .close) := by
    intro p hp
    by_cases hvt : v = t
    · subst hvt
      exact .inl ⟨rfl, by simpa using hp⟩
    · exact .inr (by rwa [upd_ne _ _ hvt] at hp)
  have hsame : s.loc v = .leaves ns (.ret .close) → (s'.q.closed = true ∧ ∀ cv, .all cv ∈ ns) ∨
      ∃ ns', s.loc v = .leaves ns' (.ret .close) ∧
        ∀ cv, .all cv ∈ ns' → .all cv ∈ ns ∨ ∀ u, ¬(s'.loc u).WaitsOn cv :=
    fun hv => .inr ⟨ns, hv, fun cv h => .inl h⟩
  cases hs with
  | @enters c q x ht hr | @resumes c _ q x ht hr =>
    obtain ⟨rfl, hp⟩ | hv := hmove _ hv
    · have hx := run_ends hb hr
      cases x with
      | wait w => cases hp
      | leave ns' k =>
        cases hp
        exact .inl (Left.close hx rfl)
    · exact hsame hv
  | @notify_one u _ ns' k w ht hu hcv =>
    have hvu : v ≠ u := by
      rintro rfl
      simp at hv
    rw [move_loc_ne _ hvu] at hv
    obtain ⟨rfl, hp⟩ | hv := hmove _ hv
    · cases hp
      exact .inr ⟨_, ht, fun cv h => .inl (by simpa using h)⟩
    · exact hsame hv
  | notify_none ht hn =>
    obtain ⟨rfl, hp⟩ | hv := hmove _ hv
    · cases hp
      exact .inr ⟨_, ht, fun cv h => .inl (by simpa using h)⟩
    · exact hsame hv
  | @notify_all cv' ns' k ht =>
    by_cases hvt : v = t
    · subst hvt
      simp only [upd_self] at hv
      cases hv
      refine .inr ⟨_, ht, fun cv h => ?_⟩
      obtain h | h := List.mem_cons.mp h
      · cases h
        refine .inr fun u hu => ?_
        by_cases huv : u = v
        · subst huv
          obtain ⟨w, hw, -⟩ := hu
          simp at hw
        · simp only [upd_ne _ _ huv] at hu
          exact not_waitsOn_notified _ hu
      · exact .inl h
    · simp only [upd_ne _ _ hvt] at hv
      refine hsame ?_
      unfold Place.notified at hv
      split at hv
      · split at hv <;> cases hv
      · exact hv
  | _ =>
    obtain ⟨-, hp⟩ | hv := hmove _ hv
    · cases hp
    · exact hsame hv

/-- A `close` that has returned did so before the step, or returns in it. -/
theorem shut_step (hs : Step N s t s') (h : s'.shut = true) :
    s.shut = true ∨ s.loc t = .leaves [] (.ret .close) := by
  cases hs with
  | @returns r ht =>
    cases r with
    | close => exact .inr ht
    | _ => exact .inl (by simpa using h)
  | _ => exact .inl h

theorem closing_step (hb : s.q.size ≤ N) (h : Closing s) (hs : Step N s t s') : Closing s' := by
  refine ⟨fun v ns hv => ?_, fun hsh => ?_⟩
  · obtain ⟨hcl, hall⟩ | ⟨ns', hv', hall⟩ := leaving_step hb hs hv
    · exact ⟨hcl, fun cv => .inl (hall cv)⟩
    · obtain ⟨hcl, hsw⟩ := h.leaving v ns' hv'
      refine ⟨closed_step hb hcl hs, fun cv => ?_⟩
      obtain hin | hsw := hsw cv
      · exact hall cv hin
      · exact .inr (swept_step hb hcl hsw hs)
  · have hcl : s.q.closed = true ∧ ∀ cv u, ¬(s.loc u).WaitsOn cv := by
      obtain hsh | ht := shut_step hs hsh
      · exact h.shut hsh
      · obtain ⟨hcl, hsw⟩ := h.leaving t [] ht
        exact ⟨hcl, fun cv => (hsw cv).resolve_left nofun⟩
    exact ⟨closed_step hb hcl.1 hs, fun cv => swept_step hb hcl.1 (hcl.2 cv) hs⟩

theorem closing_reachable [Inhabited T] (h : (machine T Tid N).Reachable s) : Closing s := by
  have hind : (machine T Tid N).Inductive fun s => s.q.size ≤ N ∧ Closing s := by
    refine ⟨?_, fun s t s' ⟨hb, hc⟩ hs => ⟨bound_step hb hs, closing_step hb hc hs⟩⟩
    rintro s rfl
    exact ⟨Nat.zero_le N, nofun, nofun⟩
  exact (hind.reachable s h).2

/-! ## No lost wakeup -/

/-- Every thread is outside all calls, or waits and is not notified. -/
def State.Still (s : State T Tid) : Prop :=
  ∀ t, (∃ r, s.loc t = .idle r) ∨ ∃ w, s.loc t = .waits w

/-- A consumer waits beside items, a producer beside room, or anybody after
`close` has returned. -/
def State.Lost (N : Nat) (s : State T Tid) : Prop :=
  (∃ t, (s.loc t).WaitsOn .not_empty ∧ 0 < s.q.size) ∨
    (∃ t, (s.loc t).WaitsOn .not_full ∧ s.q.size < N) ∨
      s.shut = true ∧ ∃ t cv, (s.loc t).WaitsOn cv

omit [DecidableEq Tid] in
theorem State.Still.stock_eq_zero (h : s.Still) (hi : Served N cv s)
    (hw : (s.loc t).WaitsOn cv) : stock N s.q cv = 0 := by
  obtain ⟨u, hu⟩ | ⟨-, hcov⟩ := hi ⟨t, hw⟩
  · obtain ⟨r, hr⟩ | ⟨w, hr⟩ := h u
    · simp [hr, Place.Sweeps] at hu
    · simp [hr, Place.Sweeps] at hu
  · refine hcov.eq_zero fun u hu => ?_
    obtain ⟨r, hr⟩ | ⟨w, hr⟩ := h u
    · simp [hr, Place.Owes] at hu
    · simp [hr, Place.Owes] at hu

/-- In every run whose batches ask for at least one item: while every thread is
outside all calls or waits and is not notified, none waits in vain. -/
theorem mutex_no_lost_wakeup [Inhabited T]
    (h : ((machine T Tid N).restrict State.Asks).Reachable s) (hq : s.Still) : ¬s.Lost N := by
  have hi := inv_reachable h
  rintro (⟨t, hw, hn⟩ | ⟨t, hw, hn⟩ | ⟨hs, t, cv, hw⟩)
  · have h0 : s.q.size = 0 := hq.stock_eq_zero (hi.served .not_empty) hw
    omega
  · have h0 : N - s.q.size = 0 := hq.stock_eq_zero (hi.served .not_full) hw
    omega
  · exact ((closing_reachable h.of_restrict).shut hs).2 cv t hw

end steps

/-- Thread 0 has called `pop_batch` on the empty queue, and waits. -/
def popping : State Nat Nat := (State.init Nat Nat).move 0 (.wants (.waiter (.pop_batch 2)))

def popped : State Nat Nat := popping.move 0 (.waits (.pop_batch 2))

theorem mutex_no_lost_wakeup_waiting :
    (popped.loc 0).WaitsOn .not_empty ∧ ¬popped.Lost 2 := by
  have h1 : Step 2 (State.init Nat Nat) 0 popping := .calls rfl (.pop_batch 2)
  have h2 : Step 2 popping 0 popped :=
    .enters (q := popping.q) (x := .wait (.pop_batch 2)) rfl rfl
  have a1 : (State.init Nat Nat).Asks 0 := by
    rintro w (hw | ⟨_, _, hw⟩)
    · cases hw
    · cases hw
  have a2 : popping.Asks 0 := by
    rintro w (hw | ⟨_, _, hw⟩)
    · cases hw
      exact Nat.two_pos
    · cases hw
  have hr : ((machine Nat Nat 2).restrict State.Asks).Reachable popped :=
    ⟨_, [0, 0], rfl, .cons ⟨a1, h1⟩ (.cons ⟨a2, h2⟩ (.nil _))⟩
  refine ⟨⟨.pop_batch 2, rfl, rfl⟩, mutex_no_lost_wakeup hr fun t => ?_⟩
  by_cases ht : t = 0
  · subst ht
    exact .inr ⟨.pop_batch 2, rfl⟩
  · refine .inl ⟨none, ?_⟩
    simp [popped, popping, State.move, State.init, upd, ht]

end Katas.Turnstile.MutexQueue
