import Katas.Core.LTS

/-!
# Concurrent programs over atomic operations

A program is a tree of atomic operations and calls of named procedures
(every loop is one, so a loop needs no fuel). A `System` gives the shared
state, what each operation does to it, the body of each procedure and the
entry points a thread may call. Its runs interleave the threads one
operation at a time: `sem t a n s` is operation `a` of thread `t` in state
`s`, `n` resolving what the environment decides (a timer, a spurious
failure, whom a wake reaches); `none` means the thread is blocked there.
-/
namespace Katas.Conc

structure Sig where
  Act : Type
  Resp : Act → Type
  Proc : Type
  Ret : Proc → Type

inductive Prog (S : Sig) (α : Type) : Type where
  | ret (a : α)
  | act (a : S.Act) (k : S.Resp a → Prog S α)
  | call (p : S.Proc) (k : S.Ret p → Prog S α)

namespace Prog
variable {S : Sig} {α β γ : Type}

def bind : Prog S α → (α → Prog S β) → Prog S β
  | ret a, f => f a
  | act a k, f => .act a fun r => (k r).bind f
  | call p k, f => .call p fun r => (k r).bind f

instance : Monad (Prog S) where
  pure := .ret
  bind := .bind

/-- One atomic operation. -/
def op (a : S.Act) : Prog S (S.Resp a) := .act a .ret

/-- One call. -/
def proc (p : S.Proc) : Prog S (S.Ret p) := .call p .ret

@[simp] theorem pure_eq (a : α) : (pure a : Prog S α) = ret a := rfl

@[simp] theorem bind_eq (p : Prog S α) (f : α → Prog S β) : p >>= f = p.bind f := rfl

@[simp] theorem ret_bind (a : α) (f : α → Prog S β) : (ret a : Prog S α).bind f = f a := rfl

@[simp] theorem act_bind (a : S.Act) (k : S.Resp a → Prog S α) (f : α → Prog S β) :
    (act a k).bind f = act a fun r => (k r).bind f := rfl

@[simp] theorem call_bind (p : S.Proc) (k : S.Ret p → Prog S α) (f : α → Prog S β) :
    (call p k).bind f = call p fun r => (k r).bind f := rfl

/-- Every operation of the program meets `q`, every call `c`. -/
def Silent (q : S.Act → Prop) (c : S.Proc → Prop) : Prog S α → Prop
  | .ret _ => True
  | .act a k => q a ∧ ∀ r, Silent q c (k r)
  | .call p k => c p ∧ ∀ r, Silent q c (k r)

section silent
variable {q : S.Act → Prop} {c : S.Proc → Prop}

theorem silent_ret (a : α) : Silent q c (pure a : Prog S α) := trivial

theorem silent_op {a : S.Act} (h : q a) : Silent q c (op a) := ⟨h, fun _ => trivial⟩

theorem silent_proc {p : S.Proc} (h : c p) : Silent q c (proc p) := ⟨h, fun _ => trivial⟩

theorem Silent.mono {q' : S.Act → Prop} {c' : S.Proc → Prop} {p : Prog S α} (h : Silent q c p)
    (hq : ∀ a, q a → q' a) (hc : ∀ p, c p → c' p) : Silent q' c' p := by
  induction p with
  | ret a => trivial
  | act a k ih => exact ⟨hq a h.1, fun r => ih r (h.2 r)⟩
  | call p k ih => exact ⟨hc p h.1, fun r => ih r (h.2 r)⟩

theorem Silent.seq {p : Prog S α} {f : α → Prog S β} (h : Silent q c p)
    (hf : ∀ a, Silent q c (f a)) : Silent q c (p >>= f) := by
  show Silent q c (p.bind f)
  induction p with
  | ret a => exact hf a
  | act a k ih => exact ⟨h.1, fun r => ih r (h.2 r)⟩
  | call p k ih => exact ⟨h.1, fun r => ih r (h.2 r)⟩

theorem Silent.op {a : S.Act} {f : S.Resp a → Prog S β} (h : q a) (hf : ∀ r, Silent q c (f r)) :
    Silent q c (Prog.op a >>= f) := ⟨h, hf⟩

theorem Silent.proc {p : S.Proc} {f : S.Ret p → Prog S β} (h : c p)
    (hf : ∀ r, Silent q c (f r)) : Silent q c (Prog.proc p >>= f) := ⟨h, hf⟩

end silent
end Prog

structure System where
  sig : Sig
  State : Type
  Tid : Type
  Call : Type
  Result : Type
  decTid : DecidableEq Tid
  init : State
  /-- May the client make this call now? -/
  enabled : State → Tid → Call → Bool
  /-- What the history records of a call as it begins. -/
  begin : Tid → Call → State → State
  /-- What the history records of a call as it returns. -/
  finish : Tid → Call → Result → State → State
  code : Call → Prog sig Result
  body : (p : sig.Proc) → Prog sig (sig.Ret p)
  sem : Tid → (a : sig.Act) → Nat → State → Option (State × sig.Resp a)

attribute [instance] System.decTid

/-- The thread map `f` with `x` for thread `t`. -/
def upd {ι β : Type} [DecidableEq ι] (f : ι → β) (t : ι) (x : β) : ι → β :=
  fun u => if u = t then x else f u

section upd
variable {ι β γ : Type} [DecidableEq ι]

@[simp] theorem upd_self (f : ι → β) (t : ι) (x : β) : upd f t x t = x := by simp [upd]

@[simp] theorem upd_ne (f : ι → β) {t u : ι} (x : β) (h : u ≠ t) : upd f t x u = f u := by
  simp [upd, h]

theorem upd_apply (f : ι → β) (t u : ι) (x : β) : upd f t x u = if u = t then x else f u := rfl

theorem upd_eq_self (f : ι → β) (t : ι) : upd f t (f t) = f := by
  funext u; by_cases h : u = t
  · subst h; simp
  · simp [h]

@[simp] theorem upd_upd (f : ι → β) (t : ι) (x y : β) : upd (upd f t x) t y = upd f t y := by
  funext u; by_cases h : u = t
  · subst h; simp
  · simp [h]

/-- The updated map, by what it is at `t` and elsewhere. -/
theorem upd_spec (f : ι → β) (t : ι) (x : β) : ∃ f', upd f t x = f' ∧ f' t = x ∧
    (∀ u, u = t ∨ f' u = f u) ∧ ∀ u, u = t ∨ f u = f' u := by
  refine ⟨_, rfl, upd_self f t x, fun u => ?_, fun u => ?_⟩ <;> by_cases h : u = t <;> simp [h]

/-- A component that thread `t` keeps is unchanged for every thread. -/
theorem upd_comp (p : β → γ) (f : ι → β) (t : ι) (x : β) (h : p x = p (f t)) :
    (fun u => p (upd f t x u)) = fun u => p (f u) := by
  funext u; by_cases hu : u = t
  · subst hu; simp [h]
  · simp [hu]

end upd

namespace System
variable (Y : System)

inductive Thread where
  | idle
  | run (c : Y.Call) (p : Prog Y.sig Y.Result)

structure Config where
  state : Y.State
  thread : Y.Tid → Thread Y

inductive Label where
  | invoke (t : Y.Tid) (c : Y.Call)
  | step (t : Y.Tid) (choice : Nat)

def start : Config Y := ⟨Y.init, fun _ => .idle⟩

variable {Y}

def stepThread (x : Config Y) (t : Y.Tid) (choice : Nat) : Thread Y → Option (Config Y)
  | .idle => none
  | .run c (.ret r) => some ⟨Y.finish t c r x.state, upd x.thread t .idle⟩
  | .run c (.act a k) =>
    (Y.sem t a choice x.state).map fun o => ⟨o.1, upd x.thread t (.run c (k o.2))⟩
  | .run c (.call p k) => some ⟨x.state, upd x.thread t (.run c ((Y.body p).bind k))⟩

def invoke (x : Config Y) (t : Y.Tid) (c : Y.Call) : Thread Y → Option (Config Y)
  | .idle =>
    if Y.enabled x.state t c then
      some ⟨Y.begin t c x.state, upd x.thread t (.run c (Y.code c))⟩
    else none
  | .run _ _ => none

def step (x : Config Y) : Label Y → Option (Config Y)
  | .invoke t c => invoke x t c (x.thread t)
  | .step t n => stepThread x t n (x.thread t)

variable (Y) in
def lts : LTS (Config Y) (Label Y) where
  init x := x = Y.start
  step x l x' := step x l = some x'

variable (Y) in
abbrev Reachable (x : Config Y) : Prop := Y.lts.Reachable x

/-- Thread `t` is about to do operation `a`. -/
def AtOp (x : Config Y) (t : Y.Tid) (a : Y.sig.Act) : Prop :=
  ∃ c k, x.thread t = .run c (.act a k)

/-- The operation a thread is about to do. -/
def next (x : Config Y) (t : Y.Tid) : Option Y.sig.Act :=
  match x.thread t with
  | .run _ (.act a _) => some a
  | _ => none

theorem atOp_iff {x : Config Y} {t : Y.Tid} {a : Y.sig.Act} : AtOp x t a ↔ next x t = some a := by
  unfold AtOp next
  constructor
  · rintro ⟨c, k, h⟩
    rw [h]
  · intro h
    split at h
    · rename_i c b k hth
      cases h
      exact ⟨c, k, hth⟩
    · cases h

/-- A step that does an operation does it to the shared state; any other begins
a call, ends one, or leaves the state. -/
theorem step_acts {x x' : Config Y} {l : Label Y} (h : step x l = some x') :
    (∃ t a n r, l = .step t n ∧ AtOp x t a ∧ Y.sem t a n x.state = some (x'.state, r)) ∨
      (∀ t n, l = .step t n → next x t = none) ∧ (x'.state = x.state ∨
        (∃ t c, x'.state = Y.begin t c x.state) ∨ ∃ t c r, x'.state = Y.finish t c r x.state) := by
  cases l with
  | invoke t c =>
    refine .inr ⟨nofun, ?_⟩
    simp only [step] at h
    cases hth : x.thread t with
    | run c' p => rw [hth] at h; cases h
    | idle =>
      simp only [hth, invoke] at h
      split at h
      · cases h; exact .inr (.inl ⟨t, c, rfl⟩)
      · cases h
  | step t n =>
    simp only [step] at h
    cases hth : x.thread t with
    | idle => rw [hth] at h; cases h
    | run c p =>
      rw [hth] at h
      cases p with
      | ret r =>
        cases h
        refine .inr ⟨?_, .inr (.inr ⟨t, c, r, rfl⟩)⟩
        rintro _ _ ⟨⟩
        simp only [next, hth]
      | call p k =>
        cases h
        refine .inr ⟨?_, .inl rfl⟩
        rintro _ _ ⟨⟩
        simp only [next, hth]
      | act a k =>
        simp only [stepThread, Option.map_eq_some_iff] at h
        obtain ⟨⟨s', r⟩, hs, rfl⟩ := h
        exact .inl ⟨t, a, n, r, rfl, ⟨c, k, hth⟩, hs⟩

/-- What a step does to the shared state. -/
theorem step_cases {x x' : Config Y} {l : Label Y} (h : step x l = some x') :
    x'.state = x.state ∨ (∃ t c, x'.state = Y.begin t c x.state) ∨
      (∃ t c r, x'.state = Y.finish t c r x.state) ∨
      ∃ t a n r, Y.sem t a n x.state = some (x'.state, r) := by
  obtain ⟨t, a, n, r, -, -, hs⟩ | ⟨-, hs | hs | hs⟩ := step_acts h
  · exact .inr (.inr (.inr ⟨t, a, n, r, hs⟩))
  · exact .inl hs
  · exact .inr (.inl hs)
  · exact .inr (.inr (.inl hs))

/-- Every operation of the run is done in a state that meets `ok`. -/
def Meets (ok : Y.Tid → Y.sig.Act → Y.State → Prop) (x : Config Y) : Label Y → Prop
  | .invoke _ _ => True
  | .step t _ => ∀ a, AtOp x t a → ok t a x.state

/-- Reachable by a run all of whose operations meet `ok`. -/
def ReachableIf (ok : Y.Tid → Y.sig.Act → Y.State → Prop) (x : Config Y) : Prop :=
  (Y.lts.restrict (Meets ok)).Reachable x

theorem ReachableIf.reachable {ok : Y.Tid → Y.sig.Act → Y.State → Prop} {x : Config Y}
    (h : ReachableIf ok x) : Y.Reachable x :=
  LTS.Reachable.of_restrict h

/-- Every step meets what is no condition. -/
theorem meets_true (x : Config Y) (l : Label Y) : Meets (fun _ _ _ => True) x l :=
  match l with
  | .invoke _ _ => trivial
  | .step _ _ => fun _ _ => trivial

theorem run_meets {x y : Config Y} {ls : List (Label Y)} (h : Y.lts.Run x ls y) :
    (Y.lts.restrict (Meets fun _ _ _ => True)).Run x ls y := by
  induction h with
  | nil => exact .nil _
  | cons hs _ ih => exact .cons ⟨meets_true _ _, hs⟩ ih

theorem Reachable.reachableIf {x : Config Y} (h : Y.Reachable x) :
    ReachableIf (fun _ _ _ => True) x := by
  obtain ⟨s₀, ls, h0, hr⟩ := h
  exact ⟨s₀, ls, h0, run_meets hr⟩

/-! ## Infinite runs -/

/-- An infinite run all of whose operations meet `ok`. At `none` it rests. -/
structure Execution (ok : Y.Tid → Y.sig.Act → Y.State → Prop) (σ : Nat → Config Y)
    (ls : Nat → Option (Label Y)) : Prop where
  start : σ 0 = Y.start
  rest : ∀ n, ls n = none → σ (n + 1) = σ n
  step : ∀ n l, ls n = some l → Meets ok (σ n) l ∧ step (σ n) l = some (σ (n + 1))

theorem Execution.reachable {ok : Y.Tid → Y.sig.Act → Y.State → Prop} {σ : Nat → Config Y}
    {ls : Nat → Option (Label Y)} (h : Execution ok σ ls) (n : Nat) : ReachableIf ok (σ n) := by
  induction n with
  | zero => exact ⟨_, [], h.start, .nil _⟩
  | succ n ih =>
    cases hl : ls n with
    | none => rw [h.rest n hl]; exact ih
    | some l => exact ih.step (h.step n l hl)

/-- The `n`-th step is thread `t` doing `a`. -/
def Does (σ : Nat → Config Y) (ls : Nat → Option (Label Y)) (n : Nat) (t : Y.Tid)
    (a : Y.sig.Act) : Prop :=
  AtOp (σ n) t a ∧ ∃ k, ls n = some (.step t k)

/-- A bound that steps keep and again and again lower, unless `P` comes, ends
in `P`. -/
theorem eventually_of_bound {P : Nat → Prop} {W : Nat → Nat → Prop} {n b : Nat} (h : W n b)
    (hle : ∀ m b, n ≤ m → W m b → P (m + 1) ∨ W (m + 1) b)
    (hlt : ∀ m, n ≤ m → ∃ k, m ≤ k ∧ ∀ b, W k b → P (k + 1) ∨ ∃ b', b' < b ∧ W (k + 1) b') :
    ∃ m, n ≤ m ∧ P m := by
  induction b using Nat.strongRecOn generalizing n with
  | ind b ih =>
    obtain ⟨k, hk, hdown⟩ := hlt n (Nat.le_refl n)
    -- the bound is kept up to `k`
    have hkeep : ∀ d, (∃ m, n ≤ m ∧ P m) ∨ W (n + d) b := by
      intro d
      induction d with
      | zero => exact .inr h
      | succ d ihd =>
        rcases ihd with hp | hw
        · exact .inl hp
        · rcases hle (n + d) b (by omega) hw with hp | hw
          · exact .inl ⟨n + d + 1, by omega, hp⟩
          · exact .inr hw
    rcases hkeep (k - n) with hp | hw
    · exact hp
    · rw [Nat.add_sub_cancel' hk] at hw
      rcases hdown b hw with hp | ⟨b', hb, hw'⟩
      · exact ⟨k + 1, by omega, hp⟩
      · obtain ⟨m, hm, hp⟩ := ih b' hb hw' (fun m b hm => hle m b (by omega))
          fun m hm => hlt m (by omega)
        exact ⟨m, by omega, hp⟩

/-! ## Executing a schedule -/

/- The thread ids of the schedules: one instance for all modules. -/

instance (priority := 2000) neZero_two : @NeZero Nat Zero.ofOfNat0 2 := Nat.instNeZeroSucc

instance (priority := 2000) neZero_three : @NeZero Nat Zero.ofOfNat0 3 := Nat.instNeZeroSucc

instance (priority := 2000) neZero_four : @NeZero Nat Zero.ofOfNat0 4 := Nat.instNeZeroSucc

instance (priority := 2000) neZero_five : @NeZero Nat Zero.ofOfNat0 5 := Nat.instNeZeroSucc

/-- Runs a schedule as long as its steps pass the test `good`. -/
def exec (good : Config Y → Label Y → Bool) (x : Config Y) : List (Label Y) → Option (Config Y)
  | [] => some x
  | l :: ls => if good x l then (step x l).bind fun x' => exec good x' ls else none

theorem run_of_exec {good : Config Y → Label Y → Bool}
    {ok : Y.Tid → Y.sig.Act → Y.State → Prop} (hg : ∀ x l, good x l = true → Meets ok x l) :
    ∀ {x x' : Config Y} {ls : List (Label Y)}, exec good x ls = some x' →
      (Y.lts.restrict (Meets ok)).Run x ls x'
  | x, x', [], h => by
    simp only [exec, Option.some.injEq] at h; subst h; exact .nil _
  | x, x', l :: ls, h => by
    simp only [exec] at h
    split at h
    · rename_i hl
      obtain ⟨x₁, h1, h2⟩ := Option.bind_eq_some_iff.mp h
      exact .cons ⟨hg x l hl, h1⟩ (run_of_exec hg h2)
    · cases h

theorem exec_append {good : Config Y → Label Y → Bool} {x : Config Y} (ls ls' : List (Label Y)) :
    exec good x (ls ++ ls') = (exec good x ls).bind fun x' => exec good x' ls' := by
  induction ls generalizing x with
  | nil => rfl
  | cons l ls ih =>
    simp only [List.cons_append, exec]
    split
    · cases step x l with
      | none => rfl
      | some x' => exact ih
    · rfl

/-- The test whether a step meets `ok`. -/
def meets (ok : Y.Tid → Y.sig.Act → Y.State → Prop) [∀ t a s, Decidable (ok t a s)]
    (x : Config Y) : Label Y → Bool
  | .invoke _ _ => true
  | .step t _ => (next x t).all fun a => decide (ok t a x.state)

theorem of_meets {ok : Y.Tid → Y.sig.Act → Y.State → Prop} [∀ t a s, Decidable (ok t a s)]
    (x : Config Y) (l : Label Y) (h : meets ok x l = true) : Meets ok x l := by
  cases l with
  | invoke => trivial
  | step t n =>
    intro a ha
    have h : (next x t).all (fun a => decide (ok t a x.state)) = true := h
    rw [atOp_iff.mp ha] at h
    exact of_decide_eq_true h

/-- A schedule is the beginning of an infinite run that rests after it. -/
theorem execution_of_exec {good : Config Y → Label Y → Bool}
    {ok : Y.Tid → Y.sig.Act → Y.State → Prop} (hg : ∀ x l, good x l = true → Meets ok x l)
    {ls : List (Label Y)} {x : Config Y} (h : exec good Y.start ls = some x) :
    ∃ σ, Execution ok σ (fun n => ls[n]?) ∧ ∀ n, exec good Y.start (ls.take n) = some (σ n) := by
  have hsome : ∀ n, ∃ y, exec good Y.start (ls.take n) = some y := by
    intro n
    rw [← List.take_append_drop n ls, exec_append] at h
    obtain ⟨y, hy, -⟩ := Option.bind_eq_some_iff.mp h
    exact ⟨y, hy⟩
  let σ : Nat → Config Y := fun n => (hsome n).choose
  have hσ : ∀ n, exec good Y.start (ls.take n) = some (σ n) := fun n => (hsome n).choose_spec
  refine ⟨σ, ⟨(Option.some.inj (hσ 0)).symm, fun n hn => ?_, fun n l hl => ?_⟩, hσ⟩
  · have hn : ls.length ≤ n := List.getElem?_eq_none_iff.mp hn
    refine Option.some.inj ((hσ (n + 1)).symm.trans (.trans ?_ (hσ n)))
    rw [List.take_of_length_le hn, List.take_of_length_le (by omega)]
  · have hnext := hσ (n + 1)
    rw [List.take_add_one, hl, exec_append, hσ n] at hnext
    simp only [Option.toList_some, Option.bind_some, exec] at hnext
    split at hnext
    · rename_i hgood
      obtain ⟨y, hy, he⟩ := Option.bind_eq_some_iff.mp hnext
      exact ⟨hg _ _ hgood, hy.trans he⟩
    · cases hnext

/-- A schedule whose steps meet `ok` and whose last configuration passes the
test `p`. -/
theorem reachableIf_of_test {good : Config Y → Label Y → Bool}
    {ok : Y.Tid → Y.sig.Act → Y.State → Prop} (hg : ∀ x l, good x l = true → Meets ok x l)
    (ls : List (Label Y)) (p : Config Y → Bool) (h : (exec good Y.start ls).any p = true) :
    ∃ x, ReachableIf ok x ∧ p x = true := by
  cases hx : exec good Y.start ls with
  | none => rw [hx] at h; cases h
  | some x =>
    rw [hx] at h
    exact ⟨x, ⟨_, ls, rfl, run_of_exec hg hx⟩, h⟩

theorem reachable_of_test (ls : List (Label Y)) (p : Config Y → Bool)
    (h : (exec (fun _ _ => true) Y.start ls).any p = true) : ∃ x, Y.Reachable x ∧ p x = true := by
  obtain ⟨x, hx, hp⟩ := reachableIf_of_test (fun x l _ => meets_true x l) ls p h
  exact ⟨x, hx.reachable, hp⟩

/-- A schedule, and one that goes on from where it leads. -/
theorem exec_of_test {good : Config Y → Label Y → Bool} {ls ls' : List (Label Y)}
    {p : Config Y → Config Y → Bool}
    (h : ((exec good Y.start ls).any fun x => (exec good x ls').any (p x)) = true) :
    ∃ x y, exec good Y.start ls = some x ∧ exec good x ls' = some y ∧ p x y = true := by
  cases hx : exec good Y.start ls with
  | none => rw [hx] at h; cases h
  | some x =>
    rw [hx, Option.any_some] at h
    cases hy : exec good x ls' with
    | none => rw [hy] at h; cases h
    | some y =>
      rw [hy] at h
      exact ⟨x, y, rfl, hy, h⟩

theorem run_of_test (ls ls' : List (Label Y)) (p : Config Y → Config Y → Bool)
    (h : ((exec (fun _ _ => true) Y.start ls).any fun x =>
      (exec (fun _ _ => true) x ls').any (p x)) = true) :
    ∃ x y, Y.Reachable x ∧ Y.lts.Run x ls' y ∧ p x y = true := by
  obtain ⟨x, y, hx, hy, hp⟩ := exec_of_test h
  have hrun : ∀ {x y : Config Y} {ls : List (Label Y)}, exec (fun _ _ => true) x ls = some y →
      Y.lts.Run x ls y := fun h => (run_of_exec (fun x l _ => meets_true x l) h).of_restrict
  exact ⟨x, y, ⟨_, ls, rfl, hrun hx⟩, hrun hy, hp⟩

end System
end Katas.Conc
