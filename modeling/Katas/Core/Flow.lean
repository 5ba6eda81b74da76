import Katas.Core.Prog
import Mathlib.Tactic.Choose

/-!
# Control flow, once for many invariants

A `Flow` names where a thread stands in its call (`G`), and which operation
leads from where to where (`move`). Its machine runs the operations of a
`System` under that control alone, without programs. `Flow.Follows` is the
one pass over the programs: if they keep to the flow, every step of a
configuration is a step of the machine (`Follows.next`), so every reachable
configuration is, with some places of its threads, a state of the machine.
An invariant of the machine (`Flow.Keeps`) is then proved by cases on the
moves.
-/
namespace Katas.Conc

/-- `start t c`: where `t` stands as it begins `c`; `ends`: where a call may
return. -/
structure Flow (Y : System) where
  G : Type
  idle : G
  start : Y.Tid → Y.Call → G
  move : Y.Tid → G → (a : Y.sig.Act) → Y.sig.Resp a → G → Prop
  ends : Y.Tid → Y.Call → Y.Result → G → Prop
  pre : Y.sig.Proc → Y.Tid → G → Prop
  post : (p : Y.sig.Proc) → Y.Tid → G → Y.sig.Ret p → G → Prop

namespace Flow
variable {Y : System} (F : Flow Y) (ok : Y.Tid → Y.sig.Act → Y.State → Prop)

abbrev Places := Y.Tid → F.G

/-! ## The machine -/

/-- One step of the machine, and the operation it does. -/
inductive Step (s : Y.State) (γ : F.Places) :
    Option (Y.Tid × Y.sig.Act) → Y.State → F.Places → Prop
  | rest : Step s γ none s γ
  | begin (t : Y.Tid) (c : Y.Call) : γ t = F.idle → Y.enabled s t c = true →
      Step s γ none (Y.begin t c s) (upd γ t (F.start t c))
  | move (t : Y.Tid) (a : Y.sig.Act) (n : Nat) {s' : Y.State} {r : Y.sig.Resp a} {g : F.G} :
      ok t a s → Y.sem t a n s = some (s', r) → F.move t (γ t) a r g →
      Step s γ (some (t, a)) s' (upd γ t g)
  | finish (t : Y.Tid) (c : Y.Call) (r : Y.Result) : F.ends t c r (γ t) →
      Step s γ none (Y.finish t c r s) (upd γ t F.idle)

/-- Reached by the machine. -/
inductive Reach : Y.State → F.Places → Prop
  | init : Reach Y.init fun _ => F.idle
  | step {s s' : Y.State} {γ γ' : F.Places} {o : Option (Y.Tid × Y.sig.Act)} :
      Reach s γ → F.Step ok s γ o s' γ' → Reach s' γ'

/-- An invariant of the machine; each step may use what is known of the
states reached. -/
structure Keeps (J : Y.State → F.Places → Prop) : Prop where
  init : J Y.init fun _ => F.idle
  begin : ∀ {s γ}, F.Reach ok s γ → J s γ → ∀ t c, γ t = F.idle → Y.enabled s t c = true →
    J (Y.begin t c s) (upd γ t (F.start t c))
  move : ∀ {s γ}, F.Reach ok s γ → J s γ → ∀ t a n {s' r g}, ok t a s →
    Y.sem t a n s = some (s', r) → F.move t (γ t) a r g → J s' (upd γ t g)
  finish : ∀ {s γ}, F.Reach ok s γ → J s γ → ∀ t c r, F.ends t c r (γ t) →
    J (Y.finish t c r s) (upd γ t F.idle)

variable {ok} in
variable {F} in
theorem Keeps.reach {J : Y.State → F.Places → Prop} (h : F.Keeps ok J) {s : Y.State}
    {γ : F.Places} (hr : F.Reach ok s γ) : J s γ := by
  induction hr with
  | init => exact h.init
  | step hr hs ih =>
    cases hs with
    | rest => exact ih
    | begin t c hi he => exact h.begin hr ih t c hi he
    | move t a n hok hs hm => exact h.move hr ih t a n hok hs hm
    | finish t c r he => exact h.finish hr ih t c r he

/-! ## Programs that keep to the flow -/

/-- From `g` the program keeps to the flow, and ends with `Q`. -/
def wp (t : Y.Tid) {α : Type} : Prog Y.sig α → (α → F.G → Prop) → F.G → Prop
  | .ret a, Q, g => Q a g
  | .act a k, Q, g => ∀ r, ∃ g', F.move t g a r g' ∧ wp t (k r) Q g'
  | .call p k, Q, g => F.pre p t g ∧ ∀ r g', F.post p t g r g' → wp t (k r) Q g'

variable {F} {t : Y.Tid} {g : F.G} {α β : Type}

theorem wp_mono {p : Prog Y.sig α} {Q Q' : α → F.G → Prop} (h : F.wp t p Q g)
    (hQ : ∀ a g', Q a g' → Q' a g') : F.wp t p Q' g := by
  induction p generalizing g with
  | ret a => exact hQ a g h
  | act a k ih =>
    intro r
    obtain ⟨g', hm, h'⟩ := h r
    exact ⟨g', hm, ih r h'⟩
  | call p k ih => exact ⟨h.1, fun r g' h' => ih r (h.2 r g' h')⟩

theorem wp_bind {p : Prog Y.sig α} {f : α → Prog Y.sig β} {Q : β → F.G → Prop}
    (h : F.wp t p (fun a g' => F.wp t (f a) Q g') g) : F.wp t (p.bind f) Q g := by
  induction p generalizing g with
  | ret a => exact h
  | act a k ih =>
    intro r
    obtain ⟨g', hm, h'⟩ := h r
    exact ⟨g', hm, ih r h'⟩
  | call p k ih => exact ⟨h.1, fun r g' h' => ih r (h.2 r g' h')⟩

theorem wp_seq {p : Prog Y.sig α} {f : α → Prog Y.sig β} {Q : β → F.G → Prop}
    (h : F.wp t p (fun a g' => F.wp t (f a) Q g') g) : F.wp t (p >>= f) Q g :=
  wp_bind h

theorem wp_move {a : Y.sig.Act} {Q : Y.sig.Resp a → F.G → Prop}
    (h : ∀ r, ∃ g', F.move t g a r g' ∧ Q r g') : F.wp t (.op a) Q g :=
  h

theorem wp_move_seq {a : Y.sig.Act} {f : Y.sig.Resp a → Prog Y.sig β} {Q : β → F.G → Prop}
    (h : ∀ r, ∃ g', F.move t g a r g' ∧ F.wp t (f r) Q g') : F.wp t (Prog.op a >>= f) Q g :=
  h

theorem wp_proc {p : Y.sig.Proc} {Q : Y.sig.Ret p → F.G → Prop} (h : F.pre p t g)
    (hQ : ∀ r g', F.post p t g r g' → Q r g') : F.wp t (.proc p) Q g :=
  ⟨h, hQ⟩

theorem wp_proc_seq {p : Y.sig.Proc} {f : Y.sig.Ret p → Prog Y.sig β} {Q : β → F.G → Prop}
    (h : F.pre p t g) (hf : ∀ r g', F.post p t g r g' → F.wp t (f r) Q g') :
    F.wp t (Prog.proc p >>= f) Q g :=
  ⟨h, hf⟩

variable (F) in
/-- The entry points and the procedures keep to the flow. -/
structure Follows : Prop where
  code : ∀ t c, F.wp t (Y.code c) (fun r g => F.ends t c r g) (F.start t c)
  body : ∀ t p g, F.pre p t g → F.wp t (Y.body p) (F.post p t g) g

/-! ## Every step is the machine's -/

variable (F) in
def Stands (t : Y.Tid) (g : F.G) : System.Thread Y → Prop
  | .idle => g = F.idle
  | .run c p => F.wp t p (fun r g => F.ends t c r g) g

variable {ok : Y.Tid → Y.sig.Act → Y.State → Prop} {γ : F.Places}
  {x x' : System.Config Y} {l : System.Label Y}

theorem stands_upd {th : Y.Tid → System.Thread Y} {th' : System.Thread Y}
    (h : ∀ u, F.Stands u (γ u) (th u)) (ht : F.Stands t g th') :
    ∀ u, F.Stands u (upd γ t g u) (upd th t th' u) := by
  intro u
  by_cases hu : u = t
  · subst hu; simpa using ht
  · simpa [hu] using h u

variable (F ok) in
/-- One step of a configuration, and what the machine does with it. -/
inductive Advance (x : System.Config Y) (γ : F.Places) :
    System.Label Y → System.Config Y → F.Places → Prop
  | begin {t : Y.Tid} {c : Y.Call} : x.thread t = .idle → γ t = F.idle →
      Y.enabled x.state t c = true →
      Advance x γ (.invoke t c) ⟨Y.begin t c x.state, upd x.thread t (.run c (Y.code c))⟩
        (upd γ t (F.start t c))
  | rest {t : Y.Tid} {n : Nat} {c : Y.Call} {p : Y.sig.Proc} {k : Y.sig.Ret p → Prog Y.sig Y.Result} :
      x.thread t = .run c (.call p k) →
      Advance x γ (.step t n) ⟨x.state, upd x.thread t (.run c ((Y.body p).bind k))⟩ γ
  | move {t : Y.Tid} {n : Nat} {c : Y.Call} {a : Y.sig.Act}
      {k : Y.sig.Resp a → Prog Y.sig Y.Result} {s' : Y.State} {r : Y.sig.Resp a} {g : F.G} :
      x.thread t = .run c (.act a k) → ok t a x.state → Y.sem t a n x.state = some (s', r) →
      F.move t (γ t) a r g →
      Advance x γ (.step t n) ⟨s', upd x.thread t (.run c (k r))⟩ (upd γ t g)
  | finish {t : Y.Tid} {n : Nat} {c : Y.Call} {r : Y.Result} : x.thread t = .run c (.ret r) →
      F.ends t c r (γ t) →
      Advance x γ (.step t n) ⟨Y.finish t c r x.state, upd x.thread t .idle⟩ (upd γ t F.idle)

/-- Every step advances the machine, and leaves the threads where their
programs say. -/
theorem Follows.advance (h : F.Follows) (hst : ∀ u, F.Stands u (γ u) (x.thread u))
    (hok : System.Meets ok x l) (hs : System.step x l = some x') :
    ∃ γ', F.Advance ok x γ l x' γ' ∧ ∀ u, F.Stands u (γ' u) (x'.thread u) := by
  cases l with
  | invoke t c =>
    have ht := hst t
    simp only [System.step] at hs
    cases hth : x.thread t with
    | run c p => rw [hth] at hs; cases hs
    | idle =>
      rw [hth] at ht
      simp only [hth, System.invoke] at hs
      split at hs
      · rename_i hen
        cases hs
        exact ⟨_, .begin hth ht hen, stands_upd hst (h.code t c)⟩
      · cases hs
  | step t n =>
    have ht := hst t
    simp only [System.step] at hs
    cases hth : x.thread t with
    | idle => rw [hth] at hs; cases hs
    | run c p =>
      rw [hth] at ht
      cases p with
      | ret r =>
        rw [hth] at hs
        cases hs
        exact ⟨_, .finish hth ht, stands_upd hst rfl⟩
      | act a k =>
        simp only [hth, System.stepThread, Option.map_eq_some_iff] at hs
        obtain ⟨⟨s', r⟩, hsem, rfl⟩ := hs
        obtain ⟨g', hm, hg⟩ := ht r
        exact ⟨_, .move hth (hok a ⟨c, k, hth⟩) hsem hm, stands_upd hst hg⟩
      | call p k =>
        rw [hth] at hs
        cases hs
        refine ⟨γ, .rest hth, fun u => ?_⟩
        by_cases hu : u = t
        · subst hu
          simp only [upd_self]
          exact wp_bind (wp_mono (h.body u p _ ht.1) fun r g' h' => ht.2 r g' h')
        · simpa [hu] using hst u

theorem Follows.next (h : F.Follows) (hst : ∀ u, F.Stands u (γ u) (x.thread u))
    (hok : System.Meets ok x l) (hs : System.step x l = some x') :
    ∃ γ' o, F.Step ok x.state γ o x'.state γ' ∧ (∀ u, F.Stands u (γ' u) (x'.thread u)) ∧
      ∀ t n a, l = .step t n → System.AtOp x t a → o = some (t, a) := by
  obtain ⟨γ', ha, hst'⟩ := h.advance hst hok hs
  cases ha with
  | @begin t c hth hi he => exact ⟨_, _, .begin t c hi he, hst', nofun⟩
  | @rest t n c p k hth =>
    refine ⟨_, _, .rest, hst', ?_⟩
    rintro _ _ a ⟨⟩ ⟨c', k', he⟩
    rw [hth] at he; cases he
  | @move t n c a k s' r g hth hmeets hsem hm =>
    refine ⟨_, _, .move t a n hmeets hsem hm, hst', ?_⟩
    rintro _ _ b ⟨⟩ ⟨c', k', he⟩
    rw [hth] at he; cases he; rfl
  | @finish t n c r hth he =>
    refine ⟨_, _, .finish t c r he, hst', ?_⟩
    rintro _ _ a ⟨⟩ ⟨c', k, he⟩
    rw [hth] at he; cases he

/-- Every reachable configuration is a state of the machine, and its threads
stand where their programs say. -/
theorem Follows.stands (h : F.Follows) (hx : System.ReachableIf ok x) :
    ∃ γ, F.Reach ok x.state γ ∧ ∀ t, F.Stands t (γ t) (x.thread t) := by
  have hind : (Y.lts.restrict (System.Meets ok)).Inductive fun x =>
      ∃ γ, F.Reach ok x.state γ ∧ ∀ t, F.Stands t (γ t) (x.thread t) := by
    refine ⟨?_, fun s l s' ⟨γ, hr, hst⟩ hs => ?_⟩
    · rintro s rfl
      exact ⟨_, .init, fun _ => rfl⟩
    · obtain ⟨γ', o, hstep, hst', -⟩ := h.next hst hs.1 hs.2
      exact ⟨γ', hr.step hstep, hst'⟩
  exact hind.reachable x hx

theorem Stands.move {a : Y.sig.Act} (h : F.Stands t g (x.thread t)) (ha : System.AtOp x t a)
    (r : Y.sig.Resp a) : ∃ g', F.move t g a r g' := by
  obtain ⟨c, k, he⟩ := ha
  rw [he] at h
  obtain ⟨g', hm, -⟩ := h r
  exact ⟨g', hm⟩

/-- A thread is before an operation, where no call ends and no procedure
begins. -/
theorem Stands.act (h : F.Stands t g (x.thread t)) (hidle : g ≠ F.idle)
    (hends : ∀ c r, ¬ F.ends t c r g) (hpre : ∀ p, ¬ F.pre p t g) :
    ∃ a, System.AtOp x t a ∧ ∀ r, ∃ g', F.move t g a r g' := by
  cases hth : x.thread t with
  | idle => rw [hth] at h; exact absurd h hidle
  | run c p =>
    rw [hth] at h
    cases p with
    | ret r => exact absurd h (hends c r)
    | call p k => exact absurd h.1 (hpre p)
    | act a k =>
      refine ⟨a, ⟨c, k, hth⟩, fun r => ?_⟩
      obtain ⟨g', hm, -⟩ := h r
      exact ⟨g', hm⟩

/-- Every reachable configuration is a state of the machine, and its threads
stand before the operations they are about to do. -/
theorem Follows.places (h : F.Follows) (hx : System.ReachableIf ok x) :
    ∃ γ, F.Reach ok x.state γ ∧ (∀ t, x.thread t = .idle → γ t = F.idle) ∧
      ∀ t a, System.AtOp x t a → ∀ r, ∃ g, F.move t (γ t) a r g := by
  obtain ⟨γ, hr, hst⟩ := h.stands hx
  refine ⟨γ, hr, fun t ht => ?_, fun t a ha => (hst t).move ha⟩
  have := hst t
  rwa [ht] at this

/-! ## Infinite runs -/

/-- Along an infinite run the machine takes its steps. -/
theorem Follows.execution (h : F.Follows) {σ : Nat → System.Config Y}
    {ls : Nat → Option (System.Label Y)} (hσ : System.Execution ok σ ls) :
    ∃ Γ : Nat → F.Places, (∀ n, F.Reach ok (σ n).state (Γ n)) ∧
      ∀ n, ∃ o, F.Step ok (σ n).state (Γ n) o (σ (n + 1)).state (Γ (n + 1)) ∧
        ∀ t a, System.Does σ ls n t a → o = some (t, a) := by
  have hnext : ∀ n (γ : F.Places), (∀ t, F.Stands t (γ t) ((σ n).thread t)) →
      ∃ γ' : F.Places, (∀ t, F.Stands t (γ' t) ((σ (n + 1)).thread t)) ∧
        ∃ o, F.Step ok (σ n).state γ o (σ (n + 1)).state γ' ∧
          ∀ t a, System.Does σ ls n t a → o = some (t, a) := by
    intro n γ hst
    cases hl : ls n with
    | none =>
      refine ⟨γ, ?_, none, ?_, ?_⟩
      · rw [hσ.rest n hl]; exact hst
      · rw [hσ.rest n hl]; exact .rest
      · rintro t a ⟨-, k, hk⟩
        rw [hl] at hk; cases hk
    | some l =>
      obtain ⟨hok, hs⟩ := hσ.step n l hl
      obtain ⟨γ', o, hstep, hst', ho⟩ := h.next hst hok hs
      refine ⟨γ', hst', o, hstep, ?_⟩
      rintro t a ⟨ha, k, hk⟩
      rw [hl] at hk; cases hk
      exact ho t k a rfl ha
  have h0 : ∀ t, F.Stands t F.idle ((σ 0).thread t) := by
    rw [hσ.start]; exact fun _ => rfl
  -- the places, one step after the other
  choose! next hst' hstep using hnext
  let Γ : Nat → F.Places := fun n => Nat.rec (fun _ => F.idle) (fun n γ => next n γ) n
  have hΓ : ∀ n t, F.Stands t (Γ n t) ((σ n).thread t) := by
    intro n
    induction n with
    | zero => exact h0
    | succ n ih => exact hst' n (Γ n) ih
  have hs : ∀ n, ∃ o, F.Step ok (σ n).state (Γ n) o (σ (n + 1)).state (Γ (n + 1)) ∧
      ∀ t a, System.Does σ ls n t a → o = some (t, a) := fun n => hstep n (Γ n) (hΓ n)
  refine ⟨Γ, fun n => ?_, hs⟩
  induction n with
  | zero => rw [hσ.start]; exact .init
  | succ n ih =>
    obtain ⟨o, ho, -⟩ := hs n
    exact ih.step ho

end Flow
end Katas.Conc
