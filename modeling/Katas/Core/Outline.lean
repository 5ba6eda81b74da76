import Katas.Core.Prog

/-!
# Proof outlines

A logic for `System`. Every thread has a role, a ghost value that only its
own steps change; an `Outline` states an invariant of the shared state and
all roles, and for each procedure what it needs of the caller's role and
what it leaves. `Outline.wp o t p Q g` says that program `p` of thread `t`,
started in role `g`, keeps the invariant at each operation whatever the
other threads do, and ends with result and role in `Q`. A step of another
thread keeps the invariant and this thread's role, so `wp` needs no side
condition about interference.

* `Outline.Atom`: the rule for one operation, in terms of `sem`.
* `wp_bind`, `wp_op`, `wp_proc`, `wp_mono`: the rules for composing programs.
* `Outline.sound`: if the entry points and the procedures meet the outline,
  then in every reachable configuration some roles satisfy the invariant and
  every thread is at a program that `wp` holds of.
-/
namespace Katas.Conc

/-- `Inv` is the invariant; `need t a s g` is what a thread of role `g` owes
when it does operation `a`; `ok` restricts the runs; `rest` are the roles
between calls. -/
structure Outline (Y : System) where
  G : Type
  Inv : Y.State → (Y.Tid → G) → Prop
  need : Y.Tid → Y.sig.Act → Y.State → G → Prop
  ok : Y.Tid → Y.sig.Act → Y.State → Prop
  rest : Y.Tid → G → Prop
  pre : (p : Y.sig.Proc) → Y.Tid → G → Prop
  post : (p : Y.sig.Proc) → Y.Tid → G → Y.sig.Ret p → G → Prop

namespace Outline
variable {Y : System} (o : Outline Y)

/-- Operation `a` by `t` in role `g`: the invariant gives what the operation
needs, and every outcome has a new role that keeps the invariant and meets
`R`. -/
def Atom (t : Y.Tid) (g : o.G) (a : Y.sig.Act) (R : Y.sig.Resp a → o.G → Prop) : Prop :=
  ∀ s γ, o.Inv s γ → γ t = g → o.need t a s g ∧
    (o.ok t a s → ∀ n s' r, Y.sem t a n s = some (s', r) →
      ∃ g', o.Inv s' (upd γ t g') ∧ R r g')

def wp (t : Y.Tid) {α : Type} : Prog Y.sig α → (α → o.G → Prop) → o.G → Prop
  | .ret a, Q, g => Q a g
  | .act a k, Q, g => o.Atom t g a fun r g' => wp t (k r) Q g'
  | .call p k, Q, g => o.pre p t g ∧ ∀ r g', o.post p t g r g' → wp t (k r) Q g'

variable {o} {t : Y.Tid} {α β : Type} {g : o.G}

theorem Atom.mono {a : Y.sig.Act} {R R' : Y.sig.Resp a → o.G → Prop} (h : o.Atom t g a R)
    (hR : ∀ r g', R r g' → R' r g') : o.Atom t g a R' := by
  intro s γ hI hg
  obtain ⟨h1, h2⟩ := h s γ hI hg
  refine ⟨h1, fun hok n s' r hs => ?_⟩
  obtain ⟨g', h3, h4⟩ := h2 hok n s' r hs
  exact ⟨g', h3, hR r g' h4⟩

theorem wp_mono {p : Prog Y.sig α} {Q Q' : α → o.G → Prop} (h : o.wp t p Q g)
    (hQ : ∀ a g', Q a g' → Q' a g') : o.wp t p Q' g := by
  induction p generalizing g with
  | ret a => exact hQ a g h
  | act a k ih => exact Atom.mono h fun r g' h' => ih r h'
  | call p k ih => exact ⟨h.1, fun r g' h' => ih r (h.2 r g' h')⟩

@[simp] theorem wp_ret (a : α) (Q : α → o.G → Prop) : o.wp t (.ret a) Q g = Q a g := rfl

theorem wp_bind {p : Prog Y.sig α} {f : α → Prog Y.sig β} {Q : β → o.G → Prop}
    (h : o.wp t p (fun a g' => o.wp t (f a) Q g') g) : o.wp t (p.bind f) Q g := by
  induction p generalizing g with
  | ret a => exact h
  | act a k ih => exact Atom.mono h fun r g' h' => ih r h'
  | call p k ih => exact ⟨h.1, fun r g' h' => ih r (h.2 r g' h')⟩

theorem wp_op {a : Y.sig.Act} {Q : Y.sig.Resp a → o.G → Prop} (h : o.Atom t g a Q) :
    o.wp t (.op a) Q g := h

theorem wp_proc {p : Y.sig.Proc} {Q : Y.sig.Ret p → o.G → Prop} (h : o.pre p t g)
    (hQ : ∀ r g', o.post p t g r g' → Q r g') : o.wp t (.proc p) Q g :=
  ⟨h, hQ⟩

/-! The same rules where a program continues. -/

theorem wp_seq {p : Prog Y.sig α} {f : α → Prog Y.sig β} {Q : β → o.G → Prop}
    (h : o.wp t p (fun a g' => o.wp t (f a) Q g') g) : o.wp t (p >>= f) Q g :=
  wp_bind h

theorem wp_op_seq {a : Y.sig.Act} {f : Y.sig.Resp a → Prog Y.sig β} {Q : β → o.G → Prop}
    {R : Y.sig.Resp a → o.G → Prop} (h : o.Atom t g a R)
    (hf : ∀ r g', R r g' → o.wp t (f r) Q g') : o.wp t (Prog.op a >>= f) Q g :=
  Atom.mono h hf

theorem wp_proc_seq {p : Y.sig.Proc} {f : Y.sig.Ret p → Prog Y.sig β} {Q : β → o.G → Prop}
    (h : o.pre p t g) (hf : ∀ r g', o.post p t g r g' → o.wp t (f r) Q g') :
    o.wp t (Prog.proc p >>= f) Q g :=
  ⟨h, hf⟩

/-- A program none of whose operations concerns the outline. -/
theorem wp_silent {q : Y.sig.Act → Prop} {c : Y.sig.Proc → Prop}
    (hq : ∀ a, q a → o.Atom t g a fun _ g' => g' = g)
    (hc : ∀ p, c p → o.pre p t g ∧ ∀ r g', o.post p t g r g' → g' = g)
    {p : Prog Y.sig α} {Q : α → o.G → Prop} (hp : p.Silent q c) (hQ : ∀ a, Q a g) :
    o.wp t p Q g := by
  induction p with
  | ret a => exact hQ a
  | act a k ih => exact Atom.mono (hq a hp.1) fun r g' he => he ▸ ih r (hp.2 r)
  | call p k ih =>
    obtain ⟨h1, h2⟩ := hc p hp.1
    exact ⟨h1, fun r g' hr => h2 r g' hr ▸ ih r (hp.2 r)⟩

variable (o)

/-- What a call leaves when it returns `r` in role `g`. -/
def Done (t : Y.Tid) (c : Y.Call) (r : Y.Result) (g : o.G) : Prop :=
  ∀ s γ, o.Inv s γ → γ t = g → ∃ g', o.Inv (Y.finish t c r s) (upd γ t g') ∧ o.rest t g'

/-- The entry points and the procedures meet the outline. -/
structure Valid : Prop where
  init : ∃ γ, o.Inv Y.init γ ∧ ∀ t, o.rest t (γ t)
  call : ∀ t c s γ, o.Inv s γ → o.rest t (γ t) → Y.enabled s t c = true →
    ∃ g', o.Inv (Y.begin t c s) (upd γ t g') ∧ o.wp t (Y.code c) (o.Done t c) g'
  body : ∀ t p g, o.pre p t g → o.wp t (Y.body p) (o.post p t g) g

/-- A thread stands where its role says. -/
def Stands (γ : Y.Tid → o.G) (t : Y.Tid) : System.Thread Y → Prop
  | .idle => o.rest t (γ t)
  | .run c p => o.wp t p (o.Done t c) (γ t)

def Holds (x : System.Config Y) : Prop :=
  ∃ γ, o.Inv x.state γ ∧ ∀ t, o.Stands γ t (x.thread t)

variable {o}

theorem Stands.of_eq {γ γ' : Y.Tid → o.G} {t : Y.Tid} {th : System.Thread Y}
    (h : o.Stands γ t th) (he : γ' t = γ t) : o.Stands γ' t th := by
  cases th <;> simpa only [Stands, he] using h

/-- After a step of `t` the other threads stand where they stood. -/
theorem stands_upd {γ : Y.Tid → o.G} {th : Y.Tid → System.Thread Y} {t : Y.Tid} {g' : o.G}
    {th' : System.Thread Y} (h : ∀ u, o.Stands γ u (th u))
    (ht : o.Stands (upd γ t g') t th') : ∀ u, o.Stands (upd γ t g') u (upd th t th' u) := by
  intro u
  by_cases hu : u = t
  · subst hu; simpa using ht
  · rw [upd_ne _ _ hu]; exact (h u).of_eq (by simp [hu])

theorem holds_step (hv : o.Valid) {x x' : System.Config Y} {l : System.Label Y}
    (hx : o.Holds x) (hok : System.Meets o.ok x l) (hs : System.step x l = some x') :
    o.Holds x' := by
  obtain ⟨γ, hI, hst⟩ := hx
  cases l with
  | invoke t c =>
    have ht := hst t
    simp only [System.step] at hs
    cases hth : x.thread t with
    | run c p => simp [hth, System.invoke] at hs
    | idle =>
      rw [hth] at ht
      simp only [hth, System.invoke] at hs
      split at hs
      · rename_i hen
        simp only [Option.some.injEq] at hs; subst hs
        obtain ⟨g', h1, h2⟩ := hv.call t c _ γ hI ht hen
        exact ⟨_, h1, stands_upd hst (by simpa [Stands] using h2)⟩
      · cases hs
  | step t n =>
    have ht := hst t
    simp only [System.step] at hs
    cases hth : x.thread t with
    | idle => simp [hth, System.stepThread] at hs
    | run c p =>
      rw [hth] at ht
      cases p with
      | ret r =>
        simp only [hth, System.stepThread, Option.some.injEq] at hs; subst hs
        obtain ⟨g', h1, h2⟩ := ht x.state γ hI rfl
        exact ⟨_, h1, stands_upd hst (by simpa [Stands] using h2)⟩
      | act a k =>
        simp only [hth, System.stepThread, Option.map_eq_some_iff] at hs
        obtain ⟨⟨s', r⟩, hsem, rfl⟩ := hs
        obtain ⟨g', h1, h2⟩ := (ht x.state γ hI rfl).2 (hok a ⟨c, k, hth⟩) n s' r hsem
        exact ⟨_, h1, stands_upd hst (by simpa [Stands] using h2)⟩
      | call p k =>
        simp only [hth, System.stepThread, Option.some.injEq] at hs; subst hs
        refine ⟨γ, hI, fun u => ?_⟩
        by_cases hu : u = t
        · subst hu
          simp only [upd_self, Stands]
          exact wp_bind (wp_mono (hv.body u p _ ht.1) fun r g' h' => ht.2 r g' h')
        · simpa [hu] using hst u

/-- **Soundness.** A valid outline holds in every configuration reached by a
run that meets `ok`. -/
theorem sound (hv : o.Valid) {x : System.Config Y} (hx : System.ReachableIf o.ok x) :
    o.Holds x := by
  have hind : (Y.lts.restrict (System.Meets o.ok)).Inductive o.Holds := by
    refine ⟨?_, fun s l s' hs hst => holds_step hv hs hst.1 hst.2⟩
    rintro s rfl
    obtain ⟨γ, h1, h2⟩ := hv.init
    exact ⟨γ, h1, fun t => h2 t⟩
  exact hind.reachable x hx

/-- What a thread about to do operation `a` owes, it has. -/
theorem Stands.need {γ : Y.Tid → o.G} {x : System.Config Y} {t : Y.Tid} {a : Y.sig.Act}
    (hI : o.Inv x.state γ) (h : o.Stands γ t (x.thread t)) (ha : System.AtOp x t a) :
    o.need t a x.state (γ t) := by
  obtain ⟨c, k, he⟩ := ha
  rw [he] at h
  exact (h x.state γ hI rfl).1

/-- What an outline knows at the operations of a run, a second one may assume. -/
theorem reachableIf_and (hv : o.Valid) {ok : Y.Tid → Y.sig.Act → Y.State → Prop}
    (hok : ∀ t a s, ok t a s → o.ok t a s) {x : System.Config Y} (hx : System.ReachableIf ok x) :
    System.ReachableIf
      (fun t a s => ok t a s ∧ ∃ γ, o.Inv s γ ∧ o.need t a s (γ t)) x := by
  obtain ⟨s₀, ls, h0, hr⟩ := hx
  refine ⟨s₀, ls, h0, ?_⟩
  have h : o.Holds s₀ := by
    subst h0
    obtain ⟨γ, h1, h2⟩ := hv.init
    exact ⟨γ, h1, fun t => h2 t⟩
  clear h0
  induction hr with
  | nil => exact .nil _
  | @cons s s' _ l _ hs _ ih =>
    have hm : System.Meets o.ok s l := by
      cases l with
      | invoke => trivial
      | step t n => exact fun a ha => hok t a _ (hs.1 a ha)
    refine .cons ⟨?_, hs.2⟩ (ih (holds_step hv h hm hs.2))
    cases l with
    | invoke => trivial
    | step t n =>
      intro a ha
      obtain ⟨γ, h1, h2⟩ := h
      exact ⟨hs.1 a ha, γ, h1, (h2 t).need h1 ha⟩

end Outline
end Katas.Conc
