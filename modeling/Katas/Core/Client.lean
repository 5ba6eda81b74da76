import Katas.Core.Flow

/-!
# Clients and products

A client of a `System` makes some of its calls and keeps notes, which no
program reads. The programs are those of the system, so a flow of the system is
one of the system with the client (`Follows.client`), and every run of the one
is a run of the other. The product of two flows is followed by what follows
both (`Follows.prod`), so a fine flow for a few programs can stand beside a
coarse one for all, and the invariants of either hold of the product.
-/
namespace Katas.Conc
open Flow

/-- The calls a client makes, and what it notes: `begins t c s` as `t` begins
`c` in `s`, `notes t a s s'` as `t` does `a` in `s` and leaves `s'`. -/
structure Client (Y : System) where
  H : Type
  start : H
  makes : Y.Call → Bool
  begins : Y.Tid → Y.Call → Y.State → H → H
  notes : Y.Tid → Y.sig.Act → Y.State → Y.State → H → H

/-- A client that makes all calls, and notes operations only. -/
@[reducible] def Client.watch (Y : System) {H : Type} (h₀ : H)
    (notes : Y.Tid → Y.sig.Act → Y.State → Y.State → H → H) : Client Y where
  H := H
  start := h₀
  makes _ := true
  begins _ _ _ h := h
  notes := notes

@[reducible] def System.client (Y : System) (C : Client Y) : System where
  sig := Y.sig
  State := Y.State × C.H
  Tid := Y.Tid
  Call := Y.Call
  Result := Y.Result
  decTid := Y.decTid
  init := (Y.init, C.start)
  enabled s t c := C.makes c && Y.enabled s.1 t c
  begin t c s := (Y.begin t c s.1, C.begins t c s.1 s.2)
  finish t c r s := (Y.finish t c r s.1, s.2)
  code := Y.code
  body := Y.body
  sem t a n s := (Y.sem t a n s.1).map fun o => ((o.1, C.notes t a s.1 o.1 s.2), o.2)

/-- The step, of the system with a client. -/
def System.Label.client {Y : System} {C : Client Y} :
    System.Label Y → System.Label (Y.client C)
  | .invoke t c => .invoke t c
  | .step t n => .step t n

namespace Flow
variable {Y : System}

/-! ## With a client -/

section client
variable (C : Client Y) (F : Flow Y)

@[reducible] def client : Flow (Y.client C) where
  G := F.G
  idle := F.idle
  start := F.start
  move := F.move
  ends := F.ends
  pre := F.pre
  post := F.post

variable {C} {F}

theorem wp_client {t : Y.Tid} {α : Type} {p : Prog Y.sig α} {Q : α → F.G → Prop} {g : F.G}
    (h : F.wp t p Q g) : (F.client C).wp t p Q g := by
  induction p generalizing g with
  | ret a => exact h
  | act a k ih =>
    intro r
    obtain ⟨g', hm, h'⟩ := h r
    exact ⟨g', hm, ih r h'⟩
  | call p k ih => exact ⟨h.1, fun r g' h' => ih r (h.2 r g' h')⟩

theorem Follows.client (h : F.Follows) : (F.client C).Follows where
  code t c := wp_client (h.code t c)
  body t p g hp := wp_client (h.body t p g hp)

/-- The machine with the client does what the one without does. -/
theorem Reach.of_client {ok : (Y.client C).Tid → (Y.client C).sig.Act → (Y.client C).State → Prop}
    {s : (Y.client C).State} {γ : (F.client C).Places}
    (h : Flow.Reach (F.client C) ok s γ) : Flow.Reach F (fun _ _ _ => True) s.1 γ := by
  induction h with
  | init => exact .init
  | step _ hs ih =>
    cases hs with
    | rest => exact ih
    | begin t c hi he =>
      exact ih.step (Step.begin (Y := Y) (F := F) t c hi (Bool.and_eq_true _ _ ▸ he).2)
    | move t a n hok hs hm =>
      obtain ⟨o, ho, he⟩ := Option.map_eq_some_iff.mp hs
      cases he
      exact ih.step (Step.move (Y := Y) (F := F) t a n trivial ho hm)
    | finish t c r he => exact ih.step (Step.finish (Y := Y) (F := F) t c r he)

end client

/-! ## Two flows at once -/

section prod
variable (F₁ F₂ : Flow Y)

@[reducible] def prod : Flow Y where
  G := F₁.G × F₂.G
  idle := (F₁.idle, F₂.idle)
  start t c := (F₁.start t c, F₂.start t c)
  move t g a r g' := F₁.move t g.1 a r g'.1 ∧ F₂.move t g.2 a r g'.2
  ends t c r g := F₁.ends t c r g.1 ∧ F₂.ends t c r g.2
  pre p t g := F₁.pre p t g.1 ∧ F₂.pre p t g.2
  post p t g r g' := F₁.post p t g.1 r g'.1 ∧ F₂.post p t g.2 r g'.2

variable {F₁ F₂}

theorem wp_prod {t : Y.Tid} {α : Type} {p : Prog Y.sig α} {Q₁ : α → F₁.G → Prop}
    {Q₂ : α → F₂.G → Prop} {g₁ : F₁.G} {g₂ : F₂.G} (h₁ : F₁.wp t p Q₁ g₁) (h₂ : F₂.wp t p Q₂ g₂) :
    (F₁.prod F₂).wp t p (fun a g => Q₁ a g.1 ∧ Q₂ a g.2) (g₁, g₂) := by
  induction p generalizing g₁ g₂ with
  | ret a => exact ⟨h₁, h₂⟩
  | act a k ih =>
    intro r
    obtain ⟨g₁', hm₁, h₁'⟩ := h₁ r
    obtain ⟨g₂', hm₂, h₂'⟩ := h₂ r
    exact ⟨(g₁', g₂'), ⟨hm₁, hm₂⟩, ih r h₁' h₂'⟩
  | call p k ih =>
    refine ⟨⟨h₁.1, h₂.1⟩, fun r g' h' => ?_⟩
    exact ih r (h₁.2 r g'.1 h'.1) (h₂.2 r g'.2 h'.2)

theorem Follows.prod (h₁ : F₁.Follows) (h₂ : F₂.Follows) : (F₁.prod F₂).Follows where
  code t c := wp_prod (h₁.code t c) (h₂.code t c)
  body t p _ hp := wp_prod (h₁.body t p _ hp.1) (h₂.body t p _ hp.2)

theorem upd_places {G G' : Type} (f : G → G') (γ : Y.Tid → G) (t : Y.Tid) (g : G) :
    (fun u => f (upd γ t g u)) = upd (fun u => f (γ u)) t (f g) := by
  funext u
  by_cases hu : u = t
  · subst hu; simp
  · simp [hu]

/-- The product's machine does what the first flow's does. -/
theorem Reach.left {ok : Y.Tid → Y.sig.Act → Y.State → Prop} {s : Y.State}
    {γ : (F₁.prod F₂).Places} (h : (F₁.prod F₂).Reach ok s γ) :
    F₁.Reach ok s fun t => (γ t).1 := by
  induction h with
  | init => exact .init
  | @step s s' γ γ' o _ hs ih =>
    refine ih.step (o := o) ?_
    cases hs with
    | rest => exact .rest
    | begin t c hi he =>
      rw [upd_places Prod.fst]
      exact .begin t c (congrArg Prod.fst hi) he
    | move t a n hok hs hm =>
      rw [upd_places Prod.fst]
      exact .move t a n hok hs hm.1
    | finish t c r he =>
      rw [upd_places Prod.fst]
      exact .finish t c r he.1

end prod

/-! ## A place where anything may be done -/

/-- At a place that every operation and every procedure keeps, every program
keeps to the flow. -/
theorem wp_anything {F : Flow Y} {t : Y.Tid} {g : F.G} (hm : ∀ a r, F.move t g a r g)
    (hpre : ∀ p, F.pre p t g) (hpost : ∀ p r g', F.post p t g r g' → g' = g) {α : Type}
    {Q : α → F.G → Prop} (hQ : ∀ a, Q a g) (p : Prog Y.sig α) : F.wp t p Q g := by
  induction p with
  | ret a => exact hQ a
  | act a k ih => exact fun r => ⟨g, hm a r, ih r⟩
  | call p k ih =>
    refine ⟨hpre p, fun r g' h' => ?_⟩
    rw [hpost p r g' h']
    exact ih r

/-- At a place that a program's operations and procedures keep, it stays. -/
theorem wp_silent {F : Flow Y} {t : Y.Tid} {g : F.G} {q : Y.sig.Act → Prop}
    {c : Y.sig.Proc → Prop} (hm : ∀ a r, q a → F.move t g a r g)
    (hc : ∀ p, c p → F.pre p t g ∧ ∀ r g', F.post p t g r g' → g' = g) {α : Type}
    {p : Prog Y.sig α} (h : p.Silent q c) : F.wp t p (fun _ g' => g' = g) g := by
  induction p with
  | ret a => rfl
  | act a k ih => exact fun r => ⟨g, hm a r h.1, ih r (h.2 r)⟩
  | call p k ih =>
    obtain ⟨hpre, hpost⟩ := hc p h.1
    refine ⟨hpre, fun r g' h' => ?_⟩
    rw [hpost r g' h']
    exact ih r (h.2 r)

end Flow
end Katas.Conc
