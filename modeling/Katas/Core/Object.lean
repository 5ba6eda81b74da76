import Katas.Core.Flow

/-!
# What a client sees of a component

`System.Trace` is a run with the calls and the returns of it. An `Object` says
what a call may answer and what it does, all at once; its traces do each call
at one instant between the call and its return. A component refines an object
if each of its traces is one of the object's, and for that it is enough that
every step of its machine keeps a relation with the object
(`Flow.Follows.refines`).

`System.Since t P ls x` says that in the run `ls`, which leads to `x`, `P` held at
an instant of the call that `t` is in. `Flow.Follows.since` finds the instant:
something holds of `t`'s place as long as `P` has not come.
-/
namespace Katas.Conc

/-- What a client sees. -/
inductive Event (Y : System) where
  | call (t : Y.Tid) (c : Y.Call)
  | ret (t : Y.Tid) (r : Y.Result)

namespace System
variable {Y : System}

/-- What a client sees of a step. -/
def seen (x : Config Y) : Label Y → List (Event Y)
  | .invoke t c => [.call t c]
  | .step t _ =>
    match x.thread t with
    | .run _ (.ret r) => [.ret t r]
    | _ => []

/-- Some run leads to the configuration, and a client sees these events of it. -/
inductive Trace : List (Event Y) → Config Y → Prop
  | start : Trace [] Y.start
  | step {es : List (Event Y)} {x x' : Config Y} {l : Label Y} :
      Trace es x → step x l = some x' → Trace (es ++ seen x l) x'

theorem Reachable.trace {x : Config Y} (h : Y.Reachable x) : ∃ es, Trace es x := by
  have hind : Y.lts.Inductive fun x => ∃ es, Trace es x := by
    refine ⟨?_, fun x l x' ⟨es, h⟩ hs => ⟨_, h.step hs⟩⟩
    rintro x rfl
    exact ⟨[], .start⟩
  exact hind.reachable x h

/-- `t` does `a` in state `s` in some run. -/
def Occurs (t : Y.Tid) (a : Y.sig.Act) (s : Y.State) : Prop :=
  ∃ x : Config Y, Y.Reachable x ∧ AtOp x t a ∧ x.state = s

theorem Occurs.after {t : Y.Tid} {a : Y.sig.Act} {s s' : Y.State} {n : Nat} {r : Y.sig.Resp a}
    (h : Occurs t a s) (hs : Y.sem t a n s = some (s', r)) :
    ∃ x : Config Y, Y.Reachable x ∧ x.state = s' := by
  obtain ⟨x, hx, ⟨c, k, hth⟩, rfl⟩ := h
  refine ⟨⟨s', upd x.thread t (.run c (k r))⟩, hx.step (l := .step t n) ?_, rfl⟩
  show stepThread x t n (x.thread t) = _
  rw [hth, stepThread, hs]
  rfl

/-- The operations of a run are done in states that runs lead to. -/
theorem run_occurs {x : Config Y} {ls : List (Label Y)} (h : Y.lts.Run Y.start ls x) :
    (Y.lts.restrict (Meets Occurs)).Run Y.start ls x := by
  refine h.rec_snoc (.nil _) fun {ls x l x'} hr hs ih => ih.append (.cons ⟨?_, hs⟩ (.nil _))
  cases l with
  | invoke => trivial
  | step t n => exact fun a ha => ⟨x, ⟨_, ls, rfl, hr⟩, ha, rfl⟩

/-- In the run `ls`, `P` held at an instant of the call that `t` is in. -/
inductive Since (t : Y.Tid) (P : Y.State → Prop) : List (Label Y) → Config Y → Prop
  | now {ls : List (Label Y)} {x : Config Y} :
      Y.lts.Run Y.start ls x → x.thread t ≠ .idle → P x.state → Since t P ls x
  | later {ls : List (Label Y)} {x x' : Config Y} {l : Label Y} :
      Since t P ls x → step x l = some x' → x'.thread t ≠ .idle → Since t P (ls ++ [l]) x'

end System

/-- What a call may answer, and what it does. -/
structure Object (Y : System) where
  Q : Type
  init : Q
  does : Y.Tid → Y.Call → Y.Result → Q → Q → Prop

/-- How far a thread's call on an object is. -/
inductive Status (Y : System) where
  | idle
  | asked (c : Y.Call)
  | answered (r : Y.Result)

/-- The traces of an object: between its call and its return, each call is done
at one instant. -/
inductive Object.Trace {Y : System} (A : Object Y) :
    List (Event Y) → A.Q → (Y.Tid → Status Y) → Prop
  | start : A.Trace [] A.init fun _ => .idle
  | call {es : List (Event Y)} {q : A.Q} {st : Y.Tid → Status Y} (t : Y.Tid) (c : Y.Call) :
      A.Trace es q st → st t = .idle → A.Trace (es ++ [.call t c]) q (upd st t (.asked c))
  | act {es : List (Event Y)} {q q' : A.Q} {st : Y.Tid → Status Y} (t : Y.Tid) {c : Y.Call}
      {r : Y.Result} : A.Trace es q st → st t = .asked c → A.does t c r q q' →
      A.Trace es q' (upd st t (.answered r))
  | ret {es : List (Event Y)} {q : A.Q} {st : Y.Tid → Status Y} (t : Y.Tid) {r : Y.Result} :
      A.Trace es q st → st t = .answered r → A.Trace (es ++ [.ret t r]) q (upd st t .idle)

namespace Flow
variable {Y : System} (F : Flow Y) (ok : Y.Tid → Y.sig.Act → Y.State → Prop)

/-! ## Refinement -/

/-- A relation with an object that every step of the machine keeps: an operation
does at most one call. -/
structure Simulates (A : Object Y) (R : Y.State → F.Places → A.Q → (Y.Tid → Status Y) → Prop) :
    Prop where
  init : R Y.init (fun _ => F.idle) A.init fun _ => .idle
  begin : ∀ {s γ q st}, F.Reach ok s γ → R s γ q st → ∀ t c, γ t = F.idle →
    Y.enabled s t c = true → st t = .idle ∧
      R (Y.begin t c s) (upd γ t (F.start t c)) q (upd st t (.asked c))
  move : ∀ {s γ q st}, F.Reach ok s γ → R s γ q st → ∀ t a n {s' r g}, ok t a s →
    Y.sem t a n s = some (s', r) → F.move t (γ t) a r g → R s' (upd γ t g) q st ∨
      ∃ c r q', st t = .asked c ∧ A.does t c r q q' ∧ R s' (upd γ t g) q' (upd st t (.answered r))
  finish : ∀ {s γ q st}, F.Reach ok s γ → R s γ q st → ∀ t c r, F.ends t c r (γ t) →
    st t = .answered r ∧ R (Y.finish t c r s) (upd γ t F.idle) q (upd st t .idle)

variable {F ok} {γ γ' : F.Places} {x x' : System.Config Y} {l : System.Label Y} {t : Y.Tid}

theorem Advance.step (h : F.Advance ok x γ l x' γ') : ∃ o, F.Step ok x.state γ o x'.state γ' := by
  cases h with
  | begin hth hi he => exact ⟨_, .begin _ _ hi he⟩
  | rest hth => exact ⟨_, .rest⟩
  | move hth hok hs hm => exact ⟨_, .move _ _ _ hok hs hm⟩
  | finish hth he => exact ⟨_, .finish _ _ _ he⟩

/-- Every trace of the component is one of the object's. -/
theorem Follows.refines (h : F.Follows) {A : Object Y}
    {R : Y.State → F.Places → A.Q → (Y.Tid → Status Y) → Prop}
    (hR : F.Simulates (fun _ _ _ => True) A R) {es : List (Event Y)} (hx : System.Trace es x) :
    ∃ γ q st, F.Reach (fun _ _ _ => True) x.state γ ∧ (∀ u, F.Stands u (γ u) (x.thread u)) ∧
      R x.state γ q st ∧ A.Trace es q st := by
  induction hx with
  | start => exact ⟨_, _, _, .init, fun _ => rfl, hR.init, .start⟩
  | @step es x x' l _ hs ih =>
    obtain ⟨γ, q, st, hr, hst, hrel, ht⟩ := ih
    obtain ⟨γ', ha, hst'⟩ := h.advance hst (System.meets_true x l) hs
    obtain ⟨o, hstep⟩ := ha.step
    have hr' := hr.step hstep
    cases ha with
    | begin hth hi he =>
      obtain ⟨hidle, hrel⟩ := hR.begin hr hrel _ _ hi he
      exact ⟨_, _, _, hr', hst', hrel, ht.call _ _ hidle⟩
    | rest hth =>
      refine ⟨_, _, _, hr', hst', hrel, ?_⟩
      simpa [System.seen, hth] using ht
    | @move t n c a k s' r g hth hmeets hsem hm =>
      have hes : System.seen x (.step t n) = [] := by simp only [System.seen, hth]
      rw [hes, List.append_nil]
      rcases hR.move hr hrel t a n hmeets hsem hm with hrel | ⟨c, r, q', hask, hdo, hrel⟩
      · exact ⟨_, _, _, hr', hst', hrel, ht⟩
      · exact ⟨_, _, _, hr', hst', hrel, ht.act _ hask hdo⟩
    | @finish t n c r hth he =>
      obtain ⟨hans, hrel⟩ := hR.finish hr hrel _ _ _ he
      have hes : System.seen x (.step t n) = [.ret t r] := by simp only [System.seen, hth]
      rw [hes]
      exact ⟨_, _, _, hr', hst', hrel, ht.ret _ hans⟩

/-! ## Instants -/

variable (F ok) in
/-- `I` holds of `t`'s place as long as `P` has not come in its call. -/
structure Until (t : Y.Tid) (P : Y.State → Prop) (I : Y.State → F.G → Prop) : Prop where
  idle : ∀ s, I s F.idle
  begin : ∀ s c, I (Y.begin t c s) (F.start t c)
  others : ∀ {s s' γ γ' o}, F.Reach ok s γ → F.Step ok s γ o s' γ' → γ' t = γ t → I s (γ t) →
    I s' (γ t) ∨ P s ∨ P s'
  move : ∀ {s γ}, F.Reach ok s γ → ∀ a n {s' r g}, ok t a s → Y.sem t a n s = some (s', r) →
    F.move t (γ t) a r g → I s (γ t) → I s' g ∨ P s ∨ P s'

/-- The place of a thread, or the instant. -/
theorem Follows.since (h : F.Follows) {P : Y.State → Prop} {I : Y.State → F.G → Prop}
    (hI : F.Until ok t P I) {ls : List (System.Label Y)}
    (hx : (Y.lts.restrict (System.Meets ok)).Run Y.start ls x) :
    ∃ γ, F.Reach ok x.state γ ∧ (∀ u, F.Stands u (γ u) (x.thread u)) ∧
      (I x.state (γ t) ∨ System.Since t P ls x) := by
  refine hx.rec_snoc (motive := fun ls (x : System.Config Y) => ∃ γ, F.Reach ok x.state γ ∧
    (∀ u, F.Stands u (γ u) (x.thread u)) ∧ (I x.state (γ t) ∨ System.Since t P ls x))
    ⟨fun _ => F.idle, .init, fun _ => rfl, .inl (hI.idle _)⟩ ?_
  intro ls x l x' hx hs ⟨γ, hr, hst, hd⟩
  obtain ⟨γ', ha, hst'⟩ := h.advance hst hs.1 hs.2
  obtain ⟨o, hstep⟩ := ha.step
  refine ⟨γ', hr.step hstep, hst', ?_⟩
  have hx := hx.of_restrict
  have hs := hs.2
  by_cases hidle : x'.thread t = .idle
  · have hg := hst' t
    rw [hidle] at hg
    rw [show γ' t = F.idle from hg]
    exact .inl (hI.idle _)
  -- `P` has come before or after this step
  have hnow : x.thread t ≠ .idle → P x.state ∨ P x'.state → System.Since t P (ls ++ [l]) x' := by
    intro hth hp
    rcases hp with hp | hp
    · exact (System.Since.now hx hth hp).later hs hidle
    · exact .now (hx.append (.cons hs (.nil _))) hidle hp
  have hothers : γ' t = γ t → x'.thread t = x.thread t →
      I x'.state (γ' t) ∨ System.Since t P (ls ++ [l]) x' := by
    intro hg hth
    rw [hg]
    rcases hd with hi | hd
    · rcases hI.others hr hstep hg hi with hi | hp
      · exact .inl hi
      · exact .inr (hnow (hth ▸ hidle) hp)
    · exact .inr (hd.later hs hidle)
  cases ha with
  | @begin u c hth hi he =>
    by_cases hu : u = t
    · subst hu
      rw [upd_self]
      exact .inl (hI.begin _ _)
    · exact hothers (upd_ne _ _ (Ne.symm hu)) (upd_ne _ _ (Ne.symm hu))
  | @rest u n c p k hth =>
    rcases hd with hi | hd
    · exact .inl hi
    · exact .inr (hd.later hs hidle)
  | @move u n c a k s' r g hth hmeets hsem hm =>
    by_cases hu : u = t
    · subst hu
      rw [upd_self]
      rcases hd with hi | hd
      · rcases hI.move hr a n hmeets hsem hm hi with hi | hp
        · exact .inl hi
        · exact .inr (hnow (by rw [hth]; nofun) hp)
      · exact .inr (hd.later hs hidle)
    · exact hothers (upd_ne _ _ (Ne.symm hu)) (upd_ne _ _ (Ne.symm hu))
  | @finish u n c r hth he =>
    by_cases hu : u = t
    · subst hu
      exact absurd (upd_self _ _ _) hidle
    · exact hothers (upd_ne _ _ (Ne.symm hu)) (upd_ne _ _ (Ne.symm hu))

end Flow
end Katas.Conc
