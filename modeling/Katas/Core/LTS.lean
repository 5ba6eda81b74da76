/-!
# Labelled transition systems

States, labels, runs, reachable states and inductive invariants. `restrict`
keeps the steps that meet a condition on the state before the step and on
the label, so "in every run whose steps all meet `ok`" is reachability in
`restrict ok`.
-/
namespace Katas

structure LTS (S L : Type) where
  init : S → Prop
  step : S → L → S → Prop

namespace LTS
variable {S L : Type} (T : LTS S L)

/-- `Run s ls s'`: the labels `ls` lead from `s` to `s'`. -/
inductive Run : S → List L → S → Prop
  | nil (s : S) : Run s [] s
  | cons {s s' s'' : S} {l : L} {ls : List L} :
      T.step s l s' → Run s' ls s'' → Run s (l :: ls) s''

def Reachable (s : S) : Prop := ∃ s₀ ls, T.init s₀ ∧ T.Run s₀ ls s

structure Inductive (I : S → Prop) : Prop where
  init : ∀ s, T.init s → I s
  step : ∀ s l s', I s → T.step s l s' → I s'

/-- The runs all of whose steps meet `ok`. -/
def restrict (ok : S → L → Prop) : LTS S L where
  init := T.init
  step s l s' := ok s l ∧ T.step s l s'

variable {T}

theorem Run.append {s s' s'' : S} {ls ls' : List L} (h : T.Run s ls s') (h' : T.Run s' ls' s'') :
    T.Run s (ls ++ ls') s'' := by
  induction h with
  | nil => exact h'
  | cons hs _ ih => exact .cons hs (ih h')

/-- A run, one step after another at its end. -/
theorem Run.rec_snoc {s s' : S} {ls : List L} {motive : List L → S → Prop} (h : T.Run s ls s')
    (nil : motive [] s) (snoc : ∀ {ls x l x'}, T.Run s ls x → T.step x l x' → motive ls x →
      motive (ls ++ [l]) x') : motive ls s' := by
  have hind : ∀ {x ls' y}, T.Run x ls' y → ∀ pre, T.Run s pre x → motive pre x →
      motive (pre ++ ls') y := by
    intro x ls' y h'
    induction h' with
    | nil =>
      intro pre _ hm
      rwa [List.append_nil]
    | @cons x x' _ l ls' hs _ ih =>
      intro pre hp hm
      rw [List.append_cons]
      exact ih _ (hp.append (.cons hs (.nil _))) (snoc hp hs hm)
  exact hind h [] (.nil s) nil

theorem Reachable.run {s s' : S} {ls : List L} (h : T.Reachable s) (hr : T.Run s ls s') :
    T.Reachable s' := by
  obtain ⟨s₀, l₀, h0, h1⟩ := h
  exact ⟨s₀, l₀ ++ ls, h0, h1.append hr⟩

theorem Reachable.step {s s' : S} {l : L} (h : T.Reachable s) (hs : T.step s l s') :
    T.Reachable s' :=
  h.run (.cons hs (.nil _))

/-- What every step from a reachable state does, in steps, a run does. -/
theorem Reachable.lift {R : S → S → Prop} (hrefl : ∀ s, R s s)
    (htrans : ∀ {s s' s''}, R s s' → R s' s'' → R s s'')
    (hstep : ∀ {s l s'}, T.Reachable s → T.step s l s' → R s s') {s s' : S} {ls : List L}
    (hs : T.Reachable s) (hr : T.Run s ls s') : R s s' := by
  induction hr with
  | nil => exact hrefl _
  | cons hst _ ih => exact htrans (hstep hs hst) (ih (hs.step hst))

theorem Inductive.run {I : S → Prop} (h : T.Inductive I) {s s' : S} {ls : List L}
    (hr : T.Run s ls s') (hs : I s) : I s' := by
  induction hr with
  | nil => exact hs
  | cons hst _ ih => exact ih (h.step _ _ _ hs hst)

theorem Inductive.reachable {I : S → Prop} (h : T.Inductive I) (s : S) (hr : T.Reachable s) :
    I s := by
  obtain ⟨s₀, ls, h0, h1⟩ := hr
  exact h.run h1 (h.init _ h0)

theorem Run.of_restrict {ok : S → L → Prop} {s s' : S} {ls : List L}
    (h : (T.restrict ok).Run s ls s') : T.Run s ls s' := by
  induction h with
  | nil => exact .nil _
  | cons hs _ ih => exact .cons hs.2 ih

theorem Reachable.of_restrict {ok : S → L → Prop} {s : S} (h : (T.restrict ok).Reachable s) :
    T.Reachable s := by
  obtain ⟨s₀, ls, h0, h1⟩ := h
  exact ⟨s₀, ls, h0, h1.of_restrict⟩

/-- Where a step is a function, a run is found by computing it. -/
theorem Run.of_foldlM {f : S → L → Option S} (hf : ∀ s l s', f s l = some s' → T.step s l s')
    {s s' : S} {ls : List L} (h : ls.foldlM f s = some s') : T.Run s ls s' := by
  induction ls generalizing s with
  | nil =>
    cases h
    exact .nil _
  | cons l ls ih =>
    obtain ⟨s₁, h1, h2⟩ := Option.bind_eq_some_iff.mp h
    exact .cons (hf s l s₁ h1) (ih h2)

/-- A schedule whose last state passes the test `p`. -/
theorem reachable_of_foldlM {f : S → L → Option S}
    (hf : ∀ s l s', f s l = some s' → T.step s l s') {s₀ : S} (h₀ : T.init s₀) (ls : List L)
    (p : S → Bool) (h : (ls.foldlM f s₀).any p = true) : ∃ s, T.Reachable s ∧ p s = true := by
  cases hs : ls.foldlM f s₀ with
  | none => rw [hs] at h; cases h
  | some s =>
    rw [hs] at h
    exact ⟨s, ⟨s₀, ls, h₀, .of_foldlM hf hs⟩, h⟩

end LTS
end Katas
