import Katas.Core.Flow

/-!
# The contract of a transport

A transport as its clients see it: what panics, which events had been accepted
when a stop was first called, what the sink has, and whether that stop has
returned. The contract: nothing panics, and once the stop has returned the sink
has those events. It is proved of a machine that the programs follow
(`Contract.of_follows`).
-/
namespace Katas.Weir
open Katas.Conc

/-- `panics`: the operation, done now, is a panic; `crashes`: the return of the
call is. `before`: its push had returned true when a stop was first called.
mirrors mpsc-event-pipeline-kata/go/internal/weir/baseline.go:11-24 -/
structure Transport where
  system : System
  Item : Type
  panics : system.sig.Act → system.State → Prop
  crashes : system.Call → system.State → Prop
  before : system.State → Item → Prop
  written : system.State → Item → Prop
  stopped : system.State → Prop

/-- What a transport promises, in the runs whose operations meet `ok`. -/
structure Contract (T : Transport) (ok : T.system.Tid → T.system.sig.Act → T.system.State → Prop) :
    Prop where
  safe : ∀ x, System.ReachableIf ok x → ∀ t a, System.AtOp x t a → ¬ T.panics a x.state
  returns : ∀ x, System.ReachableIf ok x → ∀ t c r, x.thread t = .run c (.ret r) →
    ¬ T.crashes c x.state
  delivers : ∀ x, System.ReachableIf ok x → T.stopped x.state →
    ∀ e, T.before x.state e → T.written x.state e

/-- The contract, from what is known of the machine's states. -/
theorem Contract.of_follows {T : Transport}
    {ok : T.system.Tid → T.system.sig.Act → T.system.State → Prop} {F : Flow T.system}
    (hF : F.Follows)
    (hs : ∀ {s γ}, F.Reach ok s γ → ∀ t a, (∀ r, ∃ g, F.move t (γ t) a r g) → ¬ T.panics a s)
    (hr : ∀ {s γ}, F.Reach ok s γ → ∀ t c r, F.ends t c r (γ t) → ¬ T.crashes c s)
    (hd : ∀ {s γ}, F.Reach ok s γ → T.stopped s → ∀ e, T.before s e → T.written s e) :
    Contract T ok where
  safe x hx t a ha := by
    obtain ⟨γ, hγ, hst⟩ := hF.stands hx
    exact hs hγ t a fun r => (hst t).move ha r
  returns x hx t c r ht := by
    obtain ⟨γ, hγ, hst⟩ := hF.stands hx
    have hat := hst t
    rw [ht] at hat
    exact hr hγ t c r hat
  delivers x hx hstop e he := by
    obtain ⟨γ, hγ, -⟩ := hF.stands hx
    exact hd hγ hstop e he

end Katas.Weir
