import Mathlib.Tactic.MkIffOfInductiveProp
import Katas.Turnstile.Ledger

/-!
# The ledger's invariant

`Fits` is what a thread's stage says about the ledger; `Owned`, `Stocked`,
`Shut` and `Booked` are what holds of the ledger whatever the stages.
-/
namespace Katas.Turnstile
open Katas.Conc (upd upd_self upd_ne upd_apply)
open Katas.SeqRing

/-- Carries a value. -/
def live : Phase → Bool
  | .published d | .claimed d | .released d => !d
  | _ => false

/-- What a slot's storage may be said to hold. -/
structure Contents (X V : Type) where
  full : X → V → Prop
  bare : X → Prop

/-- Reserved after the close at `e`, exactly when `late`. -/
def Late (e : Option Nat) (p : Nat) : Bool → Prop
  | true => ∃ n, e = some n ∧ n ≤ p
  | false => ∀ n, e = some n → p < n

section
variable {V K Tid X : Type} [DecidableEq Tid] (N : Nat) (D : Contents X V)
  (stores : K → V → Prop)

namespace Ledger

@[mk_iff owed_iff]
structure Owed (l : Ledger V K Tid) (t : Tid) (p : Nat) (late : Bool) : Prop where
  mine : l.reservedBy p = some (l.me t)
  phase : l.lanes.phase p = .reserved
  late : Late l.closePos p late

@[mk_iff holds_iff]
structure Holds (l : Ledger V K Tid) (t : Tid) (p : Nat) (late : Bool) : Prop extends
    Owed l t p late where
  turn : (l.lanes.seq (p % N)).stamp = p

@[mk_iff took_iff]
structure Took (l : Ledger V K Tid) (t : Tid) (p : Nat) (ph : Phase) : Prop where
  mine : l.claimedBy p = some (l.me t)
  phase : l.lanes.phase p = ph

def Sits (l : Ledger V K Tid) (cell : Nat → X) (t : Tid) (k : K) : Stage V → Prop
  | .none => True
  | .sawFree p => l.lanes.phase p = .vacant → (l.lanes.seq (p % N)).stamp = p
  | .waits p late => l.Owed t p late
  | .holds p late => l.Holds N t p late ∧ D.bare (cell (p % N))
  | .filled p v => l.Holds N t p false ∧ D.full (cell (p % N)) v ∧ stores k v
  | .pushed p v => l.reservedBy p = some (l.me t) ∧ l.pushed p = some v
  | .buried p late => l.reservedBy p = some (l.me t) ∧ (l.lanes.phase p).isDead = true ∧
      Late l.closePos p late
  | .sawPub p d => l.lanes.phase p = .published d ∨ p < l.lanes.head
  | .skipping p => l.Took t p (.claimed true) ∧ D.bare (cell (p % N))
  | .claimed p => l.Took t p (.claimed false) ∧ ∃ v, l.pushed p = some v ∧ D.full (cell (p % N)) v
  | .copied p v => l.Took t p (.claimed false) ∧ l.popped p = some v ∧ D.full (cell (p % N)) v
  | .cleared p v => l.Took t p (.claimed false) ∧ l.popped p = some v ∧ D.bare (cell (p % N))
  | .took p v => l.Took t p (.released false) ∧ l.popped p = some v
  | .closing e => l.closePos = some e
  | .sawEnd n => ∃ e, l.closePos = some e ∧ e ≤ n
  | .atEnd => ∃ e, l.closePos = some e ∧ e ≤ l.lanes.head

def Fits (l : Ledger V K Tid) (cell : Nat → X) (t : Tid) (g : Role V K) : Prop :=
  match g.call with
  | none => g.stage = .none
  | some k => l.called (l.me t) = some k ∧ l.Sits N D stores cell t k g.stage

structure Owned (l : Ledger V K Tid) (ρ : Tid → Role V K) : Prop where
  unowned : ∀ p, l.reservedBy p = none ↔ l.lanes.phase p = .vacant ∨ l.lanes.phase p = .refused
  resv_inj : ∀ p q id, l.reservedBy p = some id → l.reservedBy q = some id → p = q
  resv_old : ∀ p t n, l.reservedBy p = some (t, n) → n ≤ l.calls t
  resv_now : ∀ p t, l.reservedBy p = some (l.me t) → (ρ t).call ≠ none →
    (ρ t).stage.resv = some p
  owing : ∀ p t n, l.lanes.phase p = .reserved → l.reservedBy p = some (t, n) →
    (ρ t).stage.owes = some p
  unclaimed : ∀ p, l.claimedBy p = none ↔ (l.lanes.phase p).taken = false
  claim_inj : ∀ p q id, l.claimedBy p = some id → l.claimedBy q = some id →
    live (l.lanes.phase p) = true → live (l.lanes.phase q) = true → p = q
  claim_old : ∀ p t n, l.claimedBy p = some (t, n) → n ≤ l.calls t
  claim_now : ∀ p t, l.claimedBy p = some (l.me t) → live (l.lanes.phase p) = true →
    (ρ t).call ≠ none → (ρ t).stage.claim = some p
  claiming : ∀ p d t n, l.lanes.phase p = .claimed d → l.claimedBy p = some (t, n) →
    (ρ t).stage.opens = some p

structure Stocked (l : Ledger V K Tid) (cell : Nat → X) (ρ : Tid → Role V K) : Prop where
  shown : ∀ p, l.lanes.phase p = .published false →
    ∃ v, l.pushed p = some v ∧ D.full (cell (p % N)) v
  dark : ∀ p, l.lanes.phase p = .published true → D.bare (cell (p % N))
  free : ∀ p, (l.lanes.phase p).unpublished = true → (l.lanes.seq (p % N)).stamp = p →
    D.bare (cell (p % N)) ∨ ∃ t v, (ρ t).stage = .filled p v
  pushed_live : ∀ p, (l.pushed p).isSome = live (l.lanes.phase p)
  popped_pushed : ∀ p v, l.popped p = some v →
    l.pushed p = some v ∧ (l.lanes.phase p).taken = true
  gone : ∀ p, l.lanes.phase p = .released false → ∃ v, l.popped p = some v
  pushed_by : ∀ p v id, l.pushed p = some v → l.reservedBy p = some id →
    ∃ k, l.called id = some k ∧ stores k v

structure Shut (l : Ledger V K Tid) : Prop where
  closed : l.closed = l.closePos.isSome
  end_le : ∀ e, l.closePos = some e → e ≤ l.lanes.tail
  after : ∀ e p, l.closePos = some e → e ≤ p → live (l.lanes.phase p) = false
  refused : ∀ p, l.lanes.phase p = .refused → ∃ e, l.closePos = some e ∧ e ≤ p
  drained : ∀ id, l.results id = some (.pop .drained) →
    ∃ e, l.closePos = some e ∧ e ≤ l.lanes.head

/-- What the call that reserved `p` returned. -/
def Paid (l : Ledger V K Tid) (p : Nat) (r : Result V) : Prop :=
  r = .push .ok ∧ live (l.lanes.phase p) = true ∨
  r = .panicked ∧ (l.lanes.phase p).isDead = true ∧ Late l.closePos p false ∨
  r = .push .closed ∧ (l.lanes.phase p).isDead = true ∧ Late l.closePos p true

structure Booked (l : Ledger V K Tid) (ρ : Tid → Role V K) : Prop where
  old : ∀ t n r, l.results (t, n) = some r → n ≤ l.calls t ∧
    ((ρ t).call ≠ none → n < l.calls t)
  push : ∀ id, l.results id = some (.push .ok) →
    ∃ p v, l.reservedBy p = some id ∧ l.pushed p = some v
  panicked : ∀ id, l.results id = some .panicked →
    ∃ p, l.reservedBy p = some id ∧ (l.lanes.phase p).isDead = true
  paid : ∀ id r p, l.results id = some r → l.reservedBy p = some id → l.Paid p r
  pop : ∀ id v, l.results id = some (.pop (.ok v)) →
    ∃ p, l.claimedBy p = some id ∧ l.popped p = some v
  claimed : ∀ id r p, l.results id = some r → l.claimedBy p = some id →
    live (l.lanes.phase p) = true → ∃ v, r = .pop (.ok v) ∧ l.popped p = some v

structure Inv (l : Ledger V K Tid) (cell : Nat → X) (ρ : Tid → Role V K) : Prop where
  lanes : l.lanes.Inv N
  fits : ∀ t, l.Fits N D stores cell t (ρ t)
  owned : l.Owned ρ
  stocked : l.Stocked N D stores cell ρ
  shut : l.Shut
  booked : l.Booked ρ

end Ledger
end
end Katas.Turnstile
