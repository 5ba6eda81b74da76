import Katas.Core.Prog

/-!
# Programs over more operations

A signature with operations added, and the programs over the old ones among
those over the new.
-/
namespace Katas.Conc

/-- `S` with the operations `B`. -/
@[reducible] def Sig.extend (S : Sig) (B : Type) (R : B → Type) : Sig where
  Act := S.Act ⊕ B
  Resp := Sum.elim S.Resp R
  Proc := S.Proc
  Ret := S.Ret

namespace Prog
variable {S : Sig} {B : Type} {R : B → Type} {α β : Type}

/-- The program, over more operations. -/
def lift : Prog S α → Prog (S.extend B R) α
  | .ret a => .ret a
  | .act a k => .act (.inl a) fun r => (k r).lift
  | .call p k => .call p fun r => (k r).lift

@[simp] theorem lift_ret (a : α) : (lift (.ret a) : Prog (S.extend B R) α) = .ret a := rfl

@[simp] theorem lift_act (a : S.Act) (k : S.Resp a → Prog S α) :
    (lift (.act a k) : Prog (S.extend B R) α) = .act (.inl a) fun r => (k r).lift := rfl

@[simp] theorem lift_call (p : S.Proc) (k : S.Ret p → Prog S α) :
    (lift (.call p k) : Prog (S.extend B R) α) = .call p fun r => (k r).lift := rfl

theorem lift_bind (p : Prog S α) (f : α → Prog S β) :
    (lift (p.bind f) : Prog (S.extend B R) β) = p.lift.bind fun a => (f a).lift := by
  induction p with
  | ret a => rfl
  | act a k ih =>
    rw [act_bind, lift_act, lift_act, act_bind]
    exact congrArg _ (funext ih)
  | call p k ih =>
    rw [call_bind, lift_call, lift_call, call_bind]
    exact congrArg _ (funext ih)

end Prog
end Katas.Conc
