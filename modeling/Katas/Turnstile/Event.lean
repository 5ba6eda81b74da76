import Katas.Core.Mixing
import Mathlib.Algebra.BigOperators.Group.Multiset.Basic

/-!
# The event and its checks

The event that crosses the queues, whose last field is a digest of the other
four, and the tally by which a run is checked for lost and duplicated events.
The finalizer `mix` loses nothing, so neither does a digest in any one of its
fields, and the tally of a run tells an event from any other.
-/
namespace Katas.Turnstile
open Katas.Mixing Function

/-- mirrors mpmc-work-queue-kata/cpp/src/event.hpp:11-17 and
go/internal/turnstile/event.go:5-11 -/
@[ext] structure Event where
  producer : UInt32
  seq : UInt32
  stamp : UInt64
  payload : UInt64
  check : UInt64
  deriving DecidableEq, Repr

/-- The finalizer of splitmix64.
mirrors mpmc-work-queue-kata/cpp/src/event.hpp:22-29 and
go/internal/turnstile/event.go:15-22 -/
def mix (x : UInt64) : UInt64 :=
  let x := x ^^^ x >>> 30
  let x := x * 0xbf58476d1ce4e5b9
  let x := x ^^^ x >>> 27
  let x := x * 0x94d049bb133111eb
  x ^^^ x >>> 31

/-- mirrors mpmc-work-queue-kata/cpp/src/event.hpp:31-34 and
go/internal/turnstile/event.go:24-26 -/
def digest (producer seq : UInt32) (stamp payload : UInt64) : UInt64 :=
  mix (mix (mix (pair producer seq + 0x9e3779b97f4a7c15) ^^^ stamp) ^^^ payload)

/-- mirrors mpmc-work-queue-kata/cpp/src/event.hpp:40-43 and
go/internal/turnstile/event.go:28-31 -/
def makeEvent (producer seq : UInt32) (stamp : UInt64) : Event :=
  let payload := mix (pair producer seq)
  ⟨producer, seq, stamp, payload, digest producer seq stamp payload⟩

/-- mirrors mpmc-work-queue-kata/cpp/src/event.hpp:45-48 and
go/internal/turnstile/event.go:35-38 -/
def intact (e : Event) : Prop :=
  e.payload = mix (pair e.producer e.seq) ∧
    e.check = digest e.producer e.seq e.stamp e.payload

instance (e : Event) : Decidable (intact e) := inferInstanceAs (Decidable (_ ∧ _))

/-! ## The finalizer loses nothing -/

theorem mix_injective : Injective mix := by
  have h₁ : Injective fun x : UInt64 => x ^^^ x >>> 30 := xorShift_injective (by decide)
  have h₂ : Injective fun x : UInt64 => x * 0xbf58476d1ce4e5b9 :=
    mul_injective (d := 0x96de1b173f119089) (by decide)
  have h₃ : Injective fun x : UInt64 => x ^^^ x >>> 27 := xorShift_injective (by decide)
  have h₄ : Injective fun x : UInt64 => x * 0x94d049bb133111eb :=
    mul_injective (d := 0x319642b2d24d8ec3) (by decide)
  have h₅ : Injective fun x : UInt64 => x ^^^ x >>> 31 := xorShift_injective (by decide)
  exact h₅.comp (h₄.comp (h₃.comp (h₂.comp h₁)))

theorem mix_inj {x y : UInt64} : mix x = mix y ↔ x = y := mix_injective.eq_iff

theorem digest_stamp {producer seq : UInt32} {stamp stamp' payload : UInt64}
    (h : digest producer seq stamp payload = digest producer seq stamp' payload) :
    stamp = stamp' := by
  have hinner := xor_injective payload (mix_injective h)
  have hxor := mix_injective hinner
  rw [UInt64.xor_comm, UInt64.xor_comm _ stamp'] at hxor
  exact xor_injective _ hxor

/-! ## The torn-read detector -/

/-- What `make_event` makes is intact; an intact event with one field changed is
not. -/
theorem intact_detects :
    (∀ producer seq stamp, intact (makeEvent producer seq stamp)) ∧
      ∀ e, intact e →
        (∀ x, x ≠ e.producer → ¬ intact { e with producer := x }) ∧
        (∀ x, x ≠ e.seq → ¬ intact { e with seq := x }) ∧
        (∀ x, x ≠ e.stamp → ¬ intact { e with stamp := x }) ∧
        (∀ x, x ≠ e.payload → ¬ intact { e with payload := x }) ∧
        (∀ x, x ≠ e.check → ¬ intact { e with check := x }) := by
  refine ⟨fun _ _ _ => ⟨rfl, rfl⟩, fun e he => ⟨fun x hx h => hx ?_, fun x hx h => hx ?_,
    fun x hx h => hx ?_, fun x hx h => hx ?_, fun x hx h => hx ?_⟩⟩
  · exact (pair_inj.mp (mix_inj.mp (h.1.symm.trans he.1))).1
  · exact (pair_inj.mp (mix_inj.mp (h.1.symm.trans he.1))).2
  · exact digest_stamp (h.2.symm.trans he.2)
  · exact h.1.trans he.1.symm
  · exact h.2.trans he.2.symm

theorem intact_detects_one : ¬ intact { makeEvent 1 2 3 with stamp := 4 } :=
  (intact_detects.2 (makeEvent 1 2 3) (by decide)).2.2.1 4 (by decide)

/-! ## The tally -/

/-- mirrors mpmc-work-queue-kata/cpp/src/event.hpp:55-66 and
go/internal/turnstile/event.go:45 -/
@[ext] structure Tally where
  n : UInt64
  a : UInt64
  b : UInt64
  deriving DecidableEq, Repr

/-- An identity: the producer and the sequence number. -/
abbrev Id := UInt32 × UInt32

namespace Tally

def empty : Tally := ⟨0, 0, 0⟩

/-- mirrors mpmc-work-queue-kata/cpp/src/event.hpp:58-63 and
go/internal/turnstile/event.go:47-52 -/
def add (t : Tally) (producer seq : UInt32) : Tally :=
  let id := pair producer seq
  { n := t.n + 1
    a := t.a + mix (id ^^^ 0x2545f4914f6cdd1d)
    b := t.b + mix (id * 0x9e3779b97f4a7c15 + 1) }

/-- mirrors mpmc-work-queue-kata/cpp/src/event.hpp:64 and
go/internal/turnstile/event.go:54 -/
def merge (t o : Tally) : Tally := ⟨t.n + o.n, t.a + o.a, t.b + o.b⟩

/-! ## Tallies as sums -/

instance : Zero Tally := ⟨empty⟩

instance : Add Tally := ⟨merge⟩

/-- Tallies are words added field by field. -/
instance : AddCommMonoid Tally where
  add_assoc _ _ _ := Tally.ext (UInt64.add_assoc ..) (UInt64.add_assoc ..) (UInt64.add_assoc ..)
  zero_add _ := Tally.ext (UInt64.zero_add _) (UInt64.zero_add _) (UInt64.zero_add _)
  add_zero _ := Tally.ext (UInt64.add_zero _) (UInt64.add_zero _) (UInt64.add_zero _)
  add_comm _ _ := Tally.ext (UInt64.add_comm ..) (UInt64.add_comm ..) (UInt64.add_comm ..)
  nsmul := nsmulRec

/-- The tally of one event. -/
def one (x : Id) : Tally := empty.add x.1 x.2

theorem add_eq (t : Tally) (x : Id) : t.add x.1 x.2 = one x + t := by
  have hzero (u v : UInt64) : u + v = 0 + v + u := by rw [UInt64.zero_add, UInt64.add_comm]
  exact Tally.ext (hzero _ _) (hzero _ _) (hzero _ _)

theorem add_n (t u : Tally) : (t + u).n = t.n + u.n := rfl

theorem add_a (t u : Tally) : (t + u).a = t.a + u.a := rfl

theorem add_b (t u : Tally) : (t + u).b = t.b + u.b := rfl

theorem one_n (x : Id) : (one x).n = 1 := rfl

theorem one_a {x y : Id} (h : (one x).a = (one y).a) : x = y := by
  have h : 0 + mix (pair x.1 x.2 ^^^ _) = 0 + mix (pair y.1 y.2 ^^^ _) := h
  rw [UInt64.zero_add, UInt64.zero_add] at h
  exact Prod.ext_iff.mpr (pair_inj.mp (xor_injective _ (mix_injective h)))

theorem one_b {x y : Id} (h : (one x).b = (one y).b) : x = y := by
  have h : 0 + mix (pair x.1 x.2 * _ + 1) = 0 + mix (pair y.1 y.2 * _ + 1) := h
  rw [UInt64.zero_add, UInt64.zero_add] at h
  have hmul : Injective fun x : UInt64 => x * 0x9e3779b97f4a7c15 :=
    mul_injective (d := 0xf1de83e19937733d) (by decide)
  exact Prod.ext_iff.mpr (pair_inj.mp (hmul (add_injective 1 (mix_injective h))))

end Tally

/-! ## Runs -/

/-- How a run's tally comes about: tallies are made, events are added to them,
and they are merged. -/
inductive Tallied where
  | new
  | add (p : Tallied) (x : Id)
  | merge (p q : Tallied)

namespace Tallied

def tally : Tallied → Tally
  | new => .empty
  | add p x => p.tally.add x.1 x.2
  | merge p q => p.tally.merge q.tally

/-- What was added, however often. -/
def ids : Tallied → Multiset Id
  | new => 0
  | add p x => x ::ₘ p.ids
  | merge p q => p.ids + q.ids

theorem tally_eq (p : Tallied) : p.tally = (p.ids.map Tally.one).sum := by
  induction p with
  | new => rfl
  | add p x ih =>
    rw [tally, ids, Multiset.map_cons, Multiset.sum_cons, Tally.add_eq, ih]
  | merge p q ihp ihq =>
    rw [tally, ids, Multiset.map_add, Multiset.sum_add, ihp, ihq]
    rfl

end Tallied

/-- The tally depends on the events added alone, neither on their order nor on
how they are split; and an event put in another's place leaves the count and
moves both sums. -/
theorem tally_tells :
    (∀ p q : Tallied, p.ids = q.ids → p.tally = q.tally) ∧
      ∀ (p q : Tallied) (x y : Id), x ∈ p.ids → y ≠ x → q.ids = y ::ₘ p.ids.erase x →
        q.tally.n = p.tally.n ∧ q.tally.a ≠ p.tally.a ∧ q.tally.b ≠ p.tally.b := by
  refine ⟨fun p q h => ?_, fun p q x y hx hne hq => ?_⟩
  · rw [p.tally_eq, q.tally_eq, h]
  · have hp : p.tally = Tally.one x + ((p.ids.erase x).map Tally.one).sum := by
      conv_lhs => rw [p.tally_eq, ← Multiset.cons_erase hx]
      rw [Multiset.map_cons, Multiset.sum_cons]
    have hq : q.tally = Tally.one y + ((p.ids.erase x).map Tally.one).sum := by
      rw [q.tally_eq, hq, Multiset.map_cons, Multiset.sum_cons]
    rw [hp, hq]
    simp only [Tally.add_n, Tally.add_a, Tally.add_b, Tally.one_n]
    refine ⟨trivial, fun h => hne ?_, fun h => hne ?_⟩
    · exact Tally.one_a (add_injective _ h)
    · exact Tally.one_b (add_injective _ h)

theorem tally_tells_two :
    (Tallied.new.add (1, 3)).tally.a ≠ (Tallied.new.add (1, 2)).tally.a :=
  (tally_tells.2 (Tallied.new.add (1, 2)) (Tallied.new.add (1, 3)) (1, 2) (1, 3) (by decide)
    (by decide) (by decide)).2.1

end Katas.Turnstile
