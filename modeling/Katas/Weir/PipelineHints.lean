import Katas.Core.Client
import Katas.Weir.PipelineRings

/-!
# What a push records of the depth

After the event is counted, `push` reads the ring's tail, its own copy of the
head and the slot's record, and raises the record to the difference. A second
flow follows these steps, and leaves everything else open; its product with
the flow of the pipeline knows whose slot it is, so that what the thread has
read stays so until it writes.
-/
namespace Katas.Weir.Pipeline
open Katas.Conc Flow

/-- `early`: in a push that has not counted its event; then it reads the tail,
its copy of the head and the record; `late`: the record is done with. -/
inductive Hint where
  | other
  | early (h : Handle)
  | tail (h : Handle)
  | cached (h : Handle) (t : Nat)
  | high (h : Handle) (t c : Nat)
  | store (h : Handle) (d : Nat)
  | late (h : Handle)

/-- The handle of the push. -/
def Hint.handle : Hint → Option Handle
  | .other => none
  | .early h | .tail h | .cached h _ | .high h _ _ | .store h _ | .late h => some h

section
variable {V Tid : Type}

/-- Counts an event, or writes a record. -/
def Act.hints : Act V Tid → Bool
  | .pushedAdd _ | .highStore _ _ => true
  | _ => false

inductive HintMove : Hint → (a : Act V Tid) → Resp a → Hint → Prop
  | other (a : Act V Tid) (r : Resp a) : HintMove .other a r .other
  | early (h : Handle) {a : Act V Tid} {r : Resp a} : a.hints = false →
      HintMove (.early h) a r (.early h)
  | count (h : Handle) : HintMove (.early h) (.pushedAdd h) () (.tail h)
  | tail (h : Handle) (t : Nat) : HintMove (.tail h) (.tailLoad h.id) t (.cached h t)
  | cached (h : Handle) (t c : Nat) :
      HintMove (.cached h t) (.cachedHeadLoad h.id) c (.high h t c)
  | high (h : Handle) (t c w : Nat) : HintMove (.high h t c) (.highLoad h.id) w
      (if w < t - c then .store h (t - c) else .late h)
  | store (h : Handle) (d : Nat) : HintMove (.store h d) (.highStore h.id d) () (.late h)
  | late (h : Handle) {a : Act V Tid} {r : Resp a} : a.hints = false →
      HintMove (.late h) a r (.late h)

theorem HintMove.handle {g g' : Hint} {a : Act V Tid} {r : Resp a} (h : HintMove g a r g') :
    g'.handle = g.handle := by
  cases h with
  | high h t c w => split <;> rfl
  | _ => rfl

def startHint : Call V → Hint
  | .push h _ => .early h
  | _ => .other

end

section
variable (V Tid : Type) [DecidableEq Tid] [Inhabited V] [Inhabited Tid] (cfg : Config)

abbrev hintFlow : Flow (pipeline V Tid cfg) where
  G := Hint
  idle := .other
  start _ c := startHint c
  move _ := HintMove
  ends _ _ _ _ := True
  pre _ _ g := g = .other
  post _ _ g _ g' := g' = g

abbrev hintedFlow : Flow (pipeline V Tid cfg) := (flow V Tid cfg).prod (hintFlow V Tid cfg)

end

section
variable {V Tid : Type} {cfg : Config}

/-! ## The programs follow -/

/-- Neither counts nor records. -/
abbrev Still {α : Type} (p : M V Tid α) : Prop :=
  p.Silent (fun a : Act V Tid => a.hints = false) fun _ => False

theorem still_op {a : Act V Tid} (h : a.hints = false) : Still (op a) := Prog.silent_op h

theorem still_wake (site : Site) : Still (wake cfg site : M V Tid Unit) := by
  unfold wake
  split
  · exact still_op rfl
  · exact (still_op rfl).seq fun _ => (still_op rfl).seq fun _ => still_op rfl

theorem still_signal (site : Site) (i : Nat) : Still (signal cfg site i : M V Tid Unit) := by
  refine (still_op rfl).seq fun set => ?_
  split
  · exact Prog.silent_ret _
  · refine (still_op rfl).seq fun zero => ?_
    split
    · refine (still_op rfl).seq fun parked => ?_
      split
      · exact still_wake site
      · exact Prog.silent_ret _
    · exact Prog.silent_ret _

theorem still_store (h : Handle) (v : V) (pos : Nat) : Still (store h v pos : M V Tid Bool) :=
  (still_op rfl).seq fun _ => (still_op rfl).seq fun _ => Prog.silent_ret _

theorem still_tryPush (h : Handle) (v : V) : Still (tryPush cfg h v : M V Tid Bool) := by
  refine (still_op rfl).seq fun pos => (still_op rfl).seq fun c => ?_
  dsimp only
  split
  · refine (still_op rfl).seq fun c => ?_
    dsimp only
    split
    · exact Prog.silent_ret _
    · exact still_store h v pos
  · exact still_store h v pos

theorem still_retry (h : Handle) (v : V) (n : Nat) : Still (retry cfg h v n : M V Tid Bool) := by
  induction n with
  | zero => exact Prog.silent_ret _
  | succ n ih =>
    refine (still_tryPush h v).seq fun ok => ?_
    split
    · exact Prog.silent_ret _
    · exact ih

theorem still_attempt (h : Handle) (v : V) : Still (attempt cfg h v : M V Tid Bool) := by
  refine (still_tryPush h v).seq fun ok => ?_
  dsimp only
  split
  · exact still_retry h v _
  · exact Prog.silent_ret _

end

section
variable {V Tid : Type} [DecidableEq Tid] [Inhabited V] [Inhabited Tid] {cfg : Config}
  {t : Tid}

theorem hint_early {α : Type} {p : M V Tid α} (hp : Still p) (h : Handle) :
    (hintFlow V Tid cfg).wp t p (fun _ g => g = .early h) (.early h) :=
  wp_silent (fun _ _ hq => HintMove.early h hq) nofun hp

theorem hint_late {α : Type} {p : M V Tid α} (hp : Still p) (h : Handle) :
    (hintFlow V Tid cfg).wp t p (fun _ g => g = .late h) (.late h) :=
  wp_silent (fun _ _ hq => HintMove.late h hq) nofun hp

theorem hint_highWater (h : Handle) : (hintFlow V Tid cfg).wp t (highWater h.id)
    (fun _ g => g = .late h) (.tail h) := by
  refine wp_move_seq fun pos => ⟨_, .tail h pos, ?_⟩
  refine wp_move_seq fun c => ⟨_, .cached h pos c, ?_⟩
  refine wp_move_seq fun w => ⟨_, .high h pos c w, ?_⟩
  dsimp only
  split
  · exact wp_move fun _ => ⟨_, .store h _, rfl⟩
  · rfl

theorem hint_push (h : Handle) (v : V) : (hintFlow V Tid cfg).wp t (push cfg h v)
    (fun _ _ => True) (.early h) := by
  refine wp_move_seq fun acc => ⟨_, .early h rfl, ?_⟩
  cases acc with
  | false => trivial
  | true =>
    refine wp_seq (wp_mono (hint_early (still_attempt h v) h) fun ok g' he => ?_)
    subst he
    cases ok with
    | false => exact wp_move_seq fun _ => ⟨_, .early h rfl, trivial⟩
    | true =>
      refine wp_move_seq fun _ => ⟨_, .count h, ?_⟩
      refine wp_seq (wp_mono (hint_highWater h) fun _ g' he => ?_)
      subst he
      dsimp only
      split
      · exact wp_seq (wp_mono (hint_late (still_signal .push h.id) h) fun _ _ _ => trivial)
      · trivial

/-- Outside a push anything is done. -/
theorem hint_other {α : Type} {Q : α → Hint → Prop} (hQ : ∀ a, Q a .other) (p : M V Tid α) :
    (hintFlow V Tid cfg).wp t p Q .other :=
  wp_anything (F := hintFlow V Tid cfg) (g := .other) (fun a r => HintMove.other a r)
    (fun _ => rfl) (fun _ _ _ h => h) hQ p

variable (V Tid cfg) in
theorem hint_follows : (hintFlow V Tid cfg).Follows where
  code t c := by
    cases c with
    | push h v => exact hint_push h v
    | _ => exact hint_other (fun _ => trivial) _
  body t p g h := by
    obtain rfl : g = .other := h
    exact hint_other (V := V) (Q := fun _ g' => g' = .other) (fun _ => rfl) _

variable (V Tid cfg) in
theorem hinted_follows : (hintedFlow V Tid cfg).Follows :=
  (follows V Tid cfg).prod (hint_follows V Tid cfg)

/-! ## What is read stays so -/

/-- The two places of a thread are of one push. -/
structure Paired (g : Place V Tid × Hint) : Prop where
  hint : ∀ {k v}, g.1.role = .push k v → g.2.handle = some k
  push : ∀ {k}, g.2.handle = some k → ∃ v, g.1.role = .push k v

/-- What a thread knows of its slot when it records. -/
def HintAt (s : State V Tid) : Hint → Prop
  | .cached h t => t = (s.slot h.id).ring.tail
  | .high h t c => t = (s.slot h.id).ring.tail ∧ c = (s.slot h.id).ring.cachedHead
  | .store h d => d = (s.slot h.id).ring.tail - (s.slot h.id).ring.cachedHead ∧
      (s.slot h.id).highWater < d
  | _ => True

structure Hints (s : State V Tid) (γ : Tid → Place V Tid × Hint) : Prop where
  paired : ∀ t, Paired (γ t)
  at_ : ∀ t, HintAt s (γ t).2

/-- The slot whose tail, copy of the head or record is written. -/
def Act.touched : Act V Tid → Option Nat
  | .tailStore i _ | .headSee i | .highStore i _ => some i
  | _ => none

/-- The slot whose record begins, as it is registered. -/
def Act.resets : Act V Tid → Option Nat
  | .highStore i 0 => some i
  | _ => none

variable {s s' : State V Tid} {γ : Tid → Place V Tid × Hint} {a : Act V Tid} {n : Nat}
  {i : Nat}

omit [DecidableEq Tid] [Inhabited V] [Inhabited Tid] in
theorem Act.touched_of_resets (h : a.resets = some i) : a.touched = some i := by
  cases a with
  | highStore j d =>
    cases d with
    | zero => exact h
    | succ d => cases h
  | _ => cases h

/-- What a producer writes of its slot is the same. -/
def SameSide (s s' : State V Tid) (i : Nat) : Prop :=
  (s'.slot i).ring.tail = (s.slot i).ring.tail ∧
    (s'.slot i).ring.cachedHead = (s.slot i).ring.cachedHead ∧
    (s'.slot i).highWater = (s.slot i).highWater

omit [Inhabited V] [Inhabited Tid] in
theorem apply_untouched (h : a.touched ≠ some i) : SameSide s (apply cfg t a n s) i := by
  have hcomp : ∀ (j : Nat) (c : Slot V Tid), c.ring.tail = (s.slot j).ring.tail →
      c.ring.cachedHead = (s.slot j).ring.cachedHead → c.highWater = (s.slot j).highWater →
      SameSide s (s.setSlot j c) i := fun j c h1 h2 h3 =>
    ⟨setSlot_comp (fun c => c.ring.tail) j i c h1,
      setSlot_comp (fun c => c.ring.cachedHead) j i c h2, setSlot_comp Slot.highWater j i c h3⟩
  have hoff : ∀ {j : Nat} (c : Slot V Tid), i ≠ j → SameSide s (s.setSlot j c) i := by
    intro j c hj
    have hs : (s.setSlot j c).slot i = s.slot i := by rw [State.setSlot_slot, if_neg hj]
    exact ⟨by rw [hs], by rw [hs], by rw [hs]⟩
  cases a with
  | tailStore j pos | headSee j | highStore j d => exact hoff _ fun hj => h (congrArg some hj.symm)
  | stateCas j =>
    unfold apply
    dsimp only
    split
    · exact hcomp _ _ rfl rfl rfl
    · exact ⟨rfl, rfl, rfl⟩
  | stateStore j st => cases st <;> exact hcomp _ _ rfl rfl rfl
  | pushedAdd h | droppedAdd h | slotStore h pos v => exact hcomp _ _ rfl rfl rfl
  | pushedStore j | pushedSwap j | droppedStore j | droppedSwap j | tailSee site j
    | headStore j pos out => exact hcomp _ _ rfl rfl rfl
  | _ => exact ⟨rfl, rfl, rfl⟩

section
omit [DecidableEq Tid] [Inhabited V] [Inhabited Tid]

/-- Who writes them: a push into the slot, or the thread that registers it. -/
theorem Move.touches {r : Resp a} {g g' : Place V Tid} (hm : Move cfg g a r g')
    (h : a.touched = some i) : (∃ k v, g.role = .push k v ∧ k.id = i) ∨
      a = .highStore i 0 ∧ (g = .claimed i ∨ g = .vacant i) := by
  cases hm with
  | register hm =>
    cases hm with
    | vacantHigh j =>
      obtain rfl : j = i := Option.some.inj h
      exact .inr ⟨rfl, .inr rfl⟩
    | high j =>
      obtain rfl : j = i := Option.some.inj h
      exact .inr ⟨rfl, .inl rfl⟩
    | _ => cases h
  | push hm =>
    cases hm with
    | see k v pos c | publish k v pos | high k v d => exact .inl ⟨k, v, rfl, Option.some.inj h⟩
    | _ => cases h
  | life hm =>
    cases hm with
    | @waits a r hw => cases a <;> simp_all [Act.touched, halting]
    | _ => cases h
  | wake hm | scan hm | drain hm | reclaim hm | clear hm | park hm => cases hm <;> cases h

/-- While a slot is pushed into, nobody else writes them. -/
theorem Owners.touches {γ : Tid → Place V Tid} (h : Owners cfg s γ) (hc : Calls cfg s γ)
    {u : Tid} {k : Handle} {v : V} (hu : (γ u).role = .push k v) {r : Resp a} {g : Place V Tid}
    (hm : Move cfg (γ t) a r g) (ha : a.touched = some k.id) : t = u := by
  obtain ⟨-, ho, hst⟩ := h.pushing hc hu
  have hat := h.at_ t
  obtain ⟨k', v', hr, hk⟩ | ⟨-, hg | hg⟩ := hm.touches ha
  · exact h.one_pusher hc hu hr hk
  · rw [hg] at hat
    cases ho.symm.trans hat.1
  · rw [hg] at hat
    cases hst.symm.trans hat.2.2

theorem HintAt.congr {g : Hint} (h : HintAt s g) (hs : ∀ k, g.handle = some k → SameSide s s' k.id) :
    HintAt s' g := by
  cases g with
  | cached k t => exact h.trans (hs k rfl).1.symm
  | high k t c => exact ⟨h.1.trans (hs k rfl).1.symm, h.2.trans (hs k rfl).2.1.symm⟩
  | store k d =>
    obtain ⟨h1, h2, h3⟩ := hs k rfl
    simpa only [HintAt, h1, h2, h3] using h
  | _ => trivial

end

omit [Inhabited V] [Inhabited Tid] in
theorem HintMove.at_ {g g' : Hint} {r : Resp a} (hm : HintMove g a r g')
    (hr : r = reply cfg n s a) (h : HintAt s g) : HintAt (apply cfg t a n s) g' := by
  cases hm with
  | tail k pos => exact hr
  | cached k pos c => exact ⟨h, hr⟩
  | high k pos c w =>
    split
    · rename_i hlt
      obtain ⟨rfl, rfl⟩ := h
      have hw : w = (s.slot k.id).highWater := hr
      exact ⟨rfl, hw ▸ hlt⟩
    · trivial
  | _ => trivial

omit [DecidableEq Tid] [Inhabited V] [Inhabited Tid] in
theorem Paired.of_role {g g' : Place V Tid × Hint} (h : Paired g) (h1 : g'.1.role = g.1.role)
    (h2 : g'.2.handle = g.2.handle) : Paired g' :=
  ⟨fun hr => h2.trans (h.hint (h1 ▸ hr)), fun hk => by
    rw [h1]
    exact h.push (h2 ▸ hk)⟩

omit [DecidableEq Tid] [Inhabited V] [Inhabited Tid] in
theorem paired_start (c : Call V) : Paired ((startPlace c : Place V Tid), startHint c) := by
  cases c with
  | push k v => exact ⟨fun hr => by cases hr; rfl, fun hk => by cases hk; exact ⟨v, rfl⟩⟩
  | _ => exact ⟨nofun, nofun⟩

omit [Inhabited V] [Inhabited Tid] in
theorem Hints.move (h : Hints s γ) {γ₁ : Tid → Place V Tid} (hγ : γ₁ = fun u => (γ u).1)
    (hc : Calls cfg s γ₁) (ho : Owners cfg s γ₁) {r : Resp a} {g : Place V Tid × Hint}
    (hr : r = reply cfg n s a) (hm : Move cfg (γ t).1 a r g.1) (hh : HintMove (γ t).2 a r g.2) :
    Hints (apply cfg t a n s) (upd γ t g) := by
  subst hγ
  refine ⟨fun u => ?_, fun u => ?_⟩
  · by_cases hu : u = t
    · subst hu
      rw [upd_self]
      exact (h.paired u).of_role hm.role hh.handle
    · rw [upd_ne _ _ hu]
      exact h.paired u
  · by_cases hu : u = t
    · subst hu
      rw [upd_self]
      exact hh.at_ hr (h.at_ u)
    · rw [upd_ne _ _ hu]
      refine (h.at_ u).congr fun k hk => apply_untouched fun ha => hu ?_
      obtain ⟨v, hv⟩ := (h.paired u).push hk
      exact (ho.touches hc hv hm ha).symm

variable (V Tid cfg) in
theorem hints_keeps (ok : Tid → Act V Tid → State V Tid → Prop) :
    (hintedFlow V Tid cfg).Keeps ok Hints where
  init := ⟨fun _ => ⟨nofun, nofun⟩, fun _ => trivial⟩
  begin _ h t c hi he := by
    refine ⟨fun u => ?_, fun u => ?_⟩
    · by_cases hu : u = t
      · subst hu
        rw [upd_self]
        exact paired_start c
      · rw [upd_ne _ _ hu]
        exact h.paired u
    · by_cases hu : u = t
      · subst hu
        rw [upd_self]
        cases c <;> trivial
      · rw [upd_ne _ _ hu]
        exact (h.at_ u).congr fun k _ => ⟨by rw [begin_slot], by rw [begin_slot], by rw [begin_slot]⟩
  move hr h t a n s' r g _ hs hm := by
    obtain ⟨-, rfl, h2⟩ := sem_some cfg hs
    exact h.move rfl ((calls_keeps V Tid cfg _).reach hr.left)
      ((owners_keeps V Tid cfg _).reach hr.left) h2 hm.1 hm.2
  finish _ h t c r he := by
    refine ⟨fun u => ?_, fun u => ?_⟩
    · by_cases hu : u = t
      · subst hu
        rw [upd_self]
        exact ⟨nofun, nofun⟩
      · rw [upd_ne _ _ hu]
        exact h.paired u
    · by_cases hu : u = t
      · subst hu
        rw [upd_self]
        trivial
      · rw [upd_ne _ _ hu]
        exact (h.at_ u).congr fun k _ => ⟨by rw [finish_slot], by rw [finish_slot], by rw [finish_slot]⟩

/-! ## The writes of a record -/

omit [DecidableEq Tid] [Inhabited V] [Inhabited Tid] in
theorem Hints.stores (h : Hints s γ) {d : Nat} {r : Unit} {g : Place V Tid × Hint}
    (hm : Move cfg (γ t).1 (.highStore i d) r g.1)
    (hh : HintMove (γ t).2 (.highStore i d : Act V Tid) r g.2) :
    d = 0 ∨ ∃ k : Handle, k.id = i ∧ (γ t).2 = .store k d := by
  obtain ⟨k, v, hrole, -⟩ | ⟨ha, -⟩ := hm.touches rfl
  · have hk := (h.paired t).hint hrole
    generalize (γ t).2 = g₁ at hh hk ⊢
    generalize g.2 = g₂ at hh
    cases hh with
    | other => cases hk
    | store k' d => exact .inr ⟨k', rfl, rfl⟩
    | early k' hq | late k' hq => cases hq
  · cases ha
    exact .inl rfl

omit [Inhabited V] [Inhabited Tid] in
theorem apply_highWater (h : ∀ d, a ≠ .highStore i d) :
    ((apply cfg t a n s).slot i).highWater = (s.slot i).highWater := by
  by_cases ha : a.touched = some i
  · cases a with
    | highStore j d =>
      obtain rfl : j = i := Option.some.inj ha
      exact absurd rfl (h d)
    | tailStore j pos | headSee j => exact setSlot_comp Slot.highWater _ _ _ rfl
    | _ => cases ha
  · exact (apply_untouched ha).2.2

end
end Katas.Weir.Pipeline
