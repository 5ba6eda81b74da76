import Katas.Weir.PipelineHints
import Katas.Weir.PipelineReclaim

/-!
# The high water of the statistics

Any thread may call `stats` at any time; it reads the records of the slots one
after the other, and returns the greatest. A record is raised by the pushes of
the slot's handle, and set to zero when the slot is registered again, without
a trace of it elsewhere.
-/
namespace Katas.Weir.Pipeline
open Katas.Conc Flow

/-- A call of `stats`: the slot it reads next, and the greatest record so far.
Histories, of when it began: `seen`, the greatest depth that a push had
observed, and `given`, the greatest value that a call had returned.
mirrors mpsc-event-pipeline-kata/cpp/src/event_pipeline.hpp:133-149,
mpsc-event-pipeline-kata/go/internal/weir/pipeline.go:237-256,
mpsc-event-pipeline-kata/python/src/weir/event_pipeline.py:220-236 -/
structure Reading where
  next : Nat
  best : Nat
  seen : Nat
  given : Nat
  deriving DecidableEq

/-- mirrors mpsc-event-pipeline-kata/cpp/src/event_pipeline.hpp:139 -/
def Reading.load (r : Reading) (d : Nat) : Reading :=
  { r with next := r.next + 1, best := max r.best d }

section
variable {V Tid : Type}

/-- The depth that a push observes: what it stores, or what it finds no deeper
than the record. -/
def Act.observes (s : State V Tid) : Act V Tid → Nat
  | .highStore _ d => d
  | .highLoad i => min ((s.slot i).ring.tail - (s.slot i).ring.cachedHead) (s.slot i).highWater
  | _ => 0

end

section
variable (V Tid R : Type) [DecidableEq Tid] [DecidableEq R] [Inhabited V] [Inhabited Tid]
  (cfg : Config)

/-- The pipeline, the calls of `stats` that are on the way, and the two
histories. -/
structure Watch where
  config : System.Config (pipeline V Tid cfg)
  reading : R → Option Reading
  seen : Nat
  given : Nat

/-- A step of the pipeline, or of a thread in `stats`. -/
inductive Watching where
  | run (l : System.Label (pipeline V Tid cfg))
  | call (ρ : R)
  | load (ρ : R)
  | ret (ρ : R)

end

section
variable {V Tid R : Type} [DecidableEq Tid] [DecidableEq R] [Inhabited V] [Inhabited Tid]
  {cfg : Config}

def observed (x : System.Config (pipeline V Tid cfg)) :
    System.Label (pipeline V Tid cfg) → Nat
  | .invoke _ _ => 0
  | .step t _ => ((System.next x t).map (Act.observes x.state)).getD 0

/-- A call of `stats` that begins now. -/
def Watch.begins (w : Watch V Tid R cfg) : Reading := ⟨0, 0, w.seen, w.given⟩

def Watch.step (w : Watch V Tid R cfg) : Watching V Tid R cfg → Option (Watch V Tid R cfg)
  | .run l => (System.step w.config l).map fun x =>
    { w with config := x, seen := max w.seen (observed w.config l) }
  | .call ρ =>
    if w.reading ρ = none then some { w with reading := upd w.reading ρ (some w.begins) } else none
  | .load ρ => (w.reading ρ).bind fun r =>
    if r.next < cfg.producers then
      some { w with
        reading := upd w.reading ρ (some (r.load (w.config.state.slot r.next).highWater)) }
    else none
  | .ret ρ => (w.reading ρ).bind fun r =>
    if r.next = cfg.producers then
      some { w with reading := upd w.reading ρ none, given := max w.given r.best }
    else none

variable (V Tid R cfg) in
def watched : LTS (Watch V Tid R cfg) (Watching V Tid R cfg) where
  init w := w = ⟨System.start _, fun _ => none, 0, 0⟩
  step w l w' := w.step l = some w'

/-- The reading has found a record as deep as any push had observed when it
began, or comes to one. -/
def Reading.Finds (cfg : Config) (s : State V Tid) (r : Reading) : Prop :=
  r.seen ≤ r.best ∨ ∃ j, j < cfg.producers ∧ r.next ≤ j ∧ r.seen ≤ (s.slot j).highWater

/-- The same, without slot `i`. -/
def Reading.FindsOff (cfg : Config) (s : State V Tid) (i : Nat) (r : Reading) : Prop :=
  r.seen ≤ r.best ∨ ∃ j, j < cfg.producers ∧ r.next ≤ j ∧ j ≠ i ∧ r.seen ≤ (s.slot j).highWater

/-- A record is set to zero only if neither a call of `stats` on the way nor one
that begins now needs it. -/
def resetsSpare (w : Watch V Tid R cfg) : Watching V Tid R cfg → Prop
  | .run (.step t _) => ∀ a i, System.next w.config t = some a → a.resets = some i →
    w.begins.FindsOff cfg w.config.state i ∧
      ∀ ρ r, w.reading ρ = some r → r.FindsOff cfg w.config.state i
  | _ => True

/-! ## What a step does to the records -/

/-- A push raises the record of a slot, and only a registration lowers it. -/
theorem raises {x : System.Config (pipeline V Tid cfg)} (hx : (pipeline V Tid cfg).Reachable x)
    {t : Tid} {i d : Nat} (ha : System.AtOp x t (.highStore i d)) :
    d = 0 ∨ i < cfg.producers ∧ (x.state.slot i).highWater < d := by
  obtain ⟨γ, hγ, hst⟩ := (hinted_follows V Tid cfg).stands hx.reachableIf
  have hh := (hints_keeps V Tid cfg _).reach hγ
  obtain ⟨g, hm⟩ := (hst t).move ha ()
  obtain h0 | ⟨k, rfl, hk⟩ := hh.stores hm.1 hm.2
  · exact .inl h0
  · obtain ⟨v, hv⟩ := (hh.paired t).push (k := k) (by rw [hk]; rfl)
    have hc := (calls_keeps V Tid cfg _).reach hγ.left
    have hb := (bounds_keeps V Tid cfg _).reach hγ.left
    have hat := hh.at_ t
    rw [hk] at hat
    exact .inr ⟨hb.handles _ _ (hc.pushing t k v (hc.push hv)).2, hat.2⟩

/-- The three kinds of steps. -/
inductive Records (x x' : System.Config (pipeline V Tid cfg)) :
    System.Label (pipeline V Tid cfg) → Nat → Prop
  | same {l : System.Label (pipeline V Tid cfg)} {d i : Nat} :
      (∀ j, (x'.state.slot j).highWater = (x.state.slot j).highWater) →
      d ≤ (x.state.slot i).highWater → Records x x' l d
  | raise {l : System.Label (pipeline V Tid cfg)} {d i : Nat} : i < cfg.producers →
      (x.state.slot i).highWater < d → (x'.state.slot i).highWater = d →
      (∀ j, j ≠ i → (x'.state.slot j).highWater = (x.state.slot j).highWater) → Records x x' l d
  | reset {t : Tid} {n i : Nat} {a : Act V Tid} : System.next x t = some a → a.resets = some i →
      (x'.state.slot i).highWater = 0 →
      (∀ j, j ≠ i → (x'.state.slot j).highWater = (x.state.slot j).highWater) →
      Records x x' (.step t n) 0

theorem record_step {x x' : System.Config (pipeline V Tid cfg)}
    (hx : (pipeline V Tid cfg).Reachable x) {l : System.Label (pipeline V Tid cfg)}
    (hs : System.step x l = some x') : Records x x' l (observed x l) := by
  obtain ⟨t, a, n, r, rfl, hat, hsem⟩ | ⟨hl, hs⟩ := System.step_acts hs
  · have hn := System.atOp_iff.mp hat
    have hob : observed x (.step t n) = a.observes x.state := by
      unfold observed
      dsimp only
      rw [hn]
      rfl
    obtain ⟨-, h1, -⟩ := sem_some cfg hsem
    rw [hob]
    by_cases ha : ∃ i d, a = .highStore i d
    · obtain ⟨i, d, rfl⟩ := ha
      have hself : (x'.state.slot i).highWater = d := by
        rw [h1]
        simp only [apply, State.setSlot_slot, if_true]
      have hoff : ∀ j, j ≠ i → (x'.state.slot j).highWater = (x.state.slot j).highWater := by
        intro j hj
        rw [h1]
        exact apply_highWater fun d' he => hj (by cases he; rfl)
      obtain rfl | ⟨hi, hlt⟩ := raises hx hat
      · exact .reset hn rfl hself hoff
      · exact .raise hi hlt hself hoff
    · have hsame : ∀ j, (x'.state.slot j).highWater = (x.state.slot j).highWater := by
        intro j
        rw [h1]
        exact apply_highWater fun d he => ha ⟨j, d, he⟩
      cases a with
      | highStore i d => exact absurd ⟨i, d, rfl⟩ ha
      | highLoad i => exact .same (i := i) hsame (Nat.min_le_right _ _)
      | _ => exact .same (i := 0) hsame (Nat.zero_le _)
  · have hob : observed x l = 0 := by
      cases l with
      | invoke t c => rfl
      | step t n =>
        unfold observed
        dsimp only
        rw [hl t n rfl]
        rfl
    rw [hob]
    have hslot : x'.state.slot = x.state.slot := by
      obtain hs | ⟨t, c, hs⟩ | ⟨t, c, r, hs⟩ := hs
      · rw [hs]
      · rw [hs]; exact begin_slot
      · rw [hs]; exact finish_slot
    exact .same (i := 0) (fun j => by rw [hslot]) (Nat.zero_le _)

/-! ## What a reading finds -/

variable {s s' : State V Tid} {r : Reading} {w w' : Watch V Tid R cfg} {i : Nat} {ρ : R}

section
omit [DecidableEq Tid] [Inhabited V] [Inhabited Tid]

theorem Reading.Finds.mono (h : r.Finds cfg s)
    (hs : ∀ j, (s.slot j).highWater ≤ (s'.slot j).highWater) : r.Finds cfg s' := by
  obtain h | ⟨j, hj, hn, hle⟩ := h
  · exact .inl h
  · exact .inr ⟨j, hj, hn, Nat.le_trans hle (hs j)⟩

theorem Reading.FindsOff.finds (h : r.FindsOff cfg s i)
    (hs : ∀ j, j ≠ i → (s'.slot j).highWater = (s.slot j).highWater) : r.Finds cfg s' := by
  obtain h | ⟨j, hj, hn, hne, hle⟩ := h
  · exact .inl h
  · exact .inr ⟨j, hj, hn, Nat.le_trans hle (Nat.le_of_eq (hs j hne).symm)⟩

/-- What it comes to next it has then found. -/
theorem Reading.Finds.load (h : r.Finds cfg s) :
    (r.load (s.slot r.next).highWater).Finds cfg s := by
  obtain h | ⟨j, hj, hn, hle⟩ := h
  · exact .inl (Nat.le_trans h (Nat.le_max_left _ _))
  · by_cases hjn : j = r.next
    · subst hjn
      exact .inl (Nat.le_trans hle (Nat.le_max_right _ _))
    · exact .inr ⟨j, hj, by show r.next + 1 ≤ j; omega, hle⟩

/-- At its end it has found it. -/
theorem Reading.Finds.ends (h : r.Finds cfg s) (hn : r.next = cfg.producers) : r.seen ≤ r.best := by
  obtain h | ⟨j, hj, hle, -⟩ := h
  · exact h
  · omega

end

/-! ## The invariant -/

structure Watches (w : Watch V Tid R cfg) : Prop where
  config : (pipeline V Tid cfg).Reachable w.config
  begins : w.begins.Finds cfg w.config.state
  finds : ∀ ρ r, w.reading ρ = some r → r.Finds cfg w.config.state
  records : ∀ i, (w.config.state.slot i).highWater ≤ w.seen
  best : ∀ ρ r, w.reading ρ = some r → r.best ≤ w.seen ∧ r.given ≤ r.seen
  given : w.given ≤ w.seen

omit [DecidableEq R] in
theorem Watches.run (h : Watches w) {l : System.Label (pipeline V Tid cfg)}
    (hok : resetsSpare w (.run l)) {x : System.Config (pipeline V Tid cfg)}
    (hs : System.step w.config l = some x) :
    Watches { w with config := x, seen := max w.seen (observed w.config l) } := by
  have hr := record_step h.config hs
  generalize observed w.config l = d at hr ⊢
  have hbest : ∀ ρ r, w.reading ρ = some r → r.best ≤ max w.seen d ∧ r.given ≤ r.seen :=
    fun ρ r he => ⟨Nat.le_trans (h.best ρ r he).1 (Nat.le_max_left _ _), (h.best ρ r he).2⟩
  have hgiven : w.given ≤ max w.seen d := Nat.le_trans h.given (Nat.le_max_left _ _)
  have hx := h.config.step hs
  cases hr with
  | @same _ _ i hsame hd =>
    have hseen : max w.seen d = w.seen := Nat.max_eq_left (Nat.le_trans hd (h.records i))
    have hmono := fun j => Nat.le_of_eq (hsame j).symm
    refine ⟨hx, ?_, fun ρ r he => (h.finds ρ r he).mono hmono, fun j => ?_, hbest, hgiven⟩
    · show Reading.Finds cfg x.state ⟨0, 0, max w.seen d, w.given⟩
      rw [hseen]
      exact h.begins.mono hmono
    · show _ ≤ max w.seen d
      rw [hseen, hsame]
      exact h.records j
  | @raise _ _ i hi hlt hself hoff =>
    have hmono : ∀ j, (w.config.state.slot j).highWater ≤ (x.state.slot j).highWater := by
      intro j
      by_cases hj : j = i
      · subst hj; omega
      · exact Nat.le_of_eq (hoff j hj).symm
    refine ⟨hx, ?_, fun ρ r he => (h.finds ρ r he).mono hmono, fun j => ?_, hbest, hgiven⟩
    · show Reading.Finds cfg x.state ⟨0, 0, max w.seen d, w.given⟩
      obtain hle | hle := Nat.le_total w.seen d
      · -- the depth is the greatest so far
        refine .inr ⟨i, hi, Nat.zero_le _, ?_⟩
        exact Nat.le_of_eq (by rw [hself, Nat.max_eq_right hle])
      · rw [Nat.max_eq_left hle]
        exact h.begins.mono hmono
    · show _ ≤ max w.seen d
      by_cases hj : j = i
      · subst hj
        rw [hself]
        exact Nat.le_max_right _ _
      · rw [hoff j hj]
        exact Nat.le_trans (h.records j) (Nat.le_max_left _ _)
  | @reset t n i a hn ha hself hoff =>
    obtain ⟨hb, hreads⟩ := hok a i hn ha
    refine ⟨hx, ?_, fun ρ r he => (hreads ρ r he).finds hoff, fun j => ?_, hbest, hgiven⟩
    · show Reading.Finds cfg x.state ⟨0, 0, max w.seen 0, w.given⟩
      rw [Nat.max_zero]
      exact hb.finds hoff
    · show _ ≤ max w.seen 0
      rw [Nat.max_zero]
      by_cases hj : j = i
      · subst hj
        rw [hself]
        exact Nat.zero_le _
      · rw [hoff j hj]
        exact h.records j

omit [DecidableEq R] in
/-- A step of `stats`. -/
theorem Watches.reads (h : Watches w) {f : R → Option Reading} {m : Nat}
    (hf : ∀ ρ r, f ρ = some r →
      r.Finds cfg w.config.state ∧ r.best ≤ w.seen ∧ r.given ≤ r.seen) (hm : m ≤ w.seen) :
    Watches { w with reading := f, given := m } where
  config := h.config
  begins := h.begins
  finds ρ r he := (hf ρ r he).1
  records := h.records
  best ρ r he := (hf ρ r he).2
  given := hm

theorem Watches.of_upd (h : Watches w) {o : Option Reading}
    (ho : ∀ r, o = some r → r.Finds cfg w.config.state ∧ r.best ≤ w.seen ∧ r.given ≤ r.seen)
    (ρ' : R) (r : Reading) (he : upd w.reading ρ o ρ' = some r) :
    r.Finds cfg w.config.state ∧ r.best ≤ w.seen ∧ r.given ≤ r.seen := by
  by_cases hρ : ρ' = ρ
  · subst hρ
    rw [upd_self] at he
    exact ho r he
  · rw [upd_ne _ _ hρ] at he
    exact ⟨h.finds ρ' r he, h.best ρ' r he⟩

variable (V Tid R cfg) in
theorem watches_inductive :
    ((watched V Tid R cfg).restrict resetsSpare).Inductive (Watches (R := R)) where
  init w hw := by
    subst hw
    exact ⟨⟨_, [], rfl, .nil _⟩, .inl (Nat.le_refl 0), fun _ _ h => (by cases h),
      fun _ => Nat.le_refl 0, fun _ _ h => (by cases h),
      Nat.le_refl 0⟩
  step w l w' h hs := by
    obtain ⟨hok, hs⟩ := hs
    replace hs : w.step l = some w' := hs
    cases l with
    | run l =>
      obtain ⟨x, hx, rfl⟩ := Option.map_eq_some_iff.mp hs
      exact h.run hok hx
    | call ρ =>
      simp only [Watch.step] at hs
      split at hs
      · cases hs
        refine h.reads (h.of_upd fun r hr => ?_) h.given
        cases hr
        exact ⟨h.begins, Nat.zero_le _, h.given⟩
      · cases hs
    | load ρ =>
      obtain ⟨r, hr, hs⟩ := Option.bind_eq_some_iff.mp hs
      split at hs
      · cases hs
        refine h.reads (h.of_upd fun r' hr' => ?_) h.given
        cases hr'
        obtain ⟨hbest, hgiven⟩ := h.best ρ r hr
        exact ⟨(h.finds ρ r hr).load, Nat.max_le.mpr ⟨hbest, h.records _⟩, hgiven⟩
      · cases hs
    | ret ρ =>
      obtain ⟨r, hr, hs⟩ := Option.bind_eq_some_iff.mp hs
      split at hs
      · cases hs
        exact h.reads (h.of_upd (fun _ h => by cases h)) (Nat.max_le.mpr ⟨h.given, (h.best ρ r hr).1⟩)
      · cases hs

/-- In a run whose resets spare the deepest record, a call of `stats` returns
at least what earlier calls returned, and at least every depth that a push had
observed when it began. -/
theorem high_water_never_forgets
    (hw : ((watched V Tid R cfg).restrict resetsSpare).Reachable w)
    (hr : w.reading ρ = some r) (hn : r.next = cfg.producers) :
    r.given ≤ r.best ∧ r.seen ≤ r.best := by
  have h := (watches_inductive V Tid R cfg).reachable w hw
  have hseen := (h.finds ρ r hr).ends hn
  exact ⟨Nat.le_trans (h.best ρ r hr).2 hseen, hseen⟩

end
/-! ## Three threads, and one that reads -/

abbrev threeWatched : LTS (Watch Nat (Fin 3) Unit (.standard .cpp .bitmap))
    (Watching Nat (Fin 3) Unit (.standard .cpp .bitmap)) :=
  watched Nat (Fin 3) Unit (.standard .cpp .bitmap)

/-- `stats`, up to its return. -/
def reads : List (Watching Nat (Fin 3) Unit (.standard .cpp .bitmap)) :=
  .call () :: List.replicate 64 (.load ())

instance (s : State Nat (Fin 3)) (i : Nat) (r : Reading) :
    Decidable (r.FindsOff (.standard .cpp .bitmap) s i) := by
  unfold Reading.FindsOff
  infer_instance

/-- The test of `resetsSpare`. -/
def spares (w : Watch Nat (Fin 3) Unit (.standard .cpp .bitmap)) :
    Watching Nat (Fin 3) Unit (.standard .cpp .bitmap) → Bool
  | .run (.step t _) => (System.next w.config t).all fun a => a.resets.all fun i =>
    decide (w.begins.FindsOff (.standard .cpp .bitmap) w.config.state i) &&
      (w.reading ()).all fun r => decide (r.FindsOff (.standard .cpp .bitmap) w.config.state i)
  | _ => true

theorem of_spares {w : Watch Nat (Fin 3) Unit (.standard .cpp .bitmap)}
    {l : Watching Nat (Fin 3) Unit (.standard .cpp .bitmap)} (h : spares w l = true) :
    resetsSpare w l := by
  cases l with
  | run l =>
    cases l with
    | invoke t c => trivial
    | step t n =>
      intro a i ha hi
      simp only [spares, ha, hi, Option.all_some, Bool.and_eq_true, decide_eq_true_eq] at h
      refine ⟨h.1, fun ρ r hr => ?_⟩
      have hall := h.2
      rw [hr, Option.all_some] at hall
      exact of_decide_eq_true hall
  | _ => trivial

/-- The test of what a call of `stats` returns. -/
def returns (q : Reading → Bool) (w : Watch Nat (Fin 3) Unit (.standard .cpp .bitmap)) : Bool :=
  (w.reading ()).any fun r => decide (r.next = 64) && q r

theorem of_returns {q : Reading → Bool} {w : Watch Nat (Fin 3) Unit (.standard .cpp .bitmap)}
    (h : returns q w = true) : ∃ r, w.reading () = some r ∧ r.next = 64 ∧ q r = true := by
  unfold returns at h
  cases hr : w.reading () with
  | none => rw [hr] at h; cases h
  | some r =>
    rw [hr, Option.any_some, Bool.and_eq_true, decide_eq_true_eq] at h
    exact ⟨r, rfl, h⟩

/-- A thread pushes and registers again; then `stats`. -/
def readsOnce : List (Watching Nat (Fin 3) Unit (.standard .cpp .bitmap)) :=
  (does (.standard .cpp .bitmap) (0 : Fin 3) .start 4 ++ does _ 1 .register 5 ++
    does _ 1 (.push ⟨0, 0⟩ 7) 14 ++ does _ 1 .register 6).map .run ++ reads

theorem high_water_never_forgets_two : ∃ w r,
    (threeWatched.restrict resetsSpare).Reachable w ∧ w.reading () = some r ∧ r.next = 64 ∧
      r.seen = 1 ∧ r.seen ≤ r.best := by
  obtain ⟨w, hw, hp⟩ := LTS.reachable_of_foldlM (T := threeWatched.restrict resetsSpare)
    (f := fun w l => if spares w l then w.step l else none)
    (fun w l w' h => by
      split at h
      · rename_i hl
        exact ⟨of_spares hl, h⟩
      · cases h) rfl readsOnce (returns fun r => decide (r.seen = 1)) (by decide +kernel)
  obtain ⟨r, hr, hn, hseen⟩ := of_returns hp
  exact ⟨w, r, hw, hr, hn, of_decide_eq_true hseen, (high_water_never_forgets hw hr hn).2⟩

/-- A producer pushes, `stats` is read, the producer retires and its slot is
reclaimed and registered again; then `stats`. -/
def readsTwice : List (Watching Nat (Fin 3) Unit (.standard .cpp .bitmap)) :=
  (does (.standard .cpp .bitmap) (0 : Fin 3) .start 4 ++ does _ 1 .register 5 ++
    does _ 1 (.push ⟨0, 0⟩ 7) 14).map .run ++ reads ++ .ret () ::
  (does (.standard .cpp .bitmap) (1 : Fin 3) (.retire ⟨0, 0⟩) 7 ++ does _ 2 .consume 37 ++
    does _ 1 .register 5).map .run ++ reads

/-- The second call of `stats` returns less than the first. -/
theorem high_water_forgotten : ∃ w r, threeWatched.Reachable w ∧ w.reading () = some r ∧
    r.next = 64 ∧ r.given = 1 ∧ r.best = 0 := by
  obtain ⟨w, hw, hp⟩ := LTS.reachable_of_foldlM (T := threeWatched) (f := Watch.step)
    (fun _ _ _ h => h) rfl readsTwice
    (returns fun r => decide (r.given = 1) && decide (r.best = 0)) (by decide +kernel)
  obtain ⟨r, hr, hn, hq⟩ := of_returns hp
  rw [Bool.and_eq_true, decide_eq_true_eq, decide_eq_true_eq] at hq
  exact ⟨w, r, hw, hr, hn, hq.1, hq.2⟩

end Katas.Weir.Pipeline
