import Katas.Weir.PipelineHints

/-!
# How deep a ring has been

The record of a slot against two histories: the greatest occupancy its ring
has had since the record began, and the greatest depth by the producer's own
copy of the head. A push reports the depth by that copy, which it refreshes
only when the ring looks full; so the record is never beyond the second, and
beyond the first only after a publication that raises it by a copy that is out
of date (`copyCurrent`).
-/
namespace Katas.Weir.Pipeline
open Katas.Conc Flow

/-- Since the record of slot `i` began, the greatest occupancy of its ring
(`deep i`) and the greatest depth its producer saw as it published (`seen i`). -/
structure DepthHistory where
  deep : Nat → Nat
  seen : Nat → Nat

section
variable {V Tid : Type}

/-- The true occupancy of ring `i`. -/
def State.occupancy (s : State V Tid) (i : Nat) : Nat :=
  (s.slot i).ring.tail - (s.slot i).ring.head

/-- The depth a publication makes, by the producer's copy of the head. -/
def Act.depth (a : Act V Tid) (s : State V Tid) (i : Nat) : Nat :=
  match a with
  | .tailStore j pos => if j = i then pos - (s.slot i).ring.cachedHead else 0
  | _ => 0

def noteDepths (_ : Tid) (a : Act V Tid) (s s' : State V Tid) (w : DepthHistory) :
    DepthHistory where
  deep i := if a.resets = some i then s'.occupancy i else max (w.deep i) (s'.occupancy i)
  seen i := if a.resets = some i then 0 else max (w.seen i) (a.depth s i)

/-- At a publication that is to raise the record: the producer's copy of the head
is current, the consumer has taken nothing since the copy was refreshed. -/
def copyCurrent (_ : Tid) (a : Act V Tid) (s : State V Tid × DepthHistory) : Prop :=
  match a with
  | .tailStore i pos => (s.1.slot i).highWater < pos - (s.1.slot i).ring.cachedHead →
      (s.1.slot i).ring.cachedHead = (s.1.slot i).ring.head
  | _ => True

end

section
variable (V Tid : Type) [DecidableEq Tid] [Inhabited V] [Inhabited Tid] (cfg : Config)

/-- The pipeline, and how deep its rings have been. -/
abbrev withDepths : System :=
  (pipeline V Tid cfg).client (.watch _ (⟨fun _ => 0, fun _ => 0⟩ : DepthHistory) noteDepths)

abbrev depthsFlow : Flow (withDepths V Tid cfg) := (hintedFlow V Tid cfg).client _

end

section
variable {V Tid : Type} [DecidableEq Tid] [Inhabited V] [Inhabited Tid] {cfg : Config}
  {s s' : State V Tid} {γ : Tid → Place V Tid × Hint} {t : Tid} {a : Act V Tid} {n i : Nat}
  {w w' : DepthHistory} {p : DepthHistory → Nat → Nat}

/-! ## The reporting push -/

/-- Counted, or about to be, and not recorded yet. -/
def Hint.reads : Hint → Option Handle
  | .tail h | .cached h _ | .high h _ _ | .store h _ => some h
  | _ => none

def Reports (g : Place V Tid × Hint) (k : Handle) : Prop :=
  (∃ v, g.1 = .published k v) ∨ g.2.reads = some k

theorem Hint.reads_handle {g : Hint} {k : Handle} (h : g.reads = some k) : g.handle = some k := by
  cases g with
  | other | early | late => cases h
  | _ => exact h

section
omit [DecidableEq Tid] [Inhabited V] [Inhabited Tid]

theorem Reports.role {g : Place V Tid × Hint} {k : Handle} (h : Reports g k) (hp : Paired g) :
    ∃ v, g.1.role = .push k v := by
  obtain ⟨v, hv⟩ | hr := h
  · exact ⟨v, by rw [hv]; rfl⟩
  · exact hp.push (Hint.reads_handle hr)

theorem Move.to_published {r : Resp a} {g : Place V Tid} {k : Handle} {v : V}
    (hm : Move cfg g a r (.published k v)) :
    ∃ pos, g = .publishes k v pos ∧ a = .tailStore k.id (pos + 1) := by
  have hrole : g.role = .push k v := hm.role.symm
  generalize hg : Place.published k v = g' at hm
  cases hm with
  | push hm =>
    cases hm with
    | publish k' v' pos => cases hg; exact ⟨pos, rfl, rfl⟩
    | accepting | cached | see | set | pending => split at hg <;> cases hg
    | test w b | mind w b => cases b <;> cases hg
    | _ => cases hg
  | wake hm =>
    cases hm with
    | lock | notify => cases hg
    | unlock k' | send k' => cases k' <;> cases hg
  | scan hm => cases hm <;> first | cases hrole | cases hg
  | life hm | register hm | drain hm | reclaim hm | clear hm | park hm => cases hm <;> cases hrole

theorem Move.publishes {pos : Nat} {r : Unit} {g g' : Place V Tid}
    (hm : Move cfg g (.tailStore i pos) r g') :
    ∃ k v p, g = .publishes k v p ∧ i = k.id ∧ pos = p + 1 := by
  cases hm with
  | push hm => cases hm with | publish k v p => exact ⟨k, v, p, rfl, rfl, rfl⟩
  | life hm => cases hm with | waits hw => cases hw
  | wake hm | register hm | scan hm | drain hm | reclaim hm | clear hm | park hm => cases hm

theorem Move.counts {r : Unit} {g g' : Place V Tid} {k : Handle}
    (hm : Move cfg g (.pushedAdd k) r g') : ∃ v, g = .published k v := by
  cases hm with
  | push hm => cases hm with | count k v => exact ⟨v, rfl⟩
  | life hm => cases hm with | waits hw => cases hw
  | wake hm | register hm | scan hm | drain hm | reclaim hm | clear hm | park hm => cases hm

/-- A push that reports has published, or reported before. -/
theorem reports_move {r : Resp a} {g g' : Place V Tid × Hint} {k : Handle}
    (hm : Move cfg g.1 a r g'.1) (hh : HintMove g.2 a r g'.2) (h : Reports g' k) :
    (Reports g k ∧ a.touched = none) ∨
      ∃ v pos, g.1 = .publishes k v pos ∧ a = .tailStore k.id (pos + 1) := by
  obtain ⟨g₁, g₂⟩ := g
  obtain ⟨g₁', g₂'⟩ := g'
  obtain ⟨v, hv⟩ | hr := h
  · obtain rfl : g₁' = .published k v := hv
    obtain ⟨pos, hg, ha⟩ := hm.to_published
    exact .inr ⟨v, pos, hg, ha⟩
  · dsimp only at hm hh hr
    cases hh with
    | count k' =>
      obtain rfl : k' = k := Option.some.inj hr
      exact .inl ⟨.inl hm.counts, rfl⟩
    | tail | cached => exact .inl ⟨.inr hr, rfl⟩
    | high k' pos c w =>
      refine .inl ⟨.inr ?_, rfl⟩
      split at hr
      · exact hr
      · cases hr
    | other | early | store | late => cases hr

end

/-! ## No record is beyond -/

/-- `p` bounds the records, and what the pushes are about to report. -/
structure Marks (p : DepthHistory → Nat → Nat) (s : State V Tid × DepthHistory)
    (γ : Tid → Place V Tid × Hint) : Prop where
  record : ∀ i, (s.1.slot i).highWater ≤ p s.2 i
  reports : ∀ t k, Reports (γ t) k →
    (s.1.slot k.id).ring.tail - (s.1.slot k.id).ring.cachedHead ≤ p s.2 k.id

section
omit [Inhabited V] [Inhabited Tid]

/-- What another thread does leaves a reporting push as it was. -/
theorem Marks.kept (h : Marks p (s, w) γ) (hgrow : ∀ i, a.resets ≠ some i → p w i ≤ p w' i)
    {u : Tid}
    {k : Handle} (hr : Reports (γ u) k) (ha : a.touched ≠ some k.id) :
    ((apply cfg t a n s).slot k.id).ring.tail - ((apply cfg t a n s).slot k.id).ring.cachedHead ≤
      p w' k.id := by
  obtain ⟨h1, h2, -⟩ : SameSide s (apply cfg t a n s) k.id := apply_untouched ha
  rw [h1, h2]
  exact Nat.le_trans (h.reports u k hr) (hgrow _ fun hz => ha (Act.touched_of_resets hz))

theorem Marks.records (h : Marks p (s, w) γ) (hgrow : ∀ i, a.resets ≠ some i → p w i ≤ p w' i)
    (hh : Hints s γ) {r : Resp a} {g : Place V Tid × Hint} (hm : Move cfg (γ t).1 a r g.1)
    (hg : HintMove (γ t).2 a r g.2) : ((apply cfg t a n s).slot i).highWater ≤ p w' i := by
  by_cases ha : ∃ d, a = .highStore i d
  · obtain ⟨d, rfl⟩ := ha
    have hw : ((apply cfg t (.highStore i d) n s).slot i).highWater = d := by
      simp only [apply, State.setSlot_slot, if_true]
    rw [hw]
    obtain rfl | ⟨k, rfl, hk⟩ := hh.stores hm hg
    · exact Nat.zero_le _
    · have hrep := h.reports t k (.inr (by rw [hk]; rfl))
      have hat := hh.at_ t
      rw [hk] at hat
      obtain ⟨rfl, hlt⟩ := hat
      refine Nat.le_trans hrep (hgrow _ ?_)
      obtain ⟨m, hm⟩ := Nat.exists_eq_succ_of_ne_zero (Nat.ne_zero_of_lt hlt)
      rw [hm]
      intro h; cases h
  · have hne : ∀ d, a ≠ .highStore i d := fun d hd => ha ⟨d, hd⟩
    rw [apply_highWater hne]
    refine Nat.le_trans (h.record i) (hgrow _ fun hz => ?_)
    cases a with
    | highStore j d => exact hne d (by rw [Option.some.inj (Act.touched_of_resets hz)])
    | _ => cases hz

theorem Marks.move (h : Marks p (s, w) γ) (hgrow : ∀ i, a.resets ≠ some i → p w i ≤ p w' i)
    (hpub : ∀ i pos, a = .tailStore i pos → pos - (s.slot i).ring.cachedHead ≤ p w' i)
    (hh : Hints s γ) {γ₁ : Tid → Place V Tid} (hγ : γ₁ = fun u => (γ u).1) (hc : Calls cfg s γ₁)
    (ho : Owners cfg s γ₁) {r : Resp a} {g : Place V Tid × Hint} (hm : Move cfg (γ t).1 a r g.1)
    (hg : HintMove (γ t).2 a r g.2) : Marks p (apply cfg t a n s, w') (upd γ t g) := by
  subst hγ
  refine ⟨fun i => h.records hgrow hh hm hg, fun u k hu => ?_⟩
  by_cases hut : u = t
  · subst hut
    rw [upd_self] at hu
    obtain ⟨hr, ha⟩ | ⟨v, pos, -, rfl⟩ := reports_move hm hg hu
    · exact h.kept hgrow hr (by rw [ha]; nofun)
    · have hring : ((apply cfg u (.tailStore k.id (pos + 1)) n s).slot k.id).ring =
          { (s.slot k.id).ring.publish ((s.slot k.id).ring.slot
              ((s.slot k.id).ring.tail % cfg.capacity)) with tail := pos + 1 } := by
        simp only [apply, State.setRing_ring, if_true]
      rw [hring]
      exact hpub k.id (pos + 1) rfl
  · rw [upd_ne _ _ hut] at hu
    obtain ⟨v, hv⟩ := hu.role (hh.paired u)
    exact h.kept hgrow hu fun ha => hut (ho.touches hc hv hm ha).symm

theorem Marks.turns (h : Marks p (s, w) γ) (hs : s'.slot = s.slot) {g : Place V Tid × Hint}
    (hg : ∀ k, ¬ Reports g k) : Marks p (s', w) (upd γ t g) := by
  refine ⟨fun i => by rw [hs]; exact h.record i, fun u k hu => ?_⟩
  dsimp only
  rw [hs]
  by_cases hut : u = t
  · subst hut
    rw [upd_self] at hu
    exact absurd hu (hg k)
  · rw [upd_ne _ _ hut] at hu
    exact h.reports u k hu

end

/-- What grows but at a reset, and takes the depths of the publications, is
never below the records. -/
theorem marks_keep {ok : Tid → Act V Tid → State V Tid × DepthHistory → Prop}
    (hinit : ∀ i, 0 ≤ p ⟨fun _ => 0, fun _ => 0⟩ i)
    (hgrow : ∀ (t : Tid) (a : Act V Tid) s s' w i, a.resets ≠ some i →
      p w i ≤ p (noteDepths t a s s' w) i)
    (hpub : ∀ t i pos n (s : State V Tid) w, ok t (.tailStore i pos) (s, w) →
      (s.slot i).highWater ≤ p w i → pos - (s.slot i).ring.cachedHead ≤
        p (noteDepths t (.tailStore i pos) s (apply cfg t (.tailStore i pos) n s) w) i) :
    (depthsFlow V Tid cfg).Keeps ok (Marks p) where
  init := ⟨fun i => hinit i, fun t k h => by
    obtain ⟨v, hv⟩ | hr := h
    · cases hv
    · cases hr⟩
  begin _ h t c hi he := by
    refine h.turns (begin_slot) fun k hk => ?_
    obtain ⟨v, hv⟩ | hr := hk
    · cases c <;> cases hv
    · cases c <;> cases hr
  move hr h t a n s' r g hok hs hm := by
    obtain ⟨o, ho, he⟩ := Option.map_eq_some_iff.mp hs
    cases he
    obtain ⟨-, h1, h2⟩ := sem_some cfg ho
    have hr := hr.of_client
    rw [h1]
    refine h.move (fun i hi => hgrow t a _ _ _ i hi) (fun i pos ha => ?_)
      ((hints_keeps V Tid cfg _).reach hr) rfl ((calls_keeps V Tid cfg _).reach hr.left)
      ((owners_keeps V Tid cfg _).reach hr.left) hm.1 hm.2
    subst ha
    exact hpub t i pos n _ _ hok (h.record i)
  finish _ h t c r he := by
    refine h.turns (finish_slot) fun k hk => ?_
    obtain ⟨v, hv⟩ | hr := hk
    · cases hv
    · cases hr

/-! ## Both histories -/

variable (V Tid cfg) in
theorem seen_keeps (ok : Tid → Act V Tid → State V Tid × DepthHistory → Prop) :
    (depthsFlow V Tid cfg).Keeps ok (Marks DepthHistory.seen) := by
  refine marks_keep (fun i => Nat.le_refl 0) (fun t a s s' w i hi => ?_) fun t i pos n s w _
    _ => ?_
  · show w.seen i ≤ if a.resets = some i then 0 else max (w.seen i) (a.depth s i)
    rw [if_neg hi]
    exact Nat.le_max_left _ _
  · show _ ≤ if (Act.resets (.tailStore i pos : Act V Tid)) = some i then 0 else
      max (w.seen i) (Act.depth (.tailStore i pos) s i)
    rw [if_neg (by nofun)]
    refine Nat.le_trans ?_ (Nat.le_max_right _ _)
    unfold Act.depth
    exact Nat.le_of_eq (if_pos rfl).symm

variable (V Tid cfg) in
theorem deep_keeps : (depthsFlow V Tid cfg).Keeps copyCurrent (Marks DepthHistory.deep) := by
  refine marks_keep (fun i => Nat.le_refl 0) (fun t a s s' w i hi => ?_)
    fun t i pos n s w hok hrec => ?_
  · show w.deep i ≤ if a.resets = some i then s'.occupancy i else max (w.deep i) (s'.occupancy i)
    rw [if_neg hi]
    exact Nat.le_max_left _ _
  · have hring : ((apply cfg t (.tailStore i pos) n s).slot i).ring =
        { (s.slot i).ring.publish ((s.slot i).ring.slot
            ((s.slot i).ring.tail % cfg.capacity)) with tail := pos } := by
      simp only [apply, State.setRing_ring, if_true]
    show _ ≤ if (Act.resets (.tailStore i pos : Act V Tid)) = some i then
      (apply cfg t (.tailStore i pos) n s).occupancy i else
      max (w.deep i) ((apply cfg t (.tailStore i pos) n s).occupancy i)
    rw [if_neg fun h => by cases h]
    unfold State.occupancy
    rw [hring]
    by_cases hlt : (s.slot i).highWater < pos - (s.slot i).ring.cachedHead
    · have hcur : (s.slot i).ring.cachedHead = (s.slot i).ring.head := hok hlt
      rw [hcur]
      exact Nat.le_max_right _ _
    · have hle : pos - (s.slot i).ring.cachedHead ≤ w.deep i := by omega
      exact Nat.le_trans hle (Nat.le_max_left _ _)

/-- Neither is beyond the capacity. -/
structure Within (cfg : Config) (w : DepthHistory) : Prop where
  deep : ∀ i, w.deep i ≤ cfg.capacity
  seen : ∀ i, w.seen i ≤ cfg.capacity

omit [DecidableEq Tid] [Inhabited V] [Inhabited Tid] in
theorem Rings.occupancy_le {γ : Tid → Place V Tid} (h : Rings cfg s γ) :
    s.occupancy i ≤ cfg.capacity := by
  have hroom := (h.inv i).room
  have hseen := (h.inv i).seenHead
  unfold State.occupancy
  omega

omit [DecidableEq Tid] [Inhabited V] [Inhabited Tid] in
/-- A publication is into a ring with room, by the producer's copy. -/
theorem Rings.depth_le {γ : Tid → Place V Tid} (h : Rings cfg s γ) {r : Resp a} {g : Place V Tid}
    (hm : Move cfg (γ t) a r g) : a.depth s i ≤ cfg.capacity := by
  cases a with
  | tailStore j pos =>
    unfold Act.depth
    dsimp only
    split
    · rename_i hj
      obtain ⟨k, v, q, hγ, rfl, rfl⟩ := hm.publishes
      have hat := h.at_ t
      rw [hγ] at hat
      obtain ⟨rfl, hroom, -⟩ := hat
      subst hj
      unfold Room at hroom
      omega
    · exact Nat.zero_le _
  | _ => exact Nat.zero_le _

variable (V Tid cfg) in
theorem within_keeps (ok : Tid → Act V Tid → State V Tid × DepthHistory → Prop) :
    (depthsFlow V Tid cfg).Keeps ok fun s _ => Within cfg s.2 where
  init := ⟨fun _ => Nat.zero_le _, fun _ => Nat.zero_le _⟩
  begin _ h _ _ _ _ := h
  move hr h t a n s' r g hok hs hm := by
    obtain ⟨o, ho, he⟩ := Option.map_eq_some_iff.mp hs
    cases he
    have hr := hr.of_client
    have hs' := hr.step
      (Step.move (Y := pipeline V Tid cfg) (F := hintedFlow V Tid cfg) t a n trivial ho hm)
    have hring := (rings_keeps V Tid cfg _).reach hs'.left
    refine ⟨fun i => ?_, fun i => ?_⟩
    · show (if a.resets = some i then o.1.occupancy i else _) ≤ cfg.capacity
      split
      · exact hring.occupancy_le
      · exact Nat.max_le.mpr ⟨h.deep i, hring.occupancy_le⟩
    · show (if a.resets = some i then 0 else _) ≤ cfg.capacity
      split
      · exact Nat.zero_le _
      · exact Nat.max_le.mpr ⟨h.seen i, ((rings_keeps V Tid cfg _).reach hr.left).depth_le hm.1⟩
  finish _ h _ _ _ _ := h

/-- No record is deeper than the producer saw its ring, nor than the capacity;
and in a run whose publications raise no record by a copy of the head that is
out of date, none is deeper than the ring has been, so a record of the capacity
tells of a full ring. -/
theorem high_water_within_depth {x : System.Config (withDepths V Tid cfg)}
    (hx : (withDepths V Tid cfg).Reachable x) (i : Nat) :
    ((x.state.1.slot i).highWater ≤ x.state.2.seen i ∧ x.state.2.seen i ≤ cfg.capacity) ∧
      (System.ReachableIf copyCurrent x → (x.state.1.slot i).highWater ≤ x.state.2.deep i ∧
        ((x.state.1.slot i).highWater = cfg.capacity → x.state.2.deep i = cfg.capacity)) := by
  obtain ⟨γ, hγ, -⟩ := (hinted_follows V Tid cfg).client.places hx.reachableIf
  have hw := (within_keeps V Tid cfg _).reach hγ
  refine ⟨⟨((seen_keeps V Tid cfg _).reach hγ).record i, hw.seen i⟩, fun hx' => ?_⟩
  obtain ⟨γ', hγ', -⟩ := (hinted_follows V Tid cfg).client.places hx'
  have hrec := ((deep_keeps V Tid cfg).reach hγ').record i
  refine ⟨hrec, fun hi => Nat.le_antisymm (hw.deep i) ?_⟩
  rw [← hi]
  exact hrec

end

/-! ## Three threads -/

abbrev threeDepths (port : Port) : System := withDepths Nat (Fin 3) (.standard port .bitmap)

instance (t : Fin 3) (a : Act Nat (Fin 3)) (s : State Nat (Fin 3) × DepthHistory) :
    Decidable (copyCurrent t a s) := by
  unfold copyCurrent
  split <;> infer_instance

/-- Two events are pushed, and wait. -/
def pushesTwo : List (System.Label (threeDepths .cpp)) :=
  (does (.standard .cpp .bitmap) (0 : Fin 3) .start 4 ++ does _ 1 .register 5 ++
    does _ 1 (.push ⟨0, 0⟩ 7) 14 ++ does _ 1 (.push ⟨0, 0⟩ 8) 12).map .client

theorem high_water_within_depth_two : ∃ x : System.Config (threeDepths .cpp),
    System.ReachableIf copyCurrent x ∧ (x.state.1.slot 0).highWater = 2 ∧
      (x.state.1.slot 0).highWater ≤ x.state.2.deep 0 := by
  obtain ⟨x, hx, hp⟩ := System.reachableIf_of_test (@System.of_meets _ copyCurrent _) pushesTwo
    (fun x => decide ((x.state.1.slot 0).highWater = 2)) (by decide +kernel)
  exact ⟨x, hx, of_decide_eq_true hp, ((high_water_within_depth hx.reachable 0).2 hx).1⟩

/-- An event is pushed and taken, then the next is pushed. -/
def pushesTaken : List (System.Label (threeDepths .cpp)) :=
  (does (.standard .cpp .bitmap) (0 : Fin 3) .start 4 ++ does _ 1 .register 5 ++
    does _ 1 (.push ⟨0, 0⟩ 7) 14 ++ does _ 2 .consume 12 ++ does _ 1 (.push ⟨0, 0⟩ 8) 12).map
      .client

/-- The record is two, and the ring has never held more than one event. -/
theorem high_water_over_reports : ∃ x : System.Config (threeDepths .cpp),
    (threeDepths .cpp).Reachable x ∧ (x.state.1.slot 0).highWater = 2 ∧ x.state.2.deep 0 = 1 := by
  obtain ⟨x, hx, hp⟩ := System.reachable_of_test pushesTaken
    (fun x => decide ((x.state.1.slot 0).highWater = 2) && decide (x.state.2.deep 0 = 1))
    (by decide +kernel)
  rw [Bool.and_eq_true, decide_eq_true_eq, decide_eq_true_eq] at hp
  exact ⟨x, hx, hp.1, hp.2⟩

end Katas.Weir.Pipeline
