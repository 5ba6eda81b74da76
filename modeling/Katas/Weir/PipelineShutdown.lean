import Katas.Weir.PipelineOrder

/-!
# The last drains of the event pipeline

After `running` is cleared the consumer drains until a pass takes nothing,
twice over, writes what is staged and ends. `Drained` says what is known on
the way: in a pass of the second kind that has taken nothing, every ring that
is not still to come was found empty (`shut`), so when the consumer has ended
every ring was, and nothing is staged.
-/
namespace Katas.Weir.Pipeline
open Katas.Conc Flow

section
variable {V Tid : Type} (cfg : Config)

/-- Every ring was found empty, but those of the slots in `l`. -/
def Seen (s : State V Tid) (l : List Nat) : Prop :=
  ∀ i < cfg.producers, i ∉ l → s.shut i = true

/-- A pass that has taken `total`, with the slots of `l` to come. -/
def Passes (s : State V Tid) (d : Drain) (total : Nat) (l : List Nat) : Prop :=
  d = .last → total = 0 → Seen cfg s l

/-- What the consumer knows by its place. -/
def PassAt (s : State V Tid) : Place V Tid → Prop
  | .probe k => Passes cfg s k.drain k.total (k.i :: k.rest)
  | .makes k got | .spill k got | .spills k got =>
    got < cfg.drainBatch ∧ Passes cfg s k.drain (k.total + got) (k.i :: k.rest)
  | .head k got room | .cached k got room _ | .look k got room _ =>
    0 < room ∧ s.stage.length + room ≤ cfg.stageEvents ∧
      Passes cfg s k.drain (k.total + got) (k.i :: k.rest)
  | .copies _ _ _ n _ => 0 < n ∧ s.stage.length + n ≤ cfg.stageEvents
  | .drained k got => Passes cfg s k.drain (k.total + got) k.rest
  | .flush _ total | .write _ total => 0 < total
  | .lastFlush | .lastWrite => Seen cfg s []
  | .reclaims _ l => l.fin = true → s.stage = [] ∧ Seen cfg s []
  | .scans (.reclaim true) _ _ | .exit => s.stage = [] ∧ Seen cfg s []
  | _ => True

structure Drained (s : State V Tid) (γ : Tid → Place V Tid) : Prop where
  staged : s.stage.length ≤ cfg.stageEvents
  at_ : ∀ t, PassAt cfg s (γ t)
  ended : s.exited = true → s.stage = [] ∧ Seen cfg s []

variable {cfg} {s s' : State V Tid} {g : Place V Tid}

theorem PassAt.congr (h : PassAt cfg s g) (hst : s'.stage = s.stage) (hsh : s'.shut = s.shut) :
    PassAt cfg s' g := by
  cases g with
  | scans w rest ids =>
    cases w with
    | register i => trivial
    | reclaim fin => cases fin <;> first | trivial | simpa only [PassAt, Seen, hst, hsh] using h
  | _ => first | trivial | simpa only [PassAt, Passes, Seen, hst, hsh] using h

theorem passAt_of_role (h : g.role ≠ .consume) : PassAt cfg s g := by
  cases g with
  | scans w rest ids =>
    cases w with
    | register i => trivial
    | reclaim fin => exact absurd rfl h
  | _ => trivial

/-! ## Where a pass goes on -/

variable {d : Drain} {total : Nat} {l rest : List Nat}

theorem passes_of_pos (h : 0 < total) : Passes cfg s d total l := by
  intro _ h0
  omega

/-- A round comes to every slot. -/
theorem mem_order {i : Nat} (h : i < cfg.producers) (r : Nat) : i ∈ order cfg r := by
  unfold order
  rw [List.mem_map]
  -- the place of `i` in the round
  refine ⟨(i + (cfg.producers - r % cfg.producers)) % cfg.producers,
    List.mem_range.mpr (Nat.mod_lt _ cfg.producers_pos), ?_⟩
  have hr := Nat.mod_lt r cfg.producers_pos
  rw [Nat.mod_add_mod, Nat.add_assoc]
  have hsum : cfg.producers - r % cfg.producers + r =
      cfg.producers * (1 + r / cfg.producers) := by
    have := Nat.mod_add_div r cfg.producers
    rw [Nat.mul_add, Nat.mul_one]
    omega
  rw [hsum, Nat.add_mul_mod_self_left, Nat.mod_eq_of_lt h]

theorem order_cons (r : Nat) : order cfg r = r % cfg.producers :: (order cfg r).tail := by
  obtain ⟨n, hn⟩ := Nat.exists_eq_succ_of_ne_zero (Nat.pos_iff_ne_zero.mp cfg.producers_pos)
  unfold order
  rw [hn, List.range_succ_eq_map]
  simp

/-- A pass begins with every slot to come. -/
theorem first_passAt (d : Drain) (r : Nat) : PassAt cfg s (first cfg d r : Place V Tid) := by
  intro _ _ i hi hmem
  exact absurd ((order_cons r : order cfg r = _) ▸ mem_order hi r) hmem

theorem loopAt_passAt {k : Spot} {got : Nat} (h : Passes cfg s k.drain (k.total + got) (k.i :: k.rest))
    (hgot : cfg.drainBatch ≤ got → 0 < k.total + got) :
    PassAt cfg s (loopAt cfg k got : Place V Tid) := by
  unfold loopAt
  split
  · rename_i hlt
    exact ⟨hlt, h⟩
  · rename_i hlt
    exact passes_of_pos (hgot (Nat.le_of_not_lt hlt))

theorem spotAt_passAt {k : Spot} (h : Passes cfg s k.drain k.total (k.i :: k.rest)) :
    PassAt cfg s (spotAt cfg k : Place V Tid) := by
  unfold spotAt
  split
  · exact h
  · refine loopAt_passAt h fun hle => ?_
    have := cfg.drainBatch_pos
    omega

theorem PassEnds.passAt (h : PassEnds cfg d total g) (hl : Passes cfg s d total []) :
    PassAt cfg s g := by
  unfold PassEnds at h
  cases d with
  | main =>
    subst h
    split <;> trivial
  | settle =>
    subst h
    split
    · trivial
    · unfold parkAt
      split <;> trivial
  | final =>
    dsimp only at h
    split at h
    · obtain ⟨r, rfl⟩ := h; exact first_passAt _ r
    · subst h; exact first_passAt _ 0
  | last =>
    dsimp only at h
    split at h
    · obtain ⟨r, rfl⟩ := h; exact first_passAt _ r
    · subst h; exact hl rfl (by omega)

theorem Enters.passAt (h : Enters cfg d rest total g) (hl : Passes cfg s d total rest) :
    PassAt cfg s g := by
  unfold Enters at h
  cases rest with
  | cons i rest => subst h; exact spotAt_passAt hl
  | nil =>
    dsimp only at h
    split at h
    · rename_i hpos
      subst h
      exact hpos
    · exact h.passAt hl

theorem Settles.passAt (h : Settles cfg g) : PassAt cfg s g := by
  unfold Settles at h
  split at h
  · obtain ⟨r, rfl⟩ := h; exact first_passAt _ r
  · subst h
    split <;> trivial

theorem Rung.passAt (h : Rung cfg g) : PassAt cfg s g := by
  obtain rfl | h := h
  · trivial
  · exact h.passAt

theorem ClearAt.passAt (h : ClearAt cfg rest g) : PassAt cfg s g := by
  unfold ClearAt at h
  cases rest with
  | nil => obtain ⟨r, rfl⟩ := h; exact first_passAt _ r
  | cons i rest =>
    subst h
    split <;> trivial

theorem FlagsAt.passAt {clear : Bool} {ids : List Nat} (h : FlagsAt cfg clear rest ids g) :
    PassAt cfg s g := by
  unfold FlagsAt at h
  cases rest with
  | cons i rest => subst h; trivial
  | nil =>
    dsimp only at h
    split at h
    · exact h.passAt
    · obtain ⟨r, h⟩ := h; exact h.passAt nofun

theorem ReclaimEnds.passAt {fin : Bool} (h : ReclaimEnds cfg fin g)
    (hl : fin = true → s.stage = [] ∧ Seen cfg s []) : PassAt cfg s g := by
  unfold ReclaimEnds at h
  split at h
  · rename_i hf
    subst h
    exact hl hf
  · exact h.passAt

theorem ReclaimAt.passAt {changed fin : Bool} (h : ReclaimAt cfg rest changed fin g)
    (hl : fin = true → s.stage = [] ∧ Seen cfg s []) : PassAt cfg s g := by
  unfold ReclaimAt at h
  cases rest with
  | cons i rest => subst h; exact hl
  | nil =>
    dsimp only at h
    split at h
    · subst h
      cases fin with
      | true => exact hl rfl
      | false => trivial
    · exact h.passAt hl

end

section
variable {V Tid : Type} [DecidableEq Tid] [Inhabited V] [Inhabited Tid] {cfg : Config}
  {s s' : State V Tid} {γ : Tid → Place V Tid} {t : Tid} {g : Place V Tid} {a : Act V Tid} {n : Nat}

/-- Takes from a ring, looks at one for the last drain, writes to the sink, or
starts the consumer. -/
def Act.drains : Act V Tid → Bool
  | .stateLoad .last _ | .tailSee .last _ | .headStore _ _ _ | .sinkWrite | .threadStart => true
  | _ => false

omit [Inhabited V] [Inhabited Tid] in
theorem apply_drains (h : a.drains = false) : (apply cfg t a n s).stage = s.stage ∧
    (apply cfg t a n s).shut = s.shut := by
  cases a with
  | stateCas i => unfold apply; dsimp only; split <;> exact ⟨rfl, rfl⟩
  | stateStore i st => cases st <;> exact ⟨rfl, rfl⟩
  | stateLoad site i => cases site <;> first | exact ⟨rfl, rfl⟩ | cases h
  | tailSee site i => cases site <;> first | exact ⟨rfl, rfl⟩ | cases h
  | headStore | sinkWrite | threadStart => cases h
  | _ => exact ⟨rfl, rfl⟩

section
omit [DecidableEq Tid] [Inhabited V] [Inhabited Tid]

/-- A look of the last drain that finds a ring empty. -/
theorem Passes.look {d : Drain} {total i : Nat} {rest : List Nat}
    (h : Passes cfg s d total (i :: rest)) (hs : d = .last → s'.shut = upd s.shut i true) :
    Passes cfg s' d total rest := by
  intro hd h0 j hj hmem
  rw [hs hd]
  by_cases hi : j = i
  · rw [hi, upd_self]
  · rw [upd_ne _ _ hi]
    exact h hd h0 j hj (by simp [hi, hmem])

theorem shutAfter_last {d : Drain} {i : Nat} {p : Prop} [Decidable p] (hd : d = .last) (hp : p) :
    s.shutAfter d.site i (decide p) = upd s.shut i true := by
  subst hd
  simp [State.shutAfter, Drain.site, hp]

theorem shutAfter_other {site : Site} {i : Nat} {b : Bool} (hb : b = false) :
    s.shutAfter site i b = s.shut := by
  simp [State.shutAfter, hb]

end

section
omit [Inhabited V] [Inhabited Tid]

theorem PassAt.drains {r : Resp a} {g' : Place V Tid} (h : PassAt cfg s g) (hr : RingAt cfg s t g)
    (hi : ∀ i, (s.slot i).ring.Inv cfg.capacity) (hst : s.stage.length ≤ cfg.stageEvents)
    (hre : r = reply cfg n s a) (hm : DrainMove cfg g a r g') :
    PassAt cfg (apply cfg t a n s) g' := by
  cases hm with
  | stops => exact first_passAt _ 0
  | runsFull r => exact first_passAt _ r
  | runsWord | runsIds => trivial
  | word w r hg => exact hg.passAt fun h => by cases h
  | ids clear l hg => exact hg.passAt
  | flag clear i rest ids b hg => exact hg.passAt
  | free k hg =>
    exact hg.passAt (h.look fun hd => shutAfter_last hd hre.symm)
  | used k hne =>
    refine loopAt_passAt ?_ fun hle => ?_
    · have hsh : s.shutAfter k.drain.site k.i (decide ((s.slot k.i).state = .free)) = s.shut :=
        shutAfter_other (decide_eq_false fun hf => hne (hre.trans hf))
      simpa only [PassAt, Passes, Seen, apply, hsh, Nat.add_zero] using h
    · have := cfg.drainBatch_pos
      omega
  | staged k got m =>
    have hm : m = s.stage.length := hre
    split
    · exact h
    · refine ⟨?_, ?_, h.2⟩
      · have := h.1
        omega
      · show s.stage.length + _ ≤ _
        omega
  | spill k got m =>
    have hm : m = s.stage.length := hre
    split
    · refine ⟨?_, ?_, h.2⟩
      · have := h.1
        have := cfg.stageEvents_pos
        omega
      · show s.stage.length + _ ≤ _
        omega
    · exact h
  | spills k got =>
    refine ⟨?_, ?_, h.2⟩
    · have := h.1
      have := cfg.stageEvents_pos
      omega
    · show 0 + _ ≤ _
      omega
  | head k got room c => exact h
  | cached k got room c d =>
    have hd : d = (s.slot k.i).ring.cachedTail := hre
    have hc : c = (s.slot k.i).ring.head := hr
    have hseen := (hi k.i).seenTail.1
    obtain ⟨h1, h2, h3⟩ := h
    split
    · exact ⟨h1, h2, h3⟩
    · refine ⟨by omega, ?_⟩
      show s.stage.length + _ ≤ _
      omega
  | look k got room c d =>
    have hd : d = (s.slot k.i).ring.tail := hre
    have hc : c = (s.slot k.i).ring.head := hr
    have hle := (hi k.i).head_le_tail
    obtain ⟨h1, h2, h3⟩ := h
    split
    · rename_i he
      exact h3.look fun hl => shutAfter_last hl (by rw [← hd, ← he, hc])
    · refine ⟨by omega, ?_⟩
      show s.stage.length + _ ≤ _
      omega
  | copy k got c m out e hlt => exact h
  | copied k got c m out hn =>
    have hpos := h.1
    rw [if_neg (by omega)]
    exact loopAt_passAt (passes_of_pos (by omega)) fun _ => by omega
  | drained k got hg => exact hg.passAt h
  | flushed d total hg => exact hg.passAt (passes_of_pos h)
  | flush d total m hm => exact h
  | write d total hg => exact hg.passAt (passes_of_pos h)
  | lastFlushed hg => 
    refine hg.passAt fun _ => ⟨?_, h⟩
    exact List.length_eq_zero_iff.mp hre.symm
  | lastFlush m hm => exact h
  | lastWrite hg => exact hg.passAt fun _ => ⟨rfl, h⟩

theorem PassAt.reclaims {r : Resp a} {g' : Place V Tid} (h : PassAt cfg s g)
    (hm : ReclaimMove cfg g a r g') : PassAt cfg (apply cfg t a n s) g' := by
  cases hm with
  | skip hp hg => exact hg.passAt
  | take hp hg => exact hg.passAt fun h => by cases h
  | skips hp hg => exact hg.passAt
  | takes hg => exact hg.passAt fun h => by cases h
  | other l hst hg => exact hg.passAt h
  | filled l hc hg => exact hg.passAt h
  | addDropped l m => split <;> exact h
  | free l hg => exact hg.passAt h
  | finds => trivial
  | _ => exact h

omit [DecidableEq Tid] in
theorem ClearMove.passAt {r : Resp a} {g' : Place V Tid} (hm : ClearMove cfg g a r g') :
    PassAt cfg s g' := by
  cases hm with
  | word w hg => exact hg.passAt
  | filled i rest b hc hg => exact hg.passAt
  | emptyAgain i rest b c hg =>
    split at hg
    · split at hg
      · subst hg; trivial
      · exact hg.passAt
    · subst hg; trivial
  | other i rest b hst hg => exact hg.passAt
  | restore i rest b zero hg => exact hg.passAt
  | _ => trivial

omit [DecidableEq Tid] in
theorem ParkMove.passAt {r : Resp a} {g' : Place V Tid} (hm : ParkMove cfg g a r g') :
    PassAt cfg s g' := by
  cases hm with
  | arm told => cases told <;> trivial
  | word told zero => split <;> (try split) <;> trivial
  | run told b => split <;> (try split) <;> trivial
  | disarm told => split <;> trivial
  | _ => trivial

theorem PassAt.moves {r : Resp a} {g' : Place V Tid} (h : PassAt cfg s g) (hr : RingAt cfg s t g)
    (hi : ∀ i, (s.slot i).ring.Inv cfg.capacity) (hst : s.stage.length ≤ cfg.stageEvents)
    (hre : r = reply cfg n s a) (hm : Move cfg g a r g') : PassAt cfg (apply cfg t a n s) g' := by
  by_cases hrole : g'.role ≠ .consume
  · exact passAt_of_role hrole
  have hrole := Classical.not_not.mp hrole
  cases hm with
  | life hm => cases hm <;> trivial
  | wake hm =>
    obtain ⟨k, hk⟩ := hm.role
    exact absurd (hk.symm.trans ((Move.wake hm).role.symm.trans hrole)) k.role_ne.2.1
  | register hm => cases hm <;> (try split) <;> trivial
  | push hm => cases hm <;> (try split) <;> trivial
  | scan hm =>
    cases hm with
    | load w i rest ids st =>
      cases w with
      | register j => trivial
      | reclaim fin =>
        cases fin with
        | true => exact h
        | false => trivial
    | register i ids => trivial
    | reclaim fin ids hg =>
      refine hg.passAt fun hf => ?_
      subst hf
      exact h
  | drain hm => exact h.drains hr hi hst hre hm
  | reclaim hm => exact h.reclaims hm
  | clear hm => exact hm.passAt
  | park hm => exact hm.passAt

end

/-! ## The invariant -/

omit [DecidableEq Tid] [Inhabited V] [Inhabited Tid] in
/-- Who touches the staging buffer, or `shut`. -/
theorem Move.drains {r : Resp a} {g' : Place V Tid} (hm : Move cfg g a r g')
    (h : a.drains = true) : g.role = .consume ∨ g = .starting ∧ a = .threadStart := by
  cases hm with
  | life hm =>
    cases hm with
    | thread => exact .inr ⟨rfl, rfl⟩
    | @waits a _ hw =>
      cases a with
      | stateLoad site i | tailSee site i =>
        cases site <;> simp_all [halting, Act.drains]
      | _ => simp_all [halting, Act.drains]
    | _ => cases h
  | wake hm => cases hm <;> cases h
  | register hm => cases hm <;> cases h
  | scan hm => cases hm <;> cases h
  | push hm => cases hm <;> cases h
  | drain hm | reclaim hm | clear hm | park hm => cases hm <;> exact .inl rfl

omit [DecidableEq Tid] [Inhabited V] [Inhabited Tid] in
theorem Move.starts {r : Unit} {g' : Place V Tid} (hm : Move cfg g .threadStart r g') :
    g = .starting := by
  cases hm with
  | life hm =>
    cases hm with
    | thread => rfl
    | waits hw => cases hw
  | wake hm => cases hm
  | _ hm => cases hm

omit [Inhabited V] [Inhabited Tid] in
theorem apply_exited (h : a ≠ .threadStart) : (apply cfg t a n s).exited = s.exited := by
  by_cases hl : a.lives = false
  · exact (apply_lives hl).2.2.1
  · cases a with
    | join => rfl
    | threadStart => exact absurd rfl h
    | _ => exact absurd rfl hl

omit [DecidableEq Tid] [Inhabited V] [Inhabited Tid] in
/-- Whoever starts the consumer finds none. -/
theorem Calls.dead (h : Calls cfg s γ) (ht : γ t = .starting) (u : Tid) : (γ u).role ≠ .consume := by
  intro hu
  obtain ⟨h1, h2⟩ := h.alive (.inr (by rw [h.consume hu]; nofun))
  rcases h.starting t ht with hs | ⟨-, hs⟩
  · exact Bool.false_ne_true (hs.symm.trans h1)
  · exact Bool.false_ne_true (h2.symm.trans hs)

omit [Inhabited V] [Inhabited Tid] in
/-- The staging buffer has room for what is taken. -/
theorem Drained.stages (h : Drained cfg s γ) {r : Resp a} (hm : Move cfg (γ t) a r g) :
    (apply cfg t a n s).stage.length ≤ cfg.stageEvents := by
  by_cases hd : a.drains = false
  · rw [(apply_drains hd).1]; exact h.staged
  · cases a with
    | headStore i pos out =>
      have hat := h.at_ t
      generalize γ t = g₀ at hm hat
      cases hm with
      | drain hm =>
        cases hm with
        | copied k got c m out hn =>
          obtain ⟨-, hle⟩ := hat
          show (s.stage ++ out).length ≤ _
          rw [List.length_append]
          omega
      | life hm =>
        cases hm with
        | waits hw => cases hw
      | wake hm => cases hm
      | _ hm => cases hm
    | sinkWrite => exact Nat.zero_le _
    | stateLoad | tailSee | threadStart => exact h.staged
    | _ => exact absurd rfl hd

omit [Inhabited V] [Inhabited Tid] in
theorem Drained.move (h : Drained cfg s γ) (hc : Calls cfg s γ) (hr : Rings cfg s γ) {r : Resp a}
    (hre : r = reply cfg n s a) (hm : Move cfg (γ t) a r g) :
    Drained cfg (apply cfg t a n s) (upd γ t g) := by
  have hat := (h.at_ t).moves (hr.at_ t) hr.inv h.staged hre hm
  by_cases hd : a.drains = false
  · obtain ⟨h1, h2⟩ := apply_drains (s := s) (t := t) (n := n) hd
    refine ⟨h.stages hm, at_upd hat fun u _ => (h.at_ u).congr h1 h2, fun he => ?_⟩
    have hex : s.exited = true := by
      rwa [apply_exited (by rintro rfl; cases hd)] at he
    rw [h1]
    exact ⟨(h.ended hex).1, fun i hi hni => h2 ▸ (h.ended hex).2 i hi hni⟩
  · have hd : a.drains = true := by simpa using hd
    obtain hrole | ⟨hγ, rfl⟩ := hm.drains hd
    · refine ⟨h.stages hm, at_upd hat fun u hu => ?_, fun he => ?_⟩
      · exact passAt_of_role fun hu' => hu (hc.one_consumer hu' hrole)
      · have hal := hc.alive (.inr (by rw [hc.consume hrole]; nofun))
        rw [apply_exited, hal.2] at he
        · cases he
        · rintro rfl
          exact absurd hrole (by rw [hm.starts]; nofun)
    · refine ⟨h.stages hm, at_upd hat fun u _ => passAt_of_role (hc.dead hγ u), nofun⟩

variable {c : Call V} {r : Result}

section
omit [Inhabited V] [Inhabited Tid]

@[simp] theorem begin_stage : (begin cfg t c s).stage = s.stage := by rw [begin_eq]

@[simp] theorem begin_shut : (begin cfg t c s).shut = s.shut := by rw [begin_eq]

@[simp] theorem begin_exited : (begin cfg t c s).exited = s.exited := by rw [begin_eq]

@[simp] theorem finish_stage : (finish cfg t c r s).stage = s.stage := by rw [finish_eq]

@[simp] theorem finish_shut : (finish cfg t c r s).shut = s.shut := by rw [finish_eq]

theorem finish_exited (h : c ≠ .consume) : (finish cfg t c r s).exited = s.exited := by
  unfold finish
  split <;> first | rfl | exact absurd rfl h

theorem Drained.begins (h : Drained cfg s γ) :
    Drained cfg (begin cfg t c s) (upd γ t (startPlace c)) := by
  refine ⟨by simpa using h.staged, at_upd ?_ fun u _ => (h.at_ u).congr begin_stage begin_shut, ?_⟩
  · cases c <;> trivial
  · simpa [Seen] using h.ended

theorem Drained.finishes (h : Drained cfg s γ) (he : endPlace cfg c r (γ t)) :
    Drained cfg (finish cfg t c r s) (upd γ t .idle) := by
  refine ⟨by simpa using h.staged, at_upd trivial fun u _ => (h.at_ u).congr finish_stage finish_shut,
    fun hex => ?_⟩
  have hend : s.stage = [] ∧ Seen cfg s [] := by
    by_cases hc : c = .consume
    · subst hc
      obtain ⟨-, hγ⟩ := he
      have hat := h.at_ t
      rw [hγ] at hat
      exact hat
    · rw [finish_exited hc] at hex
      exact h.ended hex
  simpa [Seen] using hend

end

variable (V Tid cfg) in
theorem drained_keeps (ok : Tid → Act V Tid → State V Tid → Prop) :
    (flow V Tid cfg).Keeps ok (Drained cfg) where
  init := ⟨Nat.zero_le _, fun _ => trivial, nofun⟩
  begin _ h t c _ _ := h.begins
  move hr h t a n s' r g _ hs hm := by
    obtain ⟨-, rfl, hre⟩ := sem_some cfg hs
    exact h.move ((calls_keeps V Tid cfg _).reach hr) ((rings_keeps V Tid cfg _).reach hr) hre hm
  finish _ h t c r he := h.finishes he

end
end Katas.Weir.Pipeline
