import Katas.Core.Client
import Katas.Weir.PipelineDelivers
import Katas.Weir.Transport

/-!
# The event pipeline as a transport

The Go pipeline with a client that notes, when a stop is first called, what
had been accepted. Until then the consumer runs: `start` sets `running` before
it starts it, and only a stop clears it, so no ring is looked at by the last
drain. From then on the events that were accepted are published, and their
ring is found empty only when they have left it.
-/
namespace Katas.Weir.Pipeline
open Katas.Conc Flow

/-! ## The consumer at its end -/

/-- A drain after `running` was found cleared. -/
def Drain.closes : Drain → Prop
  | .final | .last => True
  | _ => False

section
variable {V Tid : Type} {cfg : Config} {d : Drain} {total : Nat} {rest : List Nat}
  {g g' : Place V Tid}

/-- Has the consumer left its loop? -/
def Place.closing : Place V Tid → Prop
  | .probe k | .makes k _ | .spill k _ | .spills k _ | .head k _ _ | .cached k _ _ _
  | .look k _ _ _ | .copies k _ _ _ _ | .drained k _ => k.drain.closes
  | .flush d _ | .write d _ => d.closes
  | .lastFlush | .lastWrite | .exit | .scans (.reclaim true) _ _ => True
  | .reclaims _ l => l.fin = true
  | _ => False

theorem loopAt_closing {k : Spot} {got : Nat} (h : (loopAt cfg k got : Place V Tid).closing) :
    k.drain.closes := by
  unfold loopAt at h
  split at h <;> exact h

theorem spotAt_closing {k : Spot} (h : (spotAt cfg k : Place V Tid).closing) : k.drain.closes := by
  unfold spotAt at h
  split at h
  · exact h
  · exact loopAt_closing h

theorem PassEnds.closing (h : PassEnds cfg d total g) (hg : g.closing) : d.closes := by
  unfold PassEnds at h
  cases d with
  | main => subst h; split at hg <;> cases hg
  | settle =>
    subst h
    split at hg
    · cases hg
    · unfold parkAt at hg
      split at hg <;> cases hg
  | final | last => trivial

theorem Enters.closing (h : Enters cfg d rest total g) (hg : g.closing) : d.closes := by
  unfold Enters at h
  cases rest with
  | cons i rest => subst h; exact spotAt_closing hg
  | nil =>
    dsimp only at h
    split at h
    · subst h; exact hg
    · exact h.closing hg

theorem Settles.not_closing (h : Settles cfg g) : ¬ g.closing := by
  unfold Settles at h
  split at h
  · obtain ⟨r, rfl⟩ := h; exact id
  · subst h
    split <;> exact id

theorem Rung.not_closing (h : Rung cfg g) : ¬ g.closing := by
  obtain rfl | h := h
  · exact id
  · exact h.not_closing

theorem ClearAt.not_closing (h : ClearAt cfg rest g) : ¬ g.closing := by
  unfold ClearAt at h
  cases rest with
  | nil => obtain ⟨r, rfl⟩ := h; exact id
  | cons i rest =>
    subst h
    split <;> exact id

theorem FlagsAt.not_closing {clear : Bool} {ids : List Nat} (h : FlagsAt cfg clear rest ids g) :
    ¬ g.closing := by
  unfold FlagsAt at h
  cases rest with
  | cons i rest => subst h; exact id
  | nil =>
    dsimp only at h
    split at h
    · exact h.not_closing
    · obtain ⟨r, h⟩ := h; exact fun hg => h.closing hg

theorem ReclaimEnds.closing {fin : Bool} (h : ReclaimEnds cfg fin g) (hg : g.closing) :
    fin = true := by
  unfold ReclaimEnds at h
  split at h
  · assumption
  · exact absurd hg h.not_closing

theorem ReclaimAt.closing {changed fin : Bool} (h : ReclaimAt cfg rest changed fin g)
    (hg : g.closing) : fin = true := by
  unfold ReclaimAt at h
  cases rest with
  | cons i rest => subst h; exact hg
  | nil =>
    dsimp only at h
    split at h
    · subst h
      cases fin with
      | true => rfl
      | false => cases hg
    · exact h.closing hg

end

section
variable {V Tid : Type} [DecidableEq Tid] [Inhabited V] [Inhabited Tid] {cfg : Config}
  {s s' : State V Tid} {γ : Tid → Place V Tid} {t : Tid} {g g' : Place V Tid} {a : Act V Tid} {n : Nat}

omit [DecidableEq Tid] [Inhabited V] [Inhabited Tid] in
/-- The consumer leaves its loop when it reads `running` as cleared. -/
theorem Move.closing {r : Resp a} (hm : Move cfg g a r g') (hr : r = reply cfg n s a)
    (hg : g'.closing) : g.closing ∨ g = .top ∧ s.running = false := by
  cases hm with
  | life hm => cases hm <;> cases hg
  | wake hm =>
    cases hm with
    | lock k | notify k => cases hg
    | unlock k | send k => cases k <;> cases hg
  | register hm =>
    cases hm with
    | cas | casLocked | finds => split at hg <;> cases hg
    | _ => cases hg
  | push hm =>
    cases hm with
    | accepting | cached | see | pending | test | set | mind => split at hg <;> cases hg
    | _ => cases hg
  | scan hm =>
    cases hm with
    | load w i rest ids st =>
      cases w with
      | register j => cases hg
      | reclaim fin =>
        cases fin with
        | true => exact .inl trivial
        | false => cases hg
    | register i ids => cases hg
    | reclaim fin ids h =>
      obtain rfl := h.closing hg
      exact .inl trivial
  | drain hm =>
    cases hm with
    | stops => exact .inr ⟨rfl, hr.symm⟩
    | word w r h => exact (h.closing hg).elim
    | ids clear l h => exact absurd hg h.not_closing
    | flag clear i rest ids b h => exact absurd hg h.not_closing
    | free k h => exact .inl (h.closing hg)
    | used k hst => exact .inl (loopAt_closing hg)
    | staged | spill | cached | look => split at hg <;> exact .inl hg
    | copied k got c m out hn =>
      split at hg
      · exact .inl hg
      · exact .inl (loopAt_closing hg : k.drain.closes)
    | drained k got h => exact .inl (h.closing hg)
    | flushed d total h => exact .inl (h.closing hg)
    | write d total h => exact .inl (h.closing hg)
    | lastFlushed | lastFlush | lastWrite => exact .inl trivial
    | runsFull | runsWord | runsIds => cases hg
    | _ => exact .inl hg
  | reclaim hm =>
    cases hm with
    | skip hp h => exact absurd hg h.not_closing
    | take hp h => cases h.closing hg
    | skips hp h => exact absurd hg h.not_closing
    | takes h => cases h.closing hg
    | other l hst h => exact .inl (h.closing hg)
    | filled l hc h => exact .inl (h.closing hg)
    | free l h => exact .inl (h.closing hg)
    | addDropped l m => split at hg <;> exact .inl hg
    | finds => cases hg
    | _ => exact .inl hg
  | clear hm =>
    cases hm with
    | word w h => exact absurd hg h.not_closing
    | filled i rest b hc h => exact absurd hg h.not_closing
    | emptyAgain i rest b c h =>
      split at h
      · split at h
        · subst h; cases hg
        · exact absurd hg h.not_closing
      · subst h; cases hg
    | other i rest b hst h => exact absurd hg h.not_closing
    | restore i rest b zero h => exact absurd hg h.not_closing
    | _ => cases hg
  | park hm =>
    cases hm with
    | arm told => cases told <;> cases hg
    | word told zero => split at hg <;> (try split at hg) <;> cases hg
    | run told b => split at hg <;> (try split at hg) <;> cases hg
    | disarm told => split at hg <;> cases hg
    | _ => cases hg

/-! ## How far a start has come -/

/-- `early`: before `start` sets `running`; `late`: after it. -/
inductive Startup where
  | other
  | early
  | late
  deriving DecidableEq

inductive StartMove : Startup → (a : Act V Tid) → Resp a → Startup → Prop
  | other (a : Act V Tid) (r : Resp a) : StartMove .other a r .other
  | running : StartMove .early (.runningStore true) () .late
  | accepting : StartMove .late (.acceptingStore true) () .late
  | thread : StartMove .late .threadStart () .other

def Call.startup : Call V → Startup
  | .start => .early
  | _ => .other

variable (V Tid cfg) in
abbrev startFlow : Flow (pipeline V Tid cfg) where
  G := Startup
  idle := .other
  start _ c := c.startup
  move _ := StartMove
  ends _ _ _ _ := True
  pre _ _ g := g = .other
  post _ _ _ _ g' := g' = .other

theorem start_follows : (startFlow V Tid cfg).Follows where
  code t c := by
    cases c with
    | start =>
      refine wp_move_seq fun _ => ⟨_, .running, ?_⟩
      refine wp_move_seq fun _ => ⟨_, .accepting, ?_⟩
      exact wp_move_seq fun _ => ⟨_, .thread, trivial⟩
    | _ =>
      exact wp_anything StartMove.other (fun _ => rfl) (fun _ _ _ h => h) (fun _ => trivial) _
  body t p g h := by
    obtain rfl : g = .other := h
    exact wp_anything (F := startFlow V Tid cfg) (Q := fun _ g => g = .other) StartMove.other
      (fun _ => rfl) (fun _ _ _ h => h) (fun _ => rfl) _

/-! ## The client -/

/-- What had been accepted when a stop was first called. -/
def notesStop (c : Call V) (s : State V Tid) (o : Option (Nat → List (Item V Tid))) :
    Option (Nat → List (Item V Tid)) :=
  match c with
  | .stop _ => o.or (some fun k => (s.record k).accepted)
  | _ => o

variable (V Tid cfg) in
@[reducible] def stopClient : Client (pipeline V Tid cfg) where
  H := Option (Nat → List (Item V Tid))
  start := none
  makes _ := true
  begins _ := notesStop
  notes _ _ _ _ h := h

variable (V Tid cfg) in
abbrev stopFlow : Flow ((pipeline V Tid cfg).client (stopClient V Tid cfg)) :=
  ((flow V Tid cfg).prod (startFlow V Tid cfg)).client _

theorem stop_follows : (stopFlow V Tid cfg).Follows :=
  ((follows V Tid cfg).prod start_follows).client

/-- Until a stop is called the pipeline runs, once it is started. -/
structure Runs (s : State V Tid) (o : Option (Nat → List (Item V Tid)))
    (γ : Tid → Place V Tid × Startup) : Prop where
  start : ∀ t, (γ t).1 = .starting → (γ t).2 = .early ∨ (γ t).2 = .late
  late : ∀ t, (γ t).2 = .late → s.running = true ∨ o ≠ none
  started : s.started = true → s.running = true ∨ o ≠ none
  stop : ∀ t, (γ t).1.role = .stop → o ≠ none
  loops : o = none → (∀ t, ¬ (γ t).1.closing) ∧ ∀ i, s.shut i = false

/-- What was accepted before the stop is published, and when its ring was found
empty it had left it. -/
def Entrusted (s : State V Tid) (o : Option (Nat → List (Item V Tid))) : Prop :=
  ∀ l, o = some l → ∀ k, ∀ e ∈ l k,
    ∃ i, s.handles[k]? = some i ∧ e ∈ (s.slot i).ring.log ∧ (s.shut i = true → e ∈ s.out)

/-! ## A step -/

omit [DecidableEq Tid] [Inhabited V] [Inhabited Tid] in
/-- The last drain looks at the rings at the consumer's end. -/
theorem Move.looks {r : Resp a} {i : Nat} (hm : Move cfg g a r g')
    (ha : a = .stateLoad .last i ∨ a = .tailSee .last i) : g.closing := by
  have hsite : ∀ {d : Drain}, d.site = .last → d.closes := by
    intro d hd
    cases d <;> trivial
  cases hm with
  | drain hm =>
    cases hm with
    | free k | used k =>
      obtain h | h := ha
      · injection h with h
        exact hsite h
      · cases h
    | look k =>
      obtain h | h := ha
      · cases h
      · injection h with h
        exact hsite h
    | _ => obtain h | h := ha <;> cases h
  | life hm =>
    cases hm with
    | waits hw => obtain rfl | rfl := ha <;> cases hw
    | _ => obtain h | h := ha <;> cases h
  | _ hm => cases hm <;> obtain h | h := ha <;> cases h

section
omit [Inhabited V] [Inhabited Tid]

/-- A ring is found empty by the last drain alone. -/
theorem Move.shuts {r : Resp a} {i : Nat} (hm : Move cfg g a r g')
    (hi : (apply cfg t a n s).shut i = true) : s.shut i = true ∨ g.closing := by
  by_cases hd : a.drains = false
  · rw [(apply_drains hd).2] at hi
    exact .inl hi
  · cases a with
    | stateLoad site j =>
      cases site <;> first | exact .inr (hm.looks (.inl rfl)) | exact absurd rfl hd
    | tailSee site j =>
      cases site <;> first | exact .inr (hm.looks (.inr rfl)) | exact absurd rfl hd
    | sinkWrite => exact .inl hi
    | headStore | threadStart => cases hi
    | _ => exact absurd rfl hd

/-- `running` is cleared by a stop alone. -/
theorem Move.keepsRunning {r : Resp a} (hm : Move cfg g a r g') (hr : s.running = true) :
    (apply cfg t a n s).running = true ∨ g.role = .stop := by
  by_cases ha : a = .runningStore false
  · subst ha
    cases hm with
    | life hm =>
      cases hm with
      | halt => exact .inr rfl
      | waits hw => exact .inr rfl
    | wake hm => cases hm
    | _ hm => cases hm
  · left
    cases a with
    | runningStore b =>
      cases b with
      | true => rfl
      | false => exact absurd rfl ha
    | stateCas i => unfold apply; dsimp only; split <;> exact hr
    | stateStore i st => cases st <;> exact hr
    | _ => exact hr

theorem apply_started (h : a ≠ .threadStart) : (apply cfg t a n s).started = s.started := by
  by_cases hl : a.lives = false
  · exact (apply_lives hl).2.1
  · cases a with
    | join => rfl
    | threadStart => exact absurd rfl h
    | _ => exact absurd rfl hl

end

variable {o : Option (Nat → List (Item V Tid))}

omit [Inhabited V] [Inhabited Tid] in
theorem Runs.move {γ : Tid → Place V Tid × Startup} {r : Resp a} {g : Place V Tid × Startup}
    (h : Runs s o γ) (hc : Calls cfg s fun u => (γ u).1) (hr : r = reply cfg n s a)
    (hm : Move cfg (γ t).1 a r g.1) (hm' : StartMove (γ t).2 a r g.2) :
    Runs (apply cfg t a n s) o (upd γ t g) := by
  have hrun : s.running = true ∨ o ≠ none → (apply cfg t a n s).running = true ∨ o ≠ none := by
    rintro (hrun | ho)
    · exact (hm.keepsRunning hrun).imp_right fun hg => h.stop t hg
    · exact .inr ho
  -- who starts the consumer has set `running`
  have hlate : a = .threadStart → s.running = true ∨ o ≠ none := by
    rintro rfl
    generalize hγ : (γ t).2 = g₂, g.2 = g₃ at hm'
    cases hm' with
    | other =>
      obtain hs | hs := h.start t hm.starts <;> cases hγ.symm.trans hs
    | thread => exact h.late t hγ
  refine ⟨fun u hu => ?_, fun u hu => ?_, fun hst => ?_, fun u hu => ?_, fun ho => ⟨fun u hu => ?_,
    fun i => ?_⟩⟩
  · by_cases ht : u = t
    · subst ht
      rw [upd_self] at hu ⊢
      rw [hu] at hm
      obtain ⟨hγ, hne⟩ := hm.to_starting
      generalize g.2 = g₂ at hm'
      obtain hs | hs := h.start u hγ <;> rw [hs] at hm' <;> cases hm'
      · exact .inr rfl
      · exact .inr rfl
      · exact absurd rfl hne
    · rw [upd_ne _ _ ht] at hu ⊢
      exact h.start u hu
  · by_cases ht : u = t
    · subst ht
      rw [upd_self] at hu
      rw [hu] at hm'
      generalize hγ : (γ u).2 = g₂ at hm'
      cases hm' with
      | running => exact .inl rfl
      | accepting => exact hrun (h.late u hγ)
    · rw [upd_ne _ _ ht] at hu
      exact hrun (h.late u hu)
  · by_cases ha : a = .threadStart
    · exact hrun (hlate ha)
    · rw [apply_started ha] at hst
      exact hrun (h.started hst)
  · by_cases ht : u = t
    · subst ht
      rw [upd_self, hm.role] at hu
      exact h.stop u hu
    · rw [upd_ne _ _ ht] at hu
      exact h.stop u hu
  · by_cases ht : u = t
    · subst ht
      rw [upd_self] at hu
      obtain hcl | ⟨hγ, hno⟩ := hm.closing hr hu
      · exact (h.loops ho).1 u hcl
      · have hcons := hc.consume (t := u) (by rw [hγ]; rfl)
        obtain hyes | hne := h.started (hc.alive (.inr (by rw [hcons]; nofun))).1
        · exact Bool.false_ne_true (hno.symm.trans hyes)
        · exact hne ho
    · rw [upd_ne _ _ ht] at hu
      exact (h.loops ho).1 u hu
  · cases hi : (apply cfg t a n s).shut i with
    | false => rfl
    | true =>
      obtain hs | hcl := hm.shuts hi
      · exact hs.symm.trans ((h.loops ho).2 i)
      · exact absurd hcl ((h.loops ho).1 t)

variable {c : Call V} {r : Result}

omit [DecidableEq Tid] [Inhabited V] [Inhabited Tid] in
theorem notesStop_some (h : o ≠ none) : notesStop c s o = o := by
  obtain ⟨l, rfl⟩ := Option.ne_none_iff_exists'.mp h
  cases c <;> rfl

omit [Inhabited V] [Inhabited Tid] in
theorem Runs.begins {γ : Tid → Place V Tid × Startup} (h : Runs s o γ) :
    Runs (begin cfg t c s) (notesStop c s o) (upd γ t (startPlace c, c.startup)) := by
  have hnote : o ≠ none → notesStop c s o ≠ none := fun ho => by rwa [notesStop_some ho]
  have hrun : (begin cfg t c s).running = s.running := by rw [begin_eq]
  have hst : (begin cfg t c s).started = s.started := by rw [begin_eq]
  refine ⟨fun u hu => ?_, fun u hu => ?_, fun hs => ?_, fun u hu => ?_, fun ho => ⟨fun u hu => ?_,
    fun i => ?_⟩⟩
  · by_cases ht : u = t
    · subst ht
      rw [upd_self] at hu ⊢
      cases c <;> first | exact .inl rfl | cases hu
    · rw [upd_ne _ _ ht] at hu ⊢
      exact h.start u hu
  · rw [hrun]
    by_cases ht : u = t
    · subst ht
      rw [upd_self] at hu
      cases c <;> cases hu
    · rw [upd_ne _ _ ht] at hu
      exact (h.late u hu).imp_right hnote
  · rw [hst] at hs
    rw [hrun]
    exact (h.started hs).imp_right hnote
  · by_cases ht : u = t
    · subst ht
      rw [upd_self] at hu
      cases c with
      | stop m => cases o <;> nofun
      | _ => cases hu
    · rw [upd_ne _ _ ht] at hu
      exact hnote (h.stop u hu)
  · have ho : o = none := Classical.not_not.mp fun hne => hnote hne ho
    by_cases ht : u = t
    · subst ht
      rw [upd_self] at hu
      cases c <;> cases hu
    · rw [upd_ne _ _ ht] at hu
      exact (h.loops ho).1 u hu
  · rw [begin_shut]
    exact (h.loops (Classical.not_not.mp fun hne => hnote hne ho)).2 i

omit [Inhabited V] [Inhabited Tid] in
theorem Runs.finishes {γ : Tid → Place V Tid × Startup} (h : Runs s o γ) :
    Runs (finish cfg t c r s) o (upd γ t (.idle, .other)) := by
  have hrun : (finish cfg t c r s).running = s.running := by rw [finish_eq]
  have hst : (finish cfg t c r s).started = s.started := by rw [finish_eq]
  have hplace : ∀ {u} {P : Place V Tid × Startup → Prop}, ¬ P (.idle, .other) →
      P (upd γ t (.idle, .other) u) → P (γ u) := by
    intro u P hno hu
    by_cases ht : u = t
    · rw [ht, upd_self] at hu
      exact absurd hu hno
    · rwa [upd_ne _ _ ht] at hu
  refine ⟨fun u hu => ?_, fun u hu => ?_, fun hs => ?_, fun u hu => ?_, fun ho => ⟨fun u hu => ?_,
    fun i => ?_⟩⟩
  · by_cases ht : u = t
    · rw [ht, upd_self] at hu
      cases hu
    · rw [upd_ne _ _ ht] at hu ⊢
      exact h.start u hu
  · rw [hrun]
    exact h.late u (hplace (P := fun g => g.2 = .late) (by nofun) hu)
  · rw [hst] at hs
    rw [hrun]
    exact h.started hs
  · exact h.stop u (hplace (P := fun g => g.1.role = .stop) (by nofun) hu)
  · exact (h.loops ho).1 u (hplace (P := fun g => g.1.closing) id hu)
  · rw [finish_shut]
    exact (h.loops ho).2 i

/-! ## What was accepted -/

section
omit [Inhabited V] [Inhabited Tid]

/-- A ring's history only grows. -/
theorem apply_log (i : Nat) :
    (s.slot i).ring.log <+: ((apply cfg t a n s).slot i).ring.log := by
  have hset : ∀ {j : Nat} {q : Spsc.Ring (Item V Tid)}, (s.slot j).ring.log <+: q.log →
      (s.slot i).ring.log <+: ((s.setRing j q).slot i).ring.log := by
    intro j q hq
    rw [State.setRing_ring]
    split
    · rename_i hi
      rw [hi]
      exact hq
    · exact List.prefix_refl _
  by_cases ha : a.passes = false
  · exact (apply_passes ha i).1 ▸ List.prefix_refl _
  · cases a with
    | tailStore j pos => exact hset (List.prefix_append _ _)
    | headStore j pos out => exact hset (List.prefix_refl _)
    | _ => exact absurd rfl ha

theorem apply_out_mem {e : Item V Tid} (h : e ∈ s.out) : e ∈ (apply cfg t a n s).out := by
  by_cases ha : a.passes = false
  · rwa [apply_out ha]
  · cases a with
    | tailStore j pos => exact h
    | headStore j pos out =>
      show e ∈ s.sink ++ (s.stage ++ out)
      rw [← List.append_assoc]
      exact List.mem_append_left _ h
    | _ => exact absurd rfl ha

theorem Entrusted.move {γ : Tid → Place V Tid} (h : Entrusted s o) (ho : Order s γ)
    (hr : Rings cfg s γ) : Entrusted (apply cfg t a n s) o := by
  intro l hl k e he
  obtain ⟨i, hi, hlog, hout⟩ := h l hl k e he
  refine ⟨i, by rwa [apply_handles], (apply_log i).subset hlog, fun hs => apply_out_mem ?_⟩
  obtain hs | hempty := hr.shuts hs
  · exact hout hs
  · exact ho.out_of_empty hr hlog hempty

theorem Entrusted.begins {γ : Tid → Place V Tid × Startup} (h : Entrusted s o) (hr : Runs s o γ)
    {γ' : Tid → Place V Tid} (ho : Order s γ') (hc : Calls cfg s γ') :
    Entrusted (begin cfg t c s) (notesStop c s o) := by
  have hsame : Entrusted (begin cfg t c s) o := by
    intro l hl k e he
    obtain ⟨i, hi, hlog, hout⟩ := h l hl k e he
    rw [begin_eq]
    exact ⟨i, hi, hlog, hout⟩
  by_cases hne : o = none
  · subst hne
    cases c with
    | stop m =>
      intro l hl k e he
      cases hl
      obtain ⟨i, hi, hlog⟩ := ho.accepted_published hc he
      refine ⟨i, hi, hlog, fun hs => ?_⟩
      cases ((hr.loops rfl).2 i).symm.trans hs
    | _ => exact hsame
  · rwa [notesStop_some hne]

theorem finish_handle {k i : Nat} (h : s.handles[k]? = some i) :
    (finish cfg t c r s).handles[k]? = some i := by
  unfold finish
  split <;> try exact h
  obtain ⟨hlt, -⟩ := List.getElem?_eq_some_iff.mp h
  exact (List.getElem?_append_left hlt).trans h

theorem Entrusted.finishes (h : Entrusted s o) : Entrusted (finish cfg t c r s) o := by
  intro l hl k e he
  obtain ⟨i, hi, hlog, hout⟩ := h l hl k e he
  refine ⟨i, finish_handle hi, by rwa [finish_slot], fun hs => ?_⟩
  rw [finish_shut] at hs
  have hsame : (finish cfg t c r s).out = s.out := by rw [finish_eq]; rfl
  rw [hsame]
  exact hout hs

end

variable (V Tid cfg) in
theorem runs_keeps (ok : Tid → Act V Tid → State V Tid × Option (Nat → List (Item V Tid)) → Prop) :
    (stopFlow V Tid cfg).Keeps ok fun s γ => Runs s.1 s.2 γ where
  init := ⟨nofun, nofun, nofun, nofun, fun _ => ⟨fun _ => id, fun _ => rfl⟩⟩
  begin _ h t c _ _ := h.begins
  move hr h t a n s' r g _ hs hm := by
    obtain ⟨q, hq, he⟩ := Option.map_eq_some_iff.mp hs
    cases he
    obtain ⟨-, h1, h2⟩ := sem_some cfg hq
    have hc := (calls_keeps V Tid cfg _).reach hr.of_client.left
    have := h.move hc h2 hm.1 hm.2
    rwa [← h1] at this
  finish _ h t c r _ := h.finishes

variable (V Tid cfg) in
theorem entrusted_keeps
    (ok : Tid → Act V Tid → State V Tid × Option (Nat → List (Item V Tid)) → Prop) :
    (stopFlow V Tid cfg).Keeps ok fun s _ => Entrusted s.1 s.2 where
  init := nofun
  begin hr h t c _ _ := by
    have hr' := hr.of_client.left
    exact h.begins ((runs_keeps V Tid cfg _).reach hr) ((order_keeps V Tid cfg _).reach hr')
      ((calls_keeps V Tid cfg _).reach hr')
  move hr h t a n s' r g _ hs hm := by
    obtain ⟨q, hq, he⟩ := Option.map_eq_some_iff.mp hs
    cases he
    obtain ⟨-, h1, -⟩ := sem_some cfg hq
    have hr' := hr.of_client.left
    have := h.move (t := t) (a := a) (n := n) ((order_keeps V Tid cfg _).reach hr')
      ((rings_keeps V Tid cfg _).reach hr')
    rwa [← h1] at this
  finish _ h t c r _ := h.finishes

/-! ## The contract -/

/-- A mutex unlocked while nobody holds it, or a slot that is none of the
pipeline's. -/
def Panics (cfg : Config) (a : Act V Tid) (s : State V Tid) : Prop :=
  match a with
  | .regUnlock => s.regMu = none
  | .slotStore h _ _ | .pushedAdd h | .droppedAdd h => cfg.producers ≤ h.id
  | _ => False

section
omit [DecidableEq Tid] [Inhabited V] [Inhabited Tid]

/-- The slots are indexed by a handle in its pushes. -/
theorem Move.indexes {r : Resp a} {h : Handle} (hm : Move cfg g a r g')
    (ha : (∃ pos v, a = .slotStore h pos v) ∨ a = .pushedAdd h ∨ a = .droppedAdd h) :
    ∃ v, g.role = .push h v := by
  cases hm with
  | push hm =>
    cases hm with
    | write k v | count k v | drop k v =>
      obtain ⟨_, _, he⟩ | he | he := ha <;> cases he <;> exact ⟨v, rfl⟩
    | _ => obtain ⟨_, _, he⟩ | he | he := ha <;> cases he
  | life hm =>
    cases hm with
    | waits hw => obtain ⟨_, _, rfl⟩ | rfl | rfl := ha <;> cases hw
    | _ => obtain ⟨_, _, he⟩ | he | he := ha <;> cases he
  | _ hm => cases hm <;> obtain ⟨_, _, he⟩ | he | he := ha <;> cases he

theorem Move.unlocks {r : Unit} (hm : Move cfg g .regUnlock r g') :
    g = .locked ∨ ∃ i, g = .claimed i ∧ cfg.port ≠ .cpp := by
  cases hm with
  | register hm =>
    cases hm with
    | unlock => exact .inl rfl
    | release i hp => exact .inr ⟨i, rfl, hp⟩
  | life hm =>
    cases hm with
    | waits hw => cases hw
  | wake hm => cases hm
  | _ hm => cases hm

theorem not_panics {γ : Tid → Place V Tid} (hc : Calls cfg s γ) (ho : Owners cfg s γ)
    (hb : Bounds cfg s γ) (hm : ∀ r, ∃ g, Move cfg (γ t) a r g) : ¬ Panics cfg a s := by
  have hindex : ∀ {h : Handle}, ((∃ pos v, a = .slotStore h pos v) ∨ a = .pushedAdd h ∨
      a = .droppedAdd h) → (∃ r : Resp a, True) → ¬ cfg.producers ≤ h.id := by
    rintro h ha ⟨r, -⟩ hle
    obtain ⟨g, hm⟩ := hm r
    obtain ⟨v, hrole⟩ := hm.indexes ha
    have := hb.handles _ _ (hc.pushing t h v (hc.push hrole)).2
    omega
  cases a with
  | slotStore h pos v => exact hindex (.inl ⟨pos, v, rfl⟩) ⟨(), trivial⟩
  | pushedAdd h => exact hindex (.inr (.inl rfl)) ⟨(), trivial⟩
  | droppedAdd h => exact hindex (.inr (.inr rfl)) ⟨(), trivial⟩
  | regUnlock =>
    intro hp
    obtain ⟨g, hm⟩ := hm ()
    have hat := ho.at_ t
    have hp : s.regMu = none := hp
    obtain hg | ⟨i, hg, hport⟩ := hm.unlocks
    · rw [hg] at hat
      cases hp.symm.trans hat
    · rw [hg] at hat
      cases hp.symm.trans (hat.2 hport)
  | _ => exact id

end

/-- The configuration, for the Go port. -/
def Config.go (cfg : Config) : Config :=
  { cfg with port := .go }

variable (V Tid cfg) in
/-- The Go pipeline. Its consumer's return closes `done`.
mirrors mpsc-event-pipeline-kata/go/internal/weir/baseline.go:27-39 -/
@[reducible] def transport : Transport where
  system := (pipeline V Tid cfg.go).client (stopClient V Tid cfg.go)
  Item := Item V Tid
  panics a s := Panics cfg.go a s.1
  crashes c s := c = .consume ∧ s.1.exited = true
  before s e := ∃ l k, s.2 = some l ∧ e ∈ l k
  written s e := e ∈ s.1.sink
  stopped s := s.1.returned = true

variable (V Tid cfg) in
/-- Nothing panics, and what was accepted before a stop is written when the stop
returns. -/
theorem meets_contract : Contract (transport V Tid cfg) fun _ _ _ => True := by
  refine .of_follows (T := transport V Tid cfg) (F := stopFlow V Tid cfg.go) stop_follows
    (fun hr t a hm => ?_) (fun hr (t : Tid) c r he => ?_) fun {s γ} hr hstop e he => ?_
  · have hr := hr.of_client.left
    exact not_panics ((calls_keeps V Tid cfg.go _).reach hr) ((owners_keeps V Tid cfg.go _).reach hr)
      ((bounds_keeps V Tid cfg.go _).reach hr) fun r => by
        obtain ⟨g, h⟩ := hm r
        exact ⟨g.1, h.1⟩
  · rintro ⟨rfl, hex⟩
    have hc := (calls_keeps V Tid cfg.go _).reach hr.of_client.left
    obtain ⟨-, hγ⟩ := he.1
    have hcons := hc.consume (t := t) (by rw [hγ]; rfl)
    cases hex.symm.trans (hc.alive (.inr (by rw [hcons]; nofun))).2
  · obtain ⟨l, k, hl, he⟩ := he
    have hr' := hr.of_client.left
    have hjoin : (flow V Tid cfg.go).Keeps (fun _ _ _ => True) Joined := joined_keeps V Tid cfg.go
      fun _ _ _ _ hready => by simpa [ready, Config.go] using hready
    have hex := (hjoin.reach hr').returned hstop
    obtain ⟨hstage, hseen⟩ := ((drained_keeps V Tid cfg.go _).reach hr').ended hex
    obtain ⟨i, hi, -, hout⟩ := (entrusted_keeps V Tid cfg.go _).reach hr l hl k e he
    have hlt := ((bounds_keeps V Tid cfg.go _).reach hr').handles k i hi
    have hout := hout (hseen i hlt (by simp))
    rwa [State.out, hstage, List.append_nil] at hout

end
end Katas.Weir.Pipeline
