import Katas.Weir.PipelineReclaim
import Katas.Weir.PipelineShutdown

/-!
# What a drain delivers

When the stop that stops has returned, the consumer has ended: every ring was
found empty after it last took anything, and nothing is staged. So what was
published by then is in the sink. A push that is past its look at `accepting`
may still publish afterwards, and then returns true for an event that stays in
its ring: `inTime` is what excludes it, and Python's join with a timeout.
-/
namespace Katas.Weir.Pipeline
open Katas.Conc Flow

section
variable {V Tid : Type} [DecidableEq Tid] [Inhabited V] [Inhabited Tid] {cfg : Config}
  {s s' : State V Tid} {γ : Tid → Place V Tid} {t : Tid} {g : Place V Tid} {a : Act V Tid} {n : Nat}

/-- A push publishes before the last drain finds its ring empty, and the join
does not time out. -/
def inTime (_ : Tid) (a : Act V Tid) (s : State V Tid) : Prop :=
  match a with
  | .tailStore i _ => s.shut i = false
  | .join => s.exited = true
  | _ => True

instance (t : Tid) (a : Act V Tid) (s : State V Tid) : Decidable (inTime t a s) := by
  unfold inTime
  split <;> infer_instance

/-- A stop that has joined, or returned, left no consumer. -/
structure Joined (s : State V Tid) (γ : Tid → Place V Tid) : Prop where
  joined : ∀ t, γ t = .stopped → s.exited = true
  returned : s.returned = true → s.exited = true
  starting : ∀ t, γ t = .starting → s.returned = false

/-- What was found empty is. -/
def Emptied (s : State V Tid) : Prop :=
  ∀ i, s.shut i = true → (s.slot i).ring.head = (s.slot i).ring.tail

/-! ## The end of a stop -/

omit [DecidableEq Tid] [Inhabited V] [Inhabited Tid] in
/-- The consumer has ended, and is started again by nobody but the one in
`start`. -/
theorem Calls.no_start (h : Calls cfg s γ) (hex : s.exited = true) {u : Tid}
    (ht : γ t = .starting) : (γ u).role ≠ .stop := by
  intro hu
  obtain hs | ⟨hp, -⟩ := h.starting t ht
  · exact Bool.false_ne_true (hs.symm.trans (h.ended hex))
  · obtain ⟨m, hm⟩ := h.stop hu
    have hl := h.starts t (h.start (by rw [ht]; rfl))
    have hut : u = t := Option.some.inj ((h.stops hp u m hm).symm.trans hl)
    subst hut
    rw [ht] at hu
    cases hu

omit [DecidableEq Tid] [Inhabited V] [Inhabited Tid] in
theorem Move.to_stopped {r : Resp a} {g' : Place V Tid} (hm : Move cfg g a r g')
    (hg : g' = .stopped) : g = .stopped ∨ a = .join := by
  have hrole : g.role = .stop := by rw [← hm.role, hg]; rfl
  cases hm with
  | life hm =>
    cases hm with
    | join => exact .inr rfl
    | onceDone | unlock => exact .inl rfl
    | _ => cases hg
  | wake hm =>
    cases hm with
    | lock k | notify k => cases hg
    | unlock k | send k => cases k <;> cases hg
  | scan hm =>
    cases hm with
    | load w i rest ids st => cases w <;> cases hrole
    | register | reclaim => cases hrole
  | push hm =>
    cases hm with
    | test w | set w | mind w => cases w <;> cases hrole
    | _ => cases hrole
  | _ hm => cases hm <;> cases hrole

omit [Inhabited V] [Inhabited Tid] in
theorem Joined.move (h : Joined s γ) (hc : Calls cfg s γ) {r : Resp a}
    (hj : a = .join → s.exited = true) (hm : Move cfg (γ t) a r g) :
    Joined (apply cfg t a n s) (upd γ t g) := by
  have hstart : a = .threadStart → γ t = .starting := by
    rintro rfl
    exact hm.starts
  refine ⟨?_, fun hret => ?_, fun u hu => ?_⟩
  · have hkeep : ∀ u, γ u = .stopped → (apply cfg t a n s).exited = true := by
      intro u hu
      have hex := h.joined u hu
      rwa [apply_exited fun ha => hc.no_start hex (hstart ha) (u := u) (by rw [hu]; rfl)]
    intro u hu
    by_cases ht : u = t
    · subst ht
      rw [upd_self] at hu
      obtain hγ | rfl := hm.to_stopped hu
      · exact hkeep u hγ
      · exact hj rfl
    · rw [upd_ne _ _ ht] at hu
      exact hkeep u hu
  · rw [apply_returned] at hret
    rw [apply_exited fun ha => ?_]
    · exact h.returned hret
    · exact Bool.false_ne_true ((h.starting t (hstart ha)).symm.trans hret)
  · rw [apply_returned]
    by_cases ht : u = t
    · subst ht
      rw [upd_self] at hu
      subst hu
      exact h.starting u hm.to_starting.1
    · rw [upd_ne _ _ ht] at hu
      exact h.starting u hu

variable {c : Call V} {r : Result}

omit [Inhabited V] [Inhabited Tid] in
theorem Joined.begins (h : Joined s γ) : Joined (begin cfg t c s) (upd γ t (startPlace c)) := by
  refine ⟨fun u hu => ?_, fun hret => ?_, fun u hu => ?_⟩
  · rw [begin_exited]
    by_cases ht : u = t
    · subst ht
      rw [upd_self] at hu
      cases c <;> cases hu
    · rw [upd_ne _ _ ht] at hu
      exact h.joined u hu
  · rw [begin_exited]
    cases c with
    | start => cases hret
    | _ => exact h.returned hret
  · cases c with
    | start => rfl
    | _ =>
      by_cases ht : u = t
      · subst ht
        rw [upd_self] at hu
        cases hu
      · rw [upd_ne _ _ ht] at hu
        exact h.starting u hu

omit [Inhabited V] [Inhabited Tid] in
theorem Joined.finishes (h : Joined s γ) (hc : Calls cfg s γ) (he : endPlace cfg c r (γ t)) :
    Joined (finish cfg t c r s) (upd γ t .idle) := by
  have hplace : ∀ {u} {g : Place V Tid}, g ≠ .idle → upd γ t .idle u = g → γ u = g := by
    intro u g hne hu
    by_cases ht : u = t
    · rw [ht, upd_self] at hu
      exact absurd hu.symm hne
    · rwa [upd_ne _ _ ht] at hu
  have hex : s.exited = true → (finish cfg t c r s).exited = true := by
    intro hex
    by_cases hc : c = .consume
    · subst hc; rfl
    · rwa [finish_exited hc]
  -- a stop that returns has joined, and nobody is starting then
  have hret : (finish cfg t c r s).returned = s.returned ∨
      s.exited = true ∧ (γ t).role = .stop := by
    unfold finish
    split
    case h_2 =>
      obtain ⟨-, hγ⟩ | ⟨hr, -⟩ := he
      · exact .inr ⟨h.joined t hγ, by rw [hγ]; rfl⟩
      · cases hr
    all_goals exact .inl rfl
  refine ⟨fun u hu => hex (h.joined u (hplace (fun h => by cases h) hu)), fun hr => ?_, fun u hu => ?_⟩
  · obtain he | ⟨he, -⟩ := hret
    · rw [he] at hr
      exact hex (h.returned hr)
    · exact hex he
  · have hu := hplace (fun h => by cases h) hu
    obtain he | ⟨he, hrole⟩ := hret
    · rw [he]
      exact h.starting u hu
    · exact absurd hrole (hc.no_start he hu)

variable (V Tid cfg) in
/-- Where a join waits for the consumer's end. -/
theorem joined_keeps {ok : Tid → Act V Tid → State V Tid → Prop}
    (hj : ∀ t n s, ok t .join s → ready cfg (.join : Act V Tid) n s = true → s.exited = true) :
    (flow V Tid cfg).Keeps ok Joined where
  init := ⟨nofun, nofun, nofun⟩
  begin _ h t c _ _ := h.begins
  move hr h t a n s' r g hok hs hm := by
    obtain ⟨hready, rfl, -⟩ := sem_some cfg hs
    refine h.move ((calls_keeps V Tid cfg _).reach hr) ?_ hm
    rintro rfl
    exact hj t n _ hok hready
  finish hr h t c r he := h.finishes ((calls_keeps V Tid cfg _).reach hr) he

/-! ## What was found empty -/

omit [DecidableEq Tid] [Inhabited V] [Inhabited Tid] in
theorem shutAfter_true {site : Site} {i j : Nat} {b : Bool} (h : s.shutAfter site j b i = true) :
    s.shut i = true ∨ i = j ∧ b = true := by
  unfold State.shutAfter at h
  split at h
  · rename_i hb
    by_cases hi : i = j
    · exact .inr ⟨hi, hb.2⟩
    · rw [upd_ne _ _ hi] at h
      exact .inl h
  · exact .inl h

section
omit [Inhabited V] [Inhabited Tid]

/-- A ring is found empty when it is. -/
theorem Rings.shuts (h : Rings cfg s γ) {i : Nat} (hi : (apply cfg t a n s).shut i = true) :
    s.shut i = true ∨ (s.slot i).ring.head = (s.slot i).ring.tail := by
  by_cases hd : a.drains = false
  · rw [(apply_drains hd).2] at hi
    exact .inl hi
  · cases a with
    | stateLoad site j =>
      obtain hs | ⟨rfl, hb⟩ := shutAfter_true hi
      · exact .inl hs
      · exact .inr (h.free i (of_decide_eq_true hb))
    | tailSee site j =>
      obtain hs | ⟨rfl, hb⟩ := shutAfter_true hi
      · exact .inl hs
      · exact .inr (of_decide_eq_true hb).symm
    | sinkWrite => exact .inl hi
    | headStore | threadStart => cases hi
    | _ => exact absurd rfl hd

/-- What neither publishes nor takes leaves the ends of the rings. -/
theorem apply_ends (ht : ∀ i pos, a ≠ .tailStore i pos) (hh : ∀ i pos out, a ≠ .headStore i pos out)
    (i : Nat) : ((apply cfg t a n s).slot i).ring.head = (s.slot i).ring.head ∧
      ((apply cfg t a n s).slot i).ring.tail = (s.slot i).ring.tail := by
  by_cases ha : a.rings = false
  · rw [apply_ring ha]
    exact ⟨rfl, rfl⟩
  · cases a with
    | tailStore i pos => exact absurd rfl (ht i pos)
    | headStore i pos out => exact absurd rfl (hh i pos out)
    | tailSee site j | headSee j | slotStore k pos v =>
      exact ⟨setSlot_comp (fun c => c.ring.head) _ _ _ rfl,
        setSlot_comp (fun c => c.ring.tail) _ _ _ rfl⟩
    | _ => exact absurd rfl ha

theorem Emptied.move (h : Emptied s) (hr : Rings cfg s γ) (hok : inTime t a s) :
    Emptied (apply cfg t a n s) := by
  intro i hi
  by_cases ht : ∃ j pos, a = .tailStore j pos
  · obtain ⟨j, pos, rfl⟩ := ht
    have hne : i ≠ j := by
      rintro rfl
      have hok : s.shut i = false := hok
      exact Bool.false_ne_true (hok.symm.trans hi)
    have hring : ((apply cfg t (.tailStore j pos) n s).slot i).ring = (s.slot i).ring :=
      (State.setRing_ring _ _ _).trans (if_neg hne)
    rw [hring]
    exact h i hi
  · by_cases hh : ∃ j pos out, a = .headStore j pos out
    · obtain ⟨j, pos, out, rfl⟩ := hh
      cases hi
    · have hend : (s.slot i).ring.head = (s.slot i).ring.tail := by
        obtain hs | he := hr.shuts hi
        · exact h i hs
        · exact he
      obtain ⟨h1, h2⟩ := apply_ends (t := t) (n := n) (s := s) (fun j pos he => ht ⟨j, pos, he⟩)
        (fun j pos out he => hh ⟨j, pos, out, he⟩) i
      rw [h1, h2, hend]

end

variable (V Tid cfg) in
theorem emptied_keeps : (flow V Tid cfg).Keeps inTime fun s _ => Emptied s where
  init := nofun
  begin _ h t c _ _ := by
    intro i hi
    rw [begin_shut] at hi
    rw [begin_slot]
    exact h i hi
  move hr h t a n s' r g hok hs hm := by
    obtain ⟨-, rfl, -⟩ := sem_some cfg hs
    exact h.move ((rings_keeps V Tid cfg _).reach hr) hok
  finish _ h t c r he := by
    intro i hi
    rw [finish_shut] at hi
    rw [finish_slot]
    exact h i hi

/-! ## What was accepted -/

omit [DecidableEq Tid] [Inhabited V] [Inhabited Tid] in
/-- What a push has returned true for was published. -/
theorem Order.accepted_published (h : Order s γ) (hc : Calls cfg s γ) {k : Nat} {e : Item V Tid}
    (he : e ∈ (s.record k).accepted) :
    ∃ i, s.handles[k]? = some i ∧ e ∈ (s.slot i).ring.log := by
  by_cases hk : k < s.handles.length
  · have hget : s.handles[k]? = some s.handles[k] := List.getElem?_eq_getElem hk
    refine ⟨_, hget, ?_⟩
    have htold : e ∈ s.told s.handles[k] k := by
      obtain heq | ⟨y, -, -, heq⟩ := h.told_eq hc hget
      · rw [heq]; exact he
      · rw [heq]; exact List.mem_append_left _ he
    exact (List.mem_filter.mp htold).1
  · rw [h.fresh k (Nat.le_of_not_lt hk)] at he
    cases he

omit [DecidableEq Tid] [Inhabited V] [Inhabited Tid] in
/-- What was published into an empty ring has left it. -/
theorem Order.out_of_empty (h : Order s γ) (hr : Rings cfg s γ) {i : Nat} {e : Item V Tid}
    (he : e ∈ (s.slot i).ring.log) (hi : (s.slot i).ring.head = (s.slot i).ring.tail) :
    e ∈ s.out := by
  have htaken := h.taken i
  rw [hi, ← (hr.inv i).length, List.take_length] at htaken
  rw [← htaken] at he
  exact (List.mem_filter.mp he).1

/-- When the stop that stops has returned, what pushes returned true for is in
the sink, whatever they did while it stopped the pipeline, if every publication
came before the last look at its ring. -/
theorem drain_delivers {x : System.Config (pipeline V Tid cfg)} (hx : System.ReachableIf inTime x)
    (hr : x.state.returned = true) (k : Nat) :
    ∀ e ∈ (x.state.record k).accepted, e ∈ x.state.sink := by
  intro e he
  obtain ⟨γ, hγ, -⟩ := (follows V Tid cfg).places hx
  have hex := ((joined_keeps V Tid cfg fun _ _ _ hok _ => hok).reach hγ).returned hr
  obtain ⟨hstage, hseen⟩ := ((drained_keeps V Tid cfg _).reach hγ).ended hex
  have hord := (order_keeps V Tid cfg _).reach hγ
  obtain ⟨i, hi, hlog⟩ := hord.accepted_published ((calls_keeps V Tid cfg _).reach hγ) he
  -- the ring was found empty, and nothing was published since
  have hlt := ((bounds_keeps V Tid cfg _).reach hγ).handles k i hi
  have hempty := (emptied_keeps V Tid cfg).reach hγ i (hseen i hlt (by simp))
  have hout := hord.out_of_empty ((rings_keeps V Tid cfg _).reach hγ) hlog hempty
  rwa [State.out, hstage, List.append_nil] at hout

end

/-- An event is pushed and taken; then a stop drains, and the consumer ends. -/
def stopsDrained : List (System.Label (three .cpp)) :=
  does _ 0 .start 4 ++ does _ 1 .register 5 ++ does _ 1 (.push ⟨0, 0⟩ 7) 14 ++
  does _ 2 .consume 18 ++ does _ 0 (.stop .drain) 141 ++ ops _ 2 210 ++ ops _ 0 2

theorem drain_delivers_one : ∃ x : System.Config (three .cpp), System.ReachableIf inTime x ∧
    x.state.returned = true ∧ x.state.drainMet = true ∧
      (x.state.record 0).accepted = [⟨⟨0, 0⟩, (1, 2), 7⟩] ∧
      ∀ e ∈ (x.state.record 0).accepted, e ∈ x.state.sink := by
  obtain ⟨x, hx, hp⟩ := System.reachableIf_of_test (@System.of_meets _ inTime _) stopsDrained
    (fun x => x.state.returned && (x.state.drainMet &&
      decide ((x.state.record 0).accepted = [⟨⟨0, 0⟩, (1, 2), 7⟩]))) (by decide +kernel)
  rw [Bool.and_eq_true, Bool.and_eq_true, decide_eq_true_eq] at hp
  exact ⟨x, hx, hp.1, hp.2.1, hp.2.2, drain_delivers hx hp.1 0⟩

/-- A push has found the pipeline accepting. A stop drains, finds every ring
empty, and returns; then the push publishes. -/
def pushesLate : List (System.Label (three .cpp)) :=
  does _ 0 .start 4 ++ does _ 1 .register 5 ++ does _ 1 (.push ⟨0, 0⟩ 7) 1 ++
  does _ 0 (.stop .drain) 141 ++ does _ 2 .consume 210 ++ ops _ 0 2 ++ ops _ 1 13

/-- A push has returned true, and the consumer has ended without its event. -/
theorem accepted_not_delivered : ∃ x : System.Config (three .cpp), (three .cpp).Reachable x ∧
    x.state.returned = true ∧ x.state.drainMet = true ∧ x.state.exited = true ∧
      ∃ e ∈ (x.state.record 0).accepted, e ∉ x.state.sink := by
  obtain ⟨x, hx, hp⟩ := System.reachable_of_test pushesLate
    (fun x => x.state.returned && (x.state.drainMet && (x.state.exited &&
      decide ((x.state.record 0).accepted = [⟨⟨0, 0⟩, (1, 2), 7⟩] ∧ x.state.sink = []))))
    (by decide +kernel)
  rw [Bool.and_eq_true, Bool.and_eq_true, Bool.and_eq_true, decide_eq_true_eq] at hp
  obtain ⟨hret, hmet, hex, hacc, hsink⟩ := hp
  refine ⟨x, hx, hret, hmet, hex, ⟨⟨0, 0⟩, (1, 2), 7⟩, ?_, ?_⟩
  · rw [hacc]; exact List.mem_singleton_self _
  · rw [hsink]; exact List.not_mem_nil

end Katas.Weir.Pipeline
