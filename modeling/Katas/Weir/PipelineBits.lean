import Katas.Weir.PipelineOrder

/-!
# The active bits

Under the bitmap policy a ring that holds events has its bit set, unless the
producer that published the last of them is still to test the bit, or the
consumer has just cleared it and is looking at the ring again. A retiring
slot keeps its bit likewise, until the consumer reclaims it; the Python port
decides beforehand whether a slot it clears is retiring, and there this needs
`clearsInTime`.
-/
namespace Katas.Weir.Pipeline
open Katas.Conc Flow Spsc

section
variable {V Tid : Type} (cfg : Config)

/-- A producer of slot `i` that has published, and is to test its bit. -/
def Place.owes (i : Nat) : Place V Tid → Prop
  | .published h _ | .tests (.pushed h _) | .sets (.pushed h _) => h.id = i
  | _ => False

/-- The consumer that has cleared bit `i`, and is to set it again if the ring
is not empty. -/
def Place.mends (s : State V Tid) (i : Nat) : Place V Tid → Prop
  | .clears .tailAgain j _ _ | .clears .restore j _ _ => j = i
  | .clears (.headAgain c) j _ _ => j = i ∧ c ≠ (s.slot i).ring.head
  | _ => False

/-- A thread that retires slot `i`, and is to test its bit. -/
def Place.leadsTo (i : Nat) : Place V Tid → Prop
  | .leaving h | .tests (.retired h) | .sets (.retired h) => h.id = i
  | _ => False

/-- The same, before it has looked at the bit. -/
def Place.looksTo (i : Nat) : Place V Tid → Prop
  | .leaving h | .tests (.retired h) => h.id = i
  | _ => False

/-- The consumer that has cleared bit `i`, and is to set it again if the slot
is retiring, or to free the slot. -/
def Place.restores (i : Nat) : Place V Tid → Prop
  | .clears .tailAgain j _ b | .clears (.headAgain _) j _ b =>
    j = i ∧ (cfg.port ≠ .python ∨ b = true)
  | .clears .state j _ _ => j = i ∧ cfg.port ≠ .python
  | .clears .restore j _ _ => j = i
  | .reclaims .free l => l.i = i
  | _ => False

structure Bits (s : State V Tid) (γ : Tid → Place V Tid) : Prop where
  filled : ∀ i, (s.slot i).ring.head ≠ (s.slot i).ring.tail →
    s.active i = true ∨ (∃ t, (γ t).owes i) ∨ ∃ t, (γ t).mends s i
  looking : ∀ i, (s.slot i).state = .retiring → s.looked i = true ∨ ∃ t, (γ t).looksTo i
  retiring : ∀ i, (s.slot i).state = .retiring →
    s.active i = true ∨ (∃ t, (γ t).leadsTo i) ∨ ∃ t, (γ t).restores cfg i

/-- Python's `clear_if_empty` does not clear the flag of a slot that it was
told is not retiring, once the slot's retirement has looked at the flag. -/
def clearsInTime (s : State V Tid) : Act V Tid → Prop
  | .bitClear (.clear false) i =>
    ¬ (cfg.port = .python ∧ (s.slot i).state = .retiring ∧ s.looked i = true)
  | _ => True

variable {cfg} {s s' : State V Tid} {g g' : Place V Tid} {i : Nat}

theorem Place.leadsTo.of_looks (h : g.looksTo i) : g.leadsTo i := by
  cases g with
  | leaving k => exact h
  | tests w => cases w with | retired k => exact h | pushed k v => cases h
  | _ => cases h

theorem Place.owes_item (h : g.owes i) :
    ∃ k v, g.item = some (k, v, true) ∧ k.id = i := by
  cases g with
  | published k v => exact ⟨k, v, rfl, h⟩
  | tests w | sets w =>
    cases w with
    | pushed k v => exact ⟨k, v, rfl, h⟩
    | retired k => cases h
  | _ => cases h

theorem Place.mends_congr (h : (s'.slot i).ring.head = (s.slot i).ring.head)
    (hm : g.mends s i) : g.mends s' i := by
  cases g with
  | clears p j rest b =>
    cases p with
    | headAgain c => exact ⟨hm.1, by rw [h]; exact hm.2⟩
    | tailAgain | restore => exact hm
    | judge | tail | head | unset | state => cases hm
  | _ => cases hm

theorem Place.mends_role (h : g.mends s i) : g.role = .consume := by
  cases g with
  | clears => rfl
  | _ => cases h

theorem Place.restores_role (h : g.restores cfg i) : g.role = .consume := by
  cases g with
  | clears | reclaims => rfl
  | _ => cases h

end

section
variable {V Tid : Type} [DecidableEq Tid] [Inhabited V] [Inhabited Tid] {cfg : Config}
  {s s' : State V Tid} {γ : Tid → Place V Tid} {t : Tid} {g g' : Place V Tid} {a : Act V Tid}
  {n i : Nat}

/-! ## What each step does about a bit -/

section
omit [Inhabited V] [Inhabited Tid]

/-- A producer that owes its test still owes it, or has found the bit set, or
sets it. -/
theorem Move.owes {r : Resp a} (hm : Move cfg g a r g') (hr : r = reply cfg n s a) (h : g.owes i) :
    g'.owes i ∨ (apply cfg t a n s).active i = true := by
  cases hm with
  | push hm =>
    cases hm with
    | count k v => exact .inl h
    | hintTail | hintHead | hintHigh | high => exact .inl h
    | test w b hs =>
      cases w with
      | pushed k v =>
        cases b with
        | false => exact .inl h
        | true =>
          obtain rfl : k.id = i := h
          exact .inr hr.symm
      | retired k => cases h
    | set w zero =>
      cases w with
      | pushed k v =>
        obtain rfl : k.id = i := h
        exact .inr (upd_self _ _ _)
      | retired k => cases h
    | _ => cases h
  | wake hm =>
    cases hm with
    | lock k | send k => cases k <;> cases h
    | notify k | unlock k => cases h
  | life hm | register hm | scan hm | drain hm | reclaim hm | clear hm | park hm =>
    cases hm <;> cases h

theorem Move.mends {r : Resp a} (hm : Move cfg g a r g') (hr : r = reply cfg n s a)
    (hne : (s.slot i).ring.head ≠ (s.slot i).ring.tail) (h : g.mends s i) :
    g'.mends (apply cfg t a n s) i ∨ (apply cfg t a n s).active i = true := by
  cases hm with
  | clear hm =>
    cases hm with
    | tailAgain j rest b c =>
      obtain rfl : j = i := h
      refine .inl ⟨rfl, fun hc => hne ?_⟩
      have hhead : ((apply cfg t (.tailSee (.clear b) j) n s).slot j).ring.head =
          (s.slot j).ring.head := (apply_passes rfl j).2
      have hc' : c = (s.slot j).ring.tail := hr
      omega
    | emptyAgain j rest b c hg =>
      obtain ⟨rfl, hc⟩ := h
      exact absurd hr hc
    | filledAgain j rest b hc => exact .inl h.1
    | restore j rest b zero hg =>
      obtain rfl : j = i := h
      exact .inr (upd_self _ _ _)
    | _ => cases h
  | wake hm =>
    cases hm with
    | lock k | send k => cases k <;> cases h
    | notify k | unlock k => cases h
  | life hm | register hm | scan hm | drain hm | reclaim hm | push hm | park hm =>
    cases hm <;> cases h

theorem Move.leadsTo {r : Resp a} (hm : Move cfg g a r g') (hr : r = reply cfg n s a)
    (hs : cfg.scan = .bitmap) (h : g.leadsTo i) :
    g'.leadsTo i ∨ (apply cfg t a n s).active i = true := by
  cases hm with
  | push hm =>
    cases hm with
    | pending k => rw [if_pos hs]; exact .inl h
    | test w b hs =>
      cases w with
      | pushed k v => cases h
      | retired k =>
        cases b with
        | false => exact .inl h
        | true =>
          obtain rfl : k.id = i := h
          exact .inr hr.symm
    | set w zero =>
      cases w with
      | pushed k v => cases h
      | retired k =>
        obtain rfl : k.id = i := h
        exact .inr (upd_self _ _ _)
    | _ => cases h
  | wake hm =>
    cases hm with
    | lock k | send k => cases k <;> cases h
    | notify k | unlock k => cases h
  | life hm | register hm | scan hm | drain hm | reclaim hm | clear hm | park hm =>
    cases hm <;> cases h

theorem Move.looksTo {r : Resp a} (hm : Move cfg g a r g') (hs : cfg.scan = .bitmap)
    (h : g.looksTo i) : g'.looksTo i ∨ (apply cfg t a n s).looked i = true := by
  cases hm with
  | push hm =>
    cases hm with
    | pending k => rw [if_pos hs]; exact .inl h
    | test w b hs =>
      cases w with
      | pushed k v => cases h
      | retired k =>
        obtain rfl : k.id = i := h
        exact .inr (upd_self _ _ _)
    | _ => cases h
  | wake hm =>
    cases hm with
    | lock k | send k => cases k <;> cases h
    | notify k | unlock k => cases h
  | life hm | register hm | scan hm | drain hm | reclaim hm | clear hm | park hm =>
    cases hm <;> cases h

theorem Move.restores {r : Resp a} (hm : Move cfg g a r g') (hr : r = reply cfg n s a)
    (hst : ((apply cfg t a n s).slot i).state = .retiring) (h : g.restores cfg i) :
    g'.restores cfg i ∨ (apply cfg t a n s).active i = true := by
  cases hm with
  | clear hm =>
    cases hm with
    | tailAgain j rest b c => exact .inl h
    | emptyAgain j rest b c hg =>
      obtain ⟨rfl, hb⟩ := h
      by_cases hp : cfg.port = .python
      · rw [if_pos hp, if_pos (hb.resolve_left fun hne => hne hp)] at hg
        subst hg; exact .inl rfl
      · rw [if_neg hp] at hg
        subst hg; exact .inl ⟨rfl, hp⟩
    | filledAgain j rest b hc => exact .inl h.1
    | retiring j rest b => exact .inl h.1
    | other j rest b hne hg =>
      obtain ⟨rfl, -⟩ := h
      rw [apply_state rfl] at hst
      exact absurd (hr.trans hst) hne
    | restore j rest b zero hg =>
      obtain rfl : j = i := h
      exact .inr (upd_self _ _ _)
    | _ => cases h
  | reclaim hm =>
    cases hm with
    | free l hg =>
      obtain rfl : l.i = i := h
      simp only [apply, State.turn, State.setSlot_slot, if_true] at hst
      cases hst
    | _ => cases h
  | wake hm =>
    cases hm with
    | lock k | send k => cases k <;> cases h
    | notify k | unlock k => cases h
  | life hm | register hm | scan hm | drain hm | push hm | park hm => cases hm <;> cases h

end

/-! ## The invariant -/

section
omit [Inhabited V] [Inhabited Tid]

/-- A bit is cleared where the consumer looks at its ring again, or reclaims
its slot. -/
theorem Move.clears {r : Resp a} (hm : Move cfg g a r g') (h : s.active i = true)
    (h' : (apply cfg t a n s).active i ≠ true) :
    (∃ rest b, a = .bitClear (.clear b) i ∧ g' = .clears .tailAgain i rest b) ∨
      ∃ l, a = .bitClear .reclaim i ∧ g = .reclaims .unset l ∧ g' = .reclaims .free l ∧ l.i = i := by
  cases a with
  | bitClear site j =>
    by_cases hj : i = j
    · subst hj
      cases hm with
      | clear hm => cases hm with | unset rest b => exact .inl ⟨_, _, rfl, rfl⟩
      | reclaim hm => cases hm with | unset l => exact .inr ⟨l, rfl, rfl, rfl, rfl⟩
      | life hm => cases hm with | waits hw => cases hw
      | wake hm | register hm | scan hm | drain hm | push hm | park hm => cases hm
    · exact absurd ((upd_ne _ _ hj).trans h) h'
  | bitSet site j =>
    by_cases hj : i = j
    · subst hj; exact absurd (upd_self _ _ _) h'
    · exact absurd ((upd_ne _ _ hj).trans h) h'
  | stateCas j =>
    refine absurd ?_ h'
    unfold apply
    dsimp only
    split <;> exact h
  | stateStore j st => cases st <;> exact absurd h h'
  | _ => exact absurd h h'

/-- A slot becomes retiring where its handle is retired. -/
theorem Move.retires {r : Resp a} (hm : Move cfg g a r g') (h : (s.slot i).state ≠ .retiring)
    (h' : ((apply cfg t a n s).slot i).state = .retiring) : ∃ k, g' = .leaving k ∧ k.id = i := by
  have hupd : ∀ {j : Nat} {st : SlotState}, st ≠ .retiring →
      (if i = j then { s.slot j with state := st } else s.slot i).state ≠ .retiring := by
    intro j st hst
    split
    · exact hst
    · exact h
  by_cases ht : a.turns = false
  · rw [apply_state ht] at h'; exact absurd h' h
  · obtain ⟨j, rfl, -⟩ | ⟨j, rfl, -⟩ | ⟨k, rfl, -, hg⟩ | ⟨l, rfl, -⟩ :=
      hm.turn_cases (by simpa using ht)
    · unfold apply at h'
      dsimp only at h'
      split at h'
      · exact absurd h' (hupd fun h => by cases h)
      · exact absurd h' h
    · exact absurd h' (hupd fun h => by cases h)
    · by_cases hi : i = k.id
      · exact ⟨k, hg, hi.symm⟩
      · simp only [apply, State.setSlot_slot, if_neg hi] at h'
        exact absurd h' h
    · exact absurd h' (hupd fun h => by cases h)

theorem Move.retires_looks {r : Resp a} (hm : Move cfg g a r g') (h : (s.slot i).state ≠ .retiring)
    (h' : ((apply cfg t a n s).slot i).state = .retiring) : g'.looksTo i := by
  obtain ⟨k, rfl, hk⟩ := hm.retires h h'
  exact hk

/-- A ring that was empty has an event where one is published. -/
theorem Move.fills {r : Resp a} (hm : Move cfg g a r g') (hg : RingAt cfg s t g)
    (h : (s.slot i).ring.head = (s.slot i).ring.tail)
    (h' : ((apply cfg t a n s).slot i).ring.head ≠ ((apply cfg t a n s).slot i).ring.tail)
    (hi : (s.slot i).ring.Inv cfg.capacity) : g'.owes i := by
  have hring : ∀ (j : Nat) (r : Spsc.Ring (Item V Tid)), (i = j → r.head = r.tail) →
      ((s.setRing j r).slot i).ring.head = ((s.setRing j r).slot i).ring.tail := by
    intro j r hr
    rw [State.setRing_ring]
    split
    · rename_i hj; exact hr hj
    · exact h
  by_cases ha : a.rings = false
  · rw [apply_ring ha] at h'; exact absurd h h'
  · cases hm with
    | push hm =>
      cases hm with
      | publish k v pos =>
        by_cases hi : i = k.id
        · exact hi.symm
        · refine absurd ?_ h'
          exact hring k.id _ fun he => absurd he hi
      | see k v pos c =>
        exact absurd (hring k.id _ fun he => by subst he; exact h) h'
      | write k v pos =>
        exact absurd (hring k.id _ fun he => by subst he; exact h) h'
      | _ => exact absurd rfl ha
    | drain hm =>
      cases hm with
      | look k got room c d =>
        exact absurd (hring k.i _ fun he => by subst he; exact h) h'
      | copied k got c m out hn =>
        refine absurd (hring k.i _ fun he => ?_) h'
        subst he
        obtain ⟨h1, h2, -, -⟩ := hg
        have h3 := hi.seenTail.2
        show c + m = (s.slot k.i).ring.tail
        omega
      | _ => exact absurd rfl ha
    | reclaim hm =>
      cases hm with
      | tail l c => exact absurd (hring l.i _ fun he => by subst he; exact h) h'
      | _ => exact absurd rfl ha
    | clear hm =>
      cases hm with
      | tail j | tailAgain j =>
        exact absurd (hring j _ fun he => by subst he; exact h) h'
      | _ => exact absurd rfl ha
    | life hm =>
      cases hm with
      | @waits a _ hw => cases a <;> first | exact absurd rfl ha | cases hw
      | _ => exact absurd rfl ha
    | _ hm => cases hm <;> exact absurd rfl ha

/-- The others leave the head of a ring to the consumer. -/
theorem Calls.head_kept (hc : Calls cfg s γ) {r : Resp a} (hm : Move cfg (γ t) a r g) {u : Tid}
    (hu : u ≠ t) (hrole : (γ u).role = .consume) :
    ((apply cfg t a n s).slot i).ring.head = (s.slot i).ring.head := by
  by_cases hp : a.passes = false
  · exact (apply_passes hp i).2
  · generalize hγ : γ t = g₀ at hm
    cases hm with
    | push hm =>
      cases hm with
      | publish k v pos => exact setSlot_comp (fun c => c.ring.head) _ _ _ rfl
      | _ => exact absurd rfl hp
    | drain hm =>
      cases hm with
      | copied k got c m out hn => exact absurd (hc.one_consumer hrole (by rw [hγ]; rfl)) hu
      | _ => exact absurd rfl hp
    | life hm =>
      cases hm with
      | @waits a _ hw => cases a <;> first | exact absurd rfl hp | cases hw
      | _ => exact absurd rfl hp
    | _ hm => cases hm <;> exact absurd rfl hp

theorem apply_looked (h : s.looked i = true)
    (hst : ((apply cfg t a n s).slot i).state = .retiring) : (apply cfg t a n s).looked i = true := by
  cases a with
  | stateCas j => unfold apply; dsimp only; split <;> exact h
  | stateStore j st =>
    cases st with
    | free =>
      by_cases hj : i = j
      · subst hj
        simp only [apply, State.turn, State.setSlot_slot, if_true] at hst
        cases hst
      · exact (upd_ne _ _ hj).trans h
    | active | retiring => exact h
  | bitLoad site j =>
    show (if site = .retire then upd s.looked j true else s.looked) i = true
    split
    · rw [upd_apply]
      split
      · rfl
      · exact h
    · exact h
  | _ => exact h

/-- What some thread is at before a step of `t`, some thread is at after it. -/
theorem some_place {P Q : Place V Tid → Prop} {R : Prop} (h : ∃ u, P (γ u))
    (ht : P (γ t) → Q g ∨ R) (hu : ∀ u, u ≠ t → P (γ u) → Q (γ u)) :
    (∃ u, Q (upd γ t g u)) ∨ R := by
  obtain ⟨u, hP⟩ := h
  by_cases he : u = t
  · subst he
    obtain hQ | hR := ht hP
    · exact .inl ⟨u, by rwa [upd_self]⟩
    · exact .inr hR
  · exact .inl ⟨u, by rw [upd_ne _ _ he]; exact hu u he hP⟩

/-- What some thread other than `t` is at, it is still at. -/
theorem other_place {P : Place V Tid → Prop} (h : ∃ u, P (γ u)) (ht : ¬ P (γ t)) :
    ∃ u, P (upd γ t g u) := by
  obtain ⟨u, hu⟩ := h
  have hne : u ≠ t := by
    rintro rfl
    exact ht hu
  exact ⟨u, by rwa [upd_ne _ _ hne]⟩

theorem Bits.move (hb : cfg.scan = .bitmap) (h : Bits cfg s γ) (hc : Calls cfg s γ)
    (hring : Rings cfg s γ) (hok : clearsInTime cfg s a) {r : Resp a} {g : Place V Tid}
    (hr : r = reply cfg n s a) (hm : Move cfg (γ t) a r g) :
    Bits cfg (apply cfg t a n s) (upd γ t g) := by
  refine ⟨fun i hne => ?_, fun i hst => ?_, fun i hst => ?_⟩
  · by_cases he : (s.slot i).ring.head = (s.slot i).ring.tail
    · exact .inr (.inl ⟨t, by rw [upd_self]; exact hm.fills (hring.at_ t) he hne (hring.inv i)⟩)
    · obtain hact | howes | hmends := h.filled i he
      · by_cases hact' : (apply cfg t a n s).active i = true
        · exact .inl hact'
        · obtain ⟨rest, b, rfl, rfl⟩ | ⟨l, rfl, hγ, rfl, rfl⟩ := hm.clears hact hact'
          · exact .inr (.inr ⟨t, by rw [upd_self]; rfl⟩)
          · have hat := hring.at_ t
            rw [hγ] at hat
            exact absurd hat he
      · obtain howes | hact := some_place howes (hm.owes hr) fun u _ hu => hu
        · exact .inr (.inl howes)
        · exact .inl hact
      · obtain hmends | hact := some_place hmends (hm.mends hr he) fun u hu hP =>
          Place.mends_congr (hc.head_kept hm hu (Place.mends_role hP)) hP
        · exact .inr (.inr hmends)
        · exact .inl hact
  · by_cases hold : (s.slot i).state = .retiring
    · obtain hl | hl := h.looking i hold
      · exact .inl (apply_looked hl hst)
      · exact (some_place hl (hm.looksTo hb) fun u _ hu => hu).symm
    · exact .inr ⟨t, by rw [upd_self]; exact hm.retires_looks hold hst⟩
  · by_cases hold : (s.slot i).state = .retiring
    · obtain hact | hl | hrest := h.retiring i hold
      · by_cases hact' : (apply cfg t a n s).active i = true
        · exact .inl hact'
        · obtain ⟨rest, b, rfl, rfl⟩ | ⟨l, rfl, hγ, rfl, rfl⟩ := hm.clears hact hact'
          · by_cases hp : cfg.port ≠ .python ∨ b = true
            · exact .inr (.inr ⟨t, by rw [upd_self]; exact ⟨rfl, hp⟩⟩)
            · -- the retirement is still to look at the flag that is cleared
              obtain ⟨hpy, rfl⟩ : cfg.port = .python ∧ b = false := by simpa using hp
              have hnot : s.looked i ≠ true := fun hl => hok ⟨hpy, hold, hl⟩
              have hlook := (h.looking i hold).resolve_left hnot
              obtain ⟨u, hu⟩ | hl := some_place hlook (hm.looksTo (t := t) (n := n) hb)
                fun u _ hu => hu
              · exact .inr (.inl ⟨u, Place.leadsTo.of_looks hu⟩)
              · exact absurd hl hnot
          · exact .inr (.inr ⟨t, by rw [upd_self]; rfl⟩)
      · obtain hl | hact := some_place hl (hm.leadsTo hr hb) fun u _ hu => hu
        · exact .inr (.inl hl)
        · exact .inl hact
      · obtain hrest | hact := some_place hrest (hm.restores hr hst) fun u _ hu => hu
        · exact .inr (.inr hrest)
        · exact .inl hact
    · exact .inr (.inl ⟨t, by rw [upd_self]; exact Place.leadsTo.of_looks (hm.retires_looks hold hst)⟩)

end

omit [DecidableEq Tid] [Inhabited V] [Inhabited Tid] in
theorem endPlace_bits (hb : cfg.scan = .bitmap) {c : Call V} {r : Result}
    (he : endPlace cfg c r g) : ¬ g.owes i ∧ ¬ g.mends s i ∧ ¬ g.leadsTo i ∧ ¬ g.looksTo i ∧
      ¬ g.restores cfg i := by
  cases c with
  | start => obtain ⟨-, rfl⟩ := he; exact ⟨id, id, id, id, id⟩
  | stop m => obtain ⟨-, rfl⟩ | ⟨-, rfl⟩ := he <;> exact ⟨id, id, id, id, id⟩
  | register => obtain ⟨-, rfl⟩ | ⟨i, -, rfl | ⟨-, rfl⟩⟩ := he <;> exact ⟨id, id, id, id, id⟩
  | push k v =>
    obtain ⟨-, rfl | rfl⟩ | ⟨-, rfl | ⟨hf, -⟩⟩ := he
    · exact ⟨id, id, id, id, id⟩
    · exact ⟨id, id, id, id, id⟩
    · exact ⟨id, id, id, id, id⟩
    · rw [hb] at hf; cases hf
  | retire k => obtain ⟨-, rfl⟩ := he; exact ⟨id, id, id, id, id⟩
  | consume => obtain ⟨-, rfl⟩ := he; exact ⟨id, id, id, id, id⟩

variable (V Tid cfg) in
theorem bits_keeps (hb : cfg.scan = .bitmap) (ok : Tid → Act V Tid → State V Tid → Prop)
    (hok : ∀ t a s, ok t a s → clearsInTime cfg s a) : (flow V Tid cfg).Keeps ok (Bits cfg) where
  init := ⟨fun _ h => absurd rfl h, nofun, nofun⟩
  begin {s γ} _ h t c hi he := by
    have hplace : ∀ {P : Place V Tid → Prop}, ¬ P .idle → (∃ u, P (γ u)) →
        ∃ u, P (upd γ t (startPlace c) u) := fun hP he =>
      other_place he (by rw [show γ t = .idle from hi]; exact hP)
    have hfr : (begin cfg t c s).active = s.active ∧ (begin cfg t c s).looked = s.looked := by
      rw [begin_eq]; exact ⟨rfl, rfl⟩
    have hm : ∀ {i : Nat} {g : Place V Tid}, g.mends s i → g.mends (begin cfg t c s) i :=
      fun hg => Place.mends_congr (by rw [begin_slot]) hg
    refine ⟨fun i hne => ?_, fun i hst => ?_, fun i hst => ?_⟩
    · rw [begin_slot] at hne
      rw [hfr.1]
      obtain hact | howes | ⟨u, hu⟩ := h.filled i hne
      · exact .inl hact
      · exact .inr (.inl (hplace id howes))
      · exact .inr (.inr (hplace id ⟨u, hm hu⟩))
    · rw [begin_slot] at hst
      rw [hfr.2]
      exact (h.looking i hst).imp_right (hplace id)
    · rw [begin_slot] at hst
      rw [hfr.1]
      exact (h.retiring i hst).imp_right (Or.imp (hplace id) (hplace id))
  move hr h t a n s' r g ha hs hm := by
    obtain ⟨-, rfl, h2⟩ := sem_some cfg hs
    exact h.move hb ((calls_keeps V Tid cfg _).reach hr) ((rings_keeps V Tid cfg _).reach hr)
      (hok t a _ ha) h2 hm
  finish {s γ} _ h t c r he := by
    have hfr : (finish cfg t c r s).active = s.active ∧ (finish cfg t c r s).looked = s.looked := by
      rw [finish_eq]; exact ⟨rfl, rfl⟩
    have hend : ∀ i, ¬ (γ t).owes i ∧ ¬ (γ t).mends s i ∧ ¬ (γ t).leadsTo i ∧
        ¬ (γ t).looksTo i ∧ ¬ (γ t).restores cfg i := fun i => endPlace_bits hb he
    have hm : ∀ {i : Nat} {g : Place V Tid}, g.mends s i → g.mends (finish cfg t c r s) i :=
      fun hg => Place.mends_congr (by rw [finish_slot]) hg
    refine ⟨fun i hne => ?_, fun i hst => ?_, fun i hst => ?_⟩
    · rw [finish_slot] at hne
      rw [hfr.1]
      obtain hact | howes | hmends := h.filled i hne
      · exact .inl hact
      · exact .inr (.inl (other_place howes (hend i).1))
      · obtain ⟨u, hu⟩ := other_place hmends (hend i).2.1
        exact .inr (.inr ⟨u, hm hu⟩)
    · rw [finish_slot] at hst
      rw [hfr.2]
      exact (h.looking i hst).imp_right fun he => other_place he (hend i).2.2.2.1
    · rw [finish_slot] at hst
      rw [hfr.1]
      exact (h.retiring i hst).imp_right
        (Or.imp (fun he => other_place he (hend i).2.2.1) fun he => other_place he (hend i).2.2.2.2)

/-! ## The handshake -/

/-- The consumer has cleared bit `i`, and is looking at the ring again. -/
def Rechecks (x : System.Config (pipeline V Tid cfg)) (i : Nat) : Prop :=
  ∃ t b, System.AtOp x t (.tailSee (.clear b) i) ∨ System.AtOp x t (.headLoad (.clear b) i) ∨
    System.AtOp x t (.bitSet (.clear b) i)

/-- The last event of slot `i` was published by a push that has not returned. -/
def Publishing (s : State V Tid) (i : Nat) : Prop :=
  ∃ e, e.handle.id = i ∧ e ∈ (s.slot i).ring.log ∧ Returning s e

omit [DecidableEq Tid] [Inhabited V] [Inhabited Tid] in
theorem Move.rechecks {r : Resp a} (hm : Move cfg g a r g') (h : g.mends s i) :
    ∃ b, a = .tailSee (.clear b) i ∨ a = .headLoad (.clear b) i ∨ a = .bitSet (.clear b) i := by
  cases hm with
  | clear hm =>
    cases hm with
    | tailAgain j rest b c => obtain rfl : j = i := h; exact ⟨b, .inl rfl⟩
    | emptyAgain j rest b c hg => obtain ⟨rfl, -⟩ := h; exact ⟨b, .inr (.inl rfl)⟩
    | filledAgain j rest b hc => obtain ⟨rfl, -⟩ := h; exact ⟨b, .inr (.inl rfl)⟩
    | restore j rest b zero hg => obtain rfl : j = i := h; exact ⟨b, .inr (.inr rfl)⟩
    | _ => cases h
  | wake hm =>
    cases hm with
    | lock k | send k => cases k <;> cases h
    | notify k | unlock k => cases h
  | life hm | register hm | scan hm | drain hm | reclaim hm | push hm | park hm =>
    cases hm <;> cases h

/-- Before an operation: where no call returns and no procedure begins. -/
def Place.inside : Place V Tid → Prop
  | .clears _ _ _ _ | .reclaims _ _ | .scans _ _ _ => True
  | _ => False

omit [DecidableEq Tid] [Inhabited V] [Inhabited Tid] in
variable (cfg) in
theorem Place.inside.acts (hg : g.inside) : g ≠ .idle ∧
    (∀ (c : Call V) (r : Result), ¬ endPlace cfg c r g) ∧ ∀ p : Proc, ¬ procPre cfg p g := by
  refine ⟨?_, fun c r he => ?_, fun q hq => ?_⟩
  · rintro rfl
    exact hg
  · cases c with
    | start => obtain ⟨-, rfl⟩ := he; exact hg
    | stop m => obtain ⟨-, rfl⟩ | ⟨-, rfl⟩ := he <;> exact hg
    | register => obtain ⟨-, rfl⟩ | ⟨j, -, rfl | ⟨-, rfl⟩⟩ := he <;> exact hg
    | push k v => obtain ⟨-, rfl | rfl⟩ | ⟨-, rfl | ⟨-, rfl⟩⟩ := he <;> exact hg
    | retire k => obtain ⟨-, rfl⟩ := he; exact hg
    | consume => obtain ⟨-, rfl⟩ := he; exact hg
  · cases q with
    | drainLoop site j got =>
      obtain ⟨k, -, -, rfl⟩ := hq
      unfold loopAt at hg
      split at hg <;> exact hg
    | registerLoop => obtain ⟨-, rfl⟩ := hq; exact hg
    | quiesceLoop | consumeLoop =>
      have hq : g = _ := hq
      subst hq
      exact hg
    | finalLoop => obtain ⟨-, rfl⟩ | ⟨-, rfl⟩ := hq <;> exact hg

theorem inside_acts {x : System.Config (pipeline V Tid cfg)}
    (h : (flow V Tid cfg).Stands t g (x.thread t)) (hg : g.inside) :
    ∃ a, System.AtOp x t a ∧ ∀ r, ∃ g', Move cfg g a r g' := by
  obtain ⟨hidle, hends, hpre⟩ := hg.acts cfg
  exact h.act hidle hends hpre

theorem rechecks_of_mends {x : System.Config (pipeline V Tid cfg)}
    (hst : (flow V Tid cfg).Stands t g (x.thread t)) (h : g.mends x.state i) : Rechecks x i := by
  cases g with
  | clears p j rest b =>
    obtain ⟨a, hat, hmove⟩ := inside_acts hst trivial
    obtain ⟨g', hm⟩ := hmove (reply cfg 0 x.state a)
    obtain ⟨b', rfl | rfl | rfl⟩ := hm.rechecks h
    · exact ⟨t, b', .inl hat⟩
    · exact ⟨t, b', .inr (.inl hat)⟩
    · exact ⟨t, b', .inr (.inr hat)⟩
  | _ => cases h

omit [DecidableEq Tid] [Inhabited V] [Inhabited Tid] in
/-- Only the Python port is told beforehand whether a slot is retiring. -/
theorem clears_of_port (hp : cfg.port ≠ .python) (s : State V Tid) (a : Act V Tid) :
    clearsInTime cfg s a := by
  cases a with
  | bitClear site i =>
    cases site with
    | clear b => cases b with
      | false => exact fun h => hp h.1
      | true => trivial
    | _ => trivial
  | _ => trivial

/-- A ring that holds events has its bit set, or a push that has published in
it has not returned, or the consumer has cleared the bit and is looking at the
ring again. -/
theorem published_has_bit (hp : cfg.port ≠ .python) (hb : cfg.scan = .bitmap)
    {x : System.Config (pipeline V Tid cfg)} (hx : (pipeline V Tid cfg).Reachable x) (i : Nat)
    (hne : (x.state.slot i).ring.head ≠ (x.state.slot i).ring.tail) :
    x.state.active i = true ∨ Publishing x.state i ∨ Rechecks x i := by
  obtain ⟨γ, hγ, hst⟩ := (follows V Tid cfg).stands hx.reachableIf
  have hc := (calls_keeps V Tid cfg _).reach hγ
  have ho := (order_keeps V Tid cfg _).reach hγ
  have h := (bits_keeps V Tid cfg hb _ fun _ a s _ => clears_of_port hp s a).reach hγ
  obtain hact | ⟨t, ht⟩ | ⟨t, ht⟩ := h.filled i hne
  · exact .inl hact
  · obtain ⟨k, v, hitem, rfl⟩ := Place.owes_item ht
    have htold := ho.pushing t k v true hitem
    refine .inr (.inl ⟨⟨k, x.state.me t, v⟩, rfl, ?_, t, hc.push (Place.item_role hitem), rfl⟩)
    have hmem : ⟨k, x.state.me t, v⟩ ∈ x.state.told k.id k.serial := by
      rw [htold]
      exact List.mem_append_right _ (List.mem_singleton.mpr rfl)
    exact (List.mem_filter.mp hmem).1
  · exact .inr (.inr (rechecks_of_mends (hst t) ht))

end

/-- An event is pushed before the consumer runs. -/
def oneWaiting : List (System.Label (pipeline Nat Nat (.tiny .go .bitmap))) :=
  does _ 0 .start 4 ++ does _ 1 .register 7 ++ does _ 1 (.push ⟨0, 0⟩ 7) 12

theorem published_has_bit_one : ∃ x : System.Config (pipeline Nat Nat (.tiny .go .bitmap)),
    (x.state.slot 0).ring.head ≠ (x.state.slot 0).ring.tail ∧
      (x.state.active 0 = true ∨ Publishing x.state 0 ∨ Rechecks x 0) := by
  obtain ⟨x, hx, hp⟩ := System.reachable_of_test oneWaiting
    (fun x => decide ((x.state.slot 0).ring.head ≠ (x.state.slot 0).ring.tail)) (by decide +kernel)
  have hne := of_decide_eq_true hp
  exact ⟨x, hne, published_has_bit (by decide) rfl hx 0 hne⟩

end Katas.Weir.Pipeline
