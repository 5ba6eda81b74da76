import Katas.Turnstile.Cpp.ShardedFlow

/-!
# The sharded queue's invariant

Each ring keeps `Spsc.Ring.Inv`. A thread's place says what it knows of the
indices it has read; another thread's operation leaves that knowledge,
because a ring's tail, its producer's copy of the head and the slot at the
tail are the producer's, and its head and the copy of the tail its
consumer's. The histories record which pushes were begun, what was taken and
what was returned.
-/
namespace Katas.Turnstile.Sharded
open Katas.Conc

section
variable {V Tid : Type} [Inhabited V] [Inhabited Tid] [DecidableEq Tid] {g : Shape}

/-- Whose id a thread at this place uses. -/
def Place.role : Place V Tid → Option Side
  | .pushing p _ | .tailed p _ _ | .full p _ _ | .seen p _ _ _ | .room p _ _ | .wrote p _ _
  | .pushed p _ => some (.producer p)
  | .heads c _ _ | .stale c _ _ | .fresh c _ _ _ | .ready c _ _ | .holds c _ _ _ | .took c _
  | .checks c _ | .checked c _ _ => some (.consumer c)
  | _ => none

/-- The push is begun, and what its producer published came before it. -/
structure Pending (g : Shape) (s : State V Tid) (t : Tid) (p : Nat) (v : V) : Prop where
  bound : p < g.P
  begun : ∃ l, s.begun p = l ++ [⟨p, s.me t, v⟩] ∧ (s.shard p).log.Sublist l

/-- The ring is closed, and all that is in it was taken. -/
def Shut (s : State V Tid) (p : Nat) : Prop :=
  (s.shard p).closed = true ∧ (s.shard p).head = (s.shard p).tail

/-- Position `pos` is the tail, and its slot is free. -/
def Room (g : Shape) (s : State V Tid) (p pos : Nat) : Prop :=
  pos = (s.shard p).tail ∧ pos < (s.shard p).cachedHead + g.ring.n

/-- Ring `i` is one of consumer `c`'s, and `h` its head. -/
def AtHead (g : Shape) (s : State V Tid) (c i h : Nat) : Prop :=
  c < g.C ∧ i < g.kOwned ∧ h = (s.shard (g.ring_of c i)).head

/-- What a thread's place says. -/
def At (g : Shape) (s : State V Tid) (t : Tid) : Place V Tid → Prop
  | .pushing p v => Pending g s t p v
  | .tailed p v pos | .full p v pos => Pending g s t p v ∧ pos = (s.shard p).tail
  | .seen p v pos h => Pending g s t p v ∧ pos = (s.shard p).tail ∧
      (s.shard p).cachedHead ≤ h ∧ h ≤ (s.shard p).head
  | .room p v pos => Pending g s t p v ∧ Room g s p pos
  | .wrote p v pos => Pending g s t p v ∧ Room g s p pos ∧ s.item g p pos = ⟨p, s.me t, v⟩
  | .pushed p v => p < g.P ∧ ⟨p, s.me t, v⟩ ∈ (s.shard p).log
  | .heads c i h | .stale c i h => AtHead g s c i h
  | .fresh c i h pos => AtHead g s c i h ∧ (s.shard (g.ring_of c i)).cachedTail ≤ pos ∧
      pos ≤ (s.shard (g.ring_of c i)).tail
  | .ready c i h => AtHead g s c i h ∧ h < (s.shard (g.ring_of c i)).cachedTail
  | .holds c i h e => AtHead g s c i h ∧ h < (s.shard (g.ring_of c i)).cachedTail ∧
      s.item g (g.ring_of c i) h = e
  | .took c _ => c < g.C
  | .checks c k => c < g.C ∧ k ≤ g.kOwned ∧ ∀ j, j < k → Shut s (g.ring_of c j)
  | .checked c k pos => c < g.C ∧ k < g.kOwned ∧ (∀ j, j < k → Shut s (g.ring_of c j)) ∧
      (s.shard (g.ring_of c k)).closed = true ∧ (s.shard (g.ring_of c k)).tail = pos
  | _ => True

/-- What the histories say of the pushes. -/
structure Records (s : State V Tid) (γ : Tid → Place V Tid) : Prop where
  published : ∀ p, (s.shard p).log.Sublist (s.begun p)
  owner : ∀ p e, e ∈ s.begun p → e.producer = p ∧ e.call.2 ≤ s.calls e.call.1
  uniq : ∀ p q e e', e ∈ s.begun p → e' ∈ s.begun q → e.call = e'.call → e = e'
  nodup : ∀ p, (s.begun p).Nodup
  ok : ∀ id, s.results id = some (.push .ok) → ∃ p e, e ∈ (s.shard p).log ∧ e.call = id
  refused : ∀ id r, s.results id = some (.push r) → r ≠ .ok →
    ∀ p e, e ∈ (s.shard p).log → e.call ≠ id
  later : ∀ t k, s.calls t < k → s.results (t, k) = none
  now : ∀ t, γ t ≠ .idle → s.results (s.me t) = none

/-- What the histories say of the pops. -/
structure Pops (g : Shape) (s : State V Tid) (γ : Tid → Place V Tid) : Prop where
  taken : ∀ p, (s.taken (p % g.C)).filter (fun e => e.producer = p) =
    (s.shard p).log.take (s.shard p).head
  mine : ∀ c e, e ∈ s.taken c → e.producer % g.C = c
  took : ∀ t c e, γ t = .took c e → s.taken c = s.delivered c ++ [e]
  rest : ∀ c, (∀ t e, γ t ≠ .took c e) → s.taken c = s.delivered c
  gone : ∀ c, s.gone c = true → ∀ i, i < g.kOwned → Shut s (g.ring_of c i)

structure ShardInv (g : Shape) (s : State V Tid) (γ : Tid → Place V Tid) : Prop where
  rings : ∀ p, (s.shard p).toRing.Inv g.ring.n
  at_ : ∀ t, At g s t (γ t)
  busy : ∀ t w, (γ t).role = some w → s.busy w = some t
  records : Records s γ
  pops : Pops g s γ

variable {s s' : State V Tid} {γ : Tid → Place V Tid} {t : Tid} {x y : Place V Tid}

/-! ## The rings of a consumer -/

theorem ring_of_mod {c : Nat} (hc : c < g.C) (i : Nat) : g.ring_of c i % g.C = c := by
  rw [Shape.ring_of, Nat.add_mul_mod_self_left, Nat.mod_eq_of_lt hc]

theorem ring_of_div {p : Nat} : g.ring_of (p % g.C) (p / g.C) = p :=
  Nat.mod_add_div p g.C

theorem owned_lt {p : Nat} (hp : p < g.P) : p / g.C < g.kOwned := by
  rw [Shape.kOwned, Nat.div_lt_iff_lt_mul g.C_pos, Nat.div_mul_cancel g.divides]
  exact hp

/-! ## What an operation leaves -/

/-- The ring an operation writes. -/
def touches : Act V → Option Nat
  | .tailCas p _ | .tailOr p | .headStore p _ | .cachedHeadStore p _ | .cachedTailStore p _
  | .slotWrite p _ _ => some p
  | _ => none

structure SameHistory (s s' : State V Tid) : Prop where
  calls : s'.calls = s.calls
  results : s'.results = s.results
  busy : s'.busy = s.busy
  begun : s'.begun = s.begun
  delivered : s'.delivered = s.delivered
  gone : s'.gone = s.gone

omit [Inhabited V] [Inhabited Tid] in
theorem sameHistory {a : Act V} {n : Nat} {r : Resp Tid a} (hs : sem g t a n s = some (s', r)) :
    SameHistory s s' := by
  cases a with
  | count w a =>
    simp only [sem, Option.map_eq_some_iff] at hs
    obtain ⟨o, -, he⟩ := hs
    cases he
    exact ⟨rfl, rfl, rfl, rfl, rfl, rfl⟩
  | tailCas p word =>
    simp only [sem] at hs
    split at hs <;> cases hs <;> exact ⟨rfl, rfl, rfl, rfl, rfl, rfl⟩
  | _ => cases hs; exact ⟨rfl, rfl, rfl, rfl, rfl, rfl⟩

omit [Inhabited V] [Inhabited Tid] in
theorem shard_eq {a : Act V} {n q : Nat} {r : Resp Tid a} (hs : sem g t a n s = some (s', r))
    (ha : touches a ≠ some q) : s'.shard q = s.shard q := by
  cases a with
  | count w a =>
    simp only [sem, Option.map_eq_some_iff] at hs
    obtain ⟨o, -, he⟩ := hs
    cases he
    rfl
  | tailCas p word =>
    have hne : q ≠ p := by rintro rfl; exact ha rfl
    simp only [sem] at hs
    split at hs <;> cases hs
    · exact upd_ne _ _ hne
    · rfl
  | tailOr p | headStore p pos | cachedHeadStore p h | cachedTailStore p k | slotWrite p pos v =>
    have hne : q ≠ p := by rintro rfl; exact ha rfl
    cases hs
    exact upd_ne _ _ hne
  | _ => cases hs; rfl

/-- What another's operation leaves of a producer's ring. -/
structure ForProducer (g : Shape) (s s' : State V Tid) (p : Nat) : Prop where
  tail : (s'.shard p).tail = (s.shard p).tail
  cachedHead : (s'.shard p).cachedHead = (s.shard p).cachedHead
  head : (s.shard p).head ≤ (s'.shard p).head
  item : s'.item g p (s.shard p).tail = s.item g p (s.shard p).tail
  log : (s'.shard p).log = (s.shard p).log

/-- What another's operation leaves of a consumer's ring. -/
structure ForConsumer (g : Shape) (s s' : State V Tid) (p : Nat) : Prop where
  head : (s'.shard p).head = (s.shard p).head
  cachedTail : (s'.shard p).cachedTail = (s.shard p).cachedTail
  tail : (s.shard p).tail ≤ (s'.shard p).tail
  closed : (s.shard p).closed = true →
    (s'.shard p).closed = true ∧ (s'.shard p).tail = (s.shard p).tail
  item : ∀ pos, (s.shard p).head ≤ pos → pos < (s.shard p).tail →
    s'.item g p pos = s.item g p pos

section
omit [Inhabited V] [Inhabited Tid] [DecidableEq Tid]

theorem ForProducer.of_eq {p : Nat} (h : s'.shard p = s.shard p) : ForProducer g s s' p :=
  ⟨by rw [h], by rw [h], Nat.le_of_eq (by rw [h]), by rw [State.item, h]; rfl, by rw [h]⟩

theorem ForConsumer.of_eq {p : Nat} (h : s'.shard p = s.shard p) : ForConsumer g s s' p :=
  ⟨by rw [h], by rw [h], Nat.le_of_eq (by rw [h]), by rw [h]; exact fun hc => ⟨hc, rfl⟩,
    fun pos _ _ => by rw [State.item, h]; rfl⟩

theorem ForConsumer.shut {p : Nat} (h : ForConsumer g s s' p) (hs : Shut s p) : Shut s' p := by
  obtain ⟨hc, ht⟩ := h.closed hs.1
  exact ⟨hc, by rw [h.head, ht, hs.2]⟩

theorem Pending.keep {u : Tid} {p : Nat} {v : V} (h : Pending g s u p v)
    (hl : (s'.shard p).log = (s.shard p).log) (hb : s'.begun p = s.begun p)
    (hc : s'.calls u = s.calls u) : Pending g s' u p v := by
  obtain ⟨hp, l, h1, h2⟩ := h
  refine ⟨hp, l, ?_, ?_⟩
  · rw [hb, h1, State.me, State.me, hc]
  · rw [hl]; exact h2

theorem At.keepProducer {u : Tid} {p : Nat} (h : At g s u x) (hx : x.role = some (.producer p))
    (hf : ForProducer g s s' p) (hb : s'.begun p = s.begun p) (hc : s'.calls u = s.calls u) :
    At g s' u x := by
  have hme : s'.me u = s.me u := by rw [State.me, State.me, hc]
  have hroom : ∀ pos, Room g s p pos → Room g s' p pos := by
    intro pos hr
    rw [Room, hf.tail, hf.cachedHead]; exact hr
  cases x <;> cases hx
  case pushing => exact h.keep hf.log hb hc
  case tailed | full => exact ⟨h.1.keep hf.log hb hc, by rw [hf.tail]; exact h.2⟩
  case seen =>
    refine ⟨h.1.keep hf.log hb hc, by rw [hf.tail]; exact h.2.1, by rw [hf.cachedHead]; exact h.2.2.1,
      Nat.le_trans h.2.2.2 hf.head⟩
  case room => exact ⟨h.1.keep hf.log hb hc, hroom _ h.2⟩
  case wrote =>
    obtain ⟨h1, h2, h3⟩ := h
    refine ⟨h1.keep hf.log hb hc, hroom _ h2, ?_⟩
    rw [h2.1] at h3 ⊢
    rw [hf.item, h3, hme]
  case pushed => exact ⟨h.1, by rw [hf.log, hme]; exact h.2⟩

theorem At.keepConsumer {u : Tid} {c : Nat} (h : At g s u x) (hx : x.role = some (.consumer c))
    (hI : ∀ p, (s.shard p).toRing.Inv g.ring.n)
    (hf : ∀ i, i < g.kOwned → ForConsumer g s s' (g.ring_of c i)) : At g s' u x := by
  have hhead : ∀ i k, AtHead g s c i k → AtHead g s' c i k := by
    rintro i k ⟨h1, h2, h3⟩
    exact ⟨h1, h2, by rw [(hf i h2).head]; exact h3⟩
  cases x <;> cases hx
  case heads | stale => exact hhead _ _ h
  case fresh =>
    have hf := hf _ h.1.2.1
    exact ⟨hhead _ _ h.1, by rw [hf.cachedTail]; exact h.2.1, Nat.le_trans h.2.2 hf.tail⟩
  case ready => exact ⟨hhead _ _ h.1, by rw [(hf _ h.1.2.1).cachedTail]; exact h.2⟩
  case holds i k e =>
    obtain ⟨h1, h2, h3⟩ := h
    have hf := hf _ h1.2.1
    refine ⟨hhead _ _ h1, by rw [hf.cachedTail]; exact h2, ?_⟩
    rw [hf.item k (Nat.le_of_eq h1.2.2.symm) (Nat.lt_of_lt_of_le h2 (hI _).seenTail.2), h3]
  case took => exact h
  case checks =>
    obtain ⟨h1, h2, h3⟩ := h
    exact ⟨h1, h2, fun j hj => (hf j (by omega)).shut (h3 j hj)⟩
  case checked =>
    obtain ⟨h1, h2, h3, h4, h5⟩ := h
    obtain ⟨hc, ht⟩ := (hf _ h2).closed h4
    exact ⟨h1, h2, fun j hj => (hf j (by omega)).shut (h3 j hj), hc, by rw [ht]; exact h5⟩

theorem At.of_role {u : Tid} (hx : x.role = none) : At g s u x := by
  cases x <;> trivial

end

/-! ## The others' knowledge is kept -/

omit [Inhabited V] [Inhabited Tid] in
theorem tailCas_cases {p n : Nat} {word : TailWord} {won : Bool}
    (hs : sem g t (.tailCas p word) n s = some (s', won)) :
    (s.tailWord p = word ∧ won = true ∧
        s' = s.setRing p ((s.shard p).publish (s.item g p word.pos))) ∨
      (s.tailWord p ≠ word ∧ won = false ∧ s' = s) := by
  simp only [sem] at hs
  split at hs
  · cases hs; exact .inl ⟨by assumption, rfl, rfl⟩
  · cases hs; exact .inr ⟨by assumption, rfl, rfl⟩

omit [Inhabited V] [Inhabited Tid] [DecidableEq Tid] in
@[simp] theorem setShard_self (p : Nat) (r : Shard V Tid) : (s.setShard p r).shard p = r :=
  upd_self _ _ _

omit [Inhabited V] [Inhabited Tid] [DecidableEq Tid] in
@[simp] theorem setRing_self (p : Nat) (r : Spsc.Ring (Item V Tid)) :
    (s.setRing p r).shard p = { s.shard p with toRing := r } :=
  upd_self _ _ _

omit [Inhabited V] [Inhabited Tid] in
theorem forProducer_step {a : Act V} {n q : Nat} {r : Resp Tid a}
    (hs : sem g t a n s = some (s', r)) (hm : Move g x a r y)
    (hq : x.role ≠ some (.producer q)) (hat : At g s t x) : ForProducer g s s' q := by
  by_cases ha : touches a = some q
  · cases hm with
    | tailOr p =>
      cases ha
      cases hs
      refine ⟨by simp, by simp, by simp, by simp [State.item], by simp⟩
    | cachedTailStore c i h pos =>
      cases ha
      cases hs
      refine ⟨by simp [Spsc.Ring.seeTail], by simp [Spsc.Ring.seeTail], by simp [Spsc.Ring.seeTail],
        by simp [State.item, Spsc.Ring.seeTail], by simp [Spsc.Ring.seeTail]⟩
    | headStore c i h e =>
      cases ha
      cases hs
      have hh : (s.shard (g.ring_of c i)).head ≤ h + 1 := by rw [← hat.1.2.2]; omega
      refine ⟨?_, ?_, ?_, ?_, ?_⟩ <;>
        simp only [setRing_self, Spsc.Ring.take, State.item]
      exact hh
    | _ => first | (cases ha; exact absurd rfl hq) | cases ha
  · exact .of_eq (shard_eq hs ha)

omit [Inhabited V] [Inhabited Tid] in
theorem forConsumer_step {a : Act V} {n q : Nat} {r : Resp Tid a}
    (hs : sem g t a n s = some (s', r)) (hm : Move g x a r y)
    (hq : x.role ≠ some (.consumer (q % g.C))) (hat : At g s t x)
    (hI : (s.shard q).toRing.Inv g.ring.n) : ForConsumer g s s' q := by
  by_cases ha : touches a = some q
  · cases hm with
    | tailOr p =>
      cases ha
      cases hs
      exact ⟨by simp, by simp, by simp, by simp, by simp [State.item]⟩
    | cachedHeadStore p v pos h =>
      cases ha
      cases hs
      exact ⟨by simp [Spsc.Ring.seeHead], by simp [Spsc.Ring.seeHead], by simp [Spsc.Ring.seeHead],
        by simp [Spsc.Ring.seeHead], by simp [State.item, Spsc.Ring.seeHead]⟩
    | slotWrite p v pos =>
      cases ha
      cases hs
      obtain ⟨-, rfl, hroom⟩ := hat
      refine ⟨by simp [Spsc.Ring.write], by simp [Spsc.Ring.write], by simp [Spsc.Ring.write],
        by simp [Spsc.Ring.write], fun k h1 h2 => ?_⟩
      simp only [State.item, setRing_self, Spsc.Ring.write]
      exact upd_ne _ _ (hI.tail_free hroom h1 h2).symm
    | tailCas p v pos won =>
      cases ha
      rcases tailCas_cases hs with ⟨hw, -, rfl⟩ | ⟨-, -, rfl⟩
      · have hopen : (s.shard q).closed = false := congrArg TailWord.closed hw
        refine ⟨by simp [Spsc.Ring.publish], by simp [Spsc.Ring.publish], by simp [Spsc.Ring.publish],
          fun hc => ?_, fun _ _ _ => by simp [State.item, Spsc.Ring.publish]⟩
        rw [hopen] at hc; cases hc
      · exact .of_eq rfl
    | cachedTailStore c i h pos =>
      cases ha
      refine absurd ?_ hq
      rw [ring_of_mod hat.1.1]; rfl
    | headStore c i h e =>
      cases ha
      refine absurd ?_ hq
      rw [ring_of_mod hat.1.1]; rfl
    | _ => cases ha
  · exact .of_eq (shard_eq hs ha)

/-! ## The operation's own thread -/

omit [Inhabited V] [Inhabited Tid] in
theorem ring_step {a : Act V} {n : Nat} {r : Resp Tid a} (hs : sem g t a n s = some (s', r))
    (hm : Move g x a r y) (hat : At g s t x) {q : Nat} (hI : (s.shard q).toRing.Inv g.ring.n) :
    (s'.shard q).toRing.Inv g.ring.n := by
  by_cases ha : touches a = some q
  · cases hm with
    | tailOr p =>
      cases ha
      cases hs
      rw [setShard_self]; exact hI
    | cachedHeadStore p v pos h =>
      cases ha
      cases hs
      rw [setRing_self]; exact hI.seeHead hat.2.2.1 hat.2.2.2
    | slotWrite p v pos =>
      cases ha
      cases hs
      obtain ⟨-, rfl, hroom⟩ := hat
      rw [setRing_self]; exact hI.write hroom _
    | tailCas p v pos won =>
      cases ha
      rcases tailCas_cases hs with ⟨-, -, rfl⟩ | ⟨-, -, rfl⟩
      · obtain ⟨-, ⟨rfl, hroom⟩, -⟩ := hat
        rw [setRing_self]; exact hI.publish hroom
      · exact hI
    | cachedTailStore c i h pos =>
      cases ha
      cases hs
      rw [setRing_self]; exact hI.seeTail hat.2.1 hat.2.2
    | headStore c i h e =>
      cases ha
      cases hs
      obtain ⟨⟨-, -, rfl⟩, hlt, -⟩ := hat
      simp only [setRing_self]
      exact hI.take (Nat.le_succ _) hlt
    | _ => cases ha
  · rw [shard_eq hs ha]; exact hI

omit [Inhabited V] [Inhabited Tid] [DecidableEq Tid] in
/-- A step that writes no ring. -/
theorem At.same {u : Tid} (h : At g s u x) (hs : s'.shard = s.shard) (hb : s'.begun = s.begun)
    (hc : s'.calls u = s.calls u) (hI : ∀ p, (s.shard p).toRing.Inv g.ring.n) : At g s' u x := by
  cases hx : x.role with
  | none => exact .of_role hx
  | some w =>
    cases w with
    | producer p => exact h.keepProducer hx (.of_eq (by rw [hs])) (by rw [hb]) hc
    | consumer c => exact h.keepConsumer hx hI fun i _ => .of_eq (by rw [hs])

omit [Inhabited V] [Inhabited Tid] in
theorem at_step {a : Act V} {n : Nat} {r : Resp Tid a} (hs : sem g t a n s = some (s', r))
    (hm : Move g x a r y) (hat : At g s t x) (hI : ∀ p, (s.shard p).toRing.Inv g.ring.n) :
    At g s' t y := by
  cases hm with
  | count w a r =>
    have hh := sameHistory hs
    refine hat.same (funext fun q => shard_eq hs nofun) hh.begun (by rw [hh.calls]) hI
  | expired => cases hs; exact hat
  | tailOr => trivial
  | tailLoad p v pos closed =>
    cases hs
    cases (s.shard p).closed with
    | true => exact hat
    | false => exact ⟨hat, rfl⟩
  | cachedHeadLoad p v pos h =>
    cases hs
    obtain ⟨h1, rfl⟩ := hat
    split
    · exact ⟨h1, rfl⟩
    · refine ⟨h1, rfl, ?_⟩
      have := (hI p).room
      omega
  | headLoad p v pos h =>
    cases hs
    exact ⟨hat.1, hat.2, (hI p).seenHead, Nat.le_refl _⟩
  | cachedHeadStore p v pos h =>
    cases hs
    obtain ⟨h1, rfl, h2, h3⟩ := hat
    have hp : Pending g (s.setRing p ((s.shard p).seeHead h)) t p v := by
      refine h1.keep ?_ rfl rfl
      simp [Spsc.Ring.seeHead]
    split
    · exact hp
    · refine ⟨hp, by simp [Spsc.Ring.seeHead], ?_⟩
      have := (hI p).room
      simp only [setRing_self, Spsc.Ring.seeHead]
      omega
  | slotWrite p v pos =>
    cases hs
    obtain ⟨h1, h2⟩ := hat
    refine ⟨h1.keep (by simp [Spsc.Ring.write]) rfl rfl, ?_, ?_⟩
    · simpa [Room, Spsc.Ring.write] using h2
    · simp only [State.item, setRing_self, Spsc.Ring.write]
      exact upd_self _ _ _
  | tailCas p v pos won =>
    obtain ⟨h1, h2, h3⟩ := hat
    rcases tailCas_cases hs with ⟨-, rfl, rfl⟩ | ⟨-, rfl, rfl⟩
    · refine ⟨h1.bound, ?_⟩
      simp only [setRing_self, Spsc.Ring.publish]
      exact List.mem_append_right _ (List.mem_singleton.mpr h3.symm)
    · exact h1
  | nextLoad | lookTail | lookHead => cases hs; exact hat
  | popHead c i h hi => cases hs; exact ⟨hat.1, hi, rfl⟩
  | cachedTailLoad c i h k =>
    cases hs
    obtain ⟨h1, h2, rfl⟩ := hat
    split
    · exact ⟨h1, h2, rfl⟩
    · refine ⟨⟨h1, h2, rfl⟩, ?_⟩
      have := (hI (g.ring_of c i)).seenTail.1
      omega
  | popTail c i h word => cases hs; exact ⟨hat, (hI _).seenTail.2, Nat.le_refl _⟩
  | cachedTailStore c i h pos =>
    cases hs
    obtain ⟨⟨h1, h2, rfl⟩, h3, h4⟩ := hat
    split
    · exact ⟨h1, Nat.zero_le _, fun j hj => absurd hj (Nat.not_lt_zero j)⟩
    · refine ⟨⟨h1, h2, by simp [Spsc.Ring.seeTail]⟩, ?_⟩
      have := (hI (g.ring_of c i)).seenTail.1
      simp only [setRing_self, Spsc.Ring.seeTail]
      omega
  | slotRead c i h e => cases hs; exact ⟨hat.1, hat.2, rfl⟩
  | headStore c i h e => exact hat.1.1
  | nextStore c i e => exact hat
  | checkTail c k pos closed hk =>
    cases hs
    cases hc : (s.shard (g.ring_of c k)).closed with
    | true => exact ⟨hat.1, hk, hat.2.2, hc, rfl⟩
    | false => exact ⟨hat.1, Nat.zero_le _, fun j hj => absurd hj (Nat.not_lt_zero j)⟩
  | checkHead c k pos h =>
    cases hs
    obtain ⟨h1, h2, h3, h4, rfl⟩ := hat
    split
    · rename_i he
      refine ⟨h1, h2, fun j hj => ?_⟩
      by_cases hjk : j = k
      · rw [hjk]; exact ⟨h4, he⟩
      · exact h3 j (by omega)
    · exact ⟨h1, Nat.zero_le _, fun j hj => absurd hj (Nat.not_lt_zero j)⟩

omit [Inhabited V] [Inhabited Tid] [DecidableEq Tid] in
theorem Move.role {a : Act V} {r : Resp Tid a} (hm : Move g x a r y) : y.role = x.role := by
  cases hm <;> (try split) <;> rfl

omit [Inhabited V] [Inhabited Tid] [DecidableEq Tid] in
/-- The role of another thread is another. -/
theorem ShardInv.role_ne (h : ShardInv g s γ) {u : Tid} (hu : u ≠ t) {w : Side}
    (hw : (γ u).role = some w) : (γ t).role ≠ some w := by
  intro ht
  have h1 := h.busy u w hw
  have h2 := h.busy t w ht
  rw [h1] at h2
  cases h2
  exact hu rfl

omit [Inhabited V] [Inhabited Tid] in
theorem at_others (h : ShardInv g s γ) {a : Act V} {n : Nat} {r : Resp Tid a}
    (hs : sem g t a n s = some (s', r)) (hm : Move g (γ t) a r y) {u : Tid} (hu : u ≠ t) :
    At g s' u (γ u) := by
  have hh := sameHistory hs
  have hc : s'.calls u = s.calls u := by rw [hh.calls]
  cases hx : (γ u).role with
  | none => exact .of_role hx
  | some w =>
    have hne := h.role_ne hu hx
    cases w with
    | producer p =>
      exact (h.at_ u).keepProducer hx (forProducer_step hs hm hne (h.at_ t)) (by rw [hh.begun]) hc
    | consumer c =>
      refine (h.at_ u).keepConsumer hx h.rings fun i hi => ?_
      have hcC : c < g.C := by
        have hat := h.at_ u
        revert hat hx
        cases γ u <;> intro hx hat <;> cases hx <;>
          first
          | exact hat.1
          | exact hat.1.1
          | exact hat
      refine forConsumer_step hs hm ?_ (h.at_ t) (h.rings _)
      rw [ring_of_mod hcC]; exact hne

/-! ## The histories -/

omit [Inhabited V] [Inhabited Tid] in
theorem log_step {a : Act V} {n : Nat} {r : Resp Tid a} (hs : sem g t a n s = some (s', r))
    (hm : Move g x a r y) (hat : At g s t x) (q : Nat) :
    (s'.shard q).log = (s.shard q).log ∨ ∃ v, x.role = some (.producer q) ∧
      Pending g s t q v ∧ (s'.shard q).log = (s.shard q).log ++ [⟨q, s.me t, v⟩] := by
  by_cases ha : touches a = some q
  · cases hm with
    | tailCas p v pos won =>
      cases ha
      rcases tailCas_cases hs with ⟨-, -, rfl⟩ | ⟨-, -, rfl⟩
      · refine .inr ⟨v, rfl, hat.1, ?_⟩
        rw [← hat.2.2]
        simp [Spsc.Ring.publish]
      · exact .inl rfl
    | tailOr p => cases ha; cases hs; exact .inl (by simp)
    | cachedHeadStore p v pos h => cases ha; cases hs; exact .inl (by simp [Spsc.Ring.seeHead])
    | slotWrite p v pos => cases ha; cases hs; exact .inl (by simp [Spsc.Ring.write])
    | cachedTailStore c i h pos => cases ha; cases hs; exact .inl (by simp [Spsc.Ring.seeTail])
    | headStore c i h e => cases ha; cases hs; exact .inl (by simp [Spsc.Ring.take])
    | _ => cases ha
  · exact .inl (by rw [shard_eq hs ha])

omit [Inhabited V] [Inhabited Tid] [DecidableEq Tid] in
theorem Move.not_idle {a : Act V} {r : Resp Tid a} (hm : Move g x a r y) (hy : y ≠ .idle) :
    x ≠ .idle := by
  rintro rfl
  cases hm <;> exact hy rfl

section
omit [Inhabited V] [Inhabited Tid]

theorem records_step (h : ShardInv g s γ) {a : Act V} {n : Nat} {r : Resp Tid a}
    (hs : sem g t a n s = some (s', r)) (hm : Move g (γ t) a r y) :
    Records s' (upd γ t y) := by
  have hh := sameHistory hs
  have hR := h.records
  refine ⟨fun p => ?_, ?_, ?_, ?_, fun id hid => ?_, fun id q hid hq p e he => ?_, ?_, fun u hu => ?_⟩
  · rcases log_step hs hm (h.at_ t) p with hl | ⟨v, -, ⟨-, l, hb, hsub⟩, hl⟩
    · rw [hl, hh.begun]; exact hR.published p
    · rw [hl, hh.begun, hb]; exact hsub.append (List.Sublist.refl _)
  · rw [hh.begun, hh.calls]; exact hR.owner
  · rw [hh.begun]; exact hR.uniq
  · rw [hh.begun]; exact hR.nodup
  · rw [hh.results] at hid
    obtain ⟨p, e, he, hid⟩ := hR.ok id hid
    refine ⟨p, e, ?_, hid⟩
    rcases log_step hs hm (h.at_ t) p with hl | ⟨v, -, -, hl⟩
    · rwa [hl]
    · rw [hl]; exact List.mem_append_left _ he
  · rw [hh.results] at hid
    rcases log_step hs hm (h.at_ t) p with hl | ⟨v, hrole, -, hl⟩
    · rw [hl] at he; exact hR.refused id q hid hq p e he
    · rw [hl] at he
      rcases List.mem_append.mp he with he | he
      · exact hR.refused id q hid hq p e he
      · rw [List.mem_singleton.mp he]
        rintro rfl
        have hnow := hR.now t (by rintro hi; rw [hi] at hrole; cases hrole)
        rw [hnow] at hid; cases hid
  · rw [hh.calls, hh.results]; exact hR.later
  · rw [hh.results, State.me, hh.calls]
    by_cases hut : u = t
    · subst hut
      rw [upd_self] at hu
      exact hR.now u (hm.not_idle hu)
    · rw [upd_ne _ _ hut] at hu; exact hR.now u hu

/-- What a step does to what was taken. -/
theorem taken_step {a : Act V} {n : Nat} {r : Resp Tid a} (hs : sem g t a n s = some (s', r))
    (hm : Move g x a r y) (hat : At g s t x) :
    (s'.taken = s.taken ∧ (∀ q, (s'.shard q).head = (s.shard q).head) ∧
        ∀ c e, y = .took c e ↔ x = .took c e) ∨
      ∃ c i e, x = .holds c i (s.shard (g.ring_of c i)).head e ∧ y = .took c e ∧
        s'.taken = upd s.taken c (s.taken c ++ [e]) ∧
        ∀ q, (s'.shard q).head = if q = g.ring_of c i then (s.shard q).head + 1 else (s.shard q).head := by
  cases hm with
  | headStore c i h e =>
    cases hs
    obtain ⟨⟨hc, hi, rfl⟩, hlt, he⟩ := hat
    refine .inr ⟨c, i, e, rfl, rfl, ?_, fun q => ?_⟩
    · rw [he, ring_of_mod hc]
    · simp only [State.setRing, State.setShard, Spsc.Ring.take, upd_apply]
      split
      · rename_i hq; rw [hq]
      · rfl
  | count w a r =>
    simp only [sem, Option.map_eq_some_iff] at hs
    obtain ⟨o, -, he⟩ := hs
    cases he
    exact .inl ⟨rfl, fun _ => rfl, fun _ _ => Iff.rfl⟩
  | tailCas p v pos won =>
    refine .inl ?_
    rcases tailCas_cases hs with ⟨-, rfl, rfl⟩ | ⟨-, rfl, rfl⟩
    · refine ⟨rfl, fun q => ?_, fun _ _ => by simp⟩
      simp only [State.setRing, State.setShard, Spsc.Ring.publish, upd_apply]
      split
      · rename_i hq; rw [hq]
      · rfl
    · exact ⟨rfl, fun _ => rfl, fun _ _ => by simp⟩
  | _ =>
    cases hs
    refine .inl ⟨rfl, fun q => ?_, fun _ _ => ?_⟩
    · first
      | rfl
      | (simp only [State.setRing, State.setShard, Spsc.Ring.seeHead, Spsc.Ring.seeTail,
          Spsc.Ring.write, upd_apply]
         split
         · rename_i hq; rw [hq]
         · rfl)
    · first
      | exact Iff.rfl
      | ((try split) <;> simp)

/-- A closed ring's tail is final, and an empty closed ring stays so. -/
theorem closed_step {a : Act V} {n q : Nat} {r : Resp Tid a} (hs : sem g t a n s = some (s', r))
    (hm : Move g x a r y) (hc : (s.shard q).closed = true) :
    (s'.shard q).closed = true ∧ (s'.shard q).tail = (s.shard q).tail ∧
      (s'.shard q).log = (s.shard q).log := by
  by_cases ha : touches a = some q
  · cases hm with
    | tailCas p v pos won =>
      cases ha
      rcases tailCas_cases hs with ⟨hw, -, -⟩ | ⟨-, -, rfl⟩
      · have hopen : (s.shard q).closed = false := congrArg TailWord.closed hw
        rw [hopen] at hc; cases hc
      · exact ⟨hc, rfl, rfl⟩
    | tailOr p => cases ha; cases hs; simp
    | cachedHeadStore p v pos h => cases ha; cases hs; simpa [Spsc.Ring.seeHead] using hc
    | slotWrite p v pos => cases ha; cases hs; simpa [Spsc.Ring.write] using hc
    | cachedTailStore c i h pos => cases ha; cases hs; simpa [Spsc.Ring.seeTail] using hc
    | headStore c i h e => cases ha; cases hs; simpa [Spsc.Ring.take] using hc
    | _ => cases ha
  · rw [shard_eq hs ha]; exact ⟨hc, rfl, rfl⟩

theorem shut_step (h : ShardInv g s γ) {a : Act V} {n q : Nat} {r : Resp Tid a}
    (hs : sem g t a n s = some (s', r)) (hm : Move g (γ t) a r y) (hq : Shut s q) : Shut s' q := by
  obtain ⟨hc, ht, -⟩ := closed_step hs hm hq.1
  refine ⟨hc, ?_⟩
  rw [ht, ← hq.2]
  rcases taken_step hs hm (h.at_ t) with ⟨-, hhd, -⟩ | ⟨c, i, e, hx, -, -, hhd⟩
  · exact hhd q
  · rw [hhd, if_neg]
    rintro rfl
    have hat := h.at_ t
    rw [hx] at hat
    have := (h.rings (g.ring_of c i)).seenTail.2
    have h2 := hat.2.1
    have h3 := hq.2
    omega

theorem pops_step (h : ShardInv g s γ) {a : Act V} {n : Nat} {r : Resp Tid a}
    (hs : sem g t a n s = some (s', r)) (hm : Move g (γ t) a r y) :
    Pops g s' (upd γ t y) := by
  have hh := sameHistory hs
  have hP := h.pops
  have hgone : ∀ c, s'.gone c = true → ∀ i, i < g.kOwned → Shut s' (g.ring_of c i) := by
    intro c hc i hi
    rw [hh.gone] at hc
    exact shut_step h hs hm (hP.gone c hc i hi)
  -- what is published later changes nothing below the head
  have hlog : ∀ q, (s'.shard q).log.take (s.shard q).head = (s.shard q).log.take (s.shard q).head := by
    intro q
    rcases log_step hs hm (h.at_ t) q with hl | ⟨v, -, -, hl⟩
    · rw [hl]
    · rw [hl, List.take_append_of_le_length]
      rw [(h.rings q).length]; exact (h.rings q).head_le_tail
  rcases taken_step hs hm (h.at_ t) with ⟨ht, hhd, hplace⟩ | ⟨c, i, e, hx, rfl, ht, hhd⟩
  · have hsame : ∀ u c e, upd γ t y u = .took c e ↔ γ u = .took c e := by
      intro u c e
      by_cases hu : u = t
      · subst hu; rw [upd_self]; exact hplace c e
      · rw [upd_ne _ _ hu]
    refine ⟨fun p => ?_, by rw [ht]; exact hP.mine, fun u c e hu => ?_, fun c hc => ?_, hgone⟩
    · rw [ht, hhd, hlog]; exact hP.taken p
    · rw [ht, hh.delivered]; exact hP.took u c e ((hsame u c e).mp hu)
    · rw [ht, hh.delivered]; exact hP.rest c fun u e hu => hc u e ((hsame u c e).mpr hu)
  · have hat := h.at_ t
    rw [hx] at hat
    obtain ⟨⟨hc, hi, -⟩, hlt, he⟩ := hat
    have hrole : (γ t).role = some (.consumer c) := by rw [hx]; rfl
    have hnext := (h.rings (g.ring_of c i)).next hlt
    have hfrom : e.producer = g.ring_of c i := by
      rw [← he]
      refine (h.records.owner _ _ ?_).1
      exact (h.records.published _).subset (List.mem_of_getElem? hnext)
    have hidle : s.taken c = s.delivered c := by
      refine hP.rest c fun u e' hu => ?_
      by_cases hut : u = t
      · subst hut; rw [hx] at hu; cases hu
      · exact h.role_ne hut (by rw [hu]; rfl) hrole
    refine ⟨fun p => ?_, fun c' e' he' => ?_, fun u c' e' hu => ?_, fun c' hc' => ?_, hgone⟩
    · rw [ht, hhd]
      by_cases hpc : p % g.C = c
      · have htaken := hP.taken p
        rw [hpc] at htaken
        rw [hpc, upd_self, List.filter_append, htaken]
        by_cases hp : p = g.ring_of c i
        · subst hp
          have hlog1 : (s'.shard (g.ring_of c i)).log.take ((s.shard (g.ring_of c i)).head + 1) =
              (s.shard (g.ring_of c i)).log.take ((s.shard (g.ring_of c i)).head + 1) := by
            rcases log_step hs hm (h.at_ t) (g.ring_of c i) with hl | ⟨v, -, -, hl⟩
            · rw [hl]
            · rw [hl, List.take_append_of_le_length]
              rw [(h.rings _).length]
              exact Nat.lt_of_lt_of_le hlt (h.rings _).seenTail.2
          rw [if_pos rfl, hlog1, Spsc.Ring.take_succ_log (h.rings _) hlt]
          simp only [State.item] at he
          rw [he]
          simp [hfrom]
        · rw [if_neg hp, hlog]
          have hne : e.producer ≠ p := by rw [hfrom]; exact fun h => hp h.symm
          simp [hne]
      · have hp : p ≠ g.ring_of c i := by rintro rfl; exact hpc (ring_of_mod hc i)
        rw [upd_ne _ _ hpc, if_neg hp, hlog]; exact hP.taken p
    · rw [ht, upd_apply] at he'
      split at he'
      · rename_i hcc
        rcases List.mem_append.mp he' with he' | he'
        · rw [hcc]; exact hP.mine c e' he'
        · rw [List.mem_singleton.mp he', hfrom, ring_of_mod hc, hcc]
      · exact hP.mine c' e' he'
    · rw [ht, hh.delivered]
      by_cases hut : u = t
      · subst hut
        rw [upd_self] at hu
        cases hu
        rw [upd_self, hidle]
      · rw [upd_ne _ _ hut] at hu
        have hcc : c' ≠ c := by
          rintro rfl
          exact h.role_ne hut (by rw [hu]; rfl) hrole
        rw [upd_ne _ _ hcc]; exact hP.took u c' e' hu
    · rw [ht, hh.delivered]
      have hcc : c' ≠ c := by
        rintro rfl
        exact hc' t e (upd_self _ _ _)
      rw [upd_ne _ _ hcc]
      refine hP.rest c' fun u e' hu => ?_
      by_cases hut : u = t
      · subst hut; rw [hx] at hu; cases hu
      · exact hc' u e' (by rw [upd_ne _ _ hut]; exact hu)

theorem shard_step (h : ShardInv g s γ) {a : Act V} {n : Nat} {r : Resp Tid a}
    (hs : sem g t a n s = some (s', r)) (hm : Move g (γ t) a r y) :
    ShardInv g s' (upd γ t y) := by
  have hh := sameHistory hs
  refine ⟨fun p => ring_step hs hm (h.at_ t) (h.rings p), fun u => ?_, fun u w hu => ?_,
    records_step h hs hm, pops_step h hs hm⟩
  · by_cases hut : u = t
    · subst hut; rw [upd_self]; exact at_step hs hm (h.at_ u) h.rings
    · rw [upd_ne _ _ hut]; exact at_others h hs hm hut
  · rw [hh.busy]
    by_cases hut : u = t
    · subst hut
      rw [upd_self, hm.role] at hu
      exact h.busy u w hu
    · rw [upd_ne _ _ hut] at hu; exact h.busy u w hu

end

/-! ## Calls begin and return -/

omit [Inhabited V] [Inhabited Tid] [DecidableEq Tid] in
theorem startPlace_role (k : Call V) : (startPlace k : Place V Tid).role = side k := by
  cases k <;> rfl

omit [Inhabited V] [Inhabited Tid] [DecidableEq Tid] in
theorem endPlace_role {k : Call V} {r : Result (Item V Tid)} (h : endPlace g k r x) :
    x.role = side k := by
  have hpush : ∀ p v q, pushEnd p v q x → x.role = some (.producer p) := by
    intro p v q hq
    unfold pushEnd at hq
    split at hq <;> subst hq <;> rfl
  have hpop : ∀ c q, popEnd g c q x → x.role = some (.consumer c) := by
    intro c q hq
    cases q <;> (obtain rfl : x = _ := hq) <;> rfl
  cases k with
  | try_push p v | push p v => obtain ⟨q, -, hq⟩ := h; exact hpush p v q hq
  | try_pop c | pop c => obtain ⟨q, -, hq⟩ := h; exact hpop c q hq
  | close => rw [h.2]; rfl

omit [Inhabited V] [Inhabited Tid] in
theorem begin_fields (k : Call V) :
    (begin t k s).shard = s.shard ∧ (begin t k s).calls = upd s.calls t (s.calls t + 1) ∧
      (begin t k s).results = s.results ∧ (begin t k s).taken = s.taken ∧
      (begin t k s).delivered = s.delivered ∧ (begin t k s).gone = s.gone := by
  cases k <;> exact ⟨rfl, rfl, rfl, rfl, rfl, rfl⟩

omit [Inhabited V] [Inhabited Tid] in
theorem begin_busy (k : Call V) (w : Side) :
    (begin t k s).busy w = if side k = some w then some t else s.busy w := by
  cases k <;> simp only [begin, setBusy, side, upd_apply, Option.some.injEq, reduceCtorEq,
    if_false] <;> simp only [eq_comm]

omit [Inhabited V] [Inhabited Tid] [DecidableEq Tid] in
theorem enabled_free {k : Call V} (he : enabled g s k = true) {w : Side} (hw : side k = some w) :
    s.busy w = none := by
  unfold enabled at he
  rw [hw] at he
  cases w <;> simp only [Bool.and_eq_true, decide_eq_true_eq, Option.isNone_iff_eq_none] at he <;>
    exact he.2

section
omit [Inhabited V] [Inhabited Tid]

theorem begin_begun (k : Call V) : (begin t k s).begun = s.begun ∨ ∃ p v, side k = some (.producer p) ∧
    startPlace k = (.pushing p v : Place V Tid) ∧
    (begin t k s).begun = upd s.begun p (s.begun p ++ [⟨p, (t, s.calls t + 1), v⟩]) := by
  cases k with
  | try_push p v | push p v =>
    refine .inr ⟨p, v, rfl, rfl, ?_⟩
    simp [begin, setBusy, side, State.me]
  | _ => exact .inl rfl

/-- A push begins: its call is a new one. -/
theorem records_push (h : Records s γ) {p : Nat} {v : V}
    (hb : s'.begun = upd s.begun p (s.begun p ++ [⟨p, (t, s.calls t + 1), v⟩]))
    (hc : s'.calls = upd s.calls t (s.calls t + 1)) (hsh : s'.shard = s.shard) :
    (∀ q, (s'.shard q).log.Sublist (s'.begun q)) ∧
      (∀ q e, e ∈ s'.begun q → e.producer = q ∧ e.call.2 ≤ s'.calls e.call.1) ∧
      (∀ q q' e e', e ∈ s'.begun q → e' ∈ s'.begun q' → e.call = e'.call → e = e') ∧
      ∀ q, (s'.begun q).Nodup := by
  have hmem : ∀ q e, e ∈ s'.begun q → e ∈ s.begun q ∨ q = p ∧ e = ⟨p, (t, s.calls t + 1), v⟩ := by
    intro q e he
    rw [hb, upd_apply] at he
    split at he
    · rename_i hq
      rcases List.mem_append.mp he with he | he
      · exact .inl (hq ▸ he)
      · exact .inr ⟨hq, List.mem_singleton.mp he⟩
    · exact .inl he
  have hfresh : ∀ q e, e ∈ s.begun q → e.call ≠ (t, s.calls t + 1) := by
    rintro q e he heq
    have := (h.owner q e he).2
    rw [heq] at this
    exact absurd this (Nat.not_succ_le_self _)
  refine ⟨fun q => ?_, fun q e he => ?_, fun q q' e e' he he' hcall => ?_, fun q => ?_⟩
  · rw [hsh, hb, upd_apply]
    split
    · rename_i hq
      rw [hq]; exact (h.published p).trans (List.sublist_append_left _ _)
    · exact h.published q
  · rw [hc]
    rcases hmem q e he with he | ⟨rfl, rfl⟩
    · obtain ⟨h1, h2⟩ := h.owner q e he
      refine ⟨h1, Nat.le_trans h2 ?_⟩
      rw [upd_apply]
      split
      · rename_i hu; rw [hu]; exact Nat.le_succ _
      · exact Nat.le_refl _
    · exact ⟨rfl, by simp⟩
  · rcases hmem q e he with he | ⟨rfl, rfl⟩ <;> rcases hmem q' e' he' with he' | ⟨rfl, rfl⟩
    · exact h.uniq q q' e e' he he' hcall
    · exact absurd hcall (hfresh q e he)
    · exact absurd hcall.symm (hfresh q' e' he')
    · rfl
  · rw [hb, upd_apply]
    split
    · refine List.nodup_append.mpr ⟨h.nodup p, by simp, fun a ha b hb' => ?_⟩
      rw [List.mem_singleton.mp hb']
      rintro rfl
      exact hfresh p _ ha rfl
    · exact h.nodup q

theorem records_begin (h : Records s γ) (k : Call V) :
    Records (begin t k s) (upd γ t (startPlace k)) := by
  obtain ⟨hsh, hc, hr, -, -, -⟩ := begin_fields (t := t) (s := s) k
  have hold : ∀ u, s.calls u ≤ (begin t k s).calls u := by
    intro u
    rw [hc, upd_apply]
    split
    · rename_i he; rw [he]; exact Nat.le_succ _
    · exact Nat.le_refl _
  have hpush : (∀ q, ((begin t k s).shard q).log.Sublist ((begin t k s).begun q)) ∧
      (∀ q e, e ∈ (begin t k s).begun q →
        e.producer = q ∧ e.call.2 ≤ (begin t k s).calls e.call.1) ∧
      (∀ q q' e e', e ∈ (begin t k s).begun q → e' ∈ (begin t k s).begun q' →
        e.call = e'.call → e = e') ∧ ∀ q, ((begin t k s).begun q).Nodup := by
    rcases begin_begun (t := t) (s := s) k with hb | ⟨p, v, -, -, hb⟩
    · rw [hb, hsh]
      exact ⟨h.published, fun q e he => ⟨(h.owner q e he).1, Nat.le_trans (h.owner q e he).2 (hold _)⟩,
        h.uniq, h.nodup⟩
    · exact records_push h hb hc hsh
  obtain ⟨h1, h2, h3, h4⟩ := hpush
  refine ⟨h1, h2, h3, h4, ?_, ?_, fun u j hj => ?_, fun u hu => ?_⟩
  · rw [hr, hsh]; exact h.ok
  · rw [hr, hsh]; exact h.refused
  · rw [hr]; exact h.later u j (Nat.lt_of_le_of_lt (hold u) hj)
  · rw [hr, State.me, hc]
    by_cases hut : u = t
    · subst hut; rw [upd_self]; exact h.later u _ (Nat.lt_succ_self _)
    · rw [upd_ne _ _ hut] at hu ⊢; exact h.now u hu

theorem at_begin (h : ShardInv g s γ) {k : Call V} (he : enabled g s k = true) :
    At g (begin t k s) t (startPlace k) := by
  cases k with
  | try_push p v | push p v =>
    have hp : p < g.P := by
      simp only [enabled, side, Bool.and_eq_true, decide_eq_true_eq] at he; exact he.1
    refine ⟨hp, s.begun p, ?_, h.records.published p⟩
    simp [begin, setBusy, side, State.me]
  | try_pop c | pop c =>
    have hc : c < g.C := by
      simp only [enabled, side, Bool.and_eq_true, decide_eq_true_eq] at he; exact he.1
    exact ⟨hc, Nat.zero_le _, fun j hj => absurd hj (Nat.not_lt_zero j)⟩
  | close => trivial

theorem at_begin_others (h : ShardInv g s γ) {k : Call V} (he : enabled g s k = true) {u : Tid}
    (hut : u ≠ t) : At g (begin t k s) u (γ u) := by
  obtain ⟨hsh, hc, -, -, -, -⟩ := begin_fields (t := t) (s := s) k
  have hcalls : (begin t k s).calls u = s.calls u := by rw [hc, upd_ne _ _ hut]
  cases hx : (γ u).role with
  | none => exact .of_role hx
  | some w =>
    have hw := h.busy u w hx
    cases w with
    | producer q =>
      refine (h.at_ u).keepProducer hx (.of_eq (by rw [hsh])) ?_ hcalls
      rcases begin_begun (t := t) (s := s) k with hb | ⟨p, v, hk, -, hb⟩
      · rw [hb]
      · have hne : q ≠ p := by
          rintro rfl
          rw [enabled_free he hk] at hw; cases hw
        rw [hb, upd_ne _ _ hne]
    | consumer c => exact (h.at_ u).keepConsumer hx h.rings fun i _ => .of_eq (by rw [hsh])

theorem shard_begin (h : ShardInv g s γ) {k : Call V} (hi : γ t = .idle)
    (he : enabled g s k = true) : ShardInv g (begin t k s) (upd γ t (startPlace k)) := by
  obtain ⟨hsh, hc, hr, htk, hd, hg⟩ := begin_fields (t := t) (s := s) k
  have hstart : ∀ c e, startPlace k ≠ (.took c e : Place V Tid) := by
    intro c e; cases k <;> nofun
  refine ⟨by rw [hsh]; exact h.rings, fun u => ?_, fun u w hu => ?_, records_begin h.records k, ?_⟩
  · by_cases hut : u = t
    · subst hut; rw [upd_self]; exact at_begin h he
    · rw [upd_ne _ _ hut]; exact at_begin_others h he hut
  · rw [begin_busy]
    by_cases hut : u = t
    · subst hut
      rw [upd_self, startPlace_role] at hu
      rw [if_pos hu]
    · rw [upd_ne _ _ hut] at hu
      have hw := h.busy u w hu
      rw [if_neg, hw]
      intro hk
      rw [enabled_free he hk] at hw; cases hw
  · refine ⟨by rw [htk, hsh]; exact h.pops.taken, by rw [htk]; exact h.pops.mine,
      fun u c e hu => ?_, fun c hc => ?_, by rw [hg]; unfold Shut; rw [hsh]; exact h.pops.gone⟩
    · rw [htk, hd]
      by_cases hut : u = t
      · subst hut; rw [upd_self] at hu; exact absurd hu (hstart c e)
      · rw [upd_ne _ _ hut] at hu; exact h.pops.took u c e hu
    · rw [htk, hd]
      refine h.pops.rest c fun u e hu => ?_
      by_cases hut : u = t
      · subst hut; rw [hi] at hu; cases hu
      · exact hc u e (by rw [upd_ne _ _ hut]; exact hu)

theorem finish_fields (k : Call V) (r : Result (Item V Tid)) :
    (finish t k r s).shard = s.shard ∧ (finish t k r s).calls = s.calls ∧
      (finish t k r s).results = upd s.results (s.me t) (some r) ∧
      (finish t k r s).begun = s.begun ∧ (finish t k r s).taken = s.taken := by
  cases k with
  | try_push p v | push p v | close => exact ⟨rfl, rfl, rfl, rfl, rfl⟩
  | try_pop c | pop c =>
    cases r with
    | pop q => cases q <;> exact ⟨rfl, rfl, rfl, rfl, rfl⟩
    | _ => exact ⟨rfl, rfl, rfl, rfl, rfl⟩

theorem finish_busy (k : Call V) (r : Result (Item V Tid)) (w : Side) :
    (finish t k r s).busy w = if side k = some w then none else s.busy w := by
  have hbusy : (finish t k r s).busy = (setBusy s (side k) none).busy := by
    cases k with
    | try_push p v | push p v | close => rfl
    | try_pop c | pop c =>
      cases r with
      | pop q => cases q <;> rfl
      | _ => rfl
  rw [hbusy]
  cases k <;> simp only [setBusy, side, upd_apply, Option.some.injEq, reduceCtorEq, if_false] <;>
    simp only [eq_comm]

/-- What a pop's return records. -/
theorem finish_pops {k : Call V} {r : Result (Item V Tid)} (hend : endPlace g k r x) :
    (∃ c e, x = .took c e ∧ (finish t k r s).gone = s.gone ∧
        (finish t k r s).delivered = upd s.delivered c (s.delivered c ++ [e])) ∨
      (∀ c e, x ≠ .took c e) ∧ (finish t k r s).delivered = s.delivered ∧
        ((finish t k r s).gone = s.gone ∨
          ∃ c, x = .checks c g.kOwned ∧ (finish t k r s).gone = upd s.gone c true) := by
  cases k with
  | try_push p v | push p v =>
    obtain ⟨q, rfl, hq⟩ := hend
    refine .inr ⟨fun c e hx => ?_, rfl, .inl rfl⟩
    unfold pushEnd at hq
    rw [hx] at hq
    split at hq <;> cases hq
  | try_pop c | pop c =>
    obtain ⟨q, rfl, hq⟩ := hend
    cases q with
    | ok e => exact .inl ⟨c, e, hq, rfl, rfl⟩
    | drained =>
      obtain rfl : x = .checks c g.kOwned := hq
      exact .inr ⟨fun _ _ => nofun, rfl, .inr ⟨c, rfl, rfl⟩⟩
    | empty | timeout =>
      obtain rfl : x = .checks c 0 := hq
      exact .inr ⟨fun _ _ => nofun, rfl, .inl rfl⟩
  | close =>
    obtain ⟨rfl, rfl⟩ := hend
    exact .inr ⟨fun _ _ => nofun, rfl, .inl rfl⟩

theorem records_finish (h : ShardInv g s γ) {k : Call V} {r : Result (Item V Tid)}
    (hend : endPlace g k r (γ t)) : Records (finish t k r s) (upd γ t .idle) := by
  obtain ⟨hsh, hc, hr, hb, -⟩ := finish_fields (t := t) (s := s) k r
  have hR := h.records
  -- what the place of a returning push says
  have hpush : ∀ q, r = .push q → ∃ p v, pushEnd p v q (γ t) := by
    rintro q rfl
    cases k with
    | try_push p v | push p v => obtain ⟨q', hq, he⟩ := hend; cases hq; exact ⟨p, v, he⟩
    | try_pop c | pop c => obtain ⟨q', hq, -⟩ := hend; cases hq
    | close => cases hend.1
  refine ⟨by rw [hsh, hb]; exact hR.published, by rw [hb, hc]; exact hR.owner,
    by rw [hb]; exact hR.uniq, by rw [hb]; exact hR.nodup, fun id hid => ?_, fun id q hid hq p e he => ?_,
    fun u j hj => ?_, fun u hu => ?_⟩
  · rw [hr, upd_apply] at hid
    rw [hsh]
    split at hid
    · rename_i heq
      cases hid
      obtain ⟨p, v, hq⟩ := hpush .ok rfl
      have hat := h.at_ t
      rw [show γ t = .pushed p v from hq] at hat
      exact ⟨p, _, hat.2, heq.symm⟩
    · exact hR.ok id hid
  · rw [hsh] at he
    rw [hr, upd_apply] at hid
    split at hid
    · rename_i heq
      cases hid
      obtain ⟨p', v, hend⟩ := hpush q rfl
      have hat := h.at_ t
      rw [pushEnd, if_neg hq] at hend
      rw [hend] at hat
      obtain ⟨-, l, hbegun, hsub⟩ := hat
      rw [heq]
      intro hcall
      -- the push's own item is not among what was published
      have hmem : (⟨p', s.me t, v⟩ : Item V Tid) ∈ s.begun p' := by rw [hbegun]; simp
      have heq' := hR.uniq p p' e _ ((hR.published p).subset he) hmem hcall
      have hp : p = p' := by
        have h1 := (hR.owner p e ((hR.published p).subset he)).1
        rw [heq'] at h1; exact h1.symm
      subst hp
      have hnodup := hR.nodup p
      rw [hbegun] at hnodup
      have hnot := (List.nodup_append.mp hnodup).2.2 e (hsub.subset he) e
      rw [heq'] at hnot
      exact hnot (List.mem_singleton.mpr rfl) rfl
    · exact hR.refused id q hid hq p e he
  · rw [hc] at hj
    rw [hr, upd_ne]
    · exact hR.later u j hj
    · rintro heq
      cases heq
      exact absurd hj (Nat.lt_irrefl _)
  · have hut : u ≠ t := by
      rintro rfl
      rw [upd_self] at hu; exact hu rfl
    rw [upd_ne _ _ hut] at hu
    rw [hr, upd_ne]
    · rw [State.me, hc]; exact hR.now u hu
    · intro heq
      exact hut (congrArg Prod.fst heq)

theorem pops_finish (h : ShardInv g s γ) {k : Call V} {r : Result (Item V Tid)}
    (hend : endPlace g k r (γ t)) : Pops g (finish t k r s) (upd γ t .idle) := by
  obtain ⟨hsh, -, -, -, htk⟩ := finish_fields (t := t) (s := s) k r
  have hP := h.pops
  have hshut : ∀ q, Shut s q → Shut (finish t k r s) q := by
    intro q hq
    unfold Shut; rw [hsh]; exact hq
  rcases finish_pops (t := t) (s := s) hend with ⟨c, e, hx, hg, hd⟩ | ⟨hx, hd, hg⟩
  · have hrole : (γ t).role = some (.consumer c) := by rw [hx]; rfl
    refine ⟨by rw [htk, hsh]; exact hP.taken, by rw [htk]; exact hP.mine, fun u c' e' hu => ?_,
      fun c' hc' => ?_, fun c' hc' i hi => hshut _ (hP.gone c' (by rwa [hg] at hc') i hi)⟩
    · have hut : u ≠ t := by
        rintro rfl
        rw [upd_self] at hu; cases hu
      rw [upd_ne _ _ hut] at hu
      have hcc : c' ≠ c := by
        rintro rfl
        exact h.role_ne hut (by rw [hu]; rfl) hrole
      rw [htk, hd, upd_ne _ _ hcc]
      exact hP.took u c' e' hu
    · rw [htk, hd, upd_apply]
      split
      · rename_i hcc
        rw [hcc]; exact hP.took t c e hx
      · rename_i hcc
        refine hP.rest c' fun u e' hu => ?_
        by_cases hut : u = t
        · subst hut
          rw [hx] at hu; cases hu
          exact hcc rfl
        · exact hc' u e' (by rw [upd_ne _ _ hut]; exact hu)
  · refine ⟨by rw [htk, hsh]; exact hP.taken, by rw [htk]; exact hP.mine, fun u c' e' hu => ?_,
      fun c' hc' => ?_, fun c' hc' i hi => hshut _ ?_⟩
    · have hut : u ≠ t := by
        rintro rfl
        rw [upd_self] at hu; cases hu
      rw [upd_ne _ _ hut] at hu
      rw [htk, hd]; exact hP.took u c' e' hu
    · rw [htk, hd]
      refine hP.rest c' fun u e' hu => ?_
      by_cases hut : u = t
      · subst hut; exact hx c' e' hu
      · exact hc' u e' (by rw [upd_ne _ _ hut]; exact hu)
    · rcases hg with hg | ⟨c, hxc, hg⟩
      · exact hP.gone c' (by rwa [hg] at hc') i hi
      · rw [hg, upd_apply] at hc'
        split at hc'
        · rename_i hcc
          have hat := h.at_ t
          rw [hxc] at hat
          rw [hcc]; exact hat.2.2 i hi
        · exact hP.gone c' hc' i hi

theorem shard_finish (h : ShardInv g s γ) {k : Call V} {r : Result (Item V Tid)}
    (hend : endPlace g k r (γ t)) : ShardInv g (finish t k r s) (upd γ t .idle) := by
  obtain ⟨hsh, hc, -, hb, -⟩ := finish_fields (t := t) (s := s) k r
  refine ⟨by rw [hsh]; exact h.rings, fun u => ?_, fun u w hu => ?_, records_finish h hend,
    pops_finish h hend⟩
  · by_cases hut : u = t
    · subst hut; rw [upd_self]; trivial
    · rw [upd_ne _ _ hut]
      exact (h.at_ u).same hsh hb (by rw [hc]) h.rings
  · have hut : u ≠ t := by
      rintro rfl
      rw [upd_self] at hu; cases hu
    rw [upd_ne _ _ hut] at hu
    rw [finish_busy, if_neg]
    · exact h.busy u w hu
    · rw [← endPlace_role hend]
      exact h.role_ne hut hu

end

theorem shard_keeps (g : Shape) (ok : Tid → Act V → State V Tid → Prop) :
    (flow V Tid g).Keeps ok (ShardInv g) where
  init := by
    refine ⟨fun _ => Spsc.Ring.init_inv _ _, fun _ => trivial, nofun, ?_, ?_⟩
    · exact ⟨fun _ => List.Sublist.refl _, nofun, nofun, fun _ => List.nodup_nil, nofun, nofun,
        fun _ _ _ => rfl, fun _ h => absurd rfl h⟩
    · exact ⟨fun _ => rfl, nofun, nofun, fun _ _ => rfl, nofun⟩
  begin := fun _ h _ _ hi he => shard_begin h hi he
  move := fun _ h _ _ _ _ _ _ _ hs hm => shard_step h hs hm
  finish := fun _ h _ _ _ hend => shard_finish h hend

end
end Katas.Turnstile.Sharded
