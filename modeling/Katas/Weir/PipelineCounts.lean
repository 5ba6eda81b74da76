import Katas.Core.Sums
import Katas.Weir.PipelineReclaim
import Katas.Weir.PipelineTallies

/-!
# What the slots have counted

A push counts in its handle's slot. When the slot is reclaimed, its counters
are folded into the lifetime totals and set to zero, by the consumer and while
nobody pushes there, so a slot that is registered again starts from zero. In
the middle of a fold a count is in neither place, or, in Python, in both.
-/
namespace Katas.Weir.Pipeline
open Katas.Conc Flow

/-- The two counters of a slot. -/
inductive Meter where
  | pushed
  | dropped
  deriving DecidableEq

section
variable {V Tid : Type} (cfg : Config)

def Slot.meter (c : Slot V Tid) : Meter → Nat
  | .pushed => c.pushed
  | .dropped => c.dropped

def Record.meter (r : Record V Tid) : Meter → Nat
  | .pushed => r.credited
  | .dropped => r.debited

def State.folded (s : State V Tid) : Meter → Nat
  | .pushed => s.retiredPushed
  | .dropped => s.retiredDropped

/-- What `stats` sums. -/
def State.total (s : State V Tid) (m : Meter) : Nat :=
  s.folded m + sumTo cfg.producers fun i => (s.slot i).meter m

/-- What the pushes of all handles have counted. -/
def State.counted (s : State V Tid) (m : Meter) : Nat :=
  sumTo s.handles.length fun k => (s.record k).meter m

/-- In the middle of a fold. -/
def Place.folding : Place V Tid → Bool
  | .reclaims (.addPushed _) _ | .reclaims .dropped _ | .reclaims (.addDropped _) _
  | .reclaims .zeroPushed _ | .reclaims .zeroDropped _ => true
  | _ => false

/-- What the consumer has taken from a slot's counter, and not yet added. -/
def State.lent (s : State V Tid) : Place V Tid → Meter → Nat
  | .reclaims (.addPushed n) l, .pushed => n - (s.slot l.i).pushed
  | .reclaims (.addDropped n) l, .dropped => n - (s.slot l.i).dropped
  | _, _ => 0

/-- What it has added, and not yet taken. -/
def State.twice (s : State V Tid) : Place V Tid → Meter → Nat
  | .reclaims .dropped l, .pushed | .reclaims (.addDropped _) l, .pushed
  | .reclaims .zeroPushed l, .pushed => (s.slot l.i).pushed
  | .reclaims .zeroPushed l, .dropped | .reclaims .zeroDropped l, .dropped =>
    (s.slot l.i).dropped
  | _, _ => 0

/-- What the consumer knows of the counters it folds. -/
def FoldAt (s : State V Tid) : Place V Tid → Prop
  | .reclaims (.addPushed n) l =>
    (s.slot l.i).pushed ≤ n ∧ (cfg.port ≠ .python → (s.slot l.i).pushed = 0)
  | .reclaims .dropped l => cfg.port ≠ .python → (s.slot l.i).pushed = 0
  | .reclaims (.addDropped n) l =>
    (s.slot l.i).dropped ≤ n ∧
      (cfg.port ≠ .python → (s.slot l.i).pushed = 0 ∧ (s.slot l.i).dropped = 0)
  | .reclaims .zeroDropped l => (s.slot l.i).pushed = 0
  | .reclaims .unset l | .reclaims .free l => ∀ m, (s.slot l.i).meter m = 0
  | _ => True

/-- `f` of the consumer's place. -/
def State.atConsumer (s : State V Tid) (γ : Tid → Place V Tid) (f : Place V Tid → Nat) : Nat :=
  s.consumer.elim 0 fun t => f (γ t)

structure Counts (s : State V Tid) (γ : Tid → Place V Tid) : Prop where
  unused : ∀ i, (∀ k, s.owner i ≠ some (.handle k)) → ∀ m, (s.slot i).meter m = 0
  at_ : ∀ t, FoldAt cfg s (γ t)
  balance : ∀ m, s.total cfg m + s.atConsumer γ (fun g => s.lent g m) =
    s.counted m + s.atConsumer γ (fun g => s.twice g m)

/-- Works on the counters, or reads them. -/
def Act.meters : Act V Tid → Bool
  | .pushedAdd _ | .droppedAdd _ | .pushedLoad _ | .droppedLoad _ | .pushedStore _
  | .droppedStore _ | .pushedSwap _ | .droppedSwap _ | .retiredPushedAdd _
  | .retiredDroppedAdd _ => true
  | _ => false

variable {cfg} {s s' : State V Tid} {g g' : Place V Tid}

theorem Place.lent_of (h : g.folding = false) (m : Meter) : s.lent g m = 0 := by
  cases g with
  | reclaims p l => cases p <;> cases m <;> first | rfl | cases h
  | _ => rfl

theorem Place.twice_of (h : g.folding = false) (m : Meter) : s.twice g m = 0 := by
  cases g with
  | reclaims p l => cases p <;> cases m <;> first | rfl | cases h
  | _ => rfl

theorem Entry.folding (h : Entry cfg g) : g.folding = false := by
  cases h <;> rfl

theorem Entry.foldAt (h : Entry cfg g) : FoldAt cfg s g := by
  cases h <;> trivial

theorem Place.folding_role (h : g.folding = true) : g.role = .consume := by
  cases g with
  | reclaims p l => rfl
  | _ => cases h

/-- A step that works on no counter neither enters a fold nor leaves one. -/
theorem Move.folding {a : Act V Tid} {r : Resp a} (hm : Move cfg g a r g')
    (ha : a.meters = false) :
    g.folding = false ∧ g'.folding = false ∧ (FoldAt cfg s g → FoldAt cfg s g') := by
  have hout : ∀ {g g' : Place V Tid}, g.folding = false → Entry cfg g' →
      g.folding = false ∧ g'.folding = false ∧ (FoldAt cfg s g → FoldAt cfg s g') :=
    fun hg he => ⟨hg, he.folding, fun _ => he.foldAt⟩
  cases hm with
  | life hm => cases hm <;> exact ⟨rfl, rfl, fun _ => trivial⟩
  | wake hm =>
    cases hm with
    | lock k | notify k | unlock k | send k => cases k <;> exact ⟨rfl, rfl, fun _ => trivial⟩
  | register hm =>
    cases hm with
    | cas i won | casLocked i won => cases won <;> exact ⟨rfl, rfl, fun _ => trivial⟩
    | finds => split <;> exact ⟨rfl, rfl, fun _ => trivial⟩
    | _ => exact ⟨rfl, rfl, fun _ => trivial⟩
  | scan hm =>
    cases hm with
    | reclaim fin ids h => exact hout rfl h.entry
    | _ => exact ⟨rfl, rfl, fun _ => trivial⟩
  | push hm =>
    cases hm with
    | test w b hs | mind w b | accepting h v b => cases b <;> exact ⟨rfl, rfl, fun _ => trivial⟩
    | set | cached | see | pending => split <;> exact ⟨rfl, rfl, fun _ => trivial⟩
    | _ => exact ⟨rfl, rfl, fun _ => trivial⟩
  | drain hm =>
    cases hm with
    | word w r h => exact hout rfl h.entry
    | ids clear l h => exact hout rfl h.entry
    | flag clear i rest ids b h => exact hout rfl h.entry
    | free k h => exact hout rfl h.entry
    | used k h => exact hout rfl (loopAt_entry cfg k 0)
    | staged | spill | cached | look => split <;> exact ⟨rfl, rfl, fun _ => trivial⟩
    | copied k got h n out hn =>
      split
      · exact ⟨rfl, rfl, fun _ => trivial⟩
      · exact hout rfl (loopAt_entry cfg k _)
    | drained k got h => exact hout rfl h.entry
    | flushed d total h => exact hout rfl h.entry
    | write d total h => exact hout rfl h.entry
    | lastFlushed h => exact hout rfl h.entry
    | lastWrite h => exact hout rfl h.entry
    | _ => exact ⟨rfl, rfl, fun _ => trivial⟩
  | reclaim hm =>
    cases hm with
    | skip hp h => exact hout rfl h.entry
    | take hp h => exact hout rfl h.entry
    | skips hp h => exact hout rfl h.entry
    | takes h => exact hout rfl h.entry
    | other l hst h => exact hout rfl h.entry
    | filled l hc h => exact hout rfl h.entry
    | finds | retiring | tail | empty => exact ⟨rfl, rfl, fun _ => trivial⟩
    | unset l => exact ⟨rfl, rfl, fun h => h⟩
    | free l h => exact hout rfl h.entry
    | _ => cases ha
  | clear hm =>
    cases hm with
    | word w h => exact hout rfl h.entry
    | filled i rest b hc h => exact hout rfl h.entry
    | emptyAgain i rest b c h =>
      split at h
      · split at h
        · subst h; exact ⟨rfl, rfl, fun _ => trivial⟩
        · exact hout rfl h.entry
      · subst h; exact ⟨rfl, rfl, fun _ => trivial⟩
    | other i rest b hst h => exact hout rfl h.entry
    | restore i rest b zero h => exact hout rfl h.entry
    | _ => exact ⟨rfl, rfl, fun _ => trivial⟩
  | park hm =>
    cases hm with
    | arm told => cases told <;> exact ⟨rfl, rfl, fun _ => trivial⟩
    | word | run => split <;> (try split) <;> exact ⟨rfl, rfl, fun _ => trivial⟩
    | disarm told => split <;> exact ⟨rfl, rfl, fun _ => trivial⟩
    | _ => exact ⟨rfl, rfl, fun _ => trivial⟩

theorem FoldAt.congr (h : FoldAt cfg s g) (hm : ∀ i m, (s'.slot i).meter m = (s.slot i).meter m) :
    FoldAt cfg s' g := by
  have hp : ∀ i, (s'.slot i).pushed = (s.slot i).pushed := fun i => hm i .pushed
  have hd : ∀ i, (s'.slot i).dropped = (s.slot i).dropped := fun i => hm i .dropped
  cases g with
  | reclaims p l => cases p <;> first | trivial | simpa only [FoldAt, hp, hd, hm] using h
  | _ => trivial

theorem State.lent_congr (hm : ∀ i m, (s'.slot i).meter m = (s.slot i).meter m) (g : Place V Tid)
    (m : Meter) : s'.lent g m = s.lent g m := by
  have hp : ∀ i, (s'.slot i).pushed = (s.slot i).pushed := fun i => hm i .pushed
  have hd : ∀ i, (s'.slot i).dropped = (s.slot i).dropped := fun i => hm i .dropped
  cases g with
  | reclaims p l => cases p <;> cases m <;> simp only [State.lent, hp, hd]
  | _ => rfl

theorem State.twice_congr (hm : ∀ i m, (s'.slot i).meter m = (s.slot i).meter m) (g : Place V Tid)
    (m : Meter) : s'.twice g m = s.twice g m := by
  have hp : ∀ i, (s'.slot i).pushed = (s.slot i).pushed := fun i => hm i .pushed
  have hd : ∀ i, (s'.slot i).dropped = (s.slot i).dropped := fun i => hm i .dropped
  cases g with
  | reclaims p l => cases p <;> cases m <;> simp only [State.twice, hp, hd]
  | _ => rfl

theorem Place.foldAt_of (h : g.role ≠ .consume) : FoldAt cfg s g := by
  cases g with
  | reclaims p l => exact absurd rfl h
  | _ => trivial

/-- A slot that the consumer is not reclaiming. -/
theorem FoldAt.off {i : Nat} (h : FoldAt cfg s g) (hg : ¬ g.reclaimsAt i)
    (hs : ∀ j, j ≠ i → s'.slot j = s.slot j) : FoldAt cfg s' g ∧
      (∀ m, s'.lent g m = s.lent g m) ∧ ∀ m, s'.twice g m = s.twice g m := by
  cases g with
  | reclaims p l =>
    cases p with
    | state => exact ⟨trivial, fun m => by cases m <;> rfl, fun m => by cases m <;> rfl⟩
    | _ =>
      have hl : s'.slot l.i = s.slot l.i := hs _ hg
      refine ⟨?_, fun m => ?_, fun m => ?_⟩
      · first | trivial | simpa only [FoldAt, hl] using h
      · cases m <;> simp only [State.lent, hl]
      · cases m <;> simp only [State.twice, hl]
  | _ => exact ⟨trivial, fun m => rfl, fun m => rfl⟩

end

section
variable {V Tid : Type} [DecidableEq Tid] [Inhabited V] [Inhabited Tid] {cfg : Config}
  {s s' : State V Tid} {γ : Tid → Place V Tid} {t : Tid} {g : Place V Tid} {a : Act V Tid} {n : Nat}
  {f f' : Place V Tid → Nat}

/-! ## The consumer's place -/

omit [Inhabited V] [Inhabited Tid] in
theorem State.atConsumer_off (hc : s.consumer ≠ some t) (hs : s'.consumer = s.consumer)
    (hf : ∀ u, u ≠ t → f' (γ u) = f (γ u)) :
    s'.atConsumer (upd γ t g) f' = s.atConsumer γ f := by
  unfold State.atConsumer
  rw [hs]
  cases hu : s.consumer with
  | none => rfl
  | some u =>
    have hut : u ≠ t := by
      rintro rfl
      exact hc hu
    show f' (upd γ t g u) = f (γ u)
    rw [upd_ne _ _ hut]
    exact hf u hut

omit [DecidableEq Tid] [Inhabited V] [Inhabited Tid] in
theorem State.atConsumer_of (hc : s.consumer = some t) : s.atConsumer γ f = f (γ t) := by
  unfold State.atConsumer
  rw [hc]
  rfl

section
omit [Inhabited V] [Inhabited Tid]

theorem State.atConsumer_upd (hc : s.consumer = some t) :
    s.atConsumer (upd γ t g) f = f g := by
  rw [State.atConsumer_of hc, upd_self]

/-- A step between places where `f` gives nothing. -/
theorem State.atConsumer_same (hs : s'.consumer = s.consumer ∨
      (s.consumer = none ∨ s.consumer = some t) ∧ (s'.consumer = none ∨ s'.consumer = some t))
    (hf : ∀ u, f' (γ u) = f (γ u)) (h0 : f (γ t) = 0) (h1 : f' g = 0) :
    s'.atConsumer (upd γ t g) f' = s.atConsumer γ f := by
  obtain hs | ⟨hs, hs'⟩ := hs
  · by_cases hc : s.consumer = some t
    · rw [State.atConsumer_upd (hs.trans hc), State.atConsumer_of hc, h0, h1]
    · exact State.atConsumer_off hc hs fun u _ => hf u
  · have hold : s.atConsumer γ f = 0 := by
      obtain hs | hs := hs
      · unfold State.atConsumer; rw [hs]; rfl
      · rw [State.atConsumer_of hs, h0]
    have hnew : s'.atConsumer (upd γ t g) f' = 0 := by
      obtain hs | hs := hs'
      · unfold State.atConsumer; rw [hs]; rfl
      · rw [State.atConsumer_upd hs, h1]
    rw [hold, hnew]

/-- A call that begins is the consumer's, or leaves the consumer as it is. -/
theorem Calls.begin_consumer (hc : Calls cfg s γ) {c : Call V} (he : enabled cfg s c = true) :
    (begin cfg t c s).consumer = s.consumer ∨
      (s.consumer = none ∨ s.consumer = some t) ∧
        ((begin cfg t c s).consumer = none ∨ (begin cfg t c s).consumer = some t) := by
  cases c with
  | consume => exact .inr ⟨.inl (hc.spawned he), .inr rfl⟩
  | _ => exact .inl rfl

theorem Calls.finish_consumer (hc : Calls cfg s γ) {c : Call V} {r : Result}
    (he : endPlace cfg c r (γ t)) :
    (finish cfg t c r s).consumer = s.consumer ∨
      (s.consumer = none ∨ s.consumer = some t) ∧
        ((finish cfg t c r s).consumer = none ∨ (finish cfg t c r s).consumer = some t) := by
  cases c with
  | consume => exact .inr ⟨.inr (hc.consume (endPlace_role he)), .inl rfl⟩
  | push k v =>
    cases r with
    | pushed ok => cases ok <;> exact .inl rfl
    | _ => exact .inl rfl
  | register =>
    cases r with
    | registered i => cases i <;> exact .inl rfl
    | _ => exact .inl rfl
  | stop mode => cases r <;> exact .inl rfl
  | _ => exact .inl rfl

end

/-! ## What an operation leaves alone -/

omit [Inhabited V] [Inhabited Tid] in
variable (cfg t n s) in
theorem apply_meters (h : a.meters = false) :
    (∀ i m, ((apply cfg t a n s).slot i).meter m = (s.slot i).meter m) ∧
      (∀ m, (apply cfg t a n s).folded m = s.folded m) ∧
      ∀ k m, ((apply cfg t a n s).record k).meter m = (s.record k).meter m := by
  have hset : ∀ (j : Nat) (c : Slot V Tid), (∀ m, c.meter m = (s.slot j).meter m) →
      ∀ i m, ((s.setSlot j c).slot i).meter m = (s.slot i).meter m :=
    fun j c hc i m => setSlot_comp (fun c => c.meter m) j i c (hc m)
  cases a with
  | stateCas j =>
    unfold apply
    dsimp only
    split
    · exact ⟨hset _ _ fun _ => rfl, fun _ => rfl, fun _ _ => rfl⟩
    · exact ⟨fun _ _ => rfl, fun _ => rfl, fun _ _ => rfl⟩
  | stateStore j st =>
    cases st <;> exact ⟨hset _ _ fun _ => rfl, fun _ => rfl, fun _ _ => rfl⟩
  | acceptingLoad k' =>
    refine ⟨fun _ _ => rfl, fun _ => rfl, fun k m => ?_⟩
    show (upd s.record k'.serial _ k).meter m = _
    by_cases hk : k = k'.serial
    · subst hk; rw [upd_self]; rfl
    · rw [upd_ne _ _ hk]
  | highStore j d | tailStore j pos | tailSee site j | headStore j pos out | headSee j
    | slotStore k pos v => exact ⟨hset _ _ fun _ => rfl, fun _ => rfl, fun _ _ => rfl⟩
  | pushedAdd | droppedAdd | pushedLoad | droppedLoad | pushedStore | droppedStore | pushedSwap
    | droppedSwap | retiredPushedAdd | retiredDroppedAdd => cases h
  | _ => exact ⟨fun _ _ => rfl, fun _ => rfl, fun _ _ => rfl⟩

/-! ## The steps -/

omit [DecidableEq Tid] [Inhabited V] [Inhabited Tid] in
theorem State.counted_congr (hh : s'.handles = s.handles)
    (hr : ∀ k m, (s'.record k).meter m = (s.record k).meter m) (m : Meter) :
    s'.counted m = s.counted m := by
  unfold State.counted
  rw [hh, sumTo_congr fun k _ => hr k m]

section
omit [Inhabited V] [Inhabited Tid]

/-- A step after which the counters are the same. -/
theorem Counts.same (h : Counts cfg s γ) (hm : ∀ i m, (s'.slot i).meter m = (s.slot i).meter m)
    (hf : ∀ m, s'.folded m = s.folded m) (hcount : ∀ m, s'.counted m = s.counted m)
    (hc : s'.consumer = s.consumer ∨
      (s.consumer = none ∨ s.consumer = some t) ∧ (s'.consumer = none ∨ s'.consumer = some t))
    (ho : ∀ i, (∀ k, s'.owner i ≠ some (.handle k)) →
      (∀ k, s.owner i ≠ some (.handle k)) ∨ ∀ m, (s.slot i).meter m = 0)
    (hγ : (γ t).folding = false) (hg : g.folding = false) (hat : FoldAt cfg s g) :
    Counts cfg s' (upd γ t g) := by
  refine ⟨fun i hi m => ?_, at_upd (hat.congr hm) fun u _ => (h.at_ u).congr hm, fun m => ?_⟩
  · rw [hm]
    obtain hi | hi := ho i hi
    · exact h.unused i hi m
    · exact hi m
  · have htotal : s'.total cfg m = s.total cfg m := by
      unfold State.total
      rw [hf, sumTo_congr fun i _ => hm i m]
    rw [htotal, hcount,
      State.atConsumer_same (f := fun g => s.lent g m) hc (fun u => State.lent_congr hm _ m)
        (Place.lent_of hγ m) (Place.lent_of hg m),
      State.atConsumer_same (f := fun g => s.twice g m) hc (fun u => State.twice_congr hm _ m)
        (Place.twice_of hγ m) (Place.twice_of hg m)]
    exact h.balance m

/-- A push counts. -/
theorem Counts.counts (h : Counts cfg s γ) (hc : Calls cfg s γ) (ho : Owners cfg s γ)
    (hb : Bounds cfg s γ) {k : Handle} {v : V} (hrole : (γ t).role = .push k v)
    (hg : g.role = .push k v) {c : Slot V Tid} {r : Record V Tid} {d : Meter → Nat}
    (hm : ∀ m, c.meter m = (s.slot k.id).meter m + d m)
    (hr : ∀ m, r.meter m = (s.record k.serial).meter m + d m) :
    Counts cfg ((s.setSlot k.id c).setRecord k.serial r) (upd γ t g) := by
  generalize hs' : (s.setSlot k.id c).setRecord k.serial r = s'
  have hslot : s'.slot = upd s.slot k.id c := by subst hs'; rfl
  have hrec : s'.record = upd s.record k.serial r := by subst hs'; rfl
  obtain ⟨hf, hh, hcons, how⟩ : s'.folded = s.folded ∧ s'.handles = s.handles ∧
      s'.consumer = s.consumer ∧ s'.owner = s.owner := by
    subst hs'
    exact ⟨rfl, rfl, rfl, rfl⟩
  obtain ⟨-, hown, -⟩ := ho.pushing hc hrole
  have hk := (hc.pushing t k v (hc.push hrole)).2
  obtain ⟨hlt, -⟩ := List.getElem?_eq_some_iff.mp hk
  have hoff : ∀ j, j ≠ k.id → s'.slot j = s.slot j := fun j hj => by rw [hslot, upd_ne _ _ hj]
  -- the consumer is not reclaiming the slot
  have hat : ∀ u, FoldAt cfg s' (γ u) ∧ (∀ m, s'.lent (γ u) m = s.lent (γ u) m) ∧
      ∀ m, s'.twice (γ u) m = s.twice (γ u) m :=
    fun u => (h.at_ u).off (ho.not_reclaimed hc hrole) hoff
  have hne : s.consumer ≠ some t := by
    intro ht
    have hroles := hc.roles t
    rw [(hc.consumer t).mp ht, hrole] at hroles
    cases hroles
  have hnot : g.role ≠ .consume := by
    intro hr
    rw [hg] at hr
    cases hr
  refine ⟨fun i hi m => ?_, at_upd (Place.foldAt_of hnot) fun u _ => (hat u).1, fun m => ?_⟩
  · rw [how] at hi
    rw [hoff i]
    · exact h.unused i hi m
    · rintro rfl
      exact hi k.serial hown
  · have htotal : s'.total cfg m = s.total cfg m + d m := by
      have := sumTo_upd (fun c => Slot.meter c m) s.slot c (hb.handles _ _ hk)
      have := hm m
      unfold State.total
      rw [hf, hslot]
      omega
    have hcount : s'.counted m = s.counted m + d m := by
      have := sumTo_upd (fun c => Record.meter c m) s.record r hlt
      have := hr m
      unfold State.counted
      rw [hh, hrec]
      omega
    have := h.balance m
    rw [htotal, hcount,
      State.atConsumer_off (f := fun g => s.lent g m) hne hcons fun u _ => (hat u).2.1 m,
      State.atConsumer_off (f := fun g => s.twice g m) hne hcons fun u _ => (hat u).2.2 m]
    omega

/-- The consumer folds. -/
theorem Counts.folds (h : Counts cfg s γ) (hc : Calls cfg s γ) (ho : Owners cfg s γ)
    (hb : Bounds cfg s γ) {p : FoldStep} {l : Lot} (hγ : γ t = .reclaims p l)
    (hp : (Place.reclaims p l : Place V Tid).reclaimsAt l.i) {c : Slot V Tid}
    (hslot : s'.slot = upd s.slot l.i c) (hrec : s'.record = s.record)
    (hh : s'.handles = s.handles) (hcons : s'.consumer = s.consumer) (how : s'.owner = s.owner)
    (hat : FoldAt cfg s' g)
    (hbal : ∀ m, s'.folded m + c.meter m + s'.lent g m + s.twice (γ t) m =
      s.folded m + (s.slot l.i).meter m + s.lent (γ t) m + s'.twice g m) :
    Counts cfg s' (upd γ t g) := by
  have hrole : (γ t).role = .consume := by rw [hγ]; rfl
  have hmine := hc.consume hrole
  have hret : (s.slot l.i).state = .retiring := by
    have := ho.at_ t
    rw [hγ] at this
    cases p with
    | state => cases hp
    | _ => exact this
  obtain ⟨k, hk, -⟩ := ho.retiring l.i hret
  have hi : l.i < cfg.producers := hb.used l.i (by rw [hret]; intro h; cases h)
  have hoff : ∀ j, j ≠ l.i → s'.slot j = s.slot j := fun j hj => by rw [hslot, upd_ne _ _ hj]
  refine ⟨fun i hi m => ?_, at_upd hat fun u hu => ?_, fun m => ?_⟩
  · rw [how] at hi
    rw [hoff i]
    · exact h.unused i hi m
    · rintro rfl
      exact hi k hk
  · exact Place.foldAt_of fun hr => hu (hc.one_consumer hr hrole)
  · have hsum := sumTo_upd (fun c => Slot.meter c m) s.slot c hi
    have hold := h.balance m
    rw [State.atConsumer_of hmine, State.atConsumer_of hmine] at hold
    rw [State.atConsumer_upd (hcons.trans hmine), State.atConsumer_upd (hcons.trans hmine)]
    have hcount : s'.counted m = s.counted m := by
      unfold State.counted
      rw [hh, hrec]
    have := hbal m
    unfold State.total at hold ⊢
    rw [hslot, hcount]
    omega

/-- A slot that is no handle's was none before, or has been folded. -/
theorem Counts.unowned (h : Counts cfg s γ) (ho : Owners cfg s γ) {r : Resp a}
    (hm : Move cfg (γ t) a r g) (i : Nat)
    (hi : ∀ k, (apply cfg t a n s).owner i ≠ some (.handle k)) :
    (∀ k, s.owner i ≠ some (.handle k)) ∨ ∀ m, (s.slot i).meter m = 0 := by
  have hnone : (s.slot i).state = .free → ∀ k, s.owner i ≠ some (.handle k) := by
    intro hf k hk
    rw [(ho.free i).mp hf] at hk
    cases hk
  have hupd : ∀ {j : Nat} {o : Option (Owner Tid)}, i ≠ j →
      (∀ k, upd s.owner j o i ≠ some (.handle k)) → ∀ k, s.owner i ≠ some (.handle k) := by
    intro j o hj hk
    rwa [upd_ne _ _ hj] at hk
  by_cases ht : a.turns = false
  · rw [apply_owner ht] at hi
    exact .inl hi
  · obtain ⟨j, rfl, -⟩ | ⟨j, rfl, hγ⟩ | ⟨k, rfl, -, -⟩ | ⟨l, rfl, hγ⟩ :=
      hm.turn_cases (by simpa using ht)
    · unfold apply at hi
      dsimp only at hi
      split at hi
      · rename_i hf
        by_cases hj : i = j
        · subst hj; exact .inl (hnone hf)
        · exact .inl (hupd hj hi)
      · exact .inl hi
    · have hat := ho.at_ t
      rw [hγ] at hat
      by_cases hj : i = j
      · subst hj; exact .inl (hnone hat.2.2)
      · exact .inl (hupd hj hi)
    · exact .inl hi
    · have hat := h.at_ t
      rw [hγ] at hat
      by_cases hj : i = l.i
      · subst hj; exact .inr hat
      · exact .inl (hupd hj hi)

/-- A counter that is zero is set to zero. -/
theorem Counts.resets (h : Counts cfg s γ) {i : Nat} (hi : ∀ k, s.owner i ≠ some (.handle k))
    {c : Slot V Tid} (hm : ∀ m, c.meter m = 0 ∨ c.meter m = (s.slot i).meter m)
    (hγ : (γ t).folding = false) (hg : g.folding = false) (hr : g.role ≠ .consume) :
    Counts cfg (s.setSlot i c) (upd γ t g) := by
  refine h.same (fun j m => setSlot_comp (fun c => c.meter m) i j c ?_) (fun _ => rfl)
    (fun _ => rfl) (.inl rfl) (fun _ hj => .inl hj) hγ hg (Place.foldAt_of hr)
  rw [h.unused i hi m]
  obtain hm | hm := hm m
  · exact hm
  · exact hm.trans (h.unused i hi m)

/-- A registration zeroes the counters of a slot that is no handle's. -/
theorem Counts.registers (h : Counts cfg s γ) (ho : Owners cfg s γ) {r : Resp a}
    (ha : a.meters ≠ false) (hm : RegisterMove cfg (γ t) a r g) :
    Counts cfg (apply cfg t a n s) (upd γ t g) := by
  have hown := ho.at_ t
  generalize hγ : γ t = g₀ at hm hown
  have hzero : ∀ {i : Nat}, (γ t = .vacant i ∨ γ t = .claimed i) →
      ∀ k, s.owner i ≠ some (.handle k) := by
    rintro i (hi | hi) k hk
    · rw [hγ] at hi
      subst hi
      rw [(ho.free i).mp hown.2.2] at hk
      cases hk
    · rw [hγ] at hi
      subst hi
      rw [hown.1] at hk
      cases hk
  cases hm with
  | vacantPushed i =>
    exact h.resets (hzero (.inl hγ)) (fun m => by cases m; exact .inl rfl; exact .inr rfl)
      (by rw [hγ]; rfl) rfl fun h => by cases h
  | vacantDropped i =>
    exact h.resets (hzero (.inl hγ)) (fun m => by cases m; exact .inr rfl; exact .inl rfl)
      (by rw [hγ]; rfl) rfl fun h => by cases h
  | pushed i =>
    exact h.resets (hzero (.inr hγ)) (fun m => by cases m; exact .inl rfl; exact .inr rfl)
      (by rw [hγ]; rfl) rfl fun h => by cases h
  | dropped i =>
    exact h.resets (hzero (.inr hγ)) (fun m => by cases m; exact .inr rfl; exact .inl rfl)
      (by rw [hγ]; rfl) rfl fun h => by cases h
  | _ => exact absurd rfl ha

/-- A reclaim takes the counters of a slot over, one operation at a time. -/
theorem Counts.reclaims (h : Counts cfg s γ) (hc : Calls cfg s γ) (ho : Owners cfg s γ)
    (hb : Bounds cfg s γ) {r : Resp a} (hr : r = reply cfg n s a) (ha : a.meters ≠ false)
    (hm : ReclaimMove cfg (γ t) a r g) : Counts cfg (apply cfg t a n s) (upd γ t g) := by
  have hat := h.at_ t
  generalize hγ : γ t = g₀ at hm hat
  cases hm with
  | swapPushed l m hp =>
    subst hr
    refine h.folds hc ho hb hγ rfl rfl rfl rfl rfl rfl ?_ fun m => ?_
    · simp [FoldAt, apply]
    · rw [hγ]
      cases m <;>
        simp [State.lent, State.twice, State.folded, State.setSlot, Slot.meter, apply, reply]
  | loadPushed l m hp =>
    subst hr
    refine h.folds hc ho hb hγ rfl (upd_eq_self s.slot l.i).symm rfl rfl rfl rfl ?_ fun m => ?_
    · simp [FoldAt, apply, reply, hp]
    · rw [hγ]
      cases m <;> simp [State.lent, State.twice, State.folded, Slot.meter, apply, reply]
  | addPushed l m =>
    refine h.folds hc ho hb hγ rfl (upd_eq_self s.slot l.i).symm rfl rfl rfl rfl hat.2 fun m => ?_
    have := hat.1
    rw [hγ]
    cases m <;> simp [State.lent, State.twice, State.folded, Slot.meter, apply]
    omega
  | swapDropped l m hp =>
    subst hr
    refine h.folds hc ho hb hγ rfl rfl rfl rfl rfl rfl ?_ fun m => ?_
    · simpa [FoldAt, apply] using hat
    · rw [hγ]
      cases m <;>
        simp [State.lent, State.twice, State.folded, State.setSlot, Slot.meter, apply, reply]
  | loadDropped l m hp =>
    subst hr
    refine h.folds hc ho hb hγ rfl (upd_eq_self s.slot l.i).symm rfl rfl rfl rfl ?_ fun m => ?_
    · simp [FoldAt, apply, reply, hp]
    · rw [hγ]
      cases m <;> simp [State.lent, State.twice, State.folded, Slot.meter, apply, reply]
  | addDropped l m =>
    obtain ⟨hle, hzero⟩ := hat
    refine h.folds hc ho hb hγ rfl (upd_eq_self s.slot l.i).symm rfl rfl rfl rfl ?_ fun m => ?_
    · split
      · trivial
      · rename_i hp
        intro m
        cases m
        · exact (hzero hp).1
        · exact (hzero hp).2
    · rw [hγ]
      by_cases hp : cfg.port = .python
      · rw [if_pos hp]
        cases m <;> simp [State.lent, State.twice, State.folded, Slot.meter, apply]
        omega
      · rw [if_neg hp]
        obtain ⟨h1, h2⟩ := hzero hp
        cases m <;> simp [State.lent, State.twice, State.folded, Slot.meter, apply, h1, h2]
  | zeroPushed l =>
    refine h.folds hc ho hb hγ rfl rfl rfl rfl rfl rfl ?_ fun m => ?_
    · simp [FoldAt, apply]
    · rw [hγ]
      cases m <;>
        simp [State.lent, State.twice, State.folded, State.setSlot, Slot.meter, apply]
  | zeroDropped l =>
    refine h.folds hc ho hb hγ rfl rfl rfl rfl rfl rfl (fun m => ?_) fun m => ?_
    · cases m
      · simpa [Slot.meter, FoldAt, apply] using hat
      · simp [Slot.meter, apply]
    · have hp : (s.slot l.i).pushed = 0 := hat
      rw [hγ]
      cases m <;>
        simp [State.lent, State.twice, State.folded, State.setSlot, Slot.meter, apply, hp]
  | _ => exact absurd rfl ha

theorem Counts.move (h : Counts cfg s γ) (hc : Calls cfg s γ) (ho : Owners cfg s γ)
    (hb : Bounds cfg s γ) {r : Resp a} (hr : r = reply cfg n s a) (hm : Move cfg (γ t) a r g) :
    Counts cfg (apply cfg t a n s) (upd γ t g) := by
  by_cases ha : a.meters = false
  · obtain ⟨h1, h2, h3⟩ := apply_meters cfg s t n ha
    obtain ⟨hγ, hg, hat⟩ := hm.folding (s := s) ha
    exact h.same h1 h2 (State.counted_congr apply_handles h3) (.inl apply_consumer)
      (fun i => h.unowned ho hm i) hγ hg (hat (h.at_ t))
  · generalize hγ : γ t = g₀ at hm
    cases hm with
    | push hm =>
      cases hm with
      | count k v =>
        refine h.counts hc ho hb (v := v) (d := fun m => if m = .pushed then 1 else 0)
          (by rw [hγ]; rfl) rfl (fun m => ?_) fun m => ?_ <;> cases m <;> rfl
      | drop k v =>
        refine h.counts hc ho hb (v := v) (d := fun m => if m = .dropped then 1 else 0)
          (by rw [hγ]; rfl) rfl (fun m => ?_) fun m => ?_ <;> cases m <;> rfl
      | _ => exact absurd rfl ha
    | register hm => exact h.registers ho ha (hγ ▸ hm)
    | reclaim hm => exact h.reclaims hc ho hb hr ha (hγ ▸ hm)
    | life hm =>
      cases hm with
      | @waits a _ hw => cases a <;> first | exact absurd rfl ha | cases hw
      | _ => exact absurd rfl ha
    | _ hm => cases hm <;> exact absurd rfl ha

theorem begin_meter {c : Call V} (k : Nat) (m : Meter) :
    ((begin cfg t c s).record k).meter m = (s.record k).meter m := by
  cases c with
  | push h v =>
    show (upd s.record h.serial _ k).meter m = _
    by_cases hk : k = h.serial
    · subst hk; rw [upd_self]; cases m <;> rfl
    · rw [upd_ne _ _ hk]
  | _ => rfl

theorem Counts.begins (h : Counts cfg s γ) (hc : Calls cfg s γ) {c : Call V} (hi : γ t = .idle)
    (he : enabled cfg s c = true) : Counts cfg (begin cfg t c s) (upd γ t (startPlace c)) := by
  exact h.same (fun i m => by rw [begin_slot]) (fun m => by rw [begin_eq]; cases m <;> rfl)
    (State.counted_congr begin_handles begin_meter) (hc.begin_consumer he)
    (fun i hj => .inl (by rwa [begin_owner] at hj)) (by rw [hi]; rfl) (by cases c <;> rfl)
    (by cases c <;> trivial)

theorem finish_meter {c : Call V} {r : Result} (k : Nat) (m : Meter) :
    ((finish cfg t c r s).record k).meter m = (s.record k).meter m := by
  cases c with
  | push h v =>
    have hupd : ∀ r' : Record V Tid, r'.meter m = (s.record h.serial).meter m →
        (upd s.record h.serial r' k).meter m = (s.record k).meter m := by
      intro r' hr'
      by_cases hk : k = h.serial
      · subst hk; rw [upd_self]; exact hr'
      · rw [upd_ne _ _ hk]
    cases r with
    | pushed ok => cases ok <;> exact hupd _ (by cases m <;> rfl)
    | _ => exact hupd _ (by cases m <;> rfl)
  | register =>
    cases r with
    | registered i => cases i <;> rfl
    | _ => rfl
  | stop mode => cases r <;> rfl
  | _ => rfl

/-- The record of a handle that is given out now is empty. -/
theorem Tallies.counted_gives (h : Tallies s γ) {i : Nat} (m : Meter) :
    (finish cfg t (.register : Call V) (.registered (some i)) s).counted m = s.counted m := by
  show sumTo (s.handles ++ [i]).length (fun k => (s.record k).meter m) = s.counted m
  rw [List.length_append, List.length_singleton, sumTo_succ, h.fresh _ (Nat.le_refl _)]
  cases m <;> rfl

end

omit [DecidableEq Tid] [Inhabited V] [Inhabited Tid] in
theorem endPlace_folding {c : Call V} {r : Result} (h : endPlace cfg c r g) :
    g.folding = false := by
  cases hg : g.folding with
  | false => rfl
  | true =>
    have hrole := endPlace_role h
    rw [Place.folding_role hg] at hrole
    cases c with
    | consume =>
      obtain ⟨-, rfl⟩ := h
      cases hg
    | _ => cases hrole

omit [Inhabited V] [Inhabited Tid] in
theorem Counts.finishes (h : Counts cfg s γ) (hc : Calls cfg s γ) (hT : Tallies s γ) {c : Call V}
    {r : Result} (he : endPlace cfg c r (γ t)) :
    Counts cfg (finish cfg t c r s) (upd γ t .idle) := by
  have hcount : ∀ m, (finish cfg t c r s).counted m = s.counted m := by
    by_cases hreg : c ≠ .register ∨ r = .registered none
    · exact State.counted_congr (finish_frame hreg).2 finish_meter
    · obtain ⟨rfl, hr⟩ : c = .register ∧ r ≠ .registered none := by
        simpa only [not_or, not_not] using hreg
      obtain ⟨hn, -⟩ | ⟨i, rfl, -⟩ := he
      · exact absurd hn hr
      · exact fun m => hT.counted_gives m
  refine h.same (fun i m => by rw [finish_slot]) (fun m => by rw [finish_eq]; cases m <;> rfl)
    hcount (hc.finish_consumer he) (fun i hi => .inl ?_) (endPlace_folding he) rfl trivial
  by_cases hreg : c ≠ .register ∨ r = .registered none
  · rwa [(finish_frame hreg).1] at hi
  · obtain ⟨rfl, hr⟩ : c = .register ∧ r ≠ .registered none := by
      simpa only [not_or, not_not] using hreg
    obtain ⟨hn, -⟩ | ⟨j, rfl, -⟩ := he
    · exact absurd hn hr
    · intro k hk
      have hi : ∀ k, upd s.owner j (some (.handle s.handles.length)) i ≠ some (.handle k) := hi
      by_cases hij : i = j
      · subst hij
        exact hi _ (upd_self _ _ _)
      · rw [upd_ne _ _ hij] at hi
        exact hi k hk

variable (V Tid cfg) in
theorem counts_keeps (ok : Tid → Act V Tid → State V Tid → Prop) :
    (flow V Tid cfg).Keeps ok (Counts cfg) where
  init := by
    refine ⟨fun _ _ m => by cases m <;> rfl, fun _ => trivial, fun m => ?_⟩
    have hzero : sumTo cfg.producers (fun _ => (Slot.init : Slot V Tid).meter m) = 0 :=
      sumTo_eq_zero.mpr fun _ _ => by cases m <;> rfl
    have hfold : (State.init : State V Tid).folded m = 0 := by cases m <;> rfl
    show (State.init : State V Tid).folded m +
      sumTo cfg.producers (fun _ => (Slot.init : Slot V Tid).meter m) = 0
    rw [hfold, hzero]
  begin hr h t c hi he := h.begins ((calls_keeps V Tid cfg _).reach hr) hi he
  move hr h t a n s' r g _ hs hm := by
    obtain ⟨-, rfl, h2⟩ := sem_some cfg hs
    exact h.move ((calls_keeps V Tid cfg _).reach hr) ((owners_keeps V Tid cfg _).reach hr)
      ((bounds_keeps V Tid cfg _).reach hr) h2 hm
  finish hr h t c r he :=
    h.finishes ((calls_keeps V Tid cfg _).reach hr) ((tallies_keeps V Tid cfg _).reach hr) he

end
end Katas.Weir.Pipeline
