import Katas.Weir.SpscRing

/-!
# The single-producer single-consumer ring is a bounded queue

The words of the ring are the positions of `Spsc.Ring`, each shifted by where
the indices began, and its slots are those of the positions. So what holds of
the positions holds of the words as long as no two of them are 2^64 apart,
which the ring's size forbids. `View` says this, and what each side knows at
its place.
-/
namespace Katas.Weir.SpscRing
open Katas.Conc Katas.Counter

/-! ## Places -/

/-- Where a side stands: in a `tryPush`, before it loads `tail`, the private
copy of `head`, `head` itself, before it writes and before it publishes; in a
`popBatch`, before it loads `head`, the private copy of `tail`, `tail` itself,
and as it copies; in an `emptyNow`, before it loads `tail`, and `head`. -/
inductive Place (T : Type) where
  | idle
  | asks (v : T)
  | loaded (v : T) (t : BitVec 64)
  | full (v : T) (t : BitVec 64)
  | writes (v : T) (t : BitVec 64)
  | publishes (v : T) (t : BitVec 64)
  | pushed (ok : Bool)
  | pops (max : BitVec 64)
  | looks (max h : BitVec 64)
  | stale (max h : BitVec 64)
  | copies (max h n : BitVec 64) (out : List T)
  | popped (max : BitVec 64) (out : List T)
  | checks
  | compares (t : BitVec 64)
  | checked (b : Bool)

section
variable {T : Type} {c : Capacity}

/-- How many items of the batch in progress are copied. -/
def Place.got : Place T → Nat
  | .copies _ _ _ out => out.length
  | _ => 0

/-- Whose place it is. -/
def Place.isOf : Place T → Side → Prop
  | .idle, _ => True
  | .asks _, u | .loaded _ _, u | .full _ _, u | .writes _ _, u | .publishes _ _, u
  | .pushed _, u => u = .producer
  | _, u => u = .consumer

inductive Move : Place T → (a : Act T c) → Resp a → Place T → Prop
  | tailLoad (v : T) (t : BitVec 64) : Move (.asks v) .tailLoad t (.loaded v t)
  | cachedHead (v : T) (t h : BitVec 64) : Move (.loaded v t) .cachedHeadLoad h
      (if t - h = c.word then .full v t else .writes v t)
  | headSee (v : T) (t h : BitVec 64) : Move (.full v t) .headSee h
      (if t - h = c.word then .pushed false else .writes v t)
  | slotStore (v : T) (t : BitVec 64) :
      Move (.writes v t) (.slotStore (slotOf c.log t) v) () (.publishes v t)
  | tailStore (v : T) (t : BitVec 64) :
      Move (.publishes v t) (.tailStore (t + 1) v) () (.pushed true)
  | headLoad (max h : BitVec 64) : Move (.pops max) .headLoad h (.looks max h)
  | cachedTail (max h t : BitVec 64) : Move (.looks max h) .cachedTailLoad t
      (if h = t then .stale max h else .copies max h (batch max (t - h)) [])
  | tailSee (max h t : BitVec 64) : Move (.stale max h) .tailSee t
      (if h = t then .popped max [] else .copies max h (batch max (t - h)) [])
  | slotLoad (max h n : BitVec 64) (out : List T) (v : T) : out.length < n.toNat →
      Move (.copies max h n out) (.slotLoad (slotOf c.log (h + BitVec.ofNat 64 out.length))) v
        (.copies max h n (out ++ [v]))
  | headStore (max h n : BitVec 64) (out : List T) : out.length = n.toNat →
      Move (.copies max h n out) (.headStore (h + n)) () (.popped max out)
  | seesTail (t : BitVec 64) : Move .checks .tailSee t (.compares t)
  | compares (t h : BitVec 64) : Move (.compares t) .headLoad h (.checked (h == t))

def startPlace : Call T → Place T
  | .tryPush v => .asks v
  | .popBatch max => .pops max
  | .emptyNow => .checks

def endPlace : Call T → Result T → Place T → Prop
  | .tryPush _, r, g => ∃ ok, r = .pushed ok ∧ g = .pushed ok
  | .popBatch max, r, g => ∃ out, r = .popped out ∧ g = .popped max out
  | .emptyNow, r, g => ∃ b, r = .empty b ∧ g = .checked b

def procPre : Proc T → Place T → Prop
  | .copyLoop h n i out, g => ∃ max, g = .copies max h n out ∧ i = BitVec.ofNat 64 out.length ∧
      out.length ≤ n.toNat

def procPost : Proc T → Place T → List T → Place T → Prop
  | .copyLoop h n _ _, g, out, g' => ∀ max out₀, g = .copies max h n out₀ →
      g' = .copies max h n out ∧ out.length = n.toNat

end

section
variable {T : Type} [Inhabited T] {c : Capacity} {start : BitVec 64}

def flow (T : Type) [Inhabited T] (c : Capacity) (start : BitVec 64) : Flow (ring T c start) where
  G := Place T
  idle := .idle
  start _ := startPlace
  move _ := Move
  ends _ := endPlace
  pre p _ := procPre p
  post p _ := procPost p

theorem wp_store {t : Side} {v : T} {w : BitVec 64} :
    (flow T c start).wp t (store v w) (fun ok g => g = .pushed ok) (.writes v w) :=
  fun _ => ⟨_, .slotStore v w, fun _ => ⟨_, .tailStore v w, rfl⟩⟩

theorem wp_tryPush {t : Side} {v : T} :
    (flow T c start).wp t (tryPush v) (fun ok g => g = .pushed ok) (.asks v) := by
  refine Flow.wp_move_seq fun w => ⟨_, .tailLoad v w, ?_⟩
  refine Flow.wp_move_seq fun h => ⟨_, .cachedHead v w h, ?_⟩
  by_cases hfull : w - h = c.word
  · rw [if_pos hfull, if_pos hfull]
    refine Flow.wp_move_seq fun h' => ⟨_, .headSee v w h', ?_⟩
    by_cases hfull' : w - h' = c.word
    · rw [if_pos hfull', if_pos hfull']
      exact rfl
    · rw [if_neg hfull', if_neg hfull']
      exact wp_store
  · rw [if_neg hfull, if_neg hfull]
    exact wp_store

theorem wp_copyLoop {t : Side} {max h n : BitVec 64} {out : List T} (hn : out.length ≤ n.toNat) :
    (flow T c start).wp t (copyLoop h n (BitVec.ofNat 64 out.length) out)
      (fun out' g => g = .copies max h n out' ∧ out'.length = n.toNat) (.copies max h n out) := by
  have hlt : out.length < 2 ^ 64 := by omega
  unfold copyLoop
  split
  · rename_i hi
    rw [BitVec.lt_def, BitVec.toNat_ofNat, Nat.mod_eq_of_lt hlt] at hi
    intro v
    refine ⟨_, .slotLoad max h n out v hi, ⟨max, rfl, ?_, ?_⟩, fun out' g hg => hg max _ rfl⟩
    · rw [List.length_append, List.length_singleton, BitVec.ofNat_add]
      rfl
    · rw [List.length_append, List.length_singleton]
      exact hi
  · rename_i hi
    rw [BitVec.lt_def, BitVec.toNat_ofNat, Nat.mod_eq_of_lt hlt] at hi
    exact ⟨rfl, by omega⟩

theorem wp_popFrom {t : Side} {max h w : BitVec 64} :
    (flow T c start).wp t (popFrom max h w) (fun out g => g = .popped max out)
      (.copies max h (batch max (w - h)) []) := by
  refine ⟨⟨max, rfl, rfl, Nat.zero_le _⟩, fun out g hg => ?_⟩
  obtain ⟨rfl, hlen⟩ := hg max [] rfl
  exact fun _ => ⟨_, .headStore max h _ out hlen, rfl⟩

theorem wp_popBatch {t : Side} {max : BitVec 64} :
    (flow T c start).wp t (popBatch max) (fun out g => g = .popped max out) (.pops max) := by
  refine Flow.wp_move_seq fun h => ⟨_, .headLoad max h, ?_⟩
  refine Flow.wp_move_seq fun w => ⟨_, .cachedTail max h w, ?_⟩
  by_cases hempty : h = w
  · rw [if_pos hempty, if_pos hempty]
    refine Flow.wp_move_seq fun w' => ⟨_, .tailSee max h w', ?_⟩
    by_cases hempty' : h = w'
    · rw [if_pos hempty', if_pos hempty']
      exact rfl
    · rw [if_neg hempty', if_neg hempty']
      exact wp_popFrom
  · rw [if_neg hempty, if_neg hempty]
    exact wp_popFrom

theorem wp_emptyNow {t : Side} :
    (flow T c start).wp t emptyNow (fun b g => g = .checked b) .checks :=
  fun w => ⟨_, .seesTail w, fun h => ⟨_, .compares w h, rfl⟩⟩

theorem follows : (flow T c start).Follows where
  code t k := by
    cases k with
    | tryPush v => exact Flow.wp_seq (Flow.wp_mono wp_tryPush fun ok g h => ⟨ok, rfl, h⟩)
    | popBatch max => exact Flow.wp_seq (Flow.wp_mono wp_popBatch fun out g h => ⟨out, rfl, h⟩)
    | emptyNow => exact Flow.wp_seq (Flow.wp_mono wp_emptyNow fun b g h => ⟨b, rfl, h⟩)
  body t p g h := by
    obtain ⟨h', n, i, out⟩ := p
    obtain ⟨max, rfl, rfl, hn⟩ := h
    refine Flow.wp_mono (wp_copyLoop hn) fun out' g hg max' out₀ he => ?_
    cases he
    exact hg

end

/-! ## What the words stand for -/

section
variable {T : Type} {c : Capacity} {start : BitVec 64}

/-- The words stand for the positions, and the slots are those of the positions. -/
structure Rep (start : BitVec 64) (s : State T c) (r : Spsc.Ring T) : Prop where
  tail : s.ring.tail = wrap start r.tail
  cachedHead : s.ring.cachedHead = wrap start r.cachedHead
  head : s.ring.head = wrap start r.head
  cachedTail : s.ring.cachedTail = wrap start r.cachedTail
  slots : ∀ p, s.ring.slots (slotOf c.log (wrap start p)) = r.slot (p % c.size)
  pushed : s.pushed = r.log
  released : s.released = r.head

/-- What a side knows of the ring at its place. -/
def Knows (c : Capacity) (start : BitVec 64) (r : Spsc.Ring T) : Place T → Prop
  | .loaded _ t | .full _ t => t = wrap start r.tail
  | .writes _ t => t = wrap start r.tail ∧ r.tail < r.cachedHead + c.size
  | .publishes v t =>
    t = wrap start r.tail ∧ r.tail < r.cachedHead + c.size ∧ r.slot (r.tail % c.size) = v
  | .looks _ h | .stale _ h => h = wrap start r.head
  | .copies max h n out =>
    h = wrap start r.head ∧ r.head + n.toNat ≤ r.cachedTail ∧ out.length ≤ n.toNat ∧
      out = (r.log.drop r.head).take out.length ∧ n.toNat ≤ max.toNat ∧ (n.toNat = 0 → max = 0)
  | .compares t => t = wrap start r.cachedTail
  | _ => True

structure View (start : BitVec 64) (s : State T c) (γ : Side → Place T) (r : Spsc.Ring T) :
    Prop where
  rep : Rep start s r
  inv : r.Inv c.size
  knows : ∀ u, Knows c start r (γ u)
  copied : s.copied = r.log.take (r.head + (γ .consumer).got)
  sides : ∀ u, (γ u).isOf u

variable {s s' : State T c} {γ : Side → Place T} {r r' : Spsc.Ring T} {t : Side} {g g' : Place T}

theorem Capacity.size_pos (c : Capacity) : 2 ≤ c.size := by
  obtain ⟨k, hk, -⟩ := c
  exact Nat.pow_le_pow_right (show 0 < 2 by decide) hk

theorem Capacity.size_lt (c : Capacity) : c.size < 2 ^ 64 :=
  Nat.pow_lt_pow_right (by decide) c.fits

theorem Rep.held (h : Rep start s r) : s.held = r.log.drop r.head := by
  unfold State.held
  rw [h.pushed, h.released]

theorem Rep.held_length (h : Rep start s r) (hi : r.Inv c.size) :
    s.held.length = r.tail - r.head := by
  rw [h.held, List.length_drop, hi.length]

/-- The producer's test, on positions. -/
theorem full_iff (start : BitVec 64) (hi : r.Inv c.size) {k : Nat} (h1 : r.cachedHead ≤ k)
    (h2 : k ≤ r.head) : wrap start r.tail - wrap start k = c.word ↔ r.tail = k + c.size := by
  have hroom := hi.room
  have hle := hi.head_le_tail
  have hlt := c.size_lt
  have hsub : (wrap start r.tail - wrap start k).toNat = r.tail - k :=
    wrap_sub (by omega) (by omega)
  rw [← BitVec.toNat_inj, hsub, Capacity.word, BitVec.toNat_ofNat, Nat.mod_eq_of_lt hlt]
  omega

/-- The consumer's test, on positions. -/
theorem empty_iff (start : BitVec 64) (hi : r.Inv c.size) {k : Nat} (h1 : r.cachedTail ≤ k) (h2 : k ≤ r.tail) :
    wrap start r.head = wrap start k ↔ r.head = k := by
  have hroom := hi.room
  have hseen := hi.seenHead
  have hle := hi.seenTail
  have hlt := c.size_lt
  rw [eq_comm, wrap_inj (by omega) (by omega), eq_comm]

/-- How many the consumer copies, on positions. -/
theorem batch_toNat (start max : BitVec 64) (hi : r.Inv c.size) {k : Nat} (h1 : r.head < k)
    (h2 : k ≤ r.tail) : r.head + (batch max (wrap start k - wrap start r.head)).toNat ≤ k ∧
      (batch max (wrap start k - wrap start r.head)).toNat ≤ max.toNat ∧
      ((batch max (wrap start k - wrap start r.head)).toNat = 0 → max = 0) := by
  have hroom := hi.room
  have hseen := hi.seenHead
  have hlt := c.size_lt
  have hsub : (wrap start k - wrap start r.head).toNat = k - r.head :=
    wrap_sub (by omega) (by omega)
  unfold batch
  split
  · rename_i hmax
    rw [BitVec.lt_def] at hmax
    omega
  · rename_i hmax
    rw [BitVec.lt_def] at hmax
    refine ⟨by omega, Nat.le_refl _, fun h0 => ?_⟩
    rw [← BitVec.toNat_inj]
    exact h0

/-- The batch in progress was published. -/
theorem View.got_le (h : View start s γ r) : r.head + (γ .consumer).got ≤ r.cachedTail := by
  have hk := h.knows .consumer
  have hseen := h.inv.seenTail.1
  generalize γ .consumer = g at hk
  cases g with
  | copies max k n out =>
    obtain ⟨-, h2, h3, -⟩ := hk
    show r.head + out.length ≤ r.cachedTail
    omega
  | _ => exact hseen

/-- What the producer leaves is what the consumer knew. -/
theorem Knows.produced (h : Knows c start r g) (hg : g.isOf .consumer) (hi : r.Inv c.size)
    (hhead : r'.head = r.head) (htail : r'.cachedTail = r.cachedTail) (hlog : r.log <+: r'.log) :
    Knows c start r' g := by
  cases g with
  | looks max k | stale max k => exact h.trans (by rw [hhead])
  | compares w => exact h.trans (by rw [htail])
  | copies max k n out =>
    obtain ⟨h1, h2, h3, h4, h5, h6⟩ := h
    refine ⟨h1.trans (by rw [hhead]), by rw [hhead, htail]; exact h2, h3, ?_, h5, h6⟩
    obtain ⟨l, hl⟩ := hlog
    have hlen : r.head + out.length ≤ r.log.length := by
      have := hi.length
      have := hi.seenTail.2
      omega
    rw [hhead, ← hl, List.drop_append_of_le_length (by omega),
      List.take_append_of_le_length (by rw [List.length_drop]; omega)]
    exact h4
  | idle | pops | popped | checks | checked => trivial
  | _ => cases hg

/-- What the consumer leaves is what the producer knew. -/
theorem Knows.consumed (h : Knows c start r g) (hg : g.isOf .producer) (htail : r'.tail = r.tail)
    (hhead : r'.cachedHead = r.cachedHead) (hslot : r'.slot = r.slot) : Knows c start r' g := by
  cases g with
  | loaded v w | full v w => exact h.trans (by rw [htail])
  | writes v w => simpa only [Knows, htail, hhead] using h
  | publishes v w => simpa only [Knows, htail, hhead, hslot] using h
  | idle | asks | pushed => trivial
  | _ => cases hg

/-- The next item to copy. -/
theorem View.next_copy (h : View start s γ r) {max n : BitVec 64} {out : List T}
    (hg : γ .consumer = .copies max (wrap start r.head) n out) (hlt : out.length < n.toNat) :
    s.ring.slots (slotOf c.log (wrap start r.head + BitVec.ofNat 64 out.length)) =
        r.slot ((r.head + out.length) % c.size) ∧
      r.log[r.head + out.length]? = some (r.slot ((r.head + out.length) % c.size)) := by
  have hk := h.knows .consumer
  rw [hg] at hk
  obtain ⟨-, h2, -⟩ := hk
  have hseen := h.inv.seenTail.2
  refine ⟨?_, h.inv.stored _ (by omega) (by omega)⟩
  rw [wrap_add]
  exact h.rep.slots _

/-- The consumer looks at `tail`. -/
theorem View.see_tail (h : View start s γ r) :
    Rep start { s with ring := { s.ring with cachedTail := s.ring.tail } } (r.seeTail r.tail) ∧
      (r.seeTail r.tail).Inv c.size :=
  ⟨⟨h.rep.tail, h.rep.cachedHead, h.rep.head, h.rep.tail, h.rep.slots, h.rep.pushed,
    h.rep.released⟩, h.inv.seeTail h.inv.seenTail.2 (Nat.le_refl _)⟩

/-- A step of the producer. -/
theorem View.produce (h : View start s γ r) (ht : t = .producer) (hg : g'.isOf .producer)
    (hcopied : s'.copied = s.copied) (hrep : Rep start s' r') (hinv : r'.Inv c.size)
    (hk : Knows c start r' g') (hhead : r'.head = r.head) (htail : r'.cachedTail = r.cachedTail)
    (hlog : r.log <+: r'.log) : View start s' (upd γ t g') r' := by
  subst ht
  have hcons : upd γ .producer g' .consumer = γ .consumer := upd_ne _ _ nofun
  refine ⟨hrep, hinv, fun u => ?_, ?_, fun u => ?_⟩
  · cases u with
    | producer => rwa [upd_self]
    | consumer =>
      rw [hcons]
      exact (h.knows .consumer).produced (h.sides _) h.inv hhead htail hlog
  · obtain ⟨l, hl⟩ := hlog
    have hgot := h.got_le
    have hlen := h.inv.length
    have hseen := h.inv.seenTail.2
    rw [hcopied, hcons, hhead, ← hl, List.take_append_of_le_length (by omega)]
    exact h.copied
  · cases u with
    | producer => rwa [upd_self]
    | consumer =>
      rw [hcons]
      exact h.sides _

/-- A step of the consumer. -/
theorem View.consume (h : View start s γ r) (ht : t = .consumer) (hg : g'.isOf .consumer)
    (hcopied : s'.copied = r'.log.take (r'.head + g'.got)) (hrep : Rep start s' r')
    (hinv : r'.Inv c.size) (hk : Knows c start r' g') (htail : r'.tail = r.tail)
    (hhead : r'.cachedHead = r.cachedHead) (hslot : r'.slot = r.slot) :
    View start s' (upd γ t g') r' := by
  subst ht
  have hprod : upd γ .consumer g' .producer = γ .producer := upd_ne _ _ nofun
  refine ⟨hrep, hinv, fun u => ?_, ?_, fun u => ?_⟩
  · cases u with
    | consumer => rwa [upd_self]
    | producer =>
      rw [hprod]
      exact (h.knows .producer).consumed (h.sides _) htail hhead hslot
  · rw [upd_self]
    exact hcopied
  · cases u with
    | consumer => rwa [upd_self]
    | producer =>
      rw [hprod]
      exact h.sides _

/-- A step that leaves the ring alone. -/
theorem View.same (h : View start s γ r) (hg : g'.isOf t) (hgot : g'.got = (γ t).got)
    (hk : Knows c start r g') : View start s (upd γ t g') r := by
  cases t with
  | producer =>
    exact h.produce rfl hg rfl h.rep h.inv hk rfl rfl (List.prefix_refl _)
  | consumer =>
    refine h.consume rfl hg ?_ h.rep h.inv hk rfl rfl rfl
    rw [hgot]
    exact h.copied

/-- The items not yet copied are in their slots, and the slot a push is about
to write is none of these. -/
theorem View.slots (h : View start s γ r) {p : Nat} (hp : s.copied.length ≤ p)
    (hlt : p < s.pushed.length) :
    s.pushed[p]? = some (s.ring.slots (slotOf c.log (wrap start p))) ∧
      ∀ {i : Fin (2 ^ c.log)} {v : T} {g' : Place T}, Move (γ t) (.slotStore i v : Act T c) () g' →
        slotOf c.log (wrap start p) ≠ i := by
  have hgot := h.got_le
  have hseen := h.inv.seenTail.2
  have hlen := h.inv.length
  rw [h.copied, List.length_take] at hp
  rw [h.rep.pushed] at hlt ⊢
  have hhead : r.head ≤ p := by omega
  refine ⟨?_, fun {i v g'} hm => ?_⟩
  · rw [h.rep.slots p]
    exact h.inv.stored p hhead (by omega)
  · have hk := h.knows t
    generalize γ t = g at hm hk
    cases hm with
    | slotStore v w =>
      obtain ⟨rfl, hroom⟩ := hk
      rw [Ne, slotOf_wrap (Nat.le_of_lt c.fits)]
      exact (h.inv.tail_free hroom hhead (by omega)).symm

/-! ## The bounded queue -/

/-- The bounded queue: a push fails only when it is full, and a pop of more than
nothing returns nothing only when it is empty. -/
def fifo (T : Type) [Inhabited T] (c : Capacity) (start : BitVec 64) : Object (ring T c start) where
  Q := List T
  init := []
  does _ k res q q' :=
    match k, res with
    | .tryPush v, .pushed true => q.length < c.size ∧ q' = q ++ [v]
    | .tryPush _, .pushed false => q.length = c.size ∧ q' = q
    | .popBatch max, .popped out =>
      q = out ++ q' ∧ out.length ≤ max.toNat ∧ (out = [] → max = 0 ∨ q = [])
    | .emptyNow, .empty b => b = q.isEmpty ∧ q' = q
    | _, _ => False

/-- How far the call is at a place. -/
def Place.status (T : Type) [Inhabited T] (c : Capacity) (start : BitVec 64) (s : State T c) :
    Place T → Status (ring T c start)
  | .idle => .idle
  | .asks v | .loaded v _ | .full v _ | .writes v _ | .publishes v _ => .asked (.tryPush v)
  | .pushed ok => .answered (.pushed ok)
  | .pops max | .looks max _ | .stale max _ | .copies max _ _ _ => .asked (.popBatch max)
  | .popped _ out => .answered (.popped out)
  | .checks => .asked .emptyNow
  | .compares t => .answered (.empty (s.ring.head == t))
  | .checked b => .answered (.empty b)

section
variable [Inhabited T]

/-- What a step of `t` does of its call: nothing, or all of it. -/
def Effect (start : BitVec 64) (s s' : State T c) (t : Side) (g g' : Place T) : Prop :=
  g'.status T c start s' = g.status T c start s ∧ s'.held = s.held ∨
    ∃ k res, g.status T c start s = .asked k ∧ (fifo T c start).does t k res s.held s'.held ∧
      g'.status T c start s' = .answered res

/-- Every step of the producer keeps the view, and does nothing or all of a push. -/
theorem step_producer (h : View start s γ r) {a : Act T c} {n : Nat} {res : Resp a}
    (hs : sem .producer a n s = some (s', res)) (hm : Move (γ .producer) a res g') :
    (∃ r', View start s' (upd γ .producer g') r') ∧
      Effect start s s' .producer (γ .producer) g' := by
  have hk := h.knows .producer
  have hside := h.sides .producer
  have hroom := h.inv.room
  have hseen := h.inv.seenHead
  have hheld := h.rep.held_length h.inv
  generalize hg : γ .producer = g at hm hk hside
  cases hm with
  | tailLoad v w =>
    cases hs
    exact ⟨⟨r, h.same hside (by rw [hg]; rfl) h.rep.tail⟩, .inl ⟨rfl, rfl⟩⟩
  | cachedHead v w k =>
    cases hs
    have hfull := full_iff start h.inv (Nat.le_refl _) h.inv.seenHead
    obtain rfl : w = wrap start r.tail := hk
    rw [h.rep.cachedHead]
    by_cases he : r.tail = r.cachedHead + c.size
    · rw [if_pos (hfull.mpr he)]
      exact ⟨⟨r, h.same hside (by rw [hg]; rfl) rfl⟩, .inl ⟨rfl, rfl⟩⟩
    · rw [if_neg (mt hfull.mp he)]
      exact ⟨⟨r, h.same hside (by rw [hg]; rfl) ⟨rfl, by omega⟩⟩, .inl ⟨rfl, rfl⟩⟩
  | headSee v w k =>
    cases hs
    have hfull := full_iff start h.inv h.inv.seenHead (Nat.le_refl _)
    obtain rfl : w = wrap start r.tail := hk
    have hinv := h.inv.seeHead h.inv.seenHead (Nat.le_refl _)
    have hrep : Rep start { s with ring := { s.ring with cachedHead := s.ring.head } }
        (r.seeHead r.head) :=
      ⟨h.rep.tail, h.rep.head, h.rep.head, h.rep.cachedTail, h.rep.slots, h.rep.pushed,
        h.rep.released⟩
    rw [h.rep.head] at hrep ⊢
    by_cases he : r.tail = r.head + c.size
    · rw [if_pos (hfull.mpr he)]
      refine ⟨⟨_, h.produce rfl rfl rfl hrep hinv trivial rfl rfl (List.prefix_refl _)⟩,
        .inr ⟨.tryPush v, .pushed false, rfl, ⟨?_, rfl⟩, rfl⟩⟩
      show s.held.length = c.size
      omega
    · rw [if_neg (mt hfull.mp he)]
      have hlt : r.tail < r.head + c.size := by
        have := hinv.room
        have : (r.seeHead r.head).cachedHead = r.head := rfl
        have : (r.seeHead r.head).tail = r.tail := rfl
        omega
      exact ⟨⟨_, h.produce rfl rfl rfl hrep hinv ⟨rfl, hlt⟩ rfl rfl (List.prefix_refl _)⟩,
        .inl ⟨rfl, rfl⟩⟩
  | slotStore v w =>
    cases hs
    obtain ⟨rfl, hlt⟩ := hk
    have hrep : Rep start
        { s with ring := { s.ring with slots := upd s.ring.slots (slotOf c.log (wrap start r.tail)) v } }
        (r.write c.size r.tail v) := by
      refine ⟨h.rep.tail, h.rep.cachedHead, h.rep.head, h.rep.cachedTail, fun p => ?_,
        h.rep.pushed, h.rep.released⟩
      have hslot : slotOf c.log (wrap start p) = slotOf c.log (wrap start r.tail) ↔
          p % c.size = r.tail % c.size := slotOf_wrap (Nat.le_of_lt c.fits)
      show upd s.ring.slots _ v _ = upd r.slot (r.tail % c.size) v (p % c.size)
      by_cases he : p % c.size = r.tail % c.size
      · rw [hslot.mpr he, he, upd_self, upd_self]
      · rw [upd_ne _ _ he, upd_ne _ _ (mt hslot.mp he)]
        exact h.rep.slots p
    exact ⟨⟨_, h.produce rfl rfl rfl hrep (h.inv.write hlt v) ⟨rfl, hlt, upd_self _ _ _⟩ rfl rfl
      (List.prefix_refl _)⟩, .inl ⟨rfl, rfl⟩⟩
  | tailStore v w =>
    cases hs
    obtain ⟨rfl, hlt, rfl⟩ := hk
    have hinv := h.inv.publish hlt
    have hrep : Rep start
        { s with ring := { s.ring with tail := wrap start r.tail + 1 },
                 pushed := s.pushed ++ [r.slot (r.tail % c.size)] }
        (r.publish (r.slot (r.tail % c.size))) := by
      refine ⟨wrap_add start r.tail 1, h.rep.cachedHead, h.rep.head, h.rep.cachedTail, h.rep.slots,
        ?_, h.rep.released⟩
      rw [h.rep.pushed]
      rfl
    refine ⟨⟨_, h.produce rfl rfl rfl hrep hinv trivial rfl rfl ⟨_, rfl⟩⟩,
      .inr ⟨.tryPush _, .pushed true, rfl, ⟨?_, ?_⟩, rfl⟩⟩
    · have hsize := c.size_pos
      show s.held.length < c.size
      omega
    · have hle : r.head ≤ r.log.length := by
        rw [h.inv.length]
        exact h.inv.head_le_tail
      rw [hrep.held, h.rep.held]
      exact List.drop_append_of_le_length hle
  | _ => cases hside

/-- Every step of the consumer keeps the view, and does nothing or all of its call. -/
theorem step_consumer (h : View start s γ r) {a : Act T c} {n : Nat} {res : Resp a}
    (hs : sem .consumer a n s = some (s', res)) (hm : Move (γ .consumer) a res g') :
    (∃ r', View start s' (upd γ .consumer g') r') ∧
      Effect start s s' .consumer (γ .consumer) g' := by
  have hk := h.knows .consumer
  have hside := h.sides .consumer
  have hseen := h.inv.seenTail
  have hheld := h.rep.held
  have hcopied := h.copied
  generalize hg : γ .consumer = g at hm hk hside hcopied
  cases hm with
  | headLoad max k =>
    cases hs
    exact ⟨⟨r, h.same hside (by rw [hg]; rfl) h.rep.head⟩, .inl ⟨rfl, rfl⟩⟩
  | cachedTail max k w =>
    cases hs
    have hempty := empty_iff start h.inv (Nat.le_refl _) h.inv.seenTail.2
    obtain rfl : k = wrap start r.head := hk
    rw [h.rep.cachedTail]
    by_cases he : r.head = r.cachedTail
    · rw [if_pos (hempty.mpr he)]
      exact ⟨⟨r, h.same hside (by rw [hg]; rfl) rfl⟩, .inl ⟨rfl, rfl⟩⟩
    · rw [if_neg (mt hempty.mp he)]
      obtain ⟨h1, h2, h3⟩ := batch_toNat start max h.inv (by omega) hseen.2
      refine ⟨⟨r, h.same rfl (by rw [hg]; rfl) ⟨rfl, h1, Nat.zero_le _, ?_, h2, h3⟩⟩, .inl ⟨rfl, rfl⟩⟩
      rfl
  | tailSee max k w =>
    cases hs
    have hempty := empty_iff start h.inv h.inv.seenTail.2 (Nat.le_refl _)
    obtain rfl : k = wrap start r.head := hk
    obtain ⟨hrep, hinv⟩ := h.see_tail
    rw [h.rep.tail] at hrep ⊢
    by_cases he : r.head = r.tail
    · rw [if_pos (hempty.mpr he)]
      refine ⟨⟨r.seeTail r.tail, h.consume rfl rfl hcopied hrep hinv trivial rfl rfl rfl⟩,
        .inr ⟨.popBatch max, .popped [], rfl, ⟨rfl, Nat.zero_le _, fun _ => .inr ?_⟩, rfl⟩⟩
      rw [hheld, List.drop_eq_nil_iff, h.inv.length]
      omega
    · rw [if_neg (mt hempty.mp he)]
      obtain ⟨h1, h2, h3⟩ := batch_toNat start max h.inv (by omega)
        (Nat.le_refl _)
      refine ⟨⟨r.seeTail r.tail, h.consume rfl rfl hcopied hrep hinv
        ⟨rfl, h1, Nat.zero_le _, ?_, h2, h3⟩ rfl rfl rfl⟩, .inl ⟨rfl, rfl⟩⟩
      rfl
  | slotLoad max k m out v hlt =>
    obtain ⟨hk1, h2, h3, h4, h5, h6⟩ := hk
    subst hk1
    obtain ⟨hslot, hlog⟩ := h.next_copy hg hlt
    cases hs
    have hout : out ++ [r.slot ((r.head + out.length) % c.size)] =
        (r.log.drop r.head).take (out.length + 1) := by
      rw [List.take_add_one, ← h4, List.getElem?_drop, hlog]
      rfl
    have hrep : Rep start { s with copied := s.copied ++ [s.ring.slots (slotOf c.log
        (wrap start r.head + BitVec.ofNat 64 out.length))] } r :=
      ⟨h.rep.tail, h.rep.cachedHead, h.rep.head, h.rep.cachedTail, h.rep.slots, h.rep.pushed,
        h.rep.released⟩
    refine ⟨⟨r, h.consume rfl hside ?_ hrep h.inv ⟨rfl, h2, ?_, ?_, h5, h6⟩ rfl rfl rfl⟩,
      .inl ⟨rfl, rfl⟩⟩
    · rw [hslot]
      show s.copied ++ _ = r.log.take (r.head + (out ++ _).length)
      rw [hcopied, List.length_append, List.length_singleton, ← Nat.add_assoc, List.take_add_one,
        hlog]
      rfl
    · rw [List.length_append, List.length_singleton]
      exact hlt
    · rw [hslot, List.length_append, List.length_singleton]
      exact hout
  | headStore max k m out hlen =>
    cases hs
    obtain ⟨hk1, h2, -, h4, h5, h6⟩ := hk
    subst hk1
    have hcopied : s.copied = r.log.take (r.head + m.toNat) := by
      rw [← hlen]
      exact hcopied
    have hinv : (r.take (r.head + m.toNat)).Inv c.size :=
      h.inv.take (Nat.le_add_right _ _) h2
    have hrep : Rep start
        { s with ring := { s.ring with head := wrap start r.head + m }, released := s.copied.length }
        (r.take (r.head + m.toNat)) := by
      refine ⟨h.rep.tail, h.rep.cachedHead, wrap_add_word _ _ _, h.rep.cachedTail, h.rep.slots,
        h.rep.pushed, ?_⟩
      show s.copied.length = _
      rw [hcopied, List.length_take, h.inv.length]
      exact Nat.min_eq_left (by omega)
    refine ⟨⟨_, h.consume rfl rfl hcopied hrep hinv trivial rfl rfl rfl⟩,
      .inr ⟨.popBatch max, .popped out, rfl, ⟨?_, by omega, fun he => .inl (h6 ?_)⟩, rfl⟩⟩
    · rw [hrep.held, hheld, h4, hlen]
      show r.log.drop r.head = _ ++ r.log.drop (r.head + m.toNat)
      rw [← List.drop_drop, List.take_append_drop]
    · rw [← hlen, he]
      rfl
  | seesTail w =>
    cases hs
    obtain ⟨hrep, hinv⟩ := h.see_tail
    have hempty := empty_iff start h.inv h.inv.seenTail.2 (Nat.le_refl _)
    refine ⟨⟨r.seeTail r.tail, h.consume rfl rfl hcopied hrep hinv h.rep.tail rfl rfl rfl⟩,
      .inr ⟨.emptyNow, .empty (s.ring.head == s.ring.tail), rfl, ⟨?_, rfl⟩, rfl⟩⟩
    rw [Bool.eq_iff_iff, beq_iff_eq, List.isEmpty_iff, h.rep.head, h.rep.tail, hempty, hheld,
      List.drop_eq_nil_iff, h.inv.length]
    omega
  | compares w k =>
    cases hs
    exact ⟨⟨r, h.same hside (by rw [hg]; rfl) trivial⟩, .inl ⟨rfl, rfl⟩⟩
  | _ => cases hside

theorem view_step (h : View start s γ r) {a : Act T c} {n : Nat} {res : Resp a}
    (hs : sem t a n s = some (s', res)) (hm : Move (γ t) a res g') :
    (∃ r', View start s' (upd γ t g') r') ∧ Effect start s s' t (γ t) g' := by
  cases t with
  | producer => exact step_producer h hs hm
  | consumer => exact step_consumer h hs hm

theorem view_keeps :
    (flow T c start).Keeps (fun _ _ _ => True) fun s γ => ∃ r, View start s γ r where
  init := by
    have hz := (wrap_zero start).symm
    exact ⟨.init default, ⟨hz, hz, hz, hz, fun _ => rfl, rfl, rfl⟩, Spsc.Ring.init_inv _ _,
      fun _ => trivial, rfl, fun _ => trivial⟩
  begin := by
    rintro s γ - ⟨r, h⟩ t k hi he
    have hplace : (startPlace k : Place T).isOf t ∧ (startPlace k : Place T).got = 0 ∧
        Knows c start r (startPlace k) := by
      cases t <;> cases k <;> first | exact ⟨rfl, rfl, trivial⟩ | cases he
    obtain ⟨hside, hgot, hk⟩ := hplace
    have hidle : (γ t : Place T).got = 0 := by rw [show γ t = .idle from hi]; rfl
    exact ⟨r, h.same hside (hgot.trans hidle.symm) hk⟩
  move := fun _ ⟨_, h⟩ _ _ n _ _ _ _ hs hm => (view_step (n := n) h hs hm).1
  finish := by
    rintro s γ - ⟨r, h⟩ t k res he
    have hgot : (γ t).got = 0 := by
      cases k <;> (obtain ⟨_, -, hg⟩ := he; rw [hg]; rfl)
    exact ⟨r, h.same trivial hgot.symm trivial⟩

/-! ## Refinement -/

theorem status_congr (g : Place T) (h : s'.ring.head = s.ring.head) :
    g.status T c start s' = g.status T c start s := by
  cases g with
  | compares w =>
    unfold Place.status
    rw [h]
  | _ => rfl

/-- The steps of one side leave the other's call alone. -/
theorem status_other (h : View start s γ r) {a : Act T c} {n : Nat} {res : Resp a}
    (hs : sem t a n s = some (s', res)) (hm : Move (γ t) a res g') {u : Side} (hu : u ≠ t) :
    (γ u).status T c start s' = (γ u).status T c start s := by
  cases t with
  | producer =>
    have hside := h.sides .producer
    generalize γ .producer = g at hm hside
    refine status_congr _ ?_
    cases hm <;> first | (cases hs; rfl) | cases hside
  | consumer =>
    have hside := h.sides u
    cases u with
    | consumer => exact absurd rfl hu
    | producer =>
      generalize γ .producer = g at hside
      cases g <;> first | rfl | cases hside

theorem status_start (k : Call T) (s : State T c) :
    (startPlace k).status T c start s = .asked k := by
  cases k <;> rfl

theorem status_end {k : Call T} {res : Result T} (h : endPlace k res g) (s : State T c) :
    g.status T c start s = .answered res := by
  cases k <;> (obtain ⟨_, rfl, rfl⟩ := h; rfl)

theorem simulates : (flow T c start).Simulates (fun _ _ _ => True) (fifo T c start)
    fun s γ q st => q = State.held s ∧ ∀ u, st u = Place.status T c start s (γ u) where
  init := ⟨rfl, fun _ => rfl⟩
  begin := by
    rintro s γ q st - ⟨hq, hst⟩ t k hi -
    refine ⟨by rw [hst, hi]; rfl, hq, fun u => ?_⟩
    by_cases hu : u = t
    · subst hu
      rw [upd_self, upd_self]
      exact (status_start k s).symm
    · rw [upd_ne _ _ hu, upd_ne _ _ hu]
      exact hst u
  move := by
    rintro s γ q st hr ⟨rfl, hst⟩ t a n s' res g - hs hm
    obtain ⟨r, h⟩ := view_keeps.reach hr
    have hother : ∀ u, u ≠ t → st u = Place.status T c start s' (γ u) := fun u hu =>
      (hst u).trans (status_other (n := n) h hs hm hu).symm
    rcases (view_step (n := n) h hs hm).2 with ⟨hsame, hheld⟩ | ⟨k, res, hask, hdo, hans⟩
    · refine .inl ⟨hheld.symm, fun u => ?_⟩
      by_cases hu : u = t
      · subst hu
        rw [upd_self, hst, ← hsame]
      · rw [upd_ne _ _ hu]
        exact hother u hu
    · refine .inr ⟨k, res, s'.held, (hst t).trans hask, hdo, rfl, fun u => ?_⟩
      by_cases hu : u = t
      · subst hu
        rw [upd_self, upd_self, hans]
      · rw [upd_ne _ _ hu, upd_ne _ _ hu]
        exact hother u hu
  finish := by
    rintro s γ q st - ⟨hq, hst⟩ t k res he
    refine ⟨(hst t).trans (status_end he s), hq, fun u => ?_⟩
    by_cases hu : u = t
    · subst hu
      rw [upd_self, upd_self]
      rfl
    · rw [upd_ne _ _ hu, upd_ne _ _ hu]
      exact hst u

/-! ## Instants -/

theorem Effect.does {k : Call T} {res : Result T} (h : Effect start s s' t g g')
    (hg : g.status T c start s = .asked k) (hg' : g'.status T c start s' = .answered res) :
    (fifo T c start).does t k res s.held s'.held := by
  rcases h with ⟨hsame, -⟩ | ⟨k', res', hask, hdo, hans⟩
  · rw [hg, hg'] at hsame
    cases hsame
  · rw [hg] at hask
    rw [hg'] at hans
    cases hask
    cases hans
    exact hdo

theorem Move.asked_push (start : BitVec 64) (s : State T c) {a : Act T c} {res : Resp a}
    (hm : Move g a res g') {ok : Bool}
    (hg : g' = .pushed ok) : ∃ v, g.status T c start s = .asked (.tryPush v) := by
  cases hm with
  | headSee v | tailStore v => exact ⟨v, rfl⟩
  | cachedHead | cachedTail | tailSee => split at hg <;> cases hg
  | _ => cases hg

theorem Move.asked_pop (start : BitVec 64) (s : State T c) {a : Act T c} {res : Resp a}
    (hm : Move g a res g') {max : BitVec 64} {out : List T} (hg : g' = .popped max out) : g.status T c start s = .asked (.popBatch max) := by
  cases hm with
  | headStore => cases hg; rfl
  | tailSee => split at hg <;> cases hg; rfl
  | cachedHead | cachedTail | headSee => split at hg <;> cases hg
  | _ => cases hg

theorem full_until : (flow T c start).Until (fun _ _ _ => True) .producer
    (fun s => s.held.length = c.size) fun _ g => g ≠ .pushed false where
  idle _ := nofun
  begin s k := by cases k <;> nofun
  others _ _ _ h := .inl h
  move := by
    rintro s γ hr a n s' res g - hs hm -
    obtain ⟨r, h⟩ := view_keeps.reach hr
    by_cases hg : g = .pushed false
    · obtain ⟨v, hv⟩ := hm.asked_push start s hg
      have hdo := (view_step (n := n) h hs hm).2.does hv (by rw [hg]; rfl)
      exact .inr (.inl hdo.1)
    · exact .inl hg

theorem empty_until : (flow T c start).Until (fun _ _ _ => True) .consumer
    (fun s => s.held = []) fun _ g => ∀ max, g = .popped max [] → max = 0 where
  idle _ := nofun
  begin s k := by cases k <;> nofun
  others _ _ _ h := .inl h
  move := by
    rintro s γ hr a n s' res g - hs hm -
    obtain ⟨r, h⟩ := view_keeps.reach hr
    by_cases hg : ∃ max, g = .popped max []
    · obtain ⟨max, hg⟩ := hg
      have hdo := (view_step (n := n) h hs hm).2.does (hm.asked_pop start s hg)
        (by rw [hg]; rfl)
      rcases hdo.2.2 rfl with hz | he
      · left
        intro max' hg'
        rw [hg] at hg'
        cases hg'
        exact hz
      · exact .inr (.inl he)
    · exact .inl fun max he => absurd ⟨max, he⟩ hg

/-- A push that is about to fail has seen the ring full. -/
theorem full_since {x : System.Config (ring T c start)}
    {ls : List (System.Label (ring T c start))}
    (hx : (ring T c start).lts.Run (ring T c start).start ls x) {v : T} (h : x.thread .producer = .run (.tryPush v) (.ret (.pushed false))) :
    System.Since (Y := ring T c start) .producer (fun s => s.held.length = c.size) ls x := by
  obtain ⟨γ, -, hst, hd⟩ := follows.since full_until (System.run_meets hx)
  refine hd.resolve_left fun hne => ?_
  have hp := hst .producer
  rw [h] at hp
  obtain ⟨ok, hres, hg⟩ : endPlace (.tryPush v) (.pushed false) (γ .producer : Place T) := hp
  cases hres
  exact hne hg

/-- A pop that is about to return nothing has seen the ring empty. -/
theorem empty_since {x : System.Config (ring T c start)}
    {ls : List (System.Label (ring T c start))}
    (hx : (ring T c start).lts.Run (ring T c start).start ls x) {max : BitVec 64} (hmax : max ≠ 0)
    (h : x.thread .consumer = .run (.popBatch max) (.ret (.popped []))) :
    System.Since (Y := ring T c start) .consumer (fun s => s.held = []) ls x := by
  obtain ⟨γ, -, hst, hd⟩ := follows.since empty_until (System.run_meets hx)
  refine hd.resolve_left fun hz => ?_
  have hp := hst .consumer
  rw [h] at hp
  obtain ⟨out, hres, hg⟩ : endPlace (.popBatch max) (.popped []) (γ .consumer : Place T) := hp
  cases hres
  exact hmax (hz max hg)

/-- **The ring is a bounded queue**, whatever the size, whatever word its
indices begin at, and however the loads and stores of the two sides are
interleaved. What a client sees is what it may see of a bounded queue; the
items copied out are a prefix of those pushed; the items not yet copied are in
their slots, and no such slot is written; at most `size` items are held. In every run
a push fails only if the ring was full at an instant of the call, and a pop of
more than nothing returns nothing only if it was empty at one. -/
theorem spsc_refines_fifo {es : List (Event (ring T c start))} {x : System.Config (ring T c start)}
    (hx : System.Trace es x) :
    (∃ st, (fifo T c start).Trace es x.state.held st) ∧
      x.state.copied <+: x.state.pushed ∧
      (∀ p, x.state.copied.length ≤ p → p < x.state.pushed.length →
        x.state.pushed[p]? = some (x.state.ring.slots (slotOf c.log (wrap start p))) ∧
        ∀ t i v, System.AtOp x t (.slotStore i v) → slotOf c.log (wrap start p) ≠ i) ∧
      x.state.held.length ≤ c.size ∧
      ∀ ls, (ring T c start).lts.Run (ring T c start).start ls x →
        (∀ v, x.thread .producer = .run (.tryPush v) (.ret (.pushed false)) →
          System.Since (Y := ring T c start) .producer (fun s => s.held.length = c.size) ls x) ∧
        ∀ max, max ≠ 0 → x.thread .consumer = .run (.popBatch max) (.ret (.popped [])) →
          System.Since (Y := ring T c start) .consumer (fun s => s.held = []) ls x := by
  obtain ⟨γ, q, st, hr, hst, ⟨rfl, -⟩, htrace⟩ := follows.refines simulates hx
  obtain ⟨r, h⟩ := view_keeps.reach hr
  refine ⟨⟨st, htrace⟩, ?_, fun p hp hlt => ⟨(h.slots (t := .producer) hp hlt).1, ?_⟩, ?_,
    fun ls hrun => ⟨fun v hv => full_since hrun hv, fun max hmax hm => empty_since hrun hmax hm⟩⟩
  · rw [h.copied, h.rep.pushed]
    exact List.take_prefix _ _
  · intro t i v hat
    obtain ⟨g', hm⟩ := (hst t).move hat ()
    exact (h.slots hp hlt).2 hm
  · have hroom := h.inv.room
    have hseen := h.inv.seenHead
    rw [h.rep.held_length h.inv]
    omega

end

end

/-! A run of a ring of two slots whose indices begin just below 2^64. -/

abbrev twoSlots : System := ring Nat .two (-1)

/-- `n` operations of `u`. -/
def ops (u : Side) (n : Nat) : List (System.Label twoSlots) := List.replicate n (.step u 0)

/-- Two pushes, and a third that finds the ring full; then both items are
popped, and the next pop finds the ring empty. -/
def fillAndDrain : List (System.Label twoSlots) :=
  .invoke .producer (.tryPush 7) :: ops .producer 5 ++
  .invoke .producer (.tryPush 8) :: ops .producer 5 ++
  .invoke .producer (.tryPush 9) :: ops .producer 3 ++
  .invoke .consumer (.popBatch 5) :: ops .consumer 10 ++
  .invoke .consumer (.popBatch 5) :: ops .consumer 3

/-- Both sides are about to be told that there was nothing for them. -/
def refused (x : System.Config twoSlots) : Bool :=
  (match x.thread .producer with
    | .run (.tryPush 9) (.ret (.pushed false)) => true
    | _ => false) &&
  (match x.thread .consumer with
    | .run (.popBatch 5) (.ret (.popped [])) => true
    | _ => false)

theorem refused_threads {x : System.Config twoSlots} (h : refused x = true) :
    x.thread .producer = .run (.tryPush 9) (.ret (.pushed false)) ∧
      x.thread .consumer = .run (.popBatch 5) (.ret (.popped [])) := by
  simp only [refused, Bool.and_eq_true] at h
  obtain ⟨hp, hc⟩ := h
  constructor
  · split at hp
    · assumption
    · cases hp
  · split at hc
    · assumption
    · cases hc

theorem spsc_refines_fifo_wrapped : ∃ es ls, ∃ x : System.Config twoSlots, System.Trace es x ∧
    twoSlots.lts.Run twoSlots.start ls x ∧ x.state.pushed = [7, 8] ∧ x.state.copied <+: [7, 8] ∧
    System.Since (Y := twoSlots) .producer (fun s => s.held.length = 2) ls x ∧
    System.Since (Y := twoSlots) .consumer (fun s => s.held = []) ls x := by
  obtain ⟨x, hx, hp⟩ := System.reachable_of_test fillAndDrain
    (fun x => refused x && decide (x.state.pushed = [7, 8])) (by decide +kernel)
  rw [Bool.and_eq_true, decide_eq_true_eq] at hp
  obtain ⟨hr, hpush⟩ := hp
  obtain ⟨hprod, hcons⟩ := refused_threads hr
  obtain ⟨es, htrace⟩ := hx.trace
  obtain ⟨_, ls, rfl, hrun⟩ := hx
  obtain ⟨-, hcopied, -, -, hsince⟩ := spsc_refines_fifo htrace
  obtain ⟨hfull, hempty⟩ := hsince ls hrun
  rw [hpush] at hcopied
  exact ⟨es, ls, x, htrace, hrun, hpush, hcopied, hfull 9 hprod, hempty 5 (by decide) hcons⟩

end Katas.Weir.SpscRing
