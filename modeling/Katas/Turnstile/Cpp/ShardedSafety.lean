import Katas.Turnstile.Cpp.ShardedInv

/-!
# What the sharded queue delivers

Every accepted event once, in push order, to its ring's consumer; none whose
push was refused; no slot overwritten before it was read; and `drained` only
when nothing is left and nothing can come.
-/
namespace Katas.Turnstile.Sharded
open Katas.Conc

section
variable {V Tid : Type} [Inhabited V] [Inhabited Tid] [DecidableEq Tid] {g : Shape}

/-- What producer `p` published, in order. -/
def State.accepted (s : State V Tid) (p : Nat) : List (Item V Tid) := (s.shard p).log

variable {s : State V Tid} {γ : Tid → Place V Tid}

section
omit [Inhabited V] [Inhabited Tid] [DecidableEq Tid]

/-- What a consumer was given is a beginning of what it took. -/
theorem ShardInv.delivered_prefix (h : ShardInv g s γ) (c : Nat) : s.delivered c <+: s.taken c := by
  by_cases hx : ∃ t e, γ t = .took c e
  · obtain ⟨t, e, hx⟩ := hx
    rw [h.pops.took t _ e hx]; exact List.prefix_append _ _
  · exact h.pops.rest c (fun t e hte => hx ⟨t, e, hte⟩) ▸ List.prefix_refl _

/-- Consumer `p % C` has been given a beginning of what producer `p`
published, each event once, in the order of the pushes. -/
theorem ShardInv.in_order (h : ShardInv g s γ) (p : Nat) :
    (s.delivered (p % g.C)).filter (fun e => e.producer = p) <+: s.accepted p ∧
      (s.accepted p).Sublist (s.begun p) ∧ (s.accepted p).Nodup := by
  refine ⟨?_, h.records.published p, (h.records.published p).nodup (h.records.nodup p)⟩
  exact ((h.delivered_prefix _).filter _).trans (h.pops.taken p ▸ List.take_prefix _ _)

theorem ShardInv.mem_taken (h : ShardInv g s γ) {c : Nat} {e : Item V Tid} (he : e ∈ s.taken c) :
    e.producer % g.C = c ∧ e ∈ s.accepted e.producer := by
  have hc := h.pops.mine c e he
  refine ⟨hc, ?_⟩
  have htake := h.pops.taken e.producer
  rw [hc] at htake
  have hmem : e ∈ (s.taken c).filter (fun e' => e'.producer = e.producer) := by simp [he]
  rw [htake] at hmem
  exact List.mem_of_mem_take hmem

/-- Between its calls a consumer has been given all it took. -/
theorem ShardInv.idle_taken (h : ShardInv g s γ) {c : Nat} (hc : s.busy (.consumer c) = none) :
    s.taken c = s.delivered c := by
  refine h.pops.rest c fun t e hx => ?_
  rw [h.busy t (.consumer c) (by rw [hx]; rfl)] at hc
  cases hc

end

/-- A ring that is shut gets no further event. -/
theorem shut_final {x y : System.Config (queue V Tid g)} {ls : List (System.Label (queue V Tid g))}
    (hx : (queue V Tid g).Reachable x) (hr : (queue V Tid g).lts.Run x ls y) {p : Nat}
    (hc : (x.state.shard p).closed = true) : y.state.accepted p = x.state.accepted p := by
  have hlift := LTS.Reachable.lift (T := (queue V Tid g).lts)
    (R := fun x y => (x.state.shard p).closed = true →
      (y.state.shard p).closed = true ∧ y.state.accepted p = x.state.accepted p)
    (fun _ h => ⟨h, rfl⟩)
    (fun h1 h2 hc => ⟨(h2 (h1 hc).1).1, ((h2 (h1 hc).1).2).trans (h1 hc).2⟩) ?_ hx hr
  · exact (hlift hc).2
  · intro x l y hx hs hc
    obtain ⟨γ, -, hst⟩ := follows.stands (System.Reachable.reachableIf hx)
    obtain ⟨γ', o, hstep, -, -⟩ := follows.next hst (System.meets_true x l) hs
    generalize x.state = s at hc hstep ⊢
    generalize y.state = s' at hstep ⊢
    cases hstep with
    | rest => exact ⟨hc, rfl⟩
    | begin t k _ _ =>
      have := (begin_fields (t := t) (s := s) k).1
      exact ⟨by rw [this]; exact hc, by rw [State.accepted, this]; rfl⟩
    | finish t k r _ =>
      have := (finish_fields (t := t) (s := s) k r).1
      exact ⟨by rw [this]; exact hc, by rw [State.accepted, this]; rfl⟩
    | move t a n _ hsem hmove =>
      obtain ⟨h1, -, h3⟩ := closed_step hsem hmove hc
      exact ⟨h1, h3⟩

/-! ## The slots -/

section
omit [Inhabited V] [Inhabited Tid] [DecidableEq Tid]

theorem writes_at {x : Place V Tid} {p pos : Nat} {v : V}
    (h : ∃ y, Move g x (.slotWrite p pos v) () y) : x = .room p v pos := by
  obtain ⟨y, hm⟩ := h
  cases hm
  rfl

theorem reads_at {x y : Place V Tid} {p pos : Nat} {e : Item V Tid}
    (hm : Move g x (.slotRead p pos) e y) : ∃ c i, p = g.ring_of c i ∧ x = .ready c i pos := by
  cases hm
  exact ⟨_, _, rfl, rfl⟩

/-- Where a slot is written: every earlier position of that slot was taken. -/
theorem ShardInv.write_free (h : ShardInv g s γ) {t : Tid} {p pos : Nat} {v : V}
    (hx : γ t = .room p v pos) :
    pos = (s.accepted p).length ∧ (∀ k, k < pos → k % g.ring.n = pos % g.ring.n →
      k < (s.shard p).head) ∧
      ∀ k, (s.shard p).head ≤ k → k < (s.shard p).tail → k % g.ring.n ≠ pos % g.ring.n := by
  have hat := h.at_ t
  rw [hx] at hat
  obtain ⟨-, rfl, hroom⟩ := hat
  have hI := h.rings p
  refine ⟨hI.length.symm, fun k hk he => ?_, fun k h1 h2 => (hI.tail_free hroom h1 h2).symm⟩
  by_contra hle
  exact hI.tail_free hroom (Nat.le_of_not_lt hle) hk he.symm

end

/-- **The sharded queue.** In every reachable state: consumer `p % C` has been
given a beginning of producer `p`'s accepted events, each once, in the order
of the pushes, and nothing else; what it has not been given is in the ring or
in its hands; a push that returned ok was accepted, and one that did not is
never delivered; a slot is written only when all its earlier positions were
taken, and read while it holds what was published there; and a consumer that
has returned `drained` has taken everything accepted on its rings, to which
no further push is accepted. -/
theorem sharded_exactly_once {x : System.Config (queue V Tid g)}
    (hx : (queue V Tid g).Reachable x) :
    (∀ p, (x.state.delivered (p % g.C)).filter (fun e => e.producer = p) <+: x.state.accepted p ∧
      (x.state.accepted p).Sublist (x.state.begun p) ∧ (x.state.accepted p).Nodup) ∧
    (∀ c e, e ∈ x.state.delivered c →
      e.producer % g.C = c ∧ e ∈ x.state.accepted e.producer) ∧
    (∀ p, x.state.busy (.consumer (p % g.C)) = none →
      (x.state.delivered (p % g.C)).filter (fun e => e.producer = p) =
          (x.state.accepted p).take (x.state.shard p).head ∧
        ∀ k, (x.state.shard p).head ≤ k → k < (x.state.accepted p).length →
          (x.state.accepted p)[k]? = some (x.state.item g p k)) ∧
    (∀ id, x.state.results id = some (.push .ok) → ∃ p e, e ∈ x.state.accepted p ∧ e.call = id) ∧
    (∀ id r, x.state.results id = some (.push r) → r ≠ .ok →
      ∀ c e, e ∈ x.state.delivered c → e.call ≠ id) ∧
    (∀ t p pos v, System.AtOp x t (.slotWrite p pos v) → pos = (x.state.accepted p).length ∧
      (∀ k, k < pos → k % g.ring.n = pos % g.ring.n → k < (x.state.shard p).head) ∧
      ∀ u k, System.AtOp x u (.slotRead p k) → k % g.ring.n ≠ pos % g.ring.n) ∧
    (∀ t p pos, System.AtOp x t (.slotRead p pos) →
      (x.state.accepted p)[pos]? = some (x.state.item g p pos)) ∧
    ∀ c, x.state.gone c = true → ∀ p, p < g.P → p % g.C = c →
      (x.state.shard p).closed = true ∧
      (x.state.taken c).filter (fun e => e.producer = p) = x.state.accepted p ∧
      ∀ ls y, (queue V Tid g).lts.Run x ls y → y.state.accepted p = x.state.accepted p := by
  obtain ⟨γ, hr, -, hat⟩ := follows.places (System.Reachable.reachableIf hx)
  have h := (shard_keeps g _).reach hr
  have hread : ∀ t p k, System.AtOp x t (.slotRead p k) →
      ∃ c i, p = g.ring_of c i ∧ γ t = .ready c i k := by
    intro t p k ha
    obtain ⟨y, hm⟩ := hat t _ ha default
    exact reads_at hm
  have hready : ∀ t p k, System.AtOp x t (.slotRead p k) →
      k = (x.state.shard p).head ∧ k < (x.state.shard p).tail := by
    intro t p k ha
    obtain ⟨c, i, rfl, hx⟩ := hread t p k ha
    have hat := h.at_ t
    rw [hx] at hat
    exact ⟨hat.1.2.2, Nat.lt_of_lt_of_le hat.2 (h.rings _).seenTail.2⟩
  refine ⟨h.in_order, fun c e he => ?_, fun p hp => ⟨?_, fun k h1 h2 => ?_⟩, h.records.ok,
    fun id r hid hr c e he => ?_, fun t p pos v ha => ?_, fun t p pos ha => ?_, fun c hc p hp hpc => ?_⟩
  · exact h.mem_taken ((h.delivered_prefix c).subset he)
  · rw [← h.idle_taken hp]; exact h.pops.taken p
  · exact (h.rings p).stored k h1 (by rw [← (h.rings p).length]; exact h2)
  · exact h.records.refused id r hid hr _ e (h.mem_taken ((h.delivered_prefix c).subset he)).2
  · obtain ⟨h1, h2, h3⟩ := h.write_free (writes_at (hat t _ ha ()))
    refine ⟨h1, h2, fun u k hu => ?_⟩
    obtain ⟨hk1, hk2⟩ := hready u p k hu
    exact h3 k (Nat.le_of_eq hk1.symm) hk2
  · obtain ⟨hk1, hk2⟩ := hready t p pos ha
    exact (h.rings p).stored pos (Nat.le_of_eq hk1.symm) hk2
  · have hshut : Shut x.state p := by
      have := h.pops.gone c hc (p / g.C) (owned_lt hp)
      rwa [← hpc, ring_of_div] at this
    refine ⟨hshut.1, ?_, fun ls y hy => shut_final hx hy hshut.1⟩
    rw [← hpc, h.pops.taken p, hshut.2, ← (h.rings p).length, List.take_length]
    rfl

end
/-! Two rings of two slots, one consumer. -/

def tiny : Shape := ⟨2, 1, .two, Nat.two_pos, Nat.one_pos, Nat.one_dvd 2⟩

abbrev tinyQueue : System := queue Nat (Fin 3) tiny

/-- `n` steps of `t`, no timer fired. -/
def ops (t : Fin 3) (n : Nat) : List (System.Label tinyQueue) := List.replicate n (.step t 0)

/-- Two events on two rings, a close, a refused push, and a drained pop. -/
def drainedRun : List (System.Label tinyQueue) :=
  .invoke (0 : Fin 3) (.push 0 7) :: ops 0 7 ++ .invoke (1 : Fin 3) (.try_push 1 8) :: ops 1 6 ++
  .invoke (2 : Fin 3) (.pop 0) :: ops 2 11 ++ .invoke (2 : Fin 3) (.pop 0) :: ops 2 11 ++
  .invoke (0 : Fin 3) .close :: ops 0 9 ++ .invoke (0 : Fin 3) (.try_push 0 9) :: ops 0 2 ++
  .invoke (2 : Fin 3) (.pop 0) :: ops 2 537

theorem sharded_exactly_once_drained : ∃ x : System.Config tinyQueue, tinyQueue.Reachable x ∧
    x.state.results ((0, 3) : Fin 3 × Nat) = some (.push .closed) ∧
    x.state.accepted 1 = [⟨1, (1, 1), 8⟩] ∧ x.state.gone 0 = true ∧
    (x.state.taken 0).filter (fun e => e.producer = 1) = x.state.accepted 1 ∧
    ∀ c (e : Item Nat (Fin 3)), e ∈ x.state.delivered c → e.call ≠ (0, 3) := by
  obtain ⟨x, hx, hp⟩ := System.reachable_of_test drainedRun
    (fun x => decide (x.state.results ((0, 3) : Fin 3 × Nat) = some (.push .closed) ∧
      x.state.accepted 1 = [⟨1, (1, 1), 8⟩] ∧ x.state.gone 0 = true)) (by decide +kernel)
  obtain ⟨h1, h2, h3⟩ := of_decide_eq_true hp
  obtain ⟨-, -, -, -, hrefused, -, -, hgone⟩ := sharded_exactly_once hx
  exact ⟨x, hx, h1, h2, h3, (hgone 0 h3 1 (by decide) (by decide)).2.1,
    hrefused (0, 3) .closed h1 (by decide)⟩

end Katas.Turnstile.Sharded
