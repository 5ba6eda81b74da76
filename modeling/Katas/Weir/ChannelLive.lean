import Katas.Weir.ChannelDrain
import Katas.Weir.ChannelOwners

/-!
# The channel pipeline hands over what it accepted

How far an event is from the sink, in operations of the consumer: the events
before it in its channel, each worth a pass, and the rest of this pass. Every
operation of the consumer lowers that bound and nothing raises it, so along a
run in which the consumer goes on, or has exited, every accepted event
reaches the sink.
-/
namespace Katas.Weir.Channel
open Katas.Conc

section
variable {V Tid : Type} [DecidableEq Tid] {cfg : Config}

/-- A bound on the rest of a pass, from slot `k` on. -/
def rest (cfg : Config) (k : Nat) : Nat := (cfg.producers - k) * (2 * cfg.batch + 8) + 4

/-- A bound on the rest of the pass, from the consumer's place on. -/
def Place.left (cfg : Config) (s : State V Tid) : Place V → Nat
  | .probe _ i _ => rest cfg i
  | .length _ i _ => rest cfg (i + 1) + 2 * cfg.batch + 7
  | .top _ i _ _ => rest cfg (i + 1) + 2 * (cfg.batch - s.batch.length) + 6
  | .take _ i _ _ => rest cfg (i + 1) + 2 * (cfg.batch - s.batch.length) + 5
  | .full _ i _ => rest cfg (i + 1) + 4
  | .flush _ i _ => rest cfg (i + 1) + 3
  | .adds _ i _ => rest cfg (i + 1) + 2
  | .write _ i _ => rest cfg (i + 1) + 1
  | .flushLast _ _ => 4
  | .addsLast _ _ => 3
  | .writeLast _ _ => 2
  | .select => 1
  | _ => 0

/-- 0 if this pass is still to receive from channel `i`, 1 if not. -/
def Place.later (i : Nat) : Place V → Nat
  | .probe _ j _ | .length _ j _ => if j ≤ i then 0 else 1
  | .top _ j n _ | .take _ j n _ => if j < i ∨ j = i ∧ n = 0 then 0 else 1
  | .full _ j _ | .flush _ j _ | .adds _ j _ | .write _ j _ => if j < i then 0 else 1
  | _ => 1

/-- The event is at most `b` operations of the consumer from the sink. -/
def Within (cfg : Config) (s : State V Tid) (g : Place V) (e : Item V Tid) (b : Nat) : Prop :=
  (e ∈ s.batch ∧ g.left cfg s ≤ b) ∨ ∃ i k, i < cfg.producers ∧ (s.slot i).ch[k]? = some e ∧
    (k + g.later i) * rest cfg 0 + g.left cfg s ≤ b

variable {s s' : State V Tid} {γ : Tid → Place V} {t : Tid} {g g' : Place V} {e : Item V Tid}
  {b : Nat}

theorem rest_step {i : Nat} (hi : i < cfg.producers) :
    rest cfg i = rest cfg (i + 1) + (2 * cfg.batch + 8) := by
  have : cfg.producers - i = (cfg.producers - (i + 1)) + 1 := by omega
  rw [rest, rest, this, Nat.add_one_mul]
  omega

omit [DecidableEq Tid] in
theorem passAt_left (s : State V Tid) (fin : Bool) (i total : Nat) (hi : i ≤ cfg.producers) :
    (passAt cfg fin i total).left cfg s = rest cfg i := by
  unfold passAt
  split
  · rfl
  · have : i = cfg.producers := by omega
    simp [Place.left, rest, this]

theorem passAt_later (fin : Bool) (i total j : Nat) (hj : j < cfg.producers) :
    (passAt cfg fin i total : Place V).later j = if i ≤ j then 0 else 1 := by
  unfold passAt
  split
  · rfl
  · rw [if_neg (by omega)]; rfl

theorem later_le {i : Nat} (h : g.later i = 0 → g'.later i = 0) : g'.later i ≤ g.later i := by
  have hle : g'.later i ≤ 1 := by
    cases g' <;> simp only [Place.later] <;> (try split) <;> omega
  cases hg : g.later i with
  | zero => exact Nat.le_of_eq (h hg)
  | succ k => omega

section
omit [DecidableEq Tid]

theorem Within.aside (h : Within cfg s g e b) (ha : Aside s s') : Within cfg s' g e b := by
  have hleft : g.left cfg s' = g.left cfg s := by cases g <;> simp only [Place.left, ha.batch]
  rcases h with ⟨h1, h2⟩ | ⟨i, k, hi, hk, hb⟩
  · exact .inl ⟨ha.batch ▸ h1, hleft ▸ h2⟩
  · obtain ⟨more, hm⟩ := ha.ch i
    refine .inr ⟨i, k, hi, ?_, hleft ▸ hb⟩
    rw [← hm, List.getElem?_append_left (List.getElem?_eq_some_iff.mp hk).1, hk]

/-- The event stays where it is, and the consumer comes nearer. -/
theorem Within.nearer (h : Within cfg s g e b) (hb : e ∈ s.batch → e ∈ s'.batch)
    (hc : ∀ i, (s'.slot i).ch = (s.slot i).ch) (hl : g'.left cfg s' < g.left cfg s)
    (hv : ∀ i, i < cfg.producers → (s.slot i).ch ≠ [] → g.later i = 0 → g'.later i = 0) :
    ∃ b', b' < b ∧ Within cfg s' g' e b' := by
  rcases h with ⟨h1, h2⟩ | ⟨i, k, hi, hk, hb'⟩
  · exact ⟨_, Nat.lt_of_lt_of_le hl h2, .inl ⟨hb h1, Nat.le_refl _⟩⟩
  · have hne : (s.slot i).ch ≠ [] := by
      intro hnil; rw [hnil] at hk; simp at hk
    refine ⟨_, Nat.lt_of_lt_of_le (Nat.add_lt_add_of_le_of_lt ?_ hl) hb',
      .inr ⟨i, k, hi, by rw [hc, hk], Nat.le_refl _⟩⟩
    exact Nat.mul_le_mul_right _ (Nat.add_le_add_left (later_le (hv i hi hne)) k)

/-- The consumer starts a new pass, and the event is in a channel. -/
theorem Within.newPass (h : Within cfg s g e b) (he : e ∉ s.batch)
    (hc : ∀ i, (s'.slot i).ch = (s.slot i).ch) (hg : 0 < g.left cfg s)
    (hv : ∀ i, g.later i = 1) (fin : Bool) :
    ∃ b', b' < b ∧ Within cfg s' (passAt cfg fin 0 0) e b' := by
  rcases h with ⟨h1, -⟩ | ⟨i, k, hi, hk, hb'⟩
  · exact absurd h1 he
  · refine ⟨_, ?_, .inr ⟨i, k, hi, by rw [hc, hk], Nat.le_refl _⟩⟩
    rw [hv i, Nat.add_one_mul] at hb'
    rw [passAt_later _ _ _ _ hi, if_pos (Nat.zero_le i), passAt_left _ _ _ _ (Nat.zero_le _),
      Nat.add_zero]
    omega

/-- No event is left when the final drain ends. -/
theorem Within.not_clear (h : Within cfg s g e b) (he : e ∉ s.batch) (hc : Clear s cfg.producers) :
    False := by
  rcases h with ⟨h1, -⟩ | ⟨i, k, hi, hk, -⟩
  · exact he h1
  · rw [(hc i hi).1] at hk; simp at hk

theorem Within.passEnd (h : Within cfg s g e b) (s' : State V Tid) (he : e ∉ s.batch)
    (hc : ∀ i, (s'.slot i).ch = (s.slot i).ch) (hg : 1 < g.left cfg s)
    (hv : ∀ i, g.later i = 1) {fin : Bool} {total : Nat}
    (hclear : fin = true → total = 0 → Clear s cfg.producers) :
    ∃ b', b' < b ∧ Within cfg s' (passEnd cfg fin total) e b' := by
  unfold Channel.passEnd
  split
  · exact h.newPass he hc (by omega) hv fin
  · rename_i hn
    cases fin with
    | true => exact (h.not_clear he (hclear rfl (by omega))).elim
    | false =>
      refine h.nearer (fun hb => absurd hb he) hc hg fun i _ _ h0 => ?_
      rw [hv i] at h0; cases h0

/-- The consumer receives from channel `i`. -/
theorem Within.receive {i m total : Nat} {fin : Bool} {x : Item V Tid} {more : List (Item V Tid)}
    (h : Within cfg s (.take fin i m total) e b) (hlen : s.batch.length < cfg.batch)
    (hx : (s.slot i).ch = x :: more) (hb : s'.batch = s.batch ++ [x])
    (hc : ∀ j, (s'.slot j).ch = if j = i then more else (s.slot j).ch) :
    ∃ b', b' < b ∧ Within cfg s' (.top fin i (m + 1) total) e b' := by
  have hleft : (Place.top fin i (m + 1) total : Place V).left cfg s' <
      (Place.take fin i m total : Place V).left cfg s := by
    simp only [Place.left, hb, List.length_append, List.length_singleton]; omega
  rcases h with ⟨h1, h2⟩ | ⟨j, k, hj, hk, hb'⟩
  · exact ⟨_, Nat.lt_of_lt_of_le hleft h2, .inl ⟨hb ▸ List.mem_append_left _ h1, Nat.le_refl _⟩⟩
  · by_cases hji : j = i
    · subst hji
      rw [hx] at hk
      cases k with
      | zero =>
        -- it is the one received
        obtain rfl : x = e := by simpa using hk
        refine ⟨_, Nat.lt_of_lt_of_le hleft (Nat.le_trans (Nat.le_add_left _ _) hb'), .inl ⟨?_,
          Nat.le_refl _⟩⟩
        rw [hb]; exact List.mem_append_right _ (List.mem_singleton.mpr rfl)
      | succ k =>
        refine ⟨_, Nat.lt_of_lt_of_le (Nat.add_lt_add_of_le_of_lt ?_ hleft) hb',
          .inr ⟨j, k, hj, ?_, Nat.le_refl _⟩⟩
        · refine Nat.mul_le_mul_right _ ?_
          simp [Place.later]
        · rw [hc, if_pos rfl]; simpa using hk
    · refine ⟨_, Nat.lt_of_lt_of_le (Nat.add_lt_add_of_le_of_lt ?_ hleft) hb',
        .inr ⟨j, k, hj, by rw [hc, if_neg hji, hk], Nat.le_refl _⟩⟩
      refine Nat.mul_le_mul_right _ (Nat.add_le_add_left (later_le fun h0 => ?_) k)
      simp only [Place.later, ite_eq_left_iff] at h0 ⊢
      omega

end

theorem within_step (hB : 0 < cfg.batch) {a : Act V} {n : Nat} {r : Resp a}
    (ha : consumes a = true) (hs : sem cfg t a n s = some (s', r)) (hm : Move cfg g a r g')
    (hat : At cfg s g) (h : Within cfg s g e b) :
    e ∈ s'.sink ∨ ∃ b', b' < b ∧ Within cfg s' g' e b' := by
  cases hm with
  | free hq => rw [consumes_of_free hq] at ha; cases ha
  | ready hq => rw [consumes_of_readies hq] at ha; cases ha
  | count hq => rw [consumes_of_counts hq] at ha; cases ha
  | inUseLoad fin i total used hi =>
    cases hs
    have hr := rest_step hi
    cases (s.slot i).inUse with
    | true =>
      rw [if_pos rfl]
      refine .inr (h.nearer id (fun _ => rfl) ?_ fun j _ _ h0 => ?_)
      · simp only [Place.left]; omega
      · simp [Place.later] at h0 ⊢; omega
    | false =>
      rw [if_neg Bool.false_ne_true]
      refine .inr (h.nearer id (fun _ => rfl) ?_ fun j _ _ h0 => h0)
      simp only [Place.left]; omega
  | drainLen fin i total m =>
    have hi : i + 1 ≤ cfg.producers := hat.1
    rcases drainLen_cases hs with ⟨hc, rfl, rfl⟩ | ⟨-, hm, rfl⟩
    · rw [if_pos rfl]
      refine .inr (h.nearer id (fun _ => rfl) ?_ fun j hj hne h0 => ?_)
      · rw [passAt_left _ _ _ _ hi]; simp only [Place.left]; omega
      · have hji : j ≠ i := by
          rintro rfl
          exact hne hc
        rw [passAt_later _ _ _ _ hj]
        simp only [Place.later, ite_eq_left_iff] at h0 ⊢
        omega
    · rw [if_neg hm]
      refine .inr (h.nearer id (fun _ => rfl) ?_ fun j _ _ h0 => ?_)
      · simp only [Place.left]; omega
      · simp [Place.later] at h0 ⊢; omega
  | top fin i m total len =>
    cases hs
    obtain ⟨hi, -, hm, -⟩ := hat
    split
    · refine .inr (h.nearer id (fun _ => rfl) ?_ fun j _ _ h0 => h0)
      simp only [Place.left]; omega
    · refine .inr (h.nearer id (fun _ => rfl) ?_ fun j _ _ h0 => ?_)
      · simp only [Place.left]; omega
      · simp [Place.later] at h0 ⊢; omega
  | recv fin i m total x =>
    obtain ⟨hi, hlen, -⟩ := hat
    rcases recv_cases hs with ⟨hc, rfl, rfl⟩ | ⟨x, more, hx, rfl, rfl⟩
    · refine .inr (h.nearer id (fun _ => rfl) ?_ fun j hj hne h0 => ?_)
      · simp only [Place.left, Bool.false_eq_true, if_false]; omega
      · have hji : j ≠ i := by
          rintro rfl
          exact hne hc
        simp only [Place.later, Bool.false_eq_true, if_false, ite_eq_left_iff] at h0 ⊢
        omega
    · refine .inr (h.receive hlen hx rfl fun j => ?_)
      simp only [State.setSlot, upd_apply]
      split <;> rfl
  | full fin i total m =>
    cases hs
    have hi : i + 1 ≤ cfg.producers := hat.1
    split
    · refine .inr (h.nearer id (fun _ => rfl) ?_ fun j _ _ h0 => h0)
      simp only [Place.left]; omega
    · refine .inr (h.nearer id (fun _ => rfl) ?_ fun j hj _ h0 => ?_)
      · rw [passAt_left _ _ _ _ hi]; simp only [Place.left]; omega
      · rw [passAt_later _ _ _ _ hj]; exact h0
  | flush fin i total m =>
    cases hs
    have hi : i + 1 ≤ cfg.producers := hat.1
    split
    · refine .inr (h.nearer id (fun _ => rfl) ?_ fun j hj _ h0 => ?_)
      · rw [passAt_left _ _ _ _ hi]; simp only [Place.left]; omega
      · rw [passAt_later _ _ _ _ hj]; exact h0
    · refine .inr (h.nearer id (fun _ => rfl) ?_ fun j _ _ h0 => h0)
      simp only [Place.left]; omega
  | adds fin i total =>
    cases hs
    refine .inr (h.nearer id (fun _ => rfl) ?_ fun j _ _ h0 => h0)
    simp only [Place.left]; omega
  | write fin i total =>
    cases hs
    have hi : i + 1 ≤ cfg.producers := hat.1
    by_cases he : e ∈ s.batch
    · exact .inl (List.mem_append_right _ he)
    · refine .inr (h.nearer (fun hb => absurd hb he) (fun _ => rfl) ?_ fun j hj _ h0 => ?_)
      · rw [passAt_left _ _ _ _ hi]; simp only [Place.left]; omega
      · rw [passAt_later _ _ _ _ hj]; exact h0
  | flushLast fin total m =>
    cases hs
    split
    · rename_i h0
      have he : e ∉ s.batch := by
        rw [List.length_eq_zero_iff.mp h0]; exact List.not_mem_nil
      exact .inr (h.passEnd s he (fun _ => rfl) (by simp [Place.left]) (fun _ => rfl) hat)
    · exact .inr (h.nearer id (fun _ => rfl) (by simp [Place.left]) fun _ _ _ h0 => h0)
  | addsLast fin total =>
    cases hs
    exact .inr (h.nearer id (fun _ => rfl) (by simp [Place.left]) fun _ _ _ h0 => h0)
  | writeLast fin total =>
    cases hs
    by_cases he : e ∈ s.batch
    · exact .inl (List.mem_append_right _ he)
    · exact .inr (h.passEnd { s with sink := s.sink ++ s.batch, batch := [] } he (fun _ => rfl)
        (by simp [Place.left]) (fun _ => rfl) hat)
  | ctxDone done =>
    have hb : s.batch = [] := hat
    have he : e ∉ s.batch := by rw [hb]; exact List.not_mem_nil
    have hc : ∀ i, (s'.slot i).ch = (s.slot i).ch := by
      rcases ctxDone_cases hs with ⟨-, rfl⟩ | ⟨-, rfl⟩ <;> exact fun _ => rfl
    exact .inr (h.newPass he hc (by simp [Place.left]) (fun _ => rfl) done)
  | doneClose =>
    have he : e ∉ s.batch := by rw [hat.1]; exact List.not_mem_nil
    exact (h.not_clear he hat.2).elim
  | _ => exact absurd ha Bool.false_ne_true

/-! ## Along a run -/

/-- The consumer runs, and the event is at most `b` of its operations from the
sink. -/
structure Nearing (cfg : Config) (s : State V Tid) (g : Place V) (e : Item V Tid) (b : Nat) :
    Prop where
  consumer : g.consumer
  runs : g ≠ .starting
  within : Within cfg s g e b

theorem Move.consumes_of {a : Act V} {r : Resp a} (hm : Move cfg g a r g') (hg : g.consumer)
    (hn : g ≠ .starting) : consumes a = true := by
  cases hm <;> first | rfl | exact hg.elim | exact absurd rfl hn

theorem endPlace_not_consumer {c : Call V} {r : Result} (h : endPlace c r g) : ¬ g.consumer := by
  cases c with
  | push k v => obtain ⟨b, -, rfl⟩ := h; exact id
  | _ => rw [h.1]; exact id

omit [DecidableEq Tid] in
theorem Nearing.mono {b' : Nat} (h : Nearing cfg s g e b) (hb : b ≤ b') : Nearing cfg s g e b' := by
  refine ⟨h.consumer, h.runs, ?_⟩
  rcases h.within with ⟨h1, h2⟩ | ⟨i, k, h1, h2, h3⟩
  · exact .inl ⟨h1, Nat.le_trans h2 hb⟩
  · exact .inr ⟨i, k, h1, h2, Nat.le_trans h3 hb⟩

theorem passAt_runs (fin : Bool) (i total : Nat) :
    (passAt cfg fin i total : Place V) ≠ .starting := by
  unfold passAt; split <;> nofun

theorem passEnd_runs (fin : Bool) (total : Nat) :
    (passEnd cfg fin total : Place V) ≠ .starting := by
  unfold passEnd; split
  · exact passAt_runs fin 0 0
  · cases fin <;> nofun

theorem Move.runs {a : Act V} {r : Resp a} (hm : Move cfg g a r g') (ha : consumes a = true) :
    g' ≠ .starting := by
  cases hm with
  | free hq => rw [consumes_of_free hq] at ha; cases ha
  | ready hq => rw [consumes_of_readies hq] at ha; cases ha
  | count hq => rw [consumes_of_counts hq] at ha; cases ha
  | _ =>
    first
    | exact absurd ha Bool.false_ne_true
    | (try split) <;>
        first
        | exact passAt_runs _ _ _
        | exact passEnd_runs _ _
        | nofun

theorem Move.ran {a : Act V} {r : Resp a} (hm : Move cfg g a r g') (ha : consumes a = true) :
    g ≠ .starting := by
  rintro rfl
  cases hm <;> exact absurd ha Bool.false_ne_true

theorem step_consumer {γ' : Tid → Place V} {a : Act V}
    (hs : (flow V Tid cfg).Step (inTime cfg) s γ (some (t, a)) s' γ') (ha : consumes a = true) :
    (γ t).consumer ∧ γ t ≠ .starting :=
  match hs with
  | .move _ _ _ _ _ hm => ⟨(hm.of_consumes ha).1, hm.ran ha⟩

omit [DecidableEq Tid] in
/-- The consumer does not exit while the event is on its way. -/
theorem Within.not_done {r : Resp (.doneClose : Act V)} (h : Within cfg s g e b) (hat : At cfg s g)
    (hm : Move cfg g .doneClose r g') : False := by
  cases hm with
  | free hq => exact absurd hq Bool.false_ne_true
  | ready hq => exact absurd hq Bool.false_ne_true
  | count hq => exact absurd hq Bool.false_ne_true
  | doneClose =>
    refine h.not_clear ?_ hat.2
    rw [hat.1]; exact List.not_mem_nil

/-- A step of the machine brings the event no farther, one of the consumer
nearer. -/
theorem nearing_next (hB : 0 < cfg.batch) {γ' : Tid → Place V} {o : Option (Tid × Act V)}
    (hI : DrainInv cfg s γ) (hs : (flow V Tid cfg).Step (inTime cfg) s γ o s' γ')
    (h : Nearing cfg s (γ t) e b) : e ∈ s'.sink ∨ ∃ b', b' ≤ b ∧ Nearing cfg s' (γ' t) e b' ∧
      ∀ u a, o = some (u, a) → consumes a = true → b' < b := by
  match hs with
  | .rest => exact .inr ⟨b, Nat.le_refl b, h, nofun⟩
  | .begin u c hi he =>
    have hne : t ≠ u := by
      rintro rfl
      have := h.consumer
      rw [hi] at this; exact this
    refine .inr ⟨b, Nat.le_refl b, ?_, nofun⟩
    simp only [upd_ne _ _ hne]
    exact ⟨h.consumer, h.runs, h.within.aside (begin_aside c)⟩
  | .finish u c r he =>
    have hne : t ≠ u := by
      rintro rfl
      exact endPlace_not_consumer he h.consumer
    refine .inr ⟨b, Nat.le_refl b, ?_, nofun⟩
    simp only [upd_ne _ _ hne]
    exact ⟨h.consumer, h.runs, h.within.aside (.of_eq rfl rfl rfl rfl)⟩
  | .move u a n hok hsem hm =>
    cases ha : consumes a with
    | true =>
      obtain ⟨hu, hu'⟩ := hm.of_consumes ha
      obtain rfl := hI.one.uniq t u h.consumer hu
      rcases within_step hB ha hsem hm (hI.at_ t) h.within with hk | ⟨b', hb, hw⟩
      · exact .inl hk
      · refine .inr ⟨b', Nat.le_of_lt hb, ?_, fun _ _ _ _ => hb⟩
        simp only [upd_self]
        rcases hu' with hc | ⟨rfl, -⟩
        · exact ⟨hc, hm.runs ha, hw⟩
        · exact (h.within.not_done (hI.at_ t) hm).elim
    | false =>
      have hne : t ≠ u := by
        rintro rfl
        have := hm.consumes_of h.consumer h.runs
        rw [ha] at this; cases this
      refine .inr ⟨b, Nat.le_refl b, ?_, ?_⟩
      · simp only [upd_ne _ _ hne]
        exact ⟨h.consumer, h.runs, h.within.aside (aside ha hok hsem)⟩
      · rintro _ _ ⟨⟩ hc
        rw [ha] at hc; cases hc

/-! ## What was sent stays sent -/

theorem sent_step {x y : System.Config (pipeline V Tid cfg)}
    {l : System.Label (pipeline V Tid cfg)} (h : System.step x l = some y) :
    x.state.sent ⊆ y.state.sent := by
  obtain h | ⟨t, c, h⟩ | ⟨t, c, r, h⟩ | ⟨t, a, n, r, h⟩ := System.step_cases h
  · rw [h]; exact fun _ h => h
  · rw [h]; cases c <;> exact fun _ h => h
  · rw [h]; exact fun _ h => h
  · exact (grows h).sent

theorem sent_run {x y : System.Config (pipeline V Tid cfg)}
    {ls : List (System.Label (pipeline V Tid cfg))} (h : (pipeline V Tid cfg).lts.Run x ls y) :
    x.state.sent ⊆ y.state.sent := by
  induction h with
  | nil => exact fun _ h => h
  | cons hs _ ih => exact fun _ h => ih (sent_step hs h)

theorem sent_later {ok : Tid → Act V → State V Tid → Prop}
    {σ : Nat → System.Config (pipeline V Tid cfg)}
    {ls : Nat → Option (System.Label (pipeline V Tid cfg))} (hσ : System.Execution ok σ ls)
    {n m : Nat} (h : n ≤ m) : (σ n).state.sent ⊆ (σ m).state.sent := by
  induction h with
  | refl => exact fun _ h => h
  | @step m _ ih =>
    cases hl : ls m with
    | none => rw [hσ.rest m hl]; exact ih
    | some l => exact fun _ h => sent_step (hσ.step m l hl).2 (ih h)

/-- `t` is about to return true from a push of `v`. -/
def Accepts (x : System.Config (pipeline V Tid cfg)) (t : Tid) (v : V) : Prop :=
  ∃ k, x.thread t = .run (.push k v) (.ret (.pushed true))

/-- It is the event pushed that has been sent, under the number of this call. -/
theorem Accepts.sent (hB : 0 < cfg.batch) {x : System.Config (pipeline V Tid cfg)}
    (hx : System.ReachableIf (inTime cfg) x) {v : V} (h : Accepts x t v) :
    (x.state.me t, v) ∈ x.state.sent := by
  obtain ⟨γ, hr, hst⟩ := follows.stands hx
  obtain ⟨k, hth⟩ := h
  have hat := hst t
  rw [hth] at hat
  obtain ⟨b, hb, hg⟩ := hat
  cases hb
  have hfact := ((drain_keeps hB).reach hr).holdings.facts t
  rwa [hg] at hfact

omit [DecidableEq Tid] in
/-- When the consumer has exited, everything sent is in the sink. -/
theorem DrainInv.sunk (h : DrainInv cfg s γ) (hd : s.done = true) (he : e ∈ s.sent) :
    e ∈ s.sink := by
  obtain ⟨hb, hc⟩ := h.done hd
  rcases h.holdings.sent e he with hk | hk | ⟨i, hi, hk⟩
  · exact hk
  · rw [hb] at hk; cases hk
  · rw [(hc i hi).1] at hk; cases hk

/-- The consumer goes on, or it has exited. -/
def ConsumerGoesOn (σ : Nat → System.Config (pipeline V Tid cfg))
    (ls : Nat → Option (System.Label (pipeline V Tid cfg))) : Prop :=
  ∀ n, ∃ m, n ≤ m ∧
    ((σ m).state.done = true ∨ ∃ t a, System.Does σ ls m t a ∧ consumes a = true)

theorem sent_sinks (hB : 0 < cfg.batch) {σ : Nat → System.Config (pipeline V Tid cfg)}
    {ls : Nat → Option (System.Label (pipeline V Tid cfg))}
    (hσ : System.Execution (inTime cfg) σ ls) (hgo : ConsumerGoesOn σ ls) {n : Nat}
    (he : e ∈ (σ n).state.sent) : ∃ m, n ≤ m ∧ e ∈ (σ m).state.sink := by
  obtain ⟨Γ, hreach, hstep⟩ := follows.execution hσ
  have hI : ∀ m, DrainInv cfg (σ m).state (Γ m) := fun m => (drain_keeps hB).reach (hreach m)
  have hsent : ∀ m, n ≤ m → e ∈ (σ m).state.sent := fun m hm => sent_later hσ hm he
  -- an operation of the consumer is one of the thread that is at its places
  have hdoes : ∀ m t a, System.Does σ ls m t a → consumes a = true →
      (Γ m t).consumer ∧ Γ m t ≠ .starting := by
    intro m t a hd ha
    obtain ⟨o, ho, hoa⟩ := hstep m
    obtain rfl := hoa t a hd
    exact step_consumer ho ha
  obtain ⟨N, hN, hdone | ⟨t, a, hd, ha⟩⟩ := hgo n
  · exact ⟨N, hN, (hI N).sunk hdone (hsent N hN)⟩
  · obtain ⟨hc, hr⟩ := hdoes N t a hd ha
    have hheld : e ∈ (σ N).state.sink ∨ ∃ b, Nearing cfg (σ N).state (Γ N t) e b := by
      rcases (hI N).holdings.sent e (hsent N hN) with hk | hk | ⟨i, hi, hk⟩
      · exact .inl hk
      · exact .inr ⟨_, hc, hr, .inl ⟨hk, Nat.le_refl _⟩⟩
      · obtain ⟨k, hk⟩ := List.mem_iff_getElem?.mp hk
        exact .inr ⟨_, hc, hr, .inr ⟨i, k, hi, hk, Nat.le_refl _⟩⟩
    rcases hheld with hk | ⟨b, hb⟩
    · exact ⟨N, hN, hk⟩
    · have hev := System.eventually_of_bound (P := fun m => e ∈ (σ m).state.sink)
        (W := fun m b => Nearing cfg (σ m).state (Γ m t) e b) hb
        (fun m b _ hw => ?_) fun m _ => ?_
      · obtain ⟨m, hm, hk⟩ := hev
        exact ⟨m, by omega, hk⟩
      · obtain ⟨o, ho, -⟩ := hstep m
        rcases nearing_next hB (hI m) ho hw with hk | ⟨b', hb', hw', -⟩
        · exact .inl hk
        · exact .inr (hw'.mono hb')
      · obtain ⟨k, hk, hdk⟩ := hgo m
        refine ⟨k, hk, fun b hw => ?_⟩
        rcases hdk with hdone | ⟨u, a, hd, ha⟩
        · have := ((hI k).one.running (.inr ⟨t, hw.consumer⟩)).2
          rw [hdone] at this; cases this
        · obtain ⟨o, ho, hoa⟩ := hstep k
          rcases nearing_next hB (hI k) ho hw with hk | ⟨b', -, hw', hlt⟩
          · exact .inl hk
          · exact .inr ⟨b', hlt u a (hoa u a hd) ha, hw'⟩

/-- **What was accepted is handed over.** In every run in which no send
succeeds on a channel that the final drain has passed: when the consumer has
exited, every channel is empty and every event whose `Push` returned true is
in the sink; and as long as the consumer goes on, every such event comes to
the sink. -/
theorem accepted_delivered (hB : 0 < cfg.batch) :
    (∀ x : System.Config (pipeline V Tid cfg), System.ReachableIf (inTime cfg) x →
      x.state.done = true → (∀ i, i < cfg.producers → (x.state.slot i).ch = []) ∧
        ∀ id, x.state.results id = some (.pushed true) → ∃ v, (id, v) ∈ x.state.sink) ∧
    (∀ x : System.Config (pipeline V Tid cfg), System.ReachableIf (inTime cfg) x →
      ∀ t v, Accepts x t v → ∀ ls y,
        ((pipeline V Tid cfg).lts.restrict (System.Meets (inTime cfg))).Run x ls y →
        y.state.done = true → (x.state.me t, v) ∈ y.state.sink) ∧
    ∀ (σ : Nat → System.Config (pipeline V Tid cfg))
      (ls : Nat → Option (System.Label (pipeline V Tid cfg))),
      System.Execution (inTime cfg) σ ls → ConsumerGoesOn σ ls →
      ∀ n, (∀ id, (σ n).state.results id = some (.pushed true) →
          ∃ v m, n ≤ m ∧ (id, v) ∈ (σ m).state.sink) ∧
        ∀ t v, Accepts (σ n) t v → ∃ m, n ≤ m ∧ ((σ n).state.me t, v) ∈ (σ m).state.sink := by
  refine ⟨fun x hx hd => ?_, fun x hx t v ha ls y hr hd => ?_,
    fun σ ls hσ hgo n => ⟨fun id hid => ?_, fun t v ha => sent_sinks hB hσ hgo ?_⟩⟩
  · obtain ⟨γ, hr, -⟩ := follows.places hx
    have hI := (drain_keeps hB).reach hr
    refine ⟨fun i hi => ((hI.done hd).2 i hi).1, fun id hid => ?_⟩
    obtain ⟨v, hv⟩ := hI.holdings.results id hid
    exact ⟨v, hI.sunk hd hv⟩
  · obtain ⟨γ, hry, -⟩ := follows.places (hx.run hr)
    exact ((drain_keeps hB).reach hry).sunk hd (sent_run hr.of_restrict (ha.sent hB hx))
  · obtain ⟨Γ, hr, -⟩ := follows.execution hσ
    obtain ⟨v, hv⟩ := ((drain_keeps hB).reach (hr n)).holdings.results id hid
    obtain ⟨m, hm, hk⟩ := sent_sinks hB hσ hgo hv
    exact ⟨v, m, hm, hk⟩
  · exact ha.sent hB (hσ.reachable n)

end

/-! Runs of a pipeline with one slot. -/

/-- The test that a step meets `inTime`. -/
def sendsInTime (x : System.Config oneSlot) : System.Label oneSlot → Bool
  | .invoke _ _ => true
  | .step t _ =>
    match x.thread t with
    | .run _ (.act (.send i _) _) => !decide (x.state.passed i)
    | _ => true

theorem sendsInTime_meets (x : System.Config oneSlot) (l : System.Label oneSlot)
    (h : sendsInTime x l = true) : System.Meets (inTime ⟨1, 2, 4⟩) x l := by
  cases l with
  | invoke => trivial
  | step t n =>
    rintro a ⟨c, k, hth⟩
    simp only [sendsInTime, hth] at h
    cases a <;> first | trivial | skip
    intro _ hp
    simp [hp] at h

/-- Started, with a producer. -/
def opened : List (System.Label oneSlot) :=
  .invoke (0 : Fin 4) .start :: ops 0 4 ++ .invoke (1 : Fin 4) .producer :: ops 1 10

/-- An event is pushed, and its push is about to return. -/
def pushed : List (System.Label oneSlot) := opened ++ .invoke (1 : Fin 4) (.push 0 7) :: ops 1 7

/-- The push returns, the context is cancelled, and the consumer drains. -/
def cancelled : List (System.Label oneSlot) :=
  ops 1 1 ++ .invoke (0 : Fin 4) .cancel :: ops 0 2 ++ .invoke (2 : Fin 4) .consume :: ops 2 28

/-- The test of `Accepts`. -/
def accepting (x : System.Config oneSlot) (t : Fin 4) (v : Nat) : Bool :=
  match x.thread t with
  | .run (.push _ w) (.ret (.pushed true)) => w == v
  | _ => false

theorem of_accepting {x : System.Config oneSlot} {t : Fin 4} {v : Nat}
    (h : accepting x t v = true) : Accepts x t v := by
  unfold accepting at h
  split at h
  · rename_i k w hth
    obtain rfl := eq_of_beq h
    exact ⟨k, hth⟩
  · cases h

theorem accepted_delivered_one :
    (∃ x : System.Config oneSlot, System.ReachableIf (inTime ⟨1, 2, 4⟩) x ∧
      x.state.results (1, 2) = some (.pushed true) ∧ (x.state.slot 0).ch = [] ∧
      ((1, 2), 7) ∈ x.state.sink) ∧
    ∃ (σ : Nat → System.Config oneSlot) (ls : Nat → Option (System.Label oneSlot)),
      System.Execution (inTime ⟨1, 2, 4⟩) σ ls ∧ ∃ m, ((1, 2), 7) ∈ (σ m).state.sink := by
  obtain ⟨hsafe, hsunk, hlive⟩ := @accepted_delivered Nat (Fin 4) _ ⟨1, 2, 4⟩ (by decide)
  have htest : ((System.exec sendsInTime (System.start oneSlot) pushed).any fun x =>
      (System.exec sendsInTime x cancelled).any fun y =>
        accepting x 1 7 && decide (x.state.me 1 = (1, 2) ∧ y.state.done = true ∧
          y.state.results (1, 2) = some (.pushed true))) = true := by
    decide +kernel
  obtain ⟨x, y, hx, hy, hp⟩ := System.exec_of_test htest
  obtain ⟨hacc, hme, hd, hres⟩ : accepting x 1 7 = true ∧ x.state.me 1 = (1, 2) ∧
      y.state.done = true ∧ y.state.results (1, 2) = some (.pushed true) := by
    simpa using hp
  have hxr : System.ReachableIf (inTime ⟨1, 2, 4⟩) x :=
    ⟨_, pushed, rfl, System.run_of_exec sendsInTime_meets hx⟩
  have hr := System.run_of_exec sendsInTime_meets hy
  refine ⟨⟨y, hxr.run hr, hres, (hsafe y (hxr.run hr) hd).1 0 (by decide), ?_⟩, ?_⟩
  · rw [← hme]
    exact hsunk x hxr 1 7 (of_accepting hacc) _ y hr hd
  · have hxy : System.exec sendsInTime (System.start oneSlot) (pushed ++ cancelled) = some y := by
      rw [System.exec_append, hx]
      exact hy
    obtain ⟨σ, hσ, hat⟩ := System.execution_of_exec sendsInTime_meets hxy
    have hn : σ pushed.length = x := by
      have := hat pushed.length
      rw [List.take_left, hx] at this
      exact (Option.some.inj this).symm
    have hend : ∀ n, (pushed ++ cancelled).length ≤ n → σ n = y := by
      intro n hn
      have := hat n
      rw [List.take_of_length_le hn, System.exec_append, hx] at this
      exact Option.some.inj (this.symm.trans hy)
    obtain ⟨m, -, hm⟩ := (hlive σ _ hσ (fun k => ⟨max k (pushed ++ cancelled).length,
      Nat.le_max_left _ _, .inl (by rw [hend _ (Nat.le_max_right _ _)]; exact hd)⟩)
      pushed.length).2 1 7 (of_accepting (by rw [hn]; exact hacc))
    rw [hn, hme] at hm
    exact ⟨σ, _, hσ, m, hm⟩

/-- The context is cancelled, the consumer exits, and only then an event is
pushed. -/
def pushedLate : List (System.Label oneSlot) :=
  opened ++ .invoke (0 : Fin 4) .cancel :: ops 0 2 ++ .invoke (2 : Fin 4) .consume :: ops 2 17 ++
  .invoke (1 : Fin 4) (.push 0 8) :: ops 1 8

/-- The consumer has exited, and a later `Push` has returned true: its event
stays in the channel. -/
theorem accepted_stranded : ∃ x : System.Config oneSlot, oneSlot.Reachable x ∧
    x.state.done = true ∧ x.state.results (1, 2) = some (.pushed true) ∧
    (x.state.slot 0).ch = [((1, 2), 8)] ∧ x.state.sink = [] := by
  obtain ⟨x, hx, hp⟩ := System.reachable_of_test pushedLate
    (fun x => decide (x.state.done = true ∧ x.state.results (1, 2) = some (.pushed true) ∧
      (x.state.slot 0).ch = [((1, 2), 8)] ∧ x.state.sink = [])) (by decide +kernel)
  exact ⟨x, hx, of_decide_eq_true hp⟩

end Katas.Weir.Channel
