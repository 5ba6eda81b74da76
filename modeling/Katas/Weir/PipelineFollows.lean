import Katas.Weir.PipelineFlow

/-!
# The programs of the event pipeline keep to its flow

One lemma for each function of the source. Where the operation that ends a
loop leads depends on what the caller does next, the lemma takes that place
(`next`) from its caller.
-/
namespace Katas.Weir.Pipeline
open Katas.Conc Flow

section
variable {V Tid : Type} [DecidableEq Tid] [Inhabited V] [Inhabited Tid] (cfg : Config)

variable (V Tid) in
abbrev flow : Flow (pipeline V Tid cfg) where
  G := Place V Tid
  idle := .idle
  start _ c := startPlace c
  move _ := Move cfg
  ends _ c r g := endPlace cfg c r g
  pre p _ g := procPre cfg p g
  post p _ g r g' := procPost cfg p g r g'

variable {cfg} {t : Tid} {g : Place V Tid}

/-! ## Waking -/

theorem wp_wake (k : Waker V) : (flow V Tid cfg).wp t (wake cfg k.site)
    (fun _ g => g = wakeTo k) (wakeFrom k) := by
  have locked : cfg.port ≠ .go → (flow V Tid cfg).wp t (do
      op .parkLock
      op (.notify k.site)
      op .parkUnlock) (fun _ g => g = wakeTo k) (wakeFrom k) := by
    intro hp
    refine wp_move_seq fun _ => ⟨_, .wake (.lock k hp), ?_⟩
    refine wp_move_seq fun _ => ⟨_, .wake (.notify k), ?_⟩
    exact wp_move fun _ => ⟨_, .wake (.unlock k), rfl⟩
  unfold wake
  split
  · rename_i hp
    exact wp_move fun _ => ⟨_, .wake (.send k hp), rfl⟩
  · rename_i hp
    exact locked hp

theorem wp_signal (w : Who V) (hs : cfg.scan = .bitmap) :
    (flow V Tid cfg).wp t (signal cfg w.site w.handle.id) (fun _ g => g = .signalled w)
      (.tests w) := by
  refine wp_move_seq fun set => ⟨_, .push (.test w set hs), ?_⟩
  cases set with
  | true => rfl
  | false =>
    refine wp_move_seq fun zero => ⟨_, .push (.set w zero), ?_⟩
    dsimp only
    split
    · refine wp_move_seq fun parked => ⟨_, .push (.mind w parked), ?_⟩
      cases parked with
      | true => exact wp_wake (.signal w)
      | false => rfl
    · rfl

/-! ## Producers -/

theorem wp_store (h : Handle) (v : V) (pos : Nat) : (flow V Tid cfg).wp t (store h v pos)
    (fun r g => r = true ∧ g = .published h v) (.writes h v pos) := by
  refine wp_move_seq fun _ => ⟨_, .push (.write h v pos), ?_⟩
  exact wp_move_seq fun _ => ⟨_, .push (.publish h v pos), rfl, rfl⟩

theorem wp_tryPush (h : Handle) (v : V) : (flow V Tid cfg).wp t (tryPush cfg h v)
    (fun r g => g = if r then .published h v else .tries h v) (.tries h v) := by
  have hstore : ∀ pos, (flow V Tid cfg).wp t (store h v pos)
      (fun r g => g = if r then .published h v else .tries h v) (.writes h v pos) := fun pos =>
    wp_mono (wp_store h v pos) fun r g' he => by rw [he.1, he.2]; rfl
  refine wp_move_seq fun pos => ⟨_, .push (.tail h v pos), ?_⟩
  refine wp_move_seq fun c => ⟨_, .push (.cached h v pos c), ?_⟩
  split
  · refine wp_move_seq fun c => ⟨_, .push (.see h v pos c), ?_⟩
    split
    · rfl
    · exact hstore pos
  · exact hstore pos

theorem wp_retry (h : Handle) (v : V) (n : Nat) : (flow V Tid cfg).wp t (retry cfg h v n)
    (fun r g => g = if r then .published h v else .tries h v) (.tries h v) := by
  induction n with
  | zero => rfl
  | succ n ih =>
    refine wp_seq (wp_mono (wp_tryPush h v) fun ok g' he => ?_)
    subst he
    cases ok with
    | true => rfl
    | false => exact ih

theorem wp_attempt (h : Handle) (v : V) : (flow V Tid cfg).wp t (attempt cfg h v)
    (fun r g => g = if r then .published h v else .tries h v) (.tries h v) := by
  refine wp_seq (wp_mono (wp_tryPush h v) fun ok g' he => ?_)
  subst he
  dsimp only
  split
  · rename_i hc
    rw [hc.1]
    exact wp_retry h v _
  · rfl

theorem wp_highWater (h : Handle) (v : V) : (flow V Tid cfg).wp t (highWater h.id)
    (fun _ g => g = .tests (.pushed h v)) (.tests (.pushed h v)) := by
  refine wp_move_seq fun n => ⟨_, .push (.hintTail h v n), ?_⟩
  refine wp_move_seq fun c => ⟨_, .push (.hintHead h v c), ?_⟩
  refine wp_move_seq fun hw => ⟨_, .push (.hintHigh h v hw), ?_⟩
  split
  · exact wp_move fun _ => ⟨_, .push (.high h v _), rfl⟩
  · rfl

theorem wp_push (h : Handle) (v : V) : (flow V Tid cfg).wp t (push cfg h v)
    (fun r g => endPlace cfg (.push h v) r g) (.asks h v) := by
  refine wp_move_seq fun acc => ⟨_, .push (.accepting h v acc), ?_⟩
  cases acc with
  | false => exact .inl ⟨rfl, .inl rfl⟩
  | true =>
    refine wp_seq (wp_mono (wp_attempt h v) fun ok g' he => ?_)
    subst he
    cases ok with
    | false => exact wp_move_seq fun _ => ⟨_, .push (.drop h v), .inl ⟨rfl, .inr rfl⟩⟩
    | true =>
      refine wp_move_seq fun _ => ⟨_, .push (.count h v), ?_⟩
      refine wp_seq (wp_mono (wp_highWater h v) fun _ g' he => ?_)
      subst he
      dsimp only
      split
      · rename_i hs
        refine wp_seq (wp_mono (wp_signal (.pushed h v) hs) fun _ g' he => ?_)
        exact .inr ⟨rfl, .inl he⟩
      · rename_i hs
        refine .inr ⟨rfl, .inr ⟨?_, rfl⟩⟩
        cases hc : cfg.scan with
        | fullScan => rfl
        | bitmap => exact absurd hc hs

theorem wp_retire (h : Handle) : (flow V Tid cfg).wp t (retire cfg h)
    (fun r g => endPlace cfg (.retire h : Call V) r g) (.leaves h) := by
  have last : (flow V Tid cfg).wp t (do
      wake cfg .other
      pure .done) (fun r g => endPlace cfg (.retire h : Call V) r g)
      (.signalled (.retired h)) := by
    refine wp_seq (wp_mono (wp_wake (.retire h)) fun _ g' he => ?_)
    exact ⟨rfl, he⟩
  refine wp_move_seq fun _ => ⟨_, .push (.retires h), ?_⟩
  refine wp_move_seq fun _ => ⟨_, .push (.pending h), ?_⟩
  dsimp only
  split
  · rename_i hs
    refine wp_seq (wp_mono (wp_signal (.retired h) hs) fun _ g' he => ?_)
    subst he
    exact last
  · exact last

/-! ## The registry -/

theorem wp_claim {g₀ : Place V Tid} (l : List Nat) (hl : ∀ i ∈ l, i < cfg.producers)
    (hcas : ∀ i won, i < cfg.producers →
      RegisterMove cfg g₀ (.stateCas i) won (if won then .claimed i else g₀)) :
    (flow V Tid cfg).wp t (claim l)
      (fun r g => r = none ∧ g = g₀ ∨ ∃ i, r = some i ∧ g = .claimed i) g₀ := by
  induction l with
  | nil => exact .inl ⟨rfl, rfl⟩
  | cons i rest ih =>
    refine wp_move_seq fun won => ⟨_, .register (hcas i won (hl i (List.mem_cons_self ..))), ?_⟩
    cases won with
    | false => exact ih fun j hj => hl j (List.mem_cons_of_mem _ hj)
    | true =>
      refine wp_move_seq fun _ => ⟨_, .register (.pushed i), ?_⟩
      refine wp_move_seq fun _ => ⟨_, .register (.dropped i), ?_⟩
      exact wp_move_seq fun _ => ⟨_, .register (.high i), .inr ⟨i, rfl, rfl⟩⟩

theorem wp_scan (w : Scanner) (l ids : List Nat) : (flow V Tid cfg).wp t (scan l ids)
    (fun r g => g = .scans w [] r) (.scans w l ids) := by
  induction l generalizing ids with
  | nil => rfl
  | cons i rest ih => exact wp_move_seq fun st => ⟨_, .scan (.load w i rest ids st), ih _⟩

theorem wp_refresh {w : Scanner} {next : Place V Tid}
    (hn : ∀ ids, ScanMove cfg (.scans w [] ids) (.registeredStore ids) () next) :
    (flow V Tid cfg).wp t (refresh cfg) (fun _ g => g = next)
      (.scans w (List.range cfg.producers) []) := by
  refine wp_seq (wp_mono (wp_scan w _ _) fun ids g' he => ?_)
  subst he
  exact wp_move fun _ => ⟨_, .scan (hn ids), rfl⟩

theorem wp_claimFree (hp : cfg.port = .python) (l : List Nat) (hl : ∀ i ∈ l, i < cfg.producers) :
    (flow V Tid cfg).wp t (claimFree cfg l)
      (fun r g => r = none ∧ g = .locked ∨ ∃ i, r = some i ∧ g = .claimed i) .locked := by
  induction l with
  | nil => exact .inl ⟨rfl, rfl⟩
  | cons i rest ih =>
    refine wp_move_seq fun st =>
      ⟨_, .register (.finds i st (hl i (List.mem_cons_self ..)) hp), ?_⟩
    dsimp only
    split
    · refine wp_move_seq fun _ => ⟨_, .register (.vacantPushed i), ?_⟩
      refine wp_move_seq fun _ => ⟨_, .register (.vacantDropped i), ?_⟩
      refine wp_move_seq fun _ => ⟨_, .register (.vacantHigh i), ?_⟩
      refine wp_move_seq fun _ => ⟨_, .register (.activates i), ?_⟩
      refine wp_seq (wp_mono (wp_refresh fun ids => .register i ids) fun _ g' he => ?_)
      exact .inr ⟨i, rfl, he⟩
    · exact ih fun j hj => hl j (List.mem_cons_of_mem _ hj)

theorem range_lt {n : Nat} : ∀ i ∈ List.range n, i < n := fun _ => List.mem_range.mp

theorem wp_registerLoop (hp : cfg.port = .python) : (flow V Tid cfg).wp t (registerLoop cfg)
    (fun r g => r = none ∧ g = .out ∨ ∃ i, r = some i ∧ g = .given i) .out := by
  have hcpp : cfg.port ≠ .cpp := by rw [hp]; nofun
  refine wp_move_seq fun _ => ⟨_, .register (.lock hcpp), ?_⟩
  refine wp_seq (wp_mono (wp_claimFree hp _ range_lt) fun r g' he => ?_)
  obtain ⟨rfl, rfl⟩ | ⟨i, rfl, rfl⟩ := he
  · refine wp_move_seq fun _ => ⟨_, .register .unlock, ?_⟩
    refine wp_move_seq fun before => ⟨_, .register (.deadline before), ?_⟩
    cases before with
    | false => exact .inl ⟨rfl, rfl⟩
    | true =>
      refine wp_move_seq fun running => ⟨_, .register (.runs running), ?_⟩
      cases running with
      | false => exact .inl ⟨rfl, rfl⟩
      | true =>
        refine wp_seq (wp_mono (wp_wake .register) fun _ g' he => ?_)
        subst he
        exact wp_proc ⟨hp, rfl⟩ fun _ _ h => h
  · exact wp_move_seq fun _ => ⟨_, .register (.release i hcpp), .inr ⟨i, rfl, rfl⟩⟩

theorem wp_register : (flow V Tid cfg).wp t (register cfg)
    (fun r g => endPlace cfg (.register : Call V) r g) .out := by
  unfold register
  split
  · rename_i hp
    refine wp_seq (wp_mono (wp_claim _ range_lt fun i won hi => .cas i won hi hp) fun r g' he => ?_)
    obtain ⟨rfl, rfl⟩ | ⟨i, rfl, rfl⟩ := he
    · exact .inl ⟨rfl, rfl⟩
    · exact .inr ⟨i, rfl, .inr ⟨hp, rfl⟩⟩
  · rename_i hp
    have hcpp : cfg.port ≠ .cpp := by rw [hp]; nofun
    refine wp_move_seq fun _ => ⟨_, .register (.lock hcpp), ?_⟩
    refine wp_seq (wp_mono (wp_claim _ range_lt fun i won hi => .casLocked i won hi hp)
      fun r g' he => ?_)
    obtain ⟨rfl, rfl⟩ | ⟨i, rfl, rfl⟩ := he
    · exact wp_move_seq fun _ => ⟨_, .register .unlock, .inl ⟨rfl, rfl⟩⟩
    · exact wp_move_seq fun _ => ⟨_, .register (.release i hcpp), .inr ⟨i, rfl, .inl rfl⟩⟩
  · rename_i hp
    refine wp_proc_seq ⟨hp, rfl⟩ fun r g' he => ?_
    obtain ⟨rfl, rfl⟩ | ⟨i, rfl, rfl⟩ := he
    · exact .inl ⟨rfl, rfl⟩
    · exact .inr ⟨i, rfl, .inl rfl⟩

/-! ## Starting and stopping -/

theorem wp_start : (flow V Tid cfg).wp t start
    (fun r g => endPlace cfg (.start : Call V) r g) .starting := by
  refine wp_move_seq fun _ => ⟨_, .life .running, ?_⟩
  refine wp_move_seq fun _ => ⟨_, .life .accepting, ?_⟩
  exact wp_move_seq fun _ => ⟨_, .life .thread, rfl, rfl⟩

theorem wp_quiesced (l : List Nat) : (flow V Tid cfg).wp t (quiesced l)
    (fun _ g => g = .stopping) .stopping := by
  induction l with
  | nil => rfl
  | cons i rest ih =>
    refine wp_move_seq fun st => ⟨_, .life (.waits rfl), ?_⟩
    split
    · exact ih
    · refine wp_move_seq fun tail => ⟨_, .life (.waits rfl), ?_⟩
      refine wp_move_seq fun head => ⟨_, .life (.waits rfl), ?_⟩
      split
      · exact ih
      · rfl

theorem wp_quiesceLoop : (flow V Tid cfg).wp t (quiesceLoop cfg)
    (fun _ g => g = .stopping) .stopping := by
  refine wp_move_seq fun before => ⟨_, .life (.waits rfl), ?_⟩
  cases before with
  | false => rfl
  | true =>
    refine wp_seq (wp_mono (wp_quiesced _) fun q g' he => ?_)
    subst he
    cases q with
    | true => rfl
    | false =>
      refine wp_seq (wp_mono (wp_wake .stop) fun _ g' he => ?_)
      subst he
      exact wp_proc rfl fun _ _ h => h

theorem wp_enter : (flow V Tid cfg).wp t (enter cfg) (fun _ g => g = .stopping) .stopping := by
  unfold enter
  split
  · exact wp_move fun _ => ⟨_, .life (.waits rfl), rfl⟩
  · exact wp_move fun _ => ⟨_, .life (.waits rfl), rfl⟩
  · refine wp_move_seq fun _ => ⟨_, .life (.waits rfl), ?_⟩
    refine wp_move_seq fun stopped => ⟨_, .life (.waits rfl), ?_⟩
    refine wp_move_seq fun joinable => ⟨_, .life (.waits rfl), ?_⟩
    dsimp only
    split
    · exact wp_move_seq fun _ => ⟨_, .life (.waits rfl), rfl⟩
    · exact wp_move_seq fun _ => ⟨_, .life (.waits rfl), rfl⟩

theorem wp_leave : (flow V Tid cfg).wp t (leave cfg) (fun _ g => g = .stopped) .stopped := by
  unfold leave
  split
  · rfl
  · exact wp_move fun _ => ⟨_, .life .onceDone, rfl⟩
  · exact wp_move fun _ => ⟨_, .life .unlock, rfl⟩

theorem wp_quiesce (mode : StopMode) : (flow V Tid cfg).wp t (quiesce cfg mode)
    (fun _ g => g = .stopping) .stopping := by
  unfold quiesce
  split
  · refine wp_proc_seq rfl fun _ g' he => ?_
    subst he
    refine wp_seq (wp_mono (wp_quiesced _) fun q g' he => ?_)
    subst he
    exact wp_move fun _ => ⟨_, .life (.waits rfl), rfl⟩
  · rfl

theorem wp_stop (mode : StopMode) : (flow V Tid cfg).wp t (stop cfg mode)
    (fun r g => endPlace cfg (.stop mode : Call V) r g) .stopping := by
  refine wp_seq (wp_mono wp_enter fun first g' he => ?_)
  subst he
  cases first with
  | false => exact .inr ⟨rfl, rfl⟩
  | true =>
    refine wp_move_seq fun _ => ⟨_, .life (.waits rfl), ?_⟩
    refine wp_seq (wp_mono (wp_quiesce mode) fun _ g' he => ?_)
    subst he
    refine wp_move_seq fun _ => ⟨_, .life .halt, ?_⟩
    refine wp_seq (wp_mono (wp_wake .halt) fun _ g' he => ?_)
    subst he
    refine wp_move_seq fun _ => ⟨_, .life .join, ?_⟩
    refine wp_seq (wp_mono wp_leave fun _ g' he => ?_)
    exact .inl ⟨rfl, he⟩

/-! ## Draining a ring -/

theorem wp_flush {g₀ m x : Place V Tid} (h0 : Move cfg g₀ .stagedLoad (0 : Nat) x)
    (h1 : ∀ n : Nat, n ≠ 0 → Move cfg g₀ .stagedLoad n m) (h2 : Move cfg m .sinkWrite () x) :
    (flow V Tid cfg).wp t flush (fun _ g => g = x) g₀ := by
  refine wp_move_seq fun n => ?_
  by_cases hn : n = 0
  · subst hn
    exact ⟨_, h0, rfl⟩
  · refine ⟨_, h1 n hn, ?_⟩
    rw [if_neg hn]
    exact wp_move fun _ => ⟨_, h2, rfl⟩

theorem wp_makeRoom (k : Spot) (got : Nat) : (flow V Tid cfg).wp t (makeRoom cfg)
    (fun r g => g = .head k got (min (cfg.stageEvents - r) (cfg.drainBatch - got)))
    (.makes k got) := by
  refine wp_move_seq fun n => ⟨_, .drain (.staged k got n), ?_⟩
  dsimp only
  split
  · refine wp_seq (wp_mono (wp_flush (m := .spills k got)
      (x := .head k got (min cfg.stageEvents (cfg.drainBatch - got))) (.drain (.spill k got 0))
      (fun n hn => ?_) (.drain (.spills k got))) fun _ g' he => he)
    have hm : DrainMove cfg (.spill k got : Place V Tid) .stagedLoad n _ := .spill k got n
    rw [if_neg hn] at hm
    exact .drain hm
  · rfl

theorem wp_copy (k : Spot) (got h n m : Nat) (out : List (Item V Tid)) (hm : out.length + m = n) :
    (flow V Tid cfg).wp t (copy k.i (h + out.length) m)
      (fun r g => r.length = m ∧ g = .copies k got h n (out ++ r)) (.copies k got h n out) := by
  induction m generalizing out with
  | zero => exact ⟨rfl, by rw [List.append_nil]⟩
  | succ m ih =>
    refine wp_move_seq fun e => ⟨_, .drain (.copy k got h n out e (by omega)), ?_⟩
    have ih := ih (out ++ [e]) (by rw [List.length_append, List.length_singleton]; omega)
    rw [List.length_append, List.length_singleton, ← Nat.add_assoc] at ih
    refine wp_seq (wp_mono ih fun r g' he => ?_)
    obtain ⟨hr, rfl⟩ := he
    exact ⟨by rw [List.length_cons, hr], by rw [List.append_assoc]; rfl⟩

/-- After taking `n`. -/
def taken (cfg : Config) (k : Spot) (got n : Nat) : Place V Tid :=
  if n = 0 then .drained k got else loopAt cfg k (got + n)

theorem wp_copyOut (k : Spot) (got h n : Nat) : (flow V Tid cfg).wp t (copyOut k.i h n)
    (fun r g => g = taken cfg k got r) (.copies k got h n []) := by
  refine wp_seq (wp_mono (wp_copy k got h n n [] (Nat.zero_add n)) fun out g' he => ?_)
  obtain ⟨hl, rfl⟩ := he
  exact wp_move_seq fun _ => ⟨_, .drain (.copied k got h n out hl), rfl⟩

theorem wp_popBatch (k : Spot) (got room : Nat) :
    (flow V Tid cfg).wp t (popBatch k.drain.site k.i room)
      (fun r g => g = taken cfg k got r) (.head k got room) := by
  refine wp_move_seq fun h => ⟨_, .drain (.head k got room h), ?_⟩
  refine wp_move_seq fun c => ⟨_, .drain (.cached k got room h c), ?_⟩
  split
  · refine wp_move_seq fun c => ⟨_, .drain (.look k got room h c), ?_⟩
    dsimp only
    split
    · rfl
    · exact wp_copyOut k got h _
  · exact wp_copyOut k got h _

omit [DecidableEq Tid] [Inhabited V] [Inhabited Tid] in
theorem loopAt_inj {k k' : Spot} {got : Nat}
    (h : (loopAt cfg k got : Place V Tid) = loopAt cfg k' got) : k = k' := by
  unfold loopAt at h
  split at h <;> cases h <;> rfl

theorem wp_drainLoop (k : Spot) (got : Nat) :
    (flow V Tid cfg).wp t (drainLoop cfg k.drain.site k.i got) (fun r g => g = .drained k r)
      (loopAt cfg k got) := by
  unfold drainLoop loopAt
  split
  · refine wp_seq (wp_mono (wp_makeRoom k got) fun staged g' he => ?_)
    subst he
    refine wp_seq (wp_mono (wp_popBatch k got _) fun n g' he => ?_)
    subst he
    unfold taken
    split
    · rfl
    · exact wp_proc ⟨k, rfl, rfl, rfl⟩ fun r g' h => h k rfl
  · rfl

/-! ## Passes -/

/-- Before the rest of a pass that ends at `next`. -/
def enters (cfg : Config) (next : Nat → Place V Tid) (d : Drain) (rest : List Nat) (total : Nat) :
    Place V Tid :=
  match rest with
  | [] => if 0 < total then .flush d total else next total
  | i :: rest => spotAt cfg ⟨d, i, rest, total⟩

omit [DecidableEq Tid] [Inhabited V] [Inhabited Tid] in
theorem enters_spec {next : Nat → Place V Tid} {d : Drain}
    (hn : ∀ n, PassEnds cfg d n (next n)) (rest : List Nat) (total : Nat) :
    Enters cfg d rest total (enters cfg next d rest total) := by
  unfold Enters enters
  cases rest with
  | cons i rest => rfl
  | nil =>
    dsimp only
    split
    · rfl
    · exact hn total

theorem wp_drainRing {next : Nat → Place V Tid} (k : Spot)
    (hn : ∀ n, PassEnds cfg k.drain n (next n)) :
    (flow V Tid cfg).wp t (drainRing k.drain.site k.i)
      (fun n g => g = enters cfg next k.drain k.rest (k.total + n)) (loopAt cfg k 0) := by
  refine wp_proc_seq ⟨k, rfl, rfl, rfl⟩ fun got g' he => ?_
  obtain rfl := he k rfl
  exact wp_move_seq fun _ => ⟨_, .drain (.drained k got (enters_spec hn _ _)), rfl⟩

section pass
variable {next : Nat → Place V Tid} {d : Drain} (hn : ∀ n, PassEnds cfg d n (next n))
include hn

theorem wp_flushPass (total : Nat) : (flow V Tid cfg).wp t (flushPass total)
    (fun r g => g = next r) (enters cfg next d [] total) := by
  unfold flushPass enters
  dsimp only
  split
  · refine wp_seq (wp_mono (wp_flush (x := next total) (.drain (.flushed d total (hn total)))
      (fun n hn => .drain (.flush d total n hn)) (.drain (.write d total (hn total))))
      fun _ g' he => ?_)
    exact he
  · rfl

theorem wp_drainUsed (hd : checks cfg d) (rest : List Nat) (total : Nat) :
    (flow V Tid cfg).wp t (drainUsed d.site rest total) (fun r g => g = next r)
      (enters cfg next d rest total) := by
  induction rest generalizing total with
  | nil => exact wp_flushPass hn total
  | cons i rest ih =>
    have hat : (enters cfg next d (i :: rest) total : Place V Tid) = .probe ⟨d, i, rest, total⟩ :=
      if_pos hd
    rw [hat]
    refine wp_move_seq fun st => ?_
    by_cases hst : st = .free
    · subst hst
      exact ⟨_, .drain (.free ⟨d, i, rest, total⟩ (enters_spec hn _ _)), ih total⟩
    · refine ⟨_, .drain (.used ⟨d, i, rest, total⟩ hst), ?_⟩
      rw [if_neg hst]
      refine wp_seq (wp_mono (wp_drainRing ⟨d, i, rest, total⟩ hn) fun n g' he => ?_)
      subst he
      exact ih _

theorem wp_drainEach (hd : d = .main) (hs : cfg.scan = .bitmap) (rest : List Nat) (total : Nat) :
    (flow V Tid cfg).wp t (drainEach rest total) (fun r g => g = next r)
      (enters cfg next d rest total) := by
  subst hd
  induction rest generalizing total with
  | nil => exact wp_flushPass hn total
  | cons i rest ih =>
    have hno : ¬ checks cfg .main := by
      rintro (h | h)
      · exact h rfl
      · rw [hs] at h; cases h
    have hat : (enters cfg next .main (i :: rest) total : Place V Tid) =
        loopAt cfg ⟨.main, i, rest, total⟩ 0 := if_neg hno
    rw [hat]
    refine wp_seq (wp_mono (wp_drainRing ⟨.main, i, rest, total⟩ hn) fun n g' he => ?_)
    subst he
    exact ih _

theorem wp_drainFull (hd : checks cfg d) (r : Nat) :
    (flow V Tid cfg).wp t (drainFull cfg d.site r) (fun r g => g = next r) (first cfg d r) := by
  have hcons : order cfg r = r % cfg.producers :: (order cfg r).tail := by
    have hpos := cfg.producers_pos
    unfold order
    cases hn : cfg.producers with
    | zero => omega
    | succ n => rw [List.range_succ_eq_map]; simp
  have h := wp_drainUsed (t := t) hn hd (order cfg r) 0
  have hat : (enters cfg next d (order cfg r) 0 : Place V Tid) = first cfg d r := by
    rw [hcons]
    exact if_pos hd
  rwa [hat] at h

end pass

/-! ## Flags -/

def flagsAt (next : List Nat → Place V Tid) (clear : Bool) (rest ids : List Nat) : Place V Tid :=
  match rest with
  | [] => next ids
  | i :: rest => .flags clear i rest ids

theorem wp_activeIds {x : List Nat → Place V Tid} {clear : Bool}
    (hn : ∀ ids, FlagsAt cfg clear [] ids (x ids)) :
    (flow V Tid cfg).wp t activeIds (fun r g => g = x r) (.ids clear) := by
  have spec : ∀ rest ids, FlagsAt cfg clear rest ids (flagsAt x clear rest ids) := by
    intro rest ids
    cases rest with
    | nil => exact hn ids
    | cons i rest => rfl
  have each : ∀ rest ids, (flow V Tid cfg).wp t (flagged rest ids) (fun r g => g = x r)
      (flagsAt x clear rest ids) := by
    intro rest
    induction rest with
    | nil => exact fun ids => rfl
    | cons i rest ih =>
      exact fun ids => wp_move_seq fun set =>
        ⟨_, .drain (.flag clear i rest ids set (spec rest _)), ih _⟩
  exact wp_move_seq fun l => ⟨_, .drain (.ids clear l (spec l [])), each l []⟩

/-! ## Clearing -/

def clearsAt (cfg : Config) (x : Place V Tid) : List Nat → Place V Tid
  | [] => x
  | i :: rest => if cfg.port = .python then .clears .judge i rest false
      else .clears .tail i rest false

theorem wp_emptyNow {site : Site} {i : Nat} {g₀ f e : Place V Tid}
    {mid : Nat → Place V Tid} (ht : ∀ c : Nat, Move cfg g₀ (.tailSee site i) c (mid c))
    (he : ∀ c : Nat, Move cfg (mid c) (.headLoad site i) c e)
    (hf : ∀ c h : Nat, h ≠ c → Move cfg (mid c) (.headLoad site i) h f) :
    (flow V Tid cfg).wp t (emptyNow site i) (fun r g => g = if r then e else f) g₀ := by
  refine wp_move_seq fun c => ⟨_, ht c, ?_⟩
  refine wp_move_seq fun h => ?_
  by_cases hc : h = c
  · subst hc
    refine ⟨_, he h, ?_⟩
    show e = if decide (h = h) = true then e else f
    simp
  · refine ⟨_, hf c h hc, ?_⟩
    show f = if decide (h = c) = true then e else f
    simp [hc]

section clear
variable {next : Place V Tid} (hn : ∃ r, next = first cfg .settle r)
include hn

omit [DecidableEq Tid] [Inhabited V] [Inhabited Tid] in
theorem clearsAt_spec (rest : List Nat) : ClearAt cfg rest (clearsAt cfg next rest) := by
  cases rest with
  | nil => exact hn
  | cons i rest => rfl

theorem wp_clearBit (hp : cfg.port ≠ .python) (i : Nat) (rest : List Nat) :
    (flow V Tid cfg).wp t (clearBit i) (fun _ g => g = clearsAt cfg next rest)
      (.clears .tail i rest false) := by
  have spec := clearsAt_spec hn rest
  have restore : (flow V Tid cfg).wp t (do
      let _ ← op (.bitSet (.clear false) i)
      pure ()) (fun _ g => g = clearsAt cfg next rest) (.clears .restore i rest false) :=
    wp_move_seq fun zero => ⟨_, .clear (.restore i rest false zero spec), rfl⟩
  refine wp_seq (wp_mono (wp_emptyNow (f := clearsAt cfg next rest)
    (e := .clears .unset i rest false) (fun c => .clear (.tail i rest false c))
    (fun c => .clear (.empty i rest false c))
    fun c h hc => .clear (.filled i rest false hc spec)) fun empty g' he => ?_)
  subst he
  cases empty with
  | false => rfl
  | true =>
    refine wp_move_seq fun _ => ⟨_, .clear (.unset i rest false), ?_⟩
    refine wp_seq (wp_mono (wp_emptyNow (f := .clears .restore i rest false)
      (e := .clears .state i rest false) (fun c => .clear (.tailAgain i rest false c))
      (fun c => .clear (.emptyAgain i rest false c (by rw [if_neg hp])))
      fun c h hc => .clear (.filledAgain i rest false hc)) fun empty g' he => ?_)
    subst he
    cases empty with
    | false => exact restore
    | true =>
      refine wp_move_seq fun st => ?_
      by_cases hst : st = .retiring
      · subst hst
        exact ⟨_, .clear (.retiring i rest false), restore⟩
      · refine ⟨_, .clear (.other i rest false hst spec), ?_⟩
        rw [if_neg hst]
        rfl

theorem wp_clearIfEmpty (hp : cfg.port = .python) (i : Nat) (rest : List Nat) (b : Bool) :
    (flow V Tid cfg).wp t (clearIfEmpty i b) (fun _ g => g = clearsAt cfg next rest)
      (.clears .tail i rest b) := by
  have spec := clearsAt_spec hn rest
  have restore : (flow V Tid cfg).wp t (do
      let _ ← op (.bitSet (.clear b) i)
      pure ()) (fun _ g => g = clearsAt cfg next rest) (.clears .restore i rest b) :=
    wp_move_seq fun zero => ⟨_, .clear (.restore i rest b zero spec), rfl⟩
  refine wp_seq (wp_mono (wp_emptyNow (f := clearsAt cfg next rest)
    (e := .clears .unset i rest b) (fun c => .clear (.tail i rest b c))
    (fun c => .clear (.empty i rest b c))
    fun c h hc => .clear (.filled i rest b hc spec)) fun empty g' he => ?_)
  subst he
  cases empty with
  | false => rfl
  | true =>
    refine wp_move_seq fun _ => ⟨_, .clear (.unset i rest b), ?_⟩
    refine wp_seq (wp_mono (wp_emptyNow (f := .clears .restore i rest b)
      (e := if b then .clears .restore i rest b else clearsAt cfg next rest)
      (fun c => .clear (.tailAgain i rest b c))
      (fun c => .clear (.emptyAgain i rest b c ?_))
      fun c h hc => .clear (.filledAgain i rest b hc)) fun empty g' he => ?_)
    · rw [if_pos hp]
      cases b with
      | true => rfl
      | false => exact spec
    · subst he
      cases empty with
      | false => exact restore
      | true =>
        cases b with
        | true => exact restore
        | false => rfl

theorem wp_clearEach (l : List Nat) : (flow V Tid cfg).wp t (clearEach cfg l)
    (fun _ g => g = next) (clearsAt cfg next l) := by
  induction l with
  | nil => rfl
  | cons i rest ih =>
    refine wp_seq ?_
    have done : (flow V Tid cfg).wp t (clearOne cfg i) (fun _ g => g = clearsAt cfg next rest)
        (clearsAt cfg next (i :: rest)) := by
      have hat : clearsAt cfg next (i :: rest) = if cfg.port = .python
          then .clears .judge i rest false else .clears .tail i rest false := rfl
      rw [hat]
      unfold clearOne
      split
      · rename_i hp
        rw [if_pos hp]
        refine wp_move_seq fun st => ⟨_, .clear (.judge i rest false st), ?_⟩
        exact wp_clearIfEmpty hn hp i rest _
      · rename_i hp
        rw [if_neg hp]
        exact wp_clearBit hn hp i rest
    exact wp_mono done fun _ g' he => by subst he; exact ih

theorem wp_clearEmpty : (flow V Tid cfg).wp t (clearEmpty cfg) (fun _ g => g = next)
    (if cfg.port = .python then .ids true else .clearWord) := by
  unfold clearEmpty
  split
  · rename_i hp
    rw [if_pos hp]
    refine wp_seq (wp_mono (wp_activeIds (x := clearsAt cfg next) fun ids => ?_)
      fun ids g' he => ?_)
    · exact clearsAt_spec hn ids
    · subst he
      exact wp_clearEach hn ids
  · rename_i hp
    rw [if_neg hp]
    exact wp_move_seq fun w => ⟨_, .clear (.word w (clearsAt_spec hn _)), wp_clearEach hn _⟩

end clear

/-! ## Reclaiming -/

/-- Before the rest of a reclaim that ends at `next`. -/
def reclaimsAt (cfg : Config) (next : Place V Tid) (rest : List Nat) (changed fin : Bool) :
    Place V Tid :=
  match rest with
  | [] => if cfg.port = .python ∧ changed then
      .scans (.reclaim fin) (List.range cfg.producers) [] else next
  | i :: rest => .reclaims .state ⟨i, rest, changed, fin⟩

section reclaim
variable {next : Place V Tid} {fin : Bool} (hn : ReclaimEnds cfg fin next)
include hn

omit [DecidableEq Tid] [Inhabited V] [Inhabited Tid] in
theorem reclaimsAt_spec (rest : List Nat) (changed : Bool) :
    ReclaimAt cfg rest changed fin (reclaimsAt cfg next rest changed fin) := by
  unfold ReclaimAt reclaimsAt
  cases rest with
  | cons i rest => rfl
  | nil =>
    dsimp only
    split
    · rfl
    · exact hn

omit hn in
theorem wp_fold (l : Lot) : (flow V Tid cfg).wp t (fold cfg l.i)
    (fun _ g => g = .reclaims .unset l) (.reclaims .pushed l) := by
  unfold fold
  split
  · rename_i hp
    refine wp_move_seq fun n => ⟨_, .reclaim (.loadPushed l n hp), ?_⟩
    refine wp_move_seq fun _ => ⟨_, .reclaim (.addPushed l n), ?_⟩
    refine wp_move_seq fun m => ⟨_, .reclaim (.loadDropped l m hp), ?_⟩
    refine wp_move_seq fun _ => ⟨_, .reclaim (.addDropped l m), ?_⟩
    rw [if_pos hp]
    refine wp_move_seq fun _ => ⟨_, .reclaim (.zeroPushed l), ?_⟩
    exact wp_move fun _ => ⟨_, .reclaim (.zeroDropped l), rfl⟩
  · rename_i hp
    refine wp_move_seq fun n => ⟨_, .reclaim (.swapPushed l n hp), ?_⟩
    refine wp_move_seq fun _ => ⟨_, .reclaim (.addPushed l n), ?_⟩
    refine wp_move_seq fun m => ⟨_, .reclaim (.swapDropped l m hp), ?_⟩
    refine wp_move fun _ => ⟨_, .reclaim (.addDropped l m), ?_⟩
    exact if_neg hp

theorem wp_reclaimEach (rest : List Nat) (changed : Bool) :
    (flow V Tid cfg).wp t (reclaimEach cfg rest changed)
      (fun r g => g = reclaimsAt cfg next [] r fin) (reclaimsAt cfg next rest changed fin) := by
  induction rest generalizing changed with
  | nil => rfl
  | cons i rest ih =>
    have spec := reclaimsAt_spec hn rest
    refine wp_move_seq fun st => ?_
    by_cases hst : st = .retiring
    · subst hst
      refine ⟨_, .reclaim (.retiring ⟨i, rest, changed, fin⟩), ?_⟩
      refine wp_seq (wp_mono (wp_emptyNow (f := reclaimsAt cfg next rest changed fin)
        (e := .reclaims .pushed ⟨i, rest, changed, fin⟩) (fun c => .reclaim (.tail _ c))
        (fun c => .reclaim (.empty _ c))
        fun c h hc => .reclaim (.filled _ hc (spec changed))) fun empty g' he => ?_)
      subst he
      cases empty with
      | false => exact ih changed
      | true =>
        refine wp_seq (wp_mono (wp_fold ⟨i, rest, changed, fin⟩) fun _ g' he => ?_)
        subst he
        refine wp_move_seq fun _ => ⟨_, .reclaim (.unset _), ?_⟩
        exact wp_move_seq fun _ => ⟨_, .reclaim (.free _ (spec true)), ih true⟩
    · refine ⟨_, .reclaim (.other ⟨i, rest, changed, fin⟩ hst (spec changed)), ?_⟩
      rw [if_neg hst]
      exact ih changed

theorem wp_reclaim : (flow V Tid cfg).wp t (reclaim cfg) (fun _ g => g = next)
    (reclaimsAt cfg next (List.range cfg.producers) false fin) := by
  refine wp_seq (wp_mono (wp_reclaimEach hn _ _) fun changed g' he => ?_)
  subst he
  unfold reclaimsAt
  dsimp only
  split
  · exact wp_refresh fun ids => .reclaim fin ids hn
  · rfl

end reclaim

theorem wp_reclaimAsked {next : Place V Tid} (hn : Rung cfg next) :
    (flow V Tid cfg).wp t (reclaimAsked cfg) (fun _ g => g = next) .asked := by
  have hend : ReclaimEnds cfg false next := hn
  have spec := reclaimsAt_spec hend (List.range cfg.producers) false
  unfold reclaimAsked
  split
  · rename_i hp
    refine wp_move_seq fun pending => ?_
    cases pending with
    | false => exact ⟨_, .reclaim (.skips hp hn), rfl⟩
    | true =>
      refine ⟨_, .reclaim (.finds hp), ?_⟩
      exact wp_move_seq fun _ => ⟨_, .reclaim (.takes spec), wp_reclaim hend⟩
  · rename_i hp
    refine wp_move_seq fun pending => ?_
    cases pending with
    | false => exact ⟨_, .reclaim (.skip hp hn), rfl⟩
    | true => exact ⟨_, .reclaim (.take hp spec), wp_reclaim hend⟩

/-! ## Parking -/

theorem wp_wait (told : Bool) : (flow V Tid cfg).wp t (wait cfg)
    (fun _ g => g = .parks .disarm told)
    (if cfg.port = .go then .parks .asleep told else .parks .sleep told) := by
  unfold wait
  split
  · rename_i hp
    rw [if_pos hp]
    exact wp_move fun _ => ⟨_, .park (.select told hp), rfl⟩
  · rename_i hp
    rw [if_neg hp]
    refine wp_move_seq fun _ => ⟨_, .park (.sleep told), ?_⟩
    exact wp_move fun _ => ⟨_, .park (.wakes told hp), rfl⟩

theorem wp_doze (hp : cfg.port ≠ .python) : (flow V Tid cfg).wp t (doze cfg)
    (fun _ g => g = .parks .disarm true) (.parks .word true) := by
  refine wp_move_seq fun zero => ⟨_, .park (.word true zero), ?_⟩
  cases zero with
  | false => rfl
  | true =>
    simp only [if_true, if_neg hp]
    refine wp_move_seq fun running => ⟨_, .park (.run true running), ?_⟩
    cases running with
    | false => rfl
    | true => exact wp_wait true

theorem wp_dozeIf (hp : cfg.port = .python) (told : Bool) :
    (flow V Tid cfg).wp t (dozeIf cfg told) (fun _ g => g = .parks .disarm told)
      (if told then .parks .word told else .parks .disarm told) := by
  cases told with
  | false => rfl
  | true =>
    refine wp_move_seq fun zero => ⟨_, .park (.word true zero), ?_⟩
    cases zero with
    | false => rfl
    | true =>
      have h : (flow V Tid cfg).wp t (wait cfg) (fun _ g => g = .parks .disarm true) _ :=
        wp_wait true
      rw [if_neg (by rw [hp]; nofun)] at h
      simpa only [hp, if_true] using h

theorem wp_park : (flow V Tid cfg).wp t (park cfg) (fun _ g => g = .top) (parkAt cfg) := by
  unfold park
  split
  · rename_i hp
    rw [show (parkAt cfg : Place V Tid) = .parks .lock true by unfold parkAt; rw [hp]]
    refine wp_move_seq fun _ => ⟨_, .park (.lock true), ?_⟩
    refine wp_move_seq fun _ => ⟨_, .park (.arm true), ?_⟩
    refine wp_seq (wp_mono (wp_doze (by rw [hp]; nofun)) fun _ g' he => ?_)
    subst he
    refine wp_move_seq fun _ => ⟨_, .park (.disarm true), ?_⟩
    simp only [hp, reduceCtorEq, if_false]
    exact wp_move fun _ => ⟨_, .park (.unlock true), rfl⟩
  · rename_i hp
    rw [show (parkAt cfg : Place V Tid) = .parks .arm true by unfold parkAt; rw [hp]]
    refine wp_move_seq fun _ => ⟨_, .park (.arm true), ?_⟩
    refine wp_seq (wp_mono (wp_doze (by rw [hp]; nofun)) fun _ g' he => ?_)
    subst he
    refine wp_move fun _ => ⟨_, .park (.disarm true), ?_⟩
    exact if_pos hp
  · rename_i hp
    rw [show (parkAt cfg : Place V Tid) = .parks .eval true by unfold parkAt; rw [hp]]
    refine wp_move_seq fun told => ⟨_, .park (.eval told true), ?_⟩
    refine wp_move_seq fun _ => ⟨_, .park (.lock told), ?_⟩
    refine wp_move_seq fun _ => ⟨_, .park (.arm told), ?_⟩
    refine wp_seq (wp_mono (wp_dozeIf hp told) fun _ g' he => ?_)
    subst he
    refine wp_move_seq fun _ => ⟨_, .park (.disarm told), ?_⟩
    simp only [hp, reduceCtorEq, if_false]
    exact wp_move fun _ => ⟨_, .park (.unlock told), rfl⟩

/-! ## The loops -/

theorem wp_drainPass (r : Nat) : ∃ g₀ : Place V Tid, DrainMove cfg .top .runningLoad true g₀ ∧
    (flow V Tid cfg).wp t (drainPass cfg r) (fun n g => g = if 0 < n then .top else .asked) g₀ := by
  let next : Nat → Place V Tid := fun n => if 0 < n then .top else .asked
  have hn : ∀ n, PassEnds cfg .main n (next n) := fun n => rfl
  unfold drainPass
  cases hs : cfg.scan with
  | fullScan => exact ⟨_, .runsFull r hs, wp_drainFull hn (.inr hs) r⟩
  | bitmap =>
    rw [if_pos rfl]
    unfold drainBitmap
    split
    · rename_i hp
      refine ⟨_, .runsIds hs hp, ?_⟩
      refine wp_seq (wp_mono (wp_activeIds (x := fun ids => enters cfg next .main (turn r ids) 0)
        fun ids => ?_) fun ids g' he => ?_)
      · exact ⟨r, enters_spec hn _ _⟩
      · subst he
        exact wp_drainEach hn rfl hs _ 0
    · rename_i hp
      refine ⟨_, .runsWord hs hp, ?_⟩
      refine wp_move_seq fun w => ⟨_, .drain (.word w r (enters_spec hn _ _)), ?_⟩
      exact wp_drainEach hn rfl hs _ 0

theorem wp_settle (r : Nat) : ∃ g₀ : Place V Tid, Settles cfg g₀ ∧
    (flow V Tid cfg).wp t (settle cfg r) (fun _ g => g = first cfg .final 0) g₀ := by
  have hn : ∀ n, PassEnds cfg .settle n
      ((fun n => if 0 < n then .top else parkAt cfg) n : Place V Tid) := fun n => rfl
  have rest : (flow V Tid cfg).wp t (do
      let n ← drainFull cfg .pass r
      if 0 < n then proc (.consumeLoop 0 r)
      else do
        park cfg
        proc (.consumeLoop 0 r)) (fun _ g => g = first cfg .final 0) (first cfg .settle r) := by
    refine wp_seq (wp_mono (wp_drainFull hn (.inl nofun) r) fun n g' he => ?_)
    subst he
    dsimp only
    split
    · exact wp_proc rfl fun _ _ h => h
    · refine wp_seq (wp_mono wp_park fun _ g' he => ?_)
      subst he
      exact wp_proc rfl fun _ _ h => h
  unfold settle Settles
  cases hs : cfg.scan with
  | fullScan => exact ⟨_, ⟨r, rfl⟩, rest⟩
  | bitmap =>
    refine ⟨_, rfl, ?_⟩
    refine wp_seq (wp_mono (wp_clearEmpty ⟨r, rfl⟩) fun _ g' he => ?_)
    subst he
    exact rest

theorem wp_consumeLoop (idle r : Nat) : (flow V Tid cfg).wp t (consumeLoop cfg idle r)
    (fun _ g => g = first cfg .final 0) .top := by
  refine wp_move_seq fun running => ?_
  cases running with
  | false => exact ⟨_, .drain .stops, rfl⟩
  | true =>
    obtain ⟨g₀, hm, hpass⟩ := wp_drainPass (V := V) (t := t) r
    refine ⟨g₀, .drain hm, ?_⟩
    refine wp_seq (wp_mono hpass fun n g' he => ?_)
    subst he
    dsimp only
    split
    · exact wp_proc rfl fun _ _ h => h
    · by_cases hp : pauses cfg (idle + 1) = true
      · refine wp_seq (wp_mono (wp_reclaimAsked (.inl rfl)) fun _ g' he => ?_)
        subst he
        rw [if_pos hp]
        exact wp_proc rfl fun _ _ h => h
      · obtain ⟨g₁, hset, hw⟩ :=
          wp_settle (V := V) (t := t) ((r + 1) % cfg.producers)
        refine wp_seq (wp_mono (wp_reclaimAsked (.inr hset)) fun _ g' he => ?_)
        subst he
        rw [if_neg hp]
        exact hw

theorem wp_finalLoop (d : Drain) (r : Nat) {x : Place V Tid} (hc : checks cfg d)
    (hd : ∀ n, PassEnds cfg d n
      (if 0 < n then first cfg d ((r + 1) % cfg.producers) else x))
    (hpre : procPre cfg (.finalLoop d.site ((r + 1) % cfg.producers))
      (first cfg d ((r + 1) % cfg.producers) : Place V Tid))
    (hpost : ∀ g' : Place V Tid, procPost cfg (.finalLoop d.site ((r + 1) % cfg.producers))
      (first cfg d ((r + 1) % cfg.producers)) () g' → g' = x) :
    (flow V Tid cfg).wp t (finalLoop cfg d.site r) (fun _ g => g = x) (first cfg d r) := by
  refine wp_seq (wp_mono (wp_drainFull hd hc r) fun n g' he => ?_)
  subst he
  dsimp only
  split
  · exact wp_proc hpre fun _ g' h => hpost g' h
  · rfl

theorem wp_consume : (flow V Tid cfg).wp t (consume cfg)
    (fun r g => endPlace cfg (.consume : Call V) r g) .top := by
  have hend : ReclaimEnds cfg true (.exit : Place V Tid) := rfl
  have spec := reclaimsAt_spec hend (List.range cfg.producers) false
  refine wp_proc_seq rfl fun _ g' he => ?_
  obtain rfl : g' = first cfg .final 0 := he
  refine wp_proc_seq (.inl ⟨rfl, rfl⟩) fun _ g' he => ?_
  obtain ⟨-, rfl⟩ | ⟨h, -⟩ := he
  · refine wp_proc_seq (.inr ⟨rfl, rfl⟩) fun _ g' he => ?_
    obtain ⟨h, -⟩ | ⟨-, rfl⟩ := he
    · cases h
    · refine wp_seq (wp_mono (wp_flush (.drain (.lastFlushed spec))
        (fun n hn => .drain (.lastFlush n hn)) (.drain (.lastWrite spec))) fun _ g' he => ?_)
      subst he
      refine wp_seq (wp_mono (wp_reclaim hend) fun _ g' he => ?_)
      exact ⟨rfl, he⟩
  · cases h

variable (V Tid cfg) in
theorem follows : (flow V Tid cfg).Follows where
  code t c := by
    cases c with
    | start => exact wp_start
    | stop mode => exact wp_stop mode
    | register => exact wp_register
    | push h v => exact wp_push h v
    | retire h => exact wp_retire h
    | consume => exact wp_consume
  body t p g h := by
    cases p with
    | quiesceLoop =>
      obtain rfl : g = .stopping := h
      exact wp_quiesceLoop
    | registerLoop =>
      obtain ⟨hp, rfl⟩ : cfg.port = .python ∧ g = .out := h
      exact wp_registerLoop hp
    | drainLoop site i got =>
      obtain ⟨k, rfl, rfl, rfl⟩ := h
      refine wp_mono (wp_drainLoop k got) fun r g' he k' hk => ?_
      rw [← loopAt_inj hk]
      exact he
    | consumeLoop idle r =>
      obtain rfl : g = .top := h
      exact wp_consumeLoop idle r
    | finalLoop site r =>
      obtain ⟨rfl, rfl⟩ | ⟨rfl, rfl⟩ := h
      · refine wp_mono (wp_finalLoop .final r (x := first cfg .last 0) (.inl nofun)
          (fun n => ?_) (.inl ⟨rfl, rfl⟩) fun g' h => ?_) fun _ g' he => .inl ⟨rfl, he⟩
        · unfold PassEnds
          dsimp only
          split
          · exact ⟨_, rfl⟩
          · rfl
        · obtain ⟨-, rfl⟩ | ⟨h, -⟩ := h
          · rfl
          · cases h
      · refine wp_mono (wp_finalLoop .last r (x := .lastFlush) (.inl nofun)
          (fun n => ?_) (.inr ⟨rfl, rfl⟩) fun g' h => ?_) fun _ g' he => .inr ⟨rfl, he⟩
        · unfold PassEnds
          dsimp only
          split
          · exact ⟨_, rfl⟩
          · rfl
        · obtain ⟨h, -⟩ | ⟨-, rfl⟩ := h
          · cases h
          · rfl

end
end Katas.Weir.Pipeline
