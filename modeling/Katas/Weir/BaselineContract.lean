import Katas.Weir.BaselineFlow

/-!
# The baselines and the contract

A push stands between its look at `accept` and its send, and a stop closes the
channel without waiting for it: the send then panics. The mutex's consumer
ends as soon as it reads `running` as false, and leaves what the buffer holds.
`keepsContract` excludes both, and the contract holds of the other runs.
-/
namespace Katas.Weir.Baseline
open Katas.Conc Flow

/-! ## What is known -/

section inv
variable {V Tid : Type} (cfg : Config)

/-- No push stands between its look at `accept` and its send when the channel
is closed; and when the mutex's consumer finds that it is to end, the buffer
holds nothing that was accepted before the stop. -/
def keepsContract (_ : Tid) (a : Act V) (s : State V Tid) : Prop :=
  match a with
  | .closeCh => ∀ t, s.between t = false
  | .runningLoad => s.running = false → ∀ l, s.before = some l → ∀ e ∈ l, e ∉ s.queue
  | _ => True

/-- What was accepted before the stop is written. -/
def WrittenBefore (s : State V Tid) : Prop := ∃ l, s.before = some l ∧ ∀ e ∈ l, e ∈ s.sink

/-- The consumer is started. -/
def Launched (s : State V Tid) : Prop := s.life ≠ .fresh ∧ ∀ t, s.life ≠ .starting t

/-- What a goroutine knows by its place. -/
def At (s : State V Tid) (t : Tid) : Place V → Prop
  | .starting | .arming => s.life = .starting t
  | .armed => s.life = .starting t ∧ (cfg.kind = .mutex → s.running = true)
  | .started => Launched s
  | .stopping => s.before ≠ none
  | .halting => s.before ≠ none ∧ s.once = .doing t ∧ s.closed = false
  | .refusing => s.before ≠ none ∧ s.once = .doing t ∧ s.closed = false ∧ s.accept = false
  | .joining => s.before ≠ none ∧ s.once = .doing t
  | .joined => s.once = .doing t ∧ s.done = true
  | .ended => s.done = true
  | .offers _ => s.between t = true
  | .told v | .pushed v => (s.me t, v) ∈ s.all
  | .top | .takes => s.life = .consuming t ∧ s.done = false ∧ s.batch = []
  | .waits => s.life = .consuming t ∧ s.done = false ∧ s.batch = [] ∧
      (s.handed = none → s.waiting = true ∧ s.queue = []) ∧ cfg.kind = .chan
  | .fill | .room | .full | .write => s.life = .consuming t ∧ s.done = false
  | .exit => s.life = .consuming t ∧ s.done = false ∧ WrittenBefore s
  | .exited => s.life = .consuming t
  | _ => True

/-- What is known of the state alone. -/
structure StateFacts (s : State V Tid) : Prop where
  accepted : ∀ e ∈ s.accepted, e ∈ s.all
  before : ∀ l, s.before = some l → ∀ e ∈ l, e ∈ s.accepted
  launched : s.ready = true → Launched s
  begun : s.before ≠ none → s.ready = true
  closed : s.closed = true → s.before ≠ none ∧ s.accept = false ∧ s.once ≠ .fresh
  running : cfg.kind = .mutex → Launched s → s.running = true ∨ s.before ≠ none
  early : (∀ t, s.life ≠ .consuming t) → s.life ≠ .over → s.done = false ∧ s.batch = []
  done : s.done = true → WrittenBefore s
  once : s.once = .done → s.done = true
  doing : ∀ t, s.once = .doing t → s.before ≠ none
  stopped : s.stopped = true → s.done = true

structure ContractInv (s : State V Tid) (γ : Tid → Place V) : Prop where
  facts : StateFacts cfg s
  at_ : ∀ t, At cfg s t (γ t)
  meets : s.waiting = true ∨ s.handed ≠ none → ∃ t, γ t = .waits
  met : s.waiting = true → s.handed = none
  shut : s.closed = true → ∀ t v, γ t ≠ .offers v

/-- What a step leaves to goroutine `u`, whose step it is not. -/
structure LeavesTo (s s' : State V Tid) (u : Tid) : Prop where
  me : s'.calls u = s.calls u
  launched : Launched s → Launched s'
  starting : s.life = .starting u →
    s'.life = .starting u ∧ (s.running = true → s'.running = true)
  before : s.before ≠ none → s'.before = s.before
  once : s.once = .doing u → s'.once = .doing u ∧ (s.closed = false → s'.closed = false) ∧
    (s.accept = false → s'.accept = false)
  done : s.done = true → s'.done = true
  between : s.between u = true → s'.between u = true
  all : ∀ e ∈ s.all, e ∈ s'.all
  consumer : s.life = .consuming u → s'.life = .consuming u ∧ s'.done = s.done ∧
    s'.batch = s.batch ∧ s'.sink = s.sink ∧
    (s'.handed = none → s.handed = none ∧
      (s.waiting = true → s.queue = [] → s'.waiting = true ∧ s'.queue = []))

variable {cfg} {s s' : State V Tid} {u : Tid} {g : Place V}

theorem WrittenBefore.leaves (h : WrittenBefore s) (hb : s.before ≠ none → s'.before = s.before)
    (hs : ∀ e ∈ s.sink, e ∈ s'.sink) : WrittenBefore s' := by
  obtain ⟨l, hl, hin⟩ := h
  exact ⟨l, (hb (by rw [hl]; nofun)).trans hl, fun e he => hs e (hin e he)⟩

theorem At.leaves (h : At cfg s u g) (hk : LeavesTo s s' u) : At cfg s' u g := by
  have hne : s.before ≠ none → s'.before ≠ none := fun hb => by rwa [hk.before hb]
  cases g with
  | starting | arming => exact (hk.starting h).1
  | armed => exact ⟨(hk.starting h.1).1, fun hm => (hk.starting h.1).2 (h.2 hm)⟩
  | started => exact hk.launched h
  | stopping => exact hne h
  | halting =>
    obtain ⟨h1, h2, h3⟩ := h
    obtain ⟨k1, k2, -⟩ := hk.once h2
    exact ⟨hne h1, k1, k2 h3⟩
  | refusing =>
    obtain ⟨h1, h2, h3, h4⟩ := h
    obtain ⟨k1, k2, k3⟩ := hk.once h2
    exact ⟨hne h1, k1, k2 h3, k3 h4⟩
  | joining => exact ⟨hne h.1, (hk.once h.2).1⟩
  | joined => exact ⟨(hk.once h.1).1, hk.done h.2⟩
  | ended => exact hk.done h
  | offers v => exact hk.between h
  | told v | pushed v =>
    have hme : s'.me u = s.me u := by unfold State.me; rw [hk.me]
    show (s'.me u, v) ∈ s'.all
    rw [hme]
    exact hk.all _ h
  | top | takes =>
    obtain ⟨h1, h2, h3⟩ := h
    obtain ⟨k1, k2, k3, -⟩ := hk.consumer h1
    exact ⟨k1, k2.trans h2, k3.trans h3⟩
  | waits =>
    obtain ⟨h1, h2, h3, h4, h5⟩ := h
    obtain ⟨k1, k2, k3, -, k5⟩ := hk.consumer h1
    refine ⟨k1, k2.trans h2, k3.trans h3, fun hn => ?_, h5⟩
    obtain ⟨hn, hw⟩ := k5 hn
    exact hw (h4 hn).1 (h4 hn).2
  | fill | room | full | write =>
    obtain ⟨k1, k2, -⟩ := hk.consumer h.1
    exact ⟨k1, k2.trans h.2⟩
  | exit =>
    obtain ⟨h1, h2, h3⟩ := h
    obtain ⟨k1, k2, -, k4, -⟩ := hk.consumer h1
    exact ⟨k1, k2.trans h2, h3.leaves hk.before fun e he => by rwa [k4]⟩
  | exited => exact (hk.consumer h).1
  | _ => trivial

/-- Two goroutines that consume are one. -/
theorem consuming_one {t : Tid} (ht : s.life = .consuming t) (hu : s.life = .consuming u) :
    u = t := by
  rw [ht] at hu
  cases hu
  rfl

@[simp] theorem State.mem_all {e : Item V Tid} : e ∈ s.all ↔
    e ∈ s.sink ∨ e ∈ s.batch ∨ s.handed = some e ∨ e ∈ s.queue := by
  simp [State.all]

/-- A step that moves events on, and leaves who starts and who stops. -/
structure MovesEvents (s s' : State V Tid) : Prop where
  same : s' = { s with
    queue := s'.queue, waiting := s'.waiting, handed := s'.handed, batch := s'.batch
    sink := s'.sink, between := s'.between, nextID := s'.nextID, pushed := s'.pushed
    dropped := s'.dropped, consumed := s'.consumed }
  all : ∀ e ∈ s.all, e ∈ s'.all
  sink : ∀ e ∈ s.sink, e ∈ s'.sink
  batch : (∃ t, s.life = .consuming t) ∨ s'.batch = s.batch

theorem StateFacts.moved (h : StateFacts cfg s) (hc : MovesEvents s s') : StateFacts cfg s' := by
  obtain ⟨h1, h2, h3, h4, h5, h6, hearly, h7, h8, h9, h10⟩ := h
  obtain ⟨hs, hall, hsink, hbatch⟩ := hc
  rw [hs] at hsink hall hbatch ⊢
  refine ⟨fun e he => hall e (h1 e he), h2, h3, h4, h5, h6, fun hc ho => ?_,
    fun hd => (h7 hd).leaves (fun _ => rfl) hsink, h8, h9, h10⟩
  obtain ⟨t, ht⟩ | hbatch := hbatch
  · exact absurd ht (hc t)
  · exact ⟨(hearly hc ho).1, hbatch.trans (hearly hc ho).2⟩

theorem LeavesTo.refl (s : State V Tid) (u : Tid) : LeavesTo s s u :=
  ⟨rfl, id, fun h => ⟨h, id⟩, fun _ => rfl, fun h => ⟨h, id, id⟩, id, id, fun _ h => h,
    fun h => ⟨h, rfl, rfl, rfl, fun hn => ⟨hn, fun hw hq => ⟨hw, hq⟩⟩⟩⟩

theorem MovesEvents.leaves (hc : MovesEvents s s') (hbt : s.between u = true → s'.between u = true)
    (hcons : s.life = .consuming u → s'.batch = s.batch ∧ s'.sink = s.sink ∧
      (s'.handed = none → s.handed = none ∧
        (s.waiting = true → s.queue = [] → s'.waiting = true ∧ s'.queue = []))) :
          LeavesTo s s' u := by
  obtain ⟨hs, hall, -, -⟩ := hc
  rw [hs] at hall hbt hcons ⊢
  exact { LeavesTo.refl s u with
    all := hall
    between := hbt
    consumer := fun h => ⟨h, rfl, hcons h⟩ }

end inv

section steps
variable {V Tid : Type} [DecidableEq Tid] {cfg : Config} {s s' : State V Tid} {γ : Tid → Place V}
  {t : Tid} {g : Place V}

theorem upd_at {P : Tid → Place V → Prop} (ht : P t g) (hu : ∀ u, u ≠ t → P u (γ u)) (u : Tid) :
    P u (upd γ t g u) := by
  by_cases h : u = t
  · subst h; rw [upd_self]; exact ht
  · rw [upd_ne _ _ h]; exact hu u h

theorem ContractInv.moves_events (h : ContractInv cfg s γ) (hc : MovesEvents s s')
    (hat : At cfg s' t g)
    (hbt : ∀ u, u ≠ t → s.between u = true → s'.between u = true)
    (hcons : ∀ u, u ≠ t → s.life = .consuming u → s'.batch = s.batch ∧ s'.sink = s.sink ∧
      (s'.handed = none → s.handed = none ∧
        (s.waiting = true → s.queue = [] → s'.waiting = true ∧ s'.queue = [])))
    (hmeets : s'.waiting = true ∨ s'.handed ≠ none → ∃ u, upd γ t g u = .waits)
    (hmet : s'.waiting = true → s'.handed = none)
    (hshut : s.closed = true → ∀ v, g ≠ .offers v) : ContractInv cfg s' (upd γ t g) := by
  refine ⟨h.facts.moved hc,
    upd_at hat fun u hu => (h.at_ u).leaves (hc.leaves (hbt u hu) (hcons u hu)), hmeets, hmet,
    fun hcl => ?_⟩
  have hcl : s.closed = true := by rwa [hc.same] at hcl
  exact upd_at (P := fun _ g => ∀ v, g ≠ .offers v) (hshut hcl) fun u _ => h.shut hcl u

/-- The receiver that waits goes on to, unless the step is its own. -/
theorem ContractInv.meets_still (h : ContractInv cfg s γ) (hγ : γ t ≠ .waits)
    (hm : s.waiting = true ∨ s.handed ≠ none) : ∃ u, upd γ t g u = .waits := by
  obtain ⟨u, hu⟩ := h.meets hm
  refine ⟨u, ?_⟩
  rw [upd_ne]
  · exact hu
  · rintro rfl
    exact hγ hu

/-- A step that does not touch what a waiting receiver sees. -/
theorem ContractInv.moves_unseen (h : ContractInv cfg s γ) (hc : MovesEvents s s')
    (hw : s'.waiting = s.waiting ∧ s'.handed = s.handed) (hγ : γ t ≠ .waits) (hat : At cfg s' t g)
    (hbt : ∀ u, u ≠ t → s'.between u = s.between u)
    (hcons : s.life = .consuming t ∨ s'.batch = s.batch ∧ s'.sink = s.sink ∧ s'.queue = s.queue)
    (hshut : s.closed = true → ∀ v, g ≠ .offers v) : ContractInv cfg s' (upd γ t g) := by
  obtain ⟨hw, hh⟩ := hw
  refine h.moves_events hc hat (fun u hu => by rw [hbt u hu]; exact id) (fun u hu hlife => ?_) ?_
    ?_ hshut
  · obtain hcons | ⟨h1, h2, h3⟩ := hcons
    · exact absurd (consuming_one hcons hlife) hu
    · rw [hw, hh, h3]
      exact ⟨h1, h2, fun hn => ⟨hn, fun hw hq => ⟨hw, hq⟩⟩⟩
  · rw [hw, hh]
    exact h.meets_still hγ
  · rw [hw, hh]
    exact h.met

/-- A step that counts, or only looks. -/
theorem ContractInv.counts (h : ContractInv cfg s γ)
    (hs : s' = { s with
      nextID := s'.nextID, pushed := s'.pushed, dropped := s'.dropped, consumed := s'.consumed })
    (hγ : γ t ≠ .waits) (hat : At cfg s' t g) (hg : ∀ v, g ≠ .offers v) :
    ContractInv cfg s' (upd γ t g) := by
  obtain ⟨i, m, d, c, rfl⟩ : ∃ i m d c,
      s' = { s with nextID := i, pushed := m, dropped := d, consumed := c } := ⟨_, _, _, _, hs⟩
  exact h.moves_unseen ⟨rfl, fun _ h => h, fun _ h => h, .inr rfl⟩ ⟨rfl, rfl⟩ hγ hat
    (fun _ _ => rfl) (.inr ⟨rfl, rfl, rfl⟩) fun _ => hg

/-- A step that starts or stops, and leaves the events where they are. -/
theorem ContractInv.controls (h : ContractInv cfg s γ) (hf : StateFacts cfg s')
    (hat : At cfg s' t g)
    (hleaves : ∀ u, u ≠ t → LeavesTo s s' u) (hw : s'.waiting = s.waiting ∧ s'.handed = s.handed)
    (hγ : γ t ≠ .waits) (hg : ∀ v, g ≠ .offers v)
    (hshut : s'.closed = true → ∀ u v, γ u ≠ .offers v) : ContractInv cfg s' (upd γ t g) := by
  obtain ⟨hw, hh⟩ := hw
  refine ⟨hf, upd_at hat fun u hu => (h.at_ u).leaves (hleaves u hu), ?_, ?_,
    fun hcl => upd_at (P := fun _ g => ∀ v, g ≠ .offers v) hg fun u _ => hshut hcl u⟩
  · rw [hw, hh]
    exact h.meets_still hγ
  · rw [hw, hh]
    exact h.met

omit [DecidableEq Tid] in
/-- While `Start` is in progress no `Stop` has been called. -/
theorem StateFacts.not_begun (h : StateFacts cfg s) (hl : s.life = .starting t) :
    s.before = none := by
  by_contra hb
  exact (h.launched (h.begun hb)).2 t hl

/-! ## Every step -/

section
omit [DecidableEq Tid]

theorem launched_of_consuming (h : s.life = .consuming t) : Launched s := by
  rw [Launched, h]
  exact ⟨nofun, nofun⟩

/-- Nobody but the consumer waits for a hand-over. -/
theorem ContractInv.alone (h : ContractInv cfg s γ) (hl : s.life = .consuming t)
    (hγ : γ t ≠ .waits) :
    s.waiting = false ∧ s.handed = none := by
  have hno : ¬ (s.waiting = true ∨ s.handed ≠ none) := by
    intro hm
    obtain ⟨u, hu⟩ := h.meets hm
    have hat := h.at_ u
    rw [hu] at hat
    exact hγ (consuming_one hl hat.1 ▸ hu)
  simpa using hno

theorem ContractInv.mutex_alone (h : ContractInv cfg s γ) (hk : cfg.kind = .mutex) :
    s.waiting = false ∧ s.handed = none := by
  have hno : ¬ (s.waiting = true ∨ s.handed ≠ none) := by
    intro hm
    obtain ⟨u, hu⟩ := h.meets hm
    have hat := h.at_ u
    rw [hu] at hat
    exact nomatch hk.symm.trans hat.2.2.2.2
  simpa using hno

/-- The consumer may end: what was accepted before the stop is written. -/
theorem StateFacts.written (h : StateFacts cfg s) (hb : s.before ≠ none) (hbatch : s.batch = [])
    (hh : s.handed = none) (hq : ∀ l, s.before = some l → ∀ e ∈ l, e ∉ s.queue) :
      WrittenBefore s := by
  obtain ⟨l, hl⟩ := Option.ne_none_iff_exists'.mp hb
  refine ⟨l, hl, fun e he => ?_⟩
  have hall := h.accepted e (h.before l hl e he)
  simpa [hbatch, hh, hq l hl e he] using hall

end

/-- A push that offers its event to the channel. -/
theorem ContractInv.sends (h : ContractInv cfg s γ) {v : V} (hγ : γ t = .offers v) {n : Nat}
    {ok : Bool}
    (hs : sem cfg t (.send v) n s = some (s', ok)) :
    ContractInv cfg s' (upd γ t (if ok then .told v else .missed)) := by
  have hmeets := h.meets_still (g := if ok then .told v else .missed) (by rw [hγ]; nofun)
  simp only [sem] at hs
  split at hs
  · cases hs
  · rename_i hopen
    split at hs
    · -- the receiver waits, and is handed the event
      rename_i hw
      cases hs
      have hnone := h.met hw
      refine h.moves_events ⟨rfl, ?_, fun _ h => h, .inr rfl⟩ ?_
        (fun u hu hb => (upd_ne _ _ hu).trans hb)
        (fun u _ _ => ⟨rfl, rfl, nofun⟩) (fun _ => hmeets (.inl hw)) nofun
        fun hcl => absurd hcl hopen
      · intro e he
        simp only [State.mem_all, hnone] at he ⊢
        grind
      · exact State.mem_all.mpr (.inr (.inr (.inl rfl)))
    · rename_i hw
      split at hs
      · cases hs
        refine h.moves_events ⟨rfl, ?_, fun _ h => h, .inr rfl⟩ ?_
          (fun u hu hb => (upd_ne _ _ hu).trans hb)
          (fun u _ _ => ⟨rfl, rfl, fun hn => ⟨hn, fun hw' => absurd hw' hw⟩⟩) hmeets h.met
          fun hcl => absurd hcl hopen
        · intro e he
          simp only [State.mem_all, List.mem_append] at he ⊢
          grind
        · exact State.mem_all.mpr (.inr (.inr (.inr (by simp [State.me]))))
      · cases hs
        exact h.moves_unseen ⟨rfl, fun _ h => h, fun _ h => h, .inr rfl⟩ ⟨rfl, rfl⟩
          (by rw [hγ]; nofun) trivial
          (fun u hu => upd_ne _ _ hu) (.inr ⟨rfl, rfl, rfl⟩) nofun

/-- A push that offers its event to the guarded buffer. -/
theorem ContractInv.puts (h : ContractInv cfg s γ) {v : V} (hγ : γ t = .offers v) {n : Nat}
    {ok : Bool}
    (hk : cfg.kind = .mutex) (hs : sem cfg t (.put v) n s = some (s', ok)) :
    ContractInv cfg s' (upd γ t (if ok then .told v else .missed)) := by
  obtain ⟨hw, -⟩ := h.mutex_alone hk
  simp only [sem] at hs
  split at hs
  · cases hs
    exact h.moves_unseen ⟨rfl, fun _ h => h, fun _ h => h, .inr rfl⟩ ⟨rfl, rfl⟩ (by rw [hγ]; nofun)
      trivial
      (fun u hu => upd_ne _ _ hu) (.inr ⟨rfl, rfl, rfl⟩) nofun
  · cases hs
    refine h.moves_events ⟨rfl, ?_, fun _ h => h, .inr rfl⟩ ?_
      (fun u hu hb => (upd_ne _ _ hu).trans hb)
      (fun u _ _ => ⟨rfl, rfl, fun hn => ⟨hn, fun hw' => absurd (hw.symm.trans hw') nofun⟩⟩)
      (h.meets_still (by rw [hγ]; nofun)) h.met nofun
    · intro e he
      simp only [State.mem_all, List.mem_append] at he ⊢
      grind
    · exact State.mem_all.mpr (.inr (.inr (.inr (by simp [State.me]))))

/-- The consumer's receives. -/
theorem ContractInv.receives (h : ContractInv cfg s γ) {n : Nat} {r : Received} (hγ : γ t = .top)
    (hk : cfg.kind = .chan) (hs : sem cfg t .recv n s = some (s', r)) :
    ContractInv cfg s' (upd γ t r.place) := by
  have hat := h.at_ t
  rw [hγ] at hat
  obtain ⟨hl, hd, hbatch⟩ := hat
  obtain ⟨hw, hh⟩ := h.alone hl (by rw [hγ]; nofun)
  simp only [sem] at hs
  split at hs
  · rename_i e rest hq
    cases hs
    refine h.moves_unseen ⟨rfl, ?_, fun _ h => h, .inl ⟨t, hl⟩⟩ ⟨rfl, rfl⟩ (by rw [hγ]; nofun)
      ⟨hl, hd⟩ (fun _ _ => rfl) (.inl hl) nofun
    intro x hx
    simp only [State.mem_all, hq, List.mem_append, List.mem_cons, List.not_mem_nil] at hx ⊢
    grind
  · rename_i hq
    split at hs
    · rename_i hcl
      cases hs
      refine h.counts rfl (by rw [hγ]; nofun) ⟨hl, hd, ?_⟩ nofun
      exact h.facts.written (h.facts.closed hcl).1 hbatch hh fun l _ e _ => by rw [hq]; nofun
    · cases hs
      refine h.moves_events ⟨rfl, fun _ h => h, fun _ h => h, .inr rfl⟩
        ⟨hl, hd, hbatch, fun _ => ⟨rfl, hq⟩, hk⟩
        (fun _ _ h => h) (fun u hu hlife => absurd (consuming_one hl hlife) hu)
        (fun _ => ⟨t, upd_self _ _ _⟩) (fun _ => hh) nofun

theorem ContractInv.wakes (h : ContractInv cfg s γ) {n : Nat} {got : Bool} (hγ : γ t = .waits)
    (hs : sem cfg t .wake n s = some (s', got)) :
    ContractInv cfg s' (upd γ t (if got then .fill else .exit)) := by
  have hat := h.at_ t
  rw [hγ] at hat
  obtain ⟨hl, hd, hbatch, hwait, -⟩ := hat
  simp only [sem] at hs
  split at hs
  · rename_i e hh
    have hw : s.waiting = false := by
      cases hw : s.waiting with
      | false => rfl
      | true => rw [h.met hw] at hh; cases hh
    cases hs
    refine h.moves_events ⟨rfl, ?_, fun _ h => h, .inl ⟨t, hl⟩⟩ ⟨hl, hd⟩ (fun _ _ h => h)
      (fun u hu hlife => absurd (consuming_one hl hlife) hu) ?_ (fun _ => rfl) nofun
    · intro x hx
      simp only [State.mem_all, hh, List.mem_append, List.mem_cons, List.not_mem_nil,
        Option.some.injEq] at hx ⊢
      grind
    · rintro (hm | hm)
      · exact absurd (hw.symm.trans hm) nofun
      · exact absurd rfl hm
  · rename_i hh
    split at hs
    · rename_i hcl
      cases hs
      obtain ⟨hw, hq⟩ := hwait hh
      refine h.moves_events ⟨rfl, fun _ h => h, fun _ h => h, .inr rfl⟩ ⟨hl, hd, ?_⟩
        (fun _ _ h => h)
        (fun u hu hlife => absurd (consuming_one hl hlife) hu) ?_ nofun nofun
      · exact (h.facts.written (h.facts.closed hcl).1 hbatch hh fun l _ e _ => by rw [hq]; nofun :
          WrittenBefore s)
      · rintro (hm | hm)
        · cases hm
        · exact absurd hh hm
    · cases hs

/-- The consumer is started. -/
theorem ContractInv.launches (h : ContractInv cfg s γ) (hγ : γ t = .armed) {n : Nat} {r : Unit}
    (hs : sem cfg t .goConsume n s = some (s', r)) : ContractInv cfg s' (upd γ t .started) := by
  have hat := h.at_ t
  rw [hγ] at hat
  obtain ⟨hl, hrun⟩ := hat
  cases hs
  have hlaunched : Launched { s with life := .spawned } := ⟨nofun, nofun⟩
  refine h.controls { h.facts with
      launched := fun _ => hlaunched, running := fun hm _ => .inl (hrun hm)
      early := fun _ _ => h.facts.early (by rw [hl]; nofun) (by rw [hl]; nofun) } hlaunched
    (fun u hu => { LeavesTo.refl s u with
      launched := fun _ => hlaunched
      starting := fun hl' => ?_
      consumer := fun hl' => nomatch hl.symm.trans hl' })
    ⟨rfl, rfl⟩ (by rw [hγ]; nofun) nofun h.shut
  rw [hl] at hl'
  cases hl'
  exact absurd rfl hu

/-- A stop finds out whether it is the first. -/
theorem ContractInv.onceDo (h : ContractInv cfg s γ) (hγ : γ t = .stopping) {n : Nat} {won : Bool}
    (hs : sem cfg t .onceDo n s = some (s', won)) :
    ContractInv cfg s' (upd γ t (if won then .halting else .ended)) := by
  have hb := h.at_ t
  rw [hγ] at hb
  simp only [sem] at hs
  split at hs
  · rename_i ho
    cases hs
    refine h.controls { h.facts with
        closed := fun hcl => absurd ho (h.facts.closed hcl).2.2
        once := nofun, doing := fun _ _ => hb }
      ⟨hb, rfl, ?_⟩
      (fun u _ => { LeavesTo.refl s u with once := fun ho' => nomatch ho.symm.trans ho' })
      ⟨rfl, rfl⟩ (by rw [hγ]; nofun) nofun h.shut
    cases hcl : s.closed with
    | false => rfl
    | true => exact absurd ho (h.facts.closed hcl).2.2
  · cases hs
  · rename_i ho
    cases hs
    exact h.counts rfl (by rw [hγ]; nofun) (h.facts.once ho) nofun

/-- The first stop closes the channel: no push stands between its look and its
send. -/
theorem ContractInv.closes (h : ContractInv cfg s γ) (hγ : γ t = .refusing) {n : Nat} {r : Unit}
    (hok : keepsContract t .closeCh s) (hs : sem cfg t .closeCh n s = some (s', r)) :
    ContractInv cfg s' (upd γ t .joining) := by
  have hat := h.at_ t
  rw [hγ] at hat
  obtain ⟨hb, ho, hcl, ha⟩ := hat
  simp only [sem, hcl] at hs
  cases hs
  refine h.controls { h.facts with closed := fun _ => ⟨hb, ha, by rw [ho]; nofun⟩ } ⟨hb, ho⟩
    (fun u hu => { LeavesTo.refl s u with once := fun ho' => ?_ })
    ⟨rfl, rfl⟩ (by rw [hγ]; nofun) nofun fun _ u v hu => ?_
  · rw [ho] at ho'
    cases ho'
    exact absurd rfl hu
  · have hbt := h.at_ u
    rw [hu] at hbt
    exact Bool.false_ne_true ((hok u).symm.trans hbt)

/-- The first stop ends. -/
theorem ContractInv.onceDone (h : ContractInv cfg s γ) (hγ : γ t = .joined) {n : Nat} {r : Unit}
    (hs : sem cfg t .onceDone n s = some (s', r)) : ContractInv cfg s' (upd γ t .ended) := by
  have hat := h.at_ t
  rw [hγ] at hat
  obtain ⟨ho, hd⟩ := hat
  cases hs
  refine h.controls { h.facts with
      closed := fun hcl => ⟨(h.facts.closed hcl).1, (h.facts.closed hcl).2.1, nofun⟩
      once := fun _ => hd, doing := nofun } hd
    (fun u hu => { LeavesTo.refl s u with once := fun ho' => ?_ })
    ⟨rfl, rfl⟩ (by rw [hγ]; nofun) nofun h.shut
  rw [ho] at ho'
  cases ho'
  exact absurd rfl hu

/-- A push looks whether events are accepted. -/
theorem ContractInv.accepts (h : ContractInv cfg s γ) {v : V} (hγ : γ t = .asks v) {n : Nat}
    {b : Bool} (hs : sem cfg t .acceptLoad n s = some (s', b)) :
    ContractInv cfg s' (upd γ t (if b then .offers v else .missed)) := by
  cases hs
  refine h.moves_unseen ⟨rfl, fun _ h => h, fun _ h => h, .inr rfl⟩ ⟨rfl, rfl⟩ (by rw [hγ]; nofun)
    ?_ (fun u hu => upd_ne _ _ hu) (.inr ⟨rfl, rfl, rfl⟩) fun hcl v' => ?_
  · split
    · rename_i hb
      exact (upd_self _ _ _).trans hb
    · trivial
  · rw [if_neg (by simp [(h.facts.closed hcl).2.1])]
    nofun

/-- The consumer receives what is ready, and does not wait. -/
theorem ContractInv.receives_now (h : ContractInv cfg s γ) (hγ : γ t = .room) {n : Nat} {got : Bool}
    (hs : sem cfg t .recvNow n s = some (s', got)) :
    ContractInv cfg s' (upd γ t (if got then .fill else .full)) := by
  have hat := h.at_ t
  rw [hγ] at hat
  obtain ⟨hl, hd⟩ := hat
  simp only [sem] at hs
  split at hs
  · rename_i e rest hq
    cases hs
    refine h.moves_unseen ⟨rfl, ?_, fun _ h => h, .inl ⟨t, hl⟩⟩ ⟨rfl, rfl⟩ (by rw [hγ]; nofun)
      ⟨hl, hd⟩ (fun _ _ => rfl) (.inl hl) nofun
    intro x hx
    simp only [State.mem_all, hq, List.mem_append, List.mem_cons, List.not_mem_nil] at hx ⊢
    grind
  · cases hs
    exact h.counts rfl (by rw [hγ]; nofun) ⟨hl, hd⟩ nofun

/-- The mutex's consumer takes what the buffer holds. -/
theorem ContractInv.takes (h : ContractInv cfg s γ) (hγ : γ t = .takes) {n m : Nat}
    (hs : sem cfg t .take n s = some (s', m)) :
    ContractInv cfg s' (upd γ t (if m = 0 then .top else .full)) := by
  have hat := h.at_ t
  rw [hγ] at hat
  obtain ⟨hl, hd, hbatch⟩ := hat
  cases hs
  refine h.moves_unseen ⟨rfl, ?_, fun _ h => h, .inl ⟨t, hl⟩⟩ ⟨rfl, rfl⟩ (by rw [hγ]; nofun) ?_
    (fun _ _ => rfl) (.inl hl) fun _ v => ?_
  · intro x hx
    have hsplit : x ∈ s.queue → x ∈ s.queue.take cfg.stageEvents ∨
        x ∈ s.queue.drop cfg.stageEvents := by
      rw [← List.mem_append, List.take_append_drop]
      exact id
    simp only [State.mem_all, hbatch, List.not_mem_nil] at hx ⊢
    grind
  · split
    · rename_i hn
      exact ⟨hl, hd, List.length_eq_zero_iff.mp hn⟩
    · exact ⟨hl, hd⟩
  · split <;> nofun

/-- The mutex's consumer finds that it is to end: the buffer holds nothing that was
accepted before the stop. -/
theorem ContractInv.ends (h : ContractInv cfg s γ) (hγ : γ t = .top) {n : Nat}
    (hk : cfg.kind = .mutex) (hok : keepsContract t .runningLoad s)
    (hs : sem cfg t .runningLoad n s = some (s', false)) :
    ContractInv cfg s' (upd γ t .exit) := by
  have hat := h.at_ t
  rw [hγ] at hat
  obtain ⟨hl, hd, hbatch⟩ := hat
  obtain ⟨rfl, hr⟩ : s = s' ∧ s.running = false := by
    simpa [sem, Prod.ext_iff] using hs
  obtain ⟨-, hh⟩ := h.mutex_alone hk
  have hb : s.before ≠ none := by
    obtain hrun | hb := h.facts.running hk (launched_of_consuming hl)
    · exact absurd (hr.symm.trans hrun) nofun
    · exact hb
  exact h.counts rfl (by rw [hγ]; nofun) ⟨hl, hd, h.facts.written hb hbatch hh (hok hr)⟩ nofun

theorem ContractInv.writes (h : ContractInv cfg s γ) (hγ : γ t = .write) {n : Nat} {r : Unit}
    (hs : sem cfg t .sinkWrite n s = some (s', r)) : ContractInv cfg s' (upd γ t .top) := by
  have hat := h.at_ t
  rw [hγ] at hat
  obtain ⟨hl, hd⟩ := hat
  cases hs
  refine h.moves_unseen ⟨rfl, ?_, fun _ h => List.mem_append_left _ h, .inl ⟨t, hl⟩⟩ ⟨rfl, rfl⟩
    (by rw [hγ]; nofun) ⟨hl, hd, rfl⟩ (fun _ _ => rfl) (.inl hl) nofun
  intro x hx
  simp only [State.mem_all, List.mem_append, List.not_mem_nil] at hx ⊢
  grind

/-- The consumer exits. -/
theorem ContractInv.doneClose (h : ContractInv cfg s γ) (hγ : γ t = .exit) {n : Nat} {r : Unit}
    (hs : sem cfg t .doneClose n s = some (s', r)) : ContractInv cfg s' (upd γ t .exited) := by
  have hat := h.at_ t
  rw [hγ] at hat
  obtain ⟨hl, hd, hwritten⟩ := hat
  simp only [sem, hd] at hs
  cases hs
  exact h.controls { h.facts with
      early := fun hc => absurd hl (hc t), done := fun _ => hwritten
      once := fun _ => rfl, stopped := fun _ => rfl }
    hl (fun u hu => { LeavesTo.refl s u with
      done := fun _ => rfl, consumer := fun hl' => absurd (consuming_one hl hl') hu })
    ⟨rfl, rfl⟩ (by rw [hγ]; nofun) nofun h.shut

theorem ContractInv.move (h : ContractInv cfg s γ) {a : Act V} {n : Nat} {r : Resp a}
    (hok : keepsContract t a s) (hs : sem cfg t a n s = some (s', r)) (hm : Move cfg (γ t) a r g) :
    ContractInv cfg s' (upd γ t g) := by
  have hat := h.at_ t
  generalize hγ : γ t = g₀ at hm hat
  cases hm with
  | nextAdd =>
    cases hs
    exact h.counts rfl (by rw [hγ]; nofun) trivial nofun
  | accepting =>
    cases hs
    have hb := h.facts.not_begun (hat : s.life = .starting t)
    refine h.controls { h.facts with closed := fun hcl => absurd hb (h.facts.closed hcl).1 } ?_
      (fun u _ => { LeavesTo.refl s u with once := fun ho => absurd hb (h.facts.doing u ho) })
      ⟨rfl, rfl⟩ (by rw [hγ]; nofun) (fun v => ?_) h.shut
    · split
      · exact hat
      · rename_i hk
        exact ⟨hat, fun hm => absurd hm hk⟩
    · split <;> nofun
  | running =>
    cases hs
    exact h.controls { h.facts with running := fun _ _ => .inl rfl } ⟨hat, fun _ => rfl⟩
      (fun u _ => { LeavesTo.refl s u with starting := fun hl => ⟨hl, fun _ => rfl⟩ })
      ⟨rfl, rfl⟩ (by rw [hγ]; nofun) nofun h.shut
  | goConsume => exact h.launches hγ hs
  | onceDo won => exact h.onceDo hγ hs
  | refuse =>
    obtain ⟨hb, ho, hcl⟩ := hat
    cases hs
    refine h.controls { h.facts with closed := fun hcl' => nomatch hcl.symm.trans hcl' }
      ⟨hb, ho, hcl, rfl⟩
      (fun u _ => { LeavesTo.refl s u with once := fun ho => ⟨ho, id, fun _ => rfl⟩ })
      ⟨rfl, rfl⟩ (by rw [hγ]; nofun) nofun h.shut
  | close hk => exact h.closes hγ hok hs
  | halt hk =>
    obtain ⟨hb, ho, -⟩ := hat
    cases hs
    exact h.controls { h.facts with running := fun _ _ => .inr hb } ⟨hb, ho⟩
      (fun u _ => { LeavesTo.refl s u with
        starting := fun hl => absurd (h.facts.not_begun hl) hb })
      ⟨rfl, rfl⟩ (by rw [hγ]; nofun) nofun h.shut
  | join =>
    simp only [sem] at hs
    split at hs
    · rename_i hd
      cases hs
      exact h.counts rfl (by rw [hγ]; nofun) ⟨hat.2, hd⟩ nofun
    · cases hs
  | onceDone => exact h.onceDone hγ hs
  | accept v b => exact h.accepts hγ hs
  | send v ok hk => exact h.sends hγ hs
  | put v ok hk => exact h.puts hγ hk hs
  | pushedAdd v =>
    cases hs
    exact h.counts rfl (by rw [hγ]; nofun) hat nofun
  | droppedAdd =>
    cases hs
    exact h.counts rfl (by rw [hγ]; nofun) trivial nofun
  | recv r hk => exact h.receives hγ hk hs
  | wake got => exact h.wakes hγ hs
  | batchLen m =>
    cases hs
    refine h.counts rfl (by rw [hγ]; nofun) ?_ fun v => ?_
    · split <;> exact hat
    · split <;> nofun
  | recvNow got => exact h.receives_now hγ hs
  | consumedAdd =>
    cases hs
    exact h.counts rfl (by rw [hγ]; nofun) hat nofun
  | sinkWrite => exact h.writes hγ hs
  | runs hk =>
    obtain rfl : s = s' := congrArg Prod.fst (Option.some.inj hs)
    exact h.counts rfl (by rw [hγ]; nofun) hat nofun
  | ends hk => exact h.ends hγ hk hok hs
  | take m => exact h.takes hγ hs
  | doneClose => exact h.doneClose hγ hs

theorem ContractInv.begins (h : ContractInv cfg s γ) {c : Call V} (hγ : γ t = .idle)
    (he : enabled s c = true) :
    ContractInv cfg (begin t c s) (upd γ t (startPlace c)) := by
  have hne : γ t ≠ .waits := by rw [hγ]; nofun
  have hme : ∀ u, u ≠ t → upd s.calls t (s.calls t + 1) u = s.calls u := fun u hu => upd_ne _ _ hu
  cases c with
  | start =>
    have hl : s.life = .fresh := by
      cases hl : s.life <;> simp [enabled, hl] at he
      rfl
    refine h.controls { h.facts with
        launched := fun hr => absurd hl (h.facts.launched hr).1
        running := fun _ hl => absurd rfl (hl.2 t)
        early := fun _ _ => h.facts.early (by rw [hl]; nofun) (by rw [hl]; nofun) } rfl
      (fun u hu => { LeavesTo.refl s u with
        me := hme u hu
        launched := fun hl' => absurd hl hl'.1
        starting := fun hl' => nomatch hl.symm.trans hl'
        consumer := fun hl' => nomatch hl.symm.trans hl' })
      ⟨rfl, rfl⟩ hne nofun h.shut
  | stop =>
    have hr : s.ready = true := he
    have hb : ∀ {o : Option (List (Item V Tid))} {l}, o.or (some l) ≠ none := by
      intro o l
      cases o <;> nofun
    have hsame : s.before ≠ none → s.before.or (some s.accepted) = s.before := by
      intro hb
      obtain ⟨l, hl⟩ := Option.ne_none_iff_exists'.mp hb
      rw [hl]
      rfl
    refine h.controls { h.facts with
        before := fun l hl => ?_
        begun := fun _ => hr
        closed := fun hcl => ⟨hb, (h.facts.closed hcl).2⟩
        running := fun _ _ => .inr hb
        done := fun hd => (h.facts.done hd).leaves hsame fun _ h => h
        doing := fun _ _ => hb } hb
      (fun u hu => { LeavesTo.refl s u with me := hme u hu, before := hsame })
      ⟨rfl, rfl⟩ hne nofun h.shut
    have hl : s.before.or (some s.accepted) = some l := hl
    cases hs : s.before with
    | none => rw [hs] at hl; cases hl; exact fun _ h => h
    | some l' => rw [hs] at hl; cases hl; exact h.facts.before _ hs
  | register =>
    exact h.controls { h.facts with } trivial (fun u hu =>
      { LeavesTo.refl s u with me := hme u hu })
      ⟨rfl, rfl⟩ hne nofun h.shut
  | push v =>
    exact h.controls { h.facts with } trivial (fun u hu =>
      { LeavesTo.refl s u with me := hme u hu })
      ⟨rfl, rfl⟩ hne nofun h.shut
  | consume =>
    have hl : s.life = .spawned := by
      cases hl : s.life <;> simp [enabled, hl] at he
      rfl
    have hlaunched : Launched s := by
      rw [Launched, hl]
      exact ⟨nofun, nofun⟩
    obtain ⟨hd, hbatch⟩ := h.facts.early (by rw [hl]; nofun) (by rw [hl]; nofun)
    exact h.controls { h.facts with
        launched := fun _ => ⟨nofun, nofun⟩
        running := fun hm _ => h.facts.running hm hlaunched
        early := fun hc => absurd rfl (hc t) } ⟨rfl, hd, hbatch⟩
      (fun u hu => { LeavesTo.refl s u with
        me := hme u hu
        launched := fun _ => ⟨nofun, nofun⟩
        starting := fun hl' => nomatch hl.symm.trans hl'
        consumer := fun hl' => nomatch hl.symm.trans hl' })
      ⟨rfl, rfl⟩ hne nofun h.shut

theorem ContractInv.finishes (h : ContractInv cfg s γ) {c : Call V} {r : Result}
    (he : endPlace c r (γ t)) :
    ContractInv cfg (finish t c r s) (upd γ t .idle) := by
  have hat := h.at_ t
  cases c with
  | start =>
    have hγ : γ t = .started := he
    rw [hγ] at hat
    exact h.controls { h.facts with launched := fun _ => hat, begun := fun _ => rfl } trivial
      (fun u _ => { LeavesTo.refl s u with }) ⟨rfl, rfl⟩ (by rw [hγ]; nofun) nofun h.shut
  | stop =>
    have hγ : γ t = .ended := he
    rw [hγ] at hat
    exact h.controls { h.facts with stopped := fun _ => hat } trivial
      (fun u _ => { LeavesTo.refl s u with }) ⟨rfl, rfl⟩ (by rw [hγ]; nofun) nofun h.shut
  | register =>
    have hγ : γ t = .out := he
    exact h.controls h.facts trivial (fun u _ => .refl s u) ⟨rfl, rfl⟩ (by rw [hγ]; nofun) nofun
      h.shut
  | push v =>
    obtain ⟨rfl, hγ⟩ | ⟨rfl, hγ⟩ := he
    · rw [hγ] at hat
      refine h.controls { h.facts with accepted := fun e he => ?_, before := fun l hl e he => ?_ }
        trivial (fun u _ => { LeavesTo.refl s u with }) ⟨rfl, rfl⟩ (by rw [hγ]; nofun) nofun h.shut
      · obtain he | he := List.mem_append.mp he
        · exact h.facts.accepted e he
        · rw [List.mem_singleton.mp he]
          exact hat
      · exact List.mem_append_left _ (h.facts.before l hl e he)
    · exact h.controls h.facts trivial (fun u _ => .refl s u) ⟨rfl, rfl⟩ (by rw [hγ]; nofun) nofun
        h.shut
  | consume =>
    have hγ : γ t = .exited := he
    rw [hγ] at hat
    have hl : s.life = .consuming t := hat
    exact h.controls { h.facts with
        launched := fun _ => ⟨nofun, nofun⟩
        running := fun hm _ => h.facts.running hm (launched_of_consuming hl)
        early := fun _ ho => absurd rfl ho } trivial
      (fun u hu => { LeavesTo.refl s u with
        launched := fun _ => ⟨nofun, nofun⟩
        starting := fun hl' => nomatch hl.symm.trans hl'
        consumer := fun hl' => absurd (consuming_one hl hl') hu })
      ⟨rfl, rfl⟩ (by rw [hγ]; nofun) nofun h.shut

variable (V Tid cfg) in
theorem contract_keeps : (flow V Tid cfg).Keeps keepsContract (ContractInv cfg) where
  init := by
    refine ⟨⟨nofun, nofun, nofun, fun h => absurd rfl h, nofun, fun _ h => absurd rfl h.1,
      fun _ _ => ⟨rfl, rfl⟩, nofun, nofun, nofun, nofun⟩, fun _ => trivial, ?_, nofun, nofun⟩
    rintro (h | h)
    · cases h
    · exact absurd rfl h
  begin _ h t c hi he := h.begins hi he
  move _ h t a n s' r g hok hs hm := h.move hok hs hm
  finish _ h t c r he := h.finishes he

/-! ## The contract -/

omit [DecidableEq Tid] in
/-- A channel is not closed between a push's look and its send, nor twice; the
one consumer closes `done`. -/
theorem ContractInv.safe (h : ContractInv cfg s γ) {a : Act V}
    (hm : ∀ r, ∃ g, Move cfg (γ t) a r g) :
    ¬ Panics a s := by
  have hat := h.at_ t
  intro hp
  cases a with
  | send v =>
    obtain ⟨g, hm⟩ := hm true
    generalize hγ : γ t = g₀ at hm
    cases hm
    exact h.shut hp t v hγ
  | closeCh =>
    obtain ⟨g, hm⟩ := hm ()
    generalize γ t = g₀ at hm hat
    cases hm
    exact absurd (hat.2.2.1.symm.trans hp) nofun
  | doneClose =>
    obtain ⟨g, hm⟩ := hm ()
    generalize γ t = g₀ at hm hat
    cases hm
    exact absurd (hat.2.1.symm.trans hp) nofun
  | _ => exact hp

variable (V Tid cfg) in
/-- In the runs that keep to `keepsContract` nothing panics, and what was
accepted before a stop is written when the stop returns. -/
theorem meets_contract : Contract (transport V Tid cfg) keepsContract := by
  refine .of_follows (F := flow V Tid cfg) follows (fun hr t a hm => ?_) (fun _ _ _ _ _ => id)
    fun {s γ} hr hstop e he => ?_
  · exact ((contract_keeps V Tid cfg).reach hr).safe hm
  · have h := ((contract_keeps V Tid cfg).reach hr).facts
    obtain ⟨l, hl, hin⟩ := h.done (h.stopped hstop)
    obtain ⟨l', hl', he⟩ := he
    obtain rfl : l = l' := by simpa using hl.symm.trans hl'
    exact hin e he

end steps

/-! ## Runs of three goroutines -/

instance (t : Fin 3) (a : Act Nat) (s : State Nat (Fin 3)) : Decidable (keepsContract t a s) := by
  unfold keepsContract
  split
  · infer_instance
  · exact inferInstanceAs (Decidable (s.running = false → ∀ l ∈ s.before, ∀ e ∈ l, e ∉ s.queue))
  · infer_instance

/-- The sizes of the source. -/
def Config.standard (kind : Kind) : Config := ⟨kind, 262144, 2048⟩

abbrev two (kind : Kind) : System := baseline Nat (Fin 3) (.standard kind)

/-- `t` makes a call, and takes `n` steps. -/
def does (kind : Kind) (t : Fin 3) (c : Call Nat) (n : Nat) : List (System.Label (two kind)) :=
  .invoke t c :: .replicate n (.step t 0)

/-- A push has found the channel's transport accepting; a stop closes the
channel. -/
def closesEarly : List (System.Label (two .chan)) :=
  does .chan 0 .start 3 ++ does .chan 1 .register 2 ++ does .chan 1 (.push 7) 1 ++
  does .chan 0 .stop 3

/-- The consumer has started and a push has returned true; a stop clears
`running`, and the consumer ends. -/
def endsEarly : List (System.Label (two .mutex)) :=
  does .mutex 0 .start 4 ++ does .mutex 1 .register 2 ++ does .mutex 1 (.push 7) 4 ++
  does .mutex 0 .stop 3 ++ does .mutex 2 .consume 4 ++ .replicate 3 (.step 0 0)

/-- A push sends on a closed channel; and a stop returns while the buffer holds
an event that was accepted before it was called. -/
theorem baselines_break_contract :
    ¬ Contract (transport Nat (Fin 3) (.standard .chan)) (fun _ _ _ => True) ∧
      ¬ Contract (transport Nat (Fin 3) (.standard .mutex)) (fun _ _ _ => True) := by
  constructor
  · intro h
    obtain ⟨x, hx, hp⟩ := System.reachable_of_test (Y := two .chan) closesEarly
      (fun x => decide (System.next (Y := two .chan) x 1 = some (.send 7)) && x.state.closed)
      (by decide +kernel)
    rw [Bool.and_eq_true, decide_eq_true_eq] at hp
    exact h.safe x hx.reachableIf (1 : Fin 3) (.send 7) (System.atOp_iff.mpr hp.1) hp.2
  · intro h
    obtain ⟨x, hx, hp⟩ := System.reachable_of_test (Y := two .mutex) endsEarly
      (fun x => x.state.stopped &&
        decide (x.state.before = some [((1, 2), 7)] ∧ x.state.sink = [])) (by decide +kernel)
    rw [Bool.and_eq_true, decide_eq_true_eq] at hp
    obtain ⟨hstop, hbefore, hsink⟩ := hp
    have hin : ((1, 2), 7) ∈ x.state.sink :=
      h.delivers x hx.reachableIf hstop _ ⟨_, hbefore, List.mem_singleton_self _⟩
    rw [hsink] at hin
    cases hin

end Katas.Weir.Baseline
