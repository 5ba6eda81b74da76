import Katas.Weir.Channels

/-!
# Where a goroutine of the channel pipeline stands

The flow of the pipeline's programs: which operation comes where. A pass of
the consumer is at a slot, with what it has received so far (`total`, and
`got` from this slot); `fin` tells the passes of the final drain from the
others.
-/
namespace Katas.Weir.Channel
open Katas.Conc Flow

/-- `got`: owns slot `i`, and makes the producer. `sees`: has read the slot of
`h`. `closing`: won the swap of the slot's closed flag. `released`: has
cleared it. `opened`: the push has found the pipeline open. `counting`: its
send has succeeded or not, and is not counted. `answered`: the push is
decided. `adds`: the consumer is to count its batch. -/
inductive Place (V : Type) where
  | idle
  | out
  | starting
  | got (i : Nat)
  | closes (h : Nat)
  | sees (h i : Nat)
  | closing (i : Nat)
  | releasing (i : Nat)
  | released (i : Nat)
  | pushing (h : Nat) (v : V)
  | opened (h : Nat) (v : V)
  | offers (i : Nat) (v : V)
  | counting (i : Nat) (v : V) (ok : Bool)
  | answered (v : V) (ok : Bool)
  | probe (fin : Bool) (i total : Nat)
  | length (fin : Bool) (i total : Nat)
  | top (fin : Bool) (i got total : Nat)
  | take (fin : Bool) (i got total : Nat)
  | full (fin : Bool) (i total : Nat)
  | flush (fin : Bool) (i total : Nat)
  | adds (fin : Bool) (i total : Nat)
  | write (fin : Bool) (i total : Nat)
  | flushLast (fin : Bool) (total : Nat)
  | addsLast (fin : Bool) (total : Nat)
  | writeLast (fin : Bool) (total : Nat)
  | select
  | exit
  | exited

/-- Concerns neither the slots' ownership nor the events. -/
def free {V : Type} : Act V → Bool
  | .cancelCall | .closedCas | .cancelLoad | .doneWait | .lock | .unlock | .nextLoad => true
  | _ => false

/-- Makes a slot ready for its producer. -/
def readies {V : Type} : Act V → Bool
  | .nextStore _ | .pushedStore _ | .droppedStore _ | .highStore _ _ => true
  | _ => false

/-- Keeps the high-water mark of a push. -/
def counts {V : Type} : Act V → Bool
  | .chLen .push _ | .highLoad _ | .highStore _ _ => true
  | _ => false

section
variable {V : Type} (cfg : Config)

/-- The rest of a pass, from slot `i` on. -/
def passAt (fin : Bool) (i total : Nat) : Place V :=
  if i < cfg.producers then .probe fin i total else .flushLast fin total

/-- After a pass that received `total`. -/
def passEnd (fin : Bool) (total : Nat) : Place V :=
  if 0 < total then passAt cfg fin 0 0 else if fin then .exit else .select

inductive Move : Place V → (a : Act V) → Resp a → Place V → Prop
  | free {a : Act V} {r : Resp a} : free a = true → Move .out a r .out
  | startedCas (won : Bool) : Move .out .startedCas won (if won then .starting else .out)
  | cancelSet : Move .starting .cancelSet () .starting
  | goConsume : Move .starting .goConsume () .out
  | inUseCas (i : Nat) (won : Bool) : i < cfg.producers →
      Move .out (.inUseCas i) won (if won then .got i else .out)
  | ready {i : Nat} {a : Act V} {r : Resp a} : readies a = true → Move (.got i) a r (.got i)
  | newProducer (i h : Nat) : Move (.got i) (.newProducer i) h .out
  | closeSlot (h i : Nat) : Move (.closes h) (.slotOf h) i (.sees h i)
  | slotClosedCas (h i : Nat) (won : Bool) :
      Move (.sees h i) (.slotClosedCas i h) won (if won then .closing i else .out)
  | goRelease (i : Nat) : Move (.closing i) (.goRelease i) () .out
  | releaseLen (i n : Nat) : Move (.releasing i) (.chLen .release i) n (.releasing i)
  | slotClosedStore (i : Nat) : Move (.releasing i) (.slotClosedStore i) () (.released i)
  | inUseStore (i : Nat) : Move (.released i) (.inUseStore i) () .out
  | closedLoad (h : Nat) (v : V) (closed : Bool) : Move (.pushing h v) .closedLoad closed
      (if closed then .answered v false else .opened h v)
  | pushSlot (h i : Nat) (v : V) : Move (.opened h v) (.slotOf h) i (.offers i v)
  | send (i : Nat) (v : V) (sent : Bool) : Move (.offers i v) (.send i v) sent (.counting i v sent)
  | pushedAdd (i : Nat) (v : V) :
      Move (.counting i v true) (.pushedAdd i) () (.answered v true)
  | droppedAdd (i : Nat) (v : V) :
      Move (.counting i v false) (.droppedAdd i) () (.answered v false)
  | count {v : V} {b : Bool} {a : Act V} {r : Resp a} : counts a = true →
      Move (.answered v b) a r (.answered v b)
  | inUseLoad (fin : Bool) (i total : Nat) (used : Bool) : i < cfg.producers →
      Move (.probe fin i total) (.inUseLoad i) used
        (if used then .top fin i 0 total else .length fin i total)
  | drainLen (fin : Bool) (i total n : Nat) : Move (.length fin i total) (.chLen .drain i) n
      (if n = 0 then passAt cfg fin (i + 1) total else .top fin i 0 total)
  | top (fin : Bool) (i got total n : Nat) : Move (.top fin i got total) .batchLen n
      (if n < cfg.batch then .take fin i got total else .full fin i (total + got))
  | recv (fin : Bool) (i got total : Nat) (e : Bool) : Move (.take fin i got total) (.recv i) e
      (if e then .top fin i (got + 1) total else .full fin i (total + got))
  | full (fin : Bool) (i total n : Nat) : Move (.full fin i total) .batchLen n
      (if n = cfg.batch then .flush fin i total else passAt cfg fin (i + 1) total)
  | flush (fin : Bool) (i total n : Nat) : Move (.flush fin i total) .batchLen n
      (if n = 0 then passAt cfg fin (i + 1) total else .adds fin i total)
  | adds (fin : Bool) (i total : Nat) : Move (.adds fin i total) .consumedAdd () (.write fin i total)
  | write (fin : Bool) (i total : Nat) : Move (.write fin i total) .sinkWrite ()
      (passAt cfg fin (i + 1) total)
  | flushLast (fin : Bool) (total n : Nat) : Move (.flushLast fin total) .batchLen n
      (if n = 0 then passEnd cfg fin total else .addsLast fin total)
  | addsLast (fin : Bool) (total : Nat) :
      Move (.addsLast fin total) .consumedAdd () (.writeLast fin total)
  | writeLast (fin : Bool) (total : Nat) : Move (.writeLast fin total) .sinkWrite ()
      (passEnd cfg fin total)
  | ctxDone (done : Bool) : Move .select .ctxDone done (passAt cfg done 0 0)
  | doneClose : Move .exit .doneClose () .exited

def startPlace : Call V → Place V
  | .push h v => .pushing h v
  | .closeProducer h => .closes h
  | .release i => .releasing i
  | .consume => passAt cfg false 0 0
  | _ => .out

def endPlace (c : Call V) (r : Result) (g : Place V) : Prop :=
  match c with
  | .push _ v => ∃ b, r = .pushed b ∧ g = .answered v b
  | .consume => g = .exited ∧ ∀ b, r ≠ .pushed b
  | _ => g = .out ∧ ∀ b, r ≠ .pushed b

def procPre : Proc → Place V → Prop
  | .releaseLoop i, g => g = .releasing i
  | .consumeLoop, g => g = passAt cfg false 0 0
  | .finalLoop, g => g = passAt cfg true 0 0
  | .recvLoop i got, g => i < cfg.producers ∧ ∃ fin total, g = .top fin i got total

def procPost : (p : Proc) → Place V → Ret p → Place V → Prop
  | .releaseLoop _, g, _, g' => g' = g
  | .consumeLoop, _, _, g' | .finalLoop, _, _, g' => g' = .exit
  | .recvLoop i got, g, r, g' => ∀ fin total, g = .top fin i got total →
      ∃ n, r = got + n ∧ g' = .full fin i (total + r)

variable {Tid : Type} [DecidableEq Tid]

abbrev flow (V Tid : Type) [DecidableEq Tid] (cfg : Config) : Flow (pipeline V Tid cfg) where
  G := Place V
  idle := .idle
  start _ c := startPlace cfg c
  move _ := Move cfg
  ends _ c r g := endPlace c r g
  pre p _ g := procPre cfg p g
  post p _ g r g' := procPost p g r g'

variable {cfg} {t : Tid} {g : Place V}

/-! ## The programs -/

theorem wp_start : (flow V Tid cfg).wp t start
    (fun r g => endPlace (.start : Call V) r g) (.out : Place V) := by
  refine wp_move_seq fun won => ⟨_, .startedCas won, ?_⟩
  cases won with
  | false => exact ⟨rfl, nofun⟩
  | true =>
    refine wp_move_seq fun _ => ⟨_, .cancelSet, ?_⟩
    exact wp_move_seq fun _ => ⟨_, .goConsume, rfl, nofun⟩

theorem wp_close : (flow V Tid cfg).wp t close
    (fun r g => endPlace (.close : Call V) r g) (.out : Place V) := by
  refine wp_move_seq fun won => ⟨_, .free rfl, ?_⟩
  split
  · refine wp_move_seq fun set => ⟨_, .free rfl, ?_⟩
    have tail : (flow V Tid cfg).wp t (do
        let done ← op .doneWait
        pure (if done then .done else .err))
        (fun r g => endPlace (.close : Call V) r g) (.out : Place V) :=
      wp_move_seq fun done => ⟨_, .free rfl, rfl, by cases done <;> nofun⟩
    dsimp only
    split
    · exact wp_move_seq fun _ => ⟨_, .free rfl, tail⟩
    · exact tail
  · exact ⟨rfl, nofun⟩

theorem wp_scan (next n : Nat) (hn : n ≤ cfg.producers) :
    (flow V Tid cfg).wp t (scan cfg next n)
      (fun r g => g = .out ∧ ∀ b, r ≠ .pushed b) (.out : Place V) := by
  induction n with
  | zero => exact ⟨rfl, nofun⟩
  | succ n ih =>
    have hlt := Nat.mod_lt (next + (cfg.producers - (n + 1))) (show 0 < cfg.producers by omega)
    refine wp_move_seq fun won => ⟨_, .inUseCas _ won hlt, ?_⟩
    cases won with
    | false => exact ih (by omega)
    | true =>
      refine wp_move_seq fun _ => ⟨_, .ready rfl, ?_⟩
      refine wp_move_seq fun _ => ⟨_, .ready rfl, ?_⟩
      refine wp_move_seq fun _ => ⟨_, .ready rfl, ?_⟩
      refine wp_move_seq fun _ => ⟨_, .ready rfl, ?_⟩
      exact wp_move_seq fun h => ⟨_, .newProducer _ h, rfl, nofun⟩

theorem wp_producer : (flow V Tid cfg).wp t (producer cfg)
    (fun r g => endPlace (.producer : Call V) r g) (.out : Place V) := by
  refine wp_move_seq fun _ => ⟨_, .free rfl, ?_⟩
  refine wp_move_seq fun next => ⟨_, .free rfl, ?_⟩
  refine wp_seq (wp_mono (wp_scan next cfg.producers (Nat.le_refl _)) fun r g' h => ?_)
  obtain ⟨rfl, hr⟩ := h
  exact wp_move_seq fun _ => ⟨_, .free rfl, rfl, hr⟩

theorem wp_push (h : Nat) (v : V) : (flow V Tid cfg).wp t (push h v)
    (fun r g => endPlace (.push h v) r g) (.pushing h v) := by
  refine wp_move_seq fun closed => ⟨_, .closedLoad h v closed, ?_⟩
  cases closed with
  | true => exact ⟨false, rfl, rfl⟩
  | false =>
    refine wp_move_seq fun i => ⟨_, .pushSlot h i v, ?_⟩
    refine wp_move_seq fun sent => ⟨_, .send i v sent, ?_⟩
    cases sent with
    | false => exact wp_move_seq fun _ => ⟨_, .droppedAdd i v, false, rfl, rfl⟩
    | true =>
      refine wp_move_seq fun _ => ⟨_, .pushedAdd i v, ?_⟩
      refine wp_move_seq fun d => ⟨_, .count rfl, ?_⟩
      refine wp_move_seq fun hw => ⟨_, .count rfl, ?_⟩
      dsimp only
      split
      · exact wp_move_seq fun _ => ⟨_, .count rfl, true, rfl, rfl⟩
      · exact ⟨true, rfl, rfl⟩

theorem wp_closeProducer (h : Nat) : (flow V Tid cfg).wp t (closeProducer h)
    (fun r g => endPlace (.closeProducer h : Call V) r g) (.closes h : Place V) := by
  refine wp_move_seq fun i => ⟨_, .closeSlot h i, ?_⟩
  refine wp_move_seq fun won => ⟨_, .slotClosedCas h i won, ?_⟩
  cases won with
  | false => exact ⟨rfl, nofun⟩
  | true => exact wp_move_seq fun _ => ⟨_, .goRelease i, rfl, nofun⟩

theorem wp_release (i : Nat) : (flow V Tid cfg).wp t (release i)
    (fun r g => endPlace (.release i : Call V) r g) (.releasing i : Place V) := by
  refine wp_proc_seq rfl fun _ g' he => ?_
  obtain rfl : g' = .releasing i := he
  refine wp_move_seq fun _ => ⟨_, .slotClosedStore i, ?_⟩
  exact wp_move_seq fun _ => ⟨_, .inUseStore i, rfl, nofun⟩

theorem wp_releaseLoop (i : Nat) : (flow V Tid cfg).wp t (releaseLoop i)
    (fun _ g => g = .releasing i) (.releasing i : Place V) := by
  refine wp_move_seq fun n => ⟨_, .releaseLen i n, ?_⟩
  split
  · exact wp_proc rfl fun _ g' h => h
  · rfl

theorem wp_recvLoop {fin : Bool} {i got total : Nat} (hi : i < cfg.producers) :
    (flow V Tid cfg).wp t (recvLoop cfg i got)
      (fun r g => ∃ n, r = got + n ∧ g = .full fin i (total + r))
      (.top fin i got total : Place V) := by
  refine wp_move_seq fun n => ⟨_, .top fin i got total n, ?_⟩
  split
  · refine wp_move_seq fun e => ⟨_, .recv fin i got total e, ?_⟩
    cases e with
    | false => exact ⟨0, rfl, rfl⟩
    | true =>
      refine wp_proc ⟨hi, fin, total, rfl⟩ fun r g' h => ?_
      obtain ⟨n, rfl, rfl⟩ := h fin total rfl
      exact ⟨1 + n, by omega, rfl⟩
  · exact ⟨0, rfl, rfl⟩

theorem wp_drainFrom {fin : Bool} (n total : Nat) (hn : n ≤ cfg.producers) :
    (flow V Tid cfg).wp t (drainFrom cfg n total)
      (fun r g => g = passEnd cfg fin r) (passAt cfg fin (cfg.producers - n) total) := by
  induction n generalizing total with
  | zero =>
    rw [passAt, if_neg (by omega)]
    refine wp_seq (wp_move_seq fun len => ⟨_, .flushLast fin total len, ?_⟩)
    split
    · rfl
    · refine wp_move_seq fun _ => ⟨_, .addsLast fin total, ?_⟩
      exact wp_move fun _ => ⟨_, .writeLast fin total, rfl⟩
  | succ n ih =>
    have hlt : cfg.producers - (n + 1) < cfg.producers := by omega
    have hnext : cfg.producers - n = cfg.producers - (n + 1) + 1 := by omega
    have ih := fun total => ih total (by omega)
    rw [hnext] at ih
    -- from the receive loop on
    have rest : (flow V Tid cfg).wp t (do
        let got ← proc (.recvLoop (cfg.producers - (n + 1)) 0)
        let len ← op .batchLen
        if len = cfg.batch then Channel.flush else pure ()
        drainFrom cfg n (total + got)) (fun r g => g = passEnd cfg fin r)
        (.top fin (cfg.producers - (n + 1)) 0 total) := by
      refine wp_proc_seq ⟨hlt, fin, total, rfl⟩ fun got g' h => ?_
      obtain ⟨m, rfl, rfl⟩ := h fin total rfl
      simp only [Nat.zero_add]
      refine wp_move_seq fun len => ⟨_, .full fin _ _ len, ?_⟩
      split
      · refine wp_seq (wp_move_seq fun len => ⟨_, .flush fin _ _ len, ?_⟩)
        split
        · exact ih _
        · refine wp_move_seq fun _ => ⟨_, .adds fin _ _, ?_⟩
          exact wp_move fun _ => ⟨_, .write fin _ _, ih _⟩
      · exact ih _
    rw [passAt, if_pos hlt]
    refine wp_move_seq fun used => ⟨_, .inUseLoad fin _ total used hlt, ?_⟩
    cases used with
    | true => simpa using rest
    | false =>
      refine wp_move_seq fun len => ⟨_, .drainLen fin _ total len, ?_⟩
      by_cases hl : len = 0
      · simpa [hl] using ih total
      · simpa [hl] using rest

theorem wp_consumeLoop : (flow V Tid cfg).wp t (consumeLoop cfg)
    (fun _ g => g = .exit) (passAt cfg false 0 0 : Place V) := by
  have h : (flow V Tid cfg).wp t (drainFrom cfg cfg.producers 0)
      (fun r g => g = passEnd cfg false r) _ := wp_drainFrom cfg.producers 0 (Nat.le_refl _)
  rw [Nat.sub_self] at h
  refine wp_seq (wp_mono h fun n g' he => ?_)
  subst he
  unfold passEnd
  split
  · exact wp_proc rfl fun _ _ h => h
  · refine wp_move_seq fun done => ⟨_, .ctxDone done, ?_⟩
    cases done with
    | true => exact wp_proc rfl fun _ _ h => h
    | false => exact wp_proc rfl fun _ _ h => h

theorem wp_finalLoop : (flow V Tid cfg).wp t (finalLoop cfg)
    (fun _ g => g = .exit) (passAt cfg true 0 0 : Place V) := by
  have h : (flow V Tid cfg).wp t (drainFrom cfg cfg.producers 0)
      (fun r g => g = passEnd cfg true r) _ := wp_drainFrom cfg.producers 0 (Nat.le_refl _)
  rw [Nat.sub_self] at h
  refine wp_seq (wp_mono h fun n g' he => ?_)
  subst he
  unfold passEnd
  split
  · exact wp_proc rfl fun _ _ h => h
  · rfl

theorem follows : (flow V Tid cfg).Follows where
  code t c := by
    cases c with
    | start => exact wp_start
    | cancel => exact wp_move_seq fun _ => ⟨_, .free rfl, rfl, nofun⟩
    | close => exact wp_close
    | producer => exact wp_producer
    | push h v => exact wp_push h v
    | closeProducer h => exact wp_closeProducer h
    | consume =>
      refine wp_proc_seq rfl fun _ g' he => ?_
      obtain rfl : g' = .exit := he
      exact wp_move_seq fun _ => ⟨_, .doneClose, rfl, nofun⟩
    | release i => exact wp_release i
  body t p g h := by
    cases p with
    | releaseLoop i =>
      obtain rfl : g = .releasing i := h
      exact wp_releaseLoop i
    | consumeLoop =>
      obtain rfl : g = passAt cfg false 0 0 := h
      exact wp_consumeLoop
    | finalLoop =>
      obtain rfl : g = passAt cfg true 0 0 := h
      exact wp_finalLoop
    | recvLoop i got =>
      obtain ⟨hi, fin, total, rfl⟩ := h
      refine wp_mono (wp_recvLoop hi) fun r g' h fin' total' he => ?_
      cases he
      exact h

end
end Katas.Weir.Channel
