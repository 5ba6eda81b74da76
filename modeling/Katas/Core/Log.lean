import Katas.Core.Object
import Mathlib.Data.List.Perm.Basic

/-!
# The order in which an object does its calls

A trace of an object shows the calls and the returns; its log (`Log`) is the calls
in the order in which they were done. What a thread has seen of its own calls
(`view`) is its part of the log, once all its calls have returned, and the log by
itself is a run of the object with one call after another (`Runs`).

`IsQueue`: an object that keeps a list, to which some calls append and from whose
front others take. What its calls have appended is what they have taken and what
it holds (`IsQueue.fifo`), and once a call was told that there is no more, what
they have taken (`IsQueue.all_taken`).
-/
namespace Katas.Conc
variable {Y : System}

/-- A call that has been done. -/
structure Done (Y : System) where
  thread : Y.Tid
  call : Y.Call
  result : Y.Result

/-- A trace with the calls in the order in which they are done. -/
inductive Object.Log (A : Object Y) :
    List (Event Y) → List (Done Y) → A.Q → (Y.Tid → Status Y) → Prop
  | start : A.Log [] [] A.init fun _ => .idle
  | call {es : List (Event Y)} {ds : List (Done Y)} {q : A.Q} {st : Y.Tid → Status Y} (t : Y.Tid)
      (c : Y.Call) : A.Log es ds q st → st t = .idle →
      A.Log (es ++ [.call t c]) ds q (upd st t (.asked c))
  | act {es : List (Event Y)} {ds : List (Done Y)} {q q' : A.Q} {st : Y.Tid → Status Y} (t : Y.Tid)
      {c : Y.Call} {r : Y.Result} : A.Log es ds q st → st t = .asked c → A.does t c r q q' →
      A.Log es (ds ++ [⟨t, c, r⟩]) q' (upd st t (.answered r))
  | ret {es : List (Event Y)} {ds : List (Done Y)} {q : A.Q} {st : Y.Tid → Status Y} (t : Y.Tid)
      {r : Y.Result} : A.Log es ds q st → st t = .answered r →
      A.Log (es ++ [.ret t r]) ds q (upd st t .idle)

/-- One call after another. -/
inductive Object.Runs (A : Object Y) : List (Done Y) → A.Q → Prop
  | nil : A.Runs [] A.init
  | snoc {ds : List (Done Y)} {q q' : A.Q} (d : Done Y) : A.Runs ds q →
      A.does d.thread d.call d.result q q' → A.Runs (ds ++ [d]) q'

/-- What a thread has seen of its calls: the one that it is in, and how the others
ended. -/
structure View (Y : System) where
  asked : Option Y.Call
  told : List (Y.Call × Y.Result)

def View.see (t : Y.Tid) (v : View Y) : Event Y → View Y
  | .call u c => if u = t then { v with asked := some c } else v
  | .ret u r =>
    if u = t then ⟨none, v.told ++ (v.asked.map fun c => (c, r)).toList⟩ else v

def view (t : Y.Tid) (es : List (Event Y)) : View Y := es.foldl (View.see t) ⟨none, []⟩

theorem view_call (t u : Y.Tid) (c : Y.Call) (es : List (Event Y)) :
    view t (es ++ [.call u c]) = if u = t then { view t es with asked := some c } else view t es := by
  unfold view
  rw [List.foldl_concat]
  rfl

theorem view_ret (t u : Y.Tid) (r : Y.Result) (es : List (Event Y)) :
    view t (es ++ [.ret u r]) =
      if u = t then ⟨none, (view t es).told ++ ((view t es).asked.map fun c => (c, r)).toList⟩
      else view t es := by
  unfold view
  rw [List.foldl_concat]
  rfl

/-- What a thread's calls did. -/
def ofThread (t : Y.Tid) (ds : List (Done Y)) : List (Y.Call × Y.Result) :=
  (ds.filter fun d => d.thread = t).map fun d => (d.call, d.result)

variable {A : Object Y} {es : List (Event Y)} {ds : List (Done Y)} {q : A.Q}
  {st : Y.Tid → Status Y}

theorem Object.Trace.log (h : A.Trace es q st) : ∃ ds, A.Log es ds q st := by
  induction h with
  | start => exact ⟨_, .start⟩
  | call t c _ hst ih =>
    obtain ⟨ds, ih⟩ := ih
    exact ⟨_, ih.call t c hst⟩
  | act t _ hst hdo ih =>
    obtain ⟨ds, ih⟩ := ih
    exact ⟨_, ih.act t hst hdo⟩
  | ret t _ hst ih =>
    obtain ⟨ds, ih⟩ := ih
    exact ⟨_, ih.ret t hst⟩

theorem Object.Log.runs (h : A.Log es ds q st) : A.Runs ds q := by
  induction h with
  | start => exact .nil
  | call _ _ _ _ ih | ret _ _ _ ih => exact ih
  | act t _ _ hdo ih => exact ih.snoc _ hdo

/-- How a thread's view agrees with its part of the log. -/
def Agrees (s : Status Y) (v : View Y) (mine : List (Y.Call × Y.Result)) : Prop :=
  match s with
  | .idle => v.asked = none ∧ v.told = mine
  | .asked c => v.asked = some c ∧ v.told = mine
  | .answered r => ∃ c, v.asked = some c ∧ v.told ++ [(c, r)] = mine

theorem Object.Log.agrees (h : A.Log es ds q st) (t : Y.Tid) :
    Agrees (st t) (view t es) (ofThread t ds) := by
  induction h with
  | start => exact ⟨rfl, rfl⟩
  | @call es ds q st u c _ hst ih =>
    rw [view_call]
    by_cases hu : u = t
    · subst hu
      rw [hst] at ih
      rw [upd_self, if_pos rfl]
      exact ⟨rfl, ih.2⟩
    · rw [upd_ne _ _ (Ne.symm hu), if_neg hu]
      exact ih
  | @act es ds q q' st u c r _ hst _ ih =>
    unfold ofThread
    rw [List.filter_append, List.map_append]
    show Agrees _ _ (ofThread t ds ++ _)
    by_cases hu : u = t
    · subst hu
      rw [hst] at ih
      rw [upd_self, List.filter_cons_of_pos (by simp), List.filter_nil]
      exact ⟨c, ih.1, congrArg (· ++ [(c, r)]) ih.2⟩
    · rw [upd_ne _ _ (Ne.symm hu), List.filter_cons_of_neg (by simpa using hu), List.filter_nil,
        List.map_nil, List.append_nil]
      exact ih
  | @ret es ds q st u r _ hst ih =>
    rw [view_ret]
    by_cases hu : u = t
    · subst hu
      rw [hst] at ih
      obtain ⟨c, hask, hmine⟩ := ih
      rw [upd_self, if_pos rfl, hask]
      exact ⟨rfl, hmine⟩
    · rw [upd_ne _ _ (Ne.symm hu), if_neg hu]
      exact ih

/-- When all calls have returned, what a thread was told is its part of the log. -/
theorem Object.Log.told (h : A.Log es ds q st) {t : Y.Tid} (hq : (view t es).asked = none) :
    (view t es).told = ofThread t ds := by
  have ha := h.agrees t
  cases hs : st t with
  | idle =>
    rw [hs] at ha
    exact ha.2
  | asked c =>
    rw [hs] at ha
    cases hq.symm.trans ha.1
  | answered r =>
    rw [hs] at ha
    obtain ⟨c, hask, -⟩ := ha
    cases hq.symm.trans hask

/-! ## Logs by thread -/

theorem ofThread_ne {t u : Y.Tid} (h : u ≠ t) (ds : List (Done Y)) :
    ofThread u (ds.filter fun d => d.thread ≠ t) = ofThread u ds := by
  unfold ofThread
  rw [List.filter_filter]
  refine congrArg _ (List.filter_congr fun d _ => ?_)
  by_cases hd : d.thread = u
  · simp [hd, h]
  · simp [hd]

/-- A log is the threads' parts of it, in some order. -/
theorem perm_ofThread {B : Type} (f : Y.Call × Y.Result → Option B) {ts : List Y.Tid}
    (hts : ts.Nodup) (ds : List (Done Y))
    (hall : ∀ d ∈ ds, f (d.call, d.result) ≠ none → d.thread ∈ ts) :
    (ds.filterMap fun d => f (d.call, d.result)).Perm
      (ts.flatMap fun t => (ofThread t ds).filterMap f) := by
  induction ts generalizing ds with
  | nil =>
    have hnil : (ds.filterMap fun d => f (d.call, d.result)) = [] := by
      refine List.filterMap_eq_nil_iff.mpr fun d hd => ?_
      by_contra hf
      exact List.not_mem_nil (hall d hd hf)
    rw [hnil]
    exact .nil
  | cons t ts ih =>
    obtain ⟨hnot, hts⟩ := List.nodup_cons.mp hts
    have hsplit := (List.filter_append_perm (fun d => d.thread = t) ds).symm.filterMap
      fun d => f (d.call, d.result)
    rw [List.filterMap_append] at hsplit
    have hrest := ih hts (ds.filter fun d => d.thread ≠ t) fun d hd hf => by
      obtain ⟨hd, hne⟩ := List.mem_filter.mp hd
      exact (List.mem_cons.mp (hall d hd hf)).resolve_left (of_decide_eq_true hne)
    have hothers : (ts.flatMap fun u =>
        (ofThread u (ds.filter fun d => d.thread ≠ t)).filterMap f) =
        ts.flatMap fun u => (ofThread u ds).filterMap f := by
      refine List.flatMap_congr fun u hu => ?_
      rw [ofThread_ne (show u ≠ t from fun h => hnot (h ▸ hu))]
    rw [hothers] at hrest
    rw [List.flatMap_cons]
    refine hsplit.trans (List.Perm.append ?_ ?_)
    · unfold ofThread
      rw [List.filterMap_map]
      exact .refl _
    · simpa using hrest

theorem mem_ofThread {t : Y.Tid} {x : Y.Call × Y.Result} :
    x ∈ ofThread t ds ↔ ∃ d ∈ ds, d.thread = t ∧ (d.call, d.result) = x := by
  unfold ofThread
  simp [and_assoc]

theorem filterMap_ofThread {B : Type} (f : Y.Call × Y.Result → Option B) (t : Y.Tid)
    (ds : List (Done Y)) : (ofThread t ds).filterMap f =
      ds.filterMap fun d => if d.thread = t then f (d.call, d.result) else none := by
  unfold ofThread
  rw [List.filterMap_map, List.filterMap_filter]
  simp

theorem ofThread_sublist {B : Type} (f : Y.Call × Y.Result → Option B) (t : Y.Tid)
    (ds : List (Done Y)) :
    ((ofThread t ds).filterMap f).Sublist (ds.filterMap fun d => f (d.call, d.result)) := by
  unfold ofThread
  rw [List.filterMap_map]
  exact (List.filter_sublist).filterMap _

/-! ## Queues -/

/-- An object that appends to a list and takes from its front, until it is told
that nothing more is appended. -/
structure Object.IsQueue (A : Object Y) (V : Type) where
  items : A.Q → List V
  ended : A.Q → Prop
  pushed : Y.Call × Y.Result → Option V
  popped : Y.Call × Y.Result → Option V
  drained : Y.Call × Y.Result → Prop
  init : items A.init = []
  does : ∀ {t c r q q'}, A.does t c r q q' →
    items q ++ (pushed (c, r)).toList = (popped (c, r)).toList ++ items q'
  closed : ∀ {t c r q q'}, A.does t c r q q' → ended q → ended q' ∧ pushed (c, r) = none
  empty : ∀ {t c r q q'}, A.does t c r q q' → drained (c, r) → items q' = [] ∧ ended q'

namespace Object.IsQueue
variable {V : Type} (Q : A.IsQueue V)

/-- What the calls append, in order. -/
def allPushed (ds : List (Done Y)) : List V := ds.filterMap fun d => Q.pushed (d.call, d.result)

def allPopped (ds : List (Done Y)) : List V := ds.filterMap fun d => Q.popped (d.call, d.result)

variable {Q}

theorem filterMap_concat {B C : Type} (f : B → Option C) (l : List B) (b : B) :
    (l ++ [b]).filterMap f = l.filterMap f ++ (f b).toList := by
  rw [List.filterMap_append]
  cases hf : f b <;> simp [hf]

/-- What is appended is what is taken, in the same order, and what is left. -/
theorem fifo (h : A.Runs ds q) : Q.allPushed ds = Q.allPopped ds ++ Q.items q := by
  induction h with
  | nil => exact Q.init.symm
  | @snoc ds q q' d _ hdo ih =>
    unfold allPushed allPopped at ih ⊢
    rw [filterMap_concat, filterMap_concat, ih, List.append_assoc, List.append_assoc, Q.does hdo]

theorem drained_empty (h : A.Runs ds q) (hd : ∃ d ∈ ds, Q.drained (d.call, d.result)) :
    Q.items q = [] ∧ Q.ended q := by
  induction h with
  | nil =>
    obtain ⟨d, hd, -⟩ := hd
    exact absurd hd List.not_mem_nil
  | @snoc ds q q' d _ hdo ih =>
    obtain ⟨e, he, hdr⟩ := hd
    obtain he | he := List.mem_append.mp he
    · obtain ⟨hnil, hend⟩ := ih ⟨e, he, hdr⟩
      obtain ⟨hend, hnone⟩ := Q.closed hdo hend
      refine ⟨?_, hend⟩
      have hd := Q.does hdo
      rw [hnil, hnone] at hd
      exact (List.append_eq_nil_iff.mp hd.symm).2
    · rw [List.mem_singleton.mp he] at hdr
      exact Q.empty hdo hdr

/-- Once a call is told that there is no more, all that was appended has been
taken. -/
theorem all_taken (h : A.Runs ds q) (hd : ∃ d ∈ ds, Q.drained (d.call, d.result)) :
    Q.allPushed ds = Q.allPopped ds := by
  rw [fifo h, (drained_empty h hd).1, List.append_nil]

end Object.IsQueue

/-! ## Schedules -/

namespace System

/-- Where a schedule leads, and what a client sees of it. -/
def execTrace (es : List (Event Y)) (x : Config Y) :
    List (Label Y) → Option (List (Event Y) × Config Y)
  | [] => some (es, x)
  | l :: ls => (step x l).bind fun x' => execTrace (es ++ seen x l) x' ls

theorem Trace.exec {x : Config Y} {ls : List (Label Y)} {o : List (Event Y) × Config Y}
    (h : Trace es x) (he : execTrace es x ls = some o) : Trace o.1 o.2 := by
  induction ls generalizing es x with
  | nil =>
    cases he
    exact h
  | cons l ls ih =>
    obtain ⟨x', hs, he⟩ := Option.bind_eq_some_iff.mp he
    exact ih (h.step hs) he

theorem trace_of_test (ls : List (Label Y)) (p : List (Event Y) → Bool)
    (h : (execTrace [] Y.start ls).any (fun o => p o.1) = true) :
    ∃ es x, Trace (Y := Y) es x ∧ p es = true := by
  cases ho : execTrace [] Y.start ls with
  | none =>
    rw [ho] at h
    cases h
  | some o =>
    rw [ho] at h
    exact ⟨o.1, o.2, Trace.start.exec ho, h⟩

end System
end Katas.Conc
