import Katas.Core.LTS
import Katas.Core.Prog
import Katas.Switchyard.Reorder

/-!
# The plugin's instances

What the entry points of the plugin do, and the host's objects that call them.
`create` makes an instance on the plugin's heap, which only the plugin can free,
and each call adds to the instance's `calls`. A dead instance is not to be
touched: an entry point that is given one is `none` here, for what it does is
undefined. `instances_kept`: however the host's objects come and go, none is
touched, each live instance belongs to one object and has counted the packets
that the object has handed over, and a handler whose `create` failed answers that
it does not support the packet.

Left out are `SWY_UNSUPPORTED`, which nothing returns, and the exceptions that
the entry points catch, which nothing throws.
-/
namespace Katas.Switchyard.Plugin
open Katas.Conc

/-! ## What crosses -/

/-- The bytes are borrowed, and there are as many as the view says.
mirrors plugin-dispatch-kata/cpp/src/plugin_abi.h:55-60 -/
structure SwyPacketView where
  protocol : UInt16
  reserved : UInt16
  bytes_len : UInt32
  bytes : List UInt8
  fits : bytes_len.toNat ≤ bytes.length

/-- mirrors plugin-dispatch-kata/cpp/src/plugin_abi.h:65-70 -/
structure SwyResult where
  value : UInt64
  handler : UInt16
  reserved0 : UInt16
  reserved1 : UInt32
  deriving DecidableEq

/-- `SwyResult{}` -/
def SwyResult.zero : SwyResult := ⟨0, 0, 0, 0⟩

/-- mirrors plugin-dispatch-kata/cpp/src/plugin_abi.h:75-77 -/
def SWY_OK : Int32 := 0

def SWY_ERROR : Int32 := 2

/-! ## The plugin -/

/-- mirrors plugin-dispatch-kata/cpp/plugin/plugin.cpp:25 -/
def kKeys : List UInt16 := [2000, 2001, 2002, 2003]

/-- mirrors plugin-dispatch-kata/cpp/plugin/plugin.cpp:26 -/
def kKeyCount : UInt16 := 4

/-- The live instances, each with its `calls`.
mirrors plugin-dispatch-kata/cpp/plugin/plugin.cpp:19-21 (`PluginHandler`) -/
abbrev Heap := Nat → Option UInt64

/-- mirrors plugin-dispatch-kata/cpp/plugin/plugin.cpp:28-34 -/
def mix (pkt : SwyPacketView) : UInt64 :=
  let n := if pkt.bytes_len < 24 then pkt.bytes_len else 24
  (pkt.bytes.take n.toNat).foldl (fun h b => (h ^^^ b.toUInt64) * 0x100000001b3)
    (0xcbf29ce484222325 ^^^ pkt.protocol.toUInt64)

/-- `out` is the caller's array, if it has one.
mirrors plugin-dispatch-kata/cpp/plugin/plugin.cpp:40-44 -/
def claimed_keys (out : Option (List UInt16)) (cap : UInt16) : UInt16 × Option (List UInt16) :=
  match out with
  | none => (kKeyCount, none)
  | some out =>
    if cap < kKeyCount then (kKeyCount, some out)
    else (kKeyCount, some (kKeys ++ out.drop kKeyCount.toNat))

/-- `new` is what the allocation gives.
mirrors plugin-dispatch-kata/cpp/plugin/plugin.cpp:50-52 -/
def create (new : Option Nat) (w : Heap) : Option Nat × Heap :=
  match new with
  | none => (none, w)
  | some a => (some a, upd w a (some 0))

/-- mirrors plugin-dispatch-kata/cpp/plugin/plugin.cpp:54-56 -/
def destroy (self : Option Nat) (w : Heap) : Option Heap :=
  match self with
  | none => some w
  | some a => if (w a).isSome then some (upd w a none) else none

/-- What is written of one packet.
mirrors plugin-dispatch-kata/cpp/plugin/plugin.cpp:69-72,89-92 -/
def answer (pkt : SwyPacketView) : SwyResult := ⟨mix pkt, pkt.protocol, 0, 0⟩

/-- mirrors plugin-dispatch-kata/cpp/plugin/plugin.cpp:64-77 -/
def process (self : Option Nat) (pkt : Option SwyPacketView) (out : Option SwyResult) (w : Heap) :
    Option (Int32 × Option SwyResult × Heap) :=
  match self, pkt, out with
  | some a, some pkt, some _ =>
    (w a).map fun calls => (SWY_OK, some (answer pkt), upd w a (some (calls + 1)))
  | _, _, out => some (SWY_ERROR, out, w)

/-- The loop with `n` packets to go; past the end of an array it is undefined.
mirrors plugin-dispatch-kata/cpp/plugin/plugin.cpp:88-93 -/
def fill : Nat → List SwyPacketView → List SwyResult → Option (List SwyResult)
  | 0, _, out => some out
  | n + 1, pkt :: pkts, _ :: out => (fill n pkts out).map (answer pkt :: ·)
  | _ + 1, _, _ => none

/-- mirrors plugin-dispatch-kata/cpp/plugin/plugin.cpp:82-98 -/
def process_batch (self : Option Nat) (pkts : Option (List SwyPacketView)) (n : Nat)
    (out : Option (List SwyResult)) (w : Heap) :
    Option (Int32 × Option (List SwyResult) × Heap) :=
  match self, pkts, out with
  | some a, some pkts, some out =>
    (w a).bind fun calls =>
      (fill n pkts out).map fun out => (SWY_OK, some out, upd w a (some (calls + .ofNat n)))
  | _, _, out => some (SWY_ERROR, out, w)

/-! ## The host -/

/-- The keys are asked for twice: how many, and which.
mirrors plugin-dispatch-kata/cpp/src/host.hpp:104-110 -/
def LoadedPlugin.claimed_keys : List UInt16 :=
  let need := (Plugin.claimed_keys none 0).1
  let out := List.replicate need.toNat 0
  if need ≠ 0 then (Plugin.claimed_keys (some out) need).2.getD out else out

example : LoadedPlugin.claimed_keys = kKeys := by decide

/-- mirrors plugin-dispatch-kata/cpp/src/host.hpp:148-149 -/
def view (p : Packet) : SwyPacketView := ⟨p.protocol, 0, 24, p.payload.toList, by simp⟩

/-- mirrors plugin-dispatch-kata/cpp/src/host.hpp:143-154 -/
def PluginBackedHandler.process (self_ : Option Nat) (p : Packet) (w : Heap) :
    Option (Result × Heap) :=
  (Plugin.process self_ (some (view p)) (some .zero) w).map fun (rc, out, w) =>
    if rc ≠ SWY_OK then (.unsupported, w)
    else (out.elim .unsupported fun out => ⟨out.value, out.handler⟩, w)

/-- mirrors plugin-dispatch-kata/cpp/bench/boundary.cpp:58-62 -/
def InternalEquivalent.process (p : Packet) : Result :=
  ⟨p.payload.toList.foldl (fun h b => (h ^^^ b.toUInt64) * 0x100000001b3)
    (0xcbf29ce484222325 ^^^ p.protocol.toUInt64), p.protocol⟩

/-- An object of the host that was given an instance: a `PluginBackedHandler`, or
the bare `self` of a batching caller. `given` is how many packets it has handed
over. -/
structure Holder where
  self_ : Option Nat
  given : Nat

/-- A holder that was destroyed is `none`. -/
structure Host where
  heap : Heap
  holders : List (Option Holder)

def Host.init : Host := ⟨fun _ => none, []⟩

/-- `new` is what the allocation in `create` gives. -/
inductive Op where
  | create (new : Option Nat)
  | process (i : Nat) (p : Packet)
  | process_batch (i : Nat) (ps : List Packet)
  | destroy (i : Nat)

def Host.held (s : Host) (i : Nat) : Option Holder := s.holders[i]?.join

def Host.give (s : Host) (i : Nat) (h : Holder) (n : Nat) (w : Heap) : Host :=
  ⟨w, s.holders.set i (some { h with given := h.given + n })⟩

/-- What the operation does; `none` if a dead instance is touched.
mirrors plugin-dispatch-kata/cpp/src/host.hpp:130-154 and
plugin-dispatch-kata/cpp/bench/boundary.cpp:149-167 -/
def perform (s : Host) : Op → Option Host
  | .create new => some ⟨(create new s.heap).2, s.holders ++ [some ⟨(create new s.heap).1, 0⟩]⟩
  | .process i p => do
    let h ← s.held i
    let r ← PluginBackedHandler.process h.self_ p s.heap
    some (s.give i h 1 r.2)
  | .process_batch i ps => do
    let h ← s.held i
    let r ← process_batch h.self_ (some (ps.map view)) ps.length
      (some (List.replicate ps.length .zero)) s.heap
    some (s.give i h ps.length r.2.2)
  | .destroy i => do
    let h ← s.held i
    let w ← destroy h.self_ s.heap
    some ⟨w, s.holders.set i none⟩

/-- The allocation gives nothing that is live, and an object is used until it is
destroyed. -/
def Allowed (s : Host) : Op → Prop
  | .create new => ∀ a, new = some a → s.heap a = none
  | .process i _ | .process_batch i _ | .destroy i => (s.held i).isSome = true

def host : LTS Host Op where
  init s := s = .init
  step s op s' := Allowed s op ∧ perform s op = some s'

/-! ## What one call does -/

variable {w : Heap} {a : Nat} {c : UInt64}

theorem mix_view (p : Packet) :
    (⟨mix (view p), p.protocol⟩ : Result) = InternalEquivalent.process p := by
  have htake : p.payload.toList.take 24 = p.payload.toList :=
    List.take_of_length_le (by simp)
  show (⟨(p.payload.toList.take 24).foldl _ _, p.protocol⟩ : Result) = _
  rw [htake]
  rfl

theorem process_live (hw : w a = some c) (p : Packet) :
    PluginBackedHandler.process (some a) p w =
      some (InternalEquivalent.process p, upd w a (some (c + 1))) := by
  unfold PluginBackedHandler.process Plugin.process
  dsimp only
  rw [hw, ← mix_view]
  rfl

theorem process_null (p : Packet) (w : Heap) :
    PluginBackedHandler.process none p w = some (.unsupported, w) := rfl

theorem fill_eq (pkts : List SwyPacketView) {out : List SwyResult} (h : out.length = pkts.length) :
    fill pkts.length pkts out = some (pkts.map answer) := by
  induction pkts generalizing out with
  | nil =>
    cases out with
    | nil => rfl
    | cons => cases h
  | cons pkt pkts ih =>
    cases out with
    | nil => cases h
    | cons r out =>
      show (fill pkts.length pkts out).map _ = _
      rw [ih (Nat.succ.inj h)]
      rfl

theorem process_batch_live (hw : w a = some c) (ps : List Packet) {out : List SwyResult}
    (h : out.length = ps.length) :
    process_batch (some a) (some (ps.map view)) ps.length (some out) w =
      some (SWY_OK, some (ps.map fun p => answer (view p)),
        upd w a (some (c + .ofNat ps.length))) := by
  have hfill := fill_eq (ps.map view) (h.trans (List.length_map ..).symm)
  rw [List.length_map, List.map_map] at hfill
  unfold process_batch
  dsimp only
  rw [hw, Option.bind_some, hfill]
  rfl

/-! ## Who holds what -/

/-- An instance that is held is live and has counted what its holder gave; no two
hold the same one, and what is live is held. -/
structure Kept (s : Host) : Prop where
  live : ∀ i h a, s.held i = some h → h.self_ = some a → s.heap a = some (.ofNat h.given)
  one : ∀ i j h k a, s.held i = some h → s.held j = some k → h.self_ = some a → k.self_ = some a →
    i = j
  owned : ∀ a, (s.heap a).isSome = true → ∃ i h, s.held i = some h ∧ h.self_ = some a

variable {s s' : Host} {i : Nat} {h : Holder}

theorem held_lt (hi : s.held i = some h) : i < s.holders.length := by
  by_contra hge
  unfold Host.held at hi
  rw [List.getElem?_eq_none (Nat.le_of_not_lt hge)] at hi
  cases hi

/-- Who holds what, after the holder `i` was replaced. -/
theorem held_set (hi : s.held i = some h) (w : Heap) (o : Option Holder) (j : Nat) :
    (Host.mk w (s.holders.set i o)).held j = if j = i then o else s.held j := by
  unfold Host.held
  dsimp only
  by_cases hj : j = i
  · subst hj
    rw [if_pos rfl, List.getElem?_set_self (held_lt hi)]
    rfl
  · rw [if_neg hj, List.getElem?_set_ne fun he => hj he.symm]

theorem held_append (w : Heap) (o : Option Holder) (j : Nat) :
    (Host.mk w (s.holders ++ [o])).held j = if j = s.holders.length then o else s.held j := by
  unfold Host.held
  dsimp only
  by_cases hj : j = s.holders.length
  · subst hj
    rw [if_pos rfl, List.getElem?_append_right (Nat.le_refl _), Nat.sub_self]
    rfl
  · rw [if_neg hj]
    obtain hlt | hge := Nat.lt_or_ge j s.holders.length
    · rw [List.getElem?_append_left hlt]
    · rw [List.getElem?_eq_none hge, List.getElem?_eq_none]
      rw [List.length_append, List.length_singleton]
      omega

/-- The holder `i` hands `n` packets over. -/
theorem Kept.give (hk : Kept s) (hi : s.held i = some h) (n : Nat) {w : Heap}
    (hw : ∀ a, h.self_ = some a → w = upd s.heap a (some (.ofNat h.given + .ofNat n)))
    (hnull : h.self_ = none → w = s.heap) : Kept (s.give i h n w) := by
  have hheld : ∀ j k, (s.give i h n w).held j = some k →
      ∃ k', s.held j = some k' ∧ k'.self_ = k.self_ ∧
        (j = i → k = { h with given := h.given + n }) ∧ (j ≠ i → k' = k) := by
    intro j k hj
    unfold Host.give at hj
    rw [held_set hi] at hj
    by_cases he : j = i
    · subst he
      rw [if_pos rfl] at hj
      cases hj
      exact ⟨h, hi, rfl, fun _ => rfl, fun hne => absurd rfl hne⟩
    · rw [if_neg he] at hj
      exact ⟨k, hj, rfl, fun h' => absurd h' he, fun _ => rfl⟩
  have hsome : ∀ a, (w a).isSome = true → (s.heap a).isSome = true := by
    intro a ha
    cases hself : h.self_ with
    | none => rwa [hnull hself] at ha
    | some b =>
      rw [hw b hself] at ha
      by_cases hab : a = b
      · rw [hab, hk.live i h b hi hself]
        rfl
      · rwa [upd_ne _ _ hab] at ha
  refine ⟨fun j k a hj hka => ?_, fun j l k m a hj hl hka hma => ?_, fun a ha => ?_⟩
  · obtain ⟨k', hk', hself, hthis, hother⟩ := hheld j k hj
    show w a = _
    by_cases he : j = i
    · subst he
      obtain rfl := hthis rfl
      have hka : h.self_ = some a := hka
      rw [hw a hka, upd_self]
      exact congrArg some (UInt64.ofNat_add ..).symm
    · obtain rfl := hother he
      have hlive := hk.live j k' a hk' hka
      cases hs : h.self_ with
      | none => rw [hnull hs, hlive]
      | some b =>
        have hab : a ≠ b := fun hab => he (hk.one j i k' h a hk' hi hka (hab ▸ hs))
        rw [hw b hs, upd_ne _ _ hab, hlive]
  · obtain ⟨k', hk', hself, -⟩ := hheld j k hj
    obtain ⟨m', hm', hself', -⟩ := hheld l m hl
    exact hk.one j l k' m' a hk' hm' (hself.trans hka) (hself'.trans hma)
  · obtain ⟨j, k, hj, hka⟩ := hk.owned a (hsome a ha)
    by_cases he : j = i
    · subst he
      rw [hi] at hj
      cases hj
      refine ⟨j, { h with given := h.given + n }, ?_, hka⟩
      unfold Host.give
      rw [held_set hi, if_pos rfl]
    · refine ⟨j, k, ?_, hka⟩
      unfold Host.give
      rw [held_set hi, if_neg he, hj]

theorem Kept.create (hk : Kept s) {new : Option Nat} (hnew : ∀ a, new = some a → s.heap a = none) :
    Kept ⟨(create new s.heap).2, s.holders ++ [some ⟨(create new s.heap).1, 0⟩]⟩ := by
  have hnone : s.held s.holders.length = none := by
    unfold Host.held
    rw [List.getElem?_eq_none (Nat.le_refl _)]
    rfl
  have hself : (Plugin.create new s.heap).1 = new := by cases new <;> rfl
  have hheap : ∀ a, new ≠ some a → (Plugin.create new s.heap).2 a = s.heap a := by
    intro a ha
    cases new with
    | none => rfl
    | some b => exact upd_ne _ _ fun hab => ha (congrArg some hab.symm)
  have hheld : ∀ j k, Host.held ⟨(Plugin.create new s.heap).2,
      s.holders ++ [some ⟨(Plugin.create new s.heap).1, 0⟩]⟩ j = some k →
      j = s.holders.length ∧ k = ⟨new, 0⟩ ∨ s.held j = some k := by
    intro j k hj
    rw [held_append] at hj
    split at hj
    · rename_i he
      cases hj
      exact .inl ⟨he, by rw [hself]⟩
    · exact .inr hj
  -- what another holds is live, so it is not what the allocation gave
  have hother : ∀ j k a, s.held j = some k → k.self_ = some a → new ≠ some a := by
    intro j k a hj hka hna
    have := hk.live j k a hj hka
    rw [hnew a hna] at this
    cases this
  refine ⟨fun j k a hj hka => ?_, fun j l k m a hj hl hka hma => ?_, fun a ha => ?_⟩
  · obtain ⟨-, rfl⟩ | hj := hheld j k hj
    · obtain rfl : new = some a := hka
      exact upd_self ..
    · exact (hheap a (hother j k a hj hka)).trans (hk.live j k a hj hka)
  · obtain ⟨rfl, rfl⟩ | hj := hheld j k hj
    · obtain ⟨rfl, -⟩ | hl := hheld l m hl
      · rfl
      · exact absurd hka (hother l m a hl hma)
    · obtain ⟨-, rfl⟩ | hl := hheld l m hl
      · exact absurd hma (hother j k a hj hka)
      · exact hk.one j l k m a hj hl hka hma
  · by_cases hna : new = some a
    · refine ⟨s.holders.length, ⟨new, 0⟩, ?_, hna⟩
      rw [held_append, if_pos rfl, hself]
    · have ha : ((Plugin.create new s.heap).2 a).isSome = true := ha
      rw [hheap a hna] at ha
      obtain ⟨j, k, hj, hka⟩ := hk.owned a ha
      refine ⟨j, k, ?_, hka⟩
      rw [held_append, if_neg, hj]
      rintro rfl
      rw [hnone] at hj
      cases hj

theorem Kept.destroy (hk : Kept s) (hi : s.held i = some h) {w : Heap}
    (hw : ∀ a, h.self_ = some a → w = upd s.heap a none) (hnull : h.self_ = none → w = s.heap) :
    Kept ⟨w, s.holders.set i none⟩ := by
  have hheld : ∀ j k, Host.held ⟨w, s.holders.set i none⟩ j = some k →
      j ≠ i ∧ s.held j = some k := by
    intro j k hj
    rw [held_set hi] at hj
    split at hj
    · cases hj
    · rename_i hne
      exact ⟨hne, hj⟩
  refine ⟨fun j k a hj hka => ?_, fun j l k m a hj hl hka hma => ?_, fun a ha => ?_⟩
  · obtain ⟨hne, hj⟩ := hheld j k hj
    have hlive := hk.live j k a hj hka
    show w a = _
    cases hs : h.self_ with
    | none => rw [hnull hs, hlive]
    | some b =>
      have hab : a ≠ b := fun hab => hne (hk.one j i k h a hj hi hka (hab ▸ hs))
      rw [hw b hs, upd_ne _ _ hab, hlive]
  · exact hk.one j l k m a (hheld j k hj).2 (hheld l m hl).2 hka hma
  · have ha : (w a).isSome = true := ha
    have hne : h.self_ ≠ some a := by
      intro hs
      rw [hw a hs, upd_self] at ha
      cases ha
    have hheap : w a = s.heap a := by
      cases hs : h.self_ with
      | none => rw [hnull hs]
      | some b => rw [hw b hs, upd_ne _ _ fun hab => hne (hs.trans (congrArg some hab.symm))]
    rw [hheap] at ha
    obtain ⟨j, k, hj, hka⟩ := hk.owned a ha
    refine ⟨j, k, ?_, hka⟩
    rw [held_set hi, if_neg, hj]
    rintro rfl
    rw [hi] at hj
    cases hj
    exact hne hka

/-! ## One operation, and all of them -/

theorem Kept.step (hk : Kept s) {op : Op} (ha : Allowed s op) :
    ∃ s', perform s op = some s' ∧ Kept s' := by
  cases op with
  | create new => exact ⟨_, rfl, hk.create ha⟩
  | process i p =>
    obtain ⟨h, hi⟩ := Option.isSome_iff_exists.mp ha
    cases hs : h.self_ with
    | none =>
      refine ⟨s.give i h 1 s.heap, ?_, hk.give hi 1 (fun a h' => ?_) fun _ => rfl⟩
      · simp [perform, hi, hs, process_null]
      · rw [hs] at h'
        cases h'
    | some a =>
      refine ⟨s.give i h 1 (upd s.heap a (some (.ofNat h.given + 1))), ?_,
        hk.give hi 1 (fun b hb => ?_) fun h' => ?_⟩
      · simp only [perform, hi, hs, Option.bind_eq_bind, Option.bind_some]
        rw [process_live (hk.live i h a hi hs) p]
        rfl
      · rw [hs] at hb
        cases hb
        rfl
      · rw [hs] at h'
        cases h'
  | process_batch i ps =>
    obtain ⟨h, hi⟩ := Option.isSome_iff_exists.mp ha
    cases hs : h.self_ with
    | none =>
      refine ⟨s.give i h ps.length s.heap, ?_, hk.give hi _ (fun a h' => ?_) fun _ => rfl⟩
      · simp [perform, hi, hs, Plugin.process_batch]
      · rw [hs] at h'
        cases h'
    | some a =>
      refine ⟨s.give i h ps.length (upd s.heap a (some (.ofNat h.given + .ofNat ps.length))), ?_,
        hk.give hi ps.length (fun b hb => ?_) fun h' => ?_⟩
      · simp only [perform, hi, hs, Option.bind_eq_bind, Option.bind_some]
        rw [process_batch_live (hk.live i h a hi hs) ps (List.length_replicate ..)]
        rfl
      · rw [hs] at hb
        cases hb
        rfl
      · rw [hs] at h'
        cases h'
  | destroy i =>
    obtain ⟨h, hi⟩ := Option.isSome_iff_exists.mp ha
    cases hs : h.self_ with
    | none =>
      refine ⟨⟨s.heap, s.holders.set i none⟩, ?_, hk.destroy hi (fun a h' => ?_) fun _ => rfl⟩
      · simp [perform, hi, hs, Plugin.destroy]
      · rw [hs] at h'
        cases h'
    | some a =>
      refine ⟨⟨upd s.heap a none, s.holders.set i none⟩, ?_,
        hk.destroy hi (fun b hb => ?_) fun h' => ?_⟩
      · simp [perform, hi, hs, Plugin.destroy, hk.live i h a hi hs]
      · rw [hs] at hb
        cases hb
        rfl
      · rw [hs] at h'
        cases h'

theorem kept : host.Inductive Kept := by
  refine ⟨?_, fun s op s' hk hs => ?_⟩
  · rintro s rfl
    exact ⟨fun i h a hi => (by cases hi), fun i j h k a hi => (by cases hi),
      fun a ha => (by cases ha)⟩
  · obtain ⟨s₁, h1, hk1⟩ := hk.step hs.1
    rw [hs.2] at h1
    cases h1
    exact hk1

/-- **However the host's objects come and go**, none of them touches a dead
instance; each live instance is held once and has counted what its holder has
handed over; and a handler gives the result of the internal one, or, if its
`create` failed, that it does not support the packet. -/
theorem instances_kept (hs : host.Reachable s) :
    (∀ op, Allowed s op → ∃ s', perform s op = some s') ∧
      (∀ i h a, s.held i = some h → h.self_ = some a → s.heap a = some (.ofNat h.given)) ∧
      (∀ a, (s.heap a).isSome = true → ∃! i, ∃ h, s.held i = some h ∧ h.self_ = some a) ∧
      ∀ i h p, s.held i = some h → ∃ w, PluginBackedHandler.process h.self_ p s.heap =
        some (if h.self_.isSome then InternalEquivalent.process p else .unsupported, w) := by
  have hk := kept.reachable s hs
  refine ⟨fun op ha => ?_, hk.live, fun a ha => ?_, fun i h p hi => ?_⟩
  · obtain ⟨s', h', -⟩ := hk.step ha
    exact ⟨s', h'⟩
  · obtain ⟨i, h, hi, hself⟩ := hk.owned a ha
    refine ⟨i, ⟨h, hi, hself⟩, ?_⟩
    rintro j ⟨k, hj, hself'⟩
    exact hk.one j i k h a hj hi hself' hself
  · cases hself : h.self_ with
    | none => exact ⟨s.heap, process_null p s.heap⟩
    | some a => exact ⟨_, process_live (hk.live i h a hi hself) p⟩

/-- Of two handlers the one with the instance has been handed a packet, and is
destroyed; the other never had one. -/
theorem instances_kept_two : ∃ s, host.Reachable s ∧ s.heap 7 = none ∧
    ∃ w, PluginBackedHandler.process none ⟨2000, 64, 0, .replicate 24 0⟩ s.heap =
      some (.unsupported, w) := by
  let p : Packet := ⟨2000, 64, 0, .replicate 24 0⟩
  have hs : host.Reachable ⟨_, _⟩ := ⟨.init, [.create (some 7), .create none, .process 0 p, .destroy 0],
    rfl, .cons ⟨fun _ _ => rfl, rfl⟩ (.cons ⟨fun _ h => (by cases h), rfl⟩
      (.cons ⟨rfl, rfl⟩ (.cons ⟨rfl, rfl⟩ (.nil _))))⟩
  exact ⟨_, hs, rfl, (instances_kept hs).2.2.2 1 ⟨none, 0⟩ p rfl⟩

end Katas.Switchyard.Plugin
