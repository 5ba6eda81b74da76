import Katas.Core.LTS

/-!
# The plugin boundary

The table of function pointers that a plugin exports, its layout, and the host
code that reads it: `LoadedPlugin` and `PluginBackedHandler`. A table says how
long it is in its first field. `Gated`: the host reads no field of the table
past that length. `gated_iff`: which tables this holds of. The two gates of
`load` leave it open for the others: the version is read before the length is
looked at, and the length is compared with where `process` begins.

What a function pointer returns is the plugin's, so an operation carries it.
Left out are the strings of paths, and the packets that cross.
-/
namespace Katas.Switchyard.Abi

/-! ## The layout -/

/-- mirrors plugin-dispatch-kata/cpp/src/plugin_abi.h:79-107 (`SwyPluginApi`, level 2) -/
inductive Field where
  | struct_size
  | abi_version
  | claimed_keys
  | create
  | destroy
  | process
  | process_batch
  deriving DecidableEq, Repr

/-- In the order of the declaration. -/
def fields : List Field :=
  [.struct_size, .abi_version, .claimed_keys, .create, .destroy, .process, .process_batch]

/-- `sizeof`, with pointers of 64 bits; a field is aligned to its size. -/
def Field.size : Field → Nat
  | .struct_size | .abi_version => 4
  | _ => 8

/-- The next multiple of `a`. -/
def roundUp (n a : Nat) : Nat := (n + a - 1) / a * a

/-- Where the field `f` begins, when those of `l` are laid out from `n` on. -/
def offsetFrom (f : Field) (n : Nat) : List Field → Nat
  | [] => n
  | g :: l =>
    if g = f then roundUp n g.size else offsetFrom f (roundUp n g.size + g.size) l

def offsetof (f : Field) : Nat := offsetFrom f 0 fields

/-- One past the field's last byte. -/
def endof (f : Field) : Nat := offsetof f + f.size

/-- mirrors plugin-dispatch-kata/cpp/src/host.hpp:32-33 -/
def kBatchFieldEnd : Nat := offsetof .process_batch + Field.process_batch.size

/-- The fields before `process_batch` end where `process` ends, at the latest. -/
theorem endof_le_process {f : Field} (h : f ≠ .process_batch) : endof f ≤ endof .process := by
  cases f <;> first | exact absurd rfl h | decide

/-! ## The host -/

/-- What the host reads of a table as numbers. -/
structure Api where
  struct_size : UInt32
  abi_version : UInt32
  deriving DecidableEq

/-- mirrors plugin-dispatch-kata/cpp/src/plugin_abi.h:50 -/
def SWY_ABI_VERSION : UInt32 := 1

/-- How far the opening of a plugin gets. -/
inductive Opened where
  | unopened
  | noEntry
  | null
  | table (t : Api)

inductive Error where
  | none
  | dlopenFailed
  | entryNotFound
  | entryReturnedNull
  | versionMismatch
  | sizeBelowMinimum
  deriving DecidableEq

/-- mirrors plugin-dispatch-kata/cpp/src/host.hpp:54,58,61,67,76 -/
def Error.text : Error → String
  | .none => ""
  | .dlopenFailed => "dlopen failed"
  | .entryNotFound => "entry symbol not found"
  | .entryReturnedNull => "entry returned null"
  | .versionMismatch => "abi_version mismatch"
  | .sizeBelowMinimum => "struct_size below the version-1 minimum"

/-- A `PluginBackedHandler`: the table's pointer, and whether `create` gave an
object. -/
structure Backed where
  api : Api
  self : Bool

/-- One `LoadedPlugin` and the handlers that were constructed; `given` are the
tables that `api()` could be asked for so far, whose pointers stay good, for
nothing is unmapped. `reads` is the history of the reads. -/
structure Host where
  api : Option Api
  error : Error
  handlers : List (Option Backed)
  given : List Api
  reads : List (Api × Field)

def Host.init : Host := ⟨none, .none, [], [], []⟩

/-- `need` is what the plugin's `claimed_keys` returns; `self`, whether its
`create` returns an object. -/
inductive Op where
  | load (o : Opened)
  | unload
  | has_batch
  | claimed_keys (need : UInt16)
  | construct (t : Api) (self : Bool)
  | process (i : Nat)
  | destroy (i : Nat)

/-- The field `f` of `t` is read. -/
def Host.read (s : Host) (t : Api) (f : Field) : Host := { s with reads := s.reads ++ [(t, f)] }

/-- mirrors plugin-dispatch-kata/cpp/src/host.hpp:84-93 -/
def unload (s : Host) : Host := { s with api := none }

/-- mirrors plugin-dispatch-kata/cpp/src/host.hpp:42-82 -/
def load (o : Opened) (s : Host) : Host :=
  let s := unload s
  match o with
  | .unopened => { s with error := .dlopenFailed }
  | .noEntry => unload { s with error := .entryNotFound }
  | .null => unload { s with error := .entryReturnedNull }
  | .table t =>
    let s := s.read t .abi_version
    if t.abi_version ≠ SWY_ABI_VERSION then unload { s with error := .versionMismatch }
    else
      let s := s.read t .struct_size
      if t.struct_size.toNat < offsetof .process then unload { s with error := .sizeBelowMinimum }
      else { s with api := some t, given := t :: s.given }

/-- mirrors plugin-dispatch-kata/cpp/src/host.hpp:102 -/
def has_batch (s : Host) : Host × Bool :=
  match s.api with
  | none => (s, false)
  | some t => (s.read t .struct_size, t.struct_size.toNat ≥ kBatchFieldEnd)

/-- mirrors plugin-dispatch-kata/cpp/src/host.hpp:104-110 -/
def claimed_keys (need : UInt16) (s : Host) : Host :=
  match s.api with
  | none => s
  | some t =>
    let s := s.read t .claimed_keys
    if need ≠ 0 then s.read t .claimed_keys else s

/-- mirrors plugin-dispatch-kata/cpp/src/host.hpp:130-131 -/
def construct (t : Api) (self : Bool) (s : Host) : Host :=
  let s := s.read t .create
  { s with handlers := s.handlers ++ [some ⟨t, self⟩] }

/-- mirrors plugin-dispatch-kata/cpp/src/host.hpp:143-154 -/
def process (b : Backed) (s : Host) : Host := s.read b.api .process

/-- mirrors plugin-dispatch-kata/cpp/src/host.hpp:133-135 -/
def destroy (i : Nat) (b : Backed) (s : Host) : Host :=
  let s := if b.self then s.read b.api .destroy else s
  { s with handlers := s.handlers.set i none }

/-- A handler is constructed from a table that was given out, and used until it
is destroyed. -/
def step (s : Host) : Op → Option Host
  | .load o => some (load o s)
  | .unload => some (unload s)
  | .has_batch => some (has_batch s).1
  | .claimed_keys need => some (claimed_keys need s)
  | .construct t self => if t ∈ s.given then some (construct t self s) else none
  | .process i => (s.handlers[i]?.join).map fun b => process b s
  | .destroy i => (s.handlers[i]?.join).map fun b => destroy i b s

def host : LTS Host Op where
  init s := s = .init
  step s op s' := step s op = some s'

/-! ## What the host reads -/

/-- The host reads no field of `t` past its length, and has `t` loaded only if
every field through `process` is within it. -/
def Gated (t : Api) : Prop :=
  ∀ s, host.Reachable s → (∀ f, (t, f) ∈ s.reads → endof f ≤ t.struct_size.toNat) ∧
    (s.api = some t → ∀ f, f ≠ .process_batch → endof f ≤ t.struct_size.toNat)

/-- Passed the gates of `load`. -/
def Accepted (t : Api) : Prop :=
  t.abi_version = SWY_ABI_VERSION ∧ offsetof .process ≤ t.struct_size.toNat

/-- A table's version is read of any table, its length once the version is
right, and the other fields of a table that was accepted. -/
def Readable (t : Api) (f : Field) : Prop :=
  f = .abi_version ∨ f = .struct_size ∧ t.abi_version = SWY_ABI_VERSION ∨
    f ≠ .process_batch ∧ Accepted t

structure Reads (s : Host) : Prop where
  reads : ∀ t f, (t, f) ∈ s.reads → Readable t f
  given : ∀ t ∈ s.given, Accepted t
  api : ∀ t, s.api = some t → Accepted t
  handlers : ∀ b, some b ∈ s.handlers → Accepted b.api

variable {s s' : Host} {t : Api} {f : Field}

theorem Reads.read (h : Reads s) (hf : Readable t f) : Reads (s.read t f) := by
  refine ⟨fun u g hg => ?_, h.given, h.api, h.handlers⟩
  obtain hg | hg := List.mem_append.mp hg
  · exact h.reads u g hg
  · cases List.mem_singleton.mp hg
    exact hf

theorem Reads.unload (h : Reads s) : Reads (unload s) :=
  ⟨h.reads, h.given, nofun, h.handlers⟩

theorem Reads.error (h : Reads s) (e : Error) : Reads { s with error := e } :=
  ⟨h.reads, h.given, h.api, h.handlers⟩

theorem Reads.load (h : Reads s) (o : Opened) : Reads (load o s) := by
  cases o with
  | unopened => exact h.unload.error _
  | noEntry | null => exact (h.unload.error _).unload
  | table t =>
    unfold Abi.load
    dsimp only
    have h1 := h.unload.read (t := t) (f := .abi_version) (.inl rfl)
    split
    · exact (h1.error _).unload
    · rename_i hv
      have hv := Decidable.not_not.mp hv
      have h2 := h1.read (t := t) (f := .struct_size) (.inr (.inl ⟨rfl, hv⟩))
      split
      · exact (h2.error _).unload
      · rename_i hs
        have ha : Accepted t := ⟨hv, Nat.le_of_not_lt hs⟩
        refine ⟨h2.reads, fun u hu => ?_, fun u hu => ?_, h2.handlers⟩
        · obtain rfl | hu := List.mem_cons.mp hu
          · exact ha
          · exact h2.given u hu
        · cases hu; exact ha

theorem mem_of_join {α : Type} {l : List (Option α)} {i : Nat} {b : α}
    (h : l[i]?.join = some b) : some b ∈ l := by
  cases hi : l[i]? with
  | none => rw [hi] at h; cases h
  | some o =>
    rw [hi] at h
    obtain rfl : o = some b := h
    exact List.mem_of_getElem? hi

theorem reads_step {op : Op} (h : Reads s) (hs : step s op = some s') : Reads s' := by
  cases op with
  | load o => cases hs; exact h.load o
  | unload => cases hs; exact h.unload
  | has_batch =>
    cases hs
    unfold has_batch
    split
    · exact h
    · rename_i t ht
      exact h.read (.inr (.inl ⟨rfl, (h.api t ht).1⟩))
  | claimed_keys need =>
    cases hs
    unfold claimed_keys
    split
    · exact h
    · rename_i t ht
      have hr : Readable t .claimed_keys := .inr (.inr ⟨nofun, h.api t ht⟩)
      dsimp only
      split
      · exact (h.read hr).read hr
      · exact h.read hr
  | construct t self =>
    simp only [step] at hs
    split at hs
    · rename_i ht
      cases hs
      have h1 := h.read (t := t) (f := .create) (.inr (.inr ⟨nofun, h.given t ht⟩))
      refine ⟨h1.reads, h1.given, h1.api, fun b hb => ?_⟩
      obtain hb | hb := List.mem_append.mp hb
      · exact h1.handlers b hb
      · cases List.mem_singleton.mp hb
        exact h.given t ht
    · cases hs
  | process i =>
    obtain ⟨b, hb, rfl⟩ := Option.map_eq_some_iff.mp hs
    exact h.read (.inr (.inr ⟨nofun, h.handlers b (mem_of_join hb)⟩))
  | destroy i =>
    obtain ⟨b, hb, rfl⟩ := Option.map_eq_some_iff.mp hs
    have hr : Readable b.api .destroy := .inr (.inr ⟨nofun, h.handlers b (mem_of_join hb)⟩)
    have h1 : Reads (if b.self then s.read b.api .destroy else s) := by
      split
      · exact h.read hr
      · exact h
    refine ⟨h1.reads, h1.given, h1.api, fun c hc => h1.handlers c ?_⟩
    obtain hc | hc := List.mem_or_eq_of_mem_set hc
    · exact hc
    · cases hc

theorem reads_reachable (h : host.Reachable s) : Reads s := by
  have hind : host.Inductive Reads := by
    refine ⟨?_, fun s op s' h hs => reads_step h hs⟩
    rintro s rfl
    exact ⟨nofun, nofun, nofun, nofun⟩
  exact hind.reachable s h

/-- The host after it has loaded `t` first of all. -/
theorem reachable_load (t : Api) : host.Reachable (load (.table t) .init) :=
  ⟨.init, [.load (.table t)], rfl, .cons rfl (.nil _)⟩

/-- The gates hold of the tables that reach through `process`, and of those
that reach past `abi_version` and are refused. -/
theorem gated_iff (t : Api) : Gated t ↔
    endof .process ≤ t.struct_size.toNat ∨ endof .abi_version ≤ t.struct_size.toNat ∧
      (t.abi_version ≠ SWY_ABI_VERSION ∨ t.struct_size.toNat < offsetof .process) := by
  constructor
  · intro h
    obtain ⟨hreads, hapi⟩ := h _ (reachable_load t)
    by_cases ha : Accepted t
    · have hload : (load (.table t) .init).api = some t := by
        unfold load
        dsimp only
        rw [if_neg (Decidable.not_not.mpr ha.1), if_neg (Nat.not_lt.mpr ha.2)]
      exact .inl (hapi hload .process nofun)
    · have hread : (t, Field.abi_version) ∈ (load (.table t) .init).reads := by
        unfold load
        dsimp only
        split
        · exact List.mem_singleton.mpr rfl
        · split <;> exact List.mem_cons_self
      refine .inr ⟨hreads _ hread, ?_⟩
      by_cases hv : t.abi_version = SWY_ABI_VERSION
      · exact .inr (Nat.lt_of_not_le fun hs => ha ⟨hv, hs⟩)
      · exact .inl hv
  · intro hc s hs
    have h := reads_reachable hs
    have hlen : Accepted t → endof .process ≤ t.struct_size.toNat := by
      rintro ⟨hv, hsz⟩
      obtain hc | ⟨-, hne | hlt⟩ := hc
      · exact hc
      · exact absurd hv hne
      · exact absurd hlt (Nat.not_lt.mpr hsz)
    have hver : endof .abi_version ≤ t.struct_size.toNat := by
      obtain hc | hc := hc
      · exact Nat.le_trans (endof_le_process nofun) hc
      · exact hc.1
    refine ⟨fun f hf => ?_, fun ht f hf => ?_⟩
    · obtain rfl | ⟨rfl, -⟩ | ⟨hf, ha⟩ := h.reads t f hf
      · exact hver
      · exact Nat.le_trans (by decide) hver
      · exact Nat.le_trans (endof_le_process hf) (hlen ha)
    · exact Nat.le_trans (endof_le_process hf) (hlen (h.api t ht))

/-- A table that ends inside `process`. -/
theorem not_gated : ¬ ∀ t, Gated t := by
  intro h
  have := (gated_iff ⟨36, 1⟩).mp (h ⟨36, 1⟩)
  revert this
  decide

end Katas.Switchyard.Abi
