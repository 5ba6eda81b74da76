import Katas.Core.Records
import Katas.Weir.Event

/-!
# Both ways through the wire format

`iter_events` takes a blob apart into the fields of its events. What `pack` has
packed comes back, the payload filled up to 16 bytes, and what was taken apart
packs to the same bytes. An event of Go's in the memory of a little-endian host
is the record that `pack` makes of its fields.
-/
namespace Katas.Weir

namespace Event
open Records

/-! ## The fields -/

/-- What `struct` packs and unpacks. -/
structure Fields where
  producer_id : Int
  seq : Int
  stamp_ns : Int
  payload : Bytes
  deriving DecidableEq, Repr

/-- mirrors mpsc-event-pipeline-kata/python/src/weir/event.py:25 -/
def Fields.pack (e : Fields) : Option Bytes :=
  Event.pack e.producer_id e.seq e.stamp_ns e.payload

/-- Do the integers fit their fields? -/
def Fields.Fits (e : Fields) : Prop :=
  (0 ≤ e.producer_id ∧ e.producer_id < 2 ^ 32) ∧ (0 ≤ e.seq ∧ e.seq < 2 ^ 32) ∧
    -2 ^ 63 ≤ e.stamp_ns ∧ e.stamp_ns < 2 ^ 63

instance (e : Fields) : Decidable e.Fits := inferInstanceAs (Decidable (_ ∧ _))

/-- The event with its payload filled up. -/
def Fields.padded (e : Fields) : Fields := { e with payload := payload16 e.payload }

/-- A 64-bit word read as a signed integer. -/
def signed (n : Nat) : Int := if n < 2 ^ 63 then n else n - 2 ^ 64

/-- mirrors mpsc-event-pipeline-kata/python/src/weir/event.py:26 -/
def unpack (record : Bytes) : Fields where
  producer_id := leNat (record.take 4)
  seq := leNat ((record.drop 4).take 4)
  stamp_ns := signed (leNat ((record.drop 8).take 8))
  payload := (record.drop 16).take 16

/-- `none`: `struct.error`, the blob is no concatenation of records.
mirrors mpsc-event-pipeline-kata/python/src/weir/event.py:30 -/
def iter_events (blob : Bytes) : Option (List Fields) :=
  if blob.length % EVENT_SIZE = 0 then some ((records blob).map unpack) else none

/-! ## Integers -/

theorem leNat_lt (bs : Bytes) : leNat bs < 256 ^ bs.length := by
  induction bs with
  | nil => exact Nat.one_pos
  | cons b bs ih =>
    have hb : b.toNat < 256 := b.toNat_lt
    rw [List.length_cons, Nat.pow_succ, leNat]
    omega

theorem leBytes_leNat (bs : Bytes) : leBytes bs.length (leNat bs) = bs := by
  induction bs with
  | nil => rfl
  | cons b bs ih =>
    have hb : b.toNat < 256 := b.toNat_lt
    have hmod : (b.toNat + 256 * leNat bs) % 256 = b.toNat := by omega
    have hdiv : (b.toNat + 256 * leNat bs) / 256 = leNat bs := by omega
    rw [List.length_cons, leNat, leBytes, hmod, hdiv, ih, UInt8.ofNat_toNat]

theorem signed_mod {t : Int} (h : -2 ^ 63 ≤ t ∧ t < 2 ^ 63) :
    signed (t % 2 ^ 64).toNat = t := by
  unfold signed
  split <;> omega

theorem mod_signed {n : Nat} (h : n < 2 ^ 64) : (signed n % 2 ^ 64).toNat = n := by
  unfold signed
  split <;> omega

theorem signed_fits {n : Nat} (h : n < 2 ^ 64) : -2 ^ 63 ≤ signed n ∧ signed n < 2 ^ 63 := by
  unfold signed
  split <;> omega

/-! ## Both ways -/

variable {e : Fields} {r blob : Bytes}

theorem pack_eq (h : e.Fits) : e.pack = some (leBytes 4 e.producer_id.toNat ++
    leBytes 4 e.seq.toNat ++ leBytes 8 (e.stamp_ns % 2 ^ 64).toNat ++ payload16 e.payload) :=
  if_pos h

theorem pack_none (h : ¬e.Fits) : e.pack = none := if_neg h

theorem fits_of_pack (h : e.pack = some r) : e.Fits := by
  by_contra hf
  rw [pack_none hf] at h
  cases h

theorem exists_pack (h : e.Fits) : ∃ r, e.pack = some r := ⟨_, pack_eq h⟩

theorem length_pack (h : e.pack = some r) : r.length = EVENT_SIZE := length_of_pack h

theorem unpack_append {a b c d : Bytes} (ha : a.length = 4) (hb : b.length = 4)
    (hc : c.length = 8) (hd : d.length = 16) :
    unpack (a ++ b ++ c ++ d) = ⟨leNat a, leNat b, signed (leNat c), d⟩ := by
  have hab : (a ++ b).length = 8 := by rw [List.length_append, ha, hb]
  have habc : (a ++ b ++ c).length = 16 := by rw [List.length_append, hab, hc]
  unfold unpack
  rw [List.drop_left' habc, List.append_assoc (a ++ b) c d, List.drop_left' hab,
    List.take_left' hc, List.append_assoc a b (c ++ d), List.drop_left' ha, List.take_left' hb,
    List.take_left' ha, List.take_of_length_le (Nat.le_of_eq hd)]

/-- A record is its four fields. -/
theorem exists_parts (h : r.length = EVENT_SIZE) : ∃ a b c d : Bytes, r = a ++ b ++ c ++ d ∧
    a.length = 4 ∧ b.length = 4 ∧ c.length = 8 ∧ d.length = 16 := by
  have hlen : r.length = 32 := h
  refine ⟨r.take 4, (r.drop 4).take 4, (r.drop 8).take 8, r.drop 16, ?_, ?_, ?_, ?_, ?_⟩
  · have h₁ : r.take 4 ++ (r.drop 4).take 4 = r.take 8 := List.take_add.symm
    have h₂ : r.take 8 ++ (r.drop 8).take 8 = r.take 16 := List.take_add.symm
    rw [h₁, h₂, List.take_append_drop]
  all_goals simp [hlen]

theorem unpack_pack (h : e.pack = some r) : unpack r = e.padded := by
  have hf := fits_of_pack h
  rw [pack_eq hf] at h
  cases h
  rw [unpack_append (length_leBytes ..) (length_leBytes ..) (length_leBytes ..)
    (length_payload16 _)]
  obtain ⟨⟨hp, hp'⟩, ⟨hs, hs'⟩, ht⟩ := hf
  have hstamp : leNat (leBytes 8 (e.stamp_ns % 2 ^ 64).toNat) = (e.stamp_ns % 2 ^ 64).toNat :=
    leNat_leBytes _ _ (by omega)
  rw [leNat_leBytes 4 e.producer_id.toNat (by omega), leNat_leBytes 4 e.seq.toNat (by omega),
    hstamp, signed_mod ht, Int.toNat_of_nonneg hp, Int.toNat_of_nonneg hs]
  rfl

theorem payload16_of_length {p : Bytes} (h : p.length = 16) : payload16 p = p := by
  unfold payload16
  rw [h, List.take_of_length_le (Nat.le_of_eq h), Nat.sub_self, List.replicate_zero,
    List.append_nil]

theorem pack_unpack (h : r.length = EVENT_SIZE) : (unpack r).pack = some r := by
  obtain ⟨a, b, c, d, rfl, ha, hb, hc, hd⟩ := exists_parts h
  have ha' := leNat_lt a
  have hb' := leNat_lt b
  have hc' := leNat_lt c
  rw [ha] at ha'
  rw [hb] at hb'
  rw [hc] at hc'
  rw [unpack_append ha hb hc hd]
  refine (pack_eq ⟨⟨by simp, by simp; omega⟩, ⟨by simp, by simp; omega⟩, signed_fits hc'⟩).trans ?_
  dsimp only
  rw [Int.toNat_natCast, Int.toNat_natCast, mod_signed hc', payload16_of_length hd,
    ← ha, leBytes_leNat, ha, ← hb, leBytes_leNat, ← hc, leBytes_leNat]

/-! ## Blobs -/

variable {l : List Bytes}

theorem exists_records (h : blob.length % EVENT_SIZE = 0) :
    ∃ l, Uniform EVENT_SIZE l ∧ l.flatten = blob := by
  obtain ⟨k, hk⟩ := Nat.dvd_of_mod_eq_zero h
  clear h
  induction k generalizing blob with
  | zero => exact ⟨[], .nil, (List.length_eq_zero_iff.mp hk).symm⟩
  | succ k ih =>
    rw [Nat.mul_succ] at hk
    have hrest : (blob.drop EVENT_SIZE).length = EVENT_SIZE * k := by
      rw [List.length_drop, hk, Nat.add_sub_cancel]
    obtain ⟨l, hl, hf⟩ := ih hrest
    have hfirst : (blob.take EVENT_SIZE).length = EVENT_SIZE := by
      rw [List.length_take, hk]
      exact Nat.min_eq_left (Nat.le_add_left _ _)
    refine ⟨blob.take EVENT_SIZE :: l, uniform_cons.mpr ⟨hfirst, hl⟩, ?_⟩
    rw [List.flatten_cons, hf, List.take_append_drop]

/-- The records of a blob that is a concatenation of them. -/
theorem records_spec (h : blob.length % EVENT_SIZE = 0) :
    Uniform EVENT_SIZE (records blob) ∧ (records blob).flatten = blob := by
  obtain ⟨l, hl, rfl⟩ := exists_records h
  rw [records_flatten hl]
  exact ⟨hl, rfl⟩

theorem iter_events_eq (h : blob.length % EVENT_SIZE = 0) :
    iter_events blob = some ((records blob).map unpack) := by
  unfold iter_events
  rw [if_pos h]

theorem iter_events_flatten (h : Uniform EVENT_SIZE l) :
    iter_events l.flatten = some (l.map unpack) := by
  have hlen : l.flatten.length % EVENT_SIZE = 0 := by
    rw [h.length_flatten]
    exact Nat.mul_mod_left _ _
  rw [iter_events_eq hlen, records_flatten h]

theorem map_pack_unpack (h : Uniform EVENT_SIZE l) :
    (l.map unpack).map Fields.pack = l.map some := by
  have hpack : ∀ r ∈ l, Function.comp Fields.pack unpack r = some r := by
    intro r hr
    rw [Function.comp_apply, pack_unpack (h r hr)]
  rw [List.map_map, List.map_congr_left hpack]

/-- What was taken apart packs to the same bytes. -/
theorem repack (h : blob.length % EVENT_SIZE = 0) :
    ∃ (es : List Fields) (rs : List Bytes), iter_events blob = some es ∧
      es.map Fields.pack = rs.map some ∧ rs.flatten = blob := by
  obtain ⟨hu, hf⟩ := records_spec h
  refine ⟨_, records blob, iter_events_eq h, ?_, hf⟩
  exact map_pack_unpack hu

theorem uniform_pack {es : List Fields} (h : es.map Fields.pack = l.map some) :
    Uniform EVENT_SIZE l := by
  intro r hr
  have hmem : some r ∈ es.map Fields.pack := h ▸ List.mem_map_of_mem hr
  obtain ⟨e, -, he⟩ := List.mem_map.mp hmem
  exact length_pack he

theorem map_unpack_pack {es : List Fields} (h : es.map Fields.pack = l.map some) :
    l.map unpack = es.map Fields.padded := by
  induction es generalizing l with
  | nil =>
    obtain rfl := List.map_eq_nil_iff.mp h.symm
    rfl
  | cons e es ih =>
    obtain ⟨r, l, rfl, hr, hl⟩ := List.map_eq_cons_iff.mp h.symm
    rw [List.map_cons, List.map_cons, unpack_pack hr.symm, ih hl.symm]

/-! ## Go's events -/

/-- mirrors mpsc-event-pipeline-kata/go/internal/weir/event.go:26-31 -/
structure GoEvent where
  ProducerID : UInt32
  Seq : UInt32
  StampNs : Int64
  Payload : Vector UInt8 16

/-- The bytes behind an event on a little-endian host, each field at its offset.
mirrors mpsc-event-pipeline-kata/go/internal/weir/event.go:48-57 -/
def GoEvent.bytes (e : GoEvent) : Bytes :=
  leBytes 4 e.ProducerID.toNat ++ leBytes 4 e.Seq.toNat ++ leBytes 8 e.StampNs.toUInt64.toNat ++
    e.Payload.toList

/-- The empty list stands for `nil`.
mirrors mpsc-event-pipeline-kata/go/internal/weir/event.go:79-84 -/
def EventsAsBytes (ev : List GoEvent) : Bytes :=
  if ev.length = 0 then [] else (ev.map GoEvent.bytes).flatten

/-- What the fields hold. -/
def GoEvent.fields (e : GoEvent) : Fields :=
  ⟨e.ProducerID.toNat, e.Seq.toNat, e.StampNs.toInt, e.Payload.toList⟩

theorem GoEvent.fits (e : GoEvent) : e.fields.Fits := by
  refine ⟨⟨Int.natCast_nonneg _, ?_⟩, ⟨Int.natCast_nonneg _, ?_⟩, e.StampNs.le_toInt,
    e.StampNs.toInt_lt⟩
  · exact Int.ofNat_lt.mpr e.ProducerID.toNat_lt
  · exact Int.ofNat_lt.mpr e.Seq.toNat_lt

theorem stamp_mod (t : Int64) : (t.toInt % 2 ^ 64).toNat = t.toUInt64.toNat := by
  have hlt := t.toBitVec.isLt
  show (t.toBitVec.toInt % 2 ^ 64).toNat = t.toBitVec.toNat
  rw [BitVec.toInt_eq_toNat_cond]
  split <;> omega

/-- Its bytes are the record of its fields. -/
theorem GoEvent.pack_fields (e : GoEvent) : e.fields.pack = some e.bytes := by
  have hp : e.Payload.toList.length = 16 := Vector.length_toList
  rw [pack_eq e.fits]
  unfold GoEvent.fields GoEvent.bytes
  dsimp only
  rw [Int.toNat_natCast, Int.toNat_natCast, stamp_mod, payload16_of_length hp]

theorem map_pack_fields (ev : List GoEvent) :
    (ev.map GoEvent.fields).map Fields.pack = (ev.map GoEvent.bytes).map some := by
  have hpack : ∀ e ∈ ev, Function.comp Fields.pack GoEvent.fields e =
      Function.comp some GoEvent.bytes e := by
    intro e _
    rw [Function.comp_apply, e.pack_fields, Function.comp_apply]
  rw [List.map_map, List.map_map, List.map_congr_left hpack]

theorem eventsAsBytes_eq (ev : List GoEvent) :
    EventsAsBytes ev = (ev.map GoEvent.bytes).flatten := by
  unfold EventsAsBytes
  split
  · rename_i h
    rw [List.length_eq_zero_iff.mp h]
    rfl
  · rfl

/-- A blob that takes apart into Go's events is their bytes. -/
theorem eq_eventsAsBytes {ev : List GoEvent}
    (h : iter_events blob = some (ev.map GoEvent.fields)) : blob = EventsAsBytes ev := by
  have hlen : blob.length % EVENT_SIZE = 0 := by
    by_contra hne
    rw [iter_events, if_neg hne] at h
    cases h
  obtain ⟨hu, hf⟩ := records_spec hlen
  rw [iter_events_eq hlen] at h
  have hmap : (records blob).map some = (ev.map GoEvent.bytes).map some := by
    rw [← map_pack_unpack hu, Option.some.inj h, map_pack_fields]
  rw [eventsAsBytes_eq, ← List.map_injective_iff.mpr (fun _ _ => Option.some.inj) hmap, hf]

theorem GoEvent.padded_fields (e : GoEvent) : e.fields.padded = e.fields := by
  unfold Fields.padded GoEvent.fields
  rw [payload16_of_length Vector.length_toList]

theorem GoEvent.unpack_bytes (e : GoEvent) : unpack e.bytes = e.fields := by
  rw [unpack_pack e.pack_fields, e.padded_fields]

/-- Every record is the bytes of an event. -/
theorem exists_goEvent (h : r.length = EVENT_SIZE) : ∃ e : GoEvent, e.bytes = r := by
  obtain ⟨a, b, c, d, rfl, ha, hb, hc, hd⟩ := exists_parts h
  have ha' : leNat a < 2 ^ 32 := by simpa [ha] using leNat_lt a
  have hb' : leNat b < 2 ^ 32 := by simpa [hb] using leNat_lt b
  have hc' : leNat c < 2 ^ 64 := by simpa [hc] using leNat_lt c
  refine ⟨⟨.ofNat (leNat a), .ofNat (leNat b), (UInt64.ofNat (leNat c)).toInt64,
    ⟨d.toArray, by simpa using hd⟩⟩, ?_⟩
  unfold GoEvent.bytes
  dsimp only
  rw [UInt32.toNat_ofNat_of_lt' ha', UInt32.toNat_ofNat_of_lt' hb', UInt64.toUInt64_toInt64,
    UInt64.toNat_ofNat_of_lt' hc']
  rw [← ha, leBytes_leNat, ha, ← hb, leBytes_leNat, ← hc, leBytes_leNat]
  rfl

theorem exists_goEvents (h : Uniform EVENT_SIZE l) :
    ∃ ev : List GoEvent, l.map unpack = ev.map GoEvent.fields ∧ l.flatten = EventsAsBytes ev := by
  induction l with
  | nil => exact ⟨[], rfl, rfl⟩
  | cons r l ih =>
    obtain ⟨hr, hl⟩ := uniform_cons.mp h
    obtain ⟨e, rfl⟩ := exists_goEvent hr
    obtain ⟨ev, hmap, hflat⟩ := ih hl
    refine ⟨e :: ev, ?_, ?_⟩
    · rw [List.map_cons, List.map_cons, e.unpack_bytes, hmap]
    · rw [eventsAsBytes_eq] at hflat ⊢
      rw [List.flatten_cons, List.map_cons, List.flatten_cons, hflat]

end Event
end Katas.Weir
