import Katas.Switchyard.Ordered

/-!
# The packet stream and its frequencies

The stream that the arms are measured on, and the frequencies that `ScanOrdered`
sorts by. A packet counts for the handler that was drawn for it. Handlers with a
residual predicate share keys, and which of them matches is decided by a payload
byte that is drawn after, so a packet can count for one and be matched by
another, or by none.
-/
namespace Katas.Switchyard

/-- mirrors plugin-dispatch-kata/cpp/src/config.hpp:15 -/
def kHandlers : Nat := 100

/-- mirrors plugin-dispatch-kata/cpp/src/config.hpp:21 -/
def kUnmatchedKeyBase : UInt16 := 4096

/-- mirrors plugin-dispatch-kata/cpp/src/config.hpp:39 -/
def kPacketPool : Nat := 1 <<< 15

/-! ## The generated handlers -/

/-- mirrors plugin-dispatch-kata/cpp/src/generated.hpp:38 -/
def residualOf (n : Nat) : Bool := n % 10 == 7

/-- mirrors plugin-dispatch-kata/cpp/src/generated.hpp:44-47 -/
def keyOf (n : Nat) : UInt16 := if residualOf n then .ofNat (900 + n % 3) else .ofNat n

/-- The clause on the first byte of the payload. -/
def inRange (n : Nat) (b : UInt8) : Bool := b.toNat &&& 3 == n / 10 &&& 3

/-- mirrors plugin-dispatch-kata/cpp/src/generated.hpp:71-84 (`GeneratedT::matches`) -/
def generatedMatches (n : Nat) (p : Packet) : Bool :=
  if p.protocol != keyOf n then false
  else if residualOf n then inRange n p.payload[0] else true

/-- mirrors plugin-dispatch-kata/cpp/src/generated.hpp:66-91 (`GeneratedT`) -/
def generated (n : Nat) : Declaring := ⟨n, ⟨keyOf n, residualOf n⟩, generatedMatches n⟩

/-- mirrors plugin-dispatch-kata/cpp/src/generated.hpp:111-113 (`HandlerSet::first`) -/
def first (n : Nat) : List Declaring := (List.range n).map generated

/-! ## The stream -/

/-- mirrors plugin-dispatch-kata/cpp/src/packet.hpp:58-63 -/
inductive Distribution where
  | Uniform
  | Zipf
  | Hot95
  | Worst
  deriving DecidableEq, Repr

/-- What one packet takes from the generator. The second draw is `key` if the
packet is to be unmatched, else `choice`. -/
structure Draw (F : Type) where
  miss : F
  key : UInt64
  choice : F
  flags : UInt64
  payload : Vector UInt64 24

/-- mirrors plugin-dispatch-kata/cpp/src/packet.hpp:180-183 -/
structure PacketStream where
  packets : List Packet
  freq : List UInt64

variable {F : Type}

section cdf
variable [Add F] [Div F] [NatCast F] [OfScientific F]

/-- The weight of the `i`-th of `n`; `pow` is `std::pow`.
mirrors plugin-dispatch-kata/cpp/src/packet.hpp:142-158 -/
def weight (pow : F → F → F) (d : Distribution) (n i : Nat) : F :=
  match d with
  | .Uniform => 1.0
  | .Zipf => 1.0 / pow (i + 1.0) 1.1
  | .Hot95 => if i < 2 then 0.475 else 0.05 / (n - 2 : Nat)
  | .Worst => if i + 1 = n then 1.0 else 0.0

/-- mirrors plugin-dispatch-kata/cpp/src/packet.hpp:163-166 -/
def accumulate (sum acc : F) : List F → List F
  | [] => []
  | x :: w => (acc + x / sum) :: accumulate sum (acc + x / sum) w

/-- mirrors plugin-dispatch-kata/cpp/src/packet.hpp:122-167 (`cdf_`) -/
def buildCdf (pow : F → F → F) (d : Distribution) (n : Nat) : List F :=
  let w := (List.range n).map (weight pow d n)
  accumulate (w.foldl (· + ·) 0.0) 0.0 w

end cdf

/-- `shuffled` is what `std::shuffle` makes of the handlers.
mirrors plugin-dispatch-kata/cpp/src/packet.hpp:124-138 (`perm_`) -/
def buildPerm (d : Distribution) (n : Nat) (shuffled : List Nat) : List Nat :=
  if d = .Worst then List.range n else shuffled

/-- mirrors plugin-dispatch-kata/cpp/src/packet.hpp:169-176 -/
def pick [LE F] [DecidableLE F] (cdf : List F) (perm : List Nat) (u : F) : Nat :=
  perm.getD (cdf.findIdx fun c => u ≤ c) (perm.getLastD 0)

/-- mirrors plugin-dispatch-kata/cpp/src/packet.hpp:104-106 -/
def Draw.packet (r : Draw F) (protocol : UInt16) : Packet :=
  ⟨protocol, 64, r.flags.toUInt32, r.payload.map (·.toUInt8)⟩

section stream
variable [OfScientific F] [LE F] [DecidableLE F] [LT F] [DecidableLT F]

/-- mirrors plugin-dispatch-kata/cpp/src/packet.hpp:94-107 -/
def PacketStream.add (keys : List UInt16) (cdf : List F) (perm : List Nat) (s : PacketStream)
    (r : Draw F) : PacketStream :=
  if r.miss < 0.02 then
    { s with packets := s.packets ++ [r.packet (kUnmatchedKeyBase + (r.key % 256).toUInt16)] }
  else
    let h := pick cdf perm r.choice
    ⟨s.packets ++ [r.packet (keys.getD h 0)], s.freq.modify h (· + 1)⟩

/-- mirrors plugin-dispatch-kata/cpp/src/packet.hpp:85-108 (`PacketStream`) -/
def PacketStream.build [Add F] [Div F] [NatCast F] (pow : F → F → F) (d : Distribution) (keys : List UInt16)
    (shuffled : List Nat) (draws : Vector (Draw F) kPacketPool) : PacketStream :=
  draws.toList.foldl
    (PacketStream.add keys (buildCdf pow d keys.length) (buildPerm d keys.length shuffled))
    ⟨[], List.replicate keys.length 0⟩

/-- mirrors plugin-dispatch-kata/cpp/src/packet.hpp:119 -/
def PacketStream.frequencies (s : PacketStream) : List UInt64 := s.freq

end stream

/-! ## Who matches -/

/-- Does the handler match the packets of the other's key? -/
def shares (h k : Nat) : Bool := k != h && keyOf k == keyOf h

theorem keyOf_distinct {h k : Nat} (hh : h < kHandlers) (hk : k < kHandlers) (hne : k ≠ h)
    (heq : keyOf k = keyOf h) :
    residualOf h = true ∧ residualOf k = true ∧ (h / 10 &&& 3) ≠ (k / 10 &&& 3) := by
  have hall : ∀ h : Fin kHandlers, ∀ k : Fin kHandlers, k ≠ h → keyOf k = keyOf h →
      residualOf h = true ∧ residualOf k = true ∧ (h.val / 10 &&& 3) ≠ (k.val / 10 &&& 3) := by
    decide +kernel
  exact hall ⟨h, hh⟩ ⟨k, hk⟩ (fun he => hne (congrArg Fin.val he)) heq

theorem keyOf_lt {n : Nat} (h : n < kHandlers) : keyOf n < kUnmatchedKeyBase := by
  have hall : ∀ n : Fin kHandlers, keyOf n < kUnmatchedKeyBase := by decide +kernel
  exact hall ⟨n, h⟩

theorem generatedMatches_iff {n : Nat} {p : Packet} :
    generatedMatches n p = true ↔
      p.protocol = keyOf n ∧ (residualOf n = true → inRange n p.payload[0] = true) := by
  unfold generatedMatches
  split
  · simp_all
  · split <;> simp_all

theorem generated_disjoint {h k : Nat} (hh : h < kHandlers) (hk : k < kHandlers) (hne : h ≠ k) :
    (generated h).Disjoint (generated k) := by
  rintro p ⟨hph, hpk⟩
  obtain ⟨hkey, hph⟩ := generatedMatches_iff.mp hph
  obtain ⟨hkey', hpk⟩ := generatedMatches_iff.mp hpk
  obtain ⟨hrk, hrh, hdiff⟩ := keyOf_distinct hk hh hne (hkey.symm.trans hkey')
  exact hdiff ((beq_iff_eq.mp (hpk hrk)).symm.trans (beq_iff_eq.mp (hph hrh)))

theorem first_disjoint {n : Nat} (hn : n ≤ kHandlers) :
    (first n).Pairwise Declaring.Disjoint := by
  unfold first
  rw [List.pairwise_map]
  refine List.nodup_range.imp_of_mem fun {h k} hh hk hne => ?_
  exact generated_disjoint ((List.mem_range.mp hh).trans_le hn)
    ((List.mem_range.mp hk).trans_le hn) hne

/-- The index of the first handler that matches the packet. -/
def firstMatch (n : Nat) (p : Packet) : Option Nat := (scan p (first n)).map (·.address)

theorem firstMatch_iff {n h : Nat} (hn : n ≤ kHandlers) (hh : h < n) {p : Packet} :
    firstMatch n p = some h ↔ generatedMatches h p = true := by
  unfold firstMatch
  rw [Option.map_eq_some_iff]
  constructor
  · rintro ⟨d, hd, ha⟩
    obtain ⟨hmem, hm⟩ := (scan_some (first_disjoint hn)).mp hd
    obtain ⟨k, -, rfl⟩ := List.mem_map.mp hmem
    obtain rfl : k = h := ha
    exact hm
  · intro hm
    exact ⟨generated h, (scan_some (first_disjoint hn)).mpr
      ⟨List.mem_map_of_mem (List.mem_range.mpr hh), hm⟩, rfl⟩

/-- How many of the packets the handler is the first to match. -/
def traffic (n : Nat) (ps : List Packet) (h : Nat) : Nat :=
  ps.countP fun p => firstMatch n p == some h

/-! ## Who is drawn -/

/-- The first byte of the payload. -/
def Draw.byte (r : Draw F) : UInt8 := r.payload[0].toUInt8

theorem Draw.packet_byte (r : Draw F) (protocol : UInt16) :
    (r.packet protocol).payload[0] = r.byte := by
  simp [Draw.packet, Draw.byte]

variable {cdf : List F} {perm : List Nat} {draws : List (Draw F)} {n h : Nat}

theorem pick_lt [LE F] [DecidableLE F] (cdf : List F) (hp : perm.Perm (List.range n)) (hn : 0 < n) (u : F) : pick cdf perm u < n := by
  have hmem : ∀ i, perm.getD i (perm.getLastD 0) ∈ perm := by
    intro i
    have hne : perm ≠ [] := fun h => by simp [h] at hp; omega
    rw [List.getD]
    cases hi : perm[i]? with
    | some k => exact List.mem_of_getElem? hi
    | none =>
      rw [Option.getD_none, List.getLastD_eq_getLast?, List.getLast?_eq_some_getLast hne]
      exact List.getLast_mem hne
  exact List.mem_range.mp (hp.mem_iff.mp (hmem _))

section counts
variable [OfScientific F] [LE F] [DecidableLE F] [LT F] [DecidableLT F]

/-- The handler that a packet counts for. -/
def Draw.counted (cdf : List F) (perm : List Nat) (r : Draw F) : Option Nat :=
  if r.miss < 0.02 then none else some (pick cdf perm r.choice)

theorem add_freq (keys : List UInt16) (s : PacketStream) (r : Draw F) {h : Nat} {f : UInt64}
    (hf : s.freq[h]? = some f) :
    (PacketStream.add keys cdf perm s r).freq[h]? =
      some (f + if r.counted cdf perm = some h then 1 else 0) := by
  unfold PacketStream.add Draw.counted
  split
  · simpa using hf
  · rw [List.getElem?_modify, hf]
    by_cases hk : pick cdf perm r.choice = h <;> simp [hk]

theorem foldl_freq (keys : List UInt16) (s : PacketStream) {h : Nat} {f : UInt64}
    (hf : s.freq[h]? = some f) :
    (draws.foldl (PacketStream.add keys cdf perm) s).freq[h]? =
      some (f + .ofNat (draws.countP fun r => r.counted cdf perm == some h)) := by
  induction draws generalizing s f with
  | nil => simpa using hf
  | cons r draws ih =>
    rw [List.foldl_cons, ih _ (add_freq keys s r hf), List.countP_cons]
    by_cases hr : r.counted cdf perm = some h
    · simp [hr, UInt64.add_assoc, UInt64.add_comm]
    · simp [hr]

/-- The packet that a draw makes. -/
def Draw.made (keys : List UInt16) (cdf : List F) (perm : List Nat) (r : Draw F) : Packet :=
  r.packet <|
    if r.miss < 0.02 then kUnmatchedKeyBase + (r.key % 256).toUInt16
    else keys.getD (pick cdf perm r.choice) 0

theorem foldl_packets (keys : List UInt16) (s : PacketStream) :
    (draws.foldl (PacketStream.add keys cdf perm) s).packets =
      s.packets ++ draws.map (Draw.made keys cdf perm) := by
  induction draws generalizing s with
  | nil => simp
  | cons r draws ih =>
    have hstep : (PacketStream.add keys cdf perm s r).packets =
        s.packets ++ [r.made keys cdf perm] := by
      unfold PacketStream.add Draw.made
      split <;> rfl
    rw [List.foldl_cons, ih, hstep, List.append_assoc, List.map_cons, List.singleton_append]

/-! ## Who is matched -/

/-- Does the packet count for the handler, which does not match it? -/
def Draw.lost (cdf : List F) (perm : List Nat) (h : Nat) (r : Draw F) : Bool :=
  r.counted cdf perm == some h && residualOf h && !inRange h r.byte

/-- Does the packet count for another handler of the key, and does the handler
match it? -/
def Draw.gained (cdf : List F) (perm : List Nat) (h : Nat) (r : Draw F) : Bool :=
  (r.counted cdf perm).any (shares h) && inRange h r.byte

theorem unmatched_key (hh : h < kHandlers) (key : UInt64) :
    kUnmatchedKeyBase + (key % 256).toUInt16 ≠ keyOf h := by
  intro heq
  have hlt := keyOf_lt hh
  rw [← heq, UInt16.lt_iff_toNat_lt] at hlt
  have hmod : key.toNat % 256 < 256 := Nat.mod_lt _ (by decide)
  simp [kUnmatchedKeyBase, UInt16.toNat_add] at hlt
  omega

/-- No other handler has the key of one that is not residual. -/
theorem pure_balance (hn : n ≤ kHandlers) (cdf : List F) (hp : perm.Perm (List.range n)) (hh : h < n)
    (hres : residualOf h = false) (r : Draw F) :
    r.lost cdf perm h = false ∧ r.gained cdf perm h = false := by
  unfold Draw.lost Draw.gained Draw.counted
  refine ⟨by simp [hres], ?_⟩
  split
  · rfl
  · have hk := pick_lt cdf hp (Nat.zero_lt_of_lt hh) r.choice
    rw [Option.any_some, Bool.and_eq_false_iff]
    refine .inl (Bool.eq_false_iff.mpr fun hs => ?_)
    obtain ⟨hne, heq⟩ := Bool.and_eq_true_iff.mp hs
    obtain ⟨hres', -, -⟩ := keyOf_distinct (hh.trans_le hn) (hk.trans_le hn)
      (bne_iff_ne.mp hne) (beq_iff_eq.mp heq)
    exact Bool.false_ne_true (hres.symm.trans hres')

/-- One packet: what it counts for, what matches it, and the difference. -/
theorem made_balance (hn : n ≤ kHandlers) (hp : perm.Perm (List.range n)) (hh : h < n)
    (r : Draw F) :
    (generatedMatches h (r.made ((List.range n).map keyOf) cdf perm)).toNat +
        (r.lost cdf perm h).toNat =
      (r.counted cdf perm == some h).toNat + (r.gained cdf perm h).toNat := by
  unfold generatedMatches Draw.lost Draw.gained Draw.counted Draw.made
  rw [Draw.packet_byte]
  dsimp only [Draw.packet]
  split
  · have hne := unmatched_key (hh.trans_le hn) r.key
    simp [hne]
  · have hk := pick_lt cdf hp (Nat.zero_lt_of_lt hh) r.choice
    generalize pick cdf perm r.choice = k at hk
    have hkey : ((List.range n).map keyOf).getD k 0 = keyOf k := by simp [List.getD, hk]
    rw [hkey]
    by_cases hkh : k = h
    · subst hkh
      cases residualOf k <;> cases inRange k r.byte <;> simp [shares]
    · have hbeq : (k == h) = false := beq_false_of_ne hkh
      by_cases heq : keyOf k = keyOf h
      · obtain ⟨hres, -, -⟩ := keyOf_distinct (hh.trans_le hn) (hk.trans_le hn) hkh heq
        cases inRange h r.byte <;> simp [shares, bne, hbeq, heq, hres]
      · have hkeys : (keyOf k == keyOf h) = false := beq_false_of_ne heq
        simp [shares, hbeq, hkeys, heq]

theorem countP_balance {A : Type} {p q r s : A → Bool} {l : List A}
    (h : ∀ a, (p a).toNat + (q a).toNat = (r a).toNat + (s a).toNat) :
    l.countP p + l.countP q = l.countP r + l.countP s := by
  induction l with
  | nil => rfl
  | cons a l ih =>
    have ha := h a
    have hite : ∀ b : Bool, (if b = true then 1 else 0) = b.toNat := fun b => by cases b <;> rfl
    simp only [List.countP_cons, hite]
    omega

/-- The packets that the handler matches, and those that count for it. -/
theorem traffic_balance (hn : n ≤ kHandlers) (cdf : List F) (hp : perm.Perm (List.range n))
    (hh : h < n) (draws : List (Draw F)) :
    traffic n (draws.map (Draw.made ((List.range n).map keyOf) cdf perm)) h +
        draws.countP (Draw.lost cdf perm h) =
      draws.countP (fun r => r.counted cdf perm == some h) +
        draws.countP (Draw.gained cdf perm h) := by
  have hfirst : ∀ p, (firstMatch n p == some h) = generatedMatches h p := fun p => by
    rw [Bool.eq_iff_iff, beq_iff_eq]
    exact firstMatch_iff hn hh
  unfold traffic
  simp only [hfirst]
  rw [List.countP_map]
  exact countP_balance fun r => made_balance hn hp hh r

end counts

/-! ## The frequencies -/

section
variable [Add F] [Div F] [NatCast F] [OfScientific F] [LE F] [DecidableLE F] [LT F]
  [DecidableLT F]

/-- Each handler's frequency is the number of packets that it is the first to
match, and `ScanOrdered` sorts by these. -/
structure PacketStream.Told (n : Nat) (s : PacketStream) : Prop where
  freq : ∀ h < n, ∃ f : UInt64, s.frequencies[h]? = some f ∧ f.toNat = traffic n s.packets h
  order : (ScanOrdered.order n s.frequencies).Pairwise fun h k =>
    traffic n s.packets k ≤ traffic n s.packets h

/-- For each residual handler, as many packets are drawn for it that it does not
match as are drawn for others that it does. -/
def Balanced (pow : F → F → F) (d : Distribution) (n : Nat) (shuffled : List Nat)
    (draws : Vector (Draw F) kPacketPool) : Prop :=
  ∀ h < n, residualOf h = true →
    draws.toList.countP (Draw.lost (buildCdf pow d n) (buildPerm d n shuffled) h) =
      draws.toList.countP (Draw.gained (buildCdf pow d n) (buildPerm d n shuffled) h)

theorem told_of_freq {s : PacketStream} (hf : ∀ h < n, ∃ f : UInt64,
    s.frequencies[h]? = some f ∧ f.toNat = traffic n s.packets h) : s.Told n := by
  refine ⟨hf, ?_⟩
  refine (order_pairwise n s.frequencies).imp_of_mem fun {h k} hh hk hle => ?_
  have hlt : ∀ {h}, h ∈ ScanOrdered.order n s.frequencies → h < n := fun hm =>
    List.mem_range.mp (List.mem_mergeSort.mp hm)
  obtain ⟨f, hfh, hfn⟩ := hf h (hlt hh)
  obtain ⟨g, hgk, hgn⟩ := hf k (hlt hk)
  rw [List.getD, List.getD, hfh, hgk] at hle
  rw [← hfn, ← hgn]
  exact UInt64.le_iff_toNat_le.mp hle

theorem build_freq (pow : F → F → F) (d : Distribution) (shuffled : List Nat)
    (draws : Vector (Draw F) kPacketPool) (hh : h < n) :
    ∃ f : UInt64, (PacketStream.build pow d ((List.range n).map keyOf) shuffled
        draws).frequencies[h]? = some f ∧
      f.toNat = draws.toList.countP fun r =>
        r.counted (buildCdf pow d n) (buildPerm d n shuffled) == some h := by
  unfold PacketStream.frequencies PacketStream.build
  rw [List.length_map, List.length_range]
  refine ⟨_, foldl_freq _ _ (f := 0) (by simp [hh]), ?_⟩
  have hle := List.countP_le_length (l := draws.toList) (p := fun r =>
    r.counted (buildCdf pow d n) (buildPerm d n shuffled) == some h)
  rw [Vector.length_toList] at hle
  rw [UInt64.zero_add, UInt64.toNat_ofNat_of_lt']
  exact hle.trans_lt (by decide)

theorem build_traffic (pow : F → F → F) (d : Distribution) (shuffled : List Nat)
    (draws : Vector (Draw F) kPacketPool) :
    (PacketStream.build pow d ((List.range n).map keyOf) shuffled draws).packets =
      draws.toList.map (Draw.made ((List.range n).map keyOf) (buildCdf pow d n)
        (buildPerm d n shuffled)) := by
  unfold PacketStream.build
  rw [foldl_packets, List.nil_append, List.length_map, List.length_range]

theorem buildPerm_perm (d : Distribution) {shuffled : List Nat}
    (hs : shuffled.Perm (List.range n)) : (buildPerm d n shuffled).Perm (List.range n) := by
  unfold buildPerm
  split
  · rfl
  · exact hs

theorem PacketStream.Told.balanced {pow : F → F → F} {d : Distribution} {shuffled : List Nat}
    (hn : n ≤ kHandlers) (hs : shuffled.Perm (List.range n))
    {draws : Vector (Draw F) kPacketPool}
    (ht : (PacketStream.build pow d ((List.range n).map keyOf) shuffled draws).Told n) :
    Balanced pow d n shuffled draws := by
  intro h hh _
  obtain ⟨f, hf, hft⟩ := ht.freq h hh
  obtain ⟨g, hg, hgn⟩ := build_freq pow d shuffled draws hh
  obtain rfl : f = g := Option.some.inj (hf.symm.trans hg)
  have := traffic_balance hn (buildCdf pow d n) (buildPerm_perm d hs) hh draws.toList
  rw [build_traffic] at hft
  omega

/-- The frequencies are told if and only if, for each residual handler, the
packets drawn for it that it does not match are as many as those drawn for others
that it does. -/
theorem told_iff_balanced (pow : F → F → F) (d : Distribution) (n : Nat) (hn : n ≤ kHandlers)
    (shuffled : List Nat) (hs : shuffled.Perm (List.range n))
    (draws : Vector (Draw F) kPacketPool) :
    (PacketStream.build pow d ((List.range n).map keyOf) shuffled draws).Told n ↔
      Balanced pow d n shuffled draws := by
  refine ⟨fun ht => ht.balanced hn hs, fun hb => told_of_freq fun h hh => ?_⟩
  obtain ⟨f, hf, hfn⟩ := build_freq pow d shuffled draws hh
  refine ⟨f, hf, ?_⟩
  have hbal := traffic_balance hn (buildCdf pow d n) (buildPerm_perm d hs) hh draws.toList
  rw [build_traffic]
  cases hres : residualOf h with
  | true =>
    have := hb h hh hres
    omega
  | false =>
    have hnone := pure_balance hn (buildCdf pow d n) (buildPerm_perm d hs) hh hres
    rw [List.countP_eq_zero.mpr fun r _ => Bool.eq_false_iff.mp (hnone r).1,
      List.countP_eq_zero.mpr fun r _ => Bool.eq_false_iff.mp (hnone r).2] at hbal
    omega

end

/-! ## Ten handlers -/

/-- Drawn for handler 7 of ten of the same weight, with a payload of these bytes. -/
def drawn (b : UInt64) : Draw Rat := ⟨1/2, 0, 3/4, 0, .replicate 24 b⟩

/-- Every packet counts for handler 7, which matches none of them. -/
theorem not_told : ¬ ∀ (pow : Rat → Rat → Rat) (d : Distribution) (n : Nat), n ≤ kHandlers →
    ∀ shuffled : List Nat, shuffled.Perm (List.range n) →
    ∀ draws : Vector (Draw Rat) kPacketPool,
    (PacketStream.build pow d ((List.range n).map keyOf) shuffled draws).Told n := by
  intro hall
  have hb := (hall (fun x _ => x) .Uniform 10 (by decide) _ (.refl _) (.replicate _ (drawn 1))).balanced
    (by decide) (.refl _) 7 (by decide) (by decide)
  rw [Vector.toList_replicate, List.countP_replicate, List.countP_replicate,
    if_pos (by decide +kernel), if_neg (by decide +kernel)] at hb
  exact absurd hb (by decide)

theorem told_iff_balanced_ten :
    (PacketStream.build (fun x _ => x) .Uniform ((List.range 10).map keyOf) (List.range 10)
      (.replicate _ (drawn 0))).Told 10 := by
  refine (told_iff_balanced _ _ 10 (by decide) _ (.refl _) _).mpr fun h hh _ => ?_
  have hnone : ∀ h : Fin 10,
      (drawn 0).lost (buildCdf (fun x _ => x) .Uniform 10) (List.range 10) h = false ∧
      (drawn 0).gained (buildCdf (fun x _ => x) .Uniform 10) (List.range 10) h = false := by
    decide +kernel
  obtain ⟨hl, hg⟩ := hnone ⟨h, hh⟩
  rw [Vector.toList_replicate, List.countP_replicate, List.countP_replicate]
  exact (if_neg (Bool.eq_false_iff.mp hl)).trans (if_neg (Bool.eq_false_iff.mp hg)).symm

end Katas.Switchyard
