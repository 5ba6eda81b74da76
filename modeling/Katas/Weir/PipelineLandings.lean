import Katas.Weir.PipelineCalls

/-!
# Where the consumer lands

The consumer goes from slot to slot, and from pass to pass. Where it lands it
has taken nothing yet, and a scan that it begins has read no slot.
-/
namespace Katas.Weir.Pipeline
open Katas.Conc Flow

section
variable {V Tid : Type} (cfg : Config)

inductive Landing : Place V Tid → Prop
  | top : Landing .top
  | ids (clear : Bool) : Landing (.ids clear)
  | flags (clear : Bool) (i : Nat) (rest ids : List Nat) : Landing (.flags clear i rest ids)
  | probe (k : Spot) : Landing (.probe k)
  | makes (k : Spot) : Landing (.makes k 0)
  | drained (k : Spot) : Landing (.drained k 0)
  | flush (d : Drain) (total : Nat) : Landing (.flush d total)
  | asked : Landing .asked
  | reclaims (l : Lot) : Landing (.reclaims .state l)
  | scans (fin : Bool) : Landing (.scans (.reclaim fin) (List.range cfg.producers) [])
  | clearWord : Landing .clearWord
  | clears (p : ClearStep) (i : Nat) (rest : List Nat) (b : Bool) : Landing (.clears p i rest b)
  | parks (p : ParkStep) (told : Bool) : Landing (.parks p told)
  | lastFlush : Landing .lastFlush
  | exit : Landing .exit

variable {cfg} {d : Drain} {total : Nat} {rest : List Nat} {g : Place V Tid}

theorem loopAt_landing (k : Spot) : Landing cfg (loopAt cfg k 0 : Place V Tid) := by
  unfold loopAt
  split
  · exact .makes k
  · exact .drained k

theorem PassEnds.landing (h : PassEnds cfg d total g) : Landing cfg g := by
  unfold PassEnds at h
  cases d with
  | main =>
    subst h
    split
    · exact .top
    · exact .asked
  | settle =>
    subst h
    split
    · exact .top
    · unfold parkAt
      split <;> exact .parks _ _
  | final =>
    dsimp only at h
    split at h
    · obtain ⟨r, rfl⟩ := h; exact .probe _
    · subst h; exact .probe _
  | last =>
    dsimp only at h
    split at h
    · obtain ⟨r, rfl⟩ := h; exact .probe _
    · subst h; exact .lastFlush

theorem Enters.landing (h : Enters cfg d rest total g) : Landing cfg g := by
  unfold Enters at h
  cases rest with
  | cons i rest =>
    subst h
    unfold spotAt
    split
    · exact .probe _
    · exact loopAt_landing _
  | nil =>
    dsimp only at h
    split at h
    · subst h; exact .flush _ _
    · exact h.landing

theorem Settles.landing (h : Settles cfg g) : Landing cfg g := by
  unfold Settles at h
  split at h
  · obtain ⟨r, rfl⟩ := h; exact .probe _
  · subst h
    split
    · exact .ids true
    · exact .clearWord

theorem Rung.landing (h : Rung cfg g) : Landing cfg g := by
  obtain rfl | h := h
  · exact .top
  · exact h.landing

theorem ClearAt.landing (h : ClearAt cfg rest g) : Landing cfg g := by
  unfold ClearAt at h
  cases rest with
  | nil => obtain ⟨r, rfl⟩ := h; exact .probe _
  | cons i rest => subst h; split <;> exact .clears _ _ _ _

theorem FlagsAt.landing {clear : Bool} {ids : List Nat} (h : FlagsAt cfg clear rest ids g) :
    Landing cfg g := by
  unfold FlagsAt at h
  cases rest with
  | cons i rest => subst h; exact .flags _ _ _ _
  | nil =>
    dsimp only at h
    split at h
    · exact h.landing
    · obtain ⟨r, h⟩ := h; exact h.landing

theorem ReclaimEnds.landing {fin : Bool} (h : ReclaimEnds cfg fin g) : Landing cfg g := by
  unfold ReclaimEnds at h
  split at h
  · subst h; exact .exit
  · exact h.landing

theorem ReclaimAt.landing {changed fin : Bool} (h : ReclaimAt cfg rest changed fin g) :
    Landing cfg g := by
  unfold ReclaimAt at h
  cases rest with
  | cons i rest => subst h; exact .reclaims _
  | nil =>
    dsimp only at h
    split at h
    · subst h; exact .scans _
    · exact h.landing

end
end Katas.Weir.Pipeline
