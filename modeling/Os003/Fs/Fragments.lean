import Os003.Fs.LongName

set_option autoImplicit false

/-! # Which long-name slots count

The slot loop collects every long-name slot it passes, and attaches what it has collected to the next
short entry if the last piece carries its checksum. The order bytes are not looked at, nor are the
checksums of the other pieces, so a run that has lost pieces or has leftovers of another file before it
counts as well (`fragment_attached`). What the scanner has collected can be told from the slots before
the entry (`collected_eq_run`), and from that follows on which clusters only complete runs count
(`attaches_complete_iff`).
-/

namespace Os003

open Bytes

variable {buf : List UInt8} {n k : Nat} {lfn : List Nat}

/-- `FAT32_FindEntryAny` attaches a long name to the short entry in slot `k`, having come into the
cluster with the pieces `lfn`. -/
def Attaches (buf : List UInt8) (n : Nat) (lfn : List Nat) (k : Nat) : Prop :=
  SlotLive buf n k ∧ lfnValid buf (collected buf n k lfn) k = true

/-- Slot `j` is piece `order` of `count` of the long name of the entry in slot `k`. -/
structure PieceOf (buf : List UInt8) (k count order j : Nat) : Prop where
  attr : (slotAt buf j).attr = attrLfn
  order : (slotAt buf j).name0 = UInt8.ofNat (order ||| if order = count then 0x40 else 0)
  checksum : (slotAt buf j).checksum = fat32LfnChecksum (slotAt buf k).name

/-- The pieces are the slots directly before slot `k`, with the order numbers `N|0x40`, `N-1`, ..., 1. -/
def CompleteRun (buf : List UInt8) (k : Nat) (ps : List Nat) : Prop :=
  ∃ count, 0 < count ∧ count ≤ k ∧ ps = List.range' (k - count) count ∧
    ∀ m, m < count → PieceOf buf k count (count - m) (k - count + m)

/-- How many long-name slots stand directly before slot `k`. -/
def runBefore (buf : List UInt8) : Nat → Nat
  | 0 => 0
  | k + 1 =>
      if (slotAt buf k).attr = attrLfn ∧ (slotAt buf k).name0 ≠ 0xE5 then runBefore buf k + 1 else 0

/-- The first 20 of the long-name slots before slot `k`, those of the cluster before included. -/
def slotsBefore (buf : List UInt8) (lfn : List Nat) (k : Nat) : List Nat :=
  ((if runBefore buf k = k then lfn else []) ++
    List.range' (k - runBefore buf k) (runBefore buf k)).take lfnMaxPieces

theorem runBefore_le (buf : List UInt8) (k : Nat) : runBefore buf k ≤ k := by
  induction k with
  | zero => exact Nat.le_refl 0
  | succ k ih =>
      unfold runBefore
      split
      · omega
      · omega

/-- The pieces pending at slot `k`. -/
theorem pieces_eq_slotsBefore (hlfn : lfn.length ≤ lfnMaxPieces) (k : Nat) :
    pieces buf lfn k = slotsBefore buf lfn k := by
  induction k with
  | zero =>
      show lfn = (lfn ++ []).take lfnMaxPieces
      rw [List.append_nil, List.take_of_length_le hlfn]
  | succ k ih =>
      have hle := runBefore_le buf k
      rw [pieces, slotsBefore, runBefore]
      by_cases hrun : (slotAt buf k).attr = attrLfn ∧ (slotAt buf k).name0 ≠ 0xE5
      · have hiff : runBefore buf k + 1 = k + 1 ↔ runBefore buf k = k := by omega
        have hlast : k - runBefore buf k + runBefore buf k = k := by omega
        simp only [hrun, ne_eq, not_false_eq_true, and_self, if_true, if_false, hiff,
          Nat.add_sub_add_right]
        calc pushPiece (pieces buf lfn k) k
            = (slotsBefore buf lfn k ++ [k]).take lfnMaxPieces := by
              rw [ih, pushPiece_eq (by rw [slotsBefore, List.length_take]; omega)]
          _ = (((if runBefore buf k = k then lfn else []) ++
                List.range' (k - runBefore buf k) (runBefore buf k)) ++ [k]).take lfnMaxPieces := by
              rw [slotsBefore, take_append_take]
          _ = ((if runBefore buf k = k then lfn else []) ++
                List.range' (k - runBefore buf k) (runBefore buf k + 1)).take lfnMaxPieces := by
              rw [List.range'_concat, Nat.one_mul, hlast, List.append_assoc]
      · have hnil : (if (slotAt buf k).name0 = 0xE5 then ([] : List Nat)
            else if (slotAt buf k).attr = attrLfn then pushPiece (pieces buf lfn k) k else []) = [] := by
          by_cases he5 : (slotAt buf k).name0 = 0xE5
          · rw [if_pos he5]
          · rw [if_neg he5, if_neg (fun hattr => hrun ⟨hattr, he5⟩)]
        rw [hnil, if_neg hrun, if_neg (by omega), List.range'_zero, List.append_nil, List.take_nil]

/-- What the scanner has collected at a live entry. -/
theorem collected_eq_run (hlfn : lfn.length ≤ lfnMaxPieces) (hk : SlotLive buf n k) :
    collected buf n k lfn = slotsBefore buf lfn k :=
  (collected_eq hk lfn).trans (pieces_eq_slotsBefore hlfn k)

/-- Where the last slot that counts carries the checksum of the entry behind it, no slot is left over,
and all of them are as they should be. -/
def RunsComplete (buf : List UInt8) (n : Nat) (lfn : List Nat) : Prop :=
  ∀ k j, SlotLive buf n k → (slotsBefore buf lfn k).getLast? = some j →
    (slotAt buf j).checksum = fat32LfnChecksum (slotAt buf k).name →
    (slotsBefore buf lfn k).length ≤ k ∧
      slotsBefore buf lfn k =
        List.range' (k - (slotsBefore buf lfn k).length) (slotsBefore buf lfn k).length ∧
      ∀ m, m < (slotsBefore buf lfn k).length →
        PieceOf buf k (slotsBefore buf lfn k).length ((slotsBefore buf lfn k).length - m)
          (k - (slotsBefore buf lfn k).length + m)

/-- A hit of `FAT32_FindEntryAny` has the name as its attached long name or in 8.3 form. -/
theorem hit_attaches {name : List UInt8} {ps : List Nat}
    (h : scanLfn buf (matchedBy foundLongName name buf) n 0 lfn = .inr (k, ps)) :
    ps = collected buf n k lfn ∧ ((Attaches buf n lfn k ∧ cstr (foundLongName buf ps) = name) ∨
      (slotAt buf k).name = nameTo83 name) := by
  have hscan : scanLfn buf (matchedBy foundLongName name buf) n 0 (pieces buf lfn 0) = .inr (k, ps) := h
  obtain ⟨-, hlive, hps, hmatch, -⟩ := scanLfn_inr hscan
    (fun j hj => absurd hj (Nat.not_lt_zero j))
  rw [Nat.zero_add] at hlive
  have hcollected : ps = collected buf n k lfn := hps.trans (collected_eq hlive lfn).symm
  refine ⟨hcollected, ?_⟩
  simp only [matchedBy, Bool.or_eq_true, Bool.and_eq_true, beq_iff_eq] at hmatch
  obtain ⟨hvalid, hname⟩ | hname := hmatch
  · rw [hcollected] at hvalid
    exact .inl ⟨⟨hlive, hvalid⟩, hname⟩
  · exact .inr hname

theorem lfnValid_iff {ps : List Nat} : lfnValid buf ps k = true ↔ ∃ j, ps.getLast? = some j ∧
    (slotAt buf j).checksum = fat32LfnChecksum (slotAt buf k).name := by
  unfold lfnValid
  cases ps.getLast? with
  | none => simp
  | some j => simp

/-- Only complete runs are attached exactly if in each run the last slot that counts tells whether the
run is complete. -/
theorem attaches_complete_iff (hlfn : lfn.length ≤ lfnMaxPieces) :
    (∀ k, Attaches buf n lfn k → CompleteRun buf k (collected buf n k lfn)) ↔
      RunsComplete buf n lfn := by
  constructor
  · intro h k j hlive hlast hchecksum
    have hcollected := collected_eq_run hlfn hlive
    have hvalid : lfnValid buf (slotsBefore buf lfn k) k = true := lfnValid_iff.mpr ⟨j, hlast, hchecksum⟩
    obtain ⟨count, _, hle, hps, hpieces⟩ := h k ⟨hlive, hcollected ▸ hvalid⟩
    rw [hcollected] at hps
    have hcount : (slotsBefore buf lfn k).length = count := by rw [hps, List.length_range']
    rw [hcount]
    exact ⟨hle, hps, hpieces⟩
  · rintro h k ⟨hlive, hvalid⟩
    have hcollected := collected_eq_run hlfn hlive
    rw [hcollected] at hvalid ⊢
    obtain ⟨j, hlast, hchecksum⟩ := lfnValid_iff.mp hvalid
    obtain ⟨hle, hps, hpieces⟩ := h k j hlive hlast hchecksum
    refine ⟨_, ?_, hle, hps, hpieces⟩
    apply List.length_pos_of_ne_nil
    intro hnil
    rw [hnil] at hlast
    cases hlast

/-- A cluster that holds these slots from its first one on. -/
def clusterOf (slots : List Slot) : List UInt8 := setSlots (List.replicate 512 0) 0 slots

/-- The short entry `README`. -/
def readmeSlot : Slot :=
  mkSfn (nameTo83 [82, 69, 65, 68, 77, 69]) attrArchive
    { second := 0, minute := 0, hour := 0, day := 1, month := 1, year := 0 } 0

/-- The piece with this order byte and the checksum of `README`. -/
def readmePiece (order : Nat) : Slot :=
  mkLfn order (fat32LfnChecksum (nameTo83 [82, 69, 65, 68, 77, 69]))
    (lfnUnits 13 [82, 101, 97, 100]) (lfnUnits_length _ _)

/-- A run of one piece is attached, as it should be. -/
theorem attaches_complete_one : Attaches (clusterOf [readmePiece 0x41, readmeSlot]) 16 [] 1 ∧
    CompleteRun (clusterOf [readmePiece 0x41, readmeSlot]) 1
      (collected (clusterOf [readmePiece 0x41, readmeSlot]) 16 1 []) := by
  have hattach : Attaches (clusterOf [readmePiece 0x41, readmeSlot]) 16 [] 1 := by
    unfold Attaches
    decide +kernel
  have hruns : RunsComplete (clusterOf [readmePiece 0x41, readmeSlot]) 16 [] := by
    intro k j hlive _ _
    have honly : ∀ k, k < 16 → SlotLive (clusterOf [readmePiece 0x41, readmeSlot]) 16 k → k = 1 := by
      decide +kernel
    obtain rfl := honly k hlive.lt hlive
    have hslots : slotsBefore (clusterOf [readmePiece 0x41, readmeSlot]) [] 1 = [0] := by
      decide +kernel
    rw [hslots]
    refine ⟨Nat.le_refl 1, rfl, fun m hm => ?_⟩
    obtain rfl : m = 0 := Nat.lt_one_iff.mp hm
    exact ⟨by decide +kernel, by decide +kernel, by decide +kernel⟩
  exact ⟨hattach, (attaches_complete_iff (by decide)).mpr hruns 1 hattach⟩

/-- The first of three pieces, the others lost. -/
theorem fragment_attached : Attaches (clusterOf [readmePiece 0x43, readmeSlot]) 16 [] 1 ∧
    ¬ CompleteRun (clusterOf [readmePiece 0x43, readmeSlot]) 1
      (collected (clusterOf [readmePiece 0x43, readmeSlot]) 16 1 []) := by
  constructor
  · unfold Attaches
    decide +kernel
  · rintro ⟨count, h0, hle, -, hpieces⟩
    obtain rfl : count = 1 := by omega
    exact absurd (hpieces 0 Nat.zero_lt_one).order (by decide +kernel)

end Os003
