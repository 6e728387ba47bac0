import Os003.Lib.Bytes
import Os003.Kernel.Clock

set_option autoImplicit false

/-! # Directory slots and names

A directory is a sequence of slots of 32 bytes. A slot holds either a short entry
(`fat32_dir_entry_t`) or one piece of a long name (`fat32_lfn_entry_t`); both structures are
packed views of the same bytes, so the model has one type `Slot` and the fields of either view
as functions on it.

The second half of the file is the conversion of names: to the 8.3 form, into long-name pieces
and back.
-/

namespace Os003

open Bytes

/-! ## Slots -/

/-- The 32 bytes of a directory slot. -/
abbrev Slot : Type := { b : List UInt8 // b.length = 32 }

/-- The 11 bytes of a short name. -/
abbrev Name83 : Type := { b : List UInt8 // b.length = 11 }

/-- `FAT32_ATTR_VOLUME_ID`. -/
def attrVolumeId : UInt8 := 0x08

/-- `FAT32_ATTR_DIRECTORY`. -/
def attrDirectory : UInt8 := 0x10

/-- `FAT32_ATTR_ARCHIVE`. -/
def attrArchive : UInt8 := 0x20

/-- `FAT32_ATTR_LFN`. -/
def attrLfn : UInt8 := 0x0F

/-- The slot at index `i` of a buffer. -/
def slotAt (buf : List UInt8) (i : Nat) : Slot :=
  ⟨(List.range 32).map (fun j => buf.getD (32 * i + j) 0), by simp⟩

/-- The buffer with slot `i` overwritten. -/
def setSlot (buf : List UInt8) (i : Nat) (e : Slot) : List UInt8 := splice buf (32 * i) e.1

namespace Slot

/-- A slot with the bytes from `off` on replaced. -/
def put (e : Slot) (off : Nat) (bs : List UInt8) (h : off + bs.length ≤ 32) : Slot :=
  ⟨splice e.1 off bs, by rw [splice_length _ _ _ (by rw [e.2]; exact h), e.2]⟩

/-! The short entry. -/

def name (e : Slot) : Name83 := ⟨e.1.take 11, by simp [e.2]⟩
/-- `name[0]`, which is also `order` of a long-name piece: 0 ends a directory, 0xE5 marks a
deleted slot and 0x2E the entries "." and "..". -/
def name0 (e : Slot) : UInt8 := e.1.getD 0 0
def attr (e : Slot) : UInt8 := e.1.getD 11 0
def clusterHigh (e : Slot) : Nat := readLe16 e.1 20
def clusterLow (e : Slot) : Nat := readLe16 e.1 26
def fileSize (e : Slot) : Nat := readLe32 e.1 28

/-- `((uint32_t)entry->cluster_high << 16) | entry->cluster_low`. -/
def cluster (e : Slot) : Nat := e.clusterHigh <<< 16 ||| e.clusterLow

def setName (e : Slot) (n : Name83) : Slot := e.put 0 n.1 (by rw [n.2]; decide)
def setName0 (e : Slot) (c : UInt8) : Slot := e.put 0 [c] (by simp)
def setFileSize (e : Slot) (v : Nat) : Slot := e.put 28 (le32 v) (by simp)

/-- `cluster_low = cluster & 0xFFFF; cluster_high = (cluster >> 16) & 0xFFFF`. -/
def setCluster (e : Slot) (c : Nat) : Slot :=
  (e.put 26 (le16 (c &&& 0xFFFF)) (by simp)).put 20 (le16 ((c >>> 16) &&& 0xFFFF)) (by simp)

def isDirectory (e : Slot) : Bool := e.attr &&& attrDirectory ≠ 0

/-! The long-name piece. -/

def checksum (e : Slot) : UInt8 := e.1.getD 13 0
def name1 (e : Slot) : List Nat := [1, 3, 5, 7, 9].map (readLe16 e.1)
def name2 (e : Slot) : List Nat := [14, 16, 18, 20, 22, 24].map (readLe16 e.1)
def name3 (e : Slot) : List Nat := [28, 30].map (readLe16 e.1)

end Slot

/-- `is_valid_sfn_entry`. -/
def isValidSfnEntry (e : Slot) : Bool :=
  if e.name0 = 0x00 ∨ e.name0 = 0xE5 ∨ e.name0 = 0x2E then false
  else if e.attr = attrLfn then false
  else if e.attr &&& attrVolumeId ≠ 0 then false
  else true

/-! ## Fields after an update

Every setter changes its own bytes and leaves the other fields alone. -/

namespace Slot

theorem room (e : Slot) {n : Nat} (h : n ≤ 32) : n ≤ e.1.length := by
  rw [e.2]
  exact h

theorem getD_put (e : Slot) (off : Nat) (bs : List UInt8) (h : off + bs.length ≤ 32) (i : Nat) :
    (e.put off bs h).1.getD i 0 =
      if off ≤ i ∧ i < off + bs.length then bs.getD (i - off) 0 else e.1.getD i 0 :=
  getD_splice e.1 off bs (by rw [e.2]; exact h) i

theorem ext_bytes {e e' : Slot} (h : ∀ i, i < 32 → e.1.getD i 0 = e'.1.getD i 0) : e = e' := by
  apply Subtype.ext
  refine ext_getD (by rw [e.2, e'.2]) ?_
  intro i hi
  exact h i (by rw [e.2] at hi; exact hi)

theorem name_put (e : Slot) (off : Nat) (bs : List UInt8) (h : off + bs.length ≤ 32)
    (ho : 11 ≤ off) : (e.put off bs h).name = e.name := by
  apply Subtype.ext
  show (splice e.1 off bs).take 11 = e.1.take 11
  have hlen : 11 ≤ (e.1.take off).length := by
    rw [List.length_take, e.2]
    omega
  rw [splice, List.append_assoc, List.take_append_of_le_length hlen, List.take_take, min_eq_left ho]

theorem name0_put (e : Slot) (off : Nat) (bs : List UInt8) (h : off + bs.length ≤ 32)
    (ho : 0 < off) : (e.put off bs h).name0 = e.name0 := by
  rw [name0, getD_put, if_neg (by omega), name0]

theorem attr_put (e : Slot) (off : Nat) (bs : List UInt8) (h : off + bs.length ≤ 32)
    (ho : 11 < off) : (e.put off bs h).attr = e.attr := by
  rw [attr, getD_put, if_neg (by omega), attr]

theorem cluster_eq (e : Slot) : e.cluster = e.clusterLow + e.clusterHigh * 2 ^ 16 := by
  have hlow : e.clusterLow < 2 ^ 16 := readLe16_lt _ _
  rw [cluster, Nat.lor_comm, or_shiftLeft _ hlow]

theorem fileSize_lt (e : Slot) : e.fileSize < 2 ^ 32 := readLe32_lt _ _

@[simp] theorem name_setFileSize (e : Slot) (v : Nat) : (e.setFileSize v).name = e.name :=
  name_put _ _ _ _ (by decide)

@[simp] theorem name0_setFileSize (e : Slot) (v : Nat) : (e.setFileSize v).name0 = e.name0 :=
  name0_put _ _ _ _ (by decide)

@[simp] theorem attr_setFileSize (e : Slot) (v : Nat) : (e.setFileSize v).attr = e.attr :=
  attr_put _ _ _ _ (by decide)

theorem fileSize_setFileSize (e : Slot) {v : Nat} (hv : v < 2 ^ 32) :
    (e.setFileSize v).fileSize = v := by
  show readLe32 (splice e.1 28 (le32 v)) 28 = v
  rw [readLe32_splice _ _ _ (by rw [e.2]), Nat.mod_eq_of_lt hv]

@[simp] theorem cluster_setFileSize (e : Slot) (v : Nat) :
    (e.setFileSize v).cluster = e.cluster := by
  have hhigh : (e.setFileSize v).clusterHigh = e.clusterHigh :=
    readLe16_splice_of_disjoint _ _ _ _ (room _ (by simp)) (by simp)
  have hlow : (e.setFileSize v).clusterLow = e.clusterLow :=
    readLe16_splice_of_disjoint _ _ _ _ (room _ (by simp)) (by simp)
  rw [cluster, cluster, hhigh, hlow]

@[simp] theorem name_setCluster (e : Slot) (c : Nat) : (e.setCluster c).name = e.name :=
  (name_put _ _ _ _ (by decide)).trans (name_put _ _ _ _ (by decide))

@[simp] theorem name0_setCluster (e : Slot) (c : Nat) : (e.setCluster c).name0 = e.name0 :=
  (name0_put _ _ _ _ (by decide)).trans (name0_put _ _ _ _ (by decide))

@[simp] theorem attr_setCluster (e : Slot) (c : Nat) : (e.setCluster c).attr = e.attr :=
  (attr_put _ _ _ _ (by decide)).trans (attr_put _ _ _ _ (by decide))

@[simp] theorem fileSize_setCluster (e : Slot) (c : Nat) :
    (e.setCluster c).fileSize = e.fileSize := by
  have h1 := readLe32_splice_of_disjoint (e.put 26 (le16 (c &&& 0xFFFF)) (by simp)).1 20 28
    (le16 ((c >>> 16) &&& 0xFFFF)) (room _ (by simp)) (by simp)
  have h2 := readLe32_splice_of_disjoint e.1 26 28 (le16 (c &&& 0xFFFF)) (room _ (by simp)) (by simp)
  exact h1.trans h2

theorem cluster_setCluster (e : Slot) {c : Nat} (hc : c < 2 ^ 32) :
    (e.setCluster c).cluster = c := by
  have hhigh : (e.setCluster c).clusterHigh = c / 2 ^ 16 := by
    show readLe16 (splice _ 20 (le16 ((c >>> 16) &&& 0xFFFF))) 20 = _
    rw [readLe16_splice _ _ _ (room _ (by simp)), Nat.shiftRight_eq_div_pow,
      show 0xFFFF = 2 ^ 16 - 1 from rfl, Nat.and_two_pow_sub_one_eq_mod]
    omega
  have hlow : (e.setCluster c).clusterLow = c % 2 ^ 16 := by
    have h := readLe16_splice_of_disjoint (e.put 26 (le16 (c &&& 0xFFFF)) (by simp)).1 20 26
      (le16 ((c >>> 16) &&& 0xFFFF)) (room _ (by simp)) (by simp)
    refine h.trans ?_
    show readLe16 (splice e.1 26 (le16 (c &&& 0xFFFF))) 26 = _
    rw [readLe16_splice _ _ _ (room _ (by simp)), show 0xFFFF = 2 ^ 16 - 1 from rfl,
      Nat.and_two_pow_sub_one_eq_mod]
    omega
  rw [cluster_eq, hhigh, hlow]
  omega

@[simp] theorem isDirectory_setFileSize (e : Slot) (v : Nat) :
    (e.setFileSize v).isDirectory = e.isDirectory := by
  rw [isDirectory, attr_setFileSize, isDirectory]

@[simp] theorem isDirectory_setCluster (e : Slot) (c : Nat) :
    (e.setCluster c).isDirectory = e.isDirectory := by
  rw [isDirectory, attr_setCluster, isDirectory]

end Slot

/-! ## Slots of a buffer -/

theorem getD_slotAt (buf : List UInt8) (i j : Nat) (hj : j < 32) :
    (slotAt buf i).1.getD j 0 = buf.getD (32 * i + j) 0 := by
  simp [slotAt, hj]

theorem slotAt_name0 (buf : List UInt8) (i : Nat) :
    (slotAt buf i).name0 = buf.getD (32 * i) 0 := by
  rw [Slot.name0, getD_slotAt _ _ _ (by decide), Nat.add_zero]

theorem setSlot_length (buf : List UInt8) (i : Nat) (e : Slot) (h : 32 * i + 32 ≤ buf.length) :
    (setSlot buf i e).length = buf.length :=
  splice_length _ _ _ (by rw [e.2]; exact h)

theorem slotAt_setSlot (buf : List UInt8) (i k : Nat) (e : Slot) (h : 32 * i + 32 ≤ buf.length) :
    slotAt (setSlot buf i e) k = if k = i then e else slotAt buf k := by
  apply Slot.ext_bytes
  intro j hj
  rw [getD_slotAt _ _ _ hj, setSlot, getD_splice _ _ _ (by rw [e.2]; exact h), e.2]
  by_cases hk : k = i
  · subst hk
    rw [if_pos (by omega), if_pos rfl]
    congr 1
    omega
  · rw [if_neg (by omega), if_neg hk, getD_slotAt _ _ _ hj]

/-! ## The 8.3 form -/

/-- The upper case of an ASCII letter. -/
def toUpper (c : UInt8) : UInt8 := if 97 ≤ c ∧ c ≤ 122 then c - 97 + 65 else c

/-- What stands before the last dot, and what behind it, if there is a dot. -/
def splitDot (name : List UInt8) : List UInt8 × Option (List UInt8) :=
  if (0x2E : UInt8) ∈ name then
    let tail := name.reverse.takeWhile (· ≠ 0x2E)
    (name.take (name.length - tail.length - 1), some tail.reverse)
  else (name, none)

/-- The first `n` bytes of `l`, filled up with spaces. -/
def padTo (n : Nat) (l : List UInt8) : List UInt8 := l.take n ++ List.replicate (n - l.length) 0x20

theorem padTo_length (n : Nat) (l : List UInt8) : (padTo n l).length = n := by
  simp only [padTo, List.length_append, List.length_take, List.length_replicate]
  omega

/-- `name_to_83`: at most eight bytes before the last dot and three behind it, in upper case. -/
def nameTo83 (name : List UInt8) : Name83 :=
  ⟨(padTo 8 (splitDot name).1 ++ padTo 3 ((splitDot name).2.getD [])).map toUpper, by
    simp [padTo_length]⟩

/-! ## Long names -/

/-- `fat32_lfn_checksum`. -/
def fat32LfnChecksum (sfnName : Name83) : UInt8 :=
  sfnName.1.foldl (fun sum c => ((sum >>> 1) ||| (sum <<< 7)) + c) 0

/-- `lfn_copy_name_segment`: the characters copied, with room for `outMax - 1` of them. A null
ends the copy, 0xFFFF is padding and passed over. -/
def lfnCopyNameSegment : Nat → List Nat → List UInt8
  | _, [] => []
  | outMax, ch :: rest =>
      if outMax ≤ 1 then []
      else if ch = 0x0000 then []
      else if ch = 0xFFFF then lfnCopyNameSegment outMax rest
      else UInt8.ofNat (ch &&& 0xFF) :: lfnCopyNameSegment (outMax - 1) rest

/-- One turn of the loop of `rebuild_lfn_name`: the three segments of a piece are appended to
what is in the buffer already. -/
def rebuildStep (outMax : Nat) (out : List UInt8) (lfn : Slot) : List UInt8 :=
  let out := out ++ lfnCopyNameSegment (outMax - out.length) lfn.name1
  let out := out ++ lfnCopyNameSegment (outMax - out.length) lfn.name2
  out ++ lfnCopyNameSegment (outMax - out.length) lfn.name3

/-- `rebuild_lfn_name`: the last piece of the array comes first. The buffer is zeroed before, so
the bytes behind the result are the terminator. -/
def rebuildLfnName (entries : List Slot) (outMax : Nat) : List UInt8 :=
  entries.reverse.foldl (rebuildStep outMax) []

/-- The C string in a buffer. -/
def cstr (buf : List UInt8) : List UInt8 := buf.takeWhile (· ≠ 0)

/-- `LFN_MAX_PIECES`, `LFN_BUF_MAX`, `LFN_RENAME_MAX`, `RD_LFN_MAX` and `DF_LFN_MAX`. -/
def lfnMaxPieces : Nat := 20

/-- `FAT32_MAX_NAME` and the size of `lfn_name`. -/
def fat32MaxName : Nat := 260

/-- The 16-bit characters of one piece: what is left of the name, then a terminator, then
padding. -/
def lfnUnits : Nat → List UInt8 → List Nat
  | 0, _ => []
  | n + 1, [] => 0x0000 :: List.replicate n 0xFFFF
  | n + 1, c :: rest => c.toNat :: lfnUnits n rest

theorem lfnUnits_length (n : Nat) (l : List UInt8) : (lfnUnits n l).length = n := by
  induction n generalizing l with
  | zero => rfl
  | succ n ih => cases l <;> simp [lfnUnits, ih]

/-- A long-name piece: its order byte, its 13 characters and the checksum of the short name. -/
def mkLfn (order : Nat) (checksum : UInt8) (units : List Nat) (h : units.length = 13) : Slot :=
  ⟨[UInt8.ofNat order] ++ (units.take 5).flatMap le16 ++ [attrLfn, 0, checksum] ++
      ((units.drop 5).take 6).flatMap le16 ++ [0, 0] ++ (units.drop 11).flatMap le16, by
    simp [h]⟩

/-- `make_lfn_entries`: the pieces in the order of the array, the first piece of the name
first, although its order byte is the highest. -/
def makeLfnEntries (name : List UInt8) (sfnCs : UInt8) : List Slot :=
  let total := (name.length + 12) / 13
  (List.range total).map fun i =>
    mkLfn ((total - i) ||| (if i = 0 then 0x40 else 0x00)) sfnCs (lfnUnits 13 (name.drop (i * 13)))
      (lfnUnits_length _ _)

/-! ## Dates -/

/-- `fat_pack_date`. -/
def fatPackDate (year : Nat) (month day : UInt8) : Nat :=
  (((year + (2 ^ 16 - 1980)) % 2 ^ 16) <<< 9 ||| month.toNat <<< 5 ||| day.toNat) % 2 ^ 16

/-- `fat_pack_time`. -/
def fatPackTime (hour minute second : UInt8) : Nat :=
  (hour.toNat <<< 11 ||| minute.toNat <<< 5 ||| second.toNat / 2) % 2 ^ 16

/-- The date and time a new entry gets. -/
def RtcTime.fatDate (t : RtcTime) : Nat := fatPackDate (t.year.toNat + 2000) t.month t.day

def RtcTime.fatTime (t : RtcTime) : Nat := fatPackTime t.hour t.minute t.second

/-- A new short entry of size 0: zeroed, then name, attributes, times and start cluster set. -/
def mkSfn (sfn : Name83) (attr : UInt8) (rtc : RtcTime) (cluster : Nat) : Slot :=
  ⟨sfn.1 ++ [attr, 0, 0] ++ le16 rtc.fatTime ++ le16 rtc.fatDate ++ le16 rtc.fatDate ++
      le16 ((cluster >>> 16) &&& 0xFFFF) ++ le16 rtc.fatTime ++ le16 rtc.fatDate ++
      le16 (cluster &&& 0xFFFF) ++ le32 0, by
    simp [sfn.2]⟩

end Os003
