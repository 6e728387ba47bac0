import Os003.Fs.Volume

set_option autoImplicit false

/-! # The geometry of a boot sector

`check_DBR` looks at some fields of the boot sector and `FAT32_GetInfo` computes the geometry from
others: the start of the data region is a sum with a product in it, the number of clusters a
difference divided by the cluster size, all in 32 bits. This file says for which accepted boot
sectors the result is a geometry: nothing wraps, the clusters end inside the partition and each of
them has an entry in the table.

The fields that decide it are the number of sectors of the partition, which `check_DBR` does not
look at, and the number and the size of the tables.
-/

namespace Os003

open Bytes

/-- A boot sector with the given fields; the bytes it does not name are zero. -/
def bootSector (sectorsPerCluster numFats : UInt8)
    (reservedSectors totalSectors sectorsPerFat rootCluster fsinfoSector : Nat) : List UInt8 :=
  List.replicate 11 0 ++ le16 512 ++ [sectorsPerCluster] ++ le16 reservedSectors ++ [numFats] ++
    List.replicate 15 0 ++ le32 totalSectors ++ le32 sectorsPerFat ++ List.replicate 4 0 ++
    le32 rootCluster ++ le16 fsinfoSector ++ List.replicate 460 0 ++ [0x55, 0xAA]

/-! ## What `check_DBR` has checked -/

/-- The fields in the bounds that `check_DBR` tests. -/
structure Checked (info : Fat32Info) : Prop where
  bytes : info.bytesPerSector = 512
  powerOfTwo : info.sectorsPerCluster &&& (info.sectorsPerCluster - 1) = 0
  clusterPos : 0 < info.sectorsPerCluster
  clusterMax : info.sectorsPerCluster * 512 ≤ 32 * 1024
  reserved : 1 < info.reservedSectors
  perFat : 0 < info.sectorsPerFat

theorem checkDbr_checked {buffer : List UInt8} (h : checkDbr buffer = true) :
    Checked (parseDbr buffer) := by
  unfold checkDbr at h
  split at h
  · cases h
  · split at h
    · cases h
    · rename_i h512
      have hbytes : readLe16 buffer 11 = 512 := not_not.mp h512
      simp only [hbytes] at h
      split at h
      · cases h
      · rename_i hcluster
        push Not at hcluster
        split at h
        · cases h
        · rename_i hmax
          split at h
          · cases h
          · rename_i hreserved
            split at h
            · cases h
            · rename_i hfat
              exact ⟨hbytes, hcluster.2, Nat.pos_of_ne_zero hcluster.1, not_lt.mp hmax,
                not_le.mp hreserved, Nat.pos_of_ne_zero hfat⟩

/-- What `FAT32_GetInfo` returns comes from a boot sector that `check_DBR` has accepted. -/
theorem getInfo_accepted {disk : AtaDisk} {part : GptPartitionEntry} {ch ch' : Channel}
    {info : Fat32Info} {free : FreeInfo}
    (h : fat32GetInfo disk part ch = some (some (info, free), ch')) :
    ∃ buffer, checkDbr buffer = true ∧ info = parseDbr buffer := by
  unfold fat32GetInfo at h
  obtain ⟨⟨r, buffer⟩, ch1, -, h⟩ := Prog.bind_eq_some.mp h
  simp only [] at h
  by_cases hr : r < 0
  · rw [if_pos hr, Prog.pure_run] at h
    cases h
  · rw [if_neg hr] at h
    by_cases hdbr : checkDbr buffer = true
    · rw [if_neg (by simp [hdbr])] at h
      obtain ⟨⟨r', fsInfo⟩, ch2, -, h⟩ := Prog.bind_eq_some.mp h
      refine ⟨buffer, hdbr, ?_⟩
      simp only [] at h
      by_cases hr' : r' < 0
      · rw [if_pos hr', Prog.pure_run] at h
        cases h
        rfl
      · rw [if_neg hr', Prog.pure_run] at h
        cases h
        rfl
    · rw [if_pos (by simp [hdbr]), Prog.pure_run] at h
      cases h

/-! ## When the geometry is sound -/

/-- What the rest of the file system takes for granted: the start of the data region, the number
of data sectors and the number of clusters are what they are without a bound on the width, the
last cluster ends in the partition, and the table has an entry for every cluster. -/
structure Fits (info : Fat32Info) : Prop where
  product : info.numFats * info.sectorsPerFat < 2 ^ 32
  sum : info.reservedSectors + info.numFats * info.sectorsPerFat < 2 ^ 32
  difference : info.reservedSectors + info.numFats * info.sectorsPerFat ≤ info.totalSectors
  partition : info.dataRegionLba + info.totalClusters * info.sectorsPerCluster ≤ info.totalSectors
  entries : (info.totalClusters + 2) * 4 ≤ info.sectorsPerFat * 512

/-- The geometry when the tables end before the partition does. -/
theorem parseDbr_exact {buffer : List UInt8}
    (h : (parseDbr buffer).reservedSectors + (parseDbr buffer).numFats *
      (parseDbr buffer).sectorsPerFat ≤ (parseDbr buffer).totalSectors) :
    (parseDbr buffer).dataRegionLba = (parseDbr buffer).reservedSectors +
        (parseDbr buffer).numFats * (parseDbr buffer).sectorsPerFat ∧
      (parseDbr buffer).totalClusters = ((parseDbr buffer).totalSectors -
        ((parseDbr buffer).reservedSectors + (parseDbr buffer).numFats *
          (parseDbr buffer).sectorsPerFat)) / (parseDbr buffer).sectorsPerCluster := by
  have htotal : (parseDbr buffer).totalSectors < 2 ^ 32 := readLe32_lt buffer 32
  have hregion : (parseDbr buffer).dataRegionLba = (parseDbr buffer).reservedSectors +
      (parseDbr buffer).numFats * (parseDbr buffer).sectorsPerFat := by
    show u32 ((parseDbr buffer).reservedSectors +
      u32 ((parseDbr buffer).numFats * (parseDbr buffer).sectorsPerFat)) = _
    rw [u32, u32, Nat.mod_eq_of_lt (by omega : (parseDbr buffer).numFats *
      (parseDbr buffer).sectorsPerFat < 2 ^ 32), Nat.mod_eq_of_lt (by omega)]
  refine ⟨hregion, ?_⟩
  show u32 ((parseDbr buffer).totalSectors + (2 ^ 32 - (parseDbr buffer).dataRegionLba)) /
    (parseDbr buffer).sectorsPerCluster = _
  rw [← hregion] at h ⊢
  congr 1
  rw [u32]
  omega

/-- An accepted boot sector gives a sound geometry just when the partition is large enough for the
tables and not too large for the entries in one of them. -/
theorem getInfo_fits_iff {buffer : List UInt8} (hdbr : checkDbr buffer = true) :
    Fits (parseDbr buffer) ↔
      (parseDbr buffer).reservedSectors + (parseDbr buffer).numFats *
          (parseDbr buffer).sectorsPerFat ≤ (parseDbr buffer).totalSectors ∧
        (parseDbr buffer).totalSectors < (parseDbr buffer).reservedSectors +
          (parseDbr buffer).numFats * (parseDbr buffer).sectorsPerFat +
          (128 * (parseDbr buffer).sectorsPerFat - 1) * (parseDbr buffer).sectorsPerCluster := by
  have hck := checkDbr_checked hdbr
  have hpos := hck.clusterPos
  have hfat := hck.perFat
  have htotal : (parseDbr buffer).totalSectors < 2 ^ 32 := readLe32_lt buffer 32
  constructor
  · intro h
    obtain ⟨-, hclusters⟩ := parseDbr_exact h.difference
    refine ⟨h.difference, ?_⟩
    have hentries := h.entries
    have hlt : (parseDbr buffer).totalClusters < 128 * (parseDbr buffer).sectorsPerFat - 1 := by
      omega
    rw [hclusters, Nat.div_lt_iff_lt_mul hpos] at hlt
    have := h.difference
    omega
  · rintro ⟨hlow, hhigh⟩
    obtain ⟨hregion, hclusters⟩ := parseDbr_exact hlow
    refine ⟨by omega, by omega, hlow, ?_, ?_⟩
    · calc (parseDbr buffer).dataRegionLba +
            (parseDbr buffer).totalClusters * (parseDbr buffer).sectorsPerCluster
          ≤ (parseDbr buffer).dataRegionLba +
            ((parseDbr buffer).totalSectors - (parseDbr buffer).dataRegionLba) := by
            rw [hclusters, hregion]
            exact Nat.add_le_add_left (Nat.div_mul_le_self _ _) _
        _ = (parseDbr buffer).totalSectors := by omega
    · have hlt : (parseDbr buffer).totalClusters < 128 * (parseDbr buffer).sectorsPerFat - 1 := by
        rw [hclusters, Nat.div_lt_iff_lt_mul hpos]
        omega
      omega

/-- A partition of 64 sectors with one table of one sector. -/
theorem getInfo_fits_iff_small :
    checkDbr (bootSector 1 1 2 64 1 2 1) = true ∧ Fits (parseDbr (bootSector 1 1 2 64 1 2 1)) := by
  have hdbr : checkDbr (bootSector 1 1 2 64 1 2 1) = true := by decide +kernel
  exact ⟨hdbr, (getInfo_fits_iff hdbr).mpr (by decide +kernel)⟩

/-- A boot sector whose 32-bit number of sectors is 0 is accepted, and the number of data sectors
wraps around. -/
theorem getInfo_no_sectors : (bootSector 1 1 2 0 1 2 1).length = 512 ∧
    checkDbr (bootSector 1 1 2 0 1 2 1) = true ∧
    (parseDbr (bootSector 1 1 2 0 1 2 1)).totalClusters = 4294967293 ∧
    ¬ Fits (parseDbr (bootSector 1 1 2 0 1 2 1)) := by
  refine ⟨by decide +kernel, by decide +kernel, by decide +kernel, ?_⟩
  intro h
  have hd := h.difference
  revert hd
  decide +kernel

end Os003
