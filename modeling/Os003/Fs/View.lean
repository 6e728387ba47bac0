import Os003.Fs.Volume

set_option autoImplicit false

/-! # The abstract volume

To the functions above it, a volume is a table of successors and an array of clusters. This file
defines that abstraction (`Volume`), says which geometry makes it one (`Mount.Sound`), and
proves that the sector functions refine it: while no command fails, reading an entry or a
cluster reads the abstract volume, and writing one updates it in one place.
-/

namespace Os003

open Bytes

/-! ## The abstraction -/

/-- The table of a volume, reserved bits masked out, and its clusters. -/
structure Volume where
  fat : Nat → Nat
  data : Nat → List UInt8

namespace Volume

/-- Set one table entry. -/
def setFat (V : Volume) (c v : Nat) : Volume := { V with fat := Function.update V.fat c v }

/-- Set the contents of one cluster. -/
def setData (V : Volume) (c : Nat) (bs : List UInt8) : Volume :=
  { V with data := Function.update V.data c bs }

@[simp] theorem setFat_fat (V : Volume) (c v : Nat) :
    (V.setFat c v).fat = Function.update V.fat c v := rfl
@[simp] theorem setFat_data (V : Volume) (c v : Nat) : (V.setFat c v).data = V.data := rfl
@[simp] theorem setData_fat (V : Volume) (c : Nat) (bs : List UInt8) :
    (V.setData c bs).fat = V.fat := rfl
@[simp] theorem setData_data (V : Volume) (c : Nat) (bs : List UInt8) :
    (V.setData c bs).data = Function.update V.data c bs := rfl

end Volume

/-- A table entry that ends a chain. -/
def IsEof (v : Nat) : Prop := fat32EntryEof ≤ v

instance : DecidablePred IsEof := fun v => inferInstanceAs (Decidable (fat32EntryEof ≤ v))

namespace Mount

variable (M : Mount)

/-- The geometry of a well-formed volume: sectors of 512 bytes, the copies of the table between
the reserved sectors and the data, an entry in the table for every cluster and cluster numbers
below the special values. The partition starts in the lower half of the 48-bit address range,
so that no sector of it, and none of a wrong cluster number either, is refused as out of range. -/
structure Sound : Prop where
  bytes : M.info.bytesPerSector = 512
  sectors : 0 < M.info.sectorsPerCluster ∧ M.info.sectorsPerCluster < 2 ^ 8
  fats : 0 < M.info.numFats
  layout : M.info.fatRegionLba + M.info.numFats * M.info.sectorsPerFat ≤ M.info.dataRegionLba
  region : M.info.dataRegionLba < 2 ^ 32
  table : (M.info.totalClusters + 2) * 4 ≤ M.info.sectorsPerFat * 512
  clusters : M.info.totalClusters + 2 ≤ 0x0FFFFFF7
  address : M.part.startingLba ≤ 2 ^ 47

/-- A number that has an entry in the table. -/
def HasEntry (c : Nat) : Prop := c < M.info.totalClusters + 2

/-- The number of a cluster of the volume. -/
def InRange (c : Nat) : Prop := 2 ≤ c ∧ c < M.info.totalClusters + 2

instance (c : Nat) : Decidable (M.HasEntry c) := inferInstanceAs (Decidable (_ < _))

instance (c : Nat) : Decidable (M.InRange c) := inferInstanceAs (Decidable (_ ∧ _))

theorem InRange.hasEntry {M : Mount} {c : Nat} (h : M.InRange c) : M.HasEntry c := h.2

/-- The address of the first table copy. -/
def fatBase : Nat := 512 * (M.part.startingLba + M.info.fatRegionLba)

/-- The address of a cluster. -/
def dataBase (c : Nat) : Nat :=
  512 * (M.part.startingLba + M.info.dataRegionLba + (c - 2) * M.info.sectorsPerCluster)

/-- The table entry of `c` in the first copy, on the drive the driver reads it from. -/
def entryAt (s : FsState) (c : Nat) : Nat :=
  readLe32 (readBytes (s.drive true) (M.fatBase + 4 * c) 4) 0

/-- The abstract volume of a state. -/
def view (s : FsState) : Volume where
  fat c := if M.HasEntry c then M.entryAt s c % 2 ^ 28 else 0
  data c := if M.InRange c then readBytes (s.drive M.disk.isMaster) (M.dataBase c) M.clusterSize
    else []

end Mount

theorem Mount.view_data_length (M : Mount) (s : FsState) {c : Nat} (hc : M.InRange c) :
    ((M.view s).data c).length = M.clusterSize := by
  simp [Mount.view, hc, readBytes_length]

/-- The state with one more command in the log. -/
def FsState.note (s : FsState) (ev : AtaEvent) : FsState := { s with log := ev :: s.log }

section Note

variable (s : FsState) (ev : AtaEvent)

@[simp] theorem FsState.note_drive : (s.note ev).drive = s.drive := rfl
@[simp] theorem FsState.note_faults : (s.note ev).faults = s.faults := rfl
@[simp] theorem FsState.note_free : (s.note ev).free = s.free := rfl
@[simp] theorem FsState.note_allocs : (s.note ev).allocs = s.allocs := rfl
@[simp] theorem FsState.note_log : (s.note ev).log = ev :: s.log := rfl
@[simp] theorem Mount.view_note (M : Mount) : M.view (s.note ev) = M.view s := rfl

end Note

/-- The state after the buffer `buf` has been written from sector `lba` on. -/
def FsState.store (s : FsState) (m : Bool) (lba n : Nat) (buf : List UInt8) : FsState :=
  { s with
    drive := Function.update s.drive m (writeBytes (s.drive m) (512 * lba) buf)
    log := .write m lba n :: s.log }

section Store

variable (s : FsState) (m : Bool) (lba n : Nat) (buf : List UInt8)

@[simp] theorem FsState.store_faults : (s.store m lba n buf).faults = s.faults := rfl
@[simp] theorem FsState.store_free : (s.store m lba n buf).free = s.free := rfl
@[simp] theorem FsState.store_allocs : (s.store m lba n buf).allocs = s.allocs := rfl
@[simp] theorem FsState.store_log : (s.store m lba n buf).log = .write m lba n :: s.log := rfl

end Store

/-! ## Addresses -/

/-- A copy of the table ends before the data region. -/
theorem Mount.copy_end {M : Mount}
    (hlayout : M.info.fatRegionLba + M.info.numFats * M.info.sectorsPerFat ≤ M.info.dataRegionLba)
    {i : Nat} (hi : i < M.info.numFats) :
    M.info.fatRegionLba + i * M.info.sectorsPerFat + M.info.sectorsPerFat ≤
      M.info.dataRegionLba := by
  have hmul : (i + 1) * M.info.sectorsPerFat ≤ M.info.numFats * M.info.sectorsPerFat :=
    Nat.mul_le_mul_right _ hi
  rw [Nat.succ_mul] at hmul
  omega

section Sound

variable {M : Mount} (hM : M.Sound)
include hM

theorem Mount.Sound.clusterSize_eq : M.clusterSize = 512 * M.info.sectorsPerCluster := by
  rw [Mount.clusterSize, hM.bytes]

theorem Mount.Sound.clusterSize_pos : 0 < M.clusterSize := by
  have := hM.sectors
  rw [hM.clusterSize_eq]
  omega

/-- A cluster number times the cluster size stays far below the address limit. -/
theorem Mount.Sound.cluster_sectors {c : Nat} (hc : c < 2 ^ 32) :
    c * M.info.sectorsPerCluster ≤ 2 ^ 40 := by
  calc c * M.info.sectorsPerCluster
      ≤ 2 ^ 32 * 2 ^ 8 := Nat.mul_le_mul (by omega) (by have := hM.sectors; omega)
    _ = 2 ^ 40 := by norm_num

theorem Mount.Sound.clusterLba_eq {c : Nat} (hc : M.InRange c) :
    M.clusterLba c =
      M.part.startingLba + M.info.dataRegionLba + (c - 2) * M.info.sectorsPerCluster := by
  have hmax := hM.clusters
  have haddr := hM.address
  have hregion := hM.region
  have hmul := hM.cluster_sectors (c := c - 2) (by have := hc.2; omega)
  obtain ⟨h2, ht⟩ := hc
  have hsub : u32 (c + (2 ^ 32 - 2)) = c - 2 := by rw [u32]; omega
  rw [Mount.clusterLba, fat32ClusterToLba, hsub, u64, u64]
  omega

theorem Mount.Sound.dataBase_eq {c : Nat} (hc : M.InRange c) :
    512 * M.clusterLba c = M.dataBase c := by
  rw [hM.clusterLba_eq hc, Mount.dataBase]

/-- The sector of an entry lies inside its copy of the table. -/
theorem Mount.Sound.entry_sector {c : Nat} (hc : M.HasEntry c) :
    c * 4 / 512 < M.info.sectorsPerFat := by
  have ht := hM.table
  have : c < M.info.totalClusters + 2 := hc
  omega

omit hM in
theorem Mount.HasEntry.lt (hM : M.Sound) {c : Nat} (hc : M.HasEntry c) : c < 2 ^ 32 := by
  have h1 := hM.clusters
  have h2 : c < M.info.totalClusters + 2 := hc
  omega

theorem Mount.Sound.fatCopyLba_eq {i c : Nat} (hi : i < M.info.numFats) (hc : c < 2 ^ 32) :
    M.fatCopyLba i c =
      M.part.startingLba + M.info.fatRegionLba + i * M.info.sectorsPerFat + c * 4 / 512 := by
  have h1 := Mount.copy_end hM.layout hi
  have h2 := hM.region
  have h3 := hM.address
  rw [Mount.fatCopyLba, hM.bytes, u64]
  omega

theorem Mount.Sound.fatCopyLba_lt {i c : Nat} (hi : i < M.info.numFats) (hc : c < 2 ^ 32) :
    M.fatCopyLba i c < 2 ^ 48 := by
  have h1 := Mount.copy_end hM.layout hi
  have h2 := hM.region
  have h3 := hM.address
  rw [hM.fatCopyLba_eq hi hc]
  omega

theorem Mount.Sound.fatLba_eq {c : Nat} (hc : c < 2 ^ 32) :
    M.fatLba c = M.part.startingLba + M.info.fatRegionLba + c * 4 / 512 := by
  have h := hM.fatCopyLba_eq hM.fats hc
  rw [Mount.fatCopyLba, Nat.zero_mul, Nat.add_zero] at h
  rw [Mount.fatLba, h]

theorem Mount.Sound.fatLba_lt {c : Nat} (hc : c < 2 ^ 32) : M.fatLba c < 2 ^ 48 := by
  have h1 := Mount.copy_end hM.layout hM.fats
  have h2 := hM.region
  have h3 := hM.address
  rw [hM.fatLba_eq hc]
  omega

omit hM in
/-- A word read from a sector buffer is the word at its address. -/
theorem readLe32_readBytes (d : Nat → UInt8) (a n off : Nat) (h : off + 4 ≤ n) :
    readLe32 (readBytes d a n) off = readLe32 (readBytes d (a + off) 4) 0 := by
  apply readLe32_congr
  intro i hi
  rw [getD_readBytes _ _ _ _ (by omega), getD_readBytes _ _ _ _ (by omega)]
  congr 1
  omega

/-! ## Reading -/

omit hM in
theorem ata_read_run {s : FsState} (hq : s.faults = []) {m : Bool} {lba n : Nat}
    (h : lba < 2 ^ 48) :
    ata (ataRead m lba n) s =
      some (((n : Int), readBytes (s.drive m) (512 * lba) (512 * n)), s.note (.read m lba n)) := by
  obtain ⟨b, hb⟩ := ataCommand_ok m n h
  have hsel := ataCommand_selects hb
  have hrun : ataRead m lba n s.toChannel =
      some (((n : Int), readBytes (s.drive m) (512 * lba) (512 * n)),
        { s.toChannel with log := .read m lba n :: s.log }) := by
    simp only [ataRead, hb, takeFault, hq, hsel]
  rw [ata, Prog.zoom_run hrun]
  rfl

theorem fat32NextCluster_run {s : FsState} (hq : s.faults = []) {c : Nat} (hc : M.HasEntry c) :
    fat32NextCluster M c s =
      some (some ((M.view s).fat c), s.note (.read true (M.fatLba c) 1)) := by
  have hread := ata_read_run (s := s) hq (m := true) (n := 1) (hM.fatLba_lt (hc.lt hM))
  have hword : readLe32 (readBytes (s.drive true) (512 * M.fatLba c) (512 * 1))
      (c * 4 % M.info.bytesPerSector) = M.entryAt s c := by
    rw [hM.bytes, readLe32_readBytes _ _ _ _ (by omega), Mount.entryAt,
      hM.fatLba_eq (hc.lt hM), Mount.fatBase]
    congr 2
    omega
  rw [fat32NextCluster, refAsBool, Prog.bind_run hread]
  simp only [hword, Mount.view, if_pos hc]
  rw [if_neg (by omega), Prog.pure_run, show 0x0FFFFFFF = 2 ^ 28 - 1 from rfl,
    Nat.and_two_pow_sub_one_eq_mod]

theorem clusterLba_lt {c : Nat} (hc : M.InRange c) : M.clusterLba c < 2 ^ 48 := by
  have h1 := hM.cluster_sectors (c := c - 2) (by have := hc.hasEntry.lt hM; omega)
  have h2 := hM.address
  have h3 := hM.region
  rw [hM.clusterLba_eq hc]
  omega

theorem fat32ReadCluster_run {s : FsState} (hq : s.faults = []) {c : Nat} (hc : M.InRange c) :
    fat32ReadCluster M c s = some ((0, (M.view s).data c),
      s.note (.read M.disk.isMaster (M.clusterLba c) M.info.sectorsPerCluster)) := by
  rw [fat32ReadCluster, Prog.bind_run (ata_read_run hq (clusterLba_lt hM hc))]
  simp only [Mount.view, if_pos hc, hM.clusterSize_eq, hM.dataBase_eq hc]
  rw [if_neg (by omega), Prog.pure_run]

/-! ## Writing -/

omit hM in
theorem ata_write_run {s : FsState} (hq : s.faults = []) {m : Bool} {lba n : Nat}
    {buf : List UInt8} (h : lba < 2 ^ 48) (hbuf : buf.length = 512 * n) :
    ata (ataWrite m lba n buf) s = some ((n : Int), s.store m lba n buf) := by
  obtain ⟨b, hb⟩ := ataCommand_ok m n h
  have hsel := ataCommand_selects hb
  have hrun : ataWrite m lba n buf s.toChannel =
      some ((n : Int), { s.toChannel with
        drive := Function.update s.drive m (writeBytes (s.drive m) (512 * lba) buf)
        log := .write m lba n :: s.log }) := by
    simp only [ataWrite, hb, takeFault, hq, hsel, ← hbuf, List.take_length]
  rw [ata, Prog.zoom_run hrun]
  rfl

omit hM in
theorem ata_flush_run (s : FsState) (m : Bool) :
    ata (ataFlushCache m) s = some ((), s.note (.flush m)) := by
  have hrun : ataFlushCache m s.toChannel =
      some ((), { s.toChannel with log := .flush m :: s.log }) := by
    rw [ataFlushCache, Prog.modify_run, selectsMaster_flush]
  rw [ata, Prog.zoom_run hrun]
  rfl

/-- The state after `buf` has been written to the cluster `c`. -/
def Mount.putCluster (M : Mount) (s : FsState) (c : Nat) (buf : List UInt8) : FsState :=
  (s.store M.disk.isMaster (M.clusterLba c) M.info.sectorsPerCluster buf).note
    (.flush M.disk.isMaster)

theorem fat32WriteCluster_run {s : FsState} (hq : s.faults = []) {c : Nat} (hc : M.InRange c)
    {buf : List UInt8} (hbuf : buf.length = M.clusterSize) :
    fat32WriteCluster M c buf s = some (0, M.putCluster s c buf) := by
  have hw := ata_write_run (m := M.disk.isMaster) hq (clusterLba_lt hM hc)
    (hbuf.trans hM.clusterSize_eq)
  rw [fat32WriteCluster, Prog.bind_run hw, if_neg (by omega), Prog.bind_run (ata_flush_run _ _),
    Prog.pure_run]
  rfl

/-- Two clusters are the same or do not overlap. -/
theorem Mount.Sound.clusters_disjoint {c c' : Nat} (hc : M.InRange c) (hc' : M.InRange c')
    (hne : c ≠ c') :
    M.dataBase c + M.clusterSize ≤ M.dataBase c' ∨ M.dataBase c' + M.clusterSize ≤ M.dataBase c := by
  have key : ∀ x y, 2 ≤ x → x < y →
      (x - 2) * M.info.sectorsPerCluster + M.info.sectorsPerCluster ≤
        (y - 2) * M.info.sectorsPerCluster := by
    intro x y h2 hxy
    calc (x - 2) * M.info.sectorsPerCluster + M.info.sectorsPerCluster
        = (x - 2 + 1) * M.info.sectorsPerCluster := by ring
      _ ≤ (y - 2) * M.info.sectorsPerCluster := Nat.mul_le_mul_right _ (by omega)
  rw [hM.clusterSize_eq, Mount.dataBase, Mount.dataBase]
  rcases Nat.lt_or_gt_of_ne hne with h | h
  · have := key c c' hc.1 h
    omega
  · have := key c' c hc'.1 h
    omega

/-- An entry of the first copy ends before any cluster begins. -/
theorem Mount.Sound.entry_before_data {c c' : Nat} (hc : M.HasEntry c) :
    M.fatBase + 4 * c + 4 ≤ M.dataBase c' := by
  have h1 := Mount.copy_end hM.layout hM.fats
  have h2 := hM.entry_sector hc
  rw [Mount.fatBase, Mount.dataBase]
  omega

/-- Writing a cluster updates the abstract volume at that cluster. -/
theorem view_putCluster {s : FsState} {c : Nat} (hc : M.InRange c) {buf : List UInt8}
    (hbuf : buf.length = M.clusterSize) :
    M.view (M.putCluster s c buf) = (M.view s).setData c buf := by
  have hdrive : (M.putCluster s c buf).drive = Function.update s.drive M.disk.isMaster
      (writeBytes (s.drive M.disk.isMaster) (M.dataBase c) buf) := by
    rw [← hM.dataBase_eq hc]
    rfl
  have hfat : (M.view (M.putCluster s c buf)).fat = (M.view s).fat := by
    funext x
    simp only [Mount.view]
    by_cases hx : M.HasEntry x
    · simp only [if_pos hx, Mount.entryAt, hdrive]
      cases hm : M.disk.isMaster with
      | false => rw [Function.update_of_ne (by decide)]
      | true =>
          have : M.fatBase + 4 * x + 4 ≤ M.dataBase c := hM.entry_before_data hx
          rw [Function.update_self, readBytes_writeBytes_of_disjoint _ _ _ _ _ (by omega)]
    · simp only [if_neg hx]
  have hdata : (M.view (M.putCluster s c buf)).data = Function.update (M.view s).data c buf := by
    funext x
    by_cases hxc : x = c
    · subst hxc
      rw [Function.update_self]
      simp only [Mount.view, if_pos hc, hdrive, Function.update_self]
      rw [← hbuf, readBytes_writeBytes]
    · rw [Function.update_of_ne hxc]
      simp only [Mount.view, hdrive, Function.update_self]
      by_cases hx : M.InRange x
      · rw [if_pos hx, if_pos hx, readBytes_writeBytes_of_disjoint]
        have := hM.clusters_disjoint hc hx (Ne.symm hxc)
        omega
      · rw [if_neg hx, if_neg hx]
  rw [Volume.setData, ← hfat, ← hdata]

/-! ## Table entries -/

/-- The state after `v` has been written to entry `c` in the copy `i` of the table. -/
def Mount.putCopy (M : Mount) (s : FsState) (i c v : Nat) : FsState :=
  { s with
    drive := Function.update s.drive true (writeBytes (s.drive true)
      (M.fatBase + 512 * (i * M.info.sectorsPerFat) + 4 * c) (le32 v))
    log := .write true (M.fatCopyLba i c) 1 :: .read true (M.fatCopyLba i c) 1 :: s.log }

omit hM in
theorem Mount.putCopy_drive (M : Mount) (s : FsState) (i c v : Nat) (m : Bool) :
    (M.putCopy s i c v).drive m = if m then writeBytes (s.drive true)
      (M.fatBase + 512 * (i * M.info.sectorsPerFat) + 4 * c) (le32 v) else s.drive m := by
  cases m <;> simp [Mount.putCopy]

/-- The same for the copies `i`, `i + 1`, ..., `n` of them. -/
def Mount.putCopies (M : Mount) (c v : Nat) : Nat → Nat → FsState → FsState
  | 0, _, s => s
  | n + 1, i, s => M.putCopies c v n (i + 1) (M.putCopy s i c v)

/-- The state after `FAT32_WriteFATEntry`. -/
def Mount.putEntry (M : Mount) (s : FsState) (c v : Nat) : FsState :=
  (M.putCopies c v M.info.numFats 0 s).note (.flush true)

omit hM in
theorem putCopies_frame (M : Mount) (c v n i : Nat) (s : FsState) :
    (M.putCopies c v n i s).faults = s.faults ∧ (M.putCopies c v n i s).free = s.free ∧
      (M.putCopies c v n i s).allocs = s.allocs := by
  induction n generalizing i s with
  | zero => exact ⟨rfl, rfl, rfl⟩
  | succ n ih => exact ih (i + 1) (M.putCopy s i c v)

theorem writeFatCopies_run {s : FsState} (hq : s.faults = []) {c v : Nat} (hc : c < 2 ^ 32)
    {n i : Nat} (hn : i + n ≤ M.info.numFats) :
    writeFatCopies M c v n i s = some (0, M.putCopies c v n i s) := by
  induction n generalizing i s with
  | zero => rfl
  | succ n ih =>
      have hi : i < M.info.numFats := by omega
      have hlba := hM.fatCopyLba_lt hi hc
      have hread := ata_read_run (s := s) hq (m := true) (n := 1) hlba
      have hlen : (writeLe32 (readBytes (s.drive true) (512 * M.fatCopyLba i c) (512 * 1))
          (c * 4 % M.info.bytesPerSector) v).length = 512 * 1 := by
        rw [writeLe32, hM.bytes, splice_length _ _ _ (by simp; omega), readBytes_length]
      have hwrite := ata_write_run (s := s.note (.read true (M.fatCopyLba i c) 1)) hq (m := true)
        hlba hlen
      -- the sector goes back with four bytes changed
      have hstate : (s.note (.read true (M.fatCopyLba i c) 1)).store true (M.fatCopyLba i c) 1
          (writeLe32 (readBytes (s.drive true) (512 * M.fatCopyLba i c) (512 * 1))
            (c * 4 % M.info.bytesPerSector) v) = M.putCopy s i c v := by
        have haddr : 512 * M.fatCopyLba i c + c * 4 % 512 =
            M.fatBase + 512 * (i * M.info.sectorsPerFat) + 4 * c := by
          rw [hM.fatCopyLba_eq hi hc, Mount.fatBase]
          omega
        simp only [FsState.store, Mount.putCopy, FsState.note_drive, FsState.note_log]
        rw [writeLe32, hM.bytes, writeBytes_splice _ _ _ _ _ (by simp; omega), haddr]
        rfl
      have hrest := ih (s := M.putCopy s i c v) hq (i := i + 1) (by omega)
      rw [writeFatCopies, refAsBool, Prog.bind_run hread]
      simp only []
      rw [if_neg (by omega), Prog.bind_run hwrite, if_neg (by omega), hstate, hrest]
      rfl

theorem fat32WriteFatEntry_run {s : FsState} (hq : s.faults = []) {c : Nat} (hc : c < 2 ^ 32)
    (v : Nat) : fat32WriteFatEntry M c v s = some (0, M.putEntry s c v) := by
  have h := writeFatCopies_run hM (v := v) hq hc (n := M.info.numFats) (i := 0) (by omega)
  rw [fat32WriteFatEntry, Prog.bind_run h, if_neg (by omega), refAsBool,
    Prog.bind_run (ata_flush_run _ _), Prog.pure_run]
  rfl

omit hM in
/-- Only the bytes of the entry in the copies change. -/
theorem putCopies_drive (M : Mount) (c v n i : Nat) (s : FsState) (m : Bool) (x : Nat)
    (h : ∀ j, i ≤ j → j < i + n →
      x < M.fatBase + 512 * (j * M.info.sectorsPerFat) + 4 * c ∨
        M.fatBase + 512 * (j * M.info.sectorsPerFat) + 4 * c + 4 ≤ x) :
    (M.putCopies c v n i s).drive m x = s.drive m x := by
  induction n generalizing i s with
  | zero => rfl
  | succ n ih =>
      have hrest := ih (i + 1) (M.putCopy s i c v) (fun j h1 h2 => h j (by omega) (by omega))
      have hi := h i (by omega) (by omega)
      rw [Mount.putCopies, hrest, M.putCopy_drive]
      cases m with
      | false => rfl
      | true => rw [if_pos rfl, writeBytes, le32_length, if_neg (by omega)]

/-- The later copies leave the first copy alone. -/
theorem putEntry_first_copy {s : FsState} {c : Nat} (v : Nat) {m : Bool} {x : Nat}
    (hx : x < M.fatBase + 512 * M.info.sectorsPerFat) :
    (M.putEntry s c v).drive m x = (M.putCopy s 0 c v).drive m x := by
  obtain ⟨k, hk⟩ : ∃ k, M.info.numFats = k + 1 := ⟨M.info.numFats - 1, by have := hM.fats; omega⟩
  rw [Mount.putEntry, hk, FsState.note_drive, Mount.putCopies]
  apply putCopies_drive
  intro j h1 _
  have : 1 * M.info.sectorsPerFat ≤ j * M.info.sectorsPerFat := Nat.mul_le_mul_right _ h1
  omega

/-- Writing an entry updates the abstract volume at that entry. -/
theorem view_putEntry {s : FsState} {c v : Nat} (hc : M.HasEntry c) (hv : v < 2 ^ 28) :
    M.view (M.putEntry s c v) = (M.view s).setFat c v := by
  have htable := hM.table
  have hfat : (M.view (M.putEntry s c v)).fat = Function.update (M.view s).fat c v := by
    funext x
    -- the reader sees copy 0 only, so the other copies do not count
    by_cases hx : M.HasEntry x
    · have hxt : x < M.info.totalClusters + 2 := hx
      have hct : c < M.info.totalClusters + 2 := hc
      have hentry : M.entryAt (M.putEntry s c v) x = M.entryAt (M.putCopy s 0 c v) x := by
        rw [Mount.entryAt, Mount.entryAt]
        congr 1
        apply readBytes_congr
        intro i hi
        exact putEntry_first_copy hM v (by omega)
      have hdrive : (M.putCopy s 0 c v).drive true =
          writeBytes (s.drive true) (M.fatBase + 4 * c) (le32 v) := by
        rw [M.putCopy_drive, if_pos rfl, Nat.zero_mul, Nat.mul_zero, Nat.add_zero]
      simp only [Mount.view, if_pos hx, hentry]
      rw [Mount.entryAt, hdrive]
      by_cases hxc : x = c
      · subst hxc
        have hread := readBytes_writeBytes (s.drive true) (M.fatBase + 4 * x) (le32 v)
        rw [le32_length] at hread
        rw [Function.update_self, hread, readLe32_le32]
        omega
      · rw [Function.update_of_ne hxc, readBytes_writeBytes_of_disjoint, if_pos hx, Mount.entryAt]
        rw [le32_length]
        omega
    · have hxc : x ≠ c := by
        rintro rfl
        exact hx hc
      rw [Function.update_of_ne hxc]
      simp only [Mount.view, if_neg hx]
  -- the clusters lie behind all copies
  have hdata : (M.view (M.putEntry s c v)).data = (M.view s).data := by
    funext x
    by_cases hx : M.InRange x
    · simp only [Mount.view, if_pos hx]
      apply readBytes_congr
      intro i hi
      rw [Mount.putEntry, FsState.note_drive]
      apply putCopies_drive
      intro j _ hj
      have h1 := Mount.copy_end hM.layout (i := j) (by omega)
      have h2 := hM.entry_sector hc
      right
      rw [Mount.fatBase, Mount.dataBase]
      omega
    · simp only [Mount.view, if_neg hx]
  rw [Volume.setFat, ← hfat, ← hdata]

end Sound

/-! ## A small volume -/

/-- A volume of 13 clusters of one sector each, with one table of one sector. -/
def smallMount (disk : AtaDisk) : Mount where
  disk
  part := { startingLba := 2 }
  info := {
    bytesPerSector := 512, sectorsPerCluster := 1, reservedSectors := 2, numFats := 1
    sectorsPerFat := 1, rootCluster := 2, fsinfoSector := 1, backupBootSector := 0
    fatRegionLba := 2, dataRegionLba := 3, totalSectors := 16, totalClusters := 13
    volumeLabel := [], volumeId := 0 }

/-- The volume with the given table and clusters, the same on both drives. -/
def smallState (fat : List Nat) (clusters : Nat → List UInt8) : FsState where
  drive _ x :=
    if x / 512 = 4 then (le32 (fat.getD (x % 512 / 4) 0)).getD (x % 4) 0
    else (clusters (x / 512 - 3)).getD (x % 512) 0
  faults := []
  log := []
  free := FreeInfo.unknown
  allocs := []

theorem smallMount_sound (disk : AtaDisk) : (smallMount disk).Sound where
  bytes := rfl
  sectors := by simp [smallMount]
  fats := by simp [smallMount]
  layout := by simp [smallMount]
  region := by simp [smallMount]
  table := by simp [smallMount]
  clusters := by simp [smallMount]
  address := by simp [smallMount]

end Os003
