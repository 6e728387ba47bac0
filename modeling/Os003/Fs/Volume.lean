import Os003.Drives.Ata

set_option autoImplicit false

/-! # The FAT32 volume: geometry, file allocation table and clusters

The lowest layer of the file system: the fields of the boot sector, the sector arithmetic for
table entries and clusters, and the functions that read and write them, allocate a cluster and
free a chain. Numbers are natural numbers; where the source computes in `uint32_t` or
`uint64_t` and the result may wrap, the definition reduces it (`u32`, `u64`).

The source passes the triple `Info`, `Disk`, `Partition` to every function. Only two fields of
`Info` ever change after `FAT32_GetInfo`, the free count and the free hint; these are part of
the state (`FreeInfo`), the rest is the constant `Mount`.
-/

namespace Os003

open Bytes

def u32 (n : Nat) : Nat := n % 2 ^ 32

def u64 (n : Nat) : Nat := n % 2 ^ 64

/-- `FAT32_ENTRY_FREE`: the table entry of a free cluster. -/
def fat32EntryFree : Nat := 0x00000000

/-- `FAT32_ENTRY_EOF`: table entries from here on end a chain. -/
def fat32EntryEof : Nat := 0x0FFFFFF8

/-- The part of `gpt_partition_entry_t` the file system reads. -/
structure GptPartitionEntry where
  startingLba : Nat
deriving DecidableEq, Repr

/-- The fields of `fat32_info_t` that stay as `FAT32_GetInfo` has set them. -/
structure Fat32Info where
  bytesPerSector : Nat
  sectorsPerCluster : Nat
  reservedSectors : Nat
  numFats : Nat
  sectorsPerFat : Nat
  rootCluster : Nat
  fsinfoSector : Nat
  backupBootSector : Nat
  fatRegionLba : Nat
  dataRegionLba : Nat
  totalSectors : Nat
  totalClusters : Nat
  volumeLabel : List UInt8
  volumeId : Nat
deriving DecidableEq, Repr

/-- The fields of `fat32_info_t` that allocation changes: the free count and the hint where to
look for a free cluster, both `0xFFFFFFFF` when unknown. -/
structure FreeInfo where
  freeClusters : Nat
  nextFreeCluster : Nat
  count_lt : freeClusters < 2 ^ 32
  hint_lt : nextFreeCluster < 2 ^ 32
deriving DecidableEq

/-- What `FAT32_GetInfo` assumes without a valid FSInfo sector. -/
def FreeInfo.unknown : FreeInfo where
  freeClusters := 0xFFFFFFFF
  nextFreeCluster := 0xFFFFFFFF
  count_lt := by decide
  hint_lt := by decide

/-- What the functions of the file system are called with: `Disk`, `Partition` and `Info`. -/
structure Mount where
  disk : AtaDisk
  part : GptPartitionEntry
  info : Fat32Info

/-- The state of the file system: the channel with its drives, the free count and hint, and a
record of the clusters the allocator has handed out, the last one first. The source keeps no
such record; statements about a run use it to speak of the clusters that run allocated. -/
structure FsState extends Channel where
  free : FreeInfo
  allocs : List Nat

/-- A driver call made by the file system. -/
def ata {α : Type} (m : Prog Channel α) : Prog FsState α :=
  Prog.zoom FsState.toChannel (fun ch s => { s with toChannel := ch }) m

/-! ## The boot sector -/

/-- `check_DBR`. -/
def checkDbr (buffer : List UInt8) : Bool :=
  if buffer.getD 0x1FE 0 ≠ 0x55 ∨ buffer.getD 0x1FF 0 ≠ 0xAA then false
  else if readLe16 buffer 11 ≠ 512 then false
  else
    let sectorsPerCluster := (buffer.getD 13 0).toNat
    if sectorsPerCluster = 0 ∨ sectorsPerCluster &&& (sectorsPerCluster - 1) ≠ 0 then false
    else if sectorsPerCluster * readLe16 buffer 11 > 32 * 1024 then false
    else if readLe16 buffer 14 ≤ 1 then false
    else if readLe32 buffer 36 = 0 then false
    else true

/-- Blank out the spaces at the end of a volume label, as the loop from index 10 down does:
a space becomes a null byte, a null byte is passed over, anything else ends the loop. -/
def trimLabel (label : List UInt8) : List UInt8 :=
  (label.reverse.takeWhile (fun c => c = 0x20 ∨ c = 0)).map (fun _ => 0) |>.reverse |>
    (label.take (label.length - (label.reverse.takeWhile (fun c => c = 0x20 ∨ c = 0)).length) ++ ·)

/-- The fields `FAT32_GetInfo` takes from the boot sector. -/
def parseDbr (buffer : List UInt8) : Fat32Info :=
  let reservedSectors := readLe16 buffer 14
  let numFats := (buffer.getD 16 0).toNat
  let sectorsPerFat := readLe32 buffer 36
  let totalSectors := readLe32 buffer 32
  let sectorsPerCluster := (buffer.getD 13 0).toNat
  let dataRegionLba := u32 (reservedSectors + u32 (numFats * sectorsPerFat))
  { bytesPerSector := readLe16 buffer 11
    sectorsPerCluster
    reservedSectors
    numFats
    sectorsPerFat
    rootCluster := readLe32 buffer 44
    fsinfoSector := readLe16 buffer 48
    backupBootSector := readLe16 buffer 50
    fatRegionLba := reservedSectors
    dataRegionLba
    totalSectors
    -- the difference is an unsigned one and may wrap
    totalClusters := u32 (totalSectors + (2 ^ 32 - dataRegionLba)) / sectorsPerCluster
    volumeLabel := trimLabel ((buffer.drop 71).take 11)
    volumeId := readLe32 buffer 67 }

/-- The free count and hint from the FSInfo sector, unknown without the two signatures. -/
def parseFsInfo (buffer : List UInt8) : FreeInfo :=
  if buffer.take 4 = [0x52, 0x52, 0x61, 0x41] ∧
      (buffer.drop 0x1E4).take 4 = [0x72, 0x72, 0x41, 0x61] then
    { freeClusters := readLe32 buffer 0x1E8
      nextFreeCluster := readLe32 buffer 0x1EC
      count_lt := readLe32_lt _ _
      hint_lt := readLe32_lt _ _ }
  else FreeInfo.unknown

/-- `FAT32_GetInfo`; `none` is its error code 1. -/
def fat32GetInfo (disk : AtaDisk) (part : GptPartitionEntry) :
    Prog Channel (Option (Fat32Info × FreeInfo)) := do
  let (r, buffer) ← ataRead (refAsBool disk.isMaster) part.startingLba 1
  if r < 0 then return none
  if !checkDbr buffer then return none
  let info := parseDbr buffer
  let (r, buffer) ← ataRead (refAsBool disk.isMaster) (u64 (part.startingLba + info.fsinfoSector)) 1
  if r < 0 then return some (info, FreeInfo.unknown)
  return some (info, parseFsInfo buffer)

/-! ## Clusters -/

/-- `FAT32_ClusterToLBA`: the first sector of a cluster, counted from the partition's start. -/
def fat32ClusterToLba (info : Fat32Info) (cluster : Nat) : Nat :=
  u64 (info.dataRegionLba + u32 (cluster + (2 ^ 32 - 2)) * info.sectorsPerCluster)

namespace Mount

variable (M : Mount)

/-- The size of a cluster in bytes. -/
def clusterSize : Nat := M.info.bytesPerSector * M.info.sectorsPerCluster

/-- The sector of the first table that holds the entry of `cluster`. -/
def fatLba (cluster : Nat) : Nat :=
  u64 (M.part.startingLba + M.info.fatRegionLba + cluster * 4 / M.info.bytesPerSector)

/-- The sector of table copy `i` that holds the entry of `cluster`. -/
def fatCopyLba (i cluster : Nat) : Nat :=
  u64 (M.part.startingLba + M.info.fatRegionLba + i * M.info.sectorsPerFat +
    cluster * 4 / M.info.bytesPerSector)

/-- The first sector of `cluster`. -/
def clusterLba (cluster : Nat) : Nat := u64 (M.part.startingLba + fat32ClusterToLba M.info cluster)

end Mount

section

variable (M : Mount)

/-- `FAT32_NextCluster`; `none` is its error code 1. -/
def fat32NextCluster (cluster : Nat) : Prog FsState (Option Nat) := do
  let (r, fatBuf) ← ata (ataRead (refAsBool M.disk.isMaster) (M.fatLba cluster) 1)
  if r < 0 then return none
  return some (readLe32 fatBuf (cluster * 4 % M.info.bytesPerSector) &&& 0x0FFFFFFF)

/-- `FAT32_ReadCluster`: the status and the buffer after the call. -/
def fat32ReadCluster (cluster : Nat) : Prog FsState (Nat × List UInt8) := do
  let (r, buffer) ← ata (ataRead M.disk.isMaster (M.clusterLba cluster) M.info.sectorsPerCluster)
  return (if r < 0 then 1 else 0, buffer)

/-- `FAT32_WriteCluster`. -/
def fat32WriteCluster (cluster : Nat) (buffer : List UInt8) : Prog FsState Nat := do
  let a ← ata (ataWrite M.disk.isMaster (M.clusterLba cluster) M.info.sectorsPerCluster buffer)
  if a < 0 then return 1
  ata (ataFlushCache M.disk.isMaster)
  return 0

/-! ## Table entries -/

/-- The loop of `FAT32_WriteFATEntry` over the copies `i`, `i + 1`, ... of the table, `n` of them
to go. -/
def writeFatCopies (cluster value : Nat) : Nat → Nat → Prog FsState Nat
  | 0, _ => return 0
  | n + 1, i => do
      let (r, fatBuf) ← ata (ataRead (refAsBool M.disk.isMaster) (M.fatCopyLba i cluster) 1)
      if r < 0 then return 1
      -- the whole word is stored, its four reserved bits included
      let fatBuf := writeLe32 fatBuf (cluster * 4 % M.info.bytesPerSector) value
      let r ← ata (ataWrite (refAsBool M.disk.isMaster) (M.fatCopyLba i cluster) 1 fatBuf)
      if r < 0 then return 1
      writeFatCopies cluster value n (i + 1)

/-- `FAT32_WriteFATEntry`. -/
def fat32WriteFatEntry (cluster value : Nat) : Prog FsState Nat := do
  let st ← writeFatCopies M cluster value M.info.numFats 0
  if st ≠ 0 then return st
  ata (ataFlushCache (refAsBool M.disk.isMaster))
  return 0

/-- The free count and hint after the allocation of `cluster`. -/
def FreeInfo.take (f : FreeInfo) (cluster : Nat) : FreeInfo where
  freeClusters :=
    if f.freeClusters ≠ 0xFFFFFFFF ∧ f.freeClusters > 0 then f.freeClusters - 1 else f.freeClusters
  nextFreeCluster := u32 (cluster + 1)
  count_lt := by
    have := f.count_lt
    split <;> omega
  hint_lt := Nat.mod_lt _ (by decide)

/-- The free count after one more cluster has become free. -/
def FreeInfo.release (f : FreeInfo) : FreeInfo where
  freeClusters := if f.freeClusters ≠ 0xFFFFFFFF then u32 (f.freeClusters + 1) else f.freeClusters
  nextFreeCluster := f.nextFreeCluster
  count_lt := by
    have := f.count_lt
    have := Nat.mod_lt (f.freeClusters + 1) (show 0 < 2 ^ 32 by decide)
    unfold u32
    split <;> omega
  hint_lt := f.hint_lt

/-- The loop of `FAT32_AllocCluster`, which goes round the clusters once from `start` on. -/
def allocLoop (start : Nat) : Nat → Nat → Prog FsState Nat
  | 0, _ => Prog.diverge
  | fuel + 1, cluster => do
      let (r, fatBuf) ← ata (ataRead (refAsBool M.disk.isMaster) (M.fatLba cluster) 1)
      if r < 0 then return 0
      if readLe32 fatBuf (cluster * 4 % M.info.bytesPerSector) &&& 0x0FFFFFFF = fat32EntryFree then
        let st ← fat32WriteFatEntry M cluster fat32EntryEof
        if st ≠ 0 then return 0
        -- the new hint is compared with nothing, it may lie behind the last cluster
        Prog.modify fun s => { s with free := s.free.take cluster, allocs := cluster :: s.allocs }
        return cluster
      let cluster := u32 (cluster + 1)
      let cluster := if cluster ≥ u32 (M.info.totalClusters + 2) then 2 else cluster
      if cluster ≠ start then allocLoop start fuel cluster else return 0

/-- Where `FAT32_AllocCluster` starts: at the hint, if there is one. -/
def FreeInfo.start (f : FreeInfo) : Nat :=
  if f.nextFreeCluster ≠ 0xFFFFFFFF ∧ f.nextFreeCluster ≥ 2 then f.nextFreeCluster else 2

/-- `FAT32_AllocCluster`; 0 says that the disk is full. -/
def fat32AllocCluster (fuel : Nat) : Prog FsState Nat := do
  let s ← Prog.get
  allocLoop M s.free.start fuel s.free.start

/-- `FAT32_FreeClusterChain`. -/
def fat32FreeClusterChain : Nat → Nat → Prog FsState Nat
  | 0, _ => Prog.diverge
  | fuel + 1, cluster => do
      if cluster ≥ 2 ∧ cluster < fat32EntryEof then
        match ← fat32NextCluster M cluster with
        | none => return 1
        | some next =>
            let st ← fat32WriteFatEntry M cluster fat32EntryFree
            if st ≠ 0 then return 1
            Prog.modify fun s => { s with free := s.free.release }
            if next ≥ fat32EntryEof then return 0
            fat32FreeClusterChain fuel next
      else return 0

end

end Os003
