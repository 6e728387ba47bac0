import Os003.Fs.Volume
import Os003.Fs.Slot

set_option autoImplicit false

/-! # Directories

A directory is a chain of clusters, each an array of slots. Nine functions of the source walk
such a chain with the same loop: read a cluster, look at its slots, and go on with the next
cluster when they decide nothing. `walkDir` is that loop; every function is the walk with its
own look at the slots, its own error codes and its own action on a hit and at the end.

A scanner remembers the long-name pieces it has passed by their slot indices. The source keeps
pointers into the cluster buffer or byte offsets in it. The pointers of `FAT32_FindEntryAny`
and `FAT32_ListDirectory` outlive the buffer of one turn of the loop, but the buffer of the
next turn takes its place, so a piece kept across a cluster boundary is read from the new
cluster at the same index.
-/

namespace Os003

open Bytes

/-! ## The walk -/

section Walk

variable (M : Mount) {Acc γ β : Type}

/-- The loop over the clusters of a directory. `scan` looks at the slots of a cluster and either
goes on with a new accumulator or stops with a hit. -/
def walkDir (readErr nextErr : β) (scan : List UInt8 → Acc → Acc ⊕ γ)
    (onHit : Nat → List UInt8 → γ → Prog FsState β)
    (onEnd : Nat → List UInt8 → Acc → Prog FsState β) : Nat → Nat → Acc → Prog FsState β
  | 0, _, _ => Prog.diverge
  | fuel + 1, current, acc => do
      let (st, buf) ← fat32ReadCluster M current
      if st ≠ 0 then return readErr
      match scan buf acc with
      | .inr hit => onHit current buf hit
      | .inl acc =>
          match ← fat32NextCluster M current with
          | none => return nextErr
          | some next =>
              if next ≥ fat32EntryEof then onEnd next buf acc
              else walkDir readErr nextErr scan onHit onEnd fuel next acc

end Walk

/-! ## Scanners -/

/-- The pieces a scanner has collected, one more added while there is room. -/
def pushPiece (lfn : List Nat) (i : Nat) : List Nat :=
  if lfn.length < lfnMaxPieces then lfn ++ [i] else lfn

/-- The slot loop of `FAT32_FindEntryAny`, `FAT32_RenameFile`, `FAT32_RemoveDir` and
`FAT32_DeleteFile`: `n` slots to go from index `i` on, with the pieces `lfn` collected. A hit
is the index of the short entry with the pieces before it. -/
def scanLfn (buf : List UInt8) (matched : List Nat → Nat → Bool) :
    Nat → Nat → List Nat → List Nat ⊕ (Nat × List Nat)
  | 0, _, lfn => .inl lfn
  | n + 1, i, lfn =>
      let e := slotAt buf i
      if e.name0 = 0x00 then .inl lfn
      else if e.name0 = 0xE5 then scanLfn buf matched n (i + 1) []
      else if e.attr = attrLfn then scanLfn buf matched n (i + 1) (pushPiece lfn i)
      -- a dot behind the test for long-name slots, so an order byte 0x2E does not count
      else if e.name0 = 0x2E then scanLfn buf matched n (i + 1) []
      else if e.attr &&& attrVolumeId ≠ 0 then scanLfn buf matched n (i + 1) []
      else if matched lfn i then .inr (i, lfn)
      else scanLfn buf matched n (i + 1) []

/-- The checksum test of all scanners: the piece collected last carries the checksum of the short
name. -/
def lfnValid (buf : List UInt8) (lfn : List Nat) (i : Nat) : Bool :=
  match lfn.getLast? with
  | none => false
  | some j => (slotAt buf j).checksum = fat32LfnChecksum (slotAt buf i).name

/-- The long name `FAT32_FindEntryAny` compares: the pieces go to `rebuild_lfn_name` in slot
order. -/
def foundLongName (buf : List UInt8) (lfn : List Nat) : List UInt8 :=
  rebuildLfnName (lfn.map (slotAt buf)) fat32MaxName

/-- The long name `FAT32_RenameFile`, `FAT32_RemoveDir` and `FAT32_DeleteFile` compare: the
pieces go to `rebuild_lfn_name` through the array `ordered`, in reverse slot order. -/
def orderedLongName (buf : List UInt8) (lfn : List Nat) : List UInt8 :=
  rebuildLfnName (lfn.reverse.map (slotAt buf)) fat32MaxName

/-- The match test of the scanners, by the long name `longName` rebuilds and the 8.3 form. -/
def matchedBy (longName : List UInt8 → List Nat → List UInt8) (name : List UInt8)
    (buf : List UInt8) (lfn : List Nat) (i : Nat) : Bool :=
  (lfnValid buf lfn i && cstr (longName buf lfn) == name) || (slotAt buf i).name == nameTo83 name

/-- The slot loop of `FAT32_FindEntry` and `FAT32_WriteDirEntry`: a hit is a valid short entry
with the given 11 bytes. -/
def scanSfn (buf : List UInt8) (sfn : Name83) : Nat → Nat → Unit ⊕ Nat
  | 0, _ => .inl ()
  | n + 1, i =>
      let e := slotAt buf i
      if e.name0 = 0x00 then .inl ()
      else if isValidSfnEntry e ∧ e.name = sfn then .inr i
      else scanSfn buf sfn n (i + 1)

/-- The slot loop of `is_dir_empty`. -/
def scanEmpty (buf : List UInt8) : Nat → Nat → Unit ⊕ Bool
  | 0, _ => .inl ()
  | n + 1, i =>
      let e := slotAt buf i
      if e.name0 = 0x00 then .inr true
      else if e.name0 = 0xE5 then scanEmpty buf n (i + 1)
      else if e.attr = attrLfn then scanEmpty buf n (i + 1)
      else if e.name0 = 0x2E then scanEmpty buf n (i + 1)
      else if e.attr &&& attrVolumeId ≠ 0 then scanEmpty buf n (i + 1)
      else .inr false

/-- `fat32_list_entry_t`. -/
structure ListEntry where
  entry : Slot
  displayName : List UInt8
deriving DecidableEq

/-- A short name without the spaces at its end. -/
def sfnDisplayName (n : Name83) : List UInt8 := (n.1.reverse.dropWhile (· = 0x20)).reverse

/-- The slot loop of `FAT32_ListDirectory`: the accumulator holds the pieces collected and the
result so far, a hit is a full result. -/
def scanList (buf : List UInt8) (capacity : Nat) :
    Nat → Nat → List Nat × List ListEntry → (List Nat × List ListEntry) ⊕ List ListEntry
  | 0, _, acc => .inl acc
  | n + 1, i, (lfn, result) =>
      let e := slotAt buf i
      if e.name0 = 0x00 then .inl (lfn, result)
      else if e.name0 = 0xE5 then scanList buf capacity n (i + 1) ([], result)
      -- here the dot comes first
      else if e.name0 = 0x2E then scanList buf capacity n (i + 1) ([], result)
      else if e.attr = attrLfn then scanList buf capacity n (i + 1) (pushPiece lfn i, result)
      else if e.attr &&& attrVolumeId ≠ 0 then scanList buf capacity n (i + 1) ([], result)
      else if result.length ≥ capacity then .inr result
      else
        let displayName :=
          if lfnValid buf lfn i then orderedLongName buf lfn else sfnDisplayName e.name
        scanList buf capacity n (i + 1) ([], result ++ [{ entry := e, displayName }])

/-- The search for `needed` free slots in a cluster of `count` slots, as `FAT32_CreateFile` and
`FAT32_CreateDir` do it: `n` slots to go from index `i` on, `freeRun` deleted slots directly
before, the first of them at `freeStart`. -/
def findRoom (buf : List UInt8) (needed count : Nat) : Nat → Nat → Nat → Nat → Option Nat
  | 0, _, _, _ => none
  | n + 1, i, freeRun, freeStart =>
      let e := slotAt buf i
      let start := if freeRun = 0 then i else freeStart
      -- in front of the end mark only the slots behind it are counted
      if e.name0 = 0x00 then (if count - i ≥ needed then some start else none)
      else if e.name0 = 0xE5 then
        if freeRun + 1 ≥ needed then some start
        else findRoom buf needed count n (i + 1) (freeRun + 1) start
      else findRoom buf needed count n (i + 1) 0 freeStart

/-! ## Changes to a cluster -/

/-- Consecutive slots overwritten from index `i` on. -/
def setSlots (buf : List UInt8) : Nat → List Slot → List UInt8
  | _, [] => buf
  | i, e :: es => setSlots (setSlot buf i e) (i + 1) es

/-- The slots at the given indices marked as deleted. -/
def markDeleted (buf : List UInt8) (is : List Nat) : List UInt8 :=
  is.foldl (fun b i => splice b (32 * i) [0xE5]) buf

/-- The 11 name bytes of slot `i` overwritten. -/
def setSlotName (buf : List UInt8) (i : Nat) (n : Name83) : List UInt8 := splice buf (32 * i) n.1

/-- The slots at the given indices overwritten, in order. -/
def setPieces (buf : List UInt8) (is : List Nat) (es : List Slot) : List UInt8 :=
  (is.zip es).foldl (fun b p => setSlot b p.1 p.2) buf

/-! ## The functions -/

section

variable (M : Mount)

/-- `cluster_size / 32`. -/
def Mount.slotCount : Nat := M.clusterSize / 32

/-- `FAT32_FindEntry`. -/
def fat32FindEntry (fuel dirCluster : Nat) (filename : Name83) :
    Prog FsState (Nat × Option Slot) :=
  walkDir M (2, none) (3, none) (fun buf _ => scanSfn buf filename M.slotCount 0)
    (fun _ buf i => return (0, some (slotAt buf i))) (fun _ _ _ => return (1, none))
    fuel dirCluster ()

/-- `FAT32_FindEntryAny`: the pieces collected are kept from cluster to cluster. -/
def fat32FindEntryAny (fuel dirCluster : Nat) (longName : List UInt8) :
    Prog FsState (Nat × Option Slot) :=
  walkDir M (2, none) (3, none)
    (fun buf lfn => scanLfn buf (matchedBy foundLongName longName buf) M.slotCount 0 lfn)
    (fun _ buf hit => return (0, some (slotAt buf hit.1))) (fun _ _ _ => return (1, none))
    fuel dirCluster []

/-- `FAT32_ListDirectory`; `none` is its null pointer. -/
def fat32ListDirectory (fuel dirCluster : Nat) : Prog FsState (Option (List ListEntry)) :=
  walkDir M none none (fun buf acc => scanList buf (M.slotCount * 8) M.slotCount 0 acc)
    (fun _ _ result => return some result) (fun _ _ acc => return some acc.2)
    fuel dirCluster ([], [])

/-- `FAT32_WriteDirEntry`. -/
def fat32WriteDirEntry (fuel dirCluster : Nat) (newEntry : Slot) : Prog FsState Nat :=
  walkDir M 2 3 (fun buf _ => scanSfn buf newEntry.name M.slotCount 0)
    (fun current buf i => fat32WriteCluster M current (setSlot buf i newEntry))
    (fun _ _ _ => return 1) fuel dirCluster ()

/-- `is_dir_empty`. -/
def isDirEmpty (fuel startCluster : Nat) : Prog FsState Bool := do
  if startCluster = 0 then return true
  walkDir M false false (fun buf _ => scanEmpty buf M.slotCount 0)
    (fun _ _ r => return r) (fun _ _ _ => return true) fuel startCluster ()

/-- The look at a cluster that `FAT32_RenameFile`, `FAT32_RemoveDir` and `FAT32_DeleteFile`
share: the pieces collected are dropped at a cluster boundary. -/
def scanOrdered (name : List UInt8) (buf : List UInt8) (_lfn : List Nat) :
    List Nat ⊕ (Nat × List Nat) :=
  scanLfn buf (matchedBy orderedLongName name buf) M.slotCount 0 []

/-- What `FAT32_RenameFile` makes of the cluster: the pieces are overwritten in place when the new
name needs as many, otherwise they are deleted. -/
def renamedCluster (buf : List UInt8) (i : Nat) (lfn : List Nat) (newName : List UInt8) :
    List UInt8 :=
  let newSfn := nameTo83 newName
  let newLfn := makeLfnEntries newName (fat32LfnChecksum newSfn)
  if lfn.length > 0 ∧ newLfn.length > 0 ∧ lfn.length = newLfn.length then
    setSlotName (setPieces buf lfn newLfn) i newSfn
  else setSlotName (markDeleted buf lfn) i newSfn

/-- `FAT32_RenameFile`. -/
def fat32RenameFile (fuel dirCluster : Nat) (oldName newName : List UInt8) : Prog FsState Nat := do
  let (st, _) ← fat32FindEntryAny M fuel dirCluster newName
  if st = 0 then return 4
  walkDir M 2 3 (scanOrdered M oldName)
    (fun current buf (i, lfn) => do
      let st ← fat32WriteCluster M current (renamedCluster buf i lfn newName)
      if st ≠ 0 then return 3
      ata (ataFlushCache (refAsBool M.disk.isMaster))
      return 0)
    (fun _ _ _ => return 1) fuel dirCluster []

/-- The end of `FAT32_CreateFile` and `FAT32_CreateDir`: the new slots go into the buffer at
`pos`, and the buffer to `current`. -/
def writeNewSlots (current : Nat) (buf : List UInt8) (pos : Nat) (slots : List Slot) :
    Prog FsState Nat := do
  let st ← fat32WriteCluster M current (setSlots buf pos slots)
  if st ≠ 0 then return 3
  ata (ataFlushCache (refAsBool M.disk.isMaster))
  return 0

/-- The directory loop of `FAT32_CreateFile` and `FAT32_CreateDir`, which differ in the code
`full` for a disk without a free cluster. When no cluster has room, a new one is allocated; by
then `current` is no cluster any more but the end mark the walk has read, and the buffer still
holds the last cluster of the directory. -/
def addSlots (fuel dirCluster full : Nat) (slots : List Slot) : Prog FsState Nat :=
  walkDir M 2 2
    (fun buf _ =>
      match findRoom buf slots.length M.slotCount M.slotCount 0 0 0 with
      | some pos => .inr pos
      | none => .inl ())
    (fun current buf pos => writeNewSlots M current buf pos slots)
    (fun current buf _ => do
      let newCluster ← fat32AllocCluster M fuel
      if newCluster = 0 then return full
      let st ← fat32WriteFatEntry M (if current = dirCluster then dirCluster else current) newCluster
      if st ≠ 0 then return 3
      let st ← fat32WriteCluster M newCluster (List.replicate M.clusterSize 0)
      if st ≠ 0 then return 3
      -- the buffer of the last cluster is written over the zeros
      writeNewSlots M newCluster buf 0 slots)
    fuel dirCluster ()

/-- The slots of a new entry: the pieces of the long name, then the short entry. -/
def newSlots (name : List UInt8) (attr : UInt8) (rtc : RtcTime) (cluster : Nat) : List Slot :=
  makeLfnEntries name (fat32LfnChecksum (nameTo83 name)) ++
    [mkSfn (nameTo83 name) attr rtc cluster]

/-- `FAT32_CreateFile`, with what `get_rtc_time` returns as a parameter. -/
def fat32CreateFile (fuel dirCluster : Nat) (filename : List UInt8) (rtc : RtcTime) :
    Prog FsState Nat := do
  let (st, _) ← fat32FindEntryAny M fuel dirCluster filename
  if st = 0 then return 1
  addSlots M fuel dirCluster 5 (newSlots filename attrArchive rtc 0)

/-- The short names of "." and "..". -/
def dotName : Name83 := ⟨0x2E :: List.replicate 10 0x20, by decide⟩

def dotdotName : Name83 := ⟨0x2E :: 0x2E :: List.replicate 9 0x20, by decide⟩

/-- The first cluster of a new directory; the parent of a directory in the root is 0. -/
def newDirCluster (rtc : RtcTime) (newCluster dirCluster : Nat) : List UInt8 :=
  let parentCluster := if dirCluster = M.info.rootCluster then 0 else dirCluster
  setSlots (List.replicate M.clusterSize 0) 0
    [mkSfn dotName attrDirectory rtc newCluster, mkSfn dotdotName attrDirectory rtc parentCluster]

/-- `FAT32_CreateDir`. -/
def fat32CreateDir (fuel dirCluster : Nat) (dirname : List UInt8) (rtc : RtcTime) :
    Prog FsState Nat := do
  let (st, _) ← fat32FindEntryAny M fuel dirCluster dirname
  if st = 0 then return 1
  let newCluster ← fat32AllocCluster M fuel
  if newCluster = 0 then return 5
  let st ← fat32WriteCluster M newCluster (newDirCluster M rtc newCluster dirCluster)
  if st ≠ 0 then return 3
  addSlots M fuel dirCluster 4 (newSlots dirname attrDirectory rtc newCluster)

/-- The last step of `FAT32_DeleteFile` and `FAT32_RemoveDir`: the pieces and the short entry are
marked as deleted and the cluster is written back. -/
def removeSlots (current : Nat) (buf : List UInt8) (i : Nat) (lfn : List Nat) :
    Prog FsState Nat := do
  let st ← fat32WriteCluster M current (markDeleted buf (lfn ++ [i]))
  if st ≠ 0 then return 3
  ata (ataFlushCache (refAsBool M.disk.isMaster))
  return 0

/-- `FAT32_RemoveDir`. -/
def fat32RemoveDir (fuel dirCluster : Nat) (dirname : List UInt8) : Prog FsState Nat :=
  walkDir M 2 2 (scanOrdered M dirname)
    (fun current buf (i, lfn) => do
      let e := slotAt buf i
      if !e.isDirectory then return 4
      let delCluster := e.cluster
      if delCluster ≠ 0 then
        let isEmpty ← isDirEmpty M fuel delCluster
        if !isEmpty then return 5
        -- the chain is freed before the entry is marked
        let st ← fat32FreeClusterChain M fuel delCluster
        if st ≠ 0 then return 3
        removeSlots M current buf i lfn
      else removeSlots M current buf i lfn)
    (fun _ _ _ => return 1) fuel dirCluster []

/-- `FAT32_DeleteFile`. -/
def fat32DeleteFile (fuel dirCluster : Nat) (filename : List UInt8) : Prog FsState Nat :=
  walkDir M 2 2 (scanOrdered M filename)
    (fun current buf (i, lfn) => do
      let e := slotAt buf i
      if e.isDirectory then return 4
      let fileCluster := e.cluster
      if fileCluster ≠ 0 then
        let st ← fat32FreeClusterChain M fuel fileCluster
        if st ≠ 0 then return 3
        removeSlots M current buf i lfn
      else removeSlots M current buf i lfn)
    (fun _ _ _ => return 1) fuel dirCluster []

end

end Os003
