import Os003.Fs.Directory

set_option autoImplicit false

/-! # Files

Reading, overwriting and appending. A loop that the source may leave by `return written` in the
middle, past the update of the directory entry, ends in `LoopExit.early`.
-/

namespace Os003

open Bytes

/-- How a write loop ends: by `return written` inside it, or by its condition, in which case the
function goes on with the bytes written and the cluster reached. -/
inductive LoopExit where
  | early (written : Nat)
  | done (written cluster : Nat)
deriving DecidableEq, Repr

section

variable (M : Mount)

/-- The loop of `FAT32_ReadFile`: the count returned and the buffer filled so far. -/
def readLoop (fileSize : Nat) : Nat → Nat → Nat → List UInt8 → Prog FsState (Nat × List UInt8)
  | 0, _, _, _ => Prog.diverge
  | fuel + 1, cluster, bytesRead, out => do
      if bytesRead < fileSize then
        let (st, buf) ← fat32ReadCluster M cluster
        let out := splice out bytesRead buf
        if st ≠ 0 then return (bytesRead, out)
        let bytesRead := u32 (bytesRead + M.clusterSize)
        if bytesRead ≥ fileSize then return (fileSize, out)
        match ← fat32NextCluster M cluster with
        | none => return (bytesRead, out)
        | some next =>
            if next ≥ fat32EntryEof then return (bytesRead, out)
            readLoop fileSize fuel next bytesRead out
      else return (fileSize, out)

/-- `FAT32_ReadFile`: the bytes read and the buffer. -/
def fat32ReadFile (fuel : Nat) (entry : Slot) : Prog FsState (Nat × List UInt8) := do
  if entry.isDirectory then return (0, [])
  readLoop M entry.fileSize fuel entry.cluster 0 []

/-- The cluster `FAT32_WriteFile` and `FAT32_AppendFile` write for a part of a cluster: the old
bytes with the new ones copied over them. What the read returns is not checked. -/
def patchCluster (cluster offset : Nat) (bs : List UInt8) : Prog FsState Nat := do
  let (_, tmp) ← fat32ReadCluster M cluster
  fat32WriteCluster M cluster (splice tmp offset bs)

/-- One cluster written by the loops of `FAT32_WriteFile` and `FAT32_AppendFile`: the next
`toWrite` bytes of `src` go to `offset`, and a cluster that is not filled from its start is read
first. `FAT32_WriteFile` always writes from the start of a cluster. -/
def writeChunk (cluster offset toWrite : Nat) (src : List UInt8) : Prog FsState Nat :=
  if offset > 0 ∨ toWrite < M.clusterSize then patchCluster M cluster offset (src.take toWrite)
  else fat32WriteCluster M cluster (src.take M.clusterSize)

/-- The loop of `FAT32_WriteFile`. -/
def writeLoop (data : List UInt8) : Nat → Nat → Nat → Prog FsState LoopExit
  | 0, _, _ => Prog.diverge
  | fuel + 1, cluster, written => do
      if written < data.length then
        let remain := data.length - written
        let toWrite := if remain < M.clusterSize then remain else M.clusterSize
        let st ← writeChunk M cluster 0 toWrite (data.drop written)
        if st ≠ 0 then return .early written
        let written := written + toWrite
        if written ≥ data.length then return .done written cluster
        match ← fat32NextCluster M cluster with
        | none => return .early written
        | some next =>
            -- the chain is too short: a new cluster goes behind the last one
            if next ≥ fat32EntryEof then
              let next ← fat32AllocCluster M fuel
              if next = 0 then return .early written
              let st ← fat32WriteFatEntry M cluster next
              if st ≠ 0 then return .early written
              writeLoop data fuel next written
            else writeLoop data fuel next written
      else return .done written cluster

/-- The clusters behind the last one written are freed when the file had more of them. -/
def shrinkChain (fuel cluster : Nat) : Prog FsState Unit := do
  match ← fat32NextCluster M cluster with
  | none => return ()
  | some afterLast =>
      if afterLast < fat32EntryEof then
        let _ ← fat32WriteFatEntry M cluster fat32EntryEof
        let _ ← fat32FreeClusterChain M fuel afterLast
        return ()
      else return ()

/-- Where `FAT32_WriteFile` starts to write: in a new first cluster of an empty file that is to
get bytes, else in the first cluster of the chain. `none` makes the function return 0. -/
def writeStart (fuel : Nat) (entry : Slot) (size : Nat) : Prog FsState (Option (Nat × Slot)) := do
  if entry.cluster = 0 ∧ size > 0 then
    let cluster ← fat32AllocCluster M fuel
    if cluster = 0 then return none
    return some (cluster, entry.setCluster cluster)
  else return some (entry.cluster, entry)

/-- `FAT32_WriteFile`: the bytes written and the entry as the caller finds it afterwards. -/
def fat32WriteFile (fuel dirCluster : Nat) (entry : Slot) (data : List UInt8) :
    Prog FsState (Nat × Slot) := do
  if entry.isDirectory then return (0, entry)
  let oldClusters := u32 (entry.fileSize + M.clusterSize - 1) / M.clusterSize
  match ← writeStart M fuel entry data.length with
  | none => return (0, entry)
  | some (cluster, entry) =>
      match ← writeLoop M data fuel cluster 0 with
      | .early written => return (written, entry)
      | .done written cluster =>
          -- `written` is compared with the clusters of the old size, not with the old size
          if written < u32 (oldClusters * M.clusterSize) then shrinkChain M fuel cluster
          -- `file_size` only grows
          let entry := if written > entry.fileSize then entry.setFileSize written else entry
          let _ ← fat32WriteDirEntry M fuel dirCluster entry
          return (written, entry)

/-- The walk to the last cluster in `FAT32_AppendFile`; `none` is a failed read. -/
def lastCluster : Nat → Nat → Prog FsState (Option Nat)
  | 0, _ => Prog.diverge
  | fuel + 1, cluster => do
      match ← fat32NextCluster M cluster with
      | none => return none
      | some next => if next ≥ fat32EntryEof then return some cluster else lastCluster fuel next

/-- The loop of `FAT32_AppendFile`. It checks neither the writes of clusters nor the links. -/
def appendLoop (data : List UInt8) : Nat → Nat → Nat → Nat → Prog FsState LoopExit
  | 0, _, _, _ => Prog.diverge
  | fuel + 1, cluster, offset, written => do
      if written < data.length then
        let remain := data.length - written
        let space := M.clusterSize - offset
        let toWrite := if remain < space then remain else space
        let _ ← writeChunk M cluster offset toWrite (data.drop written)
        let written := written + toWrite
        if written ≥ data.length then return .done written cluster
        let nc ← fat32AllocCluster M fuel
        if nc = 0 then return .early written
        let _ ← fat32WriteFatEntry M cluster nc
        appendLoop data fuel nc 0 written
      else return .done written cluster

/-- Where `FAT32_AppendFile` starts to write: in a new first cluster of an empty file, else in
the last cluster of the chain. `none` makes the function return 0. -/
def appendStart (fuel : Nat) (entry : Slot) : Prog FsState (Option (Nat × Slot)) := do
  if entry.cluster = 0 then
    let cluster ← fat32AllocCluster M fuel
    if cluster = 0 then return none
    return some (cluster, entry.setCluster cluster)
  else
    match ← lastCluster M fuel entry.cluster with
    | none => return none
    | some cluster => return some (cluster, entry)

/-- A further cluster behind the last one, if that is exactly full. `none` is a full disk. -/
def appendRoom (fuel cluster oldSize : Nat) : Prog FsState (Option Nat) := do
  if oldSize % M.clusterSize = 0 ∧ oldSize > 0 then
    let nc ← fat32AllocCluster M fuel
    if nc = 0 then return none
    let _ ← fat32WriteFatEntry M cluster nc
    return some nc
  else return some cluster

/-- `FAT32_AppendFile`. -/
def fat32AppendFile (fuel dirCluster : Nat) (entry : Slot) (data : List UInt8) :
    Prog FsState (Nat × Slot) := do
  if data.length = 0 ∨ entry.isDirectory then return (0, entry)
  let oldSize := entry.fileSize
  match ← appendStart M fuel entry with
  | none => return (0, entry)
  | some (cluster, entry) =>
      match ← appendRoom M fuel cluster oldSize with
      | none => return (0, entry)
      | some cluster =>
          match ← appendLoop M data fuel cluster (oldSize % M.clusterSize) 0 with
          -- the entry on the disk stays as it was, whatever has been written
          | .early written => return (written, entry)
          | .done written _ =>
              let entry := entry.setFileSize (u32 (oldSize + written))
              let _ ← fat32WriteDirEntry M fuel dirCluster entry
              return (written, entry)

end

end Os003
