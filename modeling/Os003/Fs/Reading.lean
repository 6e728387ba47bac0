import Os003.Fs.Contents
import Os003.Fs.Geometry

set_option autoImplicit false

/-! # Reading a file of any size

`FAT32_ReadFile` counts the bytes it has read in whole clusters and in 32 bits. For a file whose
last cluster ends at the address 2^32 the count comes out as 0 after the last cluster, which is
below the file size: the loop asks for another cluster, meets the end of the chain and returns 0.

The runs of this file keep track of the commands sent to the drives, so that the statement about a
read can say which clusters were read and in which order.
-/

namespace Os003

open Bytes Linked

/-! ## The commands of a read -/

/-- The state after the commands `evs`, the first one first. -/
def FsState.logged (s : FsState) (evs : List AtaEvent) : FsState :=
  { s with log := evs.reverse ++ s.log }

@[simp] theorem FsState.logged_nil (s : FsState) : s.logged [] = s := rfl

@[simp] theorem FsState.logged_faults (s : FsState) (evs : List AtaEvent) :
    (s.logged evs).faults = s.faults := rfl

@[simp] theorem Mount.view_logged (M : Mount) (s : FsState) (evs : List AtaEvent) :
    M.view (s.logged evs) = M.view s := rfl

theorem FsState.logged_logged (s : FsState) (evs evs' : List AtaEvent) :
    (s.logged evs).logged evs' = s.logged (evs ++ evs') := by
  simp [FsState.logged]

namespace Mount

variable (M : Mount)

/-- The command that reads the data of a cluster. -/
def readData (c : Nat) : AtaEvent :=
  .read M.disk.isMaster (M.clusterLba c) M.info.sectorsPerCluster

/-- The command that reads the table entry of a cluster. -/
def readEntry (c : Nat) : AtaEvent := .read true (M.fatLba c) 1

/-- The commands for clusters that are not the last one: the data, then the entry. -/
def readOn (l : List Nat) : List AtaEvent := l.flatMap fun c => [M.readData c, M.readEntry c]

/-- The commands for a whole file: the data of each cluster, and between two clusters the entry
that leads from one to the other. -/
def readCommands (l : List Nat) : List AtaEvent :=
  M.readOn l.dropLast ++ l.getLast?.toList.map M.readData

end Mount

theorem Mount.readCommands_concat (M : Mount) (p : List Nat) (b : Nat) :
    M.readCommands (p ++ [b]) = M.readOn p ++ [M.readData b] := by
  simp [Mount.readCommands]

/-! ## The loop -/

section Sound

variable {M : Mount} (hM : M.Sound) {s : FsState} {V : Volume}
include hM

/-- The turns of the loop before the last cluster. -/
theorem readLoop_on (hq : s.faults = []) (hview : M.view s = V) {size c b : Nat} {p : List Nat}
    {out : List UInt8} (hl : V.ChainOf c (p ++ [b])) (hin : ∀ x ∈ p ++ [b], M.InRange x)
    (hsize : size < 2 ^ 32) (hout : out.length + p.length * M.clusterSize < size) (fuel : Nat) :
    readLoop M size (fuel + p.length) c out.length out s =
      readLoop M size fuel b (out ++ V.bytes p).length (out ++ V.bytes p)
        (s.logged (M.readOn p)) := by
  induction p generalizing c s out with
  | nil =>
      obtain rfl : b = c := by
        obtain ⟨t, ht⟩ := Chain.eq_cons hl
        exact (List.cons.inj ht).1
      simp [Mount.readOn]
  | cons a p ih =>
      obtain ⟨rfl, hstop, htail⟩ := Chain.of_cons hl (by simp)
      have hain := hin a (by simp)
      have hlen : (V.data a).length = M.clusterSize := by
        rw [← hview]
        exact M.view_data_length s hain
      rw [List.length_cons, Nat.succ_mul] at hout
      have hu : u32 (out.length + M.clusterSize) = (out ++ V.data a).length := by
        rw [u32, List.length_append, hlen]
        omega
      have hread := fat32ReadCluster_run hM hq hain
      have hnext := fat32NextCluster_run hM (s := s.note (M.readData a)) hq hain.hasEntry
      rw [hview] at hread
      rw [Mount.view_note, hview] at hnext
      have hgo : ¬ V.fat a ≥ fat32EntryEof := hstop
      -- one turn of the loop: a read of the cluster and one of its entry
      have hturn : readLoop M size (fuel + p.length + 1) a out.length out s =
          readLoop M size (fuel + p.length) (V.fat a) (out ++ V.data a).length (out ++ V.data a)
            (s.logged [M.readData a, M.readEntry a]) := by
        rw [readLoop, if_pos (by omega), Prog.bind_run hread]
        simp only [splice_append, hu]
        rw [if_neg (by simp), if_neg (by rw [List.length_append, hlen]; omega)]
        refine (Prog.bind_run hnext).trans ?_
        simp only []
        rw [if_neg hgo]
        rfl
      calc readLoop M size (fuel + (a :: p).length) a out.length out s
          = readLoop M size (fuel + p.length) (V.fat a) (out ++ V.data a).length (out ++ V.data a)
              (s.logged [M.readData a, M.readEntry a]) := hturn
        _ = readLoop M size fuel b (out ++ V.data a ++ V.bytes p).length
              (out ++ V.data a ++ V.bytes p)
              ((s.logged [M.readData a, M.readEntry a]).logged (M.readOn p)) := by
            refine ih (s := s.logged [M.readData a, M.readEntry a]) hq hview
              htail (fun x hx => hin x (List.mem_cons_of_mem _ hx)) ?_
            rw [List.length_append, hlen]
            omega
        _ = _ := by
            rw [FsState.logged_logged, List.append_assoc, ← Volume.bytes_cons]
            rfl

/-- The turn at the last cluster. Its end is the end of the file or beyond it; where it is the
address 2^32, the count is 0 and the loop looks for one more cluster. -/
theorem readLoop_last (hq : s.faults = []) (hview : M.view s = V) {size b : Nat}
    {out : List UInt8} (hb : M.InRange b) (heof : IsEof (V.fat b)) (hout : out.length < size)
    (hend : size ≤ out.length + M.clusterSize) (hmax : out.length + M.clusterSize ≤ 2 ^ 32)
    (fuel : Nat) :
    readLoop M size (fuel + 1) b out.length out s =
      if out.length + M.clusterSize < 2 ^ 32 then
        some ((size, out ++ V.data b), s.logged [M.readData b])
      else some ((0, out ++ V.data b), s.logged [M.readData b, M.readEntry b]) := by
  have hread := fat32ReadCluster_run hM hq hb
  have hnext := fat32NextCluster_run hM (s := s.note (M.readData b)) hq hb.hasEntry
  rw [hview] at hread
  rw [Mount.view_note, hview] at hnext
  rw [readLoop, if_pos hout, Prog.bind_run hread]
  simp only [splice_append]
  rw [if_neg (by simp)]
  by_cases hwrap : out.length + M.clusterSize < 2 ^ 32
  · have hu : u32 (out.length + M.clusterSize) = out.length + M.clusterSize := by
      rw [u32]
      omega
    rw [if_pos hwrap, hu, if_pos hend, Prog.pure_run]
    rfl
  · have hu : u32 (out.length + M.clusterSize) = 0 := by
      rw [u32]
      omega
    rw [if_neg hwrap, hu, if_neg (by omega)]
    refine (Prog.bind_run hnext).trans ?_
    have hstop : V.fat b ≥ fat32EntryEof := heof
    simp only []
    rw [if_pos hstop, Prog.pure_run]
    rfl

end Sound

/-! ## Cluster sizes -/

/-- The cluster sizes that `check_DBR` admits divide 2^32. -/
theorem clusterSize_dvd {M : Mount} (hck : Checked M.info) : M.clusterSize ∣ 2 ^ 32 := by
  have hmax := hck.clusterMax
  have hpos := hck.clusterPos
  have hpow := hck.powerOfTwo
  have key : ∀ n, n < 65 → 0 < n → n &&& (n - 1) = 0 → 512 * n ∣ 2 ^ 32 := by decide
  rw [Mount.clusterSize, hck.bytes]
  exact key _ (by omega) hpos hpow

/-- The clusters of a file end at 2^32 or before it, and at 2^32 only for a file that reaches into
the last cluster below it. -/
theorem clustersFor_end {M : Mount} (hM : M.Sound) (hck : Checked M.info) {size : Nat}
    (hsize : size < 2 ^ 32) :
    M.clustersFor size * M.clusterSize ≤ 2 ^ 32 ∧
      (M.clustersFor size * M.clusterSize < 2 ^ 32 ↔ size + M.clusterSize ≤ 2 ^ 32) := by
  obtain ⟨k, hk⟩ := clusterSize_dvd hck
  have hle : M.clustersFor size ≤ k := by
    rw [hM.clustersFor_le_iff, Nat.mul_comm, ← hk]
    omega
  have hbound : M.clustersFor size * M.clusterSize ≤ 2 ^ 32 := by
    calc M.clustersFor size * M.clusterSize
        ≤ k * M.clusterSize := Nat.mul_le_mul_right _ hle
      _ = 2 ^ 32 := by rw [Nat.mul_comm, ← hk]
  refine ⟨hbound, ?_⟩
  constructor
  · intro hlt
    -- one cluster less than the whole range
    have hless : M.clustersFor size < k := by
      by_contra hge
      have : k * M.clusterSize ≤ M.clustersFor size * M.clusterSize :=
        Nat.mul_le_mul_right _ (by omega)
      rw [Nat.mul_comm, ← hk] at this
      omega
    have hmul : (M.clustersFor size + 1) * M.clusterSize ≤ k * M.clusterSize :=
      Nat.mul_le_mul_right _ hless
    rw [Nat.mul_comm k, ← hk, Nat.succ_mul] at hmul
    have := hM.le_clustersFor size
    omega
  · intro h
    have := hM.clustersFor_lt size
    omega

/-! ## A whole file -/

section Sound

variable {M : Mount} (hM : M.Sound) {s : FsState} {V : Volume}
include hM

/-- What `FAT32_ReadFile` returns for a well-formed file, and the commands it sends. -/
theorem readFile_outcome (hck : Checked M.info) (hq : s.faults = []) (hview : M.view s = V)
    {e : Slot} {l : List Nat} (hfile : M.WellFormedFile V e l) :
    ∃ r s', Prog.Ends (fun fuel => fat32ReadFile M fuel e) s (r, V.bytes l) s' ∧
      if e.fileSize + M.clusterSize ≤ 2 ^ 32 then
        r = e.fileSize ∧ s' = s.logged (M.readCommands l)
      else r = 0 ∧ 0 < e.fileSize := by
  have hbody : ∀ fuel, fat32ReadFile M fuel e = readLoop M e.fileSize fuel e.cluster 0 [] := by
    intro fuel
    rw [fat32ReadFile, hfile.isFile]
    rfl
  have hpos := hM.clusterSize_pos
  have hcs : M.clusterSize ≤ 2 ^ 32 := Nat.le_of_dvd (by decide) (clusterSize_dvd hck)
  obtain ⟨hbound, hwrap⟩ := clustersFor_end hM hck e.fileSize_lt
  by_cases h0 : e.fileSize = 0
  · have hnil : l = [] := by
      rw [← List.length_eq_zero_iff, hfile.length, h0, hM.clustersFor_zero]
    refine ⟨0, s, ⟨1, ?_⟩, ?_⟩
    · intro fuel hfuel
      obtain ⟨fuel, rfl⟩ : ∃ k, fuel = k + 1 := ⟨fuel - 1, by omega⟩
      show fat32ReadFile M (fuel + 1) e s = _
      rw [hbody, readLoop, if_neg (by omega), Prog.pure_run, h0, hnil]
      rfl
    · rw [if_pos (by omega), h0, hnil]
      exact ⟨rfl, rfl⟩
  · have hne : l ≠ [] := by
      intro h
      have := hM.le_clustersFor e.fileSize
      rw [← hfile.length, h] at this
      simp at this
      omega
    obtain ⟨p, b, rfl⟩ := List.eq_nil_or_concat' l |>.resolve_left hne
    have hchain := hfile.clusters.chain hne
    have hin := hfile.clusters.1
    have hlast : IsEof (V.fat b) := Chain.stop_last hchain
    have hcount : M.clustersFor e.fileSize = p.length + 1 := by
      rw [← hfile.length, List.length_append, List.length_singleton]
    have hlen : (V.bytes p).length = p.length * M.clusterSize := by
      refine Volume.bytes_length (fun x hx => ?_)
      rw [← hview]
      exact M.view_data_length s (hin x (List.mem_append_left _ hx))
    have hbefore := hM.clustersFor_lt e.fileSize
    have hafter := hM.le_clustersFor e.fileSize
    rw [hcount, Nat.succ_mul] at hbefore hafter hbound hwrap
    -- all clusters but the last, then the last one
    have hrun : ∀ fuel, fat32ReadFile M (fuel + 1 + p.length) e s =
        if (V.bytes p).length + M.clusterSize < 2 ^ 32 then
          some ((e.fileSize, V.bytes (p ++ [b])), s.logged (M.readCommands (p ++ [b])))
        else some ((0, V.bytes (p ++ [b])),
          s.logged (M.readOn p ++ [M.readData b, M.readEntry b])) := by
      intro fuel
      have hon : readLoop M e.fileSize (fuel + 1 + p.length) e.cluster
          ([] : List UInt8).length [] s = _ :=
        readLoop_on hM hq hview hchain hin e.fileSize_lt (by rw [List.length_nil]; omega) (fuel + 1)
      have hend : readLoop M e.fileSize (fuel + 1) b (V.bytes p).length (V.bytes p)
          (s.logged (M.readOn p)) = _ :=
        readLoop_last hM (s := s.logged (M.readOn p)) hq hview (hin b (by simp)) hlast
          (show (V.bytes p).length < e.fileSize by omega) (by omega) (by omega) fuel
      rw [hbody]
      refine hon.trans ?_
      rw [List.nil_append, hend, FsState.logged_logged, FsState.logged_logged,
        Mount.readCommands_concat, Volume.bytes_append, Volume.bytes_cons, Volume.bytes_nil,
        List.append_nil]
    rw [hlen] at hrun
    by_cases hfits : e.fileSize + M.clusterSize ≤ 2 ^ 32
    · refine ⟨e.fileSize, s.logged (M.readCommands (p ++ [b])), ⟨1 + p.length, ?_⟩, ?_⟩
      · intro fuel hfuel
        obtain ⟨fuel, rfl⟩ : ∃ k, fuel = k + 1 + p.length := ⟨fuel - 1 - p.length, by omega⟩
        exact (hrun fuel).trans (if_pos (hwrap.mpr hfits))
      · rw [if_pos hfits]
        exact ⟨rfl, rfl⟩
    · refine ⟨0, s.logged (M.readOn p ++ [M.readData b, M.readEntry b]), ⟨1 + p.length, ?_⟩, ?_⟩
      · intro fuel hfuel
        obtain ⟨fuel, rfl⟩ : ∃ k, fuel = k + 1 + p.length := ⟨fuel - 1 - p.length, by omega⟩
        exact (hrun fuel).trans (if_neg (fun h => hfits (hwrap.mp h)))
      · rw [if_neg hfits]
        exact ⟨rfl, by omega⟩

/-- A well-formed file is read as its size says, cluster after cluster, just when it does not reach
into the last cluster below 4 GiB. -/
theorem readFile_covers_iff (hck : Checked M.info) (hq : s.faults = []) (hview : M.view s = V)
    {e : Slot} {l : List Nat} (hfile : M.WellFormedFile V e l) :
    (∃ s', Prog.Ends (fun fuel => fat32ReadFile M fuel e) s (e.fileSize, V.bytes l) s' ∧
        s'.log = (M.readCommands l).reverse ++ s.log) ↔
      e.fileSize ≤ 2 ^ 32 - M.clusterSize := by
  have hcs : M.clusterSize ≤ 2 ^ 32 := Nat.le_of_dvd (by decide) (clusterSize_dvd hck)
  obtain ⟨r, s', hends, hcase⟩ := readFile_outcome hM hck hq hview hfile
  constructor
  · rintro ⟨s'', hends', -⟩
    by_contra hbig
    rw [if_neg (by omega)] at hcase
    have heq := (hends.unique hends').1
    have hr : r = e.fileSize := congrArg Prod.fst heq
    omega
  · intro hfits
    rw [if_pos (by omega)] at hcase
    obtain ⟨rfl, rfl⟩ := hcase
    exact ⟨_, hends, rfl⟩

end Sound

/-! ## Two files -/

/-- An entry of a file with the given first cluster and size. -/
def fileSlot (cluster size : Nat) : Slot :=
  ⟨List.replicate 11 (0x41 : UInt8) ++ [attrArchive] ++ List.replicate 8 (0 : UInt8) ++
      le16 ((cluster >>> 16) &&& 0xFFFF) ++ List.replicate 4 (0 : UInt8) ++ le16 (cluster &&& 0xFFFF) ++
      le32 size, by simp⟩

/-- A file of 1000 bytes in two clusters of 512 bytes. -/
theorem readFile_covers_two : ∃ s',
    Prog.Ends (fun fuel => fat32ReadFile (smallMount { isPrimary := true, isMaster := true }) fuel
        (fileSlot 3 1000)) (smallState [0, 0, 0, 4, fat32EntryEof] fun _ => [])
      (1000, ((smallMount { isPrimary := true, isMaster := true }).view
        (smallState [0, 0, 0, 4, fat32EntryEof] fun _ => [])).bytes [3, 4]) s' ∧
      s'.log = [.read true 7 1, .read true 4 1, .read true 6 1] := by
  have hfile : (smallMount { isPrimary := true, isMaster := true }).WellFormedFile
      ((smallMount { isPrimary := true, isMaster := true }).view
        (smallState [0, 0, 0, 4, fat32EntryEof] fun _ => [])) (fileSlot 3 1000) [3, 4] := by
    decide +kernel
  obtain ⟨s', hends, hlog⟩ := (readFile_covers_iff (smallMount_sound _)
    ⟨rfl, rfl, by decide, by decide, by decide, by decide⟩ rfl rfl hfile).mpr (by decide +kernel)
  have hsize : (fileSlot 3 1000).fileSize = 1000 := by decide +kernel
  rw [hsize] at hends
  exact ⟨s', hends, hlog.trans (by decide +kernel)⟩

/-- A volume with 131072 clusters of 32 KiB. -/
def largeMount : Mount where
  disk := { isPrimary := true, isMaster := true }
  part := { startingLba := 2 }
  info := parseDbr (bootSector 64 1 2 8389635 1025 2 1)

/-- The entry of a number in a table with one chain through all clusters. -/
def oneChain (c : Nat) : Nat := if c < 131073 then c + 1 else fat32EntryEof

/-- The large volume as one chain. -/
def largeState : FsState where
  drive _ x := (le32 (oneChain ((x - 2048) / 4))).getD (x % 4) 0
  faults := []
  log := []
  free := FreeInfo.unknown
  allocs := []

theorem largeMount_sound : largeMount.Sound where
  bytes := by decide +kernel
  sectors := by decide +kernel
  fats := by decide +kernel
  layout := by decide +kernel
  region := by decide +kernel
  table := by decide +kernel
  clusters := by decide +kernel
  address := by decide

theorem largeMount_facts : largeMount.fatBase = 2048 ∧ largeMount.info.totalClusters = 131072 ∧
    largeMount.clusterSize = 32768 := by
  decide +kernel

theorem largeState_fat {c : Nat} (hc : c < 131074) :
    (largeMount.view largeState).fat c = oneChain c := by
  obtain ⟨hbase, htotal, -⟩ := largeMount_facts
  have hentry : largeMount.HasEntry c := by
    rw [Mount.HasEntry, htotal]
    exact hc
  have hword : largeMount.entryAt largeState c = oneChain c % 2 ^ 32 := by
    rw [Mount.entryAt, ← readLe32_le32]
    apply readLe32_congr
    intro i hi
    rw [getD_readBytes _ _ _ _ (by omega), hbase]
    show (le32 (oneChain ((2048 + 4 * c + (0 + i) - 2048) / 4))).getD
      ((2048 + 4 * c + (0 + i)) % 4) 0 = _
    rw [show (2048 + 4 * c + (0 + i) - 2048) / 4 = c by omega,
      show (2048 + 4 * c + (0 + i)) % 4 = 0 + i by omega]
  rw [Mount.view]
  simp only [if_pos hentry, hword]
  unfold oneChain fat32EntryEof
  split <;> omega

/-- From any cluster on, the chain goes up to the last one. -/
theorem largeState_chain (n c : Nat) (hc : c + n = 131073) :
    (largeMount.view largeState).ChainOf c (List.range' c (n + 1)) := by
  induction n generalizing c with
  | zero =>
      refine Chain.last ?_
      rw [largeState_fat (by omega), oneChain, if_neg (by omega)]
      exact Nat.le_refl _
  | succ n ih =>
      have hnext : (largeMount.view largeState).fat c = c + 1 := by
        rw [largeState_fat (by omega), oneChain, if_pos (by omega)]
      rw [List.range'_succ]
      refine Chain.step ?_ ?_
      · rw [hnext]
        unfold IsEof fat32EntryEof
        omega
      · rw [hnext]
        exact ih (c + 1) (by omega)

/-- A file of 2^32 - 1 bytes with all its clusters: `FAT32_ReadFile` returns 0. -/
theorem readFile_four_gib :
    largeMount.WellFormedFile (largeMount.view largeState) (fileSlot 2 0xFFFFFFFF)
      (List.range' 2 131072) ∧
    (∃ s', Prog.Ends (fun fuel => fat32ReadFile largeMount fuel (fileSlot 2 0xFFFFFFFF)) largeState
      (0, (largeMount.view largeState).bytes (List.range' 2 131072)) s') ∧
    ¬ ∃ s', Prog.Ends (fun fuel => fat32ReadFile largeMount fuel (fileSlot 2 0xFFFFFFFF)) largeState
        (0xFFFFFFFF, (largeMount.view largeState).bytes (List.range' 2 131072)) s' ∧
      s'.log = (largeMount.readCommands (List.range' 2 131072)).reverse ++ largeState.log := by
  obtain ⟨-, htotal, hsize⟩ := largeMount_facts
  have hcluster : (fileSlot 2 0xFFFFFFFF).cluster = 2 := by decide +kernel
  have hbytes : (fileSlot 2 0xFFFFFFFF).fileSize = 0xFFFFFFFF := by decide +kernel
  have hfile : largeMount.WellFormedFile (largeMount.view largeState) (fileSlot 2 0xFFFFFFFF)
      (List.range' 2 131072) := by
    refine ⟨by decide +kernel, ⟨?_, Or.inr ?_⟩, ?_⟩
    · intro c hc
      have hbounds := List.mem_range'_1.mp hc
      rw [Mount.InRange, htotal]
      omega
    · rw [hcluster]
      exact largeState_chain 131071 2 (by decide)
    · rw [List.length_range', hbytes, Mount.clustersFor, hsize]
  have hck : Checked largeMount.info := checkDbr_checked (by decide +kernel)
  obtain ⟨r, s', hends, hcase⟩ := readFile_outcome largeMount_sound hck rfl rfl hfile
  rw [hbytes, hsize, if_neg (by decide)] at hcase
  obtain ⟨rfl, -⟩ := hcase
  refine ⟨hfile, ⟨s', hends⟩, ?_⟩
  rintro ⟨s'', hends', -⟩
  have heq := congrArg Prod.fst (hends.unique hends').1
  exact absurd heq (by decide)

end Os003
