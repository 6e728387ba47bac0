import Os003.Fs.DriveIsolation
import Os003.Fs.Refusal

set_option autoImplicit false

/-! # Inside the partition

No function of the file system compares a cluster number with the number of clusters: a link of the
table, the start cluster of an entry and the free hint are used as they are. Which sectors a call
writes therefore depends on the numbers it meets.

This file follows these numbers through the seven functions that change a volume, whatever commands
fail on the way. As long as they are numbers of clusters, every sector written lies in the partition.
What carries the proof are sets of clusters closed under the links, one for the directory and one for
the file; the second grows with the allocator and shrinks with the chains that are freed.
-/

namespace Os003

open Bytes Linked

/-! ## Sectors written -/

/-- A command that writes no sector outside `lo`, ..., `hi - 1`. -/
def AtaEvent.Within (lo hi : Nat) : AtaEvent → Prop
  | .write _ lba n => lo ≤ lba ∧ lba + n ≤ hi
  | _ => True

/-- From `s` to `s'` every sector written lies in the partition, on whatever drive, and the others
are unchanged. -/
structure Mount.Contained (M : Mount) (s s' : FsState) : Prop where
  log : ∃ evs, s'.log = evs ++ s.log ∧ ∀ ev ∈ evs,
    ev.Within M.part.startingLba (M.part.startingLba + M.info.totalSectors)
  drive : ∀ m x, ¬ (M.part.startingLba ≤ x / 512 ∧
    x / 512 < M.part.startingLba + M.info.totalSectors) → s'.drive m x = s.drive m x

namespace Mount.Contained

variable {M : Mount} {s t u : FsState}

theorem refl (s : FsState) : M.Contained s s := ⟨⟨[], rfl, by simp⟩, fun _ _ _ => rfl⟩

theorem trans (h : M.Contained s t) (h' : M.Contained t u) : M.Contained s u := by
  obtain ⟨⟨evs, hlog, hevs⟩, hdrive⟩ := h
  obtain ⟨⟨evs', hlog', hevs'⟩, hdrive'⟩ := h'
  refine ⟨⟨evs' ++ evs, ?_, ?_⟩, fun m x hx => (hdrive' m x hx).trans (hdrive m x hx)⟩
  · rw [hlog', hlog, List.append_assoc]
  · intro ev hev
    rcases List.mem_append.mp hev with h | h
    · exact hevs' ev h
    · exact hevs ev h

theorem noted (h : M.Contained s t) (f : FreeInfo) (A : List Nat) :
    M.Contained s { t with free := f, allocs := A } := ⟨h.log, h.drive⟩

end Mount.Contained

/-- A call that has only read. -/
structure Mount.Looked (M : Mount) (s s' : FsState) : Prop where
  contained : M.Contained s s'
  drive : s'.drive = s.drive
  same : s.SameFree s'

namespace Mount.Looked

variable {M : Mount} {s t u : FsState}

theorem refl (s : FsState) : M.Looked s s := ⟨Mount.Contained.refl s, rfl, rfl, rfl⟩

theorem trans (h : M.Looked s t) (h' : M.Looked t u) : M.Looked s u :=
  ⟨h.contained.trans h'.contained, h'.drive.trans h.drive, h.same.trans h'.same⟩

/-- One command that transfers nothing to the drive. -/
theorem command {ch : Channel} {ev : AtaEvent} (hlog : ch.log = ev :: s.log)
    (hev : ev.Within M.part.startingLba (M.part.startingLba + M.info.totalSectors))
    (hdrive : ch.drive = s.drive) : M.Looked s { s with toChannel := ch } := by
  refine ⟨⟨⟨[ev], hlog, by simpa using hev⟩, fun m x _ => ?_⟩, hdrive, rfl, rfl⟩
  show ch.drive m x = _
  rw [hdrive]

theorem raw (h : M.Looked s t) : M.raw t = M.raw s := by
  unfold Mount.raw
  rw [h.drive]

end Mount.Looked

section Commands

variable {M : Mount} {s s' : FsState} {m : Bool} {lba n : Nat}

/-- The codes of a refused command are negative. -/
theorem ataCommand_error {code : Int} (h : ataCommand m lba n = .error code) : code < 0 := by
  unfold ataCommand at h
  split at h
  · split at h
    · cases h
      decide
    · cases h
  · split at h
    · cases h
      decide
    · cases h

theorem ataRead_looked (m : Bool) (lba n : Nat) : Prog.Steps M.Looked (ata (ataRead m lba n)) := by
  intro s a s' h
  obtain ⟨ch, hrun, rfl⟩ := Prog.zoom_eq_some.mp h
  unfold ataRead at hrun
  cases hc : ataCommand m lba n with
  | error code =>
      simp only [hc, Option.some.injEq, Prod.mk.injEq] at hrun
      rw [← hrun.2]
      exact Mount.Looked.refl s
  | ok driveByte =>
      obtain ⟨f, fs, hf⟩ := takeFault_eq s.toChannel
      simp only [hc, hf] at hrun
      cases f with
      | none =>
          simp only [Option.some.injEq, Prod.mk.injEq] at hrun
          rw [← hrun.2]
          exact Mount.Looked.command rfl trivial rfl
      | some f =>
          simp only [Option.some.injEq, Prod.mk.injEq] at hrun
          rw [← hrun.2]
          exact Mount.Looked.command rfl trivial rfl

/-- A read that reports success has returned the bytes of the drive. -/
theorem ataRead_value {r : Int} {buf : List UInt8}
    (hcall : ata (ataRead m lba n) s = some ((r, buf), s')) (hr : 0 ≤ r) :
    buf = readBytes (s.drive m) (512 * lba) (512 * n) := by
  obtain ⟨ch, hrun, rfl⟩ := Prog.zoom_eq_some.mp hcall
  unfold ataRead at hrun
  cases hc : ataCommand m lba n with
  | error code =>
      simp only [hc] at hrun
      cases hrun
      exact absurd hr (not_le.mpr (ataCommand_error hc))
  | ok driveByte =>
      have hsel := ataCommand_selects hc
      obtain ⟨f, fs, hf⟩ := takeFault_eq s.toChannel
      simp only [hc, hf, hsel] at hrun
      cases f with
      | none =>
          simp only [Option.some.injEq, Prod.mk.injEq] at hrun
          exact hrun.1.2.symm
      | some f =>
          simp only [Option.some.injEq, Prod.mk.injEq] at hrun
          rw [← hrun.1.1] at hr
          exact absurd hr (not_le.mpr (Int.negSucc_lt_zero _))

theorem ataFlush_looked (m : Bool) : Prog.Steps M.Looked (ata (ataFlushCache m)) := by
  intro s a s' h
  rw [ata_flush_run] at h
  cases h
  exact Mount.Looked.command rfl trivial rfl

/-- The write of `n` sectors has stored the first `k` of them. -/
structure Mount.Stored (M : Mount) (s : FsState) (m : Bool) (lba n : Nat) (buf : List UInt8)
    (s' : FsState) : Prop where
  contained : M.Contained s s'
  same : s.SameFree s'
  drive : ∃ k, k ≤ n ∧ s'.drive = Function.update s.drive m
    (writeBytes (s.drive m) (512 * lba) (buf.take (512 * k)))

theorem Mount.Stored.intro {buf : List UInt8} {k : Nat} {ch : Channel} {ev : AtaEvent}
    (hlo : M.part.startingLba ≤ lba) (hhi : lba + n ≤ M.part.startingLba + M.info.totalSectors)
    (hk : k ≤ n) (hlog : ch.log = ev :: s.log)
    (hev : ev.Within M.part.startingLba (M.part.startingLba + M.info.totalSectors))
    (hdrive : ch.drive = Function.update s.drive m
      (writeBytes (s.drive m) (512 * lba) (buf.take (512 * k)))) :
    M.Stored s m lba n buf { s with toChannel := ch } := by
  refine ⟨⟨⟨[ev], hlog, by simpa using hev⟩, fun m' x hx => ?_⟩, ⟨rfl, rfl⟩, k, hk, hdrive⟩
  show ch.drive m' x = _
  rw [hdrive]
  by_cases hm : m' = m
  · subst hm
    have hlen : (buf.take (512 * k)).length ≤ 512 * k := List.length_take_le _ _
    rw [Function.update_self, writeBytes, if_neg (by omega)]
  · rw [Function.update_of_ne hm]

theorem ataWrite_stored {buf : List UInt8} {r : Int} (hlo : M.part.startingLba ≤ lba)
    (hhi : lba + n ≤ M.part.startingLba + M.info.totalSectors)
    (hcall : ata (ataWrite m lba n buf) s = some (r, s')) : M.Stored s m lba n buf s' ∧
      (0 ≤ r → s'.drive = Function.update s.drive m
        (writeBytes (s.drive m) (512 * lba) (buf.take (512 * n)))) := by
  obtain ⟨ch, hrun, rfl⟩ := Prog.zoom_eq_some.mp hcall
  unfold ataWrite at hrun
  cases hc : ataCommand m lba n with
  | error code =>
      simp only [hc] at hrun
      cases hrun
      have hcode := ataCommand_error hc
      refine ⟨⟨Mount.Contained.refl s, ⟨rfl, rfl⟩, 0, Nat.zero_le n, ?_⟩, ?_⟩
      · rw [Nat.mul_zero, List.take_zero]
        funext m' x
        by_cases hm : m' = m
        · subst hm
          rw [Function.update_self, writeBytes, if_neg (by simp)]
        · rw [Function.update_of_ne hm]
      · intro h
        omega
  | ok driveByte =>
      have hsel := ataCommand_selects hc
      obtain ⟨f, fs, hf⟩ := takeFault_eq s.toChannel
      simp only [hc, hf, hsel] at hrun
      cases f with
      | none =>
          simp only [Option.some.injEq, Prod.mk.injEq] at hrun
          obtain ⟨rfl, rfl⟩ := hrun
          exact ⟨Mount.Stored.intro hlo hhi (Nat.le_refl n) rfl ⟨hlo, hhi⟩ rfl, fun _ => rfl⟩
      | some f =>
          simp only [Option.some.injEq, Prod.mk.injEq] at hrun
          obtain ⟨rfl, rfl⟩ := hrun
          have hmin := Nat.min_le_right f.done n
          refine ⟨Mount.Stored.intro hlo hhi hmin rfl ⟨hlo, by omega⟩ rfl, ?_⟩
          intro h
          exact absurd h (not_le.mpr (Int.negSucc_lt_zero _))

end Commands

/-! ## The geometry -/

/-- The tables and the clusters lie inside the partition, each cluster has an entry, and the sector
numbers do not go round their 64 bits. -/
structure Mount.Fitted (M : Mount) : Prop where
  bytes : M.info.bytesPerSector = 512
  perCluster : 0 < M.info.sectorsPerCluster
  fats : 1 ≤ M.info.numFats
  layout : M.info.fatRegionLba + M.info.numFats * M.info.sectorsPerFat ≤ M.info.dataRegionLba
  clusters : M.info.dataRegionLba + M.info.totalClusters * M.info.sectorsPerCluster ≤
    M.info.totalSectors
  entries : (M.info.totalClusters + 2) * 4 ≤ M.info.sectorsPerFat * 512
  nonempty : 1 ≤ M.info.totalClusters
  numbers : M.info.totalClusters + 2 ≤ fat32EntryEof
  sectors : M.info.totalSectors < 2 ^ 32
  reserved : 2 ≤ M.info.fatRegionLba
  partition : M.part.startingLba + M.info.totalSectors ≤ 2 ^ 64

/-- The geometry of an image that `FAT32_GetInfo` accepts, with tables that fit the partition. -/
theorem fitted_of_getInfo {disk : AtaDisk} {part : GptPartitionEntry} {ch ch' : Channel}
    {info : Fat32Info} {free : FreeInfo}
    (hget : fat32GetInfo disk part ch = some (some (info, free), ch')) (hfits : Fits info)
    (hfats : 1 ≤ info.numFats) (hsome : 1 ≤ info.totalClusters)
    (hnumbers : info.totalClusters + 2 ≤ fat32EntryEof)
    (hpart : part.startingLba + info.totalSectors ≤ 2 ^ 64) :
    Mount.Fitted ⟨disk, part, info⟩ := by
  obtain ⟨buffer, hdbr, rfl⟩ := getInfo_accepted hget
  have hck := checkDbr_checked hdbr
  obtain ⟨hregion, -⟩ := parseDbr_exact hfits.difference
  exact ⟨hck.bytes, hck.clusterPos, hfats, hregion.ge, hfits.partition, hfits.entries,
    hsome, hnumbers, readLe32_lt buffer 32, hck.reserved, hpart⟩

section Fitted

variable {M : Mount} (hF : M.Fitted) {s s' : FsState} {c v : Nat}
include hF

theorem Mount.Fitted.tabled : M.Tabled := by
  have h1 := hF.layout
  have h2 := hF.clusters
  have h3 := hF.sectors
  exact ⟨hF.bytes, by omega⟩

theorem Mount.Fitted.region_lt : M.info.dataRegionLba < M.info.totalSectors := by
  have h := hF.clusters
  calc M.info.dataRegionLba
      < M.info.dataRegionLba + 1 * 1 := by omega
    _ ≤ M.info.dataRegionLba + M.info.totalClusters * M.info.sectorsPerCluster :=
        Nat.add_le_add_left (Nat.mul_le_mul hF.nonempty hF.perCluster) _
    _ ≤ M.info.totalSectors := h

/-- The sector of an entry, and of the number behind the last one. -/
theorem Mount.Fitted.fatCopyLba_eq {i : Nat} (hi : i < M.info.numFats)
    (hc : c ≤ M.info.totalClusters + 2) : M.fatCopyLba i c =
      M.part.startingLba + M.info.fatRegionLba + i * M.info.sectorsPerFat + c * 4 / 512 := by
  have h1 := Mount.copy_end hF.layout hi
  have h2 := hF.region_lt
  have h3 := hF.partition
  have h4 := hF.entries
  rw [Mount.fatCopyLba, hF.bytes, u64, Nat.mod_eq_of_lt (by omega)]

theorem Mount.Fitted.fatCopyLba_inside {i : Nat} (hi : i < M.info.numFats)
    (hc : c ≤ M.info.totalClusters + 2) : M.part.startingLba ≤ M.fatCopyLba i c ∧
      M.fatCopyLba i c + 1 ≤ M.part.startingLba + M.info.totalSectors := by
  have h1 := Mount.copy_end hF.layout hi
  have h2 := hF.region_lt
  have h4 := hF.entries
  rw [hF.fatCopyLba_eq hi hc]
  omega

theorem Mount.Fitted.cluster_end (hc : M.InRange c) : M.info.dataRegionLba +
    (c - 2) * M.info.sectorsPerCluster + M.info.sectorsPerCluster ≤ M.info.totalSectors := by
  have h1 := hF.clusters
  obtain ⟨h2, h3⟩ := hc
  calc M.info.dataRegionLba + (c - 2) * M.info.sectorsPerCluster + M.info.sectorsPerCluster
      = M.info.dataRegionLba + (c - 2 + 1) * M.info.sectorsPerCluster := by ring
    _ ≤ M.info.dataRegionLba + M.info.totalClusters * M.info.sectorsPerCluster :=
        Nat.add_le_add_left (Nat.mul_le_mul_right _ (by omega)) _
    _ ≤ M.info.totalSectors := h1

theorem Mount.Fitted.clusterLba_eq (hc : M.InRange c) : M.clusterLba c =
    M.part.startingLba + M.info.dataRegionLba + (c - 2) * M.info.sectorsPerCluster := by
  have h1 := hF.cluster_end hc
  have h2 := hF.partition
  have h3 := hF.sectors
  have hpos := hF.perCluster
  obtain ⟨h4, h5⟩ := hc
  have h6 : c - 2 ≤ (c - 2) * M.info.sectorsPerCluster := Nat.le_mul_of_pos_right _ hpos
  have hsub : u32 (c + (2 ^ 32 - 2)) = c - 2 := by
    rw [u32]
    omega
  rw [Mount.clusterLba, fat32ClusterToLba, hsub, u64, u64]
  omega

theorem Mount.Fitted.clusterLba_inside (hc : M.InRange c) :
    M.part.startingLba ≤ M.clusterLba c ∧ M.clusterLba c + M.info.sectorsPerCluster ≤
      M.part.startingLba + M.info.totalSectors := by
  have h := hF.cluster_end hc
  rw [hF.clusterLba_eq hc]
  omega

/-- The link a reader sees for a number is the word of the first copy. -/
theorem Mount.Fitted.raw_fat (s : FsState) (c : Nat) :
    (M.raw s).fat c = M.successor (s.drive true) c := by
  rw [← hF.tabled.readLe32_sector]
  rfl

/-- The word of an entry of the first copy. -/
theorem Mount.Fitted.wordAddr_eq {i : Nat} (hi : i < M.info.numFats)
    (hc : c ≤ M.info.totalClusters + 2) : M.wordAddr i c =
      512 * (M.part.startingLba + M.info.fatRegionLba + i * M.info.sectorsPerFat) + 4 * c := by
  rw [Mount.wordAddr, hF.fatCopyLba_eq hi hc]
  omega

/-- An entry keeps its link when the bytes of its word are kept. -/
theorem Mount.Fitted.raw_fat_congr
    (h : ∀ k, k < 4 → s'.drive true (M.wordAddr 0 c + k) = s.drive true (M.wordAddr 0 c + k)) :
    (M.raw s').fat c = (M.raw s).fat c := by
  rw [hF.raw_fat, hF.raw_fat, Mount.successor, Mount.successor, Mount.copyEntry, Mount.copyEntry]
  congr 2
  apply readBytes_congr
  exact h

end Fitted

/-! ## What a call may change -/

/-- From `s` to `s'` the writes stay in the partition, and only the links of `F` and the contents of
`C` may have changed. -/
structure Mount.Edits (M : Mount) (F C : Set Nat) (s s' : FsState) : Prop where
  contained : M.Contained s s'
  fat : ∀ x, M.HasEntry x → x ∉ F → (M.raw s').fat x = (M.raw s).fat x
  data : ∀ x, M.InRange x → x ∉ C → (M.raw s').data x = (M.raw s).data x

namespace Mount.Edits

variable {M : Mount} {F F' C C' : Set Nat} {s t u : FsState}

theorem trans (h : M.Edits F C s t) (h' : M.Edits F' C' t u) : M.Edits (F ∪ F') (C ∪ C') s u where
  contained := h.contained.trans h'.contained
  fat x hx hn := by
    rw [Set.mem_union, not_or] at hn
    exact (h'.fat x hx hn.2).trans (h.fat x hx hn.1)
  data x hx hn := by
    rw [Set.mem_union, not_or] at hn
    exact (h'.data x hx hn.2).trans (h.data x hx hn.1)

/-- The free count and the record of allocations are no matter. -/
theorem noted (h : M.Edits F C s t) (f : FreeInfo) (A : List Nat) :
    M.Edits F C s { t with free := f, allocs := A } := ⟨h.contained.noted f A, h.fat, h.data⟩

theorem mono (h : M.Edits F C s t) (hF : F ⊆ F') (hC : C ⊆ C') : M.Edits F' C' s t :=
  ⟨h.contained, fun x hx hn => h.fat x hx (fun hm => hn (hF hm)),
    fun x hx hn => h.data x hx (fun hm => hn (hC hm))⟩

end Mount.Edits

theorem Mount.Looked.edits {M : Mount} {s t : FsState} (h : M.Looked s t) (F C : Set Nat) :
    M.Edits F C s t :=
  ⟨h.contained, fun x _ _ => by rw [h.raw], fun x _ _ => by rw [h.raw]⟩

section Sector

variable {M : Mount} {s s' : FsState} {c v : Nat}

theorem nextCluster_looked {o : Option Nat} (hrun : fat32NextCluster M c s = some (o, s')) :
    M.Looked s s' ∧ ∀ n ∈ o, n = (M.raw s).fat c := by
  obtain ⟨⟨r, buf⟩, s1, hread, hrest⟩ := Prog.bind_eq_some.mp hrun
  have hlook := ataRead_looked (M := M) _ _ _ _ _ _ hread
  simp only [] at hrest
  by_cases hr : r < 0
  · rw [if_pos hr, Prog.pure_run] at hrest
    cases hrest
    exact ⟨hlook, fun n hn => by cases hn⟩
  · rw [if_neg hr, Prog.pure_run] at hrest
    cases hrest
    refine ⟨hlook, ?_⟩
    intro n hn
    cases hn
    rw [ataRead_value hread (not_lt.mp hr)]
    rfl

theorem readCluster_looked {st : Nat} {buf : List UInt8}
    (hrun : fat32ReadCluster M c s = some ((st, buf), s')) :
    M.Looked s s' ∧ (st = 0 → buf = (M.raw s).data c) := by
  obtain ⟨⟨r, buf'⟩, s1, hread, hrest⟩ := Prog.bind_eq_some.mp hrun
  have hlook := ataRead_looked (M := M) _ _ _ _ _ _ hread
  simp only [Prog.pure_run, Option.some.injEq, Prod.mk.injEq] at hrest
  obtain ⟨⟨hst, rfl⟩, rfl⟩ := hrest
  refine ⟨hlook, ?_⟩
  intro h0
  have hr : 0 ≤ r := by
    by_contra hneg
    rw [if_pos (not_le.mp hneg)] at hst
    omega
  exact ataRead_value hread hr

variable (hF : M.Fitted)
include hF

theorem writeCluster_edits {st : Nat} {buf : List UInt8} (hc : M.InRange c)
    (hrun : fat32WriteCluster M c buf s = some (st, s')) :
    M.Edits ∅ {c} s s' ∧ s.SameFree s' := by
  obtain ⟨hlo, hhi⟩ := hF.clusterLba_inside hc
  obtain ⟨r, s1, hwrite, hrest⟩ := Prog.bind_eq_some.mp hrun
  obtain ⟨⟨hcont, hsame, k, hk, hdrive⟩, -⟩ := ataWrite_stored hlo hhi hwrite
  have hlen : (buf.take (512 * k)).length ≤ 512 * M.info.sectorsPerCluster :=
    (List.length_take_le _ _).trans (by omega)
  have hedits : M.Edits ∅ {c} s s1 := by
    refine ⟨hcont, ?_, ?_⟩
    · -- a table entry lies before the data
      intro x hx _
      apply hF.raw_fat_congr
      intro j hj
      have hxe : x ≤ M.info.totalClusters + 2 := le_of_lt hx
      have hend := Mount.copy_end hF.layout (i := 0) hF.fats
      have hentries := hF.entries
      have hword := hF.wordAddr_eq (i := 0) hF.fats hxe
      have hlba := hF.clusterLba_eq hc
      have hxt : x < M.info.totalClusters + 2 := hx
      rw [hdrive]
      cases hm : M.disk.isMaster with
      | false => rw [Function.update_of_ne (by decide)]
      | true => rw [Function.update_self, writeBytes_of_lt _ _ _ _ (by omega)]
    · -- clusters do not overlap
      intro x hx hne
      have hxc : x ≠ c := hne
      show readBytes (s1.drive M.disk.isMaster) _ _ = readBytes (s.drive M.disk.isMaster) _ _
      rw [hdrive, Function.update_self]
      apply readBytes_congr
      intro j hj
      have hapart : ∀ a b, M.InRange a → M.InRange b → a < b →
          M.clusterLba a + M.info.sectorsPerCluster ≤ M.clusterLba b := by
        intro a b ha hb hab
        rw [hF.clusterLba_eq ha, hF.clusterLba_eq hb]
        have h2 := ha.1
        have hmul : (a - 2 + 1) * M.info.sectorsPerCluster ≤
            (b - 2) * M.info.sectorsPerCluster := Nat.mul_le_mul_right _ (by omega)
        rw [Nat.add_mul, Nat.one_mul] at hmul
        omega
      rcases Nat.lt_or_gt_of_ne hxc with hlt | hlt
      · have := hapart x c hx hc hlt
        exact writeBytes_of_lt _ _ _ _ (by omega)
      · have := hapart c x hc hx hlt
        exact writeBytes_of_ge _ _ _ _ (by omega)
  -- the flush behind a write that went well changes nothing
  by_cases hr : r < 0
  · rw [if_pos hr, Prog.pure_run] at hrest
    cases hrest
    exact ⟨hedits, hsame⟩
  · rw [if_neg hr] at hrest
    obtain ⟨u, s2, hflush, hrest⟩ := Prog.bind_eq_some.mp hrest
    have hlook := ataFlush_looked (M := M) _ _ _ _ hflush
    rw [Prog.pure_run] at hrest
    cases hrest
    refine ⟨(hedits.trans (hlook.edits ∅ ∅)).mono (by simp) (by simp), hsame.trans hlook.same⟩

/-- One word stored, or not, in a copy of the table. -/
structure Mount.WordWrite (M : Mount) (c v : Nat) (s s' : FsState) : Prop where
  contained : M.Contained s s'
  same : s.SameFree s'
  others : ∀ x, M.HasEntry x → x ≠ c → (M.raw s').fat x = (M.raw s).fat x
  own : M.HasEntry c → (M.raw s').fat c = (M.raw s).fat c ∨ (M.raw s').fat c = v % 2 ^ 28
  data : M.HasEntry c → ∀ x, M.InRange x → (M.raw s').data x = (M.raw s).data x

omit hF in
theorem Mount.WordWrite.trans {t : FsState} (h : M.WordWrite c v s t) (h' : M.WordWrite c v t s') :
    M.WordWrite c v s s' where
  contained := h.contained.trans h'.contained
  same := h.same.trans h'.same
  others x hx hne := (h'.others x hx hne).trans (h.others x hx hne)
  own hc := by
    rcases h'.own hc with h1 | h1
    · rcases h.own hc with h2 | h2
      · exact Or.inl (h1.trans h2)
      · exact Or.inr (h1.trans h2)
    · exact Or.inr h1
  data hc x hx := (h'.data hc x hx).trans (h.data hc x hx)

omit hF in
theorem Mount.Looked.wordWrite (h : M.Looked s s') (c v : Nat) : M.WordWrite c v s s' :=
  ⟨h.contained, h.same, fun x _ _ => by rw [h.raw], fun _ => Or.inl (by rw [h.raw]),
    fun _ x _ => by rw [h.raw]⟩

/-- A sector of a copy goes back with one word changed. -/
theorem word_stored {i : Nat} (hi : i < M.info.numFats) (hc : c ≤ M.info.totalClusters + 2)
    {t : FsState} (hst : M.Stored s true (M.fatCopyLba i c) 1
      (writeLe32 (readBytes (s.drive true) (512 * M.fatCopyLba i c) (512 * 1))
        (c * 4 % M.info.bytesPerSector) v) t) :
    M.WordWrite c v s t ∧
      (t.drive = Function.update s.drive true
        (writeBytes (s.drive true) (M.wordAddr i c) (le32 v)) ∨ t.drive = s.drive) := by
  obtain ⟨hcont, hsame, k, hk, hdrive⟩ := hst
  have hlen : (writeLe32 (readBytes (s.drive true) (512 * M.fatCopyLba i c) (512 * 1))
      (c * 4 % M.info.bytesPerSector) v).length = 512 * 1 := by
    rw [writeLe32, hF.bytes, splice_length _ _ _ (by simp; omega), readBytes_length]
  -- one sector is stored: all of it or, behind a failing command, nothing
  have hcases : t.drive = Function.update s.drive true
      (writeBytes (s.drive true) (M.wordAddr i c) (le32 v)) ∨ t.drive = s.drive := by
    obtain rfl | rfl : k = 0 ∨ k = 1 := by omega
    · right
      rw [hdrive, Nat.mul_zero, List.take_zero]
      funext m x
      cases m with
      | false => rw [Function.update_of_ne (by decide)]
      | true => rw [Function.update_self, writeBytes, if_neg (by simp)]
    · left
      rw [hdrive, List.take_of_length_le (by omega), writeLe32,
        writeBytes_splice _ _ _ _ _ (by rw [hF.bytes]; simp; omega), hF.tabled.wordAddr_eq]
  refine ⟨⟨hcont, hsame, ?_, ?_, ?_⟩, hcases⟩
  · -- another entry of the first copy
    intro x hx hne
    apply hF.raw_fat_congr
    intro j hj
    rcases hcases with h | h
    · have hxt : x < M.info.totalClusters + 2 := hx
      have hw := hF.wordAddr_eq hi hc
      have hwx := hF.wordAddr_eq (i := 0) (c := x) hF.fats (by omega)
      have hentries := hF.entries
      rw [h, Function.update_self, writeBytes, le32_length]
      rcases Nat.eq_zero_or_pos i with rfl | hpos
      · rw [if_neg (by omega)]
      · have : 1 * M.info.sectorsPerFat ≤ i * M.info.sectorsPerFat := Nat.mul_le_mul_right _ hpos
        rw [if_neg (by omega)]
    · rw [h]
  · -- the entry of this word, if it is one: new in the first copy, untouched by the others
    intro he
    rcases hcases with h | h
    · have hw := hF.wordAddr_eq hi hc
      have hw0 := hF.wordAddr_eq (i := 0) (c := c) hF.fats hc
      rcases Nat.eq_zero_or_pos i with rfl | hpos
      · right
        have hread := readBytes_writeBytes (s.drive true) (M.wordAddr 0 c) (le32 v)
        rw [le32_length] at hread
        rw [hF.raw_fat, Mount.successor, Mount.copyEntry, h, Function.update_self, hread,
          readLe32_le32]
        omega
      · left
        apply hF.raw_fat_congr
        intro j hj
        have hct : c < M.info.totalClusters + 2 := he
        have hentries := hF.entries
        have : 1 * M.info.sectorsPerFat ≤ i * M.info.sectorsPerFat := Nat.mul_le_mul_right _ hpos
        rw [h, Function.update_self, writeBytes, le32_length, if_neg (by omega)]
    · left
      rw [hF.raw_fat, hF.raw_fat, h]
  · -- the clusters lie behind the table
    intro he x hx
    show readBytes (t.drive M.disk.isMaster) _ _ = readBytes (s.drive M.disk.isMaster) _ _
    apply readBytes_congr
    intro j hj
    rcases hcases with h | h
    · have hct : c < M.info.totalClusters + 2 := he
      have hw := hF.wordAddr_eq hi hc
      have hentries := hF.entries
      have hend := Mount.copy_end hF.layout hi
      have hlba := hF.clusterLba_eq hx
      rw [h]
      cases hm : M.disk.isMaster with
      | false => rw [Function.update_of_ne (by decide)]
      | true => rw [Function.update_self, writeBytes, le32_length, if_neg (by omega)]
    · rw [h]

/-- The word in the first copy is the link. -/
theorem word_value {t : FsState}
    (h : t.drive = Function.update s.drive true
      (writeBytes (s.drive true) (M.wordAddr 0 c) (le32 v))) : (M.raw t).fat c = v % 2 ^ 28 := by
  have hread := readBytes_writeBytes (s.drive true) (M.wordAddr 0 c) (le32 v)
  rw [le32_length] at hread
  rw [hF.raw_fat, Mount.successor, Mount.copyEntry, h, Function.update_self, hread, readLe32_le32]
  omega

theorem writeFatCopies_words {n i st : Nat} (hi : i + n ≤ M.info.numFats)
    (hc : c ≤ M.info.totalClusters + 2)
    (hrun : writeFatCopies M c v n i s = some (st, s')) : M.WordWrite c v s s' ∧
      (st = 0 → i = 0 → 0 < n → M.HasEntry c → (M.raw s').fat c = v % 2 ^ 28) := by
  induction n generalizing i s with
  | zero =>
      rw [writeFatCopies, Prog.pure_run] at hrun
      cases hrun
      exact ⟨(Mount.Looked.refl _).wordWrite c v, fun _ _ h => absurd h (Nat.lt_irrefl 0)⟩
  | succ n ih =>
      obtain ⟨hlo, hhi⟩ := hF.fatCopyLba_inside (i := i) (by omega) hc
      rw [writeFatCopies] at hrun
      obtain ⟨⟨r, buf⟩, s1, hread, hrest⟩ := Prog.bind_eq_some.mp hrun
      have hlook := (ataRead_looked (M := M) _ _ _ _ _ _ hread).wordWrite c v
      have hdrive1 := (ataRead_looked (M := M) _ _ _ _ _ _ hread).drive
      simp only [] at hrest
      by_cases hr : r < 0
      · rw [if_pos hr, Prog.pure_run] at hrest
        cases hrest
        exact ⟨hlook, fun h => absurd h (by decide)⟩
      · rw [if_neg hr] at hrest
        obtain ⟨r', s2, hwrite, hrest⟩ := Prog.bind_eq_some.mp hrest
        have hbuf := ataRead_value hread (not_lt.mp hr)
        rw [refAsBool, ← hdrive1] at hbuf
        rw [hbuf] at hwrite
        obtain ⟨hst, hfull⟩ := ataWrite_stored hlo hhi hwrite
        obtain ⟨hword, hcases⟩ := word_stored hF (by omega) hc hst
        by_cases hr' : r' < 0
        · rw [if_pos hr', Prog.pure_run] at hrest
          cases hrest
          exact ⟨hlook.trans hword, fun h => absurd h (by decide)⟩
        · rw [if_neg hr'] at hrest
          obtain ⟨hwords, -⟩ := ih (by omega) hrest
          refine ⟨(hlook.trans hword).trans hwords, ?_⟩
          rintro - rfl - he
          -- the first copy holds the word, and the later ones do not disturb it
          have hlen : (writeLe32 (readBytes (s1.drive true) (512 * M.fatCopyLba 0 c) (512 * 1))
              (c * 4 % M.info.bytesPerSector) v).length = 512 * 1 := by
            rw [writeLe32, hF.bytes, splice_length _ _ _ (by simp; omega), readBytes_length]
          have hvalue : (M.raw s2).fat c = v % 2 ^ 28 := by
            apply word_value hF (s := s1)
            rw [hfull (not_lt.mp hr'), refAsBool, List.take_of_length_le (by omega), writeLe32,
              writeBytes_splice _ _ _ _ _ (by rw [hF.bytes]; simp; omega), hF.tabled.wordAddr_eq]
          rcases hwords.own he with h | h
          · exact h.trans hvalue
          · exact h

theorem writeFatEntry_words {st : Nat} (hc : c ≤ M.info.totalClusters + 2)
    (hrun : fat32WriteFatEntry M c v s = some (st, s')) : M.WordWrite c v s s' ∧
      (st = 0 → M.HasEntry c → (M.raw s').fat c = v % 2 ^ 28) := by
  obtain ⟨st', s1, hcopies, hrest⟩ := Prog.bind_eq_some.mp hrun
  obtain ⟨hwords, hvalue⟩ := writeFatCopies_words hF (by omega) hc hcopies
  by_cases hst : st' = 0
  · rw [if_neg (not_not.mpr hst)] at hrest
    obtain ⟨u, s2, hflush, hrest⟩ := Prog.bind_eq_some.mp hrest
    have hlook := ataFlush_looked (M := M) _ _ _ _ hflush
    rw [Prog.pure_run] at hrest
    cases hrest
    refine ⟨hwords.trans (hlook.wordWrite c v), fun _ he => ?_⟩
    rw [hlook.raw]
    exact hvalue hst rfl hF.fats he
  · rw [if_pos hst, Prog.pure_run] at hrest
    cases hrest
    exact ⟨hwords, fun h => absurd h hst⟩

omit hF in
theorem Mount.WordWrite.edits (h : M.WordWrite c v s s') (hc : M.HasEntry c) :
    M.Edits {c} ∅ s s' :=
  ⟨h.contained, fun x hx hn => h.others x hx hn, fun x hx _ => h.data hc x hx⟩

end Sector

/-! ## The allocator -/

/-- The search for a free cluster has returned `r`. -/
structure Mount.HandsOut (M : Mount) (s : FsState) (r : Nat) (s' : FsState) : Prop where
  contained : M.Contained s s'
  kept : ∀ x, M.HasEntry x → (M.raw s).fat x ≠ fat32EntryFree →
    (M.raw s').fat x = (M.raw s).fat x
  hint : s'.free.start ≤ M.info.totalClusters + 2
  inRange : r ≠ 0 → M.InRange r
  free : r ≠ 0 → (M.raw s).fat r = fat32EntryFree
  last : r ≠ 0 → IsEof ((M.raw s').fat r)
  data : r ≠ 0 → ∀ x, M.InRange x → (M.raw s').data x = (M.raw s).data x

section Alloc

variable {M : Mount} (hF : M.Fitted) {s s' : FsState}
include hF

theorem Mount.Fitted.total_lt : M.info.totalClusters + 2 < 2 ^ 32 := by
  have h1 := hF.clusters
  have h2 := hF.sectors
  have h3 := hF.layout
  have h4 := hF.reserved
  have h5 : M.info.totalClusters ≤ M.info.totalClusters * M.info.sectorsPerCluster :=
    Nat.le_mul_of_pos_right _ hF.perCluster
  have h6 : 1 * 1 ≤ M.info.numFats * M.info.sectorsPerFat := by
    refine Nat.mul_le_mul hF.fats ?_
    have := hF.entries
    omega
  omega

omit hF in
/-- A search that gives up has touched no link in use. -/
theorem Mount.Looked.handsOut (h : M.Looked s s')
    (hhint : s.free.start ≤ M.info.totalClusters + 2) : M.HandsOut s 0 s' where
  contained := h.contained
  kept x _ _ := by rw [h.raw]
  hint := by rw [h.same.1]; exact hhint
  inRange h0 := absurd rfl h0
  free h0 := absurd rfl h0
  last h0 := absurd rfl h0
  data h0 := absurd rfl h0

omit hF in
theorem Mount.Looked.handsOut_trans {r : Nat} {t : FsState} (h : M.Looked s t)
    (h' : M.HandsOut t r s') : M.HandsOut s r s' where
  contained := h.contained.trans h'.contained
  kept x hx hn := by
    have hk := h'.kept x hx
    rw [h.raw] at hk
    exact hk hn
  hint := h'.hint
  inRange := h'.inRange
  free h0 := by rw [← h.raw]; exact h'.free h0
  last := h'.last
  data h0 x hx := by
    have hd := h'.data h0 x hx
    rw [h.raw] at hd
    exact hd

theorem allocLoop_handsOut {start fuel c r : Nat} (hc : c ≤ M.info.totalClusters + 2)
    (hhint : s.free.start ≤ M.info.totalClusters + 2)
    (hrun : allocLoop M start fuel c s = some (r, s')) (halloc : ∀ x ∈ s'.allocs, M.InRange x) :
    M.HandsOut s r s' := by
  have htotal := hF.total_lt
  -- by the entries still to look at; each turn reads one word of the first copy
  induction fuel generalizing c s with
  | zero => cases hrun
  | succ fuel ih =>
      rw [allocLoop] at hrun
      obtain ⟨⟨b, buf⟩, s1, hread, hrest⟩ := Prog.bind_eq_some.mp hrun
      have hlook := ataRead_looked (M := M) _ _ _ _ _ _ hread
      simp only [] at hrest
      by_cases hb : b < 0
      · rw [if_pos hb, Prog.pure_run] at hrest
        cases hrest
        exact hlook.handsOut hhint
      · rw [if_neg hb] at hrest
        have hentry : readLe32 buf (c * 4 % M.info.bytesPerSector) &&& 0x0FFFFFFF =
            (M.raw s).fat c := by
          rw [ataRead_value hread (not_lt.mp hb)]
          rfl
        have hhint1 : s1.free.start ≤ M.info.totalClusters + 2 := by
          rw [hlook.same.1]
          exact hhint
        rw [hentry] at hrest
        by_cases hfree : (M.raw s).fat c = fat32EntryFree
        · rw [if_pos hfree] at hrest
          obtain ⟨st, s2, hwrite, hrest⟩ := Prog.bind_eq_some.mp hrest
          obtain ⟨hword, hvalue⟩ := writeFatEntry_words hF hc hwrite
          have hkept : ∀ x, M.HasEntry x → (M.raw s1).fat x ≠ fat32EntryFree →
              (M.raw s2).fat x = (M.raw s1).fat x := by
            intro x hx hn
            refine hword.others x hx ?_
            rintro rfl
            rw [hlook.raw] at hn
            exact hn hfree
          -- a free entry: its mark is stored, and only after that the hint moves on
          refine hlook.handsOut_trans ?_
          by_cases hst : st = 0
          · rw [if_neg (not_not.mpr hst), Prog.modify_bind, Prog.pure_run] at hrest
            cases hrest
            have hin := halloc _ List.mem_cons_self
            have hct := hin.2
            refine ⟨hword.contained.noted _ _, hkept, ?_, fun _ => hin, fun _ => ?_, fun _ => ?_,
              fun _ x hx => hword.data hin.hasEntry x hx⟩
            · show (s2.free.take r).start ≤ _
              have hu : u32 (r + 1) = r + 1 := by
                rw [u32]
                omega
              rw [FreeInfo.start]
              show (if u32 (r + 1) ≠ 0xFFFFFFFF ∧ u32 (r + 1) ≥ 2 then u32 (r + 1) else 2) ≤ _
              rw [hu]
              split <;> omega
            · rw [hlook.raw]
              exact hfree
            · show IsEof ((M.raw s2).fat r)
              rw [hvalue hst hin.hasEntry]
              decide
          · rw [if_pos hst, Prog.pure_run] at hrest
            cases hrest
            refine ⟨hword.contained, hkept, ?_, fun h => absurd rfl h, fun h => absurd rfl h,
              fun h => absurd rfl h, fun h => absurd rfl h⟩
            rw [hword.same.1]
            exact hhint1
        · -- in use: on to the next number, the last one of the volume wrapping around to 2
          rw [if_neg hfree] at hrest
          by_cases hstart : (if u32 (c + 1) ≥ u32 (M.info.totalClusters + 2) then 2
              else u32 (c + 1)) ≠ start
          · rw [if_pos hstart] at hrest
            refine hlook.handsOut_trans (ih ?_ hhint1 hrest)
            rw [u32, u32]
            split <;> omega
          · rw [if_neg hstart, Prog.pure_run] at hrest
            cases hrest
            exact hlook.handsOut hhint

theorem allocCluster_handsOut {fuel r : Nat} (hhint : s.free.start ≤ M.info.totalClusters + 2)
    (hrun : fat32AllocCluster M fuel s = some (r, s')) (halloc : ∀ x ∈ s'.allocs, M.InRange x) :
    M.HandsOut s r s' := by
  rw [fat32AllocCluster, Prog.get_bind] at hrun
  exact allocLoop_handsOut hF hhint hhint hrun halloc

/-! ## Freeing -/

/-- The links of `T` lead to `T`, to an end mark or to a free entry. -/
def Mount.Loose (M : Mount) (s : FsState) (T : Set Nat) : Prop :=
  ∀ x ∈ T, M.InRange x ∧ ((M.raw s).fat x ∈ T ∨ IsEof ((M.raw s).fat x) ∨
    (M.raw s).fat x = fat32EntryFree)

theorem freeChain_edits {fuel c r : Nat} {T : Set Nat} (hT : M.Loose s T)
    (hc : c ∈ T ∨ IsEof c ∨ c = fat32EntryFree)
    (hrun : fat32FreeClusterChain M fuel c s = some (r, s')) :
    M.Edits T ∅ s s' ∧ s'.free.nextFreeCluster = s.free.nextFreeCluster ∧
      s'.allocs = s.allocs := by
  -- by the clusters still to free; `T` is closed under the table, and stays so when an entry clears
  induction fuel generalizing c s with
  | zero => cases hrun
  | succ fuel ih =>
      rw [fat32FreeClusterChain] at hrun
      by_cases hgo : c ≥ 2 ∧ c < fat32EntryEof
      · rw [if_pos hgo] at hrun
        have hcT : c ∈ T := by
          rcases hc with h | h | h
          · exact h
          · exact absurd hgo.2 (not_lt.mpr h)
          · rw [h] at hgo
            exact absurd hgo.1 (by decide)
        have hin := (hT c hcT).1
        have hce : c ≤ M.info.totalClusters + 2 := le_of_lt hin.2
        obtain ⟨o, s1, hnext, hrest⟩ := Prog.bind_eq_some.mp hrun
        obtain ⟨hlook, hval⟩ := nextCluster_looked hnext
        cases o with
        | none =>
            simp only [Prog.pure_run] at hrest
            cases hrest
            exact ⟨hlook.edits T ∅, by rw [hlook.same.1], hlook.same.2⟩
        | some next =>
            have hnextval := hval next rfl
            simp only [] at hrest
            obtain ⟨st, s2, hwrite, hrest⟩ := Prog.bind_eq_some.mp hrest
            obtain ⟨hword, -⟩ := writeFatEntry_words hF hce hwrite
            have hedits : M.Edits T ∅ s s2 :=
              ((hlook.edits ∅ ∅).trans (hword.edits hin.hasEntry)).mono
                (by simpa using hcT) (by simp)
            have hsame := hlook.same.trans hword.same
            by_cases hst : st = 0
            · rw [if_neg (not_not.mpr hst), Prog.modify_bind] at hrest
              -- the entry of `c` holds what it held, or the 0 that was stored
              have hloose : M.Loose { s2 with free := s2.free.release } T := by
                intro x hx
                refine ⟨(hT x hx).1, ?_⟩
                show (M.raw s2).fat x ∈ T ∨ IsEof ((M.raw s2).fat x) ∨
                  (M.raw s2).fat x = fat32EntryFree
                by_cases hxc : x = c
                · subst hxc
                  rcases hword.own hin.hasEntry with h | h
                  · rw [h, hlook.raw]
                    exact (hT x hx).2
                  · exact Or.inr (Or.inr h)
                · rw [hword.others x (hT x hx).1.hasEntry hxc, hlook.raw]
                  exact (hT x hx).2
              by_cases heof : next ≥ fat32EntryEof
              · rw [if_pos heof, Prog.pure_run] at hrest
                cases hrest
                refine ⟨hedits.noted _ _, ?_, hsame.2⟩
                show s2.free.nextFreeCluster = _
                rw [hsame.1]
              · rw [if_neg heof] at hrest
                have hnext' : next ∈ T ∨ IsEof next ∨ next = fat32EntryFree := by
                  rw [hnextval]
                  exact (hT c hcT).2
                obtain ⟨hrestE, hhint, hallocs⟩ := ih hloose hnext' hrest
                refine ⟨((hedits.noted _ _).trans hrestE).mono (by simp) (by simp), ?_, hallocs.trans hsame.2⟩
                rw [hhint]
                show s2.free.nextFreeCluster = _
                rw [hsame.1]
            · rw [if_pos hst, Prog.pure_run] at hrest
              cases hrest
              exact ⟨hedits, by rw [hsame.1], hsame.2⟩
      · rw [if_neg hgo, Prog.pure_run] at hrun
        cases hrun
        exact ⟨(Mount.Looked.refl _).edits T ∅, rfl, rfl⟩

end Alloc

theorem smallMount_fitted (disk : AtaDisk) : (smallMount disk).Fitted where
  bytes := rfl
  perCluster := by simp [smallMount]
  fats := by simp [smallMount]
  layout := by simp [smallMount]
  clusters := by simp [smallMount]
  entries := by simp [smallMount]
  nonempty := by simp [smallMount]
  numbers := by simp [smallMount, fat32EntryEof]
  sectors := by simp [smallMount]
  reserved := by simp [smallMount]
  partition := by simp [smallMount]

end Os003
