import Os003.Fs.View
import Os003.Lib.Chain

set_option autoImplicit false

/-! # Allocating and freeing clusters

What the sector functions do to the abstract volume, when no command fails. `M.At s V A` says
that the state `s` shows the volume `V` and has handed out the clusters `A`; every function of
this layer gets one lemma that leads from such a state to the next one.

`FAT32_AllocCluster` starts at the hint, and the hint may lie outside the volume. The lemma about
it therefore has the hypothesis that the clusters on record after the call are clusters of the
volume; it then follows that the cluster returned was free.
-/

namespace Os003

open Bytes Linked

/-! ## States and volumes -/

/-- No command will fail any more, `V` is the volume of the state, and `A` lists the clusters
handed out so far. -/
structure Mount.At (M : Mount) (s : FsState) (V : Volume) (A : List Nat) : Prop where
  quiet : s.faults = []
  view : M.view s = V
  allocs : s.allocs = A

/-- The second state differs from the first one in the log only. -/
def FsState.Reads (s s' : FsState) : Prop := ∃ log, s' = { s with log := log }

namespace FsState.Reads

variable {s s' s'' : FsState}

theorem refl (s : FsState) : s.Reads s := ⟨s.log, rfl⟩

theorem note (s : FsState) (ev : AtaEvent) : s.Reads (s.note ev) := ⟨_, rfl⟩

theorem trans (h : s.Reads s') (h' : s'.Reads s'') : s.Reads s'' := by
  obtain ⟨log, rfl⟩ := h
  obtain ⟨log', rfl⟩ := h'
  exact ⟨log', rfl⟩

theorem drive (h : s.Reads s') : s'.drive = s.drive := by
  obtain ⟨log, rfl⟩ := h
  rfl

theorem faults (h : s.Reads s') : s'.faults = s.faults := by
  obtain ⟨log, rfl⟩ := h
  rfl

theorem free (h : s.Reads s') : s'.free = s.free := by
  obtain ⟨log, rfl⟩ := h
  rfl

theorem allocs (h : s.Reads s') : s'.allocs = s.allocs := by
  obtain ⟨log, rfl⟩ := h
  rfl

theorem stays {M : Mount} {V : Volume} {A : List Nat} (h : s.Reads s') (hat : M.At s V A) :
    M.At s' V A := by
  obtain ⟨log, rfl⟩ := h
  exact ⟨hat.quiet, hat.view, hat.allocs⟩

end FsState.Reads

/-- Free the clusters of a list. -/
def Volume.clear (V : Volume) (l : List Nat) : Volume :=
  { V with fat := fun c => if c ∈ l then fat32EntryFree else V.fat c }

@[simp] theorem Volume.clear_data (V : Volume) (l : List Nat) : (V.clear l).data = V.data := rfl

theorem Volume.clear_nil (V : Volume) : V.clear [] = V := by
  simp [Volume.clear]

theorem Volume.clear_cons (V : Volume) (c : Nat) (l : List Nat) :
    (V.setFat c fat32EntryFree).clear l = V.clear (c :: l) := by
  have h : ∀ x, (if x ∈ l then fat32EntryFree else Function.update V.fat c fat32EntryFree x) =
      if x ∈ c :: l then fat32EntryFree else V.fat x := by
    intro x
    by_cases hx : x ∈ l
    · rw [if_pos hx, if_pos (List.mem_cons_of_mem _ hx)]
    · by_cases hc : x = c
      · subst hc
        rw [if_neg hx, if_pos List.mem_cons_self, Function.update_self]
      · rw [if_neg hx, if_neg (by simp [hc, hx]), Function.update_of_ne hc]
  simp only [Volume.clear, Volume.setFat, h]

/-- A chain of the table. -/
def Volume.ChainOf (V : Volume) (c : Nat) (l : List Nat) : Prop := Chain V.fat IsEof c l

instance (V : Volume) (c : Nat) (l : List Nat) : Decidable (V.ChainOf c l) :=
  inferInstanceAs (Decidable (Chain V.fat IsEof c l))

section Sound

variable {M : Mount} (hM : M.Sound) {s s' : FsState} {V : Volume} {A : List Nat}
include hM

/-! ## The sector functions on the abstract volume -/

omit hM in
theorem Mount.At.data_length (hat : M.At s V A) {c : Nat} (hc : M.InRange c) :
    (V.data c).length = M.clusterSize := by
  rw [← hat.view]
  exact M.view_data_length s hc

theorem nextCluster_at (hat : M.At s V A) {c : Nat} (hc : M.HasEntry c) :
    ∃ s', fat32NextCluster M c s = some (some (V.fat c), s') ∧ s.Reads s' := by
  have h := fat32NextCluster_run hM hat.quiet hc
  rw [hat.view] at h
  exact ⟨_, h, FsState.Reads.note _ _⟩

theorem readCluster_at (hat : M.At s V A) {c : Nat} (hc : M.InRange c) :
    ∃ s', fat32ReadCluster M c s = some ((0, V.data c), s') ∧ s.Reads s' := by
  have h := fat32ReadCluster_run hM hat.quiet hc
  rw [hat.view] at h
  exact ⟨_, h, FsState.Reads.note _ _⟩

theorem putCluster_at (hat : M.At s V A) {c : Nat} (hc : M.InRange c) {buf : List UInt8}
    (hbuf : buf.length = M.clusterSize) : M.At (M.putCluster s c buf) (V.setData c buf) A := by
  refine ⟨hat.quiet, ?_, hat.allocs⟩
  rw [view_putCluster hM hc hbuf, hat.view]

theorem writeCluster_at (hat : M.At s V A) {c : Nat} (hc : M.InRange c) {buf : List UInt8}
    (hbuf : buf.length = M.clusterSize) :
    ∃ s', fat32WriteCluster M c buf s = some (0, s') ∧ M.At s' (V.setData c buf) A :=
  ⟨_, fat32WriteCluster_run hM hat.quiet hc hbuf, putCluster_at hM hat hc hbuf⟩

theorem putEntry_at (hat : M.At s V A) {c v : Nat} (hc : M.HasEntry c) (hv : v < 2 ^ 28) :
    M.At (M.putEntry s c v) (V.setFat c v) A := by
  obtain ⟨h1, -, h3⟩ := putCopies_frame M c v M.info.numFats 0 s
  refine ⟨h1.trans hat.quiet, ?_, h3.trans hat.allocs⟩
  rw [view_putEntry hM hc hv, hat.view]

theorem writeFatEntry_at (hat : M.At s V A) {c v : Nat} (hc : M.HasEntry c) (hv : v < 2 ^ 28) :
    ∃ s', fat32WriteFatEntry M c v s = some (0, s') ∧ M.At s' (V.setFat c v) A :=
  ⟨_, fat32WriteFatEntry_run hM hat.quiet (hc.lt hM) v, putEntry_at hM hat hc hv⟩

/-! ## Allocation -/

/-- The state after `FAT32_AllocCluster` has found `c` free. -/
def Mount.allocated (M : Mount) (s : FsState) (c : Nat) : FsState :=
  { M.putEntry s c fat32EntryEof with
    free := s.free.take c
    allocs := c :: s.allocs }

theorem allocated_at (hat : M.At s V A) {c : Nat} (hc : M.HasEntry c) :
    M.At (M.allocated s c) (V.setFat c fat32EntryEof) (c :: A) := by
  have h := putEntry_at hM hat hc (v := fat32EntryEof) (by decide)
  refine ⟨h.quiet, h.view, ?_⟩
  rw [Mount.allocated, hat.allocs]

/-- One look of `FAT32_AllocCluster` at the entry of a cluster: what it reads, which for a cluster
of the volume is the entry. -/
theorem allocLoop_look (hat : M.At s V A) {c : Nat} (hc : c < 2 ^ 32) :
    ∃ fatBuf s1, ata (ataRead true (M.fatLba c) 1) s = some ((1, fatBuf), s1) ∧ s.Reads s1 ∧
      (M.HasEntry c →
        readLe32 fatBuf (c * 4 % M.info.bytesPerSector) &&& 0x0FFFFFFF = V.fat c) := by
  have hread := ata_read_run (s := s) hat.quiet (m := true) (n := 1) (hM.fatLba_lt hc)
  refine ⟨_, _, hread, FsState.Reads.note _ _, ?_⟩
  intro he
  -- the same sector as `FAT32_NextCluster` reads
  have hnext := fat32NextCluster_run hM hat.quiet he
  rw [fat32NextCluster, refAsBool, Prog.bind_run hread] at hnext
  simp only [] at hnext
  rw [if_neg (by omega), Prog.pure_run, hat.view] at hnext
  simpa using hnext

/-- The allocation loop on a drive without faults: it finds nothing and changes nothing, or hands
out the number of a cluster whose entry is free, if there is such an entry. -/
theorem allocLoop_shape {start fuel cluster r : Nat} (hat : M.At s V A)
    (hc : 2 ≤ cluster ∧ cluster < 2 ^ 32 - 1)
    (hrun : allocLoop M start fuel cluster s = some (r, s')) :
    (r = 0 ∧ s.Reads s') ∨
      (2 ≤ r ∧ r < 2 ^ 32 - 1 ∧ (M.HasEntry r → V.fat r = fat32EntryFree) ∧
        ∃ s1, s.Reads s1 ∧ s' = M.allocated s1 r) := by
  -- by the entries looked at, each of which is only read until a free one is found
  induction fuel generalizing cluster s with
  | zero => cases hrun
  | succ fuel ih =>
      have hmax := hM.clusters
      have hc32 : cluster < 2 ^ 32 := by omega
      obtain ⟨fatBuf, s1, hread, hr1, hentry⟩ := allocLoop_look hM hat hc32
      have hat1 := hr1.stays hat
      rw [allocLoop, refAsBool, Prog.bind_run hread] at hrun
      simp only [] at hrun
      rw [if_neg (by omega)] at hrun
      by_cases hfree : readLe32 fatBuf (cluster * 4 % M.info.bytesPerSector) &&& 0x0FFFFFFF =
          fat32EntryFree
      · -- the entry is free: what the two writes leave is `M.allocated`
        have hwrite := fat32WriteFatEntry_run hM hat1.quiet hc32 fat32EntryEof
        obtain ⟨-, hframe, hframe'⟩ := putCopies_frame M cluster fat32EntryEof M.info.numFats 0 s1
        have hstate : s' = M.allocated s1 cluster ∧ r = cluster := by
          rw [if_pos hfree, Prog.bind_run hwrite, if_neg (by omega), Prog.modify_bind,
            Prog.pure_run] at hrun
          simp only [Option.some.injEq, Prod.mk.injEq] at hrun
          refine ⟨?_, hrun.1.symm⟩
          rw [← hrun.2, Mount.allocated]
          simp only [Mount.putEntry, FsState.note_free, FsState.note_allocs, hframe, hframe']
        obtain ⟨hs', rfl⟩ := hstate
        refine Or.inr ⟨hc.1, hc.2, ?_, s1, hr1, hs'⟩
        intro hr
        rw [← hentry hr, hfree]
      · rw [if_neg hfree] at hrun
        have htotal : u32 (M.info.totalClusters + 2) = M.info.totalClusters + 2 := by
          rw [u32]
          omega
        simp only [htotal] at hrun
        generalize hn : (if u32 (cluster + 1) ≥ M.info.totalClusters + 2 then 2
          else u32 (cluster + 1)) = next at hrun
        have hnext : 2 ≤ next ∧ next < 2 ^ 32 - 1 := by
          rw [← hn, u32]
          split <;> omega
        by_cases hstart : next ≠ start
        · rw [if_pos hstart] at hrun
          rcases ih hat1 hnext hrun with ⟨h0, h⟩ | ⟨h1, h2, h3, s2, h4, h5⟩
          · exact Or.inl ⟨h0, hr1.trans h⟩
          · exact Or.inr ⟨h1, h2, h3, s2, hr1.trans h4, h5⟩
        · rw [if_neg hstart, Prog.pure_run] at hrun
          simp only [Option.some.injEq, Prod.mk.injEq] at hrun
          obtain ⟨h0, rfl⟩ := hrun
          exact Or.inl ⟨h0.symm, hr1⟩

omit hM in
theorem FreeInfo.start_bounds (f : FreeInfo) : 2 ≤ f.start ∧ f.start < 2 ^ 32 - 1 := by
  have := f.hint_lt
  unfold FreeInfo.start
  split <;> omega

omit hM in
/-- The second search begins behind the cluster that the first one has taken. -/
theorem FreeInfo.start_take (f : FreeInfo) {n : Nat} (hn : 2 ≤ n) (hlt : n < 0xFFFFFFFE) :
    (f.take n).start = n + 1 := by
  have hnext : (f.take n).nextFreeCluster = n + 1 := by
    show u32 (n + 1) = n + 1
    rw [u32]
    omega
  rw [FreeInfo.start, hnext, if_pos (by omega)]

theorem allocCluster_shape {fuel r : Nat} (hat : M.At s V A)
    (hrun : fat32AllocCluster M fuel s = some (r, s')) :
    (r = 0 ∧ s.Reads s') ∨
      (2 ≤ r ∧ r < 2 ^ 32 - 1 ∧ (M.HasEntry r → V.fat r = fat32EntryFree) ∧
        ∃ s1, s.Reads s1 ∧ s' = M.allocated s1 r) := by
  rw [fat32AllocCluster, Prog.get_bind] at hrun
  exact allocLoop_shape hM hat s.free.start_bounds hrun

/-- When the cluster handed out is one of the volume, the record still lists clusters of the volume
only. -/
theorem allocCluster_recorded {fuel r : Nat} (hat : M.At s V A)
    (hrun : fat32AllocCluster M fuel s = some (r, s')) (hr : M.InRange r)
    (hrec : ∀ c ∈ s.allocs, M.InRange c) : ∀ c ∈ s'.allocs, M.InRange c := by
  have h2 := hr.1
  rcases allocCluster_shape hM hat hrun with ⟨h0, -⟩ | ⟨-, -, -, s1, hr1, rfl⟩
  · omega
  · intro c hc
    rcases List.mem_cons.mp hc with rfl | hc
    · exact hr
    · exact hrec c (hr1.allocs ▸ hc)

theorem allocCluster_spec {fuel r : Nat} (hat : M.At s V A)
    (hrun : fat32AllocCluster M fuel s = some (r, s')) (hin : ∀ c ∈ s'.allocs, M.InRange c) :
    (r = 0 ∧ s.Reads s') ∨
      (M.InRange r ∧ V.fat r = fat32EntryFree ∧ ∃ s1, s.Reads s1 ∧ s' = M.allocated s1 r) := by
  rcases allocCluster_shape hM hat hrun with h | ⟨-, -, hfree, s1, hr1, rfl⟩
  · exact Or.inl h
  · -- the record says that the cluster belongs to the volume
    have hr : M.InRange r := hin r List.mem_cons_self
    exact Or.inr ⟨hr, hfree hr.hasEntry, s1, hr1, rfl⟩

/-- `FAT32_AllocCluster` on the abstract volume. -/
theorem allocCluster_at {fuel r : Nat} (hat : M.At s V A)
    (hrun : fat32AllocCluster M fuel s = some (r, s')) (hin : ∀ c ∈ s'.allocs, M.InRange c) :
    (r = 0 ∧ s.Reads s') ∨
      (M.InRange r ∧ V.fat r = fat32EntryFree ∧
        M.At s' (V.setFat r fat32EntryEof) (r :: A)) := by
  rcases allocCluster_spec hM hat hrun hin with h | ⟨hr, hfree, s1, hr1, rfl⟩
  · exact Or.inl h
  · exact Or.inr ⟨hr, hfree, allocated_at hM (hr1.stays hat) hr.hasEntry⟩

/-! ## Freeing a chain -/

omit hM in
/-- Changing the free count leaves the volume alone. -/
theorem release_at (hat : M.At s V A) : M.At { s with free := s.free.release } V A :=
  ⟨hat.quiet, hat.view, hat.allocs⟩

/-- `FAT32_FreeClusterChain` frees the clusters of a chain and nothing else. -/
theorem freeClusterChain_within {c : Nat} {l : List Nat} (hat : M.At s V A)
    (hl : V.ChainOf c l) (hin : ∀ b ∈ l, M.InRange b) :
    ∃ s', M.At s' (V.clear l) A ∧
      Prog.Within l.length (fun fuel => fat32FreeClusterChain M fuel c) s 0 s' := by
  have hmax := hM.clusters
  induction l generalizing c s V with
  | nil =>
      obtain ⟨t, ht⟩ := hl.eq_cons
      cases ht
  | cons b l ih =>
      have hb : b = c := by
        obtain ⟨t, ht⟩ := hl.eq_cons
        exact (List.cons.inj ht).1
      subst hb
      have hbin : M.InRange b := hin b List.mem_cons_self
      obtain ⟨s1, hnext, hr1⟩ := nextCluster_at hM hat hbin.hasEntry
      have hat1 := hr1.stays hat
      obtain ⟨s2, hwrite, hat2⟩ := writeFatEntry_at hM hat1 hbin.hasEntry (v := fat32EntryFree)
        (by decide)
      have hcond : b ≥ 2 ∧ b < fat32EntryEof := by
        have h1 : b < M.info.totalClusters + 2 := hbin.2
        have h2 : fat32EntryEof = 0x0FFFFFF8 := rfl
        have h3 := hbin.1
        omega
      have hat3 := release_at hat2
      -- what one turn of the loop does
      have hturn : ∀ fuel, fat32FreeClusterChain M (fuel + 1) b s =
          if V.fat b ≥ fat32EntryEof then some (0, { s2 with free := s2.free.release })
          else fat32FreeClusterChain M fuel (V.fat b) { s2 with free := s2.free.release } := by
        intro fuel
        rw [fat32FreeClusterChain, if_pos hcond, Prog.bind_run hnext]
        simp only []
        rw [Prog.bind_run hwrite, if_neg (by omega), Prog.modify_bind]
        by_cases heof : V.fat b ≥ fat32EntryEof
        · rw [if_pos heof, if_pos heof, Prog.pure_run]
        · rw [if_neg heof, if_neg heof]
      by_cases hlast : l = []
      · subst hlast
        have heof : V.fat b ≥ fat32EntryEof := Chain.stop_last (p := []) hl
        refine ⟨{ s2 with free := s2.free.release }, ?_, ?_⟩
        · rw [← V.clear_cons, Volume.clear_nil]
          exact hat3
        · refine Prog.Within.stop rfl ?_
          intro fuel
          exact (hturn fuel).trans (if_pos heof)
      · obtain ⟨-, hstop, htail⟩ := hl.of_cons hlast
        have hnodup := List.nodup_cons.mp hl.nodup
        -- the entry just cleared is not looked at again
        have htail' : (V.setFat b fat32EntryFree).ChainOf (V.fat b) l := by
          refine htail.congr ?_
          intro x hx
          rw [Volume.setFat_fat, Function.update_of_ne]
          rintro rfl
          exact hnodup.1 hx
        obtain ⟨s', hat', hw⟩ := ih hat3 htail' (fun x hx => hin x (List.mem_cons_of_mem _ hx))
        refine ⟨s', ?_, ?_⟩
        · rw [V.clear_cons] at hat'
          exact hat'
        · refine Prog.Within.step rfl ?_ hw
          intro fuel
          exact (hturn fuel).trans (if_neg hstop)

end Sound

end Os003
