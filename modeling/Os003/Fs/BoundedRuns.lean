import Os003.Fs.Sealed
import Os003.Fs.Append

set_option autoImplicit false

/-! # Runs with numbers in bounds

Every call of the file system, under any pattern of failing commands and on a volume that may be
corrupted, writes in its partition only, as long as the numbers it is given and those it meets are
numbers of clusters. The directory lies in a closed set `D` that never changes, the file in a closed
set `T` that grows with the allocator; as they have no cluster in common, what happens to one of them
leaves the other one alone.

The case left out is the growth of a full directory, where `addSlots` uses the end mark it has read
as the number of a cluster.
-/

namespace Os003

open Bytes Linked

/-! ## Growing the file -/

/-- The directory lies in `D`, the file in `T`, and the search for a free cluster begins at most one
number behind the last cluster. -/
structure Mount.Beside (M : Mount) (D T : Set Nat) (s : FsState) : Prop where
  dir : M.Sealed s D
  file : M.Sealed s T
  disjoint : Disjoint D T
  hint : s.free.start ≤ M.info.totalClusters + 2

namespace Mount.Beside

variable {M : Mount} {D T : Set Nat} {s s' : FsState} {c r : Nat}

theorem looked (h : M.Beside D T s) (h' : M.Looked s s') : M.Beside D T s' :=
  ⟨h.dir.looked h', h.file.looked h', h.disjoint, by rw [h'.same.1]; exact h.hint⟩

/-- The contents of clusters are no matter. -/
theorem edits {C : Set Nat} (h : M.Beside D T s) (h' : M.Edits ∅ C s s') (hs : s.SameFree s') :
    M.Beside D T s' :=
  ⟨h.dir.edits h' (Set.disjoint_empty D), h.file.edits h' (Set.disjoint_empty T), h.disjoint,
    by rw [hs.1]; exact h.hint⟩

/-- A search for a free cluster, with or without success. -/
theorem searched (h : M.Beside D T s) (h' : M.HandsOut s r s') : M.Beside D T s' :=
  ⟨h.dir.handsOut h', h.file.handsOut h', h.disjoint, h'.hint⟩

/-- The cluster handed out joins the file. -/
theorem handsOut (h : M.Beside D T s) (h' : M.HandsOut s r s') (hr : r ≠ 0) :
    M.Beside D (insert r T) s' where
  dir := h.dir.handsOut h'
  file := h.file.handsOut_insert h' hr
  disjoint := Set.disjoint_insert_right.mpr ⟨h.dir.not_mem h' hr, h.disjoint⟩
  hint := h'.hint

/-- One cluster of the file is linked to another, or not. -/
theorem link (hF : M.Fitted) (h : M.Beside D T s) (hc : c ∈ T) (hr : r ∈ T)
    (h' : M.WordWrite c r s s') : M.Beside D T s' where
  dir := h.dir.congr (fun x hx => h'.others x (h.dir.inRange x hx).hasEntry
    (fun hxc => Set.disjoint_left.mp h.disjoint hx (hxc ▸ hc)))
  file := by
    refine h.file.wordWrite h' (Or.inl ?_)
    have hlt := (h.file.inRange r hr).2
    have hnumbers := hF.numbers
    have hsmall : r < 2 ^ 28 := by
      unfold fat32EntryEof at hnumbers
      omega
    rw [Nat.mod_eq_of_lt hsmall]
    exact hr
  disjoint := h.disjoint
  hint := by rw [h'.same.1]; exact h.hint

end Mount.Beside

section File

variable {M : Mount} (hF : M.Fitted) {s s' : FsState} {D T : Set Nat} {d c fuel : Nat}
include hF

/-- Part of a cluster, or the whole of it, is written. -/
theorem writeChunk_edits {offset n st : Nat} {src : List UInt8} (hc : M.InRange c)
    (hrun : writeChunk M c offset n src s = some (st, s')) :
    M.Edits ∅ {c} s s' ∧ s.SameFree s' := by
  rw [writeChunk] at hrun
  by_cases hpart : offset > 0 ∨ n < M.clusterSize
  · rw [if_pos hpart] at hrun
    obtain ⟨⟨st', tmp⟩, s1, hread, hrest⟩ := Prog.bind_eq_some.mp hrun
    have hlook := (readCluster_looked hread).1
    obtain ⟨hedits, hsame⟩ := writeCluster_edits hF hc hrest
    exact ⟨((hlook.edits ∅ ∅).trans hedits).mono (by simp) (by simp), hlook.same.trans hsame⟩
  · rw [if_neg hpart] at hrun
    exact writeCluster_edits hF hc hrun

/-- A free cluster is found and linked behind a cluster of the file, or the write of the link
fails. -/
theorem linkNew {r st : Nat} {s1 : FsState} (h : M.Beside D T s) (hc : c ∈ T)
    (hfound : fat32AllocCluster M fuel s = some (r, s1)) (hr : r ≠ 0)
    (hwrite : fat32WriteFatEntry M c r s1 = some (st, s')) (halloc : ∀ x ∈ s1.allocs, M.InRange x) :
    M.Contained s s' ∧ M.Beside D (insert r T) s' := by
  have hout := allocCluster_handsOut hF h.hint hfound halloc
  have h1 := h.handsOut hout hr
  have hcle : c ≤ M.info.totalClusters + 2 := le_of_lt (h.file.inRange c hc).2
  obtain ⟨hword, -⟩ := writeFatEntry_words hF hcle hwrite
  exact ⟨hout.contained.trans hword.contained,
    h1.link hF (Set.mem_insert_of_mem r hc) (Set.mem_insert r T) hword⟩

omit hF in
/-- A run that writes in the partition only and ends with the file in some larger set, of which `Q`
holds. -/
def Mount.Confined (M : Mount) (D T : Set Nat) (s s' : FsState) (Q : Set Nat → Prop) : Prop :=
  M.Contained s s' ∧ ∃ T', T ⊆ T' ∧ M.Beside D T' s' ∧ Q T'

omit hF in
theorem Mount.Confined.stay {Q : Set Nat → Prop} (h : M.Contained s s') (h' : M.Beside D T s')
    (hQ : Q T) : M.Confined D T s s' Q := ⟨h, T, subset_rfl, h', hQ⟩

omit hF in
theorem Mount.Confined.after {Q Q' : Set Nat → Prop} {t : FsState} {T' : Set Nat}
    (h : M.Contained s t) (hT : T ⊆ T') (h' : M.Confined D T' t s' Q)
    (hQ : ∀ T'', T' ⊆ T'' → Q T'' → Q' T'') : M.Confined D T s s' Q' := by
  obtain ⟨hcont, T'', hsub, hbeside, hq⟩ := h'
  exact ⟨h.trans hcont, T'', hT.trans hsub, hbeside, hQ T'' hsub hq⟩

/-- One turn of the loop of `FAT32_WriteFile`: it ends the loop in the cluster `c`, or the loop goes on in a
cluster of the file, which may be a new one. -/
theorem writeLoop_turned {data : List UInt8} {w : Nat} {exit : LoopExit} (h : M.Beside D T s) (hc : c ∈ T)
    (hlt : w < data.length) (hrun : writeLoop M data (fuel + 1) c w s = some (exit, s'))
    (halloc : ∀ x ∈ s'.allocs, M.InRange x) :
    M.Confined D T s s' (fun _ => ∀ w' c', exit = .done w' c' → c' = c) ∨
      ∃ T1 s1 next w1, M.Contained s s1 ∧ T ⊆ T1 ∧ M.Beside D T1 s1 ∧ next ∈ T1 ∧
        writeLoop M data fuel next w1 s1 = some (exit, s') := by
  have hG := M.keeps_grows
  rw [writeLoop, if_pos hlt] at hrun
  obtain ⟨st, s1, hchunk, hrest⟩ := Prog.bind_eq_some.mp hrun
  obtain ⟨hedits, hsame⟩ := writeChunk_edits hF (h.file.inRange c hc) hchunk
  have h1 := h.edits hedits hsame
  -- every early return leaves the file as far as it was written
  by_cases hst : st = 0
  swap
  · rw [if_pos hst, Prog.pure_run] at hrest
    cases hrest
    exact Or.inl (Mount.Confined.stay hedits.contained h1 (fun _ _ he => by cases he))
  rw [if_neg (not_not.mpr hst)] at hrest
  generalize w + (if data.length - w < M.clusterSize then data.length - w
    else M.clusterSize) = w' at hrest
  by_cases hdone : w' ≥ data.length
  · rw [if_pos hdone, Prog.pure_run] at hrest
    cases hrest
    refine Or.inl (Mount.Confined.stay hedits.contained h1 fun _ _ he => ?_)
    cases he
    rfl
  rw [if_neg hdone] at hrest
  obtain ⟨o, s2, hnext, hrest⟩ := Prog.bind_eq_some.mp hrest
  obtain ⟨hlook, hval⟩ := nextCluster_looked hnext
  have hcont2 := hedits.contained.trans hlook.contained
  have h2 := h1.looked hlook
  cases o with
  | none =>
      simp only [Prog.pure_run] at hrest
      cases hrest
      exact Or.inl (Mount.Confined.stay hcont2 h2 (fun _ _ he => by cases he))
  | some next =>
      simp only [] at hrest
      by_cases heof : next ≥ fat32EntryEof
      · rw [if_pos heof] at hrest
        obtain ⟨r, s3, hfound, hrest⟩ := Prog.bind_eq_some.mp hrest
        by_cases hr : r = 0
        · -- the disk is full
          rw [if_pos hr, Prog.pure_run] at hrest
          cases hrest
          have hout := allocCluster_handsOut hF h2.hint hfound halloc
          exact Or.inl (Mount.Confined.stay (hcont2.trans hout.contained) (h2.searched hout)
            (fun _ _ he => by cases he))
        · rw [if_neg hr] at hrest
          obtain ⟨st', s4, hwrite, hrest⟩ := Prog.bind_eq_some.mp hrest
          have halloc4 := grows_before (Prog.Steps.ite (hG.pure _)
            (writeLoop_steps hG _ _ _ _)) hrest halloc
          have halloc3 := grows_before (fat32WriteFatEntry_steps hG _ _) hwrite halloc4
          obtain ⟨hcont, h4⟩ := linkNew hF h2 hc hfound hr hwrite halloc3
          have hsub := Set.subset_insert r T
          by_cases hst' : st' = 0
          · rw [if_neg (not_not.mpr hst')] at hrest
            exact Or.inr ⟨_, s4, r, w', hcont2.trans hcont, hsub, h4, Set.mem_insert r T, hrest⟩
          · rw [if_pos hst', Prog.pure_run] at hrest
            cases hrest
            exact Or.inl ⟨hcont2.trans hcont, _, hsub, h4, fun _ _ he => by cases he⟩
      · -- the chain goes on in the file
        rw [if_neg heof] at hrest
        have hnextval : next = (M.raw s1).fat c := hval next rfl
        have hmem : next ∈ T := by
          rw [hnextval]
          refine (h1.file.closed c hc).resolve_right ?_
          rw [← hnextval]
          exact heof
        exact Or.inr ⟨T, s2, next, w', hcont2, subset_rfl, h2, hmem, hrest⟩

/-- The loop of `FAT32_WriteFile`. It ends with a cluster of the file, or with the one it began with
when there was nothing to write. -/
theorem writeLoop_confined {data : List UInt8} {w : Nat} {exit : LoopExit}
    (h : M.Beside D T s) (hc : w < data.length → c ∈ T)
    (hrun : writeLoop M data fuel c w s = some (exit, s')) (halloc : ∀ x ∈ s'.allocs, M.InRange x) :
    M.Confined D T s s' (fun T' => ∀ w' c', exit = .done w' c' → c' ∈ T' ∨ c' = c) := by
  induction fuel generalizing s T c w with
  | zero => cases hrun
  | succ fuel ih =>
      by_cases hlt : w < data.length
      · rcases writeLoop_turned hF h (hc hlt) hlt hrun halloc with ⟨hcont, T1, hsub, h1, hexit⟩ |
          ⟨T1, s1, next, w1, hcont, hsub, h1, hnext, hrest⟩
        · exact ⟨hcont, T1, hsub, h1, fun w' c' he => Or.inr (hexit w' c' he)⟩
        · refine Mount.Confined.after hcont hsub (ih h1 (fun _ => hnext) hrest) ?_
          intro T' hT' hq w' c' he
          rcases hq w' c' he with hm | rfl
          · exact Or.inl hm
          · exact Or.inl (hT' hnext)
      · rw [writeLoop, if_neg hlt, Prog.pure_run] at hrun
        cases hrun
        refine Mount.Confined.stay (Mount.Contained.refl _) h ?_
        intro w' c' he
        cases he
        exact Or.inr rfl

/-- The clusters behind the last one written are freed; the directory keeps its links. -/
theorem shrinkChain_contained {u : Unit} (h : M.Beside D T s)
    (hc : c ∈ T ∨ (c = 0 ∧ IsEof ((M.raw s).fat c)))
    (hrun : shrinkChain M fuel c s = some (u, s')) : M.Contained s s' ∧ M.Sealed s' D := by
  obtain ⟨o, s1, hnext, hrest⟩ := Prog.bind_eq_some.mp hrun
  obtain ⟨hlook, hval⟩ := nextCluster_looked hnext
  have h1 := h.looked hlook
  cases o with
  | none =>
      simp only [Prog.pure_run] at hrest
      cases hrest
      exact ⟨hlook.contained, h1.dir⟩
  | some next =>
      have hnextval : next = (M.raw s).fat c := hval next rfl
      simp only [] at hrest
      by_cases hlt : next < fat32EntryEof
      · rw [if_pos hlt] at hrest
        have hgo : ¬ IsEof ((M.raw s).fat c) := by
          rw [← hnextval]
          exact not_le.mpr hlt
        have hcT : c ∈ T := hc.resolve_right (fun h => hgo h.2)
        have hmem : next ∈ T := by
          rw [hnextval]
          exact (h.file.closed c hcT).resolve_right hgo
        obtain ⟨st, s2, hwrite, hrest⟩ := Prog.bind_eq_some.mp hrest
        have hcle : c ≤ M.info.totalClusters + 2 := le_of_lt (h.file.inRange c hcT).2
        obtain ⟨hword, -⟩ := writeFatEntry_words hF hcle hwrite
        have hfile2 : M.Sealed s2 T := h1.file.wordWrite hword (Or.inr (by decide))
        have hdir2 : M.Sealed s2 D := h1.dir.congr
          (fun x hx => hword.others x (h1.dir.inRange x hx).hasEntry
            (fun hxc => Set.disjoint_left.mp h.disjoint hx (hxc ▸ hcT)))
        obtain ⟨st', s3, hfree, hrest⟩ := Prog.bind_eq_some.mp hrest
        obtain ⟨hedits, -⟩ := freeChain_edits hF hfile2.loose (Or.inl hmem) hfree
        rw [Prog.pure_run] at hrest
        cases hrest
        exact ⟨(hlook.contained.trans hword.contained).trans hedits.contained,
          hdir2.edits hedits h.disjoint⟩
      · rw [if_neg hlt, Prog.pure_run] at hrest
        cases hrest
        exact ⟨hlook.contained, h1.dir⟩

/-- The numbers an entry brings along. Its start cluster lies in `T` when it has one. An entry of
some length without a start cluster, if nothing is written to it, makes `FAT32_WriteFile` look for
the end of a chain at the entry 0 of the table. -/
structure Mount.StartsIn (M : Mount) (s : FsState) (T : Set Nat) (e : Slot) (n : Nat) : Prop where
  start : e.cluster ≠ 0 → e.cluster ∈ T
  none : e.cluster = 0 → n = 0 → e.fileSize = 0 ∨ IsEof ((M.raw s).fat 0)

theorem writeStart_confined {e : Slot} {n : Nat} {o : Option (Nat × Slot)}
    (h : M.Beside D T s) (he : e.cluster ≠ 0 → e.cluster ∈ T)
    (hrun : writeStart M fuel e n s = some (o, s')) (halloc : ∀ x ∈ s'.allocs, M.InRange x) :
    M.Confined D T s s' (fun T' => ∀ c e', o = some (c, e') →
      c ∈ T' ∨ (c = 0 ∧ e.cluster = 0 ∧ n = 0 ∧ e' = e ∧ s' = s)) := by
  rw [writeStart] at hrun
  by_cases hnew : e.cluster = 0 ∧ n > 0
  · rw [if_pos hnew] at hrun
    obtain ⟨r, s1, hfound, hrest⟩ := Prog.bind_eq_some.mp hrun
    by_cases hr : r = 0
    · rw [if_pos hr, Prog.pure_run] at hrest
      cases hrest
      have hout := allocCluster_handsOut hF h.hint hfound halloc
      exact Mount.Confined.stay hout.contained (h.searched hout) (fun _ _ he => by cases he)
    · rw [if_neg hr, Prog.pure_run] at hrest
      cases hrest
      have hout := allocCluster_handsOut hF h.hint hfound halloc
      refine ⟨hout.contained, _, Set.subset_insert r T, h.handsOut hout hr, ?_⟩
      intro c e' he
      cases he
      exact Or.inl (Set.mem_insert _ T)
  · rw [if_neg hnew, Prog.pure_run] at hrun
    cases hrun
    refine Mount.Confined.stay (Mount.Contained.refl _) h ?_
    intro c e' heq
    cases heq
    by_cases h0 : e.cluster = 0
    · exact Or.inr ⟨h0, h0, by omega, rfl, rfl⟩
    · exact Or.inl (he h0)

/-- An entry of some length without a start cluster to which nothing is written: where the clusters of
the length are not 0, the entry 0 of the table ends a chain. -/
theorem Mount.StartsIn.eof_zero {e : Slot} {n : Nat} (he : M.StartsIn s T e n)
    (hnone : e.cluster = 0) (hzero : n = 0)
    (hlt : n < u32 (u32 (e.fileSize + M.clusterSize - 1) / M.clusterSize * M.clusterSize)) :
    IsEof ((M.raw s).fat 0) := by
  rcases he.none hnone hzero with hsize | heof
  · have hpos : 0 < M.clusterSize := by
      rw [Mount.clusterSize, hF.bytes]
      exact Nat.mul_pos (by decide) hF.perCluster
    have hold : u32 (e.fileSize + M.clusterSize - 1) / M.clusterSize = 0 := by
      rw [hsize]
      have := Nat.mod_le (0 + M.clusterSize - 1) (2 ^ 32)
      exact Nat.div_eq_of_lt (by rw [u32]; omega)
    rw [hold, Nat.zero_mul] at hlt
    exact absurd hlt (Nat.not_lt_zero _)
  · exact heof

/-- The start and the loop of `FAT32_WriteFile`. -/
theorem writeStarted_contained {e e0 : Slot} {data : List UInt8} {c0 : Nat} {s1 t : FsState}
    {exit : LoopExit} (h : M.Beside D T s) (he : M.StartsIn s T e data.length)
    (hstart : writeStart M fuel e data.length s = some (some (c0, e0), s1))
    (hloop : writeLoop M data fuel c0 0 s1 = some (exit, t))
    (halloc : ∀ x ∈ t.allocs, M.InRange x) :
    M.Contained s t ∧ ∃ T2, M.Beside D T2 t ∧ ∀ w c, exit = .done w c → c ∈ T2 ∨ (c = 0 ∧
      (w < u32 (u32 (e.fileSize + M.clusterSize - 1) / M.clusterSize * M.clusterSize) →
        IsEof ((M.raw t).fat c))) := by
  have halloc1 := grows_before (writeLoop_steps M.keeps_grows data fuel c0 0) hloop halloc
  obtain ⟨hcont1, T1, -, h1, hq1⟩ := writeStart_confined hF h he.start hstart halloc1
  rcases hq1 c0 e0 rfl with hc0 | ⟨rfl, hnone, hzero, rfl, rfl⟩
  · obtain ⟨hcont, T2, hsub, h2, hq2⟩ := writeLoop_confined hF h1 (fun _ => hc0) hloop halloc
    refine ⟨hcont1.trans hcont, T2, h2, fun w c hexit => Or.inl ?_⟩
    rcases hq2 w c hexit with hc | rfl
    · exact hc
    · exact hsub hc0
  · -- nothing is written to an entry without a start cluster
    cases fuel with
    | zero => cases hloop
    | succ fuel =>
        rw [writeLoop, if_neg (by omega), Prog.pure_run] at hloop
        cases hloop
        refine ⟨hcont1, T1, h1, fun w c hexit => ?_⟩
        cases hexit
        exact Or.inr ⟨rfl, fun hlt => he.eof_zero hF hnone hzero (by omega)⟩

theorem writeFile_contained {e : Slot} {data : List UInt8} {r : Nat × Slot}
    (h : M.Beside D T s) (hd : d ∈ D) (he : M.StartsIn s T e data.length)
    (hrun : fat32WriteFile M fuel d e data s = some (r, s'))
    (halloc : ∀ x ∈ s'.allocs, M.InRange x) : M.Contained s s' := by
  by_cases hdir : e.isDirectory = true
  · rw [fat32WriteFile, if_pos hdir, Prog.pure_run] at hrun
    cases hrun
    exact Mount.Contained.refl _
  obtain ⟨ret, e'⟩ := r
  obtain ⟨t, hparts⟩ := writeFile_run (by simpa using hdir) hrun
  have halloc2 := hparts.recorded halloc
  cases hparts with
  | unstarted hstart _ _ _ => exact (writeStart_confined hF h he.start hstart halloc).1
  | stopped c0 s1 hstart hloop ht =>
      subst ht
      exact (writeStarted_contained hF h he hstart hloop halloc).1
  | stored c0 c st e0 s1 s3 hstart hloop hcut _ hentry =>
      obtain ⟨hcont2, T2, h2, hq2⟩ := writeStarted_contained hF h he hstart hloop halloc2
      refine hcont2.trans ?_
      rcases hcut with ⟨hlt, u, hshrink⟩ | ⟨-, rfl⟩
      · have hcase := (hq2 ret c rfl).imp_right fun h => And.intro h.1 (h.2 hlt)
        obtain ⟨hcont3, hdir3⟩ := shrinkChain_contained hF h2 hcase hshrink
        exact hcont3.trans (writeDirEntry_contained hF hdir3 hd hentry)
      · exact writeDirEntry_contained hF h2.dir hd hentry

omit hF in
/-- The walk to the last cluster ends in the file. -/
theorem lastCluster_confined {o : Option Nat} (h : M.Sealed s T) (hc : c ∈ T)
    (hrun : lastCluster M fuel c s = some (o, s')) : M.Looked s s' ∧ ∀ b ∈ o, b ∈ T := by
  induction fuel generalizing s c with
  | zero => cases hrun
  | succ fuel ih =>
      rw [lastCluster] at hrun
      obtain ⟨n, s1, hnext, hrest⟩ := Prog.bind_eq_some.mp hrun
      obtain ⟨hlook, hval⟩ := nextCluster_looked hnext
      cases n with
      | none =>
          simp only [Prog.pure_run] at hrest
          cases hrest
          exact ⟨hlook, fun b hb => by cases hb⟩
      | some next =>
          simp only [] at hrest
          by_cases heof : next ≥ fat32EntryEof
          · rw [if_pos heof, Prog.pure_run] at hrest
            cases hrest
            refine ⟨hlook, fun b hb => ?_⟩
            cases hb
            exact hc
          · rw [if_neg heof] at hrest
            have hnextval : next = (M.raw s).fat c := hval next rfl
            have hmem : next ∈ T := by
              rw [hnextval]
              refine (h.closed c hc).resolve_right ?_
              rw [← hnextval]
              exact heof
            obtain ⟨hlook', hlast⟩ := ih (h.looked hlook) hmem hrest
            exact ⟨hlook.trans hlook', hlast⟩

theorem appendStart_confined {e : Slot} {o : Option (Nat × Slot)}
    (h : M.Beside D T s) (he : e.cluster ≠ 0 → e.cluster ∈ T)
    (hrun : appendStart M fuel e s = some (o, s')) (halloc : ∀ x ∈ s'.allocs, M.InRange x) :
    M.Confined D T s s' (fun T' => ∀ c e', o = some (c, e') → c ∈ T') := by
  rw [appendStart] at hrun
  by_cases h0 : e.cluster = 0
  · rw [if_pos h0] at hrun
    obtain ⟨r, s1, hfound, hrest⟩ := Prog.bind_eq_some.mp hrun
    by_cases hr : r = 0
    · rw [if_pos hr, Prog.pure_run] at hrest
      cases hrest
      have hout := allocCluster_handsOut hF h.hint hfound halloc
      exact Mount.Confined.stay hout.contained (h.searched hout) (fun _ _ he => by cases he)
    · rw [if_neg hr, Prog.pure_run] at hrest
      cases hrest
      have hout := allocCluster_handsOut hF h.hint hfound halloc
      refine ⟨hout.contained, _, Set.subset_insert r T, h.handsOut hout hr, ?_⟩
      intro c e' he
      cases he
      exact Set.mem_insert _ T
  · rw [if_neg h0] at hrun
    obtain ⟨b, s1, hlast, hrest⟩ := Prog.bind_eq_some.mp hrun
    obtain ⟨hlook, hmem⟩ := lastCluster_confined h.file (he h0) hlast
    cases b with
    | none =>
        simp only [Prog.pure_run] at hrest
        cases hrest
        exact Mount.Confined.stay hlook.contained (h.looked hlook) (fun _ _ he => by cases he)
    | some b =>
        simp only [Prog.pure_run] at hrest
        cases hrest
        refine Mount.Confined.stay hlook.contained (h.looked hlook) ?_
        intro c e' he
        cases he
        exact hmem b rfl

theorem appendRoom_confined {oldSize : Nat} {o : Option Nat} (h : M.Beside D T s) (hc : c ∈ T)
    (hrun : appendRoom M fuel c oldSize s = some (o, s')) (halloc : ∀ x ∈ s'.allocs, M.InRange x) :
    M.Confined D T s s' (fun T' => ∀ b ∈ o, b ∈ T') := by
  have hG := M.keeps_grows
  rw [appendRoom] at hrun
  by_cases hfull : oldSize % M.clusterSize = 0 ∧ oldSize > 0
  · rw [if_pos hfull] at hrun
    obtain ⟨r, s1, hfound, hrest⟩ := Prog.bind_eq_some.mp hrun
    by_cases hr : r = 0
    · rw [if_pos hr, Prog.pure_run] at hrest
      cases hrest
      have hout := allocCluster_handsOut hF h.hint hfound halloc
      exact Mount.Confined.stay hout.contained (h.searched hout) (fun _ he => by cases he)
    · rw [if_neg hr] at hrest
      obtain ⟨st, s2, hwrite, hrest⟩ := Prog.bind_eq_some.mp hrest
      rw [Prog.pure_run] at hrest
      cases hrest
      have halloc1 := grows_before (fat32WriteFatEntry_steps hG _ _) hwrite halloc
      obtain ⟨hcont, h2⟩ := linkNew hF h hc hfound hr hwrite halloc1
      refine ⟨hcont, _, Set.subset_insert r T, h2, ?_⟩
      intro b hb
      cases hb
      exact Set.mem_insert _ T
  · rw [if_neg hfull, Prog.pure_run] at hrun
    cases hrun
    refine Mount.Confined.stay (Mount.Contained.refl _) h ?_
    intro b hb
    cases hb
    exact hc

/-- The loop of `FAT32_AppendFile`. -/
theorem appendLoop_confined {data : List UInt8} {offset w : Nat} {exit : LoopExit}
    (h : M.Beside D T s) (hc : c ∈ T)
    (hrun : appendLoop M data fuel c offset w s = some (exit, s'))
    (halloc : ∀ x ∈ s'.allocs, M.InRange x) : M.Confined D T s s' (fun _ => True) := by
  have hG := M.keeps_grows
  induction fuel generalizing s T c offset w with
  | zero => cases hrun
  | succ fuel ih =>
      rw [appendLoop] at hrun
      by_cases hlt : w < data.length
      · rw [if_pos hlt] at hrun
        obtain ⟨st, s1, hchunk, hrest⟩ := Prog.bind_eq_some.mp hrun
        obtain ⟨hedits, hsame⟩ := writeChunk_edits hF (h.file.inRange c hc) hchunk
        have h1 := h.edits hedits hsame
        generalize w + (if data.length - w < M.clusterSize - offset then data.length - w
          else M.clusterSize - offset) = w' at hrest
        by_cases hdone : w' ≥ data.length
        · rw [if_pos hdone, Prog.pure_run] at hrest
          cases hrest
          exact Mount.Confined.stay hedits.contained h1 trivial
        · rw [if_neg hdone] at hrest
          obtain ⟨r, s2, hfound, hrest⟩ := Prog.bind_eq_some.mp hrest
          by_cases hr : r = 0
          · rw [if_pos hr, Prog.pure_run] at hrest
            cases hrest
            have hout := allocCluster_handsOut hF h1.hint hfound halloc
            exact Mount.Confined.stay (hedits.contained.trans hout.contained) (h1.searched hout)
              trivial
          · rw [if_neg hr] at hrest
            obtain ⟨st', s3, hwrite, hrest⟩ := Prog.bind_eq_some.mp hrest
            have halloc3 := grows_before (appendLoop_steps hG _ _ _ _ _) hrest halloc
            have halloc2 := grows_before (fat32WriteFatEntry_steps hG _ _) hwrite halloc3
            obtain ⟨hcont, h3⟩ := linkNew hF h1 hc hfound hr hwrite halloc2
            exact Mount.Confined.after (hedits.contained.trans hcont) (Set.subset_insert r T)
              (ih h3 (Set.mem_insert r T) hrest) (fun _ _ h => h)
      · rw [if_neg hlt, Prog.pure_run] at hrun
        cases hrun
        exact Mount.Confined.stay (Mount.Contained.refl _) h trivial

/-- The start of `FAT32_AppendFile` and the cluster with room for the first byte. -/
theorem appendOpened_confined {e e0 : Slot} {b : Nat} {o : Option Nat} {s1 : FsState}
    (h : M.Beside D T s) (he : e.cluster ≠ 0 → e.cluster ∈ T)
    (hstart : appendStart M fuel e s = some (some (b, e0), s1))
    (hroom : appendRoom M fuel b e.fileSize s1 = some (o, s')) (halloc : ∀ x ∈ s'.allocs, M.InRange x) :
    M.Confined D T s s' (fun T' => ∀ b1, o = some b1 → b1 ∈ T') := by
  have halloc1 := grows_before (appendRoom_steps M.keeps_grows fuel b e.fileSize) hroom halloc
  obtain ⟨hcont1, T1, hsub, h1, hq1⟩ := appendStart_confined hF h he hstart halloc1
  exact Mount.Confined.after hcont1 hsub
    (appendRoom_confined hF h1 (hq1 b e0 rfl) hroom halloc) (fun _ _ hq => hq)

theorem appendFile_contained {e : Slot} {data : List UInt8} {r : Nat × Slot}
    (h : M.Beside D T s) (hd : d ∈ D) (he : e.cluster ≠ 0 → e.cluster ∈ T)
    (hrun : fat32AppendFile M fuel d e data s = some (r, s'))
    (halloc : ∀ x ∈ s'.allocs, M.InRange x) : M.Contained s s' := by
  have hG := M.keeps_grows
  by_cases hno : data.length = 0 ∨ e.isDirectory = true
  · rw [fat32AppendFile, if_pos hno, Prog.pure_run] at hrun
    cases hrun
    exact Mount.Contained.refl _
  rw [not_or] at hno
  obtain ⟨ret, e'⟩ := r
  obtain ⟨t, hparts⟩ := appendFile_run (by simpa using hno.1) (by simpa using hno.2) hrun
  have halloc3 := hparts.recorded halloc
  cases hparts with
  | unstarted hstart _ _ _ => exact (appendStart_confined hF h he hstart halloc).1
  | full b s1 hstart hroom _ _ => exact (appendOpened_confined hF h he hstart hroom halloc).1
  | stopped b b1 s1 s2 hstart hroom hloop _ =>
      have halloc2 := grows_before (appendLoop_steps hG data fuel b1 _ 0) hloop halloc
      obtain ⟨hcont2, T2, -, h2, hq2⟩ := appendOpened_confined hF h he hstart hroom halloc2
      exact hcont2.trans (appendLoop_confined hF h2 (hq2 b1 rfl) hloop halloc).1
  | stored b b1 c st e0 s1 s2 hstart hroom hloop _ hentry =>
      have halloc2 := grows_before (appendLoop_steps hG data fuel b1 _ 0) hloop halloc3
      obtain ⟨hcont2, T2, -, h2, hq2⟩ := appendOpened_confined hF h he hstart hroom halloc2
      obtain ⟨hcont3, T3, -, h3, -⟩ := appendLoop_confined hF h2 (hq2 b1 rfl) hloop halloc3
      exact (hcont2.trans hcont3).trans (writeDirEntry_contained hF h3.dir hd hentry)

end File

/-! ## New entries -/

section Create

variable {M : Mount} (hF : M.Fitted) {s s' : FsState} {D : Set Nat} {d fuel r : Nat}
include hF

/-- Every chain of the directory has a cluster with room for the slots of a new entry. -/
def Mount.RoomFrom (M : Mount) (s : FsState) (d : Nat) (name : List UInt8) : Prop :=
  ∀ l, Chain (M.raw s).fat IsEof d l → M.Room (M.raw s) l name

theorem addSlots_contained {name : List UInt8} {slots : List Slot} {full : Nat}
    (hD : M.Sealed s D) (hd : d ∈ D) (hroom : M.RoomFrom s d name)
    (hlen : slots.length = slotsNeeded name)
    (hrun : addSlots M fuel d full slots s = some (r, s')) : M.Contained s s' := by
  obtain ⟨s1, hlook, hcase⟩ := walkDir_sealed hD hd hrun
  refine hlook.contained.trans ?_
  rcases hcase with rfl | ⟨c, hc, a, pos, -, hhit⟩ | ⟨l, hl, hmiss, -⟩
  · exact Mount.Contained.refl _
  · exact writeNewSlots_contained hF (hD.inRange c hc) hhit
  · -- the walk has passed no cluster with room
    obtain ⟨c, hc, hsome⟩ := hroom l hl
    obtain ⟨a, a', hscan⟩ := hmiss c hc
    rw [hlen] at hscan
    obtain ⟨pos, hpos⟩ := Option.isSome_iff_exists.mp hsome
    rw [hpos] at hscan
    cases hscan

theorem createFile_contained {name : List UInt8} {rtc : RtcTime} (hD : M.Sealed s D) (hd : d ∈ D)
    (hroom : M.RoomFrom s d name)
    (hrun : fat32CreateFile M fuel d name rtc s = some (r, s')) : M.Contained s s' := by
  obtain ⟨⟨st, o⟩, s1, hfind, hrest⟩ := Prog.bind_eq_some.mp hrun
  have hlook := findEntryAny_looked fuel name _ _ _ hfind
  refine hlook.contained.trans ?_
  simp only [] at hrest
  by_cases hst : st = 0
  · rw [if_pos hst, Prog.pure_run] at hrest
    cases hrest
    exact Mount.Contained.refl _
  · rw [if_neg hst] at hrest
    have hroom1 : M.RoomFrom s1 d name := by
      rw [Mount.RoomFrom, hlook.raw]
      exact hroom
    exact addSlots_contained hF (hD.looked hlook) hd hroom1 (newSlots_length name _ rtc 0) hrest

theorem createDir_contained {name : List UInt8} {rtc : RtcTime} (hD : M.Sealed s D) (hd : d ∈ D)
    (hroom : M.RoomFrom s d name) (hhint : s.free.start ≤ M.info.totalClusters + 2)
    (hrun : fat32CreateDir M fuel d name rtc s = some (r, s'))
    (halloc : ∀ x ∈ s'.allocs, M.InRange x) : M.Contained s s' := by
  have hG := M.keeps_grows
  obtain ⟨⟨st, o⟩, s1, hfind, hrest⟩ := Prog.bind_eq_some.mp hrun
  have hlook := findEntryAny_looked fuel name _ _ _ hfind
  refine hlook.contained.trans ?_
  simp only [] at hrest
  by_cases hst : st = 0
  · rw [if_pos hst, Prog.pure_run] at hrest
    cases hrest
    exact Mount.Contained.refl _
  · rw [if_neg hst] at hrest
    have hD1 := hD.looked hlook
    have hhint1 : s1.free.start ≤ M.info.totalClusters + 2 := by
      rw [hlook.same.1]
      exact hhint
    obtain ⟨n, s2, hfound, hrest⟩ := Prog.bind_eq_some.mp hrest
    by_cases hn : n = 0
    · rw [if_pos hn, Prog.pure_run] at hrest
      cases hrest
      exact (allocCluster_handsOut hF hhint1 hfound halloc).contained
    · rw [if_neg hn] at hrest
      have halloc2 : ∀ x ∈ s2.allocs, M.InRange x := by
        refine grows_before ?_ hrest halloc
        refine hG.bind (fat32WriteCluster_steps hG _ _) (fun st => ?_)
        exact Prog.Steps.ite (hG.pure _) (addSlots_steps hG _ _ _ _)
      have hout := allocCluster_handsOut hF hhint1 hfound halloc2
      obtain ⟨st', s3, hwrite, hrest⟩ := Prog.bind_eq_some.mp hrest
      obtain ⟨hedits, -⟩ := writeCluster_edits hF (hout.inRange hn) hwrite
      refine (hout.contained.trans hedits.contained).trans ?_
      by_cases hst' : st' = 0
      · rw [if_neg (not_not.mpr hst')] at hrest
        have hD2 := hD1.handsOut hout
        have hD3 := hD2.edits hedits (Set.disjoint_empty D)
        -- the directory of the new entry still has the contents it had
        have hnD : n ∉ D := hD1.not_mem hout hn
        have hroom3 : M.RoomFrom s3 d name := by
          intro l hl
          have hmem := hD3.closed.chain_mem hl hd
          have hfat : ∀ x ∈ l, (M.raw s).fat x = (M.raw s3).fat x := by
            intro x hx
            have hin := (hD.inRange x (hmem x hx)).hasEntry
            calc (M.raw s).fat x
                = (M.raw s1).fat x := by rw [hlook.raw]
              _ = (M.raw s2).fat x := (hout.kept x hin (hD1.not_free (hmem x hx))).symm
              _ = (M.raw s3).fat x := (hedits.fat x hin (Set.notMem_empty x)).symm
          have hdata : ∀ x ∈ l, (M.raw s3).data x = (M.raw s).data x := by
            intro x hx
            have hin := hD.inRange x (hmem x hx)
            have hxn : x ∉ ({n} : Set Nat) := fun h => hnD (h ▸ hmem x hx)
            calc (M.raw s3).data x
                = (M.raw s2).data x := hedits.data x hin hxn
              _ = (M.raw s1).data x := hout.data hn x hin
              _ = (M.raw s).data x := by rw [hlook.raw]
          exact (hroom l (hl.congr hfat)).congr hdata
        exact addSlots_contained hF hD3 hd hroom3 (newSlots_length name _ rtc n) hrest
      · rw [if_pos hst', Prog.pure_run] at hrest
        cases hrest
        exact Mount.Contained.refl _

end Create

/-! ## Runs -/

section Reading

variable {M : Mount} {s s' : FsState}

theorem readCluster_steps (c : Nat) : Prog.Steps M.Looked (fat32ReadCluster M c) :=
  fun _ _ _ hrun => (readCluster_looked hrun).1

theorem nextCluster_steps (c : Nat) : Prog.Steps M.Looked (fat32NextCluster M c) :=
  fun _ _ _ hrun => (nextCluster_looked hrun).1

theorem looked_pure {α : Type} (a : α) : Prog.Steps M.Looked (pure a) :=
  Prog.Steps.pure Mount.Looked.refl a

theorem looked_bind {α β : Type} {m : Prog FsState α} {f : α → Prog FsState β}
    (hm : Prog.Steps M.Looked m) (hf : ∀ a, Prog.Steps M.Looked (f a)) :
    Prog.Steps M.Looked (m >>= f) := Prog.Steps.bind (fun _ _ _ h h' => h.trans h') hm hf

theorem readLoop_looked (size fuel c n : Nat) (out : List UInt8) :
    Prog.Steps M.Looked (readLoop M size fuel c n out) := by
  induction fuel generalizing c n out with
  | zero => exact Prog.Steps.diverge
  | succ fuel ih =>
      refine Prog.Steps.ite (looked_bind (readCluster_steps c) fun p => ?_) (looked_pure _)
      refine Prog.Steps.ite (looked_pure _) (Prog.Steps.ite (looked_pure _) ?_)
      refine looked_bind (nextCluster_steps c) fun next => ?_
      cases next with
      | none => exact looked_pure _
      | some next => exact Prog.Steps.ite (looked_pure _) (ih _ _ _)

theorem readFile_looked (fuel : Nat) (e : Slot) : Prog.Steps M.Looked (fat32ReadFile M fuel e) :=
  Prog.Steps.ite (looked_pure _) (readLoop_looked _ _ _ _ _)

theorem findEntry_looked (fuel d : Nat) (name : Name83) :
    Prog.Steps M.Looked (fat32FindEntry M fuel d name) :=
  walkDir_looked _ _ _ (fun _ _ _ => looked_pure _) (fun _ _ _ => looked_pure _) fuel d ()

theorem listDirectory_looked (fuel d : Nat) : Prog.Steps M.Looked (fat32ListDirectory M fuel d) :=
  walkDir_looked _ _ _ (fun _ _ _ => looked_pure _) (fun _ _ _ => looked_pure _) fuel d ([], [])

/-- The boot sector and the FSInfo sector are read and nothing else. -/
theorem getInfo_looked : Prog.Steps M.Looked (ata (fat32GetInfo M.disk M.part)) := by
  have hpure : ∀ o : Option (Fat32Info × FreeInfo), Prog.Steps M.Looked (ata (pure o)) :=
    fun o => looked_pure o
  rw [fat32GetInfo, ata_bind]
  refine looked_bind (ataRead_looked _ _ _) fun p => ?_
  obtain ⟨r, buffer⟩ := p
  simp only []
  split
  · exact hpure _
  · split
    · exact hpure _
    · rw [ata_bind]
      refine looked_bind (ataRead_looked _ _ _) fun p => ?_
      obtain ⟨r, buffer⟩ := p
      simp only []
      split
      · exact hpure _
      · exact hpure _

end Reading

/-- The numbers a call brings along and those it will meet are in bounds: a cluster number passed to
it is one of the volume, the links it follows form closed sets, and a new entry finds room. -/
def FsCall.Bounded (M : Mount) (s : FsState) : {op : FsOp} → FsCall op → Prop
  | _, .writeCluster c _ => M.InRange c
  | _, .writeFatEntry c _ => M.HasEntry c
  | _, .allocCluster => s.free.start ≤ M.info.totalClusters + 2
  | _, .freeClusterChain c => ∃ T, M.Sealed s T ∧ ClusterIn T c
  | _, .writeDirEntry d _ => ∃ D, M.Sealed s D ∧ d ∈ D
  | _, .writeFile d e data => ∃ D T, M.Beside D T s ∧ d ∈ D ∧ M.StartsIn s T e data.length
  | _, .appendFile d e _ => ∃ D T, M.Beside D T s ∧ d ∈ D ∧ (e.cluster ≠ 0 → e.cluster ∈ T)
  | _, .renameFile d _ _ => ∃ D, M.Sealed s D ∧ d ∈ D
  | _, .createFile d name _ => ∃ D, M.Sealed s D ∧ d ∈ D ∧ M.RoomFrom s d name
  | _, .createDir d name _ => (∃ D, M.Sealed s D ∧ d ∈ D ∧ M.RoomFrom s d name) ∧
      s.free.start ≤ M.info.totalClusters + 2
  | _, .removeDir d _ => ∃ D T, M.Sealed s D ∧ M.Sealed s T ∧ M.Starts s D T ∧ d ∈ D
  | _, .deleteFile d _ => ∃ D T, M.Sealed s D ∧ M.Sealed s T ∧ M.Starts s D T ∧ d ∈ D
  | _, .getInfo | _, .nextCluster _ | _, .readCluster _ | _, .findEntry _ _ | _, .readFile _
  | _, .findEntryAny _ _ | _, .listDirectory _ | _, .isDirEmpty _ => True

/-- Calls one after the other, each with numbers in bounds in the state it finds. -/
inductive Mount.BoundedRun (M : Mount) : FsState → FsState → Prop
  | nil (s : FsState) : M.BoundedRun s s
  | call {s t u : FsState} {op : FsOp} {fuel : Nat} (call : FsCall op) (h : call.Bounded M s)
      (hrun : call.run M fuel s = some ((), t)) (hrest : M.BoundedRun t u) : M.BoundedRun s u

section Calls

variable {M : Mount} (hF : M.Fitted) {s s' : FsState}
include hF

theorem FsCall.contained {op : FsOp} {call : FsCall op} {fuel : Nat} (h : call.Bounded M s)
    (hrun : call.run M fuel s = some ((), s')) (halloc : ∀ x ∈ s'.allocs, M.InRange x) :
    M.Contained s s' := by
  -- the calls that only look change nothing; the others keep to the clusters `Bounded` names
  cases call with
  | getInfo =>
      obtain ⟨r, hcall, -⟩ := Prog.map_eq_some.mp hrun
      exact (getInfo_looked _ _ _ hcall).contained
  | nextCluster c =>
      obtain ⟨r, hcall, -⟩ := Prog.map_eq_some.mp hrun
      exact (nextCluster_steps c _ _ _ hcall).contained
  | readCluster c =>
      obtain ⟨r, hcall, -⟩ := Prog.map_eq_some.mp hrun
      exact (readCluster_steps c _ _ _ hcall).contained
  | writeCluster c buf =>
      obtain ⟨r, hcall, -⟩ := Prog.map_eq_some.mp hrun
      exact (writeCluster_edits hF h hcall).1.contained
  | findEntry d name =>
      obtain ⟨r, hcall, -⟩ := Prog.map_eq_some.mp hrun
      exact (findEntry_looked _ _ _ _ _ _ hcall).contained
  | readFile e =>
      obtain ⟨r, hcall, -⟩ := Prog.map_eq_some.mp hrun
      exact (readFile_looked _ _ _ _ _ hcall).contained
  | findEntryAny d name =>
      obtain ⟨r, hcall, -⟩ := Prog.map_eq_some.mp hrun
      exact (findEntryAny_looked _ _ _ _ _ hcall).contained
  | listDirectory d =>
      obtain ⟨r, hcall, -⟩ := Prog.map_eq_some.mp hrun
      exact (listDirectory_looked _ _ _ _ _ hcall).contained
  | writeFatEntry c v =>
      obtain ⟨r, hcall, -⟩ := Prog.map_eq_some.mp hrun
      have hc : c < M.info.totalClusters + 2 := h
      exact (writeFatEntry_words hF (le_of_lt hc) hcall).1.contained
  | allocCluster =>
      obtain ⟨r, hcall, -⟩ := Prog.map_eq_some.mp hrun
      exact (allocCluster_handsOut hF h hcall halloc).contained
  | freeClusterChain c =>
      obtain ⟨r, hcall, -⟩ := Prog.map_eq_some.mp hrun
      obtain ⟨T, hT, hc⟩ := h
      exact freeChain_contained hF hT hc hcall
  | writeDirEntry d e =>
      obtain ⟨r, hcall, -⟩ := Prog.map_eq_some.mp hrun
      obtain ⟨D, hD, hd⟩ := h
      exact writeDirEntry_contained hF hD hd hcall
  | writeFile d e data =>
      obtain ⟨r, hcall, -⟩ := Prog.map_eq_some.mp hrun
      obtain ⟨D, T, hbeside, hd, he⟩ := h
      exact writeFile_contained hF hbeside hd he hcall halloc
  | appendFile d e data =>
      obtain ⟨r, hcall, -⟩ := Prog.map_eq_some.mp hrun
      obtain ⟨D, T, hbeside, hd, he⟩ := h
      exact appendFile_contained hF hbeside hd he hcall halloc
  | renameFile d old new =>
      obtain ⟨r, hcall, -⟩ := Prog.map_eq_some.mp hrun
      obtain ⟨D, hD, hd⟩ := h
      exact renameFile_contained hF hD hd hcall
  | createFile d name rtc =>
      obtain ⟨r, hcall, -⟩ := Prog.map_eq_some.mp hrun
      obtain ⟨D, hD, hd, hroom⟩ := h
      exact createFile_contained hF hD hd hroom hcall
  | createDir d name rtc =>
      obtain ⟨r, hcall, -⟩ := Prog.map_eq_some.mp hrun
      obtain ⟨⟨D, hD, hd, hroom⟩, hhint⟩ := h
      exact createDir_contained hF hD hd hroom hhint hcall halloc
  | isDirEmpty c =>
      obtain ⟨r, hcall, -⟩ := Prog.map_eq_some.mp hrun
      exact (isDirEmpty_looked _ _ _ _ _ hcall).contained
  | removeDir d name =>
      obtain ⟨r, hcall, -⟩ := Prog.map_eq_some.mp hrun
      obtain ⟨D, T, hD, hT, hstarts, hd⟩ := h
      exact removeDir_contained hF hD hT hstarts hd hcall
  | deleteFile d name =>
      obtain ⟨r, hcall, -⟩ := Prog.map_eq_some.mp hrun
      obtain ⟨D, T, hD, hT, hstarts, hd⟩ := h
      exact deleteFile_contained hF hD hT hstarts hd hcall

omit hF in
theorem Mount.BoundedRun.grows (h : M.BoundedRun s s') : s.Grows s' := by
  induction h with
  | nil s => exact List.suffix_refl s.allocs
  | @call s t u op fuel call hb hrun hrest ih =>
      exact (call.run_steps M.keeps_grows fuel _ _ _ hrun).trans ih

end Calls

end Os003
