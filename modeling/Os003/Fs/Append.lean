import Os003.Fs.Write

set_option autoImplicit false

/-! # Appending to a file

`FAT32_AppendFile` walks to the last cluster of the chain, goes on behind the last byte of it and
links a new cluster whenever one is full; a file that ends at a cluster boundary gets its new
cluster before the first byte is written.
-/

namespace Os003

open Bytes Linked

/-! ## Entries that differ in size and first cluster -/

/-- The second entry has the name and the kind of the first one; size and first cluster may
differ. -/
structure Slot.Like (e e' : Slot) : Prop where
  name : e'.name = e.name
  valid : isValidSfnEntry e' = isValidSfnEntry e
  isDirectory : e'.isDirectory = e.isDirectory

namespace Slot.Like

theorem refl (e : Slot) : e.Like e := ⟨rfl, rfl, rfl⟩

theorem trans {e e' e'' : Slot} (h : e.Like e') (h' : e'.Like e'') : e.Like e'' :=
  ⟨h'.name.trans h.name, h'.valid.trans h.valid, h'.isDirectory.trans h.isDirectory⟩

theorem setFileSize (e : Slot) (n : Nat) : e.Like (e.setFileSize n) := by
  refine ⟨e.name_setFileSize n, ?_, e.isDirectory_setFileSize n⟩
  rw [isValidSfnEntry, isValidSfnEntry, e.name0_setFileSize, e.attr_setFileSize]

theorem setCluster (e : Slot) (c : Nat) : e.Like (e.setCluster c) := by
  refine ⟨e.name_setCluster c, ?_, e.isDirectory_setCluster c⟩
  rw [isValidSfnEntry, isValidSfnEntry, e.name0_setCluster, e.attr_setCluster]

/-- The entry a file operation works on is like the one it was given. -/
theorem of_start {M : Mount} {l : List Nat} {e e1 : Slot}
    (h : e1 = e ∨ (l = [] ∧ ∃ c, M.InRange c ∧ e1 = e.setCluster c)) : e.Like e1 := by
  rcases h with rfl | ⟨-, c, -, rfl⟩
  · exact refl _
  · exact setCluster e c

end Slot.Like

section Sound

variable {M : Mount} (hM : M.Sound) {s s' : FsState} {V : Volume} {A : List Nat}
include hM

/-! ## The walk to the last cluster -/

theorem lastCluster_within (hat : M.At s V A) {c b : Nat} {p : List Nat}
    (hl : V.ChainOf c (p ++ [b])) (hin : ∀ x ∈ p ++ [b], M.InRange x) :
    ∃ s', s.Reads s' ∧
      Prog.Within (p ++ [b]).length (fun fuel => lastCluster M fuel c) s (some b) s' := by
  induction p generalizing c s with
  | nil =>
      have hc : b = c := Volume.ChainOf.head hl
      subst hc
      obtain ⟨s1, hnext, hr1⟩ := nextCluster_at hM hat (hin b (by simp)).hasEntry
      have heof : V.fat b ≥ fat32EntryEof := Chain.stop_last (p := []) hl
      refine ⟨s1, hr1, Prog.Within.stop rfl (fun fuel => ?_)⟩
      show lastCluster M (fuel + 1) b s = _
      rw [lastCluster, Prog.bind_run hnext]
      simp only []
      rw [if_pos heof, Prog.pure_run]
  | cons x p ih =>
      have hc : x = c := Volume.ChainOf.head hl
      subst hc
      obtain ⟨-, hstop, htail⟩ := Chain.of_cons hl (by simp)
      have hgo : ¬ V.fat x ≥ fat32EntryEof := hstop
      obtain ⟨s1, hnext, hr1⟩ := nextCluster_at hM hat (hin x (by simp)).hasEntry
      obtain ⟨s', hr', hw⟩ := ih (hr1.stays hat) htail
        (fun y hy => hin y (List.mem_cons_of_mem _ hy))
      refine ⟨s', hr1.trans hr', Prog.Within.step rfl (fun fuel => ?_) hw⟩
      show lastCluster M (fuel + 1) x s = _
      rw [lastCluster, Prog.bind_run hnext]
      simp only []
      rw [if_neg hgo]

/-! ## The loop -/

/-- The loop of `FAT32_AppendFile` at offset `off` of the last cluster. -/
theorem appendLoop_spec {data : List UInt8} {fuel start cluster off w : Nat} {p : List Nat}
    {exit : LoopExit} (hat : M.At s V A) (hl : M.FileOn V start (p ++ [cluster]))
    (hoff : off < M.clusterSize) (hlt : w < data.length)
    (hrun : appendLoop M data fuel cluster off w s = some (exit, s'))
    (halloc : ∀ c ∈ s'.allocs, M.InRange c) :
    ∃ V' A' L, M.At s' V' A' ∧ M.Extends V start (p ++ [cluster]) V' L ∧
      ((∃ n, exit = .early n ∧ n < data.length) ∨
        ∃ c, exit = .done data.length c ∧
          V'.bytes L = splice (V.bytes L) (p.length * M.clusterSize + off) (data.drop w) ∧
          L.length = M.clustersFor (p.length * M.clusterSize + off + (data.length - w))) := by
  have hpos := hM.clusterSize_pos
  have hG := M.keeps_grows
  -- by the clusters still to fill; the chain so far is `p ++ [cluster]`, and `off` is 0 from the
  -- second turn on
  induction fuel generalizing s V A cluster p off w with
  | zero => cases hrun
  | succ fuel ih =>
      obtain ⟨n, hn⟩ : ∃ n, (if data.length - w < M.clusterSize - off then data.length - w
        else M.clusterSize - off) = n := ⟨_, rfl⟩
      have hnle : off + n ≤ M.clusterSize ∧ w + n ≤ data.length ∧ 0 < n := by
        rw [← hn]
        split <;> omega
      obtain ⟨s1, V1, hchunk, hat1, hV1⟩ := writeChunk_chunk hM hat hl hnle.1 hnle.2.1
      have hnow : M.Extends V start (p ++ [cluster]) V1 (p ++ [cluster]) :=
        ⟨hV1.clusters, List.prefix_refl _, hV1.rewrites⟩
      rw [appendLoop, if_pos hlt] at hrun
      simp only [hn] at hrun
      rw [Prog.bind_run hchunk] at hrun
      by_cases hdone : w + n ≥ data.length
      · -- the last cluster
        rw [if_pos hdone, Prog.pure_run] at hrun
        simp only [Option.some.injEq, Prod.mk.injEq] at hrun
        obtain ⟨hexit, rfl⟩ := hrun
        have hall : w + n = data.length := by omega
        refine ⟨V1, A, p ++ [cluster], hat1, hnow, Or.inr ⟨cluster, by rw [← hexit, hall], ?_, ?_⟩⟩
        · rw [hV1.bytes [] hl.nodup hl.1, List.take_of_length_le]
          rw [List.length_drop]
          omega
        · rw [List.length_append, List.length_singleton]
          symm
          refine hM.clustersFor_eq ?_ ?_
          · rw [Nat.succ_mul]
            omega
          · rw [Nat.succ_mul]
            omega
      rw [if_neg hdone] at hrun
      have hfull : off + n = M.clusterSize := by
        rw [← hn] at hdone ⊢
        split at hdone <;> split <;> omega
      obtain ⟨r, s2, hrun2, hgo⟩ := Prog.bind_eq_some.mp hrun
      have halloc2 := grows_before (Prog.Steps.ite (hG.pure _)
        (hG.bind (fat32WriteFatEntry_steps hG cluster r)
          (fun _ => appendLoop_steps hG data fuel r 0 _))) hgo halloc
      rcases linkCluster_at hM hat1 hV1.clusters hrun2 halloc2 with ⟨rfl, hr2⟩ |
        ⟨hr0, s3, V3, hwrite, hat3, hext, hdata3⟩
      · -- the disk is full
        rw [if_pos rfl, Prog.pure_run] at hgo
        simp only [Option.some.injEq, Prod.mk.injEq] at hgo
        obtain ⟨hexit, rfl⟩ := hgo
        exact ⟨V1, A, _, hr2.stays hat1, hnow, Or.inl ⟨_, hexit.symm, by omega⟩⟩
      · -- the new cluster is at the end of the chain, and the loop goes on at its first byte
        rw [if_neg hr0, Prog.bind_run hwrite] at hgo
        have hassoc : p ++ [cluster, r] = (p ++ [cluster]) ++ [r] := by simp
        rw [hassoc] at hext
        obtain ⟨V', A', L, hat', hext', hexit⟩ := ih hat3 hext.clusters hpos (by omega) hgo
        have hall : M.Extends V start (p ++ [cluster]) V' L := hnow.trans (hext.trans hext')
        refine ⟨V', A', L, hat', hall, ?_⟩
        rcases hexit with h | ⟨c, hc, hbytes, hlen⟩
        · exact Or.inl h
        · have hbytes3 : V3.bytes L = V1.bytes L :=
            Volume.bytes_congr (fun c _ => by rw [hdata3])
          rw [hbytes3, Nat.add_zero] at hbytes
          refine Or.inr ⟨c, hc, ?_, ?_⟩
          · exact hV1.combine hat hnle.2.1 hfull hbytes hall.kept hall.clusters.nodup
              hall.clusters.1
          · rw [hlen, List.length_append, List.length_singleton, Nat.succ_mul]
            congr 1
            omega

/-! ## The start -/

/-- Where `FAT32_AppendFile` starts: in the first cluster of an empty file or in the last one. -/
theorem appendStart_spec {fuel : Nat} {e : Slot} {l : List Nat} {o : Option (Nat × Slot)}
    (hat : M.At s V A) (hl : M.FileOn V e.cluster l)
    (hrun : appendStart M fuel e s = some (o, s')) (halloc : ∀ c ∈ s'.allocs, M.InRange c) :
    (o = none ∧ s.Reads s') ∨
      ∃ V' A' p b e', o = some (b, e') ∧ M.At s' V' A' ∧ M.FileOn V' e'.cluster (p ++ [b]) ∧
        V.Rewrites l V' (p ++ [b]) ∧ V'.data = V.data ∧
        ((e' = e ∧ l = p ++ [b]) ∨ (l = [] ∧ p = [] ∧ ∃ c, M.InRange c ∧ e' = e.setCluster c)) := by
  rw [appendStart] at hrun
  by_cases hempty : e.cluster = 0
  · rw [if_pos hempty] at hrun
    have hnil : l = [] := hl.nil_iff.mpr hempty
    subst hnil
    rcases emptyStart_spec hM hat hrun halloc with h | ⟨V', A', c, hc, hcl, ho, hat', hl', hrw, hdata⟩
    · exact Or.inl h
    · rw [hcl] at ho
      exact Or.inr ⟨V', A', [], c, e.setCluster c, ho, hat', hl', hrw, hdata,
        Or.inr ⟨rfl, rfl, c, hc, rfl⟩⟩
  · rw [if_neg hempty] at hrun
    have hne : l ≠ [] := fun h => hempty (hl.nil_iff.mp h)
    obtain ⟨p, b, rfl⟩ : ∃ p b, l = p ++ [b] :=
      ⟨l.dropLast, l.getLast hne, (List.dropLast_append_getLast hne).symm⟩
    obtain ⟨s1, hr1, hw⟩ := lastCluster_within hM hat (hl.chain hne) hl.1
    obtain ⟨last, s2, hlast, hrest⟩ := Prog.bind_eq_some.mp hrun
    obtain ⟨rfl, rfl⟩ := hw.result hlast
    cases hrest
    exact Or.inr ⟨V, A, p, b, e, rfl, hr1.stays hat, hl, Volume.Rewrites.refl V _, rfl,
      Or.inl ⟨rfl, rfl⟩⟩

/-- The new cluster of a file that ends at a cluster boundary. -/
theorem appendRoom_spec {fuel start b size : Nat} {p : List Nat} {o : Option Nat}
    (hat : M.At s V A) (hl : M.FileOn V start (p ++ [b]))
    (hrun : appendRoom M fuel b size s = some (o, s')) (halloc : ∀ c ∈ s'.allocs, M.InRange c) :
    (o = none ∧ s.Reads s') ∨
      ∃ V' A' p' b', o = some b' ∧ M.At s' V' A' ∧ M.Extends V start (p ++ [b]) V' (p' ++ [b']) ∧
        V'.data = V.data ∧
        (p' ++ [b'] = if size % M.clusterSize = 0 ∧ size > 0 then p ++ [b, b'] else p ++ [b]) := by
  have hG := M.keeps_grows
  rw [appendRoom] at hrun
  by_cases hfull : size % M.clusterSize = 0 ∧ size > 0
  · rw [if_pos hfull] at hrun
    obtain ⟨r, s1, hrun1, hrest⟩ := Prog.bind_eq_some.mp hrun
    have halloc1 := grows_before (Prog.Steps.ite (hG.pure _)
      (hG.bind (fat32WriteFatEntry_steps hG b r) (fun _ => hG.pure _))) hrest halloc
    rcases linkCluster_at hM hat hl hrun1 halloc1 with ⟨rfl, hr⟩ |
      ⟨hr0, s2, V', hwrite, hat', hext, hdata⟩
    · rw [if_pos rfl, Prog.pure_run] at hrest
      cases hrest
      exact Or.inl ⟨rfl, hr⟩
    · rw [if_neg hr0, Prog.bind_run hwrite, Prog.pure_run] at hrest
      cases hrest
      have hassoc : p ++ [b, r] = (p ++ [b]) ++ [r] := by simp
      rw [hassoc] at hext
      refine Or.inr ⟨V', _, p ++ [b], r, rfl, hat', hext, hdata, ?_⟩
      rw [if_pos hfull, hassoc]
  · rw [if_neg hfull, Prog.pure_run] at hrun
    cases hrun
    refine Or.inr ⟨V, A, p, b, rfl, hat, ⟨hl, List.prefix_refl _, Volume.Rewrites.refl V _⟩, rfl, ?_⟩
    rw [if_neg hfull]

/-! ## The function -/

omit hM in
/-- The offset in the last of `k + 1` units, and the unit it belongs to: behind the last one when
that is full. -/
theorem unit_offset {n k m : Nat} (h1 : k * m < n) (h2 : n ≤ (k + 1) * m) :
    (if n % m = 0 then k + 1 else k) * m + n % m = n := by
  have hdiv := Nat.div_add_mod n m
  have hmod : n % m < m := by
    refine Nat.mod_lt n (Nat.pos_of_ne_zero ?_)
    rintro rfl
    omega
  have hk : k ≤ n / m := (Nat.le_div_iff_mul_le (by omega)).mpr (Nat.le_of_lt h1)
  have hk' : n / m ≤ k + 1 := by
    rw [← Nat.lt_succ_iff, Nat.div_lt_iff_lt_mul (by omega), Nat.succ_mul]
    omega
  have hexp : m * (k + 1) = k * m + m := by ring
  have hexp' : m * k = k * m := Nat.mul_comm m k
  by_cases hr : n % m = 0
  · rw [if_pos hr]
    rcases Nat.eq_or_lt_of_le hk with heq | hlt
    · rw [← heq] at hdiv
      omega
    · have hq : n / m = k + 1 := by omega
      rw [hq] at hdiv
      rw [Nat.mul_comm]
      exact hdiv
  · rw [if_neg hr]
    rcases Nat.eq_or_lt_of_le hk' with heq | hlt
    · rw [heq] at hdiv
      rw [Nat.succ_mul] at h2
      omega
    · have hq : n / m = k := by omega
      rw [hq, Nat.mul_comm] at hdiv
      exact hdiv

/-- The position at which `FAT32_AppendFile` writes first is the old end of the file. -/
theorem append_position {size b b1 : Nat} {l p p1 : List Nat}
    (hlen : l.length = M.clustersFor size) (hcase : l = p ++ [b] ∨ (l = [] ∧ p = []))
    (hlist : p1 ++ [b1] =
      if size % M.clusterSize = 0 ∧ size > 0 then p ++ [b, b1] else p ++ [b]) :
    p1.length * M.clusterSize + size % M.clusterSize = size := by
  have hp1 := congrArg List.length hlist
  rw [List.length_append, List.length_singleton] at hp1
  rcases hcase with rfl | ⟨rfl, rfl⟩
  · have h1 := hM.clustersFor_lt size
    have h2 := hM.le_clustersFor size
    rw [← hlen, List.length_append, List.length_singleton] at h1 h2
    have h3 : p.length * M.clusterSize < size := by
      rw [Nat.succ_mul] at h1
      omega
    have hspot := unit_offset h3 h2
    have hcount : p1.length = if size % M.clusterSize = 0 then p.length + 1 else p.length := by
      by_cases hr : size % M.clusterSize = 0
      · rw [if_pos ⟨hr, by omega⟩] at hp1
        simp only [List.length_append, List.length_cons, List.length_nil] at hp1
        rw [if_pos hr]
        omega
      · rw [if_neg (by tauto)] at hp1
        simp only [List.length_append, List.length_cons, List.length_nil] at hp1
        rw [if_neg hr]
        omega
    rw [hcount]
    exact hspot
  · have h0 : size = 0 := by
      have := (hM.clustersFor_le_iff size 0).mp (by rw [← hlen]; rfl)
      omega
    subst h0
    rw [if_neg (by omega)] at hp1
    have : p1.length = 0 := by simpa using hp1
    rw [this]
    simp

/-- A call of `FAT32_AppendFile` with data for a file, part by part: `t` is the state when the data are
written as far as they will be. -/
inductive Mount.AppendRun (M : Mount) (fuel d : Nat) (e : Slot) (data : List UInt8)
    (s t : FsState) (ret : Nat) (e' : Slot) (s' : FsState) : Prop
  /-- There is no first cluster for an empty file. -/
  | unstarted (hstart : appendStart M fuel e s = some (none, s')) (hret : ret = 0) (he : e' = e)
      (ht : t = s')
  /-- There is no room for the first byte. -/
  | full (b : Nat) (s1 : FsState) (hstart : appendStart M fuel e s = some (some (b, e'), s1))
      (hroom : appendRoom M fuel b e.fileSize s1 = some (none, s')) (hret : ret = 0) (ht : t = s')
  /-- There is no further cluster. -/
  | stopped (b b1 : Nat) (s1 s2 : FsState)
      (hstart : appendStart M fuel e s = some (some (b, e'), s1))
      (hroom : appendRoom M fuel b e.fileSize s1 = some (some b1, s2))
      (hloop : appendLoop M data fuel b1 (e.fileSize % M.clusterSize) 0 s2 = some (.early ret, s'))
      (ht : t = s')
  /-- All is written, and the directory entry follows. -/
  | stored (b b1 c st : Nat) (e0 : Slot) (s1 s2 : FsState)
      (hstart : appendStart M fuel e s = some (some (b, e0), s1))
      (hroom : appendRoom M fuel b e.fileSize s1 = some (some b1, s2))
      (hloop : appendLoop M data fuel b1 (e.fileSize % M.clusterSize) 0 s2 = some (.done ret c, t))
      (he : e' = e0.setFileSize (u32 (e.fileSize + ret)))
      (hentry : fat32WriteDirEntry M fuel d e' t = some (st, s'))

omit hM in
theorem appendFile_run {fuel d ret : Nat} {e e' : Slot} {data : List UInt8} (hdata : data ≠ [])
    (hfile : e.isDirectory = false)
    (hrun : fat32AppendFile M fuel d e data s = some ((ret, e'), s')) :
    ∃ t, M.AppendRun fuel d e data s t ret e' s' := by
  rw [fat32AppendFile, hfile, if_neg (by simpa using hdata)] at hrun
  simp only [] at hrun
  obtain ⟨o, s1, hstart, hrest⟩ := Prog.bind_eq_some.mp hrun
  cases o with
  | none =>
      cases hrest
      exact ⟨s', .unstarted hstart rfl rfl rfl⟩
  | some q =>
      obtain ⟨b, e0⟩ := q
      obtain ⟨room, s2, hroom, hrest⟩ := Prog.bind_eq_some.mp hrest
      cases room with
      | none =>
          cases hrest
          exact ⟨s', .full b s1 hstart hroom rfl rfl⟩
      | some b1 =>
          obtain ⟨exit, t, hloop, hfinish⟩ := Prog.bind_eq_some.mp hrest
          cases exit with
          | early n =>
              cases hfinish
              exact ⟨s', .stopped b b1 s1 s2 hstart hroom hloop rfl⟩
          | done n c =>
              obtain ⟨st, s4, hentry, hpure⟩ := Prog.bind_eq_some.mp hfinish
              cases hpure
              exact ⟨t, .stored b b1 c st e0 s1 s2 hstart hroom hloop rfl hentry⟩

/-- The file of the entry `e` on the clusters `l` has become the file of `e1` on the clusters `l1`, which
has a first cluster at least if `e` had none. -/
structure Mount.Regrown (M : Mount) (V : Volume) (e : Slot) (l : List Nat) (V1 : Volume) (e1 : Slot)
    (l1 : List Nat) : Prop where
  clusters : M.FileOn V1 e1.cluster l1
  rewrites : V.Rewrites l V1 l1
  entry : e1 = e ∨ (l = [] ∧ ∃ c, M.InRange c ∧ e1 = e.setCluster c)

omit hM in
theorem Mount.Regrown.extend {e e1 : Slot} {l l1 l2 : List Nat} {V1 V2 : Volume}
    (h : M.Regrown V e l V1 e1 l1) (hext : M.Extends V1 e1.cluster l1 V2 l2) :
    M.Regrown V e l V2 e1 l2 :=
  ⟨hext.clusters, h.rewrites.trans hext.rewrites, h.entry⟩

/-- A call that has found a cluster to start in and then room, or none: in the first case the file has
grown to the clusters in front of `b1` and `b1`, its bytes are as before, and the old end of the file is
the offset in `b1`. -/
theorem appendFile_opened {fuel b : Nat} {e e0 : Slot} {l : List Nat} {o : Option Nat} {s1 s2 : FsState}
    (hat : M.At s V A) (hl : M.FileOn V e.cluster l)
    (hstart : appendStart M fuel e s = some (some (b, e0), s1))
    (hroom : appendRoom M fuel b e.fileSize s1 = some (o, s2)) (halloc : ∀ c ∈ s2.allocs, M.InRange c) :
    ∃ V1 A1 p1 b1, M.At s2 V1 A1 ∧ M.Regrown V e l V1 e0 (p1 ++ [b1]) ∧ V1.data = V.data ∧
      l <+: p1 ++ [b1] ∧ (o = none ∨ o = some b1 ∧ (l.length = M.clustersFor e.fileSize →
        p1.length * M.clusterSize + e.fileSize % M.clusterSize = e.fileSize)) := by
  have halloc1 := grows_before (appendRoom_steps M.keeps_grows fuel b e.fileSize) hroom halloc
  rcases appendStart_spec hM hat hl hstart halloc1 with ⟨ho, -⟩ |
    ⟨V0, A0, p, b0, x0, ho, hat0, hl0, hrw0, hdata0, hcase⟩
  · cases ho
  cases ho
  have hpre : l <+: p ++ [b] := by
    rcases hcase with ⟨-, rfl⟩ | ⟨rfl, -⟩
    · exact List.prefix_refl _
    · exact List.nil_prefix
  have hgrown : M.Regrown V e l V0 e0 (p ++ [b]) := by
    refine ⟨hl0, hrw0, ?_⟩
    rcases hcase with ⟨h, -⟩ | ⟨h1, -, c, h2, h3⟩
    · exact Or.inl h
    · exact Or.inr ⟨h1, c, h2, h3⟩
  rcases appendRoom_spec hM hat0 hl0 hroom halloc with ⟨rfl, hr⟩ |
    ⟨V1, A1, p1, b1, rfl, hat1, hext1, hdata1, hlist⟩
  · exact ⟨V0, A0, p, b, hr.stays hat0, hgrown, hdata0, hpre, Or.inl rfl⟩
  · refine ⟨V1, A1, p1, b1, hat1, hgrown.extend hext1, hdata1.trans hdata0, hpre.trans hext1.kept,
      Or.inr ⟨rfl, fun hlen => append_position hM hlen ?_ hlist⟩⟩
    rcases hcase with ⟨-, h⟩ | ⟨h1, h2, -⟩
    · exact Or.inl h
    · exact Or.inr ⟨h1, h2⟩

/-- Data spliced in at the end of a file follow its old contents. -/
theorem append_bytes {n : Nat} {l L : List Nat} {data : List UInt8} (hat : M.At s V A)
    (hl : ∀ c ∈ l, M.InRange c) (hlen : l.length = M.clustersFor n) (hpre : l <+: L) :
    ∃ rest, splice (V.bytes L) n data = (V.bytes l).take n ++ data ++ rest := by
  have hfits : n ≤ (V.bytes l).length := by
    rw [Volume.bytes_length (fun c hc => hat.data_length (hl c hc)), hlen]
    exact hM.le_clustersFor n
  obtain ⟨ext, rfl⟩ := hpre
  refine ⟨(V.bytes (l ++ ext)).drop (n + data.length), ?_⟩
  rw [splice, Volume.bytes_append, List.take_append_of_le_length hfits]

omit hM in
/-- What follows the loop adds nothing to the record. -/
theorem Mount.AppendRun.recorded {fuel d ret : Nat} {e e' : Slot} {data : List UInt8} {t : FsState}
    (h : M.AppendRun fuel d e data s t ret e' s') (halloc : ∀ c ∈ s'.allocs, M.InRange c) :
    ∀ c ∈ t.allocs, M.InRange c := by
  cases h with
  | unstarted _ _ _ ht => rwa [ht]
  | full _ _ _ _ _ ht => rwa [ht]
  | stopped _ _ _ _ _ _ _ ht => rwa [ht]
  | stored _ _ _ _ _ _ _ _ _ _ _ hentry =>
      exact grows_before (fat32WriteDirEntry_steps M.keeps_grows fuel d e') hentry halloc

/-- The state of a call that is behind its loop. -/
theorem Mount.AppendRun.spec {fuel d ret : Nat} {e e' : Slot} {l : List Nat} {data : List UInt8}
    {t : FsState} (h : M.AppendRun fuel d e data s t ret e' s') (hat : M.At s V A)
    (hl : M.FileOn V e.cluster l) (hdata : data ≠ []) (halloc : ∀ c ∈ t.allocs, M.InRange c) :
    ∃ V1 A1 l1 e1, M.At t V1 A1 ∧ M.Regrown V e l V1 e1 l1 ∧
      ((ret < data.length ∧ s' = t ∧ e' = e1) ∨
        (ret = data.length ∧ l1 ≠ [] ∧ e' = e1.setFileSize (u32 (e.fileSize + data.length)) ∧
          (∃ r, fat32WriteDirEntry M fuel d e' t = some (r, s')) ∧
          (l.length = M.clustersFor e.fileSize →
            l1.length = M.clustersFor (e.fileSize + data.length) ∧
            ∃ rest, V1.bytes l1 = (V.bytes l).take e.fileSize ++ data ++ rest))) := by
  have hG := M.keeps_grows
  have hpos : 0 < data.length := List.length_pos_of_ne_nil hdata
  have hoff : e.fileSize % M.clusterSize < M.clusterSize := Nat.mod_lt _ hM.clusterSize_pos
  cases h with
  -- an early return: the chain may have grown, the entry on the disk is the old one
  | unstarted hstart hret he ht =>
      subst hret he ht
      rcases appendStart_spec hM hat hl hstart halloc with ⟨-, hr⟩ | ⟨V0, A0, p, b, x0, ho, -⟩
      · exact ⟨V, A, l, e', hr.stays hat, ⟨hl, Volume.Rewrites.refl V l, Or.inl rfl⟩,
          Or.inl ⟨hpos, rfl, rfl⟩⟩
      · cases ho
  | full b s1 hstart hroom hret ht =>
      subst hret ht
      obtain ⟨V1, A1, p1, b1, hat1, hgrown, -⟩ := appendFile_opened hM hat hl hstart hroom halloc
      exact ⟨V1, A1, _, e', hat1, hgrown, Or.inl ⟨hpos, rfl, rfl⟩⟩
  | stopped b b1 s1 s2 hstart hroom hloop ht =>
      subst ht
      have halloc2 := grows_before (appendLoop_steps hG data fuel b1 _ 0) hloop halloc
      obtain ⟨V1, A1, p1, b0, hat1, hgrown, -, -, ho⟩ := appendFile_opened hM hat hl hstart hroom halloc2
      obtain ⟨rfl, -⟩ : b1 = b0 ∧ _ := by simpa using ho
      obtain ⟨V2, A2, L, hat2, hext2, hexit⟩ := appendLoop_spec hM hat1 hgrown.clusters hoff hpos hloop
        halloc
      rcases hexit with ⟨n, hn, hlt⟩ | ⟨c, hc, -⟩
      · cases hn
        exact ⟨V2, A2, L, e', hat2, hgrown.extend hext2, Or.inl ⟨hlt, rfl, rfl⟩⟩
      · cases hc
  | stored b b1 c st e0 s1 s2 hstart hroom hloop he hentry =>
      -- all is written, and the entry is stored with the new size
      have halloc2 := grows_before (appendLoop_steps hG data fuel b1 _ 0) hloop halloc
      obtain ⟨V1, A1, p1, b0, hat1, hgrown, hdata1, hpre, ho⟩ :=
        appendFile_opened hM hat hl hstart hroom halloc2
      obtain ⟨rfl, hspot⟩ : b1 = b0 ∧ (l.length = M.clustersFor e.fileSize →
          p1.length * M.clusterSize + e.fileSize % M.clusterSize = e.fileSize) := by simpa using ho
      obtain ⟨V2, A2, L, hat2, hext2, hexit⟩ := appendLoop_spec hM hat1 hgrown.clusters hoff hpos hloop
        halloc
      rcases hexit with ⟨n, hn, -⟩ | ⟨x, hx, hbytes, hlen⟩
      · cases hn
      · cases hx
        refine ⟨V2, A2, L, e0, hat2, hgrown.extend hext2, Or.inr ⟨rfl, ?_, he, ⟨st, hentry⟩, fun hwf => ?_⟩⟩
        · rintro rfl
          have := List.prefix_nil.mp hext2.kept
          simp at this
        have hsame : V1.bytes L = V.bytes L := Volume.bytes_congr (fun c _ => by rw [hdata1])
        rw [hspot hwf, Nat.sub_zero] at hlen
        rw [hspot hwf, hsame, List.drop_zero] at hbytes
        rw [hbytes]
        exact ⟨hlen, append_bytes hM hat hl.1 hwf (hpre.trans hext2.kept)⟩

/-- `FAT32_AppendFile` up to the directory entry, in the same form as `writeFile_spec`. -/
theorem appendFile_spec {fuel d ret : Nat} {e e' : Slot} {l : List Nat} {data : List UInt8}
    (hat : M.At s V A) (hfile : e.isDirectory = false) (hl : M.FileOn V e.cluster l)
    (hrun : fat32AppendFile M fuel d e data s = some ((ret, e'), s'))
    (halloc : ∀ c ∈ s'.allocs, M.InRange c) :
    ∃ s1 V1 A1 l1 e1, M.At s1 V1 A1 ∧ M.FileOn V1 e1.cluster l1 ∧ V.Rewrites l V1 l1 ∧
      (e1 = e ∨ (l = [] ∧ ∃ c, M.InRange c ∧ e1 = e.setCluster c)) ∧
      (((data = [] ∨ ret < data.length) ∧ s' = s1 ∧ e' = e1) ∨
        (ret = data.length ∧ l1 ≠ [] ∧ e' = e1.setFileSize (u32 (e.fileSize + data.length)) ∧
          (∃ r, fat32WriteDirEntry M fuel d e' s1 = some (r, s')) ∧
          (l.length = M.clustersFor e.fileSize →
            l1.length = M.clustersFor (e.fileSize + data.length) ∧
            ∃ rest, V1.bytes l1 = (V.bytes l).take e.fileSize ++ data ++ rest))) := by
  by_cases hnone : data = []
  · rw [fat32AppendFile, if_pos (by simp [hnone]), Prog.pure_run] at hrun
    cases hrun
    exact ⟨s, V, A, l, e, hat, hl, Volume.Rewrites.refl V l, Or.inl rfl, Or.inl ⟨Or.inl hnone, rfl, rfl⟩⟩
  · obtain ⟨t, hparts⟩ := appendFile_run hnone hfile hrun
    obtain ⟨V1, A1, l1, e1, hat1, hgrown, hcase⟩ :=
      hparts.spec hM hat hl hnone (hparts.recorded halloc)
    refine ⟨t, V1, A1, l1, e1, hat1, hgrown.clusters, hgrown.rewrites, hgrown.entry, ?_⟩
    exact hcase.imp_left fun ⟨hlt, hs, he⟩ => ⟨Or.inr hlt, hs, he⟩

/-! ## The append law -/

/-- After an append of `data`: `FAT32_ReadFile` on the new entry `e'` returns what it returned on
the old entry `e` before, and the data behind it; the file has exactly the clusters its size
needs; and slot `i` of the directory cluster `c` holds the new entry. -/
structure AppendLaw (M : Mount) (s s' : FsState) (e e' : Slot) (c i : Nat) (data : List UInt8) :
    Prop where
  size : e'.fileSize = e.fileSize + data.length
  reads : ∃ old new t t', Prog.Ends (fun fuel => fat32ReadFile M fuel e) s (e.fileSize, old) t ∧
    Prog.Ends (fun fuel => fat32ReadFile M fuel e') s' (e'.fileSize, new) t' ∧
    new.take e'.fileSize = old.take e.fileSize ++ data
  clusters : ∃ l', M.WellFormedFile (M.view s') e' l'
  stored : M.LiveAt (M.view s') c i ∧ (M.view s').slot c i = e'

/-- The directory entry is written over the only live one with its name. -/
theorem writeDirEntry_stores {fuel d r c i : Nat} {dl : List Nat} {e : Slot} (hat : M.At s V A)
    (hd : M.DirOn V d dl) (hc : c ∈ dl) (hlive : M.LiveAt V c i)
    (hname : (V.slot c i).name = e.name) (hvalid : isValidSfnEntry e = true)
    (hunique : ∀ x ∈ dl, ∀ j, M.LiveAt V x j → (V.slot x j).name = e.name → x = c ∧ j = i)
    (hrun : fat32WriteDirEntry M fuel d e s = some (r, s')) :
    M.At s' (V.setData c (setSlot (V.data c) i e)) A ∧
      M.LiveAt (V.setData c (setSlot (V.data c) i e)) c i ∧
      (V.setData c (setSlot (V.data c) i e)).slot c i = e := by
  obtain ⟨r', t, V', hat', hw, hcase⟩ := writeDirEntry_within hM hat hd.1 hd.2 e
  obtain ⟨-, rfl⟩ := hw.result hrun
  rcases hcase with ⟨-, hnone⟩ | ⟨x, hx, j, hlivex, hnamex, rfl⟩
  · exact absurd hname (hnone c hc i hlive)
  · obtain ⟨rfl, rfl⟩ := hunique x hx j hlivex hnamex
    have hroom : 32 * j + 32 ≤ (V.data x).length := by
      rw [hat.data_length (hd.2 x hx)]
      exact hM.slot_room hlivex.lt
    have hdata : (V.setData x (setSlot (V.data x) j e)).data x = setSlot (V.data x) j e := by
      rw [Volume.setData_data, Function.update_self]
    have hslot : (V.setData x (setSlot (V.data x) j e)).slot x j = e := by
      rw [Volume.slot, hdata, slotAt_setSlot _ _ _ _ hroom, if_pos rfl]
    refine ⟨hat', ?_, hslot⟩
    rw [Mount.LiveAt, hdata]
    refine SlotLive.congr hlivex ?_ ?_
    · rw [slotAt_setSlot _ _ _ _ hroom, if_pos rfl]
      exact hvalid
    · intro k hk h0
      rw [slotAt_setSlot _ _ _ _ hroom, if_neg (by omega)]
      exact h0

/-- The directory entry of a file that has been rewritten from the clusters `l` to the clusters
`l'`: the directory is apart from the file, so the entry is where it was. -/
theorem Volume.Rewrites.storeEntry {fuel d r c i : Nat} {V' : Volume} {l l' dl : List Nat} {e : Slot}
    (hrw : V.Rewrites l V' l') (hat : M.At s V' A) (hd : M.DirOn V d dl) (hdisj : ∀ x ∈ dl, x ∉ l)
    (hc : c ∈ dl) (hlive : M.LiveAt V c i) (hname : (V.slot c i).name = e.name)
    (hvalid : isValidSfnEntry e = true)
    (hunique : ∀ x ∈ dl, ∀ j, M.LiveAt V x j → (V.slot x j).name = e.name → x = c ∧ j = i)
    (hrun : fat32WriteDirEntry M fuel d e s = some (r, s')) :
    M.At s' (V'.setData c (setSlot (V.data c) i e)) A ∧
      M.LiveAt (V'.setData c (setSlot (V.data c) i e)) c i ∧
      (V'.setData c (setSlot (V.data c) i e)).slot c i = e := by
  have hsame : ∀ x ∈ dl, V'.data x = V.data x := fun x hx =>
    (hrw.frame x (hdisj x hx) (hd.fileOn.fat_ne_free hx)).2
  have hlive' : ∀ x ∈ dl, ∀ j, M.LiveAt V' x j ↔ M.LiveAt V x j := by
    intro x hx j
    rw [Mount.LiveAt, Mount.LiveAt, hsame x hx]
  have hslot' : ∀ x ∈ dl, ∀ j, V'.slot x j = V.slot x j := by
    intro x hx j
    rw [Volume.slot, Volume.slot, hsame x hx]
  rw [← hsame c hc]
  refine writeDirEntry_stores hM hat (hrw.dirOn hd hdisj) hc ((hlive' c hc i).mpr hlive) ?_ hvalid
    ?_ hrun
  · rw [hslot' c hc, hname]
  · intro x hx j h1 h2
    rw [hslot' x hx] at h2
    exact hunique x hx j ((hlive' x hx j).mp h1) h2

/-- The volume after an append that returns the size of the data: the file has been rewritten from
the clusters `l` to the clusters `l1`, and its entry is stored. -/
theorem appendFile_appended {fuel d c i : Nat} {e e' : Slot} {l dl : List Nat} {data : List UInt8}
    (hat : M.At s V A) (hfile : M.WellFormedFile V e l) (hdir : M.DirOn V d dl)
    (hdisj : ∀ x ∈ dl, x ∉ l) (hc : c ∈ dl) (hlive : M.LiveAt V c i) (hslot : V.slot c i = e)
    (hunique : ∀ x ∈ dl, ∀ j, M.LiveAt V x j → (V.slot x j).name = e.name → x = c ∧ j = i)
    (hdata : data ≠ []) (hsum : e.fileSize + data.length < 2 ^ 32)
    (hrun : fat32AppendFile M fuel d e data s = some ((data.length, e'), s'))
    (halloc : ∀ x ∈ s'.allocs, M.InRange x) :
    ∃ V1 l1 A1 V2, V.Rewrites l V1 l1 ∧ V2 = V1.setData c (setSlot (V.data c) i e') ∧
      M.At s' V2 A1 ∧ M.WellFormedFile V2 e' l1 ∧ M.LiveAt V2 c i ∧ V2.slot c i = e' ∧ e.Like e' ∧
      e'.fileSize = e.fileSize + data.length ∧
      (V2.bytes l1).take e'.fileSize = (V.bytes l).take e.fileSize ++ data := by
  obtain ⟨s1, V1, A1, l1, e1, hat1, hl1, hrw, he1, hcase⟩ := appendFile_spec hM hat hfile.isFile
    hfile.clusters hrun halloc
  rcases hcase with ⟨hgave, -⟩ | ⟨-, -, he', ⟨r, hdirw⟩, hfacts⟩
  · rcases hgave with h | h
    · exact absurd h hdata
    · exact absurd h (Nat.lt_irrefl _)
  · obtain ⟨hlen1, rest, hbytes1⟩ := hfacts hfile.length
    have hu : u32 (e.fileSize + data.length) = e.fileSize + data.length := Nat.mod_eq_of_lt hsum
    rw [hu] at he'
    have hlike : e.Like e' := by
      rw [he']
      exact (Slot.Like.of_start he1).trans (Slot.Like.setFileSize e1 _)
    have hsize' : e'.fileSize = e.fileSize + data.length := by
      rw [he', e1.fileSize_setFileSize hsum]
    have hcl' : e'.cluster = e1.cluster := by rw [he', e1.cluster_setFileSize]
    have hvalid' : isValidSfnEntry e' = true := by
      rw [hlike.valid, ← hslot]
      exact hlive.valid
    -- the directory is as before
    have hdisj1 : ∀ x ∈ dl, x ∉ l1 := hrw.disjoint hdir.fileOn hdisj
    obtain ⟨hat2, hlive2, hslot2⟩ := hrw.storeEntry hM hat1 hdir hdisj hc hlive
      (by rw [hslot, hlike.name]) hvalid'
      (fun x hx j h1 h2 => hunique x hx j h1 (by rw [h2, hlike.name])) hdirw
    have hl2 : M.FileOn (V1.setData c (setSlot (V.data c) i e')) e'.cluster l1 := by
      rw [hcl']
      exact hl1.congr (fun x _ => rfl)
    have hbytes2 : (V1.setData c (setSlot (V.data c) i e')).bytes l1 = V1.bytes l1 := by
      refine Volume.bytes_congr (fun x hx => ?_)
      rw [Volume.setData_data, Function.update_of_ne]
      rintro rfl
      exact hdisj1 x hc hx
    have hfits : e.fileSize ≤ (V.bytes l).length := by
      rw [Volume.bytes_length (fun x hx => hat.data_length (hfile.clusters.1 x hx)), hfile.length]
      exact hM.le_clustersFor e.fileSize
    refine ⟨V1, l1, A1, _, hrw, rfl, hat2, ⟨hlike.isDirectory.trans hfile.isFile, hl2, ?_⟩, hlive2,
      hslot2, hlike, hsize', ?_⟩
    · rw [hlen1, hsize']
    · rw [hbytes2, hbytes1, hsize', List.take_left']
      rw [List.length_append, List.length_take, min_eq_left hfits]

/-- A well-formed file is read as the bytes of its clusters, up to its size. -/
theorem readFile_wellFormed {e : Slot} {l : List Nat} (hat : M.At s V A)
    (hfile : M.WellFormedFile V e l) (hsize : e.fileSize + M.clusterSize ≤ 2 ^ 32) :
    ∃ t, Prog.Ends (fun fuel => fat32ReadFile M fuel e) s (e.fileSize, V.bytes l) t := by
  have hle : e.fileSize ≤ l.length * M.clusterSize := by
    rw [hfile.length]
    exact hM.le_clustersFor e.fileSize
  have hnil : l = [] → e.fileSize = 0 := by
    rintro rfl
    rw [List.length_nil, Nat.zero_mul] at hle
    omega
  obtain ⟨t, -, hread⟩ := readFile_ends hM hat hfile.isFile hfile.clusters hsize hnil
  rw [← hfile.length, List.take_length, min_eq_left hle] at hread
  exact ⟨t, hread⟩

/-- What `FAT32_AppendFile` does to a well-formed file whose entry is the only one with its name
in the directory, when it returns the size of the data. -/
theorem appendFile_law {fuel d c i : Nat} {e e' : Slot} {l dl : List Nat} {data : List UInt8}
    (hq : s.faults = []) (hfile : M.WellFormedFile (M.view s) e l)
    (hdir : M.DirOn (M.view s) d dl) (hdisj : ∀ x ∈ dl, x ∉ l) (hc : c ∈ dl)
    (hlive : M.LiveAt (M.view s) c i) (hslot : (M.view s).slot c i = e)
    (hunique : ∀ x ∈ dl, ∀ j, M.LiveAt (M.view s) x j → ((M.view s).slot x j).name = e.name →
      x = c ∧ j = i)
    (hdata : data ≠ []) (hsum : e.fileSize + data.length + M.clusterSize ≤ 2 ^ 32)
    (hrun : fat32AppendFile M fuel d e data s = some ((data.length, e'), s'))
    (halloc : ∀ x ∈ s'.allocs, M.InRange x) : AppendLaw M s s' e e' c i data := by
  have hpos := hM.clusterSize_pos
  have hat : M.At s (M.view s) s.allocs := ⟨hq, rfl, rfl⟩
  obtain ⟨V1, l1, A1, V2, -, -, hat2, hfile2, hlive2, hslot2, -, hsize', hbytes⟩ :=
    appendFile_appended hM hat hfile hdir hdisj hc hlive hslot hunique hdata (by omega) hrun halloc
  obtain ⟨t, hread⟩ := readFile_wellFormed hM hat hfile (by omega)
  obtain ⟨t', hread'⟩ := readFile_wellFormed hM hat2 hfile2 (by rw [hsize']; exact hsum)
  refine ⟨hsize', ⟨_, _, t, t', hread, hread', hbytes⟩, ⟨l1, ?_⟩, ?_⟩
  · rw [hat2.view]
    exact hfile2
  · rw [hat2.view]
    exact ⟨hlive2, hslot2⟩

end Sound

/-- Appending to a file of 600 bytes, into its second cluster and a third one. -/
theorem appendFile_law_small :
    ∃ e' s', fat32AppendFile (smallMount ⟨true, true⟩) 8 2 smallEntry (List.replicate 500 66)
        smallFile = some ((500, e'), s') ∧
      AppendLaw (smallMount ⟨true, true⟩) smallFile s' smallEntry e' 2 0
        (List.replicate 500 66) := by
  have hval : (fat32AppendFile (smallMount ⟨true, true⟩) 8 2 smallEntry (List.replicate 500 66)
      smallFile).map (fun p => (p.1.1, p.2.allocs)) = some (500, [5]) := by decide +kernel
  obtain ⟨⟨⟨r, e'⟩, s'⟩, hrun, hr⟩ := Option.map_eq_some_iff.mp hval
  simp only [Prod.mk.injEq] at hr
  obtain ⟨rfl, halloc⟩ := hr
  refine ⟨e', s', hrun, ?_⟩
  have hfile : (smallMount ⟨true, true⟩).WellFormedFile ((smallMount ⟨true, true⟩).view smallFile)
      smallEntry [3, 4] := by decide +kernel
  have hdir : (smallMount ⟨true, true⟩).DirOn ((smallMount ⟨true, true⟩).view smallFile) 2 [2] := by
    decide +kernel
  have hrun' : fat32AppendFile (smallMount ⟨true, true⟩) 8 2 smallEntry (List.replicate 500 66)
      smallFile = some (((List.replicate 500 (66 : UInt8)).length, e'), s') := by
    rw [List.length_replicate]
    exact hrun
  have hfirst : ∀ j, j < 16 → (smallMount ⟨true, true⟩).LiveAt
      ((smallMount ⟨true, true⟩).view smallFile) 2 j → j = 0 := by decide +kernel
  refine appendFile_law (smallMount_sound _) rfl hfile hdir (by decide) (by decide)
    (by decide +kernel) (by decide +kernel) ?_ (by decide +kernel) (by decide +kernel) hrun' ?_
  · intro x hx j hlive _
    obtain rfl := List.mem_singleton.mp hx
    exact ⟨rfl, hfirst j hlive.lt hlive⟩
  · rw [halloc]
    decide +kernel

/-! ## A cluster number from outside the volume -/

theorem noClusters_lt : 0 < 2 ^ 32 := by decide

/-- The same volume with the hint at 256, whose word in the table is the first one of cluster 3. -/
def strayFile : FsState :=
  { smallFile with
    free := { freeClusters := 0, nextFreeCluster := 256, count_lt := noClusters_lt, hint_lt := by decide } }

/-- That the clusters handed out are none of the file and of the directory is not enough: 256 is
the number of no cluster of the volume, and marking it as taken writes into the file. -/
theorem appendFile_not_law :
    ¬ ∀ (M : Mount) (s s' : FsState) (fuel d c i : Nat) (e e' : Slot) (l dl : List Nat)
      (data : List UInt8), M.Sound → s.faults = [] → M.WellFormedFile (M.view s) e l →
      M.DirOn (M.view s) d dl → (∀ x ∈ dl, x ∉ l) → c ∈ dl → M.LiveAt (M.view s) c i →
      (M.view s).slot c i = e →
      (∀ x ∈ dl, ∀ j, M.LiveAt (M.view s) x j → ((M.view s).slot x j).name = e.name →
        x = c ∧ j = i) →
      data ≠ [] → e.fileSize + data.length + M.clusterSize ≤ 2 ^ 32 →
      fat32AppendFile M fuel d e data s = some ((data.length, e'), s') →
      (∀ x ∈ s'.allocs, x ∉ l ∧ x ∉ dl) → AppendLaw M s s' e e' c i data := by
  intro h
  have hval : (fat32AppendFile (smallMount ⟨true, true⟩) 8 2 smallEntry (List.replicate 425 66)
      strayFile).bind (fun p => (fat32ReadFile (smallMount ⟨true, true⟩) 8 p.1.2 p.2).map fun q =>
        (p.1.1, p.2.allocs, p.1.2.fileSize, q.1.1, q.1.2.headD 0)) =
      some (425, [256], 1025, 1025, 0xF8) := by decide +kernel
  have hold : (fat32ReadFile (smallMount ⟨true, true⟩) 8 smallEntry strayFile).map
      (fun q => (q.1.1, q.1.2.headD 0)) = some (600, 0) := by decide +kernel
  obtain ⟨⟨⟨n, e'⟩, s'⟩, hrun, hval⟩ := Option.bind_eq_some_iff.mp hval
  obtain ⟨⟨⟨m, new⟩, t'⟩, hnew, hval⟩ := Option.map_eq_some_iff.mp hval
  obtain ⟨⟨⟨k, old⟩, t⟩, hread, hold⟩ := Option.map_eq_some_iff.mp hold
  simp only [Prod.mk.injEq] at hval hold
  obtain ⟨rfl, halloc, hsize, rfl, hfirst⟩ := hval
  obtain ⟨rfl, hfirst'⟩ := hold
  have hfile : (smallMount ⟨true, true⟩).WellFormedFile ((smallMount ⟨true, true⟩).view strayFile)
      smallEntry [3, 4] := by decide +kernel
  have hdir : (smallMount ⟨true, true⟩).DirOn ((smallMount ⟨true, true⟩).view strayFile) 2 [2] := by
    decide +kernel
  have hlive : ∀ j, j < 16 → (smallMount ⟨true, true⟩).LiveAt
      ((smallMount ⟨true, true⟩).view strayFile) 2 j → j = 0 := by decide +kernel
  have hrun' : fat32AppendFile (smallMount ⟨true, true⟩) 8 2 smallEntry (List.replicate 425 66)
      strayFile = some (((List.replicate 425 (66 : UInt8)).length, e'), s') := by
    rw [List.length_replicate]
    exact hrun
  have hlaw := h _ _ _ _ _ 2 0 _ _ _ _ _ (smallMount_sound _) rfl hfile hdir (by decide)
    (by decide) (by decide +kernel) (by decide +kernel)
    (fun x hx j hj _ => by
      obtain rfl := List.mem_singleton.mp hx
      exact ⟨rfl, hlive j hj.lt hj⟩)
    (by decide +kernel) (by decide +kernel) hrun' (by rw [halloc]; decide)
  -- the first byte of the file has changed
  obtain ⟨old', new', u, u', hends, hends', hbytes⟩ := hlaw.reads
  have h1 := ((readFile_ended hread).unique hends).1
  have h2 := ((readFile_ended hnew).unique hends').1
  obtain rfl : old = old' := (Prod.mk.inj h1).2
  obtain rfl : new = new' := (Prod.mk.inj h2).2
  have hhead := congrArg (fun bs => List.headD bs 0) hbytes
  have hsize0 : smallEntry.fileSize = 600 := by decide +kernel
  obtain ⟨rest, hrest⟩ : ∃ rest, List.replicate 425 (66 : UInt8) = 66 :: rest :=
    ⟨List.replicate 424 66, List.replicate_succ⟩
  rw [hsize, hsize0, hrest] at hhead
  cases new with
  | nil => cases hfirst
  | cons b new =>
      cases old with
      | nil =>
          simp only [List.headD_cons] at hfirst
          simp [hfirst] at hhead
      | cons a old =>
          simp only [List.headD_cons] at hfirst hfirst'
          simp [hfirst, hfirst'] at hhead

end Os003
