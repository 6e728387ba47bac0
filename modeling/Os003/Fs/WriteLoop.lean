import Os003.Fs.Commands
import Os003.Fs.Supply

set_option autoImplicit false

/-! # The loop of `FAT32_WriteFile`

The loop writes the data chunk by chunk along the chain of the file and extends the chain where it
is too short. What one turn does is said once (`writeLoop_turn`); from it follow, by induction over
the turns, what the whole loop makes of the file and which clusters it takes.
-/

namespace Os003

open Bytes Linked

section Sound

variable {M : Mount} (hM : M.Sound) {s s' : FsState} {V : Volume} {A : List Nat}
include hM

/-! ## A chunk of the data -/

/-- `n` bytes of `data`, from position `w` on, have been written at offset `off` of the cluster behind
`p`. -/
structure Mount.Chunk (M : Mount) (V V1 : Volume) (start : Nat) (p q : List Nat)
    (cluster off w n : Nat) (data : List UInt8) : Prop where
  fat : V1.fat = V.fat
  clusters : M.FileOn V1 start (p ++ cluster :: q)
  rewrites : V.Rewrites (p ++ cluster :: q) V1 (p ++ cluster :: q)
  /-- On any list that goes on behind `cluster`. -/
  bytes : ∀ rest, (p ++ cluster :: rest).Nodup → (∀ c ∈ p ++ cluster :: rest, M.InRange c) →
    V1.bytes (p ++ cluster :: rest) = splice (V.bytes (p ++ cluster :: rest))
      (p.length * M.clusterSize + off) ((data.drop w).take n)

theorem writeChunk_chunk {data : List UInt8} {start cluster off w n : Nat} {p q : List Nat}
    (hat : M.At s V A) (hl : M.FileOn V start (p ++ cluster :: q)) (hfit : off + n ≤ M.clusterSize)
    (hsrc : w + n ≤ data.length) :
    ∃ s1 V1, writeChunk M cluster off n (data.drop w) s = some (0, s1) ∧ M.At s1 V1 A ∧
      M.Chunk V V1 start p q cluster off w n data := by
  have hlen : ((data.drop w).take n).length = n := by
    rw [List.length_take, List.length_drop]
    omega
  have hroom : n ≤ (data.drop w).length := by
    rw [List.length_drop]
    omega
  obtain ⟨s1, hchunk, hat1⟩ := writeChunk_at hM hat (hl.1 cluster (by simp)) hfit hroom
  refine ⟨s1, _, hchunk, hat1, rfl, hl.congr (fun _ _ => rfl), rewrites_setData (by simp) _, ?_⟩
  intro rest hnodup hrest
  rw [Volume.bytes_setData (fun b hb => hat.data_length (hrest b hb)) hnodup
    (by rw [hlen]; exact hfit)]

omit hM in
/-- A chunk up to the end of its cluster, and all the data behind it. -/
theorem Mount.Chunk.combine {V1 V' : Volume} {data : List UInt8} {start cluster off w n : Nat}
    {p q L : List Nat} (h : M.Chunk V V1 start p q cluster off w n data) (hat : M.At s V A)
    (hsrc : w + n ≤ data.length) (hfull : off + n = M.clusterSize)
    (hV' : V'.bytes L =
      splice (V1.bytes L) ((p ++ [cluster]).length * M.clusterSize) (data.drop (w + n)))
    (hkept : (p ++ [cluster]) <+: L) (hnodup : L.Nodup) (hin : ∀ c ∈ L, M.InRange c) :
    V'.bytes L = splice (V.bytes L) (p.length * M.clusterSize + off) (data.drop w) := by
  obtain ⟨rest, rfl⟩ := hkept
  have hassoc : p ++ [cluster] ++ rest = p ++ cluster :: rest := by simp
  have hpos : (p ++ [cluster]).length * M.clusterSize = p.length * M.clusterSize + off + n := by
    rw [List.length_append, List.length_singleton, Nat.succ_mul]
    omega
  rw [hassoc] at hV' hnodup hin ⊢
  have hroom : p.length * M.clusterSize + off + n ≤ (V.bytes (p ++ cluster :: rest)).length := by
    rw [Volume.bytes_length (fun b hb => hat.data_length (hin b hb)), List.length_append,
      List.length_cons, Nat.add_mul, Nat.succ_mul]
    omega
  rw [hV', h.bytes rest hnodup hin, hpos, splice_take_drop _ _ _ _ _ hsrc hroom]

omit hM in
/-- At an end mark the chain is at its end. -/
theorem Mount.FileOn.eq_nil_of_eof {start cluster : Nat} {p q : List Nat}
    (hl : M.FileOn V start (p ++ cluster :: q)) (heof : V.fat cluster ≥ fat32EntryEof) : q = [] := by
  cases q with
  | nil => rfl
  | cons b q =>
      have hchain := hl.chain (by simp)
      have hnot := Chain.not_stop hchain
      rw [← Chain.next_eq hchain] at hnot
      exact absurd heof hnot

/-! ## The loop -/

omit hM in
/-- A chunk that fills its cluster, and what the turns to come make of the file. -/
theorem Mount.Chunk.onward {V1 V' : Volume} {data : List UInt8} {start cluster : Nat}
    {p q L : List Nat}
    (h : M.Chunk V V1 start p q cluster 0 (p.length * M.clusterSize) M.clusterSize data)
    (hat : M.At s V A) (hsrc : (p ++ [cluster]).length * M.clusterSize ≤ data.length)
    (hall : M.Extends V start (p ++ cluster :: q) V' L) (hkept : (p ++ [cluster]) <+: L)
    (hbytes : V'.bytes L = splice (V1.bytes L) ((p ++ [cluster]).length * M.clusterSize)
      (data.drop ((p ++ [cluster]).length * M.clusterSize))) :
    V'.bytes L = splice (V.bytes L) (p.length * M.clusterSize)
      (data.drop (p.length * M.clusterSize)) := by
  have hstep : (p ++ [cluster]).length * M.clusterSize =
      p.length * M.clusterSize + M.clusterSize := by
    rw [List.length_append, List.length_singleton, Nat.succ_mul]
  have hbytes' : V'.bytes L = splice (V1.bytes L) ((p ++ [cluster]).length * M.clusterSize)
      (data.drop (p.length * M.clusterSize + M.clusterSize)) := by rw [hbytes, hstep]
  have hcomb := h.combine hat (by omega) (Nat.zero_add _) hbytes' hkept hall.clusters.nodup
    hall.clusters.1
  rwa [Nat.add_zero] at hcomb

/-- How a turn of the loop in the cluster between `p` and `q` of the file goes on when it has
written `n` bytes and left the state `s1`. -/
inductive Mount.Turn (M : Mount) (data : List UInt8) (fuel : Nat) (p q : List Nat)
    (cluster n : Nat) (s1 : FsState) (exit : LoopExit) (s' : FsState) : Prop
  /-- All data are written. -/
  | done (hall : p.length * M.clusterSize + n = data.length)
      (hexit : exit = .done data.length cluster) (hstate : s' = s1)
  /-- The chain ends and no cluster is free. -/
  | full (hmore : (p ++ [cluster]).length * M.clusterSize < data.length) (s2 : FsState)
      (hreads : s1.Reads s2) (halloc : fat32AllocCluster M fuel s2 = some (0, s'))
      (hexit : exit = .early ((p ++ [cluster]).length * M.clusterSize)) (hq : q = [])
  /-- The chain ends, and a new cluster is linked behind it. -/
  | linked (hmore : (p ++ [cluster]).length * M.clusterSize < data.length)
      (hn : n = M.clusterSize) (s2 s3 s4 : FsState) (r : Nat) (hreads : s1.Reads s2)
      (halloc : fat32AllocCluster M fuel s2 = some (r, s3)) (hr : r ≠ 0)
      (hlink : fat32WriteFatEntry M cluster r s3 = some (0, s4)) (hq : q = [])
      (hgo : writeLoop M data fuel r ((p ++ [cluster]).length * M.clusterSize) s4 = some (exit, s'))
  /-- The chain goes on. -/
  | next (hmore : (p ++ [cluster]).length * M.clusterSize < data.length)
      (hn : n = M.clusterSize) (s2 : FsState) (b : Nat) (t : List Nat) (hreads : s1.Reads s2)
      (hq : q = b :: t)
      (hgo : writeLoop M data fuel b ((p ++ [cluster]).length * M.clusterSize) s2 = some (exit, s'))

/-- A turn of the loop of `FAT32_WriteFile` in the cluster behind `p`: it writes the last bytes of
the data, or a whole cluster of them and goes on. -/
theorem writeLoop_turn {data : List UInt8} {fuel start cluster : Nat} {p q : List Nat}
    {exit : LoopExit} (hat : M.At s V A) (hl : M.FileOn V start (p ++ cluster :: q))
    (hlt : p.length * M.clusterSize < data.length)
    (hrun : writeLoop M data (fuel + 1) cluster (p.length * M.clusterSize) s = some (exit, s')) :
    ∃ n s1 V1, n ≤ M.clusterSize ∧ p.length * M.clusterSize + n ≤ data.length ∧
      writeChunk M cluster 0 n (data.drop (p.length * M.clusterSize)) s = some (0, s1) ∧
      M.At s1 V1 A ∧ M.Chunk V V1 start p q cluster 0 (p.length * M.clusterSize) n data ∧
      M.Turn data fuel p q cluster n s1 exit s' := by
  have hpos := hM.clusterSize_pos
  have hcin : M.InRange cluster := hl.1 cluster (by simp)
  have hstep : (p ++ [cluster]).length * M.clusterSize =
      p.length * M.clusterSize + M.clusterSize := by
    rw [List.length_append, List.length_singleton, Nat.succ_mul]
  obtain ⟨n, hn⟩ : ∃ n, (if data.length - p.length * M.clusterSize < M.clusterSize then
    data.length - p.length * M.clusterSize else M.clusterSize) = n := ⟨_, rfl⟩
  have hnle : n ≤ M.clusterSize ∧ p.length * M.clusterSize + n ≤ data.length := by
    rw [← hn]
    split <;> omega
  have hfit : 0 + n ≤ M.clusterSize := by omega
  obtain ⟨s1, V1, hchunk, hat1, hV1⟩ := writeChunk_chunk hM hat hl hfit hnle.2
  refine ⟨n, s1, V1, hnle.1, hnle.2, hchunk, hat1, hV1, ?_⟩
  rw [writeLoop, if_pos hlt] at hrun
  simp only [hn] at hrun
  rw [Prog.bind_run hchunk, if_neg (by omega)] at hrun
  by_cases hdone : p.length * M.clusterSize + n ≥ data.length
  · have hall : p.length * M.clusterSize + n = data.length := by omega
    rw [if_pos hdone, Prog.pure_run, hall] at hrun
    cases hrun
    exact .done hall rfl rfl
  -- more data are left than the cluster holds
  have hfull : n = M.clusterSize := by
    rw [← hn] at hdone ⊢
    split at hdone <;> split <;> omega
  have hmore : (p ++ [cluster]).length * M.clusterSize < data.length := by omega
  obtain ⟨s2, hnext, hr2⟩ := nextCluster_at hM hat1 hcin.hasEntry
  rw [if_neg hdone, Prog.bind_run hnext, hfull, ← hstep] at hrun
  simp only [hV1.fat] at hrun
  by_cases heof : V.fat cluster ≥ fat32EntryEof
  · rw [if_pos heof] at hrun
    have hq := hl.eq_nil_of_eof heof
    obtain ⟨r, s3, halloc, hgo⟩ := Prog.bind_eq_some.mp hrun
    by_cases hr : r = 0
    · subst hr
      rw [if_pos rfl, Prog.pure_run] at hgo
      cases hgo
      exact .full hmore s2 hr2 halloc rfl hq
    · have hquiet : s3.faults = [] :=
        fat32AllocCluster_steps M.keeps_quiet fuel s2 r s3 halloc (hr2.stays hat1).quiet
      have hlink := fat32WriteFatEntry_run hM hquiet (hcin.hasEntry.lt hM) r
      rw [if_neg hr, Prog.bind_run hlink, if_neg (by omega)] at hgo
      exact .linked hmore hfull s2 s3 _ r hr2 halloc hr hlink hq hgo
  · rw [if_neg heof] at hrun
    have hchain := hl.chain (by simp)
    obtain ⟨b, t, rfl⟩ : ∃ b t, q = b :: t := by
      cases q with
      | nil => exact absurd (Chain.stop_last hchain) heof
      | cons b t => exact ⟨b, t, rfl⟩
    have hb : V.fat cluster = b := Chain.next_eq hchain
    rw [hb] at hrun
    exact .next hmore hfull s2 b t hr2 rfl hrun

/-- What the loop of `FAT32_WriteFile` has done to a file with the clusters `l` when it has
written all of `data`: the new clusters are `L`, and the last one written is `cluster`. -/
structure LoopDone (M : Mount) (V V' : Volume) (l L : List Nat) (data : List UInt8)
    (start cluster : Nat) : Prop where
  bytes : V'.bytes L = splice (V.bytes L) start (data.drop start)
  last : ∃ p q, L = p ++ cluster :: q ∧ p.length * M.clusterSize < data.length ∧
    data.length ≤ (p.length + 1) * M.clusterSize ∧ (q ≠ [] → L = l)

omit hM in
/-- When the data reach behind the old chain, the last cluster written is the last one. -/
theorem LoopDone.behind {V1 V4 V' : Volume} {p L l' : List Nat} {data : List UInt8}
    {start start' cluster r c : Nat} (h : LoopDone M V4 V' ((p ++ [cluster]) ++ [r]) L data start c)
    (hmore : (p ++ [cluster]).length * M.clusterSize < data.length)
    (hbytes : V'.bytes L = splice (V1.bytes L) start' (data.drop start')) :
    LoopDone M V1 V' l' L data start' c := by
  obtain ⟨p', q', hL, h1, h2, h3⟩ := h.last
  refine ⟨hbytes, p', q', hL, h1, h2, ?_⟩
  intro hq'
  exfalso
  have hlens := congrArg List.length (hL.symm.trans (h3 hq'))
  simp only [List.length_append, List.length_cons, List.length_nil] at hlens hmore
  have hq1 : 0 < q'.length := List.length_pos_of_ne_nil hq'
  have hp' : (p'.length + 1) * M.clusterSize ≤ (p.length + 0 + 1) * M.clusterSize :=
    Nat.mul_le_mul_right _ (by omega)
  simp only [Nat.add_zero, Nat.zero_add] at hp' hmore
  omega

/-- The loop of `FAT32_WriteFile` in the cluster behind `p`. -/
theorem writeLoop_spec {data : List UInt8} {fuel start cluster : Nat} {p q : List Nat}
    {exit : LoopExit} (hat : M.At s V A) (hl : M.FileOn V start (p ++ cluster :: q))
    (hlt : p.length * M.clusterSize < data.length)
    (hrun : writeLoop M data fuel cluster (p.length * M.clusterSize) s = some (exit, s'))
    (halloc : ∀ c ∈ s'.allocs, M.InRange c) :
    ∃ V' A' L, M.At s' V' A' ∧ M.Extends V start (p ++ cluster :: q) V' L ∧
      ((∃ w, exit = .early w ∧ w < data.length) ∨
        ∃ c, exit = .done data.length c ∧
          LoopDone M V V' (p ++ cluster :: q) L data (p.length * M.clusterSize) c) := by
  have hG := M.keeps_grows
  -- by the clusters still to write, after `writeLoop_turn`: the data end here, the disk is full, the
  -- chain grows by one cluster, or it goes on as it did
  induction fuel generalizing s V A cluster p q with
  | zero => cases hrun
  | succ fuel ih =>
      obtain ⟨n, s1, V1, hnle, hsrc, -, hat1, hV1, hturn⟩ := writeLoop_turn hM hat hl hlt hrun
      have hnow : M.Extends V start (p ++ cluster :: q) V1 (p ++ cluster :: q) :=
        ⟨hV1.clusters, List.prefix_refl _, hV1.rewrites⟩
      cases hturn with
      | done hall hexit hstate =>
          subst hstate
          refine ⟨V1, A, p ++ cluster :: q, hat1, hnow, Or.inr ⟨cluster, hexit, ?_, p, q, rfl, hlt,
            ?_, fun _ => rfl⟩⟩
          · rw [hV1.bytes q hl.nodup hl.1, Nat.add_zero, List.take_of_length_le]
            rw [List.length_drop]
            omega
          · rw [Nat.succ_mul]
            omega
      | full hmore s2 hr2 hrun2 hexit hq =>
          subst hq
          rcases linkCluster_at hM (hr2.stays hat1) hV1.clusters hrun2 halloc with
            ⟨-, hr3⟩ | ⟨h0, -⟩
          · exact ⟨V1, A, _, hr3.stays (hr2.stays hat1), hnow, Or.inl ⟨_, hexit, hmore⟩⟩
          · exact absurd rfl h0
      | linked hmore hn s2 s3 s4 r hr2 hrun2 hr0 hlink hq hgo =>
          subst hq hn
          have halloc4 := grows_before (writeLoop_steps hG data fuel r _) hgo halloc
          have halloc3 := grows_before (fat32WriteFatEntry_steps hG cluster r) hlink halloc4
          rcases linkCluster_at hM (hr2.stays hat1) hV1.clusters hrun2 halloc3 with
            ⟨h0, -⟩ | ⟨-, s4', V4, hlink', hat4, hext, hdata4⟩
          · exact absurd h0 hr0
          rw [hlink] at hlink'
          cases hlink'
          have hassoc : p ++ [cluster, r] = (p ++ [cluster]) ++ r :: [] := by simp
          rw [hassoc] at hext
          obtain ⟨V', A', L, hat', hext', hexit⟩ := ih hat4 hext.clusters hmore hgo
          have hall : M.Extends V start (p ++ [cluster]) V' L := hnow.trans (hext.trans hext')
          refine ⟨V', A', L, hat', hall, ?_⟩
          rcases hexit with h | ⟨c, hc, hrest⟩
          · exact Or.inl h
          · refine Or.inr ⟨c, hc, hrest.behind hmore ?_⟩
            have hbytes4 : V4.bytes L = V1.bytes L := Volume.bytes_congr (fun c _ => by rw [hdata4])
            exact hV1.onward hat hmore.le hall hall.kept (by rw [hrest.bytes, hbytes4])
      | next hmore hn s2 b t hr2 hq hgo =>
          subst hq hn
          have hassoc : p ++ cluster :: b :: t = (p ++ [cluster]) ++ b :: t := by simp
          have hl1 := hV1.clusters
          rw [hassoc] at hl1
          obtain ⟨V', A', L, hat', hext', hexit⟩ := ih (hr2.stays hat1) hl1 hmore hgo
          rw [← hassoc] at hext' hexit
          have hall := hnow.trans hext'
          refine ⟨V', A', L, hat', hall, ?_⟩
          rcases hexit with h | ⟨c, hc, hrest⟩
          · exact Or.inl h
          · have hkept : (p ++ [cluster]) <+: L :=
              List.IsPrefix.trans ⟨b :: t, by simp⟩ hall.kept
            exact Or.inr ⟨c, hc, hV1.onward hat hmore.le hall hkept hrest.bytes, hrest.last⟩

/-- With a supply of clusters for what the file lacks, the loop hands out clusters of the volume
only. -/
theorem writeLoop_supplied {data : List UInt8} {fuel start cluster : Nat} {p q : List Nat}
    {exit : LoopExit} (ht : 1 ≤ M.info.totalClusters) (hat : M.At s V A)
    (hl : M.FileOn V start (p ++ cluster :: q)) (hlt : p.length * M.clusterSize < data.length)
    (hrun : writeLoop M data fuel cluster (p.length * M.clusterSize) s = some (exit, s'))
    (hrec : ∀ c ∈ s.allocs, M.InRange c)
    (hsupply : M.Supplies s (p ++ cluster :: q)
      (M.clustersFor data.length - (p ++ cluster :: q).length)) :
    ∀ c ∈ s'.allocs, M.InRange c := by
  induction fuel generalizing s V A cluster p q with
  | zero => cases hrun
  | succ fuel ih =>
      obtain ⟨n, s1, V1, hnle, hsrc, hchunk, hat1, hV1, hturn⟩ := writeLoop_turn hM hat hl hlt hrun
      have hcin : M.InRange cluster := hl.1 cluster (by simp)
      rw [hat.allocs, ← hat1.allocs] at hrec
      have hsupply1 := hsupply.writeChunk hM hat hcin (by simp) (by omega)
        (by rw [List.length_drop]; omega) hchunk
      cases hturn with
      | done hall hexit hstate => rwa [hstate]
      | full hmore s2 hr2 hrun2 hexit hq =>
          rcases allocCluster_shape hM (hr2.stays hat1) hrun2 with ⟨-, hr3⟩ | ⟨h2, -⟩
          · rwa [hr3.allocs, hr2.allocs]
          · omega
      | linked hmore hn s2 s3 s4 r hr2 hrun2 hr0 hlink hq hgo =>
          subst hq
          -- the data need a cluster that the file does not have
          have hneed : (p ++ [cluster]).length < M.clustersFor data.length := by
            by_contra hle
            have := (hM.clustersFor_le_iff data.length _).mp (Nat.not_lt.mp hle)
            omega
          obtain ⟨k, hk⟩ : ∃ k, M.clustersFor data.length - (p ++ [cluster]).length = k + 1 :=
            ⟨M.clustersFor data.length - (p ++ [cluster]).length - 1, by omega⟩
          rw [hk] at hsupply1
          have hused : V1.fat cluster ≠ fat32EntryFree := hV1.clusters.fat_ne_free (by simp)
          obtain ⟨hrin, hsupply4⟩ := (hsupply1.reads hr2).link hM ht (hr2.stays hat1) hcin hused
            hrun2 hr0 hlink
          have hrec3 := allocCluster_recorded hM (hr2.stays hat1) hrun2 hrin (by rwa [hr2.allocs])
          rcases linkCluster_at hM (hr2.stays hat1) hV1.clusters hrun2 hrec3 with
            ⟨h0, -⟩ | ⟨-, s4', V4, hlink', hat4, hext, -⟩
          · exact absurd h0 hr0
          rw [hlink] at hlink'
          cases hlink'
          have hassoc : p ++ [cluster, r] = (p ++ [cluster]) ++ r :: [] := by simp
          rw [hassoc] at hext
          have hleft : k = M.clustersFor data.length - ((p ++ [cluster]) ++ r :: []).length := by
            rw [List.length_append, List.length_singleton]
            omega
          rw [hleft] at hsupply4
          refine ih hat4 hext.clusters hmore hgo ?_ hsupply4
          rw [hat4.allocs]
          intro c hc
          rcases List.mem_cons.mp hc with rfl | hc
          · exact hrin
          · exact hrec c (by rwa [hat1.allocs])
      | next hmore hn s2 b t hr2 hq hgo =>
          subst hq
          have hassoc : p ++ cluster :: b :: t = (p ++ [cluster]) ++ b :: t := by simp
          have hl1 := hV1.clusters
          have hsupply2 := hsupply1.reads hr2
          rw [hassoc] at hl1 hsupply2
          exact ih (hr2.stays hat1) hl1 hmore hgo (by rwa [hr2.allocs]) hsupply2

end Sound

end Os003
