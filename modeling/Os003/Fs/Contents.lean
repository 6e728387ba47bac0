import Os003.Fs.Alloc
import Os003.Fs.File

set_option autoImplicit false

/-! # The contents of a file

On the abstract volume a file is a list of clusters, and its bytes are those of the clusters one
after the other (`Volume.bytes`). This file says what a well-formed file is, how a write to one
cluster changes the bytes, and what `FAT32_ReadFile` returns.
-/

namespace Os003

open Bytes Linked

/-! ## The bytes of a list of clusters -/

/-- The contents of the clusters, one after the other. -/
def Volume.bytes (V : Volume) (l : List Nat) : List UInt8 := l.flatMap V.data

section Bytes

variable {V V' : Volume}

@[simp] theorem Volume.bytes_nil (V : Volume) : V.bytes [] = [] := rfl

@[simp] theorem Volume.bytes_cons (V : Volume) (c : Nat) (l : List Nat) :
    V.bytes (c :: l) = V.data c ++ V.bytes l := rfl

theorem Volume.bytes_append (V : Volume) (l l' : List Nat) :
    V.bytes (l ++ l') = V.bytes l ++ V.bytes l' := List.flatMap_append

theorem Volume.bytes_congr {l : List Nat} (h : ∀ c ∈ l, V'.data c = V.data c) :
    V'.bytes l = V.bytes l := by
  induction l with
  | nil => rfl
  | cons c l ih =>
      rw [bytes_cons, bytes_cons, h c List.mem_cons_self,
        ih (fun x hx => h x (List.mem_cons_of_mem _ hx))]

theorem Volume.bytes_length {n : Nat} {l : List Nat} (h : ∀ c ∈ l, (V.data c).length = n) :
    (V.bytes l).length = l.length * n := by
  induction l with
  | nil => simp
  | cons c l ih =>
      rw [bytes_cons, List.length_append, h c List.mem_cons_self,
        ih (fun x hx => h x (List.mem_cons_of_mem _ hx)), List.length_cons]
      ring

/-- The bytes of the first clusters are the first bytes. -/
theorem Volume.bytes_take {n : Nat} {l l' : List Nat} (h : ∀ c ∈ l, (V.data c).length = n) :
    (V.bytes (l ++ l')).take (l.length * n) = V.bytes l := by
  rw [bytes_append, ← bytes_length h, List.take_left]

/-- Writing into the cluster behind `p` writes into the bytes. -/
theorem Volume.bytes_setData {n : Nat} {p q : List Nat} {c off : Nat} {bs : List UInt8}
    (hlen : ∀ b ∈ p ++ c :: q, (V.data b).length = n) (hnodup : (p ++ c :: q).Nodup)
    (hbs : off + bs.length ≤ n) :
    (V.setData c (splice (V.data c) off bs)).bytes (p ++ c :: q) =
      splice (V.bytes (p ++ c :: q)) (p.length * n + off) bs := by
  have hp : ∀ b ∈ p, (V.setData c (splice (V.data c) off bs)).data b = V.data b := by
    intro b hb
    rw [setData_data, Function.update_of_ne]
    rintro rfl
    exact (List.nodup_append.mp hnodup).2.2 b hb b List.mem_cons_self rfl
  have hq : ∀ b ∈ q, (V.setData c (splice (V.data c) off bs)).data b = V.data b := by
    intro b hb
    rw [setData_data, Function.update_of_ne]
    rintro rfl
    exact (List.nodup_cons.mp (List.nodup_append.mp hnodup).2.1).1 hb
  have hplen : (V.bytes p).length = p.length * n :=
    bytes_length (fun b hb => hlen b (List.mem_append_left _ hb))
  have hc : (V.data c).length = n := hlen c (by simp)
  calc (V.setData c (splice (V.data c) off bs)).bytes (p ++ c :: q)
      = V.bytes p ++ (splice (V.data c) off bs ++ V.bytes q) := by
        rw [bytes_append, bytes_cons, bytes_congr hp, bytes_congr hq, setData_data,
          Function.update_self]
    _ = splice (V.bytes p ++ (V.data c ++ V.bytes q)) ((V.bytes p).length + off) bs := by
        rw [splice_middle _ _ _ _ _ (by rw [hc]; exact hbs)]
    _ = splice (V.bytes (p ++ c :: q)) (p.length * n + off) bs := by
        rw [hplen, bytes_append, bytes_cons]

end Bytes

/-! ## How many clusters -/

/-- The number of clusters that `n` bytes need. -/
def Mount.clustersFor (M : Mount) (n : Nat) : Nat := (n + M.clusterSize - 1) / M.clusterSize

section ClustersFor

variable {M : Mount} (hM : M.Sound)
include hM

theorem Mount.Sound.clustersFor_le_iff (n k : Nat) :
    M.clustersFor n ≤ k ↔ n ≤ k * M.clusterSize := by
  have hpos := hM.clusterSize_pos
  rw [Mount.clustersFor, ← Nat.lt_succ_iff, Nat.div_lt_iff_lt_mul hpos, Nat.succ_mul]
  omega

theorem Mount.Sound.le_clustersFor (n : Nat) : n ≤ M.clustersFor n * M.clusterSize :=
  (hM.clustersFor_le_iff n _).mp (Nat.le_refl _)

/-- A count of clusters that is enough and not too large is the right one. -/
theorem Mount.Sound.clustersFor_eq {n k : Nat} (h1 : n ≤ k * M.clusterSize)
    (h2 : k * M.clusterSize < n + M.clusterSize) : M.clustersFor n = k := by
  have hle := (hM.clustersFor_le_iff n k).mpr h1
  have hge := hM.le_clustersFor n
  refine Nat.le_antisymm hle ?_
  by_contra hlt
  have hmul : (M.clustersFor n + 1) * M.clusterSize ≤ k * M.clusterSize :=
    Nat.mul_le_mul_right _ (by omega)
  rw [Nat.succ_mul] at hmul
  omega

theorem Mount.Sound.clustersFor_lt (n : Nat) :
    M.clustersFor n * M.clusterSize < n + M.clusterSize := by
  have hpos := hM.clusterSize_pos
  have := Nat.div_mul_le_self (n + M.clusterSize - 1) M.clusterSize
  rw [Mount.clustersFor]
  omega

theorem Mount.Sound.clustersFor_zero : M.clustersFor 0 = 0 := by
  have := (hM.clustersFor_le_iff 0 0).mpr (by omega)
  omega

end ClustersFor

/-! ## Well-formed files -/

/-- The file that starts at `start` consists of the clusters `l` of the volume: none of them if
`start` is 0, otherwise those of a chain. -/
def Mount.FileOn (M : Mount) (V : Volume) (start : Nat) (l : List Nat) : Prop :=
  (∀ c ∈ l, M.InRange c) ∧ (start = 0 ∧ l = [] ∨ V.ChainOf start l)

instance (M : Mount) (V : Volume) (start : Nat) (l : List Nat) : Decidable (M.FileOn V start l) :=
  inferInstanceAs (Decidable (_ ∧ _))

/-- The directory that starts at `d` consists of the clusters `l` of the volume. -/
def Mount.DirOn (M : Mount) (V : Volume) (d : Nat) (l : List Nat) : Prop :=
  V.ChainOf d l ∧ ∀ c ∈ l, M.InRange c

instance (M : Mount) (V : Volume) (d : Nat) (l : List Nat) : Decidable (M.DirOn V d l) :=
  inferInstanceAs (Decidable (_ ∧ _))

theorem Mount.DirOn.fileOn {M : Mount} {V : Volume} {d : Nat} {l : List Nat} (h : M.DirOn V d l) :
    M.FileOn V d l := ⟨h.2, Or.inr h.1⟩

/-- A file whose chain is as long as its size says. -/
structure Mount.WellFormedFile (M : Mount) (V : Volume) (e : Slot) (l : List Nat) : Prop where
  isFile : e.isDirectory = false
  clusters : M.FileOn V e.cluster l
  length : l.length = M.clustersFor e.fileSize

theorem Mount.wellFormedFile_iff (M : Mount) (V : Volume) (e : Slot) (l : List Nat) :
    M.WellFormedFile V e l ↔ e.isDirectory = false ∧ M.FileOn V e.cluster l ∧
      l.length = M.clustersFor e.fileSize :=
  ⟨fun h => ⟨h.isFile, h.clusters, h.length⟩, fun h => ⟨h.1, h.2.1, h.2.2⟩⟩

instance (M : Mount) (V : Volume) (e : Slot) (l : List Nat) :
    Decidable (M.WellFormedFile V e l) :=
  decidable_of_iff _ (M.wellFormedFile_iff V e l).symm

section FileOn

variable {M : Mount} {V V' : Volume} {start : Nat} {l : List Nat}

theorem Mount.FileOn.nil_iff (h : M.FileOn V start l) : l = [] ↔ start = 0 := by
  rcases h with ⟨hin, ⟨h0, hl⟩ | hchain⟩
  · exact ⟨fun _ => h0, fun _ => hl⟩
  · have hmem := hchain.mem_self
    constructor
    · rintro rfl
      cases hmem
    · rintro rfl
      have := (hin 0 hmem).1
      omega

theorem Mount.FileOn.chain (h : M.FileOn V start l) (hl : l ≠ []) : V.ChainOf start l := by
  rcases h with ⟨-, ⟨-, hnil⟩ | hchain⟩
  · exact absurd hnil hl
  · exact hchain

theorem Mount.FileOn.nodup (h : M.FileOn V start l) : l.Nodup := by
  rcases h with ⟨-, ⟨-, rfl⟩ | hchain⟩
  · exact List.nodup_nil
  · exact Chain.nodup hchain

/-- The cells of a chain of clusters are not free. -/
theorem Volume.ChainOf.fat_ne_free (h : V.ChainOf start l) (hin : ∀ c ∈ l, M.InRange c) {c : Nat}
    (hc : c ∈ l) : V.fat c ≠ fat32EntryFree := by
  intro hfree
  rcases Chain.stop_or_mem h hc with hstop | hmem
  · rw [hfree] at hstop
    exact absurd hstop (by decide)
  · have := (hin _ hmem).1
    rw [hfree] at this
    exact absurd this (by decide)

theorem Mount.FileOn.fat_ne_free (h : M.FileOn V start l) {c : Nat} (hc : c ∈ l) :
    V.fat c ≠ fat32EntryFree := by
  rcases h with ⟨hin, ⟨-, rfl⟩ | hchain⟩
  · cases hc
  · exact hchain.fat_ne_free hin hc

/-- A volume with the same entries for its clusters has the same file. -/
theorem Mount.FileOn.congr (h : M.FileOn V start l) (hfat : ∀ c ∈ l, V'.fat c = V.fat c) :
    M.FileOn V' start l := by
  rcases h with ⟨hin, hnil | hchain⟩
  · exact ⟨hin, Or.inl hnil⟩
  · exact ⟨hin, Or.inr (Chain.congr hchain hfat)⟩

/-- A file has one list of clusters. -/
theorem Mount.FileOn.unique {l' : List Nat} (h : M.FileOn V start l) (h' : M.FileOn V start l') : l = l' := by
  by_cases hl : l = []
  · rw [hl, h'.nil_iff.mpr (h.nil_iff.mp hl)]
  · have hl' : l' ≠ [] := fun hn => hl (h.nil_iff.mpr (h'.nil_iff.mp hn))
    exact Chain.unique (h.chain hl) (h'.chain hl')

end FileOn

/-! ## What a change of one file leaves alone -/

/-- From `V` to `V'` a file with the clusters `l` has become one with the clusters `l'`: the new
clusters were free, and no cluster of any other file has changed. -/
structure Volume.Rewrites (V : Volume) (l : List Nat) (V' : Volume) (l' : List Nat) : Prop where
  fresh : ∀ c ∈ l', c ∈ l ∨ V.fat c = fat32EntryFree
  frame : ∀ c, c ∉ l → V.fat c ≠ fat32EntryFree → V'.fat c = V.fat c ∧ V'.data c = V.data c

namespace Volume.Rewrites

variable {V V' V'' : Volume} {l l' l'' : List Nat}

theorem refl (V : Volume) (l : List Nat) : V.Rewrites l V l :=
  ⟨fun _ hc => Or.inl hc, fun _ _ _ => ⟨rfl, rfl⟩⟩

theorem trans (h : V.Rewrites l V' l') (h' : V'.Rewrites l' V'' l'') : V.Rewrites l V'' l'' := by
  have hold : ∀ c, c ∉ l → V.fat c ≠ fat32EntryFree → c ∉ l' := by
    intro c hc hfree hmem
    rcases h.fresh c hmem with h1 | h1
    · exact hc h1
    · exact hfree h1
  refine ⟨?_, ?_⟩
  · intro c hc
    by_cases hl : c ∈ l
    · exact Or.inl hl
    · right
      by_contra hfree
      rcases h'.fresh c hc with h1 | h1
      · exact hold c hl hfree h1
      · rw [(h.frame c hl hfree).1] at h1
        exact hfree h1
  · intro c hl hfree
    obtain ⟨h1, h2⟩ := h.frame c hl hfree
    obtain ⟨h3, h4⟩ := h'.frame c (hold c hl hfree) (by rw [h1]; exact hfree)
    exact ⟨h3.trans h1, h4.trans h2⟩

/-- A file apart from the changed one is still there. -/
theorem fileOn {M : Mount} (h : V.Rewrites l V' l') {start : Nat} {k : List Nat}
    (hk : M.FileOn V start k) (hdisj : ∀ c ∈ k, c ∉ l) : M.FileOn V' start k :=
  hk.congr (fun c hc => (h.frame c (hdisj c hc) (hk.fat_ne_free hc)).1)

theorem disjoint {M : Mount} (h : V.Rewrites l V' l') {start : Nat} {k : List Nat}
    (hk : M.FileOn V start k) (hdisj : ∀ c ∈ k, c ∉ l) : ∀ c ∈ k, c ∉ l' := by
  intro c hc hl'
  rcases h.fresh c hl' with h1 | h1
  · exact hdisj c hc h1
  · exact hk.fat_ne_free hc h1

end Volume.Rewrites

/-- A directory apart from the changed file is still there. -/
theorem Volume.Rewrites.dirOn {M : Mount} {V V' : Volume} {l l' k : List Nat} {d : Nat}
    (h : V.Rewrites l V' l') (hk : M.DirOn V d k) (hdisj : ∀ c ∈ k, c ∉ l) : M.DirOn V' d k :=
  ⟨Chain.congr hk.1 (fun c hc => (h.frame c (hdisj c hc) (hk.1.fat_ne_free hk.2 hc)).1), hk.2⟩

/-- From `V` to `V'` the file at `start` has kept its clusters and got more of them. -/
structure Mount.Extends (M : Mount) (V : Volume) (start : Nat) (l : List Nat) (V' : Volume)
    (l' : List Nat) : Prop where
  clusters : M.FileOn V' start l'
  kept : l <+: l'
  rewrites : V.Rewrites l V' l'

theorem Mount.Extends.trans {M : Mount} {V V' V'' : Volume} {start : Nat} {l l' l'' : List Nat}
    (h : M.Extends V start l V' l') (h' : M.Extends V' start l' V'' l'') :
    M.Extends V start l V'' l'' :=
  ⟨h'.clusters, h.kept.trans h'.kept, h.rewrites.trans h'.rewrites⟩

/-! ## Growing -/

section Grow

variable {M : Mount} (hM : M.Sound) {s s' : FsState} {V : Volume} {A : List Nat}
include hM

/-- The first cluster of an empty file. -/
theorem firstCluster_at {fuel r : Nat} (hat : M.At s V A)
    (hrun : fat32AllocCluster M fuel s = some (r, s')) (halloc : ∀ c ∈ s'.allocs, M.InRange c) :
    (r = 0 ∧ s.Reads s') ∨
      (r ≠ 0 ∧ ∃ V', M.At s' V' (r :: A) ∧ M.FileOn V' r [r] ∧ V.Rewrites [] V' [r] ∧
        V'.data = V.data) := by
  rcases allocCluster_at hM hat hrun halloc with h | ⟨hr, hfree, hat'⟩
  · exact Or.inl h
  · right
    have hr0 : r ≠ 0 := by
      have := hr.1
      omega
    refine ⟨hr0, _, hat', ?_, ⟨?_, ?_⟩, rfl⟩
    · refine ⟨by simpa using hr, Or.inr (Chain.last ?_)⟩
      rw [Volume.setFat_fat, Function.update_self]
      exact Nat.le_refl _
    · intro c hc
      rw [List.mem_singleton.mp hc]
      exact Or.inr hfree
    · intro c _ hc
      have hcr : c ≠ r := by
        rintro rfl
        exact hc hfree
      exact ⟨by rw [Volume.setFat_fat, Function.update_of_ne hcr], rfl⟩

/-- A new cluster, linked behind the last one of a file. -/
theorem linkCluster_at {fuel r start b : Nat} {p : List Nat} (hat : M.At s V A)
    (hl : M.FileOn V start (p ++ [b])) (hrun : fat32AllocCluster M fuel s = some (r, s'))
    (halloc : ∀ c ∈ s'.allocs, M.InRange c) :
    (r = 0 ∧ s.Reads s') ∨
      (r ≠ 0 ∧ ∃ s'' V', fat32WriteFatEntry M b r s' = some (0, s'') ∧ M.At s'' V' (r :: A) ∧
        M.Extends V start (p ++ [b]) V' (p ++ [b, r]) ∧ V'.data = V.data) := by
  have hmax := hM.clusters
  rcases allocCluster_at hM hat hrun halloc with h | ⟨hr, hfree, hat'⟩
  · exact Or.inl h
  · right
    have hr2 : r < M.info.totalClusters + 2 := hr.2
    have hr0 : r ≠ 0 := by
      have := hr.1
      omega
    have hbin : M.InRange b := hl.1 b (by simp)
    have hchain := hl.chain (by simp)
    -- the new cluster was free, so it is none of the file
    have hnew : r ∉ p ++ [b] := fun h => hl.fat_ne_free h hfree
    have hbr : b ≠ r := by
      rintro rfl
      exact hnew (by simp)
    obtain ⟨s'', hwrite, hat''⟩ := writeFatEntry_at hM hat' hbin.hasEntry (v := r) (by omega)
    have hnodup := hl.nodup
    refine ⟨hr0, s'', _, hwrite, hat'', ⟨⟨?_, Or.inr ?_⟩, ?_, ?_, ?_⟩, rfl⟩
    · intro c hc
      have hc' : c ∈ p ++ [b] ∨ c = r := by
        simp only [List.mem_append, List.mem_cons, List.not_mem_nil, or_false] at hc ⊢
        tauto
      rcases hc' with h | rfl
      · exact hl.1 c h
      · exact hr
    · refine Chain.snoc hchain ?_ ?_ ?_ ?_
      · intro x hx
        have hxr : x ≠ r := by
          rintro rfl
          exact hnew (List.mem_append_left _ hx)
        have hxb : x ≠ b := by
          rintro rfl
          exact (List.nodup_append.mp hnodup).2.2 x hx x (by simp) rfl
        rw [Volume.setFat_fat, Function.update_of_ne hxb, Volume.setFat_fat,
          Function.update_of_ne hxr]
      · rw [Volume.setFat_fat, Function.update_self]
      · have heof : fat32EntryEof = 0x0FFFFFF8 := rfl
        show ¬ fat32EntryEof ≤ r
        omega
      · rw [Volume.setFat_fat, Function.update_of_ne hbr.symm, Volume.setFat_fat,
          Function.update_self]
        exact Nat.le_refl _
    · exact ⟨[r], by simp⟩
    · intro c hc
      have hc' : c ∈ p ++ [b] ∨ c = r := by
        simp only [List.mem_append, List.mem_cons, List.not_mem_nil, or_false] at hc ⊢
        tauto
      rcases hc' with h | rfl
      · exact Or.inl h
      · exact Or.inr hfree
    · intro c hc hcfree
      have hcr : c ≠ r := by
        rintro rfl
        exact hcfree hfree
      have hcb : c ≠ b := by
        rintro rfl
        exact hc (by simp)
      exact ⟨by rw [Volume.setFat_fat, Function.update_of_ne hcb, Volume.setFat_fat,
        Function.update_of_ne hcr], rfl⟩

omit hM in
/-- Writing inside one cluster of a file. -/
theorem rewrites_setData {l : List Nat} {c : Nat} (hc : c ∈ l) (buf : List UInt8) :
    V.Rewrites l (V.setData c buf) l := by
  refine ⟨fun x hx => Or.inl hx, ?_⟩
  intro x hx _
  have hxc : x ≠ c := by
    rintro rfl
    exact hx hc
  exact ⟨rfl, by rw [Volume.setData_data, Function.update_of_ne hxc]⟩

omit hM in
theorem Mount.At.splice_length (hat : M.At s V A) {c off n : Nat} (hc : M.InRange c)
    (hn : off + n ≤ M.clusterSize) {src : List UInt8} (hsrc : n ≤ src.length) :
    (splice (V.data c) off (src.take n)).length = M.clusterSize := by
  have hlen := hat.data_length hc
  rw [Bytes.splice_length _ _ _ (by rw [List.length_take]; omega), hlen]

/-- One turn of the loops of `FAT32_WriteFile` and `FAT32_AppendFile` writes its bytes. -/
theorem writeChunk_run (hat : M.At s V A) {c off n : Nat} (hc : M.InRange c)
    (hn : off + n ≤ M.clusterSize) {src : List UInt8} (hsrc : n ≤ src.length) :
    ∃ t, s.Reads t ∧ writeChunk M c off n src s =
      some (0, M.putCluster t c (splice (V.data c) off (src.take n))) := by
  have hbuf := hat.splice_length hc hn hsrc
  by_cases hpart : off > 0 ∨ n < M.clusterSize
  · obtain ⟨t, hread, hr⟩ := readCluster_at hM hat hc
    refine ⟨t, hr, ?_⟩
    rw [writeChunk, if_pos hpart, patchCluster, Prog.bind_run hread]
    exact fat32WriteCluster_run hM (hr.stays hat).quiet hc hbuf
  · -- a whole cluster is written without being read
    obtain ⟨rfl, rfl⟩ : off = 0 ∧ n = M.clusterSize := by omega
    have htake : (src.take M.clusterSize).length = M.clusterSize := by
      rw [List.length_take]
      omega
    have hwhole : splice (V.data c) 0 (src.take M.clusterSize) = src.take M.clusterSize := by
      rw [splice_zero, htake, ← hat.data_length hc, List.drop_length, List.append_nil]
    rw [hwhole]
    refine ⟨s, FsState.Reads.refl s, ?_⟩
    rw [writeChunk, if_neg hpart]
    exact fat32WriteCluster_run hM hat.quiet hc htake

theorem writeChunk_at (hat : M.At s V A) {c off n : Nat} (hc : M.InRange c)
    (hn : off + n ≤ M.clusterSize) {src : List UInt8} (hsrc : n ≤ src.length) :
    ∃ s', writeChunk M c off n src s = some (0, s') ∧
      M.At s' (V.setData c (splice (V.data c) off (src.take n))) A := by
  obtain ⟨t, hr, hrun⟩ := writeChunk_run hM hat hc hn hsrc
  exact ⟨_, hrun, putCluster_at hM (hr.stays hat) hc (hat.splice_length hc hn hsrc)⟩

end Grow

/-! ## Reading -/

/-- A read that has returned returns the same with more fuel. -/
theorem readLoop_more {M : Mount} {s s' : FsState} {size fuel c n : Nat} {out : List UInt8}
    {r : Nat × List UInt8}
    (h : readLoop M size fuel c n out s = some (r, s')) :
    readLoop M size (fuel + 1) c n out s = some (r, s') := by
  induction fuel generalizing c n out s with
  | zero => cases h
  | succ fuel ih =>
      rw [readLoop] at h ⊢
      by_cases hlt : n < size
      · rw [if_pos hlt] at h ⊢
        obtain ⟨⟨st, buf⟩, s1, hread, h⟩ := Prog.bind_eq_some.mp h
        rw [Prog.bind_run hread]
        by_cases hst : st ≠ 0
        · simpa only [if_pos hst] using h
        simp only [if_neg hst] at h ⊢
        by_cases hall : u32 (n + M.clusterSize) ≥ size
        · simpa only [if_pos hall] using h
        simp only [if_neg hall] at h ⊢
        obtain ⟨next, s2, hnext, h⟩ := Prog.bind_eq_some.mp h
        rw [Prog.bind_run hnext]
        cases next with
        | none => exact h
        | some next =>
            by_cases heof : next ≥ fat32EntryEof
            · simpa only [if_pos heof] using h
            · simp only [if_neg heof] at h ⊢
              exact ih h
      · rw [if_neg hlt] at h ⊢
        exact h

theorem readFile_ended {M : Mount} {s s' : FsState} {fuel : Nat} {e : Slot}
    {r : Nat × List UInt8}
    (h : fat32ReadFile M fuel e s = some (r, s')) :
    Prog.Ends (fun fuel => fat32ReadFile M fuel e) s r s' := by
  refine ⟨fuel, fun n hn => ?_⟩
  induction n, hn using Nat.le_induction with
  | base => exact h
  | succ n _ ih =>
      simp only [fat32ReadFile] at ih ⊢
      by_cases hdir : e.isDirectory = true
      · simpa only [if_pos hdir] using ih
      · simp only [if_neg hdir] at ih ⊢
        exact readLoop_more ih

section Sound

variable {M : Mount} (hM : M.Sound) {s s' : FsState} {V : Volume} {A : List Nat}
include hM

/-- One turn of the loop of `FAT32_ReadFile`: the next cluster is looked for only if the size asks for
more. -/
theorem readLoop_turn (hat : M.At s V A) {size b : Nat} (hb : M.InRange b)
    (hsize : size + M.clusterSize ≤ 2 ^ 32) {out : List UInt8} (hout : out.length < size) :
    ∃ s', s.Reads s' ∧ ∀ fuel, readLoop M size (fuel + 1) b out.length out s =
      if out.length + M.clusterSize ≥ size then some ((size, out ++ V.data b), s')
      else if V.fat b ≥ fat32EntryEof then some ((out.length + M.clusterSize, out ++ V.data b), s')
      else readLoop M size fuel (V.fat b) (out ++ V.data b).length (out ++ V.data b) s' := by
  obtain ⟨s1, hread, hr1⟩ := readCluster_at hM hat hb
  have hu : u32 (out.length + M.clusterSize) = out.length + M.clusterSize := by
    rw [u32]
    omega
  by_cases hdone : out.length + M.clusterSize ≥ size
  · refine ⟨s1, hr1, fun fuel => ?_⟩
    rw [readLoop, if_pos hout, Prog.bind_run hread]
    simp only [splice_append, hu]
    rw [if_neg (by simp), if_pos hdone, if_pos hdone, Prog.pure_run]
  · obtain ⟨s2, hnext, hr2⟩ := nextCluster_at hM (hr1.stays hat) hb.hasEntry
    refine ⟨s2, hr1.trans hr2, fun fuel => ?_⟩
    rw [readLoop, if_pos hout, Prog.bind_run hread]
    simp only [splice_append, hu]
    rw [if_neg (by simp), if_neg hdone, if_neg hdone, Prog.bind_run hnext, List.length_append,
      hat.data_length hb]
    by_cases heof : V.fat b ≥ fat32EntryEof
    · simp [heof]
    · simp [heof]

/-- The first cluster of what is still to be read counts. -/
theorem Mount.Sound.clustersFor_rest {n size : Nat} (h : n < size) :
    M.clustersFor (size - n) = M.clustersFor (size - (n + M.clusterSize)) + 1 := by
  have hpos := hM.clusterSize_pos
  have hle := hM.le_clustersFor (size - (n + M.clusterSize))
  have hlt := hM.clustersFor_lt (size - (n + M.clusterSize))
  rcases Nat.le_total size (n + M.clusterSize) with hrest | hrest
  · rw [show size - (n + M.clusterSize) = 0 by omega, hM.clustersFor_zero]
    exact hM.clustersFor_eq (by omega) (by omega)
  · refine hM.clustersFor_eq ?_ ?_
    · rw [Nat.succ_mul]
      omega
    · rw [Nat.succ_mul]
      omega

/-- The loop of `FAT32_ReadFile` on the clusters still to come. -/
theorem readLoop_within (hat : M.At s V A) {size c : Nat} {l : List Nat} (hl : V.ChainOf c l)
    (hin : ∀ b ∈ l, M.InRange b) (hsize : size + M.clusterSize ≤ 2 ^ 32) {out : List UInt8}
    (hout : out.length < size) :
    ∃ s', s.Reads s' ∧ Prog.Within l.length (fun fuel => readLoop M size fuel c out.length out) s
      (min size (out.length + l.length * M.clusterSize),
        out ++ V.bytes (l.take (M.clustersFor (size - out.length)))) s' := by
  -- by the clusters of the chain; what has been read so far is a whole number of clusters
  induction l generalizing c s out with
  | nil =>
      obtain ⟨t, ht⟩ := Chain.eq_cons hl
      cases ht
  | cons b l ih =>
      obtain rfl : b = c := by
        obtain ⟨t, ht⟩ := Chain.eq_cons hl
        exact (List.cons.inj ht).1
      have hbin := hin b List.mem_cons_self
      obtain ⟨s1, hr1, hturn⟩ := readLoop_turn hM hat hbin hsize hout
      have hout' : (out ++ V.data b).length = out.length + M.clusterSize := by
        rw [List.length_append, hat.data_length hbin]
      have hbytes : out ++ V.bytes ((b :: l).take (M.clustersFor (size - out.length))) =
          (out ++ V.data b) ++
            V.bytes (l.take (M.clustersFor (size - (out.length + M.clusterSize)))) := by
        rw [hM.clustersFor_rest hout, List.take_succ_cons, Volume.bytes_cons, List.append_assoc]
      have hlength : out.length + (b :: l).length * M.clusterSize =
          out.length + M.clusterSize + l.length * M.clusterSize := by
        rw [List.length_cons, Nat.succ_mul]
        omega
      rw [hbytes, hlength]
      by_cases hdone : out.length + M.clusterSize ≥ size
      · refine ⟨s1, hr1, ?_⟩
        rw [show size - (out.length + M.clusterSize) = 0 by omega, hM.clustersFor_zero, List.take_zero,
          Volume.bytes_nil, List.append_nil, min_eq_left (by omega)]
        have hstop := Prog.Within.stop (f := fun fuel => readLoop M size fuel b out.length out)
          rfl (fun fuel => (hturn fuel).trans (if_pos hdone))
        intro fuel
        rcases hstop fuel with h | ⟨h, hlt⟩
        · exact Or.inl h
        · exact Or.inr ⟨h, by rw [List.length_cons]; omega⟩
      · have hgo : ∀ fuel, _ := fun fuel => (hturn fuel).trans (if_neg hdone)
        -- not yet done: the chain ends here and the read falls short, or it goes on
        by_cases hlast : l = []
        · subst hlast
          have heof : V.fat b ≥ fat32EntryEof := Chain.stop_last (p := []) hl
          refine ⟨s1, hr1, ?_⟩
          rw [List.take_nil, Volume.bytes_nil, List.append_nil, List.length_nil, Nat.zero_mul,
            Nat.add_zero, min_eq_right (by omega)]
          exact Prog.Within.stop rfl (fun fuel => (hgo fuel).trans (if_pos heof))
        · obtain ⟨-, hstop, htail⟩ := Chain.of_cons hl hlast
          have hmore : ¬ V.fat b ≥ fat32EntryEof := hstop
          obtain ⟨s', hr', hw⟩ := ih (hr1.stays hat) htail
            (fun x hx => hin x (List.mem_cons_of_mem _ hx)) (by rw [hout']; omega)
          rw [hout'] at hw
          exact ⟨s', hr1.trans hr',
            Prog.Within.step rfl (fun fuel => (hgo fuel).trans (by rw [if_neg hmore, hout'])) hw⟩

/-- `FAT32_ReadFile` returns the bytes of the file, as many as its size and its chain allow. -/
theorem readFile_ends (hat : M.At s V A) {e : Slot} {l : List Nat} (hdir : e.isDirectory = false)
    (hl : M.FileOn V e.cluster l) (hsize : e.fileSize + M.clusterSize ≤ 2 ^ 32)
    (hnil : l = [] → e.fileSize = 0) :
    ∃ s', s.Reads s' ∧ Prog.Ends (fun fuel => fat32ReadFile M fuel e) s
      (min e.fileSize (l.length * M.clusterSize), V.bytes (l.take (M.clustersFor e.fileSize))) s' := by
  have hbody : ∀ fuel, fat32ReadFile M fuel e = readLoop M e.fileSize fuel e.cluster 0 [] := by
    intro fuel
    rw [fat32ReadFile, hdir]
    rfl
  by_cases h0 : e.fileSize = 0
  · refine ⟨s, FsState.Reads.refl s, 1, ?_⟩
    intro fuel hfuel
    obtain ⟨fuel, rfl⟩ : ∃ k, fuel = k + 1 := ⟨fuel - 1, by omega⟩
    show fat32ReadFile M (fuel + 1) e s = _
    rw [hbody, readLoop, if_neg (by omega), Prog.pure_run, h0, hM.clustersFor_zero]
    simp
  · have hne : l ≠ [] := fun h => h0 (hnil h)
    have hout : ([] : List UInt8).length < e.fileSize := by
      rw [List.length_nil]
      omega
    obtain ⟨s', hr, hw⟩ := readLoop_within hM hat (hl.chain hne) hl.1 hsize hout
    refine ⟨s', hr, ?_⟩
    have hw' := hw.ends
    simp only [List.length_nil, Nat.zero_add, Nat.sub_zero, List.nil_append] at hw'
    obtain ⟨n, hn⟩ := hw'
    refine ⟨n, ?_⟩
    intro fuel hfuel
    show fat32ReadFile M fuel e s = _
    rw [hbody]
    exact hn fuel hfuel

end Sound

end Os003
