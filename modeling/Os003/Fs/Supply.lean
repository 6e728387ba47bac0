import Os003.Fs.Contents
import Os003.Fs.Hint

set_option autoImplicit false

/-! # Clusters for a file that grows

`FAT32_AllocCluster` compares the hint with nothing, so it may hand out a number behind the last
cluster: when the hint is such a number, or has become one because the last cluster was handed out.
Both need the word where the entry of that number would be to be 0.

`M.Supplies s l k` says of a state that the next `k` clusters for a file with the clusters `l` are
clusters of the volume. It is a condition on the hint, the table and these words alone. Writing to
the file keeps it, and each cluster handed out takes one from the supply.
-/

namespace Os003

open Bytes

namespace Mount

variable (M : Mount)

/-- What the functions of the table read as the entry of `c`, also where `c` has none. -/
def word (s : FsState) (c : Nat) : Nat := M.entryAt s c % 2 ^ 28

/-- The word of `c` is a part of the cluster `x`, as it can be when `c` has no entry. The tables are
read from drive `true`, whichever drive the clusters are on. -/
def WordIn (c x : Nat) : Prop :=
  M.disk.isMaster = true ∧ M.dataBase x ≤ M.fatBase + 4 * c ∧
    M.fatBase + 4 * c < M.dataBase x + M.clusterSize

/-- The search passes over `c`, whatever is written to the clusters of the volume with `P`. -/
def Guarded (s : FsState) (P : Nat → Prop) (c : Nat) : Prop :=
  M.word s c ≠ fat32EntryFree ∧ ∀ x, M.InRange x → P x → ¬ M.WordIn c x

/-- The number of free clusters from `a` on. -/
def freeFrom (V : Volume) (a : Nat) : Nat :=
  (List.range' a (M.info.totalClusters + 2 - a)).countP (fun c => V.fat c = fat32EntryFree)

/-- The first cluster of the volume the search looks at. -/
def searchFrom (s : FsState) : Nat := if M.HasEntry s.free.start then s.free.start else 2

/-- The next `k` clusters for a file with the clusters `l` are clusters of the volume: the hint is
one, or the search passes over it; and the last cluster of the volume is in use, or is not reached,
or the search passes over the number behind it. -/
structure Supplies (s : FsState) (l : List Nat) (k : Nat) : Prop where
  start : 0 < k → M.HasEntry s.free.start ∨ M.Guarded s (· ∈ l) s.free.start
  last : 0 < k → (M.view s).fat (M.info.totalClusters + 1) ≠ fat32EntryFree ∨
    k ≤ M.freeFrom (M.view s) (M.searchFrom s) ∨
    M.Guarded s (fun x => x ∈ l ∨ (M.view s).fat x = fat32EntryFree) (M.info.totalClusters + 2)

end Mount

section Sound

variable {M : Mount} (hM : M.Sound) {s s' : FsState} {V : Volume} {A l : List Nat}
include hM

/-! ## Words -/

omit hM in
theorem Mount.word_eq {c : Nat} (hc : M.HasEntry c) : M.word s c = (M.view s).fat c := by
  rw [Mount.word]
  simp only [Mount.view, if_pos hc]

theorem Mount.Sound.successor_eq_word {c : Nat} (hc : c < 2 ^ 32) :
    M.successor (s.drive true) c = M.word s c := by
  have haddr : M.wordAddr 0 c = M.fatBase + 4 * c := by
    rw [Mount.wordAddr, hM.fatCopyLba_eq hM.fats hc, Mount.fatBase]
    omega
  rw [Mount.successor, Mount.copyEntry, haddr, Mount.word, Mount.entryAt]

/-- Writing a cluster leaves the words outside it alone. -/
theorem word_putCluster {c x : Nat} {buf : List UInt8} (hx : M.InRange x)
    (hbuf : buf.length = M.clusterSize) (hout : ¬ M.WordIn c x) :
    M.word (M.putCluster s x buf) c = M.word s c := by
  have hdrive : (M.putCluster s x buf).drive = Function.update s.drive M.disk.isMaster
      (writeBytes (s.drive M.disk.isMaster) (M.dataBase x) buf) := by
    rw [← hM.dataBase_eq hx]
    rfl
  rw [Mount.word, Mount.word, Mount.entryAt, Mount.entryAt, hdrive]
  cases hm : M.disk.isMaster with
  | false => rw [Function.update_of_ne (by decide)]
  | true =>
      -- words and clusters begin at multiples of four, so a word is inside a cluster or outside
      have hsize := hM.clusterSize_eq
      have hword : ¬ (M.dataBase x ≤ M.fatBase + 4 * c ∧
          M.fatBase + 4 * c < M.dataBase x + M.clusterSize) := fun h => hout ⟨hm, h⟩
      rw [Function.update_self, readBytes_writeBytes_of_disjoint]
      rw [hbuf]
      unfold Mount.dataBase Mount.fatBase at *
      omega

/-- Writing the entry of a cluster leaves the word behind the last entry alone. -/
theorem word_putEntry {c v : Nat} (hc : M.InRange c) :
    M.word (M.putEntry s c v) (M.info.totalClusters + 2) =
      M.word s (M.info.totalClusters + 2) := by
  have htable := hM.table
  have hlt : c < M.info.totalClusters + 2 := hc.2
  have h2 := hc.1
  rw [Mount.word, Mount.word, Mount.entryAt, Mount.entryAt]
  congr 2
  apply readBytes_congr
  intro i hi
  rw [Mount.putEntry, FsState.note_drive]
  apply putCopies_drive
  intro j _ hj
  cases j with
  | zero =>
      right
      omega
  | succ j =>
      -- the later copies begin behind the word, or at it, and the first two entries are no clusters
      left
      have hmul : (j + 1) * M.info.sectorsPerFat = j * M.info.sectorsPerFat + M.info.sectorsPerFat :=
        Nat.succ_mul j _
      omega

/-! ## The first free cluster -/

/-- The walk of the cursor up from the cluster `a`: it is at a cluster of the volume, and it has
passed the clusters in between, or all up to the last one. -/
theorem cursor_up {a j : Nat} (ha : M.InRange a) (P : Nat → Prop)
    (hP : ∀ i, i < j → P (M.cursor^[i] a)) :
    M.InRange (M.cursor^[j] a) ∧
      ((a ≤ M.cursor^[j] a ∧ ∀ x, a ≤ x → x < M.cursor^[j] a → P x) ∨
        ∀ x, a ≤ x → x < M.info.totalClusters + 2 → P x) := by
  have hmax := hM.clusters
  have h2 := ha.1
  have hlt : a < M.info.totalClusters + 2 := ha.2
  have hlimit : u32 (M.info.totalClusters + 2) = M.info.totalClusters + 2 := by
    rw [u32]
    omega
  have hup : ∀ x, a ≤ x → x < M.info.totalClusters + 2 → M.cursor^[x - a] a = x := by
    intro x hax hx
    rw [Mount.OnCycle.count_up h2 (by omega)]
    omega
  by_cases hj : a + j < M.info.totalClusters + 2
  · have hend : M.cursor^[j] a = a + j := Mount.OnCycle.count_up h2 (by omega)
    rw [hend]
    refine ⟨⟨by omega, hj⟩, Or.inl ⟨by omega, ?_⟩⟩
    intro x hax hx
    have hpass := hP (x - a) (by omega)
    rwa [hup x hax (by omega)] at hpass
  · refine ⟨?_, Or.inr ?_⟩
    · obtain ⟨i, rfl⟩ : ∃ i, j = i + 1 := ⟨j - 1, by omega⟩
      rcases Mount.iterate_onCycle (M := M) (c := a) ⟨h2, by omega⟩ i with h | ⟨h, h'⟩
      · rw [h]
        exact ⟨Nat.le_refl 2, by omega⟩
      · exact ⟨h, by omega⟩
    · intro x hax hx
      have hpass := hP (x - a) (by omega)
      rwa [hup x hax hx] at hpass

/-- The search for a free cluster when its start is a cluster of the volume or is passed over: it
comes to the first free cluster from `M.searchFrom` on, or there is none from there on. -/
theorem allocCluster_first {fuel r : Nat} (ht : 1 ≤ M.info.totalClusters) (hat : M.At s V A)
    (hstart : M.HasEntry s.free.start ∨ M.word s s.free.start ≠ fat32EntryFree)
    (hrun : fat32AllocCluster M fuel s = some (r, s')) (hr : r ≠ 0) :
    M.InRange r ∧ V.fat r = fat32EntryFree ∧ (∃ s1, s.Reads s1 ∧ s' = M.allocated s1 r) ∧
      ((M.searchFrom s ≤ r ∧ ∀ x, M.searchFrom s ≤ x → x < r → V.fat x ≠ fat32EntryFree) ∨
        ∀ x, M.searchFrom s ≤ x → x < M.info.totalClusters + 2 → V.fat x ≠ fat32EntryFree) := by
  have hbounds := s.free.start_bounds
  have hshape := allocCluster_shape hM hat hrun
  rw [fat32AllocCluster, Prog.get_bind] at hrun
  rcases allocLoop_returns hM.tabled hM.fats (fun b hb => hM.serves hat.quiet hb) hbounds hrun with
    ⟨h0, -⟩ | ⟨⟨j, hj, hbusy⟩, hfree, -⟩
  · exact absurd h0 hr
  rcases hshape with ⟨h0, -⟩ | ⟨-, -, hfat, hstate⟩
  · exact absurd h0 hr
  -- on the clusters of the volume the walk reads the entries
  have hword : ∀ x, M.HasEntry x → M.successor (s.drive true) x = V.fat x := by
    intro x hx
    rw [hM.successor_eq_word (hx.lt hM), M.word_eq hx, hat.view]
  obtain ⟨a, i, ha, hfrom, hri, hbusy'⟩ : ∃ a i, M.InRange a ∧ M.searchFrom s = a ∧
      r = M.cursor^[i] a ∧
      ∀ k, k < i → M.successor (s.drive true) (M.cursor^[k] a) ≠ fat32EntryFree := by
    by_cases hin : M.HasEntry s.free.start
    · exact ⟨_, j, ⟨hbounds.1, hin⟩, if_pos hin, hj, hbusy⟩
    · -- the start is passed over, and behind it comes cluster 2
      have hguard := hstart.resolve_left hin
      have hmax := hM.clusters
      have hout : M.info.totalClusters + 2 ≤ s.free.start := Nat.not_lt.mp hin
      have hfirst : M.cursor s.free.start = 2 := by
        apply Mount.cursor_wraps hbounds.2
        rw [u32]
        omega
      cases j with
      | zero =>
          have hrs : r = s.free.start := hj
          rw [hrs, hM.successor_eq_word (by omega)] at hfree
          exact absurd hfree hguard
      | succ j =>
          refine ⟨2, j, ⟨Nat.le_refl 2, by omega⟩, if_neg hin, ?_, ?_⟩
          · rw [hj, Function.iterate_succ_apply, hfirst]
          · intro k hk
            have := hbusy (k + 1) (by omega)
            rwa [Function.iterate_succ_apply, hfirst] at this
  obtain ⟨hin, hpassed⟩ := cursor_up hM ha
    (fun x => M.successor (s.drive true) x ≠ fat32EntryFree) hbusy'
  rw [← hri] at hin hpassed
  rw [hfrom]
  refine ⟨hin, hfat hin.hasEntry, hstate, ?_⟩
  rcases hpassed with ⟨hle, hpass⟩ | hpass
  · refine Or.inl ⟨hle, ?_⟩
    intro x hax hx
    rw [← hword x (hx.trans hin.2)]
    exact hpass x hax hx
  · right
    intro x hax hx
    rw [← hword x hx]
    exact hpass x hax hx

/-! ## Counting free clusters -/

omit hM in
theorem Mount.freeFrom_none {a : Nat}
    (h : ∀ x, a ≤ x → x < M.info.totalClusters + 2 → V.fat x ≠ fat32EntryFree) :
    M.freeFrom V a = 0 := by
  rw [Mount.freeFrom, List.countP_eq_zero]
  intro x hx
  rw [List.mem_range'_1] at hx
  simpa using h x hx.1 (by omega)

omit hM in
/-- The first free cluster and those behind it. -/
theorem Mount.freeFrom_first {a r : Nat} (hle : a ≤ r) (hr : M.HasEntry r)
    (hfree : V.fat r = fat32EntryFree) (hbusy : ∀ x, a ≤ x → x < r → V.fat x ≠ fat32EntryFree) :
    M.freeFrom V a = M.freeFrom V (r + 1) + 1 := by
  have hlt : r < M.info.totalClusters + 2 := hr
  have hsplit : List.range' a (M.info.totalClusters + 2 - a) = List.range' a (r - a) ++
      r :: List.range' (r + 1) (M.info.totalClusters + 2 - (r + 1)) := by
    rw [← List.range'_succ, show M.info.totalClusters + 2 - a =
      (r - a) + (M.info.totalClusters + 2 - (r + 1) + 1) by omega, ← List.range'_append_1]
    congr 2
    omega
  have hnone : (List.range' a (r - a)).countP (fun c => V.fat c = fat32EntryFree) = 0 := by
    rw [List.countP_eq_zero]
    intro x hx
    rw [List.mem_range'_1] at hx
    simpa using hbusy x hx.1 (by omega)
  rw [Mount.freeFrom, hsplit, List.countP_append, hnone, List.countP_cons_of_pos (by simpa using hfree),
    Nat.zero_add, Mount.freeFrom]

omit hM in
theorem Mount.freeFrom_congr {V' : Volume} {a : Nat}
    (h : ∀ x, a ≤ x → (V'.fat x = fat32EntryFree ↔ V.fat x = fat32EntryFree)) :
    M.freeFrom V' a = M.freeFrom V a := by
  apply List.countP_congr
  intro x hx
  rw [List.mem_range'_1] at hx
  simpa using h x hx.1

/-! ## What keeps the supply -/

omit hM in
theorem Mount.Guarded.mono {P Q : Nat → Prop} {c : Nat} (h : M.Guarded s P c)
    (hQ : ∀ x, Q x → P x) : M.Guarded s Q c :=
  ⟨h.1, fun x hx hq => h.2 x hx (hQ x hq)⟩

omit hM in
theorem Mount.Supplies.reads {k : Nat} (h : M.Supplies s l k) (hr : s.Reads s') :
    M.Supplies s' l k := by
  obtain ⟨log, rfl⟩ := hr
  exact ⟨h.start, h.last⟩

/-- Writing to a cluster of the file. -/
theorem Mount.Supplies.putCluster {k x : Nat} {buf : List UInt8} (h : M.Supplies s l k)
    (hx : M.InRange x) (hxl : x ∈ l) (hbuf : buf.length = M.clusterSize) :
    M.Supplies (M.putCluster s x buf) l k := by
  have hfat : (M.view (M.putCluster s x buf)).fat = (M.view s).fat := by
    rw [view_putCluster hM hx hbuf]
    rfl
  have hguard : ∀ P c, P x → M.Guarded s P c → M.Guarded (M.putCluster s x buf) P c := by
    intro P c hP hg
    refine ⟨?_, hg.2⟩
    rw [word_putCluster hM hx hbuf (hg.2 x hx hP)]
    exact hg.1
  have hsearch : M.searchFrom (M.putCluster s x buf) = M.searchFrom s := rfl
  constructor
  · intro hk
    exact (h.start hk).imp_right (hguard _ _ hxl)
  · intro hk
    rw [hfat, hsearch, M.freeFrom_congr (V := M.view s) (fun y _ => by rw [hfat])]
    exact (h.last hk).imp_right (Or.imp_right (hguard _ _ (Or.inl hxl)))

/-- Writing some of the data to a cluster of the file. -/
theorem Mount.Supplies.writeChunk {k c off n st : Nat} {src : List UInt8} (h : M.Supplies s l k)
    (hat : M.At s V A) (hc : M.InRange c) (hcl : c ∈ l) (hn : off + n ≤ M.clusterSize)
    (hsrc : n ≤ src.length) (hrun : writeChunk M c off n src s = some (st, s')) :
    M.Supplies s' l k := by
  obtain ⟨t, hr, hput⟩ := writeChunk_run hM hat hc hn hsrc
  rw [hput] at hrun
  cases hrun
  exact (h.reads hr).putCluster hM hc hcl (hat.splice_length hc hn hsrc)

/-- The link of a new cluster, written to the entry of a cluster in use. -/
theorem Mount.Supplies.putEntry {k x v : Nat} (h : M.Supplies s l k) (hx : M.InRange x)
    (hused : (M.view s).fat x ≠ fat32EntryFree) (hv : v < 2 ^ 28) (hv0 : v ≠ fat32EntryFree)
    (hstart : s.free.start ≤ M.info.totalClusters + 2) : M.Supplies (M.putEntry s x v) l k := by
  have hfree : (M.putEntry s x v).free = s.free := (putCopies_frame M x v M.info.numFats 0 s).2.1
  have hfat : ∀ y, (M.view (M.putEntry s x v)).fat y = fat32EntryFree ↔
      (M.view s).fat y = fat32EntryFree := by
    intro y
    rw [view_putEntry hM hx.hasEntry hv, Volume.setFat_fat]
    by_cases hy : y = x
    · rw [hy, Function.update_self]
      exact ⟨fun h' => absurd h' hv0, fun h' => absurd h' hused⟩
    · rw [Function.update_of_ne hy]
  have hguard : ∀ P, M.Guarded s P (M.info.totalClusters + 2) →
      M.Guarded (M.putEntry s x v) P (M.info.totalClusters + 2) := by
    intro P hg
    refine ⟨?_, hg.2⟩
    rw [word_putEntry hM hx]
    exact hg.1
  have hsearch : M.searchFrom (M.putEntry s x v) = M.searchFrom s := by
    rw [Mount.searchFrom, Mount.searchFrom, hfree]
  constructor
  · intro hk
    rw [hfree]
    rcases h.start hk with hin | hg
    · exact Or.inl hin
    · by_cases hin : M.HasEntry s.free.start
      · exact Or.inl hin
      · -- the start is the number behind the last cluster
        have hout : M.info.totalClusters + 2 ≤ s.free.start := Nat.not_lt.mp hin
        have heq : s.free.start = M.info.totalClusters + 2 := by omega
        rw [heq] at hg ⊢
        exact Or.inr (hguard _ hg)
  · intro hk
    rw [hsearch, M.freeFrom_congr (fun y _ => hfat y), ne_eq, hfat]
    refine (h.last hk).imp_right (Or.imp_right (fun hg => ?_))
    exact (hguard _ hg).mono (fun y hy => hy.imp_right (hfat y).mp)

/-- Handing out a cluster of the volume leaves the word behind the last entry alone. -/
theorem Mount.Guarded.allocated {P : Nat → Prop} {s1 : FsState} {r : Nat}
    (hg : M.Guarded s P (M.info.totalClusters + 2)) (hr1 : s.Reads s1) (hin : M.InRange r) :
    M.Guarded (M.allocated s1 r) P (M.info.totalClusters + 2) := by
  obtain ⟨log, rfl⟩ := hr1
  have hword := word_putEntry hM (s := { s with log := log }) (v := fat32EntryEof) hin
  exact ⟨fun h0 => hg.1 (hword.symm.trans h0), hg.2⟩

/-- A cluster handed out is one of the volume, and the supply is one cluster smaller. -/
theorem Mount.Supplies.alloc {fuel k r : Nat} (h : M.Supplies s l (k + 1))
    (ht : 1 ≤ M.info.totalClusters) (hat : M.At s V A)
    (hrun : fat32AllocCluster M fuel s = some (r, s')) (hr : r ≠ 0) :
    M.InRange r ∧ s'.free.start ≤ M.info.totalClusters + 2 ∧ M.Supplies s' (l ++ [r]) k := by
  have hpos : 0 < k + 1 := Nat.succ_pos k
  obtain ⟨hin, hfree, ⟨s1, hreads, rfl⟩, hfirst⟩ :=
    allocCluster_first hM ht hat ((h.start hpos).imp_right And.left) hrun hr
  have hmax := hM.clusters
  have hlt : r < M.info.totalClusters + 2 := hin.2
  have hview : M.view (M.allocated s1 r) = V.setFat r fat32EntryEof :=
    (allocated_at hM (hreads.stays hat) hin.hasEntry).view
  have hstart : (M.allocated s1 r).free.start = r + 1 := by
    have htake : (M.allocated s1 r).free = s1.free.take r := rfl
    rw [htake, FreeInfo.start_take _ hin.1 (by omega)]
  have hfat : ∀ y, y ≠ r → (M.view (M.allocated s1 r)).fat y = V.fat y := by
    intro y hy
    rw [hview, Volume.setFat_fat, Function.update_of_ne hy]
  have hend : (M.view (M.allocated s1 r)).fat r = fat32EntryEof := by
    rw [hview, Volume.setFat_fat, Function.update_self]
  -- nothing but `r` is written to from now on that was not written to before
  have hclusters : ∀ x, x ∈ l ++ [r] ∨ (M.view (M.allocated s1 r)).fat x = fat32EntryFree →
      x ∈ l ∨ V.fat x = fat32EntryFree := by
    intro x hx
    by_cases hxr : x = r
    · exact Or.inr (by rw [hxr, hfree])
    · rw [hfat x hxr] at hx
      simpa [hxr] using hx
  have hlast := h.last hpos
  rw [hat.view] at hlast
  -- a supply that does not reach the last cluster has one cluster less
  have hcount : k + 1 ≤ M.freeFrom V (M.searchFrom s) → k ≤ M.freeFrom V (r + 1) := by
    intro hle
    rcases hfirst with ⟨hfrom, hbusy⟩ | hnone
    · rw [M.freeFrom_first hfrom hin.hasEntry hfree hbusy] at hle
      omega
    · rw [M.freeFrom_none hnone] at hle
      omega
  refine ⟨hin, by omega, ?_, ?_⟩
  · intro hk
    rw [hstart]
    by_cases hr1 : M.HasEntry (r + 1)
    · exact Or.inl hr1
    · -- the last cluster has been handed out
      have hover : M.info.totalClusters + 2 ≤ r + 1 := Nat.not_lt.mp hr1
      have heq : r = M.info.totalClusters + 1 := by omega
      right
      rcases hlast with hused | hle | hg
      · exact absurd (heq ▸ hfree) hused
      · have hzero : M.freeFrom V (r + 1) = 0 := M.freeFrom_none (fun x hx hx' => by omega)
        have := hcount hle
        omega
      · have hg' := (hg.allocated hM hreads hin).mono (fun x hx => hclusters x (Or.inl hx))
        rw [heq] at hg' ⊢
        exact hg'
  · intro hk
    by_cases hr1 : M.HasEntry (r + 1)
    · have hnext : r + 1 < M.info.totalClusters + 2 := hr1
      rw [hfat _ (by omega)]
      refine hlast.imp_right (Or.imp (fun hle => ?_)
        (fun hg => (hg.allocated hM hreads hin).mono hclusters))
      have hsearch : M.searchFrom (M.allocated s1 r) = r + 1 := by
        rw [Mount.searchFrom, hstart, if_pos hr1]
      rw [hsearch, M.freeFrom_congr (V := V) (fun y hy => by rw [hfat y (by omega)])]
      exact hcount hle
    · left
      have hover : M.info.totalClusters + 2 ≤ r + 1 := Nat.not_lt.mp hr1
      have heq : M.info.totalClusters + 1 = r := by omega
      rw [heq, hend]
      decide

/-- A cluster handed out and linked behind the cluster `b` of the file. -/
theorem Mount.Supplies.link {fuel k r b st : Nat} {s'' : FsState} (h : M.Supplies s l (k + 1))
    (ht : 1 ≤ M.info.totalClusters) (hat : M.At s V A) (hb : M.InRange b)
    (hused : V.fat b ≠ fat32EntryFree) (hrun : fat32AllocCluster M fuel s = some (r, s'))
    (hr : r ≠ 0) (hlink : fat32WriteFatEntry M b r s' = some (st, s'')) :
    M.InRange r ∧ M.Supplies s'' (l ++ [r]) k := by
  obtain ⟨hin, hstart, hsupply⟩ := h.alloc hM ht hat hrun hr
  have hmax := hM.clusters
  have hlt : r < M.info.totalClusters + 2 := hin.2
  rcases allocCluster_shape hM hat hrun with ⟨h0, -⟩ | ⟨-, -, hfree, s1, hr1, rfl⟩
  · exact absurd h0 hr
  have hat' := allocated_at hM (hr1.stays hat) hin.hasEntry
  have hwrite := fat32WriteFatEntry_run hM hat'.quiet (hb.hasEntry.lt hM) r
  rw [hwrite] at hlink
  cases hlink
  refine ⟨hin, hsupply.putEntry hM hb ?_ (by omega) hr hstart⟩
  have hbr : b ≠ r := by
    rintro rfl
    exact hused (hfree hin.hasEntry)
  rw [hat'.view, Volume.setFat_fat, Function.update_of_ne hbr]
  exact hused

end Sound

end Os003
