import Os003.Fs.Walk
import Os003.Fs.WriteLoop

set_option autoImplicit false

/-! # Overwriting a file

`FAT32_WriteFile` writes from the start of the file, extends the chain where it is too short, and
frees what lies behind the last cluster written. It does not shorten the file: the size in the
directory entry only grows. So the old bytes behind the new ones are still there only if no
cluster that holds some of them has been freed.
-/

namespace Os003

open Bytes Linked

section Sound

variable {M : Mount} (hM : M.Sound) {s s' : FsState} {V : Volume} {A : List Nat}
include hM

/-! ## Before and behind the loop -/

/-- The clusters behind `cluster` are freed. -/
theorem shrinkChain_spec {fuel start cluster : Nat} {p q : List Nat} {u : Unit}
    (hat : M.At s V A) (hl : M.FileOn V start (p ++ cluster :: q))
    (hrun : shrinkChain M fuel cluster s = some (u, s')) :
    ∃ V', M.At s' V' A ∧ M.FileOn V' start (p ++ [cluster]) ∧
      V.Rewrites (p ++ cluster :: q) V' (p ++ [cluster]) ∧ V'.data = V.data := by
  have hchain := hl.chain (by simp)
  have hcin : M.InRange cluster := hl.1 cluster (by simp)
  have hsub : ∀ c ∈ p ++ [cluster], c ∈ p ++ cluster :: q := by
    intro c hc
    simp only [List.mem_append, List.mem_cons, List.not_mem_nil, or_false] at hc ⊢
    tauto
  obtain ⟨s1, hnext, hr1⟩ := nextCluster_at hM hat hcin.hasEntry
  have hat1 := hr1.stays hat
  rw [shrinkChain, Prog.bind_run hnext] at hrun
  simp only [] at hrun
  by_cases heof : V.fat cluster < fat32EntryEof
  · rw [if_pos heof] at hrun
    obtain ⟨b, q, rfl⟩ : ∃ b t, q = b :: t := by
      cases q with
      | nil => exact absurd (Chain.stop_last hchain) (Nat.not_le.mpr heof)
      | cons b t => exact ⟨b, t, rfl⟩
    have hb : V.fat cluster = b := Chain.next_eq hchain
    obtain ⟨s2, hwrite, hat2⟩ := writeFatEntry_at hM hat1 hcin.hasEntry (v := fat32EntryEof)
      (by decide)
    rw [hb, Prog.bind_run hwrite] at hrun
    have hnodup := hl.nodup
    have hpn := List.nodup_append.mp hnodup
    have hqn := List.nodup_cons.mp hpn.2.1
    -- the rest is a chain of its own, and cutting it off does not change it
    have hrest : (V.setFat cluster fat32EntryEof).ChainOf b (b :: q) := by
      have hassoc : p ++ cluster :: b :: q = (p ++ [cluster]) ++ b :: q := by simp
      have hsuffix : V.ChainOf b (b :: q) := by
        rw [hassoc] at hchain
        exact Chain.suffix hchain
      refine hsuffix.congr ?_
      intro x hx
      rw [Volume.setFat_fat, Function.update_of_ne]
      rintro rfl
      exact hqn.1 hx
    obtain ⟨s3, hat3, hw⟩ := freeClusterChain_within hM hat2 hrest
      (fun c hc => hl.1 c (by simp only [List.mem_append, List.mem_cons] at hc ⊢; tauto))
    obtain ⟨st, t, hfree, hpure⟩ := Prog.bind_eq_some.mp hrun
    obtain ⟨-, rfl⟩ := hw.result hfree
    cases hpure
    refine ⟨_, hat3, ⟨fun c hc => hl.1 c (hsub c hc), Or.inr ?_⟩, ⟨?_, ?_⟩, rfl⟩
    · refine Chain.truncate hchain ?_ ?_
      · intro x hx
        have hxq : x ∉ b :: q := fun h => hpn.2.2 x hx x (List.mem_cons_of_mem _ h) rfl
        have hxc : x ≠ cluster := fun h => hpn.2.2 x hx cluster List.mem_cons_self h
        simp only [Volume.clear, Volume.setFat]
        rw [if_neg hxq, Function.update_of_ne hxc]
      · simp only [Volume.clear, Volume.setFat]
        rw [if_neg hqn.1, Function.update_self]
        exact Nat.le_refl _
    · exact fun c hc => Or.inl (hsub c hc)
    · intro c hc _
      have hcq : c ∉ b :: q := fun h =>
        hc (List.mem_append_right _ (List.mem_cons_of_mem _ h))
      have hcc : c ≠ cluster := by
        rintro rfl
        exact hc (by simp)
      simp only [Volume.clear, Volume.setFat]
      rw [if_neg hcq, Function.update_of_ne hcc]
      exact ⟨rfl, trivial⟩
  · rw [if_neg heof, Prog.pure_run] at hrun
    simp only [Option.some.injEq, Prod.mk.injEq] at hrun
    obtain ⟨-, rfl⟩ := hrun
    obtain rfl := hl.eq_nil_of_eof (Nat.not_lt.mp heof)
    exact ⟨V, hat1, hl, Volume.Rewrites.refl V _, rfl⟩

/-- An empty file gets its first cluster, if the disk is not full. -/
theorem emptyStart_spec {fuel : Nat} {e : Slot} {o : Option (Nat × Slot)} (hat : M.At s V A)
    (hrun : (do
      let cluster ← fat32AllocCluster M fuel
      if cluster = 0 then return none
      return some (cluster, e.setCluster cluster)) s = some (o, s'))
    (halloc : ∀ c ∈ s'.allocs, M.InRange c) :
    (o = none ∧ s.Reads s') ∨
      ∃ V' A' c, M.InRange c ∧ (e.setCluster c).cluster = c ∧
        o = some ((e.setCluster c).cluster, e.setCluster c) ∧ M.At s' V' A' ∧
        M.FileOn V' (e.setCluster c).cluster [c] ∧ V.Rewrites [] V' [c] ∧ V'.data = V.data := by
  obtain ⟨r, s1, hrun1, hrest⟩ := Prog.bind_eq_some.mp hrun
  have hs1 : s1 = s' ∧ o = if r = 0 then none else some (r, e.setCluster r) := by
    split at hrest
    · rename_i h0
      cases hrest
      exact ⟨rfl, (if_pos h0).symm⟩
    · rename_i h0
      cases hrest
      exact ⟨rfl, (if_neg h0).symm⟩
  obtain ⟨rfl, ho⟩ := hs1
  rcases firstCluster_at hM hat hrun1 halloc with ⟨rfl, hr⟩ | ⟨hr0, V', hat', hl', hrw, hdata⟩
  · exact Or.inl ⟨by rw [ho, if_pos rfl], hr⟩
  · have hrin : M.InRange r := hl'.1 r (by simp)
    have hcl : (e.setCluster r).cluster = r := e.cluster_setCluster (hrin.hasEntry.lt hM)
    refine Or.inr ⟨V', _, r, hrin, hcl, ?_, hat', ?_, hrw, hdata⟩
    · rw [ho, if_neg hr0, hcl]
    · rw [hcl]
      exact hl'

/-- The file `FAT32_WriteFile` starts with: the file as it is, or the first cluster of an empty file
that is to get bytes. -/
def Mount.Started (M : Mount) (V : Volume) (e : Slot) (l : List Nat) (size : Nat) (V' : Volume)
    (e' : Slot) (l' : List Nat) : Prop :=
  (e' = e ∧ l' = l ∧ V' = V ∧ (l = [] → size = 0)) ∨
    (l = [] ∧ 0 < size ∧ ∃ c, M.InRange c ∧ e' = e.setCluster c ∧ l' = [c])

section Started

variable {e e' : Slot} {l l' : List Nat} {size : Nat} {V' : Volume}

omit hM

theorem Mount.Started.nil (h : M.Started V e l size V' e' l') (hl : l' = []) : size = 0 := by
  rcases h with ⟨-, rfl, -, hsize⟩ | ⟨-, -, c, -, -, hc⟩
  · exact hsize hl
  · rw [hc] at hl
    cases hl

theorem Mount.Started.entry (h : M.Started V e l size V' e' l') :
    e' = e ∨ (l = [] ∧ ∃ c, M.InRange c ∧ e' = e.setCluster c) := by
  rcases h with ⟨he, -⟩ | ⟨hl, -, c, hc, he, -⟩
  · exact Or.inl he
  · exact Or.inr ⟨hl, c, hc, he⟩

theorem Mount.Started.fileSize (h : M.Started V e l size V' e' l') :
    e'.fileSize = e.fileSize := by
  rcases h.entry with rfl | ⟨-, c, -, rfl⟩
  · rfl
  · exact e.fileSize_setCluster c

end Started

theorem writeStart_spec {fuel size : Nat} {e : Slot} {l : List Nat} {o : Option (Nat × Slot)}
    (hat : M.At s V A) (hl : M.FileOn V e.cluster l)
    (hrun : writeStart M fuel e size s = some (o, s')) (halloc : ∀ c ∈ s'.allocs, M.InRange c) :
    (o = none ∧ s.Reads s' ∧ l = [] ∧ 0 < size) ∨
      ∃ V' A' l' e', o = some (e'.cluster, e') ∧ M.At s' V' A' ∧ M.FileOn V' e'.cluster l' ∧
        V.Rewrites l V' l' ∧ V'.data = V.data ∧ M.Started V e l size V' e' l' := by
  rw [writeStart] at hrun
  by_cases hempty : e.cluster = 0 ∧ size > 0
  · rw [if_pos hempty] at hrun
    have hnil : l = [] := hl.nil_iff.mpr hempty.1
    subst hnil
    rcases emptyStart_spec hM hat hrun halloc with ⟨ho, hr⟩ |
      ⟨V', A', c, hc, -, ho, hat', hl', hrw, hdata⟩
    · exact Or.inl ⟨ho, hr, rfl, hempty.2⟩
    · exact Or.inr ⟨V', A', [c], e.setCluster c, ho, hat', hl', hrw, hdata,
        Or.inr ⟨rfl, hempty.2, c, hc, rfl, rfl⟩⟩
  · rw [if_neg hempty, Prog.pure_run] at hrun
    simp only [Option.some.injEq, Prod.mk.injEq] at hrun
    obtain ⟨rfl, rfl⟩ := hrun
    refine Or.inr ⟨V, A, l, e, rfl, hat, hl, Volume.Rewrites.refl V l, rfl, Or.inl ?_⟩
    refine ⟨rfl, rfl, rfl, ?_⟩
    intro h
    have := hl.nil_iff.mp h
    omega

/-- With a supply of clusters the start hands out a cluster of the volume, and the rest of the
supply is left for the loop. -/
theorem writeStart_supplied {fuel size : Nat} {e : Slot} {l : List Nat} {o : Option (Nat × Slot)}
    (ht : 1 ≤ M.info.totalClusters) (hat : M.At s V A) (hl : M.FileOn V e.cluster l)
    (hrun : writeStart M fuel e size s = some (o, s')) (hrec : ∀ c ∈ s.allocs, M.InRange c)
    (hsupply : M.Supplies s l (M.clustersFor size - l.length)) :
    (∀ c ∈ s'.allocs, M.InRange c) ∧ ∀ c0 e0, o = some (c0, e0) → ∀ l0,
      M.FileOn (M.view s') c0 l0 → M.Supplies s' l0 (M.clustersFor size - l0.length) := by
  rw [writeStart] at hrun
  by_cases hempty : e.cluster = 0 ∧ size > 0
  · rw [if_pos hempty] at hrun
    have hnil : l = [] := hl.nil_iff.mpr hempty.1
    subst hnil
    obtain ⟨r, s1, halloc, hrest⟩ := Prog.bind_eq_some.mp hrun
    by_cases hr : r = 0
    · rw [if_pos hr] at hrest
      cases hrest
      rcases allocCluster_shape hM hat halloc with ⟨-, hreads⟩ | ⟨h2, -⟩
      · refine ⟨by rwa [hreads.allocs], ?_⟩
        intro c0 e0 ho
        cases ho
      · omega
    · rw [if_neg hr] at hrest
      cases hrest
      have hneed : 0 < M.clustersFor size := by
        by_contra h0
        have := (hM.clustersFor_le_iff size 0).mp (Nat.not_lt.mp h0)
        omega
      obtain ⟨k, hk⟩ : ∃ k, M.clustersFor size = k + 1 := ⟨M.clustersFor size - 1, by omega⟩
      rw [hk, List.length_nil, Nat.sub_zero] at hsupply
      obtain ⟨hin, -, hleft⟩ := hsupply.alloc hM ht hat halloc hr
      have hrec' := allocCluster_recorded hM hat halloc hin hrec
      refine ⟨hrec', ?_⟩
      rintro c0 e0 ⟨⟩ l0 hl0
      -- the file now is this one cluster
      rcases firstCluster_at hM hat halloc hrec' with ⟨h0, -⟩ | ⟨-, V', hat', hfirst, -⟩
      · exact absurd h0 hr
      rw [← hat'.view] at hfirst
      obtain rfl := hfirst.unique hl0
      rw [hk]
      exact hleft
  · rw [if_neg hempty, Prog.pure_run] at hrun
    cases hrun
    refine ⟨hrec, ?_⟩
    rintro c0 e0 ⟨⟩ l0 hl0
    rw [← hat.view] at hl
    obtain rfl := hl.unique hl0
    exact hsupply

omit hM in
/-- What follows the loop of `FAT32_WriteFile`: the chain may be cut, then the directory entry is
written. -/
theorem writeFinish_spec {fuel d c n m : Nat} {p : Prop} [Decidable p] {e x : Slot}
    (hrun : (do
      if p then shrinkChain M fuel c
      let _ ← fat32WriteDirEntry M fuel d e
      return (n, e)) s = some ((m, x), s')) :
    m = n ∧ x = e ∧ ∃ s1 r, fat32WriteDirEntry M fuel d e s1 = some (r, s') ∧
      ((p ∧ ∃ u, shrinkChain M fuel c s = some (u, s1)) ∨ (¬ p ∧ s1 = s)) := by
  by_cases hp : p
  · rw [if_pos hp] at hrun
    obtain ⟨u, s1, hshrink, hrest⟩ := Prog.bind_eq_some.mp hrun
    obtain ⟨r, s2, hwrite, hpure⟩ := Prog.bind_eq_some.mp hrest
    cases hpure
    exact ⟨rfl, rfl, s1, r, hwrite, Or.inl ⟨hp, u, hshrink⟩⟩
  · rw [if_neg hp] at hrun
    obtain ⟨r, s2, hwrite, hpure⟩ := Prog.bind_eq_some.mp hrun
    cases hpure
    exact ⟨rfl, rfl, s, r, hwrite, Or.inr ⟨hp, rfl⟩⟩

/-! ## The function -/

/-- What `FAT32_WriteFile` has made of a file with the clusters `l` when it has written all of
`data`: as many clusters as the data need, but at least one if there is one, and in them the
data, what was behind them before, and unspecified bytes. -/
structure Mount.Overwritten (M : Mount) (V : Volume) (l : List Nat) (V' : Volume)
    (l' : List Nat) (data : List UInt8) : Prop where
  length : l'.length = if l = [] ∧ data = [] then 0 else max 1 (M.clustersFor data.length)
  bytes : ∃ rest, V'.bytes l' =
    (data ++ (V.bytes l).drop data.length ++ rest).take (l'.length * M.clusterSize)

/-- What the loop alone has done: `L` are the clusters, and the last one written is `c`. -/
structure Mount.WrittenTo (M : Mount) (V : Volume) (l : List Nat) (V' : Volume) (L : List Nat)
    (data : List UInt8) (c : Nat) : Prop where
  bytes : V'.bytes L = splice (V.bytes L) 0 data
  last : (L = [] ∧ data = [] ∧ c = 0) ∨
    ∃ p q, L = p ++ c :: q ∧ p.length + 1 = max 1 (M.clustersFor data.length) ∧
      (q ≠ [] → L = l) ∧ ¬ (l = [] ∧ data = [])

/-- The loop of `FAT32_WriteFile` on a whole file. -/
theorem writeLoop_file {fuel start : Nat} {l : List Nat} {data : List UInt8} {exit : LoopExit}
    (hat : M.At s V A) (hl : M.FileOn V start l) (hnil : l = [] → data = [])
    (hrun : writeLoop M data fuel start 0 s = some (exit, s'))
    (halloc : ∀ c ∈ s'.allocs, M.InRange c) :
    ∃ V' A' L, M.At s' V' A' ∧ M.Extends V start l V' L ∧
      ((∃ w, exit = .early w ∧ w < data.length) ∨
        ∃ c, exit = .done data.length c ∧ M.WrittenTo V l V' L data c) := by
  by_cases hdata : data = []
  · -- nothing to write: the loop ends at the first cluster
    subst hdata
    have hexit : exit = .done 0 start ∧ s' = s := by
      cases fuel with
      | zero => cases hrun
      | succ fuel =>
          rw [writeLoop, if_neg (by simp), Prog.pure_run] at hrun
          cases hrun
          exact ⟨rfl, rfl⟩
    obtain ⟨rfl, rfl⟩ := hexit
    refine ⟨V, A, l, hat, ⟨hl, List.prefix_refl l, Volume.Rewrites.refl V l⟩,
      Or.inr ⟨start, rfl, ⟨(splice_nil _ _).symm, ?_⟩⟩⟩
    rw [List.length_nil, hM.clustersFor_zero]
    by_cases hl0 : l = []
    · exact Or.inl ⟨hl0, rfl, hl.nil_iff.mp hl0⟩
    · obtain ⟨t, rfl⟩ := Chain.eq_cons (hl.chain hl0)
      exact Or.inr ⟨[], t, rfl, rfl, fun _ => rfl, by simp⟩
  · -- the loop starts with the first cluster of the chain
    have hl0 : l ≠ [] := fun h => hdata (hnil h)
    obtain ⟨q, rfl⟩ := Chain.eq_cons (hl.chain hl0)
    have hlt : ([] : List Nat).length * M.clusterSize < data.length := by
      have := List.length_pos_of_ne_nil hdata
      simpa using this
    have hrun' : writeLoop M data fuel start (([] : List Nat).length * M.clusterSize) s =
        some (exit, s') := by
      rw [List.length_nil, Nat.zero_mul]
      exact hrun
    obtain ⟨V', A', L, hat', hext, hexit⟩ := writeLoop_spec hM hat (p := []) hl hlt hrun' halloc
    refine ⟨V', A', L, hat', hext, ?_⟩
    rcases hexit with h | ⟨c, hc, hbytes, p, r, hL, h1, h2, h3⟩
    · exact Or.inl h
    · rw [List.length_nil, Nat.zero_mul, List.drop_zero] at hbytes
      refine Or.inr ⟨c, hc, hbytes, Or.inr ⟨p, r, hL, ?_, h3, by simp⟩⟩
      have hcount : M.clustersFor data.length = p.length + 1 := by
        refine hM.clustersFor_eq h2 ?_
        rw [Nat.succ_mul]
        omega
      rw [hcount]
      omega

/-- Where entry 0 ends a chain there is nothing to free behind cluster 0. -/
theorem shrinkChain_zero {fuel : Nat} {u : Unit} (hat : M.At s V A) (heof : IsEof (V.fat 0))
    (hrun : shrinkChain M fuel 0 s = some (u, s')) : M.At s' V A := by
  have h0 : M.HasEntry 0 := by
    show 0 < M.info.totalClusters + 2
    omega
  have hlast : ¬ V.fat 0 < fat32EntryEof := Nat.not_lt.mpr heof
  obtain ⟨s2, hnext, hr2⟩ := nextCluster_at hM hat h0
  rw [shrinkChain, Prog.bind_run hnext] at hrun
  simp only [] at hrun
  rw [if_neg hlast, Prog.pure_run] at hrun
  cases hrun
  exact hr2.stays hat

/-- A chain that has not been cut where the decision is right has no clusters behind the data. -/
theorem Mount.Sound.uncut_nil {l L a b : List Nat} {c size : Nat} {p : Prop} (hab : L = a ++ c :: b)
    (hcount : a.length + 1 = max 1 (M.clustersFor size)) (hmore : b ≠ [] → L = l) (hp : ¬ p)
    (hdecide : 2 ≤ l.length → size < l.length * M.clusterSize → p) : b = [] := by
  by_contra hb
  have hLl := hmore hb
  have hblen := List.length_pos_of_ne_nil hb
  have hlen2 : a.length + 2 ≤ l.length := by
    rw [← hLl, hab, List.length_append, List.length_cons]
    omega
  have hle : l.length * M.clusterSize ≤ size := by
    by_contra hlt
    exact hp (hdecide (by omega) (by omega))
  have hsize := (hM.clustersFor_le_iff size (a.length + 1)).mp (by omega)
  have hmul : (a.length + 2) * M.clusterSize ≤ l.length * M.clusterSize :=
    Nat.mul_le_mul_right _ hlen2
  have hexp : (a.length + 2) * M.clusterSize =
      (a.length + 1) * M.clusterSize + M.clusterSize := by ring
  have hpos := hM.clusterSize_pos
  omega

/-- The cut behind the loop, made or not made; for a file without clusters there is none, since
entry 0 of the table ends a chain. -/
theorem cutChain_spec {fuel start c : Nat} {l L : List Nat} {data : List UInt8} {p : Prop}
    {V' : Volume} {A' : List Nat} {s1 : FsState}
    (hat : M.At s V' A') (hext : M.Extends V start l V' L)
    (hw : M.WrittenTo V l V' L data c) (hz : c = 0 → p → IsEof (V'.fat 0))
    (hrun : (p ∧ ∃ u, shrinkChain M fuel c s = some (u, s1)) ∨ (¬ p ∧ s1 = s)) :
    ∃ V1 l1, M.At s1 V1 A' ∧ M.FileOn V1 start l1 ∧ V'.Rewrites L V1 l1 ∧
      (l1 = [] → data = []) ∧ ((2 ≤ l.length → data.length < l.length * M.clusterSize → p) →
        M.Overwritten V l V1 l1 data) := by
  have hpos := hM.clusterSize_pos
  obtain ⟨ext, hL⟩ := hext.kept
  rcases hw.last with ⟨hnil, hdata, hc0⟩ | ⟨a, b, hab, hcount, hmore, hne⟩
  · -- an empty file that stays empty
    subst hc0
    have hl : l = [] := by
      rw [hnil] at hL
      exact (List.append_eq_nil_iff.mp hL).1
    have hat1 : M.At s1 V' A' := by
      rcases hrun with ⟨hp, u, hshrink⟩ | ⟨-, rfl⟩
      · exact shrinkChain_zero hM hat (hz rfl hp) hshrink
      · exact hat
    refine ⟨V', L, hat1, hext.clusters, Volume.Rewrites.refl V' L, fun _ => hdata,
      fun _ => ⟨?_, [], ?_⟩⟩
    · rw [if_pos ⟨hl, hdata⟩, hnil, List.length_nil]
    · rw [hnil]
      simp
  · -- the chain is cut behind the last cluster written, or left as it is
    have hcut : ∃ V1 l1, M.At s1 V1 A' ∧ M.FileOn V1 start l1 ∧ V'.Rewrites L V1 l1 ∧
        V1.data = V'.data ∧ (l1 = a ++ [c] ∨ (¬ p ∧ l1 = L)) := by
      rcases hrun with ⟨hp, u, hshrink⟩ | ⟨hp, rfl⟩
      · have hcl := hext.clusters
        rw [hab] at hcl ⊢
        obtain ⟨V1, hat1, hl1, hrw1, hdata1⟩ := shrinkChain_spec hM hat hcl hshrink
        exact ⟨V1, _, hat1, hl1, hrw1, hdata1, Or.inl rfl⟩
      · exact ⟨V', L, hat, hext.clusters, Volume.Rewrites.refl V' L, rfl, Or.inr ⟨hp, rfl⟩⟩
    obtain ⟨V1, l1, hat1, hl1, hrw1, hdata1, hcase⟩ := hcut
    refine ⟨V1, l1, hat1, hl1, hrw1, ?_, ?_⟩
    · intro hnil
      rcases hcase with h | ⟨-, h⟩
      · rw [h] at hnil
        simp at hnil
      · rw [h, hab] at hnil
        simp at hnil
    intro hdecide
    have hl1eq : l1 = a ++ [c] := by
      rcases hcase with h | ⟨hp, h⟩
      · exact h
      · -- no cut: then the old chain was not longer than the data
        have hb : b = [] := hM.uncut_nil hab hcount hmore hp hdecide
        rw [h, hab, hb]
    have hl1len : l1.length = a.length + 1 := by
      rw [hl1eq, List.length_append, List.length_singleton]
    refine ⟨by rw [if_neg hne, hl1len, hcount], ?_⟩
    have hLl1 : L = l1 ++ b := by
      rw [hl1eq, hab]
      simp
    refine ⟨(V.bytes ext).drop (data.length - (V.bytes l).length), ?_⟩
    have hlenV' : ∀ x ∈ l1, (V'.data x).length = M.clusterSize := by
      intro x hx
      exact hat.data_length (hext.clusters.1 x (by rw [hLl1]; exact List.mem_append_left _ hx))
    calc V1.bytes l1
        = V'.bytes l1 := Volume.bytes_congr (fun x _ => by rw [hdata1])
      _ = (V'.bytes L).take (l1.length * M.clusterSize) := by
          rw [hLl1, Volume.bytes_take hlenV']
      _ = _ := by
          rw [hw.bytes, splice_zero, ← hL, Volume.bytes_append, List.drop_append,
            List.append_assoc]

/-- A call of `FAT32_WriteFile` for a file, part by part: `t` is the state when the clusters have
been handed out and the data are written as far as they will be. -/
inductive Mount.WriteRun (M : Mount) (fuel d : Nat) (e : Slot) (data : List UInt8)
    (s t : FsState) (ret : Nat) (e' : Slot) (s' : FsState) : Prop
  /-- There is no first cluster for an empty file. -/
  | unstarted (hstart : writeStart M fuel e data.length s = some (none, s')) (hret : ret = 0)
      (he : e' = e) (ht : t = s')
  /-- There is no further cluster. -/
  | stopped (c0 : Nat) (s1 : FsState)
      (hstart : writeStart M fuel e data.length s = some (some (c0, e'), s1))
      (hloop : writeLoop M data fuel c0 0 s1 = some (.early ret, s')) (ht : t = s')
  /-- All is written; the chain may be cut, and the directory entry follows. -/
  | stored (c0 c st : Nat) (e0 : Slot) (s1 s3 : FsState)
      (hstart : writeStart M fuel e data.length s = some (some (c0, e0), s1))
      (hloop : writeLoop M data fuel c0 0 s1 = some (.done ret c, t))
      (hcut : (ret < u32 (u32 (e.fileSize + M.clusterSize - 1) / M.clusterSize * M.clusterSize) ∧
          ∃ u, shrinkChain M fuel c t = some (u, s3)) ∨
        (¬ ret < u32 (u32 (e.fileSize + M.clusterSize - 1) / M.clusterSize * M.clusterSize) ∧
          s3 = t))
      (he : e' = if ret > e0.fileSize then e0.setFileSize ret else e0)
      (hentry : fat32WriteDirEntry M fuel d e' s3 = some (st, s'))

omit hM in
theorem writeFile_run {fuel d ret : Nat} {e e' : Slot} {data : List UInt8}
    (hfile : e.isDirectory = false)
    (hrun : fat32WriteFile M fuel d e data s = some ((ret, e'), s')) :
    ∃ t, M.WriteRun fuel d e data s t ret e' s' := by
  rw [fat32WriteFile, hfile, if_neg (by simp)] at hrun
  simp only [] at hrun
  obtain ⟨o, s1, hstart, hrest⟩ := Prog.bind_eq_some.mp hrun
  cases o with
  | none =>
      cases hrest
      exact ⟨s', .unstarted hstart rfl rfl rfl⟩
  | some q =>
      obtain ⟨c0, e0⟩ := q
      obtain ⟨exit, t, hloop, hfinish⟩ := Prog.bind_eq_some.mp hrest
      cases exit with
      | early n =>
          cases hfinish
          exact ⟨s', .stopped c0 s1 hstart hloop rfl⟩
      | done n c =>
          obtain ⟨rfl, he', s3, st, hentry, hcut⟩ := writeFinish_spec hfinish
          rw [← he'] at hentry
          exact ⟨t, .stored c0 c st e0 s1 s3 hstart hloop hcut he' hentry⟩

omit hM in
/-- What follows the loop adds nothing to the record, and neither does the loop take from it. -/
theorem Mount.WriteRun.recorded {fuel d ret : Nat} {e e' : Slot} {data : List UInt8} {t : FsState}
    (h : M.WriteRun fuel d e data s t ret e' s') (halloc : ∀ c ∈ s'.allocs, M.InRange c) :
    ∀ c ∈ t.allocs, M.InRange c := by
  have hG := M.keeps_grows
  cases h with
  | unstarted _ _ _ ht => rwa [ht]
  | stopped _ _ _ _ ht => rwa [ht]
  | stored c0 c st e0 s1 s3 _ _ hcut _ hentry =>
      have h3 := grows_before (fat32WriteDirEntry_steps hG fuel d e') hentry halloc
      rcases hcut with ⟨-, u, hshrink⟩ | ⟨-, rfl⟩
      · exact grows_before (shrinkChain_steps hG fuel c) hshrink h3
      · exact h3

/-- The size rounded up to whole clusters, by which the cut is decided. -/
theorem Mount.Sound.roundUp {l : List Nat} {n : Nat} (hlen : l.length = M.clustersFor n)
    (hsum : n + M.clusterSize ≤ 2 ^ 32) :
    u32 (u32 (n + M.clusterSize - 1) / M.clusterSize * M.clusterSize) =
      l.length * M.clusterSize := by
  have hpos := hM.clusterSize_pos
  have hbound := hM.clustersFor_lt n
  have h1 : u32 (n + M.clusterSize - 1) = n + M.clusterSize - 1 := by
    rw [u32]
    omega
  rw [h1, ← Mount.clustersFor, ← hlen, u32]
  rw [← hlen] at hbound
  omega

/-- A file without a cluster is cut only where entry 0 of the table ends a chain. -/
theorem Mount.Started.uncut {V0 V2 : Volume} {e e0 : Slot} {l l0 L : List Nat}
    {data : List UInt8} {c : Nat} (h : M.Started V e l data.length V0 e0 l0)
    (hz : l = [] → e.fileSize = 0 ∨ IsEof (V.fat 0)) (hext : M.Extends V0 e0.cluster l0 V2 L)
    (hw : M.WrittenTo V0 l0 V2 L data c) (hc : c = 0)
    (hcut : data.length <
      u32 (u32 (e.fileSize + M.clusterSize - 1) / M.clusterSize * M.clusterSize)) :
    IsEof (V2.fat 0) := by
  have hpos := hM.clusterSize_pos
  rcases hw.last with ⟨hLnil, hdata, -⟩ | ⟨a, b, hab, -⟩
  · have hl0 : l0 = [] := by
      have := hext.kept
      rw [hLnil] at this
      exact List.prefix_nil.mp this
    rcases h with ⟨-, rfl, rfl, -⟩ | ⟨-, -, x, -, -, rfl⟩
    · rcases hz hl0 with h0 | heof
      · rw [h0] at hcut
        have hzero : u32 (0 + M.clusterSize - 1) / M.clusterSize = 0 := by
          have := Nat.mod_le (0 + M.clusterSize - 1) (2 ^ 32)
          exact Nat.div_eq_of_lt (by rw [u32]; omega)
        rw [hzero, Nat.zero_mul] at hcut
        exact absurd hcut (Nat.not_lt_zero _)
      · have hfree : V0.fat 0 ≠ fat32EntryFree := by
          intro h
          rw [h] at heof
          exact absurd heof (by decide)
        have hframe := hext.rewrites.frame 0 (by rw [hl0]; simp) hfree
        rw [hframe.1]
        exact heof
    · cases hl0
  · have hcin := hext.clusters.1 c (by rw [hab]; simp)
    have := hcin.1
    omega

omit hM in
/-- What is written to the first cluster of an empty file is written to the file. -/
theorem Mount.Overwritten.ofStart {V0 V1 : Volume} {e e0 : Slot} {l l0 l1 : List Nat}
    {data : List UInt8} (h : M.Overwritten V0 l0 V1 l1 data)
    (hs : M.Started V e l data.length V0 e0 l0) : M.Overwritten V l V1 l1 data := by
  rcases hs with ⟨-, rfl, rfl, -⟩ | ⟨rfl, hsize, x, -, -, rfl⟩
  · exact h
  · have hdata : data ≠ [] := List.ne_nil_of_length_pos hsize
    obtain ⟨rest, hbytes⟩ := h.bytes
    refine ⟨?_, (V0.bytes [x]).drop data.length ++ rest, ?_⟩
    · rw [h.length, if_neg (by simp), if_neg (by simp [hdata])]
    · rw [hbytes, Volume.bytes_nil, List.drop_nil, List.append_nil, List.append_assoc]

/-- `FAT32_WriteFile` up to the directory entry: the volume `V1` in which the file has the clusters
`l1`, and the entry `e1` with the start cluster set. Then either the function has given up for
want of a cluster and left the directory alone, or all data are written and the entry follows. -/
theorem Mount.WriteRun.spec {fuel d ret : Nat} {e e' : Slot} {l : List Nat} {data : List UInt8}
    {t : FsState} (h : M.WriteRun fuel d e data s t ret e' s') (hat : M.At s V A)
    (hl : M.FileOn V e.cluster l) (hz : l = [] → e.fileSize = 0 ∨ IsEof (V.fat 0))
    (halloc : ∀ c ∈ t.allocs, M.InRange c) :
    ∃ s1 V1 A1 l1 e1, M.At s1 V1 A1 ∧ M.FileOn V1 e1.cluster l1 ∧ V.Rewrites l V1 l1 ∧
      (e1 = e ∨ (l = [] ∧ ∃ c, M.InRange c ∧ e1 = e.setCluster c)) ∧
      ((ret < data.length ∧ s' = s1 ∧ e' = e1) ∨
        (ret = data.length ∧ (l1 = [] → data = []) ∧
          e' = (if data.length > e.fileSize then e1.setFileSize data.length else e1) ∧
          (∃ r, fat32WriteDirEntry M fuel d e' s1 = some (r, s')) ∧
          (l.length = M.clustersFor e.fileSize → e.fileSize + M.clusterSize ≤ 2 ^ 32 →
            M.Overwritten V l V1 l1 data))) := by
  have hG := M.keeps_grows
  cases h with
  | unstarted hstart hret he ht =>
      subst ht
      rcases writeStart_spec hM hat hl hstart halloc with
        ⟨-, hr, -, hsize⟩ | ⟨V0, A0, l0, e0, ho, -⟩
      · exact ⟨t, V, A, l, e, hr.stays hat, hl, Volume.Rewrites.refl V l, Or.inl rfl,
          Or.inl ⟨by omega, rfl, he⟩⟩
      · cases ho
  | stopped c0 s1 hstart hloop ht =>
      -- no first cluster, or a loop that stops early: nothing is stored in the directory
      subst ht
      have halloc1 := grows_before (writeLoop_steps hG data fuel c0 0) hloop halloc
      rcases writeStart_spec hM hat hl hstart halloc1 with
        ⟨ho, -⟩ | ⟨V0, A0, l0, e0, ho, hat0, hl0, hrw0, -, hs⟩
      · cases ho
      cases ho
      obtain ⟨V2, A2, L, hat2, hext2, hexit⟩ := writeLoop_file hM hat0 hl0
        (fun h0 => List.eq_nil_of_length_eq_zero (hs.nil h0)) hloop halloc
      rcases hexit with ⟨w, hw, hlt⟩ | ⟨c, hc, -⟩
      · cases hw
        exact ⟨t, V2, A2, L, e', hat2, hext2.clusters, hrw0.trans hext2.rewrites, hs.entry,
          Or.inl ⟨hlt, rfl, rfl⟩⟩
      · cases hc
  | stored c0 c st e0 s1 s3 hstart hloop hcut he hentry =>
      -- the loop is done: the chain is cut to the data, and the entry is stored
      have halloc1 := grows_before (writeLoop_steps hG data fuel c0 0) hloop halloc
      rcases writeStart_spec hM hat hl hstart halloc1 with
        ⟨ho, -⟩ | ⟨V0, A0, l0, x0, ho, hat0, hl0, hrw0, -, hs⟩
      · cases ho
      cases ho
      obtain ⟨V2, A2, L, hat2, hext2, hexit⟩ := writeLoop_file hM hat0 hl0
        (fun h0 => List.eq_nil_of_length_eq_zero (hs.nil h0)) hloop halloc
      rcases hexit with ⟨w, hw, -⟩ | ⟨c', hc, hw⟩
      · cases hw
      cases hc
      obtain ⟨V1, l1, hat1, hl1, hrw1, hempty, hover⟩ :=
        cutChain_spec hM hat2 hext2 hw (hs.uncut hM hz hext2 hw) hcut
      refine ⟨s3, V1, A2, l1, e0, hat1, hl1, (hrw0.trans hext2.rewrites).trans hrw1, hs.entry,
        Or.inr ⟨rfl, hempty, by rw [he, hs.fileSize], ⟨st, hentry⟩, ?_⟩⟩
      intro hlen hsum
      refine (hover (fun h2 hlt => ?_)).ofStart hs
      rcases hs with ⟨-, rfl, -⟩ | ⟨-, -, x, -, -, rfl⟩
      · rw [hM.roundUp hlen hsum]
        exact hlt
      · simp at h2

theorem writeFile_spec {fuel d ret : Nat} {e e' : Slot} {l : List Nat} {data : List UInt8}
    (hat : M.At s V A) (hfile : e.isDirectory = false) (hl : M.FileOn V e.cluster l)
    (hz : l = [] → e.fileSize = 0 ∨ IsEof (V.fat 0))
    (hrun : fat32WriteFile M fuel d e data s = some ((ret, e'), s'))
    (halloc : ∀ c ∈ s'.allocs, M.InRange c) :
    ∃ s1 V1 A1 l1 e1, M.At s1 V1 A1 ∧ M.FileOn V1 e1.cluster l1 ∧ V.Rewrites l V1 l1 ∧
      (e1 = e ∨ (l = [] ∧ ∃ c, M.InRange c ∧ e1 = e.setCluster c)) ∧
      ((ret < data.length ∧ s' = s1 ∧ e' = e1) ∨
        (ret = data.length ∧ (l1 = [] → data = []) ∧
          e' = (if data.length > e.fileSize then e1.setFileSize data.length else e1) ∧
          (∃ r, fat32WriteDirEntry M fuel d e' s1 = some (r, s')) ∧
          (l.length = M.clustersFor e.fileSize → e.fileSize + M.clusterSize ≤ 2 ^ 32 →
            M.Overwritten V l V1 l1 data))) := by
  obtain ⟨t, hparts⟩ := writeFile_run hfile hrun
  exact hparts.spec hM hat hl hz (hparts.recorded halloc)

/-- With a supply of clusters for what the file lacks, `FAT32_WriteFile` hands out clusters of the
volume only. -/
theorem Mount.WriteRun.supplied {fuel d ret : Nat} {e e' : Slot} {l : List Nat}
    {data : List UInt8} {t : FsState} (h : M.WriteRun fuel d e data s t ret e' s')
    (ht : 1 ≤ M.info.totalClusters) (hat : M.At s V A) (hl : M.FileOn V e.cluster l)
    (hrec : ∀ c ∈ s.allocs, M.InRange c)
    (hsupply : M.Supplies s l (M.clustersFor data.length - l.length)) :
    ∀ c ∈ t.allocs, M.InRange c := by
  -- from the state after the start on, the supply is what the loop needs
  have hloop : ∀ {c0 : Nat} {e0 : Slot} {s1 : FsState} {exit : LoopExit},
      writeStart M fuel e data.length s = some (some (c0, e0), s1) →
      writeLoop M data fuel c0 0 s1 = some (exit, t) → ∀ c ∈ t.allocs, M.InRange c := by
    intro c0 e0 s1 exit hstart hloop
    obtain ⟨hrec1, hleft⟩ := writeStart_supplied hM ht hat hl hstart hrec hsupply
    rcases writeStart_spec hM hat hl hstart hrec1 with
      ⟨ho, -⟩ | ⟨V0, A0, l0, x0, ho, hat0, hl0, -, -, hs⟩
    · cases ho
    cases ho
    have hleft0 := hleft _ _ rfl l0 (by rw [hat0.view]; exact hl0)
    by_cases hdata : data = []
    · -- nothing to write
      subst hdata
      cases fuel with
      | zero => cases hloop
      | succ fuel =>
          rw [writeLoop, if_neg (by simp), Prog.pure_run] at hloop
          cases hloop
          exact hrec1
    · have hl0' : l0 ≠ [] := fun h0 => hdata (List.eq_nil_of_length_eq_zero (hs.nil h0))
      obtain ⟨q, rfl⟩ := Chain.eq_cons (hl0.chain hl0')
      have hlt : ([] : List Nat).length * M.clusterSize < data.length := by
        have := List.length_pos_of_ne_nil hdata
        simpa using this
      have hloop' : writeLoop M data fuel e0.cluster (([] : List Nat).length * M.clusterSize) s1 =
          some (exit, t) := by
        rw [List.length_nil, Nat.zero_mul]
        exact hloop
      exact writeLoop_supplied hM ht hat0 (p := []) hl0 hlt hloop' hrec1 hleft0
  cases h with
  | unstarted hstart _ _ ht' =>
      rw [ht']
      exact (writeStart_supplied hM ht hat hl hstart hrec hsupply).1
  | stopped c0 s1 hstart hrun ht' =>
      subst ht'
      exact hloop hstart hrun
  | stored c0 c st e0 s1 s3 hstart hrun _ _ _ => exact hloop hstart hrun

/-! ## The round trip -/

omit hM in
/-- The entry that `FAT32_WriteFile` leaves has the larger of the two sizes. -/
theorem fileSize_written {e e' e1 : Slot} {l : List Nat} {n : Nat} (hn : n < 2 ^ 32)
    (he1 : e1 = e ∨ (l = [] ∧ ∃ c, M.InRange c ∧ e1 = e.setCluster c))
    (he' : e' = if n > e.fileSize then e1.setFileSize n else e1) :
    e'.fileSize = max e.fileSize n ∧ e'.cluster = e1.cluster ∧ e'.isDirectory = e.isDirectory := by
  have h1 : e1.fileSize = e.fileSize ∧ e1.isDirectory = e.isDirectory := by
    rcases he1 with rfl | ⟨-, c, -, rfl⟩
    · exact ⟨rfl, rfl⟩
    · exact ⟨e.fileSize_setCluster c, e.isDirectory_setCluster c⟩
  by_cases hlt : n > e.fileSize
  · rw [if_pos hlt] at he'
    subst he'
    refine ⟨?_, e1.cluster_setFileSize n, (e1.isDirectory_setFileSize n).trans h1.2⟩
    rw [e1.fileSize_setFileSize hn]
    omega
  · rw [if_neg hlt] at he'
    subst he'
    exact ⟨by omega, rfl, h1.2⟩

/-- Writing a directory entry changes clusters of the directory only. -/
theorem writeDirEntry_keeps {fuel d r : Nat} {dl : List Nat} {e : Slot} (hat : M.At s V A)
    (hd : M.DirOn V d dl) (hrun : fat32WriteDirEntry M fuel d e s = some (r, s')) :
    ∃ V', M.At s' V' A ∧ V'.fat = V.fat ∧ ∀ c, c ∉ dl → V'.data c = V.data c := by
  obtain ⟨r', t, V', hat', hw, hcase⟩ := writeDirEntry_within hM hat hd.1 hd.2 e
  obtain ⟨-, rfl⟩ := hw.result hrun
  refine ⟨V', hat', ?_⟩
  rcases hcase with ⟨rfl, -⟩ | ⟨c, hc, i, -, -, rfl⟩
  · exact ⟨rfl, fun _ _ => rfl⟩
  · refine ⟨rfl, ?_⟩
    intro x hx
    rw [Volume.setData_data, Function.update_of_ne]
    rintro rfl
    exact hx hc

/-- Reading back: `FAT32_ReadFile` on the new entry `e'` returns as many bytes as the larger of
the two sizes, the data first and behind them the bytes that `FAT32_ReadFile` on the old entry
`e` returned there before; and the file has the clusters its size needs. -/
def RoundTrip (M : Mount) (s s' : FsState) (e e' : Slot) (data : List UInt8) : Prop :=
  (∃ old new t t', Prog.Ends (fun fuel => fat32ReadFile M fuel e) s (e.fileSize, old) t ∧
    Prog.Ends (fun fuel => fat32ReadFile M fuel e') s'
      (max e.fileSize data.length, new) t' ∧
    new.take (max e.fileSize data.length) =
      data ++ (old.take e.fileSize).drop data.length) ∧
  ∃ l', M.FileOn (M.view s') e'.cluster l' ∧ M.clustersFor e'.fileSize ≤ l'.length

omit hM in
/-- The first bytes of data written over a buffer. -/
theorem take_max_append {old data rest : List UInt8} {n : Nat} (hn : n ≤ old.length) :
    (data ++ old.drop data.length ++ rest).take (max n data.length) =
      data ++ (old.take n).drop data.length := by
  rw [List.append_assoc, List.take_append, List.drop_take]
  have h1 : data.take (max n data.length) = data := List.take_of_length_le (by omega)
  have h2 : max n data.length - data.length = n - data.length := by omega
  rw [h1, h2, List.take_append_of_le_length]
  rw [List.length_drop]
  omega

/-- The reads before and after, and the clusters after, in terms of the clusters `l'` that the
file has in the end. -/
theorem writeFile_reads {fuel d : Nat} {e e' : Slot} {l dl : List Nat} {data : List UInt8}
    {t : FsState}
    (hq : s.faults = []) (hfile : M.WellFormedFile (M.view s) e l)
    (hdir : M.DirOn (M.view s) d dl) (hdisj : ∀ c ∈ dl, c ∉ l)
    (hold : e.fileSize + M.clusterSize ≤ 2 ^ 32) (hnew : data.length + M.clusterSize ≤ 2 ^ 32)
    (hrun : M.WriteRun fuel d e data s t data.length e' s')
    (halloc : ∀ c ∈ t.allocs, M.InRange c) :
    ∃ l' rest u u', M.FileOn (M.view s') e'.cluster l' ∧ e'.fileSize = max e.fileSize data.length ∧
      l'.length = (if l = [] ∧ data = [] then 0 else max 1 (M.clustersFor data.length)) ∧
      (M.view s').bytes l' = (data ++ ((M.view s).bytes l).drop data.length ++ rest).take
        (l'.length * M.clusterSize) ∧
      Prog.Ends (fun fuel => fat32ReadFile M fuel e) s (e.fileSize, (M.view s).bytes l) u ∧
      Prog.Ends (fun fuel => fat32ReadFile M fuel e') s'
        (min e'.fileSize (l'.length * M.clusterSize),
          (M.view s').bytes (l'.take (M.clustersFor e'.fileSize))) u' := by
  have hpos := hM.clusterSize_pos
  have hat : M.At s (M.view s) s.allocs := ⟨hq, rfl, rfl⟩
  have hsize0 : l = [] → e.fileSize = 0 := by
    intro h
    have hlen := hfile.length
    rw [h, List.length_nil] at hlen
    have := (hM.clustersFor_le_iff e.fileSize 0).mp (by omega)
    omega
  obtain ⟨s1, V1, A1, l1, e1, hat1, hl1, hrw, he1, hcase⟩ :=
    hrun.spec hM hat hfile.clusters (fun h => Or.inl (hsize0 h)) halloc
  -- the volume behind the loop and the cut, and behind that the one with the new entry
  rcases hcase with ⟨hlt, -⟩ | ⟨-, -, he', ⟨r, hdirw⟩, hover⟩
  · omega
  · obtain ⟨hlen1, rest, hbytes1⟩ := hover hfile.length hold
    obtain ⟨hsize', hcl', hdir'⟩ := fileSize_written (by omega) he1 he'
    have hdir1 : M.DirOn V1 d dl := hrw.dirOn hdir hdisj
    have hdisj1 : ∀ c ∈ dl, c ∉ l1 := hrw.disjoint hdir.fileOn hdisj
    obtain ⟨V2, hat2, hfat2, hdata2⟩ := writeDirEntry_keeps hM hat1 hdir1 hdirw
    have hview : M.view s' = V2 := hat2.view
    rw [hview]
    have hl2 : M.FileOn V2 e'.cluster l1 := by
      rw [hcl']
      exact hl1.congr (fun c _ => by rw [hfat2])
    have hbytes2 : V2.bytes l1 = V1.bytes l1 :=
      Volume.bytes_congr (fun c hc => hdata2 c (fun hdl => hdisj1 c hdl hc))
    have hnil2 : l1 = [] → e'.fileSize = 0 := by
      intro h
      rw [h, List.length_nil] at hlen1
      by_cases hempty : l = [] ∧ data = []
      · rw [hsize', hsize0 hempty.1, hempty.2]
        rfl
      · rw [if_neg hempty] at hlen1
        omega
    have hdir2 : e'.isDirectory = false := hdir'.trans hfile.isFile
    obtain ⟨u, -, hread⟩ := readFile_ends hM hat hfile.isFile hfile.clusters hold hsize0
    obtain ⟨u', -, hread'⟩ := readFile_ends hM hat2 hdir2 hl2 (by rw [hsize']; omega) hnil2
    refine ⟨l1, rest, u, u', hl2, hsize', hlen1, by rw [hbytes2, hbytes1], ?_, hread'⟩
    have hle := hM.le_clustersFor e.fileSize
    rw [← hfile.length] at hle
    rw [← hfile.length, List.take_length, min_eq_left hle] at hread
    exact hread

/-- The file read back is whole only if the clusters left hold the old size. -/
theorem clustersFor_le_of_roundTrip {fuel d : Nat} {e e' : Slot} {l dl : List Nat}
    {data : List UInt8} {t : FsState} (hq : s.faults = []) (hfile : M.WellFormedFile (M.view s) e l)
    (hdir : M.DirOn (M.view s) d dl) (hdisj : ∀ c ∈ dl, c ∉ l)
    (hold : e.fileSize + M.clusterSize ≤ 2 ^ 32) (hnew : data.length + M.clusterSize ≤ 2 ^ 32)
    (hrun : M.WriteRun fuel d e data s t data.length e' s')
    (halloc : ∀ c ∈ t.allocs, M.InRange c)
    (hround : RoundTrip M s s' e e' data) :
    M.clustersFor e.fileSize ≤ max 1 (M.clustersFor data.length) := by
  obtain ⟨l', rest, u, u', hl', hsize', hlen, hbytes, hread, hread'⟩ :=
    writeFile_reads hM hq hfile hdir hdisj hold hnew hrun halloc
  obtain ⟨⟨old, new, v, v', -, hnewread, -⟩, -⟩ := hround
  -- the count read back is that of the clusters left
  have hcount := (Prod.mk.inj (hread'.unique hnewread).1).1
  have hle : e.fileSize ≤ l'.length * M.clusterSize := by
    rw [hsize'] at hcount
    omega
  have hclusters := (hM.clustersFor_le_iff _ _).mpr hle
  rw [hlen] at hclusters
  split at hclusters <;> omega

/-- And it is whole when they do. -/
theorem roundTrip_of_clustersFor_le {fuel d : Nat} {e e' : Slot} {l dl : List Nat}
    {data : List UInt8} {t : FsState} (hq : s.faults = [])
    (hfile : M.WellFormedFile (M.view s) e l) (hdir : M.DirOn (M.view s) d dl)
    (hdisj : ∀ c ∈ dl, c ∉ l) (hold : e.fileSize + M.clusterSize ≤ 2 ^ 32)
    (hnew : data.length + M.clusterSize ≤ 2 ^ 32)
    (hrun : M.WriteRun fuel d e data s t data.length e' s')
    (halloc : ∀ c ∈ t.allocs, M.InRange c)
    (hcond : M.clustersFor e.fileSize ≤ max 1 (M.clustersFor data.length)) :
    RoundTrip M s s' e e' data := by
  obtain ⟨l', rest, u, u', hl', hsize', hlen, hbytes, hread, hread'⟩ :=
    writeFile_reads hM hq hfile hdir hdisj hold hnew hrun halloc
  -- with the condition no cluster that `file_size` counts is freed
  have hneed : M.clustersFor e'.fileSize ≤ l'.length := by
    rw [hM.clustersFor_le_iff, hsize']
    have h1 : e.fileSize ≤ l'.length * M.clusterSize := by
      rw [← hM.clustersFor_le_iff, hlen]
      split
      · rename_i hempty
        have := hfile.length
        rw [hempty.1, List.length_nil] at this
        omega
      · exact hcond
    have h2 : data.length ≤ l'.length * M.clusterSize := by
      rw [← hM.clustersFor_le_iff, hlen]
      split
      · rename_i hempty
        rw [hempty.2, List.length_nil, hM.clustersFor_zero]
      · omega
    omega
  have hcount : min e'.fileSize (l'.length * M.clusterSize) = max e.fileSize data.length := by
    rw [min_eq_left ((hM.clustersFor_le_iff _ _).mp hneed), hsize']
  rw [hcount] at hread'
  refine ⟨⟨_, _, u, u', hread, hread', ?_⟩, l', hl', hneed⟩
  · -- the clusters that are read hold the whole file
    have hroom := hM.le_clustersFor e'.fileSize
    have hlens : ∀ c ∈ l'.take (M.clustersFor e'.fileSize),
        ((M.view s').data c).length = M.clusterSize :=
      fun c hc => M.view_data_length s' (hl'.1 c (List.mem_of_mem_take hc))
    have htake : (M.view s').bytes (l'.take (M.clustersFor e'.fileSize)) =
        ((M.view s').bytes l').take (M.clustersFor e'.fileSize * M.clusterSize) := by
      calc (M.view s').bytes (l'.take (M.clustersFor e'.fileSize))
          = ((M.view s').bytes (l'.take (M.clustersFor e'.fileSize) ++
              l'.drop (M.clustersFor e'.fileSize))).take
                ((l'.take (M.clustersFor e'.fileSize)).length * M.clusterSize) :=
            (Volume.bytes_take hlens).symm
        _ = _ := by rw [List.take_append_drop, List.length_take, min_eq_left hneed]
    have hold' : e.fileSize ≤ ((M.view s).bytes l).length := by
      rw [Volume.bytes_length (fun c hc => M.view_data_length s (hfile.clusters.1 c hc)),
        hfile.length]
      exact hM.le_clustersFor e.fileSize
    rw [← hsize', htake, hbytes, List.take_take, List.take_take, min_eq_left (by omega),
      min_eq_left (by
        have := (hM.clustersFor_le_iff e'.fileSize l'.length).mp hneed
        omega), hsize', take_max_append hold']


end Sound

/-! A file of 600 bytes in the clusters 3 and 4, its entry in cluster 2. -/

def smallEntry : Slot :=
  (mkSfn (nameTo83 [65]) attrArchive
    { second := 0, minute := 0, hour := 0, day := 1, month := 1, year := 0 } 3).setFileSize 600

def smallFile : FsState :=
  smallState [0x0FFFFFF8, 0x0FFFFFF8, 0x0FFFFFF8, 4, 0x0FFFFFF8]
    (fun c => if c = 2 then smallEntry.1 else [])

end Os003
