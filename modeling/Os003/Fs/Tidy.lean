import Os003.Fs.Append
import Os003.Fs.Lookup
import Os003.Fs.Tree

set_option autoImplicit false

/-! # No cross-linked clusters

Each of the four operations on files is a change of one entry in the sense of `Mount.Changes`, so a
tidy volume stays tidy through every sequence of them. Whether the operation succeeds or gives up
in the middle does not matter.
-/

namespace Os003

open Bytes Linked

section Sound

variable {M : Mount} (hM : M.Sound) {s s' : FsState} {V V1 V' : Volume} {A : List Nat}
  {o : Owner} {dl l l1 l' : List Nat} {c i : Nat}

/-! ## One operation -/

/-- The entry in slot `i` of the cluster `c` is written back, with another size or start cluster at
most; the other slots of the cluster stay. -/
structure Volume.Refiles (V V' : Volume) (c i : Nat) : Prop where
  others : ∀ j, j ≠ i → V'.slot c j = V.slot c j
  like : (V.slot c i).Like (V'.slot c i)

/-- A file rewritten from the clusters `l` to `l1`, and its entry written back with the clusters
`l'` among them. -/
theorem Mount.Tidy.rewritten (ht : M.Tidy V) (hat : M.EntryAt V o dl c i l)
    (hfile : (V.slot c i).isDirectory = false) (hrw : V.Rewrites l V1 l1)
    (hsub : ∀ x ∈ l', x ∈ l1) (hfat : V'.fat = V1.fat)
    (hdata : ∀ x, x ≠ c → V'.data x = V1.data x) (hslots : V.Refiles V' c i)
    (hchain : M.FileOn V1 (V'.slot c i).cluster l')
    (hempty : (V'.slot c i).cluster = 0 → (V'.slot c i).fileSize = 0 ∨ IsEof (V1.fat 0)) :
    M.Changes V V' dl c i l l' := by
  have hlive : ∀ j, M.LiveAt V' c j → M.LiveAt V c j := fun j hj =>
    (SlotLive.before hat.live (fun k hk => Or.inl (hslots.others k hk)) hj).1
  have hdir : (V'.slot c i).isDirectory = (V.slot c i).isDirectory := hslots.like.isDirectory
  refine ⟨fun x hx => hrw.fresh x (hsub x hx), ?_, hlive, fun j hj _ => hslots.others j hj,
    ?_, fun _ => hdir, ?_, ?_, ?_⟩
  · intro x hx hfree
    have hxl : x ∉ l := by
      intro h
      rw [hfile] at hx
      cases hx h
    obtain ⟨h1, h2⟩ := hrw.frame x hxl hfree
    exact ⟨by rw [hfat, h1], fun hxc => (hdata x hxc).trans h2⟩
  · intro _
    exact hchain.congr (fun x _ => by rw [hfat])
  · intro h
    rw [hfile] at h
    cases h
  · intro _ h0
    rw [hfat]
    exact hempty h0
  · intro _ x hx j hj h
    exact ht.unique o dl hat.parent hat.dir hat.dirChain x hx c hat.mem j i hj hat.live
      (h.trans hslots.like.name)

/-- The entry `0` of the table is none of a file. -/
theorem Volume.Rewrites.eof_zero (hl : ∀ x ∈ l, M.InRange x) (hrw : V.Rewrites l V1 l1)
    (heof : IsEof (V.fat 0)) : IsEof (V1.fat 0) := by
  have hfree : V.fat 0 ≠ fat32EntryFree := by
    intro h
    rw [h] at heof
    exact absurd heof (by decide)
  have hl0 : 0 ∉ l := by
    intro h
    have := (hl 0 h).1
    omega
  rw [(hrw.frame 0 hl0 hfree).1]
  exact heof

/-- A file operation that gave up has left the entry alone, whatever it has done to the chain. -/
theorem Mount.Tidy.gaveUp (ht : M.Tidy V) (hat : M.EntryAt V o dl c i l)
    (hfile : (V.slot c i).isDirectory = false) (hrw : V.Rewrites l V1 l1) {e : Slot}
    (hl1 : M.FileOn V1 e.cluster l1)
    (he : e = V.slot c i ∨ (l = [] ∧ ∃ x, M.InRange x ∧ e = (V.slot c i).setCluster x)) :
    ∃ l', M.Changes V V1 dl c i l l' ∧ V.Refiles V1 c i := by
  have hsame : V1.data c = V.data c :=
    (hrw.frame c (ht.apart hat c hat.mem) (hat.dirChain.fat_ne_free hat.mem)).2
  have hslot : ∀ j, V1.slot c j = V.slot c j := by
    intro j
    rw [Volume.slot, Volume.slot, hsame]
  -- an empty file that got its first cluster is still empty on the disk
  have hchain : ∃ l', M.FileOn V1 (V.slot c i).cluster l' ∧ ∀ x ∈ l', x ∈ l1 := by
    rcases he with rfl | ⟨hnil, -⟩
    · exact ⟨l1, hl1, fun x hx => hx⟩
    · have h0 := hat.chain.nil_iff.mp hnil
      exact ⟨[], ⟨by simp, Or.inl ⟨h0, rfl⟩⟩, by simp⟩
  obtain ⟨l', hl', hsub⟩ := hchain
  have hslots : V.Refiles V1 c i := ⟨fun j _ => hslot j, by rw [hslot i]; exact Slot.Like.refl _⟩
  refine ⟨l', ht.rewritten hat hfile hrw hsub rfl (fun _ _ => rfl) hslots ?_ ?_, hslots⟩
  · rw [hslot i]
    exact hl'
  · rw [hslot i]
    intro h0
    rcases ht.empty c i hat.present h0 with h | h
    · exact Or.inl h
    · exact Or.inr (hrw.eof_zero hat.chain.1 h)

include hM

/-- A file operation that went through has written the entry back, with another size and perhaps
another first cluster. -/
theorem Mount.Tidy.stored (ht : M.Tidy V) (hat : M.EntryAt V o dl c i l)
    (hfile : (V.slot c i).isDirectory = false) (hd : M.startOf V o ≠ 0)
    (hrw : V.Rewrites l V1 l1) {fuel r : Nat} {e e' : Slot} (hs : M.At s V1 A)
    (hl1 : M.FileOn V1 e.cluster l1)
    (he : e = V.slot c i ∨ (l = [] ∧ ∃ x, M.InRange x ∧ e = (V.slot c i).setCluster x))
    (he' : e' = e ∨ ∃ n, e' = e.setFileSize n)
    (hempty : e'.cluster = 0 → e' = V.slot c i)
    (hrun : fat32WriteDirEntry M fuel (M.startOf V o) e' s = some (r, s')) :
    ∃ V', M.At s' V' A ∧ M.Changes V V' dl c i l l1 ∧ V.Refiles V' c i := by
  have hlike : (V.slot c i).Like e' := by
    refine (Slot.Like.of_start he).trans ?_
    rcases he' with rfl | ⟨n, rfl⟩
    · exact Slot.Like.refl _
    · exact Slot.Like.setFileSize e n
  have hcl : e'.cluster = e.cluster := by
    rcases he' with rfl | ⟨n, rfl⟩
    · rfl
    · exact e.cluster_setFileSize n
  have hdir : M.DirOn V (M.startOf V o) dl :=
    ⟨hat.dirChain.chain (fun h => hd (hat.dirChain.nil_iff.mp h)), hat.dirChain.1⟩
  have hvalid : isValidSfnEntry e' = true := by
    rw [hlike.valid]
    exact hat.live.valid
  -- the entry is the only one with its name, so it is the one that the new one overwrites
  obtain ⟨hat', -, hslot⟩ := hrw.storeEntry hM hs hdir (ht.apart hat) hat.mem hat.live
    hlike.name.symm hvalid (fun x hx j h1 h2 => ht.unique o dl hat.parent hat.dir hat.dirChain x hx
      c hat.mem j i h1 hat.live (h2.trans hlike.name)) hrun
  have hroom : 32 * i + 32 ≤ (V.data c).length := by
    have hsame := (hrw.frame c (ht.apart hat c hat.mem) (hat.dirChain.fat_ne_free hat.mem)).2
    rw [← hsame, hs.data_length (hat.dirChain.1 c hat.mem)]
    exact hM.slot_room hat.live.lt
  have hslots : V.Refiles (V1.setData c (setSlot (V.data c) i e')) c i := by
    refine ⟨?_, by rw [hslot]; exact hlike⟩
    intro j hj
    rw [Volume.slot, Volume.setData_data, Function.update_self, slotAt_setSlot _ _ _ _ hroom,
      if_neg hj, Volume.slot]
  refine ⟨_, hat', ht.rewritten hat hfile hrw (fun x hx => hx) (Volume.setData_fat _ _ _) ?_ hslots
    ?_ ?_, hslots⟩
  · intro x hx
    rw [Volume.setData_data, Function.update_of_ne hx]
  · rw [hslot, hcl]
    exact hl1
  · -- without a cluster the entry is the one from before
    rw [hslot]
    intro h0
    have heq := hempty h0
    rw [heq] at h0 ⊢
    rcases ht.empty c i hat.present h0 with h | h
    · exact Or.inl h
    · exact Or.inr (hrw.eof_zero hat.chain.1 h)

/-- What `FAT32_WriteFile` does to an entry of the tree: nothing, or it changes a file. -/
theorem writeFile_changes {fuel ret : Nat} {e' : Slot} {data : List UInt8} (ht : M.Tidy V)
    (hs : M.At s V A) (hat : M.EntryAt V o dl c i l) (hd : M.startOf V o ≠ 0)
    (hrun : fat32WriteFile M fuel (M.startOf V o) (V.slot c i) data s = some ((ret, e'), s'))
    (halloc : ∀ x ∈ s'.allocs, M.InRange x) : ∃ V' A', M.At s' V' A' ∧ (V' = V ∨
      ∃ l', (V.slot c i).isDirectory = false ∧ M.Changes V V' dl c i l l' ∧ V.Refiles V' c i) := by
  by_cases hfile : (V.slot c i).isDirectory = false
  · have hz : l = [] → (V.slot c i).fileSize = 0 ∨ IsEof (V.fat 0) := fun hnil =>
      ht.empty c i hat.present (hat.chain.nil_iff.mp hnil)
    obtain ⟨s1, V1, A1, l1, e1, hs1, hl1, hrw, he1, hcase⟩ :=
      writeFile_spec hM hs hfile hat.chain hz hrun halloc
    rcases hcase with ⟨-, rfl, -⟩ | ⟨-, hnil, he', ⟨r, hdirw⟩, -⟩
    · obtain ⟨l', hch, hslots⟩ := ht.gaveUp hat hfile hrw hl1 he1
      exact ⟨V1, A1, hs1, Or.inr ⟨l', hfile, hch, hslots⟩⟩
    · have hstored : e' = e1 ∨ ∃ n, e' = e1.setFileSize n := by
        rw [he']
        split
        · exact Or.inr ⟨_, rfl⟩
        · exact Or.inl rfl
      have hempty : e'.cluster = 0 → e' = V.slot c i := by
        intro h0
        have hcl : e'.cluster = e1.cluster := by
          rw [he']
          split
          · exact e1.cluster_setFileSize _
          · rfl
        -- without a cluster nothing was written, and the entry is the old one
        have hdata := hnil (hl1.nil_iff.mpr (by rw [← hcl, h0]))
        rw [hdata, List.length_nil, if_neg (by omega)] at he'
        rcases he1 with rfl | ⟨-, x, hx, rfl⟩
        · exact he'
        · rw [hcl, Slot.cluster_setCluster _ (hx.hasEntry.lt hM)] at h0
          have := hx.1
          omega
      obtain ⟨V', hs', hch, hslots⟩ :=
        ht.stored hM hat hfile hd hrw hs1 hl1 he1 hstored hempty hdirw
      exact ⟨V', A1, hs', Or.inr ⟨l1, hfile, hch, hslots⟩⟩
  · have hrun' : s' = s := by
      rw [fat32WriteFile, if_pos (by simpa using hfile), Prog.pure_run] at hrun
      cases hrun
      rfl
    subst hrun'
    exact ⟨V, A, hs, Or.inl rfl⟩

/-- What `FAT32_AppendFile` does to an entry of the tree. -/
theorem appendFile_changes {fuel ret : Nat} {e' : Slot} {data : List UInt8} (ht : M.Tidy V)
    (hs : M.At s V A) (hat : M.EntryAt V o dl c i l) (hd : M.startOf V o ≠ 0)
    (hrun : fat32AppendFile M fuel (M.startOf V o) (V.slot c i) data s = some ((ret, e'), s'))
    (halloc : ∀ x ∈ s'.allocs, M.InRange x) : ∃ V' A', M.At s' V' A' ∧ (V' = V ∨
      ∃ l', (V.slot c i).isDirectory = false ∧ M.Changes V V' dl c i l l' ∧ V.Refiles V' c i) := by
  by_cases hfile : (V.slot c i).isDirectory = false
  · obtain ⟨s1, V1, A1, l1, e1, hs1, hl1, hrw, he1, hcase⟩ :=
      appendFile_spec hM hs hfile hat.chain hrun halloc
    rcases hcase with ⟨-, rfl, -⟩ | ⟨-, hne, he', ⟨r, hdirw⟩, -⟩
    · obtain ⟨l', hch, hslots⟩ := ht.gaveUp hat hfile hrw hl1 he1
      exact ⟨V1, A1, hs1, Or.inr ⟨l', hfile, hch, hslots⟩⟩
    · have hempty : e'.cluster = 0 → e' = V.slot c i := by
        intro h0
        rw [he', e1.cluster_setFileSize] at h0
        exact absurd (hl1.nil_iff.mpr h0) hne
      obtain ⟨V', hs', hch, hslots⟩ :=
        ht.stored hM hat hfile hd hrw hs1 hl1 he1 (Or.inr ⟨_, he'⟩) hempty hdirw
      exact ⟨V', A1, hs', Or.inr ⟨l1, hfile, hch, hslots⟩⟩
  · have hrun' : s' = s := by
      rw [fat32AppendFile, if_pos (Or.inr (by simpa using hfile)), Prog.pure_run] at hrun
      cases hrun
      rfl
    subst hrun'
    exact ⟨V, A, hs, Or.inl rfl⟩

/-- `FAT32_WriteFile` on an entry of the tree. -/
theorem Mount.Tidy.write {fuel ret : Nat} {e' : Slot} {data : List UInt8} (ht : M.Tidy V)
    (hs : M.At s V A) (hat : M.EntryAt V o dl c i l) (hd : M.startOf V o ≠ 0)
    (hrun : fat32WriteFile M fuel (M.startOf V o) (V.slot c i) data s = some ((ret, e'), s'))
    (halloc : ∀ x ∈ s'.allocs, M.InRange x) : s'.faults = [] ∧ M.Tidy (M.view s') := by
  obtain ⟨V', A', hs', rfl | ⟨l', -, hch, -⟩⟩ := writeFile_changes hM ht hs hat hd hrun halloc
  · rw [hs'.view]
    exact ⟨hs'.quiet, ht⟩
  · rw [hs'.view]
    exact ⟨hs'.quiet, ht.update hat hch⟩

/-- `FAT32_AppendFile` on an entry of the tree. -/
theorem Mount.Tidy.append {fuel ret : Nat} {e' : Slot} {data : List UInt8} (ht : M.Tidy V)
    (hs : M.At s V A) (hat : M.EntryAt V o dl c i l) (hd : M.startOf V o ≠ 0)
    (hrun : fat32AppendFile M fuel (M.startOf V o) (V.slot c i) data s = some ((ret, e'), s'))
    (halloc : ∀ x ∈ s'.allocs, M.InRange x) : s'.faults = [] ∧ M.Tidy (M.view s') := by
  obtain ⟨V', A', hs', rfl | ⟨l', -, hch, -⟩⟩ := appendFile_changes hM ht hs hat hd hrun halloc
  · rw [hs'.view]
    exact ⟨hs'.quiet, ht⟩
  · rw [hs'.view]
    exact ⟨hs'.quiet, ht.update hat hch⟩

/-- The slots of a live entry are marked as deleted. -/
theorem removeSlots_at {r : Nat} {buf : List UInt8} (hs : M.At s V A) (hc : M.InRange c)
    (hlen : buf.length = M.clusterSize) (hlive : SlotLive buf M.slotCount i)
    (hrun : removeSlots M c buf i (pieces buf [] i) s = some (r, s')) :
    r = 0 ∧ M.At s' (V.setData c (markDeleted buf (pieces buf [] i ++ [i]))) A := by
  obtain ⟨hlen', -, -⟩ := removed_spec hM hlen hlive
  obtain ⟨s1, hwrite, hs1⟩ := writeCluster_at hM hs hc hlen'
  rw [removeSlots, Prog.bind_run hwrite, if_neg (by simp), Prog.bind_run (ata_flush_run _ _),
    Prog.pure_run] at hrun
  cases hrun
  exact ⟨rfl, hs1.quiet, by rw [Mount.view_note]; exact hs1.view, hs1.allocs⟩

omit hM in
/-- A directory cluster written back with an entry renamed or removed: what else is live in it
was there before. -/
theorem Mount.Tidy.relabel (ht : M.Tidy V) (hat : M.EntryAt V o dl c i l) {buf : List UInt8}
    (hfat : V1 = V ∨ (V1 = V.clear l ∧ (V.slot c i).isDirectory = false ∧
      isValidSfnEntry (slotAt buf i) = false))
    (hsame : ∀ k, k ≠ i → slotAt buf k = V.slot c k ∨
      (isValidSfnEntry (slotAt buf k) = false ∧ (V.slot c k).name0 ≠ 0))
    (hslot : isValidSfnEntry (slotAt buf i) = true → ∃ n, slotAt buf i = (V.slot c i).setName n ∧
      ∀ x ∈ dl, ∀ j, M.LiveAt V x j → (V.slot x j).name ≠ n) :
    M.Changes V (V1.setData c buf) dl c i l l := by
  have hdata : (V1.setData c buf).data c = buf := by
    rw [Volume.setData_data, Function.update_self]
  have hbefore : ∀ j, M.LiveAt (V1.setData c buf) c j →
      M.LiveAt V c j ∧ (j ≠ i → slotAt buf j = V.slot c j) := by
    intro j hj
    rw [Mount.LiveAt, hdata] at hj
    exact SlotLive.before hat.live hsame hj
  -- a live entry has kept everything but its name
  have hkept : M.LiveAt (V1.setData c buf) c i → V1 = V ∧ ∃ n,
      (V1.setData c buf).slot c i = (V.slot c i).setName n ∧
        ∀ x ∈ dl, ∀ j, M.LiveAt V x j → (V.slot x j).name ≠ n := by
    intro hj
    rw [Mount.LiveAt, hdata] at hj
    obtain ⟨n, hn, hnew⟩ := hslot hj.valid
    refine ⟨?_, n, ?_, hnew⟩
    · rcases hfat with h | ⟨-, -, h⟩
      · exact h
      · rw [hj.valid] at h
        cases h
    · rw [Volume.slot, hdata, hn]
  refine ⟨fun x hx => Or.inl hx, ?_, fun j hj => (hbefore j hj).1, ?_, ?_, ?_, ?_, ?_, ?_⟩
  · intro x hx _
    refine ⟨?_, fun hxc => ?_⟩
    · rcases hfat with rfl | ⟨rfl, hfile, -⟩
      · rfl
      · show (if x ∈ l then fat32EntryFree else V.fat x) = V.fat x
        rw [if_neg]
        intro h
        rw [hfile] at hx
        cases hx h
    · rw [Volume.setData_data, Function.update_of_ne hxc]
      rcases hfat with rfl | ⟨rfl, -⟩
      · rfl
      · rfl
  · intro j hj hlive
    rw [Volume.slot, hdata]
    exact (hbefore j hlive).2 hj
  · intro hlive
    obtain ⟨rfl, n, hn, -⟩ := hkept hlive
    rw [hn, Slot.cluster_setName]
    exact hat.chain.congr (fun x _ => rfl)
  · intro hlive
    obtain ⟨-, n, hn, -⟩ := hkept hlive
    rw [hn, Slot.isDirectory, Slot.attr_setName, Slot.isDirectory]
  · intro _ hlive
    obtain ⟨-, n, hn, -⟩ := hkept hlive
    rw [hn, Slot.cluster_setName]
  · intro hlive h0
    obtain ⟨rfl, n, hn, -⟩ := hkept hlive
    rw [hn, Slot.cluster_setName] at h0
    rw [hn, Slot.fileSize_setName]
    exact ht.empty c i hat.present h0
  · intro hlive x hx j hj hname
    obtain ⟨-, n, hn, hnew⟩ := hkept hlive
    rw [hn, Slot.name_setName] at hname
    exact absurd hname (hnew x hx j hj)

/-- The entry in slot `i` of the cluster `c`, one of the clusters `dl`, matches the name, as
`FAT32_RenameFile`, `FAT32_RemoveDir` and `FAT32_DeleteFile` compare. -/
structure Mount.Selected (M : Mount) (V : Volume) (dl : List Nat) (name : List UInt8) (c i : Nat) :
    Prop where
  mem : c ∈ dl
  live : M.LiveAt V c i
  matched : matchedBy orderedLongName name (V.data c) (pieces (V.data c) [] i) i = true

/-- What `FAT32_RenameFile` does in a directory of the tree: nothing, since the new name is found or
the old one is not, or it writes a cluster back with one entry renamed, to a name that no entry of the
directory has. -/
theorem renameFile_at {fuel r : Nat} {oldName newName : List UInt8} (ht : M.Tidy V)
    (hs : M.At s V A) (ho : M.Present V o) (hdir : V.isDirOf o = true) (hd : M.startOf V o ≠ 0)
    (hrun : fat32RenameFile M fuel (M.startOf V o) oldName newName s = some (r, s')) :
    ∃ dl, M.FileOn V (M.startOf V o) dl ∧
      ((r = 4 ∧ M.At s' V A ∧ ∃ e t,
          fat32FindEntryAny M fuel (M.startOf V o) newName s = some ((0, e), t)) ∨
        (r = 1 ∧ M.At s' V A ∧ ∀ c i, ¬ M.Selected V dl oldName c i) ∨
        (r = 0 ∧ ∃ c i l, M.Selected V dl oldName c i ∧ M.EntryAt V o dl c i l ∧
          (∀ x ∈ dl, ∀ j, M.LiveAt V x j → (V.slot x j).name ≠ nameTo83 newName) ∧
          M.At s' (V.setData c (renamedCluster (V.data c) i (pieces (V.data c) [] i) newName)) A)) := by
  obtain ⟨dl, hdl⟩ := ht.chain o ho
  have hdirOn : M.DirOn V (M.startOf V o) dl :=
    ⟨hdl.chain (fun h => hd (hdl.nil_iff.mp h)), hdl.1⟩
  refine ⟨dl, hdl, ?_⟩
  rw [fat32RenameFile] at hrun
  obtain ⟨⟨st, found⟩, s1, hfind, hrest⟩ := Prog.bind_eq_some.mp hrun
  obtain ⟨hr1, hcase⟩ := findEntryAny_spec hM hs hdirOn hfind
  have hs1 := hr1.stays hs
  simp only [] at hrest
  rcases hcase with ⟨rfl, -⟩ | ⟨hst, -, hnew⟩
  · -- the new name is taken
    rw [if_pos rfl, Prog.pure_run] at hrest
    cases hrest
    exact Or.inl ⟨rfl, hs1, _, _, hfind⟩
  · rw [if_neg hst] at hrest
    obtain ⟨s2, hr2, hhit⟩ := scanOrdered_walk hM hs1 hdirOn oldName _ _ _ _ hrest
    have hs2 := hr2.stays hs1
    rcases hhit with ⟨c, hc, i, hlive, hmatch, hhit⟩ | ⟨hnone, x, buf, lfn, hend⟩
    · have hlen := hs2.data_length (hdl.1 c hc)
      obtain ⟨h1, -, -⟩ := renamedCluster_spec hM hlen hlive newName
      obtain ⟨s3, hwrite, hs3⟩ := writeCluster_at hM hs2 (hdl.1 c hc) h1
      simp only [] at hhit
      rw [Prog.bind_run hwrite, if_neg (by simp), Prog.bind_run (ata_flush_run _ _),
        Prog.pure_run] at hhit
      cases hhit
      obtain ⟨l, hl⟩ := ht.chain (some (c, i)) (Mount.Present.entry ho hdir hdl hc hlive)
      refine Or.inr (Or.inr ⟨rfl, c, i, l, ⟨hc, hlive, hmatch⟩, ⟨ho, hdir, hdl, hc, hlive, hl⟩, hnew, ?_⟩)
      exact ⟨hs3.quiet, by rw [Mount.view_note]; exact hs3.view, hs3.allocs⟩
    · rw [Prog.pure_run] at hend
      cases hend
      refine Or.inr (Or.inl ⟨rfl, hs2, fun c i hsel => ?_⟩)
      have hmatch := hsel.matched
      rw [hnone c hsel.mem i hsel.live] at hmatch
      cases hmatch

/-- `FAT32_RenameFile` in a directory of the tree. -/
theorem Mount.Tidy.rename {fuel r : Nat} {oldName newName : List UInt8} (ht : M.Tidy V)
    (hs : M.At s V A) (ho : M.Present V o) (hdir : V.isDirOf o = true) (hd : M.startOf V o ≠ 0)
    (hrun : fat32RenameFile M fuel (M.startOf V o) oldName newName s = some (r, s')) :
    s'.faults = [] ∧ M.Tidy (M.view s') := by
  obtain ⟨dl, -, ⟨-, hs', -⟩ | ⟨-, hs', -⟩ | ⟨-, c, i, l, -, hat, hnew, hs'⟩⟩ :=
    renameFile_at hM ht hs ho hdir hd hrun
  · rw [hs'.view]
    exact ⟨hs'.quiet, ht⟩
  · rw [hs'.view]
    exact ⟨hs'.quiet, ht⟩
  · have hlen := hs.data_length (hat.dirChain.1 c hat.mem)
    obtain ⟨-, h2, h3⟩ := renamedCluster_spec hM hlen hat.live newName
    rw [hs'.view]
    exact ⟨hs'.quiet, ht.update hat (ht.relabel hat (Or.inl rfl) h3 (fun _ => ⟨_, h2, hnew⟩))⟩

/-- What `FAT32_DeleteFile` does in a directory of the tree: nothing, since the name is not found or is
that of a directory, or it frees the clusters of a file and removes its slots. -/
theorem deleteFile_at {fuel r : Nat} {name : List UInt8} (ht : M.Tidy V)
    (hs : M.At s V A) (ho : M.Present V o) (hdir : V.isDirOf o = true) (hd : M.startOf V o ≠ 0)
    (hrun : fat32DeleteFile M fuel (M.startOf V o) name s = some (r, s')) :
    ∃ dl, M.FileOn V (M.startOf V o) dl ∧
      ((r = 1 ∧ M.At s' V A ∧ ∀ c i, ¬ M.Selected V dl name c i) ∨
        (r = 4 ∧ M.At s' V A ∧ ∃ c i, M.Selected V dl name c i ∧ (V.slot c i).isDirectory = true) ∨
        (r = 0 ∧ ∃ c i l, M.Selected V dl name c i ∧ M.EntryAt V o dl c i l ∧
          (V.slot c i).isDirectory = false ∧ M.At s'
            ((V.clear l).setData c (markDeleted (V.data c) (pieces (V.data c) [] i ++ [i]))) A)) := by
  obtain ⟨dl, hdl⟩ := ht.chain o ho
  have hdirOn : M.DirOn V (M.startOf V o) dl :=
    ⟨hdl.chain (fun h => hd (hdl.nil_iff.mp h)), hdl.1⟩
  refine ⟨dl, hdl, ?_⟩
  rw [fat32DeleteFile] at hrun
  obtain ⟨s1, hr1, hhit⟩ := scanOrdered_walk hM hs hdirOn name _ _ _ _ hrun
  have hs1 := hr1.stays hs
  rcases hhit with ⟨c, hc, i, hlive, hmatch, hhit⟩ | ⟨hnone, x, buf, lfn, hend⟩
  · have hsel : M.Selected V dl name c i := ⟨hc, hlive, hmatch⟩
    simp only [] at hhit
    by_cases hfile : (V.slot c i).isDirectory = true
    · have hfile' : (slotAt (V.data c) i).isDirectory = true := hfile
      rw [if_pos hfile', Prog.pure_run] at hhit
      cases hhit
      exact Or.inr (Or.inl ⟨rfl, hs1, c, i, hsel, hfile⟩)
    · have hfile' : ¬ (slotAt (V.data c) i).isDirectory = true := hfile
      rw [if_neg hfile'] at hhit
      obtain ⟨l, hl⟩ := ht.chain (some (c, i)) (Mount.Present.entry ho hdir hdl hc hlive)
      have hat : M.EntryAt V o dl c i l := ⟨ho, hdir, hdl, hc, hlive, hl⟩
      -- the chain is freed, and what is left is the removal of the slots
      have hremove : ∃ s2, M.At s2 (V.clear l) A ∧
          removeSlots M c (V.data c) i (pieces (V.data c) [] i) s2 = some (r, s') := by
        by_cases h0 : (slotAt (V.data c) i).cluster ≠ 0
        · rw [if_pos h0] at hhit
          have hne : l ≠ [] := fun h => h0 (hl.nil_iff.mp h)
          obtain ⟨s2, hs2, hw⟩ := freeClusterChain_within hM hs1 (hl.chain hne) hl.1
          obtain ⟨r', s2', hfree, hrest⟩ := Prog.bind_eq_some.mp hhit
          obtain ⟨rfl, rfl⟩ := hw.result hfree
          rw [if_neg (by simp)] at hrest
          exact ⟨_, hs2, hrest⟩
        · rw [if_neg h0] at hhit
          have hnil : l = [] := hl.nil_iff.mpr (not_not.mp h0)
          refine ⟨s1, ?_, hhit⟩
          rw [hnil, Volume.clear_nil]
          exact hs1
      obtain ⟨s2, hs2, hrest⟩ := hremove
      obtain ⟨rfl, hs3⟩ := removeSlots_at hM hs2 (hdl.1 c hc)
        (hs.data_length (hdl.1 c hc)) hlive hrest
      exact Or.inr (Or.inr ⟨rfl, c, i, l, hsel, hat, by simpa using hfile, hs3⟩)
  · rw [Prog.pure_run] at hend
    cases hend
    refine Or.inl ⟨rfl, hs1, fun c i hsel => ?_⟩
    have hmatch := hsel.matched
    rw [hnone c hsel.mem i hsel.live] at hmatch
    cases hmatch

/-- `FAT32_DeleteFile` in a directory of the tree. -/
theorem Mount.Tidy.delete {fuel r : Nat} {name : List UInt8} (ht : M.Tidy V)
    (hs : M.At s V A) (ho : M.Present V o) (hdir : V.isDirOf o = true) (hd : M.startOf V o ≠ 0)
    (hrun : fat32DeleteFile M fuel (M.startOf V o) name s = some (r, s')) :
    s'.faults = [] ∧ M.Tidy (M.view s') := by
  obtain ⟨dl, -, ⟨-, hs', -⟩ | ⟨-, hs', -⟩ | ⟨-, c, i, l, -, hat, hfile, hs'⟩⟩ :=
    deleteFile_at hM ht hs ho hdir hd hrun
  · rw [hs'.view]
    exact ⟨hs'.quiet, ht⟩
  · rw [hs'.view]
    exact ⟨hs'.quiet, ht⟩
  · have hlen := hs.data_length (hat.dirChain.1 c hat.mem)
    obtain ⟨-, h2, h3⟩ := removed_spec hM hlen hat.live
    have hdead := isValidSfnEntry_deleted h2
    rw [hs'.view]
    refine ⟨hs'.quiet, ht.update hat
      (ht.relabel hat (Or.inr ⟨rfl, hfile, hdead⟩) (fun k _ => h3 k) ?_)⟩
    intro h
    rw [hdead] at h
    cases h

end Sound

/-! ## Runs -/

/-- `FAT32_FindEntry` or `FAT32_FindEntryAny` finds the entry `e` in the directory at `d`. -/
def LooksUp (M : Mount) (d : Nat) (e : Slot) (s s' : FsState) : Prop :=
  ∃ fuel, (∃ n, fat32FindEntry M fuel d n s = some ((0, some e), s')) ∨
    ∃ name, fat32FindEntryAny M fuel d name s = some ((0, some e), s')

/-- One of the four operations, in a directory of the tree that has clusters; those on an entry
get it from a lookup just before. -/
inductive FileStep (M : Mount) : FsState → FsState → Prop
  | write {o : Owner} {s s1 s2 : FsState} {fuel ret : Nat} {e e' : Slot} (data : List UInt8)
      (ho : M.Present (M.view s) o) (hdir : (M.view s).isDirOf o = true)
      (hd : M.startOf (M.view s) o ≠ 0) (hfind : LooksUp M (M.startOf (M.view s) o) e s s1)
      (hrun : fat32WriteFile M fuel (M.startOf (M.view s) o) e data s1 = some ((ret, e'), s2)) :
      FileStep M s s2
  | append {o : Owner} {s s1 s2 : FsState} {fuel ret : Nat} {e e' : Slot} (data : List UInt8)
      (ho : M.Present (M.view s) o) (hdir : (M.view s).isDirOf o = true)
      (hd : M.startOf (M.view s) o ≠ 0) (hfind : LooksUp M (M.startOf (M.view s) o) e s s1)
      (hrun : fat32AppendFile M fuel (M.startOf (M.view s) o) e data s1 = some ((ret, e'), s2)) :
      FileStep M s s2
  | rename {o : Owner} {s s1 : FsState} {fuel r : Nat} (oldName newName : List UInt8)
      (ho : M.Present (M.view s) o) (hdir : (M.view s).isDirOf o = true)
      (hd : M.startOf (M.view s) o ≠ 0)
      (hrun : fat32RenameFile M fuel (M.startOf (M.view s) o) oldName newName s = some (r, s1)) :
      FileStep M s s1
  | delete {o : Owner} {s s1 : FsState} {fuel r : Nat} (name : List UInt8)
      (ho : M.Present (M.view s) o) (hdir : (M.view s).isDirOf o = true)
      (hd : M.startOf (M.view s) o ≠ 0)
      (hrun : fat32DeleteFile M fuel (M.startOf (M.view s) o) name s = some (r, s1)) :
      FileStep M s s1

section Run

variable {M : Mount} (hM : M.Sound) {s s' : FsState}
include hM

/-- What a lookup returns is an entry of the tree. -/
theorem LooksUp.entryAt {V : Volume} {A : List Nat} {o : Owner} {e : Slot} (ht : M.Tidy V)
    (hs : M.At s V A) (ho : M.Present V o) (hdir : V.isDirOf o = true) (hd : M.startOf V o ≠ 0)
    (h : LooksUp M (M.startOf V o) e s s') :
    M.At s' V A ∧ ∃ dl c i l, M.EntryAt V o dl c i l ∧ e = V.slot c i := by
  obtain ⟨dl, hdl⟩ := ht.chain o ho
  have hdirOn : M.DirOn V (M.startOf V o) dl :=
    ⟨hdl.chain (fun h => hd (hdl.nil_iff.mp h)), hdl.1⟩
  have hfound : s.Reads s' ∧ ∃ c ∈ dl, ∃ i, M.LiveAt V c i ∧ e = V.slot c i := by
    rcases h with ⟨fuel, ⟨n, hrun⟩ | ⟨name, hrun⟩⟩
    · obtain ⟨hr, ⟨-, c, hc, i, hlive, -, he⟩ | ⟨h0, -⟩⟩ := findEntry_spec hM hs hdirOn hrun
      · exact ⟨hr, c, hc, i, hlive, Option.some.inj he⟩
      · exact absurd rfl h0
    · obtain ⟨hr, ⟨-, c, hc, i, hlive, he⟩ | ⟨h0, -⟩⟩ := findEntryAny_spec hM hs hdirOn hrun
      · exact ⟨hr, c, hc, i, hlive, Option.some.inj he⟩
      · exact absurd rfl h0
  obtain ⟨hr, c, hc, i, hlive, he⟩ := hfound
  obtain ⟨l, hl⟩ := ht.chain (some (c, i)) (Mount.Present.entry ho hdir hdl hc hlive)
  exact ⟨hr.stays hs, dl, c, i, l, ⟨ho, hdir, hdl, hc, hlive, hl⟩, he⟩

theorem FileStep.tidy (h : FileStep M s s') (hq : s.faults = []) (ht : M.Tidy (M.view s))
    (halloc : ∀ c ∈ s'.allocs, M.InRange c) : s'.faults = [] ∧ M.Tidy (M.view s') := by
  have hs : M.At s (M.view s) s.allocs := ⟨hq, rfl, rfl⟩
  cases h with
  | write data ho hdir hd hfind hrun =>
      obtain ⟨hs1, dl, c, i, l, hat, rfl⟩ := hfind.entryAt hM ht hs ho hdir hd
      exact ht.write hM hs1 hat hd hrun halloc
  | append data ho hdir hd hfind hrun =>
      obtain ⟨hs1, dl, c, i, l, hat, rfl⟩ := hfind.entryAt hM ht hs ho hdir hd
      exact ht.append hM hs1 hat hd hrun halloc
  | rename oldName newName ho hdir hd hrun => exact ht.rename hM hs ho hdir hd hrun
  | delete name ho hdir hd hrun => exact ht.delete hM hs ho hdir hd hrun

omit hM in
theorem LooksUp.grows {d : Nat} {e : Slot} (h : LooksUp M d e s s') : s.Grows s' := by
  have hG := M.keeps_grows
  obtain ⟨fuel, ⟨n, hrun⟩ | ⟨name, hrun⟩⟩ := h
  · exact fat32FindEntry_steps hG _ _ _ _ _ _ hrun
  · exact fat32FindEntryAny_steps hG _ _ _ _ _ _ hrun

omit hM in
/-- The clusters handed out before a step are on record after it. -/
theorem FileStep.grows (h : FileStep M s s') : s.Grows s' := by
  have hG := M.keeps_grows
  cases h with
  | write data ho hdir hd hfind hrun =>
      exact hfind.grows.trans (fat32WriteFile_steps hG _ _ _ _ _ _ _ hrun)
  | append data ho hdir hd hfind hrun =>
      exact hfind.grows.trans (fat32AppendFile_steps hG _ _ _ _ _ _ _ hrun)
  | rename oldName newName ho hdir hd hrun =>
      exact fat32RenameFile_steps hG _ _ _ _ _ _ _ hrun
  | delete name ho hdir hd hrun => exact fat32DeleteFile_steps hG _ _ _ _ _ _ hrun

end Run

/-! ## A small tree -/

/-- The tree of the volume with one file: the root directory and the entry in its first slot. -/
theorem smallFile_present {o : Owner}
    (h : (smallMount ⟨true, true⟩).Present ((smallMount ⟨true, true⟩).view smallFile) o) :
    o = none ∨ o = some (2, 0) := by
  have hroot : (smallMount ⟨true, true⟩).FileOn ((smallMount ⟨true, true⟩).view smallFile) 2
      [2] := by decide +kernel
  have hfirst : ∀ j, j < 16 → (smallMount ⟨true, true⟩).LiveAt
      ((smallMount ⟨true, true⟩).view smallFile) 2 j → j = 0 := by decide +kernel
  have hfile : ((smallMount ⟨true, true⟩).view smallFile).isDirOf (some (2, 0)) = false := by
    decide +kernel
  induction h with
  | root => exact Or.inl rfl
  | @entry o l c i parent dir chain mem live ih =>
      right
      rcases ih with rfl | rfl
      · have hl : l = [2] := chain.unique hroot
        rw [hl, List.mem_singleton] at mem
        subst mem
        rw [hfirst i live.lt live]
      · rw [hfile] at dir
        cases dir

theorem smallFile_tidy :
    (smallMount ⟨true, true⟩).Tidy ((smallMount ⟨true, true⟩).view smallFile) := by
  have hroot : (smallMount ⟨true, true⟩).FileOn ((smallMount ⟨true, true⟩).view smallFile) 2
      [2] := by decide +kernel
  have hfile : (smallMount ⟨true, true⟩).FileOn ((smallMount ⟨true, true⟩).view smallFile)
      (((smallMount ⟨true, true⟩).view smallFile).slot 2 0).cluster [3, 4] := by decide +kernel
  have hfirst : ∀ j, j < 16 → (smallMount ⟨true, true⟩).LiveAt
      ((smallMount ⟨true, true⟩).view smallFile) 2 j → j = 0 := by decide +kernel
  have hfileDir : ((smallMount ⟨true, true⟩).view smallFile).isDirOf (some (2, 0)) = false := by
    decide +kernel
  have hstart : (((smallMount ⟨true, true⟩).view smallFile).slot 2 0).cluster = 3 := by
    decide +kernel
  constructor
  · intro o ho
    rcases smallFile_present ho with rfl | rfl
    · exact ⟨[2], hroot⟩
    · exact ⟨[3, 4], hfile⟩
  · intro c i ho h0
    rcases smallFile_present ho with h | h
    · cases h
    · cases h
      rw [hstart] at h0
      cases h0
  · intro o o' l l' ho ho' hl hl' x hx hx'
    rcases smallFile_present ho with rfl | rfl
    · rcases smallFile_present ho' with rfl | rfl
      · rfl
      · rw [hl.unique hroot] at hx
        rw [hl'.unique hfile] at hx'
        simp only [List.mem_cons, List.not_mem_nil, or_false] at hx hx'
        omega
    · rcases smallFile_present ho' with rfl | rfl
      · rw [hl.unique hfile] at hx
        rw [hl'.unique hroot] at hx'
        simp only [List.mem_cons, List.not_mem_nil, or_false] at hx hx'
        omega
      · rfl
  · intro o l ho hdir hl x hx y hy j j' hlive hlive' _
    rcases smallFile_present ho with rfl | rfl
    · rw [hl.unique hroot, List.mem_singleton] at hx hy
      subst hx hy
      exact ⟨rfl, (hfirst j hlive.lt hlive).trans (hfirst j' hlive'.lt hlive').symm⟩
    · rw [hfileDir] at hdir
      cases hdir

/-- What `Mount.Tidy` says of chains and names, whatever stands in the entry 0 of the table. -/
structure Mount.Uncrossed (M : Mount) (V : Volume) : Prop where
  chain : ∀ o, M.Present V o → ∃ l, M.FileOn V (M.startOf V o) l
  disjoint : ∀ o o' l l', M.Present V o → M.Present V o' → M.FileOn V (M.startOf V o) l →
    M.FileOn V (M.startOf V o') l' → ∀ c ∈ l, c ∈ l' → o = o'
  unique : ∀ o l, M.Present V o → V.isDirOf o = true → M.FileOn V (M.startOf V o) l →
    ∀ c ∈ l, ∀ c' ∈ l, ∀ i i', M.LiveAt V c i → M.LiveAt V c' i' →
      (V.slot c i).name = (V.slot c' i').name → c = c' ∧ i = i'

/-- A file of the volume below: its name, start cluster and size. -/
def crossEntry (name start size : Nat) : Slot :=
  (mkSfn (nameTo83 [UInt8.ofNat name]) attrArchive
    { second := 0, minute := 0, hour := 0, day := 1, month := 1, year := 0 } start).setFileSize size

/-- Two files in the root directory: one of 600 bytes without a cluster, one of 512 bytes in
cluster 3; and the entry 0 of the table leads to cluster 3. -/
def crossState : FsState :=
  smallState [3, 0x0FFFFFF8, 0x0FFFFFF8, 0x0FFFFFF8]
    (fun c => if c = 2 then (crossEntry 65 0 600).1 ++ (crossEntry 66 3 512).1 else [])

theorem crossState_present {s : FsState} {o : Owner}
    (hroot : (smallMount ⟨true, true⟩).FileOn ((smallMount ⟨true, true⟩).view s) 2 [2])
    (hlive : ∀ j, j < 16 → (smallMount ⟨true, true⟩).LiveAt ((smallMount ⟨true, true⟩).view s) 2 j →
      j < 2 ∧ ((smallMount ⟨true, true⟩).view s).isDirOf (some (2, j)) = false)
    (h : (smallMount ⟨true, true⟩).Present ((smallMount ⟨true, true⟩).view s) o) :
    o = none ∨ o = some (2, 0) ∨ o = some (2, 1) := by
  have key : o = none ∨ ∃ j, j < 2 ∧ o = some (2, j) ∧
      ((smallMount ⟨true, true⟩).view s).isDirOf o = false := by
    induction h with
    | root => exact Or.inl rfl
    | @entry o l c i parent dir chain mem live ih =>
        right
        rcases ih with rfl | ⟨j, -, -, hfile⟩
        · have hl : l = [2] := chain.unique hroot
          rw [hl, List.mem_singleton] at mem
          subst mem
          obtain ⟨hi, hfile⟩ := hlive i live.lt live
          exact ⟨i, hi, rfl, hfile⟩
        · rw [hfile] at dir
          cases dir
  rcases key with h | ⟨j, hj, h, -⟩
  · exact Or.inl h
  · obtain rfl | rfl : j = 0 ∨ j = 1 := by omega
    · exact Or.inr (Or.inl h)
    · exact Or.inr (Or.inr h)

theorem crossState_uncrossed :
    (smallMount ⟨true, true⟩).Uncrossed ((smallMount ⟨true, true⟩).view crossState) := by
  have hroot : (smallMount ⟨true, true⟩).FileOn ((smallMount ⟨true, true⟩).view crossState) 2
      [2] := by decide +kernel
  have hfirst : (smallMount ⟨true, true⟩).FileOn ((smallMount ⟨true, true⟩).view crossState)
      (((smallMount ⟨true, true⟩).view crossState).slot 2 0).cluster [] := by decide +kernel
  have hsecond : (smallMount ⟨true, true⟩).FileOn ((smallMount ⟨true, true⟩).view crossState)
      (((smallMount ⟨true, true⟩).view crossState).slot 2 1).cluster [3] := by decide +kernel
  have hlive : ∀ j, j < 16 → (smallMount ⟨true, true⟩).LiveAt
      ((smallMount ⟨true, true⟩).view crossState) 2 j →
      j < 2 ∧ ((smallMount ⟨true, true⟩).view crossState).isDirOf (some (2, j)) = false := by
    decide +kernel
  have hnames : (((smallMount ⟨true, true⟩).view crossState).slot 2 0).name ≠
      (((smallMount ⟨true, true⟩).view crossState).slot 2 1).name := by decide +kernel
  -- the clusters of each owner
  have hon : ∀ {o l}, (smallMount ⟨true, true⟩).Present
      ((smallMount ⟨true, true⟩).view crossState) o → (smallMount ⟨true, true⟩).FileOn
      ((smallMount ⟨true, true⟩).view crossState)
      ((smallMount ⟨true, true⟩).startOf ((smallMount ⟨true, true⟩).view crossState) o) l →
      (o = none ∧ l = [2]) ∨ (o = some (2, 0) ∧ l = []) ∨ (o = some (2, 1) ∧ l = [3]) := by
    intro o l ho hl
    rcases crossState_present hroot hlive ho with rfl | rfl | rfl
    · exact Or.inl ⟨rfl, hl.unique hroot⟩
    · exact Or.inr (Or.inl ⟨rfl, hl.unique hfirst⟩)
    · exact Or.inr (Or.inr ⟨rfl, hl.unique hsecond⟩)
  constructor
  · intro o ho
    rcases crossState_present hroot hlive ho with rfl | rfl | rfl
    · exact ⟨[2], hroot⟩
    · exact ⟨[], hfirst⟩
    · exact ⟨[3], hsecond⟩
  · intro o o' l l' ho ho' hl hl' x hx hx'
    rcases hon ho hl with ⟨rfl, rfl⟩ | ⟨rfl, rfl⟩ | ⟨rfl, rfl⟩ <;>
      rcases hon ho' hl' with ⟨rfl, rfl⟩ | ⟨rfl, rfl⟩ | ⟨rfl, rfl⟩ <;> simp_all
  · intro o l ho hdir hl c hc c' hc' i i' hi hi' hname
    have hnone : o = none := by
      rcases crossState_present hroot hlive ho with rfl | rfl | rfl
      · rfl
      · exact absurd hdir (by decide +kernel)
      · exact absurd hdir (by decide +kernel)
    subst hnone
    obtain rfl := hl.unique hroot
    obtain rfl := List.mem_singleton.mp hc
    obtain rfl := List.mem_singleton.mp hc'
    obtain ⟨h1, -⟩ := hlive i hi.lt hi
    obtain ⟨h2, -⟩ := hlive i' hi'.lt hi'
    refine ⟨rfl, ?_⟩
    obtain rfl | rfl : i = 0 ∨ i = 1 := by omega
    · obtain rfl | rfl : i' = 0 ∨ i' = 1 := by omega
      · rfl
      · exact absurd hname hnames
    · obtain rfl | rfl : i' = 0 ∨ i' = 1 := by omega
      · exact absurd hname.symm hnames
      · rfl

end Os003
