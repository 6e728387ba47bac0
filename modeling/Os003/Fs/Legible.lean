import Os003.Fs.Naming
import Os003.Fs.TreeOps
import Os003.Lib.Named

set_option autoImplicit false

/-! # Legible volumes

A volume on which a call by name does to the tree what it should: in order, with well-named directories
that have clusters, and with files as long as their sizes say. On such a volume a search finds the node
that is called so, and an edit leaves a legible volume when it leaves a well-named cluster and a file of
the right length.
-/

namespace Os003

open Bytes Linked

/-- The entry of a file is that of a well-formed file which can be read to its end, and whose size is an
`int`. -/
def Mount.Sized (M : Mount) (V : Volume) (e : Slot) (l : List Nat) : Prop :=
  M.WellFormedFile V e l ∧ e.fileSize + M.clusterSize ≤ 2 ^ 31

structure Mount.Legible (M : Mount) (V : Volume) : Prop where
  neat : M.Neat V
  start : ∀ o, M.Present V o → V.isDirOf o = true → M.startOf V o ≠ 0
  named : ∀ o l, M.Present V o → V.isDirOf o = true → M.FileOn V (M.startOf V o) l →
    ∀ c ∈ l, WellNamed (V.data c) M.slotCount
  sized : ∀ c i l, M.Present V (some (c, i)) → (V.slot c i).isDirectory = false →
    M.FileOn V (V.slot c i).cluster l → M.Sized V (V.slot c i) l

/-! ## Searches -/

section Walk

variable {M : Mount} {V : Volume} {l : List Nat} {name : List UInt8}
  (hnamed : ∀ c ∈ l, WellNamed (V.data c) M.slotCount)
include hnamed

/-- The entry that `FAT32_FindEntryAny` selects has the 8.3 form of the name. -/
theorem walk_named {c i : Nat} {lfn : List Nat}
    (h : V.walk (scanFound M name) l [] = .inl (c, i, lfn)) :
    c ∈ l ∧ M.LiveAt V c i ∧ (V.slot c i).name = nameTo83 name := by
  have hstart : ∀ (buf : List UInt8) (j : Nat), j < 0 → (slotAt buf j).name0 ≠ 0 :=
    fun _ j hj => absurd hj (Nat.not_lt_zero j)
  induction l with
  | nil => cases h
  | cons x l ih =>
      have hx := hnamed x List.mem_cons_self
      rw [Volume.walk] at h
      cases hscan : scanFound M name (V.data x) [] with
      | inr hit =>
          rw [hscan] at h
          obtain ⟨rfl, rfl⟩ := Prod.mk.inj (Sum.inl.inj h)
          obtain ⟨-, hlive, rfl, hmatch, -⟩ := scanLfn_inr hscan (hstart _)
          rw [Nat.zero_add] at hlive
          exact ⟨List.mem_cons_self, hlive, ((hx.matched_iff hlive name).1).mp hmatch⟩
      | inl lfn' =>
          obtain rfl : lfn' = [] :=
            RunsClosed.scan (by rw [Nat.zero_add]; exact hx.runsClosed) (hstart _) hscan
          rw [hscan] at h
          obtain ⟨hc, hrest⟩ := ih (fun c hc => hnamed c (List.mem_cons_of_mem _ hc)) h
          exact ⟨List.mem_cons_of_mem _ hc, hrest⟩

/-- Where it selects none, no entry has it. -/
theorem walk_unnamed {lfn : List Nat} (h : V.walk (scanFound M name) l [] = .inr lfn) {c i : Nat}
    (hc : c ∈ l) (hlive : M.LiveAt V c i) : (V.slot c i).name ≠ nameTo83 name := by
  intro hname
  have hscan := walk_misses (fun c hc => (hnamed c hc).runsClosed) h c hc
  have hmiss := scanLfn_inl hscan (by rw [Nat.zero_add]; exact hlive) (Nat.zero_le i)
  have hmatch := (((hnamed c hc).matched_iff hlive name).1).mpr hname
  rw [hmiss] at hmatch
  cases hmatch

end Walk

section Named

variable {M : Mount} {V : Volume} {o : Owner} {dl l : List Nat} {c i : Nat} {name : List UInt8}

/-- The node of an entry, under its name. -/
theorem Mount.EntryAt.called (ht : M.Tidy V) (hat : M.EntryAt V o dl c i l) :
    (M.tree V).Called o (V.slot c i).name (c, i)
      ⟨o, (V.slot c i).name, (V.slot c i).isDirectory, V.contents c i l⟩ :=
  ⟨ht.tree_eq_some.mpr hat.node, rfl, rfl⟩

theorem Mount.Tidy.unambiguous (ht : M.Tidy V) : (M.tree V).Unambiguous := by
  rintro ⟨c, i⟩ ⟨c', i'⟩ n n' hn hn' hparent hname
  have hnode := ht.tree_eq_some.mp hn
  have hnode' := ht.tree_eq_some.mp hn'
  obtain ⟨dl, l, hat, -⟩ := hnode.placed
  obtain ⟨dl', l', hat', -⟩ := hnode'.placed
  rw [← hparent] at hat'
  obtain rfl := hat.dirChain.unique hat'.dirChain
  obtain ⟨rfl, rfl⟩ := ht.unique _ dl hat.parent hat.dir hat.dirChain c hat.mem c' hat'.mem i i'
    hat.live hat'.live (by rw [← hnode.name, ← hnode'.name, hname])
  rfl

variable (hl : M.Legible V) (ho : M.Present V o) (hdir : V.isDirOf o = true)
include hl ho hdir

/-- A live entry of a directory. -/
theorem Mount.Legible.entryAt (hdl : M.FileOn V (M.startOf V o) dl) (hc : c ∈ dl)
    (hlive : M.LiveAt V c i) : ∃ l, M.EntryAt V o dl c i l := by
  obtain ⟨l, hchain⟩ := hl.neat.tidy.chain (some (c, i)) (Mount.Present.entry ho hdir hdl hc hlive)
  exact ⟨l, ho, hdir, hdl, hc, hlive, hchain⟩

theorem Mount.Legible.directory : M.Directory V o := ⟨ho, hdir, hl.start o ho hdir⟩

/-- The search of `FAT32_RenameFile`, `FAT32_RemoveDir` and `FAT32_DeleteFile` selects the entry that
has the 8.3 form of the name. -/
theorem Mount.Legible.selected_iff (hdl : M.FileOn V (M.startOf V o) dl) :
    M.Selected V dl name c i ↔ c ∈ dl ∧ M.LiveAt V c i ∧ (V.slot c i).name = nameTo83 name := by
  have hnamed := hl.named o dl ho hdir hdl
  constructor
  · rintro ⟨hc, hlive, hmatch⟩
    exact ⟨hc, hlive, (((hnamed c hc).matched_iff hlive name).2).mp hmatch⟩
  · rintro ⟨hc, hlive, hname⟩
    exact ⟨hc, hlive, (((hnamed c hc).matched_iff hlive name).2).mpr hname⟩

theorem Mount.Legible.fresh_of_none (hdl : M.FileOn V (M.startOf V o) dl)
    (hnone : ∀ c i, ¬ M.Selected V dl name c i) : (M.tree V).Fresh o (nameTo83 name) :=
  hl.neat.tidy.fresh hdl fun x hx j hj hname =>
    hnone x j ((hl.selected_iff ho hdir hdl).mpr ⟨hx, hj, hname⟩)

/-- `FAT32_FindEntryAny` in a directory: it finds the entry that is called so. -/
theorem Mount.Legible.find (hM : M.Sound) {s s' : FsState} {A : List Nat} (hs : M.At s V A)
    {fuel st : Nat} {e : Option Slot}
    (hrun : fat32FindEntryAny M fuel (M.startOf V o) name s = some ((st, e), s')) :
    M.At s' V A ∧
      ((st = 0 ∧ ∃ dl c i l, M.EntryAt V o dl c i l ∧ (V.slot c i).name = nameTo83 name ∧
          e = some (V.slot c i)) ∨
        (st = 1 ∧ e = none ∧ (M.tree V).Fresh o (nameTo83 name))) := by
  obtain ⟨dl, hdl, hon⟩ := (hl.directory ho hdir).chain hl.neat.tidy
  have hnamed := hl.named o dl ho hdir hdl
  obtain ⟨hr, ⟨c, i, lfn, hwalk, rfl, rfl⟩ | ⟨⟨lfn, hwalk⟩, rfl, rfl⟩⟩ :=
    findEntryAny_selects hM hs hon hrun
  · obtain ⟨hc, hlive, hname⟩ := walk_named hnamed hwalk
    obtain ⟨l, hat⟩ := hl.entryAt ho hdir hdl hc hlive
    exact ⟨hr.stays hs, Or.inl ⟨rfl, dl, c, i, l, hat, hname, rfl⟩⟩
  · refine ⟨hr.stays hs, Or.inr ⟨rfl, rfl, ?_⟩⟩
    exact hl.neat.tidy.fresh hdl fun x hx j hj => walk_unnamed hnamed hwalk hx hj

end Named

/-! ## Edits -/

section Edit

variable {M : Mount} {V V' : Volume} {o : Owner} {dl l l' : List Nat} {c i : Nat}
  (hl : M.Legible V) (hat : M.PlaceAt V o dl c i l) (he : M.EditsEntry V V' dl c i l l')
include hl hat he

/-- The clusters of a directory that was there before, apart from the edited one. -/
theorem Mount.Legible.named_kept {q : Owner} {k : List Nat} (hq : M.Present V q)
    (hdir : V.isDirOf q = true) (hne : q ≠ some (c, i)) (hk : M.FileOn V (M.startOf V q) k)
    (hcluster : WellNamed (V'.data c) M.slotCount) :
    ∀ x ∈ k, WellNamed (V'.data x) M.slotCount := by
  intro x hx
  by_cases hxc : x = c
  · rw [hxc]
    exact hcluster
  · rw [(hl.neat.chain_kept hat he hq hne hk).2.2 x hx hxc]
    exact hl.named q k hq hdir hk x hx

/-- An edit that leaves a well-named cluster and a file of the right length, or a directory. -/
theorem Mount.Legible.edited (hcluster : WellNamed (V'.data c) M.slotCount)
    (hfile : M.LiveAt V' c i → (V'.slot c i).isDirectory = false → M.Sized V' (V'.slot c i) l')
    (hcomes : M.LiveAt V' c i → (V'.slot c i).isDirectory = true → M.KeepsDir V V' c i l l' ∨
      ((V'.slot c i).cluster ≠ 0 ∧ ∀ x ∈ l', WellNamed (V'.data x) M.slotCount)) :
    M.Legible V' := by
  have hn := hl.neat
  refine ⟨hn.edited hat he, fun q hq hdir => ?_, fun q k hq hdir hk => ?_, fun x j k hq hkind hk => ?_⟩
  · rcases hn.present_before hat he hq with ⟨hne, hq0⟩ | ⟨rfl, hlive⟩
    · obtain ⟨hstart, hkind⟩ := hn.start_kept hat he hq0 hne
      rw [hstart]
      exact hl.start q hq0 (by rw [← hkind]; exact hdir)
    · rcases hcomes hlive hdir with hkeep | ⟨h0, -⟩
      · show (V'.slot c i).cluster ≠ 0
        rw [hkeep.start]
        exact hl.start (some (c, i)) (hat.entry hkeep.before.1).present hkeep.before.2
      · exact h0
  · rcases hn.present_before hat he hq with ⟨hne, hq0⟩ | ⟨rfl, hlive⟩
    · obtain ⟨hstart, hkind⟩ := hn.start_kept hat he hq0 hne
      obtain ⟨k0, hk0⟩ := hn.tidy.chain q hq0
      have hk0' := (hn.chain_kept hat he hq0 hne hk0).1
      rw [← hstart] at hk0'
      obtain rfl := hk.unique hk0'
      exact hl.named_kept hat he hq0 (by rw [← hkind]; exact hdir) hne hk0 hcluster
    · obtain rfl := hk.unique (he.chain hlive)
      rcases hcomes hlive hdir with hkeep | ⟨-, hnamed⟩
      · -- the clusters of the directory are untouched
        obtain rfl := hkeep.clusters
        have hentry := hat.entry hkeep.before.1
        intro x hx
        rw [(hkeep.frame x hx).2]
        exact hl.named _ k hentry.present hkeep.before.2 hentry.chain x hx
      · exact hnamed
  · rcases hn.present_before hat he hq with ⟨hne, hq0⟩ | ⟨hxc, hlive⟩
    · have hslot := (hn.slot_kept hat he hq0 fun h => hne (by rw [h])).2
      obtain ⟨k0, hk0⟩ := hn.tidy.chain (some (x, j)) hq0
      have hk0' := (hn.chain_kept hat he hq0 hne hk0).1
      rw [hslot] at hkind hk ⊢
      obtain rfl := hk.unique hk0'
      obtain ⟨hwell, hsize⟩ := hl.sized x j k hq0 hkind hk0
      exact ⟨⟨hkind, hk, hwell.length⟩, hsize⟩
    · cases hxc
      obtain rfl := hk.unique (he.chain hlive)
      exact hfile hlive hkind

end Edit

/-! ## The operations -/

section Ops

variable {M : Mount} (hM : M.Sound) {V W : Volume} {o : Owner} {dl l : List Nat} {c i : Nat}
include hM

/-- An entry removed. -/
theorem Mount.Legible.removed (hl : M.Legible V) (hat : M.EntryAt V o dl c i l)
    (hlen : (V.data c).length = M.clusterSize)
    (hempty : (V.slot c i).isDirectory = true → ∀ x ∈ l, ¬ M.Holds V x)
    (hW : W = (V.clear l).setData c (markDeleted (V.data c) (pieces (V.data c) [] i ++ [i]))) :
    M.Legible W ∧ M.tree W = Function.update (M.tree V) (c, i) none := by
  obtain ⟨he, hdead⟩ := removed_edits hM hl.neat hlen hat hempty hW
  refine ⟨hl.edited hat.place he ?_ (fun h => absurd h hdead) fun h => absurd h hdead,
    hl.neat.tree_removed hat.place he hdead⟩
  rw [hW, Volume.setData_data, Function.update_self]
  exact (hl.named o dl hat.parent hat.dir hat.dirChain c hat.mem).removed hM hlen hat.live

/-- An entry renamed. -/
theorem Mount.Legible.renamed (hl : M.Legible V) (hat : M.EntryAt V o dl c i l)
    (hlen : (V.data c).length = M.clusterSize) {name : List UInt8} (hname : Spellable name)
    (hnew : ∀ x ∈ dl, ∀ j, M.LiveAt V x j → (V.slot x j).name ≠ nameTo83 name)
    (hW : W = V.setData c (renamedCluster (V.data c) i (pieces (V.data c) [] i) name)) :
    M.Legible W ∧ M.tree W = Function.update (M.tree V) (c, i)
      (some ⟨o, nameTo83 name, (V.slot c i).isDirectory, V.contents c i l⟩) := by
  obtain ⟨he, hlive, hslot, hcontents⟩ := renamed_edits hM hl.neat hlen hat hname.toNameable hnew hW
  have hkind : (W.slot c i).isDirectory = (V.slot c i).isDirectory := by
    rw [hslot, Slot.isDirectory, Slot.attr_setName, Slot.isDirectory]
  refine ⟨hl.edited hat.place he ?_ (fun _ hfile => ?_) fun _ hdir => ?_, ?_⟩
  · rw [hW, Volume.setData_data, Function.update_self]
    exact (hl.named o dl hat.parent hat.dir hat.dirChain c hat.mem).renamed hM hlen hat.live hname
  · obtain ⟨hwell, hsize⟩ := hl.sized c i l hat.present (hkind.symm.trans hfile) hat.chain
    have hchain := he.chain hlive
    rw [Mount.Sized, hslot, Slot.fileSize_setName]
    exact ⟨⟨by rw [← hslot]; exact hfile, by rw [← hslot]; exact hchain, by
      rw [Slot.fileSize_setName]; exact hwell.length⟩, hsize⟩
  · -- a directory keeps its clusters, and the edited one is not among them
    have hdir' := hkind.symm.trans hdir
    have hself := hl.neat.tidy.not_self hat.present hat.chain
    refine Or.inr ⟨?_, fun x hx => ?_⟩
    · rw [hslot, Slot.cluster_setName]
      exact hl.start (some (c, i)) hat.present hdir'
    · have hdata : W.data x = V.data x := by
        rw [hW, Volume.setData_data, Function.update_of_ne (ne_of_mem_of_not_mem hx hself)]
      rw [hdata]
      exact hl.named (some (c, i)) l hat.present hdir' hat.chain x hx
  · rw [hl.neat.tree_edited hat.place he hlive, hcontents, hkind, hslot, Slot.name_setName]

/-- The cluster of a new directory has no piece and no entry. -/
theorem newDirCluster_wellNamed (rtc : RtcTime) (n d : Nat) :
    WellNamed (newDirCluster M rtc n d) M.slotCount := by
  have hslots := newDirCluster_slots hM rtc n d
  constructor
  · intro j _ _ hpiece
    rcases Nat.lt_or_ge j 2 with h | h
    · have hattr := hpiece.attr
      rw [((hslots j).1 h).2] at hattr
      exact absurd hattr (by decide)
    · exact absurd ((hslots j).2 h) hpiece.notEnd
  · intro i hi
    have hvalid := (isValidSfnEntry_iff _).mp hi.valid
    rcases Nat.lt_or_ge i 2 with h | h
    · exact absurd ((hslots i).1 h).1 hvalid.2.2.1
    · exact absurd ((hslots i).2 h) hvalid.1

/-- A new entry with the clusters `k`, which were free and are those of an empty directory or none. -/
theorem Mount.Legible.created (hl : M.Legible V) (ho : M.Present V o) (hdir : V.isDirOf o = true)
    (hdl : M.FileOn V (M.startOf V o) dl) {pos n : Nat} (hc : c ∈ dl)
    (hlen : (V.data c).length = M.clusterSize) {name : List UInt8} (hname : Spellable name)
    {attr : UInt8} (hattr : attr = attrArchive ∨ attr = attrDirectory) (hlt : n < 2 ^ 32)
    (hfree : FreeAt (V.data c) (slotsNeeded name) M.slotCount pos)
    (hnew : ∀ x ∈ dl, ∀ j, M.LiveAt V x j → (V.slot x j).name ≠ nameTo83 name) {V1 : Volume}
    {k : List Nat}
    (hframe : ∀ x, V.fat x ≠ fat32EntryFree → V1.fat x = V.fat x ∧ V1.data x = V.data x)
    (hfresh : ∀ x ∈ k, V.fat x = fat32EntryFree) (hchain : M.FileOn V1 n k)
    (hfile : attr = attrArchive → k = [])
    (hdir' : attr = attrDirectory → (∀ x ∈ k, ¬ M.Holds V1 x) ∧ M.Ended V1 k ∧ n ≠ 0 ∧
      ∀ x ∈ k, WellNamed (V1.data x) M.slotCount) {rtc : RtcTime}
    (hW : W = V1.setData c (setSlots (V.data c) pos (newSlots name attr rtc n))) :
    M.Legible W ∧ M.tree V (c, entrySlot name pos) = none ∧
      M.tree W = Function.update (M.tree V) (c, entrySlot name pos)
        (some ⟨o, nameTo83 name, decide (attr = attrDirectory), []⟩) := by
  have hplace := created_place hl.neat ho hdir hdl hc hfree
  obtain ⟨he, hlive, hslot⟩ := created_edits hl.neat hplace hlen hname.toNameable hattr hlt hfree hnew
    hframe hfresh hchain (fun h => ⟨(hdir' h).1, (hdir' h).2.1⟩) hW
  have hclean := (hl.neat.ended o dl ho hdir hdl).clean c hc
  have hroom : 32 * M.slotCount ≤ (V.data c).length := by
    rw [hlen, Mount.slotCount]
    omega
  have hkind : (W.slot c (entrySlot name pos)).isDirectory = decide (attr = attrDirectory) := by
    rw [hslot, Slot.isDirectory, mkSfn_attr]
    rcases hattr with rfl | rfl
    · decide
    · decide
  -- the entry is new in the tree, and what it holds is empty
  refine ⟨hl.edited hplace he ?_ (fun _ hisfile => ?_) fun _ hisdir => ?_, ?_, ?_⟩
  · rw [hW, Volume.setData_data, Function.update_self]
    exact (hl.named o dl ho hdir hdl c hc).inserted hfree hroom hclean
      (mkSfn_valid hname.toNameable rtc n hattr) hname (mkSfn_name _ _ _)
  · -- a file has no cluster yet
    rw [hkind, decide_eq_false_iff_not] at hisfile
    obtain rfl := hfile (hattr.resolve_right hisfile)
    have hsize : (W.slot c (entrySlot name pos)).fileSize = 0 := by rw [hslot, mkSfn_fileSize]
    refine ⟨⟨by rw [hkind, decide_eq_false hisfile], he.chain hlive, ?_⟩, ?_⟩
    · rw [hsize, hM.clustersFor_zero, List.length_nil]
    · have hsectors := hM.sectors.2
      rw [hsize, hM.clusterSize_eq]
      omega
  · -- the cluster of a new directory is none of its parent
    rw [hkind, decide_eq_true_eq] at hisdir
    obtain ⟨-, -, hn, hnamed⟩ := hdir' hisdir
    refine Or.inr ⟨by rw [hslot, mkSfn_cluster _ _ _ hlt]; exact hn, fun x hx => ?_⟩
    have hxc : x ≠ c := by
      rintro rfl
      exact hdl.fat_ne_free hc (hfresh x hx)
    rw [hW, Volume.setData_data, Function.update_of_ne hxc]
    exact hnamed x hx
  · rw [hl.neat.tidy.tree_eq_none]
    intro hp
    cases hp with
    | entry _ _ _ _ live => exact hfree.dead hclean live
  · have hcontents : W.contents c (entrySlot name pos) k = [] := by
      rw [Volume.contents, hslot, mkSfn_fileSize, List.take_zero, ite_self]
    rw [hl.neat.tree_edited hplace he hlive, hcontents, hkind, hslot, mkSfn_name]

omit hM in
/-- A file rewritten, with its entry. -/
theorem Mount.Legible.rewritten (hl : M.Legible V) (hat : M.EntryAt V o dl c i l) {k : List Nat}
    (hfile : (V.slot c i).isDirectory = false) (hch : M.Changes V W dl c i l k)
    (hslots : V.Refiles W c i) (hsized : M.Sized W (W.slot c i) k) :
    M.Legible W ∧ M.startOf W o = M.startOf V o ∧ M.tree W = Function.update (M.tree V) (c, i)
      (some ⟨o, (V.slot c i).name, false, W.contents c i k⟩) := by
  obtain ⟨he, hlive⟩ := hslots.edits hl.neat hat hch
  have hkind : (W.slot c i).isDirectory = false := hslots.like.isDirectory.trans hfile
  have hne : o ≠ some (c, i) := by
    rintro rfl
    exact absurd (hfile.symm.trans hat.dir) (by decide)
  refine ⟨hl.edited hat.place he ?_ (fun _ _ => hsized) fun _ hdir => ?_,
    (hl.neat.start_kept hat.place he hat.parent hne).1, ?_⟩
  · exact (hl.named o dl hat.parent hat.dir hat.dirChain c hat.mem).refiled hat.live hslots.others
      (hslots.like.valid.trans hat.live.valid) hslots.like.name
  · rw [hkind] at hdir
    cases hdir
  · rw [hl.neat.tree_edited hat.place he hlive, hkind, hslots.like.name]

end Ops

/-! ## Files -/

section File

variable {M : Mount} (hM : M.Sound) {s s' : FsState} {V V1 W : Volume} {A : List Nat} {o : Owner}
  {dl l k : List Nat} {c i : Nat} {e' : Slot}
include hM

omit hM in
/-- A file has been given other bytes, and its entry is `e'` now. -/
structure Mount.Refiled (M : Mount) (V W : Volume) (o : Owner) (c i : Nat) (e' : Slot)
    (bs : List UInt8) : Prop where
  legible : M.Legible W
  slot : W.slot c i = e'
  start : M.startOf W o = M.startOf V o
  tree : M.tree W = Function.update (M.tree V) (c, i) (some ⟨o, (V.slot c i).name, false, bs⟩)

/-- A file rewritten in the clusters `k`, with its new entry. -/
theorem Mount.Legible.refiled (hl : M.Legible V) (hat : M.EntryAt V o dl c i l)
    (hlen : (V.data c).length = M.clusterSize) (hfile : (V.slot c i).isDirectory = false)
    (hrw : V.Rewrites l V1 k) (hW : W = V1.setData c (setSlot (V.data c) i e'))
    (hlike : (V.slot c i).Like e') (hwell : M.WellFormedFile W e' k)
    (hsize : e'.fileSize + M.clusterSize ≤ 2 ^ 31) :
    M.Refiled V W o c i e' ((W.bytes k).take e'.fileSize) := by
  have hslotAt : ∀ j, W.slot c j = if j = i then e' else V.slot c j := by
    intro j
    rw [hW, Volume.slot, Volume.setData_data, Function.update_self,
      slotAt_setSlot _ _ _ _ (by rw [hlen]; exact hM.slot_room hat.live.lt), Volume.slot]
  have hslot : W.slot c i = e' := by rw [hslotAt, if_pos rfl]
  have hslots : V.Refiles W c i :=
    ⟨fun j hj => by rw [hslotAt, if_neg hj], by rw [hslot]; exact hlike⟩
  have hfat : W.fat = V1.fat := by rw [hW, Volume.setData_fat]
  have hchain : M.FileOn V1 (W.slot c i).cluster k := by
    rw [hslot]
    exact hwell.clusters.congr fun x _ => by rw [hfat]
  have hempty : (W.slot c i).cluster = 0 → (W.slot c i).fileSize = 0 := by
    intro h0
    have hnil := hchain.nil_iff.mpr h0
    have hlength := hwell.length
    rw [hnil, List.length_nil] at hlength
    have := (hM.clustersFor_le_iff e'.fileSize 0).mp hlength.ge
    rw [hslot]
    omega
  have hch := hl.neat.tidy.rewritten hat hfile hrw (fun x hx => hx) hfat
    (fun x hx => by rw [hW, Volume.setData_data, Function.update_of_ne hx]) hslots hchain
    fun h0 => Or.inl (hempty h0)
  obtain ⟨hlegible, hstart, htree⟩ :=
    hl.rewritten hat hfile hch hslots (by rw [hslot]; exact ⟨hwell, hsize⟩)
  refine ⟨hlegible, hslot, hstart, ?_⟩
  rw [htree, Volume.contents, hslot, hwell.isFile, if_neg (by decide)]

omit hM in
/-- What the file functions take for granted about an entry of the tree. -/
theorem Mount.Legible.only (hl : M.Legible V) (hat : M.EntryAt V o dl c i l) :
    M.DirOn V (M.startOf V o) dl ∧
      ∀ x ∈ dl, ∀ j, M.LiveAt V x j → (V.slot x j).name = (V.slot c i).name → x = c ∧ j = i := by
  obtain ⟨dl', hdl', hon⟩ := (hl.directory hat.parent hat.dir).chain hl.neat.tidy
  obtain rfl := hat.dirChain.unique hdl'
  exact ⟨hon, fun x hx j hlive hname => hl.neat.tidy.unique o dl hat.parent hat.dir hat.dirChain x hx c
    hat.mem j i hlive hat.live hname⟩

/-- `FAT32_AppendFile` on an entry of the tree, when it returns no less than the size of the data. -/
theorem Mount.Legible.appended {fuel n : Nat} {data : List UInt8} (hl : M.Legible V) (hs : M.At s V A)
    (hat : M.EntryAt V o dl c i l) (hfile : (V.slot c i).isDirectory = false)
    (hsize : (V.slot c i).fileSize + data.length + M.clusterSize ≤ 2 ^ 31) (hn : data.length ≤ n)
    (hrun : fat32AppendFile M fuel (M.startOf V o) (V.slot c i) data s = some ((n, e'), s'))
    (halloc : ∀ x ∈ s'.allocs, M.InRange x) : n = data.length ∧
    ∃ W A', M.At s' W A' ∧ M.Refiled V W o c i e' (V.contents c i l ++ data) := by
  have hcontents : V.contents c i l = (V.bytes l).take (V.slot c i).fileSize := by
    rw [Volume.contents, hfile, if_neg (by decide)]
  by_cases hnil : data = []
  · subst hnil
    have hnone : ([] : List UInt8).length = 0 ∨ (V.slot c i).isDirectory = true := Or.inl rfl
    rw [fat32AppendFile, if_pos hnone, Prog.pure_run] at hrun
    cases hrun
    have hnode := (hat.called hl.neat.tidy).node
    rw [hfile] at hnode
    refine ⟨rfl, V, A, hs, hl, rfl, rfl, ?_⟩
    rw [List.append_nil, ← hnode, Function.update_eq_self]
  · have hpos := hM.clusterSize_pos
    have hwell := (hl.sized c i l hat.present hfile hat.chain).1
    obtain ⟨hon, honly⟩ := hl.only hat
    have hfull : n = data.length := by
      obtain ⟨_, _, _, _, _, -, -, -, -, ⟨h | h, -⟩ | ⟨h, -⟩⟩ :=
        appendFile_spec hM hs hfile hat.chain hrun halloc
      · exact absurd h hnil
      · omega
      · exact h
    subst hfull
    refine ⟨rfl, ?_⟩
    obtain ⟨V1, k, A1, W, hrw, hW, hs', hwell', -, -, hlike, hsize', hbytes⟩ :=
      appendFile_appended hM hs hwell hon (hl.neat.tidy.apart hat) hat.mem hat.live rfl honly hnil
        (by omega) hrun halloc
    have hrefiled := hl.refiled hM hat (hs.data_length (hat.dirChain.1 c hat.mem)) hfile hrw hW hlike hwell'
      (by rw [hsize']; exact hsize)
    rw [hbytes, ← hcontents] at hrefiled
    exact ⟨W, A1, hs', hrefiled⟩

theorem Mount.Sound.clustersFor_max (m n : Nat) :
    M.clustersFor (max m n) = max (M.clustersFor m) (M.clustersFor n) := by
  refine Nat.le_antisymm ?_ (max_le ?_ ?_)
  · rw [hM.clustersFor_le_iff]
    rcases le_total m n with h | h
    · calc max m n = n := max_eq_right h
        _ ≤ M.clustersFor n * M.clusterSize := hM.le_clustersFor n
        _ ≤ max (M.clustersFor m) (M.clustersFor n) * M.clusterSize :=
          Nat.mul_le_mul_right _ (le_max_right _ _)
    · calc max m n = m := max_eq_left h
        _ ≤ M.clustersFor m * M.clusterSize := hM.le_clustersFor m
        _ ≤ max (M.clustersFor m) (M.clustersFor n) * M.clusterSize :=
          Nat.mul_le_mul_right _ (le_max_left _ _)
  · exact (hM.clustersFor_le_iff _ _).mpr ((le_max_left m n).trans (hM.le_clustersFor _))
  · exact (hM.clustersFor_le_iff _ _).mpr ((le_max_right m n).trans (hM.le_clustersFor _))

/-- A file overwritten from its start keeps the rest of its old bytes. -/
theorem Mount.Legible.overwritten {fuel n : Nat} {data : List UInt8} (hl : M.Legible V)
    (hs : M.At s V A) (hat : M.EntryAt V o dl c i l) (hfile : (V.slot c i).isDirectory = false)
    (hsize : data.length + M.clusterSize ≤ 2 ^ 31)
    (hkeeps : M.clustersFor (V.slot c i).fileSize ≤ max 1 (M.clustersFor data.length))
    (hn : data.length ≤ n)
    (hrun : fat32WriteFile M fuel (M.startOf V o) (V.slot c i) data s = some ((n, e'), s'))
    (halloc : ∀ x ∈ s'.allocs, M.InRange x) : n = data.length ∧ ∃ W A', M.At s' W A' ∧
      M.Refiled V W o c i e' (data ++ (V.contents c i l).drop data.length) := by
  have hpos := hM.clusterSize_pos
  have hcontents : V.contents c i l = (V.bytes l).take (V.slot c i).fileSize := by
    rw [Volume.contents, hfile, if_neg (by decide)]
  obtain ⟨hwell, hold⟩ := hl.sized c i l hat.present hfile hat.chain
  have hroom := hM.le_clustersFor (V.slot c i).fileSize
  have hsize0 : l = [] → (V.slot c i).fileSize = 0 := by
    rintro rfl
    rw [← hwell.length, List.length_nil] at hroom
    omega
  obtain ⟨hon, honly⟩ := hl.only hat
  have hdisj := hl.neat.tidy.apart hat
  obtain ⟨s1, V1, A1, k, e1, hs1, hk, hrw, he1, hcase⟩ :=
    writeFile_spec hM hs hfile hat.chain (fun h => Or.inl (hsize0 h)) hrun halloc
  rcases hcase with ⟨hlt, -⟩ | ⟨rfl, -, he', ⟨r, hdirw⟩, hover⟩
  · omega
  · refine ⟨rfl, ?_⟩
    obtain ⟨hlength, rest, hbytes⟩ := hover hwell.length (by omega)
    obtain ⟨hsize', hcl', hdir'⟩ := fileSize_written (by omega) he1 he'
    have hlike : (V.slot c i).Like e' := by
      refine (Slot.Like.of_start he1).trans ?_
      rw [he']
      split
      · exact Slot.Like.setFileSize e1 _
      · exact Slot.Like.refl _
    obtain ⟨hs', -, hslot⟩ := hrw.storeEntry hM hs1 hon hdisj hat.mem hat.live hlike.name.symm
      (by rw [hlike.valid]; exact hat.live.valid) (fun x hx j h1 h2 => honly x hx j h1
        (h2.trans hlike.name)) hdirw
    have hk' : M.FileOn (V1.setData c (setSlot (V.data c) i e')) e'.cluster k := by
      rw [hcl']
      exact hk.congr fun _ _ => rfl
    have hck : c ∉ k := fun h => hrw.disjoint hon.fileOn hdisj c hat.mem h
    have hbytes' : (V1.setData c (setSlot (V.data c) i e')).bytes k = V1.bytes k := by
      refine Volume.bytes_congr fun x hx => ?_
      rw [Volume.setData_data, Function.update_of_ne (ne_of_mem_of_not_mem hx hck)]
    -- the clusters are just enough for the new size
    have hcount : k.length = M.clustersFor e'.fileSize := by
      rw [hlength, hsize', hM.clustersFor_max]
      split
      · rename_i hempty
        rw [hsize0 hempty.1, hempty.2, List.length_nil, hM.clustersFor_zero, max_self]
      · rename_i hne
        rcases Nat.eq_zero_or_pos (M.clustersFor data.length) with h0 | h1
        · have hdata : data = [] := by
            have := (hM.clustersFor_le_iff data.length 0).mp h0.le
            exact List.length_eq_zero_iff.mp (by omega)
          have hl1 : 0 < l.length := List.length_pos_iff.mpr fun h => hne ⟨h, hdata⟩
          have := hwell.length
          omega
        · omega
    have hwell' : M.WellFormedFile (V1.setData c (setSlot (V.data c) i e')) e' k :=
      ⟨hdir'.trans hfile, hk', hcount⟩
    have hrefiled := hl.refiled hM hat (hs.data_length (hat.dirChain.1 c hat.mem)) hfile hrw rfl hlike
      hwell' (by omega)
    have hfits : (V.slot c i).fileSize ≤ (V.bytes l).length := by
      rw [Volume.bytes_length fun x hx => hs.data_length (hat.chain.1 x hx), hwell.length]
      exact hroom
    have hnew : (V1.bytes k).take e'.fileSize = data ++ (V.contents c i l).drop data.length := by
      have hle : e'.fileSize ≤ k.length * M.clusterSize := by
        rw [hcount]
        exact hM.le_clustersFor _
      calc (V1.bytes k).take e'.fileSize
          = (data ++ (V.bytes l).drop data.length ++ rest).take e'.fileSize := by
            rw [hbytes, List.take_take, min_eq_left hle]
        _ = data ++ ((V.bytes l).take (V.slot c i).fileSize).drop data.length := by
            rw [hsize', take_max_append hfits]
        _ = data ++ (V.contents c i l).drop data.length := by rw [hcontents]
    rw [hbytes', hnew] at hrefiled
    exact ⟨_, A1, hs', hrefiled⟩

/-- `FAT32_ReadFile` on an entry of the tree. -/
theorem Mount.Legible.reads {fuel n : Nat} {buf : List UInt8} (hl : M.Legible V) (hs : M.At s V A)
    (hat : M.EntryAt V o dl c i l) (hfile : (V.slot c i).isDirectory = false)
    (hrun : fat32ReadFile M fuel (V.slot c i) s = some ((n, buf), s')) :
    M.At s' V A ∧ n < 2 ^ 31 ∧ buf.take n = V.contents c i l := by
  obtain ⟨hwell, hsize⟩ := hl.sized c i l hat.present hfile hat.chain
  have hle := hM.le_clustersFor (V.slot c i).fileSize
  rw [← hwell.length] at hle
  have hnil : l = [] → (V.slot c i).fileSize = 0 := by
    rintro rfl
    rw [List.length_nil] at hle
    omega
  obtain ⟨t, hreads, hends⟩ := readFile_ends hM hs hfile hat.chain (by omega) hnil
  obtain ⟨hvalue, rfl⟩ := (readFile_ended hrun).unique hends
  cases hvalue
  have hpos := hM.clusterSize_pos
  refine ⟨hreads.stays hs, by omega, ?_⟩
  rw [Volume.contents, hfile, if_neg (by decide), min_eq_left hle, ← hwell.length, List.take_length]

end File

end Os003
