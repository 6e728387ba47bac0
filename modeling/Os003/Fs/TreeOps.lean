import Os003.Fs.Nodes

set_option autoImplicit false

/-! # The operations as edits

What each operation on a directory has done to the volume when it returns, with the status it returns,
and that this is an edit of one entry: writing and appending, renaming, deleting a file, removing a
directory, and creating one of either kind where the directory has room.

The functions that create and remove directories change the table, too. Between the two writes the
volume is not in order, and no statement is made about it.
-/

namespace Os003

open Bytes Linked

/-! ## Slots that stay -/

/-- Slot `i` of the cluster `c` is written anew, and else only slots without an entry are; no slot
becomes an end mark or ceases to be one. -/
structure Volume.Relabels (V V' : Volume) (c i : Nat) : Prop where
  others : ∀ k, k ≠ i → V'.slot c k = V.slot c k ∨
    (isValidSfnEntry (V.slot c k) = false ∧ isValidSfnEntry (V'.slot c k) = false ∧
      (V.slot c k).name0 ≠ 0 ∧ (V'.slot c k).name0 ≠ 0)
  self : (V.slot c i).name0 ≠ 0 ∧ (V'.slot c i).name0 ≠ 0

namespace Volume.Relabels

variable {M : Mount} {V V' : Volume} {c i : Nat} (h : V.Relabels V' c i)
include h

theorem marks_iff (k : Nat) : (V'.slot c k).name0 = 0 ↔ (V.slot c k).name0 = 0 := by
  by_cases hk : k = i
  · rw [hk]
    exact iff_of_false h.self.2 h.self.1
  · rcases h.others k hk with hsame | ⟨-, -, h0, h0'⟩
    · rw [hsame]
    · exact iff_of_false h0' h0

theorem clean (hclean : EndsClean (V.data c) M.slotCount) : EndsClean (V'.data c) M.slotCount :=
  hclean.congr fun k _ => h.marks_iff k

theorem endMarked (hmark : M.EndMarked V' c) : M.EndMarked V c := by
  obtain ⟨k, hlt, h0⟩ := hmark
  exact ⟨k, hlt, (h.marks_iff k).mp h0⟩

/-- The other entries are live as before, with the same bytes. -/
theorem live_iff {j : Nat} (hne : j ≠ i) :
    (M.LiveAt V' c j ↔ M.LiveAt V c j) ∧ (M.LiveAt V c j → V'.slot c j = V.slot c j) := by
  have hreached : (∀ k, k < j → (V'.slot c k).name0 ≠ 0) ↔ ∀ k, k < j → (V.slot c k).name0 ≠ 0 :=
    forall_congr' fun k => imp_congr_right fun _ => not_congr (h.marks_iff k)
  rcases h.others j hne with hsame | ⟨hinvalid, hinvalid', -⟩
  · have hvalid : isValidSfnEntry (V'.slot c j) = isValidSfnEntry (V.slot c j) := by rw [hsame]
    refine ⟨⟨fun hj => ?_, fun hj => ?_⟩, fun _ => hsame⟩
    · exact ⟨hj.lt, hvalid.symm.trans hj.valid, hreached.mp hj.reached⟩
    · exact ⟨hj.lt, hvalid.trans hj.valid, hreached.mpr hj.reached⟩
  · have hnot : ¬ M.LiveAt V c j := fun hj => by
      rw [show isValidSfnEntry (V.slot c j) = true from hj.valid] at hinvalid
      cases hinvalid
    have hnot' : ¬ M.LiveAt V' c j := fun hj => by
      rw [show isValidSfnEntry (V'.slot c j) = true from hj.valid] at hinvalid'
      cases hinvalid'
    exact ⟨iff_of_false hnot' hnot, fun hj => absurd hj hnot⟩

/-- The entry is live when its slot is valid. -/
theorem live_self (hlive : M.LiveAt V c i) (hvalid : isValidSfnEntry (V'.slot c i) = true) :
    M.LiveAt V' c i :=
  ⟨hlive.lt, hvalid, fun k hk => fun h0 => hlive.reached k hk ((h.marks_iff k).mp h0)⟩

end Volume.Relabels

/-- An entry that is live does not begin with an end mark. -/
theorem Mount.LiveAt.name0_ne {M : Mount} {V : Volume} {c i : Nat} (h : M.LiveAt V c i) :
    (V.slot c i).name0 ≠ 0 := ((isValidSfnEntry_iff _).mp h.valid).1

/-! ## Changed entries -/

section Entry

variable {M : Mount} {V V' : Volume} {o : Owner} {dl l l' : List Nat} {c i : Nat}

/-- A change of an entry is an edit, if a directory stays one. -/
theorem Mount.Changes.edits (hn : M.Neat V) (hat : M.EntryAt V o dl c i l)
    (hch : M.Changes V V' dl c i l l') (hslots : V.Relabels V' c i)
    (hstays : (V.slot c i).isDirectory = true → M.LiveAt V' c i) : M.EditsEntry V V' dl c i l l' := by
  have hself := hn.tidy.not_self hat.present hat.chain
  have hkeep : M.LiveAt V' c i → (V.slot c i).isDirectory = true → M.KeepsDir V V' c i l l' := by
    intro hlive hdir
    have hframe : ∀ x ∈ l, V'.fat x = V.fat x ∧ V'.data x = V.data x := by
      intro x hx
      obtain ⟨h1, h2⟩ := hch.frame x (fun _ => hdir) (hat.chain.fat_ne_free hx)
      exact ⟨h1, h2 fun hxc => hself (hxc ▸ hx)⟩
    have hchain : M.FileOn V' (V'.slot c i).cluster l := by
      rw [hch.dir hdir hlive]
      exact hat.chain.congr fun x hx => (hframe x hx).1
    exact ⟨⟨hat.live, hdir⟩, ⟨hlive, (hch.attr hlive).trans hdir⟩, hch.dir hdir hlive,
      (hch.chain hlive).unique hchain, hframe⟩
  have hended := hn.ended o dl hat.parent hat.dir hat.dirChain
  refine ⟨hch.fresh, fun x hx => hch.frame x fun h => absurd h hx, fun j hj => hslots.live_iff hj,
    hslots.clean (hended.clean c hat.mem), hslots.endMarked, hch.chain, hch.empty, hch.name, ?_, ?_⟩
  · intro _ hdir
    exact Or.inl (hkeep (hstays hdir) hdir)
  · intro hlive hdir
    exact Or.inl (hkeep hlive ((hch.attr hlive).symm.trans hdir))

/-- An entry written back keeps its slot and those of the others. -/
theorem Volume.Refiles.relabels (h : V.Refiles V' c i) (hlive : M.LiveAt V c i) :
    V.Relabels V' c i := by
  have h0 := hlive.name0_ne
  refine ⟨fun k hk => Or.inl (h.others k hk), h0, ?_⟩
  rw [Slot.name0_eq, h.like.name, ← Slot.name0_eq]
  exact h0

/-- A file whose entry is written back. -/
theorem Volume.Refiles.edits (hn : M.Neat V) (hat : M.EntryAt V o dl c i l)
    (hch : M.Changes V V' dl c i l l') (hslots : V.Refiles V' c i) :
    M.EditsEntry V V' dl c i l l' ∧ M.LiveAt V' c i := by
  have hrel := hslots.relabels hat.live
  have hlive : M.LiveAt V' c i := hrel.live_self hat.live (hslots.like.valid.trans hat.live.valid)
  exact ⟨hch.edits hn hat hrel fun _ => hlive, hlive⟩

end Entry

/-! ## Renamed entries -/

section Renamed

variable {M : Mount} (hM : M.Sound) {V : Volume} {o : Owner} {dl l : List Nat} {c i : Nat}
  {name : List UInt8}
include hM

/-- An entry renamed: it keeps everything but its name, and its clusters keep their bytes. -/
theorem renamed_edits (hn : M.Neat V) (hlen : (V.data c).length = M.clusterSize)
    (hat : M.EntryAt V o dl c i l) (hname : Nameable name)
    (hnew : ∀ x ∈ dl, ∀ j, M.LiveAt V x j → (V.slot x j).name ≠ nameTo83 name) {W : Volume}
    (hW : W = V.setData c (renamedCluster (V.data c) i (pieces (V.data c) [] i) name)) :
    M.EditsEntry V W dl c i l l ∧ M.LiveAt W c i ∧
      W.slot c i = (V.slot c i).setName (nameTo83 name) ∧ W.contents c i l = V.contents c i l := by
  obtain ⟨-, hself, hslots⟩ := renamedCluster_spec hM hlen hat.live name
  have hlive := renamedCluster_live hM hlen hat.live hname.length hname.noNull hname.notDeleted
    hname.notDot
  have hch := hn.tidy.relabel hat (Or.inl rfl) hslots fun _ => ⟨_, hself, hnew⟩
  rw [← hW] at hch
  have hdata : W.data c = renamedCluster (V.data c) i (pieces (V.data c) [] i) name := by
    rw [hW, Volume.setData_data, Function.update_self]
  have hlive' : M.LiveAt W c i := by
    rw [Mount.LiveAt, hdata]
    exact hlive
  have hrel : V.Relabels W c i := by
    refine ⟨fun k hk => ?_, hat.live.name0_ne, hlive'.name0_ne⟩
    obtain ⟨hsame, hpiece⟩ := renamedCluster_slots hM hlen hat.live hname.length k hk
    rw [Volume.slot, Volume.slot, hdata]
    by_cases hkp : k ∈ pieces (V.data c) [] i
    · right
      rcases hslots k hk with h | ⟨hinvalid, h0⟩
      · rw [h]
        exact ⟨isValidSfnEntry_lfn (pieces_spec hkp).2.2, isValidSfnEntry_lfn (pieces_spec hkp).2.2,
          (SlotLive.piece hM hlen hat.live hkp).2.2, (SlotLive.piece hM hlen hat.live hkp).2.2⟩
      · exact ⟨isValidSfnEntry_lfn (pieces_spec hkp).2.2, hinvalid, h0, hpiece hkp⟩
    · exact Or.inl (hsame hkp)
  have hslot : W.slot c i = (V.slot c i).setName (nameTo83 name) := by
    rw [Volume.slot, hdata, hself, Volume.slot]
  refine ⟨hch.edits hn hat hrel fun _ => hlive', hlive', hslot, ?_⟩
  have hbytes : W.bytes l = V.bytes l := by
    refine Volume.bytes_congr fun x hx => ?_
    rw [hW, Volume.setData_data, Function.update_of_ne]
    rintro rfl
    exact hn.tidy.not_self hat.present hat.chain hx
  rw [Volume.contents, Volume.contents, hslot, Slot.isDirectory, Slot.attr_setName,
    Slot.fileSize_setName, hbytes, Slot.isDirectory]

end Renamed

/-! ## Removed entries -/

section Removed

variable {M : Mount} (hM : M.Sound) {V : Volume} {o : Owner} {dl l : List Nat} {c i : Nat}
include hM

/-- The cluster with the slots of an entry marked as deleted. -/
theorem removed_relabels (hlen : (V.data c).length = M.clusterSize) (hlive : M.LiveAt V c i)
    {W : Volume} (hdata : W.data c = markDeleted (V.data c) (pieces (V.data c) [] i ++ [i])) :
    V.Relabels W c i ∧ (W.slot c i).name0 = 0xE5 := by
  have hroom : ∀ j ∈ pieces (V.data c) [] i ++ [i], SlotRoom (V.data c) j := by
    intro j hj
    rcases List.mem_append.mp hj with h | h
    · exact (SlotLive.piece hM hlen hlive h).1
    · rw [List.mem_singleton.mp h]
      exact SlotLive.room hM hlen hlive
  have hmark := fun k => slotAt_markDeleted hroom k
  have hgone : ∀ k ∈ pieces (V.data c) [] i ++ [i], (W.slot c k).name0 = 0xE5 := by
    intro k hk
    rw [Volume.slot, hdata]
    exact (hmark k).1 hk
  have hne : ∀ k ∈ pieces (V.data c) [] i ++ [i], (W.slot c k).name0 ≠ 0 := by
    intro k hk
    rw [hgone k hk]
    decide
  refine ⟨⟨?_, hlive.name0_ne, hne i (by simp)⟩, hgone i (by simp)⟩
  intro k hki
  by_cases hk : k ∈ pieces (V.data c) [] i ++ [i]
  · -- a piece of the long name
    have hpiece : k ∈ pieces (V.data c) [] i := by simpa [hki] using hk
    have hattr := (pieces_spec hpiece).2.2
    exact Or.inr ⟨isValidSfnEntry_lfn hattr, isValidSfnEntry_deleted (hgone k hk),
      (SlotLive.piece hM hlen hlive hpiece).2.2, hne k hk⟩
  · left
    rw [Volume.slot, hdata]
    exact (hmark k).2 hk

/-- The removal of a file, or of a directory without an entry. -/
theorem removed_edits (hn : M.Neat V) (hlen : (V.data c).length = M.clusterSize)
    (hat : M.EntryAt V o dl c i l)
    (hempty : (V.slot c i).isDirectory = true → ∀ x ∈ l, ¬ M.Holds V x) {W : Volume}
    (hW : W = (V.clear l).setData c (markDeleted (V.data c) (pieces (V.data c) [] i ++ [i]))) :
    M.EditsEntry V W dl c i l [] ∧ ¬ M.LiveAt W c i := by
  have hdata : W.data c = markDeleted (V.data c) (pieces (V.data c) [] i ++ [i]) := by
    rw [hW, Volume.setData_data, Function.update_self]
  obtain ⟨hslots, hgone⟩ := removed_relabels hM hlen hat.live hdata
  have hdead : ¬ M.LiveAt W c i := by
    intro h
    have hvalid : isValidSfnEntry (W.slot c i) = true := h.valid
    rw [isValidSfnEntry_deleted hgone] at hvalid
    cases hvalid
  have hended := hn.ended o dl hat.parent hat.dir hat.dirChain
  refine ⟨⟨by simp, ?_, fun j hj => hslots.live_iff hj, hslots.clean (hended.clean c hat.mem),
    hslots.endMarked, fun h => absurd h hdead, fun h => absurd h hdead, fun h => absurd h hdead,
    fun _ hdir => Or.inr (hempty hdir), fun h => absurd h hdead⟩, hdead⟩
  intro x hx _
  constructor
  · rw [hW]
    exact if_neg hx
  · intro hxc
    rw [hW, Volume.setData_data, Function.update_of_ne hxc, Volume.clear_data]

end Removed

/-! ## New entries -/

section Created

variable {M : Mount} {V V1 W : Volume} {o : Owner} {dl l' : List Nat} {c pos n : Nat}
  {name : List UInt8} {attr : UInt8} {rtc : RtcTime}

/-- The slot of the short entry, behind the pieces. -/
def entrySlot (name : List UInt8) (pos : Nat) : Nat :=
  pos + (makeLfnEntries name (fat32LfnChecksum (nameTo83 name))).length

/-- There is no entry in the slot before. -/
theorem FreeAt.dead (hclean : EndsClean (V.data c) M.slotCount)
    (hfree : FreeAt (V.data c) (slotsNeeded name) M.slotCount pos) :
    ¬ M.LiveAt V c (entrySlot name pos) :=
  hfree.not_live hclean (by unfold entrySlot; omega) (by unfold entrySlot slotsNeeded; omega)

theorem created_place (hn : M.Neat V) (ho : M.Present V o) (hdir : V.isDirOf o = true)
    (hdl : M.FileOn V (M.startOf V o) dl) (hc : c ∈ dl)
    (hfree : FreeAt (V.data c) (slotsNeeded name) M.slotCount pos) :
    M.PlaceAt V o dl c (entrySlot name pos) [] :=
  ⟨ho, hdir, hdl, hc, Or.inr ⟨hfree.dead ((hn.ended o dl ho hdir hdl).clean c hc), rfl⟩⟩

/-- The new slots written into the cluster `c`; `V1` is the volume with the clusters of the new
entry, which were free. -/
theorem created_edits (hn : M.Neat V) (hplace : M.PlaceAt V o dl c (entrySlot name pos) [])
    (hlen : (V.data c).length = M.clusterSize) (hname : Nameable name)
    (hattr : attr = attrArchive ∨ attr = attrDirectory) (hlt : n < 2 ^ 32)
    (hfree : FreeAt (V.data c) (slotsNeeded name) M.slotCount pos)
    (hnew : ∀ x ∈ dl, ∀ j, M.LiveAt V x j → (V.slot x j).name ≠ nameTo83 name)
    (hframe : ∀ x, V.fat x ≠ fat32EntryFree → V1.fat x = V.fat x ∧ V1.data x = V.data x)
    (hfresh : ∀ x ∈ l', V.fat x = fat32EntryFree) (hchain : M.FileOn V1 n l')
    (hdir : attr = attrDirectory → (∀ x ∈ l', ¬ M.Holds V1 x) ∧ M.Ended V1 l')
    (hW : W = V1.setData c (setSlots (V.data c) pos (newSlots name attr rtc n))) :
    M.EditsEntry V W dl c (entrySlot name pos) [] l' ∧ M.LiveAt W c (entrySlot name pos) ∧
      W.slot c (entrySlot name pos) = mkSfn (nameTo83 name) attr rtc n := by
  have hroom : 32 * M.slotCount ≤ (V.data c).length := by
    rw [hlen, Mount.slotCount]
    omega
  have hclean := (hn.ended o dl hplace.parent hplace.dir hplace.dirChain).clean c hplace.mem
  have hvalid := mkSfn_valid hname rtc n hattr
  have h0 := ((isValidSfnEntry_iff _).mp hvalid).1
  have hpieces : ∀ p ∈ makeLfnEntries name (fat32LfnChecksum (nameTo83 name)), IsPiece p :=
    fun p hp => (makeLfnEntries_isPiece hname.length hp).1
  have hdata : W.data c = setSlots (V.data c) pos (newSlots name attr rtc n) := by
    rw [hW, Volume.setData_data, Function.update_self]
  have hother : ∀ x, x ≠ c → W.data x = V1.data x := by
    intro x hx
    rw [hW, Volume.setData_data, Function.update_of_ne hx]
  have hslot : W.slot c (entrySlot name pos) = mkSfn (nameTo83 name) attr rtc n := by
    rw [Volume.slot, hdata]
    exact (slotAt_inserted hfree hroom (entrySlot name pos)).2.2 rfl
  have hlive : M.LiveAt W c (entrySlot name pos) := by
    rw [Mount.LiveAt, hdata]
    exact inserted_new hfree hroom hpieces h0 hvalid
  have hfile : W.fat = V1.fat := by rw [hW, Volume.setData_fat]
  have hcl : c ∉ l' := fun h => hplace.dirChain.fat_ne_free hplace.mem (hfresh c h)
  have hcluster : (W.slot c (entrySlot name pos)).cluster = n := by
    rw [hslot, mkSfn_cluster _ _ _ hlt]
  refine ⟨⟨fun x hx => Or.inr (hfresh x hx), ?_, ?_, ?_, ?_, ?_, ?_, ?_, ?_, ?_⟩, hlive, hslot⟩
  · -- outside the new chain the table is untouched, and only cluster `c` is written
    intro x _ hx
    obtain ⟨h1, h2⟩ := hframe x hx
    exact ⟨by rw [hfile, h1], fun hxc => (hother x hxc).trans h2⟩
  · -- the other entries of cluster `c`
    intro j hj
    obtain ⟨hiff, hsame⟩ := inserted_live hfree hroom hpieces h0 hclean hj
    rw [Mount.LiveAt, Mount.LiveAt, hdata, Volume.slot, Volume.slot, hdata]
    exact ⟨hiff, hsame⟩
  · rw [hdata]
    exact inserted_endsClean hfree hroom hpieces h0 hclean
  · -- an end mark behind the new slots was one before
    rintro ⟨k, hk, hend⟩
    rw [Volume.slot, hdata] at hend
    rcases Nat.lt_or_ge k pos with h | h
    · rw [newSlots, (slotAt_inserted hfree hroom k).1 (Or.inl h)] at hend
      exact ⟨k, hk, hend⟩
    · rcases Nat.lt_or_ge (entrySlot name pos) k with hgt | hle
      · rw [newSlots, (slotAt_inserted hfree hroom k).1 (Or.inr hgt)] at hend
        exact ⟨k, hk, hend⟩
      · exact absurd hend (inserted_marks hfree hroom hpieces h0 h hle)
  · -- the chain of the new entry
    intro _
    rw [hcluster]
    exact hchain.congr fun x _ => by rw [hfile]
  · intro _ _
    left
    rw [hslot, mkSfn_fileSize]
  · -- its name is new
    intro _ x hx j hj hname'
    rw [hslot, mkSfn_name] at hname'
    exact absurd hname' (hnew x hx j hj)
  · intro _ _
    exact Or.inr (by simp)
  · -- a new directory has no entries
    intro _ hisdir
    have hdirattr : attr = attrDirectory := by
      rcases hattr with rfl | h
      · rw [hslot, Slot.isDirectory, mkSfn_attr] at hisdir
        exact absurd hisdir (by decide)
      · exact h
    obtain ⟨hnone, hended⟩ := hdir hdirattr
    have hsame : ∀ x ∈ l', W.data x = V1.data x := fun x hx =>
      hother x fun hxc => hcl (hxc ▸ hx)
    refine Or.inr ⟨fun x hx => ?_, hended.congr (fun x hx h => ?_) fun x hx h => ?_⟩
    · rintro ⟨j, hj⟩
      rw [Mount.LiveAt, hsame x hx] at hj
      exact hnone x hx ⟨j, hj⟩
    · rw [hsame x hx]
      exact h
    · obtain ⟨j, hj, hend⟩ := h
      rw [Volume.slot, hsame x hx] at hend
      exact ⟨j, hj, hend⟩

end Created

/-- A directory of the tree that has clusters. -/
structure Mount.Directory (M : Mount) (V : Volume) (o : Owner) : Prop where
  present : M.Present V o
  isDir : V.isDirOf o = true
  start : M.startOf V o ≠ 0

section Sound

variable {M : Mount} (hM : M.Sound) {s s' : FsState} {V : Volume} {A : List Nat} {o : Owner}

theorem Mount.Directory.chain (h : M.Directory V o) (ht : M.Tidy V) :
    ∃ dl, M.FileOn V (M.startOf V o) dl ∧ M.DirOn V (M.startOf V o) dl := by
  obtain ⟨dl, hdl⟩ := ht.chain o h.present
  exact ⟨dl, hdl, hdl.chain (fun hnil => h.start (hdl.nil_iff.mp hnil)), hdl.1⟩

include hM

/-! ## What creation does -/

/-- Where the directory has room, the loop of both creations writes the slots there. -/
theorem addSlots_at {d full fuel r : Nat} {l : List Nat} {name : List UInt8} {slots : List Slot}
    (hs : M.At s V A) (hd : M.DirOn V d l) (hlen : slots.length = slotsNeeded name)
    (hroom : M.Room V l name) (hrun : addSlots M fuel d full slots s = some (r, s')) :
    r = 0 ∧ ∃ c ∈ l, ∃ pos, FreeAt (V.data c) (slotsNeeded name) M.slotCount pos ∧
      M.At s' (V.setData c (setSlots (V.data c) pos slots)) A := by
  obtain ⟨s1, hr1, hloop⟩ := addSlots_chain hM hs hd hlen full fuel
  obtain ⟨⟨c, pos⟩, hwalk⟩ := walk_roomScan.mpr hroom
  obtain ⟨hc, _, hscan⟩ := Volume.walk_inl hwalk
  have hfind : findRoom (V.data c) (slotsNeeded name) M.slotCount M.slotCount 0 0 0 = some pos := by
    unfold Mount.roomScan at hscan
    split at hscan
    · rename_i p hp
      cases hscan
      exact hp
    · cases hscan
  have hfree : FreeAt (V.data c) (slotsNeeded name) M.slotCount pos :=
    findRoom_some (Nat.succ_pos _) hfind
  have hlenc := hs.data_length (hd.2 c hc)
  have hfits : 32 * (pos + slots.length) ≤ (V.data c).length := by
    have := hfree.fits
    have hslots : M.slotCount * 32 ≤ M.clusterSize := Nat.div_mul_le_self _ _
    rw [hlen, hlenc]
    omega
  have hlenw : (setSlots (V.data c) pos slots).length = M.clusterSize :=
    (setSlots_length hfits).trans hlenc
  obtain ⟨s2, hwrite, hs2⟩ := writeCluster_at hM (hr1.stays hs) (hd.2 c hc) hlenw
  rw [hwalk, Volume.finish] at hloop
  rcases hloop with h | ⟨h, -⟩
  · rw [h, writeNewSlots, Prog.bind_run hwrite, if_neg (by simp), Prog.bind_run (ata_flush_run _ _),
      Prog.pure_run] at hrun
    cases hrun
    exact ⟨rfl, c, hc, pos, hfree, hs2.quiet, by rw [Mount.view_note]; exact hs2.view, hs2.allocs⟩
  · cases h.symm.trans hrun

/-- What `FAT32_CreateFile` does in a directory with room: nothing, since the name is found, or it
writes the slots of an entry whose name no entry of the directory has. -/
theorem createFile_at {fuel r : Nat} {name : List UInt8} {rtc : RtcTime} {dl : List Nat}
    (hs : M.At s V A) (hdl : M.DirOn V (M.startOf V o) dl) (hroom : M.Room V dl name)
    (hrun : fat32CreateFile M fuel (M.startOf V o) name rtc s = some (r, s')) :
    (r = 1 ∧ M.At s' V A ∧ ∃ e t,
        fat32FindEntryAny M fuel (M.startOf V o) name s = some ((0, e), t)) ∨
      (r = 0 ∧ (∀ x ∈ dl, ∀ j, M.LiveAt V x j → (V.slot x j).name ≠ nameTo83 name) ∧
        ∃ c ∈ dl, ∃ pos, FreeAt (V.data c) (slotsNeeded name) M.slotCount pos ∧
          M.At s' (V.setData c (setSlots (V.data c) pos (newSlots name attrArchive rtc 0))) A) := by
  rw [fat32CreateFile] at hrun
  obtain ⟨⟨st, found⟩, s1, hfind, hrest⟩ := Prog.bind_eq_some.mp hrun
  obtain ⟨hr1, ⟨rfl, -⟩ | ⟨hst, -, hnew⟩⟩ := findEntryAny_spec hM hs hdl hfind
  · simp only [if_true, Prog.pure_run] at hrest
    cases hrest
    exact Or.inl ⟨rfl, hr1.stays hs, _, _, hfind⟩
  · simp only [hst, if_false] at hrest
    obtain ⟨rfl, hcase⟩ := addSlots_at hM (hr1.stays hs) hdl (newSlots_length _ _ _ _) hroom hrest
    exact Or.inr ⟨rfl, hnew, hcase⟩

/-- The volume in which a free cluster has become that of a new directory. -/
def Mount.withDir (M : Mount) (V : Volume) (rtc : RtcTime) (n d : Nat) : Volume :=
  (V.setFat n fat32EntryEof).setData n (newDirCluster M rtc n d)

omit hM in
/-- The new directory has one cluster. -/
theorem Mount.withDir_chain {n : Nat} (hn : M.InRange n) (rtc : RtcTime) (d : Nat) :
    M.FileOn (M.withDir V rtc n d) n [n] := by
  have hlast : (M.withDir V rtc n d).fat n = fat32EntryEof := Function.update_self _ _ _
  refine ⟨by simpa using hn, Or.inr (Chain.last ?_)⟩
  show IsEof ((M.withDir V rtc n d).fat n)
  rw [hlast]
  decide

omit hM in
/-- Only a free cluster changes. -/
theorem Mount.withDir_frame {n x : Nat} (hn : V.fat n = fat32EntryFree) (rtc : RtcTime) (d : Nat)
    (hx : V.fat x ≠ fat32EntryFree) : (M.withDir V rtc n d).fat x = V.fat x ∧
      (M.withDir V rtc n d).data x = V.data x := by
  have hxn : x ≠ n := by
    rintro rfl
    exact hx hn
  exact ⟨Function.update_of_ne hxn _ _, Function.update_of_ne hxn _ _⟩

/-- What `FAT32_CreateDir` does in a directory with room: nothing, since the name is found or no cluster
is free, or it makes the cluster of a directory and writes the slots of its entry. -/
theorem createDir_at {fuel r : Nat} {name : List UInt8} {rtc : RtcTime} {dl : List Nat}
    (hs : M.At s V A) (hdl : M.DirOn V (M.startOf V o) dl) (hroom : M.Room V dl name)
    (hrun : fat32CreateDir M fuel (M.startOf V o) name rtc s = some (r, s'))
    (halloc : ∀ x ∈ s'.allocs, M.InRange x) :
    (r = 1 ∧ M.At s' V A ∧ ∃ e t,
        fat32FindEntryAny M fuel (M.startOf V o) name s = some ((0, e), t)) ∨
      ((∀ x ∈ dl, ∀ j, M.LiveAt V x j → (V.slot x j).name ≠ nameTo83 name) ∧
        ((r = 5 ∧ M.At s' V A) ∨ (r = 0 ∧ ∃ n, M.InRange n ∧ V.fat n = fat32EntryFree ∧
          ∃ c ∈ dl, ∃ pos, FreeAt (V.data c) (slotsNeeded name) M.slotCount pos ∧
            M.At s' ((M.withDir V rtc n (M.startOf V o)).setData c
              (setSlots (V.data c) pos (newSlots name attrDirectory rtc n))) (n :: A)))) := by
  have hG := M.keeps_grows
  rw [fat32CreateDir] at hrun
  obtain ⟨⟨st, found⟩, s1, hfind, hrest⟩ := Prog.bind_eq_some.mp hrun
  obtain ⟨hr1, ⟨rfl, -⟩ | ⟨hst, -, hnew⟩⟩ := findEntryAny_spec hM hs hdl hfind
  · simp only [if_true, Prog.pure_run] at hrest
    cases hrest
    exact Or.inl ⟨rfl, hr1.stays hs, _, _, hfind⟩
  · refine Or.inr ⟨hnew, ?_⟩
    simp only [hst, if_false] at hrest
    have hs1 := hr1.stays hs
    obtain ⟨n, s2, hcluster, hrest⟩ := Prog.bind_eq_some.mp hrest
    rcases allocCluster_shape hM hs1 hcluster with ⟨rfl, hr2⟩ | ⟨hn, -, hfree, s3, hr3, rfl⟩
    · rw [if_pos rfl, Prog.pure_run] at hrest
      cases hrest
      exact Or.inl ⟨rfl, hr2.stays hs1⟩
    · rw [if_neg (by omega)] at hrest
      have hin : M.InRange n := by
        refine grows_before (hG.bind (fat32WriteCluster_steps hG _ _) fun st => ?_) hrest halloc n
          List.mem_cons_self
        exact Prog.Steps.ite (hG.pure _) (addSlots_steps hG _ _ _ _)
      obtain ⟨s4, hwrite, hs4, -⟩ := dirCluster_at hM (hr3.stays hs1) hin rtc (M.startOf V o)
      have hnfree := hfree hin.hasEntry
      obtain ⟨hnl, hdl'⟩ := hdl.taken hnfree (newDirCluster M rtc n (M.startOf V o))
      rw [Prog.bind_run hwrite, if_neg (by simp)] at hrest
      obtain ⟨rfl, c, hc, pos, hplace, hs'⟩ := addSlots_at hM hs4 hdl' (newSlots_length _ _ _ _)
        ((Mount.Room.taken_iff hnl _).mpr hroom) hrest
      have hdata : (M.withDir V rtc n (M.startOf V o)).data c = V.data c :=
        Function.update_of_ne (fun h => hnl (by rw [← h]; exact hc)) _ _
      rw [← Mount.withDir, hdata] at hplace hs'
      exact Or.inr ⟨rfl, n, hin, hnfree, c, hc, pos, hplace, hs'⟩

/-- A new directory has two entries for itself and its parent, and behind them end marks. -/
theorem newDirCluster_slots (rtc : RtcTime) (n d k : Nat) :
    (k < 2 → (slotAt (newDirCluster M rtc n d) k).name0 = 0x2E ∧
      (slotAt (newDirCluster M rtc n d) k).attr = attrDirectory) ∧
    (2 ≤ k → (slotAt (newDirCluster M rtc n d) k).name0 = 0) := by
  have hslots : 2 ≤ M.slotCount := by
    have h1 := hM.slotCount_eq
    have h2 := hM.sectors.1
    omega
  have hsize : 32 * (0 + 2) ≤ (List.replicate M.clusterSize (0 : UInt8)).length := by
    have h : M.slotCount * 32 ≤ M.clusterSize := Nat.div_mul_le_self _ _
    rw [List.length_replicate]
    omega
  constructor
  · intro hk
    rw [newDirCluster, ← Nat.zero_add k, slotAt_setSlots hsize hk]
    rcases k with _ | _ | k
    · exact ⟨rfl, mkSfn_attr _ _ _⟩
    · exact ⟨rfl, mkSfn_attr _ _ _⟩
    · omega
  · intro hk
    rw [newDirCluster, slotAt_setSlots_of_not_mem hsize (Or.inr hk), slotAt_name0,
      List.getD_eq_getElem?_getD, List.getElem?_replicate]
    split
    · rfl
    · rfl

/-- The cluster of a new directory has no entry, and its end marks are in order. -/
theorem newDirCluster_ended (V : Volume) (rtc : RtcTime) (n d : Nat) :
    ¬ M.Holds (M.withDir V rtc n d) n ∧ M.Ended (M.withDir V rtc n d) [n] := by
  have hdata : (M.withDir V rtc n d).data n = newDirCluster M rtc n d := Function.update_self _ _ _
  have hslots := newDirCluster_slots hM rtc n d
  constructor
  · rintro ⟨k, hk⟩
    rw [Mount.LiveAt, hdata] at hk
    have hvalid := (isValidSfnEntry_iff _).mp hk.valid
    rcases Nat.lt_or_ge k 2 with h | h
    · exact hvalid.2.2.1 ((hslots k).1 h).1
    · exact hvalid.1 ((hslots k).2 h)
  · refine ⟨?_, by simp⟩
    intro x hx
    rw [List.mem_singleton.mp hx, hdata]
    refine endsClean_of_zero (k := 2) (fun j hj => ?_) fun j hj _ => (hslots j).2 hj
    rw [((hslots j).1 hj).1]
    decide

/-! ## What removal does -/

/-- Why `FAT32_RemoveDir` does nothing. -/
def Mount.RemovalRefused (M : Mount) (V : Volume) (dl : List Nat) (name : List UInt8) (r : Nat) : Prop :=
  (r = 1 ∧ ∀ c i, ¬ M.Selected V dl name c i) ∨
    (r = 4 ∧ ∃ c i, M.Selected V dl name c i ∧ (V.slot c i).isDirectory = false) ∨
    (r = 5 ∧ ∃ c i l, M.Selected V dl name c i ∧ (V.slot c i).isDirectory = true ∧
      M.FileOn V (V.slot c i).cluster l ∧ ∃ x ∈ l, M.Holds V x)

/-- What `FAT32_RemoveDir` does in a directory of the tree: nothing, since the name is not found or is
that of a file or of a directory with an entry, or it frees the clusters of a directory without one and
removes its slots. -/
theorem removeDir_at {fuel r : Nat} {name : List UInt8} (hn : M.Neat V) (hs : M.At s V A)
    (ho : M.Directory V o)
    (hrun : fat32RemoveDir M fuel (M.startOf V o) name s = some (r, s')) :
    ∃ dl, M.FileOn V (M.startOf V o) dl ∧
      ((r ≠ 0 ∧ M.At s' V A ∧ M.RemovalRefused V dl name r) ∨
        (r = 0 ∧ ∃ c i l, M.Selected V dl name c i ∧ M.EntryAt V o dl c i l ∧
          (V.slot c i).isDirectory = true ∧ (∀ x ∈ l, ¬ M.Holds V x) ∧ M.At s'
            ((V.clear l).setData c (markDeleted (V.data c) (pieces (V.data c) [] i ++ [i]))) A)) := by
  obtain ⟨dl, hdl, hdirOn⟩ := ho.chain hn.tidy
  refine ⟨dl, hdl, ?_⟩
  rw [fat32RemoveDir] at hrun
  obtain ⟨s1, hr1, ⟨c, hc, i, hlive, hmatch, hhit⟩ | ⟨hnone, x, buf, lfn, hend⟩⟩ :=
    scanOrdered_walk hM hs hdirOn name _ _ _ _ hrun
  · have hs1 := hr1.stays hs
    have hsel : M.Selected V dl name c i := ⟨hc, hlive, hmatch⟩
    obtain ⟨l, hl⟩ := hn.tidy.chain (some (c, i))
      (Mount.Present.entry ho.present ho.isDir hdl hc hlive)
    have hat : M.EntryAt V o dl c i l := ⟨ho.present, ho.isDir, hdl, hc, hlive, hl⟩
    simp only [] at hhit
    by_cases hdir : (V.slot c i).isDirectory = true
    · have hdir' : ¬ (!(slotAt (V.data c) i).isDirectory) = true := by
        rw [show (slotAt (V.data c) i).isDirectory = true from hdir]
        decide
      rw [if_neg hdir'] at hhit
      have hremove : (r = 5 ∧ M.At s' V A ∧ ∃ x ∈ l, M.Holds V x) ∨
          ((∀ x ∈ l, ¬ M.Holds V x) ∧ ∃ s2, M.At s2 (V.clear l) A ∧
            removeSlots M c (V.data c) i (pieces (V.data c) [] i) s2 = some (r, s')) := by
        by_cases h0 : (slotAt (V.data c) i).cluster ≠ 0
        · rw [if_pos h0] at hhit
          have hne : l ≠ [] := fun h => h0 (hl.nil_iff.mp h)
          have hdirl : M.DirOn V (V.slot c i).cluster l := ⟨hl.chain hne, hl.1⟩
          obtain ⟨s2, hr2, hempty⟩ := isDirEmpty_within hM hs1 hdirl
          obtain ⟨empty, s2', he, hrest⟩ := Prog.bind_eq_some.mp hhit
          obtain ⟨rfl, rfl⟩ := hempty.result he
          have hs2 := hr2.stays hs1
          by_cases hseems : M.seemsEmpty V l = true
          · rw [hseems, if_neg (by decide)] at hrest
            obtain ⟨s3, hs3, hw⟩ := freeClusterChain_within hM hs2 hdirl.1 hl.1
            obtain ⟨r', s3', hfree, hrest⟩ := Prog.bind_eq_some.mp hrest
            obtain ⟨rfl, rfl⟩ := hw.result hfree
            rw [if_neg (by simp)] at hrest
            refine Or.inr ⟨?_, _, hs3, hrest⟩
            -- a cluster with an end mark is the last one, so nothing is behind it
            intro x hx hholds
            obtain ⟨p, q, rfl⟩ := List.append_of_mem hx
            obtain ⟨y, hy, hmark⟩ := (M.seemsEmpty_iff V _).mp hseems p x q rfl hholds
            refine (hn.ended _ _ hat.present hdir hl).last y ?_ hmark
            rw [List.dropLast_append_of_ne_nil (List.cons_ne_nil x q)]
            exact List.mem_append_left _ hy
          · have hholds : ∃ x ∈ l, M.Holds V x := by
              by_contra hno
              refine hseems ((M.seemsEmpty_iff V l).mpr fun p x q hl' hx => absurd ⟨x, ?_, hx⟩ hno)
              rw [hl']
              simp
            rw [Bool.not_eq_true] at hseems
            rw [hseems, if_pos (by decide), Prog.pure_run] at hrest
            cases hrest
            exact Or.inl ⟨rfl, hs2, hholds⟩
        · rw [if_neg h0] at hhit
          have hnil : l = [] := hl.nil_iff.mpr (not_not.mp h0)
          subst hnil
          refine Or.inr ⟨by simp, s1, ?_, hhit⟩
          rw [Volume.clear_nil]
          exact hs1
      rcases hremove with ⟨rfl, hs', hholds⟩ | ⟨hempty, s2, hs2, hrest⟩
      · exact Or.inl ⟨by decide, hs', Or.inr (Or.inr ⟨rfl, c, i, l, hsel, hdir, hl, hholds⟩)⟩
      · obtain ⟨rfl, hs3⟩ := removeSlots_at hM hs2 (hdl.1 c hc)
          (hs.data_length (hdl.1 c hc)) hlive hrest
        exact Or.inr ⟨rfl, c, i, l, hsel, hat, hdir, hempty, hs3⟩
    · have hdir' : (!(slotAt (V.data c) i).isDirectory) = true := by
        rw [Bool.not_eq_true] at hdir
        rw [show (slotAt (V.data c) i).isDirectory = false from hdir]
        decide
      rw [if_pos hdir', Prog.pure_run] at hhit
      cases hhit
      exact Or.inl ⟨by decide, hs1, Or.inr (Or.inl ⟨rfl, c, i, hsel, by simpa using hdir⟩)⟩
  · rw [Prog.pure_run] at hend
    cases hend
    refine Or.inl ⟨by decide, hr1.stays hs, Or.inl ⟨rfl, fun c i hsel => ?_⟩⟩
    have hmatch := hsel.matched
    rw [hnone c hsel.mem i hsel.live] at hmatch
    cases hmatch

end Sound

end Os003
