import Os003.Fs.Boundaries
import Os003.Fs.Endless
import Os003.Fs.Hint

set_option autoImplicit false

/-! # Refused creations

`FAT32_CreateFile` writes nothing before it has a place for the new slots. `FAT32_CreateDir` takes
a cluster for the new directory first, and gives it back on no path: when the parent is full and
that cluster was the last free one, the call fails with code 4 and the cluster is lost.
-/

namespace Os003

open Bytes

/-- All copies of the table, the clusters and a known free-cluster count are as before. -/
structure Mount.Unchanged (M : Mount) (s s' : FsState) : Prop where
  entries : ∀ i, i < M.info.numFats → ∀ e, e < M.tableEntries →
    M.copyEntry (s'.drive true) i e = M.copyEntry (s.drive true) i e
  clusters : (M.view s').data = (M.view s).data
  count : s.free.freeClusters ≠ 0xFFFFFFFF → s'.free.freeClusters = s.free.freeClusters

/-- Reads change nothing. -/
theorem FsState.Reads.unchanged {M : Mount} {s s' : FsState} (h : s.Reads s') :
    M.Unchanged s s' where
  entries i _ e _ := by rw [h.drive]
  clusters := by
    unfold Mount.view
    rw [h.drive]
  count _ := by rw [h.free]

/-- A creation that returns a code other than 0 has changed nothing. -/
structure Mount.RefusalsKeep (M : Mount) (s : FsState) (d : Nat) (name : List UInt8)
    (rtc : RtcTime) : Prop where
  file : ∀ fuel r s', fat32CreateFile M fuel d name rtc s = some (r, s') → r ≠ 0 → M.Unchanged s s'
  dir : ∀ fuel r s', fat32CreateDir M fuel d name rtc s = some (r, s') → r ≠ 0 → M.Unchanged s s'

/-! ## The condition -/

/-- The search of `FAT32_FindEntryAny` finds the name in the directory. -/
def Mount.Finds (M : Mount) (V : Volume) (l : List Nat) (name : List UInt8) : Prop :=
  ∃ hit, V.walk (fun buf lfn => scanLfn buf (matchedBy foundLongName name buf) M.slotCount 0 lfn)
    l [] = .inl hit

/-- The number of slots of a new entry. -/
def slotsNeeded (name : List UInt8) : Nat :=
  (makeLfnEntries name (fat32LfnChecksum (nameTo83 name))).length + 1

/-- Some cluster of the directory has room for a new entry. -/
def Mount.Room (M : Mount) (V : Volume) (l : List Nat) (name : List UInt8) : Prop :=
  ∃ c ∈ l, (findRoom (V.data c) (slotsNeeded name) M.slotCount M.slotCount 0 0 0).isSome

/-- `r` is the only free cluster and the search for one comes to it; it is not the last cluster of
the volume, so that a second search, which begins behind it, comes round to where it began. -/
structure Mount.LastFree (M : Mount) (s : FsState) (r : Nat) : Prop where
  lower : 2 ≤ r
  upper : r ≤ M.info.totalClusters
  free : (M.view s).fat r = fat32EntryFree
  only : ∀ c, M.InRange c → c ≠ r → (M.view s).fat c ≠ fat32EntryFree
  found : M.InRange s.free.start ∨ M.successor (s.drive true) s.free.start ≠ fat32EntryFree

/-- The search for a cluster begins at the largest number and takes it; the hint behind it is the
mark of an unknown hint. -/
def Mount.TakesLargest (M : Mount) (s : FsState) : Prop :=
  s.free.start = 0xFFFFFFFE ∧ M.successor (s.drive true) 0xFFFFFFFE = fat32EntryFree

/-- The name is found, or the second search for a cluster is not made or does not fail. -/
def Mount.CreatesSafely (M : Mount) (s : FsState) (l : List Nat) (name : List UInt8) : Prop :=
  M.Finds (M.view s) l name ∨
    (M.Room (M.view s) l name ∨ ∀ r, ¬ M.LastFree s r) ∧ ¬ M.TakesLargest s

theorem newSlots_length (name : List UInt8) (attr : UInt8) (rtc : RtcTime) (c : Nat) :
    (newSlots name attr rtc c).length = slotsNeeded name := by
  simp [newSlots, slotsNeeded]

/-! ## Commands on a drive without faults -/

section Quiet

variable {M : Mount} (hA : M.Addressable) {s s' : FsState}
include hA

theorem writeCluster_quiet (hq : s.faults = []) (c : Nat) (buf : List UInt8) :
    ∃ s', fat32WriteCluster M c buf s = some (0, s') ∧ s'.faults = [] ∧ s.SameFree s' := by
  have hlba := hA.clusterLba_lt c
  obtain ⟨r, s1, hwrite, hsame, -, hquiet⟩ :=
    ata_write_total s M.disk.isMaster (M.clusterLba c) M.info.sectorsPerCluster buf
  have hrefuses : ¬ s.Refuses (M.clusterLba c) := by
    rintro (h | h)
    · omega
    · rw [hq] at h
      cases h
  obtain ⟨rfl, hfaults⟩ := hquiet hrefuses
  refine ⟨s1.note (.flush M.disk.isMaster), ?_, ?_, hsame⟩
  · rw [fat32WriteCluster, Prog.bind_run hwrite, if_neg (by omega),
      Prog.bind_run (ata_flush_run s1 _), Prog.pure_run]
  · rw [FsState.note_faults, hfaults, hq]
    rfl

/-- The end of a creation does not fail. -/
theorem writeNewSlots_quiet (hq : s.faults = []) {c pos r : Nat} {buf : List UInt8}
    {slots : List Slot} (hrun : writeNewSlots M c buf pos slots s = some (r, s')) : r = 0 := by
  obtain ⟨s1, hwrite, -, -⟩ := writeCluster_quiet hA hq c (setSlots buf pos slots)
  rw [writeNewSlots, Prog.bind_run hwrite, if_neg (by omega),
    Prog.bind_run (ata_flush_run s1 _), Prog.pure_run] at hrun
  cases hrun
  rfl

/-- A walk over the links of any chain reads, and then acts on a hit or at the end. -/
theorem walkDir_quiet {Acc γ β : Type} {readErr nextErr b : β} {scan : List UInt8 → Acc → Acc ⊕ γ}
    {onHit : Nat → List UInt8 → γ → Prog FsState β} {onEnd : Nat → List UInt8 → Acc → Prog FsState β}
    {fuel d : Nat} {acc : Acc} (hq : s.faults = []) (hd : d < 2 ^ 32)
    (hrun : walkDir M readErr nextErr scan onHit onEnd fuel d acc s = some (b, s')) :
    ∃ s1, s.Reads s1 ∧ ((∃ c buf hit, onHit c buf hit s1 = some (b, s')) ∨
      ∃ c buf acc, c < 2 ^ 32 ∧ onEnd c buf acc s1 = some (b, s')) := by
  induction fuel generalizing d acc s with
  | zero => cases hrun
  | succ fuel ih =>
      rcases walkDir_turn hA hq readErr nextErr scan onHit onEnd hd acc with
        ⟨hit, s1, hr1, -, hturn⟩ | ⟨acc', s1, hr1, -, hturn⟩
      · exact ⟨s1, hr1, Or.inl ⟨_, _, _, (hturn fuel).symm.trans hrun⟩⟩
      · have hrun1 := (hturn fuel).symm.trans hrun
        have hnext := M.raw_fat_lt s d
        by_cases heof : IsEof ((M.raw s).fat d)
        · rw [if_pos heof] at hrun1
          exact ⟨s1, hr1, Or.inr ⟨_, _, _, hnext, hrun1⟩⟩
        · rw [if_neg heof] at hrun1
          have hq1 : s1.faults = [] := hr1.faults.trans hq
          obtain ⟨s2, hr2, hact⟩ := ih hq1 hnext hrun1
          exact ⟨s2, hr1.trans hr2, hact⟩

end Quiet

/-! ## What a refusal has done -/

section Sound

variable {M : Mount} (hM : M.Sound) {s s' : FsState} {V : Volume} {A : List Nat}
include hM

/-- The link of a cluster in the first copy of the table is its entry. -/
theorem Mount.Sound.successor_eq (hq : s.faults = []) {c : Nat} (hc : M.HasEntry c) :
    M.successor (s.drive true) c = (M.view s).fat c := by
  have hvalue := nextCluster_value hM.tabled hq c
  rw [fat32NextCluster_run hM hq hc, if_pos (hM.fatLba_lt (hc.lt hM))] at hvalue
  simpa using hvalue.symm

/-- The clusters of the volume are on the cycle of the search. -/
theorem Mount.Sound.onCycle_iff (ht : 1 ≤ M.info.totalClusters) (c : Nat) :
    M.OnCycle c ↔ M.InRange c := by
  have hmax := hM.clusters
  have htotal : u32 (M.info.totalClusters + 2) = M.info.totalClusters + 2 := by
    rw [u32]
    omega
  rw [Mount.OnCycle, Mount.InRange, htotal]
  constructor
  · rintro (rfl | h)
    · omega
    · exact h
  · exact Or.inr

theorem newDirCluster_length (rtc : RtcTime) (c d : Nat) :
    (newDirCluster M rtc c d).length = M.clusterSize := by
  have hsize := hM.clusterSize_eq
  have hsectors := hM.sectors.1
  rw [newDirCluster, setSlots_length]
  · simp
  · simp only [List.length_replicate, List.length_cons, List.length_nil]
    omega

/-- The search of both creations for the name only reads. -/
theorem findEntryAny_result {d : Nat} {l : List Nat} (hat : M.At s V A) (hd : M.DirOn V d l)
    (name : List UInt8) : ∃ st o s1, s.Reads s1 ∧ (st = 0 ↔ M.Finds V l name) ∧
      ∀ fuel, fat32FindEntryAny M fuel d name s = some ((st, o), s1) ∨
        (fat32FindEntryAny M fuel d name s = none ∧ fuel < l.length) := by
  obtain ⟨s1, hr1, hw⟩ := walkDir_chain hM hat (2, (none : Option Slot)) (3, none)
    (fun buf lfn => scanLfn buf (matchedBy foundLongName name buf) M.slotCount 0 lfn)
    (fun _ buf hit => pure (0, some (slotAt buf hit.1))) (fun _ _ _ => pure (1, none)) hd.1 hd.2 []
  cases hwalk : V.walk
      (fun buf lfn => scanLfn buf (matchedBy foundLongName name buf) M.slotCount 0 lfn) l [] with
  | inl hit =>
      rw [hwalk] at hw
      exact ⟨0, _, s1, hr1, ⟨fun _ => ⟨hit, hwalk⟩, fun _ => rfl⟩, hw⟩
  | inr lfn =>
      rw [hwalk] at hw
      refine ⟨1, none, s1, hr1, ⟨fun h => absurd h (by decide), ?_⟩, hw⟩
      rintro ⟨hit, hhit⟩
      rw [hwalk] at hhit
      cases hhit

omit hM in
theorem Mount.putEntry_faults (M : Mount) (s : FsState) (c v : Nat) :
    (M.putEntry s c v).faults = s.faults := by
  rw [Mount.putEntry, FsState.note_faults, (putCopies_frame M c v _ 0 s).1]

omit hM in
theorem Mount.allocated_faults (M : Mount) (s : FsState) (c : Nat) :
    (M.allocated s c).faults = s.faults := M.putEntry_faults s c fat32EntryEof

/-- The loop of both creations fails only when it finds no free cluster, and then it has only
read. -/
theorem addSlots_refused {fuel d full r : Nat} {slots : List Slot} (hq : s.faults = [])
    (hd : d < 2 ^ 32) (hrun : addSlots M fuel d full slots s = some (r, s')) (hr : r ≠ 0) :
    r = full ∧ ∃ s1, s.Reads s1 ∧ fat32AllocCluster M fuel s1 = some (0, s') ∧ s1.Reads s' := by
  have hA := hM.addressable
  rw [addSlots] at hrun
  obtain ⟨s1, hr1, ⟨c, buf, pos, hhit⟩ | ⟨c, buf, acc, hc, hend⟩⟩ := walkDir_quiet hA hq hd hrun
  · have hq1 : s1.faults = [] := hr1.faults.trans hq
    exact absurd (writeNewSlots_quiet hA hq1 hhit) hr
  · have hat1 : M.At s1 (M.view s) s.allocs := hr1.stays ⟨hq, rfl, rfl⟩
    obtain ⟨n, s2, halloc, hrest⟩ := Prog.bind_eq_some.mp hend
    rcases allocCluster_shape hM hat1 halloc with ⟨rfl, hr2⟩ | ⟨hn, -, -, s3, hr3, rfl⟩
    · rw [if_pos rfl, Prog.pure_run] at hrest
      cases hrest
      exact ⟨rfl, s1, hr1, halloc, hr2⟩
    · -- with a cluster nothing fails any more
      exfalso
      have hq2 : (M.allocated s3 n).faults = [] :=
        (M.allocated_faults s3 n).trans (hr3.stays hat1).quiet
      have hlink : (if c = d then d else c) < 2 ^ 32 := by
        split <;> omega
      have hq3 : (M.putEntry (M.allocated s3 n) (if c = d then d else c) n).faults = [] :=
        (M.putEntry_faults _ _ n).trans hq2
      obtain ⟨s4, hwrite, hq4, -⟩ := writeCluster_quiet hA hq3 n (List.replicate M.clusterSize 0)
      rw [if_neg (by omega), Prog.bind_run (fat32WriteFatEntry_run hM hq2 hlink n),
        if_neg (by omega), Prog.bind_run hwrite, if_neg (by omega)] at hrest
      exact hr (writeNewSlots_quiet hA hq4 hrest)

/-- A refusal of `FAT32_CreateFile` has only read. -/
theorem createFile_refused {fuel d r : Nat} {name : List UInt8} {rtc : RtcTime}
    (hq : s.faults = []) (hd : d < 2 ^ 32)
    (hrun : fat32CreateFile M fuel d name rtc s = some (r, s')) (hr : r ≠ 0) : s.Reads s' := by
  obtain ⟨⟨st, o⟩, s1, hfind, hrest⟩ := Prog.bind_eq_some.mp hrun
  have hr1 : s.Reads s1 := by
    rw [fat32FindEntryAny] at hfind
    obtain ⟨t, ht, ⟨c, buf, hit, h⟩ | ⟨c, buf, acc, -, h⟩⟩ :=
      walkDir_quiet hM.addressable hq hd hfind
    · cases h
      exact ht
    · cases h
      exact ht
  by_cases hst : st = 0
  · simp only [hst, if_true, Prog.pure_run] at hrest
    cases hrest
    exact hr1
  · simp only [hst, if_false] at hrest
    have hq1 : s1.faults = [] := hr1.faults.trans hq
    obtain ⟨-, s2, hr2, -, hr3⟩ := addSlots_refused hM hq1 hd hrest hr
    exact hr1.trans (hr2.trans hr3)

/-! ## The two searches of `FAT32_CreateDir` -/

/-- The first search has taken the cluster `n` of the volume and the new directory is in it. -/
theorem dirCluster_at {n : Nat} (hat : M.At s V A) (hn : M.InRange n) (rtc : RtcTime) (d : Nat) :
    ∃ s1, fat32WriteCluster M n (newDirCluster M rtc n d) (M.allocated s n) = some (0, s1) ∧
      M.At s1 ((V.setFat n fat32EntryEof).setData n (newDirCluster M rtc n d)) (n :: A) ∧
      s1.free = s.free.take n := by
  have hat1 := allocated_at hM hat hn.hasEntry
  have hlen := newDirCluster_length hM rtc n d
  exact ⟨_, fat32WriteCluster_run hM hat1.quiet hn hlen, putCluster_at hM hat1 hn hlen, rfl⟩

omit hM in
/-- The directory is the same one after the first search has taken a free cluster. -/
theorem Mount.DirOn.taken {d n : Nat} {l : List Nat} (hd : M.DirOn V d l)
    (hfree : V.fat n = fat32EntryFree) (buf : List UInt8) :
    n ∉ l ∧ M.DirOn ((V.setFat n fat32EntryEof).setData n buf) d l := by
  have hn : n ∉ l := fun h => hd.1.fat_ne_free hd.2 h hfree
  refine ⟨hn, hd.1.congr ?_, hd.2⟩
  intro c hc
  have hne : c ≠ n := by
    rintro rfl
    exact hn hc
  show Function.update V.fat n fat32EntryEof c = V.fat c
  rw [Function.update_of_ne hne]

/-- The look of both creations at a cluster for `n` free slots. -/
def Mount.roomScan (M : Mount) (n : Nat) (buf : List UInt8) (_ : Unit) : Unit ⊕ Nat :=
  match findRoom buf n M.slotCount M.slotCount 0 0 0 with
  | some pos => .inr pos
  | none => .inl ()

/-- What both creations do at the end of a directory without room. -/
def growSlots (M : Mount) (fuel dirCluster full : Nat) (slots : List Slot) (current : Nat)
    (buf : List UInt8) (_ : Unit) : Prog FsState Nat := do
  let newCluster ← fat32AllocCluster M fuel
  if newCluster = 0 then return full
  let st ← fat32WriteFatEntry M (if current = dirCluster then dirCluster else current) newCluster
  if st ≠ 0 then return 3
  let st ← fat32WriteCluster M newCluster (List.replicate M.clusterSize 0)
  if st ≠ 0 then return 3
  writeNewSlots M newCluster buf 0 slots

omit hM in
theorem walk_roomScan {l : List Nat} {name : List UInt8} :
    (∃ hit, V.walk (M.roomScan (slotsNeeded name)) l () = .inl hit) ↔ M.Room V l name := by
  induction l with
  | nil => simp [Volume.walk, Mount.Room]
  | cons c l ih =>
      rw [Mount.Room, List.exists_mem_cons_iff]
      cases hroom : findRoom (V.data c) (slotsNeeded name) M.slotCount M.slotCount 0 0 0 with
      | some pos => simp [Volume.walk, Mount.roomScan, hroom]
      | none =>
          have hstep : V.walk (M.roomScan (slotsNeeded name)) (c :: l) () =
              V.walk (M.roomScan (slotsNeeded name)) l () := by
            simp [Volume.walk, Mount.roomScan, hroom]
          rw [hstep, ih, Mount.Room]
          simp

omit hM in
theorem Mount.Room.congr {V' : Volume} {l : List Nat} {name : List UInt8} (h : M.Room V l name)
    (hdata : ∀ c ∈ l, V'.data c = V.data c) : M.Room V' l name := by
  obtain ⟨c, hc, hroom⟩ := h
  exact ⟨c, hc, by rw [hdata c hc]; exact hroom⟩

omit hM in
/-- The new directory's cluster makes no room in the parent. -/
theorem Mount.Room.taken_iff {n : Nat} {l : List Nat} {name : List UInt8} (hnl : n ∉ l)
    (buf : List UInt8) : M.Room ((V.setFat n fat32EntryEof).setData n buf) l name ↔ M.Room V l name := by
  have hdata : ∀ c ∈ l, ((V.setFat n fat32EntryEof).setData n buf).data c = V.data c := by
    intro c hc
    refine Function.update_of_ne ?_ _ _
    rintro rfl
    exact hnl hc
  constructor
  · exact fun h => h.congr fun c hc => (hdata c hc).symm
  · exact fun h => h.congr hdata

theorem addSlots_chain {d : Nat} {l : List Nat} {name : List UInt8} {slots : List Slot}
    (hat : M.At s V A) (hd : M.DirOn V d l) (hlen : slots.length = slotsNeeded name)
    (full fuel : Nat) :
    ∃ s1, s.Reads s1 ∧
      (addSlots M fuel d full slots s =
          V.finish (fun c buf pos => writeNewSlots M c buf pos slots)
            (growSlots M fuel d full slots) (l.getLastD 0)
            (V.walk (M.roomScan (slotsNeeded name)) l ()) s1 ∨
        (addSlots M fuel d full slots s = none ∧ fuel < l.length)) := by
  obtain ⟨s1, hr1, hw⟩ := walkDir_chain hM hat 2 2 (M.roomScan (slotsNeeded name))
    (fun c buf pos => writeNewSlots M c buf pos slots) (growSlots M fuel d full slots) hd.1 hd.2 ()
  refine ⟨s1, hr1, ?_⟩
  have hloop : addSlots M fuel d full slots = walkDir M 2 2 (M.roomScan (slotsNeeded name))
      (fun c buf pos => writeNewSlots M c buf pos slots) (growSlots M fuel d full slots) fuel d () := by
    rw [addSlots, ← hlen]
    rfl
  rw [hloop]
  exact hw fuel

/-- A search without a fault that returns: it hands out a free cluster, the first one it looks at
or one of the cycle, or it has begun on the cycle and every cluster of it is in use. -/
theorem allocCluster_returns {fuel r : Nat} (hq : s.faults = [])
    (hrun : fat32AllocCluster M fuel s = some (r, s')) :
    (r = 0 ∧ M.OnCycle s.free.start ∧
        ∀ c, M.OnCycle c → M.successor (s.drive true) c ≠ fat32EntryFree) ∨
      ((r = s.free.start ∨
          (M.OnCycle r ∧ M.successor (s.drive true) s.free.start ≠ fat32EntryFree)) ∧
        M.successor (s.drive true) r = fat32EntryFree) := by
  have hstart := s.free.start_bounds
  rw [fat32AllocCluster, Prog.get_bind] at hrun
  rcases allocLoop_returns hM.tabled hM.fats (fun b hb => hM.serves hq hb) hstart hrun with
    ⟨h0, -, k, hback, hbusy⟩ | ⟨hfirst, hfree, -, -⟩
  · left
    refine ⟨h0, ?_, ?_⟩
    · rw [← hback]
      exact M.iterate_onCycle hstart k
    · intro c hc
      exact M.cycle_busy hstart hback hbusy hc
  · exact Or.inr ⟨hfirst.cases hstart, hfree⟩

/-- When the loop of a creation finds no cluster after `n` has been handed out, its search has come round
to `n + 1`: that is a cluster, and every cluster is in use. -/
theorem addSlots_exhausted {fuel d full r n : Nat} {slots : List Slot} (hq : s.faults = []) (hd : d < 2 ^ 32)
    (hn : 2 ≤ n) (hstart : s.free.start = n + 1)
    (hrun : addSlots M fuel d full slots s = some (r, s')) (hr : r ≠ 0) :
    n + 1 < M.info.totalClusters + 2 ∧
      ∀ c, M.OnCycle c → M.successor (s.drive true) c ≠ fat32EntryFree := by
  have hmax := hM.clusters
  obtain ⟨-, s5, hr5, halloc, -⟩ := addSlots_refused hM hq hd hrun hr
  obtain ⟨hcycle, hbusy⟩ : M.OnCycle s5.free.start ∧
      ∀ c, M.OnCycle c → M.successor (s5.drive true) c ≠ fat32EntryFree := by
    rcases allocCluster_returns hM (hr5.faults.trans hq) halloc with ⟨-, h⟩ | ⟨h | ⟨h, -⟩, -⟩
    · exact h
    · rw [hr5.free] at h
      omega
    · exact absurd h.bounds.1 (by omega)
  have htotal : u32 (M.info.totalClusters + 2) = M.info.totalClusters + 2 := by
    rw [u32]
    omega
  rw [hr5.free, hstart, Mount.OnCycle, htotal] at hcycle
  rw [hr5.drive] at hbusy
  exact ⟨by omega, hbusy⟩

/-- A refusal of `FAT32_CreateDir` has only read, or the cluster it took for the directory was the
last free one, or the search for it began at the largest number. -/
theorem createDir_refused {fuel d r : Nat} {l : List Nat} {name : List UInt8} {rtc : RtcTime}
    (hq : s.faults = []) (hd : M.DirOn (M.view s) d l)
    (hrun : fat32CreateDir M fuel d name rtc s = some (r, s')) (hr : r ≠ 0) :
    s.Reads s' ∨ ¬ M.Finds (M.view s) l name ∧ (M.TakesLargest s ∨
      ¬ M.Room (M.view s) l name ∧ ∃ n, M.LastFree s n) := by
  have hmax := hM.clusters
  have hdlt : d < 2 ^ 32 := (hd.2 d hd.1.mem_self).hasEntry.lt hM
  have hat : M.At s (M.view s) s.allocs := ⟨hq, rfl, rfl⟩
  have hfats : 1 ≤ M.info.numFats := hM.fats
  -- the name
  obtain ⟨⟨st, o⟩, s1, hfind, hrest⟩ := Prog.bind_eq_some.mp hrun
  obtain ⟨st', o', t, hr1, hfinds, hresult⟩ := findEntryAny_result hM hat hd name
  rcases hresult fuel with h | ⟨h, -⟩
  swap
  · cases h.symm.trans hfind
  cases h.symm.trans hfind
  by_cases hst : st = 0
  · simp only [hst, if_true, Prog.pure_run] at hrest
    cases hrest
    exact Or.inl hr1
  simp only [hst, if_false] at hrest
  have hnot : ¬ M.Finds (M.view s) l name := fun h => hst (hfinds.mpr h)
  have hat1 := hr1.stays hat
  -- the first search
  obtain ⟨n, s2, halloc, hrest⟩ := Prog.bind_eq_some.mp hrest
  rcases allocCluster_shape hM hat1 halloc with ⟨rfl, hr2⟩ | ⟨hn, hnlt, hfree, s3, hr3, rfl⟩
  · rw [if_pos rfl, Prog.pure_run] at hrest
    cases hrest
    exact Or.inl (hr1.trans hr2)
  right
  refine ⟨hnot, ?_⟩
  have hreads := hr1.trans hr3
  have hstart : s1.free.start = s.free.start := by rw [hr1.free]
  have hsame : ∀ c, M.successor (s1.drive true) c = M.successor (s.drive true) c := by
    intro c
    rw [hr1.drive]
  obtain ⟨hfrom, hnfree⟩ : (n = s.free.start ∨
      (M.OnCycle n ∧ M.successor (s.drive true) s.free.start ≠ fat32EntryFree)) ∧
        M.successor (s.drive true) n = fat32EntryFree := by
    rcases allocCluster_returns hM hat1.quiet halloc with ⟨h0, -⟩ | h
    · omega
    · simpa only [hstart, hsame] using h
  by_cases hlargest : n = 0xFFFFFFFE
  · -- the hint was the largest number
    left
    rcases hfrom with h | ⟨h, -⟩
    · exact ⟨by rw [← h, hlargest], by rw [← hlargest]; exact hnfree⟩
    · exfalso
      have htotal := Nat.mod_le (M.info.totalClusters + 2) (2 ^ 32)
      rcases h with h | ⟨-, h⟩
      · omega
      · rw [u32] at h
        omega
  right
  -- the second search has come round to the cluster behind the first one
  have hqn : (M.allocated s3 n).faults = [] :=
    (M.allocated_faults s3 n).trans (hreads.faults.trans hq)
  obtain ⟨s4, hwrite, hq4, hsame4⟩ :=
    writeCluster_quiet hM.addressable hqn n (newDirCluster M rtc n d)
  rw [if_neg (by omega), Prog.bind_run hwrite, if_neg (by omega)] at hrest
  obtain ⟨hupper, hbusy⟩ := addSlots_exhausted hM hq4 hdlt hn
    (by rw [hsame4.1]; exact FreeInfo.start_take s3.free hn (by omega)) hrest hr
  have hin : M.InRange n := ⟨hn, by omega⟩
  have hcycle_iff := hM.onCycle_iff (show 1 ≤ M.info.totalClusters by omega)
  -- so it is a cluster of the volume, and the new directory is in it
  obtain ⟨s4', hwrite', hat4, -⟩ := dirCluster_at hM (hr3.stays hat1) hin rtc d
  cases hwrite'.symm.trans hwrite
  have hnfree' : (M.view s).fat n = fat32EntryFree := hfree hin.hasEntry
  obtain ⟨hnl, hd'⟩ := hd.taken hnfree' (newDirCluster M rtc n d)
  refine ⟨?_, n, hn, by omega, hnfree', ?_, ?_⟩
  · intro hroom
    obtain ⟨s6, hr6, hloop⟩ := addSlots_chain hM hat4 hd'
      (newSlots_length name attrDirectory rtc n) 4 fuel
    have hroom' := (Mount.Room.taken_iff hnl (newDirCluster M rtc n d)).mpr hroom
    obtain ⟨⟨c, pos⟩, hwalk⟩ := walk_roomScan.mpr hroom'
    rw [hwalk, Volume.finish] at hloop
    rcases hloop with h | ⟨h, -⟩
    · rw [h] at hrest
      exact hr (writeNewSlots_quiet hM.addressable (hr6.faults.trans hq4) hrest)
    · cases h.symm.trans hrest
  · intro c hc hne
    have hc5 := hbusy c ((hcycle_iff c).mpr hc)
    rw [hM.successor_eq hq4 hc.hasEntry, hat4.view] at hc5
    rwa [show (((M.view s).setFat n fat32EntryEof).setData n (newDirCluster M rtc n d)).fat c =
      (M.view s).fat c from Function.update_of_ne hne _ _] at hc5
  · rcases hfrom with h | ⟨-, h⟩
    · exact Or.inl (h ▸ hin)
    · exact Or.inr h

/-- A search that begins on the cycle, or comes to a free cluster, ends within one turn more than
there are clusters. -/
theorem allocCluster_ends {fuel : Nat} (ht : 1 ≤ M.info.totalClusters)
    (hfuel : M.info.totalClusters + 1 ≤ fuel)
    (h : M.OnCycle s.free.start ∨
      ∃ c, M.OnCycle c ∧ M.successor (s.drive true) c = fat32EntryFree) :
    ∃ r s', fat32AllocCluster M fuel s = some (r, s') := by
  have hends : (fat32AllocCluster M (M.info.totalClusters + 1) s).isSome := by
    rw [allocCluster_ends_iff hM.tabled ht]
    rcases h with h | ⟨c, hc, hfree⟩
    · exact Or.inl h
    · exact Or.inr (Or.inl ⟨c, Or.inr hc, Or.inr hfree⟩)
  have hmore : (fat32AllocCluster M fuel s).isSome := by
    rw [fat32AllocCluster, Prog.get_bind, allocLoop_isSome_iff hM.tabled] at hends ⊢
    rcases hends with ⟨k, hk, h⟩ | ⟨k, hk, h⟩
    · exact Or.inl ⟨k, by omega, h⟩
    · exact Or.inr ⟨k, by omega, h⟩
  obtain ⟨⟨r, s'⟩, hrun⟩ := Option.isSome_iff_exists.mp hmore
  exact ⟨r, s', hrun⟩

/-- A search that begins on the cycle or with a cluster in use takes the only free cluster. -/
theorem allocCluster_last {fuel n : Nat} (hat : M.At s V A) (hin : M.InRange n)
    (hfree : V.fat n = fat32EntryFree)
    (honly : ∀ c, M.InRange c → c ≠ n → V.fat c ≠ fat32EntryFree)
    (hfound : M.InRange s.free.start ∨ M.successor (s.drive true) s.free.start ≠ fat32EntryFree)
    (ht : 1 ≤ M.info.totalClusters) (hfuel : M.info.totalClusters + 1 ≤ fuel) :
    ∃ s1, s.Reads s1 ∧ fat32AllocCluster M fuel s = some (n, M.allocated s1 n) := by
  have hcycle_iff := hM.onCycle_iff ht
  have hnfree : M.successor (s.drive true) n = fat32EntryFree := by
    rw [hM.successor_eq hat.quiet hin.hasEntry, hat.view]
    exact hfree
  obtain ⟨r, s', halloc⟩ := allocCluster_ends hM ht hfuel
    (Or.inr ⟨n, (hcycle_iff n).mpr hin, hnfree⟩)
  have hr : r = n := by
    rcases allocCluster_returns hM hat.quiet halloc with ⟨-, -, hbusy⟩ | ⟨hfrom, hrfree⟩
    · exact absurd hnfree (hbusy n ((hcycle_iff n).mpr hin))
    · have hrin : M.InRange r := by
        rcases hfrom with h | ⟨h, -⟩
        · rcases hfound with h' | h'
          · exact h ▸ h'
          · exact absurd hrfree (h ▸ h')
        · exact (hcycle_iff r).mp h
      by_contra hne
      rw [hM.successor_eq hat.quiet hrin.hasEntry, hat.view] at hrfree
      exact honly r hrin hne hrfree
  subst hr
  rcases allocCluster_shape hM hat halloc with ⟨rfl, -⟩ | ⟨-, -, -, s1, hr1, rfl⟩
  · exact absurd hin.1 (by omega)
  · exact ⟨s1, hr1, halloc⟩

/-- A search that begins on the cycle finds nothing when every cluster of it is in use. -/
theorem allocCluster_full {fuel : Nat} (hat : M.At s V A) (hstart : M.InRange s.free.start)
    (hbusy : ∀ c, M.InRange c → V.fat c ≠ fat32EntryFree)
    (ht : 1 ≤ M.info.totalClusters) (hfuel : M.info.totalClusters + 1 ≤ fuel) :
    ∃ s1, s.Reads s1 ∧ fat32AllocCluster M fuel s = some (0, s1) := by
  have hcycle_iff := hM.onCycle_iff ht
  obtain ⟨r, s', halloc⟩ := allocCluster_ends hM ht hfuel
    (Or.inl ((hcycle_iff _).mpr hstart))
  have hnone : r = 0 := by
    rcases allocCluster_returns hM hat.quiet halloc with ⟨h, -⟩ | ⟨hfrom, hfree⟩
    · exact h
    · exfalso
      have hrin : M.InRange r := by
        rcases hfrom with h | ⟨h, -⟩
        · exact h ▸ hstart
        · exact (hcycle_iff r).mp h
      rw [hM.successor_eq hat.quiet hrin.hasEntry, hat.view] at hfree
      exact hbusy r hrin hfree
  subst hnone
  rcases allocCluster_shape hM hat halloc with ⟨-, hr1⟩ | ⟨h, -⟩
  · exact ⟨s', hr1, halloc⟩
  · omega

/-- Without room and without a free cluster the slots are not written. -/
theorem addSlots_full {d full fuel : Nat} {l : List Nat} {name : List UInt8} {slots : List Slot}
    (hat : M.At s V A) (hd : M.DirOn V d l) (hlen : slots.length = slotsNeeded name)
    (hroom : ¬ M.Room V l name) (hstart : M.InRange s.free.start)
    (hbusy : ∀ c, M.InRange c → V.fat c ≠ fat32EntryFree) (ht : 1 ≤ M.info.totalClusters)
    (hl : l.length ≤ fuel) (hfuel : M.info.totalClusters + 1 ≤ fuel) :
    ∃ s1, s.Reads s1 ∧ addSlots M fuel d full slots s = some (full, s1) := by
  obtain ⟨s1, hr1, hloop⟩ := addSlots_chain hM hat hd hlen full fuel
  have hstart1 : M.InRange s1.free.start := by
    rw [hr1.free]
    exact hstart
  obtain ⟨s2, hr2, halloc⟩ := allocCluster_full hM (hr1.stays hat) hstart1 hbusy ht hfuel
  refine ⟨s2, hr1.trans hr2, ?_⟩
  cases hwalk : V.walk (M.roomScan (slotsNeeded name)) l () with
  | inl hit => exact absurd (walk_roomScan.mp ⟨hit, hwalk⟩) hroom
  | inr acc =>
      rw [hwalk] at hloop
      rcases hloop with h | ⟨-, h⟩
      · rw [h, Volume.finish, growSlots, Prog.bind_run halloc, if_pos rfl, Prog.pure_run]
      · omega

/-- The last free cluster is lost when the parent is full. -/
theorem createDir_leaks {d n : Nat} {l : List Nat} {name : List UInt8} (hq : s.faults = [])
    (hd : M.DirOn (M.view s) d l) (hnot : ¬ M.Finds (M.view s) l name)
    (hroom : ¬ M.Room (M.view s) l name) (hlast : M.LastFree s n) (rtc : RtcTime) :
    ∃ fuel s', fat32CreateDir M fuel d name rtc s = some (4, s') ∧ ¬ M.Unchanged s s' := by
  have hmax := hM.clusters
  have hlower := hlast.lower
  have hupper := hlast.upper
  have hin : M.InRange n := ⟨hlower, by omega⟩
  have ht : 1 ≤ M.info.totalClusters := by omega
  refine ⟨max l.length (M.info.totalClusters + 1), ?_⟩
  generalize hfuel : max l.length (M.info.totalClusters + 1) = fuel
  have hlen : l.length ≤ fuel := by omega
  have hturns : M.info.totalClusters + 1 ≤ fuel := by omega
  -- the name is not found
  have hat : M.At s (M.view s) s.allocs := ⟨hq, rfl, rfl⟩
  obtain ⟨st, o, s1, hr1, hfinds, hresult⟩ := findEntryAny_result hM hat hd name
  have hst : st ≠ 0 := fun h => hnot (hfinds.mp h)
  have hfind : fat32FindEntryAny M fuel d name s = some ((st, o), s1) := by
    rcases hresult fuel with h | ⟨-, h⟩
    · exact h
    · omega
  have hat1 := hr1.stays hat
  -- the first search takes the last free cluster
  have hfound : M.InRange s1.free.start ∨
      M.successor (s1.drive true) s1.free.start ≠ fat32EntryFree := by
    rw [hr1.free, hr1.drive]
    exact hlast.found
  obtain ⟨s3, hr3, halloc⟩ :=
    allocCluster_last hM hat1 hin hlast.free hlast.only hfound ht hturns
  obtain ⟨s4, hwrite, hat4, hfree4⟩ := dirCluster_at hM (hr3.stays hat1) hin rtc d
  obtain ⟨hnl, hd'⟩ := hd.taken hlast.free (newDirCluster M rtc n d)
  -- the second search finds nothing
  have hself : (((M.view s).setFat n fat32EntryEof).setData n (newDirCluster M rtc n d)).fat n =
      fat32EntryEof := Function.update_self _ _ _
  have hbusy : ∀ c, M.InRange c →
      (((M.view s).setFat n fat32EntryEof).setData n (newDirCluster M rtc n d)).fat c ≠
        fat32EntryFree := by
    intro c hc
    by_cases hne : c = n
    · rw [hne, hself]
      decide
    · rw [show (((M.view s).setFat n fat32EntryEof).setData n (newDirCluster M rtc n d)).fat c =
        (M.view s).fat c from Function.update_of_ne hne _ _]
      exact hlast.only c hc hne
  have hstart4 : M.InRange s4.free.start := by
    rw [hfree4, FreeInfo.start_take s3.free hlower (by omega)]
    exact ⟨by omega, by omega⟩
  obtain ⟨s6, hr6, hadd⟩ := addSlots_full hM hat4 hd'
    (newSlots_length name attrDirectory rtc n) (fun h => hroom ((Mount.Room.taken_iff hnl _).mp h))
    hstart4 hbusy ht hlen hturns
  refine ⟨s6, ?_, ?_⟩
  · rw [fat32CreateDir, Prog.bind_run hfind]
    simp only [hst, if_false]
    rw [Prog.bind_run halloc, if_neg (by omega), Prog.bind_run hwrite,
      if_neg (by omega)]
    exact hadd
  · -- its entry is an end mark now
    intro hsame
    have hentry := hsame.entries 0 hM.fats n (by
      have htable := hM.table
      rw [Mount.tableEntries]
      have := hin.hasEntry
      unfold Mount.HasEntry at this
      omega)
    have hview : (M.view s6).fat n = (M.view s).fat n := by
      rw [← hM.successor_eq (hr6.stays hat4).quiet hin.hasEntry, ← hM.successor_eq hq hin.hasEntry,
        Mount.successor, Mount.successor, hentry]
    rw [(hr6.stays hat4).view, hself, hlast.free] at hview
    exact absurd hview (by decide)

end Sound

/-! ## The theorem -/

/-- An empty directory in cluster 2; every other cluster is free. -/
def roomyState : FsState :=
  smallState [0, 0, fat32EntryEof] fun _ => List.replicate 512 0

/-- A cluster whose slots are all in use. -/
def fullCluster : List UInt8 :=
  (List.replicate 16 (List.replicate 11 0x41 ++ 0x20 :: List.replicate 20 0)).flatten

/-- A directory in cluster 2 that is full, and cluster 5 the only free one. -/
def crowdedState : FsState :=
  smallState ((List.replicate 128 fat32EntryEof).set 5 fat32EntryFree) fun _ => fullCluster

end Os003
