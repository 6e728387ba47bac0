import Os003.Fs.TreeOps

set_option autoImplicit false

/-! # Runs on the tree

Any number of calls, each in a directory of the tree: files written and appended to, entries renamed,
files deleted and directories removed, both kinds created where the directory has room. No command
fails, and the clusters handed out are clusters of the volume.

`treeRun_simulates`: the volume stays in order, and its hierarchy goes through the steps the calls
stand for. `treeRun_elsewhere`: the entries of a directory that no call works in stay as they are.
-/

namespace Os003

open Bytes Linked

section Sound

variable {M : Mount} (hM : M.Sound) {s s' : FsState} {V : Volume} {A : List Nat} {o : Owner}
include hM

/-! ## Each operation is a step -/

/-- A call in a directory of the tree, with the step it stands for. The entry of a write or an append
comes from a lookup just before; names can be found again, and what is created has room. -/
inductive TreeStep (M : Mount) : Owner × Hierarchy.Op Name83 × Bool → FsState → FsState → Prop
  | write {o : Owner} {s s1 s2 : FsState} {fuel ret : Nat} {e e' : Slot} (data : List UInt8)
      (ho : M.Directory (M.view s) o) (hfind : LooksUp M (M.startOf (M.view s) o) e s s1)
      (hrun : fat32WriteFile M fuel (M.startOf (M.view s) o) e data s1 = some ((ret, e'), s2)) :
      TreeStep M (o, .rewrite, true) s s2
  | append {o : Owner} {s s1 s2 : FsState} {fuel ret : Nat} {e e' : Slot} (data : List UInt8)
      (ho : M.Directory (M.view s) o) (hfind : LooksUp M (M.startOf (M.view s) o) e s s1)
      (hrun : fat32AppendFile M fuel (M.startOf (M.view s) o) e data s1 = some ((ret, e'), s2)) :
      TreeStep M (o, .rewrite, true) s s2
  | rename {o : Owner} {s s1 : FsState} {fuel r : Nat} {oldName newName : List UInt8}
      (ho : M.Directory (M.view s) o) (hname : Nameable newName)
      (hrun : fat32RenameFile M fuel (M.startOf (M.view s) o) oldName newName s = some (r, s1)) :
      TreeStep M (o, .rename (nameTo83 newName), decide (r = 0)) s s1
  | delete {o : Owner} {s s1 : FsState} {fuel r : Nat} {name : List UInt8}
      (ho : M.Directory (M.view s) o)
      (hrun : fat32DeleteFile M fuel (M.startOf (M.view s) o) name s = some (r, s1)) :
      TreeStep M (o, .remove false, decide (r = 0)) s s1
  | removeDir {o : Owner} {s s1 : FsState} {fuel r : Nat} {name : List UInt8}
      (ho : M.Directory (M.view s) o)
      (hrun : fat32RemoveDir M fuel (M.startOf (M.view s) o) name s = some (r, s1)) :
      TreeStep M (o, .remove true, decide (r = 0)) s s1
  | createFile {o : Owner} {s s1 : FsState} {fuel r : Nat} {name : List UInt8} {rtc : RtcTime}
      (ho : M.Directory (M.view s) o) (hname : Nameable name)
      (hroom : ∀ dl, M.FileOn (M.view s) (M.startOf (M.view s) o) dl → M.Room (M.view s) dl name)
      (hrun : fat32CreateFile M fuel (M.startOf (M.view s) o) name rtc s = some (r, s1)) :
      TreeStep M (o, .create (nameTo83 name) false, decide (r = 0)) s s1
  | createDir {o : Owner} {s s1 : FsState} {fuel r : Nat} {name : List UInt8} {rtc : RtcTime}
      (ho : M.Directory (M.view s) o) (hname : Nameable name)
      (hroom : ∀ dl, M.FileOn (M.view s) (M.startOf (M.view s) o) dl → M.Room (M.view s) dl name)
      (hrun : fat32CreateDir M fuel (M.startOf (M.view s) o) name rtc s = some (r, s1)) :
      TreeStep M (o, .create (nameTo83 name) true, decide (r = 0)) s s1

/-- The state after a call: the volume is in order, and its hierarchy has made the step. -/
def Mount.Stepped (M : Mount) (V : Volume) (o : Owner) (op : Hierarchy.Op Name83) (ok : Bool)
    (s' : FsState) : Prop :=
  (s'.faults = [] ∧ M.Neat (M.view s')) ∧ Hierarchy.Step (M.tree V) o op ok (M.tree (M.view s'))

omit hM in
theorem Mount.At.stepped_refused (hn : M.Neat V) (hs : M.At s' V A) {r : Nat} (hr : r ≠ 0)
    (op : Hierarchy.Op Name83) : M.Stepped V o op (decide (r = 0)) s' := by
  rw [Mount.Stepped, hs.view, decide_eq_false hr]
  exact ⟨⟨hs.quiet, hn⟩, .refused⟩

omit hM in
/-- A file rewritten. -/
theorem Mount.Neat.stepped_rewritten (hn : M.Neat V) {dl l : List Nat} {c i : Nat}
    (hat : M.EntryAt V o dl c i l) {V' : Volume} {A' : List Nat} (hs : M.At s' V' A')
    (h : V' = V ∨ ∃ l', (V.slot c i).isDirectory = false ∧ M.Changes V V' dl c i l l' ∧
      V.Refiles V' c i) : M.Stepped V o .rewrite true s' := by
  rw [Mount.Stepped, hs.view]
  rcases h with rfl | ⟨l', hfile, hch, hslots⟩
  · exact ⟨⟨hs.quiet, hn⟩, .kept⟩
  · obtain ⟨he, hlive⟩ := hslots.edits hn hat hch
    refine ⟨⟨hs.quiet, hn.edited hat.place he⟩, ?_⟩
    rw [hn.tree_edited hat.place he hlive, hslots.like.name, hslots.like.isDirectory]
    exact .rewritten _ (hn.tidy.tree_eq_some.mpr hat.node) rfl hfile

/-- An entry renamed. -/
theorem Mount.Neat.stepped_renamed (hn : M.Neat V) {dl l : List Nat} {c i : Nat}
    (hat : M.EntryAt V o dl c i l) (hlen : (V.data c).length = M.clusterSize) {name : List UInt8}
    (hname : Nameable name)
    (hnew : ∀ x ∈ dl, ∀ j, M.LiveAt V x j → (V.slot x j).name ≠ nameTo83 name)
    (hs : M.At s' (V.setData c (renamedCluster (V.data c) i (pieces (V.data c) [] i) name)) A) :
    M.Stepped V o (.rename (nameTo83 name)) true s' := by
  obtain ⟨he, hlive, hslot, hcontents⟩ := renamed_edits hM hn hlen hat hname hnew rfl
  rw [Mount.Stepped, hs.view]
  refine ⟨⟨hs.quiet, hn.edited hat.place he⟩, ?_⟩
  rw [hn.tree_edited hat.place he hlive, hcontents, hslot, Slot.name_setName, Slot.isDirectory,
    Slot.attr_setName]
  exact .renamed (hn.tidy.tree_eq_some.mpr hat.node) rfl
    (hn.tidy.fresh hat.dirChain hnew)

/-- An entry removed. -/
theorem Mount.Neat.stepped_removed (hn : M.Neat V) {dl l : List Nat} {c i : Nat}
    (hat : M.EntryAt V o dl c i l) (hlen : (V.data c).length = M.clusterSize)
    (hempty : (V.slot c i).isDirectory = true → ∀ x ∈ l, ¬ M.Holds V x)
    (hs : M.At s' ((V.clear l).setData c
      (markDeleted (V.data c) (pieces (V.data c) [] i ++ [i]))) A) :
    M.Stepped V o (.remove (V.slot c i).isDirectory) true s' := by
  obtain ⟨he, hdead⟩ := removed_edits hM hn hlen hat hempty rfl
  rw [Mount.Stepped, hs.view, hn.tree_removed hat.place he hdead]
  exact ⟨⟨hs.quiet, hn.edited hat.place he⟩, .removed (hn.tidy.tree_eq_some.mpr hat.node) rfl
    (hn.tidy.no_children hat hempty)⟩

omit hM in
/-- An entry created, in the volume `V1` with its clusters. -/
theorem Mount.Neat.stepped_created (hn : M.Neat V) (ho : M.Directory V o) {dl l' : List Nat}
    (hdl : M.FileOn V (M.startOf V o) dl) {c pos n : Nat} (hc : c ∈ dl)
    (hlen : (V.data c).length = M.clusterSize) {name : List UInt8} (hname : Nameable name)
    {attr : UInt8} (hattr : attr = attrArchive ∨ attr = attrDirectory) (hlt : n < 2 ^ 32)
    (hfree : FreeAt (V.data c) (slotsNeeded name) M.slotCount pos)
    (hnew : ∀ x ∈ dl, ∀ j, M.LiveAt V x j → (V.slot x j).name ≠ nameTo83 name) {V1 : Volume}
    (hframe : ∀ x, V.fat x ≠ fat32EntryFree → V1.fat x = V.fat x ∧ V1.data x = V.data x)
    (hfresh : ∀ x ∈ l', V.fat x = fat32EntryFree) (hchain : M.FileOn V1 n l')
    (hdir : attr = attrDirectory → (∀ x ∈ l', ¬ M.Holds V1 x) ∧ M.Ended V1 l') {rtc : RtcTime}
    (hs : M.At s' (V1.setData c (setSlots (V.data c) pos (newSlots name attr rtc n))) A) :
    M.Stepped V o (.create (nameTo83 name) (decide (attr = attrDirectory))) true s' := by
  have hplace := created_place hn ho.present ho.isDir hdl hc hfree
  obtain ⟨he, hlive, hslot⟩ :=
    created_edits hn hplace hlen hname hattr hlt hfree hnew hframe hfresh hchain hdir rfl
  have hkind : (mkSfn (nameTo83 name) attr rtc n).isDirectory = decide (attr = attrDirectory) := by
    rw [Slot.isDirectory, mkSfn_attr]
    rcases hattr with rfl | rfl
    · decide
    · decide
  have hcontents : ∀ W : Volume, W.slot c (entrySlot name pos) = mkSfn (nameTo83 name) attr rtc n →
      W.contents c (entrySlot name pos) l' = [] := by
    intro W hW
    rw [Volume.contents, hW, mkSfn_fileSize, List.take_zero, ite_self]
  rw [Mount.Stepped, hs.view, hn.tree_edited hplace he hlive, hcontents _ hslot, hslot, mkSfn_name,
    hkind]
  refine ⟨⟨hs.quiet, hn.edited hplace he⟩, .created ?_ ?_ (hn.tidy.fresh hdl hnew)⟩
  · rw [hn.tidy.tree_eq_none]
    intro hp
    cases hp with
    | entry _ _ _ _ live =>
        exact hfree.dead ((hn.ended o dl ho.present ho.isDir hdl).clean c hc) live
  · exact hn.tidy.isDir_iff.mpr ⟨ho.present, ho.isDir⟩

theorem TreeStep.stepped {l : Owner × Hierarchy.Op Name83 × Bool} (h : TreeStep M l s s')
    (hq : s.faults = []) (hn : M.Neat (M.view s)) (halloc : ∀ x ∈ s'.allocs, M.InRange x) :
    M.Stepped (M.view s) l.1 l.2.1 l.2.2 s' := by
  have hs : M.At s (M.view s) s.allocs := ⟨hq, rfl, rfl⟩
  -- each call either reads only, or is one operation of the tree on the entry it has found
  cases h with
  | write data ho hfind hrun =>
      obtain ⟨hs1, dl, c, i, l, hat, rfl⟩ :=
        hfind.entryAt hM hn.tidy hs ho.present ho.isDir ho.start
      obtain ⟨V', A', hs', h⟩ := writeFile_changes hM hn.tidy hs1 hat ho.start hrun halloc
      exact hn.stepped_rewritten hat hs' h
  | append data ho hfind hrun =>
      obtain ⟨hs1, dl, c, i, l, hat, rfl⟩ :=
        hfind.entryAt hM hn.tidy hs ho.present ho.isDir ho.start
      obtain ⟨V', A', hs', h⟩ := appendFile_changes hM hn.tidy hs1 hat ho.start hrun halloc
      exact hn.stepped_rewritten hat hs' h
  | rename ho hname hrun =>
      obtain ⟨dl, -, ⟨rfl, hs', -⟩ | ⟨rfl, hs', -⟩ | ⟨rfl, c, i, l, -, hat, hnew, hs'⟩⟩ :=
        renameFile_at hM hn.tidy hs ho.present ho.isDir ho.start hrun
      · exact hs'.stepped_refused hn (r := 4) (by decide) _
      · exact hs'.stepped_refused hn (r := 1) (by decide) _
      · exact hn.stepped_renamed hM hat (hs.data_length (hat.dirChain.1 c hat.mem)) hname hnew hs'
  | delete ho hrun =>
      obtain ⟨dl, -, ⟨rfl, hs', -⟩ | ⟨rfl, hs', -⟩ | ⟨rfl, c, i, l, -, hat, hfile, hs'⟩⟩ :=
        deleteFile_at hM hn.tidy hs ho.present ho.isDir ho.start hrun
      · exact hs'.stepped_refused hn (r := 1) (by decide) _
      · exact hs'.stepped_refused hn (r := 4) (by decide) _
      · have hstep := hn.stepped_removed hM hat (hs.data_length (hat.dirChain.1 c hat.mem))
          (fun hdir => by rw [hfile] at hdir; cases hdir) hs'
        rw [hfile] at hstep
        exact hstep
  | removeDir ho hrun =>
      obtain ⟨dl, -, ⟨hr, hs', -⟩ | ⟨rfl, c, i, l, -, hat, hdir, hempty, hs'⟩⟩ :=
        removeDir_at hM hn hs ho hrun
      · exact hs'.stepped_refused hn hr _
      · have hstep := hn.stepped_removed hM hat (hs.data_length (hat.dirChain.1 c hat.mem))
          (fun _ => hempty) hs'
        rw [hdir] at hstep
        exact hstep
  | createFile ho hname hroom hrun =>
      obtain ⟨dl, hdl, hdirOn⟩ := ho.chain hn.tidy
      rcases createFile_at hM hs hdirOn (hroom dl hdl) hrun with
        ⟨rfl, hs', -⟩ | ⟨rfl, hnew, c, hc, pos, hfree, hs'⟩
      · exact hs'.stepped_refused hn (r := 1) (by decide) _
      · -- a new file has no cluster
        have hchain : M.FileOn (M.view s) 0 [] := ⟨by simp, Or.inl ⟨rfl, rfl⟩⟩
        exact hn.stepped_created ho hdl hc (hs.data_length (hdl.1 c hc)) hname (Or.inl rfl)
          (by decide) hfree hnew (fun _ _ => ⟨rfl, rfl⟩) (by simp) hchain
          (fun h => absurd h (by decide)) hs'
  | createDir ho hname hroom hrun =>
      obtain ⟨dl, hdl, hdirOn⟩ := ho.chain hn.tidy
      rcases createDir_at hM hs hdirOn (hroom dl hdl) hrun halloc with
        ⟨rfl, hs', -⟩ | ⟨hnew, ⟨rfl, hs'⟩ | ⟨rfl, n, hin, hnfree, c, hc, pos, hfree, hs'⟩⟩
      · exact hs'.stepped_refused hn (r := 1) (by decide) _
      · exact hs'.stepped_refused hn (r := 5) (by decide) _
      · -- a new directory has one cluster, with the two dot entries and no others
        obtain ⟨hnone, hended⟩ := newDirCluster_ended hM (M.view s) _ n _
        exact hn.stepped_created ho hdl hc (hs.data_length (hdl.1 c hc)) hname (Or.inr rfl)
          (hin.hasEntry.lt hM) hfree hnew (fun _ hx => Mount.withDir_frame hnfree _ _ hx)
          (by simpa using hnfree) (Mount.withDir_chain hin _ _)
          (fun _ => ⟨by simpa using hnone, hended⟩) hs'

omit hM in
/-- The clusters handed out before a call are on record after it. -/
theorem TreeStep.grows {l : Owner × Hierarchy.Op Name83 × Bool} (h : TreeStep M l s s') :
    s.Grows s' := by
  have hG := M.keeps_grows
  cases h with
  | write data ho hfind hrun =>
      exact hfind.grows.trans (fat32WriteFile_steps hG _ _ _ _ _ _ _ hrun)
  | append data ho hfind hrun =>
      exact hfind.grows.trans (fat32AppendFile_steps hG _ _ _ _ _ _ _ hrun)
  | rename ho hname hrun => exact fat32RenameFile_steps hG _ _ _ _ _ _ _ hrun
  | delete ho hrun => exact fat32DeleteFile_steps hG _ _ _ _ _ _ hrun
  | removeDir ho hrun => exact fat32RemoveDir_steps hG _ _ _ _ _ _ hrun
  | createFile ho hname hroom hrun => exact fat32CreateFile_steps hG _ _ _ _ _ _ _ hrun
  | createDir ho hname hroom hrun => exact fat32CreateDir_steps hG _ _ _ _ _ _ _ hrun

/-! ## Runs -/

theorem treeRun_stepped {ls : List (Owner × Hierarchy.Op Name83 × Bool)}
    (hrun : RunOf (TreeStep M) ls s s') (hq : s.faults = []) (hn : M.Neat (M.view s))
    (halloc : ∀ x ∈ s'.allocs, M.InRange x) : (s'.faults = [] ∧ M.Neat (M.view s')) ∧
      RunOf Hierarchy.Labelled ls (M.tree (M.view s)) (M.tree (M.view s')) := by
  refine RunOf.simulates (fun t => M.tree (M.view t)) (fun t => t.faults = [] ∧ M.Neat (M.view t))
    (fun t => ∀ x ∈ t.allocs, M.InRange x) ?_ ?_ hrun ⟨hq, hn⟩ halloc
  · intro l t t' h hB x hx
    exact hB x (h.grows.mem hx)
  · intro l t t' h hI hB
    exact h.stepped hM hI.1 hI.2 hB

/-- What stands in a directory in which no call works stays there, under its name, of its kind, and a
file with its bytes. -/
theorem treeRun_elsewhere {ls : List (Owner × Hierarchy.Op Name83 × Bool)}
    (hrun : RunOf (TreeStep M) ls s s') (hq : s.faults = []) (hn : M.Neat (M.view s))
    (halloc : ∀ x ∈ s'.allocs, M.InRange x) (hne : ∀ l ∈ ls, l.1 ≠ o) {c i : Nat} {n : FsNode}
    (hparent : n.parent = o) : M.IsNode (M.view s') c i n ↔ M.IsNode (M.view s) c i n := by
  obtain ⟨⟨-, hn'⟩, htrace⟩ := treeRun_stepped hM hrun hq hn halloc
  rw [← hn'.tidy.tree_eq_some, ← hn.tidy.tree_eq_some]
  exact Hierarchy.RunOf.elsewhere htrace hne hparent

end Sound

/-! ## A small tree -/

abbrev treeMount : Mount := smallMount ⟨true, true⟩

theorem smallFile_neat :
    treeMount.Neat (treeMount.view smallFile) := by
  have hroot : treeMount.FileOn (treeMount.view smallFile) 2
      [2] := by decide +kernel
  have hfile : (treeMount.view smallFile).isDirOf (some (2, 0)) = false := by
    decide +kernel
  have hfirst : ((treeMount.view smallFile).slot 2 0).name0 ≠ 0 := by decide +kernel
  have hrest : ∀ j, j < 16 → 1 ≤ j →
      ((treeMount.view smallFile).slot 2 j).name0 = 0 := by decide +kernel
  refine ⟨smallFile_tidy, ?_⟩
  intro o l ho hdir hl
  rcases smallFile_present ho with rfl | rfl
  · obtain rfl := hl.unique hroot
    refine ⟨fun x hx => ?_, by simp⟩
    rw [List.mem_singleton.mp hx]
    refine endsClean_of_zero (k := 1) (fun j hj => ?_) fun j hj hlt => hrest j hlt hj
    rw [Nat.lt_one_iff.mp hj]
    exact hfirst
  · rw [hfile] at hdir
    cases hdir

/-- A directory made beside the file, and a file in it. -/
theorem smallTree_run : ∃ s1 s2,
    TreeStep treeMount (none, .create (nameTo83 [66]) true, true) smallFile s1 ∧
    TreeStep treeMount (some (2, 2), .create (nameTo83 [67]) false, true) s1 s2 ∧
    s1.faults = [] ∧ s2.allocs = [5] ∧
    treeMount.FileOn (treeMount.view s1) 2 [2] ∧ treeMount.LiveAt (treeMount.view s1) 2 0 := by
  have hval : ((fat32CreateDir treeMount 8 2 [66] ⟨0, 0, 12, 1, 1, 25⟩ smallFile).bind fun p =>
      (fat32CreateFile treeMount 8 5 [67] ⟨0, 0, 12, 1, 1, 25⟩ p.2).map fun q =>
        (p.1, q.1, q.2.allocs, decide (p.2.faults = [] ∧
          treeMount.FileOn (treeMount.view p.2) 2 [2] ∧ treeMount.LiveAt (treeMount.view p.2) 2 0 ∧
          treeMount.LiveAt (treeMount.view p.2) 2 2 ∧
          treeMount.startOf (treeMount.view p.2) (some (2, 2)) = 5 ∧
          (treeMount.view p.2).isDirOf (some (2, 2)) = true ∧
          treeMount.FileOn (treeMount.view p.2) 5 [5] ∧
          (findRoom ((treeMount.view p.2).data 5) (slotsNeeded [67]) 16 16 0 0 0).isSome))) =
      some (0, 0, [5], true) := by decide +kernel
  obtain ⟨⟨r, s1⟩, hdir, hval⟩ := Option.bind_eq_some_iff.mp hval
  obtain ⟨⟨r', s2⟩, hfile, hval⟩ := Option.map_eq_some_iff.mp hval
  simp only [Prod.mk.injEq, decide_eq_true_eq] at hval
  obtain ⟨rfl, rfl, halloc, hquiet, hroot, hold, hnew, hstart, hkind, hchain, hroom⟩ := hval
  have hroot0 : treeMount.FileOn (treeMount.view smallFile) 2 [2] := by decide +kernel
  have hroom0 : treeMount.Room (treeMount.view smallFile) [2] [66] := ⟨2, by simp, by decide +kernel⟩
  have h66 : Nameable [66] := ⟨by decide, by decide, by decide, by decide⟩
  have h67 : Nameable [67] := ⟨by decide, by decide, by decide, by decide⟩
  refine ⟨s1, s2, ?_, ?_, hquiet, halloc, hroot, hold⟩
  · refine TreeStep.createDir ⟨Mount.Present.root, rfl, by decide⟩ h66 ?_ hdir
    intro dl hdl
    obtain rfl := Mount.FileOn.unique hdl hroot0
    exact hroom0
  · have hpresent : treeMount.Present (treeMount.view s1) (some (2, 2)) :=
      Mount.Present.entry Mount.Present.root rfl hroot (by simp) hnew
    rw [← hstart] at hfile
    refine TreeStep.createFile ⟨hpresent, hkind, by rw [hstart]; decide⟩ h67 ?_ hfile
    intro dl hdl
    rw [hstart] at hdl
    obtain rfl := hdl.unique hchain
    exact ⟨5, by simp, hroom⟩

/-- While a file is made in the directory, the old file stays as it was. -/
theorem treeRun_elsewhere_small : ∃ s1 s2 n,
    RunOf (TreeStep treeMount) [(some (2, 2), .create (nameTo83 [67]) false, true)] s1 s2 ∧
    n.parent = none ∧ treeMount.IsNode (treeMount.view s1) 2 0 n ∧
    treeMount.IsNode (treeMount.view s2) 2 0 n := by
  obtain ⟨s1, s2, hdir, hfile, hquiet, halloc, hroot, hold⟩ := smallTree_run
  have hin : ∀ x ∈ s2.allocs, treeMount.InRange x := by
    rw [halloc]
    decide +kernel
  have hn : treeMount.Neat (treeMount.view s1) :=
    (hdir.stepped (smallMount_sound _) rfl smallFile_neat fun x hx => hin x (hfile.grows.mem hx)).1.2
  have hpresent : treeMount.Present (treeMount.view s1) (some (2, 0)) :=
    Mount.Present.entry Mount.Present.root rfl hroot (by simp) hold
  obtain ⟨l, hl⟩ := hn.tidy.chain _ hpresent
  have hat : treeMount.EntryAt (treeMount.view s1) none [2] 2 0 l :=
    ⟨Mount.Present.root, rfl, hroot, by simp, hold, hl⟩
  have hrun : RunOf (TreeStep treeMount) [(some (2, 2), .create (nameTo83 [67]) false, true)] s1 s2 :=
    .snoc (.nil _) hfile
  refine ⟨s1, s2, _, hrun, rfl, hat.node, ?_⟩
  exact (treeRun_elsewhere (o := none) (smallMount_sound _) hrun hquiet hn hin (by simp) rfl).mpr
    hat.node

end Os003
