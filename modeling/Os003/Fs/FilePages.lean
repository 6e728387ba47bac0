import Os003.Fs.Paths
import Os003.Mm.OnePage

set_option autoImplicit false

/-! # The pages of the file calls

The functions of `fs.c` that take a path, with the page that `OpenFile` gets from `Pmm_Malloc(1)` for its copy
of the directory entry. `CreateFile` and its siblings give the page of the parent directory back, but not when
the parent turns out to be a file; `RenameFile` never does, and `CloseFile` only clears the `file_t`.

What `OpenFile` finds is compared with `resolve`, which goes along the components of the path and knows
nothing of pages (`openFile_entry`).
-/

namespace Os003

/-- The drives, and the page allocator. -/
structure FsMemory where
  disk : FsState
  regions : List MemoryDescriptor

namespace FsMemory

variable {α : Type}

/-- A function of `fat32.c`. -/
def onDisk (m : Prog FsState α) : Prog FsMemory α :=
  Prog.zoom FsMemory.disk (fun s x => { x with disk := s }) m

/-- `Pmm_Malloc(1)`. -/
def mallocPage : Prog FsMemory Nat := fun x =>
  some ((pmmMalloc 1 x.regions).1, { x with regions := (pmmMalloc 1 x.regions).2 })

/-- `Pmm_Free(addr, 1)`. -/
def freePage (addr : Nat) : Prog FsMemory Unit :=
  Prog.modify fun x => { x with regions := pmmFree addr 1 x.regions }

theorem onDisk_run {m : Prog FsState α} {x : FsMemory} {a : α} {t : FsState}
    (h : m x.disk = some (a, t)) : onDisk m x = some (a, { x with disk := t }) :=
  Prog.zoom_run h

theorem onDisk_none {m : Prog FsState α} {x : FsMemory} (h : m x.disk = none) : onDisk m x = none := by
  rw [onDisk, Prog.zoom, h]

@[simp] theorem mallocPage_bind (f : Nat → Prog FsMemory α) (x : FsMemory) :
    (mallocPage >>= f) x =
      f (pmmMalloc 1 x.regions).1 { x with regions := (pmmMalloc 1 x.regions).2 } := rfl

end FsMemory

open FsMemory

/-! ## `fs.c` -/

/-- The path up to its last slash and the name behind it; nothing when the path does not start with a slash or
ends in one. A file in the root has the parent `/`. -/
def parentAndName (path : List UInt8) : Option (List UInt8 × List UInt8) :=
  let dir := (path.rdropWhile (· ≠ slash)).dropLast
  let name := path.rtakeWhile (· ≠ slash)
  if path.head? ≠ some slash ∨ name = [] then none
  else some (if dir = [] then [slash] else dir, name)

section

variable (M : Mount) (fuel : Nat)

namespace FsMemory

/-- `OpenFile`, with its page. -/
def openFile (path : List UInt8) (mode : Nat) : Prog FsMemory FileT := do
  if path = [] then return FileT.closed
  let p := path.dropWhile (· = slash)
  if p = [] then
    let page ← mallocPage
    return { entry := if page = 0 then none else some (page, rootEntry M.info.rootCluster)
             dirCluster := M.info.rootCluster, name := none, status := mode }
  match ← onDisk (openLoop M fuel (p.length + 1) p M.info.rootCluster none) with
  | none => return FileT.closed
  | some (_, none) => return FileT.closed
  | some (current, some (e, name)) =>
      let page ← mallocPage
      if page = 0 then return FileT.closed
      return { entry := some (page, e), dirCluster := current, name := some name, status := mode }

/-- `CloseFile`. -/
def closeFile (_ : FileT) : FileT := FileT.closed

/-- What `CreateFile`, `CreateDir`, `DeleteFile` and `RemoveDir` have in common: `f` gets the cluster of the
parent directory and the name. -/
def inParent (f : Nat → List UInt8 → Prog FsState Nat) (path : List UInt8) : Prog FsMemory Nat :=
  match parentAndName path with
  | none => return 6
  | some (dir, name) => do
      let file ← openFile M fuel dir 0
      match file.entry with
      | none => return 6
      | some (page, e) =>
          if !e.isDirectory then return 6
          freePage page
          onDisk (f e.cluster name)

/-- `CreateFile`. -/
def createFile (path : List UInt8) (rtc : RtcTime) : Prog FsMemory Nat :=
  inParent M fuel (fun d name => fat32CreateFile M fuel d name rtc) path

/-- `CreateDir`. -/
def createDir (path : List UInt8) (rtc : RtcTime) : Prog FsMemory Nat :=
  inParent M fuel (fun d name => fat32CreateDir M fuel d name rtc) path

/-- `DeleteFile`. -/
def deleteFile (path : List UInt8) : Prog FsMemory Nat :=
  inParent M fuel (fat32DeleteFile M fuel) path

/-- `RemoveDir`. -/
def removeDir (path : List UInt8) : Prog FsMemory Nat :=
  inParent M fuel (fat32RemoveDir M fuel) path

/-- `RenameFile`; `nullName` is the text at the address 0, which a `file_t` without a name stands for. -/
def renameFile (nullName path newName : List UInt8) : Prog FsMemory Int := do
  let file ← openFile M fuel path 0
  if slash ∈ newName then return -1
  let st ← onDisk (fat32RenameFile M fuel file.dirCluster (file.name.getD nullName) newName)
  return (st : Int)

end FsMemory

end

/-- A call of `fs.c`, or `OpenFile` with `CloseFile` behind it. -/
inductive FileCall
  | createFile (path : List UInt8) (rtc : RtcTime)
  | createDir (path : List UInt8) (rtc : RtcTime)
  | deleteFile (path : List UInt8)
  | removeDir (path : List UInt8)
  | renameFile (path newName : List UInt8)
  | openClose (path : List UInt8) (mode : Nat)

/-- The call, without what it returns. -/
def FileCall.run (M : Mount) (fuel : Nat) (nullName : List UInt8) : FileCall → Prog FsMemory Unit
  | .createFile path rtc => (fun _ => ()) <$> FsMemory.createFile M fuel path rtc
  | .createDir path rtc => (fun _ => ()) <$> FsMemory.createDir M fuel path rtc
  | .deleteFile path => (fun _ => ()) <$> FsMemory.deleteFile M fuel path
  | .removeDir path => (fun _ => ()) <$> FsMemory.removeDir M fuel path
  | .renameFile path newName => (fun _ => ()) <$> FsMemory.renameFile M fuel nullName path newName
  | .openClose path mode => do
      let file ← FsMemory.openFile M fuel path mode
      let _ := closeFile file
      return ()

/-! ## What a path leads to -/

/-- The entry that a path leads to. -/
def resolve (M : Mount) (fuel : Nat) (path : List UInt8) : Prog FsState (Option Slot) := do
  if path = [] then return none
  if components path = [] then return some (rootEntry M.info.rootCluster)
  match ← lookupPath M fuel ((components path).map cut) M.info.rootCluster with
  | none => return none
  | some (_, e) => return if trailing path ∧ !e.isDirectory then none else some e

section Entry

variable {M : Mount} {fuel mode : Nat} {path : List UInt8} {x y : FsMemory}

/-- The loop returns early for a file with a slash behind it, and comes to its end otherwise. -/
theorem settled {b : Bool} {o : Option (Nat × Slot)} {r : Option (Nat × Option (Slot × List UInt8))}
    (h : settle b o = withoutName r) :
    (r = none ∧ ∀ current e, o = some (current, e) → b = true ∧ (!e.isDirectory) = true) ∨
      ∃ current e name c, r = some (current, some (e, name)) ∧ o = some (c, e) ∧
        ¬ (b = true ∧ (!e.isDirectory) = true) := by
  rcases o with _ | ⟨c, e⟩
  · rcases r with _ | r
    · exact .inl ⟨rfl, fun _ _ h => by cases h⟩
    · cases h
  by_cases hdir : b = true ∧ (!e.isDirectory) = true
  · have hnone : settle b (some (c, e)) = none := by
      simp only [Bool.not_eq_true'] at hdir
      simp [settle, hdir.1, hdir.2]
    rw [hnone] at h
    rcases r with _ | r
    · refine .inl ⟨rfl, fun _ _ ho => ?_⟩
      cases ho
      exact hdir
    · cases h
  · obtain ⟨current, hsome⟩ : ∃ current, settle b (some (c, e)) = some (current, some e) := by
      cases b with
      | false => exact ⟨c, rfl⟩
      | true =>
          have hd : e.isDirectory = true := by simpa using hdir
          exact ⟨e.cluster, by simp [settle, hd]⟩
    rw [hsome] at h
    rcases r with _ | ⟨current', _ | ⟨e', name⟩⟩
    · cases h
    · cases h
    · obtain ⟨-, he⟩ := Prod.mk.inj (Option.some.inj h)
      obtain rfl : e = e' := Option.some.inj he
      exact .inr ⟨current', e, name, c, rfl, rfl, hdir⟩

/-- What `OpenFile` has got when the path leads to an entry or nowhere. -/
def opened (x : FsMemory) : Option Slot × FsState → Option (Nat × Slot) × FsMemory
  | (none, t) => (none, { x with disk := t })
  | (some e, t) =>
      (if (pmmMalloc 1 x.regions).1 = 0 then none else some ((pmmMalloc 1 x.regions).1, e),
        { disk := t, regions := (pmmMalloc 1 x.regions).2 })

/-- `OpenFile` gets a page for the entry that the path leads to. -/
theorem openFile_entry : (FsMemory.openFile M fuel path mode x).map (Prod.map FileT.entry id) =
    (resolve M fuel path x.disk).map (opened x) := by
  by_cases hp : path = []
  · rw [FsMemory.openFile, resolve, if_pos hp, if_pos hp]
    rfl
  by_cases hroot : components path = []
  · rw [FsMemory.openFile, resolve, if_neg hp, if_neg hp, if_pos (dropWhile_slash_eq_nil.mpr hroot),
      if_pos hroot]
    rfl
  have hfront : path.dropWhile (· = slash) ≠ [] := fun h => hroot (dropWhile_slash_eq_nil.mp h)
  obtain ⟨hcomp, htrail⟩ := dropWhile_slash path
  have hloop : (openLoop M fuel _ (path.dropWhile (· = slash)) M.info.rootCluster none x.disk).map
      (Prod.map withoutName id) = _ := openLoop_cut (Nat.lt_succ_self _) (by rw [hcomp]; exact hroot)
  rw [hcomp, htrail hfront] at hloop
  rw [FsMemory.openFile, resolve, if_neg hp, if_neg hp, if_neg hfront, if_neg hroot]
  cases hrun : openLoop M fuel ((path.dropWhile (· = slash)).length + 1) (path.dropWhile (· = slash))
      M.info.rootCluster none x.disk with
  | none =>
      rw [hrun, Option.map_none, eq_comm, Option.map_eq_none_iff] at hloop
      rw [Prog.bind_none (onDisk_none hrun), Prog.bind_none hloop]
      rfl
  | some r =>
      obtain ⟨r, t⟩ := r
      rw [hrun, Option.map_some, eq_comm, Option.map_eq_some_iff] at hloop
      obtain ⟨⟨o, t'⟩, hlook, heq⟩ := hloop
      obtain ⟨hsettle, rfl⟩ := Prod.mk.inj heq
      rw [Prog.bind_run (onDisk_run hrun), Prog.bind_run hlook]
      -- the slash at the end of the path lets the loop descend into a directory only
      rcases settled hsettle with ⟨rfl, hnone⟩ | ⟨current, e, name, c, rfl, rfl, hdir⟩
      · rcases o with _ | ⟨current, e⟩
        · rfl
        · simp only [Prog.pure_run, Option.map_some]
          rw [if_pos (hnone current e rfl)]
          rfl
      · simp only [mallocPage_bind, Prog.pure_run, Option.map_some]
        rw [if_neg hdir]
        simp only [opened]
        split <;> rfl

theorem openFile_opened {f : FileT} (h : FsMemory.openFile M fuel path mode x = some (f, y)) :
    ∃ o t, resolve M fuel path x.disk = some (o, t) ∧ opened x (o, t) = (f.entry, y) := by
  have hentry : (FsMemory.openFile M fuel path mode x).map (Prod.map FileT.entry id) = _ :=
    openFile_entry
  rw [h, Option.map_some, eq_comm, Option.map_eq_some_iff] at hentry
  obtain ⟨⟨o, t⟩, hresolve, hopened⟩ := hentry
  exact ⟨o, t, hresolve, hopened⟩

/-- `OpenFile` takes a page when the path leads to an entry and there is a page. -/
theorem allocated_openFile {f : FileT} (h : FsMemory.openFile M fuel path mode x = some (f, y)) :
    allocatedPages y.regions = allocatedPages x.regions ↔
      ∀ e t, resolve M fuel path x.disk = some (some e, t) → NoPage x.regions := by
  obtain ⟨o, t, hresolve, hopened⟩ := openFile_opened h
  obtain rfl : (opened x (o, t)).2 = y := congrArg Prod.snd hopened
  cases o with
  | none =>
      refine iff_of_true rfl ?_
      intro e t' he
      cases hresolve.symm.trans he
  | some e =>
      show allocatedPages (pmmMalloc 1 x.regions).2 = _ ↔ _
      rw [allocated_malloc_iff]
      exact ⟨fun hno _ _ _ => hno, fun hall => hall e t hresolve⟩

end Entry

/-! ## The pages of a call -/

/-- A page is picked, and its address, which is not 0, leads back to it. -/
def Returnable (ds : List MemoryDescriptor) : Prop :=
  ∃ k i d, Picks ds k i d ∧ d.pageAddress i ≠ 0 ∧ LeadsBack ds k i d

/-- The path, or that of the parent directory, leads nowhere or there is no page; or the call gives
its page back because the parent is a directory. -/
def FileCall.Balanced (M : Mount) (fuel : Nat) (x : FsMemory) : FileCall → Prop
  | .createFile path _ | .createDir path _ | .deleteFile path | .removeDir path =>
      ∀ dir name e t, parentAndName path = some (dir, name) →
        resolve M fuel dir x.disk = some (some e, t) →
          NoPage x.regions ∨ e.isDirectory = true ∧ Returnable x.regions
  | .renameFile path _ | .openClose path _ =>
      ∀ e t, resolve M fuel path x.disk = some (some e, t) → NoPage x.regions

section Calls

variable {M : Mount} {fuel : Nat} {nullName : List UInt8} {x y z : FsMemory}

theorem regions_onDisk {α : Type} {m : Prog FsState α} {a : α} (h : onDisk m x = some (a, y)) :
    y.regions = x.regions := by
  obtain ⟨t, -, rfl⟩ := Prog.zoom_eq_some.mp h
  rfl

/-- The regions when the page of an entry has been given back, which is done for a directory only. -/
def givenBack (ds : List MemoryDescriptor) : Option (Nat × Slot) → List MemoryDescriptor
  | none => ds
  | some (page, e) => if e.isDirectory then pmmFree page 1 ds else ds

/-- What the calls do behind `OpenFile` of the parent directory. -/
theorem regions_rest {f : Nat → Prog FsState Nat} {entry : Option (Nat × Slot)} {r : Nat}
    (h : (match entry with
      | none => return 6
      | some (page, e) => do
          if !e.isDirectory then return 6
          freePage page
          onDisk (f e.cluster) : Prog FsMemory Nat) z = some (r, y)) :
    y.regions = givenBack z.regions entry := by
  rcases entry with _ | ⟨page, e⟩
  · cases h
    rfl
  · dsimp only [givenBack] at h ⊢
    cases hdir : e.isDirectory with
    | false =>
        rw [hdir] at h
        cases h
        rfl
    | true =>
        rw [hdir] at h
        exact regions_onDisk h

/-- The page for an entry is given back, or there is none. -/
theorem allocated_givenBack (e : Slot) (ds : List MemoryDescriptor) :
    allocatedPages (givenBack (pmmMalloc 1 ds).2
      (if (pmmMalloc 1 ds).1 = 0 then none else some ((pmmMalloc 1 ds).1, e))) = allocatedPages ds ↔
      NoPage ds ∨ e.isDirectory = true ∧ Returnable ds := by
  by_cases hno : NoPage ds
  · rw [pmmMalloc_noPage hno, if_pos rfl]
    exact iff_of_true rfl (.inl hno)
  have htaken : allocatedPages (pmmMalloc 1 ds).2 ≠ allocatedPages ds :=
    fun hsame => hno (allocated_malloc_iff.mp hsame)
  constructor
  · intro hsame
    obtain ⟨k, i, d, hp⟩ := exists_picks hno
    have haddr : (pmmMalloc 1 ds).1 = d.pageAddress i := by rw [hp.malloc]
    rw [haddr] at hsame
    by_cases h0 : d.pageAddress i = 0
    · rw [if_pos h0] at hsame
      exact absurd hsame htaken
    · rw [if_neg h0] at hsame
      cases hdir : e.isDirectory with
      | false =>
          rw [givenBack, hdir, if_neg Bool.false_ne_true] at hsame
          exact absurd hsame htaken
      | true =>
          rw [givenBack, hdir, if_pos rfl] at hsame
          exact .inr ⟨rfl, k, i, d, hp, h0, (restored_iff hp).mp hsame⟩
  · rintro (hno' | ⟨hdir, k, i, d, hp, h0, hback⟩)
    · exact absurd hno' hno
    · have haddr : (pmmMalloc 1 ds).1 = d.pageAddress i := by rw [hp.malloc]
      rw [haddr, if_neg h0, givenBack, hdir, if_pos rfl]
      exact (restored_iff hp).mpr hback

theorem allocated_inParent {f : Nat → List UInt8 → Prog FsState Nat} {path : List UInt8} {r : Nat}
    (h : inParent M fuel f path x = some (r, y)) :
    allocatedPages y.regions = allocatedPages x.regions ↔
      ∀ dir name e t, parentAndName path = some (dir, name) →
        resolve M fuel dir x.disk = some (some e, t) →
          NoPage x.regions ∨ e.isDirectory = true ∧ Returnable x.regions := by
  unfold inParent at h
  cases hparent : parentAndName path with
  | none =>
      rw [hparent] at h
      cases h
      simp
  | some p =>
      obtain ⟨dir, name⟩ := p
      rw [hparent] at h
      obtain ⟨file, z, hopen, hrest⟩ := Prog.bind_eq_some.mp h
      obtain ⟨o, t, hresolve, hopened⟩ := openFile_opened hopen
      have hregions : y.regions = givenBack (opened x (o, t)).2.regions (opened x (o, t)).1 := by
        rw [hopened]
        exact regions_rest (f := fun d => f d name) hrest
      rw [hregions]
      cases o with
      | none =>
          refine iff_of_true rfl ?_
          rintro _ _ e t' ⟨⟩ hr
          cases hresolve.symm.trans hr
      | some e =>
          show allocatedPages (givenBack (pmmMalloc 1 x.regions).2 _) = _ ↔ _
          refine (allocated_givenBack e x.regions).trans ?_
          constructor
          · rintro hback _ _ e' t' ⟨⟩ hr
            cases hresolve.symm.trans hr
            exact hback
          · intro hall
            exact hall dir name e t rfl hresolve

/-- A call that returns leaves the same pages allocated exactly if it is balanced. -/
theorem allocated_run_iff (call : FileCall) (h : call.run M fuel nullName x = some ((), y)) :
    allocatedPages y.regions = allocatedPages x.regions ↔ call.Balanced M fuel x := by
  cases call with
  | createFile path rtc =>
      obtain ⟨r, hrun, -⟩ := Prog.map_eq_some.mp h
      exact allocated_inParent hrun
  | createDir path rtc =>
      obtain ⟨r, hrun, -⟩ := Prog.map_eq_some.mp h
      exact allocated_inParent hrun
  | deleteFile path =>
      obtain ⟨r, hrun, -⟩ := Prog.map_eq_some.mp h
      exact allocated_inParent hrun
  | removeDir path =>
      obtain ⟨r, hrun, -⟩ := Prog.map_eq_some.mp h
      exact allocated_inParent hrun
  | renameFile path newName =>
      obtain ⟨r, hrun, -⟩ := Prog.map_eq_some.mp h
      obtain ⟨file, z, hopen, hrest⟩ := Prog.bind_eq_some.mp hrun
      have hregions : y.regions = z.regions := by
        by_cases hslash : slash ∈ newName
        · rw [if_pos hslash] at hrest
          cases hrest
          rfl
        · rw [if_neg hslash] at hrest
          obtain ⟨st, w, hdisk, hpure⟩ := Prog.bind_eq_some.mp hrest
          cases hpure
          exact regions_onDisk hdisk
      rw [hregions]
      exact allocated_openFile hopen
  | openClose path mode =>
      obtain ⟨file, z, hopen, hrest⟩ := Prog.bind_eq_some.mp h
      cases hrest
      exact allocated_openFile hopen

end Calls

/-- An empty volume, and the eight pages. -/
def emptyMemory : FsMemory := ⟨smallState [] fun _ => [], eightPages⟩

theorem allocated_run_root :
    (FileCall.openClose [slash] 0).run (smallMount ⟨true, true⟩) 1 [] emptyMemory =
        some ((), { emptyMemory with regions := (pmmMalloc 1 eightPages).2 }) ∧
      (allocatedPages (pmmMalloc 1 eightPages).2 = allocatedPages eightPages ↔
        (FileCall.openClose [slash] 0).Balanced (smallMount ⟨true, true⟩) 1 emptyMemory) :=
  ⟨rfl, allocated_run_iff (.openClose [slash] 0)
    (show (FileCall.openClose [slash] 0).run (smallMount ⟨true, true⟩) 1 [] emptyMemory =
      some ((), { emptyMemory with regions := (pmmMalloc 1 eightPages).2 }) from rfl)⟩

/-- To open the root and to close it again leaves a page allocated. -/
theorem root_page_lost :
    (FileCall.openClose [slash] 0).run (smallMount ⟨true, true⟩) 1 [] emptyMemory =
        some ((), { emptyMemory with regions := (pmmMalloc 1 eightPages).2 }) ∧
      allocatedPages (pmmMalloc 1 eightPages).2 ≠ allocatedPages emptyMemory.regions := by
  refine ⟨rfl, fun hsame => ?_⟩
  have hno := allocated_malloc_iff.mp hsame
  have hfull := hno _ List.mem_cons_self rfl
  revert hfull
  decide

end Os003
