import Os003.Fs.File

set_option autoImplicit false

/-! # What every function does to the state

All functions of the file system are built from the same few actions: driver calls with one of
two drive arguments, and the two updates of the free count. A relation between the state before
and after that these actions keep (`M.Keeps R`) is kept by every function, whatever the drives
hold and whichever commands fail. Two relations are used below: the record of allocations only
grows, and all commands go to one drive.
-/

namespace Os003

open Prog

/-- The drive arguments the file system passes: `Disk->is_master` and `&Disk->is_master`. -/
def Mount.DriveArg (M : Mount) (m : Bool) : Prop :=
  m = M.disk.isMaster ∨ m = refAsBool M.disk.isMaster

/-- A reflexive and transitive relation that every elementary action keeps. -/
structure Mount.Keeps (M : Mount) (R : FsState → FsState → Prop) : Prop where
  refl : ∀ s, R s s
  trans : ∀ s t u, R s t → R t u → R s u
  read : ∀ m lba n, M.DriveArg m → Steps R (ata (ataRead m lba n))
  write : ∀ m lba n buf, M.DriveArg m → Steps R (ata (ataWrite m lba n buf))
  flush : ∀ m, M.DriveArg m → Steps R (ata (ataFlushCache m))
  take : ∀ s c, R s { s with free := s.free.take c, allocs := c :: s.allocs }
  release : ∀ s, R s { s with free := s.free.release }

theorem Mount.DriveArg.data (M : Mount) : M.DriveArg M.disk.isMaster := Or.inl rfl

theorem Mount.DriveArg.table (M : Mount) : M.DriveArg (refAsBool M.disk.isMaster) := Or.inr rfl

section Keeps

variable {M : Mount} {R : FsState → FsState → Prop} (hR : M.Keeps R)
include hR

theorem Mount.Keeps.pure {α : Type} (a : α) : Steps R (Pure.pure a : Prog FsState α) :=
  Steps.pure hR.refl a

theorem Mount.Keeps.bind {α β : Type} {m : Prog FsState α} {f : α → Prog FsState β}
    (hm : Steps R m) (hf : ∀ a, Steps R (f a)) : Steps R (m >>= f) :=
  Steps.bind hR.trans hm hf

theorem Mount.Keeps.bindPure {α β : Type} {m : Prog FsState α} {f : α → β} (hm : Steps R m) :
    Steps R (m >>= fun a => Pure.pure (f a)) :=
  hR.bind hm (fun a => hR.pure (f a))

/-! ## Clusters and table entries -/

omit hR in
theorem ata_bind {α β : Type} (m : Prog Channel α) (f : α → Prog Channel β) :
    ata (m >>= f) = (ata m >>= fun a => ata (f a)) :=
  @zoom_bind FsState Channel α β FsState.toChannel (fun ch s => { s with toChannel := ch })
    (fun _ _ => rfl) (fun _ _ _ => rfl) m f

theorem fat32GetInfo_steps : Steps R (ata (fat32GetInfo M.disk M.part)) := by
  have hpure : ∀ o : Option (Fat32Info × FreeInfo), Steps R (ata (Pure.pure o)) :=
    fun o => hR.pure o
  rw [fat32GetInfo, ata_bind]
  refine hR.bind (hR.read _ _ _ (Mount.DriveArg.table M)) (fun p => ?_)
  obtain ⟨r, buffer⟩ := p
  simp only []
  split
  · exact hpure _
  · split
    · exact hpure _
    · rw [ata_bind]
      refine hR.bind (hR.read _ _ _ (Mount.DriveArg.table M)) (fun p => ?_)
      obtain ⟨r, buffer⟩ := p
      simp only []
      split
      · exact hpure _
      · exact hpure _

theorem fat32NextCluster_steps (c : Nat) : Steps R (fat32NextCluster M c) := by
  refine hR.bind (hR.read _ _ _ (Mount.DriveArg.table M)) (fun p => ?_)
  exact Steps.ite (hR.pure _) (hR.pure _)

theorem fat32ReadCluster_steps (c : Nat) : Steps R (fat32ReadCluster M c) :=
  hR.bindPure (hR.read _ _ _ (Mount.DriveArg.data M))

theorem fat32WriteCluster_steps (c : Nat) (buf : List UInt8) :
    Steps R (fat32WriteCluster M c buf) := by
  refine hR.bind (hR.write _ _ _ _ (Mount.DriveArg.data M)) (fun a => ?_)
  refine Steps.ite (hR.pure _) ?_
  exact hR.bind (hR.flush _ (Mount.DriveArg.data M)) (fun _ => hR.pure _)

theorem writeFatCopies_steps (c v n i : Nat) : Steps R (writeFatCopies M c v n i) := by
  induction n generalizing i with
  | zero => exact hR.pure 0
  | succ n ih =>
      refine hR.bind (hR.read _ _ _ (Mount.DriveArg.table M)) (fun p => ?_)
      refine Steps.ite (hR.pure _) ?_
      refine hR.bind (hR.write _ _ _ _ (Mount.DriveArg.table M)) (fun r => ?_)
      exact Steps.ite (hR.pure _) (ih (i + 1))

theorem fat32WriteFatEntry_steps (c v : Nat) : Steps R (fat32WriteFatEntry M c v) := by
  refine hR.bind (writeFatCopies_steps hR c v _ _) (fun st => ?_)
  refine Steps.ite (hR.pure _) ?_
  exact hR.bind (hR.flush _ (Mount.DriveArg.table M)) (fun _ => hR.pure _)

theorem allocLoop_steps (start fuel c : Nat) : Steps R (allocLoop M start fuel c) := by
  induction fuel generalizing c with
  | zero => exact Steps.diverge
  | succ fuel ih =>
      refine hR.bind (hR.read _ _ _ (Mount.DriveArg.table M)) (fun p => ?_)
      refine Steps.ite (hR.pure _) (Steps.ite ?_ (Steps.ite (ih _) (hR.pure _)))
      refine hR.bind (fat32WriteFatEntry_steps hR _ _) (fun st => ?_)
      refine Steps.ite (hR.pure _) ?_
      exact hR.bind (Steps.modify (fun s => hR.take s c)) (fun _ => hR.pure _)

theorem fat32AllocCluster_steps (fuel : Nat) : Steps R (fat32AllocCluster M fuel) :=
  hR.bind (Steps.get hR.refl) (fun _ => allocLoop_steps hR _ _ _)

theorem fat32FreeClusterChain_steps (fuel c : Nat) :
    Steps R (fat32FreeClusterChain M fuel c) := by
  induction fuel generalizing c with
  | zero => exact Steps.diverge
  | succ fuel ih =>
      refine Steps.ite ?_ (hR.pure _)
      refine hR.bind (fat32NextCluster_steps hR c) (fun next => ?_)
      cases next with
      | none => exact hR.pure 1
      | some next =>
          refine hR.bind (fat32WriteFatEntry_steps hR _ _) (fun st => ?_)
          refine Steps.ite (hR.pure _) ?_
          refine hR.bind (Steps.modify hR.release) (fun _ => ?_)
          exact Steps.ite (hR.pure _) (ih next)

/-! ## Directories -/

theorem walkDir_steps {Acc γ β : Type} {readErr nextErr : β}
    {scan : List UInt8 → Acc → Acc ⊕ γ} {onHit : Nat → List UInt8 → γ → Prog FsState β}
    {onEnd : Nat → List UInt8 → Acc → Prog FsState β} (hhit : ∀ c buf g, Steps R (onHit c buf g))
    (hend : ∀ c buf acc, Steps R (onEnd c buf acc)) (fuel c : Nat) (acc : Acc) :
    Steps R (walkDir M readErr nextErr scan onHit onEnd fuel c acc) := by
  induction fuel generalizing c acc with
  | zero => exact Steps.diverge
  | succ fuel ih =>
      refine hR.bind (fat32ReadCluster_steps hR c) (fun p => ?_)
      refine Steps.ite (hR.pure _) ?_
      cases scan p.2 acc with
      | inr g => exact hhit _ _ _
      | inl acc =>
          refine hR.bind (fat32NextCluster_steps hR c) (fun next => ?_)
          cases next with
          | none => exact hR.pure nextErr
          | some next => exact Steps.ite (hend _ _ _) (ih _ _)

theorem fat32FindEntry_steps (fuel d : Nat) (n : Name83) : Steps R (fat32FindEntry M fuel d n) :=
  walkDir_steps hR (fun _ _ _ => hR.pure _) (fun _ _ _ => hR.pure _) _ _ _

theorem fat32FindEntryAny_steps (fuel d : Nat) (name : List UInt8) :
    Steps R (fat32FindEntryAny M fuel d name) :=
  walkDir_steps hR (fun _ _ _ => hR.pure _) (fun _ _ _ => hR.pure _) _ _ _

theorem fat32ListDirectory_steps (fuel d : Nat) : Steps R (fat32ListDirectory M fuel d) :=
  walkDir_steps hR (fun _ _ _ => hR.pure _) (fun _ _ _ => hR.pure _) _ _ _

theorem fat32WriteDirEntry_steps (fuel d : Nat) (e : Slot) :
    Steps R (fat32WriteDirEntry M fuel d e) :=
  walkDir_steps hR (fun _ _ _ => fat32WriteCluster_steps hR _ _) (fun _ _ _ => hR.pure _) _ _ _

theorem isDirEmpty_steps (fuel c : Nat) : Steps R (isDirEmpty M fuel c) :=
  Steps.ite (hR.pure _)
    (walkDir_steps hR (fun _ _ _ => hR.pure _) (fun _ _ _ => hR.pure _) _ _ _)

/-- Writing a cluster of a directory, as creating, renaming and deleting all end. -/
theorem writeBack_steps (c : Nat) (buf : List UInt8) : Steps R (do
    let st ← fat32WriteCluster M c buf
    if st ≠ 0 then return 3
    ata (ataFlushCache (refAsBool M.disk.isMaster))
    return 0) := by
  refine hR.bind (fat32WriteCluster_steps hR _ _) (fun st => ?_)
  refine Steps.ite (hR.pure _) ?_
  exact hR.bind (hR.flush _ (Mount.DriveArg.table M)) (fun _ => hR.pure _)

theorem fat32RenameFile_steps (fuel d : Nat) (oldName newName : List UInt8) :
    Steps R (fat32RenameFile M fuel d oldName newName) := by
  refine hR.bind (fat32FindEntryAny_steps hR _ _ _) (fun p => ?_)
  refine Steps.ite (hR.pure _) ?_
  exact walkDir_steps hR (fun _ _ _ => writeBack_steps hR _ _) (fun _ _ _ => hR.pure _) _ _ _

theorem addSlots_steps (fuel d full : Nat) (slots : List Slot) :
    Steps R (addSlots M fuel d full slots) := by
  refine walkDir_steps hR (fun _ _ _ => writeBack_steps hR _ _) (fun c buf _ => ?_) _ _ _
  refine hR.bind (fat32AllocCluster_steps hR _) (fun nc => ?_)
  refine Steps.ite (hR.pure _) (hR.bind (fat32WriteFatEntry_steps hR _ _) (fun st => ?_))
  refine Steps.ite (hR.pure _) (hR.bind (fat32WriteCluster_steps hR _ _) (fun st => ?_))
  exact Steps.ite (hR.pure _) (writeBack_steps hR _ _)

theorem fat32CreateFile_steps (fuel d : Nat) (name : List UInt8) (rtc : RtcTime) :
    Steps R (fat32CreateFile M fuel d name rtc) := by
  refine hR.bind (fat32FindEntryAny_steps hR _ _ _) (fun p => ?_)
  exact Steps.ite (hR.pure _) (addSlots_steps hR _ _ _ _)

theorem fat32CreateDir_steps (fuel d : Nat) (name : List UInt8) (rtc : RtcTime) :
    Steps R (fat32CreateDir M fuel d name rtc) := by
  refine hR.bind (fat32FindEntryAny_steps hR _ _ _) (fun p => ?_)
  refine Steps.ite (hR.pure _) (hR.bind (fat32AllocCluster_steps hR _) (fun nc => ?_))
  refine Steps.ite (hR.pure _) (hR.bind (fat32WriteCluster_steps hR _ _) (fun st => ?_))
  exact Steps.ite (hR.pure _) (addSlots_steps hR _ _ _ _)

theorem fat32DeleteFile_steps (fuel d : Nat) (name : List UInt8) :
    Steps R (fat32DeleteFile M fuel d name) := by
  refine walkDir_steps hR (fun c buf p => ?_) (fun _ _ _ => hR.pure _) _ _ _
  refine Steps.ite (hR.pure _) (Steps.ite ?_ (writeBack_steps hR _ _))
  refine hR.bind (fat32FreeClusterChain_steps hR _ _) (fun st => ?_)
  exact Steps.ite (hR.pure _) (writeBack_steps hR _ _)

theorem fat32RemoveDir_steps (fuel d : Nat) (name : List UInt8) :
    Steps R (fat32RemoveDir M fuel d name) := by
  refine walkDir_steps hR (fun c buf p => ?_) (fun _ _ _ => hR.pure _) _ _ _
  refine Steps.ite (hR.pure _) (Steps.ite ?_ (writeBack_steps hR _ _))
  refine hR.bind (isDirEmpty_steps hR _ _) (fun b => Steps.ite (hR.pure _) ?_)
  refine hR.bind (fat32FreeClusterChain_steps hR _ _) (fun st => ?_)
  exact Steps.ite (hR.pure _) (writeBack_steps hR _ _)

/-! ## Files -/

theorem readLoop_steps (size fuel c n : Nat) (out : List UInt8) :
    Steps R (readLoop M size fuel c n out) := by
  induction fuel generalizing c n out with
  | zero => exact Steps.diverge
  | succ fuel ih =>
      refine Steps.ite ?_ (hR.pure _)
      refine hR.bind (fat32ReadCluster_steps hR c) (fun p => ?_)
      refine Steps.ite (hR.pure _) (Steps.ite (hR.pure _) ?_)
      refine hR.bind (fat32NextCluster_steps hR c) (fun next => ?_)
      cases next with
      | none => exact hR.pure _
      | some next => exact Steps.ite (hR.pure _) (ih _ _ _)

theorem fat32ReadFile_steps (fuel : Nat) (e : Slot) : Steps R (fat32ReadFile M fuel e) :=
  Steps.ite (hR.pure _) (readLoop_steps hR _ _ _ _ _)

theorem patchCluster_steps (c off : Nat) (bs : List UInt8) :
    Steps R (patchCluster M c off bs) :=
  hR.bind (fat32ReadCluster_steps hR c) (fun _ => fat32WriteCluster_steps hR _ _)

theorem writeChunk_steps (c off n : Nat) (src : List UInt8) :
    Steps R (writeChunk M c off n src) :=
  Steps.ite (patchCluster_steps hR _ _ _) (fat32WriteCluster_steps hR _ _)

theorem writeLoop_steps (data : List UInt8) (fuel c n : Nat) :
    Steps R (writeLoop M data fuel c n) := by
  induction fuel generalizing c n with
  | zero => exact Steps.diverge
  | succ fuel ih =>
      refine Steps.ite ?_ (hR.pure _)
      refine hR.bind (writeChunk_steps hR _ _ _ _) (fun st => ?_)
      refine Steps.ite (hR.pure _) (Steps.ite (hR.pure _) ?_)
      refine hR.bind (fat32NextCluster_steps hR c) (fun next => ?_)
      cases next with
      | none => exact hR.pure _
      | some next =>
          refine Steps.ite ?_ (ih _ _)
          refine hR.bind (fat32AllocCluster_steps hR _) (fun nc => Steps.ite (hR.pure _) ?_)
          refine hR.bind (fat32WriteFatEntry_steps hR _ _) (fun st => ?_)
          exact Steps.ite (hR.pure _) (ih _ _)

theorem shrinkChain_steps (fuel c : Nat) : Steps R (shrinkChain M fuel c) := by
  refine hR.bind (fat32NextCluster_steps hR c) (fun next => ?_)
  cases next with
  | none => exact hR.pure _
  | some next =>
      refine Steps.ite ?_ (hR.pure _)
      refine hR.bind (fat32WriteFatEntry_steps hR _ _) (fun _ => ?_)
      exact hR.bind (fat32FreeClusterChain_steps hR _ _) (fun _ => hR.pure _)

theorem writeStart_steps (fuel : Nat) (e : Slot) (size : Nat) :
    Steps R (writeStart M fuel e size) := by
  refine Steps.ite (hR.bind (fat32AllocCluster_steps hR _) (fun c => ?_)) (hR.pure _)
  exact Steps.ite (hR.pure _) (hR.pure _)

/-- What `FAT32_WriteFile` does behind its loop. -/
theorem writeFinish_steps (fuel d n c : Nat) (p : Prop) [Decidable p] (e e' : Slot) :
    Steps R (do
      if p then shrinkChain M fuel c
      let _ ← fat32WriteDirEntry M fuel d e
      return (n, e')) := by
  have hrest : Steps R (do
      let _ ← fat32WriteDirEntry M fuel d e
      return (n, e')) := hR.bindPure (fat32WriteDirEntry_steps hR _ _ _)
  refine Steps.ite ?_ hrest
  exact hR.bind (shrinkChain_steps hR _ _) (fun _ => hrest)

theorem fat32WriteFile_steps (fuel d : Nat) (e : Slot) (data : List UInt8) :
    Steps R (fat32WriteFile M fuel d e data) := by
  refine Steps.ite (hR.pure _) (hR.bind (writeStart_steps hR _ _ _) (fun start => ?_))
  cases start with
  | none => exact hR.pure _
  | some p =>
      obtain ⟨c, e⟩ := p
      refine hR.bind (writeLoop_steps hR _ _ _ _) (fun exit => ?_)
      cases exit with
      | early n => exact hR.pure _
      | done n c => exact writeFinish_steps hR _ _ _ _ _ _ _

theorem lastCluster_steps (fuel c : Nat) : Steps R (lastCluster M fuel c) := by
  induction fuel generalizing c with
  | zero => exact Steps.diverge
  | succ fuel ih =>
      refine hR.bind (fat32NextCluster_steps hR c) (fun next => ?_)
      cases next with
      | none => exact hR.pure _
      | some next => exact Steps.ite (hR.pure _) (ih _)

theorem appendLoop_steps (data : List UInt8) (fuel c off n : Nat) :
    Steps R (appendLoop M data fuel c off n) := by
  induction fuel generalizing c off n with
  | zero => exact Steps.diverge
  | succ fuel ih =>
      refine Steps.ite ?_ (hR.pure _)
      refine hR.bind (writeChunk_steps hR _ _ _ _) (fun _ => ?_)
      refine Steps.ite (hR.pure _) (hR.bind (fat32AllocCluster_steps hR _) (fun nc => ?_))
      refine Steps.ite (hR.pure _) ?_
      exact hR.bind (fat32WriteFatEntry_steps hR _ _) (fun _ => ih _ _ _)

theorem appendStart_steps (fuel : Nat) (e : Slot) : Steps R (appendStart M fuel e) := by
  refine Steps.ite (hR.bind (fat32AllocCluster_steps hR _) (fun c => ?_)) ?_
  · exact Steps.ite (hR.pure _) (hR.pure _)
  · refine hR.bind (lastCluster_steps hR _ _) (fun c => ?_)
    cases c with
    | none => exact hR.pure _
    | some c => exact hR.pure _

theorem appendRoom_steps (fuel c size : Nat) : Steps R (appendRoom M fuel c size) := by
  refine Steps.ite (hR.bind (fat32AllocCluster_steps hR _) (fun nc => ?_)) (hR.pure _)
  refine Steps.ite (hR.pure _) ?_
  exact hR.bind (fat32WriteFatEntry_steps hR _ _) (fun _ => hR.pure _)

theorem fat32AppendFile_steps (fuel d : Nat) (e : Slot) (data : List UInt8) :
    Steps R (fat32AppendFile M fuel d e data) := by
  refine Steps.ite (hR.pure _) (hR.bind (appendStart_steps hR _ _) (fun start => ?_))
  cases start with
  | none => exact hR.pure _
  | some p =>
      obtain ⟨c, e⟩ := p
      refine hR.bind (appendRoom_steps hR _ _ _) (fun room => ?_)
      cases room with
      | none => exact hR.pure _
      | some c =>
          refine hR.bind (appendLoop_steps hR _ _ _ _ _) (fun exit => ?_)
          cases exit with
          | early n => exact hR.pure _
          | done n c => exact hR.bindPure (fat32WriteDirEntry_steps hR _ _ _)

end Keeps

/-! ## The record of allocations -/

/-- The record of allocations before is the end of the record after. -/
def FsState.Grows (s s' : FsState) : Prop := s.allocs <:+ s'.allocs

/-- A driver call does not touch the record. -/
theorem ata_grows {α : Type} (m : Prog Channel α) : Steps FsState.Grows (ata m) := by
  intro s a s' h
  obtain ⟨ch, -, rfl⟩ := zoom_eq_some.mp h
  exact List.suffix_refl s.allocs

theorem Mount.keeps_grows (M : Mount) : M.Keeps FsState.Grows where
  refl s := List.suffix_refl s.allocs
  trans _ _ _ h1 h2 := h1.trans h2
  read _ _ _ _ := ata_grows _
  write _ _ _ _ _ := ata_grows _
  flush _ _ := ata_grows _
  take _ c := List.suffix_cons c _
  release s := List.suffix_refl s.allocs

/-- What holds of all clusters on record at the end of a run held of those on record before. -/
theorem grows_before {α : Type} {m : Prog FsState α} (h : Steps FsState.Grows m)
    {s s' : FsState} {a : α} (hrun : m s = some (a, s')) {P : Nat → Prop}
    (hP : ∀ c ∈ s'.allocs, P c) : ∀ c ∈ s.allocs, P c :=
  fun c hc => hP c ((h s a s' hrun).subset hc)

/-! ## No command fails -/

/-- No command will fail any more. -/
def FsState.Quiet (s s' : FsState) : Prop := s.faults = [] → s'.faults = []

theorem takeFault_quiet {ch : Channel} (h : ch.faults = []) : takeFault ch = (none, ch) := by
  rw [takeFault, h]

theorem Mount.keeps_quiet (M : Mount) : M.Keeps FsState.Quiet where
  refl _ h := h
  trans _ _ _ h1 h2 h := h2 (h1 h)
  read m lba n _ := by
    intro s p s' hrun hq
    obtain ⟨ch, hread, rfl⟩ := zoom_eq_some.mp hrun
    unfold ataRead at hread
    rw [takeFault_quiet hq] at hread
    split at hread
    · cases hread
      exact hq
    · cases hread
      exact hq
  write m lba n buf _ := by
    intro s a s' hrun hq
    obtain ⟨ch, hwrite, rfl⟩ := zoom_eq_some.mp hrun
    unfold ataWrite at hwrite
    rw [takeFault_quiet hq] at hwrite
    split at hwrite
    · cases hwrite
      exact hq
    · cases hwrite
      exact hq
  flush m _ := by
    intro s a s' hrun hq
    obtain ⟨ch, hflush, rfl⟩ := zoom_eq_some.mp hrun
    cases hflush
    exact hq
  take _ _ h := h
  release _ h := h

end Os003
