import Os003.Fs.Commands
import Os003.Fs.View

set_option autoImplicit false

/-! # Which drive the commands select

A channel carries two drives. The functions of the file system pass the drive of their disk by
hand, as `Disk->is_master` where they transfer clusters and as `&Disk->is_master` everywhere
else. A pointer converts to true, so on a slave disk the boot sector, the file allocation table
and the final flush go to the master.
-/

namespace Os003

open Prog

/-- The drive a command has selected. -/
def AtaEvent.drive : AtaEvent → Bool
  | .read m _ _ => m
  | .write m _ _ => m
  | .flush m => m

/-- From `s` to `s'` only the drive `m` has got commands, and the other one is unchanged. -/
def FsState.StaysOn (m : Bool) (s s' : FsState) : Prop :=
  (∃ new, s'.log = new ++ s.log ∧ ∀ ev ∈ new, ev.drive = m) ∧ s'.drive (!m) = s.drive (!m)

namespace FsState.StaysOn

variable {m : Bool}

theorem refl (s : FsState) : FsState.StaysOn m s s := ⟨⟨[], rfl, by simp⟩, rfl⟩

theorem trans (s t u : FsState) (h1 : FsState.StaysOn m s t) (h2 : FsState.StaysOn m t u) :
    FsState.StaysOn m s u := by
  obtain ⟨⟨new1, hlog1, hev1⟩, hd1⟩ := h1
  obtain ⟨⟨new2, hlog2, hev2⟩, hd2⟩ := h2
  refine ⟨⟨new2 ++ new1, ?_, ?_⟩, hd2.trans hd1⟩
  · rw [hlog2, hlog1, List.append_assoc]
  · intro ev hev
    rcases List.mem_append.mp hev with h | h
    · exact hev2 ev h
    · exact hev1 ev h

/-- One command to the drive `m`. -/
theorem command {s : FsState} {ch : Channel} {ev : AtaEvent} (hlog : ch.log = ev :: s.log)
    (hev : ev.drive = m) (hdrive : ch.drive (!m) = s.drive (!m)) :
    FsState.StaysOn m s { s with toChannel := ch } :=
  ⟨⟨[ev], hlog, by simp [hev]⟩, hdrive⟩

end FsState.StaysOn

/-! ## Driver calls -/

theorem takeFault_eq (ch : Channel) :
    ∃ f fs, takeFault ch = (f, { ch with faults := fs }) := by
  unfold takeFault
  cases ch.faults with
  | nil => exact ⟨_, _, rfl⟩
  | cons f fs => exact ⟨f, fs, rfl⟩

theorem ataRead_staysOn (m : Bool) (lba n : Nat) :
    Steps (FsState.StaysOn m) (ata (ataRead m lba n)) := by
  intro s a s' h
  obtain ⟨ch, hrun, rfl⟩ := zoom_eq_some.mp h
  unfold ataRead at hrun
  cases hc : ataCommand m lba n with
  | error code =>
      simp only [hc, Option.some.injEq, Prod.mk.injEq] at hrun
      rw [← hrun.2]
      exact FsState.StaysOn.refl s
  | ok driveByte =>
      have hsel := ataCommand_selects hc
      obtain ⟨f, fs, hf⟩ := takeFault_eq s.toChannel
      simp only [hc, hsel, hf] at hrun
      cases f with
      | none =>
          simp only [Option.some.injEq, Prod.mk.injEq] at hrun
          rw [← hrun.2]
          exact FsState.StaysOn.command rfl rfl rfl
      | some f =>
          simp only [Option.some.injEq, Prod.mk.injEq] at hrun
          rw [← hrun.2]
          exact FsState.StaysOn.command rfl rfl rfl

theorem ataWrite_staysOn (m : Bool) (lba n : Nat) (buf : List UInt8) :
    Steps (FsState.StaysOn m) (ata (ataWrite m lba n buf)) := by
  intro s a s' h
  obtain ⟨ch, hrun, rfl⟩ := zoom_eq_some.mp h
  -- the bytes written go to the drive selected
  have hother : ∀ (d : Bool → Nat → UInt8) (v : Nat → UInt8),
      Function.update d m v (!m) = d (!m) := by
    intro d v
    rw [Function.update_of_ne]
    cases m <;> decide
  unfold ataWrite at hrun
  cases hc : ataCommand m lba n with
  | error code =>
      simp only [hc, Option.some.injEq, Prod.mk.injEq] at hrun
      rw [← hrun.2]
      exact FsState.StaysOn.refl s
  | ok driveByte =>
      have hsel := ataCommand_selects hc
      obtain ⟨f, fs, hf⟩ := takeFault_eq s.toChannel
      simp only [hc, hsel, hf] at hrun
      cases f with
      | none =>
          simp only [Option.some.injEq, Prod.mk.injEq] at hrun
          rw [← hrun.2]
          exact FsState.StaysOn.command rfl rfl (hother _ _)
      | some f =>
          simp only [Option.some.injEq, Prod.mk.injEq] at hrun
          rw [← hrun.2]
          exact FsState.StaysOn.command rfl rfl (hother _ _)

theorem ataFlush_staysOn (m : Bool) : Steps (FsState.StaysOn m) (ata (ataFlushCache m)) := by
  intro s a s' h
  obtain ⟨ch, hrun, rfl⟩ := zoom_eq_some.mp h
  rw [ataFlushCache, modify_run, selectsMaster_flush] at hrun
  simp only [Option.some.injEq, Prod.mk.injEq] at hrun
  rw [← hrun.2]
  exact FsState.StaysOn.command rfl rfl rfl

/-- On a master disk both drive arguments name the drive of the disk. -/
theorem Mount.keeps_staysOn {M : Mount} (hm : M.disk.isMaster = true) :
    M.Keeps (FsState.StaysOn true) := by
  have harg : ∀ m, M.DriveArg m → m = true := by
    rintro m (h | h)
    · rw [h, hm]
    · rw [h, refAsBool]
  exact {
    refl := FsState.StaysOn.refl
    trans := FsState.StaysOn.trans
    read := fun m lba n h => harg m h ▸ ataRead_staysOn m lba n
    write := fun m lba n buf h => harg m h ▸ ataWrite_staysOn m lba n buf
    flush := fun m h => harg m h ▸ ataFlush_staysOn m
    take := fun s _ => FsState.StaysOn.refl s
    release := fun s => FsState.StaysOn.refl s }

/-! ## The operations -/

/-- The functions of the file system that issue commands. -/
inductive FsOp where
  | getInfo | nextCluster | readCluster | writeCluster | findEntry | readFile | findEntryAny
  | listDirectory | writeFatEntry | allocCluster | freeClusterChain | writeDirEntry | writeFile
  | appendFile | renameFile | createFile | createDir | isDirEmpty | removeDir | deleteFile
deriving DecidableEq, Repr

/-- A call of one of them, with all its arguments but `Disk`, `Partition` and `Info`. -/
inductive FsCall : FsOp → Type
  | getInfo : FsCall .getInfo
  | nextCluster (cluster : Nat) : FsCall .nextCluster
  | readCluster (cluster : Nat) : FsCall .readCluster
  | writeCluster (cluster : Nat) (buffer : List UInt8) : FsCall .writeCluster
  | findEntry (dirCluster : Nat) (filename : Name83) : FsCall .findEntry
  | readFile (entry : Slot) : FsCall .readFile
  | findEntryAny (dirCluster : Nat) (longName : List UInt8) : FsCall .findEntryAny
  | listDirectory (dirCluster : Nat) : FsCall .listDirectory
  | writeFatEntry (cluster value : Nat) : FsCall .writeFatEntry
  | allocCluster : FsCall .allocCluster
  | freeClusterChain (startCluster : Nat) : FsCall .freeClusterChain
  | writeDirEntry (dirCluster : Nat) (newEntry : Slot) : FsCall .writeDirEntry
  | writeFile (dirCluster : Nat) (entry : Slot) (data : List UInt8) : FsCall .writeFile
  | appendFile (dirCluster : Nat) (entry : Slot) (data : List UInt8) : FsCall .appendFile
  | renameFile (dirCluster : Nat) (oldName newName : List UInt8) : FsCall .renameFile
  | createFile (dirCluster : Nat) (filename : List UInt8) (rtc : RtcTime) : FsCall .createFile
  | createDir (dirCluster : Nat) (dirname : List UInt8) (rtc : RtcTime) : FsCall .createDir
  | isDirEmpty (startCluster : Nat) : FsCall .isDirEmpty
  | removeDir (dirCluster : Nat) (dirname : List UInt8) : FsCall .removeDir
  | deleteFile (dirCluster : Nat) (filename : List UInt8) : FsCall .deleteFile

/-- Run a call and forget its result. -/
def FsCall.run {op : FsOp} (M : Mount) (fuel : Nat) : FsCall op → Prog FsState Unit
  | .getInfo => do let _ ← ata (fat32GetInfo M.disk M.part)
  | .nextCluster c => do let _ ← fat32NextCluster M c
  | .readCluster c => do let _ ← fat32ReadCluster M c
  | .writeCluster c buf => do let _ ← fat32WriteCluster M c buf
  | .findEntry d n => do let _ ← fat32FindEntry M fuel d n
  | .readFile e => do let _ ← fat32ReadFile M fuel e
  | .findEntryAny d n => do let _ ← fat32FindEntryAny M fuel d n
  | .listDirectory d => do let _ ← fat32ListDirectory M fuel d
  | .writeFatEntry c v => do let _ ← fat32WriteFatEntry M c v
  | .allocCluster => do let _ ← fat32AllocCluster M fuel
  | .freeClusterChain c => do let _ ← fat32FreeClusterChain M fuel c
  | .writeDirEntry d e => do let _ ← fat32WriteDirEntry M fuel d e
  | .writeFile d e data => do let _ ← fat32WriteFile M fuel d e data
  | .appendFile d e data => do let _ ← fat32AppendFile M fuel d e data
  | .renameFile d o n => do let _ ← fat32RenameFile M fuel d o n
  | .createFile d n rtc => do let _ ← fat32CreateFile M fuel d n rtc
  | .createDir d n rtc => do let _ ← fat32CreateDir M fuel d n rtc
  | .isDirEmpty c => do let _ ← Os003.isDirEmpty M fuel c
  | .removeDir d n => do let _ ← fat32RemoveDir M fuel d n
  | .deleteFile d n => do let _ ← fat32DeleteFile M fuel d n

/-- Every call of `op` on `disk`, whatever the volume, the arguments, the state and the commands
that fail, sends all its commands to the drive of the disk. -/
def Isolated (disk : AtaDisk) (op : FsOp) : Prop :=
  ∀ (M : Mount) (call : FsCall op) (fuel : Nat) (s s' : FsState), M.disk = disk →
    call.run M fuel s = some ((), s') → FsState.StaysOn disk.isMaster s s'

/-- A relation that the elementary actions keep is kept by every call. -/
theorem FsCall.run_steps {M : Mount} {R : FsState → FsState → Prop} (hR : M.Keeps R) {op : FsOp}
    (call : FsCall op) (fuel : Nat) : Steps R (call.run M fuel) := by
  cases call with
  | getInfo => exact hR.bindPure (fat32GetInfo_steps hR)
  | nextCluster => exact hR.bindPure (fat32NextCluster_steps hR _)
  | readCluster => exact hR.bindPure (fat32ReadCluster_steps hR _)
  | writeCluster => exact hR.bindPure (fat32WriteCluster_steps hR _ _)
  | findEntry => exact hR.bindPure (fat32FindEntry_steps hR _ _ _)
  | readFile => exact hR.bindPure (fat32ReadFile_steps hR _ _)
  | findEntryAny => exact hR.bindPure (fat32FindEntryAny_steps hR _ _ _)
  | listDirectory => exact hR.bindPure (fat32ListDirectory_steps hR _ _)
  | writeFatEntry => exact hR.bindPure (fat32WriteFatEntry_steps hR _ _)
  | allocCluster => exact hR.bindPure (fat32AllocCluster_steps hR _)
  | freeClusterChain => exact hR.bindPure (fat32FreeClusterChain_steps hR _ _)
  | writeDirEntry => exact hR.bindPure (fat32WriteDirEntry_steps hR _ _ _)
  | writeFile => exact hR.bindPure (fat32WriteFile_steps hR _ _ _ _)
  | appendFile => exact hR.bindPure (fat32AppendFile_steps hR _ _ _ _)
  | renameFile => exact hR.bindPure (fat32RenameFile_steps hR _ _ _ _)
  | createFile => exact hR.bindPure (fat32CreateFile_steps hR _ _ _ _)
  | createDir => exact hR.bindPure (fat32CreateDir_steps hR _ _ _ _)
  | isDirEmpty => exact hR.bindPure (isDirEmpty_steps hR _ _)
  | removeDir => exact hR.bindPure (fat32RemoveDir_steps hR _ _ _)
  | deleteFile => exact hR.bindPure (fat32DeleteFile_steps hR _ _ _)

theorem readCluster_isolated (disk : AtaDisk) : Isolated disk .readCluster := by
  rintro M call fuel s s' rfl hrun
  cases call with
  | readCluster c =>
      obtain ⟨p, t, h1, h2⟩ := bind_eq_some.mp hrun
      obtain ⟨q, u, h3, h4⟩ := bind_eq_some.mp h1
      cases h4
      cases h2
      exact ataRead_staysOn _ _ _ s q _ h3

theorem writeCluster_isolated (disk : AtaDisk) : Isolated disk .writeCluster := by
  rintro M call fuel s s' rfl hrun
  cases call with
  | writeCluster c buf =>
      have hsteps : Steps (FsState.StaysOn M.disk.isMaster) (fat32WriteCluster M c buf) := by
        refine Steps.bind FsState.StaysOn.trans (ataWrite_staysOn _ _ _ _) (fun a => ?_)
        refine Steps.ite (Steps.pure FsState.StaysOn.refl _) ?_
        exact Steps.bind FsState.StaysOn.trans (ataFlush_staysOn _)
          (fun _ => Steps.pure FsState.StaysOn.refl _)
      obtain ⟨p, t, h1, h2⟩ := bind_eq_some.mp hrun
      cases h2
      exact hsteps s p _ h1

/-! ## Strays -/

/-- Two drives full of deleted slots, with the given faults to come. -/
def deletedState (faults : List (Option Fault)) : FsState where
  drive _ _ := 0xE5
  faults
  log := []
  free := FreeInfo.unknown
  allocs := []

/-- A command that fails at once. -/
def refusal : Option Fault := some { done := 0, junk := fun _ => 0, code := 0 }

def epoch : RtcTime := { second := 0, minute := 0, hour := 0, day := 1, month := 1, year := 0 }

/-- For each operation a call and the faults during it, so short that it can be run. -/
def FsOp.sample : (op : FsOp) → FsCall op × List (Option Fault)
  | .getInfo => (.getInfo, [refusal])
  | .nextCluster => (.nextCluster 2, [])
  | .readCluster => (.readCluster 2, [])
  | .writeCluster => (.writeCluster 2 [], [])
  | .findEntry => (.findEntry 2 (nameTo83 [65]), [none, refusal])
  | .readFile => (.readFile ((mkSfn (nameTo83 [65]) 0 epoch 2).setFileSize 1024), [none, refusal])
  | .findEntryAny => (.findEntryAny 2 [65], [none, refusal])
  | .listDirectory => (.listDirectory 2, [none, refusal])
  | .writeFatEntry => (.writeFatEntry 2 0, [refusal])
  | .allocCluster => (.allocCluster, [refusal])
  | .freeClusterChain => (.freeClusterChain 2, [refusal])
  | .writeDirEntry => (.writeDirEntry 2 (mkSfn (nameTo83 [65]) 0 epoch 2), [none, refusal])
  | .writeFile => (.writeFile 2 (mkSfn (nameTo83 [65]) 0 epoch 0) [66], [refusal])
  | .appendFile => (.appendFile 2 (mkSfn (nameTo83 [65]) 0 epoch 0) [66], [refusal])
  | .renameFile => (.renameFile 2 [65] [66], [none, refusal, refusal])
  | .createFile => (.createFile 2 [65] epoch, [none, refusal, refusal])
  | .createDir => (.createDir 2 [65] epoch, [none, refusal, refusal])
  | .isDirEmpty => (.isDirEmpty 2, [none, refusal])
  | .removeDir => (.removeDir 2 [65], [none, refusal])
  | .deleteFile => (.deleteFile 2 [65], [none, refusal])

/-- On a slave disk the sample call addresses the master. -/
def FsOp.strays (op : FsOp) (disk : AtaDisk) : Bool :=
  match op.sample.1.run (smallMount disk) 4 (deletedState op.sample.2) with
  | none => false
  | some (_, s') => s'.log.any (fun ev => ev.drive)

theorem FsOp.strays_slave (op : FsOp) (hr : op ≠ .readCluster) (hw : op ≠ .writeCluster)
    (p : Bool) : op.strays { isPrimary := p, isMaster := false } = true := by
  cases op with
  | readCluster => exact absurd rfl hr
  | writeCluster => exact absurd rfl hw
  | _ => cases p <;> decide +kernel

/-- So no other operation stays on the drive of a slave disk. -/
theorem not_isolated_slave {op : FsOp} (hr : op ≠ .readCluster) (hw : op ≠ .writeCluster)
    (p : Bool) : ¬ Isolated { isPrimary := p, isMaster := false } op := by
  intro h
  have hstray := op.strays_slave hr hw p
  unfold FsOp.strays at hstray
  cases hrun : op.sample.1.run (smallMount ⟨p, false⟩) 4 (deletedState op.sample.2) with
  | none =>
      rw [hrun] at hstray
      cases hstray
  | some q =>
      obtain ⟨u, s'⟩ := q
      rw [hrun] at hstray
      obtain ⟨⟨new, hlog, hev⟩, -⟩ := h _ _ _ _ _ rfl hrun
      have hnew : s'.log = new := by simpa [deletedState] using hlog
      -- some command has selected the master, all have selected the slave
      obtain ⟨ev, hmem, hdrive⟩ := List.any_eq_true.mp hstray
      have hev' := hev ev (hnew ▸ hmem)
      rw [hdrive] at hev'
      cases hev'

/-- The operations stay on the drive of their disk exactly when that is the master, but for the
two that transfer a cluster and nothing else. -/
theorem isolated_iff (disk : AtaDisk) (op : FsOp) :
    Isolated disk op ↔ disk.isMaster = true ∨ op = .readCluster ∨ op = .writeCluster := by
  constructor
  · intro h
    by_contra hcon
    push Not at hcon
    obtain ⟨hslave, hr, hw⟩ := hcon
    obtain ⟨p, m⟩ := disk
    have hm : m = false := by simpa using hslave
    subst hm
    exact not_isolated_slave hr hw p h
  · rintro (hm | rfl | rfl)
    · intro M call fuel s s' hdisk hrun
      rw [hm]
      have hM : M.disk.isMaster = true := by rw [hdisk, hm]
      exact FsCall.run_steps (Mount.keeps_staysOn hM) call fuel s () s' hrun
    · exact readCluster_isolated disk
    · exact writeCluster_isolated disk

/-- On a slave disk, looking up a name reads a sector of the master. -/
theorem findEntryAny_strays :
    ¬ ∀ (disk : AtaDisk) (op : FsOp), Isolated disk op := by
  intro h
  exact not_isolated_slave (by decide) (by decide) true (h _ .findEntryAny)

end Os003
