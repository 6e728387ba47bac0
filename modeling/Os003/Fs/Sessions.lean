import Os003.Fs.PathCalls
import Os003.Fs.TwoHandles
import Os003.Fs.TreeRuns

set_option autoImplicit false

/-! # Sessions

The functions of `fs.h` as a caller uses them: calls that take a path, and a `file_t` that is opened,
read, written and closed. `sessionRun_refines`: on a legible volume, whatever the order of the calls, what
they return is what a hierarchy by name with one open file replies, and the volume stays legible.

While a file is open, no call by path is made: the `file_t` holds a copy of the directory entry, and a call
that moves or removes the entry would leave it behind.
-/

namespace Os003

open FsMemory Hierarchy

/-! ## `ReadFile` and `WriteFile` -/

section

variable (M : Mount) (fuel : Nat)

/-- `ReadFile`: what is returned, and the buffer. -/
def readFile (file : FileT) : Prog FsState (Int × List UInt8) := do
  if file.status ≠ fileRead ∧ file.status ≠ fileRead ||| fileWrite then return (-1, [])
  match file.entry with
  | none => Prog.diverge
  | some (_, e) =>
      let (n, buffer) ← fat32ReadFile M fuel e
      return (Int.bmod n (2 ^ 32), buffer)

/-- `WriteFile`, like `AppendFile` but for the function of `fat32.c`. -/
def writeFile (file : FileT) (data : List UInt8) : Prog FsState (Int × FileT) := do
  if file.status ≠ fileWrite ∧ file.status ≠ fileRead ||| fileWrite then return (-1, file)
  match file.entry with
  | none => Prog.diverge
  | some (page, e) =>
      let (n, e) ← fat32WriteFile M fuel file.dirCluster e (data.take (u32 data.length))
      return (Int.bmod n (2 ^ 32), { file with entry := some (page, e) })

end

/-- What `ReadFile` does with a handle that is open for reading. -/
theorem readFile_eq_some {M : Mount} {fuel : Nat} {file : FileT} {r : Int} {buffer : List UInt8}
    {s s' : FsState} (hopen : file.status = fileRead ∨ file.status = fileRead ||| fileWrite)
    (hrun : readFile M fuel file s = some ((r, buffer), s')) :
    ∃ page e n, file.entry = some (page, e) ∧ fat32ReadFile M fuel e s = some ((n, buffer), s') ∧
      r = Int.bmod n (2 ^ 32) := by
  have hstatus : ¬ (file.status ≠ fileRead ∧ file.status ≠ fileRead ||| fileWrite) := by
    rintro ⟨h1, h2⟩
    exact hopen.elim h1 h2
  rw [readFile, if_neg hstatus] at hrun
  rcases hentry : file.entry with _ | ⟨page, e⟩
  · rw [hentry] at hrun
    cases hrun
  · rw [hentry] at hrun
    obtain ⟨⟨n, buf⟩, t, hread, hpure⟩ := Prog.bind_eq_some.mp hrun
    obtain ⟨hr, rfl⟩ := Prod.mk.inj (Option.some.inj hpure)
    obtain ⟨hcount, rfl⟩ := Prod.mk.inj hr
    exact ⟨page, e, n, rfl, hread, hcount.symm⟩

/-- What `WriteFile` does with a handle that is open for writing. -/
theorem writeFile_eq_some {M : Mount} {fuel : Nat} {file file' : FileT} {data : List UInt8} {r : Int}
    {s s' : FsState} (hopen : file.status = fileWrite ∨ file.status = fileRead ||| fileWrite)
    (hlen : data.length < 2 ^ 32) (hrun : writeFile M fuel file data s = some ((r, file'), s')) :
    ∃ page e n e', file.entry = some (page, e) ∧
      fat32WriteFile M fuel file.dirCluster e data s = some ((n, e'), s') ∧
      r = Int.bmod n (2 ^ 32) ∧ file' = { file with entry := some (page, e') } := by
  have hstatus : ¬ (file.status ≠ fileWrite ∧ file.status ≠ fileRead ||| fileWrite) := by
    rintro ⟨h1, h2⟩
    exact hopen.elim h1 h2
  have htake : data.take (u32 data.length) = data := by
    rw [u32, Nat.mod_eq_of_lt hlen, List.take_length]
  rw [writeFile, if_neg hstatus, htake] at hrun
  rcases hentry : file.entry with _ | ⟨page, e⟩
  · rw [hentry] at hrun
    cases hrun
  · rw [hentry] at hrun
    obtain ⟨⟨n, e'⟩, t, hwrite, hpure⟩ := Prog.bind_eq_some.mp hrun
    obtain ⟨hr, rfl⟩ := Prod.mk.inj (Option.some.inj hpure)
    obtain ⟨hcount, hfile⟩ := Prod.mk.inj hr
    exact ⟨page, e, n, e', rfl, hwrite, hcount.symm, hfile.symm⟩

/-- A count that is an `int` is returned as it is. -/
theorem bmod_count {n : Nat} (hn : n < 2 ^ 31) : Int.bmod n (2 ^ 32) = n := by
  rw [Int.bmod_def, Int.emod_eq_of_lt (by omega) (by omega), if_pos (by omega)]

theorem le_of_bmod {n k : Nat} (h : Int.bmod n (2 ^ 32) = k) : k ≤ n := by
  rw [Int.bmod_def] at h
  split at h <;> omega

/-- The status lets `ReadFile`, or `WriteFile` and `AppendFile`, go on. -/
def FileT.Reads (file : FileT) : Prop := file.status = fileRead ∨ file.status = fileRead ||| fileWrite

def FileT.Writes (file : FileT) : Prop := file.status = fileWrite ∨ file.status = fileRead ||| fileWrite

theorem FileT.Reads.ne_zero {file : FileT} (h : file.Reads) : file.status ≠ 0 := by
  rcases h with h | h <;>
  · rw [h]
    decide

theorem FileT.Writes.ne_zero {file : FileT} (h : file.Writes) : file.status ≠ 0 := by
  rcases h with h | h <;>
  · rw [h]
    decide

instance (file : FileT) : Decidable file.Reads := inferInstanceAs (Decidable (_ ∨ _))

instance (file : FileT) : Decidable file.Writes := inferInstanceAs (Decidable (_ ∨ _))

/-! ## Requests -/

/-- The drives and the pages, and the `file_t` of the caller. -/
structure FsSession where
  mem : FsMemory
  file : FileT

inductive FsRequest
  | createFile (path : List UInt8) (rtc : RtcTime)
  | createDir (path : List UInt8) (rtc : RtcTime)
  | deleteFile (path : List UInt8)
  | removeDir (path : List UInt8)
  | renameFile (path newName : List UInt8)
  | openFile (path : List UInt8) (mode : Nat)
  | readFile
  | writeFile (data : List UInt8)
  | appendFile (data : List UInt8)
  | closeFile

namespace FsSession

variable {α : Type}

def onMemory (m : Prog FsMemory α) : Prog FsSession α :=
  Prog.zoom FsSession.mem (fun m x => { x with mem := m }) m

def setFile (file : FileT) : Prog FsSession Unit := Prog.modify fun x => { x with file := file }

/-- A call that takes a path, with its status. -/
def status (m : Prog FsMemory Nat) : Prog FsSession Returned := do
  let r ← onMemory m
  return .status r

/-- A call that changes the open file, with the count it returns. -/
def count (m : FileT → Prog FsState (Int × FileT)) : Prog FsSession Returned := do
  let x ← Prog.get
  let (n, file) ← onMemory (onDisk (m x.file))
  setFile file
  return .status n

end FsSession

open FsSession

/-- The request is carried out. -/
def FsRequest.run (M : Mount) (fuel : Nat) (nullName : List UInt8) : FsRequest → Prog FsSession Returned
  | .createFile path rtc => FsSession.status (FsMemory.createFile M fuel path rtc)
  | .createDir path rtc => FsSession.status (FsMemory.createDir M fuel path rtc)
  | .deleteFile path => FsSession.status (FsMemory.deleteFile M fuel path)
  | .removeDir path => FsSession.status (FsMemory.removeDir M fuel path)
  | .renameFile path newName => do
      let r ← onMemory (FsMemory.renameFile M fuel nullName path newName)
      return .status r
  | .openFile path mode => do
      let file ← onMemory (FsMemory.openFile M fuel path mode)
      setFile file
      return .file file.entry.isSome
  | .readFile => do
      let x ← Prog.get
      let (n, buffer) ← onMemory (onDisk (Os003.readFile M fuel x.file))
      return if n < 0 then .status n else .data (buffer.take n.toNat)
  | .writeFile data => FsSession.count fun file => Os003.writeFile M fuel file data
  | .appendFile data => FsSession.count fun file => Os003.appendFile M fuel file data
  | .closeFile => do
      setFile FileT.closed
      return .void

/-- What is asked of the hierarchy. -/
def FsRequest.toRequest : FsRequest → Request Name83 UInt8
  | .createFile path _ => .call (pathNames path) (nameTo83 (lastComponent path)) (.create false)
  | .createDir path _ => .call (pathNames path) (nameTo83 (lastComponent path)) (.create true)
  | .deleteFile path => .call (pathNames path) (nameTo83 (lastComponent path)) (.remove false)
  | .removeDir path => .call (pathNames path) (nameTo83 (lastComponent path)) (.remove true)
  | .renameFile path newName =>
      .call (pathNames path) (nameTo83 (lastComponent path)) (.rename (nameTo83 newName))
  | .openFile path mode => .open (pathNames path) (nameTo83 (lastComponent path))
      (decide (mode = fileRead ∨ mode = fileRead ||| fileWrite))
      (decide (mode = fileWrite ∨ mode = fileRead ||| fileWrite))
  | .readFile => .onFile .read
  | .writeFile data => .onFile (.overwrite data)
  | .appendFile data => .onFile (.append data)
  | .closeFile => .close

/-- How the reply to a request is returned. -/
def Returned.ofRequest : Request Name83 UInt8 → TreeReply → Returned
  | .call _ _ call, reply => Returned.of call reply
  | .onFile call, reply => Returned.of call reply
  | .open _ _ _ _, .done => .file true
  | .open _ _ _ _, _ => .file false
  | .close, _ => .void

/-- No file is open, and `OpenFile` gets its page for a path that it can go along. -/
structure FsSession.Ready (x : FsSession) (path : List UInt8) : Prop where
  plain : PlainPath path
  closed : x.file = FileT.closed
  page : (pmmMalloc 1 x.mem.regions).1 ≠ 0

/-- The directory at the end of the path has room for one more entry. -/
def FsSession.Room (M : Mount) (x : FsSession) (path : List UInt8) : Prop :=
  ∀ o dl, (M.tree (M.view x.mem.disk)).Leads none (pathNames path) o →
    M.FileOn (M.view x.mem.disk) (M.startOf (M.view x.mem.disk) o) dl →
      M.Room (M.view x.mem.disk) dl (lastComponent path)

/-- What a request may count on, with what it returns: names can be found again, what is created has room,
a write goes through to the end and frees no cluster that the size still counts. -/
def FsRequest.Meets (M : Mount) (x : FsSession) : FsRequest → Returned → Prop
  | .createFile path _, _ | .createDir path _, _ =>
      x.Ready path ∧ path.head? = some slash ∧ Spellable (lastComponent path) ∧ x.Room M path
  | .deleteFile path, _ | .removeDir path, _ => x.Ready path ∧ path.head? = some slash
  | .renameFile path newName, _ => x.Ready path ∧ slash ∉ newName ∧ Spellable newName ∧
      ∃ o, (M.tree (M.view x.mem.disk)).Leads none (pathNames path) o ∧
        ¬ (M.tree (M.view x.mem.disk)).Fresh o (nameTo83 (lastComponent path))
  | .openFile path _, _ => x.Ready path
  | .writeFile data, ret => data.length + M.clusterSize ≤ 2 ^ 31 ∧
      ∀ page e, x.file.entry = some (page, e) → x.file.Writes → e.isDirectory = false →
        ret = .status data.length ∧ M.clustersFor e.fileSize ≤ max 1 (M.clustersFor data.length)
  | .appendFile data, ret => data.length + M.clusterSize ≤ 2 ^ 31 ∧
      ∀ page e, x.file.entry = some (page, e) → x.file.Writes → e.isDirectory = false →
        ret = .status data.length ∧ e.fileSize + data.length + M.clusterSize ≤ 2 ^ 31
  | .readFile, _ | .closeFile, _ => True

/-- A request and what it returns. -/
structure SessionStep (M : Mount) (nullName : List UInt8) (l : FsRequest × Returned)
    (x x' : FsSession) : Prop where
  run : ∃ fuel, l.1.run M fuel nullName x = some (l.2, x')
  meets : l.1.Meets M x l.2

/-- A hierarchy with one open file replies what is returned. -/
def Replies (l : FsRequest × Returned) (S S' : Session (Nat × Nat) Name83 UInt8) : Prop :=
  ∃ reply, Returned.ofRequest l.1.toRequest reply = l.2 ∧ S.Serves l.1.toRequest reply S'

/-! ## What every request does to the state -/

section Steps

variable {M : Mount} {R : FsState → FsState → Prop} (hR : M.Keeps R) (fuel : Nat)

omit hR in
theorem onDisk_steps {α : Type} {m : Prog FsState α} (h : Prog.Steps R m) :
    Prog.Steps (fun x y => R x.disk y.disk) (onDisk m) := by
  intro x a y hrun
  obtain ⟨t, hm, rfl⟩ := Prog.zoom_eq_some.mp hrun
  exact h _ _ _ hm

omit hR in
theorem onMemory_steps {α : Type} {m : Prog FsMemory α}
    (h : Prog.Steps (fun x y => R x.disk y.disk) m) :
    Prog.Steps (fun x y => R x.mem.disk y.mem.disk) (onMemory m) := by
  intro x a y hrun
  obtain ⟨t, hm, rfl⟩ := Prog.zoom_eq_some.mp hrun
  exact h _ _ _ hm

include hR

theorem setFile_steps (file : FileT) : Prog.Steps (fun x y => R x.mem.disk y.mem.disk) (setFile file) :=
  Prog.Steps.modify fun _ => hR.refl _

theorem openLoop_steps (n : Nat) (p : List UInt8) (current : Nat) (found : Option (Slot × List UInt8)) :
    Prog.Steps R (openLoop M fuel n p current found) := by
  induction n generalizing p current found with
  | zero => exact Prog.Steps.diverge
  | succ n ih =>
      rw [openLoop]
      refine Prog.Steps.ite (hR.pure _) ?_
      dsimp only
      split
      · split
        · exact hR.pure _
        · exact ih _ _ _
      · refine hR.bind (fat32FindEntryAny_steps hR _ _ _) fun r => ?_
        split
        · split
          · exact ih _ _ _
          · exact Prog.Steps.ite (hR.pure _) (ih _ _ _)
        · exact hR.pure _

theorem mallocPage_steps : Prog.Steps (fun x y => R x.disk y.disk) mallocPage := by
  rintro x a y ⟨⟩
  exact hR.refl _

theorem openFile_steps (path : List UInt8) (mode : Nat) :
    Prog.Steps (fun x y => R x.disk y.disk) (FsMemory.openFile M fuel path mode) := by
  have hpure : ∀ file : FileT, Prog.Steps (fun x y : FsMemory => R x.disk y.disk) (pure file) :=
    fun file => Prog.Steps.pure (fun x => hR.refl x.disk) file
  have hbind : ∀ x y z : FsMemory, R x.disk y.disk → R y.disk z.disk → R x.disk z.disk :=
    fun _ _ _ => hR.trans _ _ _
  rw [FsMemory.openFile]
  refine Prog.Steps.ite (hpure _) ?_
  refine Prog.Steps.ite (Prog.Steps.bind hbind (mallocPage_steps hR) fun _ => hpure _) ?_
  refine Prog.Steps.bind hbind (onDisk_steps (openLoop_steps hR _ _ _ _ _)) fun r => ?_
  split
  · exact hpure _
  · exact hpure _
  · exact Prog.Steps.bind hbind (mallocPage_steps hR) fun _ => Prog.Steps.ite (hpure _) (hpure _)

theorem inParent_steps {f : Nat → List UInt8 → Prog FsState Nat} (hf : ∀ d name, Prog.Steps R (f d name))
    (path : List UInt8) : Prog.Steps (fun x y => R x.disk y.disk) (inParent M fuel f path) := by
  have hpure : ∀ r : Nat, Prog.Steps (fun x y : FsMemory => R x.disk y.disk) (pure r) :=
    fun r => Prog.Steps.pure (fun x => hR.refl x.disk) r
  have hbind : ∀ x y z : FsMemory, R x.disk y.disk → R y.disk z.disk → R x.disk z.disk :=
    fun _ _ _ => hR.trans _ _ _
  unfold inParent
  split
  · exact hpure _
  · refine Prog.Steps.bind hbind (openFile_steps hR fuel _ _) fun file => ?_
    split
    · exact hpure _
    · refine Prog.Steps.ite (hpure _) ?_
      refine Prog.Steps.bind hbind (Prog.Steps.modify fun _ => hR.refl _) fun _ => ?_
      exact onDisk_steps (hf _ _)

theorem renameFile_steps (nullName path newName : List UInt8) :
    Prog.Steps (fun x y => R x.disk y.disk) (FsMemory.renameFile M fuel nullName path newName) := by
  have hpure : ∀ r : Int, Prog.Steps (fun x y : FsMemory => R x.disk y.disk) (pure r) :=
    fun r => Prog.Steps.pure (fun x => hR.refl x.disk) r
  have hbind : ∀ x y z : FsMemory, R x.disk y.disk → R y.disk z.disk → R x.disk z.disk :=
    fun _ _ _ => hR.trans _ _ _
  refine Prog.Steps.bind hbind (openFile_steps hR fuel _ _) fun file => ?_
  refine Prog.Steps.ite (hpure _) ?_
  exact Prog.Steps.bind hbind (onDisk_steps (fat32RenameFile_steps hR _ _ _ _)) fun _ => hpure _

theorem readFile_steps (file : FileT) : Prog.Steps R (Os003.readFile M fuel file) := by
  refine Prog.Steps.ite (hR.pure _) ?_
  split
  · exact Prog.Steps.diverge
  · exact hR.bindPure (fat32ReadFile_steps hR _ _)

theorem writeFile_steps (file : FileT) (data : List UInt8) :
    Prog.Steps R (Os003.writeFile M fuel file data) := by
  refine Prog.Steps.ite (hR.pure _) ?_
  split
  · exact Prog.Steps.diverge
  · exact hR.bindPure (fat32WriteFile_steps hR _ _ _ _)

theorem appendFile_steps (file : FileT) (data : List UInt8) :
    Prog.Steps R (Os003.appendFile M fuel file data) := by
  refine Prog.Steps.ite (hR.pure _) ?_
  split
  · exact Prog.Steps.diverge
  · exact hR.bindPure (fat32AppendFile_steps hR _ _ _ _)

theorem FsRequest.run_steps (nullName : List UInt8) (q : FsRequest) :
    Prog.Steps (fun x y => R x.mem.disk y.mem.disk) (q.run M fuel nullName) := by
  have hpure : ∀ r : Returned, Prog.Steps (fun x y : FsSession => R x.mem.disk y.mem.disk) (pure r) :=
    fun r => Prog.Steps.pure (fun x => hR.refl x.mem.disk) r
  have hbind : ∀ x y z : FsSession, R x.mem.disk y.mem.disk → R y.mem.disk z.mem.disk →
      R x.mem.disk z.mem.disk := fun _ _ _ => hR.trans _ _ _
  have hget : Prog.Steps (fun x y : FsSession => R x.mem.disk y.mem.disk) Prog.get :=
    Prog.Steps.get fun x => hR.refl x.mem.disk
  have hstatus : ∀ m : Prog FsMemory Nat, Prog.Steps (fun x y => R x.disk y.disk) m →
      Prog.Steps (fun x y : FsSession => R x.mem.disk y.mem.disk) (FsSession.status m) := fun m hm =>
    Prog.Steps.bind hbind (onMemory_steps hm) fun _ => hpure _
  have hcount : ∀ m : FileT → Prog FsState (Int × FileT), (∀ file, Prog.Steps R (m file)) →
      Prog.Steps (fun x y : FsSession => R x.mem.disk y.mem.disk) (FsSession.count m) := fun m hm =>
    Prog.Steps.bind hbind hget fun x => Prog.Steps.bind hbind (onMemory_steps (onDisk_steps (hm _)))
      fun r => Prog.Steps.bind hbind (setFile_steps hR _) fun _ => hpure _
  cases q with
  | createFile path rtc =>
      exact hstatus _ (inParent_steps hR fuel (fun d name => fat32CreateFile_steps hR _ _ _ _) path)
  | createDir path rtc =>
      exact hstatus _ (inParent_steps hR fuel (fun d name => fat32CreateDir_steps hR _ _ _ _) path)
  | deleteFile path =>
      exact hstatus _ (inParent_steps hR fuel (fun d name => fat32DeleteFile_steps hR _ _ _) path)
  | removeDir path =>
      exact hstatus _ (inParent_steps hR fuel (fun d name => fat32RemoveDir_steps hR _ _ _) path)
  | renameFile path newName =>
      exact Prog.Steps.bind hbind (onMemory_steps (renameFile_steps hR fuel _ _ _)) fun _ => hpure _
  | openFile path mode =>
      refine Prog.Steps.bind hbind (onMemory_steps (openFile_steps hR fuel _ _)) fun file => ?_
      exact Prog.Steps.bind hbind (setFile_steps hR _) fun _ => hpure _
  | readFile =>
      refine Prog.Steps.bind hbind hget fun x => ?_
      exact Prog.Steps.bind hbind (onMemory_steps (onDisk_steps (readFile_steps hR _ _))) fun _ => hpure _
  | writeFile data => exact hcount _ fun file => writeFile_steps hR fuel file data
  | appendFile data => exact hcount _ fun file => appendFile_steps hR fuel file data
  | closeFile => exact Prog.Steps.bind hbind (setFile_steps hR _) fun _ => hpure _

end Steps

/-! ## What the session stands for -/

/-- The caller's `file_t` and the open file of the hierarchy. -/
inductive Mount.Opens (M : Mount) (x : FsSession) : Option (Opened Name83) → Prop
  | closed (h : x.file = FileT.closed) : M.Opens x none
  | open {page : Nat} {e : Slot} {names : List Name83} {name : Name83}
      (hentry : x.file.entry = some (page, e))
      (h : M.IsOpen (M.view x.mem.disk) names name x.file.dirCluster e) :
      M.Opens x (some ⟨names, name, decide x.file.Reads, decide x.file.Writes⟩)

/-- A `file_t` with a status that is not `FILE_CLOSED` has its entry. -/
theorem Mount.Opens.entry {M : Mount} {x : FsSession} {file : Option (Opened Name83)} (h : M.Opens x file)
    (hstatus : x.file.status ≠ 0) : ∃ page e names name, x.file.entry = some (page, e) ∧
      M.IsOpen (M.view x.mem.disk) names name x.file.dirCluster e ∧
      file = some ⟨names, name, decide x.file.Reads, decide x.file.Writes⟩ := by
  cases h with
  | closed hclosed =>
      rw [hclosed] at hstatus
      exact absurd rfl hstatus
  | «open» hentry hopen => exact ⟨_, _, _, _, hentry, hopen, rfl⟩

theorem Mount.Opens.mode {M : Mount} {x : FsSession} {f : Opened Name83} (h : M.Opens x (some f)) :
    f.reads = decide x.file.Reads ∧ f.writes = decide x.file.Writes := by
  cases h with
  | «open» _ _ => exact ⟨rfl, rfl⟩

structure Mount.Represents (M : Mount) (x : FsSession) (S : Session (Nat × Nat) Name83 UInt8) : Prop where
  quiet : x.mem.disk.faults = []
  legible : M.Legible (M.view x.mem.disk)
  tree : S.tree = M.tree (M.view x.mem.disk)
  file : M.Opens x S.file

section Represents

variable {M : Mount} {x x' : FsSession} {S : Session (Nat × Nat) Name83 UInt8} {names : List Name83}
  {name : Name83} {call : TreeCall} {ret : Returned} (h : M.Represents x S)
include h

theorem Mount.Represents.at : M.At x.mem.disk (M.view x.mem.disk) x.mem.disk.allocs := ⟨h.quiet, rfl, rfl⟩

theorem Mount.Represents.notOpen (hclosed : x.file = FileT.closed) :
    S = ⟨M.tree (M.view x.mem.disk), none⟩ := by
  obtain ⟨T, file⟩ := S
  obtain rfl := h.tree
  have hfile : M.Opens x file := h.file
  cases hfile with
  | closed _ => rfl
  | «open» hentry _ =>
      rw [hclosed] at hentry
      cases hentry

/-- A call by path. -/
theorem Mount.Represents.called (hclosed : x.file = FileT.closed) (hfile : x'.file = x.file)
    (hanswered : M.Answered (M.view x.mem.disk) names name call ret x'.mem.disk) :
    ∃ S', M.Represents x' S' ∧ ∃ reply, Returned.of call reply = ret ∧
      S.Serves (.call names name call) reply S' := by
  obtain ⟨reply, hret, hanswer⟩ := hanswered.answer
  refine ⟨⟨M.tree (M.view x'.mem.disk), none⟩, ⟨hanswered.quiet, hanswered.legible, rfl,
    .closed (hfile.trans hclosed)⟩, reply, hret, ?_⟩
  rw [h.notOpen hclosed]
  exact .call hanswer

/-- A call on the open file that its mode permits. -/
theorem Mount.Represents.onFile {f : Opened Name83} (hS : S.file = some f)
    (hperm : call.Permitted f.reads f.writes)
    (hanswered : M.Answered (M.view x.mem.disk) f.names f.name call ret x'.mem.disk)
    (hopens : M.Opens x' (some f)) :
    ∃ S', M.Represents x' S' ∧ ∃ reply, Returned.of call reply = ret ∧
      S.Serves (.onFile call) reply S' := by
  obtain ⟨reply, hret, hanswer⟩ := hanswered.answer
  obtain ⟨T, file⟩ := S
  obtain rfl := h.tree
  obtain rfl := hS
  exact ⟨⟨M.tree (M.view x'.mem.disk), some f⟩, ⟨hanswered.quiet, hanswered.legible, rfl, hopens⟩, reply,
    hret, .onFile hperm hanswer⟩

/-- A call on the open file that its mode does not permit. -/
theorem Mount.Represents.refused (hperm : ∀ f, S.file = some f → ¬ call.Permitted f.reads f.writes) :
    ∃ S', M.Represents x S' ∧ ∃ reply, Returned.of call reply = .status (-1) ∧
      S.Serves (.onFile call) reply S' := by
  refine ⟨S, h, .refused, ?_, .refused hperm⟩
  cases call <;> rfl

end Represents

section Refines

variable {M : Mount} (hM : M.Sound) {x x' : FsSession} {S : Session (Nat × Nat) Name83 UInt8}
  {fuel : Nat} {nullName path : List UInt8} {ret : Returned} (h : M.Represents x S)
include hM h

omit hM in
/-- A status is an answer for the memory that the call leaves. -/
theorem status_refines {m : Prog FsMemory Nat} {names : List Name83} {name : Name83} {call : TreeCall}
    (hclosed : x.file = FileT.closed)
    (hm : ∀ r y, m x.mem = some (r, y) → y = x'.mem →
      M.Answered (M.view x.mem.disk) names name call (.status r) y.disk)
    (hrun : FsSession.status m x = some (ret, x')) :
    ∃ S', M.Represents x' S' ∧ ∃ reply, Returned.of call reply = ret ∧
      S.Serves (.call names name call) reply S' := by
  obtain ⟨r, y, hmem, hret⟩ := Prog.bind_eq_some.mp hrun
  obtain ⟨z, hz, rfl⟩ := Prog.zoom_eq_some.mp hmem
  cases hret
  exact h.called hclosed rfl (hm r z hz rfl)

theorem createFile_refines {rtc : RtcTime} (hmeets : (FsRequest.createFile path rtc).Meets M x ret)
    (hrun : (FsRequest.createFile path rtc).run M fuel nullName x = some (ret, x')) :
    ∃ S', M.Represents x' S' ∧ Replies (.createFile path rtc, ret) S S' := by
  obtain ⟨hready, habs, hname, hroom⟩ := hmeets
  refine status_refines h hready.closed (fun r y hm _ => ?_) hrun
  refine inParent_answered hM h.legible h.at hready.plain hready.page habs rfl
    (fun o t ht hd ho hcall => ?_) hm
  exact createFile_answered hM h.legible ht ho hd.present hd.isDir hname
    (fun dl hdl => hroom o dl ho hdl) hcall

theorem createDir_refines {rtc : RtcTime} (hmeets : (FsRequest.createDir path rtc).Meets M x ret)
    (hrun : (FsRequest.createDir path rtc).run M fuel nullName x = some (ret, x'))
    (halloc : ∀ c ∈ x'.mem.disk.allocs, M.InRange c) :
    ∃ S', M.Represents x' S' ∧ Replies (.createDir path rtc, ret) S S' := by
  obtain ⟨hready, habs, hname, hroom⟩ := hmeets
  refine status_refines h hready.closed (fun r y hm hy => ?_) hrun
  refine inParent_answered hM h.legible h.at hready.plain hready.page habs rfl
    (fun o t ht hd ho hcall => ?_) hm
  exact createDir_answered hM h.legible ht ho hd.present hd.isDir hname
    (fun dl hdl => hroom o dl ho hdl) hcall
    (by rw [hy]; exact halloc)

theorem deleteFile_refines (hmeets : (FsRequest.deleteFile path).Meets M x ret)
    (hrun : (FsRequest.deleteFile path).run M fuel nullName x = some (ret, x')) :
    ∃ S', M.Represents x' S' ∧ Replies (.deleteFile path, ret) S S' := by
  obtain ⟨hready, habs⟩ := hmeets
  refine status_refines h hready.closed (fun r y hm _ => ?_) hrun
  refine inParent_answered hM h.legible h.at hready.plain hready.page habs rfl
    (fun o t ht hd ho hcall => ?_) hm
  exact deleteFile_answered hM h.legible ht ho hd.present hd.isDir hcall

theorem removeDir_refines (hmeets : (FsRequest.removeDir path).Meets M x ret)
    (hrun : (FsRequest.removeDir path).run M fuel nullName x = some (ret, x')) :
    ∃ S', M.Represents x' S' ∧ Replies (.removeDir path, ret) S S' := by
  obtain ⟨hready, habs⟩ := hmeets
  refine status_refines h hready.closed (fun r y hm _ => ?_) hrun
  refine inParent_answered hM h.legible h.at hready.plain hready.page habs rfl
    (fun o t ht hd ho hcall => ?_) hm
  exact removeDir_answered hM h.legible ht ho hd.present hd.isDir hcall

theorem renameFile_refines {newName : List UInt8}
    (hmeets : (FsRequest.renameFile path newName).Meets M x ret)
    (hrun : (FsRequest.renameFile path newName).run M fuel nullName x = some (ret, x')) :
    ∃ S', M.Represents x' S' ∧ Replies (.renameFile path newName, ret) S S' := by
  obtain ⟨hready, hslash, hname, o, ho, hold⟩ := hmeets
  obtain ⟨r, y, hmem, hret⟩ := Prog.bind_eq_some.mp hrun
  obtain ⟨z, hz, rfl⟩ := Prog.zoom_eq_some.mp hmem
  cases hret
  obtain ⟨file, u, hopen, hrest⟩ := Prog.bind_eq_some.mp hz
  obtain ⟨hu, ⟨p, dl, c, i, l, page, hleads, hat, hcalled, rfl⟩ | ⟨-, hnone⟩⟩ :=
    openFile_opens hM h.legible h.at hready.plain hready.page hopen
  · rw [if_neg hslash] at hrest
    obtain ⟨st, v, hdisk, hret⟩ := Prog.bind_eq_some.mp hrest
    obtain ⟨t, hrename, rfl⟩ := Prog.zoom_eq_some.mp hdisk
    cases hret
    have hnode := hat.called h.legible.neat.tidy
    rw [hcalled] at hnode
    refine h.called hready.closed rfl ?_
    exact renameFile_answered hM h.legible hu hleads hat.parent hat.dir hname
      (fun hfresh => hfresh _ _ hnode.node hnode.parent hnode.name) hrename
  · exact absurd (hnone o ho) hold

theorem openFile_refines {mode : Nat} (hmeets : (FsRequest.openFile path mode).Meets M x ret)
    (hrun : (FsRequest.openFile path mode).run M fuel nullName x = some (ret, x')) :
    ∃ S', M.Represents x' S' ∧ Replies (.openFile path mode, ret) S S' := by
  obtain ⟨file, y, hmem, hrest⟩ := Prog.bind_eq_some.mp hrun
  obtain ⟨z, hopen, rfl⟩ := Prog.zoom_eq_some.mp hmem
  cases hrest
  have hview := (openFile_opens hM h.legible h.at hmeets.plain hmeets.page hopen).1
  have hS := h.notOpen hmeets.closed
  obtain ⟨-, ⟨p, dl, c, i, l, page, hleads, hat, hcalled, rfl⟩ | ⟨rfl, hnone⟩⟩ :=
    openFile_opens hM h.legible h.at hmeets.plain hmeets.page hopen
  · have hnode := hat.called h.legible.neat.tidy
    rw [hcalled] at hnode
    have hisOpen : M.IsOpen (M.view z.disk) (pathNames path) (nameTo83 (lastComponent path))
        (M.startOf (M.view x.mem.disk) p) ((M.view x.mem.disk).slot c i) := by
      rw [hview.view]
      exact ⟨p, dl, c, i, l, hleads, hat, hcalled, rfl, fun _ => rfl⟩
    refine ⟨⟨M.tree (M.view z.disk), some ⟨pathNames path, nameTo83 (lastComponent path), _, _⟩⟩,
      ⟨hview.quiet, ?_, rfl, .open rfl hisOpen⟩, .done, rfl, ?_⟩
    · rw [hview.view]
      exact h.legible
    · rw [hS, hview.view]
      exact .opened hleads hnode
  · refine ⟨⟨M.tree (M.view z.disk), none⟩, ⟨hview.quiet, ?_, rfl, .closed rfl⟩, .missing, rfl, ?_⟩
    · rw [hview.view]
      exact h.legible
    · rw [hS, hview.view]
      exact .notOpened hnone

theorem readFile_refines (hrun : FsRequest.readFile.run M fuel nullName x = some (ret, x')) :
    ∃ S', M.Represents x' S' ∧ Replies (.readFile, ret) S S' := by
  obtain ⟨x0, x1, hget, hrest⟩ := Prog.bind_eq_some.mp hrun
  cases hget
  obtain ⟨⟨n, buffer⟩, y, hmem, hret⟩ := Prog.bind_eq_some.mp hrest
  obtain ⟨z, hz, rfl⟩ := Prog.zoom_eq_some.mp hmem
  obtain ⟨t, hread, rfl⟩ := Prog.zoom_eq_some.mp hz
  by_cases hmode : x.file.Reads
  · obtain ⟨page, e, m, hentry, hfat, hcount⟩ := readFile_eq_some hmode hread
    obtain ⟨page', e', names, name, hentry', hopen, hS⟩ := h.file.entry hmode.ne_zero
    obtain ⟨rfl, rfl⟩ := Prod.mk.inj (Option.some.inj (hentry.symm.trans hentry'))
    obtain ⟨hanswered, hview, hlt⟩ := readFile_answered hM h.legible h.at hopen hfat
    rw [bmod_count hlt] at hcount
    subst hcount
    have hnonneg : ¬ (m : Int) < 0 := by omega
    simp only [if_neg hnonneg, Int.toNat_natCast, Prog.pure_run] at hret
    obtain ⟨rfl, rfl⟩ := Prod.mk.inj (Option.some.inj hret)
    refine h.onFile hS (decide_eq_true hmode) hanswered (.open hentry ?_)
    show M.IsOpen (M.view t) names name x.file.dirCluster e
    rw [hview]
    exact hopen
  · rw [Os003.readFile, if_pos (not_or.mp hmode)] at hread
    cases hread
    cases hret
    refine h.refused fun f hf hperm => ?_
    have hopens := h.file
    rw [hf] at hopens
    exact hmode (of_decide_eq_true (hopens.mode.1.symm.trans hperm))

omit hM in
/-- `WriteFile` and `AppendFile`: a handle that is not open for writing is refused, the other one keeps
up with the entry in the directory. -/
theorem count_refines {m : FileT → Prog FsState (Int × FileT)} {call : TreeCall}
    (hcall : ∀ reads writes : Bool, call.Permitted reads writes ↔ writes = true)
    (hmode : ¬ x.file.Writes → m x.file x.mem.disk = some ((-1, x.file), x.mem.disk))
    (hm : ∀ page e names name r file' t, x.file.Writes → x.file.entry = some (page, e) →
      M.IsOpen (M.view x.mem.disk) names name x.file.dirCluster e →
      m x.file x.mem.disk = some ((r, file'), t) → ret = .status r → t = x'.mem.disk →
      M.Answered (M.view x.mem.disk) names name call (.status r) t ∧
        ∃ e', file' = { x.file with entry := some (page, e') } ∧
          M.IsOpen (M.view t) names name x.file.dirCluster e')
    (hrun : FsSession.count m x = some (ret, x')) :
    ∃ S', M.Represents x' S' ∧ ∃ reply, Returned.of call reply = ret ∧
      S.Serves (.onFile call) reply S' := by
  obtain ⟨x0, x1, hget, hrest⟩ := Prog.bind_eq_some.mp hrun
  cases hget
  obtain ⟨⟨r, file'⟩, y, hmem, hrest⟩ := Prog.bind_eq_some.mp hrest
  obtain ⟨z, hz, rfl⟩ := Prog.zoom_eq_some.mp hmem
  obtain ⟨t, hbody, rfl⟩ := Prog.zoom_eq_some.mp hz
  obtain ⟨⟨⟩, x2, hset, hret⟩ := Prog.bind_eq_some.mp hrest
  cases hset
  cases hret
  by_cases hwrites : x.file.Writes
  · obtain ⟨page, e, names, name, hentry, hopen, hS⟩ := h.file.entry hwrites.ne_zero
    obtain ⟨hanswered, e', rfl, hopen'⟩ := hm page e names name r file' t hwrites hentry hopen hbody rfl rfl
    refine h.onFile hS ((hcall _ _).mpr (decide_eq_true hwrites)) hanswered ?_
    exact @Mount.Opens.open M _ page e' names name rfl hopen'
  · rw [hmode hwrites] at hbody
    cases hbody
    refine h.refused fun f hf hperm => ?_
    have hopens := h.file
    rw [hf] at hopens
    exact hwrites (of_decide_eq_true (hopens.mode.2.symm.trans ((hcall _ _).mp hperm)))

theorem appendFile_refines {data : List UInt8} (hmeets : (FsRequest.appendFile data).Meets M x ret)
    (hrun : (FsRequest.appendFile data).run M fuel nullName x = some (ret, x'))
    (halloc : ∀ c ∈ x'.mem.disk.allocs, M.InRange c) :
    ∃ S', M.Represents x' S' ∧ Replies (.appendFile data, ret) S S' := by
  have hpos := hM.clusterSize_pos
  obtain ⟨hsize, hthrough⟩ := hmeets
  refine count_refines h (m := fun file => Os003.appendFile M fuel file data) (fun _ _ => Iff.rfl)
    (fun hmode => ?_) (fun page e names name r file' t hwrites hentry hopen hbody hret ht => ?_) hrun
  · rw [Os003.appendFile, if_pos (not_or.mp hmode)]
    rfl
  · have hlen : data.length < 2 ^ 32 := by omega
    obtain ⟨page', e', n, e'', hentry', hfat, hr, rfl⟩ := appendFile_eq_some hwrites hlen hbody
    obtain ⟨rfl, rfl⟩ := Prod.mk.inj (Option.some.inj (hentry.symm.trans hentry'))
    obtain ⟨hanswered, hopen', hle⟩ := appendFile_answered hM h.legible h.at hopen (fun hfile => by
      obtain ⟨hcount, hroom⟩ := hthrough page e hentry hwrites hfile
      exact ⟨le_of_bmod (hr.symm.trans (Returned.status.inj (hret.symm.trans hcount))), hroom⟩) hfat
      (by rw [ht]; exact halloc)
    rw [hr, bmod_count (by omega)]
    exact ⟨hanswered, e'', rfl, hopen'⟩

theorem writeFile_refines {data : List UInt8} (hmeets : (FsRequest.writeFile data).Meets M x ret)
    (hrun : (FsRequest.writeFile data).run M fuel nullName x = some (ret, x'))
    (halloc : ∀ c ∈ x'.mem.disk.allocs, M.InRange c) :
    ∃ S', M.Represents x' S' ∧ Replies (.writeFile data, ret) S S' := by
  have hpos := hM.clusterSize_pos
  obtain ⟨hsize, hthrough⟩ := hmeets
  refine count_refines h (m := fun file => Os003.writeFile M fuel file data) (fun _ _ => Iff.rfl)
    (fun hmode => ?_) (fun page e names name r file' t hwrites hentry hopen hbody hret ht => ?_) hrun
  · rw [Os003.writeFile, if_pos (not_or.mp hmode)]
    rfl
  · have hlen : data.length < 2 ^ 32 := by omega
    obtain ⟨page', e', n, e'', hentry', hfat, hr, rfl⟩ := writeFile_eq_some hwrites hlen hbody
    obtain ⟨rfl, rfl⟩ := Prod.mk.inj (Option.some.inj (hentry.symm.trans hentry'))
    obtain ⟨hanswered, hopen', hle⟩ := writeFile_answered hM h.legible h.at hopen (fun hfile => by
      obtain ⟨hcount, hkeeps⟩ := hthrough page e hentry hwrites hfile
      exact ⟨le_of_bmod (hr.symm.trans (Returned.status.inj (hret.symm.trans hcount))), hsize, hkeeps⟩)
      hfat (by rw [ht]; exact halloc)
    rw [hr, bmod_count (by omega)]
    exact ⟨hanswered, e'', rfl, hopen'⟩

omit hM in
theorem closeFile_refines (hrun : FsRequest.closeFile.run M fuel nullName x = some (ret, x')) :
    ∃ S', M.Represents x' S' ∧ Replies (.closeFile, ret) S S' := by
  obtain ⟨⟨⟩, y, hset, hret⟩ := Prog.bind_eq_some.mp hrun
  cases hset
  cases hret
  exact ⟨⟨S.tree, none⟩, ⟨h.quiet, h.legible, h.tree, .closed rfl⟩, .done, rfl, .close⟩

/-- Each request is a step of the hierarchy. -/
theorem SessionStep.refines {l : FsRequest × Returned} (hstep : SessionStep M nullName l x x')
    (halloc : ∀ c ∈ x'.mem.disk.allocs, M.InRange c) :
    ∃ S', M.Represents x' S' ∧ Replies l S S' := by
  obtain ⟨q, ret⟩ := l
  obtain ⟨⟨fuel, hrun⟩, hmeets⟩ := hstep
  cases q with
  | createFile path rtc => exact createFile_refines hM h hmeets hrun
  | createDir path rtc => exact createDir_refines hM h hmeets hrun halloc
  | deleteFile path => exact deleteFile_refines hM h hmeets hrun
  | removeDir path => exact removeDir_refines hM h hmeets hrun
  | renameFile path newName => exact renameFile_refines hM h hmeets hrun
  | openFile path mode => exact openFile_refines hM h hmeets hrun
  | readFile => exact readFile_refines hM h hrun
  | writeFile data => exact writeFile_refines hM h hmeets hrun halloc
  | appendFile data => exact appendFile_refines hM h hmeets hrun halloc
  | closeFile => exact closeFile_refines h hrun

omit hM h in
/-- The clusters handed out before a request are on record after it. -/
theorem SessionStep.allocs {l : FsRequest × Returned} (hstep : SessionStep M nullName l x x')
    (halloc : ∀ c ∈ x'.mem.disk.allocs, M.InRange c) : ∀ c ∈ x.mem.disk.allocs, M.InRange c := by
  obtain ⟨⟨fuel, hrun⟩, -⟩ := hstep
  have hgrows : x.mem.disk.Grows x'.mem.disk :=
    FsRequest.run_steps M.keeps_grows fuel nullName l.1 x l.2 x' hrun
  exact fun c hc => halloc c (hgrows.mem hc)

/-- A run is a run of the hierarchy. -/
theorem sessionRun_represents {ls : List (FsRequest × Returned)}
    (hrun : RunOf (SessionStep M nullName) ls x x') (halloc : ∀ c ∈ x'.mem.disk.allocs, M.InRange c) :
    ∃ S', M.Represents x' S' ∧ RunOf Replies ls S S' := by
  refine RunOf.refines M.Represents (fun y => ∀ c ∈ y.mem.disk.allocs, M.InRange c) ?_ ?_ hrun h halloc
  · intro l y z hstep hB
    exact hstep.allocs hB
  · intro l y z T hstep hR hB
    exact hstep.refines hM hR hB

end Refines

/-! ## Runs -/

section Runs

variable {M : Mount} (hM : M.Sound) {x x' : FsSession} {nullName path : List UInt8}
  (hq : x.mem.disk.faults = []) (hl : M.Legible (M.view x.mem.disk)) (hclosed : x.file = FileT.closed)
  (halloc : ∀ c ∈ x'.mem.disk.allocs, M.InRange c)
include hM hq hl hclosed halloc

omit hM halloc in
/-- The session that the volume stands for when no file is open. -/
theorem represents_closed : M.Represents x ⟨M.tree (M.view x.mem.disk), none⟩ :=
  ⟨hq, hl, rfl, .closed hclosed⟩

end Runs

/-! ## A small session -/

theorem smallFile_legible : treeMount.Legible (treeMount.view smallFile) := by
  have hroot : treeMount.FileOn (treeMount.view smallFile) 2 [2] := by decide +kernel
  have hchain : treeMount.FileOn (treeMount.view smallFile)
      ((treeMount.view smallFile).slot 2 0).cluster [3, 4] := by decide +kernel
  have hkind : (treeMount.view smallFile).isDirOf (some (2, 0)) = false := by decide +kernel
  have hfirst : ∀ j, j < 16 → treeMount.LiveAt (treeMount.view smallFile) 2 j → j = 0 := by decide +kernel
  have hattr : ∀ j, j < 16 → (slotAt ((treeMount.view smallFile).data 2) j).attr ≠ attrLfn := by
    decide +kernel
  have hwell : treeMount.WellFormedFile (treeMount.view smallFile)
      ((treeMount.view smallFile).slot 2 0) [3, 4] := by decide +kernel
  have hsize : ((treeMount.view smallFile).slot 2 0).fileSize + treeMount.clusterSize ≤ 2 ^ 31 := by
    decide +kernel
  refine ⟨smallFile_neat, fun o ho hdir => ?_, fun o l ho hdir hl c hc => ?_, fun c i l ho hfile hl => ?_⟩
  · rcases smallFile_present ho with rfl | rfl
    · show (2 : Nat) ≠ 0
      decide
    · rw [hkind] at hdir
      cases hdir
  · rcases smallFile_present ho with rfl | rfl
    · obtain rfl := hl.unique hroot
      rw [List.mem_singleton.mp hc]
      refine ⟨fun j hj _ hpiece => absurd hpiece.attr (hattr j hj), fun i hlive => ?_⟩
      obtain rfl := hfirst i hlive.lt hlive
      exact spelled_of_nil rfl
    · rw [hkind] at hdir
      cases hdir
  · rcases smallFile_present ho with h | h
    · cases h
    · cases h
      obtain rfl := hl.unique hchain
      exact ⟨hwell, hsize⟩

/-- The file in the root, eight pages, and no file open. -/
def smallSession : FsSession := ⟨⟨smallFile, eightPages⟩, FileT.closed⟩

/-- `/A`. -/
def smallPath : List UInt8 := [slash, 65]

theorem smallPath_plain : PlainPath smallPath := ⟨by decide, by decide, by decide⟩

end Os003
