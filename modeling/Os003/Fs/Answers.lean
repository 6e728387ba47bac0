import Os003.Fs.Legible

set_option autoImplicit false

/-! # Answers

What the functions of `fat32.c` reply in a directory of a legible volume, and what becomes of the tree:
each result is the answer of a hierarchy by name, and the volume stays legible. The file functions work
on an entry that was just looked up; they are asked to go through to the end, and an overwrite must not
free clusters that the size still counts.
-/

namespace Os003

open Bytes Linked Hierarchy

abbrev TreeCall : Type := Call Name83 UInt8

abbrev TreeReply : Type := Reply UInt8

/-- What a caller gets to see: a status or a count, the bytes read, whether a `file_t` has an entry, or
nothing. -/
inductive Returned
  | status (n : Int)
  | data (bs : List UInt8)
  | file (isOpen : Bool)
  | void
deriving DecidableEq

/-- How a reply is returned. Of a directory no byte is read or written. -/
def Returned.of : TreeCall → TreeReply → Returned
  | _, .refused => .status (-1)
  | .read, .bytes bs => .data bs
  | .read, _ => .data []
  | .append bs, .done | .overwrite bs, .done => .status bs.length
  | .append _, _ | .overwrite _, _ => .status 0
  | _, .done => .status 0
  | _, .noDirectory => .status 6
  | .create _, .taken => .status 1
  | .create _, _ => .status 5
  | .remove _, .missing => .status 1
  | .remove _, .wrongKind => .status 4
  | .remove _, _ => .status 5
  | .rename _, .taken => .status 4
  | .rename _, _ => .status 1

/-- A call has returned: the volume is legible, and what was returned is an answer. -/
structure Mount.Answered (M : Mount) (V : Volume) (names : List Name83) (name : Name83) (call : TreeCall)
    (ret : Returned) (s' : FsState) : Prop where
  quiet : s'.faults = []
  legible : M.Legible (M.view s')
  answer : ∃ reply, Returned.of call reply = ret ∧
    Answer (M.tree V) names name call reply (M.tree (M.view s'))

section Sound

variable {M : Mount} (hM : M.Sound) {s s' : FsState} {V : Volume} {A : List Nat} {o : Owner}
  {names : List Name83}

/-- Where the volume is as it was, any answer that changes nothing will do. -/
theorem Mount.At.answered {name : Name83} {call : TreeCall} {reply : TreeReply} (hl : M.Legible V)
    (hs : M.At s' V A) (h : Answer (M.tree V) names name call reply (M.tree V)) :
    M.Answered V names name call (Returned.of call reply) s' := by
  refine ⟨hs.quiet, ?_, reply, rfl, ?_⟩
  · rw [hs.view]
    exact hl
  · rw [hs.view]
    exact h

theorem Mount.At.answered_changed {W : Volume} {name : Name83} {call : TreeCall} {reply : TreeReply}
    (hs : M.At s' W A) (hl : M.Legible W)
    (h : Answer (M.tree V) names name call reply (M.tree W)) :
    M.Answered V names name call (Returned.of call reply) s' := by
  refine ⟨hs.quiet, ?_, reply, rfl, ?_⟩
  · rw [hs.view]
    exact hl
  · rw [hs.view]
    exact h

variable (hl : M.Legible V) (hs : M.At s V A) (ho : (M.tree V).Leads none names o)
  (hp : M.Present V o) (hdir : V.isDirOf o = true)

include hl hp hdir

/-- What is selected is called so. -/
theorem Mount.Legible.called_of_selected {dl : List Nat} {c i : Nat} {name : List UInt8}
    (hdl : M.FileOn V (M.startOf V o) dl) (hsel : M.Selected V dl name c i) :
    ∃ l, M.EntryAt V o dl c i l ∧ (M.tree V).Called o (nameTo83 name) (c, i)
      ⟨o, (V.slot c i).name, (V.slot c i).isDirectory, V.contents c i l⟩ := by
  obtain ⟨hc, hlive, hname⟩ := (hl.selected_iff hp hdir hdl).mp hsel
  obtain ⟨l, hat⟩ := hl.entryAt hp hdir hdl hc hlive
  refine ⟨l, hat, ?_⟩
  rw [← hname]
  exact hat.called hl.neat.tidy

include hM hs ho

/-- `FAT32_DeleteFile`. -/
theorem deleteFile_answered {fuel r : Nat} {name : List UInt8}
    (hrun : fat32DeleteFile M fuel (M.startOf V o) name s = some (r, s')) :
    M.Answered V names (nameTo83 name) (.remove false) (.status r) s' := by
  have hd := hl.directory hp hdir
  obtain ⟨dl, hdl, ⟨rfl, hs', hnone⟩ | ⟨rfl, hs', c, i, hsel, hkind⟩ |
    ⟨rfl, c, i, l, hsel, hat, hfile, hs'⟩⟩ :=
    deleteFile_at hM hl.neat.tidy hs hp hdir hd.start hrun
  · exact hs'.answered hl (.missing (by simp) ho (hl.fresh_of_none hp hdir hdl hnone))
  · obtain ⟨l, -, hcalled⟩ := hl.called_of_selected hp hdir hdl hsel
    exact hs'.answered hl (.wrongKind rfl ho hcalled (by simp [hkind]))
  · obtain ⟨l', hat', hcalled⟩ := hl.called_of_selected hp hdir hdl hsel
    have hlen := hs.data_length (hat.dirChain.1 c hat.mem)
    have hempty : (V.slot c i).isDirectory = true → ∀ x ∈ l, ¬ M.Holds V x := by
      rw [hfile]
      exact fun h => absurd h (by decide)
    obtain ⟨hlegible, htree⟩ := hl.removed hM hat hlen hempty rfl
    have hanswer := Answer.removed ho hcalled (hl.neat.tidy.no_children hat hempty)
    simp only [hfile] at hanswer
    rw [← htree] at hanswer
    exact hs'.answered_changed hlegible hanswer

/-- `FAT32_RemoveDir`. -/
theorem removeDir_answered {fuel r : Nat} {name : List UInt8}
    (hrun : fat32RemoveDir M fuel (M.startOf V o) name s = some (r, s')) :
    M.Answered V names (nameTo83 name) (.remove true) (.status r) s' := by
  have hd := hl.directory hp hdir
  obtain ⟨dl, hdl, ⟨-, hs', ⟨rfl, hnone⟩ | ⟨rfl, c, i, hsel, hkind⟩ |
    ⟨rfl, c, i, l, hsel, hkind, hchain, x, hx, j, hj⟩⟩ | ⟨rfl, c, i, l, hsel, hat, hkind, hempty, hs'⟩⟩ :=
    removeDir_at hM hl.neat hs hd hrun
  · exact hs'.answered hl (.missing (by simp) ho (hl.fresh_of_none hp hdir hdl hnone))
  · obtain ⟨l, -, hcalled⟩ := hl.called_of_selected hp hdir hdl hsel
    exact hs'.answered hl (.wrongKind rfl ho hcalled (by simp [hkind]))
  · -- the entry that was found in the directory is a node in it
    obtain ⟨l', hat, hcalled⟩ := hl.called_of_selected hp hdir hdl hsel
    obtain rfl := hchain.unique hat.chain
    obtain ⟨k, hat'⟩ := hl.entryAt hat.present hkind hat.chain hx hj
    exact hs'.answered hl (.occupied ho hcalled hkind (hat'.called hl.neat.tidy).node rfl)
  · obtain ⟨l', hat', hcalled⟩ := hl.called_of_selected hp hdir hdl hsel
    have hlen := hs.data_length (hat.dirChain.1 c hat.mem)
    obtain ⟨hlegible, htree⟩ := hl.removed hM hat hlen (fun _ => hempty) rfl
    have hanswer := Answer.removed ho hcalled (hl.neat.tidy.no_children hat fun _ => hempty)
    simp only [hkind] at hanswer
    rw [← htree] at hanswer
    exact hs'.answered_changed hlegible hanswer

/-- `FAT32_RenameFile`, given that the old name is there. -/
theorem renameFile_answered {fuel r : Nat} {oldName newName : List UInt8} (hname : Spellable newName)
    (hold : ¬ (M.tree V).Fresh o (nameTo83 oldName))
    (hrun : fat32RenameFile M fuel (M.startOf V o) oldName newName s = some (r, s')) :
    M.Answered V names (nameTo83 oldName) (.rename (nameTo83 newName)) (.status r) s' := by
  have hd := hl.directory hp hdir
  obtain ⟨dl, hdl, ⟨rfl, hs', e, t, hfind⟩ | ⟨rfl, hs', hnone⟩ |
    ⟨rfl, c, i, l, hsel, hat, hnew, hs'⟩⟩ :=
    renameFile_at hM hl.neat.tidy hs hp hdir hd.start hrun
  · obtain ⟨-, ⟨-, dl', c, i, l, hat, hcalled, -⟩ | ⟨h, -⟩⟩ := hl.find hp hdir hM hs hfind
    · have hnode := hat.called hl.neat.tidy
      rw [hcalled] at hnode
      exact hs'.answered hl (.renameTaken ho hnode)
    · cases h
  · exact absurd (hl.fresh_of_none hp hdir hdl hnone) hold
  · obtain ⟨l', hat', hcalled⟩ := hl.called_of_selected hp hdir hdl hsel
    obtain rfl := hat.chain.unique hat'.chain
    have hlen := hs.data_length (hat.dirChain.1 c hat.mem)
    obtain ⟨hlegible, htree⟩ := hl.renamed hM hat hlen hname hnew rfl
    have hanswer := Answer.renamed ho hcalled (hl.neat.tidy.fresh hdl hnew)
    rw [Node.renamed, ← htree] at hanswer
    exact hs'.answered_changed hlegible hanswer

/-- `FAT32_CreateFile`, where the directory has room. -/
theorem createFile_answered {fuel r : Nat} {name : List UInt8} {rtc : RtcTime}
    (hname : Spellable name)
    (hroom : ∀ dl, M.FileOn V (M.startOf V o) dl → M.Room V dl name)
    (hrun : fat32CreateFile M fuel (M.startOf V o) name rtc s = some (r, s')) :
    M.Answered V names (nameTo83 name) (.create false) (.status r) s' := by
  obtain ⟨dl, hdl, hon⟩ := (hl.directory hp hdir).chain hl.neat.tidy
  rcases createFile_at hM hs hon (hroom dl hdl) hrun with
    ⟨rfl, hs', e, t, hfind⟩ | ⟨rfl, hnew, c, hc, pos, hfree, hs'⟩
  · obtain ⟨-, ⟨-, dl', c, i, l, hat, hcalled, -⟩ | ⟨h, -⟩⟩ := hl.find hp hdir hM hs hfind
    · have hnode := hat.called hl.neat.tidy
      rw [hcalled] at hnode
      exact hs'.answered hl (.taken ho hnode)
    · cases h
  · have hchain : M.FileOn V 0 [] := ⟨by simp, Or.inl ⟨rfl, rfl⟩⟩
    obtain ⟨hlegible, hnone, htree⟩ := hl.created hM hp hdir hdl hc (hs.data_length (hdl.1 c hc)) hname
      (Or.inl rfl) (by decide) hfree hnew (fun _ _ => ⟨rfl, rfl⟩) (by simp) hchain (fun _ => rfl)
      (fun h => absurd h (by decide)) rfl
    have hanswer : Answer (M.tree V) names (nameTo83 name) (.create false) .done _ :=
      .created ho (hl.neat.tidy.fresh hdl hnew) hnone
    have hkind : decide (attrArchive = attrDirectory) = false := by decide
    rw [← hkind, ← htree] at hanswer
    exact hs'.answered_changed hlegible hanswer

/-- `FAT32_CreateDir`, where the directory has room. -/
theorem createDir_answered {fuel r : Nat} {name : List UInt8} {rtc : RtcTime}
    (hname : Spellable name)
    (hroom : ∀ dl, M.FileOn V (M.startOf V o) dl → M.Room V dl name)
    (hrun : fat32CreateDir M fuel (M.startOf V o) name rtc s = some (r, s'))
    (halloc : ∀ x ∈ s'.allocs, M.InRange x) :
    M.Answered V names (nameTo83 name) (.create true) (.status r) s' := by
  obtain ⟨dl, hdl, hon⟩ := (hl.directory hp hdir).chain hl.neat.tidy
  rcases createDir_at hM hs hon (hroom dl hdl) hrun halloc with
    ⟨rfl, hs', e, t, hfind⟩ | ⟨hnew, ⟨rfl, hs'⟩ | ⟨rfl, n, hin, hnfree, c, hc, pos, hfree, hs'⟩⟩
  · obtain ⟨-, ⟨-, dl', c, i, l, hat, hcalled, -⟩ | ⟨h, -⟩⟩ := hl.find hp hdir hM hs hfind
    · have hnode := hat.called hl.neat.tidy
      rw [hcalled] at hnode
      exact hs'.answered hl (.taken ho hnode)
    · cases h
  · exact hs'.answered hl (.full ho (hl.neat.tidy.fresh hdl hnew))
  · have hdata : (M.withDir V rtc n (M.startOf V o)).data n = newDirCluster M rtc n (M.startOf V o) :=
      Function.update_self _ _ _
    obtain ⟨hnone, hended⟩ := newDirCluster_ended hM V rtc n (M.startOf V o)
    have hnz : n ≠ 0 := by
      have := hin.1
      omega
    have hmade : (∀ x ∈ [n], ¬ M.Holds (M.withDir V rtc n (M.startOf V o)) x) ∧
        M.Ended (M.withDir V rtc n (M.startOf V o)) [n] ∧ n ≠ 0 ∧
        ∀ x ∈ [n], WellNamed ((M.withDir V rtc n (M.startOf V o)).data x) M.slotCount := by
      refine ⟨by simpa using hnone, hended, hnz, fun x hx => ?_⟩
      rw [List.mem_singleton.mp hx, hdata]
      exact newDirCluster_wellNamed hM rtc n _
    obtain ⟨hlegible, hfresh, htree⟩ := hl.created hM hp hdir hdl hc (hs.data_length (hdl.1 c hc)) hname
      (Or.inr rfl) (hin.hasEntry.lt hM) hfree hnew (fun x hx => M.withDir_frame hnfree rtc _ hx)
      (by simp [hnfree]) (M.withDir_chain hin rtc (M.startOf V o)) (fun h => absurd h (by decide))
      (fun _ => hmade) rfl
    have hanswer : Answer (M.tree V) names (nameTo83 name) (.create true) .done _ :=
      .created ho (hl.neat.tidy.fresh hdl hnew) hfresh
    have hkind : decide (attrDirectory = attrDirectory) = true := by decide
    rw [← hkind, ← htree] at hanswer
    exact hs'.answered_changed hlegible hanswer

end Sound

/-! ## Calls on an open file -/

/-- `e` is the entry of the node that the names lead to; of a file, `d` is the cluster of the directory. -/
def Mount.IsOpen (M : Mount) (V : Volume) (names : List Name83) (name : Name83) (d : Nat) (e : Slot) :
    Prop :=
  ∃ o dl c i l, (M.tree V).Leads none names o ∧ M.EntryAt V o dl c i l ∧ (V.slot c i).name = name ∧
    V.slot c i = e ∧ (e.isDirectory = false → d = M.startOf V o)

section Open

variable {M : Mount} (hM : M.Sound) {s s' : FsState} {V W : Volume} {A : List Nat} {o : Owner}
  {names : List Name83} {name : Name83} {dl l : List Nat} {c i d : Nat} {e e' : Slot} {fuel n : Nat}
  {data : List UInt8} (hl : M.Legible V) (hs : M.At s V A) (hopen : M.IsOpen V names name d e)

include hl in
/-- A file that has been given other bytes is still open, with its new entry. -/
theorem Mount.Refiled.isOpen {bs : List UInt8} (h : M.Refiled V W o c i e' bs)
    (ho : (M.tree V).Leads none names o) (hat : M.EntryAt V o dl c i l)
    (hfile : (V.slot c i).isDirectory = false) :
    M.IsOpen W names (V.slot c i).name (M.startOf V o) e' := by
  have hnode : M.tree W (c, i) = some ⟨o, (V.slot c i).name, false, bs⟩ := by
    rw [h.tree, Function.update_self]
  have hisNode := h.legible.neat.tidy.tree_eq_some.mp hnode
  obtain ⟨dl', l', hat', -⟩ := hisNode.placed
  have hleads := ho.holding (hat.called hl.neat.tidy).node bs
  simp only [Node.holding, hfile] at hleads
  rw [← h.tree] at hleads
  exact ⟨o, dl', c, i, l', hleads, hat', hisNode.name.symm, h.slot, fun _ => h.start.symm⟩

include hM hl hs hopen

/-- `FAT32_AppendFile`, when it goes through to the end. -/
theorem appendFile_answered
    (hthrough : e.isDirectory = false → data.length ≤ n ∧
      e.fileSize + data.length + M.clusterSize ≤ 2 ^ 31)
    (hrun : fat32AppendFile M fuel d e data s = some ((n, e'), s'))
    (halloc : ∀ x ∈ s'.allocs, M.InRange x) :
    M.Answered V names name (.append data) (.status n) s' ∧ M.IsOpen (M.view s') names name d e' ∧
      n ≤ data.length := by
  obtain ⟨o, dl, c, i, l, ho, hat, rfl, rfl, hd⟩ := hopen
  have hcalled := hat.called hl.neat.tidy
  cases hkind : (V.slot c i).isDirectory with
  | true =>
      have hnone : data.length = 0 ∨ (V.slot c i).isDirectory = true := Or.inr hkind
      rw [fat32AppendFile, if_pos hnone, Prog.pure_run] at hrun
      cases hrun
      refine ⟨hs.answered hl (.wrongKind rfl ho hcalled (by simp [hkind])), ?_, Nat.zero_le _⟩
      rw [hs.view]
      exact ⟨o, dl, c, i, l, ho, hat, rfl, rfl, hd⟩
  | false =>
      obtain rfl := hd hkind
      obtain ⟨hn, hsize⟩ := hthrough hkind
      obtain ⟨rfl, W, A', hs', hrefiled⟩ := hl.appended hM hs hat hkind hsize hn hrun halloc
      have hanswer := @Answer.appended _ _ _ _ _ names _ data _ _ _ ho hcalled hkind
      simp only [Node.holding, hkind] at hanswer
      rw [← hrefiled.tree] at hanswer
      refine ⟨hs'.answered_changed hrefiled.legible hanswer, ?_, le_rfl⟩
      rw [hs'.view]
      exact hrefiled.isOpen hl ho hat hkind

/-- `FAT32_WriteFile`, when it goes through to the end and frees no cluster that the size counts. -/
theorem writeFile_answered
    (hthrough : e.isDirectory = false → data.length ≤ n ∧ data.length + M.clusterSize ≤ 2 ^ 31 ∧
      M.clustersFor e.fileSize ≤ max 1 (M.clustersFor data.length))
    (hrun : fat32WriteFile M fuel d e data s = some ((n, e'), s'))
    (halloc : ∀ x ∈ s'.allocs, M.InRange x) :
    M.Answered V names name (.overwrite data) (.status n) s' ∧
      M.IsOpen (M.view s') names name d e' ∧ n ≤ data.length := by
  obtain ⟨o, dl, c, i, l, ho, hat, rfl, rfl, hd⟩ := hopen
  have hcalled := hat.called hl.neat.tidy
  cases hkind : (V.slot c i).isDirectory with
  | true =>
      rw [fat32WriteFile, if_pos hkind, Prog.pure_run] at hrun
      cases hrun
      refine ⟨hs.answered hl (.wrongKind rfl ho hcalled (by simp [hkind])), ?_, Nat.zero_le _⟩
      rw [hs.view]
      exact ⟨o, dl, c, i, l, ho, hat, rfl, rfl, hd⟩
  | false =>
      obtain rfl := hd hkind
      obtain ⟨hn, hsize, hkeeps⟩ := hthrough hkind
      obtain ⟨rfl, W, A', hs', hrefiled⟩ := hl.overwritten hM hs hat hkind hsize hkeeps hn hrun halloc
      have hanswer := @Answer.overwritten _ _ _ _ _ names _ data _ _ _ ho hcalled hkind
      simp only [Node.holding, hkind] at hanswer
      rw [← hrefiled.tree] at hanswer
      refine ⟨hs'.answered_changed hrefiled.legible hanswer, ?_, le_rfl⟩
      rw [hs'.view]
      exact hrefiled.isOpen hl ho hat hkind

/-- `FAT32_ReadFile`: what is returned is the length of the file, and the buffer starts with its bytes. -/
theorem readFile_answered {buf : List UInt8}
    (hrun : fat32ReadFile M fuel e s = some ((n, buf), s')) :
    M.Answered V names name .read (.data (buf.take n)) s' ∧ M.view s' = V ∧ n < 2 ^ 31 := by
  obtain ⟨o, dl, c, i, l, ho, hat, rfl, rfl, hd⟩ := hopen
  have hcalled := hat.called hl.neat.tidy
  cases hkind : (V.slot c i).isDirectory with
  | true =>
      rw [fat32ReadFile, if_pos hkind, Prog.pure_run] at hrun
      cases hrun
      exact ⟨hs.answered hl (.wrongKind rfl ho hcalled (by simp [hkind])), hs.view, by decide⟩
  | false =>
      obtain ⟨hs', hlt, hbuf⟩ := hl.reads hM hs hat hkind hrun
      rw [hbuf]
      exact ⟨hs'.answered hl (.read ho hcalled hkind), hs'.view, hlt⟩

end Open

end Os003
