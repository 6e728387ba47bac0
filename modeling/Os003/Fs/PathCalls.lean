import Os003.Fs.Answers
import Os003.Fs.FilePages

set_option autoImplicit false

/-! # Paths in a legible volume

The names that a path is made of lead along the tree of a legible volume to the directory that `fs.c`
works in. So its functions that take a path answer as a hierarchy by name does, while there is a page for
`OpenFile`.
-/

namespace Os003

open Bytes Linked Hierarchy FsMemory

/-! ## Paths -/

/-- The names along a path, without the last. -/
def pathNames (path : List UInt8) : List Name83 := ((components path).map nameTo83).dropLast

/-- The last component of a path. -/
def lastComponent (path : List UInt8) : List UInt8 := (components path).getLastD []

/-- A path with a component, none of which `OpenFile` cuts off, and with no slash behind the last. -/
structure PlainPath (path : List UInt8) : Prop where
  nonempty : components path ≠ []
  short : ∀ c ∈ components path, c.length < fat32MaxName
  noTrailing : trailing path = false

theorem components_append (p q : List UInt8) :
    components (p ++ slash :: q) = components p ++ components q := by
  rw [components, components, components, List.splitOn_append_cons_self, List.filter_append]

theorem components_map_cut {path : List UInt8}
    (h : ∀ c ∈ components path, c.length < fat32MaxName) : (components path).map cut = components path := by
  refine (List.map_congr_left fun c hc => ?_).trans (List.map_id _)
  exact List.take_of_length_le (Nat.le_sub_one_of_lt (h c hc))

/-- The directory part and the name of an absolute path. -/
theorem parentAndName_components {path : List UInt8} (h : PlainPath path)
    (habs : path.head? = some slash) : ∃ dir, parentAndName path = some (dir, lastComponent path) ∧
      dir ≠ [] ∧ components path = components dir ++ [lastComponent path] := by
  have hslash : slash ∈ path := List.mem_of_mem_head? habs
  -- the path up to its last slash
  have hne : path.rdropWhile (· ≠ slash) ≠ [] := by
    rw [Ne, List.rdropWhile_eq_nil_iff]
    intro hall
    simpa using hall slash hslash
  have hlast : (path.rdropWhile (· ≠ slash)).getLast hne = slash := by
    simpa using List.rdropWhile_last_not (· ≠ slash) path hne
  have hdrop := List.dropLast_append_getLast hne
  rw [hlast] at hdrop
  have hname : slash ∉ path.rtakeWhile (· ≠ slash) := fun hmem => by
    simpa using List.mem_rtakeWhile_imp hmem
  have hsplit : path = (path.rdropWhile (· ≠ slash)).dropLast ++
      slash :: path.rtakeWhile (· ≠ slash) := by
    calc path = path.rdropWhile (· ≠ slash) ++ path.rtakeWhile (· ≠ slash) :=
          (List.rdropWhile_append_rtakeWhile ..).symm
      _ = ((path.rdropWhile (· ≠ slash)).dropLast ++ [slash]) ++ path.rtakeWhile (· ≠ slash) := by
          rw [hdrop]
      _ = _ := by rw [List.append_assoc, List.singleton_append]
  have hnonempty : path.rtakeWhile (· ≠ slash) ≠ [] := by
    intro hnil
    rw [hnil] at hsplit
    have htrail : trailing path = true := by
      rw [hsplit, trailing_append (by simp)]
      rfl
    rw [h.noTrailing] at htrail
    cases htrail
  have hcomp : components path = components (path.rdropWhile (· ≠ slash)).dropLast ++
      [path.rtakeWhile (· ≠ slash)] := by
    conv_lhs => rw [hsplit]
    rw [components_append, components_single hname hnonempty]
  have hlastc : lastComponent path = path.rtakeWhile (· ≠ slash) := by
    rw [lastComponent, hcomp, List.getLastD_concat]
  rw [hlastc]
  have hparent : parentAndName path = some (if (path.rdropWhile (· ≠ slash)).dropLast = [] then [slash]
      else (path.rdropWhile (· ≠ slash)).dropLast, path.rtakeWhile (· ≠ slash)) := by
    rw [parentAndName]
    exact if_neg (not_or.mpr ⟨not_not.mpr habs, hnonempty⟩)
  refine ⟨_, hparent, ?_, ?_⟩
  · split
    · simp
    · assumption
  · rw [hcomp]
    split
    · rename_i hnil
      rw [hnil]
      rfl
    · rfl

/-- The name that `OpenFile` keeps is the last component of the path. -/
theorem openLoop_name {M : Mount} {fuel n current cur : Nat} {p nm : List UInt8}
    {found : Option (Slot × List UInt8)} {e : Slot} {s s' : FsState} (hn : p.length < n)
    (hne : components p ≠ []) (htrail : trailing p = false)
    (hrun : openLoop M fuel n p current found s = some (some (cur, some (e, nm)), s')) :
    lastComponent p = nm := by
  induction n generalizing p current found s with
  | zero => omega
  | succ n ih =>
      rcases path_cases p with rfl | ⟨q, rfl⟩ | ⟨x, hx, hxne, rfl | ⟨q, rfl⟩⟩
      · exact absurd rfl hne
      · rw [openLoop_slash] at hrun
        rw [components_slash] at hne
        have hq : q ≠ [] := by
          rintro rfl
          exact hne rfl
        rw [← List.singleton_append, trailing_append hq] at htrail
        have hlast := ih (by simpa using hn) hne htrail hrun
        rw [lastComponent, components_slash]
        exact hlast
      · have hlen : 0 < p.length := List.length_pos_iff.mpr hxne
        obtain ⟨n, rfl⟩ : ∃ k, n = k + 1 := ⟨n - 1, by omega⟩
        rw [openLoop_last hx hxne] at hrun
        obtain ⟨⟨st, found'⟩, s1, -, hrest⟩ := Prog.bind_eq_some.mp hrun
        rw [lastComponent, components_single hx hxne]
        rcases st with _ | st
        · rcases found' with _ | e'
          · cases hrest
          · cases hrest
            rfl
        · cases hrest
      · have hlen : q.length < n := by
          rw [List.length_append, List.length_cons] at hn
          omega
        rw [openLoop_component hx hxne] at hrun
        obtain ⟨⟨st, found'⟩, s1, -, hrest⟩ := Prog.bind_eq_some.mp hrun
        -- a component follows, since the path does not end in a slash
        have hqne : components q ≠ [] := by
          intro hnil
          have : trailing (x ++ slash :: q) = true := by
            rw [trailing_append (by simp)]
            exact trailing_of_components_nil (by rw [components_slash]; exact hnil) (by simp)
          rw [htrail] at this
          cases this
        have hq : q ≠ [] := by
          rintro rfl
          exact hqne rfl
        have htrail' : trailing q = false := by
          rw [List.append_cons, trailing_append hq] at htrail
          exact htrail
        have hlast : lastComponent (x ++ slash :: q) = lastComponent q := by
          obtain ⟨cs, c, hcs⟩ := (List.eq_nil_or_concat (components q)).resolve_left hqne
          rw [lastComponent, lastComponent, components_cons hx hxne, hcs, List.concat_eq_append,
            List.getLastD_cons, List.getLastD_concat, List.getLastD_concat]
        rw [hlast]
        rcases st with _ | st
        · rcases found' with _ | e'
          · cases hrest
          · have hrest' : (if (!e'.isDirectory) = true then return none
                else openLoop M fuel n q e'.cluster (some (e', x ++ slash :: q)) :
                  Prog FsState (Option (Nat × Option (Slot × List UInt8)))) s1 =
                some (some (cur, some (e, nm)), s') := hrest
            split at hrest'
            · cases hrest'
            · exact ih hlen hqne htrail' hrest'
        · cases hrest

/-! ## What a path leads to -/

section Lookup

variable {M : Mount} (hM : M.Sound) {s s' : FsState} {V : Volume} {A : List Nat} {o p : Owner}
  {names : List Name83} (hl : M.Legible V)
include hl

/-- Names lead from a directory to a directory. -/
theorem Mount.Legible.leads_directory (hd : M.Directory V o) (h : (M.tree V).Leads o names p) :
    M.Directory V p := by
  induction h with
  | here o => exact hd
  | @into o p name names q n hq hdir _ ih =>
      have hnode : M.IsNode V q.1 q.2 n := hl.neat.tidy.tree_eq_some.mp hq.node
      exact ih (hl.directory hnode.present (hnode.isDir.symm.trans hdir))

theorem Mount.Legible.root_directory : M.Directory V none := hl.directory .root rfl

include hM

/-- The walk along the components goes where the names lead. -/
theorem Mount.Legible.lookup {fuel : Nat} {cs : List (List UInt8)} {x : List UInt8}
    {r : Option (Nat × Slot)} (hs : M.At s V A) (hd : M.Directory V o)
    (hrun : lookupPath M fuel (cs ++ [x]) (M.startOf V o) s = some (r, s')) :
    M.At s' V A ∧
      ((∃ p dl c i l, (M.tree V).Leads o (cs.map nameTo83) p ∧ M.EntryAt V p dl c i l ∧
          (V.slot c i).name = nameTo83 x ∧ r = some (M.startOf V p, V.slot c i)) ∨
        (r = none ∧ ∀ p, (M.tree V).Leads o (cs.map nameTo83) p → (M.tree V).Fresh p (nameTo83 x))) := by
  induction cs generalizing o s with
  | nil =>
      rw [List.nil_append, lookupPath] at hrun
      obtain ⟨⟨st, found⟩, s1, hfind, hrest⟩ := Prog.bind_eq_some.mp hrun
      obtain ⟨hs1, ⟨rfl, dl, c, i, l, hat, hname, rfl⟩ | ⟨rfl, rfl, hfresh⟩⟩ :=
        hl.find hd.present hd.isDir hM hs hfind
      · simp only [if_true, Prog.pure_run] at hrest
        cases hrest
        exact ⟨hs1, Or.inl ⟨o, dl, c, i, l, .here o, hat, hname, rfl⟩⟩
      · cases hrest
        refine ⟨hs1, Or.inr ⟨rfl, fun p hp => ?_⟩⟩
        cases hp
        exact hfresh
  | cons y cs ih =>
      rw [List.cons_append, lookupPath] at hrun
      obtain ⟨⟨st, found⟩, s1, hfind, hrest⟩ := Prog.bind_eq_some.mp hrun
      obtain ⟨hs1, ⟨rfl, dl, c, i, l, hat, hname, rfl⟩ | ⟨rfl, rfl, hfresh⟩⟩ :=
        hl.find hd.present hd.isDir hM hs hfind
      · have hcalled := hat.called hl.neat.tidy
        rw [hname] at hcalled
        have hmore : cs ++ [x] ≠ [] := by simp
        simp only [if_neg hmore] at hrest
        cases hdir : (V.slot c i).isDirectory with
        | false =>
            simp only [hdir, Bool.not_false, if_true, Prog.pure_run] at hrest
            cases hrest
            refine ⟨hs1, Or.inr ⟨rfl, fun p hp => ?_⟩⟩
            cases hp with
            | into hq hisDir _ =>
                -- no other node has the name
                obtain ⟨-, rfl⟩ := hcalled.unique hl.neat.tidy.unambiguous hq
                exact absurd (hdir.symm.trans hisDir) (by decide)
        | true =>
            simp only [hdir, Bool.not_true, Bool.false_eq_true, if_false] at hrest
            obtain ⟨hs', ⟨p, dl', c', i', l', hleads, hat', hname', rfl⟩ | ⟨rfl, hnone⟩⟩ :=
              ih hs1 (hl.directory hat.present hdir) hrest
            · exact ⟨hs', Or.inl ⟨p, dl', c', i', l', .into hcalled hdir hleads, hat', hname', rfl⟩⟩
            · refine ⟨hs', Or.inr ⟨rfl, fun p hp => ?_⟩⟩
              cases hp with
              | into hq hisDir hrest' =>
                  obtain ⟨rfl, -⟩ := hcalled.unique hl.neat.tidy.unambiguous hq
                  exact hnone p hrest'
      · cases hrest
        refine ⟨hs1, Or.inr ⟨rfl, fun p hp => ?_⟩⟩
        cases hp with
        | into hq _ _ => exact absurd hq.name (hfresh _ _ hq.node hq.parent)

/-- `OpenFile` of the parent directory: the path of the directory leads to an entry of a directory
exactly when the names do. -/
theorem Mount.Legible.resolve_directory {fuel : Nat} {dir : List UInt8} {r : Option Slot}
    (hs : M.At s V A) (hne : dir ≠ []) (hshort : ∀ c ∈ components dir, c.length < fat32MaxName)
    (hrun : resolve M fuel dir s = some (r, s')) :
    M.At s' V A ∧
      ((∃ p e, (M.tree V).Leads none ((components dir).map nameTo83) p ∧ r = some e ∧
          e.isDirectory = true ∧ e.cluster = M.startOf V p) ∨
        ((∀ e, r = some e → e.isDirectory = false) ∧
          ∀ p, ¬ (M.tree V).Leads none ((components dir).map nameTo83) p)) := by
  rw [resolve, if_neg hne, components_map_cut hshort] at hrun
  rcases List.eq_nil_or_concat (components dir) with hnil | ⟨cs, x, hcs⟩
  · -- the root directory, whose entry is made up by `OpenFile`
    rw [if_pos hnil, Prog.pure_run] at hrun
    cases hrun
    have hroot : M.info.rootCluster < 2 ^ 32 := by
      obtain ⟨dl, hdl, hon⟩ := hl.root_directory.chain hl.neat.tidy
      obtain ⟨t, ht⟩ := Chain.eq_cons hon.1
      exact (hon.2 _ (by rw [ht]; exact List.mem_cons_self)).hasEntry.lt hM
    refine ⟨hs, Or.inl ⟨none, _, ?_, rfl, ?_, ?_⟩⟩
    · rw [hnil]
      exact .here none
    · rw [rootEntry, Slot.isDirectory_setCluster]
      decide
    · rw [rootEntry, Slot.cluster_setCluster _ hroot]
      rfl
  · rw [List.concat_eq_append] at hcs
    rw [hcs, if_neg (by simp)] at hrun
    obtain ⟨found, s1, hlookup, hrest⟩ := Prog.bind_eq_some.mp hrun
    -- the walk ends at the last component, which is a directory, a file, or not there
    obtain ⟨hs1, ⟨p, dl, c, i, l, hleads, hat, hname, rfl⟩ | ⟨rfl, hnone⟩⟩ :=
      hl.lookup hM hs hl.root_directory hlookup
    · have hcalled := hat.called hl.neat.tidy
      rw [hname] at hcalled
      simp only [Prog.pure_run] at hrest
      obtain ⟨rfl, rfl⟩ := Prod.mk.inj (Option.some.inj hrest)
      refine ⟨hs1, ?_⟩
      rw [hcs, List.map_append, List.map_singleton]
      cases hdir : (V.slot c i).isDirectory with
      | true =>
          refine Or.inl ⟨some (c, i), V.slot c i, ?_, by simp, hdir, rfl⟩
          exact leads_concat.mpr ⟨p, (c, i), _, hleads, hcalled, hdir, rfl⟩
      | false =>
          refine Or.inr ⟨fun e he => ?_, fun q hq => ?_⟩
          · split at he
            · cases he
            · cases he
              exact hdir
          · -- a path leads to one entry at most, and this one is a file
            obtain ⟨o', q', n, hleads', hq', hisDir, rfl⟩ := leads_concat.mp hq
            obtain rfl := hleads.unique hl.neat.tidy.unambiguous hleads'
            obtain ⟨-, rfl⟩ := hcalled.unique hl.neat.tidy.unambiguous hq'
            exact absurd (hdir.symm.trans hisDir) (by decide)
    · cases hrest
      refine ⟨hs1, Or.inr ⟨fun e he => absurd he (by simp), fun q hq => ?_⟩⟩
      rw [hcs, List.map_append, List.map_singleton] at hq
      obtain ⟨o', q', n, hleads', hq', -, rfl⟩ := leads_concat.mp hq
      exact hnone o' hleads' q' n hq'.node hq'.parent hq'.name

end Lookup

/-! ## Calls -/

section Calls

variable {M : Mount} (hM : M.Sound) {V : Volume} {A : List Nat} {x y : FsMemory} {fuel : Nat}
  {path : List UInt8} (hl : M.Legible V) (hs : M.At x.disk V A) (hpath : PlainPath path)
  (hpage : (pmmMalloc 1 x.regions).1 ≠ 0)
include hM hl hs hpath hpage

/-- `OpenFile`: a `file_t` with the entry that the path leads to, or a closed one. -/
theorem openFile_opens {mode : Nat} {f : FileT}
    (hrun : FsMemory.openFile M fuel path mode x = some (f, y)) :
    M.At y.disk V A ∧
      ((∃ p dl c i l page, (M.tree V).Leads none (pathNames path) p ∧ M.EntryAt V p dl c i l ∧
          (V.slot c i).name = nameTo83 (lastComponent path) ∧
          f = { entry := some (page, V.slot c i), dirCluster := M.startOf V p,
                name := some (lastComponent path), status := mode }) ∨
        (f = FileT.closed ∧ ∀ p, (M.tree V).Leads none (pathNames path) p →
          (M.tree V).Fresh p (nameTo83 (lastComponent path)))) := by
  have hne : path ≠ [] := by
    rintro rfl
    exact hpath.nonempty rfl
  have hfront : path.dropWhile (· = slash) ≠ [] :=
    fun h => hpath.nonempty (dropWhile_slash_eq_nil.mp h)
  obtain ⟨hcomp, htrail⟩ := dropWhile_slash path
  have hnonempty : components (path.dropWhile (· = slash)) ≠ [] := by
    rw [hcomp]
    exact hpath.nonempty
  have hnoTrailing : trailing (path.dropWhile (· = slash)) = false :=
    (htrail hfront).trans hpath.noTrailing
  rw [FsMemory.openFile, if_neg hne, if_neg hfront] at hrun
  obtain ⟨r, z, hdisk, hrest⟩ := Prog.bind_eq_some.mp hrun
  obtain ⟨t, hloop, rfl⟩ := Prog.zoom_eq_some.mp hdisk
  -- the loop and the walk along the components
  have hcut : (openLoop M fuel _ (path.dropWhile (· = slash)) M.info.rootCluster none x.disk).map
      (Prod.map withoutName id) = _ := openLoop_cut (Nat.lt_succ_self _) hnonempty
  rw [hloop, hnoTrailing, hcomp, components_map_cut hpath.short, Option.map_some, eq_comm,
    Option.map_eq_some_iff] at hcut
  obtain ⟨⟨o, t'⟩, hlookup, heq⟩ := hcut
  obtain ⟨hsettle, rfl⟩ := Prod.mk.inj heq
  obtain ⟨cs, c, hcs⟩ := (List.eq_nil_or_concat (components path)).resolve_left hpath.nonempty
  rw [List.concat_eq_append] at hcs
  have hnames : pathNames path = cs.map nameTo83 := by
    rw [pathNames, hcs, List.map_append, List.map_singleton, List.dropLast_concat]
  have hlast : lastComponent path = c := by rw [lastComponent, hcs, List.getLastD_concat]
  rw [hcs] at hlookup
  obtain ⟨ht, hcase⟩ := hl.lookup hM hs hl.root_directory hlookup
  rw [← hnames, ← hlast] at hcase
  rcases hcase with ⟨p, dl, c, i, l, hleads, hat, hname, rfl⟩ | ⟨rfl, hnone⟩
  · rcases r with _ | ⟨current, _ | ⟨e, nm⟩⟩
    · cases hsettle
    · cases hsettle
    · have hfound : some (M.startOf V p, some (V.slot c i)) = some (current, some e) := hsettle
      obtain ⟨hcurrent, hentry⟩ := Prod.mk.inj (Option.some.inj hfound)
      obtain rfl := Option.some.inj hentry
      have hnm := openLoop_name (Nat.lt_succ_self _) hnonempty hnoTrailing hloop
      rw [lastComponent, hcomp, ← lastComponent] at hnm
      simp only [mallocPage_bind, if_neg hpage, Prog.pure_run] at hrest
      obtain ⟨rfl, rfl⟩ := Prod.mk.inj (Option.some.inj hrest)
      exact ⟨ht, Or.inl ⟨p, dl, c, i, l, _, hleads, hat, hname, by rw [hnm, hcurrent]⟩⟩
  · rcases r with _ | r
    · cases hrest
      exact ⟨ht, Or.inr ⟨rfl, hnone⟩⟩
    · cases hsettle

/-- `CreateFile` and its siblings answer for a path as `f` does for the name in the directory. -/
theorem inParent_answered {f : Nat → List UInt8 → Prog FsState Nat} {call : TreeCall} {r : Nat}
    (habs : path.head? = some slash) (hcode : Returned.of call .noDirectory = .status 6)
    (hf : ∀ o t, M.At t V A → M.Directory V o → (M.tree V).Leads none (pathNames path) o →
      f (M.startOf V o) (lastComponent path) t = some (r, y.disk) →
      M.Answered V (pathNames path) (nameTo83 (lastComponent path)) call (.status r) y.disk)
    (hrun : inParent M fuel f path x = some (r, y)) :
    M.Answered V (pathNames path) (nameTo83 (lastComponent path)) call (.status r) y.disk := by
  obtain ⟨dir, hparent, hne, hcomp⟩ := parentAndName_components hpath habs
  have hnames : pathNames path = (components dir).map nameTo83 := by
    rw [pathNames, hcomp, List.map_append, List.map_singleton, List.dropLast_concat]
  have hshort : ∀ c ∈ components dir, c.length < fat32MaxName := fun c hc =>
    hpath.short c (by rw [hcomp]; exact List.mem_append_left _ hc)
  unfold inParent at hrun
  rw [hparent] at hrun
  obtain ⟨file, z, hopen, hrest⟩ := Prog.bind_eq_some.mp hrun
  obtain ⟨o, t, hresolve, hopened⟩ := openFile_opened hopen
  obtain ⟨ht, hcase⟩ := hl.resolve_directory hM hs hne hshort hresolve
  -- what the call returns when there is no such directory
  have hrefused : (∀ p, ¬ (M.tree V).Leads none (pathNames path) p) → r = 6 → y.disk = t →
      M.Answered V (pathNames path) (nameTo83 (lastComponent path)) call (.status r) y.disk := by
    rintro hnone rfl hdisk
    have hanswer : Answer (M.tree V) (pathNames path) (nameTo83 (lastComponent path)) call .noDirectory
        (M.tree V) := .noDirectory hnone
    have hanswered := ht.answered hl hanswer
    rw [hcode, ← hdisk] at hanswered
    exact hanswered
  rw [← hnames] at hcase
  cases o with
  | none =>
      obtain ⟨hentry, rfl⟩ := Prod.mk.inj hopened
      rw [← hentry] at hrest
      cases hrest
      rcases hcase with ⟨p, e, -, he, -⟩ | ⟨-, hnone⟩
      · cases he
      · exact hrefused hnone rfl rfl
  | some e =>
      obtain ⟨hentry, rfl⟩ := Prod.mk.inj hopened
      rw [if_neg hpage] at hentry
      rw [← hentry] at hrest
      rcases hcase with ⟨p, e', hleads, he, hdir, hcluster⟩ | ⟨hfile, hnone⟩
      · cases he
        simp only [hdir, Bool.not_true, Bool.false_eq_true, if_false] at hrest
        obtain ⟨⟨⟩, z', hfree, hrest⟩ := Prog.bind_eq_some.mp hrest
        cases hfree
        obtain ⟨t', hcall, rfl⟩ := Prog.zoom_eq_some.mp hrest
        rw [hcluster] at hcall
        exact hf p t ht (hl.leads_directory hl.root_directory hleads) hleads hcall
      · simp only [hfile e rfl, Bool.not_false, if_true] at hrest
        cases hrest
        exact hrefused hnone rfl rfl

end Calls

end Os003
