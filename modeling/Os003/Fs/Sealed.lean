import Os003.Fs.Containment

set_option autoImplicit false

/-! # Closed sets of clusters

On a corrupted volume the links may form cycles, join, or lead to the clusters of another file, so
that a directory need not be a list of clusters. It still lies in a set of clusters that the links do
not leave except to an end mark. A walk stays in such a set, and the functions that change a directory
without growing it write to its clusters only.
-/

namespace Os003

open Bytes Linked

/-! ## Sealed sets -/

/-- Clusters of the volume whose links do not lead out of the set, except to an end mark. -/
structure Mount.Sealed (M : Mount) (s : FsState) (S : Set Nat) : Prop where
  inRange : ∀ c ∈ S, M.InRange c
  closed : ChainClosed (M.raw s).fat IsEof S

namespace Mount.Sealed

variable {M : Mount} {s s' : FsState} {S F C : Set Nat} {c v : Nat}

theorem congr (h : M.Sealed s S) (hn : ∀ c ∈ S, (M.raw s').fat c = (M.raw s).fat c) :
    M.Sealed s' S := ⟨h.inRange, h.closed.congr hn⟩

theorem looked (h : M.Sealed s S) (h' : M.Looked s s') : M.Sealed s' S :=
  h.congr (fun c _ => by rw [h'.raw])

/-- No cluster of a closed set is free. -/
theorem not_free (h : M.Sealed s S) (hc : c ∈ S) : (M.raw s).fat c ≠ fat32EntryFree := by
  intro hfree
  rcases h.closed c hc with hin | heof
  · have hlow := (h.inRange _ hin).1
    rw [hfree] at hlow
    exact absurd hlow (by decide)
  · rw [hfree] at heof
    exact absurd heof (by decide)

theorem edits (h : M.Sealed s S) (h' : M.Edits F C s s') (hd : Disjoint S F) : M.Sealed s' S :=
  h.congr (fun c hc => h'.fat c (h.inRange c hc).hasEntry (Set.disjoint_left.mp hd hc))

theorem handsOut {r : Nat} (h : M.Sealed s S) (h' : M.HandsOut s r s') : M.Sealed s' S :=
  h.congr (fun c hc => h'.kept c (h.inRange c hc).hasEntry (h.not_free hc))

/-- A cluster that was free is in no closed set. -/
theorem not_mem {r : Nat} (h : M.Sealed s S) (h' : M.HandsOut s r s') (hr : r ≠ 0) : r ∉ S :=
  fun hm => h.not_free hm (h'.free hr)

/-- The cluster handed out joins the set. -/
theorem handsOut_insert {r : Nat} (h : M.Sealed s S) (h' : M.HandsOut s r s') (hr : r ≠ 0) :
    M.Sealed s' (insert r S) := by
  refine ⟨?_, (h.handsOut h').closed.insert (Or.inr (h'.last hr))⟩
  intro c hc
  rcases Set.mem_insert_iff.mp hc with rfl | hc
  · exact h'.inRange hr
  · exact h.inRange c hc

/-- A link of the set, or of another cluster, is overwritten by a cluster of the set or an end
mark. -/
theorem wordWrite (h : M.Sealed s S) (h' : M.WordWrite c v s s')
    (hv : v % 2 ^ 28 ∈ S ∨ IsEof (v % 2 ^ 28)) : M.Sealed s' S := by
  refine ⟨h.inRange, h.closed.relink (fun x hx hne => h'.others x (h.inRange x hx).hasEntry hne) ?_⟩
  intro hc
  rcases h'.own (h.inRange c hc).hasEntry with ho | ho
  · rw [ho]
    exact h.closed c hc
  · rw [ho]
    exact hv

theorem loose (h : M.Sealed s S) : M.Loose s S :=
  fun c hc => ⟨h.inRange c hc, (h.closed c hc).imp_right Or.inl⟩

end Mount.Sealed

/-! ## Walking a directory -/

section Walk

variable {M : Mount} {s s' : FsState} {D : Set Nat} {d : Nat} {Acc γ β : Type}

/-- A walk in a closed set ends with a failed read, with a hit in some cluster of the set, or behind
the last cluster of a chain without a hit. -/
theorem walkDir_sealed {readErr nextErr : β} {scan : List UInt8 → Acc → Acc ⊕ γ}
    {onHit : Nat → List UInt8 → γ → Prog FsState β}
    {onEnd : Nat → List UInt8 → Acc → Prog FsState β} {fuel : Nat} {acc : Acc} {r : β}
    (hD : M.Sealed s D) (hd : d ∈ D)
    (hrun : walkDir M readErr nextErr scan onHit onEnd fuel d acc s = some (r, s')) :
    ∃ s1, M.Looked s s1 ∧ (s1 = s' ∨
      (∃ c ∈ D, ∃ a hit, scan ((M.raw s).data c) a = .inr hit ∧
        onHit c ((M.raw s).data c) hit s1 = some (r, s')) ∨
      ∃ l, Chain (M.raw s).fat IsEof d l ∧
        (∀ c ∈ l, ∃ a a', scan ((M.raw s).data c) a = .inl a') ∧
        ∃ next buf a, onEnd next buf a s1 = some (r, s')) := by
  -- by the clusters walked: each is one of `D`, and so is the one its entry leads to
  induction fuel generalizing d s acc with
  | zero => cases hrun
  | succ fuel ih =>
      rw [walkDir] at hrun
      obtain ⟨⟨st, buf⟩, s1, hread, hrest⟩ := Prog.bind_eq_some.mp hrun
      obtain ⟨hlook1, hbuf⟩ := readCluster_looked hread
      simp only [] at hrest
      by_cases hst : st = 0
      · rw [if_neg (not_not.mpr hst)] at hrest
        rw [hbuf hst] at hrest
        cases hscan : scan ((M.raw s).data d) acc with
        | inr hit =>
            rw [hscan] at hrest
            exact ⟨s1, hlook1, Or.inr (Or.inl ⟨d, hd, acc, hit, hscan, hrest⟩)⟩
        | inl acc' =>
            rw [hscan] at hrest
            obtain ⟨o, s2, hnext, hrest⟩ := Prog.bind_eq_some.mp hrest
            obtain ⟨hlook2, hval⟩ := nextCluster_looked hnext
            have hlook := hlook1.trans hlook2
            cases o with
            | none =>
                simp only [Prog.pure_run] at hrest
                cases hrest
                exact ⟨_, hlook, Or.inl rfl⟩
            | some next =>
                have hnextval : next = (M.raw s).fat d := by
                  rw [hval next rfl, hlook1.raw]
                simp only [] at hrest
                by_cases heof : next ≥ fat32EntryEof
                · rw [if_pos heof] at hrest
                  have hstop : IsEof ((M.raw s).fat d) := by
                    rw [← hnextval]
                    exact heof
                  refine ⟨s2, hlook, Or.inr (Or.inr ⟨[d], Chain.last hstop, ?_, _, _, _, hrest⟩)⟩
                  intro c hc
                  rw [List.mem_singleton.mp hc]
                  exact ⟨acc, acc', hscan⟩
                · rw [if_neg heof] at hrest
                  have hstop : ¬ IsEof ((M.raw s).fat d) := by
                    rw [← hnextval]
                    exact heof
                  have hmem : next ∈ D := by
                    rw [hnextval]
                    exact (hD.closed d hd).resolve_right hstop
                  obtain ⟨s3, hlook3, hcase⟩ := ih (hD.looked hlook) hmem hrest
                  rw [hlook.raw] at hcase
                  refine ⟨s3, hlook.trans hlook3, ?_⟩
                  rcases hcase with h | h | ⟨l, hl, hmiss, hend⟩
                  · exact Or.inl h
                  · exact Or.inr (Or.inl h)
                  · refine Or.inr (Or.inr ⟨d :: l, Chain.step hstop ?_, ?_, hend⟩)
                    · rw [← hnextval]
                      exact hl
                    · intro c hc
                      rcases List.mem_cons.mp hc with rfl | hc
                      · exact ⟨acc, acc', hscan⟩
                      · exact hmiss c hc
      · rw [if_pos hst, Prog.pure_run] at hrest
        cases hrest
        exact ⟨_, hlook1, Or.inl rfl⟩

/-- A walk that does nothing behind the last cluster. -/
theorem walkDir_hits {readErr nextErr none : β} {scan : List UInt8 → Acc → Acc ⊕ γ}
    {onHit : Nat → List UInt8 → γ → Prog FsState β} {fuel : Nat} {acc : Acc} {r : β}
    (hD : M.Sealed s D) (hd : d ∈ D)
    (hrun : walkDir M readErr nextErr scan onHit (fun _ _ _ => pure none) fuel d acc s =
      some (r, s')) :
    ∃ s1, M.Looked s s1 ∧ (s1 = s' ∨
      ∃ c ∈ D, ∃ a hit, scan ((M.raw s).data c) a = .inr hit ∧
        onHit c ((M.raw s).data c) hit s1 = some (r, s')) := by
  obtain ⟨s1, hlook, hcase⟩ := walkDir_sealed hD hd hrun
  rcases hcase with h | h | ⟨l, -, -, next, buf, a, hend⟩
  · exact ⟨s1, hlook, Or.inl h⟩
  · exact ⟨s1, hlook, Or.inr h⟩
  · rw [Prog.pure_run] at hend
    cases hend
    exact ⟨_, hlook, Or.inl rfl⟩

/-- A walk that only reads at its end, whatever the numbers it follows. -/
theorem walkDir_looked (readErr nextErr : β) (scan : List UInt8 → Acc → Acc ⊕ γ)
    {onHit : Nat → List UInt8 → γ → Prog FsState β}
    {onEnd : Nat → List UInt8 → Acc → Prog FsState β}
    (hhit : ∀ c buf hit, Prog.Steps M.Looked (onHit c buf hit))
    (hend : ∀ c buf acc, Prog.Steps M.Looked (onEnd c buf acc)) (fuel d : Nat) (acc : Acc) :
    Prog.Steps M.Looked (walkDir M readErr nextErr scan onHit onEnd fuel d acc) := by
  induction fuel generalizing d acc with
  | zero => exact Prog.Steps.diverge
  | succ fuel ih =>
      intro s r s' hrun
      rw [walkDir] at hrun
      obtain ⟨⟨st, buf⟩, s1, hread, hrest⟩ := Prog.bind_eq_some.mp hrun
      have hlook1 := (readCluster_looked hread).1
      refine hlook1.trans ?_
      simp only [] at hrest
      by_cases hst : st = 0
      · rw [if_neg (not_not.mpr hst)] at hrest
        cases hscan : scan buf acc with
        | inr hit =>
            rw [hscan] at hrest
            exact hhit d buf hit s1 r s' hrest
        | inl acc' =>
            rw [hscan] at hrest
            obtain ⟨o, s2, hnext, hrest⟩ := Prog.bind_eq_some.mp hrest
            refine (nextCluster_looked hnext).1.trans ?_
            cases o with
            | none =>
                simp only [Prog.pure_run] at hrest
                cases hrest
                exact Mount.Looked.refl _
            | some next =>
                simp only [] at hrest
                by_cases heof : next ≥ fat32EntryEof
                · rw [if_pos heof] at hrest
                  exact hend next buf acc' s2 r s' hrest
                · rw [if_neg heof] at hrest
                  exact ih next acc' s2 r s' hrest
      · rw [if_pos hst, Prog.pure_run] at hrest
        cases hrest
        exact Mount.Looked.refl _

theorem findEntryAny_looked (fuel : Nat) (name : List UInt8) :
    Prog.Steps M.Looked (fat32FindEntryAny M fuel d name) :=
  walkDir_looked _ _ _ (fun _ _ _ => Prog.Steps.pure Mount.Looked.refl _)
    (fun _ _ _ => Prog.Steps.pure Mount.Looked.refl _) fuel d []

theorem isDirEmpty_looked (fuel c : Nat) : Prog.Steps M.Looked (isDirEmpty M fuel c) :=
  Prog.Steps.ite (Prog.Steps.pure Mount.Looked.refl _)
    (walkDir_looked _ _ _ (fun _ _ _ => Prog.Steps.pure Mount.Looked.refl _)
      (fun _ _ _ => Prog.Steps.pure Mount.Looked.refl _) fuel c ())

end Walk

/-! ## Changes of the directory -/

/-- What `FAT32_FreeClusterChain` takes for the number of a cluster lies in `T`. -/
def ClusterIn (T : Set Nat) (e : Nat) : Prop := 2 ≤ e → e < fat32EntryEof → e ∈ T

/-- The start clusters in the directory lie in `T`. -/
def Mount.Starts (M : Mount) (s : FsState) (D T : Set Nat) : Prop :=
  ∀ c ∈ D, ∀ i, M.LiveAt (M.raw s) c i → ClusterIn T (slotAt ((M.raw s).data c) i).cluster

section Directory

variable {M : Mount} (hF : M.Fitted) {s s' : FsState} {D T : Set Nat} {d c fuel r : Nat}
include hF

/-- The last step of a change: the cluster is written and the drive flushed. -/
theorem writeAndFlush_contained {buf : List UInt8} (hc : M.InRange c)
    (hrun : (do
      let st ← fat32WriteCluster M c buf
      if st ≠ 0 then return 3
      ata (ataFlushCache (refAsBool M.disk.isMaster))
      return 0 : Prog FsState Nat) s = some (r, s')) : M.Contained s s' := by
  obtain ⟨st, s1, hwrite, hrest⟩ := Prog.bind_eq_some.mp hrun
  have hcont := (writeCluster_edits hF hc hwrite).1.contained
  by_cases hst : st = 0
  · rw [if_neg (not_not.mpr hst)] at hrest
    obtain ⟨u, s2, hflush, hrest⟩ := Prog.bind_eq_some.mp hrest
    rw [Prog.pure_run] at hrest
    cases hrest
    exact hcont.trans (ataFlush_looked _ _ _ _ hflush).contained
  · rw [if_pos hst, Prog.pure_run] at hrest
    cases hrest
    exact hcont

theorem removeSlots_contained {buf : List UInt8} {i : Nat} {lfn : List Nat} (hc : M.InRange c)
    (hrun : removeSlots M c buf i lfn s = some (r, s')) : M.Contained s s' := by
  rw [removeSlots] at hrun
  exact writeAndFlush_contained hF hc hrun

theorem writeNewSlots_contained {buf : List UInt8} {pos : Nat} {slots : List Slot}
    (hc : M.InRange c) (hrun : writeNewSlots M c buf pos slots s = some (r, s')) :
    M.Contained s s' := by
  rw [writeNewSlots] at hrun
  exact writeAndFlush_contained hF hc hrun

omit hF in
/-- A hit of the search for a name is a live slot of a cluster of the directory. -/
theorem scanOrdered_live {name : List UInt8} {V : Volume} {a lfn : List Nat} {i : Nat}
    (h : scanOrdered M name (V.data c) a = .inr (i, lfn)) : M.LiveAt V c i := by
  obtain ⟨-, hlive, -⟩ := scanLfn_inr h (fun j hj => absurd hj (Nat.not_lt_zero j))
  rw [Nat.zero_add] at hlive
  exact hlive

theorem writeDirEntry_contained {e : Slot} (hD : M.Sealed s D) (hd : d ∈ D)
    (hrun : fat32WriteDirEntry M fuel d e s = some (r, s')) : M.Contained s s' := by
  obtain ⟨s1, hlook, hcase⟩ := walkDir_hits hD hd hrun
  rcases hcase with rfl | ⟨c, hc, a, i, -, hhit⟩
  · exact hlook.contained
  · exact hlook.contained.trans (writeCluster_edits hF (hD.inRange c hc) hhit).1.contained

theorem renameFile_contained {oldName newName : List UInt8} (hD : M.Sealed s D) (hd : d ∈ D)
    (hrun : fat32RenameFile M fuel d oldName newName s = some (r, s')) : M.Contained s s' := by
  obtain ⟨⟨st, o⟩, s1, hfind, hrest⟩ := Prog.bind_eq_some.mp hrun
  have hlook1 := findEntryAny_looked fuel newName _ _ _ hfind
  refine hlook1.contained.trans ?_
  simp only [] at hrest
  by_cases hst : st = 0
  · rw [if_pos hst, Prog.pure_run] at hrest
    cases hrest
    exact Mount.Contained.refl _
  · rw [if_neg hst] at hrest
    have hD1 := hD.looked hlook1
    obtain ⟨s2, hlook2, hcase⟩ := walkDir_hits hD1 hd hrest
    rcases hcase with rfl | ⟨c, hc, a, ⟨i, lfn⟩, -, hhit⟩
    · exact hlook2.contained
    · exact hlook2.contained.trans (writeAndFlush_contained hF (hD1.inRange c hc) hhit)

theorem freeChain_contained {e : Nat} (hT : M.Sealed s T) (he : ClusterIn T e)
    (hrun : fat32FreeClusterChain M fuel e s = some (r, s')) : M.Contained s s' := by
  by_cases hlow : 2 ≤ e ∧ e < fat32EntryEof
  · exact (freeChain_edits hF hT.loose (Or.inl (he hlow.1 hlow.2)) hrun).1.contained
  · -- the loop over the chain is not entered
    cases fuel with
    | zero => cases hrun
    | succ fuel =>
        rw [fat32FreeClusterChain, if_neg hlow, Prog.pure_run] at hrun
        cases hrun
        exact Mount.Contained.refl _

theorem deleteFile_contained {name : List UInt8} (hD : M.Sealed s D) (hT : M.Sealed s T)
    (hstarts : M.Starts s D T) (hd : d ∈ D)
    (hrun : fat32DeleteFile M fuel d name s = some (r, s')) : M.Contained s s' := by
  obtain ⟨s1, hlook, hcase⟩ := walkDir_hits hD hd hrun
  refine hlook.contained.trans ?_
  rcases hcase with rfl | ⟨c, hc, a, ⟨i, lfn⟩, hscan, hhit⟩
  · exact Mount.Contained.refl _
  · have hin := hD.inRange c hc
    have hstart := hstarts c hc i (scanOrdered_live hscan)
    by_cases hdir : (slotAt ((M.raw s).data c) i).isDirectory = true
    · simp only [hdir, if_true, Prog.pure_run] at hhit
      cases hhit
      exact Mount.Contained.refl _
    · simp only [] at hhit
      rw [if_neg hdir] at hhit
      by_cases h0 : (slotAt ((M.raw s).data c) i).cluster = 0
      · rw [if_neg (not_not.mpr h0)] at hhit
        exact removeSlots_contained hF hin hhit
      · rw [if_pos h0] at hhit
        obtain ⟨st, s2, hfree, hhit⟩ := Prog.bind_eq_some.mp hhit
        refine (freeChain_contained hF (hT.looked hlook) hstart hfree).trans ?_
        by_cases hst : st = 0
        · rw [if_neg (not_not.mpr hst)] at hhit
          exact removeSlots_contained hF hin hhit
        · rw [if_pos hst, Prog.pure_run] at hhit
          cases hhit
          exact Mount.Contained.refl _

theorem removeDir_contained {name : List UInt8} (hD : M.Sealed s D) (hT : M.Sealed s T)
    (hstarts : M.Starts s D T) (hd : d ∈ D)
    (hrun : fat32RemoveDir M fuel d name s = some (r, s')) : M.Contained s s' := by
  obtain ⟨s1, hlook, hcase⟩ := walkDir_hits hD hd hrun
  refine hlook.contained.trans ?_
  rcases hcase with rfl | ⟨c, hc, a, ⟨i, lfn⟩, hscan, hhit⟩
  · exact Mount.Contained.refl _
  · have hin := hD.inRange c hc
    have hstart := hstarts c hc i (scanOrdered_live hscan)
    by_cases hdir : (slotAt ((M.raw s).data c) i).isDirectory = true
    · simp only [hdir, Bool.not_true] at hhit
      rw [if_neg Bool.false_ne_true] at hhit
      by_cases h0 : (slotAt ((M.raw s).data c) i).cluster = 0
      · rw [if_neg (not_not.mpr h0)] at hhit
        exact removeSlots_contained hF hin hhit
      · rw [if_pos h0] at hhit
        obtain ⟨b, s2, hempty, hhit⟩ := Prog.bind_eq_some.mp hhit
        have hlook2 := isDirEmpty_looked _ _ _ _ _ hempty
        refine hlook2.contained.trans ?_
        cases b with
        | false =>
            simp only [Bool.not_false, if_true, Prog.pure_run] at hhit
            cases hhit
            exact Mount.Contained.refl _
        | true =>
            simp only [Bool.not_true] at hhit
            rw [if_neg Bool.false_ne_true] at hhit
            obtain ⟨st, s3, hfree, hhit⟩ := Prog.bind_eq_some.mp hhit
            refine (freeChain_contained hF (hT.looked (hlook.trans hlook2)) hstart hfree).trans ?_
            by_cases hst : st = 0
            · rw [if_neg (not_not.mpr hst)] at hhit
              exact removeSlots_contained hF hin hhit
            · rw [if_pos hst, Prog.pure_run] at hhit
              cases hhit
              exact Mount.Contained.refl _
    · simp only [hdir, Bool.not_false, if_true, Prog.pure_run] at hhit
      cases hhit
      exact Mount.Contained.refl _

end Directory

end Os003
