import Os003.Fs.Faulty
import Os003.Fs.Tidy

set_option autoImplicit false

/-! # Deletions that fail

`FAT32_DeleteFile` and `FAT32_RemoveDir` free the chain of an entry first and mark the entry as
deleted afterwards. Between the two the entry is live and its clusters are free. This file says
which failing commands leave a volume in that state: those behind the first write to the table, up
to the write of the directory sector with the entry.

When the tail of a chain is cut off, in `FAT32_WriteFile`, the link to it goes first.
-/

namespace Os003

open Bytes Linked

/-! ## Dangling entries -/

/-- Following the links of the table leads from `a` to `x`. -/
def Volume.Leads (V : Volume) : Nat → Nat → Prop :=
  Relation.ReflTransGen fun b c => V.fat b = c ∧ ¬ IsEof c

/-- The cluster is marked free. -/
def Mount.Free (M : Mount) (V : Volume) (x : Nat) : Prop := M.HasEntry x ∧ V.fat x = fat32EntryFree

/-- No live entry has a start cluster, or a link behind it, that is marked free. -/
def Mount.NoneDangling (M : Mount) (V : Volume) : Prop :=
  ∀ c i, M.Present V (some (c, i)) → (V.slot c i).cluster ≠ 0 →
    ∀ x, V.Leads (V.slot c i).cluster x → ¬ M.Free V x

/-- The directory of `o` has the entry of `q`. -/
def Mount.ParentOf (M : Mount) (V : Volume) (o q : Owner) : Prop :=
  V.isDirOf o = true ∧ ∃ l c i, M.FileOn V (M.startOf V o) l ∧ c ∈ l ∧ M.LiveAt V c i ∧
    q = some (c, i)

section Dangling

variable {M : Mount} {V V' : Volume} {o o' q : Owner} {dl l k : List Nat} {c i start x : Nat}

/-- The links of a file lead to its own clusters only. -/
theorem Mount.FileOn.leads_mem (h : M.FileOn V start l) (h0 : start ≠ 0) (hx : V.Leads start x) :
    x ∈ l := by
  have hne : l ≠ [] := fun hn => h0 (h.nil_iff.mp hn)
  have hchain := h.chain hne
  induction hx with
  | refl => exact hchain.mem_self
  | @tail b e _ hstep ih =>
      rcases Chain.stop_or_mem hchain ih with hstop | hmem
      · rw [hstep.1] at hstop
        exact absurd hstop hstep.2
      · rw [hstep.1] at hmem
        exact hmem

/-- When every entry has a proper chain, none dangles. -/
theorem Mount.noneDangling_of_chains
    (h : ∀ c i, M.Present V (some (c, i)) → ∃ l, M.FileOn V (V.slot c i).cluster l) :
    M.NoneDangling V := by
  intro c i hp h0 x hx hfree
  obtain ⟨l, hl⟩ := h c i hp
  exact hl.fat_ne_free (hl.leads_mem h0 hx) hfree.2

theorem Mount.Tidy.noneDangling (ht : M.Tidy V) : M.NoneDangling V :=
  Mount.noneDangling_of_chains fun c i hp => ht.chain (some (c, i)) hp

/-! ## No entry lies below itself -/

theorem Mount.Tidy.parent_unique (ht : M.Tidy V) (ho : M.Present V o) (ho' : M.Present V o')
    (h : M.ParentOf V o q) (h' : M.ParentOf V o' q) : o = o' := by
  obtain ⟨-, l, c, i, hl, hc, -, rfl⟩ := h
  obtain ⟨-, l', c', i', hl', hc', -, heq⟩ := h'
  cases heq
  exact ht.disjoint o o' l l' ho ho' hl hl' c hc hc'

theorem Mount.ParentOf.present (h : M.ParentOf V o q) (ho : M.Present V o) : M.Present V q := by
  obtain ⟨hdir, l, c, i, hl, hc, hlive, rfl⟩ := h
  exact Mount.Present.entry ho hdir hl hc hlive

theorem Mount.Tidy.acyclic (ht : M.Tidy V) (hq : M.Present V q) :
    ¬ Relation.TransGen (M.ParentOf V) q q := by
  have hpresent : ∀ {a b : Owner}, M.Present V a → Relation.TransGen (M.ParentOf V) a b →
      M.Present V b := by
    intro a b ha hab
    induction hab with
    | single h => exact h.present ha
    | tail _ h ih => exact h.present ih
  induction hq with
  | root =>
      intro h
      obtain ⟨o, -, hlast⟩ := Relation.TransGen.tail'_iff.mp h
      obtain ⟨-, l, c, i, -, -, -, heq⟩ := hlast
      cases heq
  | @entry o l c i parent dir chain mem live ih =>
      intro h
      have hown : M.ParentOf V o (some (c, i)) := ⟨dir, l, c, i, chain, mem, live, rfl⟩
      have hself := Mount.Present.entry parent dir chain mem live
      obtain ⟨o', hto, hlast⟩ := Relation.TransGen.tail'_iff.mp h
      -- the last step of the cycle is the step from the directory of the entry
      have ho' : M.Present V o' := by
        rcases Relation.reflTransGen_iff_eq_or_transGen.mp hto with rfl | hto
        · exact hself
        · exact hpresent hself hto
      obtain rfl := ht.parent_unique ho' parent hlast hown
      exact ih (Relation.TransGen.head' hown hto)

/-! ## The volume after an interrupted deletion -/

/-- The entry in slot `i` of the cluster `c` is the one deleted, and its clusters are `l`: nothing
else of the volume is different. -/
structure Mount.Cuts (M : Mount) (V V' : Volume) (c i : Nat) (l : List Nat) : Prop where
  fat : ∀ x, x ∉ l → V'.fat x = V.fat x
  data : ∀ x, x ≠ c → V'.data x = V.data x
  live : ∀ j, M.LiveAt V' c j → M.LiveAt V c j
  slot : ∀ j, M.LiveAt V' c j → V'.slot c j = V.slot c j
  stays : ∀ j, j ≠ i → M.LiveAt V c j → M.LiveAt V' c j

section Cuts

variable (ht : M.Tidy V) (hat : M.EntryAt V o dl c i l) (hcut : M.Cuts V V' c i l)
include ht hat hcut

theorem Mount.Cuts.chain (hq : M.Present V q) (hne : q = some (c, i) → l = [])
    (hk : M.FileOn V (M.startOf V q) k) : M.FileOn V' (M.startOf V q) k := by
  refine hk.congr (fun x hx => hcut.fat x ?_)
  intro hl
  have hown := ht.disjoint q (some (c, i)) k l hq hat.present hk hat.chain x hx hl
  rw [hne hown] at hl
  exact absurd hl List.not_mem_nil

omit ht hat in
theorem Mount.Cuts.slot_before {x j : Nat} (hlive : M.LiveAt V' x j) :
    M.LiveAt V x j ∧ V'.slot x j = V.slot x j := by
  by_cases hxc : x = c
  · subst hxc
    exact ⟨hcut.live j hlive, hcut.slot j hlive⟩
  · rw [Mount.LiveAt, hcut.data x hxc] at hlive
    exact ⟨hlive, by rw [Volume.slot, Volume.slot, hcut.data x hxc]⟩

omit ht hat in
theorem Mount.Cuts.live_after {x j : Nat} (hne : (x, j) ≠ (c, i)) (hlive : M.LiveAt V x j) :
    M.LiveAt V' x j := by
  by_cases hxc : x = c
  · subst hxc
    exact hcut.stays j (fun h => hne (by rw [h])) hlive
  · rw [Mount.LiveAt, hcut.data x hxc]
    exact hlive

/-- When the entry is gone, or has no clusters, no entry dangles. -/
theorem Mount.Cuts.noneDangling (hgone : M.LiveAt V' c i → l = []) : M.NoneDangling V' := by
  have hbefore : ∀ q, M.Present V' q → M.Present V q ∧ (q = some (c, i) → l = []) ∧
      M.startOf V' q = M.startOf V q ∧ V'.isDirOf q = V.isDirOf q := by
    intro q hq
    induction hq with
    | root => exact ⟨Mount.Present.root, fun h => (by cases h), rfl, rfl⟩
    | @entry q m x j parent dir chain mem live ih =>
        obtain ⟨hq, hne, hstart, hdir⟩ := ih
        obtain ⟨k, hk⟩ := ht.chain q hq
        have hk' := Mount.Cuts.chain ht hat hcut hq hne hk
        rw [← hstart] at hk'
        obtain rfl := chain.unique hk'
        obtain ⟨hlive, hslot⟩ := hcut.slot_before live
        refine ⟨Mount.Present.entry hq (hdir ▸ dir) hk mem hlive, ?_, ?_, ?_⟩
        · intro h
          cases h
          exact hgone live
        · rw [Mount.startOf, Mount.startOf, hslot]
        · rw [Volume.isDirOf, Volume.isDirOf, hslot]
  apply Mount.noneDangling_of_chains
  intro x j hq
  obtain ⟨hq0, hne, hstart, -⟩ := hbefore _ hq
  obtain ⟨k, hk⟩ := ht.chain _ hq0
  have hk' := Mount.Cuts.chain ht hat hcut hq0 hne hk
  rw [← hstart] at hk'
  exact ⟨k, hk'⟩

/-- When the entry is still live and its first cluster is free, the entry dangles. -/
theorem Mount.Cuts.dangling (hstill : M.LiveAt V' c i) (h0 : (V.slot c i).cluster ≠ 0)
    (hfree : V'.fat (V.slot c i).cluster = fat32EntryFree) : ¬ M.NoneDangling V' := by
  have hafter : ∀ q, M.Present V q → (M.Present V' q ∧ M.startOf V' q = M.startOf V q ∧
      V'.isDirOf q = V.isDirOf q) ∨ Relation.TransGen (M.ParentOf V) (some (c, i)) q := by
    intro q hq
    induction hq with
    | root => exact Or.inl ⟨Mount.Present.root, rfl, rfl⟩
    | @entry q k x j parent dir chain mem live ih =>
        have hown : M.ParentOf V q (some (x, j)) := ⟨dir, k, x, j, chain, mem, live, rfl⟩
        rcases ih with ⟨hq', hstart, hdir⟩ | hbelow
        · by_cases hne : q = some (c, i)
          · subst hne
            exact Or.inr (Relation.TransGen.single hown)
          · have hk' := Mount.Cuts.chain ht hat hcut parent (fun h => absurd h hne) chain
            have hlive' : M.LiveAt V' x j := by
              by_cases hxj : (x, j) = (c, i)
              · cases hxj
                exact hstill
              · exact hcut.live_after hxj live
            have hslot := (hcut.slot_before hlive').2
            rw [← hstart] at hk'
            refine Or.inl ⟨Mount.Present.entry hq' (hdir.trans dir) hk' mem hlive', ?_, ?_⟩
            · rw [Mount.startOf, Mount.startOf, hslot]
            · rw [Volume.isDirOf, Volume.isDirOf, hslot]
        · exact Or.inr (hbelow.tail hown)
  intro hnone
  rcases hafter _ hat.present with ⟨hq', hstart, -⟩ | hbelow
  · have hslot : (V'.slot c i).cluster = (V.slot c i).cluster := hstart
    have hl : (V.slot c i).cluster ∈ l :=
      hat.chain.leads_mem h0 Relation.ReflTransGen.refl
    refine hnone c i hq' (by rw [hslot]; exact h0) (V.slot c i).cluster ?_ ⟨?_, hfree⟩
    · rw [hslot]
      exact Relation.ReflTransGen.refl
    · exact (hat.chain.1 _ hl).hasEntry
  · exact ht.acyclic hat.present hbelow

end Cuts

end Dangling

/-! ## The slots of the entry -/

theorem slotAt_mixed {old buf : List UInt8} (hlen : buf.length = old.length) {n : Nat}
    (hn : 512 * n ≤ buf.length) (j : Nat) :
    slotAt (mixed old buf n) j = if j / 16 < n then slotAt buf j else slotAt old j := by
  have htake : (buf.take (512 * n)).length = 512 * n := by
    rw [List.length_take]
    omega
  apply Slot.ext_bytes
  intro k hk
  rw [getD_slotAt _ _ _ hk, mixed, getD_splice _ _ _ (by rw [htake]; omega), htake]
  by_cases hj : j / 16 < n
  · rw [if_pos (by omega), if_pos hj, getD_slotAt _ _ _ hk, Nat.sub_zero,
      List.getD_eq_getElem?_getD, List.getElem?_take_of_lt (by omega),
      ← List.getD_eq_getElem?_getD]
  · rw [if_neg (by omega), if_neg hj, getD_slotAt _ _ _ hk]

section Cluster

variable {M : Mount} (hM : M.Sound) {V V' : Volume} {c i n : Nat} {l p : List Nat}
include hM

/-- The cluster written back after a deletion has, in the sectors transferred, a deletion mark on
the entry and on pieces of its long name. -/
theorem removed_slot {old : List UInt8} (hlen : old.length = M.clusterSize)
    (hi : SlotLive old M.slotCount i) (hn : n ≤ M.info.sectorsPerCluster) (j : Nat) :
    slotAt (mixed old (markDeleted old (pieces old [] i ++ [i])) n) j = slotAt old j ∨
      ((slotAt (mixed old (markDeleted old (pieces old [] i ++ [i])) n) j).name0 = 0xE5 ∧
        (slotAt old j).name0 ≠ 0 ∧ (j = i ∨ (slotAt old j).attr = attrLfn)) := by
  have hroom : ∀ j ∈ pieces old [] i ++ [i], SlotRoom old j := by
    intro j hj
    rcases List.mem_append.mp hj with h | h
    · exact (hi.piece hM hlen h).1
    · rw [List.mem_singleton.mp h]
      exact hi.room hM hlen
  have hsize := hM.clusterSize_eq
  rw [slotAt_mixed (markDeleted_length hroom) (by rw [markDeleted_length hroom]; omega)]
  by_cases hj : j / 16 < n
  · rw [if_pos hj]
    by_cases hmem : j ∈ pieces old [] i ++ [i]
    · refine Or.inr ⟨(slotAt_markDeleted hroom j).1 hmem, ?_⟩
      rcases List.mem_append.mp hmem with h | h
      · exact ⟨(hi.piece hM hlen h).2.2, Or.inr (pieces_spec h).2.2⟩
      · rw [List.mem_singleton.mp h]
        exact ⟨((isValidSfnEntry_iff _).mp hi.valid).1, Or.inl rfl⟩
    · exact Or.inl ((slotAt_markDeleted hroom j).2 hmem)
  · rw [if_neg hj]
    exact Or.inl rfl

/-- Whatever part of the chain has been freed and of the cluster written back, the rest of the
volume is as it was; and the entry is gone when its sector has been written. -/
theorem cuts_removed (hlen : (V.data c).length = M.clusterSize) (hlive : M.LiveAt V c i)
    (hp : p ⊆ l) (hn : n ≤ M.info.sectorsPerCluster)
    (hV : V' = (V.clear p).setData c
      (mixed (V.data c) (markDeleted (V.data c) (pieces (V.data c) [] i ++ [i])) n)) :
    M.Cuts V V' c i l ∧ (M.LiveAt V' c i ↔ ¬ i / 16 < n) := by
  have hslots := removed_slot hM hlen hlive hn
  have hdata : V'.data c =
      mixed (V.data c) (markDeleted (V.data c) (pieces (V.data c) [] i ++ [i])) n := by
    rw [hV, Volume.setData_data, Function.update_self]
  rw [← hdata] at hslots
  -- a marked slot is no entry, so an entry that is left holds what it held
  have hdead : ∀ j, (slotAt (V'.data c) j).name0 = 0xE5 → ¬ M.LiveAt V' c j := by
    intro j hj h
    have hvalid := h.valid
    rw [isValidSfnEntry_deleted hj] at hvalid
    cases hvalid
  have hreached : ∀ j, (slotAt (V.data c) j).name0 ≠ 0 → (slotAt (V'.data c) j).name0 ≠ 0 := by
    intro j hj
    rcases hslots j with h | ⟨h, -⟩
    · rw [h]
      exact hj
    · rw [h]
      decide
  have hkept : ∀ j, M.LiveAt V' c j → slotAt (V'.data c) j = slotAt (V.data c) j := by
    intro j hj
    rcases hslots j with h | ⟨h, -⟩
    · exact h
    · exact absurd hj (hdead j h)
  refine ⟨⟨?_, ?_, ?_, hkept, ?_⟩, ?_⟩
  · intro x hx
    rw [hV]
    exact if_neg (fun h => hx (hp h))
  · intro x hx
    rw [hV, Volume.setData_data, Function.update_of_ne hx, Volume.clear_data]
  · intro j hj
    refine ⟨hj.lt, ?_, fun k hk => ?_⟩
    · rw [← hkept j hj]
      exact hj.valid
    · rcases hslots k with h | ⟨-, h, -⟩
      · rw [← h]
        exact hj.reached k hk
      · exact h
  · -- of the slots that were marked only `i` was an entry, the others were pieces
    intro j hji hj
    have hsame : slotAt (V'.data c) j = slotAt (V.data c) j := by
      rcases hslots j with h | ⟨-, -, h | h⟩
      · exact h
      · exact absurd h hji
      · have hvalid := hj.valid
        rw [isValidSfnEntry_lfn h] at hvalid
        cases hvalid
    refine ⟨hj.lt, ?_, fun k hk => hreached k (hj.reached k hk)⟩
    rw [hsame]
    exact hj.valid
  · -- the entry itself
    obtain ⟨hlength, hmark, -⟩ := removed_spec hM hlen hlive
    have hsize := hM.clusterSize_eq
    have hslot := slotAt_mixed (hlength.trans hlen.symm) (n := n) (by omega) i
    rw [← hdata] at hslot
    constructor
    · intro h hin
      rw [if_pos hin] at hslot
      exact hdead i (by rw [hslot, hmark]) h
    · intro hout
      rw [if_neg hout] at hslot
      refine ⟨hlive.lt, ?_, fun k hk => hreached k (hlive.reached k hk)⟩
      rw [hslot]
      exact hlive.valid

end Cluster

/-! ## The two functions -/

/-- `FAT32_DeleteFile` or `FAT32_RemoveDir`. -/
inductive Removal
  | file
  | dir
deriving DecidableEq, Repr

namespace Removal

/-- The function. -/
def run (M : Mount) : Removal → Nat → Nat → List UInt8 → Prog FsState Nat
  | file => fat32DeleteFile M
  | dir => fat32RemoveDir M

/-- The entries it removes. -/
def Takes : Removal → Slot → Prop
  | file, e => e.isDirectory = false
  | dir, e => e.isDirectory = true

/-- What it wants of the clusters of the entry before it frees them. -/
def Allows (M : Mount) (V : Volume) (l : List Nat) : Removal → Prop
  | file => True
  | dir => M.seemsEmpty V l = true

/-- The commands with which it looks at them. -/
def checks (M : Mount) (V : Volume) (l : List Nat) : Removal → Nat
  | file => 0
  | dir => V.commands (fun buf (_ : Unit) => scanEmpty buf M.slotCount 0) l ()

end Removal

/-- The commands before the first one that frees: the search, and the look at the clusters. -/
def Mount.preparing (M : Mount) (k : Removal) (V : Volume) (dl : List Nat) (name : List UInt8)
    (l : List Nat) : Nat :=
  V.commands (scanOrdered M name) dl [] + k.checks M V l

/-- The failing commands break a deletion off between its two halves: the removal of the entry in
slot `i` of cluster `c` gets as far as the first write to the table, and not as far as the sector
with the entry. -/
structure Mount.BreaksOff (M : Mount) (k : Removal) (s : FsState) (dl : List Nat)
    (name : List UInt8) (c i : Nat) (l : List Nat) : Prop where
  found : ∃ lfn, (M.view s).walk (scanOrdered M name) dl [] = .inl (c, i, lfn)
  takes : k.Takes ((M.view s).slot c i)
  start : ((M.view s).slot c i).cluster ≠ 0
  chain : M.FileOn (M.view s) ((M.view s).slot c i).cluster l
  allows : k.Allows M (M.view s) l
  freed : s.Clean (M.preparing k (M.view s) dl name l + 2) ∧
    0 < s.moves (M.preparing k (M.view s) dl name l + 2) 1
  kept : ¬ (s.Clean (M.preparing k (M.view s) dl name l + l.length * M.freeing) ∧
    i / 16 < s.moves (M.preparing k (M.view s) dl name l + l.length * M.freeing)
      M.info.sectorsPerCluster)

/-- Some entry of the directory at `d` is broken off. -/
def Mount.Interrupts (M : Mount) (k : Removal) (s : FsState) (d : Nat) (name : List UInt8) : Prop :=
  ∃ dl c i l, M.DirOn (M.view s) d dl ∧ M.BreaksOff k s dl name c i l

section Sound

variable {M : Mount} (hM : M.Sound) {s s' : FsState} {o : Owner} {dl l : List Nat} {c i r : Nat}
include hM

theorem isDirEmpty_faulty {fuel d : Nat} {b : Bool} (hd : M.DirOn (M.view s) d l)
    (hrun : isDirEmpty M fuel d s = some (b, s')) :
    (s.Passes (Removal.dir.checks M (M.view s) l) s' ∧ b = M.seemsEmpty (M.view s) l) ∨
    (¬ s.Clean (Removal.dir.checks M (M.view s) l) ∧ b = false ∧ s'.drive = s.drive) := by
  have hd0 : d ≠ 0 := by
    have := (hd.2 d (Chain.mem_self hd.1)).1
    omega
  rw [isDirEmpty, if_neg hd0] at hrun
  rcases walkDir_faulty hM hd.1 hd.2 hrun with ⟨s1, hpass, hfin⟩ | ⟨hfail, herr, hdrive⟩
  · left
    unfold Mount.seemsEmpty
    cases hwalk : (M.view s).walk (fun buf (_ : Unit) => scanEmpty buf M.slotCount 0) l () with
    | inl hit =>
        rw [hwalk, Volume.finish, Prog.pure_run] at hfin
        cases hfin
        exact ⟨hpass, rfl⟩
    | inr acc =>
        rw [hwalk, Volume.finish, Prog.pure_run] at hfin
        cases hfin
        exact ⟨hpass, rfl⟩
  · refine Or.inr ⟨hfail, ?_, hdrive⟩
    rcases herr with h | h
    · exact h
    · exact h

/-- The last step of a deletion, on a cluster that the freeing before has left alone. -/
theorem removeSlots_faulty {V : Volume} (hc : M.InRange c) (hdata : (M.view s).data c = V.data c)
    (hlive : M.LiveAt V c i)
    (hrun : removeSlots M c (V.data c) i (pieces (V.data c) [] i) s = some (r, s')) :
    M.view s' = (M.view s).setData c (mixed (V.data c)
      (markDeleted (V.data c) (pieces (V.data c) [] i ++ [i]))
      (s.moves 0 M.info.sectorsPerCluster)) ∧ (r = 0 ↔ s.Clean 1) := by
  have hlen : (V.data c).length = M.clusterSize := by
    rw [← hdata, M.view_data_length s hc]
  obtain ⟨st, s1, hwrite, hview, hst⟩ := writeCluster_faulty hM (s := s) hc
    (removed_spec hM hlen hlive).1
  rw [removeSlots, Prog.bind_run hwrite] at hrun
  rw [hdata] at hview
  by_cases h0 : st = 0
  · rw [if_neg (by omega), Prog.bind_run (ata_flush_run _ _), Prog.pure_run] at hrun
    cases hrun
    exact ⟨hview, by simp [← hst, h0]⟩
  · rw [if_pos h0, Prog.pure_run] at hrun
    cases hrun
    exact ⟨hview, by simp [← hst, h0]⟩

/-- Freeing the chain and removing the slots, from a state that shows the volume `V`: the clusters
`p` have been freed, and `n` sectors of the directory cluster written. -/
theorem removal_faulty {fuel : Nat} {V : Volume} (hV : M.view s = V) (hc : M.InRange c)
    (hlive : M.LiveAt V c i) (h0 : (V.slot c i).cluster ≠ 0)
    (hl : M.FileOn V (V.slot c i).cluster l)
    (hrun : (do
      let st ← fat32FreeClusterChain M fuel (V.slot c i).cluster
      if st ≠ 0 then return 3
      removeSlots M c (V.data c) i (pieces (V.data c) [] i)) s = some (r, s')) :
    ∃ p n, p ⊆ l ∧ n ≤ M.info.sectorsPerCluster ∧
      M.view s' = (V.clear p).setData c
        (mixed (V.data c) (markDeleted (V.data c) (pieces (V.data c) [] i ++ [i])) n) ∧
      ((V.slot c i).cluster ∈ p ↔ s.Clean 2 ∧ 0 < s.moves 2 1) ∧
      ((V.slot c i).cluster ∉ p → M.view s' = V) ∧
      (i / 16 < n ↔ s.Clean (l.length * M.freeing) ∧
        i / 16 < s.moves (l.length * M.freeing) M.info.sectorsPerCluster) := by
  have hne : l ≠ [] := fun h => h0 (hl.nil_iff.mp h)
  have hchain : (M.view s).ChainOf (V.slot c i).cluster l := by
    rw [hV]
    exact hl.chain hne
  obtain ⟨st, s1, hfree, hrest⟩ := Prog.bind_eq_some.mp hrun
  obtain ⟨p, hp, hview, hstart, hnil, hcase⟩ := freeChain_faulty hM hchain hl.1 hfree
  rw [hV] at hview
  rcases hcase with ⟨rfl, rfl, hspend⟩ | ⟨hst, hfail⟩
  · rw [if_neg (by omega)] at hrest
    have hdata : (M.view s1).data c = V.data c := by
      rw [hview, Volume.clear_data]
    obtain ⟨hview', -⟩ := removeSlots_faulty hM hc hdata hlive hrest
    rw [hview, hspend.moves, Nat.add_zero] at hview'
    refine ⟨p, _, List.Subset.refl p, s.moves_le _ _, hview', hstart, ?_, ?_⟩
    · intro hno
      exact absurd (hnil hno) hne
    · simp only [hspend.1, true_and]
  · rw [if_pos hst, Prog.pure_run] at hrest
    cases hrest
    refine ⟨p, 0, hp, Nat.zero_le _, ?_, hstart, ?_, ?_⟩
    · -- no slot has been touched
      rw [hview, mixed, Nat.mul_zero, List.take_zero, splice_nil, Volume.setData,
        Volume.clear_data, Function.update_eq_self]
      rfl
    · intro hno
      rw [hview, hnil hno, Volume.clear_nil]
    · simp [hfail]

/-- So the entry dangles afterwards when its first cluster has been freed and it is still there. -/
theorem removal_dangles {fuel : Nat} {V : Volume} (ht : M.Tidy V) (hat : M.EntryAt V o dl c i l)
    (hV : M.view s = V) (h0 : (V.slot c i).cluster ≠ 0)
    (hrun : (do
      let st ← fat32FreeClusterChain M fuel (V.slot c i).cluster
      if st ≠ 0 then return 3
      removeSlots M c (V.data c) i (pieces (V.data c) [] i)) s = some (r, s')) :
    M.NoneDangling (M.view s') ↔ ¬ ((s.Clean 2 ∧ 0 < s.moves 2 1) ∧
      ¬ (s.Clean (l.length * M.freeing) ∧
        i / 16 < s.moves (l.length * M.freeing) M.info.sectorsPerCluster)) := by
  have hc := hat.dirChain.1 c hat.mem
  have hlen : (V.data c).length = M.clusterSize := by
    rw [← hV, M.view_data_length s hc]
  obtain ⟨p, n, hp, hn, hview, hstart, hsame, hwritten⟩ :=
    removal_faulty hM hV hc hat.live h0 hat.chain hrun
  obtain ⟨hcut, hlive⟩ := cuts_removed hM hlen hat.live hp hn hview
  rw [← hstart, ← hwritten]
  by_cases hfreed : (V.slot c i).cluster ∈ p
  · by_cases hgone : i / 16 < n
    · have hnone := hcut.noneDangling ht hat (fun h => absurd hgone (hlive.mp h))
      exact ⟨fun _ h => h.2 hgone, fun _ => hnone⟩
    · have hfree : (M.view s').fat (V.slot c i).cluster = fat32EntryFree := by
        rw [hview]
        exact if_pos hfreed
      have hdangles := hcut.dangling ht hat (hlive.mpr hgone) h0 hfree
      exact ⟨fun h => absurd h hdangles, fun h => absurd ⟨hfreed, hgone⟩ h⟩
  · have hnone : M.NoneDangling (M.view s') := by
      rw [hsame hfreed]
      exact ht.noneDangling
    exact ⟨fun _ h => hfreed h.1, fun _ => hnone⟩

/-- An entry without a cluster is removed without freeing anything. -/
theorem removal_empty {V : Volume} (ht : M.Tidy V) (hat : M.EntryAt V o dl c i l)
    (hV : M.view s = V) (h0 : (V.slot c i).cluster = 0)
    (hrun : removeSlots M c (V.data c) i (pieces (V.data c) [] i) s = some (r, s')) :
    M.NoneDangling (M.view s') := by
  have hc := hat.dirChain.1 c hat.mem
  have hlen : (V.data c).length = M.clusterSize := by
    rw [← hV, M.view_data_length s hc]
  obtain ⟨hview, -⟩ := removeSlots_faulty hM hc (by rw [hV]) hat.live hrun
  rw [hV, ← Volume.clear_nil V] at hview
  obtain ⟨hcut, -⟩ := cuts_removed hM hlen hat.live (List.nil_subset l) (s.moves_le _ _) hview
  exact hcut.noneDangling ht hat (fun _ => hat.chain.nil_iff.mpr h0)

/-- What the search for the entry has found, with the commands it took. -/
theorem scanOrdered_faulty {fuel : Nat} {name : List UInt8} {readErr nextErr : Nat}
    {onHit : Nat → List UInt8 → Nat × List Nat → Prog FsState Nat}
    (hd : M.DirOn (M.view s) (M.startOf (M.view s) o) dl)
    (hrun : walkDir M readErr nextErr (scanOrdered M name) onHit (fun _ _ _ => pure 1) fuel
      (M.startOf (M.view s) o) [] s = some (r, s')) :
    (∃ s1 c i, s.Passes ((M.view s).commands (scanOrdered M name) dl []) s1 ∧ c ∈ dl ∧
      M.LiveAt (M.view s) c i ∧ (M.view s).walk (scanOrdered M name) dl [] =
        .inl (c, i, pieces ((M.view s).data c) [] i) ∧
      onHit c ((M.view s).data c) (i, pieces ((M.view s).data c) [] i) s1 = some (r, s')) ∨
    (M.view s' = M.view s ∧ ((∀ c i lfn, (M.view s).walk (scanOrdered M name) dl [] ≠
      .inl (c, i, lfn)) ∨ ¬ s.Clean ((M.view s).commands (scanOrdered M name) dl []))) := by
  rcases walkDir_faulty hM hd.1 hd.2 hrun with ⟨s1, hpass, hfin⟩ | ⟨hfail, -, hdrive⟩
  · cases hwalk : (M.view s).walk (scanOrdered M name) dl [] with
    | inl hit =>
        obtain ⟨c, i, lfn⟩ := hit
        obtain ⟨hc, a, hs⟩ := Volume.walk_inl hwalk
        obtain ⟨-, hlive, rfl, -⟩ := scanLfn_inr hs (fun j hj => absurd hj (Nat.not_lt_zero j))
        rw [Nat.zero_add] at hlive
        rw [hwalk, Volume.finish] at hfin
        exact Or.inl ⟨s1, c, i, hpass, hc, hlive, rfl, hfin⟩
    | inr lfn =>
        rw [hwalk, Volume.finish, Prog.pure_run] at hfin
        cases hfin
        exact Or.inr ⟨hpass.view M, Or.inl (fun c i lfn' h => by cases h)⟩
  · exact Or.inr ⟨M.view_congr hdrive, Or.inr hfail⟩

/-- What breaks the deletion of an entry off once it has been found, in a state that shows the
volume `V`. -/
def Mount.BreaksHit (M : Mount) (k : Removal) (s : FsState) (V : Volume) (c i : Nat)
    (l : List Nat) : Prop :=
  k.Takes (V.slot c i) ∧ (V.slot c i).cluster ≠ 0 ∧ k.Allows M V l ∧
    (s.Clean (k.checks M V l + 2) ∧ 0 < s.moves (k.checks M V l + 2) 1) ∧
    ¬ (s.Clean (k.checks M V l + l.length * M.freeing) ∧
      i / 16 < s.moves (k.checks M V l + l.length * M.freeing) M.info.sectorsPerCluster)

/-- `FAT32_DeleteFile` behind its search. -/
theorem deleteHit_faulty {fuel : Nat} {V : Volume} (ht : M.Tidy V) (hat : M.EntryAt V o dl c i l)
    (hV : M.view s = V)
    (hrun : (if (V.slot c i).isDirectory then return 4
      else if (V.slot c i).cluster ≠ 0 then do
        let st ← fat32FreeClusterChain M fuel (V.slot c i).cluster
        if st ≠ 0 then return 3
        removeSlots M c (V.data c) i (pieces (V.data c) [] i)
      else removeSlots M c (V.data c) i (pieces (V.data c) [] i) : Prog FsState Nat) s =
        some (r, s')) :
    M.NoneDangling (M.view s') ↔ ¬ M.BreaksHit .file s V c i l := by
  by_cases hdir : (V.slot c i).isDirectory = true
  · rw [if_pos hdir, Prog.pure_run] at hrun
    cases hrun
    have hno : ¬ M.BreaksHit .file s V c i l := by
      rintro ⟨htakes, -⟩
      have hfile : (V.slot c i).isDirectory = false := htakes
      rw [hdir] at hfile
      cases hfile
    have hnone : M.NoneDangling (M.view s) := by
      rw [hV]
      exact ht.noneDangling
    exact ⟨fun _ => hno, fun _ => hnone⟩
  · have htakes : Removal.file.Takes (V.slot c i) := by simpa [Removal.Takes] using hdir
    rw [if_neg hdir] at hrun
    by_cases h0 : (V.slot c i).cluster = 0
    · rw [if_neg (not_not.mpr h0)] at hrun
      have hnone := removal_empty hM ht hat hV h0 hrun
      exact ⟨fun _ h => h.2.1 h0, fun _ => hnone⟩
    · rw [if_pos h0] at hrun
      rw [removal_dangles hM ht hat hV h0 hrun]
      simp only [Mount.BreaksHit, Removal.checks, Removal.Allows, htakes, ne_eq, h0,
        not_false_eq_true, true_and, Nat.zero_add]

/-- `FAT32_RemoveDir` behind its search. -/
theorem removeHit_faulty {fuel : Nat} {V : Volume} (ht : M.Tidy V) (hat : M.EntryAt V o dl c i l)
    (hV : M.view s = V)
    (hrun : (if !(V.slot c i).isDirectory then return 4
      else if (V.slot c i).cluster ≠ 0 then do
        let isEmpty ← isDirEmpty M fuel (V.slot c i).cluster
        if !isEmpty then return 5
        let st ← fat32FreeClusterChain M fuel (V.slot c i).cluster
        if st ≠ 0 then return 3
        removeSlots M c (V.data c) i (pieces (V.data c) [] i)
      else removeSlots M c (V.data c) i (pieces (V.data c) [] i) : Prog FsState Nat) s =
        some (r, s')) :
    M.NoneDangling (M.view s') ↔ ¬ M.BreaksHit .dir s V c i l := by
  have hsame : ∀ t : FsState, t.drive = s.drive → M.NoneDangling (M.view t) := by
    intro t hdrive
    rw [M.view_congr hdrive, hV]
    exact ht.noneDangling
  by_cases hdir : (V.slot c i).isDirectory = true
  · have htakes : Removal.dir.Takes (V.slot c i) := hdir
    rw [if_neg (by simp [hdir])] at hrun
    -- a directory without a cluster has nothing to free
    by_cases h0 : (V.slot c i).cluster = 0
    · rw [if_neg (not_not.mpr h0)] at hrun
      have hnone := removal_empty hM ht hat hV h0 hrun
      exact ⟨fun _ h => h.2.1 h0, fun _ => hnone⟩
    · rw [if_pos h0] at hrun
      have hon : M.DirOn (M.view s) (V.slot c i).cluster l := by
        rw [hV]
        exact ⟨hat.chain.chain (fun h => h0 (hat.chain.nil_iff.mp h)), hat.chain.1⟩
      obtain ⟨b, s1, hempty, hrest⟩ := Prog.bind_eq_some.mp hrun
      rcases isDirEmpty_faulty hM hon hempty with ⟨hpass, hb⟩ | ⟨hfail, rfl, hdrive⟩
      · rw [hV] at hpass hb
        have hview1 : M.view s1 = V := (hpass.view M).trans hV
        by_cases hseems : M.seemsEmpty V l = true
        · rw [if_neg (by simp [hb, hseems])] at hrest
          have hallows : Removal.dir.Allows M V l := hseems
          rw [removal_dangles hM ht hat hview1 h0 hrest]
          simp only [Mount.BreaksHit, htakes, hallows, ne_eq, h0, not_false_eq_true, true_and,
            hpass.1.clean_iff, hpass.1.moves]
        · -- not empty, and refused before anything is written
          rw [if_pos (by simp [hb, hseems]), Prog.pure_run] at hrest
          cases hrest
          have hnone := hsame s' hpass.2
          exact ⟨fun _ h => hseems h.2.2.1, fun _ => hnone⟩
      · -- the scan for entries has failed
        rw [if_pos (by simp), Prog.pure_run] at hrest
        cases hrest
        have hnone := hsame s' hdrive
        rw [hV] at hfail
        exact ⟨fun _ h => hfail (h.2.2.2.1.1.mono (by omega)), fun _ => hnone⟩
  · rw [if_pos (by simp [hdir]), Prog.pure_run] at hrun
    cases hrun
    have hnone := hsame s rfl
    exact ⟨fun _ h => hdir h.1, fun _ => hnone⟩

/-- Either function is the search and then its action on the entry found. -/
theorem Removal.run_cases {k : Removal} {fuel : Nat} {name : List UInt8} (ht : M.Tidy (M.view s))
    (ho : M.Present (M.view s) o) (hdir : (M.view s).isDirOf o = true)
    (hd : M.DirOn (M.view s) (M.startOf (M.view s) o) dl)
    (hrun : k.run M fuel (M.startOf (M.view s) o) name s = some (r, s')) :
    (∃ s1 c i l, s.Passes ((M.view s).commands (scanOrdered M name) dl []) s1 ∧
      M.EntryAt (M.view s) o dl c i l ∧ (M.view s).walk (scanOrdered M name) dl [] =
        .inl (c, i, pieces ((M.view s).data c) [] i) ∧
      (M.NoneDangling (M.view s') ↔ ¬ M.BreaksHit k s1 (M.view s) c i l)) ∨
    (M.view s' = M.view s ∧ ((∀ c i lfn, (M.view s).walk (scanOrdered M name) dl [] ≠
      .inl (c, i, lfn)) ∨ ¬ s.Clean ((M.view s).commands (scanOrdered M name) dl []))) := by
  have hat : ∀ c i, c ∈ dl → M.LiveAt (M.view s) c i → ∃ l, M.EntryAt (M.view s) o dl c i l := by
    intro c i hc hlive
    obtain ⟨l, hl⟩ := ht.chain (some (c, i)) (Mount.Present.entry ho hdir hd.fileOn hc hlive)
    exact ⟨l, ho, hdir, hd.fileOn, hc, hlive, hl⟩
  cases k with
  | file =>
      rw [Removal.run, fat32DeleteFile] at hrun
      rcases scanOrdered_faulty hM hd hrun with ⟨s1, c, i, hpass, hc, hlive, hwalk, hhit⟩ | hend
      · obtain ⟨l, hl⟩ := hat c i hc hlive
        exact Or.inl ⟨s1, c, i, l, hpass, hl, hwalk,
          deleteHit_faulty hM ht hl (hpass.view M) hhit⟩
      · exact Or.inr hend
  | dir =>
      rw [Removal.run, fat32RemoveDir] at hrun
      rcases scanOrdered_faulty hM hd hrun with ⟨s1, c, i, hpass, hc, hlive, hwalk, hhit⟩ | hend
      · obtain ⟨l, hl⟩ := hat c i hc hlive
        exact Or.inl ⟨s1, c, i, l, hpass, hl, hwalk,
          removeHit_faulty hM ht hl (hpass.view M) hhit⟩
      · exact Or.inr hend

/-- A deletion leaves a dangling entry behind just when the failing commands break it off between
its two halves. -/
theorem removal_noneDangling_iff {k : Removal} {fuel : Nat} {name : List UInt8}
    (ht : M.Tidy (M.view s)) (ho : M.Present (M.view s) o) (hdir : (M.view s).isDirOf o = true)
    (hd : M.startOf (M.view s) o ≠ 0)
    (hrun : k.run M fuel (M.startOf (M.view s) o) name s = some (r, s')) :
    M.NoneDangling (M.view s') ↔ ¬ M.Interrupts k s (M.startOf (M.view s) o) name := by
  obtain ⟨dl, hdl⟩ := ht.chain o ho
  have hon : M.DirOn (M.view s) (M.startOf (M.view s) o) dl :=
    ⟨hdl.chain (fun h => hd (hdl.nil_iff.mp h)), hdl.1⟩
  rcases Removal.run_cases hM ht ho hdir hon hrun with
    ⟨s1, c, i, l, hpass, hat, hwalk, hiff⟩ | ⟨hview, hend⟩
  · rw [hiff, not_iff_not]
    -- the state behind the search counts its commands from there
    have hcount : ∀ n, M.preparing k (M.view s) dl name l + n =
        (M.view s).commands (scanOrdered M name) dl [] + (k.checks M (M.view s) l + n) := by
      intro n
      rw [Mount.preparing, Nat.add_assoc]
    constructor
    · rintro ⟨htakes, h0, hallows, hfreed, hkept⟩
      simp only [hpass.1.clean_iff, hpass.1.moves, ← hcount] at hfreed hkept
      exact ⟨dl, c, i, l, hon, ⟨_, hwalk⟩, htakes, h0, hat.chain, hallows, hfreed, hkept⟩
    · rintro ⟨dl', c', i', l', hon', ⟨lfn, hfound⟩, htakes, h0, hchain, hallows, hfreed, hkept⟩
      obtain rfl := Chain.unique hon'.1 hon.1
      rw [hwalk] at hfound
      cases hfound
      obtain rfl := hchain.unique hat.chain
      rw [hcount] at hfreed hkept
      simp only [← hpass.1.clean_iff, ← hpass.1.moves] at hfreed hkept
      exact ⟨htakes, h0, hallows, hfreed, hkept⟩
  · have hnone : M.NoneDangling (M.view s') := by
      rw [hview]
      exact ht.noneDangling
    refine ⟨fun _ => ?_, fun _ => hnone⟩
    rintro ⟨dl', c, i, l, hon', ⟨lfn, hfound⟩, -, -, -, -, hfreed, -⟩
    obtain rfl := Chain.unique hon'.1 hon.1
    rcases hend with h | h
    · exact h c i lfn hfound
    · refine h (hfreed.1.mono ?_)
      rw [Mount.preparing]
      omega

end Sound

/-! ## The volume with one file -/

/-- The volume with one file of two clusters, and the fault `f` for the command number `k`. -/
def faultyFile (k : Nat) (f : Fault) : FsState :=
  { smallFile with faults := List.replicate k none ++ [some f] }

theorem faultyFile_tidy (k : Nat) (f : Fault) :
    (smallMount ⟨true, true⟩).Tidy ((smallMount ⟨true, true⟩).view (faultyFile k f)) :=
  smallFile_tidy

/-- The first write to the table fails before it transfers its sector: the file is as it was. -/
theorem removal_noneDangling_early : ∃ s',
    fat32DeleteFile (smallMount ⟨true, true⟩) 8 2 [65] (faultyFile 3 ⟨0, fun _ => 0, 0⟩) =
      some (3, s') ∧
    (smallMount ⟨true, true⟩).NoneDangling ((smallMount ⟨true, true⟩).view s') := by
  have hval : (fat32DeleteFile (smallMount ⟨true, true⟩) 8 2 [65]
      (faultyFile 3 ⟨0, fun _ => 0, 0⟩)).map Prod.fst = some 3 := by decide +kernel
  obtain ⟨⟨r, s'⟩, hrun, hr⟩ := Option.map_eq_some_iff.mp hval
  obtain rfl : r = 3 := hr
  refine ⟨s', hrun, (removal_noneDangling_iff (smallMount_sound _) (k := .file) (o := none)
    (faultyFile_tidy 3 _) Mount.Present.root rfl (by decide) hrun).mpr ?_⟩
  rintro ⟨dl, c, i, l, hon, hbreaks⟩
  obtain rfl : dl = [2] := Chain.unique hon.1 (by decide +kernel)
  -- one command finds the entry, two more read the table
  have hcount : (smallMount ⟨true, true⟩).preparing .file
      ((smallMount ⟨true, true⟩).view (faultyFile 3 ⟨0, fun _ => 0, 0⟩)) [2] [65] l = 1 := by
    show _ + 0 = 1
    decide +kernel
  have hmoved := hbreaks.freed.2
  rw [hcount] at hmoved
  exact absurd hmoved (by decide)

/-- The write of the directory cluster fails: the entry is still there, and its clusters are free. -/
theorem failed_delete_dangles :
    (smallMount ⟨true, true⟩).Tidy
      ((smallMount ⟨true, true⟩).view (faultyFile 7 ⟨0, fun _ => 0, 0⟩)) ∧
    ∃ s', fat32DeleteFile (smallMount ⟨true, true⟩) 8 2 [65]
        (faultyFile 7 ⟨0, fun _ => 0, 0⟩) = some (3, s') ∧
      ¬ (smallMount ⟨true, true⟩).NoneDangling ((smallMount ⟨true, true⟩).view s') := by
  have hval : (fat32DeleteFile (smallMount ⟨true, true⟩) 8 2 [65]
      (faultyFile 7 ⟨0, fun _ => 0, 0⟩)).map (fun p => (p.1,
        decide ((smallMount ⟨true, true⟩).FileOn ((smallMount ⟨true, true⟩).view p.2) 2 [2]),
        decide ((smallMount ⟨true, true⟩).LiveAt ((smallMount ⟨true, true⟩).view p.2) 2 0),
        (((smallMount ⟨true, true⟩).view p.2).slot 2 0).cluster,
        ((smallMount ⟨true, true⟩).view p.2).fat 3)) = some (3, true, true, 3, 0) := by
    decide +kernel
  obtain ⟨⟨r, s'⟩, hrun, hr⟩ := Option.map_eq_some_iff.mp hval
  simp only [Prod.mk.injEq, decide_eq_true_eq] at hr
  obtain ⟨rfl, hroot, hlive, hcluster, hfree⟩ := hr
  refine ⟨faultyFile_tidy 7 _, s', hrun, ?_⟩
  intro hnone
  refine hnone 2 0 (Mount.Present.entry Mount.Present.root rfl hroot (by simp) hlive) ?_ 3 ?_
    ⟨by decide, hfree⟩
  · rw [hcluster]
    decide
  · rw [hcluster]
    exact Relation.ReflTransGen.refl

end Os003
