import Os003.Fs.Alloc
import Os003.Fs.Entries

set_option autoImplicit false

/-! # Freeing a chain in any table

`FAT32_FreeClusterChain` reads the successor of a cluster, clears its entry and goes on with the
successor. It follows the links of the table whatever they are: in a circle, into another chain,
or to numbers that have no entry. It ends nevertheless, since every turn but the last clears an
entry that was not clear; what decreases is the number of entries in use, not the length of a
chain.

On a proper chain the walk clears the entries of that chain and no others, and counts every
cluster once.
-/

namespace Os003

open Bytes Linked

/-! ## Cleared entries -/

theorem le32_zero_getD (k : Nat) : (le32 0).getD k 0 = 0 := by
  match k with
  | 0 => rfl
  | 1 => rfl
  | 2 => rfl
  | 3 => rfl
  | k + 4 => rfl

section Cleared

variable {M : Mount} {d d' : Nat → UInt8} {c : Nat}

/-- A word whose bytes are kept or cleared stays free if it was. -/
theorem Mount.successor_of_cleared (h : ∀ x, d' x = d x ∨ d' x = 0)
    (hc : M.successor d c = fat32EntryFree) : M.successor d' c = fat32EntryFree := by
  have hbytes : ∀ k, (d' (M.wordAddr 0 c + k)).toNat = (d (M.wordAddr 0 c + k)).toNat ∨
      (d' (M.wordAddr 0 c + k)).toNat = 0 := by
    intro k
    rcases h (M.wordAddr 0 c + k) with h | h
    · exact Or.inl (by rw [h])
    · exact Or.inr (by rw [h]; rfl)
  have h0 := hbytes 0
  have h1 := hbytes 1
  have h2 := hbytes 2
  have h3 := hbytes 3
  unfold Mount.successor Mount.copyEntry at hc ⊢
  rw [readLe32_eq] at hc ⊢
  simp only [getD_readBytes _ _ 4 _ (by decide : 0 < 4), getD_readBytes _ _ 4 _ (by decide : 0 + 1 < 4),
    getD_readBytes _ _ 4 _ (by decide : 0 + 2 < 4), getD_readBytes _ _ 4 _ (by decide : 0 + 3 < 4),
    Nat.zero_add] at hc ⊢
  have hfree : fat32EntryFree = 0 := rfl
  rw [hfree] at hc ⊢
  have hlt0 := (d (M.wordAddr 0 c + 0)).toNat_lt
  have hlt1 := (d (M.wordAddr 0 c + 1)).toNat_lt
  have hlt2 := (d (M.wordAddr 0 c + 2)).toNat_lt
  have hlt3 := (d (M.wordAddr 0 c + 3)).toNat_lt
  omega

/-- The entry of `c` is free after it has been cleared. -/
theorem Mount.successor_writeWords_zero (M : Mount) (hfats : 1 ≤ M.info.numFats) (d : Nat → UInt8)
    (c : Nat) : M.successor (M.writeWords c 0 M.info.numFats 0 d) c = fat32EntryFree := by
  obtain ⟨n, hn⟩ : ∃ n, M.info.numFats = n + 1 := ⟨M.info.numFats - 1, by omega⟩
  have hzero : M.copyEntry (M.writeWords c 0 M.info.numFats 0 d) 0 c = readLe32 (le32 0) 0 := by
    apply readLe32_congr
    intro x hx
    -- the first copy is cleared, and the writes behind it keep that
    have hbyte : writeBytes d (M.wordAddr 0 c) (le32 0) (M.wordAddr 0 c + x) = 0 := by
      rw [writeBytes, le32_length, if_pos (by omega), Nat.add_sub_cancel_left, le32_zero_getD]
    rw [getD_readBytes _ _ _ _ (by omega), Nat.zero_add, le32_zero_getD, hn, Mount.writeWords]
    rcases M.writeWords_zero c n 1 (writeBytes d (M.wordAddr 0 c) (le32 0)) (M.wordAddr 0 c + x)
      with h | h
    · exact h.trans hbyte
    · exact h
  rw [Mount.successor, hzero]
  rfl

end Cleared

/-- The numbers of clusters whose entry is not free. -/
def Mount.inUse (M : Mount) (d : Nat → UInt8) : Finset Nat :=
  (Finset.range fat32EntryEof).filter fun c => M.successor d c ≠ fat32EntryFree

/-- Clearing an entry that is in use leaves fewer of them. -/
theorem Mount.inUse_clear {M : Mount} (hfats : 1 ≤ M.info.numFats) {d : Nat → UInt8} {c : Nat}
    (hc : c < fat32EntryEof) (hused : M.successor d c ≠ fat32EntryFree) :
    (M.inUse (M.writeWords c 0 M.info.numFats 0 d)).card < (M.inUse d).card := by
  apply Finset.card_lt_card
  rw [Finset.ssubset_iff_of_subset]
  · refine ⟨c, ?_, ?_⟩
    · rw [Mount.inUse, Finset.mem_filter, Finset.mem_range]
      exact ⟨hc, hused⟩
    · rw [Mount.inUse, Finset.mem_filter]
      rintro ⟨-, h⟩
      exact h (M.successor_writeWords_zero hfats d c)
  · intro e he
    rw [Mount.inUse, Finset.mem_filter] at he ⊢
    refine ⟨he.1, ?_⟩
    intro hfree
    exact he.2 (Mount.successor_of_cleared (M.writeWords_zero c M.info.numFats 0 d) hfree)

/-! ## One turn -/

section Turn

variable {M : Mount} (hM : M.Tabled) {s : FsState} {c : Nat}
include hM

/-- A turn of the loop returns, or it clears the entry and goes on with the successor. -/
theorem freeChain_turn (hc : c ≥ 2 ∧ c < fat32EntryEof) :
    (∃ r s', ∀ fuel, fat32FreeClusterChain M (fuel + 1) c s = some (r, s')) ∨
      ∃ s', s'.drive true = M.writeWords c 0 M.info.numFats 0 (s.drive true) ∧
        ∀ fuel, fat32FreeClusterChain M (fuel + 1) c s =
          fat32FreeClusterChain M fuel (M.successor (s.drive true) c) s' := by
  by_cases href : s.Refuses (M.fatLba c)
  · obtain ⟨s', hnext, -⟩ := fat32NextCluster_refused href
    left
    refine ⟨1, s', ?_⟩
    intro fuel
    rw [fat32FreeClusterChain, if_pos hc, Prog.bind_run hnext]
    rfl
  · obtain ⟨s1, hnext, hlooks⟩ := fat32NextCluster_ok hM href
    obtain ⟨st, s2, hwrite, -, hdone, -⟩ := fat32WriteFatEntry_total hM c fat32EntryFree s1
    by_cases hst : st = 0
    · by_cases heof : M.successor (s.drive true) c ≥ fat32EntryEof
      · left
        refine ⟨0, { s2 with free := s2.free.release }, ?_⟩
        intro fuel
        rw [fat32FreeClusterChain, if_pos hc, Prog.bind_run hnext]
        simp only []
        rw [Prog.bind_run hwrite, if_neg (by omega), Prog.modify_bind, if_pos heof, Prog.pure_run]
      · right
        refine ⟨{ s2 with free := s2.free.release }, ?_, ?_⟩
        · show s2.drive true = _
          rw [hdone hst, Function.update_self, hlooks.drive]
          rfl
        · intro fuel
          rw [fat32FreeClusterChain, if_pos hc, Prog.bind_run hnext]
          simp only []
          rw [Prog.bind_run hwrite, if_neg (by omega), Prog.modify_bind, if_neg heof]
    · left
      refine ⟨1, s2, ?_⟩
      intro fuel
      rw [fat32FreeClusterChain, if_pos hc, Prog.bind_run hnext]
      simp only []
      rw [Prog.bind_run hwrite, if_pos hst, Prog.pure_run]

omit hM in
/-- A number that is no cluster ends the loop. -/
theorem freeChain_stops (hc : ¬ (c ≥ 2 ∧ c < fat32EntryEof)) (fuel : Nat) :
    fat32FreeClusterChain M (fuel + 1) c s = some (0, s) := by
  rw [fat32FreeClusterChain, if_neg hc, Prog.pure_run]

/-- With at least one copy of the table the loop ends, whatever the table holds and whatever
commands fail. -/
theorem freeChain_halts (hfats : 1 ≤ M.info.numFats) (c : Nat) (s : FsState) :
    Prog.Halts (fun fuel => fat32FreeClusterChain M fuel c) s := by
  generalize hn : (M.inUse (s.drive true)).card = n
  induction n using Nat.strong_induction_on generalizing c s with
  | _ n ih =>
      by_cases hc : c ≥ 2 ∧ c < fat32EntryEof
      · rcases freeChain_turn hM (s := s) hc with ⟨r, s', hturn⟩ | ⟨s', hdrive, hturn⟩
        · exact ⟨1, (r, s'), hturn 0⟩
        · by_cases hused : M.successor (s.drive true) c = fat32EntryFree
          · -- behind a free entry the walk is over
            refine ⟨2, (0, s'), (hturn 1).trans (freeChain_stops ?_ 0)⟩
            rw [hused]
            decide
          · have hless := Mount.inUse_clear hfats (d := s.drive true) hc.2 hused
            obtain ⟨fuel, r, hrun⟩ := ih _ (by rw [hdrive]; omega) (M.successor (s.drive true) c) s'
              rfl
            exact ⟨fuel + 1, r, (hturn fuel).trans hrun⟩
      · exact ⟨1, (0, s), freeChain_stops hc 0⟩

end Turn

/-! ## A proper chain -/

/-- The free count after `n` clusters have become free, one by one: it stops at the value that
stands for an unknown count. -/
theorem FreeInfo.release_count (f : FreeInfo) (n : Nat) :
    (FreeInfo.release^[n] f).freeClusters = min (f.freeClusters + n) 0xFFFFFFFF := by
  have hlt := f.count_lt
  induction n with
  | zero =>
      show f.freeClusters = _
      omega
  | succ n ih =>
      have hstep : (FreeInfo.release (FreeInfo.release^[n] f)).freeClusters =
          if (FreeInfo.release^[n] f).freeClusters ≠ 0xFFFFFFFF then
            u32 ((FreeInfo.release^[n] f).freeClusters + 1)
          else (FreeInfo.release^[n] f).freeClusters := rfl
      rw [Function.iterate_succ_apply', hstep, ih]
      unfold u32
      split <;> omega

section Exact

variable {M : Mount} (hM : M.Tabled)
include hM

/-- One turn of the loop without I/O errors: the entry is cleared in every copy, and the next one is looked
at unless it was the last. -/
theorem freeChain_clears (hfats : 1 ≤ M.info.numFats) {b : Nat} {s : FsState}
    (hb : 2 ≤ b ∧ b < fat32EntryEof ∧ b < M.tableEntries) (hserve : M.Serves s b) :
    ∃ s', s'.faults = [] ∧ s'.free = s.free.release ∧
      (∀ i, i < M.info.numFats → ∀ e, e < M.tableEntries → M.copyEntry (s'.drive true) i e =
        if e = b then fat32EntryFree else M.copyEntry (s.drive true) i e) ∧
      ∀ fuel, fat32FreeClusterChain M (fuel + 1) b s =
        if M.successor (s.drive true) b ≥ fat32EntryEof then some (0, s')
        else fat32FreeClusterChain M fuel (M.successor (s.drive true) b) s' := by
  obtain ⟨h2, heof, hentry⟩ := hb
  have hlba : ¬ s.Refuses (M.fatLba b) := by
    have hlt := hserve.2 0 (by omega)
    rw [M.fatLba_eq_copy]
    rintro (h | h)
    · omega
    · rw [hserve.1] at h
      cases h
  obtain ⟨s1, hnext, hlooks⟩ := fat32NextCluster_ok hM hlba
  obtain ⟨st, s2, hwrite, hsame, hdone, hquiet⟩ := fat32WriteFatEntry_total hM b fat32EntryFree s1
  have hfaults1 : s1.faults = [] := by
    rw [hlooks.faults, hserve.1]
    rfl
  obtain ⟨rfl, hfaults2⟩ := hquiet ⟨hfaults1, hserve.2⟩
  have hmaster : s2.drive true = M.writeWords b 0 M.info.numFats 0 (s.drive true) := by
    rw [hdone rfl, Function.update_self, hlooks.drive]
    rfl
  refine ⟨{ s2 with free := s2.free.release }, hfaults2, ?_, ?_, ?_⟩
  · show s2.free.release = _
    rw [hsame.1, hlooks.free]
  · intro i hi e he
    show M.copyEntry (s2.drive true) i e = _
    rw [hmaster]
    by_cases heb : e = b
    · subst heb
      rw [if_pos rfl, hM.copyEntry_writeWords _ he hi]
      rfl
    · rw [if_neg heb, hM.copyEntry_writeWords_ne _ _ hentry he hi heb]
  · intro fuel
    rw [fat32FreeClusterChain, if_pos ⟨h2, heof⟩, Prog.bind_run hnext]
    simp only []
    rw [Prog.bind_run hwrite, if_neg (by omega), Prog.modify_bind]
    by_cases hend : M.successor (s.drive true) b ≥ fat32EntryEof
    · rw [if_pos hend, if_pos hend, Prog.pure_run]
    · rw [if_neg hend, if_neg hend]

/-- The chain is freed, and nothing but the chain. -/
theorem freeChain_exact (hfats : 1 ≤ M.info.numFats) {start : Nat} {l : List Nat} {s : FsState}
    (hl : Chain (M.successor (s.drive true)) IsEof start l)
    (hin : ∀ b ∈ l, 2 ≤ b ∧ b < fat32EntryEof ∧ b < M.tableEntries)
    (hserves : ∀ b ∈ l, M.Serves s b) :
    ∃ s', Prog.Within l.length (fun fuel => fat32FreeClusterChain M fuel start) s 0 s' ∧
      (∀ i, i < M.info.numFats → ∀ e, e < M.tableEntries →
        M.copyEntry (s'.drive true) i e =
          if e ∈ l then fat32EntryFree else M.copyEntry (s.drive true) i e) ∧
      s'.free = FreeInfo.release^[l.length] s.free := by
  induction l generalizing start s with
  | nil =>
      obtain ⟨t, ht⟩ := hl.eq_cons
      cases ht
  | cons b l ih =>
      obtain rfl : b = start := by
        obtain ⟨t, ht⟩ := hl.eq_cons
        exact (List.cons.inj ht).1
      obtain ⟨s1, hfaults, hfree, hcleared, hturn⟩ :=
        freeChain_clears hM hfats (hin b List.mem_cons_self) (hserves b List.mem_cons_self)
      by_cases hlast : l = []
      · subst hlast
        have hend : M.successor (s.drive true) b ≥ fat32EntryEof := Chain.stop_last (p := []) hl
        refine ⟨s1, Prog.Within.stop rfl (fun fuel => (hturn fuel).trans (if_pos hend)), ?_, hfree⟩
        intro i hi e he
        simp only [List.mem_singleton]
        exact hcleared i hi e he
      · obtain ⟨-, hstop, htail⟩ := hl.of_cons hlast
        have hnodup := List.nodup_cons.mp hl.nodup
        -- the entry just cleared is not looked at again
        have htail' : Chain (M.successor (s1.drive true)) IsEof (M.successor (s.drive true) b) l := by
          refine htail.congr ?_
          intro x hx
          have hxb : x ≠ b := by
            rintro rfl
            exact hnodup.1 hx
          rw [Mount.successor, hcleared 0 (by omega) x (hin x (List.mem_cons_of_mem _ hx)).2.2,
            if_neg hxb, Mount.successor]
        obtain ⟨s', hwithin, htable, hcount⟩ := ih htail'
          (fun x hx => hin x (List.mem_cons_of_mem _ hx))
          (fun x hx => ⟨hfaults, (hserves x (List.mem_cons_of_mem _ hx)).2⟩)
        refine ⟨s', Prog.Within.step rfl (fun fuel => (hturn fuel).trans (if_neg hstop)) hwithin, ?_, ?_⟩
        · intro i hi e he
          rw [htable i hi e he]
          by_cases hel : e ∈ l
          · rw [if_pos hel, if_pos (List.mem_cons_of_mem _ hel)]
          · rw [if_neg hel, hcleared i hi e he]
            simp only [List.mem_cons, hel, or_false]
        · rw [hcount, hfree, List.length_cons, Function.iterate_succ_apply]

/-- Freeing a chain ends on every table. A chain that ends in an end mark is freed exactly, and the
free count goes up by its length as long as it does not reach the value for an unknown count. -/
theorem freeClusterChain_frees (hfats : 1 ≤ M.info.numFats) :
    (∀ start s, Prog.Halts (fun fuel => fat32FreeClusterChain M fuel start) s) ∧
    ∀ start l s, Chain (M.successor (s.drive true)) IsEof start l →
      (∀ b ∈ l, 2 ≤ b ∧ b < fat32EntryEof ∧ b < M.tableEntries) → (∀ b ∈ l, M.Serves s b) →
      ∃ s', Prog.Within l.length (fun fuel => fat32FreeClusterChain M fuel start) s 0 s' ∧
        (∀ i, i < M.info.numFats → ∀ e, e < M.tableEntries →
          M.copyEntry (s'.drive true) i e =
            if e ∈ l then fat32EntryFree else M.copyEntry (s.drive true) i e) ∧
        s'.free.freeClusters = min (s.free.freeClusters + l.length) 0xFFFFFFFF := by
  refine ⟨fun start s => freeChain_halts hM hfats start s, ?_⟩
  intro start l s hl hin hserves
  obtain ⟨s', hwithin, htable, hfree⟩ := freeChain_exact hM hfats hl hin hserves
  exact ⟨s', hwithin, htable, by rw [hfree, FreeInfo.release_count]⟩

end Exact

/-- The small volume with the chain 3, 4 and the given free count. -/
def twoLinkState (count : Nat) (h : count < 2 ^ 32) : FsState :=
  { smallState [0, 0, 0, 4, fat32EntryEof] fun _ => [] with
    free := { freeClusters := count, nextFreeCluster := 5, count_lt := h, hint_lt := by decide } }

theorem twoLinkState_chain : Chain ((smallMount { isPrimary := true, isMaster := true }).successor
    ((twoLinkState 0 (by decide)).drive true)) IsEof 3 [3, 4] := by
  decide +kernel

theorem twoLinkState_members : ∀ b ∈ [3, 4], 2 ≤ b ∧ b < fat32EntryEof ∧
    b < (smallMount { isPrimary := true, isMaster := true }).tableEntries := by
  decide

theorem twoLinkState_serves (count : Nat) (h : count < 2 ^ 32) : ∀ b ∈ [3, 4],
    (smallMount { isPrimary := true, isMaster := true }).Serves (twoLinkState count h) b := by
  intro b hb
  refine ⟨rfl, fun _ hi => (smallMount_sound _).fatCopyLba_lt hi ?_⟩
  rcases List.mem_pair.mp hb with rfl | rfl <;> decide

/-- With seven free clusters, freeing a chain of two leaves nine. -/
theorem freeClusterChain_frees_two : ∃ s',
    Prog.Within 2 (fun fuel => fat32FreeClusterChain
      (smallMount { isPrimary := true, isMaster := true }) fuel 3)
      (twoLinkState 7 (by decide)) 0 s' ∧ s'.free.freeClusters = 9 := by
  obtain ⟨s', hwithin, -, hcount⟩ := (freeClusterChain_frees
    (M := smallMount { isPrimary := true, isMaster := true }) ⟨rfl, by decide⟩
    (by decide)).2 3 [3, 4] (twoLinkState 7 (by decide)) twoLinkState_chain twoLinkState_members
    (twoLinkState_serves 7 (by decide))
  exact ⟨s', hwithin, hcount⟩

/-- A known count of 0xFFFFFFFE is not raised by two. -/
theorem freeClusterChain_count_stops : ∃ s',
    Prog.Within 2 (fun fuel => fat32FreeClusterChain
      (smallMount { isPrimary := true, isMaster := true }) fuel 3)
      (twoLinkState 0xFFFFFFFE (by decide)) 0 s' ∧
    (twoLinkState 0xFFFFFFFE (by decide)).free.freeClusters ≠ 0xFFFFFFFF ∧
    s'.free.freeClusters ≠ (twoLinkState 0xFFFFFFFE (by decide)).free.freeClusters + 2 := by
  obtain ⟨s', hwithin, -, hfree⟩ := freeChain_exact
    (M := smallMount { isPrimary := true, isMaster := true }) ⟨rfl, by decide⟩
    (by decide) (s := twoLinkState 0xFFFFFFFE (by decide)) twoLinkState_chain
    twoLinkState_members (twoLinkState_serves 0xFFFFFFFE (by decide))
  refine ⟨s', hwithin, by decide, ?_⟩
  rw [hfree, FreeInfo.release_count]
  decide

end Os003
