import Os003.Fs.Alloc
import Os003.Fs.Entries

set_option autoImplicit false

/-! # The search for a free cluster

`FAT32_AllocCluster` looks at the clusters one after the other, from the hint on and round to the
hint again. The hint comes from the FSInfo sector or from the last allocation and is compared with
nothing: it may lie behind the last cluster, and it does so once the last cluster has been handed
out. From there the search goes on with cluster 2 and never meets its start again.

The cursor of the search is a function on cluster numbers (`Mount.cursor`), and what the loop does
is read off its iterates: the loop ends at the first cluster that is free or cannot be read, or
when the cursor is back at the start.
-/

namespace Os003

open Bytes

/-- A look when no fault is due changes nothing but the log. -/
theorem FsState.Looks.reads {s s' : FsState} (h : s.Looks s') (hq : s.faults = []) :
    s.Reads s' := by
  obtain ⟨⟨drive, faults, log⟩, free, allocs⟩ := s'
  obtain ⟨rfl, hfaults, rfl, rfl⟩ := h
  refine ⟨log, ?_⟩
  simp only at hfaults hq
  rw [hfaults, hq]
  simp

/-! ## The cursor -/

/-- The cluster the search looks at after `c`. -/
def Mount.cursor (M : Mount) (c : Nat) : Nat :=
  if u32 (c + 1) ≥ u32 (M.info.totalClusters + 2) then 2 else u32 (c + 1)

/-- The clusters the cursor goes round. -/
def Mount.OnCycle (M : Mount) (c : Nat) : Prop :=
  c = 2 ∨ (2 ≤ c ∧ c < u32 (M.info.totalClusters + 2))

instance (M : Mount) (c : Nat) : Decidable (M.OnCycle c) := inferInstanceAs (Decidable (_ ∨ _))

section Cursor

variable {M : Mount}

theorem Mount.OnCycle.bounds {c : Nat} (h : M.OnCycle c) : 2 ≤ c ∧ c < 2 ^ 32 := by
  have := Nat.mod_lt (M.info.totalClusters + 2) (show 0 < 2 ^ 32 by decide)
  unfold Mount.OnCycle u32 at h
  omega

theorem Mount.cursor_onCycle {c : Nat} (h : 2 ≤ c ∧ c < 2 ^ 32 - 1) : M.OnCycle (M.cursor c) := by
  unfold Mount.cursor Mount.OnCycle
  split
  · exact Or.inl rfl
  · rename_i hlast
    have hnext : u32 (c + 1) = c + 1 := by
      rw [u32]
      omega
    rw [hnext] at hlast ⊢
    omega

theorem Mount.OnCycle.cursor {c : Nat} (h : M.OnCycle c) : M.OnCycle (M.cursor c) := by
  apply Mount.cursor_onCycle
  have := Nat.mod_lt (M.info.totalClusters + 2) (show 0 < 2 ^ 32 by decide)
  unfold Mount.OnCycle u32 at h
  omega

/-- Once the cursor has moved it is on the cycle. -/
theorem Mount.iterate_onCycle {c : Nat} (h : 2 ≤ c ∧ c < 2 ^ 32 - 1) (k : Nat) :
    M.OnCycle (M.cursor^[k + 1] c) := by
  induction k with
  | zero => exact Mount.cursor_onCycle h
  | succ k ih =>
      rw [Function.iterate_succ_apply']
      exact ih.cursor

/-- On the cycle the cursor counts up to the last cluster. -/
theorem Mount.OnCycle.count_up {c j : Nat} (hc : 2 ≤ c)
    (hj : c + j < u32 (M.info.totalClusters + 2)) : M.cursor^[j] c = c + j := by
  have hlt := Nat.mod_lt (M.info.totalClusters + 2) (show 0 < 2 ^ 32 by decide)
  induction j with
  | zero => rfl
  | succ j ih =>
      rw [Function.iterate_succ_apply', ih (by omega), Mount.cursor]
      have hnext : u32 (c + j + 1) = c + j + 1 := by
        unfold u32 at hj ⊢
        omega
      rw [hnext, if_neg (by omega), Nat.add_assoc]

/-- Behind the last cluster the cursor starts anew. -/
theorem Mount.cursor_wraps {c : Nat} (hc : c < 2 ^ 32 - 1)
    (h : u32 (M.info.totalClusters + 2) ≤ c + 1) : M.cursor c = 2 := by
  have hnext : u32 (c + 1) = c + 1 := by
    rw [u32]
    omega
  rw [Mount.cursor, hnext, if_pos h]

/-- A cluster on the cycle comes round again after as many steps as there are clusters. -/
theorem Mount.OnCycle.returns {c : Nat} (hc : M.OnCycle c) (ht : 1 ≤ M.info.totalClusters) :
    ∃ k, k < M.info.totalClusters ∧ M.cursor^[k + 1] c = c := by
  have hlt := Nat.mod_lt (M.info.totalClusters + 2) (show 0 < 2 ^ 32 by decide)
  have hle := Nat.mod_le (M.info.totalClusters + 2) (2 ^ 32)
  by_cases hsmall : u32 (M.info.totalClusters + 2) ≤ 2
  · -- nothing but cluster 2 is on the cycle
    obtain rfl : c = 2 := by
      rcases hc with h | h
      · exact h
      · omega
    exact ⟨0, ht, Mount.cursor_wraps (by decide) (by omega)⟩
  · have hbounds : 2 ≤ c ∧ c < u32 (M.info.totalClusters + 2) := by
      rcases hc with rfl | h
      · omega
      · exact h
    -- up to the last cluster, on to cluster 2, and up again
    have hup := Mount.OnCycle.count_up (M := M) (c := c)
      (j := u32 (M.info.totalClusters + 2) - 1 - c) hbounds.1 (by omega)
    have hagain := Mount.OnCycle.count_up (M := M) (c := 2) (j := c - 2) (by omega) (by omega)
    refine ⟨u32 (M.info.totalClusters + 2) - 3, by unfold u32 at *; omega, ?_⟩
    have hsplit : u32 (M.info.totalClusters + 2) - 3 + 1 =
        (c - 2) + 1 + (u32 (M.info.totalClusters + 2) - 1 - c) := by omega
    calc M.cursor^[u32 (M.info.totalClusters + 2) - 3 + 1] c
        = M.cursor^[c - 2 + 1] (u32 (M.info.totalClusters + 2) - 1) := by
          rw [hsplit, Function.iterate_add_apply, hup]
          congr 1
          omega
      _ = M.cursor^[c - 2] 2 := by
          rw [Function.iterate_succ_apply, Mount.cursor_wraps]
          · unfold u32
            omega
          · omega
      _ = c := by
          rw [hagain]
          omega

/-- Every cluster of the cycle is met within as many steps as there are clusters. -/
theorem Mount.OnCycle.met {c start : Nat} (hc : M.OnCycle c) (hs : 2 ≤ start ∧ start < 2 ^ 32 - 1)
    (hout : ¬ M.OnCycle start) (ht : 1 ≤ M.info.totalClusters) :
    ∃ k, k ≤ M.info.totalClusters ∧ M.cursor^[k] start = c := by
  have hle := Nat.mod_le (M.info.totalClusters + 2) (2 ^ 32)
  have hfirst : M.cursor start = 2 := by
    apply Mount.cursor_wraps hs.2
    unfold Mount.OnCycle at hout
    omega
  rcases hc with rfl | ⟨h2, hlt⟩
  · exact ⟨1, ht, hfirst⟩
  · refine ⟨c - 2 + 1, by unfold u32 at hlt; omega, ?_⟩
    rw [Function.iterate_succ_apply, hfirst, Mount.OnCycle.count_up (by omega) (by omega)]
    omega

/-- What holds of a cluster of the cycle and passes from each cluster to the next one holds of the
whole cycle. -/
theorem Mount.OnCycle.all {P : Nat → Prop} {a : Nat} (ha : M.OnCycle a) (h0 : P a)
    (hstep : ∀ c, P c → P (M.cursor c)) {c : Nat} (hc : M.OnCycle c) : P c := by
  have hiter : ∀ j b, P b → P (M.cursor^[j] b) := by
    intro j
    induction j with
    | zero => exact fun b hb => hb
    | succ j ih => exact fun b hb => ih (M.cursor b) (hstep b hb)
  have hlt := Nat.mod_lt (M.info.totalClusters + 2) (show 0 < 2 ^ 32 by decide)
  -- the last cluster is met from `a` on, and behind it comes cluster 2
  have h2 : P 2 := by
    by_cases hsmall : u32 (M.info.totalClusters + 2) ≤ 2
    · rcases ha with rfl | h
      · exact h0
      · omega
    · have hbounds : 2 ≤ a ∧ a < u32 (M.info.totalClusters + 2) := by
        rcases ha with rfl | h
        · omega
        · exact h
      have hlast := hiter (u32 (M.info.totalClusters + 2) - 1 - a) a h0
      rw [Mount.OnCycle.count_up hbounds.1 (by omega)] at hlast
      have hwrap := hstep _ hlast
      rw [Mount.cursor_wraps] at hwrap
      · exact hwrap
      · unfold u32 at *
        omega
      · omega
  rcases hc with rfl | ⟨hc2, hclt⟩
  · exact h2
  · have := hiter (c - 2) 2 h2
    rw [Mount.OnCycle.count_up (by omega) (by omega)] at this
    rwa [show 2 + (c - 2) = c by omega] at this

end Cursor

/-! ## One turn of the loop -/

section Turn

variable {M : Mount} (hM : M.Tabled) {s : FsState} {start c : Nat}
include hM

omit hM in
theorem allocLoop_refused (h : s.Refuses (M.fatLba c)) : ∃ s', s.SameFree s' ∧
    ∀ fuel, allocLoop M start (fuel + 1) c s = some (0, s') := by
  obtain ⟨r, buf, s', hread, hneg, hsame⟩ := ata_read_refused (m := true) (n := 1) h
  refine ⟨s', hsame, ?_⟩
  intro fuel
  rw [allocLoop, refAsBool, Prog.bind_run hread]
  simp only []
  rw [if_pos hneg, Prog.pure_run]

/-- A turn at a cluster that can be read and is not free. -/
theorem allocLoop_busy (h : ¬ s.Refuses (M.fatLba c)) 
    (hbusy : M.successor (s.drive true) c ≠ fat32EntryFree) :
    ∃ s', s.Looks s' ∧ ∀ fuel, allocLoop M start (fuel + 1) c s =
      if M.cursor c ≠ start then allocLoop M start fuel (M.cursor c) s' else some (0, s') := by
  obtain ⟨s', hread, hlooks⟩ := ata_read_ok (m := true) (n := 1) h
  refine ⟨s', hlooks, ?_⟩
  intro fuel
  rw [allocLoop, refAsBool, Prog.bind_run hread]
  simp only [hM.readLe32_sector]
  rw [if_neg (by omega), if_neg hbusy]
  show (if M.cursor c ≠ start then allocLoop M start fuel (M.cursor c) else pure 0) s' = _
  by_cases hstart : M.cursor c ≠ start
  · rw [if_pos hstart, if_pos hstart]
  · rw [if_neg hstart, if_neg hstart, Prog.pure_run]

/-- A turn at a free cluster: when no command fails it is handed out. -/
theorem allocLoop_free (h : ¬ s.Refuses (M.fatLba c)) 
    (hfree : M.successor (s.drive true) c = fat32EntryFree) :
    ∃ r s', (∀ fuel, allocLoop M start (fuel + 1) c s = some (r, s')) ∧
      (M.Serves s c → r = c ∧ s'.free = s.free.take c ∧ s'.drive = Function.update s.drive true
        (M.writeWords c fat32EntryEof M.info.numFats 0 (s.drive true))) := by
  obtain ⟨s1, hread, hlooks⟩ := ata_read_ok (m := true) (n := 1) h
  obtain ⟨st, s2, hwrite, hsame, hdone, hquiet⟩ := fat32WriteFatEntry_total hM c fat32EntryEof s1
  -- what a turn does, up to the status of the write
  have hturn : ∀ fuel, allocLoop M start (fuel + 1) c s =
      if st ≠ 0 then some (0, s2)
      else some (c, { s2 with free := s2.free.take c, allocs := c :: s2.allocs }) := by
    intro fuel
    rw [allocLoop, refAsBool, Prog.bind_run hread]
    simp only [hM.readLe32_sector]
    rw [if_neg (by omega), if_pos hfree, Prog.bind_run hwrite]
    by_cases hst : st ≠ 0
    · rw [if_pos hst, if_pos hst, Prog.pure_run]
    · rw [if_neg hst, if_neg hst, Prog.modify_bind, Prog.pure_run]
  by_cases hst : st = 0
  · refine ⟨c, { s2 with free := s2.free.take c, allocs := c :: s2.allocs }, ?_, ?_⟩
    · intro fuel
      rw [hturn, if_neg (by omega)]
    · intro _
      refine ⟨rfl, ?_, ?_⟩
      · show s2.free.take c = _
        rw [hsame.1, hlooks.free]
      · show s2.drive = _
        rw [hdone hst, hlooks.drive]
  · refine ⟨0, s2, ?_, ?_⟩
    · intro fuel
      rw [hturn, if_pos hst]
    · intro hserves
      have hserves1 : M.Serves s1 c := by
        refine ⟨?_, hserves.2⟩
        rw [hlooks.faults, hserves.1]
        rfl
      exact absurd (hquiet hserves1).1 hst

end Turn

/-! ## When the loop ends -/

/-- The turn `k` of the loop ends it when it comes to the cluster `c`: the entry cannot be read, or
the cluster is free. -/
def Mount.EndsAt (M : Mount) (s : FsState) (k c : Nat) : Prop :=
  2 ^ 48 ≤ M.fatLba c ∨ (s.faults.getD k none).isSome ∨ M.successor (s.drive true) c = fat32EntryFree

theorem Mount.EndsAt.of_looks {M : Mount} {s s' : FsState} (h : s.Looks s') (k c : Nat) :
    M.EndsAt s' k c ↔ M.EndsAt s (k + 1) c := by
  have hfault : s'.faults.getD k none = s.faults.getD (k + 1) none := by
    rw [h.faults]
    cases s.faults with
    | nil => rfl
    | cons f rest => rfl
  rw [Mount.EndsAt, Mount.EndsAt, hfault, h.drive]

/-- The loop ends when a turn ends it or the cursor is back at the start. -/
theorem allocLoop_isSome_iff {M : Mount} (hM : M.Tabled) (start n c : Nat) (s : FsState) :
    (allocLoop M start n c s).isSome ↔
      (∃ k, k < n ∧ M.EndsAt s k (M.cursor^[k] c)) ∨ ∃ k, k < n ∧ M.cursor^[k + 1] c = start := by
  induction n generalizing c s with
  | zero => simp [allocLoop]
  | succ n ih =>
      by_cases href : s.Refuses (M.fatLba c)
      · obtain ⟨s', -, hrun⟩ := allocLoop_refused href
        have hend : M.EndsAt s 0 c := by
          rcases href with h | h
          · exact Or.inl h
          · exact Or.inr (Or.inl h)
        rw [hrun]
        exact ⟨fun _ => Or.inl ⟨0, by omega, hend⟩, fun _ => rfl⟩
      · by_cases hfree : M.successor (s.drive true) c = fat32EntryFree
        · obtain ⟨r, s', hrun, -⟩ := allocLoop_free hM href hfree
          rw [hrun]
          exact ⟨fun _ => Or.inl ⟨0, by omega, Or.inr (Or.inr hfree)⟩, fun _ => rfl⟩
        · obtain ⟨s', hlooks, hrun⟩ := allocLoop_busy hM href hfree
          have hgo : ¬ M.EndsAt s 0 c := by
            rintro (h | h | h)
            · exact href (Or.inl h)
            · exact href (Or.inr h)
            · exact hfree h
          rw [hrun]
          by_cases hstart : M.cursor c ≠ start
          · rw [if_pos hstart, ih]
            constructor
            · rintro (⟨k, hk, he⟩ | ⟨k, hk, he⟩)
              · exact Or.inl ⟨k + 1, by omega, (Mount.EndsAt.of_looks hlooks k _).mp he⟩
              · exact Or.inr ⟨k + 1, by omega, he⟩
            · rintro (⟨k, hk, he⟩ | ⟨k, hk, he⟩)
              · cases k with
                | zero => exact absurd he hgo
                | succ k =>
                    exact Or.inl ⟨k, by omega, (Mount.EndsAt.of_looks hlooks k _).mpr he⟩
              · cases k with
                | zero => exact absurd he hstart
                | succ k => exact Or.inr ⟨k, by omega, he⟩
          · rw [if_neg hstart]
            exact ⟨fun _ => Or.inr ⟨0, by omega, not_not.mp hstart⟩, fun _ => rfl⟩

/-- The search ends within one turn more than there are clusters just when its start is a cluster
of the volume, or some cluster it looks at is free or cannot be read, or a command fails. -/
theorem allocCluster_ends_iff {M : Mount} (hM : M.Tabled) (ht : 1 ≤ M.info.totalClusters)
    (s : FsState) :
    (fat32AllocCluster M (M.info.totalClusters + 1) s).isSome ↔
      M.OnCycle s.free.start ∨
      (∃ c, (c = s.free.start ∨ M.OnCycle c) ∧
        (2 ^ 48 ≤ M.fatLba c ∨ M.successor (s.drive true) c = fat32EntryFree)) ∨
      ∃ k, k ≤ M.info.totalClusters ∧ (s.faults.getD k none).isSome := by
  have hstart := s.free.start_bounds
  rw [fat32AllocCluster, Prog.get_bind, allocLoop_isSome_iff hM]
  constructor
  · rintro (⟨k, hk, hend⟩ | ⟨k, hk, hback⟩)
    · -- the cluster at which a turn ends the loop
      have hmet : M.cursor^[k] s.free.start = s.free.start ∨
          M.OnCycle (M.cursor^[k] s.free.start) := by
        cases k with
        | zero => exact Or.inl rfl
        | succ k => exact Or.inr (Mount.iterate_onCycle hstart k)
      rcases hend with h | h | h
      · exact Or.inr (Or.inl ⟨_, hmet, Or.inl h⟩)
      · exact Or.inr (Or.inr ⟨k, by omega, h⟩)
      · exact Or.inr (Or.inl ⟨_, hmet, Or.inr h⟩)
    · left
      rw [← hback]
      exact Mount.iterate_onCycle hstart k
  · rintro (hcycle | ⟨c, hc, hend⟩ | ⟨k, hk, hfault⟩)
    · obtain ⟨k, hk, hback⟩ := hcycle.returns ht
      exact Or.inr ⟨k, by omega, hback⟩
    · by_cases hcycle : M.OnCycle s.free.start
      · obtain ⟨k, hk, hback⟩ := hcycle.returns ht
        exact Or.inr ⟨k, by omega, hback⟩
      · left
        have hmet : ∃ k, k ≤ M.info.totalClusters ∧ M.cursor^[k] s.free.start = c := by
          rcases hc with rfl | hc
          · exact ⟨0, by omega, rfl⟩
          · exact hc.met hstart hcycle ht
        obtain ⟨k, hk, rfl⟩ := hmet
        refine ⟨k, by omega, ?_⟩
        rcases hend with h | h
        · exact Or.inl h
        · exact Or.inr (Or.inr h)
    · exact Or.inl ⟨k, by omega, Or.inr (Or.inl hfault)⟩

/-- The small volume with every entry of the table taken and the hint at `hint`. -/
def fullState (hint : Nat) (h : hint < 2 ^ 32) : FsState :=
  { smallState (List.replicate 128 fat32EntryEof) fun _ => [] with
    free := { freeClusters := 0, nextFreeCluster := hint, count_lt := by decide, hint_lt := h } }

theorem fullState_endless (fuel : Nat) :
    fat32AllocCluster (smallMount { isPrimary := true, isMaster := true }) fuel
      (fullState 15 (by decide)) = none := by
  have hM : (smallMount { isPrimary := true, isMaster := true }).Tabled :=
    ⟨rfl, by decide⟩
  have hstart : (fullState 15 (by decide)).free.start = 15 := by decide
  have hcycle : ∀ k, (smallMount { isPrimary := true, isMaster := true }).OnCycle
      ((smallMount { isPrimary := true, isMaster := true }).cursor^[k + 1] 15) :=
    Mount.iterate_onCycle (by decide)
  -- no cluster that the search looks at is free
  have hbusy : ∀ c, c < 16 → ¬ (2 ^ 48 ≤
      (smallMount { isPrimary := true, isMaster := true }).fatLba c ∨
      (smallMount { isPrimary := true, isMaster := true }).successor
        ((fullState 15 (by decide)).drive true) c = fat32EntryFree) := by
    decide +kernel
  rw [fat32AllocCluster, Prog.get_bind, hstart, ← Option.not_isSome_iff_eq_none,
    allocLoop_isSome_iff hM]
  rintro (⟨k, -, hend⟩ | ⟨k, -, hback⟩)
  · have hlt : (smallMount { isPrimary := true, isMaster := true }).cursor^[k] 15 < 16 := by
      cases k with
      | zero => decide
      | succ k =>
          rcases hcycle k with h | ⟨-, h⟩
          · omega
          · exact h.trans (by decide)
    rcases hend with h | h | h
    · exact hbusy _ hlt (Or.inl h)
    · cases h
    · exact hbusy _ hlt (Or.inr h)
  · rcases hcycle k with h | ⟨-, h⟩
    · omega
    · rw [hback] at h
      revert h
      decide

/-- On a full volume of 13 clusters the search from behind the last of them is not over after 14
turns, and never will be. -/
theorem allocCluster_endless :
    ¬ (fat32AllocCluster (smallMount { isPrimary := true, isMaster := true }) 14
      (fullState 15 (by decide))).isSome ∧
    ∀ fuel, fat32AllocCluster (smallMount { isPrimary := true, isMaster := true }) fuel
      (fullState 15 (by decide)) = none := by
  refine ⟨?_, fullState_endless⟩
  rw [fullState_endless]
  simp

/-- The same search from the last cluster ends. -/
theorem allocCluster_ends_full :
    (fat32AllocCluster (smallMount { isPrimary := true, isMaster := true }) 14
      (fullState 14 (by decide))).isSome :=
  (allocCluster_ends_iff (M := smallMount { isPrimary := true, isMaster := true })
    ⟨rfl, by decide⟩ (by decide) (fullState 14 (by decide))).mpr (Or.inl (by decide))

/-! ## What the loop hands out -/

/-- The outcome of a search without I/O errors: a cluster of the volume that was free and now ends
a chain in every copy of the table, with every other entry as it was; or 0, when no cluster is
free and nothing has changed. -/
structure Mount.Allocates (M : Mount) (s : FsState) (r : Nat) (s' : FsState) : Prop where
  inRange : r ≠ 0 → M.InRange r
  wasFree : r ≠ 0 → M.successor (s.drive true) r = fat32EntryFree
  ends : r ≠ 0 → ∀ i, i < M.info.numFats → M.copyEntry (s'.drive true) i r = fat32EntryEof
  others : r ≠ 0 → ∀ i, i < M.info.numFats → ∀ e, e < M.tableEntries → e ≠ r →
    M.copyEntry (s'.drive true) i e = M.copyEntry (s.drive true) i e
  full : r = 0 → ∀ c, M.InRange c → M.successor (s.drive true) c ≠ fat32EntryFree
  unchanged : r = 0 → s'.drive = s.drive

/-- The walk of the cursor from `c` on comes to `r`, and no entry before is free. -/
def Mount.FirstFrom (M : Mount) (d : Nat → UInt8) (c r : Nat) : Prop :=
  ∃ j, r = M.cursor^[j] c ∧ ∀ i, i < j → M.successor d (M.cursor^[i] c) ≠ fat32EntryFree

/-- The first free entry is the one the walk begins at, or it lies on the cycle. -/
theorem Mount.FirstFrom.cases {M : Mount} {d : Nat → UInt8} {c r : Nat} (h : M.FirstFrom d c r)
    (hc : 2 ≤ c ∧ c < 2 ^ 32 - 1) :
    r = c ∨ (M.OnCycle r ∧ M.successor d c ≠ fat32EntryFree) := by
  obtain ⟨j, rfl, hbusy⟩ := h
  cases j with
  | zero => exact Or.inl rfl
  | succ j => exact Or.inr ⟨M.iterate_onCycle hc j, hbusy 0 (by omega)⟩

section Allocates

variable {M : Mount} (hM : M.Tabled) {s s' : FsState} {start c r fuel : Nat}
include hM

omit hM in
theorem Mount.Serves.not_refuses (h : M.Serves s c) (hfats : 1 ≤ M.info.numFats) :
    ¬ s.Refuses (M.fatLba c) := by
  have hlba := h.2 0 (by omega)
  rw [M.fatLba_eq_copy]
  rintro (h' | h')
  · omega
  · rw [h.1] at h'
    cases h'

/-- Without I/O errors the loop returns the first free cluster it comes to, or 0 when the cursor
is back at the start. -/
theorem allocLoop_returns (hfats : 1 ≤ M.info.numFats)
    (hserves : ∀ b, b < 2 ^ 32 → M.Serves s b) (hc : 2 ≤ c ∧ c < 2 ^ 32 - 1)
    (hrun : allocLoop M start fuel c s = some (r, s')) :
    (r = 0 ∧ s.Reads s' ∧ ∃ k, M.cursor^[k + 1] c = start ∧
        ∀ j, j ≤ k → M.successor (s.drive true) (M.cursor^[j] c) ≠ fat32EntryFree) ∨
      (M.FirstFrom (s.drive true) c r ∧ M.successor (s.drive true) r = fat32EntryFree ∧
        s'.free = s.free.take r ∧ s'.drive = Function.update s.drive true
          (M.writeWords r fat32EntryEof M.info.numFats 0 (s.drive true))) := by
  -- by the entries looked at: the round trip of the cursor ends at `start`, or at a free entry
  induction fuel generalizing c s with
  | zero => cases hrun
  | succ fuel ih =>
      have hgo := (hserves c (by omega)).not_refuses hfats
      by_cases hfree : M.successor (s.drive true) c = fat32EntryFree
      · obtain ⟨r', s1, hturn, hstored⟩ := allocLoop_free hM hgo hfree
        rw [hturn] at hrun
        cases hrun
        obtain ⟨rfl, hcount, hdrive⟩ := hstored (hserves c (by omega))
        exact Or.inr ⟨⟨0, rfl, by simp⟩, hfree, hcount, hdrive⟩
      · obtain ⟨s1, hlooks, hturn⟩ := allocLoop_busy hM hgo hfree
        rw [hturn] at hrun
        by_cases hstart : M.cursor c ≠ start
        · rw [if_pos hstart] at hrun
          have hserves1 : ∀ b, b < 2 ^ 32 → M.Serves s1 b := by
            intro b hb
            refine ⟨?_, (hserves b hb).2⟩
            rw [hlooks.faults, (hserves b hb).1]
            rfl
          have hcycle := Mount.cursor_onCycle (M := M) hc
          have hnext : 2 ≤ M.cursor c ∧ M.cursor c < 2 ^ 32 - 1 := by
            have hlt := Nat.mod_lt (M.info.totalClusters + 2) (show 0 < 2 ^ 32 by decide)
            unfold Mount.OnCycle u32 at hcycle
            omega
          rcases ih hserves1 hnext hrun with ⟨h0, hd, k, hback, hbusy⟩ |
            ⟨⟨j, hj, hbusy⟩, hrfree, hcount, hd⟩
          · left
            refine ⟨h0, (hlooks.reads (hserves c (by omega)).1).trans hd, k + 1, hback, ?_⟩
            intro j hj
            cases j with
            | zero => exact hfree
            | succ j =>
                have := hbusy j (by omega)
                rw [hlooks.drive] at this
                exact this
          · right
            -- the word of the free entry found further on is that of the table before the call
            rw [hlooks.drive] at hbusy hrfree hd
            rw [hlooks.free] at hcount
            refine ⟨⟨j + 1, hj, ?_⟩, hrfree, hcount, hd⟩
            intro i hi
            cases i with
            | zero => exact hfree
            | succ i => exact hbusy i (by omega)
        · rw [if_neg hstart] at hrun
          cases hrun
          left
          refine ⟨rfl, hlooks.reads (hserves c (by omega)).1, 0, not_not.mp hstart, ?_⟩
          intro j hj
          obtain rfl : j = 0 := by omega
          exact hfree

omit hM in
/-- A walk of the cursor that is back at its start has met the whole cycle. -/
theorem Mount.cycle_busy {k : Nat} (hs : 2 ≤ start ∧ start < 2 ^ 32 - 1)
    (hback : M.cursor^[k + 1] start = start)
    (hbusy : ∀ j, j ≤ k → M.successor (s.drive true) (M.cursor^[j] start) ≠ fat32EntryFree)
    (hc : M.OnCycle c) : M.successor (s.drive true) c ≠ fat32EntryFree := by
  have hcycle : M.OnCycle start := hback ▸ Mount.iterate_onCycle hs k
  have hmet : ∃ j, j ≤ k ∧ M.cursor^[j] start = c := by
    refine Mount.OnCycle.all (P := fun c => ∃ j, j ≤ k ∧ M.cursor^[j] start = c) hcycle
      ⟨0, Nat.zero_le k, rfl⟩ ?_ hc
    rintro b ⟨j, hj, rfl⟩
    by_cases hjk : j = k
    · refine ⟨0, Nat.zero_le k, ?_⟩
      subst hjk
      rw [← Function.iterate_succ_apply' M.cursor, hback]
      rfl
    · exact ⟨j + 1, by omega, Function.iterate_succ_apply' _ _ _⟩
  obtain ⟨j, hj, rfl⟩ := hmet
  exact hbusy j hj

/-- The allocator hands out free clusters of the volume just when neither the entry the search
starts at nor entry 2 is free and beyond the last cluster. -/
theorem allocCluster_allocates_iff (hfats : 1 ≤ M.info.numFats)
    (htable : M.info.totalClusters + 2 ≤ M.tableEntries)
    (hnumbers : M.info.totalClusters + 2 < 2 ^ 32) (hserves : ∀ b, b < 2 ^ 32 → M.Serves s b) :
    (∀ fuel r s', fat32AllocCluster M fuel s = some (r, s') → M.Allocates s r s') ↔
      ∀ c, c = 2 ∨ c = s.free.start → M.successor (s.drive true) c = fat32EntryFree →
        c < M.info.totalClusters + 2 := by
  have hstart := s.free.start_bounds
  have hlimit : u32 (M.info.totalClusters + 2) = M.info.totalClusters + 2 := by
    rw [u32]
    omega
  constructor
  · intro h
    -- a free entry at the start is handed out in the first turn
    have hfirst : M.successor (s.drive true) s.free.start = fat32EntryFree →
        s.free.start < M.info.totalClusters + 2 := by
      intro hfree
      obtain ⟨r, s', hturn, hstored⟩ := allocLoop_free hM
        ((hserves s.free.start (by omega)).not_refuses hfats) hfree
      obtain ⟨rfl, -⟩ := hstored (hserves _ (by omega))
      have hspec := h 1 _ s' (hturn 0)
      exact (hspec.inRange (by omega)).2
    rintro c (rfl | rfl) hfree
    · by_contra hover
      -- without a cluster the search comes to entry 2 at once
      obtain ⟨fuel, r, s', hrun, hr⟩ : ∃ fuel r s',
          fat32AllocCluster M fuel s = some (r, s') ∧ r = 2 := by
        by_cases h2 : s.free.start = 2
        · obtain ⟨r, s', hturn, hstored⟩ := allocLoop_free hM
            ((hserves 2 (by decide)).not_refuses hfats) hfree
          refine ⟨1, r, s', ?_, (hstored (hserves 2 (by decide))).1⟩
          rw [fat32AllocCluster, Prog.get_bind, h2]
          exact hturn 0
        · have hbusy : M.successor (s.drive true) s.free.start ≠ fat32EntryFree := by
            intro hf
            have := hfirst hf
            omega
          obtain ⟨s1, hlooks, hturn⟩ := allocLoop_busy hM
            ((hserves s.free.start (by omega)).not_refuses hfats) hbusy
          have hnext : M.cursor s.free.start = 2 := Mount.cursor_wraps hstart.2 (by omega)
          have hserves1 : M.Serves s1 2 := by
            refine ⟨?_, (hserves 2 (by decide)).2⟩
            rw [hlooks.faults, (hserves 2 (by decide)).1]
            rfl
          obtain ⟨r, s', hturn2, hstored⟩ := allocLoop_free hM
            (hserves1.not_refuses hfats) (by rw [hlooks.drive]; exact hfree)
          refine ⟨2, r, s', ?_, (hstored hserves1).1⟩
          rw [fat32AllocCluster, Prog.get_bind, hturn, hnext, if_pos (Ne.symm h2)]
          exact hturn2 0
      have := ((h fuel r s' hrun).inRange (by omega)).2
      omega
    · exact hfirst hfree
  · intro h fuel r s' hrun
    rw [fat32AllocCluster, Prog.get_bind] at hrun
    rcases allocLoop_returns hM hfats hserves hstart hrun with
      ⟨rfl, hreads, k, hback, hbusy⟩ | ⟨hfirst, hfree, -, hdrive⟩
    · refine ⟨fun h0 => absurd rfl h0, fun h0 => absurd rfl h0, fun h0 => absurd rfl h0,
        fun h0 => absurd rfl h0, ?_, fun _ => hreads.drive⟩
      intro _ c hc
      refine Mount.cycle_busy hstart hback hbusy (Or.inr ?_)
      rw [hlimit]
      exact hc
    · have hin : M.InRange r := by
        rcases hfirst.cases hstart with rfl | hr
        · exact ⟨hstart.1, h _ (Or.inr rfl) hfree⟩
        · rcases hr.1 with rfl | ⟨h2, hlt⟩
          · exact ⟨Nat.le_refl 2, h 2 (Or.inl rfl) hfree⟩
          · exact ⟨h2, by omega⟩
      have hentry : r < M.tableEntries := by
        have := hin.2
        omega
      have hmaster : s'.drive true =
          M.writeWords r fat32EntryEof M.info.numFats 0 (s.drive true) := by
        rw [hdrive, Function.update_self]
      have hpos : r ≠ 0 := by
        have := hin.1
        omega
      refine ⟨fun _ => hin, fun _ => hfree, ?_, ?_, fun h0 => absurd h0 hpos,
        fun h0 => absurd h0 hpos⟩
      · intro _ i hi
        rw [hmaster, hM.copyEntry_writeWords _ hentry hi]
        rfl
      · intro _ i hi e he hne
        rw [hmaster, hM.copyEntry_writeWords_ne _ _ hentry he hi hne]

end Allocates

/-- The small volume with an empty table and the hint at `hint`. -/
def emptyState (hint : Nat) (h : hint < 2 ^ 32) : FsState :=
  { smallState [] fun _ => [] with
    free := { freeClusters := 13, nextFreeCluster := hint, count_lt := by decide, hint_lt := h } }

theorem smallMount_serves (hint : Nat) (h : hint < 2 ^ 32) (b : Nat) (hb : b < 2 ^ 32) :
    (smallMount { isPrimary := true, isMaster := true }).Serves (emptyState hint h) b :=
  ⟨rfl, fun _ hi => (smallMount_sound _).fatCopyLba_lt hi hb⟩

theorem emptyState_hands_out (hint : Nat) (h : hint < 2 ^ 32)
    (hstart : (emptyState hint h).free.start = hint)
    (hfree : (smallMount { isPrimary := true, isMaster := true }).successor
      ((emptyState hint h).drive true) hint = fat32EntryFree) :
    ∃ s', fat32AllocCluster (smallMount { isPrimary := true, isMaster := true }) 1
      (emptyState hint h) = some (hint, s') := by
  obtain ⟨r, s', hturn, hstored⟩ := allocLoop_free
    (M := smallMount { isPrimary := true, isMaster := true }) ⟨rfl, by decide⟩
    ((smallMount_serves hint h hint h).not_refuses (by decide)) hfree
  obtain ⟨rfl, -⟩ := hstored (smallMount_serves hint h hint h)
  refine ⟨s', ?_⟩
  rw [fat32AllocCluster, Prog.get_bind, hstart]
  exact hturn 0

/-- With the hint at the last cluster, the small volume hands out that cluster. -/
theorem allocCluster_allocates_last : ∃ s',
    fat32AllocCluster (smallMount { isPrimary := true, isMaster := true }) 1
      (emptyState 14 (by decide)) = some (14, s') ∧
    (smallMount { isPrimary := true, isMaster := true }).Allocates
      (emptyState 14 (by decide)) 14 s' := by
  obtain ⟨s', hrun⟩ := emptyState_hands_out 14 (by decide) (by decide) (by decide +kernel)
  refine ⟨s', hrun, ?_⟩
  refine (allocCluster_allocates_iff ⟨rfl, by decide⟩ (by decide) (by decide)
    (by decide) (smallMount_serves 14 (by decide))).mpr ?_ 1 14 s' hrun
  rintro c (rfl | rfl) _ <;> decide

/-- With the hint behind the last cluster, number 15 is handed out on a volume whose last cluster
is number 14. -/
theorem allocCluster_beyond : ∃ fuel s',
    fat32AllocCluster (smallMount { isPrimary := true, isMaster := true }) fuel
      (emptyState 15 (by decide)) = some (15, s') ∧
    ¬ (smallMount { isPrimary := true, isMaster := true }).Allocates
      (emptyState 15 (by decide)) 15 s' := by
  obtain ⟨s', hrun⟩ := emptyState_hands_out 15 (by decide) (by decide) (by decide +kernel)
  refine ⟨1, s', hrun, ?_⟩
  intro h
  have := h.inRange (by decide)
  revert this
  decide

end Os003
