import Os003.Fs.Emptiness
import Os003.Fs.Entries
import Os003.Fs.Tree

set_option autoImplicit false

/-! # Commands that fail

The functions on a sound volume under every pattern of failing commands. The pattern counts the
commands from the present state on: `s.Clean n` says that none of the next `n` of them fails, and
`s.moves k n` is what a write of `n` sectors transfers as the command number `k`.

Each lemma says what one function has done to the abstract volume, and with how many clean commands
it succeeds. A write that fails has transferred the sectors up to some point; the entry of a
cluster lies in one sector of each copy of the table, a directory cluster in several.
-/

namespace Os003

open Bytes Linked

/-! ## Counting commands -/

/-- What happens to the command number `k`, the next one being number 0. -/
def FsState.due (s : FsState) (k : Nat) : Option Fault := s.faults.getD k none

/-- None of the next `n` commands fails. -/
def FsState.Clean (s : FsState) (n : Nat) : Prop := ∀ k, k < n → s.due k = none

instance (s : FsState) (n : Nat) : Decidable (s.Clean n) :=
  inferInstanceAs (Decidable (∀ k, k < n → s.due k = none))

/-- The sectors that the command number `k` transfers when it is a write of `n` sectors. -/
def FsState.moves (s : FsState) (k n : Nat) : Nat := (s.due k).elim n fun f => min f.done n

/-- The first `n` commands have come and gone. -/
def FsState.Spends (s : FsState) (n : Nat) (s' : FsState) : Prop :=
  s.Clean n ∧ s'.faults = s.faults.drop n

/-- They have changed no drive either. -/
def FsState.Passes (s : FsState) (n : Nat) (s' : FsState) : Prop :=
  s.Spends n s' ∧ s'.drive = s.drive

section Counting

variable {s t u : FsState} {m n k : Nat}

theorem FsState.Spends.refl (s : FsState) : s.Spends 0 s :=
  ⟨fun k hk => absurd hk (Nat.not_lt_zero k), by simp⟩

theorem FsState.Passes.refl (s : FsState) : s.Passes 0 s := ⟨FsState.Spends.refl s, rfl⟩

theorem FsState.Spends.due (h : s.Spends n t) (k : Nat) : t.due k = s.due (n + k) := by
  rw [FsState.due, FsState.due, h.2]
  simp [List.getD_eq_getElem?_getD, List.getElem?_drop]

theorem FsState.Spends.moves (h : s.Spends n t) (k m : Nat) : t.moves k m = s.moves (n + k) m := by
  rw [FsState.moves, FsState.moves, h.due]

/-- What is left of a clean stretch. -/
theorem FsState.Spends.clean_iff (h : s.Spends n t) : t.Clean m ↔ s.Clean (n + m) := by
  constructor
  · intro ht k hk
    by_cases hkn : k < n
    · exact h.1 k hkn
    · have hrest := ht (k - n) (by omega)
      rw [h.due, Nat.add_sub_of_le (Nat.le_of_not_lt hkn)] at hrest
      exact hrest
  · intro hs k hk
    rw [h.due]
    exact hs (n + k) (by omega)

theorem FsState.Spends.trans (h : s.Spends n t) (h' : t.Spends m u) : s.Spends (n + m) u :=
  ⟨h.clean_iff.mp h'.1, by rw [h'.2, h.2, List.drop_drop]⟩

theorem FsState.Passes.trans (h : s.Passes n t) (h' : t.Passes m u) : s.Passes (n + m) u :=
  ⟨h.1.trans h'.1, h'.2.trans h.2⟩

theorem FsState.clean_one : s.Clean 1 ↔ s.due 0 = none := by
  constructor
  · exact fun h => h 0 Nat.one_pos
  · intro h k hk
    obtain rfl : k = 0 := by omega
    exact h

theorem FsState.Clean.mono (h : s.Clean n) (hm : m ≤ n) : s.Clean m :=
  fun k hk => h k (Nat.lt_of_lt_of_le hk hm)

theorem FsState.Clean.moves (h : s.Clean n) (hk : k < n) (m : Nat) : s.moves k m = m := by
  rw [FsState.moves, h k hk, Option.elim]

theorem FsState.moves_le (s : FsState) (k n : Nat) : s.moves k n ≤ n := by
  rw [FsState.moves]
  cases s.due k with
  | none => exact Nat.le_refl n
  | some f => exact Nat.min_le_right _ _

/-- The abstract volume depends on the drives alone. -/
theorem Mount.view_congr (M : Mount) (h : t.drive = s.drive) : M.view t = M.view s := by
  simp only [Mount.view, Mount.entryAt, h]

theorem FsState.Passes.view (M : Mount) (h : s.Passes n t) : M.view t = M.view s :=
  M.view_congr h.2

end Counting

/-! ## Driver calls -/

section Commands

variable {s : FsState} {m : Bool} {lba n : Nat}

theorem FsState.refuses_iff (h : lba < 2 ^ 48) : s.Refuses lba ↔ ¬ s.Clean 1 := by
  rw [FsState.clean_one, FsState.Refuses, FsState.due, Option.isSome_iff_ne_none]
  constructor
  · rintro (h' | h')
    · omega
    · exact h'
  · exact Or.inr

theorem FsState.Looks.passes {s' : FsState} (h : s.Looks s') (hclean : s.Clean 1) :
    s.Passes 1 s' := ⟨⟨hclean, by rw [h.faults, List.drop_one]⟩, h.drive⟩

/-- A read returns what is there, or it fails and has changed nothing. -/
theorem ata_read_faulty (h : lba < 2 ^ 48) :
    (s.Clean 1 ∧ ∃ s', ata (ataRead m lba n) s =
      some (((n : Int), readBytes (s.drive m) (512 * lba) (512 * n)), s') ∧ s.Passes 1 s') ∨
    (¬ s.Clean 1 ∧ ∃ r buf s', ata (ataRead m lba n) s = some ((r, buf), s') ∧ r < 0 ∧
      s'.drive = s.drive) := by
  by_cases hclean : s.Clean 1
  · have hok : ¬ s.Refuses lba := by
      rw [FsState.refuses_iff h, not_not]
      exact hclean
    obtain ⟨s', hrun, hlooks⟩ := ata_read_ok (m := m) (n := n) hok
    exact Or.inl ⟨hclean, s', hrun, hlooks.passes hclean⟩
  · right
    obtain ⟨b, hb⟩ := ataCommand_ok m n h
    obtain ⟨f, hf⟩ := Option.ne_none_iff_exists'.mp (fun h0 => hclean (FsState.clean_one.mpr h0))
    have hrun : ∃ buf, ataRead m lba n s.toChannel = some ((Int.negSucc f.code, buf),
        { s.toChannel with
          faults := s.faults.tail
          log := .read m lba (min f.done n) :: s.log }) := by
      simp only [ataRead, hb, takeFault_some hf, ataCommand_selects hb]
      exact ⟨_, rfl⟩
    obtain ⟨buf, hrun⟩ := hrun
    exact ⟨hclean, _, buf, _, Prog.zoom_run hrun, Int.negSucc_lt_zero _, rfl⟩

/-- A write stores the sectors it transfers, and succeeds when it transfers all of them. -/
theorem ata_write_faulty (h : lba < 2 ^ 48) (buf : List UInt8) : ∃ r s',
    ata (ataWrite m lba n buf) s = some (r, s') ∧
      s'.drive = Function.update s.drive m
        (writeBytes (s.drive m) (512 * lba) (buf.take (512 * s.moves 0 n))) ∧
      ((0 ≤ r ∧ s.Spends 1 s') ∨ (r < 0 ∧ ¬ s.Clean 1)) := by
  obtain ⟨b, hb⟩ := ataCommand_ok m n h
  cases hf : s.due 0 with
  | none =>
      have hclean : s.Clean 1 := FsState.clean_one.mpr hf
      have hrun : ataWrite m lba n buf s.toChannel = some ((n : Int),
          { s.toChannel with
            drive := Function.update s.drive m
              (writeBytes (s.drive m) (512 * lba) (buf.take (512 * n)))
            faults := s.faults.tail
            log := .write m lba n :: s.log }) := by
        simp only [ataWrite, hb, ataCommand_selects hb, takeFault_none hf]
      refine ⟨_, _, Prog.zoom_run hrun, ?_, Or.inl ⟨by omega, hclean, List.drop_one.symm⟩⟩
      rw [hclean.moves Nat.one_pos]
  | some f =>
      have hrun : ataWrite m lba n buf s.toChannel = some (Int.negSucc f.code,
          { s.toChannel with
            drive := Function.update s.drive m
              (writeBytes (s.drive m) (512 * lba) (buf.take (512 * min f.done n)))
            faults := s.faults.tail
            log := .write m lba (min f.done n) :: s.log }) := by
        simp only [ataWrite, hb, ataCommand_selects hb, takeFault_some hf]
      refine ⟨_, _, Prog.zoom_run hrun, ?_, Or.inr ⟨Int.negSucc_lt_zero _, ?_⟩⟩
      · rw [FsState.moves, hf, Option.elim]
      · rw [FsState.clean_one, hf]
        exact Option.some_ne_none f

end Commands

/-! ## Words of the table -/

section Sound

variable {M : Mount} (hM : M.Sound) {s s' : FsState} {c v : Nat}
include hM

theorem Mount.Sound.wordAddr_eq {i : Nat} (hi : i < M.info.numFats) (hc : c < 2 ^ 32) :
    M.wordAddr i c = M.fatBase + 512 * (i * M.info.sectorsPerFat) + 4 * c := by
  rw [Mount.wordAddr, hM.fatCopyLba_eq hi hc, Mount.fatBase]
  omega

/-- A word stored in the first copy is an entry of the volume, one in another copy is not. -/
theorem view_word {i : Nat} (hi : i < M.info.numFats) (hc : M.HasEntry c) (hv : v < 2 ^ 28)
    (h : s'.drive = Function.update s.drive true
      (writeBytes (s.drive true) (M.wordAddr i c) (le32 v))) :
    M.view s' = if i = 0 then (M.view s).setFat c v else M.view s := by
  have haddr := hM.wordAddr_eq hi (hc.lt hM)
  have htable := hM.table
  have hct : c < M.info.totalClusters + 2 := hc
  have hmaster : s'.drive true = writeBytes (s.drive true) (M.wordAddr i c) (le32 v) := by
    rw [h, Function.update_self]
  -- the word lies before every cluster
  have hdata : (M.view s').data = (M.view s).data := by
    funext x
    by_cases hx : M.InRange x
    · have hend := Mount.copy_end hM.layout hi
      have hsector := hM.entry_sector hc
      simp only [Mount.view, if_pos hx]
      cases hm : M.disk.isMaster with
      | false => rw [h, Function.update_of_ne (by decide)]
      | true =>
          rw [hmaster, readBytes_writeBytes_of_disjoint]
          left
          rw [le32_length, haddr, Mount.fatBase, Mount.dataBase]
          omega
    · simp only [Mount.view, if_neg hx]
  -- another entry of the first copy lies apart from it
  have hother : ∀ x, M.HasEntry x → (i = 0 → x ≠ c) → M.entryAt s' x = M.entryAt s x := by
    intro x hx hne
    have hxt : x < M.info.totalClusters + 2 := hx
    rw [Mount.entryAt, Mount.entryAt, hmaster, readBytes_writeBytes_of_disjoint]
    rw [le32_length, haddr]
    rcases Nat.eq_zero_or_pos i with rfl | hpos
    · have := hne rfl
      omega
    · have : 1 * M.info.sectorsPerFat ≤ i * M.info.sectorsPerFat := Nat.mul_le_mul_right _ hpos
      omega
  have hfat : (M.view s').fat = if i = 0 then Function.update (M.view s).fat c v
      else (M.view s).fat := by
    funext x
    by_cases hx : M.HasEntry x
    · by_cases hxc : i = 0 ∧ x = c
      · obtain ⟨rfl, rfl⟩ := hxc
        have hread := readBytes_writeBytes (s.drive true) (M.wordAddr 0 x) (le32 v)
        rw [le32_length, haddr, Nat.zero_mul, Nat.mul_zero, Nat.add_zero] at hread
        rw [if_pos rfl, Function.update_self]
        simp only [Mount.view, if_pos hx, Mount.entryAt, hmaster]
        rw [haddr, Nat.zero_mul, Nat.mul_zero, Nat.add_zero, hread, readLe32_le32]
        omega
      · have hsame : (M.view s').fat x = (M.view s).fat x := by
          simp only [Mount.view, if_pos hx]
          rw [hother x hx (fun h0 hxe => hxc ⟨h0, hxe⟩)]
        rw [hsame]
        by_cases h0 : i = 0
        · rw [if_pos h0, Function.update_of_ne (fun hxe => hxc ⟨h0, hxe⟩)]
        · rw [if_neg h0]
    · have hsame : (M.view s').fat x = (M.view s).fat x := by
        simp only [Mount.view, if_neg hx]
      have hxc : x ≠ c := by
        rintro rfl
        exact hx hc
      rw [hsame]
      split
      · rw [Function.update_of_ne hxc]
      · rfl
  by_cases h0 : i = 0
  · rw [if_pos h0] at hfat ⊢
    rw [Volume.setFat, ← hfat, ← hdata]
  · rw [if_neg h0] at hfat ⊢
    calc M.view s' = ⟨(M.view s').fat, (M.view s').data⟩ := rfl
      _ = ⟨(M.view s).fat, (M.view s).data⟩ := by rw [hfat, hdata]

/-! ## The sector functions -/

theorem nextCluster_faulty (hc : M.HasEntry c) :
    (s.Clean 1 ∧ ∃ s', fat32NextCluster M c s = some (some ((M.view s).fat c), s') ∧
      s.Passes 1 s') ∨
    (¬ s.Clean 1 ∧ ∃ s', fat32NextCluster M c s = some (none, s') ∧ s'.drive = s.drive) := by
  have hword := hM.tabled.readLe32_sector (s.drive true) c
  have hentry : M.successor (s.drive true) c = (M.view s).fat c := by
    simp only [Mount.view, if_pos hc]
    rw [Mount.successor, Mount.copyEntry, hM.wordAddr_eq hM.fats (hc.lt hM), Nat.zero_mul,
      Nat.mul_zero, Nat.add_zero, Mount.entryAt]
  rcases ata_read_faulty (s := s) (m := true) (n := 1) (hM.fatLba_lt (hc.lt hM)) with
    ⟨hclean, s', hrun, hpass⟩ | ⟨hclean, r, buf, s', hrun, hneg, hdrive⟩
  · refine Or.inl ⟨hclean, s', ?_, hpass⟩
    rw [fat32NextCluster, refAsBool, Prog.bind_run hrun]
    simp only [hword, hentry]
    rw [if_neg (by omega), Prog.pure_run]
  · refine Or.inr ⟨hclean, s', ?_, hdrive⟩
    rw [fat32NextCluster, refAsBool, Prog.bind_run hrun]
    simp only []
    rw [if_pos hneg, Prog.pure_run]

theorem readCluster_faulty (hc : M.InRange c) :
    (s.Clean 1 ∧ ∃ s', fat32ReadCluster M c s = some ((0, (M.view s).data c), s') ∧
      s.Passes 1 s') ∨
    (¬ s.Clean 1 ∧ ∃ buf s', fat32ReadCluster M c s = some ((1, buf), s') ∧
      s'.drive = s.drive) := by
  rcases ata_read_faulty (s := s) (m := M.disk.isMaster) (n := M.info.sectorsPerCluster)
    (clusterLba_lt hM hc) with
    ⟨hclean, s', hrun, hpass⟩ | ⟨hclean, r, buf, s', hrun, hneg, hdrive⟩
  · refine Or.inl ⟨hclean, s', ?_, hpass⟩
    rw [fat32ReadCluster, Prog.bind_run hrun]
    simp only [Mount.view, if_pos hc, hM.clusterSize_eq, hM.dataBase_eq hc]
    rw [if_neg (by omega), Prog.pure_run]
  · refine Or.inr ⟨hclean, buf, s', ?_, hdrive⟩
    rw [fat32ReadCluster, Prog.bind_run hrun]
    simp only []
    rw [if_pos hneg, Prog.pure_run]

/-- What a write leaves in a cluster that held `old` when it transfers `n` sectors of `buf`. -/
def mixed (old buf : List UInt8) (n : Nat) : List UInt8 := splice old 0 (buf.take (512 * n))

theorem writeCluster_faulty (hc : M.InRange c) {buf : List UInt8}
    (hbuf : buf.length = M.clusterSize) : ∃ st s', fat32WriteCluster M c buf s = some (st, s') ∧
      M.view s' = (M.view s).setData c
        (mixed ((M.view s).data c) buf (s.moves 0 M.info.sectorsPerCluster)) ∧
      (st = 0 ↔ s.Clean 1) := by
  have hsize := hM.clusterSize_eq
  have hmoves := s.moves_le 0 M.info.sectorsPerCluster
  obtain ⟨r, s1, hrun, hdrive, hcase⟩ := ata_write_faulty (s := s) (m := M.disk.isMaster)
    (n := M.info.sectorsPerCluster) (clusterLba_lt hM hc) buf
  have htake : (buf.take (512 * s.moves 0 M.info.sectorsPerCluster)).length =
      512 * s.moves 0 M.info.sectorsPerCluster := by
    rw [List.length_take]
    omega
  -- the sectors behind the transfer keep their bytes
  have hview : M.view s1 = (M.view s).setData c
      (mixed ((M.view s).data c) buf (s.moves 0 M.info.sectorsPerCluster)) := by
    have hold : (M.view s).data c =
        readBytes (s.drive M.disk.isMaster) (512 * M.clusterLba c) M.clusterSize := by
      simp only [Mount.view, if_pos hc, hM.dataBase_eq hc]
    have hlen : (mixed ((M.view s).data c) buf (s.moves 0 M.info.sectorsPerCluster)).length =
        M.clusterSize := by
      rw [mixed, splice_length _ _ _ (by rw [htake, M.view_data_length s hc]; omega),
        M.view_data_length s hc]
    rw [← view_putCluster hM hc hlen]
    apply M.view_congr
    rw [hdrive, Mount.putCluster, FsState.note_drive, FsState.store, mixed, hold,
      writeBytes_splice _ _ _ _ _ (by rw [htake]; omega), Nat.add_zero]
  rcases hcase with ⟨hr, hspend⟩ | ⟨hr, hclean⟩
  · refine ⟨0, s1.note (.flush M.disk.isMaster), ?_, hview, by simp [hspend.1]⟩
    rw [fat32WriteCluster, Prog.bind_run hrun, if_neg (by omega),
      Prog.bind_run (ata_flush_run _ _), Prog.pure_run]
  · refine ⟨1, s1, ?_, hview, by simp [hclean]⟩
    rw [fat32WriteCluster, Prog.bind_run hrun, if_pos hr, Prog.pure_run]

/-- The loop over the copies of the table. The first copy is the one the volume shows. -/
theorem writeFatCopies_faulty (hc : M.HasEntry c) (hv : v < 2 ^ 28) {n i : Nat}
    (hi : i + n ≤ M.info.numFats) (s : FsState) : ∃ st s',
      writeFatCopies M c v n i s = some (st, s') ∧
      M.view s' = (if i = 0 ∧ 0 < n ∧ s.Clean 1 ∧ 0 < s.moves 1 1 then (M.view s).setFat c v
        else M.view s) ∧
      ((st = 0 ∧ s.Spends (2 * n) s') ∨ (st ≠ 0 ∧ ¬ s.Clean (2 * n))) := by
  -- by the copies still to write: a read and a write each, and only copy 0 is seen by the reader
  induction n generalizing i s with
  | zero =>
      refine ⟨0, s, rfl, ?_, Or.inl ⟨rfl, FsState.Spends.refl s⟩⟩
      rw [if_neg (fun h => absurd h.2.1 (Nat.lt_irrefl 0))]
  | succ n ih =>
      have hlba := hM.fatCopyLba_lt (i := i) (by omega) (hc.lt hM)
      rw [writeFatCopies, refAsBool]
      rcases ata_read_faulty (s := s) (m := true) (n := 1) hlba with
        ⟨hclean, s1, hread, hpass⟩ | ⟨hclean, r, buf, s1, hread, hneg, hdrive⟩
      · -- the sector goes back with four bytes changed, or not at all
        obtain ⟨r, s2, hwrite, hdrive2, hcase⟩ := ata_write_faulty (s := s1) (m := true) (n := 1)
          hlba (writeLe32 (readBytes (s.drive true) (512 * M.fatCopyLba i c) (512 * 1))
            (c * 4 % M.info.bytesPerSector) v)
        have hlen : (writeLe32 (readBytes (s.drive true) (512 * M.fatCopyLba i c) (512 * 1))
            (c * 4 % M.info.bytesPerSector) v).length = 512 * 1 := by
          rw [writeLe32, hM.bytes, splice_length _ _ _ (by simp; omega), readBytes_length]
        have hmoves : s1.moves 0 1 = s.moves 1 1 := hpass.1.moves 0 1
        have hview : M.view s2 = if i = 0 ∧ 0 < s.moves 1 1 then (M.view s).setFat c v
            else M.view s := by
          by_cases hpos : 0 < s.moves 1 1
          · have hone : s1.moves 0 1 = 1 := by
              have := s1.moves_le 0 1
              omega
            have hstored : s2.drive = Function.update s1.drive true
                (writeBytes (s1.drive true) (M.wordAddr i c) (le32 v)) := by
              rw [hdrive2, hone, List.take_of_length_le (by omega), writeLe32, hpass.2,
                writeBytes_splice _ _ _ _ _ (by rw [hM.bytes]; simp; omega),
                hM.tabled.wordAddr_eq]
            rw [view_word hM (by omega) hc hv hstored, hpass.view M]
            by_cases h0 : i = 0
            · rw [if_pos h0, if_pos ⟨h0, hpos⟩]
            · rw [if_neg h0, if_neg (fun h => h0 h.1)]
          · have hzero : s1.moves 0 1 = 0 := by omega
            rw [if_neg (fun h => hpos h.2), ← hpass.view M]
            apply M.view_congr
            rw [hdrive2, hzero, Nat.mul_zero, List.take_zero]
            funext m x
            cases m with
            | false => rw [Function.update_of_ne (by decide)]
            | true =>
                rw [Function.update_self, writeBytes, if_neg (by simp)]
        rw [Prog.bind_run hread]
        simp only []
        rw [if_neg (by omega), Prog.bind_run hwrite]
        -- the read went well, so `Clean 1` says nothing more
        have hcond : (i = 0 ∧ 0 < n + 1 ∧ s.Clean 1 ∧ 0 < s.moves 1 1) ↔
            (i = 0 ∧ 0 < s.moves 1 1) :=
          ⟨fun h => ⟨h.1, h.2.2.2⟩, fun h => ⟨h.1, Nat.succ_pos n, hclean, h.2⟩⟩
        rcases hcase with ⟨hr, hspend⟩ | ⟨hr, hfail⟩
        · obtain ⟨st, s3, hrest, hview3, hdone⟩ := ih (i := i + 1) (by omega) s2
          rw [if_neg (fun h => absurd h.1 (Nat.succ_ne_zero i))] at hview3
          have hspend2 : s.Spends 2 s2 := hpass.1.trans hspend
          rw [if_neg (by omega)]
          refine ⟨st, s3, hrest, ?_, ?_⟩
          · rw [hview3, hview, if_congr hcond rfl rfl]
          · rw [show 2 * (n + 1) = 2 + 2 * n by omega]
            rcases hdone with ⟨h0, hspend3⟩ | ⟨h0, hfail⟩
            · exact Or.inl ⟨h0, hspend2.trans hspend3⟩
            · exact Or.inr ⟨h0, fun h => hfail (hspend2.clean_iff.mpr h)⟩
        · refine ⟨1, s2, ?_, ?_, Or.inr ⟨by decide, ?_⟩⟩
          · rw [if_pos hr, Prog.pure_run]
          · rw [hview, if_congr hcond rfl rfl]
          · intro h
            exact hfail (hpass.1.clean_iff.mpr (h.mono (by omega)))
      · refine ⟨1, s1, ?_, ?_, Or.inr ⟨by decide, fun h => hclean (h.mono (by omega))⟩⟩
        · rw [Prog.bind_run hread]
          simp only []
          rw [if_pos hneg, Prog.pure_run]
        · rw [if_neg (fun h => absurd h.2.2.1 hclean), M.view_congr hdrive]

/-- `FAT32_WriteFATEntry` changes the volume when the second of its commands, the write to the first
copy of the table, transfers its sector; it succeeds when all its commands do. -/
theorem writeFatEntry_faulty (hc : M.HasEntry c) (hv : v < 2 ^ 28) (s : FsState) : ∃ st s',
    fat32WriteFatEntry M c v s = some (st, s') ∧
      M.view s' = (if s.Clean 1 ∧ 0 < s.moves 1 1 then (M.view s).setFat c v else M.view s) ∧
      ((st = 0 ∧ s.Spends (2 * M.info.numFats) s') ∨
        (st ≠ 0 ∧ ¬ s.Clean (2 * M.info.numFats))) := by
  obtain ⟨st, s1, hrun, hview, hcase⟩ := writeFatCopies_faulty hM hc hv
    (n := M.info.numFats) (i := 0) (by omega) s
  have hfats := hM.fats
  rw [if_congr (show (0 = 0 ∧ 0 < M.info.numFats ∧ s.Clean 1 ∧ 0 < s.moves 1 1) ↔
    (s.Clean 1 ∧ 0 < s.moves 1 1) from ⟨fun h => h.2.2, fun h => ⟨rfl, hfats, h⟩⟩) rfl rfl] at hview
  rw [fat32WriteFatEntry, Prog.bind_run hrun]
  rcases hcase with ⟨rfl, hspend⟩ | ⟨hst, hfail⟩
  · refine ⟨0, s1.note (.flush true), ?_, hview, Or.inl ⟨rfl, hspend⟩⟩
    rw [if_neg (by omega), refAsBool, Prog.bind_run (ata_flush_run _ _), Prog.pure_run]
  · refine ⟨st, s1, ?_, hview, Or.inr ⟨hst, hfail⟩⟩
    rw [if_pos hst, Prog.pure_run]

/-! ## Freeing a chain -/

/-- The commands for one cluster of a chain that is freed. -/
def Mount.freeing (M : Mount) : Nat := 1 + 2 * M.info.numFats

/-- One turn of the loop: the entry is cleared and the chain followed, or one of its commands fails. -/
theorem freeTurn_faulty {b : Nat} (hb : M.InRange b) (s : FsState) :
    (∃ s', (s.Clean 2 ∧ 0 < s.moves 2 1) ∧ M.view s' = (M.view s).setFat b fat32EntryFree ∧
      s.Spends M.freeing s' ∧ ∀ fuel, fat32FreeClusterChain M (fuel + 1) b s =
        if (M.view s).fat b ≥ fat32EntryEof then some (0, s')
        else fat32FreeClusterChain M fuel ((M.view s).fat b) s') ∨
    ∃ s' r, r ≠ 0 ∧ ¬ s.Clean M.freeing ∧ (M.view s' = if s.Clean 2 ∧ 0 < s.moves 2 1 then
        (M.view s).setFat b fat32EntryFree else M.view s) ∧
      ∀ fuel, fat32FreeClusterChain M (fuel + 1) b s = some (r, s') := by
  have hmax := hM.clusters
  have hlt := hb.2
  have h2 := hb.1
  have heofval : fat32EntryEof = 0x0FFFFFF8 := rfl
  have hfreeing : M.freeing = 1 + 2 * M.info.numFats := rfl
  have hfats := hM.fats
  rcases nextCluster_faulty hM (s := s) hb.hasEntry with
    ⟨hclean, s1, hnext, hpass⟩ | ⟨hclean, s1, hnext, hdrive⟩
  · -- the read of the entry went well, so the rest of the turn is its clearing
    obtain ⟨st, s2, hwrite, hview, hcase⟩ := writeFatEntry_faulty hM hb.hasEntry
      (v := fat32EntryFree) (by decide) s1
    have hcond : (s1.Clean 1 ∧ 0 < s1.moves 1 1) ↔ (s.Clean 2 ∧ 0 < s.moves 2 1) := by
      rw [hpass.1.clean_iff, hpass.1.moves]
    rw [if_congr hcond rfl rfl, hpass.view M] at hview
    rcases hcase with ⟨rfl, hspend⟩ | ⟨hst, hfail⟩
    · have hclear : s.Clean 2 ∧ 0 < s.moves 2 1 := by
        rw [← hcond]
        refine ⟨hspend.1.mono (by omega), ?_⟩
        rw [hspend.1.moves (by omega)]
        exact Nat.one_pos
      rw [if_pos hclear] at hview
      refine .inl ⟨{ s2 with free := s2.free.release }, hclear, hview, hpass.1.trans hspend,
        fun fuel => ?_⟩
      rw [fat32FreeClusterChain, if_pos ⟨h2, by omega⟩, Prog.bind_run hnext]
      simp only []
      rw [Prog.bind_run hwrite, if_neg (by omega), Prog.modify_bind]
      by_cases hend : (M.view s).fat b ≥ fat32EntryEof
      · rw [if_pos hend, if_pos hend, Prog.pure_run]
      · rw [if_neg hend, if_neg hend]
    · refine .inr ⟨s2, 1, by decide, fun h => hfail (hpass.1.clean_iff.mpr h), hview, fun fuel => ?_⟩
      rw [fat32FreeClusterChain, if_pos ⟨h2, by omega⟩, Prog.bind_run hnext]
      simp only []
      rw [Prog.bind_run hwrite, if_pos hst, Prog.pure_run]
  · -- the read has failed, and nothing was written
    have hno : ¬ s.Clean 2 := fun h => hclean (h.mono (by omega))
    refine .inr ⟨s1, 1, by decide, fun h => hclean (h.mono (by omega)), ?_, fun fuel => ?_⟩
    · rw [if_neg fun h => hno h.1, M.view_congr hdrive]
    · rw [fat32FreeClusterChain, if_pos ⟨h2, by omega⟩, Prog.bind_run hnext]
      simp only [Prog.pure_run]

/-- `FAT32_FreeClusterChain` frees the clusters of a chain from the first one on, and succeeds when
it has freed all of them. The first one is freed by its third command. -/
theorem freeChain_faulty {fuel start r : Nat} {l : List Nat}
    (hl : (M.view s).ChainOf start l) (hin : ∀ x ∈ l, M.InRange x)
    (hrun : fat32FreeClusterChain M fuel start s = some (r, s')) : ∃ p, p ⊆ l ∧
      M.view s' = (M.view s).clear p ∧ (start ∈ p ↔ s.Clean 2 ∧ 0 < s.moves 2 1) ∧
      (start ∉ p → p = []) ∧
      ((r = 0 ∧ p = l ∧ s.Spends (l.length * M.freeing) s') ∨
        (r ≠ 0 ∧ ¬ s.Clean (l.length * M.freeing))) := by
  induction l generalizing fuel start s with
  | nil =>
      obtain ⟨t, ht⟩ := hl.eq_cons
      cases ht
  | cons b l ih =>
      obtain rfl : b = start := hl.head
      have hcount : (b :: l).length * M.freeing = M.freeing + l.length * M.freeing := by
        rw [List.length_cons]
        ring
      cases fuel with
      | zero => cases hrun
      | succ fuel =>
          rcases freeTurn_faulty hM (hin b List.mem_cons_self) s with
            ⟨s2, hclear, hview, hspend, hturn⟩ | ⟨s2, r', hr', hfail, hview, hturn⟩
          · rw [hturn] at hrun
            by_cases hlast : l = []
            · subst hlast
              have hend : (M.view s).fat b ≥ fat32EntryEof := Chain.stop_last (p := []) hl
              rw [if_pos hend] at hrun
              cases hrun
              refine ⟨[b], List.Subset.refl _, ?_, by simp [hclear], by simp, Or.inl ⟨rfl, rfl, ?_⟩⟩
              · rw [← Volume.clear_cons, Volume.clear_nil]
                exact hview
              · rw [hcount, List.length_nil, Nat.zero_mul, Nat.add_zero]
                exact hspend
            · obtain ⟨-, hstop, htail⟩ := hl.of_cons hlast
              have hgo : ¬ (M.view s).fat b ≥ fat32EntryEof := hstop
              have hnodup := List.nodup_cons.mp hl.nodup
              rw [if_neg hgo] at hrun
              -- the entry just cleared is not looked at again
              have htail' : (M.view s2).ChainOf ((M.view s).fat b) l := by
                refine Chain.congr htail (fun x hx => ?_)
                have hxb : x ≠ b := by
                  rintro rfl
                  exact hnodup.1 hx
                rw [hview, Volume.setFat_fat, Function.update_of_ne hxb]
              obtain ⟨p, hp, hview', -, -, hdone⟩ := ih htail'
                (fun x hx => hin x (List.mem_cons_of_mem _ hx)) hrun
              refine ⟨b :: p, List.cons_subset_cons b hp, ?_, by simp [hclear], by simp, ?_⟩
              · rw [hview', ← Volume.clear_cons, ← hview]
              · rw [hcount]
                rcases hdone with ⟨h0, rfl, hspend'⟩ | ⟨h0, hfail⟩
                · exact Or.inl ⟨h0, rfl, hspend.trans hspend'⟩
                · exact Or.inr ⟨h0, fun h => hfail (hspend.clean_iff.mpr h)⟩
          · rw [hturn] at hrun
            cases hrun
            have hfail' : ¬ s.Clean ((b :: l).length * M.freeing) := by
              intro h
              rw [hcount] at h
              exact hfail (h.mono (by omega))
            by_cases hclear : s.Clean 2 ∧ 0 < s.moves 2 1
            · refine ⟨[b], by simp, ?_, by simp [hclear], by simp, Or.inr ⟨hr', hfail'⟩⟩
              rw [hview, if_pos hclear, ← Volume.clear_cons, Volume.clear_nil]
            · refine ⟨[], by simp, ?_, by simp [hclear], by simp, Or.inr ⟨hr', hfail'⟩⟩
              rw [hview, if_neg hclear, Volume.clear_nil]

/-! ## Walking a directory -/

/-- The commands of a walk that meets no fault: two for each cluster it passes, one for the cluster
with the hit. -/
def Volume.commands {Acc γ : Type} (V : Volume) (scan : List UInt8 → Acc → Acc ⊕ γ) :
    List Nat → Acc → Nat
  | [], _ => 0
  | c :: l, acc => (scan (V.data c) acc).elim (fun acc => 2 + V.commands scan l acc) fun _ => 1

theorem walkDir_faulty {Acc γ β : Type} {readErr nextErr b : β}
    {scan : List UInt8 → Acc → Acc ⊕ γ} {onHit : Nat → List UInt8 → γ → Prog FsState β}
    {onEnd : Nat → List UInt8 → Acc → Prog FsState β} {fuel d : Nat} {l : List Nat} {acc : Acc}
    (hl : (M.view s).ChainOf d l) (hin : ∀ x ∈ l, M.InRange x)
    (hrun : walkDir M readErr nextErr scan onHit onEnd fuel d acc s = some (b, s')) :
    (∃ s1, s.Passes ((M.view s).commands scan l acc) s1 ∧
      (M.view s).finish onHit onEnd (l.getLastD 0) ((M.view s).walk scan l acc) s1 =
        some (b, s')) ∨
    (¬ s.Clean ((M.view s).commands scan l acc) ∧ (b = readErr ∨ b = nextErr) ∧
      s'.drive = s.drive) := by
  -- on the chain: one read and one look at the table a cluster, either of which may fail
  induction l generalizing fuel d s acc with
  | nil =>
      obtain ⟨t, ht⟩ := hl.eq_cons
      cases ht
  | cons c l ih =>
      obtain rfl : c = d := hl.head
      have hc := hin c List.mem_cons_self
      cases fuel with
      | zero => cases hrun
      | succ fuel =>
          rw [walkDir] at hrun
          rcases readCluster_faulty hM (s := s) hc with
            ⟨hclean, s1, hread, hpass⟩ | ⟨hclean, buf, s1, hread, hdrive⟩
          · rw [Prog.bind_run hread] at hrun
            simp only [] at hrun
            rw [if_neg (by simp)] at hrun
            cases hs : scan ((M.view s).data c) acc with
            | inr hit =>
                left
                refine ⟨s1, ?_, ?_⟩
                · rw [Volume.commands, hs, Sum.elim_inr]
                  exact hpass
                · rw [Volume.walk, hs]
                  rw [hs] at hrun
                  exact hrun
            -- nothing found in this cluster: the table says where the next one is
            | inl acc' =>
                have hcount : (M.view s).commands scan (c :: l) acc =
                    1 + 1 + (M.view s).commands scan l acc' := by
                  rw [Volume.commands, hs, Sum.elim_inl]
                have hwalk : (M.view s).walk scan (c :: l) acc = (M.view s).walk scan l acc' := by
                  rw [Volume.walk, hs]
                simp only [hs] at hrun
                rw [hcount, hwalk]
                rcases nextCluster_faulty hM (s := s1) hc.hasEntry with
                  ⟨hclean', s2, hnext, hpass'⟩ | ⟨hclean', s2, hnext, hdrive⟩
                · have hpass2 := hpass.trans hpass'
                  have hview2 := hpass2.view M
                  rw [Prog.bind_run hnext, hpass.view M] at hrun
                  simp only [] at hrun
                  -- the end mark stands behind the last cluster of the chain and nowhere else
                  by_cases hlast : l = []
                  · subst hlast
                    have hend : (M.view s).fat c ≥ fat32EntryEof := Chain.stop_last (p := []) hl
                    rw [if_pos hend] at hrun
                    exact Or.inl ⟨s2, hpass2, hrun⟩
                  · obtain ⟨-, hstop, htail⟩ := hl.of_cons hlast
                    have hgo : ¬ (M.view s).fat c ≥ fat32EntryEof := hstop
                    have hlastD : (c :: l).getLastD 0 = l.getLastD 0 := by
                      obtain ⟨e, t, rfl⟩ := List.exists_cons_of_ne_nil hlast
                      rfl
                    rw [if_neg hgo] at hrun
                    rw [hlastD]
                    rw [← hview2] at htail hrun
                    have hrest := ih htail (fun x hx => hin x (List.mem_cons_of_mem _ hx)) hrun
                    rw [hview2] at hrest
                    rcases hrest with ⟨s3, hpass3, hfin⟩ | ⟨hfail, herr, hdrive⟩
                    · exact Or.inl ⟨s3, hpass2.trans hpass3, hfin⟩
                    · exact Or.inr ⟨fun h => hfail (hpass2.1.clean_iff.mpr h), herr,
                        hdrive.trans hpass2.2⟩
                · -- the look at the table has failed, behind a read that went well
                  rw [Prog.bind_run hnext] at hrun
                  simp only [Prog.pure_run] at hrun
                  cases hrun
                  refine Or.inr ⟨?_, Or.inr rfl, hdrive.trans hpass.2⟩
                  intro h
                  exact hclean' (hpass.1.clean_iff.mpr (h.mono (by omega)))
          · -- the read has failed, so nothing of this cluster is scanned
            rw [Prog.bind_run hread] at hrun
            simp only [] at hrun
            rw [if_pos (by simp), Prog.pure_run] at hrun
            cases hrun
            refine Or.inr ⟨?_, Or.inl rfl, hdrive⟩
            intro h
            refine hclean (h.mono ?_)
            rw [Volume.commands]
            cases scan ((M.view s).data c) acc with
            | inl acc' =>
                rw [Sum.elim_inl]
                omega
            | inr hit => rw [Sum.elim_inr]

end Sound

end Os003
