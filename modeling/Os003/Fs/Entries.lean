import Os003.Fs.Geometry
import Os003.Fs.View

set_option autoImplicit false

/-! # The entries of the table, copy by copy

The abstract volume knows one table, and it needs the geometry `Mount.Sound`. This file stays
with the words on the drive: the entry of a number in each copy of the table, whatever the rest
of the geometry is. The sector arithmetic is the one of the source, reduced to 64 bits, so the
partition may start anywhere; what a command does with an address out of range, or with a fault
to come, is part of the statements.

The result is that `FAT32_WriteFATEntry` stores one word in each copy, and that no two of these
words overlap.
-/

namespace Os003

open Bytes

namespace Mount

variable (M : Mount)

/-- What the table arithmetic relies on: the sector size, and that the copies together do not go
round the 64 bits of a sector number. -/
structure Tabled : Prop where
  bytes : M.info.bytesPerSector = 512
  size : M.info.numFats * M.info.sectorsPerFat < 2 ^ 64

/-- The number of entries in a copy of the table. -/
def tableEntries : Nat := 128 * M.info.sectorsPerFat

/-- The address of the entry of `c` in copy `i`. -/
def wordAddr (i c : Nat) : Nat := 512 * M.fatCopyLba i c + c * 4 % 512

/-- The entry of `c` in copy `i`, on a drive with the bytes `d`. -/
def copyEntry (d : Nat → UInt8) (i c : Nat) : Nat :=
  readLe32 (readBytes d (M.wordAddr i c) 4) 0

/-- The successor that the first copy gives to `c`. -/
def successor (d : Nat → UInt8) (c : Nat) : Nat := M.copyEntry d 0 c % 2 ^ 28

/-- The sector with the number `k`, counted through all copies of the table. -/
def tableLba (k : Nat) : Nat := u64 (M.part.startingLba + M.info.fatRegionLba + k)

/-- The byte `k` of copy `i`. -/
def copyByte (d : Nat → UInt8) (i k : Nat) : UInt8 :=
  d (512 * M.tableLba (i * M.info.sectorsPerFat + k / 512) + k % 512)

end Mount

/-- The drive after `v` has been stored as the entry of `c` in the copies `i`, `i + 1`, ..., `n`
of them. -/
def Mount.writeWords (M : Mount) (c v : Nat) : Nat → Nat → (Nat → UInt8) → Nat → UInt8
  | 0, _, d => d
  | n + 1, i, d => M.writeWords c v n (i + 1) (writeBytes d (M.wordAddr i c) (le32 v))

/-- A boot sector that `check_DBR` accepts has small enough fields. -/
theorem checkDbr_tabled {M : Mount} {buffer : List UInt8} (h : checkDbr buffer = true)
    (hinfo : M.info = parseDbr buffer) : M.Tabled := by
  have hcopies : (parseDbr buffer).numFats < 2 ^ 8 := (buffer.getD 16 0).toNat_lt
  have hper : (parseDbr buffer).sectorsPerFat < 2 ^ 32 := readLe32_lt buffer 36
  constructor
  · rw [hinfo]
    exact (checkDbr_checked h).bytes
  · rw [hinfo]
    calc (parseDbr buffer).numFats * (parseDbr buffer).sectorsPerFat
        ≤ 2 ^ 8 * 2 ^ 32 := Nat.mul_le_mul (by omega) (by omega)
      _ < 2 ^ 64 := by norm_num

theorem Mount.Sound.tabled {M : Mount} (hM : M.Sound) : M.Tabled := by
  have hlayout := hM.layout
  have hregion := hM.region
  exact ⟨hM.bytes, by omega⟩

/-! ## Addresses -/

section Tabled

variable {M : Mount}

theorem Mount.fatLba_eq_copy (M : Mount) (c : Nat) : M.fatLba c = M.fatCopyLba 0 c := by
  rw [Mount.fatLba, Mount.fatCopyLba, Nat.zero_mul, Nat.add_zero]

variable (hM : M.Tabled)
include hM

theorem Mount.Tabled.fatCopyLba_eq (i c : Nat) :
    M.fatCopyLba i c = M.tableLba (i * M.info.sectorsPerFat + c * 4 / 512) := by
  rw [Mount.fatCopyLba, Mount.tableLba, hM.bytes]
  congr 1
  ring

theorem Mount.Tabled.table_lt {i a : Nat} (hi : i < M.info.numFats)
    (ha : a < M.info.sectorsPerFat) : i * M.info.sectorsPerFat + a < 2 ^ 64 := by
  have hsize := hM.size
  calc i * M.info.sectorsPerFat + a
      < i * M.info.sectorsPerFat + M.info.sectorsPerFat := by omega
    _ = (i + 1) * M.info.sectorsPerFat := by ring
    _ ≤ M.info.numFats * M.info.sectorsPerFat := Nat.mul_le_mul_right _ hi
    _ < 2 ^ 64 := hsize

omit hM in
theorem Mount.tableLba_inj {k l : Nat} (hk : k < 2 ^ 64) (hl : l < 2 ^ 64)
    (h : M.tableLba k = M.tableLba l) : k = l := by
  unfold Mount.tableLba u64 at h
  omega

/-- Sectors of two copies, or two sectors of one copy, are different sectors of the drive. -/
theorem Mount.Tabled.sector_inj {i j a b : Nat} (hi : i < M.info.numFats)
    (hj : j < M.info.numFats) (ha : a < M.info.sectorsPerFat) (hb : b < M.info.sectorsPerFat)
    (h : M.tableLba (i * M.info.sectorsPerFat + a) = M.tableLba (j * M.info.sectorsPerFat + b)) :
    i = j ∧ a = b := by
  have h1 := hM.table_lt hi ha
  have h2 := hM.table_lt hj hb
  have heq := Mount.tableLba_inj (by omega) (by omega) h
  have hpos : 0 < M.info.sectorsPerFat := by omega
  have hij : i = j := by
    calc i = (a + i * M.info.sectorsPerFat) / M.info.sectorsPerFat := by
          rw [Nat.add_mul_div_right _ _ hpos, Nat.div_eq_of_lt ha, Nat.zero_add]
      _ = (b + j * M.info.sectorsPerFat) / M.info.sectorsPerFat := by
          rw [Nat.add_comm a, heq, Nat.add_comm b]
      _ = j := by rw [Nat.add_mul_div_right _ _ hpos, Nat.div_eq_of_lt hb, Nat.zero_add]
  subst hij
  exact ⟨rfl, by omega⟩

omit hM in
theorem Mount.entry_sector {c : Nat} (hc : c < M.tableEntries) :
    c * 4 / 512 < M.info.sectorsPerFat := by
  unfold Mount.tableEntries at hc
  omega

/-- The entries of two numbers, and the entries of one number in two copies, do not overlap. -/
theorem Mount.Tabled.words_apart {i j c e : Nat} (hi : i < M.info.numFats)
    (hj : j < M.info.numFats) (hc : c < M.tableEntries) (he : e < M.tableEntries)
    (hne : i ≠ j ∨ c ≠ e) :
    M.wordAddr i c + 4 ≤ M.wordAddr j e ∨ M.wordAddr j e + 4 ≤ M.wordAddr i c := by
  -- both are words of four bytes at a multiple of four
  have hdiff : M.wordAddr i c ≠ M.wordAddr j e := by
    intro h
    have hsector : M.fatCopyLba i c = M.fatCopyLba j e := by
      rw [Mount.wordAddr, Mount.wordAddr] at h
      omega
    rw [hM.fatCopyLba_eq, hM.fatCopyLba_eq] at hsector
    obtain ⟨h1, h2⟩ := hM.sector_inj hi hj (Mount.entry_sector hc) (Mount.entry_sector he) hsector
    have hoff : c * 4 % 512 = e * 4 % 512 := by
      rw [Mount.wordAddr, Mount.wordAddr, hM.fatCopyLba_eq, hM.fatCopyLba_eq, hsector] at h
      omega
    rcases hne with h' | h'
    · exact h' h1
    · exact h' (by omega)
  unfold Mount.wordAddr at hdiff ⊢
  omega

/-! ## Stored words -/

omit hM in
/-- Bytes outside the words keep their value. -/
theorem Mount.writeWords_apart (M : Mount) (c v n i : Nat) (d : Nat → UInt8) {x : Nat}
    (h : ∀ k, i ≤ k → k < i + n → x < M.wordAddr k c ∨ M.wordAddr k c + 4 ≤ x) :
    M.writeWords c v n i d x = d x := by
  induction n generalizing i d with
  | zero => rfl
  | succ n ih =>
      have hi := h i (Nat.le_refl i) (by omega)
      rw [Mount.writeWords, ih (i + 1) _ (fun k h1 h2 => h k (by omega) (by omega)), writeBytes,
        le32_length, if_neg (by omega)]

/-- The other entries keep their value in every copy. -/
theorem Mount.Tabled.copyEntry_writeWords_ne {c e j : Nat} (v : Nat) (d : Nat → UInt8)
    (hc : c < M.tableEntries) (he : e < M.tableEntries) (hj : j < M.info.numFats) (hne : e ≠ c) :
    M.copyEntry (M.writeWords c v M.info.numFats 0 d) j e = M.copyEntry d j e := by
  unfold Mount.copyEntry
  congr 1
  apply readBytes_congr
  intro x hx
  apply M.writeWords_apart
  intro k _ hk
  have := hM.words_apart (i := k) (j := j) (by omega) hj hc he (Or.inr (Ne.symm hne))
  omega

/-- The bytes of the entry are stored in every copy. -/
theorem Mount.Tabled.writeWords_byte {c v n i j x : Nat} (d : Nat → UInt8)
    (hc : c < M.tableEntries) (hin : i + n ≤ M.info.numFats) (hij : i ≤ j) (hj : j < i + n)
    (hx : x < 4) :
    M.writeWords c v n i d (M.wordAddr j c + x) = (le32 v).getD x 0 := by
  induction n generalizing i d with
  | zero => omega
  | succ n ih =>
      rw [Mount.writeWords]
      by_cases hji : j = i
      · subst hji
        -- the copies behind it do not touch the word
        rw [M.writeWords_apart, writeBytes, le32_length, if_pos (by omega), Nat.add_sub_cancel_left]
        intro k h1 h2
        have := hM.words_apart (i := k) (j := j) (c := c) (e := c) (by omega) (by omega) hc hc
          (Or.inl (by omega))
        omega
      · exact ih _ (by omega) (by omega) (by omega)

theorem Mount.Tabled.copyEntry_writeWords {c v j : Nat} (d : Nat → UInt8)
    (hc : c < M.tableEntries) (hj : j < M.info.numFats) :
    M.copyEntry (M.writeWords c v M.info.numFats 0 d) j c = v % 2 ^ 32 := by
  rw [Mount.copyEntry, ← readLe32_le32 v]
  apply readLe32_congr
  intro x hx
  rw [getD_readBytes _ _ _ _ (by omega), Nat.zero_add,
    hM.writeWords_byte d hc (by omega) (Nat.zero_le j) (by omega) hx]

omit hM in
theorem Mount.wordAddr_byte (M : Mount) (hM : M.Tabled) (i k : Nat) :
    512 * M.tableLba (i * M.info.sectorsPerFat + k / 512) + k % 512 =
      M.wordAddr i (k / 4) + k % 4 := by
  have hsector : k / 4 * 4 / 512 = k / 512 := by omega
  rw [Mount.wordAddr, hM.fatCopyLba_eq, hsector]
  omega

/-- Each copy of the table takes over the four bytes of the entry. -/
theorem Mount.Tabled.copyByte_writeWords {c v i k : Nat} (d : Nat → UInt8)
    (hc : c < M.tableEntries) (hi : i < M.info.numFats) (hk : k < 512 * M.info.sectorsPerFat) :
    M.copyByte (M.writeWords c v M.info.numFats 0 d) i k =
      if k / 4 = c then (le32 v).getD (k % 4) 0 else M.copyByte d i k := by
  rw [Mount.copyByte, Mount.copyByte, M.wordAddr_byte hM]
  by_cases hkc : k / 4 = c
  · rw [if_pos hkc, hkc]
    exact hM.writeWords_byte d hc (by omega) (Nat.zero_le i) (by omega) (by omega)
  · rw [if_neg hkc]
    apply M.writeWords_apart
    intro j _ hj
    have := hM.words_apart (i := j) (j := i) (c := c) (e := k / 4) (by omega) hi hc
      (by unfold Mount.tableEntries; omega) (Or.inr (Ne.symm hkc))
    omega

/-- No sector outside the copies of the table is changed. -/
theorem Mount.Tabled.writeWords_outside {c v x : Nat} (d : Nat → UInt8) (hc : c < M.tableEntries)
    (hx : ∀ k, k < M.info.numFats * M.info.sectorsPerFat → x / 512 ≠ M.tableLba k) :
    M.writeWords c v M.info.numFats 0 d x = d x := by
  apply M.writeWords_apart
  intro j _ hj
  have hsector := Mount.entry_sector hc
  have hk : j * M.info.sectorsPerFat + c * 4 / 512 < M.info.numFats * M.info.sectorsPerFat := by
    calc j * M.info.sectorsPerFat + c * 4 / 512
        < j * M.info.sectorsPerFat + M.info.sectorsPerFat := by omega
      _ = (j + 1) * M.info.sectorsPerFat := by ring
      _ ≤ M.info.numFats * M.info.sectorsPerFat := Nat.mul_le_mul_right _ (by omega)
  have hne := hx _ hk
  rw [Mount.wordAddr, hM.fatCopyLba_eq]
  omega

omit hM in
/-- A zero entry leaves every byte alone or clears it. -/
theorem Mount.writeWords_zero (M : Mount) (c n i : Nat) (d : Nat → UInt8) (x : Nat) :
    M.writeWords c 0 n i d x = d x ∨ M.writeWords c 0 n i d x = 0 := by
  induction n generalizing i d with
  | zero => exact Or.inl rfl
  | succ n ih =>
      rw [Mount.writeWords]
      rcases ih (i + 1) (writeBytes d (M.wordAddr i c) (le32 0)) with h | h
      · rw [h, writeBytes]
        by_cases hx : M.wordAddr i c ≤ x ∧ x < M.wordAddr i c + (le32 0).length
        · right
          rw [if_pos hx]
          rw [le32_length] at hx
          obtain h0 | h1 | h2 | h3 : x - M.wordAddr i c = 0 ∨ x - M.wordAddr i c = 1 ∨
              x - M.wordAddr i c = 2 ∨ x - M.wordAddr i c = 3 := by omega
          · rw [h0]; rfl
          · rw [h1]; rfl
          · rw [h2]; rfl
          · rw [h3]; rfl
        · left
          rw [if_neg hx]
      · exact Or.inr h

end Tabled

/-! ## Commands that may fail -/

/-- The next command fails at this sector: the sector is out of range, or a fault is due. -/
def FsState.Refuses (s : FsState) (lba : Nat) : Prop :=
  2 ^ 48 ≤ lba ∨ (s.faults.getD 0 none).isSome

/-- A command has come and gone without a fault and without a change of a drive. -/
structure FsState.Looks (s s' : FsState) : Prop where
  drive : s'.drive = s.drive
  faults : s'.faults = s.faults.tail
  free : s'.free = s.free
  allocs : s'.allocs = s.allocs

/-- The free count, the hint and the record of the allocations are as before. -/
def FsState.SameFree (s s' : FsState) : Prop := s'.free = s.free ∧ s'.allocs = s.allocs

theorem FsState.SameFree.trans {s s' s'' : FsState} (h : s.SameFree s') (h' : s'.SameFree s'') :
    s.SameFree s'' := ⟨h'.1.trans h.1, h'.2.trans h.2⟩

/-- An address beyond 48 bits is refused. -/
theorem ataCommand_refuses (m : Bool) {lba n : Nat} (h : 2 ^ 48 ≤ lba) :
    ataCommand m lba n = .error (-4) := by
  rw [ataCommand, if_neg (by omega), if_pos (by omega)]

theorem takeFault_none {ch : Channel} (h : ch.faults.getD 0 none = none) :
    takeFault ch = (none, { ch with faults := ch.faults.tail }) := by
  unfold takeFault
  cases hf : ch.faults with
  | nil =>
      simp only [List.tail_nil]
      rw [← hf]
  | cons f rest =>
      rw [hf] at h
      obtain rfl : f = none := h
      rfl

theorem takeFault_some {ch : Channel} {f : Fault} (h : ch.faults.getD 0 none = some f) :
    takeFault ch = (some f, { ch with faults := ch.faults.tail }) := by
  unfold takeFault
  cases hf : ch.faults with
  | nil =>
      rw [hf] at h
      cases h
  | cons g rest =>
      rw [hf] at h
      obtain rfl : g = some f := h
      rfl

section Commands

variable {s : FsState} {m : Bool} {lba n : Nat}

theorem ata_read_ok (h : ¬ s.Refuses lba) : ∃ s',
    ata (ataRead m lba n) s =
      some (((n : Int), readBytes (s.drive m) (512 * lba) (512 * n)), s') ∧ s.Looks s' := by
  unfold FsState.Refuses at h
  push Not at h
  obtain ⟨hlba, hfault⟩ := h
  obtain ⟨b, hb⟩ := ataCommand_ok m n hlba
  have hnone : s.faults.getD 0 none = none := by simpa using hfault
  have hrun : ataRead m lba n s.toChannel =
      some (((n : Int), readBytes (s.drive m) (512 * lba) (512 * n)),
        { s.toChannel with faults := s.faults.tail, log := .read m lba n :: s.log }) := by
    simp only [ataRead, hb, ataCommand_selects hb, takeFault_none hnone]
  exact ⟨_, Prog.zoom_run hrun, rfl, rfl, rfl, rfl⟩

theorem ata_read_refused (h : s.Refuses lba) : ∃ r buf s',
    ata (ataRead m lba n) s = some ((r, buf), s') ∧ r < 0 ∧ s.SameFree s' := by
  by_cases hlba : 2 ^ 48 ≤ lba
  · have hrun : ataRead m lba n s.toChannel =
        some (((-4 : Int), List.replicate (512 * n) 0), s.toChannel) := by
      simp only [ataRead, ataCommand_refuses m hlba]
    exact ⟨_, _, _, Prog.zoom_run hrun, by decide, rfl, rfl⟩
  · obtain ⟨b, hb⟩ := ataCommand_ok m n (Nat.lt_of_not_le hlba)
    obtain ⟨f, hf⟩ := Option.isSome_iff_exists.mp (h.resolve_left hlba)
    have hrun : ∃ buf ch, ataRead m lba n s.toChannel = some ((Int.negSucc f.code, buf), ch) := by
      simp only [ataRead, hb, takeFault_some hf]
      exact ⟨_, _, rfl⟩
    obtain ⟨buf, ch, hrun⟩ := hrun
    exact ⟨_, _, _, Prog.zoom_run hrun, Int.negSucc_lt_zero _, rfl, rfl⟩

/-- A write that reports success has stored the buffer. -/
theorem ata_write_total (s : FsState) (m : Bool) (lba n : Nat) (buf : List UInt8) : ∃ r s',
    ata (ataWrite m lba n buf) s = some (r, s') ∧ s.SameFree s' ∧
      (0 ≤ r → s'.drive = Function.update s.drive m
        (writeBytes (s.drive m) (512 * lba) (buf.take (512 * n)))) ∧
      (¬ s.Refuses lba → r = n ∧ s'.faults = s.faults.tail) := by
  by_cases hlba : 2 ^ 48 ≤ lba
  · have hrun : ataWrite m lba n buf s.toChannel = some ((-4 : Int), s.toChannel) := by
      simp only [ataWrite, ataCommand_refuses m hlba]
    refine ⟨_, _, Prog.zoom_run hrun, ⟨rfl, rfl⟩, ?_, ?_⟩
    · intro h
      exact absurd h (by decide)
    · intro h
      exact absurd (Or.inl hlba) h
  · obtain ⟨b, hb⟩ := ataCommand_ok m n (Nat.lt_of_not_le hlba)
    cases hf : s.faults.getD 0 none with
    | none =>
        have hrun : ataWrite m lba n buf s.toChannel = some ((n : Int),
            { s.toChannel with
              drive := Function.update s.drive m
                (writeBytes (s.drive m) (512 * lba) (buf.take (512 * n)))
              faults := s.faults.tail
              log := .write m lba n :: s.log }) := by
          simp only [ataWrite, hb, ataCommand_selects hb, takeFault_none hf]
        exact ⟨_, _, Prog.zoom_run hrun, ⟨rfl, rfl⟩, fun _ => rfl, fun _ => ⟨rfl, rfl⟩⟩
    | some f =>
        have hrun : ∃ ch, ataWrite m lba n buf s.toChannel = some (Int.negSucc f.code, ch) := by
          simp only [ataWrite, hb, takeFault_some hf]
          exact ⟨_, rfl⟩
        obtain ⟨ch, hrun⟩ := hrun
        refine ⟨_, _, Prog.zoom_run hrun, ⟨rfl, rfl⟩, ?_, ?_⟩
        · intro h
          exact absurd h (not_le.mpr (Int.negSucc_lt_zero _))
        · intro h
          exact absurd (Or.inr (by rw [hf]; rfl)) h

end Commands

/-! ## The functions on entries -/

/-- A volume with two tables of one sector. -/
def twinMount : Mount where
  disk := { isPrimary := true, isMaster := true }
  part := { startingLba := 2 }
  info := parseDbr (bootSector 1 2 2 64 1 2 1)

/-- No command for the entry of `c` fails, in no copy of the table. -/
def Mount.Serves (M : Mount) (s : FsState) (c : Nat) : Prop :=
  s.faults = [] ∧ ∀ i, i < M.info.numFats → M.fatCopyLba i c < 2 ^ 48

theorem Mount.Sound.serves {M : Mount} (hM : M.Sound) {s : FsState} (hq : s.faults = []) {b : Nat}
    (hb : b < 2 ^ 32) : M.Serves s b :=
  ⟨hq, fun _ hi => hM.fatCopyLba_lt hi hb⟩

section Tabled

variable {M : Mount} (hM : M.Tabled)
include hM

theorem Mount.Tabled.wordAddr_eq (i c : Nat) :
    512 * M.fatCopyLba i c + c * 4 % M.info.bytesPerSector = M.wordAddr i c := by
  rw [hM.bytes, Mount.wordAddr]

/-- The word a reader takes from the sector of `c` is the successor of `c`. -/
theorem Mount.Tabled.readLe32_sector (d : Nat → UInt8) (c : Nat) :
    readLe32 (readBytes d (512 * M.fatLba c) (512 * 1)) (c * 4 % M.info.bytesPerSector) &&&
      0x0FFFFFFF = M.successor d c := by
  have hoff : c * 4 % M.info.bytesPerSector + 4 ≤ 512 * 1 := by
    rw [hM.bytes]
    omega
  rw [readLe32_readBytes _ _ _ _ hoff, M.fatLba_eq_copy, hM.wordAddr_eq, Mount.successor,
    Mount.copyEntry, show 0x0FFFFFFF = 2 ^ 28 - 1 from rfl, Nat.and_two_pow_sub_one_eq_mod]

theorem fat32NextCluster_ok {s : FsState} {c : Nat} (h : ¬ s.Refuses (M.fatLba c)) :
    ∃ s', fat32NextCluster M c s = some (some (M.successor (s.drive true) c), s') ∧
      s.Looks s' := by
  obtain ⟨s', hrun, hlooks⟩ := ata_read_ok (m := true) (n := 1) h
  refine ⟨s', ?_, hlooks⟩
  rw [fat32NextCluster, refAsBool, Prog.bind_run hrun]
  simp only [hM.readLe32_sector]
  rw [if_neg (by omega), Prog.pure_run]

omit hM in
theorem fat32NextCluster_refused {s : FsState} {c : Nat} (h : s.Refuses (M.fatLba c)) :
    ∃ s', fat32NextCluster M c s = some (none, s') ∧ s.SameFree s' := by
  obtain ⟨r, buf, s', hrun, hneg, hsame⟩ := ata_read_refused (m := true) (n := 1) h
  refine ⟨s', ?_, hsame⟩
  rw [fat32NextCluster, refAsBool, Prog.bind_run hrun]
  simp only []
  rw [if_pos hneg, Prog.pure_run]

/-- The loop over the copies: status 0 says that the word has been stored in each of them. -/
theorem writeFatCopies_total (c v n i : Nat) (s : FsState) : ∃ st s',
    writeFatCopies M c v n i s = some (st, s') ∧ s.SameFree s' ∧
      (st = 0 → s'.drive = Function.update s.drive true (M.writeWords c v n i (s.drive true))) ∧
      (s.faults = [] → (∀ k, i ≤ k → k < i + n → M.fatCopyLba k c < 2 ^ 48) →
        st = 0 ∧ s'.faults = []) := by
  induction n generalizing i s with
  | zero =>
      refine ⟨0, s, rfl, ⟨rfl, rfl⟩, ?_, fun hq _ => ⟨rfl, hq⟩⟩
      intro _
      rw [Mount.writeWords, Function.update_eq_self]
  | succ n ih =>
      rw [writeFatCopies, refAsBool]
      by_cases href : s.Refuses (M.fatCopyLba i c)
      · obtain ⟨r, buf, s1, hread, hneg, hsame⟩ := ata_read_refused (m := true) (n := 1) href
        refine ⟨1, s1, ?_, hsame, fun h => absurd h (by decide), ?_⟩
        · rw [Prog.bind_run hread]
          simp only []
          rw [if_pos hneg, Prog.pure_run]
        · intro hq hlba
          have := hlba i (Nat.le_refl i) (by omega)
          rcases href with h | h
          · omega
          · rw [hq] at h
            cases h
      · obtain ⟨s1, hread, hlooks⟩ := ata_read_ok (m := true) (n := 1) href
        have hsame1 : s.SameFree s1 := ⟨hlooks.free, hlooks.allocs⟩
        obtain ⟨r, s2, hwrite, hsame2, hstored, hquiet⟩ := ata_write_total s1 true
          (M.fatCopyLba i c) 1 (writeLe32 (readBytes (s.drive true) (512 * M.fatCopyLba i c)
            (512 * 1)) (c * 4 % M.info.bytesPerSector) v)
        rw [Prog.bind_run hread]
        simp only []
        rw [if_neg (by omega), Prog.bind_run hwrite]
        by_cases hr : r < 0
        · refine ⟨1, s2, ?_, hsame1.trans hsame2, fun h => absurd h (by decide), ?_⟩
          · rw [if_pos hr, Prog.pure_run]
          · intro hq hlba
            have hlba1 := hlba i (Nat.le_refl i) (by omega)
            have hgo : ¬ s1.Refuses (M.fatCopyLba i c) := by
              rintro (h | h)
              · omega
              · rw [hlooks.faults, hq] at h
                cases h
            have := (hquiet hgo).1
            omega
        · obtain ⟨st, s3, hrest, hsame3, hdone, hfine⟩ := ih (i + 1) s2
          rw [if_neg hr]
          refine ⟨st, s3, hrest, (hsame1.trans hsame2).trans hsame3, ?_, ?_⟩
          · intro hst
            -- the sector goes back with four bytes changed
            have hword : s2.drive = Function.update s.drive true
                (writeBytes (s.drive true) (M.wordAddr i c) (le32 v)) := by
              rw [hstored (by omega), hlooks.drive, List.take_of_length_le, writeLe32,
                writeBytes_splice, hM.wordAddr_eq]
              · rw [le32_length, hM.bytes]
                omega
              · rw [writeLe32, splice_length, readBytes_length]
                rw [le32_length, readBytes_length, hM.bytes]
                omega
            rw [hdone hst, hword, Function.update_idem, Function.update_self, Mount.writeWords]
          · intro hq hlba
            have hlba1 := hlba i (Nat.le_refl i) (by omega)
            have hgo : ¬ s1.Refuses (M.fatCopyLba i c) := by
              rintro (h | h)
              · omega
              · rw [hlooks.faults, hq] at h
                cases h
            apply hfine
            · rw [(hquiet hgo).2, hlooks.faults, hq]
              rfl
            · intro k h1 h2
              exact hlba k (by omega) (by omega)

/-- `FAT32_WriteFATEntry`: status 0 says that the word has been stored in every copy. -/
theorem fat32WriteFatEntry_total (c v : Nat) (s : FsState) : ∃ st s',
    fat32WriteFatEntry M c v s = some (st, s') ∧ s.SameFree s' ∧
      (st = 0 → s'.drive =
        Function.update s.drive true (M.writeWords c v M.info.numFats 0 (s.drive true))) ∧
      (M.Serves s c → st = 0 ∧ s'.faults = []) := by
  obtain ⟨st, s1, hrun, hsame, hdone, hquiet⟩ :=
    writeFatCopies_total hM c v M.info.numFats 0 s
  rw [fat32WriteFatEntry, Prog.bind_run hrun]
  by_cases hst : st = 0
  · refine ⟨0, s1.note (.flush true), ?_, hsame.trans ⟨rfl, rfl⟩, ?_, ?_⟩
    · rw [if_neg (by omega), refAsBool, Prog.bind_run (ata_flush_run _ _), Prog.pure_run]
    · intro _
      exact hdone hst
    · intro hserves
      exact ⟨rfl, (hquiet hserves.1 (fun k _ hk => hserves.2 k (by omega))).2⟩
  · refine ⟨st, s1, ?_, hsame, fun h => absurd h hst, ?_⟩
    · rw [if_pos hst, Prog.pure_run]
    · intro hserves
      exact hquiet hserves.1 (fun k _ hk => hserves.2 k (by omega))

/-! ## Writing an entry and reading it back -/

/-- What `FAT32_NextCluster` returns when no fault is due. -/
theorem nextCluster_value {s : FsState} (hq : s.faults = []) (c : Nat) :
    (fat32NextCluster M c s).map Prod.fst =
      some (if M.fatLba c < 2 ^ 48 then some (M.successor (s.drive true) c) else none) := by
  by_cases hlba : M.fatLba c < 2 ^ 48
  · have hgo : ¬ s.Refuses (M.fatLba c) := by
      rintro (h | h)
      · omega
      · rw [hq] at h
        cases h
    obtain ⟨s', hrun, -⟩ := fat32NextCluster_ok hM hgo
    rw [hrun, if_pos hlba]
    rfl
  · obtain ⟨s', hrun, -⟩ := fat32NextCluster_refused (M := M) (s := s) (Or.inl (not_lt.mp hlba))
    rw [hrun, if_neg hlba]
    rfl

end Tabled

/-- An entry that has been written is read back, and nothing else changes: the other entries, the
agreement of the copies and all sectors outside them. -/
theorem writeFatEntry_readBack {M : Mount} {buffer : List UInt8} (hdbr : checkDbr buffer = true)
    (hinfo : M.info = parseDbr buffer) (hfats : 1 ≤ M.info.numFats) {s : FsState} {c v : Nat}
    (hc : c < M.tableEntries) (hserves : M.Serves s c) : ∃ s',
      fat32WriteFatEntry M c v s = some (0, s') ∧
      (fat32NextCluster M c s').map Prod.fst = some (some (v &&& 0x0FFFFFFF)) ∧
      (∀ e, e < M.tableEntries → e ≠ c →
        (fat32NextCluster M e s').map Prod.fst = (fat32NextCluster M e s).map Prod.fst) ∧
      (∀ i j, i < M.info.numFats → j < M.info.numFats →
        (∀ k, k < 512 * M.info.sectorsPerFat →
          M.copyByte (s.drive true) i k = M.copyByte (s.drive true) j k) →
        ∀ k, k < 512 * M.info.sectorsPerFat →
          M.copyByte (s'.drive true) i k = M.copyByte (s'.drive true) j k) ∧
      ∀ m x, (m = true → ∀ k, k < M.info.numFats * M.info.sectorsPerFat →
        x / 512 ≠ M.tableLba k) → s'.drive m x = s.drive m x := by
  have hM := checkDbr_tabled hdbr hinfo
  obtain ⟨st, s', hrun, -, hdone, hquiet⟩ := fat32WriteFatEntry_total hM c v s
  obtain ⟨rfl, hq'⟩ := hquiet hserves
  have hdrive := hdone rfl
  have hmaster : s'.drive true = M.writeWords c v M.info.numFats 0 (s.drive true) := by
    rw [hdrive, Function.update_self]
  refine ⟨s', hrun, ?_, ?_, ?_, ?_⟩
  · have hlba : M.fatLba c < 2 ^ 48 := by
      rw [M.fatLba_eq_copy]
      exact hserves.2 0 (by omega)
    rw [nextCluster_value hM hq', if_pos hlba, hmaster, Mount.successor,
      hM.copyEntry_writeWords _ hc (by omega), show 0x0FFFFFFF = 2 ^ 28 - 1 from rfl,
      Nat.and_two_pow_sub_one_eq_mod]
    congr 2
    omega
  · intro e he hne
    rw [nextCluster_value hM hq', nextCluster_value hM hserves.1, hmaster, Mount.successor,
      hM.copyEntry_writeWords_ne v _ hc he (by omega) hne, Mount.successor]
  · intro i j hi hj hsame k hk
    rw [hmaster, hM.copyByte_writeWords _ hc hi hk, hM.copyByte_writeWords _ hc hj hk, hsame k hk]
  · intro m x hx
    rw [hdrive]
    cases m with
    | false => rw [Function.update_of_ne (by decide)]
    | true => rw [Function.update_self, hM.writeWords_outside _ hc (hx rfl)]

/-- The entries 5 and 6 of a volume with two tables of one sector. -/
theorem writeFatEntry_readBack_two : ∃ s',
    fat32WriteFatEntry twinMount 5 0xABCDEF01 (smallState [] fun _ => []) = some (0, s') ∧
      (fat32NextCluster twinMount 5 s').map Prod.fst = some (some 0x0BCDEF01) ∧
      (fat32NextCluster twinMount 6 s').map Prod.fst =
        (fat32NextCluster twinMount 6 (smallState [] fun _ => [])).map Prod.fst := by
  obtain ⟨s', hrun, hread, hother, -⟩ := writeFatEntry_readBack (M := twinMount)
    (s := smallState [] fun _ => []) (c := 5)
    (v := 0xABCDEF01) (by decide +kernel) rfl (by decide +kernel) (by decide +kernel)
    ⟨rfl, by decide +kernel⟩
  exact ⟨s', hrun, hread, hother 6 (by decide +kernel) (by decide)⟩

end Os003
