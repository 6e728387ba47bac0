import Os003.Drives.Ata

set_option autoImplicit false

/-! # The registers of an ATA command

`ATA_Read` and `ATA_Write` as the drive sees them: the bytes written to the ports of the channel,
and the data words moved behind them. The drive keeps the last two bytes written to each register,
which is how a 48-bit command passes its upper half, and reads the address and the number of sectors
off them, with 0 for 256 or 65536 sectors.

A command announces the sectors it was asked for, but the loop behind it counts up to the parameter,
which is 0 for 65536 sectors, and the choice of the 28-bit form looks at the first sector only
(`matches_iff`).
-/

namespace Os003

namespace Ports

/-- The ports of `ata_channel_t` that a command writes. -/
inductive Port where
  | drive
  | sectorCount
  | lbaLo
  | lbaMid
  | lbaHi
  | command
deriving DecidableEq, Repr

/-- The code a command function returns and the bytes it has written. -/
structure CommandRun where
  code : Int
  writes : List (Port × Nat)
deriving DecidableEq, Repr

/-! ## The command functions

`ready` says whether `ATA_Wait_Busy` sees the drive ready in time. -/

/-- The body of `ATA_Read_LBA28_cmd` and `ATA_Write_LBA28_cmd`. -/
def lba28Cmd (command : Nat) (isMaster : Bool) (lba sectorCount : Nat) (ready : Bool) : CommandRun :=
  let count := if sectorCount = 0 then 256 else sectorCount
  if lba > 0x0FFFFFFF then ⟨-4, []⟩
  else
    let driveByte := driveByteLba28 isMaster lba
    if ¬ ready then ⟨-2, [(.drive, driveByte)]⟩
    else ⟨0, [(.drive, driveByte), (.sectorCount, count % 256), (.lbaLo, lba % 256),
      (.lbaMid, (lba >>> 8) % 256), (.lbaHi, (lba >>> 16) % 256), (.drive, driveByte),
      (.command, command)]⟩

/-- The body of `ATA_Read_LBA48_cmd` and `ATA_Write_LBA48_cmd`: the upper bytes first. -/
def lba48Cmd (command : Nat) (isMaster : Bool) (lba sectorCount : Nat) (ready : Bool) : CommandRun :=
  -- (uint16_t)65536 is 0 again
  let count := if sectorCount = 0 then 65536 % 2 ^ 16 else sectorCount
  if lba > 0x0000FFFFFFFFFFFF then ⟨-4, []⟩
  else
    let driveByte := driveByteLba48 isMaster
    if ¬ ready then ⟨-2, [(.drive, driveByte)]⟩
    else ⟨0, [(.drive, driveByte), (.sectorCount, (count >>> 8) % 256), (.lbaLo, (lba >>> 24) % 256),
      (.lbaMid, (lba >>> 32) % 256), (.lbaHi, (lba >>> 40) % 256), (.sectorCount, count % 256),
      (.lbaLo, lba % 256), (.lbaMid, (lba >>> 8) % 256), (.lbaHi, (lba >>> 16) % 256),
      (.command, command)]⟩

/-- `ATA_Read_LBA28_cmd`, `READ SECTORS`. -/
def ataReadLba28Cmd := lba28Cmd 0x20

/-- `ATA_Read_LBA48_cmd`, `READ SECTORS EXT`. -/
def ataReadLba48Cmd := lba48Cmd 0x24

/-- `ATA_Write_LBA28_cmd`, `WRITE SECTORS`. -/
def ataWriteLba28Cmd := lba28Cmd 0x30

/-- `ATA_Write_LBA48_cmd`, `WRITE SECTORS EXT`. -/
def ataWriteLba48Cmd := lba48Cmd 0x34

/-! ## The data loops -/

/-- What the drive shows for a sector: it gets ready in time, its error bit, it asks for data in time. -/
structure SectorStatus where
  ready : Bool
  error : Bool
  dataRequest : Bool

/-- The code a data loop returns and the words of the buffer that went through the data port. -/
structure TransferRun where
  code : Int
  words : List Nat

/-- The words of a sector of the buffer. -/
def sectorWords (done : Nat) : List Nat := (List.range 256).map fun i => done * 256 + i

/-- The loop of `Read_Sector` with `n` sectors left and `done` behind it. -/
def readSector (status : Nat → SectorStatus) : (n done : Nat) → TransferRun
  | 0, done => ⟨done, []⟩
  | n + 1, done =>
      if ¬ (status done).ready then ⟨-(5 + done), []⟩
      else if (status done).error then ⟨-(10 + done), []⟩
      else if ¬ (status done).dataRequest then ⟨-(20 + done), []⟩
      else
        let rest := readSector status n (done + 1)
        ⟨rest.code, sectorWords done ++ rest.words⟩

/-- The loop of `Write_Sector`: the data go first, the drive is asked for its status behind them. -/
def writeSector (status : Nat → SectorStatus) : (n done : Nat) → TransferRun
  | 0, done => ⟨done, []⟩
  | n + 1, done =>
      if ¬ (status done).dataRequest then ⟨-(20 + done), []⟩
      else if ¬ (status done).ready then ⟨-(5 + done), sectorWords done⟩
      else if (status done).error then ⟨-(10 + done), sectorWords done⟩
      else
        let rest := writeSector status n (done + 1)
        ⟨rest.code, sectorWords done ++ rest.words⟩

/-! ## Reading and writing -/

inductive Direction where
  | read
  | write
deriving DecidableEq, Repr

def Direction.cmd28 : Direction → Bool → Nat → Nat → Bool → CommandRun
  | .read => ataReadLba28Cmd
  | .write => ataWriteLba28Cmd

def Direction.cmd48 : Direction → Bool → Nat → Nat → Bool → CommandRun
  | .read => ataReadLba48Cmd
  | .write => ataWriteLba48Cmd

def Direction.sectors : Direction → (Nat → SectorStatus) → (n done : Nat) → TransferRun
  | .read => readSector
  | .write => writeSector

/-- The test for the 28-bit form. -/
def Fits28 (lba sectorCount : Nat) : Prop := lba < 0x0FFFFFFF ∧ sectorCount ≤ 256 ∧ sectorCount > 0

instance (lba sectorCount : Nat) : Decidable (Fits28 lba sectorCount) := by
  unfold Fits28
  infer_instance

/-- The command phase of `ATA_Read` and `ATA_Write`. -/
def issue (d : Direction) (isMaster : Bool) (lba sectorCount : Nat) (ready : Bool) : CommandRun :=
  if Fits28 lba sectorCount then d.cmd28 isMaster (lba % 2 ^ 32) sectorCount ready
  else d.cmd48 isMaster lba sectorCount ready

/-- The return value, the bytes written to the registers and the words moved. -/
structure AtaRun where
  code : Int
  writes : List (Port × Nat)
  words : List Nat

/-- `ATA_Read` and `ATA_Write`. -/
def transfer (d : Direction) (isMaster : Bool) (lba sectorCount : Nat) (ready : Bool)
    (status : Nat → SectorStatus) : AtaRun :=
  let cmd := issue d isMaster lba sectorCount ready
  if cmd.code ≠ 0 then ⟨cmd.code, cmd.writes, []⟩
  else
    let run := d.sectors status sectorCount 0
    ⟨run.code, cmd.writes, run.words⟩

def ataRead := transfer .read

def ataWrite := transfer .write

/-! ## What the drive reads off its registers -/

/-- The last byte written to each register and the one before. -/
abbrev TaskFile := Port → Nat × Nat

def TaskFile.write (t : TaskFile) (w : Port × Nat) : TaskFile :=
  Function.update t w.1 (w.2, (t w.1).1)

/-- A command as the drive takes it. -/
structure Announced where
  isMaster : Bool
  lba : Nat
  sectors : Nat
deriving DecidableEq, Repr

def decode28 (t : TaskFile) : Announced where
  isMaster := selectsMaster (t .drive).1
  lba := (t .lbaLo).1 + (t .lbaMid).1 * 2 ^ 8 + (t .lbaHi).1 * 2 ^ 16 + (t .drive).1 % 16 * 2 ^ 24
  sectors := if (t .sectorCount).1 = 0 then 256 else (t .sectorCount).1

def decode48 (t : TaskFile) : Announced where
  isMaster := selectsMaster (t .drive).1
  lba := (t .lbaLo).1 + (t .lbaMid).1 * 2 ^ 8 + (t .lbaHi).1 * 2 ^ 16 + (t .lbaLo).2 * 2 ^ 24 +
    (t .lbaMid).2 * 2 ^ 32 + (t .lbaHi).2 * 2 ^ 40
  sectors :=
    if (t .sectorCount).1 + (t .sectorCount).2 * 2 ^ 8 = 0 then 65536
    else (t .sectorCount).1 + (t .sectorCount).2 * 2 ^ 8

/-- The command in the command register: the 28-bit ones, the 48-bit ones, or none of the four. -/
def decode (t : TaskFile) : Option Announced :=
  if (t .command).1 = 0x20 ∨ (t .command).1 = 0x30 then some (decode28 t)
  else if (t .command).1 = 0x24 ∨ (t .command).1 = 0x34 then some (decode48 t)
  else none

/-- The sectors a caller asks for: 0 stands for 65536. -/
def asked (sectorCount : Nat) : Nat := if sectorCount = 0 then 65536 else sectorCount

/-! ## Encoding and decoding -/

section Encoding

variable {isMaster ready : Bool} {lba sectorCount command : Nat} {d : Direction} {t : TaskFile}

theorem driveByteLba28_mod (isMaster : Bool) {lba : Nat} (h : lba < 2 ^ 28) :
    driveByteLba28 isMaster lba % 16 = lba / 2 ^ 24 := by
  have hand : (lba >>> 24) &&& 0x0F = lba / 2 ^ 24 := by
    rw [Nat.shiftRight_eq_div_pow, show 0x0F = 2 ^ 4 - 1 from rfl, Nat.and_two_pow_sub_one_eq_mod]
    apply Nat.mod_eq_of_lt
    omega
  have hlt : lba / 2 ^ 24 < 2 ^ 4 := by omega
  rw [driveByteLba28, hand, show (16 : Nat) = 2 ^ 4 from rfl, Nat.or_mod_two_pow,
    Nat.mod_eq_of_lt hlt]
  cases isMaster <;> simp

theorem lba28Cmd_ready (hl : lba < 2 ^ 28) : lba28Cmd command isMaster lba sectorCount true =
    ⟨0, [(.drive, driveByteLba28 isMaster lba),
      (.sectorCount, (if sectorCount = 0 then 256 else sectorCount) % 256), (.lbaLo, lba % 256),
      (.lbaMid, (lba >>> 8) % 256), (.lbaHi, (lba >>> 16) % 256),
      (.drive, driveByteLba28 isMaster lba), (.command, command)]⟩ := by
  simp only [lba28Cmd]
  rw [if_neg (by omega), if_neg (by simp)]

theorem lba48Cmd_ready (hl : lba < 2 ^ 48) : lba48Cmd command isMaster lba sectorCount true =
    ⟨0, [(.drive, driveByteLba48 isMaster), (.sectorCount, (sectorCount >>> 8) % 256),
      (.lbaLo, (lba >>> 24) % 256), (.lbaMid, (lba >>> 32) % 256), (.lbaHi, (lba >>> 40) % 256),
      (.sectorCount, sectorCount % 256), (.lbaLo, lba % 256), (.lbaMid, (lba >>> 8) % 256),
      (.lbaHi, (lba >>> 16) % 256), (.command, command)]⟩ := by
  have hcount : (if sectorCount = 0 then 65536 % 2 ^ 16 else sectorCount) = sectorCount := by
    split_ifs with h0
    · exact h0.symm
    · rfl
  simp only [lba48Cmd]
  rw [if_neg (by omega), if_neg (by simp), hcount]

/-- The registers of a 28-bit command hold its sectors, up to 256 of them. -/
theorem decode_lba28Cmd (hl : lba < 2 ^ 28) (hc : sectorCount ≤ 256) :
    decode28 ((lba28Cmd command isMaster lba sectorCount true).writes.foldl TaskFile.write t) =
      ⟨isMaster, lba, if sectorCount = 0 then 256 else sectorCount⟩ := by
  rw [lba28Cmd_ready hl]
  simp only [List.foldl_cons, List.foldl_nil, TaskFile.write, decode28, Function.update_self,
    ne_eq, reduceCtorEq, not_false_eq_true, Function.update_of_ne, Nat.shiftRight_eq_div_pow]
  rw [selectsMaster_lba28, driveByteLba28_mod isMaster hl]
  congr 1
  · omega
  · split_ifs <;> omega

/-- The registers of a 48-bit command hold its sectors, 0 for 65536 of them. -/
theorem decode_lba48Cmd (hl : lba < 2 ^ 48) (hc : sectorCount < 2 ^ 16) :
    decode48 ((lba48Cmd command isMaster lba sectorCount true).writes.foldl TaskFile.write t) =
      ⟨isMaster, lba, asked sectorCount⟩ := by
  rw [lba48Cmd_ready hl]
  simp only [List.foldl_cons, List.foldl_nil, TaskFile.write, decode48, Function.update_self,
    ne_eq, reduceCtorEq, not_false_eq_true, Function.update_of_ne, Nat.shiftRight_eq_div_pow]
  rw [selectsMaster_lba48, asked]
  congr 1
  · omega
  · split_ifs <;> omega

/-- The code of the 28-bit command. -/
def Direction.code28 : Direction → Nat
  | .read => 0x20
  | .write => 0x30

/-- The code of the 48-bit command. -/
def Direction.code48 : Direction → Nat
  | .read => 0x24
  | .write => 0x34

theorem issue_28 (d : Direction) (isMaster ready : Bool) (h : Fits28 lba sectorCount) :
    issue d isMaster lba sectorCount ready = lba28Cmd d.code28 isMaster lba sectorCount ready := by
  have hmod : lba % 2 ^ 32 = lba := Nat.mod_eq_of_lt (by have := h.1; omega)
  rw [issue, if_pos h, hmod]
  cases d <;> rfl

theorem issue_48 (d : Direction) (isMaster ready : Bool) (h : ¬ Fits28 lba sectorCount) :
    issue d isMaster lba sectorCount ready = lba48Cmd d.code48 isMaster lba sectorCount ready := by
  rw [issue, if_neg h]
  cases d <;> rfl

theorem Fits28.lba_lt (h : Fits28 lba sectorCount) : lba < 2 ^ 28 := by
  have := h.1
  omega

/-- A command that is issued leaves in the command register its own code. -/
theorem decode_issue (d : Direction) (isMaster : Bool) (t : TaskFile) (hl : lba < 2 ^ 48)
    (hc : sectorCount < 2 ^ 16) :
    decode ((issue d isMaster lba sectorCount true).writes.foldl TaskFile.write t) =
      some ⟨isMaster, lba, asked sectorCount⟩ := by
  by_cases hfit : Fits28 lba sectorCount
  · have hne : sectorCount ≠ 0 := Nat.ne_of_gt hfit.2.2
    have hcmd : (((lba28Cmd d.code28 isMaster lba sectorCount true).writes.foldl
        TaskFile.write t) .command).1 = d.code28 := by
      rw [lba28Cmd_ready hfit.lba_lt]
      simp [TaskFile.write]
    rw [issue_28 d isMaster true hfit, decode, hcmd, if_pos (by cases d <;> decide),
      decode_lba28Cmd hfit.lba_lt hfit.2.1, asked, if_neg hne, if_neg hne]
  · have hcmd : (((lba48Cmd d.code48 isMaster lba sectorCount true).writes.foldl
        TaskFile.write t) .command).1 = d.code48 := by
      rw [lba48Cmd_ready hl]
      simp [TaskFile.write]
    rw [issue_48 d isMaster true hfit, decode, hcmd, if_neg (by cases d <;> decide),
      if_pos (by cases d <;> decide), decode_lba48Cmd hl hc]

end Encoding

/-! ## The loops and the commands -/

section Runs

variable {isMaster ready : Bool} {lba sectorCount : Nat} {d : Direction}
  {status : Nat → SectorStatus} {n done : Nat}

theorem sectorWords_length (done : Nat) : (sectorWords done).length = 256 := by
  simp [sectorWords]

/-- A sector moved in front of the rest of a loop. -/
theorem sectors_cons {run : TransferRun}
    (h : (run.code = (done + 1 + n : Nat) ∧ run.words.length = 256 * n) ∨ run.code < 0) :
    (run.code = (done + (n + 1) : Nat) ∧
      (sectorWords done ++ run.words).length = 256 * (n + 1)) ∨ run.code < 0 := by
  rcases h with ⟨hcode, hlen⟩ | hneg
  · refine Or.inl ⟨?_, ?_⟩
    · rw [hcode]
      congr 1
      omega
    · rw [List.length_append, sectorWords_length, hlen]
      omega
  · exact Or.inr hneg

/-- A data loop returns the sectors it counted or a negative code, and all of them have moved when it
returns the first. -/
theorem sectors_run (d : Direction) (status : Nat → SectorStatus) (n done : Nat) :
    ((d.sectors status n done).code = (done + n : Nat) ∧
      (d.sectors status n done).words.length = 256 * n) ∨ (d.sectors status n done).code < 0 := by
  induction n generalizing done with
  | zero => cases d <;> exact Or.inl ⟨rfl, rfl⟩
  | succ n ih =>
      have hrest := ih (done + 1)
      cases d with
      | read =>
          simp only [Direction.sectors] at hrest ⊢
          rw [readSector]
          by_cases h1 : (status done).ready = true
          · rw [if_neg (not_not.mpr h1)]
            by_cases h2 : (status done).error = true
            · rw [if_pos h2]
              exact Or.inr (show -(10 + (done : Int)) < 0 by omega)
            · rw [if_neg h2]
              by_cases h3 : (status done).dataRequest = true
              · rw [if_neg (not_not.mpr h3)]
                dsimp only
                exact sectors_cons hrest
              · rw [if_pos h3]
                exact Or.inr (show -(20 + (done : Int)) < 0 by omega)
          · rw [if_pos h1]
            exact Or.inr (show -(5 + (done : Int)) < 0 by omega)
      | write =>
          simp only [Direction.sectors] at hrest ⊢
          rw [writeSector]
          by_cases h1 : (status done).dataRequest = true
          · rw [if_neg (not_not.mpr h1)]
            by_cases h2 : (status done).ready = true
            · rw [if_neg (not_not.mpr h2)]
              by_cases h3 : (status done).error = true
              · rw [if_pos h3]
                exact Or.inr (show -(10 + (done : Int)) < 0 by omega)
              · rw [if_neg h3]
                dsimp only
                exact sectors_cons hrest
            · rw [if_pos h2]
              exact Or.inr (show -(5 + (done : Int)) < 0 by omega)
          · rw [if_pos h1]
            exact Or.inr (show -(20 + (done : Int)) < 0 by omega)

/-- A drive that is ready all the time. -/
def goodStatus : Nat → SectorStatus := fun _ => ⟨true, false, true⟩

/-- It takes every command to its end. -/
theorem sectors_good (d : Direction) (n done : Nat) :
    (d.sectors goodStatus n done).code = (done + n : Nat) := by
  induction n generalizing done with
  | zero => cases d <;> rfl
  | succ n ih =>
      have hrest := ih (done + 1)
      cases d with
      | read =>
          simp only [Direction.sectors] at hrest ⊢
          rw [readSector]
          simp only [goodStatus]
          simpa [Nat.add_assoc, Nat.add_comm 1 n] using hrest
      | write =>
          simp only [Direction.sectors] at hrest ⊢
          rw [writeSector]
          simp only [goodStatus]
          simpa [Nat.add_assoc, Nat.add_comm 1 n] using hrest

theorem lba28Cmd_code (command : Nat) (hl : lba < 2 ^ 28) :
    (lba28Cmd command isMaster lba sectorCount ready).code = if ready then 0 else -2 := by
  simp only [lba28Cmd]
  rw [if_neg (by omega)]
  cases ready <;> rfl

theorem lba48Cmd_code (command : Nat) (hl : lba < 2 ^ 48) :
    (lba48Cmd command isMaster lba sectorCount ready).code = if ready then 0 else -2 := by
  simp only [lba48Cmd]
  rw [if_neg (by omega)]
  cases ready <;> rfl

/-- A command within the 48-bit range fails only because the drive is not ready. -/
theorem issue_code (d : Direction) (isMaster : Bool) (sectorCount : Nat) (ready : Bool)
    (hl : lba < 2 ^ 48) : (issue d isMaster lba sectorCount ready).code = if ready then 0 else -2 := by
  by_cases hfit : Fits28 lba sectorCount
  · rw [issue_28 d isMaster ready hfit]
    exact lba28Cmd_code d.code28 hfit.lba_lt
  · rw [issue_48 d isMaster ready hfit]
    exact lba48Cmd_code d.code48 hl

/-- A run whose drive is ready goes through the data loop; any other one moves nothing. -/
theorem transfer_run (d : Direction) (isMaster : Bool) (sectorCount : Nat) (ready : Bool)
    (status : Nat → SectorStatus) (hl : lba < 2 ^ 48) :
    transfer d isMaster lba sectorCount ready status =
      if ready then ⟨(d.sectors status sectorCount 0).code,
        (issue d isMaster lba sectorCount ready).writes, (d.sectors status sectorCount 0).words⟩
      else ⟨-2, (issue d isMaster lba sectorCount ready).writes, []⟩ := by
  have hcode := issue_code d isMaster sectorCount ready hl
  simp only [transfer]
  cases ready with
  | false =>
      have hneg : (issue d isMaster lba sectorCount false).code = -2 := hcode
      rw [if_pos (by rw [hneg]; decide), hneg]
      rfl
  | true =>
      have hzero : (issue d isMaster lba sectorCount true).code = 0 := hcode
      rw [if_neg (not_not.mpr hzero)]
      rfl

/-- The command phase of the driver's model (`ataCommand`) is this one: it refuses the same
addresses with the same code, and the drive register it computes is the one left here. -/
theorem issue_ataCommand (d : Direction) (isMaster : Bool) (lba sectorCount : Nat) (t : TaskFile) :
    match ataCommand isMaster lba sectorCount with
    | .error code => issue d isMaster lba sectorCount true = ⟨code, []⟩
    | .ok driveByte => ((issue d isMaster lba sectorCount true).writes.foldl TaskFile.write t
        .drive).1 = driveByte := by
  rw [ataCommand]
  by_cases hfit : Fits28 lba sectorCount
  · have hlt := hfit.lba_lt
    have hmod : lba % 2 ^ 32 = lba := Nat.mod_eq_of_lt (by omega)
    rw [if_pos (show lba < 0x0FFFFFFF ∧ sectorCount ≤ 256 ∧ 0 < sectorCount from hfit), hmod,
      if_neg (by omega)]
    dsimp only
    rw [issue_28 d isMaster true hfit, lba28Cmd_ready hlt]
    simp [TaskFile.write]
  · rw [if_neg (show ¬ (lba < 0x0FFFFFFF ∧ sectorCount ≤ 256 ∧ 0 < sectorCount) from hfit)]
    by_cases hbig : lba > 0x0000FFFFFFFFFFFF
    · rw [if_pos hbig]
      dsimp only
      rw [issue_48 d isMaster true hfit]
      exact if_pos hbig
    · rw [if_neg hbig]
      dsimp only
      rw [issue_48 d isMaster true hfit, lba48Cmd_ready (by omega)]
      simp [TaskFile.write]

/-- `ATA_Read` and `ATA_Write` return the sectors they were asked for or a negative code. -/
theorem transfer_code (d : Direction) (isMaster : Bool) (sectorCount : Nat) (ready : Bool)
    (status : Nat → SectorStatus) (hl : lba < 2 ^ 48) :
    (transfer d isMaster lba sectorCount ready status).code = sectorCount ∨
      (transfer d isMaster lba sectorCount ready status).code < 0 := by
  rw [transfer_run d isMaster sectorCount ready status hl]
  cases ready with
  | false => exact Or.inr (show (-2 : Int) < 0 by decide)
  | true =>
      rcases sectors_run d status sectorCount 0 with ⟨hcode, -⟩ | hneg
      · rw [Nat.zero_add] at hcode
        exact Or.inl hcode
      · exact Or.inr hneg

end Runs

/-! ## Commands that match their transfers -/

/-- A 28-bit command was written to the command register. -/
def Uses28 (writes : List (Port × Nat)) : Prop :=
  (Port.command, 0x20) ∈ writes ∨ (Port.command, 0x30) ∈ writes

/-- The run of a command matches it: the 28-bit form is for sectors below 2^28, the registers
hold the drive, the address and the number of sectors asked for, and on success the loop has moved as many
sectors as they announce. -/
structure Matches (d : Direction) (isMaster : Bool) (lba sectorCount : Nat) (ready : Bool)
    (status : Nat → SectorStatus) (t : TaskFile) : Prop where
  form : Uses28 (transfer d isMaster lba sectorCount ready status).writes →
    lba + asked sectorCount ≤ 2 ^ 28
  registers : ready = true →
    decode ((transfer d isMaster lba sectorCount ready status).writes.foldl TaskFile.write t) =
      some ⟨isMaster, lba, asked sectorCount⟩
  words : 0 ≤ (transfer d isMaster lba sectorCount ready status).code →
    ∃ c, decode ((transfer d isMaster lba sectorCount ready status).writes.foldl TaskFile.write t) =
      some c ∧ (transfer d isMaster lba sectorCount ready status).words.length = 256 * c.sectors

section Matching

variable {isMaster ready : Bool} {lba sectorCount : Nat} {d : Direction}
  {status : Nat → SectorStatus} {t : TaskFile}

theorem transfer_writes (d : Direction) (isMaster : Bool) (lba sectorCount : Nat) (ready : Bool)
    (status : Nat → SectorStatus) : (transfer d isMaster lba sectorCount ready status).writes =
      (issue d isMaster lba sectorCount ready).writes := by
  simp only [transfer]
  split <;> rfl

/-- No 48-bit command is a 28-bit one. -/
theorem not_uses28_lba48Cmd {command : Nat} (hc : command ≠ 0x20 ∧ command ≠ 0x30) :
    ¬ Uses28 (lba48Cmd command isMaster lba sectorCount ready).writes := by
  have h20 := hc.1.symm
  have h30 := hc.2.symm
  simp only [lba48Cmd, Uses28]
  split_ifs <;> simp [h20, h30]

theorem uses28_fits (h : Uses28 (issue d isMaster lba sectorCount ready).writes) :
    Fits28 lba sectorCount := by
  by_contra hc
  rw [issue_48 d isMaster ready hc] at h
  exact not_uses28_lba48Cmd (by cases d <;> decide) h

theorem uses28_of_fits (h : Fits28 lba sectorCount) :
    Uses28 (issue d isMaster lba sectorCount true).writes := by
  rw [issue_28 d isMaster true h, lba28Cmd_ready h.lba_lt]
  cases d <;> simp [Uses28, Direction.code28]

/-- Every run of a command for these sectors matches it exactly if there are some and they do not cross the
28-bit boundary from an address and a number that look like the 28-bit form. -/
theorem matches_iff (d : Direction) (isMaster : Bool) (hl : lba < 2 ^ 48)
    (hc : sectorCount < 2 ^ 16) :
    (∀ ready status t, Matches d isMaster lba sectorCount ready status t) ↔
      sectorCount ≠ 0 ∧ (Fits28 lba sectorCount → lba + sectorCount ≤ 2 ^ 28) := by
  constructor
  · intro h
    have hm := h true goodStatus (fun _ => (0, 0))
    have hrun := transfer_run d isMaster sectorCount true goodStatus hl
    have hcode : (transfer d isMaster lba sectorCount true goodStatus).code = (0 + sectorCount : Nat) := by
      rw [hrun]
      exact sectors_good d sectorCount 0
    have hne : sectorCount ≠ 0 := by
      rintro rfl
      -- 65536 sectors are announced and none is moved
      obtain ⟨c, hdec, hlen⟩ := hm.words (by rw [hcode]; omega)
      rw [hm.registers rfl, Option.some_inj] at hdec
      rw [← hdec, hrun] at hlen
      have hnone : (d.sectors goodStatus 0 0).words.length = 256 * 65536 := hlen
      cases d <;> exact absurd hnone (by decide)
    refine ⟨hne, ?_⟩
    intro hfit
    have hform := hm.form (by rw [transfer_writes]; exact uses28_of_fits hfit)
    rwa [asked, if_neg hne] at hform
  · rintro ⟨hne, hcross⟩ ready status t
    have hasked : asked sectorCount = sectorCount := if_neg hne
    have hdec := decode_issue d isMaster t hl hc
    refine ⟨?_, ?_, ?_⟩
    · intro huse
      rw [transfer_writes] at huse
      rw [hasked]
      exact hcross (uses28_fits huse)
    · rintro rfl
      rw [transfer_writes]
      exact hdec
    · intro hok
      have hrun := transfer_run d isMaster sectorCount ready status hl
      cases ready with
      | false =>
          rw [hrun] at hok
          exact absurd hok (show ¬ (0 : Int) ≤ -2 by decide)
      | true =>
          rw [hrun] at hok ⊢
          refine ⟨_, hdec, ?_⟩
          rcases sectors_run d status sectorCount 0 with ⟨-, hlen⟩ | hneg
          · rw [hasked]
            exact hlen
          · exact absurd hok (not_le.mpr hneg)

theorem matches_iff_sector : (∀ ready status t, Matches .read true 0 1 ready status t) ↔
    1 ≠ 0 ∧ (Fits28 0 1 → 0 + 1 ≤ 2 ^ 28) :=
  matches_iff .read true (by decide) (by decide)

/-- Three sectors from the last but one 28-bit address on are read with the 28-bit form, whose last
address is 2^28 - 1; a read of 0 sectors announces 65536 and moves none. -/
theorem read_mismatches :
    (∃ ready status t, ¬ Matches .read true 0x0FFFFFFE 3 ready status t) ∧
      ∃ ready status t, ¬ Matches .read true 0 0 ready status t := by
  refine ⟨⟨true, goodStatus, fun _ => (0, 0), ?_⟩, ⟨true, goodStatus, fun _ => (0, 0), ?_⟩⟩
  · intro h
    have hform := h.form (by
      rw [transfer_writes]
      exact uses28_of_fits (by decide))
    exact absurd hform (by decide)
  · intro h
    obtain ⟨c, hdec, hlen⟩ := h.words (by decide)
    rw [h.registers rfl, Option.some_inj] at hdec
    rw [← hdec] at hlen
    exact absurd hlen (by decide)

end Matching

end Ports

end Os003
