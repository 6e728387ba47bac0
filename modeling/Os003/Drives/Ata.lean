import Os003.Lib.Prog
import Os003.Lib.Bytes

set_option autoImplicit false

/-! # The ATA driver

A channel carries two drives, a master and a slave, each a memory of 512-byte sectors. A
command selects its drive by bit 4 of the drive register, so the model computes the byte the
driver writes there and lets the channel decode it. Every command may fail: the list `faults`
says what happens to the commands to come, in order, and a drained list means that no command
fails any more. The log records the sectors every command has transferred.
-/

namespace Os003

open Bytes

/-- `ata_disk_t`: which of the four drives a disk is. -/
structure AtaDisk where
  isPrimary : Bool
  isMaster : Bool
deriving DecidableEq, Repr

/-- A command that fails: `done` sectors had been transferred, the rest of a read buffer holds
`junk`, and `code` picks the negative return value. -/
structure Fault where
  done : Nat
  junk : Nat → UInt8
  code : Nat

/-- A command as the drives see it: the drive, the first sector and the sectors transferred. -/
inductive AtaEvent where
  | read (isMaster : Bool) (lba count : Nat)
  | write (isMaster : Bool) (lba count : Nat)
  | flush (isMaster : Bool)
deriving DecidableEq, Repr

/-- A channel: the bytes of its two drives, by `isMaster`, the faults to come and the commands
so far, the last one first. -/
structure Channel where
  drive : Bool → Nat → UInt8
  faults : List (Option Fault)
  log : List AtaEvent

/-- `&Disk->is_master` passed where a `_Bool` is expected: a non-null pointer converts to true,
whatever it points to. -/
def refAsBool (_field : Bool) : Bool := true

/-! ## Commands -/

/-- The drive register for a 28-bit command. -/
def driveByteLba28 (isMaster : Bool) (lba : Nat) : Nat :=
  0xE0 ||| (if isMaster then 0 else 1 <<< 4) ||| ((lba >>> 24) &&& 0x0F)

/-- The drive register for a 48-bit command. -/
def driveByteLba48 (isMaster : Bool) : Nat := 0x40 ||| (if isMaster then 0 else 1 <<< 4)

/-- The drive register for `ATA_Flush_Cache`. -/
def driveByteFlush (isMaster : Bool) : Nat := 0xE0 ||| (if isMaster then 0 else 1 <<< 4)

/-- The drive a drive register selects: bit 4 is set for the slave. -/
def selectsMaster (driveByte : Nat) : Bool := !driveByte.testBit 4

/-- The command phase of `ATA_Read` and `ATA_Write`: the 28-bit form where it fits, else the
48-bit form, each with its range check. The result is the drive register or the error code. -/
def ataCommand (isMaster : Bool) (lba sectorCount : Nat) : Except Int Nat :=
  if lba < 0x0FFFFFFF ∧ sectorCount ≤ 256 ∧ 0 < sectorCount then
    if lba % 2 ^ 32 > 0x0FFFFFFF then .error (-4) else .ok (driveByteLba28 isMaster (lba % 2 ^ 32))
  else if lba > 0x0000FFFFFFFFFFFF then .error (-4)
  else .ok (driveByteLba48 isMaster)

/-- What happens to the next command. -/
def takeFault (ch : Channel) : Option Fault × Channel :=
  match ch.faults with
  | [] => (none, ch)
  | f :: rest => (f, { ch with faults := rest })

/-- `ATA_Read`: the return value and the buffer after the call. A failed command leaves in the
buffer the sectors it has transferred and, behind them, the junk of the fault; a command
refused for its address transfers nothing. -/
def ataRead (isMaster : Bool) (lba sectorCount : Nat) : Prog Channel (Int × List UInt8) := fun ch =>
  match ataCommand isMaster lba sectorCount with
  | .error code => some ((code, List.replicate (512 * sectorCount) 0), ch)
  | .ok driveByte =>
      let drv := selectsMaster driveByte
      match takeFault ch with
      | (none, ch) =>
          some ((sectorCount, readBytes (ch.drive drv) (512 * lba) (512 * sectorCount)),
            { ch with log := .read drv lba sectorCount :: ch.log })
      | (some fault, ch) =>
          let done := min fault.done sectorCount
          some ((Int.negSucc fault.code, readBytes (ch.drive drv) (512 * lba) (512 * done) ++
              (List.range (512 * (sectorCount - done))).map fault.junk),
            { ch with log := .read drv lba done :: ch.log })

/-- `ATA_Write`: a failed command has written the sectors it has transferred. -/
def ataWrite (isMaster : Bool) (lba sectorCount : Nat) (buffer : List UInt8) : Prog Channel Int :=
  fun ch =>
  match ataCommand isMaster lba sectorCount with
  | .error code => some (code, ch)
  | .ok driveByte =>
      let drv := selectsMaster driveByte
      match takeFault ch with
      | (none, ch) =>
          some (sectorCount, { ch with
            drive := Function.update ch.drive drv
              (writeBytes (ch.drive drv) (512 * lba) (buffer.take (512 * sectorCount)))
            log := .write drv lba sectorCount :: ch.log })
      | (some fault, ch) =>
          let done := min fault.done sectorCount
          some (Int.negSucc fault.code, { ch with
            drive := Function.update ch.drive drv
              (writeBytes (ch.drive drv) (512 * lba) (buffer.take (512 * done)))
            log := .write drv lba done :: ch.log })

/-- `ATA_Flush_Cache`. -/
def ataFlushCache (isMaster : Bool) : Prog Channel Unit :=
  Prog.modify fun ch =>
    { ch with log := .flush (selectsMaster (driveByteFlush isMaster)) :: ch.log }

/-! ## The drive a command selects -/

theorem selectsMaster_lba28 (isMaster : Bool) (lba : Nat) :
    selectsMaster (driveByteLba28 isMaster lba) = isMaster := by
  have h : ((lba >>> 24) &&& 0x0F).testBit 4 = false := by
    rw [Nat.testBit_and, show Nat.testBit 0x0F 4 = false from by decide, Bool.and_false]
  cases isMaster <;> simp [selectsMaster, driveByteLba28, Nat.testBit_or, h] <;> decide

theorem selectsMaster_lba48 (isMaster : Bool) :
    selectsMaster (driveByteLba48 isMaster) = isMaster := by
  cases isMaster <;> decide

theorem selectsMaster_flush (isMaster : Bool) :
    selectsMaster (driveByteFlush isMaster) = isMaster := by
  cases isMaster <;> decide

/-- A command that gets past the range checks addresses the drive it was asked for. -/
theorem ataCommand_selects {isMaster : Bool} {lba sectorCount driveByte : Nat}
    (h : ataCommand isMaster lba sectorCount = .ok driveByte) :
    selectsMaster driveByte = isMaster := by
  unfold ataCommand at h
  split at h
  · split at h
    · cases h
    · cases h
      exact selectsMaster_lba28 isMaster _
  · split at h
    · cases h
    · cases h
      exact selectsMaster_lba48 isMaster

/-- A command within the 48-bit address range passes the range checks. -/
theorem ataCommand_ok (isMaster : Bool) {lba : Nat} (sectorCount : Nat) (h : lba < 2 ^ 48) :
    ∃ driveByte, ataCommand isMaster lba sectorCount = .ok driveByte := by
  unfold ataCommand
  split
  · rw [if_neg (by omega)]
    exact ⟨_, rfl⟩
  · rw [if_neg (by omega)]
    exact ⟨_, rfl⟩

end Os003
