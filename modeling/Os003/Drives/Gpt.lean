import Os003.Lib.Words
import Os003.Kernel.Kstring

set_option autoImplicit false

/-! # The partition table

`FindPartition` (`drives/gpt.c`) reads the protective MBR and the GPT header into one sector on its
stack, the table of entries into a buffer from `Vmm_Malloc`, and walks the entries until one has the
type it looks for. Every buffer here is a memory from its first byte on, so that the walk can read
past the end of one; what it reads there is what the memory behind the buffer holds.

The size of the buffer is the product of the two header fields in 32 bits, the sectors to read are
its quotient by 512 in 16 bits, and the walk goes over all entries at their own offsets.
`inRead_iff` says for which headers the three agree.
-/

namespace Os003

open Bytes

/-! ## The sectors it checks -/

def checkMbr (buffer : Nat → UInt8) : Bool :=
  if buffer 510 ≠ 0x55 ∨ buffer 511 ≠ 0xAA ∨ buffer 450 ≠ 0xEE then false else true

/-- `EFI PART`. -/
def gptSignature : List UInt8 := [0x45, 0x46, 0x49, 0x20, 0x50, 0x41, 0x52, 0x54]

/-- The fields of `gpt_header_t` that the code reads. -/
def gptRevision (buffer : Nat → UInt8) : Nat := loadLe buffer 0x08 4

def gptHeaderSize (buffer : Nat → UInt8) : Nat := loadLe buffer 0x0C 4

def partitionEntryLba (buffer : Nat → UInt8) : Nat := loadLe buffer 0x48 8

def numPartitionEntries (buffer : Nat → UInt8) : Nat := loadLe buffer 0x50 4

def sizePartitionEntry (buffer : Nat → UInt8) : Nat := loadLe buffer 0x54 4

def checkGptHeader (buffer : Nat → UInt8) : Int :=
  if memcmp 8 buffer (fun i => gptSignature.getD i 0) ≠ 0 then 1
  else if gptHeaderSize buffer < 92 ∨ 512 < gptHeaderSize buffer then 2
  else if gptRevision buffer ≠ 0x00010000 then 3
  else 0

/-! ## Reading -/

/-- What one call of `ATA_Read` does: its return value and the first bytes of the buffer, as many as it
has stored there. -/
structure ReadAnswer where
  code : Int
  stored : Nat
  bytes : Nat → UInt8

namespace ReadAnswer

/-- The buffer after the call. -/
def into (a : ReadAnswer) (buffer : Nat → UInt8) : Nat → UInt8 :=
  fun x => if x < a.stored then a.bytes x else buffer x

/-- The sectors were read and stored, and their number is returned. -/
def Succeeds (a : ReadAnswer) (sectors : Nat) : Prop :=
  a.code = sectors ∧ a.stored = 512 * sectors

/-- A negative code, and no byte stored behind the sectors asked for. -/
def Fails (a : ReadAnswer) (sectors : Nat) : Prop :=
  a.code < 0 ∧ a.stored ≤ 512 * sectors

end ReadAnswer

/-- A read as the caller sees it. -/
structure ReadCall where
  lba : Nat
  sectors : Nat
  code : Int

/-! ## Walking the entries -/

/-- The offset of the entry `i`: the product is a 32-bit one. -/
def entryOffset (size i : Nat) : Nat := i * size % 2 ^ 32

/-- The entry at offset `off` of the buffer. -/
def entryAt (table : Nat → UInt8) (off : Nat) : Nat → UInt8 := fun x => table (off + x)

/-- `sizeof(gpt_partition_entry_t)`. -/
def partitionEntryBytes : Nat := 128

/-- The loop over `n` entries from the entry `i` on: the offset of the first one of the type. -/
def scanEntries (table : Nat → UInt8) (size : Nat) (typeGuid : Nat → UInt8) :
    (n i : Nat) → Option Nat
  | 0, _ => none
  | n + 1, i =>
      if memcmp 16 (entryAt table (entryOffset size i)) typeGuid = 0 then some (entryOffset size i)
      else scanEntries table size typeGuid n (i + 1)

/-- The bytes of the buffer that the loop compares and that `memcpy` copies, each access with its
offset and its length. -/
def scanAccesses (table : Nat → UInt8) (size : Nat) (typeGuid : Nat → UInt8) :
    (n i : Nat) → List (Nat × Nat)
  | 0, _ => []
  | n + 1, i =>
      (entryOffset size i, memcmpReads 16 (entryAt table (entryOffset size i)) typeGuid) ::
        if memcmp 16 (entryAt table (entryOffset size i)) typeGuid = 0 then
          [(entryOffset size i, partitionEntryBytes)]
        else scanAccesses table size typeGuid n (i + 1)

/-- The size of the buffer: a 32-bit product. -/
def tableBytes (header : Nat → UInt8) : Nat :=
  numPartitionEntries header * sizePartitionEntry header % 2 ^ 32

/-- The sectors to read: the quotient becomes a `uint16_t`. -/
def tableSectors (header : Nat → UInt8) : Nat := tableBytes header / 512 % 2 ^ 16

/-! ## Finding a partition -/

/-- What the drive and the allocator answer to `FindPartition`, and what the memory holds that it does
not initialise. -/
structure PartitionInput where
  mbr : ReadAnswer
  header : ReadAnswer
  table : ReadAnswer
  /-- The sector on the stack before the first read. -/
  stack : Nat → UInt8
  /-- Whether `Vmm_Malloc` has the pages. -/
  granted : Bool
  /-- The memory from the buffer of the table on. -/
  heap : Nat → UInt8

/-- The return value, `*result`, the reads made, the sizes handed to `Vmm_Malloc` and `Vmm_Free`, and
the accesses to the entries. -/
structure PartitionOutcome where
  code : Int
  result : Option (Nat → UInt8)
  reads : List ReadCall
  allocated : List Nat
  freed : List Nat
  accesses : List (Nat × Nat)

namespace PartitionInput

/-- The sector after the first read. -/
def mbrBuffer (p : PartitionInput) : Nat → UInt8 := p.mbr.into p.stack

/-- The sector after the second read. -/
def headerBuffer (p : PartitionInput) : Nat → UInt8 := p.header.into p.mbrBuffer

/-- The memory of the table after the third read. -/
def tableBuffer (p : PartitionInput) : Nat → UInt8 := p.table.into p.heap

def mbrCall (p : PartitionInput) : ReadCall := ⟨0, 1, p.mbr.code⟩

def headerCall (p : PartitionInput) : ReadCall := ⟨1, 1, p.header.code⟩

def tableCall (p : PartitionInput) : ReadCall :=
  ⟨partitionEntryLba p.headerBuffer, tableSectors p.headerBuffer, p.table.code⟩

end PartitionInput

/-- `memcpy(result, entry, sizeof(gpt_partition_entry_t))`. -/
def copyEntry (entry result : Nat → UInt8) : Nat → UInt8 :=
  fun x => if x < partitionEntryBytes then entry x else result x

/-- The part of `FindPartition` behind the third read. -/
def searchTable (p : PartitionInput) (typeGuid r : Nat → UInt8) : PartitionOutcome :=
  let size := tableBytes p.headerBuffer
  let n := numPartitionEntries p.headerBuffer
  let entrySize := sizePartitionEntry p.headerBuffer
  let reads := [p.mbrCall, p.headerCall, p.tableCall]
  let accesses := scanAccesses p.tableBuffer entrySize typeGuid n 0
  match scanEntries p.tableBuffer entrySize typeGuid n 0 with
  | some off =>
      ⟨0, some (copyEntry (entryAt p.tableBuffer off) r), reads, [size], [size], accesses⟩
  | none => ⟨4, some r, reads, [size], [size], accesses⟩

/-- `FindPartition`; `result` is none for a null pointer. -/
def findPartition (p : PartitionInput) (typeGuid : Nat → UInt8) (result : Option (Nat → UInt8)) :
    PartitionOutcome :=
  match result with
  | none => ⟨1, none, [], [], [], []⟩
  | some r =>
      if p.mbr.code = 0 then ⟨-1, some r, [p.mbrCall], [], [], []⟩
      else if ¬ checkMbr p.mbrBuffer then ⟨2, some r, [p.mbrCall], [], [], []⟩
      else if p.header.code = 0 then ⟨-1, some r, [p.mbrCall, p.headerCall], [], [], []⟩
      else if checkGptHeader p.headerBuffer ≠ 0 then
        ⟨3, some r, [p.mbrCall, p.headerCall], [], [], []⟩
      else
        let size := tableBytes p.headerBuffer
        -- Vmm_Malloc refuses the size 0
        if size = 0 ∨ ¬ p.granted then ⟨-2, some r, [p.mbrCall, p.headerCall], [], [], []⟩
        else if p.table.code = 0 then
          ⟨-1, some r, [p.mbrCall, p.headerCall, p.tableCall], [size], [size], []⟩
        else searchTable p typeGuid r

/-! ## Which headers keep the walk inside the sectors read -/

section Scan

variable {table typeGuid : Nat → UInt8} {size n i k : Nat} {a : Nat × Nat}

/-- An access starts at an entry and is no longer than an entry. -/
theorem mem_scanAccesses (h : a ∈ scanAccesses table size typeGuid n i) :
    ∃ j, i ≤ j ∧ j < i + n ∧ a.1 = entryOffset size j ∧ a.2 ≤ partitionEntryBytes := by
  induction n generalizing i with
  | zero => simp [scanAccesses] at h
  | succ n ih =>
      rw [scanAccesses, List.mem_cons] at h
      rcases h with rfl | h
      · have hle := memcmpReads_le 16 (entryAt table (entryOffset size i)) typeGuid
        exact ⟨i, le_rfl, by omega, rfl, le_trans hle (by decide)⟩
      · split at h
        · rw [List.mem_singleton] at h
          exact ⟨i, le_rfl, by omega, by rw [h], by rw [h]⟩
        · obtain ⟨j, hij, hj, hacc⟩ := ih h
          exact ⟨j, by omega, by omega, hacc⟩

/-- The first entry of the type is found, and it is copied. -/
theorem scanEntries_first (hk : k < n)
    (hmatch : ∀ x < 16, entryAt table (entryOffset size (i + k)) x = typeGuid x)
    (hbefore : ∀ j < k, ¬ ∀ x < 16, entryAt table (entryOffset size (i + j)) x = typeGuid x) :
    scanEntries table size typeGuid n i = some (entryOffset size (i + k)) ∧
      (entryOffset size (i + k), partitionEntryBytes) ∈ scanAccesses table size typeGuid n i := by
  induction k generalizing n i with
  | zero =>
      obtain ⟨m, rfl⟩ : ∃ m, n = m + 1 := ⟨n - 1, by omega⟩
      have hzero := memcmp_eq_zero.mpr hmatch
      rw [Nat.add_zero] at hzero ⊢
      rw [scanEntries, scanAccesses, if_pos hzero, if_pos hzero]
      simp
  | succ k ih =>
      obtain ⟨m, rfl⟩ : ∃ m, n = m + 1 := ⟨n - 1, by omega⟩
      have hne : ¬ memcmp 16 (entryAt table (entryOffset size i)) typeGuid = 0 := by
        rw [memcmp_eq_zero]
        exact hbefore 0 (Nat.succ_pos k)
      rw [scanEntries, scanAccesses, if_neg hne, if_neg hne, List.mem_cons]
      rw [show i + (k + 1) = i + 1 + k by omega] at hmatch ⊢
      obtain ⟨hsome, hmem⟩ := ih (n := m) (i := i + 1) (by omega) hmatch (by
        intro j hj
        rw [show i + 1 + j = i + (j + 1) by omega]
        exact hbefore (j + 1) (by omega))
      exact ⟨hsome, Or.inr hmem⟩

/-- What the walk finds is an entry of the type. -/
theorem scanEntries_some {off : Nat} (h : scanEntries table size typeGuid n i = some off) :
    ∃ j, i ≤ j ∧ j < i + n ∧ off = entryOffset size j ∧
      ∀ x < 16, entryAt table off x = typeGuid x := by
  induction n generalizing i with
  | zero => simp [scanEntries] at h
  | succ n ih =>
      rw [scanEntries] at h
      split at h
      · rename_i hzero
        cases h
        exact ⟨i, le_rfl, by omega, rfl, memcmp_eq_zero.mp hzero⟩
      · obtain ⟨j, hij, hj, hoff⟩ := ih h
        exact ⟨j, by omega, by omega, hoff⟩

end Scan

/-- The header's table does not wrap and its last entry ends inside the sectors read. -/
def TableInRead (header : Nat → UInt8) : Prop :=
  numPartitionEntries header * sizePartitionEntry header < 2 ^ 32 ∧
    (numPartitionEntries header - 1) * sizePartitionEntry header + partitionEntryBytes ≤
      512 * tableSectors header

theorem tableSectors_le (header : Nat → UInt8) : 512 * tableSectors header ≤ tableBytes header := by
  rw [tableSectors]
  omega

theorem tableSectors_lt (header : Nat → UInt8) : 512 * tableSectors header < 2 ^ 25 := by
  rw [tableSectors]
  omega

/-- When the table has sectors to read, all its entries lie in them exactly if the product does not wrap and
the last entry does: a table that wraps has an entry in the first 2^32 bytes behind those sectors. -/
theorem inRead_iff {header : Nat → UInt8} (h0 : tableSectors header ≠ 0) :
    (∀ i < numPartitionEntries header,
      entryOffset (sizePartitionEntry header) i + partitionEntryBytes ≤ 512 * tableSectors header) ↔
      TableInRead header := by
  have hlt := tableSectors_lt header
  have hle := tableSectors_le header
  have hs : sizePartitionEntry header < 2 ^ 32 := loadLe_lt header 0x54 4
  have hbytes : tableBytes header ≠ 0 := by omega
  rw [TableInRead]
  generalize hB : 512 * tableSectors header = B at *
  rw [tableBytes] at hbytes
  generalize numPartitionEntries header = n at *
  generalize sizePartitionEntry header = s at *
  simp only [entryOffset, partitionEntryBytes]
  have hpos : 0 < n ∧ 0 < s := by
    constructor <;> apply Nat.pos_of_ne_zero <;> rintro rfl <;> simp at hbytes
  have h512 : 512 ≤ B := by omega
  constructor
  · intro hall
    have hwrap : n * s < 2 ^ 32 := by
      by_contra hc
      -- the first entry that does not end inside, before the product wraps
      have hdiv := Nat.div_add_mod (B - 128) s
      have hmod := Nat.mod_lt (B - 128) hpos.2
      have hexp : ((B - 128) / s + 1) * s = s * ((B - 128) / s) + s := by ring
      have hfit : ((B - 128) / s + 1) * s < 2 ^ 32 := by
        by_cases hbig : B - 128 < s
        · rw [Nat.div_eq_of_lt hbig]
          omega
        · omega
      have hin : (B - 128) / s + 1 < n := by
        apply Nat.lt_of_mul_lt_mul_right (a := s)
        omega
      have := hall _ hin
      rw [Nat.mod_eq_of_lt hfit] at this
      omega
    refine ⟨hwrap, ?_⟩
    have hlast : (n - 1) * s < 2 ^ 32 := lt_of_le_of_lt (Nat.mul_le_mul_right s (by omega)) hwrap
    have := hall (n - 1) (by omega)
    rwa [Nat.mod_eq_of_lt hlast] at this
  · rintro ⟨hwrap, hlast⟩ i hi
    have hstep : i * s ≤ (n - 1) * s := Nat.mul_le_mul_right s (by omega)
    have := Nat.mod_le (i * s) (2 ^ 32)
    omega

end Os003
