import Os003.Drives.Gpt

set_option autoImplicit false

/-! # The walk over the partition table

`FindPartition` compares the type of the entries one by one and copies the one it was asked for.
Both have to stay inside the buffer and inside the sectors that were read into it. For a header that
announces sectors to read they do so on every run exactly when the table does not wrap and its last
entry ends inside those sectors (`scan_inside_iff`): a table that is not a whole number of sectors
is read short.
-/

namespace Os003

open Bytes

/-- The three reads store their sectors and return their numbers. -/
structure PartitionInput.ReadsSucceed (p : PartitionInput) : Prop where
  mbr : p.mbr.Succeeds 1
  header : p.header.Succeeds 1
  table : p.table.Succeeds (tableSectors p.headerBuffer)

/-- An access lies inside the buffer and inside the sectors read into it. -/
def InsideTable (header : Nat → UInt8) (a : Nat × Nat) : Prop :=
  a.1 + a.2 ≤ tableBytes header ∧ a.1 + a.2 ≤ 512 * tableSectors header

instance (header : Nat → UInt8) (a : Nat × Nat) : Decidable (InsideTable header a) := by
  unfold InsideTable
  infer_instance

variable {p : PartitionInput} {typeGuid : Nat → UInt8} {header : Nat → UInt8}

theorem searchTable_accesses (r : Nat → UInt8) : (searchTable p typeGuid r).accesses =
    scanAccesses p.tableBuffer (sizePartitionEntry p.headerBuffer) typeGuid
      (numPartitionEntries p.headerBuffer) 0 := by
  rw [searchTable]
  split <;> rfl

/-- A call touches entries only after a read of the table that did not answer 0. -/
theorem findPartition_accesses {result : Option (Nat → UInt8)} {a : Nat × Nat}
    (h : a ∈ (findPartition p typeGuid result).accesses) :
    p.table.code ≠ 0 ∧ a ∈ scanAccesses p.tableBuffer (sizePartitionEntry p.headerBuffer) typeGuid
      (numPartitionEntries p.headerBuffer) 0 := by
  cases result with
  | none => simp [findPartition] at h
  | some r =>
      simp only [findPartition] at h
      split_ifs at h with h1 h2 h3 h4 h5 h6 <;> try simp at h
      rw [searchTable_accesses] at h
      exact ⟨h6, h⟩

/-- What a call does that gets as far as the walk. -/
structure PartitionInput.Walks (p : PartitionInput) : Prop where
  mbr : p.mbr.code ≠ 0
  isMbr : checkMbr p.mbrBuffer = true
  header : p.header.code ≠ 0
  isHeader : checkGptHeader p.headerBuffer = 0
  bytes : tableBytes p.headerBuffer ≠ 0
  granted : p.granted = true
  table : p.table.code ≠ 0

theorem PartitionInput.Walks.run (h : p.Walks) (r : Nat → UInt8) :
    findPartition p typeGuid (some r) = searchTable p typeGuid r := by
  simp only [findPartition]
  rw [if_neg h.mbr, if_neg (not_not.mpr h.isMbr), if_neg h.header, if_neg (not_not.mpr h.isHeader),
    if_neg (by simp [h.bytes, h.granted]), if_neg h.table]

/-! ## A run that leaves the sectors read -/

/-- A protective MBR. -/
def protectiveMbr : Nat → UInt8 := fun x => if x = 510 then 0x55 else if x = 511 then 0xAA else 0xEE

/-- A type that starts with 1, 15 zeros behind it. -/
def oneGuid : Nat → UInt8 := fun x => if x = 0 then 1 else 0

/-- A memory in which only the byte at `off` is 1, and `tail` 127 bytes behind it. -/
def oneAt (off : Nat) (tail : UInt8) : Nat → UInt8 :=
  fun x => if x = off then 1 else if x = off + 127 then tail else 0

/-- The reads of a drive whose second sector is `header`, with `bytes` in the sectors of the table. -/
def drivesOf (header bytes heap : Nat → UInt8) : PartitionInput where
  mbr := ⟨1, 512, protectiveMbr⟩
  header := ⟨1, 512, header⟩
  table := ⟨tableSectors header, 512 * tableSectors header, bytes⟩
  stack := header
  granted := true
  heap := heap

theorem drivesOf_headerBuffer (header bytes heap : Nat → UInt8) :
    (drivesOf header bytes heap).headerBuffer = header := by
  funext x
  show (if x < 512 then header x else if x < 512 then protectiveMbr x else header x) = header x
  by_cases hx : x < 512
  · rw [if_pos hx]
  · rw [if_neg hx, if_neg hx]

theorem drivesOf_succeed (header bytes heap : Nat → UInt8) :
    (drivesOf header bytes heap).ReadsSucceed where
  mbr := ⟨rfl, rfl⟩
  header := ⟨rfl, rfl⟩
  table := by
    rw [drivesOf_headerBuffer]
    exact ⟨rfl, rfl⟩

theorem drivesOf_walks {bytes heap : Nat → UInt8} (hc : checkGptHeader header = 0)
    (h0 : tableSectors header ≠ 0) : (drivesOf header bytes heap).Walks := by
  have hle := tableSectors_le header
  refine ⟨Int.one_ne_zero, rfl, Int.one_ne_zero, ?_, ?_, rfl, ?_⟩
  · rwa [drivesOf_headerBuffer]
  · rw [drivesOf_headerBuffer]
    omega
  · simpa [drivesOf] using h0

/-- In a memory with one such byte the walk finds the first entry at its offset. -/
theorem scan_oneAt {s n i : Nat} (tail : UInt8) (hi : i < n) (htail : tail ≠ 1)
    (hfirst : ∀ j < i, entryOffset s j ≠ entryOffset s i) :
    scanEntries (oneAt (entryOffset s i) tail) s oneGuid n 0 = some (entryOffset s i) ∧
      (entryOffset s i, partitionEntryBytes) ∈
        scanAccesses (oneAt (entryOffset s i) tail) s oneGuid n 0 := by
  have hmatch : ∀ x < 16, entryAt (oneAt (entryOffset s i) tail) (entryOffset s (0 + i)) x = oneGuid x := by
    intro x hx
    simp only [Nat.zero_add, entryAt, oneAt, oneGuid]
    by_cases h0 : x = 0
    · simp [h0]
    · rw [if_neg (by omega), if_neg (by omega), if_neg h0]
  have hbefore : ∀ j < i, ¬ ∀ x < 16,
      entryAt (oneAt (entryOffset s i) tail) (entryOffset s (0 + j)) x = oneGuid x := by
    intro j hj hall
    have hone := hall 0 (by decide)
    have hne := hfirst j hj
    rw [Nat.zero_add, entryAt, Nat.add_zero, oneAt, if_neg hne] at hone
    split at hone
    · exact htail hone
    · exact absurd hone (by decide)
  have h := scanEntries_first hi hmatch hbefore
  rwa [Nat.zero_add] at h

/-- An entry that is not inside is copied by some run, if no entry before it has its offset. -/
theorem exists_first_outside (h : ¬ ∀ i < numPartitionEntries header,
    entryOffset (sizePartitionEntry header) i + partitionEntryBytes ≤ 512 * tableSectors header) :
    ∃ i < numPartitionEntries header, 512 * tableSectors header <
        entryOffset (sizePartitionEntry header) i + partitionEntryBytes ∧
      ∀ j < i, entryOffset (sizePartitionEntry header) j ≠ entryOffset (sizePartitionEntry header) i := by
  push Not at h
  classical
  obtain ⟨hlt, hout⟩ := Nat.find_spec h
  refine ⟨Nat.find h, hlt, hout, ?_⟩
  intro j hj heq
  apply Nat.find_min h hj
  refine ⟨by omega, ?_⟩
  rwa [heq]

/-- The accesses of every run with this header stay inside exactly for the headers that announce no sector,
or a table that does not wrap and whose last entry ends inside the sectors read. -/
theorem scan_inside_iff (hc : checkGptHeader header = 0) :
    (∀ (p : PartitionInput) (typeGuid : Nat → UInt8) (result : Option (Nat → UInt8)),
      p.ReadsSucceed → p.headerBuffer = header →
        ∀ a ∈ (findPartition p typeGuid result).accesses, InsideTable header a) ↔
      tableSectors header = 0 ∨ TableInRead header := by
  by_cases h0 : tableSectors header = 0
  · -- a read of no sectors answers 0, and the call ends there
    refine ⟨fun _ => Or.inl h0, ?_⟩
    rintro - p typeGuid result hreads rfl a ha
    have hcode := hreads.table.1
    rw [h0] at hcode
    exact absurd hcode (findPartition_accesses ha).1
  rw [← inRead_iff h0, or_iff_right h0]
  constructor
  · intro h
    by_contra hc'
    obtain ⟨i, hi, hout, hfirst⟩ := exists_first_outside hc'
    have hmem := (scan_oneAt 0 hi (by decide) hfirst).2
    let mem := oneAt (entryOffset (sizePartitionEntry header) i) 0
    have hbuf : (drivesOf header mem mem).tableBuffer = mem := by
      funext x
      exact ite_self _
    have hin := (h (drivesOf header mem mem) oneGuid (some mem) (drivesOf_succeed _ _ _)
      (drivesOf_headerBuffer _ _ _) (entryOffset (sizePartitionEntry header) i, partitionEntryBytes)
      (by
        rw [(drivesOf_walks hc h0).run, searchTable_accesses, hbuf, drivesOf_headerBuffer]
        exact hmem)).2
    exact absurd hin (not_le.mpr hout)
  · rintro hall p typeGuid result - rfl a ha
    obtain ⟨j, -, hj, hoff, hlen⟩ := mem_scanAccesses (findPartition_accesses ha).2
    have hin := hall j (by omega)
    rw [← hoff] at hin
    have hle := tableSectors_le p.headerBuffer
    constructor <;> omega

/-- A header with `n` entries of `s` bytes each from the sector 2 on. -/
def headerOf (n s : Nat) : Nat → UInt8 := fun x =>
  (gptSignature ++ le32 0x00010000 ++ le32 92 ++ List.replicate 56 0 ++ leBytes 8 2 ++ le32 n ++
    le32 s).getD x 0

theorem scan_inside_iff_full :
    (∀ (p : PartitionInput) (typeGuid : Nat → UInt8) (result : Option (Nat → UInt8)),
      p.ReadsSucceed → p.headerBuffer = headerOf 128 128 →
        ∀ a ∈ (findPartition p typeGuid result).accesses, InsideTable (headerOf 128 128) a) ↔
      tableSectors (headerOf 128 128) = 0 ∨ TableInRead (headerOf 128 128) :=
  scan_inside_iff (by decide)

/-- Five entries of 128 bytes are 640 bytes, of which one sector is read; the fifth entry is
compared behind it. -/
theorem scan_leaves_sector :
    checkGptHeader (headerOf 5 128) = 0 ∧
      (drivesOf (headerOf 5 128) (fun _ => 0) (fun _ => 0)).ReadsSucceed ∧
      (512, 1) ∈ (findPartition (drivesOf (headerOf 5 128) (fun _ => 0) (fun _ => 0)) oneGuid
        (some fun _ => 0)).accesses ∧
      ¬ InsideTable (headerOf 5 128) (512, 1) :=
  ⟨by decide, drivesOf_succeed _ _ _, by decide, by decide⟩

end Os003
