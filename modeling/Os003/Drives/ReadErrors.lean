import Os003.Drives.TableScan

set_option autoImplicit false

/-! # Read errors in the partition search

`ATA_Read` returns the number of sectors it has read or a negative code, and `FindPartition` tests what it
returns with `!`. A negative code is not 0, so a failed read goes on as a successful one would, with
whatever the buffer holds; the one answer it takes for an error is that of a table of less than
a sector. `reports_iff` says on which answers of the drive a call reports what it should.
-/

namespace Os003

open Bytes

/-- The answers keep to the convention of `ATA_Read`: the sectors, or a negative code. -/
structure PartitionInput.Conventional (p : PartitionInput) : Prop where
  mbr : p.mbr.Succeeds 1 ∨ p.mbr.Fails 1
  header : p.header.Succeeds 1 ∨ p.header.Fails 1
  table : p.table.Succeeds (tableSectors p.headerBuffer) ∨ p.table.Fails (tableSectors p.headerBuffer)

/-- What a call owes its caller: a read that fails is reported as -1, with `*result` as it was and
the buffer given back, and an entry that is found was read from the disk and has the type. -/
structure Reports (p : PartitionInput) (typeGuid : Nat → UInt8) (result : Option (Nat → UInt8)) :
    Prop where
  failed : ∀ q ∈ (findPartition p typeGuid result).reads, q.code < 0 →
    (findPartition p typeGuid result).code = -1 ∧
      (findPartition p typeGuid result).result = result ∧
      (findPartition p typeGuid result).freed = (findPartition p typeGuid result).allocated
  found : (findPartition p typeGuid result).code = 0 →
    ∃ i < numPartitionEntries p.headerBuffer, ∃ r,
      (findPartition p typeGuid result).result = some r ∧
      (∀ x < partitionEntryBytes,
        i * sizePartitionEntry p.headerBuffer + x < 512 * tableSectors p.headerBuffer ∧
          r x = p.table.bytes (i * sizePartitionEntry p.headerBuffer + x)) ∧
      ∀ x < 16, r x = typeGuid x

/-- The call gets as far as the third read. -/
structure PartitionInput.ReachesTable (p : PartitionInput) : Prop where
  mbr : p.mbr.code ≠ 0
  isMbr : checkMbr p.mbrBuffer = true
  header : p.header.code ≠ 0
  isHeader : checkGptHeader p.headerBuffer = 0
  bytes : tableBytes p.headerBuffer ≠ 0
  granted : p.granted = true

/-- No read that is made fails, and the table lies in the sectors that are read. -/
structure PartitionInput.ReadsHold (p : PartitionInput) : Prop where
  mbr : 0 < p.mbr.code
  header : checkMbr p.mbrBuffer = true → 0 < p.header.code
  table : p.ReachesTable → 0 < p.table.code ∧ TableInRead p.headerBuffer

/-- The same run with other bytes in the table and in the memory that it does not initialise. -/
def PartitionInput.withTable (p : PartitionInput) (bytes heap : Nat → UInt8) : PartitionInput :=
  { p with table := { p.table with bytes := bytes }, heap := heap }

variable {p : PartitionInput} {typeGuid : Nat → UInt8} {result : Option (Nat → UInt8)}
  {r bytes heap : Nat → UInt8}

theorem PartitionInput.ReachesTable.withTable (h : p.ReachesTable) (bytes heap : Nat → UInt8) :
    (p.withTable bytes heap).ReachesTable :=
  ⟨h.mbr, h.isMbr, h.header, h.isHeader, h.bytes, h.granted⟩

theorem PartitionInput.ReachesTable.of_withTable (h : (p.withTable bytes heap).ReachesTable) :
    p.ReachesTable :=
  ⟨h.mbr, h.isMbr, h.header, h.isHeader, h.bytes, h.granted⟩

/-! ## The reads a call makes -/

theorem searchTable_reads (typeGuid r : Nat → UInt8) :
    (searchTable p typeGuid r).reads = [p.mbrCall, p.headerCall, p.tableCall] := by
  rw [searchTable]
  split <;> rfl

theorem searchTable_code (p : PartitionInput) (typeGuid r : Nat → UInt8) :
    (searchTable p typeGuid r).code = 0 ∨ (searchTable p typeGuid r).code = 4 := by
  rw [searchTable]
  split
  · exact Or.inl rfl
  · exact Or.inr rfl

/-- The table is read when the call gets as far, and an answer of 0 ends it. -/
theorem PartitionInput.ReachesTable.run (h : p.ReachesTable) (typeGuid r : Nat → UInt8) :
    findPartition p typeGuid (some r) = if p.table.code = 0 then
      ⟨-1, some r, [p.mbrCall, p.headerCall, p.tableCall], [tableBytes p.headerBuffer],
        [tableBytes p.headerBuffer], []⟩
    else searchTable p typeGuid r := by
  simp only [findPartition]
  rw [if_neg h.mbr, if_neg (not_not.mpr h.isMbr), if_neg h.header, if_neg (not_not.mpr h.isHeader),
    if_neg (by simp [h.bytes, h.granted])]

/-- A call that ends before the third read returns a code other than -1 and other than 0. -/
theorem findPartition_early (hp : p.Conventional) (h : ¬ p.ReachesTable) (typeGuid r : Nat → UInt8) :
    ((findPartition p typeGuid (some r)).code = 2 ∨ (findPartition p typeGuid (some r)).code = 3 ∨
      (findPartition p typeGuid (some r)).code = -2) ∧
    p.mbrCall ∈ (findPartition p typeGuid (some r)).reads ∧
    (checkMbr p.mbrBuffer = true → p.headerCall ∈ (findPartition p typeGuid (some r)).reads) := by
  have hmbr : p.mbr.code ≠ 0 := by
    rcases hp.mbr with hc | hc <;> have := hc.1 <;> omega
  have hheader : p.header.code ≠ 0 := by
    rcases hp.header with hc | hc <;> have := hc.1 <;> omega
  simp only [findPartition]
  rw [if_neg hmbr]
  by_cases hm : checkMbr p.mbrBuffer = true
  · rw [if_neg (not_not.mpr hm), if_neg hheader]
    by_cases hh : checkGptHeader p.headerBuffer = 0
    · have hno : tableBytes p.headerBuffer = 0 ∨ ¬ p.granted = true := by
        by_contra hc
        push Not at hc
        exact h ⟨hmbr, hm, hheader, hh, hc.1, hc.2⟩
      rw [if_neg (not_not.mpr hh), if_pos hno]
      simp
    · rw [if_pos hh]
      simp
  · rw [if_pos hm]
    simp [hm]

/-- Each read is made only if the call got to it. -/
theorem mem_reads {q : ReadCall} (h : q ∈ (findPartition p typeGuid (some r)).reads) :
    q = p.mbrCall ∨ (checkMbr p.mbrBuffer = true ∧ q = p.headerCall) ∨
      (p.ReachesTable ∧ q = p.tableCall) := by
  by_cases hreach : p.ReachesTable
  · have hall : q ∈ [p.mbrCall, p.headerCall, p.tableCall] := by
      rw [hreach.run] at h
      split at h
      · exact h
      · rwa [searchTable_reads] at h
    simp only [List.mem_cons, List.not_mem_nil, or_false] at hall
    rcases hall with hq | hq | hq
    · exact Or.inl hq
    · exact Or.inr (Or.inl ⟨hreach.isMbr, hq⟩)
    · exact Or.inr (Or.inr ⟨hreach, hq⟩)
  · simp only [findPartition] at h
    by_cases h1 : p.mbr.code = 0
    · rw [if_pos h1, List.mem_singleton] at h
      exact Or.inl h
    by_cases h2 : checkMbr p.mbrBuffer = true
    · have hboth : q ∈ [p.mbrCall, p.headerCall] := by
        rw [if_neg h1, if_neg (not_not.mpr h2)] at h
        split_ifs at h with h3 h4 h5 h6
        · exact h
        · exact h
        · exact h
        all_goals exact absurd ⟨h1, h2, h3, not_not.mp h4, fun hb => h5 (Or.inl hb),
          not_not.mp fun hg => h5 (Or.inr hg)⟩ hreach
      simp only [List.mem_cons, List.not_mem_nil, or_false] at hboth
      rcases hboth with hq | hq
      · exact Or.inl hq
      · exact Or.inr (Or.inl ⟨h2, hq⟩)
    · rw [if_neg h1, if_pos h2, List.mem_singleton] at h
      exact Or.inl h

/-! ## The entry found -/

/-- With the table in the sectors read, a walk over it finds only entries of it. -/
theorem searchTable_found (ht : p.table.Succeeds (tableSectors p.headerBuffer))
    (h0 : 0 < p.table.code) (hin : TableInRead p.headerBuffer)
    (hcode : (searchTable p typeGuid r).code = 0) :
    ∃ i < numPartitionEntries p.headerBuffer, ∃ w,
      (searchTable p typeGuid r).result = some w ∧
      (∀ x < partitionEntryBytes,
        i * sizePartitionEntry p.headerBuffer + x < 512 * tableSectors p.headerBuffer ∧
          w x = p.table.bytes (i * sizePartitionEntry p.headerBuffer + x)) ∧
      ∀ x < 16, w x = typeGuid x := by
  have hsec : tableSectors p.headerBuffer ≠ 0 := by
    have := ht.1
    omega
  rw [searchTable] at hcode ⊢
  cases hscan : scanEntries p.tableBuffer (sizePartitionEntry p.headerBuffer) typeGuid
      (numPartitionEntries p.headerBuffer) 0 with
  | none =>
      rw [hscan] at hcode
      have hfour : (4 : Int) = 0 := hcode
      omega
  | some off =>
      obtain ⟨j, -, hj, hoff, hmatch⟩ := scanEntries_some hscan
      rw [Nat.zero_add] at hj
      have hend := (inRead_iff hsec).mpr hin j hj
      have hexact : off = j * sizePartitionEntry p.headerBuffer := by
        rw [hoff]
        apply Nat.mod_eq_of_lt
        exact lt_of_le_of_lt (Nat.mul_le_mul_right _ hj.le) hin.1
      rw [← hoff, hexact] at hend
      refine ⟨j, hj, _, rfl, ?_, ?_⟩
      · intro x hx
        refine ⟨by omega, ?_⟩
        rw [copyEntry, if_pos hx, entryAt, PartitionInput.tableBuffer, ReadAnswer.into, hexact,
          if_pos (by rw [ht.2]; omega)]
      · intro x hx
        rw [copyEntry, if_pos (lt_trans hx (by decide))]
        exact hmatch x hx

/-- Where the table is not in the sectors read, some bytes of it make the call find what no disk held. -/
theorem exists_stale (hreach : p.ReachesTable)
    (ht : p.table.Succeeds (tableSectors p.headerBuffer)) (h0 : 0 < p.table.code)
    (hout : ¬ TableInRead p.headerBuffer) (r : Nat → UInt8) :
    ∃ bytes heap, ¬ Reports (p.withTable bytes heap) oneGuid (some r) := by
  have hsec : tableSectors p.headerBuffer ≠ 0 := by
    have := ht.1
    omega
  rw [← inRead_iff hsec] at hout
  obtain ⟨i, hi, hend, hfirst⟩ := exists_first_outside hout
  generalize hoff : entryOffset (sizePartitionEntry p.headerBuffer) i = off at *
  -- the last byte of the entry is behind the sectors, and no byte read is a 7
  refine ⟨oneAt off 0, oneAt off 7, ?_⟩
  intro hrep
  have hbuf : (p.withTable (oneAt off 0) (oneAt off 7)).tableBuffer = oneAt off 7 := by
    funext x
    show (if x < p.table.stored then oneAt off 0 x else oneAt off 7 x) = oneAt off 7 x
    by_cases hx : x < p.table.stored
    · have hne : x ≠ off + 127 := by
        rw [ht.2] at hx
        simp only [partitionEntryBytes] at hend
        omega
      rw [if_pos hx, oneAt, oneAt, if_neg hne, if_neg hne]
    · rw [if_neg hx]
  have hscan := (scan_oneAt (s := sizePartitionEntry p.headerBuffer) 7 hi (by decide)
    (by rwa [hoff])).1
  rw [hoff, ← hbuf] at hscan
  have hrun : findPartition (p.withTable (oneAt off 0) (oneAt off 7)) oneGuid (some r) =
      searchTable (p.withTable (oneAt off 0) (oneAt off 7)) oneGuid r := by
    rw [(hreach.withTable _ _).run, if_neg]
    exact ne_of_gt h0
  have hhead : (p.withTable (oneAt off 0) (oneAt off 7)).headerBuffer = p.headerBuffer := rfl
  obtain ⟨j, -, w, hw, hbytes, -⟩ := hrep.found (by rw [hrun, searchTable, hhead, hscan])
  rw [hrun, searchTable, hhead, hscan, hbuf, Option.some_inj] at hw
  have hlast := (hbytes 127 (by decide)).2
  rw [← hw, copyEntry, if_pos (by decide), entryAt, oneAt, if_neg (by omega), if_pos rfl] at hlast
  revert hlast
  show (7 : UInt8) = oneAt off 0 _ → False
  rw [oneAt]
  split_ifs <;> decide

/-! ## When a call reports what it should -/

/-- A call that does not return -1 has made no read that failed. -/
theorem Reports.reads_good (h : Reports p typeGuid result)
    (hcode : (findPartition p typeGuid result).code ≠ -1) :
    ∀ q ∈ (findPartition p typeGuid result).reads, 0 ≤ q.code := by
  intro q hq
  by_contra hneg
  exact hcode (h.failed q hq (not_le.mp hneg)).1

theorem ReadAnswer.succeeds {a : ReadAnswer} {n : Nat} (h : a.Succeeds n ∨ a.Fails n) (hcode : 0 ≤ a.code) :
    a.Succeeds n := by
  rcases h with hs | hf
  · exact hs
  · exact absurd hcode (not_le.mpr hf.1)

/-- A call that ends before the third read shows that the reads made before hold. -/
theorem Reports.early (hp : p.Conventional) (hreach : ¬ p.ReachesTable)
    (h : Reports p typeGuid (some r)) : p.ReadsHold := by
  obtain ⟨hcode, hm, hh⟩ := findPartition_early hp hreach typeGuid r
  have hgood := h.reads_good (by omega)
  refine ⟨?_, ?_, fun hc => absurd hc hreach⟩
  · rw [(ReadAnswer.succeeds hp.mbr (hgood _ hm)).1]
    decide
  · intro hmbr
    rw [(ReadAnswer.succeeds hp.header (hgood _ (hh hmbr))).1]
    decide

/-- A call that walks the entries shows that the three reads hold, but not that they got the table. -/
theorem Reports.walked (hreach : p.ReachesTable) (h0 : p.table.code ≠ 0)
    (h : Reports p typeGuid (some r)) : 0 < p.mbr.code ∧ 0 < p.header.code ∧ 0 < p.table.code := by
  have hrun : findPartition p typeGuid (some r) = searchTable p typeGuid r := by
    rw [hreach.run, if_neg h0]
  have hcode : (findPartition p typeGuid (some r)).code ≠ -1 := by
    rw [hrun]
    rcases searchTable_code p typeGuid r with hs | hs <;> omega
  have hgood := h.reads_good hcode
  rw [hrun, searchTable_reads] at hgood
  have hm : 0 ≤ p.mbr.code := hgood p.mbrCall (by simp)
  have hh : 0 ≤ p.header.code := hgood p.headerCall (by simp)
  have ht : 0 ≤ p.table.code := hgood p.tableCall (by simp)
  have hmne := hreach.mbr
  have hhne := hreach.header
  exact ⟨by omega, by omega, by omega⟩

/-- The empty read of the table ends the call as a failed one should. -/
theorem PartitionInput.ReachesTable.reports (hreach : p.ReachesTable) (h0 : p.table.code = 0) :
    Reports p typeGuid (some r) := by
  have hrun := hreach.run typeGuid r
  rw [if_pos h0] at hrun
  constructor
  · intro _ _ _
    rw [hrun]
    exact ⟨rfl, rfl, rfl⟩
  · intro hcode
    rw [hrun] at hcode
    have hneg : (-1 : Int) = 0 := hcode
    omega

theorem PartitionInput.ReadsHold.reports (hp : p.Conventional) (h : p.ReadsHold) :
    Reports p typeGuid (some r) := by
  constructor
  · intro q hq hneg
    exfalso
    rcases mem_reads hq with rfl | ⟨hm, rfl⟩ | ⟨hreach, rfl⟩
    · exact absurd hneg (not_lt.mpr (le_of_lt h.mbr))
    · exact absurd hneg (not_lt.mpr (le_of_lt (h.header hm)))
    · exact absurd hneg (not_lt.mpr (le_of_lt (h.table hreach).1))
  · intro hcode
    by_cases hreach : p.ReachesTable
    · obtain ⟨hpos, hin⟩ := h.table hreach
      rw [hreach.run, if_neg (ne_of_gt hpos)] at hcode ⊢
      exact searchTable_found (ReadAnswer.succeeds hp.table hpos.le) hpos hin hcode
    · have hearly := (findPartition_early hp hreach typeGuid r).1
      omega

theorem PartitionInput.ReadsHold.withTable (h : p.ReadsHold) (bytes heap : Nat → UInt8) :
    (p.withTable bytes heap).ReadsHold :=
  ⟨h.mbr, h.header, fun hreach => h.table hreach.of_withTable⟩

/-- Whatever the table holds, a call reports its read errors and finds only what was read exactly if no read
that it makes fails and the table lies in the sectors read, or its empty read of the table answers 0. -/
theorem reports_iff (hp : p.Conventional) (result : Option (Nat → UInt8)) :
    (∀ bytes heap typeGuid, Reports (p.withTable bytes heap) typeGuid result) ↔
      result = none ∨ (p.ReachesTable ∧ p.table.code = 0) ∨ p.ReadsHold := by
  cases result with
  | none =>
      refine ⟨fun _ => Or.inl rfl, ?_⟩
      intro _ bytes heap typeGuid
      exact ⟨by simp [findPartition], by simp [findPartition]⟩
  | some r =>
  constructor
  · intro h
    have hrep := h p.table.bytes p.heap oneGuid
    by_cases hreach : p.ReachesTable
    · by_cases h0 : p.table.code = 0
      · exact Or.inr (Or.inl ⟨hreach, h0⟩)
      obtain ⟨hm, hh, ht⟩ := hrep.walked hreach h0
      have hsucc : p.table.Succeeds (tableSectors p.headerBuffer) := ReadAnswer.succeeds hp.table ht.le
      refine Or.inr (Or.inr ⟨hm, fun _ => hh, fun _ => ⟨ht, ?_⟩⟩)
      by_contra hout
      obtain ⟨bytes, heap, hno⟩ := exists_stale hreach hsucc ht hout r
      exact hno (h bytes heap oneGuid)
    · exact Or.inr (Or.inr (hrep.early hp hreach))
  · rintro (hn | ⟨hreach, h0⟩ | hhold) bytes heap typeGuid
    · cases hn
    · exact (hreach.withTable bytes heap).reports h0
    · exact (hhold.withTable bytes heap).reports ⟨hp.mbr, hp.header, hp.table⟩

/-- A drive that fails its first read, with a sector of zeros on the stack. -/
def brokenDrive : PartitionInput where
  mbr := ⟨-2, 0, fun _ => 0⟩
  header := ⟨-2, 0, fun _ => 0⟩
  table := ⟨-2, 0, fun _ => 0⟩
  stack := fun _ => 0
  granted := true
  heap := fun _ => 0

theorem brokenDrive_conventional : brokenDrive.Conventional where
  mbr := Or.inr ⟨by decide, by decide⟩
  header := Or.inr ⟨by decide, by decide⟩
  table := Or.inr ⟨by decide, Nat.zero_le _⟩

theorem reports_iff_broken :
    (∀ bytes heap typeGuid, Reports (brokenDrive.withTable bytes heap) typeGuid (some fun _ => 0)) ↔
      (some fun _ => 0 : Option (Nat → UInt8)) = none ∨
        (brokenDrive.ReachesTable ∧ brokenDrive.table.code = 0) ∨ brokenDrive.ReadsHold :=
  reports_iff brokenDrive_conventional _

/-- Its failed read is reported as an MBR that is not valid. -/
theorem failed_read_is_invalid_mbr : brokenDrive.Conventional ∧
    brokenDrive.mbrCall.code < 0 ∧
    brokenDrive.mbrCall ∈ (findPartition brokenDrive oneGuid (some fun _ => 0)).reads ∧
    (findPartition brokenDrive oneGuid (some fun _ => 0)).code = 2 ∧
    ¬ Reports brokenDrive oneGuid (some fun _ => 0) := by
  have hmem : brokenDrive.mbrCall ∈ (findPartition brokenDrive oneGuid (some fun _ => 0)).reads :=
    List.mem_singleton.mpr rfl
  have hcode : (findPartition brokenDrive oneGuid (some fun _ => 0)).code = 2 := by decide
  refine ⟨brokenDrive_conventional, by decide, hmem, hcode, ?_⟩
  intro h
  have hcode' := (h.failed _ hmem (by decide)).1
  omega

end Os003
