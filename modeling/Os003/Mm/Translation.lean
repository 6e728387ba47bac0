import Os003.Mm.Paging

set_option autoImplicit false

/-! # Translation in software and in hardware

`virt_to_phys_on` takes everything above bit 11 of an entry for an address. The processor takes the
frame from bits 51:12 of a table entry, 51:21 of a page of 2 MiB and 51:30 of a page of 1 GiB
(`hardwareWalk`), so the two agree exactly when the other bits above bit 11 are clear in every entry on
the path (`virtToPhys_hardware_iff`): the execute-disable bit is one of them, and in the entry of a huge
page the bit for its memory type is another.

Physical memory ends at 2^52. A pointer to a table that lies behind is a fault, and the call does not
return.
-/

namespace Os003

namespace Paging

/-! ## The two walks -/

/-- `table[i]` for the table at `entry & PAGE_MASK`. -/
def readTable (mem : Mem) (entry : Word) (i : Nat) : Option Word :=
  if (entry &&& pageMask).toNat < 2 ^ 52 then some (mem (tableOf entry) i) else none

/-- `virt_to_phys_on`, with the faults of its reads. -/
def virtToPhysRead (mem : Mem) (pml4 v : Nat) : Option Word := do
  let pml4e := mem pml4 (pml4Index v)
  if !present pml4e then return 0
  if huge pml4e then return (pml4e &&& pageMask) + BitVec.ofNat 64 (v % 2 ^ 39)
  let pdpte ← readTable mem pml4e (pdptIndex v)
  if !present pdpte then return 0
  if huge pdpte then return (pdpte &&& pageMask) + BitVec.ofNat 64 (v % 2 ^ 30)
  let pde ← readTable mem pdpte (pdIndex v)
  if !present pde then return 0
  if huge pde then return (pde &&& pageMask) + BitVec.ofNat 64 (v % 2 ^ 21)
  let pte ← readTable mem pde (ptIndex v)
  if !present pte then return 0
  return (pte &&& pageMask) + BitVec.ofNat 64 (v % 2 ^ 12)

/-- The frame of an entry, bits 51 to `n`. -/
def frame (n : Nat) (entry : Word) : Nat := entry.toNat % 2 ^ 52 / 2 ^ n * 2 ^ n

/-- The page of the table that an entry leads the processor to. -/
def frameTable (entry : Word) : Nat := entry.toNat % 2 ^ 52 / pageSize

/-- The walk of the processor; 0 where an entry is not present. -/
def hardwareWalk (mem : Mem) (pml4 v : Nat) : Nat :=
  let pml4e := mem pml4 (pml4Index v)
  if !present pml4e then 0
  else
    let pdpte := mem (frameTable pml4e) (pdptIndex v)
    if !present pdpte then 0
    else if huge pdpte then frame 30 pdpte + v % 2 ^ 30
    else
      let pde := mem (frameTable pdpte) (pdIndex v)
      if !present pde then 0
      else if huge pde then frame 21 pde + v % 2 ^ 21
      else
        let pte := mem (frameTable pde) (ptIndex v)
        if !present pte then 0 else frame 12 pte + v % 2 ^ 12

/-! ## The condition -/

/-- Above bit 11 only bits of the frame are set: bits 63:52 and the bits below `n` are clear. -/
def FrameOnly (n : Nat) (entry : Word) : Prop :=
  entry.toNat < 2 ^ 52 ∧ entry.toNat / 2 ^ 12 % 2 ^ (n - 12) = 0

instance (n : Nat) (entry : Word) : Decidable (FrameOnly n entry) := inferInstanceAs (Decidable (_ ∧ _))

/-- Every present entry that the processor reads on its walk is so. -/
def PathFrames (mem : Mem) (pml4 v : Nat) : Prop :=
  let pml4e := mem pml4 (pml4Index v)
  present pml4e = true → FrameOnly 12 pml4e ∧
    let pdpte := mem (frameTable pml4e) (pdptIndex v)
    (present pdpte = true → if huge pdpte then FrameOnly 30 pdpte else FrameOnly 12 pdpte ∧
      let pde := mem (frameTable pdpte) (pdIndex v)
      (present pde = true → if huge pde then FrameOnly 21 pde else FrameOnly 12 pde ∧
        let pte := mem (frameTable pde) (ptIndex v)
        (present pte = true → FrameOnly 12 pte)))

section Walks

variable {mem : Mem} {pml4 v n i : Nat} {e : Word}

/-- The faulting version returns what `virtToPhysOn` gives. -/
theorem virtToPhysRead_eq {r : Word} (h : virtToPhysRead mem pml4 v = some r) :
    virtToPhysOn mem pml4 v = r := by
  have hread : ∀ {entry w : Word} {i : Nat}, readTable mem entry i = some w →
      mem (tableOf entry) i = w := by
    intro entry w i hw
    unfold readTable at hw
    split at hw
    · exact Option.some.inj hw
    · cases hw
  unfold virtToPhysRead at h
  unfold virtToPhysOn
  simp only [Option.pure_def, Option.bind_eq_bind] at h
  by_cases h1 : present (mem pml4 (pml4Index v)) = true
  · by_cases h2 : huge (mem pml4 (pml4Index v)) = true
    · simpa [h1, h2] using h
    · simp only [h1, h2, Bool.not_true, Bool.false_eq_true, if_false] at h ⊢
      obtain ⟨pdpte, hpdpte, h⟩ := Option.bind_eq_some_iff.mp h
      rw [hread hpdpte]
      by_cases h3 : present pdpte = true
      · by_cases h4 : huge pdpte = true
        · simpa [h3, h4] using h
        · simp only [h3, h4, Bool.not_true, Bool.false_eq_true, if_false] at h ⊢
          obtain ⟨pde, hpde, h⟩ := Option.bind_eq_some_iff.mp h
          rw [hread hpde]
          by_cases h5 : present pde = true
          · by_cases h6 : huge pde = true
            · simpa [h5, h6] using h
            · simp only [h5, h6, Bool.not_true, Bool.false_eq_true, if_false] at h ⊢
              obtain ⟨pte, hpte, h⟩ := Option.bind_eq_some_iff.mp h
              rw [hread hpte]
              by_cases h7 : present pte = true <;> simpa [h7] using h
          · simpa [h5] using h
      · simpa [h3] using h
  · simpa [h1] using h

/-- A table behind the end of memory is one whose entry has one of the bits 63:52 set. -/
theorem readTable_frame (h : FrameOnly 12 e) : readTable mem e i = some (mem (frameTable e) i) := by
  have hlt := h.1
  have hmask := toNat_and_pageMask e
  unfold readTable
  rw [if_pos, tableOf_eq, frameTable, Nat.mod_eq_of_lt hlt]
  rw [hmask]
  exact lt_of_le_of_lt (Nat.div_mul_le_self _ _) hlt

theorem readTable_fault (h : ¬ FrameOnly 12 e) : readTable mem e i = none := by
  have hge : 2 ^ 52 ≤ e.toNat := by
    by_contra hlt
    exact h ⟨by omega, Nat.mod_one _⟩
  unfold readTable
  rw [if_neg]
  rw [toNat_and_pageMask]
  simp only [pageSize]
  omega

/-- A read of a table goes on where the processor goes on, or is a fault. -/
theorem readTable_bind_iff {k : Word → Option Word} {r : Word} :
    (readTable mem e i).bind k = some r ↔ FrameOnly 12 e ∧ k (mem (frameTable e) i) = some r := by
  by_cases h : FrameOnly 12 e
  · rw [readTable_frame h]
    simp [h]
  · rw [readTable_fault h]
    simp [h]

/-- At the last entry the addresses agree exactly if only the frame is set. -/
theorem frame_add_iff (hn : n = 12 ∨ n = 21 ∨ n = 30) (x : Nat) :
    (e &&& pageMask) + BitVec.ofNat 64 x = BitVec.ofNat 64 (frame n e + x) ↔ FrameOnly n e := by
  have hlt := e.isLt
  have hmask := toNat_and_pageMask e
  have hframe : frame n e < 2 ^ 64 := by
    have h1 := Nat.div_mul_le_self (e.toNat % 2 ^ 52) (2 ^ n)
    have h2 := Nat.mod_lt e.toNat (show 0 < 2 ^ 52 by decide)
    unfold frame
    omega
  have hnat : e.toNat / pageSize * pageSize = frame n e ↔ FrameOnly n e := by
    unfold frame FrameOnly
    simp only [pageSize]
    rcases hn with rfl | rfl | rfl
    · norm_num
      omega
    · norm_num
      omega
    · norm_num
      omega
  rw [BitVec.ofNat_add, BitVec.add_left_inj, ← hnat, ← hmask, ← BitVec.toNat_inj,
    BitVec.toNat_ofNat, Nat.mod_eq_of_lt hframe]

end Walks

/-- `virt_to_phys_on` returns what the processor's walk gives exactly if no bit above bit 11 is set on
the path that does not belong to a frame. -/
theorem virtToPhys_hardware_iff (mem : Mem) (pml4 v : Nat)
    (hpml4 : ∀ i, huge (mem pml4 i) = false) :
    virtToPhysRead mem pml4 v = some (BitVec.ofNat 64 (hardwareWalk mem pml4 v)) ↔
      PathFrames mem pml4 v := by
  unfold virtToPhysRead hardwareWalk PathFrames
  simp only [Option.pure_def, Option.bind_eq_bind, hpml4]
  cases present (mem pml4 (pml4Index v)) with
  | false => simp
  | true =>
      simp only [Bool.not_true, Bool.false_eq_true, if_false, forall_const]
      rw [readTable_bind_iff]
      refine and_congr_right fun _ => ?_
      generalize mem (frameTable (mem pml4 (pml4Index v))) (pdptIndex v) = pdpte
      cases present pdpte with
      | false => simp
      | true =>
          simp only [Bool.not_true, Bool.false_eq_true, if_false, forall_const]
          by_cases h30 : huge pdpte = true
          · simp only [if_pos h30, Option.some.injEq]
            exact frame_add_iff (by decide) _
          · simp only [if_neg h30]
            rw [readTable_bind_iff]
            refine and_congr_right fun _ => ?_
            generalize mem (frameTable pdpte) (pdIndex v) = pde
            cases present pde with
            | false => simp
            | true =>
                simp only [Bool.not_true, Bool.false_eq_true, if_false, forall_const]
                by_cases h21 : huge pde = true
                · simp only [if_pos h21, Option.some.injEq]
                  exact frame_add_iff (by decide) _
                · simp only [if_neg h21]
                  rw [readTable_bind_iff]
                  refine and_congr_right fun _ => ?_
                  generalize mem (frameTable pde) (ptIndex v) = pte
                  cases present pte with
                  | false => simp
                  | true =>
                      simp only [Bool.not_true, Bool.false_eq_true, if_false, forall_const,
                        Option.some.injEq]
                      exact frame_add_iff (by decide) _

/-- The tables 1 to 4 map the page 0 to the page of the entry `pte`. -/
def oneMapping (pte : Word) : Mem := fun p i =>
  if i ≠ 0 then 0
  else if p = 1 then 0x2007
  else if p = 2 then 0x3007
  else if p = 3 then 0x4007
  else if p = 4 then pte
  else 0

theorem oneMapping_huge (pte : Word) (i : Nat) : huge (oneMapping pte 1 i) = false := by
  unfold oneMapping
  by_cases hi : i = 0
  · simp only [hi, ne_eq, not_true_eq_false, if_false, if_true]
    decide
  · simp only [hi, ne_eq, not_false_eq_true, if_true]
    decide

theorem virtToPhys_hardware_page :
    virtToPhysRead (oneMapping 0x5063) 1 0x123 =
      some (BitVec.ofNat 64 (hardwareWalk (oneMapping 0x5063) 1 0x123)) :=
  (virtToPhys_hardware_iff _ 1 0x123 (oneMapping_huge 0x5063)).mpr (by
    unfold PathFrames
    decide)

/-- A page that is not executable: its bit 63 is in the address that is returned. -/
theorem noExecute_in_address : (∀ i, huge (oneMapping 0x8000000000005003 1 i) = false) ∧
    virtToPhysRead (oneMapping 0x8000000000005003) 1 0 ≠
      some (BitVec.ofNat 64 (hardwareWalk (oneMapping 0x8000000000005003) 1 0)) :=
  ⟨oneMapping_huge _, by decide⟩

end Paging

end Os003
