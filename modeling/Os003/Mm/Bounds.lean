import Os003.Mm.Vmm

set_option autoImplicit false

/-! # The size arithmetic of Vmm_Malloc

Before it takes a page, `Vmm_Malloc` rounds the size up to whole pages, adds the bytes to the address
of the descriptor and compares the sum with the end of the VMM, all in 64 bits. Both additions
can wrap: the first one for the 4095 sizes at the top, which round up to no page at all, the
second one for a request that reaches past the top of the address space. A sum that has wrapped is
below the address it started from, so a wrapped request passes every time (`bounds_iff`).
-/

namespace Os003

variable {v : VirtualMemory} {size : Nat}

namespace VirtualMemory

/-- The tests of `Vmm_Malloc` before it takes a page. -/
def PassesBoundCheck (v : VirtualMemory) (size : Nat) : Prop :=
  size ≠ 0 ∧ ¬ v.stop < (v.address + pagesFor size * pageSize) % 2 ^ 64

instance : Decidable (v.PassesBoundCheck size) := by
  unfold PassesBoundCheck
  infer_instance

/-- The address of the descriptor lies within the bounds of the VMM. -/
structure Within (v : VirtualMemory) : Prop where
  start_le : v.start ≤ v.address
  le_stop : v.address ≤ v.stop

/-- What the check is for: the pages hold the request and end inside the VMM. -/
def Fits (v : VirtualMemory) (size : Nat) : Prop :=
  size ≤ pagesFor size * pageSize ∧ v.address + pagesFor size * pageSize ≤ v.stop

instance : Decidable (v.Fits size) := by
  unfold Fits
  infer_instance

theorem stop_lt (v : VirtualMemory) : v.stop < 2 ^ 64 := by
  unfold stop
  split <;> decide

/-- A new VMM gives out the addresses behind the page of its descriptor. -/
theorem init_within (isUser : Bool) (desc : Nat) : (init isUser desc).Within := by
  cases isUser with
  | false => exact ⟨(by decide : kernelVirtualMemoryStart ≤ kernelVirtualMemoryStart + pageSize),
      (by decide : kernelVirtualMemoryStart + pageSize ≤ kernelVirtualMemoryEnd)⟩
  | true => exact ⟨(by decide : userVirtualMemoryStart ≤ userVirtualMemoryStart + pageSize),
      (by decide : userVirtualMemoryStart + pageSize ≤ userVirtualMemoryEnd)⟩

end VirtualMemory

open VirtualMemory

/-! ## The check and the call -/

/-- A request that does not pass gets nothing and changes nothing. -/
theorem vmmMalloc_out_of_bounds {phys : Nat → Nat} (h : ¬ v.PassesBoundCheck size) :
    vmmMalloc size phys v = (none, v) := by
  rw [PassesBoundCheck, not_and_not_right] at h
  by_cases hs : size = 0
  · simp [vmmMalloc, hs]
  · simp only [vmmMalloc]
    rw [if_neg hs, if_pos (h hs)]

/-- A request that passes gets the address of the descriptor as soon as it gets its pages. -/
theorem vmmMalloc_passes {phys : Nat → Nat} (h : v.PassesBoundCheck size)
    (hp : ∀ i < pagesFor size, phys i ≠ 0) : (vmmMalloc size phys v).1 = some v.address := by
  have hfind : ((List.range (pagesFor size)).find? fun i => phys i = 0) = none := by
    rw [List.find?_eq_none]
    intro i hi
    simpa using hp i (List.mem_range.mp hi)
  simp only [vmmMalloc]
  rw [if_neg h.1, if_neg h.2, hfind]

/-- The check decides which requests can succeed. -/
theorem passesBoundCheck_iff :
    v.PassesBoundCheck size ↔ ∃ phys, (vmmMalloc size phys v).1.isSome := by
  constructor
  · intro h
    refine ⟨fun _ => 1, ?_⟩
    rw [vmmMalloc_passes h fun _ _ => by omega]
    rfl
  · rintro ⟨phys, h⟩
    by_contra hc
    rw [vmmMalloc_out_of_bounds hc] at h
    simp at h

/-! ## The two sums -/

/-- Rounding up wraps for the sizes above 2^64 - 4096 only, and then to no page. -/
theorem pagesFor_wrapped (hs : 2 ^ 64 ≤ size + 4095) (hlt : size < 2 ^ 64) : pagesFor size = 0 := by
  simp only [pagesFor, pageSize]
  omega

theorem pagesFor_exact (hs : size + 4095 < 2 ^ 64) : pagesFor size = (size + 4095) / 4096 := by
  simp only [pagesFor, pageSize]
  rw [show size + 4096 - 1 = size + 4095 by omega, Nat.mod_eq_of_lt hs]

/-- A sum that wraps ends below the address it started from. -/
theorem passes_of_wrapped (hw : v.Within) (h0 : 0 < size)
    (h : 2 ^ 64 ≤ v.address + pagesFor size * pageSize) : v.PassesBoundCheck size := by
  have hstop := v.stop_lt
  have hle := hw.le_stop
  have hbytes : pagesFor size * pageSize < 2 ^ 64 := by
    simp only [pagesFor, pageSize]
    omega
  refine ⟨by omega, ?_⟩
  rw [not_lt]
  calc (v.address + pagesFor size * pageSize) % 2 ^ 64
      ≤ v.address := by omega
    _ ≤ v.stop := hle

/-- The check keeps its promise for a size exactly when neither sum wraps. -/
theorem bounds_iff (h0 : 0 < size) (hlt : size < 2 ^ 64) (hw : v.Within) :
    (v.PassesBoundCheck size → v.Fits size) ↔
      size + 4095 < 2 ^ 64 ∧ v.address + (size + 4095) / 4096 * 4096 < 2 ^ 64 := by
  have hstop := v.stop_lt
  constructor
  · intro h
    -- the request whose rounding wraps passes with no page
    have hs : size + 4095 < 2 ^ 64 := by
      by_contra hc
      have hpages := pagesFor_wrapped (not_lt.mp hc) hlt
      have hpass : v.PassesBoundCheck size := by
        refine ⟨by omega, ?_⟩
        rw [hpages, Nat.zero_mul, Nat.add_zero, not_lt]
        exact le_trans (Nat.mod_le _ _) hw.le_stop
      have hfit := (h hpass).1
      rw [hpages] at hfit
      omega
    refine ⟨hs, ?_⟩
    rw [← pagesFor_exact hs]
    by_contra hc
    have hfit := (h (passes_of_wrapped hw h0 (not_lt.mp hc))).2
    simp only [pageSize] at hfit
    omega
  · rintro ⟨hs, hsum⟩ ⟨-, hpass⟩
    rw [← pagesFor_exact hs] at hsum
    have hsum' : v.address + pagesFor size * pageSize < 2 ^ 64 := hsum
    rw [Nat.mod_eq_of_lt hsum', not_lt] at hpass
    refine ⟨?_, hpass⟩
    rw [pagesFor_exact hs]
    simp only [pageSize]
    omega

/-- One page of a new kernel VMM. -/
theorem bounds_iff_page : ((VirtualMemory.init false 1).PassesBoundCheck 0x1000 →
    (VirtualMemory.init false 1).Fits 0x1000) ↔ 0x1000 + 4095 < 2 ^ 64 ∧
      (VirtualMemory.init false 1).address + (0x1000 + 4095) / 4096 * 4096 < 2 ^ 64 :=
  bounds_iff (by decide) (by decide) (init_within false 1)

/-- A request for 2^64 - 1 bytes passes in a new kernel VMM and is given a range of no pages. One for
2^47 bytes passes too: it ends behind the top of the address space. -/
theorem passes_all_bytes : (VirtualMemory.init false 1).Within ∧
    ((VirtualMemory.init false 1).PassesBoundCheck (2 ^ 64 - 1) ∧
      ¬ (VirtualMemory.init false 1).Fits (2 ^ 64 - 1)) ∧
    (VirtualMemory.init false 1).PassesBoundCheck (2 ^ 47) ∧
      ¬ (VirtualMemory.init false 1).Fits (2 ^ 47) := by
  refine ⟨init_within false 1, ?_⟩
  decide

/-! ## The address stays within the bounds -/

theorem foldl_pmmFree_bounds (js : List Nat) (phys : Nat → Nat) (v : VirtualMemory) :
    let w := js.foldl (fun v j => v.pmmFree (phys j * pageSize) 1) v
    w.isUser = v.isUser ∧ w.address = v.address := by
  induction js generalizing v with
  | nil => exact ⟨rfl, rfl⟩
  | cons j js ih => exact ih (v.pmmFree (phys j * pageSize) 1)

/-- A call whose request fits when it passes keeps the address within the bounds, whatever the
physical allocator answers. -/
theorem VirtualMemory.Within.malloc {phys : Nat → Nat} (hw : v.Within)
    (hfit : v.PassesBoundCheck size → v.Fits size) : (vmmMalloc size phys v).2.Within := by
  by_cases hpass : v.PassesBoundCheck size
  · have hend := (hfit hpass).2
    have hexact : (v.address + pagesFor size * pageSize) % 2 ^ 64 =
        v.address + pagesFor size * pageSize :=
      Nat.mod_eq_of_lt (lt_of_le_of_lt hend v.stop_lt)
    have hstart := hw.start_le
    simp only [vmmMalloc]
    rw [if_neg hpass.1, if_neg hpass.2]
    cases (List.range (pagesFor size)).find? fun i => phys i = 0 with
    | some i =>
        obtain ⟨huser, haddr⟩ := foldl_pmmFree_bounds (List.range i) phys v
        constructor
        · simpa only [start, huser, haddr] using hstart
        · simpa only [stop, huser, haddr] using hw.le_stop
    | none =>
        have hrest := vmmMapRange_rest v.address (pagesFor size) phys v
        have huser : (vmmMapRange v.address phys (pagesFor size) v).isUser = v.isUser := by
          rw [hrest]
        constructor
        · simp only [start, huser, hexact]
          exact le_trans hstart (Nat.le_add_right _ _)
        · simpa only [stop, huser, hexact] using hend
  · rw [vmmMalloc_out_of_bounds hpass]
    exact hw

end Os003
