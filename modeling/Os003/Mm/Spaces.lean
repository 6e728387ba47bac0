import Os003.Mm.Paging
import Os003.Mm.Vmm

set_option autoImplicit false

/-! # Address spaces

The address spaces of `mm/vmm.c` in memory: each `VMM_T` is in a page of its own, its page tables
are built by `map_page` under its own CR3, and its descriptor is in the first page of its addresses,
so that `Vmm_Malloc` and `Vmm_Free` reach it through the page tables.

`AllocRecord` is never set, so that the records of the allocations go to physical memory from address 0 on
(`writeRecord`).

An access through a page that is not mapped is a fault: such a call has no result.
-/

namespace Os003

namespace Paging

open State

/-! ## The fields of a `VMM_T` -/

/-- `KernelVirtualMemoryStart` or `UserVirtualMemoryStart`. -/
def startOf (isUser : Bool) : Nat := if isUser then userVirtualMemoryStart else kernelVirtualMemoryStart

def endOf (isUser : Bool) : Nat := if isUser then userVirtualMemoryEnd else kernelVirtualMemoryEnd

def flagOf (mem : Mem) (vmm : Nat) : Word := mem vmm 0

/-- `Descriptor`, an address of the space. -/
def descriptorOf (mem : Mem) (vmm : Nat) : Nat := (mem vmm 1).toNat

/-- The page at `Pml4`. -/
def pml4Of (mem : Mem) (vmm : Nat) : Nat := tableOf (mem vmm 2)

def allocRecordOf (mem : Mem) (vmm : Nat) : Nat := (mem vmm 3).toNat

def allocRecordNumOf (mem : Mem) (vmm : Nat) : BitVec 32 := (mem vmm 4).setWidth 32

def isUserOf (mem : Mem) (vmm : Nat) : Bool := (mem vmm 4).extractLsb' 32 8 != 0

/-- `AllocRecordNum` is stored; `isUser` is in the other half of the word. -/
def setAllocRecordNum (vmm : Nat) (n : BitVec 32) (s : State) : State :=
  s.write vmm 4 ((s.mem vmm 4).extractLsb' 32 32 ++ n)

/-! ## Access by addresses -/

/-- The word of memory at a physical address. -/
def storePhys (a : Nat) (w : Word) (s : State) : State := s.write (a / pageSize) (a % pageSize / 8) w

/-- The page and the word at a virtual address, by the tables in CR3. -/
def locate (s : State) (v : Nat) : Option (Nat × Nat) :=
  (leafOf s.mem 0 s.cr3 (indices v)).map fun (e, n) =>
    let a := ((e &&& pageMask) + BitVec.ofNat 64 (v % 2 ^ n)).toNat
    (a / pageSize, a % pageSize / 8)

def load (v : Nat) (s : State) : Option Word := (locate s v).map fun (p, i) => s.mem p i

def store (v : Nat) (w : Word) (s : State) : Option State := (locate s v).map fun (p, i) => s.write p i w

/-- `*v += w`. -/
def addTo (v : Nat) (w : Word) (s : State) : Option State := do
  let x ← load v s
  store v (x + w) s

/-! ## New address spaces -/

/-- Entries are copied from one table to another. -/
def copyEntries (src dest : Nat) (is : List Nat) (s : State) : State :=
  is.foldl (fun s i => s.write dest i (s.mem src i)) s

/-- `copy_pml4_entries`. -/
def copyPml4Entries (dest n : Nat) (s : State) : State := copyEntries s.uefiPml4 dest (List.range n) s

/-- The PML4 to copy from: that of the current VMM, if there is one. -/
def kernelPml4 (s : State) : Nat :=
  if s.current ≠ 0 ∧ s.mem s.current 2 ≠ 0 then pml4Of s.mem s.current else s.uefiPml4

/-- `copy_kernel_pml4_entries`. -/
def copyKernelPml4Entries (dest : Nat) (s : State) : State :=
  copyEntries (kernelPml4 s) dest (List.range' 256 256)
    (s.write dest 0 (s.mem (kernelPml4 s) 0 ||| pteUser ||| pteWritable))

/-- The entry for the gigabyte `i` instead of an entry of the old table. -/
def identityEntry (old : Word) (i : Nat) : Word :=
  if present old then
    if huge old then old ||| pteWritable
    else BitVec.ofNat 64 (i <<< 30) ||| ptePresent ||| pteWritable ||| pteHuge ||| pteAccessed
  else 0

/-- `replace_identity_pdpt`. The new table has been cleared, so that nothing is written where the old entry
is not present. -/
def replaceIdentityPdpt (pml4 : Nat) (s : State) : State :=
  let pml4e := s.mem pml4 0
  if !present pml4e then s
  else
    let old := tableOf pml4e
    let new := s.mallocPage.1
    let s := (List.range 512).foldl (fun s i =>
      if present (s.mem old i) then s.write new i (identityEntry (s.mem old i) i) else s) s.mallocPage.2
    s.write pml4 0 (addr new ||| (pml4e &&& ~~~pageMask) ||| pteWritable)

/-- `Init_Virtual_Memory_Manager` and `Init_User_Virtual_Memory_Manager`: the page of the new `VMM_T`, 0
when there are no pages for it. -/
def initVirtual (isUser : Bool) (flag : Word) (s : State) : Option (Nat × State) := do
  let (vmm, s) := s.pmmMalloc
  if vmm = 0 then return (0, s)
  let s := s.clear vmm
  let s := if isUser then s.write vmm 4 (1 <<< 32) else s
  let s := s.write vmm 0 flag
  let (pml4, s) := s.pmmMalloc
  if pml4 = 0 then return (0, s.pmmFree (addr vmm))
  let s := s.clear pml4
  let s := if isUser then copyKernelPml4Entries pml4 s else copyPml4Entries pml4 512 s
  let s := replaceIdentityPdpt pml4 s
  let (desc, s) := s.pmmMalloc
  if desc = 0 then return (0, (s.pmmFree (addr vmm)).pmmFree (addr pml4))
  let s := s.clear desc
  -- the descriptor is mapped through the new tables, and reached by `store` while they are loaded
  let saved := s.cr3
  let s := mapPage (startOf isUser) (addr desc) flag { s with cr3 := pml4 }
  let s := s.write vmm 1 (BitVec.ofNat 64 (startOf isUser))
  let s ← store (descriptorOf s.mem vmm) (BitVec.ofNat 64 (startOf isUser + pageSize)) s
  let s ← store (descriptorOf s.mem vmm + 16) 0 s
  let s ← store (descriptorOf s.mem vmm + 8) 0 s
  let s := s.write vmm 0 flag
  let s := s.write vmm 2 (addr pml4)
  let s := setAllocRecordNum vmm 0 s
  return (vmm, { s with cr3 := saved })

/-- `Switch_Virtual_Mamanager`. -/
def switchVirtual (vmm : Nat) (s : State) : State :=
  if vmm = 0 then s else { s with current := vmm, cr3 := pml4Of s.mem vmm }

/-! ## Allocation -/

/-- The loop of `Vmm_Malloc` for its physical pages, which gives them back when there is one too few. -/
def mallocPages : Nat → List Nat → State → Option (List Nat) × State
  | 0, ps, s => (some ps, s)
  | n + 1, ps, s =>
      if s.pmmMalloc.1 = 0 then (none, ps.foldl (fun s p => s.pmmFree (addr p)) s.pmmMalloc.2)
      else mallocPages n (ps ++ [s.pmmMalloc.1]) s.pmmMalloc.2

/-- `vmm_map_range` from the page `i` on. -/
def mapRange (virtStart : Nat) (flags : Word) : Nat → List Nat → State → State
  | _, [], s => s
  | i, p :: ps, s =>
      mapRange virtStart flags (i + 1) ps
        (mapPage ((virtStart + i * pageSize) % 2 ^ 64) (addr p) flags s)

/-- The record behind the last one, and their number; the fields are read again for each store. -/
def writeRecord (virtStart allocBytes : Nat) (s : State) : State :=
  let vmm := s.current
  let slot (s : State) := allocRecordOf s.mem vmm + 16 * (allocRecordNumOf s.mem vmm).toNat
  let s := storePhys (slot s % 2 ^ 64) (BitVec.ofNat 64 virtStart) s
  let s := storePhys ((slot s + 8) % 2 ^ 64) (BitVec.ofNat 64 allocBytes) s
  setAllocRecordNum vmm (allocRecordNumOf s.mem vmm + 1) s

/-- `Vmm_Malloc`; 0 is `NULL`. -/
def vmmMalloc (size : Nat) (s : State) : Option (Nat × State) := do
  if size = 0 then return (0, s)
  let desc := descriptorOf s.mem s.current
  if desc = 0 then return (0, s)
  let pages := pagesFor size
  let allocBytes := pages * pageSize
  let address ← load desc s
  -- the end of the block, which may wrap
  if endOf (isUserOf s.mem s.current) < (address.toNat + allocBytes) % 2 ^ 64 then return (0, s)
  let virtStart := address.toNat
  match mallocPages pages [] s with
  | (none, s) => return (0, s)
  | (some ps, s) =>
      let s := mapRange virtStart (flagOf s.mem s.current) 0 ps s
      let s ← addTo desc (BitVec.ofNat 64 allocBytes) s
      let s ← addTo (desc + 16) (BitVec.ofNat 64 allocBytes) s
      let s ← addTo (desc + 8) (BitVec.ofNat 64 pages) s
      return (virtStart, writeRecord virtStart allocBytes s)

/-- The loop of `Vmm_Free` from the page `i` on. -/
def freePagesFrom (virt : Nat) : Nat → Nat → State → State
  | _, 0, s => s
  | i, n + 1, s =>
      let v := (virt + i * pageSize) % 2 ^ 64
      let phys := s.virtToPhys v
      freePagesFrom virt (i + 1) n (if phys ≠ 0 then (unmapPage v s).pmmFree phys else s)

/-- `Vmm_Free`. -/
def vmmFree (virt size : Nat) (s : State) : Option State := do
  if s.current = 0 ∨ virt = 0 ∨ size = 0 then return s
  let pages := pagesFor size
  let desc := descriptorOf s.mem s.current
  if virt < startOf (isUserOf s.mem s.current) + pageSize then return s
  let address ← load desc s
  if address.toNat < virt then return s
  let s := freePagesFrom virt 0 pages s
  let s ← addTo (desc + 16) (-BitVec.ofNat 64 (pages * pageSize)) s
  let s ← addTo (desc + 8) (-BitVec.ofNat 64 pages) s
  return setAllocRecordNum s.current (allocRecordNumOf s.mem s.current - 1) s

end Paging

end Os003
