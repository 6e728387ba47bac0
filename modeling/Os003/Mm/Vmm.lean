import Os003.Mm.Pmm
import Os003.Kernel.Thread

set_option autoImplicit false

/-! # Virtual memory

The virtual memory manager (`mm/vmm.c`): the addresses of a VMM are given out in ascending order, each
allocation is recorded, and `Vmm_Free` unmaps the pages and gives the physical pages behind them
back. The page table is kept as a map from virtual to physical pages.

`KillThread` frees the records of the thread's VMM in a loop up to `AllocRecordNum`, which each
`Vmm_Free` decrements, so that the loop meets itself in the middle: of `n` records it frees the first
`(n + 1) / 2` (`freeRecords_spec`).
-/

namespace Os003

/-- `VMM_ALLOC_RECORD`. -/
structure AllocRecord where
  address : Nat
  size : Nat
  deriving DecidableEq, Repr

/-- A `VMM_T` with its descriptor and its page table, and the calls of `Pmm_Free` made for it, latest
first. -/
structure VirtualMemory where
  isUser : Bool
  /-- `Descriptor->Address`. -/
  address : Nat
  /-- `Descriptor->PageSize`, the number of pages. -/
  pages : BitVec 64
  bytes : BitVec 64
  allocRecord : Nat → AllocRecord
  allocRecordNum : BitVec 32
  /-- The physical page behind a virtual page. -/
  entry : Nat → Option Nat
  frees : List Block

def userVirtualMemoryStart : Nat := 0x100000000

def kernelVirtualMemoryEnd : Nat := 0xFFFFFFFFFFFF0000

def userVirtualMemoryEnd : Nat := 0x7FFFFFFFFFFF

namespace VirtualMemory

def start (v : VirtualMemory) : Nat :=
  if v.isUser then userVirtualMemoryStart else kernelVirtualMemoryStart

def stop (v : VirtualMemory) : Nat :=
  if v.isUser then userVirtualMemoryEnd else kernelVirtualMemoryEnd

/-- `Init_Virtual_Memory_Manager` and `Init_User_Virtual_Memory_Manager`; the first page holds the
descriptor, in the physical page `desc`. -/
def init (isUser : Bool) (desc : Nat) : VirtualMemory where
  isUser := isUser
  address := (if isUser then userVirtualMemoryStart else kernelVirtualMemoryStart) + pageSize
  pages := 0
  bytes := 0
  allocRecord := fun _ => ⟨0, 0⟩
  allocRecordNum := 0
  entry := Function.update (fun _ => none)
    ((if isUser then userVirtualMemoryStart else kernelVirtualMemoryStart) / pageSize) (some desc)
  frees := []

/-- `Pmm_Free(addr, pages)`; the number of pages is an `int` there and a `uint32_t` behind it. -/
def pmmFree (addr pages : Nat) (v : VirtualMemory) : VirtualMemory :=
  { v with frees := ⟨addr, pages % 2 ^ 32⟩ :: v.frees }

/-- `virt_to_phys`: 0 when the page is not mapped. -/
def virtToPhys (v : VirtualMemory) (vaddr : Nat) : Nat :=
  match v.entry (vaddr / pageSize) with
  | some f => f * pageSize + vaddr % pageSize
  | none => 0

/-- `map_page` and `unmap_page`. -/
def setEntry (v : VirtualMemory) (vaddr : Nat) (f : Option Nat) : VirtualMemory :=
  { v with entry := Function.update v.entry (vaddr / pageSize) f }

end VirtualMemory

/-- `(size + PAGE_SIZE - 1) / PAGE_SIZE` in 64 bits. -/
def pagesFor (size : Nat) : Nat := (size + pageSize - 1) % 2 ^ 64 / pageSize

/-- The loop of `vmm_map_range` over the first `n` of the pages. -/
def vmmMapRange (virtStart : Nat) (phys : Nat → Nat) : Nat → VirtualMemory → VirtualMemory
  | 0, v => v
  | n + 1, v => (vmmMapRange virtStart phys n v).setEntry ((virtStart + n * pageSize) % 2 ^ 64)
      (some (phys n))

/-- `Vmm_Malloc`, when `Pmm_Malloc(1)` gives the physical pages `phys i`; 0 is none. -/
def vmmMalloc (size : Nat) (phys : Nat → Nat) (v : VirtualMemory) : Option Nat × VirtualMemory :=
  let pages := pagesFor size
  let allocBytes := pages * pageSize
  if size = 0 then (none, v)
  else if v.stop < (v.address + allocBytes) % 2 ^ 64 then (none, v)
  else
    match (List.range pages).find? fun i => phys i = 0 with
    | some i => (none, (List.range i).foldl (fun v j => v.pmmFree (phys j * pageSize) 1) v)
    -- one page too few: those before it are given back
    | none =>
        (some v.address, { vmmMapRange v.address phys pages v with
          address := (v.address + allocBytes) % 2 ^ 64
          bytes := v.bytes + BitVec.ofNat 64 allocBytes
          pages := v.pages + BitVec.ofNat 64 pages
          allocRecord := Function.update v.allocRecord v.allocRecordNum.toNat
            ⟨v.address, allocBytes⟩
          allocRecordNum := v.allocRecordNum + 1 })

/-- The body of the loop of `Vmm_Free`. -/
def freePage (virt i : Nat) (v : VirtualMemory) : VirtualMemory :=
  let vaddr := (virt + i * pageSize) % 2 ^ 64
  let phys := v.virtToPhys vaddr
  if phys ≠ 0 then (v.setEntry vaddr none).pmmFree phys 1 else v

/-- The loop of `Vmm_Free` over the first `n` pages. -/
def freePages (virt : Nat) : Nat → VirtualMemory → VirtualMemory
  | 0, v => v
  | n + 1, v => freePage virt n (freePages virt n v)

def vmmFree (virt size : Nat) (v : VirtualMemory) : VirtualMemory :=
  if virt = 0 ∨ size = 0 then v
  else if virt < v.start + pageSize ∨ v.address < virt then v
  else
    let pages := pagesFor size
    let v := freePages virt pages v
    { v with
      bytes := v.bytes - BitVec.ofNat 64 (pages * pageSize)
      pages := v.pages - BitVec.ofNat 64 pages
      allocRecordNum := v.allocRecordNum - 1 }

/-- The loop of `KillThread` over the records, from the record `i` on; each turn needs fuel. -/
def freeLoop : Nat → Nat → VirtualMemory → VirtualMemory
  | 0, _, v => v
  | fuel + 1, i, v =>
      if i < v.allocRecordNum.toNat then
        freeLoop fuel (i + 1) (vmmFree (v.allocRecord i).address (v.allocRecord i).size v)
      else v

/-- The number of records does not grow, so it is enough fuel. -/
def freeRecords (v : VirtualMemory) : VirtualMemory := freeLoop v.allocRecordNum.toNat 0 v

/-! ## Pages given back -/

/-- The virtual page is one of the record's. -/
def AllocRecord.HasPage (r : AllocRecord) (p : Nat) : Prop :=
  r.address / pageSize ≤ p ∧ p < r.address / pageSize + r.size / pageSize

/-- The physical page is one of the block's. -/
def Block.HoldsPage (b : Block) (f : Nat) : Prop :=
  b.addr / pageSize ≤ f ∧ f < b.addr / pageSize + b.pages

instance (b : Block) (f : Nat) : Decidable (b.HoldsPage f) := inferInstanceAs (Decidable (_ ∧ _))

/-- How many of the calls of `Pmm_Free` have given the physical page back. -/
def VirtualMemory.returned (v : VirtualMemory) (f : Nat) : Nat :=
  v.frees.countP fun b => b.HoldsPage f

section Pages

variable {v w : VirtualMemory} {rs : List AllocRecord} {r : AllocRecord} {virt size : Nat}
  {f i k n p q : Nat}

/-- The virtual pages from `q` to `q + n` have been unmapped and the pages behind them given back. -/
structure Unmapped (q n : Nat) (v w : VirtualMemory) : Prop where
  inside : ∀ p, q ≤ p → p < q + n → w.entry p = none
  outside : ∀ p, p < q ∨ q + n ≤ p → w.entry p = v.entry p
  back : ∀ p f, q ≤ p → p < q + n → v.entry p = some f → w.returned f = v.returned f + 1
  kept : ∀ f, (∀ p, q ≤ p → p < q + n → v.entry p ≠ some f) → w.returned f = v.returned f

theorem freePage_mapped (hp : (virt + i * pageSize) % 2 ^ 64 / pageSize = p)
    (he : v.entry p = some f) (hf : f ≠ 0) :
    (freePage virt i v).entry = Function.update v.entry p none ∧
      ∀ g, (freePage virt i v).returned g = v.returned g + if g = f then 1 else 0 := by
  have hphys : v.virtToPhys ((virt + i * pageSize) % 2 ^ 64) =
      f * pageSize + (virt + i * pageSize) % 2 ^ 64 % pageSize := by
    unfold VirtualMemory.virtToPhys
    rw [hp, he]
  have hoffset : (virt + i * pageSize) % 2 ^ 64 % pageSize < pageSize := Nat.mod_lt _ (by decide)
  have hne : v.virtToPhys ((virt + i * pageSize) % 2 ^ 64) ≠ 0 := by
    rw [hphys]
    have : 1 ≤ f := Nat.one_le_iff_ne_zero.mpr hf
    simp only [pageSize]
    omega
  have hpage : v.virtToPhys ((virt + i * pageSize) % 2 ^ 64) / pageSize = f := by
    rw [hphys]
    simp only [pageSize] at hoffset ⊢
    omega
  unfold freePage
  simp only [if_pos hne]
  refine ⟨?_, fun g => ?_⟩
  · show Function.update v.entry _ none = _
    rw [hp]
  · show List.countP _ (_ :: v.frees) = _
    rw [List.countP_cons]
    congr 1
    simp only [Block.HoldsPage, hpage, decide_eq_true_eq]
    by_cases hg : g = f
    · subst hg
      simp
    · rw [if_neg hg, if_neg]
      omega

/-- The loop of `Vmm_Free` over pages that are mapped to different physical pages. -/
theorem freePages_unmapped (hq : virt / pageSize = q) (hwrap : q + n ≤ 2 ^ 52)
    (hmapped : ∀ p, q ≤ p → p < q + n → ∃ f, f ≠ 0 ∧ v.entry p = some f)
    (hown : ∀ p p' f, q ≤ p → p < q + n → q ≤ p' → p' < q + n → v.entry p = some f →
      v.entry p' = some f → p = p') : Unmapped q n v (freePages virt n v) := by
  -- by the pages freed so far; the one freed next is still mapped, and to a page of its own
  induction n with
  | zero => exact ⟨fun p h1 h2 => by omega, fun _ _ => rfl, fun p f h1 h2 => by omega, fun _ _ => rfl⟩
  | succ n ih =>
      have hw := ih (by omega) (fun p h1 h2 => hmapped p h1 (by omega))
        (fun p p' f h1 h2 h3 h4 => hown p p' f h1 (by omega) h3 (by omega))
      obtain ⟨f, hf, he⟩ := hmapped (q + n) (by omega) (by omega)
      have hp : (virt + n * pageSize) % 2 ^ 64 / pageSize = q + n := by
        simp only [pageSize] at hq ⊢
        omega
      obtain ⟨hentry, hreturned⟩ := freePage_mapped hp
        ((hw.outside (q + n) (.inr le_rfl)).trans he) hf
      show Unmapped q (n + 1) v (freePage virt n (freePages virt n v))
      refine ⟨?_, ?_, ?_, ?_⟩
      · intro p h1 h2
        rw [hentry]
        by_cases hpn : p = q + n
        · rw [hpn, Function.update_self]
        · rw [Function.update_of_ne hpn]
          exact hw.inside p h1 (by omega)
      · intro p h
        rw [hentry, Function.update_of_ne (by omega)]
        exact hw.outside p (by omega)
      · intro p g h1 h2 hg
        rw [hreturned]
        by_cases hpn : p = q + n
        · -- the page behind the last one has not been given back before
          subst hpn
          obtain rfl : f = g := Option.some.inj (he.symm.trans hg)
          rw [if_pos rfl, hw.kept f fun p' h3 h4 h5 => ?_]
          have := hown p' (q + n) f h3 (by omega) h1 h2 h5 he
          omega
        · have hgf : g ≠ f := by
            rintro rfl
            exact hpn (hown p (q + n) g h1 h2 (by omega) (by omega) hg he)
          rw [hw.back p g h1 (by omega) hg, if_neg hgf, Nat.add_zero]
      · intro g hg
        have hgf : g ≠ f := by
          rintro rfl
          exact hg (q + n) (by omega) (by omega) he
        rw [hreturned, if_neg hgf, Nat.add_zero, hw.kept g fun p h1 h2 => hg p h1 (by omega)]

/-- The loop writes the page table and the calls only. -/
theorem freePages_rest (virt n : Nat) (v : VirtualMemory) : freePages virt n v =
    { v with entry := (freePages virt n v).entry, frees := (freePages virt n v).frees } := by
  induction n with
  | zero => rfl
  | succ n ih =>
      show freePage virt n (freePages virt n v) = { v with
        entry := (freePage virt n (freePages virt n v)).entry
        frees := (freePage virt n (freePages virt n v)).frees }
      rw [ih]
      unfold freePage
      dsimp only
      split <;> rfl

/-- A page is unmapped only if the loop comes to it. -/
theorem freePages_entry (virt n p : Nat) (v : VirtualMemory) :
    (freePages virt n v).entry p = v.entry p ∨
      (freePages virt n v).entry p = none ∧
        ∃ i < n, (virt + i * pageSize) % 2 ^ 64 / pageSize = p := by
  induction n with
  | zero => exact .inl rfl
  | succ n ih =>
      show (freePage virt n (freePages virt n v)).entry p = _ ∨
        (freePage virt n (freePages virt n v)).entry p = none ∧ _
      have hpage : (freePage virt n (freePages virt n v)).entry p = (freePages virt n v).entry p ∨
          (freePage virt n (freePages virt n v)).entry p = none ∧
            (virt + n * pageSize) % 2 ^ 64 / pageSize = p := by
        unfold freePage
        dsimp only
        split
        · by_cases hp : p = (virt + n * pageSize) % 2 ^ 64 / pageSize
          · refine .inr ⟨?_, hp.symm⟩
            show Function.update (freePages virt n v).entry
              ((virt + n * pageSize) % 2 ^ 64 / pageSize) none p = none
            rw [hp, Function.update_self]
          · exact .inl (Function.update_of_ne hp _ _)
        · exact .inl rfl
      rcases hpage with hsame | ⟨hnone, hp⟩
      · rw [hsame]
        exact ih.imp id fun h => ⟨h.1, h.2.imp fun i hi => ⟨by omega, hi.2⟩⟩
      · exact .inr ⟨hnone, n, by omega, hp⟩

/-! ## Live allocations -/

/-- The VMM holds the allocations `rs`, recorded in order: they lie behind one another, and their pages are
mapped to different physical pages. -/
structure Live (v : VirtualMemory) (rs : List AllocRecord) : Prop where
  num : v.allocRecordNum.toNat = rs.length
  record : ∀ i r, rs[i]? = some r → v.allocRecord i = r
  size : ∀ r ∈ rs, r.size ≠ 0 ∧ r.size % pageSize = 0 ∧ r.address % pageSize = 0
  inside : ∀ r ∈ rs, v.start + pageSize ≤ r.address ∧ r.address + r.size ≤ v.address
  low : v.start + pageSize ≤ v.address
  bound : v.address < 2 ^ 64 ∧ v.address % pageSize = 0
  disjoint : ∀ (i j : Nat) (r r' : AllocRecord) (p : Nat), rs[i]? = some r → rs[j]? = some r' →
    r.HasPage p → r'.HasPage p → i = j
  bytes : v.bytes = BitVec.ofNat 64 (rs.map fun r => r.size).sum
  pages : v.pages = BitVec.ofNat 64 (rs.map fun r => r.size / pageSize).sum
  mapped : ∀ r ∈ rs, ∀ p, r.HasPage p → ∃ f, f ≠ 0 ∧ v.entry p = some f
  own : ∀ r ∈ rs, ∀ r' ∈ rs, ∀ p p' f, r.HasPage p → r'.HasPage p' → v.entry p = some f →
    v.entry p' = some f → p = p'

theorem live_init (isUser : Bool) (desc : Nat) : Live (VirtualMemory.init isUser desc) [] where
  num := rfl
  record _ _ h := by cases h
  size _ h := by cases h
  inside _ h := by cases h
  low := le_rfl
  bound := by
    cases isUser
    · exact (by decide : kernelVirtualMemoryStart + pageSize < 2 ^ 64 ∧
        (kernelVirtualMemoryStart + pageSize) % pageSize = 0)
    · exact (by decide : userVirtualMemoryStart + pageSize < 2 ^ 64 ∧
        (userVirtualMemoryStart + pageSize) % pageSize = 0)
  disjoint _ _ _ _ _ h := by cases h
  bytes := rfl
  pages := rfl
  mapped _ h := by cases h
  own _ h := by cases h

theorem vmmMapRange_entry {phys : Nat → Nat} (hq : virt = q * pageSize)
    (hwrap : virt + n * pageSize < 2 ^ 64) (p : Nat) :
    (vmmMapRange virt phys n v).entry p =
      if q ≤ p ∧ p < q + n then some (phys (p - q)) else v.entry p := by
  induction n with
  | zero =>
      rw [if_neg (by omega)]
      rfl
  | succ n ih =>
      have hn : virt + n * pageSize < 2 ^ 64 := by
        rw [Nat.succ_mul] at hwrap
        omega
      have ih := ih hn
      have hpage : (virt + n * pageSize) % 2 ^ 64 / pageSize = q + n := by
        rw [Nat.mod_eq_of_lt hn]
        simp only [pageSize] at hq ⊢
        omega
      show Function.update (vmmMapRange virt phys n v).entry
        ((virt + n * pageSize) % 2 ^ 64 / pageSize) (some (phys n)) p = _
      rw [hpage]
      by_cases hp : p = q + n
      · subst hp
        rw [Function.update_self, if_pos (by omega), Nat.add_sub_cancel_left]
      · rw [Function.update_of_ne hp, ih]
        by_cases hin : q ≤ p ∧ p < q + n
        · rw [if_pos hin, if_pos (by omega)]
        · rw [if_neg hin, if_neg (by omega)]

theorem vmmMapRange_rest (virt n : Nat) (phys : Nat → Nat) (v : VirtualMemory) :
    vmmMapRange virt phys n v = { v with entry := (vmmMapRange virt phys n v).entry } := by
  induction n with
  | zero => rfl
  | succ n ih =>
      show (vmmMapRange virt phys n v).setEntry _ _ = _
      rw [ih]
      rfl

theorem AllocRecord.hasPage_iff {q k x : Nat} :
    AllocRecord.HasPage ⟨q * pageSize, k * pageSize⟩ x ↔ q ≤ x ∧ x < q + k := by
  unfold AllocRecord.HasPage
  rw [Nat.mul_div_cancel _ (by decide), Nat.mul_div_cancel _ (by decide)]

/-- The pages of the allocations lie below the next one. -/
theorem Live.page_lt (h : Live v rs) {r : AllocRecord} (hr : r ∈ rs) {p : Nat} (hp : r.HasPage p) :
    p < v.address / pageSize := by
  have hin := (h.inside r hr).2
  have hsz := h.size r hr
  have hbound := h.bound.2
  unfold AllocRecord.HasPage at hp
  simp only [pageSize] at hp hsz hbound ⊢
  omega

/-- What a call of `Vmm_Malloc` that returns an address has done. -/
theorem vmmMalloc_some {phys : Nat → Nat} {a : Nat} (hm : vmmMalloc size phys v = (some a, w)) :
    size ≠ 0 ∧ a = v.address ∧ (∀ i < pagesFor size, phys i ≠ 0) ∧
      w = { vmmMapRange v.address phys (pagesFor size) v with
        address := (v.address + pagesFor size * pageSize) % 2 ^ 64
        bytes := v.bytes + BitVec.ofNat 64 (pagesFor size * pageSize)
        pages := v.pages + BitVec.ofNat 64 (pagesFor size)
        allocRecord := Function.update v.allocRecord v.allocRecordNum.toNat
          ⟨v.address, pagesFor size * pageSize⟩
        allocRecordNum := v.allocRecordNum + 1 } := by
  unfold vmmMalloc at hm
  dsimp only at hm
  split at hm
  · cases hm
  rename_i hsize0
  split at hm
  · cases hm
  split at hm
  · cases hm
  rename_i hfind
  obtain ⟨ha, hw⟩ := Prod.mk.inj hm
  refine ⟨hsize0, (Option.some.inj ha).symm, ?_, hw.symm⟩
  intro i hi h0
  have := List.find?_eq_none.mp hfind i (List.mem_range.mpr hi)
  simp [h0] at this

/-- In the page table `entry` there are `n` pages behind the allocations `rs`, from page `q` on. -/
structure Behind (v : VirtualMemory) (rs : List AllocRecord) (q n : Nat) (phys : Nat → Nat)
    (entry : Nat → Option Nat) : Prop where
  below : ∀ r ∈ rs, ∀ p, r.HasPage p → p < q
  old : ∀ r ∈ rs, ∀ p, r.HasPage p → entry p = v.entry p
  new : ∀ p, q ≤ p → p < q + n → entry p = some (phys (p - q))

theorem Live.behind {phys : Nat → Nat} (h : Live v rs) (hq : v.address = q * pageSize)
    (hwrap : v.address + n * pageSize < 2 ^ 64) :
    Behind v rs q n phys (vmmMapRange v.address phys n v).entry := by
  have hbelow : ∀ r ∈ rs, ∀ p, r.HasPage p → p < q := by
    intro r hr p hp
    have hlt := h.page_lt hr hp
    rwa [hq, Nat.mul_div_cancel _ (by decide)] at hlt
  refine ⟨hbelow, ?_, ?_⟩
  · intro r hr p hp
    have := hbelow r hr p hp
    rw [vmmMapRange_entry hq hwrap, if_neg (by omega)]
  · intro p h1 h2
    rw [vmmMapRange_entry hq hwrap, if_pos ⟨h1, h2⟩]

section Behind

variable {phys : Nat → Nat} {entry : Nat → Option Nat} (hb : Behind v rs q n phys entry)
  (h : Live v rs)
include hb h

/-- The new pages are pages of no other allocation. -/
theorem Behind.disjoint {i j p : Nat} {r r' : AllocRecord}
    (hr : (rs ++ [⟨q * pageSize, n * pageSize⟩])[i]? = some r)
    (hr' : (rs ++ [⟨q * pageSize, n * pageSize⟩])[j]? = some r') (hp : r.HasPage p)
    (hp' : r'.HasPage p) : i = j := by
  rcases getElem?_concat_some hr with hi | ⟨rfl, rfl⟩ <;>
    rcases getElem?_concat_some hr' with hj | ⟨rfl, rfl⟩
  · exact h.disjoint i j r r' p hi hj hp hp'
  · have := hb.below r (List.mem_of_getElem? hi) p hp
    have := AllocRecord.hasPage_iff.mp hp'
    omega
  · have := hb.below r' (List.mem_of_getElem? hj) p hp'
    have := AllocRecord.hasPage_iff.mp hp
    omega
  · rfl

theorem Behind.mapped {p : Nat} {r : AllocRecord} (hphys : ∀ i < n, phys i ≠ 0)
    (hr : r ∈ rs ∨ r = ⟨q * pageSize, n * pageSize⟩) (hp : r.HasPage p) :
    ∃ f, f ≠ 0 ∧ entry p = some f := by
  rcases hr with hr | rfl
  · obtain ⟨f, hf, he⟩ := h.mapped r hr p hp
    exact ⟨f, hf, (hb.old r hr p hp).trans he⟩
  · obtain ⟨h1, h2⟩ := AllocRecord.hasPage_iff.mp hp
    exact ⟨_, hphys (p - q) (by omega), hb.new p h1 h2⟩

/-- No physical page is mapped twice. -/
theorem Behind.own {p p' f : Nat} {r r' : AllocRecord}
    (hfresh : ∀ i < n, ∀ r ∈ rs, ∀ p, r.HasPage p → v.entry p ≠ some (phys i))
    (hdistinct : ∀ i < n, ∀ j < n, phys i = phys j → i = j)
    (hr : r ∈ rs ∨ r = ⟨q * pageSize, n * pageSize⟩)
    (hr' : r' ∈ rs ∨ r' = ⟨q * pageSize, n * pageSize⟩) (hp : r.HasPage p) (hp' : r'.HasPage p')
    (hf : entry p = some f) (hf' : entry p' = some f) : p = p' := by
  -- an old page and a new one are never the same
  have hmixed : ∀ {x y : Nat} {a : AllocRecord}, a ∈ rs → a.HasPage x →
      AllocRecord.HasPage ⟨q * pageSize, n * pageSize⟩ y → entry x = some f →
      entry y = some f → False := by
    intro x y a ha hx hy hfx hfy
    obtain ⟨h1, h2⟩ := AllocRecord.hasPage_iff.mp hy
    have he := (hb.new y h1 h2).symm.trans hfy
    exact hfresh (y - q) (by omega) a ha x hx (((hb.old a ha x hx).symm.trans hfx).trans he.symm)
  rcases hr with hr | rfl <;> rcases hr' with hr' | rfl
  · exact h.own r hr r' hr' p p' f hp hp' ((hb.old r hr p hp).symm.trans hf)
      ((hb.old r' hr' p' hp').symm.trans hf')
  · exact absurd hf' (hmixed hr hp hp' hf)
  · exact absurd hf (hmixed hr' hp' hp hf')
  · obtain ⟨h1, h2⟩ := AllocRecord.hasPage_iff.mp hp
    obtain ⟨h3, h4⟩ := AllocRecord.hasPage_iff.mp hp'
    have he := (hb.new p h1 h2).symm.trans hf
    have he' := (hb.new p' h3 h4).symm.trans hf'
    have := hdistinct (p - q) (by omega) (p' - q) (by omega) (Option.some.inj (he.trans he'.symm))
    omega

end Behind

/-- `Vmm_Malloc` with pages that hold nothing else adds an allocation. -/
theorem Live.malloc {phys : Nat → Nat} {a : Nat} (h : Live v rs)
    (hm : vmmMalloc size phys v = (some a, w)) (hsize : size + pageSize ≤ 2 ^ 64)
    (hwrap : v.address + pagesFor size * pageSize < 2 ^ 64) (hnum : rs.length + 1 < 2 ^ 32)
    (hfresh : ∀ i < pagesFor size, ∀ r ∈ rs, ∀ p, r.HasPage p → v.entry p ≠ some (phys i))
    (hdistinct : ∀ i < pagesFor size, ∀ j < pagesFor size, phys i = phys j → i = j) :
    Live w (rs ++ [⟨a, pagesFor size * pageSize⟩]) := by
  obtain ⟨hsize0, rfl, hphys, rfl⟩ := vmmMalloc_some hm
  have hone : 1 ≤ pagesFor size := by
    unfold pagesFor
    simp only [pageSize] at hsize ⊢
    omega
  obtain ⟨q, hq⟩ : ∃ q, v.address = q * pageSize := ⟨v.address / pageSize, by
    have := h.bound.2
    simp only [pageSize] at this ⊢
    omega⟩
  have hmem : ∀ r ∈ rs ++ [⟨v.address, pagesFor size * pageSize⟩], r ∈ rs ∨
      r = ⟨q * pageSize, pagesFor size * pageSize⟩ := by
    intro r hr
    rw [← hq]
    exact (List.mem_append.mp hr).imp id List.mem_singleton.mp
  -- everything mapped so far lies below the address, the new block begins there
  have hb : Behind v rs q (pagesFor size) phys
      (vmmMapRange v.address phys (pagesFor size) v).entry := h.behind hq hwrap
  have hrest := vmmMapRange_rest v.address (pagesFor size) phys v
  rw [Nat.mod_eq_of_lt hwrap]
  generalize vmmMapRange v.address phys (pagesFor size) v = x at *
  have hxUser : x.isUser = v.isUser := by rw [hrest]
  refine ⟨?_, ?_, ?_, ?_, ?_, ?_, ?_, ?_, ?_, ?_, ?_⟩
  · -- the number of records, which does not wrap
    have hlt := v.allocRecordNum.isLt
    have hn := h.num
    have h1 : (1 : BitVec 32).toNat = 1 := rfl
    show (v.allocRecordNum + 1).toNat = _
    rw [BitVec.toNat_add, h1, hn, List.length_append, List.length_singleton]
    exact Nat.mod_eq_of_lt hnum
  · intro i r hr
    show Function.update v.allocRecord v.allocRecordNum.toNat _ i = r
    rw [h.num]
    rcases getElem?_concat_some hr with hr | ⟨rfl, rfl⟩
    · have hlt := (List.getElem?_eq_some_iff.mp hr).1
      rw [Function.update_of_ne (by omega)]
      exact h.record i r hr
    · rw [Function.update_self]
  · -- sizes and addresses are whole pages
    intro r hr
    rcases hmem r hr with hr | rfl
    · exact h.size r hr
    · refine ⟨?_, Nat.mul_mod_left _ _, Nat.mul_mod_left _ _⟩
      show pagesFor size * pageSize ≠ 0
      simp only [pageSize]
      omega
  · -- every block lies between the start of the space and the new address
    intro r hr
    show (if x.isUser then userVirtualMemoryStart else kernelVirtualMemoryStart) + pageSize ≤
      r.address ∧ r.address + r.size ≤ v.address + pagesFor size * pageSize
    rw [hxUser]
    show v.start + pageSize ≤ r.address ∧ r.address + r.size ≤
      v.address + pagesFor size * pageSize
    rcases hmem r hr with hr | rfl
    · have := h.inside r hr
      omega
    · rw [← hq]
      exact ⟨h.low, le_rfl⟩
  · show (if x.isUser then userVirtualMemoryStart else kernelVirtualMemoryStart) + pageSize ≤
      v.address + pagesFor size * pageSize
    rw [hxUser]
    exact h.low.trans (Nat.le_add_right _ _)
  · -- the new address
    refine ⟨hwrap, ?_⟩
    show (v.address + pagesFor size * pageSize) % pageSize = 0
    rw [Nat.add_mul_mod_self_right]
    exact h.bound.2
  · intro i j r r' p hr hr'
    rw [hq] at hr hr'
    exact hb.disjoint h hr hr'
  · -- the counters of bytes and pages
    show v.bytes + _ = _
    rw [h.bytes, List.map_append, List.sum_append, BitVec.ofNat_add]
    simp
  · show v.pages + _ = _
    rw [h.pages, List.map_append, List.sum_append, BitVec.ofNat_add]
    simp [pageSize]
  · exact fun r hr p hp => hb.mapped h hphys (hmem r hr) hp
  · exact fun r hr r' hr' p p' f hp hp' hf hf' =>
      hb.own h hfresh hdistinct (hmem r hr) (hmem r' hr') hp hp' hf hf'

/-- The first `k` of the allocations have been freed, each physical page once. -/
structure FreedTo (v : VirtualMemory) (rs : List AllocRecord) (k : Nat) (w : VirtualMemory) :
    Prop where
  isUser : w.isUser = v.isUser
  address : w.address = v.address
  allocRecord : w.allocRecord = v.allocRecord
  num : w.allocRecordNum.toNat = rs.length - k
  bytes : w.bytes = BitVec.ofNat 64 ((rs.drop k).map fun r => r.size).sum
  pages : w.pages = BitVec.ofNat 64 ((rs.drop k).map fun r => r.size / pageSize).sum
  unmapped : ∀ (j : Nat) (r : AllocRecord) (p : Nat), j < k → rs[j]? = some r → r.HasPage p →
    w.entry p = none
  entry : ∀ p, (∀ (j : Nat) (r : AllocRecord), j < k → rs[j]? = some r → ¬ r.HasPage p) →
    w.entry p = v.entry p
  back : ∀ (j : Nat) (r : AllocRecord) (p f : Nat), j < k → rs[j]? = some r → r.HasPage p →
    v.entry p = some f → w.returned f = v.returned f + 1
  kept : ∀ f, (∀ (j : Nat) (r : AllocRecord) (p : Nat), j < k → rs[j]? = some r →
    r.HasPage p → v.entry p ≠ some f) → w.returned f = v.returned f

theorem Live.freedTo (h : Live v rs) : FreedTo v rs 0 v where
  isUser := rfl
  address := rfl
  allocRecord := rfl
  num := h.num
  bytes := h.bytes
  pages := h.pages
  unmapped _ _ _ hj := absurd hj (Nat.not_lt_zero _)
  entry _ _ := rfl
  back _ _ _ _ hj := absurd hj (Nat.not_lt_zero _)
  kept _ _ := rfl

/-- An allocation is made of whole pages and does not wrap around. -/
theorem Live.pagesFor (h : Live v rs) (hr : r ∈ rs) : pagesFor r.size = r.size / pageSize ∧
    r.size / pageSize * pageSize = r.size ∧ r.address / pageSize + r.size / pageSize ≤ 2 ^ 52 ∧
    1 ≤ r.size / pageSize ∧ r.size < 2 ^ 64 := by
  obtain ⟨hsize, hwhole, haligned⟩ := h.size r hr
  obtain ⟨hstart, hstop⟩ := h.inside r hr
  have hbound := h.bound.1
  have hpos : pageSize ≤ r.address := by omega
  unfold Os003.pagesFor
  simp only [pageSize] at *
  omega

theorem ofNat_add_sub (a b : Nat) :
    BitVec.ofNat 64 (a + b) - BitVec.ofNat 64 a = BitVec.ofNat 64 b := by
  rw [BitVec.ofNat_add, BitVec.add_comm, BitVec.add_sub_cancel]

/-- The pages of the next allocation are as they were. -/
theorem FreedTo.entry_next (hL : Live v rs) (h : FreedTo v rs k w) (hk : rs[k]? = some r)
    (hp : r.HasPage p) : w.entry p = v.entry p := by
  refine h.entry p fun j r' hj hr' hp' => ?_
  have := hL.disjoint j k r' r p hr' hk hp' hp
  omega

/-- The pages of the next record are unmapped. -/
theorem FreedTo.unmaps (hL : Live v rs) (h : FreedTo v rs k w) (hk : rs[k]? = some r)
    (hvirt : virt / pageSize = r.address / pageSize) : Unmapped (r.address / pageSize)
      (r.size / pageSize) w (freePages virt (r.size / pageSize) w) := by
  have hr : r ∈ rs := List.mem_of_getElem? hk
  obtain ⟨_, _, hwrap, _, _⟩ := hL.pagesFor hr
  refine freePages_unmapped hvirt hwrap ?_ ?_
  · intro p h1 h2
    rw [h.entry_next hL hk ⟨h1, h2⟩]
    exact hL.mapped r hr p ⟨h1, h2⟩
  · intro p p' f h1 h2 h3 h4 hp hp'
    rw [h.entry_next hL hk ⟨h1, h2⟩] at hp
    rw [h.entry_next hL hk ⟨h3, h4⟩] at hp'
    exact hL.own r hr r hr p p' f ⟨h1, h2⟩ ⟨h3, h4⟩ hp hp'

/-- `Vmm_Free` frees the pages of the record and counts them. -/
theorem FreedTo.vmmFree_eq (hL : Live v rs) (h : FreedTo v rs k w) (hr : r ∈ rs)
    (hpages : Os003.pagesFor size = r.size / pageSize) (hsize : size ≠ 0)
    (hrange : v.start + pageSize ≤ virt ∧ virt ≤ v.address) :
    vmmFree virt size w = { freePages virt (r.size / pageSize) w with
      bytes := (freePages virt (r.size / pageSize) w).bytes - BitVec.ofNat 64 r.size
      pages := (freePages virt (r.size / pageSize) w).pages -
        BitVec.ofNat 64 (r.size / pageSize)
      allocRecordNum := (freePages virt (r.size / pageSize) w).allocRecordNum - 1 } := by
  obtain ⟨_, hwhole, -⟩ := hL.pagesFor hr
  have hstartW : w.start = v.start := by
    unfold VirtualMemory.start
    rw [h.isUser]
  unfold vmmFree
  rw [if_neg (by simp only [pageSize] at hrange; omega),
    if_neg (by rw [hstartW, h.address]; omega)]
  dsimp only
  rw [hpages, hwhole]

/-- A call of `Vmm_Free` on the pages of the next allocation frees it. -/
theorem FreedTo.step (hL : Live v rs) (h : FreedTo v rs k w) (hk : rs[k]? = some r)
    (hvirt : virt / pageSize = r.address / pageSize)
    (hpages : Os003.pagesFor size = r.size / pageSize) (hsize : size ≠ 0)
    (hrange : v.start + pageSize ≤ virt ∧ virt ≤ v.address) :
    FreedTo v rs (k + 1) (vmmFree virt size w) := by
  have hr : r ∈ rs := List.mem_of_getElem? hk
  have hlt : k < rs.length := (List.getElem?_eq_some_iff.mp hk).1
  have hdrop : rs.drop k = r :: rs.drop (k + 1) := by
    obtain ⟨_, hget⟩ := List.getElem?_eq_some_iff.mp hk
    rw [List.drop_eq_getElem_cons hlt, hget]
  have hU := h.unmaps hL hk hvirt
  have hrest := freePages_rest virt (r.size / pageSize) w
  rw [h.vmmFree_eq hL hr hpages hsize hrange]
  generalize freePages virt (r.size / pageSize) w = x at hU hrest
  refine ⟨?_, ?_, ?_, ?_, ?_, ?_, ?_, ?_, ?_, ?_⟩
  · rw [hrest]
    exact h.isUser
  · rw [hrest]
    exact h.address
  · rw [hrest]
    exact h.allocRecord
  · show (x.allocRecordNum - 1).toNat = _
    have hnum : x.allocRecordNum.toNat = rs.length - k := by
      rw [hrest]
      exact h.num
    have hone : (1 : BitVec 32).toNat = 1 := rfl
    have hlt32 := x.allocRecordNum.isLt
    rw [BitVec.toNat_sub, hnum, hone]
    omega
  · show x.bytes - _ = _
    have hbytes : x.bytes = w.bytes := by rw [hrest]
    rw [hbytes, h.bytes, hdrop, List.map_cons, List.sum_cons, ofNat_add_sub]
  · show x.pages - _ = _
    have hpages' : x.pages = w.pages := by rw [hrest]
    rw [hpages', h.pages, hdrop, List.map_cons, List.sum_cons, ofNat_add_sub]
  · intro j r' p hj hr' hp
    show x.entry p = none
    by_cases hjk : j = k
    · subst hjk
      obtain rfl : r = r' := Option.some.inj (hk.symm.trans hr')
      exact hU.inside p hp.1 hp.2
    · by_cases hin : r.HasPage p
      · exact hU.inside p hin.1 hin.2
      · rw [hU.outside p (by unfold AllocRecord.HasPage at hin; omega)]
        exact h.unmapped j r' p (by omega) hr' hp
  · intro p hp
    show x.entry p = v.entry p
    have hin := hp k r (by omega) hk
    rw [hU.outside p (by unfold AllocRecord.HasPage at hin; omega)]
    exact h.entry p fun j r' hj hr' => hp j r' (by omega) hr'
  · intro j r' p f hj hr' hp hf
    show x.returned f = _
    by_cases hjk : j = k
    · subst hjk
      obtain rfl : r = r' := Option.some.inj (hk.symm.trans hr')
      rw [hU.back p f hp.1 hp.2 ((h.entry_next hL hk hp).trans hf), h.kept f]
      -- no page before is mapped to the same physical page
      intro i r' p' hi hr' hp' hf'
      obtain rfl := hL.own r hr r' (List.mem_of_getElem? hr') p p' f hp hp' hf hf'
      have := hL.disjoint i j r' r p hr' hk hp' hp
      omega
    · rw [hU.kept f, h.back j r' p f (by omega) hr' hp hf]
      intro p' h1 h2 hf'
      rw [h.entry_next hL hk ⟨h1, h2⟩] at hf'
      obtain rfl := hL.own r' (List.mem_of_getElem? hr') r hr p p' f hp ⟨h1, h2⟩ hf hf'
      exact hjk (hL.disjoint j k r' r p hr' hk hp ⟨h1, h2⟩)
  · intro f hf
    show x.returned f = _
    rw [hU.kept f, h.kept f fun j r' p hj hr' hp => hf j r' p (by omega) hr' hp]
    intro p h1 h2 hf'
    rw [h.entry_next hL hk ⟨h1, h2⟩] at hf'
    exact hf k r p (by omega) hk ⟨h1, h2⟩ hf'

/-- The loop frees allocations until it has freed as many as are left. -/
theorem freeLoop_spec (hL : Live v rs) (h : FreedTo v rs i w) (hi : i ≤ (rs.length + 1) / 2)
    (hn : (rs.length + 1) / 2 ≤ i + n) :
    FreedTo v rs ((rs.length + 1) / 2) (freeLoop n i w) := by
  induction n generalizing i w with
  | zero =>
      obtain rfl : i = (rs.length + 1) / 2 := by omega
      exact h
  | succ n ih =>
      unfold freeLoop
      rw [h.num]
      by_cases hlt : i < rs.length - i
      · rw [if_pos hlt]
        have hin : i < rs.length := by omega
        have hget : rs[i]? = some rs[i] := List.getElem?_eq_getElem hin
        rw [h.allocRecord, hL.record i _ hget]
        have hr : rs[i] ∈ rs := List.getElem_mem hin
        have hrange := hL.inside _ hr
        exact ih (h.step hL hget rfl (hL.pagesFor hr).1 (hL.size _ hr).1
          ⟨hrange.1, by omega⟩) (by omega) (by omega)
      · rw [if_neg hlt]
        obtain rfl : i = (rs.length + 1) / 2 := by omega
        exact h

/-- `KillThread` frees the first half of the records. -/
theorem freeRecords_spec (h : Live v rs) :
    FreedTo v rs ((rs.length + 1) / 2) (freeRecords v) :=
  freeLoop_spec h h.freedTo (Nat.zero_le _) (by rw [h.num]; omega)

end Pages

end Os003
