import Os003.Lib.Words
import Os003.Mm.BootMap

set_option autoImplicit false

/-! # The table in memory

The table of regions and its bitmaps in the memory at `OsDescAddr`. The bitmap of an entry begins directly
behind the entry, which is where the next entry goes: a region that has pages and is not the last one has
its bitmap in the entries behind it, and marking its pages changes them. The last entry has its bitmap
behind the table. So the table is kept exactly if no region but the last one has available pages
(`metadata_kept_iff`).
-/

namespace Os003

open Bytes

/-- A memory map with the memory for the table, as the boot loader leaves them: words of 64 bits, a physical
address, and no more descriptors than an `int32_t` counts. -/
structure FirmwareMap extends UefiMemoryMap where
  osDescAddr : Nat
  words : ∀ edc ∈ buffer, edc.physicalStart < 2 ^ 64 ∧ edc.virtualStart < 2 ^ 64 ∧
    edc.numberOfPages < 2 ^ 64
  physical : osDescAddr < 2 ^ 52
  few : buffer.length < 2 ^ 31

/-! ## Bitmaps in memory

A `bitmap_t` at address `p` has its `bit_size` there and its `bits` 8 bytes behind. -/

def bitSizeAt (d : Nat → UInt8) (p : Nat) : Nat := loadLe d p 4

def bitsAt (d : Nat → UInt8) (p : Nat) : Nat := loadLe d (p + 8) 8

/-- `BitmapBitSize`, with its `uint32_t`. -/
def bitmapBitSize (bitSize : Nat) : Nat := (bitSize + 8 - 1) % 2 ^ 32 / 8

/-- `BitmapInit` with the value 0. -/
def memBitmapInit (p bits bitSize : Nat) (d : Nat → UInt8) : Nat → UInt8 :=
  let d := storeLe d p 4 bitSize
  let d := storeLe d (p + 8) 8 bits
  fill d bits (bitmapBitSize (bitSize % 2 ^ 32)) 0

/-- The byte of the bit `index`. -/
def bitByte (d : Nat → UInt8) (p index : Nat) : Nat := (bitsAt d p + index / 8) % 2 ^ 64

/-- `BitmapGetBit`. -/
def memGetBit (d : Nat → UInt8) (p index : Nat) : Bool :=
  (d (bitByte d p index)).toNat.testBit (index % 8)

/-- One bit is set or cleared. -/
def memPutBit (p index : Nat) (value : Bool) (d : Nat → UInt8) : Nat → UInt8 :=
  let byte := d (bitByte d p index)
  let mask := (1 : UInt8) <<< UInt8.ofNat (index % 8)
  Function.update d (bitByte d p index) (if value then byte ||| mask else byte &&& ~~~mask)

/-- The loop of `BitmapSetBits`, with `n` turns to go. -/
def memSetBits (p : Nat) (value : Bool) : Nat → Nat → (Nat → UInt8) → Nat → UInt8
  | 0, _, d => d
  | n + 1, index, d =>
      if index < bitSizeAt d p then memSetBits p value n (index + 1) (memPutBit p index value d) else d

/-- The inner loop of `BitmapAllocBits`, with `n` turns to go. -/
def memRunLoop (d : Nat → UInt8) (p : Nat) (value : Bool) : Nat → Nat → RunExit
  | 0, _ => .full
  | n + 1, sidx =>
      if sidx < bitSizeAt d p then
        -- the search goes on behind the bit that ends the run
        if memGetBit d p sidx ≠ value then .broken (sidx + 1) else memRunLoop d p value n (sidx + 1)
      else .atEnd

/-- The outer loop of `BitmapAllocBits`: the index found, and the memory. -/
def memAllocLoop (p : Nat) (value : Bool) (size : Nat) (d : Nat → UInt8) :
    Nat → Nat → Option Nat × (Nat → UInt8)
  | 0, _ => (none, d)
  | fuel + 1, sidx =>
      if sidx < bitSizeAt d p then
        if memGetBit d p sidx ≠ value then memAllocLoop p value size d fuel (sidx + 1)
        else
          match memRunLoop d p value (size - 1) sidx with
          | .full => (some sidx, memSetBits p true size sidx d)
          | .broken next => memAllocLoop p value size d fuel next
          -- the map ends within the run: the index is returned, and no bit is set
          | .atEnd => (some sidx, d)
      else (none, d)

/-- `BitmapAllocBits`. -/
def memAllocBits (p : Nat) (value : Bool) (size : Nat) (d : Nat → UInt8) :
    Option Nat × (Nat → UInt8) :=
  memAllocLoop p value size d (bitSizeAt d p) 0

/-! ## The table -/

/-- `sizeof(OS_MEMORY_DESCRIPTOR)`. -/
def descriptorSize : Nat := 48

/-- `&MemDescAddr[i]`. -/
def descAt (memDescAddr i : Nat) : Nat := memDescAddr + descriptorSize * i

def typeAt (d : Nat → UInt8) (a : Nat) : Nat := loadLe d a 4

def startAt (d : Nat → UInt8) (a : Nat) : Nat := loadLe d (a + 8) 8

def pagesAt (d : Nat → UInt8) (a : Nat) : Nat := loadLe d (a + 24) 8

/-- `&MemDescAddr[i].bitmap`. -/
def bitmapOf (a : Nat) : Nat := a + 32

/-- `OS_USED_MEMORY`, `OS_AVAILABLE_MEMORY` and `OS_UNAVAILABLE_MEMORY`. -/
def MemoryType.code : MemoryType → Nat
  | .used => 0
  | .available => 1
  | .unavailable => 2

/-- The fields of a new entry, without its bitmap. -/
def storeDescriptor (a : Nat) (type : MemoryType) (edc : UefiMemoryDescriptor) (d : Nat → UInt8) :
    Nat → UInt8 :=
  let d := storeLe d (a + 8) 8 edc.physicalStart
  let d := storeLe d (a + 16) 8 edc.virtualStart
  let d := storeLe d (a + 24) 8 edc.numberOfPages
  storeLe d a 4 type.code

/-- The bitmap of the entry `a`, behind the entry. -/
def initBitmap (a pages : Nat) (d : Nat → UInt8) : Nat → UInt8 :=
  memBitmapInit (bitmapOf a) (a + descriptorSize) pages d

/-- One turn of the loop of `Init_Physical_Memory_Manager`: `MemDescNum` and the memory. -/
def memInitStep (memDescAddr stackAddr : Nat) (s : Nat × (Nat → UInt8)) (edc : UefiMemoryDescriptor) :
    Nat × (Nat → UInt8) :=
  let (num, d) := s
  let last := descAt memDescAddr (num - 1)
  let new := descAt memDescAddr num
  let behind := (startAt d last + pagesAt d last * 2 ^ pageShift) % 2 ^ 64
  if edc.physicalStart = 0 then (num, d)
  else if isMemoryAvailable stackAddr edc then
    if num = 0 ∨ typeAt d last ≠ MemoryType.available.code ∨ edc.physicalStart ≠ behind then
      (num + 1, initBitmap new edc.numberOfPages (storeDescriptor new .available edc d))
    else
      -- the last region grows, and its bitmap is cleared for the new size
      let d := storeLe d (last + 24) 8 (pagesAt d last + edc.numberOfPages)
      (num, initBitmap last (pagesAt d last) d)
  else
    if num = 0 ∨ typeAt d last ≠ MemoryType.unavailable.code ∨ edc.physicalStart ≠ behind then
      (num + 1, storeDescriptor new .unavailable edc d)
    else (num, storeLe d (last + 24) 8 (pagesAt d last + edc.numberOfPages))

/-- `Init_Physical_Memory_Manager` behind its checks. -/
def memInit (map : FirmwareMap) (d : Nat → UInt8) : Nat × (Nat → UInt8) :=
  map.buffer.foldl (memInitStep map.osDescAddr map.stackAddr) (0, d)

/-- `UEFI_MEMORY_MAP` with the fields that `CheckMemoryMap` looks at; `MapSize / DescriptorSize` descriptors
lie behind `Buffer`. -/
structure HeadedMap extends FirmwareMap where
  mapSize : Nat
  descriptorSize : Nat
  descriptorVersion : Nat
  bufferAddr : Nat
  counted : buffer.length = mapSize / descriptorSize % 2 ^ 32

/-- `CheckMemoryMap`: how many of the fields are missing. -/
def checkMemoryMap (map : HeadedMap) : Nat :=
  [map.bufferAddr, map.mapSize, map.descriptorSize, map.descriptorVersion, map.stackAddr].count 0

/-- `MemDescAddr`, `MemDescNum` and the memory. -/
structure PmmGlobals where
  memDescAddr : Nat
  memDescNum : Nat
  memory : Nat → UInt8

/-- A line of `out_error` or `out_ok`. -/
inductive StatusLine
  | error (text : String)
  | ok (text : String)
  deriving DecidableEq, Repr

/-- `Init_Physical_Memory_Manager` with the checks before its loop: what it returns and prints. -/
def memInitChecked (map : HeadedMap) (s : PmmGlobals) : Nat × StatusLine × PmmGlobals :=
  if checkMemoryMap map ≠ 0 then
    (1, .error "Physical Memory Manager initialization failed: UEFI Memory Map not found\n", s)
  else if map.osDescAddr = 0 then
    (2, .error "Physical Memory Manager initialization failed: UEFI Memory Desc not found\n",
      { s with memDescAddr := 0 })
  else
    let (num, d) := memInit map.toFirmwareMap s.memory
    (0, .ok "Physical Memory Manager initialization successful\n", ⟨map.osDescAddr, num, d⟩)

/-- The loop of `Pmm_Malloc`, with `n` entries to go. -/
def memMallocLoop (memDescAddr pages : Nat) : Nat → Nat → (Nat → UInt8) → Nat × (Nat → UInt8)
  | 0, _, d => (0, d)
  | n + 1, i, d =>
      let a := descAt memDescAddr i
      if typeAt d a = MemoryType.available.code then
        match memAllocBits (bitmapOf a) false (pages % 2 ^ 32) d with
        | (some startPageIndex, d) =>
            ((((startAt d a : Int) + Int.bmod (startPageIndex * 2 ^ pageShift) (2 ^ 32)) % 2 ^ 64).toNat, d)
        | (none, d) => memMallocLoop memDescAddr pages n (i + 1) d
      else memMallocLoop memDescAddr pages n (i + 1) d

/-- The loop of `Pmm_Free`, with `n` entries to go. -/
def memFreeLoop (memDescAddr addr pages : Nat) : Nat → Nat → (Nat → UInt8) → Nat → UInt8
  | 0, _, d => d
  | n + 1, i, d =>
      let a := descAt memDescAddr i
      if typeAt d a = MemoryType.available.code ∧ startAt d a ≤ addr ∧
          addr < (startAt d a + pagesAt d a * 2 ^ pageShift) % 2 ^ 64 then
        memSetBits (bitmapOf a) false (pages % 2 ^ 32)
          ((addr - startAt d a) / 2 ^ pageShift % 2 ^ 32) d
      else memFreeLoop memDescAddr addr pages n (i + 1) d

/-- A call of `Pmm_Malloc` or `Pmm_Free`. -/
inductive PmmCall
  | malloc (pages : Nat)
  | free (addr pages : Nat)
  deriving DecidableEq, Repr

/-- The memory behind a call. -/
def memCall (memDescAddr num : Nat) (c : PmmCall) (d : Nat → UInt8) : Nat → UInt8 :=
  match c with
  | .malloc pages => (memMallocLoop memDescAddr pages num 0 d).2
  | .free addr pages => memFreeLoop memDescAddr addr pages num 0 d

/-! ## What is to be kept -/

/-- Every page of every available region is marked free. -/
def AllFree (memDescAddr num : Nat) (d : Nat → UInt8) : Prop :=
  ∀ i < num, typeAt d (descAt memDescAddr i) = MemoryType.available.code →
    ∀ p < pagesAt d (descAt memDescAddr i), p < bitSizeAt d (bitmapOf (descAt memDescAddr i)) ∧
      memGetBit d (bitmapOf (descAt memDescAddr i)) p = false

/-- No field of the table changes, and no bit of the regions but one. -/
structure CallKeeps (memDescAddr num : Nat) (d d' : Nat → UInt8) : Prop where
  type : ∀ i < num, typeAt d' (descAt memDescAddr i) = typeAt d (descAt memDescAddr i)
  start : ∀ i < num, startAt d' (descAt memDescAddr i) = startAt d (descAt memDescAddr i)
  pages : ∀ i < num, pagesAt d' (descAt memDescAddr i) = pagesAt d (descAt memDescAddr i)
  bits : ∀ i < num,
    bitsAt d' (bitmapOf (descAt memDescAddr i)) = bitsAt d (bitmapOf (descAt memDescAddr i))
  others : ∃ k, ∀ i < num, i ≠ k → typeAt d (descAt memDescAddr i) = MemoryType.available.code →
    ∀ p < bitSizeAt d (bitmapOf (descAt memDescAddr i)),
      memGetBit d' (bitmapOf (descAt memDescAddr i)) p =
        memGetBit d (bitmapOf (descAt memDescAddr i)) p

/-- The memories that calls lead to. -/
inductive MemReach (memDescAddr num : Nat) (d : Nat → UInt8) : (Nat → UInt8) → Prop
  | start : MemReach memDescAddr num d d
  | call {u : Nat → UInt8} (h : MemReach memDescAddr num d u) (c : PmmCall) :
      MemReach memDescAddr num d (memCall memDescAddr num c u)

/-- Whatever was in the memory before, the initialisation marks every page free, and no call ever changes
the table or the bitmap of another region. -/
def MetadataKept (map : FirmwareMap) : Prop :=
  ∀ d, AllFree map.osDescAddr (memInit map d).1 (memInit map d).2 ∧
    ∀ u, MemReach map.osDescAddr (memInit map d).1 (memInit map d).2 u → ∀ c,
      CallKeeps map.osDescAddr (memInit map d).1 u (memCall map.osDescAddr (memInit map d).1 c u)

/-- Only the last entry has available pages, and few enough for `BitmapBitSize` not to overflow. -/
def OnlyLast (ds : List MemoryDescriptor) : Prop :=
  ∀ i r, ds[i]? = some r → r.type = .available →
    if i + 1 = ds.length then r.pageSize + 7 < 2 ^ 32 else r.pageSize = 0

section Frames

variable {d d' u : Nat → UInt8} {a p x n i index size num bits base : Nat} {value : Bool}
  {r : MemoryDescriptor} {ds : List MemoryDescriptor}

/-! ## Writes to a bitmap -/

/-- The memories agree outside the `n` bytes from `a` on. -/
def SameOutside (a n : Nat) (d d' : Nat → UInt8) : Prop := ∀ x, x < a ∨ a + n ≤ x → d' x = d x

theorem SameOutside.refl (a n : Nat) (d : Nat → UInt8) : SameOutside a n d d := fun _ _ => rfl

theorem SameOutside.trans (h : SameOutside a n d d') (h' : SameOutside a n d' u) :
    SameOutside a n d u := fun x hx => (h' x hx).trans (h x hx)

theorem SameOutside.load (h : SameOutside a n d d') {b k : Nat} (hb : b + k ≤ a ∨ a + n ≤ b) :
    loadLe d' b k = loadLe d b k := by
  apply loadLe_congr
  intro i hi
  exact h _ (by omega)

/-- The storage of a bitmap lies behind the `bitmap_t` and in the memory. -/
structure Stored (d : Nat → UInt8) (p bits : Nat) : Prop where
  pointer : bitsAt d p = bits
  behind : p + 16 ≤ bits
  fits : bits + 2 ^ 29 < 2 ^ 64

theorem bitSizeAt_lt (d : Nat → UInt8) (p : Nat) : bitSizeAt d p < 2 ^ 32 := loadLe_lt d p 4

/-- The byte of a bit of the bitmap. -/
theorem Stored.bitByte (h : Stored d p bits) (hi : index < bitSizeAt d p) :
    bitByte d p index = bits + index / 8 ∧ index / 8 < (bitSizeAt d p + 7) / 8 := by
  have hlt := bitSizeAt_lt d p
  have hfits := h.fits
  unfold Os003.bitByte
  rw [h.pointer]
  omega

/-- Setting a bit changes a byte of the bitmap, and not the `bitmap_t`. -/
theorem Stored.putBit (h : Stored d p bits) (hi : index < bitSizeAt d p) (value : Bool) :
    SameOutside bits ((bitSizeAt d p + 7) / 8) d (memPutBit p index value d) ∧
      bitSizeAt (memPutBit p index value d) p = bitSizeAt d p ∧
      Stored (memPutBit p index value d) p bits := by
  obtain ⟨hbyte, hlt⟩ := h.bitByte hi
  have hbehind := h.behind
  have hput : SameOutside bits ((bitSizeAt d p + 7) / 8) d (memPutBit p index value d) := by
    intro x hx
    unfold memPutBit
    rw [hbyte]
    exact Function.update_of_ne (by omega) _ _
  refine ⟨hput, hput.load (.inl (by omega)), ?_, hbehind, h.fits⟩
  exact (hput.load (.inl (by omega))).trans h.pointer

/-- Marking pages changes bytes of the bitmap only. -/
theorem Stored.setBits (h : Stored d p bits) (value : Bool) (n index : Nat) :
    SameOutside bits ((bitSizeAt d p + 7) / 8) d (memSetBits p value n index d) := by
  induction n generalizing index d with
  | zero => exact SameOutside.refl _ _ _
  | succ n ih =>
      unfold memSetBits
      split
      next hi =>
        obtain ⟨hput, hsize, hnext⟩ := h.putBit hi value
        have hrest := ih hnext (index + 1)
        rw [hsize] at hrest
        exact hput.trans hrest
      next => exact SameOutside.refl _ _ _

theorem Stored.allocLoop (h : Stored d p bits) (value : Bool) (size fuel sidx : Nat) :
    SameOutside bits ((bitSizeAt d p + 7) / 8) d (memAllocLoop p value size d fuel sidx).2 := by
  induction fuel generalizing sidx with
  | zero => exact SameOutside.refl _ _ _
  | succ fuel ih =>
      unfold memAllocLoop
      split
      · split
        · exact ih _
        · split
          · exact h.setBits true size sidx
          · exact ih _
          · exact SameOutside.refl _ _ _
      · exact SameOutside.refl _ _ _

/-- A bitmap without bits. -/
theorem memAllocBits_empty (h : bitSizeAt d p = 0) (value : Bool) (size : Nat) :
    memAllocBits p value size d = (none, d) := by
  unfold memAllocBits
  rw [h]
  rfl

/-! ## The entries of the table -/

/-- The entry at `a` is this one. -/
structure RowAt (d : Nat → UInt8) (a : Nat) (r : MemoryDescriptor) : Prop where
  type : typeAt d a = r.type.code
  start : startAt d a = r.physicalStart
  pages : pagesAt d a = r.pageSize
  bitmap : r.type = .available → bitSizeAt d (bitmapOf a) = r.pageSize % 2 ^ 32 ∧
    bitsAt d (bitmapOf a) = a + descriptorSize

/-- The entries of the table are these. -/
def Rows (base : Nat) (d : Nat → UInt8) (ds : List MemoryDescriptor) : Prop :=
  ∀ i r, ds[i]? = some r → RowAt d (descAt base i) r

theorem RowAt.congr (h : RowAt d a r) (hsame : ∀ x, a ≤ x → x < a + descriptorSize → d' x = d x) :
    RowAt d' a r := by
  have hload : ∀ b k, a ≤ b → b + k ≤ a + descriptorSize → loadLe d' b k = loadLe d b k := by
    intro b k hb hk
    apply loadLe_congr
    intro i hi
    exact hsame _ (by omega) (by omega)
  refine ⟨?_, ?_, ?_, fun ha => ?_⟩
  · exact (hload _ _ (by omega) (by simp only [descriptorSize]; omega)).trans h.type
  · exact (hload _ _ (by omega) (by simp only [descriptorSize]; omega)).trans h.start
  · exact (hload _ _ (by omega) (by simp only [descriptorSize]; omega)).trans h.pages
  · obtain ⟨hsize, hbits⟩ := h.bitmap ha
    constructor
    · exact (hload _ _ (by simp only [bitmapOf]; omega)
        (by simp only [bitmapOf, descriptorSize]; omega)).trans hsize
    · exact (hload _ _ (by simp only [bitmapOf]; omega)
        (by simp only [bitmapOf, descriptorSize]; omega)).trans hbits

theorem code_injective {t t' : MemoryType} (h : t.code = t'.code) : t = t' := by
  cases t <;> cases t' <;> first | rfl | cases h

/-! ## The initialisation -/

theorem bitmapBitSize_le (n : Nat) : bitmapBitSize n ≤ 2 ^ 29 - 1 := by
  unfold bitmapBitSize
  omega

/-- Where the initialisation of a bitmap writes. -/
theorem initBitmap_sameOutside (a pages : Nat) (d : Nat → UInt8) :
    SameOutside (bitmapOf a) (16 + bitmapBitSize (pages % 2 ^ 32)) d (initBitmap a pages d) := by
  intro x hx
  simp only [bitmapOf] at hx
  unfold initBitmap memBitmapInit fill
  rw [if_neg (by simp only [descriptorSize]; omega)]
  simp only [bitmapOf]
  obtain hx | hx := hx
  · rw [storeLe_of_lt (by omega), storeLe_of_lt (by omega)]
  · rw [storeLe_of_ge (by omega), storeLe_of_ge (by omega)]

/-- The bitmap of an entry that has been initialised. -/
theorem initBitmap_spec (a pages : Nat) (d : Nat → UInt8) (ha : a + descriptorSize < 2 ^ 64) :
    bitSizeAt (initBitmap a pages d) (bitmapOf a) = pages % 2 ^ 32 ∧
      bitsAt (initBitmap a pages d) (bitmapOf a) = a + descriptorSize ∧
      ∀ x, a + descriptorSize ≤ x → x < a + descriptorSize + bitmapBitSize (pages % 2 ^ 32) →
        initBitmap a pages d x = 0 := by
  unfold initBitmap memBitmapInit bitSizeAt bitsAt
  refine ⟨?_, ?_, fun x h1 h2 => ?_⟩
  · rw [loadLe_fill_of_disjoint (.inr (by simp only [bitmapOf, descriptorSize]; omega)),
      loadLe_storeLe_of_disjoint (.inr (by simp only [bitmapOf]; omega)), loadLe_storeLe]
    rfl
  · rw [loadLe_fill_of_disjoint (.inr (by simp only [bitmapOf, descriptorSize]; omega)),
      loadLe_storeLe]
    exact Nat.mod_eq_of_lt ha
  · rw [fill, if_pos ⟨h1, h2⟩]

/-- Where a new entry is written. -/
theorem storeDescriptor_sameOutside (a : Nat) (type : MemoryType) (edc : UefiMemoryDescriptor)
    (d : Nat → UInt8) : SameOutside a descriptorSize d (storeDescriptor a type edc d) := by
  intro x hx
  unfold storeDescriptor
  simp only [descriptorSize] at hx
  obtain hx | hx := hx
  · rw [storeLe_of_lt (by omega), storeLe_of_lt (by omega), storeLe_of_lt (by omega),
      storeLe_of_lt (by omega)]
  · rw [storeLe_of_ge (by omega), storeLe_of_ge (by omega), storeLe_of_ge (by omega),
      storeLe_of_ge (by omega)]

theorem storeDescriptor_spec (a : Nat) (type : MemoryType) {edc : UefiMemoryDescriptor}
    (hstart : edc.physicalStart < 2 ^ 64) (hpages : edc.numberOfPages < 2 ^ 64) (d : Nat → UInt8) :
    typeAt (storeDescriptor a type edc d) a = type.code ∧
      startAt (storeDescriptor a type edc d) a = edc.physicalStart ∧
      pagesAt (storeDescriptor a type edc d) a = edc.numberOfPages := by
  unfold storeDescriptor typeAt startAt pagesAt
  refine ⟨?_, ?_, ?_⟩
  · rw [loadLe_storeLe]
    cases type <;> rfl
  · rw [loadLe_storeLe_of_disjoint (.inl (by omega)), loadLe_storeLe_of_disjoint (.inr (by omega)),
      loadLe_storeLe_of_disjoint (.inr (by omega)), loadLe_storeLe]
    exact Nat.mod_eq_of_lt hstart
  · rw [loadLe_storeLe_of_disjoint (.inl (by omega)), loadLe_storeLe]
    exact Nat.mod_eq_of_lt hpages

/-- The memory while the table is built: the entries so far, the bitmap of the last one cleared as far as
`BitmapBitSize` goes, and nothing written behind. -/
structure Built (base : Nat) (d : Nat → UInt8) (num : Nat) (u : Nat → UInt8)
    (ds : List MemoryDescriptor) : Prop where
  count : num = ds.length
  rows : Rows base u ds
  cleared : ∀ r, ds.getLast? = some r → r.type = .available →
    ∀ x, descAt base num ≤ x → x < descAt base num + bitmapBitSize (r.pageSize % 2 ^ 32) → u x = 0
  behind : ∀ x, descAt base num + (2 ^ 29 - 1) ≤ x → u x = d x

theorem built_start (base : Nat) (d : Nat → UInt8) : Built base d 0 d [] where
  count := rfl
  rows i r h := by cases h
  cleared r h := by cases h
  behind _ _ := rfl

theorem descAt_succ (base i : Nat) : descAt base (i + 1) = descAt base i + descriptorSize := by
  simp only [descAt, Nat.mul_add, Nat.mul_one, Nat.add_assoc]

theorem descAt_le {i j : Nat} (h : i ≤ j) : descAt base i ≤ descAt base j :=
  Nat.add_le_add_left (Nat.mul_le_mul_left _ h) _

/-- A new entry. -/
theorem Built.append (h : Built base d num u ds) {v : Nat → UInt8} {m : Nat}
    (hm : m ≤ 2 ^ 29 - 1) (hsame : SameOutside (descAt base num) (descriptorSize + m) u v)
    (hrow : RowAt v (descAt base num) r)
    (hcleared : r.type = .available → ∀ x, descAt base (num + 1) ≤ x →
      x < descAt base (num + 1) + bitmapBitSize (r.pageSize % 2 ^ 32) → v x = 0) :
    Built base d (num + 1) v (ds ++ [r]) where
  count := by rw [h.count, List.length_append, List.length_singleton]
  rows i r' hi := by
    obtain hi | ⟨rfl, rfl⟩ := getElem?_concat_some hi
    · refine (h.rows i r' hi).congr fun x _ hx => hsame x (.inl ?_)
      have hlt := (List.getElem?_eq_some_iff.mp hi).1
      have hle : descAt base (i + 1) ≤ descAt base num := descAt_le (by rw [h.count]; omega)
      rw [descAt_succ] at hle
      omega
    · exact h.count ▸ hrow
  cleared r' hr' := by
    rw [List.getLast?_append, List.getLast?_singleton, Option.some_or] at hr'
    cases hr'
    exact hcleared
  behind x hx := by
    rw [descAt_succ] at hx
    rw [hsame x (.inr (by omega))]
    exact h.behind x (by omega)

/-- The last entry is written anew. -/
theorem Built.replace (h : Built base d num u ds) {last : MemoryDescriptor}
    (hlast : ds.getLast? = some last) {v : Nat → UInt8} {m : Nat} (hm : m ≤ 2 ^ 29 - 1)
    (hsame : SameOutside (descAt base (num - 1)) (descriptorSize + m) u v)
    (hrow : RowAt v (descAt base (num - 1)) r)
    (hcleared : r.type = .available → ∀ x, descAt base num ≤ x →
      x < descAt base num + bitmapBitSize (r.pageSize % 2 ^ 32) → v x = 0) :
    Built base d num v (ds.dropLast ++ [r]) := by
  have hne : ds ≠ [] := by
    rintro rfl
    cases hlast
  have hpos : 0 < ds.length := List.length_pos_iff.mpr hne
  obtain ⟨k, hk⟩ : ∃ k, num = k + 1 := ⟨num - 1, by rw [h.count]; omega⟩
  have hnum := h.count
  subst hk
  rw [Nat.add_sub_cancel] at hsame hrow
  have hsplit : ds.dropLast.length = k := by rw [List.length_dropLast]; omega
  refine ⟨by rw [List.length_append, hsplit, List.length_singleton], ?_, ?_, ?_⟩
  · intro i r' hi
    obtain hi | ⟨rfl, rfl⟩ := getElem?_concat_some hi
    · have hlt := (List.getElem?_eq_some_iff.mp hi).1
      rw [List.getElem?_dropLast, if_pos (by omega)] at hi
      refine (h.rows i r' hi).congr fun x _ hx => hsame x (.inl ?_)
      have hle : descAt base (i + 1) ≤ descAt base k := descAt_le (by omega)
      rw [descAt_succ] at hle
      omega
    · rw [hsplit]
      exact hrow
  · intro r' hr'
    rw [List.getLast?_append, List.getLast?_singleton, Option.some_or] at hr'
    cases hr'
    exact hcleared
  · intro x hx
    rw [hsame x (.inr ?_)]
    · exact h.behind x hx
    · rw [descAt_succ] at hx
      omega

theorem SameOutside.mono {b m : Nat} (h : SameOutside b m d d') (hb : a ≤ b) (hm : b + m ≤ a + n) :
    SameOutside a n d d' := fun x hx => h x (by omega)

/-- An entry whose bitmap is initialised. -/
theorem RowAt.initBitmap {type : MemoryType} {start pages : Nat}
    (htype : typeAt u a = type.code) (hstart : startAt u a = start) (hpages : pagesAt u a = pages)
    (ha : a + descriptorSize < 2 ^ 64) :
    RowAt (Os003.initBitmap a pages u) a (newDescriptor type start pages) := by
  have hsame := initBitmap_sameOutside a pages u
  obtain ⟨hsize, hbits, -⟩ := initBitmap_spec a pages u ha
  have hload : ∀ b k, b + k ≤ a + 32 → loadLe (Os003.initBitmap a pages u) b k = loadLe u b k :=
    fun b k hk => hsame.load (.inl hk)
  exact ⟨(hload a 4 (by omega)).trans htype, (hload (a + 8) 8 (by omega)).trans hstart,
    (hload (a + 24) 8 (by omega)).trans hpages, fun _ => ⟨hsize, hbits⟩⟩

/-- A new entry of the table, with its bitmap if it is available. -/
theorem Built.new (h : Built base d num u ds) (hroom : descAt base num + descriptorSize < 2 ^ 64)
    {edc : UefiMemoryDescriptor} (hstart : edc.physicalStart < 2 ^ 64)
    (hpages : edc.numberOfPages < 2 ^ 64) :
    Built base d (num + 1) (Os003.initBitmap (descAt base num) edc.numberOfPages
        (storeDescriptor (descAt base num) .available edc u))
      (ds ++ [newDescriptor .available edc.physicalStart edc.numberOfPages]) ∧
    Built base d (num + 1) (storeDescriptor (descAt base num) .unavailable edc u)
      (ds ++ [newDescriptor .unavailable edc.physicalStart edc.numberOfPages]) := by
  constructor
  · obtain ⟨h1, h2, h3⟩ := storeDescriptor_spec (descAt base num) .available hstart hpages u
    have hstore := storeDescriptor_sameOutside (descAt base num) .available edc u
    have hinit := initBitmap_sameOutside (descAt base num) edc.numberOfPages
      (storeDescriptor (descAt base num) .available edc u)
    refine h.append (bitmapBitSize_le (edc.numberOfPages % 2 ^ 32)) ?_
      (RowAt.initBitmap h1 h2 h3 hroom) fun _ x hx hx' => ?_
    · refine (hstore.mono le_rfl (by omega)).trans (hinit.mono ?_ ?_)
      · simp only [bitmapOf]; omega
      · simp only [bitmapOf, descriptorSize]; omega
    · rw [descAt_succ] at hx hx'
      exact (initBitmap_spec (descAt base num) edc.numberOfPages _ hroom).2.2 x hx hx'
  · obtain ⟨h1, h2, h3⟩ := storeDescriptor_spec (descAt base num) .unavailable hstart hpages u
    have hstore := storeDescriptor_sameOutside (descAt base num) .unavailable edc u
    exact h.append (m := 0) (by omega) (hstore.mono le_rfl (by omega))
      ⟨h1, h2, h3, fun hav => by cases hav⟩ fun hav => by cases hav

/-- The pages of the last entry have grown. -/
theorem Built.grow (h : Built base d num u ds) {last : MemoryDescriptor}
    (hlast : ds.getLast? = some last) (hroom : descAt base num + descriptorSize < 2 ^ 64)
    (more : Nat) :
    let v := storeLe u (descAt base (num - 1) + 24) 8 (pagesAt u (descAt base (num - 1)) + more)
    (last.type = .available → Built base d num
      (Os003.initBitmap (descAt base (num - 1)) (pagesAt v (descAt base (num - 1))) v)
      (ds.dropLast ++ [newDescriptor .available last.physicalStart
        ((last.pageSize + more) % 2 ^ 64)])) ∧
    (last.type = .unavailable → Built base d num v
      (ds.dropLast ++ [newDescriptor .unavailable last.physicalStart
        ((last.pageSize + more) % 2 ^ 64)])) := by
  intro v
  have hne : ds ≠ [] := by
    rintro rfl
    cases hlast
  have hpos : 0 < ds.length := List.length_pos_iff.mpr hne
  have hcount := h.count
  have hget : ds[num - 1]? = some last := by
    rw [hcount, ← List.getLast?_eq_getElem?]
    exact hlast
  have hrow := h.rows (num - 1) last hget
  have hnext : descAt base num = descAt base (num - 1) + descriptorSize := by
    rw [← descAt_succ]
    congr 1
    omega
  have hv : SameOutside (descAt base (num - 1) + 24) 8 u v := by
    -- only the page count of the last descriptor is written
    intro x hx
    obtain hx | hx := hx
    · exact storeLe_of_lt hx
    · exact storeLe_of_ge hx
  have hpages : pagesAt v (descAt base (num - 1)) = (last.pageSize + more) % 2 ^ 64 := by
    refine (loadLe_storeLe u _ 8 _).trans ?_
    rw [hrow.pages]
    rfl
  have htype : typeAt v (descAt base (num - 1)) = last.type.code :=
    (hv.load (.inl (by omega))).trans hrow.type
  have hstart : startAt v (descAt base (num - 1)) = last.physicalStart :=
    (hv.load (.inl (by omega))).trans hrow.start
  constructor
  · intro hav
    -- an available region gets its bitmap anew, with the longer size
    rw [hav] at htype
    have hinit := initBitmap_sameOutside (descAt base (num - 1)) (pagesAt v (descAt base (num - 1))) v
    have hspec := initBitmap_spec (descAt base (num - 1)) (pagesAt v (descAt base (num - 1))) v
      (by omega)
    refine h.replace hlast (bitmapBitSize_le (pagesAt v (descAt base (num - 1)) % 2 ^ 32)) ?_ ?_ ?_
    · refine (hv.mono (by omega) ?_).trans (hinit.mono ?_ ?_)
      · simp only [descriptorSize]; omega
      · simp only [bitmapOf]; omega
      · simp only [bitmapOf, descriptorSize]; omega
    · rw [← hpages]
      exact RowAt.initBitmap htype hstart rfl (by omega)
    · intro _ x hx hx'
      rw [hnext] at hx hx'
      refine hspec.2.2 x hx ?_
      rw [hpages]
      exact hx'
  · intro hun
    rw [hun] at htype
    refine h.replace hlast (m := 0) (by omega) ?_ ?_ fun hav => by cases hav
    · exact hv.mono (by omega) (by simp only [descriptorSize]; omega)
    · exact ⟨htype, hstart, hpages, fun hav => by cases hav⟩

/-- One turn of the initialisation. -/
theorem Built.step (h : Built base d num u ds) (stackAddr : Nat) {edc : UefiMemoryDescriptor}
    (hstart : edc.physicalStart < 2 ^ 64) (hpages : edc.numberOfPages < 2 ^ 64)
    (hroom : descAt base num + descriptorSize < 2 ^ 64) :
    Built base d (memInitStep base stackAddr (num, u) edc).1 (memInitStep base stackAddr (num, u) edc).2
      (initStep stackAddr ds edc) := by
  unfold memInitStep initStep
  dsimp only
  -- a descriptor with start address 0 is skipped
  by_cases h0 : edc.physicalStart = 0
  · rw [if_pos h0, if_pos h0]
    exact h
  rw [if_neg h0, if_neg h0]
  obtain ⟨hnew, hnew'⟩ := h.new hroom hstart hpages
  cases hlast : ds.getLast? with
  | none =>
      have hnum : num = 0 := by
        rw [h.count, List.getLast?_eq_none_iff.mp hlast]
        rfl
      by_cases hav : isMemoryAvailable stackAddr edc = true
      · rw [if_pos hav, if_pos hav, if_pos (.inl hnum)]
        exact hnew
      · rw [if_neg hav, if_neg hav, if_pos (.inl hnum)]
        exact hnew'
  | some last =>
      have hne : ds ≠ [] := by
        rintro rfl
        cases hlast
      have hpos : 0 < ds.length := List.length_pos_iff.mpr hne
      have hcount := h.count
      have hrow : RowAt u (descAt base (num - 1)) last := by
        apply h.rows
        rw [hcount, ← List.getLast?_eq_getElem?]
        exact hlast
      have htype : ∀ t : MemoryType, typeAt u (descAt base (num - 1)) ≠ t.code ↔ last.type ≠ t := by
        intro t
        rw [hrow.type]
        exact ⟨fun hne heq => hne (by rw [heq]), fun hne heq => hne (code_injective heq)⟩
      have hnext : (startAt u (descAt base (num - 1)) +
          pagesAt u (descAt base (num - 1)) * 2 ^ pageShift) % 2 ^ 64 = last.next := by
        rw [hrow.start, hrow.pages]
        rfl
      obtain ⟨hgrow, hgrow'⟩ := h.grow hlast hroom edc.numberOfPages
      have hzero : ¬ num = 0 := by omega
      by_cases hav : isMemoryAvailable stackAddr edc = true
      · -- the last region grows if it is of this type and ends where the descriptor starts
        simp only [hav, if_true, hnext, htype, hzero, false_or]
        by_cases hc : last.type ≠ .available ∨ edc.physicalStart ≠ last.next
        · rw [if_pos hc, if_pos hc]
          exact hnew
        · rw [if_neg hc, if_neg hc]
          push Not at hc
          exact hgrow hc.1
      · simp only [hav, Bool.false_eq_true, if_false, hnext, htype, hzero, false_or]
        by_cases hc : last.type ≠ .unavailable ∨ edc.physicalStart ≠ last.next
        · rw [if_pos hc, if_pos hc]
          exact hnew'
        · rw [if_neg hc, if_neg hc]
          push Not at hc
          exact hgrow' hc.1

theorem memInitStep_num (base stackAddr : Nat) (s : Nat × (Nat → UInt8)) (edc : UefiMemoryDescriptor) :
    (memInitStep base stackAddr s edc).1 ≤ s.1 + 1 := by
  unfold memInitStep
  dsimp only
  split
  · exact Nat.le_succ _
  · split <;> split
    · exact le_rfl
    · exact Nat.le_succ _
    · exact le_rfl
    · exact Nat.le_succ _

theorem built_foldl {stackAddr : Nat} {edcs : List UefiMemoryDescriptor} (hbase : base < 2 ^ 52)
    (hwords : ∀ edc ∈ edcs, edc.physicalStart < 2 ^ 64 ∧ edc.virtualStart < 2 ^ 64 ∧
      edc.numberOfPages < 2 ^ 64) (hfew : num + edcs.length < 2 ^ 31) (h : Built base d num u ds) :
    Built base d (edcs.foldl (memInitStep base stackAddr) (num, u)).1
      (edcs.foldl (memInitStep base stackAddr) (num, u)).2 (edcs.foldl (initStep stackAddr) ds) := by
  induction edcs generalizing num u ds with
  | nil => exact h
  | cons edc edcs ih =>
      obtain ⟨hstart, -, hpages⟩ := hwords edc List.mem_cons_self
      rw [List.length_cons] at hfew
      have hroom : descAt base num + descriptorSize < 2 ^ 64 := by
        simp only [descAt, descriptorSize]
        omega
      have hnum : (memInitStep base stackAddr (num, u) edc).1 ≤ num + 1 :=
        memInitStep_num base stackAddr (num, u) edc
      have hstep := h.step stackAddr hstart hpages hroom
      rw [List.foldl_cons, List.foldl_cons]
      generalize memInitStep base stackAddr (num, u) edc = s at hnum hstep
      obtain ⟨num', u'⟩ := s
      exact ih (fun e he => hwords e (List.mem_cons_of_mem edc he)) (by dsimp only at hnum; omega) hstep

/-- The memory behind the initialisation holds the table of the map. -/
theorem built_memInit (map : FirmwareMap) (d : Nat → UInt8) :
    Built map.osDescAddr d (memInit map d).1 (memInit map d).2
      (initPhysicalMemoryManager map.toUefiMemoryMap) :=
  built_foldl map.physical map.words (by rw [Nat.zero_add]; exact map.few) (built_start map.osDescAddr d)

theorem memInit_num (map : FirmwareMap) (d : Nat → UInt8) : (memInit map d).1 < 2 ^ 31 := by
  have hle : ∀ (edcs : List UefiMemoryDescriptor) (s : Nat × (Nat → UInt8)),
      (edcs.foldl (memInitStep map.osDescAddr map.stackAddr) s).1 ≤ s.1 + edcs.length := by
    intro edcs
    induction edcs with
    | nil => intro s; exact le_rfl
    | cons edc edcs ih =>
        intro s
        have h1 := memInitStep_num map.osDescAddr map.stackAddr s edc
        have h2 := ih (memInitStep map.osDescAddr map.stackAddr s edc)
        rw [List.foldl_cons, List.length_cons]
        omega
  have h := hle map.buffer (0, d)
  have hfew := map.few
  rw [Nat.zero_add] at h
  exact lt_of_le_of_lt h hfew

/-! ## Calls that find pages behind the table only -/

/-- The table holds these entries, and only the last one has available pages. -/
structure Safe (base num : Nat) (u : Nat → UInt8) (ds : List MemoryDescriptor) : Prop where
  count : num = ds.length
  rows : Rows base u ds
  onlyLast : OnlyLast ds
  fits : descAt base num + 2 ^ 29 < 2 ^ 64

/-- The bytes of the last bitmap. -/
def lastBitmap (ds : List MemoryDescriptor) : Nat :=
  match ds.getLast? with
  | some r => (r.pageSize % 2 ^ 32 + 7) / 8
  | none => 0

theorem Safe.of_sameOutside {k : Nat} (h : Safe base num u ds) (hs : SameOutside (descAt base num) k u d) :
    Safe base num d ds where
  count := h.count
  rows i r hi := by
    refine (h.rows i r hi).congr fun x _ hx => hs x (.inl ?_)
    have hle : descAt base (i + 1) ≤ descAt base num := by
      apply descAt_le
      have := (List.getElem?_eq_some_iff.mp hi).1
      have := h.count
      omega
    rw [descAt_succ] at hle
    omega
  onlyLast := h.onlyLast
  fits := h.fits

/-- An entry that is available and not the last one has no bits; the bitmap of the last one lies behind the
table. -/
theorem Safe.available (h : Safe base num u ds) (hi : i < num)
    (ha : typeAt u (descAt base i) = MemoryType.available.code) :
    (i + 1 ≠ num → bitSizeAt u (bitmapOf (descAt base i)) = 0 ∧ pagesAt u (descAt base i) = 0) ∧
      (i + 1 = num → Stored u (bitmapOf (descAt base i)) (descAt base num) ∧
        (bitSizeAt u (bitmapOf (descAt base i)) + 7) / 8 = lastBitmap ds ∧
        pagesAt u (descAt base i) = bitSizeAt u (bitmapOf (descAt base i))) := by
  have hcount := h.count
  obtain ⟨r, hr⟩ : ∃ r, ds[i]? = some r := ⟨ds[i], List.getElem?_eq_getElem (by omega)⟩
  have hrow := h.rows i r hr
  have hav : r.type = .available := code_injective (hrow.type.symm.trans ha)
  obtain ⟨hsize, hbits⟩ := hrow.bitmap hav
  have honly := h.onlyLast i r hr hav
  constructor
  · intro hne
    rw [if_neg (by omega)] at honly
    rw [hsize, hrow.pages, honly]
    exact ⟨rfl, rfl⟩
  · intro heq
    rw [if_pos (by omega)] at honly
    have hlast : ds.getLast? = some r := by
      rw [List.getLast?_eq_getElem?, ← hcount, ← heq]
      exact hr
    refine ⟨⟨?_, ?_, h.fits⟩, ?_, ?_⟩
    · rw [hbits, ← descAt_succ, heq]
    · rw [← heq, descAt_succ]
      simp only [bitmapOf, descriptorSize]
      omega
    · rw [hsize, lastBitmap, hlast]
    · rw [hsize, hrow.pages]
      exact (Nat.mod_eq_of_lt (by omega)).symm

theorem Safe.mallocLoop (h : Safe base num u ds) (pages n i : Nat) (hn : i + n = num) :
    SameOutside (descAt base num) (lastBitmap ds) u (memMallocLoop base pages n i u).2 := by
  induction n generalizing i with
  | zero => exact SameOutside.refl _ _ _
  | succ n ih =>
      unfold memMallocLoop
      dsimp only
      split
      next ha =>
        obtain ⟨hother, hlast⟩ := h.available (by omega) ha
        by_cases heq : i + 1 = num
        · obtain ⟨hstored, hbytes, -⟩ := hlast heq
          have hsame := hstored.allocLoop false (pages % 2 ^ 32)
            (bitSizeAt u (bitmapOf (descAt base i))) 0
          rw [hbytes] at hsame
          obtain rfl : n = 0 := by omega
          unfold memAllocBits
          generalize memAllocLoop _ _ _ _ _ _ = res at hsame
          obtain ⟨_ | r, v⟩ := res
          · exact hsame
          · exact hsame
        · rw [memAllocBits_empty (hother heq).1]
          exact ih (i + 1) (by omega)
      next => exact ih (i + 1) (by omega)

theorem Safe.freeLoop (h : Safe base num u ds) (addr pages n i : Nat) (hn : i + n = num) :
    SameOutside (descAt base num) (lastBitmap ds) u (memFreeLoop base addr pages n i u) := by
  induction n generalizing i with
  | zero => exact SameOutside.refl _ _ _
  | succ n ih =>
      unfold memFreeLoop
      dsimp only
      split
      next hc =>
        obtain ⟨ha, hlow, hhigh⟩ := hc
        obtain ⟨hother, hlast⟩ := h.available (by omega) ha
        by_cases heq : i + 1 = num
        · obtain ⟨hstored, hbytes, -⟩ := hlast heq
          rw [← hbytes]
          exact hstored.setBits _ _ _
        · -- a region without pages holds no address
          rw [(hother heq).2, Nat.zero_mul, Nat.add_zero] at hhigh
          have := Nat.mod_le (startAt u (descAt base i)) (2 ^ 64)
          omega
      next => exact ih (i + 1) (by omega)

theorem Safe.call (h : Safe base num u ds) (c : PmmCall) :
    SameOutside (descAt base num) (lastBitmap ds) u (memCall base num c u) := by
  cases c with
  | malloc pages => exact h.mallocLoop pages num 0 (Nat.zero_add num)
  | free addr pages => exact h.freeLoop addr pages num 0 (Nat.zero_add num)

theorem Safe.reach (h : Safe base num d ds) (hr : MemReach base num d u) : Safe base num u ds := by
  induction hr with
  | start => exact h
  | call _ c ih => exact ih.of_sameOutside (ih.call c)

/-- A call leaves the table alone, and so the bitmaps of all regions but the last. -/
theorem Safe.keeps (h : Safe base num u ds) (c : PmmCall) :
    CallKeeps base num u (memCall base num c u) := by
  have hs := h.call c
  have hload : ∀ i < num, ∀ k m, k + m ≤ descriptorSize →
      loadLe (memCall base num c u) (descAt base i + k) m = loadLe u (descAt base i + k) m := by
    intro i hi k m hm
    apply hs.load
    have hle : descAt base (i + 1) ≤ descAt base num := descAt_le hi
    rw [descAt_succ] at hle
    exact .inl (by omega)
  refine ⟨fun i hi => hload i hi 0 4 (by decide), fun i hi => hload i hi 8 8 (by decide),
    fun i hi => hload i hi 24 8 (by decide), fun i hi => hload i hi 40 8 (by decide), num - 1, ?_⟩
  intro i hi hne ha p hp
  rw [((h.available hi ha).1 (by omega)).1] at hp
  omega

theorem Built.safe {map : FirmwareMap} (h : OnlyLast (initPhysicalMemoryManager map.toUefiMemoryMap))
    (d : Nat → UInt8) : Safe map.osDescAddr (memInit map d).1 (memInit map d).2
      (initPhysicalMemoryManager map.toUefiMemoryMap) := by
  have hB := built_memInit map d
  have hnum := memInit_num map d
  have hbase := map.physical
  refine ⟨hB.count, hB.rows, h, ?_⟩
  simp only [descAt, descriptorSize]
  omega

/-- A clear byte has clear bits only. -/
theorem memGetBit_of_zero (h : d (bitByte d p index) = 0) : memGetBit d p index = false := by
  unfold memGetBit
  rw [h]
  exact Nat.zero_testBit _

/-- The bitmap of the last entry has been cleared. -/
theorem Built.allFree (h : Built base d num u ds) (hs : Safe base num u ds) : AllFree base num u := by
  intro i hi ha p hp
  obtain ⟨hother, hlast⟩ := hs.available hi ha
  by_cases heq : i + 1 = num
  · obtain ⟨hstored, -, hpages⟩ := hlast heq
    rw [hpages] at hp
    obtain ⟨hbyte, hlt⟩ := hstored.bitByte hp
    refine ⟨hp, memGetBit_of_zero ?_⟩
    have hcount := h.count
    obtain ⟨r, hr⟩ : ∃ r, ds[i]? = some r := ⟨ds[i], List.getElem?_eq_getElem (by omega)⟩
    have hrow := h.rows i r hr
    have hav : r.type = .available := code_injective (hrow.type.symm.trans ha)
    have hget : ds.getLast? = some r := by
      rw [List.getLast?_eq_getElem?, ← hcount, ← heq]
      exact hr
    have honly := hs.onlyLast i r hr hav
    rw [if_pos (by omega)] at honly
    have hsize := (hrow.bitmap hav).1
    have hbytes : (bitSizeAt u (bitmapOf (descAt base i)) + 7) / 8 =
        bitmapBitSize (r.pageSize % 2 ^ 32) := by
      rw [hsize]
      unfold bitmapBitSize
      omega
    rw [hbyte]
    exact h.cleared r hget hav _ (by omega) (by omega)
  · rw [(hother heq).2] at hp
    omega

/-! ## Calls that find pages in the table -/

/-- `Pmm_Malloc` passes over regions without bits. -/
theorem memMallocLoop_skip (pages : Nat) {n i : Nat}
    (h : ∀ j < i, typeAt u (descAt base j) = MemoryType.available.code →
      bitSizeAt u (bitmapOf (descAt base j)) = 0) :
    memMallocLoop base pages (i + n) 0 u = memMallocLoop base pages n i u := by
  induction i generalizing n with
  | zero => rw [Nat.zero_add]
  | succ i ih =>
      rw [show i + 1 + n = i + (n + 1) by omega, ih fun j hj => h j (by omega)]
      conv_lhs => unfold memMallocLoop
      dsimp only
      split
      next ha => rw [memAllocBits_empty (h i (by omega) ha)]
      next => rfl

/-- A region whose first page is free gives it, and marks it. -/
theorem memMallocLoop_first {n i : Nat} (ha : typeAt u (descAt base i) = MemoryType.available.code)
    (hbits : 0 < bitSizeAt u (bitmapOf (descAt base i)))
    (hfree : memGetBit u (bitmapOf (descAt base i)) 0 = false) :
    (memMallocLoop base 1 (n + 1) i u).2 = memPutBit (bitmapOf (descAt base i)) 0 true u := by
  obtain ⟨k, hk⟩ : ∃ k, bitSizeAt u (bitmapOf (descAt base i)) = k + 1 := ⟨_, (Nat.succ_pred_eq_of_pos
    hbits).symm⟩
  have halloc : memAllocBits (bitmapOf (descAt base i)) false (1 % 2 ^ 32) u =
      (some 0, memPutBit (bitmapOf (descAt base i)) 0 true u) := by
    unfold memAllocBits
    rw [hk]
    unfold memAllocLoop
    rw [if_pos hbits, if_neg (by rw [hfree]; decide)]
    show (some 0, memSetBits (bitmapOf (descAt base i)) true 1 0 u) = _
    unfold memSetBits
    rw [if_pos hbits]
    rfl
  unfold memMallocLoop
  dsimp only
  rw [if_pos ha, halloc]

/-- Marking the first page sets the first bit of the storage. -/
theorem memPutBit_zero (u : Nat → UInt8) (p : Nat) :
    (memPutBit p 0 true u (bitByte u p 0)).toNat.testBit 0 = true := by
  unfold memPutBit
  simp

/-- Only the last entry has available pages, or the first `Pmm_Malloc(1)` changes the type of an entry. -/
theorem onlyLast_of_kept {map : FirmwareMap} (h : MetadataKept map) :
    OnlyLast (initPhysicalMemoryManager map.toUefiMemoryMap) := by
  obtain ⟨hfree, hkeep⟩ := h fun _ => 0xFF
  have hB := built_memInit map fun _ => 0xFF
  have hnum := memInit_num map fun _ => 0xFF
  have hbase := map.physical
  generalize (memInit map fun _ => 0xFF).1 = num at *
  generalize (memInit map fun _ => 0xFF).2 = u at *
  generalize initPhysicalMemoryManager map.toUefiMemoryMap = ds at *
  generalize map.osDescAddr = base at *
  have hcount := hB.count
  -- all pages of an available region have bits, which begin behind the entry and are clear
  have hregion : ∀ i r, ds[i]? = some r → r.type = .available → i < num ∧
      typeAt u (descAt base i) = MemoryType.available.code ∧
      bitSizeAt u (bitmapOf (descAt base i)) = r.pageSize ∧
      ∀ p < r.pageSize, memGetBit u (bitmapOf (descAt base i)) p = false ∧
        bitByte u (bitmapOf (descAt base i)) p = descAt base (i + 1) + p / 8 := by
    intro i r hi hav
    have hlt : i < num := by
      have := (List.getElem?_eq_some_iff.mp hi).1
      omega
    have hrow := hB.rows i r hi
    have ha : typeAt u (descAt base i) = MemoryType.available.code := by rw [hrow.type, hav]
    obtain ⟨hsize, hbits⟩ := hrow.bitmap hav
    have hall := hfree i hlt ha
    rw [hrow.pages, hsize] at hall
    have hsmall : r.pageSize < 2 ^ 32 := by
      by_contra hge
      have := (hall (r.pageSize % 2 ^ 32) (lt_of_lt_of_le (Nat.mod_lt _ (by decide)) (by omega))).1
      omega
    refine ⟨hlt, ha, hsize.trans (Nat.mod_eq_of_lt hsmall), fun p hp => ⟨(hall p hp).2, ?_⟩⟩
    unfold bitByte
    rw [hbits, ← descAt_succ]
    apply Nat.mod_eq_of_lt
    simp only [descAt, descriptorSize]
    omega
  intro i
  induction i using Nat.strong_induction_on with
  | _ i ih =>
    intro r hi hav
    obtain ⟨hlt, ha, hsize, hall⟩ := hregion i r hi hav
    split
    next heq =>
      -- the last byte of the bitmap has not been written
      by_contra hlarge
      obtain ⟨p, hp⟩ : ∃ p, p = 2 ^ 32 - 8 := ⟨_, rfl⟩
      obtain ⟨hbit, hbyte⟩ := hall p (by omega)
      have hlast : descAt base (i + 1) = descAt base num := by
        rw [show i + 1 = num by omega]
      have hff : u (bitByte u (bitmapOf (descAt base i)) p) = 0xFF := by
        rw [hbyte, hlast]
        exact hB.behind _ (by omega)
      unfold memGetBit at hbit
      rw [hff, show p % 8 = 0 by omega] at hbit
      exact absurd hbit (by decide)
    next hne =>
      by_contra hpages
      obtain ⟨hbit, hbyte⟩ := hall 0 (Nat.pos_of_ne_zero hpages)
      -- no region before has bits
      have hskip : ∀ j < i, typeAt u (descAt base j) = MemoryType.available.code →
          bitSizeAt u (bitmapOf (descAt base j)) = 0 := by
        intro j hj hja
        obtain ⟨r', hr'⟩ : ∃ r', ds[j]? = some r' := ⟨ds[j], List.getElem?_eq_getElem (by omega)⟩
        have hav' : r'.type = .available := code_injective ((hB.rows j r' hr').type.symm.trans hja)
        have hnone := ih j hj r' hr' hav'
        rw [if_neg (by omega)] at hnone
        rw [(hregion j r' hr' hav').2.2.1, hnone]
      have hcall : memCall base num (.malloc 1) u = memPutBit (bitmapOf (descAt base i)) 0 true u := by
        show (memMallocLoop base 1 num 0 u).2 = _
        obtain ⟨n, hn⟩ : ∃ n, num = i + (n + 1) := ⟨num - i - 1, by omega⟩
        rw [hn, memMallocLoop_skip 1 hskip]
        exact memMallocLoop_first ha (by omega) hbit
      have htype := (hkeep u .start (.malloc 1)).type (i + 1) (by omega)
      have hlow : ∀ v : Nat → UInt8, typeAt v (descAt base (i + 1)) % 256 =
          (v (descAt base (i + 1))).toNat := fun v => loadLe_mod v _ 3
      have hbefore := hlow u
      rw [← htype, hcall, hlow] at hbefore
      -- the first bit of the type has been clear and is set
      have hset := memPutBit_zero u (bitmapOf (descAt base i))
      unfold memGetBit at hbit
      rw [hbyte] at hset hbit
      simp only [Nat.zero_div, Nat.add_zero, Nat.zero_mod] at hset hbit
      rw [hbefore, hbit] at hset
      cases hset

/-- The initialisation marks every page free and no call ever changes the table or the bitmap of another
region exactly if no entry of the table but the last one has available pages. -/
theorem metadata_kept_iff (map : FirmwareMap) :
    MetadataKept map ↔ OnlyLast (initPhysicalMemoryManager map.toUefiMemoryMap) := by
  constructor
  · exact onlyLast_of_kept
  · intro h d
    have hs := Built.safe h d
    exact ⟨(built_memInit map d).allFree hs, fun u hu c => (hs.reach hu).keeps c⟩

end Frames

/-- Two regions of conventional memory with a gap between them. -/
def twoRegions : FirmwareMap where
  buffer := [⟨conventionalMemory, 0x100000, 0, 16⟩, ⟨conventionalMemory, 0x200000, 0, 16⟩]
  stackAddr := 0x80000
  osDescAddr := 0x70000
  words := by decide
  physical := by decide
  few := by decide

/-- The first byte of the first bitmap is the type of the second region, so the first page is marked. -/
theorem metadata_overlaps : ¬ MetadataKept twoRegions ∧
    memGetBit (memInit twoRegions fun _ => 0).2 (bitmapOf (descAt 0x70000 0)) 0 = true := by
  have hmarked : memGetBit (memInit twoRegions fun _ => 0).2 (bitmapOf (descAt 0x70000 0)) 0 = true := by
    decide +kernel
  refine ⟨fun h => ?_, hmarked⟩
  obtain ⟨hfree, -⟩ := h fun _ => 0
  have hclear := (hfree 0 (by decide +kernel) (by decide +kernel) 0 (by decide +kernel)).2
  exact absurd (hclear.symm.trans hmarked) (by decide)

/-! ## The checks of the initialisation -/

section Checked

variable {map : HeadedMap} {s : PmmGlobals}

/-- The initialisation succeeds exactly if no field of the map is missing and there is room for the table. -/
theorem memInitChecked_ok_iff : (memInitChecked map s).1 = 0 ↔
    0 ∉ [map.bufferAddr, map.mapSize, map.descriptorSize, map.descriptorVersion, map.stackAddr] ∧
      map.osDescAddr ≠ 0 := by
  rw [← List.count_eq_zero]
  unfold memInitChecked checkMemoryMap
  split
  · simp_all
  · split <;> simp_all

/-- Then the table is the one of the loop. -/
theorem memInitChecked_table (h : (memInitChecked map s).1 = 0) : (memInitChecked map s).2.2 =
    ⟨map.osDescAddr, (memInit map.toFirmwareMap s.memory).1, (memInit map.toFirmwareMap s.memory).2⟩ := by
  unfold memInitChecked at h ⊢
  split at h
  · simp at h
  · split at h
    · simp at h
    · simp [*]

/-- A refused initialisation leaves the memory and the number of regions as they were. -/
theorem memInitChecked_refused (h : (memInitChecked map s).1 ≠ 0) :
    (memInitChecked map s).2.2.memDescNum = s.memDescNum ∧
      (memInitChecked map s).2.2.memory = s.memory := by
  unfold memInitChecked at h ⊢
  split at h
  · simp [*]
  · split at h
    · simp [*]
    · simp at h

/-- Without a region no call changes anything. -/
theorem MemReach.no_regions {memDescAddr : Nat} {d u : Nat → UInt8} (h : MemReach memDescAddr 0 d u) :
    u = d := by
  induction h with
  | start => rfl
  | call h c ih => cases c <;> exact ih

/-- After a refused initialisation at boot no call hands out a page or changes the memory. -/
theorem memInitChecked_refused_boot (hs : s.memDescNum = 0) (h : (memInitChecked map s).1 ≠ 0)
    {u : Nat → UInt8} (hu : MemReach (memInitChecked map s).2.2.memDescAddr
      (memInitChecked map s).2.2.memDescNum (memInitChecked map s).2.2.memory u) (pages : Nat) :
    memMallocLoop (memInitChecked map s).2.2.memDescAddr pages
      (memInitChecked map s).2.2.memDescNum 0 u = (0, s.memory) := by
  obtain ⟨hnum, hmem⟩ := memInitChecked_refused h
  rw [hnum, hs] at hu ⊢
  rw [hu.no_regions, hmem]
  rfl

/-- After one that succeeds every call keeps the table if no region but the last has available pages. -/
theorem memInitChecked_kept (h : (memInitChecked map s).1 = 0)
    (honly : OnlyLast (initPhysicalMemoryManager map.toUefiMemoryMap)) {u : Nat → UInt8}
    (hu : MemReach (memInitChecked map s).2.2.memDescAddr (memInitChecked map s).2.2.memDescNum
      (memInitChecked map s).2.2.memory u) (c : PmmCall) :
    CallKeeps map.osDescAddr (memInitChecked map s).2.2.memDescNum u
      (memCall map.osDescAddr (memInitChecked map s).2.2.memDescNum c u) := by
  rw [memInitChecked_table h] at hu ⊢
  exact ((Built.safe honly s.memory).reach hu).keeps c

end Checked

end Os003
