import Os003.Mm.Metadata

set_option autoImplicit false

/-! # Boot data and the table in memory

Where only the last region of the table has pages, the bitmaps overlap nothing, and the calls do in the
memory what they do in a table whose bitmaps are storage of their own (`Shows.malloc`, `Shows.free`). So
what can be handed out is what `handsOut_iff` says of that table, whatever was in the memory before.
-/

namespace Os003

open Bytes

section Shows

variable {u v : Nat → UInt8} {p bits base num addr pages i k n size fuel sidx : Nat} {value : Bool}
  {b : Bitmap} {r last last' : MemoryDescriptor} {ds init : List MemoryDescriptor}

/-! ## A bitmap -/

/-- A bit of a byte in which one has been set or cleared. -/
theorem testBit_putBit (byte : UInt8) {i k : Nat} (hi : i < 8) (hk : k < 8) (value : Bool) :
    (if value then byte ||| 1 <<< UInt8.ofNat i else byte &&& ~~~(1 <<< UInt8.ofNat i)).toNat.testBit k =
      if k = i then value else byte.toNat.testBit k := by
  have hmask : ∀ m < 8, ((1 : UInt8) <<< UInt8.ofNat m).toBitVec = 1#8 <<< m := by decide
  have hbit : ∀ x : UInt8, x.toNat.testBit k = x.toBitVec.getLsbD k := fun _ => rfl
  rw [hbit, hbit]
  cases value <;> by_cases he : k = i <;> simp [he, hk, hi, hmask i hi] <;> omega

/-- A bit is set or cleared, the others of the bitmap stay. -/
theorem Stored.getBit_putBit (h : Stored u p bits) (hi : i < bitSizeAt u p) (hk : k < bitSizeAt u p)
    (value : Bool) :
    memGetBit (memPutBit p i value u) p k = if k = i then value else memGetBit u p k := by
  have hbyte := (h.bitByte hi).1
  have hbyte' := (h.bitByte hk).1
  obtain ⟨-, hsize, hstored⟩ := h.putBit hi value
  have hput := (hstored.bitByte (by rw [hsize]; exact hk)).1
  unfold memGetBit
  rw [hput, hbyte']
  unfold memPutBit
  rw [hbyte]
  by_cases hw : k / 8 = i / 8
  · -- a bit of the same byte
    have hne : k = i ↔ k % 8 = i % 8 := by omega
    rw [hw, Function.update_self]
    simp only [hne]
    exact testBit_putBit _ (Nat.mod_lt _ (by decide)) (Nat.mod_lt _ (by decide)) value
  · have hne : k ≠ i := fun h => hw (by rw [h])
    rw [if_neg hne, Function.update_of_ne (by omega)]

/-- The bitmap at `p` holds the bits of `b`. -/
structure ShowsBitmap (u : Nat → UInt8) (p : Nat) (b : Bitmap) : Prop where
  size : bitSizeAt u p = b.bitSize
  bits : ∀ k < b.bitSize, memGetBit u p k = bitmapGetBit b k

theorem ShowsBitmap.putBit (h : ShowsBitmap u p b) (hs : Stored u p bits) (hi : i < bitSizeAt u p)
    (value : Bool) : ShowsBitmap (memPutBit p i value u) p (bitmapPutBit b i value) where
  size := (hs.putBit hi value).2.1.trans h.size
  bits k hk := by
    rw [hs.getBit_putBit hi (h.size ▸ hk), bitmapGetBit_putBit, h.bits k hk]

theorem ShowsBitmap.setBits (h : ShowsBitmap u p b) (hs : Stored u p bits) (value : Bool) (n i : Nat) :
    ShowsBitmap (memSetBits p value n i u) p (bitmapSetBits b i n value) := by
  unfold bitmapSetBits
  induction n generalizing i u b with
  | zero => exact h
  | succ n ih =>
      unfold memSetBits setBitsLoop
      rw [h.size]
      by_cases hi : i < b.bitSize
      · rw [if_pos hi, if_pos hi]
        rw [← h.size] at hi
        exact ih (h.putBit hs hi value) (hs.putBit hi value).2.2 (i + 1)
      · rw [if_neg hi, if_neg hi]
        exact h

theorem ShowsBitmap.runLoop (h : ShowsBitmap u p b) (value : Bool) (n i : Nat) :
    memRunLoop u p value n i = Os003.runLoop b value n i := by
  induction n generalizing i with
  | zero => rfl
  | succ n ih =>
      unfold memRunLoop Os003.runLoop
      rw [h.size]
      by_cases hi : i < b.bitSize
      · rw [if_pos hi, if_pos hi, h.bits i hi, ih]
      · rw [if_neg hi, if_neg hi]

/-- The search in the memory finds what the search in the bitmap does. -/
theorem ShowsBitmap.allocLoop (h : ShowsBitmap u p b) (hs : Stored u p bits) (value : Bool)
    (size fuel sidx : Nat) :
    (memAllocLoop p value size u fuel sidx).1 = (allocBitsLoop b value size fuel sidx).1 ∧
      ShowsBitmap (memAllocLoop p value size u fuel sidx).2 p
        (allocBitsLoop b value size fuel sidx).2 := by
  induction fuel generalizing sidx with
  | zero => exact ⟨rfl, h⟩
  | succ fuel ih =>
      unfold memAllocLoop allocBitsLoop
      rw [h.size]
      by_cases hi : sidx < b.bitSize
      · rw [if_pos hi, if_pos hi, h.bits sidx hi, h.runLoop]
        by_cases hbit : bitmapGetBit b sidx ≠ value
        · rw [if_pos hbit, if_pos hbit]
          exact ih (sidx + 1)
        · rw [if_neg hbit, if_neg hbit]
          cases Os003.runLoop b value (size - 1) sidx with
          | full => exact ⟨rfl, h.setBits hs true size sidx⟩
          | broken next => exact ih next
          | atEnd => exact ⟨rfl, h⟩
      · rw [if_neg hi, if_neg hi]
        exact ⟨rfl, h⟩

theorem ShowsBitmap.alloc (h : ShowsBitmap u p b) (hs : Stored u p bits) (value : Bool) (size : Nat) :
    (memAllocBits p value size u).1 = (bitmapAllocBits b value size).1 ∧
      ShowsBitmap (memAllocBits p value size u).2 p (bitmapAllocBits b value size).2 := by
  unfold memAllocBits bitmapAllocBits
  rw [h.size]
  exact h.allocLoop hs value size b.bitSize 0

/-! ## The table -/

/-- The memory holds the table, with the bits of its regions. -/
structure Shows (base num : Nat) (u : Nat → UInt8) (ds : List MemoryDescriptor) : Prop
    extends Safe base num u ds where
  bitmaps : ∀ i r, ds[i]? = some r → r.type = .available →
    ShowsBitmap u (bitmapOf (descAt base i)) r.bitmap

/-- The regions before the last one have no pages. -/
theorem Shows.empty (h : Shows base num u (init ++ [last])) (hi : init[i]? = some r)
    (ha : r.type = .available) : r.pageSize = 0 ∧ r.bitmap.bitSize = 0 ∧
      bitSizeAt u (bitmapOf (descAt base i)) = 0 := by
  have hlt := (List.getElem?_eq_some_iff.mp hi).1
  have hi' : (init ++ [last])[i]? = some r := by
    rw [List.getElem?_append_left hlt]
    exact hi
  have honly := h.onlyLast i r hi' ha
  rw [if_neg (by rw [List.length_append, List.length_singleton]; omega)] at honly
  have hsize := ((h.rows i r hi').bitmap ha).1
  rw [honly] at hsize
  exact ⟨honly, (h.bitmaps i r hi' ha).size.symm.trans hsize, hsize⟩

/-- Only the bits of the last region have changed. -/
theorem Shows.of_last (h : Shows base num u (init ++ [last]))
    (hs : SameOutside (descAt base num) k u v) (hframe : last'.frame = last.frame)
    (hlast : last.type = .available → ShowsBitmap v (bitmapOf (descAt base init.length)) last'.bitmap) :
    Shows base num v (init ++ [last']) := by
  simp only [MemoryDescriptor.frame, Prod.mk.injEq] at hframe
  obtain ⟨htype, hstart, hpages, -⟩ := hframe
  have hlen : (init ++ [last']).length = (init ++ [last]).length := by simp
  have hsafe := h.toSafe.of_sameOutside hs
  have hget : (init ++ [last])[init.length]? = some last := by simp
  have hold : ∀ (i : Nat) r, init[i]? = some r → (init ++ [last'])[i]? = (init ++ [last])[i]? := by
    intro i r hi
    have hlt := (List.getElem?_eq_some_iff.mp hi).1
    rw [List.getElem?_append_left hlt, List.getElem?_append_left hlt]
  refine ⟨⟨h.count.trans hlen.symm, ?_, ?_, h.fits⟩, ?_⟩
  · intro i r hi
    obtain hi' | ⟨rfl, rfl⟩ := getElem?_concat_some hi
    · rw [hold i r hi'] at hi
      exact hsafe.rows i r hi
    · have hrow := hsafe.rows _ _ hget
      refine ⟨hrow.type.trans (by rw [htype]), hrow.start.trans hstart.symm, hrow.pages.trans hpages.symm, ?_⟩
      rw [htype, hpages]
      exact hrow.bitmap
  · intro i r hi ha
    rw [hlen]
    obtain hi' | ⟨rfl, rfl⟩ := getElem?_concat_some hi
    · rw [hold i r hi'] at hi
      exact h.onlyLast i r hi ha
    · rw [hpages]
      exact h.onlyLast _ _ hget (htype ▸ ha)
  · intro i r hi ha
    obtain hi' | ⟨rfl, rfl⟩ := getElem?_concat_some hi
    · obtain ⟨-, hbits, -⟩ := h.empty hi' ha
      rw [hold i r hi'] at hi
      refine ⟨?_, fun k hk => by omega⟩
      rw [((hsafe.rows i r hi).bitmap ha).1, ← ((h.rows i r hi).bitmap ha).1]
      exact (h.bitmaps i r hi ha).size
    · exact hlast (htype ▸ ha)

/-! ## The calls -/

/-- `Pmm_Malloc` passes over the regions before the last one. -/
theorem pmmMalloc_concat (h : ∀ d ∈ init, Passed d) (n : Nat) (last : MemoryDescriptor) :
    pmmMalloc n (init ++ [last]) = ((pmmMalloc n [last]).1, init ++ (pmmMalloc n [last]).2) := by
  induction init with
  | nil => rfl
  | cons d init ih =>
      have hrest := ih fun e he => h e (List.mem_cons_of_mem d he)
      rw [List.cons_append, pmmMalloc_passed (h d List.mem_cons_self), hrest]
      rfl

/-- `Pmm_Free` passes over regions without pages. -/
theorem pmmFree_concat (h : ∀ d ∈ init, d.type = .available → d.pageSize = 0) (addr n : Nat)
    (last : MemoryDescriptor) : pmmFree addr n (init ++ [last]) = init ++ pmmFree addr n [last] := by
  induction init with
  | nil => rfl
  | cons d init ih =>
      have hrest := ih fun e he => h e (List.mem_cons_of_mem d he)
      have hno : ¬ (d.type = .available ∧ d.physicalStart ≤ addr ∧ addr < d.endAddr) := by
        rintro ⟨ha, hlow, hhigh⟩
        unfold MemoryDescriptor.endAddr at hhigh
        rw [h d List.mem_cons_self ha, Nat.zero_mul, Nat.add_zero] at hhigh
        have := Nat.mod_le d.physicalStart (2 ^ 64)
        omega
      rw [List.cons_append, List.cons_append, ← hrest]
      conv_lhs => unfold pmmFree
      rw [if_neg hno]

theorem memFreeLoop_skip (addr pages : Nat) {n i : Nat}
    (h : ∀ j < i, typeAt u (descAt base j) = MemoryType.available.code → pagesAt u (descAt base j) = 0) :
    memFreeLoop base addr pages (i + n) 0 u = memFreeLoop base addr pages n i u := by
  induction i generalizing n with
  | zero => rw [Nat.zero_add]
  | succ i ih =>
      rw [show i + 1 + n = i + (n + 1) by omega, ih fun j hj => h j (by omega)]
      conv_lhs => unfold memFreeLoop
      dsimp only
      split
      next hc =>
        obtain ⟨ha, hlow, hhigh⟩ := hc
        rw [h i (by omega) ha, Nat.zero_mul, Nat.add_zero] at hhigh
        have := Nat.mod_le (startAt u (descAt base i)) (2 ^ 64)
        omega
      next => rfl

/-- The entries before the last one are passed over in the memory, too. -/
theorem Shows.skipped (h : Shows base num u (init ++ [last])) :
    num = init.length + 1 ∧
      (∀ j < init.length, typeAt u (descAt base j) = MemoryType.available.code →
        bitSizeAt u (bitmapOf (descAt base j)) = 0 ∧ pagesAt u (descAt base j) = 0) ∧
      ∀ d ∈ init, d.type = .available → d.pageSize = 0 ∧ d.bitmap.bitSize = 0 := by
  have hnum : num = init.length + 1 := by
    rw [h.count, List.length_append, List.length_singleton]
  refine ⟨hnum, fun j hj ha => ?_, fun d hd ha => ?_⟩
  · exact (h.available (by omega) ha).1 (by omega)
  · obtain ⟨i, hi, rfl⟩ := List.mem_iff_getElem.mp hd
    obtain ⟨hpages, hbits, -⟩ := h.empty (List.getElem?_eq_getElem hi) ha
    exact ⟨hpages, hbits⟩

/-- The bitmap of the last region lies behind the table. -/
theorem Shows.stored (h : Shows base num u (init ++ [last])) (ha : last.type = .available) :
    RowAt u (descAt base init.length) last ∧
      ShowsBitmap u (bitmapOf (descAt base init.length)) last.bitmap ∧
      Stored u (bitmapOf (descAt base init.length)) (descAt base num) := by
  obtain ⟨hnum, -, -⟩ := h.skipped
  have hget : (init ++ [last])[init.length]? = some last := by simp
  have hrow := h.rows _ _ hget
  have htype : typeAt u (descAt base init.length) = MemoryType.available.code := by rw [hrow.type, ha]
  exact ⟨hrow, h.bitmaps _ _ hget ha, ((h.available (by omega) htype).2 (by omega)).1⟩

/-- `Pmm_Malloc` at the last region of the table. -/
theorem pmmMalloc_last (ha : last.type = .available) (n : Nat) : pmmMalloc n [last] =
    ((bitmapAllocBits last.bitmap false n).1.elim 0 last.pageAddress,
      [{ last with bitmap := (bitmapAllocBits last.bitmap false n).2 }]) := by
  unfold pmmMalloc pmmMalloc
  dsimp only
  rw [if_pos ha]
  generalize bitmapAllocBits last.bitmap false n = res
  obtain ⟨_ | r, b⟩ := res
  · rw [Option.elim_none]
  · rw [Option.elim_some]

/-- `Pmm_Malloc` at the last entry, which says where the region is still when its bitmap has changed. -/
theorem memMallocLoop_last (pages : Nat) (hrow : RowAt u (descAt base i) last) (ha : last.type = .available)
    (hstart : startAt (memAllocBits (bitmapOf (descAt base i)) false (pages % 2 ^ 32) u).2 (descAt base i) =
      last.physicalStart) : memMallocLoop base pages 1 i u =
    ((memAllocBits (bitmapOf (descAt base i)) false (pages % 2 ^ 32) u).1.elim 0 last.pageAddress,
      (memAllocBits (bitmapOf (descAt base i)) false (pages % 2 ^ 32) u).2) := by
  have htype : typeAt u (descAt base i) = MemoryType.available.code := by rw [hrow.type, ha]
  unfold memMallocLoop memMallocLoop
  dsimp only
  rw [if_pos htype]
  generalize memAllocBits _ _ _ _ = res at hstart ⊢
  obtain ⟨_ | r, v⟩ := res
  · rw [Option.elim_none]
  · dsimp only at hstart ⊢
    rw [Option.elim_some, hstart]
    unfold MemoryDescriptor.pageAddress
    dsimp only

/-- `Pmm_Malloc` in the memory does what it does in the table. -/
theorem Shows.malloc (h : Shows base num u ds) (pages : Nat) :
    (memMallocLoop base pages num 0 u).1 = (pmmMalloc (pages % 2 ^ 32) ds).1 ∧
      Shows base num (memMallocLoop base pages num 0 u).2 (pmmMalloc (pages % 2 ^ 32) ds).2 := by
  cases ds using List.reverseRecOn with
  | nil =>
      have hnum : num = 0 := h.count
      subst hnum
      exact ⟨rfl, h⟩
  | append_singleton init last =>
      obtain ⟨hnum, hskip, hempty⟩ := h.skipped
      have hpass : ∀ d ∈ init, Passed d := by
        intro d hd ha k hk
        have := (hempty d hd ha).2
        omega
      have hloop : memMallocLoop base pages num 0 u = memMallocLoop base pages 1 init.length u := by
        rw [hnum]
        exact memMallocLoop_skip pages fun j hj ha => (hskip j hj ha).1
      rw [pmmMalloc_concat hpass, hloop]
      have hrow := h.rows init.length last (by simp)
      by_cases ha : last.type = .available
      · obtain ⟨-, hbits, hstored⟩ := h.stored ha
        obtain ⟨hfound, hshows⟩ := hbits.alloc hstored false (pages % 2 ^ 32)
        have hframe := bitmapAllocBits_bitSize last.bitmap false (pages % 2 ^ 32)
        -- the search writes behind the table
        have hsame := hstored.allocLoop false (pages % 2 ^ 32)
          (bitSizeAt u (bitmapOf (descAt base init.length))) 0
        have hstart := ((h.toSafe.of_sameOutside hsame).rows init.length last (by simp)).start
        rw [pmmMalloc_last ha, memMallocLoop_last pages hrow ha hstart, hfound]
        refine ⟨rfl, h.of_last hsame ?_ fun _ => hshows⟩
        simp only [MemoryDescriptor.frame, hframe]
      · have htype : typeAt u (descAt base init.length) ≠ MemoryType.available.code := by
          rw [hrow.type]
          exact fun heq => ha (code_injective heq)
        unfold memMallocLoop memMallocLoop pmmMalloc pmmMalloc
        dsimp only
        rw [if_neg htype, if_neg ha]
        exact ⟨rfl, h⟩

/-- `Pmm_Free` in the memory does what it does in the table. -/
theorem Shows.free (h : Shows base num u ds) (addr pages : Nat) :
    Shows base num (memFreeLoop base addr pages num 0 u) (pmmFree addr (pages % 2 ^ 32) ds) := by
  have hsame := h.toSafe.call (.free addr pages)
  unfold memCall at hsame
  dsimp only at hsame
  cases ds using List.reverseRecOn with
  | nil =>
      have hnum : num = 0 := h.count
      subst hnum
      exact h
  | append_singleton init last =>
      obtain ⟨hnum, hskip, hempty⟩ := h.skipped
      rw [pmmFree_concat fun d hd ha => (hempty d hd ha).1]
      have hloop : memFreeLoop base addr pages num 0 u = memFreeLoop base addr pages 1 init.length u := by
        rw [hnum]
        exact memFreeLoop_skip addr pages fun j hj ha => (hskip j hj ha).2
      rw [hloop] at hsame ⊢
      have hrow := h.rows init.length last (by simp)
      have htype : typeAt u (descAt base init.length) = MemoryType.available.code ↔
          last.type = .available := by
        rw [hrow.type]
        exact ⟨code_injective, fun ha => by rw [ha]⟩
      unfold memFreeLoop memFreeLoop at hsame ⊢
      unfold pmmFree pmmFree MemoryDescriptor.endAddr
      dsimp only at hsame ⊢
      simp only [htype, hrow.start, hrow.pages] at hsame ⊢
      split
      next hc =>
        rw [if_pos hc] at hsame
        obtain ⟨-, hbits, hstored⟩ := h.stored hc.1
        exact h.of_last hsame (by simp [MemoryDescriptor.frame])
          fun _ => hbits.setBits hstored false _ _
      next hc => exact h

/-! ## Runs -/

/-- Some sequence of calls ends with a `Pmm_Malloc` whose block has the page `f` in it; the number of pages
is an `int`. -/
def MemHandsOut (map : FirmwareMap) (d : Nat → UInt8) (f : Nat) : Prop :=
  ∃ u n, MemReach map.osDescAddr (memInit map d).1 (memInit map d).2 u ∧ n < 2 ^ 31 ∧
    (memMallocLoop map.osDescAddr n (memInit map d).1 0 u).1 ≠ 0 ∧
    (⟨(memMallocLoop map.osDescAddr n (memInit map d).1 0 u).1, n⟩ : Block).Touches f

/-- The bitmap of every entry that the initialisation writes has as many bits as pages, as far as a
`uint32_t` counts them. -/
theorem initPhysicalMemoryManager_bitSize (map : UefiMemoryMap) :
    ∀ r ∈ initPhysicalMemoryManager map, r.bitmap.bitSize = r.pageSize % 2 ^ 32 :=
  initPhysicalMemoryManager_new (fun _ _ _ => rfl) map

theorem Shows.start {map : FirmwareMap} (h : OnlyLast (initPhysicalMemoryManager map.toUefiMemoryMap))
    (d : Nat → UInt8) : Shows map.osDescAddr (memInit map d).1 (memInit map d).2
      (initPhysicalMemoryManager map.toUefiMemoryMap) := by
  have hB := built_memInit map d
  have hs := Built.safe h d
  have hfree := hB.allFree hs
  have hclear := initPhysicalMemoryManager_clear map.toUefiMemoryMap
  refine ⟨hs, fun i r hi ha => ?_⟩
  have hmem := List.mem_of_getElem? hi
  have hrow := hs.rows i r hi
  have hlt := (List.getElem?_eq_some_iff.mp hi).1
  have hsize : bitSizeAt (memInit map d).2 (bitmapOf (descAt map.osDescAddr i)) = r.bitmap.bitSize := by
    rw [(hrow.bitmap ha).1, initPhysicalMemoryManager_bitSize _ r hmem]
  refine ⟨hsize, fun k hk => ?_⟩
  rw [(hclear r hmem).clear k (Nat.zero_le k) hk]
  refine (hfree i (hs.count ▸ hlt) (by rw [hrow.type, ha]) k ?_).2
  rw [hrow.pages]
  have hmod := Nat.mod_le r.pageSize (2 ^ 32)
  rw [initPhysicalMemoryManager_bitSize _ r hmem] at hk
  omega

/-- What calls lead to in the memory they lead to in the table. -/
theorem Shows.reach {ds₀ : List MemoryDescriptor} (h : Shows base num u ds₀) (hr : MemReach base num u v) :
    ∃ ds, PmmReach ds₀ ds ∧ Shows base num v ds := by
  induction hr with
  | start => exact ⟨ds₀, .start, h⟩
  | call _ c ih =>
      obtain ⟨ds, hreach, hshows⟩ := ih
      cases c with
      | malloc pages => exact ⟨_, hreach.malloc _, (hshows.malloc pages).2⟩
      | free addr pages => exact ⟨_, hreach.free _ _, hshows.free addr pages⟩

/-- Pages that are taken one after the other in the table can be taken in the memory. -/
theorem Shows.singles {ds₀ : List MemoryDescriptor} (h : Shows base num u ds₀) (hs : Singles ds₀ ds) :
    ∃ v, MemReach base num u v ∧ Shows base num v ds := by
  induction hs with
  | start => exact ⟨u, .start, h⟩
  | step _ ih =>
      obtain ⟨v, hreach, hshows⟩ := ih
      exact ⟨_, hreach.call (.malloc 1), (hshows.malloc 1).2⟩

/-- A page can be handed out exactly if it is in reach of an available region. -/
theorem memHandsOut_iff {map : FirmwareMap} {f : Nat}
    (h : OnlyLast (initPhysicalMemoryManager map.toUefiMemoryMap)) (d : Nat → UInt8) :
    MemHandsOut map d f ↔ ∃ r ∈ initPhysicalMemoryManager map.toUefiMemoryMap, InReach r f := by
  have hstart := Shows.start h d
  have hclear := initPhysicalMemoryManager_clear map.toUefiMemoryMap
  constructor
  · rintro ⟨u, n, hreach, hn, haddr, htouch⟩
    obtain ⟨ds, hreach', hshows⟩ := hstart.reach hreach
    have hres := (hshows.malloc n).1
    rw [Nat.mod_eq_of_lt (show n < 2 ^ 32 by omega)] at hres
    rw [hres] at haddr htouch
    exact (handsOut_iff hclear).mp ⟨ds, n, hreach', hn, haddr, htouch⟩
  · rintro ⟨r, hr, ha, k, hk, hne, htouch⟩
    obtain ⟨ds, hs, hfirst⟩ := singles_page hclear hr ha hk
    obtain ⟨v, hreach, hshows⟩ := hstart.singles hs
    have hres := (hshows.malloc (2 ^ 31 - 1)).1
    rw [hfirst] at hres
    refine ⟨v, 2 ^ 31 - 1, hreach, by decide, ?_, ?_⟩
    · rw [hres]
      exact hne
    · rw [hres]
      exact htouch

end Shows

/-- Where the bitmaps overlap nothing, the pages in use from the time of boot are never handed out exactly
if no available region reaches them, be it from below or, with an index that the shift overflows, from
above. -/
theorem bootData_kept_iff (map : FirmwareMap)
    (h : OnlyLast (initPhysicalMemoryManager map.toUefiMemoryMap)) (d : Nat → UInt8) (boot : Set Nat) :
    (∀ f ∈ boot, ¬ MemHandsOut map d f) ↔
      ∀ f ∈ boot, ∀ r ∈ initPhysicalMemoryManager map.toUefiMemoryMap, ¬ InReach r f := by
  constructor
  · intro hkept f hf r hr hreach
    exact hkept f hf ((memHandsOut_iff h d).mpr ⟨r, hr, hreach⟩)
  · intro hout f hf hhands
    obtain ⟨r, hr, hreach⟩ := (memHandsOut_iff h d).mp hhands
    exact hout f hf r hr hreach

/-- The page lies in memory of this type. -/
def UefiMemoryMap.PageOf (map : UefiMemoryMap) (type f : Nat) : Prop :=
  ∃ edc ∈ map.buffer, edc.type = type ∧ edc.physicalStart ≤ f * 2 ^ pageShift ∧
    f * 2 ^ pageShift < edc.physicalStart + edc.numberOfPages * 2 ^ pageShift

theorem osDescAddr_physical : 0x70000 < 2 ^ 52 := by decide

/-- One region of conventional memory. -/
def oneRegion : FirmwareMap where
  buffer := [⟨conventionalMemory, 0x100000, 0, 16⟩]
  stackAddr := 0x80000
  osDescAddr := 0x70000
  words := by decide
  physical := osDescAddr_physical
  few := by decide

theorem bootData_kept_oneRegion : ¬ MemHandsOut oneRegion (fun _ => 0) 0x50 := by
  have htable : initPhysicalMemoryManager oneRegion.toUefiMemoryMap =
      [newDescriptor .available 0x100000 16] := rfl
  have honly : OnlyLast (initPhysicalMemoryManager oneRegion.toUefiMemoryMap) := by
    rw [htable]
    intro i r hi _
    obtain ⟨hlt, rfl⟩ := List.getElem?_eq_some_iff.mp hi
    obtain rfl : i = 0 := by simpa using hlt
    simp [newDescriptor]
  -- the region begins above the page
  have habove : ∀ k < 16, ¬ (⟨(newDescriptor .available 0x100000 16).pageAddress k, 2 ^ 31 - 1⟩ :
      Block).Touches 0x50 := by decide +kernel
  apply (bootData_kept_iff oneRegion honly (fun _ => 0) {0x50}).mpr _ 0x50 rfl
  intro f hf r hr hreach
  rw [htable, List.mem_singleton] at hr
  subst hr
  obtain rfl : f = 0x50 := hf
  obtain ⟨-, k, hk, -, htouch⟩ := hreach
  exact habove k hk htouch

/-- One region of data of the boot services. -/
def bootRegion : FirmwareMap where
  buffer := [⟨bootServicesData, 0x100000, 0, 16⟩]
  stackAddr := 0x80000
  osDescAddr := 0x70000
  words := by decide
  physical := osDescAddr_physical
  few := by decide

/-- The first `Pmm_Malloc(1)` hands out a page of the boot services' data, where the firmware's stack may
be. -/
theorem bootData_handedOut : bootRegion.PageOf bootServicesData 0x100 ∧
    MemHandsOut bootRegion (fun _ => 0) 0x100 := by
  constructor
  · exact ⟨_, List.mem_singleton_self _, rfl, by decide, by decide⟩
  · exact ⟨_, 1, .start, by decide, by decide +kernel, by decide +kernel⟩

end Os003
