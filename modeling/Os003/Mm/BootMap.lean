import Os003.Mm.Pmm

set_option autoImplicit false

/-! # The memory map of the firmware

`Init_Physical_Memory_Manager` builds the table of regions from the memory map that the boot loader has
left. It counts the memory of the boot services as available, which the kernel goes on reading: the
firmware's stack with `BOOT_SHARE` and what it points to, and the page tables.

Which pages can be handed out depends on the table only (`handsOut_iff`): every page of an available region
can become the first one of a block, and a block goes on behind it for as many pages as it was asked for.
-/

namespace Os003

/-- `UEFI_MEMORY_DESCRIPTOR`, as far as the initialisation reads it. -/
structure UefiMemoryDescriptor where
  type : Nat
  physicalStart : Nat
  virtualStart : Nat
  numberOfPages : Nat
  deriving DecidableEq, Repr

def bootServicesCode : Nat := 3

def bootServicesData : Nat := 4

def conventionalMemory : Nat := 7

/-- `UEFI_MEMORY_MAP`: its descriptors and `StackAddr`. -/
structure UefiMemoryMap where
  buffer : List UefiMemoryDescriptor
  stackAddr : Nat

/-- `IsMemoryAvailable`. -/
def isMemoryAvailable (stackAddr : Nat) (desc : UefiMemoryDescriptor) : Bool :=
  if desc.physicalStart = stackAddr then false
  else desc.type = conventionalMemory ∨ desc.type = bootServicesCode ∨ desc.type = bootServicesData

/-- `PhysicalStart + PageSize * PAGE_SIZE`, where the next descriptor of a run begins. -/
def MemoryDescriptor.next (d : MemoryDescriptor) : Nat :=
  (d.physicalStart + d.pageSize * 2 ^ pageShift) % 2 ^ 64

/-- A new descriptor of the table; the bitmap of an unavailable one is never looked at. -/
def newDescriptor (type : MemoryType) (start pages : Nat) : MemoryDescriptor where
  type
  physicalStart := start
  pageSize := pages
  bitmap := bitmapInit (pages % 2 ^ 32) false

/-- One turn of the loop of `Init_Physical_Memory_Manager`: the descriptor goes on the last one of its type,
or is a new one. -/
def initStep (stackAddr : Nat) (ds : List MemoryDescriptor) (edc : UefiMemoryDescriptor) :
    List MemoryDescriptor :=
  if edc.physicalStart = 0 then ds
  else
    let type : MemoryType := if isMemoryAvailable stackAddr edc then .available else .unavailable
    match ds.getLast? with
    | none => ds ++ [newDescriptor type edc.physicalStart edc.numberOfPages]
    | some d =>
        if d.type ≠ type ∨ edc.physicalStart ≠ d.next then
          ds ++ [newDescriptor type edc.physicalStart edc.numberOfPages]
        else
          ds.dropLast ++
            [newDescriptor type d.physicalStart ((d.pageSize + edc.numberOfPages) % 2 ^ 64)]

/-- The loop of `Init_Physical_Memory_Manager`, over a map that its checks accept. -/
def initPhysicalMemoryManager (map : UefiMemoryMap) : List MemoryDescriptor :=
  map.buffer.foldl (initStep map.stackAddr) []

/-! ## Which pages can be handed out -/

/-- A byte of the page `f` is in the block. -/
def Block.Touches (b : Block) (f : Nat) : Prop :=
  b.addr < (f + 1) * 2 ^ pageShift ∧ f * 2 ^ pageShift < b.stop

instance (b : Block) (f : Nat) : Decidable (b.Touches f) := inferInstanceAs (Decidable (_ ∧ _))

/-- The tables that calls of `Pmm_Malloc` and `Pmm_Free` lead to. -/
inductive PmmReach (ds₀ : List MemoryDescriptor) : List MemoryDescriptor → Prop
  | start : PmmReach ds₀ ds₀
  | malloc {ds : List MemoryDescriptor} (h : PmmReach ds₀ ds) (n : Nat) : PmmReach ds₀ (pmmMalloc n ds).2
  | free {ds : List MemoryDescriptor} (h : PmmReach ds₀ ds) (addr n : Nat) :
      PmmReach ds₀ (pmmFree addr n ds)

/-- Some sequence of calls ends with a `Pmm_Malloc` whose block has the page `f` in it; the number of pages
is an `int`. -/
def HandsOut (ds₀ : List MemoryDescriptor) (f : Nat) : Prop :=
  ∃ ds n, PmmReach ds₀ ds ∧ n < 2 ^ 31 ∧ (pmmMalloc n ds).1 ≠ 0 ∧
    (⟨(pmmMalloc n ds).1, n⟩ : Block).Touches f

/-- A block that begins in the region can have the page `f` in it. -/
def InReach (d : MemoryDescriptor) (f : Nat) : Prop :=
  d.type = .available ∧ ∃ r < d.bitmap.bitSize, d.pageAddress r ≠ 0 ∧
    (⟨d.pageAddress r, 2 ^ 31 - 1⟩ : Block).Touches f

section Reach

variable {ds ds₀ : List MemoryDescriptor} {d e : MemoryDescriptor} {f n r k : Nat}

/-- The part of a descriptor that no call changes: where it is, and how many bits its bitmap has. -/
def MemoryDescriptor.frame (d : MemoryDescriptor) : MemoryType × Nat × Nat × Nat :=
  (d.type, d.physicalStart, d.pageSize, d.bitmap.bitSize)

theorem pageAddress_congr (h : e.physicalStart = d.physicalStart) (r : Nat) :
    e.pageAddress r = d.pageAddress r := by
  unfold MemoryDescriptor.pageAddress
  rw [h]

theorem bitmapAllocBits_bitSize (b : Bitmap) (v : Bool) (n : Nat) :
    (bitmapAllocBits b v n).2.bitSize = b.bitSize := by
  have h := bitmapAllocBits_spec b v n
  generalize bitmapAllocBits b v n = res at h
  cases h with
  | none => rfl
  | full => exact bitmapSetBits_bitSize ..
  | atEnd => rfl

theorem pmmMalloc_frame (n : Nat) (ds : List MemoryDescriptor) :
    (pmmMalloc n ds).2.map MemoryDescriptor.frame = ds.map MemoryDescriptor.frame := by
  induction ds with
  | nil => rfl
  | cons d ds ih =>
      have hsize := bitmapAllocBits_bitSize d.bitmap false n
      unfold pmmMalloc
      dsimp only
      split
      · generalize bitmapAllocBits d.bitmap false n = res at hsize
        obtain ⟨_ | r, b⟩ := res
        · simp [MemoryDescriptor.frame, ih, show b.bitSize = d.bitmap.bitSize from hsize]
        · simp [MemoryDescriptor.frame, show b.bitSize = d.bitmap.bitSize from hsize]
      · simp [ih]

theorem pmmFree_frame (addr n : Nat) (ds : List MemoryDescriptor) :
    (pmmFree addr n ds).map MemoryDescriptor.frame = ds.map MemoryDescriptor.frame := by
  induction ds with
  | nil => rfl
  | cons d ds ih =>
      unfold pmmFree
      split
      · simp [MemoryDescriptor.frame]
      · simp [ih]

theorem PmmReach.frame (h : PmmReach ds₀ ds) :
    ds.map MemoryDescriptor.frame = ds₀.map MemoryDescriptor.frame := by
  induction h with
  | start => rfl
  | malloc _ n ih => rw [pmmMalloc_frame, ih]
  | free _ addr n ih => rw [pmmFree_frame, ih]

/-- A block begins at a page of an available region. -/
theorem pmmMalloc_address (h : (pmmMalloc n ds).1 ≠ 0) : ∃ d ∈ ds, d.type = .available ∧
    ∃ r < d.bitmap.bitSize, (pmmMalloc n ds).1 = d.pageAddress r := by
  induction ds with
  | nil => exact absurd rfl h
  | cons d ds ih =>
      unfold pmmMalloc at h ⊢
      dsimp only at h ⊢
      split
      next ha =>
        rw [if_pos ha] at h
        have hspec := bitmapAllocBits_spec d.bitmap false n
        generalize bitmapAllocBits d.bitmap false n = res at h hspec
        cases hspec with
        | none =>
            obtain ⟨e, he, hrest⟩ := ih h
            exact ⟨e, .tail _ he, hrest⟩
        | @full r hc =>
            dsimp only
            exact ⟨d, .head _, ha, r, hc.1.1, rfl⟩
        | @atEnd r hc =>
            dsimp only
            exact ⟨d, .head _, ha, r, hc.1.1, rfl⟩
      next ha =>
        rw [if_neg ha] at h
        obtain ⟨e, he, hrest⟩ := ih h
        exact ⟨e, .tail _ he, hrest⟩

/-! ## Handing out the pages in order -/

/-- Tables that calls of `Pmm_Malloc(1)` lead to. -/
inductive Singles (ds₀ : List MemoryDescriptor) : List MemoryDescriptor → Prop
  | start : Singles ds₀ ds₀
  | step {ds : List MemoryDescriptor} (h : Singles ds₀ ds) : Singles ds₀ (pmmMalloc 1 ds).2

theorem Singles.reach {ds₁ : List MemoryDescriptor} (h0 : PmmReach ds₀ ds) (h : Singles ds ds₁) :
    PmmReach ds₀ ds₁ := by
  induction h with
  | start => exact h0
  | step _ ih => exact ih.malloc 1

theorem Singles.trans {ds₁ ds₂ : List MemoryDescriptor} (h : Singles ds ds₁) (h' : Singles ds₁ ds₂) :
    Singles ds ds₂ := by
  induction h' with
  | start => exact h
  | step _ ih => exact ih.step

/-- The bits of the pages before `r` are set, the others are clear. -/
structure FilledTo (r : Nat) (b : Bitmap) : Prop where
  set : ∀ k < r, k < b.bitSize → bitmapGetBit b k = true
  clear : ∀ k, r ≤ k → k < b.bitSize → bitmapGetBit b k = false

theorem filledTo_zero (n : Nat) : FilledTo 0 (bitmapInit n false) := by
  constructor
  · intro k hk
    omega
  · intro k _ _
    simp [bitmapGetBit, bitmapInit]

/-- The first free page is the next one to be taken. -/
theorem FilledTo.alloc {b : Bitmap} (h : FilledTo r b) (hr : r < b.bitSize) (n : Nat) :
    ∃ b', bitmapAllocBits b false n = (some r, b') ∧ (n = 1 → FilledTo (r + 1) b') := by
  have hspec := bitmapAllocBits_spec b false n
  have hcand : Candidate b false n r :=
    ⟨hr, h.clear r (Nat.le_refl r) hr, fun j hj _ hj' => h.clear j hj hj'⟩
  have hfirst : FirstCandidate b false n r := by
    refine ⟨hcand, fun x hlt hx => ?_⟩
    have hclear := hx.2.1
    rw [h.set x hlt hx.1] at hclear
    cases hclear
  generalize bitmapAllocBits b false n = res at hspec
  cases hspec with
  | none hno => exact absurd hcand (hno r)
  | @full x hx hxr =>
      obtain rfl := hx.unique hfirst
      refine ⟨_, rfl, ?_⟩
      rintro rfl
      constructor
      · intro k hk hkb
        rw [bitmapSetBits_bitSize] at hkb
        rw [bitmapGetBit_setBits]
        split
        · rfl
        · exact h.set k (by omega) hkb
      · intro k hk hkb
        rw [bitmapSetBits_bitSize] at hkb
        rw [bitmapGetBit_setBits, if_neg (by omega)]
        exact h.clear k (by omega) hkb
  | @atEnd x hx hxr =>
      obtain rfl := hx.unique hfirst
      refine ⟨_, rfl, ?_⟩
      rintro rfl
      omega

/-- The first region is filled up to the page `r`. -/
theorem singles_fill (ds : List MemoryDescriptor) (ha : d.type = .available)
    (h : FilledTo 0 d.bitmap) (hr : r ≤ d.bitmap.bitSize) :
    ∃ b, Singles (d :: ds) ({ d with bitmap := b } :: ds) ∧ FilledTo r b ∧
      b.bitSize = d.bitmap.bitSize := by
  induction r with
  | zero => exact ⟨d.bitmap, .start, h, rfl⟩
  | succ r ih =>
      obtain ⟨b, hs, hfilled, hsize⟩ := ih (by omega)
      obtain ⟨b', hb', hnext⟩ := hfilled.alloc (by omega) 1
      have hstep : (pmmMalloc 1 ({ d with bitmap := b } :: ds)).2 = { d with bitmap := b' } :: ds := by
        unfold pmmMalloc
        dsimp only
        rw [if_pos ha, hb']
      have hsize' := bitmapAllocBits_bitSize b false 1
      rw [hb'] at hsize'
      exact ⟨b', hstep ▸ hs.step, hnext rfl, hsize'.trans hsize⟩

/-- A region without free pages is passed over. -/
def Passed (d : MemoryDescriptor) : Prop :=
  d.type = .available → ∀ k < d.bitmap.bitSize, bitmapGetBit d.bitmap k = true

theorem pmmMalloc_passed (h : Passed d) (n : Nat) (ds : List MemoryDescriptor) :
    pmmMalloc n (d :: ds) = ((pmmMalloc n ds).1, d :: (pmmMalloc n ds).2) := by
  conv_lhs => unfold pmmMalloc
  dsimp only
  split
  next ha =>
    have hspec := bitmapAllocBits_spec d.bitmap false n
    have hno : ∀ x, ¬ Candidate d.bitmap false n x := by
      intro x hx
      have := hx.2.1
      rw [h ha x hx.1] at this
      cases this
    generalize bitmapAllocBits d.bitmap false n = res at hspec
    cases hspec with
    | none => rfl
    | full hx => exact absurd hx.1 (hno _)
    | atEnd hx => exact absurd hx.1 (hno _)
  next => rfl

theorem Singles.passed {ds₁ : List MemoryDescriptor} (hd : Passed d) (h : Singles ds ds₁) :
    Singles (d :: ds) (d :: ds₁) := by
  induction h with
  | start => exact .start
  | @step ds' _ ih =>
      have hstep := pmmMalloc_passed hd 1 ds'
      have := ih.step
      rw [hstep] at this
      exact this

/-- Every page of an available region can be the first one of a block. -/
theorem singles_page (hclear : ∀ d ∈ ds, FilledTo 0 d.bitmap) (hd : d ∈ ds) (ha : d.type = .available)
    (hr : r < d.bitmap.bitSize) : ∃ ds₁, Singles ds ds₁ ∧ ∀ n, (pmmMalloc n ds₁).1 = d.pageAddress r := by
  induction ds with
  | nil => cases hd
  | cons e ds ih =>
      cases hd with
      | head =>
          obtain ⟨b, hs, hfilled, hsize⟩ := singles_fill ds ha (hclear d (.head _)) hr.le
          refine ⟨_, hs, fun n => ?_⟩
          obtain ⟨b', hb', -⟩ := hfilled.alloc (hsize ▸ hr) n
          unfold pmmMalloc
          dsimp only
          rw [if_pos ha, hb']
          have hsame := pageAddress_congr (e := { d with bitmap := b }) (d := d) rfl r
          simp only
          exact hsame
      | tail _ hd =>
          obtain ⟨ds₁, hs, hfirst⟩ := ih (fun x hx => hclear x (.tail _ hx)) hd
          -- the region before is filled up first
          obtain ⟨e', he', hpassed⟩ : ∃ e', Singles (e :: ds) (e' :: ds) ∧ Passed e' := by
            by_cases hea : e.type = .available
            · obtain ⟨b, hs, hfilled, hsize⟩ := singles_fill ds hea (hclear e (.head _)) le_rfl
              exact ⟨_, hs, fun _ k hk => hfilled.set k (hsize ▸ hk) hk⟩
            · exact ⟨e, .start, fun h => absurd h hea⟩
          refine ⟨e' :: ds₁, he'.trans (hs.passed hpassed), fun n => ?_⟩
          rw [pmmMalloc_passed hpassed]
          exact hfirst n

/-- A page can be handed out exactly if it is in reach of an available region. -/
theorem handsOut_iff (hclear : ∀ d ∈ ds, FilledTo 0 d.bitmap) :
    HandsOut ds f ↔ ∃ d ∈ ds, InReach d f := by
  constructor
  · rintro ⟨ds', n, hreach, hn, haddr, htouch⟩
    obtain ⟨d', hd', ha, r, hr, hpage⟩ := pmmMalloc_address haddr
    -- the region is one of those at the start
    have hmem : d'.frame ∈ ds.map MemoryDescriptor.frame :=
      hreach.frame ▸ List.mem_map_of_mem hd'
    obtain ⟨d, hd, hframe⟩ := List.mem_map.mp hmem
    simp only [MemoryDescriptor.frame, Prod.mk.injEq] at hframe
    obtain ⟨htype, hstart, -, hsize⟩ := hframe
    have hsame : d.pageAddress r = d'.pageAddress r := pageAddress_congr hstart r
    refine ⟨d, hd, htype.trans ha, r, hsize ▸ hr, ?_, ?_⟩
    · rw [hsame, ← hpage]
      exact haddr
    · rw [hsame, ← hpage]
      have hle : n * 2 ^ pageShift ≤ (2 ^ 31 - 1) * 2 ^ pageShift :=
        Nat.mul_le_mul_right _ (by omega)
      refine ⟨htouch.1, lt_of_lt_of_le htouch.2 ?_⟩
      exact Nat.add_le_add_left hle _
  · rintro ⟨d, hd, ha, r, hr, hne, htouch⟩
    obtain ⟨ds₁, hs, hfirst⟩ := singles_page hclear hd ha hr
    refine ⟨ds₁, 2 ^ 31 - 1, hs.reach .start, by decide, ?_, ?_⟩
    · rw [hfirst]
      exact hne
    · rw [hfirst]
      exact htouch

end Reach

/-! ## The table of the map -/

/-- What holds of every new descriptor holds of the whole table. -/
theorem initStep_new {P : MemoryDescriptor → Prop}
    (hnew : ∀ type start pages, P (newDescriptor type start pages)) {ds : List MemoryDescriptor}
    (h : ∀ d ∈ ds, P d) (stackAddr : Nat) (edc : UefiMemoryDescriptor) :
    ∀ d ∈ initStep stackAddr ds edc, P d := by
  have hadd : ∀ (es : List MemoryDescriptor) (type : MemoryType) (start pages : Nat),
      (∀ d ∈ es, P d) → ∀ d ∈ es ++ [newDescriptor type start pages], P d := by
    intro es type start pages hes d hd
    obtain hd | hd := List.mem_append.mp hd
    · exact hes d hd
    · rw [List.mem_singleton.mp hd]
      exact hnew type start pages
  unfold initStep
  dsimp only
  generalize (if isMemoryAvailable stackAddr edc = true then MemoryType.available
    else MemoryType.unavailable) = type
  split
  · exact h
  · split
    · exact hadd ds _ _ _ h
    · split
      · exact hadd ds _ _ _ h
      · exact hadd _ _ _ _ fun d hd => h d (List.mem_of_mem_dropLast hd)

theorem initPhysicalMemoryManager_new {P : MemoryDescriptor → Prop}
    (hnew : ∀ type start pages, P (newDescriptor type start pages)) (map : UefiMemoryMap) :
    ∀ d ∈ initPhysicalMemoryManager map, P d := by
  have hfold : ∀ (es : List UefiMemoryDescriptor) (ds : List MemoryDescriptor),
      (∀ d ∈ ds, P d) → ∀ d ∈ es.foldl (initStep map.stackAddr) ds, P d := by
    intro es
    induction es with
    | nil => intro ds h; exact h
    | cons e es ih => intro ds h; exact ih _ (initStep_new hnew h map.stackAddr e)
  exact hfold map.buffer [] (by simp)

/-- The initialisation leaves all pages free. -/
theorem initPhysicalMemoryManager_clear (map : UefiMemoryMap) :
    ∀ d ∈ initPhysicalMemoryManager map, FilledTo 0 d.bitmap :=
  initPhysicalMemoryManager_new (fun _ _ _ => filledTo_zero _) map

end Os003
