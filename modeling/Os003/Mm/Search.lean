import Os003.Mm.Pmm

set_option autoImplicit false

/-! # What a search returns

What `Pmm_Malloc` makes of the search in a bitmap. `BitmapAllocBits` has a result of its own for "no
place", -1, but it leaves its loop with the start of a run that the end of the bitmap cuts off, and it
takes a run that is one bit too short (`reportsFailure_iff`). An index is shifted as a 32-bit `int`, so
that it is the index of the address only below 2^19 (`indexAgrees_iff`).
-/

namespace Os003

/-! ## No place -/

/-- The bitmap has `size` clear bits in a row. -/
def HasRun (b : Bitmap) (size : Nat) : Prop :=
  ∃ r, r + size ≤ b.bitSize ∧ ∀ j, r ≤ j → j < r + size → bitmapGetBit b j = false

/-- The last bit of the bitmap is clear. -/
def LastClear (b : Bitmap) : Prop := 0 < b.bitSize ∧ bitmapGetBit b (b.bitSize - 1) = false

/-- The result is -1 exactly when there is no place for `size` bits; then the bitmap is as before, and
`Pmm_Malloc` goes on with the next region. -/
structure ReportsFailure (b : Bitmap) (size : Nat) : Prop where
  none_iff : (bitmapAllocBits b false size).1 = none ↔ ¬ HasRun b size
  unchanged : ¬ HasRun b size → (bitmapAllocBits b false size).2 = b
  moves_on : ¬ HasRun b size → ∀ d ds, d.type = .available → d.bitmap = b →
    pmmMalloc size (d :: ds) = ((pmmMalloc size ds).1, d :: (pmmMalloc size ds).2)

section Failure

variable {b : Bitmap} {size i r : Nat}

/-- A run is a place that the search takes. -/
theorem HasRun.candidate (hsize : 1 ≤ size) (h : HasRun b size) : ∃ r, Candidate b false size r := by
  obtain ⟨r, hr, hclear⟩ := h
  refine ⟨r, by omega, hclear r le_rfl (by omega), ?_⟩
  intro j hj hj' _
  exact hclear j hj (by omega)

/-- The other places that it takes are one bit too short, or are cut off by the end. -/
theorem candidate_iff (hsize : 2 ≤ size) :
    (∃ r, Candidate b false size r) ↔ HasRun b (size - 1) ∨ LastClear b := by
  constructor
  · rintro ⟨r, hlt, hbit, hrun⟩
    by_cases hfits : r + (size - 1) ≤ b.bitSize
    · left
      refine ⟨r, hfits, ?_⟩
      intro j hj hj'
      exact hrun j hj hj' (by omega)
    · right
      exact ⟨by omega, hrun _ (by omega) (by omega) (by omega)⟩
  · rintro (⟨r, hr, hclear⟩ | ⟨hpos, hlast⟩)
    · refine ⟨r, by omega, hclear r le_rfl (by omega), ?_⟩
      intro j hj hj' _
      exact hclear j hj hj'
    · refine ⟨b.bitSize - 1, by omega, hlast, ?_⟩
      intro j hj _ hj'
      have he : j = b.bitSize - 1 := by omega
      rw [he]
      exact hlast

/-- For one bit a place is a run. -/
theorem candidate_one (h : Candidate b false 1 r) : HasRun b 1 := by
  refine ⟨r, h.1, ?_⟩
  intro j hj hj'
  have he : j = r := by omega
  rw [he]
  exact h.2.1

theorem bitmapAllocBits_none (h : ∀ r, ¬ Candidate b false size r) :
    bitmapAllocBits b false size = (none, b) := by
  have hspec := bitmapAllocBits_spec b false size
  generalize bitmapAllocBits b false size = res at hspec
  cases hspec with
  | none => rfl
  | full hfirst => exact absurd hfirst.1 (h _)
  | atEnd hfirst => exact absurd hfirst.1 (h _)

theorem bitmapAllocBits_ne_none (h : Candidate b false size r) :
    (bitmapAllocBits b false size).1 ≠ none := by
  have hspec := bitmapAllocBits_spec b false size
  generalize bitmapAllocBits b false size = res at hspec
  cases hspec with
  | none hno => exact absurd h (hno r)
  | full => simp
  | atEnd => simp

/-- Failures are reported when there is a run or no place at all that the search takes. -/
theorem reportsFailure_iff_candidate (hsize : 1 ≤ size) :
    ReportsFailure b size ↔ HasRun b size ∨ ∀ r, ¬ Candidate b false size r := by
  constructor
  · intro h
    by_cases hrun : HasRun b size
    · exact Or.inl hrun
    · refine Or.inr fun r hr => ?_
      exact bitmapAllocBits_ne_none hr (h.none_iff.mpr hrun)
  · rintro (hrun | hno)
    · obtain ⟨r, hr⟩ := hrun.candidate hsize
      refine ⟨?_, fun h => absurd hrun h, fun h => absurd hrun h⟩
      exact iff_of_false (bitmapAllocBits_ne_none hr) (not_not_intro hrun)
    · have halloc := bitmapAllocBits_none hno
      have hrun : ¬ HasRun b size := by
        intro hrun
        obtain ⟨r, hr⟩ := hrun.candidate hsize
        exact hno r hr
      refine ⟨?_, ?_, ?_⟩
      · rw [halloc]
        exact iff_of_true rfl hrun
      · intro _
        rw [halloc]
      · rintro _ d ds ha rfl
        rw [pmmMalloc, if_pos ha, halloc]

end Failure

/-- `BitmapAllocBits` reports exactly that there is no place when there is one, when a single bit is
asked for, or when there is neither a run that is one bit too short nor a clear bit at the end. -/
theorem reportsFailure_iff {b : Bitmap} {size : Nat} (hsize : 1 ≤ size) :
    ReportsFailure b size ↔
      HasRun b size ∨ size = 1 ∨ ¬ HasRun b (size - 1) ∧ ¬ LastClear b := by
  rw [reportsFailure_iff_candidate hsize]
  by_cases hone : size = 1
  · subst hone
    refine iff_of_true ?_ (Or.inr (Or.inl rfl))
    by_cases hrun : HasRun b 1
    · exact Or.inl hrun
    · exact Or.inr fun r hr => hrun (candidate_one hr)
  · have hcand := candidate_iff (b := b) (show 2 ≤ size by omega)
    rw [← not_exists, hcand, not_or]
    simp only [hone, false_or]

theorem reportsFailure_full : ReportsFailure ⟨8, fun _ => 0xFF⟩ 2 := by
  refine (reportsFailure_iff (by decide)).mpr (Or.inr (Or.inr ⟨?_, ?_⟩))
  · rintro ⟨r, hr, hrun⟩
    have hlt : r < 8 := hr
    have hbit := hrun r le_rfl (by omega)
    interval_cases r <;> revert hbit <;> decide
  · rintro ⟨-, h⟩
    revert h
    decide

/-- Only the last of eight bits is clear, and two are asked for: the result is 7. -/
theorem short_run_returned : ¬ ReportsFailure ⟨8, fun _ => 0x7F⟩ 2 := by
  intro h
  have hrun : ¬ HasRun ⟨8, fun _ => 0x7F⟩ 2 := by
    rintro ⟨r, hr, hrun⟩
    have hlt : r + 2 ≤ 8 := hr
    have hbit := hrun r le_rfl (by omega)
    have : r < 7 := by omega
    interval_cases r <;> revert hbit <;> decide
  have hnone := h.none_iff.mpr hrun
  revert hnone
  decide

/-! ## Index and address -/

/-- `Pmm_Malloc(1)` takes the bit `i` of the region `d` at the place `k` of the table. -/
structure Picks (ds : List MemoryDescriptor) (k i : Nat) (d : MemoryDescriptor) : Prop where
  get : ds[k]? = some d
  available : d.type = .available
  earlier : ∀ j < k, ∀ e, ds[j]? = some e → e.type = .available →
    (bitmapAllocBits e.bitmap false 1).1 = none
  bit : (bitmapAllocBits d.bitmap false 1).1 = some i

/-- The address that is returned is that of the page `i` of the region, and to free it clears the bit
`i` of the region and nothing else. -/
structure IndexAgrees (ds : List MemoryDescriptor) (k i : Nat) (d : MemoryDescriptor) : Prop where
  address : (pmmMalloc 1 ds).1 = d.physicalStart + 4096 * i
  inside : d.physicalStart ≤ (pmmMalloc 1 ds).1 ∧
    (pmmMalloc 1 ds).1 + 4096 ≤ d.physicalStart + 4096 * d.pageSize
  freed : pmmFree (pmmMalloc 1 ds).1 1 (pmmMalloc 1 ds).2 = markPages k i 1 false (pmmMalloc 1 ds).2

section Index

variable {ds : List MemoryDescriptor} {d e : MemoryDescriptor} {b : Bitmap} {i k : Nat}

/-- One bit is found where it is, and set. -/
theorem bitmapAllocBits_one (h : (bitmapAllocBits b false 1).1 = some i) :
    bitmapAllocBits b false 1 = (some i, bitmapSetBits b i 1 true) ∧ i < b.bitSize := by
  have hspec := bitmapAllocBits_spec b false 1
  generalize bitmapAllocBits b false 1 = res at h hspec
  cases hspec with
  | none => cases h
  | full hfirst =>
      cases h
      exact ⟨rfl, hfirst.1.1⟩
  | atEnd hfirst hr =>
      have := hfirst.1.1
      omega

/-- No bit is found, and the bitmap is as before. -/
theorem bitmapAllocBits_one_none (h : (bitmapAllocBits b false 1).1 = none) :
    bitmapAllocBits b false 1 = (none, b) := by
  have hspec := bitmapAllocBits_spec b false 1
  generalize bitmapAllocBits b false 1 = res at h hspec
  cases hspec with
  | none => rfl
  | full => cases h
  | atEnd => cases h

/-- What the call does. -/
theorem Picks.malloc (h : Picks ds k i d) :
    pmmMalloc 1 ds = (d.pageAddress i, markPages k i 1 true ds) := by
  induction ds generalizing k with
  | nil => cases h.get
  | cons e es ih =>
      rw [pmmMalloc]
      cases k with
      | zero =>
          cases h.get
          rw [if_pos h.available, (bitmapAllocBits_one h.bit).1]
          simp [markPages]
      | succ k =>
          have hrest := ih
            { get := h.get
              available := h.available
              earlier := fun j hj e' he' => h.earlier (j + 1) (by omega) e' he'
              bit := h.bit }
          by_cases ha : e.type = .available
          · have hnone := bitmapAllocBits_one_none (h.earlier 0 (by omega) e rfl ha)
            rw [if_pos ha, hnone, hrest]
            simp [markPages]
          · rw [if_neg ha, hrest]
            simp [markPages]

/-- An index from 2^19 on comes out as another address. -/
theorem pageAddress_ne (hi : 2 ^ 19 ≤ i) (hi' : i < 2 ^ 31) :
    d.pageAddress i ≠ d.physicalStart + 4096 * i := by
  have hlt : Int.bmod ((i : Int) * 2 ^ pageShift) (2 ^ 32) < 2 ^ 31 := Int.bmod_lt (by decide)
  have hle : -(2 ^ 31) ≤ Int.bmod ((i : Int) * 2 ^ pageShift) (2 ^ 32) := Int.le_bmod (by decide)
  unfold MemoryDescriptor.pageAddress
  generalize Int.bmod ((i : Int) * 2 ^ pageShift) (2 ^ 32) = x at hlt hle
  omega

/-- The other regions of the table are as before. -/
theorem markPages_other {r n j : Nat} {v : Bool} (hj : j ≠ k) :
    (markPages k r n v ds)[j]? = ds[j]? := by
  rw [markPages, List.getElem?_modify]
  simp [Ne.symm hj]

theorem markPages_self {r n : Nat} {v : Bool} (hk : ds[k]? = some d) :
    (markPages k r n v ds)[k]? = some { d with bitmap := bitmapSetBits d.bitmap r n v } := by
  rw [markPages, List.getElem?_modify, hk]
  simp

/-- An earlier region that claims the address is the one whose bits change. -/
theorem pmmFree_earlier {addr n j : Nat} (hj : j < k) (hje : ds[j]? = some e) (he : e.Claims addr) :
    (pmmFree addr n ds)[k]? = ds[k]? := by
  induction ds generalizing j k with
  | nil => cases hje
  | cons x xs ih =>
      unfold pmmFree
      cases k with
      | zero => omega
      | succ k =>
          split
          · rfl
          · rename_i hx
            cases j with
            | zero =>
                cases hje
                exact absurd ⟨he.1, he.2⟩ hx
            | succ j => exact ih (show j < k by omega) hje

end Index

/-- Index and address agree exactly for the indices that the shift does not overflow, when no earlier
region claims the address. -/
theorem indexAgrees_iff {ds : List MemoryDescriptor} {d : MemoryDescriptor} {i k : Nat}
    (h : Picks ds k i d) (hpages : d.pageSize < 2 ^ 31) (hbits : d.bitmap.bitSize = d.pageSize)
    (hbelow : d.physicalStart + 4096 * d.pageSize < 2 ^ 64) :
    IndexAgrees ds k i d ↔
      i < 2 ^ 19 ∧ ∀ j < k, ∀ e, ds[j]? = some e → ¬ e.Claims (d.physicalStart + 4096 * i) := by
  have hmalloc := h.malloc
  have hi : i < d.pageSize := hbits ▸ (bitmapAllocBits_one h.bit).2
  have hbelow' : d.physicalStart + d.pageSize * 2 ^ pageShift < 2 ^ 64 := by
    simp only [pageShift]
    omega
  have hmul : i * 2 ^ pageShift = 4096 * i := by
    simp only [pageShift]
    omega
  have hself := markPages_self (r := i) (n := 1) (v := true) h.get
  constructor
  · rintro ⟨haddr, -, hfreed⟩
    rw [hmalloc] at haddr hfreed
    dsimp only at haddr hfreed
    have hlt : i < 2 ^ 19 := by
      by_contra hge
      exact pageAddress_ne (show 2 ^ 19 ≤ i by omega) (show i < 2 ^ 31 by omega) haddr
    refine ⟨hlt, ?_⟩
    intro j hj e hje hclaims
    -- the bit of the page is still set
    have hother : (markPages k i 1 true ds)[j]? = some e :=
      (markPages_other (show j ≠ k by omega)).trans hje
    rw [haddr] at hfreed
    have hkept := pmmFree_earlier (n := 1) hj hother hclaims
    rw [hfreed, markPages_self hself, hself] at hkept
    have hbit := congrArg (fun o : Option MemoryDescriptor =>
      o.map fun d => bitmapGetBit d.bitmap i) hkept
    simp only [Option.map_some, bitmapGetBit_setBits, bitmapSetBits_bitSize] at hbit
    rw [if_pos ⟨le_rfl, by omega, by omega⟩, if_pos ⟨le_rfl, by omega, by omega⟩] at hbit
    cases hbit
  · rintro ⟨hlt, hfirst⟩
    have haddr : d.pageAddress i = d.physicalStart + 4096 * i := by
      rw [pageAddress_eq hbelow' hlt hi.le, hmul]
    have hmod : d.pageSize % 2 ^ 32 = d.pageSize := Nat.mod_eq_of_lt (by omega)
    obtain ⟨hclaims, hindex⟩ := claims_page hbelow' h.available (hmod.symm ▸ hi)
    rw [hmul] at hclaims hindex
    have hnone : ∀ j < k, ∀ e, (markPages k i 1 true ds)[j]? = some e →
        ¬ e.Claims (d.physicalStart + 4096 * i) := by
      intro j hj e hje
      rw [markPages_other (show j ≠ k by omega)] at hje
      exact hfirst j hj e hje
    have hfree := pmmFree_first (n := 1) hself hclaims hnone
    constructor
    · rw [hmalloc]
      dsimp only
      exact haddr
    · rw [hmalloc]
      simp only [haddr]
      omega
    · rw [hmalloc]
      simp only [haddr]
      rw [hfree]
      simp only [hindex]

/-- The first page of eight. -/
theorem indexAgrees_eightPages :
    IndexAgrees eightPages 0 0 ⟨.available, 0x100000, 8, bitmapInit 8 false⟩ := by
  have hpicks : Picks eightPages 0 0 ⟨.available, 0x100000, 8, bitmapInit 8 false⟩ :=
    ⟨rfl, rfl, fun j hj => absurd hj (Nat.not_lt_zero j), by decide⟩
  exact (indexAgrees_iff hpicks (by decide) rfl (by decide)).mpr
    ⟨by decide, fun j hj => absurd hj (Nat.not_lt_zero j)⟩

/-- A region of two gigabytes and eight pages, of which the last eight are free. -/
def largeRegion : MemoryDescriptor where
  type := .available
  physicalStart := 0x100000
  pageSize := 2 ^ 19 + 8
  bitmap := ⟨2 ^ 19 + 8, fun w => if w < 2 ^ 16 then 0xFF else 0⟩

/-- The page 2^19 is picked, and its address is not the one that is returned. -/
theorem large_index_overflows :
    Picks [largeRegion] 0 (2 ^ 19) largeRegion ∧ ¬ IndexAgrees [largeRegion] 0 (2 ^ 19) largeRegion := by
  have hset : ∀ j, j < 2 ^ 19 → bitmapGetBit largeRegion.bitmap j = true := by
    intro j hj
    have hones : ∀ k < 8, (0xFF#8).getLsbD k = true := by decide
    have hword : j / 8 < 2 ^ 16 := by omega
    rw [bitmapGetBit_eq]
    simp only [largeRegion, if_pos hword]
    exact hones (j % 8) (by omega)
  have hfirst : FirstCandidate largeRegion.bitmap false 1 (2 ^ 19) := by
    refine ⟨⟨?_, ?_, ?_⟩, ?_⟩
    · show (2 ^ 19 : Nat) < 2 ^ 19 + 8
      omega
    · decide
    · intro j hj hj'
      omega
    · intro j hj hcand
      have hclear := hcand.2.1
      rw [hset j hj] at hclear
      cases hclear
  have hpicks : Picks [largeRegion] 0 (2 ^ 19) largeRegion :=
    ⟨rfl, rfl, fun j hj => absurd hj (Nat.not_lt_zero j), bitmapAllocBits_first hfirst⟩
  refine ⟨hpicks, ?_⟩
  rintro ⟨haddr, -, -⟩
  rw [hpicks.malloc] at haddr
  dsimp only at haddr
  exact pageAddress_ne (le_refl (2 ^ 19)) (by decide) haddr

end Os003
