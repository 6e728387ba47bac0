import Os003.Mm.Search

set_option autoImplicit false

/-! # One page

What `Pmm_Malloc(1)` and `Pmm_Free(addr, 1)` do to the set of the allocated pages. The page that the
one picks is given back by the other exactly if the address that has been returned belongs to no
earlier region and leads back to the index of the page (`restored_iff`), as it does in regions that
keep apart for an index that the shift does not overflow (`Regions.leadsBack`).
-/

namespace Os003

/-- The allocated pages: the place of the region in the table, and the index of the page in it. -/
def allocatedPages (ds : List MemoryDescriptor) : Set (Nat × Nat) :=
  {p | ∃ d, ds[p.1]? = some d ∧ d.type = .available ∧ p.2 < d.bitmap.bitSize ∧
    bitmapGetBit d.bitmap p.2 = true}

/-- No page of an available region is free. -/
def NoPage (ds : List MemoryDescriptor) : Prop :=
  ∀ d ∈ ds, d.type = .available → (bitmapAllocBits d.bitmap false 1).1 = none

/-- The address of the page `i` of the region `d`, which is at the place `k` of the table, is taken
for that of this page. -/
structure LeadsBack (ds : List MemoryDescriptor) (k i : Nat) (d : MemoryDescriptor) : Prop where
  claims : d.Claims (d.pageAddress i)
  index : (d.pageAddress i - d.physicalStart) / 2 ^ pageShift % 2 ^ 32 = i
  first : ∀ j < k, ∀ e, ds[j]? = some e → ¬ e.Claims (d.pageAddress i)

section Page

variable {ds : List MemoryDescriptor} {d : MemoryDescriptor} {addr i k : Nat} {v : Bool}
  {p : Nat × Nat}

/-! ## Marks -/

theorem mem_markPages (hk : ds[k]? = some d) (ha : d.type = .available) (hi : i < d.bitmap.bitSize) :
    p ∈ allocatedPages (markPages k i 1 v ds) ↔
      if p = (k, i) then v = true else p ∈ allocatedPages ds := by
  obtain ⟨j, q⟩ := p
  by_cases hj : j = k
  · subst hj
    have hself := markPages_self (r := i) (n := 1) (v := v) hk
    by_cases hq : q = i
    · subst hq
      rw [if_pos rfl]
      constructor
      · rintro ⟨e, he, -, -, hbit⟩
        cases hself.symm.trans he
        rwa [bitmapGetBit_setBits, if_pos ⟨le_rfl, by omega, hi⟩] at hbit
      · rintro rfl
        refine ⟨_, hself, ha, ?_, ?_⟩
        · rw [bitmapSetBits_bitSize]
          exact hi
        · rw [bitmapGetBit_setBits, if_pos ⟨le_rfl, by omega, hi⟩]
    · rw [if_neg (by simpa using hq)]
      constructor
      · rintro ⟨e, he, -, hlt, hbit⟩
        cases hself.symm.trans he
        rw [bitmapSetBits_bitSize] at hlt
        rw [bitmapGetBit_setBits, if_neg (by omega)] at hbit
        exact ⟨d, hk, ha, hlt, hbit⟩
      · rintro ⟨e, he, -, hlt, hbit⟩
        cases hk.symm.trans he
        refine ⟨_, hself, ha, ?_, ?_⟩
        · rw [bitmapSetBits_bitSize]
          exact hlt
        · rw [bitmapGetBit_setBits, if_neg (by omega)]
          exact hbit
  · rw [if_neg (by simp [hj])]
    show (∃ e, (markPages k i 1 v ds)[j]? = some e ∧ _) ↔ ∃ e, ds[j]? = some e ∧ _
    rw [markPages_other hj]

/-- To clear a bit leaves the other pages allocated. -/
theorem mem_markPages_clear (hne : p ≠ (k, i)) (hmem : p ∈ allocatedPages ds) :
    p ∈ allocatedPages (markPages k i 1 false ds) := by
  obtain ⟨j, q⟩ := p
  obtain ⟨d, hd, ha, hlt, hbit⟩ := hmem
  by_cases hj : j = k
  · subst hj
    have hq : q ≠ i := fun h => hne (by rw [h])
    refine ⟨_, markPages_self hd, ha, ?_, ?_⟩
    · rw [bitmapSetBits_bitSize]
      exact hlt
    · rw [bitmapGetBit_setBits, if_neg (by omega)]
      exact hbit
  · exact ⟨d, (markPages_other hj).trans hd, ha, hlt, hbit⟩

/-- `Pmm_Free` of one page: no region claims the address, or the first one that does loses a bit. -/
theorem pmmFree_cases (addr : Nat) (ds : List MemoryDescriptor) : pmmFree addr 1 ds = ds ∨
    ∃ (k : Nat) (d : MemoryDescriptor), ds[k]? = some d ∧ d.Claims addr ∧
      (∀ j < k, ∀ e, ds[j]? = some e → ¬ e.Claims addr) ∧
      pmmFree addr 1 ds =
        markPages k ((addr - d.physicalStart) / 2 ^ pageShift % 2 ^ 32) 1 false ds := by
  classical
  by_cases h : ∃ (k : Nat) (d : MemoryDescriptor), ds[k]? = some d ∧ d.Claims addr
  · right
    obtain ⟨d, hd, hclaims⟩ := Nat.find_spec h
    have hfirst : ∀ j < Nat.find h, ∀ e, ds[j]? = some e → ¬ e.Claims addr := by
      intro j hj e he hc
      exact Nat.find_min h hj ⟨e, he, hc⟩
    exact ⟨Nat.find h, d, hd, hclaims, hfirst, pmmFree_first hd hclaims hfirst⟩
  · left
    have hnone : ∀ d ∈ ds, ¬ d.Claims addr := by
      intro d hd hc
      obtain ⟨k, hk⟩ := List.mem_iff_getElem?.mp hd
      exact h ⟨k, d, hk, hc⟩
    clear h
    induction ds with
    | nil => rfl
    | cons d ds ih =>
        have hout : ¬ (d.type = .available ∧ d.physicalStart ≤ addr ∧ addr < d.endAddr) :=
          hnone d List.mem_cons_self
        rw [pmmFree, if_neg hout]
        rw [ih fun e he => hnone e (List.mem_cons_of_mem d he)]

/-! ## The page that is picked -/

theorem pmmMalloc_noPage (h : NoPage ds) : pmmMalloc 1 ds = (0, ds) := by
  induction ds with
  | nil => rfl
  | cons d ds ih =>
      have hrest := ih fun e he => h e (List.mem_cons_of_mem d he)
      rw [pmmMalloc]
      by_cases ha : d.type = .available
      · rw [if_pos ha, bitmapAllocBits_one_none (h d List.mem_cons_self ha), hrest]
      · rw [if_neg ha, hrest]

/-- The first region with a free page gives one. -/
theorem exists_picks (h : ¬ NoPage ds) : ∃ k i d, Picks ds k i d := by
  induction ds with
  | nil => exact absurd (fun d hd => absurd hd List.not_mem_nil) h
  | cons d ds ih =>
      by_cases hd : d.type = .available ∧ (bitmapAllocBits d.bitmap false 1).1 ≠ none
      · obtain ⟨i, hi⟩ := Option.ne_none_iff_exists'.mp hd.2
        exact ⟨0, i, d, rfl, hd.1, fun j hj => absurd hj (Nat.not_lt_zero j), hi⟩
      · have hfull : d.type = .available → (bitmapAllocBits d.bitmap false 1).1 = none :=
          fun ha => not_not.mp fun hne => hd ⟨ha, hne⟩
        have hrest : ¬ NoPage ds := fun hno => h (List.forall_mem_cons.mpr ⟨hfull, hno⟩)
        obtain ⟨k, i, e, hp⟩ := ih hrest
        refine ⟨k + 1, i, e, hp.get, hp.available, ?_, hp.bit⟩
        intro j hj e' he' ha
        cases j with
        | zero =>
            cases he'
            exact hfull ha
        | succ j => exact hp.earlier j (by omega) e' he' ha

theorem Picks.lt (h : Picks ds k i d) : i < d.bitmap.bitSize := (bitmapAllocBits_one h.bit).2

/-- The page that is picked was free. -/
theorem Picks.free (h : Picks ds k i d) : (k, i) ∉ allocatedPages ds := by
  rintro ⟨e, he, -, -, hbit⟩
  cases h.get.symm.trans he
  have hspec := bitmapAllocBits_spec d.bitmap false 1
  have hfound := h.bit
  generalize bitmapAllocBits d.bitmap false 1 = res at hspec hfound
  cases hspec with
  | none => cases hfound
  | full hfirst =>
      cases hfound
      exact absurd (hfirst.1.2.1.symm.trans hbit) (by decide)
  | atEnd hfirst =>
      cases hfound
      exact absurd (hfirst.1.2.1.symm.trans hbit) (by decide)

/-- The page that is picked is allocated behind the call, and otherwise the same pages as before. -/
theorem Picks.allocated (h : Picks ds k i d) :
    allocatedPages (pmmMalloc 1 ds).2 = insert (k, i) (allocatedPages ds) := by
  ext p
  rw [h.malloc, mem_markPages h.get h.available h.lt, Set.mem_insert_iff]
  split
  · rename_i hp
    simp [hp]
  · rename_i hp
    simp [hp]

/-- `Pmm_Malloc(1)` leaves the allocated pages as they are only when there is no free page. -/
theorem allocated_malloc_iff : allocatedPages (pmmMalloc 1 ds).2 = allocatedPages ds ↔ NoPage ds := by
  constructor
  · intro hsame
    by_contra hno
    obtain ⟨k, i, d, hp⟩ := exists_picks hno
    rw [hp.allocated] at hsame
    exact hp.free (hsame ▸ Set.mem_insert (k, i) (allocatedPages ds))
  · intro h
    rw [pmmMalloc_noPage h]

/-! ## The page given back -/

/-- The page that has been picked is given back exactly if its address leads back to it. -/
theorem restored_iff (h : Picks ds k i d) :
    allocatedPages (pmmFree (d.pageAddress i) 1 (pmmMalloc 1 ds).2) = allocatedPages ds ↔
      LeadsBack ds k i d := by
  have hself := markPages_self (r := i) (n := 1) (v := true) h.get
  have hset : (k, i) ∈ allocatedPages (markPages k i 1 true ds) :=
    (mem_markPages h.get h.available h.lt).mpr (if_pos rfl ▸ rfl)
  rw [h.malloc]
  dsimp only
  constructor
  · intro hsame
    rcases pmmFree_cases (d.pageAddress i) (markPages k i 1 true ds) with
      hkept | ⟨k', d', hd', hclaims, hfirst, hfree⟩
    · rw [hkept] at hsame
      exact absurd (hsame ▸ hset) h.free
    · rw [hfree] at hsame
      -- a bit other than that of the page leaves the page allocated
      have hpage : (k, i) = (k', (d.pageAddress i - d'.physicalStart) / 2 ^ pageShift % 2 ^ 32) := by
        by_contra hne
        exact h.free (hsame ▸ mem_markPages_clear hne hset)
      obtain ⟨rfl, hindex⟩ := Prod.mk.inj hpage
      cases hself.symm.trans hd'
      refine ⟨hclaims, hindex.symm, ?_⟩
      intro j hj e he
      exact hfirst j hj e ((markPages_other (show j ≠ k by omega)).trans he)
  · intro hback
    have hfirst : ∀ j < k, ∀ e, (markPages k i 1 true ds)[j]? = some e →
        ¬ e.Claims (d.pageAddress i) := by
      intro j hj e he
      rw [markPages_other (show j ≠ k by omega)] at he
      exact hback.first j hj e he
    rw [pmmFree_first hself hback.claims hfirst]
    simp only [hback.index]
    ext p
    rw [mem_markPages hself h.available (by simpa using h.lt), mem_markPages h.get h.available h.lt]
    split
    · rename_i hp
      rw [hp]
      exact iff_of_false Bool.false_ne_true h.free
    · rfl

/-- In regions that keep apart, the address leads back for an index that the shift does not overflow. -/
theorem Regions.leadsBack (hR : Regions ds) (h : Picks ds k i d) (hi : i < 2 ^ 19) :
    LeadsBack ds k i d := by
  have hmem : d ∈ ds := List.mem_of_getElem? h.get
  have hbelow := hR.below d hmem
  have hlt : i < d.pageSize % 2 ^ 32 := hR.bits d hmem h.available ▸ h.lt
  have hle : d.pageSize % 2 ^ 32 ≤ d.pageSize := Nat.mod_le _ _
  have haddr : d.pageAddress i = d.physicalStart + i * 2 ^ pageShift :=
    pageAddress_eq hbelow hi (by omega)
  obtain ⟨hclaims, hindex⟩ := claims_page hbelow h.available hlt
  have hend : d.endAddr = d.physicalStart + d.pageSize * 2 ^ pageShift := Nat.mod_eq_of_lt hbelow
  rw [← haddr] at hclaims hindex
  refine ⟨hclaims, hindex, ?_⟩
  rintro j hj e he ⟨hea, hstart, hstop⟩
  have heend : e.endAddr = e.physicalStart + e.pageSize * 2 ^ pageShift :=
    Nat.mod_eq_of_lt (hR.below e (List.mem_of_getElem? he))
  have hstart' := hclaims.2
  have hapart := hR.disjoint j k e d he h.get hea h.available (by omega)
  omega

end Page

end Os003
