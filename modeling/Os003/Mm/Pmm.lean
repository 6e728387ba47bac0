import Os003.Mm.Bitmap

set_option autoImplicit false

/-! # Physical pages

The physical memory manager (`mm/pmm.c`): a table of regions, of which the available ones have a
bitmap. `Pmm_Malloc` takes the first region in whose bitmap `BitmapAllocBits` finds something.

A run of mallocs and frees is followed together with the blocks that are live (`PmmRun`). The blocks
are sound as long as each call finds a place that is one (`FindsPages`): `size` free pages in the region,
and not only `size - 1`.
-/

namespace Os003

/-- `OS_MEMORY_DESCRIPTOR.Type`. -/
inductive MemoryType
  | used
  | available
  | unavailable
  deriving DecidableEq, Repr

/-- `OS_MEMORY_DESCRIPTOR`. -/
structure MemoryDescriptor where
  type : MemoryType
  physicalStart : Nat
  pageSize : Nat
  bitmap : Bitmap

def pageShift : Nat := 12

/-- `PhysicalStart + (start_page_index << PAGE_SHIFT)`; the index is an `int`. -/
def MemoryDescriptor.pageAddress (d : MemoryDescriptor) (startPageIndex : Nat) : Nat :=
  (((d.physicalStart : Int) + Int.bmod (startPageIndex * 2 ^ pageShift) (2 ^ 32)) % 2 ^ 64).toNat

/-- `PhysicalStart + (PageSize << PAGE_SHIFT)`. -/
def MemoryDescriptor.endAddr (d : MemoryDescriptor) : Nat :=
  (d.physicalStart + d.pageSize * 2 ^ pageShift) % 2 ^ 64

/-- `Pmm_Malloc`: the address, 0 when there is none, and the table behind the call. -/
def pmmMalloc (pages : Nat) : List MemoryDescriptor → Nat × List MemoryDescriptor
  | [] => (0, [])
  | d :: ds =>
      let rest := pmmMalloc pages ds
      if d.type = .available then
        match bitmapAllocBits d.bitmap false pages with
        | (some startPageIndex, bitmap) =>
            (d.pageAddress startPageIndex, { d with bitmap := bitmap } :: ds)
        | (none, bitmap) => (rest.1, { d with bitmap := bitmap } :: rest.2)
      else (rest.1, d :: rest.2)

/-- `Pmm_Free`. -/
def pmmFree (addr pages : Nat) : List MemoryDescriptor → List MemoryDescriptor
  | [] => []
  | d :: ds =>
      if d.type = .available ∧ d.physicalStart ≤ addr ∧ addr < d.endAddr then
        let pageIndex := (addr - d.physicalStart) / 2 ^ pageShift % 2 ^ 32
        { d with bitmap := bitmapSetBits d.bitmap pageIndex pages false } :: ds
      else d :: pmmFree addr pages ds

/-- The last entry of a list is the new one, the others are as they were. -/
theorem getElem?_concat_some {α : Type} {l : List α} {x y : α} {i : Nat} (h : (l ++ [x])[i]? = some y) :
    l[i]? = some y ∨ i = l.length ∧ y = x := by
  rcases Nat.lt_or_ge i l.length with hlt | hge
  · rw [List.getElem?_append_left hlt] at h
    exact .inl h
  · rw [List.getElem?_append_right hge] at h
    obtain ⟨hi, hx⟩ := List.getElem?_eq_some_iff.mp h
    simp only [List.length_singleton] at hi
    refine .inr ⟨by omega, ?_⟩
    rw [← hx]
    simp

/-! ## Regions and blocks -/

/-- The part of a descriptor that the calls leave alone. -/
def MemoryDescriptor.region (d : MemoryDescriptor) : MemoryType × Nat × Nat :=
  (d.type, d.physicalStart, d.pageSize)

/-- The available regions are disjoint ranges of addresses, each with a bitmap of its own for its pages. -/
structure Regions (ds : List MemoryDescriptor) : Prop where
  below : ∀ d ∈ ds, d.physicalStart + d.pageSize * 2 ^ pageShift < 2 ^ 64
  bits : ∀ d ∈ ds, d.type = .available → d.bitmap.bitSize = d.pageSize % 2 ^ 32
  disjoint : ∀ (i j : Nat) (d e : MemoryDescriptor), ds[i]? = some d → ds[j]? = some e → d.type = .available →
    e.type = .available → i ≠ j →
      d.physicalStart + d.pageSize * 2 ^ pageShift ≤ e.physicalStart ∨
        e.physicalStart + e.pageSize * 2 ^ pageShift ≤ d.physicalStart

/-- What a call of `Pmm_Malloc(pages)` has returned. -/
structure Block where
  addr : Nat
  pages : Nat
  deriving DecidableEq, Repr

/-- The address behind the block. -/
def Block.stop (b : Block) : Nat := b.addr + b.pages * 2 ^ pageShift

/-- No page is in both blocks. -/
def Block.Disjoint (b c : Block) : Prop := b.stop ≤ c.addr ∨ c.stop ≤ b.addr

/-- The block lies in one available region. -/
def Block.Within (b : Block) (ds : List MemoryDescriptor) : Prop :=
  ∃ d ∈ ds, d.type = .available ∧ d.physicalStart ≤ b.addr ∧
    b.stop ≤ d.physicalStart + d.pageSize * 2 ^ pageShift

/-- In the first available region in which the search for `pages` pages takes a place, the place has
`pages` free pages and an index that the shift does not overflow. -/
def FindsPages (pages : Nat) : List MemoryDescriptor → Prop
  | [] => True
  | d :: ds =>
      if d.type = .available then
        (∀ r, FirstCandidate d.bitmap false pages r →
          r + pages ≤ d.bitmap.bitSize ∧ bitmapGetBit d.bitmap (r + pages - 1) = false ∧
            r < 2 ^ 19) ∧
          ((∀ r, ¬ Candidate d.bitmap false pages r) → FindsPages pages ds)
      else FindsPages pages ds

/-- The runs of mallocs that meet `P` and of frees of live blocks: the table and the live blocks. -/
inductive PmmRun (P : Nat → List MemoryDescriptor → Prop) (ds₀ : List MemoryDescriptor) :
    List MemoryDescriptor → List Block → Prop
  | start : PmmRun P ds₀ ds₀ []
  | malloc {ds : List MemoryDescriptor} {live : List Block} {n : Nat}
      (h : PmmRun P ds₀ ds live) (hn : 1 ≤ n) (hP : P n ds) (ha : (pmmMalloc n ds).1 ≠ 0) :
      PmmRun P ds₀ (pmmMalloc n ds).2 (⟨(pmmMalloc n ds).1, n⟩ :: live)
  | fail {ds : List MemoryDescriptor} {live : List Block} {n : Nat}
      (h : PmmRun P ds₀ ds live) (hn : 1 ≤ n) (hP : P n ds) (ha : (pmmMalloc n ds).1 = 0) :
      PmmRun P ds₀ (pmmMalloc n ds).2 live
  | free {ds : List MemoryDescriptor} {live : List Block} {b : Block}
      (h : PmmRun P ds₀ ds live) (hb : b ∈ live) :
      PmmRun P ds₀ (pmmFree b.addr b.pages ds) (live.erase b)

/-- Each live block lies in one of the available regions, and no two of them share a page. -/
def BlocksSound (ds : List MemoryDescriptor) (live : List Block) : Prop :=
  (∀ b ∈ live, b.Within ds) ∧ live.Pairwise Block.Disjoint

section Calls

variable {ds ds' ds₀ : List MemoryDescriptor} {d e : MemoryDescriptor} {b c : Block}
  {live : List Block} {i j r n : Nat} {v : Bool}

/-- The table with the bits of the pages from `r` to `r + n` of the region `i` set or cleared. -/
def markPages (i r n : Nat) (value : Bool) (ds : List MemoryDescriptor) : List MemoryDescriptor :=
  ds.modify i fun d => { d with bitmap := bitmapSetBits d.bitmap r n value }

/-- An index that the shift does not overflow. -/
theorem pageAddress_eq (hd : d.physicalStart + d.pageSize * 2 ^ pageShift < 2 ^ 64)
    (hr : r < 2 ^ 19) (hp : r ≤ d.pageSize) :
    d.pageAddress r = d.physicalStart + r * 2 ^ pageShift := by
  unfold MemoryDescriptor.pageAddress
  have hmul : r * 2 ^ pageShift ≤ d.pageSize * 2 ^ pageShift := Nat.mul_le_mul_right _ hp
  have hshift : r * 2 ^ pageShift < 2 ^ 31 := by
    simp only [pageShift]
    omega
  have hbmod : Int.bmod ((r : Int) * 2 ^ pageShift) (2 ^ 32) = (r : Int) * 2 ^ pageShift := by
    refine Int.bmod_eq_of_le ?_ ?_
    · simp only [pageShift]; omega
    · simp only [pageShift] at hshift ⊢; omega
  rw [hbmod]
  simp only [pageShift] at *
  omega

/-- What `Pmm_Malloc` does when it finds its pages: nothing, or it takes free pages of one region. -/
inductive Malloced (n : Nat) (ds : List MemoryDescriptor) : Nat × List MemoryDescriptor → Prop
  | none : Malloced n ds (0, ds)
  | block {i r : Nat} {d : MemoryDescriptor} (hi : ds[i]? = some d) (ha : d.type = .available)
      (hr : r + n ≤ d.bitmap.bitSize)
      (hfree : ∀ j, r ≤ j → j < r + n → bitmapGetBit d.bitmap j = false) :
      Malloced n ds (d.physicalStart + r * 2 ^ pageShift, markPages i r n true ds)

/-- The regions behind the first one have been searched. -/
theorem Malloced.cons {res : Nat × List MemoryDescriptor} (h : Malloced n ds res) :
    Malloced n (d :: ds) (res.1, d :: res.2) := by
  cases h with
  | none => exact .none
  | block hi ha hr hfree =>
      have hget : (d :: ds)[_]? = some _ := List.getElem?_cons_succ.trans hi
      exact .block hget ha hr hfree

theorem pmmMalloc_spec (hR : ∀ d ∈ ds, d.physicalStart + d.pageSize * 2 ^ pageShift < 2 ^ 64)
    (hbits : ∀ d ∈ ds, d.type = .available → d.bitmap.bitSize ≤ d.pageSize)
    (hF : FindsPages n ds) : Malloced n ds (pmmMalloc n ds) := by
  induction ds with
  | nil => exact .none
  | cons d ds ih =>
      replace ih := ih (fun e he => hR e (.tail _ he)) fun e he => hbits e (.tail _ he)
      unfold FindsPages at hF
      unfold pmmMalloc
      dsimp only
      by_cases ha : d.type = .available
      · rw [if_pos ha] at hF ⊢
        have hspec := bitmapAllocBits_spec d.bitmap false n
        generalize bitmapAllocBits d.bitmap false n = res at hspec
        cases hspec with
        | none hno => exact (ih (hF.2 hno)).cons
        | @full r hc hr =>
            obtain ⟨hle, hlast, hlt⟩ := hF.1 r hc
            have hsize := hbits d (.head _) ha
            have hfree : ∀ j, r ≤ j → j < r + n → bitmapGetBit d.bitmap j = false := by
              intro j hj hj'
              -- the last page is the one that the search has not looked at
              by_cases he : j = r + n - 1
              · rw [he]
                exact hlast
              · exact hc.1.2.2 j hj (by omega) (by omega)
            have haddr := pageAddress_eq (hR d (.head _)) hlt (by omega)
            dsimp only
            rw [haddr]
            exact .block (i := 0) rfl ha hle hfree
        | @atEnd r hc hr =>
            obtain ⟨hle, -, -⟩ := hF.1 r hc
            omega
      · rw [if_neg ha] at hF ⊢
        exact (ih hF).cons

/-- The test of `Pmm_Free` for the region of an address. -/
def MemoryDescriptor.Claims (d : MemoryDescriptor) (addr : Nat) : Prop :=
  d.type = .available ∧ d.physicalStart ≤ addr ∧ addr < d.endAddr

/-- The first region that claims the address is the one whose bits are cleared. -/
theorem pmmFree_first {addr : Nat} (hi : ds[i]? = some d) (hd : d.Claims addr)
    (hfirst : ∀ j < i, ∀ e, ds[j]? = some e → ¬ e.Claims addr) :
    pmmFree addr n ds =
      markPages i ((addr - d.physicalStart) / 2 ^ pageShift % 2 ^ 32) n false ds := by
  induction ds generalizing i with
  | nil => cases hi
  | cons e es ih =>
      unfold pmmFree
      cases i with
      | zero =>
          cases hi
          rw [if_pos ⟨hd.1, hd.2⟩]
          rfl
      | succ i =>
          have hrest := ih hi fun j hj e' he' => hfirst (j + 1) (by omega) e' he'
          have hout : ¬ (e.type = .available ∧ e.physicalStart ≤ addr ∧ addr < e.endAddr) :=
            hfirst 0 (by omega) e rfl
          rw [if_neg hout, hrest]
          rfl

/-- The address of a page is in its region, and its index comes back. -/
theorem claims_page (hd : d.physicalStart + d.pageSize * 2 ^ pageShift < 2 ^ 64)
    (ha : d.type = .available) (hr : r < d.pageSize % 2 ^ 32) :
    d.Claims (d.physicalStart + r * 2 ^ pageShift) ∧
      (d.physicalStart + r * 2 ^ pageShift - d.physicalStart) / 2 ^ pageShift % 2 ^ 32 = r := by
  have hpage : 0 < 2 ^ pageShift := by decide
  have hlt : r < 2 ^ 32 := lt_trans hr (Nat.mod_lt _ (by decide))
  have hmul : r * 2 ^ pageShift + 2 ^ pageShift ≤ d.pageSize * 2 ^ pageShift := by
    rw [← Nat.succ_mul]
    exact Nat.mul_le_mul_right _ (lt_of_lt_of_le hr (Nat.mod_le _ _))
  have hend : d.endAddr = d.physicalStart + d.pageSize * 2 ^ pageShift := Nat.mod_eq_of_lt hd
  refine ⟨⟨ha, Nat.le_add_right _ _, by omega⟩, ?_⟩
  rw [Nat.add_sub_cancel_left, Nat.mul_div_cancel _ hpage, Nat.mod_eq_of_lt hlt]

/-- The region that holds the address is the only one. -/
theorem pmmFree_eq (hR : Regions ds) (hi : ds[i]? = some d) (ha : d.type = .available)
    (hr : r < d.bitmap.bitSize) :
    pmmFree (d.physicalStart + r * 2 ^ pageShift) n ds = markPages i r n false ds := by
  have hmem : d ∈ ds := List.mem_of_getElem? hi
  have hbits : r < d.pageSize % 2 ^ 32 := hR.bits d hmem ha ▸ hr
  obtain ⟨hclaims, hindex⟩ := claims_page (hR.below d hmem) ha hbits
  have hfirst : ∀ j < i, ∀ e, ds[j]? = some e →
      ¬ e.Claims (d.physicalStart + r * 2 ^ pageShift) := by
    rintro j hj e he ⟨hea, h1, h2⟩
    have hend : e.endAddr = e.physicalStart + e.pageSize * 2 ^ pageShift :=
      Nat.mod_eq_of_lt (hR.below e (List.mem_of_getElem? he))
    have hdend : d.endAddr = d.physicalStart + d.pageSize * 2 ^ pageShift :=
      Nat.mod_eq_of_lt (hR.below d hmem)
    have := hclaims.2
    have := hR.disjoint j i e d he hi hea ha (by omega)
    omega
  rw [pmmFree_first hi hclaims hfirst, hindex]

/-! ## Runs -/

theorem markPages_get (h : (markPages i r n v ds)[j]? = some e) :
    ∃ d, ds[j]? = some d ∧ e.type = d.type ∧ e.physicalStart = d.physicalStart ∧
      e.pageSize = d.pageSize ∧ e.bitmap.bitSize = d.bitmap.bitSize ∧
      ∀ k, bitmapGetBit e.bitmap k = if i = j ∧ r ≤ k ∧ k < r + n ∧ k < d.bitmap.bitSize then v
        else bitmapGetBit d.bitmap k := by
  rw [markPages, List.getElem?_modify] at h
  cases hd : ds[j]? with
  | none => rw [hd] at h; cases h
  | some d =>
      rw [hd] at h
      by_cases hij : i = j
      · simp only [hij, if_true, Option.map_eq_map, Option.map_some] at h
        cases h
        refine ⟨d, rfl, rfl, rfl, rfl, bitmapSetBits_bitSize .., fun k => ?_⟩
        simp only [hij, true_and, bitmapGetBit_setBits]
      · simp only [hij, if_false, Option.map_eq_map, Option.map_some] at h
        cases h
        exact ⟨e, rfl, rfl, rfl, rfl, rfl, fun k => by simp [hij]⟩

theorem markPages_region (i r n : Nat) (v : Bool) (ds : List MemoryDescriptor) :
    (markPages i r n v ds).map MemoryDescriptor.region = ds.map MemoryDescriptor.region := by
  refine List.ext_getElem? fun j => ?_
  rw [List.getElem?_map, List.getElem?_map, markPages, List.getElem?_modify]
  cases ds[j]? with
  | none => rfl
  | some d =>
      by_cases hij : i = j
      · simp [hij, MemoryDescriptor.region]
      · simp [hij]

theorem Regions.markPages (h : Regions ds) (i r n : Nat) (v : Bool) :
    Regions (Os003.markPages i r n v ds) where
  below e he := by
    obtain ⟨j, hj⟩ := List.mem_iff_getElem?.mp he
    obtain ⟨d, hd, -, hs, hp, -⟩ := markPages_get hj
    rw [hs, hp]
    exact h.below d (List.mem_of_getElem? hd)
  bits e he ha := by
    obtain ⟨j, hj⟩ := List.mem_iff_getElem?.mp he
    obtain ⟨d, hd, ht, -, hp, hb, -⟩ := markPages_get hj
    rw [hb, hp]
    exact h.bits d (List.mem_of_getElem? hd) (ht ▸ ha)
  disjoint j k e e' hj hk he he' hjk := by
    obtain ⟨d, hd, ht, hs, hp, -⟩ := markPages_get hj
    obtain ⟨d', hd', ht', hs', hp', -⟩ := markPages_get hk
    rw [hs, hp, hs', hp']
    exact h.disjoint j k d d' hd hd' (ht ▸ he) (ht' ▸ he') hjk

/-- The block's pages are the ones from `r` on in the region `i`, and their bits are set. -/
structure HeldAt (ds : List MemoryDescriptor) (b : Block) (i : Nat) (d : MemoryDescriptor)
    (r : Nat) : Prop where
  get : ds[i]? = some d
  available : d.type = .available
  addr : b.addr = d.physicalStart + r * 2 ^ pageShift
  inside : r + b.pages ≤ d.bitmap.bitSize
  set : ∀ k, r ≤ k → k < r + b.pages → bitmapGetBit d.bitmap k = true

/-- The bits of the live blocks are set, and the blocks are disjoint. -/
structure PmmInv (ds₀ ds : List MemoryDescriptor) (live : List Block) : Prop where
  regions : Regions ds
  same : ds.map MemoryDescriptor.region = ds₀.map MemoryDescriptor.region
  nonempty : ∀ b ∈ live, 1 ≤ b.pages
  held : ∀ b ∈ live, ∃ i d r, HeldAt ds b i d r
  disjoint : live.Pairwise Block.Disjoint

theorem Block.Disjoint.symm (h : b.Disjoint c) : c.Disjoint b := Or.symm h

theorem Block.Disjoint.ne (h : b.Disjoint c) (hb : 1 ≤ b.pages) : b ≠ c := by
  rintro rfl
  have hpos : 0 < b.pages * 2 ^ pageShift := Nat.mul_pos hb (by decide)
  simp only [Block.Disjoint, Block.stop, or_self] at h
  omega

/-- A held block lies in its region. -/
theorem HeldAt.within (h : HeldAt ds b i d r) (hR : Regions ds) :
    d.physicalStart ≤ b.addr ∧ b.stop ≤ d.physicalStart + d.pageSize * 2 ^ pageShift := by
  have hsize : r + b.pages ≤ d.pageSize := by
    have hb := hR.bits d (List.mem_of_getElem? h.get) h.available
    have hm := Nat.mod_le d.pageSize (2 ^ 32)
    have := h.inside
    omega
  have hmul : r * 2 ^ pageShift + b.pages * 2 ^ pageShift ≤ d.pageSize * 2 ^ pageShift := by
    rw [← Nat.add_mul]
    exact Nat.mul_le_mul_right _ hsize
  have := h.addr
  exact ⟨by omega, by simp only [Block.stop]; omega⟩

/-- In one region disjoint pages make disjoint blocks, and the other way round. -/
theorem HeldAt.disjoint_iff {r' : Nat} (hb : b.addr = d.physicalStart + r * 2 ^ pageShift)
    (hc : c.addr = d.physicalStart + r' * 2 ^ pageShift) :
    b.Disjoint c ↔ r + b.pages ≤ r' ∨ r' + c.pages ≤ r := by
  have hpage : 0 < 2 ^ pageShift := by decide
  have hle : ∀ x y : Nat, x * 2 ^ pageShift ≤ y * 2 ^ pageShift ↔ x ≤ y :=
    fun x y => Nat.mul_le_mul_right_iff hpage
  rw [← hle (r + b.pages) r', ← hle (r' + c.pages) r, Nat.add_mul, Nat.add_mul]
  simp only [Block.Disjoint, Block.stop]
  omega

/-- A block taken from free pages is disjoint from a held one. -/
theorem HeldAt.disjoint_new (h : HeldAt ds b i d r) (hR : Regions ds) {j r' : Nat}
    {e : MemoryDescriptor} (hj : ds[j]? = some e) (he : e.type = .available)
    (hin : r' + n ≤ e.bitmap.bitSize)
    (hfree : ∀ k, r' ≤ k → k < r' + n → bitmapGetBit e.bitmap k = false) (hn : 1 ≤ n)
    (hb : 1 ≤ b.pages) : Block.Disjoint ⟨e.physicalStart + r' * 2 ^ pageShift, n⟩ b := by
  by_cases hij : i = j
  · have hde : d = e := Option.some.inj (h.get.symm.trans (hij ▸ hj))
    cases hde
    rw [HeldAt.disjoint_iff rfl h.addr]
    by_contra hne
    -- the page that both blocks hold is set and free
    have hset := h.set (max r r') (by omega) (by dsimp only at hne; omega)
    rw [hfree (max r r') (by omega) (by dsimp only at hne; omega)] at hset
    cases hset
  · have hw := h.within hR
    have hsize : r' + n ≤ e.pageSize := by
      have hbits := hR.bits e (List.mem_of_getElem? hj) he
      have hm := Nat.mod_le e.pageSize (2 ^ 32)
      omega
    have hmul : r' * 2 ^ pageShift + n * 2 ^ pageShift ≤ e.pageSize * 2 ^ pageShift := by
      rw [← Nat.add_mul]
      exact Nat.mul_le_mul_right _ hsize
    have := hR.disjoint i j d e h.get hj h.available he hij
    simp only [Block.Disjoint, Block.stop] at *
    omega

theorem PmmInv.malloc (h : PmmInv ds₀ ds live) (hn : 1 ≤ n) (hF : FindsPages n ds) :
    PmmInv ds₀ (pmmMalloc n ds).2 live ∧
      ((pmmMalloc n ds).1 ≠ 0 → PmmInv ds₀ (pmmMalloc n ds).2 (⟨(pmmMalloc n ds).1, n⟩ :: live)) := by
  have hspec := pmmMalloc_spec h.regions.below (fun d hd ha => by
    rw [h.regions.bits d hd ha]
    exact Nat.mod_le _ _) hF
  generalize pmmMalloc n ds = res at hspec
  cases hspec with
  | none => exact ⟨h, fun h0 => absurd rfl h0⟩
  | @block i r d hi ha hr hfree =>
      have hget : (markPages i r n true ds)[i]? =
          some { d with bitmap := bitmapSetBits d.bitmap r n true } := by
        rw [markPages, List.getElem?_modify, hi]
        simp
      -- the bits that were set stay set
      have hheld : ∀ b ∈ live, ∃ i' d' r', HeldAt (markPages i r n true ds) b i' d' r' := by
        intro b hb
        obtain ⟨i', d', r', hat⟩ := h.held b hb
        obtain ⟨e, he⟩ : ∃ e, (markPages i r n true ds)[i']? = some e := by
          rw [markPages, List.getElem?_modify, hat.get]
          exact ⟨_, rfl⟩
        obtain ⟨d₂, hd₂, ht, hs, hp, hbs, hbit⟩ := markPages_get he
        cases Option.some.inj (hat.get.symm.trans hd₂)
        refine ⟨i', e, r', he, ht ▸ hat.available, hs ▸ hat.addr, hbs ▸ hat.inside, ?_⟩
        intro k hk hk'
        rw [hbit, hat.set k hk hk', ite_self]
      have hinv : PmmInv ds₀ (markPages i r n true ds) live :=
        ⟨h.regions.markPages i r n true, (markPages_region i r n true ds).trans h.same,
          h.nonempty, hheld, h.disjoint⟩
      refine ⟨hinv, fun _ => ⟨hinv.regions, hinv.same, ?_, ?_, ?_⟩⟩
      · intro b hb
        rcases List.mem_cons.mp hb with rfl | hb
        · exact hn
        · exact h.nonempty b hb
      · intro b hb
        rcases List.mem_cons.mp hb with rfl | hb
        · refine ⟨i, _, r, hget, ha, rfl, hr.trans_eq (bitmapSetBits_bitSize ..).symm, ?_⟩
          intro k hk hk'
          rw [bitmapGetBit_setBits, if_pos ⟨hk, hk', by dsimp only at hk'; omega⟩]
        · exact hheld b hb
      · refine List.pairwise_cons.mpr ⟨fun b hb => ?_, h.disjoint⟩
        obtain ⟨i', d', r', hat⟩ := h.held b hb
        exact hat.disjoint_new h.regions hi ha hr hfree hn (h.nonempty b hb)

theorem PmmInv.free (h : PmmInv ds₀ ds live) (hb : b ∈ live) :
    PmmInv ds₀ (pmmFree b.addr b.pages ds) (live.erase b) := by
  obtain ⟨i, d, r, hat⟩ := h.held b hb
  have hr : r < d.bitmap.bitSize := by
    have := h.nonempty b hb
    have := hat.inside
    omega
  rw [hat.addr, pmmFree_eq h.regions hat.get hat.available hr]
  have hpair : (b :: live.erase b).Pairwise Block.Disjoint :=
    (List.perm_cons_erase hb).pairwise_iff (fun h => h.symm) |>.mp h.disjoint
  refine ⟨h.regions.markPages .., (markPages_region ..).trans h.same,
    fun c hc => h.nonempty c (List.mem_of_mem_erase hc), fun c hc => ?_,
    (List.pairwise_cons.mp hpair).2⟩
  have hdis : b.Disjoint c := (List.pairwise_cons.mp hpair).1 c hc
  obtain ⟨i', d', r', hat'⟩ := h.held c (List.mem_of_mem_erase hc)
  obtain ⟨e, he⟩ : ∃ e, (markPages i r b.pages false ds)[i']? = some e := by
    rw [markPages, List.getElem?_modify, hat'.get]
    exact ⟨_, rfl⟩
  obtain ⟨d₂, hd₂, ht, hs, hp, hbs, hbit⟩ := markPages_get he
  cases Option.some.inj (hat'.get.symm.trans hd₂)
  refine ⟨i', e, r', he, ht ▸ hat'.available, hs ▸ hat'.addr, hbs ▸ hat'.inside, ?_⟩
  intro k hk hk'
  rw [hbit, if_neg, hat'.set k hk hk']
  -- the pages that have been freed are not the other block's
  rintro ⟨rfl, h1, h2, -⟩
  cases Option.some.inj (hat.get.symm.trans hat'.get)
  have := (HeldAt.disjoint_iff hat.addr hat'.addr).mp hdis
  omega

theorem PmmRun.inv (hR : Regions ds₀) (h : PmmRun FindsPages ds₀ ds live) :
    PmmInv ds₀ ds live := by
  induction h with
  | start => exact ⟨hR, rfl, fun _ h => (by cases h), fun _ h => (by cases h), .nil⟩
  | malloc h hn hP ha ih => exact (ih.malloc hn hP).2 ha
  | fail h hn hP ha ih => exact (ih.malloc hn hP).1
  | free h hb ih => exact ih.free hb

theorem PmmInv.sound (h : PmmInv ds₀ ds live) : BlocksSound ds₀ live := by
  refine ⟨fun b hb => ?_, h.disjoint⟩
  obtain ⟨i, d, r, hat⟩ := h.held b hb
  obtain ⟨h1, h2⟩ := hat.within h.regions
  have hmem : d.region ∈ ds₀.map MemoryDescriptor.region :=
    h.same ▸ List.mem_map_of_mem (List.mem_of_getElem? hat.get)
  obtain ⟨d₀, hd₀, he⟩ := List.mem_map.mp hmem
  obtain ⟨ht, hs, hp⟩ : d₀.type = d.type ∧ d₀.physicalStart = d.physicalStart ∧
      d₀.pageSize = d.pageSize := by
    simpa [MemoryDescriptor.region] using he
  exact ⟨d₀, hd₀, ht ▸ hat.available, hs ▸ h1, by rw [hs, hp]; exact h2⟩

/-- As long as each call finds its pages, the live blocks lie in the regions and are disjoint. -/
theorem blocks_sound (hR : Regions ds₀) (h : PmmRun FindsPages ds₀ ds live) :
    BlocksSound ds₀ live := (h.inv hR).sound

end Calls

/-- One available region of eight pages, all free. -/
def eightPages : List MemoryDescriptor := [⟨.available, 0x100000, 8, bitmapInit 8 false⟩]

theorem regions_eightPages : Regions eightPages where
  below d hd := by
    cases List.mem_singleton.mp hd
    decide
  bits d hd _ := by
    cases List.mem_singleton.mp hd
    rfl
  disjoint i j d e hi hj _ _ hij := by
    have h1 : i < 1 := (List.getElem?_eq_some_iff.mp hi).1
    have h2 : j < 1 := (List.getElem?_eq_some_iff.mp hj).1
    omega

/-- Three pages are given out and freed. -/
theorem blocks_sound_three :
    ∃ ds live, PmmRun FindsPages eightPages ds live ∧ live = [⟨0x100000, 3⟩] ∧
      BlocksSound eightPages live := by
  have hfirst : Candidate (bitmapInit 8 false) false 3 0 :=
    ⟨by decide, by decide, fun j _ hj _ => by interval_cases j <;> rfl⟩
  have hfinds : FindsPages 3 eightPages := by
    refine ⟨fun r hr => ?_, fun hno => absurd hfirst (hno 0)⟩
    have hr0 : r = 0 := Nat.eq_zero_of_not_pos fun hpos => hr.2 0 hpos hfirst
    rw [hr0]
    decide
  have h0 : PmmRun FindsPages eightPages eightPages [] := .start
  have h := h0.malloc (n := 3) (by decide) hfinds (by decide)
  exact ⟨_, _, h, by decide, blocks_sound regions_eightPages h⟩

/-- Two pages are given out, the first one is freed, and two pages are taken from there. -/
theorem blocks_overlap :
    ∃ ds live, Regions eightPages ∧ PmmRun (fun _ _ => True) eightPages ds live ∧
      ¬ BlocksSound eightPages live := by
  have h0 : PmmRun (fun _ _ => True) eightPages eightPages [] := .start
  have h1 := h0.malloc (n := 1) le_rfl trivial (by decide)
  have h2 := h1.malloc (n := 1) le_rfl trivial (by decide)
  have h3 := h2.free (b := ⟨0x100000, 1⟩) (by decide)
  have h4 := h3.malloc (n := 2) (by decide) trivial (by decide)
  refine ⟨_, _, regions_eightPages, h4, fun h => ?_⟩
  have h5 := List.pairwise_cons.mp h.2
  have h6 := h5.1 ⟨0x101000, 1⟩ (by decide)
  revert h6
  unfold Block.Disjoint
  decide

end Os003
