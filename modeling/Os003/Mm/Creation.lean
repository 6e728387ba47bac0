import Os003.Mm.Allocations

set_option autoImplicit false

/-! # New address spaces

What `Init_Virtual_Memory_Manager` and `Init_User_Virtual_Memory_Manager` build: a PML4 with the
copied entries (`copyEntries_eq`), a PDPT for the identity mapping which has huge pages only, so
that no table is shared below it, and the page of the descriptor (`Core.init`). Only pages that were
given are written.
-/

namespace Os003

namespace Paging

/-- The pages that are given next, and those that are allocated. -/
def State.pages (s : State) : List Nat × Finset Nat := (s.supply, s.taken)

variable {n a d p q r x i : Nat} {vmms : List Vmm} {S D : Set Nat} {s s' s₁ : State} {v v' : Vmm}
  {e w flag : Word} {π is pages ps : List Nat} {isUser : Bool}

/-! ## The copies -/

theorem state_eq {m : Mem} (h : s'.mem = m) (hr : s'.cr3 = s.cr3 ∧ s'.supply = s.supply ∧
    s'.taken = s.taken ∧ s'.failed = s.failed ∧ s'.current = s.current ∧ s'.uefiPml4 = s.uefiPml4) :
    s' = { s with mem := m } := by
  obtain ⟨mem, cr3, supply, taken, failed, current, uefiPml4⟩ := s'
  obtain ⟨h₁, h₂, h₃, h₄, h₅, h₆⟩ := hr
  dsimp only at *
  subst h h₁ h₂ h₃ h₄ h₅ h₆
  rfl

theorem copyEntries_eq {src dest : Nat} (hne : src ≠ dest) : copyEntries src dest is s =
    { s with mem := Function.update s.mem dest fun i =>
        if i ∈ is then s.mem src i else s.mem dest i } := by
  induction is generalizing s with
  | nil =>
      refine state_eq ?_ ⟨rfl, rfl, rfl, rfl, rfl, rfl⟩
      simp [copyEntries]
  | cons j is ih =>
      have hstep : copyEntries src dest (j :: is) s =
          copyEntries src dest is (s.write dest j (s.mem src j)) := rfl
      rw [hstep, ih]
      refine state_eq ?_ ⟨rfl, rfl, rfl, rfl, rfl, rfl⟩
      dsimp only
      rw [State.write_page hne]
      funext x i
      by_cases hx : x = dest
      · subst hx
        rw [Function.update_self, Function.update_self]
        by_cases hi : i ∈ is
        · simp [hi]
        · by_cases hij : i = j
          · subst hij
            simp [hi]
          · rw [State.write_other (.inr hij)]
            simp [hi, hij]
      · rw [Function.update_of_ne hx, Function.update_of_ne hx, State.write_page hx]

theorem huge_identityEntry (h : present w = true) : huge (identityEntry w i) = true := by
  unfold identityEntry
  rw [if_pos h]
  split
  · rename_i hh
    rw [huge_eq] at hh ⊢
    rw [BitVec.getLsbD_or, hh]
    rfl
  · rw [huge_eq]
    simp only [BitVec.getLsbD_or]
    simp [pteHuge]

/-- The loop of `replace_identity_pdpt` over these entries; `new` is an empty table. -/
theorem fillIdentity {old new : Nat} (hnew : old = new → ∀ i, s.mem new i = 0) :
    is.foldl (fun s i =>
        if present (s.mem old i) then s.write new i (identityEntry (s.mem old i) i) else s) s =
      { s with mem := Function.update s.mem new fun i =>
          if i ∈ is ∧ present (s.mem old i) = true then identityEntry (s.mem old i) i
          else s.mem new i } := by
  by_cases heq : old = new
  · -- nothing is found in the empty table itself
    subst heq
    have hzero := hnew rfl
    have hstay : is.foldl (fun s i =>
        if present (s.mem old i) then s.write old i (identityEntry (s.mem old i) i) else s) s = s := by
      induction is with
      | nil => rfl
      | cons j is ih =>
          rw [List.foldl_cons, hzero, present_zero]
          exact ih
    rw [hstay]
    refine state_eq ?_ ⟨rfl, rfl, rfl, rfl, rfl, rfl⟩
    have hrow : (fun i => if i ∈ is ∧ present (s.mem old i) = true then identityEntry (s.mem old i) i
        else s.mem old i) = s.mem old := by
      funext i
      rw [hzero, if_neg]
      rintro ⟨-, hp⟩
      cases hp
    rw [hrow, Function.update_eq_self]
  · clear hnew
    induction is generalizing s with
    | nil =>
        refine state_eq ?_ ⟨rfl, rfl, rfl, rfl, rfl, rfl⟩
        simp
    -- the entry of `j` is written into `new`, so `old` still says what it said
    | cons j is ih =>
        rw [List.foldl_cons, ih]
        have hold : (if present (s.mem old j) = true then
            s.write new j (identityEntry (s.mem old j) j) else s).mem old = s.mem old := by
          split
          · exact State.write_page heq
          · rfl
        refine state_eq ?_ ?_
        · dsimp only
          rw [hold]
          funext x i
          by_cases hx : x = new
          · subst hx
            rw [Function.update_self, Function.update_self]
            by_cases hi : i ∈ is ∧ present (s.mem old i) = true
            · simp [hi]
            · rw [if_neg hi]
              by_cases hij : i = j
              · subst hij
                by_cases hp : present (s.mem old i) = true
                · simp [hp]
                · simp [hp]
              · have hout : ¬ (i ∈ j :: is ∧ present (s.mem old i) = true) := fun hm =>
                  hi ⟨(List.mem_cons.mp hm.1).resolve_left hij, hm.2⟩
                rw [if_neg hout]
                split
                · exact State.write_other (.inr hij)
                · rfl
          · rw [Function.update_of_ne hx, Function.update_of_ne hx]
            split
            · rw [State.write_page hx]
            · rfl
        · split <;> exact ⟨rfl, rfl, rfl, rfl, rfl, rfl⟩

/-- `replace_identity_pdpt` gives the PML4 a PDPT of its own, which has huge pages only. -/
structure Replaced (pml4 r : Nat) (s s' : State) : Prop where
  mem : ∀ x, x ≠ r → x ≠ pml4 → s'.mem x = s.mem x
  top : ∀ i, i ≠ 0 → s'.mem pml4 i = s.mem pml4 i
  entry : s'.mem pml4 0 = addr r ||| (s.mem pml4 0 &&& ~~~pageMask ||| pteWritable)
  pdpt : ∀ i, s'.mem r i = 0 ∨ ∃ w, present w = true ∧ s'.mem r i = identityEntry w i ∧
    (tableOf (s.mem pml4 0) ≠ r → w = s.mem (tableOf (s.mem pml4 0)) i)
  supply : s.supply = r :: s'.supply
  taken : s'.taken = insert r s.taken
  globals : s.SameGlobals s'

theorem replaceIdentityPdpt_cases (hfresh : p ∉ s.supply)
    (hok : (replaceIdentityPdpt p s).failed = false) :
    present (s.mem p 0) = false ∧ replaceIdentityPdpt p s = s ∨
    present (s.mem p 0) = true ∧ ∃ r, Replaced p r s (replaceIdentityPdpt p s) := by
  unfold replaceIdentityPdpt at hok ⊢
  cases hpres : present (s.mem p 0) with
  | false => exact .inl ⟨rfl, by simp [hpres]⟩
  | true =>
      refine .inr ⟨rfl, ?_⟩
      simp only [hpres, Bool.not_true, Bool.false_eq_true, if_false] at hok ⊢
      generalize hold : tableOf (s.mem p 0) = old at *
      -- without a page for the copy the step fails, which is excluded
      cases hs : s.supply with
      | nil =>
          have hfail : s.mallocPage.2.failed = true := by
            unfold State.mallocPage State.pmmMalloc
            rw [hs]
            rfl
          rw [fillIdentity] at hok
          · exact absurd (hfail.symm.trans hok) (by simp)
          · rintro - i
            unfold State.mallocPage State.clear
            simp
      | cons r rest =>
          have hpr : p ≠ r := by
            rintro rfl
            exact hfresh (by rw [hs]; exact List.mem_cons_self)
          rw [State.mallocPage_cons hs, fillIdentity]
          · refine ⟨r, ?_, ?_, ?_, ?_, hs, rfl, ⟨rfl, rfl, rfl⟩⟩
            · intro x hx hxp
              rw [State.write_page hxp]
              simp [hx]
            · intro i hi
              rw [State.write_other (.inr hi)]
              simp [hpr]
            · rw [State.write_here, BitVec.or_assoc]
            · -- the copy: an entry that is present goes over as an identity entry, the others stay 0
              intro i
              rw [State.write_page hpr.symm, hold]
              dsimp only
              rw [Function.update_self]
              split
              · rename_i hi
                refine .inr ⟨_, hi.2, rfl, fun hne => ?_⟩
                rw [Function.update_of_ne hne]
              · left
                rw [Function.update_self]
          · rintro - i
            simp

/-! ## The steps of the creation -/

/-- The new `VMM_T`. -/
def blankVmm (isUser : Bool) (flag : Word) (p : Nat) (s : State) : State :=
  let s := s.clear p
  let s := if isUser then s.write p 4 (1 <<< 32) else s
  s.write p 0 flag

/-- The new PML4. -/
def copied (isUser : Bool) (q : Nat) (s : State) : State :=
  if isUser then copyKernelPml4Entries q (s.clear q) else copyPml4Entries q 512 (s.clear q)

/-- The page of the descriptor is mapped under the new PML4, and what is known is stored. -/
def described (isUser : Bool) (flag : Word) (p q d : Nat) (s : State) : Option (Nat × State) := do
  let s := s.clear d
  let saved := s.cr3
  let s := mapPage (startOf isUser) (addr d) flag { s with cr3 := q }
  let s := s.write p 1 (BitVec.ofNat 64 (startOf isUser))
  let s ← store (descriptorOf s.mem p) (BitVec.ofNat 64 (startOf isUser + pageSize)) s
  let s ← store (descriptorOf s.mem p + 16) 0 s
  let s ← store (descriptorOf s.mem p + 8) 0 s
  let s := s.write p 0 flag
  let s := s.write p 2 (addr q)
  let s := setAllocRecordNum p 0 s
  return (p, { s with cr3 := saved })

theorem initVirtual_eq : initVirtual isUser flag s =
    if s.pmmMalloc.1 = 0 then some (0, s.pmmMalloc.2)
    else
      let p := s.pmmMalloc.1
      let s := blankVmm isUser flag p s.pmmMalloc.2
      if s.pmmMalloc.1 = 0 then some (0, s.pmmMalloc.2.pmmFree (addr p))
      else
        let q := s.pmmMalloc.1
        let s := replaceIdentityPdpt q (copied isUser q s.pmmMalloc.2)
        if s.pmmMalloc.1 = 0 then some (0, (s.pmmMalloc.2.pmmFree (addr p)).pmmFree (addr q))
        else described isUser flag p q s.pmmMalloc.1 s.pmmMalloc.2 := rfl

/-- The PML4 to copy from. -/
def sourceOf (isUser : Bool) (s : State) : Nat := if isUser then kernelPml4 s else s.uefiPml4

/-- The entries of the new PML4. -/
def copiedEntry (isUser : Bool) (src : Nat → Word) (i : Nat) : Word :=
  if isUser then
    if i = 0 then src 0 ||| pteUser ||| pteWritable
    else if 256 ≤ i ∧ i < 512 then src i else 0
  else if i < 512 then src i else 0

theorem copied_eq (hsrc : sourceOf isUser s ≠ q) (hcur : s.current ≠ q) : copied isUser q s =
    { s with mem := Function.update s.mem q (copiedEntry isUser (s.mem (sourceOf isUser s))) } := by
  have hkeep : ∀ x, x ≠ q → (s.clear q).mem x = s.mem x := fun x hx => by
    unfold State.clear
    simp [hx]
  have hzero : ∀ i, (s.clear q).mem q i = 0 := fun i => by
    unfold State.clear
    simp
  unfold copied
  cases isUser with
  -- a kernel space takes all entries of the firmware
  | false =>
      have hne : (s.clear q).uefiPml4 ≠ q := hsrc
      simp only [Bool.false_eq_true, if_false]
      rw [copyPml4Entries, copyEntries_eq hne]
      refine state_eq ?_ ⟨rfl, rfl, rfl, rfl, rfl, rfl⟩
      funext x i
      by_cases hx : x = q
      · subst hx
        simp only [Function.update_self, List.mem_range, copiedEntry, sourceOf]
        rw [hkeep _ hne, hzero]
        rfl
      · dsimp only
        rw [Function.update_of_ne hx, Function.update_of_ne hx, hkeep x hx]
  -- a user space takes the upper half of the kernel, and entry 0
  | true =>
      have hsame : kernelPml4 (s.clear q) = kernelPml4 s := by
        unfold kernelPml4 pml4Of
        rw [show (s.clear q).current = s.current from rfl, hkeep _ hcur]
        rfl
      have hne : kernelPml4 s ≠ q := hsrc
      simp only [if_true]
      rw [copyKernelPml4Entries, hsame, copyEntries_eq hne]
      refine state_eq ?_ ⟨rfl, rfl, rfl, rfl, rfl, rfl⟩
      funext x i
      by_cases hx : x = q
      · subst hx
        simp only [Function.update_self, List.mem_range'_1, copiedEntry, sourceOf]
        rw [State.write_page hne, hkeep _ hne]
        by_cases hi : i = 0
        · subst hi
          rw [if_neg (by omega), State.write_here]
          rfl
        · rw [State.write_other (.inr hi), hzero]
          simp [hi]
      · dsimp only
        rw [Function.update_of_ne hx, Function.update_of_ne hx, State.write_page hx, hkeep x hx]

theorem pmmMalloc_cons (h : s.supply = p :: ps) :
    s.pmmMalloc = (p, { s with supply := ps, taken := insert p s.taken }) := by
  unfold State.pmmMalloc
  rw [h]

theorem supply_of_pmmMalloc (h : s.pmmMalloc.1 ≠ 0) : ∃ ps, s.supply = s.pmmMalloc.1 :: ps := by
  unfold State.pmmMalloc at *
  cases hs : s.supply with
  | nil => simp [hs] at h
  | cons p ps => exact ⟨ps, rfl⟩

/-- The tables of the new address space before anything is mapped in it. -/
structure Prepared (v : Vmm) (src : Nat) (s s₁ : State) : Prop where
  frame : ∀ x, x ∉ s.supply → s₁.mem x = s.mem x
  page : v.page ∈ s.supply ∧ v.page ∉ s₁.supply
  pml4 : v.pml4 ∈ s.supply ∧ v.pml4 ∉ s₁.supply
  distinct : v.page ≠ v.pml4
  allocRecord : s₁.mem v.page 3 = 0
  isUser : isUserOf s₁.mem v.page = v.isUser
  top : ∀ i, i ≠ 0 → s₁.mem v.pml4 i = copiedEntry v.isUser (s.mem src) i
  identity : next s₁.mem 0 v.pml4 0 = none ∨ ∃ r, next s₁.mem 0 v.pml4 0 = some r ∧
    r ∈ s.supply ∧ r ∉ s₁.supply ∧ r ≠ v.page ∧ r ≠ v.pml4 ∧
    ∀ i, s₁.mem r i = 0 ∨ ∃ w, present w = true ∧ s₁.mem r i = identityEntry w i ∧
      (tableOf (s.mem src 0) ∉ s.supply → w = s.mem (tableOf (s.mem src 0)) i)
  supply : s₁.supply <:+ s.supply
  takes : Takes s s₁
  globals : s.SameGlobals s₁

theorem mem_blankVmm (hx : x ≠ p) : (blankVmm isUser flag p s).mem x = s.mem x := by
  unfold blankVmm State.clear
  cases isUser <;> simp [State.write, hx]

theorem blankVmm_allocRecord : (blankVmm isUser flag p s).mem p 3 = 0 := by
  unfold blankVmm State.clear
  cases isUser <;> simp [State.write]

theorem blankVmm_isUser : isUserOf (blankVmm isUser flag p s).mem p = isUser := by
  unfold isUserOf blankVmm State.clear
  cases isUser
  · simp [State.write]
  · simp [State.write]

theorem tableOf_or (e f : Word) (hf : f.toNat < pageSize) : tableOf (e ||| f) = tableOf e := by
  rw [tableOf_eq, tableOf_eq, BitVec.toNat_or]
  have := Nat.or_div_two_pow (a := e.toNat) (b := f.toNat) (n := 12)
  have hz : f.toNat / 2 ^ 12 = 0 := Nat.div_eq_of_lt hf
  rw [hz, Nat.or_zero] at this
  exact this

/-- The entry of the identity mapping leads to the new PDPT. -/
theorem tableOf_replaced (hr : r < 2 ^ 52) (e : Word) :
    tableOf (addr r ||| (e &&& ~~~pageMask ||| pteWritable)) = r := by
  refine tableOf_addr_or hr ?_
  rw [BitVec.toNat_or]
  refine Nat.or_lt_two_pow (n := 12) ?_ (by decide)
  rw [BitVec.toNat_and]
  exact lt_of_le_of_lt Nat.and_le_right (by decide)

theorem present_replaced (hp : present e = true) :
    present (addr r ||| (e &&& ~~~pageMask ||| pteWritable)) = true := by
  have hbit : (~~~pageMask).getLsbD 0 = true := by decide
  rw [present_eq] at hp ⊢
  rw [BitVec.getLsbD_or, BitVec.getLsbD_or, BitVec.getLsbD_and, hp, hbit]
  simp

/-- The `VMM_T` is in the page `p` and the PML4 in the page `q` has been filled; the pages `rest` are left. -/
structure RootFilled (isUser : Bool) (p q : Nat) (rest : List Nat) (src : Nat) (s c : State) : Prop where
  order : s.supply = p :: q :: rest
  nodup : (p :: q :: rest).Nodup
  frame : ∀ x, x ∉ s.supply → c.mem x = s.mem x
  allocRecord : c.mem p 3 = 0
  user : isUserOf c.mem p = isUser
  top : ∀ i, c.mem q i = copiedEntry isUser (s.mem src) i
  supply : c.supply = rest
  taken : c.taken = insert q (insert p s.taken)
  globals : s.SameGlobals c

section RootFilled

variable {src : Nat} {rest : List Nat} {c : State}

theorem RootFilled.distinct (h : RootFilled isUser p q rest src s c) : p ≠ q ∧ p ∉ rest ∧ q ∉ rest := by
  have hnodup := h.nodup
  simp only [List.nodup_cons, List.mem_cons, not_or] at hnodup
  exact ⟨hnodup.1.1, hnodup.1.2, hnodup.2.1⟩

theorem RootFilled.mem_supply (h : RootFilled isUser p q rest src s c) : p ∈ s.supply ∧ q ∈ s.supply := by
  rw [h.order]
  simp

/-- Without an identity entry there is nothing to replace. -/
theorem RootFilled.absent (h : RootFilled isUser p q rest src s c) (habsent : present (c.mem q 0) = false) :
    Prepared ⟨p, isUser, flag, q⟩ src s c := by
  obtain ⟨hpq, hprest, hqrest⟩ := h.distinct
  obtain ⟨hp, hq⟩ := h.mem_supply
  refine ⟨h.frame, ⟨hp, h.supply ▸ hprest⟩, ⟨hq, h.supply ▸ hqrest⟩, hpq, h.allocRecord, h.user,
    fun i _ => h.top i, .inl (next_eq_none.mpr (.inl habsent)), ?_, fun x => ?_, h.globals⟩
  · rw [h.supply, h.order]
    exact ⟨[p, q], rfl⟩
  · rw [h.taken, h.supply, h.order]
    simp only [Finset.mem_insert, List.mem_cons]
    by_cases hx : x ∈ rest
    · have h₁ : x ≠ p := fun heq => hprest (heq ▸ hx)
      have h₂ : x ≠ q := fun heq => hqrest (heq ▸ hx)
      simp [hx, h₁, h₂]
    · simp [hx]
      tauto

/-- The flags of the copied identity entry leave its table alone. -/
theorem tableOf_copiedEntry (t : Nat → Word) : tableOf (copiedEntry isUser t 0) = tableOf (t 0) := by
  unfold copiedEntry
  cases isUser
  · simp
  · simp only [if_true]
    rw [tableOf_or _ _ (by decide), tableOf_or _ _ (by decide)]

/-- The identity entry leads to a PDPT of its own, in the page `r`. -/
theorem RootFilled.replaced (h : RootFilled isUser p q rest src s c)
    (hr : Replaced q r c s₁) (hpresent : present (c.mem q 0) = true) (hlt : r < 2 ^ 52) :
    Prepared ⟨p, isUser, flag, q⟩ src s s₁ := by
  obtain ⟨hpq, hprest, hqrest⟩ := h.distinct
  obtain ⟨hp, hq⟩ := h.mem_supply
  have hrs : rest = r :: s₁.supply := h.supply ▸ hr.supply
  have hrmem : r ∈ s.supply := by simp [h.order, hrs]
  have hrest : (r :: s₁.supply).Nodup := hrs ▸ (List.nodup_cons.mp (List.nodup_cons.mp h.nodup).2).2
  rw [List.nodup_cons] at hrest
  rw [hrs, List.mem_cons, not_or] at hprest hqrest
  refine ⟨fun x hx => ?_, ⟨hp, hprest.2⟩, ⟨hq, hqrest.2⟩, hpq, ?_, ?_, fun i hi => ?_, ?_, ?_, fun x => ?_,
    h.globals.trans hr.globals⟩
  · rw [hr.mem x (fun heq => hx (heq ▸ hrmem)) (fun heq => hx (heq ▸ hq)), h.frame x hx]
  · rw [hr.mem p hprest.1 hpq, h.allocRecord]
  · have huser := h.user
    unfold isUserOf at huser ⊢
    rw [hr.mem p hprest.1 hpq, huser]
  · rw [hr.top i hi, h.top i]
  · cases hh : huge (s₁.mem q 0) with
    | true => exact .inl (next_eq_none.mpr (.inr ⟨by decide, hh⟩))
    | false =>
        refine .inr ⟨r, next_eq_some.mpr ⟨?_, by simp [hh], ?_⟩, hrmem, hrest.1,
          Ne.symm hprest.1, Ne.symm hqrest.1, fun i => ?_⟩
        · rw [hr.entry]
          exact present_replaced hpresent
        · rw [hr.entry, tableOf_replaced hlt (c.mem q 0)]
        · rcases hr.pdpt i with hzero | ⟨w, hw, hentry, hold⟩
          · exact .inl hzero
          · refine .inr ⟨w, hw, hentry, fun hout => ?_⟩
            rw [h.top, tableOf_copiedEntry] at hold
            rw [hold fun heq => hout (heq ▸ hrmem), h.frame _ hout]
  · rw [h.order, hrs]
    exact ⟨[p, q, r], rfl⟩
  · rw [hr.taken, h.taken, h.order, hrs]
    simp only [Finset.mem_insert, List.mem_cons]
    by_cases hx : x ∈ s₁.supply
    · have h₁ : x ≠ p := fun heq => hprest.2 (heq ▸ hx)
      have h₂ : x ≠ q := fun heq => hqrest.2 (heq ▸ hx)
      have h₃ : x ≠ r := fun heq => hrest.1 (heq ▸ hx)
      simp [hx, h₁, h₂, h₃]
    · simp [hx]
      tauto

end RootFilled

theorem Core.prepared {rest : List Nat} {t : State} (h : Core n vmms S s)
    (hs : s.supply = p :: q :: rest) (hsrc : sourceOf isUser s ∉ s.supply)
    (hcur : s.current ∉ s.supply) (hmem : ∀ x, x ≠ p → t.mem x = s.mem x) (hnull : t.mem p 3 = 0)
    (huser : isUserOf t.mem p = isUser) (hsupply : t.supply = rest)
    (htaken : t.taken = insert q (insert p s.taken)) (hglobals : s.SameGlobals t)
    (hok : (replaceIdentityPdpt q (copied isUser q t)).failed = false) :
    Prepared ⟨p, isUser, flag, q⟩ (sourceOf isUser s) s
      (replaceIdentityPdpt q (copied isUser q t)) := by
  have hne : ∀ x, x ∉ s.supply → x ≠ p ∧ x ≠ q := fun x hx =>
    ⟨fun heq => hx (by simp [hs, heq]), fun heq => hx (by simp [hs, heq])⟩
  have hpq : p ≠ q := by
    have hnodup := h.nodup
    simp only [hs, List.nodup_cons, List.mem_cons, not_or] at hnodup
    exact hnodup.1.1
  have hsource : sourceOf isUser t = sourceOf isUser s := by
    unfold sourceOf kernelPml4 pml4Of
    rw [hglobals.current, hglobals.uefiPml4, hmem _ (hne _ hcur).1]
  have hcopied := copied_eq (s := t) (q := q)
    (hsource ▸ (hne _ hsrc).2) (hglobals.current ▸ (hne _ hcur).2)
  rw [hsource, hmem _ (hne _ hsrc).1] at hcopied
  generalize copied isUser q t = c at hcopied hok ⊢
  have hcmem : ∀ x, x ≠ q → c.mem x = t.mem x := fun x hx => by
    rw [hcopied]
    simp [hx]
  -- the root is filled, and only entry 0 is still to be replaced
  have hfilled : RootFilled isUser p q rest (sourceOf isUser s) s c := by
    refine ⟨hs, hs ▸ h.nodup, fun x hx => ?_, ?_, ?_, fun i => ?_, ?_, ?_, ?_⟩
    · rw [hcmem x (hne x hx).2, hmem x (hne x hx).1]
    · rw [hcmem p hpq, hnull]
    · unfold isUserOf at huser ⊢
      rw [hcmem p hpq, huser]
    · rw [hcopied]
      simp
    · rw [hcopied]
      exact hsupply
    · rw [hcopied]
      exact htaken
    · rw [hcopied]
      exact ⟨hglobals.cr3, hglobals.current, hglobals.uefiPml4⟩
  rcases replaceIdentityPdpt_cases (hfilled.supply ▸ hfilled.distinct.2.2) hok with ⟨habsent, heq⟩ |
    ⟨hpresent, r, hr⟩
  · rw [heq]
    exact hfilled.absent habsent
  · have hrmem : r ∈ s.supply := by simp [hs, ← hfilled.supply, hr.supply]
    exact hfilled.replaced hr hpresent (h.fresh r hrmem).2.1

/-- No entry of its own half is copied. -/
def Vacant (v : Vmm) (src : Nat → Word) : Prop :=
  ∀ i, i ≠ 0 → i < 512 → v.Region i → present (copiedEntry v.isUser src i) = false

/-- Pages that were given are not on the old paths. -/
theorem Core.pageAt_frame {k : Holder} (h : Core n vmms S s)
    (hframe : ∀ x, x ∉ s.supply → s'.mem x = s.mem x) (hπ : Forest.Inner (Used n vmms S) k π) :
    pageAt s'.mem (rootOf k) π = pageAt s.mem (rootOf k) π := by
  refine Forest.follow_congr fun σ j ρ x hσ hx => next_congr (congrFun (hframe x ?_) j)
  exact h.not_fresh (hπ σ j ρ hσ) hx

/-- The paths of the new address space. -/
theorem Prepared.paths {src : Nat} (hp : Prepared v src s s₁) (hvacant : Vacant v (s.mem src))
    (hπ : Used n (vmms ++ [v]) (insert v.page S) (.space v) π)
    (hx : pageAt s₁.mem v.pml4 π = some x) : x ∈ s.supply ∧ x ∉ s₁.supply ∧ x ≠ v.page ∧
      (π = [] ∧ x = v.pml4 ∨ π = [0] ∧ x ≠ v.pml4 ∧ next s₁.mem 0 v.pml4 0 = some x) := by
  obtain ⟨-, hwithin, hregion⟩ := hπ
  cases π with
  | nil =>
      obtain rfl := Option.some.inj hx
      exact ⟨hp.pml4.1, hp.pml4.2, hp.distinct.symm, .inl ⟨rfl, rfl⟩⟩
  | cons i ρ =>
      rw [pageAt, Forest.follow_cons] at hx
      obtain ⟨c, hc, hx⟩ := Option.bind_eq_some_iff.mp hx
      by_cases hi : i = 0
      · subst hi
        rcases hp.identity with hnone | ⟨r, hr, hrs, hrs', hrp, hrq, hentries⟩
        · exact absurd (hnone.symm.trans hc) (by simp)
        · obtain rfl := Option.some.inj (hr.symm.trans hc)
          cases ρ with
          | nil =>
              obtain rfl := Option.some.inj hx
              exact ⟨hrs, hrs', hrp, .inr ⟨rfl, hrq, hr⟩⟩
          | cons j ρ =>
              -- the identity mapping has no tables
              have hnone : next s₁.mem 1 r j = none := by
                rcases hentries j with hzero | ⟨w, hw, hentry, -⟩
                · exact next_of_zero hzero
                · refine next_eq_none.mpr (.inr ⟨by decide, ?_⟩)
                  rw [hentry]
                  exact huge_identityEntry hw
              rw [Forest.follow_cons, hnone] at hx
              cases hx
      · have hlt : i < 512 := hwithin.2 i List.mem_cons_self
        have hentry := hvacant i hi hlt (hregion i ρ rfl)
        rw [← hp.top i hi] at hentry
        exact absurd ((next_eq_none (l := 0)).mpr (.inl hentry) ▸ hc) (by simp)

theorem Core.withSpace {src : Nat} (h : Core n vmms S s) (hp : Prepared v src s s₁)
    (hvacant : Vacant v (s.mem src)) : Core n (vmms ++ [v]) (insert v.page S) s₁ := by
  have hvnew : v ∉ vmms := fun hv => h.not_fresh (used_root hv) rfl hp.pml4.1
  -- a page that is reached was reached before, or has been given
  have hcases : ∀ k π x, Used n (vmms ++ [v]) (insert v.page S) k π →
      pageAt s₁.mem (rootOf k) π = some x →
      (Used n vmms S k π ∧ pageAt s.mem (rootOf k) π = some x ∧ x ∉ s.supply) ∨
      x ∈ s.supply ∧ x ∉ s₁.supply ∧ (k = .page v.page ∧ π = [] ∧ x = v.page ∨
        k = .space v ∧ π = [] ∧ x ≠ v.page ∧ x = v.pml4 ∨
        k = .space v ∧ π = [0] ∧ x ≠ v.page ∧ x ≠ v.pml4) := by
    intro k π x hπ hx
    have hold : Used n vmms S k π →
        (Used n vmms S k π ∧ pageAt s.mem (rootOf k) π = some x ∧ x ∉ s.supply) := fun hused => by
      rw [h.pageAt_frame hp.frame (used_closed.inner hused)] at hx
      exact ⟨hused, hx, h.not_fresh hused hx⟩
    cases k with
    | page y =>
        obtain ⟨hy, rfl⟩ := hπ
        rcases hy with rfl | hy
        · obtain rfl := Option.some.inj hx
          exact .inr ⟨hp.page.1, hp.page.2, .inl ⟨rfl, rfl, rfl⟩⟩
        · exact .inl (hold ⟨hy, rfl⟩)
    | space v' =>
        obtain ⟨hv', hwithin, hregion⟩ := hπ
        rcases List.mem_append.mp hv' with hv' | hv'
        · exact .inl (hold ⟨hv', hwithin, hregion⟩)
        · obtain rfl := List.mem_singleton.mp hv'
          have hused : Used n (vmms ++ [v']) (insert v'.page S) (.space v') π :=
            ⟨List.mem_append_right _ hv', hwithin, hregion⟩
          obtain ⟨hs, hs', hpage, hend⟩ := hp.paths hvacant hused hx
          rcases hend with ⟨rfl, hxq⟩ | ⟨rfl, hxq, -⟩
          · exact .inr ⟨hs, hs', .inr (.inl ⟨rfl, rfl, hpage, hxq⟩)⟩
          · exact .inr ⟨hs, hs', .inr (.inr ⟨rfl, rfl, hpage, hxq⟩)⟩
  refine ⟨?_, used_closed, fun _ _ hused => hused, ?_, ?_⟩
  · intro k π k' π' x hπ hπ' hx hx'
    rcases hcases k π x hπ hx with ⟨hused, hold, hout⟩ | ⟨hin, -, hnew⟩
    · rcases hcases k' π' x hπ' hx' with ⟨hused', hold', -⟩ | ⟨hin', -⟩
      · exact h.apart k π k' π' x hused hused' hold hold'
      · exact absurd hin' hout
    · rcases hcases k' π' x hπ' hx' with ⟨-, -, hout'⟩ | ⟨-, -, hnew'⟩
      · exact absurd hin hout'
      · rcases hnew with ⟨rfl, rfl, h₁⟩ | ⟨rfl, rfl, h₁, h₂⟩ | ⟨rfl, rfl, h₁, h₂⟩ <;>
          rcases hnew' with ⟨rfl, rfl, h₃⟩ | ⟨rfl, rfl, h₃, h₄⟩ | ⟨rfl, rfl, h₃, h₄⟩ <;>
          first | exact ⟨rfl, rfl⟩ | contradiction
  · exact h.nodup.sublist hp.supply.sublist
  · intro y hy
    obtain ⟨h0, h52, -⟩ := h.fresh y (hp.supply.subset hy)
    refine ⟨h0, h52, fun k π hπ hx => ?_⟩
    rcases hcases k π y hπ hx with ⟨-, -, hout⟩ | ⟨-, hout, -⟩
    · exact hout (hp.supply.subset hy)
    · exact hout hy

/-- Nothing is mapped yet. -/
theorem Prepared.unmapped {src : Nat} (hn : 3 ≤ n) (hp : Prepared v src s s₁)
    (hvacant : Vacant v (s.mem src)) (ha : v.Has a) : pageAt s₁.mem v.pml4 (indices a) = none := by
  by_contra hne
  obtain ⟨c, hc⟩ := Option.ne_none_iff_exists'.mp hne
  obtain ⟨t, ht, -⟩ := Forest.follow_prefix (π := (indices a).take 2) (ρ := (indices a).drop 2)
    (by rw [List.take_append_drop]; exact hc)
  have hused : Used n ([] ++ [v]) (insert v.page ∅) (.space v) ((indices a).take 2) :=
    used_take hn (by simp) ha (by decide)
  obtain ⟨-, -, -, hend⟩ := hp.paths hvacant hused ht
  rcases hend with ⟨hnil, -⟩ | ⟨hone, -⟩
  · simp [indices] at hnil
  · simp [indices] at hone

/-- What the creation of an address space has done; the page of the descriptor is `d`. -/
structure Opened (n : Nat) (vmms : List Vmm) (S : Set Nat) (v : Vmm) (src : Nat) (s s' : State)
    (d : Nat) : Prop where
  core : Core n (vmms ++ [v]) (insert v.page S) s'
  frame : ∀ x, x ∉ s.supply → s'.mem x = s.mem x
  page : v.page ∈ s.supply ∧ v.page ∉ s'.supply
  pml4 : v.pml4 ∈ s.supply
  words : Words s'.mem v
  num : allocRecordNumOf s'.mem v.page = 0
  desc : s'.mem d 0 = BitVec.ofNat 64 (startOf v.isUser + pageSize)
  mapped : ∀ a, v.Has a → pageAt s'.mem v.pml4 (indices a) =
    if a / pageSize = startOf v.isUser / pageSize then some d else none
  reach : ∀ π x, Used n (vmms ++ [v]) (insert v.page S) (.space v) π →
    pageAt s'.mem v.pml4 π = some x → x ∈ s.supply ∧ x ∉ s'.supply
  outside : ∀ i, ¬ v.Region i → s'.mem v.pml4 i = copiedEntry v.isUser (s.mem src) i
  /-- Only the entries of the identity mapping are huge. -/
  huge : ∀ σ x j, Used n (vmms ++ [v]) (insert v.page S) (.space v) σ → σ.length ≤ 2 →
    pageAt s'.mem v.pml4 σ = some x → huge (s'.mem x j) = true → σ = [] ∨
      ∃ w, present w = true ∧ s'.mem x j = identityEntry w j ∧
        (tableOf (s.mem src 0) ∉ s.supply → w = s.mem (tableOf (s.mem src 0)) j)
  supply : s'.supply <:+ s.supply
  takes : Takes s s'
  globals : s.SameGlobals s'

theorem store_eq (h : locate s a = some (d, i)) : store a w s = some (s.write d i w) := by
  unfold store
  rw [h]
  rfl

theorem store_failed (h : store a w s = some s') : s'.failed = s.failed := by
  unfold store at h
  obtain ⟨l, -, rfl⟩ := Option.map_eq_some_iff.mp h
  rfl

theorem descriptorOf_startOf (v : Vmm) :
    (BitVec.ofNat 64 (startOf v.isUser)).toNat = startOf v.isUser := by
  cases v.isUser <;> decide

/-- The three words of the descriptor are stored in its page. -/
theorem Core.store_desc {s₄ s₅ s₆ : State} (h : Core n vmms S s) (hn : 3 ≤ n) (hn4 : n ≤ 4)
    (hv : v ∈ vmms) (hcr3 : s.cr3 = v.pml4) (hd : pageAt s.mem v.pml4 (indices (startOf v.isUser)) = some d)
    (hown : ∀ v', ¬ Own n vmms S s v' d) (hpd : v.page ≠ d)
    (hword : s.mem v.page 1 = BitVec.ofNat 64 (startOf v.isUser))
    (h₄ : store (descriptorOf s.mem v.page) (BitVec.ofNat 64 (startOf v.isUser + pageSize)) s = some s₄)
    (h₅ : store (descriptorOf s₄.mem v.page + 16) 0 s₄ = some s₅)
    (h₆ : store (descriptorOf s₅.mem v.page + 8) 0 s₅ = some s₆) :
    Quiet n vmms S s s₆ ∧ (∀ x, x ≠ d → s₆.mem x = s.mem x) ∧
      s₆.mem d 0 = BitVec.ofNat 64 (startOf v.isUser + pageSize) := by
  have hdesc : ∀ t : State, t.mem v.page = s.mem v.page →
      descriptorOf t.mem v.page = startOf v.isUser := by
    intro t ht
    unfold descriptorOf
    rw [ht, hword]
    exact descriptorOf_startOf v
  have hstart : locate s (startOf v.isUser) = some (d, 0 / 8) := locate_desc (o := 0) hcr3 hd (by decide)
  rw [hdesc s rfl, store_eq hstart] at h₄
  obtain rfl := Option.some.inj h₄
  obtain ⟨q₂, hd₂⟩ := h.write_desc (i := 0 / 8)
    (w := BitVec.ofNat 64 (startOf v.isUser + pageSize)) hn hn4 hv hd hown
  have hown₂ := fun v' hown' => hown v' ((q₂.own v' d).mp hown')
  rw [hdesc _ (State.write_page hpd),
    store_eq (locate_desc (o := 16) (q₂.globals.cr3.trans hcr3) hd₂ (by decide))] at h₅
  obtain rfl := Option.some.inj h₅
  obtain ⟨q₃, hd₃⟩ := q₂.core.write_desc (i := 16 / 8) (w := 0) hn hn4 hv hd₂ hown₂
  have hown₃ := fun v' hown' => hown₂ v' ((q₃.own v' d).mp hown')
  rw [hdesc _ ((State.write_page hpd).trans (State.write_page hpd)), store_eq (locate_desc (o := 8)
    (q₃.globals.cr3.trans (q₂.globals.cr3.trans hcr3)) hd₃ (by decide))] at h₆
  obtain rfl := Option.some.inj h₆
  obtain ⟨q₄, -⟩ := q₃.core.write_desc (i := 8 / 8) (w := 0) hn hn4 hv hd₃ hown₃
  refine ⟨(q₂.trans q₃).trans q₄, fun x hx => ?_, ?_⟩
  · exact ((State.write_page hx).trans (State.write_page hx)).trans (State.write_page hx)
  · exact ((State.write_other (.inr (by decide))).trans (State.write_other (.inr (by decide)))).trans
      State.write_here

/-- The other fields of the `VMM_T` are written. -/
theorem Core.write_fields (h : Core n vmms S s) (hn4 : n ≤ 4) (hS : v.page ∈ S)
    (hs' : s' = Paging.setAllocRecordNum v.page 0 ((s.write v.page 0 v.flag).write v.page 2 (addr v.pml4))) :
    Quiet n vmms S s s' ∧ (∀ x, x ≠ v.page → s'.mem x = s.mem x) ∧ s'.mem v.page 0 = v.flag ∧
      s'.mem v.page 2 = addr v.pml4 ∧ (∀ j, j = 1 ∨ j = 3 → s'.mem v.page j = s.mem v.page j) ∧
      isUserOf s'.mem v.page = isUserOf s.mem v.page ∧ allocRecordNumOf s'.mem v.page = 0 := by
  have q₅ : Quiet n vmms S s (s.write v.page 0 v.flag) := h.write_data hn4 (h.not_own_single hS)
  have q₆ : Quiet n vmms S (s.write v.page 0 v.flag)
      ((s.write v.page 0 v.flag).write v.page 2 (addr v.pml4)) :=
    q₅.core.write_data hn4 (q₅.core.not_own_single hS)
  have hlast : ∀ j, j ≠ 4 → s'.mem v.page j =
      ((s.write v.page 0 v.flag).write v.page 2 (addr v.pml4)).mem v.page j := fun j hj => by
    rw [hs']
    exact State.write_other (.inr hj)
  refine ⟨?_, fun x hx => ?_, ?_, ?_, fun j hj => ?_, ?_, ?_⟩
  · rw [hs']
    exact (q₅.trans q₆).trans (q₆.core.setAllocRecordNum hn4 hS 0)
  · rw [hs']
    exact ((State.write_page hx).trans (State.write_page hx)).trans (State.write_page hx)
  · rw [hlast 0 (by decide), State.write_other (.inr (by decide)), State.write_here]
  · rw [hlast 2 (by decide), State.write_here]
  · rw [hlast j (by omega), State.write_other (.inr (by omega)), State.write_other (.inr (by omega))]
  · rw [hs', isUser_setAllocRecordNum]
    unfold isUserOf
    rw [State.write_other (.inr (by decide)), State.write_other (.inr (by decide))]
  · rw [hs', allocRecordNum_set]

/-- What is stored in the new `VMM_T` and in the descriptor. -/
theorem Core.fill_in {s₄ s₅ s₆ : State} (h : Core n vmms S s) (hn : 3 ≤ n) (hn4 : n ≤ 4)
    (hv : v ∈ vmms) (hS : v.page ∈ S) (hcr3 : s.cr3 = v.pml4)
    (hd : pageAt s.mem v.pml4 (indices (startOf v.isUser)) = some d)
    (hown : ∀ v', ¬ Own n vmms S s v' d) (hpd : v.page ≠ d)
    (h₄ : store (descriptorOf (s.write v.page 1 (BitVec.ofNat 64 (startOf v.isUser))).mem v.page)
      (BitVec.ofNat 64 (startOf v.isUser + pageSize))
      (s.write v.page 1 (BitVec.ofNat 64 (startOf v.isUser))) = some s₄)
    (h₅ : store (descriptorOf s₄.mem v.page + 16) 0 s₄ = some s₅)
    (h₆ : store (descriptorOf s₅.mem v.page + 8) 0 s₅ = some s₆)
    (hs' : s' = Paging.setAllocRecordNum v.page 0 ((s₆.write v.page 0 v.flag).write v.page 2 (addr v.pml4))) :
    Quiet n vmms S s s' ∧ (∀ x, x ≠ d → x ≠ v.page → s'.mem x = s.mem x) ∧
    s'.mem d 0 = BitVec.ofNat 64 (startOf v.isUser + pageSize) ∧ s'.mem v.page 0 = v.flag ∧
    s'.mem v.page 1 = BitVec.ofNat 64 (startOf v.isUser) ∧ s'.mem v.page 2 = addr v.pml4 ∧
    s'.mem v.page 3 = s.mem v.page 3 ∧ isUserOf s'.mem v.page = isUserOf s.mem v.page ∧
    allocRecordNumOf s'.mem v.page = 0 := by
  have q₁ : Quiet n vmms S s (s.write v.page 1 (BitVec.ofNat 64 (startOf v.isUser))) :=
    h.write_data hn4 (h.not_own_single hS)
  have hpage₁ : ∀ j, j ≠ 1 →
      (s.write v.page 1 (BitVec.ofNat 64 (startOf v.isUser))).mem v.page j = s.mem v.page j :=
    fun j hj => State.write_other (.inr hj)
  have hmem₁ : ∀ x, x ≠ v.page →
      (s.write v.page 1 (BitVec.ofNat 64 (startOf v.isUser))).mem x = s.mem x :=
    fun x hx => State.write_page hx
  have hword₁ : (s.write v.page 1 (BitVec.ofNat 64 (startOf v.isUser))).mem v.page 1 =
    BitVec.ofNat 64 (startOf v.isUser) := State.write_here
  generalize s.write v.page 1 (BitVec.ofNat 64 (startOf v.isUser)) = t₁ at *
  have hd₁ : pageAt t₁.mem v.pml4 (indices (startOf v.isUser)) = some d :=
    (q₁.space v _ le_rfl (inner_indices hn hv (startOf_has v))).trans hd
  have hown₁ := fun v' hown' => hown v' ((q₁.own v' d).mp hown')
  obtain ⟨q₂, hmem₂, hword₂⟩ := q₁.core.store_desc hn hn4 hv (q₁.globals.cr3.trans hcr3) hd₁ hown₁ hpd
    hword₁ h₄ h₅ h₆
  obtain ⟨q₃, hmem₃, hflag, hpml4, hkept, huser, hnum⟩ := q₂.core.write_fields hn4 hS hs'
  refine ⟨(q₁.trans q₂).trans q₃, fun x hxd hxp => ?_, ?_, hflag, ?_, hpml4, ?_, ?_, hnum⟩
  · rw [hmem₃ x hxp, hmem₂ x hxd, hmem₁ x hxp]
  · rw [hmem₃ d hpd.symm, hword₂]
  · rw [hkept 1 (.inl rfl), hmem₂ _ hpd, hword₁]
  · rw [hkept 3 (.inr rfl), hmem₂ _ hpd, hpage₁ 3 (by decide)]
  · rw [huser]
    unfold isUserOf
    rw [hmem₂ _ hpd, hpage₁ 4 (by decide)]

/-- The page `d` has been taken and cleared, and the page table `c` is loaded. -/
structure Cleared (n : Nat) (vmms : List Vmm) (S : Set Nat) (c d : Nat) (s s' : State) : Prop where
  core : Core n vmms S s'
  loose : Loose n vmms S s' d
  supply : s.supply = d :: s'.supply
  mem : ∀ x, x ≠ d → s'.mem x = s.mem x
  follow : ∀ k π, Forest.Inner (Used n vmms S) k π →
    pageAt s'.mem (rootOf k) π = pageAt s.mem (rootOf k) π
  takes : Takes s s'
  cr3 : s'.cr3 = c
  current : s'.current = s.current
  uefiPml4 : s'.uefiPml4 = s.uefiPml4

theorem Core.cleared {rest : List Nat} (h : Core n vmms S s) (hs : s.supply = d :: rest) (c : Nat) :
    Cleared n vmms S c d s { s.mallocPage.2 with cr3 := c } := by
  have hleak : Core n vmms S s.mallocPage.2 := h.leak hs
  have hsupply : s.mallocPage.2.supply = rest := by rw [State.mallocPage_cons hs]
  have hglobals := s.sameGlobals_mallocPage
  have hnodup := h.nodup
  rw [hs, List.nodup_cons] at hnodup
  refine
    { core := ⟨hleak.apart, hleak.closed, hleak.sub, hleak.nodup, hleak.fresh⟩
      loose := ⟨?_, fun k π hπ hx => (h.fresh d (by simp [hs])).2.2 k π hπ ?_⟩
      supply := ?_
      mem := ?_
      follow := fun k π hπ => Trees.follow_leak h hs hπ
      takes := ?_
      cr3 := rfl
      current := hglobals.current
      uefiPml4 := hglobals.uefiPml4 }
  · show d ∉ s.mallocPage.2.supply
    rw [hsupply]
    exact hnodup.1
  · exact (h.follow_leak hs (used_closed.inner hπ)).symm.trans hx
  · show s.supply = d :: s.mallocPage.2.supply
    rw [hsupply, hs]
  · intro x hx
    show s.mallocPage.2.mem x = s.mem x
    rw [State.mallocPage_cons hs]
    simp [hx]
  · intro x
    show x ∈ s.mallocPage.2.taken ↔ x ∈ s.taken ∨ x ∈ s.supply ∧ x ∉ s.mallocPage.2.supply
    have htaken : s.mallocPage.2.taken = insert d s.taken := by rw [State.mallocPage_cons hs]
    rw [htaken, hsupply, hs, Finset.mem_insert, List.mem_cons]
    by_cases hx : x = d
    · subst hx
      simp [hnodup.1]
    · simp only [hx, false_or]
      tauto

/-- The states that the last part of a creation goes through: `s₁` when the PML4 is copied, `s₂` when
the page `d` of the descriptor is taken, `s₃` when it is mapped, and `t` when all is filled in. -/
structure Filling (n : Nat) (vmms : List Vmm) (S : Set Nat) (v : Vmm) (src : Nat)
    (s s₁ s₂ s₃ t : State) (d : Nat) : Prop where
  prepared : Prepared v src s s₁
  vacant : Vacant v (s.mem src)
  cleared : Cleared n (vmms ++ [v]) (insert v.page S) v.pml4 d s₁ s₂
  acts : Acts n (vmms ++ [v]) (insert v.page S) v (fun x => x = d) s₂ s₃
  mapped : Mapped v (vmms ++ [v]) (startOf v.isUser) (some d) s₂ s₃
  taken : Takes s₂ s₃
  quiet : Quiet n (vmms ++ [v]) (insert v.page S) s₃ t
  written : ∀ x, x ≠ d → x ≠ v.page → t.mem x = s₃.mem x

section Filling

variable {src : Nat} {s₁ s₂ s₃ t : State} (hf : Filling n vmms S v src s s₁ s₂ s₃ t d)
include hf

theorem Filling.mem_supply : d ∈ s₁.supply := by
  rw [hf.cleared.supply]
  exact List.mem_cons_self

theorem Filling.suffix : s₂.supply <:+ s₁.supply := by
  rw [hf.cleared.supply]
  exact List.suffix_cons _ _

theorem Filling.supply : t.supply <:+ s.supply := by
  rw [hf.quiet.supply]
  exact hf.acts.supply.trans (hf.suffix.trans hf.prepared.supply)

/-- What is given now was given when the PML4 was copied. -/
theorem Filling.given {x : Nat} (hx : x ∈ t.supply) : x ∈ s₁.supply := by
  rw [hf.quiet.supply] at hx
  exact hf.suffix.subset (hf.acts.supply.subset hx)

/-- What is reached before the descriptor is mapped was reached when the PML4 was copied. -/
theorem Filling.back {π : List Nat} {x : Nat}
    (hπ : Used n (vmms ++ [v]) (insert v.page S) (.space v) π)
    (hx : pageAt s₂.mem v.pml4 π = some x) : pageAt s₁.mem v.pml4 π = some x :=
  (hf.cleared.follow (.space v) π (used_closed.inner hπ)).symm.trans hx

theorem Filling.fresh {π : List Nat} {x : Nat}
    (hπ : Used n (vmms ++ [v]) (insert v.page S) (.space v) π)
    (hx : pageAt s₂.mem v.pml4 π = some x) : x ∈ s.supply ∧ x ∉ s₁.supply := by
  obtain ⟨hin, hout, -⟩ := hf.prepared.paths hf.vacant hπ (hf.back hπ hx)
  exact ⟨hin, hout⟩

/-- Filling in leaves the paths alone. -/
theorem Filling.follow (hn4 : n ≤ 4) {π : List Nat}
    (hπ : Used n (vmms ++ [v]) (insert v.page S) (.space v) π) :
    pageAt t.mem v.pml4 π = pageAt s₃.mem v.pml4 π :=
  hf.quiet.space v π (used_length hn4 hπ) (used_closed.inner hπ)

theorem Filling.frame {x : Nat} (hx : x ∉ s.supply) : t.mem x = s.mem x := by
  have hxd : x ≠ d := fun heq => hx (heq ▸ hf.prepared.supply.subset hf.mem_supply)
  have hxp : x ≠ v.page := fun heq => hx (heq ▸ hf.prepared.page.1)
  have hnew : s₃.mem x = s₂.mem x := by
    refine hf.acts.frame x (fun hx' => hx (hf.prepared.supply.subset (hf.suffix.subset hx'))) ?_
    rintro ⟨π, hπ, -, hxπ⟩
    exact hx (hf.fresh hπ hxπ).1
  calc t.mem x = s₃.mem x := hf.written x hxd hxp
    _ = s₂.mem x := hnew
    _ = s₁.mem x := hf.cleared.mem x hxd
    _ = s.mem x := hf.prepared.frame x hx

/-- Nothing but the descriptor is mapped. -/
theorem Filling.mapped_only (hn : 3 ≤ n) {a : Nat} (ha : v.Has a) :
    pageAt t.mem v.pml4 (indices a) =
      if a / pageSize = startOf v.isUser / pageSize then some d else none := by
  have hv : v ∈ vmms ++ [v] := by simp
  have hinner : Forest.Inner (Used n (vmms ++ [v]) (insert v.page S)) (.space v) (indices a) :=
    inner_indices hn hv ha
  have hnone : pageAt s₂.mem v.pml4 (indices a) = none :=
    (hf.cleared.follow (.space v) _ hinner).trans (hf.prepared.unmapped hn hf.vacant ha)
  refine (hf.quiet.space v _ le_rfl hinner).trans ((hf.mapped v hv a ha).trans ?_)
  by_cases heq : a / pageSize = startOf v.isUser / pageSize
  · rw [if_pos ⟨rfl, heq⟩, if_pos heq]
  · rw [if_neg (fun hc => heq hc.2), if_neg heq]
    exact hnone

theorem Filling.reach (hn4 : n ≤ 4) {π : List Nat} {x : Nat}
    (hπ : Used n (vmms ++ [v]) (insert v.page S) (.space v) π)
    (hx : pageAt t.mem v.pml4 π = some x) : x ∈ s.supply ∧ x ∉ t.supply := by
  have hx₃ : pageAt s₃.mem v.pml4 π = some x := (hf.follow hn4 hπ).symm.trans hx
  rcases hf.acts.reach (.space v) π x hπ hx₃ with hold | hnew | rfl
  · obtain ⟨hin, hout⟩ := hf.fresh hπ hold
    exact ⟨hin, fun hx' => hout (hf.given hx')⟩
  · refine ⟨hf.prepared.supply.subset (hf.suffix.subset hnew.1), ?_⟩
    rw [hf.quiet.supply]
    exact hnew.2
  · refine ⟨hf.prepared.supply.subset hf.mem_supply, ?_⟩
    rw [hf.quiet.supply]
    exact fun hx' => hf.cleared.loose.1 (hf.acts.supply.subset hx')

/-- Outside its region the PML4 is a copy. -/
theorem Filling.outside {i : Nat} (hi : ¬ v.Region i) :
    t.mem v.pml4 i = copiedEntry v.isUser (s.mem src) i := by
  have hi0 : i ≠ 0 := by
    rintro rfl
    refine hi ?_
    unfold Vmm.Region
    split <;> simp
  have hqd : v.pml4 ≠ d := fun heq => hf.prepared.pml4.2 (heq ▸ hf.mem_supply)
  have hroot : Used n (vmms ++ [v]) (insert v.page S) (.space v) [] := used_root (by simp)
  calc t.mem v.pml4 i
      = s₃.mem v.pml4 i := by rw [hf.quiet.tables v v.pml4 ⟨[], hroot, Nat.zero_le _, rfl⟩]
    _ = s₂.mem v.pml4 i := hf.acts.top i hi
    _ = s₁.mem v.pml4 i := by rw [hf.cleared.mem _ hqd]
    _ = copiedEntry v.isUser (s.mem src) i := hf.prepared.top i hi0

/-- The huge entries are those of the identity mapping. -/
theorem Filling.huge (hn4 : n ≤ 4) {σ : List Nat} {x j : Nat}
    (hσ : Used n (vmms ++ [v]) (insert v.page S) (.space v) σ) (hlen : σ.length ≤ 2)
    (hx : pageAt t.mem v.pml4 σ = some x) (hh : huge (t.mem x j) = true) :
    σ = [] ∨ ∃ w, present w = true ∧ t.mem x j = identityEntry w j ∧
      (tableOf (s.mem src 0) ∉ s.supply → w = s.mem (tableOf (s.mem src 0)) j) := by
  have hx₃ : pageAt s₃.mem v.pml4 σ = some x := (hf.follow hn4 hσ).symm.trans hx
  have hmem : t.mem x = s₃.mem x := hf.quiet.tables v x ⟨σ, hσ, by omega, hx₃⟩
  rw [hmem] at hh
  obtain ⟨hx₂, hsame₂⟩ := hf.acts.huge σ x j hσ hlen hx₃ hh
  obtain ⟨-, -, -, hend⟩ := hf.prepared.paths hf.vacant hσ (hf.back hσ hx₂)
  rcases hend with ⟨rfl, -⟩ | ⟨-, -, hnext⟩
  · exact .inl rfl
  · -- the PDPT of the identity mapping
    right
    rcases hf.prepared.identity with hnone | ⟨r, hr, -, hrs', -, -, hentries⟩
    · exact absurd (hnone.symm.trans hnext) (by simp)
    · obtain rfl := Option.some.inj (hr.symm.trans hnext)
      have hrd : r ≠ d := fun heq => hrs' (heq ▸ hf.mem_supply)
      have hentry : t.mem r j = s₁.mem r j := by
        rw [hmem, hsame₂, hf.cleared.mem r hrd]
      rcases hentries j with hzero | ⟨w, hw, hident, hold⟩
      · rw [hmem.symm, hentry, hzero] at hh
        cases hh
      · exact ⟨w, hw, hentry.trans hident, hold⟩

theorem Filling.takes : Takes s t := by
  have hall : Takes s s₃ :=
    (hf.prepared.takes.trans hf.cleared.takes hf.prepared.supply hf.suffix).trans hf.taken
      (hf.suffix.trans hf.prepared.supply) hf.acts.supply
  intro x
  rw [hf.quiet.taken, hf.quiet.supply]
  exact hall x

end Filling

/-- The descriptor is mapped and filled in. -/
theorem Core.described {src : Nat} {rest : List Nat} (h : Core n vmms S s) (hn : 3 ≤ n) (hn4 : n ≤ 4)
    (hp : Prepared v src s s₁) (hvacant : Vacant v (s.mem src)) (hs : s₁.supply = d :: rest)
    (hflag : v.flag.toNat < pageSize)
    (hd : described v.isUser v.flag v.page v.pml4 d s₁.pmmMalloc.2 = some (p, s'))
    (hok : s'.failed = false) : p = v.page ∧ Opened n vmms S v src s s' d := by
  have hcore : Core n (vmms ++ [v]) (insert v.page S) s₁ := h.withSpace hp hvacant
  have hv : v ∈ vmms ++ [v] := by simp
  have hpS : v.page ∈ insert v.page S := Set.mem_insert _ _
  obtain ⟨-, hd52, -⟩ := hcore.fresh d (by simp [hs])
  have hpd : v.page ≠ d := fun heq => hp.page.2 (by simp [hs, heq])
  -- the page of the descriptor is taken and cleared
  have hclear : s₁.pmmMalloc.2.clear d = s₁.mallocPage.2 := by
    unfold State.mallocPage
    rw [pmmMalloc_cons hs]
  unfold Paging.described at hd
  simp only [Option.pure_def, Option.bind_eq_bind] at hd
  rw [hclear] at hd
  have hcleared := hcore.cleared hs v.pml4
  generalize ({ s₁.mallocPage.2 with cr3 := v.pml4 } : State) = s₂ at hd hcleared
  obtain ⟨s₄, h₄, hd⟩ := Option.bind_eq_some_iff.mp hd
  obtain ⟨s₅, h₅, hd⟩ := Option.bind_eq_some_iff.mp hd
  obtain ⟨s₆, h₆, hd⟩ := Option.bind_eq_some_iff.mp hd
  obtain ⟨rfl, rfl⟩ := Prod.mk.inj (Option.some.inj hd)
  have hok₃ : (Paging.mapPage (startOf v.isUser) (addr d) v.flag s₂).failed = false := by
    have hlast : s₆.failed = false := hok
    rw [store_failed h₆, store_failed h₅, store_failed h₄] at hlast
    exact hlast
  have htable : tableOf (addr d ||| v.flag ||| ptePresent) = d := tableOf_flags hd52 hflag
  obtain ⟨hacts, hmapped, htakes⟩ := Core.mapPage (D := fun x => x = d) hcleared.core hn hn4 hv hcleared.cr3
    (startOf_has v) hok₃ (fun _ => htable.symm ▸ hcleared.loose) (fun _ => htable)
  rw [htable] at hmapped
  generalize Paging.mapPage (startOf v.isUser) (addr d) v.flag s₂ = s₃ at *
  have hcr3₃ : s₃.cr3 = v.pml4 := hacts.globals.cr3.trans hcleared.cr3
  have hd₃ : pageAt s₃.mem v.pml4 (indices (startOf v.isUser)) = some d :=
    (hmapped v hv _ (startOf_has v)).trans (if_pos ⟨rfl, rfl⟩)
  have hdown : ∀ v', ¬ Own n (vmms ++ [v]) (insert v.page S) s₃ v' d := by
    intro v' hown
    rcases hacts.own hcleared.core hown with hold | hnew
    · exact hcleared.loose.not_own v' hold
    · exact hcleared.loose.1 hnew.1
  obtain ⟨hquiet, hframe, hdesc, hword₀, hword₁, hword₂, hword₃, huser, hnum⟩ :=
    hacts.core.fill_in hn hn4 hv hpS hcr3₃ hd₃ hdown hpd h₄ h₅ h₆ rfl
  generalize ht : Paging.setAllocRecordNum v.page 0 ((s₆.write v.page 0 v.flag).write v.page 2
    (addr v.pml4)) = t at *
  have hf : Filling n vmms S v src s s₁ s₂ s₃ t d :=
    ⟨hp, hvacant, hcleared, hacts, hmapped, htakes, hquiet, hframe⟩
  have hpage₃ : s₃.mem v.page = s₁.mem v.page := by
    rw [hacts.single hcleared.core hpS, hcleared.mem _ hpd]
  have hmalloc := s₁.sameGlobals_mallocPage
  refine ⟨rfl, ?_⟩
  exact
    { core := ⟨hquiet.core.apart, hquiet.core.closed, hquiet.core.sub, hquiet.core.nodup,
        hquiet.core.fresh⟩
      frame := fun x hx => hf.frame hx
      page := ⟨hp.page.1, fun hin => hp.page.2 (hf.given hin)⟩
      pml4 := hp.pml4.1
      words := ⟨hword₀, hword₁, hword₂, hword₃.trans ((congrFun hpage₃ 3).trans hp.allocRecord),
        huser.trans (by unfold isUserOf; rw [hpage₃]; exact hp.isUser)⟩
      num := hnum
      desc := hdesc
      mapped := fun a ha => hf.mapped_only hn ha
      reach := fun π x hπ hx => hf.reach hn4 hπ hx
      outside := fun i hi => hf.outside hi
      huge := fun σ x j hσ hlen hx hh => hf.huge hn4 hσ hlen hx hh
      supply := hf.supply
      takes := hf.takes
      globals := ⟨hmalloc.cr3.trans hp.globals.cr3,
        hquiet.globals.current.trans (hacts.globals.current.trans
          (hcleared.current.trans hp.globals.current)),
        hquiet.globals.uefiPml4.trans (hacts.globals.uefiPml4.trans
          (hcleared.uefiPml4.trans hp.globals.uefiPml4))⟩ }

theorem described_failed (h : described isUser flag p q d s = some (a, s'))
    (hok : s'.failed = false) : s.failed = false := by
  unfold described at h
  simp only [Option.pure_def, Option.bind_eq_bind] at h
  obtain ⟨s₄, h₄, h⟩ := Option.bind_eq_some_iff.mp h
  obtain ⟨s₅, h₅, h⟩ := Option.bind_eq_some_iff.mp h
  obtain ⟨s₆, h₆, h⟩ := Option.bind_eq_some_iff.mp h
  obtain ⟨-, rfl⟩ := Prod.mk.inj (Option.some.inj h)
  have hlast : s₆.failed = false := hok
  rw [store_failed h₆, store_failed h₅, store_failed h₄] at hlast
  by_contra hf
  have hfail : ({ s.clear d with cr3 := q } : State).failed = true := eq_true_of_ne_false hf
  have hmap := failed_mapPage (startOf isUser) (addr d) flag hfail
  exact absurd (hmap.symm.trans hlast) (by simp)

theorem blankVmm_rest (isUser : Bool) (flag : Word) (p : Nat) (s : State) :
    (blankVmm isUser flag p s).supply = s.supply ∧ (blankVmm isUser flag p s).taken = s.taken ∧
      s.SameGlobals (blankVmm isUser flag p s) := by
  unfold blankVmm
  cases isUser <;> exact ⟨rfl, rfl, rfl, rfl, rfl⟩

/-- `Init_Virtual_Memory_Manager` and `Init_User_Virtual_Memory_Manager`, when there are pages. -/
theorem Core.init (h : Core n vmms S s) (hn : 3 ≤ n) (hn4 : n ≤ 4)
    (hinit : initVirtual isUser flag s = some (p, s')) (hp : p ≠ 0) (hok : s'.failed = false)
    (hflag : flag.toNat < pageSize) (hsrc : sourceOf isUser s ∉ s.supply)
    (hcur : s.current ∉ s.supply)
    (hvacant : isUser = false → ∀ i, 256 ≤ i → i < 512 → present (s.mem s.uefiPml4 i) = false) :
    ∃ v d, v.page = p ∧ v.isUser = isUser ∧ v.flag = flag ∧
      Opened n vmms S v (sourceOf isUser s) s s' d := by
  rw [initVirtual_eq] at hinit
  by_cases h₁ : s.pmmMalloc.1 = 0
  · rw [if_pos h₁] at hinit
    exact absurd (Prod.mk.inj (Option.some.inj hinit)).1.symm hp
  rw [if_neg h₁] at hinit
  dsimp only at hinit
  obtain ⟨ps₁, hs₁⟩ := supply_of_pmmMalloc h₁
  rw [pmmMalloc_cons hs₁] at hinit
  generalize s.pmmMalloc.1 = p₀ at hs₁ hinit
  dsimp only at hinit
  -- the `VMM_T`
  generalize ht : blankVmm isUser flag p₀ { s with supply := ps₁, taken := insert p₀ s.taken } = t
    at hinit
  obtain ⟨htsupply, httaken, htglobals⟩ := blankVmm_rest isUser flag p₀
    { s with supply := ps₁, taken := insert p₀ s.taken }
  have htmem : ∀ x, x ≠ p₀ → t.mem x = s.mem x := fun x hx => by
    rw [← ht]
    exact mem_blankVmm hx
  have htnull : t.mem p₀ 3 = 0 := by rw [← ht]; exact blankVmm_allocRecord
  have htuser : isUserOf t.mem p₀ = isUser := by rw [← ht]; exact blankVmm_isUser
  rw [ht] at htsupply httaken htglobals
  by_cases h₂ : t.pmmMalloc.1 = 0
  · rw [if_pos h₂] at hinit
    exact absurd (Prod.mk.inj (Option.some.inj hinit)).1.symm hp
  rw [if_neg h₂] at hinit
  -- the PML4
  obtain ⟨ps₂, hs₂⟩ := supply_of_pmmMalloc h₂
  rw [pmmMalloc_cons hs₂] at hinit
  generalize t.pmmMalloc.1 = q at hs₂ hinit
  dsimp only at hinit
  generalize hu : replaceIdentityPdpt q (copied isUser q
    { t with supply := ps₂, taken := insert q t.taken }) = u at hinit
  by_cases h₃ : u.pmmMalloc.1 = 0
  · rw [if_pos h₃] at hinit
    exact absurd (Prod.mk.inj (Option.some.inj hinit)).1.symm hp
  rw [if_neg h₃] at hinit
  obtain ⟨ps₃, hs₃⟩ := supply_of_pmmMalloc h₃
  have hufailed : u.failed = false := by
    have := described_failed hinit hok
    rwa [pmmMalloc_cons hs₃] at this
  have hprepared : Prepared ⟨p₀, isUser, flag, q⟩ (sourceOf isUser s) s u := by
    rw [← hu]
    refine h.prepared ?_ hsrc hcur htmem htnull htuser rfl ?_ ?_ ?_
    · rw [hs₁, ← hs₂]
      exact congrArg _ htsupply.symm
    · dsimp only
      rw [httaken]
    · exact ⟨htglobals.cr3, htglobals.current, htglobals.uefiPml4⟩
    · rw [hu]
      exact hufailed
  have hv : Vacant ⟨p₀, isUser, flag, q⟩ (s.mem (sourceOf isUser s)) := by
    intro i hi0 hi hregion
    unfold copiedEntry
    unfold Vmm.Region at hregion
    cases isUser with
    | false =>
        simp only [Bool.false_eq_true, if_false] at hregion ⊢
        rw [if_pos hi]
        exact hvacant rfl i (hregion.resolve_left hi0) hi
    | true =>
        simp only [if_true] at hregion ⊢
        rw [if_neg hi0, if_neg (by omega)]
        rfl
  obtain ⟨hpage, hopened⟩ := h.described hn hn4 hprepared hv hs₃ hflag hinit hok
  exact ⟨⟨p₀, isUser, flag, q⟩, u.pmmMalloc.1, hpage.symm, rfl, rfl, hopened⟩

/-! ## The pages of the allocator -/

@[simp] theorem pages_write {w : Word} : (s.write x i w).pages = s.pages := rfl

@[simp] theorem pages_clear : (s.clear p).pages = s.pages := rfl

theorem supply_of_pages (h : s'.pages = s.pages) : s'.supply = s.supply := congrArg Prod.fst h

theorem taken_of_pages (h : s'.pages = s.pages) : s'.taken = s.taken := congrArg Prod.snd h

/-- A loop that only writes. -/
theorem pages_foldl {is : List Nat} {f : State → Nat → State} (hf : ∀ s i, (f s i).pages = s.pages) :
    (is.foldl f s).pages = s.pages := by
  induction is generalizing s with
  | nil => rfl
  | cons j is ih => rw [List.foldl_cons, ih, hf]

theorem pages_blankVmm : (blankVmm isUser flag p s).pages = s.pages := by
  obtain ⟨hsupply, htaken, -⟩ := blankVmm_rest isUser flag p s
  exact Prod.ext hsupply htaken

theorem pages_copied : (copied isUser q s).pages = s.pages := by
  have hcopy : ∀ (src dest : Nat) (is : List Nat) (s : State),
      (copyEntries src dest is s).pages = s.pages := fun _ _ _ _ => pages_foldl fun _ _ => rfl
  unfold copied copyKernelPml4Entries copyPml4Entries
  cases isUser
  · exact hcopy _ _ _ _
  · exact hcopy _ _ _ _

/-- The new PDPT takes a page, if there is one. -/
theorem pages_replaceIdentityPdpt : (replaceIdentityPdpt q s).pages = s.pages ∨
    (replaceIdentityPdpt q s).pages = s.pmmMalloc.2.pages := by
  unfold replaceIdentityPdpt
  dsimp only
  split
  · exact .inl rfl
  · right
    rw [pages_write, pages_foldl]
    · rfl
    · intro s i
      split <;> rfl

theorem pmmMalloc_zero (hzero : ∀ x ∈ s.supply, x ≠ 0) (h : s.pmmMalloc.1 = 0) : s.supply = [] := by
  cases hs : s.supply with
  | nil => rfl
  | cons p ps =>
      rw [pmmMalloc_cons hs] at h
      exact absurd h (hzero p (by rw [hs]; exact List.mem_cons_self))

theorem pmmMalloc_failed (hzero : ∀ x ∈ s.supply, x ≠ 0) (h : s.pmmMalloc.1 = 0) :
    s.pmmMalloc.2.failed = true := by
  unfold State.pmmMalloc
  rw [pmmMalloc_zero hzero h]

theorem replaceIdentityPdpt_supply (q : Nat) (s : State) :
    (replaceIdentityPdpt q s).supply <:+ s.supply := by
  rcases pages_replaceIdentityPdpt (q := q) (s := s) with hp | hp
  · rw [supply_of_pages hp]
  · rw [supply_of_pages hp]
    unfold State.pmmMalloc
    cases s.supply with
    | nil => exact List.suffix_refl _
    | cons p ps => exact List.suffix_cons p ps

/-- The creation of an address space gives 0 only when there is no page. -/
theorem initVirtual_zero (hzero : ∀ x ∈ s.supply, x ≠ 0)
    (h : initVirtual isUser flag s = some (0, s')) : s'.failed = true := by
  rw [initVirtual_eq] at h
  by_cases h₁ : s.pmmMalloc.1 = 0
  · rw [if_pos h₁] at h
    rw [← (Prod.mk.inj (Option.some.inj h)).2]
    exact pmmMalloc_failed hzero h₁
  rw [if_neg h₁] at h
  dsimp only at h
  obtain ⟨ps₁, hs₁⟩ := supply_of_pmmMalloc h₁
  obtain ⟨htsupply, -, -⟩ := blankVmm_rest isUser flag s.pmmMalloc.1 s.pmmMalloc.2
  generalize blankVmm isUser flag s.pmmMalloc.1 s.pmmMalloc.2 = t at h htsupply
  rw [pmmMalloc_cons hs₁] at htsupply
  have hzero₁ : ∀ x ∈ t.supply, x ≠ 0 := by
    intro x hx
    rw [htsupply] at hx
    exact hzero x (by rw [hs₁]; exact List.mem_cons_of_mem _ hx)
  by_cases h₂ : t.pmmMalloc.1 = 0
  · rw [if_pos h₂] at h
    rw [← (Prod.mk.inj (Option.some.inj h)).2]
    exact pmmMalloc_failed hzero₁ h₂
  rw [if_neg h₂] at h
  obtain ⟨ps₂, hs₂⟩ := supply_of_pmmMalloc h₂
  have husupply := replaceIdentityPdpt_supply t.pmmMalloc.1
    (copied isUser t.pmmMalloc.1 t.pmmMalloc.2)
  rw [supply_of_pages pages_copied] at husupply
  generalize replaceIdentityPdpt t.pmmMalloc.1 (copied isUser t.pmmMalloc.1 t.pmmMalloc.2) = u
    at h husupply
  rw [pmmMalloc_cons hs₂] at husupply
  have hzero₂ : ∀ x ∈ u.supply, x ≠ 0 := fun x hx =>
    hzero₁ x (by rw [hs₂]; exact List.mem_cons_of_mem _ (husupply.subset hx))
  by_cases h₃ : u.pmmMalloc.1 = 0
  · rw [if_pos h₃] at h
    rw [← (Prod.mk.inj (Option.some.inj h)).2]
    exact pmmMalloc_failed hzero₂ h₃
  · -- otherwise the page of the `VMM_T` is returned
    rw [if_neg h₃] at h
    unfold described at h
    simp only [Option.pure_def, Option.bind_eq_bind] at h
    obtain ⟨s₄, -, h⟩ := Option.bind_eq_some_iff.mp h
    obtain ⟨s₅, -, h⟩ := Option.bind_eq_some_iff.mp h
    obtain ⟨s₆, -, h⟩ := Option.bind_eq_some_iff.mp h
    exact absurd (Prod.mk.inj (Option.some.inj h)).1 h₁

/-! ## The books of a new address space -/

variable {lives : Nat → List AllocRecord}

/-- The VMM that is current, if there is one, is one of the list. -/
def CurrentIn (vmms : List Vmm) (s : State) : Prop :=
  s.current = 0 ∨ ∃ v ∈ vmms, v.page = s.current

theorem Kept.page_taken (h : Kept vmms S lives s) (hx : x ∈ S) : x ∈ s.taken :=
  h.taken (.page x) [] x ⟨hx, rfl⟩ rfl

/-- A page in use is not given. -/
theorem Kept.not_given {k : Holder} (h : Kept vmms S lives s) (hp : FreshFor s pages)
    (hπ : Used 4 vmms S k π) (hx : pageAt s.mem (rootOf k) π = some x) : x ∉ pages :=
  fun hmem => (hp.fresh x hmem).2.2 (h.taken k π x hπ hx)

theorem Words.pml4Of (h : Words s.mem v) (hv : v.pml4 < 2 ^ 52) :
    Paging.pml4Of s.mem v.page = v.pml4 := by
  have hz : addr v.pml4 ||| 0#64 = addr v.pml4 := BitVec.or_zero
  unfold Paging.pml4Of
  rw [h.pml4, ← hz]
  exact tableOf_addr_or hv (by decide)

/-- What is copied is in use. -/
theorem Kept.source (h : Kept vmms S lives s) (hcur : CurrentIn vmms s)
    (huefi : s.uefiPml4 ∈ s.taken) : sourceOf isUser s ∈ s.taken := by
  unfold sourceOf
  split
  · unfold kernelPml4
    split
    · rename_i hcurrent
      rcases hcur with h0 | ⟨v, hv, hpage⟩
      · exact absurd h0 hcurrent.1
      · rw [← hpage, (h.words v hv).pml4Of (h.bits v hv).2]
        exact h.taken (.space v) [] _ (used_root hv) rfl
    · exact huefi
  · exact huefi

theorem Kept.current_not_given (h : Kept vmms S lives s) (hp : FreshFor s pages)
    (hcur : CurrentIn vmms s) : s.current ∉ pages := by
  intro hmem
  rcases hcur with h0 | ⟨v, hv, hpage⟩
  · exact (hp.fresh _ hmem).1 h0
  · exact (hp.fresh _ hmem).2.2 (hpage ▸ h.page_taken (h.page v hv))

/-- The descriptor of a new address space says that nothing has been allocated. -/
theorem Opened.books {src : Nat} (h : Opened n vmms S v src s s' d) : Books v [] s' := by
  have hstart : descPage s' v = d := by
    unfold descPage
    rw [h.mapped _ (startOf_has v), if_pos rfl]
    rfl
  have htop : top s' v = startOf v.isUser + pageSize := by
    unfold top
    rw [hstart, h.desc]
    cases v.isUser <;> decide
  refine ⟨fun a ha => ?_, ?_, htop.ge, ?_, fun r hr => absurd hr List.not_mem_nil, .nil⟩
  · rw [h.mapped a ha]
    split
    · rename_i heq
      exact ⟨fun _ => .inl heq, fun _ => rfl⟩
    · rename_i hne
      refine ⟨fun hf => absurd hf (by simp), ?_⟩
      rintro (heq | ⟨r, hr, -⟩)
      · exact absurd heq hne
      · exact absurd hr List.not_mem_nil
  · rw [htop]
    cases v.isUser <;> decide
  · rw [htop]
    cases v.isUser <;> decide

theorem Kept.opened {src : Nat} (h : Kept vmms S lives s) (hp : FreshFor s pages)
    (hcur : CurrentIn vmms s) (hflag : v.flag.toNat < pageSize)
    (ho : Opened 4 vmms S v src (s.give pages) s' d) :
    Kept (vmms ++ [v]) (insert v.page S) (Function.update lives v.page []) s' := by
  have hcore : Core 4 vmms S (s.give pages) := h.give hp
  have hnew : v.page ∈ pages := ho.page.1
  have hpageTaken : v.page ∉ s.taken := (hp.fresh _ hnew).2.2
  have hne : ∀ v' ∈ vmms, v'.page ≠ v.page := fun v' hv' heq =>
    hpageTaken (heq ▸ h.page_taken (h.page v' hv'))
  -- the old spaces are frame: the creation writes pages of its own only
  have hold : ∀ k π, Used 4 vmms S k π → pageAt s'.mem (rootOf k) π = pageAt s.mem (rootOf k) π :=
    fun k π hπ => hcore.pageAt_frame ho.frame (used_closed.inner hπ)
  have htaken : ∀ x, x ∈ s.taken → x ∈ s'.taken := fun x hx => (ho.takes x).mpr (.inl hx)
  have hgiven : ∀ x, x ∈ pages → x ∉ s'.supply → x ∈ s'.taken := fun x hx hx' =>
    (ho.takes x).mpr (.inr ⟨hx, hx'⟩)
  refine ⟨?_, ?_, ?_, ?_, ?_, ?_, ?_, ?_, ?_, ?_⟩
  · exact ⟨ho.core.apart, ho.core.closed, ho.core.sub, List.nodup_nil,
      fun _ hx => absurd hx List.not_mem_nil⟩
  · -- taken: what a space uses
    intro k π x hπ hx
    cases k with
    | page y =>
        obtain ⟨hy, rfl⟩ := hπ
        obtain rfl := Option.some.inj hx
        rcases hy with rfl | hy
        · exact hgiven _ ho.page.1 ho.page.2
        · exact htaken _ (h.page_taken hy)
    | space v' =>
        rcases List.mem_append.mp hπ.1 with hv' | hv'
        · have hused : Used 4 vmms S (.space v') π := ⟨hv', hπ.2⟩
          exact htaken x (h.taken _ π x hused ((hold _ π hused).symm.trans hx))
        · obtain rfl := List.mem_singleton.mp hv'
          obtain ⟨hin, hout⟩ := ho.reach π x hπ hx
          exact hgiven x hin hout
  · -- no table page is page 0
    intro v' π x hπ hx
    rcases List.mem_append.mp hπ.1 with hv' | hv'
    · have hused : Used 4 vmms S (.space v') π := ⟨hv', hπ.2⟩
      exact h.nonzero v' π x hused ((hold _ π hused).symm.trans hx)
    · obtain rfl := List.mem_singleton.mp hv'
      exact (hp.fresh x (ho.reach π x hπ hx).1).1
  · intro v' hv'
    rcases List.mem_append.mp hv' with hv' | hv'
    · exact Set.mem_insert_of_mem _ (h.page v' hv')
    · rw [List.mem_singleton.mp hv']
      exact Set.mem_insert _ _
  · intro v' hv'
    rcases List.mem_append.mp hv' with hv' | hv'
    · exact h.notNull v' hv'
    · rw [List.mem_singleton.mp hv']
      exact (hp.fresh _ hnew).1
  · -- distinct descriptors: the new one lies in a page that was free
    intro v₁ hv₁ v₂ hv₂ heq
    rcases List.mem_append.mp hv₁ with hv₁ | hv₁ <;> rcases List.mem_append.mp hv₂ with hv₂ | hv₂
    · exact h.distinct v₁ hv₁ v₂ hv₂ heq
    · rw [List.mem_singleton.mp hv₂] at heq
      exact absurd heq (hne v₁ hv₁)
    · rw [List.mem_singleton.mp hv₁] at heq
      exact absurd heq.symm (hne v₂ hv₂)
    · rw [List.mem_singleton.mp hv₁, List.mem_singleton.mp hv₂]
  · -- the words of the descriptors
    intro v' hv'
    rcases List.mem_append.mp hv' with hv' | hv'
    · have hmem : s'.mem v'.page = s.mem v'.page :=
        ho.frame _ (h.not_given (k := .page v'.page) hp ⟨h.page v' hv', rfl⟩ rfl)
      exact (h.words v' hv').congr (fun i _ => by rw [hmem]) (by unfold isUserOf; rw [hmem])
    · rw [List.mem_singleton.mp hv']
      exact ho.words
  · intro v' hv'
    rcases List.mem_append.mp hv' with hv' | hv'
    · exact h.bits v' hv'
    · rw [List.mem_singleton.mp hv']
      exact ⟨hflag, (hp.fresh _ ho.pml4).2.1⟩
  · -- the books: the new space begins with no record at all
    intro v' hv'
    rcases List.mem_append.mp hv' with hv' | hv'
    · rw [Function.update_of_ne (hne v' hv')]
      refine (h.books v' hv').congr rfl (fun a ha => hold (.space v') _ (used_indices hv' ha)) ?_
      exact congrFun (ho.frame _ (h.not_given (k := .space v') hp
        (used_indices hv' (startOf_has v')) (h.books v' hv').desc)) 0
    · rw [List.mem_singleton.mp hv', Function.update_self]
      exact ho.books
  · -- the space that CR3 points to is an old one
    intro v' hv' hpage
    rw [ho.globals.current] at hpage
    rw [ho.globals.cr3]
    rcases List.mem_append.mp hv' with hv' | hv'
    · exact h.cr3 v' hv' hpage
    · rw [List.mem_singleton.mp hv'] at hpage
      exact absurd (hpage ▸ hnew) (h.current_not_given hp hcur)

end Paging

end Os003
