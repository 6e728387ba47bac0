import Os003.Lib.Forest
import Os003.Kernel.Thread
import Mathlib.Data.Finset.Insert

set_option autoImplicit false

/-! # Page tables

The page tables of `mm/paging.c` in physical memory, with the walk that makes missing tables on its way,
`map_page`, `unmap_page` and `virt_to_phys`.

Memory is pages of 512 words, which are reached by their number, as the kernel maps physical memory one to
one. The pages that the next calls of `Pmm_Malloc(1)` give are a list, and 0 is none; which pages may stand
there is what the allocator promises, and is said where it is needed.

The table that a slot leads to depends on the level, since bit 7 says something else in a leaf table
(`next`). A walk that makes tables is described once (`mapPage_induct`): it descends or attaches an empty
table at each of the upper levels, and ends at a slot of a leaf table.
-/

namespace Os003

/-- `uint64_t`, and `pte_t`. -/
abbrev Word := BitVec 64

namespace Paging

def ptePresent : Word := 0x1
def pteWritable : Word := 0x2
def pteUser : Word := 0x4
def pteAccessed : Word := 0x20
def pteHuge : Word := 0x80

/-- `PAGE_MASK`. -/
def pageMask : Word := ~~~0xFFF#64

def present (e : Word) : Bool := e &&& ptePresent != 0

def huge (e : Word) : Bool := e &&& pteHuge != 0

def user (e : Word) : Bool := e &&& pteUser != 0

/-- The address of a page. -/
def addr (p : Nat) : Word := BitVec.ofNat 64 (p * pageSize)

/-- The page at `entry & PAGE_MASK`. -/
def tableOf (e : Word) : Nat := (e &&& pageMask).toNat / pageSize

/-- `PML4_INDEX`. -/
def pml4Index (v : Nat) : Nat := v / 2 ^ 39 % 512

/-- `PDPT_INDEX`. -/
def pdptIndex (v : Nat) : Nat := v / 2 ^ 30 % 512

/-- `PD_INDEX`. -/
def pdIndex (v : Nat) : Nat := v / 2 ^ 21 % 512

/-- `PT_INDEX`. -/
def ptIndex (v : Nat) : Nat := v / 2 ^ 12 % 512

/-- `indices` of `walk_page_table`. -/
def indices (v : Nat) : List Nat := [pml4Index v, pdptIndex v, pdIndex v, ptIndex v]

/-- Memory by pages and words. -/
abbrev Mem := Nat → Nat → Word

structure State where
  mem : Mem
  /-- The page of the PML4 in CR3. -/
  cr3 : Nat
  /-- The pages that `Pmm_Malloc(1)` gives next. -/
  supply : List Nat
  /-- The pages given and not given back. -/
  taken : Finset Nat
  /-- A call of `Pmm_Malloc(1)` has found no page. -/
  failed : Bool
  /-- The page of `*Current_VMM_Desc`; 0 is `NULL`. -/
  current : Nat
  /-- The page of `UEFI_PML4`. -/
  uefiPml4 : Nat

namespace State

def write (s : State) (t i : Nat) (w : Word) : State :=
  { s with mem := Function.update s.mem t (Function.update (s.mem t) i w) }

/-- `memset(addr, 0, PAGE_SIZE)`. -/
def clear (s : State) (p : Nat) : State := { s with mem := Function.update s.mem p fun _ => 0 }

/-- `Pmm_Malloc(1)`. -/
def pmmMalloc (s : State) : Nat × State :=
  match s.supply with
  | [] => (0, { s with failed := true })
  | p :: ps => (p, { s with supply := ps, taken := insert p s.taken })

/-- `Pmm_Free(addr, 1)`. -/
def pmmFree (s : State) (a : Word) : State :=
  { s with taken := s.taken.erase (a.toNat / pageSize) }

/-- `malloc_page`. -/
def mallocPage (s : State) : Nat × State := (s.pmmMalloc.1, s.pmmMalloc.2.clear s.pmmMalloc.1)

end State

/-! ## The walk -/

/-- The entry of a table that was made on the way. -/
def link (p : Nat) : Word := addr p ||| ptePresent ||| pteWritable ||| pteUser

/-- A new table for an entry, which is read again; nothing when there is no page. -/
def newTable (t i : Nat) (s : State) : Option Word × State :=
  if s.mallocPage.1 = 0 then (none, s.mallocPage.2)
  else
    let s := s.mallocPage.2.write t i (link s.mallocPage.1)
    (some (s.mem t i), s)

/-- The body of the loop of `walk_page_table`: the entry to go on with, `inner` when the level is
below 3. -/
def visit (create inner : Bool) (t i : Nat) (s : State) : Option Word × State :=
  let r :=
    if present (s.mem t i) then (some (s.mem t i), s)
    else if create then newTable t i s
    else (none, s)
  match r with
  | (none, s) => (none, s)
  | (some entry, s) =>
      -- a huge page is not split: an empty table takes its place
      if inner && huge entry then
        if create then newTable t i s else (none, s)
      else (some entry, s)

/-- The loop of `walk_page_table` from the table `t` on, over the indices that are left; the slot it ends
with. -/
def walk (create : Bool) : Nat → List Nat → State → Option (Nat × Nat) × State
  | _, [], s => (none, s)
  | t, i :: rest, s =>
      match visit create (!rest.isEmpty) t i s with
      | (none, s) => (none, s)
      | (some entry, s) =>
          if rest.isEmpty then (some (t, i), s) else walk create (tableOf entry) rest s

def walkPageTable (create : Bool) (pml4 v : Nat) (s : State) : Option (Nat × Nat) × State :=
  walk create pml4 (indices v) s

def unmapPage (v : Nat) (s : State) : State :=
  match walkPageTable false s.cr3 v s with
  | (none, s) => s
  | (some (t, i), s) => if present (s.mem t i) then s.write t i 0 else s

def mapPage (v : Nat) (phys flags : Word) (s : State) : State :=
  match walkPageTable true s.cr3 v s with
  | (none, s) => s
  | (some (t, i), s) => s.write t i (phys ||| flags ||| ptePresent)

/-- `virt_to_phys_on`. -/
def virtToPhysOn (mem : Mem) (pml4 v : Nat) : Word :=
  let pml4e := mem pml4 (pml4Index v)
  if !present pml4e then 0
  else if huge pml4e then (pml4e &&& pageMask) + BitVec.ofNat 64 (v % 2 ^ 39)
  else
    let pdpte := mem (tableOf pml4e) (pdptIndex v)
    if !present pdpte then 0
    else if huge pdpte then (pdpte &&& pageMask) + BitVec.ofNat 64 (v % 2 ^ 30)
    else
      let pde := mem (tableOf pdpte) (pdIndex v)
      if !present pde then 0
      else if huge pde then (pde &&& pageMask) + BitVec.ofNat 64 (v % 2 ^ 21)
      else
        let pte := mem (tableOf pde) (ptIndex v)
        if !present pte then 0
        else (pte &&& pageMask) + BitVec.ofNat 64 (v % 2 ^ 12)

/-- `virt_to_phys`. -/
def State.virtToPhys (s : State) (v : Nat) : Word := virtToPhysOn s.mem s.cr3 v

/-! ## Words -/

theorem pageMask_bit : ∀ i : Fin 64, pageMask[i] = decide (12 ≤ i.val) := by decide

theorem and_pageMask (e : Word) : e &&& pageMask = e >>> 12 <<< 12 := by
  ext i hi
  have h : pageMask[i] = decide (12 ≤ i) := pageMask_bit ⟨i, hi⟩
  rw [BitVec.getElem_and, h]
  by_cases hi12 : 12 ≤ i
  · simp [hi12, Nat.not_lt.mpr hi12, BitVec.getLsbD_eq_getElem hi]
  · simp [hi12, Nat.lt_of_not_le hi12]

theorem toNat_and_pageMask (e : Word) : (e &&& pageMask).toNat = e.toNat / pageSize * pageSize := by
  rw [and_pageMask, BitVec.toNat_shiftLeft, BitVec.toNat_ushiftRight, Nat.shiftLeft_eq,
    Nat.shiftRight_eq_div_pow]
  have := e.isLt
  unfold pageSize
  omega

theorem tableOf_eq (e : Word) : tableOf e = e.toNat / pageSize := by
  unfold tableOf
  rw [toNat_and_pageMask, Nat.mul_div_cancel _ (by decide)]

theorem bit_eq (e : Word) (i : Nat) (hi : i < 64) :
    (e &&& BitVec.twoPow 64 i != 0) = e.getLsbD i := by
  rw [BitVec.and_twoPow]
  cases h : e.getLsbD i with
  | false => simp
  | true =>
      have hne : BitVec.twoPow 64 i ≠ 0#64 := by
        intro h0
        have := congrArg (fun w => w.getLsbD i) h0
        simp [hi] at this
      simpa using hne

theorem present_eq (e : Word) : present e = e.getLsbD 0 := bit_eq e 0 (by decide)

theorem huge_eq (e : Word) : huge e = e.getLsbD 7 := bit_eq e 7 (by decide)

@[simp] theorem present_zero : present 0 = false := rfl

@[simp] theorem present_mapped (e f : Word) : present (e ||| f ||| ptePresent) = true := by
  rw [present_eq, BitVec.getLsbD_or]
  simp [ptePresent]

theorem addr_toNat {p : Nat} (hp : p < 2 ^ 52) : (addr p).toNat = p * pageSize := by
  unfold addr
  rw [BitVec.toNat_ofNat, Nat.mod_eq_of_lt]
  unfold pageSize
  omega

/-- The flags stand below the address of a page. -/
theorem addr_or_toNat {p : Nat} (hp : p < 2 ^ 52) {f : Word} (hf : f.toNat < pageSize) :
    (addr p ||| f).toNat = p * pageSize + f.toNat := by
  rw [BitVec.toNat_or, addr_toNat hp, Nat.mul_comm]
  exact (Nat.two_pow_add_eq_or_of_lt (i := 12) hf p).symm

theorem tableOf_addr_or {p : Nat} (hp : p < 2 ^ 52) {f : Word} (hf : f.toNat < pageSize) :
    tableOf (addr p ||| f) = p := by
  rw [tableOf_eq, addr_or_toNat hp hf]
  unfold pageSize at *
  omega

theorem addr_bit (p : Nat) {j : Nat} (hj : j < 12) : (addr p).getLsbD j = false := by
  unfold addr
  rw [BitVec.getLsbD_ofNat, Nat.mul_comm, show pageSize = 2 ^ 12 from rfl, Nat.testBit_two_pow_mul]
  simp [Nat.not_le.mpr hj]

theorem link_eq (p : Nat) : link p = addr p ||| 0x7#64 := by
  unfold link
  rw [BitVec.or_assoc, BitVec.or_assoc]
  rfl

@[simp] theorem present_link (p : Nat) : present (link p) = true := by
  rw [link_eq, present_eq, BitVec.getLsbD_or, addr_bit p (by decide)]
  rfl

@[simp] theorem huge_link (p : Nat) : huge (link p) = false := by
  rw [link_eq, huge_eq, BitVec.getLsbD_or, addr_bit p (by decide)]
  rfl

@[simp] theorem tableOf_link {p : Nat} (hp : p < 2 ^ 52) : tableOf (link p) = p := by
  rw [link_eq]
  exact tableOf_addr_or hp (by decide)

/-! ## The tables as trees -/

/-- The table that a slot leads to: a huge page has none, but a leaf entry may have that bit. -/
def next (mem : Mem) : Forest.Edges Nat Nat := fun l t i =>
  if present (mem t i) && !(decide (l < 3) && huge (mem t i)) then some (tableOf (mem t i)) else none

/-- The page at the end of a path through the tables: with three indices or less a table, with four a page
that is mapped. -/
abbrev pageAt (mem : Mem) (root : Nat) (π : List Nat) : Option Nat :=
  Forest.follow (next mem) 0 root π

variable {s s' : State} {t t' i j l p v c : Nat} {ps : List Nat} {w e : Word} {mem mem' : Mem}

theorem next_congr (h : mem' t i = mem t i) : next mem' l t i = next mem l t i := by
  unfold next
  rw [h]

theorem next_eq_some : next mem l t i = some c ↔
    present (mem t i) = true ∧ ¬ (l < 3 ∧ huge (mem t i) = true) ∧ tableOf (mem t i) = c := by
  unfold next
  split
  · rename_i h
    simp at h
    grind
  · rename_i h
    simp at h
    grind

theorem next_eq_none : next mem l t i = none ↔
    present (mem t i) = false ∨ l < 3 ∧ huge (mem t i) = true := by
  unfold next
  split
  · rename_i h
    simp at h
    grind
  · rename_i h
    simp at h
    grind

theorem next_of_zero (h : mem t i = 0) : next mem l t i = none := by
  rw [next_eq_none, h]
  exact .inl rfl

namespace State

@[simp] theorem write_supply : (s.write t i w).supply = s.supply := rfl
@[simp] theorem write_taken : (s.write t i w).taken = s.taken := rfl
@[simp] theorem write_cr3 : (s.write t i w).cr3 = s.cr3 := rfl

@[simp] theorem write_here : (s.write t i w).mem t i = w := by
  simp [write]

theorem write_other (h : t' ≠ t ∨ j ≠ i) : (s.write t i w).mem t' j = s.mem t' j := by
  unfold write
  by_cases ht : t' = t
  · subst ht
    have hj : j ≠ i := h.resolve_left (not_not_intro rfl)
    simp [hj]
  · simp [ht]

theorem write_page (h : t' ≠ t) : (s.write t i w).mem t' = s.mem t' := by
  simp [write, h]

theorem write_write (w' : Word) : (s.write t i w').write t i w = s.write t i w := by
  simp [write]

/-- What stays when tables are made: CR3 and the globals. -/
structure SameGlobals (s s' : State) : Prop where
  cr3 : s'.cr3 = s.cr3
  current : s'.current = s.current
  uefiPml4 : s'.uefiPml4 = s.uefiPml4

theorem SameGlobals.trans {s s' s'' : State} (h : SameGlobals s s') (h' : SameGlobals s' s'') :
    SameGlobals s s'' :=
  ⟨h'.cr3.trans h.cr3, h'.current.trans h.current, h'.uefiPml4.trans h.uefiPml4⟩

theorem sameGlobals_mallocPage (s : State) : SameGlobals s s.mallocPage.2 := by
  unfold mallocPage pmmMalloc
  cases s.supply <;> exact ⟨rfl, rfl, rfl⟩

/-- A slot is led to an empty table on a new page. -/
def attach (s : State) (t i : Nat) : State := s.mallocPage.2.write t i (link s.mallocPage.1)

theorem sameGlobals_attach (s : State) (t i : Nat) : SameGlobals s (s.attach t i) :=
  s.sameGlobals_mallocPage.trans ⟨rfl, rfl, rfl⟩

theorem mallocPage_cons (h : s.supply = p :: ps) : s.mallocPage =
    (p, { s with
      supply := ps
      taken := insert p s.taken
      mem := Function.update s.mem p fun _ => 0 }) := by
  unfold mallocPage pmmMalloc
  rw [h]
  rfl

end State

theorem newTable_cons (h : s.supply = p :: ps) (hp : p ≠ 0) :
    newTable t i s = (some (link p), s.attach t i) := by
  unfold newTable State.attach
  rw [State.mallocPage_cons h, if_neg hp]
  simp

theorem visit_next {create : Bool} (h : next s.mem l t i = some c) :
    visit create (decide (l < 3)) t i s = (some (s.mem t i), s) := by
  obtain ⟨hp, hh, -⟩ := next_eq_some.mp h
  unfold visit
  rw [if_pos hp]
  dsimp only
  rw [if_neg]
  simpa using hh

theorem visit_missing (h : next s.mem l t i = none) (hs : s.supply = p :: ps) (hp : p ≠ 0) :
    visit true (decide (l < 3)) t i s = (some (link p), s.attach t i) := by
  unfold visit
  by_cases hpres : present (s.mem t i) = true
  · have hh := (next_eq_none.mp h).resolve_left (by simp [hpres])
    rw [if_pos hpres]
    simp [hh.1, hh.2, newTable_cons hs hp]
  · rw [if_neg hpres, if_pos rfl, newTable_cons hs hp]
    simp

theorem State.mallocPage_nil (h : s.supply = []) : s.mallocPage =
    (0, { s with
      failed := true
      mem := Function.update s.mem 0 fun _ => 0 }) := by
  unfold State.mallocPage State.pmmMalloc
  rw [h]
  rfl

theorem newTable_nil (h : s.supply = []) : newTable t i s = (none, s.mallocPage.2) := by
  unfold newTable
  rw [State.mallocPage_nil h, if_pos rfl]

/-- A walk that finds no page for a table ends. -/
theorem visit_stuck (h : next s.mem l t i = none) (hs : s.supply = []) :
    visit true (decide (l < 3)) t i s = (none, s.mallocPage.2) := by
  unfold visit
  by_cases hpres : present (s.mem t i) = true
  · have hh := (next_eq_none.mp h).resolve_left (by simp [hpres])
    rw [if_pos hpres]
    simp [hh.1, hh.2, newTable_nil hs]
  · rw [if_neg hpres, if_pos rfl, newTable_nil hs]

theorem visit_none (h : next s.mem l t i = none) :
    visit false (decide (l < 3)) t i s = (none, s) := by
  unfold visit
  by_cases hpres : present (s.mem t i) = true
  · have hh := (next_eq_none.mp h).resolve_left (by simp [hpres])
    simp [hpres, hh.1, hh.2]
  · simp [hpres]

/-- What a walk that makes tables meets on its way: `J l t s` says that it has come to the table `t` of
level `l`, and holds again after it has gone down or attached a table. -/
structure Descends (J : Nat → Nat → State → Prop) (is : List Nat) : Prop where
  descend : ∀ l t i c s, l < 3 → is[l]? = some i → J l t s → next s.mem l t i = some c →
    J (l + 1) c s
  attach : ∀ l t i p ps s, l < 3 → is[l]? = some i → J l t s → next s.mem l t i = none →
    s.supply = p :: ps → J (l + 1) p (s.attach t i)
  page : ∀ l t s, J l t s → ∀ p ∈ s.supply, p ≠ 0 ∧ p < 2 ^ 52

theorem attach_supply (h : s.supply = p :: ps) : (s.attach t i).supply = ps := by
  unfold State.attach
  rw [State.write_supply, State.mallocPage_cons h]

/-- A walk has come to a slot that leads nowhere, and there is no page for it. -/
structure Stuck (J : Nat → Nat → State → Prop) (is : List Nat) (l t i : Nat) (s : State) : Prop where
  level : l ≤ 3
  index : is[l]? = some i
  reached : J l t s
  missing : next s.mem l t i = none
  supply : s.supply = []

/-- The walk ends at a slot of a leaf table, and takes one more page when the slot is empty; or it gets
stuck. -/
theorem walk_cases {J : Nat → Nat → State → Prop} {is rest : List Nat} (hJ : Descends J is)
    (hlen : is.length = 4) (hrest : rest = is.drop l) (hl : l < 4) (h : J l t s) :
    (∃ t' s' i, is[3]? = some i ∧ J 3 t' s' ∧
      (walk true t rest s = (some (t', i), s') ∧ next s'.mem 3 t' i ≠ none ∨
        walk true t rest s = (some (t', i), s'.attach t' i) ∧ next s'.mem 3 t' i = none ∧
          s'.supply ≠ [])) ∨
      ∃ l' t' i s', Stuck J is l' t' i s' ∧ walk true t rest s = (none, s'.mallocPage.2) := by
  -- by the levels still to go; `J` is kept by a step down and by the table that is put in
  induction rest generalizing l t s with
  | nil =>
      have := congrArg List.length hrest
      simp [hlen] at this
      omega
  | cons i rest ih =>
      have hi : is[l]? = some i := by
        rw [← List.head?_drop, ← hrest]
        rfl
      have hrest' : rest = is.drop (l + 1) := by
        rw [← List.tail_drop, ← hrest]
        rfl
      have hlast : rest.isEmpty = decide (¬ l < 3) := by
        have hlength := congrArg List.length hrest'
        rw [List.length_drop, hlen] at hlength
        cases rest with
        | nil =>
            have : ¬ l < 3 := by simp at hlength; omega
            simp [this]
        | cons _ _ =>
            have : l < 3 := by simp at hlength; omega
            simp [this]
      have hvisit : (!rest.isEmpty) = decide (l < 3) := by rw [hlast, decide_not, Bool.not_not]
      rw [walk, hvisit, hlast]
      cases hn : next s.mem l t i with
      | some c =>
          rw [visit_next hn]
          by_cases hl3 : l < 3
          · simp only [hl3, not_true, decide_false, Bool.false_eq_true, if_false]
            rw [(next_eq_some.mp hn).2.2]
            exact ih hrest' (by omega) (hJ.descend l t i c s hl3 hi h hn)
          · obtain rfl : l = 3 := by omega
            exact .inl ⟨t, s, i, hi, h, .inl ⟨rfl, by simp [hn]⟩⟩
      -- a missing table: there is no page for it, or it is put in empty
      | none =>
          cases hps : s.supply with
          | nil =>
              rw [visit_stuck hn hps]
              exact .inr ⟨l, t, i, s, ⟨by omega, hi, h, hn, hps⟩, rfl⟩
          | cons p ps =>
              obtain ⟨hp, hp52⟩ := hJ.page l t s h p (by rw [hps]; exact List.mem_cons_self)
              rw [visit_missing hn hps hp]
              by_cases hl3 : l < 3
              · simp only [hl3, not_true, decide_false, Bool.false_eq_true, if_false]
                rw [tableOf_link hp52]
                exact ih hrest' (by omega) (hJ.attach l t i p ps s hl3 hi h hn hps)
              · obtain rfl : l = 3 := by omega
                exact .inl ⟨t, s, i, hi, h, .inr ⟨rfl, hn, by simp [hps]⟩⟩

theorem walk_create {J : Nat → Nat → State → Prop} {is rest : List Nat} (hJ : Descends J is)
    (hlen : is.length = 4) (hrest : rest = is.drop l) (hl : l < 4) (h : J l t s)
    (hok : (walk true t rest s).2.failed = false) :
    ∃ t' s' i, is[3]? = some i ∧ J 3 t' s' ∧
      (walk true t rest s = (some (t', i), s') ∨
        walk true t rest s = (some (t', i), s'.attach t' i) ∧ next s'.mem 3 t' i = none ∧
          s'.supply ≠ []) := by
  rcases walk_cases hJ hlen hrest hl h with ⟨t', s', i, hi, hj, hwalk⟩ | ⟨l', t', i, s', hstuck, hwalk⟩
  · exact ⟨t', s', i, hi, hj, hwalk.imp_left And.left⟩
  · -- a walk that is stuck has failed
    rw [hwalk, State.mallocPage_nil hstuck.supply] at hok
    cases hok

/-- `map_page` writes one slot of a leaf table, after a walk that descends and attaches. The page that the
walk takes for an empty slot is not used: the slot is written over. -/
theorem mapPage_walks {J : Nat → Nat → State → Prop} {flags : Word} (hJ : Descends J (indices v))
    (hleak : ∀ t p ps s, J 3 t s → s.supply = p :: ps → J 3 t s.mallocPage.2)
    (h : J 0 s.cr3 s) (hok : (mapPage v w flags s).failed = false) :
    ∃ t' s', J 3 t' s' ∧
      mapPage v w flags s = s'.write t' (ptIndex v) (w ||| flags ||| ptePresent) := by
  have hwalk : (walk true s.cr3 (indices v) s).2.failed = false := by
    unfold mapPage walkPageTable at hok
    cases hw : walk true s.cr3 (indices v) s with
    | mk e s' =>
        rw [hw] at hok
        cases e <;> exact hok
  obtain ⟨t', s', i, hi, hJ', hwalk⟩ :=
    walk_create hJ rfl (show indices v = (indices v).drop 0 from rfl) (by decide) h hwalk
  obtain rfl : ptIndex v = i := Option.some.inj hi
  unfold mapPage walkPageTable
  rcases hwalk with hwalk | ⟨hwalk, -, hne⟩
  · rw [hwalk]
    exact ⟨t', s', hJ', rfl⟩
  · rw [hwalk]
    obtain ⟨p, ps, hps⟩ := List.exists_cons_of_ne_nil hne
    exact ⟨t', s'.mallocPage.2, hleak t' p ps s' hJ' hps, State.write_write _⟩

theorem walk_inner {rest : List Nat} (hl : l < 3) (hrest : rest ≠ []) :
    walk false t (i :: rest) s =
      match next s.mem l t i with
      | some c => walk false c rest s
      | none => (none, s) := by
  have hempty : rest.isEmpty = false := by simpa using hrest
  have hlevel : (!rest.isEmpty) = decide (l < 3) := by simp [hempty, hl]
  rw [walk, hlevel, hempty]
  cases hn : next s.mem l t i with
  | some c =>
      rw [visit_next hn, (next_eq_some.mp hn).2.2.symm]
      rfl
  | none => rw [visit_none hn]

theorem walk_leaf : walk false t [i] s = (if present (s.mem t i) then some (t, i) else none, s) := by
  rw [walk, show (!([] : List Nat).isEmpty) = decide (3 < 3) from rfl]
  cases hn : next s.mem 3 t i with
  | some c =>
      rw [visit_next hn, if_pos (next_eq_some.mp hn).1]
      rfl
  | none =>
      rw [visit_none hn, if_neg]
      simpa using (next_eq_none.mp hn).resolve_right (by simp)

/-- The tables down to a leaf table. -/
def upper (v : Nat) : List Nat := [pml4Index v, pdptIndex v, pdIndex v]

theorem indices_eq (v : Nat) : indices v = upper v ++ [ptIndex v] := rfl

/-- `unmap_page` clears the slot of the leaf table, if the walk gets there. -/
theorem unmapPage_eq (v : Nat) (s : State) : unmapPage v s =
    match pageAt s.mem s.cr3 (upper v) with
    | some t => if present (s.mem t (ptIndex v)) then s.write t (ptIndex v) 0 else s
    | none => s := by
  unfold unmapPage walkPageTable indices pageAt upper
  rw [walk_inner (l := 0) (by decide) (by simp), Forest.follow_cons]
  cases next s.mem 0 s.cr3 (pml4Index v) with
  | none => rfl
  | some t =>
      dsimp only [Option.bind_some]
      rw [walk_inner (l := 1) (by decide) (by simp), Forest.follow_cons]
      cases next s.mem 1 t (pdptIndex v) with
      | none => rfl
      | some t =>
          dsimp only [Option.bind_some]
          rw [walk_inner (l := 2) (by decide) (by simp), Forest.follow_cons]
          cases next s.mem 2 t (pdIndex v) with
          | none => rfl
          | some t =>
              dsimp only [Option.bind_some]
              rw [walk_leaf, Forest.follow_nil]
              by_cases h : present (s.mem t (ptIndex v)) = true
              · simp [h]
              · simp [h]

/-! ## Indices -/

/-- Bits 47 to 63 are equal. -/
def Canonical (v : Nat) : Prop := v < 2 ^ 47 ∨ 2 ^ 64 - 2 ^ 47 ≤ v ∧ v < 2 ^ 64

/-- A path of tables: at most `n` indices, each of a slot that a table has. -/
def Within (n : Nat) (π : List Nat) : Prop := π.length ≤ n ∧ ∀ i ∈ π, i < 512

theorem Within.initial {n : Nat} {π ρ : List Nat} (h : Within n (π ++ ρ)) : Within n π :=
  ⟨by have := h.1; rw [List.length_append] at this; omega,
    fun i hi => h.2 i (List.mem_append_left _ hi)⟩

theorem Within.mono {n m : Nat} {π : List Nat} (h : Within n π) (hm : n ≤ m) : Within m π :=
  ⟨h.1.trans hm, h.2⟩

theorem within_indices (v : Nat) : Within 4 (indices v) := by
  refine ⟨le_rfl, ?_⟩
  intro i hi
  simp only [indices, pml4Index, pdptIndex, pdIndex, ptIndex, List.mem_cons, List.not_mem_nil,
    or_false] at hi
  omega

theorem within_upper (v : Nat) : Within 3 (upper v) :=
  ⟨le_rfl, fun i hi => (within_indices v).2 i (by rw [indices_eq]; exact List.mem_append_left _ hi)⟩

/-- The indices say which page an address is in, apart from the bits above them. -/
theorem page_of_indices (v : Nat) : v / pageSize % 2 ^ 36 =
    ((pml4Index v * 512 + pdptIndex v) * 512 + pdIndex v) * 512 + ptIndex v := by
  unfold pml4Index pdptIndex pdIndex ptIndex pageSize
  omega

theorem indices_congr {v v' : Nat} (h : v / pageSize = v' / pageSize) : indices v = indices v' := by
  unfold pageSize at h
  unfold indices pml4Index pdptIndex pdIndex ptIndex
  simp only [List.cons.injEq, and_true]
  omega

/-- Canonical addresses in different pages have different indices. -/
theorem indices_inj {v v' : Nat} (hv : Canonical v) (hv' : Canonical v')
    (h : indices v = indices v') : v / pageSize = v' / pageSize := by
  have hpage := page_of_indices v
  have hpage' := page_of_indices v'
  simp only [indices, List.cons.injEq, and_true] at h
  obtain ⟨h1, h2, h3, h4⟩ := h
  rw [h1, h2, h3, h4, ← hpage'] at hpage
  have hhalf : pml4Index v = pml4Index v' := h1
  unfold Canonical at hv hv'
  unfold pml4Index at hhalf
  unfold pageSize at *
  omega

/-! ## Translation -/

/-- The entry by which a processor translates an address, and the size of the page, as a power of two. -/
def leafOf (mem : Mem) : Nat → Nat → List Nat → Option (Word × Nat)
  | _, _, [] => none
  | l, t, i :: rest =>
      if !present (mem t i) then none
      else if decide (3 ≤ l) || huge (mem t i) then some (mem t i, 39 - 9 * l)
      else leafOf mem (l + 1) (tableOf (mem t i)) rest

theorem virtToPhysOn_eq (mem : Mem) (pml4 v : Nat) : virtToPhysOn mem pml4 v =
    match leafOf mem 0 pml4 (indices v) with
    | none => 0
    | some (e, n) => (e &&& pageMask) + BitVec.ofNat 64 (v % 2 ^ n) := by
  unfold virtToPhysOn indices
  simp only [leafOf, Nat.reduceLeDiff, decide_false, decide_true, Bool.false_or, Bool.true_or]
  split
  · rfl
  split
  · rfl
  split
  · rfl
  split
  · rfl
  split
  · rfl
  split
  · rfl
  split <;> rfl

theorem leafOf_next {is : List Nat} (h : next mem l t i = some c) (hl : l < 3) :
    leafOf mem l t (i :: is) = leafOf mem (l + 1) c is := by
  obtain ⟨hp, hh, rfl⟩ := next_eq_some.mp h
  have hhuge : huge (mem t i) = false := by simpa [hl] using hh
  simp [leafOf, hp, hhuge, hl]

/-- The tables above a page that is mapped. -/
theorem pageAt_upper {root : Nat} (h : pageAt mem root (indices v) = some p) :
    ∃ t, pageAt mem root (upper v) = some t ∧ next mem 3 t (ptIndex v) = some p := by
  obtain ⟨t, ht, hp⟩ := Forest.follow_prefix (π := upper v) (ρ := [ptIndex v]) h
  exact ⟨t, ht, by simpa [Forest.follow_cons, upper] using hp⟩

theorem leafOf_upper {root : Nat} (h : pageAt mem root (upper v) = some t) :
    leafOf mem 0 root (indices v) = leafOf mem 3 t [ptIndex v] := by
  unfold pageAt upper at h
  simp only [Forest.follow_cons, Forest.follow_nil] at h
  obtain ⟨t₁, h₁, h⟩ := Option.bind_eq_some_iff.mp h
  obtain ⟨t₂, h₂, h⟩ := Option.bind_eq_some_iff.mp h
  obtain ⟨t₃, h₃, h⟩ := Option.bind_eq_some_iff.mp h
  obtain rfl := Option.some.inj h
  unfold indices
  rw [leafOf_next h₁ (by decide), leafOf_next h₂ (by decide), leafOf_next h₃ (by decide)]

theorem leafOf_leaf : leafOf mem 3 t [i] = if present (mem t i) then some (mem t i, 12) else none := by
  cases h : present (mem t i) <;> simp [leafOf, h]

/-- The entry of a page that is mapped is in a leaf table. -/
theorem leafOf_pageAt {root : Nat} (h : pageAt mem root (indices v) = some p) :
    ∃ e, leafOf mem 0 root (indices v) = some (e, 12) ∧ tableOf e = p := by
  obtain ⟨t, ht, hp⟩ := pageAt_upper h
  obtain ⟨hpres, -, htable⟩ := next_eq_some.mp hp
  refine ⟨mem t (ptIndex v), ?_, htable⟩
  rw [leafOf_upper ht, leafOf_leaf, if_pos hpres]

theorem tableOf_lt (e : Word) : tableOf e < 2 ^ 52 := by
  rw [tableOf_eq]
  have := e.isLt
  unfold pageSize
  omega

/-- An address in a page that is mapped. -/
theorem virtToPhysOn_pageAt {root : Nat} (h : pageAt mem root (indices v) = some p) :
    (virtToPhysOn mem root v).toNat = p * pageSize + v % pageSize := by
  obtain ⟨e, he, rfl⟩ := leafOf_pageAt h
  have hlt := tableOf_lt e
  have hmod := Nat.mod_lt v (show 0 < pageSize by decide)
  rw [virtToPhysOn_eq, he]
  dsimp only
  rw [BitVec.toNat_add, toNat_and_pageMask, ← tableOf_eq, BitVec.toNat_ofNat]
  unfold pageSize at *
  omega

/-- The pages that a translation reads: what else memory holds does not matter. -/
theorem leafOf_congr {is : List Nat} (hl : l ≤ 3) (h : ∀ σ i ρ x, is = σ ++ i :: ρ → l + σ.length ≤ 3 →
    Forest.follow (next mem) l t σ = some x → mem' x i = mem x i) :
    leafOf mem' l t is = leafOf mem l t is := by
  induction is generalizing l t with
  | nil => rfl
  | cons i is ih =>
      have hi : mem' t i = mem t i := h [] i is t rfl hl rfl
      unfold leafOf
      rw [hi]
      split
      · rfl
      next hp =>
        split
        · rfl
        next hh =>
          have hlt : l < 3 := by simp at hh; omega
          have hn : next mem l t i = some (tableOf (mem t i)) := by
            rw [next_eq_some]
            simp at hp hh
            exact ⟨hp, by simp [hh.2], rfl⟩
          refine ih hlt fun σ j ρ x his hlen hx => h (i :: σ) j ρ x (by rw [his]; rfl) ?_ ?_
          · rw [List.length_cons]
            omega
          · rw [Forest.follow_cons, hn]
            exact hx

/-- From a table on the way on. -/
theorem leafOf_follow {σ ρ : List Nat} (h : Forest.follow (next mem) l t σ = some c)
    (hl : l + σ.length ≤ 3) : leafOf mem l t (σ ++ ρ) = leafOf mem (l + σ.length) c ρ := by
  induction σ generalizing l t with
  | nil =>
      obtain rfl := Option.some.inj h
      rfl
  | cons i σ ih =>
      rw [List.length_cons] at hl
      rw [Forest.follow_cons] at h
      obtain ⟨d, hd, h⟩ := Option.bind_eq_some_iff.mp h
      rw [List.cons_append, leafOf_next hd (by omega), ih h (by omega), List.length_cons]
      congr 1
      omega

/-- Where entries have only become absent, what is translated still was translated so before. -/
theorem leafOf_fades {is : List Nat} {r : Word × Nat} (hl : l ≤ 3)
    (h : ∀ σ i ρ x, is = σ ++ i :: ρ → l + σ.length ≤ 3 → Forest.follow (next mem) l t σ = some x →
      mem' x i = mem x i ∨ present (mem' x i) = false)
    (hr : leafOf mem' l t is = some r) : leafOf mem l t is = some r := by
  induction is generalizing l t with
  | nil => exact hr
  | cons i is ih =>
      rcases h [] i is t rfl hl rfl with hsame | habsent
      · unfold leafOf at hr ⊢
        rw [hsame] at hr
        split at hr
        · cases hr
        next hp =>
          rw [if_neg hp]
          split at hr
          next hh =>
            rw [if_pos hh]
            exact hr
          next hh =>
            have hlt : l < 3 := by simp at hh; omega
            have hn : next mem l t i = some (tableOf (mem t i)) := by
              rw [next_eq_some]
              simp at hp hh
              exact ⟨hp, by simp [hh.2], rfl⟩
            rw [if_neg hh]
            refine ih hlt (fun σ j ρ x his hlen hx => h (i :: σ) j ρ x (by rw [his]; rfl) ?_ ?_) hr
            · rw [List.length_cons]
              omega
            · rw [Forest.follow_cons, hn]
              exact hx
      · unfold leafOf at hr
        rw [habsent] at hr
        simp at hr

/-! ## Updates of the trees -/

section Trees

variable {κ : Type} {root : κ → Nat} {A B : κ → List Nat → Prop} {k k' : κ}
  {σ π : List Nat}

/-- The paths of `A` are apart from those of `B`, and the pages that are given next are on none of them. -/
structure Trees (s : State) (root : κ → Nat) (A B : κ → List Nat → Prop) : Prop where
  apart : Forest.Apart (next s.mem) root A B
  closed : Forest.PrefixClosed B
  sub : ∀ k π, A k π → B k π
  nodup : s.supply.Nodup
  fresh : ∀ p ∈ s.supply, p ≠ 0 ∧ p < 2 ^ 52 ∧ Forest.Unreached (next s.mem) root B p

theorem attach_mem (h : s.supply = p :: ps) (hx : t' ≠ p)
    (hne : t' ≠ t ∨ j ≠ i) : (s.attach t i).mem t' j = s.mem t' j := by
  unfold State.attach
  rw [State.mallocPage_cons h, State.write_other hne]
  simp [hx]

theorem attach_blank (h : s.supply = p :: ps) (ht : t ≠ p) : (s.attach t i).mem p = fun _ => 0 := by
  unfold State.attach
  rw [State.mallocPage_cons h, State.write_page ht.symm]
  simp

theorem attach_here (h : s.supply = p :: ps) : (s.attach t i).mem t i = link p := by
  unfold State.attach
  rw [State.mallocPage_cons h, State.write_here]

theorem next_link {mem : Mem} (hp : p < 2 ^ 52) (h : mem t i = link p) : next mem l t i = some p := by
  rw [next_eq_some, h]
  exact ⟨present_link p, by simp, tableOf_link hp⟩

namespace Trees

theorem ne_fresh (h : Trees s root A B) (hs : s.supply = p :: ps) (hB : B k σ)
    (hnode : pageAt s.mem (root k) σ = some t) : t ≠ p := by
  rintro rfl
  exact (h.fresh t (by simp [hs])).2.2 k σ hB hnode

/-- A page is taken and not used. -/
theorem follow_leak (h : Trees s root A B) (hs : s.supply = p :: ps) (hπ : Forest.Inner B k π) :
    pageAt s.mallocPage.2.mem (root k) π = pageAt s.mem (root k) π := by
  refine Forest.follow_congr fun τ j ρ x hτ hx => next_congr ?_
  have hxp : x ≠ p := h.ne_fresh hs (hπ τ j ρ hτ) hx
  rw [State.mallocPage_cons hs]
  simp [hxp]

theorem leak (h : Trees s root A B) (hs : s.supply = p :: ps) :
    Trees s.mallocPage.2 root A B := by
  have hfollow := fun k π (hB : B k π) => h.follow_leak hs (h.closed.inner hB)
  have hsupply : s.mallocPage.2.supply = ps := by rw [State.mallocPage_cons hs]
  have hnodup := h.nodup
  rw [hs, List.nodup_cons] at hnodup
  refine ⟨?_, h.closed, h.sub, ?_, ?_⟩
  · intro k π k' π' x hA hB hx hx'
    exact h.apart k π k' π' x hA hB ((hfollow k π (h.sub k π hA)).symm.trans hx)
      ((hfollow k' π' hB).symm.trans hx')
  · rw [hsupply]
    exact hnodup.2
  · intro q hq
    rw [hsupply] at hq
    obtain ⟨hq0, hq52, hqu⟩ := h.fresh q (by rw [hs]; exact List.mem_cons_of_mem _ hq)
    exact ⟨hq0, hq52, fun k π hB hf => hqu k π hB ((hfollow k π hB).symm.trans hf)⟩

variable [DecidableEq κ]

/-- An empty table is attached to a slot that leads nowhere: there is one path more. -/
theorem follow_attach (h : Trees s root A B) (hA : A k σ)
    (hnode : pageAt s.mem (root k) σ = some t) (hnone : next s.mem σ.length t i = none)
    (hs : s.supply = p :: ps) (hπ : Forest.Inner B k' π) :
    pageAt (s.attach t i).mem (root k') π =
      if k' = k ∧ π = σ ++ [i] then some p else pageAt s.mem (root k') π := by
  obtain ⟨hp0, hp52, hunreached⟩ := h.fresh p (by simp [hs])
  have ht := h.ne_fresh hs (h.sub k σ hA) hnode
  have hlink : ∀ l, next (s.attach t i).mem l t i = some p := fun l =>
    next_link hp52 (attach_here hs)
  have hsets : Forest.Sets (next s.mem) (next (s.attach t i).mem) root A B (· = p) k σ t i :=
    { apart := h.apart
      closed := h.closed
      mine := hA
      node := hnode
      outside := fun q hq => hq ▸ hunreached
      same := fun l x j hx hne => next_congr (attach_mem hs hx hne) }
  rw [pageAt, hsets.follow_set _ _ hπ, hlink]
  · rintro ρ hρ rfl
    have hbind := congrArg (fun o => o.bind fun c => Forest.follow (next s.mem) (0 + σ.length) c
      (i :: ρ)) hnode
    rw [Forest.follow_append]
    exact hbind.trans (by simp [Forest.follow_cons, hnone])
  · -- the new table is empty
    rintro ρ hρ rfl
    rw [hsets.follow_prefix (h.sub k σ hA), hlink, Option.bind_some]
    cases ρ with
    | nil => exact absurd rfl hρ
    | cons j ρ => rw [Forest.follow_cons, next_of_zero (by rw [attach_blank hs ht])]; rfl

theorem attach (h : Trees s root A B) (hA : A k σ)
    (hnode : pageAt s.mem (root k) σ = some t) (hnone : next s.mem σ.length t i = none)
    (hs : s.supply = p :: ps) : Trees (s.attach t i) root A B := by
  obtain ⟨hp0, hp52, hunreached⟩ := h.fresh p (by simp [hs])
  have hfollow := fun k' π (hB : B k' π) =>
    h.follow_attach hA hnode hnone hs (h.closed.inner hB)
  have hnodup := h.nodup
  rw [hs, List.nodup_cons] at hnodup
  refine ⟨?_, h.closed, h.sub, ?_, ?_⟩
  · have hlink : next (s.attach t i).mem σ.length t i = some p := next_link hp52 (attach_here hs)
    refine h.apart.set (k := k) (σ := σ) (t := t) (i := i) h.sub ?_ ?_
    · intro k' π hB
      rw [hlink]
      exact hfollow k' π hB
    · intro c hc
      obtain rfl : p = c := Option.some.inj (hlink.symm.trans hc)
      exact hunreached
  · rw [attach_supply hs]
    exact hnodup.2
  · intro q hq
    rw [attach_supply hs] at hq
    obtain ⟨hq0, hq52, hqu⟩ := h.fresh q (by rw [hs]; exact List.mem_cons_of_mem _ hq)
    refine ⟨hq0, hq52, fun k' π hB hf => ?_⟩
    have hf' : pageAt (s.attach t i).mem (root k') π = some q := hf
    rw [hfollow k' π hB] at hf'
    split at hf'
    · obtain rfl := Option.some.inj hf'
      exact hnodup.1 hq
    · exact hqu k' π hB hf'

/-- A slot of a leaf table is written. -/
theorem follow_write (h : Trees s root A B) (hA : A k σ)
    (hnode : pageAt s.mem (root k) σ = some t) (hlen : π.length ≤ σ.length + 1)
    (hπ : Forest.Inner B k' π) :
    pageAt (s.write t i w).mem (root k') π =
      if k' = k ∧ π = σ ++ [i] then next (s.write t i w).mem σ.length t i
      else pageAt s.mem (root k') π := by
  have hsets : Forest.Sets (next s.mem) (next (s.write t i w).mem) root A B (fun _ => False)
      k σ t i :=
    { apart := h.apart
      closed := h.closed
      mine := hA
      node := hnode
      outside := fun _ hf => hf.elim
      same := fun l x j _ hne => next_congr (State.write_other hne) }
  have hlast : ∀ ρ, ρ ≠ [] → π ≠ σ ++ i :: ρ := by
    rintro ρ hρ rfl
    have := List.length_pos_iff.mpr hρ
    rw [List.length_append, List.length_cons] at hlen
    omega
  exact hsets.follow_set (fun ρ hρ h => absurd h (hlast ρ hρ))
    (fun ρ hρ h => absurd h (hlast ρ hρ)) hπ

theorem write (h : Trees s root A B) (hA : A k σ)
    (hnode : pageAt s.mem (root k) σ = some t)
    (hlen : ∀ k π, B k π → π.length ≤ σ.length + 1)
    (hnew : B k (σ ++ [i]) → ∀ c, next (s.write t i w).mem σ.length t i = some c →
      c ∉ s.supply ∧ Forest.Unreached (next s.mem) root B c) :
    Trees (s.write t i w) root A B := by
  have hfollow := fun k' π (hB : B k' π) =>
    h.follow_write (i := i) (w := w) hA hnode (hlen k' π hB) (h.closed.inner hB)
  refine ⟨?_, h.closed, h.sub, h.nodup, ?_⟩
  · by_cases hB : B k (σ ++ [i])
    · exact h.apart.set h.sub (fun k' π hB => hfollow k' π hB) fun c hc => (hnew hB c hc).2
    · -- the slot leads out of the paths that are looked at
      have hsame : ∀ k' π, B k' π →
          pageAt (s.write t i w).mem (root k') π = pageAt s.mem (root k') π := by
        intro k' π hB'
        rw [hfollow k' π hB', if_neg]
        rintro ⟨rfl, rfl⟩
        exact hB hB'
      intro k₁ π₁ k₂ π₂ x h₁ h₂ hx₁ hx₂
      exact h.apart k₁ π₁ k₂ π₂ x h₁ h₂ ((hsame k₁ π₁ (h.sub k₁ π₁ h₁)).symm.trans hx₁)
        ((hsame k₂ π₂ h₂).symm.trans hx₂)
  · intro q hq
    obtain ⟨hq0, hq52, hqu⟩ := h.fresh q hq
    refine ⟨hq0, hq52, fun k' π hB hf => ?_⟩
    have hf' : pageAt (s.write t i w).mem (root k') π = some q := hf
    rw [hfollow k' π hB] at hf'
    split at hf'
    · rename_i heq
      obtain ⟨rfl, rfl⟩ := heq
      exact (hnew hB q hf').1 hq
    · exact hqu k' π hB hf'

end Trees

/-! ## The walk in the trees -/

theorem take_concat {is : List Nat} (h : is[l]? = some i) : is.take (l + 1) = is.take l ++ [i] := by
  rw [List.take_add_one, h]
  rfl

/-- A walk along the indices `is` below the root `k` has come to the table `t` of level `l`: what it
has done to the state `s₀`. -/
structure Walked (root : κ → Nat) (A B : κ → List Nat → Prop) (k : κ) (is : List Nat) (s₀ : State)
    (l t : Nat) (s : State) : Prop where
  trees : Trees s root A B
  here : pageAt s.mem (root k) (is.take l) = some t
  /-- Paths that existed lead where they led; those that are new lead to the pages that were given. -/
  follow : ∀ k' π, Forest.Inner B k' π →
    pageAt s.mem (root k') π = pageAt s₀.mem (root k') π ∨
    k' = k ∧ π <+: is ∧ π.length ≤ l ∧ pageAt s₀.mem (root k') π = none ∧
      ∃ p ∈ s₀.supply, pageAt s.mem (root k') π = some p
  /-- Only slots on the way and pages that were given have changed. -/
  slot : ∀ x j, s.mem x j = s₀.mem x j ∧ (x ∈ s₀.supply → x ∈ s.supply) ∨
    s.mem x j = 0 ∧ x ∈ s₀.supply ∨
    ∃ m p, m < l ∧ p ∈ s₀.supply ∧ is[m]? = some j ∧
      pageAt s.mem (root k) (is.take m) = some x ∧ s.mem x j = link p
  supply : s.supply <:+ s₀.supply
  taken : ∀ x, x ∈ s.taken ↔ x ∈ s₀.taken ∨ x ∈ s₀.supply ∧ x ∉ s.supply
  globals : s₀.SameGlobals s

theorem Trees.walked (h : Trees s root A B) (k : κ) (is : List Nat) :
    Walked root A B k is s 0 (root k) s where
  trees := h
  here := rfl
  follow _ _ _ := .inl rfl
  slot _ _ := .inl ⟨rfl, id⟩
  supply := List.suffix_refl _
  taken x := by tauto
  globals := ⟨rfl, rfl, rfl⟩

/-- A page is taken from the supply. -/
theorem taken_cons {s₀ : State} (hnodup : s.supply.Nodup) (hsuffix : s.supply <:+ s₀.supply)
    (htaken : ∀ x, x ∈ s.taken ↔ x ∈ s₀.taken ∨ x ∈ s₀.supply ∧ x ∉ s.supply)
    (hs : s.supply = p :: ps) (x : Nat) :
    x ∈ insert p s.taken ↔ x ∈ s₀.taken ∨ x ∈ s₀.supply ∧ x ∉ ps := by
  have hp : p ∈ s₀.supply := hsuffix.subset (by simp [hs])
  rw [hs, List.nodup_cons] at hnodup
  rw [Finset.mem_insert, htaken x, hs, List.mem_cons]
  by_cases hx : x = p
  · subst hx
    simp [hp, hnodup.1]
  · simp [hx]

variable {s₀ : State} {is : List Nat}

theorem Walked.descends [DecidableEq κ] (hlen : is.length = 4)
    (hA : ∀ l < 3, A k (is.take l)) : Descends (Walked root A B k is s₀) is where
  descend l t i c s hl hi h hc := by
    refine { h with here := ?_, follow := ?_, slot := ?_ }
    · rw [take_concat hi, pageAt, Forest.follow_concat h.here, List.length_take, hlen]
      rwa [show 0 + min l 4 = l by omega]
    · intro k' π hπ
      rcases h.follow k' π hπ with hold | ⟨hk, hprefix, hle, hnew⟩
      · exact .inl hold
      · exact .inr ⟨hk, hprefix, by omega, hnew⟩
    · intro x j
      rcases h.slot x j with hold | hzero | ⟨m, p, hm, hlink⟩
      · exact .inl hold
      · exact .inr (.inl hzero)
      · exact .inr (.inr ⟨m, p, by omega, hlink⟩)
  attach l t i p ps s hl hi h hn hs := by
    have hlength : (is.take l).length = l := by
      rw [List.length_take, hlen]
      omega
    have hn' : next s.mem (is.take l).length t i = none := by rwa [hlength]
    have hp : p ∈ s₀.supply := h.supply.subset (by simp [hs])
    have ht : t ≠ p := h.trees.ne_fresh hs (h.trees.sub k _ (hA l hl)) h.here
    have hfollow := fun k' π (hπ : Forest.Inner B k' π) =>
      h.trees.follow_attach (hA l hl) h.here hn' hs hπ
    -- the path so far is as it was
    have hway : ∀ m ≤ l, pageAt (s.attach t i).mem (root k) (is.take m) =
        pageAt s.mem (root k) (is.take m) := by
      intro m hm
      rw [hfollow k _ (h.trees.closed.inner (h.trees.sub k _ (hA m (by omega)))), if_neg]
      rintro ⟨-, heq⟩
      have := congrArg List.length heq
      rw [List.length_append, hlength, List.length_take, List.length_singleton] at this
      omega
    refine ⟨h.trees.attach (hA l hl) h.here hn' hs, ?_, ?_, ?_, ?_, ?_, ?_⟩
    · rw [take_concat hi, hfollow k _ ?_, if_pos ⟨rfl, rfl⟩]
      intro τ j ρ hτ
      have hpre : τ <+: is.take l := by
        have hτl : τ.length ≤ (is.take l).length := by
          have := congrArg List.length hτ
          simp at this
          omega
        exact List.prefix_of_prefix_length_le ⟨j :: ρ, hτ.symm⟩ (List.prefix_append _ _) hτl
      obtain ⟨ρ', hρ'⟩ := hpre
      exact h.trees.closed k τ ρ' (by rw [hρ']; exact h.trees.sub k _ (hA l hl))
    · intro k' π hπ
      rw [hfollow k' π hπ]
      by_cases hnew : k' = k ∧ π = is.take l ++ [i]
      · -- the path that is new
        obtain ⟨rfl, rfl⟩ := hnew
        have hnone : pageAt s.mem (root k') (is.take l ++ [i]) = none := by
          rw [pageAt, Forest.follow_concat h.here, Nat.zero_add]
          exact hn'
        rw [if_pos ⟨rfl, rfl⟩]
        refine .inr ⟨rfl, ?_, ?_, ?_, p, hp, rfl⟩
        · rw [← take_concat hi]
          exact List.take_prefix _ _
        · rw [List.length_append, hlength, List.length_singleton]
        · rcases h.follow k' _ hπ with hold | ⟨-, -, -, -, q, -, hq⟩
          · rw [← hold, hnone]
          · exact absurd (hnone.symm.trans hq) (by simp)
      · rw [if_neg hnew]
        rcases h.follow k' π hπ with hold | ⟨hk, hprefix, hle, hold⟩
        · exact .inl hold
        · exact .inr ⟨hk, hprefix, by omega, hold⟩
    · intro x j
      by_cases hxp : x = p
      · subst hxp
        exact .inr (.inl ⟨by rw [attach_blank hs ht], hp⟩)
      · by_cases hslot : x = t ∧ j = i
        · obtain ⟨rfl, rfl⟩ := hslot
          exact .inr (.inr ⟨l, p, by omega, hp, hi, by rw [hway l le_rfl, h.here], attach_here hs⟩)
        · rw [attach_mem hs hxp (by tauto), attach_supply hs]
          rcases h.slot x j with hold | hzero | ⟨m, q, hm, hq, hj, hx, hlink⟩
          · exact .inl ⟨hold.1, fun hx => List.mem_of_ne_of_mem hxp (hs ▸ hold.2 hx)⟩
          · exact .inr (.inl hzero)
          · exact .inr (.inr ⟨m, q, by omega, hq, hj, by rw [hway m (by omega), hx], hlink⟩)
    · rw [attach_supply hs]
      exact (List.suffix_cons p ps).trans (hs ▸ h.supply)
    · intro x
      rw [attach_supply hs, ← taken_cons h.trees.nodup h.supply h.taken hs x]
      unfold State.attach
      rw [State.write_taken, State.mallocPage_cons hs]
    · exact h.globals.trans (s.sameGlobals_attach t i)
  page l t s h p hp := ⟨(h.trees.fresh p hp).1, (h.trees.fresh p hp).2.1⟩

theorem Walked.leak (h : Walked root A B k is s₀ 3 t s) (hA : ∀ l ≤ 3, A k (is.take l))
    (hs : s.supply = p :: ps) : Walked root A B k is s₀ 3 t s.mallocPage.2 := by
  have hp : p ∈ s₀.supply := h.supply.subset (by simp [hs])
  have hfollow := fun k' π (hπ : Forest.Inner B k' π) => h.trees.follow_leak hs hπ
  have hway : ∀ m ≤ 3, pageAt s.mallocPage.2.mem (root k) (is.take m) =
      pageAt s.mem (root k) (is.take m) := fun m hm =>
    hfollow k _ (h.trees.closed.inner (h.trees.sub k _ (hA m hm)))
  refine ⟨h.trees.leak hs, ?_, ?_, ?_, ?_, ?_, ?_⟩
  · rw [hway 3 le_rfl, h.here]
  · intro k' π hπ
    rw [hfollow k' π hπ]
    exact h.follow k' π hπ
  · intro x j
    by_cases hxp : x = p
    · subst hxp
      refine .inr (.inl ⟨?_, hp⟩)
      rw [State.mallocPage_cons hs]
      simp
    · have hmem : s.mallocPage.2.mem x j = s.mem x j := by
        rw [State.mallocPage_cons hs]
        simp [hxp]
      have hsupply : s.mallocPage.2.supply = ps := by rw [State.mallocPage_cons hs]
      rw [hmem, hsupply]
      rcases h.slot x j with hold | hzero | ⟨m, q, hm, hq, hj, hx, hlink⟩
      · exact .inl ⟨hold.1, fun hx => List.mem_of_ne_of_mem hxp (hs ▸ hold.2 hx)⟩
      · exact .inr (.inl hzero)
      · exact .inr (.inr ⟨m, q, hm, hq, hj, by rw [hway m (by omega), hx], hlink⟩)
  · rw [State.mallocPage_cons hs]
    exact (List.suffix_cons p ps).trans (hs ▸ h.supply)
  · intro x
    rw [State.mallocPage_cons hs]
    exact taken_cons h.trees.nodup h.supply h.taken hs x
  · exact h.globals.trans s.sameGlobals_mallocPage

/-- `map_page` in the trees: a walk, and one slot of the leaf table it comes to. -/
theorem Trees.mapPage [DecidableEq κ] {flags : Word} (h : Trees s root A B)
    (hA : ∀ l ≤ 3, A k ((indices v).take l)) (hk : root k = s.cr3)
    (hok : (mapPage v w flags s).failed = false) :
    ∃ t' s', Walked root A B k (indices v) s 3 t' s' ∧
      Paging.mapPage v w flags s = s'.write t' (ptIndex v) (w ||| flags ||| ptePresent) :=
  mapPage_walks (Walked.descends rfl fun l hl => hA l (by omega))
    (fun _ _ _ _ hw hs => hw.leak hA hs) (hk ▸ h.walked k (indices v)) hok

end Trees

end Paging

end Os003
