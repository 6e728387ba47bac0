import Os003.Kernel.StackFrames
import Os003.Mm.Creation

set_option autoImplicit false

/-! # Failed creations

`CreateKernelThread` and `CreateUserThread` with the page allocator and the page tables below them,
up to the `NULL` that they return when a page is missing.

`create_thread` and `create_user_thread` return with the interrupts off, the stack of a kernel thread is not
given back when there is no TCB, and a TCB from the pool is not put back when there is no stack. For a user
thread the pages of the new address space are given back only by `Init_User_Virtual_Memory_Manager` itself,
and there without the PDPT of the identity mapping: three free pages are enough for one to be lost
(`stays_initVirtual`), and with fewer nothing is (`initVirtual_short`).
-/

namespace Os003

namespace Paging

variable {n p q a v t i : Nat} {s s' : State} {w flag : Word} {is ps acc : List Nat} {isUser : Bool}
  {virt size : Nat}

/-! ## The pages of the allocator -/

@[simp] theorem pages_switchVirtual : (switchVirtual v s).pages = s.pages := by
  unfold switchVirtual
  split <;> rfl

theorem pages_store (h : store v w s = some s') : s'.pages = s.pages := by
  obtain ⟨-, -, rfl⟩ := Option.map_eq_some_iff.mp h
  rfl

theorem pages_addTo (h : addTo v w s = some s') : s'.pages = s.pages := by
  obtain ⟨x, -, h⟩ := Option.bind_eq_some_iff.mp h
  exact pages_store h

theorem pages_writeRecord : (writeRecord v n s).pages = s.pages := rfl

theorem pmmMalloc_nil (h : s.supply = []) : s.pmmMalloc.1 = 0 ∧ s.pmmMalloc.2.pages = s.pages := by
  unfold State.pmmMalloc
  rw [h]
  exact ⟨rfl, Prod.ext h.symm rfl⟩

theorem taken_pmmMalloc (h : s.supply = p :: ps) : s.pmmMalloc.2.taken = insert p s.taken := by
  rw [pmmMalloc_cons h]

theorem toNat_addr_div (hp : p < 2 ^ 52) : (addr p).toNat / pageSize = p := by
  rw [addr_toNat hp]
  exact Nat.mul_div_cancel _ (by decide)

/-! ## A page that stays allocated -/

/-- The page is allocated, and is not one that is given next. -/
structure Stays (p : Nat) (s : State) : Prop where
  taken : p ∈ s.taken
  away : p ∉ s.supply
  bound : ∀ q ∈ s.supply, q < 2 ^ 52

namespace Stays

theorem congr (h : Stays p s) (hpages : s'.pages = s.pages) : Stays p s' where
  taken := taken_of_pages hpages ▸ h.taken
  away := supply_of_pages hpages ▸ h.away
  bound := supply_of_pages hpages ▸ h.bound

theorem pmmMalloc (h : Stays p s) : Stays p s.pmmMalloc.2 := by
  cases hs : s.supply with
  | nil => exact h.congr (pmmMalloc_nil hs).2
  | cons q qs =>
      rw [pmmMalloc_cons hs]
      refine ⟨Finset.mem_insert_of_mem h.taken, fun hp => h.away ?_, fun x hx => h.bound x ?_⟩
      · rw [hs]
        exact List.mem_cons_of_mem _ hp
      · rw [hs]
        exact List.mem_cons_of_mem _ hx

/-- A page that is given next is another one. -/
theorem ne (h : Stays p s) (hq : q ∈ s.supply) : (addr q).toNat / pageSize ≠ p := by
  rw [toNat_addr_div (h.bound q hq)]
  rintro rfl
  exact h.away hq

theorem pmmFree {e : Word} (h : Stays p s) (hne : e.toNat / pageSize ≠ p) :
    Stays p (s.pmmFree e) where
  taken := Finset.mem_erase.mpr ⟨hne.symm, h.taken⟩
  away := h.away
  bound := h.bound

theorem newTable (h : Stays p s) : Stays p (newTable t i s).2 := by
  have hmalloc : Stays p s.mallocPage.2 := h.pmmMalloc.congr rfl
  unfold Paging.newTable
  split
  · exact hmalloc
  · exact hmalloc.congr rfl

theorem visit {create inner : Bool} (h : Stays p s) : Stays p (visit create inner t i s).2 := by
  have hslot : Stays p (if present (s.mem t i) then (some (s.mem t i), s)
      else if create then Paging.newTable t i s else (none, s)).2 := by
    split
    · exact h
    · split
      · exact h.newTable
      · exact h
  unfold Paging.visit
  dsimp only
  generalize (if present (s.mem t i) then (some (s.mem t i), s)
      else if create then Paging.newTable t i s else (none, s)) = r at hslot
  obtain ⟨entry | entry, s'⟩ := r
  · exact hslot
  · dsimp only
    split
    · split
      · exact hslot.newTable
      · exact hslot
    · exact hslot

theorem walk {create : Bool} (h : Stays p s) : Stays p (walk create t is s).2 := by
  induction is generalizing t s with
  | nil => exact h
  | cons i is ih =>
      unfold Paging.walk
      have hvisit : Stays p (Paging.visit create (!is.isEmpty) t i s).2 := h.visit
      generalize Paging.visit create (!is.isEmpty) t i s = r at hvisit
      obtain ⟨entry | entry, s'⟩ := r
      · exact hvisit
      · dsimp only
        split
        · exact hvisit
        · exact ih hvisit

theorem mapPage (h : Stays p s) : Stays p (mapPage v w flag s) := by
  have hwalk : Stays p (walkPageTable true s.cr3 v s).2 := h.walk
  unfold Paging.mapPage
  generalize walkPageTable true s.cr3 v s = r at hwalk
  obtain ⟨slot | slot, s'⟩ := r
  · exact hwalk
  · exact hwalk.congr rfl

theorem mapRange (h : Stays p s) : Stays p (mapRange virt flag i ps s) := by
  induction ps generalizing i s with
  | nil => exact h
  | cons q ps ih => exact ih h.mapPage

/-- The loop gives back only pages that it has taken itself. -/
theorem mallocPages (h : Stays p s) (hacc : ∀ q ∈ acc, (addr q).toNat / pageSize ≠ p) :
    Stays p (mallocPages n acc s).2 := by
  induction n generalizing acc s with
  | zero => exact h
  | succ n ih =>
      unfold Paging.mallocPages
      split
      · have hback : ∀ (qs : List Nat) (s : State), Stays p s →
            (∀ q ∈ qs, (addr q).toNat / pageSize ≠ p) →
            Stays p (qs.foldl (fun s q => s.pmmFree (addr q)) s) := by
          intro qs
          induction qs with
          | nil => exact fun s h _ => h
          | cons q qs ih =>
              intro s h hqs
              exact ih _ (h.pmmFree (hqs q List.mem_cons_self))
                fun x hx => hqs x (List.mem_cons_of_mem _ hx)
        exact hback acc _ h.pmmMalloc hacc
      · rename_i hne
        obtain ⟨qs, hs⟩ := supply_of_pmmMalloc hne
        refine ih h.pmmMalloc fun q hq => ?_
        rcases List.mem_append.mp hq with hq | hq
        · exact hacc q hq
        · rw [List.mem_singleton.mp hq]
          exact h.ne (by rw [hs]; exact List.mem_cons_self)

theorem vmmMalloc (h : Stays p s) (hr : vmmMalloc size s = some (a, s')) : Stays p s' := by
  unfold Paging.vmmMalloc at hr
  simp only [Option.pure_def, Option.bind_eq_bind] at hr
  split at hr
  · cases hr
    exact h
  split at hr
  · cases hr
    exact h
  obtain ⟨address, -, hr⟩ := Option.bind_eq_some_iff.mp hr
  split at hr
  · cases hr
    exact h
  have hpages : Stays p (Paging.mallocPages (pagesFor size) [] s).2 :=
    h.mallocPages fun q hq => absurd hq List.not_mem_nil
  generalize Paging.mallocPages (pagesFor size) [] s = r at hpages hr
  obtain ⟨ps | ps, s₁⟩ := r
  · cases hr
    exact hpages
  · dsimp only at hr
    obtain ⟨s₂, h₂, hr⟩ := Option.bind_eq_some_iff.mp hr
    obtain ⟨s₃, h₃, hr⟩ := Option.bind_eq_some_iff.mp hr
    obtain ⟨s₄, h₄, hr⟩ := Option.bind_eq_some_iff.mp hr
    have hmapped : Stays p s₂ := hpages.mapRange.congr (pages_addTo h₂)
    have hcounted : Stays p s₄ := (hmapped.congr (pages_addTo h₃)).congr (pages_addTo h₄)
    rw [← (Prod.mk.inj (Option.some.inj hr)).2]
    exact hcounted.congr pages_writeRecord

theorem replaceIdentityPdpt (h : Stays p s) : Stays p (replaceIdentityPdpt q s) := by
  rcases pages_replaceIdentityPdpt (q := q) (s := s) with hp | hp
  · exact h.congr hp
  · exact h.pmmMalloc.congr hp

theorem described {d : Nat} (h : Stays p s) (hr : described isUser flag v q d s = some (a, s')) :
    Stays p s' := by
  unfold Paging.described at hr
  simp only [Option.pure_def, Option.bind_eq_bind] at hr
  obtain ⟨s₄, h₄, hr⟩ := Option.bind_eq_some_iff.mp hr
  obtain ⟨s₅, h₅, hr⟩ := Option.bind_eq_some_iff.mp hr
  obtain ⟨s₆, h₆, hr⟩ := Option.bind_eq_some_iff.mp hr
  have hcleared : Stays p { s.clear d with cr3 := q } := h.congr rfl
  have hmapped : Stays p (Paging.mapPage (startOf isUser) (addr d) flag { s.clear d with cr3 := q }) :=
    hcleared.mapPage
  have hstart := hmapped.congr (pages_write (x := v) (i := 1) (w := BitVec.ofNat 64 (startOf isUser)))
  have hdesc : Stays p s₄ := hstart.congr (pages_store h₄)
  have hzeros : Stays p s₆ := (hdesc.congr (pages_store h₅)).congr (pages_store h₆)
  rw [← (Prod.mk.inj (Option.some.inj hr)).2]
  exact hzeros.congr rfl

end Stays

/-! ## A new address space -/

/-- When the identity mapping gets the last page, the page is taken. -/
theorem stays_replaceIdentityPdpt {r : Nat} {rest : List Nat} (hs : s.supply = r :: rest)
    (hempty : (replaceIdentityPdpt q s).supply = []) : r ∈ (replaceIdentityPdpt q s).taken := by
  rcases pages_replaceIdentityPdpt (q := q) (s := s) with hp | hp
  · rw [supply_of_pages hp, hs] at hempty
    cases hempty
  · rw [taken_of_pages hp, pmmMalloc_cons hs]
    exact Finset.mem_insert_self _ _

/-- After its first page the creation goes on with a blank `VMM_T`. -/
theorem initVirtual_cons (isUser : Bool) (flag : Word) (hs : s.supply = p :: ps) (hp : p ≠ 0) :
    ∃ t : State, t.pages = (ps, insert p s.taken) ∧ initVirtual isUser flag s =
      if t.pmmMalloc.1 = 0 then some (0, t.pmmMalloc.2.pmmFree (addr p))
      else
        let q := t.pmmMalloc.1
        let u := replaceIdentityPdpt q (copied isUser q t.pmmMalloc.2)
        if u.pmmMalloc.1 = 0 then some (0, (u.pmmMalloc.2.pmmFree (addr p)).pmmFree (addr q))
        else described isUser flag p q u.pmmMalloc.1 u.pmmMalloc.2 := by
  refine ⟨blankVmm isUser flag p { s with supply := ps, taken := insert p s.taken }, pages_blankVmm, ?_⟩
  rw [initVirtual_eq, pmmMalloc_cons hs]
  dsimp only
  rw [if_neg hp]

/-- After its second page the creation goes on with a PML4 that has been copied. -/
theorem initVirtual_cons_cons (isUser : Bool) (flag : Word) (hs : s.supply = p :: q :: ps) (hp : p ≠ 0)
    (hq : q ≠ 0) :
    ∃ c : State, c.pages = (ps, insert q (insert p s.taken)) ∧ initVirtual isUser flag s =
      let u := replaceIdentityPdpt q c
      if u.pmmMalloc.1 = 0 then some (0, (u.pmmMalloc.2.pmmFree (addr p)).pmmFree (addr q))
      else described isUser flag p q u.pmmMalloc.1 u.pmmMalloc.2 := by
  obtain ⟨t, ht, hinit⟩ := initVirtual_cons isUser flag hs hp
  have hsupply : t.supply = q :: ps := congrArg Prod.fst ht
  have htaken : t.taken = insert p s.taken := congrArg Prod.snd ht
  rw [pmmMalloc_cons hsupply] at hinit
  dsimp only at hinit
  rw [if_neg hq] at hinit
  refine ⟨copied isUser q { t with supply := ps, taken := insert q t.taken }, ?_, hinit⟩
  rw [pages_copied, ← htaken]
  rfl

/-- With three free pages the creation of an address space leaves one of them allocated. -/
theorem stays_initVirtual (h : FreshFor s s.supply) (hlen : 3 ≤ s.supply.length)
    (hr : initVirtual isUser flag s = some (a, s')) : ∃ p ∈ s.supply, Stays p s' := by
  obtain ⟨p, q, r, rest, hs⟩ : ∃ p q r rest, s.supply = p :: q :: r :: rest := by
    match hs : s.supply, hlen with
    | p :: q :: r :: rest, _ => exact ⟨p, q, r, rest, rfl⟩
  rw [hs] at h ⊢
  have hmem : ∀ x ∈ r :: rest, x ≠ 0 ∧ x < 2 ^ 52 ∧ x ∉ s.taken := fun x hx =>
    h.fresh x (List.mem_cons_of_mem _ (List.mem_cons_of_mem _ hx))
  have hpq : p ∉ q :: r :: rest := (List.nodup_cons.mp h.nodup).1
  have hqr : q ∉ r :: rest := (List.nodup_cons.mp (List.nodup_cons.mp h.nodup).2).1
  obtain ⟨hp, hpbound, -⟩ := h.fresh p (by simp)
  obtain ⟨hq, hqbound, -⟩ := h.fresh q (by simp)
  -- two pages are taken at once; whether the third is there depends on the identity mapping
  obtain ⟨c, hc, hinit⟩ := initVirtual_cons_cons isUser flag hs hp hq
  rw [hinit] at hr
  have hsupply : c.supply = r :: rest := congrArg Prod.fst hc
  have htaken : c.taken = insert q (insert p s.taken) := congrArg Prod.snd hc
  have hstays : Stays p c := by
    refine ⟨?_, ?_, fun x hx => (hmem x (hsupply ▸ hx)).2.1⟩
    · rw [htaken]
      exact Finset.mem_insert_of_mem (Finset.mem_insert_self _ _)
    · rw [hsupply]
      exact fun hx => hpq (List.mem_cons_of_mem _ hx)
  have hu : Stays p (replaceIdentityPdpt q c) := hstays.replaceIdentityPdpt
  have hlast := stays_replaceIdentityPdpt (q := q) hsupply
  have hsuffix := replaceIdentityPdpt_supply q c
  generalize replaceIdentityPdpt q c = u at hr hu hlast hsuffix
  dsimp only at hr
  by_cases hthird : u.pmmMalloc.1 = 0
  · -- the identity mapping has got the last page, which is not given back
    rw [if_pos hthird] at hr
    have hempty := pmmMalloc_zero (fun x hx => (hmem x (hsupply ▸ hsuffix.subset hx)).1) hthird
    have hkept := (pmmMalloc_nil hempty).2
    have hr₀ : Stays r u.pmmMalloc.2 := by
      refine ⟨?_, ?_, ?_⟩
      · rw [taken_of_pages hkept]
        exact hlast hempty
      · rw [supply_of_pages hkept, hempty]
        exact List.not_mem_nil
      · rw [supply_of_pages hkept, hempty]
        exact fun x hx => absurd hx List.not_mem_nil
    have hpr : (addr p).toNat / pageSize ≠ r := by
      rw [toNat_addr_div hpbound]
      rintro rfl
      exact hpq (List.mem_cons_of_mem _ List.mem_cons_self)
    have hqr' : (addr q).toNat / pageSize ≠ r := by
      rw [toNat_addr_div hqbound]
      rintro rfl
      exact hqr List.mem_cons_self
    rw [← (Prod.mk.inj (Option.some.inj hr)).2]
    exact ⟨r, by simp, (hr₀.pmmFree hpr).pmmFree hqr'⟩
  · -- the third page is there, so the first one stays taken for good
    rw [if_neg hthird] at hr
    exact ⟨p, List.mem_cons_self, hu.pmmMalloc.described hr⟩

/-- With fewer than three free pages there is no address space, and the pages have been given back. -/
theorem initVirtual_short (h : FreshFor s s.supply) (hlen : s.supply.length ≤ 2)
    (hr : initVirtual isUser flag s = some (a, s')) : a = 0 ∧ s'.taken ⊆ s.taken := by
  match hs : s.supply, hlen with
  | [], _ =>
      have hnone := pmmMalloc_nil hs
      rw [initVirtual_eq, if_pos hnone.1] at hr
      obtain ⟨rfl, rfl⟩ := Prod.mk.inj (Option.some.inj hr)
      exact ⟨rfl, (taken_of_pages hnone.2).subset⟩
  | [p], _ =>
      rw [hs] at h
      obtain ⟨hp, hbound, -⟩ := h.fresh p (by simp)
      obtain ⟨t, ht, hinit⟩ := initVirtual_cons isUser flag hs hp
      have hnone := pmmMalloc_nil (s := t) (congrArg Prod.fst ht)
      rw [hinit, if_pos hnone.1] at hr
      obtain ⟨rfl, rfl⟩ := Prod.mk.inj (Option.some.inj hr)
      refine ⟨rfl, ?_⟩
      show Finset.erase t.pmmMalloc.2.taken ((addr p).toNat / pageSize) ⊆ s.taken
      rw [taken_of_pages hnone.2, toNat_addr_div hbound, show t.taken = _ from congrArg Prod.snd ht]
      exact Finset.erase_insert_subset _ _
  | [p, q], _ =>
      rw [hs] at h
      obtain ⟨hp, hpbound, -⟩ := h.fresh p (by simp)
      obtain ⟨hq, hqbound, -⟩ := h.fresh q (by simp)
      obtain ⟨c, hc, hinit⟩ := initVirtual_cons_cons isUser flag hs hp hq
      have hsame : (replaceIdentityPdpt q c).pages = c.pages :=
        pages_replaceIdentityPdpt.elim id fun hmalloc =>
          hmalloc.trans (pmmMalloc_nil (congrArg Prod.fst hc)).2
      generalize replaceIdentityPdpt q c = u at hinit hsame
      have hu : u.pages = ([], insert q (insert p s.taken)) := hsame.trans hc
      have hnone := pmmMalloc_nil (s := u) (congrArg Prod.fst hu)
      dsimp only at hinit
      rw [hinit, if_pos hnone.1] at hr
      obtain ⟨rfl, rfl⟩ := Prod.mk.inj (Option.some.inj hr)
      refine ⟨rfl, ?_⟩
      show Finset.erase (Finset.erase u.pmmMalloc.2.taken ((addr p).toNat / pageSize))
        ((addr q).toNat / pageSize) ⊆ s.taken
      rw [taken_of_pages hnone.2, toNat_addr_div hpbound, toNat_addr_div hqbound,
        show u.taken = _ from congrArg Prod.snd hu]
      intro x hx
      simp only [Finset.mem_erase, Finset.mem_insert] at hx
      tauto

end Paging

/-! ## Threads over the page allocator -/

/-- The threads, with the page allocator and the page tables; the contents of the TCBs and the first
frames are in the fields of the kernel. -/
structure PagedKernel where
  kernel : Kernel
  memory : Paging.State

namespace PagedKernel

open Paging (load store initVirtual FreshFor Stays)

/-- A TCB from the pool, or a page from the allocator. -/
def takeTcb (x : PagedKernel) : Option Addr × PagedKernel :=
  match x.kernel.freeTcbList x.kernel.numOfFreeTcb with
  | some t => (some t, { x with kernel := Kernel.popTcb t x.kernel })
  | none =>
      let (p, memory) := x.memory.pmmMalloc
      if p = 0 then (none, { x with memory })
      else (some (p * pageSize), ⟨Kernel.allocTcb (p * pageSize) x.kernel, memory⟩)

/-- `Pmm_Free(thread, 1)`. -/
def freeTcb (t : Addr) (x : PagedKernel) : PagedKernel :=
  ⟨Kernel.freeTcb t x.kernel, x.memory.pmmFree (BitVec.ofNat 64 t)⟩

/-- `create_thread`; no address is `NULL`. -/
def createThread (stack stackSize : Nat) (useVmm : Bool) (vmm : Addr) (x : PagedKernel) :
    Option Addr × PagedKernel :=
  match takeTcb { x with kernel := x.kernel.disableInterrupts } with
  | (none, x) => (none, x)
  | (some t, x) =>
      if stack = 0 then (none, freeTcb t x)
      else
        (some t, { x with kernel := Kernel.startThread t { Tcb.zero with
          kernelStack := stack, stackSize := stackSize, useVmm := useVmm, vmm := vmm } x.kernel })

/-- `Pmm_Malloc` has given a block of pages; 0 is none. -/
def mallocBlock (stack pages : Nat) (m : Paging.State) : Paging.State :=
  if stack = 0 then m
  else
    { m with
      supply := m.supply.filter (· ∉ Finset.Ico (stack / pageSize) (stack / pageSize + pages))
      taken := m.taken ∪ Finset.Ico (stack / pageSize) (stack / pageSize + pages) }

/-- `CreateKernelThread`, when `Pmm_Malloc` gives `stack` for the stack. -/
def createKernelThread (stack stackSize : Nat) (x : PagedKernel) : Option Addr × PagedKernel :=
  createThread stack (Kernel.roundUp stackSize) false x.kernel.currentVmmDesc
    { x with memory := mallocBlock stack (kernelStackPages stackSize) x.memory }

/-- `create_user_thread`; `vmm` is the page of the `VMM_T`. -/
def createUserThreadIn (stackSize vmm : Nat) (x : PagedKernel) : Option Addr × PagedKernel :=
  let kernel := x.kernel.disableInterrupts
  let (p, memory) := x.memory.pmmMalloc
  if p = 0 then (none, ⟨kernel, memory⟩)
  else
    let t := p * pageSize
    let kernel := Kernel.allocTcb t kernel
    let (q, memory) := memory.pmmMalloc
    if q = 0 then (none, freeTcb t ⟨kernel, memory⟩)
    else
      (some t, ⟨Kernel.startThread t { Tcb.zero with
        kernelStack := q * pageSize, stackSize := stackSize, useVmm := true, vmm := vmm * pageSize }
        kernel, memory⟩)

/-- `Switch_Virtual_Mamanager`, with what it returns: the VMM before, or the page table when there
was none. -/
def switchVirtual (vmm : Nat) (m : Paging.State) : Nat × Paging.State :=
  if vmm = 0 then (0, m)
  else (if m.current ≠ 0 then m.current else m.cr3, Paging.switchVirtual vmm m)

/-- `memcpy` of a page, by words. -/
def copyPage (dest src : Nat) (m : Paging.State) : Option Paging.State :=
  (List.range 512).foldlM (fun m i => do
    let w ← load ((src + i * 8) % 2 ^ 64) m
    store ((dest + i * 8) % 2 ^ 64) w m) m

/-- The page of the entry is copied, and `int $0x80` stored into its last word. -/
def copyEntry (dest entry : Nat) (m : Paging.State) : Option Paging.State := do
  let m ← copyPage dest (entry / pageSize * pageSize) m
  let trampoline := (dest + pageSize - 8) % 2 ^ 64
  let w ← load trampoline m
  store trampoline (w &&& ~~~0xFFFF ||| 0x80CD) m

/-- The kernel knows the new VMM, and which one is in use. -/
def withMemory (vmm : Nat) (m : Paging.State) (x : PagedKernel) : PagedKernel where
  kernel := { x.kernel with
    vmms := Function.update x.kernel.vmms (vmm * pageSize)
      ⟨Paging.pml4Of m.mem vmm * pageSize, Paging.isUserOf m.mem vmm⟩
    currentVmmDesc := m.current * pageSize
    cr3 := m.cr3 * pageSize }
  memory := m

/-- `CreateUserThread`. -/
def createUserThread (entry stackSize : Nat) (x : PagedKernel) : Option (Option Addr × PagedKernel) := do
  let stackSize := Kernel.roundUp stackSize
  let (vmm, m) ← initVirtual true (Paging.ptePresent ||| Paging.pteWritable ||| Paging.pteUser) x.memory
  if vmm = 0 then return (none, { x with memory := m })
  let (old, m) := switchVirtual vmm m
  let (code, m) ← Paging.vmmMalloc pageSize m
  if code = 0 then return (none, x.withMemory vmm (switchVirtual old m).2)
  let m ← copyEntry code entry m
  let (stack, m) ← Paging.vmmMalloc stackSize m
  let x := x.withMemory vmm (switchVirtual old m).2
  if stack = 0 then return (none, x)
  return createUserThreadIn stackSize vmm x

/-! ## What a failed creation leaves behind -/

/-- The TCBs in the pool. -/
def pool (s : Kernel) : List (Option Addr) := (List.range s.numOfFreeTcb).map fun i => s.freeTcbList (i + 1)

/-- The call that has led from `x` to `y` has left nothing behind: the interrupts are as before, the
queues, the table of threads and the pool hold the same threads, and no further page is allocated.
-/
structure Harmless (x y : PagedKernel) : Prop where
  interrupts : y.kernel.interrupts = x.kernel.interrupts
  queues : ∀ q t, Linked.Meets y.kernel.next t (y.kernel.queue q).head ↔
    Linked.Meets x.kernel.next t (x.kernel.queue q).head
  tort : y.kernel.tort = x.kernel.tort
  pool : (pool y.kernel).Perm (pool x.kernel)
  pages : y.memory.taken ⊆ x.memory.taken

/-- What holds before each call: cell 0 of the pool is empty, and the pages that are given next are free. -/
structure Ready (x : PagedKernel) : Prop where
  base : x.kernel.freeTcbList 0 = none
  fresh : FreshFor x.memory x.memory.supply

/-- The block from `Pmm_Malloc` consists of free pages. -/
def Gives (m : Paging.State) (stack pages : Nat) : Prop :=
  stack ≠ 0 → ∀ p, stack / pageSize ≤ p → p < stack / pageSize + pages → p ∈ m.supply

variable {x y : PagedKernel} {stack stackSize entry vmm p t : Nat} {useVmm : Bool}

/-- What `Pmm_Malloc(1)` gives, as an address. -/
def pageOf (m : Paging.State) : Option Addr :=
  if m.pmmMalloc.1 = 0 then none else some (m.pmmMalloc.1 * pageSize)

/-- For the threads `create_thread` does what it does with any allocator. -/
theorem createThread_kernel (stack stackSize : Nat) (useVmm : Bool) (vmm : Addr) (x : PagedKernel) :
    (createThread stack stackSize useVmm vmm x).2.kernel =
      Kernel.createThread (pageOf x.memory) stack stackSize useVmm vmm x.kernel := by
  unfold createThread Kernel.createThread takeTcb Kernel.takeTcb pageOf
  dsimp only
  cases x.kernel.disableInterrupts.freeTcbList x.kernel.disableInterrupts.numOfFreeTcb with
  | some t =>
      dsimp only
      split <;> rfl
  | none =>
      by_cases hp : x.memory.pmmMalloc.1 = 0
      · simp [hp]
      · simp only [hp, if_false]
        split <;> rfl

theorem createUserThreadIn_kernel (stackSize vmm : Nat) (x : PagedKernel) :
    (createUserThreadIn stackSize vmm x).2.kernel =
      Kernel.createUserThread (pageOf x.memory) ((pageOf x.memory.pmmMalloc.2).getD 0) stackSize
        (vmm * pageSize) x.kernel := by
  unfold createUserThreadIn Kernel.createUserThread pageOf
  dsimp only
  by_cases hp : x.memory.pmmMalloc.1 = 0
  · simp [hp]
  · by_cases hq : x.memory.pmmMalloc.2.pmmMalloc.1 = 0
    · simp [hp, hq, freeTcb]
    · have hne : x.memory.pmmMalloc.2.pmmMalloc.1 * pageSize ≠ 0 :=
        Nat.mul_ne_zero hq (by decide)
      simp [hp, hq, hne]

theorem length_pool (s : Kernel) : (pool s).length = s.numOfFreeTcb := by
  simp [pool]

/-! ## Kernel threads -/

/-- A TCB that comes from the pool is lost without a stack. -/
theorem not_harmless_pool (hbase : x.kernel.freeTcbList 0 = none)
    (htop : x.kernel.freeTcbList x.kernel.numOfFreeTcb = some t)
    (hy : y.kernel.numOfFreeTcb = x.kernel.numOfFreeTcb - 1) : ¬ Harmless x y := by
  intro h
  have hlen := h.pool.length_eq
  rw [length_pool, length_pool, hy] at hlen
  have hzero : x.kernel.numOfFreeTcb = 0 := by omega
  rw [hzero, hbase] at htop
  cases htop

/-- A call that leaves the threads alone is harmless when the interrupts were off before it and no
page is lost. -/
theorem harmless_iff (hqueue : y.kernel.queue = x.kernel.queue) (hnext : y.kernel.next = x.kernel.next)
    (htort : y.kernel.tort = x.kernel.tort) (hpool : pool y.kernel = pool x.kernel) :
    Harmless x y ↔ y.kernel.interrupts = x.kernel.interrupts ∧ y.memory.taken ⊆ x.memory.taken := by
  constructor
  · exact fun h => ⟨h.interrupts, h.pages⟩
  · rintro ⟨hinterrupts, hpages⟩
    exact ⟨hinterrupts, fun q t => by rw [hqueue, hnext], htort, hpool ▸ List.Perm.refl _, hpages⟩

theorem mem_supply_mallocBlock {m : Paging.State} {pages : Nat}
    (hp : p ∈ (mallocBlock stack pages m).supply) : p ∈ m.supply := by
  unfold mallocBlock at hp
  split at hp
  · exact hp
  · exact (List.mem_filter.mp hp).1

/-- A block that has been given is allocated, unless it has no pages. -/
theorem taken_mallocBlock {m : Paging.State} {pages : Nat} (hg : Gives m stack pages)
    (hfresh : FreshFor m m.supply) :
    (mallocBlock stack pages m).taken ⊆ m.taken ↔ stack = 0 ∨ pages = 0 := by
  unfold mallocBlock
  by_cases hstack : stack = 0
  · simp [hstack]
  · simp only [hstack, if_false, false_or]
    constructor
    · intro h
      by_contra hpages
      have hfirst : stack / pageSize ∈ m.supply := hg hstack _ le_rfl (by omega)
      refine (hfresh.fresh _ hfirst).2.2 (h (Finset.mem_union_right _ ?_))
      exact Finset.mem_Ico.mpr ⟨le_rfl, by omega⟩
    · rintro rfl
      simp

/-- `CreateKernelThread` returns `NULL` without a trace only when the interrupts were off, the pool
is empty and no page was given for the stack. -/
theorem createKernelThread_harmless (h : Ready x)
    (hg : Gives x.memory stack (kernelStackPages stackSize))
    (hr : createKernelThread stack stackSize x = (none, y)) :
    Harmless x y ↔ x.kernel.interrupts = false ∧
      x.kernel.freeTcbList x.kernel.numOfFreeTcb = none ∧
      (stack = 0 ∨ kernelStackPages stackSize = 0) := by
  have htaken := taken_mallocBlock hg h.fresh
  have hsupply : ∀ q ∈ (mallocBlock stack (kernelStackPages stackSize) x.memory).supply,
      q ∈ x.memory.supply := fun q hq => mem_supply_mallocBlock hq
  unfold createKernelThread at hr
  generalize hm : mallocBlock stack (kernelStackPages stackSize) x.memory = m at hr htaken hsupply
  unfold createThread takeTcb at hr
  dsimp only at hr
  have hdisabled : x.kernel.disableInterrupts.freeTcbList x.kernel.disableInterrupts.numOfFreeTcb =
      x.kernel.freeTcbList x.kernel.numOfFreeTcb := rfl
  rw [hdisabled] at hr
  -- a TCB from the pool, or a new page for it
  cases htop : x.kernel.freeTcbList x.kernel.numOfFreeTcb with
  | some t =>
      simp only [htop] at hr
      by_cases hstack : stack = 0
      · rw [if_pos hstack] at hr
        obtain ⟨-, rfl⟩ := Prod.mk.inj hr
        exact iff_of_false (not_harmless_pool h.base htop rfl) fun hc => by cases hc.2.1
      · rw [if_neg hstack] at hr
        cases (Prod.mk.inj hr).1
  | none =>
      simp only [htop] at hr
      by_cases hp : m.pmmMalloc.1 = 0
      · -- there is no page for the TCB
        rw [if_pos hp] at hr
        obtain ⟨-, rfl⟩ := Prod.mk.inj hr
        have hempty := Paging.pmmMalloc_zero (fun q hq => (h.fresh.fresh q (hsupply q hq)).1) hp
        have hsame : m.pmmMalloc.2.taken = m.taken :=
          Paging.taken_of_pages (Paging.pmmMalloc_nil hempty).2
        refine Iff.trans (harmless_iff (by rfl) (by rfl) (by rfl) (by rfl)) ?_
        show false = x.kernel.interrupts ∧ m.pmmMalloc.2.taken ⊆ x.memory.taken ↔ _
        rw [hsame, htaken, eq_comm]
        simp
      · rw [if_neg hp] at hr
        dsimp only at hr
        by_cases hstack : stack = 0
        · -- the page of the TCB is given back
          rw [if_pos hstack] at hr
          obtain ⟨-, rfl⟩ := Prod.mk.inj hr
          obtain ⟨ps, hs⟩ := Paging.supply_of_pmmMalloc hp
          have hbound := (h.fresh.fresh _ (hsupply _ (by rw [hs]; exact List.mem_cons_self))).2.1
          have hback : (m.pmmMalloc.2.pmmFree (Paging.addr m.pmmMalloc.1)).taken ⊆ x.memory.taken := by
            show m.pmmMalloc.2.taken.erase _ ⊆ _
            rw [Paging.toNat_addr_div hbound, Paging.taken_pmmMalloc hs]
            exact (Finset.erase_insert_subset _ _).trans (htaken.mpr (.inl hstack))
          refine Iff.trans (harmless_iff (by rfl) (by rfl) (by rfl) (by rfl)) ?_
          show false = x.kernel.interrupts ∧ _ ↔ _
          rw [eq_comm]
          exact ⟨fun hc => ⟨hc.1, rfl, .inl hstack⟩, fun hc => ⟨hc.1, hback⟩⟩
        · rw [if_neg hstack] at hr
          cases (Prod.mk.inj hr).1

/-! ## User threads -/

theorem Stays.switchVirtual {m : Paging.State} {v : Nat} (h : Stays p m) :
    Stays p (switchVirtual v m).2 := by
  unfold PagedKernel.switchVirtual
  split
  · exact h
  · exact h.congr Paging.pages_switchVirtual

theorem stays_copyPage {m m' : Paging.State} {dest src : Nat} (h : Stays p m)
    (hr : copyPage dest src m = some m') : Stays p m' := by
  have hloop : ∀ (is : List Nat) (m : Paging.State), Stays p m →
      (is.foldlM (fun m i => do
        let w ← load ((src + i * 8) % 2 ^ 64) m
        store ((dest + i * 8) % 2 ^ 64) w m) m) = some m' → Stays p m' := by
    intro is
    induction is with
    | nil =>
        rintro m h hr
        cases hr
        exact h
    | cons i is ih =>
        intro m h hr
        rw [List.foldlM_cons] at hr
        obtain ⟨m₁, hstep, hr⟩ := Option.bind_eq_some_iff.mp hr
        obtain ⟨w, -, hstore⟩ := Option.bind_eq_some_iff.mp hstep
        exact ih m₁ (h.congr (Paging.pages_store hstore)) hr
  unfold copyPage at hr
  exact hloop _ m h hr

theorem stays_copyEntry {m m' : Paging.State} {dest : Nat} (h : Stays p m)
    (hr : copyEntry dest entry m = some m') : Stays p m' := by
  unfold copyEntry at hr
  simp only [Option.bind_eq_bind] at hr
  obtain ⟨m₁, hcopy, hr⟩ := Option.bind_eq_some_iff.mp hr
  obtain ⟨w, -, hstore⟩ := Option.bind_eq_some_iff.mp hr
  exact (stays_copyPage h hcopy).congr (Paging.pages_store hstore)

/-- `create_user_thread` gives back the page of the TCB only. -/
theorem stays_createUserThreadIn (h : Stays p x.memory) :
    Stays p (createUserThreadIn stackSize vmm x).2.memory := by
  unfold createUserThreadIn
  dsimp only
  split
  · exact h.pmmMalloc
  · rename_i hp
    obtain ⟨ps, hs⟩ := Paging.supply_of_pmmMalloc hp
    split
    · exact h.pmmMalloc.pmmMalloc.pmmFree (h.ne (by rw [hs]; exact List.mem_cons_self))
    · exact h.pmmMalloc.pmmMalloc

/-- Nothing of a new address space is given back once it is there. -/
theorem stays_createUserThread (h : Ready x) (hlen : 3 ≤ x.memory.supply.length)
    {r : Option Addr} (hr : createUserThread entry stackSize x = some (r, y)) :
    ∃ p ∈ x.memory.supply, Stays p y.memory := by
  unfold createUserThread at hr
  simp only [Option.pure_def, Option.bind_eq_bind] at hr
  obtain ⟨⟨v, m₁⟩, h₁, hr⟩ := Option.bind_eq_some_iff.mp hr
  obtain ⟨p, hp, hstays⟩ := Paging.stays_initVirtual h.fresh hlen h₁
  refine ⟨p, hp, ?_⟩
  dsimp only at hr
  split at hr
  · cases hr
    exact hstays
  obtain ⟨⟨code, m₂⟩, h₂, hr⟩ := Option.bind_eq_some_iff.mp hr
  have hstays₂ : Stays p m₂ := (Stays.switchVirtual hstays).vmmMalloc h₂
  dsimp only at hr
  split at hr
  · cases hr
    exact Stays.switchVirtual hstays₂
  obtain ⟨m₃, h₃, hr⟩ := Option.bind_eq_some_iff.mp hr
  obtain ⟨⟨stack, m₄⟩, h₄, hr⟩ := Option.bind_eq_some_iff.mp hr
  have hstays₄ : Stays p m₄ := (stays_copyEntry hstays₂ h₃).vmmMalloc h₄
  dsimp only at hr
  split at hr
  · cases hr
    exact Stays.switchVirtual hstays₄
  · rw [← (Prod.mk.inj (Option.some.inj hr)).2]
    exact stays_createUserThreadIn (Stays.switchVirtual hstays₄)

/-- `CreateUserThread` leaves nothing behind only when there are not three free pages. -/
theorem createUserThread_harmless (h : Ready x)
    (hr : createUserThread entry stackSize x = some (none, y)) :
    Harmless x y ↔ x.memory.supply.length ≤ 2 := by
  constructor
  · intro hy
    by_contra hlen
    obtain ⟨p, hp, hstays⟩ := stays_createUserThread h (by omega) hr
    exact (h.fresh.fresh p hp).2.2 (hy.pages hstays.taken)
  · intro hlen
    unfold createUserThread at hr
    simp only [Option.pure_def, Option.bind_eq_bind] at hr
    obtain ⟨⟨v, m⟩, hinit, hr⟩ := Option.bind_eq_some_iff.mp hr
    obtain ⟨rfl, htaken⟩ := Paging.initVirtual_short h.fresh hlen hinit
    cases hr
    exact (harmless_iff (by rfl) (by rfl) (by rfl) (by rfl)).mpr ⟨rfl, htaken⟩

/-- The creations that fail and leave nothing behind. -/
theorem failed_creation_iff (stack stackSize entry : Nat) (h : Ready x) :
    (Gives x.memory stack (kernelStackPages stackSize) →
      createKernelThread stack stackSize x = (none, y) →
      (Harmless x y ↔ x.kernel.interrupts = false ∧
        x.kernel.freeTcbList x.kernel.numOfFreeTcb = none ∧
        (stack = 0 ∨ kernelStackPages stackSize = 0))) ∧
    (createUserThread entry stackSize x = some (none, y) →
      (Harmless x y ↔ x.memory.supply.length ≤ 2)) :=
  ⟨fun hg hr => createKernelThread_harmless h hg hr, fun hr => createUserThread_harmless h hr⟩

/-- A machine with one free page, and with the interrupts on. -/
def onePage : PagedKernel where
  kernel := Kernel.bare.enableInterrupts
  memory := ⟨fun _ _ => 0, 1, [5], ∅, false, 0, 2⟩

theorem ready_onePage : Ready onePage where
  base := rfl
  fresh := ⟨by decide, by decide⟩

theorem failed_creation_onePage :
    (∃ y, createKernelThread (5 * pageSize) 4096 onePage = (none, y) ∧ ¬ Harmless onePage y) ∧
      ∃ y, createUserThread 0x2000 4096 onePage = some (none, y) ∧ Harmless onePage y := by
  constructor
  · refine ⟨_, rfl, fun h => ?_⟩
    have hg : Gives onePage.memory (5 * pageSize) (kernelStackPages 4096) := fun _ => by
      rintro p h₁ h₂
      obtain rfl : p = 5 := by
        change 5 ≤ p at h₁
        change p < 6 at h₂
        omega
      exact List.mem_singleton.mpr rfl
    have hlost := ((failed_creation_iff _ _ 0 ready_onePage).1 hg rfl).mp h
    cases hlost.1
  · exact ⟨_, rfl, ((failed_creation_iff 0 4096 0x2000 ready_onePage).2 rfl).mpr (by decide)⟩

/-- The stack gets the last page: it is lost, and the interrupts are off. -/
theorem stack_page_lost : Ready onePage ∧ ∃ y, createKernelThread (5 * pageSize) 4096 onePage = (none, y) ∧
    onePage.kernel.interrupts = true ∧ y.kernel.interrupts = false ∧ 5 ∈ y.memory.taken ∧
    ¬ Harmless onePage y := by
  refine ⟨ready_onePage, _, rfl, rfl, rfl, by decide, fun h => ?_⟩
  cases h.interrupts

end PagedKernel

end Os003
