import Os003.Mm.Calls

set_option autoImplicit false

/-! # Live allocations

The address spaces between calls: what stands in their `VMM_T` (`Words`), which pages are mapped,
and what the descriptor says (`Books`). Each call keeps this (`Kept`) as long as the record it
writes goes to a page that is used for nothing.
-/

namespace Os003

namespace Paging

variable {a d p x i : Nat} {vmms : List Vmm} {S D : Set Nat} {s s' : State} {v v' : Vmm}
  {w : Word} {π pages ps : List Nat} {r : AllocRecord} {live : List AllocRecord}

/-! ## The invariant -/

/-- What stands in a `VMM_T` for good. -/
structure Words (mem : Mem) (v : Vmm) : Prop where
  flag : mem v.page 0 = v.flag
  descriptor : mem v.page 1 = BitVec.ofNat 64 (startOf v.isUser)
  pml4 : mem v.page 2 = addr v.pml4
  allocRecord : mem v.page 3 = 0
  isUser : isUserOf mem v.page = v.isUser

/-- The page of the descriptor. -/
def descPage (s : State) (v : Vmm) : Nat :=
  (pageAt s.mem v.pml4 (indices (startOf v.isUser))).getD 0

/-- `Descriptor->Address`. -/
def top (s : State) (v : Vmm) : Nat := (s.mem (descPage s v) 0).toNat

/-- The allocation is made of whole pages, behind the descriptor and below an address. -/
structure InBounds (v : Vmm) (stop : Nat) (r : AllocRecord) : Prop where
  size : r.size ≠ 0 ∧ r.size % pageSize = 0
  aligned : r.address % pageSize = 0
  low : startOf v.isUser + pageSize ≤ r.address
  high : r.address + r.size ≤ stop

/-- No page is in both. -/
def Disjoint (r r' : AllocRecord) : Prop :=
  r.address + r.size ≤ r'.address ∨ r'.address + r'.size ≤ r.address

/-- The books of an address space: the page of the descriptor and the pages of the live allocations are
mapped and no others, and the allocations lie between the descriptor and `Address`. -/
structure Books (v : Vmm) (live : List AllocRecord) (s : State) : Prop where
  mapped : ∀ a, v.Has a → ((pageAt s.mem v.pml4 (indices a)).isSome ↔
    a / pageSize = startOf v.isUser / pageSize ∨ ∃ r ∈ live, r.HasPage (a / pageSize))
  aligned : top s v % pageSize = 0
  low : startOf v.isUser + pageSize ≤ top s v
  high : top s v ≤ endOf v.isUser
  bounds : ∀ r ∈ live, InBounds v (top s v) r
  disjoint : live.Pairwise Disjoint

structure Kept (vmms : List Vmm) (S : Set Nat) (live : Nat → List AllocRecord) (s : State) : Prop
    where
  core : Core 4 vmms S { s with supply := [], failed := false }
  taken : ∀ k π x, Used 4 vmms S k π → pageAt s.mem (rootOf k) π = some x → x ∈ s.taken
  nonzero : ∀ v π x, Used 4 vmms S (.space v) π → pageAt s.mem v.pml4 π = some x → x ≠ 0
  page : ∀ v ∈ vmms, v.page ∈ S
  notNull : ∀ v ∈ vmms, v.page ≠ 0
  distinct : ∀ v ∈ vmms, ∀ v' ∈ vmms, v.page = v'.page → v = v'
  words : ∀ v ∈ vmms, Words s.mem v
  bits : ∀ v ∈ vmms, v.flag.toNat < pageSize ∧ v.pml4 < 2 ^ 52
  books : ∀ v ∈ vmms, Books v (live v.page) s
  cr3 : ∀ v ∈ vmms, v.page = s.current → s.cr3 = v.pml4

/-- The pages that a call gets: each is allocated to nobody. -/
structure FreshFor (s : State) (pages : List Nat) : Prop where
  nodup : pages.Nodup
  fresh : ∀ p ∈ pages, p ≠ 0 ∧ p < 2 ^ 52 ∧ p ∉ s.taken

/-- The state in which the allocator gives these pages next. -/
def State.give (s : State) (pages : List Nat) : State := { s with supply := pages, failed := false }

@[simp] theorem give_mem : (s.give pages).mem = s.mem := rfl
@[simp] theorem give_supply : (s.give pages).supply = pages := rfl
@[simp] theorem give_taken : (s.give pages).taken = s.taken := rfl

variable {lives : Nat → List AllocRecord}

theorem Kept.give (h : Kept vmms S lives s) (hp : FreshFor s pages) :
    Core 4 vmms S (s.give pages) where
  apart := h.core.apart
  closed := h.core.closed
  sub := h.core.sub
  nodup := hp.nodup
  fresh p hmem := ⟨(hp.fresh p hmem).1, (hp.fresh p hmem).2.1,
    fun k π hπ hx => (hp.fresh p hmem).2.2 (h.taken k π p hπ hx)⟩

theorem Words.descriptorOf (h : Words s.mem v) : Paging.descriptorOf s.mem v.page = startOf v.isUser := by
  unfold Paging.descriptorOf
  rw [h.descriptor, BitVec.toNat_ofNat, Nat.mod_eq_of_lt]
  cases v.isUser <;> decide

theorem Words.congr {mem mem' : Mem} (h : Words mem v) (hsame : ∀ i < 4, mem' v.page i = mem v.page i)
    (huser : isUserOf mem' v.page = isUserOf mem v.page) : Words mem' v where
  flag := (hsame 0 (by decide)).trans h.flag
  descriptor := (hsame 1 (by decide)).trans h.descriptor
  pml4 := (hsame 2 (by decide)).trans h.pml4
  allocRecord := (hsame 3 (by decide)).trans h.allocRecord
  isUser := huser.trans h.isUser

theorem used_indices (hv : v ∈ vmms) (ha : v.Has a) : Used 4 vmms S (.space v) (indices a) :=
  ⟨hv, within_indices a, fun i ρ hi => by
    rw [← (List.cons.inj hi).1]
    exact ha.region⟩

/-- The page of the descriptor is mapped. -/
theorem Books.desc (h : Books v live s) :
    pageAt s.mem v.pml4 (indices (startOf v.isUser)) = some (descPage s v) := by
  have hsome := (h.mapped _ (startOf_has v)).mpr (.inl rfl)
  obtain ⟨d, hd⟩ := Option.isSome_iff_exists.mp hsome
  unfold descPage
  rw [hd]
  rfl

/-- The descriptor is used for nothing else. -/
theorem Kept.desc_unused (h : Kept vmms S lives s) (hp : FreshFor s pages) (hv : v ∈ vmms) :
    Unused 4 vmms S (s.give pages) (descPage s v) := by
  have hd := (h.books v hv).desc
  have hused : Used 4 vmms S (.space v) (indices (startOf v.isUser)) :=
    used_indices hv (startOf_has v)
  refine ⟨fun v' hown => (h.give hp).not_own_mapped hv (startOf_has v) hd v' hown, ?_, ?_⟩
  · intro hS
    have := (h.core.apart (.space v) _ (.page (descPage s v)) [] (descPage s v) hused ⟨hS, rfl⟩ hd
      rfl).1
    cases this
  · exact fun hmem => (hp.fresh _ hmem).2.2 (h.taken _ _ _ hused hd)

theorem Books.congr {mem : Nat} (h : Books v live s) (hmem : mem = descPage s v)
    (hsame : ∀ a, v.Has a → pageAt s'.mem v.pml4 (indices a) = pageAt s.mem v.pml4 (indices a))
    (hdesc : s'.mem mem 0 = s.mem mem 0) : Books v live s' := by
  subst hmem
  have hpage : descPage s' v = descPage s v := by
    unfold descPage
    rw [hsame _ (startOf_has v)]
  have htop : top s' v = top s v := by
    unfold top
    rw [hpage, hdesc]
  refine ⟨fun a ha => ?_, ?_, ?_, ?_, ?_, h.disjoint⟩
  · rw [hsame a ha]
    exact h.mapped a ha
  · rw [htop]
    exact h.aligned
  · rw [htop]
    exact h.low
  · rw [htop]
    exact h.high
  · rw [htop]
    exact h.bounds

/-- The record of the next allocation goes to a page that is used for nothing. -/
structure RecordUnused (vmms : List Vmm) (S : Set Nat) (s : State) (pages : List Nat) : Prop where
  unused : Unused 4 vmms S (s.give pages) (recordPage s)
  desc : ∀ v ∈ vmms, recordPage s ≠ descPage s v

theorem Books.malloc {q k : Nat} (h : Books v live s) (hq : top s v = q * pageSize) (hk : k ≠ 0)
    (hhigh : (q + k) * pageSize ≤ endOf v.isUser)
    (hmapped : ∀ a, v.Has a → (pageAt s'.mem v.pml4 (indices a)).isSome =
      if q ≤ a / pageSize ∧ a / pageSize < q + k then true
      else (pageAt s.mem v.pml4 (indices a)).isSome)
    (htop : top s' v = (q + k) * pageSize) :
    Books v (live ++ [⟨q * pageSize, k * pageSize⟩]) s' := by
  have hlow := h.low
  rw [hq] at hlow
  refine ⟨fun a ha => ?_, ?_, ?_, ?_, ?_, ?_⟩
  · -- an address is mapped if it lies in the new block or was mapped before
    rw [hmapped a ha]
    split
    · rename_i hin
      refine ⟨fun _ => .inr ⟨_, List.mem_append_right _ List.mem_cons_self, AllocRecord.hasPage_iff.mpr hin⟩,
        fun _ => rfl⟩
    · rename_i hout
      rw [h.mapped a ha]
      constructor
      · rintro (hstart | ⟨r, hr, hp⟩)
        · exact .inl hstart
        · exact .inr ⟨r, List.mem_append_left _ hr, hp⟩
      · rintro (hstart | ⟨r, hr, hp⟩)
        · exact .inl hstart
        · rcases List.mem_append.mp hr with hr | hr
          · exact .inr ⟨r, hr, hp⟩
          · rw [List.mem_singleton.mp hr] at hp
            exact absurd (AllocRecord.hasPage_iff.mp hp) hout
  · rw [htop]
    exact Nat.mul_mod_left _ _
  · rw [htop, Nat.add_mul]
    omega
  · rw [htop]
    exact hhigh
  · -- the new block ends at the new address, the others end before it
    intro r hr
    rw [htop, Nat.add_mul]
    rcases List.mem_append.mp hr with hr | hr
    · obtain ⟨hsize, haligned, hl, hh⟩ := h.bounds r hr
      rw [hq] at hh
      exact ⟨hsize, haligned, hl, by omega⟩
    · rw [List.mem_singleton.mp hr]
      refine ⟨⟨?_, Nat.mul_mod_left _ _⟩, Nat.mul_mod_left _ _, hlow, le_rfl⟩
      exact Nat.mul_ne_zero hk (by decide)
  · -- the new allocation is behind the others
    refine List.pairwise_append.mpr ⟨h.disjoint, List.pairwise_singleton _ _, ?_⟩
    intro r hr r' hr'
    rw [List.mem_singleton.mp hr']
    have := (h.bounds r hr).high
    rw [hq] at this
    exact .inl this

theorem Kept.give_kept (h : Kept vmms S lives s) : Kept vmms S lives (s.give pages) :=
  { core := h.core
    taken := h.taken
    nonzero := h.nonzero
    page := h.page
    notNull := h.notNull
    distinct := h.distinct
    words := h.words
    bits := h.bits
    books := fun v hv => ⟨(h.books v hv).mapped, (h.books v hv).aligned, (h.books v hv).low,
      (h.books v hv).high, (h.books v hv).bounds, (h.books v hv).disjoint⟩
    cr3 := h.cr3 }

/-- The live allocations after a call of `Vmm_Malloc` that has returned `r`. -/
def afterMalloc (lives : Nat → List AllocRecord) (vmm size r : Nat) : Nat → List AllocRecord :=
  if r = 0 then lives
  else Function.update lives vmm (lives vmm ++ [⟨r, pagesFor size * pageSize⟩])

/-- The new range lies between the descriptor and the end. -/
theorem Books.range {size j : Nat} (h : Books v live s)
    (hbound : top s v + pagesFor size * pageSize ≤ endOf v.isUser) (hj : j < pagesFor size) :
    v.Has (top s v + j * pageSize) := by
  have hlow := h.low
  refine has_of_range (by omega) ?_
  have : (j + 1) * pageSize ≤ pagesFor size * pageSize := Nat.mul_le_mul_right _ hj
  rw [Nat.add_mul] at this
  unfold pageSize at *
  omega

theorem Quiet.drop (h : Quiet 4 vmms S s s') : Core 4 vmms S { s' with supply := [], failed := false } where
  apart := h.core.apart
  closed := h.core.closed
  sub := h.core.sub
  nodup := List.nodup_nil
  fresh _ hp := absurd hp List.not_mem_nil

theorem Quiet.pageAt {k : Holder} (h : Quiet 4 vmms S s s') (hπ : Used 4 vmms S k π) :
    pageAt s'.mem (rootOf k) π = pageAt s.mem (rootOf k) π := by
  cases k with
  | page p => rw [hπ.2]; rfl
  | space v => exact h.space v π (used_length le_rfl hπ) (used_closed.inner hπ)

/-- After a call under one address space, whose own books are told. -/
theorem Kept.step {live : List AllocRecord} (h : Kept vmms S lives s) (hv : v ∈ vmms)
    (he : Effect 4 vmms S v s s') (hcore : Core 4 vmms S { s' with supply := [], failed := false })
    (htaken : ∀ k π x, Used 4 vmms S k π → pageAt s'.mem (rootOf k) π = some x → x ∈ s'.taken)
    (hnonzero : ∀ v π x, Used 4 vmms S (.space v) π → pageAt s'.mem v.pml4 π = some x → x ≠ 0)
    (hwords : ∀ i < 4, s'.mem v.page i = s.mem v.page i)
    (huser : isUserOf s'.mem v.page = isUserOf s.mem v.page)
    (hother : ∀ v' ∈ vmms, v' ≠ v → s'.mem (descPage s v') 0 = s.mem (descPage s v') 0)
    (hbooks : Books v live s') : Kept vmms S (Function.update lives v.page live) s' := by
  refine ⟨hcore, htaken, hnonzero, h.page, h.notNull, h.distinct, ?_, h.bits, ?_, ?_⟩
  · intro v' hv'
    by_cases hvv : v' = v
    · subst hvv
      exact (h.words v' hv').congr hwords huser
    · have hpage : s'.mem v'.page = s.mem v'.page :=
        he.single _ (h.page v' hv') fun heq => hvv (h.distinct v' hv' v hv heq)
      exact (h.words v' hv').congr (fun i _ => by rw [hpage]) (by unfold isUserOf; rw [hpage])
  · intro v' hv'
    by_cases hvv : v' = v
    · subst hvv
      rw [Function.update_self]
      exact hbooks
    · rw [Function.update_of_ne fun heq => hvv (h.distinct v' hv' v hv heq)]
      refine (h.books v' hv').congr rfl (fun a ha => ?_) (hother v' hv' hvv)
      exact he.pageAt_other hvv le_rfl (used_closed.inner (used_indices hv' ha))
  · intro v' hv' hpage
    rw [he.globals.current] at hpage
    rw [he.globals.cr3]
    exact h.cr3 v' hv' hpage

/-- No two address spaces have their descriptors in one page. -/
theorem Kept.descPage_ne (h : Kept vmms S lives s) (hv : v ∈ vmms) (hv' : v' ∈ vmms) (hne : v' ≠ v) :
    descPage s v' ≠ descPage s v := by
  intro heq
  have hd := (h.books v' hv').desc
  rw [heq] at hd
  exact hne (Holder.space.inj (h.core.apart (.space v') _ (.space v) _ _
    (used_indices hv' (startOf_has v')) (used_indices hv (startOf_has v)) hd (h.books v hv).desc).1)

/-- What a call of `Vmm_Malloc` that returns `r` has taken and noted. -/
structure Grows (v : Vmm) (size r : Nat) (pages : List Nat) (s s' : State) : Prop where
  taken : ∀ x ∈ s'.taken, x ∈ s.taken ∨ x ∈ pages
  result : r ≠ 0 → r = Paging.top s v
  top : r ≠ 0 → Paging.top s' v = Paging.top s v + pagesFor size * pageSize
  num : r ≠ 0 → allocRecordNumOf s'.mem v.page = allocRecordNumOf s.mem v.page + 1

/-- The address that a call of `Vmm_Malloc` reads. -/
theorem Kept.granted_address {size r : Nat} {A : Word} {s₁ s₂ s₃ s₄ : State}
    (h : Kept vmms S lives s) (hv : v ∈ vmms) (hcur : s.current = v.page)
    (hg : Granted size (s.give pages) r s' A ps s₁ s₂ s₃ s₄) : A.toNat = top s v := by
  have hd := (h.books v hv).desc
  have hload := hg.address
  have hcr3 : (s.give pages).cr3 = v.pml4 := h.cr3 v hv hcur.symm
  have hdesc : descriptorOf (s.give pages).mem (s.give pages).current = startOf v.isUser := by
    rw [show (s.give pages).current = v.page from hcur]
    exact (h.words v hv).descriptorOf
  rw [hdesc, load_eq (locate_pageAt (d := descPage s v) (by rw [hcr3]; exact hd)),
    startOf_aligned v] at hload
  exact (congrArg BitVec.toNat (Option.some.inj hload)).symm

/-- A call of `Vmm_Malloc` that returns 0. -/
theorem Kept.malloc_refused {size : Nat} (h : Kept vmms S lives s) (hp : FreshFor s pages)
    (hrefused : s' = s.give pages ∨ mallocPages (pagesFor size) [] (s.give pages) = (none, s'))
    (hok : s'.failed = false) :
    Kept vmms S (afterMalloc lives v.page size 0) s' ∧ Effect 4 vmms S v s s' ∧
      Grows v size 0 pages s s' := by
  rcases hrefused with rfl | hnone
  · refine ⟨h.give_kept, ?_, fun x hx => .inl hx, fun h0 => absurd rfl h0,
      fun h0 => absurd rfl h0, fun h0 => absurd rfl h0⟩
    exact ⟨fun _ _ _ => rfl, fun _ _ _ _ => rfl, fun _ _ _ => rfl, fun _ _ _ _ hx => hx,
      fun _ _ _ _ _ hx _ => ⟨hx, rfl⟩, ⟨rfl, rfl, rfl⟩⟩
  · obtain ⟨ps, s₁, hrun, -⟩ := Core.mallocPages (D := ∅) (h.give hp) v (k := pagesFor size)
      (by rw [hnone]; exact hok)
    rw [hnone] at hrun
    cases hrun

/-! What a call that has allocated `k` pages from page `q` on leaves behind: the page of the descriptor
is `e`. -/

section Mallocs

variable {u : State} {A k d e q : Nat} (hu : Mallocs 4 vmms S v (s.give pages) u s' A k d e ps)
include hu

theorem Mallocs.keeps_taken {x : Nat} (hx : x ∈ s.taken) : x ∈ s'.taken := by
  rw [hu.quiet.taken]
  exact (hu.takes x).mpr (.inl hx)

theorem Mallocs.taken {x : Nat} (hx : x ∈ s'.taken) : x ∈ s.taken ∨ x ∈ pages := by
  rw [hu.quiet.taken, hu.takes x] at hx
  exact hx.imp_right fun hx => hx.1

/-- What is reached was reached before, or is one of the pages the call has got. -/
theorem Mallocs.reach {b : Holder} {π : List Nat} {x : Nat} (hπ : Used 4 vmms S b π)
    (hx : pageAt s'.mem (rootOf b) π = some x) :
    pageAt s.mem (rootOf b) π = some x ∨ x ∈ pages ∧ x ∈ s'.taken := by
  rw [hu.quiet.pageAt hπ] at hx
  rcases hu.acts.reach b π x hπ hx with hold | hnew | hps
  · exact .inl hold
  · refine .inr ⟨hnew.1, ?_⟩
    rw [hu.quiet.taken]
    exact (hu.takes x).mpr (.inr hnew)
  · refine .inr ⟨(hu.page x hps).1, ?_⟩
    rw [hu.quiet.taken]
    exact (hu.page x hps).2.2.2

theorem Mallocs.give_effect (hcore : Core 4 vmms S (s.give pages))
    (hrec : RecordUnused vmms S s pages) : Effect 4 vmms S v s s' := by
  have heffect := hu.effect hcore hrec.unused.single
  exact ⟨heffect.single, heffect.other, heffect.top, heffect.kept, heffect.huge,
    ⟨heffect.globals.cr3, heffect.globals.current, heffect.globals.uefiPml4⟩⟩

/-- The range is mapped, and nothing else has been. -/
theorem Mallocs.isSome (hv : v ∈ vmms) (hA : A / pageSize = q) (ha : v.Has a) :
    (pageAt s'.mem v.pml4 (indices a)).isSome =
      if q ≤ a / pageSize ∧ a / pageSize < q + k then true
      else (pageAt s.mem v.pml4 (indices a)).isSome := by
  have hsame := hu.quiet.pageAt (used_indices hv ha : Used 4 vmms S (.space v) (indices a))
  have hm := hu.mapped v hv a ha
  rw [hA, hu.length] at hm
  refine (congrArg Option.isSome (hsame.trans hm)).trans ?_
  by_cases hin : q ≤ a / pageSize ∧ a / pageSize < q + k
  · rw [if_pos ⟨rfl, hin⟩, if_pos hin, List.getElem?_eq_getElem (by rw [hu.length]; omega)]
    rfl
  · rw [if_neg (fun hc => hin hc.2), if_neg hin]
    rfl

/-- A range behind the descriptor leaves its page. -/
theorem Mallocs.descPage_eq (hv : v ∈ vmms) (hbooks : Books v live s) (hA : A / pageSize = q)
    (hbehind : startOf v.isUser / pageSize < q) : descPage s v = e ∧ descPage s' v = e := by
  have hm := hu.mapped v hv (startOf v.isUser) (startOf_has v)
  rw [hA, if_neg (by omega)] at hm
  have hfull : Used 4 vmms S (.space v) (indices (startOf v.isUser)) :=
    used_indices hv (startOf_has v)
  have hsame : pageAt s'.mem v.pml4 (indices (startOf v.isUser)) = some e :=
    (hu.quiet.pageAt hfull).trans hu.desc
  refine ⟨Option.some.inj (hbooks.desc.symm.trans (hm.symm.trans hu.desc)), ?_⟩
  unfold descPage
  rw [hsame]
  rfl

/-- `Address` has moved on by the size of the range. -/
theorem Mallocs.top (hv : v ∈ vmms) (hbooks : Books v live s) (hA : A / pageSize = q)
    (hq : top s v = q * pageSize) (hbehind : startOf v.isUser / pageSize < q)
    (hwrap : top s v + k * pageSize < 2 ^ 64) (hunused : Unused 4 vmms S (s.give pages) (descPage s v))
    (hrec : recordPage s ≠ descPage s v) : Paging.top s' v = (q + k) * pageSize := by
  obtain ⟨hdesc, hdesc'⟩ := hu.descPage_eq hv hbooks hA hbehind
  have hmem : u.mem e = s.mem e := by
    rw [hdesc] at hunused
    exact hu.acts.frame _ hunused.given (hunused.own v)
  have hword : s'.mem e 0 = s.mem e 0 + BitVec.ofNat 64 (k * pageSize) := by
    rw [hdesc] at hrec
    rw [hu.address hrec.symm, hmem]
  have hold : (s.mem e 0).toNat = q * pageSize := by
    rw [← hdesc]
    exact hq
  unfold Paging.top
  rw [hdesc', hword, BitVec.toNat_add, BitVec.toNat_ofNat, hold, Nat.add_mul]
  rw [hq] at hwrap
  omega

/-- The descriptors of the other address spaces are not written to. -/
theorem Mallocs.desc_other (h : Kept vmms S lives s) (hp : FreshFor s pages) (hv : v ∈ vmms)
    (hv' : v' ∈ vmms) (hne : v' ≠ v) (he : descPage s v = e)
    (hrec : recordPage s ≠ descPage s v') :
    s'.mem (descPage s v') 0 = s.mem (descPage s v') 0 := by
  have hunused := h.desc_unused hp hv'
  have hpage : descPage s v' ≠ v.page := fun heq => hunused.single (heq ▸ h.page v hv)
  have hmem : s'.mem (descPage s v') = s.mem (descPage s v') :=
    (hu.frame _ (he ▸ h.descPage_ne hv hv' hne) hpage hrec.symm).trans
      (hu.acts.frame _ hunused.given (hunused.own v))
  rw [hmem]

end Mallocs

theorem Kept.malloc {size r : Nat} (h : Kept vmms S lives s) (hv : v ∈ vmms)
    (hcur : s.current = v.page) (hp : FreshFor s pages) (hsize : size + pageSize ≤ 2 ^ 64)
    (hwrap : top s v + pagesFor size * pageSize < 2 ^ 64) (hrec : RecordUnused vmms S s pages)
    (hm : vmmMalloc size (s.give pages) = some (r, s')) (hok : s'.failed = false) :
    Kept vmms S (afterMalloc lives v.page size r) s' ∧ Effect 4 vmms S v s s' ∧
      Grows v size r pages s s' := by
  have hcore : Core 4 vmms S (s.give pages) := h.give hp
  rcases vmmMalloc_cases hm with ⟨rfl, hrefused⟩ | ⟨A, ps, s₁, s₂, s₃, s₄, hg⟩
  · exact h.malloc_refused hp hrefused hok
  have hbooks := h.books v hv
  have hA : A.toNat = top s v := h.granted_address hv hcur hg
  have hbound : top s v + pagesFor size * pageSize ≤ endOf v.isUser := by
    have hb := hg.bound
    rw [show (s.give pages).current = v.page from hcur, hA, Nat.mod_eq_of_lt hwrap] at hb
    rw [give_mem, (h.words v hv).isUser] at hb
    omega
  obtain ⟨u, e, hu⟩ := Core.malloc (v := v) hcore (by decide) le_rfl hv (h.page v hv) hcur
    (h.cr3 v hv hcur.symm)
    (by rw [give_mem]; unfold flagOf; rw [(h.words v hv).flag]; exact (h.bits v hv).1)
    (h.words v hv).descriptorOf (h.words v hv).allocRecord hg hok
    (fun j hj => by rw [hA]; exact hbooks.range hbound hj) hbooks.desc (h.desc_unused hp hv)
    hrec.unused
  rw [hA] at hu
  -- the range begins with page `q`, behind the descriptor
  obtain ⟨q, hq⟩ : ∃ q, top s v = q * pageSize :=
    ⟨top s v / pageSize, by have := hbooks.aligned; unfold pageSize at *; omega⟩
  have hqpage : top s v / pageSize = q := by rw [hq, Nat.mul_div_cancel _ (by decide)]
  have hbehind : startOf v.isUser / pageSize < q := by
    have hlow := hbooks.low
    have haligned := startOf_aligned v
    rw [← hqpage]
    unfold pageSize at hlow ⊢
    omega
  have hk : pagesFor size ≠ 0 := by
    have := hg.positive
    unfold pagesFor
    unfold pageSize at *
    omega
  have heffect := hu.give_effect hcore hrec
  have htop : top s' v = (q + pagesFor size) * pageSize :=
    hu.top hv hbooks hqpage hq hbehind hwrap (h.desc_unused hp hv) (hrec.desc v hv)
  have hlives : afterMalloc lives v.page size r = Function.update lives v.page
      (lives v.page ++ [⟨q * pageSize, pagesFor size * pageSize⟩]) := by
    unfold afterMalloc
    rw [hg.result, hA, hq, if_neg]
    exact Nat.mul_ne_zero (Nat.ne_of_gt (Nat.zero_lt_of_lt hbehind)) (by decide)
  rw [hlives]
  refine ⟨h.step hv heffect hu.quiet.drop ?_ ?_ hu.vmm hu.isUser ?_ ?_, heffect,
    fun x hx => hu.taken hx, fun _ => hg.result.trans hA, fun _ => ?_, fun _ => hu.num⟩
  · intro k π x hπ hx
    rcases hu.reach hπ hx with hold | hnew
    · exact hu.keeps_taken (h.taken k π x hπ hold)
    · exact hnew.2
  · intro v' π x hπ hx
    rcases hu.reach (b := .space v') hπ hx with hold | hnew
    · exact h.nonzero v' π x hπ hold
    · exact (hp.fresh x hnew.1).1
  · exact fun v' hv' hne => hu.desc_other h hp hv hv' hne (hu.descPage_eq hv hbooks hqpage hbehind).1
      (hrec.desc v' hv')
  · refine hbooks.malloc hq hk ?_ (fun a ha => hu.isSome hv hqpage ha) htop
    rw [Nat.add_mul, ← hq]
    exact hbound
  · rw [htop, hq, Nat.add_mul]

/-! ## `Vmm_Free` -/

instance : Std.Symm Disjoint := ⟨fun _ _ h => Or.symm h⟩

theorem Books.nodup (h : Books v live s) : live.Nodup := by
  refine h.disjoint.imp_of_mem fun hr _ hd => ?_
  rintro rfl
  have := (h.bounds _ hr).size.1
  unfold Disjoint at hd
  omega

/-- The other allocations have none of the pages. -/
theorem Books.apart {r' : AllocRecord} (h : Books v live s) (hr : r ∈ live) (hr' : r' ∈ live)
    (hne : r' ≠ r) (hp : r.HasPage p) : ¬ r'.HasPage p := by
  have hd : Disjoint r' r := h.disjoint.forall hr' hr hne
  have h₁ := h.bounds r hr
  have h₂ := h.bounds r' hr'
  have a₁ := h₁.aligned
  have a₂ := h₂.aligned
  have b₁ := h₁.size.2
  have b₂ := h₂.size.2
  unfold AllocRecord.HasPage at *
  unfold Disjoint at hd
  unfold pageSize at *
  omega

/-- The live allocations after `r` has been freed. -/
def afterFree (lives : Nat → List AllocRecord) (vmm : Nat) (r : AllocRecord) :
    Nat → List AllocRecord :=
  Function.update lives vmm ((lives vmm).erase r)

theorem Books.free {q k : Nat} (h : Books v live s) (hr : ⟨q * pageSize, k * pageSize⟩ ∈ live)
    (hmapped : ∀ a, v.Has a → (pageAt s'.mem v.pml4 (indices a)).isSome =
      if q ≤ a / pageSize ∧ a / pageSize < q + k then false
      else (pageAt s.mem v.pml4 (indices a)).isSome)
    (htop : top s' v = top s v) : Books v (live.erase ⟨q * pageSize, k * pageSize⟩) s' := by
  have hmem : ∀ r, r ∈ live.erase ⟨q * pageSize, k * pageSize⟩ ↔
      r ≠ ⟨q * pageSize, k * pageSize⟩ ∧ r ∈ live := fun r => h.nodup.mem_erase_iff
  refine ⟨fun a ha => ?_, htop ▸ h.aligned, htop ▸ h.low, htop ▸ h.high, fun r hr => ?_,
    h.disjoint.sublist List.erase_sublist⟩
  · rw [hmapped a ha]
    split
    · rename_i hin
      -- neither the descriptor nor another allocation is in the range
      refine ⟨fun hf => absurd hf (by simp), ?_⟩
      have hp := AllocRecord.hasPage_iff.mpr hin
      rintro (hstart | ⟨r', hr', hp'⟩)
      · have hlow := (h.bounds _ hr).low
        have haligned := startOf_aligned v
        dsimp only at hlow
        rw [hstart] at hin
        have hq : startOf v.isUser / pageSize + 1 ≤ q := by
          have := Nat.div_le_div_right (c := pageSize) hlow
          rwa [Nat.add_div_right _ (by decide), Nat.mul_div_cancel _ (by decide)] at this
        omega
      · obtain ⟨hne, hr'⟩ := (hmem r').mp hr'
        exact absurd hp' (h.apart hr hr' hne hp)
    · rename_i hout
      rw [h.mapped a ha]
      constructor
      · rintro (hstart | ⟨r', hr', hp⟩)
        · exact .inl hstart
        · refine .inr ⟨r', (hmem r').mpr ⟨?_, hr'⟩, hp⟩
          rintro rfl
          exact hout (AllocRecord.hasPage_iff.mp hp)
      · rintro (hstart | ⟨r', hr', hp⟩)
        · exact .inl hstart
        · exact .inr ⟨r', ((hmem r').mp hr').2, hp⟩
  · rw [htop]
    exact h.bounds r ((hmem r).mp hr).2

/-- The pages of a live allocation are addresses of the space. -/
theorem Books.has {q k j : Nat} (h : Books v live s) (hr : ⟨q * pageSize, k * pageSize⟩ ∈ live)
    (hj : j < k) : v.Has (q * pageSize + j * pageSize) := by
  have hlow := (h.bounds _ hr).low
  have hhigh := (h.bounds _ hr).high
  have hend := h.high
  have hle : (j + 1) * pageSize ≤ k * pageSize := Nat.mul_le_mul_right _ hj
  rw [Nat.add_mul] at hle
  dsimp only at hlow hhigh
  have hpos : 0 < pageSize := by decide
  exact has_of_range (by omega) (by omega)

/-- They are mapped. -/
theorem Kept.has_page {q k j : Nat} (h : Kept vmms S lives s) (hv : v ∈ vmms)
    (hr : ⟨q * pageSize, k * pageSize⟩ ∈ lives v.page) (hj : j < k) :
    ∃ x, pageAt s.mem v.pml4 (indices (q * pageSize + j * pageSize)) = some x ∧ x ≠ 0 := by
  have ha := (h.books v hv).has hr hj
  have hpage : (⟨q * pageSize, k * pageSize⟩ : AllocRecord).HasPage
      ((q * pageSize + j * pageSize) / pageSize) := by
    rw [AllocRecord.hasPage_iff, ← Nat.add_mul, Nat.mul_div_cancel _ (by decide)]
    omega
  obtain ⟨x, hx⟩ := Option.isSome_iff_exists.mp (((h.books v hv).mapped _ ha).mpr (.inr ⟨_, hr, hpage⟩))
  exact ⟨x, hx, h.nonzero v _ x (used_indices hv ha) hx⟩

theorem FreshFor.nil : FreshFor s [] := ⟨List.nodup_nil, fun _ hp => absurd hp List.not_mem_nil⟩

/-- On a live allocation `Vmm_Free` gets to the pages. -/
theorem Kept.releases {q size : Nat} (h : Kept vmms S lives s) (hv : v ∈ vmms) (hcur : s.current = v.page)
    (hr : ⟨q * pageSize, pagesFor size * pageSize⟩ ∈ lives v.page)
    (hm : vmmFree (q * pageSize) size (s.give []) = some s') :
    ∃ s₂ s₃, Released (q * pageSize) size (s.give []) s' s₂ s₃ := by
  have hbounds := (h.books v hv).bounds _ hr
  have hlow := hbounds.low
  have hhigh := hbounds.high
  dsimp only at hlow hhigh
  have hpos : 0 < pageSize := by decide
  have hcur' : (s.give []).current = v.page := hcur
  have hcr3 : (s.give []).cr3 = v.pml4 := h.cr3 v hv hcur.symm
  rcases vmmFree_cases hm with ⟨-, hrefused⟩ | hrel
  · exfalso
    rcases hrefused with h0 | h0 | h0 | h0 | ⟨A, hA, hlt⟩
    · exact h.notNull v hv (hcur'.symm.trans h0)
    · omega
    · subst h0
      exact hbounds.size.1 (by simp [pagesFor, pageSize])
    · rw [hcur', give_mem, (h.words v hv).isUser] at h0
      omega
    · rw [hcur', give_mem, (h.words v hv).descriptorOf, load_eq (locate_pageAt (d := descPage s v)
        (by rw [hcr3]; exact (h.books v hv).desc)), startOf_aligned v] at hA
      have hA' : A.toNat = top s v := (congrArg BitVec.toNat (Option.some.inj hA)).symm
      omega
  · exact hrel

section Frees

variable {u : State} {q k : Nat} (hu : Frees 4 vmms S v (s.give []) u s' (descPage s v))
include hu

/-- What is reached was reached before. -/
theorem Frees.reach {b : Holder} (hπ : Used 4 vmms S b π) (hx : pageAt s'.mem (rootOf b) π = some x) :
    pageAt s.mem (rootOf b) π = some x := by
  rw [hu.quiet.pageAt hπ] at hx
  rcases hu.acts.reach b π x hπ hx with hold | hnew | hno
  · exact hold
  · exact absurd hnew.1 List.not_mem_nil
  · exact hno.elim

theorem Frees.give_effect (h : Kept vmms S lives s) (hv : v ∈ vmms) : Effect 4 vmms S v s s' := by
  have heffect := hu.effect (h.give .nil) (h.desc_unused .nil hv).single
  exact ⟨heffect.single, heffect.other, heffect.top, heffect.kept, heffect.huge,
    ⟨heffect.globals.cr3, heffect.globals.current, heffect.globals.uefiPml4⟩⟩

/-- Freeing the pages writes to no descriptor. -/
theorem Frees.desc_mem (h : Kept vmms S lives s) (hv' : v' ∈ vmms) :
    u.mem (descPage s v') = s.mem (descPage s v') := by
  have hunused := h.desc_unused .nil hv'
  exact hu.acts.frame _ hunused.given (hunused.own v)

theorem Frees.desc_other (h : Kept vmms S lives s) (hv : v ∈ vmms) (hv' : v' ∈ vmms) (hne : v' ≠ v) :
    s'.mem (descPage s v') = s.mem (descPage s v') := by
  have hpage : descPage s v' ≠ v.page := fun heq =>
    (h.desc_unused .nil hv').single (heq ▸ h.page v hv)
  rw [hu.frame _ (h.descPage_ne hv hv' hne) hpage, hu.desc_mem h hv']

/-- `Address` stays. -/
theorem Frees.top (h : Kept vmms S lives s) (hv : v ∈ vmms) : Paging.top s' v = Paging.top s v := by
  have hfull : Used 4 vmms S (.space v) (indices (startOf v.isUser)) := used_indices hv (startOf_has v)
  have hsame : pageAt s'.mem v.pml4 (indices (startOf v.isUser)) = some (descPage s v) :=
    (hu.quiet.pageAt hfull).trans hu.desc
  have hpage : descPage s' v = descPage s v := by
    unfold descPage at hsame ⊢
    rw [hsame]
    rfl
  unfold Paging.top
  rw [hpage, hu.address, hu.desc_mem h hv]

/-- The range is no longer mapped, and everything else is as before. -/
theorem Frees.isSome (hv : v ∈ vmms) (ha : v.Has a)
    (hrange : pageAt u.mem v.pml4 (indices a) = if v = v ∧ q ≤ a / pageSize ∧ a / pageSize < q + k
      then none else pageAt s.mem v.pml4 (indices a)) :
    (pageAt s'.mem v.pml4 (indices a)).isSome = if q ≤ a / pageSize ∧ a / pageSize < q + k then false
      else (pageAt s.mem v.pml4 (indices a)).isSome := by
  have hsame := hu.quiet.pageAt (used_indices hv ha : Used 4 vmms S (.space v) (indices a))
  refine (congrArg Option.isSome (hsame.trans hrange)).trans ?_
  by_cases hin : q ≤ a / pageSize ∧ a / pageSize < q + k
  · rw [if_pos ⟨rfl, hin⟩, if_pos hin]
    rfl
  · rw [if_neg (fun hc => hin hc.2), if_neg hin]

end Frees

theorem Kept.free {size : Nat} (h : Kept vmms S lives s) (hv : v ∈ vmms) (hcur : s.current = v.page)
    (hr : r ∈ lives v.page) (hsize : pagesFor size * pageSize = r.size)
    (hm : vmmFree r.address size (s.give []) = some s') :
    Kept vmms S (afterFree lives v.page r) s' ∧ Effect 4 vmms S v s s' := by
  have hcore : Core 4 vmms S (s.give []) := h.give .nil
  have hbooks := h.books v hv
  have hcr3 : (s.give []).cr3 = v.pml4 := h.cr3 v hv hcur.symm
  obtain ⟨q, hq⟩ : ∃ q, r.address = q * pageSize := ⟨r.address / pageSize, by
    have := (hbooks.bounds r hr).aligned
    exact (Nat.div_mul_cancel (Nat.dvd_of_mod_eq_zero this)).symm⟩
  obtain rfl : r = ⟨q * pageSize, pagesFor size * pageSize⟩ := by
    rw [hsize, ← hq]
  have ha : ∀ j < pagesFor size, v.Has (q * pageSize + j * pageSize) := fun j hj => hbooks.has hr hj
  obtain ⟨s₂, s₃, hrel⟩ := h.releases hv hcur hr hm
  have hu : Frees 4 vmms S v (s.give []) (freePagesFrom (q * pageSize) 0 (pagesFor size) (s.give []))
      s' (descPage s v) :=
    Core.free hcore (by decide) le_rfl hv (h.page v hv) hcur hcr3 (h.words v hv).isUser
      (h.words v hv).descriptorOf hrel ha hbooks.desc (h.desc_unused .nil hv)
  have hinside : ∀ j < pagesFor size, ∃ x,
      pageAt s.mem v.pml4 (indices (q * pageSize + (0 + j) * pageSize)) = some x ∧ x ≠ 0 := by
    intro j hj
    rw [Nat.zero_add]
    exact h.has_page hv hr hj
  obtain ⟨hrange, htaken⟩ := Core.freePagesFrom_mapped (i := 0) hcore hv hcr3
    (fun j hj => by rw [Nat.zero_add]; exact ha j hj) hinside
  generalize freePagesFrom (q * pageSize) 0 (pagesFor size) (s.give []) = u at *
  rw [Nat.mul_div_cancel _ (by decide), Nat.add_zero] at hrange
  have heffect := hu.give_effect h hv
  refine ⟨h.step hv heffect hu.quiet.drop ?_ ?_ hu.vmm hu.isUser ?_ ?_, heffect⟩
  · intro k π x hπ hx
    rw [hu.quiet.taken, htaken x]
    have hold := hu.reach hπ hx
    refine ⟨h.taken k π x hπ hold, fun j hj hjx => ?_⟩
    -- the page would be one that has been unmapped
    rw [Nat.zero_add] at hjx
    obtain ⟨rfl, rfl⟩ := h.core.apart k π (.space v) _ x hπ (used_indices hv (ha j hj)) hold hjx
    rw [hu.quiet.pageAt hπ] at hx
    have hnone := hrange v hv _ (ha j hj)
    rw [if_pos ⟨rfl, by rw [← Nat.add_mul, Nat.mul_div_cancel _ (by decide)]; omega⟩] at hnone
    exact absurd (hnone.symm.trans hx) (by simp)
  · exact fun v' π x hπ hx => h.nonzero v' π x hπ (hu.reach (b := .space v') hπ hx)
  · intro v' hv' hne
    rw [hu.desc_other h hv hv' hne]
  · exact hbooks.free hr (fun a ha' => hu.isSome hv ha' (hrange v hv a ha')) (hu.top h hv)

end Paging

end Os003
