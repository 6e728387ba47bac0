import Os003.Mm.Separate
import Os003.Mm.Shortage

set_option autoImplicit false

/-! # `Vmm_Malloc` when memory runs out

Between its data pages `Vmm_Malloc` gives back what it has taken. `map_page` has no result, though:
when there is no page for a table, `walk_page_table` ends, the error is printed, and `Vmm_Malloc`
goes on and returns a range that is not mapped (`malloc_all_or_nothing`). An empty slot of a leaf
table takes a page as well, so that the last page of memory is never enough (`last_page_unmapped`).
-/

namespace Os003

namespace Paging

variable {a r i k size : Nat} {vmms : List Vmm} {S : Set Nat} {s s' : State} {v : Vmm}
  {pages ps : List Nat} {lives : Nat → List AllocRecord} {mem : Mem}

/-! ## All or nothing -/

/-- A range all of whose pages are translated, to different pages that have been allocated in between. -/
structure Backed (s s' : State) (r size : Nat) : Prop where
  range : r + size ≤ 2 ^ 64
  pages : ∃ ps : List Nat, ps.Nodup ∧ (∀ p ∈ ps, p ∉ s.taken ∧ p ∈ s'.taken) ∧
    ∀ o < size, ∃ p, ps[o / pageSize]? = some p ∧
      (s'.virtToPhys (r + o)).toNat = p * pageSize + o % pageSize

/-- Memory, with the descriptor, the records and the tables in it, is as it was, and so is what is
allocated. -/
structure Untouched (s s' : State) : Prop where
  mem : s'.mem = s.mem
  taken : s'.taken = s.taken
  globals : s.SameGlobals s'

/-- A call of `Vmm_Malloc` while the allocator has these pages left. -/
def AllOrNothing (s : State) (size : Nat) (pages : List Nat) : Prop :=
  ∃ r s', vmmMalloc size (s.give pages) = some (r, s') ∧
    (r ≠ 0 ∧ Backed s s' r size ∨ r = 0 ∧ Untouched s s')

/-- `Vmm_Malloc` returns before it asks for a page. -/
def Declined (s : State) (v : Vmm) (size : Nat) : Prop :=
  size = 0 ∨ endOf v.isUser < (top s v + pagesFor size * pageSize) % 2 ^ 64

/-- The pages are enough for the data, for the tables that are missing, and for the empty slots. -/
structure Suffices (s : State) (v : Vmm) (size : Nat) (pages : List Nat) : Prop where
  range : top s v + size ≤ 2 ^ 64
  enough : 2 * pagesFor size + (missing s.mem v.pml4 (top s v) (pagesFor size)).card ≤ pages.length

/-- A huge page translates an address of the range already, to one of the pages that the allocator
has left. -/
def Foreshadowed (s : State) (v : Vmm) (size : Nat) (pages : List Nat) : Prop :=
  ∃ o < size, (s.virtToPhys (top s v + o)).toNat / pageSize ∈ pages

/-! ## Calls that return `NULL` -/

theorem Kept.descriptor_loads (h : Kept vmms S lives s) (hv : v ∈ vmms) (hcur : s.current = v.page) :
    load (startOf v.isUser) (s.give pages) = some (s.mem (descPage s v) 0) :=
  load_eq (locate_desc (o := 0) (h.cr3 v hv hcur.symm) (h.books v hv).desc (by decide))

/-- `Vmm_Malloc` under the address space `v`. -/
theorem Kept.vmmMalloc_eq (h : Kept vmms S lives s) (hv : v ∈ vmms) (hcur : s.current = v.page)
    (hsize : size ≠ 0) : vmmMalloc size (s.give pages) =
      if endOf v.isUser < (top s v + pagesFor size * pageSize) % 2 ^ 64 then some (0, s.give pages)
      else
        match mallocPages (pagesFor size) [] (s.give pages) with
        | (none, s₁) => some (0, s₁)
        | (some ps, s₁) =>
            (addTo (startOf v.isUser) (BitVec.ofNat 64 (pagesFor size * pageSize))
                (mapRange (top s v) (flagOf s₁.mem s₁.current) 0 ps s₁)).bind fun s₂ =>
              (addTo (startOf v.isUser + 16) (BitVec.ofNat 64 (pagesFor size * pageSize)) s₂).bind fun s₃ =>
                (addTo (startOf v.isUser + 8) (BitVec.ofNat 64 (pagesFor size)) s₃).bind fun s₄ =>
                  some (top s v, writeRecord (top s v) (pagesFor size * pageSize) s₄) := by
  have hwords := h.words v hv
  have hdesc0 : startOf v.isUser ≠ 0 := by cases v.isUser <;> decide
  unfold vmmMalloc
  rw [show (s.give pages).current = v.page from hcur, give_mem, hwords.descriptorOf, hwords.isUser]
  simp only [hsize, hdesc0, if_false, Option.bind_eq_bind, Option.pure_def]
  rw [h.descriptor_loads hv hcur, Option.bind_some]
  rfl

theorem Kept.malloc_declined (h : Kept vmms S lives s) (hv : v ∈ vmms) (hcur : s.current = v.page)
    (hd : Declined s v size) : vmmMalloc size (s.give pages) = some (0, s.give pages) := by
  by_cases hsize : size = 0
  · simp [vmmMalloc, hsize]
  · rw [h.vmmMalloc_eq hv hcur hsize, if_pos (hd.resolve_left hsize)]

theorem Kept.malloc_short (h : Kept vmms S lives s) (hv : v ∈ vmms) (hcur : s.current = v.page)
    (hp : FreshFor s pages) (hd : ¬ Declined s v size) (hfew : pages.length < pagesFor size) :
    ∃ s', vmmMalloc size (s.give pages) = some (0, s') ∧ Untouched s s' := by
  obtain ⟨hsize, hbound⟩ := not_or.mp hd
  obtain ⟨T, hrun, hT⟩ := mallocPages_short (s := s.give pages) (g := []) (k := pagesFor size)
    (fun p hmem => ⟨(hp.fresh p hmem).1, (hp.fresh p hmem).2.1⟩) hfew
  refine ⟨{ s.give pages with supply := [], failed := true, taken := T }, ?_, rfl, ?_, rfl, rfl, rfl⟩
  · rw [h.vmmMalloc_eq hv hcur hsize, if_neg hbound, hrun]
  · ext x
    rw [hT x]
    constructor
    · exact And.left
    · exact fun hx => ⟨hx, fun hmem => (hp.fresh x hmem).2.2 hx⟩

/-! ## The range -/

theorem FreshFor.length_le (hp : FreshFor s pages) : pages.length ≤ 2 ^ 52 := by
  have hsub : pages.toFinset ⊆ Finset.range (2 ^ 52) := fun p hmem =>
    Finset.mem_range.mpr (hp.fresh p (List.mem_toFinset.mp hmem)).2.1
  have hcard := Finset.card_le_card hsub
  rwa [List.toFinset_card_of_nodup hp.nodup, Finset.card_range] at hcard

/-- The addresses of the range are in the half of the address space, or there are more of them than the
indices tell apart. -/
theorem Books.range_has {live : List AllocRecord} (h : Books v live s) (hd : ¬ Declined s v size)
    (hrange : top s v + size ≤ 2 ^ 64) :
    (∀ j < pagesFor size, v.Has (top s v + j * pageSize)) ∨ 2 ^ 51 < pagesFor size := by
  have hlow := h.low
  have hhigh := h.high
  have haligned := h.aligned
  have hbound := (not_or.mp hd).2
  have hpages : top s v + pagesFor size * pageSize ≤ 2 ^ 64 := by
    unfold pagesFor
    unfold pageSize at *
    omega
  rcases Nat.lt_or_eq_of_le hpages with hlt | heq
  · left
    intro j hj
    have hstep : (j + 1) * pageSize ≤ pagesFor size * pageSize := Nat.mul_le_mul_right _ hj
    rw [Nat.mod_eq_of_lt hlt] at hbound
    rw [Nat.add_mul] at hstep
    have hpos : 0 < pageSize := by decide
    exact has_of_range (by omega) (by omega)
  · cases hu : v.isUser with
    | false =>
        -- up to the last byte of the upper half
        left
        intro j hj
        have hstep : (j + 1) * pageSize ≤ pagesFor size * pageSize := Nat.mul_le_mul_right _ hj
        rw [Nat.add_mul] at hstep
        have hpos : 0 < pageSize := by decide
        have hstart : startOf false = 2 ^ 64 - 2 ^ 47 := rfl
        rw [hu] at hlow
        unfold Vmm.Has
        rw [if_neg (by simp [hu])]
        omega
    | true =>
        right
        have hend : endOf true = 2 ^ 47 - 1 := rfl
        rw [hu] at hhigh
        unfold pageSize at heq
        omega

/-- Bits 48 to 63 do not matter for the walk. -/
theorem virtToPhysOn_alias {root : Nat} : virtToPhysOn mem root (a + 2 ^ 48) = virtToPhysOn mem root a := by
  have h4 : pml4Index (a + 2 ^ 48) = pml4Index a := by unfold pml4Index; omega
  have h3 : pdptIndex (a + 2 ^ 48) = pdptIndex a := by unfold pdptIndex; omega
  have h2 : pdIndex (a + 2 ^ 48) = pdIndex a := by unfold pdIndex; omega
  have h1 : ptIndex (a + 2 ^ 48) = ptIndex a := by unfold ptIndex; omega
  have h39 : (a + 2 ^ 48) % 2 ^ 39 = a % 2 ^ 39 := by omega
  have h30 : (a + 2 ^ 48) % 2 ^ 30 = a % 2 ^ 30 := by omega
  have h21 : (a + 2 ^ 48) % 2 ^ 21 = a % 2 ^ 21 := by omega
  have h12 : (a + 2 ^ 48) % 2 ^ 12 = a % 2 ^ 12 := by omega
  unfold virtToPhysOn
  rw [h4, h3, h2, h1, h39, h30, h21, h12]

/-- The pages behind so many addresses are not different. -/
theorem Backed.size_le (h : Backed s s' r size) : size ≤ 2 ^ 48 := by
  by_contra hlt
  obtain ⟨ps, hnodup, -, hps⟩ := h.pages
  obtain ⟨p, hp, hphys⟩ := hps 0 (by omega)
  obtain ⟨q, hq, hphys'⟩ := hps (2 ^ 48) (by omega)
  unfold State.virtToPhys at hphys hphys'
  rw [Nat.add_zero] at hphys
  rw [virtToPhysOn_alias, hphys] at hphys'
  have hpq : p = q := by
    unfold pageSize at hphys'
    omega
  subst hpq
  obtain ⟨hlen, -⟩ := List.getElem?_eq_some_iff.mp hp
  have hsame := (List.getElem?_inj hlen hnodup).mp (hp.trans hq.symm)
  unfold pageSize at hsame
  omega

/-- Behind the allocations nothing is mapped. -/
theorem Books.unmapped {live : List AllocRecord} (h : Books v live s) (ha : v.Has a) (hlow : top s v ≤ a) :
    pageAt s.mem v.pml4 (indices a) = none := by
  rw [← Option.not_isSome_iff_eq_none, h.mapped a ha]
  have hstart := h.low
  have haligned := startOf_aligned v
  have haligned' := h.aligned
  rintro (hpage | ⟨r, hr, hpage⟩)
  · unfold pageSize at *
    omega
  · have hhigh := (h.bounds r hr).high
    unfold AllocRecord.HasPage at hpage
    have hsize := (h.bounds r hr).size.2
    have hbase := (h.bounds r hr).aligned
    unfold pageSize at *
    omega

/-! ## Calls that get their data pages -/

/-- The data pages of a call of `Vmm_Malloc`, in the state `s₁` behind the loop that takes them. -/
structure DataPages (vmms : List Vmm) (S : Set Nat) (v : Vmm) (s : State) (pages : List Nat) (k : Nat)
    (ps : List Nat) (s₁ : State) : Prop where
  run : mallocPages k [] (s.give pages) = (some ps, s₁)
  length : ps.length = k
  nodup : ps.Nodup
  mem : s₁.mem = s.mem
  failed : s₁.failed = false
  rest : s₁.supply.length + k = pages.length
  acts : Acts 4 vmms S v (fun p => p ∈ ps) (s.give pages) s₁
  takes : Takes (s.give pages) s₁
  page : ∀ p ∈ ps, p ∈ pages ∧ p < 2 ^ 52 ∧ Loose 4 vmms S s₁ p

theorem Kept.dataPages (h : Kept vmms S lives s) (hp : FreshFor s pages) (v : Vmm)
    (hlen : k ≤ pages.length) : ∃ ps s₁, DataPages vmms S v s pages k ps s₁ := by
  have hcore : Core 4 vmms S (s.give pages) := h.give hp
  have hzero : ∀ p ∈ (s.give pages).supply, p ≠ 0 := fun p hmem => (hp.fresh p hmem).1
  have hpays : Pays k (s.give pages) (mallocPages k [] (s.give pages)).2 := pays_mallocPages hzero hlen
  have hok : (mallocPages k [] (s.give pages)).2.failed = false := hpays.failed
  obtain ⟨ps', T, -, -, -, hspec⟩ := mallocPages_spec hzero hok
  obtain ⟨ps, s₁, hrun, hlength, hmem, hfailed, hacts, htakes, hnodup, hpage⟩ :=
    Core.mallocPages (D := fun p => p ∈ ps') hcore v hok
  rw [hspec, List.nil_append] at hrun
  obtain ⟨hps, rfl⟩ := Prod.mk.inj hrun
  obtain rfl := Option.some.inj hps
  refine ⟨ps', _, hspec, hlength, hnodup, hmem, hfailed, ?_, hacts, htakes, fun p hp' => ?_⟩
  · show (pages.drop k).length + k = pages.length
    rw [List.length_drop]
    omega
  · obtain ⟨hmem, -, hp52, -, hloose⟩ := hpage p hp'
    exact ⟨hmem, hp52, hloose⟩

theorem DataPages.flag {s₁ : State} (hd : DataPages vmms S v s pages k ps s₁)
    (h : Kept vmms S lives s) (hv : v ∈ vmms) (hcur : s.current = v.page) :
    (flagOf s₁.mem s₁.current).toNat < pageSize := by
  rw [hd.mem, hd.acts.globals.current, show (s.give pages).current = v.page from hcur]
  unfold flagOf
  rw [(h.words v hv).flag]
  exact (h.bits v hv).1

/-- A call that has its data pages does not return `NULL` any more. -/
theorem DataPages.result {s₁ : State} (hd : DataPages vmms S v s pages (pagesFor size) ps s₁)
    (h : Kept vmms S lives s) (hv : v ∈ vmms) (hcur : s.current = v.page) (hdecl : ¬ Declined s v size)
    (hm : vmmMalloc size (s.give pages) = some (r, s')) : r = top s v := by
  obtain ⟨hsize, hbound⟩ := not_or.mp hdecl
  rw [h.vmmMalloc_eq hv hcur hsize, if_neg hbound, hd.run] at hm
  obtain ⟨s₂, -, hm⟩ := Option.bind_eq_some_iff.mp hm
  obtain ⟨s₃, -, hm⟩ := Option.bind_eq_some_iff.mp hm
  obtain ⟨s₄, -, hm⟩ := Option.bind_eq_some_iff.mp hm
  exact (Prod.mk.inj (Option.some.inj hm)).1.symm

/-- The range is mapped when the pages are enough, and otherwise its walks run out of pages. -/
theorem DataPages.mapped_or_starved {s₁ : State} {flags : Word}
    (hd : DataPages vmms S v s pages k ps s₁) (h : Kept vmms S lives s) (hv : v ∈ vmms)
    (hcur : s.current = v.page) (hflags : flags.toNat < pageSize)
    (ha : ∀ j < k, v.Has (top s v + j * pageSize)) :
    (2 * k + (missing s.mem v.pml4 (top s v) k).card ≤ pages.length ∧
      (mapRange (top s v) flags 0 ps s₁).failed = false) ∨
    (pages.length < 2 * k + (missing s.mem v.pml4 (top s v) k).card ∧
      ∃ j < k, ∃ u, Starved vmms S v (fun p => p ∈ ps) (top s v) k (top s v + j * pageSize) s₁ u ∧
        mapRange (top s v) flags 0 ps s₁ = u.mallocPage.2) := by
  have hcr3 : s₁.cr3 = v.pml4 := hd.acts.globals.cr3.trans (h.cr3 v hv hcur.symm)
  have hhas : ∀ j < ps.length, v.Has (top s v + (0 + j) * pageSize) := fun j hj => by
    rw [Nat.zero_add]
    exact ha j (hd.length ▸ hj)
  have hnone : ∀ j < ps.length,
      pageAt s₁.mem v.pml4 (indices (top s v + (0 + j) * pageSize)) = none := fun j hj => by
    rw [hd.mem]
    exact (h.books v hv).unmapped (hhas j hj) (Nat.le_add_right _ _)
  have hcounted := hd.acts.core.mapRange_counted hv hcr3 hhas hnone
    ⟨hflags, hd.nodup, fun p hp => (hd.page p hp).2⟩ hd.failed
  rw [hd.length, hd.mem, Nat.zero_mul, Nat.add_zero] at hcounted
  have hrest := hd.rest
  rcases hcounted with ⟨henough, hdone⟩ | ⟨hfew, j, hj, u, hstarved, hend⟩
  · exact .inl ⟨by omega, hdone⟩
  · rw [Nat.zero_add] at hstarved
    exact .inr ⟨by omega, j, hj, u, hstarved, hend⟩

theorem Kept.top_ne_zero (h : Kept vmms S lives s) (hv : v ∈ vmms) : top s v ≠ 0 := by
  have hlow := (h.books v hv).low
  have hpos : 0 < pageSize := by decide
  omega

/-- The bytes of a range that does not wrap are in its pages. -/
theorem page_lt {o : Nat} (hsize : size + pageSize ≤ 2 ^ 64) (ho : o < size) :
    o / pageSize < pagesFor size := by
  unfold pagesFor
  unfold pageSize at *
  omega

theorem Suffices.small (hs : Suffices s v size pages) (h : Kept vmms S lives s) (hv : v ∈ vmms) :
    size + pageSize ≤ 2 ^ 64 := by
  have hlow := (h.books v hv).low
  have hrange := hs.range
  omega

/-- A call with enough pages. -/
theorem Kept.malloc_backed (h : Kept vmms S lives s) (hv : v ∈ vmms) (hcur : s.current = v.page)
    (hp : FreshFor s pages) (hdecl : ¬ Declined s v size) (hs : Suffices s v size pages)
    (hrec : RecordUnused vmms S s pages) :
    ∃ s', vmmMalloc size (s.give pages) = some (top s v, s') ∧ Backed s s' (top s v) size := by
  have hbooks := h.books v hv
  have hwords := h.words v hv
  have hcr3 : (s.give pages).cr3 = v.pml4 := h.cr3 v hv hcur.symm
  have henough := hs.enough
  have hmany := hp.length_le
  have hsmall := hs.small h hv
  obtain ⟨hsize, hbound⟩ := not_or.mp hdecl
  have ha : ∀ j < pagesFor size, v.Has (top s v + j * pageSize) :=
    (hbooks.range_has hdecl hs.range).resolve_right (by omega)
  -- the pages are there, and so are those for the tables
  obtain ⟨ps, s₁, hd⟩ := h.dataPages hp v (show pagesFor size ≤ pages.length by omega)
  have hflag := hd.flag h hv hcur
  have hok : (mapRange (top s v) (flagOf s₁.mem s₁.current) 0 ps s₁).failed = false := by
    rcases hd.mapped_or_starved h hv hcur hflag ha with ⟨-, hok⟩ | ⟨hfew, -⟩
    · exact hok
    · omega
  obtain ⟨s', hm, hok'⟩ := (h.give hp).granted_runs (by decide) le_rfl hv hcur hcr3 hwords.descriptorOf
    hwords.isUser hsize hbooks.desc (h.desc_unused hp hv) hbound ha hd.run hflag hok
  refine ⟨s', hm, hs.range, ps, hd.nodup, ?_⟩
  -- what `Vmm_Malloc` returns is what the granted call maps
  rcases vmmMalloc_cases hm with ⟨hnull, -⟩ | ⟨A, ps', s₁', s₂, s₃, s₄, hg⟩
  · exact absurd hnull (h.top_ne_zero hv)
  obtain ⟨hps, -⟩ := Prod.mk.inj (hd.run.symm.trans hg.pages)
  obtain rfl := Option.some.inj hps
  have hA := h.granted_address hv hcur hg
  obtain ⟨u, e, hmalloc⟩ := Core.malloc (v := v) (h.give hp) (by decide) le_rfl hv (h.page v hv) hcur hcr3
    (by rw [give_mem]; unfold flagOf; rw [hwords.flag]; exact (h.bits v hv).1)
    hwords.descriptorOf hwords.allocRecord hg hok' (fun j hj => by rw [hA]; exact ha j hj) hbooks.desc
    (h.desc_unused hp hv) hrec.unused
  rw [hA] at hmalloc
  have hcr3' : s'.cr3 = v.pml4 :=
    hmalloc.quiet.globals.cr3.trans (hmalloc.acts.globals.cr3.trans hcr3)
  refine ⟨fun p hp' => ⟨(hp.fresh p (hd.page p hp').1).2.2, ?_⟩, fun o ho => ?_⟩
  · rw [hmalloc.quiet.taken]
    exact (hmalloc.page p hp').2.2.2
  · -- the byte `o` is in the page with that number
    have hpage := page_lt hsmall ho
    have haligned := hbooks.aligned
    have hin : (top s v + o) / pageSize = top s v / pageSize + o / pageSize := by
      unfold pageSize at *
      omega
    have hhas : v.Has (top s v + o) := by
      refine (ha _ hpage).congr ?_
      rw [hin, Nat.add_mul_div_right _ _ (by decide)]
    have hmapped := hmalloc.mapped v hv (top s v + o) hhas
    rw [hin, hd.length, if_pos ⟨rfl, Nat.le_add_right _ _, Nat.add_lt_add_left hpage _⟩,
      Nat.add_sub_cancel_left] at hmapped
    obtain ⟨p, hp'⟩ : ∃ p, ps[o / pageSize]? = some p :=
      ⟨_, List.getElem?_eq_getElem (by rw [hd.length]; exact hpage)⟩
    have hspace := hmalloc.quiet.space v (indices (top s v + o)) le_rfl
      (inner_indices (by decide) hv hhas)
    refine ⟨p, hp', ?_⟩
    unfold State.virtToPhys
    rw [hcr3', virtToPhysOn_pageAt (hspace.trans (hmapped.trans hp'))]
    unfold pageSize at *
    omega

/-! ## Calls that run out of pages for tables -/

/-- What is translated behind the call was translated before. -/
def Remains (s s' : State) (root a : Nat) : Prop :=
  ∀ e, leafOf s'.mem 0 root (indices a) = some e → leafOf s.mem 0 root (indices a) = some e

theorem Remains.virtToPhys {root : Nat} (h : Remains s s' root a)
    (hne : virtToPhysOn s'.mem root a ≠ 0) : virtToPhysOn s'.mem root a = virtToPhysOn s.mem root a := by
  rw [virtToPhysOn_eq] at hne
  rw [virtToPhysOn_eq, virtToPhysOn_eq]
  cases he : leafOf s'.mem 0 root (indices a) with
  | none =>
      rw [he] at hne
      exact absurd rfl hne
  | some e => rw [h e he]

/-- The descriptor and the record are written, after the page at `a` has not been mapped. -/
theorem Starved.remains {u s₂ s₃ s₄ : State} {b virt : Nat} {D : Set Nat} {w₁ w₂ w₃ : Word} {d : Nat}
    (hst : Starved vmms S v D b k a s u) (hv : v ∈ vmms) (hS : v.page ∈ S) (ha : v.Has a)
    (hcur : u.current = v.page) (hcr3 : u.cr3 = v.pml4) (hcore : Core 4 vmms S u.mallocPage.2)
    (hd : pageAt u.mallocPage.2.mem v.pml4 (indices (startOf v.isUser)) = some d)
    (hown : ∀ v', ¬ Own 4 vmms S u.mallocPage.2 v' d)
    (h₂ : addTo (startOf v.isUser) w₁ u.mallocPage.2 = some s₂)
    (h₃ : addTo (startOf v.isUser + 16) w₂ s₂ = some s₃)
    (h₄ : addTo (startOf v.isUser + 8) w₃ s₃ = some s₄) (hvirt : virt % pageSize = 0) {bytes : Nat}
    (hbytes : bytes % pageSize = 0) :
    Remains s (writeRecord virt bytes s₄) v.pml4 a ∧
      (writeRecord virt bytes s₄).taken = u.taken ∧ (writeRecord virt bytes s₄).cr3 = v.pml4 := by
  have hglobals := u.sameGlobals_mallocPage
  obtain ⟨hquiet, -, -⟩ := hcore.fields (by decide) le_rfl hv (hglobals.cr3.trans hcr3) hd hown h₂ h₃ h₄
  have hcur₄ : s₄.current = v.page := hquiet.globals.current.trans (hglobals.current.trans hcur)
  have hused : ∀ σ i ρ, indices a = σ ++ i :: ρ → σ.length ≤ 3 → Used 4 vmms S (.space v) σ := by
    intro σ i ρ hσ _
    exact used_closed.inner (used_indices hv ha) σ i ρ hσ
  refine ⟨fun e he => hst.leaf_before hv ha ?_, ?_, ?_⟩
  · -- from the end back to the state in which the walk is stuck
    have h₄' : leafOf s₄.mem 0 v.pml4 (indices a) = some e := by
      refine leafOf_fades (by decide) (fun σ i ρ x hσ hlen hx => ?_) he
      refine writeRecord_fades hvirt hbytes ?_ i
      rintro rfl
      exact hquiet.core.not_own_single (hcur₄ ▸ hS) v ⟨σ, hused σ i ρ hσ (by omega), by omega, hx⟩
    have hu' : leafOf u.mallocPage.2.mem 0 v.pml4 (indices a) = some e := by
      refine leafOf_fades (by decide) (fun σ i ρ x hσ hlen hx => .inl ?_) h₄'
      rw [hquiet.tables v x ⟨σ, hused σ i ρ hσ (by omega), by omega, hx⟩]
    refine leafOf_fades (by decide) (fun σ i ρ x _ _ _ => ?_) hu'
    rw [State.mallocPage_nil hst.supply]
    by_cases hx0 : x = 0
    · subst hx0
      right
      simp only [Function.update_self]
      exact present_zero
    · left
      simp [hx0]
  · show s₄.taken = u.taken
    rw [hquiet.taken, State.mallocPage_nil hst.supply]
  · exact hquiet.globals.cr3.trans (hglobals.cr3.trans hcr3)

/-- A call with enough data pages, but too few for the tables. -/
theorem Kept.malloc_starved (h : Kept vmms S lives s) (hv : v ∈ vmms) (hcur : s.current = v.page)
    (hp : FreshFor s pages) (hlen : pagesFor size ≤ pages.length)
    (hfew : pages.length < 2 * pagesFor size + (missing s.mem v.pml4 (top s v) (pagesFor size)).card)
    (ha : ∀ j < pagesFor size, v.Has (top s v + j * pageSize))
    (hm : vmmMalloc size (s.give pages) = some (r, s')) (hr : r ≠ 0) :
    r = top s v ∧ s'.cr3 = v.pml4 ∧ (∀ x ∈ s'.taken, x ∈ s.taken ∨ x ∈ pages) ∧
      ∃ j < pagesFor size, Remains s s' v.pml4 (top s v + j * pageSize) := by
  have hbooks := h.books v hv
  obtain ⟨ps, s₁, hd⟩ := h.dataPages hp v hlen
  rcases vmmMalloc_cases hm with ⟨hnull, -⟩ | ⟨A, ps', s₁', s₂, s₃, s₄, hg⟩
  · exact absurd hnull hr
  obtain ⟨hps, rfl⟩ := Prod.mk.inj (hd.run.symm.trans hg.pages)
  obtain rfl := Option.some.inj hps
  have hA : A.toNat = top s v := h.granted_address hv hcur hg
  obtain ⟨-, j, hj, u, hst, hend⟩ := (hd.mapped_or_starved h hv hcur (hd.flag h hv hcur) ha).resolve_left
    (fun henough => absurd henough.1 (by omega))
  have hstart : descriptorOf (s.give pages).mem (s.give pages).current = startOf v.isUser := by
    rw [show (s.give pages).current = v.page from hcur]
    exact (h.words v hv).descriptorOf
  obtain ⟨-, -, -, -, h₂, h₃, h₄, hresult, hrecord⟩ := hg
  rw [hstart] at h₂ h₃ h₄
  rw [hA, hend] at h₂
  rw [hA] at hresult hrecord
  have hacts : Acts 4 vmms S v (fun p => p ∈ ps) (s.give pages) u := hd.acts.trans hst.acts
  have hcr3 : u.cr3 = v.pml4 := hacts.globals.cr3.trans (h.cr3 v hv hcur.symm)
  have hzero : ∀ v' π x, Used 4 vmms S (.space v') π → pageAt u.mem v'.pml4 π = some x → x ≠ 0 := by
    intro v' π x hπ hx
    rcases hacts.reach (.space v') π x hπ hx with hold | hnew | hmem
    · exact h.nonzero v' π x hπ hold
    · exact (hp.fresh x hnew.1).1
    · exact (hp.fresh x (hd.page x hmem).1).1
  obtain ⟨hcore, hspace⟩ := hst.acts.core.starve hst.supply hzero
  -- the descriptor is where it was
  have hdesc : pageAt u.mem v.pml4 (indices (startOf v.isUser)) = some (descPage s v) := by
    rw [hst.outside _ (startOf_has v) ?_, hd.mem]
    · exact hbooks.desc
    · have hlow := hbooks.low
      have haligned := startOf_aligned v
      unfold pageSize at *
      omega
  have hown : ∀ v', ¬ Own 4 vmms S u.mallocPage.2 v' (descPage s v) := by
    rintro v' ⟨π, hπ, hπlen, hx⟩
    have hunused := h.desc_unused hp hv
    rcases hacts.own (h.give hp) ⟨π, hπ, hπlen, (hspace v' π hπ).symm.trans hx⟩ with hold | hnew
    · exact hunused.own v' hold
    · exact hunused.given hnew.1
  obtain ⟨hremains, htaken, hcr3'⟩ := hst.remains hv (h.page v hv) (ha j hj)
    (hacts.globals.current.trans hcur) hcr3 hcore
    ((hspace v _ (used_indices hv (startOf_has v))).trans hdesc) hown h₂ h₃ h₄ hbooks.aligned
    (Nat.mul_mod_left (pagesFor size) pageSize)
  rw [← hrecord] at hremains htaken hcr3'
  refine ⟨hresult, hcr3', fun x hx => ?_, j, hj, fun e he => ?_⟩
  · rw [htaken] at hx
    have htakes := hd.takes.trans hst.takes hd.acts.supply hst.acts.supply
    exact ((htakes x).mp hx).imp_right And.left
  · rw [← hd.mem]
    exact hremains e he

/-- Of the range that such a call returns some page is not translated to a new one. -/
theorem Kept.starved_not_backed (h : Kept vmms S lives s) (hv : v ∈ vmms) (hcur : s.current = v.page)
    (hp : FreshFor s pages) (hdecl : ¬ Declined s v size) (hlen : pagesFor size ≤ pages.length)
    (hfew : ¬ Suffices s v size pages) (hnew : ¬ Foreshadowed s v size pages)
    (hm : vmmMalloc size (s.give pages) = some (top s v, s')) : ¬ Backed s s' (top s v) size := by
  intro hb
  have hbooks := h.books v hv
  have hlow := hbooks.low
  have hsize := hb.size_le
  have hpos := Nat.pos_of_ne_zero (not_or.mp hdecl).1
  have hk : pagesFor size * pageSize < size + pageSize ∧ pagesFor size ≤ 2 ^ 51 := by
    unfold pagesFor
    unfold pageSize at *
    omega
  have hfit : ¬ 2 ^ 51 < pagesFor size := Nat.not_lt.mpr hk.2
  have ha : ∀ j < pagesFor size, v.Has (top s v + j * pageSize) :=
    (hbooks.range_has hdecl hb.range).resolve_right hfit
  obtain ⟨-, hcr3, htaken, j, hj, hremains⟩ := h.malloc_starved hv hcur hp hlen
    (Nat.lt_of_not_le fun henough => hfew ⟨hb.range, henough⟩) ha hm (h.top_ne_zero hv)
  obtain ⟨ps, -, hfresh, hbytes⟩ := hb.pages
  -- the first byte of the page whose walk has got stuck
  have hstep : (j + 1) * pageSize ≤ pagesFor size * pageSize := Nat.mul_le_mul_right _ hj
  rw [Nat.add_mul, Nat.one_mul] at hstep
  have hin : j * pageSize < size := by omega
  obtain ⟨p, hmem, hphys⟩ := hbytes (j * pageSize) hin
  obtain ⟨hold, hgiven⟩ := hfresh p (List.mem_of_getElem? hmem)
  have hpage : p ∈ pages := (htaken p hgiven).resolve_left hold
  unfold State.virtToPhys at hphys
  rw [hcr3, Nat.mul_mod_left, Nat.add_zero] at hphys
  have hne : virtToPhysOn s'.mem v.pml4 (top s v + j * pageSize) ≠ 0 := by
    intro h0
    rw [h0, show (0 : Word).toNat = 0 from rfl] at hphys
    have hprod : 0 < p * pageSize :=
      Nat.mul_pos (Nat.pos_of_ne_zero (hp.fresh p hpage).1) (by decide)
    omega
  rw [hremains.virtToPhys hne] at hphys
  refine hnew ⟨j * pageSize, hin, ?_⟩
  unfold State.virtToPhys
  rw [h.cr3 v hv hcur.symm, hphys, Nat.mul_div_cancel _ (by decide)]
  exact hpage

/-- `Vmm_Malloc` is all or nothing when it is turned down, when memory is too small for the data
pages, or when it is enough for the tables too; and hardly ever otherwise. -/
theorem malloc_all_or_nothing (h : Kept vmms S lives s) (hv : v ∈ vmms) (hcur : s.current = v.page)
    (hp : FreshFor s pages) (size : Nat) :
    (Declined s v size ∨ pages.length < pagesFor size ∨
        Suffices s v size pages ∧ RecordUnused vmms S s pages → AllOrNothing s size pages) ∧
    (AllOrNothing s size pages → Declined s v size ∨ pages.length < pagesFor size ∨
        Suffices s v size pages ∨ Foreshadowed s v size pages) := by
  constructor
  · intro hcond
    by_cases hdecl : Declined s v size
    · exact ⟨0, _, h.malloc_declined hv hcur hdecl, .inr ⟨rfl, rfl, rfl, rfl, rfl, rfl⟩⟩
    · rcases hcond.resolve_left hdecl with hfew | ⟨hs, hrec⟩
      · obtain ⟨s', hm, huntouched⟩ := h.malloc_short hv hcur hp hdecl hfew
        exact ⟨0, s', hm, .inr ⟨rfl, huntouched⟩⟩
      · obtain ⟨s', hm, hbacked⟩ := h.malloc_backed hv hcur hp hdecl hs hrec
        exact ⟨top s v, s', hm, .inl ⟨h.top_ne_zero hv, hbacked⟩⟩
  · rintro ⟨r, s', hm, hresult⟩
    by_contra hcond
    simp only [not_or] at hcond
    obtain ⟨hdecl, hlen, hfew, hnew⟩ := hcond
    obtain ⟨ps, s₁, hd⟩ := h.dataPages hp v (Nat.le_of_not_lt hlen)
    obtain rfl := hd.result h hv hcur hdecl hm
    have hbacked : Backed s s' (top s v) size := by
      rcases hresult with ⟨-, hbacked⟩ | ⟨hnull, -⟩
      · exact hbacked
      · exact absurd hnull (h.top_ne_zero hv)
    exact h.starved_not_backed hv hcur hp hdecl (Nat.le_of_not_lt hlen) hfew hnew hm hbacked

/-! ## One allocation of the user VMM -/

variable {m : Spaces}

theorem Filled.first (h : Filled 0 lives m) :
    Kept m.vmms (m.singles (firmwareTables bare.state)) lives m.state ∧
    program ∈ m.vmms ∧ m.state.current = program.page :=
  ⟨h.coherent.kept, by rw [h.vmms]; exact List.mem_singleton_self _, h.current⟩

/-- The first byte that can be allocated. -/
theorem Filled.bounded (h : Filled 0 lives m) : ¬ Declined m.state program 1 := by
  unfold Declined
  rw [h.top]
  decide

/-- Five pages are enough for the first page. -/
theorem malloc_all_or_nothing_five : ∃ lives m, Filled 0 lives m ∧
    AllOrNothing m.state 1 (callPages 0) := by
  obtain ⟨lives, m, -, h⟩ := filled_zero
  obtain ⟨hkept, hv, hcur⟩ := h.first
  have hp := h.freshFor (by decide)
  have hsuffices : Suffices m.state program 1 (callPages 0) := by
    refine ⟨by rw [h.top]; decide, ?_⟩
    have hcard : (missing m.state.mem program.pml4 (top m.state program) (pagesFor 1)).card ≤
        3 * pagesFor 1 := card_missing_le
    have hone : pagesFor 1 = 1 := by decide
    rw [hone] at hcard ⊢
    show _ ≤ 5
    omega
  exact ⟨lives, m, h, (malloc_all_or_nothing hkept hv hcur hp 1).1
    (.inr (.inr ⟨hsuffices, h.recordUnused (by decide) hp⟩))⟩

/-- With one page left the range is returned, and its page is not mapped. -/
theorem last_page_unmapped : ∃ lives m, Filled 0 lives m ∧ FreshFor m.state [100] ∧
    (vmmMalloc 1 (m.state.give [100])).map (fun r => (r.1, r.2.virtToPhys r.1)) =
      some (userVirtualMemoryStart + pageSize, 0) ∧ ¬ AllOrNothing m.state 1 [100] := by
  obtain ⟨lives, m, hopened, h⟩ := filled_zero
  obtain ⟨hkept, hv, hcur⟩ := h.first
  have hp : FreshFor m.state [100] := by
    refine ⟨by decide, fun p hp => ?_⟩
    obtain rfl := List.mem_singleton.mp hp
    refine ⟨by decide, by decide, fun hmem => ?_⟩
    have := h.taken 100 hmem
    omega
  have hall : (opened.bind fun m => vmmMalloc 1 (m.state.give [100])).map
      (fun r => ((r.1, r.2.virtToPhys r.1), decide (0 ∈ r.2.taken))) =
      some ((userVirtualMemoryStart + pageSize, 0), false) := by
    decide +kernel
  rw [hopened, Option.bind_some] at hall
  obtain ⟨⟨r, s'⟩, hm, hvalues⟩ := Option.map_eq_some_iff.mp hall
  obtain ⟨hvalues, htaken⟩ := Prod.mk.inj hvalues
  refine ⟨lives, m, h, hp, by rw [hm, Option.map_some, hvalues], ?_⟩
  obtain ⟨rfl, hphys⟩ := Prod.mk.inj hvalues
  rintro ⟨r, s'', hm', hresult⟩
  obtain ⟨rfl, rfl⟩ := Prod.mk.inj (Option.some.inj (hm.symm.trans hm'))
  rcases hresult with ⟨-, hb⟩ | ⟨hnull, -⟩
  · -- the page behind the first byte would be the page 0
    obtain ⟨ps, -, hfresh, hbytes⟩ := hb.pages
    obtain ⟨p, hmem, hp0⟩ := hbytes 0 (by decide)
    rw [Nat.add_zero, hphys] at hp0
    have hzero : p = 0 := by
      have hphys0 : (0 : Word).toNat = 0 := rfl
      rw [hphys0] at hp0
      unfold pageSize at hp0
      omega
    exact of_decide_eq_false htaken (hzero ▸ (hfresh p (List.mem_of_getElem? hmem)).2)
  · cases hnull

end Paging

end Os003
