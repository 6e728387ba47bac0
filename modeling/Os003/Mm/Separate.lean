import Os003.Mm.Enough
import Os003.Mm.SpaceOps

set_option autoImplicit false

/-! # Virtual allocations are separate

Any number of address spaces, and calls of `Vmm_Malloc` and of `Vmm_Free` for live allocations under
the current one: the live allocations of an address space are disjoint, and each of their pages is
backed by a page of its own that is no page table (`allocations_separate`).

That holds as long as the record of an allocation goes to a page that is used for nothing. With 256 live
allocations it goes to the page 1, and when that is the PML4 of an address space, the pages that have been
mapped there are lost (`allocations_lost`).
-/

namespace Os003

namespace Paging

variable {a p r x i : Nat} {vmms : List Vmm} {S F : Set Nat} {s s' : State} {v v' : Vmm}
  {π pages : List Nat} {m m' m₀ : Spaces} {lives : Nat → List AllocRecord} {op : SpaceOp}

/-! ## The claim -/

/-- The tables below `UEFI_PML4`. -/
def firmwareTables (s : State) : Set Nat :=
  fun x => ∃ π, Within 3 π ∧ pageAt s.mem s.uefiPml4 π = some x

/-- Before the first address space is made. -/
structure Start (m : Spaces) : Prop where
  vmms : m.vmms = []
  current : m.state.current = 0
  /-- The tables of the firmware are allocated. -/
  taken : ∀ x ∈ firmwareTables m.state, x ∈ m.state.taken
  upper : ∀ i, 256 ≤ i → i < 512 → present (m.state.mem m.state.uefiPml4 i) = false

/-- A call is made as the kernel does: the allocator gives pages that are not allocated, flags are
those of an entry, sizes do not wrap, and what is freed is a live allocation with its size. -/
def SpaceOp.Lawful (lives : Nat → List AllocRecord) (m : Spaces) : SpaceOp → Prop
  | init isUser flag pages => flag < pageSize ∧ FreshFor m.state pages ∧
      (init isUser flag pages).Succeeds m
  | switch vmm => ∃ v ∈ m.vmms, v.page = vmm
  | malloc size pages => m.state.current ≠ 0 ∧ FreshFor m.state pages ∧
      (malloc size pages).Succeeds m ∧ size + pageSize ≤ 2 ^ 64 ∧
      ∀ v ∈ m.vmms, v.page = m.state.current →
        top m.state v + pagesFor size * pageSize < 2 ^ 64
  | free virt size => ⟨virt, pagesFor size * pageSize⟩ ∈ lives m.state.current ∧
      m.state.current ≠ 0
  | _ => False

/-- The live allocations, by the pages of the `VMM_T`s. -/
def ledger (lives : Nat → List AllocRecord) (m : Spaces) (r : Nat) : SpaceOp → Nat → List AllocRecord
  | .init _ _ _ => if r = 0 then lives else Function.update lives r []
  | .malloc size _ => afterMalloc lives m.state.current size r
  | .free virt size => afterFree lives m.state.current ⟨virt, pagesFor size * pageSize⟩
  | _ => lives

/-- A page is a table of an address space or of the firmware. -/
def Spaces.IsTable (m : Spaces) (x : Nat) : Prop :=
  x ∈ firmwareTables m.state ∨
    ∃ v ∈ m.vmms, ∃ π, Within 3 π ∧ pageAt m.state.mem v.pml4 π = some x

/-- An address of a live allocation. -/
def LiveAt (lives : Nat → List AllocRecord) (v : Vmm) (a : Nat) : Prop :=
  ∃ r ∈ lives v.page, r.address ≤ a ∧ a < r.address + r.size

/-- The physical page behind an address. -/
def Spaces.frameAt (m : Spaces) (v : Vmm) (a : Nat) : Nat :=
  (virtToPhysOn m.state.mem v.pml4 a).toNat / pageSize

structure Separated (lives : Nat → List AllocRecord) (m : Spaces) : Prop where
  disjoint : ∀ v ∈ m.vmms, (lives v.page).Pairwise Disjoint
  bounds : ∀ v ∈ m.vmms, ∀ r ∈ lives v.page,
    startOf v.isUser + pageSize ≤ r.address ∧ r.address + r.size ≤ endOf v.isUser
  mapped : ∀ v ∈ m.vmms, ∀ a, LiveAt lives v a → virtToPhysOn m.state.mem v.pml4 a ≠ 0
  backed : ∀ v ∈ m.vmms, ∀ v' ∈ m.vmms, ∀ a a', LiveAt lives v a → LiveAt lives v' a' →
    m.frameAt v a = m.frameAt v' a' → v = v' ∧ a / pageSize = a' / pageSize
  tables : ∀ v ∈ m.vmms, ∀ a, LiveAt lives v a → ¬ m.IsTable (m.frameAt v a)

/-- The pages that are used on their own: the tables of the firmware, and the `VMM_T`s. -/
def Spaces.singles (F : Set Nat) (m : Spaces) : Set Nat :=
  fun x => x ∈ F ∨ ∃ v ∈ m.vmms, v.page = x

/-- The record that `Vmm_Malloc` writes goes to a page that is used for nothing. -/
def SpaceOp.Spares (m : Spaces) : SpaceOp → Prop
  | malloc _ pages => RecordUnused m.vmms (m.singles (firmwareTables m.state)) m.state pages
  | _ => True

/-! ## The invariant -/

/-- What holds between calls; the run has started from `m₀`. -/
structure Coherent (m₀ : Spaces) (lives : Nat → List AllocRecord) (m : Spaces) : Prop where
  kept : Kept m.vmms (m.singles (firmwareTables m₀.state)) lives m.state
  firmware : ∀ x ∈ firmwareTables m₀.state, m.state.mem x = m₀.state.mem x
  apart : ∀ v ∈ m.vmms, v.page ∉ firmwareTables m₀.state
  uefi : m.state.uefiPml4 = m₀.state.uefiPml4
  current : CurrentIn m.vmms m.state
  /-- The lower half of a kernel VMM is that of the firmware. -/
  lower : ∀ v ∈ m.vmms, v.isUser = false → ∀ i, i < 512 → ¬ v.Region i →
    m.state.mem v.pml4 i = m₀.state.mem m₀.state.uefiPml4 i
  /-- The tables in the upper half of a user VMM are those of a kernel VMM. -/
  upper : ∀ v ∈ m.vmms, v.isUser = true → ∀ i x, i < 512 → ¬ v.Region i →
    next m.state.mem 0 v.pml4 i = some x → ∃ v' ∈ m.vmms, v'.isUser = false ∧
      pageAt m.state.mem v'.pml4 [i] = some x

/-- Memory of the firmware's tables is as it was, and so are the tables. -/
theorem pageAt_firmware {s₀ : State} (hmem : ∀ x ∈ firmwareTables s₀, s.mem x = s₀.mem x)
    (hπ : Within 4 π) : pageAt s.mem s₀.uefiPml4 π = pageAt s₀.mem s₀.uefiPml4 π := by
  refine Forest.follow_congr fun σ j ρ x hσ hx => next_congr (congrFun (hmem x ⟨σ, ?_, hx⟩) j)
  rw [hσ] at hπ
  have := hπ.1
  rw [List.length_append, List.length_cons] at this
  exact ⟨by omega, hπ.initial.2⟩

theorem Coherent.firmwareTables_eq (h : Coherent m₀ lives m) :
    firmwareTables m.state = firmwareTables m₀.state := by
  funext x
  refine propext (exists_congr fun π => and_congr_right fun hπ => ?_)
  rw [h.uefi, pageAt_firmware h.firmware (hπ.mono (by decide))]

theorem Coherent.start (h : Start m) : Coherent m lives m := by
  have hnone : ∀ v, v ∉ m.vmms := fun v hv => by
    rw [h.vmms] at hv
    cases hv
  have hpage : ∀ k π x, Used 4 m.vmms (m.singles (firmwareTables m.state)) k π →
      pageAt m.state.mem (rootOf k) π = some x →
      k = .page x ∧ π = [] ∧ x ∈ firmwareTables m.state := by
    intro k π x hπ hx
    cases k with
    | page y =>
        obtain ⟨hy, rfl⟩ := hπ
        obtain rfl := Option.some.inj hx
        refine ⟨rfl, rfl, hy.resolve_right ?_⟩
        rintro ⟨v, hv, -⟩
        exact hnone v hv
    | space v => exact absurd hπ.1 (hnone v)
  refine ⟨⟨⟨?_, used_closed, fun _ _ hused => hused, List.nodup_nil,
      fun _ hx => absurd hx List.not_mem_nil⟩, ?_, ?_, ?_, ?_, ?_, ?_, ?_, ?_, ?_⟩,
    fun _ _ => rfl, ?_, rfl, .inl h.current, ?_, ?_⟩
  · intro k π k' π' x hπ hπ' hx hx'
    obtain ⟨rfl, rfl, -⟩ := hpage k π x hπ hx
    obtain ⟨rfl, rfl, -⟩ := hpage k' π' x hπ' hx'
    exact ⟨rfl, rfl⟩
  · intro k π x hπ hx
    exact h.taken x (hpage k π x hπ hx).2.2
  · exact fun v π x hπ => absurd hπ.1 (hnone v)
  all_goals exact fun v hv => absurd hv (hnone v)

theorem Kept.switch (h : Kept vmms S lives s) (hv : v ∈ vmms) :
    Kept vmms S lives (switchVirtual v.page s) ∧ CurrentIn vmms (switchVirtual v.page s) := by
  unfold switchVirtual
  rw [if_neg (h.notNull v hv), (h.words v hv).pml4Of (h.bits v hv).2]
  refine ⟨⟨⟨h.core.apart, h.core.closed, h.core.sub, h.core.nodup, h.core.fresh⟩, h.taken, h.nonzero,
    h.page, h.notNull, h.distinct, h.words, h.bits, ?_, ?_⟩, .inr ⟨v, hv, rfl⟩⟩
  · intro v' hv'
    have hb := h.books v' hv'
    exact ⟨hb.mapped, hb.aligned, hb.low, hb.high, hb.bounds, hb.disjoint⟩
  · intro v' hv' hpage
    rw [h.distinct v' hv' v hv hpage]

/-- After a call under one address space. -/
theorem Coherent.effect {lives' : Nat → List AllocRecord} (h : Coherent m₀ lives m) (hv : v ∈ m.vmms)
    (hk : Kept m.vmms (m.singles (firmwareTables m₀.state)) lives' s')
    (he : Effect 4 m.vmms (m.singles (firmwareTables m₀.state)) v m.state s') :
    Coherent m₀ lives' { m with state := s' } := by
  -- the entries of the other half are as they were
  have hentry : ∀ v' ∈ m.vmms, ∀ i, ¬ v'.Region i → s'.mem v'.pml4 i = m.state.mem v'.pml4 i := by
    intro v' hv' i hi
    by_cases hvv : v' = v
    · subst hvv
      exact he.top hv i hi
    · exact congrFun (he.other v' hvv _ ⟨[], used_root hv', Nat.zero_le _, rfl⟩) i
  refine ⟨hk, ?_, h.apart, ?_, ?_, ?_, ?_⟩
  · intro x hx
    have hne : x ≠ v.page := fun heq => h.apart v hv (heq ▸ hx)
    rw [he.single x (.inl hx) hne, h.firmware x hx]
  · exact he.globals.uefiPml4.trans h.uefi
  · unfold CurrentIn
    rw [he.globals.current]
    exact h.current
  · intro v' hv' huser i hi hregion
    rw [hentry v' hv' i hregion, h.lower v' hv' huser i hi hregion]
  · intro v' hv' huser i x hi hregion hx
    rw [next_congr (hentry v' hv' i hregion)] at hx
    obtain ⟨k, hk, hkernel, hkx⟩ := h.upper v' hv' huser i x hi hregion hx
    refine ⟨k, hk, hkernel, ?_⟩
    have hused : Used 4 m.vmms (m.singles (firmwareTables m₀.state)) (.space k) [i] := by
      refine ⟨hk, ⟨by simp, by simpa using hi⟩, fun j ρ hj => ?_⟩
      unfold Vmm.Region at hregion ⊢
      simp only [huser, if_true] at hregion
      rw [hkernel, ← (List.cons.inj hj).1]
      simp
      omega
    by_cases hkv : k = v
    · subst hkv
      exact he.kept [i] x hused (by simp) hkx
    · exact (he.pageAt_other hkv (by simp) (used_closed.inner hused)).trans hkx

theorem next_word {mem mem' : Mem} {l t t' : Nat} (h : mem' t' i = mem t i) :
    next mem' l t' i = next mem l t i := by
  unfold next
  rw [h]

/-- The upper half of the PML4 that a user VMM is copied from is that of a kernel VMM. -/
theorem Coherent.source {isUser : Bool} (h : Coherent m₀ lives m) (hs : Start m₀) (hi : 256 ≤ i)
    (hi' : i < 512) (hx : next m.state.mem 0 (sourceOf isUser m.state) i = some x) :
    ∃ v ∈ m.vmms, v.isUser = false ∧ pageAt m.state.mem v.pml4 [i] = some x := by
  have huefi : sourceOf isUser m.state ≠ m.state.uefiPml4 := by
    intro heq
    have habsent := hs.upper i hi hi'
    rw [heq, h.uefi] at hx
    rw [← h.firmware _ ⟨[], ⟨Nat.zero_le _, fun _ hj => absurd hj List.not_mem_nil⟩, rfl⟩] at habsent
    exact absurd (next_eq_none.mpr (.inl habsent) ▸ hx) (by simp)
  unfold sourceOf kernelPml4 at hx huefi
  split at hx
  · split at hx
    · rename_i hcurrent
      rcases h.current with h0 | ⟨v, hv, hpage⟩
      · exact absurd h0 hcurrent.1
      rw [← hpage, (h.kept.words v hv).pml4Of (h.kept.bits v hv).2] at hx
      cases huser : v.isUser with
      | false => exact ⟨v, hv, huser, by rw [pageAt, Forest.follow_cons, hx]; rfl⟩
      | true =>
          refine h.upper v hv huser i x hi' ?_ hx
          unfold Vmm.Region
          rw [huser]
          simp
          omega
    · rename_i hu hcurrent
      rw [if_pos hu, if_neg hcurrent] at huefi
      exact absurd rfl huefi
  · rename_i hu
    rw [if_neg hu] at huefi
    exact absurd rfl huefi

theorem singles_append {F : Set Nat} {s : State} :
    Spaces.singles F ⟨s, m.vmms ++ [v]⟩ = insert v.page (m.singles F) := by
  funext x
  refine propext ⟨?_, ?_⟩
  · rintro (hx | ⟨v', hv', rfl⟩)
    · exact .inr (.inl hx)
    · rcases List.mem_append.mp hv' with hv' | hv'
      · exact .inr (.inr ⟨v', hv', rfl⟩)
      · exact .inl (by rw [List.mem_singleton.mp hv'])
  · rintro (rfl | hx | ⟨v', hv', rfl⟩)
    · exact .inr ⟨v, by simp, rfl⟩
    · exact .inl hx
    · exact .inr ⟨v', List.mem_append_left _ hv', rfl⟩

theorem Coherent.opened {src d : Nat} (h : Coherent m₀ lives m) (hs : Start m₀)
    (hp : FreshFor m.state pages) (hflag : v.flag.toNat < pageSize)
    (hsrc : src = sourceOf v.isUser m.state)
    (ho : Opened 4 m.vmms (m.singles (firmwareTables m₀.state)) v src (m.state.give pages) s' d) :
    Coherent m₀ (Function.update lives v.page []) ⟨s', m.vmms ++ [v]⟩ := by
  have hcore := h.kept.give hp
  have hkept := h.kept.opened hp h.current hflag ho
  have hfresh : ∀ x ∈ firmwareTables m₀.state, x ∉ pages := fun x hx hmem =>
    (hp.fresh x hmem).2.2 (h.kept.page_taken (.inl hx))
  have hframe : ∀ v' ∈ m.vmms, s'.mem v'.pml4 = m.state.mem v'.pml4 := fun v' hv' =>
    ho.frame _ (hcore.not_fresh (k := .space v') (used_root hv') rfl)
  -- the upper half of an old kernel space is the same as before
  have hupper : ∀ i x, (∃ v' ∈ m.vmms, v'.isUser = false ∧ pageAt m.state.mem v'.pml4 [i] = some x) →
      256 ≤ i → i < 512 → ∃ v' ∈ m.vmms ++ [v], v'.isUser = false ∧ pageAt s'.mem v'.pml4 [i] = some x := by
    rintro i x ⟨k, hk, hkernel, hkx⟩ hi hi'
    have hused : Used 4 m.vmms (m.singles (firmwareTables m₀.state)) (.space k) [i] := by
      refine ⟨hk, ⟨by simp, by simpa using hi'⟩, fun j ρ hj => ?_⟩
      unfold Vmm.Region
      rw [hkernel, ← (List.cons.inj hj).1]
      simp
      omega
    have hsame := hcore.pageAt_frame ho.frame (used_closed.inner hused)
    exact ⟨k, List.mem_append_left _ hk, hkernel, hsame.trans hkx⟩
  -- an entry of a user space outside its region lies in the upper half
  have hhigh : ∀ v' : Vmm, v'.isUser = true → ∀ i, ¬ v'.Region i → 256 ≤ i := by
    intro v' huser i hi
    unfold Vmm.Region at hi
    rw [huser] at hi
    simpa using hi
  refine ⟨?_, ?_, ?_, ?_, ?_, ?_, ?_⟩
  · rw [singles_append]
    exact hkept
  · -- the tables of the firmware are in no page that was free
    intro x hx
    rw [ho.frame x (hfresh x hx)]
    exact h.firmware x hx
  · intro v' hv'
    rcases List.mem_append.mp hv' with hv' | hv'
    · exact h.apart v' hv'
    · rw [List.mem_singleton.mp hv']
      exact fun hx => hfresh _ hx ho.page.1
  · exact ho.globals.uefiPml4.trans h.uefi
  · unfold CurrentIn
    rw [ho.globals.current]
    rcases h.current with h0 | ⟨v', hv', hpage⟩
    · exact .inl h0
    · exact .inr ⟨v', List.mem_append_left _ hv', hpage⟩
  · -- the lower half of a kernel space is that of the firmware
    intro v' hv' huser i hi hregion
    rcases List.mem_append.mp hv' with hv' | hv'
    · rw [hframe v' hv']
      exact h.lower v' hv' huser i hi hregion
    · obtain rfl := List.mem_singleton.mp hv'
      rw [ho.outside i hregion, huser, hsrc, huser]
      unfold copiedEntry sourceOf
      simp only [Bool.false_eq_true, if_false]
      rw [if_pos hi, give_mem, h.uefi]
      exact congrFun (h.firmware _ ⟨[], ⟨Nat.zero_le _, fun _ hj => absurd hj List.not_mem_nil⟩, rfl⟩) i
  · -- the upper half of a user space is that of a kernel space: of an old one, or of the source
    intro v' hv' huser i x hi hregion hx
    have hi256 := hhigh v' huser i hregion
    rcases List.mem_append.mp hv' with hv' | hv'
    · rw [next_congr (congrFun (hframe v' hv') i)] at hx
      exact hupper i x (h.upper v' hv' huser i x hi hregion hx) hi256 hi
    · obtain rfl := List.mem_singleton.mp hv'
      have hentry : s'.mem v'.pml4 i = m.state.mem src i := by
        rw [ho.outside i hregion, huser]
        unfold copiedEntry
        simp only [if_true]
        rw [if_neg (by omega), if_pos ⟨hi256, hi⟩, give_mem]
      rw [next_word hentry, hsrc] at hx
      exact hupper i x (h.source hs hi256 hi hx) hi256 hi

/-! ## The steps -/

theorem Coherent.init {isUser : Bool} {flag : Nat} (h : Coherent m₀ lives m) (hs : Start m₀)
    (hl : (SpaceOp.init isUser flag pages).Lawful lives m)
    (hrun : (SpaceOp.init isUser flag pages).run m = some (r, m')) :
    Coherent m₀ (ledger lives m r (.init isUser flag pages)) m' := by
  obtain ⟨hflag, hp, hok⟩ := hl
  have hfailed := hok r m' hrun
  obtain ⟨⟨p, s'⟩, hinit, heq⟩ := Option.map_eq_some_iff.mp hrun
  obtain ⟨rfl, rfl⟩ := Prod.mk.inj heq
  have hcore := h.kept.give hp
  have hp0 : p ≠ 0 := by
    rintro rfl
    rw [if_pos rfl] at hfailed
    have := initVirtual_zero (fun x hx => (hp.fresh x hx).1) hinit
    exact absurd (this.symm.trans hfailed) (by simp)
  rw [if_neg hp0] at hfailed
  have huefi : m.state.uefiPml4 ∈ firmwareTables m₀.state :=
    ⟨[], ⟨Nat.zero_le _, fun _ hj => absurd hj List.not_mem_nil⟩, congrArg some h.uefi.symm⟩
  have htaken : sourceOf isUser m.state ∈ m.state.taken :=
    h.kept.source h.current (h.kept.page_taken (.inl huefi))
  have hbits : (BitVec.ofNat 64 flag).toNat < pageSize := by
    rw [BitVec.toNat_ofNat]
    exact lt_of_le_of_lt (Nat.mod_le _ _) hflag
  obtain ⟨v, d, hpage, huser, hvflag, ho⟩ := hcore.init (by decide) le_rfl hinit hp0 hfailed hbits
    (fun hmem => (hp.fresh _ hmem).2.2 htaken) (h.kept.current_not_given hp h.current) (by
      rintro - i hi hi'
      have habsent := hs.upper i hi hi'
      rw [← h.firmware _ (h.uefi ▸ huefi), ← h.uefi] at habsent
      exact habsent)
  have hpml4 : pml4Of s'.mem p = v.pml4 := by
    rw [← hpage]
    exact ho.words.pml4Of (hp.fresh _ ho.pml4).2.1
  have hv : (⟨p, isUser, BitVec.ofNat 64 flag, pml4Of s'.mem p⟩ : Vmm) = v := by
    rw [hpml4, ← hpage, ← huser, ← hvflag]
  rw [if_neg hp0, hv]
  unfold ledger
  rw [if_neg hp0, ← hpage]
  exact h.opened hs hp (hvflag ▸ hbits) (by rw [huser]; rfl) ho

/-- The address space that is current. -/
theorem Coherent.currentVmm (h : Coherent m₀ lives m) (hcur : m.state.current ≠ 0) :
    ∃ v ∈ m.vmms, v.page = m.state.current := h.current.resolve_left hcur

theorem Coherent.malloc {size : Nat} (h : Coherent m₀ lives m)
    (hl : (SpaceOp.malloc size pages).Lawful lives m) (hspare : (SpaceOp.malloc size pages).Spares m)
    (hrun : (SpaceOp.malloc size pages).run m = some (r, m')) :
    Coherent m₀ (ledger lives m r (.malloc size pages)) m' := by
  obtain ⟨hcur, hp, hok, hsize, hwrap⟩ := hl
  have hfailed := hok r m' hrun
  obtain ⟨⟨r', s'⟩, hm, heq⟩ := Option.map_eq_some_iff.mp hrun
  obtain ⟨rfl, rfl⟩ := Prod.mk.inj heq
  obtain ⟨v, hv, hpage⟩ := h.currentVmm hcur
  have hrec : RecordUnused m.vmms (m.singles (firmwareTables m₀.state)) m.state pages := by
    rw [← h.firmwareTables_eq]
    exact hspare
  obtain ⟨hkept, heffect, -⟩ := h.kept.malloc hv hpage.symm hp hsize (hwrap v hv hpage) hrec hm hfailed
  unfold ledger
  rw [← hpage]
  exact h.effect hv hkept heffect

theorem Coherent.free {virt size : Nat} (h : Coherent m₀ lives m)
    (hl : (SpaceOp.free virt size).Lawful lives m)
    (hrun : (SpaceOp.free virt size).run m = some (r, m')) :
    Coherent m₀ (ledger lives m r (.free virt size)) m' := by
  obtain ⟨hr, hcur⟩ := hl
  obtain ⟨s', hm, heq⟩ := Option.map_eq_some_iff.mp hrun
  obtain ⟨rfl, rfl⟩ := Prod.mk.inj heq
  obtain ⟨v, hv, hpage⟩ := h.currentVmm hcur
  rw [← hpage] at hr
  obtain ⟨hkept, heffect⟩ := h.kept.free hv hpage.symm hr rfl hm
  unfold ledger
  rw [← hpage]
  exact h.effect hv hkept heffect

theorem Coherent.step (h : Coherent m₀ lives m) (hs : Start m₀) (hl : op.Lawful lives m)
    (hspare : op.Spares m) (hrun : op.run m = some (r, m')) : Coherent m₀ (ledger lives m r op) m' := by
  cases op with
  | init isUser flag pages => exact h.init hs hl hrun
  | switch vmm =>
      obtain ⟨v, hv, rfl⟩ := hl
      obtain ⟨rfl, rfl⟩ := Prod.mk.inj (Option.some.inj hrun)
      obtain ⟨hkept, hcurrent⟩ := h.kept.switch hv
      have hmem : (switchVirtual v.page m.state).mem = m.state.mem := by
        unfold switchVirtual
        split <;> rfl
      have huefi : (switchVirtual v.page m.state).uefiPml4 = m.state.uefiPml4 := by
        unfold switchVirtual
        split <;> rfl
      refine ⟨hkept, ?_, h.apart, huefi.trans h.uefi, hcurrent, ?_, ?_⟩
      · dsimp only
        rw [hmem]
        exact h.firmware
      · dsimp only
        rw [hmem]
        exact h.lower
      · dsimp only
        rw [hmem]
        exact h.upper
  | malloc size pages => exact h.malloc hl hspare hrun
  | free virt size => exact h.free hl hrun
  | map virt phys flags pages => exact hl.elim
  | unmap virt => exact hl.elim

/-! ## What follows -/

/-- A table of an address space is one of its own, one of another's, or one of the firmware's. -/
theorem Coherent.table (h : Coherent m₀ lives m) (hv : v ∈ m.vmms) (hπ : Within 3 π)
    (hx : pageAt m.state.mem v.pml4 π = some x) : x ∈ firmwareTables m₀.state ∨
      ∃ v' π', Used 4 m.vmms (m.singles (firmwareTables m₀.state)) (.space v') π' ∧
        π'.length ≤ 3 ∧ pageAt m.state.mem v'.pml4 π' = some x := by
  cases π with
  | nil => exact .inr ⟨v, [], used_root hv, Nat.zero_le _, hx⟩
  | cons i ρ =>
      have hi : i < 512 := hπ.2 i List.mem_cons_self
      by_cases hregion : v.Region i
      · refine .inr ⟨v, i :: ρ, ⟨hv, hπ.mono (by decide), fun j σ hj => ?_⟩, hπ.1, hx⟩
        rw [← (List.cons.inj hj).1]
        exact hregion
      · cases huser : v.isUser with
        | false =>
            -- the lower half of the firmware
            left
            refine ⟨i :: ρ, hπ, ?_⟩
            rw [← pageAt_firmware h.firmware (hπ.mono (by decide)), ← hx, pageAt, pageAt,
              Forest.follow_cons, Forest.follow_cons]
            have hentry : next m.state.mem 0 m₀.state.uefiPml4 i = next m.state.mem 0 v.pml4 i := by
              refine next_word ?_
              rw [h.lower v hv huser i hi hregion]
              exact congrFun (h.firmware _
                ⟨[], ⟨Nat.zero_le _, fun _ hj => absurd hj List.not_mem_nil⟩, rfl⟩) i
            rw [hentry]
        | true =>
            -- the upper half of a kernel VMM
            right
            rw [pageAt, Forest.follow_cons] at hx
            obtain ⟨c, hc, hx⟩ := Option.bind_eq_some_iff.mp hx
            obtain ⟨k, hk, hkernel, hkc⟩ := h.upper v hv huser i c hi hregion hc
            refine ⟨k, i :: ρ, ⟨hk, hπ.mono (by decide), fun j σ hj => ?_⟩, hπ.1, ?_⟩
            · unfold Vmm.Region at hregion ⊢
              rw [huser] at hregion
              rw [hkernel, ← (List.cons.inj hj).1]
              simp at hregion ⊢
              omega
            · rw [show i :: ρ = [i] ++ ρ from rfl, pageAt, Forest.follow_append,
                show Forest.follow (next m.state.mem) 0 k.pml4 [i] = some c from hkc]
              exact hx

/-- The physical page of a live address. -/
theorem Coherent.live (h : Coherent m₀ lives m) (hv : v ∈ m.vmms) (ha : LiveAt lives v a) :
    v.Has a ∧ ∃ x, pageAt m.state.mem v.pml4 (indices a) = some x ∧ x ≠ 0 ∧ m.frameAt v a = x ∧
      virtToPhysOn m.state.mem v.pml4 a ≠ 0 := by
  obtain ⟨r, hr, hlow, hhigh⟩ := ha
  have hbooks := h.kept.books v hv
  have hbounds := hbooks.bounds r hr
  have hstart := hbounds.low
  have hstop := hbounds.high
  have hend := hbooks.high
  have hhas : v.Has a := has_of_range (by omega) (by omega)
  have hpage : r.HasPage (a / pageSize) := by
    have haligned := hbounds.aligned
    have hsize := hbounds.size.2
    unfold AllocRecord.HasPage
    unfold pageSize at *
    omega
  obtain ⟨x, hx⟩ := Option.isSome_iff_exists.mp ((hbooks.mapped a hhas).mpr (.inr ⟨r, hr, hpage⟩))
  have hx0 : x ≠ 0 := h.kept.nonzero v _ x (used_indices hv hhas) hx
  have hphys := virtToPhysOn_pageAt hx
  refine ⟨hhas, x, hx, hx0, ?_, ?_⟩
  · unfold Spaces.frameAt
    rw [hphys]
    have := Nat.mod_lt a (show 0 < pageSize by decide)
    unfold pageSize at *
    omega
  · intro hzero
    rw [hzero] at hphys
    have : 0 < x * pageSize := Nat.mul_pos (Nat.pos_of_ne_zero hx0) (by decide)
    simp at hphys
    omega

theorem Coherent.separated (h : Coherent m₀ lives m) : Separated lives m where
  disjoint v hv := (h.kept.books v hv).disjoint
  bounds v hv r hr := by
    have hbounds := (h.kept.books v hv).bounds r hr
    exact ⟨hbounds.low, hbounds.high.trans (h.kept.books v hv).high⟩
  mapped v hv a ha := by
    obtain ⟨-, -, -, -, -, hne⟩ := h.live hv ha
    exact hne
  backed v hv v' hv' a a' ha ha' heq := by
    obtain ⟨hhas, x, hx, -, hframe, -⟩ := h.live hv ha
    obtain ⟨hhas', x', hx', -, hframe', -⟩ := h.live hv' ha'
    obtain rfl : x = x' := by rw [← hframe, ← hframe', heq]
    obtain ⟨hvv, hind⟩ := h.kept.core.apart (.space v) _ (.space v') _ x (used_indices hv hhas)
      (used_indices hv' hhas') hx hx'
    exact ⟨Holder.space.inj hvv, indices_inj hhas.canonical hhas'.canonical hind⟩
  tables v hv a ha := by
    obtain ⟨hhas, x, hx, -, hframe, -⟩ := h.live hv ha
    rw [hframe]
    -- a table is used at another place
    have hnot : ∀ k π, Used 4 m.vmms (m.singles (firmwareTables m₀.state)) k π → π.length ≤ 3 →
        pageAt m.state.mem (rootOf k) π ≠ some x := by
      intro k π hπ hlen hxπ
      obtain ⟨-, rfl⟩ := h.kept.core.apart k π (.space v) (indices a) x hπ (used_indices hv hhas) hxπ
        hx
      simp [indices] at hlen
    have hfirmware : x ∉ firmwareTables m₀.state := fun hxF =>
      hnot (.page x) [] ⟨.inl hxF, rfl⟩ (Nat.zero_le _) rfl
    rintro (hxF | ⟨v', hv', π, hπ, hxπ⟩)
    · exact hfirmware (h.firmwareTables_eq ▸ hxF)
    · rcases h.table hv' hπ hxπ with hxF | ⟨k, π', hused, hlen, hxk⟩
      · exact hfirmware hxF
      · exact hnot (.space k) π' hused hlen hxk

/-- The runs of lawful calls from the start, with the live allocations. -/
abbrev Allocating (P : (Nat → List AllocRecord) → Spaces → SpaceOp → Prop) (m₀ : Spaces) :
    (Nat → List AllocRecord) → Spaces → Prop :=
  History.Reaches SpaceOp.run (fun lives m r op => ledger lives m r op) P (fun _ => []) m₀

/-- As long as each record goes to a page that is used for nothing, the live allocations are separate. -/
theorem allocations_separate (hs : Start m₀)
    (h : Allocating (fun lives m op => op.Lawful lives m ∧ op.Spares m) m₀ lives m) :
    Separated lives m := by
  have hcoherent : Coherent m₀ lives m := by
    refine h.invariant (I := fun lives m => Coherent m₀ lives m) ?_ ?_
    · exact Coherent.start hs
    · intro g s e r s' hcoherent hP hrun
      exact hcoherent.step hs hP.1 hP.2 hrun
  exact hcoherent.separated

/-! ## 256 live allocations -/

/-- The page 0 is used for nothing, and the first 256 records go there. -/
theorem Kept.recordUnused (h : Kept vmms S lives s) (hp : FreshFor s pages) (hS : 0 ∉ S)
    (hrec : recordPage s = 0) : RecordUnused vmms S s pages := by
  refine ⟨?_, ?_⟩
  · rw [hrec]
    refine ⟨?_, hS, fun hmem => (hp.fresh 0 hmem).1 rfl⟩
    rintro v ⟨π, hπ, -, hx⟩
    exact h.nonzero v π 0 hπ hx rfl
  · intro v hv heq
    exact h.nonzero v _ _ (used_indices hv (startOf_has v)) (h.books v hv).desc (heq.symm.trans hrec)

theorem recordPage_eq {n : Nat} (hnull : s.mem s.current 3 = 0)
    (hnum : (allocRecordNumOf s.mem s.current).toNat = n) : recordPage s = 16 * n / pageSize := by
  unfold recordPage allocRecordOf
  rw [hnull, hnum]
  simp

/-- A machine whose firmware maps nothing. -/
def bare : Spaces where
  state :=
    { mem := fun _ _ => 0
      cr3 := 3
      supply := []
      taken := {3}
      failed := false
      current := 0
      uefiPml4 := 3 }
  vmms := []

/-- The user VMM that is made there; the allocator gives the page 1 for its PML4. -/
def program : Vmm := ⟨2, true, 7, 1⟩

def programPages : List Nat := [2, 1, 4, 5, 6, 7, 8]

/-- The pages for the call of `Vmm_Malloc` number `k`. -/
def callPages (k : Nat) : List Nat := List.range' (100 + 5 * k) 5

theorem bare_tables (hx : x ∈ firmwareTables bare.state) : x = 3 := by
  obtain ⟨π, -, hπ⟩ := hx
  cases π with
  | nil => exact (Option.some.inj hπ).symm
  | cons i ρ =>
      rw [pageAt, Forest.follow_cons, next_of_zero rfl] at hπ
      cases hπ

theorem start_bare : Start bare where
  vmms := rfl
  current := rfl
  taken x hx := by
    rw [bare_tables hx]
    exact Finset.mem_singleton_self 3
  upper _ _ _ := present_zero

/-- The user VMM with `k` allocations of a page each. -/
structure Filled (k : Nat) (lives : Nat → List AllocRecord) (m : Spaces) : Prop where
  run : Allocating (fun lives m op => op.Lawful lives m ∧ op.Spares m) bare lives m
  vmms : m.vmms = [program]
  current : m.state.current = 2
  num : allocRecordNumOf m.state.mem 2 = BitVec.ofNat 32 k
  taken : ∀ x ∈ m.state.taken, x < 100 + 5 * k
  top : top m.state program = userVirtualMemoryStart + (k + 1) * pageSize
  live : k ≠ 0 → LiveAt lives program (userVirtualMemoryStart + pageSize)

theorem Filled.coherent {k : Nat} (h : Filled k lives m) : Coherent bare lives m :=
  h.run.invariant (Coherent.start start_bare) fun _ _ _ _ _ hcoherent hP hrun =>
    hcoherent.step start_bare hP.1 hP.2 hrun

theorem Filled.freshFor {k : Nat} (h : Filled k lives m) (hk : k ≤ 256) :
    FreshFor m.state (callPages k) := by
  unfold callPages
  refine ⟨List.nodup_range', fun p hp => ?_⟩
  rw [List.mem_range'_1] at hp
  refine ⟨by omega, by omega, fun hmem => ?_⟩
  have := h.taken p hmem
  omega

/-- The machine in which the user VMM has been made and is the current one. -/
def opened : Option Spaces :=
  ((SpaceOp.init true 7 programPages).run bare).bind fun r => ((SpaceOp.switch 2).run r.2).map (·.2)

theorem filled_zero : ∃ lives m, opened = some m ∧ Filled 0 lives m := by
  have hinit : ((SpaceOp.init true 7 programPages).run bare).map (fun r => (r.1, r.2.state.failed,
      r.2.vmms, allocRecordNumOf r.2.state.mem 2, decide (∀ x ∈ r.2.state.taken, x < 100),
      top r.2.state program)) =
      some (2, false, [program], 0, true, userVirtualMemoryStart + pageSize) := by
    decide +kernel
  obtain ⟨⟨p, m⟩, hrun, heq⟩ := Option.map_eq_some_iff.mp hinit
  simp only [Prod.mk.injEq, decide_eq_true_eq] at heq
  obtain ⟨rfl, hfailed, hvmms, hnum, htaken, htop⟩ := heq
  have hlawful : (SpaceOp.init true 7 programPages).Lawful (fun _ => []) bare := by
    refine ⟨by decide, ⟨by decide, by decide⟩, fun r m' hrun' => ?_⟩
    obtain ⟨-, rfl⟩ := Prod.mk.inj (Option.some.inj (hrun.symm.trans hrun'))
    exact hfailed
  have hmade : Allocating (fun lives m op => op.Lawful lives m ∧ op.Spares m) bare _ m :=
    .step .start ⟨hlawful, trivial⟩ hrun
  have hswitch : (SpaceOp.switch 2).Lawful
      (ledger (fun _ => []) bare 2 (.init true 7 programPages)) m :=
    ⟨program, by rw [hvmms]; exact List.mem_singleton_self _, rfl⟩
  have hopened : opened = some { m with state := switchVirtual 2 m.state } := by
    unfold opened
    rw [hrun]
    rfl
  exact ⟨_, _, hopened, .step hmade ⟨hswitch, trivial⟩ rfl, hvmms, rfl, hnum, htaken, htop,
    fun h0 => absurd rfl h0⟩

/-- The next call of `Vmm_Malloc` for one page is lawful. -/
theorem Filled.call {k : Nat} (h : Filled k lives m) (hk : k ≤ 256) :
    ∃ s', vmmMalloc 1 (m.state.give (callPages k)) = some (Paging.top m.state program, s') ∧
      s'.failed = false ∧ (SpaceOp.malloc 1 (callPages k)).Lawful lives m ∧
      (SpaceOp.malloc 1 (callPages k)).run m =
        some (Paging.top m.state program, { m with state := s' }) := by
  have hone : pagesFor 1 = 1 := by decide
  have hv : program ∈ m.vmms := by rw [h.vmms]; exact List.mem_singleton_self _
  have hlen : (callPages k).length = 5 := List.length_range'
  have hle : (k + 1) * pageSize ≤ 257 * pageSize := Nat.mul_le_mul_right _ (by omega)
  have hbig : userVirtualMemoryStart + 257 * pageSize + pageSize ≤ endOf true := by decide
  have hend : endOf true < 2 ^ 64 := by decide
  have htop := h.top
  have hbound : Paging.top m.state program + pagesFor 1 * pageSize ≤ endOf true := by
    rw [hone]
    omega
  obtain ⟨s', hm, hfailed⟩ := h.coherent.kept.malloc_runs hv h.current (h.freshFor hk)
    one_ne_zero hbound (by rw [hone, hlen])
  have hrun : (SpaceOp.malloc 1 (callPages k)).run m =
      some (Paging.top m.state program, { m with state := s' }) := by
    show (vmmMalloc 1 (m.state.give (callPages k))).map _ = _
    rw [hm]
    rfl
  refine ⟨s', hm, hfailed, ⟨?_, h.freshFor hk, ?_, by decide, ?_⟩, hrun⟩
  · rw [h.current]
    decide
  · intro r m' hrun'
    obtain ⟨-, rfl⟩ := Prod.mk.inj (Option.some.inj (hrun.symm.trans hrun'))
    exact hfailed
  · intro v hv' _
    rw [h.vmms, List.mem_singleton] at hv'
    subst hv'
    omega

/-- Up to 256 records go to the page 0. -/
theorem Filled.recordUnused {k : Nat} (h : Filled k lives m) (hk : k < 256) (hp : FreshFor m.state pages) :
    RecordUnused m.vmms (m.singles (firmwareTables bare.state)) m.state pages := by
  have hkept := h.coherent.kept
  have hv : program ∈ m.vmms := by rw [h.vmms]; exact List.mem_singleton_self _
  have hzero : 0 ∉ m.singles (firmwareTables bare.state) := by
    rintro (hx | ⟨v, hv', hpage⟩)
    · exact absurd (bare_tables hx) (by decide)
    · exact hkept.notNull v hv' hpage
  have hnum : (allocRecordNumOf m.state.mem m.state.current).toNat = k := by
    rw [h.current, h.num, BitVec.toNat_ofNat]
    omega
  have hnull : m.state.mem m.state.current 3 = 0 := by
    rw [h.current]
    exact (hkept.words program hv).allocRecord
  refine hkept.recordUnused hp hzero ?_
  rw [recordPage_eq hnull hnum]
  unfold pageSize
  omega

theorem Filled.succ {k : Nat} (h : Filled k lives m) (hk : k < 256) :
    ∃ lives m, Filled (k + 1) lives m := by
  obtain ⟨s', hm, hfailed, hlawful, hrun⟩ := h.call (by omega)
  have hone : pagesFor 1 = 1 := by decide
  have hv : program ∈ m.vmms := by rw [h.vmms]; exact List.mem_singleton_self _
  have hkept := h.coherent.kept
  have hp := h.freshFor (by omega)
  -- the pages of this call are new, and none of them is the page behind the records
  have hrecord : RecordUnused m.vmms (m.singles (firmwareTables bare.state)) m.state (callPages k) :=
    h.recordUnused hk hp
  have hspares : (SpaceOp.malloc 1 (callPages k)).Spares m := by
    unfold SpaceOp.Spares
    rw [h.coherent.firmwareTables_eq]
    exact hrecord
  have hwrap : Paging.top m.state program + pagesFor 1 * pageSize < 2 ^ 64 :=
    hlawful.2.2.2.2 program hv h.current.symm
  obtain ⟨-, heffect, hgrows⟩ := hkept.malloc hv h.current hp (by decide) hwrap hrecord hm hfailed
  have htop := h.top
  have hr : Paging.top m.state program ≠ 0 := by
    have hpos : 0 < userVirtualMemoryStart := by decide
    omega
  refine ⟨_, _, .step h.run ⟨hlawful, hspares⟩ hrun, h.vmms, ?_, ?_, ?_, ?_, fun _ => ?_⟩
  · exact heffect.globals.current.trans h.current
  · refine (hgrows.num hr).trans ?_
    rw [show program.page = 2 from rfl, h.num]
    exact (BitVec.ofNat_add k 1).symm
  · intro x hx
    rcases hgrows.taken x hx with hold | hnew
    · have := h.taken x hold
      omega
    · unfold callPages at hnew
      rw [List.mem_range'_1] at hnew
      omega
  · refine (hgrows.top hr).trans ?_
    rw [hone, htop, Nat.add_mul (k + 1) 1]
    omega
  · show LiveAt (afterMalloc lives m.state.current 1 (Paging.top m.state program)) program _
    unfold afterMalloc
    rw [if_neg hr, h.current, hone]
    by_cases hk0 : k = 0
    · subst hk0
      refine ⟨⟨Paging.top m.state program, 1 * pageSize⟩, ?_, ?_, ?_⟩
      · rw [show program.page = 2 from rfl, Function.update_self]
        exact List.mem_append_right _ List.mem_cons_self
      · dsimp only
        omega
      · have hpos : 0 < pageSize := by decide
        dsimp only
        omega
    · -- the record of the first call is still there
      obtain ⟨rec, hrec, hlow, hhigh⟩ := h.live hk0
      refine ⟨rec, ?_, hlow, hhigh⟩
      rw [show program.page = 2 from rfl, Function.update_self]
      exact List.mem_append_left _ hrec

theorem filled (k : Nat) (hk : k ≤ 256) : ∃ lives m, Filled k lives m := by
  induction k with
  | zero =>
      obtain ⟨lives, m, -, h⟩ := filled_zero
      exact ⟨lives, m, h⟩
  | succ k ih =>
      obtain ⟨lives, m, h⟩ := ih (by omega)
      exact h.succ (by omega)

/-- Two live allocations of the user VMM. -/
theorem allocations_separate_two : ∃ lives m, LiveAt lives program (userVirtualMemoryStart + pageSize) ∧
    m.vmms = [program] ∧ Separated lives m := by
  obtain ⟨lives, m, h⟩ := filled 2 (by decide)
  exact ⟨lives, m, h.live (by decide), h.vmms, allocations_separate start_bare h.run⟩

/-- The pages of the 256 allocations are lost with the next one. -/
theorem allocations_lost : ¬ ∀ m₀ lives m, Start m₀ →
    Allocating (fun lives m op => op.Lawful lives m) m₀ lives m → Separated lives m := by
  intro hclaim
  obtain ⟨lives, m, h⟩ := filled 256 le_rfl
  obtain ⟨s', hm, hfailed, hlawful, hrun⟩ := h.call le_rfl
  have hv : program ∈ m.vmms := by rw [h.vmms]; exact List.mem_singleton_self _
  have hkept := h.coherent.kept
  have hwords := hkept.words program hv
  have hp := h.freshFor le_rfl
  have hcore := hkept.give hp
  have hone : pagesFor 1 = 1 := by decide
  have htop := h.top
  have hr : Paging.top m.state program ≠ 0 := by
    have hpos : 0 < userVirtualMemoryStart := by decide
    omega
  have hseparated := hclaim bare _ _ start_bare
    (.step (h.run.mono fun _ _ _ hP => hP.1) hlawful hrun)
  -- the record goes to the PML4
  rcases vmmMalloc_cases hm with ⟨hnone, -⟩ | ⟨A, ps, s₁, s₂, s₃, s₄, hg⟩
  · exact hr hnone
  have hA : A.toNat = Paging.top m.state program := hg.result.symm
  obtain ⟨u, e, -, -, -, -, hvmm, hcur₄⟩ := hcore.granted (by decide) le_rfl hv (hkept.page program hv)
    h.current (hkept.cr3 program hv h.current.symm)
    (by rw [give_mem]; unfold flagOf; rw [hwords.flag]; decide) hwords.descriptorOf hg hfailed (by
      intro j hj
      rw [hone] at hj
      have hbig : userVirtualMemoryStart + (256 + 1) * pageSize + pageSize ≤ endOf true := by decide
      have hlow : startOf true = userVirtualMemoryStart := rfl
      have hstep : j * pageSize = 0 := by
        rw [show j = 0 by omega]
        exact Nat.zero_mul _
      have hpos : 0 < pageSize := by decide
      exact has_of_range (v := program) (show startOf true ≤ _ by omega) (show _ < endOf true by omega))
    (hkept.books program hv).desc (hkept.desc_unused hp hv)
  have hnull : s₄.mem s₄.current 3 = 0 := by
    rw [hcur₄, hvmm]
    exact hwords.allocRecord
  have hnum : (allocRecordNumOf s₄.mem s₄.current).toNat = 256 := by
    have hsame : allocRecordNumOf s₄.mem program.page = allocRecordNumOf m.state.mem 2 := by
      unfold allocRecordNumOf
      rw [hvmm]
      rfl
    rw [hcur₄, hsame, h.num]
    decide
  have hpage : recordPage s₄ = 1 := by
    rw [recordPage_eq hnull hnum]
    decide
  have hword : recordWord s₄ = 0 := by
    unfold recordWord allocRecordOf
    rw [hnull, hnum]
    decide
  have hentry : s'.mem 1 0 = BitVec.ofNat 64 A.toNat := by
    rw [hg.record, writeRecord_eq hnull (by rw [hpage, hcur₄]; decide), hpage, hword, hcur₄]
    exact (State.write_other (.inl (by decide))).trans
      ((State.write_other (.inr (by decide))).trans State.write_here)
  -- an address is no entry
  have habsent : present (s'.mem 1 0) = false := by
    rw [hentry, hA, htop]
    decide
  refine hseparated.mapped program hv (userVirtualMemoryStart + pageSize) ?_ ?_
  · obtain ⟨rec, hrec, hlow, hhigh⟩ := h.live (by decide)
    refine ⟨rec, ?_, hlow, hhigh⟩
    show rec ∈ afterMalloc lives m.state.current 1 (Paging.top m.state program) program.page
    unfold afterMalloc
    rw [if_neg hr, h.current, show program.page = 2 from rfl, Function.update_self]
    exact List.mem_append_left _ hrec
  · show virtToPhysOn s'.mem 1 (userVirtualMemoryStart + pageSize) = 0
    unfold virtToPhysOn
    rw [show pml4Index (userVirtualMemoryStart + pageSize) = 0 by decide]
    simp [habsent]

end Paging

end Os003
