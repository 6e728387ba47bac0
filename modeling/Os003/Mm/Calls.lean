import Os003.Mm.Holdings

set_option autoImplicit false

/-! # Calls of the virtual memory manager

What the loops of `Vmm_Malloc` and `Vmm_Free` do to the tables, and what the accesses to the
descriptor and the record touch.
-/

namespace Os003

namespace Paging

variable {n a d p x i : Nat} {vmms : List Vmm} {S D : Set Nat} {s s' s₁ : State} {v v' : Vmm}
  {w flags : Word} {π : List Nat} {ps : List Nat}

/-! ## Calls that find no page -/

theorem failed_mallocPage (h : s.failed = true) : s.mallocPage.2.failed = true := by
  unfold State.mallocPage State.pmmMalloc
  cases s.supply with
  | nil => rfl
  | cons p ps => exact h

theorem failed_newTable (t i : Nat) (h : s.failed = true) : (newTable t i s).2.failed = true := by
  unfold newTable
  split
  · exact failed_mallocPage h
  · exact failed_mallocPage h

theorem failed_visit (create inner : Bool) (t i : Nat) (h : s.failed = true) :
    (visit create inner t i s).2.failed = true := by
  have hnew : ∀ s : State, s.failed = true → (newTable t i s).2.failed = true := fun s hs =>
    failed_newTable t i hs
  unfold visit
  dsimp only
  generalize hr : (if present (s.mem t i) = true then (some (s.mem t i), s)
    else if create = true then newTable t i s else (none, s)) = r
  have hrs : r.2.failed = true := by
    subst hr
    split
    · exact h
    · split
      · exact hnew s h
      · exact h
  obtain ⟨e, r⟩ := r
  cases e with
  | none => exact hrs
  | some e =>
      dsimp only
      split
      · split
        · exact hnew r hrs
        · exact hrs
      · exact hrs

theorem failed_walk (create : Bool) (t : Nat) (is : List Nat) (h : s.failed = true) :
    (walk create t is s).2.failed = true := by
  induction is generalizing t s with
  | nil => exact h
  | cons i is ih =>
      have hv := failed_visit create (!is.isEmpty) t i h
      unfold walk
      generalize visit create (!is.isEmpty) t i s = r at hv
      obtain ⟨e, r⟩ := r
      cases e with
      | none => exact hv
      | some e =>
          dsimp only
          split
          · exact hv
          · exact ih _ hv

theorem failed_mapPage (a : Nat) (w flags : Word) (h : s.failed = true) :
    (mapPage a w flags s).failed = true := by
  have hw := failed_walk true s.cr3 (indices a) h
  unfold mapPage walkPageTable
  generalize walk true s.cr3 (indices a) s = r at hw
  obtain ⟨e, r⟩ := r
  cases e <;> exact hw

theorem failed_mapRange (virt : Nat) (i : Nat) (ps : List Nat) (h : s.failed = true) :
    (mapRange virt flags i ps s).failed = true := by
  induction ps generalizing i s with
  | nil => exact h
  | cons p ps ih => exact ih (i + 1) (failed_mapPage _ _ _ h)

/-! ## The physical pages of an allocation -/

/-- The loop takes the next pages. -/
theorem mallocPages_spec {k : Nat} {acc : List Nat} (hzero : ∀ p ∈ s.supply, p ≠ 0)
    (hok : (mallocPages k acc s).2.failed = false) : ∃ ps T, ps.length = k ∧
      s.supply = ps ++ s.supply.drop k ∧ (∀ x, x ∈ T ↔ x ∈ s.taken ∨ x ∈ ps) ∧
      mallocPages k acc s = (some (acc ++ ps), { s with supply := s.supply.drop k, taken := T }) := by
  induction k generalizing s acc with
  | zero => exact ⟨[], s.taken, rfl, by simp, by simp, by simp [mallocPages]⟩
  | succ k ih =>
      unfold mallocPages State.pmmMalloc at hok ⊢
      cases hs : s.supply with
      | nil =>
          rw [hs] at hok
          have hfold : ∀ (qs : List Nat) (s : State), s.failed = true →
              (qs.foldl (fun s p => s.pmmFree (addr p)) s).failed = true := by
            intro qs
            induction qs with
            | nil => exact fun s h => h
            | cons q qs ih => exact fun s h => ih (s.pmmFree (addr q)) h
          rw [if_pos rfl] at hok
          dsimp only at hok
          rw [hfold acc _ rfl] at hok
          cases hok
      | cons p ps =>
          rw [hs] at hok hzero
          have hp : p ≠ 0 := hzero p (by simp)
          dsimp only at hok ⊢
          rw [if_neg hp] at hok ⊢
          obtain ⟨qs, T, hlen, hsupply, hT, hrun⟩ :=
            ih (s := { s with supply := ps, taken := insert p s.taken })
              (fun q hq => hzero q (List.mem_cons_of_mem _ hq)) hok
          refine ⟨p :: qs, T, by simp [hlen], ?_, ?_, ?_⟩
          · rw [List.drop_succ_cons, List.cons_append]
            exact congrArg _ hsupply
          · intro x
            rw [hT x]
            simp
            tauto
          · rw [hrun]
            simp

/-- Pages are given back one by one. -/
theorem pmmFree_all {qs : List Nat} (s : State) (h : ∀ p ∈ qs, p < 2 ^ 52) :
    ∃ T, qs.foldl (fun s p => s.pmmFree (addr p)) s = { s with taken := T } ∧
      ∀ x, x ∈ T ↔ x ∈ s.taken ∧ x ∉ qs := by
  induction qs generalizing s with
  | nil => exact ⟨s.taken, rfl, by simp⟩
  | cons q qs ih =>
      have hpage : (addr q).toNat / pageSize = q := by
        rw [addr_toNat (h q List.mem_cons_self), Nat.mul_div_cancel _ (by decide)]
      obtain ⟨T, hrun, hT⟩ := ih (s.pmmFree (addr q)) fun p hp => h p (List.mem_cons_of_mem _ hp)
      refine ⟨T, hrun, fun x => (hT x).trans ?_⟩
      unfold State.pmmFree
      rw [Finset.mem_erase, hpage, List.mem_cons]
      tauto

/-- With too few pages the loop gives back what it has taken. -/
theorem mallocPages_short {k : Nat} {g : List Nat} (hfresh : ∀ p ∈ g ++ s.supply, p ≠ 0 ∧ p < 2 ^ 52)
    (hfew : s.supply.length < k) : ∃ T, mallocPages k g s =
        (none, { s with supply := [], failed := true, taken := T }) ∧
      ∀ x, x ∈ T ↔ x ∈ s.taken ∧ x ∉ g ++ s.supply := by
  induction k generalizing s g with
  | zero => exact absurd hfew (by omega)
  | succ k ih =>
      unfold mallocPages State.pmmMalloc
      cases hs : s.supply with
      | nil =>
          rw [hs, List.append_nil] at hfresh
          obtain ⟨T, hrun, hT⟩ := pmmFree_all { s with supply := [], failed := true } fun p hp =>
            (hfresh p hp).2
          refine ⟨T, ?_, fun x => (hT x).trans (by simp)⟩
          dsimp only
          rw [if_pos rfl]
          exact congrArg (Prod.mk none) hrun
      | cons p ps =>
          rw [hs] at hfresh hfew
          rw [List.length_cons] at hfew
          have hp : p ≠ 0 := (hfresh p (by simp)).1
          dsimp only
          rw [if_neg hp]
          obtain ⟨T, hrun, hT⟩ :=
            ih (s := { s with supply := ps, taken := insert p s.taken }) (g := g ++ [p])
              (fun q hq => hfresh q (by simpa using hq)) (by show ps.length < k; omega)
          refine ⟨T, hrun, fun x => (hT x).trans ?_⟩
          simp
          tauto

/-- What the loop takes is loose, and different from what is given later. -/
theorem Core.mallocPages (h : Core n vmms S s) (v : Vmm) {k : Nat}
    (hok : (mallocPages k [] s).2.failed = false) :
    ∃ ps s₁, Paging.mallocPages k [] s = (some ps, s₁) ∧ ps.length = k ∧ s₁.mem = s.mem ∧
      s₁.failed = s.failed ∧ Acts n vmms S v D s s₁ ∧ Takes s s₁ ∧ ps.Nodup ∧
      ∀ p ∈ ps, p ∈ s.supply ∧ p ≠ 0 ∧ p < 2 ^ 52 ∧ p ∈ s₁.taken ∧ Loose n vmms S s₁ p := by
  obtain ⟨ps, T, hlen, hsupply, hT, hrun⟩ := mallocPages_spec (fun p hp => (h.fresh p hp).1) hok
  have hnodup := h.nodup
  rw [hsupply, List.nodup_append] at hnodup
  obtain ⟨hps, hrest, hdisjoint⟩ := hnodup
  have hmem : ∀ p ∈ ps, p ∈ s.supply := fun p hp => hsupply ▸ List.mem_append_left _ hp
  have hcore : Core n vmms S { s with supply := s.supply.drop k, taken := T } :=
    { apart := h.apart
      closed := h.closed
      sub := h.sub
      nodup := hrest
      fresh := fun p hp => h.fresh p (List.mem_of_mem_drop hp) }
  rw [List.nil_append] at hrun
  refine ⟨ps, { s with supply := s.supply.drop k, taken := T }, hrun, hlen, rfl, rfl, ?_, ?_, hps, ?_⟩
  · exact ⟨hcore, fun _ _ _ => rfl, fun _ _ => rfl, fun _ _ _ _ hx => .inl hx,
      fun _ _ _ _ hx => hx, fun _ _ _ _ hx => .inl hx, fun _ _ _ _ _ hx _ => ⟨hx, rfl⟩,
      List.drop_suffix _ _, ⟨rfl, rfl, rfl⟩⟩
  · intro x
    show x ∈ T ↔ _
    rw [hT x]
    have hsplit : x ∈ s.supply ↔ x ∈ ps ∨ x ∈ s.supply.drop k := by
      rw [← List.mem_append, ← hsupply]
    have hne : x ∈ ps → x ∉ s.supply.drop k := fun hx hx' => hdisjoint x hx x hx' rfl
    show _ ↔ x ∈ s.taken ∨ x ∈ s.supply ∧ x ∉ s.supply.drop k
    tauto
  · intro p hp
    obtain ⟨h0, h52, hunreached⟩ := h.fresh p (hmem p hp)
    exact ⟨hmem p hp, h0, h52, (hT p).mpr (.inr hp),
      fun hp' => hdisjoint p hp p hp' rfl, hunreached⟩

/-! ## Ranges of pages -/

theorem tableOf_flags (hp : p < 2 ^ 52) (hflags : flags.toNat < pageSize) :
    tableOf (addr p ||| flags ||| ptePresent) = p := by
  have hbits : (flags ||| ptePresent).toNat < pageSize := by
    rw [BitVec.toNat_or]
    exact Nat.or_lt_two_pow (n := 12) hflags (by decide)
  rw [BitVec.or_assoc]
  exact tableOf_addr_or hp hbits

/-- The pages of a range are mapped, page by page. -/
def MappedRange (v : Vmm) (vmms : List Vmm) (q : Nat) (ps : List Nat) (s s' : State) : Prop :=
  ∀ v' ∈ vmms, ∀ a', v'.Has a' → pageAt s'.mem v'.pml4 (indices a') =
    if v' = v ∧ q ≤ a' / pageSize ∧ a' / pageSize < q + ps.length then ps[a' / pageSize - q]?
    else pageAt s.mem v'.pml4 (indices a')

/-- The physical pages of a range, for the paths that lead to them. -/
structure LoosePages (n : Nat) (vmms : List Vmm) (S : Set Nat) (flags : Word) (ps : List Nat)
    (s : State) : Prop where
  flags : flags.toNat < pageSize
  nodup : ps.Nodup
  page : ∀ p ∈ ps, p < 2 ^ 52 ∧ Loose n vmms S s p

theorem Core.mapRange {virt : Nat} (h : Core n vmms S s) (hn : 3 ≤ n) (hn4 : n ≤ 4) (hv : v ∈ vmms)
    (hcr3 : s.cr3 = v.pml4) (ha : ∀ j < ps.length, v.Has (virt + (i + j) * pageSize))
    (hok : (mapRange virt flags i ps s).failed = false)
    (hnew : LoosePages n vmms S flags ps s) :
    Acts n vmms S v (fun p => p ∈ ps) s (mapRange virt flags i ps s) ∧
    Takes s (mapRange virt flags i ps s) ∧
    MappedRange v vmms (virt / pageSize + i) ps s (Paging.mapRange virt flags i ps s) := by
  -- by the pages still to map; each one is loose until it is mapped itself
  induction ps generalizing i s with
  | nil =>
      refine ⟨h.acts_refl v, takes_refl rfl rfl, fun v' _ a' _ => ?_⟩
      rw [if_neg]
      · rfl
      · simp only [List.length_nil]
        omega
  | cons p ps ih =>
      have hhas := ha 0 (by simp)
      rw [Nat.add_zero] at hhas
      have hstep : Paging.mapRange virt flags i (p :: ps) s = Paging.mapRange virt flags (i + 1) ps
          (Paging.mapPage (virt + i * pageSize) (addr p) flags s) := by
        rw [Paging.mapRange, Nat.mod_eq_of_lt hhas.lt]
      rw [hstep] at hok ⊢
      have hok₁ : (Paging.mapPage (virt + i * pageSize) (addr p) flags s).failed = false := by
        by_contra hf
        rw [failed_mapRange virt (i + 1) ps (by simpa using hf)] at hok
        cases hok
      have htable : tableOf (addr p ||| flags ||| ptePresent) = p :=
        tableOf_flags (hnew.page p (by simp)).1 hnew.flags
      -- for the later pages `p` itself may not count as one of them
      obtain ⟨hacts, hmapped, htakes⟩ := Core.mapPage (D := fun q => q ∈ p :: ps) h hn hn4 hv hcr3 hhas hok₁
        (fun _ => by rw [htable]; exact (hnew.page p (by simp)).2)
        (fun _ => by rw [htable]; exact List.mem_cons_self)
      have hacts' : Acts n vmms S v (fun q => q = p) s
          (Paging.mapPage (virt + i * pageSize) (addr p) flags s) :=
        (Core.mapPage h hn hn4 hv hcr3 hhas hok₁
          (fun _ => by rw [htable]; exact (hnew.page p (by simp)).2) (fun _ => htable)).1
      obtain ⟨hrest, htakes', hrange⟩ := ih hacts.core (hacts.globals.cr3.trans hcr3)
        (fun j hj => by
          have := ha (j + 1) (by simpa using hj)
          rwa [show i + 1 + j = i + (j + 1) by omega])
        hok (by
          have hnodup := List.nodup_cons.mp hnew.nodup
          refine ⟨hnew.flags, hnodup.2, fun q hq => ?_⟩
          obtain ⟨hq52, hloose⟩ := hnew.page q (List.mem_cons_of_mem _ hq)
          refine ⟨hq52, hloose.acts hacts' ?_⟩
          rintro rfl
          exact hnodup.1 hq)
      refine ⟨hacts.trans (hrest.mono fun q hq => List.mem_cons_of_mem _ hq),
        htakes.trans htakes' hacts.supply hrest.supply, ?_⟩
      intro v' hv' a' ha'
      rw [hrange v' hv' a' ha', hmapped v' hv' a' ha', htable]
      have hpage : (virt + i * pageSize) / pageSize = virt / pageSize + i :=
        Nat.add_mul_div_right _ _ (by decide)
      rw [hpage]
      -- an address of another space, of this page, or of a later one
      by_cases hvv : v' = v
      · subst hvv
        simp only [true_and, List.length_cons]
        by_cases heq : a' / pageSize = virt / pageSize + i
        · rw [if_neg (by omega), if_pos heq, if_pos (by omega), heq]
          simp
        · by_cases hin : virt / pageSize + i ≤ a' / pageSize ∧
              a' / pageSize < virt / pageSize + i + (ps.length + 1)
          · rw [if_pos (by omega), if_pos hin]
            rw [show a' / pageSize - (virt / pageSize + i) =
              a' / pageSize - (virt / pageSize + (i + 1)) + 1 by omega, List.getElem?_cons_succ]
          · rw [if_neg (by omega), if_neg heq, if_neg hin]
      · simp [hvv]

/-- The body of the loop of `Vmm_Free`. -/
theorem Core.freePage (h : Core n vmms S s) (hn : 3 ≤ n) (hn4 : n ≤ 4) (hv : v ∈ vmms)
    (hcr3 : s.cr3 = v.pml4) (ha : v.Has a) (phys : Word) :
    Acts n vmms S v D s (if phys ≠ 0 then (Paging.unmapPage a s).pmmFree phys else s) ∧
    (if phys ≠ 0 then (Paging.unmapPage a s).pmmFree phys else s).supply = s.supply ∧
    ∀ a', v.Has a' → a' / pageSize ≠ a / pageSize →
      pageAt (if phys ≠ 0 then (Paging.unmapPage a s).pmmFree phys else s).mem v.pml4 (indices a') =
        pageAt s.mem v.pml4 (indices a') := by
  have hsupply : (Paging.unmapPage a s).supply = s.supply := by
    rw [unmapPage_eq]
    split
    · split <;> rfl
    · rfl
  split
  · obtain ⟨hacts, hmapped⟩ := h.unmapPage hn hn4 hv hcr3 ha
    refine ⟨hacts.trans (hacts.core.acts_mem v rfl rfl ⟨rfl, rfl, rfl⟩), hsupply, ?_⟩
    intro a' ha' hne
    exact (hmapped v hv a' ha').trans (if_neg fun hc => hne hc.2)
  · exact ⟨h.acts_refl v, rfl, fun _ _ _ => rfl⟩

theorem Core.freePagesFrom {virt k : Nat} (h : Core n vmms S s) (hn : 3 ≤ n) (hn4 : n ≤ 4)
    (hv : v ∈ vmms) (hcr3 : s.cr3 = v.pml4)
    (ha : ∀ j < k, v.Has (virt + (i + j) * pageSize)) :
    Acts n vmms S v D s (Paging.freePagesFrom virt i k s) ∧
    (Paging.freePagesFrom virt i k s).supply = s.supply ∧
    ∀ a', v.Has a' → a' / pageSize < virt / pageSize + i →
      pageAt (Paging.freePagesFrom virt i k s).mem v.pml4 (indices a') =
        pageAt s.mem v.pml4 (indices a') := by
  induction k generalizing i s with
  | zero => exact ⟨h.acts_refl v, rfl, fun _ _ _ => rfl⟩
  | succ k ih =>
      have hhas := ha 0 (by omega)
      rw [Nat.add_zero] at hhas
      rw [Paging.freePagesFrom, Nat.mod_eq_of_lt hhas.lt]
      obtain ⟨hacts, hsupply, hsame⟩ := Core.freePage (D := D) h hn hn4 hv hcr3 hhas
        (s.virtToPhys (virt + i * pageSize))
      obtain ⟨hrest, hsupply', hsame'⟩ := ih hacts.core (hacts.globals.cr3.trans hcr3) fun j hj => by
        have := ha (j + 1) (by omega)
        rwa [show i + 1 + j = i + (j + 1) by omega]
      refine ⟨hacts.trans hrest, hsupply'.trans hsupply, fun a' ha' hlow => ?_⟩
      rw [hsame' a' ha' (by omega)]
      refine hsame a' ha' ?_
      rw [Nat.add_mul_div_right _ _ (by decide)]
      omega

/-- A mapped page is found by the translation. -/
theorem virtToPhys_mapped (hcr3 : s.cr3 = v.pml4) (hp : pageAt s.mem v.pml4 (indices a) = some p)
    (hp0 : p ≠ 0) : s.virtToPhys a ≠ 0 ∧ (s.virtToPhys a).toNat / pageSize = p := by
  have hphys : (s.virtToPhys a).toNat = p * pageSize + a % pageSize := by
    unfold State.virtToPhys
    rw [hcr3]
    exact virtToPhysOn_pageAt hp
  constructor
  · intro h0
    rw [h0] at hphys
    have : 0 < p * pageSize := Nat.mul_pos (Nat.pos_of_ne_zero hp0) (by decide)
    simp at hphys
    omega
  · rw [hphys]
    have := Nat.mod_lt a (show 0 < pageSize by decide)
    unfold pageSize at *
    omega

/-- One turn of the loop of `Vmm_Free` on a mapped page: it is unmapped and given back. -/
theorem Core.freePage_mapped (h : Core 4 vmms S s) (hv : v ∈ vmms) (hcr3 : s.cr3 = v.pml4)
    (ha : v.Has a) (hp : pageAt s.mem v.pml4 (indices a) = some p) (hp0 : p ≠ 0) :
    Acts 4 vmms S v ∅ s ((Paging.unmapPage a s).pmmFree (s.virtToPhys a)) ∧
    (∀ v' ∈ vmms, ∀ a', v'.Has a' →
      pageAt ((Paging.unmapPage a s).pmmFree (s.virtToPhys a)).mem v'.pml4 (indices a') =
        if v' = v ∧ a' / pageSize = a / pageSize then none else pageAt s.mem v'.pml4 (indices a')) ∧
    ∀ x, x ∈ ((Paging.unmapPage a s).pmmFree (s.virtToPhys a)).taken ↔ x ∈ s.taken ∧ p ≠ x := by
  obtain ⟨hacts, hunmap⟩ := Core.unmapPage (D := ∅) h (by decide) le_rfl hv hcr3 ha
  refine ⟨hacts.trans (hacts.core.acts_mem v rfl rfl ⟨rfl, rfl, rfl⟩), hunmap, fun x => ?_⟩
  have hsame : (Paging.unmapPage a s).taken = s.taken := by
    rw [unmapPage_eq]
    split
    · split <;> rfl
    · rfl
  unfold State.pmmFree
  rw [Finset.mem_erase, (virtToPhys_mapped hcr3 hp hp0).2, hsame]
  tauto

/-- The loop of `Vmm_Free` over pages that are mapped: they are unmapped, and the pages behind them given
back. -/
theorem Core.freePagesFrom_mapped {virt k : Nat} (h : Core 4 vmms S s) (hv : v ∈ vmms)
    (hcr3 : s.cr3 = v.pml4) (ha : ∀ j < k, v.Has (virt + (i + j) * pageSize))
    (hmapped : ∀ j < k, ∃ p, pageAt s.mem v.pml4 (indices (virt + (i + j) * pageSize)) = some p ∧
      p ≠ 0) :
    (∀ v' ∈ vmms, ∀ a', v'.Has a' →
      pageAt (Paging.freePagesFrom virt i k s).mem v'.pml4 (indices a') =
        if v' = v ∧ virt / pageSize + i ≤ a' / pageSize ∧ a' / pageSize < virt / pageSize + i + k
        then none else pageAt s.mem v'.pml4 (indices a')) ∧
    ∀ x, x ∈ (Paging.freePagesFrom virt i k s).taken ↔ x ∈ s.taken ∧
      ∀ j < k, pageAt s.mem v.pml4 (indices (virt + (i + j) * pageSize)) ≠ some x := by
  induction k generalizing i s with
  | zero =>
      refine ⟨fun v' _ a' _ => ?_, fun x => by simp [Paging.freePagesFrom]⟩
      rw [if_neg (by omega)]
      rfl
  | succ k ih =>
      have hhas := ha 0 (by omega)
      obtain ⟨p, hp, hp0⟩ := hmapped 0 (by omega)
      rw [Nat.add_zero] at hhas hp
      obtain ⟨hacts, hunmap, htaken⟩ := h.freePage_mapped hv hcr3 hhas hp hp0
      have hnext : (virt + i * pageSize) / pageSize = virt / pageSize + i :=
        Nat.add_mul_div_right _ _ (by decide)
      rw [Paging.freePagesFrom, Nat.mod_eq_of_lt hhas.lt, if_pos (virtToPhys_mapped hcr3 hp hp0).1]
      generalize (Paging.unmapPage (virt + i * pageSize) s).pmmFree
        (s.virtToPhys (virt + i * pageSize)) = u at *
      rw [hnext] at hunmap
      -- the pages still to come are mapped as before
      have hlater : ∀ j < k, pageAt u.mem v.pml4 (indices (virt + (i + 1 + j) * pageSize)) =
          pageAt s.mem v.pml4 (indices (virt + (i + (j + 1)) * pageSize)) := by
        intro j hj
        rw [show i + 1 + j = i + (j + 1) by omega]
        refine (hunmap v hv _ (ha (j + 1) (by omega))).trans (if_neg ?_)
        rw [Nat.add_mul_div_right _ _ (by decide)]
        omega
      obtain ⟨hrange, hrest⟩ := ih hacts.core (hacts.globals.cr3.trans hcr3)
        (fun j hj => by
          have := ha (j + 1) (by omega)
          rwa [show i + 1 + j = i + (j + 1) by omega])
        (fun j hj => by
          rw [hlater j hj]
          exact hmapped (j + 1) (by omega))
      constructor
      · intro v' hv' a' ha'
        rw [hrange v' hv' a' ha', hunmap v' hv' a' ha']
        by_cases hvv : v' = v
        · by_cases heq : a' / pageSize = virt / pageSize + i
          · rw [if_neg (by omega), if_pos ⟨hvv, heq⟩, if_pos ⟨hvv, by omega⟩]
          · by_cases hin : virt / pageSize + (i + 1) ≤ a' / pageSize ∧
                a' / pageSize < virt / pageSize + (i + 1) + k
            · rw [if_pos ⟨hvv, hin⟩, if_pos ⟨hvv, by omega⟩]
            · rw [if_neg (fun hc => hin hc.2), if_neg (fun hc => heq hc.2),
                if_neg (fun hc => hin (by omega))]
        · simp [hvv]
      · intro x
        rw [hrest x, htaken x]
        constructor
        · rintro ⟨⟨hx, hpx⟩, hall⟩
          refine ⟨hx, fun j hj hjx => ?_⟩
          cases j with
          | zero =>
              rw [Nat.add_zero, hp] at hjx
              exact hpx (Option.some.inj hjx)
          | succ j => exact hall j (by omega) ((hlater j (by omega)).trans hjx)
        · rintro ⟨hx, hall⟩
          refine ⟨⟨hx, ?_⟩, fun j hj hjx => hall (j + 1) (by omega) ((hlater j hj).symm.trans hjx)⟩
          rintro rfl
          exact hall 0 (by omega) (by rw [Nat.add_zero]; exact hp)

/-! ## Access by addresses -/

theorem locate_pageAt (h : pageAt s.mem s.cr3 (indices a) = some d) :
    locate s a = some (d, a % pageSize / 8) := by
  obtain ⟨e, he, rfl⟩ := leafOf_pageAt h
  have hlt := tableOf_lt e
  have hmod := Nat.mod_lt a (show 0 < pageSize by decide)
  have hsum : ((e &&& pageMask) + BitVec.ofNat 64 (a % 2 ^ 12)).toNat =
      tableOf e * pageSize + a % pageSize := by
    rw [BitVec.toNat_add, toNat_and_pageMask, ← tableOf_eq, BitVec.toNat_ofNat]
    unfold pageSize at *
    omega
  unfold locate
  rw [he, Option.map_some]
  dsimp only
  rw [hsum]
  simp only [Option.some.injEq, Prod.mk.injEq]
  unfold pageSize at *
  omega

theorem load_eq (h : locate s a = some (d, i)) : load a s = some (s.mem d i) := by
  unfold load
  rw [h]
  rfl

theorem addTo_eq (h : locate s a = some (d, i)) :
    addTo a w s = some (s.write d i (s.mem d i + w)) := by
  unfold addTo load store
  rw [h]
  rfl

theorem addTo_failed (h : addTo a w s = some s') : s'.failed = s.failed := by
  unfold addTo load store at h
  cases hl : locate s a with
  | none => simp [hl] at h
  | some r =>
      simp [hl] at h
      rw [← h]
      rfl

/-- A call that leaves the tables alone. -/
structure Quiet (n : Nat) (vmms : List Vmm) (S : Set Nat) (s s' : State) : Prop where
  core : Core n vmms S s'
  space : ∀ v π, π.length ≤ 4 → Forest.Inner (Used n vmms S) (.space v) π →
    pageAt s'.mem v.pml4 π = pageAt s.mem v.pml4 π
  tables : ∀ v x, Own n vmms S s v x → s'.mem x = s.mem x
  supply : s'.supply = s.supply
  taken : s'.taken = s.taken
  globals : s.SameGlobals s'

theorem used_inner (hπ : Used n vmms S (.space v) π) :
    Forest.Inner (Used n vmms S) (.space v) π := used_closed.inner hπ

/-- Tables are the same pages as before. -/
theorem Quiet.own (h : Quiet n vmms S s s') (v : Vmm) (x : Nat) :
    Own n vmms S s' v x ↔ Own n vmms S s v x := by
  constructor
  · rintro ⟨π, hπ, hlen, hx⟩
    exact ⟨π, hπ, hlen, (h.space v π (by omega) (used_inner hπ)).symm.trans hx⟩
  · rintro ⟨π, hπ, hlen, hx⟩
    exact ⟨π, hπ, hlen, (h.space v π (by omega) (used_inner hπ)).trans hx⟩

theorem Quiet.trans {s'' : State} (h : Quiet n vmms S s s') (h' : Quiet n vmms S s' s'') :
    Quiet n vmms S s s'' where
  core := h'.core
  space v π hlen hπ := (h'.space v π hlen hπ).trans (h.space v π hlen hπ)
  tables v x hx := (h'.tables v x ((h.own v x).mpr hx)).trans (h.tables v x hx)
  supply := h'.supply.trans h.supply
  taken := h'.taken.trans h.taken
  globals := h.globals.trans h'.globals

/-- A word of a page that is not a table is written. -/
theorem Core.write_data (h : Core n vmms S s) (hn4 : n ≤ 4) (hx : ∀ v, ¬ Own n vmms S s v x) :
    Quiet n vmms S s (s.write x i w) := by
  have hspace : ∀ v π, π.length ≤ 4 → Forest.Inner (Used n vmms S) (.space v) π →
      pageAt (s.write x i w).mem v.pml4 π = pageAt s.mem v.pml4 π := by
    intro v π hlen hπ
    refine Forest.follow_congr fun σ j ρ y hσ hy => next_congr ?_
    have hused := hπ σ j ρ hσ
    have hshort : σ.length ≤ 3 := by
      rw [hσ, List.length_append, List.length_cons] at hlen
      omega
    have hyx : y ≠ x := by
      rintro rfl
      exact hx v ⟨σ, hused, hshort, hy⟩
    exact congrFun (State.write_page hyx) j
  have hfollow : ∀ k π, Used n vmms S k π →
      pageAt (s.write x i w).mem (rootOf k) π = pageAt s.mem (rootOf k) π := by
    intro k π hπ
    cases k with
    | page p => rw [hπ.2]; rfl
    | space v => exact hspace v π (used_length hn4 hπ) (used_closed.inner hπ)
  refine ⟨⟨?_, h.closed, h.sub, h.nodup, ?_⟩, hspace, ?_, rfl, rfl, ⟨rfl, rfl, rfl⟩⟩
  · intro k π k' π' y hA hB hy hy'
    exact h.apart k π k' π' y hA hB ((hfollow k π hA).symm.trans hy)
      ((hfollow k' π' hB).symm.trans hy')
  · intro q hq
    obtain ⟨h0, h52, hu⟩ := h.fresh q hq
    exact ⟨h0, h52, fun k π hB hf => hu k π hB ((hfollow k π hB).symm.trans hf)⟩
  · intro v y hy
    refine State.write_page ?_
    rintro rfl
    exact hx v hy

theorem Core.not_own_single (h : Core n vmms S s) (hx : x ∈ S) (v : Vmm) :
    ¬ Own n vmms S s v x := by
  rintro ⟨π, hπ, -, hxπ⟩
  have := (h.apart (.space v) π (.page x) [] x hπ ⟨hx, rfl⟩ hxπ rfl).1
  cases this

/-- A page that is mapped is not a table. -/
theorem Core.not_own_mapped (h : Core 4 vmms S s) (hv : v ∈ vmms) (ha : v.Has a)
    (hd : pageAt s.mem v.pml4 (indices a) = some d) (v' : Vmm) : ¬ Own 4 vmms S s v' d := by
  rintro ⟨π, hπ, hlen, hxπ⟩
  have hused : Used 4 vmms S (.space v) (indices a) :=
    ⟨hv, within_indices a, fun i ρ hi => by
      rw [← (List.cons.inj hi).1]
      exact ha.region⟩
  obtain ⟨-, rfl⟩ := h.apart (.space v') π (.space v) (indices a) d hπ hused hxπ hd
  simp [indices] at hlen

/-! ## The record -/

/-- The page that the record behind the last one is in. -/
def recordPage (s : State) : Nat :=
  (allocRecordOf s.mem s.current + 16 * (allocRecordNumOf s.mem s.current).toNat) / pageSize

/-- The word that the record starts with. -/
def recordWord (s : State) : Nat :=
  (allocRecordOf s.mem s.current + 16 * (allocRecordNumOf s.mem s.current).toNat) % pageSize / 8

/-- While `AllocRecord` is `NULL`, and the record is not written over the `VMM_T`. -/
theorem writeRecord_eq {virt bytes : Nat} (hnull : s.mem s.current 3 = 0)
    (hpage : recordPage s ≠ s.current) : writeRecord virt bytes s =
      setAllocRecordNum s.current (allocRecordNumOf s.mem s.current + 1)
        ((s.write (recordPage s) (recordWord s) (BitVec.ofNat 64 virt)).write (recordPage s)
          (recordWord s + 1) (BitVec.ofNat 64 bytes)) := by
  have hnum := (allocRecordNumOf s.mem s.current).isLt
  have hbase : allocRecordOf s.mem s.current = 0 := by
    unfold allocRecordOf
    rw [hnull]
    rfl
  unfold recordPage at hpage
  unfold writeRecord recordPage recordWord storePhys
  dsimp only
  rw [hbase, Nat.zero_add] at hpage ⊢
  generalize hN : (allocRecordNumOf s.mem s.current).toNat = N at *
  have h₁ : 16 * N % 2 ^ 64 = 16 * N := Nat.mod_eq_of_lt (by omega)
  have h₂ : (16 * N + 8) % 2 ^ 64 = 16 * N + 8 := Nat.mod_eq_of_lt (by omega)
  have hsame : ∀ i w, (s.write (16 * N / pageSize) i w).mem s.current = s.mem s.current :=
    fun i w => State.write_page hpage.symm
  have hbase' : ∀ i w, allocRecordOf (s.write (16 * N / pageSize) i w).mem s.current = 0 := by
    intro i w
    unfold allocRecordOf
    rw [hsame, hnull]
    rfl
  have hnum' : ∀ i w, allocRecordNumOf (s.write (16 * N / pageSize) i w).mem s.current =
      allocRecordNumOf s.mem s.current := by
    intro i w
    unfold allocRecordNumOf
    rw [hsame]
  have hnext : (16 * N + 8) / pageSize = 16 * N / pageSize ∧
      (16 * N + 8) % pageSize / 8 = 16 * N % pageSize / 8 + 1 := by
    unfold pageSize
    omega
  have hnum'' : ∀ i w i' w', allocRecordNumOf ((s.write (16 * N / pageSize) i w).write
      (16 * N / pageSize) i' w').mem s.current = allocRecordNumOf s.mem s.current := by
    intro i w i' w'
    unfold allocRecordNumOf
    rw [State.write_page hpage.symm, hsame]
  rw [h₁, hbase', hnum', hN, Nat.zero_add, h₂, hnext.1, hnext.2, hnum'']

theorem isUser_setAllocRecordNum (p : Nat) (m : BitVec 32) :
    isUserOf (setAllocRecordNum p m s).mem p = isUserOf s.mem p := by
  have hbits : ((s.mem p 4).extractLsb' 32 32 ++ m).extractLsb' 32 8 =
      (s.mem p 4).extractLsb' 32 8 := by
    apply BitVec.eq_of_getLsbD_eq
    intro j hj
    rw [BitVec.getLsbD_extractLsb', BitVec.getLsbD_append, BitVec.getLsbD_extractLsb']
    simp [hj]
    omega
  unfold isUserOf setAllocRecordNum
  rw [State.write_here, hbits]

@[simp] theorem allocRecordNum_set (p : Nat) (m : BitVec 32) :
    allocRecordNumOf (setAllocRecordNum p m s).mem p = m := by
  unfold allocRecordNumOf setAllocRecordNum
  rw [State.write_here]
  apply BitVec.eq_of_getLsbD_eq
  intro j hj
  rw [BitVec.getLsbD_setWidth, BitVec.getLsbD_append]
  simp [hj]

theorem Core.setAllocRecordNum (h : Core n vmms S s) (hn4 : n ≤ 4) (hp : p ∈ S) (m : BitVec 32) :
    Quiet n vmms S s (setAllocRecordNum p m s) :=
  h.write_data hn4 (h.not_own_single hp)

/-- The record and their number: what is not a table stays so. -/
theorem Core.writeRecord (h : Core n vmms S s) (virt bytes : Nat) (hn4 : n ≤ 4)
    (hcurrent : s.current ∈ S) (hnull : s.mem s.current 3 = 0)
    (hfree : ∀ v, ¬ Own n vmms S s v (recordPage s)) (hpage : recordPage s ≠ s.current) :
    Quiet n vmms S s (writeRecord virt bytes s) ∧
    (∀ x, x ≠ s.current → x ≠ recordPage s → (Paging.writeRecord virt bytes s).mem x = s.mem x) ∧
    (∀ i < 4, (Paging.writeRecord virt bytes s).mem s.current i = s.mem s.current i) ∧
    isUserOf (Paging.writeRecord virt bytes s).mem s.current = isUserOf s.mem s.current ∧
    allocRecordNumOf (Paging.writeRecord virt bytes s).mem s.current =
      allocRecordNumOf s.mem s.current + 1 := by
  rw [writeRecord_eq hnull hpage]
  have h₁ : Quiet n vmms S s (s.write (recordPage s) (recordWord s) (BitVec.ofNat 64 virt)) :=
    h.write_data hn4 hfree
  have h₂ : Quiet n vmms S s ((s.write (recordPage s) (recordWord s) (BitVec.ofNat 64 virt)).write
      (recordPage s) (recordWord s + 1) (BitVec.ofNat 64 bytes)) :=
    h₁.trans (h₁.core.write_data hn4 fun v hown => hfree v ((h₁.own v _).mp hown))
  generalize hs₂ : (s.write (recordPage s) (recordWord s) (BitVec.ofNat 64 virt)).write
    (recordPage s) (recordWord s + 1) (BitVec.ofNat 64 bytes) = s₂ at h₂ ⊢
  have hmem : ∀ x, x ≠ recordPage s → s₂.mem x = s.mem x := by
    intro x hx
    rw [← hs₂, State.write_page hx, State.write_page hx]
  refine ⟨h₂.trans (h₂.core.setAllocRecordNum hn4 hcurrent _), ?_, ?_, ?_, ?_⟩
  · intro x hx hxr
    exact (State.write_page hx).trans (hmem x hxr)
  · intro i hi
    refine (State.write_other (.inr (by omega))).trans ?_
    rw [hmem _ hpage.symm]
  · rw [isUser_setAllocRecordNum]
    unfold isUserOf
    rw [hmem _ hpage.symm]
  · exact allocRecordNum_set _ _

/-! ## The descriptor -/

theorem startOf_has (v : Vmm) : v.Has (startOf v.isUser) := by
  unfold Vmm.Has startOf userVirtualMemoryStart kernelVirtualMemoryStart
  cases v.isUser <;> simp

/-- Addresses up to the end are in the half of the address space. -/
theorem has_of_range (hlow : startOf v.isUser ≤ a) (hhigh : a < endOf v.isUser) : v.Has a := by
  unfold Vmm.Has
  unfold startOf userVirtualMemoryStart kernelVirtualMemoryStart at hlow
  unfold endOf userVirtualMemoryEnd kernelVirtualMemoryEnd at hhigh
  cases hu : v.isUser <;> simp [hu] at hlow hhigh ⊢ <;> omega

theorem startOf_aligned (v : Vmm) : startOf v.isUser % pageSize = 0 := by
  cases v.isUser <;> decide

/-- The fields of the descriptor. -/
theorem locate_desc {o : Nat} (hcr3 : s.cr3 = v.pml4)
    (hd : pageAt s.mem v.pml4 (indices (startOf v.isUser)) = some d) (hoff : o < pageSize) :
    locate s (startOf v.isUser + o) = some (d, o / 8) := by
  have haligned := startOf_aligned v
  have hindices : indices (startOf v.isUser + o) = indices (startOf v.isUser) := by
    refine indices_congr ?_
    unfold pageSize at *
    omega
  rw [locate_pageAt (d := d) (by rw [hindices, hcr3]; exact hd)]
  simp only [Option.some.injEq, Prod.mk.injEq, true_and]
  unfold pageSize at *
  omega

/-- A word of the descriptor is written. -/
theorem Core.write_desc (h : Core n vmms S s) (hn : 3 ≤ n) (hn4 : n ≤ 4) (hv : v ∈ vmms)
    (hd : pageAt s.mem v.pml4 (indices (startOf v.isUser)) = some d)
    (hown : ∀ v', ¬ Own n vmms S s v' d) :
    Quiet n vmms S s (s.write d i w) ∧
    pageAt (s.write d i w).mem v.pml4 (indices (startOf v.isUser)) = some d := by
  have hquiet : Quiet n vmms S s (s.write d i w) := h.write_data hn4 hown
  exact ⟨hquiet, (hquiet.space v _ le_rfl (inner_indices hn hv (startOf_has v))).trans hd⟩

/-- A field of the descriptor is changed. -/
theorem Core.addTo_desc {o : Nat} (h : Core n vmms S s) (hn : 3 ≤ n) (hn4 : n ≤ 4) (hv : v ∈ vmms)
    (hcr3 : s.cr3 = v.pml4) (hd : pageAt s.mem v.pml4 (indices (startOf v.isUser)) = some d)
    (hown : ∀ v', ¬ Own n vmms S s v' d) (hoff : o < pageSize)
    (hadd : addTo (startOf v.isUser + o) w s = some s') :
    Quiet n vmms S s s' ∧ s' = s.write d (o / 8) (s.mem d (o / 8) + w) ∧
    pageAt s'.mem v.pml4 (indices (startOf v.isUser)) = some d := by
  rw [addTo_eq (locate_desc hcr3 hd hoff)] at hadd
  obtain rfl := Option.some.inj hadd
  obtain ⟨hquiet, hd'⟩ := h.write_desc hn hn4 hv hd hown
  exact ⟨hquiet, rfl, hd'⟩

/-- Addresses of pages, and sizes in pages, are no entries that are present. -/
theorem present_aligned {a : Nat} (h : a % pageSize = 0) : present (BitVec.ofNat 64 a) = false := by
  rw [present_eq, BitVec.getLsbD_ofNat, Nat.testBit_zero]
  unfold pageSize at h
  simp
  omega

theorem write_fades (s : State) {t j : Nat} (hw : present w = false) (x i : Nat) :
    (s.write t j w).mem x i = s.mem x i ∨ present ((s.write t j w).mem x i) = false := by
  by_cases hslot : x = t ∧ i = j
  · obtain ⟨rfl, rfl⟩ := hslot
    right
    rwa [State.write_here]
  · exact .inl (State.write_other (by tauto))

/-- Entries of tables that a record is written over become absent. -/
theorem writeRecord_fades {virt bytes : Nat} (hvirt : virt % pageSize = 0) (hbytes : bytes % pageSize = 0)
    (hx : x ≠ s.current) (i : Nat) : (writeRecord virt bytes s).mem x i = s.mem x i ∨
      present ((writeRecord virt bytes s).mem x i) = false := by
  unfold writeRecord setAllocRecordNum storePhys
  dsimp only
  rw [State.write_page hx]
  generalize (allocRecordOf s.mem s.current + _) % 2 ^ 64 = slot
  generalize hs₁ : s.write (slot / pageSize) (slot % pageSize / 8) (BitVec.ofNat 64 virt) = s₁
  rcases write_fades s₁ (present_aligned hbytes) x i with hsame | habsent
  · rw [hsame, ← hs₁]
    exact write_fades s (present_aligned hvirt) x i
  · exact .inr habsent

/-! ## A call of `Vmm_Malloc` -/

/-- What a call of `Vmm_Malloc` that maps pages goes through. -/
structure Granted (size : Nat) (s : State) (r : Nat) (s' : State) (A : Word) (ps : List Nat)
    (s₁ s₂ s₃ s₄ : State) : Prop where
  positive : size ≠ 0
  address : load (descriptorOf s.mem s.current) s = some A
  bound : ¬ endOf (isUserOf s.mem s.current) < (A.toNat + pagesFor size * pageSize) % 2 ^ 64
  pages : mallocPages (pagesFor size) [] s = (some ps, s₁)
  desc : addTo (descriptorOf s.mem s.current) (BitVec.ofNat 64 (pagesFor size * pageSize))
    (mapRange A.toNat (flagOf s₁.mem s₁.current) 0 ps s₁) = some s₂
  bytes : addTo (descriptorOf s.mem s.current + 16)
    (BitVec.ofNat 64 (pagesFor size * pageSize)) s₂ = some s₃
  number : addTo (descriptorOf s.mem s.current + 8) (BitVec.ofNat 64 (pagesFor size)) s₃ = some s₄
  result : r = A.toNat
  record : s' = writeRecord A.toNat (pagesFor size * pageSize) s₄

theorem vmmMalloc_cases {size r : Nat} (h : vmmMalloc size s = some (r, s')) :
    (r = 0 ∧ (s' = s ∨ mallocPages (pagesFor size) [] s = (none, s'))) ∨
      ∃ A ps s₁ s₂ s₃ s₄, Granted size s r s' A ps s₁ s₂ s₃ s₄ := by
  unfold vmmMalloc at h
  by_cases hsize : size = 0
  · simp [hsize] at h
    exact .inl ⟨h.1.symm, .inl h.2.symm⟩
  by_cases hdesc : descriptorOf s.mem s.current = 0
  · simp [hsize, hdesc] at h
    exact .inl ⟨h.1.symm, .inl h.2.symm⟩
  simp only [hsize, hdesc, if_false, Option.bind_eq_bind, Option.pure_def] at h
  obtain ⟨A, hA, h⟩ := Option.bind_eq_some_iff.mp h
  split at h
  · simp at h
    exact .inl ⟨h.1.symm, .inl h.2.symm⟩
  next hb =>
    cases hp : mallocPages (pagesFor size) [] s with
    | mk e s₁ =>
        rw [hp] at h
        cases e with
        | none =>
            simp at h
            exact .inl ⟨h.1.symm, .inr (by rw [h.2])⟩
        | some ps =>
            dsimp only at h
            obtain ⟨s₂, h₂, h⟩ := Option.bind_eq_some_iff.mp h
            obtain ⟨s₃, h₃, h⟩ := Option.bind_eq_some_iff.mp h
            obtain ⟨s₄, h₄, h⟩ := Option.bind_eq_some_iff.mp h
            obtain ⟨h₅, h₆⟩ := Prod.mk.inj (Option.some.inj h)
            exact .inr ⟨A, ps, s₁, s₂, s₃, s₄, hsize, hA, hb, hp, h₂, h₃, h₄, h₅.symm, h₆.symm⟩

/-- The pages that a call touches besides the tables: the record and the page of the descriptor are used
for nothing else. -/
structure Unused (n : Nat) (vmms : List Vmm) (S : Set Nat) (s : State) (x : Nat) : Prop where
  own : ∀ v, ¬ Own n vmms S s v x
  single : x ∉ S
  given : x ∉ s.supply

/-- The pages of an allocation of `k` pages at `A` have been mapped, in the state `u`, where the
descriptor is in the page `e`. -/
structure Ranged (n : Nat) (vmms : List Vmm) (S : Set Nat) (v : Vmm) (s u : State) (A k d e : Nat)
    (ps : List Nat) : Prop where
  length : ps.length = k
  acts : Acts n vmms S v (fun p => p ∈ ps) s u
  takes : Takes s u
  mapped : MappedRange v vmms (A / pageSize) ps s u
  page : ∀ p ∈ ps, p ∈ s.supply ∧ p ≠ 0 ∧ p < 2 ^ 52 ∧ p ∈ u.taken
  desc : pageAt u.mem v.pml4 (indices (startOf v.isUser)) = some e
  which : e = d ∨ e ∈ ps
  outside : e ∉ S
  unowned : ∀ v', ¬ Own n vmms S u v' e

/-- A page that is used for nothing is not made a table. -/
theorem Acts.not_own {u : State} (h : Core n vmms S s) (ha : Acts n vmms S v D s u)
    (hx : Unused n vmms S s x) (v' : Vmm) : ¬ Own n vmms S u v' x := by
  intro hown
  rcases ha.own h hown with hold | hnew
  · exact hx.own v' hold
  · exact hx.given hnew.1

theorem Core.ranged {A k : Nat} {s₁ : State} (h : Core n vmms S s) (hn : 3 ≤ n) (hn4 : n ≤ 4)
    (hv : v ∈ vmms) (hcr3 : s.cr3 = v.pml4) (hflag : flags.toNat < pageSize)
    (hpages : Paging.mallocPages k [] s = (some ps, s₁))
    (hok : (Paging.mapRange A flags 0 ps s₁).failed = false)
    (ha : ∀ j < k, v.Has (A + j * pageSize))
    (hd : pageAt s.mem v.pml4 (indices (startOf v.isUser)) = some d)
    (hdesc : Unused n vmms S s d) :
    ∃ e, Ranged n vmms S v s (Paging.mapRange A flags 0 ps s₁) A k d e ps := by
  -- no call has found too few pages
  have hok₀ : (Paging.mallocPages k [] s).2.failed = false := by
    rw [hpages]
    by_contra hf
    rw [failed_mapRange _ _ _ (by simpa using hf)] at hok
    cases hok
  obtain ⟨ps', s₁', hrun, hlen, hmem₁, -, hacts₁, htakes₁, hnodup, hps⟩ :=
    Core.mallocPages (D := fun p => p ∈ ps) h v hok₀
  rw [hpages] at hrun
  obtain ⟨hps', rfl⟩ := Prod.mk.inj hrun
  obtain rfl := Option.some.inj hps'
  have hcr3₁ : s₁.cr3 = v.pml4 := hacts₁.globals.cr3.trans hcr3
  obtain ⟨hacts₂, htakes₂, hmapped⟩ := hacts₁.core.mapRange (i := 0) hn hn4 hv hcr3₁
    (fun j hj => by rw [Nat.zero_add]; exact ha j (hlen ▸ hj)) hok
    ⟨hflag, hnodup, fun p hp => ⟨(hps p hp).2.2.1, (hps p hp).2.2.2.2⟩⟩
  rw [Nat.add_zero] at hmapped
  generalize Paging.mapRange A flags 0 ps s₁ = u at *
  have hacts : Acts n vmms S v (fun p => p ∈ ps) s u := hacts₁.trans hacts₂
  have hmappedS : MappedRange v vmms (A / pageSize) ps s u := by
    intro v' hv' a' ha'
    rw [hmapped v' hv' a' ha', hmem₁]
  -- the descriptor is where it was, or in one of the new pages
  obtain ⟨e, he, hwhich⟩ : ∃ e, pageAt u.mem v.pml4 (indices (startOf v.isUser)) = some e ∧
      (e = d ∨ e ∈ ps) := by
    have hm := hmappedS v hv (startOf v.isUser) (startOf_has v)
    split at hm
    · rename_i hin
      obtain ⟨e, he⟩ : ∃ e, ps[startOf v.isUser / pageSize - A / pageSize]? = some e :=
        ⟨_, List.getElem?_eq_getElem (by omega)⟩
      exact ⟨e, hm.trans he, .inr (List.mem_of_getElem? he)⟩
    · exact ⟨d, hm.trans hd, .inl rfl⟩
  refine ⟨e, hlen, hacts, htakes₁.trans htakes₂ hacts₁.supply hacts₂.supply, hmappedS, ?_, he, hwhich,
    ?_, ?_⟩
  · intro p hp
    obtain ⟨hs, h0, h52, htaken, -⟩ := hps p hp
    exact ⟨hs, h0, h52, (htakes₂ p).mpr (.inl htaken)⟩
  · rcases hwhich with rfl | hmem
    · exact hdesc.single
    · exact (hps e hmem).2.2.2.2.not_single
  · intro v' hown
    rcases hwhich with rfl | hmem
    · exact hacts.not_own h hdesc v' hown
    · obtain ⟨-, -, -, -, hloose⟩ := hps e hmem
      rcases hacts₂.own hacts₁.core hown with hold | hnew
      · exact hloose.not_own v' hold
      · exact hloose.1 hnew.1

/-- The fields of the descriptor, in the page `e`, are there to be changed. -/
theorem Core.fields_run {e : Nat} (h : Core n vmms S s) (hn : 3 ≤ n) (hn4 : n ≤ 4) (hv : v ∈ vmms)
    (hcr3 : s.cr3 = v.pml4) (he : pageAt s.mem v.pml4 (indices (startOf v.isUser)) = some e)
    (hown : ∀ v', ¬ Own n vmms S s v' e) (w₁ w₂ w₃ : Word) :
    ∃ s₂ s₃ s₄, addTo (startOf v.isUser) w₁ s = some s₂ ∧
      addTo (startOf v.isUser + 16) w₂ s₂ = some s₃ ∧ addTo (startOf v.isUser + 8) w₃ s₃ = some s₄ := by
  obtain ⟨q₂, he₂⟩ := h.write_desc (i := 0 / 8) (w := s.mem e (0 / 8) + w₁) hn hn4 hv he hown
  have hown₂ := fun v' hown' => hown v' ((q₂.own v' e).mp hown')
  have hcr3₂ : ∀ i w, (s.write e i w).cr3 = v.pml4 := fun _ _ => hcr3
  obtain ⟨-, he₃⟩ := q₂.core.write_desc (i := 16 / 8)
    (w := (s.write e (0 / 8) (s.mem e (0 / 8) + w₁)).mem e (16 / 8) + w₂) hn hn4 hv he₂ hown₂
  have hcr3₃ : ∀ i w i' w', ((s.write e i w).write e i' w').cr3 = v.pml4 := fun _ _ _ _ => hcr3
  exact ⟨_, _, _, addTo_eq (locate_desc (o := 0) hcr3 he (by decide)),
    addTo_eq (locate_desc (hcr3₂ _ _) he₂ (by decide)),
    addTo_eq (locate_desc (hcr3₃ _ _ _ _) he₃ (by decide))⟩

theorem Core.fields {s₂ s₃ s₄ : State} {e : Nat} {w₁ w₂ w₃ : Word} (h : Core n vmms S s) (hn : 3 ≤ n)
    (hn4 : n ≤ 4) (hv : v ∈ vmms) (hcr3 : s.cr3 = v.pml4)
    (he : pageAt s.mem v.pml4 (indices (startOf v.isUser)) = some e)
    (hown : ∀ v', ¬ Own n vmms S s v' e) (h₂ : addTo (startOf v.isUser) w₁ s = some s₂)
    (h₃ : addTo (startOf v.isUser + 16) w₂ s₂ = some s₃)
    (h₄ : addTo (startOf v.isUser + 8) w₃ s₃ = some s₄) :
    Quiet n vmms S s s₄ ∧ (∀ x, x ≠ e → s₄.mem x = s.mem x) ∧ s₄.mem e 0 = s.mem e 0 + w₁ := by
  obtain ⟨q₂, rfl, he₂⟩ := h.addTo_desc (o := 0) hn hn4 hv hcr3 he hown (by decide) h₂
  have hown₂ := fun v' hown' => hown v' ((q₂.own v' e).mp hown')
  obtain ⟨q₃, rfl, he₃⟩ := q₂.core.addTo_desc (o := 16) hn hn4 hv hcr3 he₂ hown₂ (by decide) h₃
  have hown₃ := fun v' hown' => hown₂ v' ((q₃.own v' e).mp hown')
  obtain ⟨q₄, rfl, -⟩ := q₃.core.addTo_desc (o := 8) hn hn4 hv hcr3 he₃ hown₃ (by decide) h₄
  refine ⟨(q₂.trans q₃).trans q₄, ?_, ?_⟩
  · intro x hx
    rw [State.write_page hx, State.write_page hx, State.write_page hx]
  · rw [State.write_other (.inr (by decide)), State.write_other (.inr (by decide))]
    exact State.write_here

/-- What a call of `Vmm_Malloc` does: pages are mapped in the state `u`, and then the descriptor and
the record are written. -/
structure Mallocs (n : Nat) (vmms : List Vmm) (S : Set Nat) (v : Vmm) (s u s' : State) (A k d e : Nat)
    (ps : List Nat) : Prop extends Ranged n vmms S v s u A k d e ps where
  quiet : Quiet n vmms S u s'
  frame : ∀ x, x ≠ e → x ≠ v.page → x ≠ recordPage s → s'.mem x = u.mem x
  vmm : ∀ i < 4, s'.mem v.page i = s.mem v.page i
  isUser : isUserOf s'.mem v.page = isUserOf s.mem v.page
  num : allocRecordNumOf s'.mem v.page = allocRecordNumOf s.mem v.page + 1
  address : e ≠ recordPage s → s'.mem e 0 = u.mem e 0 + BitVec.ofNat 64 (k * pageSize)

/-- A call of `Vmm_Malloc` up to its record. -/
theorem Core.granted {size r : Nat} {A : Word} {s₁ s₂ s₃ s₄ : State} (h : Core n vmms S s) (hn : 3 ≤ n)
    (hn4 : n ≤ 4) (hv : v ∈ vmms) (hS : v.page ∈ S) (hcur : s.current = v.page)
    (hcr3 : s.cr3 = v.pml4) (hflag : (flagOf s.mem v.page).toNat < pageSize)
    (hstart : descriptorOf s.mem v.page = startOf v.isUser)
    (hg : Granted size s r s' A ps s₁ s₂ s₃ s₄) (hok : s'.failed = false)
    (ha : ∀ j < pagesFor size, v.Has (A.toNat + j * pageSize))
    (hd : pageAt s.mem v.pml4 (indices (startOf v.isUser)) = some d)
    (hdesc : Unused n vmms S s d) :
    ∃ u e, Ranged n vmms S v s u A.toNat (pagesFor size) d e ps ∧ Quiet n vmms S u s₄ ∧
      (∀ x, x ≠ e → s₄.mem x = u.mem x) ∧
      s₄.mem e 0 = u.mem e 0 + BitVec.ofNat 64 (pagesFor size * pageSize) ∧
      s₄.mem v.page = s.mem v.page ∧ s₄.current = v.page := by
  obtain ⟨-, -, -, hpages, h₂, h₃, h₄, -, rfl⟩ := hg
  have hok₄ : s₄.failed = false := hok
  have hok₁ : (Paging.mapRange A.toNat (flagOf s₁.mem s₁.current) 0 ps s₁).failed = false := by
    rw [← addTo_failed h₂, ← addTo_failed h₃, ← addTo_failed h₄, hok₄]
  rw [hcur, hstart] at h₂ h₃ h₄
  have hflag₁ : (flagOf s₁.mem s₁.current).toNat < pageSize := by
    have hspec := mallocPages_spec (k := pagesFor size) (fun p hp => (h.fresh p hp).1) (by
      rw [hpages]
      by_contra hf
      rw [failed_mapRange _ _ _ (by simpa using hf)] at hok₁
      cases hok₁)
    obtain ⟨qs, T, -, -, -, hrun⟩ := hspec
    rw [hpages] at hrun
    obtain rfl := (Prod.mk.inj hrun).2
    exact hcur.symm ▸ hflag
  obtain ⟨e, hr⟩ := h.ranged hn hn4 hv hcr3 hflag₁ hpages hok₁ ha hd hdesc
  obtain ⟨hquiet, hmem₄, haddress⟩ := hr.acts.core.fields hn hn4 hv
    (hr.acts.globals.cr3.trans hcr3) hr.desc hr.unowned h₂ h₃ h₄
  refine ⟨_, e, hr, hquiet, hmem₄, haddress, ?_, ?_⟩
  · rw [hmem₄ _ (fun heq => hr.outside (heq ▸ hS)), hr.acts.single h hS]
  · exact hquiet.globals.current.trans (hr.acts.globals.current.trans hcur)

theorem Core.malloc {size r : Nat} {A : Word} {s₂ s₃ s₄ : State} (h : Core n vmms S s) (hn : 3 ≤ n)
    (hn4 : n ≤ 4) (hv : v ∈ vmms) (hS : v.page ∈ S) (hcur : s.current = v.page)
    (hcr3 : s.cr3 = v.pml4) (hflag : (flagOf s.mem v.page).toNat < pageSize)
    (hstart : descriptorOf s.mem v.page = startOf v.isUser) (hnull : s.mem v.page 3 = 0)
    (hg : Granted size s r s' A ps s₁ s₂ s₃ s₄) (hok : s'.failed = false)
    (ha : ∀ j < pagesFor size, v.Has (A.toNat + j * pageSize))
    (hd : pageAt s.mem v.pml4 (indices (startOf v.isUser)) = some d)
    (hdesc : Unused n vmms S s d) (hrecord : Unused n vmms S s (recordPage s)) :
    ∃ u e, Mallocs n vmms S v s u s' A.toNat (pagesFor size) d e ps := by
  obtain ⟨u, e, hr, hquiet, hmem₄, haddress, hvmm, hcur₄⟩ :=
    h.granted hn hn4 hv hS hcur hcr3 hflag hstart hg hok ha hd hdesc
  have hrecord₄ : recordPage s₄ = recordPage s := by
    unfold recordPage allocRecordOf allocRecordNumOf
    rw [hcur₄, hcur, hvmm]
  have hpage : recordPage s₄ ≠ v.page := by
    rw [hrecord₄]
    exact fun heq => hrecord.single (heq ▸ hS)
  obtain ⟨q₅, hframe, hfields, huser, hnum⟩ := hquiet.core.writeRecord
    A.toNat (pagesFor size * pageSize) hn4 (hcur₄ ▸ hS) (by rw [hcur₄, hvmm, hnull])
    (fun v' hown => hr.acts.not_own h hrecord v' ((hquiet.own v' _).mp (hrecord₄ ▸ hown)))
    (by rw [hcur₄]; exact hpage)
  rw [← hg.record] at q₅ hframe hfields huser hnum
  rw [hcur₄] at hfields huser hframe hnum
  rw [hrecord₄] at hframe
  refine ⟨u, e, hr, hquiet.trans q₅, ?_, ?_, ?_, ?_, ?_⟩
  · intro x hxe hxv hxr
    rw [hframe x hxv hxr, hmem₄ x hxe]
  · intro i hi
    rw [hfields i hi, hvmm]
  · rw [huser]
    unfold isUserOf
    rw [hvmm]
  · rw [hnum]
    unfold allocRecordNumOf
    rw [hvmm]
  · intro her
    rw [hframe e (fun heq => hr.outside (heq ▸ hS)) her, haddress]

/-- What a call of `Vmm_Free` that gets to the pages goes through. -/
structure Released (virt size : Nat) (s s' s₂ s₃ : State) : Prop where
  low : startOf (isUserOf s.mem s.current) + pageSize ≤ virt
  bytes : addTo (descriptorOf s.mem s.current + 16) (-BitVec.ofNat 64 (pagesFor size * pageSize))
    (freePagesFrom virt 0 (pagesFor size) s) = some s₂
  number : addTo (descriptorOf s.mem s.current + 8) (-BitVec.ofNat 64 (pagesFor size)) s₂ = some s₃
  record : s' = setAllocRecordNum s₃.current (allocRecordNumOf s₃.mem s₃.current - 1) s₃

theorem vmmFree_cases {virt size : Nat} (h : vmmFree virt size s = some s') :
    (s' = s ∧ (s.current = 0 ∨ virt = 0 ∨ size = 0 ∨
      virt < startOf (isUserOf s.mem s.current) + pageSize ∨
      ∃ A, load (descriptorOf s.mem s.current) s = some A ∧ A.toNat < virt)) ∨
      ∃ s₂ s₃, Released virt size s s' s₂ s₃ := by
  unfold vmmFree at h
  by_cases hargs : s.current = 0 ∨ virt = 0 ∨ size = 0
  · simp [hargs] at h
    exact .inl ⟨h.symm, by tauto⟩
  by_cases hlow : virt < startOf (isUserOf s.mem s.current) + pageSize
  · simp [hargs, hlow] at h
    exact .inl ⟨h.symm, by tauto⟩
  simp only [hargs, hlow, if_false, Option.bind_eq_bind, Option.pure_def] at h
  obtain ⟨A, hA, h⟩ := Option.bind_eq_some_iff.mp h
  split at h
  · rename_i hhigh
    simp at h
    exact .inl ⟨h.symm, .inr (.inr (.inr (.inr ⟨A, hA, hhigh⟩)))⟩
  · obtain ⟨s₂, h₂, h⟩ := Option.bind_eq_some_iff.mp h
    obtain ⟨s₃, h₃, h⟩ := Option.bind_eq_some_iff.mp h
    exact .inr ⟨s₂, s₃, by omega, h₂, h₃, (Option.some.inj h).symm⟩

/-- What a call of `Vmm_Free` does: the pages are freed in the state `u`, and then the descriptor, in the
page `d`, and the number of records are written. -/
structure Frees (n : Nat) (vmms : List Vmm) (S : Set Nat) (v : Vmm) (s u s' : State) (d : Nat) : Prop
    where
  acts : Acts n vmms S v ∅ s u
  supply : u.supply = s.supply
  desc : pageAt u.mem v.pml4 (indices (startOf v.isUser)) = some d
  quiet : Quiet n vmms S u s'
  frame : ∀ x, x ≠ d → x ≠ v.page → s'.mem x = u.mem x
  vmm : ∀ i < 4, s'.mem v.page i = s.mem v.page i
  isUser : isUserOf s'.mem v.page = isUserOf s.mem v.page
  address : s'.mem d 0 = u.mem d 0

theorem Core.free {virt size : Nat} {s₂ s₃ : State} (h : Core n vmms S s) (hn : 3 ≤ n)
    (hn4 : n ≤ 4) (hv : v ∈ vmms) (hS : v.page ∈ S) (hcur : s.current = v.page)
    (hcr3 : s.cr3 = v.pml4) (huser : isUserOf s.mem v.page = v.isUser)
    (hstart : descriptorOf s.mem v.page = startOf v.isUser)
    (hr : Released virt size s s' s₂ s₃)
    (ha : ∀ j < pagesFor size, v.Has (virt + j * pageSize))
    (hd : pageAt s.mem v.pml4 (indices (startOf v.isUser)) = some d)
    (hdesc : Unused n vmms S s d) :
    Frees n vmms S v s (Paging.freePagesFrom virt 0 (pagesFor size) s) s' d := by
  obtain ⟨hlow, h₂, h₃, rfl⟩ := hr
  rw [hcur, huser] at hlow
  rw [hcur, hstart] at h₂ h₃
  have ha₀ : ∀ j < pagesFor size, v.Has (virt + (0 + j) * pageSize) := fun j hj => by
    rw [Nat.zero_add]
    exact ha j hj
  -- the pages are freed first; then the two counters, and last the number of records
  obtain ⟨hacts, hsupply, hsame⟩ := Core.freePagesFrom (D := ∅) h hn hn4 hv hcr3 ha₀
  generalize Paging.freePagesFrom virt 0 (pagesFor size) s = u at *
  have hu : pageAt u.mem v.pml4 (indices (startOf v.isUser)) = some d := by
    rw [hsame _ (startOf_has v) ?_, hd]
    have haligned := startOf_aligned v
    unfold pageSize at *
    omega
  -- the page of the descriptor is no table, of the old ones or of the new
  have hown : ∀ v', ¬ Own n vmms S u v' d := by
    intro v' hown
    rcases hacts.own h hown with hold | hnew
    · exact hdesc.own v' hold
    · exact hdesc.given hnew.1
  have hdS : d ≠ v.page := fun heq => hdesc.single (heq ▸ hS)
  have hcr3u : u.cr3 = v.pml4 := hacts.globals.cr3.trans hcr3
  obtain ⟨q₂, rfl, hu₂⟩ := hacts.core.addTo_desc (o := 16) hn hn4 hv hcr3u hu hown (by decide) h₂
  have hown₂ := fun v' hown' => hown v' ((q₂.own v' d).mp hown')
  obtain ⟨q₃, rfl, -⟩ := q₂.core.addTo_desc (o := 8) hn hn4 hv hcr3u hu₂ hown₂ (by decide) h₃
  have hquiet := q₂.trans q₃
  generalize hs₃ : State.write _ d (8 / 8) _ = s₃ at *
  have hmem₃ : ∀ x, x ≠ d → s₃.mem x = u.mem x := by
    intro x hx
    rw [← hs₃, State.write_page hx, State.write_page hx]
  have hcur₃ : s₃.current = v.page := hquiet.globals.current.trans (hacts.globals.current.trans hcur)
  have hvmm : s₃.mem v.page = s.mem v.page := by
    rw [hmem₃ _ hdS.symm, hacts.single h hS]
  rw [hcur₃]
  have q₄ := hquiet.core.setAllocRecordNum hn4 hS (allocRecordNumOf s₃.mem v.page - 1)
  refine ⟨hacts, hsupply, hu, hquiet.trans q₄, ?_, ?_, ?_, ?_⟩
  · intro x hxd hxv
    exact (State.write_page hxv).trans (hmem₃ x hxd)
  · intro i hi
    refine (State.write_other (.inr (by omega))).trans ?_
    rw [hvmm]
  · rw [isUser_setAllocRecordNum]
    unfold isUserOf
    rw [hvmm]
  · refine (congrFun (State.write_page hdS) 0).trans ?_
    rw [← hs₃, State.write_other (.inr (by decide)), State.write_other (.inr (by decide))]

/-! ## What the other address spaces see -/

/-- What a call under the address space `v` leaves alone. -/
structure Effect (n : Nat) (vmms : List Vmm) (S : Set Nat) (v : Vmm) (s s' : State) : Prop where
  single : ∀ x ∈ S, x ≠ v.page → s'.mem x = s.mem x
  other : ∀ v', v' ≠ v → ∀ x, Own n vmms S s v' x → s'.mem x = s.mem x
  top : v ∈ vmms → ∀ i, ¬ v.Region i → s'.mem v.pml4 i = s.mem v.pml4 i
  kept : ∀ π x, Used n vmms S (.space v) π → π.length ≤ 3 → pageAt s.mem v.pml4 π = some x →
    pageAt s'.mem v.pml4 π = some x
  huge : ∀ π x j, Used n vmms S (.space v) π → π.length ≤ 2 → pageAt s'.mem v.pml4 π = some x →
    huge (s'.mem x j) = true → pageAt s.mem v.pml4 π = some x ∧ s'.mem x j = s.mem x j
  globals : s.SameGlobals s'

theorem used_root (hv : v ∈ vmms) : Used n vmms S (.space v) [] :=
  ⟨hv, ⟨Nat.zero_le _, fun _ hi => absurd hi List.not_mem_nil⟩, fun _ _ hi => by cases hi⟩

theorem Acts.effect {u : State} (h : Core n vmms S s) (hacts : Acts n vmms S v D s u)
    (hq : Quiet n vmms S u s') (hframe : ∀ x ∈ S, x ≠ v.page → s'.mem x = u.mem x) :
    Effect n vmms S v s s' where
  single x hx hne := (hframe x hx hne).trans (hacts.single h hx)
  other v' hne x hx := by
    obtain ⟨π, hπ, hlen, hxπ⟩ := hx
    have hu : Own n vmms S u v' x :=
      ⟨π, hπ, hlen, (hacts.other h hne (used_closed.inner hπ)).trans hxπ⟩
    rw [hq.tables v' x hu]
    refine hacts.frame x (h.not_fresh hπ hxπ) ?_
    rintro ⟨τ, hτ, -, hxτ⟩
    exact hne (Holder.space.inj (h.apart (.space v') π (.space v) τ x hπ hτ hxπ hxτ).1)
  top hv i hi := by
    have hroot : Own n vmms S u v v.pml4 := ⟨[], used_root hv, Nat.zero_le _, rfl⟩
    rw [hq.tables v _ hroot]
    exact hacts.top i hi
  kept π x hπ hlen hx :=
    (hq.space v π (by omega) (used_closed.inner hπ)).trans (hacts.kept π x hπ hlen hx)
  huge π x j hπ hlen hx hh := by
    have hu : pageAt u.mem v.pml4 π = some x :=
      (hq.space v π (by omega) (used_closed.inner hπ)).symm.trans hx
    have hmem : s'.mem x = u.mem x := hq.tables v x ⟨π, hπ, by omega, hu⟩
    rw [hmem] at hh ⊢
    exact hacts.huge π x j hπ hlen hu hh
  globals := hacts.globals.trans hq.globals

theorem Mallocs.effect {u : State} {A k e : Nat} (h : Core n vmms S s)
    (hm : Mallocs n vmms S v s u s' A k d e ps) (hrecord : recordPage s ∉ S) :
    Effect n vmms S v s s' :=
  hm.acts.effect h hm.quiet fun x hx hne =>
    hm.frame x (fun heq => hm.outside (heq ▸ hx)) hne fun heq => hrecord (heq ▸ hx)

theorem Frees.effect {u : State} (h : Core n vmms S s) (hf : Frees n vmms S v s u s' d)
    (hd : d ∉ S) : Effect n vmms S v s s' :=
  hf.acts.effect h hf.quiet fun x hx hne => hf.frame x (fun heq => hd (heq ▸ hx)) hne

/-- The other address spaces keep their tables. -/
theorem Effect.pageAt_other (h : Effect n vmms S v s s') (hne : v' ≠ v) (hlen : π.length ≤ 4)
    (hπ : Forest.Inner (Used n vmms S) (.space v') π) :
    pageAt s'.mem v'.pml4 π = pageAt s.mem v'.pml4 π := by
  refine Forest.follow_congr fun σ j ρ x hσ hx => next_congr (congrFun (h.other v' hne x ?_) j)
  refine ⟨σ, hπ σ j ρ hσ, ?_, hx⟩
  rw [hσ, List.length_append, List.length_cons] at hlen
  omega

end Paging

end Os003
