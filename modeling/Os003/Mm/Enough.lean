import Os003.Mm.Allocations

set_option autoImplicit false

/-! # Calls that find their pages

A call of `map_page` takes at most one page for each level, so that with five pages for each page of
an allocation a call of `Vmm_Malloc` succeeds.
-/

namespace Os003

namespace Paging

variable {n a d p t i k : Nat} {vmms : List Vmm} {S : Set Nat} {s s' : State} {v : Vmm}
  {w flags : Word} {is ps : List Nat}

/-- A call that takes at most `k` pages, and finds them. -/
structure Pays (k : Nat) (s s' : State) : Prop where
  failed : s'.failed = s.failed
  length : s.supply.length ≤ s'.supply.length + k
  suffix : s'.supply <:+ s.supply

theorem Pays.refl (k : Nat) (s : State) : Pays k s s := ⟨rfl, by omega, List.suffix_refl _⟩

theorem Pays.trans {j : Nat} {s'' : State} (h : Pays k s s') (h' : Pays j s' s'') :
    Pays (k + j) s s'' :=
  ⟨h'.failed.trans h.failed, by have := h.length; have := h'.length; omega, h'.suffix.trans h.suffix⟩

theorem Pays.mono {j : Nat} (h : Pays k s s') (hk : k ≤ j) : Pays j s s' :=
  ⟨h.failed, by have := h.length; omega, h.suffix⟩

theorem pays_attach (hs : s.supply = p :: ps) : Pays 1 s (s.attach t i) := by
  refine ⟨?_, ?_, ?_⟩
  · unfold State.attach
    rw [State.mallocPage_cons hs]
    rfl
  · rw [attach_supply hs, hs]
    simp
  · rw [attach_supply hs, hs]
    exact List.suffix_cons _ _

/-- An entry is found, or a table is made for it. -/
theorem pays_visit (inner : Bool) (hzero : ∀ p ∈ s.supply, p ≠ 0) (hlen : 1 ≤ s.supply.length) :
    ∃ e s', visit true inner t i s = (some e, s') ∧ Pays 1 s s' := by
  obtain ⟨p, ps, hs⟩ := List.exists_cons_of_length_pos hlen
  have hnew := newTable_cons (t := t) (i := i) hs (hzero p (by simp [hs]))
  unfold visit
  by_cases hp : present (s.mem t i) = true
  · rw [if_pos hp]
    dsimp only
    by_cases hh : (inner && huge (s.mem t i)) = true
    · rw [if_pos hh, if_pos rfl, hnew]
      exact ⟨_, _, rfl, pays_attach hs⟩
    · rw [if_neg hh]
      exact ⟨_, _, rfl, Pays.refl 1 s⟩
  · rw [if_neg hp, if_pos rfl, hnew]
    dsimp only
    rw [if_neg (by simp)]
    exact ⟨_, _, rfl, pays_attach hs⟩

theorem pays_walk (hzero : ∀ p ∈ s.supply, p ≠ 0) (hlen : is.length ≤ s.supply.length)
    (hne : is ≠ []) : ∃ e s', walk true t is s = (some e, s') ∧ Pays is.length s s' := by
  induction is generalizing t s with
  | nil => exact absurd rfl hne
  | cons i is ih =>
      rw [List.length_cons] at hlen ⊢
      obtain ⟨e, s₁, hvisit, hpays⟩ := pays_visit (t := t) (i := i) (!is.isEmpty) hzero (by omega)
      unfold walk
      rw [hvisit]
      dsimp only
      cases is with
      | nil => exact ⟨_, _, rfl, hpays⟩
      | cons j is =>
          have hrest := hpays.length
          obtain ⟨e', s₂, hwalk, hpays'⟩ := ih (t := tableOf e) (s := s₁)
            (fun p hp => hzero p (hpays.suffix.subset hp)) (by omega) (by simp)
          refine ⟨e', s₂, hwalk, (hpays.trans hpays').mono (by omega)⟩

theorem pays_mapPage (hzero : ∀ p ∈ s.supply, p ≠ 0) (hlen : 4 ≤ s.supply.length) :
    Pays 4 s (mapPage a w flags s) := by
  obtain ⟨⟨t, i⟩, s₁, hwalk, hpays⟩ := pays_walk (t := s.cr3) hzero
    (show (indices a).length ≤ _ from hlen) (by simp [indices])
  unfold mapPage walkPageTable
  rw [hwalk]
  exact ⟨hpays.failed, hpays.length, hpays.suffix⟩

theorem pays_mapRange {virt : Nat} (hzero : ∀ p ∈ s.supply, p ≠ 0)
    (hlen : 4 * ps.length ≤ s.supply.length) : Pays (4 * ps.length) s (mapRange virt flags i ps s) := by
  induction ps generalizing i s with
  | nil => exact Pays.refl _ s
  | cons p ps ih =>
      rw [List.length_cons] at hlen ⊢
      have hpays : Pays 4 s (mapPage ((virt + i * pageSize) % 2 ^ 64) (addr p) flags s) :=
        pays_mapPage hzero (by omega)
      have hrest := hpays.length
      exact (hpays.trans (ih (i := i + 1) (fun p hp => hzero p (hpays.suffix.subset hp))
        (by omega))).mono (by omega)

theorem pays_mallocPages {acc : List Nat} (hzero : ∀ p ∈ s.supply, p ≠ 0)
    (hlen : k ≤ s.supply.length) : Pays k s (mallocPages k acc s).2 := by
  induction k generalizing s acc with
  | zero => exact Pays.refl 0 s
  | succ k ih =>
      unfold mallocPages State.pmmMalloc
      cases hs : s.supply with
      | nil =>
          rw [hs] at hlen
          simp at hlen
      | cons p ps =>
          rw [hs] at hlen hzero
          dsimp only
          rw [if_neg (hzero p (by simp))]
          rw [List.length_cons] at hlen
          have hrest : Pays k _ (Paging.mallocPages k (acc ++ [p]) _).2 :=
            ih (s := { s with supply := ps, taken := insert p s.taken })
              (fun q hq => hzero q (List.mem_cons_of_mem _ hq)) (by simpa using hlen)
          refine ⟨hrest.failed, ?_, ?_⟩
          · have := hrest.length
            rw [hs, List.length_cons]
            dsimp only at this
            omega
          · rw [hs]
            exact hrest.suffix.trans (List.suffix_cons p ps)

/-- A call of `Vmm_Malloc` whose pages are mapped gets to its end. -/
theorem Core.granted_runs {size : Nat} {s₁ : State} (h : Core n vmms S s) (hn : 3 ≤ n) (hn4 : n ≤ 4)
    (hv : v ∈ vmms) (hcur : s.current = v.page) (hcr3 : s.cr3 = v.pml4)
    (hstart : descriptorOf s.mem v.page = startOf v.isUser) (huser : isUserOf s.mem v.page = v.isUser)
    (hsize : size ≠ 0) (hd : pageAt s.mem v.pml4 (indices (startOf v.isUser)) = some d)
    (hdesc : Unused n vmms S s d)
    (hbound : ¬ endOf v.isUser < ((s.mem d 0).toNat + pagesFor size * pageSize) % 2 ^ 64)
    (ha : ∀ j < pagesFor size, v.Has ((s.mem d 0).toNat + j * pageSize))
    (hpages : Paging.mallocPages (pagesFor size) [] s = (some ps, s₁))
    (hflag : (flagOf s₁.mem s₁.current).toNat < pageSize)
    (hok : (Paging.mapRange (s.mem d 0).toNat (flagOf s₁.mem s₁.current) 0 ps s₁).failed = false) :
    ∃ s', vmmMalloc size s = some ((s.mem d 0).toNat, s') ∧ s'.failed = false := by
  obtain ⟨e, hr⟩ := h.ranged hn hn4 hv hcr3 hflag hpages hok ha hd hdesc
  obtain ⟨s₂, s₃, s₄, h₂, h₃, h₄⟩ := hr.acts.core.fields_run hn hn4 hv
    (hr.acts.globals.cr3.trans hcr3) hr.desc hr.unowned
    (BitVec.ofNat 64 (pagesFor size * pageSize)) (BitVec.ofNat 64 (pagesFor size * pageSize))
    (BitVec.ofNat 64 (pagesFor size))
  refine ⟨Paging.writeRecord (s.mem d 0).toNat (pagesFor size * pageSize) s₄, ?_, ?_⟩
  · have hload : load (startOf v.isUser) s = some (s.mem d 0) :=
      load_eq (locate_desc (o := 0) hcr3 hd (by decide))
    have hdesc0 : startOf v.isUser ≠ 0 := by cases v.isUser <;> decide
    unfold vmmMalloc
    rw [hcur, hstart, huser]
    simp only [hsize, hdesc0, if_false, Option.bind_eq_bind, Option.pure_def]
    rw [hload, Option.bind_some, if_neg hbound, hpages]
    dsimp only
    rw [h₂, Option.bind_some, h₃, Option.bind_some, h₄, Option.bind_some]
  · show s₄.failed = false
    rw [addTo_failed h₄, addTo_failed h₃, addTo_failed h₂]
    exact hok

/-- A call of `Vmm_Malloc` with enough pages. -/
theorem Core.malloc_runs {size : Nat} (h : Core n vmms S s) (hn : 3 ≤ n) (hn4 : n ≤ 4)
    (hv : v ∈ vmms) (hcur : s.current = v.page) (hcr3 : s.cr3 = v.pml4)
    (hflag : (flagOf s.mem v.page).toNat < pageSize)
    (hstart : descriptorOf s.mem v.page = startOf v.isUser) (huser : isUserOf s.mem v.page = v.isUser)
    (hsize : size ≠ 0) (hd : pageAt s.mem v.pml4 (indices (startOf v.isUser)) = some d)
    (hdesc : Unused n vmms S s d)
    (hbound : (s.mem d 0).toNat + pagesFor size * pageSize ≤ endOf v.isUser)
    (hlow : startOf v.isUser ≤ (s.mem d 0).toNat) (hok : s.failed = false)
    (hlen : 5 * pagesFor size ≤ s.supply.length) :
    ∃ s', vmmMalloc size s = some ((s.mem d 0).toNat, s') ∧ s'.failed = false := by
  have hzero : ∀ p ∈ s.supply, p ≠ 0 := fun p hp => (h.fresh p hp).1
  have hpays : Pays (pagesFor size) s (Paging.mallocPages (pagesFor size) [] s).2 :=
    pays_mallocPages hzero (by omega)
  obtain ⟨ps, T, hps, -, -, hrun⟩ := mallocPages_spec hzero
    (show (Paging.mallocPages (pagesFor size) [] s).2.failed = false from hpays.failed.trans hok)
  rw [List.nil_append] at hrun
  rw [hrun] at hpays
  generalize hs₁ : ({ s with supply := s.supply.drop (pagesFor size), taken := T } : State) = s₁ at *
  have hrest : s.supply.length ≤ s₁.supply.length + pagesFor size := hpays.length
  have hrange : Pays (4 * ps.length) s₁
      (Paging.mapRange (s.mem d 0).toNat (flagOf s₁.mem s₁.current) 0 ps s₁) :=
    pays_mapRange (fun p hp => hzero p (hpays.suffix.subset hp)) (by omega)
  have hflag₁ : (flagOf s₁.mem s₁.current).toNat < pageSize := by
    rw [← hs₁]
    exact hcur.symm ▸ hflag
  have hend : endOf v.isUser < 2 ^ 64 := by
    cases v.isUser <;> decide
  refine h.granted_runs hn hn4 hv hcur hcr3 hstart huser hsize hd hdesc ?_ ?_ hrun hflag₁
    (hrange.failed.trans (hpays.failed.trans hok))
  · rw [Nat.mod_eq_of_lt (by omega)]
    omega
  · intro j hj
    have hle : (j + 1) * pageSize ≤ pagesFor size * pageSize := Nat.mul_le_mul_right _ hj
    rw [Nat.add_mul] at hle
    have hpos : 0 < pageSize := by decide
    exact has_of_range (by omega) (by omega)

theorem Kept.malloc_runs {size : Nat} {lives : Nat → List AllocRecord} {pages : List Nat}
    (h : Kept vmms S lives s) (hv : v ∈ vmms) (hcur : s.current = v.page) (hp : FreshFor s pages)
    (hsize : size ≠ 0) (hbound : top s v + pagesFor size * pageSize ≤ endOf v.isUser)
    (hlen : 5 * pagesFor size ≤ pages.length) :
    ∃ s', vmmMalloc size (s.give pages) = some (top s v, s') ∧ s'.failed = false := by
  have hwords := h.words v hv
  have hlow := (h.books v hv).low
  exact (h.give hp).malloc_runs (by decide) le_rfl hv hcur (h.cr3 v hv hcur.symm)
    (by rw [give_mem]; unfold flagOf; rw [hwords.flag]; exact (h.bits v hv).1)
    hwords.descriptorOf hwords.isUser hsize (h.books v hv).desc (h.desc_unused hp hv) hbound
    ((Nat.le_add_right _ _).trans hlow) rfl hlen

end Paging

end Os003
