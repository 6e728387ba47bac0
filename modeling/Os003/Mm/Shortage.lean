import Os003.Mm.Enough

set_option autoImplicit false

/-! # Walks that run out of pages

How many pages `map_page` takes, counted exactly: one for each table that is missing on the way, and
one more for an empty slot of a leaf table (`Core.mapPage_counted`). A range needs as many as tables
are missing on the ways to its pages, and one for each page (`Core.mapRange_counted`). With fewer,
the walk of some page gets stuck, and nothing is mapped any more (`Starved`).

`malloc_page` clears the page it has got even when it has got none: that is the page 0.
-/

namespace Os003

namespace Paging

variable {n a b d p t i k l virt : Nat} {vmms : List Vmm} {S D : Set Nat} {s s' s₁ : State} {v : Vmm}
  {w flags : Word} {is ps : List Nat} {π : List Nat} {mem : Mem}

/-! ## Tables that are missing -/

/-- How many of the first `l` tables on the way along the indices `is` are missing. -/
def missingOn (mem : Mem) (root : Nat) (is : List Nat) (l : Nat) : Nat :=
  ((Finset.range l).filter fun m => pageAt mem root (is.take (m + 1)) = none).card

theorem missingOn_none {root : Nat} (h : pageAt mem root (is.take (l + 1)) = none) :
    missingOn mem root is (l + 1) = missingOn mem root is l + 1 := by
  unfold missingOn
  rw [Finset.range_add_one, Finset.filter_insert, if_pos h, Finset.card_insert_of_notMem (by simp)]

theorem missingOn_some {root : Nat} (h : pageAt mem root (is.take (l + 1)) ≠ none) :
    missingOn mem root is (l + 1) = missingOn mem root is l := by
  unfold missingOn
  rw [Finset.range_add_one, Finset.filter_insert, if_neg h]

theorem missingOn_mono {root m : Nat} (h : l ≤ m) : missingOn mem root is l ≤ missingOn mem root is m :=
  Finset.card_le_card (Finset.filter_subset_filter _ (Finset.range_mono h))

/-- The paths to the three tables on the way to an address. -/
def wayTo (a : Nat) : Finset (List Nat) := (Finset.range 3).image fun l => (indices a).take (l + 1)

/-- The paths to the tables that are missing for `k` pages from the address `b` on. -/
def missing (mem : Mem) (root b k : Nat) : Finset (List Nat) :=
  ((Finset.range k).biUnion fun j => wayTo (b + j * pageSize)).filter fun π => pageAt mem root π = none

theorem mem_wayTo : π ∈ wayTo a ↔ ∃ l < 3, (indices a).take (l + 1) = π := by
  simp [wayTo]

theorem mem_missing {root : Nat} : π ∈ missing mem root b k ↔
    (∃ j < k, π ∈ wayTo (b + j * pageSize)) ∧ pageAt mem root π = none := by
  simp [missing]

/-- The tables above the leaf table are those that a shorter path leads to. -/
theorem mem_wayTo_iff : π ∈ wayTo a ↔ π <+: indices a ∧ 0 < π.length ∧ π.length ≤ 3 := by
  have hfour : (indices a).length = 4 := rfl
  rw [mem_wayTo]
  constructor
  · rintro ⟨l, hl, rfl⟩
    refine ⟨List.take_prefix _ _, ?_, ?_⟩
    · rw [List.length_take]
      omega
    · rw [List.length_take]
      omega
  · rintro ⟨hpre, hpos, hle⟩
    refine ⟨π.length - 1, by omega, ?_⟩
    rw [show π.length - 1 + 1 = π.length by omega]
    exact (List.prefix_iff_eq_take.mp hpre).symm

theorem card_wayTo_missing {root : Nat} :
    ((wayTo a).filter fun π => pageAt mem root π = none).card = missingOn mem root (indices a) 3 := by
  unfold wayTo missingOn
  rw [Finset.filter_image, Finset.card_image_of_injOn]
  intro l hl m hm heq
  have hfour : (indices a).length = 4 := rfl
  have hl' := (Finset.mem_filter.mp hl).1
  have hm' := (Finset.mem_filter.mp hm).1
  rw [Finset.mem_range] at hl' hm'
  have hlength := congrArg List.length heq
  dsimp only at hlength
  rw [List.length_take, List.length_take] at hlength
  omega

/-- The tables for one page more: those on its way, and those for the others that are not on it. -/
theorem missing_succ {root : Nat} {mem' : Mem}
    (h : ∀ π, (∃ j < k, π ∈ wayTo (b + pageSize + j * pageSize)) →
      (pageAt mem' root π = none ↔ pageAt mem root π = none ∧ ¬ π <+: indices b)) :
    (missing mem root b (k + 1)).card =
      missingOn mem root (indices b) 3 + (missing mem' root (b + pageSize) k).card := by
  have hsplit : missing mem root b (k + 1) =
      ((wayTo b).filter fun π => pageAt mem root π = none) ∪ missing mem' root (b + pageSize) k := by
    ext π
    rw [Finset.mem_union, Finset.mem_filter, mem_missing, mem_missing]
    constructor
    · rintro ⟨⟨j, hj, hπ⟩, hnone⟩
      by_cases hb : π ∈ wayTo b
      · exact .inl ⟨hb, hnone⟩
      · cases j with
        | zero => exact absurd (by simpa using hπ) hb
        | succ j =>
            have hshift : b + (j + 1) * pageSize = b + pageSize + j * pageSize := by
              rw [Nat.add_mul]
              omega
            rw [hshift] at hπ
            refine .inr ⟨⟨j, by omega, hπ⟩, (h π ⟨j, by omega, hπ⟩).mpr ⟨hnone, fun hpre => hb ?_⟩⟩
            exact mem_wayTo_iff.mpr ⟨hpre, (mem_wayTo_iff.mp hπ).2⟩
    · rintro (⟨hπ, hnone⟩ | ⟨⟨j, hj, hπ⟩, hnone⟩)
      · exact ⟨⟨0, by omega, by simpa using hπ⟩, hnone⟩
      · refine ⟨⟨j + 1, by omega, ?_⟩, ((h π ⟨j, hj, hπ⟩).mp hnone).1⟩
        rwa [show b + (j + 1) * pageSize = b + pageSize + j * pageSize by rw [Nat.add_mul]; omega]
  have hdisjoint : ∀ π ∈ (wayTo b).filter fun π => pageAt mem root π = none,
      π ∉ missing mem' root (b + pageSize) k := by
    intro π hπ hπ'
    obtain ⟨hway, hnone⟩ := mem_missing.mp hπ'
    exact ((h π hway).mp hnone).2 (mem_wayTo_iff.mp (Finset.mem_filter.mp hπ).1).1
  rw [hsplit, Finset.card_union_of_disjoint (Finset.disjoint_left.mpr hdisjoint), card_wayTo_missing]

theorem missingOn_le {root : Nat} :
    missingOn mem root (indices b) 3 ≤ (missing mem root b (k + 1)).card := by
  rw [← card_wayTo_missing]
  refine Finset.card_le_card fun π hπ => ?_
  obtain ⟨hway, hnone⟩ := Finset.mem_filter.mp hπ
  exact mem_missing.mpr ⟨⟨0, by omega, by simpa using hway⟩, hnone⟩

theorem card_missing_le {root : Nat} : (missing mem root b k).card ≤ 3 * k := by
  have hway : ∀ a, (wayTo a).card ≤ 3 := fun a => Finset.card_image_le
  calc (missing mem root b k).card
      ≤ ((Finset.range k).biUnion fun j => wayTo (b + j * pageSize)).card := Finset.card_filter_le _ _
    _ ≤ (Finset.range k).card * 3 := Finset.card_biUnion_le_card_mul _ _ _ fun j _ => hway _
    _ = 3 * k := by rw [Finset.card_range, Nat.mul_comm]

/-! ## One walk -/

/-- A walk to an address has come to the table `t` of level `l`, and has taken a page for each table
that was missing. -/
structure Counted (n : Nat) (vmms : List Vmm) (S : Set Nat) (v : Vmm) (a : Nat) (s₀ : State) (l t : Nat)
    (s : State) : Prop extends
    Walked rootOf (Used n vmms S) (Used n vmms S) (.space v) (indices a) s₀ l t s where
  failed : s.failed = s₀.failed
  count : s.supply.length + missingOn s₀.mem v.pml4 (indices a) l = s₀.supply.length

theorem Core.counted (h : Core n vmms S s) : Counted n vmms S v a s 0 v.pml4 s :=
  ⟨h.walked (.space v) (indices a), rfl, by simp [missingOn]⟩

/-- The walk meets the next table as it was before the walk. -/
theorem Counted.table (h : Counted n vmms S v a s l t s') (hn : 3 ≤ n) (hv : v ∈ vmms) (ha : v.Has a)
    (hl : l < 3) (hi : (indices a)[l]? = some i) :
    pageAt s.mem v.pml4 ((indices a).take (l + 1)) = next s'.mem l t i := by
  have hfour : (indices a).length = 4 := rfl
  have hused := used_take (S := S) hn hv ha (show l + 1 ≤ 3 by omega)
  have hhere : Forest.follow (next s'.mem) 0 v.pml4 ((indices a).take l) = some t := h.here
  have hnext : pageAt s'.mem v.pml4 ((indices a).take (l + 1)) = next s'.mem l t i := by
    rw [take_concat hi, pageAt, Forest.follow_concat hhere, List.length_take, Nat.zero_add,
      min_eq_left (by omega)]
  rcases h.follow (.space v) _ (used_closed.inner hused) with hold | ⟨-, -, hle, -⟩
  · exact hold.symm.trans hnext
  · rw [List.length_take] at hle
    omega

theorem Counted.descends (hn : 3 ≤ n) (hv : v ∈ vmms) (ha : v.Has a) :
    Descends (Counted n vmms S v a s) (indices a) where
  descend l t i c s' hl hi h hc := by
    have hsome : pageAt s.mem v.pml4 ((indices a).take (l + 1)) ≠ none := by
      rw [h.table hn hv ha hl hi, hc]
      simp
    refine ⟨(Walked.descends rfl fun m hm => used_take hn hv ha (by omega)).descend l t i c s' hl hi
      h.toWalked hc, h.failed, ?_⟩
    rw [missingOn_some hsome]
    exact h.count
  attach l t i p ps s' hl hi h hc hs := by
    have hnone : pageAt s.mem v.pml4 ((indices a).take (l + 1)) = none :=
      (h.table hn hv ha hl hi).trans hc
    refine ⟨(Walked.descends rfl fun m hm => used_take hn hv ha (by omega)).attach l t i p ps s' hl hi
      h.toWalked hc hs, ?_, ?_⟩
    · rw [← h.failed]
      unfold State.attach
      rw [State.mallocPage_cons hs]
      rfl
    · have hcount := h.count
      rw [hs, List.length_cons] at hcount
      rw [attach_supply hs, missingOn_none hnone]
      omega
  page l t s' h p hp := ⟨(h.trees.fresh p hp).1, (h.trees.fresh p hp).2.1⟩

/-- `map_page` for an address that is not mapped: it takes a page for each missing table and one
more, or the walk gets stuck. -/
theorem Core.mapPage_counted (h : Core n vmms S s) (hn : 3 ≤ n) (hv : v ∈ vmms) (hcr3 : s.cr3 = v.pml4)
    (ha : v.Has a) (hnone : pageAt s.mem v.pml4 (indices a) = none) (w flags : Word) :
    (∃ t p ps s', Counted n vmms S v a s 3 t s' ∧ s'.supply = p :: ps ∧
      Paging.mapPage a w flags s = s'.mallocPage.2.write t (ptIndex a) (w ||| flags ||| ptePresent)) ∨
    ∃ l t i s', Stuck (Counted n vmms S v a s) (indices a) l t i s' ∧
      s.supply.length < missingOn s.mem v.pml4 (indices a) 3 + 1 ∧
      Paging.mapPage a w flags s = s'.mallocPage.2 := by
  unfold Paging.mapPage walkPageTable
  rw [hcr3]
  rcases walk_cases (Counted.descends hn hv ha) rfl (show indices a = (indices a).drop 0 from rfl)
    (by decide) (h.counted (a := a) (v := v)) with ⟨t, s', i, hi, hc, hwalk⟩ | ⟨l, t, i, s', hstuck, hwalk⟩
  · obtain rfl : ptIndex a = i := Option.some.inj hi
    have hhere : Forest.follow (next s'.mem) 0 v.pml4 (upper a) = some t := hc.here
    have hslot : next s'.mem 3 t (ptIndex a) = none := by
      have hpath : pageAt s'.mem v.pml4 (indices a) = next s'.mem 3 t (ptIndex a) :=
        Forest.follow_concat hhere
      rcases hc.follow (.space v) _ (inner_indices hn hv ha) with hold | ⟨-, -, hle, -⟩
      · exact hpath.symm.trans (hold.trans hnone)
      · simp [indices] at hle
    rcases hwalk with ⟨-, hne⟩ | ⟨hwalk, -, hne⟩
    · exact absurd hslot hne
    · obtain ⟨p, ps, hps⟩ := List.exists_cons_of_ne_nil hne
      rw [hwalk]
      exact .inl ⟨t, p, ps, s', hc, hps, State.write_write _⟩
  · have hcount := hstuck.reached.count
    have hmono : missingOn s.mem v.pml4 (indices a) l ≤ missingOn s.mem v.pml4 (indices a) 3 :=
      missingOn_mono hstuck.level
    rw [hstuck.supply, List.length_nil] at hcount
    rw [hwalk]
    exact .inr ⟨l, t, i, s', hstuck, by omega, rfl⟩

/-- The tables after a call of `map_page` that has not got stuck. -/
theorem Counted.missing_iff (h : Counted n vmms S v a s 3 t s') (hn : 3 ≤ n) (hv : v ∈ vmms)
    (ha : v.Has a) (hs : s'.supply = p :: ps) (hπ : Used n vmms S (.space v) π) (hlen : π.length ≤ 3) :
    pageAt (s'.mallocPage.2.write t (ptIndex a) w).mem v.pml4 π = none ↔
      pageAt s.mem v.pml4 π = none ∧ ¬ π <+: indices a := by
  have hw : Walked rootOf (Used n vmms S) (Used n vmms S) (.space v) (indices a) s 3 t s'.mallocPage.2 :=
    h.toWalked.leak (fun l hl => used_take hn hv ha hl) hs
  have hhere : pageAt s'.mallocPage.2.mem v.pml4 (upper a) = some t := hw.here
  have hfour : (indices a).length = 4 := rfl
  have hwrite : pageAt (s'.mallocPage.2.write t (ptIndex a) w).mem v.pml4 π =
      pageAt s'.mallocPage.2.mem v.pml4 π := by
    refine (hw.trees.follow_write (used_upper hn hv ha) hhere (by show _ ≤ 3 + 1; omega)
      (used_closed.inner hπ)).trans (if_neg ?_)
    rintro ⟨-, rfl⟩
    rw [← indices_eq] at hlen
    omega
  rw [hwrite]
  constructor
  · intro hnone
    constructor
    · rcases hw.follow (.space v) π (used_closed.inner hπ) with hold | ⟨-, -, -, hold, -⟩
      · exact hold.symm.trans hnone
      · exact hold
    · -- the paths on the way exist
      intro hpre
      have hupper : π <+: upper a :=
        List.prefix_of_prefix_length_le hpre (by rw [indices_eq]; exact List.prefix_append _ _) hlen
      obtain ⟨ρ, hρ⟩ := hupper
      rw [← hρ] at hhere
      obtain ⟨c, hc, -⟩ := Forest.follow_prefix hhere
      exact absurd (hnone.symm.trans hc) (by simp)
  · rintro ⟨hnone, hpre⟩
    rcases hw.follow (.space v) π (used_closed.inner hπ) with hold | ⟨-, hprefix, -⟩
    · exact hold.trans hnone
    · exact absurd hprefix hpre

/-! ## Without pages -/

/-- Where page 0 has been cleared, nothing is reached that was not reached before. -/
theorem pageAt_cleared {root c : Nat}
    (h : pageAt (Function.update mem 0 fun _ => 0) root π = some c) : pageAt mem root π = some c := by
  refine Forest.follow_mono (fun l t i c hc => ?_) h
  by_cases ht : t = 0
  · subst ht
    rw [next_of_zero (by simp)] at hc
    cases hc
  · have hsame : (Function.update mem 0 fun _ => 0) t i = mem t i := by simp [ht]
    rwa [next_congr hsame] at hc

theorem mallocPage_again (hs : s.supply = []) : s.mallocPage.2.mallocPage.2 = s.mallocPage.2 := by
  rw [State.mallocPage_nil hs, State.mallocPage_nil (by exact hs)]
  simp

/-- A slot that leads nowhere stays as it is. -/
theorem mapPage_starved (hs : s.supply = []) (hnone : pageAt s.mem s.cr3 (indices a) = none)
    (w flags : Word) : mapPage a w flags s = s.mallocPage.2 := by
  have hfour : (indices a).length = 4 := rfl
  have hpath : ∀ l t i, l < 4 → (indices a)[l]? = some i →
      pageAt s.mem s.cr3 ((indices a).take l) = some t →
      pageAt s.mem s.cr3 ((indices a).take (l + 1)) = next s.mem l t i := by
    intro l t i hl hi ht
    rw [take_concat hi, pageAt, Forest.follow_concat ht, List.length_take, Nat.zero_add,
      min_eq_left (by omega)]
  have hdescends : Descends
      (fun l t s' => s' = s ∧ pageAt s.mem s.cr3 ((indices a).take l) = some t) (indices a) := by
    refine ⟨?_, ?_, ?_⟩
    · rintro l t i c s' hl hi ⟨rfl, ht⟩ hc
      exact ⟨rfl, (hpath l t i (by omega) hi ht).trans hc⟩
    · rintro l t i p ps s' - - ⟨rfl, -⟩ - hps
      rw [hs] at hps
      cases hps
    · rintro l t s' ⟨rfl, -⟩ p hp
      rw [hs] at hp
      cases hp
  unfold mapPage walkPageTable
  rcases walk_cases hdescends rfl (show indices a = (indices a).drop 0 from rfl) (by decide)
    (show s = s ∧ pageAt s.mem s.cr3 [] = some s.cr3 from ⟨rfl, rfl⟩) with
    ⟨t, s', i, hi, ⟨rfl, ht⟩, hwalk⟩ | ⟨l, t, i, s', hstuck, hwalk⟩
  · rcases hwalk with ⟨-, hne⟩ | ⟨-, -, hne⟩
    · exact absurd ((hpath 3 t i (by decide) hi ht).symm.trans hnone) hne
    · exact absurd hs hne
  · rw [hwalk]
    obtain ⟨rfl, -⟩ := hstuck.reached
    rfl

theorem mapRange_starved (hs : s.supply = []) (hnone : ∀ j < ps.length,
    pageAt s.mem s.cr3 (indices ((virt + (i + j) * pageSize) % 2 ^ 64)) = none) :
    mapRange virt flags i ps s.mallocPage.2 = s.mallocPage.2 := by
  induction ps generalizing i with
  | nil => rfl
  | cons p ps ih =>
      have hsupply : s.mallocPage.2.supply = [] := by
        rw [State.mallocPage_nil hs]
        exact hs
      have hfirst : pageAt s.mallocPage.2.mem s.mallocPage.2.cr3
          (indices ((virt + i * pageSize) % 2 ^ 64)) = none := by
        have hold := hnone 0 (by simp)
        rw [Nat.add_zero] at hold
        rw [State.mallocPage_nil hs]
        cases hc : pageAt (Function.update s.mem 0 fun _ => 0) s.cr3
            (indices ((virt + i * pageSize) % 2 ^ 64)) with
        | none => rfl
        | some c => exact absurd (hold.symm.trans (pageAt_cleared hc)) (by simp)
      rw [Paging.mapRange, mapPage_starved hsupply hfirst, mallocPage_again hs]
      refine ih fun j hj => ?_
      rw [show i + 1 + j = i + (j + 1) by omega]
      exact hnone (j + 1) (by simpa using hj)

/-- The pages of a range have run out before the page at `a` has been mapped, in the state `s₁`. -/
structure Starved (vmms : List Vmm) (S : Set Nat) (v : Vmm) (D : Set Nat) (b k a : Nat) (s s₁ : State) :
    Prop where
  acts : Acts 4 vmms S v D s s₁
  takes : Takes s s₁
  supply : s₁.supply = []
  outside : ∀ a', v.Has a' → ¬ (b / pageSize ≤ a' / pageSize ∧ a' / pageSize < b / pageSize + k) →
    pageAt s₁.mem v.pml4 (indices a') = pageAt s.mem v.pml4 (indices a')
  slot : ∃ l t i, l ≤ 3 ∧ (indices a)[l]? = some i ∧
    pageAt s₁.mem v.pml4 ((indices a).take l) = some t ∧ next s₁.mem l t i = none

/-- A walk that has got stuck: nothing of the range is mapped, and the address is that of its first page. -/
theorem Core.starved_of_stuck {l t c : Nat} (h : Core 4 vmms S s) (hv : v ∈ vmms) (ha : v.Has b)
    (hstuck : Stuck (Counted 4 vmms S v b s) (indices b) l t c s') :
    Starved vmms S v D b k b s s' ∧
      ∀ a', v.Has a' → pageAt s'.mem v.pml4 (indices a') = pageAt s.mem v.pml4 (indices a') := by
  have hw := hstuck.reached.toWalked
  have hsame (a' : Nat) (ha' : v.Has a') :
      pageAt s'.mem v.pml4 (indices a') = pageAt s.mem v.pml4 (indices a') := by
    rcases hw.follow (.space v) _ (inner_indices (by decide) hv ha') with hold | ⟨-, -, hlong, -⟩
    · exact hold
    · have hlevel := hstuck.level
      simp [indices] at hlong
      omega
  constructor
  · exact {
      acts := h.acts_walked (by decide) hv ha hstuck.level hw
      takes := hw.taken
      supply := hstuck.supply
      outside := fun a' ha' _ => hsame a' ha'
      slot := ⟨l, t, c, hstuck.level, hstuck.index, hw.here, hstuck.missing⟩ }
  · exact hsame

/-- When the page of the address `b` has been mapped, the tables that are missing for the range from
`b` on are those on the way to it, and those that are missing now for the rest of the range. -/
theorem Counted.missing_succ (h : Counted 4 vmms S v b s 3 t s') (hv : v ∈ vmms) (hb : v.Has b)
    (hs : s'.supply = p :: ps) (ha : ∀ j < k, v.Has (b + pageSize + j * pageSize)) :
    (missing s.mem v.pml4 b (k + 1)).card = missingOn s.mem v.pml4 (indices b) 3 +
      (missing (s'.mallocPage.2.write t (ptIndex b) w).mem v.pml4 (b + pageSize) k).card := by
  apply Paging.missing_succ
  rintro π ⟨j, hj, hπ⟩
  obtain ⟨l, hl, rfl⟩ := mem_wayTo.mp hπ
  have hused : Used 4 vmms S (.space v) ((indices (b + pageSize + j * pageSize)).take (l + 1)) :=
    used_take (by decide) hv (ha j hj) (by omega)
  apply h.missing_iff (by decide) hv hb hs hused
  rw [List.length_take]
  omega

/-- What the rest of a range lacks, the range lacks from its first page on. -/
theorem Starved.cons {E : Set Nat} (h : Starved vmms S v E (b + pageSize) k a s₁ s')
    (hacts : Acts 4 vmms S v D s s₁) (htakes : Takes s s₁) (hE : E ⊆ D)
    (hother : ∀ a', v.Has a' → a' / pageSize ≠ b / pageSize →
      pageAt s₁.mem v.pml4 (indices a') = pageAt s.mem v.pml4 (indices a')) :
    Starved vmms S v D b (k + 1) a s s' where
  acts := hacts.trans (h.acts.mono hE)
  takes := htakes.trans h.takes hacts.supply h.acts.supply
  supply := h.supply
  outside a' ha' hout := by
    have hpage : (b + pageSize) / pageSize = b / pageSize + 1 := Nat.add_div_right _ (by decide)
    rw [h.outside a' ha' (by rw [hpage]; omega), hother a' ha' (by omega)]
  slot := h.slot

/-- The pages of a range that is not mapped: as many are needed as tables are missing, and one for each. -/
theorem Core.mapRange_counted (h : Core 4 vmms S s) (hv : v ∈ vmms) (hcr3 : s.cr3 = v.pml4)
    (ha : ∀ j < ps.length, v.Has (virt + (i + j) * pageSize))
    (hnone : ∀ j < ps.length, pageAt s.mem v.pml4 (indices (virt + (i + j) * pageSize)) = none)
    (hnew : LoosePages 4 vmms S flags ps s) (hok : s.failed = false) :
    (ps.length + (missing s.mem v.pml4 (virt + i * pageSize) ps.length).card ≤ s.supply.length ∧
      (Paging.mapRange virt flags i ps s).failed = false) ∨
    (s.supply.length < ps.length + (missing s.mem v.pml4 (virt + i * pageSize) ps.length).card ∧
      ∃ j < ps.length, ∃ s₁, Starved vmms S v (fun p => p ∈ ps) (virt + i * pageSize) ps.length
        (virt + (i + j) * pageSize) s s₁ ∧ Paging.mapRange virt flags i ps s = s₁.mallocPage.2) := by
  induction ps generalizing i s with
  | nil => exact .inl ⟨by simp [missing], hok⟩
  | cons p ps ih =>
      have hhas := ha 0 (by simp)
      have hfirst := hnone 0 (by simp)
      rw [Nat.add_zero] at hhas hfirst
      -- the rest of the range
      have hhas' (j : Nat) (hj : j < ps.length) : v.Has (virt + (i + 1 + j) * pageSize) := by
        rw [show i + 1 + j = i + (j + 1) by omega]
        exact ha (j + 1) (by simpa using hj)
      have hnone' (j : Nat) (hj : j < ps.length) :
          pageAt s.mem v.pml4 (indices (virt + (i + 1 + j) * pageSize)) = none := by
        rw [show i + 1 + j = i + (j + 1) by omega]
        exact hnone (j + 1) (by simpa using hj)
      have hnext : virt + i * pageSize + pageSize = virt + (i + 1) * pageSize := by
        rw [Nat.add_mul]
        omega
      have hshift (j : Nat) : virt + i * pageSize + pageSize + j * pageSize =
          virt + (i + 1 + j) * pageSize := by
        rw [hnext, Nat.add_assoc, ← Nat.add_mul]
      rw [Paging.mapRange, Nat.mod_eq_of_lt hhas.lt, List.length_cons]
      rcases h.mapPage_counted (by decide) hv hcr3 hhas hfirst (addr p) flags with
        ⟨t, q, qs, s', hc, hqs, hmap⟩ | ⟨l, t, c, s', hstuck, hfew, hmap⟩
      · have hcount := hc.count
        rw [hqs, List.length_cons] at hcount
        have htable : tableOf (addr p ||| flags ||| ptePresent) = p :=
          tableOf_flags (hnew.page p (by simp)).1 hnew.flags
        have hok₁ : (Paging.mapPage (virt + i * pageSize) (addr p) flags s).failed = false := by
          rw [hmap, State.mallocPage_cons hqs]
          exact hc.failed.trans hok
        have hlen₁ : (Paging.mapPage (virt + i * pageSize) (addr p) flags s).supply.length = qs.length := by
          rw [hmap, State.mallocPage_cons hqs]
          rfl
        have hcard : (missing s.mem v.pml4 (virt + i * pageSize) (ps.length + 1)).card =
            missingOn s.mem v.pml4 (indices (virt + i * pageSize)) 3 +
              (missing (Paging.mapPage (virt + i * pageSize) (addr p) flags s).mem v.pml4
                (virt + i * pageSize + pageSize) ps.length).card := by
          rw [hmap]
          apply hc.missing_succ hv hhas hqs
          intro j hj
          rw [hshift]
          exact hhas' j hj
        obtain ⟨hacts, hmapped, htakes⟩ := Core.mapPage (D := fun q => q = p) h (by decide) le_rfl hv hcr3
          hhas hok₁ (fun _ => by rw [htable]; exact (hnew.page p (by simp)).2) (fun _ => htable)
        generalize Paging.mapPage (virt + i * pageSize) (addr p) flags s = s₁ at *
        have hother (a' : Nat) (ha' : v.Has a') (hne : a' / pageSize ≠ (virt + i * pageSize) / pageSize) :
            pageAt s₁.mem v.pml4 (indices a') = pageAt s.mem v.pml4 (indices a') :=
          (hmapped v hv a' ha').trans (if_neg fun hc => hne hc.2)
        have hloose : LoosePages 4 vmms S flags ps s₁ := by
          have hnodup := List.nodup_cons.mp hnew.nodup
          refine ⟨hnew.flags, hnodup.2, fun q hq => ?_⟩
          obtain ⟨hq52, hloose⟩ := hnew.page q (List.mem_cons_of_mem _ hq)
          refine ⟨hq52, hloose.acts hacts ?_⟩
          rintro rfl
          exact hnodup.1 hq
        have hnone₁ (j : Nat) (hj : j < ps.length) :
            pageAt s₁.mem v.pml4 (indices (virt + (i + 1 + j) * pageSize)) = none := by
          rw [hother _ (hhas' j hj), hnone' j hj]
          rw [Nat.add_mul_div_right _ _ (by decide), Nat.add_mul_div_right _ _ (by decide)]
          omega
        have hrest := ih hacts.core (hacts.globals.cr3.trans hcr3) hhas' hnone₁ hloose hok₁
        rw [hnext] at hcard
        rcases hrest with ⟨henough, hdone⟩ | ⟨hfew, j, hj, s₂, hstarved, hend⟩
        · exact .inl ⟨by omega, hdone⟩
        · right
          refine ⟨by omega, j + 1, by omega, s₂, ?_, hend⟩
          rw [← hnext, show i + 1 + j = i + (j + 1) by omega] at hstarved
          exact hstarved.cons (hacts.mono fun q hq => hq ▸ List.mem_cons_self) htakes
            (fun q hq => List.mem_cons_of_mem _ hq) hother
      · -- the walk to the first page gets stuck
        have hle : missingOn s.mem v.pml4 (indices (virt + i * pageSize)) 3 ≤
            (missing s.mem v.pml4 (virt + i * pageSize) (ps.length + 1)).card := missingOn_le
        obtain ⟨hstarved, hsame⟩ := h.starved_of_stuck (D := fun q => q ∈ p :: ps)
          (k := ps.length + 1) hv hhas hstuck
        refine .inr ⟨by omega, 0, by omega, s', hstarved, ?_⟩
        rw [hmap]
        apply mapRange_starved hstuck.supply
        intro j hj
        have hcr3' : s'.cr3 = v.pml4 := hstuck.reached.globals.cr3.trans hcr3
        rw [Nat.mod_eq_of_lt (hhas' j hj).lt, hcr3', hsame _ (hhas' j hj), hnone' j hj]

/-- The page that has not been mapped is translated only as it was before. -/
theorem Starved.leaf_before {r : Word × Nat} (h : Starved vmms S v D b k a s s₁) (hv : v ∈ vmms)
    (ha : v.Has a) (hr : leafOf s₁.mem 0 v.pml4 (indices a) = some r) :
    leafOf s.mem 0 v.pml4 (indices a) = some r := by
  obtain ⟨l, t, i, hl, hi, ht, hnone⟩ := h.slot
  have hfour : (indices a).length = 4 := rfl
  have hlength : ((indices a).take l).length = l := by
    rw [List.length_take]
    omega
  have hsplit : indices a = (indices a).take l ++ i :: (indices a).drop (l + 1) := by
    conv_lhs => rw [← List.take_append_drop l (indices a), List.drop_eq_getElem?_toList_append, hi]
    rfl
  rw [hsplit, leafOf_follow ht (by omega), hlength, Nat.zero_add, leafOf] at hr
  rcases next_eq_none.mp hnone with hp | ⟨hl3, hh⟩
  · rw [hp] at hr
    simp at hr
  · -- a huge page was there before
    obtain ⟨ht', hsame⟩ := h.acts.huge _ t i (used_take (by decide) hv ha hl) (by omega) ht hh
    rw [hsplit, leafOf_follow ht' (by omega), hlength, Nat.zero_add, leafOf, ← hsame, hh]
    rw [hh] at hr
    simpa using hr

/-- A call that finds no page clears the page 0, which is not used. -/
theorem Core.starve (h : Core n vmms S s) (hs : s.supply = [])
    (hzero : ∀ v π x, Used n vmms S (.space v) π → pageAt s.mem v.pml4 π = some x → x ≠ 0) :
    Core n vmms S s.mallocPage.2 ∧ ∀ v π, Used n vmms S (.space v) π →
      pageAt s.mallocPage.2.mem v.pml4 π = pageAt s.mem v.pml4 π := by
  rw [State.mallocPage_nil hs]
  have hspace : ∀ v π, Used n vmms S (.space v) π →
      pageAt (Function.update s.mem 0 fun _ => 0) v.pml4 π = pageAt s.mem v.pml4 π := by
    intro v π hπ
    refine Forest.follow_congr fun σ j ρ x hσ hx => next_congr ?_
    have hx0 : x ≠ 0 := hzero v σ x (used_closed.inner hπ σ j ρ hσ) hx
    simp [hx0]
  have hfollow : ∀ k π, Used n vmms S k π →
      pageAt (Function.update s.mem 0 fun _ => 0) (rootOf k) π = pageAt s.mem (rootOf k) π := by
    intro k π hπ
    cases k with
    | page p => rw [hπ.2]; rfl
    | space v => exact hspace v π hπ
  refine ⟨⟨fun k π k' π' x hA hB hx hx' => ?_, h.closed, h.sub, ?_, ?_⟩, hspace⟩
  · exact h.apart k π k' π' x hA hB ((hfollow k π hA).symm.trans hx) ((hfollow k' π' hB).symm.trans hx')
  · exact hs ▸ List.nodup_nil
  · intro q hq
    exact absurd (hs ▸ hq) List.not_mem_nil

end Paging

end Os003
