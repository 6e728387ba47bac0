import Os003.Mm.PageMap

set_option autoImplicit false

/-! # What a mapping leaves alone

`map_page` should change the translation of one page of 4 KiB. On a path of tables it does: the tables that
are missing are made empty, and an address that comes through an empty slot had no translation before.

A page of 2 MiB or 1 GiB on the path is not split, although `split_huge_page` is there for it: an
empty table takes its place, and the rest of the large page is lost. So the other translations stay
exactly when the address is not in a large page (`mapPage_frame_iff`).
-/

namespace Os003

namespace Paging

variable {s : State} {mem : Mem} {root t i j l v u : Nat} {e : Word} {n p : Nat} {ps σ : List Nat}

/-- The tables below a root are different pages; there may be entries for large pages in them. -/
def DistinctTables (mem : Mem) (root : Nat) : Prop :=
  ∀ π π' t, Within 3 π → Within 3 π' → pageAt mem root π = some t → pageAt mem root π' = some t → π = π'

/-- The physical address of an address, if the entries on its path are present. -/
def State.translate (s : State) (v : Nat) : Option Word :=
  (leafOf s.mem 0 s.cr3 (indices v)).map fun (e, n) => (e &&& pageMask) + BitVec.ofNat 64 (v % 2 ^ n)

/-- The address is not in a page of 2 MiB or more. -/
def SmallPage (mem : Mem) (root v : Nat) : Prop :=
  ∀ e n, leafOf mem 0 root (indices v) = some (e, n) → n = 12

/-- `virt_to_phys` gives the address, and 0 when there is none. -/
theorem virtToPhys_translate (s : State) (v : Nat) : s.virtToPhys v = (s.translate v).getD 0 := by
  unfold State.virtToPhys State.translate
  rw [virtToPhysOn_eq]
  cases leafOf s.mem 0 s.cr3 (indices v) <;> rfl

/-! ## Entries on a path -/

/-- A translation goes on from a table on its path. -/
theorem leafOf_append {is : List Nat} {c : Nat} (hl : l + σ.length ≤ 3)
    (h : Forest.follow (next mem) l t σ = some c) :
    leafOf mem l t (σ ++ is) = leafOf mem (l + σ.length) c is := by
  induction σ generalizing l t with
  | nil =>
      obtain rfl := Option.some.inj h
      rfl
  | cons i σ ih =>
      rw [List.length_cons] at hl
      rw [Forest.follow_cons] at h
      obtain ⟨d, hd, h⟩ := Option.bind_eq_some_iff.mp h
      rw [List.cons_append, leafOf_next hd (by omega), ih (by omega) h, List.length_cons]
      congr 1
      omega

/-- The entry of a translation, where it stands and how large its page is. -/
theorem leafOf_some {is : List Nat} (h : leafOf mem l t is = some (e, n)) :
    ∃ σ i ρ x, is = σ ++ i :: ρ ∧ Forest.follow (next mem) l t σ = some x ∧ mem x i = e ∧
      present e = true ∧ (3 ≤ l + σ.length ∨ huge e = true) ∧ n = 39 - 9 * (l + σ.length) := by
  induction is generalizing l t with
  | nil => cases h
  | cons i is ih =>
      unfold leafOf at h
      split at h
      · cases h
      next hp =>
        split at h
        next hleaf =>
          obtain ⟨rfl, rfl⟩ := Prod.mk.inj (Option.some.inj h)
          refine ⟨[], i, is, t, rfl, rfl, rfl, by simpa using hp, ?_, rfl⟩
          simpa using hleaf
        next hinner =>
          obtain ⟨σ, i', ρ, x, rfl, hx, he, hpe, hhe, rfl⟩ := ih h
          have hn : next mem l t i = some (tableOf (mem t i)) := by
            simp at hp hinner
            exact next_eq_some.mpr ⟨hp, by simp [hinner.2], rfl⟩
          refine ⟨i :: σ, i', ρ, x, rfl, ?_, he, hpe, ?_, ?_⟩
          · rw [Forest.follow_cons, hn]
            exact hx
          · rw [List.length_cons]
            exact hhe.imp (by omega) id
          · rw [List.length_cons]
            omega

theorem leafOf_zero {is : List Nat} (h : mem t = fun _ => 0) : leafOf mem l t is = none := by
  cases is with
  | nil => rfl
  | cons i is =>
      have hp : present (mem t i) = false := by rw [h]; exact present_zero
      simp [leafOf, hp]

theorem split_at {is : List Nat} (h : is[l]? = some i) : is = is.take l ++ i :: is.drop (l + 1) := by
  have htake := List.take_append_drop (l + 1) is
  rw [take_concat h, List.append_assoc, List.singleton_append] at htake
  exact htake.symm

theorem length_take_indices (v : Nat) (hl : l ≤ 4) : ((indices v).take l).length = l := by
  rw [List.length_take]
  exact min_eq_left hl

/-! ## On small pages -/

theorem DistinctTables.sound (h : DistinctTables s.mem s.cr3) (hp : FreshPages s s.supply) :
    Sound s.cr3 s :=
  sound_of_distinct h hp

/-- A translation reads the slots on its path, and none of them is in a page that is given next. -/
theorem Sound.leafOf_congr {mem' : Mem} (h : Sound root s)
    (hsame : ∀ τ j x, Within 3 τ → τ ++ [j] <+: indices u → pageAt s.mem root τ = some x →
      x ∉ s.supply → mem' x j = s.mem x j) :
    leafOf mem' 0 root (indices u) = leafOf s.mem 0 root (indices u) := by
  refine Paging.leafOf_congr (by decide) fun τ j ρ x hτ hlen hx => ?_
  have hwithin : Within 3 τ := by
    have hw := within_indices u
    rw [hτ] at hw
    exact ⟨by omega, hw.initial.2⟩
  refine hsame τ j x hwithin ⟨ρ, by rw [hτ]; simp⟩ hx ?_
  intro hmem
  exact (h.fresh x hmem).2.2 () τ hwithin hx

/-- A slot of a table that is not on the path of an address does not matter for it. -/
theorem Sound.leafOf_frame {mem' : Mem} (h : Sound root s) (hσ : Within 3 σ)
    (hnode : pageAt s.mem root σ = some t) (hu : ¬ σ ++ [i] <+: indices u)
    (hsame : ∀ x j, x ∉ s.supply → (x ≠ t ∨ j ≠ i) → mem' x j = s.mem x j) :
    leafOf mem' 0 root (indices u) = leafOf s.mem 0 root (indices u) := by
  refine h.leafOf_congr fun τ j x hτ hpath hx hmem => hsame x j hmem ?_
  by_contra hne
  push Not at hne
  obtain ⟨rfl, rfl⟩ := hne
  obtain ⟨-, rfl⟩ := h.apart () σ () τ x hσ hτ hnode hx
  exact hu hpath

/-- A table for a slot that is not present changes no translation. -/
theorem Sound.leafOf_attach (h : Sound root s) (hσ : Within 3 σ) (hlen : σ.length < 3)
    (hnode : pageAt s.mem root σ = some t) (hp : present (s.mem t i) = false)
    (hs : s.supply = p :: ps) (u : Nat) :
    leafOf (s.attach t i).mem 0 root (indices u) = leafOf s.mem 0 root (indices u) := by
  have hp52 := (h.fresh p (by simp [hs])).2.1
  have ht : t ≠ p := h.ne_fresh (k := ()) hs hσ hnode
  by_cases hu : σ ++ [i] <+: indices u
  · -- through an empty slot before, and through an empty table after
    obtain ⟨ρ, hρ⟩ := hu
    have hnone : next s.mem σ.length t i = none := next_eq_none.mpr (.inl hp)
    have hnode' : pageAt (s.attach t i).mem root σ = some t := by
      have hinner : Forest.Inner (fun _ : Unit => Within 3) () σ := h.closed.inner hσ
      rw [h.follow_attach (k := ()) hσ hnode hnone hs hinner, if_neg, hnode]
      rintro ⟨-, heq⟩
      simpa using congrArg List.length heq
    have hbefore : leafOf s.mem 0 root (indices u) = none := by
      rw [← hρ, List.append_assoc, leafOf_append (by omega) hnode]
      simp [leafOf, hp]
    have hafter : leafOf (s.attach t i).mem 0 root (indices u) = none := by
      rw [← hρ, List.append_assoc, leafOf_append (by omega) hnode', List.singleton_append,
        leafOf_next (next_link hp52 (attach_here hs)) (by omega)]
      exact leafOf_zero (attach_blank hs ht)
    rw [hafter, hbefore]
  · refine h.leafOf_frame hσ hnode hu fun x j hx hne => attach_mem hs ?_ hne
    rintro rfl
    exact hx (by simp [hs])

/-- A walk to an address in a small page changes no translation. -/
def Unmoved (root v : Nat) (s₀ : State) (l t : Nat) (s : State) : Prop :=
  Walked (fun _ : Unit => root) (fun _ => Within 3) (fun _ => Within 3) () (indices v) s₀ l t s ∧
    ∀ u, leafOf s.mem 0 root (indices u) = leafOf s₀.mem 0 root (indices u)

theorem unmoved_descends {s₀ : State} (hsmall : SmallPage s₀.mem root v) :
    Descends (Unmoved root v s₀) (indices v) := by
  have hA : ∀ l < 3, Within 3 ((indices v).take l) := fun l hl =>
    within_take (within_indices v) hl.le
  have hdescends : Descends (Walked (fun _ : Unit => root) (fun _ => Within 3) (fun _ => Within 3) ()
    (indices v) s₀) (indices v) := Walked.descends rfl hA
  refine ⟨fun l t i c s hl hi h hc => ⟨hdescends.descend l t i c s hl hi h.1 hc, h.2⟩, ?_,
    fun l t s h => hdescends.page l t s h.1⟩
  intro l t i p ps s hl hi ⟨hw, hsame⟩ hn hs
  refine ⟨hdescends.attach l t i p ps s hl hi hw hn hs, fun u => ?_⟩
  have hlength := length_take_indices v (show l ≤ 4 by omega)
  have hp : present (s.mem t i) = false := by
    by_contra hp
    have hpres : present (s.mem t i) = true := by simpa using hp
    have hhuge := ((next_eq_none.mp hn).resolve_left hp).2
    -- then the address is in the page of that entry, which is a large one
    have hleaf : leafOf s.mem 0 root (indices v) = some (s.mem t i, 39 - 9 * l) := by
      rw [split_at hi, leafOf_append (by omega) hw.here, hlength]
      simp [leafOf, hpres, hhuge]
    have := hsmall _ _ ((hsame v).symm.trans hleaf)
    omega
  rw [← hsame u]
  exact Sound.leafOf_attach hw.trees (hA l hl) (by omega) hw.here hp hs u

/-- `map_page` changes the entry of one page when that page is small. -/
theorem DistinctTables.leafOf_mapPage {phys flags : Word} (h : DistinctTables s.mem s.cr3)
    (hp : FreshPages s s.supply) (hsmall : SmallPage s.mem s.cr3 v)
    (hok : (mapPage v phys flags s).failed = false) (hu : indices u ≠ indices v) :
    (mapPage v phys flags s).cr3 = s.cr3 ∧
      leafOf (mapPage v phys flags s).mem 0 s.cr3 (indices u) = leafOf s.mem 0 s.cr3 (indices u) := by
  have hstart : Unmoved s.cr3 v s 0 s.cr3 s := ⟨(h.sound hp).walked () (indices v), fun _ => rfl⟩
  have hleak : ∀ t p ps s', Unmoved s.cr3 v s 3 t s' → s'.supply = p :: ps →
      Unmoved s.cr3 v s 3 t s'.mallocPage.2 := by
    intro t p ps s' ⟨hw, hsame⟩ hs
    refine ⟨hw.leak (fun l hl => within_take (within_indices v) hl) hs, fun u => ?_⟩
    rw [← hsame u]
    refine Sound.leafOf_congr hw.trees fun τ j x _ _ _ hx => ?_
    have hxp : x ≠ p := by
      rintro rfl
      exact hx (by simp [hs])
    rw [State.mallocPage_cons hs]
    simp [hxp]
  obtain ⟨t, s', ⟨hw, hsame⟩, hmap⟩ := mapPage_walks (unmoved_descends hsmall) hleak hstart hok
  rw [hmap]
  refine ⟨hw.globals.cr3, ?_⟩
  rw [← hsame u]
  refine Sound.leafOf_frame (i := ptIndex v) hw.trees (within_upper v) hw.here ?_ ?_
  · intro hpre
    rw [← indices_eq] at hpre
    exact hu (hpre.eq_of_length rfl).symm
  · exact fun x j _ hne => State.write_other hne

/-! ## On large pages -/

/-- An address that is in the same large page and not in the same small one. -/
theorem exists_sibling (hv : Canonical v) (hl : l < 3) : ∃ u, Canonical u ∧ u / pageSize ≠ v / pageSize ∧
    (indices u).take (l + 1) = (indices v).take (l + 1) ∧
    (indices u)[l + 1]? ≠ (indices v)[l + 1]? := by
  unfold Canonical at hv
  -- the lowest bit of the next index is flipped
  by_cases hbit : v / 2 ^ (30 - 9 * l) % 2 = 0
  · refine ⟨v + 2 ^ (30 - 9 * l), ?_⟩
    interval_cases l <;>
      simp only [Canonical, indices, pml4Index, pdptIndex, pdIndex, ptIndex, pageSize, List.take,
        List.cons.injEq, List.getElem?_cons_succ, List.getElem?_cons_zero, ne_eq, Option.some.injEq,
        and_true] <;> omega
  · refine ⟨v - 2 ^ (30 - 9 * l), ?_⟩
    interval_cases l <;>
      simp only [Canonical, indices, pml4Index, pdptIndex, pdIndex, ptIndex, pageSize, List.take,
        List.cons.injEq, List.getElem?_cons_succ, List.getElem?_cons_zero, ne_eq, Option.some.injEq,
        and_true] <;> omega

/-- The entry of a large page is in one of the tables above the leaf table. -/
theorem exists_large (h : ¬ SmallPage mem root v) : ∃ l i t, l < 3 ∧ (indices v)[l]? = some i ∧
    pageAt mem root ((indices v).take l) = some t ∧ present (mem t i) = true ∧
    huge (mem t i) = true := by
  unfold SmallPage at h
  push Not at h
  obtain ⟨e, n, hleaf, hn⟩ := h
  obtain ⟨σ, i, ρ, x, hσ, hx, rfl, hp, hlarge, rfl⟩ := leafOf_some hleaf
  rw [Nat.zero_add] at hlarge hn
  have hlen : σ.length < 4 := by
    have := congrArg List.length hσ
    simp [indices] at this
    omega
  have hl : σ.length < 3 := by omega
  refine ⟨σ.length, i, x, hl, ?_, ?_, hp, hlarge.resolve_left (by omega)⟩
  · rw [hσ]
    simp
  · rw [hσ, List.take_left]
    exact hx

/-- Where the walk found no table it has left an empty one, with the next slot of the path at most. -/
theorem Walked.new_table {s₀ : State} (h : Walked (fun _ : Unit => root) (fun _ => Within 3)
      (fun _ => Within 3) () (indices v) s₀ 3 t s) (hl : l < 3)
    (hnone : pageAt s₀.mem root ((indices v).take (l + 1)) = none) :
    ∃ y, pageAt s.mem root ((indices v).take (l + 1)) = some y ∧
      ∀ j, (indices v)[l + 1]? ≠ some j → s.mem y j = 0 := by
  have hwithin : ∀ m ≤ 3, Within 3 ((indices v).take m) := fun m hm =>
    within_take (within_indices v) hm
  obtain ⟨y, hy, -⟩ : ∃ y, pageAt s.mem root ((indices v).take (l + 1)) = some y ∧ _ := by
    refine Forest.follow_prefix (ρ := ((indices v).take 3).drop (l + 1)) (c := t) ?_
    rw [← min_eq_left (show l + 1 ≤ 3 by omega), ← List.take_take, min_eq_left (by omega),
      List.take_append_drop]
    exact h.here
  refine ⟨y, hy, fun j hj => ?_⟩
  -- the table is one of the pages that were given
  have hgiven : y ∈ s₀.supply := by
    rcases h.follow () _ (h.trees.closed.inner (hwithin (l + 1) (by omega))) with hold |
      ⟨-, -, -, -, p, hp, hnew⟩
    · rw [hold, hnone] at hy
      cases hy
    · obtain rfl := Option.some.inj (hy.symm.trans hnew)
      exact hp
  rcases h.slot y j with ⟨-, hkept⟩ | ⟨hzero, -⟩ | ⟨m, p, hm, -, hmj, hnode, -⟩
  · exact absurd hy ((h.trees.fresh y (hkept hgiven)).2.2 () _ (hwithin (l + 1) (by omega)))
  · exact hzero
  · obtain ⟨-, heq⟩ := h.trees.apart () _ () _ y (hwithin (l + 1) (by omega)) (hwithin m (by omega))
      hy hnode
    have hlength := congrArg List.length heq
    rw [length_take_indices v (by omega), length_take_indices v (by omega)] at hlength
    exact absurd (hlength ▸ hmj) hj

/-- The last write of a call leaves that table empty but for the path. -/
theorem Walked.new_table_write {s₀ : State} (h : Walked (fun _ : Unit => root) (fun _ => Within 3)
      (fun _ => Within 3) () (indices v) s₀ 3 t s) (w : Word) (hl : l < 3)
    (hnone : pageAt s₀.mem root ((indices v).take (l + 1)) = none) :
    ∃ y, pageAt (s.write t (ptIndex v) w).mem root ((indices v).take (l + 1)) = some y ∧
      ∀ j, (indices v)[l + 1]? ≠ some j → (s.write t (ptIndex v) w).mem y j = 0 := by
  obtain ⟨y, hy, hzero⟩ := h.new_table hl hnone
  have hwithin : Within 3 ((indices v).take (l + 1)) := within_take (within_indices v) (by omega)
  have hlength := length_take_indices v (show l + 1 ≤ 4 by omega)
  have hupper : (upper v).length = 3 := rfl
  have hinner : Forest.Inner (fun _ : Unit => Within 3) () ((indices v).take (l + 1)) :=
    h.trees.closed.inner hwithin
  refine ⟨y, ?_, fun j hj => ?_⟩
  · rw [h.trees.follow_write (k := ()) (within_upper v) h.here (by omega) hinner, if_neg, hy]
    rintro ⟨-, heq⟩
    have := congrArg List.length heq
    rw [hlength, List.length_append, hupper, List.length_singleton] at this
    omega
  · rw [State.write_other, hzero j hj]
    by_contra hne
    push Not at hne
    obtain ⟨rfl, rfl⟩ := hne
    obtain ⟨-, heq⟩ := h.trees.apart () _ () _ y hwithin (within_upper v) hy h.here
    have hlast : l + 1 = 3 := hlength.symm.trans (congrArg List.length heq)
    rw [hlast] at hj
    exact hj rfl

/-- An address in the large page loses its translation. -/
theorem DistinctTables.lost {phys flags : Word} (h : DistinctTables s.mem s.cr3)
    (hp : FreshPages s s.supply) (hv : Canonical v) (hlarge : ¬ SmallPage s.mem s.cr3 v)
    (hok : (mapPage v phys flags s).failed = false) :
    ∃ u, Canonical u ∧ u / pageSize ≠ v / pageSize ∧
      (mapPage v phys flags s).translate u = none ∧ s.translate u ≠ none := by
  obtain ⟨l, i, x, hl, hi, hx, hpres, hhuge⟩ := exists_large hlarge
  obtain ⟨u, hu, hpage, htake, hnext⟩ := exists_sibling hv hl
  have hlength := length_take_indices v (show l ≤ 4 by omega)
  refine ⟨u, hu, hpage, ?_, ?_⟩
  · have hnone : pageAt s.mem s.cr3 ((indices v).take (l + 1)) = none := by
      rw [take_concat hi, pageAt, Forest.follow_concat hx, hlength]
      exact next_eq_none.mpr (.inr ⟨by omega, hhuge⟩)
    obtain ⟨t, s', hw, hmap⟩ := (h.sound hp).mapPage (k := ())
      (fun l hl => within_take (within_indices v) hl) rfl hok
    obtain ⟨y, hy, hzero⟩ := hw.new_table_write (phys ||| flags ||| ptePresent) hl hnone
    obtain ⟨j, hj⟩ : ∃ j, (indices u)[l + 1]? = some j :=
      ⟨_, List.getElem?_eq_getElem (show l + 1 < (indices u).length by simp [indices]; omega)⟩
    rw [← htake] at hy
    rw [hj] at hnext
    have hp : present ((s'.write t (ptIndex v) (phys ||| flags ||| ptePresent)).mem y j) = false := by
      rw [hzero j fun heq => hnext heq.symm]
      exact present_zero
    rw [hmap]
    unfold State.translate
    rw [State.write_cr3, hw.globals.cr3, split_at hj, leafOf_append ?_ hy]
    · simp [leafOf, hp]
    · rw [length_take_indices u (by omega)]
      omega
  · have hui : (indices u)[l]? = some i := by
      rw [← hi, ← List.getElem?_take_of_lt (show l < l + 1 by omega), htake,
        List.getElem?_take_of_lt (by omega)]
    have htake' : (indices u).take l = (indices v).take l := by
      have := congrArg (List.take l) htake
      rwa [List.take_take, List.take_take, min_eq_left (by omega)] at this
    unfold State.translate
    rw [split_at hui, htake', leafOf_append (by omega) hx, hlength]
    simp [leafOf, hpres, hhuge]

/-- A call of `map_page` keeps the translations of the other pages exactly if the address is not in a page
of 2 MiB or more. -/
theorem mapPage_frame_iff {phys flags : Word} (h : DistinctTables s.mem s.cr3)
    (hp : FreshPages s s.supply) (hv : Canonical v) (hok : (mapPage v phys flags s).failed = false) :
    (∀ u, Canonical u → u / pageSize ≠ v / pageSize →
      (mapPage v phys flags s).translate u = s.translate u) ↔ SmallPage s.mem s.cr3 v := by
  constructor
  · intro hsame
    by_contra hlarge
    obtain ⟨u, hu, hpage, hafter, hbefore⟩ := h.lost hp hv hlarge hok
    exact hbefore ((hsame u hu hpage).symm.trans hafter)
  · intro hsmall u hu hpage
    have hne : indices u ≠ indices v := fun heq => hpage (indices_inj hu hv heq)
    obtain ⟨hcr3, hleaf⟩ := h.leafOf_mapPage hp hsmall hok hne
    unfold State.translate
    rw [hcr3, hleaf]

/-- The tables 1 to 4, each in the first slot of the one before, but with the entry `e` for the first 2 MiB;
page 5 is mapped at 0. -/
def lowMemory (e : Word) : State :=
  { blankState with
    mem := fun p i =>
      if i ≠ 0 then 0
      else if p = 1 then link 2
      else if p = 2 then link 3
      else if p = 3 then e
      else if p = 4 then link 5
      else 0
    supply := [6, 7] }

theorem lowMemory_next {c : Nat} (he : e = 0x83 ∨ e = link 4) (hl : l < 3)
    (h : next (lowMemory e).mem l t i = some c) : i = 0 ∧ c = t + 1 := by
  obtain ⟨hp, hh, rfl⟩ := next_eq_some.mp h
  have hhuge : huge ((lowMemory e).mem t i) = false := by simpa [hl] using hh
  have hslots : (lowMemory e).mem t i = 0 ∨ i = 0 ∧ (t = 1 ∧ (lowMemory e).mem t i = link 2 ∨
      t = 2 ∧ (lowMemory e).mem t i = link 3 ∨ t = 3 ∧ (lowMemory e).mem t i = e ∨
      t = 4 ∧ (lowMemory e).mem t i = link 5) := by
    by_cases hi : i = 0
    · rcases (by omega : t = 1 ∨ t = 2 ∨ t = 3 ∨ t = 4 ∨ t ≠ 1 ∧ t ≠ 2 ∧ t ≠ 3 ∧ t ≠ 4) with
        rfl | rfl | rfl | rfl | ht
      · exact .inr ⟨hi, .inl ⟨rfl, by simp [lowMemory, hi]⟩⟩
      · exact .inr ⟨hi, .inr (.inl ⟨rfl, by simp [lowMemory, hi]⟩)⟩
      · exact .inr ⟨hi, .inr (.inr (.inl ⟨rfl, by simp [lowMemory, hi]⟩))⟩
      · exact .inr ⟨hi, .inr (.inr (.inr ⟨rfl, by simp [lowMemory, hi]⟩))⟩
      · exact .inl (by simp [lowMemory, ht])
    · exact .inl (by simp [lowMemory, hi])
  rcases hslots with h0 | ⟨rfl, ⟨rfl, h⟩ | ⟨rfl, h⟩ | ⟨rfl, h⟩ | ⟨rfl, h⟩⟩
  · rw [h0, present_zero] at hp
    cases hp
  · exact ⟨rfl, by rw [h, tableOf_link (by decide)]⟩
  · exact ⟨rfl, by rw [h, tableOf_link (by decide)]⟩
  · rcases he with rfl | rfl
    · rw [h] at hhuge
      cases hhuge
    · exact ⟨rfl, by rw [h, tableOf_link (by decide)]⟩
  · exact ⟨rfl, by rw [h, tableOf_link (by decide)]⟩

theorem lowMemory_follow {x : Nat} {π : List Nat} (he : e = 0x83 ∨ e = link 4)
    (hl : l + π.length ≤ 3) (h : Forest.follow (next (lowMemory e).mem) l t π = some x) :
    π = List.replicate π.length 0 ∧ x = t + π.length := by
  induction π generalizing l t with
  | nil => exact ⟨rfl, (Option.some.inj h).symm⟩
  | cons i π ih =>
      rw [List.length_cons] at hl
      rw [Forest.follow_cons] at h
      obtain ⟨c, hc, h⟩ := Option.bind_eq_some_iff.mp h
      obtain ⟨rfl, rfl⟩ := lowMemory_next he (by omega) hc
      obtain ⟨hπ, rfl⟩ := ih (by omega) h
      refine ⟨?_, by rw [List.length_cons]; omega⟩
      rw [List.length_cons, List.replicate_succ, ← hπ]

theorem lowMemory_distinct (he : e = 0x83 ∨ e = link 4) : DistinctTables (lowMemory e).mem 1 := by
  intro π π' t hπ hπ' hx hx'
  obtain ⟨h, rfl⟩ := lowMemory_follow he (by have := hπ.1; omega) hx
  obtain ⟨h', hlen⟩ := lowMemory_follow he (by have := hπ'.1; omega) hx'
  rw [h, h', show π.length = π'.length by omega]

theorem lowMemory_fresh (he : e = 0x83 ∨ e = link 4) : FreshPages (lowMemory e) [6, 7] := by
  refine ⟨by decide, fun p hp => ?_⟩
  have hpage : p = 6 ∨ p = 7 := by simpa using hp
  refine ⟨by omega, by omega, fun π hπ hx => ?_⟩
  have hlen := hπ.1
  obtain ⟨-, h⟩ := lowMemory_follow he (by omega) hx
  have : p = 1 + π.length := h
  omega

theorem mapPage_frame_small : (mapPage 0x1000 0x9000 0x3 (lowMemory (link 4))).translate 0x123 =
    (lowMemory (link 4)).translate 0x123 := by
  have hsmall : SmallPage (lowMemory (link 4)).mem 1 0x1000 := by
    have hnone : leafOf (lowMemory (link 4)).mem 0 1 (indices 0x1000) = none := by decide
    intro e n h
    rw [hnone] at h
    cases h
  exact (mapPage_frame_iff (lowMemory_distinct (.inr rfl)) (lowMemory_fresh (.inr rfl))
    (.inl (by decide)) (by decide)).mpr hsmall 0x123 (.inl (by decide)) (by decide)

/-- The first 2 MiB are one page; the mapping of 0x1000 ends the translation of 0x3000. -/
theorem large_page_lost : DistinctTables (lowMemory 0x83).mem 1 ∧ FreshPages (lowMemory 0x83) [6, 7] ∧
    (mapPage 0x1000 0x9000 0x3 (lowMemory 0x83)).failed = false ∧
    (lowMemory 0x83).translate 0x3000 = some 0x3000 ∧
    (mapPage 0x1000 0x9000 0x3 (lowMemory 0x83)).translate 0x3000 = none :=
  ⟨lowMemory_distinct (.inl rfl), lowMemory_fresh (.inl rfl), by decide, by decide, by decide⟩

end Paging

end Os003
